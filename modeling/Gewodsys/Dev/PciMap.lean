import Gewodsys.Dev.PciBar
import Gewodsys.Mem.VmmRuns

/-!
# Mapping BAR0

* `xhciInitializeBar`, `cherryTrailInitialize` : the decoding of the base address registers and the mapping of their
  pages to themselves;
* `bar0_identity_iff` : the page of a 64-bit BAR0 is mapped to itself if and only if the base is below `2^40`.
-/

namespace Gewodsys.Dev
open Gewodsys.Machine Gewodsys.Mem

/-! ## The drivers -/

section
variable {σ : Type} (request : Phys σ → Option (Nat × Phys σ)) (kPML4 : Nat)

/-- `XhciInitialize` up to its mapping: `mmio_base`, the ports and memory. -/
def xhciInitializeBar (p : PciPorts) (device : PciDevice) (s : Phys σ) : Option (Nat × PciPorts × Phys σ) :=
  let p := pciMaybeEnableBusMastering p device
  let p := pciMaybeEnableMemoryAccess p device
  let (mmioBase, p) := inlineBar p device 0x10
  (mmMapMemory request kPML4 mmioBase mmioBase s).map fun s => (mmioBase, p, s)

def cherryTrailInitialize (p : PciPorts) (device : PciDevice) (s : Phys σ) : Option (PciPorts × Phys σ) :=
  let (gttmmaddr, p) := inlineBar p device 0x10
  let (gmadr, p) := inlineBar p device 0x18
  -- `iobase` is only printed
  let (_, p) := pciRead32 p device 0x20
  (mmMapMemory request kPML4 gttmmaddr gttmmaddr s).bind fun s =>
    (mmMapMemory request kPML4 gmadr gmadr s).map fun s => (p, s)

end

/-! ## The base that is decoded -/

/-- The register at `offset` is a 64-bit memory register with base `b`: bit 0 clear, bit 2 set, the other flags any. -/
structure MemoryBar64 (p : PciPorts) (d : PciDevice) (offset : UInt8) (b : Nat) : Prop where
  memory : (barLow p d offset).testBit 0 = false
  wide : (barLow p d offset).testBit 2 = true
  base : b = barLow p d offset / 16 * 16 + barHigh p d offset * 2 ^ 32

theorem inlineBar_memoryBar64 {p : PciPorts} {d : PciDevice} {offset : UInt8} {b : Nat} (h : MemoryBar64 p d offset b) :
    (inlineBar p d offset).1 = b := by
  have hlow : barLow p d offset < 2 ^ 32 := pciRead32_lt p d offset
  have hhigh : barHigh p d offset < 2 ^ 32 := pciRead32_lt _ d (offset + 4)
  have hnotF : notF = 2 ^ 64 - 2 ^ 4 := rfl
  rw [inlineBar_of_memory p d offset h.memory, barOfFlags, h.memory, h.wide, h.base]
  simp only [if_true, Bool.false_eq_true, if_false]
  rw [Nat.shiftLeft_eq, lor_eq_add (k := 32) (Nat.mul_mod_left _ _) hlow, hnotF, land_mask _ 4 64 (by decide)]
  omega

theorem inlineBar_lt (p : PciPorts) (d : PciDevice) (offset : UInt8) : (inlineBar p d offset).1 < 2 ^ 64 := by
  have hmask : (inlineBar p d offset).1 ≤ notF := by
    rw [inlineBar]
    exact Nat.and_le_right
  exact hmask.trans_lt (by decide)

theorem config_inlineBar (p : PciPorts) (d : PciDevice) (offset : UInt8) : (inlineBar p d offset).2.config = p.config := by
  change (if (pciRead32 p d offset).1 &&& kPciBar64 ≠ 0 then _ else _ : Nat × PciPorts).2.config = p.config
  split_ifs
  · rfl
  · rfl

theorem inlineBar_congr {p p' : PciPorts} (h : p.config = p'.config) (d : PciDevice) (offset : UInt8) :
    (inlineBar p d offset).1 = (inlineBar p' d offset).1 := by
  have hlow : barLow p d offset = barLow p' d offset := pciRead32_congr h d offset
  have hhigh : barHigh p d offset = barHigh p' d offset :=
    pciRead32_congr (by rw [config_pciRead32, config_pciRead32, h]) d (offset + 4)
  rw [inlineBar_eq, inlineBar_eq, hlow, hhigh]

theorem OnlyBytes.read {p p' : PciPorts} {d : PciDevice} {o n : Nat} (h : OnlyBytes p p' d o n) (hd : d.Valid) {a k : Nat}
    (hout : a + k ≤ o ∨ o + n ≤ a) (hfit : a + k ≤ 256) :
    p'.config.read (functionBase d + a) k = p.config.read (functionBase d + a) k := by
  apply Mem.read_congr
  intro x h1 h2
  obtain ⟨j, rfl⟩ : ∃ j, x = functionBase d + j := ⟨x - functionBase d, by omega⟩
  exact h d hd j (by omega) (by omega)

theorem MemoryBar64.enable {p : PciPorts} {d : PciDevice} (hd : d.Valid) {b : Nat} (h : MemoryBar64 p d 0x10 b)
    (bit : Nat) : MemoryBar64 (pciMaybeEnable p d bit) d 0x10 b := by
  have honly := onlyBytes_pciMaybeEnable p hd bit
  have hlow : barLow (pciMaybeEnable p d bit) d 0x10 = barLow p d 0x10 := by
    rw [barLow, barLow, pciRead32_eq _ hd (by decide) (by decide), pciRead32_eq _ hd (by decide) (by decide)]
    exact honly.read hd (by decide) (by decide)
  have hhigh : barHigh (pciMaybeEnable p d bit) d 0x10 = barHigh p d 0x10 := by
    rw [barHigh, barHigh, pciRead32_eq _ hd (by decide) (by decide), pciRead32_eq _ hd (by decide) (by decide),
      config_pciRead32, config_pciRead32]
    exact honly.read hd (by decide) (by decide)
  refine ⟨?_, ?_, ?_⟩
  · rw [hlow]
    exact h.memory
  · rw [hlow]
    exact h.wide
  · rw [hlow, hhigh]
    exact h.base

/-! ## The page of a base -/

section
variable {root : Nat}

/-- The page at `b` is mapped to itself. -/
def PageIdentity (m : Mem) (root b : Nat) : Prop := ∀ o < 4096, mmGetPhysicalAddress m root (b + o) = b + o

/-- Of a page below `2^48` that was mapped to itself, the low 40 bits remain. -/
theorem pageIdentity_iff {m : Mem} {b : Nat} (hal : b % 4096 = 0)
    (h : ∀ o < 4096, mmGetPhysicalAddress m root (b + o) = (b + o) % 2 ^ 40) : PageIdentity m root b ↔ b < 2 ^ 40 := by
  constructor
  · intro hid
    have hfirst := (h 0 (by decide)).symm.trans (hid 0 (by decide))
    omega
  · intro hlt o ho
    rw [h o ho]
    omega

end

/-! ## Both drivers -/

theorem xhciInitializeBar_eq {σ : Type} (request : Phys σ → Option (Nat × Phys σ)) (root : Nat) {p : PciPorts}
    {d : PciDevice} (hd : d.Valid) {b : Nat} (hbar : MemoryBar64 p d 0x10 b) (s : Phys σ) :
    (xhciInitializeBar request root p d s).map (·.2.2) = mapRun request root s [(b, b)] := by
  have hbase : (inlineBar (pciMaybeEnableMemoryAccess (pciMaybeEnableBusMastering p d) d) d 0x10).1 = b :=
    inlineBar_memoryBar64 ((hbar.enable hd 2).enable hd 1)
  rw [xhciInitializeBar]
  simp only [hbase]
  rw [Option.map_map, mapRun, run_cons]
  cases mmMapMemory request root b b s with
  | none => rfl
  | some s' => rfl

theorem cherryTrailInitialize_eq {σ : Type} (request : Phys σ → Option (Nat × Phys σ)) (root : Nat) {p : PciPorts}
    {d : PciDevice} {b : Nat} (hbar : MemoryBar64 p d 0x10 b) (s : Phys σ) :
    (cherryTrailInitialize request root p d s).map (·.2) =
      mapRun request root s [(b, b), ((inlineBar p d 0x18).1, (inlineBar p d 0x18).1)] := by
  have hbase := inlineBar_memoryBar64 hbar
  have hgmadr : (inlineBar (inlineBar p d 0x10).2 d 0x18).1 = (inlineBar p d 0x18).1 :=
    inlineBar_congr (config_inlineBar p d 0x10) d 0x18
  rw [cherryTrailInitialize]
  simp only [hbase, hgmadr]
  rw [mapRun, run_cons, Option.map_bind]
  cases mmMapMemory request root b b s with
  | none => rfl
  | some s' =>
      rw [Option.bind_some, Option.bind_some, run_cons]
      simp only [Function.comp]
      cases mmMapMemory request root (inlineBar p d 0x18).1 (inlineBar p d 0x18).1 s' with
      | none => rfl
      | some s'' => rfl

theorem pageNumber_offset {b o : Nat} (hal : b % 4096 = 0) (ho : o < 4096) : pageNumber (b + o) = pageNumber b := by
  unfold pageNumber
  omega

/-- **The page of BAR0.** `A` are the page and the base in the register at `0x18`; the tables on their paths are
different for different paths, and the source has enough pages, none of them a table. -/
theorem bar0_identity_iff {σ : Type} (src : PageSource σ) (root : Nat) {p : PciPorts} {d : PciDevice} (hd : d.Valid)
    {b : Nat} (hbar : MemoryBar64 p d 0x10 b) (hlt : b < 2 ^ 52) (hal : b % 4096 = 0) {A F : Set Nat} {s : Phys σ}
    (hroot : root % 4096 = 0) (hpage : ∀ o < 4096, b + o ∈ A) (hgmadr : (inlineBar p d 0x18).1 ∈ A)
    (hnoAlias : NoAlias swChild (entry s.mem) root (Involved A))
    (htables : ∀ q f, Involved A q → swTable s.mem root q = some f → f ∈ F)
    (hxhci : src.Ready (missing s.mem root (callPaths [b])).card F s)
    (hcherry : src.Ready (missing s.mem root (callPaths [b, (inlineBar p d 0x18).1])).card F s) :
    (∃ out, xhciInitializeBar src.request root p d s = some out ∧
      (PageIdentity out.2.2.mem root b ↔ b < 2 ^ 40)) ∧
    (∃ out, cherryTrailInitialize src.request root p d s = some out ∧
      (PageIdentity out.2.mem root b ↔ b < 2 ^ 40)) := by
  have hb : b < 2 ^ 64 ∧ b ∈ A := ⟨by omega, hpage 0 (by decide)⟩
  have hg : (inlineBar p d 0x18).1 < 2 ^ 64 ∧ (inlineBar p d 0x18).1 ∈ A := ⟨inlineBar_lt p d 0x18, hgmadr⟩
  constructor
  · obtain ⟨s', hrun, hs'⟩ := identity_run [b] hroot (by simpa using hb) hnoAlias htables hxhci
    obtain ⟨out, hout, rfl⟩ := Option.map_eq_some_iff.mp ((xhciInitializeBar_eq src.request root hd hbar s).trans hrun)
    refine ⟨out, hout, pageIdentity_iff hal fun o ho => hs' (b + o) (hpage o ho) ?_⟩
    rw [pageNumber_offset hal ho]
    exact List.mem_cons_self
  · obtain ⟨s', hrun, hs'⟩ := identity_run [b, (inlineBar p d 0x18).1] hroot (by simpa using ⟨hb, hg⟩) hnoAlias htables
      hcherry
    obtain ⟨out, hout, rfl⟩ := Option.map_eq_some_iff.mp ((cherryTrailInitialize_eq src.request root hbar s).trans hrun)
    refine ⟨out, hout, pageIdentity_iff hal fun o ho => hs' (b + o) (hpage o ho) ?_⟩
    rw [pageNumber_offset hal ho]
    exact List.mem_cons_self

/-- A function whose BAR0 reads `low`, then `high`. -/
def barPorts (low high : Nat) : PciPorts := ⟨0, Mem.write (Mem.write (fun _ => 0) 0x10 4 low) 0x14 4 high⟩

def barDevice : PciDevice := ⟨0, 0, 0, 0x8086, 0x22B5, 0xC, 3, 0⟩

theorem bar0_identity_below : ∃ out,
    xhciInitializeBar (mmRequestPage 20) 0x1000 (barPorts 0xFEBC0004 0) barDevice twelveState = some out ∧
      PageIdentity out.2.2.mem 0x1000 0xFEBC0000 := by
  have hcard : ∀ vs, (callPaths vs).card ≤ 9 → (missing twelveState.mem 0x1000 (callPaths vs)).card ≤ 9 :=
    fun vs h => (Finset.card_filter_le _ _).trans h
  obtain ⟨⟨out, hout, hiff⟩, -⟩ := bar0_identity_iff (pmmSource twelvePages lowRegion_twelvePages 20 (by decide +kernel))
    0x1000 (p := barPorts 0xFEBC0004 0) (d := barDevice) (b := 0xFEBC0000) (A := Set.univ) (F := {0x1000})
    ⟨by decide, by decide⟩ ⟨by decide, by decide, by decide⟩ (by decide) (by decide) (by decide)
    (fun _ _ => Set.mem_univ _) (Set.mem_univ _)
    (noAlias_twelveState _) (tables_twelveState _)
    (ready_twelveState (hcard _ (by decide +kernel))) (ready_twelveState (hcard _ (by decide +kernel)))
  exact ⟨out, hout, hiff.mpr (by decide)⟩

/-- A base of `2^40`: the page is mapped to frame 0. -/
theorem bar0_identity_high : MemoryBar64 (barPorts 4 0x100) barDevice 0x10 (2 ^ 40) ∧ ∃ out,
    xhciInitializeBar (mmRequestPage 20) 0x1000 (barPorts 4 0x100) barDevice twelveState = some out ∧
      mmGetPhysicalAddress out.2.2.mem 0x1000 (2 ^ 40) = 0 ∧ ¬ PageIdentity out.2.2.mem 0x1000 (2 ^ 40) := by
  have hbar : MemoryBar64 (barPorts 4 0x100) barDevice 0x10 (2 ^ 40) := ⟨by decide, by decide, by decide⟩
  obtain ⟨s', hrun, hs'⟩ := @identity_run_twelve [2 ^ 40] (by decide) (by decide +kernel)
  obtain ⟨out, hout, rfl⟩ := Option.map_eq_some_iff.mp
    ((xhciInitializeBar_eq (mmRequestPage 20) 0x1000 ⟨by decide, by decide⟩ hbar twelveState).trans hrun)
  have hzero : mmGetPhysicalAddress out.2.2.mem 0x1000 (2 ^ 40) = 0 := hs' (2 ^ 40) List.mem_cons_self
  exact ⟨hbar, out, hout, hzero, fun hid => absurd (hzero.symm.trans (hid 0 (by decide))) (by decide)⟩

end Gewodsys.Dev
