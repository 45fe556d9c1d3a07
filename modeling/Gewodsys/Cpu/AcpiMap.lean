import Gewodsys.Mem.VmmRuns

/-!
# `laihost_map` (`cpu/acpi.c`)

The host maps the range that a program of the firmware is about to access. The loop goes from the start of the page of the
address in steps of a page, as many of them as `count` bytes have.

* `laihostMap` : the loop, with fuel, and the pointer that is returned;
* `laihostMap_run` : the loop as a run of `MmMapMemory(v, v)` over `mappedPages`;
* `laihostMap_iff` : the range is mapped to itself and the pointer is that of the address if and only if the address is
  the start of a page and the range ends below `2^40`.
-/

namespace Gewodsys.Cpu
open Gewodsys.Machine Gewodsys.Mem

section
variable {σ : Type} (request : Phys σ → Option (Nat × Phys σ)) (kPML4 : Nat)

/-- `for (i = ...; i < count; i += PAGE_SIZE) MmMapMemory(address + i, address + i)`. -/
def laihostMapLoop (address count : Nat) : Nat → Nat → Phys σ → Option (Phys σ)
  | 0, _, _ => none
  | fuel + 1, i, s =>
      if i < count then
        (mmMapMemory request kPML4 (add64 address i) (add64 address i) s).bind
          (laihostMapLoop address count fuel (add64 i pageSize))
      else some s

/-- The pointer returned and memory. -/
def laihostMap (fuel address count : Nat) (s : Phys σ) : Option (Nat × Phys σ) :=
  let address := address &&& 0xfffffffffffff000
  (laihostMapLoop request kPML4 address count fuel 0 s).map fun s => (address, s)

end

/-! ## The pages mapped -/

/-- The pages that the loop maps, by their addresses. -/
def mappedPages (address count : Nat) : List Nat := List.range' (address / 4096 * 4096) ((count + 4095) / 4096) 4096

theorem mem_mappedPages {address count v : Nat} :
    v ∈ mappedPages address count ↔ ∃ k, 4096 * k < count ∧ v = address / 4096 * 4096 + 4096 * k := by
  rw [mappedPages, List.mem_range']
  constructor
  · rintro ⟨k, hk, rfl⟩
    exact ⟨k, by omega, rfl⟩
  · rintro ⟨k, hk, rfl⟩
    exact ⟨k, by omega, rfl⟩

/-- The pages cover the bytes up to `count` behind the start of the first one, and more of the last page. -/
theorem pageNumber_mappedPages {address count u : Nat} (hle : address / 4096 * 4096 ≤ u)
    (hlt : u < address / 4096 * 4096 + count) : pageNumber u ∈ (mappedPages address count).map pageNumber := by
  apply List.mem_map.mpr
  refine ⟨u / 4096 * 4096, mem_mappedPages.mpr ⟨u / 4096 - address / 4096, by omega, by omega⟩, ?_⟩
  unfold pageNumber
  omega

variable {σ : Type} {src : PageSource σ} {root address count : Nat}

theorem laihostMapLoop_mono {request : Phys σ → Option (Nat × Phys σ)} {i fuel fuel' : Nat} {s s' : Phys σ}
    (hle : fuel ≤ fuel') (h : laihostMapLoop request root address count fuel i s = some s') :
    laihostMapLoop request root address count fuel' i s = some s' := by
  induction fuel generalizing fuel' i s with
  | zero => cases h
  | succ fuel ih =>
      obtain ⟨f, rfl⟩ : ∃ f, fuel' = f + 1 := ⟨fuel' - 1, by omega⟩
      rw [laihostMapLoop] at h ⊢
      split_ifs at h ⊢ with hi
      · obtain ⟨s₁, hmap, hrest⟩ := Option.bind_eq_some_iff.mp h
        rw [hmap, Option.bind_some]
        exact ih (by omega) hrest
      · exact h

theorem laihostMapLoop_run (request : Phys σ → Option (Nat × Phys σ)) {base : Nat} (hlt : base + count < 2 ^ 63)
    {n i fuel : Nat} (hn : n = (count - i + 4095) / 4096) (hi : i < count + 4096) (hfuel : n < fuel) (s : Phys σ) :
    laihostMapLoop request root base count fuel i s =
      mapRun request root s ((List.range' (base + i) n 4096).map fun v => (v, v)) := by
  induction n generalizing i fuel s with
  | zero =>
      obtain ⟨fuel, rfl⟩ : ∃ f, fuel = f + 1 := ⟨fuel - 1, by omega⟩
      rw [laihostMapLoop, if_neg (by omega)]
      rfl
  | succ n ih =>
      obtain ⟨fuel, rfl⟩ : ∃ f, fuel = f + 1 := ⟨fuel - 1, by omega⟩
      have hpage : pageSize = 4096 := rfl
      rw [laihostMapLoop, if_pos (by omega), add64_of_lt (by omega), hpage, add64_of_lt (by omega), List.range'_succ,
        List.map_cons, mapRun, run_cons]
      have hrest : ∀ s', laihostMapLoop request root base count fuel (i + 4096) s' =
          mapRun request root s' ((List.range' (base + i + 4096) n 4096).map fun v => (v, v)) := fun s' => by
        rw [Nat.add_assoc]
        exact ih (by omega) (by omega) (by omega) s'
      simp only [hrest]
      rfl

/-- The call ends and returns `p`. -/
def MapReturns (request : Phys σ → Option (Nat × Phys σ)) (root address count : Nat) (s : Phys σ) (p : Nat) (s' : Phys σ) :
    Prop :=
  ∃ fuel, laihostMap request root fuel address count s = some (p, s')

theorem mapReturns_iff {request : Phys σ → Option (Nat × Phys σ)} {s s' : Phys σ} {p : Nat} (hlt : address + count < 2 ^ 63) :
    MapReturns request root address count s p s' ↔ p = address / 4096 * 4096 ∧
      mapRun request root s ((mappedPages address count).map fun v => (v, v)) = some s' := by
  have hloop : ∀ {fuel}, count + 1 < fuel →
      laihostMapLoop request root (address / 4096 * 4096) count fuel 0 s =
        mapRun request root s ((mappedPages address count).map fun v => (v, v)) := by
    intro fuel hfuel
    have hpages : (count + 4095) / 4096 = (count - 0 + 4095) / 4096 := by rw [Nat.sub_zero]
    rw [laihostMapLoop_run request (by omega) hpages (by omega) (by omega), Nat.add_zero]
    rfl
  constructor
  · rintro ⟨fuel, hmap⟩
    rw [laihostMap, land_page (by omega)] at hmap
    obtain ⟨t, ht, heq⟩ := Option.map_eq_some_iff.mp hmap
    obtain ⟨rfl, rfl⟩ := Prod.mk.inj heq
    have hmore := laihostMapLoop_mono (Nat.le_add_right fuel (count + 2)) ht
    rw [hloop (by omega)] at hmore
    exact ⟨rfl, hmore⟩
  · rintro ⟨rfl, hrun⟩
    refine ⟨count + 2, ?_⟩
    rw [laihostMap, land_page (by omega), hloop (by omega), hrun]
    rfl

/-! ## The contract of the host -/

/-- The call ends, every byte of the range is mapped to itself, and the pointer returned leads to the byte at `address`. -/
def MapOk (request : Phys σ → Option (Nat × Phys σ)) (root address count : Nat) (s : Phys σ) : Prop :=
  ∃ p s', MapReturns request root address count s p s' ∧
    (∀ u, address ≤ u → u < address + count → mmGetPhysicalAddress s'.mem root u = u) ∧
    mmGetPhysicalAddress s'.mem root p = address

/-- **`laihost_map`.** `A` are the bytes from the start of the first page to the end of the range; the tables on their paths
are different for different paths, and the source has enough pages, none of them a table. -/
theorem laihostMap_iff (src : PageSource σ) (root : Nat) {address count : Nat} (hcount : 0 < count)
    (hlt : address + count < 2 ^ 63) {A F : Set Nat} {s : Phys σ} (hroot : root % 4096 = 0)
    (hrange : ∀ u, address / 4096 * 4096 ≤ u → u < address + count → u ∈ A)
    (hnoAlias : NoAlias swChild (entry s.mem) root (Involved A))
    (htables : ∀ p f, Involved A p → swTable s.mem root p = some f → f ∈ F)
    (hready : src.Ready (missing s.mem root (callPaths (mappedPages address count))).card F s) :
    MapOk src.request root address count s ↔ address % 4096 = 0 ∧ address + count ≤ 2 ^ 40 := by
  have hpages : ∀ v ∈ mappedPages address count, v < 2 ^ 64 ∧ v ∈ A := by
    intro v hv
    obtain ⟨k, hk, rfl⟩ := mem_mappedPages.mp hv
    exact ⟨by omega, hrange _ (by omega) (by omega)⟩
  obtain ⟨s', hrun, hs'⟩ := identity_run (mappedPages address count) hroot hpages hnoAlias htables hready
  -- what the bytes behind the start of the first page translate to
  have hbyte : ∀ u, address / 4096 * 4096 ≤ u → u < address / 4096 * 4096 + count →
      mmGetPhysicalAddress s'.mem root u = u % 2 ^ 40 := fun u hle hu =>
    hs' u (hrange u hle (by omega)) (pageNumber_mappedPages hle hu)
  constructor
  · rintro ⟨p, s'', hmap, hid, hp⟩
    obtain ⟨rfl, hrun'⟩ := (mapReturns_iff (by omega)).mp hmap
    obtain rfl := Option.some.inj (hrun.symm.trans hrun')
    rw [hbyte _ (le_refl _) (by omega)] at hp
    have hal : address % 4096 = 0 := by omega
    have hlast := hid (address + count - 1) (by omega) (by omega)
    rw [hbyte _ (by omega) (by omega)] at hlast
    exact ⟨hal, by omega⟩
  · rintro ⟨hal, hlow⟩
    have hbase : address / 4096 * 4096 = address := by omega
    rw [hbase] at hbyte
    refine ⟨address, s', (mapReturns_iff (by omega)).mpr ⟨hbase.symm, hrun⟩, fun u hle hu => ?_, ?_⟩
    · rw [hbyte u hle hu, Nat.mod_eq_of_lt (by omega)]
    · rw [hbyte address (le_refl address) (by omega), Nat.mod_eq_of_lt (by omega)]

theorem laihostMap_pages : MapOk (mmRequestPage 20) 0x1000 0x400000 0x1800 twelveState := by
  have hcard : (missing twelveState.mem 0x1000 (callPaths (mappedPages 0x400000 0x1800))).card ≤ 9 :=
    (Finset.card_filter_le _ _).trans (by decide +kernel)
  exact (laihostMap_iff (A := Set.univ) (F := {0x1000})
    (pmmSource twelvePages lowRegion_twelvePages 20 (by decide +kernel)) 0x1000 (by decide) (by decide) rfl
    (fun _ _ _ => Set.mem_univ _)
    (noAlias_twelveState _) (tables_twelveState _) (ready_twelveState hcard)).mpr ⟨by decide, by decide⟩

/-- `0x20` bytes across the end of a page: the second page is left out, and the pointer is the start of the first. -/
theorem laihostMap_crossing : mappedPages 0x400FF0 0x20 = [0x400000] ∧
    (∃ s', MapReturns (mmRequestPage 20) 0x1000 0x400FF0 0x20 twelveState 0x400000 s') ∧
    ¬ MapOk (mmRequestPage 20) 0x1000 0x400FF0 0x20 twelveState := by
  have hpages : mappedPages 0x400FF0 0x20 = [0x400000] := by decide
  obtain ⟨s', hrun, hs'⟩ := @identity_run_twelve [0x400000] (by decide) (by decide +kernel)
  have hiff : ∀ {p t}, MapReturns (mmRequestPage 20) 0x1000 0x400FF0 0x20 twelveState p t ↔ p = 0x400000 ∧
      mapRun (mmRequestPage 20) 0x1000 twelveState [(0x400000, 0x400000)] = some t := mapReturns_iff (by decide)
  refine ⟨hpages, ⟨s', hiff.mpr ⟨rfl, hrun⟩⟩, ?_⟩
  rintro ⟨p, t, hmap, -, hp⟩
  obtain ⟨rfl, hrun'⟩ := hiff.mp hmap
  obtain rfl := Option.some.inj (hrun.symm.trans hrun')
  rw [hs' 0x400000 List.mem_cons_self] at hp
  exact absurd hp (by decide)

end Gewodsys.Cpu
