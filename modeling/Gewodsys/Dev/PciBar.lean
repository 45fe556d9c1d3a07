import Gewodsys.Dev.Pci

/-!
# Base address registers and the command register: `dev/pci.c`

* `pciReadBar`; a shift by the width of its operand has no result (`shl32`);
* `inlineBar` : the decoding written out in `XhciInitialize` and `CherryTrailInitialize`, `inlineBar_of_memory`;
* `pciMaybeEnableBusMastering`, `pciMaybeEnableMemoryAccess` change nothing but the command register;
* `read_bar_iff` : which registers `PciReadBar` decodes as their flags say.
-/

namespace Gewodsys.Dev
open Gewodsys.Machine

def kPciBarTypeMemory : Nat := 0
def kPciBarTypeIo : Nat := 1

def kPciBarIo : Nat := 0x01
def kPciBar64 : Nat := 0x04

structure PciBar where
  base : Nat
  size : Nat
  flags : Nat
  type : Nat
deriving DecidableEq, Repr

/-- `x << k` in `uint32_t`; undefined from the width of the operand on. -/
def shl32 (x k : Nat) : Option Nat := if k < 32 then some ((x <<< k) % 2 ^ 32) else none

/-- `~0xF` and `~0x3` as 64-bit masks: the `int` is sign-extended. -/
def notF : Nat := 2 ^ 64 - 2 ^ 4
def not3 : Nat := 2 ^ 64 - 2 ^ 2

/-- `PciReadBar(device, bar, out)`: what `out` holds afterwards. -/
def pciReadBar (p : PciPorts) (device : PciDevice) (bar : UInt8) (out : PciBar) : Option (PciBar × PciPorts) := do
  let (barBase, p) := pciRead32 p device (0x10 + bar * 4)
  if barBase &&& kPciBar64 ≠ 0 then
    let (high, p) := pciRead32 p device (0x10 + bar * 4 + 4)
    let barBase := (barBase ||| (← shl32 high 32)) &&& notF
    return ({ out with base := barBase, type := kPciBarTypeMemory, size := 0 }, p)
  if barBase &&& kPciBarIo ≠ 0 then
    return ({ out with base := barBase &&& not3, type := kPciBarTypeIo, size := 0 }, p)
  return (out, p)

/-- The decoding of the 64-bit register at `offset` as the drivers write it. -/
def inlineBar (p : PciPorts) (device : PciDevice) (offset : UInt8) : Nat × PciPorts :=
  let (base, p) := pciRead32 p device offset
  let (base, p) :=
    if base &&& kPciBar64 ≠ 0 then
      let (high, p) := pciRead32 p device (offset + 4)
      (base ||| ((high <<< 32) % 2 ^ 64), p)
    else (base, p)
  (base &&& notF, p)

/-! ## The command register -/

/-- Set a bit of the command register unless it is set. -/
def pciMaybeEnable (p : PciPorts) (device : PciDevice) (bit : Nat) : PciPorts :=
  let (command, p) := pciRead16 p device 4
  if command &&& (1 <<< bit) ≠ 0 then p
  else pciWrite16 p device 4 (UInt16.ofNat (command ||| (1 <<< bit)))

def pciMaybeEnableBusMastering (p : PciPorts) (device : PciDevice) : PciPorts := pciMaybeEnable p device 2

def pciMaybeEnableMemoryAccess (p : PciPorts) (device : PciDevice) : PciPorts := pciMaybeEnable p device 1

theorem OnlyBytes.refl (p p' : PciPorts) (h : p'.config = p.config) (d : PciDevice) (o n : Nat) :
    OnlyBytes p p' d o n := by
  intro d' _ j _ _
  rw [PciPorts.byte, PciPorts.byte, h]

theorem onlyBytes_pciMaybeEnable (p : PciPorts) {d : PciDevice} (hd : d.Valid) (bit : Nat) :
    OnlyBytes p (pciMaybeEnable p d bit) d 4 2 := by
  change OnlyBytes p (if (pciRead16 p d 4).1 &&& (1 <<< bit) ≠ 0 then (pciRead16 p d 4).2
    else pciWrite16 (pciRead16 p d 4).2 d 4 (UInt16.ofNat ((pciRead16 p d 4).1 ||| (1 <<< bit)))) d 4 2
  split_ifs with hset
  · exact OnlyBytes.refl _ _ (config_pciRead16 p d 4) _ _ _
  · have hwrite := pciWrite16_eq (pciRead16 p d 4).2 hd (show (4 : UInt8).toNat % 2 = 0 by decide)
      (UInt16.ofNat ((pciRead16 p d 4).1 ||| (1 <<< bit)))
    rw [config_pciRead16] at hwrite
    exact onlyBytes_write hd (by decide) hwrite

/-! ## Register values -/

theorem pciRead16_lt (p : PciPorts) (d : PciDevice) (o : UInt8) : (pciRead16 p d o).1 < 2 ^ 16 := by
  change (_ &&& (2 ^ 16 - 1)) < 2 ^ 16
  rw [land_low]
  exact Nat.mod_lt _ (by decide)

theorem pciRead32_lt (p : PciPorts) (d : PciDevice) (o : UInt8) : (pciRead32 p d o).1 < 2 ^ 32 := by
  have hlow := pciRead16_lt p d o
  have hhigh := pciRead16_lt (pciRead16 p d o).2 d (o + 2)
  change ((pciRead16 (pciRead16 p d o).2 d (o + 2)).1 <<< 16) ||| (pciRead16 p d o).1 < 2 ^ 32
  apply Nat.or_lt_two_pow
  · rw [Nat.shiftLeft_eq]
    omega
  · omega

theorem pciRead32_congr {p p' : PciPorts} (h : p.config = p'.config) (d : PciDevice) (o : UInt8) :
    (pciRead32 p d o).1 = (pciRead32 p' d o).1 := by
  unfold pciRead32 pciRead16 PciPorts.select
  rw [h]

theorem land_bit (x k : Nat) : x &&& 2 ^ k ≠ 0 ↔ x.testBit k = true := by
  rw [Nat.and_two_pow, ne_eq, Nat.mul_eq_zero, not_or]
  cases x.testBit k <;> simp

/-- The low and the high dword of a register, as the readers find them. -/
def barLow (p : PciPorts) (d : PciDevice) (offset : UInt8) : Nat := (pciRead32 p d offset).1
def barHigh (p : PciPorts) (d : PciDevice) (offset : UInt8) : Nat := (pciRead32 (pciRead32 p d offset).2 d (offset + 4)).1

theorem pciReadBar_eq (p : PciPorts) (d : PciDevice) (bar : UInt8) (out : PciBar) :
    (pciReadBar p d bar out).map (·.1) =
      if (barLow p d (0x10 + bar * 4)).testBit 2 then none
      else if (barLow p d (0x10 + bar * 4)).testBit 0 then
        some { out with base := barLow p d (0x10 + bar * 4) &&& not3, type := kPciBarTypeIo, size := 0 }
      else some out := by
  by_cases h2 : (barLow p d (0x10 + bar * 4)).testBit 2 = true
  · have hflag : (pciRead32 p d (0x10 + bar * 4)).1 &&& kPciBar64 ≠ 0 := (land_bit _ 2).mpr h2
    rw [if_pos h2, pciReadBar]
    simp only [if_pos hflag]
    rfl
  · have hflag : ¬ (pciRead32 p d (0x10 + bar * 4)).1 &&& kPciBar64 ≠ 0 := fun h => h2 ((land_bit _ 2).mp h)
    rw [if_neg h2, pciReadBar]
    simp only [if_neg hflag]
    by_cases h0 : (barLow p d (0x10 + bar * 4)).testBit 0 = true
    · have hio : (pciRead32 p d (0x10 + bar * 4)).1 &&& kPciBarIo ≠ 0 := (land_bit _ 0).mpr h0
      rw [if_pos h0]
      simp only [if_pos hio]
      rfl
    · have hio : ¬ (pciRead32 p d (0x10 + bar * 4)).1 &&& kPciBarIo ≠ 0 := fun h => h0 ((land_bit _ 0).mp h)
      rw [if_neg h0]
      simp only [if_neg hio]
      rfl

theorem inlineBar_eq (p : PciPorts) (d : PciDevice) (offset : UInt8) :
    (inlineBar p d offset).1 =
      (if (barLow p d offset).testBit 2 then barLow p d offset ||| (barHigh p d offset <<< 32) else barLow p d offset) &&&
        notF := by
  have hhigh : (barHigh p d offset <<< 32) % 2 ^ 64 = barHigh p d offset <<< 32 := by
    have hlt : barHigh p d offset < 2 ^ 32 := pciRead32_lt _ d (offset + 4)
    rw [Nat.shiftLeft_eq]
    exact Nat.mod_eq_of_lt (by omega)
  by_cases h2 : (barLow p d offset).testBit 2 = true
  · have hflag : (pciRead32 p d offset).1 &&& kPciBar64 ≠ 0 := (land_bit _ 2).mpr h2
    rw [if_pos h2, ← hhigh, inlineBar]
    simp only [if_pos hflag]
    rfl
  · have hflag : ¬ (pciRead32 p d offset).1 &&& kPciBar64 ≠ 0 := fun h => h2 ((land_bit _ 2).mp h)
    rw [if_neg h2, inlineBar]
    simp only [if_neg hflag]
    rfl

/-! ## Decoding as the flags say -/

/-- The type and the base that the flags of a register define. -/
def barOfFlags (low high : Nat) : Nat × Nat :=
  if low.testBit 0 then (kPciBarTypeIo, low &&& not3)
  else if low.testBit 2 then (kPciBarTypeMemory, ((high <<< 32) ||| low) &&& notF)
  else (kPciBarTypeMemory, low &&& notF)

/-- The drivers decode every memory register as its flags say. -/
theorem inlineBar_of_memory (p : PciPorts) (d : PciDevice) (offset : UInt8)
    (hmem : (barLow p d offset).testBit 0 = false) :
    (inlineBar p d offset).1 = (barOfFlags (barLow p d offset) (barHigh p d offset)).2 := by
  rw [inlineBar_eq, barOfFlags, hmem]
  by_cases h2 : (barLow p d offset).testBit 2 = true
  · rw [if_pos h2, if_pos h2, Nat.lor_comm]
    rfl
  · rw [if_neg h2, if_neg h2]
    rfl

/-- Whatever `out` held, `PciReadBar` leaves in it the type and the base the flags define, and for a memory register the
base the drivers compute. -/
def BarDecoded (p : PciPorts) (d : PciDevice) (bar : UInt8) : Prop :=
  ∀ out : PciBar, ∃ bar', (pciReadBar p d bar out).map (·.1) = some bar' ∧
    (bar'.type, bar'.base) = barOfFlags (barLow p d (0x10 + bar * 4)) (barHigh p d (0x10 + bar * 4)) ∧
    ((barLow p d (0x10 + bar * 4)).testBit 0 = false → bar'.base = (inlineBar p d (0x10 + bar * 4)).1)

theorem read_bar_iff (p : PciPorts) (d : PciDevice) (bar : UInt8) :
    BarDecoded p d bar ↔
      (barLow p d (0x10 + bar * 4)).testBit 0 = true ∧ (barLow p d (0x10 + bar * 4)).testBit 2 = false := by
  constructor
  · intro h
    by_cases h2 : (barLow p d (0x10 + bar * 4)).testBit 2 = true
    · obtain ⟨bar', hsome, -⟩ := h ⟨0, 0, 0, 0⟩
      rw [pciReadBar_eq, if_pos h2] at hsome
      exact absurd hsome (by simp)
    · by_cases h0 : (barLow p d (0x10 + bar * 4)).testBit 0 = true
      · exact ⟨h0, by simpa using h2⟩
      · -- nothing is written: a stale type shows
        obtain ⟨bar', hsome, hflags, -⟩ := h ⟨0, 0, 0, 2⟩
        rw [pciReadBar_eq, if_neg h2, if_neg h0, Option.some.injEq] at hsome
        rw [barOfFlags, if_neg h0, if_neg h2, ← hsome] at hflags
        exact absurd (Prod.mk.inj hflags).1 (by decide)
  · rintro ⟨h0, h2⟩ out
    refine ⟨{ out with base := barLow p d (0x10 + bar * 4) &&& not3, type := kPciBarTypeIo, size := 0 }, ?_, ?_, ?_⟩
    · rw [pciReadBar_eq, h0, h2]
      rfl
    · rw [barOfFlags, if_pos h0]
    · intro hmem
      exact absurd (h0.symm.trans hmem) (by decide)

/-- A 32-bit memory register: `out` keeps its old contents. -/
theorem read_bar_memory32 :
    ¬ BarDecoded ⟨0, Mem.write (fun _ => 0) 0x10 4 0xFEBC0000⟩ ⟨0, 0, 0, 0x1B36, 0x000D, 0xC, 3, 0⟩ 0 := by
  intro h
  obtain ⟨bar', hsome, hflags, -⟩ := h ⟨0, 0, 0, 2⟩
  have hread : (pciReadBar ⟨0, Mem.write (fun _ => 0) 0x10 4 0xFEBC0000⟩ ⟨0, 0, 0, 0x1B36, 0x000D, 0xC, 3, 0⟩ 0
      ⟨0, 0, 0, 2⟩).map (·.1) = some ⟨0, 0, 0, 2⟩ := by decide
  have hspec : barOfFlags (barLow ⟨0, Mem.write (fun _ => 0) 0x10 4 0xFEBC0000⟩ ⟨0, 0, 0, 0x1B36, 0x000D, 0xC, 3, 0⟩
      (0x10 + 0 * 4)) (barHigh ⟨0, Mem.write (fun _ => 0) 0x10 4 0xFEBC0000⟩ ⟨0, 0, 0, 0x1B36, 0x000D, 0xC, 3, 0⟩
      (0x10 + 0 * 4)) = (0, 0xFEBC0000) := by decide
  rw [hread, Option.some.injEq] at hsome
  rw [hspec, ← hsome] at hflags
  exact absurd hflags (by decide)

end Gewodsys.Dev
