import Gewodsys.Lib.Memory
import Gewodsys.Machine.Bitmap
import Gewodsys.Machine.Run

/-!
# The page frame allocator (`mem/pmm.c`)

The allocator manages the pages of one region by a bit map that lies in the region itself; pages are numbered from the
region's first page. `MemoryStatistics` is the record at the region's first page, `lastRequested` the static cursor of
`MmRequestPage`.

* `mmInitialize` : choose the largest usable entry of the memory map and set the bit map up;
* `mmRequestPage` : the scan of `MmRequestPage`, at most `fuel` bits; `mmFreePage`;
* `mmScan_mono` : more fuel does not change the outcome of the scan.
-/

namespace Gewodsys.Mem
open Gewodsys.Machine Gewodsys.Lib

def pageSize : Nat := 0x1000

/-- `ALIGN_ADDR`. -/
def alignAddr (x : Nat) : Nat :=
  if (pageSize - 1) &&& x ≠ 0 then (add64 x pageSize) &&& 0xFFFFFFFFFFFFF000 else x

/-- `ADDR_TO_PAGE`. -/
def addrToPage (x : Nat) : Nat := x >>> 12

/-! ## State -/

structure MemoryStatistics where
  totalAvailablePages : Nat
  firstAvailablePageAddr : Nat
  lastAvailablePageAddress : Nat
  totalMemory : Nat
  totalPages : Nat
  /-- The address of the bit map. -/
  bitfield : Nat
  freeMemory : Nat
  lockedMemory : Nat
  reservedMemory : Nat
deriving DecidableEq, Repr

def sizeofMemoryStatistics : Nat := 72

/-- `*kMemory` and the static cursor of `MmRequestPage`. -/
structure Pmm where
  kMemory : MemoryStatistics
  lastRequested : Nat
deriving DecidableEq, Repr

/-- Physical memory, with the state `σ` of an allocator of its pages. -/
structure Phys (σ : Type) where
  mem : Mem
  pmm : σ

/-- `GET_PAGE_BIT(x) == 1`. -/
def getPageBit (s : Phys Pmm) (x : Nat) : Bool := getBit s.mem s.pmm.kMemory.bitfield x

/-- `SET_PAGE_BIT`. -/
def setPageBit (s : Phys Pmm) (x : Nat) : Phys Pmm := { s with mem := setBit s.mem s.pmm.kMemory.bitfield x }

/-- `CLEAR_PAGE_BIT`. -/
def clearPageBit (s : Phys Pmm) (x : Nat) : Phys Pmm := { s with mem := clearBit s.mem s.pmm.kMemory.bitfield x }

def Phys.setStatistics (s : Phys Pmm) (k : MemoryStatistics) : Phys Pmm := { s with pmm := { s.pmm with kMemory := k } }

/-! ## Reserving and locking -/

def mmReservePage (s : Phys Pmm) (address : Nat) : Phys Pmm :=
  let s := setPageBit s (addrToPage address)
  s.setStatistics { s.pmm.kMemory with
    freeMemory := sub64 s.pmm.kMemory.freeMemory pageSize
    reservedMemory := add64 s.pmm.kMemory.reservedMemory pageSize }

def mmLockPage (s : Phys Pmm) (address : Nat) : Phys Pmm :=
  let s := setPageBit s (addrToPage address)
  s.setStatistics { s.pmm.kMemory with
    freeMemory := sub64 s.pmm.kMemory.freeMemory pageSize
    lockedMemory := add64 s.pmm.kMemory.lockedMemory pageSize }

def mmUnlockPage (s : Phys Pmm) (address : Nat) : Phys Pmm :=
  let s := clearPageBit s (addrToPage address)
  s.setStatistics { s.pmm.kMemory with
    freeMemory := add64 s.pmm.kMemory.freeMemory pageSize
    lockedMemory := sub64 s.pmm.kMemory.lockedMemory pageSize }

def mmReservePages (s : Phys Pmm) (address pages : Nat) : Phys Pmm :=
  (List.range pages).foldl (fun s i => mmReservePage s (add64 address (i <<< 12))) s

/-! ## Initialisation -/

inductive MemmapType where
  | usable
  | other (code : Nat)
deriving DecidableEq, Repr

/-- `struct limine_memmap_entry`. -/
structure MemmapEntry where
  base : Nat
  length : Nat
  type : MemmapType
  base_lt : base < 2 ^ 64
  length_lt : length < 2 ^ 64
deriving DecidableEq, Repr

/-- One turn of the loop over the memory map: the first usable entry of greatest length so far. -/
def largestStep (largest : Option MemmapEntry) (entry : MemmapEntry) : Option MemmapEntry :=
  if entry.type ≠ .usable then largest
  else match largest with
    | none => some entry
    | some l => if entry.length > l.length then some entry else some l

def largestUsable (memmap : List MemmapEntry) : Option MemmapEntry := memmap.foldl largestStep none

def totalMemoryOf (memmap : List MemmapEntry) : Nat := memmap.foldl (fun t entry => add64 t entry.length) 0

/-- The region's first address, the address after its last page, its pages and the bytes of its bit map. -/
def regionFirst (largest : MemmapEntry) : Nat := alignAddr largest.base
def regionLast (largest : MemmapEntry) : Nat := alignAddr (add64 largest.base largest.length)
def regionPages (largest : MemmapEntry) : Nat := sub64 (regionLast largest) (regionFirst largest) >>> 12
def bitfieldEntries (largest : MemmapEntry) : Nat :=
  if regionPages largest % 8 = 0 then regionPages largest >>> 3 else (regionPages largest >>> 3) + 1

/-- The bytes the region must have, and the pages reserved at its start. -/
def regionHeader (largest : MemmapEntry) : Nat := bitfieldEntries largest + sizeofMemoryStatistics + (3 <<< 12)
def reservedPages (largest : MemmapEntry) : Nat := regionHeader largest >>> 12

/-- The size check of `MmInitialize`, which only prints when it fails. -/
def SizeCheck (largest : MemmapEntry) : Prop := ¬ largest.length < regionHeader largest

instance (largest : MemmapEntry) : Decidable (SizeCheck largest) :=
  inferInstanceAs (Decidable (¬ largest.length < regionHeader largest))

/-- The statistics `MmInitialize` writes before it reserves the region's header. -/
def initialStatistics (memmap : List MemmapEntry) (largest : MemmapEntry) : MemoryStatistics :=
  { totalAvailablePages := regionPages largest
    firstAvailablePageAddr := regionFirst largest
    lastAvailablePageAddress := regionLast largest
    totalMemory := totalMemoryOf memmap
    totalPages := totalMemoryOf memmap >>> 12
    bitfield := alignAddr (add64 (regionFirst largest) sizeofMemoryStatistics)
    freeMemory := sub64 (regionLast largest) (regionFirst largest)
    lockedMemory := 0
    reservedMemory := 0 }

/-- `MmInitialize` once the region is chosen. -/
def mmInitializeRegion (m : Mem) (memmap : List MemmapEntry) (largest : MemmapEntry) : Phys Pmm :=
  let kMemory := initialStatistics memmap largest
  let m := rtZeroMemory m kMemory.bitfield (bitfieldEntries largest)
  mmReservePages ⟨m, ⟨kMemory, 0⟩⟩ 0 (reservedPages largest)

/-- Without a usable entry `MmInitialize` follows a null pointer. -/
def mmInitialize (m : Mem) (memmap : List MemmapEntry) : Option (Phys Pmm) :=
  (largestUsable memmap).map (mmInitializeRegion m memmap)

/-! ## Requesting and freeing -/

/-- The loop of `MmRequestPage`: the cursor where the scan stops, within `fuel` bits. -/
def mmScan (s : Phys Pmm) : Nat → Nat → Option Nat
  | 0, _ => none
  | fuel + 1, last =>
      if getPageBit s last then
        let last := if last ≥ s.pmm.kMemory.totalAvailablePages then 0 else last
        mmScan s fuel (add64 last 1)
      else some last

/-- `none` when the scan has not stopped after `fuel` bits. -/
def mmRequestPage (fuel : Nat) (s : Phys Pmm) : Option (Nat × Phys Pmm) :=
  (mmScan s fuel s.pmm.lastRequested).map fun last =>
    let s := { s with pmm := { s.pmm with lastRequested := last } }
    (add64 s.pmm.kMemory.firstAvailablePageAddr (last <<< 12), mmLockPage s ((last <<< 12) % 2 ^ 64))

def mmFreePage (s : Phys Pmm) (addr : Nat) : Phys Pmm :=
  mmUnlockPage s (sub64 addr s.pmm.kMemory.firstAvailablePageAddr)

theorem mmScan_of_clear {s : Phys Pmm} {last : Nat} (h : getPageBit s last = false) (fuel : Nat) :
    mmScan s (fuel + 1) last = some last := by
  rw [mmScan, if_neg (by simp [h])]

theorem mmScan_of_set {s : Phys Pmm} {last : Nat} (h : getPageBit s last = true)
    (hlt : last < s.pmm.kMemory.totalAvailablePages) (hlast : last < 2 ^ 63) (fuel : Nat) :
    mmScan s (fuel + 1) last = mmScan s fuel (last + 1) := by
  rw [mmScan, if_pos h, if_neg (by omega)]
  simp only [add64_of_lt (show last + 1 < 2 ^ 64 by omega)]

theorem mmScan_of_past {s : Phys Pmm} {last : Nat} (h : getPageBit s last = true)
    (hge : s.pmm.kMemory.totalAvailablePages ≤ last) (fuel : Nat) :
    mmScan s (fuel + 1) last = mmScan s fuel 1 := by
  rw [mmScan, if_pos h, if_pos hge]
  simp only [add64_of_lt (show 0 + 1 < 2 ^ 64 by omega), Nat.zero_add]

theorem mmScan_mono {s : Phys Pmm} {fuel last c : Nat} (h : mmScan s fuel last = some c) {fuel' : Nat}
    (hle : fuel ≤ fuel') : mmScan s fuel' last = some c := by
  induction fuel generalizing last fuel' with
  | zero => simp [mmScan] at h
  | succ fuel ih =>
      obtain ⟨f, rfl⟩ : ∃ f, fuel' = f + 1 := ⟨fuel' - 1, by omega⟩
      rw [mmScan] at h ⊢
      by_cases hbit : getPageBit s last
      · rw [if_pos hbit] at h ⊢
        exact ih h (by omega)
      · rw [if_neg hbit] at h ⊢
        exact h

theorem mmScan_unique {s : Phys Pmm} {fuel fuel' last c c' : Nat} (h : mmScan s fuel last = some c)
    (h' : mmScan s fuel' last = some c') : c = c' := by
  have h1 := mmScan_mono h (le_max_left fuel fuel')
  have h2 := mmScan_mono h' (le_max_right fuel fuel')
  exact Option.some.inj (h1.symm.trans h2)

theorem mmRequestPage_eq_some {fuel : Nat} {s s' : Phys Pmm} {addr : Nat}
    (h : mmRequestPage fuel s = some (addr, s')) :
    ∃ c, mmScan s fuel s.pmm.lastRequested = some c ∧
      addr = add64 s.pmm.kMemory.firstAvailablePageAddr (c <<< 12) ∧
      s' = mmLockPage { s with pmm := { s.pmm with lastRequested := c } } ((c <<< 12) % 2 ^ 64) := by
  rw [mmRequestPage, Option.map_eq_some_iff] at h
  obtain ⟨c, hc, he⟩ := h
  obtain ⟨h1, h2⟩ := Prod.mk.inj he
  exact ⟨c, hc, h1.symm, h2.symm⟩

end Gewodsys.Mem
