import Gewodsys.Dev.XhciRing

/-!
# Slots and segments of the rings

* `addSlots`, `getSlots` : the slots of `ring->ptr` one call touches; `xhciRingAdd_trbs` : no other slot changes;
* `AddsInside`, `GetsInside` : a sequence of calls stays below the number of TRBs allocated;
* `ring_slots_iff` : when it does, `max_index` being rounded up to whole pages and the allocation not;
* `erstOf` : the segment that `XhciInterrupterCreate` describes to the controller, `erst_never_exact`.
-/

namespace Gewodsys.Dev
open Gewodsys.Machine Gewodsys.Mem

/-! ## The slots a call touches -/

def addSlots (r : XhciRing) (trb : XhciTrb) : List Nat :=
  if trb.trbType = 0 then []
  else r.index :: if inc32 r.index = dec32 r.maxIndex then [inc32 r.index] else []

def getSlots (r : XhciRing) (trb : Nat) : List Nat := if trb = 0 ∨ r.index = 0 then [] else [r.index]

section
variable (m : Mem) (kPML4 : Nat)

theorem xhciRingAdd_trbs (r : XhciRing) (trb : XhciTrb) {i : Nat} (hi : i ∉ addSlots r trb) :
    (xhciRingAdd m kPML4 r trb).2.2.trbs i = r.trbs i := by
  unfold addSlots at hi
  unfold xhciRingAdd
  by_cases ht : trb.trbType = 0
  · rw [if_pos ht]
  · rw [if_neg ht, List.mem_cons, not_or] at hi
    rw [if_neg ht]
    by_cases hend : inc32 r.index = dec32 r.maxIndex
    · rw [if_pos hend, List.mem_singleton] at hi
      simp only [if_pos hend]
      rw [Function.update_of_ne hi.2, Function.update_of_ne hi.1]
    · simp only [if_neg hend]
      rw [Function.update_of_ne hi.1]

/-- The calls `XhciRingAdd(ring, &x)` for the TRBs `xs` touch slots below `size` only. -/
def AddsInside (size : Nat) : XhciRing → List XhciTrb → Prop
  | _, [] => True
  | r, x :: xs => (∀ i ∈ addSlots r x, i < size) ∧ AddsInside size (xhciRingAdd m kPML4 r x).2.2 xs

/-- The same for `XhciRingGet(ring, t)`. -/
def GetsInside (size : Nat) : XhciRing → List Nat → Prop
  | _, [] => True
  | r, t :: ts => (∀ i ∈ getSlots r t, i < size) ∧ GetsInside size (xhciRingGet r t).2.2 ts

/-! ## Adding -/

/-- The number of TRBs that `XhciRingAdd` does not turn down. -/
def accepted (xs : List XhciTrb) : Nat := xs.countP fun x => x.trbType ≠ 0

theorem xhciRingAdd_turned_down (r : XhciRing) {x : XhciTrb} (hx : x.trbType = 0) :
    addSlots r x = [] ∧ (xhciRingAdd m kPML4 r x).2.2 = r := by
  rw [addSlots, xhciRingAdd, if_pos hx, if_pos hx]
  exact ⟨rfl, rfl⟩

theorem xhciRingAdd_middle (r : XhciRing) {x : XhciTrb} (hx : x.trbType ≠ 0) (hmid : r.index + 1 < dec32 r.maxIndex)
    (hlt : r.index + 1 < 2 ^ 32) :
    addSlots r x = [r.index] ∧ (xhciRingAdd m kPML4 r x).2.2.index = r.index + 1 ∧
      (xhciRingAdd m kPML4 r x).2.2.maxIndex = r.maxIndex := by
  have hinc := inc32_of_lt hlt
  have hne : ¬ inc32 r.index = dec32 r.maxIndex := by omega
  rw [addSlots, xhciRingAdd, if_neg hx, if_neg hx, if_neg hne]
  simp only [if_neg hne]
  exact ⟨trivial, hinc, trivial⟩

theorem xhciRingAdd_lap (r : XhciRing) {x : XhciTrb} (hx : x.trbType ≠ 0) (hend : r.index + 1 = dec32 r.maxIndex)
    (hlt : r.index + 1 < 2 ^ 32) :
    addSlots r x = [r.index, r.index + 1] ∧ (xhciRingAdd m kPML4 r x).2.2.index = 0 ∧
      (xhciRingAdd m kPML4 r x).2.2.maxIndex = r.maxIndex := by
  have hinc := inc32_of_lt hlt
  have he : inc32 r.index = dec32 r.maxIndex := by omega
  rw [addSlots, xhciRingAdd, if_neg hx, if_neg hx, if_pos he, hinc]
  simp only [if_pos hend]
  exact ⟨trivial, trivial, trivial⟩

variable {m kPML4}

theorem addsInside_of_link_lt {size : Nat} {r : XhciRing} (hlink : dec32 r.maxIndex < size) (hsize : size < 2 ^ 32)
    (hidx : r.index < dec32 r.maxIndex) (xs : List XhciTrb) : AddsInside m kPML4 size r xs := by
  induction xs generalizing r with
  | nil => trivial
  | cons x xs ih =>
      by_cases hx : x.trbType = 0
      · obtain ⟨hslots, hr⟩ := xhciRingAdd_turned_down m kPML4 r hx
        rw [AddsInside, hslots, hr]
        exact ⟨by simp, ih hlink hidx⟩
      · rcases Nat.lt_or_ge (r.index + 1) (dec32 r.maxIndex) with hmid | hge
        · obtain ⟨hslots, hi, hmax⟩ := xhciRingAdd_middle m kPML4 r hx hmid (by omega)
          rw [AddsInside, hslots]
          refine ⟨?_, ih (by rw [hmax]; exact hlink) (by rw [hi, hmax]; exact hmid)⟩
          intro i hmem
          rw [List.mem_singleton] at hmem
          omega
        · obtain ⟨hslots, hi, hmax⟩ := xhciRingAdd_lap m kPML4 r hx (by omega) (by omega)
          rw [AddsInside, hslots]
          refine ⟨?_, ih (by rw [hmax]; exact hlink) (by rw [hi, hmax]; omega)⟩
          intro i hmem
          simp only [List.mem_cons, List.not_mem_nil, or_false] at hmem
          omega

/-- A ring whose link slot is not: only the first lap counts, up to the end of the buffer. -/
theorem addsInside_iff_of_le_link {size : Nat} {r : XhciRing} (hlink : size ≤ dec32 r.maxIndex) (hsize : size < 2 ^ 32 - 1)
    (hidx : r.index ≤ size) (hlap : r.index < dec32 r.maxIndex) (xs : List XhciTrb) :
    AddsInside m kPML4 size r xs ↔ r.index + accepted xs ≤ size ∧ r.index + accepted xs < dec32 r.maxIndex := by
  induction xs generalizing r with
  | nil => exact iff_of_true trivial ⟨hidx, hlap⟩
  | cons x xs ih =>
      by_cases hx : x.trbType = 0
      · obtain ⟨hslots, hr⟩ := xhciRingAdd_turned_down m kPML4 r hx
        have hacc : accepted (x :: xs) = accepted xs := List.countP_cons_of_neg (by simpa using hx)
        rw [AddsInside, hslots, hr, hacc, ih hlink hidx hlap]
        exact and_iff_right (by simp)
      · have hacc : accepted (x :: xs) = accepted xs + 1 := List.countP_cons_of_pos (by simpa using hx)
        rcases Nat.lt_or_ge (r.index + 1) (dec32 r.maxIndex) with hmid | hge
        · obtain ⟨hslots, hi, hmax⟩ := xhciRingAdd_middle m kPML4 r hx hmid (by omega)
          rw [AddsInside, hslots, hacc]
          simp only [List.mem_singleton, forall_eq]
          constructor
          · rintro ⟨hlt, hrest⟩
            rw [ih (by rw [hmax]; exact hlink) (by omega) (by rw [hi, hmax]; exact hmid), hi, hmax] at hrest
            omega
          · rintro ⟨hle, hlt⟩
            refine ⟨by omega, ?_⟩
            rw [ih (by rw [hmax]; exact hlink) (by omega) (by rw [hi, hmax]; exact hmid), hi, hmax]
            omega
        · -- the link of this lap is outside
          obtain ⟨hslots, -, -⟩ := xhciRingAdd_lap m kPML4 r hx (by omega) (by omega)
          rw [AddsInside, hslots, hacc]
          refine iff_of_false ?_ (by omega)
          rintro ⟨hall, -⟩
          have := hall (r.index + 1) (by simp)
          omega

theorem getsInside_of_index_zero {r : XhciRing} (hidx : r.index = 0) (size : Nat) (ts : List Nat) :
    GetsInside size r ts := by
  induction ts with
  | nil => trivial
  | cons t ts ih =>
      have hslots : getSlots r t = [] := by rw [getSlots, if_pos (Or.inr hidx)]
      have hget : (xhciRingGet r t).2.2 = r := by rw [xhciRingGet, if_pos (Or.inr hidx)]
      rw [GetsInside, hslots, hget]
      exact ⟨by simp, ih⟩

end

/-! ## Rings as `XhciRingCreate` makes them -/

/-- The slot of the link against the number of TRBs allocated. For the largest sizes the rounded byte count is `2^32`,
which is 0 in `uint32_t`, and `max_index - 1` wraps. -/
theorem link_create {size : Nat} (h2 : 2 ≤ size) (hlt : size * sizeofTrb < 2 ^ 32) (ptr : Nat) (trbs : Nat → XhciTrb) :
    (256 ∣ size → dec32 (xhciRingCreate size ptr trbs).maxIndex = size - 1) ∧
    (¬ 256 ∣ size → size ≤ dec32 (xhciRingCreate size ptr trbs).maxIndex ∧ 
      (dec32 (xhciRingCreate size ptr trbs).maxIndex = size ↔ size % 256 = 255 ∧ size ≠ 2 ^ 28 - 1)) := by
  unfold sizeofTrb at hlt
  have hmax : (xhciRingCreate size ptr trbs).maxIndex = (size + 255) / 256 * 256 % 2 ^ 28 := by
    unfold xhciRingCreate sizeofTrb
    simp only
    omega
  rw [hmax]
  unfold dec32
  constructor
  · intro hdvd
    split_ifs <;> omega
  · intro hdvd
    split_ifs <;> omega

/-- **Slots.** Calls of `XhciRingAdd` stay inside the buffer if the allocation is a whole number of pages, or if the link
is not reached and the first lap does not leave the buffer. `XhciRingGet` never reads a slot of a fresh ring. -/
theorem ring_slots_iff (m : Mem) (kPML4 : Nat) {size : Nat} (h2 : 2 ≤ size) (hlt : size * sizeofTrb < 2 ^ 32) (ptr : Nat)
    (trbs : Nat → XhciTrb) :
    (∀ xs, AddsInside m kPML4 size (xhciRingCreate size ptr trbs) xs ↔
      256 ∣ size ∨ accepted xs < size ∨ accepted xs = size ∧ (size % 256 ≠ 255 ∨ size = 2 ^ 28 - 1)) ∧
    ∀ ts, GetsInside size (xhciRingCreate size ptr trbs) ts := by
  obtain ⟨hpages, hrest⟩ := link_create h2 hlt ptr trbs
  have hsize : size < 2 ^ 28 := by unfold sizeofTrb at hlt; omega
  have hidx : (xhciRingCreate size ptr trbs).index = 0 := rfl
  refine ⟨?_, getsInside_of_index_zero hidx size⟩
  intro xs
  by_cases hdvd : 256 ∣ size
  · have hlink := hpages hdvd
    refine iff_of_true ?_ (Or.inl hdvd)
    exact addsInside_of_link_lt (by omega) (by omega) (by omega) xs
  · obtain ⟨hle, heq⟩ := hrest hdvd
    rw [addsInside_iff_of_le_link hle (by omega) (by omega) (by omega) xs, hidx]
    omega

theorem ring_slots_two :
    AddsInside (fun _ => 0) 0 2 (xhciRingCreate 2 0x1000 fun _ => ⟨0, 0, 0, 0⟩)
      [⟨0, 0, 0, 0x400⟩, ⟨0, 0, 0, 0x400⟩] := by
  have h := (ring_slots_iff (fun _ => 0) 0 (show 2 ≤ 2 by decide) (by decide) 0x1000 fun _ => ⟨0, 0, 0, 0⟩).1
    [⟨0, 0, 0, 0x400⟩, ⟨0, 0, 0, 0x400⟩]
  exact h.mpr (by decide)

/-- The third TRB is written behind the buffer. -/
theorem ring_slots_third :
    ¬ AddsInside (fun _ => 0) 0 2 (xhciRingCreate 2 0x1000 fun _ => ⟨0, 0, 0, 0⟩)
      [⟨0, 0, 0, 0x400⟩, ⟨0, 0, 0, 0x400⟩, ⟨0, 0, 0, 0x400⟩] := by
  obtain ⟨hle, -⟩ := (link_create (show 2 ≤ 2 by decide) (by decide) 0x1000 fun _ => ⟨0, 0, 0, 0⟩).2 (by decide)
  have hacc : accepted [⟨0, 0, 0, 0x400⟩, ⟨0, 0, 0, 0x400⟩, ⟨0, 0, 0, 0x400⟩] = 3 := by decide
  have hidx : (xhciRingCreate 2 0x1000 fun _ => ⟨0, 0, 0, 0⟩).index = 0 := rfl
  rw [addsInside_iff_of_le_link hle (by decide) (by omega) (by omega), hacc, hidx]
  decide

/-! ## The event ring segment -/

/-- `EVT_RING_SIZE`. -/
def evtRingSize : Nat := 256

def xhciRingGetPhysicalAddress (m : Mem) (kPML4 : Nat) (r : XhciRing) : Nat :=
  add64 (mmGetPhysicalAddress m kPML4 r.ptr) (r.index * sizeofTrb)

def xhciRingSize (r : XhciRing) : Nat := r.maxIndex * sizeofTrb

structure XhciErstEntry where
  rsAddr : Nat
  rsSize : Nat
deriving DecidableEq, Repr

/-- The entry `XhciInterrupterCreate` fills in for its ring. -/
def erstOf (m : Mem) (kPML4 : Nat) (ring : XhciRing) : XhciErstEntry :=
  ⟨xhciRingGetPhysicalAddress m kPML4 ring, xhciRingSize ring % 2 ^ 32⟩

/-- The segment is exactly the buffer of the ring, `size` TRBs, slot by slot in physical memory; and the physical address
of the ring is that of its current slot. -/
def SegmentExact (m : Mem) (kPML4 size : Nat) (ring : XhciRing) : Prop :=
  (∀ i < (erstOf m kPML4 ring).rsSize, i < size ∧
    (erstOf m kPML4 ring).rsAddr + sizeofTrb * i = mmGetPhysicalAddress m kPML4 (ring.ptr + sizeofTrb * i)) ∧
  ∀ index < size, xhciRingGetPhysicalAddress m kPML4 { ring with index := index } =
    mmGetPhysicalAddress m kPML4 (ring.ptr + sizeofTrb * index)

/-- `rs_size` is the length of the segment in bytes, which the controller takes for TRBs. -/
theorem rsSize_erstOf (m : Mem) (kPML4 ptr : Nat) (trbs : Nat → XhciTrb) :
    (erstOf m kPML4 (xhciRingCreate evtRingSize ptr trbs)).rsSize = sizeofTrb * evtRingSize := by
  have hmax := xhciRingCreate_maxIndex (show 256 ∣ evtRingSize from dvd_refl _) (by decide) ptr trbs
  change (xhciRingCreate evtRingSize ptr trbs).maxIndex * sizeofTrb % 2 ^ 32 = _
  rw [hmax]
  decide

/-- **The segment is never the buffer**, wherever the heap put the buffer and however it is mapped. -/
theorem erst_never_exact (m : Mem) (kPML4 ptr : Nat) (trbs : Nat → XhciTrb) :
    ¬ SegmentExact m kPML4 evtRingSize (xhciRingCreate evtRingSize ptr trbs) := by
  rintro ⟨hslots, -⟩
  obtain ⟨hlt, -⟩ := hslots evtRingSize (by rw [rsSize_erstOf]; decide)
  exact absurd hlt (lt_irrefl evtRingSize)

theorem erst_not_exact_at :
    ¬ SegmentExact (fun _ => 0) 0 evtRingSize (xhciRingCreate evtRingSize 0x1000 fun _ => ⟨0, 0, 0, 0⟩) := by
  rintro ⟨hslots, -⟩
  obtain ⟨hlt, -⟩ := hslots 4095 (by rw [rsSize_erstOf]; decide)
  exact absurd hlt (by decide)

end Gewodsys.Dev
