import Gewodsys.Mem.Heap

/-!
# `HeapContract`

* `contractLoop` : the loop of `HeapContract` over its local `offset`, with fuel; `heapContractLoop` : the function with it;
* `heapContract_returns` : on a heap of whole pages the loop ends and the result is what `heapContract` says;
* `contract_iff` : the result is the least length of whole pages that is enough exactly where the mask keeps the size.
-/

namespace Gewodsys.Mem
open Gewodsys.Machine

/-- `while (size < offset) offset -= 0x1000`. -/
def contractLoop (size : Nat) : Nat → Nat → Option Nat
  | 0, _ => none
  | fuel + 1, offset => if size < offset then contractLoop size fuel (sub64 offset 0x1000) else some offset

/-- `HeapContract` with its loop. -/
def heapContractLoop (fuel : Nat) (s : HeapState) (size : Nat) : Option (Nat × HeapState) :=
  let oldSize := sub64 s.heap.endAddress s.heap.startAddress
  (contractLoop (contractSize size) fuel (sub64 oldSize 0x1000)).map fun _ => heapContract s size

theorem contractLoop_ends {size : Nat} (hsize : 0x1000 ≤ size) {offset fuel : Nat} (hoffset : offset < 2 ^ 64)
    (hfuel : offset ≤ fuel * 0x1000 + size) : ∃ r, contractLoop size (fuel + 1) offset = some r := by
  induction fuel generalizing offset with
  | zero => exact ⟨offset, if_neg (by omega)⟩
  | succ fuel ih =>
      rw [contractLoop]
      by_cases hlt : size < offset
      · rw [if_pos hlt, sub64_of_le hoffset (by omega)]
        exact ih (by omega) (by omega)
      · exact ⟨offset, if_neg hlt⟩

/-- A heap of `length` bytes: whole pages, not below the least size. -/
structure HeapLength (s : HeapState) (length : Nat) : Prop where
  end_eq : s.heap.endAddress = s.heap.startAddress + length
  pages : length % pageSize = 0
  min : heapMinSize ≤ length
  top : s.heap.startAddress + length < 2 ^ 64

/-- The call returns the least length of whole pages that is enough, sets the end of the heap to it, and does not grow the
heap. -/
def ContractOk (s : HeapState) (size length : Nat) : Prop :=
  ∃ fuel result s', heapContractLoop fuel s size = some (result, s') ∧
    IsLeast {x | x % pageSize = 0 ∧ max size heapMinSize ≤ x} result ∧
    s'.heap.endAddress = s.heap.startAddress + result ∧ result ≤ length

variable {s : HeapState} {length : Nat}

/-- For every size the loop ends, and the heap does not grow. -/
theorem heapContract_returns (h : HeapLength s length) {size : Nat} (hsize : size ≤ length) :
    ∃ fuel s', heapContractLoop fuel s size = some (contractSize size, s') ∧
      s'.heap.endAddress = s.heap.startAddress + contractSize size ∧ contractSize size ≤ length := by
  have hmin : heapMinSize = 0x70000 := rfl
  have hlength := h.min
  have htop := h.top
  have hbounds : heapMinSize ≤ contractSize size ∧ contractSize size ≤ length := by
    rw [contractSize_eq]
    split_ifs <;> omega
  have hold : sub64 s.heap.endAddress s.heap.startAddress = length := by
    rw [h.end_eq, sub64_of_le (by omega) (by omega), Nat.add_sub_cancel_left]
  have hoffset : sub64 length 0x1000 = length - 0x1000 := sub64_of_le (by omega) (by omega)
  have hfuel : length - 0x1000 ≤ length * 0x1000 + contractSize size := by omega
  obtain ⟨r, hr⟩ := contractLoop_ends (by omega) (by omega) hfuel
  refine ⟨length + 1, (heapContract s size).2, ?_, ?_, hbounds.2⟩
  · rw [heapContractLoop, hold, hoffset, hr]
    rfl
  · exact add64_of_lt (by omega)

theorem isLeast_contractSize_iff (size : Nat) :
    IsLeast {x | x % pageSize = 0 ∧ max size heapMinSize ≤ x} (contractSize size) ↔
      size ≤ heapMinSize ∨ size % (2 * pageSize) = 0 := by
  have hmin : heapMinSize = 0x70000 := rfl
  have hpage : pageSize = 0x1000 := rfl
  rw [contractSize_eq, hmin, hpage]
  constructor
  · rintro ⟨⟨hpages, henough⟩, -⟩
    split_ifs at hpages henough <;> omega
  · intro h
    refine ⟨⟨?_, ?_⟩, fun x hx => ?_⟩
    · split_ifs <;> omega
    · split_ifs <;> omega
    · obtain ⟨hpages, henough⟩ := hx
      split_ifs <;> omega

theorem contractOk_iff (h : HeapLength s length) {size : Nat} (hsize : size ≤ length) :
    ContractOk s size length ↔ IsLeast {x | x % pageSize = 0 ∧ max size heapMinSize ≤ x} (contractSize size) := by
  obtain ⟨fuel, s', hreturn, hend, hle⟩ := heapContract_returns h hsize
  constructor
  · rintro ⟨fuel', result, s'', hcall, hleast, -, -⟩
    obtain ⟨offset, -, hresult⟩ := Option.map_eq_some_iff.mp hcall
    rwa [← (Prod.mk.inj hresult).1] at hleast
  · intro hleast
    exact ⟨fuel, _, s', hreturn, hleast, hend, hle⟩

/-- **`HeapContract`** goes down to the least length of whole pages that is enough if and only if the size is not above the
least size of a heap, or is a multiple of two pages. -/
theorem contract_iff (h : HeapLength s length) {size : Nat} (hsize : size ≤ length) :
    ContractOk s size length ↔ size ≤ heapMinSize ∨ size % (2 * pageSize) = 0 :=
  (contractOk_iff h hsize).trans (isLeast_contractSize_iff size)

/-- A heap of `0x72000` bytes. -/
def contractHeap : HeapState :=
  ⟨fun _ => 0, ⟨⟨heapAddr, 0, heapIndexSize, headerPredicate⟩, 0x200000, 0x272000, 0x400000, 0, 0⟩, fun _ _ => 0, 0⟩

theorem heapLength_contractHeap : HeapLength contractHeap 0x72000 := ⟨rfl, rfl, by decide, by decide⟩

theorem contract_two_pages : ContractOk contractHeap 0x72000 0x72000 :=
  (contract_iff heapLength_contractHeap (by decide)).mpr (by decide)

/-- A page more than the least size: the heap is cut below it. -/
theorem contract_cuts : ¬ ContractOk contractHeap 0x71000 0x72000 ∧
    (heapContractLoop 3 contractHeap 0x71000).map Prod.fst = some 0x70000 := by
  refine ⟨?_, by decide +kernel⟩
  rw [contractOk_iff heapLength_contractHeap (by decide), isLeast_contractSize_iff]
  decide

end Gewodsys.Mem
