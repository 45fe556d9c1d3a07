import Gewodsys.Mem.HeapGrowth
import Gewodsys.Mem.HeapRuns

/-!
# The extent of the kernel heap

How `HeapAllocate` and `HeapFree` move `end_address`, over any memory.

* `expansions` : the sizes that a call of `HeapAllocate` passes to `HeapExpand`;
* `heapGrow_end`, `heapFree_end` : the end of the heap after one step;
* `WithinMax`, `heap_end_below_max` : runs that stay below `max_address`;
* `lockedFrames` : the frames the heap holds; `heap_frames_exact` : runs in which these are the pages of the heap.
-/

namespace Gewodsys.Mem
open Gewodsys.Machine Gewodsys.Lib

/-! ## One step -/

/-- The sizes that `HeapAllocate` calls `HeapExpand` with, in order. -/
def expansions : Nat → HeapState → Nat → Int → List Nat
  | 0, _, _, _ => []
  | fuel + 1, s, size, pageAlign =>
      let newSize := add64 (add64 size sizeofHeapHeader) sizeofHeapFooter
      match heapFindSmallestHole s newSize pageAlign with
      | none => add64 (sub64 s.heap.endAddress s.heap.startAddress) newSize ::
          expansions fuel (heapGrow s newSize) size pageAlign
      | some _ => []

theorem sameExtent_refl (s : HeapState) : SameExtent s s := sameExtent_setMem s s.mem

theorem sameExtent_heapCarve (s : HeapState) (iterator size newSize : Nat) (align : Int) :
    SameExtent s (heapCarve s iterator size newSize align).2 := by
  unfold heapCarve
  simp only
  split_ifs
  · exact (sameExtent_setMem s _).trans (sameExtent_carveBlock _ _ _ _ _)
  · exact (sameExtent_setMem s _).trans (sameExtent_carveBlock _ _ _ _ _)
  · exact (sameExtent_arrayRemove s _).trans (sameExtent_carveBlock _ _ _ _ _)
  · exact (sameExtent_arrayRemove s _).trans (sameExtent_carveBlock _ _ _ _ _)

theorem sameExtent_heapGrow (s : HeapState) (newSize : Nat) :
    SameExtent (heapExpand s (add64 (sub64 s.heap.endAddress s.heap.startAddress) newSize)) (heapGrow s newSize) := by
  unfold heapGrow
  simp only
  generalize heapExpand s (add64 (sub64 s.heap.endAddress s.heap.startAddress) newSize) = s₁
  cases hhole : highestHole s₁ with
  | none => exact (sameExtent_setMem s₁ _).trans (sameExtent_arrayInsert _ _)
  | some idx => exact sameExtent_setMem s₁ _

theorem heapGrow_end (s : HeapState) (newSize : Nat) :
    (heapGrow s newSize).heap.endAddress = add64 s.heap.startAddress
        (expandSize (add64 (sub64 s.heap.endAddress s.heap.startAddress) newSize)) ∧
      SameBase s (heapGrow s newSize) := by
  have hsame := sameExtent_heapGrow s newSize
  have hheap := heapExpand_heap s (add64 (sub64 s.heap.endAddress s.heap.startAddress) newSize)
  refine ⟨?_, ⟨?_, ?_, ?_, ?_, ?_⟩⟩
  · rw [hsame.endAddress, hheap]
  · rw [hsame.startAddress, hheap]
  · rw [hsame.maxAddress, hheap]
  · rw [hsame.array, hheap]
  · rw [hsame.capacity, hheap]
  · rw [hsame.predicate, hheap]

theorem sameExtent_freeMergeRight (s : HeapState) (header footer : Nat) :
    SameExtent s (freeMergeRight s header footer).1 := by
  unfold freeMergeRight
  simp only
  split_ifs
  · exact (sameExtent_setMem s _).trans (sameExtent_arrayRemove _ _)
  · exact sameExtent_refl s

theorem sameExtent_freeRight (s : HeapState) (address : Nat) : SameExtent s (freeRight s address).1 :=
  (sameExtent_setMem s _).trans (sameExtent_freeMergeRight _ _ _)

/-- The last stage moves the end where the call reaches `HeapContract`. -/
theorem freeShrink_end (s : HeapState) (header footer testHeader : Nat) :
    SameBase s (freeShrink s header footer testHeader) ∧ (freeShrink s header footer testHeader).mapped = s.mapped ∧
      (freeShrink s header footer testHeader).heap.endAddress =
        if add64 footer sizeofHeapFooter = s.heap.endAddress then
          add64 s.heap.startAddress (contractSize (sub64 header s.heap.startAddress)) else s.heap.endAddress := by
  unfold freeShrink heapContract
  generalize contractSize (sub64 header s.heap.startAddress) = size
  by_cases hend : add64 footer sizeofHeapFooter = s.heap.endAddress
  · rw [if_pos hend, if_pos hend]
    generalize hs₁ : s.setEnd (add64 s.heap.startAddress size) = s₁
    have hset : SameBase s s₁ ∧ s₁.mapped = s.mapped ∧ s₁.heap.endAddress = add64 s.heap.startAddress size := by
      rw [← hs₁]
      exact ⟨⟨rfl, rfl, rfl, rfl, rfl⟩, rfl, rfl⟩
    have hkeep : ∀ s₂, SameExtent s₁ s₂ → SameBase s s₂ ∧ s₂.mapped = s.mapped ∧
        s₂.heap.endAddress = add64 s.heap.startAddress size := by
      intro s₂ h₂
      exact ⟨hset.1.trans h₂.toSameBase, h₂.mapped.trans hset.2.1, h₂.endAddress.trans hset.2.2⟩
    apply hkeep
    simp only
    split_ifs
    · exact sameExtent_setMem s₁ _
    · exact sameExtent_arrayRemove s₁ _
    · exact sameExtent_refl s₁
  · rw [if_neg hend, if_neg hend]
    exact ⟨(sameExtent_refl s).toSameBase, rfl, rfl⟩

theorem heapFree_end (s : HeapState) {address : Nat} (h : address ≠ 0) :
    SameBase s (heapFree s address) ∧ (heapFree s address).mapped = s.mapped ∧
      (heapFree s address).heap.endAddress =
        if contracts s address then
          add64 s.heap.startAddress (contractSize (sub64 (freeLeft s address).2.1 s.heap.startAddress))
        else s.heap.endAddress := by
  have hright := sameExtent_freeRight s address
  have hstages := heapFree_stages s h
  have hcontracts : contracts s address = decide (add64 (freeRight s address).2 sizeofHeapFooter = s.heap.endAddress) := rfl
  rw [hcontracts]
  generalize heapFree s address = s' at hstages ⊢
  generalize freeRight s address = right at hright hstages ⊢
  generalize freeLeft s address = left at hstages ⊢
  generalize add64 (freeFooter s address) sizeofHeapFooter = testHeader at hstages
  obtain ⟨hbase, hmapped, hend⟩ := freeShrink_end right.1 left.2.1 right.2 testHeader
  rw [hright.endAddress, hright.startAddress] at hend
  generalize freeShrink right.1 left.2.1 right.2 testHeader = s₃ at hbase hmapped hend hstages
  have hins := sameExtent_arrayInsert s₃ left.2.1
  simp only [decide_eq_true_iff]
  cases hadd : left.2.2 with
  | true =>
      rw [hadd, if_pos rfl] at hstages
      rw [hstages]
      exact ⟨(hright.toSameBase.trans hbase).trans hins.toSameBase, hins.mapped.trans (hmapped.trans hright.mapped),
        hins.endAddress.trans hend⟩
  | false =>
      rw [hadd, if_neg Bool.false_ne_true] at hstages
      rw [hstages]
      exact ⟨hright.toSameBase.trans hbase, hmapped.trans hright.mapped, hend⟩

/-- What every call of `HeapExpand` keeps, a call of `HeapAllocate` keeps. -/
theorem heapAllocate_induction {P : HeapState → Prop} {C : Nat → Prop} {size newSize : Nat}
    (hnew : add64 (add64 size sizeofHeapHeader) sizeofHeapFooter = newSize)
    (hext : ∀ s s', SameExtent s s' → P s → P s')
    (hgrow : ∀ s, C (add64 (sub64 s.heap.endAddress s.heap.startAddress) newSize) → P s → P (heapGrow s newSize))
    {fuel : Nat} {s s' : HeapState} {p : Nat} {align : Int} (hs : P s)
    (hC : ∀ x ∈ expansions fuel s size align, C x) (hcall : heapAllocate fuel s size align = some (p, s')) : P s' := by
  induction fuel generalizing s with
  | zero => cases hcall
  | succ fuel ih =>
      rw [heapAllocate] at hcall
      rw [expansions] at hC
      simp only [hnew] at hcall hC
      cases hfind : heapFindSmallestHole s newSize align with
      | none =>
          simp only [hfind, List.forall_mem_cons] at hcall hC
          exact ih (hgrow s hC.1 hs) hC.2 hcall
      | some iterator =>
          simp only [hfind] at hcall
          have hsame := sameExtent_heapCarve s iterator size newSize align
          rw [Option.some.inj hcall] at hsame
          exact hext _ _ hsame hs

/-! ## `max_address` -/

/-- A heap below `max_address` of at least the least length, with the index before it. -/
structure WithinMax (s : HeapState) : Prop where
  slots : s.heap.index.array + 8 * s.heap.index.capacity ≤ s.heap.startAddress
  capacity : s.heap.index.capacity = heapIndexSize
  least : s.heap.startAddress + heapMinSize ≤ s.heap.endAddress
  most : s.heap.endAddress ≤ s.heap.maxAddress
  top : s.heap.maxAddress < 2 ^ 64

/-- The calls that find room below `max_address`. A `kmalloc` finds a hole; or the length that it asks for, rounded up to the
next page, is below 4 GiB and ends below `max_address`, and the holes of the index are in the heap. Where a `kfree` reaches
`HeapContract`, the hole that it makes starts in the heap. -/
def FitsMax (r : HeapRun) : HeapOp → Prop
  | .kmalloc _ size => (heapFindSmallestHole r.state (size % 2 ^ 32 + 32) 0).isSome = true ∨
      (askedLength r.state (size % 2 ^ 32) < 2 ^ 32 ∧
        r.state.heap.startAddress + grownLength r.state (size % 2 ^ 32) ≤ r.state.heap.maxAddress ∧
        r.state.heap.index.size ≤ r.state.heap.index.capacity ∧ HolesInside r.state)
  | .kfree address => contracts r.state address = true →
      r.state.heap.startAddress ≤ (freeLeft r.state address).2.1 ∧
        (freeLeft r.state address).2.1 ≤ r.state.heap.endAddress
  | .store _ _ => True

section Max
variable {s s' : HeapState} {n : Nat}

theorem WithinMax.of_base (h : WithinMax s) (hbase : SameBase s s')
    (hleast : s.heap.startAddress + heapMinSize ≤ s'.heap.endAddress)
    (hmost : s'.heap.endAddress ≤ s.heap.maxAddress) : WithinMax s' := by
  refine ⟨?_, ?_, ?_, ?_, ?_⟩
  · rw [hbase.array, hbase.capacity, hbase.startAddress]
    exact h.slots
  · rw [hbase.capacity]
    exact h.capacity
  · rw [hbase.startAddress]
    exact hleast
  · rw [hbase.maxAddress]
    exact hmost
  · rw [hbase.maxAddress]
    exact h.top

theorem WithinMax.of_extent (h : WithinMax s) (hsame : SameExtent s s') : WithinMax s' :=
  h.of_base hsame.toSameBase (by rw [hsame.endAddress]; exact h.least) (by rw [hsame.endAddress]; exact h.most)

theorem WithinMax.lengths (h : WithinMax s) (n : Nat) (hasked : askedLength s n < 2 ^ 32) :
    ∃ L, s.heap.endAddress = s.heap.startAddress + L ∧ heapMinSize ≤ L ∧ L + (n + 32) < 2 ^ 32 ∧
      expandSize (L + (n + 32)) = grownLength s n ∧ L + (n + 32) < grownLength s n := by
  have hmin : heapMinSize = 0x70000 := rfl
  have hleast := h.least
  have hlen : askedLength s n = s.heap.endAddress - s.heap.startAddress + n + 32 := rfl
  have hround := expandSize_spec (show 0x1000 ≤ s.heap.endAddress - s.heap.startAddress + (n + 32) by omega) (by omega)
  exact ⟨s.heap.endAddress - s.heap.startAddress, by omega, by omega, by omega, hround, lt_grownLength s n⟩

/-- A growth that ends below `max_address`: it goes to the rounded length, and is the only one. -/
theorem WithinMax.grow (h : WithinMax s) (hasked : askedLength s n < 2 ^ 32)
    (hmax : s.heap.startAddress + grownLength s n ≤ s.heap.maxAddress)
    (hsize : s.heap.index.size ≤ s.heap.index.capacity) (hin : HolesInside s) :
    WithinMax (heapGrow s (n + 32)) ∧ (heapFindSmallestHole (heapGrow s (n + 32)) (n + 32) 0).isSome = true := by
  have htop := h.top
  have hmost := h.most
  have hmin : heapMinSize = 0x70000 := rfl
  obtain ⟨L, hL, hlow, hlen, hround, hlong⟩ := h.lengths n hasked
  have hbelow : IndexBelow s := ⟨h.slots, hsize, h.capacity, by omega, by omega⟩
  obtain ⟨hend, hbase⟩ := heapGrow_end s (n + 32)
  have hold : sub64 s.heap.endAddress s.heap.startAddress = L := by
    rw [sub64_of_le (by omega) (by omega)]
    omega
  rw [hold, add64_of_lt (a := L) (by omega), hround, add64_of_lt (by omega)] at hend
  refine ⟨h.of_base hbase (by omega) (by omega), ?_⟩
  exact hin.find_grow hbelow hL (by omega) hround (by omega) (by omega) (by omega)

/-- `HeapContract` from a hole in the heap never raises the end: bit 12 of the length sends it to the least one, and without
it the length stays. -/
theorem WithinMax.contract (h : WithinMax s) {header : Nat} (hlow : s.heap.startAddress ≤ header)
    (hhigh : header ≤ s.heap.endAddress) :
    s.heap.startAddress + heapMinSize ≤
        add64 s.heap.startAddress (contractSize (sub64 header s.heap.startAddress)) ∧
      add64 s.heap.startAddress (contractSize (sub64 header s.heap.startAddress)) ≤ s.heap.endAddress := by
  have hmin : heapMinSize = 0x70000 := rfl
  have hleast := h.least
  have hmost := h.most
  have htop := h.top
  rw [sub64_of_le (by omega) hlow, contractSize_eq]
  split_ifs
  · rw [add64_of_lt (by omega)]
    omega
  · rw [add64_of_lt (by omega)]
    omega

end Max

theorem heapAllocate_of_grow (fuel : Nat) {s : HeapState} {n iterator : Nat} (hn : n < 2 ^ 32)
    (hnone : heapFindSmallestHole s (n + 32) 0 = none)
    (hfind : heapFindSmallestHole (heapGrow s (n + 32)) (n + 32) 0 = some iterator) :
    heapAllocate (fuel + 2) s n 0 = some (heapCarve (heapGrow s (n + 32)) iterator n (n + 32) 0) := by
  rw [heapAllocate]
  simp only [newSize_eq hn, hnone]
  exact heapAllocate_of_find fuel hn hfind

theorem withinMax_step {r r' : HeapRun} {op : HeapOp} (h : WithinMax r.state) (hop : FitsMax r op)
    (hstep : heapStep r op = some r') : WithinMax r'.state := by
  cases op with
  | kmalloc fuel size =>
      obtain ⟨⟨p, s'⟩, hcall, rfl⟩ := Option.map_eq_some_iff.mp hstep
      have hn : size % 2 ^ 32 < 2 ^ 32 := Nat.mod_lt _ (by decide)
      have hcall := heapAllocate_succ (heapAllocate_succ hcall)
      cases hfind : heapFindSmallestHole r.state (size % 2 ^ 32 + 32) 0 with
      | some iterator =>
          rw [heapAllocate_of_find (fuel + 1) hn hfind] at hcall
          have hsame := sameExtent_heapCarve r.state iterator (size % 2 ^ 32) (size % 2 ^ 32 + 32) 0
          rw [Option.some.inj hcall] at hsame
          exact h.of_extent hsame
      | none =>
          have hop : _ ∨ _ := hop
          rw [hfind, or_iff_right (by simp)] at hop
          obtain ⟨hasked, hmax, hsize, hin⟩ := hop
          obtain ⟨hgrown, hsome⟩ := h.grow hasked hmax hsize hin
          obtain ⟨iterator, hfound⟩ := Option.isSome_iff_exists.mp hsome
          rw [heapAllocate_of_grow fuel hn hfind hfound] at hcall
          have hsame := sameExtent_heapCarve (heapGrow r.state (size % 2 ^ 32 + 32)) iterator (size % 2 ^ 32)
            (size % 2 ^ 32 + 32) 0
          rw [Option.some.inj hcall] at hsame
          exact hgrown.of_extent hsame
  | kfree address =>
      obtain ⟨n, hmem, rfl⟩ := heapStep_kfree hstep
      by_cases h0 : address = 0
      · have hfree : kfree r.state address = r.state := by
          unfold kfree heapFree
          rw [if_pos h0]
        simp only
        rw [hfree]
        exact h
      · obtain ⟨hbase, -, hend⟩ := heapFree_end r.state h0
        have hleast := h.least
        have hmost := h.most
        refine h.of_base hbase ?_ ?_
        · change _ ≤ (heapFree r.state address).heap.endAddress
          rw [hend]
          split_ifs with hc
          · exact (h.contract (hop hc).1 (hop hc).2).1
          · exact hleast
        · change (heapFree r.state address).heap.endAddress ≤ _
          rw [hend]
          split_ifs with hc
          · exact (h.contract (hop hc).1 (hop hc).2).2.trans hmost
          · exact hmost
  | store address byte =>
      obtain ⟨p, n, -, -, -, rfl⟩ := heapStep_store hstep
      exact h.of_extent (sameExtent_setMem r.state _)

theorem heapCreate_heap (m : Mem) (frames : Nat → Nat → Byte) (start endAddress maxAddress supervisor readonly : Nat) :
    (heapCreate m frames start endAddress maxAddress supervisor readonly).heap.endAddress = endAddress ∧
      (heapCreate m frames start endAddress maxAddress supervisor readonly).heap.maxAddress = maxAddress := by
  unfold heapCreate
  simp only [HeapState.arrayInsert]
  exact ⟨trivial, trivial⟩

theorem withinMax_heapCreate (m : Mem) (frames : Nat → Nat → Byte)
    {start endAddress maxAddress : Nat} (supervisor readonly : Nat) (hlow : start + 0x101000 + heapMinSize ≤ endAddress)
    (hend : endAddress ≤ maxAddress) (hmax : maxAddress < 2 ^ 64) :
    WithinMax (heapCreate m frames start endAddress maxAddress supervisor readonly) := by
  have hindex : 8 * heapIndexSize = 0x100000 := rfl
  have hadd : add64 start (8 * heapIndexSize) = start + 0x100000 := by
    rw [hindex, add64_of_lt (by omega)]
  have hmask : (start + 0x100000) &&& 0xFFFFFFFFFFFFF000 = (start + 0x100000) / 4096 * 4096 := by
    rw [show (0xFFFFFFFFFFFFF000 : Nat) = 2 ^ 64 - 2 ^ 12 from rfl, land_mask _ 12 64 (by decide),
      Nat.mod_eq_of_lt (by omega), show (2 : Nat) ^ 12 = 4096 from rfl]
  have hround : add64 ((start + 0x100000) / 4096 * 4096) 0x1000 = (start + 0x100000) / 4096 * 4096 + 0x1000 :=
    add64_of_lt (by omega)
  obtain ⟨h1, h2⟩ := heapCreate_heap m frames start endAddress maxAddress supervisor readonly
  have hstart : (heapCreate m frames start endAddress maxAddress supervisor readonly).heap.startAddress =
      (start + 0x100000) / 4096 * 4096 + 0x1000 := by
    unfold heapCreate
    simp only [HeapState.arrayInsert, hadd, hmask]
    rw [if_pos (by omega), hround]
  have harray : (heapCreate m frames start endAddress maxAddress supervisor readonly).heap.index.array = start := by
    unfold heapCreate
    simp only [HeapState.arrayInsert]
    rfl
  have hcap : (heapCreate m frames start endAddress maxAddress supervisor readonly).heap.index.capacity =
      heapIndexSize := by
    unfold heapCreate
    simp only [HeapState.arrayInsert]
    rfl
  refine ⟨?_, hcap, ?_, ?_, ?_⟩
  · rw [harray, hcap, hstart]
    omega
  · rw [hstart, h1]
    omega
  · rw [h1, h2]
    exact hend
  · rw [h2]
    exact hmax

/-- **The heap stays below `max_address`**, over every run, on a heap from `HeapCreate`, of calls whose lengths have room
there. -/
theorem heap_end_below_max (m : Mem) (frames : Nat → Nat → Byte)
    (start endAddress maxAddress supervisor readonly : Nat) (hlow : start + 0x101000 + heapMinSize ≤ endAddress)
    (hend : endAddress ≤ maxAddress) (hmax : maxAddress < 2 ^ 64) (ops : List HeapOp) (r : HeapRun)
    (hops : StepsMeet heapStep FitsMax ⟨heapCreate m frames start endAddress maxAddress supervisor readonly, []⟩ ops)
    (hrun : run heapStep ⟨heapCreate m frames start endAddress maxAddress supervisor readonly, []⟩ ops = some r) :
    r.state.heap.endAddress ≤ r.state.heap.maxAddress := by
  have h : WithinMax r.state := run_invariant (I := fun r => WithinMax r.state)
    (fun _ _ _ h hop hs => withinMax_step h hop hs)
    (withinMax_heapCreate m frames supervisor readonly hlow hend hmax) hops hrun
  exact h.most

instance (s : HeapState) : Decidable (HolesInside s) :=
  inferInstanceAs (Decidable (∀ e ∈ contents s.mem s.heap.index, s.heap.startAddress ≤ e ∧
    e + 16 ≤ s.heap.endAddress / 4096 * 4096 ∧ e + headerSize s.mem e ≤ s.heap.endAddress))

instance (r : HeapRun) : (op : HeapOp) → Decidable (FitsMax r op)
  | .kmalloc _ _ => inferInstanceAs (Decidable (_ ∨ _))
  | .kfree _ => inferInstanceAs (Decidable (_ → _))
  | .store _ _ => .isTrue trivial

theorem heap_end_below_max_two : ∃ r, run heapStep ⟨heapCreate (fun _ => 0) (fun _ _ => 0) heapAddr
    (heapAddr + heapSize) (heapAddr + 0x40000000) 0 0, []⟩ [.kmalloc 1 100, .kfree 0x100000101010] = some r ∧
      r.live = [] ∧ r.state.heap.endAddress ≤ r.state.heap.maxAddress := by
  have hboot : (⟨heapCreate (fun _ => 0) (fun _ _ => 0) heapAddr (heapAddr + heapSize) (heapAddr + 0x40000000) 0 0, []⟩ :
      HeapRun) = zeroHeap := boot_zero
  have hrun : (run heapStep zeroHeap [.kmalloc 1 100, .kfree 0x100000101010]).map HeapRun.live = some [] := by
    decide +kernel
  obtain ⟨r, hr, hlive⟩ := Option.map_eq_some_iff.mp hrun
  rw [← hboot] at hr
  refine ⟨r, hr, hlive, heap_end_below_max _ _ heapAddr (heapAddr + heapSize) (heapAddr + 0x40000000) 0 0
    (by decide +kernel) (by decide +kernel) (by decide +kernel) _ r ?_ hr⟩
  rw [hboot]
  decide +kernel

theorem canGrow_boot (m : Mem) (frames : Nat → Nat → Byte) : CanGrow (mmInitializeHeap m frames) := by
  have hok := heapOk_boot m frames
  intro e he _
  rw [contents_boot, List.mem_singleton] at he
  have hchunk := (chunks_cons.mp hok.rep.tiles).1
  have hfits := hok.rep.fits
  rw [hok.start] at hchunk hfits
  rw [he, hchunk.header.size, ← hfits, total_cons, total_nil]
  rfl

theorem find_boot_none (m : Mem) (frames : Nat → Nat → Byte) (size : Nat) (h : heapSize - 0x101000 < size) :
    heapFindSmallestHole (mmInitializeHeap m frames) size 0 = none := by
  cases hfind : heapFindSmallestHole (mmInitializeHeap m frames) size 0 with
  | none => rfl
  | some iterator =>
      obtain ⟨pre, hole, post, hcs, -, -, -, hfit⟩ := (heapRep_boot m frames).found hfind
      have hsize : hole.size ≤ heapSize - 0x101000 := by
        have htotal := congrArg (total Chunk.size) hcs
        simp only [total_append, total_cons, total_nil] at htotal
        omega
      omega

/-- Without the condition: nothing compares the new length with `max_address`. -/
theorem heap_end_above_max : ¬ ∀ (m : Mem) (frames : Nat → Nat → Byte)
    (start endAddress maxAddress supervisor readonly : Nat), endAddress ≤ maxAddress → ∀ (ops : List HeapOp) (r : HeapRun),
      run heapStep ⟨heapCreate m frames start endAddress maxAddress supervisor readonly, []⟩ ops = some r →
        r.state.heap.endAddress ≤ r.state.heap.maxAddress := by
  intro h
  obtain ⟨s, hs⟩ : ∃ s, s = mmInitializeHeap (fun _ => 0) (fun _ _ => 0) := ⟨_, rfl⟩
  have hok := heapOk_boot (fun _ => 0) (fun _ _ => 0)
  have hcan := canGrow_boot (fun _ => 0) (fun _ _ => 0)
  have hnone := find_boot_none (fun _ => 0) (fun _ _ => 0) (0x40000000 + 32) (by decide +kernel)
  obtain ⟨hend, hmax⟩ := heapCreate_heap (fun _ => 0) (fun _ _ => 0) heapAddr (heapAddr + heapSize)
    (heapAddr + 0x40000000) 0 0
  change (mmInitializeHeap _ _).heap.endAddress = _ at hend
  change (mmInitializeHeap _ _).heap.maxAddress = _ at hmax
  have hall := h (fun _ => 0) (fun _ _ => 0) heapAddr (heapAddr + heapSize) (heapAddr + 0x40000000) 0 0
    (by decide +kernel) [.kmalloc 2 0x40000000]
  change ∀ r, run heapStep ⟨mmInitializeHeap _ _, []⟩ _ = some r → _ at hall
  rw [← hs] at hok hcan hnone hend hmax hall
  have hstart := hok.start
  obtain ⟨-, hsome⟩ := hok.grow (n := 0x40000000) hcan (by rw [hstart, hend]; decide +kernel)
  obtain ⟨iterator, hfind⟩ := Option.isSome_iff_exists.mp hsome
  obtain ⟨hgrown, hbase⟩ := heapGrow_end s (0x40000000 + 32)
  have hcall := heapAllocate_of_grow 0 (by decide) hnone hfind
  have hsame := sameExtent_heapCarve (heapGrow s (0x40000000 + 32)) iterator 0x40000000 (0x40000000 + 32) 0
  generalize heapCarve (heapGrow s (0x40000000 + 32)) iterator 0x40000000 (0x40000000 + 32) 0 = x at hcall hsame
  have hrun : run heapStep ⟨s, []⟩ [.kmalloc 2 0x40000000] = some ⟨x.2, [(x.1, 0x40000000)]⟩ := by
    rw [run_cons, heapStep, kmalloc, show 0x40000000 % 2 ^ 32 = 0x40000000 from rfl, hcall]
    rfl
  have hle := hall _ hrun
  simp only at hle
  rw [hsame.endAddress, hsame.maxAddress, hgrown, hbase.maxAddress, hmax, hend, hstart] at hle
  revert hle
  decide +kernel

/-! ## Frames -/

/-- The frames taken for the pages of the heap, by `MmInitializeHeap` and by `HeapExpand`. All of them are still locked: no
function of the heap calls `MmFreePage`. -/
def lockedFrames (s : HeapState) : Nat := heapSize / pageSize + s.mapped

/-- The pages of `[HEAP_ADDR, end_address)`. -/
def heapPages (s : HeapState) : Nat := (s.heap.endAddress - heapAddr + (pageSize - 1)) / pageSize

/-- Every call of `HeapExpand` is for less than 4 GiB, and `HeapContract` is not called. -/
def KeepsFrames (r : HeapRun) : HeapOp → Prop
  | .kmalloc fuel size => ∀ x ∈ expansions fuel r.state (size % 2 ^ 32) 0, x < 2 ^ 32
  | .kfree address => contracts r.state address = false
  | .store _ _ => True

/-- The heap with one frame for each of its pages. -/
structure FramesOk (s : HeapState) : Prop where
  start : s.heap.startAddress = heapStart
  page : s.heap.endAddress % 4096 = 0
  least : heapAddr + heapSize ≤ s.heap.endAddress
  most : s.heap.endAddress ≤ heapStart + 2 ^ 32
  frames : 4096 * s.mapped = s.heap.endAddress - (heapAddr + heapSize)

theorem FramesOk.of_extent {s s' : HeapState} (h : FramesOk s) (hstart : s'.heap.startAddress = s.heap.startAddress)
    (hend : s'.heap.endAddress = s.heap.endAddress) (hmapped : s'.mapped = s.mapped) : FramesOk s' := by
  refine ⟨hstart.trans h.start, ?_, ?_, ?_, ?_⟩
  · rw [hend]
    exact h.page
  · rw [hend]
    exact h.least
  · rw [hend]
    exact h.most
  · rw [hmapped, hend]
    exact h.frames

theorem heapSize_eq : heapSize = 0x10000000 := by decide +kernel

theorem FramesOk.grow {s : HeapState} (h : FramesOk s) {newSize : Nat} (hnew : newSize < 2 ^ 33)
    (hsize : add64 (sub64 s.heap.endAddress s.heap.startAddress) newSize < 2 ^ 32) : FramesOk (heapGrow s newSize) := by
  have hst := heapStart_eq
  have hsz := heapSize_eq
  have had := heapAddr_eq
  have hleast := h.least
  have hmost := h.most
  have hpage := h.page
  have hframes := h.frames
  have hstart := h.start
  have hold : sub64 s.heap.endAddress s.heap.startAddress = s.heap.endAddress - s.heap.startAddress :=
    sub64_of_le (by omega) (by omega)
  have hsum : add64 (s.heap.endAddress - s.heap.startAddress) newSize =
      s.heap.endAddress - s.heap.startAddress + newSize := add64_of_lt (by omega)
  have hsame := sameExtent_heapGrow s newSize
  rw [hold, hsum] at hsize hsame
  have hG := expandSize_spec (by omega) hsize
  obtain ⟨m', k, hexp, hk, -⟩ := heapExpand_pages s hG (by omega) (by omega) hpage (by omega) (by omega) (by omega)
  rw [hexp] at hsame
  refine ⟨hsame.startAddress.trans hstart, ?_, ?_, ?_, ?_⟩
  · rw [hsame.endAddress]
    simp only
    omega
  · rw [hsame.endAddress]
    simp only
    omega
  · rw [hsame.endAddress]
    simp only
    omega
  · rw [hsame.endAddress, hsame.mapped, hk]
    simp only
    omega

theorem framesOk_step {r r' : HeapRun} {op : HeapOp} (h : FramesOk r.state) (hop : KeepsFrames r op)
    (hstep : heapStep r op = some r') : FramesOk r'.state := by
  cases op with
  | kmalloc fuel size =>
      obtain ⟨⟨p, s'⟩, hcall, rfl⟩ := Option.map_eq_some_iff.mp hstep
      have hn : size % 2 ^ 32 < 2 ^ 32 := Nat.mod_lt _ (by decide)
      refine heapAllocate_induction (newSize_eq hn) (C := fun x => x < 2 ^ 32) ?_ ?_ h hop hcall
      · intro s s' hsame hs
        exact hs.of_extent hsame.startAddress hsame.endAddress hsame.mapped
      · intro s hC hs
        exact hs.grow (by omega) hC
  | kfree address =>
      obtain ⟨n, hmem, rfl⟩ := heapStep_kfree hstep
      by_cases h0 : address = 0
      · have hfree : kfree r.state address = r.state := by
          unfold kfree heapFree
          rw [if_pos h0]
        simp only
        rw [hfree]
        exact h
      · obtain ⟨hbase, hmapped, hend⟩ := heapFree_end r.state h0
        have hop' : contracts r.state address = false := hop
        rw [hop', if_neg Bool.false_ne_true] at hend
        exact h.of_extent hbase.startAddress hend hmapped
  | store address byte =>
      obtain ⟨p, n, -, -, -, rfl⟩ := heapStep_store hstep
      exact h.of_extent rfl rfl rfl

theorem framesOk_boot (m : Mem) (frames : Nat → Nat → Byte) : FramesOk (mmInitializeHeap m frames) := by
  have hend : (mmInitializeHeap m frames).heap.endAddress = heapAddr + heapSize := (heapCreate_heap m frames _ _ _ _ _).1
  have hmapped : (mmInitializeHeap m frames).mapped = 0 := by
    rw [mmInitializeHeap_eq]
    rfl
  refine ⟨(heapOk_boot m frames).start, ?_, ?_, ?_, ?_⟩
  · rw [hend]
    decide +kernel
  · rw [hend]
  · rw [hend]
    decide +kernel
  · rw [hend, hmapped]
    omega

/-- **One frame for each page of the heap**, over every run of such calls. -/
theorem heap_frames_exact (m : Mem) (frames : Nat → Nat → Byte) (ops : List HeapOp) (r : HeapRun)
    (hops : StepsMeet heapStep KeepsFrames (HeapRun.boot m frames) ops)
    (hrun : run heapStep (HeapRun.boot m frames) ops = some r) : lockedFrames r.state = heapPages r.state := by
  have h : FramesOk r.state := run_invariant (I := fun r => FramesOk r.state)
    (fun _ _ _ h hop hs => framesOk_step h hop hs) (framesOk_boot m frames) hops hrun
  have hsz := heapSize_eq
  have hframes := h.frames
  have hleast := h.least
  have hpage := h.page
  have had := heapAddr_eq
  unfold lockedFrames heapPages pageSize
  omega

instance (r : HeapRun) : (op : HeapOp) → Decidable (KeepsFrames r op)
  | .kmalloc fuel size => inferInstanceAs (Decidable (∀ x ∈ expansions fuel r.state (size % 2 ^ 32) 0, x < 2 ^ 32))
  | .kfree address => inferInstanceAs (Decidable (contracts r.state address = false))
  | .store _ _ => .isTrue trivial

theorem heap_frames_exact_two : ∃ r, run heapStep (HeapRun.boot (fun _ => 0) fun _ _ => 0)
    [.kmalloc 1 100, .kmalloc 1 16, .kfree 0x100000101010] = some r ∧ r.live = [(0x100000101094, 16)] ∧
      lockedFrames r.state = heapPages r.state := by
  have hrun : (run heapStep zeroHeap [.kmalloc 1 100, .kmalloc 1 16, .kfree 0x100000101010]).map HeapRun.live =
      some [(0x100000101094, 16)] := by decide +kernel
  obtain ⟨r, hr, hlive⟩ := Option.map_eq_some_iff.mp hrun
  rw [← boot_zero] at hr
  refine ⟨r, hr, hlive, heap_frames_exact _ _ _ r ?_ hr⟩
  rw [boot_zero]
  decide +kernel

/-- Without the condition: `HeapContract` keeps the frames of the pages that it cuts off. -/
theorem heap_frames_stranded : ¬ ∀ (m : Mem) (frames : Nat → Nat → Byte) (ops : List HeapOp) (r : HeapRun),
    run heapStep (HeapRun.boot m frames) ops = some r → lockedFrames r.state = heapPages r.state := by
  intro h
  have hrun : (run heapStep zeroHeap [.kmalloc 1 100, .kfree 0x100000101010]).map
      (fun r => (lockedFrames r.state, heapPages r.state)) = some (65536, 369) := by decide +kernel
  obtain ⟨r, hr, heq⟩ := Option.map_eq_some_iff.mp hrun
  simp only [Prod.mk.injEq] at heq
  rw [← boot_zero] at hr
  have := h _ _ _ r hr
  rw [heq.1, heq.2] at this
  omega

end Gewodsys.Mem
