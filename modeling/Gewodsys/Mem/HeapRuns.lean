import Gewodsys.Mem.HeapInv

/-!
# Blocks and index of the kernel heap

* `BlocksOk` : the blocks in use are apart from each other and from the holes of the index;
* `heap_blocks_apart` : after every run of clean calls they are;
* `Underflows` : a call takes the size of the index below zero; `heap_index_bounds` : no run of clean calls does, or takes
  it above the capacity.
-/

namespace Gewodsys.Mem
open Gewodsys.Machine Gewodsys.Lib

variable {s : HeapState} {live : List (Nat × Nat)} {cs : List Chunk}

/-! ## A heap to try things out on -/

theorem rtZeroMemory_zero (a n : Nat) : rtZeroMemory (fun _ => 0) a n = fun _ => 0 := by
  funext x
  rw [rtZeroMemory_apply]
  split_ifs <;> rfl

/-- The kernel heap after `MmInitializeHeap` over a memory of zeros, as a term that can be evaluated. -/
def zeroHeap : HeapRun :=
  ⟨HeapState.arrayInsert ⟨writeHeader (fun _ => 0) heapStart 1 (heapSize - 0x101000),
    ⟨⟨heapAddr, 0, heapIndexSize, headerPredicate⟩, heapStart, heapAddr + heapSize, heapAddr + 0x40000000, 0, 0⟩,
    fun _ _ => 0, 0⟩ heapStart, []⟩

theorem boot_zero : HeapRun.boot (fun _ => 0) (fun _ _ => 0) = zeroHeap := by
  unfold HeapRun.boot
  rw [mmInitializeHeap_eq, rtZeroMemory_zero]
  rfl

/-! ## Blocks -/

/-- The first address of the chunk of a block, and the address behind it. -/
def chunkStart (q : Nat × Nat) : Nat := q.1 - sizeofHeapHeader

def chunkEnd (m : Mem) (q : Nat × Nat) : Nat := chunkStart q + headerSize m (chunkStart q)

/-- The chunks of the blocks do not overlap each other or a hole of the index, lie in the heap, and have room for what was
requested between header and footer. -/
structure BlocksOk (s : HeapState) (live : List (Nat × Nat)) : Prop where
  disjoint : live.Pairwise fun p q => chunkEnd s.mem p ≤ chunkStart q ∨ chunkEnd s.mem q ≤ chunkStart p
  inside : ∀ q ∈ live, s.heap.startAddress ≤ chunkStart q ∧ chunkEnd s.mem q ≤ s.heap.endAddress
  room : ∀ q ∈ live, chunkStart q + sizeofHeapHeader + q.2 + sizeofHeapFooter ≤ chunkEnd s.mem q
  holes : ∀ q ∈ live, ∀ e ∈ contents s.mem s.heap.index,
    chunkEnd s.mem q ≤ e ∨ e + headerSize s.mem e ≤ chunkStart q

theorem HeapOk.placed (h : HeapOk s live cs) {q : Nat × Nat} (hq : q ∈ live) :
    ∃ c, c.use = some q.2 ∧ (chunkStart q, c) ∈ placed Chunk.size s.heap.startAddress cs ∧
      chunkEnd s.mem q = chunkStart q + c.size ∧ q.2 + 32 ≤ c.size := by
  obtain ⟨p, n⟩ := q
  obtain ⟨b, c, hc, rfl, hmem⟩ := mem_used.mp (h.live.subset hq)
  have hchunk := h.rep.tiles _ hmem
  refine ⟨c, hc, hmem, ?_, hchunk.room n hc⟩
  unfold chunkEnd chunkStart sizeofHeapHeader
  simp only [Nat.add_sub_cancel, hchunk.header.size]

theorem HeapOk.blocksOk (h : HeapOk s live cs) : BlocksOk s live := by
  refine ⟨?_, fun q hq => ?_, fun q hq => ?_, fun q hq e he => ?_⟩
  · refine List.Pairwise.perm ?_ h.live.symm fun h => Or.symm h
    unfold used
    rw [List.pairwise_filterMap]
    refine (placed_pairwise Chunk.size s.heap.startAddress cs).imp_of_mem ?_
    rintro ⟨a, c⟩ ⟨b, d⟩ hc hd hlt p hp q hq
    obtain ⟨n, -, rfl⟩ := Option.map_eq_some_iff.mp hp
    obtain ⟨k, -, rfl⟩ := Option.map_eq_some_iff.mp hq
    left
    unfold chunkEnd chunkStart sizeofHeapHeader
    simp only [Nat.add_sub_cancel, (h.rep.tiles _ hc).header.size]
    exact hlt
  · obtain ⟨c, -, hmem, hend, -⟩ := h.placed hq
    have hb := placed_bounds Chunk.size hmem
    rw [h.rep.fits] at hb
    rw [hend]
    exact hb
  · obtain ⟨c, -, -, hend, hroom⟩ := h.placed hq
    rw [hend]
    unfold sizeofHeapHeader sizeofHeapFooter
    omega
  · obtain ⟨c, hc, hmem, hend, -⟩ := h.placed hq
    obtain ⟨d, hd, hmem'⟩ := mem_holes.mp (h.rep.index.subset he)
    have hsize : headerSize s.mem e = d.size := (h.rep.tiles _ hmem').header.size
    rw [hend, hsize]
    by_contra hno
    -- a hole that overlaps the block is the block
    have heq := placed_eq_of_overlap Chunk.size hmem hmem' (by simp only; omega) (by simp only; omega)
    rw [(Prod.mk.inj heq).2, hd] at hc
    cases hc

/-- **The blocks in use are apart**, after every run of clean calls. -/
theorem heap_blocks_apart (m : Mem) (frames : Nat → Nat → Byte) (ops : List HeapOp) (r : HeapRun)
    (hclean : StepsMeet heapStep CleanOp (HeapRun.boot m frames) ops)
    (hrun : run heapStep (HeapRun.boot m frames) ops = some r) : BlocksOk r.state r.live := by
  obtain ⟨cs, h⟩ := heapOk_run hclean hrun
  exact h.blocksOk

theorem heap_blocks_apart_three : ∃ r, run heapStep (HeapRun.boot (fun _ => 0) fun _ _ => 0)
    [.kmalloc 1 100, .kmalloc 1 16, .kmalloc 1 64, .kfree 0x100000101010, .kfree 0x100000101094] = some r ∧
      r.live = [(0x1000001010C4, 64)] ∧ BlocksOk r.state r.live := by
  have hrun : (run heapStep zeroHeap [.kmalloc 1 100, .kmalloc 1 16, .kmalloc 1 64, .kfree 0x100000101010,
      .kfree 0x100000101094]).map HeapRun.live = some [(0x1000001010C4, 64)] := by decide +kernel
  obtain ⟨r, hr, hlive⟩ := Option.map_eq_some_iff.mp hrun
  rw [← boot_zero] at hr
  refine ⟨r, hr, hlive, heap_blocks_apart _ _ _ r ?_ hr⟩
  rw [boot_zero]
  decide +kernel

/-- Without the condition: freeing the last block, behind one of `0x101000` bytes, shrinks the heap to its least size, which
ends inside that block. -/
theorem heap_shrinks_into_block : ¬ ∀ (m : Mem) (frames : Nat → Nat → Byte) (ops : List HeapOp) (r : HeapRun),
    run heapStep (HeapRun.boot m frames) ops = some r → BlocksOk r.state r.live := by
  intro h
  have hrun : (run heapStep zeroHeap [.kmalloc 1 0x100FE0, .kmalloc 1 16, .kfree 0x100000202010]).map
      (fun r => (r.live, r.state.heap.endAddress, headerSize r.state.mem 0x100000101000)) =
        some ([(0x100000101010, 0x100FE0)], 0x100000171000, 0x101000) := by decide +kernel
  obtain ⟨r, hr, heq⟩ := Option.map_eq_some_iff.mp hrun
  simp only [Prod.mk.injEq] at heq
  obtain ⟨hlive, hend, hsize⟩ := heq
  rw [← boot_zero] at hr
  have hin := ((h _ _ _ r hr).inside (0x100000101010, 0x100FE0) (by rw [hlive]; exact List.mem_singleton_self _)).2
  rw [hend] at hin
  unfold chunkEnd at hin
  change 0x100000101000 + headerSize r.state.mem 0x100000101000 ≤ _ at hin
  rw [hsize] at hin
  omega

/-! ## The size of the index -/

/-- A call of `ArrayRemove` takes the size of the index below zero. The one in `HeapAllocate` follows a search that found an
entry, and the one that follows `HeapContract` is guarded. -/
def Underflows (r : HeapRun) : HeapOp → Prop
  | .kfree address => mergesRight r.state address = true ∧ r.state.heap.index.size = 0
  | _ => False

/-- A block with a hole on its right, which is in the index. -/
theorem HeapOk.not_underflows (h : HeapOk s live cs) {p n : Nat} (hp : (p, n) ∈ live) (hclean : CleanFree s p)
    (hright : mergesRight s p = true) : 0 < s.heap.index.size := by
  obtain ⟨pre, blk, post, rfl, hn, hp⟩ := h.block hp
  obtain ⟨header, hheader⟩ : ∃ header, header = s.heap.startAddress + total Chunk.size pre := ⟨_, rfl⟩
  rw [← hheader] at hp
  subst hp
  obtain ⟨htag, -, hno, -⟩ := hclean
  rw [Nat.add_sub_cancel] at htag hno
  rw [h.mergesRight_eq hn header hheader htag] at hright
  obtain ⟨-, hstop, hnext⟩ := h.rightChunk header hheader
  cases post with
  | nil =>
      rw [hstop.mpr rfl, hno (hstop.mpr rfl)] at hright
      cases hright
  | cons r post =>
      have hr := ((hnext r post rfl).1).mp hright
      rw [h.rep.index_size_eq, List.countP_append, List.countP_cons, List.countP_cons, hr]
      simp

/-- **The size of the index stays in bounds**, over every run of clean calls. -/
theorem heap_index_bounds (m : Mem) (frames : Nat → Nat → Byte) (ops : List HeapOp) (r : HeapRun)
    (hclean : StepsMeet heapStep CleanOp (HeapRun.boot m frames) ops)
    (hrun : run heapStep (HeapRun.boot m frames) ops = some r) :
    r.state.heap.index.size ≤ r.state.heap.index.capacity ∧ r.state.heap.index.capacity = heapIndexSize ∧
      ∀ op r', CleanOp r op → heapStep r op = some r' → ¬ Underflows r op := by
  obtain ⟨cs, h⟩ := heapOk_run hclean hrun
  refine ⟨h.room, h.capacity, fun op r' hop hstep hunder => ?_⟩
  cases op with
  | kmalloc => exact hunder
  | kfree address =>
      obtain ⟨n, hmem, -⟩ := heapStep_kfree hstep
      have := h.not_underflows hmem hop hunder.1
      have := hunder.2
      omega
  | store => exact hunder

theorem heap_index_bounds_two : ∃ r, run heapStep (HeapRun.boot (fun _ => 0) fun _ _ => 0)
    [.kmalloc 1 100, .kmalloc 1 16, .kfree 0x100000101010] = some r ∧ r.state.heap.index.size = 2 ∧
      r.state.heap.index.size ≤ r.state.heap.index.capacity ∧ ¬ Underflows r (.kfree 0x100000101094) := by
  have hrun : (run heapStep zeroHeap [.kmalloc 1 100, .kmalloc 1 16, .kfree 0x100000101010]).map
      (fun r => (r.state.heap.index.size, decide (CleanOp r (.kfree 0x100000101094)),
        (heapStep r (.kfree 0x100000101094)).isSome)) = some (2, true, true) := by decide +kernel
  obtain ⟨r, hr, heq⟩ := Option.map_eq_some_iff.mp hrun
  simp only [Prod.mk.injEq, decide_eq_true_iff] at heq
  obtain ⟨hsize, hop, hstep⟩ := heq
  obtain ⟨r', hr'⟩ := Option.isSome_iff_exists.mp hstep
  rw [← boot_zero] at hr
  obtain ⟨h1, -, h2⟩ := heap_index_bounds _ _ _ r (by rw [boot_zero]; decide +kernel) hr
  exact ⟨r, hr, hsize, h1, h2 _ r' hop hr'⟩

/-- Without the condition: the footer that a merge to the right leaves behind sends the next `kfree` to a header inside a
hole, so that a hole is lost to the index; with the index empty, freeing the block before that hole takes an entry out. -/
theorem heap_index_underflows : ¬ ∀ (m : Mem) (frames : Nat → Nat → Byte) (ops : List HeapOp) (r : HeapRun),
    run heapStep (HeapRun.boot m frames) ops = some r → r.state.heap.index.size ≤ r.state.heap.index.capacity ∧
      ∀ op r', heapStep r op = some r' → ¬ Underflows r op := by
  intro h
  have hrun : (run heapStep zeroHeap [.kmalloc 1 16, .kmalloc 1 16, .kmalloc 1 16, .kmalloc 1 16, .kfree 0x100000101040,
      .kfree 0x100000101010, .kfree 0x100000101070, .kmalloc 1 64, .kmalloc 1 0xFEFEF20]).map
        (fun r => (r.live.find? fun q => q.1 = 0x100000101010, mergesRight r.state 0x100000101010,
          r.state.heap.index.size)) = some (some (0x100000101010, 64), true, 0) := by decide +kernel
  obtain ⟨r, hr, heq⟩ := Option.map_eq_some_iff.mp hrun
  simp only [Prod.mk.injEq] at heq
  obtain ⟨hlive, hright, hsize⟩ := heq
  rw [← boot_zero] at hr
  have hstep : heapStep r (.kfree 0x100000101010) =
      some ⟨kfree r.state 0x100000101010, r.live.erase (0x100000101010, 64)⟩ := by
    rw [heapStep, hlive]
    rfl
  exact (h _ _ _ r hr).2 _ _ hstep ⟨hright, hsize⟩

end Gewodsys.Mem
