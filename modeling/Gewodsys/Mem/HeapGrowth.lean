import Gewodsys.Mem.HeapInv

/-!
# Growing a heap in any state

`HeapAllocate` without a hole moves `end_address` and writes the tags of one hole, also where the chunks are not in order.

* `askedLength`, `expandSize_le` : the length that `HeapExpand` is asked for, and its rounding;
* `IndexBelow` : the index lies below the heap;
* `heapGrow_highest`, `heapGrow_empty` : what is written, with a hole in the index and without one;
* `HolesInside` : every hole of the index ends in the heap; `HolesInside.find_grow` : then one growth is enough.
-/

namespace Gewodsys.Mem
open Gewodsys.Machine Gewodsys.Lib

/-! ## `HeapExpand` -/

/-- `old_length + new_size`, the length that `HeapAllocate` asks `HeapExpand` for. -/
def askedLength (s : HeapState) (n : Nat) : Nat := s.heap.endAddress - s.heap.startAddress + n + 32

/-- `HeapExpand` up to 4 GiB: the next page, and 4 GiB as they are. -/
theorem expandSize_le {L : Nat} (hlow : 0x1000 ≤ L) (hL : L ≤ 2 ^ 32) :
    expandSize L % 4096 = 0 ∧ L ≤ expandSize L ∧ expandSize L < 2 ^ 33 := by
  unfold expandSize
  rw [land_expand]
  split_ifs
  · omega
  · omega

theorem heapExpand_heap (s : HeapState) (size : Nat) :
    (heapExpand s size).heap = { s.heap with endAddress := add64 s.heap.startAddress (expandSize size) } := by
  unfold heapExpand
  simp only [HeapState.setEnd, (heapExpandLoop_heap _ _ _ s).1]

theorem frame_heapExpandLoop (size n offset : Nat) (s : HeapState) (hlow : 4096 ≤ s.heap.startAddress)
    (htop : s.heap.startAddress + size < 2 ^ 64) :
    Frame s.mem (heapExpandLoop size n offset s).mem fun x =>
      offset < size ∧ (s.heap.startAddress + offset) / 4096 * 4096 ≤ x := by
  induction n generalizing offset s with
  | zero => exact Frame.refl _ _
  | succ n ih =>
      rw [heapExpandLoop]
      split_ifs with hlt
      · have haddr : add64 s.heap.startAddress offset = s.heap.startAddress + offset := add64_of_lt (by omega)
        rw [haddr]
        have hpage : Frame s.mem (mapNewPage s (s.heap.startAddress + offset)).mem fun x =>
            offset < size ∧ (s.heap.startAddress + offset) / 4096 * 4096 ≤ x := by
          intro x hx
          simp only [mapNewPage]
          rw [if_neg fun hin => hx ⟨hlt, hin.1⟩]
        have hnext : add64 offset pageSize = offset + 4096 := add64_of_lt (by unfold pageSize; omega)
        rw [hnext]
        have hrest := ih (offset + 4096) (mapNewPage s (s.heap.startAddress + offset)) hlow htop
        rw [show (mapNewPage s (s.heap.startAddress + offset)).heap = s.heap from rfl] at hrest
        exact hpage.trans (hrest.mono fun x hx => ⟨hlt, by omega⟩)
      · exact Frame.refl _ _

theorem frame_heapExpand (s : HeapState) (size : Nat) (hlow : 4096 ≤ s.heap.startAddress)
    (hle : s.heap.startAddress ≤ s.heap.endAddress) (hend : s.heap.endAddress < 2 ^ 64)
    (htop : s.heap.startAddress + expandSize size < 2 ^ 64) :
    Frame s.mem (heapExpand s size).mem fun x =>
      s.heap.endAddress < s.heap.startAddress + expandSize size ∧ s.heap.endAddress / 4096 * 4096 ≤ x := by
  have hold : sub64 s.heap.endAddress s.heap.startAddress = s.heap.endAddress - s.heap.startAddress :=
    sub64_of_le hend hle
  unfold heapExpand
  simp only [HeapState.setEnd, hold]
  refine (frame_heapExpandLoop _ _ _ s hlow htop).mono fun x hx => ?_
  rw [Nat.add_sub_cancel' hle] at hx
  omega

/-! ## The tags that are written -/

/-- The array of the index ends below the heap. -/
structure IndexBelow (s : HeapState) : Prop where
  slots : s.heap.index.array + 8 * s.heap.index.capacity ≤ s.heap.startAddress
  size : s.heap.index.size ≤ s.heap.index.capacity
  capacity : s.heap.index.capacity = heapIndexSize
  stop : s.heap.startAddress ≤ s.heap.endAddress
  top : s.heap.endAddress < 2 ^ 64

variable {s : HeapState}

theorem IndexBelow.low (h : IndexBelow s) : 4096 ≤ s.heap.startAddress := by
  have hslots := h.slots
  rw [h.capacity, heapIndexSize_eq] at hslots
  omega

/-- The pages behind the end, and what a hole that grows has for tags, are not in the index. -/
theorem IndexBelow.apart (h : IndexBelow s) {n x : Nat} (hn : n ≤ s.heap.index.capacity) (hx : InSlots s.heap.index n x) :
    x < s.heap.startAddress := by
  have hslots := h.slots
  unfold InSlots at hx
  omega

/-- The footer of the hole at `e` after it has grown to `size` bytes. -/
def grownFooter (e size : Nat) : Nat := sub64 (add64 e size) sizeofHeapFooter

/-- The tags of a hole at `e`. -/
def newHole (m : Mem) (e size : Nat) : Mem := writeFooter (writeHeader m e 1 size) (grownFooter e size) e

/-- Growing with a hole in the index: the highest one gets the difference of the lengths. -/
theorem heapGrow_highest (h : IndexBelow s) {size L G : Nat} (hL : s.heap.endAddress = s.heap.startAddress + L)
    (hsize : L + size < 2 ^ 64) (hG : expandSize (L + size) = G) (htop : s.heap.startAddress + G < 2 ^ 64)
    (hpos : ∃ e ∈ contents s.mem s.heap.index, e ≠ 0)
    (hin : ∀ e ∈ contents s.mem s.heap.index, L < G → e + 16 ≤ s.heap.endAddress / 4096 * 4096)
    (hpage : L < G → s.heap.startAddress ≤ s.heap.endAddress / 4096 * 4096) :
    ∃ e ∈ contents s.mem s.heap.index, (∀ e' ∈ contents s.mem s.heap.index, e' ≤ e) ∧
      (heapGrow s size).heap = { s.heap with endAddress := s.heap.startAddress + G } ∧
      ∃ m', Frame s.mem m' (fun x => L < G ∧ s.heap.endAddress / 4096 * 4096 ≤ x) ∧
        (heapGrow s size).mem = writeFooter (setHeaderSize m' e (add64 (headerSize s.mem e) (sub64 G L)))
          (grownFooter e (add64 (headerSize s.mem e) (sub64 G L))) e := by
  have hstop := h.stop
  have hend := h.top
  have hold : sub64 s.heap.endAddress s.heap.startAddress = L := by
    rw [sub64_of_le hend hstop, hL, Nat.add_sub_cancel_left]
  have hasked : add64 L size = L + size := add64_of_lt hsize
  obtain ⟨s₁, hs₁⟩ : ∃ s₁, s₁ = heapExpand s (L + size) := ⟨_, rfl⟩
  have hheap : s₁.heap = { s.heap with endAddress := s.heap.startAddress + G } := by
    rw [hs₁, heapExpand_heap, hG, add64_of_lt htop]
  have hnew : sub64 s₁.heap.endAddress s₁.heap.startAddress = G := by
    rw [hheap]
    simp only
    rw [sub64_of_le htop (by omega), Nat.add_sub_cancel_left]
  have hframe : Frame s.mem s₁.mem fun x => L < G ∧ s.heap.endAddress / 4096 * 4096 ≤ x := by
    rw [hs₁]
    refine (frame_heapExpand s (L + size) h.low hstop hend (hG ▸ htop)).mono fun x hx => ?_
    rw [hG] at hx
    omega
  have hcont : contents s₁.mem s₁.heap.index = contents s.mem s.heap.index := by
    rw [hheap]
    apply contents_congr hframe
    intro x hx hx'
    have := h.apart h.size hx
    have := hpage hx'.1
    omega
  obtain ⟨hsome, hnone⟩ := highestHole_spec s₁
  rw [hcont] at hnone hsome
  cases hhole : highestHole s₁ with
  | none =>
      obtain ⟨e, he, hne⟩ := hpos
      exact absurd (hnone hhole e he) hne
  | some idx =>
      obtain ⟨hidx, hmax⟩ := hsome idx hhole
      have hmem : arrayGet s₁.mem s₁.heap.index idx ∈ contents s.mem s.heap.index := by
        rw [← hcont]
        exact arrayGet_mem_contents s₁.mem s₁.heap.index hidx
      generalize hget : arrayGet s₁.mem s₁.heap.index idx = e at hmem hmax
      have hread : headerSize s₁.mem e = headerSize s.mem e := by
        apply hframe.read
        intro x h1 h2 hx
        have := hin e hmem hx.1
        omega
      refine ⟨e, hmem, hmax, ?_, s₁.mem, hframe, ?_⟩
      · unfold heapGrow
        simp only [hold, hasked, ← hs₁, hnew, hhole]
        exact hheap
      · unfold heapGrow grownFooter
        simp only [hold, hasked, ← hs₁, hnew, hhole, hget, hread]

theorem heapGrow_empty (h : IndexBelow s) {size L G : Nat} (hL : s.heap.endAddress = s.heap.startAddress + L)
    (hsize : L + size < 2 ^ 64) (hG : expandSize (L + size) = G) (htop : s.heap.startAddress + G < 2 ^ 64)
    (hempty : s.heap.index.size = 0) :
    ∃ m, (heapGrow s size).heap = { s.heap with
        endAddress := s.heap.startAddress + G
        index := (Lib.arrayInsert (newHole m s.heap.endAddress (sub64 G L)) s.heap.index s.heap.endAddress).2 } ∧
      (heapGrow s size).mem =
        (Lib.arrayInsert (newHole m s.heap.endAddress (sub64 G L)) s.heap.index s.heap.endAddress).1 := by
  have hstop := h.stop
  have hend := h.top
  have hold : sub64 s.heap.endAddress s.heap.startAddress = L := by
    rw [sub64_of_le hend hstop, hL, Nat.add_sub_cancel_left]
  have hasked : add64 L size = L + size := add64_of_lt hsize
  obtain ⟨s₁, hs₁⟩ : ∃ s₁, s₁ = heapExpand s (L + size) := ⟨_, rfl⟩
  have hheap : s₁.heap = { s.heap with endAddress := s.heap.startAddress + G } := by
    rw [hs₁, heapExpand_heap, hG, add64_of_lt htop]
  have hnew : sub64 s₁.heap.endAddress s₁.heap.startAddress = G := by
    rw [hheap]
    simp only
    rw [sub64_of_le htop (by omega), Nat.add_sub_cancel_left]
  have hnone : highestHole s₁ = none := by
    unfold highestHole
    rw [hheap, hempty]
    rfl
  have hgrow : heapGrow s size = HeapState.arrayInsert { s₁ with
      mem := writeFooter (writeHeader s₁.mem s.heap.endAddress 1 (sub64 G L))
        (grownFooter s.heap.endAddress (sub64 G L)) s.heap.endAddress } s.heap.endAddress := by
    unfold heapGrow grownFooter
    simp only [hold, hasked, ← hs₁, hnew, hnone]
  refine ⟨s₁.mem, ?_⟩
  rw [hgrow]
  simp only [HeapState.arrayInsert, hheap]
  exact ⟨rfl, rfl⟩

theorem grown_tags (h : IndexBelow s) {s' : HeapState} {m' : Mem} {e size : Nat} {W : Nat → Prop}
    (hframe : Frame s.mem m' W) (hW : ∀ x, W x → s.heap.startAddress ≤ x) (hindex : s'.heap.index = s.heap.index)
    (hmem : s'.mem = writeFooter (setHeaderSize m' e size) (grownFooter e size) e) (hsize : size < 2 ^ 64)
    (he : s.heap.startAddress ≤ e) (hfoot : s.heap.startAddress ≤ grownFooter e size)
    (hapart : grownFooter e size + 16 ≤ e ∨ e + 16 ≤ grownFooter e size) :
    contents s'.mem s'.heap.index = contents s.mem s.heap.index ∧ headerSize s'.mem e = size ∧
      Frame s.mem s'.mem (fun x => W x ∨ (e + 8 ≤ x ∧ x < e + 16) ∨
        (grownFooter e size ≤ x ∧ x < grownFooter e size + 16)) := by
  have hf₁ := frame_setHeaderSize m' e size
  have hf₂ := frame_writeFooter (setHeaderSize m' e size) (grownFooter e size) e
  rw [← hmem] at hf₂
  have hf : Frame s.mem s'.mem (fun x => W x ∨ (e + 8 ≤ x ∧ x < e + 16) ∨
      (grownFooter e size ≤ x ∧ x < grownFooter e size + 16)) :=
    (hframe.mono fun x hx => Or.inl hx).trans
      ((hf₁.mono fun x hx => Or.inr (Or.inl hx)).trans (hf₂.mono fun x hx => Or.inr (Or.inr hx)))
  refine ⟨?_, ?_, hf⟩
  · rw [hindex]
    apply contents_congr hf
    intro x hx hx'
    have hlt := h.apart h.size hx
    rcases hx' with hx' | hx' | hx'
    · have := hW x hx'
      omega
    · omega
    · omega
  · rw [← headerSize_setHeaderSize m' e hsize]
    apply hf₂.read
    intro x h1 h2 hx
    omega

theorem IndexBelow.grown_empty (h : IndexBelow s) {size L G d : Nat} (hL : s.heap.endAddress = s.heap.startAddress + L)
    (hsize : L + size < 2 ^ 64) (hG : expandSize (L + size) = G) (htop : s.heap.startAddress + G < 2 ^ 64)
    (hempty : s.heap.index.size = 0) (hd : sub64 G L = d)
    (hapart : grownFooter s.heap.endAddress d + 16 ≤ s.heap.endAddress ∨
      s.heap.endAddress + 16 ≤ grownFooter s.heap.endAddress d) :
    contents (heapGrow s size).mem (heapGrow s size).heap.index = [s.heap.endAddress] ∧
      headerSize (heapGrow s size).mem s.heap.endAddress = d := by
  have hend := h.top
  have hcap := h.capacity
  rw [heapIndexSize_eq] at hcap
  obtain ⟨m', hheap, hmem⟩ := heapGrow_empty h hL hsize hG htop hempty
  rw [hd] at hheap hmem
  obtain ⟨m, hm⟩ : ∃ m, m = newHole m' s.heap.endAddress d := ⟨_, rfl⟩
  rw [← hm] at hheap hmem
  have hperm := perm_arrayInsert m s.heap.index hend (by omega)
  have hframe := frame_arrayInsert m s.heap.index s.heap.endAddress
  have hnil : contents m s.heap.index = [] := by
    rw [← List.length_eq_zero_iff, length_contents]
    exact hempty
  have hhead : HeaderAt m s.heap.endAddress 1 d := by
    rw [hm]
    refine (headerAt_writeHeader m' (by decide) ?_).frame (frame_writeFooter _ _ _) fun x h1 h2 hx => by omega
    rw [← hd]
    unfold sub64
    omega
  refine ⟨?_, ?_⟩
  · rw [hnil] at hperm
    rw [hheap, hmem]
    exact List.perm_singleton.mp hperm
  · rw [hmem]
    refine (hhead.frame hframe fun x h1 h2 hx => ?_).size
    have := h.apart (by omega) hx
    have := h.stop
    omega

/-! ## Enough in one step -/

/-- Every hole of the index is in the heap, its header on a page that `HeapExpand` does not map again. -/
def HolesInside (s : HeapState) : Prop :=
  ∀ e ∈ contents s.mem s.heap.index, s.heap.startAddress ≤ e ∧ e + 16 ≤ s.heap.endAddress / 4096 * 4096 ∧
    e + headerSize s.mem e ≤ s.heap.endAddress

section Grow
variable {size L G : Nat}

/-- Growing by at least a header and a footer: the highest hole gets longer, and nothing before its size is written. -/
theorem HolesInside.grow_highest (hin : HolesInside s) (h : IndexBelow s)
    (hL : s.heap.endAddress = s.heap.startAddress + L) (hsize : L + size < 2 ^ 64) (hG : expandSize (L + size) = G)
    (hlong : L + 32 ≤ G) (htop : s.heap.startAddress + G < 2 ^ 64) (hne : s.heap.index.size ≠ 0) :
    ∃ e ∈ contents s.mem s.heap.index, (∀ e' ∈ contents s.mem s.heap.index, e' ≤ e) ∧
      (heapGrow s size).heap = { s.heap with endAddress := s.heap.startAddress + G } ∧
      contents (heapGrow s size).mem (heapGrow s size).heap.index = contents s.mem s.heap.index ∧
      headerSize (heapGrow s size).mem e = headerSize s.mem e + (G - L) ∧
      Frame s.mem (heapGrow s size).mem fun x => e + 8 ≤ x := by
  have hlow := h.low
  obtain ⟨e₀, he₀⟩ : ∃ e, e ∈ contents s.mem s.heap.index :=
    ⟨_, arrayGet_mem_contents s.mem s.heap.index (i := 0) (by omega)⟩
  have hin₀ := hin e₀ he₀
  obtain ⟨e, he, hmax, hheap, m', hframe, hmem⟩ := heapGrow_highest h hL hsize hG htop
    ⟨e₀, he₀, by omega⟩ (fun e he _ => (hin e he).2.1) (fun _ => by omega)
  obtain ⟨h1, h2, h3⟩ := hin e he
  have hd : sub64 G L = G - L := sub64_of_le (by omega) (by omega)
  have hgrown : add64 (headerSize s.mem e) (G - L) = headerSize s.mem e + (G - L) := add64_of_lt (by omega)
  rw [hd, hgrown] at hmem
  have hfoot : grownFooter e (headerSize s.mem e + (G - L)) = e + (headerSize s.mem e + (G - L)) - 16 := by
    unfold grownFooter
    rw [add64_of_lt (by omega)]
    exact sub64_of_le (by omega) (by unfold sizeofHeapFooter; omega)
  obtain ⟨hcont, hhead, hf⟩ := grown_tags h hframe (fun x hx => by omega) (by rw [hheap]) hmem (by omega) h1
    (by rw [hfoot]; omega) (by rw [hfoot]; omega)
  refine ⟨e, he, hmax, hheap, hcont, hhead, hf.mono fun x hx => ?_⟩
  rw [hfoot] at hx
  omega

theorem IndexBelow.grow_empty (h : IndexBelow s) (hL : s.heap.endAddress = s.heap.startAddress + L)
    (hsize : L + size < 2 ^ 64) (hG : expandSize (L + size) = G) (hlong : L + 32 ≤ G)
    (htop : s.heap.startAddress + G < 2 ^ 64) (hempty : s.heap.index.size = 0) :
    contents (heapGrow s size).mem (heapGrow s size).heap.index = [s.heap.endAddress] ∧
      headerSize (heapGrow s size).mem s.heap.endAddress = G - L := by
  have hfoot : grownFooter s.heap.endAddress (G - L) = s.heap.endAddress + (G - L) - 16 := by
    unfold grownFooter
    rw [add64_of_lt (by omega)]
    exact sub64_of_le (by omega) (by unfold sizeofHeapFooter; omega)
  exact h.grown_empty hL hsize hG htop hempty (sub64_of_le (by omega) (by omega)) (by rw [hfoot]; omega)

/-- Where `HeapExpand` makes a length that is enough, the recursive call finds a hole. -/
theorem HolesInside.find_grow (hin : HolesInside s) (h : IndexBelow s)
    (hL : s.heap.endAddress = s.heap.startAddress + L) (hsize : L + size < 2 ^ 64) (hG : expandSize (L + size) = G)
    (hlow : 32 ≤ size) (hlong : L + size ≤ G) (htop : s.heap.startAddress + G < 2 ^ 64) :
    (heapFindSmallestHole (heapGrow s size) size 0).isSome = true := by
  by_cases hempty : s.heap.index.size = 0
  · obtain ⟨hcont, hhead⟩ := h.grow_empty hL hsize hG (by omega) htop hempty
    apply find_of_mem (e := s.heap.endAddress)
    · rw [hcont]
      exact List.mem_singleton_self _
    · omega
  · obtain ⟨e, he, -, -, hcont, hhead, -⟩ := hin.grow_highest h hL hsize hG (by omega) htop hempty
    apply find_of_mem (e := e)
    · rw [hcont]
      exact he
    · omega

end Grow

section Order
variable {live : List (Nat × Nat)} {cs : List Chunk}

theorem HeapOk.indexBelow (h : HeapOk s live cs) : IndexBelow s := by
  have hleast := h.least
  refine ⟨?_, h.room, h.capacity, by omega, h.rep.top⟩
  rw [h.array, h.capacity, h.start, heapAddr_eq, heapIndexSize_eq, heapStart_eq]
  omega

theorem HeapOk.holesInside (h : HeapOk s live cs) : HolesInside s := by
  intro e he
  obtain ⟨pre, c, post, rfl, -, hpos⟩ := h.rep.hole he
  obtain ⟨hchunk, hend⟩ := h.rep.chunk
  have hsz := hchunk.size
  have hstop := h.stop
  rw [← hpos] at hchunk hend
  rw [hchunk.header.size]
  omega

end Order

end Gewodsys.Mem
