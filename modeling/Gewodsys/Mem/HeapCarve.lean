import Gewodsys.Mem.HeapChunks

/-!
# `HeapAllocate` with a hole

* `tags` : the header and the footer of a chunk, written together;
* `carveBlock_spec` : the block at the start of a hole, with what is left of it behind;
* `heapCarve_spec` : `HeapAllocate` turns the hole it found into a block and at most one hole, and writes nothing else;
* `SizeSorted` : the index by ascending size; `heapCarve_sorted`;
* `allocate_keeps_heap` : `HeapAllocate` on a sorted heap.
-/

namespace Gewodsys.Mem
open Gewodsys.Machine Gewodsys.Lib

/-! ## Writing a chunk -/

/-- The header at `a` and the footer at the end of the `size` bytes from `a` on. -/
def tags (m : Mem) (a isHole size : Nat) : Mem := writeFooter (writeHeader m a isHole size) (a + size - 16) a

theorem frame_tags (m : Mem) (a isHole size : Nat) (hs : 32 ≤ size) :
    Frame m (tags m a isHole size) fun x => a ≤ x ∧ x < a + size := by
  have h1 : Frame m (writeHeader m a isHole size) fun x => a ≤ x ∧ x < a + size :=
    (frame_writeHeader m a isHole size).mono fun x hx => by omega
  exact h1.trans ((frame_writeFooter _ (a + size - 16) a).mono fun x hx => by omega)

theorem chunkAt_tags (m : Mem) {a : Nat} {c : Chunk} (hs : 32 ≤ c.size) (htop : a + c.size < 2 ^ 64)
    (hroom : ∀ n, c.use = some n → n + 32 ≤ c.size) : ChunkAt (tags m a c.isHole c.size) a c := by
  have hhole : c.isHole < 256 := by
    unfold Chunk.isHole
    split_ifs <;> decide
  refine ⟨?_, fun _ => footerAt_writeFooter _ (by omega), hs, hroom⟩
  refine (headerAt_writeHeader m hhole (by omega)).frame (frame_writeFooter _ (a + c.size - 16) a) ?_
  intro x h1 h2
  omega

/-- The chunks a block of `size` bytes and the rest of a hole of `holeSize` make. -/
def carved (holeSize size n : Nat) : List Chunk :=
  if holeSize = size + 32 then [⟨size + 32, some n, true⟩]
  else [⟨size + 32, some n, true⟩, ⟨holeSize - (size + 32), none, true⟩]

theorem total_carved {holeSize size n : Nat} (h : size + 32 ≤ holeSize) :
    total Chunk.size (carved holeSize size n) = holeSize := by
  unfold carved
  split_ifs with he
  · simp [he]
  · simp only [total_cons, total_nil]
    omega

theorem holes_carved (pos holeSize size n : Nat) :
    holes pos (carved holeSize size n) = if holeSize = size + 32 then [] else [pos + size + 32] := by
  unfold carved
  split_ifs with he
  · simp [holes_cons]
  · simp [holes_cons, Nat.add_assoc]

theorem carveBlock_eq (s : HeapState) {pos holeSize size : Nat} (hfit : size + 32 ≤ holeSize)
    (hend : pos + holeSize ≤ s.heap.endAddress) (htop : s.heap.endAddress < 2 ^ 64) :
    carveBlock s pos holeSize size (size + 32) =
      if holeSize = size + 32 then { s with mem := tags s.mem pos 0 (size + 32) }
      else HeapState.arrayInsert
        { s with mem := tags (tags s.mem pos 0 (size + 32)) (pos + size + 32) 1 (holeSize - (size + 32)) }
        (pos + size + 32) := by
  have hrest : sub64 holeSize (size + 32) = holeSize - (size + 32) := sub64_of_le (by omega) hfit
  have hfoot : add64 (add64 pos sizeofHeapHeader) size = pos + (size + 32) - 16 := by
    unfold sizeofHeapHeader
    rw [add64_of_lt (a := pos) (by omega), add64_of_lt (by omega)]
    omega
  have hhole : add64 (pos + (size + 32) - 16) sizeofHeapFooter = pos + size + 32 := by
    unfold sizeofHeapFooter
    rw [add64_of_lt (by omega)]
    omega
  have hfoot' : sub64 (sub64 (add64 (pos + size + 32) holeSize) (size + 32)) sizeofHeapFooter =
      pos + size + 32 + (holeSize - (size + 32)) - 16 := by
    unfold sub64 add64 sizeofHeapFooter
    omega
  unfold carveBlock tags
  simp only [hrest, hfoot, hhole, hfoot']
  by_cases he : holeSize = size + 32
  · rw [if_pos he, if_neg (by omega)]
  · rw [if_neg he, if_pos (by omega), if_pos (by omega)]

/-- Where the hole that is carved does not meet the index, writes inside it leave the index alone. -/
theorem contents_of_apart {s : HeapState} {pos holeSize : Nat}
    (hapart : ∀ x, InSlots s.heap.index (s.heap.index.size + 1) x → x < pos ∨ pos + holeSize ≤ x) {m' : Mem}
    (hf : Frame s.mem m' fun x => pos ≤ x ∧ x < pos + holeSize) :
    contents m' s.heap.index = contents s.mem s.heap.index := by
  apply contents_congr hf
  intro x hx hx'
  have := hapart x (by unfold InSlots at hx ⊢; omega)
  omega

/-- The tags of the block and of what is left of the hole. -/
def splitTags (m : Mem) (pos holeSize size : Nat) : Mem :=
  tags (tags m pos 0 (size + 32)) (pos + size + 32) 1 (holeSize - (size + 32))

theorem frame_splitTags (m : Mem) (pos : Nat) {holeSize size : Nat} (hfit : size + 64 ≤ holeSize) :
    Frame m (splitTags m pos holeSize size) fun x => pos ≤ x ∧ x < pos + holeSize :=
  ((frame_tags m pos 0 (size + 32) (by omega)).mono fun x hx => by omega).trans
    ((frame_tags _ _ _ _ (by omega)).mono fun x hx => by omega)

/-- `carveBlock` where the rest of the hole becomes a hole: its entry is the last thing written. -/
theorem carveBlock_split (s : HeapState) {pos holeSize size : Nat} (hfit : size + 32 ≤ holeSize)
    (hne : ¬ holeSize = size + 32) (hend : pos + holeSize ≤ s.heap.endAddress) (htop : s.heap.endAddress < 2 ^ 64) :
    (carveBlock s pos holeSize size (size + 32)).mem =
        (Lib.arrayInsert (splitTags s.mem pos holeSize size) s.heap.index (pos + size + 32)).1 ∧
      (carveBlock s pos holeSize size (size + 32)).heap.index =
        (Lib.arrayInsert (splitTags s.mem pos holeSize size) s.heap.index (pos + size + 32)).2 := by
  rw [carveBlock_eq s hfit hend htop, if_neg hne]
  exact ⟨rfl, rfl⟩

/-- The block at `pos` in a hole of `holeSize` bytes: the chunks, the index and the bytes written. -/
theorem carveBlock_spec (s : HeapState) (pos holeSize : Nat) {size n : Nat} (hn : n ≤ size)
    (hfit : size + 32 = holeSize ∨ size + 64 ≤ holeSize) (hend : pos + holeSize ≤ s.heap.endAddress)
    (htop : s.heap.endAddress < 2 ^ 64) (hsize : s.heap.index.size + 1 < 2 ^ 32)
    (hapart : ∀ x, InSlots s.heap.index (s.heap.index.size + 1) x → x < pos ∨ pos + holeSize ≤ x) :
    let s' := carveBlock s pos holeSize size (size + 32)
    Chunks s'.mem pos (carved holeSize size n) ∧
      Frame s.mem s'.mem (fun x => (pos ≤ x ∧ x < pos + holeSize) ∨ InSlots s.heap.index (s.heap.index.size + 1) x) ∧
      (contents s'.mem s'.heap.index).Perm (holes pos (carved holeSize size n) ++ contents s.mem s.heap.index) := by
  intro s'
  have heq : s' = _ := carveBlock_eq s (by omega) hend htop
  have hblk : ChunkAt (tags s.mem pos 0 (size + 32)) pos ⟨size + 32, some n, true⟩ := by
    refine chunkAt_tags s.mem (c := ⟨size + 32, some n, true⟩) ?_ ?_ ?_
    · change 32 ≤ size + 32
      omega
    · change pos + (size + 32) < 2 ^ 64
      omega
    · intro k hk
      rw [← Option.some.inj hk]
      change n + 32 ≤ size + 32
      omega
  have hf1 := frame_tags s.mem pos 0 (size + 32) (by omega)
  rw [holes_carved]
  by_cases he : holeSize = size + 32
  · rw [if_pos he] at heq ⊢
    have hframe : Frame s.mem s'.mem fun x => pos ≤ x ∧ x < pos + holeSize := by
      rw [heq]
      exact hf1.mono fun x hx => by omega
    refine ⟨?_, hframe.mono fun x hx => Or.inl hx, ?_⟩
    · rw [heq, carved, if_pos he]
      exact chunks_cons.mpr ⟨hblk, chunks_nil _ _⟩
    · have hidx : s'.heap.index = s.heap.index := by rw [heq]
      rw [hidx, contents_of_apart hapart hframe, List.nil_append]
  · rw [if_neg he]
    obtain ⟨hmem, hidx⟩ := carveBlock_split s (by omega) he hend htop
    change s'.mem = _ at hmem
    change s'.heap.index = _ at hidx
    have hf12 := frame_splitTags s.mem pos (show size + 64 ≤ holeSize by omega)
    set m2 := splitTags s.mem pos holeSize size with hm2
    have hf2 : Frame (tags s.mem pos 0 (size + 32)) m2 fun x => pos + size + 32 ≤ x ∧ x < pos + holeSize :=
      (frame_tags _ _ _ _ (by omega)).mono fun x hx => by omega
    have hf3 : Frame m2 s'.mem (InSlots s.heap.index (s.heap.index.size + 1)) := by
      rw [hmem]
      exact frame_arrayInsert m2 s.heap.index _
    refine ⟨?_, ?_, ?_⟩
    · rw [carved, if_neg he]
      have hhole : ChunkAt m2 (pos + size + 32) ⟨holeSize - (size + 32), none, true⟩ := by
        refine chunkAt_tags _ (c := ⟨holeSize - (size + 32), none, true⟩) ?_ ?_ ?_
        · change 32 ≤ holeSize - (size + 32)
          omega
        · change pos + size + 32 + (holeSize - (size + 32)) < 2 ^ 64
          omega
        · intro k hk
          cases hk
      have hall : Chunks m2 pos [⟨size + 32, some n, true⟩, ⟨holeSize - (size + 32), none, true⟩] := by
        rw [chunks_cons, chunks_cons]
        refine ⟨hblk.frame hf2 ?_, ?_, chunks_nil _ _⟩
        · intro x hx hx'
          simp only at hx
          omega
        · simpa only [Nat.add_assoc] using hhole
      refine hall.frame hf3 ?_
      intro x h1 h2 hx
      have := hapart x hx
      simp only [total_cons, total_nil] at h2
      omega
    · exact (hf12.mono fun x hx => Or.inl hx).trans (hf3.mono fun x hx => Or.inr hx)
    · rw [hmem, hidx, ← contents_of_apart hapart hf12]
      exact perm_arrayInsert m2 s.heap.index (by omega) hsize

/-! ## The hole that was found -/

/-- The parts of the heap that no call changes after `HeapCreate`. -/
structure SameBase (s s' : HeapState) : Prop where
  startAddress : s'.heap.startAddress = s.heap.startAddress
  maxAddress : s'.heap.maxAddress = s.heap.maxAddress
  array : s'.heap.index.array = s.heap.index.array
  capacity : s'.heap.index.capacity = s.heap.index.capacity
  predicate : s'.heap.index.predicate = s.heap.index.predicate

theorem SameBase.trans {s s' s'' : HeapState} (h : SameBase s s') (h' : SameBase s' s'') : SameBase s s'' :=
  ⟨h'.startAddress.trans h.startAddress, h'.maxAddress.trans h.maxAddress, h'.array.trans h.array,
    h'.capacity.trans h.capacity, h'.predicate.trans h.predicate⟩

/-- A call without `HeapExpand` and `HeapContract` leaves the end of the heap and the frames alone too. -/
structure SameExtent (s s' : HeapState) : Prop extends SameBase s s' where
  endAddress : s'.heap.endAddress = s.heap.endAddress
  frames : s'.frames = s.frames
  mapped : s'.mapped = s.mapped

theorem SameExtent.trans {s s' s'' : HeapState} (h : SameExtent s s') (h' : SameExtent s' s'') : SameExtent s s'' :=
  ⟨h.toSameBase.trans h'.toSameBase, h'.endAddress.trans h.endAddress, h'.frames.trans h.frames,
    h'.mapped.trans h.mapped⟩

theorem sameExtent_setMem (s : HeapState) (m : Mem) : SameExtent s { s with mem := m } :=
  ⟨⟨rfl, rfl, rfl, rfl, rfl⟩, rfl, rfl, rfl⟩

theorem sameExtent_arrayInsert (s : HeapState) (i : Nat) : SameExtent s (s.arrayInsert i) :=
  ⟨⟨rfl, rfl, rfl, rfl, rfl⟩, rfl, rfl, rfl⟩

theorem sameExtent_arrayRemove (s : HeapState) (i : Nat) : SameExtent s (s.arrayRemove i) :=
  ⟨⟨rfl, rfl, rfl, rfl, rfl⟩, rfl, rfl, rfl⟩

theorem sameExtent_carveBlock (s : HeapState) (pos holeSize size newSize : Nat) :
    SameExtent s (carveBlock s pos holeSize size newSize) := by
  unfold carveBlock
  simp only
  split_ifs
  · exact (sameExtent_setMem s _).trans (sameExtent_arrayInsert _ _)
  · exact (sameExtent_setMem s _).trans (sameExtent_arrayInsert _ _)
  · exact sameExtent_setMem s _

theorem headerSize_carveBlock (s : HeapState) {pos holeSize size : Nat} (hfit : size + 32 ≤ holeSize)
    (hlt : holeSize < 2 ^ 64) (htop : pos + size + 64 < 2 ^ 64)
    (hbelow : ∀ x, InSlots s.heap.index (s.heap.index.size + 1) x → x < pos) :
    headerSize (carveBlock s pos holeSize size (size + 32)).mem pos = size + 32 := by
  have hfoot : add64 (add64 pos sizeofHeapHeader) size = pos + 16 + size := by
    unfold sizeofHeapHeader
    rw [add64_of_lt (a := pos) (by omega), add64_of_lt (by omega)]
  have hhole : add64 (pos + 16 + size) sizeofHeapFooter = pos + size + 32 := by
    unfold sizeofHeapFooter
    rw [add64_of_lt (by omega)]
    omega
  have hrest : sub64 (sub64 (add64 (pos + size + 32) holeSize) (size + 32)) sizeofHeapFooter + 16 ≤ pos ∨
      pos + 16 ≤ sub64 (sub64 (add64 (pos + size + 32) holeSize) (size + 32)) sizeofHeapFooter := by
    unfold sub64 add64 sizeofHeapFooter
    omega
  have hhead : HeaderAt (writeHeader s.mem pos 0 (size + 32)) pos 0 (size + 32) :=
    headerAt_writeHeader s.mem (by decide) (by omega)
  have hblock : HeaderAt (writeFooter (writeHeader s.mem pos 0 (size + 32)) (pos + 16 + size) pos) pos 0 (size + 32) :=
    hhead.frame (frame_writeFooter _ _ _) fun x h1 h2 hx => by omega
  have hhole' : ∀ k, HeaderAt (writeHeader (writeFooter (writeHeader s.mem pos 0 (size + 32)) (pos + 16 + size) pos)
      (pos + size + 32) 1 k) pos 0 (size + 32) :=
    fun k => hblock.frame (frame_writeHeader _ _ _ _) fun x h1 h2 hx => by omega
  have hinsert : ∀ {m : Mem}, HeaderAt m pos 0 (size + 32) →
      HeaderAt (Lib.arrayInsert m s.heap.index (pos + size + 32)).1 pos 0 (size + 32) :=
    fun hm => hm.frame (frame_arrayInsert _ _ _) fun x h1 h2 hx => by have := hbelow x hx; omega
  unfold carveBlock
  simp only [hfoot, hhole]
  split_ifs
  · refine (hinsert (m := writeFooter _ _ _) ?_).size
    exact (hhole' _).frame (frame_writeFooter _ _ _) fun x h1 h2 hx => by omega
  · exact (hinsert (hhole' _)).size
  · exact hblock.size

/-- The payload of a block of `size` bytes in a hole: a rest too small for tags is absorbed. -/
def blockSize (holeSize size : Nat) : Nat := if holeSize - (size + 32) < 32 then holeSize - 32 else size

theorem blockSize_fits {holeSize size : Nat} (h : size + 32 ≤ holeSize) :
    size ≤ blockSize holeSize size ∧
      (blockSize holeSize size + 32 = holeSize ∨ blockSize holeSize size + 64 ≤ holeSize) := by
  unfold blockSize
  split_ifs <;> omega

theorem blockSize_lt {holeSize size : Nat} (h : size + 32 ≤ holeSize) : blockSize holeSize size < size + 32 := by
  unfold blockSize
  split_ifs <;> omega

theorem absorb_eq {holeSize size : Nat} (hfit : size + 32 ≤ holeSize) (htop : holeSize < 2 ^ 64) :
    let rest := sub64 holeSize (size + 32)
    (if rest < sizeofHeapHeader + sizeofHeapFooter then add64 size rest else size) = blockSize holeSize size ∧
      (if rest < sizeofHeapHeader + sizeofHeapFooter then holeSize else size + 32) = blockSize holeSize size + 32 := by
  have hrest : sub64 holeSize (size + 32) = holeSize - (size + 32) := sub64_of_le (by omega) hfit
  simp only [hrest]
  unfold blockSize sizeofHeapHeader sizeofHeapFooter
  by_cases hlt : holeSize - (size + 32) < 32
  · rw [if_pos (show holeSize - (size + 32) < 16 + 16 by omega), if_pos (by omega), if_pos hlt, add64_of_lt (by omega)]
    omega
  · rw [if_neg (show ¬ holeSize - (size + 32) < 16 + 16 by omega), if_neg (by omega), if_neg hlt]
    exact ⟨rfl, rfl⟩

theorem heapCarve_eq (s : HeapState) {iterator size pos holeSize : Nat}
    (hpos : arrayGet s.mem s.heap.index iterator = pos) (hsize : headerSize s.mem pos = holeSize)
    (hfit : size + 32 ≤ holeSize) (htop : pos + holeSize < 2 ^ 64) :
    heapCarve s iterator size (size + 32) 0 =
      (pos + 16, carveBlock (s.arrayRemove iterator) pos holeSize (blockSize holeSize size)
        (blockSize holeSize size + 32)) := by
  have hret : add64 pos sizeofHeapHeader = pos + 16 := add64_of_lt (by unfold sizeofHeapHeader; omega)
  obtain ⟨h1, h2⟩ := absorb_eq hfit (by omega)
  unfold heapCarve
  simp only [hpos, hsize, h1, h2, hret, ne_eq, not_true_eq_false, false_and, if_false]

/-- The block of `heapCarve` in any state: its header says the size, wherever the hole's header points. -/
theorem headerSize_heapCarve (s : HeapState) {iterator size pos holeSize : Nat} (hit : iterator < s.heap.index.size)
    (hpos : arrayGet s.mem s.heap.index iterator = pos) (hsize : headerSize s.mem pos = holeSize)
    (hfit : size + 32 ≤ holeSize) (htop : pos + size + 128 < 2 ^ 64)
    (hbelow : ∀ x, InSlots s.heap.index s.heap.index.size x → x < pos) :
    (heapCarve s iterator size (size + 32) 0).1 = pos + 16 ∧
      headerSize (heapCarve s iterator size (size + 32) 0).2.mem pos = blockSize holeSize size + 32 := by
  have hlt : holeSize < 2 ^ 64 := hsize ▸ s.mem.read64_lt _
  have hret : add64 pos sizeofHeapHeader = pos + 16 := add64_of_lt (by unfold sizeofHeapHeader; omega)
  obtain ⟨h1, h2⟩ := absorb_eq hfit hlt
  obtain ⟨hbs, hbfit⟩ := blockSize_fits hfit
  have hless := blockSize_lt hfit
  unfold heapCarve
  simp only [hpos, hsize, h1, h2, hret, ne_eq, not_true_eq_false, false_and, if_false]
  refine ⟨trivial, headerSize_carveBlock _ (by omega) hlt (by omega) fun x hx => hbelow x ?_⟩
  have hrem := arrayRemove_size s.mem s.heap.index hit
  change InSlots (Lib.arrayRemove s.mem s.heap.index iterator).2
    ((Lib.arrayRemove s.mem s.heap.index iterator).2.size + 1) x at hx
  unfold InSlots at hx ⊢
  rw [arrayRemove_array] at hx
  omega

/-- **Carving a hole.** The hole at `iterator` becomes a block and at most one hole. -/
theorem heapCarve_spec {s : HeapState} {pre post : List Chunk} {hole : Chunk} (h : HeapRep s (pre ++ hole :: post))
    (hhole : hole.use = none) {iterator size : Nat} (hit : iterator < s.heap.index.size)
    (hpos : arrayGet s.mem s.heap.index iterator = s.heap.startAddress + total Chunk.size pre)
    (hfit : size + 32 ≤ hole.size) (hidx : s.heap.index.size < 2 ^ 32) :
    let pos := s.heap.startAddress + total Chunk.size pre
    let r := heapCarve s iterator size (size + 32) 0
    r.1 = pos + 16 ∧ SameExtent s r.2 ∧ r.2.heap.index.size ≤ s.heap.index.size ∧
      HeapRep r.2 (pre ++ carved hole.size (blockSize hole.size size) size ++ post) ∧
      Frame s.mem r.2.mem fun x => (pos ≤ x ∧ x < pos + hole.size) ∨ InSlots s.heap.index s.heap.index.size x := by
  intro pos r
  obtain ⟨hchunk, hend⟩ := h.chunk
  have htop := h.top
  obtain ⟨hbs, hbfit⟩ := blockSize_fits hfit
  have hr : r = _ := heapCarve_eq s hpos hchunk.header.size hfit (by omega)
  set s₁ := s.arrayRemove iterator with hs₁
  have hsize₁ : s₁.heap.index.size + 1 = s.heap.index.size := by
    have := arrayRemove_size s.mem s.heap.index hit
    rw [show s₁.heap.index.size = (Lib.arrayRemove s.mem s.heap.index iterator).2.size from rfl]
    omega
  have hf₁ : Frame s.mem s₁.mem (InSlots s.heap.index s.heap.index.size) := frame_arrayRemove _ _ (by omega)
  have hslots : ∀ x, InSlots s₁.heap.index (s₁.heap.index.size + 1) x ↔
      InSlots s.heap.index s.heap.index.size x := by
    intro x
    rw [hsize₁]
    rfl
  obtain ⟨hcs, hframe, hperm⟩ := carveBlock_spec s₁ pos hole.size hbs hbfit (by
    change pos + hole.size ≤ s.heap.endAddress
    omega) htop (by omega) (by
      intro x hx
      have := h.apart x ((hslots x).mp hx)
      omega)
  have hsame : SameExtent s r.2 := by
    rw [hr]
    exact (sameExtent_arrayRemove s iterator).trans (sameExtent_carveBlock _ _ _ _ _)
  have hmem : r.2.mem = (carveBlock s₁ pos hole.size (blockSize hole.size size)
      (blockSize hole.size size + 32)).mem := by rw [hr]
  have hindex : r.2.heap.index = (carveBlock s₁ pos hole.size (blockSize hole.size size)
      (blockSize hole.size size + 32)).heap.index := by rw [hr]
  have hframe' : Frame s.mem r.2.mem
      fun x => (pos ≤ x ∧ x < pos + hole.size) ∨ InSlots s.heap.index s.heap.index.size x := by
    rw [hmem]
    exact (hf₁.mono fun x hx => Or.inr hx).trans (hframe.mono fun x hx => hx.imp_right (hslots x).mp)
  -- the index: the hole is taken out, the rest put in
  have hperm₁ : (contents s₁.mem s₁.heap.index).Perm
      (holes s.heap.startAddress pre ++ holes (pos + hole.size) post) := by
    have hrem := perm_arrayRemove s.mem s.heap.index hit
    rw [hpos] at hrem
    have hidx := h.index
    rw [holes_append, holes_cons, if_pos hhole] at hidx
    have := (hrem.symm.trans hidx).trans List.perm_middle
    exact this.cons_inv
  have hperm' : (contents r.2.mem r.2.heap.index).Perm
      (holes s.heap.startAddress (pre ++ carved hole.size (blockSize hole.size size) size ++ post)) := by
    rw [hmem, hindex, List.append_assoc, holes_append, holes_append, total_carved (by omega)]
    refine hperm.trans ((hperm₁.append_left _).trans ?_)
    exact (List.perm_append_comm_assoc _ _ _)
  have hlen : r.2.heap.index.size ≤ s.heap.index.size := by
    have h1 := hperm.length_eq
    rw [← hmem, ← hindex, length_contents, List.length_append, length_contents, holes_carved] at h1
    split_ifs at h1
    · simp only [List.length_nil] at h1
      omega
    · simp only [List.length_cons, List.length_nil] at h1
      omega
  refine ⟨by rw [hr], hsame, hlen, ⟨?_, ?_, ?_, ?_, ?_⟩, hframe'⟩
  · rw [hsame.startAddress]
    have htiles : Chunks s.mem s.heap.startAddress (pre ++ [hole] ++ post) := by simpa using h.tiles
    refine htiles.replace _ hframe' ?_ ?_ ?_
    · intro x hx
      rcases hx with hx | hx
      · refine Or.inl ?_
        simpa using hx
      · have := h.apart x hx
        rw [← h.fits] at this
        refine Or.inr ?_
        simpa using this
    · rw [hmem]
      exact hcs
    · rw [total_carved (by omega)]
      simp
  · rw [hsame.startAddress, hsame.endAddress, ← h.fits]
    simp only [total_append, total_cons, total_carved (show blockSize hole.size size + 32 ≤ hole.size by omega)]
    omega
  · rw [hsame.startAddress]
    exact hperm'
  · intro x hx
    rw [hsame.startAddress, hsame.endAddress]
    apply h.apart x
    unfold InSlots at hx ⊢
    rw [hsame.array] at hx
    omega
  · rw [hsame.endAddress]
    exact htop

/-! ## Order -/

/-- The headers `l` by ascending size. -/
def SizeSorted (m : Mem) (l : List Nat) : Prop := l.Pairwise fun a b => headerSize m a ≤ headerSize m b

theorem SizeSorted.congr {m m' : Mem} {l : List Nat} (h : SizeSorted m l)
    (hl : ∀ e ∈ l, headerSize m' e = headerSize m e) : SizeSorted m' l := by
  refine List.Pairwise.imp_of_mem ?_ h
  intro a b ha hb hab
  rwa [hl a ha, hl b hb]

theorem sizeSorted_iff {m : Mem} {l : List Nat} : SizeSorted m l ↔ SortedBy (headerPredicate m) l := by
  refine List.Pairwise.iff ?_
  intro x y
  simp [headerPredicate]

instance (m : Mem) : IsStrictWeakOrder Nat fun x y => headerPredicate m x y = true where
  irrefl x := by simp [headerPredicate]
  trans x y z := by
    simp only [headerPredicate, decide_eq_true_eq]
    exact lt_trans
  incomp_trans x y z := by
    simp only [headerPredicate, decide_eq_true_eq]
    omega

/-- **`ArrayInsert` keeps the order.** -/
theorem sizeSorted_arrayInsert {m : Mem} {a : OrderedArray} (hp : a.predicate = headerPredicate) {item : Nat}
    (h : SizeSorted m (contents m a)) (hi : item < 2 ^ 64) (hs : a.size + 1 < 2 ^ 32) :
    SizeSorted m (contents (arrayInsert m a item).1 (arrayInsert m a item).2) := by
  have hless : a.predicate m = headerPredicate m := congrFun hp m
  have : IsStrictWeakOrder Nat fun x y => a.predicate m x y = true := by
    rw [hless]
    infer_instance
  rw [sizeSorted_iff, ← hless] at h ⊢
  exact sortedBy_arrayInsert h hi hs

/-- Carving keeps the order: the other headers are neither in the hole nor in the index. -/
theorem carveBlock_sorted (s : HeapState) (pos holeSize : Nat) {size : Nat} (hp : s.heap.index.predicate = headerPredicate)
    (hfit : size + 32 = holeSize ∨ size + 64 ≤ holeSize) (hend : pos + holeSize ≤ s.heap.endAddress)
    (htop : s.heap.endAddress < 2 ^ 64) (hsize : s.heap.index.size + 1 < 2 ^ 32)
    (hapart : ∀ x, InSlots s.heap.index (s.heap.index.size + 1) x → x < pos ∨ pos + holeSize ≤ x)
    (hsort : SizeSorted s.mem (contents s.mem s.heap.index))
    (hout : ∀ e ∈ contents s.mem s.heap.index, (e + 16 ≤ pos ∨ pos + holeSize ≤ e) ∧
      ∀ x, e ≤ x → x < e + 16 → ¬ InSlots s.heap.index (s.heap.index.size + 1) x) :
    let s' := carveBlock s pos holeSize size (size + 32)
    SizeSorted s'.mem (contents s'.mem s'.heap.index) := by
  intro s'
  have heq : s' = _ := carveBlock_eq s (by omega) hend htop
  have hsorted : ∀ m', Frame s.mem m' (fun x => pos ≤ x ∧ x < pos + holeSize) →
      SizeSorted m' (contents m' s.heap.index) := by
    intro m' hf
    rw [contents_of_apart hapart hf]
    refine hsort.congr fun e he => ?_
    apply hf.read
    intro x h1 h2 hx
    have := (hout e he).1
    omega
  by_cases he : holeSize = size + 32
  · rw [if_pos he] at heq
    have hframe : Frame s.mem s'.mem fun x => pos ≤ x ∧ x < pos + holeSize := by
      rw [heq]
      exact (frame_tags s.mem pos 0 (size + 32) (by omega)).mono fun x hx => by omega
    have hidx : s'.heap.index = s.heap.index := by rw [heq]
    rw [hidx]
    exact hsorted _ hframe
  · obtain ⟨hmem, hidx⟩ := carveBlock_split s (by omega) he hend htop
    change s'.mem = _ at hmem
    change s'.heap.index = _ at hidx
    have hf12 := frame_splitTags s.mem pos (show size + 64 ≤ holeSize by omega)
    set m2 := splitTags s.mem pos holeSize size with hm2
    have hins := sizeSorted_arrayInsert hp (hsorted m2 hf12) (show pos + size + 32 < 2 ^ 64 by omega) hsize
    rw [← hmem, ← hidx] at hins
    refine hins.congr fun e hmem' => ?_
    -- the entries keep their headers while the index is written
    have hf3 : Frame m2 s'.mem (InSlots s.heap.index (s.heap.index.size + 1)) := by
      rw [hmem]
      exact frame_arrayInsert m2 s.heap.index _
    apply hf3.read
    rw [hmem, hidx] at hmem'
    rcases List.mem_cons.mp ((perm_arrayInsert m2 s.heap.index (show pos + size + 32 < 2 ^ 64 by omega) hsize).subset
      hmem') with rfl | hmem'
    · intro x h1 h2 hx
      have := hapart x hx
      omega
    · rw [contents_of_apart hapart hf12] at hmem'
      intro x h1 h2
      exact (hout e hmem').2 x (by omega) (by omega)

theorem heapCarve_sorted {s : HeapState} {pre post : List Chunk} {hole : Chunk} (h : HeapRep s (pre ++ hole :: post))
    (hhole : hole.use = none) (hp : s.heap.index.predicate = headerPredicate)
    (hsort : SizeSorted s.mem (contents s.mem s.heap.index)) {iterator size : Nat}
    (hit : iterator < s.heap.index.size)
    (hpos : arrayGet s.mem s.heap.index iterator = s.heap.startAddress + total Chunk.size pre)
    (hfit : size + 32 ≤ hole.size) (hidx : s.heap.index.size < 2 ^ 32) :
    let r := heapCarve s iterator size (size + 32) 0
    SizeSorted r.2.mem (contents r.2.mem r.2.heap.index) := by
  intro r
  obtain ⟨hchunk, hend⟩ := h.chunk
  have htop := h.top
  have hr : r = _ := heapCarve_eq s hpos hchunk.header.size hfit (by omega)
  rw [hr]
  set s₁ := s.arrayRemove iterator with hs₁
  have hsize₁ : s₁.heap.index.size + 1 = s.heap.index.size := by
    have := arrayRemove_size s.mem s.heap.index hit
    rw [show s₁.heap.index.size = (Lib.arrayRemove s.mem s.heap.index iterator).2.size from rfl]
    omega
  have hslots : ∀ x, InSlots s₁.heap.index (s₁.heap.index.size + 1) x ↔
      InSlots s.heap.index s.heap.index.size x := by
    intro x
    rw [hsize₁]
    rfl
  -- the entries left are the other holes
  have hother : ∀ e ∈ contents s₁.mem s₁.heap.index,
      (e + 16 ≤ s.heap.startAddress + total Chunk.size pre ∨
        s.heap.startAddress + total Chunk.size pre + hole.size ≤ e) ∧
      ∀ x, e ≤ x → x < e + 16 → ¬ InSlots s.heap.index s.heap.index.size x := by
    intro e he
    have hrem := perm_arrayRemove s.mem s.heap.index hit
    rw [hpos] at hrem
    have hidx' := h.index
    rw [holes_append, holes_cons, if_pos hhole] at hidx'
    have hmem := ((hrem.symm.trans hidx').trans List.perm_middle).cons_inv.subset he
    have hin : e + 32 ≤ s.heap.startAddress + total Chunk.size pre ∧ s.heap.startAddress ≤ e ∨
        s.heap.startAddress + total Chunk.size pre + hole.size ≤ e ∧ e + 32 ≤ s.heap.endAddress := by
      obtain ⟨htiles₁, htiles₂⟩ := chunks_append.mp h.tiles
      rcases List.mem_append.mp hmem with hmem | hmem
      · obtain ⟨c, -, hc⟩ := mem_holes.mp hmem
        have hb := placed_bounds Chunk.size hc
        have := (htiles₁ _ hc).size
        omega
      · obtain ⟨c, -, hc⟩ := mem_holes.mp hmem
        have hb := placed_bounds Chunk.size hc
        have := ((chunks_cons.mp htiles₂).2 _ hc).size
        omega
    refine ⟨by omega, fun x h1 h2 hx => ?_⟩
    have := h.apart x hx
    omega
  have hf₁ : Frame s.mem s₁.mem (InSlots s.heap.index s.heap.index.size) := frame_arrayRemove _ _ (by omega)
  have hsort₁ : SizeSorted s₁.mem (contents s₁.mem s₁.heap.index) := by
    have hsub : SizeSorted s.mem (contents s₁.mem s₁.heap.index) := by
      rw [show contents s₁.mem s₁.heap.index = _ from contents_arrayRemove s.mem s.heap.index hit]
      exact hsort.sublist (List.eraseIdx_sublist _ _)
    refine hsub.congr fun e he => ?_
    apply hf₁.read
    intro x h1 h2
    exact (hother e he).2 x (by omega) (by omega)
  refine carveBlock_sorted s₁ _ hole.size hp (blockSize_fits hfit).2 ?_ htop (by omega) ?_ hsort₁ ?_
  · change s.heap.startAddress + total Chunk.size pre + hole.size ≤ s.heap.endAddress
    omega
  · intro x hx
    have := h.apart x ((hslots x).mp hx)
    omega
  · intro e he
    refine ⟨(hother e he).1, fun x h1 h2 hx => (hother e he).2 x h1 h2 ((hslots x).mp hx)⟩

theorem heapAllocate_of_find (fuel : Nat) {s : HeapState} {size iterator : Nat} (hsize : size < 2 ^ 32)
    (hfind : heapFindSmallestHole s (size + 32) 0 = some iterator) :
    heapAllocate (fuel + 1) s size 0 = some (heapCarve s iterator size (size + 32) 0) := by
  have hnew : add64 (add64 size sizeofHeapHeader) sizeofHeapFooter = size + 32 := by
    unfold sizeofHeapHeader sizeofHeapFooter
    rw [add64_of_lt (a := size) (by omega), add64_of_lt (by omega)]
  rw [heapAllocate]
  simp only [hnew, hfind]

theorem HeapRep.found {s : HeapState} {cs : List Chunk} (h : HeapRep s cs) {size iterator : Nat}
    (hfind : heapFindSmallestHole s size 0 = some iterator) :
    ∃ pre hole post, cs = pre ++ hole :: post ∧ hole.use = none ∧ iterator < s.heap.index.size ∧
      arrayGet s.mem s.heap.index iterator = s.heap.startAddress + total Chunk.size pre ∧ size ≤ hole.size := by
  obtain ⟨hit, hfit, -⟩ := heapFindSmallestHole_eq_some hfind
  obtain ⟨pre, hole, post, rfl, hhole, hpos⟩ := h.hole (arrayGet_mem_contents s.mem s.heap.index hit)
  rw [hpos, h.chunk.1.header.size] at hfit
  exact ⟨pre, hole, post, rfl, hhole, hit, hpos, hfit⟩

/-- **`HeapAllocate` with a hole.** The hole becomes one block and at most one hole, the index stays sorted and exact, and
nothing outside the hole and the index is written. -/
theorem allocate_keeps_heap {s : HeapState} {cs : List Chunk} (h : HeapRep s cs)
    (hp : s.heap.index.predicate = headerPredicate) (hsort : SizeSorted s.mem (contents s.mem s.heap.index))
    (hidx : s.heap.index.size < 2 ^ 32) {size iterator : Nat} (hsize : size < 2 ^ 32)
    (hfind : heapFindSmallestHole s (size + 32) 0 = some iterator) (fuel : Nat) :
    ∃ s' pre hole post mid b,
      heapAllocate (fuel + 1) s size 0 = some (arrayGet s.mem s.heap.index iterator + 16, s') ∧
      (cs = pre ++ hole :: post ∧ hole.use = none ∧
        arrayGet s.mem s.heap.index iterator = s.heap.startAddress + total Chunk.size pre) ∧
      (size ≤ b ∧
        (mid = [⟨b + 32, some size, true⟩] ∧ b + 32 = hole.size ∨
          mid = [⟨b + 32, some size, true⟩, ⟨hole.size - (b + 32), none, true⟩] ∧ b + 64 ≤ hole.size)) ∧
      HeapRep s' (pre ++ mid ++ post) ∧ SizeSorted s'.mem (contents s'.mem s'.heap.index) ∧
      Frame s.mem s'.mem (fun x => (arrayGet s.mem s.heap.index iterator ≤ x ∧
        x < arrayGet s.mem s.heap.index iterator + hole.size) ∨ InSlots s.heap.index s.heap.index.size x) ∧
      s'.heap.endAddress = s.heap.endAddress := by
  obtain ⟨pre, hole, post, rfl, hhole, hit, hpos, hfit⟩ := h.found hfind
  obtain ⟨hret, hsame, -, hrep, hframe⟩ := heapCarve_spec h hhole hit hpos hfit hidx
  have hsorted := heapCarve_sorted h hhole hp hsort hit hpos hfit hidx
  obtain ⟨hle, hcases⟩ := blockSize_fits hfit
  refine ⟨_, pre, hole, post, _, blockSize hole.size size, ?_, ⟨rfl, hhole, hpos⟩, ⟨hle, ?_⟩, hrep, hsorted, ?_,
    hsame.endAddress⟩
  · rw [heapAllocate_of_find fuel hsize hfind, hpos, ← hret]
  · unfold carved
    rcases hcases with he | he
    · exact Or.inl ⟨if_pos he.symm, he⟩
    · exact Or.inr ⟨if_neg (by omega), he⟩
  · rw [hpos]
    exact hframe

theorem allocate_keeps_heap_initial :
    ∃ s' cs', heapAllocate 1 (mmInitializeHeap (fun _ => 0) fun _ _ => 0) 16 0 = some (heapStart + 16, s') ∧
      HeapRep s' cs' := by
  have hrep := heapRep_boot (fun _ => 0) (fun _ _ => 0)
  have hcont := contents_boot (fun _ => 0) (fun _ _ => 0)
  have hfind : heapFindSmallestHole (mmInitializeHeap (fun _ => 0) fun _ _ => 0) (16 + 32) 0 = some 0 :=
    find_boot _ _ (by decide +kernel)
  have hsort : SizeSorted (mmInitializeHeap (fun _ => 0) fun _ _ => 0).mem
      (contents (mmInitializeHeap (fun _ => 0) fun _ _ => 0).mem
        (mmInitializeHeap (fun _ => 0) fun _ _ => 0).heap.index) := by
    rw [hcont]
    exact List.pairwise_singleton _ _
  have hidx : (mmInitializeHeap (fun _ => 0) fun _ _ => 0).heap.index.size < 2 ^ 32 := by
    rw [indexSize_boot]
    decide
  obtain ⟨s', pre, hole, post, mid, b, hcall, -, -, hrep', -⟩ :=
    allocate_keeps_heap hrep (predicate_boot _ _) hsort hidx (by decide) hfind 0
  have hget := arrayGet_mem_contents (mmInitializeHeap (fun _ => 0) fun _ _ => 0).mem
    (mmInitializeHeap (fun _ => 0) fun _ _ => 0).heap.index (heapFindSmallestHole_eq_some hfind).1
  rw [hcont] at hget
  rw [List.mem_singleton.mp hget] at hcall
  exact ⟨s', _, hcall, hrep'⟩

end Gewodsys.Mem
