import Gewodsys.Mem.HeapExtent
import Gewodsys.Mem.HeapTags

/-!
# Page-aligned blocks

`HeapAllocate(heap, size, 1)` leaves the bytes before the aligned block to the hole it found, and cuts the block out of what
is behind them.

* `gapSize` : the bytes before the block;
* `AlignedFits` : the gap and the rest of the hole are absent or large enough for their tags;
* `AlignedOk` : the heap is in order again, with the block in the place of the hole;
* `find_fits`, `holeFits_aligned` : what the search with alignment asks for;
* `alignedOk_of_fits`, `fits_of_alignedOk` : with a hole of a heap in order, `AlignedOk` is exactly where `AlignedFits`.
-/

namespace Gewodsys.Mem
open Gewodsys.Machine Gewodsys.Lib

/-- The size of the hole that the aligned carve leaves before the block. -/
def gapSize (pos : Nat) : Nat := 4080 - pos % 4096

/-- The gap before the block has room for tags, and so has what is left of the hole behind it. -/
def AlignedFits (pos holeSize size : Nat) : Prop :=
  pos % 4096 ≤ 4048 ∧ (size + 32 + gapSize pos = holeSize ∨ size + 64 + gapSize pos ≤ holeSize)

/-- The call made the block `r.1` in the hole at `pos`. The heap is in order, with the block among those in use; the payload is
page-aligned; and before the block there is nothing of the hole, or a hole, which the index has once like every other one. -/
structure AlignedOk (pos : Nat) (live : List (Nat × Nat)) (size : Nat) (r : Nat × HeapState) (cs' : List Chunk) : Prop where
  rep : HeapRep r.2 cs'
  footed : Footed cs'
  once : (contents r.2.mem r.2.heap.index).Nodup
  live : ((r.1, size) :: live).Perm (used r.2.heap.startAddress cs')
  aligned : r.1 % 4096 = 0
  gap : r.1 = pos + 16 ∨ ∃ g, (pos, g) ∈ placed Chunk.size r.2.heap.startAddress cs' ∧ g.use = none ∧ 32 ≤ g.size ∧
    pos + g.size + 16 = r.1

/-! ## The search -/

/-- The bytes of a hole at `pos` that the search does not count. -/
def searchOffset (pos : Nat) : Nat := 4096 - (pos + 16) % 4096

theorem holeFits_aligned {m : Mem} {pos size : Nat} (hne : (pos + 16) &&& 0xFFFFF000 ≠ 0)
    (hhole : headerSize m pos < 2 ^ 63) (hsize : size < 2 ^ 63) :
    holeFits m pos size 1 = true ↔ size + searchOffset pos ≤ headerSize m pos := by
  have hoff : (pageSize : Int) - ((pos : Int) + 16) % (pageSize : Int) = (searchOffset pos : Int) := by
    unfold searchOffset pageSize
    omega
  unfold holeFits toInt64 sizeofHeapHeader
  rw [if_pos (by decide)]
  simp only [decide_eq_true_eq]
  rw [if_pos hne, if_pos hhole, if_pos hsize]
  push_cast
  rw [hoff]
  omega

theorem findHole_spec {s : HeapState} {size : Nat} {align : Int} {n i iterator : Nat}
    (h : findHole s size align n i = some iterator) :
    iterator < i + n ∧ holeFits s.mem (arrayGet s.mem s.heap.index iterator) size align = true := by
  induction n generalizing i with
  | zero => cases h
  | succ n ih =>
      rw [findHole] at h
      split_ifs at h with hfit
      · rw [← Option.some.inj h]
        exact ⟨by omega, hfit⟩
      · obtain ⟨h1, h2⟩ := ih h
        exact ⟨by omega, h2⟩

theorem findHole_none {s : HeapState} {size : Nat} {align : Int} {n i : Nat} (h : findHole s size align n i = none)
    {j : Nat} (h1 : i ≤ j) (h2 : j < i + n) :
    holeFits s.mem (arrayGet s.mem s.heap.index j) size align = false := by
  induction n generalizing i with
  | zero => omega
  | succ n ih =>
      rw [findHole] at h
      split_ifs at h with hfit
      by_cases hj : j = i
      · rw [hj]
        exact Bool.eq_false_iff.mpr hfit
      · exact ih h (by omega) (by omega)

theorem find_fits {s : HeapState} {size iterator : Nat} {align : Int}
    (h : heapFindSmallestHole s size align = some iterator) :
    iterator < s.heap.index.size ∧ holeFits s.mem (arrayGet s.mem s.heap.index iterator) size align = true := by
  obtain ⟨h1, h2⟩ := findHole_spec h
  exact ⟨by omega, h2⟩

theorem find_none {s : HeapState} {size : Nat} {align : Int} (h : heapFindSmallestHole s size align = none) {e : Nat}
    (he : e ∈ contents s.mem s.heap.index) : holeFits s.mem e size align = false := by
  obtain ⟨j, hj, rfl⟩ := List.mem_map.mp he
  exact findHole_none h (Nat.zero_le j) (by have := List.mem_range.mp hj; omega)

/-! ## The carve -/

section Carve
variable {s : HeapState} {live : List (Nat × Nat)} {pre post : List Chunk} {hole : Chunk} {iterator size pos : Nat}

theorem land_fff (x : Nat) : x &&& 0xFFF = x % 4096 := by
  rw [show (0xFFF : Nat) = 2 ^ 12 - 1 from rfl, Nat.and_two_pow_sub_one_eq_mod]

/-- A position of the kernel heap has bits above its page offset. -/
theorem land_ne_zero (hlow : heapStart ≤ pos) (hhigh : pos < heapAddr + 2 ^ 32) : pos &&& 0xFFFFF000 ≠ 0 := by
  rw [show (0xFFFFF000 : Nat) = 2 ^ 32 - 2 ^ 12 from rfl, land_mask pos 12 32 (by decide)]
  rw [heapStart_eq] at hlow
  rw [heapAddr_eq] at hhigh
  omega

theorem newLocation_eq (hhigh : pos + 4096 < 2 ^ 64) (hle : 16 ≤ pos) :
    sub64 (sub64 (add64 pos pageSize) (pos &&& 0xFFF)) sizeofHeapHeader = pos + 4080 - pos % 4096 := by
  have hm := Nat.mod_lt pos (show 0 < 4096 by decide)
  rw [land_fff]
  unfold pageSize sizeofHeapHeader
  rw [add64_of_lt (by omega), sub64_of_le (a := pos + 4096) (by omega) (by omega), sub64_of_le (by omega) (by omega)]
  omega

theorem carveAligned_eq (m : Mem) (hpos : pos % 4096 ≤ 4048) (hhigh : pos + 4096 < 2 ^ 64) (hle : 16 ≤ pos) :
    carveAligned m pos = (tags m pos 1 (gapSize pos), pos + gapSize pos, gapSize pos) := by
  have hgap : sub64 (sub64 pageSize (pos &&& 0xFFF)) sizeofHeapHeader = gapSize pos := by
    rw [land_fff]
    unfold pageSize sizeofHeapHeader gapSize
    rw [sub64_of_le (a := 4096) (by omega) (by omega), sub64_of_le (by omega) (by omega)]
    omega
  have hloc : sub64 (sub64 (add64 pos pageSize) (pos &&& 0xFFF)) sizeofHeapHeader = pos + gapSize pos := by
    rw [newLocation_eq hhigh hle]
    unfold gapSize
    omega
  have hfoot : sub64 (pos + gapSize pos) sizeofHeapFooter = pos + gapSize pos - 16 :=
    sub64_of_le (by unfold gapSize; omega) (by unfold sizeofHeapFooter; omega)
  have hsize : headerSize (tags m pos 1 (gapSize pos)) pos = gapSize pos :=
    (chunkAt_tags m (c := ⟨gapSize pos, none, true⟩) (by simp only [gapSize]; omega)
      (by simp only [gapSize]; omega) (fun n hn => by cases hn)).header.size
  unfold carveAligned
  simp only [hgap, hloc, hfoot]
  change (tags m pos 1 (gapSize pos), _, headerSize (tags m pos 1 (gapSize pos)) pos) = _
  rw [hsize]

theorem heapCarve_aligned (hget : arrayGet s.mem s.heap.index iterator = pos)
    (hsize : headerSize s.mem pos = hole.size) (hne : pos &&& 0xFFFFF000 ≠ 0) (hpos : pos % 4096 ≤ 4048)
    (hle : 16 ≤ pos) (htop : pos + hole.size < 2 ^ 64) (hfit : size + 32 + gapSize pos ≤ hole.size) :
    heapCarve s iterator size (size + 32) 1 = (pos + gapSize pos + 16,
      carveBlock { s with mem := tags s.mem pos 1 (gapSize pos) } (pos + gapSize pos) (hole.size - gapSize pos) size
        (size + 32)) := by
  have hgap : 32 ≤ gapSize pos := by
    unfold gapSize
    omega
  have hrest : sub64 hole.size (size + 32) = hole.size - (size + 32) := sub64_of_le (by omega) (by omega)
  have hbehind : sub64 hole.size (gapSize pos) = hole.size - gapSize pos := sub64_of_le (by omega) (by omega)
  have hret : add64 (pos + gapSize pos) sizeofHeapHeader = pos + gapSize pos + 16 :=
    add64_of_lt (by unfold sizeofHeapHeader; omega)
  unfold heapCarve
  simp only [hget, hsize, hrest]
  have hno : ¬ hole.size - (size + 32) < sizeofHeapHeader + sizeofHeapFooter := by
    unfold sizeofHeapHeader sizeofHeapFooter
    omega
  rw [if_neg hno, if_neg hno, if_pos ⟨by decide, hne⟩,
    carveAligned_eq s.mem hpos (by unfold gapSize at hfit; omega) hle]
  simp only [hbehind, hret]

theorem carved_cons (holeSize size n : Nat) : carved holeSize size n =
    ⟨size + 32, some n, true⟩ :: if holeSize = size + 32 then [] else [⟨holeSize - (size + 32), none, true⟩] := by
  unfold carved
  split_ifs <;> rfl

theorem heapRep_aligned (h : HeapOk s live (pre ++ hole :: post)) (hhole : hole.use = none)
    (hpos : pos = s.heap.startAddress + total Chunk.size pre) (hfits : AlignedFits pos hole.size size) :
    let s' := carveBlock { s with mem := tags s.mem pos 1 (gapSize pos) } (pos + gapSize pos)
      (hole.size - gapSize pos) size (size + 32)
    HeapRep s' (pre ++ (⟨gapSize pos, none, true⟩ :: carved (hole.size - gapSize pos) size size) ++ post) ∧
      SameExtent s s' := by
  intro s'
  obtain ⟨hchunk, hend⟩ := h.rep.chunk
  rw [← hpos] at hchunk hend
  have htop := h.rep.top
  have hindex := h.index_size
  obtain ⟨hpage, hfit⟩ := hfits
  have hgap : 32 ≤ gapSize pos := by
    unfold gapSize
    omega
  have hbelow : ∀ x, InSlots s.heap.index (s.heap.index.size + 1) x → x < s.heap.startAddress := by
    intro x hx
    have := h.index_below hx
    omega
  set m₁ := tags s.mem pos 1 (gapSize pos) with hm₁
  have hf₁ : Frame s.mem m₁ fun x => pos ≤ x ∧ x < pos + gapSize pos := frame_tags s.mem pos 1 _ hgap
  obtain ⟨hchunks, hf₂, hperm⟩ := carveBlock_spec { s with mem := m₁ } (pos + gapSize pos) (hole.size - gapSize pos)
    (le_refl size) (by omega) (by simp only; omega) htop (by simp only; omega)
    (fun x hx => by have := hbelow x hx; omega)
  have hsame : SameExtent s s' := (sameExtent_setMem s m₁).trans (sameExtent_carveBlock _ _ _ _ _)
  have hg : ChunkAt s'.mem pos ⟨gapSize pos, none, true⟩ := by
    refine (chunkAt_tags s.mem (c := ⟨gapSize pos, none, true⟩) hgap (by simp only; omega)
      (fun n hn => by cases hn)).frame hf₂ ?_
    intro x hx hx'
    have := hbelow x
    simp only at hx
    rcases hx' with hx' | hx'
    · omega
    · have := this hx'
      omega
  have hframe : Frame s.mem s'.mem fun x => (pos ≤ x ∧ x < pos + hole.size) ∨
      InSlots s.heap.index (s.heap.index.size + 1) x := by
    refine (hf₁.mono fun x hx => Or.inl (by omega)).trans (hf₂.mono fun x hx => hx.imp_left fun hx => by omega)
  have htotal := total_carved (n := size) (show size + 32 ≤ hole.size - gapSize pos by omega)
  have htiles : Chunks s'.mem s.heap.startAddress
      (pre ++ (⟨gapSize pos, none, true⟩ :: carved (hole.size - gapSize pos) size size) ++ post) := by
    have hold : Chunks s.mem s.heap.startAddress (pre ++ [hole] ++ post) := by simpa using h.rep.tiles
    refine hold.replace _ hframe ?_ ?_ ?_
    · intro x hx
      simp only [total_cons, total_nil]
      rcases hx with hx | hx
      · omega
      · have := hbelow x hx
        omega
    · rw [← hpos]
      exact chunks_cons.mpr ⟨hg, hchunks⟩
    · simp only [total_cons, total_nil, htotal]
      omega
  refine ⟨⟨?_, ?_, ?_, ?_, ?_⟩, hsame⟩
  · rw [hsame.startAddress]
    exact htiles
  · rw [hsame.startAddress, hsame.endAddress]
    simp only [total_append, total_cons, htotal]
    omega
  · refine hperm.trans ?_
    have hcont : contents m₁ s.heap.index = contents s.mem s.heap.index := by
      apply contents_congr hf₁
      intro x hx hx'
      have := hbelow x ⟨hx.1, hx.2.trans_le (by omega)⟩
      omega
    have hidx := h.rep.index
    simp only [hcont]
    rw [holes_append, holes_cons, if_pos hhole, ← hpos] at hidx
    rw [hsame.startAddress, List.append_assoc, holes_append, holes_append, holes_cons, if_pos rfl, ← hpos,
      total_cons, htotal]
    have haddr : pos + (gapSize pos + (hole.size - gapSize pos)) = pos + hole.size := by omega
    simp only [haddr]
    refine (hidx.append_left _).trans ?_
    refine List.perm_append_comm_assoc _ _ _ |>.trans (List.Perm.append_left _ ?_)
    simp only [List.append_assoc]
    exact List.perm_append_comm_assoc _ _ _
  · intro x hx
    rw [hsame.startAddress]
    have hlen := hperm.length_eq
    rw [length_contents, List.length_append, length_contents, holes_carved] at hlen
    have hle : s'.heap.index.size ≤ s.heap.index.size + 1 := by
      change s'.heap.index.size = _ at hlen
      rw [hlen]
      split_ifs
      · simp
      · simp only [List.length_cons, List.length_nil]
        omega
    refine Or.inl (hbelow x ?_)
    unfold InSlots at hx ⊢
    rw [hsame.array] at hx
    omega
  · rw [hsame.endAddress]
    exact htop

theorem heapCarve_aligned_fst (hget : arrayGet s.mem s.heap.index iterator = pos) (hne : pos &&& 0xFFFFF000 ≠ 0)
    (hle : 16 ≤ pos) (htop : pos + 8192 < 2 ^ 64) (size newSize : Nat) :
    (heapCarve s iterator size newSize 1).1 = pos + 4096 - pos % 4096 := by
  have hm := Nat.mod_lt pos (show 0 < 4096 by decide)
  have hloc := newLocation_eq (show pos + 4096 < 2 ^ 64 by omega) hle
  unfold heapCarve
  simp only [hget]
  rw [if_pos ⟨by decide, hne⟩]
  unfold carveAligned
  simp only [hloc]
  unfold sizeofHeapHeader
  rw [add64_of_lt (by omega)]
  omega

theorem subset_carveBlock (s : HeapState) (pos holeSize size : Nat) (hfit : size + 32 ≤ holeSize)
    (hend : pos + holeSize ≤ s.heap.endAddress) (htop : s.heap.endAddress < 2 ^ 64) (hsize : s.heap.index.size + 1 < 2 ^ 32)
    (hbelow : ∀ x, InSlots s.heap.index (s.heap.index.size + 1) x → x < pos) :
    contents s.mem s.heap.index ⊆
      contents (carveBlock s pos holeSize size (size + 32)).mem (carveBlock s pos holeSize size (size + 32)).heap.index := by
  have hslots : ∀ {m' : Mem}, Frame s.mem m' (fun x => pos ≤ x) → contents m' s.heap.index = contents s.mem s.heap.index := by
    intro m' hf
    apply contents_congr hf
    intro x hx hle
    have := hbelow x ⟨hx.1, hx.2.trans_le (by omega)⟩
    omega
  have hblk : Frame s.mem (tags s.mem pos 0 (size + 32)) fun x => pos ≤ x :=
    (frame_tags s.mem pos 0 (size + 32) (by omega)).mono fun x hx => hx.1
  rw [carveBlock_eq s hfit hend htop]
  split_ifs with he
  · intro e hmem
    simp only [hslots hblk]
    exact hmem
  · have hrest : Frame s.mem (tags (tags s.mem pos 0 (size + 32)) (pos + size + 32) 1 (holeSize - (size + 32)))
        fun x => pos ≤ x :=
      hblk.trans (((frame_writeHeader _ _ _ _).mono fun x hx => by omega).trans
        ((frame_writeFooter _ _ _).mono fun x hx => by omega))
    have hperm := perm_arrayInsert (tags (tags s.mem pos 0 (size + 32)) (pos + size + 32) 1 (holeSize - (size + 32)))
      s.heap.index (show pos + size + 32 < 2 ^ 64 by omega) hsize
    rw [hslots hrest] at hperm
    intro e hmem
    exact hperm.symm.subset (List.mem_cons_of_mem _ hmem)

/-- A block in the place of the hole, without a gap: the hole is still in the index. -/
theorem mem_contents_unaligned {H : Nat} (hit : iterator < s.heap.index.size) (hindex : s.heap.index.size + 1 < 2 ^ 32)
    (hbelow : ∀ x, InSlots s.heap.index (s.heap.index.size + 1) x → x + 16 < pos)
    (hget : arrayGet s.mem s.heap.index iterator = pos) (hne : pos &&& 0xFFFFF000 ≠ 0) (hpage : pos % 4096 = 4080)
    (hhead : headerSize s.mem pos = H) (hend : pos + H ≤ s.heap.endAddress) (htop : s.heap.endAddress < 2 ^ 63)
    (hfit : size + 32 ≤ H) :
    let r := heapCarve s iterator size (size + 32) 1
    pos ∈ contents r.2.mem r.2.heap.index := by
  intro r
  have hloc : sub64 (sub64 (add64 pos pageSize) (pos &&& 0xFFF)) sizeofHeapHeader = pos := by
    rw [newLocation_eq (by omega) (by omega)]
    omega
  have hzero : sub64 (sub64 pageSize (pos &&& 0xFFF)) sizeofHeapHeader = 0 := by
    rw [land_fff, hpage]
    decide +kernel
  have hfoot : sub64 pos sizeofHeapFooter = pos - 16 :=
    sub64_of_le (by omega) (by unfold sizeofHeapFooter; omega)
  set m₁ := writeFooter (writeHeader s.mem pos 1 0) (pos - 16) pos with hm₁
  have hf₁ : Frame s.mem m₁ fun x => pos - 16 ≤ x ∧ x < pos + 16 :=
    ((frame_writeHeader s.mem pos 1 0).mono fun x hx => by omega).trans
      ((frame_writeFooter _ (pos - 16) pos).mono fun x hx => by omega)
  have hsize : headerSize m₁ pos = 0 := by
    have hhead : HeaderAt (writeHeader s.mem pos 1 0) pos 1 0 := headerAt_writeHeader s.mem (by decide) (by decide)
    exact (hhead.frame (frame_writeFooter _ (pos - 16) pos) fun x h1 h2 hx => by omega).size
  obtain ⟨hbs, hbfit⟩ := blockSize_fits hfit
  obtain ⟨h1, h2⟩ := absorb_eq hfit (show H < 2 ^ 64 by omega)
  have hr : r.2 = carveBlock { s with mem := m₁ } pos H (blockSize H size) (blockSize H size + 32) := by
    change (heapCarve s iterator size (size + 32) 1).2 = _
    unfold heapCarve
    simp only [hget, hhead, h1, h2]
    rw [if_pos ⟨by decide, hne⟩]
    unfold carveAligned
    simp only [hloc, hzero, hfoot, ← hm₁, hsize]
    rw [sub64_of_le (by omega) (Nat.zero_le _), Nat.sub_zero]
  have hcont : contents m₁ s.heap.index = contents s.mem s.heap.index := by
    apply contents_congr hf₁
    intro x hx hx'
    have := hbelow x ⟨hx.1, hx.2.trans_le (by omega)⟩
    omega
  have hsub := subset_carveBlock { s with mem := m₁ } pos H (blockSize H size) (by omega) hend
    (show s.heap.endAddress < 2 ^ 64 by omega) hindex (fun x hx => by have := hbelow x hx; omega)
  rw [hr]
  apply hsub
  simp only [hcont]
  rw [← hget]
  exact arrayGet_mem_contents _ _ hit

end Carve

/-! ## A hole of a heap in order -/

section Iff
variable {s : HeapState} {live : List (Nat × Nat)} {pre post cs' : List Chunk} {hole : Chunk} {iterator size pos : Nat}
  {r : Nat × HeapState}

theorem alignedOk_of_fits (h : HeapOk s live (pre ++ hole :: post)) (hfoot : Footed (pre ++ hole :: post))
    (hhole : hole.use = none) (hget : arrayGet s.mem s.heap.index iterator = pos)
    (hpos : pos = s.heap.startAddress + total Chunk.size pre) (hne : pos &&& 0xFFFFF000 ≠ 0)
    (hfits : AlignedFits pos hole.size size) :
    ∃ cs', AlignedOk pos live size (heapCarve s iterator size (size + 32) 1) cs' := by
  obtain ⟨hchunk, hend⟩ := h.rep.chunk
  rw [← hpos] at hchunk hend
  have hlow := h.pageHeap.low
  have htop := h.rep.top
  obtain ⟨hrep, hsame⟩ := heapRep_aligned h hhole hpos hfits
  obtain ⟨hpage, hfit⟩ := hfits
  rw [heapCarve_aligned hget hchunk.header.size hne hpage (by omega) (by omega) (by omega)]
  have htotal := total_carved (n := size) (show size + 32 ≤ hole.size - gapSize pos by omega)
  refine ⟨_, hrep, ?_, hrep.nodup, ?_, ?_, Or.inr ⟨⟨gapSize pos, none, true⟩, ?_, rfl, ?_, ?_⟩⟩
  · obtain ⟨hpre, hpost⟩ := (footed_append (by simp)).mp hfoot
    rw [carved_cons, List.append_assoc, footed_append (by simp)]
    refine ⟨hpre, fun _ => rfl, fun _ => rfl, ?_⟩
    split_ifs
    · exact hpost.2
    · exact ⟨fun _ => rfl, hpost.2⟩
  · have hlive := h.live
    rw [used_append, used_cons, hhole] at hlive
    simp only [hsame.startAddress]
    rw [List.append_assoc, used_append, ← hpos, List.cons_append, used_cons, used_append, used_carved, htotal]
    rw [← hpos] at hlive
    have haddr : pos + gapSize pos + (hole.size - gapSize pos) = pos + hole.size := by omega
    simp only [haddr]
    exact (hlive.cons _).trans List.perm_middle.symm
  · simp only
    unfold gapSize
    omega
  · rw [hsame.startAddress, mem_placed_iff]
    exact ⟨pre, carved (hole.size - gapSize pos) size size ++ post, by simp, hpos⟩
  · change 32 ≤ gapSize pos
    unfold gapSize
    omega
  · rfl

theorem HeapRep.next {s : HeapState} {cs : List Chunk} (h : HeapRep s cs) {a : Nat} {c : Chunk}
    (hc : (a, c) ∈ placed Chunk.size s.heap.startAddress cs) (hlt : a + c.size < s.heap.endAddress) :
    ∃ d, (a + c.size, d) ∈ placed Chunk.size s.heap.startAddress cs := by
  obtain ⟨us, vs, rfl, ha⟩ := (mem_placed_iff Chunk.size).mp hc
  have hfits := h.fits
  simp only [total_append, total_cons] at hfits ha
  cases vs with
  | nil =>
      rw [total_nil] at hfits
      omega
  | cons d vs =>
      refine ⟨d, (mem_placed_iff Chunk.size).mpr ⟨us ++ [c], vs, by simp, ?_⟩⟩
      simp only [total_append, total_cons, total_nil]
      omega

theorem AlignedOk.block (hok : AlignedOk pos live size r cs') :
    ∃ b blk, r.1 = b + 16 ∧ blk.use = some size ∧ (b, blk) ∈ placed Chunk.size r.2.heap.startAddress cs' ∧
      size + 32 ≤ blk.size := by
  obtain ⟨b, blk, hblk, hret, hmem⟩ := mem_used.mp (hok.live.subset List.mem_cons_self)
  exact ⟨b, blk, hret, hblk, hmem, (hok.rep.tiles _ hmem).room size hblk⟩

/-- What was a block or a hole of the index before the call is the start of a chunk after it. -/
theorem AlignedOk.chunk (hok : AlignedOk pos live size r cs') {q : Nat}
    (hq : (∃ n, (q + 16, n) ∈ live) ∨ q ∈ contents r.2.mem r.2.heap.index) :
    ∃ c, (q, c) ∈ placed Chunk.size r.2.heap.startAddress cs' := by
  rcases hq with ⟨n, hn⟩ | hq
  · obtain ⟨b, c, -, hb, hmem⟩ := mem_used.mp (hok.live.subset (List.mem_cons_of_mem _ hn))
    rw [show b = q by omega] at hmem
    exact ⟨c, hmem⟩
  · obtain ⟨c, -, hmem⟩ := mem_holes.mp (hok.rep.index.subset hq)
    exact ⟨c, hmem⟩

/-- The returned address leaves the gap no choice: there is none where the hole starts 16 bytes before a page, and else it
goes to the page boundary. -/
theorem AlignedOk.gapSize_eq (hok : AlignedOk pos live size r cs') (hret : r.1 = pos + 4096 - pos % 4096) :
    pos % 4096 = 4080 ∨ pos % 4096 ≤ 4048 ∧ ∃ g, (pos, g) ∈ placed Chunk.size r.2.heap.startAddress cs' ∧
      g.use = none ∧ g.size = gapSize pos := by
  have hm := Nat.mod_lt pos (show 0 < 4096 by decide)
  rcases hok.gap with hgap | ⟨g, hmem, hg, hgsz, hgap⟩
  · left
    omega
  · right
    refine ⟨by omega, g, hmem, hg, ?_⟩
    unfold gapSize
    omega

/-- A hole in the place of the block: there is no such tiling. -/
theorem AlignedOk.not_hole (hok : AlignedOk pos live size r cs') {b : Nat} (hret : r.1 = b + 16)
    (hmem : b ∈ contents r.2.mem r.2.heap.index) : False := by
  obtain ⟨b', blk, hret', hblk, hplaced, hroom⟩ := hok.block
  obtain ⟨d, hd, hplaced'⟩ := mem_holes.mp (hok.rep.index.subset hmem)
  rw [show b' = b by omega] at hplaced
  have hdsz := (hok.rep.tiles _ hplaced').size
  have heq := placed_eq_of_overlap Chunk.size hplaced hplaced' (by simp only at hdsz ⊢; omega) (by simp only; omega)
  rw [(Prod.mk.inj heq).2, hd] at hblk
  cases hblk

theorem fits_of_alignedOk (h : HeapOk s live (pre ++ hole :: post)) (hit : iterator < s.heap.index.size)
    (hget : arrayGet s.mem s.heap.index iterator = pos) (hpos : pos = s.heap.startAddress + total Chunk.size pre)
    (hne : pos &&& 0xFFFFF000 ≠ 0) (hne' : (pos + 16) &&& 0xFFFFF000 ≠ 0) (hhigh : s.heap.endAddress < 2 ^ 63)
    (hfound : holeFits s.mem pos (add64 (add64 size sizeofHeapHeader) sizeofHeapFooter) 1 = true)
    (hok : AlignedOk pos live size
      (heapCarve s iterator size (add64 (add64 size sizeofHeapHeader) sizeofHeapFooter) 1) cs') :
    AlignedFits pos hole.size size := by
  have hst := heapStart_eq
  have hstart := h.start
  obtain ⟨hchunk, hend⟩ := h.rep.chunk
  rw [← hpos] at hchunk hend
  have hsz := hchunk.size
  have hsame := sameExtent_heapCarve s iterator size (add64 (add64 size sizeofHeapHeader) sizeofHeapFooter) 1
  have hret := heapCarve_aligned_fst hget hne (by omega) (by omega) size
    (add64 (add64 size sizeofHeapHeader) sizeofHeapFooter)
  obtain ⟨b, blk, hb, hblk, hplaced, hroom⟩ := hok.block
  have hbounds := placed_bounds Chunk.size hplaced
  rw [hok.rep.fits, hsame.startAddress, hsame.endAddress] at hbounds
  simp only at hbounds
  have hnew : add64 (add64 size sizeofHeapHeader) sizeofHeapFooter = size + 32 := by
    unfold sizeofHeapHeader sizeofHeapFooter
    rw [add64_of_lt (a := size) (by omega), add64_of_lt (by omega)]
  rw [hnew] at hfound hok hsame hret hb hplaced
  rw [holeFits_aligned hne' (by rw [hchunk.header.size]; omega) (by omega), hchunk.header.size] at hfound
  have hbelow : ∀ x, InSlots s.heap.index (s.heap.index.size + 1) x → x + 16 < pos := by
    intro x hx
    have := h.index_below hx
    omega
  have hindex := h.index_size
  rcases hok.gapSize_eq hret with hpage | ⟨hpage, g, hgmem, hg, hgsz⟩
  · -- without a gap the block has replaced a hole that is still in the index
    refine (hok.not_hole (b := pos) (by omega) ?_).elim
    exact mem_contents_unaligned hit (by omega) hbelow hget hne hpage hchunk.header.size (by omega) hhigh (by omega)
  · have hoff : searchOffset pos = gapSize pos := by
      unfold searchOffset gapSize
      omega
    have hgap : gapSize pos = 4080 - pos % 4096 := rfl
    rw [hoff] at hfound
    refine ⟨hpage, ?_⟩
    by_contra hrest
    -- what is left behind the block is too small for tags: the chunk that starts there runs into what follows the hole
    have heq := heapCarve_aligned hget hchunk.header.size hne hpage (by omega) (by omega)
      (show size + 32 + gapSize pos ≤ hole.size by omega)
    have hsize := headerSize_carveBlock { s with mem := tags s.mem pos 1 (gapSize pos) }
      (show size + 32 ≤ hole.size - gapSize pos by omega) (by omega) (show pos + gapSize pos + size + 64 < 2 ^ 64 by omega)
      (fun x hx => by have := hbelow x hx; omega)
    have hsub := subset_carveBlock { s with mem := tags s.mem pos 1 (gapSize pos) } (pos + gapSize pos)
      (hole.size - gapSize pos) size (by omega) (by simp only; omega) (show s.heap.endAddress < 2 ^ 64 by omega)
      (show s.heap.index.size + 1 < 2 ^ 32 by omega) (fun x hx => by have := hbelow x hx; omega)
    have hcont : contents (tags s.mem pos 1 (gapSize pos)) s.heap.index = contents s.mem s.heap.index := by
      apply contents_congr (frame_tags s.mem pos 1 (gapSize pos) (by omega))
      intro x hx hx'
      have := hbelow x ⟨hx.1, hx.2.trans_le (by omega)⟩
      omega
    simp only [hcont] at hsub
    have hhead := (hok.rep.tiles _ hplaced).header.size
    simp only at hhead
    rw [show b = pos + gapSize pos by omega] at hhead hplaced
    rw [heq] at hhead
    rw [hsize] at hhead
    obtain ⟨c, hc⟩ := hok.rep.next hplaced (by rw [hsame.endAddress]; omega)
    have hcsz := (hok.rep.tiles _ hc).size
    have hcb := placed_bounds Chunk.size hc
    rw [hok.rep.fits, hsame.endAddress] at hcb
    simp only at hcsz hcb
    cases post with
    | nil =>
        rw [total_nil] at hend
        omega
    | cons d post =>
        have hdmem : (pos + hole.size, d) ∈ placed Chunk.size s.heap.startAddress (pre ++ hole :: d :: post) := by
          refine (mem_placed_iff Chunk.size).mpr ⟨pre ++ [hole], post, by simp, ?_⟩
          simp only [total_append, total_cons, total_nil]
          omega
        obtain ⟨d', hd'⟩ : ∃ d', (pos + hole.size, d') ∈ placed Chunk.size
            (heapCarve s iterator size (size + 32) 1).2.heap.startAddress cs' := by
          apply hok.chunk
          cases hd : d.use with
          | some n => exact Or.inl ⟨n, h.live.symm.subset (mem_used.mpr ⟨_, d, hd, rfl, hdmem⟩)⟩
          | none =>
              right
              rw [heq]
              exact hsub (h.rep.index.symm.subset (mem_holes.mpr ⟨d, hd, hdmem⟩))
        have hdsz := (hok.rep.tiles _ hd').size
        have := placed_eq_of_overlap Chunk.size hc hd' (by simp only at hdsz ⊢; omega) (by simp only; omega)
        have := (Prod.mk.inj this).1
        omega

end Iff

end Gewodsys.Mem
