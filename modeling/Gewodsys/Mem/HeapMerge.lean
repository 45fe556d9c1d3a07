import Gewodsys.Mem.HeapCarve

/-!
# `HeapFree`

* `mergesLeft`, `LeftTag` : whether the block joins the chunk on its left, and that it is right to;
* `left_spec`, `right_spec` : what the tests of the neighbours find;
* `Merging s pre post c add` : the heap while a block is freed: it is the hole `c` already, and in the index unless `add`;
* `freeMergeLeft_spec`, `freeMergeRight_of_hole`, `freeShrink_last` : the three stages;
* `heapFree_inner`, `heapFree_last` : freeing away from the end of the heap, and at its end.
-/

namespace Gewodsys.Mem
open Gewodsys.Machine Gewodsys.Lib

/-! ## The neighbours -/

/-- The test of `HeapFree` for a hole on the left, which comes after the block at `header` is marked as a hole itself. -/
def mergesLeft (m : Mem) (header : Nat) : Bool := leftIsHole (setHeaderIsHole m header 1) header

/-- The footer below `header` can be trusted: a hole that it names is in the index, and ends at `header`. -/
def LeftTag (s : HeapState) (header : Nat) : Prop :=
  let left := footerHeader s.mem (header - 16)
  mergesLeft s.mem header = true → left ∈ contents s.mem s.heap.index ∧ left + headerSize s.mem left = header

theorem isHole_eq_one_iff (c : Chunk) : c.isHole = 1 ↔ c.use = none := by
  unfold Chunk.isHole
  split_ifs with h <;> simp [h]

theorem left_spec {s : HeapState} {pre post : List Chunk} {blk : Chunk} (h : HeapRep s (pre ++ blk :: post))
    (header : Nat) (hheader : header = s.heap.startAddress + total Chunk.size pre) (htag : LeftTag s header)
    (hleft : mergesLeft s.mem header = true) :
    ∃ pre₁ l, pre = pre₁ ++ [l] ∧ l.use = none ∧
      footerHeader s.mem (header - 16) = s.heap.startAddress + total Chunk.size pre₁ := by
  obtain ⟨hmem, hend⟩ := htag hleft
  obtain ⟨pre₁, l, post₁, hcs, hl, hpos⟩ := h.hole hmem
  have hlchunk := (hcs ▸ h).chunk.1
  rw [hpos, hlchunk.header.size] at hend
  refine ⟨pre₁, l, ?_, hl, hpos⟩
  apply eq_of_total_eq Chunk.size (blk :: post) post₁
  · rw [hcs]
    simp
  · intro c hc
    obtain ⟨a, ha⟩ := mem_placed_of_mem Chunk.size s.heap.startAddress hc
    have := (h.tiles _ ha).size
    simp only at this
    omega
  · simp only [total_append, total_cons, total_nil]
    omega

theorem right_spec {m : Mem} {a : Nat} {r : Chunk} (h : ChunkAt m a r) :
    rightIsHole m a = true ↔ r.use = none := by
  unfold rightIsHole
  rw [h.header.magic, h.header.isHole, decide_eq_true_iff, ← isHole_eq_one_iff]
  unfold Chunk.isHole
  split_ifs <;> simp

/-! ## Stages -/

/-- The chunks are `pre ++ c :: post`; the hole `c` is in the index unless it is still to be added. -/
structure Merging (s : HeapState) (pre post : List Chunk) (c : Chunk) (add : Bool) : Prop where
  tiles : Chunks s.mem s.heap.startAddress (pre ++ c :: post)
  fits : s.heap.startAddress + total Chunk.size (pre ++ c :: post) = s.heap.endAddress
  hole : c.use = none
  index : (contents s.mem s.heap.index).Perm (holes s.heap.startAddress pre ++
    ((if add then [] else [s.heap.startAddress + total Chunk.size pre]) ++
      holes (s.heap.startAddress + total Chunk.size pre + c.size) post))
  apart : ∀ x, InSlots s.heap.index s.heap.index.size x → x < s.heap.startAddress ∨ s.heap.endAddress ≤ x
  top : s.heap.endAddress < 2 ^ 64

theorem Merging.chunk {s : HeapState} {pre post : List Chunk} {c : Chunk} {add : Bool}
    (h : Merging s pre post c add) :
    ChunkAt s.mem (s.heap.startAddress + total Chunk.size pre) c ∧
      s.heap.startAddress + total Chunk.size pre + c.size + total Chunk.size post = s.heap.endAddress := by
  have hfits := h.fits
  rw [total_append, total_cons] at hfits
  exact ⟨(chunks_cons.mp (chunks_append.mp h.tiles).2).1, by omega⟩

/-- A hole that is in the index already ends the call. -/
theorem Merging.heapRep {s : HeapState} {pre post : List Chunk} {c : Chunk} (h : Merging s pre post c false) :
    HeapRep s (pre ++ c :: post) := by
  refine ⟨h.tiles, h.fits, ?_, h.apart, h.top⟩
  rw [holes_append, holes_cons, if_pos h.hole]
  exact h.index

theorem Merging.insert {s : HeapState} {pre post : List Chunk} {c : Chunk} (h : Merging s pre post c true)
    (hsize : s.heap.index.size + 1 < 2 ^ 32)
    (hroom : ∀ x, InSlots s.heap.index (s.heap.index.size + 1) x →
      x < s.heap.startAddress ∨ s.heap.endAddress ≤ x) :
    HeapRep (s.arrayInsert (s.heap.startAddress + total Chunk.size pre)) (pre ++ c :: post) := by
  obtain ⟨hchunk, hend⟩ := h.chunk
  have htop := h.top
  have hsz := hchunk.size
  have hf : Frame s.mem (s.arrayInsert (s.heap.startAddress + total Chunk.size pre)).mem
      (InSlots s.heap.index (s.heap.index.size + 1)) := frame_arrayInsert _ _ _
  refine ⟨?_, h.fits, ?_, ?_, h.top⟩
  · refine h.tiles.frame hf ?_
    intro x h1 h2 hx
    have := hroom x hx
    have hfits := h.fits
    omega
  · have hperm := perm_arrayInsert s.mem s.heap.index
      (show s.heap.startAddress + total Chunk.size pre < 2 ^ 64 by omega) hsize
    refine hperm.trans ?_
    rw [arrayInsert_startAddress, holes_append, holes_cons, if_pos h.hole]
    have hidx := h.index
    rw [if_pos rfl, List.nil_append] at hidx
    exact (hidx.cons _).trans List.perm_middle.symm
  · intro x hx
    have hlen : (s.arrayInsert (s.heap.startAddress + total Chunk.size pre)).heap.index.size =
        s.heap.index.size + 1 :=
      arrayInsert_size s.mem s.heap.index (s.heap.startAddress + total Chunk.size pre) hsize
    rw [hlen] at hx
    exact hroom x hx

/-- How the block `blk` and the chunks `pre` before it become `c` and `pre₁`. -/
def MergedLeft (pre : List Chunk) (blk : Chunk) (pre₁ : List Chunk) (c : Chunk) : Bool → Prop
  | true => ∃ l, pre = pre₁ ++ [l] ∧ l.use = none ∧ c = ⟨l.size + blk.size, none, true⟩
  | false => pre₁ = pre ∧ c = ⟨blk.size, none, true⟩

theorem MergedLeft.isHole {pre pre₁ : List Chunk} {blk c : Chunk} {left : Bool} (h : MergedLeft pre blk pre₁ c left) :
    c.use = none ∧ c.footer = true := by
  cases left with
  | true =>
      obtain ⟨l, -, -, rfl⟩ := h
      exact ⟨rfl, rfl⟩
  | false =>
      obtain ⟨-, rfl⟩ := h
      exact ⟨rfl, rfl⟩

theorem contents_of_frame {s : HeapState} {m' : Mem}
    (hapart : ∀ x, InSlots s.heap.index s.heap.index.size x → x < s.heap.startAddress ∨ s.heap.endAddress ≤ x)
    (hf : Frame s.mem m' fun x => s.heap.startAddress ≤ x ∧ x < s.heap.endAddress) :
    contents m' s.heap.index = contents s.mem s.heap.index := by
  apply contents_congr hf
  intro x hx hx'
  have := hapart x hx
  omega

theorem HeapRep.mark {s : HeapState} {pre post : List Chunk} {blk : Chunk} (h : HeapRep s (pre ++ blk :: post))
    (hused : blk.use ≠ none) (hfoot : blk.footer = true) :
    Merging { s with mem := setHeaderIsHole s.mem (s.heap.startAddress + total Chunk.size pre) 1 } pre post
      ⟨blk.size, none, true⟩ true := by
  obtain ⟨hchunk, hend⟩ := h.chunk
  have hsz := hchunk.size
  set header := s.heap.startAddress + total Chunk.size pre
  set m₀ := setHeaderIsHole s.mem header 1
  have hf : Frame s.mem m₀ fun x => x = header + 4 := frame_setHeaderIsHole s.mem header 1
  have hblk : ChunkAt m₀ header ⟨blk.size, none, true⟩ := by
    refine ⟨?_, fun _ => ?_, hsz, fun n hn => by cases hn⟩
    · exact hchunk.header.setIsHole (by decide)
    · exact (hchunk.footer hfoot).frame hf fun x h1 h2 hx => by omega
  have hfits := h.fits
  refine ⟨?_, ?_, rfl, ?_, h.apart, h.top⟩
  · have htiles : Chunks s.mem s.heap.startAddress (pre ++ [blk] ++ post) := by simpa using h.tiles
    have := htiles.replace [⟨blk.size, none, true⟩] hf ?_ ?_ ?_
    · simpa using this
    · intro x hx
      simp only [total_cons, total_nil]
      omega
    · exact chunks_cons.mpr ⟨hblk, chunks_nil _ _⟩
    · simp
  · change s.heap.startAddress + total Chunk.size (pre ++ ⟨blk.size, none, true⟩ :: post) = s.heap.endAddress
    simp only [total_append, total_cons] at hfits ⊢
    omega
  · change (contents m₀ s.heap.index).Perm _
    rw [contents_of_frame h.apart (hf.mono fun x hx => by omega)]
    have hidx := h.index
    rw [holes_append, holes_cons, if_neg hused, List.nil_append] at hidx
    exact hidx

/-- The hole joins the hole `l` on its left, which is in the index. -/
theorem Merging.joinLeft {s : HeapState} {pre post : List Chunk} {l c : Chunk} (h : Merging s (pre ++ [l]) post c true)
    (hfoot : c.footer = true) (hl : l.use = none) :
    let hleft := s.heap.startAddress + total Chunk.size pre
    let m' := setHeaderSize (setFooterHeader s.mem (hleft + l.size + c.size - 16) hleft) hleft (l.size + c.size)
    Merging { s with mem := m' } pre post ⟨l.size + c.size, none, true⟩ false ∧
      Frame s.mem m' (fun x => hleft ≤ x ∧ x < hleft + l.size + c.size) := by
  intro hleft m'
  obtain ⟨hchunk, hend⟩ := h.chunk
  have htop := h.top
  have hsz := hchunk.size
  have hlchunk : ChunkAt s.mem hleft l := (chunks_cons.mp (chunks_append.mp (chunks_append.mp h.tiles).1).2).1
  have hlsz := hlchunk.size
  have hheader : s.heap.startAddress + total Chunk.size (pre ++ [l]) = hleft + l.size := by
    simp only [total_append, total_cons, total_nil]
    omega
  rw [hheader] at hchunk hend
  set m₁ := setFooterHeader s.mem (hleft + l.size + c.size - 16) hleft
  have hf₁ : Frame s.mem m₁ fun x => hleft + l.size + c.size - 8 ≤ x ∧ x < hleft + l.size + c.size :=
    (frame_setFooterHeader s.mem _ _).mono fun x hx => by omega
  have hf₂ : Frame m₁ m' fun x => hleft + 8 ≤ x ∧ x < hleft + 16 := frame_setHeaderSize m₁ _ _
  have hframe : Frame s.mem m' fun x => hleft ≤ x ∧ x < hleft + l.size + c.size :=
    (hf₁.mono fun x hx => by omega).trans (hf₂.mono fun x hx => by omega)
  have hjoined : ChunkAt m' hleft ⟨l.size + c.size, none, true⟩ := by
    refine ⟨?_, fun _ => ?_, ?_, fun n hn => by cases hn⟩
    · have hlhead := hlchunk.header.frame hf₁ fun x h1 h2 hx => by omega
      have := hlhead.setSize (l.size + c.size) (by omega)
      rwa [(isHole_eq_one_iff l).mpr hl] at this
    · have hfoot₁ : FooterAt m₁ (hleft + l.size + c.size - 16) hleft := (hchunk.footer hfoot).setHeader (by omega)
      have := hfoot₁.frame hf₂ fun x h1 h2 hx => by omega
      rwa [Nat.add_assoc] at this
    · change 32 ≤ l.size + c.size
      omega
  have hfits := h.fits
  refine ⟨⟨?_, ?_, rfl, ?_, h.apart, h.top⟩, hframe⟩
  · have htiles : Chunks s.mem s.heap.startAddress (pre ++ [l, c] ++ post) := by simpa using h.tiles
    have := htiles.replace [⟨l.size + c.size, none, true⟩] hframe ?_ ?_ ?_
    · simpa using this
    · intro x hx
      simp only [total_cons, total_nil]
      omega
    · exact chunks_cons.mpr ⟨hjoined, chunks_nil _ _⟩
    · simp
  · change s.heap.startAddress + total Chunk.size (pre ++ ⟨l.size + c.size, none, true⟩ :: post) = s.heap.endAddress
    simp only [total_append, total_cons, total_nil] at hfits ⊢
    omega
  · change (contents m' s.heap.index).Perm _
    rw [contents_of_frame h.apart (hframe.mono fun x hx => by omega)]
    have hidx := h.index
    rw [hheader, holes_append, holes_cons, if_pos hl, holes_nil, List.append_nil, if_pos rfl, List.nil_append,
      List.append_assoc, Nat.add_assoc] at hidx
    exact hidx

theorem freeMergeLeft_of_hole {s : HeapState} {pre post : List Chunk} {l blk : Chunk}
    (h : HeapRep s (pre ++ [l] ++ blk :: post)) (hused : blk.use ≠ none) (hfoot : blk.footer = true)
    (hlow : 16 ≤ s.heap.startAddress) (hl : l.use = none) (header : Nat)
    (hheader : header = s.heap.startAddress + total Chunk.size (pre ++ [l]))
    (hleft : mergesLeft s.mem header = true)
    (hfh : footerHeader s.mem (header - 16) = s.heap.startAddress + total Chunk.size pre) :
    ∃ m', freeMergeLeft (setHeaderIsHole s.mem header 1) header (header + blk.size - 16) =
        (m', s.heap.startAddress + total Chunk.size pre, false) ∧
      Merging { s with mem := m' } pre post ⟨l.size + blk.size, none, true⟩ false ∧
      Frame s.mem m' (fun x => s.heap.startAddress + total Chunk.size pre ≤ x ∧ x < header + blk.size) := by
  obtain ⟨hchunk, hend⟩ := h.chunk
  have htop := h.top
  have hsz := hchunk.size
  have hmark := h.mark hused hfoot
  obtain ⟨hjoin, hframe⟩ := hmark.joinLeft rfl hl
  have hlchunk := (chunks_cons.mp (chunks_append.mp (chunks_append.mp hmark.tiles).1).2).1
  have hcache := hmark.chunk.1.header.size
  simp only [← hheader] at hmark hjoin hframe hlchunk hcache
  have hlsz := hlchunk.size
  have hlen : header = s.heap.startAddress + total Chunk.size pre + l.size := by
    rw [hheader]
    simp only [total_append, total_cons, total_nil]
    omega
  have hsub : sub64 header sizeofHeapFooter = header - 16 :=
    sub64_of_le (by omega) (by unfold sizeofHeapFooter; omega)
  have hlh : footerHeader (setHeaderIsHole s.mem header 1) (header - 16) =
      s.heap.startAddress + total Chunk.size pre := by
    rw [← hfh]
    exact (frame_setHeaderIsHole s.mem header 1).read fun x h1 h2 hx => by omega
  have hlhead := hlchunk.header.frame
    (frame_setFooterHeader _ (header + blk.size - 16) (s.heap.startAddress + total Chunk.size pre))
    fun x h1 h2 hx => by omega
  rw [← hlen] at hjoin hframe
  have hf₀ : Frame s.mem (setHeaderIsHole s.mem header 1)
      fun x => s.heap.startAddress + total Chunk.size pre ≤ x ∧ x < header + blk.size :=
    (frame_setHeaderIsHole s.mem header 1).mono fun x hx => by omega
  refine ⟨_, ?_, hjoin, hf₀.trans hframe⟩
  unfold freeMergeLeft
  unfold mergesLeft at hleft
  rw [if_pos hleft]
  simp only [hsub, hlh, hcache, hlhead.size]
  rw [add64_of_lt (by omega)]

theorem freeMergeLeft_of_used {s : HeapState} {pre post : List Chunk} {blk : Chunk}
    (h : HeapRep s (pre ++ blk :: post)) (hused : blk.use ≠ none) (hfoot : blk.footer = true) (header : Nat)
    (hheader : header = s.heap.startAddress + total Chunk.size pre) (hleft : mergesLeft s.mem header = false) :
    ∃ m', freeMergeLeft (setHeaderIsHole s.mem header 1) header (header + blk.size - 16) = (m', header, true) ∧
      Merging { s with mem := m' } pre post ⟨blk.size, none, true⟩ true ∧
      Frame s.mem m' (fun x => header ≤ x ∧ x < header + blk.size) := by
  obtain ⟨hchunk, hend⟩ := h.chunk
  have hsz := hchunk.size
  have hmark := h.mark hused hfoot
  simp only [← hheader] at hmark
  refine ⟨_, ?_, hmark, (frame_setHeaderIsHole s.mem header 1).mono fun x hx => by omega⟩
  unfold freeMergeLeft
  unfold mergesLeft at hleft
  rw [hleft]
  simp only [Bool.false_eq_true, if_false]

/-- The first stage: the block is marked, and joined with a hole on its left. -/
theorem freeMergeLeft_spec {s : HeapState} {pre post : List Chunk} {blk : Chunk} (h : HeapRep s (pre ++ blk :: post))
    (hused : blk.use ≠ none) (hfoot : blk.footer = true) (hlow : 16 ≤ s.heap.startAddress) (header : Nat)
    (hheader : header = s.heap.startAddress + total Chunk.size pre) (htag : LeftTag s header) :
    ∃ pre₁ c m', MergedLeft pre blk pre₁ c (mergesLeft s.mem header) ∧
      freeMergeLeft (setHeaderIsHole s.mem header 1) header (header + blk.size - 16) =
        (m', s.heap.startAddress + total Chunk.size pre₁, !mergesLeft s.mem header) ∧
      Merging { s with mem := m' } pre₁ post c (!mergesLeft s.mem header) ∧
      Frame s.mem m' (fun x => s.heap.startAddress + total Chunk.size pre₁ ≤ x ∧ x < header + blk.size) := by
  cases hleft : mergesLeft s.mem header with
  | true =>
      obtain ⟨pre₁, l, rfl, hl, hfh⟩ := left_spec h header hheader htag hleft
      obtain ⟨m', hr, hm⟩ := freeMergeLeft_of_hole h hused hfoot hlow hl header hheader hleft hfh
      exact ⟨pre₁, _, m', ⟨l, rfl, hl, rfl⟩, hr, hm⟩
  | false =>
      obtain ⟨m', hr, hm⟩ := freeMergeLeft_of_used h hused hfoot header hheader hleft
      refine ⟨pre, _, m', ⟨rfl, rfl⟩, ?_, ?_⟩
      · rw [hr, hheader]
        rfl
      · rw [← hheader]
        exact hm

theorem indexOfHeader_spec {s : HeapState} {header n i : Nat}
    (h : ∃ j, i ≤ j ∧ j < i + n ∧ arrayGet s.mem s.heap.index j = header) :
    indexOfHeader s header n i < i + n ∧ arrayGet s.mem s.heap.index (indexOfHeader s header n i) = header := by
  induction n generalizing i with
  | zero =>
      obtain ⟨j, h1, h2, -⟩ := h
      omega
  | succ n ih =>
      rw [indexOfHeader]
      by_cases hi : arrayGet s.mem s.heap.index i = header
      · rw [if_neg (not_not.mpr hi)]
        exact ⟨by omega, hi⟩
      · rw [if_pos hi]
        obtain ⟨j, h1, h2, h3⟩ := h
        have hne : j ≠ i := by
          intro he
          exact hi (he ▸ h3)
        obtain ⟨h4, h5⟩ := ih (i := i + 1) ⟨j, by omega, by omega, h3⟩
        exact ⟨by omega, h5⟩

theorem indexOfHeader_of_mem {s : HeapState} {header : Nat} (h : header ∈ contents s.mem s.heap.index) :
    indexOfHeader s header s.heap.index.size 0 < s.heap.index.size ∧
      arrayGet s.mem s.heap.index (indexOfHeader s header s.heap.index.size 0) = header := by
  obtain ⟨j, hj, he⟩ := List.mem_map.mp h
  have := indexOfHeader_spec (s := s) (n := s.heap.index.size) (i := 0)
    ⟨j, Nat.zero_le j, by have := List.mem_range.mp hj; omega, he⟩
  rwa [Nat.zero_add] at this

/-- The second stage before a block, or before the end of the heap: nothing happens. -/
theorem freeMergeRight_of_used {s : HeapState} (header footer : Nat) {e : Nat} (he : footer + 16 = e)
    (htop : e < 2 ^ 64) (hr : rightIsHole s.mem e = false) : freeMergeRight s header footer = (s, footer) := by
  have hadd : add64 footer sizeofHeapFooter = e := by
    unfold sizeofHeapFooter
    rw [add64_of_lt (by omega), he]
  unfold freeMergeRight
  simp only [hadd, hr, Bool.false_eq_true, if_false]

/-- The second stage before a hole: the hole is joined and taken out of the index. The footer at its end is not written,
so that the joined hole has none that points to it. -/
theorem freeMergeRight_of_hole {s : HeapState} {pre post : List Chunk} {c r : Chunk} {add : Bool}
    (h : Merging s pre (r :: post) c add) (hr : r.use = none) (header : Nat)
    (hheader : header = s.heap.startAddress + total Chunk.size pre) :
    ∃ s', freeMergeRight s header (header + c.size - 16) = (s', header + c.size + r.size - 16) ∧ SameExtent s s' ∧
      s'.heap.index.size + 1 = s.heap.index.size ∧ Merging s' pre post ⟨c.size + r.size, none, false⟩ add ∧
      (contents s'.mem s'.heap.index).Sublist (contents s.mem s.heap.index) ∧
      Frame s.mem s'.mem (fun x => (header ≤ x ∧ x < header + 16) ∨ InSlots s.heap.index s.heap.index.size x) := by
  obtain ⟨hchunk, hend⟩ := h.chunk
  have htop := h.top
  have hsz := hchunk.size
  rw [total_cons, ← hheader] at hend
  have hrchunk : ChunkAt s.mem (header + c.size) r := by
    rw [hheader]
    exact (chunks_cons.mp (chunks_cons.mp (chunks_append.mp h.tiles).2).2).1
  rw [← hheader] at hchunk
  have hrsz := hrchunk.size
  have hadd : add64 (header + c.size - 16) sizeofHeapFooter = header + c.size := by
    unfold sizeofHeapFooter
    rw [add64_of_lt (by omega)]
    omega
  set m' := setHeaderSize s.mem header (c.size + r.size) with hm'
  have hf : Frame s.mem m' fun x => header + 8 ≤ x ∧ x < header + 16 := frame_setHeaderSize s.mem _ _
  have hrhead := hrchunk.header.frame hf fun x h1 h2 hx => by omega
  have hcont : contents m' s.heap.index = contents s.mem s.heap.index :=
    contents_of_frame h.apart (hf.mono fun x hx => by omega)
  set s₁ : HeapState := { s with mem := m' } with hs₁
  have hmem : header + c.size ∈ contents s₁.mem s₁.heap.index := by
    change header + c.size ∈ contents m' s.heap.index
    rw [hcont]
    refine h.index.symm.subset ?_
    rw [holes_cons, if_pos hr, hheader]
    simp
  obtain ⟨hit, hget⟩ := indexOfHeader_of_mem hmem
  set iterator := indexOfHeader s₁ (header + c.size) s₁.heap.index.size 0
  have hf₂ : Frame m' (s₁.arrayRemove iterator).mem (InSlots s.heap.index s.heap.index.size) :=
    frame_arrayRemove m' s.heap.index hit.le
  have hsize : (s₁.arrayRemove iterator).heap.index.size + 1 = s.heap.index.size := by
    have := arrayRemove_size m' s.heap.index hit
    rw [show (s₁.arrayRemove iterator).heap.index.size = (Lib.arrayRemove m' s.heap.index iterator).2.size from rfl]
    have : 0 < s.heap.index.size := lt_of_le_of_lt (Nat.zero_le _) hit
    omega
  have hjoined : ChunkAt m' header ⟨c.size + r.size, none, false⟩ := by
    refine ⟨?_, fun hf => (by cases hf), ?_, fun n hn => (by cases hn)⟩
    · have := hchunk.header.setSize (c.size + r.size) (by omega)
      rwa [(isHole_eq_one_iff c).mpr h.hole] at this
    · change 32 ≤ c.size + r.size
      omega
  have hfits := h.fits
  refine ⟨s₁.arrayRemove iterator, ?_, (sameExtent_setMem s m').trans (sameExtent_arrayRemove _ _), hsize, ?_, ?_,
    (hf.mono fun x hx => Or.inl (by omega)).trans (hf₂.mono fun x hx => Or.inr hx)⟩
  · unfold freeMergeRight
    simp only [hadd, (right_spec hrchunk).mpr hr, if_true, hchunk.header.size, hrchunk.header.size]
    rw [add64_of_lt (by omega), ← hm']
    simp only [hrhead.size]
    rw [add64_of_lt (by omega), sub64_of_le (by omega) (by unfold sizeofHeapFooter; omega)]
    rfl
  · refine ⟨?_, ?_, rfl, ?_, ?_, h.top⟩
    · have htiles : Chunks s.mem s.heap.startAddress (pre ++ [c, r] ++ post) := by simpa using h.tiles
      have hrep := htiles.replace [⟨c.size + r.size, none, false⟩] hf ?_ ?_ ?_
      · refine Chunks.frame (by simpa using hrep) hf₂ ?_
        intro x h1 h2 hx
        have := h.apart x hx
        simp only [total_append, total_cons] at hfits h2
        change s.heap.startAddress ≤ x at h1
        change x < s.heap.startAddress + _ at h2
        omega
      · intro x hx
        simp only [total_cons, total_nil]
        omega
      · rw [← hheader]
        exact chunks_cons.mpr ⟨hjoined, chunks_nil _ _⟩
      · simp
    · change s.heap.startAddress + total Chunk.size (pre ++ ⟨c.size + r.size, none, false⟩ :: post) = s.heap.endAddress
      simp only [total_append, total_cons] at hfits ⊢
      omega
    · have hrem := perm_arrayRemove m' s.heap.index hit
      rw [hcont] at hrem
      have hget' : arrayGet m' s.heap.index iterator = header + c.size := hget
      have hidx := h.index
      rw [holes_cons, if_pos hr, ← hheader] at hidx
      rw [hget'] at hrem
      have hperm := hrem.symm.trans hidx
      change (contents (Lib.arrayRemove m' s.heap.index iterator).1
        (Lib.arrayRemove m' s.heap.index iterator).2).Perm (holes s.heap.startAddress pre ++
          ((if add then [] else [s.heap.startAddress + total Chunk.size pre]) ++
            holes (s.heap.startAddress + total Chunk.size pre + (c.size + r.size)) post))
      rw [← hheader, ← Nat.add_assoc]
      rw [← List.append_assoc, List.singleton_append] at hperm
      have := hperm.trans List.perm_middle
      rw [List.append_assoc] at this
      exact this.cons_inv
    · intro x hx
      apply h.apart x
      change s.heap.index.array ≤ x ∧ x < s.heap.index.array + 8 * (s₁.arrayRemove iterator).heap.index.size at hx
      unfold InSlots
      omega
  · change (contents (Lib.arrayRemove m' s.heap.index iterator).1
      (Lib.arrayRemove m' s.heap.index iterator).2).Sublist _
    rw [contents_arrayRemove m' s.heap.index hit, hcont]
    exact List.eraseIdx_sublist _ _

theorem freeShrink_inner {s : HeapState} (footer : Nat) {e : Nat} (he : footer + 16 = e) (htop : e < 2 ^ 64)
    (hend : e ≠ s.heap.endAddress) (header testHeader : Nat) : freeShrink s header footer testHeader = s := by
  have hadd : add64 footer sizeofHeapFooter = e := by
    unfold sizeofHeapFooter
    rw [add64_of_lt (by omega), he]
  unfold freeShrink
  rw [hadd, if_neg hend]

theorem contractSize_of_lt {size : Nat} (h : size < heapMinSize) : contractSize size = heapMinSize := by
  rw [contractSize_eq, max_eq_right h.le, ite_self]

/-- The third stage at the end of the heap, with the hole starting early enough: the heap shrinks to its least size. -/
theorem freeShrink_last {s : HeapState} {pre : List Chunk} {c : Chunk} {add : Bool} (h : Merging s pre [] c add)
    (hmin : total Chunk.size pre + 32 ≤ heapMinSize) (hlen : s.heap.startAddress + heapMinSize ≤ s.heap.endAddress)
    (header testHeader : Nat) (hheader : header = s.heap.startAddress + total Chunk.size pre) :
    ∃ m', freeShrink s header (header + c.size - 16) testHeader =
        HeapState.setEnd { s with mem := m' } (s.heap.startAddress + heapMinSize) ∧
      Merging (HeapState.setEnd { s with mem := m' } (s.heap.startAddress + heapMinSize)) pre []
        ⟨heapMinSize - total Chunk.size pre, none, true⟩ add ∧
      Frame s.mem m' (fun x => header ≤ x ∧ x < header + c.size) := by
  obtain ⟨hchunk, hend⟩ := h.chunk
  have htop := h.top
  have hsz := hchunk.size
  rw [total_nil, ← hheader] at hend
  rw [← hheader] at hchunk
  set size := heapMinSize - total Chunk.size pre with hsize
  have hfoot : add64 (header + c.size - 16) sizeofHeapFooter = s.heap.endAddress := by
    unfold sizeofHeapFooter
    rw [add64_of_lt (by omega)]
    omega
  have hoff : sub64 header s.heap.startAddress = total Chunk.size pre := by
    rw [sub64_of_le (by omega) (by omega)]
    omega
  have hold : sub64 (sub64 s.heap.endAddress s.heap.startAddress) heapMinSize =
      s.heap.endAddress - s.heap.startAddress - heapMinSize := by
    rw [sub64_of_le (a := s.heap.endAddress) htop (by omega), sub64_of_le (by omega) (by omega)]
  have hnew : sub64 c.size (s.heap.endAddress - s.heap.startAddress - heapMinSize) = size := by
    rw [sub64_of_le (by omega) (by omega)]
    omega
  set m₁ := setHeaderSize s.mem header size
  set m' := writeFooter m₁ (header + size - 16) header
  have hf₁ : Frame s.mem m₁ fun x => header + 8 ≤ x ∧ x < header + 16 := frame_setHeaderSize s.mem _ _
  have hf₂ : Frame m₁ m' fun x => header + size - 16 ≤ x ∧ x < header + size :=
    (frame_writeFooter m₁ _ _).mono fun x hx => by omega
  have hframe : Frame s.mem m' fun x => header ≤ x ∧ x < header + c.size :=
    (hf₁.mono fun x hx => by omega).trans (hf₂.mono fun x hx => by omega)
  have hc : ChunkAt m' header ⟨size, none, true⟩ := by
    refine ⟨?_, fun _ => footerAt_writeFooter m₁ (by omega), ?_, fun n hn => (by cases hn)⟩
    · have hhead := (hchunk.header.setSize size (by omega)).frame hf₂ fun x h1 h2 hx => by omega
      rwa [(isHole_eq_one_iff c).mpr h.hole] at hhead
    · change 32 ≤ size
      omega
  refine ⟨m', ?_, ⟨?_, ?_, rfl, ?_, ?_, ?_⟩, hframe⟩
  · have hstart : add64 s.heap.startAddress heapMinSize = s.heap.startAddress + heapMinSize := add64_of_lt (by omega)
    have hpos : sub64 (add64 header size) sizeofHeapFooter = header + size - 16 := by
      rw [add64_of_lt (by omega), sub64_of_le (by omega) (by unfold sizeofHeapFooter; omega)]
      rfl
    unfold freeShrink heapContract
    rw [if_pos hfoot]
    simp only [hoff, contractSize_of_lt (show total Chunk.size pre < heapMinSize by omega), hold, hstart,
      HeapState.setEnd, hchunk.header.size, hnew, hpos]
    rw [if_pos (by omega)]
  · change Chunks m' s.heap.startAddress (pre ++ [⟨size, none, true⟩])
    rw [chunks_append, ← hheader]
    refine ⟨?_, chunks_cons.mpr ⟨hc, chunks_nil _ _⟩⟩
    exact (chunks_append.mp h.tiles).1.frame hframe fun x h1 h2 hx => by omega
  · change s.heap.startAddress + total Chunk.size (pre ++ [⟨size, none, true⟩]) = s.heap.startAddress + heapMinSize
    simp only [total_append, total_cons, total_nil]
    omega
  · change (contents m' s.heap.index).Perm _
    rw [contents_of_frame h.apart (hframe.mono fun x hx => by omega)]
    exact h.index
  · intro x hx
    have := h.apart x hx
    change x < s.heap.startAddress ∨ s.heap.startAddress + heapMinSize ≤ x
    omega
  · change s.heap.startAddress + heapMinSize < 2 ^ 64
    omega

/-! ## `HeapFree` -/

/-- The footer of the block that `HeapFree` gets, and its first two stages. -/
def freeFooter (s : HeapState) (address : Nat) : Nat :=
  let header := sub64 address sizeofHeapHeader
  sub64 (add64 header (headerSize s.mem header)) sizeofHeapFooter

def freeLeft (s : HeapState) (address : Nat) : Mem × Nat × Bool :=
  let header := sub64 address sizeofHeapHeader
  freeMergeLeft (setHeaderIsHole s.mem header 1) header (freeFooter s address)

def freeRight (s : HeapState) (address : Nat) : HeapState × Nat :=
  freeMergeRight { s with mem := (freeLeft s address).1 } (freeLeft s address).2.1 (freeFooter s address)

/-- The call merges with a hole on the right, which it takes out of the index. -/
def mergesRight (s : HeapState) (address : Nat) : Bool :=
  rightIsHole (freeLeft s address).1 (add64 (freeFooter s address) sizeofHeapFooter)

/-- The call reaches `HeapContract`. -/
def contracts (s : HeapState) (address : Nat) : Bool :=
  decide (add64 (freeRight s address).2 sizeofHeapFooter = s.heap.endAddress)

theorem heapFree_stages (s : HeapState) {address : Nat} (h : address ≠ 0) :
    heapFree s address =
      let s₃ := freeShrink (freeRight s address).1 (freeLeft s address).2.1 (freeRight s address).2
        (add64 (freeFooter s address) sizeofHeapFooter)
      if (freeLeft s address).2.2 then s₃.arrayInsert (freeLeft s address).2.1 else s₃ := by
  unfold heapFree
  rw [if_neg h]
  rfl

section Stages
variable {s : HeapState} {pre post : List Chunk} {blk : Chunk}

theorem freeLeft_eq (h : HeapRep s (pre ++ blk :: post)) (hstart : 16 ≤ s.heap.startAddress) (header : Nat)
    (hheader : header = s.heap.startAddress + total Chunk.size pre) :
    freeFooter s (header + 16) = header + blk.size - 16 ∧
      add64 (header + blk.size - 16) sizeofHeapFooter = header + blk.size ∧
      freeLeft s (header + 16) =
        freeMergeLeft (setHeaderIsHole s.mem header 1) header (header + blk.size - 16) := by
  obtain ⟨hchunk, hend⟩ := h.chunk
  have htop := h.top
  have hsz := hchunk.size
  rw [← hheader] at hchunk hend
  have hh : sub64 (header + 16) sizeofHeapHeader = header := by
    unfold sizeofHeapHeader
    rw [sub64_of_le (by omega) (by omega), Nat.add_sub_cancel]
  have hf : sub64 (add64 header blk.size) sizeofHeapFooter = header + blk.size - 16 := by
    rw [add64_of_lt (by omega), sub64_of_le (by omega) (by unfold sizeofHeapFooter; omega)]
    rfl
  have hfoot : freeFooter s (header + 16) = header + blk.size - 16 := by
    unfold freeFooter
    simp only [hh, hchunk.header.size, hf]
  refine ⟨hfoot, ?_, ?_⟩
  · unfold sizeofHeapFooter
    rw [add64_of_lt (by omega)]
    omega
  · unfold freeLeft
    simp only [hh, hfoot]

theorem heapFree_eq (h : HeapRep s (pre ++ blk :: post)) (hstart : 16 ≤ s.heap.startAddress) (header : Nat)
    (hheader : header = s.heap.startAddress + total Chunk.size pre) {m' : Mem} {header₁ : Nat} {add : Bool}
    (hleft : freeMergeLeft (setHeaderIsHole s.mem header 1) header (header + blk.size - 16) = (m', header₁, add))
    {s₂ : HeapState} {footer₂ : Nat}
    (hright : freeMergeRight { s with mem := m' } header₁ (header + blk.size - 16) = (s₂, footer₂)) :
    heapFree s (header + 16) =
      let s₃ := freeShrink s₂ header₁ footer₂ (header + blk.size)
      if add then s₃.arrayInsert header₁ else s₃ := by
  obtain ⟨hf, ht, hl⟩ := freeLeft_eq h hstart header hheader
  rw [hleft] at hl
  rw [heapFree_stages s (by omega)]
  simp only [freeRight, hl, hf, hright, ht]

end Stages

theorem mergedLeft_end {pre pre₁ : List Chunk} {blk c : Chunk} {left : Bool} (h : MergedLeft pre blk pre₁ c left) :
    total Chunk.size pre₁ + c.size = total Chunk.size pre + blk.size := by
  cases left with
  | true =>
      obtain ⟨l, rfl, -, rfl⟩ := h
      simp only [total_append, total_cons, total_nil]
      omega
  | false =>
      obtain ⟨rfl, rfl⟩ := h
      rfl

/-- The chunks behind a block that is not freed up to the end of the heap: before the call, after it, and the size of the
hole that the call takes in. -/
inductive InnerRight : List Chunk → List Chunk → Nat → Bool → Prop where
  | block {r : Chunk} {post : List Chunk} : r.use ≠ none → InnerRight (r :: post) (r :: post) 0 false
  | hole {r r' : Chunk} {post : List Chunk} : r.use = none → InnerRight (r :: r' :: post) (r' :: post) r.size true

/-- **Freeing away from the end.** The block becomes a hole, with the holes on its left and on its right; the hole on the
left keeps its place in the index, the one on the right is taken out. -/
theorem heapFree_inner {s : HeapState} {pre post post' : List Chunk} {blk : Chunk} {size : Nat} {right : Bool}
    (h : HeapRep s (pre ++ blk :: post)) (hused : blk.use ≠ none) (hfoot : blk.footer = true)
    (hlow : 16 ≤ s.heap.startAddress) (hpost : InnerRight post post' size right) (header : Nat)
    (hheader : header = s.heap.startAddress + total Chunk.size pre) (htag : LeftTag s header) :
    ∃ pre₁ c s₂, MergedLeft pre blk pre₁ c (mergesLeft s.mem header) ∧
      Merging s₂ pre₁ post' ⟨c.size + size, none, !right⟩ (!mergesLeft s.mem header) ∧ SameExtent s s₂ ∧
      s₂.heap.index.size + right.toNat = s.heap.index.size ∧
      (contents s₂.mem s₂.heap.index).Sublist (contents s.mem s.heap.index) ∧
      Frame s.mem s₂.mem (fun x => (s.heap.startAddress + total Chunk.size pre₁ ≤ x ∧ x < header + blk.size) ∨
        InSlots s.heap.index s.heap.index.size x) ∧
      heapFree s (header + 16) = if mergesLeft s.mem header then s₂
        else s₂.arrayInsert (s.heap.startAddress + total Chunk.size pre₁) := by
  obtain ⟨hchunk, hend⟩ := h.chunk
  have htop := h.top
  have hsz := hchunk.size
  obtain ⟨pre₁, c, m', hmerged, hleft, hm, hframe⟩ := freeMergeLeft_spec h hused hfoot hlow header hheader htag
  have hlen := mergedLeft_end hmerged
  obtain ⟨hhole, hcfoot⟩ := hmerged.isHole
  have he : s.heap.startAddress + total Chunk.size pre₁ + c.size = header + blk.size := by omega
  have htiles := (chunks_cons.mp (chunks_append.mp hm.tiles).2).2
  change Chunks m' (s.heap.startAddress + total Chunk.size pre₁ + c.size) post at htiles
  rw [he] at htiles
  rw [← hheader] at hend
  have hframe₁ : Frame s.mem m' (fun x => s.heap.startAddress ≤ x ∧ x < s.heap.endAddress) :=
    hframe.mono fun x hx => by omega
  cases hpost with
  | @block r post hr =>
      have hrchunk := (chunks_cons.mp htiles).1
      have hrsz := hrchunk.size
      rw [total_cons] at hend
      have hnot : rightIsHole m' (header + blk.size) = false := by
        rw [Bool.eq_false_iff, ne_eq, right_spec hrchunk]
        exact hr
      have hright := freeMergeRight_of_used (s := { s with mem := m' }) (s.heap.startAddress + total Chunk.size pre₁)
        (header + blk.size - 16) (e := header + blk.size) (by omega) (by omega) hnot
      have hshrink := freeShrink_inner (s := { s with mem := m' }) (header + blk.size - 16)
        (e := header + blk.size) (by omega) (by omega) (by simp only; omega)
        (s.heap.startAddress + total Chunk.size pre₁) (header + blk.size)
      have hc : (⟨c.size + 0, none, !false⟩ : Chunk) = c := by
        rw [← hhole, Nat.add_zero, Bool.not_false, ← hcfoot]
      refine ⟨pre₁, c, { s with mem := m' }, hmerged, hc.symm ▸ hm, sameExtent_setMem s m', rfl, ?_, ?_, ?_⟩
      · simp only [contents_of_frame h.apart hframe₁]
        exact List.Sublist.refl _
      · exact hframe.mono fun x hx => Or.inl hx
      · rw [heapFree_eq h hlow header hheader hleft hright]
        simp only [hshrink]
        cases mergesLeft s.mem header <;> rfl
  | @hole r r' post hr =>
      have hr'sz := (chunks_cons.mp (chunks_cons.mp htiles).2).1.size
      have hrsz := (chunks_cons.mp htiles).1.size
      rw [total_cons, total_cons] at hend
      obtain ⟨s₂, hright, hsame, hsz₂, hm₂, hsub, hframe₂⟩ := freeMergeRight_of_hole hm hr _ rfl
      change freeMergeRight { s with mem := m' } (s.heap.startAddress + total Chunk.size pre₁)
        (s.heap.startAddress + total Chunk.size pre₁ + c.size - 16) =
          (s₂, s.heap.startAddress + total Chunk.size pre₁ + c.size + r.size - 16) at hright
      rw [he] at hright
      have hshrink := freeShrink_inner (s := s₂) (header + blk.size + r.size - 16)
        (e := header + blk.size + r.size) (by omega) (by omega) (by rw [hsame.endAddress]; simp only; omega)
        (s.heap.startAddress + total Chunk.size pre₁) (header + blk.size)
      refine ⟨pre₁, c, s₂, hmerged, hm₂, (sameExtent_setMem s m').trans hsame, hsz₂, ?_, ?_, ?_⟩
      · refine hsub.trans ?_
        simp only [contents_of_frame h.apart hframe₁]
        exact List.Sublist.refl _
      · refine (hframe.mono fun x hx => Or.inl hx).trans (hframe₂.mono fun x hx => hx.imp_left fun hx => ?_)
        have hcsz := hm.chunk.1.size
        change s.heap.startAddress + total Chunk.size pre₁ ≤ x ∧ x < s.heap.startAddress + total Chunk.size pre₁ + 16 at hx
        omega
      · rw [heapFree_eq h hlow header hheader hleft hright]
        simp only [hshrink]
        cases mergesLeft s.mem header <;> rfl

/-- The index has room for one more entry before the range `start .. stop`, or behind it. -/
def IndexRoom (s : HeapState) : Prop :=
  s.heap.index.size + 1 < 2 ^ 32 ∧ ∀ x, InSlots s.heap.index (s.heap.index.size + 1) x →
    x < s.heap.startAddress ∨ s.heap.endAddress ≤ x

theorem shrink_insert {s : HeapState} {pre : List Chunk} {c : Chunk} {add : Bool} (h : Merging s pre [] c add)
    (hmin : total Chunk.size pre + 32 ≤ heapMinSize) (hlen : s.heap.startAddress + heapMinSize ≤ s.heap.endAddress)
    (hroom : add = true → IndexRoom s) (header testHeader : Nat)
    (hheader : header = s.heap.startAddress + total Chunk.size pre) :
    let s₃ := freeShrink s header (header + c.size - 16) testHeader
    let s' := if add then s₃.arrayInsert header else s₃
    HeapRep s' (pre ++ [⟨heapMinSize - total Chunk.size pre, none, true⟩]) ∧ SameBase s s' ∧
      s'.heap.endAddress = s.heap.startAddress + heapMinSize ∧
      Frame s.mem s'.mem (fun x => (header ≤ x ∧ x < header + c.size) ∨
        add = true ∧ InSlots s.heap.index (s.heap.index.size + 1) x) := by
  intro s₃ s'
  obtain ⟨m', hs₃, hm, hframe⟩ := freeShrink_last h hmin hlen header testHeader hheader
  have hs₃' : s₃ = HeapState.setEnd { s with mem := m' } (s.heap.startAddress + heapMinSize) := hs₃
  cases add with
  | false =>
      have hs' : s' = s₃ := rfl
      rw [hs', hs₃']
      exact ⟨hm.heapRep, ⟨rfl, rfl, rfl, rfl, rfl⟩, rfl, hframe.mono fun x hx => Or.inl hx⟩
  | true =>
      obtain ⟨hsize, hout⟩ := hroom rfl
      have hs' : s' = HeapState.arrayInsert s₃ header := rfl
      rw [hs', hs₃', hheader]
      refine ⟨hm.insert hsize ?_, ⟨rfl, rfl, rfl, rfl, rfl⟩, rfl, ?_⟩
      · intro x hx
        have := hout x hx
        change x < s.heap.startAddress ∨ s.heap.startAddress + heapMinSize ≤ x
        omega
      · rw [← hheader]
        exact (hframe.mono fun x hx => Or.inl hx).trans
          ((frame_arrayInsert m' s.heap.index _).mono fun x hx => Or.inr ⟨rfl, hx⟩)

/-- The chunk on the right of a block at the end of the heap: none, or one hole. -/
inductive LastRight (m : Mem) (stop : Nat) : List Chunk → Prop where
  | none : rightIsHole m stop = false → LastRight m stop []
  | hole {r : Chunk} : r.use = none → LastRight m stop [r]

/-- **Freeing at the end.** The hole that the block becomes is cut off where the heap has its least size. -/
theorem heapFree_last {s : HeapState} {pre post : List Chunk} {blk : Chunk} (h : HeapRep s (pre ++ blk :: post))
    (hused : blk.use ≠ none) (hfoot : blk.footer = true) (hlow : 16 ≤ s.heap.startAddress)
    (hpost : LastRight s.mem s.heap.endAddress post) (header : Nat)
    (hheader : header = s.heap.startAddress + total Chunk.size pre) (htag : LeftTag s header)
    (hmin : ∀ pre₁ c, MergedLeft pre blk pre₁ c (mergesLeft s.mem header) →
      total Chunk.size pre₁ + 32 ≤ heapMinSize)
    (hlen : s.heap.startAddress + heapMinSize ≤ s.heap.endAddress)
    (hroom : mergesLeft s.mem header = false → post = [] → IndexRoom s) (hsize : s.heap.index.size < 2 ^ 32) :
    ∃ pre₁ c, MergedLeft pre blk pre₁ c (mergesLeft s.mem header) ∧
      HeapRep (heapFree s (header + 16)) (pre₁ ++ [⟨heapMinSize - total Chunk.size pre₁, none, true⟩]) ∧
      SameBase s (heapFree s (header + 16)) ∧
      (heapFree s (header + 16)).heap.endAddress = s.heap.startAddress + heapMinSize ∧
      Frame s.mem (heapFree s (header + 16)).mem (fun x =>
        (s.heap.startAddress + total Chunk.size pre₁ ≤ x ∧ x < s.heap.endAddress) ∨
        InSlots s.heap.index s.heap.index.size x ∨
        (mergesLeft s.mem header = false ∧ post = []) ∧ InSlots s.heap.index (s.heap.index.size + 1) x) := by
  obtain ⟨hchunk, hend⟩ := h.chunk
  have htop := h.top
  have hsz := hchunk.size
  obtain ⟨pre₁, c, m', hmerged, hleft, hm, hframe⟩ := freeMergeLeft_spec h hused hfoot hlow header hheader htag
  have hmin₁ := hmin pre₁ c hmerged
  have hlen₁ := mergedLeft_end hmerged
  have hcsz := hm.chunk.1.size
  have he : s.heap.startAddress + total Chunk.size pre₁ + c.size = header + blk.size := by omega
  rw [← hheader] at hend
  have hframe₁ : Frame s.mem m' (fun x =>
      (s.heap.startAddress + total Chunk.size pre₁ ≤ x ∧ x < s.heap.endAddress) ∨
      InSlots s.heap.index s.heap.index.size x ∨
      (mergesLeft s.mem header = false ∧ post = []) ∧ InSlots s.heap.index (s.heap.index.size + 1) x) :=
    hframe.mono fun x hx => Or.inl (by omega)
  refine ⟨pre₁, c, hmerged, ?_⟩
  cases hpost with
  | none hnot =>
      rw [total_nil] at hend
      have hnot' : rightIsHole m' (header + blk.size) = false := by
        rw [show header + blk.size = s.heap.endAddress by omega, ← hnot]
        unfold rightIsHole headerMagic headerIsHole
        rw [show m'.read32 s.heap.endAddress = s.mem.read32 s.heap.endAddress from
            hframe.read fun x h1 h2 hx => by omega,
          show m'.read8 (s.heap.endAddress + 4) = s.mem.read8 (s.heap.endAddress + 4) from
            hframe.read fun x h1 h2 hx => by omega]
      have hright := freeMergeRight_of_used (s := { s with mem := m' })
        (s.heap.startAddress + total Chunk.size pre₁) (header + blk.size - 16) (e := header + blk.size) (by omega)
        (by omega) hnot'
      rw [heapFree_eq h hlow header hheader hleft hright, ← he]
      obtain ⟨h1, h2, h3, h4⟩ := shrink_insert hm hmin₁ hlen (fun hadd => hroom (by simpa using hadd) rfl) _
        (s.heap.startAddress + total Chunk.size pre₁ + c.size) rfl
      refine ⟨h1, (sameExtent_setMem s m').toSameBase.trans h2, h3, hframe₁.trans (h4.mono fun x hx => ?_)⟩
      rcases hx with hx | hx
      · simp only at hx
        exact Or.inl (by omega)
      · exact Or.inr (Or.inr ⟨⟨by simpa using hx.1, rfl⟩, hx.2⟩)
  | @hole r hr =>
      simp only [total_cons, total_nil] at hend
      obtain ⟨s₂, hright, hsame, hsz₂, hm₂, -, hframe₂⟩ := freeMergeRight_of_hole hm hr _ rfl
      have hslots : ∀ x, InSlots s₂.heap.index (s₂.heap.index.size + 1) x → InSlots s.heap.index s.heap.index.size x := by
        intro x hx
        rw [hsz₂] at hx
        unfold InSlots at hx ⊢
        rw [hsame.array] at hx
        exact hx
      have hright' : freeMergeRight { s with mem := m' } (s.heap.startAddress + total Chunk.size pre₁)
          (header + blk.size - 16) =
            (s₂, s.heap.startAddress + total Chunk.size pre₁ + (c.size + r.size) - 16) := by
        rw [← he, ← Nat.add_assoc]
        exact hright
      rw [heapFree_eq h hlow header hheader hleft hright']
      have hlen₂ : s₂.heap.startAddress + heapMinSize ≤ s₂.heap.endAddress := by
        rw [hsame.startAddress, hsame.endAddress]
        exact hlen
      have hroom₂ : IndexRoom s₂ := by
        refine ⟨?_, fun x hx => ?_⟩
        · rw [hsz₂]
          exact hsize
        · rw [hsame.startAddress, hsame.endAddress]
          exact h.apart x (hslots x hx)
      obtain ⟨h1, h2, h3, h4⟩ := shrink_insert hm₂ hmin₁ hlen₂ (fun _ => hroom₂)
        (s.heap.startAddress + total Chunk.size pre₁) (header + blk.size) (by rw [hsame.startAddress])
      refine ⟨h1, ((sameExtent_setMem s m').trans hsame).toSameBase.trans h2, ?_, ?_⟩
      · rw [hsame.startAddress] at h3
        exact h3
      · refine hframe₁.trans ((hframe₂.mono fun x hx => ?_).trans (h4.mono fun x hx => ?_))
        · refine hx.imp (fun hx => ?_) Or.inl
          simp only at hx
          omega
        · refine hx.imp (fun hx => ?_) fun hx => Or.inl (hslots x hx.2)
          simp only at hx
          omega

end Gewodsys.Mem
