import Gewodsys.Mem.HeapExtent

/-!
# The tags that `HeapFree` touches

* `freeTags s address` : the headers and footers that `HeapFree(address)` reads or writes;
* `Ended s cs` : a chunk before another one ends with a footer that names a header inside it; `ended_run` : it does after
  every run of clean calls, also where a merge to the right left an old footer in place;
* `freeTags_inside` : the tags of a block with a chunk on both sides;
* `free_tags_inside_iff` : they lie inside the heap exactly for such blocks.
-/

namespace Gewodsys.Mem
open Gewodsys.Machine Gewodsys.Lib

/-! ## Accesses -/

/-- The tags of the last stage of `HeapFree`: after `HeapContract`, the header, and the footer if it is written. -/
def shrinkTags (s : HeapState) (header footer : Nat) : List Nat :=
  if add64 footer sizeofHeapFooter = s.heap.endAddress then
    let oldLength := sub64 s.heap.endAddress s.heap.startAddress
    let newLength := contractSize (sub64 header s.heap.startAddress)
    let size := sub64 (headerSize s.mem header) (sub64 oldLength newLength)
    if size > 0 then [header, sub64 (add64 header size) sizeofHeapFooter] else [header]
  else []

/-- The headers and footers that `HeapFree(address)` reads or writes, in its order. The footer of the hole on the right is
computed and not accessed. -/
def freeTags (s : HeapState) (address : Nat) : List Nat :=
  if address = 0 then []
  else
    let header := sub64 address sizeofHeapHeader
    let footer := freeFooter s address
    let testFooter := sub64 header sizeofHeapFooter
    let m := setHeaderIsHole s.mem header 1
    [header, testFooter] ++
      -- `test_footer->header->is_hole` is read after the magic matched, `footer->header` is written after both did
      (if footerMagic m testFooter = heapMagic then [footerHeader m testFooter] else []) ++
      (if leftIsHole m header then [footer] else []) ++
      [add64 footer sizeofHeapFooter] ++
      shrinkTags (freeRight s address).1 (freeLeft s address).2.1 (freeRight s address).2

/-- Every tag lies inside the heap. -/
def TagsInside (s : HeapState) (tags : List Nat) : Prop :=
  ∀ a ∈ tags, s.heap.startAddress ≤ a ∧ a + 16 ≤ s.heap.endAddress

/-! ## The footers of a heap in order -/

/-- A chunk before another one ends with a footer, which names a header in the chunk whose size reaches the same end. -/
def Ended (s : HeapState) (cs : List Chunk) : Prop :=
  ∀ a c, (a, c) ∈ placed Chunk.size s.heap.startAddress cs → a + c.size < s.heap.endAddress →
    ∃ e, FooterAt s.mem (a + c.size - 16) e ∧ a ≤ e ∧ e + headerSize s.mem e = a + c.size ∧ 32 ≤ headerSize s.mem e

variable {s s' : HeapState} {live : List (Nat × Nat)} {cs cs' : List Chunk} {F : Nat → Prop}

theorem ChunkKept.frame {m m' : Mem} {a : Nat} {c : Chunk} (h : ChunkKept m m' a c) :
    Frame m m' fun x => ¬ (a ≤ x ∧ x < a + c.size) := by
  intro x hx
  have hin : a ≤ x ∧ x < a + c.size := not_not.mp hx
  exact h x hin.1 hin.2

theorem Ended.kept (h : Ended s cs) (hrep : HeapRep s' cs') (hk : HeapKept s s' cs cs' F) : Ended s' cs' := by
  intro a c hc hlt
  rcases hk.tails a c hc with hfoot | ⟨a', c', hc', hle, hend, hkept, hstop⟩
  · have hchunk := hrep.tiles _ hc
    refine ⟨a, hchunk.footer hfoot, le_refl a, ?_, ?_⟩
    · rw [hchunk.header.size]
    · rw [hchunk.header.size]
      exact hchunk.size
  · obtain ⟨e, hfoot, h1, h2, h3⟩ := h a' c' hc' (by omega)
    have hsize : headerSize s'.mem e = headerSize s.mem e := by
      apply hkept.frame.read
      intro x hx1 hx2 hx
      omega
    rw [← hend]
    refine ⟨e, ?_, by omega, hsize.symm ▸ h2, hsize.symm ▸ h3⟩
    apply hfoot.frame hkept.frame
    intro x hx1 hx2 hx
    omega

theorem ended_step {r r' : HeapRun} {op : HeapOp} (h : ∃ cs, HeapOk r.state r.live cs ∧ Ended r.state cs)
    (hclean : CleanOp r op) (hstep : heapStep r op = some r') : ∃ cs, HeapOk r'.state r'.live cs ∧ Ended r'.state cs := by
  obtain ⟨cs, h, he⟩ := h
  cases op with
  | kmalloc fuel size =>
      obtain ⟨⟨p, s'⟩, hcall, rfl⟩ := Option.map_eq_some_iff.mp hstep
      obtain ⟨s₁, cs₁, cs', h₁, hk₁, hok, hk⟩ := h.kmalloc (Nat.mod_lt _ (by decide)) hclean hcall
      exact ⟨cs', hok, (he.kept h₁.rep hk₁).kept hok.rep hk⟩
  | kfree address =>
      obtain ⟨n, hmem, rfl⟩ := heapStep_kfree hstep
      obtain ⟨cs', hok, hk⟩ := h.kfree hmem hclean
      exact ⟨cs', hok, he.kept hok.rep hk⟩
  | store address byte =>
      obtain ⟨p, n, hmem, h1, h2, rfl⟩ := heapStep_store hstep
      obtain ⟨hok, hk⟩ := h.store hmem h1 h2 byte
      exact ⟨cs, hok, he.kept hok.rep hk⟩

theorem ended_boot (m : Mem) (frames : Nat → Nat → Byte) :
    Ended (mmInitializeHeap m frames) [⟨heapSize - 0x101000, none, false⟩] := by
  intro a c hc hlt
  have hfits := (heapRep_boot m frames).fits
  rw [placed_cons, placed_nil, List.mem_singleton, Prod.mk.injEq] at hc
  rw [total_cons, total_nil] at hfits
  rw [hc.1, hc.2] at hlt
  omega

/-- **The footers after a run of clean calls.** -/
theorem ended_run {m : Mem} {frames : Nat → Nat → Byte} {ops : List HeapOp} {r : HeapRun}
    (hclean : StepsMeet heapStep CleanOp (HeapRun.boot m frames) ops)
    (hrun : run heapStep (HeapRun.boot m frames) ops = some r) : ∃ cs, HeapOk r.state r.live cs ∧ Ended r.state cs :=
  run_invariant (I := fun r => ∃ cs, HeapOk r.state r.live cs ∧ Ended r.state cs)
    (fun _ _ _ h hc hs => ended_step h hc hs) ⟨_, heapOk_boot m frames, ended_boot m frames⟩ hclean hrun

/-! ## The tags of one call -/

theorem indexOfHeader_le (s : HeapState) (header n i : Nat) : indexOfHeader s header n i ≤ i + n := by
  induction n generalizing i with
  | zero => exact le_refl i
  | succ n ih =>
      rw [indexOfHeader]
      have := ih (i + 1)
      split_ifs
      · omega
      · omega

theorem contractSize_bounds (size : Nat) : heapMinSize ≤ contractSize size ∧ contractSize size ≤ max size heapMinSize := by
  rw [contractSize_eq]
  split_ifs
  · exact ⟨le_refl _, le_max_right _ _⟩
  · exact ⟨le_max_right _ _, le_refl _⟩

section Block
variable {pre post : List Chunk} {blk : Chunk}

theorem Ended.left (he : Ended s (pre ++ blk :: post)) (h : HeapOk s live (pre ++ blk :: post)) (header : Nat)
    (hheader : header = s.heap.startAddress + total Chunk.size pre) (hpre : pre ≠ []) :
    ∃ e, FooterAt s.mem (header - 16) e ∧ s.heap.startAddress ≤ e ∧ e + headerSize s.mem e = header ∧
      32 ≤ headerSize s.mem e := by
  obtain ⟨hchunk, hend⟩ := h.rep.chunk
  have hsz := hchunk.size
  rw [← hheader] at hend
  obtain ⟨pre₁, l, rfl⟩ : ∃ pre₁ l, pre = pre₁ ++ [l] := by
    rcases List.eq_nil_or_concat pre with rfl | ⟨pre₁, l, rfl⟩
    · exact absurd rfl hpre
    · exact ⟨pre₁, l, List.concat_eq_append⟩
  have hl : (s.heap.startAddress + total Chunk.size pre₁, l) ∈
      placed Chunk.size s.heap.startAddress (pre₁ ++ [l] ++ blk :: post) := by
    apply (mem_placed_iff Chunk.size).mpr
    exact ⟨pre₁, blk :: post, by simp, rfl⟩
  simp only [total_append, total_cons, total_nil] at hheader
  obtain ⟨e, hfoot, h1, h2, h3⟩ := he _ _ hl (by omega)
  have haddr : s.heap.startAddress + total Chunk.size pre₁ + l.size = header := by omega
  rw [haddr] at hfoot h2
  exact ⟨e, hfoot, by omega, h2, h3⟩

theorem freeLeft_end (h : HeapOk s live (pre ++ blk :: post)) (header : Nat)
    (hheader : header = s.heap.startAddress + total Chunk.size pre) {e : Nat} (hfoot : FooterAt s.mem (header - 16) e)
    (hlow : s.heap.startAddress ≤ e) (hend : e + headerSize s.mem e = header) (hsize : 32 ≤ headerSize s.mem e) :
    ∃ m' header₁ add, freeLeft s (header + 16) = (m', header₁, add) ∧ s.heap.startAddress ≤ header₁ ∧
      header₁ + headerSize m' header₁ = header + blk.size ∧ 32 ≤ headerSize m' header₁ ∧
      Frame s.mem m' fun x => s.heap.startAddress ≤ x ∧ x < header + blk.size := by
  have hp := h.pageHeap
  obtain ⟨hchunk, hcend⟩ := h.rep.chunk
  have htop := h.rep.top
  have hsz := hchunk.size
  rw [← hheader] at hchunk hcend
  obtain ⟨-, -, hl⟩ := freeLeft_eq h.rep hp.low header hheader
  have hsub : sub64 header sizeofHeapFooter = header - 16 :=
    sub64_of_le (by omega) (by unfold sizeofHeapFooter; omega)
  rw [hl]
  have hf := frame_setHeaderIsHole s.mem header 1
  have hhead : HeaderAt (setHeaderIsHole s.mem header 1) header 1 blk.size := hchunk.header.setIsHole (by decide)
  have hfoot₀ := hfoot.frame hf fun x h1 h2 hx => by omega
  have hsize₀ : headerSize (setHeaderIsHole s.mem header 1) e = headerSize s.mem e :=
    hf.read fun x h1 h2 hx => by omega
  generalize setHeaderIsHole s.mem header 1 = m at hf hhead hfoot₀ hsize₀
  unfold freeMergeLeft
  simp only [hsub, hfoot₀.header, hhead.size]
  split_ifs
  · -- the hole named by the footer takes the block in
    have hf₁ := frame_setFooterHeader m (header + blk.size - 16) e
    have hsize₁ : headerSize (setFooterHeader m (header + blk.size - 16) e) e = headerSize m e :=
      hf₁.read fun x h1 h2 hx => by omega
    generalize setFooterHeader m (header + blk.size - 16) e = m₁ at hf₁ hsize₁ ⊢
    have hadd : add64 (headerSize m₁ e) blk.size = header + blk.size - e := by
      rw [hsize₁, hsize₀, add64_of_lt (by omega)]
      omega
    rw [hadd]
    have hf₂ := frame_setHeaderSize m₁ e (header + blk.size - e)
    have hsize₂ := headerSize_setHeaderSize m₁ e (show header + blk.size - e < 2 ^ 64 by omega)
    refine ⟨_, e, false, rfl, hlow, ?_, ?_, ?_⟩
    · rw [hsize₂]
      omega
    · rw [hsize₂]
      omega
    · refine (hf.mono fun x hx => ?_).trans ((hf₁.mono fun x hx => ?_).trans (hf₂.mono fun x hx => ?_))
      · omega
      · omega
      · omega
  · refine ⟨m, header, true, rfl, by omega, ?_, ?_, hf.mono fun x hx => by omega⟩
    · rw [hhead.size]
    · rw [hhead.size]
      exact hsz

theorem freeMergeRight_size (header : Nat) {footer e size : Nat} (he : footer + 16 = e) (hsize : headerSize s.mem e = size)
    (h32 : 32 ≤ size) (htop : e + size < 2 ^ 64) (hr : rightIsHole s.mem e = true) (hlow : header + 16 ≤ e)
    (hadd : headerSize s.mem header + size < 2 ^ 64)
    (hbelow : ∀ x, InSlots s.heap.index s.heap.index.size x → x < header) :
    (freeMergeRight s header footer).2 = e + size - 16 ∧
      headerSize (freeMergeRight s header footer).1.mem header = headerSize s.mem header + size := by
  have hfoot : add64 footer sizeofHeapFooter = e := by
    unfold sizeofHeapFooter
    rw [add64_of_lt (by omega), he]
  have hf₁ := frame_setHeaderSize s.mem header (headerSize s.mem header + size)
  have hsize₁ := headerSize_setHeaderSize s.mem header hadd
  have hread : headerSize (setHeaderSize s.mem header (headerSize s.mem header + size)) e = headerSize s.mem e :=
    hf₁.read fun x h1 h2 hx => by omega
  have hr₁ := hread.trans hsize
  unfold freeMergeRight
  simp only [hfoot, hr, if_true, hsize, add64_of_lt hadd]
  generalize setHeaderSize s.mem header (headerSize s.mem header + size) = m₁ at hsize₁ hr₁ ⊢
  rw [hr₁, ← hsize₁]
  refine ⟨?_, ?_⟩
  · rw [add64_of_lt htop, sub64_of_le htop (by unfold sizeofHeapFooter; omega)]
    rfl
  · have hit := indexOfHeader_le { s with mem := m₁ } e s.heap.index.size 0
    rw [Nat.zero_add] at hit
    apply (frame_arrayRemove m₁ s.heap.index hit).read
    intro x h1 h2 hx
    have := hbelow x hx
    omega

/-- After both stages: where the joined hole ends with the heap, its size says so. -/
theorem freeRight_end (h : HeapOk s live (pre ++ blk :: post)) (header : Nat)
    (hheader : header = s.heap.startAddress + total Chunk.size pre) (hpost : header + blk.size ≠ s.heap.endAddress)
    {m' : Mem} {header₁ : Nat} {add : Bool} (hleft : freeLeft s (header + 16) = (m', header₁, add))
    (hlow : s.heap.startAddress ≤ header₁) (hend : header₁ + headerSize m' header₁ = header + blk.size)
    (hsize : 32 ≤ headerSize m' header₁)
    (hframe : Frame s.mem m' fun x => s.heap.startAddress ≤ x ∧ x < header + blk.size)
    (hstop : add64 (freeRight s (header + 16)).2 sizeofHeapFooter = s.heap.endAddress) :
    header₁ + headerSize (freeRight s (header + 16)).1.mem header₁ = s.heap.endAddress := by
  obtain ⟨hchunk, hcend⟩ := h.rep.chunk
  have htop := h.rep.top
  have hsz := hchunk.size
  rw [← hheader] at hchunk hcend
  obtain ⟨hf, ht, -⟩ := freeLeft_eq h.rep h.pageHeap.low header hheader
  obtain ⟨r, post, rfl⟩ : ∃ r post', post = r :: post' := by
    cases post with
    | nil =>
        rw [total_nil] at hcend
        exact absurd (by omega) hpost
    | cons r post => exact ⟨r, post, rfl⟩
  rw [total_cons] at hcend
  have hr : ChunkAt s.mem (header + blk.size) r := by
    rw [hheader]
    exact (chunks_cons.mp (chunks_cons.mp (chunks_append.mp h.rep.tiles).2).2).1
  have hrsz := hr.size
  have hr' := hr.header.frame hframe fun x h1 h2 hx => by omega
  have hbelow := h.pageHeap.below
  have hright : freeRight s (header + 16) =
      freeMergeRight { s with mem := m' } header₁ (header + blk.size - 16) := by
    unfold freeRight
    rw [hleft, hf]
  rw [hright] at hstop ⊢
  cases hhole : rightIsHole m' (header + blk.size) with
  | true =>
      obtain ⟨h1, h2⟩ := freeMergeRight_size (s := { s with mem := m' }) header₁
        (show header + blk.size - 16 + 16 = header + blk.size by omega) hr'.size hrsz (by omega) hhole (by omega)
        (by simp only; omega) fun x hx => by have := hbelow x hx; omega
      rw [h1] at hstop
      rw [h2]
      unfold sizeofHeapFooter at hstop
      rw [add64_of_lt (by omega)] at hstop
      simp only
      omega
  | false =>
      rw [freeMergeRight_of_used (s := { s with mem := m' }) header₁ (header + blk.size - 16) (e := header + blk.size)
        (by omega) (by omega) hhole, ht] at hstop
      exact absurd hstop hpost

/-- The last stage: the footer that it writes is the end of the heap after `HeapContract`. -/
theorem shrinkTags_inside {header₁ footer : Nat} (hlow : s.heap.startAddress ≤ header₁)
    (hleast : s.heap.startAddress + heapMinSize ≤ s.heap.endAddress) (htop : s.heap.endAddress < 2 ^ 64)
    (hend : add64 footer sizeofHeapFooter = s.heap.endAddress → header₁ + 16 ≤ s.heap.endAddress ∧
      header₁ + headerSize s.mem header₁ = s.heap.endAddress) : TagsInside s (shrinkTags s header₁ footer) := by
  have hmin : heapMinSize = 0x70000 := rfl
  unfold shrinkTags
  split_ifs with hstop
  · obtain ⟨hin, hsize⟩ := hend hstop
    have hoff : sub64 header₁ s.heap.startAddress = header₁ - s.heap.startAddress := sub64_of_le (by omega) hlow
    have hold : sub64 s.heap.endAddress s.heap.startAddress = s.heap.endAddress - s.heap.startAddress :=
      sub64_of_le htop (by omega)
    obtain ⟨h1, h2⟩ := contractSize_bounds (header₁ - s.heap.startAddress)
    simp only [hoff, hold]
    generalize contractSize (header₁ - s.heap.startAddress) = newLength at h1 h2 ⊢
    rw [sub64_of_le (b := newLength) (by omega) (by omega)]
    have hfoot : sub64 (add64 header₁ (sub64 (headerSize s.mem header₁)
        (s.heap.endAddress - s.heap.startAddress - newLength))) sizeofHeapFooter =
          s.heap.startAddress + newLength - 16 := by
      rw [add64_sub64 (by omega) (by omega), sub64_of_le (by omega) (by unfold sizeofHeapFooter; omega)]
      unfold sizeofHeapFooter
      omega
    rw [hfoot]
    split_ifs
    · intro a ha
      rcases List.mem_pair.mp ha with rfl | rfl
      · omega
      · omega
    · intro a ha
      rw [List.mem_singleton.mp ha]
      omega
  · intro a ha
    cases ha

theorem tagsInside_append {xs ys : List Nat} : TagsInside s (xs ++ ys) ↔ TagsInside s xs ∧ TagsInside s ys := by
  unfold TagsInside
  rw [List.forall_mem_append]

theorem freeTags_addresses (h : HeapOk s live (pre ++ blk :: post)) (header : Nat)
    (hheader : header = s.heap.startAddress + total Chunk.size pre) :
    header + 16 ≠ 0 ∧ sub64 (header + 16) sizeofHeapHeader = header ∧ sub64 header sizeofHeapFooter = header - 16 ∧
      freeFooter s (header + 16) = header + blk.size - 16 ∧
      add64 (header + blk.size - 16) sizeofHeapFooter = header + blk.size := by
  obtain ⟨hchunk, hend⟩ := h.rep.chunk
  have htop := h.rep.top
  have hsz := hchunk.size
  have hlow := h.pageHeap.low
  rw [← hheader] at hend
  obtain ⟨hf, ht, -⟩ := freeLeft_eq h.rep hlow header hheader
  refine ⟨by omega, ?_, ?_, hf, ht⟩
  · unfold sizeofHeapHeader
    rw [sub64_of_le (by omega) (by omega), Nat.add_sub_cancel]
  · exact sub64_of_le (by omega) (by unfold sizeofHeapFooter; omega)

/-- **The tags of a block between two chunks.** -/
theorem freeTags_inside (he : Ended s (pre ++ blk :: post)) (h : HeapOk s live (pre ++ blk :: post)) (header : Nat)
    (hheader : header = s.heap.startAddress + total Chunk.size pre) (hpre : pre ≠ [])
    (hpost : header + blk.size ≠ s.heap.endAddress) : TagsInside s (freeTags s (header + 16)) := by
  obtain ⟨hne, hh, hsub, hf, ht⟩ := freeTags_addresses h header hheader
  obtain ⟨e, hfoot, hlow, hend, hsize⟩ := he.left h header hheader hpre
  obtain ⟨m', header₁, add, hleft, hlow₁, hend₁, hsize₁, hframe₁⟩ :=
    freeLeft_end h header hheader hfoot hlow hend hsize
  have hstop := freeRight_end h header hheader hpost hleft hlow₁ hend₁ hsize₁ hframe₁
  have hsame := sameExtent_freeRight s (header + 16)
  obtain ⟨hchunk, hcend⟩ := h.rep.chunk
  have hsz := hchunk.size
  rw [← hheader] at hcend
  have hright : header + blk.size + 16 ≤ s.heap.endAddress := by
    cases post with
    | nil =>
        rw [total_nil] at hcend
        omega
    | cons r post =>
        have hr := (chunks_cons.mp (chunks_cons.mp (chunks_append.mp h.rep.tiles).2).2).1.size
        rw [total_cons] at hcend
        omega
  have hfoot₀ := hfoot.frame (frame_setHeaderIsHole s.mem header 1) fun x h1 h2 hx => by omega
  unfold freeTags
  rw [if_neg hne]
  simp only [hh, hsub, hf, ht, hleft, hfoot₀.header, tagsInside_append]
  refine ⟨⟨⟨⟨?_, ?_⟩, ?_⟩, ?_⟩, ?_⟩
  · intro a ha
    rcases List.mem_pair.mp ha with rfl | rfl
    · omega
    · omega
  · intro a ha
    split_ifs at ha
    · rw [List.mem_singleton.mp ha]
      omega
    · cases ha
  · intro a ha
    split_ifs at ha
    · rw [List.mem_singleton.mp ha]
      omega
    · cases ha
  · intro a ha
    rw [List.mem_singleton.mp ha]
    omega
  · generalize freeRight s (header + 16) = right at hstop hsame
    have hinside : TagsInside right.1 (shrinkTags right.1 header₁ right.2) := by
      apply shrinkTags_inside
      · rw [hsame.startAddress]
        exact hlow₁
      · rw [hsame.startAddress, hsame.endAddress]
        exact h.least
      · rw [hsame.endAddress]
        exact h.rep.top
      · rw [hsame.endAddress]
        intro hadd
        exact ⟨by omega, hstop hadd⟩
    unfold TagsInside at hinside ⊢
    rwa [hsame.startAddress, hsame.endAddress] at hinside

theorem neighbours_of_inside (h : HeapOk s live (pre ++ blk :: post)) (header : Nat)
    (hheader : header = s.heap.startAddress + total Chunk.size pre) (hin : TagsInside s (freeTags s (header + 16))) :
    header ≠ s.heap.startAddress ∧ header + blk.size ≠ s.heap.endAddress := by
  obtain ⟨hne, hh, hsub, hf, ht⟩ := freeTags_addresses h header hheader
  have hlow := h.pageHeap.low
  unfold freeTags at hin
  rw [if_neg hne] at hin
  simp only [hh, hsub, hf, ht, tagsInside_append] at hin
  obtain ⟨⟨⟨⟨hown, -⟩, -⟩, hright⟩, -⟩ := hin
  have hfoot := hown (header - 16) (by simp)
  have hhead := hright (header + blk.size) (by simp)
  omega

end Block

/-- **The tags that `kfree` touches lie inside the heap exactly where the block is neither the first nor the last chunk**, for
every block that is in use after a run of clean calls. -/
theorem free_tags_inside_iff (m : Mem) (frames : Nat → Nat → Byte) (ops : List HeapOp) (r : HeapRun)
    (hclean : StepsMeet heapStep CleanOp (HeapRun.boot m frames) ops)
    (hrun : run heapStep (HeapRun.boot m frames) ops = some r) (p n : Nat) (hp : (p, n) ∈ r.live) :
    TagsInside r.state (freeTags r.state p) ↔
      p - 16 ≠ r.state.heap.startAddress ∧ rightHeader r.state.mem (p - 16) ≠ r.state.heap.endAddress := by
  obtain ⟨cs, h, he⟩ := ended_run hclean hrun
  obtain ⟨pre, blk, post, rfl, -, rfl⟩ := h.block hp
  rw [Nat.add_sub_cancel]
  obtain ⟨hright, -, -⟩ := h.rightChunk _ rfl
  rw [hright]
  constructor
  · exact neighbours_of_inside h _ rfl
  · rintro ⟨hfirst, hlast⟩
    apply freeTags_inside he h _ rfl _ hlast
    rintro rfl
    exact hfirst rfl

theorem free_tags_inside_second : ∃ r, run heapStep (HeapRun.boot (fun _ => 0) fun _ _ => 0)
    [.kmalloc 1 16, .kmalloc 1 16, .kmalloc 1 16] = some r ∧ TagsInside r.state (freeTags r.state 0x100000101040) := by
  have hrun : (run heapStep zeroHeap [.kmalloc 1 16, .kmalloc 1 16, .kmalloc 1 16]).map (fun r => (r.live,
      r.state.heap.startAddress, r.state.heap.endAddress, rightHeader r.state.mem 0x100000101030)) =
        some ([(0x100000101070, 16), (0x100000101040, 16), (0x100000101010, 16)], 0x100000101000, 0x100010000000,
          0x100000101060) := by decide +kernel
  obtain ⟨r, hr, heq⟩ := Option.map_eq_some_iff.mp hrun
  simp only [Prod.mk.injEq] at heq
  obtain ⟨hlive, hstart, hend, hright⟩ := heq
  rw [← boot_zero] at hr
  refine ⟨r, hr, (free_tags_inside_iff _ _ _ r ?_ hr 0x100000101040 16 ?_).mpr ⟨?_, ?_⟩⟩
  · rw [boot_zero]
    decide +kernel
  · rw [hlive]
    simp
  · rw [hstart]
    decide
  · change rightHeader r.state.mem 0x100000101030 ≠ _
    rw [hright, hend]
    decide

/-- The first block: the footer that `kfree` reads below it is not in the heap. -/
theorem free_tags_outside_first : ¬ ∀ (m : Mem) (frames : Nat → Nat → Byte) (ops : List HeapOp) (r : HeapRun),
    run heapStep (HeapRun.boot m frames) ops = some r → ∀ p n, (p, n) ∈ r.live → TagsInside r.state (freeTags r.state p) := by
  intro hall
  have hrun : (run heapStep zeroHeap [.kmalloc 1 16]).map (fun r => (r.live, r.state.heap.startAddress)) =
      some ([(0x100000101010, 16)], 0x100000101000) := by decide +kernel
  obtain ⟨r, hr, heq⟩ := Option.map_eq_some_iff.mp hrun
  simp only [Prod.mk.injEq] at heq
  obtain ⟨hlive, hstart⟩ := heq
  rw [← boot_zero] at hr
  have hin := hall _ _ _ r hr 0x100000101010 16 (by rw [hlive]; simp)
  obtain ⟨cs, h⟩ := heapOk_run (by rw [boot_zero]; decide +kernel) hr
  have hp : (0x100000101010, 16) ∈ r.live := by
    rw [hlive]
    simp
  obtain ⟨pre, blk, post, rfl, -, hpos⟩ := h.block hp
  rw [hpos] at hin
  have hne := (neighbours_of_inside h _ rfl hin).1
  omega

end Gewodsys.Mem
