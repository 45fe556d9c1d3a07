import Gewodsys.Mem.HeapMerge

/-!
# `HeapAllocate` without a hole

* `heapExpandLoop_spec` : the pages that `HeapExpand` maps, and what it leaves alone;
* `expandSize_spec` : its rounding, for sizes of 32 bits;
* `highestHole_spec` : the hole of highest address;
* `heapGrow_spec` : the heap grows at its end, where the highest hole is the last chunk or there is none.
-/

namespace Gewodsys.Mem
open Gewodsys.Machine Gewodsys.Lib

/-! ## `HeapExpand` -/

theorem heapExpandLoop_heap (size n offset : Nat) (s : HeapState) :
    (heapExpandLoop size n offset s).heap = s.heap ∧ (heapExpandLoop size n offset s).frames = s.frames := by
  induction n generalizing offset s with
  | zero => exact ⟨rfl, rfl⟩
  | succ n ih =>
      rw [heapExpandLoop]
      split_ifs
      · exact ih _ _
      · exact ⟨rfl, rfl⟩

/-- The loop of `HeapExpand` over whole pages: it maps the pages up to `size`, and nothing below them is written. -/
theorem heapExpandLoop_spec (size n offset : Nat) (s : HeapState) (hs : size % 4096 = 0) (ho : offset % 4096 = 0)
    (hstart : s.heap.startAddress % 4096 = 0) (htop : s.heap.startAddress + size < 2 ^ 64)
    (hn : size ≤ offset + 4096 * n) :
    (heapExpandLoop size n offset s).mapped = s.mapped + (size - offset) / 4096 ∧
      Frame s.mem (heapExpandLoop size n offset s).mem fun x => s.heap.startAddress + offset ≤ x := by
  induction n generalizing offset s with
  | zero =>
      rw [heapExpandLoop]
      refine ⟨?_, Frame.refl _ _⟩
      rw [show size - offset = 0 by omega]
      omega
  | succ n ih =>
      rw [heapExpandLoop]
      split_ifs with hlt
      · have hpage : add64 offset pageSize = offset + 4096 := add64_of_lt (by unfold pageSize; omega)
        have haddr : add64 s.heap.startAddress offset = s.heap.startAddress + offset := add64_of_lt (by omega)
        rw [hpage, haddr]
        set s₁ := mapNewPage s (s.heap.startAddress + offset) with hs₁
        have hf : Frame s.mem s₁.mem fun x => s.heap.startAddress + offset ≤ x := by
          intro x hx
          have hdown : (s.heap.startAddress + offset) / 4096 * 4096 = s.heap.startAddress + offset := by omega
          simp only [hs₁, mapNewPage, hdown]
          rw [if_neg (by omega)]
        obtain ⟨hm, hframe⟩ := ih (offset + 4096) s₁ (by omega) hstart htop (by omega)
        refine ⟨?_, hf.trans (hframe.mono fun x hx => ?_)⟩
        · rw [hm, show s₁.mapped = s.mapped + 1 from rfl, show size - offset = size - (offset + 4096) + 4096 by omega]
          omega
        · change s.heap.startAddress + (offset + 4096) ≤ x at hx
          omega
      · refine ⟨?_, Frame.refl _ _⟩
        rw [show size - offset = 0 by omega]
        omega

theorem land_expand (size : Nat) : size &&& 0xFFFFF000 = size % 2 ^ 32 / 4096 * 4096 := by
  rw [show (0xFFFFF000 : Nat) = 2 ^ 32 - 2 ^ 12 from rfl, land_mask size 12 32 (by decide)]
  norm_num

theorem expandSize_spec {size : Nat} (hlow : 0x1000 ≤ size) (htop : size < 2 ^ 32) :
    expandSize size = size / 4096 * 4096 + 4096 := by
  unfold expandSize
  rw [land_expand, if_pos (by omega)]
  omega

theorem heapExpand_pages (s : HeapState) {size G : Nat} (hG : expandSize size = G) (hpage : G % 4096 = 0)
    (hstart : s.heap.startAddress % 4096 = 0) (hend : s.heap.endAddress % 4096 = 0)
    (hle : s.heap.startAddress ≤ s.heap.endAddress) (htop : s.heap.endAddress < 2 ^ 64)
    (hmax : s.heap.startAddress + G < 2 ^ 64) :
    ∃ m' k, heapExpand s size =
        { s with
          mem := m', mapped := k,
          heap := { s.heap with endAddress := s.heap.startAddress + G } } ∧
      k = s.mapped + (G - (s.heap.endAddress - s.heap.startAddress)) / 4096 ∧
      Frame s.mem m' fun x => s.heap.endAddress ≤ x := by
  have hold : sub64 s.heap.endAddress s.heap.startAddress = s.heap.endAddress - s.heap.startAddress :=
    sub64_of_le htop hle
  obtain ⟨hm, hf⟩ := heapExpandLoop_spec G G (s.heap.endAddress - s.heap.startAddress) s hpage (by omega) hstart
    hmax (by omega)
  obtain ⟨hheap, hframes⟩ := heapExpandLoop_heap G G (s.heap.endAddress - s.heap.startAddress) s
  refine ⟨_, _, ?_, hm, hf.mono fun x hx => by omega⟩
  unfold heapExpand
  rw [hG, hold]
  simp only [HeapState.setEnd, hheap, add64_of_lt hmax, hframes]

/-! ## The hole of highest address -/

theorem highestFrom_spec (s : HeapState) (n i : Nat) (idx : Option Nat) (value : Nat)
    (hidx : ∀ k, idx = some k → k < i ∧ arrayGet s.mem s.heap.index k = value) (hnone : idx = none → value = 0) :
    (∀ k, highestFrom s n i idx value = some k → k < i + n ∧ value ≤ arrayGet s.mem s.heap.index k ∧
        ∀ j, i ≤ j → j < i + n → arrayGet s.mem s.heap.index j ≤ arrayGet s.mem s.heap.index k) ∧
      (highestFrom s n i idx value = none → value = 0 ∧
        ∀ j, i ≤ j → j < i + n → arrayGet s.mem s.heap.index j = 0) := by
  induction n generalizing i idx value with
  | zero =>
      rw [highestFrom]
      refine ⟨fun k hk => ?_, fun hk => ⟨hnone hk, fun j h1 h2 => by omega⟩⟩
      obtain ⟨h1, h2⟩ := hidx k hk
      exact ⟨by omega, by omega, fun j h3 h4 => by omega⟩
  | succ n ih =>
      rw [highestFrom]
      split_ifs with hgt
      · obtain ⟨h1, h2⟩ := ih (i + 1) (some i) (arrayGet s.mem s.heap.index i)
          (fun k hk => by rw [← Option.some.inj hk]; exact ⟨by omega, rfl⟩) (fun h => by cases h)
        refine ⟨fun k hk => ?_, fun hk => ?_⟩
        · obtain ⟨h3, h4, h5⟩ := h1 k hk
          refine ⟨by omega, by omega, fun j h6 h7 => ?_⟩
          by_cases hj : j = i
          · rw [hj]
            exact h4
          · exact h5 j (by omega) (by omega)
        · have := (h2 hk).1
          omega
      · obtain ⟨h1, h2⟩ := ih (i + 1) idx value
          (fun k hk => ⟨by have := (hidx k hk).1; omega, (hidx k hk).2⟩) hnone
        refine ⟨fun k hk => ?_, fun hk => ?_⟩
        · obtain ⟨h3, h4, h5⟩ := h1 k hk
          refine ⟨by omega, h4, fun j h6 h7 => ?_⟩
          by_cases hj : j = i
          · rw [hj]
            omega
          · exact h5 j (by omega) (by omega)
        · obtain ⟨h3, h4⟩ := h2 hk
          refine ⟨h3, fun j h6 h7 => ?_⟩
          by_cases hj : j = i
          · rw [hj]
            omega
          · exact h4 j (by omega) (by omega)

/-- **The hole of highest address**, and none when no header but `0` is in the index. -/
theorem highestHole_spec (s : HeapState) :
    (∀ k, highestHole s = some k → k < s.heap.index.size ∧
        ∀ e ∈ contents s.mem s.heap.index, e ≤ arrayGet s.mem s.heap.index k) ∧
      (highestHole s = none → ∀ e ∈ contents s.mem s.heap.index, e = 0) := by
  obtain ⟨h1, h2⟩ := highestFrom_spec s s.heap.index.size 0 none 0
    (fun k hk => by cases hk) (fun _ => rfl)
  refine ⟨fun k hk => ?_, fun hk e he => ?_⟩
  · obtain ⟨h3, -, h5⟩ := h1 k hk
    refine ⟨by omega, fun e he => ?_⟩
    obtain ⟨j, hj, rfl⟩ := List.mem_map.mp he
    have := List.mem_range.mp hj
    exact h5 j (Nat.zero_le j) (by omega)
  · obtain ⟨j, hj, rfl⟩ := List.mem_map.mp he
    have := List.mem_range.mp hj
    exact (h2 hk).2 j (Nat.zero_le j) (by omega)

/-! ## Growing -/

/-- The geometry of a heap made of whole pages, with its index below it. -/
structure PageHeap (s : HeapState) : Prop where
  low : 16 ≤ s.heap.startAddress
  start : s.heap.startAddress % 4096 = 0
  stop : s.heap.endAddress % 4096 = 0
  least : s.heap.startAddress + heapMinSize ≤ s.heap.endAddress
  far : s.heap.startAddress + 2 ^ 33 < 2 ^ 64
  below : ∀ x, InSlots s.heap.index s.heap.index.size x → x < s.heap.startAddress

/-- The length that the heap has after growing for `size` bytes. -/
def grownLength (s : HeapState) (size : Nat) : Nat :=
  (s.heap.endAddress - s.heap.startAddress + (size + 32)) / 4096 * 4096 + 4096

theorem lt_grownLength (s : HeapState) (size : Nat) :
    s.heap.endAddress - s.heap.startAddress + (size + 32) < grownLength s size := by
  unfold grownLength
  omega

/-- The heap right after `HeapExpand`. -/
def grownState (s : HeapState) (m' : Mem) (k size : Nat) : HeapState :=
  { s with
    mem := m', mapped := k, heap := { s.heap with endAddress := s.heap.startAddress + grownLength s size } }

/-- `heapGrow` up to the choice of the hole, where `HeapExpand` makes a length `G` of whole pages. -/
theorem heapGrow_pages {s : HeapState} (hp : PageHeap s) (htop : s.heap.endAddress < 2 ^ 64) {size G : Nat}
    (hG : expandSize (s.heap.endAddress - s.heap.startAddress + (size + 32)) = G) (hpage : G % 4096 = 0)
    (hsize : s.heap.endAddress - s.heap.startAddress + (size + 32) ≤ G) (hmax : s.heap.startAddress + G < 2 ^ 64) :
    ∃ m' k, (Frame s.mem m' fun x => s.heap.endAddress ≤ x) ∧
      let s₁ : HeapState := { s with
        mem := m', mapped := k, heap := { s.heap with endAddress := s.heap.startAddress + G } }
      let d := G - (s.heap.endAddress - s.heap.startAddress)
      heapGrow s (size + 32) = match highestHole s₁ with
        | none => HeapState.arrayInsert { s₁ with mem := tags m' s.heap.endAddress 1 d } s.heap.endAddress
        | some idx =>
            let header := arrayGet m' s.heap.index idx
            let size := add64 (headerSize m' header) d
            { s₁ with
              mem := writeFooter (setHeaderSize m' header size) (sub64 (add64 header size) sizeofHeapFooter) header } := by
  have hleast := hp.least
  have hold : sub64 s.heap.endAddress s.heap.startAddress = s.heap.endAddress - s.heap.startAddress :=
    sub64_of_le htop (by omega)
  obtain ⟨m', k, hexp, -, hf⟩ := heapExpand_pages s hG hpage hp.start hp.stop (by omega) htop hmax
  have hadd : add64 (s.heap.endAddress - s.heap.startAddress) (size + 32) =
      s.heap.endAddress - s.heap.startAddress + (size + 32) := add64_of_lt (by omega)
  have hnew : sub64 (s.heap.startAddress + G) s.heap.startAddress = G := by
    rw [sub64_of_le (by omega) (by omega)]
    omega
  have hd : sub64 G (s.heap.endAddress - s.heap.startAddress) = G - (s.heap.endAddress - s.heap.startAddress) :=
    sub64_of_le (by omega) (by omega)
  have hfoot : sub64 (add64 s.heap.endAddress (G - (s.heap.endAddress - s.heap.startAddress))) sizeofHeapFooter =
      s.heap.endAddress + (G - (s.heap.endAddress - s.heap.startAddress)) - 16 := by
    rw [add64_of_lt (by omega), sub64_of_le (by omega) (by unfold sizeofHeapFooter; omega)]
    rfl
  refine ⟨m', k, hf, ?_⟩
  unfold heapGrow
  simp only [hold, hadd, hexp, hnew, hd]
  cases highestHole { s with
      mem := m', mapped := k, heap := { s.heap with endAddress := s.heap.startAddress + G } } with
  | none =>
      simp only [hfoot]
      rfl
  | some idx => rfl

theorem heapGrow_eq {s : HeapState} (hp : PageHeap s) (htop : s.heap.endAddress < 2 ^ 64) {size : Nat}
    (hsize : s.heap.endAddress - s.heap.startAddress + (size + 32) < 2 ^ 32) :
    ∃ m' k, (Frame s.mem m' fun x => s.heap.endAddress ≤ x) ∧
      let s₁ := grownState s m' k size
      let d := grownLength s size - (s.heap.endAddress - s.heap.startAddress)
      heapGrow s (size + 32) = match highestHole s₁ with
        | none => HeapState.arrayInsert { s₁ with mem := tags m' s.heap.endAddress 1 d } s.heap.endAddress
        | some idx =>
            let header := arrayGet m' s.heap.index idx
            let size := add64 (headerSize m' header) d
            { s₁ with
              mem := writeFooter (setHeaderSize m' header size) (sub64 (add64 header size) sizeofHeapFooter) header } := by
  have hmin : heapMinSize = 0x70000 := rfl
  have hleast := hp.least
  have hfar := hp.far
  have hG := expandSize_spec (by omega) hsize
  have hlen : grownLength s size = (s.heap.endAddress - s.heap.startAddress + (size + 32)) / 4096 * 4096 + 4096 := rfl
  exact heapGrow_pages hp htop (hG.trans hlen.symm) (by omega) (by omega) (by omega)

theorem contents_grown {s : HeapState} (hp : PageHeap s) {m' : Mem} (hf : Frame s.mem m' fun x => s.heap.endAddress ≤ x) :
    contents m' s.heap.index = contents s.mem s.heap.index := by
  apply contents_congr hf
  intro x hx hx'
  have := hp.below x hx
  have := hp.least
  omega

theorem heapGrow_new {s : HeapState} {cs : List Chunk} (h : HeapRep s cs) (hp : PageHeap s) {size : Nat}
    (hsize : s.heap.endAddress - s.heap.startAddress + (size + 32) < 2 ^ 32) (hempty : s.heap.index.size = 0)
    (hroom : ∀ x, InSlots s.heap.index (s.heap.index.size + 1) x → x < s.heap.startAddress) :
    let d := grownLength s size - (s.heap.endAddress - s.heap.startAddress)
    let s' := heapGrow s (size + 32)
    HeapRep s' (cs ++ [⟨d, none, true⟩]) ∧ SameBase s s' ∧
      s'.heap.endAddress = s.heap.startAddress + grownLength s size ∧
      Frame s.mem s'.mem (fun x => s.heap.endAddress ≤ x ∨ InSlots s.heap.index (s.heap.index.size + 1) x) := by
  intro d s'
  have hmin : heapMinSize = 0x70000 := rfl
  have hleast := hp.least
  have hlt := lt_grownLength s size
  have htop := h.top
  have hfar := hp.far
  have hG : grownLength s size < 2 ^ 33 := by
    unfold grownLength
    omega
  have hfits := h.fits
  obtain ⟨m', k, hf, heq⟩ := heapGrow_eq hp htop hsize
  have hcont := contents_grown hp hf
  set s₁ := grownState s m' k size with hs₁
  have hnone : highestHole s₁ = none := by
    unfold highestHole
    rw [show s₁.heap.index.size = s.heap.index.size from rfl, hempty]
    rfl
  have hs' : s' = HeapState.arrayInsert { s₁ with mem := tags m' s.heap.endAddress 1 d } s.heap.endAddress := by
    change heapGrow s (size + 32) = _
    rw [heq, hnone]
  have hd : 32 ≤ d := by omega
  set m₂ := tags m' s.heap.endAddress 1 d
  have hf₂ : Frame m' m₂ fun x => s.heap.endAddress ≤ x ∧ x < s.heap.endAddress + d := frame_tags m' _ _ _ hd
  have hmem : s'.mem = (Lib.arrayInsert m₂ s.heap.index s.heap.endAddress).1 := by rw [hs']; rfl
  have hf₃ : Frame m₂ s'.mem (InSlots s.heap.index (s.heap.index.size + 1)) := by
    rw [hmem]
    exact frame_arrayInsert m₂ s.heap.index _
  have hchunks : Chunks m₂ s.heap.startAddress (cs ++ [⟨d, none, true⟩]) := by
    rw [chunks_append, hfits]
    refine ⟨?_, chunks_cons.mpr ⟨?_, chunks_nil _ _⟩⟩
    · refine (h.tiles.frame hf ?_).frame hf₂ ?_
      · intro x h1 h2 hx
        omega
      · intro x h1 h2 hx
        omega
    · refine chunkAt_tags m' (c := ⟨d, none, true⟩) hd ?_ fun n hn => (by cases hn)
      change s.heap.endAddress + d < 2 ^ 64
      omega
  have hlen : (Lib.arrayInsert m₂ s.heap.index s.heap.endAddress).2.size = s.heap.index.size + 1 :=
    arrayInsert_size m₂ s.heap.index s.heap.endAddress (by omega)
  rw [hs']
  refine ⟨⟨?_, ?_, ?_, ?_, ?_⟩, ⟨rfl, rfl, rfl, rfl, rfl⟩, rfl, ?_⟩
  · rw [← hs', show s'.heap.startAddress = s.heap.startAddress by rw [hs']; rfl]
    refine hchunks.frame hf₃ ?_
    intro x h1 h2 hx
    have := hroom x hx
    omega
  · change s.heap.startAddress + total Chunk.size (cs ++ [⟨d, none, true⟩]) =
      s.heap.startAddress + grownLength s size
    simp only [total_append, total_cons, total_nil]
    omega
  · have hperm := perm_arrayInsert m₂ s.heap.index htop (by omega)
    refine hperm.trans ?_
    have hcont₂ : contents m₂ s.heap.index = contents m' s.heap.index := by
      apply contents_congr hf₂
      intro x hx hx'
      have := hp.below x hx
      omega
    rw [hcont₂, hcont]
    change List.Perm _ (holes s.heap.startAddress (cs ++ [⟨d, none, true⟩]))
    rw [holes_append, hfits, holes_cons, if_pos rfl, holes_nil, List.append_nil]
    exact (h.index.cons _).trans (List.perm_append_singleton _ _).symm
  · intro x hx
    left
    change s.heap.index.array ≤ x ∧
      x < s.heap.index.array + 8 * (Lib.arrayInsert m₂ s.heap.index s.heap.endAddress).2.size at hx
    rw [hlen] at hx
    exact hroom x hx
  · change s.heap.startAddress + grownLength s size < 2 ^ 64
    omega
  · rw [← hs']
    refine (hf.mono fun x hx => Or.inl (by omega)).trans ((hf₂.mono fun x hx => Or.inl (by omega)).trans ?_)
    exact hf₃.mono fun x hx => Or.inr hx

/-- Growing where the highest hole is the last chunk: that hole grows. -/
theorem heapGrow_last {s : HeapState} {pre : List Chunk} {c : Chunk} (h : HeapRep s (pre ++ [c])) (hc : c.use = none)
    (hp : PageHeap s) {size : Nat} (hsize : s.heap.endAddress - s.heap.startAddress + (size + 32) < 2 ^ 32) :
    let d := grownLength s size - (s.heap.endAddress - s.heap.startAddress)
    let s' := heapGrow s (size + 32)
    HeapRep s' (pre ++ [⟨c.size + d, none, true⟩]) ∧ SameBase s s' ∧
      s'.heap.endAddress = s.heap.startAddress + grownLength s size ∧ s'.heap.index.size = s.heap.index.size ∧
      Frame s.mem s'.mem (fun x => s.heap.startAddress + total Chunk.size pre ≤ x) := by
  intro d s'
  have hmin : heapMinSize = 0x70000 := rfl
  have hleast := hp.least
  have hlt := lt_grownLength s size
  have htop := h.top
  have hfar := hp.far
  have hG : grownLength s size < 2 ^ 33 := by
    unfold grownLength
    omega
  have hfits := h.fits
  obtain ⟨hchunk, hend⟩ := h.chunk
  have hsz := hchunk.size
  rw [total_nil] at hend
  obtain ⟨m', k, hf, heq⟩ := heapGrow_eq hp htop hsize
  have hcont := contents_grown hp hf
  set s₁ := grownState s m' k size with hs₁
  set header := s.heap.startAddress + total Chunk.size pre with hheader
  -- the highest hole is `c`
  have hmem : header ∈ contents m' s.heap.index := by
    rw [hcont]
    exact h.hole_mem hc
  have hmax : ∀ e ∈ contents m' s.heap.index, e ≤ header := by
    intro e he
    rw [hcont] at he
    obtain ⟨b, -, hb⟩ := mem_holes.mp (h.index.subset he)
    have hbsz := (h.tiles _ hb).size
    have hbounds := placed_bounds Chunk.size hb
    rw [placed_append, List.mem_append] at hb
    rcases hb with hb | hb
    · have := placed_bounds Chunk.size hb
      simp only at this
      omega
    · rw [placed_cons, placed_nil, List.mem_singleton, Prod.mk.injEq] at hb
      omega
  obtain ⟨idx, hidx, hget⟩ : ∃ idx, highestHole s₁ = some idx ∧ arrayGet m' s.heap.index idx = header := by
    obtain ⟨hsome, hno⟩ := highestHole_spec s₁
    cases hh : highestHole s₁ with
    | none =>
        have := hno hh header hmem
        have := hp.low
        omega
    | some idx =>
        obtain ⟨h1, h2⟩ := hsome idx hh
        have h3 := hmax _ (arrayGet_mem_contents m' s.heap.index h1)
        have h4 : header ≤ arrayGet m' s.heap.index idx := h2 header hmem
        exact ⟨idx, rfl, by omega⟩
  have hhead : HeaderAt m' header c.isHole c.size := hchunk.header.frame hf fun x h1 h2 hx => by omega
  have hs' : s' = { s₁ with
      mem := writeFooter (setHeaderSize m' header (c.size + d)) (header + (c.size + d) - 16) header } := by
    change heapGrow s (size + 32) = _
    rw [heq, hidx]
    simp only [hget, hhead.size]
    rw [add64_of_lt (a := c.size) (by omega), add64_of_lt (by omega),
      sub64_of_le (by omega) (by unfold sizeofHeapFooter; omega)]
    rfl
  set m₁ := setHeaderSize m' header (c.size + d)
  set m₂ := writeFooter m₁ (header + (c.size + d) - 16) header
  have hf₁ : Frame m' m₁ fun x => header + 8 ≤ x ∧ x < header + 16 := frame_setHeaderSize m' _ _
  have hf₂ : Frame m₁ m₂ fun x => header + (c.size + d) - 16 ≤ x ∧ x < header + (c.size + d) :=
    (frame_writeFooter m₁ _ _).mono fun x hx => by omega
  have hf₁₂ : Frame m' m₂ fun x => header ≤ x :=
    (hf₁.mono fun x hx => by omega).trans (hf₂.mono fun x hx => by omega)
  have hgrown : ChunkAt m₂ header ⟨c.size + d, none, true⟩ := by
    refine ⟨?_, fun _ => footerAt_writeFooter m₁ (by omega), ?_, fun n hn => (by cases hn)⟩
    · have := (hhead.setSize (c.size + d) (by omega)).frame hf₂ fun x h1 h2 hx => by omega
      rwa [(isHole_eq_one_iff c).mpr hc] at this
    · change 32 ≤ c.size + d
      omega
  have hcont₂ : contents m₂ s.heap.index = contents m' s.heap.index := by
    apply contents_congr hf₁₂
    intro x hx hx'
    have := hp.below x hx
    omega
  rw [hs']
  refine ⟨⟨?_, ?_, ?_, ?_, ?_⟩, ⟨rfl, rfl, rfl, rfl, rfl⟩, rfl, rfl, ?_⟩
  · change Chunks m₂ s.heap.startAddress (pre ++ [⟨c.size + d, none, true⟩])
    rw [chunks_append]
    refine ⟨?_, chunks_cons.mpr ⟨hgrown, chunks_nil _ _⟩⟩
    refine ((chunks_append.mp h.tiles).1.frame hf ?_).frame hf₁₂ ?_
    · intro x h1 h2 hx
      omega
    · intro x h1 h2 hx
      omega
  · change s.heap.startAddress + total Chunk.size (pre ++ [⟨c.size + d, none, true⟩]) =
      s.heap.startAddress + grownLength s size
    simp only [total_append, total_cons, total_nil] at hfits ⊢
    omega
  · change (contents m₂ s.heap.index).Perm (holes s.heap.startAddress (pre ++ [⟨c.size + d, none, true⟩]))
    rw [hcont₂, hcont]
    have hidx' := h.index
    rw [holes_append, holes_cons, if_pos hc, holes_nil] at hidx'
    rw [holes_append, holes_cons, if_pos rfl, holes_nil]
    exact hidx'
  · intro x hx
    exact Or.inl (hp.below x hx)
  · change s.heap.startAddress + grownLength s size < 2 ^ 64
    omega
  · exact (hf.mono fun x hx => by omega).trans (hf₁₂.mono fun x hx => by omega)

end Gewodsys.Mem
