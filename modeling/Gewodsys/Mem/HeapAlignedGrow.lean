import Gewodsys.Mem.HeapAligned

/-!
# Page-aligned blocks of a heap that grows

* `alignedPos` : the hole that the block is cut from; where none fits, the one of highest address, which grows;
* `AlignedMeets` : the call returns, with the heap in order; `AlignedRoom` : the condition, on the state before it;
* `lastAsked` : the length that the last call of `HeapExpand` is asked for;
* `Tracked` : the hole that grows is the only one that can fit; `Tracked.grow` : a growth keeps that, also in a heap whose
  highest hole is not its last chunk;
* `not_alignedOk_of_inner` : in such a heap no block can be cut from what has grown over the blocks behind;
* `aligned_ok_iff` : the call does what it is for exactly where `AlignedRoom`.
-/

namespace Gewodsys.Mem
open Gewodsys.Machine Gewodsys.Lib

/-! ## The condition -/

/-- The header of the hole that the block is cut from. -/
def alignedPos (s : HeapState) (size : Nat) : Nat :=
  match heapFindSmallestHole s (add64 (add64 size sizeofHeapHeader) sizeofHeapFooter) 1 with
  | some iterator => arrayGet s.mem s.heap.index iterator
  | none =>
      match highestHole s with
      | some idx => arrayGet s.mem s.heap.index idx
      | none => s.heap.endAddress

/-- The call returns a block of the hole at `pos`, with the heap in order. -/
def MeetsAt (pos : Nat) (s : HeapState) (live : List (Nat × Nat)) (size : Nat) : Prop :=
  ∃ fuel r cs', heapAllocate fuel s size 1 = some r ∧ AlignedOk pos live size r cs'

def AlignedMeets (s : HeapState) (live : List (Nat × Nat)) (size : Nat) : Prop :=
  MeetsAt (alignedPos s size) s live size

/-- What the heap grows by: whole pages, one more than the block needs. -/
def growth (size : Nat) : Nat := (size + 32) / 4096 * 4096 + 4096

/-- The size of the hole at `pos` once it is found: it grows a second time where the search, which does not count the bytes
before the page boundary, still does not find it. -/
def grownHole (pos holeSize size : Nat) : Nat :=
  if size + 32 + searchOffset pos ≤ holeSize + growth size then holeSize + growth size
  else holeSize + growth size + growth size

/-- The tags of the gap and of the rest fit in the hole that is found; where none is, the hole of highest address is the last
chunk, or there is no hole, and they fit in that hole after it has grown. -/
def AlignedRoom (s : HeapState) (size : Nat) : Prop :=
  match heapFindSmallestHole s (add64 (add64 size sizeofHeapHeader) sizeofHeapFooter) 1 with
  | some iterator => AlignedFits (arrayGet s.mem s.heap.index iterator)
      (headerSize s.mem (arrayGet s.mem s.heap.index iterator)) size
  | none =>
      match highestHole s with
      | some idx =>
          let pos := arrayGet s.mem s.heap.index idx
          pos + headerSize s.mem pos = s.heap.endAddress ∧
            AlignedFits pos (grownHole pos (headerSize s.mem pos) size) size
      | none => AlignedFits s.heap.endAddress (grownHole s.heap.endAddress 0 size) size

/-- The length that the call asks `HeapExpand` for last, where the search finds no hole. -/
def lastAsked (s : HeapState) (size : Nat) : Nat :=
  let grown := (highestHole s).elim (grownHole s.heap.endAddress 0 size) fun idx =>
    let pos := arrayGet s.mem s.heap.index idx
    grownHole pos (headerSize s.mem pos) size - headerSize s.mem pos
  s.heap.endAddress - s.heap.startAddress + (grown - growth size) + (size + 32)

variable {s s' : HeapState} {live : List (Nat × Nat)} {cs cs' pre post : List Chunk} {c : Chunk} {size pos e H : Nat}

theorem growth_page (size : Nat) : growth size % 4096 = 0 ∧ size + 32 < growth size ∧ growth size ≤ size + 32 + 4096 := by
  unfold growth
  omega

theorem meetsAt_of_find {iterator : Nat}
    (hfind : heapFindSmallestHole s (add64 (add64 size sizeofHeapHeader) sizeofHeapFooter) 1 = some iterator) :
    MeetsAt pos s live size ↔ ∃ cs', AlignedOk pos live size
      (heapCarve s iterator size (add64 (add64 size sizeofHeapHeader) sizeofHeapFooter) 1) cs' := by
  have hcall : ∀ fuel, heapAllocate (fuel + 1) s size 1 =
      some (heapCarve s iterator size (add64 (add64 size sizeofHeapHeader) sizeofHeapFooter) 1) := by
    intro fuel
    rw [heapAllocate]
    simp only [hfind]
  constructor
  · rintro ⟨fuel, r, cs', hr, hok⟩
    have hr' := heapAllocate_succ hr
    rw [hcall] at hr'
    rw [← Option.some.inj hr'] at hok
    exact ⟨cs', hok⟩
  · rintro ⟨cs', hok⟩
    exact ⟨1, _, cs', hcall 0, hok⟩

/-- The call without one is the call on the heap that has grown. -/
theorem meetsAt_of_grow (hsize : size < 2 ^ 32) (hnone : heapFindSmallestHole s (size + 32) 1 = none) :
    MeetsAt pos s live size ↔ MeetsAt pos (heapGrow s (size + 32)) live size := by
  rw [← newSize_eq hsize] at hnone ⊢
  have hcall : ∀ fuel, heapAllocate (fuel + 1) s size 1 =
      heapAllocate fuel (heapGrow s (add64 (add64 size sizeofHeapHeader) sizeofHeapFooter)) size 1 := by
    intro fuel
    rw [heapAllocate]
    simp only [hnone]
  constructor
  · rintro ⟨fuel, r, cs', hr, hok⟩
    have hr' := heapAllocate_succ hr
    rw [hcall] at hr'
    exact ⟨fuel, r, cs', hr', hok⟩
  · rintro ⟨fuel, r, cs', hr, hok⟩
    exact ⟨fuel + 1, r, cs', (hcall fuel).trans hr, hok⟩

theorem meetsAt_iff_of_find (h : HeapOk s live (pre ++ c :: post)) (hfoot : Footed (pre ++ c :: post))
    (hc : c.use = none) {iterator : Nat}
    (hfind : heapFindSmallestHole s (add64 (add64 size sizeofHeapHeader) sizeofHeapFooter) 1 = some iterator)
    (hpos : arrayGet s.mem s.heap.index iterator = s.heap.startAddress + total Chunk.size pre)
    (hhigh : s.heap.startAddress + total Chunk.size pre + 16 < heapAddr + 2 ^ 32) (htop : s.heap.endAddress < 2 ^ 63) :
    MeetsAt (s.heap.startAddress + total Chunk.size pre) s live size ↔
      AlignedFits (s.heap.startAddress + total Chunk.size pre) c.size size := by
  have hst := h.start
  obtain ⟨hit, hfits⟩ := find_fits hfind
  have hne := land_ne_zero (show heapStart ≤ s.heap.startAddress + total Chunk.size pre by omega) (by omega)
  have hne' := land_ne_zero (show heapStart ≤ s.heap.startAddress + total Chunk.size pre + 16 by omega) hhigh
  rw [meetsAt_of_find hfind]
  constructor
  · rintro ⟨cs', hok⟩
    exact fits_of_alignedOk h hit hpos rfl hne hne' htop (hpos ▸ hfits) hok
  · intro hroom
    obtain ⟨-, hend⟩ := h.rep.chunk
    have hnew : add64 (add64 size sizeofHeapHeader) sizeofHeapFooter = size + 32 := by
      have := hroom.2
      unfold sizeofHeapHeader sizeofHeapFooter
      rw [add64_of_lt (a := size) (by omega), add64_of_lt (by omega)]
    rw [hnew]
    exact alignedOk_of_fits h hfoot hc hpos rfl hne hroom

/-! ## The hole that grows -/

/-- Of the holes of the index only the highest one, `e`, can fit; it has `H` bytes by its header. -/
structure Tracked (s : HeapState) (size e H : Nat) : Prop where
  below : IndexBelow s
  inside : HolesInside s
  start : s.heap.startAddress = heapStart
  page : s.heap.endAddress % 4096 = 0
  mem : e ∈ contents s.mem s.heap.index
  highest : ∀ e' ∈ contents s.mem s.heap.index, e' ≠ e → e' + 16 ≤ e
  hole : headerSize s.mem e = H
  others : ∀ e' ∈ contents s.mem s.heap.index, e' ≠ e → holeFits s.mem e' (size + 32) 1 = false

theorem holeFits_congr {m m' : Mem} {e size : Nat} {align : Int} (h : headerSize m' e = headerSize m e) :
    holeFits m' e size align = holeFits m e size align := by
  unfold holeFits
  rw [h]

theorem tracked_of_heapOk (h : HeapOk s live (pre ++ c :: post)) (hc : c.use = none)
    (hmax : ∀ e' ∈ contents s.mem s.heap.index, e' ≤ s.heap.startAddress + total Chunk.size pre)
    (hnone : heapFindSmallestHole s (size + 32) 1 = none) :
    Tracked s size (s.heap.startAddress + total Chunk.size pre) c.size := by
  obtain ⟨hchunk, hend⟩ := h.rep.chunk
  have hplaced : (s.heap.startAddress + total Chunk.size pre, c) ∈
      placed Chunk.size s.heap.startAddress (pre ++ c :: post) := (mem_placed_iff Chunk.size).mpr ⟨pre, post, rfl, rfl⟩
  refine ⟨h.indexBelow, h.holesInside, h.start, h.stop, h.rep.hole_mem hc, fun e' he' hne => ?_, hchunk.header.size,
    fun e' he' _ => find_none hnone he'⟩
  have hle := hmax e' he'
  obtain ⟨d, -, hd⟩ := mem_holes.mp (h.rep.index.subset he')
  have hdsz := (h.rep.tiles _ hd).size
  have hcsz := hchunk.size
  by_contra hover
  have heq := placed_eq_of_overlap Chunk.size hplaced hd (by simp only at hdsz ⊢; omega) (by simp only; omega)
  exact hne (Prod.mk.inj heq).1.symm

theorem Tracked.grow (h : Tracked s size e H)
    (hlen : s.heap.endAddress - s.heap.startAddress + (size + 32) < 2 ^ 32) :
    Tracked (heapGrow s (size + 32)) size e (H + growth size) ∧ SameBase s (heapGrow s (size + 32)) ∧
      (heapGrow s (size + 32)).heap.endAddress = s.heap.endAddress + growth size := by
  have hst := heapStart_eq
  have hstart := h.start
  have hpage := h.page
  have hstop := h.below.stop
  obtain ⟨hin1, hin2, -⟩ := h.inside e h.mem
  obtain ⟨hgpage, hglt, hgmax⟩ := growth_page size
  obtain ⟨L, hL⟩ : ∃ L, s.heap.endAddress = s.heap.startAddress + L := ⟨_, (Nat.add_sub_cancel' hstop).symm⟩
  have hG : expandSize (L + (size + 32)) = L + growth size := by
    rw [expandSize_spec (by omega) (by omega)]
    unfold growth
    omega
  have hne : s.heap.index.size ≠ 0 := by
    have hlength := List.length_pos_of_mem h.mem
    rw [length_contents] at hlength
    omega
  obtain ⟨e₁, he₁, hmax, hheap, hcont, hhead, hframe⟩ := h.inside.grow_highest h.below hL (by omega) hG (by omega)
    (by omega) hne
  have heq : e₁ = e := by
    by_contra hne'
    have h1 := h.highest e₁ he₁ hne'
    have h2 := hmax e h.mem
    omega
  subst heq
  have hend : (heapGrow s (size + 32)).heap.endAddress = s.heap.endAddress + growth size := by
    rw [hheap]
    simp only
    omega
  have hbase : SameBase s (heapGrow s (size + 32)) := (heapGrow_end s (size + 32)).2
  have hothers : ∀ e' ∈ contents s.mem s.heap.index, e' ≠ e₁ →
      headerSize (heapGrow s (size + 32)).mem e' = headerSize s.mem e' := by
    intro e' he' hne'
    have := h.highest e' he' hne'
    exact hframe.read fun x h1 h2 hx => by omega
  have hindex : (heapGrow s (size + 32)).heap.index = s.heap.index := by rw [hheap]
  refine ⟨⟨?_, fun e' he' => ?_, hbase.startAddress.trans hstart, ?_, ?_, ?_, ?_, ?_⟩, hbase, hend⟩
  · refine ⟨?_, ?_, ?_, ?_, ?_⟩
    · rw [hindex, hbase.startAddress]
      exact h.below.slots
    · rw [hindex]
      exact h.below.size
    · rw [hindex]
      exact h.below.capacity
    · rw [hbase.startAddress, hend]
      omega
    · rw [hend]
      omega
  · rw [hcont] at he'
    obtain ⟨h1, h2, h3⟩ := h.inside e' he'
    rw [hbase.startAddress, hend]
    by_cases hee : e' = e₁
    · subst hee
      rw [hhead]
      omega
    · rw [hothers e' he' hee]
      omega
  · rw [hend]
    omega
  · rw [hcont]
    exact he₁
  · rw [hcont]
    exact h.highest
  · rw [hhead, h.hole]
    omega
  · rw [hcont]
    intro e' he' hne'
    rw [holeFits_congr (hothers e' he' hne')]
    exact h.others e' he' hne'

/-- The search finds the hole that grows, or it does not fit. -/
theorem Tracked.find_some (h : Tracked s size e H) {iterator : Nat}
    (hfind : heapFindSmallestHole s (size + 32) 1 = some iterator) :
    iterator < s.heap.index.size ∧ arrayGet s.mem s.heap.index iterator = e ∧ holeFits s.mem e (size + 32) 1 = true := by
  obtain ⟨hit, hfits⟩ := find_fits hfind
  have heq : arrayGet s.mem s.heap.index iterator = e := by
    by_contra hne
    rw [h.others _ (arrayGet_mem_contents s.mem s.heap.index hit) hne] at hfits
    cases hfits
  rw [heq] at hfits
  exact ⟨hit, heq, hfits⟩

theorem Tracked.fits_iff (h : Tracked s size e H) (hhigh : e + 16 < heapAddr + 2 ^ 32) (hend : s.heap.endAddress < 2 ^ 63)
    (hsize : size < 2 ^ 32) : holeFits s.mem e (size + 32) 1 = true ↔ size + 32 + searchOffset e ≤ H := by
  obtain ⟨h1, -, h3⟩ := h.inside e h.mem
  have hstart := h.start
  rw [holeFits_aligned (land_ne_zero (by omega) hhigh) (by omega) (by omega), h.hole]

/-- What the call finds after it has grown the heap, and that it is the same call there. -/
theorem Tracked.find (h : Tracked s size e H) (hnone : heapFindSmallestHole s (size + 32) 1 = none)
    (hhigh : e + 16 < heapAddr + 2 ^ 32) (hlen : s.heap.endAddress - s.heap.startAddress + (size + 32) < 2 ^ 32)
    (hlen' : ¬ size + 32 + searchOffset e ≤ H + growth size →
      s.heap.endAddress - s.heap.startAddress + growth size + (size + 32) < 2 ^ 32) :
    ∃ s' iterator, Tracked s' size e (grownHole e H size) ∧ SameBase s s' ∧ s'.heap.endAddress < 2 ^ 63 ∧
      heapFindSmallestHole s' (size + 32) 1 = some iterator ∧
      (∀ pos live, MeetsAt pos s live size ↔ MeetsAt pos s' live size) ∧
      ∀ live pre c, HeapOk s live (pre ++ [c]) → c.use = none → c.size = H →
        HeapOk s' live (pre ++ [⟨grownHole e H size, none, true⟩]) := by
  have hst := heapStart_eq
  have hstart := h.start
  have hstop := h.below.stop
  obtain ⟨hgpage, hglt, hgmax⟩ := growth_page size
  have hgrown : ∀ {s : HeapState} {live : List (Nat × Nat)} {pre : List Chunk} {c : Chunk}, HeapOk s live (pre ++ [c]) →
      c.use = none → s.heap.endAddress - s.heap.startAddress + (size + 32) < 2 ^ 32 →
        HeapOk (heapGrow s (size + 32)) live (pre ++ [⟨c.size + growth size, none, true⟩]) := by
    intro s live pre c hok hc hlen
    have hleast := hok.least
    have hstop := hok.stop
    have hpage := hok.pageHeap.start
    have hd : grownLength s size - (s.heap.endAddress - s.heap.startAddress) = growth size := by
      unfold grownLength growth
      omega
    have := (hok.grow_last hc hlen).1
    rwa [hd] at this
  obtain ⟨h₁, hbase₁, hend₁⟩ := h.grow hlen
  have hmeets₁ : ∀ pos live, MeetsAt pos s live size ↔ MeetsAt pos (heapGrow s (size + 32)) live size :=
    fun pos live => meetsAt_of_grow (by omega) hnone
  have hfits₁ := h₁.fits_iff hhigh (by omega) (by omega)
  unfold grownHole
  cases hfind : heapFindSmallestHole (heapGrow s (size + 32)) (size + 32) 1 with
  | some iterator =>
      rw [if_pos (hfits₁.mp (h₁.find_some hfind).2.2)]
      refine ⟨_, iterator, h₁, hbase₁, by omega, hfind, hmeets₁, fun live pre c hok hc hH => ?_⟩
      rw [← hH]
      exact hgrown hok hc hlen
  | none =>
      have hno : ¬ size + 32 + searchOffset e ≤ H + growth size := by
        rw [← hfits₁, find_none hfind h₁.mem]
        exact Bool.false_ne_true
      rw [if_neg hno]
      have hlen₁ : (heapGrow s (size + 32)).heap.endAddress - (heapGrow s (size + 32)).heap.startAddress + (size + 32) <
          2 ^ 32 := by
        rw [hend₁, hbase₁.startAddress]
        have := hlen' hno
        omega
      obtain ⟨h₂, hbase₂, hend₂⟩ := h₁.grow hlen₁
      have hoff : searchOffset e ≤ 4096 := by
        unfold searchOffset
        omega
      have hfits₂ := (h₂.fits_iff hhigh (by omega) (by omega)).mpr (by omega)
      cases hfind₂ : heapFindSmallestHole (heapGrow (heapGrow s (size + 32)) (size + 32)) (size + 32) 1 with
      | none =>
          rw [find_none hfind₂ h₂.mem] at hfits₂
          cases hfits₂
      | some iterator =>
          refine ⟨_, iterator, h₂, hbase₁.trans hbase₂, by omega, hfind₂,
            fun pos live => (hmeets₁ pos live).trans (meetsAt_of_grow (by omega) hfind), fun live pre c hok hc hH => ?_⟩
          have hok₁ := hgrown hok hc hlen
          have hok₂ := hgrown hok₁ rfl hlen₁
          rw [hH] at hok₂
          exact hok₂

/-! ## A hole that grows over blocks -/

theorem HeapRep.used_ne (h : HeapRep s cs) : (used s.heap.startAddress cs).Pairwise fun p q => p.1 ≠ q.1 := by
  unfold used
  rw [List.pairwise_filterMap]
  refine (placed_pairwise Chunk.size s.heap.startAddress cs).imp_of_mem ?_
  rintro ⟨a, c⟩ ⟨b, d⟩ hc hd hlt p hp q hq
  have hsz := (h.tiles _ hc).size
  obtain ⟨n, -, rfl⟩ := Option.map_eq_some_iff.mp hp
  obtain ⟨k, -, rfl⟩ := Option.map_eq_some_iff.mp hq
  simp only at hsz hlt ⊢
  omega

theorem AlignedOk.ne_of_mem {r : Nat × HeapState} (hok : AlignedOk pos live size r cs') {q : Nat × Nat} (hq : q ∈ live) :
    r.1 ≠ q.1 := by
  have hne := (hok.live.pairwise_iff fun h => Ne.symm h).mpr hok.rep.used_ne
  exact (List.pairwise_cons.mp hne).1 q hq

/-- Where the hole that has grown is followed by a block, that block is in the way: in the bytes before it there is no room,
or the hole would not have had to grow. -/
theorem not_alignedOk_of_inner {d : Chunk} {n iterator : Nat} (h : HeapOk s live (pre ++ c :: d :: post))
    (hd : d.use = some n) (hpos : e = s.heap.startAddress + total Chunk.size pre)
    (hno : ¬ size + 32 + searchOffset e ≤ c.size) (ht : Tracked s' size e H)
    (hfind : heapFindSmallestHole s' (size + 32) 1 = some iterator) (hhigh : e + 16 < heapAddr + 2 ^ 32)
    (hend : s'.heap.endAddress < 2 ^ 63) (hsize : size < 2 ^ 32) :
    ¬ AlignedOk e live size (heapCarve s' iterator size (size + 32) 1) cs' := by
  intro hok
  have hst := heapStart_eq
  have hstart := ht.start
  obtain ⟨hchunk, -⟩ := h.rep.chunk
  have hcsz := hchunk.size
  obtain ⟨h1, h2, h3⟩ := ht.inside e ht.mem
  rw [ht.hole] at h3
  obtain ⟨hit, hget, hfits⟩ := ht.find_some hfind
  rw [ht.fits_iff hhigh hend hsize] at hfits
  have hne := land_ne_zero (show heapStart ≤ e by omega) (by omega)
  have hret := heapCarve_aligned_fst hget hne (by omega) (by omega) size (size + 32)
  obtain ⟨b, blk, hb, hblk, hplaced, hroom⟩ := hok.block
  rcases hok.gapSize_eq hret with hpage | ⟨hpage, g, hgmem, hg, hgsz⟩
  · have hslots := ht.below.slots
    have hindex := ht.below.size
    have hcap := ht.below.capacity
    rw [heapIndexSize_eq] at hcap
    refine hok.not_hole (b := e) (by omega) ?_
    apply mem_contents_unaligned hit (by omega) (fun x hx => ?_) hget hne hpage ht.hole h3 hend (by omega)
    unfold InSlots at hx
    omega
  · have hoff : searchOffset e = 4080 - e % 4096 := by
      unfold searchOffset
      omega
    have hgap : gapSize e = 4080 - e % 4096 := rfl
    -- the block behind the old hole
    have hq : (e + c.size + 16, n) ∈ live := by
      refine h.live.symm.subset (mem_used.mpr ⟨e + c.size, d, hd, rfl, ?_⟩)
      refine (mem_placed_iff Chunk.size).mpr ⟨pre ++ [c], post, by simp, ?_⟩
      simp only [total_append, total_cons, total_nil]
      omega
    obtain ⟨d', hd'⟩ := hok.chunk (Or.inl ⟨n, hq⟩)
    have hdsz := (hok.rep.tiles _ hd').size
    have hfresh := hok.ne_of_mem hq
    simp only at hfresh hdsz
    by_cases hlow : e + c.size < b
    · have heq := placed_eq_of_overlap Chunk.size hd' hgmem (by simp only; omega) (by simp only; omega)
      have := (Prod.mk.inj heq).1
      omega
    · have heq := placed_eq_of_overlap Chunk.size hd' hplaced (by simp only; omega) (by simp only; omega)
      have := (Prod.mk.inj heq).1
      omega

/-! ## The call -/

theorem highestHole_eq_some (hmem : e ∈ contents s.mem s.heap.index)
    (hmax : ∀ e' ∈ contents s.mem s.heap.index, e' ≤ e) (hne : e ≠ 0) :
    ∃ idx, highestHole s = some idx ∧ arrayGet s.mem s.heap.index idx = e := by
  obtain ⟨hsome, hnone⟩ := highestHole_spec s
  cases hhole : highestHole s with
  | none => exact absurd (hnone hhole e hmem) hne
  | some idx =>
      obtain ⟨hidx, hle⟩ := hsome idx hhole
      exact ⟨idx, rfl, le_antisymm (hmax _ (arrayGet_mem_contents s.mem s.heap.index hidx)) (hle e hmem)⟩

theorem HeapOk.highest (h : HeapOk s live cs) (hne : s.heap.index.size ≠ 0) : ∃ pre c post, cs = pre ++ c :: post ∧
    c.use = none ∧ ∀ e' ∈ contents s.mem s.heap.index, e' ≤ s.heap.startAddress + total Chunk.size pre := by
  have hlen : 0 < (contents s.mem s.heap.index).length := by
    rw [length_contents]
    omega
  obtain ⟨pre, c, post, hcs, hc, hpos⟩ := h.rep.hole (List.maximum_of_length_pos_mem hlen)
  exact ⟨pre, c, post, hcs, hc, fun e' he' => hpos ▸ List.le_maximum_of_length_pos_of_mem he' hlen⟩

theorem HeapOk.used_behind (h : HeapOk s live (pre ++ c :: post))
    (hmax : ∀ e' ∈ contents s.mem s.heap.index, e' ≤ s.heap.startAddress + total Chunk.size pre) :
    ∀ d ∈ post, d.use ≠ none := by
  intro d hd hu
  obtain ⟨us, vs, rfl⟩ := List.append_of_mem hd
  obtain ⟨hchunk, -⟩ := h.rep.chunk
  have hcsz := hchunk.size
  have hrep : HeapRep s ((pre ++ c :: us) ++ d :: vs) := by simpa using h.rep
  have hle := hmax _ (hrep.hole_mem hu)
  simp only [total_append, total_cons] at hle
  omega

theorem meetsAt_iff_of_grow (h : HeapOk s live (pre ++ c :: post)) (hfoot : Footed (pre ++ c :: post))
    (hc : c.use = none) (hmax : ∀ e' ∈ contents s.mem s.heap.index, e' ≤ s.heap.startAddress + total Chunk.size pre)
    (hnone : heapFindSmallestHole s (size + 32) 1 = none)
    (hhigh : s.heap.startAddress + total Chunk.size pre + 16 < heapAddr + 2 ^ 32)
    (hlen : s.heap.endAddress - s.heap.startAddress + (size + 32) < 2 ^ 32)
    (hlen' : ¬ size + 32 + searchOffset (s.heap.startAddress + total Chunk.size pre) ≤ c.size + growth size →
      s.heap.endAddress - s.heap.startAddress + growth size + (size + 32) < 2 ^ 32) :
    MeetsAt (s.heap.startAddress + total Chunk.size pre) s live size ↔
      s.heap.startAddress + total Chunk.size pre + c.size = s.heap.endAddress ∧
        AlignedFits (s.heap.startAddress + total Chunk.size pre)
          (grownHole (s.heap.startAddress + total Chunk.size pre) c.size size) size := by
  have hst := heapStart_eq
  have hstart := h.start
  obtain ⟨hchunk, hend⟩ := h.rep.chunk
  have ht := tracked_of_heapOk h hc hmax hnone
  obtain ⟨s', iterator, ht', hbase, htop, hfind, hmeets, hgrown⟩ := ht.find hnone hhigh hlen hlen'
  obtain ⟨hit, hget, -⟩ := ht'.find_some hfind
  have hnew : add64 (add64 size sizeofHeapHeader) sizeofHeapFooter = size + 32 := newSize_eq (by omega)
  rw [hmeets]
  cases post with
  | nil =>
      rw [total_nil] at hend
      rw [and_iff_right (by omega)]
      have hok' := hgrown live pre c h hc rfl
      have hfoot' : Footed (pre ++ [⟨grownHole (s.heap.startAddress + total Chunk.size pre) c.size size, none, true⟩]) := by
        rw [footed_append (by simp)] at hfoot ⊢
        exact ⟨hfoot.1, fun _ => rfl, trivial⟩
      have := meetsAt_iff_of_find hok' hfoot' rfl (hnew ▸ hfind) (by rw [hbase.startAddress]; exact hget)
        (by rw [hbase.startAddress]; exact hhigh) htop
      rwa [hbase.startAddress] at this
  | cons d post =>
      rw [total_cons] at hend
      have hdsz := (chunks_cons.mp (chunks_cons.mp (chunks_append.mp h.rep.tiles).2).2).1.size
      rw [meetsAt_of_find (hnew ▸ hfind), hnew]
      refine iff_of_false ?_ (by omega)
      rintro ⟨cs', hok⟩
      obtain ⟨n, hd⟩ := Option.ne_none_iff_exists'.mp (h.used_behind hmax d List.mem_cons_self)
      have hno : ¬ size + 32 + searchOffset (s.heap.startAddress + total Chunk.size pre) ≤ c.size := by
        rw [← ht.fits_iff hhigh (by omega) (by omega), find_none hnone ht.mem]
        exact Bool.false_ne_true
      exact not_alignedOk_of_inner h hd rfl hno ht' hfind hhigh htop (by omega) hok

theorem meetsAt_iff_of_empty (h : HeapOk s live cs) (hempty : s.heap.index.size = 0)
    (hnone : heapFindSmallestHole s (size + 32) 1 = none) (hhigh : s.heap.endAddress + 16 < heapAddr + 2 ^ 32)
    (hlen : s.heap.endAddress - s.heap.startAddress + (size + 32) < 2 ^ 32)
    (hlen' : ¬ size + 32 + searchOffset s.heap.endAddress ≤ growth size →
      s.heap.endAddress - s.heap.startAddress + growth size + (size + 32) < 2 ^ 32) :
    MeetsAt s.heap.endAddress s live size ↔
      AlignedFits s.heap.endAddress (grownHole s.heap.endAddress 0 size) size := by
  have hst := heapStart_eq
  have had := heapAddr_eq
  have hstart := h.start
  have hleast := h.least
  have hstop := h.stop
  have hfits := h.rep.fits
  obtain ⟨hgpage, hglt, hgmax⟩ := growth_page size
  have hoff : searchOffset s.heap.endAddress = 4080 := by
    unfold searchOffset
    omega
  have hnew : add64 (add64 size sizeofHeapHeader) sizeofHeapFooter = size + 32 := newSize_eq (by omega)
  have hd : grownLength s size - (s.heap.endAddress - s.heap.startAddress) = growth size := by
    unfold grownLength growth
    omega
  obtain ⟨hfoot, hok, -⟩ := h.grow_new (n := size) (by omega) hempty
  rw [hd] at hok
  have hbase := (heapGrow_end s (size + 32)).2
  have hfoot' : Footed (cs ++ [⟨growth size, none, true⟩]) := by
    rw [footed_append (by simp)]
    exact ⟨hfoot, fun _ => rfl, trivial⟩
  rw [meetsAt_of_grow (by omega) hnone]
  generalize heapGrow s (size + 32) = s₁ at hok hbase
  have hpos : s₁.heap.startAddress + total Chunk.size cs = s.heap.endAddress := by
    rw [hbase.startAddress]
    exact hfits
  obtain ⟨-, hend₁⟩ := hok.rep.chunk
  rw [total_nil, hpos, Nat.add_zero] at hend₁
  simp only at hend₁
  -- the new hole is the only one
  have hall : ∀ e' ∈ contents s₁.mem s₁.heap.index, e' = s.heap.endAddress := by
    intro e' he'
    obtain ⟨b, hb, hplaced⟩ := mem_holes.mp (hok.rep.index.subset he')
    rw [placed_append, List.mem_append, placed_cons, placed_nil, List.mem_singleton, hpos] at hplaced
    rcases hplaced with hplaced | heq
    · have hcount := h.rep.index_size_eq
      rw [hempty] at hcount
      obtain ⟨us, vs, hus, -⟩ := (mem_placed_iff Chunk.size).mp hplaced
      have hnot := List.countP_eq_zero.mp hcount.symm b (by rw [hus]; simp)
      simp [hb] at hnot
    · exact (Prod.mk.inj heq).1
  unfold grownHole
  rw [hoff, Nat.zero_add]
  cases hfind : heapFindSmallestHole s₁ (size + 32) 1 with
  | some iterator =>
      obtain ⟨hit, hfit⟩ := find_fits hfind
      have hget := hall _ (arrayGet_mem_contents s₁.mem s₁.heap.index hit)
      have hhead := hok.rep.chunk.1.header.size
      rw [hpos] at hhead
      simp only at hhead
      rw [hget, holeFits_aligned (land_ne_zero (by omega) hhigh) (by omega) (by omega), hoff, hhead] at hfit
      rw [if_pos hfit]
      have := meetsAt_iff_of_find hok hfoot' rfl (hnew ▸ hfind) (hget.trans hpos.symm) (by rw [hpos]; exact hhigh)
        (by omega)
      rwa [hpos] at this
  | none =>
      have hmem := hok.rep.hole_mem rfl
      rw [hpos] at hmem
      have hfit := find_none hfind hmem
      have hhead := hok.rep.chunk.1.header.size
      rw [hpos] at hhead
      simp only at hhead
      have hno : ¬ size + 32 + 4080 ≤ growth size := by
        rw [← hoff, ← hhead, ← holeFits_aligned (land_ne_zero (by omega) hhigh) (by omega) (by omega), hfit]
        exact Bool.false_ne_true
      rw [if_neg hno]
      have hgrow := meetsAt_iff_of_grow hok hfoot' rfl (fun e' he' => by rw [hall e' he', hpos]) hfind
        (by rw [hpos]; exact hhigh) (by have := hlen' (hoff ▸ hno); rw [← hend₁, hbase.startAddress]; omega)
        (fun hno' => absurd (show _ ≤ growth size + growth size by rw [hpos, hoff]; omega) hno')
      simp only [hpos, hend₁, true_and] at hgrow
      rw [hgrow]
      unfold grownHole
      rw [hoff, if_pos (by omega)]

instance (pos holeSize size : Nat) : Decidable (AlignedFits pos holeSize size) := inferInstanceAs (Decidable (_ ∧ _))

end Gewodsys.Mem
