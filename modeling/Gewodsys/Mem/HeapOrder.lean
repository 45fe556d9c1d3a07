import Gewodsys.Mem.HeapTags

/-!
# The order of the hole index

The index is sorted by the sizes in the headers of the holes, and `HeapFree` changes sizes without moving entries.

* `KeepsOrder` : a hole that `HeapFree` makes larger in its place in the index is not larger than the holes listed after it;
* `sorted_kfree` : then the index stays sorted;
* `heap_best_fit` : over every run of such calls it is sorted, and `kmalloc` takes a hole of least size.
-/

namespace Gewodsys.Mem
open Gewodsys.Machine Gewodsys.Lib

/-! ## Keys -/

section Keys
variable {s s₂ : HeapState} {pre pre₁ post post' : List Chunk} {blk c hole : Chunk} {left right add : Bool} {size : Nat}

theorem headerSize_kept (h : HeapRep s (pre ++ blk :: post)) (hm : MergedLeft pre blk pre₁ c left)
    (hpost : InnerRight post post' size right) (hmerge : Merging s₂ pre₁ post' hole add)
    (hhole : hole.size = c.size + size) (hstart : s₂.heap.startAddress = s.heap.startAddress) {e : Nat}
    (he : e ∈ holes s.heap.startAddress pre₁ ∨
      e ∈ holes (s.heap.startAddress + total Chunk.size pre₁ + hole.size) post') :
    headerSize s₂.mem e = headerSize s.mem e := by
  obtain ⟨htpre, ht⟩ := chunks_append.mp hmerge.tiles
  obtain ⟨-, htpost⟩ := chunks_cons.mp ht
  obtain ⟨hpre, hs⟩ := chunks_append.mp h.tiles
  obtain ⟨-, hspost⟩ := chunks_cons.mp hs
  rw [hstart] at htpre htpost
  have hlen := mergedLeft_end hm
  rcases he with he | he
  · obtain ⟨d, -, hd⟩ := mem_holes.mp he
    have hd' : (e, d) ∈ placed Chunk.size s.heap.startAddress pre := by
      cases left with
      | true =>
          obtain ⟨l, rfl, -⟩ := hm
          rw [placed_append]
          exact List.mem_append_left _ hd
      | false => rwa [← hm.1]
    rw [(htpre _ hd).header.size, (hpre _ hd').header.size]
  · obtain ⟨d, -, hd⟩ := mem_holes.mp he
    rw [(htpost _ hd).header.size]
    have haddr : s.heap.startAddress + total Chunk.size pre₁ + hole.size =
        s.heap.startAddress + total Chunk.size pre + blk.size + size := by omega
    rw [haddr] at hd
    cases hpost with
    | block => exact ((hspost _ hd).header.size).symm
    | hole =>
        obtain ⟨-, hspost⟩ := chunks_cons.mp hspost
        exact ((hspost _ hd).header.size).symm

theorem Merging.mem_index (hmerge : Merging s₂ pre₁ post' hole add) {e : Nat}
    (he : e ∈ contents s₂.mem s₂.heap.index) :
    (add = false ∧ e = s₂.heap.startAddress + total Chunk.size pre₁) ∨ e ∈ holes s₂.heap.startAddress pre₁ ∨
      e ∈ holes (s₂.heap.startAddress + total Chunk.size pre₁ + hole.size) post' := by
  have := hmerge.index.subset he
  rw [List.mem_append, List.mem_append] at this
  rcases this with he | he | he
  · exact Or.inr (Or.inl he)
  · cases add with
    | true => cases he
    | false => exact Or.inl ⟨rfl, List.mem_singleton.mp he⟩
  · exact Or.inr (Or.inr he)

/-- The hole on the right is not in the index any more. -/
theorem Merging.ne_right (hmerge : Merging s₂ pre₁ post' hole add) (hsize : c.size < hole.size)
    {e : Nat} (he : e ∈ holes s₂.heap.startAddress pre₁ ∨
      e ∈ holes (s₂.heap.startAddress + total Chunk.size pre₁ + hole.size) post') :
    e ≠ s₂.heap.startAddress + total Chunk.size pre₁ + c.size := by
  obtain ⟨htpre, -⟩ := chunks_append.mp hmerge.tiles
  rcases he with he | he
  · obtain ⟨d, -, hd⟩ := mem_holes.mp he
    have hb := placed_bounds Chunk.size hd
    have hsz := (htpre _ hd).size
    simp only at hb hsz
    omega
  · obtain ⟨d, -, hd⟩ := mem_holes.mp he
    have hb := placed_bounds Chunk.size hd
    simp only at hb
    omega

theorem headerSize_left (h : HeapRep s (pre ++ blk :: post)) (hm : MergedLeft pre blk pre₁ c true)
    (hmerge : Merging s₂ pre₁ post' ⟨c.size + size, none, right⟩ add)
    (hstart : s₂.heap.startAddress = s.heap.startAddress) :
    headerSize s.mem (s.heap.startAddress + total Chunk.size pre₁) ≤
      headerSize s₂.mem (s.heap.startAddress + total Chunk.size pre₁) := by
  obtain ⟨l, rfl, -, rfl⟩ := hm
  have hold := (chunks_cons.mp (chunks_append.mp (chunks_append.mp h.tiles).1).2).1.header.size
  have hnew := hmerge.chunk.1.header.size
  rw [hstart] at hnew
  rw [hold, hnew]
  simp only
  omega

theorem InnerRight.size_pos (hpost : InnerRight post post' size true) (h : HeapRep s (pre ++ blk :: post)) :
    0 < size := by
  cases hpost with
  | hole =>
      have := (chunks_cons.mp (chunks_cons.mp (chunks_append.mp h.tiles).2).2).1.size
      omega

/-- An entry that grows in its place keeps the order where it does not pass the ones listed after it. -/
theorem sizeSorted_grown {m m₂ : Mem} {l l₂ : List Nat} {e₀ : Nat} (hsort : SizeSorted m l) (hsub : l₂.Sublist l)
    (hkept : ∀ e ∈ l₂, e ≠ e₀ → headerSize m₂ e = headerSize m e) (hnew : headerSize m e₀ ≤ headerSize m₂ e₀)
    (horder : l₂.Pairwise fun e e' => e = e₀ → e' ≠ e₀ → headerSize m₂ e₀ ≤ headerSize m e') : SizeSorted m₂ l₂ := by
  refine ((hsort.sublist hsub).and horder).imp_of_mem ?_
  rintro e e' he he' ⟨hle, hgrown⟩
  by_cases h1 : e = e₀
  · by_cases h2 : e' = e₀
    · rw [h1, h2]
    · rw [h1, hkept e' he' h2]
      exact hgrown h1 h2
  · rw [hkept e he h1]
    by_cases h2 : e' = e₀
    · rw [h2] at hle ⊢
      exact hle.trans hnew
    · rw [hkept e' he' h2]
      exact hle

end Keys

/-! ## The calls -/

/-- A hole that `kfree(p)` makes larger in its place in the index is not larger than the holes listed after it, but for the
one on the right of the block, which is taken out. -/
def KeepsOrder (s : HeapState) (p : Nat) : Prop :=
  mergesLeft s.mem (p - 16) = true → (contents s.mem s.heap.index).Pairwise fun e e' =>
    e = mergedHeader s.mem (p - 16) →
      ¬ (rightIsHole s.mem (rightHeader s.mem (p - 16)) = true ∧ e' = rightHeader s.mem (p - 16)) →
      mergedEnd s.mem (p - 16) - mergedHeader s.mem (p - 16) ≤ headerSize s.mem e'

variable {s s' : HeapState} {live : List (Nat × Nat)} {cs : List Chunk}

theorem HeapOk.merged_size {pre pre₁ post post' : List Chunk} {blk c : Chunk} {size : Nat}
    (h : HeapOk s live (pre ++ blk :: post)) (header : Nat)
    (hheader : header = s.heap.startAddress + total Chunk.size pre) (htag : LeftTag s header)
    (hm : MergedLeft pre blk pre₁ c (mergesLeft s.mem header))
    (hpost : InnerRight post post' size (rightIsHole s.mem (rightHeader s.mem header))) :
    mergedEnd s.mem header = mergedHeader s.mem header + (c.size + size) := by
  have hlen := mergedLeft_end hm
  obtain ⟨hright, -, hnext⟩ := h.rightChunk header hheader
  rw [MergedLeft.header h.rep header hheader htag hm]
  unfold mergedEnd
  simp only
  generalize hr : rightIsHole s.mem (rightHeader s.mem header) = right at hpost
  cases hpost with
  | block =>
      rw [hright]
      simp only [Bool.false_eq_true, if_false]
      omega
  | @hole r r' post =>
      rw [if_pos rfl, (hnext r (r' :: post) rfl).2]
      omega

theorem sorted_kfree (h : HeapOk s live cs) (hp : s.heap.index.predicate = headerPredicate)
    (hsort : SizeSorted s.mem (contents s.mem s.heap.index)) {p n : Nat} (hmem : (p, n) ∈ live) (hclean : CleanFree s p)
    (hend : contracts s p = false) (horder : KeepsOrder s p) :
    SizeSorted (kfree s p).mem (contents (kfree s p).mem (kfree s p).heap.index) ∧ SameBase s (kfree s p) := by
  obtain ⟨pre, blk, post, rfl, hn, hp'⟩ := h.block hmem
  obtain ⟨header, hheader⟩ : ∃ header, header = s.heap.startAddress + total Chunk.size pre := ⟨_, rfl⟩
  rw [← hheader] at hp'
  subst hp'
  obtain ⟨htag, hroom, hno, -⟩ := hclean
  unfold KeepsOrder at horder
  rw [Nat.add_sub_cancel] at htag hroom hno horder
  have hend' : mergedEnd s.mem header ≠ s.heap.endAddress := by
    rw [ne_eq, ← h.contracts_iff hn header hheader htag hno, hend]
    exact Bool.false_ne_true
  rcases h.neighbour header hheader hno with ⟨-, post', size, hpost⟩ | ⟨he, -, -⟩
  · obtain ⟨pre₁, c, s₂, hm, hmerge, hsame, hsz, hsub, hfree, hok, -⟩ :=
      h.kfree_inner hn hpost header hheader htag hroom
    have hstart := hsame.startAddress
    have hkept : ∀ e ∈ contents s₂.mem s₂.heap.index, e ≠ s.heap.startAddress + total Chunk.size pre₁ →
        headerSize s₂.mem e = headerSize s.mem e := by
      intro e he hne
      rcases hmerge.mem_index he with ⟨-, rfl⟩ | he
      · rw [hstart] at hne
        exact absurd rfl hne
      · rw [hstart] at he
        exact headerSize_kept h.rep hm hpost hmerge rfl hstart he
    cases hl : mergesLeft s.mem header with
    | true =>
        rw [hfree, if_pos hl]
        refine ⟨sizeSorted_grown hsort hsub hkept ?_ ?_, hsame.toSameBase⟩
        · rw [hl] at hm
          exact headerSize_left h.rep hm hmerge hstart
        · have hsize := h.merged_size header hheader htag hm hpost
          rw [MergedLeft.header h.rep header hheader htag hm] at hsize horder
          have hnew : headerSize s₂.mem (s.heap.startAddress + total Chunk.size pre₁) = c.size + size := by
            rw [← hstart]
            exact hmerge.chunk.1.header.size
          refine ((horder hl).sublist hsub).imp_of_mem ?_
          intro e e' _ he' hgrown h1 h2
          have hlarge := hgrown h1 fun hr => ?_
          · rw [hnew]
            omega
          · rcases hmerge.mem_index he' with ⟨-, rfl⟩ | he'
            · rw [hstart] at h2
              exact h2 rfl
            · rw [hr.1] at hpost
              refine hmerge.ne_right (c := c) ?_ he' ?_
              · have := hpost.size_pos h.rep
                simp only
                omega
              · rw [hr.2, (h.rightChunk header hheader).1, hstart]
                have hlen := mergedLeft_end hm
                omega
    | false =>
        rw [hl] at hmerge
        have hindex := h.index_size
        have htop := h.rep.top
        have hend₂ := hmerge.chunk.2
        rw [hl] at hfree
        simp only [Bool.false_eq_true, if_false] at hfree
        rw [hfree] at hok ⊢
        have hsort₂ : SizeSorted s₂.mem (contents s₂.mem s₂.heap.index) := by
          refine SizeSorted.congr (hsort.sublist hsub) fun e he => ?_
          rcases hmerge.mem_index he with ⟨hadd, -⟩ | he
          · cases hadd
          · rw [hstart] at he
            exact headerSize_kept h.rep hm hpost hmerge rfl hstart he
        have hitem : s.heap.startAddress + total Chunk.size pre₁ < 2 ^ 64 := by
          rw [hstart, hsame.endAddress] at hend₂
          omega
        have hins := sizeSorted_arrayInsert (hsame.predicate.trans hp) hsort₂ hitem (by omega)
        · refine ⟨hins.congr fun e he => ?_, hsame.toSameBase.trans (sameExtent_arrayInsert _ _).toSameBase⟩
          -- the slots of the index are below the headers
          obtain ⟨d, -, hd⟩ := mem_holes.mp (hok.rep.index.subset he)
          have hb := (placed_bounds Chunk.size hd).1
          rw [hok.start, ← h.start] at hb
          apply (frame_arrayInsert s₂.mem s₂.heap.index _).read
          intro x h1 h2 hx
          have hbelow := h.index_below (x := x) ?_
          · simp only at hb
            omega
          · unfold InSlots at hx ⊢
            rw [hsame.array] at hx
            omega
  · exact absurd he hend'

theorem sorted_kmalloc (h : HeapOk s live cs) (hp : s.heap.index.predicate = headerPredicate)
    (hsort : SizeSorted s.mem (contents s.mem s.heap.index)) {fuel n p : Nat} (hn : n < 2 ^ 32)
    (hfind : (heapFindSmallestHole s (n + 32) 0).isSome = true) (hcall : heapAllocate fuel s n 0 = some (p, s')) :
    SizeSorted s'.mem (contents s'.mem s'.heap.index) ∧ SameBase s s' := by
  obtain ⟨iterator, hfind⟩ := Option.isSome_iff_exists.mp hfind
  obtain ⟨pre, hole, post, rfl, hhole, hit, hpos, hfit⟩ := h.rep.found hfind
  have hindex := h.index_size
  have hsorted := heapCarve_sorted h.rep hhole hp hsort hit hpos hfit (by omega)
  obtain ⟨-, hsame, -⟩ := h.carve hhole hit hpos hfit
  have heq := (heapAllocate_of_find fuel hn hfind).symm.trans (heapAllocate_succ hcall)
  rw [Option.some.inj heq] at hsorted hsame
  exact ⟨hsorted, hsame.toSameBase⟩

theorem sorted_store (h : HeapOk s live cs) (hsort : SizeSorted s.mem (contents s.mem s.heap.index)) {p n address : Nat}
    (hp : (p, n) ∈ live) (h1 : p ≤ address) (h2 : address < p + n) (byte : Byte) :
    SizeSorted (Function.update s.mem address byte) (contents (Function.update s.mem address byte) s.heap.index) := by
  obtain ⟨hok, -⟩ := h.store hp h1 h2 byte
  have hframe : Frame s.mem (Function.update s.mem address byte) (fun x => x = address) :=
    fun x hx => Function.update_of_ne hx byte s.mem
  obtain ⟨c, -, hplaced, -, -⟩ := h.placed hp
  have hb := (placed_bounds Chunk.size hplaced).1
  unfold chunkStart at hb
  have hcontents : contents (Function.update s.mem address byte) s.heap.index = contents s.mem s.heap.index := by
    apply contents_congr hframe
    intro x hx he
    have := h.pageHeap.below x hx
    simp only at hb
    omega
  rw [hcontents]
  refine hsort.congr fun e he => ?_
  obtain ⟨d, -, hd⟩ := mem_holes.mp (h.rep.index.subset he)
  exact ((hok.rep.tiles _ hd).header.size).trans ((h.rep.tiles _ hd).header.size).symm

/-! ## Runs -/

/-- A call after which the index is sorted again. -/
def OrderOp (r : HeapRun) : HeapOp → Prop
  | .kfree address => CleanFree r.state address ∧ KeepsOrder r.state address
  | _ => True

/-- The heap in order, with its index sorted. -/
def Ordered (r : HeapRun) : Prop :=
  (∃ cs, HeapOk r.state r.live cs) ∧ r.state.heap.index.predicate = headerPredicate ∧
    SizeSorted r.state.mem (contents r.state.mem r.state.heap.index)

theorem ordered_boot (m : Mem) (frames : Nat → Nat → Byte) : Ordered (HeapRun.boot m frames) := by
  refine ⟨⟨_, heapOk_boot m frames⟩, predicate_boot m frames, ?_⟩
  change SizeSorted (mmInitializeHeap m frames).mem (contents (mmInitializeHeap m frames).mem
    (mmInitializeHeap m frames).heap.index)
  rw [contents_boot]
  exact List.pairwise_singleton _ _

theorem ordered_step {r r' : HeapRun} {op : HeapOp} (h : Ordered r) (hop : NoResize r op ∧ OrderOp r op)
    (hstep : heapStep r op = some r') : Ordered r' := by
  obtain ⟨⟨cs, h⟩, hp, hsort⟩ := h
  cases op with
  | kmalloc fuel size =>
      obtain ⟨⟨p, s'⟩, hcall, rfl⟩ := Option.map_eq_some_iff.mp hstep
      have hn : size % 2 ^ 32 < 2 ^ 32 := Nat.mod_lt _ (by decide)
      obtain ⟨hsort', hbase⟩ := sorted_kmalloc h hp hsort hn hop.1 hcall
      obtain ⟨-, -, cs', -, -, hok, -⟩ := h.kmalloc hn (Or.inl hop.1) hcall
      exact ⟨⟨cs', hok⟩, hbase.predicate.trans hp, hsort'⟩
  | kfree address =>
      obtain ⟨n, hmem, rfl⟩ := heapStep_kfree hstep
      obtain ⟨hsort', hbase⟩ := sorted_kfree h hp hsort hmem hop.2.1 hop.1 hop.2.2
      obtain ⟨cs', hok, -⟩ := h.kfree hmem hop.2.1
      exact ⟨⟨cs', hok⟩, hbase.predicate.trans hp, hsort'⟩
  | store address byte =>
      obtain ⟨p, n, hmem, h1, h2, rfl⟩ := heapStep_store hstep
      exact ⟨⟨cs, (h.store hmem h1 h2 byte).1⟩, hp, sorted_store h hsort hmem h1 h2 byte⟩

/-- The hole at `e` is a smallest one of those with room for `n` bytes. -/
def BestFit (s : HeapState) (n e : Nat) : Prop :=
  e ∈ contents s.mem s.heap.index ∧ n + sizeofHeapHeader + sizeofHeapFooter ≤ headerSize s.mem e ∧
    ∀ e' ∈ contents s.mem s.heap.index, n + sizeofHeapHeader + sizeofHeapFooter ≤ headerSize s.mem e' →
      headerSize s.mem e ≤ headerSize s.mem e'

/-- In a sorted index the first hole that fits is a smallest one. -/
theorem bestFit_of_sorted (hsort : SizeSorted s.mem (contents s.mem s.heap.index)) {n iterator : Nat}
    (hfind : heapFindSmallestHole s (n + 32) 0 = some iterator) :
    BestFit s n (arrayGet s.mem s.heap.index iterator) := by
  obtain ⟨hit, hfit, hbefore⟩ := heapFindSmallestHole_eq_some hfind
  refine ⟨arrayGet_mem_contents _ _ hit, hfit, fun e' he' hfit' => ?_⟩
  obtain ⟨j, hj, rfl⟩ := List.mem_map.mp he'
  have hj' := List.mem_range.mp hj
  change n + 32 ≤ _ at hfit'
  rcases Nat.lt_trichotomy j iterator with hlt | rfl | hlt
  · have := hbefore j hlt
    omega
  · exact le_refl _
  · have hpair := List.pairwise_iff_getElem.mp hsort iterator j (by rwa [length_contents])
      (by rwa [length_contents]) hlt
    rwa [getElem_contents, getElem_contents] at hpair

/-- **The index stays sorted, and `kmalloc` takes a best fit**, over every run of calls that keep the size of the heap and
the order. -/
theorem heap_best_fit (m : Mem) (frames : Nat → Nat → Byte) (ops : List HeapOp) (r : HeapRun)
    (hops : StepsMeet heapStep (fun r op => NoResize r op ∧ OrderOp r op) (HeapRun.boot m frames) ops)
    (hrun : run heapStep (HeapRun.boot m frames) ops = some r) :
    SizeSorted r.state.mem (contents r.state.mem r.state.heap.index) ∧
      ∀ fuel size p s', NoResize r (.kmalloc fuel size) → kmalloc fuel r.state size = some (p, s') →
        BestFit r.state (size % 2 ^ 32) (p - sizeofHeapHeader) := by
  obtain ⟨⟨cs, h⟩, -, hsort⟩ := run_invariant (fun _ _ _ h hop hs => ordered_step h hop hs) (ordered_boot m frames)
    hops hrun
  refine ⟨hsort, fun fuel size p s' hfind hcall => ?_⟩
  obtain ⟨iterator, hfind⟩ := Option.isSome_iff_exists.mp hfind
  have hn : size % 2 ^ 32 < 2 ^ 32 := Nat.mod_lt _ (by decide)
  obtain ⟨pre, hole, post, rfl, hhole, hit, hpos, hfit⟩ := h.rep.found hfind
  have hindex := h.index_size
  obtain ⟨hret, -⟩ := heapCarve_spec h.rep hhole hit hpos hfit (by omega)
  have heq := (heapAllocate_of_find fuel hn hfind).symm.trans (heapAllocate_succ hcall)
  rw [Option.some.inj heq, ← hpos] at hret
  simp only at hret
  rw [hret, sizeofHeapHeader, Nat.add_sub_cancel]
  exact bestFit_of_sorted hsort hfind

instance (s : HeapState) (p : Nat) : Decidable (KeepsOrder s p) := inferInstanceAs (Decidable (_ → _))

instance (r : HeapRun) : (op : HeapOp) → Decidable (OrderOp r op)
  | .kmalloc _ _ => .isTrue trivial
  | .kfree _ => inferInstanceAs (Decidable (_ ∧ _))
  | .store _ _ => .isTrue trivial

theorem heap_best_fit_three : ∃ r, run heapStep (HeapRun.boot (fun _ => 0) fun _ _ => 0)
    [.kmalloc 1 16, .kmalloc 1 16, .kmalloc 1 200, .kmalloc 1 16, .kfree 0x100000101010, .kfree 0x100000101070,
      .kfree 0x100000101040] = some r ∧ r.state.heap.index.size = 2 ∧
        SizeSorted r.state.mem (contents r.state.mem r.state.heap.index) := by
  have hrun : (run heapStep zeroHeap [.kmalloc 1 16, .kmalloc 1 16, .kmalloc 1 200, .kmalloc 1 16,
      .kfree 0x100000101010, .kfree 0x100000101070, .kfree 0x100000101040]).map
        (fun r => r.state.heap.index.size) = some 2 := by decide +kernel
  obtain ⟨r, hr, hsize⟩ := Option.map_eq_some_iff.mp hrun
  rw [← boot_zero] at hr
  refine ⟨r, hr, hsize, (heap_best_fit _ _ _ r ?_ hr).1⟩
  rw [boot_zero]
  decide +kernel

/-- Without the condition on the order: the hole of 48 bytes at the start becomes one of 96 bytes in its place, before the one
of 64 bytes. -/
theorem heap_order_lost : ¬ ∀ (m : Mem) (frames : Nat → Nat → Byte) (ops : List HeapOp) (r : HeapRun),
    StepsMeet heapStep NoResize (HeapRun.boot m frames) ops → run heapStep (HeapRun.boot m frames) ops = some r →
      SizeSorted r.state.mem (contents r.state.mem r.state.heap.index) := by
  intro h
  have hrun : (run heapStep zeroHeap [.kmalloc 1 16, .kmalloc 1 16, .kmalloc 1 16, .kmalloc 1 32, .kmalloc 1 16,
      .kfree 0x100000101010, .kfree 0x1000001010A0, .kfree 0x100000101040]).map
        (fun r => (contents r.state.mem r.state.heap.index, headerSize r.state.mem 0x100000101000,
          headerSize r.state.mem 0x100000101090)) =
            some ([0x100000101000, 0x100000101090, 0x100000101100], 96, 64) := by decide +kernel
  obtain ⟨r, hr, heq⟩ := Option.map_eq_some_iff.mp hrun
  simp only [Prod.mk.injEq] at heq
  obtain ⟨hcontents, hone, htwo⟩ := heq
  rw [← boot_zero] at hr
  have hsort := h _ _ _ r (by rw [boot_zero]; decide +kernel) hr
  rw [hcontents] at hsort
  have hle := (List.pairwise_cons.mp hsort).1 0x100000101090 (by simp)
  rw [hone, htwo] at hle
  omega

end Gewodsys.Mem
