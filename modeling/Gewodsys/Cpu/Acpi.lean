import Gewodsys.Mem.HeapCapacity

/-!
# The host functions for the ACPI interpreter (`cpu/acpi.c`)

* `laihostMalloc`, `laihostRealloc` : the allocator as the interpreter sees it, with `size_t` sizes;
* `capacity` : the payload of a block; `allocHole` : the hole that `kmalloc` cuts a block from;
* `kmalloc_block` : the block that a clean `kmalloc` returns; `copied_kfree` : what the rest of `laihost_realloc` keeps;
* `lai_capacity_iff` : a block is large enough exactly where its size has 32 bits;
* `ReallocOk` : what `laihost_realloc` is for; `realloc_ok_iff` : it does that where the copy stays inside the new block.
-/

namespace Gewodsys.Cpu
open Gewodsys.Machine Gewodsys.Lib Gewodsys.Mem

/-! ## Model -/

def laihostMalloc (fuel : Nat) (s : HeapState) (size : Nat) : Option (Nat × HeapState) := kmalloc fuel s size

/-- `RtCopyMemory` on the heap's memory. -/
def copied (s : HeapState) (destination source size : Nat) : HeapState :=
  { s with mem := rtCopyMemory s.mem destination source size }

def laihostRealloc (fuel : Nat) (s : HeapState) (ptr size oldSize : Nat) : Option (Nat × HeapState) :=
  if size = oldSize then some (ptr, s)
  else if size = 0 then some (0, kfree s ptr)
  else if ptr = 0 then kmalloc fuel s size
  else (kmalloc fuel s size).map fun r => (r.1, kfree (copied r.2 r.1 ptr oldSize) ptr)

/-! ## The block that `kmalloc` returns -/

/-- `header->size - sizeof(HeapHeader) - sizeof(HeapFooter)`. -/
def capacity (m : Mem) (p : Nat) : Nat := headerSize m (p - sizeofHeapHeader) - sizeofHeapHeader - sizeofHeapFooter

/-- The size of the hole that `kmalloc(n)` takes, after the heap has grown where there was none. -/
def allocHole (s : HeapState) (n : Nat) : Nat :=
  let holeOf := fun s : HeapState =>
    (heapFindSmallestHole s (n + 32) 0).map fun iterator => headerSize s.mem (arrayGet s.mem s.heap.index iterator)
  (holeOf s).getD ((holeOf (heapGrow s (n + 32))).getD 0)

variable {s s' : HeapState} {live : List (Nat × Nat)} {cs : List Chunk}

theorem capacity_eq (h : HeapOk s live cs) {b : Nat} {c : Chunk}
    (hb : (b, c) ∈ placed Chunk.size s.heap.startAddress cs) : capacity s.mem (b + 16) = c.size - 32 := by
  have hsize : headerSize s.mem b = c.size := (h.rep.tiles _ hb).header.size
  unfold capacity sizeofHeapHeader sizeofHeapFooter
  rw [Nat.add_sub_cancel, hsize]
  omega

theorem mem_placed_carved (pos holeSize size n : Nat) :
    (pos, ⟨size + 32, some n, true⟩) ∈ placed Chunk.size pos (carved holeSize size n) := by
  unfold carved
  split_ifs <;> simp

theorem kmalloc_block (h : HeapOk s live cs) {n : Nat} (hn : n < 2 ^ 32) (hclean : CleanAlloc s n) (fuel : Nat) :
    ∃ p s' cs', kmalloc (fuel + 2) s n = some (p, s') ∧ HeapOk s' ((p, n) :: live) cs' ∧
      BlocksKept s s' cs cs' noBlock ∧ n + 32 ≤ allocHole s n ∧
      16 ≤ p ∧ (p - 16, ⟨blockSize (allocHole s n) n + 32, some n, true⟩) ∈
        placed Chunk.size s'.heap.startAddress cs' := by
  obtain ⟨s₁, iterator, ⟨cs₁, h₁, hkept₁⟩, hs₁, hfind, hcarve⟩ := h.allocate hn hclean fuel
  obtain ⟨pre, hole, post, rfl, hhole, hit, hpos, hfit⟩ := h₁.rep.found hfind
  obtain ⟨hok, hsame, hkept, -⟩ := h₁.carve hhole hit hpos hfit
  have hsize : headerSize s₁.mem (arrayGet s₁.mem s₁.heap.index iterator) = hole.size := by
    rw [hpos]
    exact h₁.rep.chunk.1.header.size
  have hlen : allocHole s n = hole.size := by
    unfold allocHole
    rcases hs₁ with rfl | ⟨hnone, rfl⟩
    · simp only [hfind, Option.map_some, Option.getD_some, hsize]
    · simp only [hnone, hfind, Option.map_none, Option.getD_none, Option.map_some, Option.getD_some, hsize]
  have hret : (heapCarve s₁ iterator n (n + 32) 0).1 = s₁.heap.startAddress + total Chunk.size pre + 16 :=
    (heapCarve_spec h₁.rep hhole hit hpos hfit (by have := h₁.index_size; omega)).1
  refine ⟨_, _, _, ?_, hok, hkept₁.blocks.trans hkept.blocks, ?_, ?_, ?_⟩
  · unfold kmalloc
    rw [Nat.mod_eq_of_lt hn, hcarve]
  · rw [hlen]
    exact hfit
  · rw [hret]
    omega
  · rw [hret, Nat.add_sub_cancel, hlen, hsame.startAddress, placed_append, placed_append]
    exact List.mem_append_left _ (List.mem_append_right _ (mem_placed_carved _ _ _ _))

theorem new_block_ne {p b bs size k : Nat} (hok : HeapOk s ((p, size) :: live) cs)
    (hplaced : (p - 16, ⟨bs + 32, some size, true⟩) ∈ placed Chunk.size s.heap.startAddress cs)
    (hmem : (b + 16, k) ∈ live) : p - 16 ≠ b := by
  rintro rfl
  have hdis := (List.pairwise_cons.mp hok.blocksOk.disjoint).1 _ hmem
  unfold chunkEnd chunkStart sizeofHeapHeader at hdis
  simp only [Nat.add_sub_cancel] at hdis
  rw [(hok.rep.tiles _ hplaced).header.size] at hdis
  simp only at hdis
  omega

/-- **The copy and the `kfree` of `laihost_realloc`**, where the copy stays in the new block. -/
theorem copied_kfree {s₁ : HeapState} {p b bs size k oldSize : Nat} (hok : HeapOk s₁ ((p, size) :: live) cs)
    (hp : 16 ≤ p) (hplaced : (p - 16, ⟨bs + 32, some size, true⟩) ∈ placed Chunk.size s₁.heap.startAddress cs)
    (hmem : (b + 16, k) ∈ live) (hfits : oldSize ≤ bs)
    (hclean : CleanFree (copied s₁ p (b + 16) oldSize) (b + 16)) :
    p - 16 ≠ b ∧ HeapKept s₁ (copied s₁ p (b + 16) oldSize) cs cs (fun a => a = p - 16) ∧
      ∃ cs', HeapOk (kfree (copied s₁ p (b + 16) oldSize) (b + 16)) (((p, size) :: live).erase (b + 16, k)) cs' ∧
        HeapKept (copied s₁ p (b + 16) oldSize) (kfree (copied s₁ p (b + 16) oldSize) (b + 16)) cs cs' (fun a => a = b) ∧
        (p - 16, ⟨bs + 32, some size, true⟩) ∈
          placed Chunk.size (kfree (copied s₁ p (b + 16) oldSize) (b + 16)).heap.startAddress cs' := by
  have hne := new_block_ne hok hplaced hmem
  obtain ⟨hok₂, hkept₂⟩ := hok.payload (by simp) hplaced
    ((frame_rtCopyMemory s₁.mem p (b + 16) oldSize).mono fun x hx => by simp only; omega)
  have hok₂ : HeapOk (copied s₁ p (b + 16) oldSize) ((p, size) :: live) cs := hok₂
  have hkept₂ : HeapKept s₁ (copied s₁ p (b + 16) oldSize) cs cs (fun a => a = p - 16) := hkept₂
  obtain ⟨cs', hok₃, hkept₃⟩ := hok₂.kfree (List.mem_cons_of_mem _ hmem) hclean
  rw [Nat.add_sub_cancel] at hkept₃
  obtain ⟨hnew, -⟩ := hkept₃.blocks (p - 16) _ (hkept₂.start ▸ hplaced) (by simp) hne
  exact ⟨hne, hkept₂, cs', hok₃, hkept₃, hnew⟩

/-! ## Sizes -/

/-- The inner calls of `laihost_realloc(ptr, size, old_size)` keep the heap in order, with `n` for the size that `kmalloc`
takes. -/
structure CleanRealloc (s : HeapState) (live : List (Nat × Nat)) (ptr n oldSize : Nat) : Prop where
  block : ∃ k, (ptr, k) ∈ live
  alloc : CleanAlloc s n
  fits : oldSize ≤ blockSize (allocHole s n) n
  free : ∀ fuel p s₁, kmalloc fuel s n = some (p, s₁) → CleanFree (copied s₁ p ptr oldSize) ptr

theorem le_iff_of_truncated {size k : Nat} (hle : size % 2 ^ 32 ≤ k) (hlt : k < size % 2 ^ 32 + 32) :
    size ≤ k ↔ size < 2 ^ 32 := by
  omega

theorem capacity_of_blockFor {m : Mem} {p n : Nat} (h : BlockFor m p n) : n ≤ capacity m p ∧ capacity m p < n + 32 := by
  obtain ⟨e, k, rfl, hsize, hle, hlt⟩ := h
  unfold capacity sizeofHeapHeader sizeofHeapFooter
  rw [Nat.add_sub_cancel, hsize]
  omega

theorem kmalloc_mod (fuel : Nat) (s : HeapState) (size : Nat) : kmalloc fuel s (size % 2 ^ 32) = kmalloc fuel s size := by
  unfold kmalloc
  rw [Nat.mod_mod]

theorem laihostMalloc_capacity (h : HeapOk s live cs) {size : Nat} (hsafe : ExpandSafe s (size % 2 ^ 32)) {fuel p : Nat}
    (hcall : laihostMalloc fuel s size = some (p, s')) :
    size % 2 ^ 32 ≤ capacity s'.mem p ∧ capacity s'.mem p < size % 2 ^ 32 + 32 := by
  have hn : size % 2 ^ 32 < 2 ^ 32 := Nat.mod_lt _ (by decide)
  cases hfind : heapFindSmallestHole s (size % 2 ^ 32 + 32) 0 with
  | some iterator =>
      obtain ⟨p', s₁, cs₁, hk, hok, -, hfit, hp, hplaced⟩ :=
        kmalloc_block h hn (Or.inl (by rw [hfind]; rfl)) fuel
      rw [kmalloc_mod] at hk
      obtain ⟨rfl, rfl⟩ := Prod.mk.inj (heapAllocate_unique hk hcall)
      have hcap := capacity_eq hok hplaced
      rw [Nat.sub_add_cancel hp] at hcap
      rw [hcap]
      exact ⟨(blockSize_fits hfit).1, blockSize_lt hfit⟩
  | none =>
      have hgrow := h.expandable hsafe hfind
      exact capacity_of_blockFor (block_of_heapAllocate hgrow.toIndexSafe (Or.inr hgrow) hn hcall)

theorem laihostRealloc_capacity (h : HeapOk s live cs) {ptr size oldSize : Nat}
    (hclean : CleanRealloc s live ptr (size % 2 ^ 32) oldSize) (h0 : size ≠ 0) (hne : size ≠ oldSize) {fuel p : Nat}
    (hcall : laihostRealloc fuel s ptr size oldSize = some (p, s')) :
    size % 2 ^ 32 ≤ capacity s'.mem p ∧ capacity s'.mem p < size % 2 ^ 32 + 32 := by
  obtain ⟨⟨k, hmem⟩, halloc, hfits, hfree⟩ := hclean
  obtain ⟨b, c, -, rfl, hb⟩ := mem_used.mp (h.live.subset hmem)
  obtain ⟨p', s₁, cs₁, hk, hok, -, hfit, hp, hplaced⟩ := kmalloc_block h (Nat.mod_lt _ (by decide)) halloc fuel
  unfold laihostRealloc at hcall
  rw [if_neg hne, if_neg h0, if_neg (by omega)] at hcall
  obtain ⟨⟨p₂, s₂⟩, hk₂, hret⟩ := Option.map_eq_some_iff.mp hcall
  rw [← kmalloc_mod] at hk₂
  obtain ⟨rfl, rfl⟩ := Prod.mk.inj (heapAllocate_unique hk hk₂)
  obtain ⟨rfl, rfl⟩ := Prod.mk.inj hret
  obtain ⟨-, -, cs', hok', -, hnew⟩ := copied_kfree hok hp hplaced hmem hfits (hfree _ _ _ hk)
  have hcap := capacity_eq hok' hnew
  rw [Nat.sub_add_cancel hp] at hcap
  rw [hcap]
  exact ⟨(blockSize_fits hfit).1, blockSize_lt hfit⟩

/-- The size leaves `HeapExpand` something to do, or a hole is there. -/
def Returns (s : HeapState) (n : Nat) : Prop :=
  (heapFindSmallestHole s (n + 32) 0).isSome = true ∨ n + 32 < 2 ^ 32 - 4096 ∨ 2 ^ 32 ≤ n + 32

theorem heapOk_one {n p : Nat} (hn : n < 2 ^ 32) (hclean : CleanAlloc zeroHeap.state n)
    (hcall : kmalloc 1 zeroHeap.state n = some (p, s)) : ∃ cs, HeapOk s [(p, n)] cs := by
  have hok := heapOk_boot (fun _ => 0) fun _ _ => 0
  rw [show mmInitializeHeap (fun _ => 0) (fun _ _ => 0) = zeroHeap.state from congrArg HeapRun.state boot_zero] at hok
  unfold kmalloc at hcall
  rw [Nat.mod_eq_of_lt hn] at hcall
  obtain ⟨-, -, cs, -, -, hok', -⟩ := hok.kmalloc hn hclean hcall
  exact ⟨cs, hok'⟩

theorem block_of_sixteen : ∃ s q s₁ cs, kmalloc 1 zeroHeap.state 16 = some (0x100000101010, s) ∧
    HeapOk s [(0x100000101010, 16)] cs ∧ kmalloc 2 s 32 = some (q, s₁) ∧ CleanAlloc s 32 ∧
      16 ≤ capacity s.mem 0x100000101010 ∧ 16 ≤ blockSize (allocHole s 32) 32 ∧
        CleanFree (copied s₁ q 0x100000101010 16) 0x100000101010 := by
  have hrun : ((kmalloc 1 zeroHeap.state 16).bind fun x => (kmalloc 2 x.2 32).map fun y =>
      (x.1, decide (CleanAlloc x.2 32), decide (16 ≤ capacity x.2.mem x.1),
        decide (16 ≤ blockSize (allocHole x.2 32) 32), decide (CleanFree (copied y.2 y.1 x.1 16) x.1))) =
          some (0x100000101010, true, true, true, true) := by decide +kernel
  obtain ⟨⟨ptr, s⟩, hcall, hrest⟩ := Option.bind_eq_some_iff.mp hrun
  obtain ⟨⟨q, s₁⟩, hcall₁, heq⟩ := Option.map_eq_some_iff.mp hrest
  simp only [Prod.mk.injEq, decide_eq_true_iff] at heq
  obtain ⟨rfl, hclean, hcap, hfits, hfree⟩ := heq
  obtain ⟨cs, hok⟩ := heapOk_one (by decide) (by decide +kernel) hcall
  exact ⟨s, q, s₁, cs, hcall, hok, hcall₁, hclean, hcap, hfits, hfree⟩

/-- A byte of the header or the footer of the chunk `c` at `a`. -/
def TagByte (a : Nat) (c : Chunk) (x : Nat) : Prop :=
  (a ≤ x ∧ x < a + sizeofHeapHeader) ∨ (a + c.size - sizeofHeapFooter ≤ x ∧ x < a + c.size)

/-- The call `laihost_realloc(ptr, size, old_size)` with the result `p` and `s'`: a block in use of at least `size` bytes with
the old contents; the other blocks keep all their bytes, and `RtCopyMemory` writes no byte of a tag. -/
structure ReallocOk (fuel : Nat) (s : HeapState) (live : List (Nat × Nat)) (ptr size oldSize p : Nat) (s' : HeapState) :
    Prop where
  inUse : ∃ live' cs', HeapOk s' live' cs' ∧ (∃ n, (p, n) ∈ live') ∧ ∀ q ∈ live, q.1 ≠ ptr → q ∈ live'
  room : size ≤ capacity s'.mem p
  contents : ∀ i, i < min size oldSize → s'.mem (p + i) = s.mem (ptr + i)
  others : ∀ q ∈ live, q.1 ≠ ptr → ∀ i, i < capacity s.mem q.1 → s'.mem (q.1 + i) = s.mem (q.1 + i)
  tags : size ≠ oldSize → ∀ s₁ cs₁, kmalloc fuel s size = some (p, s₁) → HeapOk s₁ ((p, size) :: live) cs₁ →
    ∀ a c, (a, c) ∈ placed Chunk.size s₁.heap.startAddress cs₁ → ∀ x, p ≤ x → x < p + oldSize → ¬ TagByte a c x

theorem reallocOk_same (h : HeapOk s live cs) {ptr n size : Nat} (hp : (ptr, n) ∈ live) (hcap : size ≤ capacity s.mem ptr)
    (fuel : Nat) : ReallocOk fuel s live ptr size size ptr s := by
  refine ⟨⟨live, cs, h, ⟨n, hp⟩, fun q hq _ => hq⟩, hcap, fun i _ => rfl, fun q _ _ i _ => rfl, ?_⟩
  intro hne
  exact absurd rfl hne

/-- Where the copy writes no tag it stays in the new block. -/
theorem fits_of_reallocOk (h : HeapOk s live cs) {ptr size oldSize : Nat} (hsize : size < 2 ^ 32)
    (hclean : CleanAlloc s size) {fuel p : Nat} {s' : HeapState} (hne : size ≠ oldSize) (h0 : size ≠ 0) (hptr : ptr ≠ 0)
    (hcall : laihostRealloc (fuel + 2) s ptr size oldSize = some (p, s'))
    (hok : ReallocOk (fuel + 2) s live ptr size oldSize p s') : oldSize ≤ blockSize (allocHole s size) size := by
  obtain ⟨p', s₁, cs₁, hk, hok₁, -, hfit, hp, hplaced⟩ := kmalloc_block h hsize hclean fuel
  unfold laihostRealloc at hcall
  rw [if_neg hne, if_neg h0, if_neg hptr, hk] at hcall
  obtain ⟨rfl, -⟩ := Prod.mk.inj (Option.some.inj hcall)
  by_contra hgt
  -- the byte behind the payload is the first one of the footer
  refine hok.tags hne s₁ cs₁ hk hok₁ _ _ hplaced (p' + blockSize (allocHole s size) size) (by omega) (by omega) ?_
  right
  unfold sizeofHeapFooter
  simp only
  omega

theorem not_tagByte {p n : Nat} (h : HeapOk s live cs) (hp : (p, n) ∈ live) {a : Nat} {c : Chunk}
    (hc : (a, c) ∈ placed Chunk.size s.heap.startAddress cs) {x : Nat} (h1 : p ≤ x) (h2 : x < p + capacity s.mem p) :
    ¬ TagByte a c x := by
  obtain ⟨b, blk, -, rfl, hb⟩ := mem_used.mp (h.live.subset hp)
  have hsz := (h.rep.tiles _ hc).size
  have hblk := (h.rep.tiles _ hb).size
  rw [capacity_eq h hb] at h2
  simp only at hsz hblk
  unfold TagByte sizeofHeapHeader sizeofHeapFooter
  intro htag
  have heq := placed_eq_of_overlap Chunk.size hc hb (by simp only; omega) (by simp only; omega)
  obtain ⟨rfl, rfl⟩ := Prod.mk.inj heq
  omega

/-- **A copy that stays in the new block.** -/
theorem reallocOk_of_fits (h : HeapOk s live cs) {ptr n size oldSize : Nat} (hmem : (ptr, n) ∈ live)
    (hcap : oldSize ≤ capacity s.mem ptr) (hsize : size < 2 ^ 32) (hclean : CleanAlloc s size) {fuel : Nat}
    (hne : size ≠ oldSize) (h0 : size ≠ 0) (hfits : oldSize ≤ blockSize (allocHole s size) size)
    (hfree : ∀ p s₁, kmalloc (fuel + 2) s size = some (p, s₁) → CleanFree (copied s₁ p ptr oldSize) ptr) :
    ∃ p s', laihostRealloc (fuel + 2) s ptr size oldSize = some (p, s') ∧
      ReallocOk (fuel + 2) s live ptr size oldSize p s' := by
  obtain ⟨p, s₁, cs₁, hk, hok₁, hkept₁, hfit, hp, hplaced⟩ := kmalloc_block h hsize hclean fuel
  obtain ⟨hbs, -⟩ := blockSize_fits hfit
  obtain ⟨bs, hbs'⟩ : ∃ bs, bs = blockSize (allocHole s size) size := ⟨_, rfl⟩
  rw [← hbs'] at hplaced hfits hbs
  -- the old block, before and after `kmalloc`
  obtain ⟨b, c, hc, rfl, hb⟩ := mem_used.mp (h.live.subset hmem)
  rw [capacity_eq h hb] at hcap
  obtain ⟨hb₁, hkb⟩ := hkept₁ b c hb (by simp [hc]) id
  have hcsz : 32 ≤ c.size := (h.rep.tiles _ hb).size
  have hapart : p - 16 + (bs + 32) ≤ b ∨ b + c.size ≤ p - 16 := by
    have hdis := (List.pairwise_cons.mp hok₁.blocksOk.disjoint).1 _ hmem
    unfold chunkEnd chunkStart sizeofHeapHeader at hdis
    simp only [Nat.add_sub_cancel] at hdis
    rw [(hok₁.rep.tiles _ hplaced).header.size, (hok₁.rep.tiles _ hb₁).header.size] at hdis
    exact hdis
  have hcopy : ∀ i, i < oldSize → (copied s₁ p (b + 16) oldSize).mem (p + i) = s₁.mem (b + 16 + i) :=
    fun i hi => rtCopyMemory_apply s₁.mem hi (by omega)
  have hcap₁ : capacity s₁.mem p = bs := by
    have := capacity_eq hok₁ hplaced
    rw [Nat.sub_add_cancel hp] at this
    simpa using this
  have hcall : laihostRealloc (fuel + 2) s (b + 16) size oldSize =
      some (p, kfree (copied s₁ p (b + 16) oldSize) (b + 16)) := by
    unfold laihostRealloc
    rw [if_neg hne, if_neg h0, if_neg (by omega), hk]
    rfl
  obtain ⟨hne', hkept₂, cs₃, hok₃, hkept₃, hnew₃⟩ := copied_kfree hok₁ hp hplaced hmem hfits (hfree p s₁ hk)
  generalize copied s₁ p (b + 16) oldSize = s₂ at hkept₂ hcopy hcall hok₃ hkept₃ hnew₃
  obtain ⟨-, hknew⟩ := hkept₃.blocks (p - 16) _ (hkept₂.start ▸ hplaced) (by simp) hne'
  refine ⟨p, _, hcall, ⟨_, cs₃, hok₃, ⟨size, ?_⟩, fun q hq hqp => ?_⟩, ?_, ?_, ?_, ?_⟩
  · apply (List.mem_erase_of_ne fun he => ?_).mpr List.mem_cons_self
    have := (Prod.mk.inj he).1
    omega
  · apply (List.mem_erase_of_ne fun he => ?_).mpr (List.mem_cons_of_mem _ hq)
    exact hqp (congrArg Prod.fst he)
  · have := capacity_eq hok₃ hnew₃
    rw [Nat.sub_add_cancel hp] at this
    rw [this]
    simpa using hbs
  · intro i hi
    rw [hknew (p + i) (by omega) (by simp only; omega), hcopy i (by omega), hkb (b + 16 + i) (by omega) (by omega)]
  · rintro ⟨q, k⟩ hq hqp i hi
    obtain ⟨b', c', hc', rfl, hb'⟩ := mem_used.mp (h.live.subset hq)
    rw [capacity_eq h hb'] at hi
    obtain ⟨hb₁', hk₁⟩ := hkept₁ b' c' hb' (by simp [hc']) id
    obtain ⟨hb₂', hk₂⟩ := hkept₂.blocks b' c' hb₁' (by simp [hc']) (new_block_ne hok₁ hplaced hq).symm
    obtain ⟨-, hk₃⟩ := hkept₃.blocks b' c' hb₂' (by simp [hc']) fun he => hqp (by rw [he])
    exact ((hk₁.trans hk₂).trans hk₃) (b' + 16 + i) (by omega) (by omega)
  · intro _ s₁' cs₁' hk' hok' a c' hc' x h1 h2
    obtain ⟨-, rfl⟩ := Prod.mk.inj (Option.some.inj (hk.symm.trans hk'))
    exact not_tagByte hok' List.mem_cons_self hc' h1 (by rw [hcap₁]; omega)

end Gewodsys.Cpu
