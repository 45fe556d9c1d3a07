import Gewodsys.Mem.HeapExtent

/-!
# The block of a `kmalloc` that grows the heap more than once

`HeapExpand` rounds with a mask of 32 bits, so near 4 GiB `HeapAllocate` may grow the heap again and again, or shrink it.

* `expandSize_cases` : what `HeapExpand` makes of the length that is asked for;
* `IndexSafe` : every entry of the index is the address of a header that may be written;
* `Expandable`, `Expandable.grow` : the state between two calls of `HeapExpand`, and one of them;
* `block_of_heapAllocate` : the header of the block that the last call cuts; `Expandable.returns` : when there is one;
* `ExpandSafe` : the calls on a heap in order for which all this holds.
-/

namespace Gewodsys.Mem
open Gewodsys.Machine Gewodsys.Lib

variable {s s' : HeapState} {n : Nat}

/-! ## Lengths -/

/-- What `HeapExpand` makes of `L + n + 32`: enough, the same length, one page more, or less than before. -/
theorem expandSize_cases {L : Nat} (hpage : L % 4096 = 0) (hlow : 0x2000 ≤ L) (hL : L ≤ 2 ^ 32) (hn : n < 2 ^ 32) :
    ((n + 32 < 2 ^ 32 - 4096 ∨ 2 ^ 32 ≤ n + 32) ∧ L + (n + 32) ≤ expandSize (L + (n + 32)) ∧
        expandSize (L + (n + 32)) < 2 ^ 34) ∨
      (2 ^ 32 - 4096 ≤ n + 32 ∧ n + 32 < 2 ^ 32 ∧ expandSize (L + (n + 32)) = L) ∨
      (2 ^ 32 ≤ n + 32 ∧ L + 4096 ≤ 2 ^ 32 ∧ expandSize (L + (n + 32)) = L + 4096) ∨
      (n + 32 < 2 ^ 32 - 4096 ∧ 2 ^ 32 + 4096 ≤ L + (n + 32) ∧ expandSize (L + (n + 32)) % 4096 = 0 ∧
        0x2000 ≤ expandSize (L + (n + 32)) ∧ expandSize (L + (n + 32)) + 4096 ≤ L) := by
  unfold expandSize
  rw [land_expand]
  split_ifs
  · omega
  · omega

/-! ## One growth -/

/-- The index lies below the heap and its entries in it. -/
structure IndexSafe (s : HeapState) : Prop extends IndexBelow s where
  entries : ∀ e ∈ contents s.mem s.heap.index, s.heap.startAddress ≤ e ∧ e < 2 ^ 63

/-- The entry of highest address. -/
def Highest (s : HeapState) (e : Nat) : Prop :=
  e ∈ contents s.mem s.heap.index ∧ ∀ e' ∈ contents s.mem s.heap.index, e' ≤ e

theorem IndexSafe.of_contents (h : IndexSafe s) (hbase : SameBase s s') (hroom : s'.heap.index.size ≤ s'.heap.index.capacity)
    {G : Nat} (hend : s'.heap.endAddress = s.heap.startAddress + G) (htop : s.heap.startAddress + G < 2 ^ 64)
    (hentries : ∀ e ∈ contents s'.mem s'.heap.index, s.heap.startAddress ≤ e ∧ e < 2 ^ 63) : IndexSafe s' := by
  refine ⟨⟨?_, hroom, hbase.capacity.trans h.capacity, ?_, ?_⟩, ?_⟩
  · rw [hbase.array, hbase.capacity, hbase.startAddress]
    exact h.slots
  · rw [hbase.startAddress, hend]
    omega
  · rw [hend]
    exact htop
  · rw [hbase.startAddress]
    exact hentries

theorem IndexSafe.exists_highest (h : IndexSafe s) (hne : s.heap.index.size ≠ 0) : ∃ e, Highest s e := by
  have hmem := arrayGet_mem_contents s.mem s.heap.index (i := 0) (by omega)
  obtain ⟨hsome, hnone⟩ := highestHole_spec s
  cases hhole : highestHole s with
  | none =>
      have hzero := hnone hhole _ hmem
      have hlow := (h.entries _ hmem).1
      have := h.low
      omega
  | some k =>
      obtain ⟨hk, hmax⟩ := hsome k hhole
      exact ⟨_, arrayGet_mem_contents s.mem s.heap.index hk, hmax⟩

section Grow
variable {size L G : Nat}

/-- Growing or shrinking with a hole in the index, where the footer of the highest one stays in the heap and apart from its
header. -/
theorem IndexSafe.grow_highest (h : IndexSafe s) (hpage : s.heap.endAddress % 4096 = 0)
    (hL : s.heap.endAddress = s.heap.startAddress + L) (hsize : L + size < 2 ^ 64) (hG : expandSize (L + size) = G)
    (htop : s.heap.startAddress + G < 2 ^ 64) (hne : s.heap.index.size ≠ 0)
    (hin : ∀ e, Highest s e → L < G → e + 16 ≤ s.heap.endAddress)
    (hfoot : ∀ e, Highest s e → s.heap.startAddress ≤ grownFooter e (add64 (headerSize s.mem e) (sub64 G L)) ∧
      (grownFooter e (add64 (headerSize s.mem e) (sub64 G L)) + 16 ≤ e ∨
        e + 16 ≤ grownFooter e (add64 (headerSize s.mem e) (sub64 G L)))) :
    ∃ e, Highest s e ∧ IndexSafe (heapGrow s size) ∧ (heapGrow s size).heap.endAddress = s.heap.startAddress + G ∧
      Highest (heapGrow s size) e ∧ headerSize (heapGrow s size).mem e = add64 (headerSize s.mem e) (sub64 G L) := by
  have hlow := h.low
  have hmul : s.heap.endAddress / 4096 * 4096 = s.heap.endAddress := by omega
  obtain ⟨e₀, he₀⟩ := h.exists_highest hne
  obtain ⟨e, he, hmax, hheap, m', hframe, hmem⟩ := heapGrow_highest h.toIndexBelow hL hsize hG htop
    ⟨e₀, he₀.1, by have := h.entries e₀ he₀.1; omega⟩
    (fun e he hlt => by
      have := hin e₀ he₀ hlt
      have := he₀.2 e he
      omega)
    (fun _ => by omega)
  obtain ⟨hlo, hapart⟩ := hfoot e ⟨he, hmax⟩
  have hlt : add64 (headerSize s.mem e) (sub64 G L) < 2 ^ 64 := by
    unfold add64
    omega
  obtain ⟨hcont, hhead, -⟩ := grown_tags h.toIndexBelow hframe (fun x hx => by omega) (by rw [hheap]) hmem hlt
    (h.entries e he).1 hlo hapart
  refine ⟨e, ⟨he, hmax⟩, ?_, by rw [hheap], ?_, hhead⟩
  · apply h.of_contents (heapGrow_end s size).2 ?_ (by rw [hheap]) htop
    · rw [hcont]
      exact h.entries
    · rw [hheap]
      exact h.size
  · rw [Highest, hcont]
    exact ⟨he, hmax⟩

theorem IndexSafe.grow_empty (h : IndexSafe s) (hL : s.heap.endAddress = s.heap.startAddress + L)
    (hsize : L + size < 2 ^ 64) (hG : expandSize (L + size) = G) (htop : s.heap.startAddress + G < 2 ^ 64)
    (hempty : s.heap.index.size = 0) (hhigh : s.heap.endAddress < 2 ^ 63)
    (hapart : grownFooter s.heap.endAddress (sub64 G L) + 16 ≤ s.heap.endAddress ∨
      s.heap.endAddress + 16 ≤ grownFooter s.heap.endAddress (sub64 G L)) :
    IndexSafe (heapGrow s size) ∧ (heapGrow s size).heap.endAddress = s.heap.startAddress + G ∧
      Highest (heapGrow s size) s.heap.endAddress ∧ headerSize (heapGrow s size).mem s.heap.endAddress = sub64 G L := by
  obtain ⟨hcont, hhead⟩ := h.toIndexBelow.grown_empty hL hsize hG htop hempty rfl hapart
  obtain ⟨m, hheap, -⟩ := heapGrow_empty h.toIndexBelow hL hsize hG htop hempty
  have hcap := h.capacity
  refine ⟨h.of_contents (heapGrow_end s size).2 ?_ (by rw [hheap]) htop ?_, by rw [hheap], ?_, hhead⟩
  · have hlen := congrArg List.length hcont
    rw [length_contents, List.length_singleton] at hlen
    rw [hlen, (heapGrow_end s size).2.capacity, hcap, heapIndexSize_eq]
    omega
  · rw [hcont]
    intro e he
    rw [List.mem_singleton.mp he]
    exact ⟨h.stop, hhigh⟩
  · rw [Highest, hcont]
    exact ⟨List.mem_singleton_self _, fun e he => (List.mem_singleton.mp he).le⟩

end Grow

/-! ## Growth after growth -/

/-- What one more `HeapExpand` asks of the highest hole: its footer stays apart from its header. -/
structure TopFits (s : HeapState) (n e : Nat) : Prop where
  tags : headerSize s.mem e = 0 ∨ 32 ≤ headerSize s.mem e
  footer : s.heap.startAddress + 16 ≤ e + headerSize s.mem e
  inside : n + 32 < 2 ^ 32 - 4096 ∨ 2 ^ 32 ≤ n + 32 →
    32 ≤ headerSize s.mem e ∧ e + headerSize s.mem e ≤ s.heap.endAddress
  /-- `HeapExpand` will make the heap shorter. -/
  tail : n + 32 < 2 ^ 32 - 4096 → 2 ^ 32 + 4096 ≤ s.heap.endAddress - s.heap.startAddress + (n + 32) →
    e + headerSize s.mem e = s.heap.endAddress ∧ (e = s.heap.startAddress ∨ 0 < e % 4096 ∧ e % 4096 ≤ 4064)

/-- The heap between two calls of `HeapExpand` for `kmalloc(n)`. -/
structure Expandable (s : HeapState) (n : Nat) : Prop extends IndexSafe s where
  pages : s.heap.startAddress % 4096 = 0 ∧ s.heap.endAddress % 4096 = 0
  low : s.heap.startAddress < 2 ^ 62
  least : s.heap.startAddress + 0x2000 ≤ s.heap.endAddress
  most : s.heap.endAddress ≤ s.heap.startAddress + 2 ^ 32
  highest : ∀ e, Highest s e → TopFits s n e

theorem Expandable.of_highest (h : Expandable s n) (hsafe : IndexSafe s') (hbase : SameBase s s') {G : Nat}
    (hend : s'.heap.endAddress = s.heap.startAddress + G) (hpage : G % 4096 = 0) (hleast : 0x2000 ≤ G)
    (hmost : G ≤ 2 ^ 32) {e : Nat} (he : Highest s' e) (htop : TopFits s' n e) : Expandable s' n := by
  have hstart := hbase.startAddress
  obtain ⟨h1, h2⟩ := h.pages
  refine ⟨hsafe, by omega, ?_, by omega, by omega, fun e' he' => ?_⟩
  · rw [hstart]
    exact h.low
  · have heq : e' = e := Nat.le_antisymm (he.2 e' he'.1) (he'.2 e he.1)
    rw [heq]
    exact htop

theorem Expandable.exists_length (h : Expandable s n) :
    ∃ L, s.heap.endAddress = s.heap.startAddress + L ∧ L % 4096 = 0 ∧ 0x2000 ≤ L ∧ L ≤ 2 ^ 32 := by
  obtain ⟨hpage, hpage'⟩ := h.pages
  have hleast := h.least
  have hmost := h.most
  obtain ⟨L, hL⟩ := Nat.exists_eq_add_of_le (show s.heap.startAddress ≤ s.heap.endAddress by omega)
  exact ⟨L, hL, by omega, by omega, by omega⟩

/-- How far a call of `HeapExpand` that is not the last one moves the end. -/
def Moves (n : Nat) (s s' : HeapState) : Prop :=
  (2 ^ 32 - 4096 ≤ n + 32 ∧ n + 32 < 2 ^ 32) ∨ (2 ^ 32 ≤ n + 32 ∧ s'.heap.endAddress = s.heap.endAddress + 4096) ∨
    (n + 32 < 2 ^ 32 - 4096 ∧ s'.heap.endAddress + 4096 ≤ s.heap.endAddress)

theorem grownFooter_of_lt {e size : Nat} (hlow : 16 ≤ e + size) (hlt : e + size < 2 ^ 64) :
    grownFooter e size = e + size - 16 := by
  unfold grownFooter
  rw [add64_of_lt hlt]
  exact sub64_of_le hlt hlow

theorem add64_change {size L G : Nat} (hsize : L ≤ size + G) (hlt : size + G < 2 ^ 64) (hL : L < 2 ^ 64) :
    add64 size (sub64 G L) = size + G - L := by
  unfold add64 sub64
  omega

/-- What one call of `HeapExpand` leads to. -/
def Grown (s : HeapState) (n : Nat) : Prop :=
  IndexSafe (heapGrow s (n + 32)) ∧ ((heapFindSmallestHole (heapGrow s (n + 32)) (n + 32) 0).isSome = true ∨
    Expandable (heapGrow s (n + 32)) n ∧ Moves n s (heapGrow s (n + 32)))

theorem Expandable.grow_new (h : Expandable s n) (hn : n < 2 ^ 32) (hempty : s.heap.index.size = 0) : Grown s n := by
  have hbase : SameBase s (heapGrow s (n + 32)) := (heapGrow_end s (n + 32)).2
  have hstart := hbase.startAddress
  have hlow := h.low
  obtain ⟨L, hL, hpage, hleast, hmost⟩ := h.exists_length
  obtain ⟨G, hG⟩ : ∃ G, expandSize (L + (n + 32)) = G := ⟨_, rfl⟩
  have hcases := expandSize_cases hpage hleast hmost hn
  rw [hG] at hcases
  obtain ⟨hsafe, hend, hhigh, hhead⟩ := h.toIndexSafe.grow_empty hL (by omega) hG (by omega) hempty (by omega) (by
    unfold grownFooter sub64 add64 sizeofHeapFooter
    omega)
  refine ⟨hsafe, ?_⟩
  rcases hcases with ⟨-, hlong, hG34⟩ | ⟨hn1, hn2, rfl⟩ | ⟨hn1, hroom, rfl⟩ | ⟨hn1, hover, hGpage, hGlow, hless⟩
  · left
    apply find_of_mem hhigh.1
    rw [hhead, sub64_of_le (by omega) (by omega)]
    omega
  · right
    rw [sub64_of_le (by omega) (Nat.le_refl _), Nat.sub_self] at hhead
    refine ⟨h.of_highest hsafe hbase hend (by omega) (by omega) (by omega) hhigh ?_, Or.inl ⟨hn1, hn2⟩⟩
    refine ⟨Or.inl hhead, ?_, ?_, ?_⟩
    · omega
    · omega
    · omega
  · right
    rw [sub64_of_le (by omega) (by omega), Nat.add_sub_cancel_left] at hhead
    refine ⟨h.of_highest hsafe hbase hend (by omega) (by omega) hroom hhigh ?_, Or.inr (Or.inl ⟨hn1, ?_⟩)⟩
    · refine ⟨?_, ?_, ?_, ?_⟩
      · omega
      · omega
      · omega
      · omega
    · rw [hend, hL, Nat.add_assoc]
  · -- the difference of the lengths wraps, and the search takes it for a size
    left
    apply find_of_mem hhigh.1
    rw [hhead]
    unfold sub64
    omega

/-- The highest hole, where its new end does not wrap. -/
theorem Expandable.grow_hole (h : Expandable s n) (hn : n < 2 ^ 32) (hne : s.heap.index.size ≠ 0) {L G : Nat}
    (hL : s.heap.endAddress = s.heap.startAddress + L) (hG : expandSize (L + (n + 32)) = G) (hlt : G < 2 ^ 34)
    (hin : ∀ e, Highest s e → L < G → e + 16 ≤ s.heap.endAddress)
    (hsmall : ∀ e, Highest s e → headerSize s.mem e < n + 32)
    (hfoot : ∀ e, Highest s e → s.heap.startAddress + 16 + L ≤ e + headerSize s.mem e + G ∧
      L ≤ headerSize s.mem e + G ∧ (headerSize s.mem e + G - L = 0 ∨ 32 ≤ headerSize s.mem e + G - L)) :
    ∃ e, Highest s e ∧ IndexSafe (heapGrow s (n + 32)) ∧
      (heapGrow s (n + 32)).heap.endAddress = s.heap.startAddress + G ∧ Highest (heapGrow s (n + 32)) e ∧
      headerSize (heapGrow s (n + 32)).mem e = headerSize s.mem e + G - L := by
  have hlow := h.low
  have hmost := h.most
  have hsize : ∀ e, Highest s e → add64 (headerSize s.mem e) (sub64 G L) = headerSize s.mem e + G - L := by
    intro e he
    obtain ⟨-, hle, -⟩ := hfoot e he
    have := hsmall e he
    exact add64_change hle (by omega) (by omega)
  obtain ⟨e, he, hsafe, hend, hhigh, hhead⟩ := h.toIndexSafe.grow_highest h.pages.2 hL (by omega) hG (by omega) hne hin
    (fun e he => by
      obtain ⟨h1, h2, h3⟩ := hfoot e he
      have hlt := hsmall e he
      have hentry := h.entries e he.1
      rw [hsize e he, grownFooter_of_lt (by omega) (by omega)]
      omega)
  rw [hsize e he] at hhead
  exact ⟨e, he, hsafe, hend, hhigh, hhead⟩

/-- The highest hole, where the new end lies before it. -/
theorem Expandable.grow_past (h : Expandable s n) (hn : n < 2 ^ 32) (hne : s.heap.index.size ≠ 0) {L G : Nat}
    (hL : s.heap.endAddress = s.heap.startAddress + L) (hG : expandSize (L + (n + 32)) = G) (hlow : 0x2000 ≤ G)
    (hless : G ≤ L)
    (hpast : ∀ e, Highest s e → s.heap.startAddress + G < e ∧ e + headerSize s.mem e = s.heap.endAddress) :
    IndexSafe (heapGrow s (n + 32)) ∧ (heapFindSmallestHole (heapGrow s (n + 32)) (n + 32) 0).isSome = true := by
  have hstart := h.low
  have hmost := h.most
  have hsize : ∀ e, Highest s e → add64 (headerSize s.mem e) (sub64 G L) = 2 ^ 64 - (e - (s.heap.startAddress + G)) := by
    intro e he
    have hpast := hpast e he
    unfold add64 sub64
    omega
  obtain ⟨e, he, hsafe, -, hhigh, hhead⟩ := h.toIndexSafe.grow_highest h.pages.2 hL (by omega) hG (by omega) hne
    (fun e he hlt => by omega)
    (fun e he => by
      have hpast := hpast e he
      have hfoot : grownFooter e (2 ^ 64 - (e - (s.heap.startAddress + G))) = s.heap.startAddress + G - 16 := by
        unfold grownFooter sub64 add64 sizeofHeapFooter
        omega
      rw [hsize e he, hfoot]
      omega)
  refine ⟨hsafe, find_of_mem hhigh.1 ?_⟩
  have hpast := hpast e he
  rw [hhead, hsize e he]
  omega

/-- The heap gets shorter: the highest hole is cut with it, or lies behind the new end. -/
theorem Expandable.grow_shorter (h : Expandable s n) (hn : n < 2 ^ 32) (hempty : ¬ s.heap.index.size = 0)
    (hsmall : ∀ e, Highest s e → headerSize s.mem e < n + 32) {L G : Nat}
    (hL : s.heap.endAddress = s.heap.startAddress + L) (hG : expandSize (L + (n + 32)) = G) (hn1 : n + 32 < 2 ^ 32 - 4096)
    (hover : 2 ^ 32 + 4096 ≤ L + (n + 32)) (hGpage : G % 4096 = 0) (hGlow : 0x2000 ≤ G) (hless : G + 4096 ≤ L) :
    Grown s n := by
  have hbase : SameBase s (heapGrow s (n + 32)) := (heapGrow_end s (n + 32)).2
  have hstart := hbase.startAddress
  have hlow := h.low
  have hmost := h.most
  obtain ⟨hpage, hpage'⟩ := h.pages
  have htail : ∀ e, Highest s e → e + headerSize s.mem e = s.heap.endAddress ∧
      (e = s.heap.startAddress ∨ 0 < e % 4096 ∧ e % 4096 ≤ 4064) :=
    fun e he => (h.highest e he).tail hn1 (by rw [hL, Nat.add_sub_cancel_left]; exact hover)
  obtain ⟨e₀, he₀⟩ := h.toIndexSafe.exists_highest hempty
  have huniq : ∀ e, Highest s e → e = e₀ := fun e he => Nat.le_antisymm (he₀.2 e he.1) (he.2 e₀ he₀.1)
  obtain ⟨hlast, hpos⟩ := htail e₀ he₀
  by_cases hcut : e₀ ≤ s.heap.startAddress + G
  · obtain ⟨e, he, hsafe, hend, hhigh, hhead⟩ := h.grow_hole hn hempty hL hG (by omega) (fun e he hlt => by omega) hsmall
      (fun e he => by
        rw [huniq e he]
        omega)
    rw [huniq e he] at hhigh hhead
    refine ⟨hsafe, Or.inr ⟨h.of_highest hsafe hbase hend hGpage hGlow (by omega) hhigh ?_, Or.inr (Or.inr ⟨hn1, by omega⟩)⟩⟩
    refine ⟨?_, ?_, ?_, ?_⟩
    · omega
    · omega
    · omega
    · intro _ _
      refine ⟨by omega, ?_⟩
      rw [hstart]
      exact hpos
  · obtain ⟨hsafe, hsome⟩ := h.grow_past hn hempty hL hG hGlow (by omega) fun e he => by
      rw [huniq e he]
      omega
    exact ⟨hsafe, Or.inl hsome⟩

/-- **One growth**: the search finds a hole, or the heap is ready for the next one. -/
theorem Expandable.grow (h : Expandable s n) (hn : n < 2 ^ 32) (hnone : heapFindSmallestHole s (n + 32) 0 = none) :
    Grown s n := by
  by_cases hempty : s.heap.index.size = 0
  · exact h.grow_new hn hempty
  have hbase : SameBase s (heapGrow s (n + 32)) := (heapGrow_end s (n + 32)).2
  have hstart := hbase.startAddress
  have hlow := h.low
  obtain ⟨L, hL, hpage, hleast, hmost⟩ := h.exists_length
  obtain ⟨G, hG⟩ : ∃ G, expandSize (L + (n + 32)) = G := ⟨_, rfl⟩
  have hcases := expandSize_cases hpage hleast hmost hn
  rw [hG] at hcases
  have hsmall : ∀ e, Highest s e → headerSize s.mem e < n + 32 := by
    intro e he
    obtain ⟨j, hj, rfl⟩ := List.mem_map.mp he.1
    exact heapFindSmallestHole_eq_none hnone j (List.mem_range.mp hj)
  rcases hcases with ⟨hn', hlong, hG34⟩ | ⟨hn1, hn2, hsame⟩ | ⟨hn1, hroom, hmore⟩ | ⟨hn1, hover, hGpage, hGlow, hless⟩
  · have hinside := fun e he => (h.highest e he).inside hn'
    obtain ⟨e, he, hsafe, -, hhigh, hhead⟩ := h.grow_hole hn hempty hL hG hG34
      (fun e he _ => by have := hinside e he; omega) hsmall (fun e he => by
        have := hinside e he
        have := (h.entries e he.1).1
        omega)
    refine ⟨hsafe, Or.inl (find_of_mem hhigh.1 ?_)⟩
    rw [hhead]
    omega
  · obtain ⟨e, he, hsafe, hend, hhigh, hhead⟩ := h.grow_hole hn hempty hL hG (by omega) (fun e he hlt => by omega) hsmall
      (fun e he => by
        obtain ⟨htags, hfoot, -, -⟩ := h.highest e he
        omega)
    rw [hsame, Nat.add_sub_cancel] at hhead
    obtain ⟨htags, hfoot, -, -⟩ := h.highest e he
    rw [← hhead] at htags hfoot
    refine ⟨hsafe, Or.inr ⟨h.of_highest hsafe hbase hend (by omega) (by omega) (by omega) hhigh ?_, Or.inl ⟨hn1, hn2⟩⟩⟩
    refine ⟨htags, ?_, ?_, ?_⟩
    · omega
    · omega
    · omega
  · have hinside := fun e he => (h.highest e he).inside (Or.inr hn1)
    obtain ⟨e, he, hsafe, hend, hhigh, hhead⟩ := h.grow_hole hn hempty hL hG (by omega)
      (fun e he _ => by have := hinside e he; omega) hsmall (fun e he => by
        have := hinside e he
        have := (h.entries e he.1).1
        omega)
    have hin := hinside e he
    have hentry := h.entries e he.1
    refine ⟨hsafe, Or.inr ⟨h.of_highest hsafe hbase hend (by omega) (by omega) (by omega) hhigh ?_, ?_⟩⟩
    · refine ⟨?_, ?_, ?_, ?_⟩
      · omega
      · omega
      · omega
      · omega
    · refine Or.inr (Or.inl ⟨hn1, ?_⟩)
      rw [hend, hL, hmore, Nat.add_assoc]
  · exact h.grow_shorter hn hempty hsmall hL hG hn1 hover hGpage hGlow hless

/-! ## The block -/

/-- `p` is a block whose header says that it has room for `n` bytes, and for less than `n + 32`. -/
def BlockFor (m : Mem) (p n : Nat) : Prop := ∃ e k, p = e + 16 ∧ headerSize m e = k + 32 ∧ n ≤ k ∧ k < n + 32

theorem IndexSafe.block (h : IndexSafe s) (hn : n < 2 ^ 32) {iterator : Nat}
    (hfind : heapFindSmallestHole s (n + 32) 0 = some iterator) :
    BlockFor (heapCarve s iterator n (n + 32) 0).2.mem (heapCarve s iterator n (n + 32) 0).1 n := by
  obtain ⟨hit, hfit, -⟩ := heapFindSmallestHole_eq_some hfind
  obtain ⟨hlow, hhigh⟩ := h.entries _ (arrayGet_mem_contents s.mem s.heap.index hit)
  obtain ⟨hret, hhead⟩ := headerSize_heapCarve s hit rfl rfl hfit (by omega)
    fun x hx => (h.apart h.size hx).trans_le hlow
  exact ⟨_, _, hret, hhead, (blockSize_fits hfit).1, blockSize_lt hfit⟩

/-- **Whenever `HeapAllocate` returns, the block has room for the size it was called with.** -/
theorem block_of_heapAllocate {fuel p : Nat} (hsafe : IndexSafe s)
    (h : (heapFindSmallestHole s (n + 32) 0).isSome = true ∨ Expandable s n) (hn : n < 2 ^ 32)
    (hcall : heapAllocate fuel s n 0 = some (p, s')) : BlockFor s'.mem p n := by
  induction fuel generalizing s with
  | zero => cases hcall
  | succ fuel ih =>
      cases hfind : heapFindSmallestHole s (n + 32) 0 with
      | some iterator =>
          rw [heapAllocate_of_find fuel hn hfind] at hcall
          have hblock := hsafe.block hn hfind
          rwa [Option.some.inj hcall] at hblock
      | none =>
          rw [heapAllocate] at hcall
          simp only [newSize_eq hn, hfind] at hcall
          rcases h with hsome | h
          · rw [hfind] at hsome
            cases hsome
          · obtain ⟨hsafe', hnext⟩ := h.grow hn hfind
            exact ih hsafe' (hnext.imp_right And.left) hcall

/-- It returns, unless the size makes `HeapExpand` leave the heap as long as it is. -/
theorem Expandable.returns (h : Expandable s n) (hn : n < 2 ^ 32) (hout : n + 32 < 2 ^ 32 - 4096 ∨ 2 ^ 32 ≤ n + 32) :
    ∃ fuel, (heapAllocate fuel s n 0).isSome = true := by
  -- the heap only gets longer, up to 4 GiB, or only shorter
  induction hk : if n + 32 < 2 ^ 32 then s.heap.endAddress else s.heap.startAddress + 2 ^ 32 - s.heap.endAddress
    using Nat.strong_induction_on generalizing s with
  | _ k ih =>
  cases hfind : heapFindSmallestHole s (n + 32) 0 with
  | some iterator =>
      refine ⟨1, ?_⟩
      rw [heapAllocate_of_find 0 hn hfind]
      rfl
  | none =>
      have hstep : ∀ fuel, heapAllocate (fuel + 1) s n 0 = heapAllocate fuel (heapGrow s (n + 32)) n 0 := by
        intro fuel
        rw [heapAllocate]
        simp only [newSize_eq hn, hfind]
      obtain ⟨-, hsome | ⟨h', hmoves⟩⟩ := h.grow hn hfind
      · obtain ⟨iterator, hfind'⟩ := Option.isSome_iff_exists.mp hsome
        refine ⟨2, ?_⟩
        rw [hstep, heapAllocate_of_find 0 hn hfind']
        rfl
      · have hstart := (heapGrow_end s (n + 32)).2.startAddress
        have hmost := h'.most
        obtain ⟨fuel, hret⟩ := ih _ (by
          unfold Moves at hmoves
          split_ifs at hk ⊢ <;> omega) h' rfl
        refine ⟨fuel + 1, ?_⟩
        rw [hstep]
        exact hret

/-! ## From a heap in order -/

/-- A call `kmalloc(n)` that finds a hole; or grows the heap at once to a length that is enough; or has a size for which
`HeapExpand` never makes the heap shorter; or the highest hole ends at the end of the heap, and its header is neither the
first nor among the last 32 bytes of a page behind the first one. -/
def ExpandSafe (s : HeapState) (n : Nat) : Prop :=
  (heapFindSmallestHole s (n + 32) 0).isSome = true ∨
    s.heap.endAddress - s.heap.startAddress ≤ 2 ^ 32 ∧
      (s.heap.endAddress - s.heap.startAddress + (n + 32) < 2 ^ 32 + 4096 ∨ 2 ^ 32 - 4096 ≤ n + 32 ∨
        ∀ e, Highest s e → e + headerSize s.mem e = s.heap.endAddress ∧
          (e = s.heap.startAddress ∨ 0 < e % 4096 ∧ e % 4096 ≤ 4064))

variable {live : List (Nat × Nat)} {cs : List Chunk}

theorem expandSafe_of_clean (h : CleanAlloc s n) : ExpandSafe s n :=
  h.imp_right fun hgrow => by omega

theorem HeapOk.expandable (h : HeapOk s live cs) (hsafe : ExpandSafe s n)
    (hnone : heapFindSmallestHole s (n + 32) 0 = none) : Expandable s n := by
  have hst := heapStart_eq
  have hmin : heapMinSize = 0x70000 := rfl
  have hstart := h.start
  have hleast := h.least
  have hstop := h.stop
  rcases hsafe with hsome | ⟨hlen, hcase⟩
  · rw [hnone] at hsome
    cases hsome
  · refine ⟨⟨h.indexBelow, fun e he => ?_⟩, by omega, by omega, by omega, by omega, fun e he => ?_⟩
    · have := h.holesInside e he
      omega
    · obtain ⟨pre, c, post, rfl, -, hpos⟩ := h.rep.hole he.1
      obtain ⟨hchunk, hend⟩ := h.rep.chunk
      rw [← hpos] at hchunk hend
      have hsize := hchunk.size
      rw [← hchunk.header.size] at hsize hend
      refine ⟨Or.inr hsize, by omega, fun _ => ⟨hsize, by omega⟩, fun hn hover => ?_⟩
      rcases hcase with hle | hle | htail
      · omega
      · omega
      · exact htail e he

end Gewodsys.Mem
