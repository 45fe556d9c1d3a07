import Gewodsys.Mem.HeapRuns

/-!
# The kernel heap as a source of blocks

Structures of one kind are allocated with calls `kmalloc(size)` and never freed. `BlockSource` is what the code that
fills them relies on; `heapSource` is the heap as such a source, while its calls are clean.
-/

namespace Gewodsys.Mem
open Gewodsys.Machine

/-- A function that hands out blocks. `Ready n live s` : the next `n` calls return, each a new address; `live` are the
addresses handed out so far. -/
structure BlockSource (σ : Type) where
  alloc : σ → Option (Nat × σ)
  Ready : Nat → List Nat → σ → Prop
  alloc_spec : ∀ {n : Nat} {live : List Nat} {s : σ}, Ready (n + 1) live s → ∃ p s', alloc s = some (p, s') ∧
    p ≠ 0 ∧ p ∉ live ∧ Ready n (p :: live) s'

/-- The next `n` calls `kmalloc(size)` are clean. -/
def CleanAllocs (fuel size : Nat) : Nat → HeapState → Prop
  | 0, _ => True
  | n + 1, s => CleanAlloc s size ∧ ∀ p s', kmalloc fuel s size = some (p, s') → CleanAllocs fuel size n s'

theorem HeapOk.kmalloc_new {s : HeapState} {live : List (Nat × Nat)} {cs : List Chunk} (h : HeapOk s live cs) {n : Nat}
    (hn : n < 2 ^ 32) (hclean : CleanAlloc s n) (fuel : Nat) :
    ∃ p s' cs', Mem.kmalloc (fuel + 2) s n = some (p, s') ∧ HeapOk s' ((p, n) :: live) cs' ∧ p ≠ 0 ∧
      p ∉ live.map Prod.fst := by
  obtain ⟨s₁, iterator, -, -, -, hcall⟩ := h.allocate hn hclean fuel
  obtain ⟨p, s', hret⟩ : ∃ p s', heapCarve s₁ iterator n (n + 32) 0 = (p, s') := ⟨_, _, rfl⟩
  rw [hret] at hcall
  obtain ⟨-, -, cs', -, -, hok, -⟩ := h.kmalloc hn hclean hcall
  have hblocks := hok.blocksOk
  refine ⟨p, s', cs', by rw [Mem.kmalloc, Nat.mod_eq_of_lt hn, hcall], hok, ?_, ?_⟩
  · have hin := (hblocks.inside (p, n) List.mem_cons_self).1
    rw [hok.start, heapStart_eq] at hin
    unfold chunkStart at hin
    omega
  · -- two chunks at one address would overlap
    intro hmem
    obtain ⟨⟨q, k⟩, hq, rfl⟩ := List.mem_map.mp hmem
    have hdisjoint := (List.pairwise_cons.mp hblocks.disjoint).1 (q, k) hq
    have hroom := hblocks.room (q, n) List.mem_cons_self
    have hroom' := hblocks.room (q, k) (List.mem_cons_of_mem _ hq)
    unfold sizeofHeapHeader sizeofHeapFooter at hroom hroom'
    unfold chunkEnd chunkStart at *
    simp only at *
    omega

/-- **The heap as a source of blocks.** -/
def heapSource (fuel size : Nat) (hsize : size < 2 ^ 32) : BlockSource HeapState where
  alloc s := kmalloc (fuel + 2) s size
  Ready n live s := ∃ blocks cs, HeapOk s blocks cs ∧ (∀ p ∈ live, p ∈ blocks.map Prod.fst) ∧
    CleanAllocs (fuel + 2) size n s
  alloc_spec := by
    rintro n live s ⟨blocks, cs, hok, hlive, hclean, hrest⟩
    obtain ⟨p, s', cs', hcall, hok', h0, hnew⟩ := hok.kmalloc_new hsize hclean fuel
    refine ⟨p, s', hcall, h0, fun hp => hnew (hlive p hp), (p, size) :: blocks, cs', hok', ?_, hrest p s' hcall⟩
    intro q hq
    rcases List.mem_cons.mp hq with rfl | hq
    · exact List.mem_cons_self
    · exact List.mem_cons_of_mem _ (hlive q hq)

end Gewodsys.Mem
