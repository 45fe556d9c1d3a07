import Gewodsys.Mem.HeapExtent

/-!
# `kmalloc` that grows the heap

* `GrowsOnce s n` : the call `kmalloc(n)` needs one `HeapExpand`, to whole pages that are enough;
* `growsOnce_of_le`, `le_of_growsOnce` : where the length that is asked for does not pass 4 GiB, and only there;
* `grows_once_iff` : both, for every heap in order below `max_address`.
-/

namespace Gewodsys.Mem
open Gewodsys.Machine Gewodsys.Lib

/-- `kmalloc(n)` without a hole grows the heap once: to a length of whole pages, not below the one asked for, and then the
recursive call finds a hole. -/
structure GrowsOnce (s : HeapState) (n : Nat) : Prop where
  pages : ((heapExpand s (askedLength s n)).heap.endAddress - s.heap.startAddress) % pageSize = 0
  enough : askedLength s n ≤ (heapExpand s (askedLength s n)).heap.endAddress - s.heap.startAddress
  finds : (heapFindSmallestHole (heapGrow s (n + 32)) (n + 32) 0).isSome = true
  returns : ∀ fuel, (kmalloc (fuel + 2) s n).isSome = true
  once : ∀ fuel, expansions (fuel + 2) s n 0 = [askedLength s n]

variable {s : HeapState} {live : List (Nat × Nat)} {cs : List Chunk}

/-- Where `HeapExpand` makes lengths that are enough, the recursive call finds a hole. -/
theorem find_heapGrow (h : HeapOk s live cs) {n G : Nat}
    (hG : expandSize (s.heap.endAddress - s.heap.startAddress + (n + 32)) = G)
    (hsize : s.heap.endAddress - s.heap.startAddress + (n + 32) ≤ G) (hG' : G < 2 ^ 33) :
    (heapFindSmallestHole (heapGrow s (n + 32)) (n + 32) 0).isSome = true := by
  have had := heapAddr_eq
  have hst := heapStart_eq
  have hstart := h.start
  have hstop := h.indexBelow.stop
  exact h.holesInside.find_grow h.indexBelow (by omega) (by omega) hG (by omega) hsize (by omega)

/-- Above 4 GiB the mask loses bit 32 of the length, or the length is not rounded at all. -/
theorem expandSize_gt {L : Nat} (hL : 2 ^ 32 < L) (hL' : L < 2 ^ 33) : expandSize L % 4096 ≠ 0 ∨ expandSize L < L := by
  unfold expandSize
  rw [land_expand]
  split_ifs
  · right
    omega
  · left
    omega

theorem expandSize_lt {L : Nat} (hL : L < 2 ^ 33) : expandSize L < 2 ^ 34 := by
  unfold expandSize
  rw [land_expand]
  split_ifs
  · omega
  · omega

theorem heapExpand_asked (h : HeapOk s live cs) (hhigh : s.heap.endAddress ≤ heapAddr + 0x40000000) {n : Nat}
    (hn : n < 2 ^ 32) :
    add64 (sub64 s.heap.endAddress s.heap.startAddress) (n + 32) = askedLength s n ∧
      0x1000 ≤ askedLength s n ∧ askedLength s n < 2 ^ 33 ∧
      (expandSize (askedLength s n) < 2 ^ 34 →
        (heapExpand s (askedLength s n)).heap.endAddress - s.heap.startAddress = expandSize (askedLength s n)) := by
  have had := heapAddr_eq
  have hst := heapStart_eq
  have hstart := h.start
  have hleast := h.least
  have hmin : heapMinSize = 0x70000 := rfl
  have hlen : askedLength s n = s.heap.endAddress - s.heap.startAddress + n + 32 := rfl
  refine ⟨?_, by omega, by omega, fun hlt => ?_⟩
  · rw [sub64_of_le (by omega) (by omega), add64_of_lt (by omega)]
    omega
  · rw [heapExpand_heap, add64_of_lt (by omega)]
    simp

theorem growsOnce_of_le (h : HeapOk s live cs) (hhigh : s.heap.endAddress ≤ heapAddr + 0x40000000) {n : Nat}
    (hn : n < 2 ^ 32) (hfind : heapFindSmallestHole s (n + 32) 0 = none) (hle : askedLength s n ≤ 2 ^ 32) :
    GrowsOnce s n := by
  obtain ⟨hasked, hlow, htop, hlen⟩ := heapExpand_asked h hhigh hn
  obtain ⟨hpage, henough, hbound⟩ := expandSize_le hlow hle
  have hlen := hlen (by omega)
  have hassoc : askedLength s n = s.heap.endAddress - s.heap.startAddress + (n + 32) := Nat.add_assoc _ _ _
  have hfound : (heapFindSmallestHole (heapGrow s (n + 32)) (n + 32) 0).isSome = true :=
    find_heapGrow h (congrArg expandSize hassoc.symm) (hassoc ▸ henough) hbound
  obtain ⟨iterator, hiter⟩ := Option.isSome_iff_exists.mp hfound
  refine ⟨?_, ?_, hfound, fun fuel => ?_, fun fuel => ?_⟩
  · rw [hlen]
    exact hpage
  · rw [hlen]
    exact henough
  · unfold kmalloc
    rw [Nat.mod_eq_of_lt hn, heapAllocate_of_grow fuel hn hfind hiter]
    rfl
  · rw [expansions]
    simp only [newSize_eq hn, hfind, hasked]
    rw [expansions]
    simp only [newSize_eq hn, hiter]

theorem le_of_growsOnce (h : HeapOk s live cs) (hhigh : s.heap.endAddress ≤ heapAddr + 0x40000000) {n : Nat}
    (hn : n < 2 ^ 32) (hgrows : GrowsOnce s n) : askedLength s n ≤ 2 ^ 32 := by
  by_contra hgt
  obtain ⟨-, -, htop, hlen⟩ := heapExpand_asked h hhigh hn
  have hpages := hgrows.pages
  have henough := hgrows.enough
  rw [hlen (expandSize_lt htop)] at hpages henough
  rcases expandSize_gt (by omega) htop with hp | hp
  · exact hp hpages
  · omega

/-- **A call without a hole grows the heap once exactly where the length it asks for does not pass 4 GiB.** -/
theorem grows_once_iff (h : HeapOk s live cs) (hmax : s.heap.maxAddress = heapAddr + 0x40000000)
    (hlen : s.heap.endAddress - s.heap.startAddress ≤ s.heap.maxAddress - s.heap.startAddress) (n : Nat)
    (hn : n < 2 ^ 32) (hfind : heapFindSmallestHole s (n + 32) 0 = none) :
    GrowsOnce s n ↔ s.heap.endAddress - s.heap.startAddress + n + 32 ≤ 2 ^ 32 := by
  have hhigh : s.heap.endAddress ≤ heapAddr + 0x40000000 := by
    have hleast := h.least
    have hstart := h.start
    have hst := heapStart_eq
    have had := heapAddr_eq
    omega
  constructor
  · exact le_of_growsOnce h hhigh hn
  · exact growsOnce_of_le h hhigh hn hfind

theorem grows_once_initial : GrowsOnce (mmInitializeHeap (fun _ => 0) fun _ _ => 0) 0x10000000 := by
  have hok := heapOk_boot (fun _ => 0) fun _ _ => 0
  have hfind := find_boot_none (fun _ => 0) (fun _ _ => 0) (0x10000000 + 32) (by decide +kernel)
  obtain ⟨hend, hmax⟩ := heapCreate_heap (fun _ => 0) (fun _ _ => 0) heapAddr (heapAddr + heapSize)
    (heapAddr + 0x40000000) 0 0
  change (mmInitializeHeap _ _).heap.endAddress = _ at hend
  change (mmInitializeHeap _ _).heap.maxAddress = _ at hmax
  generalize mmInitializeHeap (fun _ => 0) (fun _ _ => 0) = s at hok hfind hend hmax ⊢
  have hstart := hok.start
  apply (grows_once_iff hok hmax ?_ 0x10000000 (by decide) hfind).mpr
  · rw [hstart, hend]
    decide +kernel
  · rw [hmax, hstart, hend]
    decide +kernel

/-- A request of almost 4 GiB: the rounding with a mask of 32 bits gives a heap that is one page longer. -/
theorem grows_too_little : ¬ ∀ (s : HeapState) (live : List (Nat × Nat)) (cs : List Chunk), HeapOk s live cs →
    s.heap.maxAddress = heapAddr + 0x40000000 →
    s.heap.endAddress - s.heap.startAddress ≤ s.heap.maxAddress - s.heap.startAddress → ∀ n, n < 2 ^ 32 →
      heapFindSmallestHole s (n + 32) 0 = none → GrowsOnce s n := by
  intro hall
  have hok := heapOk_boot (fun _ => 0) fun _ _ => 0
  have hfind := find_boot_none (fun _ => 0) (fun _ _ => 0) (0xFFFFFFFF + 32) (by decide +kernel)
  obtain ⟨hend, hmax⟩ := heapCreate_heap (fun _ => 0) (fun _ _ => 0) heapAddr (heapAddr + heapSize)
    (heapAddr + 0x40000000) 0 0
  change (mmInitializeHeap _ _).heap.endAddress = _ at hend
  change (mmInitializeHeap _ _).heap.maxAddress = _ at hmax
  generalize mmInitializeHeap (fun _ => 0) (fun _ _ => 0) = s at hok hfind hend hmax
  have hstart := hok.start
  have hgrows := hall s _ _ hok hmax (by rw [hmax, hstart, hend]; decide +kernel) 0xFFFFFFFF (by decide) hfind
  have hle := le_of_growsOnce hok (by rw [hend]; decide +kernel) (by decide) hgrows
  unfold askedLength at hle
  rw [hend, hstart] at hle
  revert hle
  decide +kernel

end Gewodsys.Mem
