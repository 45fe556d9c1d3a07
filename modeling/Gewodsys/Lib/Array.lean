import Gewodsys.Lib.Memory

/-!
# `lib/array.c`: ordered arrays of pointers in memory

* `arrayCreate`, `arrayInsert`, `arrayGet`, `arrayRemove`, with the loops of the code;
* `contents m a` : the pointers in the array;
* `contents_arrayInsert`, `contents_arrayRemove` : the loops insert and erase at an index, and write only the slots of
  the array (`frame_arrayInsert`, `frame_arrayRemove`);
* `array_ordered` : with a strict weak order for the predicate, insertion keeps the array sorted.
-/

namespace Gewodsys.Lib
open Gewodsys.Machine

/-- `OrderedArray`; the predicate reads the objects its two pointers point to. -/
structure OrderedArray where
  array : Nat
  size : Nat
  capacity : Nat
  predicate : Mem → Nat → Nat → Bool

/-- The address of `array->array[i]`. -/
def OrderedArray.slot (a : OrderedArray) (i : Nat) : Nat := a.array + 8 * i

def arrayGet (m : Mem) (a : OrderedArray) (index : Nat) : Nat := m.read64 (a.slot index)

def arrayCreate (m : Mem) (address capacity : Nat) (predicate : Mem → Nat → Nat → Bool) : Mem × OrderedArray :=
  (rtZeroMemory m address (capacity * 8), ⟨address, 0, capacity, predicate⟩)

/-- The search of `ArrayInsert` from `iterator` on, over the `n` slots that are left. -/
def arrayScan (m : Mem) (a : OrderedArray) (item : Nat) : Nat → Nat → Nat
  | 0, iterator => iterator
  | n + 1, iterator =>
      if a.predicate m (arrayGet m a iterator) item then arrayScan m a item n (iterator + 1) else iterator

/-- The second loop of `ArrayInsert`: the `n` slots after `iterator` move up, `tmp` first. -/
def arrayShiftUp (a : OrderedArray) : Nat → Mem → Nat → Nat → Mem
  | 0, m, _, _ => m
  | n + 1, m, iterator, tmp =>
      let tmp2 := arrayGet m a (iterator + 1)
      arrayShiftUp a n (m.write64 (a.slot (iterator + 1)) tmp) (iterator + 1) tmp2

def arrayInsert (m : Mem) (a : OrderedArray) (item : Nat) : Mem × OrderedArray :=
  let iterator := arrayScan m a item a.size 0
  let tmp := arrayGet m a iterator
  (if iterator = a.size then m.write64 (a.slot a.size) item
    else arrayShiftUp a (a.size - iterator) (m.write64 (a.slot iterator) item) iterator tmp,
   { a with size := inc32 a.size })

/-- The loop of `ArrayRemove`: the `n` slots from `index` on take the value of the next slot. -/
def arrayShiftDown (a : OrderedArray) : Nat → Mem → Nat → Mem
  | 0, m, _ => m
  | n + 1, m, index => arrayShiftDown a n (m.write64 (a.slot index) (arrayGet m a (index + 1))) (index + 1)

def arrayRemove (m : Mem) (a : OrderedArray) (index : Nat) : Mem × OrderedArray :=
  (arrayShiftDown a (a.size - index) m index, { a with size := dec32 a.size })

/-- The pointers in the array, in order. -/
def contents (m : Mem) (a : OrderedArray) : List Nat := (List.range a.size).map (arrayGet m a)

/-! ## Slots -/

theorem arrayGet_lt (m : Mem) (a : OrderedArray) (i : Nat) : arrayGet m a i < 2 ^ 64 := m.read64_lt _

theorem arrayGet_write (m : Mem) (a : OrderedArray) {i j v : Nat} (hv : v < 2 ^ 64) :
    arrayGet (m.write64 (a.slot i) v) a j = if j = i then v else arrayGet m a j := by
  split_ifs with h
  · subst h
    exact (m.read_write (a.slot j) 8 v).trans (Nat.mod_eq_of_lt hv)
  · refine m.read_write_of_disjoint v ?_
    unfold OrderedArray.slot
    omega

theorem arrayGet_congr {m m' : Mem} {a : OrderedArray} {W : Nat → Prop} (h : Frame m m' W) {i : Nat}
    (hi : ∀ x, a.slot i ≤ x → x < a.slot i + 8 → ¬ W x) : arrayGet m' a i = arrayGet m a i :=
  h.read hi

/-- The bytes of the first `n` slots. -/
def InSlots (a : OrderedArray) (n x : Nat) : Prop := a.array ≤ x ∧ x < a.array + 8 * n

theorem contents_congr {m m' : Mem} {a : OrderedArray} {W : Nat → Prop} (h : Frame m m' W)
    (hW : ∀ x, InSlots a a.size x → ¬ W x) : contents m' a = contents m a := by
  refine List.map_congr_left fun i hi => arrayGet_congr h fun x h1 h2 => hW x ?_
  have := List.mem_range.mp hi
  unfold OrderedArray.slot at h1 h2
  unfold InSlots
  omega

theorem arrayGet_of_array (m : Mem) {a b : OrderedArray} (h : a.array = b.array) (i : Nat) :
    arrayGet m a i = arrayGet m b i := by
  rw [arrayGet, arrayGet, OrderedArray.slot, OrderedArray.slot, h]

@[simp] theorem length_contents (m : Mem) (a : OrderedArray) : (contents m a).length = a.size := by
  rw [contents, List.length_map, List.length_range]

/-! ## Removing -/

theorem arrayGet_shiftDown (a : OrderedArray) (n : Nat) (m : Mem) (index j : Nat) :
    arrayGet (arrayShiftDown a n m index) a j =
      if index ≤ j ∧ j < index + n then arrayGet m a (j + 1) else arrayGet m a j := by
  induction n generalizing m index with
  | zero => rw [arrayShiftDown, if_neg (by omega)]
  | succ n ih =>
      rw [arrayShiftDown, ih, arrayGet_write m a (arrayGet_lt m a _), arrayGet_write m a (arrayGet_lt m a _)]
      by_cases h1 : j = index
      · subst h1
        rw [if_neg (by omega), if_pos rfl, if_pos (by omega)]
      · by_cases h2 : index ≤ j ∧ j < index + (n + 1)
        · rw [if_pos (by omega), if_neg (by omega), if_pos h2]
        · rw [if_neg (by omega), if_neg h1, if_neg h2]

theorem frame_arrayShiftDown (a : OrderedArray) (n : Nat) (m : Mem) (index : Nat) :
    Frame m (arrayShiftDown a n m index) (InSlots a (index + n)) := by
  induction n generalizing m index with
  | zero => exact Frame.refl m _
  | succ n ih =>
      refine Frame.trans ((Frame.write m (a.slot index) 8 _).mono fun x hx => ?_) ((ih _ _).mono fun x hx => ?_)
      · unfold OrderedArray.slot at hx
        unfold InSlots
        omega
      · unfold InSlots at hx ⊢
        omega

theorem frame_arrayRemove (m : Mem) (a : OrderedArray) {index : Nat} (h : index ≤ a.size) :
    Frame m (arrayRemove m a index).1 (InSlots a a.size) := by
  have hf := frame_arrayShiftDown a (a.size - index) m index
  rwa [show index + (a.size - index) = a.size by omega] at hf

@[simp] theorem arrayRemove_array (m : Mem) (a : OrderedArray) (i : Nat) : (arrayRemove m a i).2.array = a.array := by
  simp only [arrayRemove]

@[simp] theorem arrayRemove_capacity (m : Mem) (a : OrderedArray) (i : Nat) :
    (arrayRemove m a i).2.capacity = a.capacity := by
  simp only [arrayRemove]

theorem arrayRemove_size (m : Mem) (a : OrderedArray) {i : Nat} (h : i < a.size) :
    (arrayRemove m a i).2.size = a.size - 1 := by
  simp only [arrayRemove, dec32_of_pos (show 0 < a.size by omega)]

/-- **`ArrayRemove` erases the pointer at the index.** -/
theorem contents_arrayRemove (m : Mem) (a : OrderedArray) {index : Nat} (h : index < a.size) :
    contents (arrayRemove m a index).1 (arrayRemove m a index).2 = (contents m a).eraseIdx index := by
  have hsize := arrayRemove_size m a h
  refine List.ext_getElem ?_ fun j h1 h2 => ?_
  · rw [List.length_eraseIdx_of_lt (by rw [length_contents]; exact h), length_contents, length_contents, hsize]
  · rw [length_contents, hsize] at h1
    rw [List.getElem_eraseIdx]
    simp only [contents, List.getElem_map, List.getElem_range]
    rw [arrayGet_of_array _ (arrayRemove_array m a index), arrayRemove, arrayGet_shiftDown]
    by_cases hlt : j < index
    · rw [if_neg (by omega), dif_pos hlt]
    · rw [if_pos (by omega), dif_neg hlt]

/-! ## Inserting -/

theorem arrayScan_le (m : Mem) (a : OrderedArray) (item n iterator : Nat) :
    arrayScan m a item n iterator ≤ iterator + n := by
  induction n generalizing iterator with
  | zero => exact le_refl _
  | succ n ih =>
      rw [arrayScan]
      split_ifs
      · exact (ih (iterator + 1)).trans (by omega)
      · omega

theorem arrayGet_shiftUp (a : OrderedArray) (n : Nat) (m : Mem) (iterator : Nat) {tmp : Nat} (ht : tmp < 2 ^ 64)
    (j : Nat) :
    arrayGet (arrayShiftUp a n m iterator tmp) a j =
      if iterator < j ∧ j ≤ iterator + n then (if j = iterator + 1 then tmp else arrayGet m a (j - 1))
      else arrayGet m a j := by
  induction n generalizing m iterator tmp with
  | zero => rw [arrayShiftUp, if_neg (by omega)]
  | succ n ih =>
      rw [arrayShiftUp, ih _ _ (arrayGet_lt m a _), arrayGet_write m a ht, arrayGet_write m a ht]
      by_cases h1 : j = iterator + 1
      · subst h1
        rw [if_neg (by omega), if_pos rfl, if_pos (by omega), if_pos rfl]
      · by_cases h2 : iterator < j ∧ j ≤ iterator + (n + 1)
        · rw [if_pos (by omega), if_pos h2, if_neg h1]
          by_cases h3 : j = iterator + 1 + 1
          · rw [if_pos h3, h3, Nat.add_sub_cancel]
          · rw [if_neg h3, if_neg (by omega)]
        · rw [if_neg (by omega), if_neg h1, if_neg h2]

theorem frame_arrayShiftUp (a : OrderedArray) (n : Nat) (m : Mem) (iterator tmp : Nat) :
    Frame m (arrayShiftUp a n m iterator tmp) (InSlots a (iterator + n + 1)) := by
  induction n generalizing m iterator tmp with
  | zero => exact Frame.refl m _
  | succ n ih =>
      refine Frame.trans ((Frame.write m (a.slot (iterator + 1)) 8 _).mono fun x hx => ?_)
        ((ih _ _ _).mono fun x hx => ?_)
      · unfold OrderedArray.slot at hx
        unfold InSlots
        omega
      · unfold InSlots at hx ⊢
        omega

theorem frame_arrayInsert (m : Mem) (a : OrderedArray) (item : Nat) :
    Frame m (arrayInsert m a item).1 (InSlots a (a.size + 1)) := by
  have hle := arrayScan_le m a item a.size 0
  have hwrite : ∀ i ≤ a.size, Frame m (m.write64 (a.slot i) item) (InSlots a (a.size + 1)) := by
    intro i hi
    refine (Frame.write m (a.slot i) 8 item).mono fun x hx => ?_
    unfold OrderedArray.slot at hx
    unfold InSlots
    omega
  rw [arrayInsert]
  split_ifs with h
  · exact hwrite a.size (le_refl _)
  · refine (hwrite _ (by omega)).trans ((frame_arrayShiftUp a _ _ _ _).mono fun x hx => ?_)
    unfold InSlots at hx ⊢
    omega

@[simp] theorem arrayInsert_array (m : Mem) (a : OrderedArray) (item : Nat) :
    (arrayInsert m a item).2.array = a.array := by
  simp only [arrayInsert]

@[simp] theorem arrayInsert_capacity (m : Mem) (a : OrderedArray) (item : Nat) :
    (arrayInsert m a item).2.capacity = a.capacity := by
  simp only [arrayInsert]

theorem arrayInsert_size (m : Mem) (a : OrderedArray) (item : Nat) (hs : a.size + 1 < 2 ^ 32) :
    (arrayInsert m a item).2.size = a.size + 1 := by
  simp only [arrayInsert, inc32_of_lt hs]

/-- **`ArrayInsert` inserts the pointer at the index its search finds.** -/
theorem contents_arrayInsert (m : Mem) (a : OrderedArray) {item : Nat} (hi : item < 2 ^ 64) (hs : a.size + 1 < 2 ^ 32) :
    contents (arrayInsert m a item).1 (arrayInsert m a item).2 =
      (contents m a).insertIdx (arrayScan m a item a.size 0) item := by
  have hle := arrayScan_le m a item a.size 0
  rw [Nat.zero_add] at hle
  have hsize := arrayInsert_size m a item hs
  have hget : ∀ j, arrayGet (arrayInsert m a item).1 a j =
      if j < arrayScan m a item a.size 0 then arrayGet m a j
      else if j = arrayScan m a item a.size 0 then item
      else if j ≤ a.size then arrayGet m a (j - 1) else arrayGet m a j := by
    intro j
    rw [arrayInsert]
    split_ifs with h h1 h2 h3 h1 h2 h3
    · rw [arrayGet_write m a hi, if_neg (by omega)]
    · rw [arrayGet_write m a hi, if_pos (by omega)]
    · omega
    · rw [arrayGet_write m a hi, if_neg (by omega)]
    · rw [arrayGet_shiftUp a _ _ _ (arrayGet_lt m a _), if_neg (by omega), arrayGet_write m a hi, if_neg (by omega)]
    · rw [arrayGet_shiftUp a _ _ _ (arrayGet_lt m a _), if_neg (by omega), arrayGet_write m a hi, if_pos h2]
    · rw [arrayGet_shiftUp a _ _ _ (arrayGet_lt m a _), if_pos (by omega)]
      split_ifs with h4
      · rw [h4, Nat.add_sub_cancel]
      · rw [arrayGet_write m a hi, if_neg (by omega)]
    · rw [arrayGet_shiftUp a _ _ _ (arrayGet_lt m a _), if_neg (by omega), arrayGet_write m a hi, if_neg h2]
  refine List.ext_getElem ?_ fun j h1 h2 => ?_
  · rw [List.length_insertIdx_of_le_length (by rw [length_contents]; exact hle), length_contents, length_contents, hsize]
  · rw [length_contents, hsize] at h1
    rw [List.getElem_insertIdx]
    simp only [contents, List.getElem_map, List.getElem_range]
    rw [arrayGet_of_array _ (arrayInsert_array m a item), hget]
    split_ifs with h3 h4 h5
    · rfl
    · rfl
    · rfl
    · omega

theorem perm_arrayInsert (m : Mem) (a : OrderedArray) {item : Nat} (hi : item < 2 ^ 64) (hs : a.size + 1 < 2 ^ 32) :
    (contents (arrayInsert m a item).1 (arrayInsert m a item).2).Perm (item :: contents m a) := by
  rw [contents_arrayInsert m a hi hs]
  refine List.perm_insertIdx _ _ ?_
  have hle := arrayScan_le m a item a.size 0
  rw [length_contents]
  omega

/-! ## Order -/

theorem getElem_contents (m : Mem) (a : OrderedArray) {i : Nat} (hi : i < (contents m a).length) :
    (contents m a)[i] = arrayGet m a i := by
  simp only [contents, List.getElem_map, List.getElem_range]

/-- `ArrayInsert` stops before the first entry that is not less than the item. -/
theorem arrayScan_spec (m : Mem) (a : OrderedArray) (item n i : Nat) :
    (∀ j, i ≤ j → j < arrayScan m a item n i → a.predicate m (arrayGet m a j) item = true) ∧
      (arrayScan m a item n i < i + n → a.predicate m (arrayGet m a (arrayScan m a item n i)) item = false) := by
  induction n generalizing i with
  | zero =>
      unfold arrayScan
      exact ⟨fun j h1 h2 => by omega, fun h => by omega⟩
  | succ n ih =>
      unfold arrayScan
      by_cases hlt : a.predicate m (arrayGet m a i) item = true
      · rw [if_pos hlt]
        obtain ⟨h1, h2⟩ := ih (i + 1)
        refine ⟨fun j hj hj' => ?_, fun h => h2 (by omega)⟩
        by_cases he : j = i
        · rw [he]
          exact hlt
        · exact h1 j (by omega) hj'
      · rw [if_neg hlt]
        exact ⟨fun j h1 h2 => by omega, fun _ => Bool.eq_false_of_not_eq_true hlt⟩

/-- No entry is less than one before it. -/
def SortedBy (less : Nat → Nat → Bool) (l : List Nat) : Prop := l.Pairwise fun x y => less y x = false

instance (less : Nat → Nat → Bool) (l : List Nat) : Decidable (SortedBy less l) :=
  inferInstanceAs (Decidable (l.Pairwise _))

/-- In a strict weak order "not less" is transitive. -/
theorem not_less_trans {less : Nat → Nat → Bool} [IsStrictWeakOrder Nat fun x y => less x y = true] {x y z : Nat}
    (hxy : less x y = false) (hyz : less y z = false) : less x z = false := by
  by_contra hxz
  have hxz := Bool.eq_true_of_not_eq_false hxz
  have htrans : ∀ u v w, less u v = true → less v w = true → less u w = true :=
    IsTrans.trans (r := fun x y => less x y = true)
  have hyx : ¬ less y x = true := fun h => by simp [htrans y x z h hxz] at hyz
  have hzy : ¬ less z y = true := fun h => by simp [htrans x z y hxz h] at hxy
  have hincomp := @IsStrictWeakOrder.incomp_trans Nat (fun x y => less x y = true) _ x y z
    ⟨by simp [hxy], hyx⟩ ⟨by simp [hyz], hzy⟩
  exact hincomp.1 hxz

theorem insertIdx_eq_append {α : Type*} (l : List α) (x : α) {k : Nat} (hk : k ≤ l.length) :
    l.insertIdx k x = l.take k ++ x :: l.drop k := by
  induction k generalizing l with
  | zero => rfl
  | succ k ih =>
      cases l with
      | nil => simp at hk
      | cons y l =>
          rw [List.insertIdx_succ_cons, ih l (by simpa using hk)]
          rfl

section
variable {m : Mem} {a : OrderedArray} [IsStrictWeakOrder Nat fun x y => a.predicate m x y = true]
  (hsort : SortedBy (a.predicate m) (contents m a)) {item : Nat} (hi : item < 2 ^ 64) (hs : a.size + 1 < 2 ^ 32)
include hsort hi hs

/-- The entries before the place of the item are less than it, the others are not. -/
theorem contents_arrayInsert_split :
    ∃ pre post, contents m a = pre ++ post ∧
      contents (arrayInsert m a item).1 (arrayInsert m a item).2 = pre ++ item :: post ∧
      (∀ x ∈ pre, a.predicate m x item = true) ∧ ∀ y ∈ post, a.predicate m y item = false := by
  obtain ⟨hbefore, hat⟩ := arrayScan_spec m a item a.size 0
  have hle := arrayScan_le m a item a.size 0
  generalize hk : arrayScan m a item a.size 0 = k at hbefore hat hle
  refine ⟨(contents m a).take k, (contents m a).drop k, (List.take_append_drop k _).symm, ?_, ?_, ?_⟩
  · rw [contents_arrayInsert m a hi hs, hk, insertIdx_eq_append]
    rw [length_contents]
    omega
  · intro x hx
    obtain ⟨j, hj, rfl⟩ := List.getElem_of_mem hx
    rw [List.length_take, length_contents] at hj
    rw [List.getElem_take, getElem_contents]
    exact hbefore j (Nat.zero_le j) (by omega)
  · intro y hy
    obtain ⟨j, hj, rfl⟩ := List.getElem_of_mem hy
    rw [List.length_drop, length_contents] at hj
    rw [List.getElem_drop, getElem_contents]
    have hfirst := hat (by omega)
    by_cases h0 : j = 0
    · rw [h0]
      exact hfirst
    · have hpair := List.pairwise_iff_getElem.mp hsort k (k + j) (by rw [length_contents]; omega)
        (by rw [length_contents]; omega) (by omega)
      rw [getElem_contents, getElem_contents] at hpair
      exact not_less_trans hpair hfirst

/-- **`ArrayInsert` keeps the order.** -/
theorem sortedBy_arrayInsert : SortedBy (a.predicate m) (contents (arrayInsert m a item).1 (arrayInsert m a item).2) := by
  obtain ⟨pre, post, hold, hnew, hpre, hpost⟩ := contents_arrayInsert_split hsort hi hs
  rw [SortedBy, hold, List.pairwise_append] at hsort
  obtain ⟨hsortPre, hsortPost, hcross⟩ := hsort
  rw [hnew, SortedBy, List.pairwise_append]
  refine ⟨hsortPre, List.Pairwise.cons (fun y hy => hpost y hy) hsortPost, fun x hx y hy => ?_⟩
  rcases List.mem_cons.mp hy with rfl | hy
  · refine Bool.eq_false_of_not_eq_true fun hyx => ?_
    exact asymm_of (fun x y => a.predicate m x y = true) (hpre x hx) hyx
  · exact hcross x hx y hy

end

/-- **Ordered arrays.** With a strict weak order for the predicate, `ArrayInsert` puts a pointer into a sorted array before
every entry that is not less than it, and `ArrayRemove` takes out the entry at the index. -/
theorem array_ordered (m : Mem) (a : OrderedArray) [IsStrictWeakOrder Nat fun x y => a.predicate m x y = true]
    (hsort : SortedBy (a.predicate m) (contents m a)) (hcapacity : a.capacity < 2 ^ 32) :
    (∀ item < 2 ^ 64, a.size < a.capacity →
      (arrayInsert m a item).2.size = a.size + 1 ∧
      SortedBy (a.predicate m) (contents (arrayInsert m a item).1 (arrayInsert m a item).2) ∧
      (contents (arrayInsert m a item).1 (arrayInsert m a item).2).Perm (item :: contents m a) ∧
      ∃ pre post, contents m a = pre ++ post ∧
        contents (arrayInsert m a item).1 (arrayInsert m a item).2 = pre ++ item :: post ∧
        (∀ x ∈ pre, a.predicate m x item = true) ∧ ∀ y ∈ post, a.predicate m y item = false) ∧
    ∀ index < a.size,
      contents (arrayRemove m a index).1 (arrayRemove m a index).2 = (contents m a).eraseIdx index := by
  constructor
  · intro item hi hroom
    have hs : a.size + 1 < 2 ^ 32 := by omega
    exact ⟨arrayInsert_size m a item hs, sortedBy_arrayInsert hsort hi hs, perm_arrayInsert m a hi hs,
      contents_arrayInsert_split hsort hi hs⟩
  · intro index hindex
    exact contents_arrayRemove m a hindex

/-- `PointerPredicate`. -/
def pointerPredicate (_ : Mem) (a b : Nat) : Bool := decide (a < b)

instance (m : Mem) : IsStrictWeakOrder Nat fun x y => pointerPredicate m x y = true where
  irrefl x := by simp [pointerPredicate]
  trans x y z := by
    simp only [pointerPredicate, decide_eq_true_eq]
    exact lt_trans
  incomp_trans x y z := by
    simp only [pointerPredicate, decide_eq_true_eq]
    omega

/-- The addresses `16, 48` and then `32`. -/
theorem array_ordered_two :
    let a : OrderedArray := ⟨0x1000, 2, 4, pointerPredicate⟩
    let m : Mem := (Mem.write64 (fun _ => 0) 0x1000 16).write64 0x1008 48
    SortedBy (a.predicate m) (contents (arrayInsert m a 32).1 (arrayInsert m a 32).2) := by
  intro a m
  exact ((array_ordered m a (by decide) (by decide)).1 32 (by decide) (by decide)).2.1

end Gewodsys.Lib
