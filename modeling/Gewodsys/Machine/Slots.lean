import Mathlib.Data.Multiset.Filter
import Mathlib.Data.Multiset.Range
import Mathlib.Data.Nat.ModEq
import Mathlib.Logic.Function.Basic

/-!
# The entries of a table

* `entries n f` : what the first `n` slots of a table hold, as a multiset;
* `entries_fill`, `entries_clear`, `entries_add` : a slot that is filled, a slot that is cleared, new slots;
* `entries_bind`, `card_entries_map` : a table that is read through another;
* `entries_probe` : the slots in another order, from any slot on and around;
* `exists_free` : a table that is not full has a free slot.
-/

namespace Gewodsys.Machine

variable {α β : Type} {n m i : Nat} {f g : Nat → Option α} {a : α}

def entries (n : Nat) (f : Nat → Option α) : Multiset α := (Multiset.range n).filterMap f

theorem mem_entries : a ∈ entries n f ↔ ∃ i, i < n ∧ f i = some a := by
  unfold entries
  rw [Multiset.mem_filterMap]
  simp only [Multiset.mem_range]

theorem filterMap_congr {s : Multiset Nat} (h : ∀ i ∈ s, f i = g i) : s.filterMap f = s.filterMap g := by
  induction s using Multiset.induction_on with
  | empty => rfl
  | cons i s ih =>
      rw [Multiset.filterMap_cons, Multiset.filterMap_cons, h i (Multiset.mem_cons_self i s),
        ih fun j hj => h j (Multiset.mem_cons_of_mem hj)]

theorem entries_congr (h : ∀ i < n, f i = g i) : entries n f = entries n g :=
  filterMap_congr fun i hi => h i (Multiset.mem_range.mp hi)

@[simp] theorem entries_zero (f : Nat → Option α) : entries 0 f = 0 := rfl

theorem entries_none (n : Nat) : entries n (fun _ => (none : Option α)) = 0 := by
  refine Multiset.eq_zero_of_forall_notMem fun a ha => ?_
  obtain ⟨i, -, hi⟩ := mem_entries.mp ha
  cases hi

theorem entries_succ (n : Nat) (f : Nat → Option α) :
    entries (n + 1) f = ((f n).elim 0 fun a => {a}) + entries n f := by
  unfold entries
  rw [Multiset.range_succ, Multiset.filterMap_cons]
  cases f n <;> rfl

/-! ## One slot changes -/

theorem range_eq_cons (hi : i < n) : Multiset.range n = i ::ₘ (Multiset.range n).erase i :=
  (Multiset.cons_erase (Multiset.mem_range.mpr hi)).symm

theorem notMem_erase_range (i n : Nat) : i ∉ (Multiset.range n).erase i :=
  (Multiset.nodup_range n).notMem_erase

theorem filterMap_update (o : Option α) : ((Multiset.range n).erase i).filterMap (Function.update f i o) =
    ((Multiset.range n).erase i).filterMap f :=
  filterMap_congr fun _ hj => Function.update_of_ne (ne_of_mem_of_not_mem hj (notMem_erase_range i n)) _ _

/-- A free slot is filled. -/
theorem entries_fill (hi : i < n) (hf : f i = none) (a : α) :
    entries n (Function.update f i (some a)) = a ::ₘ entries n f := by
  unfold entries
  rw [range_eq_cons hi, Multiset.filterMap_cons_some _ _ _ (Function.update_self i (some a) f), filterMap_update,
    Multiset.filterMap_cons_none _ _ hf]

/-- A slot is cleared. -/
theorem entries_clear (hi : i < n) (hf : f i = some a) : entries n f = a ::ₘ entries n (Function.update f i none) := by
  unfold entries
  rw [range_eq_cons hi, Multiset.filterMap_cons_some _ _ _ hf,
    Multiset.filterMap_cons_none _ _ (Function.update_self i none f), filterMap_update]

/-- New slots hold nothing. -/
theorem entries_add (k : Nat) (h : ∀ i, n ≤ i → f i = none) : entries (n + k) f = entries n f := by
  induction k with
  | zero => rfl
  | succ k ih => rw [← Nat.add_assoc, entries_succ, h (n + k) (Nat.le_add_right n k), ih, Option.elim_none, Multiset.zero_add]

/-- A table that is not full has a free slot. -/
theorem exists_free (h : Multiset.card (entries n f) < n) : ∃ i, i < n ∧ f i = none := by
  by_contra hfull
  have hsome : ∀ i < n, ∃ a, f i = some a := by
    intro i hi
    cases hf : f i with
    | none => exact absurd ⟨i, hi, hf⟩ hfull
    | some a => exact ⟨a, rfl⟩
  have hcard : ∀ k ≤ n, Multiset.card (entries k f) = k := by
    intro k hk
    induction k with
    | zero => rfl
    | succ k ih =>
        obtain ⟨a, ha⟩ := hsome k hk
        rw [entries_succ, ha, Multiset.card_add, ih (Nat.le_of_succ_le hk)]
        exact Nat.add_comm 1 k
  exact absurd (hcard n (le_refl n)) (ne_of_lt h)

/-! ## Tables read through others -/

theorem entries_bind (g : α → Option β) : entries n (fun i => (f i).bind g) = (entries n f).filterMap g :=
  (Multiset.filterMap_filterMap f g (Multiset.range n)).symm

theorem card_entries_map (g : Nat → α → β) :
    Multiset.card (entries n fun i => (f i).map (g i)) = Multiset.card (entries n f) := by
  induction n with
  | zero => rfl
  | succ n ih =>
      rw [entries_succ, entries_succ, Multiset.card_add, Multiset.card_add, ih]
      cases f n <;> rfl

theorem card_entries_le (n : Nat) (f : Nat → Option α) : Multiset.card (entries n f) ≤ n := by
  induction n with
  | zero => exact Nat.zero_le 0
  | succ n ih =>
      rw [entries_succ, Multiset.card_add, Nat.add_comm]
      refine Nat.add_le_add ih ?_
      cases f n with
      | none => exact Nat.zero_le 1
      | some a => exact Nat.le_refl 1

/-! ## Slots in another order -/

theorem map_probe (h : Nat) (hm : 0 < m) : (Multiset.range m).map (fun i => (h + i) % m) = Multiset.range m := by
  have hinj : ∀ i ∈ Multiset.range m, ∀ j ∈ Multiset.range m, (h + i) % m = (h + j) % m → i = j := by
    intro i hi j hj hij
    exact Nat.ModEq.eq_of_lt_of_lt (Nat.ModEq.add_left_cancel' h hij) (Multiset.mem_range.mp hi) (Multiset.mem_range.mp hj)
  have hnodup := Multiset.Nodup.map_on hinj (Multiset.nodup_range m)
  refine Multiset.eq_of_le_of_card_le ((Multiset.le_iff_subset hnodup).mpr fun b hb => ?_) ?_
  · obtain ⟨i, -, rfl⟩ := Multiset.mem_map.mp hb
    exact Multiset.mem_range.mpr (Nat.mod_lt _ hm)
  · rw [Multiset.card_map]

/-- The slots from `h` on and around are all the slots. -/
theorem entries_probe (h : Nat) (hm : 0 < m) (f : Nat → Option α) : entries m (fun i => f ((h + i) % m)) = entries m f := by
  have hmap := Multiset.filterMap_map (fun i => (h + i) % m) f (Multiset.range m)
  rw [map_probe h hm] at hmap
  exact hmap.symm

theorem exists_probe (h : Nat) {b : Nat} (hb : b < m) : ∃ i, i < m ∧ (h + i) % m = b := by
  have hmem : b ∈ (Multiset.range m).map fun i => (h + i) % m := by
    rw [map_probe h (Nat.zero_lt_of_lt hb)]
    exact Multiset.mem_range.mpr hb
  obtain ⟨i, hi, hib⟩ := Multiset.mem_map.mp hmem
  exact ⟨i, Multiset.mem_range.mp hi, hib⟩

end Gewodsys.Machine
