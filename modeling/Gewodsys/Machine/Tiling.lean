import Mathlib

/-!
# Tilings of a range

A list of tiles laid end to end from an address on; a tile has a size.

* `total size ts` : the length of the range;
* `placed size a ts` : the tiles with their addresses; `placed_append`, `placed_bounds`, `placed_pairwise`;
* `mem_placed_iff` : a placed tile splits the list;
* `placed_eq_of_overlap` : two placed tiles that share an address are the same.
-/

namespace Gewodsys.Machine

variable {τ : Type*} (size : τ → Nat)

def total (ts : List τ) : Nat := (ts.map size).sum

/-- The tiles `ts` with their addresses, the first one at `a`. -/
def placed (a : Nat) : List τ → List (Nat × τ)
  | [] => []
  | t :: ts => (a, t) :: placed (a + size t) ts

@[simp] theorem total_nil : total size [] = 0 := rfl

@[simp] theorem total_cons (t : τ) (ts : List τ) : total size (t :: ts) = size t + total size ts := by
  rw [total, total, List.map_cons, List.sum_cons]

@[simp] theorem total_append (ts us : List τ) : total size (ts ++ us) = total size ts + total size us := by
  rw [total, total, total, List.map_append, List.sum_append]

@[simp] theorem placed_nil (a : Nat) : placed size a [] = [] := rfl

@[simp] theorem placed_cons (a : Nat) (t : τ) (ts : List τ) :
    placed size a (t :: ts) = (a, t) :: placed size (a + size t) ts := rfl

@[simp] theorem placed_append (a : Nat) (ts us : List τ) :
    placed size a (ts ++ us) = placed size a ts ++ placed size (a + total size ts) us := by
  induction ts generalizing a with
  | nil => rfl
  | cons t ts ih => rw [List.cons_append, placed_cons, placed_cons, ih, total_cons, List.cons_append, Nat.add_assoc]

/-- A placed tile lies in the range. -/
theorem placed_bounds {a : Nat} {ts : List τ} {x : Nat × τ} (h : x ∈ placed size a ts) :
    a ≤ x.1 ∧ x.1 + size x.2 ≤ a + total size ts := by
  induction ts generalizing a with
  | nil => cases h
  | cons t ts ih =>
      rw [total_cons]
      rcases List.mem_cons.mp h with rfl | h
      · refine ⟨le_refl a, ?_⟩
        simp only
        omega
      · have := ih h
        omega

/-- Tiles end before the next ones start. -/
theorem placed_pairwise (a : Nat) (ts : List τ) :
    (placed size a ts).Pairwise fun x y => x.1 + size x.2 ≤ y.1 := by
  induction ts generalizing a with
  | nil => exact List.Pairwise.nil
  | cons t ts ih =>
      rw [placed_cons]
      refine List.Pairwise.cons ?_ (ih _)
      intro y hy
      exact (placed_bounds size hy).1

theorem mem_placed_iff {a : Nat} {ts : List τ} {x : Nat × τ} :
    x ∈ placed size a ts ↔ ∃ pre post, ts = pre ++ x.2 :: post ∧ x.1 = a + total size pre := by
  constructor
  · intro h
    induction ts generalizing a with
    | nil => cases h
    | cons t ts ih =>
        rcases List.mem_cons.mp h with rfl | h
        · exact ⟨[], ts, rfl, rfl⟩
        · obtain ⟨pre, post, rfl, hx⟩ := ih h
          refine ⟨t :: pre, post, rfl, ?_⟩
          rw [hx, total_cons, Nat.add_assoc]
  · rintro ⟨pre, post, rfl, hx⟩
    rw [placed_append, placed_cons, ← hx]
    exact List.mem_append_right _ List.mem_cons_self

theorem mem_placed_of_mem (a : Nat) {ts : List τ} {t : τ} (h : t ∈ ts) : ∃ b, (b, t) ∈ placed size a ts := by
  obtain ⟨pre, post, rfl⟩ := List.append_of_mem h
  exact ⟨a + total size pre, (mem_placed_iff size).mpr ⟨pre, post, rfl, rfl⟩⟩

/-- Two cuts of a list of tiles at the same address are the same. -/
theorem eq_of_total_eq {ts ts' : List τ} (us vs : List τ) (h : ts ++ us = ts' ++ vs) (hpos : ∀ t ∈ ts ++ us, 0 < size t)
    (ht : total size ts = total size ts') : ts = ts' := by
  induction ts generalizing ts' with
  | nil =>
      cases ts' with
      | nil => rfl
      | cons t ts' =>
          have := hpos t (by rw [h]; simp)
          rw [total_nil, total_cons] at ht
          omega
  | cons t ts ih =>
      cases ts' with
      | nil =>
          have := hpos t (by simp)
          rw [total_nil, total_cons] at ht
          omega
      | cons t' ts' =>
          simp only [List.cons_append, List.cons.injEq] at h
          obtain ⟨rfl, h⟩ := h
          rw [total_cons, total_cons] at ht
          rw [ih h (fun u hu => hpos u (List.mem_cons_of_mem t hu)) (by omega)]

theorem placed_eq_of_overlap {a : Nat} {ts : List τ} {x y : Nat × τ} (hx : x ∈ placed size a ts)
    (hy : y ∈ placed size a ts) (h1 : x.1 < y.1 + size y.2) (h2 : y.1 < x.1 + size x.2) : x = y := by
  by_contra hne
  have hsym : Std.Symm fun x y : Nat × τ => x.1 + size x.2 ≤ y.1 ∨ y.1 + size y.2 ≤ x.1 :=
    ⟨fun _ _ h => Or.symm h⟩
  have hpw : (placed size a ts).Pairwise fun x y => x.1 + size x.2 ≤ y.1 ∨ y.1 + size y.2 ≤ x.1 :=
    (placed_pairwise size a ts).imp fun h => Or.inl h
  have := hpw.forall hx hy hne
  omega

end Gewodsys.Machine
