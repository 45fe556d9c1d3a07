import Mathlib

/-!
# Trees of tables

A table `f : φ` has an entry `E f i : ω` for every index `i : ι`, and `child p w` reads the entry `w` that leads to the
path `p` as a table or as none. Paths are lists of indices, the last step first.

* `tableAt child E root p` : the table at the end of the path `p` from `root`;
* `tableAt_congr` : the tree depends only on what `child` reads in the tables of the tree;
* `tableAt_grow` : an entry that turns into a new table without children adds one table and moves none.

All results are relative to a set `D` of paths that is closed under taking the last step back.
-/

namespace Gewodsys.Machine

variable {ι φ ω : Type*}

/-- The table at the end of a path. -/
def tableAt (child : List ι → ω → Option φ) (E : φ → ι → ω) (root : φ) : List ι → Option φ
  | [] => some root
  | i :: p => (tableAt child E root p).bind fun f => child (i :: p) (E f i)

/-- A set of paths that holds, with a path, the path without its last step. -/
def TailClosed (D : List ι → Prop) : Prop := ∀ i p, D (i :: p) → D p

variable {child : List ι → ω → Option φ} {E E' : φ → ι → ω} {root : φ} {D : List ι → Prop}

theorem tableAt_cons_eq_some {i : ι} {p : List ι} {f : φ} :
    tableAt child E root (i :: p) = some f ↔ ∃ g, tableAt child E root p = some g ∧ child (i :: p) (E g i) = some f := by
  rw [tableAt, Option.bind_eq_some_iff]

theorem tableAt_cons_of {i : ι} {p : List ι} {g : φ} (h : tableAt child E root p = some g) :
    tableAt child E root (i :: p) = child (i :: p) (E g i) := by
  rw [tableAt, h, Option.bind_some]

theorem tableAt_cons_of_none {i : ι} {p : List ι} (h : tableAt child E root p = none) :
    tableAt child E root (i :: p) = none := by
  rw [tableAt, h, Option.bind_none]

/-- Below a root whose entries lead nowhere there is no table. -/
theorem tableAt_of_empty [DecidableEq ι] (h : ∀ i, child [i] (E root i) = none) (p : List ι) :
    tableAt child E root p = if p = [] then some root else none := by
  induction p with
  | nil => rfl
  | cons i p ih =>
      rw [if_neg (by simp)]
      by_cases hp : p = []
      · subst hp
        rw [tableAt_cons_of rfl, h i]
      · rw [if_neg hp] at ih
        exact tableAt_cons_of_none ih

/-- **The tree depends on the entries of its own tables only.** -/
theorem tableAt_congr (hD : TailClosed D)
    (h : ∀ i p f, D (i :: p) → tableAt child E root p = some f → child (i :: p) (E' f i) = child (i :: p) (E f i))
    {p : List ι} (hp : D p) : tableAt child E' root p = tableAt child E root p := by
  induction p with
  | nil => rfl
  | cons i p ih =>
      have hi := ih (hD i p hp)
      cases hf : tableAt child E root p with
      | none => rw [tableAt_cons_of_none (hi.trans hf), tableAt_cons_of_none hf]
      | some f => rw [tableAt_cons_of (hi.trans hf), tableAt_cons_of hf, h i p f hp hf]

/-- **Growing the tree.** The entry `i` of the table at `P` becomes the table `new`, whose entries lead nowhere. -/
theorem tableAt_grow [DecidableEq ι] (hD : TailClosed D) {i : ι} {P : List ι} {t new : φ}
    (hP : tableAt child E root P = some t) (habsent : child (i :: P) (E t i) = none)
    (hnew : child (i :: P) (E' t i) = some new) (hleaf : ∀ j, D (j :: i :: P) → child (j :: i :: P) (E' new j) = none)
    (hrest : ∀ j p f, D (j :: p) → tableAt child E root p = some f → j :: p ≠ i :: P →
      child (j :: p) (E' f j) = child (j :: p) (E f j))
    {q : List ι} (hq : D q) :
    tableAt child E' root q = if q = i :: P then some new else tableAt child E root q := by
  induction q with
  | nil => rw [if_neg (by simp)]; rfl
  | cons j p ih =>
      have hp := ih (hD j p hq)
      by_cases hpath : p = i :: P
      · -- below the new table there is nothing, as there was before
        subst hpath
        rw [if_pos rfl] at hp
        have hold : tableAt child E root (i :: P) = none := (tableAt_cons_of hP).trans habsent
        rw [tableAt_cons_of hp, hleaf j hq, tableAt_cons_of_none hold, if_neg (by simp)]
      · rw [if_neg hpath] at hp
        cases hf : tableAt child E root p with
        | none =>
            have hne : j :: p ≠ i :: P := by
              rintro h
              rw [(List.cons.inj h).2, hP] at hf
              cases hf
            rw [tableAt_cons_of_none (hp.trans hf), tableAt_cons_of_none hf, if_neg hne]
        | some f =>
            rw [tableAt_cons_of (hp.trans hf), tableAt_cons_of hf]
            by_cases hne : j :: p = i :: P
            · obtain ⟨rfl, rfl⟩ := List.cons.inj hne
              rw [hP] at hf
              rw [if_pos rfl, ← Option.some.inj hf, hnew]
            · rw [if_neg hne, hrest j p f hq hf hne]

/-- No two paths of `D` lead to one table. -/
def NoAlias (child : List ι → ω → Option φ) (E : φ → ι → ω) (root : φ) (D : List ι → Prop) : Prop :=
  ∀ p q f, D p → D q → tableAt child E root p = some f → tableAt child E root q = some f → p = q

theorem NoAlias.congr (h : NoAlias child E root D)
    (hsame : ∀ p, D p → tableAt child E' root p = tableAt child E root p) : NoAlias child E' root D := by
  intro p q f hp hq hpf hqf
  rw [hsame p hp] at hpf
  rw [hsame q hq] at hqf
  exact h p q f hp hq hpf hqf

/-- A tree that grows by a table that was not in it has no alias either. -/
theorem NoAlias.grow [DecidableEq ι] (h : NoAlias child E root D) {P : List ι} {new : φ}
    (hfresh : ∀ p, D p → tableAt child E root p ≠ some new)
    (hgrow : ∀ q, D q → tableAt child E' root q = if q = P then some new else tableAt child E root q) :
    NoAlias child E' root D := by
  intro p q f hp hq hpf hqf
  rw [hgrow p hp] at hpf
  rw [hgrow q hq] at hqf
  split_ifs at hpf hqf with h1 h2 h2
  · rw [h1, h2]
  · exact absurd (hqf.trans hpf.symm) (hfresh q hq)
  · exact absurd (hpf.trans hqf.symm) (hfresh p hp)
  · exact h p q f hp hq hpf hqf

end Gewodsys.Machine
