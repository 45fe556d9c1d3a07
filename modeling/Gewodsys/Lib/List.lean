import Mathlib

/-!
# Intrusive lists (`lib/list.h`)

A node is an address; its links are a `LIST_ENTRY`, found in `link`.

* `listAdd` : `LIST_ADD`; `listForeach` : the nodes that `LIST_FOREACH` visits, with fuel;
* `ListRep l xs` : the list `l` holds the nodes `xs`, in this order;
* `ListRep.add` : `LIST_ADD` puts a node at the end; `ListRep.foreach` : `LIST_FOREACH` ends and visits the nodes.
-/

namespace Gewodsys.Lib

structure ListEntry where
  next : Nat
  prev : Nat
deriving DecidableEq, Repr

structure ListHead where
  first : Nat
  last : Nat
deriving DecidableEq, Repr

/-- A list head, and the links of all nodes. -/
structure Links where
  head : ListHead
  link : Nat → ListEntry

/-- `LIST_HEAD_INIT`. -/
def listHeadInit : ListHead := ⟨0, 0⟩

def listAdd (l : Links) (el : Nat) : Links :=
  if l.head.first = 0 then ⟨⟨el, el⟩, Function.update l.link el ⟨0, 0⟩⟩
  else
    let link := Function.update l.link l.head.last { l.link l.head.last with next := el }
    let link := Function.update link el { link el with next := 0 }
    let link := Function.update link el { link el with prev := l.head.last }
    ⟨{ l.head with last := el }, link⟩

/-- `LIST_FOREACH` from the node `var` on. -/
def listForeach (link : Nat → ListEntry) : Nat → Nat → Option (List Nat)
  | 0, _ => none
  | fuel + 1, var => if var = 0 then some [] else (listForeach link fuel (link var).next).map (var :: ·)

/-- The list holds `xs`: every node is linked to its neighbours, and the outermost links are 0. -/
structure ListRep (l : Links) (xs : List Nat) : Prop where
  first : l.head.first = xs.headD 0
  last : l.head.last = xs.getLastD 0
  entry : ∀ pre x post, xs = pre ++ x :: post → l.link x = ⟨post.headD 0, pre.getLastD 0⟩
  nodup : xs.Nodup
  nonzero : ∀ x ∈ xs, x ≠ 0

variable {l : Links} {xs : List Nat}

theorem listRep_init (link : Nat → ListEntry) : ListRep ⟨listHeadInit, link⟩ [] where
  first := rfl
  last := rfl
  entry pre x post h := by simp at h
  nodup := List.nodup_nil
  nonzero x hx := by simp at hx

theorem ListRep.first_eq_zero (h : ListRep l xs) : l.head.first = 0 ↔ xs = [] := by
  rw [h.first]
  cases xs with
  | nil => exact ⟨fun _ => rfl, fun _ => rfl⟩
  | cons x xs => exact ⟨fun h0 => absurd h0 (h.nonzero x List.mem_cons_self), fun h => by cases h⟩

/-- Where a node of `xs ++ [el]` stands. -/
theorem concat_eq_append_cons {α : Type*} {xs pre post : List α} {el x : α} (h : xs ++ [el] = pre ++ x :: post) :
    (post = [] ∧ x = el ∧ pre = xs) ∨ ∃ post', post = post' ++ [el] ∧ xs = pre ++ x :: post' := by
  rcases List.eq_nil_or_concat post with rfl | ⟨post', y, rfl⟩
  · obtain ⟨hxs, hx⟩ := List.append_inj' h rfl
    exact Or.inl ⟨rfl, (List.cons.inj hx).1.symm, hxs.symm⟩
  · rw [List.concat_eq_append, ← List.cons_append, ← List.append_assoc] at h
    obtain ⟨hxs, hy⟩ := List.append_inj' h rfl
    rw [List.concat_eq_append, (List.cons.inj hy).1]
    exact Or.inr ⟨post', rfl, hxs⟩

/-- **`LIST_ADD`** puts a new node at the end. -/
theorem ListRep.add (h : ListRep l xs) {el : Nat} (hnew : el ∉ xs) (h0 : el ≠ 0) :
    ListRep (listAdd l el) (xs ++ [el]) := by
  have hnodup : (xs ++ [el]).Nodup := List.nodup_append.mpr ⟨h.nodup, List.nodup_singleton el, fun x hx y hy => by
    rw [List.mem_singleton.mp hy]
    exact fun he => hnew (he ▸ hx)⟩
  have hnonzero : ∀ x ∈ xs ++ [el], x ≠ 0 := by
    intro x hx
    rcases List.mem_append.mp hx with hx | hx
    · exact h.nonzero x hx
    · rw [List.mem_singleton.mp hx]
      exact h0
  unfold listAdd
  by_cases hempty : l.head.first = 0
  · rw [if_pos hempty]
    obtain rfl := h.first_eq_zero.mp hempty
    refine ⟨rfl, rfl, fun pre x post hxs => ?_, hnodup, hnonzero⟩
    obtain ⟨rfl, rfl, rfl⟩ | ⟨post', -, hnil⟩ := concat_eq_append_cons hxs
    · exact Function.update_self _ _ _
    · simp at hnil
  · rw [if_neg hempty]
    have hne : xs ≠ [] := fun he => hempty (h.first_eq_zero.mpr he)
    obtain ⟨init, y, rfl⟩ := (List.eq_nil_or_concat xs).resolve_left hne
    rw [List.concat_eq_append] at *
    have hlast : l.head.last = y := by rw [h.last, List.getLastD_concat]
    have hy : y ≠ el := fun he => hnew (by simp [he])
    refine ⟨?_, ?_, fun pre x post hxs => ?_, hnodup, hnonzero⟩
    · simp only [h.first]
      cases init with
      | nil => rfl
      | cons z zs => rfl
    · simp only [List.getLastD_concat]
    · obtain ⟨rfl, rfl, rfl⟩ | ⟨post', rfl, hin⟩ := concat_eq_append_cons hxs
      · simp only [Function.update_self, hlast, List.headD_nil, List.getLastD_concat]
      · have hx : x ≠ el := fun he => hnew (by rw [hin, he]; simp)
        have hold := h.entry pre x post' hin
        simp only [Function.update_of_ne hx, hlast]
        by_cases hxy : x = y
        · -- the last node so far: it has no successor in `xs`
          subst hxy
          have hpost : post' = [] := by
            obtain ⟨hp, -, -⟩ | ⟨q, -, hq⟩ := concat_eq_append_cons hin
            · exact hp
            · have happ := (List.nodup_append.mp h.nodup).2.2
              exact absurd rfl (happ x (by rw [hq]; simp) x (List.mem_singleton_self x))
          subst hpost
          rw [Function.update_self, hold]
          rfl
        · rw [Function.update_of_ne hxy, hold]
          cases post' with
          | nil => exact absurd ((concat_eq_append_cons hin).elim (·.2.1) fun ⟨q, hq, _⟩ => by simp at hq) hxy
          | cons z zs => rfl

theorem ListRep.foreach_suffix (h : ListRep l xs) {pre ys : List Nat} (hxs : xs = pre ++ ys) {fuel : Nat}
    (hfuel : ys.length < fuel) : listForeach l.link fuel (ys.headD 0) = some ys := by
  induction ys generalizing pre fuel with
  | nil =>
      obtain ⟨k, rfl⟩ := Nat.exists_eq_add_of_lt hfuel
      rfl
  | cons y ys ih =>
      obtain ⟨k, rfl⟩ := Nat.exists_eq_add_of_lt hfuel
      have hy : y ≠ 0 := h.nonzero y (by rw [hxs]; simp)
      have hnext : (l.link y).next = ys.headD 0 := by rw [h.entry pre y ys hxs]
      have hsuffix : xs = pre ++ [y] ++ ys := by rw [hxs, List.append_assoc, List.singleton_append]
      rw [listForeach, List.headD_cons, if_neg hy, hnext, ih hsuffix (by rw [List.length_cons]; omega)]
      rfl

/-- **`LIST_FOREACH`** ends, and visits the nodes in order. -/
theorem ListRep.foreach (h : ListRep l xs) {fuel : Nat} (hfuel : xs.length < fuel) :
    listForeach l.link fuel l.head.first = some xs := by
  rw [h.first]
  exact h.foreach_suffix (List.nil_append xs).symm hfuel

end Gewodsys.Lib
