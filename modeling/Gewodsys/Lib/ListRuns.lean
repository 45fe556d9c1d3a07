import Gewodsys.Lib.List
import Gewodsys.Machine.Run

/-!
# Runs of the list macros (`lib/list.h`)

* `listAddFront`, `listRemove` : `LIST_ADD_FRONT` and `LIST_REMOVE`;
* `ListRep.flip` : a list read backwards is a list; `ListRep.addFront` comes from `ListRep.add` that way;
* `listRemove_spec` : the six pointers of `LIST_REMOVE` in one formula, `ListRep.remove` from it;
* `list_run` : after every run of the macros the list holds the reference sequence.
-/

namespace Gewodsys.Lib
open Gewodsys.Machine

/-! ## The macros -/

/-- `x->name.next = v` and `x->name.prev = v`. -/
def setNext (link : Nat → ListEntry) (x v : Nat) : Nat → ListEntry := Function.update link x { link x with next := v }
def setPrev (link : Nat → ListEntry) (x v : Nat) : Nat → ListEntry := Function.update link x { link x with prev := v }

def listAddFront (l : Links) (el : Nat) : Links :=
  if l.head.first = 0 then ⟨⟨el, el⟩, Function.update l.link el ⟨0, 0⟩⟩
  else
    let link := setPrev l.link l.head.first el
    let link := setNext link el l.head.first
    ⟨{ l.head with first := el }, setPrev link el 0⟩

def listRemove (l : Links) (el : Nat) : Links :=
  if el = l.head.first then
    if el = l.head.last then { l with head := ⟨0, 0⟩ }
    else
      let link := setPrev l.link (l.link el).next 0
      ⟨{ l.head with first := (link el).next }, setNext link el 0⟩
  else if el = l.head.last then
    let link := setNext l.link (l.link el).prev 0
    ⟨{ l.head with last := (link el).prev }, setPrev link el 0⟩
  else
    let link := setPrev l.link (l.link el).next (l.link el).prev
    let link := setNext link (link el).prev (link el).next
    let link := setNext link el 0
    ⟨l.head, setPrev link el 0⟩

/-- The nodes reached through `prev` from `var` on. -/
def followPrev (link : Nat → ListEntry) : Nat → Nat → Option (List Nat)
  | 0, _ => none
  | fuel + 1, var => if var = 0 then some [] else (followPrev link fuel (link var).prev).map (var :: ·)

theorem setNext_apply (link : Nat → ListEntry) (x v y : Nat) :
    setNext link x v y = ⟨if y = x then v else (link y).next, (link y).prev⟩ := by
  by_cases h : y = x
  · rw [h, if_pos rfl]
    exact Function.update_self _ _ _
  · rw [if_neg h]
    exact Function.update_of_ne h _ _

theorem setPrev_apply (link : Nat → ListEntry) (x v y : Nat) :
    setPrev link x v y = ⟨(link y).next, if y = x then v else (link y).prev⟩ := by
  by_cases h : y = x
  · rw [h, if_pos rfl]
    exact Function.update_self _ _ _
  · rw [if_neg h]
    exact Function.update_of_ne h _ _

/-! ## Backwards -/

def ListEntry.flip (e : ListEntry) : ListEntry := ⟨e.prev, e.next⟩

/-- The list with its two directions exchanged. -/
def Links.flip (l : Links) : Links := ⟨⟨l.head.last, l.head.first⟩, fun x => (l.link x).flip⟩

theorem headD_reverse (xs : List Nat) : xs.reverse.headD 0 = xs.getLastD 0 := by
  rw [List.headD_eq_head?_getD, List.head?_reverse, List.getLastD_eq_getLast?]

theorem getLastD_reverse (xs : List Nat) : xs.reverse.getLastD 0 = xs.headD 0 := by
  rw [List.getLastD_eq_getLast?, List.getLast?_reverse, List.headD_eq_head?_getD]

variable {l : Links} {xs : List Nat}

theorem ListRep.flip (h : ListRep l xs) : ListRep l.flip xs.reverse where
  first := h.last.trans (headD_reverse xs).symm
  last := h.first.trans (getLastD_reverse xs).symm
  entry pre x post hxs := by
    have hrev : xs = post.reverse ++ x :: pre.reverse := by
      rw [← List.reverse_reverse xs, hxs]
      simp
    have hx := h.entry post.reverse x pre.reverse hrev
    rw [headD_reverse, getLastD_reverse] at hx
    change (l.link x).flip = _
    rw [hx]
    rfl
  nodup := List.nodup_reverse.mpr h.nodup
  nonzero x hx := h.nonzero x (List.mem_reverse.mp hx)

theorem followPrev_eq (l : Links) (fuel var : Nat) : followPrev l.link fuel var = listForeach l.flip.link fuel var := by
  induction fuel generalizing var with
  | zero => rfl
  | succ fuel ih => rw [followPrev, listForeach, ih]; rfl

/-- Through `prev` the nodes are reached in reverse order. -/
theorem ListRep.backward (h : ListRep l xs) {fuel : Nat} (hfuel : xs.length < fuel) :
    followPrev l.link fuel l.head.last = some xs.reverse := by
  rw [followPrev_eq]
  exact h.flip.foreach (by rwa [List.length_reverse])

theorem ListRep.last_eq_zero (h : ListRep l xs) : l.head.last = 0 ↔ xs = [] :=
  h.flip.first_eq_zero.trans List.reverse_eq_nil_iff

/-! ## `LIST_ADD_FRONT` -/

theorem listAddFront_eq (h : ListRep l xs) (el : Nat) : listAddFront l el = (listAdd l.flip el).flip := by
  have hzero : l.flip.head.first = 0 ↔ l.head.first = 0 := h.last_eq_zero.trans h.first_eq_zero.symm
  unfold listAddFront listAdd
  by_cases h0 : l.head.first = 0
  · rw [if_pos h0, if_pos (hzero.mpr h0)]
    refine congrArg (Links.mk ⟨el, el⟩) (funext fun x => ?_)
    dsimp only
    by_cases hx : x = el
    · rw [hx, Function.update_self, Function.update_self]
      rfl
    · rw [Function.update_of_ne hx, Function.update_of_ne hx]
      rfl
  · rw [if_neg h0, if_neg (fun hf => h0 (hzero.mp hf))]
    refine congrArg (Links.mk ⟨el, l.head.last⟩) (funext fun x => ?_)
    dsimp only
    by_cases hx : x = el
    · simp only [hx, setPrev_apply, setNext_apply, if_true, Function.update_self]
      rfl
    · simp only [setPrev_apply, setNext_apply, if_neg hx, Function.update_of_ne hx]
      change _ = ListEntry.flip (Function.update l.flip.link l.head.first _ x)
      by_cases hf : x = l.head.first
      · rw [if_pos hf, hf, Function.update_self]
        rfl
      · rw [if_neg hf, Function.update_of_ne hf]
        rfl

/-- **`LIST_ADD_FRONT`** puts a new node at the front. -/
theorem ListRep.addFront (h : ListRep l xs) {el : Nat} (hnew : el ∉ xs) (h0 : el ≠ 0) :
    ListRep (listAddFront l el) (el :: xs) := by
  have hflip := (h.flip.add (fun hel => hnew (List.mem_reverse.mp hel)) h0).flip
  rw [← listAddFront_eq h el] at hflip
  simpa using hflip

/-! ## `LIST_REMOVE` -/

/-- The links after `el` was taken out between `pre` and `post`: 0 stands for a neighbour that does not exist. -/
def unlinked (l : Links) (pre : List Nat) (el : Nat) (post : List Nat) (x : Nat) : ListEntry :=
  if x = el then ⟨0, 0⟩
  else ⟨if x = pre.getLastD 0 then post.headD 0 else (l.link x).next,
    if x = post.headD 0 then pre.getLastD 0 else (l.link x).prev⟩

variable {pre post : List Nat} {el : Nat}

theorem headD_mem {ys : List Nat} (h : ys ≠ []) : ys.headD 0 ∈ ys := by
  cases ys with
  | nil => exact absurd rfl h
  | cons y ys => exact List.mem_cons_self

theorem getLastD_mem {ys : List Nat} (h : ys ≠ []) : ys.getLastD 0 ∈ ys := by
  rw [← headD_reverse]
  exact List.mem_reverse.mp (headD_mem (by simpa using h))

/-- The neighbours of a node. -/
structure Neighbours (l : Links) (pre : List Nat) (el : Nat) (post : List Nat) : Prop where
  link : l.link el = ⟨post.headD 0, pre.getLastD 0⟩
  prev : pre.getLastD 0 ≠ el
  next : post.headD 0 ≠ el
  first : el = l.head.first ↔ pre = []
  last : el = l.head.last ↔ post = []

theorem ListRep.first_iff (h : ListRep l (pre ++ el :: post)) : el = l.head.first ↔ pre = [] := by
  rw [h.first]
  cases pre with
  | nil => simp
  | cons y ys =>
      have hne : y ≠ el := fun he => by
        have := h.nodup
        simp [he] at this
      simp [hne.symm]

theorem ListRep.neighbours (h : ListRep l (pre ++ el :: post)) : Neighbours l pre el post where
  link := h.entry pre el post rfl
  prev he := by
    by_cases hpre : pre = []
    · subst hpre
      exact h.nonzero el (by simp) he.symm
    · have hmem := getLastD_mem hpre
      rw [he] at hmem
      exact (List.nodup_append.mp h.nodup).2.2 el hmem el List.mem_cons_self rfl
  next he := by
    by_cases hpost : post = []
    · subst hpost
      exact h.nonzero el (by simp) he.symm
    · have hmem := headD_mem hpost
      rw [he] at hmem
      exact (List.nodup_cons.mp (List.nodup_append.mp h.nodup).2.1).1 hmem
  first := h.first_iff
  last := by
    have hflip := h.flip
    rw [List.reverse_append, List.reverse_cons, List.append_assoc, List.singleton_append] at hflip
    exact hflip.first_iff.trans List.reverse_eq_nil_iff

/-- All cases of `LIST_REMOVE` in one: the only node, the first, the last, one in the middle. -/
theorem listRemove_link (h : ListRep l (pre ++ el :: post)) {x : Nat} (hx : x ≠ 0) :
    (listRemove l el).link x = unlinked l pre el post x := by
  obtain ⟨hlink, hp, hz, hfirst, hlast⟩ := h.neighbours
  unfold listRemove unlinked
  by_cases hpre : pre = []
  · have hp0 : pre.getLastD 0 = 0 := by rw [hpre]; rfl
    rw [if_pos (hfirst.mpr hpre)]
    rw [hp0] at hlink ⊢
    by_cases hpost : post = []
    · have hz0 : post.headD 0 = 0 := by rw [hpost]; rfl
      rw [hz0] at hlink ⊢
      rw [if_pos (hlast.mpr hpost), if_neg hx, if_neg hx]
      dsimp only
      split_ifs with hxel
      · rw [hxel, hlink]
      · rfl
    · rw [if_neg (fun he => hpost (hlast.mp he))]
      simp only [setNext_apply, setPrev_apply, hlink]
      by_cases hxel : x = el
      · rw [if_pos hxel, if_pos hxel, hxel, if_neg hz.symm, hlink]
      · rw [if_neg hxel, if_neg hxel, if_neg hx]
  · rw [if_neg (fun he => hpre (hfirst.mp he))]
    by_cases hpost : post = []
    · have hz0 : post.headD 0 = 0 := by rw [hpost]; rfl
      rw [hz0] at hlink ⊢
      rw [if_pos (hlast.mpr hpost)]
      simp only [setNext_apply, setPrev_apply, hlink]
      by_cases hxel : x = el
      · rw [if_pos hxel, if_pos hxel, hxel, if_neg hp.symm, hlink]
      · rw [if_neg hxel, if_neg hxel, if_neg hx]
    · rw [if_neg (fun he => hpost (hlast.mp he))]
      simp only [setNext_apply, setPrev_apply, hlink, if_neg hz.symm]
      by_cases hxel : x = el
      · simp only [if_pos hxel]
      · simp only [if_neg hxel]

theorem listRemove_head (h : ListRep l (pre ++ el :: post)) :
    (listRemove l el).head = ⟨(pre ++ post).headD 0, (pre ++ post).getLastD 0⟩ := by
  obtain ⟨hlink, hp, hz, hfirst, hlast⟩ := h.neighbours
  have hheadFirst := h.first
  have hheadLast := h.last
  unfold listRemove
  by_cases hpre : pre = []
  · subst hpre
    rw [if_pos (hfirst.mpr rfl)]
    by_cases hpost : post = []
    · subst hpost
      rw [if_pos (hlast.mpr rfl)]
      rfl
    · rw [if_neg (fun he => hpost (hlast.mp he))]
      obtain ⟨z, zs, rfl⟩ := List.exists_cons_of_ne_nil hpost
      simp only [setPrev_apply, hlink, hheadLast]
      rfl
  · obtain ⟨y, ys, hys⟩ := List.exists_cons_of_ne_nil hpre
    rw [if_neg (fun he => hpre (hfirst.mp he))]
    by_cases hpost : post = []
    · subst hpost
      rw [if_pos (hlast.mpr rfl)]
      simp only [setNext_apply, hlink, hheadFirst, List.append_nil, hys]
      rfl
    · rw [if_neg (fun he => hpost (hlast.mp he))]
      obtain ⟨z, zs, rfl⟩ := List.exists_cons_of_ne_nil hpost
      have hhead : l.head.first = (pre ++ z :: zs).headD 0 := by
        rw [hheadFirst, hys]
        rfl
      have hlastz : l.head.last = (pre ++ z :: zs).getLastD 0 := by
        rw [hheadLast]
        simp [List.getLastD_eq_getLast?]
      rw [← hhead, ← hlastz]

theorem getLastD_append_cons (xs ys : List Nat) (y : Nat) : (xs ++ y :: ys).getLastD 0 = (y :: ys).getLastD 0 := by
  rw [← headD_reverse, ← headD_reverse, List.reverse_append, List.reverse_cons]
  cases ys.reverse with
  | nil => rfl
  | cons z zs => rfl

/-- A node before `el` keeps the nodes before it; behind it `el` is left out. -/
theorem unlinked_before {q : List Nat} {x : Nat} (h : ListRep l (pre ++ x :: q ++ el :: post)) :
    unlinked l (pre ++ x :: q) el post x = ⟨(q ++ post).headD 0, pre.getLastD 0⟩ := by
  have hsplit : pre ++ x :: q ++ el :: post = pre ++ x :: (q ++ el :: post) := by simp
  have hentry := h.entry pre x (q ++ el :: post) hsplit
  have hnodup := h.nodup
  rw [hsplit] at hnodup
  have hout : x ∉ q ++ el :: post := (List.nodup_cons.mp (List.nodup_append.mp hnodup).2.1).1
  rw [List.mem_append, List.mem_cons] at hout
  push Not at hout
  obtain ⟨hq, hel, hpost⟩ := hout
  have hnext : x ≠ post.headD 0 := by
    intro he
    by_cases hnil : post = []
    · subst hnil
      exact h.nonzero x (by simp) he
    · exact hpost (he ▸ headD_mem hnil)
  rw [unlinked, if_neg hel, if_neg hnext, hentry, getLastD_append_cons]
  cases q with
  | nil => exact congrArg (ListEntry.mk · _) (if_pos rfl)
  | cons y ys =>
      have hlast : x ≠ (x :: y :: ys).getLastD 0 := fun he => hq (he ▸ getLastD_mem (List.cons_ne_nil y ys))
      rw [if_neg hlast]
      rfl

theorem unlinked_flip (l : Links) (pre : List Nat) (el : Nat) (post : List Nat) (x : Nat) :
    unlinked l.flip pre el post x = (unlinked l post.reverse el pre.reverse x).flip := by
  unfold unlinked
  rw [headD_reverse, getLastD_reverse]
  split_ifs <;> rfl

/-- A node behind `el` keeps the nodes behind it; before it `el` is left out. -/
theorem unlinked_after {q : List Nat} {x : Nat} (h : ListRep l (pre ++ el :: (q ++ x :: post))) :
    unlinked l pre el (q ++ x :: post) x = ⟨post.headD 0, (pre ++ q).getLastD 0⟩ := by
  have hflip := h.flip
  have hrev : (pre ++ el :: (q ++ x :: post)).reverse = post.reverse ++ x :: q.reverse ++ el :: pre.reverse := by simp
  rw [hrev] at hflip
  have hbefore := unlinked_before hflip
  have hback : (post.reverse ++ x :: q.reverse).reverse = q ++ x :: post := by simp
  rw [unlinked_flip, hback, List.reverse_reverse, ← List.reverse_append, headD_reverse, getLastD_reverse] at hbefore
  exact congrArg ListEntry.flip hbefore

/-- **`LIST_REMOVE`** takes a node out. -/
theorem ListRep.remove (h : ListRep l (pre ++ el :: post)) : ListRep (listRemove l el) (pre ++ post) where
  first := by rw [listRemove_head h]
  last := by rw [listRemove_head h]
  entry pre' x post' hxs := by
    have hx0 : x ≠ 0 := by
      have hmem : x ∈ pre ++ post := by rw [hxs]; simp
      refine h.nonzero x ?_
      rw [List.mem_append] at hmem
      rw [List.mem_append, List.mem_cons]
      exact hmem.imp_right Or.inr
    rw [listRemove_link h hx0]
    rcases List.append_eq_append_iff.mp hxs with ⟨q, hpre', hpost⟩ | ⟨q, hpre, hpost⟩
    · subst hpre' hpost
      exact unlinked_after h
    · cases q with
      | nil =>
          rw [List.nil_append] at hpost
          subst hpre hpost
          have hafter := unlinked_after (q := []) h
          simp only [List.nil_append, List.append_nil] at hafter ⊢
          exact hafter
      | cons y q =>
          obtain ⟨rfl, rfl⟩ := List.cons.inj hpost
          subst hpre
          exact unlinked_before h
  nodup := (List.nodup_middle.mp h.nodup).of_cons
  nonzero x hx := by
    refine h.nonzero x ?_
    rw [List.mem_append] at hx
    rw [List.mem_append, List.mem_cons]
    exact hx.imp_right Or.inr

/-! ## Nodes outside the list -/

theorem listAdd_frame (h : ListRep l xs) {x : Nat} (hx : x ≠ el) (hout : x ∉ xs) : (listAdd l el).link x = l.link x := by
  unfold listAdd
  by_cases h0 : l.head.first = 0
  · rw [if_pos h0]
    exact Function.update_of_ne hx _ _
  · rw [if_neg h0]
    have hlast : x ≠ l.head.last := by
      rintro rfl
      rw [h.last] at hout
      exact hout (getLastD_mem fun hnil => h0 (h.first_eq_zero.mpr hnil))
    simp only [Function.update_of_ne hx, Function.update_of_ne hlast]

theorem listAddFront_frame (h : ListRep l xs) {x : Nat} (hx : x ≠ el) (hout : x ∉ xs) :
    (listAddFront l el).link x = l.link x := by
  have hframe := listAdd_frame h.flip hx (fun hmem => hout (List.mem_reverse.mp hmem))
  rw [listAddFront_eq h el]
  exact congrArg ListEntry.flip hframe

theorem listRemove_frame (h : ListRep l (pre ++ el :: post)) {x : Nat} (h0 : x ≠ 0) (hout : x ∉ pre ++ el :: post) :
    (listRemove l el).link x = l.link x := by
  rw [List.mem_append, List.mem_cons] at hout
  push Not at hout
  obtain ⟨hpre, hel, hpost⟩ := hout
  have hprev : x ≠ pre.getLastD 0 := by
    intro he
    by_cases hnil : pre = []
    · rw [hnil] at he
      exact h0 he
    · exact hpre (he ▸ getLastD_mem hnil)
  have hnext : x ≠ post.headD 0 := by
    intro he
    by_cases hnil : post = []
    · rw [hnil] at he
      exact h0 he
    · exact hpost (he ▸ headD_mem hnil)
  rw [listRemove_link h h0, unlinked, if_neg hel, if_neg hprev, if_neg hnext]

/-! ## Runs -/

/-- `LIST_INIT`. -/
def listInit (l : Links) : Links := { l with head := ⟨0, 0⟩ }

inductive ListOp where
  | add (el : Nat)
  | addFront (el : Nat)
  | remove (el : Nat)
deriving DecidableEq, Repr

def ListOp.exec (l : Links) : ListOp → Links
  | .add el => listAdd l el
  | .addFront el => listAddFront l el
  | .remove el => listRemove l el

/-- The reference sequence after an operation; `none` where a node is added that is in the list (or no node), or one is
removed that is not. -/
def ListOp.refer (xs : List Nat) : ListOp → Option (List Nat)
  | .add el => if el = 0 ∨ el ∈ xs then none else some (xs ++ [el])
  | .addFront el => if el = 0 ∨ el ∈ xs then none else some (el :: xs)
  | .remove el => if el ∈ xs then some (xs.erase el) else none

/-- The list holds `xs`, and the nodes of `gone` that are not in it have no links. -/
structure ListInv (l : Links) (xs : List Nat) (gone : Nat → Prop) : Prop where
  rep : ListRep l xs
  nonzero : ∀ x, gone x → x ≠ 0
  clear : ∀ x, gone x → x ∉ xs → l.link x = ⟨0, 0⟩

theorem ListInv.step {gone : Nat → Prop} (h : ListInv l xs gone) {o : ListOp} {xs' : List Nat}
    (hstep : o.refer xs = some xs') : ListInv (o.exec l) xs' fun x => o = .remove x ∨ gone x := by
  cases o with
  | add el =>
      rw [ListOp.refer] at hstep
      split_ifs at hstep with hbad
      obtain rfl := Option.some.inj hstep
      push Not at hbad
      refine ⟨h.rep.add hbad.2 hbad.1, fun x hx => ?_, fun x hx hout => ?_⟩
      · exact h.nonzero x (hx.resolve_left (by simp))
      · rw [List.mem_append, List.mem_singleton] at hout
        push Not at hout
        exact (listAdd_frame h.rep hout.2 hout.1).trans (h.clear x (hx.resolve_left (by simp)) hout.1)
  | addFront el =>
      rw [ListOp.refer] at hstep
      split_ifs at hstep with hbad
      obtain rfl := Option.some.inj hstep
      push Not at hbad
      refine ⟨h.rep.addFront hbad.2 hbad.1, fun x hx => ?_, fun x hx hout => ?_⟩
      · exact h.nonzero x (hx.resolve_left (by simp))
      · rw [List.mem_cons] at hout
        push Not at hout
        exact (listAddFront_frame h.rep hout.1 hout.2).trans (h.clear x (hx.resolve_left (by simp)) hout.2)
  | remove el =>
      rw [ListOp.refer] at hstep
      split_ifs at hstep with hmem
      obtain rfl := Option.some.inj hstep
      obtain ⟨pre, post, hpre, rfl⟩ : ∃ pre post, el ∉ pre ∧ xs = pre ++ el :: post := by
        obtain ⟨pre, post, hxs, hpre⟩ := List.eq_append_cons_of_mem hmem
        exact ⟨pre, post, hpre, hxs⟩
      have herase : (pre ++ el :: post).erase el = pre ++ post := by
        rw [List.erase_append_right _ hpre, List.erase_cons_head]
      have hnonzero : ∀ x, ListOp.remove el = .remove x ∨ gone x → x ≠ 0 := by
        rintro x (hx | hx)
        · rw [← ListOp.remove.inj hx]
          exact h.rep.nonzero el hmem
        · exact h.nonzero x hx
      rw [herase]
      refine ⟨h.rep.remove, hnonzero, fun x hx hout => ?_⟩
      have h0 := hnonzero x hx
      by_cases hxel : x = el
      · exact (listRemove_link h.rep h0).trans (if_pos hxel)
      · have hgone : gone x := hx.resolve_left fun he => hxel (ListOp.remove.inj he).symm
        have hout' : x ∉ pre ++ el :: post := by
          rw [List.mem_append, List.mem_cons]
          rw [List.mem_append] at hout
          push Not at hout ⊢
          exact ⟨hout.1, hxel, hout.2⟩
        exact (listRemove_frame h.rep h0 hout').trans (h.clear x hgone hout')

theorem ListInv.run {gone : Nat → Prop} (h : ListInv l xs gone) {ops : List ListOp} {xs' : List Nat}
    (hrun : run ListOp.refer xs ops = some xs') :
    ListInv (ops.foldl ListOp.exec l) xs' fun x => ListOp.remove x ∈ ops ∨ gone x := by
  induction ops generalizing l xs gone with
  | nil =>
      obtain rfl := Option.some.inj hrun
      simpa using h
  | cons o ops ih =>
      obtain ⟨ys, hstep, hrest⟩ := run_cons_eq_some.mp hrun
      have hinv := ih (h.step hstep) hrest
      have hgone : (fun x => ListOp.remove x ∈ ops ∨ o = .remove x ∨ gone x) =
          fun x => ListOp.remove x ∈ o :: ops ∨ gone x := by
        funext x
        rw [List.mem_cons, eq_comm]
        exact propext (by tauto)
      rw [hgone] at hinv
      exact hinv

/-- What a list of the nodes `xs` looks like from outside. -/
structure ListOk (l : Links) (xs : List Nat) : Prop where
  foreach : ∀ fuel, xs.length < fuel → listForeach l.link fuel l.head.first = some xs
  backward : ∀ fuel, xs.length < fuel → followPrev l.link fuel l.head.last = some xs.reverse
  first : l.head.first = 0 ↔ xs = []
  last : l.head.last = 0 ↔ xs = []
  ends : xs ≠ [] → (l.link l.head.first).prev = 0 ∧ (l.link l.head.last).next = 0
  once : xs.Nodup

theorem ListRep.first_prev (h : ListRep l xs) (hne : xs ≠ []) : (l.link l.head.first).prev = 0 := by
  obtain ⟨x, ys, rfl⟩ := List.exists_cons_of_ne_nil hne
  rw [h.first, List.headD_cons, h.entry [] x ys rfl]
  rfl

theorem ListRep.ok (h : ListRep l xs) : ListOk l xs where
  foreach _ hfuel := h.foreach hfuel
  backward _ hfuel := h.backward hfuel
  first := h.first_eq_zero
  last := h.last_eq_zero
  ends hne := ⟨h.first_prev hne, h.flip.first_prev (by simpa using hne)⟩
  once := h.nodup

/-- **Runs of the list macros.** From `LIST_INIT`, after any operations that add only new nodes and remove only nodes of
the list, the list holds the reference sequence, and every node that was removed and not added again has no links. -/
theorem list_run (l : Links) {ops : List ListOp} {xs : List Nat} (hrun : run ListOp.refer [] ops = some xs) :
    ListOk (ops.foldl ListOp.exec (listInit l)) xs ∧
      ∀ el, .remove el ∈ ops → el ∉ xs → (ops.foldl ListOp.exec (listInit l)).link el = ⟨0, 0⟩ := by
  have hinit : ListInv (listInit l) [] fun _ => False :=
    ⟨listRep_init l.link, fun _ hx => hx.elim, fun _ hx => hx.elim⟩
  have hinv := hinit.run hrun
  exact ⟨hinv.rep.ok, fun el hel hout => hinv.clear el (Or.inl hel) hout⟩

theorem list_run_three : ListOk ([ListOp.add 8, .add 16, .addFront 24, .remove 8, .add 8, .remove 24].foldl ListOp.exec
    (listInit ⟨⟨5, 7⟩, fun _ => ⟨1, 2⟩⟩)) [16, 8] := by
  exact (@list_run ⟨⟨5, 7⟩, fun _ => ⟨1, 2⟩⟩ _ [16, 8] rfl).1

end Gewodsys.Lib
