import Gewodsys.Lai.HashRuns
import Gewodsys.Lai.Ns

/-!
# The namespace is a tree of names

* `Tree` : the names, the parents, and who is the child of that name; `NsOp.apply` : installing and uninstalling in it;
* `Instance.Shows` : the tree that the tables of children hold;
* `shows_install`, `shows_uninstall` : what one operation keeps;
* `ns_run` : any run of them, from the root on.
-/

namespace Gewodsys.Lai
open Gewodsys.Machine

/-! ## Trees -/

structure Tree where
  count : Nat
  name : Nat → Seg
  type : Nat → NsType
  parent : Nat → Option Nat
  child : Nat → Seg → Option Nat

def Tree.root : Tree := ⟨1, fun _ => rootName, fun _ => .root, fun _ => none, fun _ _ => none⟩

def Tree.setChild (t : Tree) (p : Nat) (name : Seg) (o : Option Nat) : Tree :=
  { t with child := Function.update t.child p (Function.update (t.child p) name o) }

/-- A new node, that is nobody's child. -/
def Tree.create (t : Tree) (name : Seg) (type : NsType) (p : Nat) : Tree :=
  { t with
    count := t.count + 1
    name := Function.update t.name t.count name
    type := Function.update t.type t.count type
    parent := Function.update t.parent t.count (some p) }

inductive NsOp
  | install (name : Seg) (type : NsType) (parent : Nat)
  | uninstall (node : Nat)

/-- A node that is created and installed, or one that is uninstalled. A pointer to no node is followed nowhere. -/
def NsOp.exec (s : Instance) : NsOp → Except Failure Instance
  | .install name type parent => do
      if parent < s.count then
        let (_, s) ← laiInstallNsnode s.count (s.create name type parent)
        return s
      else .error .undefined
  | .uninstall node => if node < s.count then laiUninstallNsnode node s else .error .undefined

/-- A name that is taken stays with the child that has it; only a child is uninstalled. -/
def NsOp.apply (t : Tree) : NsOp → Except Failure Tree
  | .install name type parent =>
      if parent < t.count then
        match t.child parent name with
        | some _ => .ok (t.create name type parent)
        | none => .ok ((t.create name type parent).setChild parent name (some t.count))
      else .error .undefined
  | .uninstall node =>
      if node < t.count then
        match t.parent node with
        | none => .ok t
        | some p =>
            if t.child p (t.name node) = some node then .ok (t.setChild p (t.name node) none) else .error .panic
      else .error .undefined

/-! ## Instances that show a tree -/

structure Instance.Shows (s : Instance) (t : Tree) : Prop where
  count : s.count = t.count
  name : ∀ k, k < t.count → (s.node k).name = t.name k
  type : ∀ k, k < t.count → (s.node k).type = t.type k
  parent : ∀ k, k < t.count → (s.node k).parent = t.parent k
  ok : ∀ p, p < t.count → (s.node p).children.Ok
  small : ∀ p, p < t.count → (s.node p).children.numElems < t.count
  nodup : ∀ p, p < t.count → (s.node p).children.contents.Nodup
  mem : ∀ p h c, p < t.count →
    ((h, c) ∈ (s.node p).children.contents ↔ h = laiHashString (t.name c) ∧ t.child p (t.name c) = some c)
  linked : ∀ p name c, t.child p name = some c → p < t.count ∧ c < t.count ∧ t.parent c = some p ∧ t.name c = name
  top : 0 < t.count ∧ t.type 0 = .root

/-- A parent is created before its children, and only the root has none. -/
structure Tree.Wf (t : Tree) : Prop where
  below : ∀ k p, k < t.count → t.parent k = some p → p < k
  rooted : ∀ k, k < t.count → (t.parent k = none ↔ k = 0)

theorem Tree.wf_root : Tree.root.Wf where
  below _ _ _ h := by cases h
  rooted _ hk := ⟨fun _ => Nat.lt_one_iff.mp hk, fun _ => rfl⟩

theorem shows_root : Instance.root.Shows Tree.root where
  count := rfl
  name _ _ := rfl
  type _ _ := rfl
  parent _ _ := rfl
  ok _ _ := Hashtable.ok_zero Nat
  small _ _ := Nat.zero_lt_one
  nodup _ _ := Multiset.nodup_zero
  mem p h c _ := ⟨fun hmem => absurd hmem (Multiset.notMem_zero _), fun ⟨_, hc⟩ => by cases hc⟩
  linked p name c hc := by cases hc
  top := ⟨Nat.zero_lt_one, rfl⟩

variable {s : Instance} {t : Tree} {p : Nat} {name : Seg}

/-- The search for a name finds the child of that name. -/
theorem Instance.Shows.search (h : s.Shows t) (hp : p < t.count) (name : Seg) {f : Nat → Bool}
    (hf : ∀ c, c < t.count → f c = decide (t.name c = name)) :
    ∃ r, searchChain f (laiHashString name) (s.node p).children = .ok r ∧ r.map Prod.snd = t.child p name := by
  obtain ⟨r, hr, hfound⟩ := searchChain_mem (h.ok p hp) f (laiHashString name)
  refine ⟨r, hr, ?_⟩
  cases r with
  | none =>
      cases hc : t.child p name with
      | none => rfl
      | some c =>
          obtain ⟨-, hlt, -, hname⟩ := h.linked p name c hc
          have hno := hfound c ((h.mem p _ c hp).mpr ⟨by rw [hname], by rw [hname, hc]⟩)
          rw [hf c hlt, hname, decide_eq_true rfl] at hno
          cases hno
  | some x =>
      obtain ⟨-, hmem, hyes⟩ := hfound
      obtain ⟨-, hc⟩ := (h.mem p _ x.2 hp).mp hmem
      have hlt := (h.linked p _ x.2 hc).2.1
      rw [hf x.2 hlt] at hyes
      rw [of_decide_eq_true hyes] at hc
      exact hc.symm

theorem Instance.Shows.getChild (h : s.Shows t) (hp : p < t.count) (name : Seg) :
    laiNsGetChild p name s = .ok (t.child p name) := by
  obtain ⟨r, hr, hchild⟩ := h.search hp name (f := fun child => (s.node child).name = name) fun c hc => by rw [h.name c hc]
  unfold laiNsGetChild
  rw [← hchild]
  simp only [hr, bind, Except.bind]
  cases r <;> rfl

/-! ## A new node -/

theorem create_node_self (s : Instance) (type : NsType) : (s.create name type p).node s.count = ⟨name, type, some p, .zero Nat⟩ :=
  Function.update_self _ _ _

theorem create_node_of_ne {k : Nat} (s : Instance) (type : NsType) (hk : k ≠ s.count) :
    (s.create name type p).node k = s.node k :=
  Function.update_of_ne hk _ _

variable {type : NsType}

theorem treeCreate_name (t : Tree) (name : Seg) (type : NsType) (p : Nat) : (t.create name type p).name t.count = name :=
  Function.update_self _ _ _

theorem treeCreate_name_of_lt {k : Nat} (hk : k < t.count) : (t.create name type p).name k = t.name k :=
  Function.update_of_ne (Nat.ne_of_lt hk) _ _

theorem treeCreate_type (t : Tree) (name : Seg) (type : NsType) (p : Nat) : (t.create name type p).type t.count = type :=
  Function.update_self _ _ _

theorem treeCreate_type_of_lt {k : Nat} (hk : k < t.count) : (t.create name type p).type k = t.type k :=
  Function.update_of_ne (Nat.ne_of_lt hk) _ _

theorem treeCreate_parent (t : Tree) (name : Seg) (type : NsType) (p : Nat) :
    (t.create name type p).parent t.count = some p :=
  Function.update_self _ _ _

theorem treeCreate_parent_of_lt {k : Nat} (hk : k < t.count) : (t.create name type p).parent k = t.parent k :=
  Function.update_of_ne (Nat.ne_of_lt hk) _ _

theorem shows_create (h : s.Shows t) (p : Nat) (name : Seg) (type : NsType) :
    (s.create name type p).Shows (t.create name type p) := by
  have hcount := h.count
  have hold : ∀ k, k < t.count → (s.create name type p).node k = s.node k :=
    fun k hk => create_node_of_ne s type (by omega)
  have hnew : (s.create name type p).node t.count = ⟨name, type, some p, .zero Nat⟩ := by
    rw [← hcount, create_node_self]
  -- a node is an old one, or the new one
  have hcases : ∀ k, k < t.count + 1 → k < t.count ∨ k = t.count := fun k hk => by omega
  refine ⟨by rw [Instance.create, hcount]; rfl, ?_, ?_, ?_, ?_, ?_, ?_, ?_, ?_,
    Nat.succ_pos _, (treeCreate_type_of_lt h.top.1).trans h.top.2⟩
  · intro k hk
    rcases hcases k hk with hlt | rfl
    · rw [hold k hlt, h.name k hlt, treeCreate_name_of_lt hlt]
    · rw [hnew, treeCreate_name]
  · intro k hk
    rcases hcases k hk with hlt | rfl
    · rw [hold k hlt, h.type k hlt, treeCreate_type_of_lt hlt]
    · rw [hnew, treeCreate_type]
  · intro k hk
    rcases hcases k hk with hlt | rfl
    · rw [hold k hlt, h.parent k hlt, treeCreate_parent_of_lt hlt]
    · rw [hnew, treeCreate_parent]
  · intro k hk
    rcases hcases k hk with hlt | rfl
    · rw [hold k hlt]
      exact h.ok k hlt
    · rw [hnew]
      exact Hashtable.ok_zero Nat
  · intro k hk
    rcases hcases k hk with hlt | rfl
    · rw [hold k hlt]
      exact (h.small k hlt).trans (Nat.lt_succ_self _)
    · rw [hnew]
      exact Nat.succ_pos _
  · intro k hk
    rcases hcases k hk with hlt | rfl
    · rw [hold k hlt]
      exact h.nodup k hlt
    · rw [hnew]
      exact Multiset.nodup_zero
  · intro k hash c hk
    rcases hcases k hk with hlt | rfl
    · rw [hold k hlt, h.mem k hash c hlt]
      by_cases hc : c < t.count
      · rw [treeCreate_name_of_lt hc]
        rfl
      · constructor
        · rintro ⟨-, hchild⟩
          exact absurd (h.linked k _ c hchild).2.1 hc
        · rintro ⟨-, hchild⟩
          exact absurd (h.linked k _ c hchild).2.1 hc
    · rw [hnew]
      constructor
      · intro hmem
        exact absurd hmem (Multiset.notMem_zero _)
      · rintro ⟨-, hchild⟩
        exact absurd (h.linked _ _ c hchild).1 (lt_irrefl _)
  · intro q nm c hchild
    obtain ⟨hq, hc, hparent, hname⟩ := h.linked q nm c hchild
    exact ⟨Nat.lt_succ_of_lt hq, Nat.lt_succ_of_lt hc, (treeCreate_parent_of_lt hc).trans hparent,
      (treeCreate_name_of_lt hc).trans hname⟩

theorem shows_nsArray (h : s.Shows t) (a : List (Option Nat)) : Instance.Shows { s with nsArray := a } t :=
  ⟨h.count, h.name, h.type, h.parent, h.ok, h.small, h.nodup, h.mem, h.linked, h.top⟩

/-! ## A new child, or one less -/

theorem setChild_child (t : Tree) (p : Nat) (name : Seg) (o : Option Nat) (q : Nat) (nm : Seg) :
    (t.setChild p name o).child q nm = if q = p ∧ nm = name then o else t.child q nm := by
  show Function.update t.child p (Function.update (t.child p) name o) q nm = _
  by_cases hq : q = p
  · subst hq
    by_cases hn : nm = name
    · subst hn
      rw [if_pos ⟨rfl, rfl⟩, Function.update_self, Function.update_self]
    · rw [if_neg fun h => hn h.2, Function.update_self, Function.update_of_ne hn]
  · rw [if_neg fun h => hq h.1, Function.update_of_ne hq]

theorem setChildren_of_ne {k : Nat} (s : Instance) (children : Hashtable Nat) (hk : k ≠ p) :
    (s.setChildren p children).node k = s.node k :=
  Function.update_of_ne hk _ _

theorem setChildren_self (s : Instance) (children : Hashtable Nat) :
    (s.setChildren p children).node p = { s.node p with children := children } :=
  Function.update_self _ _ _

/-- The tables show the tree again, where one table and the children in the tree change alike. -/
theorem shows_setChildren {children : Hashtable Nat} {o : Option Nat} (h : s.Shows t) (hp : p < t.count)
    (hok : children.Ok) (hsmall : children.numElems < t.count) (hnodup : children.contents.Nodup)
    (hmem : ∀ hash c, (hash, c) ∈ children.contents ↔
      hash = laiHashString (t.name c) ∧ (t.setChild p name o).child p (t.name c) = some c)
    (ho : ∀ c, o = some c → c < t.count ∧ t.parent c = some p ∧ t.name c = name) :
    (s.setChildren p children).Shows (t.setChild p name o) := by
  have hkeep : ∀ k, ((s.setChildren p children).node k).name = (s.node k).name ∧
      ((s.setChildren p children).node k).parent = (s.node k).parent ∧
      ((s.setChildren p children).node k).type = (s.node k).type := by
    intro k
    by_cases hk : k = p
    · subst hk
      rw [setChildren_self]
      exact ⟨rfl, rfl, rfl⟩
    · rw [setChildren_of_ne s children hk]
      exact ⟨rfl, rfl, rfl⟩
  refine ⟨h.count, fun k hk => (hkeep k).1.trans (h.name k hk), fun k hk => (hkeep k).2.2.trans (h.type k hk),
    fun k hk => (hkeep k).2.1.trans (h.parent k hk), ?_, ?_, ?_, ?_, ?_, h.top⟩
  · intro q hq
    by_cases hqp : q = p
    · subst hqp
      rw [setChildren_self]
      exact hok
    · rw [setChildren_of_ne s children hqp]
      exact h.ok q hq
  · intro q hq
    by_cases hqp : q = p
    · subst hqp
      rw [setChildren_self]
      exact hsmall
    · rw [setChildren_of_ne s children hqp]
      exact h.small q hq
  · intro q hq
    by_cases hqp : q = p
    · subst hqp
      rw [setChildren_self]
      exact hnodup
    · rw [setChildren_of_ne s children hqp]
      exact h.nodup q hq
  · intro q hash c hq
    by_cases hqp : q = p
    · subst hqp
      rw [setChildren_self]
      exact hmem hash c
    · rw [setChildren_of_ne s children hqp, setChild_child, if_neg fun hand => hqp hand.1]
      exact h.mem q hash c hq
  · intro q nm c hchild
    rw [setChild_child] at hchild
    by_cases hand : q = p ∧ nm = name
    · rw [if_pos hand] at hchild
      obtain ⟨rfl, rfl⟩ := hand
      obtain ⟨hc, hparent, hname⟩ := ho c hchild
      exact ⟨hp, hc, hparent, hname⟩
    · rw [if_neg hand] at hchild
      exact h.linked q nm c hchild

/-- A child is inserted where the name is free. -/
theorem shows_insert {c : Nat} (h : s.Shows t) (hc : c < t.count) (hparent : t.parent c = some p) (hp : p < t.count)
    (hfree : t.child p (t.name c) = none) (hroom : (s.node p).children.numElems + 1 < t.count)
    (hcount : t.count ≤ 2 ^ 28) :
    ∃ children, laiHashtableInsert (laiHashString (t.name c)) c (s.node p).children = .ok children ∧
      (s.setChildren p children).Shows (t.setChild p (t.name c) (some c)) := by
  obtain ⟨children, hinsert, hok, hcontents⟩ := insert_spec (h.ok p hp) (by omega) (laiHashString (t.name c)) c
  have hnot : (laiHashString (t.name c), c) ∉ (s.node p).children.contents := by
    rw [h.mem p _ c hp, hfree]
    rintro ⟨-, hno⟩
    cases hno
  refine ⟨children, hinsert, shows_setChildren h hp hok ?_ ?_ ?_ ?_⟩
  · rw [hok.numElems_eq, hcontents, Multiset.card_cons, ← (h.ok p hp).numElems_eq]
    exact hroom
  · rw [hcontents]
    exact Multiset.nodup_cons.mpr ⟨hnot, h.nodup p hp⟩
  · intro hash d
    rw [hcontents, Multiset.mem_cons, setChild_child]
    by_cases hname : t.name d = t.name c
    · rw [if_pos ⟨rfl, hname⟩, hname]
      constructor
      · rintro (heq | hmem)
        · cases heq
          exact ⟨rfl, rfl⟩
        · obtain ⟨-, hno⟩ := (h.mem p hash d hp).mp hmem
          rw [hname, hfree] at hno
          cases hno
      · rintro ⟨rfl, heq⟩
        cases heq
        exact .inl rfl
    · rw [if_neg fun hand => hname hand.2, ← h.mem p hash d hp]
      constructor
      · rintro (heq | hmem)
        · cases heq
          exact absurd rfl hname
        · exact hmem
      · exact .inr
  · intro d hd
    cases hd
    exact ⟨hc, hparent, rfl⟩

/-- A child is found in its chain, taken out of it, and found no more. -/
theorem shows_remove {c : Nat} (h : s.Shows t) (hp : p < t.count) (hchild : t.child p (t.name c) = some c) :
    ∃ i children, searchChain (· = c) (laiHashString (t.name c)) (s.node p).children = .ok (some (i, c)) ∧
      laiHashtableChainRemove (laiHashString (t.name c)) i (s.node p).children = .ok children ∧
      chainSearch (· = c) (laiHashString (t.name c)) children (children.bucketCapacity + 1) (i + 1) = .ok none ∧
      (s.setChildren p children).Shows (t.setChild p (t.name c) none) := by
  have hmem : (laiHashString (t.name c), c) ∈ (s.node p).children.contents := (h.mem p _ c hp).mpr ⟨rfl, hchild⟩
  obtain ⟨j, hs⟩ := (h.ok p hp).sized hmem
  obtain ⟨r, hr, hfound⟩ := searchChain_spec hs (· = c) (laiHashString (t.name c))
  cases r with
  | none =>
      obtain ⟨i, hi, hat⟩ := (mem_contents_iff hs _ c).mp hmem
      have hne : ¬ c = c := of_decide_eq_false (hfound i c (Nat.zero_le i) hi hat)
      exact absurd rfl hne
  | some x =>
      obtain ⟨i, d⟩ := x
      obtain ⟨-, hi, hat, hd, -⟩ := hfound
      obtain rfl : d = c := of_decide_eq_true hd
      obtain ⟨children, hremove, hs', hcontents⟩ := remove_spec hs hat
      have hnodup := h.nodup p hp
      rw [hcontents, Multiset.nodup_cons] at hnodup
      have hbuckets : children.bucketCapacity = (s.node p).children.bucketCapacity := by rw [hs'.buckets, hs.buckets]
      obtain ⟨r, hr', hfound'⟩ := chainSearch_spec hs' (· = d) (laiHashString (t.name d)) (children.bucketCapacity + 1)
        (i + 1) (by omega) (by omega)
      refine ⟨i, children, hr, hremove, ?_, shows_setChildren h hp (.inr ⟨j, hs'⟩) ?_ hnodup.2 ?_ nofun⟩
      · cases r with
        | none => exact hr'
        | some y =>
            obtain ⟨-, hy, hat', hyd, -⟩ := hfound'
            obtain rfl : y.2 = d := of_decide_eq_true hyd
            exact absurd ((mem_contents_iff hs' _ _).mpr ⟨y.1, hy, hat'⟩) hnodup.1
      · have hsmall := h.small p hp
        rw [hs.count, hcontents, Multiset.card_cons, ← hs'.count] at hsmall
        omega
      · intro hash e
        rw [setChild_child]
        by_cases hname : t.name e = t.name d
        · rw [if_pos ⟨rfl, hname⟩]
          constructor
          · intro hin
            obtain ⟨hhash, he⟩ := (h.mem p hash e hp).mp (hcontents ▸ Multiset.mem_cons_of_mem hin)
            rw [hname, hchild] at he
            cases he
            exact absurd (hhash ▸ hin) hnodup.1
          · rintro ⟨-, hno⟩
            cases hno
        · rw [if_neg fun hand => hname hand.2, ← h.mem p hash e hp, hcontents, Multiset.mem_cons]
          constructor
          · exact .inr
          · rintro (heq | hin)
            · cases heq
              exact absurd rfl hname
            · exact hin

/-! ## Runs -/

/-- A node is created and installed. -/
theorem shows_install (h : s.Shows t) (hp : p < t.count) (hcount : t.count < 2 ^ 28) (name : Seg) (type : NsType) :
    ∃ r s', laiInstallNsnode s.count (s.create name type p) = .ok (r, s') ∧
      match t.child p name with
      | some _ => r = some .unexpectedResult ∧ s'.Shows (t.create name type p)
      | none => r = none ∧ s'.Shows ((t.create name type p).setChild p name (some t.count)) := by
  have hcreate := shows_nsArray (shows_create h p name type) ((s.create name type p).nsArray ++ [some s.count])
  have hp' : p < (t.create name type p).count := Nat.lt_succ_of_lt hp
  have hself : (s.create name type p).node s.count = ⟨name, type, some p, .zero Nat⟩ := create_node_self s type
  have hold : (s.create name type p).node p = s.node p := create_node_of_ne s type (by have := h.count; omega)
  obtain ⟨r, hr, hchild⟩ := hcreate.search hp' name (f := fun child => ((s.create name type p).node child).name = name)
    fun c hc => by rw [← hcreate.name c hc]
  unfold laiInstallNsnode
  simp only [hself, bind, Except.bind]
  rw [show (t.create name type p).child = t.child from rfl] at hchild
  change searchChain _ _ ((s.create name type p).node p).children = _ at hr
  rw [hr, ← hchild]
  cases r with
  | some x => exact ⟨_, _, rfl, rfl, hcreate⟩
  | none =>
      have hname : (t.create name type p).name t.count = name := treeCreate_name t name type p
      have hinsert := shows_insert (c := t.count) hcreate (Nat.lt_succ_self _) (treeCreate_parent t name type p) hp'
        (by rw [hname]; exact hchild.symm)
        (by rw [show (t.create name type p).count = t.count + 1 from rfl]; rw [hold]; have := h.small p hp; omega)
        (by rw [show (t.create name type p).count = t.count + 1 from rfl]; omega)
      rw [hname] at hinsert
      obtain ⟨children, hins, hshows⟩ := hinsert
      rw [← h.count] at hins
      refine ⟨none, _, ?_, rfl, hshows⟩
      change laiHashtableInsert _ _ ((s.create name type p).node p).children = _ at hins
      simp only [hins]
      rfl

theorem shows_uninstall {c : Nat} (h : s.Shows t) (hc : c < t.count) :
    match t.parent c with
    | none => ∃ s', laiUninstallNsnode c s = .ok s' ∧ s'.Shows t
    | some p =>
        if t.child p (t.name c) = some c then
          ∃ s', laiUninstallNsnode c s = .ok s' ∧ s'.Shows (t.setChild p (t.name c) none)
        else p < t.count → laiUninstallNsnode c s = .error .panic := by
  have harray := shows_nsArray h (s.nsArray.map fun x => if x = some c then none else x)
  unfold laiUninstallNsnode
  simp only [h.parent c hc, h.name c hc, bind, Except.bind]
  cases hparent : t.parent c with
  | none => exact ⟨_, rfl, harray⟩
  | some p =>
      simp only
      by_cases hchild : t.child p (t.name c) = some c
      · rw [if_pos hchild]
        have hp := (h.linked p _ c hchild).1
        obtain ⟨i, children, hsearch, hremove, hrest, hshows⟩ := shows_remove harray hp hchild
        change searchChain _ _ (s.node p).children = _ at hsearch
        change laiHashtableChainRemove _ _ (s.node p).children = _ at hremove
        refine ⟨_, ?_, hshows⟩
        simp only [hsearch, hremove, hrest]
        rfl
      · rw [if_neg hchild]
        intro hp
        obtain ⟨r, hr, hfound⟩ := searchChain_mem (h.ok p hp) (· = c) (laiHashString (t.name c))
        rw [hr]
        cases r with
        | none => rfl
        | some x =>
            obtain ⟨-, hmem, hx⟩ := hfound
            obtain rfl : x.2 = c := of_decide_eq_true hx
            exact absurd ((h.mem p _ _ hp).mp hmem).2 hchild

theorem Tree.Wf.create (hw : t.Wf) (hp : p < t.count) (name : Seg) (type : NsType) : (t.create name type p).Wf := by
  have hcases : ∀ k, k < t.count + 1 → k < t.count ∨ k = t.count := fun k hk => by omega
  constructor
  · intro k q hk hq
    rcases hcases k hk with hlt | rfl
    · rw [treeCreate_parent_of_lt hlt] at hq
      exact hw.below k q hlt hq
    · rw [treeCreate_parent] at hq
      cases hq
      exact hp
  · intro k hk
    rcases hcases k hk with hlt | rfl
    · rw [treeCreate_parent_of_lt hlt]
      exact hw.rooted k hlt
    · rw [treeCreate_parent]
      constructor
      · intro hno
        cases hno
      · intro hzero
        omega

theorem Tree.Wf.setChild (hw : t.Wf) (p : Nat) (name : Seg) (o : Option Nat) : (t.setChild p name o).Wf :=
  ⟨hw.below, hw.rooted⟩

/-- One operation on the tables does what it does on the tree. -/
theorem exec_shows (h : s.Shows t) (hw : t.Wf) (hcount : t.count < 2 ^ 28) (o : NsOp) :
    match o.apply t with
    | .ok t' => ∃ s', o.exec s = .ok s' ∧ s'.Shows t' ∧ t'.Wf ∧ t'.count ≤ t.count + 1
    | .error f => o.exec s = .error f := by
  cases o with
  | install name type parent =>
      simp only [NsOp.apply, NsOp.exec, h.count]
      by_cases hp : parent < t.count
      · obtain ⟨r, s', hinstall, hshows⟩ := shows_install h hp hcount name type
        rw [h.count] at hinstall
        rw [if_pos hp, if_pos hp, hinstall]
        cases hchild : t.child parent name with
        | some c =>
            rw [hchild] at hshows
            exact ⟨s', rfl, hshows.2, hw.create hp name type, le_refl _⟩
        | none =>
            rw [hchild] at hshows
            exact ⟨s', rfl, hshows.2, (hw.create hp name type).setChild parent name _, le_refl _⟩
      · rw [if_neg hp, if_neg hp]
  | uninstall node =>
      simp only [NsOp.apply, NsOp.exec, h.count]
      by_cases hc : node < t.count
      · rw [if_pos hc, if_pos hc]
        have hun := shows_uninstall h hc
        cases hparent : t.parent node with
        | none =>
            rw [hparent] at hun
            obtain ⟨s', hs', hshows⟩ := hun
            exact ⟨s', hs', hshows, hw, Nat.le_succ _⟩
        | some p =>
            simp only [hparent] at hun ⊢
            by_cases hchild : t.child p (t.name node) = some node
            · rw [if_pos hchild] at hun ⊢
              obtain ⟨s', hs', hshows⟩ := hun
              exact ⟨s', hs', hshows, hw.setChild p _ none, Nat.le_succ _⟩
            · rw [if_neg hchild] at hun ⊢
              exact hun ((hw.below node p hc hparent).trans hc)
      · rw [if_neg hc, if_neg hc]

theorem execs_shows (ops : List NsOp) : ∀ {s : Instance} {t : Tree}, s.Shows t → t.Wf → t.count + ops.length ≤ 2 ^ 28 →
    match ops.foldlM NsOp.apply t with
    | .ok t' => ∃ s', ops.foldlM NsOp.exec s = .ok s' ∧ s'.Shows t' ∧ t'.Wf ∧ t'.count ≤ t.count + ops.length
    | .error f => ops.foldlM NsOp.exec s = .error f := by
  induction ops with
  | nil => exact fun h hw _ => ⟨_, rfl, h, hw, le_refl _⟩
  | cons o ops ih =>
      intro s t h hw hlen
      rw [List.length_cons] at hlen
      have hstep := exec_shows h hw (by omega) o
      rw [List.foldlM_cons, List.foldlM_cons]
      cases happly : o.apply t with
      | error f =>
          rw [happly] at hstep
          simp only [bind, Except.bind]
          rw [hstep]
      | ok t1 =>
          rw [happly] at hstep
          obtain ⟨s1, hs1, hshows, hw1, hcount⟩ := hstep
          simp only [bind, Except.bind, hs1]
          have hrest := ih hshows hw1 (by omega)
          cases hrun : ops.foldlM NsOp.apply t1 with
          | error f =>
              rw [hrun] at hrest
              exact hrest
          | ok t2 =>
              rw [hrun] at hrest
              obtain ⟨s2, hs2, hshows2, hw2, hcount2⟩ := hrest
              exact ⟨s2, hs2, hshows2, hw2, by rw [List.length_cons]; omega⟩

/-- A run of installations and removals, from the root on: it fails where the tree says so, and a child is found by its
name just as in the tree. -/
theorem ns_run (ops : List NsOp) (hlen : ops.length < 2 ^ 28) :
    match ops.foldlM NsOp.apply Tree.root with
    | .ok t => ∃ s, ops.foldlM NsOp.exec Instance.root = .ok s ∧ s.count = t.count ∧
        ∀ p, p < t.count → ∀ name, laiNsGetChild p name s = .ok (t.child p name)
    | .error f => ops.foldlM NsOp.exec Instance.root = .error f := by
  have hrun := execs_shows ops shows_root Tree.wf_root (show 1 + ops.length ≤ 2 ^ 28 by omega)
  cases happly : ops.foldlM NsOp.apply Tree.root with
  | error f => rw [happly] at hrun; exact hrun
  | ok t =>
      rw [happly] at hrun
      obtain ⟨s, hs, hshows, -, -⟩ := hrun
      exact ⟨s, hs, hshows.count, fun p hp name => hshows.getChild hp name⟩

/-- `_SB_`, and in it `PCI0`. -/
def sbName : Seg := ⟨0x5F, 0x53, 0x42, 0x5F⟩
def pciName : Seg := ⟨0x50, 0x43, 0x49, 0x30⟩

/-- The second `PCI0` stays outside; the first one is taken out. -/
theorem ns_run_three : ∃ s, [NsOp.install sbName (.object .other) 0, .install pciName (.object .other) 1,
    .install pciName (.object .other) 1, .uninstall 2].foldlM NsOp.exec Instance.root = .ok s ∧ s.count = 4 ∧
      laiNsGetChild 0 sbName s = .ok (some 1) ∧ laiNsGetChild 1 pciName s = .ok none := by
  obtain ⟨s, hs, hcount, hchild⟩ := ns_run [NsOp.install sbName (.object .other) 0, .install pciName (.object .other) 1,
    .install pciName (.object .other) 1, .uninstall 2] (by decide)
  exact ⟨s, hs, hcount, hchild 0 (by decide) sbName, hchild 1 (by decide) pciName⟩

end Gewodsys.Lai
