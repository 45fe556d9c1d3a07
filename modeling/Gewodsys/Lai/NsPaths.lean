import Gewodsys.Lai.NsRuns

/-!
# Paths in the namespace

* `Tree.walk` : from child to child; `Tree.Plain` : no alias on the way;
* `pathBytes_eq`, `resolveLoop_eq` : the path of a node as it is written, and as it is read;
* `path_resolves` : the path that is written for a node leads back to the node, and so does its AML name;
* `search_nearest` : a search finds the nearest scope;
* `new_node_resolves` : a name that was declared is found from where it was declared.
-/

namespace Gewodsys.Lai
open Gewodsys.Machine

/-! ## Walks -/

def Tree.walk (t : Tree) (p : Nat) (segs : List Seg) : Option Nat := segs.foldlM t.child p

/-- No node on the way is an alias. -/
def Tree.Plain (t : Tree) (p : Nat) (segs : List Seg) : Prop :=
  ∀ front c, front <+: segs → front ≠ [] → t.walk p front = some c → (t.type c).isAlias = false

variable {s : Instance} {t : Tree} {p q k : Nat} {name : Seg} {segs : List Seg}

theorem walk_cons (t : Tree) (p : Nat) (name : Seg) (segs : List Seg) :
    t.walk p (name :: segs) = (t.child p name).bind fun c => t.walk c segs := List.foldlM_cons

theorem walk_append (t : Tree) (p : Nat) (segs segs' : List Seg) :
    t.walk p (segs ++ segs') = (t.walk p segs).bind fun c => t.walk c segs' := List.foldlM_append

theorem walk_singleton (t : Tree) (p : Nat) (name : Seg) : t.walk p [name] = t.child p name := by
  rw [walk_cons]
  cases t.child p name <;> rfl

theorem Tree.Plain.head {c : Nat} (h : t.Plain p (name :: segs)) (hc : t.child p name = some c) :
    (t.type c).isAlias = false :=
  h [name] c ⟨segs, rfl⟩ (List.cons_ne_nil _ _) (by rw [walk_singleton, hc])

theorem Tree.Plain.tail {c : Nat} (h : t.Plain p (name :: segs)) (hc : t.child p name = some c) : t.Plain c segs := by
  intro front d hfront _ hd
  obtain ⟨rest, rfl⟩ := hfront
  exact h (name :: front) d ⟨rest, rfl⟩ (List.cons_ne_nil _ _) (by rw [walk_cons, hc]; exact hd)

theorem walk_lt (h : s.Shows t) (hp : p < t.count) (hwalk : t.walk p segs = some q) : q < t.count := by
  induction segs generalizing p with
  | nil =>
      cases hwalk
      exact hp
  | cons name segs ih =>
      rw [walk_cons] at hwalk
      obtain ⟨c, hc, hwalk⟩ := Option.bind_eq_some_iff.mp hwalk
      exact ih (h.linked p name c hc).2.1 hwalk

/-! ## Up -/

/-- The climb ends at the root. -/
theorem climb_eq (h : s.Shows t) (hw : t.Wf) : ∀ n k, k ≤ n → k < t.count → climb s n k = 0
  | 0, k, hk, _ => Nat.le_zero.mp hk
  | n + 1, k, hk, hlt => by
      rw [climb, h.parent k hlt]
      cases hparent : t.parent k with
      | none => exact (hw.rooted k hlt).mp hparent
      | some p =>
          have hbelow := hw.below k p hlt hparent
          exact climb_eq h hw n p (by omega) (by omega)

theorem climbToRoot_eq (h : s.Shows t) (hw : t.Wf) (hk : k < t.count) : climbToRoot s k = .ok 0 := by
  unfold climbToRoot
  rw [climb_eq h hw s.count k (by rw [h.count]; omega) hk]
  simp only [h.type 0 h.top.1, h.top.2]
  rfl

/-! ## Writing a path -/

theorem pathBytes_eq (h : s.Shows t) (hw : t.Wf) (segs : List Seg) : ∀ {n node : Nat} (str : List Byte),
    t.walk 0 segs = some node → node < n →
    pathBytes s n node str = segs.flatMap (fun x => dot :: x.bytes) ++ str := by
  induction segs using List.reverseRecOn with
  | nil =>
      intro n node str hwalk hn
      cases hwalk
      obtain ⟨n, rfl⟩ := Nat.exists_eq_succ_of_ne_zero (Nat.ne_of_gt hn)
      rw [pathBytes, h.parent 0 h.top.1, (hw.rooted 0 h.top.1).mpr rfl]
      rfl
  | append_singleton segs name ih =>
      intro n node str hwalk hn
      rw [walk_append] at hwalk
      obtain ⟨p, hp, hchild⟩ := Option.bind_eq_some_iff.mp hwalk
      rw [walk_singleton] at hchild
      obtain ⟨-, hlt, hparent, hname⟩ := h.linked p name node hchild
      have hbelow := hw.below node p hlt hparent
      obtain ⟨n, rfl⟩ := Nat.exists_eq_succ_of_ne_zero (Nat.ne_of_gt (Nat.zero_lt_of_lt hn))
      rw [pathBytes, h.parent node hlt, hparent, h.name node hlt, hname, List.flatMap_append, List.append_assoc]
      exact ih _ hp (by omega)

/-- A path: the root, and the names with dots between them. -/
def pathOf (segs : List Seg) : List Byte := rootChar :: (segs.flatMap fun x => dot :: x.bytes).tail

theorem stringify_eq (h : s.Shows t) (hw : t.Wf) {node : Nat} (hwalk : t.walk 0 segs = some node) :
    laiStringifyNodePath node s = .ok (pathOf segs) := by
  have hlt := walk_lt h h.top.1 hwalk
  have hbytes := pathBytes_eq (n := s.count) h hw segs [] hwalk (by rw [h.count]; exact hlt)
  unfold laiStringifyNodePath
  rw [h.parent node hlt]
  cases hparent : t.parent node with
  | some p => rw [hbytes, List.append_nil]; rfl
  | none =>
      -- the root: there are no names
      obtain rfl := (hw.rooted node hlt).mp hparent
      simp only [h.type 0 h.top.1, h.top.2]
      cases segs using List.reverseRecOn with
      | nil => rfl
      | append_singleton segs name _ =>
          rw [walk_append] at hwalk
          obtain ⟨p, -, hchild⟩ := Option.bind_eq_some_iff.mp hwalk
          rw [walk_singleton] at hchild
          rw [(h.linked p name 0 hchild).2.2.1] at hparent
          cases hparent

/-! ## Reading a path -/

theorem readSegment_eq {x : Seg} (hx : ∀ c ∈ x.bytes, laiIsName c = true) (rest : List Byte) :
    readSegment (x.bytes ++ rest) = (x, rest) := by
  have htake : (x.bytes ++ rest).take 4 = x.bytes := List.take_left' rfl
  have hall : x.bytes.takeWhile laiIsName = x.bytes := List.takeWhile_eq_self_iff.mpr hx
  unfold readSegment
  rw [htake, hall]
  rfl

theorem followAlias_eq (h : s.Shows t) (hk : k < t.count) (hplain : (t.type k).isAlias = false) :
    followAlias s k = .ok k := by
  unfold followAlias
  rw [h.type k hk]
  cases htype : t.type k with
  | aliasOf target => rw [htype] at hplain; cases hplain
  | root => rfl
  | object node => rfl

theorem resolveLoop_eq (h : s.Shows t) (segs : List Seg) : ∀ {n p : Nat} {name : Seg}, p < t.count →
    t.walk p (name :: segs) = some q → t.Plain p (name :: segs) →
    (∀ x ∈ name :: segs, ∀ c ∈ x.bytes, laiIsName c = true) → segs.length < n →
    resolveLoop s n p (name.bytes ++ segs.flatMap fun x => dot :: x.bytes) = .ok (some q) := by
  induction segs with
  | nil =>
      intro n p name hp hwalk hplain hchars hn
      obtain ⟨n, rfl⟩ := Nat.exists_eq_succ_of_ne_zero (Nat.ne_of_gt hn)
      rw [walk_singleton] at hwalk
      rw [resolveLoop, readSegment_eq (hchars name (List.mem_cons_self ..))]
      simp only [h.getChild hp name, hwalk, bind, Except.bind,
        followAlias_eq h (h.linked p name q hwalk).2.1 (hplain.head hwalk)]
      rfl
  | cons name' segs ih =>
      intro n p name hp hwalk hplain hchars hn
      obtain ⟨n, rfl⟩ := Nat.exists_eq_succ_of_ne_zero (Nat.ne_of_gt (Nat.zero_lt_of_lt hn))
      rw [walk_cons] at hwalk
      obtain ⟨c, hc, hwalk⟩ := Option.bind_eq_some_iff.mp hwalk
      have hlt := (h.linked p name c hc).2.1
      rw [resolveLoop, readSegment_eq (hchars name (List.mem_cons_self ..))]
      simp only [h.getChild hp name, hc, bind, Except.bind, followAlias_eq h hlt (hplain.head hc)]
      exact ih hlt hwalk (hplain.tail hc) (fun x hx => hchars x (List.mem_cons_of_mem _ hx)) (Nat.lt_of_succ_lt_succ hn)

theorem descend_eq (h : s.Shows t) (segs : List Seg) : ∀ {p : Nat}, p < t.count → descend s segs p = .ok (t.walk p segs) := by
  induction segs with
  | nil => exact fun _ => rfl
  | cons name segs ih =>
      intro p hp
      rw [descend, walk_cons, h.getChild hp name]
      cases hc : t.child p name with
      | none => rfl
      | some c => exact ih (h.linked p name c hc).2.1

/-- From any node, the path of a node leads to it. -/
theorem resolvePath_eq (h : s.Shows t) (hw : t.Wf) {ctx : Option Nat} (hctx : ctx.getD 0 < t.count)
    (hwalk : t.walk 0 segs = some q) (hplain : t.Plain 0 segs)
    (hchars : ∀ x ∈ segs, ∀ c ∈ x.bytes, laiIsName c = true) :
    laiResolvePath ctx (pathOf segs) s = .ok (some q) := by
  unfold laiResolvePath pathOf
  simp only [climbToRoot_eq h hw hctx, bind, Except.bind, if_true]
  cases segs with
  | nil =>
      cases hwalk
      rfl
  | cons name segs =>
      have htail : ((name :: segs).flatMap fun x => dot :: x.bytes).tail =
          name.bytes ++ segs.flatMap fun x => dot :: x.bytes := rfl
      have hlen : segs.length < (name.bytes ++ segs.flatMap fun x => dot :: x.bytes).length + 1 := by
        have hle : segs.length ≤ (segs.flatMap fun x => dot :: x.bytes).length := by
          clear hwalk hplain hchars htail
          induction segs with
          | nil => exact Nat.zero_le _
          | cons x segs ih =>
              rw [List.flatMap_cons, List.length_append, List.length_cons, List.length_cons]
              omega
        rw [List.length_append]
        omega
      rw [htail]
      have hne : name.bytes ++ segs.flatMap (fun x => dot :: x.bytes) ≠ [] :=
        List.append_ne_nil_of_left_ne_nil (List.cons_ne_nil _ _) _
      simp only [pure, Except.pure, if_neg hne]
      exact resolveLoop_eq h segs h.top.1 hwalk hplain hchars hlen

/-! ## AML names -/

theorem startNode_absolute (h : s.Shows t) (hw : t.Wf) {ctx : Nat} {amln : AmlName} (hctx : ctx < t.count)
    (hplain : (t.type ctx).isAlias = false) (habs : amln.isAbsolute = true) (hheight : amln.height = 0) :
    startNode s ctx amln = .ok 0 := by
  unfold startNode
  rw [h.type ctx hctx, hplain, habs, hheight]
  simp only [Bool.false_eq_true, if_false, if_true, climbToRoot_eq h hw hctx]
  rfl

/-- A name of more than a scope: the children from where it starts. -/
theorem doResolve_eq (h : s.Shows t) {ctx start : Nat} {amln : AmlName} (hstart : startNode s ctx amln = .ok start)
    (hlt : start < t.count) (hscopes : amln.searchScopes = false) (hwalk : t.walk start amln.segs = some q)
    (hq : amln.segs ≠ [] → (t.type q).isAlias = false) : laiDoResolve ctx amln s = .ok (some q) := by
  unfold laiDoResolve
  rw [hscopes]
  simp only [hstart, Bool.false_eq_true, if_false, bind, Except.bind]
  cases hsegs : amln.segs with
  | nil =>
      rw [hsegs] at hwalk
      cases hwalk
      rfl
  | cons name segs =>
      rw [hsegs] at hwalk
      have hne : amln.segs ≠ [] := by rw [hsegs]; exact List.cons_ne_nil _ _
      simp only [descend_eq h (name :: segs) hlt, hwalk, followAlias_eq h (walk_lt h hlt hwalk) (hq hne)]
      rfl

/-- In every run from the root on, the path that is written for a node leads back to it from anywhere, and so does its
AML name, where no alias is on the way and the names are of characters for names. -/
theorem path_resolves (ops : List NsOp) (hlen : ops.length < 2 ^ 28) {node ctx : Nat}
    (ht : ops.foldlM NsOp.apply Tree.root = .ok t) (hwalk : t.walk 0 segs = some node) (hplain : t.Plain 0 segs)
    (hchars : ∀ x ∈ segs, ∀ c ∈ x.bytes, laiIsName c = true) (hctx : ctx < t.count)
    (hctxPlain : (t.type ctx).isAlias = false) :
    ∃ s str, ops.foldlM NsOp.exec Instance.root = .ok s ∧ laiStringifyNodePath node s = .ok str ∧
      laiResolvePath (some ctx) str s = .ok (some node) ∧
      laiDoResolve ctx ⟨true, 0, false, segs⟩ s = .ok (some node) := by
  have hrun := execs_shows ops shows_root Tree.wf_root (show 1 + ops.length ≤ 2 ^ 28 by omega)
  rw [ht] at hrun
  obtain ⟨s, hs, hshows, hw, -⟩ := hrun
  have hstart : startNode s ctx ⟨true, 0, false, segs⟩ = .ok 0 := startNode_absolute hshows hw hctx hctxPlain rfl rfl
  refine ⟨s, pathOf segs, hs, stringify_eq hshows hw hwalk, resolvePath_eq hshows hw hctx hwalk hplain hchars,
    doResolve_eq hshows hstart hshows.top.1 rfl hwalk fun hne => ?_⟩
  exact hplain segs node (List.prefix_refl _) hne hwalk

theorem prefix_pair {a b : Seg} {front : List Seg} (h : front <+: [a, b]) :
    front = [] ∨ front = [a] ∨ front = [a, b] := by
  obtain ⟨rest, heq⟩ := h
  match front with
  | [] => exact .inl rfl
  | [x] => cases heq; exact .inr (.inl rfl)
  | [x, y] => cases heq; exact .inr (.inr rfl)
  | x :: y :: z :: front => cases heq

/-- From `\_SB_`, the path of `\_SB_.PCI0`. -/
theorem path_resolves_pci : ∃ s str,
    [NsOp.install sbName (.object .other) 0, .install pciName (.object .other) 1].foldlM NsOp.exec Instance.root = .ok s ∧
      laiStringifyNodePath 2 s = .ok str ∧ laiResolvePath (some 1) str s = .ok (some 2) ∧
      laiDoResolve 1 ⟨true, 0, false, [sbName, pciName]⟩ s = .ok (some 2) := by
  refine path_resolves [NsOp.install sbName (.object .other) 0, .install pciName (.object .other) 1] (by decide) rfl rfl
    ?_ (by decide) (by decide) rfl
  intro front c hfront hne hwalk
  rcases prefix_pair hfront with rfl | rfl | rfl
  · exact absurd rfl hne
  · cases hwalk
    rfl
  · cases hwalk
    rfl

/-! ## Scopes -/

/-- The nearest scope that has the name: no name below it, on the way to where the search begins, is of that. -/
def Tree.Nearest (t : Tree) (segs : List Seg) (name : Seg) (q : Nat) : Prop :=
  ∃ front, front <+: segs ∧ t.walk 0 (front ++ [name]) = some q ∧
    ∀ longer, front <+: longer → longer <+: segs → longer ≠ front → t.walk 0 (longer ++ [name]) = none

theorem walk_snoc {c : Nat} (hwalk : t.walk 0 segs = some c) (name : Seg) : t.walk 0 (segs ++ [name]) = t.child c name := by
  rw [walk_append, hwalk]
  exact walk_singleton t c name

theorem nearest_here {c : Nat} (hwalk : t.walk 0 segs = some c) (hchild : t.child c name = some q) :
    ∀ q', t.Nearest segs name q' ↔ q' = q := by
  intro q'
  constructor
  · rintro ⟨front, hfront, hq, hlonger⟩
    by_cases heq : segs = front
    · rw [← heq, walk_snoc hwalk, hchild] at hq
      exact (Option.some.inj hq).symm
    · have hno := hlonger segs hfront (List.prefix_refl _) heq
      rw [walk_snoc hwalk, hchild] at hno
      cases hno
  · rintro rfl
    refine ⟨segs, List.prefix_refl _, (walk_snoc hwalk name).trans hchild, fun longer h h' hne => ?_⟩
    exact absurd (h'.eq_of_length_le h.length_le) hne

theorem nearest_above {c : Nat} {last : Seg} (hwalk : t.walk 0 (segs ++ [last]) = some c) (hchild : t.child c name = none) :
    t.Nearest (segs ++ [last]) name q ↔ t.Nearest segs name q := by
  have hsnoc := (walk_snoc hwalk name).trans hchild
  constructor
  · rintro ⟨front, hfront, hq, hlonger⟩
    rcases List.prefix_concat_iff.mp hfront with rfl | hfront
    · rw [hsnoc] at hq
      cases hq
    · exact ⟨front, hfront, hq, fun longer h h' => hlonger longer h (h'.trans (List.prefix_append _ _))⟩
  · rintro ⟨front, hfront, hq, hlonger⟩
    refine ⟨front, hfront.trans (List.prefix_append _ _), hq, fun longer h h' hne => ?_⟩
    rcases List.prefix_concat_iff.mp h' with rfl | h'
    · exact hsnoc
    · exact hlonger longer h h' hne

theorem searchScopes_nearest (h : s.Shows t) (hw : t.Wf) (hplain : ∀ k, k < t.count → (t.type k).isAlias = false)
    (name : Seg) (segs : List Seg) : ∀ {n ctx : Nat}, t.walk 0 segs = some ctx → ctx < n →
    ∃ r, searchScopes s name n ctx = .ok r ∧ ∀ q, r = some q ↔ t.Nearest segs name q := by
  induction segs using List.reverseRecOn with
  | nil =>
      intro n ctx hwalk hn
      have hctx := walk_lt h h.top.1 hwalk
      obtain ⟨n, rfl⟩ := Nat.exists_eq_succ_of_ne_zero (Nat.ne_of_gt (Nat.zero_lt_of_lt hn))
      rw [searchScopes, h.getChild hctx name, h.parent ctx hctx]
      cases hchild : t.child ctx name with
      | some c =>
          have hc := (h.linked ctx name c hchild).2.1
          simp only [bind, Except.bind, followAlias_eq h hc (hplain c hc)]
          refine ⟨some c, rfl, fun q => ?_⟩
          rw [nearest_here hwalk hchild, Option.some_inj, eq_comm]
      | none =>
          have hzero : ctx = 0 := (Option.some.inj hwalk).symm
          rw [(hw.rooted ctx hctx).mpr hzero]
          refine ⟨none, rfl, fun q => ⟨fun hno => (by cases hno), ?_⟩⟩
          rintro ⟨front, hfront, hq, -⟩
          rw [List.prefix_nil.mp hfront, walk_snoc hwalk, hchild] at hq
          cases hq
  | append_singleton segs last ih =>
      intro n ctx hwalk hn
      have hctx := walk_lt h h.top.1 hwalk
      obtain ⟨n, rfl⟩ := Nat.exists_eq_succ_of_ne_zero (Nat.ne_of_gt (Nat.zero_lt_of_lt hn))
      rw [searchScopes, h.getChild hctx name, h.parent ctx hctx]
      cases hchild : t.child ctx name with
      | some c =>
          have hc := (h.linked ctx name c hchild).2.1
          simp only [bind, Except.bind, followAlias_eq h hc (hplain c hc)]
          refine ⟨some c, rfl, fun q => ?_⟩
          rw [nearest_here hwalk hchild, Option.some_inj, eq_comm]
      | none =>
          have hwalk' := hwalk
          rw [walk_append] at hwalk'
          obtain ⟨p, hp, hlast⟩ := Option.bind_eq_some_iff.mp hwalk'
          rw [walk_singleton] at hlast
          have hparent := (h.linked p last ctx hlast).2.2.1
          have hbelow := hw.below ctx p hctx hparent
          rw [hparent]
          obtain ⟨r, hr, hnearest⟩ := ih (n := n) hp (by omega)
          exact ⟨r, hr, fun q => by rw [hnearest, nearest_above hwalk hchild]⟩

/-- In every run from the root on, without aliases: the search for a name finds its nearest scope. -/
theorem search_nearest (ops : List NsOp) (hlen : ops.length < 2 ^ 28) {ctx : Nat}
    (ht : ops.foldlM NsOp.apply Tree.root = .ok t) (hplain : ∀ k, k < t.count → (t.type k).isAlias = false)
    (hwalk : t.walk 0 segs = some ctx) (name : Seg) :
    ∃ s r, ops.foldlM NsOp.exec Instance.root = .ok s ∧ laiResolveSearch ctx name s = .ok r ∧
      ∀ q, r = some q ↔ t.Nearest segs name q := by
  have hrun := execs_shows ops shows_root Tree.wf_root (show 1 + ops.length ≤ 2 ^ 28 by omega)
  rw [ht] at hrun
  obtain ⟨s, hs, hshows, hw, -⟩ := hrun
  have hctx := walk_lt hshows hshows.top.1 hwalk
  obtain ⟨r, hr, hnearest⟩ := searchScopes_nearest hshows hw hplain name segs (n := s.count + 1) hwalk
    (by rw [hshows.count]; omega)
  refine ⟨s, r, hs, ?_, hnearest⟩
  unfold laiResolveSearch
  rw [hshows.type ctx hctx, hplain ctx hctx]
  exact hr

/-- From `\_SB_.PCI0`, the search for `_SB_` ends at the root. -/
theorem search_nearest_sb : ∃ s r,
    [NsOp.install sbName (.object .other) 0, .install pciName (.object .other) 1].foldlM NsOp.exec Instance.root = .ok s ∧
      laiResolveSearch 2 sbName s = .ok r ∧ r = some 1 := by
  obtain ⟨s, r, hs, hr, hnearest⟩ := search_nearest
    [NsOp.install sbName (.object .other) 0, .install pciName (.object .other) 1] (by decide) rfl (by decide)
    (show Tree.walk _ 0 [sbName, pciName] = some 2 from rfl) sbName
  refine ⟨s, r, hs, hr, (hnearest 1).mpr ⟨[], ⟨_, rfl⟩, rfl, fun longer _ h hne => ?_⟩⟩
  rcases prefix_pair h with rfl | rfl | rfl
  · exact absurd rfl hne
  · rfl
  · rfl

/-! ## New names -/

/-- The nodes and the children that were there are there still. -/
structure Tree.Extends (t t' : Tree) : Prop where
  count : t.count ≤ t'.count
  type : ∀ k, k < t.count → t'.type k = t.type k
  parent : ∀ k, k < t.count → t'.parent k = t.parent k
  child : ∀ p name c, t.child p name = some c → t'.child p name = some c

variable {s' : Instance} {t' : Tree}

theorem extends_install (hfree : t.child p name = none) (type : NsType) :
    t.Extends ((t.create name type p).setChild p name (some t.count)) := by
  have hcreate : ∀ k, k < t.count → (t.create name type p).type k = t.type k ∧ (t.create name type p).parent k = t.parent k :=
    fun k hk => ⟨treeCreate_type_of_lt hk, treeCreate_parent_of_lt hk⟩
  refine ⟨Nat.le_succ _, fun k hk => (hcreate k hk).1, fun k hk => (hcreate k hk).2, fun q nm c hc => ?_⟩
  rw [setChild_child]
  refine (if_neg ?_).trans hc
  rintro ⟨rfl, rfl⟩
  rw [hfree] at hc
  cases hc

theorem climbBy_extends (h : s.Shows t) (h' : s'.Shows t') (hext : t.Extends t') (hw : t.Wf) (n : Nat) : ∀ k, k < t.count →
    climbBy s' n k = climbBy s n k ∧ ∀ k', climbBy s n k = .ok k' → k' < t.count := by
  induction n with
  | zero =>
      intro k hk
      refine ⟨rfl, fun k' hk' => ?_⟩
      cases hk'
      exact hk
  | succ n ih =>
      intro k hk
      have hk1 := Nat.lt_of_lt_of_le hk hext.count
      rw [climbBy, climbBy, h.parent k hk, h'.parent k hk1, hext.parent k hk, h.type k hk, h'.type k hk1, hext.type k hk]
      cases hparent : t.parent k with
      | none =>
          refine ⟨rfl, fun k' hk' => ?_⟩
          simp only at hk'
          split at hk'
          · cases hk'
            exact hk
          · cases hk'
      | some p => exact ih p ((hw.below k p hk hparent).trans hk)

theorem startNode_extends (h : s.Shows t) (h' : s'.Shows t') (hext : t.Extends t') (hw : t.Wf) (hw' : t'.Wf) {ctx : Nat}
    (hctx : ctx < t.count) (amln : AmlName) :
    startNode s' ctx amln = startNode s ctx amln ∧ ∀ k, startNode s ctx amln = .ok k → k < t.count := by
  have hctx' := Nat.lt_of_lt_of_le hctx hext.count
  unfold startNode
  rw [h.type ctx hctx, h'.type ctx hctx', hext.type ctx hctx]
  by_cases halias : (t.type ctx).isAlias = true
  · rw [if_pos halias, if_pos halias]
    exact ⟨rfl, fun k hk => by cases hk⟩
  · rw [if_neg halias, if_neg halias]
    by_cases habs : amln.isAbsolute = true
    · simp only [if_pos habs, climbToRoot_eq h hw hctx, climbToRoot_eq h' hw' hctx', bind, Except.bind]
      exact climbBy_extends h h' hext hw amln.height 0 h.top.1
    · simp only [if_neg habs, bind, Except.bind]
      exact climbBy_extends h h' hext hw amln.height ctx hctx

/-- Where a name for a new node was cut, the whole name leads to what is then the child. -/
theorem descendNew_walk (h : s.Shows t) (hext : t.Extends t') (hchild : t'.child p name = some q) (segs : List Seg) :
    ∀ {start : Nat}, start < t.count → descendNew s segs start = .ok (p, name) → t'.Plain start segs →
    t'.walk start segs = some q := by
  induction segs with
  | nil =>
      intro start _ hnew
      cases hnew
  | cons segment segs ih =>
      intro start hlt hnew hplain
      cases segs with
      | nil =>
          cases hnew
          rw [walk_singleton, hchild]
      | cons next segs =>
          rw [descendNew, h.getChild hlt segment] at hnew
          · cases hc : t.child start segment with
            | none =>
                rw [hc] at hnew
                cases hnew
            | some c =>
                rw [hc] at hnew
                have hclt := (h.linked start segment c hc).2.1
                have hc' := hext.child start segment c hc
                simp only [bind, Except.bind, followAlias_eq h hclt ((hext.type c hclt) ▸ hplain.head hc')] at hnew
                rw [walk_cons, hc']
                exact ih hclt hnew (hplain.tail hc')
          · exact List.cons_ne_nil _ _

theorem laiAmlnameSegs_length (n : Nat) : ∀ {it rest : List Byte} {segs : List Seg},
    laiAmlnameSegs n it = .ok (segs, rest) → segs.length = n := by
  induction n with
  | zero =>
      intro it rest segs h
      cases h
      rfl
  | succ n ih =>
      intro it rest segs h
      match it with
      | a :: b :: c :: d :: it =>
          obtain ⟨⟨segs', rest'⟩, hsegs, heq⟩ := bind_eq_ok h
          cases heq
          rw [List.length_cons, ih hsegs]

/-- A name that is searched for is a single segment. -/
theorem parse_searchScopes {data : List Byte} {amln : AmlName} {size : Nat} (h : laiAmlnameParse data = .ok (amln, size))
    (hscopes : amln.searchScopes = true) :
    amln.isAbsolute = false ∧ amln.height = 0 ∧ ∃ segment, amln.segs = [segment] := by
  cases data with
  | nil => cases h
  | cons c it =>
      obtain ⟨⟨isAbsolute, height, it⟩, -, h⟩ := bind_eq_ok h
      obtain ⟨⟨n, it⟩, -, h⟩ := bind_eq_ok h
      obtain ⟨⟨segs, rest⟩, hsegs, h⟩ := bind_eq_ok h
      cases h
      simp only [Bool.and_eq_true, Bool.not_eq_true', beq_iff_eq] at hscopes
      obtain ⟨⟨habs, hheight⟩, rfl⟩ := hscopes
      exact ⟨habs, hheight, List.length_eq_one_iff.mp (laiAmlnameSegs_length _ hsegs)⟩

/-- A run that ends shows a tree. -/
theorem shows_of_run (ops : List NsOp) (hlen : ops.length < 2 ^ 28) (hs : ops.foldlM NsOp.exec Instance.root = .ok s) :
    ∃ t, s.Shows t ∧ t.Wf ∧ t.count ≤ 1 + ops.length := by
  have hrun := execs_shows ops shows_root Tree.wf_root (show 1 + ops.length ≤ 2 ^ 28 by omega)
  cases ht : ops.foldlM NsOp.apply Tree.root with
  | error f =>
      rw [ht] at hrun
      rw [hrun] at hs
      cases hs
  | ok t =>
      rw [ht] at hrun
      obtain ⟨s1, hs1, hshows⟩ := hrun
      rw [hs1] at hs
      cases hs
      exact ⟨t, hshows⟩

/-- A name in the code for a new node: once the node is installed, the same name leads to it from where it was declared,
where no alias is on the way. -/
theorem new_node_resolves (ops : List NsOp) (hlen : ops.length + 1 < 2 ^ 28) {ctx start parent size : Nat}
    {data : List Byte} {amln : AmlName} {type : NsType}
    (hs : ops.foldlM NsOp.exec Instance.root = .ok s) (hctx : ctx < s.count)
    (hamln : laiAmlnameParse data = .ok (amln, size)) (hstart : startNode s ctx amln = .ok start)
    (hnew : laiDoResolveNewNode ctx amln s = .ok (parent, name)) (hfree : laiNsGetChild parent name s = .ok none)
    (hs' : (NsOp.install name type parent).exec s = .ok s')
    (hplain : ∀ front k, front <+: amln.segs → front ≠ [] → descend s' front start = .ok (some k) →
      (s'.node k).type.isAlias = false) :
    laiDoResolve ctx amln s' = .ok (some s.count) := by
  obtain ⟨t, hshows, hw, hcount⟩ := shows_of_run ops (by omega) hs
  have hct : ctx < t.count := by rw [← hshows.count]; exact hctx
  -- what is installed
  have hp : parent < t.count := by
    rw [NsOp.exec, hshows.count] at hs'
    by_contra hge
    rw [if_neg hge] at hs'
    cases hs'
  have hchild : t.child parent name = none := by
    rw [hshows.getChild hp name] at hfree
    exact Except.ok.inj hfree
  obtain ⟨r, s1, hinstall, hinstalled⟩ := shows_install hshows hp (by omega) name type
  rw [hchild] at hinstalled
  obtain ⟨-, hshows'⟩ := hinstalled
  obtain rfl : s1 = s' := by
    rw [NsOp.exec, hshows.count, if_pos hp, ← hshows.count, hinstall] at hs'
    exact Except.ok.inj hs'
  have hext := extends_install (p := parent) hchild type
  have hw' := (hw.create hp name type).setChild parent name (some t.count)
  obtain ⟨hstart', hlt⟩ := startNode_extends hshows hshows' hext hw hw' hct amln
  have hlt := hlt start hstart
  have hlt' := Nat.lt_of_lt_of_le hlt hext.count
  have hnewChild : ((t.create name type parent).setChild parent name (some t.count)).child parent name = some t.count := by
    rw [setChild_child, if_pos ⟨rfl, rfl⟩]
  have hplain' : ((t.create name type parent).setChild parent name (some t.count)).Plain start amln.segs := by
    intro front k hfront hne hwalk
    have hk := walk_lt hshows' hlt' hwalk
    have hno := hplain front k hfront hne ((descend_eq hshows' front hlt').trans (congrArg Except.ok hwalk))
    rw [hshows'.type k hk] at hno
    exact hno
  have hdescend : descendNew s amln.segs start = .ok (parent, name) := by
    rw [laiDoResolveNewNode, hstart] at hnew
    exact hnew
  have hwalk := descendNew_walk hshows hext hnewChild amln.segs hlt hdescend hplain'
  rw [hshows.count]
  by_cases hscopes : amln.searchScopes = true
  · -- the first scope has it
    obtain ⟨habs, hheight, segment, hsegs⟩ := parse_searchScopes hamln hscopes
    have halias : (t.type ctx).isAlias = false := by
      by_contra hno
      rw [startNode, hshows.type ctx hct, if_pos (Bool.not_eq_false _ ▸ hno)] at hstart
      cases hstart
    obtain rfl : start = ctx := by
      rw [startNode, hshows.type ctx hct, halias, habs, hheight] at hstart
      cases hstart
      rfl
    unfold laiDoResolve
    rw [if_pos hscopes]
    rw [hsegs] at hwalk hplain' ⊢
    rw [walk_singleton] at hwalk
    have hq := hplain'.head hwalk
    simp only [laiResolveSearch, hshows'.type start hlt', hext.type start hct, halias, searchScopes,
      hshows'.getChild hlt' segment, hwalk, bind, Except.bind, followAlias_eq hshows' (Nat.lt_succ_self t.count) hq]
    rfl
  · refine doResolve_eq hshows' (hstart'.trans hstart) hlt' (Bool.eq_false_iff.mpr hscopes) hwalk fun hne => ?_
    exact hplain' amln.segs _ (List.prefix_refl _) hne hwalk

/-- `\_SB_.PCI0` is declared from anywhere, and found. -/
theorem new_node_resolves_pci : ∃ s s',
    [NsOp.install sbName (.object .other) 0].foldlM NsOp.exec Instance.root = .ok s ∧
      (NsOp.install pciName (.object .other) 1).exec s = .ok s' ∧
      laiDoResolve 1 ⟨true, 0, false, [sbName, pciName]⟩ s' = .ok (some 2) := by
  refine ⟨_, _, rfl, rfl, ?_⟩
  refine new_node_resolves [NsOp.install sbName (.object .other) 0] (by decide) rfl (by decide)
    (show laiAmlnameParse (rootChar :: dualPrefix :: (sbName.bytes ++ pciName.bytes)) = .ok (_, 10) from rfl)
    (show startNode _ 1 _ = .ok 0 from rfl) (show laiDoResolveNewNode _ _ _ = .ok (1, pciName) from rfl) rfl rfl ?_
  intro front c hfront hne hwalk
  rcases prefix_pair hfront with rfl | rfl | rfl
  · exact absurd rfl hne
  · cases hwalk
    rfl
  · cases hwalk
    rfl

end Gewodsys.Lai
