import Gewodsys.Mem.Vmm

/-!
# The tree of page tables under `MmMapMemory`

The addresses `A` that a run maps or asks for involve the paths `Involved A`; on them the tables the code finds form a
tree without aliases (`VmInv`). `PageSource` is what the code relies on of `MmRequestPage`.

* `leafEntry_setLeaf` : writing the leaf entry of a page leaves those of the other pages alone;
* `mmNextTable_spec` : one level of `MmMapMemory` returns the next table, adding at most one table to the tree;
* `mmMapMemory_spec` : a whole call; `Grows` says what it may do to tables and entries;
* `missing m root U` : the tables still to be created on the paths `U`, which is what a run takes from the source.
-/

namespace Gewodsys.Mem
open Gewodsys.Machine Gewodsys.Lib

/-! ## Pages of memory -/

/-- The byte `x` lies in the page at `f`. -/
def InPage (f x : Nat) : Prop := f ≤ x ∧ x < f + 4096

def InFrames (F : Set Nat) (x : Nat) : Prop := ∃ f ∈ F, InPage f x

theorem InPage.unique {f g x : Nat} (hf : f % 4096 = 0) (hg : g % 4096 = 0) (h1 : InPage f x) (h2 : InPage g x) :
    f = g := by
  unfold InPage at h1 h2
  omega

theorem InFrames.mono {F F' : Set Nat} (h : F ⊆ F') {x : Nat} (hx : InFrames F x) : InFrames F' x := by
  obtain ⟨f, hf, hx⟩ := hx
  exact ⟨f, h hf, hx⟩

theorem inPage_entryAddr {t x : Nat} {i : Fin 512} (h1 : entryAddr t i ≤ x) (h2 : x < entryAddr t i + 8) :
    InPage t x := by
  have hi := i.isLt
  unfold entryAddr at h1 h2
  unfold InPage
  omega

theorem entry_frame {m m' : Mem} {W : Nat → Prop} (h : Frame m m' W) {g : Nat} (hg : ∀ x, InPage g x → ¬ W x)
    (j : Fin 512) : entry m' g j = entry m g j :=
  h.read fun x h1 h2 => hg x (inPage_entryAddr h1 h2)

/-! ## The source of pages -/

/-- A function that hands out pages, each of them a `Page`. `Ready n F s` : at least `n` more pages can be had, none of
them in `F`; `own` are the bytes that a request writes for its own bookkeeping. -/
structure PageSource (σ : Type) where
  request : Phys σ → Option (Nat × Phys σ)
  Page : Nat → Prop
  own : Nat → Prop
  Ready : Nat → Set Nat → Phys σ → Prop
  request_spec : ∀ {n : Nat} {F : Set Nat} {s : Phys σ}, Ready (n + 1) F s → ∃ f s', request s = some (f, s') ∧
    Page f ∧ f % 4096 = 0 ∧ f < 2 ^ 40 ∧ f ∉ F ∧ Frame s.mem s'.mem own ∧ Ready n (insert f F) s'
  ready_own : ∀ {n : Nat} {F : Set Nat} {s : Phys σ}, Ready n F s → ∀ f ∈ F, ∀ x, InPage f x → ¬ own x
  ready_write : ∀ {n : Nat} {F : Set Nat} {s : Phys σ} {m' : Mem}, Ready n F s → Frame s.mem m' (InFrames F) →
    Ready n F { s with mem := m' }

/-! ## The invariant -/

/-- The paths to the tables of the addresses `A`. -/
def Involved (A : Set Nat) (p : List (Fin 512)) : Prop := ∃ a ∈ A, p <:+ (mmGetPageIndices a).path

theorem tailClosed_involved (A : Set Nat) : TailClosed (Involved A) := by
  rintro i p ⟨a, ha, hp⟩
  exact ⟨a, ha, (List.suffix_cons i p).trans hp⟩

theorem Involved.length_le {A : Set Nat} {p : List (Fin 512)} (h : Involved A p) : p.length ≤ 3 := by
  obtain ⟨a, -, hp⟩ := h
  exact hp.length_le

theorem involved_path {A : Set Nat} {a : Nat} (ha : a ∈ A) : Involved A (mmGetPageIndices a).path :=
  ⟨a, ha, List.suffix_refl _⟩

theorem swTable_aligned {m : Mem} {root : Nat} (hroot : root % 4096 = 0) {p : List (Fin 512)} {f : Nat}
    (h : swTable m root p = some f) : f % 4096 = 0 := by
  cases p with
  | nil => exact Option.some.inj h ▸ hroot
  | cons i p =>
      obtain ⟨g, -, hf⟩ := tableAt_cons_eq_some.mp h
      rw [← (swChild_eq_some.mp hf).2, entryFrame_eq]
      omega

section
variable {D : List (Fin 512) → Prop} {m : Mem} {root : Nat} (hroot : root % 4096 = 0)
  (hno : NoAlias swChild (entry m) root D)
include hroot hno

/-- An entry of a directory on the paths `D` is no entry of a leaf table. -/
theorem entry_setLeaf_of_inner {Q : List (Fin 512)} {t : Nat} (hQ : D Q) (hlen : Q.length = 3)
    (ht : swTable m root Q = some t) (i : Fin 512) (w : Nat) {r : List (Fin 512)} {g : Nat} (hr : D r)
    (hrlen : r.length ≤ 2) (hg : swTable m root r = some g) (j : Fin 512) :
    entry (setEntry m t i w) g j = entry m g j := by
  apply entry_setEntry_of_ne _ _ (swTable_aligned hroot ht) (swTable_aligned hroot hg)
  intro he
  -- the path to the directory is too short to be the leaf's
  have hrQ := hno r Q t hr hQ ((Prod.mk.inj he).1 ▸ hg) ht
  rw [hrQ] at hrlen
  omega

theorem swTable_setEntry_leaf (hD : TailClosed D) (hshort : ∀ p, D p → p.length ≤ 3) {Q : List (Fin 512)} {t : Nat}
    (hQ : D Q) (hlen : Q.length = 3) (ht : swTable m root Q = some t) (i : Fin 512) (w : Nat) {q : List (Fin 512)} (hq : D q) :
    swTable (setEntry m t i w) root q = swTable m root q := by
  apply tableAt_congr hD _ hq
  intro j r g hjr hg
  have hjlen := hshort _ hjr
  rw [List.length_cons] at hjlen
  rw [entry_setLeaf_of_inner hroot hno hQ hlen ht i w (hD j r hjr) (by omega) hg j]

end

/-! ## Writing a leaf entry -/

/-- The entry that `MmGetPhysicalAddress` reads last, where the tables above it exist. -/
def leafEntry (m : Mem) (root u : Nat) : Option Nat :=
  (swTable m root (mmGetPageIndices u).path).map fun t => entry m t (mmGetPageIndices u).p

/-- The tables on the paths `D` and the entries of the directories are the same in `m` and `m'`. -/
structure TreeKept (D : List (Fin 512) → Prop) (root : Nat) (m m' : Mem) : Prop where
  tables : ∀ q, D q → swTable m' root q = swTable m root q
  directories : ∀ q t i, D q → q.length ≤ 2 → swTable m root q = some t → entry m' t i = entry m t i

theorem TreeKept.refl (D : List (Fin 512) → Prop) (root : Nat) (m : Mem) : TreeKept D root m m :=
  ⟨fun _ _ => rfl, fun _ _ _ _ _ _ => rfl⟩

theorem TreeKept.trans {D : List (Fin 512) → Prop} {root : Nat} {m₁ m₂ m₃ : Mem} (h₁ : TreeKept D root m₁ m₂)
    (h₂ : TreeKept D root m₂ m₃) : TreeKept D root m₁ m₃ := by
  refine ⟨fun q hq => (h₂.tables q hq).trans (h₁.tables q hq), fun q t i hq hlen ht => ?_⟩
  have ht' := (h₁.tables q hq).trans ht
  exact (h₂.directories q t i hq hlen ht').trans (h₁.directories q t i hq hlen ht)

section
variable {D : List (Fin 512) → Prop} (hD : TailClosed D) (hshort : ∀ p, D p → p.length ≤ 3) {root : Nat}
  (hroot : root % 4096 = 0)
include hD hshort hroot

theorem treeKept_setLeaf {m : Mem} (hno : NoAlias swChild (entry m) root D) {Q : List (Fin 512)} {t : Nat} (hQ : D Q)
    (hlen : Q.length = 3) (ht : swTable m root Q = some t) (i : Fin 512) (w : Nat) :
    TreeKept D root m (setEntry m t i w) := by
  constructor
  · intro q hq
    exact swTable_setEntry_leaf hroot hno hD hshort hQ hlen ht i w hq
  · intro q g j hq hqlen hg
    exact entry_setLeaf_of_inner hroot hno hQ hlen ht i w hq hqlen hg j

theorem leafEntry_setLeaf {m : Mem} (hno : NoAlias swChild (entry m) root D) {a t w : Nat}
    (hpath : D (mmGetPageIndices a).path) (ht : swTable m root (mmGetPageIndices a).path = some t) (hw : w < 2 ^ 64)
    {u : Nat} (hu : D (mmGetPageIndices u).path) :
    leafEntry (setEntry m t (mmGetPageIndices a).p w) root u =
      if pageNumber u = pageNumber a then some w else leafEntry m root u := by
  rw [leafEntry, (treeKept_setLeaf hD hshort hroot hno hpath rfl ht _ w).tables _ hu]
  by_cases hpage : pageNumber u = pageNumber a
  · rw [if_pos hpage, (mmGetPageIndices_eq_iff _ _).mpr hpage, ht, Option.map_some, entry_setEntry _ _ _ hw]
  · rw [if_neg hpage, leafEntry]
    cases hg : swTable m root (mmGetPageIndices u).path with
    | none => rw [Option.map_none, Option.map_none]
    | some g =>
        have hne : (g, (mmGetPageIndices u).p) ≠ (t, (mmGetPageIndices a).p) := by
          intro he
          obtain ⟨hgt, hidx⟩ := Prod.mk.inj he
          exact hpage (pageNumber_eq_of_path (hno _ _ t hu hpath (hgt ▸ hg) ht) hidx)
        rw [Option.map_some, Option.map_some, entry_setEntry_of_ne _ _ (swTable_aligned hroot ht)
          (swTable_aligned hroot hg) hne]

end

/-! ## What a run keeps -/

/-- The paths of `U` whose table does not exist yet. -/
def missing (m : Mem) (root : Nat) (U : Finset (List (Fin 512))) : Finset (List (Fin 512)) :=
  U.filter fun p => swTable m root p = none

section
variable {σ : Type} (src : PageSource σ) (A : Set Nat) (U : Finset (List (Fin 512))) (root : Nat)

/-- The tables on the involved paths are a tree without aliases inside `F`, and the source has a page for each table
of `U` still missing and `k` more. -/
structure VmInv (k : Nat) (F : Set Nat) (s : Phys σ) : Prop where
  aligned : root % 4096 = 0
  noAlias : NoAlias swChild (entry s.mem) root (Involved A)
  tables : ∀ p f, Involved A p → swTable s.mem root p = some f → f ∈ F
  ready : src.Ready ((missing s.mem root U).card + k) F s

/-- The entry that was at index `j` of the table at `q`; an entry of a table that did not exist was zero. -/
def oldEntry (m : Mem) (q : List (Fin 512)) (g : Nat) (j : Fin 512) : Nat :=
  if swTable m root q = none then 0 else entry m g j

/-- What may happen to an entry: it stays, or it was absent and is filled. -/
def EntryStep (w w' : Nat) : Prop := w' = w ∨ (present.get w = 0 ∧ ∃ ppn, w' = fillEntry ppn w)

/-- How the tables grow from `m` to `m'`: no table moves, entries are only filled, and every byte written lies in a
table, old or new, or in the source's own bytes. -/
structure Grows (F F' : Set Nat) (m m' : Mem) : Prop where
  tables : ∀ q g, Involved A q → swTable m root q = some g → swTable m' root q = some g
  leaves : ∀ q g j, Involved A q → q.length = 3 → swTable m' root q = some g → entry m' g j = oldEntry root m q g j
  entries : ∀ q g j, Involved A q → swTable m' root q = some g → EntryStep (oldEntry root m q g j) (entry m' g j)
  subset : F ⊆ F'
  fresh : ∀ q g, Involved A q → swTable m' root q = some g → swTable m root q = some g ∨ g ∉ F
  new : ∀ f ∈ F', f ∈ F ∨ ∃ q, Involved A q ∧ swTable m' root q = some f
  frame : Frame m m' fun x => InFrames F' x ∨ src.own x

end

theorem EntryStep.trans {w w' w'' : Nat} (h : EntryStep w w') (h' : EntryStep w' w'') : EntryStep w w'' := by
  rcases h with rfl | ⟨habs, ppn, rfl⟩
  · exact h'
  · rcases h' with rfl | ⟨habs', -⟩
    · exact Or.inr ⟨habs, ppn, rfl⟩
    · rw [present_fillEntry] at habs'
      exact absurd habs' (by decide)

section
variable {σ : Type} {src : PageSource σ} {A : Set Nat} {U : Finset (List (Fin 512))} {root : Nat}

theorem oldEntry_of_some {m : Mem} {q : List (Fin 512)} {g : Nat} {j : Fin 512} {f : Nat}
    (h : swTable m root q = some f) : oldEntry root m q g j = entry m g j := by
  rw [oldEntry, if_neg (by simp [h])]

theorem Grows.refl (F : Set Nat) (m : Mem) : Grows src A root F F m m where
  tables _ _ _ h := h
  leaves _ _ _ _ _ h := (oldEntry_of_some h).symm
  entries _ _ _ _ h := Or.inl (oldEntry_of_some h).symm
  subset := subset_refl F
  fresh _ _ _ h := Or.inl h
  new _ h := Or.inl h
  frame := Frame.refl m _

/-- No table on the involved paths moves. -/
def TablesKept (A : Set Nat) (root : Nat) (m m' : Mem) : Prop :=
  ∀ q g, Involved A q → swTable m root q = some g → swTable m' root q = some g

theorem TablesKept.before {m m' : Mem} (h : TablesKept A root m m') {q : List (Fin 512)} {g : Nat}
    (hq : Involved A q) (hg : swTable m' root q = some g) : swTable m root q = none ∨ swTable m root q = some g := by
  cases hold : swTable m root q with
  | none => exact Or.inl rfl
  | some f => exact Or.inr ((h q f hq hold).symm.trans hg)

/-- The entry from before two changes, by the table in between. -/
theorem TablesKept.oldEntry_cases {m m' m'' : Mem} (h : TablesKept A root m m') (h' : TablesKept A root m' m'')
    {q : List (Fin 512)} {g : Nat} (hq : Involved A q) (hg : swTable m'' root q = some g) (j : Fin 512) :
    oldEntry root m' q g j = oldEntry root m q g j ∨
      (oldEntry root m' q g j = entry m' g j ∧ swTable m' root q = some g) := by
  rcases h'.before hq hg with hmid | hmid
  · have hnone : swTable m root q = none := by
      by_contra hne
      obtain ⟨f, hf⟩ := Option.ne_none_iff_exists'.mp hne
      rw [h q f hq hf] at hmid
      cases hmid
    refine Or.inl ?_
    rw [oldEntry, if_pos hmid, oldEntry, if_pos hnone]
  · exact Or.inr ⟨oldEntry_of_some hmid, hmid⟩

theorem Grows.trans {F F' F'' : Set Nat} {m m' m'' : Mem} (h : Grows src A root F F' m m')
    (h' : Grows src A root F' F'' m' m'') : Grows src A root F F'' m m'' where
  tables q g hq hg := h'.tables q g hq (h.tables q g hq hg)
  leaves q g j hq hlen hg := by
    have hold := h'.leaves q g j hq hlen hg
    rcases TablesKept.oldEntry_cases h.tables h'.tables hq hg j with he | ⟨he, hmid⟩
    · exact hold.trans he
    · exact hold.trans (he.trans (h.leaves q g j hq hlen hmid))
  entries q g j hq hg := by
    have hstep := h'.entries q g j hq hg
    rcases TablesKept.oldEntry_cases h.tables h'.tables hq hg j with he | ⟨he, hmid⟩
    · rwa [he] at hstep
    · rw [he] at hstep
      exact (h.entries q g j hq hmid).trans hstep
  subset := h.subset.trans h'.subset
  fresh q g hq hg := by
    rcases h'.fresh q g hq hg with hg | hg
    · exact h.fresh q g hq hg
    · exact Or.inr fun hF => hg (h.subset hF)
  new f hf := by
    rcases h'.new f hf with hf | hf
    · rcases h.new f hf with hf | ⟨q, hq, hg⟩
      · exact Or.inl hf
      · exact Or.inr ⟨q, hq, h'.tables q f hq hg⟩
    · exact Or.inr hf
  frame := (h.frame.mono fun x hx => hx.imp_left (InFrames.mono h'.subset)).trans h'.frame

/-! ## One level -/

theorem VmInv.page_ne_own {k : Nat} {F : Set Nat} {s : Phys σ} (h : VmInv src A U root k F s) {p : List (Fin 512)}
    {f : Nat} (hp : Involved A p) (hf : swTable s.mem root p = some f) {x : Nat} (hx : InPage f x) : ¬ src.own x :=
  src.ready_own h.ready f (h.tables p f hp hf) x hx

/-- The memory after a new table `f` is cleared and put into entry `i` of the table `t`. -/
def linkTable (m : Mem) (t : Nat) (i : Fin 512) (f w : Nat) : Mem :=
  setEntry (rtZeroMemory m f pageSize) t i (fillEntry (f >>> 12) w)

theorem frame_linkTable (m : Mem) (t : Nat) (i : Fin 512) (f w : Nat) :
    Frame m (linkTable m t i f w) fun x => InPage t x ∨ InPage f x := by
  refine ((frame_rtZeroMemory m f pageSize).mono fun x hx => Or.inr hx).trans
    ((Frame.write _ (entryAddr t i) 8 _).mono fun x hx => Or.inl (inPage_entryAddr hx.1 hx.2))

theorem entry_linkTable_new {m : Mem} {t f : Nat} {i : Fin 512} {w : Nat} (ht : t % 4096 = 0) (hf : f % 4096 = 0)
    (hne : f ≠ t) (j : Fin 512) : entry (linkTable m t i f w) f j = 0 := by
  have hj := j.isLt
  rw [linkTable, entry_setEntry_of_ne _ _ ht hf (by simp [hne])]
  exact read_rtZeroMemory m (Nat.le_add_right _ _) (by unfold entryAddr pageSize; omega)

theorem entry_linkTable_self {m : Mem} {t f : Nat} {i : Fin 512} {w : Nat} (hw : w < 2 ^ 64) :
    entry (linkTable m t i f w) t i = fillEntry (f >>> 12) w :=
  entry_setEntry _ _ _ (fillEntry_lt _ hw)

theorem entry_linkTable_of_ne {m : Mem} {t f g : Nat} {i j : Fin 512} {w : Nat} (ht : t % 4096 = 0)
    (hf : f % 4096 = 0) (hg : g % 4096 = 0) (hgf : g ≠ f) (hne : (g, j) ≠ (t, i)) :
    entry (linkTable m t i f w) g j = entry m g j := by
  rw [linkTable, entry_setEntry_of_ne _ _ ht hg hne]
  exact entry_frame (frame_rtZeroMemory m f pageSize) (fun x hx hx' => hgf (InPage.unique hg hf hx hx')) j

theorem card_missing_of_grow {m m' : Mem} {q : List (Fin 512)} {f : Nat} (hU : ∀ p ∈ U, Involved A p) (hq : q ∈ U)
    (habsent : swTable m root q = none)
    (hgrow : ∀ p, Involved A p → swTable m' root p = if p = q then some f else swTable m root p) :
    (missing m root U).card = (missing m' root U).card + 1 := by
  have herase : missing m' root U = (missing m root U).erase q := by
    ext p
    simp only [missing, Finset.mem_filter, Finset.mem_erase]
    constructor
    · rintro ⟨hp, hnone⟩
      rw [hgrow p (hU p hp)] at hnone
      split_ifs at hnone with h
      exact ⟨h, hp, hnone⟩
    · rintro ⟨hne, hp, hnone⟩
      rw [hgrow p (hU p hp), if_neg hne]
      exact ⟨hp, hnone⟩
  have hmem : q ∈ missing m root U := Finset.mem_filter.mpr ⟨hq, habsent⟩
  rw [herase, Finset.card_erase_add_one hmem]

/-- **One level of `MmMapMemory`.** The table of the next path is found or created. -/
theorem mmNextTable_spec {k : Nat} {F : Set Nat} {s : Phys σ} (hinv : VmInv src A U root k F s)
    (hU : ∀ p ∈ U, Involved A p) {P : List (Fin 512)} {i : Fin 512} {t : Nat} (hP : swTable s.mem root P = some t)
    (hi : i :: P ∈ U) :
    ∃ f s' F', mmNextTable src.request s t i = some (f, s') ∧ swTable s'.mem root (i :: P) = some f ∧
      VmInv src A U root k F' s' ∧ Grows src A root F F' s.mem s'.mem := by
  have hiP := hU _ hi
  have hPinv := tailClosed_involved A i P hiP
  by_cases hpres : present.get (entry s.mem t i) = 0
  swap
  · -- the table exists
    refine ⟨_, s, F, by rw [mmNextTable, if_neg hpres], ?_, hinv, Grows.refl F s.mem⟩
    exact (tableAt_cons_of hP).trans (swChild_eq_some.mpr ⟨hpres, rfl⟩)
  have habsent : swChild (i :: P) (entry s.mem t i) = none := by rw [swChild, if_pos hpres]
  have hnone : swTable s.mem root (i :: P) = none := (tableAt_cons_of hP).trans habsent
  obtain ⟨c, hc⟩ : ∃ c, (missing s.mem root U).card = c + 1 := by
    have hpos : 0 < (missing s.mem root U).card :=
      Finset.card_pos.mpr ⟨i :: P, Finset.mem_filter.mpr ⟨hi, hnone⟩⟩
    exact ⟨(missing s.mem root U).card - 1, by omega⟩
  have hready := hinv.ready
  rw [hc, show c + 1 + k = c + k + 1 by omega] at hready
  obtain ⟨f, s₁, hreq, -, hfal, hflt, hfF, hown, hready₁⟩ := src.request_spec hready
  have hlink : mmNextTable src.request s t i = some (f, { s₁ with mem := linkTable s₁.mem t i f (entry s.mem t i) }) := by
    rw [mmNextTable, if_pos hpres, hreq]
    rfl
  have htal := swTable_aligned hinv.aligned hP
  have htF := hinv.tables P t hPinv hP
  have hft : f ≠ t := fun h => hfF (h ▸ htF)
  -- the entries of the tables of the tree, from `s` on
  have hrest : ∀ q g j, Involved A q → swTable s.mem root q = some g → j :: q ≠ i :: P →
      entry (linkTable s₁.mem t i f (entry s.mem t i)) g j = entry s.mem g j := by
    intro q g j hq hg hne
    have hgF := hinv.tables q g hq hg
    have hgt : (g, j) ≠ (t, i) := by
      intro h
      obtain ⟨rfl, rfl⟩ := Prod.mk.inj h
      exact hne (by rw [hinv.noAlias q P g hq hPinv hg hP])
    rw [entry_linkTable_of_ne htal hfal (swTable_aligned hinv.aligned hg) (fun h => hfF (h ▸ hgF)) hgt]
    exact entry_frame hown (fun x hx => hinv.page_ne_own hq hg hx) j
  have hself : entry (linkTable s₁.mem t i f (entry s.mem t i)) t i = fillEntry (f >>> 12) (entry s.mem t i) :=
    entry_linkTable_self (entry_lt _ _ _)
  have hzero : ∀ j, entry (linkTable s₁.mem t i f (entry s.mem t i)) f j = 0 :=
    entry_linkTable_new htal hfal hft
  have hgrow : ∀ q, Involved A q → swTable (linkTable s₁.mem t i f (entry s.mem t i)) root q =
      if q = i :: P then some f else swTable s.mem root q := by
    intro q hq
    refine tableAt_grow (tailClosed_involved A) hP habsent ?_ ?_ ?_ hq
    · rw [hself, swChild_eq_some, present_fillEntry, entryFrame_fillEntry hflt]
      exact ⟨by decide, by omega⟩
    · intro j _
      rw [hzero j]
      rfl
    · intro j q g hjq hg hne
      rw [hrest q g j (tailClosed_involved A j q hjq) hg hne]
  have hfresh : ∀ p, Involved A p → swTable s.mem root p ≠ some f := fun p hp h => hfF (hinv.tables p f hp h)
  have hnew : swTable (linkTable s₁.mem t i f (entry s.mem t i)) root (i :: P) = some f := by
    rw [hgrow _ hiP, if_pos rfl]
  have hmono : ∀ q g, Involved A q → swTable s.mem root q = some g →
      swTable (linkTable s₁.mem t i f (entry s.mem t i)) root q = some g := by
    intro q g hq hg
    rw [hgrow q hq, if_neg (fun h => by rw [h, hnone] at hg; cases hg)]
    exact hg
  have hframe := frame_linkTable s₁.mem t i f (entry s.mem t i)
  refine ⟨f, _, insert f F, hlink, hnew, ⟨hinv.aligned, hinv.noAlias.grow hfresh hgrow, fun p g hp hg => ?_, ?_⟩,
    ⟨hmono, fun q g j hq hlen hg => ?_, fun q g j hq hg => ?_, Set.subset_insert f F,
      fun q g hq hg => ?_, fun g hg => ?_, ?_⟩⟩
  · rw [hgrow p hp] at hg
    split_ifs at hg with h
    · exact Option.some.inj hg ▸ Set.mem_insert f F
    · exact Set.mem_insert_of_mem f (hinv.tables p g hp hg)
  · have hcard := card_missing_of_grow hU hi hnone hgrow
    rw [show (missing (linkTable s₁.mem t i f (entry s.mem t i)) root U).card = c by omega]
    refine src.ready_write hready₁ (hframe.mono fun x hx => ?_)
    rcases hx with hx | hx
    · exact ⟨t, Set.mem_insert_of_mem f htF, hx⟩
    · exact ⟨f, Set.mem_insert f F, hx⟩
  · rw [hgrow q hq] at hg
    split_ifs at hg with h
    · obtain rfl := Option.some.inj hg
      rw [oldEntry, if_pos (by rw [h]; exact hnone)]
      exact hzero j
    · rw [oldEntry_of_some hg]
      -- a leaf table is not the table that gets the entry
      refine hrest q g j hq hg fun he => ?_
      have hlen' := hiP.length_le
      rw [(List.cons.inj he).2] at hlen
      simp only [List.length_cons] at hlen'
      omega
  · rw [hgrow q hq] at hg
    split_ifs at hg with h
    · obtain rfl := Option.some.inj hg
      rw [oldEntry, if_pos (by rw [h]; exact hnone)]
      exact Or.inl (hzero j)
    · rw [oldEntry_of_some hg]
      by_cases hjq : j :: q = i :: P
      · obtain ⟨rfl, rfl⟩ := List.cons.inj hjq
        obtain rfl : g = t := Option.some.inj (hg.symm.trans hP)
        exact Or.inr ⟨hpres, _, hself⟩
      · exact Or.inl (hrest q g j hq hg hjq)
  · rw [hgrow q hq] at hg
    split_ifs at hg with h
    · exact Or.inr (Option.some.inj hg ▸ hfF)
    · exact Or.inl hg
  · rcases hg with rfl | hg
    · exact Or.inr ⟨i :: P, hiP, hnew⟩
    · exact Or.inl hg
  · refine (hown.mono fun x hx => Or.inr hx).trans (hframe.mono fun x hx => Or.inl ?_)
    rcases hx with hx | hx
    · exact ⟨t, Set.mem_insert_of_mem f htF, hx⟩
    · exact ⟨f, Set.mem_insert f F, hx⟩

/-! ## A whole call -/

/-- The paths of the three tables below the root for one address. -/
def tablePaths (x : PageMapIndex) : Finset (List (Fin 512)) := {[x.pdp], [x.pd, x.pdp], [x.pt, x.pd, x.pdp]}

theorem mmMapMemory_spec {k : Nat} {F : Set Nat} {s : Phys σ} (hinv : VmInv src A U root k F s)
    (hU : ∀ p ∈ U, Involved A p) {v : Nat} (hv : v < 2 ^ 64) (hpaths : tablePaths (mmGetPageIndices v) ⊆ U) (p : Nat) :
    ∃ t s₁ F', swTable s₁.mem root (mmGetPageIndices v).path = some t ∧
      VmInv src A U root k F' s₁ ∧ Grows src A root F F' s.mem s₁.mem ∧
      mmMapMemory src.request root v p s = some { s₁ with
        mem := setEntry s₁.mem t (mmGetPageIndices v).p
          (fillEntry ((p &&& 0xfffffffffffff000) >>> 12) (entry s₁.mem t (mmGetPageIndices v).p)) } := by
  obtain ⟨x, hx⟩ : ∃ x, x = mmGetPageIndices v := ⟨_, rfl⟩
  have hx' : mmGetPageIndices (v &&& 0xfffffffffffff000) = x := (mmGetPageIndices_land hv).trans hx.symm
  rw [← hx] at hpaths ⊢
  obtain ⟨t₁, s₁, F₁, hnext₁, htab₁, hinv₁, hg₁⟩ := mmNextTable_spec hinv hU (P := []) (i := x.pdp) rfl
    (hpaths (by simp [tablePaths]))
  obtain ⟨t₂, s₂, F₂, hnext₂, htab₂, hinv₂, hg₂⟩ := mmNextTable_spec hinv₁ hU (i := x.pd) htab₁
    (hpaths (by simp [tablePaths]))
  obtain ⟨t₃, s₃, F₃, hnext₃, htab₃, hinv₃, hg₃⟩ := mmNextTable_spec hinv₂ hU (i := x.pt) htab₂
    (hpaths (by simp [tablePaths]))
  refine ⟨t₃, s₃, F₃, htab₃, hinv₃, (hg₁.trans hg₂).trans hg₃, ?_⟩
  simp only [mmMapMemory, hx', hnext₁, hnext₂, hnext₃, Option.bind_some, Option.map_some]

theorem VmInv.swTable_setLeaf {k : Nat} {F : Set Nat} {s : Phys σ} (h : VmInv src A U root k F s) {Q : List (Fin 512)}
    {t : Nat} (hQ : Involved A Q) (hlen : Q.length = 3) (ht : swTable s.mem root Q = some t) (i : Fin 512) (w : Nat)
    {q : List (Fin 512)} (hq : Involved A q) :
    swTable (setEntry s.mem t i w) root q = swTable s.mem root q :=
  swTable_setEntry_leaf h.aligned h.noAlias (tailClosed_involved A) (fun _ => Involved.length_le) hQ hlen ht i w hq

theorem VmInv.setLeaf {k : Nat} {F : Set Nat} {s : Phys σ} (h : VmInv src A U root k F s)
    (hU : ∀ p ∈ U, Involved A p) {Q : List (Fin 512)} {t : Nat} (hQ : Involved A Q) (hlen : Q.length = 3)
    (ht : swTable s.mem root Q = some t) (i : Fin 512) (w : Nat) :
    VmInv src A U root k F { s with mem := setEntry s.mem t i w } := by
  have hsame := fun q hq => h.swTable_setLeaf hQ hlen ht i w (q := q) hq
  refine ⟨h.aligned, h.noAlias.congr hsame, fun p f hp hf => h.tables p f hp ((hsame p hp).symm.trans hf), ?_⟩
  have hmissing : missing (setEntry s.mem t i w) root U = missing s.mem root U :=
    Finset.filter_congr fun p hp => by rw [hsame p (hU p hp)]
  simp only [hmissing]
  exact src.ready_write h.ready ((Frame.write _ _ _ _).mono fun x hx =>
    ⟨t, h.tables Q t hQ ht, inPage_entryAddr hx.1 hx.2⟩)

/-- **A call of `MmMapMemory`** returns, keeps the invariant, maps the page of `v` and leaves the leaf entries of all
other pages alone. -/
theorem mmMapMemory_leaf {k : Nat} {F : Set Nat} {s : Phys σ} (hinv : VmInv src A U root k F s)
    (hU : ∀ p ∈ U, Involved A p) {v : Nat} (hv : v < 2 ^ 64) (hvA : v ∈ A)
    (hpaths : tablePaths (mmGetPageIndices v) ⊆ U) (p : Nat) :
    ∃ s' F', mmMapMemory src.request root v p s = some s' ∧ VmInv src A U root k F' s' ∧ F ⊆ F' ∧
      (∀ q g, Involved A q → swTable s'.mem root q = some g → swTable s.mem root q = some g ∨ g ∉ F) ∧
      (∃ w, leafEntry s'.mem root v = some (fillEntry ((p &&& 0xfffffffffffff000) >>> 12) w)) ∧
      ∀ u ∈ A, pageNumber u ≠ pageNumber v → ∀ w, leafEntry s.mem root u = some w →
        leafEntry s'.mem root u = some w := by
  obtain ⟨t, s₁, F', ht, hinv₁, hg, hmap⟩ := mmMapMemory_spec hinv hU hv hpaths p
  have hpath := involved_path hvA
  have hsame := fun q hq w => hinv₁.swTable_setLeaf hpath rfl ht (mmGetPageIndices v).p w (q := q) hq
  have hleaf := fun u hu w (hw : w < 2 ^ 64) => leafEntry_setLeaf (tailClosed_involved A) (fun _ => Involved.length_le)
    hinv₁.aligned hinv₁.noAlias hpath ht hw (u := u) hu
  have hlt := fillEntry_lt ((p &&& 0xfffffffffffff000) >>> 12) (entry_lt s₁.mem t (mmGetPageIndices v).p)
  refine ⟨_, F', hmap, hinv₁.setLeaf hU hpath rfl ht _ _, hg.subset, fun q g hq hq' => ?_, ?_,
    fun u hu hne w hw => ?_⟩
  · exact hg.fresh q g hq ((hsame q hq _).symm.trans hq')
  · exact ⟨_, (hleaf v hpath _ hlt).trans (if_pos rfl)⟩
  · have hupath := involved_path hu
    obtain ⟨g, hgu, rfl⟩ := Option.map_eq_some_iff.mp hw
    have hgu₁ := hg.tables _ g hupath hgu
    rw [hleaf u hupath _ hlt, if_neg hne, leafEntry, hgu₁, Option.map_some, hg.leaves _ g _ hupath rfl hgu₁,
      oldEntry_of_some hgu]

/-! ## A page taken from the source -/

/-- **A request leaves the tree alone** and its page becomes one that no later request returns. -/
theorem VmInv.request {k : Nat} {F : Set Nat} {s : Phys σ} (h : VmInv src A U root (k + 1) F s)
    (hU : ∀ p ∈ U, Involved A p) :
    ∃ d s', src.request s = some (d, s') ∧ src.Page d ∧ d % 4096 = 0 ∧ d < 2 ^ 40 ∧ d ∉ F ∧
      VmInv src A U root k (insert d F) s' ∧
      (∀ q, Involved A q → swTable s'.mem root q = swTable s.mem root q) ∧
      ∀ q g j, Involved A q → swTable s.mem root q = some g → entry s'.mem g j = entry s.mem g j := by
  have hready := h.ready
  rw [← Nat.add_assoc] at hready
  obtain ⟨d, s', hreq, hpage, hal, hlt, hF, hown, hready'⟩ := src.request_spec hready
  have hentry : ∀ q g j, Involved A q → swTable s.mem root q = some g → entry s'.mem g j = entry s.mem g j :=
    fun q g j hq hg => entry_frame hown (fun x hx => h.page_ne_own hq hg hx) j
  have hsame : ∀ q, Involved A q → swTable s'.mem root q = swTable s.mem root q := by
    intro q hq
    refine tableAt_congr (tailClosed_involved A) (fun j r g hjr hg => ?_) hq
    rw [hentry r g j (tailClosed_involved A j r hjr) hg]
  refine ⟨d, s', hreq, hpage, hal, hlt, hF, ⟨h.aligned, h.noAlias.congr hsame, fun p f hp hf => ?_, ?_⟩, hsame, hentry⟩
  · exact Set.mem_insert_of_mem d (h.tables p f hp ((hsame p hp).symm.trans hf))
  · have hmissing : missing s'.mem root U = missing s.mem root U :=
      Finset.filter_congr fun p hp => by rw [hsame p (hU p hp)]
    rw [hmissing]
    exact hready'

end

end Gewodsys.Mem
