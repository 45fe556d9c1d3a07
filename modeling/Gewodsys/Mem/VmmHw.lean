import Gewodsys.Mem.VmmRuns

/-!
# The hardware walk

`hwWalk` is the walk of the processor: frames have the bits 12..51, and a present entry of the second or third level
with bit 7 set maps a page of 1 GiB or 2 MiB. `hwTable` is the table the processor finds at a path of indices.

* `hwWalk_of_plain` : without large pages and without bits from 40 on the two walks are one;
* `mapsPage_of_plain` : then a call of `MmMapMemory` is seen by the processor as it should be;
* `walks_agree_and_map_iff` : for every hierarchy, the condition under which this is so.
-/

namespace Gewodsys.Mem
open Gewodsys.Machine Gewodsys.Lib

/-! ## The walk of the processor -/

/-- The frame in the bits 12..51 of an entry. -/
def hwFrame (w : Nat) : Nat := 4096 * Field.get ⟨12, 40⟩ w

/-- The physical address of `u`, when the processor finds one. -/
def hwWalk (m : Mem) (root u : Nat) : Option Nat :=
  let x := mmGetPageIndices u
  let pml4e := entry m root x.pdp
  if present.get pml4e = 0 then none else
  let pdpte := entry m (hwFrame pml4e) x.pd
  if present.get pdpte = 0 then none else
  if isMapped.get pdpte = 1 then some (2 ^ 30 * Field.get ⟨30, 22⟩ pdpte + u % 2 ^ 30) else
  let pde := entry m (hwFrame pdpte) x.pt
  if present.get pde = 0 then none else
  if isMapped.get pde = 1 then some (2 ^ 21 * Field.get ⟨21, 31⟩ pde + u % 2 ^ 21) else
  let pte := entry m (hwFrame pde) x.p
  if present.get pte = 0 then none else some (hwFrame pte + u % 2 ^ 12)

/-- Whether the entry that leads to the path `p` is a large page. -/
def largeAt (p : List (Fin 512)) (w : Nat) : Prop := 2 ≤ p.length ∧ isMapped.get w = 1

instance (p : List (Fin 512)) (w : Nat) : Decidable (largeAt p w) :=
  inferInstanceAs (Decidable (2 ≤ p.length ∧ isMapped.get w = 1))

def hwChild (p : List (Fin 512)) (w : Nat) : Option Nat :=
  if present.get w = 0 ∨ largeAt p w then none else some (hwFrame w)

def hwTable (m : Mem) (root : Nat) (p : List (Fin 512)) : Option Nat := tableAt hwChild (entry m) root p

/-- The page at `t` is a table of the hierarchy. -/
def IsTable (m : Mem) (root t : Nat) : Prop := ∃ p, p.length ≤ 3 ∧ hwTable m root p = some t

theorem hwChild_eq_some {p : List (Fin 512)} {w f : Nat} :
    hwChild p w = some f ↔ present.get w ≠ 0 ∧ ¬ largeAt p w ∧ hwFrame w = f := by
  rw [hwChild]
  split_ifs with h
  · simp only [false_iff]
    tauto
  · simp only [Option.some.injEq]
    tauto

theorem hwFrame_eq {w : Nat} (h : hwFrame w < 2 ^ 40) : hwFrame w = entryFrame w := by
  rw [entryFrame_eq]
  unfold hwFrame at h ⊢
  simp only [Field.get, pagePpn] at h ⊢
  omega

theorem entryFrame_lt (w : Nat) : entryFrame w < 2 ^ 40 := by
  have h := pagePpn.get_lt w
  rw [entryFrame_eq]
  simp only [pagePpn] at h ⊢
  omega

/-! ## Plain hierarchies -/

/-- Every entry of every table the code finds is without the bits 40..51 and, above the last level, not a large page. -/
def Plain (m : Mem) (root : Nat) : Prop :=
  ∀ p t i, p.length ≤ 3 → swTable m root p = some t → reserved1.get (entry m t i) = 0 ∧
    (p.length ≤ 2 → ¬ largeAt (i :: p) (entry m t i))

theorem hwFrame_of_reserved1 {w : Nat} (h : reserved1.get w = 0) : hwFrame w = entryFrame w := by
  refine hwFrame_eq ?_
  unfold hwFrame
  simp only [Field.get, reserved1] at h ⊢
  omega

theorem swTable_cons_absent {m : Mem} {root t : Nat} {i : Fin 512} {p : List (Fin 512)}
    (ht : swTable m root p = some t) (h : present.get (entry m t i) = 0) : swTable m root (i :: p) = none := by
  rw [swTable, tableAt_cons_of ht, swChild, if_pos h]

theorem swTable_cons_present {m : Mem} {root t : Nat} {i : Fin 512} {p : List (Fin 512)}
    (ht : swTable m root p = some t) (h : present.get (entry m t i) ≠ 0) :
    swTable m root (i :: p) = some (entryFrame (entry m t i)) := by
  rw [swTable, tableAt_cons_of ht, swChild, if_neg h]

/-- **In a plain hierarchy the processor reads the entry the code reads.** -/
theorem hwWalk_of_plain {m : Mem} {root : Nat} (h : Plain m root) (u : Nat) :
    hwWalk m root u = (leafEntry m root u).bind fun w =>
      if present.get w = 0 then none else some (entryFrame w + u % 2 ^ 12) := by
  obtain ⟨x, hx⟩ : ∃ x, x = mmGetPageIndices u := ⟨_, rfl⟩
  have ht0 : swTable m root [] = some root := rfl
  simp only [hwWalk, leafEntry, ← hx, PageMapIndex.path]
  -- the three inner levels; an absent entry ends both walks
  by_cases h1 : present.get (entry m root x.pdp) = 0
  · rw [if_pos h1, show swTable m root [x.pt, x.pd, x.pdp] = none from
      tableAt_cons_of_none (tableAt_cons_of_none (swTable_cons_absent ht0 h1))]
    rfl
  have ht1 := swTable_cons_present ht0 h1
  rw [if_neg h1, hwFrame_of_reserved1 (h [] root x.pdp (by simp) ht0).1]
  by_cases h2 : present.get (entry m (entryFrame (entry m root x.pdp)) x.pd) = 0
  · rw [if_pos h2, show swTable m root [x.pt, x.pd, x.pdp] = none from
      tableAt_cons_of_none (swTable_cons_absent ht1 h2)]
    rfl
  have ht2 := swTable_cons_present ht1 h2
  obtain ⟨hlow2, hsmall2⟩ := h _ _ x.pd (by simp) ht1
  rw [if_neg h2, if_neg (fun hl => hsmall2 (by simp) ⟨by simp, hl⟩), hwFrame_of_reserved1 hlow2]
  by_cases h3 : present.get (entry m (entryFrame (entry m (entryFrame (entry m root x.pdp)) x.pd)) x.pt) = 0
  · rw [if_pos h3, swTable_cons_absent ht2 h3]
    rfl
  have ht3 := swTable_cons_present ht2 h3
  obtain ⟨hlow3, hsmall3⟩ := h _ _ x.pt (by simp) ht2
  obtain ⟨hlow4, -⟩ := h _ _ x.p (by simp) ht3
  rw [if_neg h3, if_neg (fun hl => hsmall3 (by simp) ⟨by simp, hl⟩), hwFrame_of_reserved1 hlow3, ht3, Option.map_some,
    Option.bind_some, hwFrame_of_reserved1 hlow4]

theorem hwWalk_eq_some {m : Mem} {root : Nat} (h : Plain m root) {u a : Nat} :
    hwWalk m root u = some a ↔
      ∃ w, leafEntry m root u = some w ∧ present.get w ≠ 0 ∧ entryFrame w + u % 2 ^ 12 = a := by
  rw [hwWalk_of_plain h, Option.bind_eq_some_iff]
  constructor
  · rintro ⟨w, hw, ha⟩
    split_ifs at ha with hp
    exact ⟨w, hw, hp, Option.some.inj ha⟩
  · rintro ⟨w, hw, hp, ha⟩
    exact ⟨w, hw, by rw [if_neg hp, ha]⟩

/-- A frame with an offset below 4096, as the code and as the processor put it together. -/
theorem entryFrame_or (w u : Nat) : entryFrame w ||| (u &&& 0xfff) = entryFrame w + u % 2 ^ 12 := by
  have hoff : u &&& 0xfff = u % 2 ^ 12 := land_low u 12
  have hlt : u % 2 ^ 12 < 2 ^ 12 := Nat.mod_lt _ (by decide)
  rw [hoff, entryFrame_eq]
  exact (Nat.two_pow_add_eq_or_of_lt hlt (pagePpn.get w)).symm

/-- The code's walk gives what the processor's walk gives. -/
def WalksAgree (m : Mem) (root : Nat) : Prop :=
  ∀ u a, hwWalk m root u = some a → mmGetPhysicalAddress m root u = a

theorem walksAgree_of_plain {m : Mem} {root : Nat} (h : Plain m root) : WalksAgree m root := by
  intro u a hu
  obtain ⟨w, hw, -, rfl⟩ := (hwWalk_eq_some h).mp hu
  rw [mmGetPhysicalAddress_of_leafEntry hw, entryFrame_or]

/-! ## Addresses and paths -/

/-- The first address of the page with the indices `x`. -/
def addressOf (x : PageMapIndex) : Nat :=
  x.pdp.val * 2 ^ 39 + x.pd.val * 2 ^ 30 + x.pt.val * 2 ^ 21 + x.p.val * 2 ^ 12

theorem addressOf_lt (x : PageMapIndex) : addressOf x < 2 ^ 48 := by
  have h1 := x.pdp.isLt
  have h2 := x.pd.isLt
  have h3 := x.pt.isLt
  have h4 := x.p.isLt
  unfold addressOf
  omega

theorem mmGetPageIndices_addressOf (x : PageMapIndex) : mmGetPageIndices (addressOf x) = x := by
  obtain ⟨a, ha⟩ : ∃ a, a = addressOf x := ⟨_, rfl⟩
  rw [← ha]
  obtain ⟨h1, h2, h3, h4⟩ := mmGetPageIndices_val a
  have hx1 := x.p.isLt
  have hx2 := x.pt.isLt
  have hx3 := x.pd.isLt
  have hx4 := x.pdp.isLt
  unfold addressOf at ha
  exact PageMapIndex.ext (Fin.ext (by omega)) (Fin.ext (by omega)) (Fin.ext (by omega)) (Fin.ext (by omega))

/-- Every path of at most three steps is a path to a table of some address. -/
theorem involved_univ {p : List (Fin 512)} (h : p.length ≤ 3) : Involved Set.univ p := by
  have hsuffix : ∀ c b a : Fin 512, Involved Set.univ [c, b, a] := fun c b a =>
    ⟨addressOf ⟨a, b, c, 0⟩, trivial, by rw [mmGetPageIndices_addressOf]; exact List.suffix_refl _⟩
  have htail := tailClosed_involved Set.univ
  match p, h with
  | [], _ => exact htail 0 _ (htail 0 _ (htail 0 _ (hsuffix 0 0 0)))
  | [a], _ => exact htail 0 _ (htail 0 _ (hsuffix 0 0 a))
  | [b, a], _ => exact htail 0 _ (hsuffix 0 b a)
  | [c, b, a], _ => exact hsuffix c b a

/-! ## A call in a plain hierarchy -/

section
variable {σ : Type} {src : PageSource σ} {U : Finset (List (Fin 512))} {root : Nat}

theorem reserved1_fillEntry (ppn w : Nat) : reserved1.get (fillEntry ppn w) = reserved1.get w :=
  get_fillEntry (by decide) (by decide) (by decide) ppn w

theorem largeAt_fillEntry (p : List (Fin 512)) (ppn w : Nat) : largeAt p (fillEntry ppn w) ↔ largeAt p w := by
  rw [largeAt, largeAt, get_fillEntry (by decide) (by decide) (by decide)]

theorem Plain.grow {F F' : Set Nat} {m m' : Mem} (h : Plain m root) (hg : Grows src Set.univ root F F' m m') :
    Plain m' root := by
  intro p t i hp ht
  have hinv := involved_univ hp
  have hold : reserved1.get (oldEntry root m p t i) = 0 ∧ (p.length ≤ 2 → ¬ largeAt (i :: p) (oldEntry root m p t i)) := by
    rw [oldEntry]
    split_ifs with hnone
    · exact ⟨rfl, fun _ hl => absurd hl.2 (by decide)⟩
    · obtain ⟨f, hf⟩ := Option.ne_none_iff_exists'.mp hnone
      obtain rfl : t = f := Option.some.inj (ht.symm.trans (hg.tables p f hinv hf))
      exact h p t i hp hf
  rcases hg.entries p t i hinv ht with he | ⟨-, ppn, he⟩
  · rwa [he]
  · rwa [he, reserved1_fillEntry, largeAt_fillEntry]

theorem Plain.setLeaf {k : Nat} {F : Set Nat} {s : Phys σ} (h : Plain s.mem root)
    (hinv : VmInv src Set.univ U root k F s) {Q : List (Fin 512)} {t : Nat} (hlen : Q.length = 3)
    (ht : swTable s.mem root Q = some t) (i : Fin 512) (ppn : Nat) :
    Plain (setEntry s.mem t i (fillEntry ppn (entry s.mem t i))) root := by
  have hQ := involved_univ (le_of_eq hlen)
  intro p g j hp hg
  rw [hinv.swTable_setLeaf hQ hlen ht i _ (involved_univ hp)] at hg
  obtain ⟨hlow, hsmall⟩ := h p g j hp hg
  by_cases he : (g, j) = (t, i)
  · obtain ⟨rfl, rfl⟩ := Prod.mk.inj he
    rw [entry_setEntry _ _ _ (fillEntry_lt _ (entry_lt _ _ _)), reserved1_fillEntry, largeAt_fillEntry]
    exact ⟨hlow, hsmall⟩
  · rw [entry_setEntry_of_ne _ _ (swTable_aligned hinv.aligned ht) (swTable_aligned hinv.aligned hg) he]
    exact ⟨hlow, hsmall⟩

theorem hwTable_of_plain {m : Mem} (h : Plain m root) {p : List (Fin 512)} (hp : p.length ≤ 3) :
    hwTable m root p = swTable m root p := by
  induction p with
  | nil => rfl
  | cons i p ih =>
      rw [List.length_cons] at hp
      have hi := ih (by omega)
      cases ht : swTable m root p with
      | none => rw [hwTable, tableAt_cons_of_none (hi.trans ht), swTable, tableAt_cons_of_none ht]
      | some t =>
          obtain ⟨hlow, hsmall⟩ := h p t i (by omega) ht
          rw [hwTable, tableAt_cons_of (hi.trans ht), swTable, tableAt_cons_of ht, hwChild, swChild,
            hwFrame_of_reserved1 hlow]
          simp only [hsmall (by omega), or_false]

end

/-- What the processor must see of `MmMapMemory(v, p)`, a call that leads from `s` to `s'`. -/
structure MapsPage {σ : Type} (src : PageSource σ) (root v p : Nat) (s s' : Phys σ) : Prop where
  maps : ∀ u, pageNumber u = pageNumber v → hwWalk s'.mem root u = some (p / 4096 * 4096 + u % 2 ^ 12)
  others : ∀ u a, pageNumber u ≠ pageNumber v → hwWalk s.mem root u = some a → hwWalk s'.mem root u = some a
  /-- Only tables, old or new, are written, besides what the requests write themselves. -/
  writes : Frame s.mem s'.mem fun x => (∃ t, (IsTable s.mem root t ∨ IsTable s'.mem root t) ∧ InPage t x) ∨ src.own x

section
variable {σ : Type} {src : PageSource σ} {root : Nat}

/-- **A call in a plain hierarchy without aliases.** -/
theorem mmMapMemory_of_plain {s : Phys σ} (hplain : Plain s.mem root) (hroot : root % 4096 = 0)
    (hnoAlias : NoAlias swChild (entry s.mem) root (Involved Set.univ)) {n : Nat} (hn : 3 ≤ n)
    (hready : src.Ready n {t | IsTable s.mem root t} s) {v : Nat} (hv : v < 2 ^ 64) (p : Nat) :
    ∃ s', mmMapMemory src.request root v p s = some s' ∧ Plain s'.mem root ∧
      (∃ w, leafEntry s'.mem root v = some (fillEntry ((p &&& 0xfffffffffffff000) >>> 12) w)) ∧
      (∀ u, pageNumber u ≠ pageNumber v → ∀ w, leafEntry s.mem root u = some w → leafEntry s'.mem root u = some w) ∧
      Frame s.mem s'.mem fun x => (∃ t, (IsTable s.mem root t ∨ IsTable s'.mem root t) ∧ InPage t x) ∨ src.own x := by
  have hU : ∀ q ∈ callPaths [v], Involved Set.univ q := involved_callPaths fun _ _ => trivial
  have hcard : (missing s.mem root (callPaths [v])).card ≤ 3 := by
    refine (Finset.card_filter_le _ _).trans ?_
    rw [callPaths, List.toFinset_cons, List.toFinset_nil, Finset.insert_empty, Finset.singleton_biUnion]
    exact Finset.card_le_three
  have hinv : VmInv src Set.univ (callPaths [v]) root (n - (missing s.mem root (callPaths [v])).card)
      {t | IsTable s.mem root t} s := by
    refine ⟨hroot, hnoAlias, fun q f hq hf => ⟨q, hq.length_le, (hwTable_of_plain hplain hq.length_le).trans hf⟩, ?_⟩
    rwa [Nat.add_sub_cancel' (hcard.trans hn)]
  obtain ⟨t, s₁, F', ht, hinv₁, hg, hmap⟩ := mmMapMemory_spec hinv hU hv
    (tablePaths_subset_callPaths List.mem_cons_self) p
  obtain ⟨s', F₂, hmap', -, -, -, hleaf, hothers⟩ := mmMapMemory_leaf hinv hU hv trivial
    (tablePaths_subset_callPaths List.mem_cons_self) p
  obtain rfl := Option.some.inj (hmap'.symm.trans hmap)
  have hpath := involved_path (A := Set.univ) (a := v) trivial
  have hplain' := (hplain.grow hg).setLeaf hinv₁ rfl ht (mmGetPageIndices v).p ((p &&& 0xfffffffffffff000) >>> 12)
  have htable : ∀ q f, Involved Set.univ q → swTable s₁.mem root q = some f → IsTable (setEntry s₁.mem t
      (mmGetPageIndices v).p (fillEntry ((p &&& 0xfffffffffffff000) >>> 12) (entry s₁.mem t (mmGetPageIndices v).p)))
      root f := fun q f hq hf =>
    ⟨q, hq.length_le, (hwTable_of_plain hplain' hq.length_le).trans ((hinv₁.swTable_setLeaf hpath rfl ht _ _ hq).trans hf)⟩
  refine ⟨_, hmap, hplain', hleaf, fun u hne w hw => hothers u trivial hne w hw, ?_⟩
  refine (hg.frame.mono fun x hx => hx.imp_left ?_).trans ((Frame.write _ _ _ _).mono fun x hx => Or.inl ?_)
  · rintro ⟨f, hf, hx⟩
    refine ⟨f, (hg.new f hf).imp_right ?_, hx⟩
    rintro ⟨q, hq, hqf⟩
    exact htable q f hq hqf
  · exact ⟨t, Or.inr (htable _ t hpath ht), inPage_entryAddr hx.1 hx.2⟩

end

/-! ## Hierarchies of the bootloader -/

/-- A hierarchy whose tables lie below `2^40` and are referenced once, and whose absent entries have none of the bits
that filling them leaves alone. -/
structure Hierarchy (m : Mem) (root : Nat) : Prop where
  aligned : root % 4096 = 0
  low : ∀ t, IsTable m root t → t < 2 ^ 40
  noAlias : NoAlias hwChild (entry m) root fun p => p.length ≤ 3
  absent : ∀ p t i, p.length ≤ 3 → hwTable m root p = some t → present.get (entry m t i) = 0 →
    reserved1.get (entry m t i) = 0 ∧ (p.length ≤ 2 → ¬ largeAt (i :: p) (entry m t i))

def NoLargePage (m : Mem) (root : Nat) : Prop :=
  ∀ p t i, p.length ≤ 2 → hwTable m root p = some t → present.get (entry m t i) ≠ 0 → ¬ largeAt (i :: p) (entry m t i)

def LowPages (m : Mem) (root : Nat) : Prop :=
  ∀ p t i, p.length = 3 → hwTable m root p = some t → present.get (entry m t i) ≠ 0 → hwFrame (entry m t i) < 2 ^ 40

theorem reserved1_of_hwFrame_lt {w : Nat} (h : hwFrame w < 2 ^ 40) : reserved1.get w = 0 := by
  unfold hwFrame at h
  simp only [Field.get, reserved1] at h ⊢
  omega

section
variable {m : Mem} {root : Nat}

theorem Hierarchy.swTable_of_hwTable (h : Hierarchy m root) {p : List (Fin 512)} (hp : p.length ≤ 3) {t : Nat}
    (ht : hwTable m root p = some t) : swTable m root p = some t := by
  induction p generalizing t with
  | nil => exact ht
  | cons i p ih =>
      obtain ⟨g, hg, hc⟩ := tableAt_cons_eq_some.mp ht
      obtain ⟨hpres, -, hframe⟩ := hwChild_eq_some.mp hc
      have hlow := h.low t ⟨_, hp, ht⟩
      rw [swTable, tableAt_cons_of (ih (by rw [List.length_cons] at hp; omega) hg), swChild_eq_some]
      exact ⟨hpres, by rw [← hframe, hwFrame_eq (by rwa [hframe])]⟩

theorem Hierarchy.swTable_eq (h : Hierarchy m root) (hlarge : NoLargePage m root) {p : List (Fin 512)}
    (hp : p.length ≤ 3) : swTable m root p = hwTable m root p := by
  induction p with
  | nil => rfl
  | cons i p ih =>
      rw [List.length_cons] at hp
      have hi := ih (by omega)
      cases ht : hwTable m root p with
      | none => rw [swTable, tableAt_cons_of_none (hi.trans ht), hwTable, tableAt_cons_of_none ht]
      | some t =>
          by_cases hpres : present.get (entry m t i) = 0
          · rw [swTable_cons_absent (hi.trans ht) hpres, hwTable, tableAt_cons_of ht, hwChild, if_pos (Or.inl hpres)]
          · have hchild : hwTable m root (i :: p) = some (hwFrame (entry m t i)) := by
              rw [hwTable, tableAt_cons_of ht, hwChild_eq_some]
              exact ⟨hpres, hlarge p t i (by omega) ht hpres, rfl⟩
            exact (h.swTable_of_hwTable (by rw [List.length_cons]; omega) hchild).trans hchild.symm

/-- Without large pages and pages from `2^40` on, the hierarchy is plain. -/
theorem Hierarchy.plain (h : Hierarchy m root) (hlarge : NoLargePage m root) (hlow : LowPages m root) :
    Plain m root := by
  intro p t i hp ht
  rw [h.swTable_eq hlarge hp] at ht
  by_cases hpres : present.get (entry m t i) = 0
  · exact h.absent p t i hp ht hpres
  · refine ⟨reserved1_of_hwFrame_lt ?_, fun hp2 => hlarge p t i hp2 ht hpres⟩
    rcases Nat.lt_or_eq_of_le hp with hp2 | hp3
    · refine h.low _ ⟨i :: p, by rw [List.length_cons]; omega, ?_⟩
      rw [hwTable, tableAt_cons_of ht, hwChild_eq_some]
      exact ⟨hpres, hlarge p t i (by omega) ht hpres, rfl⟩
    · exact hlow p t i hp3 ht hpres

theorem Hierarchy.swNoAlias (h : Hierarchy m root) (hlarge : NoLargePage m root) :
    NoAlias swChild (entry m) root (Involved Set.univ) := by
  intro p q f hp hq hpf hqf
  have hp' := (h.swTable_eq hlarge hp.length_le).symm.trans hpf
  have hq' := (h.swTable_eq hlarge hq.length_le).symm.trans hqf
  exact h.noAlias p q f hp.length_le hq.length_le hp' hq'

theorem hwWalk_of_hwTable {u t : Nat} (ht : hwTable m root (mmGetPageIndices u).path = some t)
    (hpres : present.get (entry m t (mmGetPageIndices u).p) ≠ 0) :
    hwWalk m root u = some (hwFrame (entry m t (mmGetPageIndices u).p) + u % 2 ^ 12) := by
  obtain ⟨t2, h2, h3⟩ := tableAt_cons_eq_some.mp ht
  obtain ⟨t1, h1, h2⟩ := tableAt_cons_eq_some.mp h2
  obtain ⟨t0, h0, h1⟩ := tableAt_cons_eq_some.mp h1
  obtain rfl : root = t0 := Option.some.inj h0
  obtain ⟨hp1, -, hf1⟩ := hwChild_eq_some.mp h1
  obtain ⟨hp2, hs2, hf2⟩ := hwChild_eq_some.mp h2
  obtain ⟨hp3, hs3, hf3⟩ := hwChild_eq_some.mp h3
  rw [hwWalk]
  simp only [hf1, hp1, if_false]
  simp only [hf2, hp2, if_false, if_neg (fun h => hs2 ⟨by simp, h⟩)]
  simp only [hf3, hp3, if_false, if_neg (fun h => hs3 ⟨by simp, h⟩), hpres]

theorem Hierarchy.lowPages_of_walksAgree (h : Hierarchy m root) (hagree : WalksAgree m root) : LowPages m root := by
  intro p t i hp ht hpres
  match p, hp with
  | [c, b, a], _ =>
      have hidx := mmGetPageIndices_addressOf ⟨a, b, c, i⟩
      have hu : hwTable m root (mmGetPageIndices (addressOf ⟨a, b, c, i⟩)).path = some t := by rw [hidx]; exact ht
      have hsw := h.swTable_of_hwTable (by rw [hidx]; simp [PageMapIndex.path]) hu
      have hwalk := hagree _ _ (hwWalk_of_hwTable hu (by rw [hidx]; exact hpres))
      have hlt := entryFrame_lt (entry m t i)
      rw [mmGetPhysicalAddress_of_swTable hsw, entryFrame_or, hidx] at hwalk
      dsimp only at hwalk
      omega

end

/-! ## A call below a large page -/

section
variable {σ : Type} {src : PageSource σ} {root : Nat}

theorem mmNextTable_present {request : Phys σ → Option (Nat × Phys σ)} {s : Phys σ} {t : Nat} {i : Fin 512}
    (h : present.get (entry s.mem t i) ≠ 0) : mmNextTable request s t i = some (entryFrame (entry s.mem t i), s) := by
  rw [mmNextTable, if_neg h]

/-- Whatever page the code takes for a table, a level only writes entries with the index it works at, and pages that
were not in `F`. -/
theorem mmNextTable_entries {n : Nat} {F : Set Nat} {s s' : Phys σ} (hready : src.Ready (n + 1) F s) {t f : Nat}
    {i : Fin 512} (ht : t % 4096 = 0) (h : mmNextTable src.request s t i = some (f, s')) :
    f % 4096 = 0 ∧ ∀ g ∈ F, g % 4096 = 0 → ∀ j, j ≠ i → entry s'.mem g j = entry s.mem g j := by
  by_cases hpres : present.get (entry s.mem t i) = 0
  swap
  · rw [mmNextTable_present hpres] at h
    obtain ⟨rfl, rfl⟩ := Prod.mk.inj (Option.some.inj h)
    exact ⟨by rw [entryFrame_eq]; omega, fun g _ _ j _ => rfl⟩
  obtain ⟨f', s₁, hreq, -, hfal, -, hfF, hown, -⟩ := src.request_spec hready
  rw [mmNextTable, if_pos hpres, hreq, Option.map_some] at h
  obtain ⟨rfl, rfl⟩ := Prod.mk.inj (Option.some.inj h)
  refine ⟨hfal, fun g hg hgal j hj => ?_⟩
  have hlink := entry_linkTable_of_ne (m := s₁.mem) (i := i) (j := j) (w := entry s.mem t i) ht hfal hgal
    (fun hgf => hfF (hgf ▸ hg)) (fun he => hj (Prod.mk.inj he).2)
  exact hlink.trans (entry_frame hown (fun x hx => src.ready_own hready g hg x hx) j)

theorem exists_index_notMem (S : Finset (Fin 512)) (h : S.card < 512) : ∃ j, j ∉ S := by
  obtain ⟨j, -, hj⟩ := Finset.exists_mem_notMem_of_card_lt_card (s := S) (t := Finset.univ) (by simpa using h)
  exact ⟨j, hj⟩

/-- The page of `v` is not sent to `p` when the processor takes the bits 12..20 of `v` as they are. -/
theorem offset_ne {v p q : Nat} (hq : q % 2 ^ 21 = 0) (hne : v / 2 ^ 12 % 512 ≠ p / 4096 % 512) :
    q + v % 2 ^ 21 ≠ p / 4096 * 4096 + v % 2 ^ 12 := by
  omega

/-- The first level of a hierarchy, as the processor and the code read it. -/
theorem Hierarchy.first_level {m : Mem} (h : Hierarchy m root) {a : Fin 512} {t : Nat}
    (ht : hwTable m root [a] = some t) :
    present.get (entry m root a) ≠ 0 ∧ hwFrame (entry m root a) = t ∧ entryFrame (entry m root a) = t := by
  have hsw := h.swTable_of_hwTable (by simp) ht
  rw [hwTable, tableAt_cons_of rfl] at ht
  rw [swTable, tableAt_cons_of rfl] at hsw
  exact ⟨(hwChild_eq_some.mp ht).1, (hwChild_eq_some.mp ht).2.2, (swChild_eq_some.mp hsw).2⟩

theorem Hierarchy.second_level {m : Mem} (h : Hierarchy m root) {a b : Fin 512} {t : Nat}
    (ht : hwTable m root [b, a] = some t) :
    ∃ t₁, hwTable m root [a] = some t₁ ∧ present.get (entry m t₁ b) ≠ 0 ∧ isMapped.get (entry m t₁ b) ≠ 1 ∧
      hwFrame (entry m t₁ b) = t ∧ entryFrame (entry m t₁ b) = t := by
  obtain ⟨t₁, h₁, hc⟩ := tableAt_cons_eq_some.mp ht
  have hsw := h.swTable_of_hwTable (by simp) ht
  rw [swTable, tableAt_cons_of (h.swTable_of_hwTable (by simp) h₁)] at hsw
  obtain ⟨hpres, hsmall, hframe⟩ := hwChild_eq_some.mp hc
  exact ⟨t₁, h₁, hpres, fun hm => hsmall ⟨by simp, hm⟩, hframe, (swChild_eq_some.mp hsw).2⟩

/-- **A call below a 2 MiB page** is not what the processor sees. -/
theorem not_mapsPage_of_large_pde {s : Phys σ} (h : Hierarchy s.mem root) {a b c : Fin 512} {t : Nat}
    (ht : hwTable s.mem root [b, a] = some t) (hpres : present.get (entry s.mem t c) ≠ 0)
    (hlarge : isMapped.get (entry s.mem t c) = 1) (p : Nat) :
    ∃ v < 2 ^ 64, ∀ s', mmMapMemory src.request root v p s = some s' → ¬ MapsPage src root v p s s' := by
  obtain ⟨d, hd⟩ := exists_index_notMem {a, b, c, index9 (p / 4096)}
    (lt_of_le_of_lt Finset.card_le_four (by decide))
  simp only [Finset.mem_insert, Finset.mem_singleton, not_or] at hd
  obtain ⟨hda, hdb, hdc, hdp⟩ := hd
  obtain ⟨t₁, ht₁, hp₁, hm₁, hf₁, he₁⟩ := h.second_level ht
  obtain ⟨hp₀, hf₀, he₀⟩ := h.first_level ht₁
  obtain ⟨v, hv⟩ : ∃ v, v = addressOf ⟨a, b, c, d⟩ := ⟨_, rfl⟩
  have hlt : v < 2 ^ 64 := by have := addressOf_lt ⟨a, b, c, d⟩; omega
  have hidx : mmGetPageIndices v = ⟨a, b, c, d⟩ := hv ▸ mmGetPageIndices_addressOf _
  refine ⟨v, hlt, fun s' hmap hmaps => ?_⟩
  -- all three tables are there, so the call writes one entry, with an index that the walk does not use
  have hcall : mmMapMemory src.request root v p s = some { s with
      mem := setEntry s.mem (entryFrame (entry s.mem t c)) d (fillEntry ((p &&& 0xfffffffffffff000) >>> 12)
        (entry s.mem (entryFrame (entry s.mem t c)) d)) } := by
    simp only [mmMapMemory, mmGetPageIndices_land hlt, hidx, mmNextTable_present hp₀, Option.bind_some, he₀,
      mmNextTable_present hp₁, he₁, mmNextTable_present hpres, Option.map_some]
  obtain rfl := Option.some.inj (hmap.symm.trans hcall)
  have hkeep : ∀ g j, g % 4096 = 0 → j ≠ d → entry (setEntry s.mem (entryFrame (entry s.mem t c)) d
      (fillEntry ((p &&& 0xfffffffffffff000) >>> 12) (entry s.mem (entryFrame (entry s.mem t c)) d))) g j =
      entry s.mem g j := fun g j hg hj =>
    entry_setEntry_of_ne _ _ (by rw [entryFrame_eq]; omega) hg fun he => hj (Prod.mk.inj he).2
  have hal₁ := swTable_aligned h.aligned (h.swTable_of_hwTable (by simp) ht₁)
  have hal := swTable_aligned h.aligned (h.swTable_of_hwTable (by simp) ht)
  have hwalk := hmaps.maps v rfl
  rw [hwWalk] at hwalk
  simp only [hidx, hkeep root a h.aligned (Ne.symm hda), hf₀, hkeep t₁ b hal₁ (Ne.symm hdb), hf₁,
    hkeep t c hal (Ne.symm hdc), hp₀, hp₁, hpres, hm₁, hlarge, if_false, if_true, Option.some.injEq] at hwalk
  refine offset_ne (by omega) (fun he => hdp (Fin.ext ?_)) hwalk
  have hval := (mmGetPageIndices_val v).1
  rw [hidx] at hval
  rw [val_index9, ← he, ← hval]

/-- **A call below a 1 GiB page** is not what the processor sees. -/
theorem not_mapsPage_of_large_pdpte {n : Nat} {s : Phys σ} (h : Hierarchy s.mem root)
    (hready : src.Ready (n + 1) {t | IsTable s.mem root t} s) {a b : Fin 512} {t : Nat}
    (ht : hwTable s.mem root [a] = some t) (hpres : present.get (entry s.mem t b) ≠ 0)
    (hlarge : isMapped.get (entry s.mem t b) = 1) (p : Nat) :
    ∃ v < 2 ^ 64, ∀ s', mmMapMemory src.request root v p s = some s' → ¬ MapsPage src root v p s s' := by
  obtain ⟨c, hc⟩ := exists_index_notMem {a, b} (lt_of_le_of_lt Finset.card_le_two (by decide))
  obtain ⟨d, hd⟩ := exists_index_notMem {a, b, index9 (p / 4096)} (lt_of_le_of_lt Finset.card_le_three (by decide))
  simp only [Finset.mem_insert, Finset.mem_singleton, not_or] at hc hd
  obtain ⟨hca, hcb⟩ := hc
  obtain ⟨hda, hdb, hdp⟩ := hd
  obtain ⟨hp₀, hf₀, he₀⟩ := h.first_level ht
  obtain ⟨v, hv⟩ : ∃ v, v = addressOf ⟨a, b, c, d⟩ := ⟨_, rfl⟩
  have hlt : v < 2 ^ 64 := by have := addressOf_lt ⟨a, b, c, d⟩; omega
  have hidx : mmGetPageIndices v = ⟨a, b, c, d⟩ := hv ▸ mmGetPageIndices_addressOf _
  refine ⟨v, hlt, fun s' hmap hmaps => ?_⟩
  simp only [mmMapMemory, mmGetPageIndices_land hlt, hidx, mmNextTable_present hp₀, Option.bind_some, he₀,
    mmNextTable_present hpres, Option.map_eq_some_iff] at hmap
  obtain ⟨⟨pt, s₁⟩, hnext, rfl⟩ := hmap
  have hal := swTable_aligned h.aligned (h.swTable_of_hwTable (by simp) ht)
  obtain ⟨hptal, hkeep₁⟩ := mmNextTable_entries hready (by rw [entryFrame_eq]; omega) hnext
  have hkeep : ∀ g j w, IsTable s.mem root g → g % 4096 = 0 → j ≠ c → j ≠ d →
      entry (setEntry s₁.mem pt d w) g j = entry s.mem g j := by
    intro g j w hg hgal hjc hjd
    rw [entry_setEntry_of_ne _ _ hptal hgal fun he => hjd (Prod.mk.inj he).2]
    exact hkeep₁ g hg hgal j hjc
  have hwalk := hmaps.maps v rfl
  rw [hwWalk] at hwalk
  simp only [hidx, hkeep root a _ ⟨[], by simp, rfl⟩ h.aligned (Ne.symm hca) (Ne.symm hda), hf₀,
    hkeep t b _ ⟨[a], by simp, ht⟩ hal (Ne.symm hcb) (Ne.symm hdb), hp₀, hpres, hlarge, if_false, if_true,
    Option.some.injEq] at hwalk
  have hoff : 2 ^ 30 * Field.get ⟨30, 22⟩ (entry s.mem t b) + v % 2 ^ 30 =
      2 ^ 30 * Field.get ⟨30, 22⟩ (entry s.mem t b) + v % 2 ^ 30 / 2 ^ 21 * 2 ^ 21 + v % 2 ^ 21 := by omega
  refine offset_ne (v := v) (by omega) (fun he => hdp (Fin.ext ?_)) (hoff.symm.trans hwalk)
  have hval := (mmGetPageIndices_val v).1
  rw [hidx] at hval
  rw [val_index9, ← he, ← hval]

theorem mapsPage_of_plain {s : Phys σ} (hplain : Plain s.mem root) (hroot : root % 4096 = 0)
    (hnoAlias : NoAlias swChild (entry s.mem) root (Involved Set.univ)) {n : Nat} (hn : 3 ≤ n)
    (hready : src.Ready n {t | IsTable s.mem root t} s) {v : Nat} (hv : v < 2 ^ 64) {p : Nat} (hp : p < 2 ^ 40) :
    ∃ s', mmMapMemory src.request root v p s = some s' ∧ MapsPage src root v p s s' := by
  obtain ⟨s', hmap, hplain', ⟨w, hw⟩, hothers, hframe⟩ := mmMapMemory_of_plain hplain hroot hnoAlias hn hready hv p
  refine ⟨s', hmap, fun u hu => ?_, fun u a hne hu => ?_, hframe⟩
  · refine (hwWalk_eq_some hplain').mpr ⟨_, (leafEntry_congr hu).trans hw, by simp, ?_⟩
    rw [land_page (by omega), entryFrame_fillEntry (by omega), Nat.mul_div_cancel _ (by decide)]
  · obtain ⟨w, hw, hpres, ha⟩ := (hwWalk_eq_some hplain).mp hu
    exact (hwWalk_eq_some hplain').mpr ⟨w, hothers u hne w hw, hpres, ha⟩

/-- **When the code and the processor agree.** In a hierarchy whose tables lie below `2^40` and are referenced once, with
clean absent entries and pages to be had, the two walks agree and every call `MmMapMemory(v, p)` does what the processor
is to see exactly when there is no large page, no page from `2^40` on is mapped and `p` is below `2^40`. -/
theorem walks_agree_and_map_iff {s : Phys σ} (h : Hierarchy s.mem root) {n : Nat}
    (hready : src.Ready (n + 3) {t | IsTable s.mem root t} s) (p : Nat) (hp : p < 2 ^ 64) :
    (WalksAgree s.mem root ∧
      ∀ v < 2 ^ 64, ∃ s', mmMapMemory src.request root v p s = some s' ∧ MapsPage src root v p s s') ↔
    NoLargePage s.mem root ∧ LowPages s.mem root ∧ p < 2 ^ 40 := by
  constructor
  · rintro ⟨hagree, hmaps⟩
    have hlow := h.lowPages_of_walksAgree hagree
    have hsees : ¬ ∃ v < 2 ^ 64, ∀ s', mmMapMemory src.request root v p s = some s' → ¬ MapsPage src root v p s s' := by
      rintro ⟨v, hv, hno⟩
      obtain ⟨s', hmap, hs'⟩ := hmaps v hv
      exact hno s' hmap hs'
    have hlarge : NoLargePage s.mem root := by
      intro q t i hq ht hpres hlarge
      have hlen := hlarge.1
      match q, hq with
      | [], _ => simp at hlen
      | [a], _ => exact hsees (not_mapsPage_of_large_pdpte h hready ht hpres hlarge.2 p)
      | [b, a], _ => exact hsees (not_mapsPage_of_large_pde h ht hpres hlarge.2 p)
    refine ⟨hlarge, hlow, ?_⟩
    -- the frame of an entry has 28 bits
    obtain ⟨s', hmap, hplain', ⟨w, hw⟩, -, -⟩ := mmMapMemory_of_plain (h.plain hlarge hlow) h.aligned
      (h.swNoAlias hlarge) (Nat.le_add_left 3 n) hready (v := 0) (by decide) p
    obtain ⟨s'', hmap', hs''⟩ := hmaps 0 (by decide)
    obtain rfl := Option.some.inj (hmap.symm.trans hmap')
    obtain ⟨w', hw', -, ha⟩ := (hwWalk_eq_some hplain').mp (hs''.maps 0 rfl)
    have hlt := entryFrame_lt w'
    omega
  · rintro ⟨hlarge, hlow, hp⟩
    have hplain := h.plain hlarge hlow
    exact ⟨walksAgree_of_plain hplain, fun v hv =>
      mapsPage_of_plain hplain h.aligned (h.swNoAlias hlarge) (Nat.le_add_left 3 n) hready hv hp⟩

end

theorem hwTable_twelveState {p : List (Fin 512)} {f : Nat} (h : hwTable twelveState.mem 0x1000 p = some f) :
    p = [] ∧ f = 0x1000 := by
  rw [hwTable, tableAt_of_empty (fun i => by rw [entry_twelveState i]; rfl)] at h
  split_ifs at h with hp
  exact ⟨hp, (Option.some.inj h).symm⟩

theorem walks_agree_and_map_twelve : ∃ s', mmMapMemory (mmRequestPage 20) 0x1000 0x400000 0x200000 twelveState = some s' ∧
    hwWalk s'.mem 0x1000 0x400123 = some 0x200123 := by
  have hier : Hierarchy twelveState.mem 0x1000 := by
    refine ⟨by decide, fun t ⟨p, _, ht⟩ => ?_, fun p q f _ _ hp hq => ?_, fun p t i _ ht _ => ?_⟩
    · rw [(hwTable_twelveState ht).2]
      decide
    · rw [(hwTable_twelveState hp).1, (hwTable_twelveState hq).1]
    · rw [(hwTable_twelveState ht).2, entry_twelveState i]
      exact ⟨rfl, fun _ hl => absurd hl.2 (by decide)⟩
  have htables : {t | IsTable twelveState.mem 0x1000 t} = {0x1000} := by
    ext t
    exact ⟨fun ⟨p, _, ht⟩ => (hwTable_twelveState ht).2, fun ht => ⟨[], by simp, by rw [ht]; rfl⟩⟩
  have hready := ready_twelveState (n := 6 + 3) (by decide)
  rw [← htables] at hready
  have hiff := walks_agree_and_map_iff hier hready 0x200000 (by decide)
  have habsent : ∀ p t i, hwTable twelveState.mem 0x1000 p = some t → present.get (entry twelveState.mem t i) = 0 := by
    intro p t i ht
    rw [(hwTable_twelveState ht).2, entry_twelveState i]
    rfl
  obtain ⟨s', hmap, hmaps⟩ := (hiff.mpr ⟨fun p t i _ ht hpres => absurd (habsent p t i ht) hpres,
    fun p t i _ ht hpres => absurd (habsent p t i ht) hpres, by decide⟩).2 0x400000 (by decide)
  exact ⟨s', hmap, hmaps.maps 0x400123 (by decide)⟩

/-- A hierarchy at `0x1000` that maps the first 2 MiB to `0x200000` by a large page. -/
def largeTables : Mem :=
  setEntry (setEntry (setEntry (fun _ => 0) 0x1000 0 (fillEntry 2 0)) 0x2000 0 (fillEntry 3 0))
    0x3000 0 (isMapped.set 1 (fillEntry 0x200 0))

/-- The processor maps `0x1234` to `0x201234`; the code takes the page at `0x200000` for a table, finds `0x234` for the
address, and a call writes into that page. -/
theorem walks_disagree_on_large_page :
    hwWalk largeTables 0x1000 0x1234 = some 0x201234 ∧ mmGetPhysicalAddress largeTables 0x1000 0x1234 = 0x234 ∧
    ∃ s', mmMapMemory (mmRequestPage 20) 0x1000 0x1000 0x300000
        (mmInitializeRegion largeTables [twelvePages] twelvePages) = some s' ∧
      hwWalk s'.mem 0x1000 0x1000 = some 0x201000 ∧ largeTables.read64 0x200008 = 0 ∧
      s'.mem.read64 0x200008 = 0x300003 := by
  refine ⟨by decide +kernel, by decide +kernel, ?_⟩
  have h : ((mmMapMemory (mmRequestPage 20) 0x1000 0x1000 0x300000
      (mmInitializeRegion largeTables [twelvePages] twelvePages)).map fun s' =>
        (hwWalk s'.mem 0x1000 0x1000, s'.mem.read64 0x200008)) = some (some 0x201000, 0x300003) := by decide +kernel
  obtain ⟨s', hmap, hs'⟩ := Option.map_eq_some_iff.mp h
  obtain ⟨hwalk, hread⟩ := Prod.mk.inj hs'
  exact ⟨s', hmap, hwalk, by decide +kernel, hread⟩

end Gewodsys.Mem
