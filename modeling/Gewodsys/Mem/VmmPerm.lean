import Gewodsys.Mem.VmmRuns

/-!
# Page permissions (`mem/vmm.c`)

* `mmSetPagePermissions`, `mmGetPagePermissions`, `mmPageSet`, `mmPageClear`;
* `permissionsOf_withPermissions` : packing the four bits of an entry undoes unpacking them;
* `PermOp.leafEntry_exec` : one call rewrites the leaf entry of its page and no other;
* `page_permissions_run` : the permissions after any sequence of calls.
-/

namespace Gewodsys.Mem
open Gewodsys.Machine Gewodsys.Lib

/-! ## The code -/

def userAccess : Field := ⟨2, 1⟩
def cacheDisabled : Field := ⟨4, 1⟩
def executionDisabled : Field := ⟨63, 1⟩

/-- The three steps from `kPML4` to the page table; no entry is tested for presence. -/
def mmPageTable (m : Mem) (kPML4 : Nat) (map : PageMapIndex) : Nat :=
  let pd := entryFrame (entry m kPML4 map.pdp)
  let pd := entryFrame (entry m pd map.pd)
  entryFrame (entry m pd map.pt)

/-- `pt->entries[i].f = v`. -/
def assignEntry (m : Mem) (pt : Nat) (i : Fin 512) (f : Field) (v : Nat) : Mem :=
  setEntry m pt i (f.set v (entry m pt i))

def mmSetPagePermissions (m : Mem) (kPML4 address : Nat) (permissions : BitVec 8) : Mem :=
  let map := mmGetPageIndices address
  let pt := mmPageTable m kPML4 map
  let m := assignEntry m pt map.p writeable (permissions &&& 1).toNat
  let m := assignEntry m pt map.p userAccess ((permissions &&& 2) >>> 1).toNat
  let m := assignEntry m pt map.p executionDisabled ((permissions &&& 4) >>> 2).toNat
  assignEntry m pt map.p cacheDisabled ((permissions &&& 8) >>> 3).toNat

/-- The permissions in a page table entry. -/
def permissionsOf (pte : Nat) : BitVec 8 :=
  let result := BitVec.ofNat 8 (writeable.get pte)
  let result := result ||| BitVec.ofNat 8 (userAccess.get pte <<< 1)
  let result := result ||| BitVec.ofNat 8 (executionDisabled.get pte <<< 2)
  result ||| BitVec.ofNat 8 (cacheDisabled.get pte <<< 3)

def mmGetPagePermissions (m : Mem) (kPML4 address : Nat) : BitVec 8 :=
  let map := mmGetPageIndices address
  permissionsOf (entry m (mmPageTable m kPML4 map) map.p)

def mmPageSet (m : Mem) (kPML4 address : Nat) (field : BitVec 8) : Mem :=
  mmSetPagePermissions m kPML4 address (mmGetPagePermissions m kPML4 address ||| field)

def mmPageClear (m : Mem) (kPML4 address : Nat) (field : BitVec 8) : Mem :=
  mmSetPagePermissions m kPML4 address (mmGetPagePermissions m kPML4 address &&& ~~~field)

/-! ## The bits of an entry -/

/-- An entry with its permission bits assigned. -/
def withPermissions (permissions : BitVec 8) (pte : Nat) : Nat :=
  let pte := writeable.set (permissions &&& 1).toNat pte
  let pte := userAccess.set ((permissions &&& 2) >>> 1).toNat pte
  let pte := executionDisabled.set ((permissions &&& 4) >>> 2).toNat pte
  cacheDisabled.set ((permissions &&& 8) >>> 3).toNat pte

theorem withPermissions_lt (permissions : BitVec 8) {w : Nat} (hw : w < 2 ^ 64) : withPermissions permissions w < 2 ^ 64 := by
  unfold withPermissions
  apply cacheDisabled.set_lt _ _ (by decide)
  apply executionDisabled.set_lt _ _ (by decide)
  apply userAccess.set_lt _ _ (by decide)
  exact writeable.set_lt _ hw (by decide)

theorem get_withPermissions {g : Field} (h1 : g.Disjoint writeable) (h2 : g.Disjoint userAccess)
    (h3 : g.Disjoint executionDisabled) (h4 : g.Disjoint cacheDisabled) (permissions : BitVec 8) (w : Nat) :
    g.get (withPermissions permissions w) = g.get w := by
  unfold withPermissions
  rw [Field.get_set_of_disjoint _ _ _ _ h4, Field.get_set_of_disjoint _ _ _ _ h3, Field.get_set_of_disjoint _ _ _ _ h2,
    Field.get_set_of_disjoint _ _ _ _ h1]

theorem entryFrame_withPermissions (permissions : BitVec 8) (w : Nat) :
    entryFrame (withPermissions permissions w) = entryFrame w := by
  rw [entryFrame, get_withPermissions (by decide) (by decide) (by decide) (by decide), entryFrame]

theorem present_withPermissions (permissions : BitVec 8) (w : Nat) :
    present.get (withPermissions permissions w) = present.get w :=
  get_withPermissions (by decide) (by decide) (by decide) (by decide) permissions w

/-- **Packing undoes unpacking**: the low four bits of the value assigned are read back. -/
theorem permissionsOf_withPermissions (permissions : BitVec 8) (w : Nat) :
    permissionsOf (withPermissions permissions w) = permissions &&& 0xF := by
  have hw : writeable.get (withPermissions permissions w) = (permissions &&& 1).toNat % 2 := by
    unfold withPermissions
    rw [Field.get_set_of_disjoint _ _ _ _ (by decide), Field.get_set_of_disjoint _ _ _ _ (by decide),
      Field.get_set_of_disjoint _ _ _ _ (by decide), Field.get_set]
    rfl
  have hu : userAccess.get (withPermissions permissions w) = ((permissions &&& 2) >>> 1).toNat % 2 := by
    unfold withPermissions
    rw [Field.get_set_of_disjoint _ _ _ _ (by decide), Field.get_set_of_disjoint _ _ _ _ (by decide), Field.get_set]
    rfl
  have hx : executionDisabled.get (withPermissions permissions w) = ((permissions &&& 4) >>> 2).toNat % 2 := by
    unfold withPermissions
    rw [Field.get_set_of_disjoint _ _ _ _ (by decide), Field.get_set]
    rfl
  have hc : cacheDisabled.get (withPermissions permissions w) = ((permissions &&& 8) >>> 3).toNat % 2 := by
    unfold withPermissions
    rw [Field.get_set]
    rfl
  rw [permissionsOf, hw, hu, hx, hc]
  clear hw hu hx hc
  revert permissions
  decide +kernel

theorem permission_bits {P : Nat → Nat → Nat → Nat → Prop} (h : ∀ a < 2, ∀ b < 2, ∀ c < 2, ∀ d < 2, P a b c d) (w : Nat) :
    P (writeable.get w) (userAccess.get w) (executionDisabled.get w) (cacheDisabled.get w) :=
  h _ (writeable.get_lt w) _ (userAccess.get_lt w) _ (executionDisabled.get_lt w) _ (cacheDisabled.get_lt w)

theorem permissionsOf_land (w : Nat) : permissionsOf w &&& 0xF = permissionsOf w := by
  have hbits : ∀ a < 2, ∀ b < 2, ∀ c < 2, ∀ d < 2,
      (BitVec.ofNat 8 a ||| BitVec.ofNat 8 (b <<< 1) ||| BitVec.ofNat 8 (c <<< 2) ||| BitVec.ofNat 8 (d <<< 3)) &&& 0xF =
        BitVec.ofNat 8 a ||| BitVec.ofNat 8 (b <<< 1) ||| BitVec.ofNat 8 (c <<< 2) ||| BitVec.ofNat 8 (d <<< 3) := by
    decide +kernel
  exact permission_bits hbits w

/-! ## One call -/

theorem mmPageTable_of_swTable {m : Mem} {root t : Nat} {x : PageMapIndex} (h : swTable m root x.path = some t) :
    mmPageTable m root x = t := by
  obtain ⟨t2, h2, h3⟩ := tableAt_cons_eq_some.mp h
  obtain ⟨t1, h1, h2⟩ := tableAt_cons_eq_some.mp h2
  obtain ⟨t0, h0, h1⟩ := tableAt_cons_eq_some.mp h1
  obtain rfl : root = t0 := Option.some.inj h0
  rw [mmPageTable, (swChild_eq_some.mp h1).2, (swChild_eq_some.mp h2).2, (swChild_eq_some.mp h3).2]

theorem mmGetPagePermissions_of_leafEntry {m : Mem} {root u w : Nat} (h : leafEntry m root u = some w) :
    mmGetPagePermissions m root u = permissionsOf w := by
  obtain ⟨t, ht, rfl⟩ := Option.map_eq_some_iff.mp h
  rw [mmGetPagePermissions, mmPageTable_of_swTable ht]

theorem assignEntry_setEntry (m : Mem) (t : Nat) (i : Fin 512) (f : Field) (v : Nat) {w : Nat} (hw : w < 2 ^ 64) :
    assignEntry (setEntry m t i w) t i f v = setEntry m t i (f.set v w) := by
  rw [assignEntry, entry_setEntry _ _ _ hw]
  exact m.write_write _ _ _ _

/-- The four assignments are one store of the entry. -/
theorem mmSetPagePermissions_of_swTable {m : Mem} {root a t : Nat}
    (ht : swTable m root (mmGetPageIndices a).path = some t) (permissions : BitVec 8) :
    mmSetPagePermissions m root a permissions = setEntry m t (mmGetPageIndices a).p
      (withPermissions permissions (entry m t (mmGetPageIndices a).p)) := by
  have hw := entry_lt m t (mmGetPageIndices a).p
  have hw1 := writeable.set_lt (permissions &&& 1).toNat hw (by decide)
  have hw2 := userAccess.set_lt ((permissions &&& 2) >>> 1).toNat hw1 (by decide)
  have hw3 := executionDisabled.set_lt ((permissions &&& 4) >>> 2).toNat hw2 (by decide)
  simp only [mmSetPagePermissions, mmPageTable_of_swTable ht]
  rw [show assignEntry m t (mmGetPageIndices a).p writeable (permissions &&& 1).toNat = setEntry m t (mmGetPageIndices a).p
      (writeable.set (permissions &&& 1).toNat (entry m t (mmGetPageIndices a).p)) from rfl,
    assignEntry_setEntry _ _ _ _ _ hw1, assignEntry_setEntry _ _ _ _ _ hw2, assignEntry_setEntry _ _ _ _ _ hw3]
  rfl

/-- `MmPageSet(address, field)` and `MmPageClear(address, field)`. -/
inductive PermOp where
  | set (address : Nat) (field : BitVec 8)
  | clear (address : Nat) (field : BitVec 8)
deriving DecidableEq, Repr

namespace PermOp

def address : PermOp → Nat
  | set a _ => a
  | clear a _ => a

def exec (root : Nat) (m : Mem) : PermOp → Mem
  | set a f => mmPageSet m root a f
  | clear a f => mmPageClear m root a f

/-- What a call is to do with the permissions of its page. -/
def change (permissions : BitVec 8) : PermOp → BitVec 8
  | set _ f => permissions ||| (f &&& 0xF)
  | clear _ f => permissions &&& ~~~(f &&& 0xF)

/-- The value that is assigned, of the permissions `p` that were read. -/
def assigned (p : BitVec 8) : PermOp → BitVec 8
  | set _ f => p ||| f
  | clear _ f => p &&& ~~~f

theorem assigned_land {p : BitVec 8} (hp : p &&& 0xF = p) (o : PermOp) : o.assigned p &&& 0xF = o.change p := by
  cases o with
  | set a f =>
      rw [assigned, change, ← hp]
      ext i
      simp only [BitVec.getElem_and, BitVec.getElem_or]
      rw [Bool.and_or_distrib_right, Bool.and_assoc, Bool.and_self]
  | clear a f =>
      rw [assigned, change, ← hp]
      ext i hi
      simp only [BitVec.getElem_and, BitVec.getElem_not]
      cases (0xF : BitVec 8)[i] <;> simp

theorem exec_of_swTable {m : Mem} {root t : Nat} {o : PermOp}
    (ht : swTable m root (mmGetPageIndices o.address).path = some t) :
    o.exec root m = setEntry m t (mmGetPageIndices o.address).p
      (withPermissions (o.assigned (permissionsOf (entry m t (mmGetPageIndices o.address).p)))
        (entry m t (mmGetPageIndices o.address).p)) := by
  cases o with
  | set a f =>
      have ha : mmPageTable m root (mmGetPageIndices a) = t := mmPageTable_of_swTable ht
      rw [exec, mmPageSet, mmSetPagePermissions_of_swTable (a := a) ht, mmGetPagePermissions, ha]
      rfl
  | clear a f =>
      have ha : mmPageTable m root (mmGetPageIndices a) = t := mmPageTable_of_swTable ht
      rw [exec, mmPageClear, mmSetPagePermissions_of_swTable (a := a) ht, mmGetPagePermissions, ha]
      rfl

end PermOp

/-! ## Sequences of calls -/

/-- The memory after the calls `ops`. -/
def permRun (root : Nat) (m : Mem) (ops : List PermOp) : Mem := ops.foldl (PermOp.exec root) m

/-- The call is on the page of `u`. -/
def PermOp.samePage (u : Nat) (o : PermOp) : Bool := decide (pageNumber o.address = pageNumber u)

/-- The permissions of the page of `u` after the calls `ops`, from the permissions before them. -/
def permissionsAfter (u : Nat) (ops : List PermOp) (permissions : BitVec 8) : BitVec 8 :=
  (ops.filter (PermOp.samePage u)).foldl PermOp.change permissions

theorem permissionsAfter_cons (u : Nat) (o : PermOp) (ops : List PermOp) (permissions : BitVec 8) :
    permissionsAfter u (o :: ops) permissions =
      permissionsAfter u ops (if pageNumber u = pageNumber o.address then o.change permissions else permissions) := by
  unfold permissionsAfter
  by_cases h : pageNumber u = pageNumber o.address
  · rw [List.filter_cons_of_pos (by simp [PermOp.samePage, h]), List.foldl_cons, if_pos h]
  · rw [List.filter_cons_of_neg (by simp [PermOp.samePage, Ne.symm h]), if_neg h]

section
variable {D : List (Fin 512) → Prop} (hD : TailClosed D) (hshort : ∀ p, D p → p.length ≤ 3) {root : Nat}
  (hroot : root % 4096 = 0)
include hD hshort hroot

/-- **One call** keeps the tree, changes the permissions in the leaf entry of its page and leaves the leaf entries of
all other pages alone. -/
theorem PermOp.leafEntry_exec {m : Mem} (hno : NoAlias swChild (entry m) root D) {o : PermOp} {w : Nat}
    (hpath : D (mmGetPageIndices o.address).path) (hw : leafEntry m root o.address = some w) :
    TreeKept D root m (o.exec root m) ∧ ∀ u, D (mmGetPageIndices u).path → leafEntry (o.exec root m) root u =
      if pageNumber u = pageNumber o.address then some (withPermissions (o.assigned (permissionsOf w)) w)
      else leafEntry m root u := by
  obtain ⟨t, ht, rfl⟩ := Option.map_eq_some_iff.mp hw
  rw [o.exec_of_swTable ht]
  refine ⟨treeKept_setLeaf hD hshort hroot hno hpath rfl ht _ _, fun u hu => ?_⟩
  exact leafEntry_setLeaf hD hshort hroot hno hpath ht (withPermissions_lt _ (entry_lt _ _ _)) hu

theorem leafEntry_permRun {m : Mem} (hno : NoAlias swChild (entry m) root D) {ops : List PermOp}
    (hops : ∀ o ∈ ops, D (mmGetPageIndices o.address).path ∧ ∃ w, leafEntry m root o.address = some w) :
    TreeKept D root m (permRun root m ops) ∧ ∀ u w, D (mmGetPageIndices u).path → leafEntry m root u = some w →
      ∃ w', leafEntry (permRun root m ops) root u = some w' ∧ entryFrame w' = entryFrame w ∧
        permissionsOf w' = permissionsAfter u ops (permissionsOf w) := by
  induction ops generalizing m with
  | nil => exact ⟨TreeKept.refl D root m, fun u w _ hw => ⟨w, hw, rfl, rfl⟩⟩
  | cons o ops ih =>
      obtain ⟨hpath, wo, hwo⟩ := hops o List.mem_cons_self
      obtain ⟨hkept, hleaf⟩ := o.leafEntry_exec hD hshort hroot hno hpath hwo
      have hops' : ∀ c ∈ ops, D (mmGetPageIndices c.address).path ∧
          ∃ w, leafEntry (o.exec root m) root c.address = some w := by
        intro c hc
        obtain ⟨hcpath, w, hw⟩ := hops c (List.mem_cons_of_mem _ hc)
        refine ⟨hcpath, ?_⟩
        rw [hleaf _ hcpath]
        split_ifs
        · exact ⟨_, rfl⟩
        · exact ⟨w, hw⟩
      obtain ⟨hkept', hrun⟩ := ih (hno.congr hkept.tables) hops'
      refine ⟨hkept.trans hkept', fun u w hu hw => ?_⟩
      rw [permissionsAfter_cons]
      by_cases hpage : pageNumber u = pageNumber o.address
      · -- the entry of the call's own page
        obtain rfl : wo = w := Option.some.inj (hwo.symm.trans ((leafEntry_congr hpage).symm.trans hw))
        obtain ⟨w', hw', hframe, hperm⟩ := hrun u _ hu ((hleaf u hu).trans (if_pos hpage))
        refine ⟨w', hw', hframe.trans (entryFrame_withPermissions _ _), ?_⟩
        rw [if_pos hpage, hperm, permissionsOf_withPermissions, PermOp.assigned_land (permissionsOf_land wo)]
      · rw [if_neg hpage]
        exact hrun u w hu ((hleaf u hu).trans ((if_neg hpage).trans hw))

end

/-- **The permissions after any sequence of calls.** In every hierarchy whose tables are different for different paths,
for calls on mapped addresses: the permissions of a mapped page are those it had, with the bits of the calls on that
page set and cleared in call order; translations and directory entries stay. -/
theorem page_permissions_run {m : Mem} {root : Nat} (hroot : root % 4096 = 0)
    (hnoAlias : NoAlias swChild (entry m) root fun p => p.length ≤ 3) {ops : List PermOp}
    (hmapped : ∀ o ∈ ops, Mapped m root o.address) :
    (∀ u, Mapped m root u →
      mmGetPagePermissions (permRun root m ops) root u =
        (ops.filter (PermOp.samePage u)).foldl PermOp.change (mmGetPagePermissions m root u) ∧
      mmGetPhysicalAddress (permRun root m ops) root u = mmGetPhysicalAddress m root u) ∧
    ∀ p t i, p.length ≤ 2 → swTable m root p = some t → entry (permRun root m ops) t i = entry m t i := by
  have htail : TailClosed fun p : List (Fin 512) => p.length ≤ 3 := by
    intro i p hp
    rw [List.length_cons] at hp
    omega
  have hops : ∀ o ∈ ops, (mmGetPageIndices o.address).path.length ≤ 3 ∧ ∃ w, leafEntry m root o.address = some w := by
    intro o ho
    obtain ⟨w, hw, -⟩ := hmapped o ho
    exact ⟨le_refl 3, w, hw⟩
  obtain ⟨hkept, hleaf⟩ := leafEntry_permRun htail (fun _ hp => hp) hroot hnoAlias hops
  refine ⟨fun u hu => ?_, fun p t i hp ht => hkept.directories p t i (by omega) hp ht⟩
  obtain ⟨w, hw, -⟩ := hu
  obtain ⟨w', hw', hframe, hperm⟩ := hleaf u w (le_refl 3) hw
  rw [mmGetPagePermissions_of_leafEntry hw, mmGetPagePermissions_of_leafEntry hw', mmGetPhysicalAddress_of_leafEntry hw,
    mmGetPhysicalAddress_of_leafEntry hw', hframe]
  exact ⟨hperm, rfl⟩

/-- A hierarchy at `0x1000` that maps the first page to `0x200000`. -/
def onePage : Mem :=
  setEntry (setEntry (setEntry (setEntry (fun _ => 0) 0x1000 0 (fillEntry 2 0)) 0x2000 0 (fillEntry 3 0))
    0x3000 0 (fillEntry 4 0)) 0x4000 0 (fillEntry 0x200 0)

theorem entry_onePage {n : Nat} (hn : n ≤ 2) (i : Fin 512) :
    entry onePage (0x1000 * (n + 1)) i = if i = 0 then fillEntry (n + 2) 0 else 0 := by
  by_cases hi : i = 0
  · subst hi
    interval_cases n <;> decide +kernel
  · have hzero : ∀ g, g % 4096 = 0 → entry onePage g i = 0 := by
      intro g hg
      have hne : ∀ t, (g, i) ≠ (t, (0 : Fin 512)) := fun t h => hi (Prod.mk.inj h).2
      unfold onePage
      rw [entry_setEntry_of_ne _ _ (by decide) hg (hne _), entry_setEntry_of_ne _ _ (by decide) hg (hne _),
        entry_setEntry_of_ne _ _ (by decide) hg (hne _), entry_setEntry_of_ne _ _ (by decide) hg (hne _)]
      rfl
    rw [if_neg hi]
    exact hzero _ (by omega)

theorem swTable_onePage {p : List (Fin 512)} {f : Nat} (hp : p.length ≤ 3) (h : swTable onePage 0x1000 p = some f) :
    p = List.replicate p.length 0 ∧ f = 0x1000 * (p.length + 1) := by
  induction p generalizing f with
  | nil => exact ⟨rfl, (Option.some.inj h).symm⟩
  | cons i p ih =>
      rw [List.length_cons] at hp
      obtain ⟨g, hg, hc⟩ := tableAt_cons_eq_some.mp h
      obtain ⟨hpath, rfl⟩ := ih (by omega) hg
      rw [entry_onePage (by omega)] at hc
      obtain ⟨hpres, hframe⟩ := swChild_eq_some.mp hc
      split_ifs at hpres hframe with hi
      · subst hi
        refine ⟨by rw [List.length_cons, List.replicate_succ, ← hpath], ?_⟩
        rw [← hframe, entryFrame_eq, pagePpn_fillEntry, List.length_cons]
        omega
      · exact absurd rfl hpres

/-- User access and NX are set, with a bit past the four; then the write bit is cleared. -/
theorem page_permissions_run_one :
    mmGetPagePermissions (permRun 0x1000 onePage [.set 0x10 0x16, .clear 0xFFF 0x1]) 0x1000 0x123 = 0x6 := by
  have hmapped : ∀ u, pageNumber u = pageNumber 0 → Mapped onePage 0x1000 u := by
    intro u hu
    exact ⟨fillEntry 0x200 0, (leafEntry_congr hu).trans (by decide +kernel), by decide +kernel⟩
  have hno : NoAlias swChild (entry onePage) 0x1000 fun p => p.length ≤ 3 := by
    intro p q f hp hq hpf hqf
    obtain ⟨hp', hf⟩ := swTable_onePage hp hpf
    obtain ⟨hq', hf'⟩ := swTable_onePage hq hqf
    rw [hp', hq', show p.length = q.length by omega]
  have hops : ∀ o ∈ [PermOp.set 0x10 0x16, PermOp.clear 0xFFF 0x1], Mapped onePage 0x1000 o.address := by
    intro o ho
    apply hmapped
    rcases List.mem_cons.mp ho with rfl | ho
    · decide
    · rw [List.mem_singleton.mp ho]
      decide
  have hrun := ((page_permissions_run (by decide) hno hops).1 0x123 (hmapped _ (by decide))).1
  rw [hrun]
  decide +kernel

end Gewodsys.Mem
