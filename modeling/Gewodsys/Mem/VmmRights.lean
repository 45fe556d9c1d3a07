import Gewodsys.Mem.VmmHw
import Gewodsys.Mem.VmmPerm

/-!
# Access rights

The processor combines the rights of all entries of its walk, `MmGetPagePermissions` reports those of the last one.

* `hwRights` : the rights of the processor's walk;
* `DirGrows` : the entries of the directories over runs of `MmMapMemory`, `MmPageSet` and `MmPageClear`;
* `vmRun_leaf` : the permissions of a page over such a run;
* `hwRights_created` : the rights of a page whose tables were all created by `MmMapMemory`;
* `rights_reported_iff` : when the rights reported are those the processor gives.
-/

namespace Gewodsys.Mem
open Gewodsys.Machine Gewodsys.Lib

/-! ## The rights of a walk -/

structure Rights where
  write : Bool
  user : Bool
  nx : Bool
deriving DecidableEq, Repr

/-- The entries that the processor reads for `u`, when all of them are present. -/
def hwEntries (m : Mem) (root u : Nat) : Option (List Nat) :=
  let x := mmGetPageIndices u
  let pml4e := entry m root x.pdp
  if present.get pml4e = 0 then none else
  let pdpte := entry m (hwFrame pml4e) x.pd
  if present.get pdpte = 0 then none else
  if isMapped.get pdpte = 1 then some [pml4e, pdpte] else
  let pde := entry m (hwFrame pdpte) x.pt
  if present.get pde = 0 then none else
  if isMapped.get pde = 1 then some [pml4e, pdpte, pde] else
  let pte := entry m (hwFrame pde) x.p
  if present.get pte = 0 then none else some [pml4e, pdpte, pde, pte]

/-- Writing and user access need the bit at every level; execution is disabled by the bit at any level. -/
def rightsOf (entries : List Nat) : Rights :=
  { write := entries.all fun w => decide (writeable.get w = 1)
    user := entries.all fun w => decide (userAccess.get w = 1)
    nx := entries.any fun w => decide (executionDisabled.get w = 1) }

def hwRights (m : Mem) (root u : Nat) : Option Rights := (hwEntries m root u).map rightsOf

def pageWriteBit : BitVec 8 := 0x1
def pageUserBit : BitVec 8 := 0x2
def pageNxBit : BitVec 8 := 0x4

/-- The rights in the answer of `MmGetPagePermissions`. -/
def reportedRights (permissions : BitVec 8) : Rights :=
  { write := decide (permissions &&& pageWriteBit ≠ 0)
    user := decide (permissions &&& pageUserBit ≠ 0)
    nx := decide (permissions &&& pageNxBit ≠ 0) }

theorem reportedRights_permissionsOf (w : Nat) :
    reportedRights (permissionsOf w) = ⟨decide (writeable.get w = 1), decide (userAccess.get w = 1),
      decide (executionDisabled.get w = 1)⟩ := by
  have hbits : ∀ a < 2, ∀ b < 2, ∀ c < 2, ∀ d < 2, reportedRights (BitVec.ofNat 8 a ||| BitVec.ofNat 8 (b <<< 1) |||
      BitVec.ofNat 8 (c <<< 2) ||| BitVec.ofNat 8 (d <<< 3)) = ⟨decide (a = 1), decide (b = 1), decide (c = 1)⟩ := by
    decide +kernel
  exact permission_bits hbits w

theorem writeable_fillEntry (ppn w : Nat) : writeable.get (fillEntry ppn w) = 1 := by
  rw [fillEntry, Field.get_set]
  rfl

theorem permissionsOf_fillEntry (ppn w : Nat) : permissionsOf (fillEntry ppn w) = permissionsOf w ||| 1 := by
  have hbits : ∀ a < 2, ∀ b < 2, ∀ c < 2, ∀ d < 2, BitVec.ofNat 8 1 ||| BitVec.ofNat 8 (b <<< 1) |||
      BitVec.ofNat 8 (c <<< 2) ||| BitVec.ofNat 8 (d <<< 3) = (BitVec.ofNat 8 a ||| BitVec.ofNat 8 (b <<< 1) |||
        BitVec.ofNat 8 (c <<< 2) ||| BitVec.ofNat 8 (d <<< 3)) ||| 1 := by
    decide +kernel
  rw [permissionsOf, writeable_fillEntry, get_fillEntry (by decide) (by decide) (by decide),
    get_fillEntry (by decide) (by decide) (by decide), get_fillEntry (by decide) (by decide) (by decide)]
  exact permission_bits hbits w

/-! ## Directories over a run -/

/-- How the directories change: no table moves, and an entry stays or was absent and is filled. -/
structure DirGrows (A : Set Nat) (root : Nat) (m m' : Mem) : Prop where
  tables : TablesKept A root m m'
  entries : ∀ q g j, Involved A q → q.length ≤ 2 → swTable m' root q = some g →
    EntryStep (oldEntry root m q g j) (entry m' g j)

section
variable {A : Set Nat} {root : Nat}

theorem DirGrows.refl (m : Mem) : DirGrows A root m m :=
  ⟨fun _ _ _ h => h, fun _ _ _ _ _ h => Or.inl (oldEntry_of_some h).symm⟩

theorem DirGrows.trans {m₁ m₂ m₃ : Mem} (h₁ : DirGrows A root m₁ m₂) (h₂ : DirGrows A root m₂ m₃) :
    DirGrows A root m₁ m₃ := by
  refine ⟨fun q g hq hg => h₂.tables q g hq (h₁.tables q g hq hg), fun q g j hq hlen hg => ?_⟩
  have hstep := h₂.entries q g j hq hlen hg
  rcases h₁.tables.oldEntry_cases h₂.tables hq hg j with he | ⟨he, hmid⟩
  · rwa [he] at hstep
  · rw [he] at hstep
    exact (h₁.entries q g j hq hlen hmid).trans hstep

theorem TreeKept.dirGrows {m m' : Mem} (h : TreeKept (Involved A) root m m') : DirGrows A root m m' := by
  refine ⟨fun q g hq hg => (h.tables q hq).trans hg, fun q g j hq hlen hg => Or.inl ?_⟩
  have hg' := (h.tables q hq).symm.trans hg
  rw [oldEntry_of_some hg', h.directories q g j hq hlen hg']

theorem Grows.dirGrows {σ : Type} {src : PageSource σ} {F F' : Set Nat} {m m' : Mem} (h : Grows src A root F F' m m') :
    DirGrows A root m m' :=
  ⟨h.tables, fun q g j hq _ hg => h.entries q g j hq hg⟩

/-- The last entry of the walk to `u`; zero where there is no table yet. -/
def leafWord (m : Mem) (root u : Nat) : Nat := (leafEntry m root u).getD 0

theorem oldEntry_eq_leafWord {m m' : Mem} (h : TablesKept A root m m') {u g : Nat} (hu : u ∈ A)
    (hg : swTable m' root (mmGetPageIndices u).path = some g) :
    oldEntry root m (mmGetPageIndices u).path g (mmGetPageIndices u).p = leafWord m root u := by
  rw [leafWord, leafEntry]
  rcases h.before (involved_path hu) hg with hold | hold
  · rw [oldEntry, if_pos hold, hold, Option.map_none, Option.getD_none]
  · rw [oldEntry_of_some hold, hold, Option.map_some, Option.getD_some]

end

/-! ## Runs -/

/-- `MmMapMemory(v, p)`, `MmPageSet(a, f)` and `MmPageClear(a, f)`. -/
inductive VmOp where
  | map (virtualMemory physicalMemory : Nat)
  | perm (o : PermOp)
deriving DecidableEq, Repr

def VmOp.address : VmOp → Nat
  | .map v _ => v
  | .perm o => o.address

instance (m : Mem) (root u : Nat) : Decidable (Mapped m root u) :=
  decidable_of_iff ((leafEntry m root u).any (fun w => decide (present.get w = 1)) = true) (by
    rw [Option.any_eq_true_iff_get, Mapped]
    constructor
    · rintro ⟨hs, hp⟩
      exact ⟨_, (Option.some_get hs).symm, of_decide_eq_true hp⟩
    · rintro ⟨w, hw, hp⟩
      have hs : (leafEntry m root u).isSome := by rw [hw]; rfl
      have hget : (leafEntry m root u).get hs = w := by simp only [hw, Option.get_some]
      exact ⟨hs, by rw [hget]; exact decide_eq_true hp⟩)

section
variable {σ : Type}

/-- One call; the permissions are changed of mapped pages only. -/
def vmStep (request : Phys σ → Option (Nat × Phys σ)) (root : Nat) (s : Phys σ) : VmOp → Option (Phys σ)
  | .map v p => mmMapMemory request root v p s
  | .perm o => if Mapped s.mem root o.address then some { s with mem := o.exec root s.mem } else none

/-- What a call does to the permissions of the page of `v`. -/
def VmOp.change (v : Nat) (permissions : BitVec 8) : VmOp → BitVec 8
  | .map a _ => if pageNumber v = pageNumber a then permissions ||| 1 else permissions
  | .perm o => if pageNumber v = pageNumber o.address then o.change permissions else permissions

/-- The call maps the page of `v`. -/
def VmOp.Maps (v : Nat) (o : VmOp) : Prop := ∃ a p, o = .map a p ∧ pageNumber v = pageNumber a

variable {src : PageSource σ} {A : Set Nat} {U : Finset (List (Fin 512))} {root : Nat}

theorem Grows.leafWord_eq {F F' : Set Nat} {m m' : Mem} (h : Grows src A root F F' m m') {u : Nat} (hu : u ∈ A) :
    leafWord m' root u = leafWord m root u := by
  cases hg : swTable m' root (mmGetPageIndices u).path with
  | none =>
      have hnone : swTable m root (mmGetPageIndices u).path = none := by
        by_contra hne
        obtain ⟨f, hf⟩ := Option.ne_none_iff_exists'.mp hne
        rw [h.tables _ f (involved_path hu) hf] at hg
        cases hg
      rw [leafWord, leafEntry, hg, leafWord, leafEntry, hnone, Option.map_none, Option.map_none]
  | some g =>
      rw [leafWord, leafEntry, hg, Option.map_some, Option.getD_some, h.leaves _ g _ (involved_path hu) rfl hg]
      exact oldEntry_eq_leafWord h.tables hu hg

theorem Mapped.mono {m m' : Mem} {u : Nat} (h : Mapped m root u) (hword : leafWord m' root u = leafWord m root u)
    (htables : TablesKept A root m m') (hu : u ∈ A) : Mapped m' root u := by
  obtain ⟨w, hw, hp⟩ := h
  obtain ⟨t, ht, rfl⟩ := Option.map_eq_some_iff.mp hw
  have ht' := htables _ t (involved_path hu) ht
  refine ⟨_, by rw [leafEntry, ht', Option.map_some], ?_⟩
  rw [leafWord, leafWord, leafEntry, ht', leafEntry, ht, Option.map_some, Option.map_some, Option.getD_some,
    Option.getD_some] at hword
  rwa [hword]

/-- What a call does to the directories and to the page of `v`. -/
structure VmStepped (A : Set Nat) (root v : Nat) (m m' : Mem) (o : VmOp) : Prop where
  dirs : DirGrows A root m m'
  permissions : permissionsOf (leafWord m' root v) = o.change v (permissionsOf (leafWord m root v))
  mapped : Mapped m root v ∨ o.Maps v → Mapped m' root v

/-- **A call of `MmMapMemory`** fills the directories on its path and the last entry of its own page. -/
theorem vmStep_map {F : Set Nat} {s : Phys σ} (hinv : VmInv src A U root 0 F s) (hU : ∀ p ∈ U, Involved A p) {a : Nat}
    (ha : a < 2 ^ 64) (haA : a ∈ A) (hpaths : tablePaths (mmGetPageIndices a) ⊆ U) (p : Nat) {s' : Phys σ}
    (hstep : mmMapMemory src.request root a p s = some s') {v : Nat} (hv : v ∈ A) :
    ∃ F', VmInv src A U root 0 F' s' ∧ VmStepped A root v s.mem s'.mem (.map a p) := by
  obtain ⟨t, s₁, F', ht, hinv₁, hg, hmap⟩ := mmMapMemory_spec hinv hU ha hpaths p
  obtain rfl := Option.some.inj (hmap.symm.trans hstep)
  have hpath := involved_path haA
  have hkept := treeKept_setLeaf (tailClosed_involved A) (fun _ => Involved.length_le) hinv₁.aligned hinv₁.noAlias hpath
    rfl ht (mmGetPageIndices a).p
  have hleaf := fun w (hw : w < 2 ^ 64) => leafEntry_setLeaf (tailClosed_involved A) (fun _ => Involved.length_le)
    hinv₁.aligned hinv₁.noAlias hpath ht hw (involved_path hv)
  have hword : ∀ u ∈ A, leafWord s₁.mem root u = leafWord s.mem root u := fun u hu => hg.leafWord_eq hu
  have hold : entry s₁.mem t (mmGetPageIndices a).p = leafWord s₁.mem root a := by
    rw [leafWord, leafEntry, ht, Option.map_some, Option.getD_some]
  have hnew := hleaf _ (fillEntry_lt ((p &&& 0xfffffffffffff000) >>> 12) (entry_lt s₁.mem t (mmGetPageIndices a).p))
  refine ⟨F', hinv₁.setLeaf hU hpath rfl ht _ _, hg.dirGrows.trans (hkept _).dirGrows, ?_, fun hor => ?_⟩
  · rw [leafWord, hnew, VmOp.change]
    by_cases hpage : pageNumber v = pageNumber a
    · rw [if_pos hpage, if_pos hpage, Option.getD_some, permissionsOf_fillEntry, hold, hword a haA, leafWord, leafWord,
        leafEntry_congr hpage]
    · rw [if_neg hpage, if_neg hpage]
      exact congrArg permissionsOf (hword v hv)
  · by_cases hpage : pageNumber v = pageNumber a
    · exact ⟨_, hnew.trans (if_pos hpage), present_fillEntry _ _⟩
    · rcases hor with hmapped | ⟨a', p', he, hsame⟩
      · obtain ⟨w, hw, hp⟩ := hmapped.mono (hword v hv) hg.tables hv
        exact ⟨w, hnew.trans ((if_neg hpage).trans hw), hp⟩
      · obtain ⟨rfl, -⟩ := VmOp.map.inj he
        exact absurd hsame hpage

/-- **A call of `MmPageSet` or `MmPageClear`** changes the last entry of its own page only. -/
theorem vmStep_perm {F : Set Nat} {s : Phys σ} (hinv : VmInv src A U root 0 F s) (hU : ∀ p ∈ U, Involved A p) {o : PermOp}
    (hoA : o.address ∈ A) (hmap : Mapped s.mem root o.address) {v : Nat} (hv : v ∈ A) :
    VmInv src A U root 0 F { s with mem := o.exec root s.mem } ∧
      VmStepped A root v s.mem (o.exec root s.mem) (.perm o) := by
  obtain ⟨w, hw, hp⟩ := hmap
  obtain ⟨hkept, hleaf⟩ := o.leafEntry_exec (tailClosed_involved A) (fun _ => Involved.length_le) hinv.aligned
    hinv.noAlias (involved_path hoA) hw
  have hnew := hleaf v (involved_path hv)
  refine ⟨?_, hkept.dirGrows, ?_, fun hor => ?_⟩
  · obtain ⟨t, ht, -⟩ := Option.map_eq_some_iff.mp hw
    rw [o.exec_of_swTable ht]
    exact hinv.setLeaf hU (involved_path hoA) rfl ht _ _
  · rw [leafWord, hnew, VmOp.change]
    by_cases hpage : pageNumber v = pageNumber o.address
    · rw [if_pos hpage, if_pos hpage, Option.getD_some, permissionsOf_withPermissions,
        PermOp.assigned_land (permissionsOf_land w), leafWord, leafEntry_congr hpage, hw, Option.getD_some]
    · rw [if_neg hpage, if_neg hpage, leafWord]
  · by_cases hpage : pageNumber v = pageNumber o.address
    · exact ⟨_, hnew.trans (if_pos hpage), (present_withPermissions _ _).trans hp⟩
    · rcases hor with ⟨w', hw', hp'⟩ | ⟨a, p, he, -⟩
      · exact ⟨w', hnew.trans ((if_neg hpage).trans hw'), hp'⟩
      · cases he

theorem vmRun_leaf (hU : ∀ p ∈ U, Involved A p) {ops : List VmOp} (hA : ∀ o ∈ ops, o.address ∈ A)
    (hmaps : ∀ a p, VmOp.map a p ∈ ops → a < 2 ^ 64 ∧ tablePaths (mmGetPageIndices a) ⊆ U) {F : Set Nat} {s s' : Phys σ}
    (hinv : VmInv src A U root 0 F s) (hrun : run (vmStep src.request root) s ops = some s') {v : Nat} (hv : v ∈ A) :
    DirGrows A root s.mem s'.mem ∧
      permissionsOf (leafWord s'.mem root v) = ops.foldl (VmOp.change v) (permissionsOf (leafWord s.mem root v)) ∧
      (Mapped s.mem root v ∨ (∃ o ∈ ops, o.Maps v) → Mapped s'.mem root v) := by
  induction ops generalizing s F with
  | nil =>
      obtain rfl := Option.some.inj hrun
      refine ⟨DirGrows.refl _, rfl, fun h => h.resolve_right ?_⟩
      rintro ⟨o, ho, -⟩
      cases ho
  | cons o ops ih =>
      obtain ⟨s₁, hstep, hrest⟩ := run_cons_eq_some.mp hrun
      obtain ⟨F₁, hinv₁, hs₁⟩ : ∃ F₁, VmInv src A U root 0 F₁ s₁ ∧ VmStepped A root v s.mem s₁.mem o := by
        have hoA := hA o List.mem_cons_self
        cases o with
        | map a p =>
            obtain ⟨ha, hpaths⟩ := hmaps a p List.mem_cons_self
            exact vmStep_map hinv hU ha hoA hpaths p hstep hv
        | perm o =>
            rw [vmStep] at hstep
            split_ifs at hstep with hmapped
            obtain rfl := Option.some.inj hstep
            exact ⟨F, vmStep_perm hinv hU hoA hmapped hv⟩
      obtain ⟨hdirs, hperm, hmapped⟩ := ih (fun c hc => hA c (List.mem_cons_of_mem _ hc))
        (fun a p hmem => hmaps a p (List.mem_cons_of_mem _ hmem)) hinv₁ hrest
      refine ⟨hs₁.dirs.trans hdirs, ?_, fun hor => hmapped ?_⟩
      · rw [List.foldl_cons, hperm, hs₁.permissions]
      · rcases hor with h | ⟨c, hc, hcv⟩
        · exact Or.inl (hs₁.mapped (Or.inl h))
        · rcases List.mem_cons.mp hc with rfl | hc
          · exact Or.inl (hs₁.mapped (Or.inr hcv))
          · exact Or.inr ⟨c, hc, hcv⟩

end

/-! ## Pages whose tables were created by `MmMapMemory` -/

theorem EntryStep.filled {w w' : Nat} (h : EntryStep w w') (habsent : present.get w = 0) (hpresent : present.get w' ≠ 0) :
    ∃ ppn, w' = fillEntry ppn w := by
  rcases h with rfl | ⟨-, ppn, he⟩
  · exact absurd habsent hpresent
  · exact ⟨ppn, he⟩

/-- The entries of a walk through tables that were all created in a run: the first directory entry was filled, the
others lie in cleared tables. -/
theorem created_entries {A : Set Nat} {root v : Nat} (hv : v ∈ A) {m m' : Mem} (hdirs : DirGrows A root m m')
    (habsent : present.get (entry m root (mmGetPageIndices v).pdp) = 0) {t : Nat}
    (ht : swTable m' root (mmGetPageIndices v).path = some t) :
    ∃ p₁ p₂ p₃,
      entry m' root (mmGetPageIndices v).pdp = fillEntry p₁ (entry m root (mmGetPageIndices v).pdp) ∧
      entry m' (entryFrame (fillEntry p₁ (entry m root (mmGetPageIndices v).pdp))) (mmGetPageIndices v).pd =
        fillEntry p₂ 0 ∧
      entry m' (entryFrame (fillEntry p₂ 0)) (mmGetPageIndices v).pt = fillEntry p₃ 0 ∧
      entryFrame (fillEntry p₃ 0) = t := by
  obtain ⟨x, hx⟩ : ∃ x, x = mmGetPageIndices v := ⟨_, rfl⟩
  have hpath := involved_path hv
  rw [← hx] at hpath habsent ht ⊢
  have htail := tailClosed_involved A
  have hpath2 := htail _ _ hpath
  have hpath1 := htail _ _ hpath2
  have hpath0 := htail _ _ hpath1
  obtain ⟨t₂, ht₂, hc₃⟩ := tableAt_cons_eq_some.mp ht
  obtain ⟨t₁, ht₁, hc₂⟩ := tableAt_cons_eq_some.mp ht₂
  obtain ⟨t₀, ht₀, hc₁⟩ := tableAt_cons_eq_some.mp ht₁
  obtain rfl : root = t₀ := Option.some.inj ht₀
  obtain ⟨hp₁, hf₁⟩ := swChild_eq_some.mp hc₁
  obtain ⟨hp₂, hf₂⟩ := swChild_eq_some.mp hc₂
  obtain ⟨hp₃, hf₃⟩ := swChild_eq_some.mp hc₃
  -- no table below the root existed before the run
  have hnone₁ : swTable m root [x.pdp] = none := by rw [swTable, tableAt_cons_of rfl, swChild, if_pos habsent]
  have hnone₂ : swTable m root [x.pd, x.pdp] = none := tableAt_cons_of_none hnone₁
  have hs₁ := hdirs.entries [] root x.pdp hpath0 (by simp) rfl
  have hs₂ := hdirs.entries [x.pdp] t₁ x.pd hpath1 (by simp) ht₁
  have hs₃ := hdirs.entries [x.pd, x.pdp] t₂ x.pt hpath2 (by simp) ht₂
  rw [oldEntry_of_some (show swTable m root [] = some root from rfl)] at hs₁
  rw [oldEntry, if_pos hnone₁] at hs₂
  rw [oldEntry, if_pos hnone₂] at hs₃
  obtain ⟨p₁, he₁⟩ := hs₁.filled habsent hp₁
  obtain ⟨p₂, he₂⟩ := hs₂.filled rfl hp₂
  obtain ⟨p₃, he₃⟩ := hs₃.filled rfl hp₃
  rw [he₁] at hf₁
  rw [he₂] at hf₂
  rw [he₃] at hf₃
  exact ⟨p₁, p₂, p₃, he₁, by rw [hf₁, he₂], by rw [hf₂, he₃], hf₃⟩

/-- **The rights of such a page**: no user access, since the directories created have none; the NX bit of the first
directory entry is the one found in the absent entry. -/
theorem hwRights_created {A : Set Nat} {root v : Nat} (hv : v ∈ A) {m m' : Mem} (hdirs : DirGrows A root m m')
    (habsent : present.get (entry m root (mmGetPageIndices v).pdp) = 0)
    (hreserved : reserved1.get (entry m root (mmGetPageIndices v).pdp) = 0) {w : Nat}
    (hw : leafEntry m' root v = some w) (hp : present.get w = 1) :
    hwRights m' root v = some ⟨decide (writeable.get w = 1), false,
      decide (executionDisabled.get (entry m root (mmGetPageIndices v).pdp) = 1) ||
        decide (executionDisabled.get w = 1)⟩ := by
  obtain ⟨t, ht, rfl⟩ := Option.map_eq_some_iff.mp hw
  obtain ⟨p₁, p₂, p₃, he₁, he₂, he₃, hf₃⟩ := created_entries hv hdirs habsent ht
  have hlow₁ := hwFrame_of_reserved1 ((reserved1_fillEntry p₁ _).trans hreserved)
  have hlow : ∀ ppn, hwFrame (fillEntry ppn 0) = entryFrame (fillEntry ppn 0) := fun ppn =>
    hwFrame_of_reserved1 (reserved1_fillEntry ppn 0)
  have hsmall : ∀ ppn, ¬ isMapped.get (fillEntry ppn 0) = 1 := by
    intro ppn h
    rw [get_fillEntry (by decide) (by decide) (by decide)] at h
    exact absurd h (by decide)
  have hpres : ∀ ppn e, ¬ present.get (fillEntry ppn e) = 0 := by
    intro ppn e
    rw [present_fillEntry]
    decide
  have hentries : hwEntries m' root v = some [fillEntry p₁ (entry m root (mmGetPageIndices v).pdp), fillEntry p₂ 0,
      fillEntry p₃ 0, entry m' t (mmGetPageIndices v).p] := by
    simp only [hwEntries, he₁, hlow₁, he₂, hlow, he₃, hf₃, hpres, hsmall, if_false]
    rw [if_neg (by rw [hp]; decide)]
  have hbit : ∀ ppn, userAccess.get (fillEntry ppn 0) = 0 ∧ executionDisabled.get (fillEntry ppn 0) = 0 := by
    intro ppn
    rw [get_fillEntry (by decide) (by decide) (by decide), get_fillEntry (by decide) (by decide) (by decide)]
    exact ⟨rfl, rfl⟩
  have hnx : ∀ ppn e, executionDisabled.get (fillEntry ppn e) = executionDisabled.get e := fun ppn e =>
    get_fillEntry (by decide) (by decide) (by decide) ppn e
  rw [hwRights, hentries, Option.map_some, rightsOf]
  simp [writeable_fillEntry, hbit, hnx]

/-! ## What is reported -/

/-- Bit `i` of the page of `v` after a call, as the field of the call says. -/
def setsStep (i v : Nat) (b : Bool) : VmOp → Bool
  | .map _ _ => b
  | .perm (.set a f) => if pageNumber v = pageNumber a ∧ f.getLsbD i = true then true else b
  | .perm (.clear a f) => if pageNumber v = pageNumber a ∧ f.getLsbD i = true then false else b

/-- The last call on the page of `v` whose field has bit `i` is a call of `MmPageSet`. -/
def lastSets (i v : Nat) (ops : List VmOp) : Bool := ops.foldl (setsStep i v) false

theorem getLsbD_change {i : Nat} (hi : 0 < i) (hi' : i < 4) (v : Nat) (permissions : BitVec 8) (o : VmOp) :
    (o.change v permissions).getLsbD i = setsStep i v (permissions.getLsbD i) o := by
  have hF : (0xF : BitVec 8).getLsbD i = true := by interval_cases i <;> decide
  have h1 : (1 : BitVec 8).getLsbD i = false := by interval_cases i <;> decide
  have h8 : i < 8 := by omega
  match o with
  | .map a p =>
      rw [VmOp.change, setsStep]
      split_ifs
      · rw [BitVec.getLsbD_or, h1, Bool.or_false]
      · rfl
  | .perm (.set a f) =>
      change (if pageNumber v = pageNumber a then permissions ||| (f &&& 0xF) else permissions).getLsbD i = _
      rw [setsStep]
      by_cases hpage : pageNumber v = pageNumber a
      · rw [if_pos hpage, BitVec.getLsbD_or, BitVec.getLsbD_and, hF]
        cases f.getLsbD i <;> simp [hpage]
      · rw [if_neg hpage, if_neg (fun h => hpage h.1)]
  | .perm (.clear a f) =>
      change (if pageNumber v = pageNumber a then permissions &&& ~~~(f &&& 0xF) else permissions).getLsbD i = _
      rw [setsStep]
      by_cases hpage : pageNumber v = pageNumber a
      · rw [if_pos hpage, BitVec.getLsbD_and, BitVec.getLsbD_not, BitVec.getLsbD_and, hF]
        cases f.getLsbD i <;> simp [hpage, h8]
      · rw [if_neg hpage, if_neg (fun h => hpage h.1)]

/-- The user and NX bits after a run are those that the last call with the bit left. -/
theorem getLsbD_foldl_change {i : Nat} (hi : 0 < i) (hi' : i < 4) (v : Nat) (ops : List VmOp) (permissions : BitVec 8) :
    (ops.foldl (VmOp.change v) permissions).getLsbD i = ops.foldl (setsStep i v) (permissions.getLsbD i) := by
  induction ops generalizing permissions with
  | nil => rfl
  | cons o ops ih => rw [List.foldl_cons, List.foldl_cons, ih, getLsbD_change hi hi']

theorem getLsbD_permissionsOf (w : Nat) :
    (permissionsOf w).getLsbD 1 = decide (userAccess.get w = 1) ∧
      (permissionsOf w).getLsbD 2 = decide (executionDisabled.get w = 1) := by
  have hbits : ∀ a < 2, ∀ b < 2, ∀ c < 2, ∀ d < 2,
      (BitVec.ofNat 8 a ||| BitVec.ofNat 8 (b <<< 1) ||| BitVec.ofNat 8 (c <<< 2) |||
        BitVec.ofNat 8 (d <<< 3)).getLsbD 1 = decide (b = 1) ∧
      (BitVec.ofNat 8 a ||| BitVec.ofNat 8 (b <<< 1) ||| BitVec.ofNat 8 (c <<< 2) |||
        BitVec.ofNat 8 (d <<< 3)).getLsbD 2 = decide (c = 1) := by
    decide +kernel
  exact permission_bits hbits w

/-- The addresses that a run maps. -/
def mapAddresses (ops : List VmOp) : List Nat :=
  ops.filterMap fun o => match o with
    | .map a _ => some a
    | .perm _ => none

theorem created_rights_run {σ : Type} (src : PageSource σ) {root v : Nat} {ops : List VmOp} {A F : Set Nat}
    {s s' : Phys σ} (hroot : root % 4096 = 0) (hops : ∀ o ∈ ops, o.address < 2 ^ 64 ∧ o.address ∈ A) (hv : v ∈ A)
    (hnoAlias : NoAlias swChild (entry s.mem) root (Involved A))
    (htables : ∀ p f, Involved A p → swTable s.mem root p = some f → f ∈ F)
    (hready : src.Ready (missing s.mem root (callPaths (mapAddresses ops))).card F s)
    (habsent : present.get (entry s.mem root (mmGetPageIndices v).pdp) = 0)
    (hreserved : reserved1.get (entry s.mem root (mmGetPageIndices v).pdp) = 0)
    (hrun : run (vmStep src.request root) s ops = some s') (hmap : ∃ o ∈ ops, o.Maps v) :
    ∃ write, hwRights s'.mem root v = some ⟨write, false,
        decide (executionDisabled.get (entry s.mem root (mmGetPageIndices v).pdp) = 1) || lastSets 2 v ops⟩ ∧
      reportedRights (mmGetPagePermissions s'.mem root v) = ⟨write, lastSets 1 v ops, lastSets 2 v ops⟩ := by
  have hmem : ∀ a p, VmOp.map a p ∈ ops → a ∈ mapAddresses ops := fun a p h =>
    List.mem_filterMap.mpr ⟨_, h, rfl⟩
  have hU : ∀ p ∈ callPaths (mapAddresses ops), Involved A p := by
    refine involved_callPaths fun a ha => ?_
    obtain ⟨o, ho, he⟩ := List.mem_filterMap.mp ha
    cases o with
    | map b p => exact Option.some.inj he ▸ (hops _ ho).2
    | perm o => cases he
  obtain ⟨hdirs, hperm, hmapped⟩ := vmRun_leaf hU (fun o ho => (hops o ho).2)
    (fun a p h => ⟨(hops _ h).1, tablePaths_subset_callPaths (hmem a p h)⟩)
    ⟨hroot, hnoAlias, htables, hready⟩ hrun hv
  obtain ⟨w, hw, hp⟩ := hmapped (Or.inr hmap)
  -- no table of `v` existed, so its permissions start from none
  have hstart : leafWord s.mem root v = 0 := by
    have hnone : swTable s.mem root [(mmGetPageIndices v).pdp] = none := by
      rw [swTable, tableAt_cons_of rfl, swChild, if_pos habsent]
    have hpath : swTable s.mem root (mmGetPageIndices v).path = none :=
      tableAt_cons_of_none (tableAt_cons_of_none hnone)
    rw [leafWord, leafEntry, hpath, Option.map_none, Option.getD_none]
  have hword : leafWord s'.mem root v = w := by rw [leafWord, hw, Option.getD_some]
  have hzero : permissionsOf 0 = 0 := by decide
  rw [hstart, hword, hzero] at hperm
  obtain ⟨huser, hnx⟩ := getLsbD_permissionsOf w
  rw [hperm, getLsbD_foldl_change (by decide) (by decide)] at huser hnx
  have huser' : lastSets 1 v ops = decide (userAccess.get w = 1) := huser
  have hnx' : lastSets 2 v ops = decide (executionDisabled.get w = 1) := hnx
  refine ⟨decide (writeable.get w = 1), ?_, ?_⟩
  · rw [hwRights_created hv hdirs habsent hreserved hw hp, hnx']
  · rw [mmGetPagePermissions_of_leafEntry hw, reportedRights_permissionsOf, huser', hnx']

/-- **When the rights reported are those the processor gives.** `v` is a page whose tables are all created by the calls
of a run, of which one maps `v`; `A` are the addresses of the calls and `v`. After the run the answer of
`MmGetPagePermissions(v)` is what the walk of the processor gives exactly when the last call with `PAGE_USER_BIT` on the
page does not set it, and the absent entry of the root had no NX bit or the last call with `PAGE_NX_BIT` sets it. -/
theorem rights_reported_iff {σ : Type} (src : PageSource σ) {root v : Nat} {ops : List VmOp} {A F : Set Nat}
    {s s' : Phys σ} (hroot : root % 4096 = 0) (hops : ∀ o ∈ ops, o.address < 2 ^ 64 ∧ o.address ∈ A) (hv : v ∈ A)
    (hnoAlias : NoAlias swChild (entry s.mem) root (Involved A))
    (htables : ∀ p f, Involved A p → swTable s.mem root p = some f → f ∈ F)
    (hready : src.Ready (missing s.mem root (callPaths (mapAddresses ops))).card F s)
    (habsent : present.get (entry s.mem root (mmGetPageIndices v).pdp) = 0)
    (hreserved : reserved1.get (entry s.mem root (mmGetPageIndices v).pdp) = 0)
    (hrun : run (vmStep src.request root) s ops = some s') (hmap : ∃ o ∈ ops, o.Maps v) :
    hwRights s'.mem root v = some (reportedRights (mmGetPagePermissions s'.mem root v)) ↔
      lastSets 1 v ops = false ∧
        (executionDisabled.get (entry s.mem root (mmGetPageIndices v).pdp) = 0 ∨ lastSets 2 v ops = true) := by
  obtain ⟨write, hrights, hreported⟩ := created_rights_run src hroot hops hv hnoAlias htables hready habsent hreserved
    hrun hmap
  have hbit := executionDisabled.get_lt (entry s.mem root (mmGetPageIndices v).pdp)
  rw [hrights, hreported, Option.some.injEq, Rights.mk.injEq]
  constructor
  · rintro ⟨-, hu, hx⟩
    refine ⟨hu.symm, ?_⟩
    by_cases hone : executionDisabled.get (entry s.mem root (mmGetPageIndices v).pdp) = 1
    · rw [decide_eq_true hone, Bool.true_or] at hx
      exact Or.inr hx.symm
    · simp only [executionDisabled] at hbit hone ⊢
      exact Or.inl (by omega)
  · rintro ⟨hu, hx⟩
    refine ⟨rfl, hu.symm, ?_⟩
    rcases hx with hx | hx
    · rw [hx]
      rfl
    · rw [hx, Bool.or_true]

theorem missing_twelveState : (missing twelveState.mem 0x1000 (callPaths [0x400000])).card ≤ 9 :=
  (Finset.card_filter_le _ _).trans (by decide +kernel)

/-- On `twelvePages`, under an empty root, a page is mapped and some of its permissions are set. -/
theorem twelveState_run (f : BitVec 8) : ∃ s', run (vmStep (mmRequestPage 20) 0x1000) twelveState
    [.map 0x400000 0x200000, .perm (.set 0x400000 f)] = some s' := by
  have hinv : VmInv (pmmSource twelvePages lowRegion_twelvePages 20 (by decide +kernel)) {0x400000}
      (callPaths [0x400000]) 0x1000 0 {0x1000} twelveState :=
    ⟨by decide, noAlias_twelveState _,
      tables_twelveState _, ready_twelveState (by rw [Nat.add_zero]; exact missing_twelveState)⟩
  obtain ⟨s₁, F, hmap, -, -, -, ⟨w, hw⟩, -⟩ := mmMapMemory_leaf hinv (involved_callPaths (by simp))
    (v := 0x400000) (by decide) (Set.mem_singleton _) (tablePaths_subset_callPaths List.mem_cons_self) 0x200000
  have hmapped : Mapped s₁.mem 0x1000 (PermOp.set 0x400000 f).address := ⟨_, hw, present_fillEntry _ _⟩
  obtain ⟨s₂, hset⟩ : ∃ s₂, vmStep (mmRequestPage 20) 0x1000 s₁ (.perm (.set 0x400000 f)) = some s₂ := by
    rw [vmStep, if_pos hmapped]
    exact ⟨_, rfl⟩
  exact ⟨s₂, run_cons_eq_some.mpr ⟨s₁, hmap, run_cons_eq_some.mpr ⟨s₂, hset, rfl⟩⟩⟩

theorem mem_twelveState_run {f : BitVec 8} : ∀ o ∈ [VmOp.map 0x400000 0x200000, VmOp.perm (.set 0x400000 f)],
    o.address < 2 ^ 64 ∧ o.address ∈ ({0x400000} : Set Nat) := by
  intro o ho
  rcases List.mem_cons.mp ho with rfl | ho
  · exact ⟨by decide, rfl⟩
  · rw [List.mem_singleton.mp ho]
    exact ⟨by simp [VmOp.address, PermOp.address], rfl⟩

theorem rights_reported_nx : ∃ s', run (vmStep (mmRequestPage 20) 0x1000) twelveState
      [.map 0x400000 0x200000, .perm (.set 0x400000 0x4)] = some s' ∧
    hwRights s'.mem 0x1000 0x400000 = some (reportedRights (mmGetPagePermissions s'.mem 0x1000 0x400000)) := by
  obtain ⟨s', hrun⟩ := twelveState_run 0x4
  have hiff := rights_reported_iff (pmmSource twelvePages lowRegion_twelvePages 20 (by decide +kernel)) (v := 0x400000)
    (by decide) mem_twelveState_run (Set.mem_singleton _)
    (noAlias_twelveState _) (tables_twelveState _) (ready_twelveState missing_twelveState)
    (by rw [entry_twelveState]; rfl) (by rw [entry_twelveState]; rfl) hrun
    ⟨_, List.mem_cons_self, 0x400000, 0x200000, rfl, rfl⟩
  refine ⟨s', hrun, hiff.mpr ⟨by decide, Or.inl ?_⟩⟩
  rw [entry_twelveState]
  rfl

/-- With user access set the page is reported as open to the user; the directories keep it closed. -/
theorem rights_user_closed : ∃ s' write, run (vmStep (mmRequestPage 20) 0x1000) twelveState
      [.map 0x400000 0x200000, .perm (.set 0x400000 0x2)] = some s' ∧
    reportedRights (mmGetPagePermissions s'.mem 0x1000 0x400000) = ⟨write, true, false⟩ ∧
    hwRights s'.mem 0x1000 0x400000 = some ⟨write, false, false⟩ := by
  obtain ⟨s', hrun⟩ := twelveState_run 0x2
  obtain ⟨write, hrights, hreported⟩ := created_rights_run (pmmSource twelvePages lowRegion_twelvePages 20
    (by decide +kernel)) (v := 0x400000) (by decide) mem_twelveState_run (Set.mem_singleton _)
    (noAlias_twelveState _) (tables_twelveState _) (ready_twelveState missing_twelveState)
    (by rw [entry_twelveState]; rfl) (by rw [entry_twelveState]; rfl) hrun
    ⟨_, List.mem_cons_self, 0x400000, 0x200000, rfl, rfl⟩
  have huser : lastSets 1 0x400000 [.map 0x400000 0x200000, .perm (.set 0x400000 0x2)] = true := by decide
  have hnx : lastSets 2 0x400000 [.map 0x400000 0x200000, .perm (.set 0x400000 0x2)] = false := by decide
  rw [huser, hnx] at hreported
  rw [hnx] at hrights
  refine ⟨s', write, hrun, hreported, hrights.trans ?_⟩
  rw [entry_twelveState]
  rfl

end Gewodsys.Mem
