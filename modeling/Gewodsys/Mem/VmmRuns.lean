import Gewodsys.Mem.PmmSource

/-!
# Runs of `MmMapMemory`

* `map_run_translates` : after any sequence of calls `MmGetPhysicalAddress` gives the last page mapped, and what it gave
  before for the pages no call touched;
* `identity_run` : after calls `MmMapMemory(v, v)` an address of a page mapped translates to its low 40 bits, all that
  `page_ppn` keeps;
* `map_fresh_run_disjoint` : with the data pages taken from the allocator as in `MmInitializeHeap`, the pages translate
  to different frames, away from the tables and from the allocator's own pages.
-/

namespace Gewodsys.Mem
open Gewodsys.Machine Gewodsys.Lib

/-! ## The paths of a run -/

/-- The tables that the addresses `vs` need below the root. -/
def callPaths (vs : List Nat) : Finset (List (Fin 512)) :=
  vs.toFinset.biUnion fun v => tablePaths (mmGetPageIndices v)

theorem tablePaths_subset_callPaths {vs : List Nat} {v : Nat} (hv : v ∈ vs) :
    tablePaths (mmGetPageIndices v) ⊆ callPaths vs := by
  intro p hp
  exact Finset.mem_biUnion.mpr ⟨v, List.mem_toFinset.mpr hv, hp⟩

theorem involved_callPaths {A : Set Nat} {vs : List Nat} (hA : ∀ v ∈ vs, v ∈ A) : ∀ p ∈ callPaths vs, Involved A p := by
  intro p hp
  obtain ⟨v, hv, hp⟩ := Finset.mem_biUnion.mp hp
  refine ⟨v, hA v (List.mem_toFinset.mp hv), ?_⟩
  simp only [tablePaths, Finset.mem_insert, Finset.mem_singleton] at hp
  rcases hp with rfl | rfl | rfl
  · exact ⟨[(mmGetPageIndices v).pt, (mmGetPageIndices v).pd], rfl⟩
  · exact ⟨[(mmGetPageIndices v).pt], rfl⟩
  · exact List.suffix_refl _

theorem leafEntry_congr {m : Mem} {root u v : Nat} (h : pageNumber u = pageNumber v) :
    leafEntry m root u = leafEntry m root v := by
  rw [leafEntry, leafEntry, (mmGetPageIndices_eq_iff u v).mpr h]

theorem mmGetPhysicalAddress_of_leafEntry {m : Mem} {root u w : Nat} (h : leafEntry m root u = some w) :
    mmGetPhysicalAddress m root u = entryFrame w ||| (u &&& 0xfff) := by
  obtain ⟨t, ht, rfl⟩ := Option.map_eq_some_iff.mp h
  exact mmGetPhysicalAddress_of_swTable ht

/-! ## Sequences of calls -/

section
variable {σ : Type}

/-- The calls `MmMapMemory(v, p)` for the pairs `(v, p)`, in order. -/
def mapRun (request : Phys σ → Option (Nat × Phys σ)) (root : Nat) (s : Phys σ) (calls : List (Nat × Nat)) :
    Option (Phys σ) :=
  run (fun s c => mmMapMemory request root c.1 c.2 s) s calls

/-- The last call that maps the page of `u`. -/
def lastCall : List (Nat × Nat) → Nat → Option (Nat × Nat)
  | [], _ => none
  | c :: calls, u => (lastCall calls u).or (if pageNumber c.1 = pageNumber u then some c else none)

theorem lastCall_mem {calls : List (Nat × Nat)} {u : Nat} {c : Nat × Nat} (h : lastCall calls u = some c) :
    c ∈ calls := by
  induction calls with
  | nil => cases h
  | cons d calls ih =>
      rw [lastCall, Option.or_eq_some_iff] at h
      rcases h with h | ⟨-, h⟩
      · exact List.mem_cons_of_mem _ (ih h)
      · split_ifs at h
        exact Option.some.inj h ▸ List.mem_cons_self

variable {src : PageSource σ} {A : Set Nat} {U : Finset (List (Fin 512))} {root : Nat}

theorem mapRun_leaf (hU : ∀ p ∈ U, Involved A p) {calls : List (Nat × Nat)}
    (hcalls : ∀ c ∈ calls, c.1 < 2 ^ 64 ∧ c.1 ∈ A ∧ tablePaths (mmGetPageIndices c.1) ⊆ U) {F : Set Nat} {s : Phys σ}
    (hinv : VmInv src A U root 0 F s) :
    ∃ s', mapRun src.request root s calls = some s' ∧ ∀ u ∈ A,
      (∀ c, lastCall calls u = some c →
        ∃ w, leafEntry s'.mem root u = some (fillEntry ((c.2 &&& 0xfffffffffffff000) >>> 12) w)) ∧
      (lastCall calls u = none → ∀ w, leafEntry s.mem root u = some w → leafEntry s'.mem root u = some w) := by
  induction calls generalizing s F with
  | nil => exact ⟨s, rfl, fun u _ => ⟨fun c hc => (by cases hc), fun _ w hw => hw⟩⟩
  | cons c calls ih =>
      obtain ⟨hc64, hcA, hcU⟩ := hcalls c List.mem_cons_self
      obtain ⟨s₁, F₁, hmap, hinv₁, -, -, hleaf, hothers⟩ := mmMapMemory_leaf hinv hU hc64 hcA hcU c.2
      obtain ⟨s', hrun, hs'⟩ := ih (fun d hd => hcalls d (List.mem_cons_of_mem _ hd)) hinv₁
      refine ⟨s', run_cons_eq_some.mpr ⟨s₁, hmap, hrun⟩, fun u hu => ?_⟩
      obtain ⟨hlast, hkeep⟩ := hs' u hu
      rw [lastCall]
      cases hrest : lastCall calls u with
      | some d =>
          refine ⟨fun e he => ?_, fun h => by simp at h⟩
          rw [Option.some_or] at he
          exact hlast e (hrest.trans he)
      | none =>
          rw [Option.none_or]
          by_cases hpage : pageNumber c.1 = pageNumber u
          · rw [if_pos hpage]
            refine ⟨fun e he => ?_, fun h => by cases h⟩
            obtain rfl := Option.some.inj he
            obtain ⟨w, hw⟩ := hleaf
            exact ⟨w, hkeep hrest _ ((leafEntry_congr hpage.symm).trans hw)⟩
          · rw [if_neg hpage]
            exact ⟨fun e he => (by cases he), fun _ w hw => hkeep hrest w (hothers u hu (Ne.symm hpage) w hw)⟩

/-- `u` is mapped: its tables exist and its entry is present. -/
def Mapped (m : Mem) (root u : Nat) : Prop := ∃ w, leafEntry m root u = some w ∧ present.get w = 1

/-- **Sequences of `MmMapMemory` calls.** `A` are the addresses mapped or asked for; the tables on their paths are
different for different paths, and the source has enough pages, none of them a table. -/
theorem map_run_translates (src : PageSource σ) (root : Nat) (calls : List (Nat × Nat)) {A F : Set Nat} {s : Phys σ}
    (hroot : root % 4096 = 0) (hcalls : ∀ c ∈ calls, c.1 < 2 ^ 64 ∧ c.1 ∈ A ∧ c.2 < 2 ^ 40)
    (hnoAlias : NoAlias swChild (entry s.mem) root (Involved A))
    (htables : ∀ p f, Involved A p → swTable s.mem root p = some f → f ∈ F)
    (hready : src.Ready (missing s.mem root (callPaths (calls.map Prod.fst))).card F s) :
    ∃ s', mapRun src.request root s calls = some s' ∧ ∀ u ∈ A,
      (∀ c, lastCall calls u = some c →
        mmGetPhysicalAddress s'.mem root u = (c.2 &&& 0xfffffffffffff000) ||| (u &&& 0xfff)) ∧
      (lastCall calls u = none → Mapped s.mem root u →
        mmGetPhysicalAddress s'.mem root u = mmGetPhysicalAddress s.mem root u) := by
  have hU : ∀ p ∈ callPaths (calls.map Prod.fst), Involved A p := by
    refine involved_callPaths fun v hv => ?_
    obtain ⟨c, hc, rfl⟩ := List.mem_map.mp hv
    exact (hcalls c hc).2.1
  have hsteps : ∀ c ∈ calls, c.1 < 2 ^ 64 ∧ c.1 ∈ A ∧
      tablePaths (mmGetPageIndices c.1) ⊆ callPaths (calls.map Prod.fst) := fun c hc =>
    ⟨(hcalls c hc).1, (hcalls c hc).2.1, tablePaths_subset_callPaths (List.mem_map_of_mem hc)⟩
  obtain ⟨s', hrun, hs'⟩ := mapRun_leaf hU hsteps ⟨hroot, hnoAlias, htables, hready⟩
  refine ⟨s', hrun, fun u hu => ⟨fun c hc => ?_, fun hnone ⟨w, hw, _⟩ => ?_⟩⟩
  · obtain ⟨w, hw⟩ := (hs' u hu).1 c hc
    have hlow := (hcalls c (lastCall_mem hc)).2.2
    have hpage : c.2 &&& 0xfffffffffffff000 = c.2 / 4096 * 4096 := land_page (by omega)
    rw [mmGetPhysicalAddress_of_leafEntry hw, hpage, entryFrame_fillEntry (by omega),
      Nat.mul_div_cancel _ (by decide)]
  · rw [mmGetPhysicalAddress_of_leafEntry hw, mmGetPhysicalAddress_of_leafEntry ((hs' u hu).2 hnone w hw)]

end

theorem lowRegion_twelvePages : LowRegion twelvePages := ⟨⟨by decide, by decide, by decide +kernel⟩, by decide⟩

/-- Physical memory after `MmInitialize` on `twelvePages`, from cleared memory. -/
def twelveState : Phys Pmm := mmInitializeRegion (fun _ => 0) [twelvePages] twelvePages

theorem mmInitialize_twelvePages : mmInitialize (fun _ => 0) [twelvePages] = some twelveState := rfl

theorem entry_twelveState (i : Fin 512) : entry twelveState.mem 0x1000 i = 0 := by
  have hframe := frame_mmInitializeRegion lowRegion_twelvePages (fun _ => 0) [twelvePages]
  refine (entry_frame hframe (fun x hx => ?_) i).trans ?_
  · unfold InPage at hx
    unfold InBitmap
    simp only [twelvePages]
    omega
  · rfl

theorem swTable_twelveState {p : List (Fin 512)} {f : Nat} (h : swTable twelveState.mem 0x1000 p = some f) :
    p = [] ∧ f = 0x1000 := by
  rw [swTable, tableAt_of_empty (fun i => by rw [entry_twelveState i]; rfl)] at h
  split_ifs at h with hp
  exact ⟨hp, (Option.some.inj h).symm⟩

theorem noAlias_twelveState (D : List (Fin 512) → Prop) : NoAlias swChild (entry twelveState.mem) 0x1000 D := by
  intro p q f _ _ hp hq
  rw [(swTable_twelveState hp).1, (swTable_twelveState hq).1]

theorem tables_twelveState (D : List (Fin 512) → Prop) :
    ∀ p f, D p → swTable twelveState.mem 0x1000 p = some f → f ∈ ({0x1000} : Set Nat) :=
  fun _ _ _ hf => (swTable_twelveState hf).2

theorem ready_twelveState {n : Nat} (hn : n ≤ 9) :
    (pmmSource twelvePages lowRegion_twelvePages 20 (by decide +kernel)).Ready n {0x1000} twelveState := by
  have hres : reservedPages twelvePages = 3 := by decide +kernel
  have hpages : regionPages twelvePages = 12 := by decide +kernel
  refine ⟨3, hres ▸ fresh_initialize lowRegion_twelvePages _ _, by omega, by omega, fun f hf => ?_⟩
  rw [Set.mem_singleton_iff.mp hf]
  refine ⟨by decide, fun i _ _ => ?_, fun x hx => ?_⟩
  · simp only [twelvePages]
    omega
  · unfold InPage at hx
    unfold InBitmap
    simp only [twelvePages]
    omega

theorem map_run_translates_twelve : ∃ s', mapRun (mmRequestPage 20) 0x1000 twelveState
    [(0x400000, 0x200000), (0x400000, 0x300000)] = some s' ∧
      mmGetPhysicalAddress s'.mem 0x1000 0x400123 = 0x300123 := by
  have hcard : (missing twelveState.mem 0x1000 (callPaths [0x400000, 0x400000])).card ≤ 9 :=
    (Finset.card_filter_le _ _).trans (by decide +kernel)
  obtain ⟨s', hrun, hs'⟩ := map_run_translates (pmmSource twelvePages lowRegion_twelvePages 20 (by decide +kernel))
    0x1000 [(0x400000, 0x200000), (0x400000, 0x300000)] (A := {0x400000, 0x400123}) (by decide) (by simp)
    (noAlias_twelveState _) (tables_twelveState _)
    (ready_twelveState hcard)
  refine ⟨s', hrun, ?_⟩
  exact (hs' 0x400123 (by simp)).1 (0x400000, 0x300000) (by decide)

/-! ## Pages mapped to themselves -/

theorem identity_frame {u v : Nat} (hpage : pageNumber v = pageNumber u) (hv : v < 2 ^ 64) (w : Nat) :
    entryFrame (fillEntry ((v &&& 0xfffffffffffff000) >>> 12) w) ||| (u &&& 0xfff) = u % 2 ^ 40 := by
  have hoff : u &&& 0xfff = u % 2 ^ 12 := land_low u 12
  rw [entryFrame_eq, pagePpn_fillEntry, land_page hv, Nat.shiftRight_eq_div_pow, hoff,
    lor_eq_add (k := 12) (by omega) (by omega)]
  unfold pageNumber at hpage
  omega

theorem lastCall_eq_none {calls : List (Nat × Nat)} {u : Nat} (h : ∀ c ∈ calls, pageNumber c.1 ≠ pageNumber u) :
    lastCall calls u = none := by
  induction calls with
  | nil => rfl
  | cons c calls ih =>
      rw [lastCall, ih fun d hd => h d (List.mem_cons_of_mem _ hd), Option.none_or, if_neg (h c List.mem_cons_self)]

theorem lastCall_identity {vs : List Nat} {u : Nat} (h : pageNumber u ∈ vs.map pageNumber) :
    ∃ v ∈ vs, lastCall (vs.map fun v => (v, v)) u = some (v, v) ∧ pageNumber v = pageNumber u := by
  induction vs with
  | nil => exact absurd h (by simp)
  | cons v vs ih =>
      rw [List.map_cons, lastCall]
      by_cases hrest : pageNumber u ∈ vs.map pageNumber
      · obtain ⟨v', hv', hlast, hpage⟩ := ih hrest
        exact ⟨v', List.mem_cons_of_mem _ hv', by rw [hlast, Option.some_or], hpage⟩
      · have hpage : pageNumber v = pageNumber u := by
          rw [List.map_cons, List.mem_cons] at h
          exact (h.resolve_right hrest).symm
        have hnone : lastCall (vs.map fun v => (v, v)) u = none := lastCall_eq_none fun c hc hsame => by
          obtain ⟨v', hv', rfl⟩ := List.mem_map.mp hc
          exact hrest (List.mem_map.mpr ⟨v', hv', hsame⟩)
        refine ⟨v, List.mem_cons_self, ?_, hpage⟩
        rw [hnone, Option.none_or, if_pos hpage]

section
variable {σ : Type} {src : PageSource σ} {root : Nat} {A F : Set Nat} {s : Phys σ}

/-- **Calls `MmMapMemory(v, v)`.** `A` are the addresses mapped or asked for; the tables on their paths are different for
different paths, and the source has enough pages, none of them a table. -/
theorem identity_run (vs : List Nat) (hroot : root % 4096 = 0) (hvs : ∀ v ∈ vs, v < 2 ^ 64 ∧ v ∈ A)
    (hnoAlias : NoAlias swChild (entry s.mem) root (Involved A))
    (htables : ∀ p f, Involved A p → swTable s.mem root p = some f → f ∈ F)
    (hready : src.Ready (missing s.mem root (callPaths vs)).card F s) :
    ∃ s', mapRun src.request root s (vs.map fun v => (v, v)) = some s' ∧
      ∀ u ∈ A, pageNumber u ∈ vs.map pageNumber → mmGetPhysicalAddress s'.mem root u = u % 2 ^ 40 := by
  have hU : ∀ p ∈ callPaths vs, Involved A p := involved_callPaths fun v hv => (hvs v hv).2
  have hcalls : ∀ c ∈ vs.map fun v => (v, v),
      c.1 < 2 ^ 64 ∧ c.1 ∈ A ∧ tablePaths (mmGetPageIndices c.1) ⊆ callPaths vs := by
    intro c hc
    obtain ⟨v, hv, rfl⟩ := List.mem_map.mp hc
    exact ⟨(hvs v hv).1, (hvs v hv).2, tablePaths_subset_callPaths hv⟩
  obtain ⟨s', hrun, hs'⟩ := mapRun_leaf hU hcalls ⟨hroot, hnoAlias, htables, hready⟩
  refine ⟨s', hrun, fun u hu hpage => ?_⟩
  obtain ⟨v, hv, hlast, hsame⟩ := lastCall_identity hpage
  obtain ⟨w, hw⟩ := (hs' u hu).1 (v, v) hlast
  rw [mmGetPhysicalAddress_of_leafEntry hw]
  exact identity_frame hsame (hvs v hv).1 w

end

theorem identity_run_twelve {vs : List Nat} (hvs : ∀ v ∈ vs, v < 2 ^ 64) (hcard : (callPaths vs).card ≤ 9) :
    ∃ s', mapRun (mmRequestPage 20) 0x1000 twelveState (vs.map fun v => (v, v)) = some s' ∧
      ∀ u, pageNumber u ∈ vs.map pageNumber → mmGetPhysicalAddress s'.mem 0x1000 u = u % 2 ^ 40 := by
  have hmissing : (missing twelveState.mem 0x1000 (callPaths vs)).card ≤ 9 := (Finset.card_filter_le _ _).trans hcard
  have hroot : 0x1000 % 4096 = 0 := rfl
  obtain ⟨s', hrun, hs'⟩ := identity_run vs hroot (fun v hv => ⟨hvs v hv, Set.mem_univ v⟩) (noAlias_twelveState _)
    (tables_twelveState _) (ready_twelveState hmissing)
  exact ⟨s', hrun, fun u hu => hs' u (Set.mem_univ u) hu⟩

/-! ## Pages mapped to fresh frames -/

section
variable {σ : Type}

/-- `MmMapMemory(v, MmRequestPage())`, the body of the loops of `MmInitializeHeap` and `HeapExpand`. -/
def mapFresh (request : Phys σ → Option (Nat × Phys σ)) (root : Nat) (s : Phys σ) (v : Nat) : Option (Phys σ) :=
  (request s).bind fun (d, s) => mmMapMemory request root v d s

variable {src : PageSource σ} {A : Set Nat} {U : Finset (List (Fin 512))} {root : Nat}

/-- What the page of `v` is mapped to. -/
def LeadsTo (m : Mem) (root v d : Nat) : Prop := ∃ w, leafEntry m root v = some (fillEntry (d >>> 12) w)

/-- A frame that was handed out and is not a table. -/
structure DataFrame (src : PageSource σ) (A : Set Nat) (root : Nat) (F : Set Nat) (s : Phys σ) (d : Nat) : Prop where
  page : src.Page d
  taken : d ∈ F
  aligned : d % 4096 = 0
  low : d < 2 ^ 40
  notTable : ∀ q, Involved A q → swTable s.mem root q ≠ some d

theorem mapFresh_leaf {k : Nat} {F : Set Nat} {s : Phys σ} (hinv : VmInv src A U root (k + 1) F s)
    (hU : ∀ p ∈ U, Involved A p) {v : Nat} (hv : v < 2 ^ 64) (hvA : v ∈ A)
    (hpaths : tablePaths (mmGetPageIndices v) ⊆ U) :
    ∃ d s' F', mapFresh src.request root s v = some s' ∧ VmInv src A U root k F' s' ∧ F ⊆ F' ∧ d ∉ F ∧
      DataFrame src A root F' s' d ∧
      (∀ q g, Involved A q → swTable s'.mem root q = some g → swTable s.mem root q = some g ∨ g ∉ F) ∧
      LeadsTo s'.mem root v d ∧
      ∀ u ∈ A, pageNumber u ≠ pageNumber v → ∀ w, leafEntry s.mem root u = some w →
        leafEntry s'.mem root u = some w := by
  obtain ⟨d, s₁, hreq, hpage, hal, hlt, hdF, hinv₁, hsame, hentry⟩ := hinv.request hU
  obtain ⟨s', F', hmap, hinv', hsub, hfresh, ⟨w, hw⟩, hothers⟩ := mmMapMemory_leaf hinv₁ hU hv hvA hpaths d
  have hd : d ∈ F' := hsub (Set.mem_insert d F)
  refine ⟨d, s', F', by rw [mapFresh, hreq]; exact hmap, hinv', fun f hf => hsub (Set.mem_insert_of_mem d hf), hdF,
    ⟨hpage, hd, hal, hlt, fun q hq hg => ?_⟩, fun q g hq hg => ?_, ⟨w, ?_⟩, fun u hu hne w hw => ?_⟩
  · rcases hfresh q d hq hg with hg | hg
    · exact hdF (hinv.tables q d hq ((hsame q hq).symm.trans hg))
    · exact hg (Set.mem_insert d F)
  · rcases hfresh q g hq hg with hg | hg
    · exact Or.inl ((hsame q hq).symm.trans hg)
    · exact Or.inr fun hF => hg (Set.mem_insert_of_mem d hF)
  · rw [hw, land_page (by omega), Nat.div_mul_cancel (Nat.dvd_of_mod_eq_zero hal)]
  · refine hothers u hu hne w ?_
    obtain ⟨g, hg, rfl⟩ := Option.map_eq_some_iff.mp hw
    rw [leafEntry, hsame _ (involved_path hu), hg, Option.map_some, hentry _ g _ (involved_path hu) hg]

theorem mapFresh_run (hU : ∀ p ∈ U, Involved A p) {vs : List Nat}
    (hvs : ∀ v ∈ vs, v < 2 ^ 64 ∧ v ∈ A ∧ tablePaths (mmGetPageIndices v) ⊆ U) (hdistinct : (vs.map pageNumber).Nodup)
    {F : Set Nat} {s : Phys σ} (hinv : VmInv src A U root vs.length F s) :
    ∃ s' F' ds, run (mapFresh src.request root) s vs = some s' ∧ VmInv src A U root 0 F' s' ∧ F ⊆ F' ∧
      ds.Nodup ∧ List.Forall₂ (LeadsTo s'.mem root) vs ds ∧
      (∀ d ∈ ds, d ∉ F ∧ DataFrame src A root F' s' d) ∧
      (∀ q g, Involved A q → swTable s'.mem root q = some g → swTable s.mem root q = some g ∨ g ∉ F) ∧
      ∀ u ∈ A, pageNumber u ∉ vs.map pageNumber → ∀ w, leafEntry s.mem root u = some w →
        leafEntry s'.mem root u = some w := by
  induction vs generalizing s F with
  | nil =>
      exact ⟨s, F, [], rfl, hinv, subset_refl F, List.nodup_nil, List.Forall₂.nil, by simp, fun q g _ h => Or.inl h,
        fun u _ _ w hw => hw⟩
  | cons v vs ih =>
      obtain ⟨hv64, hvA, hvU⟩ := hvs v List.mem_cons_self
      obtain ⟨hvnew, hdistinct⟩ := List.nodup_cons.mp hdistinct
      obtain ⟨d, s₁, F₁, hstep, hinv₁, hsub₁, hdF, hd, hfresh₁, ⟨w, hw⟩, hothers₁⟩ :=
        mapFresh_leaf hinv hU hv64 hvA hvU
      obtain ⟨s', F', ds, hrun, hinv', hsub', hnodup, hleads, hds, hfresh', hothers'⟩ :=
        ih (fun u hu => hvs u (List.mem_cons_of_mem _ hu)) hdistinct hinv₁
      refine ⟨s', F', d :: ds, run_cons_eq_some.mpr ⟨s₁, hstep, hrun⟩, hinv', hsub₁.trans hsub', ?_, ?_, ?_, ?_, ?_⟩
      · exact List.nodup_cons.mpr ⟨fun hmem => (hds d hmem).1 hd.taken, hnodup⟩
      · exact List.Forall₂.cons ⟨w, hothers' v hvA hvnew _ hw⟩ hleads
      · intro c hc
        rcases List.mem_cons.mp hc with rfl | hc
        · -- a table created later is not a page handed out before
          refine ⟨hdF, hd.page, hsub' hd.taken, hd.aligned, hd.low, fun q hq hg => ?_⟩
          rcases hfresh' q c hq hg with hg | hg
          · exact hd.notTable q hq hg
          · exact hg hd.taken
        · exact ⟨fun hcF => (hds c hc).1 (hsub₁ hcF), (hds c hc).2⟩
      · intro q g hq hg
        rcases hfresh' q g hq hg with hg | hg
        · exact hfresh₁ q g hq hg
        · exact Or.inr fun hF => hg (hsub₁ hF)
      · intro u hu hnew w hw
        rw [List.map_cons, List.mem_cons, not_or] at hnew
        exact hothers' u hu hnew.2 w (hothers₁ u hu hnew.1 w hw)

end

/-- The frame that the page of `v` translates to. -/
def frameOf (m : Mem) (root v : Nat) : Nat := mmGetPhysicalAddress m root v / 4096 * 4096

theorem frameOf_of_leadsTo {m : Mem} {root v d : Nat} (hal : d % 4096 = 0) (hlow : d < 2 ^ 40)
    (h : LeadsTo m root v d) : frameOf m root v = d := by
  obtain ⟨w, hw⟩ := h
  have hoff : v &&& 0xfff < 2 ^ 12 := lt_of_le_of_lt Nat.and_le_right (by decide)
  have hor := Nat.two_pow_add_eq_or_of_lt hoff (d / 2 ^ 12)
  rw [frameOf, mmGetPhysicalAddress_of_leafEntry hw, entryFrame_fillEntry hlow,
    show d / 4096 * 4096 = 2 ^ 12 * (d / 2 ^ 12) by omega, ← hor]
  omega

theorem map_frameOf {m : Mem} {root : Nat} {vs ds : List Nat} (h : List.Forall₂ (LeadsTo m root) vs ds)
    (hds : ∀ d ∈ ds, d % 4096 = 0 ∧ d < 2 ^ 40) : vs.map (frameOf m root) = ds := by
  induction h with
  | nil => rfl
  | @cons v d vs ds hvd _ ih =>
      obtain ⟨hal, hlow⟩ := hds d List.mem_cons_self
      rw [List.map_cons, frameOf_of_leadsTo hal hlow hvd, ih fun c hc => hds c (List.mem_cons_of_mem _ hc)]

/-- **Pages mapped to fresh frames.** `B` are the bootloader's tables, which lie outside the region; the region ends at
or below `2^40`, and the tables on the paths used are different for different paths. Then the pages translate to
different frames, none of them a table, the page of the statistics or a page of the bit map. -/
theorem map_fresh_run_disjoint {m : Mem} {memmap : List MemmapEntry} {e : MemmapEntry} {s : Phys Pmm}
    (hal : PageAligned memmap) (he : largestUsable memmap = some e) (hsize : SizeCheck e)
    (hinit : mmInitialize m memmap = some s) (hlow : e.base + e.length ≤ 2 ^ 40) {fuel : Nat}
    (hfuel : regionPages e < fuel) {root : Nat} (hroot : root % 4096 = 0) {vs : List Nat} (hvs : ∀ v ∈ vs, v < 2 ^ 64)
    (hdistinct : (vs.map pageNumber).Nodup) {B : Set Nat}
    (hB : ∀ f ∈ B, f + 4096 ≤ e.base ∨ e.base + e.length ≤ f)
    (htables : ∀ p f, Involved {v | v ∈ vs} p → swTable s.mem root p = some f → f ∈ B)
    (hnoAlias : NoAlias swChild (entry s.mem) root (Involved {v | v ∈ vs}))
    (henough : reservedPages e + (vs.length + (missing s.mem root (callPaths vs)).card) ≤ regionPages e) :
    ∃ s', run (mapFresh (mmRequestPage fuel) root) s vs = some s' ∧ (vs.map (frameOf s'.mem root)).Nodup ∧
      ∀ v ∈ vs, frameOf s'.mem root v ∉ B ∧
        (∀ p, Involved {v | v ∈ vs} p → swTable s'.mem root p ≠ some (frameOf s'.mem root v)) ∧
        frameOf s'.mem root v ≠ s.pmm.kMemory.firstAvailablePageAddr ∧
        ∀ x, InPage (frameOf s'.mem root v) x →
          ¬ (s.pmm.kMemory.bitfield ≤ x ∧ x < s.pmm.kMemory.bitfield + bitfieldEntries e) := by
  obtain ⟨e', he', hg, rfl⟩ := mmInitialize_eq_some hal
    (fun e' he' => by rw [he] at he'; exact Option.some.inj he' ▸ hsize) hinit
  obtain rfl : e = e' := Option.some.inj (he.symm.trans he')
  have hl : LowRegion e := ⟨hg, hlow⟩
  have hfresh := fresh_initialize hl m memmap
  have hlen := hl.length_eq
  have hbits := bitfieldEntries_le e
  have h3 := three_le_reservedPages e
  have hres := hl.reservedPages_le
  have hU : ∀ p ∈ callPaths vs, Involved {v | v ∈ vs} p := involved_callPaths fun v hv => hv
  have hready : (pmmSource e hl fuel hfuel).Ready ((missing (mmInitializeRegion m memmap e).mem root
      (callPaths vs)).card + vs.length) {f | f ∈ B ∧ f % 4096 = 0} (mmInitializeRegion m memmap e) := by
    refine ⟨reservedPages e, hfresh, le_refl _, by omega, fun f hf => ⟨hf.2, fun i _ hi => ?_, fun x hx => ?_⟩⟩
    · have := hB f hf.1
      omega
    · have := hB f hf.1
      unfold InPage at hx
      unfold InBitmap
      omega
  have hinv : VmInv (pmmSource e hl fuel hfuel) {v | v ∈ vs} (callPaths vs) root vs.length {f | f ∈ B ∧ f % 4096 = 0}
      (mmInitializeRegion m memmap e) :=
    ⟨hroot, hnoAlias, fun p f hp hf => ⟨htables p f hp hf, swTable_aligned hroot hf⟩, hready⟩
  obtain ⟨s', F', ds, hrun, -, -, hnodup, hleads, hds, -, -⟩ := mapFresh_run hU
    (fun v hv => ⟨hvs v hv, hv, tablePaths_subset_callPaths hv⟩) hdistinct hinv
  have hmap := map_frameOf hleads fun d hd => ⟨(hds d hd).2.aligned, (hds d hd).2.low⟩
  refine ⟨s', hrun, hmap ▸ hnodup, fun v hv => ?_⟩
  obtain ⟨hnotF, hdata⟩ := hds (frameOf s'.mem root v) (hmap ▸ List.mem_map_of_mem hv)
  obtain ⟨i, hi, hi', hpage⟩ := hdata.page
  refine ⟨fun hfB => ?_, fun p hp => hdata.notTable p hp, ?_, fun x hx => ?_⟩
  · have := hB _ hfB
    omega
  · rw [hfresh.first]
    omega
  · rw [hfresh.bitfield]
    unfold InPage at hx
    omega

theorem map_fresh_run_disjoint_twelve : ∃ s', run (mapFresh (mmRequestPage 20) 0x1000) twelveState
    [0x400000, 0x401000] = some s' ∧ frameOf s'.mem 0x1000 0x400000 ≠ frameOf s'.mem 0x1000 0x401000 ∧
      frameOf s'.mem 0x1000 0x400000 ≠ 0x1000 := by
  have hres : reservedPages twelvePages = 3 := by decide +kernel
  have hpages : regionPages twelvePages = 12 := by decide +kernel
  have hcard : (missing twelveState.mem 0x1000 (callPaths [0x400000, 0x401000])).card ≤ 3 :=
    (Finset.card_filter_le _ _).trans (by decide +kernel)
  have henough : reservedPages twelvePages + ([0x400000, 0x401000].length + (missing twelveState.mem 0x1000
      (callPaths [0x400000, 0x401000])).card) ≤ regionPages twelvePages := by
    simp only [List.length_cons, List.length_nil]
    omega
  have hfuel : regionPages twelvePages < 20 := by omega
  have hvs : ∀ v ∈ [0x400000, 0x401000], v < 2 ^ 64 := by decide
  obtain ⟨s', hrun, hnodup, hframes⟩ := map_fresh_run_disjoint (B := {0x1000}) pageAligned_twelvePages rfl
    (by decide +kernel) mmInitialize_twelvePages (by decide) hfuel (by decide) hvs (by decide)
    (fun f hf => by rw [Set.mem_singleton_iff.mp hf]; decide) (tables_twelveState _)
    (noAlias_twelveState _) henough
  refine ⟨s', hrun, ?_, (hframes 0x400000 (by simp)).1⟩
  simpa using hnodup

/-- A hierarchy at `0x1000` whose entries 0 and 1 share one table; one path leads to the table at `0x4000`. -/
def sharedTables : Mem :=
  setEntry (setEntry (setEntry (setEntry (fun _ => 0) 0x1000 0 (fillEntry 2 0)) 0x1000 1 (fillEntry 2 0))
    0x2000 0 (fillEntry 3 0)) 0x3000 0 (fillEntry 4 0)

/-- A usable entry of twelve pages at `2^40`. -/
def highPages : MemmapEntry := ⟨0x10000000000, 0xC000, .usable, by decide, twelvePages.length_lt⟩

/-- Through a shared table two pages lead to one frame, and of a region at `2^40` the frame `2^40 + 0x3000` is entered
as `0x3000`, which is a table. -/
theorem map_fresh_run_shared :
    pageNumber 0 ≠ pageNumber 0x8000000000 ∧
    (∃ s s', mmInitialize sharedTables [twelvePages] = some s ∧
      run (mapFresh (mmRequestPage 20) 0x1000) s [0, 0x8000000000] = some s' ∧
      frameOf s'.mem 0x1000 0 = frameOf s'.mem 0x1000 0x8000000000) ∧
    ∃ s s', mmInitialize sharedTables [highPages] = some s ∧
      run (mapFresh (mmRequestPage 20) 0x1000) s [0] = some s' ∧
      swTable s'.mem 0x1000 [0, 0] = some (frameOf s'.mem 0x1000 0) := by
  refine ⟨by decide, ?_, ?_⟩
  · have h : ((run (mapFresh (mmRequestPage 20) 0x1000) (mmInitializeRegion sharedTables [twelvePages] twelvePages)
        [0, 0x8000000000]).map fun s' => decide (frameOf s'.mem 0x1000 0 = frameOf s'.mem 0x1000 0x8000000000)) =
        some true := by decide +kernel
    obtain ⟨s', hrun, hs'⟩ := Option.map_eq_some_iff.mp h
    exact ⟨_, s', rfl, hrun, of_decide_eq_true hs'⟩
  · have h : ((run (mapFresh (mmRequestPage 20) 0x1000) (mmInitializeRegion sharedTables [highPages] highPages)
        [0]).map fun s' => decide (swTable s'.mem 0x1000 [0, 0] = some (frameOf s'.mem 0x1000 0))) =
        some true := by decide +kernel
    obtain ⟨s', hrun, hs'⟩ := Option.map_eq_some_iff.mp h
    exact ⟨_, s', rfl, hrun, of_decide_eq_true hs'⟩

end Gewodsys.Mem
