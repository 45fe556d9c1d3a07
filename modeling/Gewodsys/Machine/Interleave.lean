import Gewodsys.Machine.Run

/-!
# Threads that take turns

* `Threads` : a local state for every thread, and a shared one; `Threads.step` : one atomic action of one thread;
* `interleave_invariant` : an invariant of the shared state and of every local state, over all interleavings;
* `Exclusive` : at most one thread owns, and the shared state tells whether one does; `Exclusive.step` : what a step keeps;
* `stuck_run` : what a thread cannot leave by its own actions.
-/

namespace Gewodsys.Machine

variable {T L S A : Type} [DecidableEq T]

structure Threads (T L S : Type) where
  loc : T → L
  shared : S

/-- Thread `o.1` takes the atomic action `o.2`; `none` where it is not ready for it. -/
def Threads.step (act : L → S → A → Option (L × S)) (x : Threads T L S) (o : T × A) : Option (Threads T L S) :=
  (act (x.loc o.1) x.shared o.2).map fun r => ⟨Function.update x.loc o.1 r.1, r.2⟩

variable {act : L → S → A → Option (L × S)}

theorem Threads.step_eq_some {x y : Threads T L S} {o : T × A} :
    x.step act o = some y ↔
      ∃ l s, act (x.loc o.1) x.shared o.2 = some (l, s) ∧ y = ⟨Function.update x.loc o.1 l, s⟩ := by
  unfold Threads.step
  rw [Option.map_eq_some_iff]
  constructor
  · rintro ⟨⟨l, s⟩, hact, rfl⟩
    exact ⟨l, s, hact, rfl⟩
  · rintro ⟨l, s, hact, rfl⟩
    exact ⟨(l, s), hact, rfl⟩

/-- An action that keeps `I` of the shared state and `P` of the local state of its thread keeps both in all
interleavings. -/
theorem interleave_invariant {I : S → Prop} {P : L → Prop}
    (hact : ∀ l s a l' s', I s → P l → act l s a = some (l', s') → I s' ∧ P l') {x y : Threads T L S}
    {os : List (T × A)} (hI : I x.shared) (hP : ∀ t, P (x.loc t)) (hrun : run (Threads.step act) x os = some y) :
    I y.shared ∧ ∀ t, P (y.loc t) := by
  refine run_invariant (C := fun _ _ => True) (I := fun x => I x.shared ∧ ∀ t, P (x.loc t)) ?_ ⟨hI, hP⟩
    (stepsMeet_true x os) hrun
  rintro z o z' ⟨hz, hloc⟩ - hstep
  obtain ⟨l, s, hl, rfl⟩ := Threads.step_eq_some.mp hstep
  obtain ⟨hs, hl'⟩ := hact _ _ _ _ _ hz (hloc o.1) hl
  refine ⟨hs, fun t => ?_⟩
  by_cases ht : t = o.1
  · subst ht
    simpa only [Function.update_self] using hl'
  · simpa only [Function.update_of_ne ht] using hloc t

/-- At most one thread owns, and `taken` tells whether one does. -/
structure Exclusive (owns : L → Prop) (taken : S → Prop) (x : Threads T L S) : Prop where
  unique : ∀ t u, owns (x.loc t) → owns (x.loc u) → t = u
  taken_iff : taken x.shared ↔ ∃ t, owns (x.loc t)

/-- What an action must respect: only a free resource is acquired, and only its owner frees it. -/
structure RespectsOwner (act : L → S → A → Option (L × S)) (owns : L → Prop) (taken : S → Prop) : Prop where
  acquire : ∀ l s a l' s', act l s a = some (l', s') → ¬ owns l → owns l' → ¬ taken s ∧ taken s'
  release : ∀ l s a l' s', act l s a = some (l', s') → owns l → ¬ owns l' → ¬ taken s'
  keep : ∀ l s a l' s', act l s a = some (l', s') → (owns l ↔ owns l') → (taken s ↔ taken s')

theorem Exclusive.step {owns : L → Prop} {taken : S → Prop} (hact : RespectsOwner act owns taken)
    {x y : Threads T L S} {o : T × A} (h : Exclusive owns taken x) (hstep : x.step act o = some y) :
    Exclusive owns taken y := by
  obtain ⟨l, s, hl, rfl⟩ := Threads.step_eq_some.mp hstep
  have hself : owns (Function.update x.loc o.1 l o.1) ↔ owns l := by rw [Function.update_self]
  have hother : ∀ t, t ≠ o.1 → Function.update x.loc o.1 l t = x.loc t := fun t ht => Function.update_of_ne ht _ _
  by_cases hbefore : owns (x.loc o.1)
  · -- the thread owned the resource, so no other does
    have hno : ∀ t, t ≠ o.1 → ¬ owns (x.loc t) := fun t ht howns => ht (h.unique t o.1 howns hbefore)
    have honly : ∀ t, owns (Function.update x.loc o.1 l t) → t = o.1 := by
      intro t ht
      by_contra hne
      rw [hother t hne] at ht
      exact hno t hne ht
    refine ⟨fun t u ht hu => (honly t ht).trans (honly u hu).symm, ?_⟩
    by_cases hafter : owns l
    · have htaken := (hact.keep _ _ _ _ _ hl ⟨fun _ => hafter, fun _ => hbefore⟩).mp (h.taken_iff.mpr ⟨o.1, hbefore⟩)
      exact ⟨fun _ => ⟨o.1, hself.mpr hafter⟩, fun _ => htaken⟩
    · have hfree := hact.release _ _ _ _ _ hl hbefore hafter
      refine ⟨fun ht => absurd ht hfree, ?_⟩
      rintro ⟨t, ht⟩
      obtain rfl := honly t ht
      exact absurd (hself.mp ht) hafter
  · by_cases hafter : owns l
    · -- it acquires the resource, which was free
      obtain ⟨hfree, htaken⟩ := hact.acquire _ _ _ _ _ hl hbefore hafter
      have hno : ∀ t, ¬ owns (x.loc t) := fun t ht => hfree (h.taken_iff.mpr ⟨t, ht⟩)
      have honly : ∀ t, owns (Function.update x.loc o.1 l t) → t = o.1 := by
        intro t ht
        by_contra hne
        rw [hother t hne] at ht
        exact hno t ht
      exact ⟨fun t u ht hu => (honly t ht).trans (honly u hu).symm,
        fun _ => ⟨o.1, hself.mpr hafter⟩, fun _ => htaken⟩
    · have hsame : ∀ t, owns (Function.update x.loc o.1 l t) ↔ owns (x.loc t) := by
        intro t
        by_cases ht : t = o.1
        · subst ht
          exact ⟨fun h' => absurd (hself.mp h') hafter, fun h' => absurd h' hbefore⟩
        · rw [hother t ht]
      refine ⟨fun t u ht hu => h.unique t u ((hsame t).mp ht) ((hsame u).mp hu), ?_⟩
      change taken s ↔ _
      rw [← hact.keep _ _ _ _ _ hl ⟨fun h' => absurd h' hbefore, fun h' => absurd h' hafter⟩, h.taken_iff]
      exact exists_congr fun t => (hsame t).symm

/-- A thread that its own actions never take out of `P` stays there, whatever the others do. -/
theorem stuck_run {P : L → Prop} {C : A → Prop} (hact : ∀ l s a l' s', P l → C a → act l s a = some (l', s') → P l')
    {x y : Threads T L S} {os : List (T × A)} {t : T} (hos : ∀ o ∈ os, o.1 = t → C o.2) (hP : P (x.loc t))
    (hrun : run (Threads.step act) x os = some y) : P (y.loc t) := by
  induction os generalizing x with
  | nil =>
      obtain rfl : x = y := Option.some.inj hrun
      exact hP
  | cons o os ih =>
      obtain ⟨z, hz, hrest⟩ := run_cons_eq_some.mp hrun
      obtain ⟨l, s, hl, rfl⟩ := Threads.step_eq_some.mp hz
      refine ih (fun o' ho' => hos o' (List.mem_cons_of_mem _ ho')) ?_ hrest
      change P (Function.update x.loc o.1 l t)
      by_cases ht : t = o.1
      · subst ht
        rw [Function.update_self]
        exact hact _ _ _ _ _ hP (hos o List.mem_cons_self rfl) hl
      · rw [Function.update_of_ne ht]
        exact hP

end Gewodsys.Machine
