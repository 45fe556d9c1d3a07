import Mathlib

/-!
# Runs of a partial step function

* `run step s os` : the state after the operations `os`, `none` when one of them does not return;
* `StepsMeet step C s os` : every operation of the run meets the condition `C` in the state it starts from;
* `run_invariant` : an invariant kept by every step that meets `C` holds after every run that does.
-/

namespace Gewodsys.Machine

variable {σ ω : Type*}

/-- The state after the operations `os`, in order. -/
def run (step : σ → ω → Option σ) : σ → List ω → Option σ
  | s, [] => some s
  | s, o :: os => (step s o).bind fun s' => run step s' os

/-- Every operation of the run from `s` meets `C` in the state it starts from. -/
def StepsMeet (step : σ → ω → Option σ) (C : σ → ω → Prop) : σ → List ω → Prop
  | _, [] => True
  | s, o :: os => C s o ∧ ∀ s', step s o = some s' → StepsMeet step C s' os

/-- Whether a run meets a decidable condition can be tried out. -/
instance instDecidableStepsMeet (step : σ → ω → Option σ) (C : σ → ω → Prop) [∀ s o, Decidable (C s o)] (s : σ) :
    (os : List ω) → Decidable (StepsMeet step C s os)
  | [] => .isTrue trivial
  | o :: os =>
      match h : step s o with
      | none => decidable_of_iff (C s o) ⟨fun hc => ⟨hc, fun s' hs => by rw [h] at hs; cases hs⟩, fun hc => hc.1⟩
      | some s' =>
          have := instDecidableStepsMeet step C s' os
          decidable_of_iff (C s o ∧ StepsMeet step C s' os)
            ⟨fun hc => ⟨hc.1, fun t ht => by rw [h] at ht; cases ht; exact hc.2⟩, fun hc => ⟨hc.1, hc.2 s' h⟩⟩

variable {step : σ → ω → Option σ}

@[simp] theorem run_nil (s : σ) : run step s [] = some s := rfl

theorem run_cons (s : σ) (o : ω) (os : List ω) :
    run step s (o :: os) = (step s o).bind fun s' => run step s' os := rfl

theorem run_cons_eq_some {s t : σ} {o : ω} {os : List ω} :
    run step s (o :: os) = some t ↔ ∃ s', step s o = some s' ∧ run step s' os = some t := by
  rw [run_cons, Option.bind_eq_some_iff]

/-- A run ends with its last operation. -/
theorem run_append (s : σ) (os os' : List ω) :
    run step s (os ++ os') = (run step s os).bind fun s' => run step s' os' := by
  induction os generalizing s with
  | nil => rfl
  | cons o os ih =>
      rw [List.cons_append, run_cons, run_cons, Option.bind_assoc]
      congr 1
      funext s'
      exact ih s'

/-- A run whose operations are runs themselves is one run. -/
theorem run_flatMap {ι : Type*} {step : σ → ω → Option σ} {inner : σ → ι → Option σ} {list : ι → List ω}
    (hinner : ∀ s i, inner s i = run step s (list i)) (s : σ) (is : List ι) :
    run inner s is = run step s (is.flatMap list) := by
  induction is generalizing s with
  | nil => rfl
  | cons i is ih =>
      rw [List.flatMap_cons, run_append, run_cons, hinner]
      congr 1
      funext s'
      exact ih s'

/-- A run over the images of some operations. -/
theorem run_map {ι : Type*} (f : ι → ω) (s : σ) (is : List ι) :
    run step s (is.map f) = run (fun s i => step s (f i)) s is := by
  induction is generalizing s with
  | nil => rfl
  | cons i is ih =>
      rw [List.map_cons, run_cons, run_cons]
      congr 1
      funext s'
      exact ih s'

/-- **Invariants over runs.** -/
theorem run_invariant {C : σ → ω → Prop} {I : σ → Prop}
    (hstep : ∀ s o s', I s → C s o → step s o = some s' → I s') {s t : σ} {os : List ω} (hs : I s)
    (hC : StepsMeet step C s os) (hrun : run step s os = some t) : I t := by
  induction os generalizing s with
  | nil => exact Option.some.inj hrun ▸ hs
  | cons o os ih =>
      obtain ⟨s', hs', hrest⟩ := run_cons_eq_some.mp hrun
      exact ih (hstep s o s' hs hC.1 hs') (hC.2 s' hs') hrest

/-- A condition on the operations alone. -/
theorem stepsMeet_of_forall {C : σ → ω → Prop} {os : List ω} (h : ∀ o ∈ os, ∀ s, C s o) (s : σ) :
    StepsMeet step C s os := by
  induction os generalizing s with
  | nil => trivial
  | cons o os ih => exact ⟨h o List.mem_cons_self s, fun s' _ => ih (fun o ho => h o (List.mem_cons_of_mem _ ho)) s'⟩

theorem stepsMeet_true (s : σ) (os : List ω) : StepsMeet step (fun _ _ => True) s os :=
  stepsMeet_of_forall (fun _ _ _ => trivial) s

/-- Two conditions that agree on the states of an invariant are met by the same runs. -/
theorem stepsMeet_congr {C D : σ → ω → Prop} {I : σ → Prop}
    (hstep : ∀ s o s', I s → step s o = some s' → I s') (hCD : ∀ s o, I s → (C s o ↔ D s o)) {s : σ}
    {os : List ω} (hs : I s) : StepsMeet step C s os ↔ StepsMeet step D s os := by
  induction os generalizing s with
  | nil => exact Iff.rfl
  | cons o os ih =>
      refine and_congr (hCD s o hs) (forall_congr' fun s' => ?_)
      apply imp_congr_right
      intro h
      exact ih (hstep s o s' hs h)

/-- What a list holds after one more element was put at its end. -/
theorem getElem?_concat_eq_some {α : Type*} {xs : List α} {x y : α} {i : Nat} (h : (xs ++ [x])[i]? = some y) :
    (i < xs.length ∧ xs[i]? = some y) ∨ (i = xs.length ∧ y = x) := by
  rcases Nat.lt_or_ge i xs.length with hi | hi
  · rw [List.getElem?_append_left hi] at h
    exact Or.inl ⟨hi, h⟩
  · rw [List.getElem?_append_right hi, List.getElem?_singleton] at h
    split_ifs at h with h0
    exact Or.inr ⟨by omega, (Option.some.inj h).symm⟩

end Gewodsys.Machine
