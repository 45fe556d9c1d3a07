import Mathlib.Tactic.Common

/-!
# Machines followed by fuelled computations

* `Next` : one step of a machine goes on, ends the run, or fails; `Steps`, `Leads`, `Lasts`;
* `Fueled` : a computation that gives a value, fails, or runs out of fuel; `Fueled.Le` : with less fuel;
* `Follows` : a machine follows a computation: it comes to where the value puts it, it fails alike, and it keeps going
  for `n` steps where the computation runs out of fuel;
* `Follows.pure`, `Follows.head`, `Follows.tick`, `Follows.bind`, `Follows.mono` : the rules;
* `follows_ends_iff` : a machine that follows a computation at every fuel ends just as the computation does.
-/

namespace Gewodsys.Machine

variable {σ φ α β : Type}

/-- What one step does. -/
inductive Next (σ φ : Type)
  | more (t : σ)
  | done
  | fail (f : φ)

/-- `s` goes to `t` in `n` steps. -/
inductive Steps (step : σ → Next σ φ) : Nat → σ → σ → Prop
  | refl (s : σ) : Steps step 0 s s
  | head {n : Nat} {s t u : σ} : step s = .more t → Steps step n t u → Steps step (n + 1) s u

variable {step : σ → Next σ φ} {m n : Nat} {s t u : σ}

theorem Steps.trans (h : Steps step m s t) (h' : Steps step n t u) : Steps step (m + n) s u := by
  induction h with
  | refl s => rwa [Nat.zero_add]
  | head hs _ ih => rw [Nat.add_right_comm]; exact .head hs (ih h')

/-- Two runs from one state: the shorter is the first part of the longer. -/
theorem Steps.split (h : Steps step m s t) (h' : Steps step (m + n) s u) : Steps step n t u := by
  induction h with
  | refl s => rwa [Nat.zero_add] at h'
  | head hs _ ih =>
      rw [Nat.add_right_comm] at h'
      cases h' with
      | head hs' hrest =>
          rw [hs] at hs'
          cases hs'
          exact ih hrest

/-- `s` comes to the state, or to the failure. -/
def Leads (step : σ → Next σ φ) (s : σ) : Except φ σ → Prop
  | .ok t => ∃ n, Steps step n s t
  | .error f => ∃ n t, Steps step n s t ∧ step t = .fail f

/-- `s` runs for `n` steps and has not stopped. -/
def Lasts (step : σ → Next σ φ) (n : Nat) (s : σ) : Prop := ∃ t, Steps step n s t

theorem Leads.refl (s : σ) : Leads step s (.ok s) := ⟨0, .refl s⟩

theorem Leads.trans {o : Except φ σ} (h : Leads step s (.ok t)) (h' : Leads step t o) : Leads step s o := by
  obtain ⟨m, hm⟩ := h
  cases o with
  | ok u => obtain ⟨n, hn⟩ := h'; exact ⟨m + n, hm.trans hn⟩
  | error f => obtain ⟨n, u, hn, hu⟩ := h'; exact ⟨m + n, u, hm.trans hn, hu⟩

theorem Leads.head {o : Except φ σ} (hs : step s = .more t) (h : Leads step t o) : Leads step s o :=
  Leads.trans ⟨1, .head hs (.refl t)⟩ h

theorem Leads.fail {f : φ} (hs : step s = .fail f) : Leads step s (.error f) := ⟨0, s, .refl s, hs⟩

theorem Lasts.zero (s : σ) : Lasts step 0 s := ⟨s, .refl s⟩

theorem Lasts.mono (h : Lasts step n s) (hm : m ≤ n) : Lasts step m s := by
  obtain ⟨t, ht⟩ := h
  induction ht generalizing m with
  | refl s => exact Nat.le_zero.mp hm ▸ Lasts.zero s
  | head hs _ ih =>
      cases m with
      | zero => exact Lasts.zero _
      | succ m =>
          obtain ⟨u, hu⟩ := ih (Nat.le_of_succ_le_succ hm)
          exact ⟨u, .head hs hu⟩

theorem Leads.lasts (h : Leads step s (.ok t)) (h' : Lasts step n t) : Lasts step n s := by
  obtain ⟨m, hm⟩ := h
  obtain ⟨u, hu⟩ := h'
  exact Lasts.mono ⟨u, hm.trans hu⟩ (Nat.le_add_left n m)

theorem Lasts.head (hs : step s = .more t) (h : Lasts step n t) : Lasts step (n + 1) s := by
  obtain ⟨u, hu⟩ := h
  exact ⟨u, .head hs hu⟩

/-- A state that steps to itself is never left. -/
theorem lasts_of_self (hs : step s = .more s) : ∀ n, Lasts step n s
  | 0 => Lasts.zero s
  | n + 1 => (lasts_of_self hs n).head hs

/-- The run from `s` ends: in the state, or with the failure. -/
def Ends (step : σ → Next σ φ) (s : σ) (o : Except φ σ) : Prop :=
  Leads step s o ∧ ∀ t, o = .ok t → step t = .done

theorem Ends.steps {o : Except φ σ} (h : Ends step s o) :
    ∃ n t, Steps step n s t ∧ ∀ u, step t ≠ .more u := by
  obtain ⟨hl, hdone⟩ := h
  cases o with
  | ok t =>
      obtain ⟨n, hn⟩ := hl
      refine ⟨n, t, hn, fun u hu => ?_⟩
      rw [hdone t rfl] at hu
      cases hu
  | error f =>
      obtain ⟨n, t, hn, ht⟩ := hl
      refine ⟨n, t, hn, fun u hu => ?_⟩
      rw [ht] at hu
      cases hu

/-- A run that ends does not last. -/
theorem Ends.not_lasts {o : Except φ σ} (h : Ends step s o) : ∃ n, ¬ Lasts step n s := by
  obtain ⟨n, t, hn, ht⟩ := h.steps
  refine ⟨n + 1, ?_⟩
  rintro ⟨u, hu⟩
  cases hn.split hu with
  | head hs _ => exact ht _ hs

/-- Two states that one state comes to and that stop there are one. -/
theorem Steps.unique (h : Steps step m s t) (h' : Steps step n s u) (ht : ∀ v, step t ≠ .more v)
    (hu : ∀ v, step u ≠ .more v) : t = u := by
  rcases Nat.le_total m n with hle | hle
  · obtain ⟨k, rfl⟩ := Nat.exists_eq_add_of_le hle
    cases h.split h' with
    | refl => rfl
    | head hs _ => exact absurd hs (ht _)
  · obtain ⟨k, rfl⟩ := Nat.exists_eq_add_of_le hle
    cases h'.split h with
    | refl => rfl
    | head hs _ => exact absurd hs (hu _)

theorem Ends.unique {o o' : Except φ σ} (h : Ends step s o) (h' : Ends step s o') : o = o' := by
  have hstop : ∀ t, step t = .done ∨ (∃ f, step t = .fail f) → ∀ v, step t ≠ .more v := by
    rintro t (ht | ⟨f, ht⟩) v hv <;> rw [ht] at hv <;> cases hv
  obtain ⟨hl, hdone⟩ := h
  obtain ⟨hl', hdone'⟩ := h'
  cases o with
  | ok t =>
      obtain ⟨n, hn⟩ := hl
      have ht := hdone t rfl
      cases o' with
      | ok u =>
          obtain ⟨k, hk⟩ := hl'
          rw [hn.unique hk (hstop t (.inl ht)) (hstop u (.inl (hdone' u rfl)))]
      | error f =>
          obtain ⟨k, u, hk, hu⟩ := hl'
          rw [hn.unique hk (hstop t (.inl ht)) (hstop u (.inr ⟨f, hu⟩)), hu] at ht
          cases ht
  | error f =>
      obtain ⟨n, t, hn, ht⟩ := hl
      cases o' with
      | ok u =>
          obtain ⟨k, hk⟩ := hl'
          have hu := hdone' u rfl
          rw [← hn.unique hk (hstop t (.inr ⟨f, ht⟩)) (hstop u (.inl hu)), ht] at hu
          cases hu
      | error g =>
          obtain ⟨k, u, hk, hu⟩ := hl'
          rw [hn.unique hk (hstop t (.inr ⟨f, ht⟩)) (hstop u (.inr ⟨g, hu⟩)), hu] at ht
          cases ht
          rfl

/-! ## Computations with fuel -/

/-- Why a computation gives no value. -/
inductive Stuck (φ : Type)
  | fail (f : φ)
  | fuel

abbrev Fueled (φ α : Type) := Except (Stuck φ) α

/-- A computation that needs no fuel. -/
def Fueled.lift : Except φ α → Fueled φ α
  | .ok a => .ok a
  | .error f => .error (.fail f)

theorem bind_eq_ok {ε : Type} {y : Except ε α} {f : α → Except ε β} {b : β} (h : (y >>= f) = .ok b) :
    ∃ a, y = .ok a ∧ f a = .ok b := by
  cases y with
  | error e => cases h
  | ok a => exact ⟨a, rfl, h⟩

/-- `x` gives what `y` gives, or runs out of fuel first. -/
def Fueled.Le (x y : Fueled φ α) : Prop := x = .error .fuel ∨ x = y

theorem Fueled.Le.refl (x : Fueled φ α) : Fueled.Le x x := .inr rfl

theorem Fueled.Le.trans {x y z : Fueled φ α} (h : Fueled.Le x y) (h' : Fueled.Le y z) : Fueled.Le x z := by
  rcases h with h | rfl
  · exact .inl h
  · exact h'

theorem Fueled.Le.ok {x y : Fueled φ α} {a : α} (h : Fueled.Le x y) (hx : x = .ok a) : y = .ok a := by
  rcases h with h | rfl
  · rw [h] at hx; cases hx
  · exact hx

theorem Fueled.Le.bind {x y : Fueled φ α} {f g : α → Fueled φ β} (h : Fueled.Le x y) (hf : ∀ a, Fueled.Le (f a) (g a)) :
    Fueled.Le (x >>= f) (y >>= g) := by
  rcases h with rfl | rfl
  · exact .inl rfl
  · cases x with
    | error e => exact .refl _
    | ok a => exact hf a

/-- The machine at `s` follows the computation, whose value `a` puts it at `post a`. -/
def Follows (step : σ → Next σ φ) (n : Nat) (s : σ) (x : Fueled φ α) (post : α → Except φ σ) : Prop :=
  match x with
  | .ok a => Leads step s (post a)
  | .error (.fail f) => Leads step s (.error f)
  | .error .fuel => Lasts step n s

variable {x : Fueled φ α} {post : α → Except φ σ}

theorem Follows.pure {a : α} (h : Leads step s (post a)) : Follows step n s (Pure.pure a) post := h

theorem Follows.fail {f : φ} (h : Leads step s (.error f)) : Follows step n s (.error (.fail f)) post := h

theorem Follows.mono (h : Follows step n s x post) (hm : m ≤ n) : Follows step m s x post := by
  rcases x with (f | _) | a
  · exact h
  · exact Lasts.mono h hm
  · exact h

/-- A step of the machine before the computation starts. -/
theorem Follows.tick (hs : step s = .more t) (h : Follows step n t x post) : Follows step (n + 1) s x post := by
  rcases x with (f | _) | a
  · exact Leads.head (o := .error f) hs h
  · exact Lasts.head hs h
  · exact Leads.head hs h

theorem Follows.head (hs : step s = .more t) (h : Follows step n t x post) : Follows step n s x post :=
  (h.tick hs).mono (Nat.le_succ n)

theorem Follows.of_leads (hs : Leads step s (.ok t)) (h : Follows step n t x post) : Follows step n s x post := by
  rcases x with (f | _) | a
  · exact hs.trans (o := .error f) h
  · exact hs.lasts h
  · exact hs.trans h

/-- One computation after another. -/
theorem Follows.bind {f : α → Fueled φ β} {post' : β → Except φ σ} {at' : α → σ}
    (h : Follows step n s x (fun a => .ok (at' a))) (hf : ∀ a, x = .ok a → Follows step n (at' a) (f a) post') :
    Follows step n s (x >>= f) post' := by
  rcases x with (g | _) | a
  · exact h
  · exact h
  · exact (hf a rfl).of_leads h

/-- A step of the machine that computes what it comes to. -/
theorem Follows.lift {y : Except φ α} (h : Leads step s (y.bind post)) : Follows step n s (Fueled.lift y) post := by
  cases y with
  | ok a => exact h
  | error f => exact h

/-- A step of the machine that computes what it comes to, and a computation after it. -/
theorem Follows.lift_bind {y : Except φ α} {f : α → Fueled φ β} {post' : β → Except φ σ} {at' : α → σ}
    (h : Leads step s (y.bind fun a => .ok (at' a))) (hf : ∀ a, y = .ok a → Follows step n (at' a) (f a) post') :
    Follows step n s (Fueled.lift y >>= f) post' := by
  refine (Follows.lift h).bind fun a ha => hf a ?_
  cases y with
  | ok b => cases ha; rfl
  | error g => cases ha

/-- A computation after one whose value need not put the machine at a state. -/
theorem Follows.bind_leads {f : α → Fueled φ β} {post' : β → Except φ σ} (h : Follows step n s x post)
    (hf : ∀ a, x = .ok a → Leads step s (post a) → Follows step n s (f a) post') :
    Follows step n s (x >>= f) post' := by
  rcases x with (g | _) | a
  · exact h
  · exact h
  · exact hf a rfl h

/-- The machine goes on from where the value puts it. -/
theorem Follows.extend {post' : α → Except φ σ} (h : Follows step n s x post)
    (hp : ∀ a, x = .ok a → Leads step s (post a) → Leads step s (post' a)) : Follows step n s x post' := by
  rcases x with (g | _) | a
  · exact h
  · exact h
  · exact hp a rfl h

/-- How a computation ends, if it does not run out of fuel. -/
def Fueled.result (post : α → Except φ σ) : Fueled φ α → Option (Except φ σ)
  | .ok a => some (post a)
  | .error (.fail f) => some (.error f)
  | .error .fuel => none

theorem Follows.ends {o : Except φ σ} (h : Follows step n s x post) (hdone : ∀ a t, post a = .ok t → step t = .done)
    (ho : Fueled.result post x = some o) : Ends step s o := by
  rcases x with (f | _) | a
  · cases ho
    exact ⟨h, fun t ht => by cases ht⟩
  · cases ho
  · cases ho
    exact ⟨h, fun t ht => hdone a t ht⟩

/-- The machine ends as the computation does, and it ends only where the computation does. -/
theorem follows_ends_iff {x : Nat → Fueled φ α} (h : ∀ n, Follows step n s (x n) post)
    (hdone : ∀ a t, post a = .ok t → step t = .done) (o : Except φ σ) :
    Ends step s o ↔ ∃ n, Fueled.result post (x n) = some o := by
  constructor
  · intro hends
    obtain ⟨n, hn⟩ := hends.not_lasts
    have hx := h n
    cases hr : Fueled.result post (x n) with
    | none =>
        rcases hxn : x n with (f | _) | a
        · rw [hxn] at hr; cases hr
        · rw [hxn] at hx; exact absurd hx hn
        · rw [hxn] at hr; cases hr
    | some o' => exact ⟨n, by rw [hr, ((h n).ends hdone hr).unique hends]⟩
  · rintro ⟨n, hn⟩
    exact (h n).ends hdone hn

end Gewodsys.Machine
