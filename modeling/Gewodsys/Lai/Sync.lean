import Gewodsys.Machine.Interleave
import Gewodsys.Machine.Word

/-!
# Mutexes and events (`lai/core/exec_impl.h`)

* `mutexAct` : `lai_mutex_lock` and `lai_mutex_unlock`, one atomic action at a time;
* `eventAct` : `lai_event_wait`, `lai_event_signal` and `lai_event_reset`;
* `mutex_exclusive`, `mutex_starves` : who holds a mutex in an interleaving, and who never will;
* `event_conserves`, `event_starves` : the signals of an event, counted.

A call of `laihost_sync_wait` may return at any time, with or without an error.
-/

namespace Gewodsys.Lai
open Gewodsys.Machine

abbrev Word32 := BitVec 32

/-! ## Mutexes -/

def laiMutexBits : Word32 := 3
def laiMutexLocked : Word32 := 1
def laiMutexContended : Word32 := 2

/-- Where a thread is in the functions of a mutex. `v` is their local variable. -/
inductive MutexPc
  | idle
  /-- In `lai_mutex_lock`, before the load. -/
  | lock
  /-- At the head of the loop. -/
  | loop (v : Word32)
  /-- In `laihost_sync_wait`. -/
  | wait (v : Word32)
  | holding
  /-- In `lai_mutex_unlock`, before `laihost_sync_wake`. -/
  | wake
  /-- An `LAI_ENSURE` failed. -/
  | ensureFailed
  /-- A function that the host must provide is missing. -/
  | hostMissing
deriving DecidableEq, Repr

inductive MutexAct
  | lock | unlock
  /-- Go on to the next atomic access, or return from the host with 0. -/
  | go
  /-- Return from the host with an error. -/
  | timeout
deriving DecidableEq, Repr

/-- Block the thread: only where the host provides `laihost_sync_wait`. -/
def mutexBlock (hostSync : Bool) (v : Word32) : MutexPc := if hostSync then .wait v else .hostMissing

/-- A turn of the loop of `lai_mutex_lock`, on the word `val`. -/
def mutexLoop (hostSync : Bool) (v val : Word32) : MutexPc × Word32 :=
  if v &&& ~~~laiMutexBits ≠ 0 then (.ensureFailed, val)
  else if v &&& laiMutexLocked = 0 then if val = v then (.holding, laiMutexLocked) else (.loop val, val)
  else if v &&& laiMutexContended = 0 then
    -- the exchange does not change `v` where it succeeds
    if val = v then (mutexBlock hostSync v, laiMutexLocked ||| laiMutexContended) else (.loop val, val)
  else (mutexBlock hostSync v, val)

/-- `lai_mutex_unlock` up to the wake-up; `v` is what the exchange found. -/
def mutexUnlock (hostSync : Bool) (v : Word32) : MutexPc :=
  if v &&& ~~~laiMutexBits ≠ 0 ∨ v &&& laiMutexLocked = 0 then .ensureFailed
  else if v &&& laiMutexContended ≠ 0 then if hostSync then .wake else .hostMissing
  else .idle

/-- An atomic action of a thread. `laihost_sync_wait` returning 0 leads back to the loop, where `v` is not loaded
again. Only the thread that holds the mutex unlocks it. -/
def mutexAct (hostSync : Bool) (pc : MutexPc) (val : Word32) (a : MutexAct) : Option (MutexPc × Word32) :=
  match pc with
  | .idle => if a = .lock then some (.lock, val) else none
  | .lock => if a = .go then some (.loop val, val) else none
  | .loop v => if a = .go then some (mutexLoop hostSync v val) else none
  | .wait v => if a = .go then some (.loop v, val) else if a = .timeout then some (.idle, val) else none
  | .holding => if a = .unlock then some (mutexUnlock hostSync val, 0) else none
  | .wake => if a = .go then some (.idle, val) else none
  | .ensureFailed | .hostMissing => none

/-- The words of a mutex. -/
def MutexWord (v : Word32) : Prop := v = 0 ∨ v = laiMutexLocked ∨ v = laiMutexLocked ||| laiMutexContended

/-- The local states that a thread gets into: its variable is a word that the mutex had. -/
def MutexGood : MutexPc → Prop
  | .loop v => MutexWord v
  | .wait v => MutexWord v ∧ v &&& laiMutexLocked ≠ 0
  | .ensureFailed => False
  | _ => True

theorem MutexWord.bits {v : Word32} (h : MutexWord v) : v &&& ~~~laiMutexBits = 0 := by
  rcases h with rfl | rfl | rfl <;> decide

theorem mutexGood_block {hostSync : Bool} {v : Word32} (h : MutexWord v) (hv : v &&& laiMutexLocked ≠ 0) :
    MutexGood (mutexBlock hostSync v) := by
  cases hostSync
  · trivial
  · exact ⟨h, hv⟩

theorem mutexLoop_good (hostSync : Bool) {v val : Word32} (hval : MutexWord val) (hv : MutexWord v) :
    MutexWord (mutexLoop hostSync v val).2 ∧ MutexGood (mutexLoop hostSync v val).1 := by
  unfold mutexLoop
  rw [if_neg (not_not.mpr hv.bits)]
  by_cases hlocked : v &&& laiMutexLocked = 0
  · rw [if_pos hlocked]
    by_cases hcas : val = v
    · rw [if_pos hcas]
      exact ⟨Or.inr (Or.inl rfl), trivial⟩
    · rw [if_neg hcas]
      exact ⟨hval, hval⟩
  · rw [if_neg hlocked]
    by_cases hcontended : v &&& laiMutexContended = 0
    · rw [if_pos hcontended]
      by_cases hcas : val = v
      · rw [if_pos hcas]
        exact ⟨Or.inr (Or.inr rfl), mutexGood_block hv hlocked⟩
      · rw [if_neg hcas]
        exact ⟨hval, hval⟩
    · rw [if_neg hcontended]
      exact ⟨hval, mutexGood_block hv hlocked⟩

theorem mutexGood_unlock {hostSync : Bool} {v : Word32} (hv : MutexWord v) (hlocked : v &&& laiMutexLocked ≠ 0) :
    MutexGood (mutexUnlock hostSync v) := by
  unfold mutexUnlock
  rw [if_neg (not_or.mpr ⟨not_not.mpr hv.bits, hlocked⟩)]
  by_cases hcontended : v &&& laiMutexContended ≠ 0
  · rw [if_pos hcontended]
    cases hostSync <;> trivial
  · rw [if_neg hcontended]
    trivial

/-- The actions of a thread, by where it is. -/
theorem mutexAct_eq_some {hostSync : Bool} {pc pc' : MutexPc} {val val' : Word32} {a : MutexAct}
    (h : mutexAct hostSync pc val a = some (pc', val')) :
    (pc = .idle ∧ pc' = .lock ∧ val' = val) ∨ (pc = .lock ∧ pc' = .loop val ∧ val' = val) ∨
      (∃ v, pc = .loop v ∧ mutexLoop hostSync v val = (pc', val')) ∨
      (∃ v, pc = .wait v ∧ (pc' = .loop v ∨ pc' = .idle) ∧ val' = val) ∨
      (pc = .holding ∧ pc' = mutexUnlock hostSync val ∧ val' = 0) ∨ (pc = .wake ∧ pc' = .idle ∧ val' = val) := by
  cases pc with
  | idle =>
      simp only [mutexAct, Option.ite_none_right_eq_some, Option.some.injEq, Prod.mk.injEq] at h
      exact Or.inl ⟨rfl, h.2.1.symm, h.2.2.symm⟩
  | lock =>
      simp only [mutexAct, Option.ite_none_right_eq_some, Option.some.injEq, Prod.mk.injEq] at h
      exact Or.inr (Or.inl ⟨rfl, h.2.1.symm, h.2.2.symm⟩)
  | loop v =>
      simp only [mutexAct, Option.ite_none_right_eq_some, Option.some.injEq] at h
      exact Or.inr (Or.inr (Or.inl ⟨v, rfl, h.2⟩))
  | wait v =>
      refine Or.inr (Or.inr (Or.inr (Or.inl ⟨v, rfl, ?_⟩)))
      simp only [mutexAct] at h
      split_ifs at h
      · cases h
        exact ⟨Or.inl rfl, rfl⟩
      · cases h
        exact ⟨Or.inr rfl, rfl⟩
  | holding =>
      simp only [mutexAct, Option.ite_none_right_eq_some, Option.some.injEq, Prod.mk.injEq] at h
      exact Or.inr (Or.inr (Or.inr (Or.inr (Or.inl ⟨rfl, h.2.1.symm, h.2.2.symm⟩))))
  | wake =>
      simp only [mutexAct, Option.ite_none_right_eq_some, Option.some.injEq, Prod.mk.injEq] at h
      exact Or.inr (Or.inr (Or.inr (Or.inr (Or.inr ⟨rfl, h.2.1.symm, h.2.2.symm⟩))))
  | ensureFailed => cases h
  | hostMissing => cases h

/-- Every action keeps the word and the local variables in shape. The holder finds the word locked. -/
theorem mutexAct_good {hostSync : Bool} {pc pc' : MutexPc} {val val' : Word32} {a : MutexAct}
    (hval : MutexWord val) (hpc : MutexGood pc) (hheld : pc = .holding → val &&& laiMutexLocked ≠ 0)
    (h : mutexAct hostSync pc val a = some (pc', val')) : MutexWord val' ∧ MutexGood pc' := by
  rcases mutexAct_eq_some h with ⟨-, rfl, rfl⟩ | ⟨-, rfl, rfl⟩ | ⟨v, rfl, hloop⟩ | ⟨v, rfl, hpc', rfl⟩ |
    ⟨rfl, rfl, rfl⟩ | ⟨-, rfl, rfl⟩
  · exact ⟨hval, trivial⟩
  · exact ⟨hval, hval⟩
  · have hgood := mutexLoop_good hostSync hval (show MutexWord v from hpc)
    rw [hloop] at hgood
    exact hgood
  · refine ⟨hval, ?_⟩
    rcases hpc' with rfl | rfl
    · exact hpc.1
    · trivial
  · exact ⟨Or.inl rfl, mutexGood_unlock hval (hheld rfl)⟩
  · exact ⟨hval, trivial⟩

/-- Turning the loop, a thread gets the mutex only by setting the bit of a word that was free. -/
theorem mutexLoop_owner (hostSync : Bool) (v val : Word32) :
    ((mutexLoop hostSync v val).1 = .holding → val &&& laiMutexLocked = 0 ∧ (mutexLoop hostSync v val).2 = laiMutexLocked) ∧
      ((mutexLoop hostSync v val).1 ≠ .holding →
        (val &&& laiMutexLocked ≠ 0 ↔ (mutexLoop hostSync v val).2 &&& laiMutexLocked ≠ 0)) := by
  have hblock : mutexBlock hostSync v ≠ .holding := by cases hostSync <;> exact MutexPc.noConfusion
  have hboth : (laiMutexLocked ||| laiMutexContended) &&& laiMutexLocked ≠ 0 := by decide
  unfold mutexLoop
  split_ifs with h1 h2 h3 h4 h5
  · exact ⟨fun h => (by cases h), fun _ => Iff.rfl⟩
  · rw [h3]
    exact ⟨fun _ => ⟨h2, rfl⟩, fun h => absurd rfl h⟩
  · exact ⟨fun h => (by cases h), fun _ => Iff.rfl⟩
  · rw [h5]
    exact ⟨fun h => absurd h hblock, fun _ => ⟨fun _ => hboth, fun _ => h2⟩⟩
  · exact ⟨fun h => (by cases h), fun _ => Iff.rfl⟩
  · exact ⟨fun h => absurd h hblock, fun _ => Iff.rfl⟩

theorem mutexUnlock_ne_holding (hostSync : Bool) (v : Word32) : mutexUnlock hostSync v ≠ .holding := by
  unfold mutexUnlock
  split_ifs <;> exact MutexPc.noConfusion

theorem mutexAct_respects (hostSync : Bool) :
    RespectsOwner (mutexAct hostSync) (· = .holding) (· &&& laiMutexLocked ≠ 0) := by
  refine ⟨?_, ?_, ?_⟩
  · intro pc val a pc' val' h _ hafter
    subst hafter
    rcases mutexAct_eq_some h with ⟨-, h', -⟩ | ⟨-, h', -⟩ | ⟨v, rfl, hloop⟩ | ⟨v, -, h' | h', -⟩ | ⟨-, h', -⟩ | ⟨-, h', -⟩
    · cases h'
    · cases h'
    · have howner := (mutexLoop_owner hostSync v val).1
      rw [hloop] at howner
      obtain ⟨hfree, rfl⟩ := howner rfl
      exact ⟨not_not.mpr hfree, by decide⟩
    · cases h'
    · cases h'
    · exact absurd h'.symm (mutexUnlock_ne_holding _ _)
    · cases h'
  · intro pc val a pc' val' h hbefore _
    subst hbefore
    rcases mutexAct_eq_some h with ⟨h', -⟩ | ⟨h', -⟩ | ⟨v, h', -⟩ | ⟨v, h', -⟩ | ⟨-, -, rfl⟩ | ⟨h', -⟩
    · cases h'
    · cases h'
    · cases h'
    · cases h'
    · exact not_not.mpr (by decide)
    · cases h'
  · intro pc val a pc' val' h hsame
    rcases mutexAct_eq_some h with ⟨-, -, rfl⟩ | ⟨-, -, rfl⟩ | ⟨v, rfl, hloop⟩ | ⟨v, -, -, rfl⟩ | ⟨rfl, rfl, -⟩ | ⟨-, -, rfl⟩
    · exact Iff.rfl
    · exact Iff.rfl
    · have howner := (mutexLoop_owner hostSync v val).2
      rw [hloop] at howner
      exact howner fun h' => MutexPc.noConfusion (hsame.mpr h')
    · exact Iff.rfl
    · exact absurd (hsame.mp rfl) (mutexUnlock_ne_holding _ _)
    · exact Iff.rfl

section Mutex
variable {T : Type} [DecidableEq T]

/-- No thread is in a function of the mutex, and nobody holds it. -/
def Threads.mutexIdle : Threads T MutexPc Word32 := ⟨fun _ => .idle, 0⟩

/-- Who holds the mutex, and the shape of the word and of every local variable. -/
structure MutexInv (x : Threads T MutexPc Word32) : Prop where
  exclusive : Exclusive (· = .holding) (· &&& laiMutexLocked ≠ 0) x
  word : MutexWord x.shared
  good : ∀ t, MutexGood (x.loc t)

omit [DecidableEq T] in
theorem MutexInv.idle : MutexInv (Threads.mutexIdle : Threads T MutexPc Word32) where
  exclusive := ⟨fun _ _ h => (by cases h), ⟨fun h => absurd (show (0 : Word32) &&& laiMutexLocked = 0 by decide) h, fun ⟨_, h⟩ => (by cases h)⟩⟩
  word := Or.inl rfl
  good _ := trivial

theorem MutexInv.step {hostSync : Bool} {x y : Threads T MutexPc Word32} {o : T × MutexAct} (h : MutexInv x)
    (hstep : x.step (mutexAct hostSync) o = some y) : MutexInv y := by
  have hexclusive := h.exclusive.step (mutexAct_respects hostSync) hstep
  obtain ⟨l, s, hl, rfl⟩ := Threads.step_eq_some.mp hstep
  obtain ⟨hword, hgood⟩ := mutexAct_good h.word (h.good o.1) (fun hheld => h.exclusive.taken_iff.mpr ⟨o.1, hheld⟩) hl
  refine ⟨hexclusive, hword, fun t => ?_⟩
  change MutexGood (Function.update x.loc o.1 l t)
  by_cases ht : t = o.1
  · subst ht
    rw [Function.update_self]
    exact hgood
  · rw [Function.update_of_ne ht]
    exact h.good t

/-- **Mutual exclusion.** Any number of threads may call the functions of a mutex, each at any time, in any
interleaving: at most one holds it, the word is locked exactly while one does, and no `LAI_ENSURE` fails. -/
theorem mutex_exclusive (hostSync : Bool) {y : Threads T MutexPc Word32} (os : List (T × MutexAct))
    (hrun : run (Threads.step (mutexAct hostSync)) Threads.mutexIdle os = some y) :
    (∀ t u, y.loc t = .holding → y.loc u = .holding → t = u) ∧
      (y.shared &&& laiMutexLocked ≠ 0 ↔ ∃ t, y.loc t = .holding) ∧ y.shared &&& ~~~laiMutexBits = 0 ∧
      ∀ t, y.loc t ≠ .ensureFailed := by
  have hinv : MutexInv y := run_invariant (C := fun _ _ => True) (fun _ _ _ hz _ hstep => hz.step hstep) MutexInv.idle
    (stepsMeet_true _ os) hrun
  refine ⟨hinv.exclusive.unique, hinv.exclusive.taken_iff, hinv.word.bits, fun t ht => ?_⟩
  have hgood := hinv.good t
  rw [ht] at hgood
  exact hgood

def exampleMutexRun : List (Bool × MutexAct) :=
  [(false, .lock), (false, .go), (false, .go), (true, .lock), (true, .go), (true, .go), (false, .unlock), (true, .go),
    (false, .go), (true, .go), (true, .go)]

/-- Two threads: the second one finds the mutex locked, and gets it after the first has unlocked it. -/
theorem mutex_exclusive_two :
    ∃ y : Threads Bool MutexPc Word32,
      run (Threads.step (mutexAct true)) Threads.mutexIdle exampleMutexRun = some y ∧
        y.loc true = .holding ∧ ∀ t u, y.loc t = .holding → y.loc u = .holding → t = u := by
  refine ⟨_, rfl, rfl, ?_⟩
  exact (mutex_exclusive true exampleMutexRun rfl).1

/-- The local states of a thread that has found the mutex locked and contended. -/
def MutexStarved (pc : MutexPc) : Prop :=
  pc = .loop (laiMutexLocked ||| laiMutexContended) ∨ pc = .wait (laiMutexLocked ||| laiMutexContended) ∨ pc = .hostMissing

theorem mutexAct_starved {hostSync : Bool} {pc pc' : MutexPc} {val val' : Word32} {a : MutexAct} (hpc : MutexStarved pc)
    (ha : a ≠ .timeout) (h : mutexAct hostSync pc val a = some (pc', val')) : MutexStarved pc' ∧ val' = val := by
  rcases hpc with rfl | rfl | rfl
  · have hloop : mutexLoop hostSync (laiMutexLocked ||| laiMutexContended) val =
        (mutexBlock hostSync (laiMutexLocked ||| laiMutexContended), val) := by
      unfold mutexLoop
      rw [if_neg (by decide), if_neg (by decide), if_neg (by decide)]
    simp only [mutexAct, Option.ite_none_right_eq_some, Option.some.injEq, hloop, Prod.mk.injEq] at h
    obtain ⟨-, rfl, rfl⟩ := h
    refine ⟨?_, rfl⟩
    cases hostSync
    · exact Or.inr (Or.inr rfl)
    · exact Or.inr (Or.inl rfl)
  · simp only [mutexAct, if_neg ha, Option.ite_none_right_eq_some, Option.some.injEq, Prod.mk.injEq] at h
    obtain ⟨-, rfl, rfl⟩ := h
    exact ⟨Or.inl rfl, rfl⟩
  · cases h

/-- **A thread that has found the mutex contended never gets it**, whatever the others do: after
`laihost_sync_wait` the word is not loaded again. Only an error of the host ends its wait. -/
theorem mutex_starves (hostSync : Bool) {x y : Threads T MutexPc Word32} (os : List (T × MutexAct)) {t : T}
    (ht : x.loc t = .loop (laiMutexLocked ||| laiMutexContended)) (hos : ∀ o ∈ os, o.1 = t → o.2 ≠ .timeout)
    (hrun : run (Threads.step (mutexAct hostSync)) x os = some y) : MutexStarved (y.loc t) :=
  stuck_run (C := (· ≠ .timeout)) (fun _ _ _ _ _ hP hC h => (mutexAct_starved hP hC h).1) hos (Or.inl ht) hrun

/-- Three threads, the first of which holds the mutex. The third waits on, although both others are done and the mutex
is free. -/
def exampleStarved : Threads (Fin 3) MutexPc Word32 := ⟨![.holding, .wait 1, .loop 3], 3⟩

def exampleStarvedRun : List (Fin 3 × MutexAct) :=
  [(2, .go), (0, .unlock), (0, .go), (1, .go), (1, .go), (1, .go), (1, .unlock), (2, .go), (2, .go)]

theorem mutex_starves_three :
    ∃ y : Threads (Fin 3) MutexPc Word32, run (Threads.step (mutexAct true)) exampleStarved exampleStarvedRun = some y ∧
      y.shared = 0 ∧ MutexStarved (y.loc 2) := by
  refine ⟨_, rfl, rfl, ?_⟩
  exact mutex_starves true exampleStarvedRun (x := exampleStarved) (t := 2) rfl (by decide) rfl

end Mutex

/-! ## Events -/

def laiEventCount : Word32 := 0x7FFFFFFF
def laiEventWaiters : Word32 := 0x80000000

inductive EventPc
  | idle
  /-- Before the load of `lai_event_wait`, at the head of its loop, in `laihost_sync_wait`. -/
  | waitLoad
  | waitLoop (v : Word32)
  | waiting (v : Word32)
  /-- The same for `lai_event_signal`; `wake` is before `laihost_sync_wake`. -/
  | signalLoad
  | signalLoop (v : Word32)
  | wake
  | resetLoad
  | resetLoop (v : Word32)
  /-- The `LAI_ENSURE` against an overflow of the count failed; another one did. -/
  | overflow
  | ensureFailed
  | hostMissing
deriving DecidableEq, Repr

inductive EventAct
  | wait | signal | reset | go | timeout
deriving DecidableEq, Repr

/-- The word of an event, and how often its functions did what they are for: signals counted, waits that took one of
them, signals that a reset dropped. -/
structure Event where
  val : Word32
  signals : Nat
  waits : Nat
  dropped : Nat

/-- The signals in the word that no wait took. -/
def eventCount (v : Word32) : Nat := (v &&& laiEventCount).toNat

def eventBlock (hostSync : Bool) (v : Word32) : EventPc := if hostSync then .waiting v else .hostMissing

/-- A turn of the loop of `lai_event_wait`. -/
def eventWaitLoop (hostSync : Bool) (v : Word32) (s : Event) : EventPc × Event :=
  if v &&& laiEventCount ≠ 0 then
    if v &&& laiEventWaiters ≠ 0 then (.ensureFailed, s)
    else if s.val = v then (.idle, { s with val := v - 1, waits := s.waits + 1 })
    else (.waitLoop s.val, s)
  else if v &&& laiEventWaiters = 0 then
    if s.val = v then (eventBlock hostSync v, { s with val := laiEventWaiters }) else (.waitLoop s.val, s)
  else (eventBlock hostSync v, s)

/-- A turn of the loop of `lai_event_signal`. -/
def eventSignalLoop (hostSync : Bool) (v : Word32) (s : Event) : EventPc × Event :=
  if v &&& laiEventWaiters = 0 then
    if (v + 1) &&& ~~~laiEventCount ≠ 0 then (.overflow, s)
    else if s.val = v then (.idle, { s with val := v + 1, signals := s.signals + 1 })
    else (.signalLoop s.val, s)
  else if v &&& laiEventCount ≠ 0 then (.ensureFailed, s)
  else if s.val = v then (if hostSync then .wake else .hostMissing, { s with val := 1, signals := s.signals + 1 })
  else (.signalLoop s.val, s)

/-- A turn of the loop of `lai_event_reset`. -/
def eventResetLoop (v : Word32) (s : Event) : EventPc × Event :=
  if v &&& laiEventWaiters = 0 then
    if v &&& laiEventCount ≠ 0 then
      if s.val = v then (.idle, { s with val := 0, dropped := s.dropped + eventCount v }) else (.resetLoop s.val, s)
    else (.idle, s)
  else if v &&& laiEventCount ≠ 0 then (.ensureFailed, s)
  else (.idle, s)

def eventAct (hostSync : Bool) (pc : EventPc) (s : Event) (a : EventAct) : Option (EventPc × Event) :=
  match pc with
  | .idle =>
      if a = .wait then some (.waitLoad, s) else if a = .signal then some (.signalLoad, s)
      else if a = .reset then some (.resetLoad, s) else none
  | .waitLoad => if a = .go then some (.waitLoop s.val, s) else none
  | .waitLoop v => if a = .go then some (eventWaitLoop hostSync v s) else none
  | .waiting v => if a = .go then some (.waitLoop v, s) else if a = .timeout then some (.idle, s) else none
  | .signalLoad => if a = .go then some (.signalLoop s.val, s) else none
  | .signalLoop v => if a = .go then some (eventSignalLoop hostSync v s) else none
  | .wake => if a = .go then some (.idle, s) else none
  | .resetLoad => if a = .go then some (.resetLoop s.val, s) else none
  | .resetLoop v => if a = .go then some (eventResetLoop v s) else none
  | .overflow | .ensureFailed | .hostMissing => none

/-- The words of an event: a count, or the mark of a waiter. -/
def EventWord (v : Word32) : Prop := v.toNat < 2 ^ 31 ∨ v = laiEventWaiters

def EventGood : EventPc → Prop
  | .waitLoop v | .signalLoop v | .resetLoop v | .waiting v => EventWord v
  | .ensureFailed => False
  | _ => True

/-- Every signal was taken, dropped, or is still counted. -/
structure EventInv (s : Event) : Prop where
  word : EventWord s.val
  balance : s.signals = s.waits + s.dropped + eventCount s.val

theorem eventCount_eq (v : Word32) : eventCount v = v.toNat % 2 ^ 31 := by
  have hmask : laiEventCount.toNat = 2 ^ 31 - 1 := by decide
  unfold eventCount
  rw [BitVec.toNat_and, hmask, land_low]

theorem eventCount_eq_zero {v : Word32} : v &&& laiEventCount = 0 ↔ eventCount v = 0 := by
  unfold eventCount
  constructor
  · intro h
    rw [h]
    rfl
  · intro h
    exact BitVec.eq_of_toNat_eq h

theorem eventWaiters_eq_zero {v : Word32} : v &&& laiEventWaiters = 0 ↔ v.toNat < 2 ^ 31 := by
  have hmask : laiEventWaiters.toNat = 2 ^ 32 - 2 ^ 31 := by decide
  have hand : (v &&& laiEventWaiters).toNat = v.toNat % 2 ^ 32 / 2 ^ 31 * 2 ^ 31 := by
    rw [BitVec.toNat_and, hmask, land_mask _ 31 32 (by omega)]
  have hlt := v.isLt
  constructor
  · intro h
    rw [h] at hand
    have hzero : (0 : Word32).toNat = 0 := rfl
    omega
  · intro h
    apply BitVec.eq_of_toNat_eq
    rw [hand]
    have hzero : (0 : Word32).toNat = 0 := rfl
    omega

theorem eventGood_block {hostSync : Bool} {v : Word32} (h : EventWord v) : EventGood (eventBlock hostSync v) := by
  cases hostSync
  · trivial
  · exact h

theorem eventCount_waiters : eventCount laiEventWaiters = 0 := by decide

/-- A word with a count has no waiters. -/
theorem EventWord.lt {v : Word32} (h : EventWord v) (hcount : eventCount v ≠ 0) : v.toNat < 2 ^ 31 := by
  rcases h with h | rfl
  · exact h
  · exact absurd eventCount_waiters hcount

theorem eventWaitLoop_good (hostSync : Bool) {v : Word32} {s : Event} (hs : EventInv s) (hv : EventWord v) :
    EventInv (eventWaitLoop hostSync v s).2 ∧ EventGood (eventWaitLoop hostSync v s).1 := by
  unfold eventWaitLoop
  by_cases hcount : v &&& laiEventCount = 0
  · rw [if_neg (not_not.mpr hcount)]
    have hzero := eventCount_eq_zero.mp hcount
    by_cases hwaiters : v &&& laiEventWaiters = 0
    · rw [if_pos hwaiters]
      by_cases hcas : s.val = v
      · rw [if_pos hcas]
        refine ⟨⟨Or.inr rfl, ?_⟩, eventGood_block hv⟩
        have hbalance := hs.balance
        rw [hcas, hzero] at hbalance
        change s.signals = s.waits + s.dropped + eventCount laiEventWaiters
        rw [eventCount_waiters]
        exact hbalance
      · rw [if_neg hcas]
        exact ⟨hs, hs.word⟩
    · rw [if_neg hwaiters]
      exact ⟨hs, eventGood_block hv⟩
  · rw [if_pos hcount]
    have hne : eventCount v ≠ 0 := fun h => hcount (eventCount_eq_zero.mpr h)
    have hlt := hv.lt hne
    rw [if_neg (not_not.mpr (eventWaiters_eq_zero.mpr hlt))]
    by_cases hcas : s.val = v
    · rw [if_pos hcas]
      have hbalance := hs.balance
      rw [hcas, eventCount_eq] at hbalance
      rw [eventCount_eq] at hne
      have hsub : (v - 1).toNat = v.toNat - 1 := by bv_omega
      refine ⟨⟨Or.inl ?_, ?_⟩, trivial⟩
      · change (v - 1).toNat < 2 ^ 31
        omega
      · change s.signals = s.waits + 1 + s.dropped + eventCount (v - 1)
        rw [eventCount_eq, hsub]
        omega
    · rw [if_neg hcas]
      exact ⟨hs, hs.word⟩

theorem eventSignalLoop_good (hostSync : Bool) {v : Word32} {s : Event} (hs : EventInv s) (hv : EventWord v) :
    EventInv (eventSignalLoop hostSync v s).2 ∧ EventGood (eventSignalLoop hostSync v s).1 := by
  have hhost : EventGood (if hostSync then EventPc.wake else EventPc.hostMissing) := by cases hostSync <;> trivial
  unfold eventSignalLoop
  by_cases hwaiters : v &&& laiEventWaiters = 0
  · rw [if_pos hwaiters]
    have hlt := eventWaiters_eq_zero.mp hwaiters
    by_cases hoverflow : (v + 1) &&& ~~~laiEventCount = 0
    · rw [if_neg (not_not.mpr hoverflow)]
      by_cases hcas : s.val = v
      · rw [if_pos hcas]
        have hmask : ~~~laiEventCount = laiEventWaiters := by decide
        rw [hmask] at hoverflow
        have hlt' := eventWaiters_eq_zero.mp hoverflow
        have hadd : (v + 1).toNat = v.toNat + 1 := by bv_omega
        have hbalance := hs.balance
        rw [hcas, eventCount_eq] at hbalance
        refine ⟨⟨Or.inl hlt', ?_⟩, trivial⟩
        change s.signals + 1 = s.waits + s.dropped + eventCount (v + 1)
        rw [eventCount_eq, hadd]
        omega
      · rw [if_neg hcas]
        exact ⟨hs, hs.word⟩
    · rw [if_pos hoverflow]
      exact ⟨hs, trivial⟩
  · rw [if_neg hwaiters]
    have hmark : v = laiEventWaiters := hv.resolve_left fun h => hwaiters (eventWaiters_eq_zero.mpr h)
    have hzero : v &&& laiEventCount = 0 := by rw [hmark]; decide
    rw [if_neg (not_not.mpr hzero)]
    by_cases hcas : s.val = v
    · rw [if_pos hcas]
      have hbalance := hs.balance
      rw [hcas, eventCount_eq_zero.mp hzero] at hbalance
      refine ⟨⟨Or.inl (show (1 : Word32).toNat < 2 ^ 31 by decide), ?_⟩, hhost⟩
      change s.signals + 1 = s.waits + s.dropped + eventCount 1
      rw [hbalance]
      rfl
    · rw [if_neg hcas]
      exact ⟨hs, hs.word⟩

theorem eventResetLoop_good {v : Word32} {s : Event} (hs : EventInv s) (hv : EventWord v) :
    EventInv (eventResetLoop v s).2 ∧ EventGood (eventResetLoop v s).1 := by
  unfold eventResetLoop
  by_cases hwaiters : v &&& laiEventWaiters = 0
  · rw [if_pos hwaiters]
    by_cases hcount : v &&& laiEventCount = 0
    · rw [if_neg (not_not.mpr hcount)]
      exact ⟨hs, trivial⟩
    · rw [if_pos hcount]
      by_cases hcas : s.val = v
      · rw [if_pos hcas]
        have hbalance := hs.balance
        rw [hcas] at hbalance
        refine ⟨⟨Or.inl (show (0 : Word32).toNat < 2 ^ 31 by decide), ?_⟩, trivial⟩
        change s.signals = s.waits + (s.dropped + eventCount v) + eventCount 0
        rw [hbalance, show eventCount 0 = 0 by decide]
        omega
      · rw [if_neg hcas]
        exact ⟨hs, hs.word⟩
  · rw [if_neg hwaiters]
    have hmark : v = laiEventWaiters := hv.resolve_left fun h => hwaiters (eventWaiters_eq_zero.mpr h)
    have hzero : v &&& laiEventCount = 0 := by rw [hmark]; decide
    rw [if_neg (not_not.mpr hzero)]
    exact ⟨hs, trivial⟩

/-- Every action keeps the balance. -/
theorem eventAct_good {hostSync : Bool} {pc pc' : EventPc} {s s' : Event} {a : EventAct} (hs : EventInv s)
    (hpc : EventGood pc) (h : eventAct hostSync pc s a = some (pc', s')) : EventInv s' ∧ EventGood pc' := by
  cases pc with
  | idle =>
      simp only [eventAct] at h
      split_ifs at h <;> cases h <;> exact ⟨hs, trivial⟩
  | waitLoad | signalLoad | resetLoad =>
      simp only [eventAct, Option.ite_none_right_eq_some, Option.some.injEq, Prod.mk.injEq] at h
      obtain ⟨-, rfl, rfl⟩ := h
      exact ⟨hs, hs.word⟩
  | wake =>
      simp only [eventAct, Option.ite_none_right_eq_some, Option.some.injEq, Prod.mk.injEq] at h
      obtain ⟨-, rfl, rfl⟩ := h
      exact ⟨hs, trivial⟩
  | waitLoop v =>
      simp only [eventAct, Option.ite_none_right_eq_some, Option.some.injEq] at h
      have hloop := eventWaitLoop_good hostSync hs (show EventWord v from hpc)
      rw [h.2] at hloop
      exact hloop
  | waiting v =>
      simp only [eventAct] at h
      split_ifs at h
      · cases h
        exact ⟨hs, hpc⟩
      · cases h
        exact ⟨hs, trivial⟩
  | signalLoop v =>
      simp only [eventAct, Option.ite_none_right_eq_some, Option.some.injEq] at h
      have hloop := eventSignalLoop_good hostSync hs (show EventWord v from hpc)
      rw [h.2] at hloop
      exact hloop
  | resetLoop v =>
      simp only [eventAct, Option.ite_none_right_eq_some, Option.some.injEq] at h
      have hloop := eventResetLoop_good hs (show EventWord v from hpc)
      rw [h.2] at hloop
      exact hloop
  | overflow | ensureFailed | hostMissing => cases h

section Event
variable {T : Type} [DecidableEq T]

/-- No thread is in a function of the event, and it was never signalled. -/
def Threads.eventIdle : Threads T EventPc Event := ⟨fun _ => .idle, ⟨0, 0, 0, 0⟩⟩

/-- **No signal is lost or taken twice.** Any number of threads may wait for, signal and reset an event, in any
interleaving: every signal was taken by one wait, dropped by a reset, or is still in the count. -/
theorem event_conserves (hostSync : Bool) {y : Threads T EventPc Event} (os : List (T × EventAct))
    (hrun : run (Threads.step (eventAct hostSync)) Threads.eventIdle os = some y) :
    y.shared.signals = y.shared.waits + y.shared.dropped + eventCount y.shared.val ∧
      (y.shared.val &&& laiEventWaiters ≠ 0 → eventCount y.shared.val = 0) ∧ ∀ t, y.loc t ≠ .ensureFailed := by
  have hidle : EventInv ⟨0, 0, 0, 0⟩ := ⟨Or.inl (show (0 : Word32).toNat < 2 ^ 31 by decide), by decide⟩
  obtain ⟨⟨hword, hbalance⟩, hgood⟩ := interleave_invariant (P := EventGood)
    (fun _ _ _ _ _ hs hpc h => eventAct_good hs hpc h) (x := Threads.eventIdle) hidle (fun _ => trivial) hrun
  refine ⟨hbalance, fun hwaiters => ?_, fun t ht => ?_⟩
  · by_contra hne
    exact hwaiters (eventWaiters_eq_zero.mpr (hword.lt hne))
  · have h := hgood t
    rw [ht] at h
    exact h

def exampleEventRun : List (Bool × EventAct) :=
  [(false, .wait), (false, .go), (false, .go), (true, .signal), (true, .go), (true, .go), (true, .go), (false, .go),
    (false, .go), (false, .go)]

/-- One signal, one wait. -/
theorem event_conserves_two :
    ∃ y : Threads Bool EventPc Event, run (Threads.step (eventAct true)) Threads.eventIdle exampleEventRun = some y ∧
      y.shared.waits = 1 ∧ y.shared.signals = y.shared.waits + y.shared.dropped + eventCount y.shared.val := by
  refine ⟨_, rfl, rfl, ?_⟩
  exact (event_conserves true exampleEventRun rfl).1

/-- The local states of a thread that has found another one waiting. -/
def EventStarved (pc : EventPc) : Prop :=
  pc = .waitLoop laiEventWaiters ∨ pc = .waiting laiEventWaiters ∨ pc = .hostMissing

theorem eventAct_starved {hostSync : Bool} {pc pc' : EventPc} {s s' : Event} {a : EventAct} (hpc : EventStarved pc)
    (ha : a ≠ .timeout) (h : eventAct hostSync pc s a = some (pc', s')) : EventStarved pc' := by
  rcases hpc with rfl | rfl | rfl
  · have hloop : eventWaitLoop hostSync laiEventWaiters s = (eventBlock hostSync laiEventWaiters, s) := by
      unfold eventWaitLoop
      rw [if_neg (by decide), if_neg (by decide)]
    simp only [eventAct, Option.ite_none_right_eq_some, Option.some.injEq, hloop, Prod.mk.injEq] at h
    obtain ⟨-, rfl, -⟩ := h
    cases hostSync
    · exact Or.inr (Or.inr rfl)
    · exact Or.inr (Or.inl rfl)
  · simp only [eventAct, if_neg ha, Option.ite_none_right_eq_some, Option.some.injEq, Prod.mk.injEq] at h
    obtain ⟨-, rfl, -⟩ := h
    exact Or.inl rfl
  · cases h

/-- **A thread that has found another one waiting takes no signal**, however many there are: after
`laihost_sync_wait` the word is not loaded again. -/
theorem event_starves (hostSync : Bool) {x y : Threads T EventPc Event} (os : List (T × EventAct)) {t : T}
    (ht : x.loc t = .waitLoop laiEventWaiters) (hos : ∀ o ∈ os, o.1 = t → o.2 ≠ .timeout)
    (hrun : run (Threads.step (eventAct hostSync)) x os = some y) : EventStarved (y.loc t) :=
  stuck_run (C := (· ≠ .timeout)) (fun _ _ _ _ _ hP hC h => eventAct_starved hP hC h) hos (Or.inl ht) hrun

/-- A second waiter, and two signals: the first waiter takes one, the other stays in the count. -/
def exampleEventStarved : Threads (Fin 3) EventPc Event :=
  ⟨![.waiting 0, .waitLoop laiEventWaiters, .idle], ⟨laiEventWaiters, 0, 0, 0⟩⟩

def exampleEventStarvedRun : List (Fin 3 × EventAct) :=
  [(1, .go), (2, .signal), (2, .go), (2, .go), (2, .go), (2, .signal), (2, .go), (2, .go), (0, .go), (0, .go), (0, .go),
    (1, .go), (1, .go)]

theorem event_starves_three :
    ∃ y : Threads (Fin 3) EventPc Event,
      run (Threads.step (eventAct true)) exampleEventStarved exampleEventStarvedRun = some y ∧
        eventCount y.shared.val = 1 ∧ EventStarved (y.loc 1) := by
  refine ⟨_, rfl, rfl, ?_⟩
  exact event_starves true exampleEventStarvedRun (x := exampleEventStarved) (t := 1) rfl (by decide) rfl

end Event

end Gewodsys.Lai
