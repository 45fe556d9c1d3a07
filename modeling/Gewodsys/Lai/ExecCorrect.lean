import Gewodsys.Lai.AmlRules
import Gewodsys.Lai.ExecFollows

/-!
# `lai_eval_args` on a method

* `laiEvalDone` : what `lai_eval_args` finds when the run is over;
* `exec_ends_iff` : a run ends just as the meaning of its method says, and only where the meaning is there with some fuel;
* `exec_frame` : it changes the objects of named targets only;
* `continue_never_ends` : a `Continue` directly in a `While` is never left;
* `implicit_return_fails` : a method without `Return` gives no result where an operand waits.
-/

namespace Gewodsys.Lai
open Gewodsys.Machine

variable {H : Type}

/-- The state behind the run: the stacks are empty but for the result. -/
def laiEvalDone (r : Variable × Env H) : State H where
  ctxstack := []
  blkstack := []
  stack := []
  opstack := [.object r.1]
  object := r.2.object
  debug := r.2.debug

theorem result_eq_ok {r : Fueled Failure (Variable × Env H)} {t : State H}
    (h : Fueled.result (fun r => .ok (laiEvalDone r)) r = some (.ok t)) : ∃ a, r = .ok a ∧ t = laiEvalDone a := by
  rcases r with (f | _) | a
  · cases h
  · cases h
  · cases h; exact ⟨a, rfl, rfl⟩

/-- What is there before the call. -/
def Env.start (object : H → Variable) : Env H := ⟨none, object, []⟩

variable [DecidableEq H]

/-- The result of the method, with so much fuel. -/
def Program.run (P : Program H) (handle : H) (args : List Variable) (object : H → Variable) (n : Nat) :
    Fueled Failure (Variable × Env H) :=
  (sem P.toNamespace P.body n).call handle args true (.start object)

variable {P : Program H} {handle : H} {flags : Byte} {code : List Byte} {size : Nat}

/-- The run of a method follows its meaning. A call takes a unit of fuel. -/
theorem run_follows (hnode : P.node handle = .method flags code size) (args : List Variable) (object : H → Variable)
    (n : Nat) :
    Follows (execStep P.toNamespace) n (laiEvalState code size handle args object) (P.run handle args object (n + 1))
      (fun r => .ok (laiEvalDone r)) :=
  (sem_follows P (n + 1)).call (M := ⟨code, handle, size, [.method true], [], []⟩) hnode rfl rfl rfl rfl args []
    (.start object)

theorem run_of_ends (hnode : P.node handle = .method flags code size) {args : List Variable} {object : H → Variable}
    {o : Except Failure (State H)} (h : Ends (execStep P.toNamespace) (laiEvalState code size handle args object) o) :
    ∃ n, Fueled.result (fun r => .ok (laiEvalDone r)) (P.run handle args object (n + 1)) = some o :=
  (follows_ends_iff (run_follows hnode args object) (fun a t ht => by cases ht; rfl) o).mp h

theorem run_ends (hnode : P.node handle = .method flags code size) {args : List Variable} {object : H → Variable}
    {n : Nat} {o : Except Failure (State H)}
    (h : Fueled.result (fun r => .ok (laiEvalDone r)) (P.run handle args object (n + 1)) = some o) :
    Ends (execStep P.toNamespace) (laiEvalState code size handle args object) o :=
  (run_follows hnode args object n).ends (fun a t ht => by cases ht; rfl) h

/-- A method ends, in a state or with a failure, just as its meaning does with some fuel. -/
theorem exec_ends_iff (P : Program H) {handle : H} {flags : Byte} {code : List Byte} {size : Nat}
    (hnode : P.node handle = .method flags code size) (args : List Variable) (object : H → Variable)
    (o : Except Failure (State H)) :
    Ends (execStep P.toNamespace) (laiEvalState code size handle args object) o ↔
      ∃ n, Fueled.result (fun r => .ok (laiEvalDone r)) (P.run handle args object n) = some o := by
  constructor
  · intro h
    obtain ⟨n, hn⟩ := run_of_ends hnode h
    exact ⟨n + 1, hn⟩
  · rintro ⟨n, hn⟩
    cases n with
    | zero => cases hn
    | succ n => exact run_ends hnode hn

/-! A program with a counter, for the results below. -/

theorem lead_of_isLead (c : Byte) (h : isLead c = true) : ∀ s ∈ [(⟨c, 0x5F, 0x5F, 0x5F⟩ : Seg)], isLead s.b0 = true := by
  intro s hs
  rw [List.mem_singleton.mp hs]
  exact h

/-- The name of one character. -/
def shortName (c : Byte) (h : isLead c = true) : NameString where
  isAbsolute := false
  height := 0
  segs := [⟨c, 0x5F, 0x5F, 0x5F⟩]
  height_eq := nofun
  segs_lt := Nat.succ_lt_succ (Nat.zero_lt_succ 254)
  lead := lead_of_isLead c h

/-- `C`, a counter. -/
def nameC : NameString := shortName 0x43 rfl
/-- `I`, which adds to it. -/
def nameI : NameString := shortName 0x49 rfl

inductive CountNode
  | main | add | spin | counter
deriving DecidableEq

/-- `main` calls `add` in a loop; `spin` is a loop with `Continue`. -/
def countBody : CountNode → Block
  | .main =>
      .cons (.loop (.op .lless (.object (.ref nameC 0 .nil) (.object (.const (.byte 2)) .nil)))
          (.cons (.expr (.ref nameI 1 (.object (.const .one) .nil))) .nil))
        (.cons (.ret (.ref nameC 0 .nil)) .nil)
  | .add =>
      .cons (.expr (.op .add (.object (.ref nameC 0 .nil) (.object (.arg ⟨0, Nat.succ_pos 6⟩) (.reference (.name nameC) .nil))))) .nil
  | .spin => .cons (.loop (.const .one) (.cons .continueLoop .nil)) .nil
  | .counter => .nil

/-- A method, loaded as it is encoded. -/
def countMethod (flags : Byte) (h : CountNode) : NsNode := .method flags (countBody h).encode (countBody h).encode.length

def countNamespace : Namespace CountNode where
  laiDoResolve _ amln := .ok (if amln = nameC.parsed then some .counter else if amln = nameI.parsed then some .add else none)
  node h :=
    match h with
    | .add => countMethod 1 .add
    | .counter => .name
    | h => countMethod 0 h

theorem takes_C {k h : CountNode} (hk : countNamespace.laiDoResolve h nameC.parsed = .ok (some k)) :
    Takes countNamespace k 0 := by
  cases hk
  rfl

theorem takes_I {k h : CountNode} (hk : countNamespace.laiDoResolve h nameI.parsed = .ok (some k)) :
    Takes countNamespace k 1 := by
  cases hk
  rfl

theorem count_fits (h : CountNode) : (countBody h).Fits countNamespace h := by
  have hC : nameC.Named := .inr (.inr (List.cons_ne_nil _ _))
  have hI : nameI.Named := .inr (.inr (List.cons_ne_nil _ _))
  cases h with
  | main =>
      exact ⟨⟨⟨⟨hC, fun _ => takes_C, trivial⟩, trivial, trivial⟩, ⟨hI, fun _ => takes_I, trivial, trivial⟩, trivial⟩,
        ⟨hC, fun _ => takes_C, trivial⟩, trivial⟩
  | add => exact ⟨⟨⟨hC, fun _ => takes_C, trivial⟩, trivial, hC, trivial⟩, trivial⟩
  | spin => exact ⟨⟨trivial, trivial, trivial⟩, trivial⟩
  | counter => exact trivial

theorem count_code {h : CountNode} {flags : Byte} {code : List Byte} {size : Nat}
    (hn : countNamespace.node h = .method flags code size) :
    code = (countBody h).encode ∧ size = (countBody h).encode.length := by
  cases h <;> cases hn <;> exact ⟨rfl, rfl⟩

theorem count_length (h : CountNode) : (countBody h).encode.length < 2 ^ 28 := by
  cases h <;> decide

def countProgram : Program CountNode where
  toNamespace := countNamespace
  body := countBody
  fits := count_fits
  code_eq _ _ _ _ hn := ⟨(count_code hn).1 ▸ List.prefix_refl _, (count_code hn).2⟩
  code_lt h _ _ _ hn := (count_code hn).1 ▸ count_length h

def countObject : CountNode → Variable := fun _ => .integer 0

def countEnd : Env CountNode := .start (Function.update (Function.update countObject .counter (.integer 1)) .counter (.integer 2))

theorem count_run : Fueled.result (fun r => .ok (laiEvalDone r)) (countProgram.run .main [] countObject 5) =
    some (.ok (laiEvalDone (.integer 2, countEnd))) := rfl

/-- Two calls count to 2. -/
theorem exec_ends_iff_count :
    Ends (execStep countNamespace) (laiEvalState (countBody .main).encode (countBody .main).encode.length .main [] countObject)
      (.ok (laiEvalDone (.integer 2, countEnd))) :=
  (exec_ends_iff countProgram rfl [] countObject _).mpr ⟨5, count_run⟩

/-! ## What a run changes -/

/-- A run changes only the objects of names, and of those only the targets in the methods of the program. -/
theorem exec_frame (P : Program H) {handle : H} {flags : Byte} {code : List Byte} {size : Nat}
    (hnode : P.node handle = .method flags code size) (args : List Variable) (object : H → Variable) {t : State H}
    (hends : Ends (execStep P.toNamespace) (laiEvalState code size handle args object) (.ok t)) {j : H}
    (hj : t.object j ≠ object j) :
    P.node j = .name ∧ ∃ k, ¬ (P.body k).Within P.toNamespace k (· ≠ .resolvedName j) := by
  obtain ⟨n, hn⟩ := run_of_ends hnode hends
  obtain ⟨r, hr, rfl⟩ := result_eq_ok hn
  -- each of the two is an invariant of the run: the object of `j` is what it was
  have hkept : ∀ ok : Operand H → Prop, (∀ v, ok (.object v)) → ok .nullName →
      (∀ k, ok (.resolvedName k) → P.node k = .name → j ≠ k) → (∀ k, (P.body k).Within P.toNamespace k ok) → False := by
    intro ok hobject hnull hne hwithin
    have hK := Keeps.of_stores (store_keeps_object (v := object j) hnull hne) hobject (fun _ h => h)
    have hstart : (Env.start object).object j = object j := rfl
    exact hj ((sem_keeps hK hwithin (n + 1)).call hstart hr)
  constructor
  · by_contra hname
    refine hkept (fun _ => True) (fun _ => trivial) trivial (fun k _ hk hjk => hname (hjk ▸ hk)) fun k => ?_
    exact Block.within_true (P.body k)
  · by_contra hno
    exact hkept (· ≠ .resolvedName j) nofun nofun (fun k hk _ hjk => hk (by rw [hjk])) (not_exists_not.mp hno)

theorem exec_frame_count : countNamespace.node .counter = .name ∧
    ∃ k, ¬ (countBody k).Within countNamespace k (· ≠ .resolvedName .counter) :=
  exec_frame countProgram rfl [] countObject (run_ends (n := 4) rfl count_run)
    (j := .counter) (by decide)

/-! ## Loops that are never left -/

/-- A `Continue` directly in a `While` whose predicate holds is met again and again. -/
theorem continue_never_ends (P : Program H) {handle : H} {flags : Byte} {code : List Byte} {size n : Nat} {e : Expr}
    {a b c rest : Block} {v : Word64} {object : H → Variable} {args : List Variable} {env env' env'' : Env H}
    (hnode : P.node handle = .method flags code size)
    (hbody : P.body handle = c.append (.cons (.loop e (a.append (.cons .continueLoop b))) rest))
    (hbefore : c.exec P.toNamespace (sem P.toNamespace P.body n) handle false true
      ⟨some (.ofArgs args), object, []⟩ = .ok (.next, env))
    (hpred : e.eval P.toNamespace (sem P.toNamespace P.body n) handle true true env = .ok (.integer v, env'))
    (hv : v ≠ 0)
    (hfirst : a.exec P.toNamespace (sem P.toNamespace P.body n) handle true true env' = .ok (.next, env''))
    (o : Except Failure (State H)) :
    ¬ Ends (execStep P.toNamespace) (laiEvalState code size handle args object) o := by
  intro hends
  obtain ⟨m, hm⟩ := run_of_ends hnode hends
  -- with enough fuel for both, the run of the method is stuck in the loop
  have hB := sem_mono P.toNamespace P.body (Nat.le_max_left n m)
  have hexec : (P.body handle).exec P.toNamespace (sem P.toNamespace P.body (max n m)) handle false true
      ⟨some (.ofArgs args), object, []⟩ = .error .fuel := by
    rw [hbody, Block.exec_append _ c ((Block.exec_mono hB c false true _).ok hbefore), Block.exec, Stmt.exec]
    simp only [(Expr.eval_mono hB e true true env).ok hpred, truth, Fueled.lift, bind, Except.bind, hv, ne_eq,
      not_false_eq_true, decide_true, if_true, Stmt.isContinue, Bool.and_false, Bool.false_eq_true, if_false]
    rw [Block.exec_append _ a ((Block.exec_mono hB a true true env').ok hfirst), Block.exec]
    rfl
  have hspin : P.run handle args object (max n m + 1) = .error .fuel := by
    show (Block.exec _ _ _ _ _ _ ⟨some (.ofArgs args), object, []⟩ >>= _) = _
    rw [hexec]
    rfl
  have hle := (sem_mono P.toNamespace P.body (Nat.succ_le_succ (Nat.le_max_right n m))).call handle args true
    (.start object)
  rcases hle with hfuel | heq
  · rw [Program.run, hfuel] at hm
    cases hm
  · rw [Program.run, heq, ← Program.run, hspin] at hm
    cases hm

theorem continue_never_ends_count :
    countBody .spin = .cons (.loop (.const .one) (.cons .continueLoop .nil)) .nil ∧ ∀ o : Except Failure (State CountNode),
      ¬ Ends (execStep countNamespace)
        (laiEvalState (countBody .spin).encode (countBody .spin).encode.length .spin [] countObject) o := by
  refine ⟨rfl, fun o => ?_⟩
  exact continue_never_ends countProgram (n := 1) (a := .nil) (b := .nil) (c := .nil) rfl rfl rfl rfl (by decide) rfl o

/-! ## Methods without `Return` -/

/-- A method that does not return, called while an operand waits, ends no run, whatever is below it. -/
theorem implicit_return_fails (P : Program H) {handle : H} {flags : Byte} {code : List Byte} {size : Nat}
    (hnode : P.node handle = .method flags code size) (hno : (P.body handle).NoReturn) (want : Bool)
    (stack : List StackItem) (blks : List BlkItem) (ctxs : List (CtxItem H)) (args : List Variable)
    (ops : List (Operand H)) (hops : ops ≠ []) (object : H → Variable) (debug : List Variable) (t : State H) :
    ¬ Ends (execStep P.toNamespace)
      ⟨⟨code, handle, some (.ofArgs args)⟩ :: ctxs, ⟨0, size⟩ :: blks, .method want :: stack, ops, object, debug⟩
      (.ok t) := by
  intro hends
  have hfollows := fun n => (sem_follows P (n + 1)).call (M := ⟨code, handle, size, .method want :: stack, blks, ctxs⟩)
    hnode rfl rfl rfl rfl args ops ⟨none, object, debug⟩
  obtain ⟨n, hn⟩ := hends.not_lasts
  have h := hfollows n
  have hidle : ops.isEmpty = false := by
    cases ops with
    | nil => exact absurd rfl hops
    | cons => rfl
  rw [hidle] at h
  rcases hcall : (sem P.toNamespace P.body (n + 1)).call handle args false ⟨none, object, debug⟩ with (f | _) | r
  · rw [hcall] at h
    have hfail : Ends (execStep P.toNamespace) _ (.error f) := ⟨h, nofun⟩
    cases hfail.unique hends
  · rw [hcall] at h
    exact hn h
  · exact call_noReturn hno (n + 1) args _ r hcall

/-- `add` called while 7 waits for the sum. -/
theorem implicit_return_fails_count : (countBody .add).NoReturn ∧ ∀ t : State CountNode,
    ¬ Ends (execStep countNamespace)
      ⟨[⟨(countBody .add).encode, .add, some (.ofArgs [.integer 1])⟩, ⟨(countBody .main).encode, .main, none⟩],
        [⟨0, (countBody .add).encode.length⟩, ⟨4, 4⟩], [.method true, .op 0 .add true, .method true],
        [.object (.integer 7)], countObject, []⟩ (.ok t) := by
  refine ⟨⟨trivial, trivial⟩, fun t => ?_⟩
  exact implicit_return_fails countProgram (show countNamespace.node .add = .method 1 _ _ from rfl) ⟨trivial, trivial⟩ true
    _ _ _ [.integer 1] _ (List.cons_ne_nil _ _) countObject [] t

end Gewodsys.Lai
