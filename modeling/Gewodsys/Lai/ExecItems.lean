import Gewodsys.Lai.ExecParse

/-!
# The items of the execution stack

* `Ctl.after` : where a statement leaves the run; `after_break`, `after_ret`, `after_continue`, `after_cond`;
* `op_awaits`, `invoke_awaits`, `ret_awaits`, `loop_awaits`, `cond_awaits`, `Runs` : which terms the items wait for;
* `op_reduce`, `invoke_call`, `ret_done`, `loop_pred`, `cond_pred`, `loop_end`, `cond_end`, `method_end` : what they do
  when the terms are there.
-/

namespace Gewodsys.Lai
open Gewodsys.Machine

variable {H : Type} {N : Namespace H} {K : Ctl H} {pc : Nat} {ops : List (Operand H)} {env : Env H}

/-! ## Leaving blocks -/

/-- The state behind a method, its items gone. -/
def Ctl.exit (M : Ctl H) (stack : List StackItem) (ops : List (Operand H)) (env : Env H) : State H where
  ctxstack := M.ctxs
  blkstack := M.blks
  stack := stack
  opstack := ops
  object := env.object
  debug := env.debug

/-- Where a statement that ends so leaves the run. -/
def Ctl.after (K : Ctl H) (pc : Nat) (ops : List (Operand H)) (r : Flow × Env H) : Except Failure (State H) :=
  match r.1 with
  | .next => .ok (K.state pc ops r.2)
  | .breakLoop => breakLoop (K.state pc ops r.2)
  | .continueLoop => continueLoop (K.state pc ops r.2)
  | .ret v => returnFrom v (K.state pc ops r.2)

/-- The `While` at a block of `K`, behind which the run goes on at `pcEnd`. -/
def Ctl.inLoop (K : Ctl H) (frame : Nat) (iteration : Bool) (pred pcEnd : Nat) : Ctl H :=
  K.enter (.loop frame iteration pred) pcEnd pcEnd

/-- The top item is a `While`. -/
def Ctl.isLoop (K : Ctl H) : Bool :=
  match K.stack with
  | .loop .. :: _ => true
  | _ => false

theorem continueLoop_isLoop (h : K.isLoop = true) : continueLoop (K.state pc ops env) = .ok (K.state pc ops env) := by
  unfold Ctl.isLoop at h
  unfold continueLoop
  simp only [Ctl.state]
  cases hs : K.stack with
  | nil => rw [hs] at h; cases h
  | cons item stack =>
      rw [hs] at h
      cases item with
      | loop => rfl
      | _ => cases h

/-! What ends a block takes the block away, so its `pc` does not matter; only a `While` keeps its own. -/

theorem after_break (pc pc' : Nat) : K.after pc ops (.breakLoop, env) = K.after pc' ops (.breakLoop, env) := by
  simp only [Ctl.after, breakLoop, Ctl.state]
  cases K.stack with
  | nil => rfl
  | cons item _ => cases item <;> rfl

theorem after_ret (pc pc' : Nat) (v : Variable) : K.after pc ops (.ret v, env) = K.after pc' ops (.ret v, env) := by
  simp only [Ctl.after, returnFrom, Ctl.state]
  cases K.stack with
  | nil => rfl
  | cons item _ => cases item <;> rfl

theorem after_continue (pc pc' : Nat) (h : K.isLoop = false) :
    K.after pc ops (.continueLoop, env) = K.after pc' ops (.continueLoop, env) := by
  unfold Ctl.isLoop at h
  simp only [Ctl.after, continueLoop, Ctl.state]
  cases hs : K.stack with
  | nil => rfl
  | cons item _ =>
      rw [hs] at h
      cases item with
      | loop => cases h
      | _ => rfl

/-- An `If` is left with its block. -/
theorem after_cond {frame next limit : Nat} {branch : Bool} {els : Option BlkItem} {r : Flow × Env H} (hnext : r.1 ≠ .next) :
    (K.enter (.cond frame branch els) next limit).after pc ops r = K.after next ops r := by
  obtain ⟨flow, env⟩ := r
  cases flow with
  | next => exact absurd rfl hnext
  | breakLoop => rfl
  | continueLoop => rfl
  | ret v => rfl

/-- A method is left by `Return` only. -/
theorem after_method {want : Bool} {stack : List StackItem} {r : Flow × Env H} (h : K.stack = .method want :: stack)
    (hnext : r.1 ≠ .next) :
    K.after pc ops r =
      match r.1 with
      | .ret v => .ok ((K.exit stack ops r.2).pushResult want v)
      | _ => .error .panic := by
  obtain ⟨flow, env⟩ := r
  cases flow with
  | next => exact absurd rfl hnext
  | _ =>
      simp only [Ctl.after, breakLoop, continueLoop, returnFrom, Ctl.state, h]
      rfl

/-! ## Items that wait for terms -/

theorem takeObject_parse {frame : Nat} {use : Operand H → Except Failure (State H)} {s : State H}
    (h : s.opstack.length = frame) : takeObject N frame use s = laiExecParse N .object s := by
  unfold takeObject
  rw [List.drop_eq_nil_of_le (le_of_eq h)]

theorem takeObject_use {use : Operand H → Except Failure (State H)} {s : State H} {x : Operand H}
    (h : s.opstack = ops ++ [x]) : takeObject N ops.length use s = use x := by
  unfold takeObject
  rw [h, List.drop_left]

variable [DecidableEq H]

/-- Block items: the top item parses statements. -/
def Runs (N : Namespace H) (K : Ctl H) : Prop := ∀ len, Awaits N K .exec len

theorem op_awaits {o : Op} {want : Bool} {frame k : Nat} {mode : Mode} (hmode : o.argModes[k]? = some mode) :
    Awaits N (K.push (.op frame o want)) mode (frame + k) where
  top := List.cons_ne_nil _ _
  process pc ops env hpc hlen := by
    have hpc' : pc < K.limit := hpc
    simp only [laiExecProcess, Ctl.push, Ctl.state]
    rw [if_neg (by omega), hlen, Nat.add_sub_cancel_left, hmode]

theorem invoke_awaits {want : Bool} {frame argc k : Nat} (hk : k < argc) :
    Awaits N (K.push (.invoke frame argc want)) .object (frame + 1 + k) where
  top := List.cons_ne_nil _ _
  process pc ops env hpc hlen := by
    have hpc' : pc < K.limit := hpc
    show (if K.limit < pc then _ else if argc + 1 < ops.length - frame then _
      else if ops.length - frame = argc + 1 then _ else _) = _
    rw [if_neg (by omega), if_neg (by omega), if_neg (by omega)]

theorem ret_awaits {frame : Nat} : Awaits N (K.push (.ret frame)) .object frame where
  top := List.cons_ne_nil _ _
  process pc ops env hpc hlen := by
    have hpc' : pc < K.limit := hpc
    show (if K.limit < pc then _ else takeObject N frame _ _) = _
    rw [if_neg (by omega), takeObject_parse hlen]

theorem loop_awaits {frame pred pcEnd : Nat} : Awaits N (K.inLoop frame false pred pcEnd) .object frame where
  top := List.cons_ne_nil _ _
  process pc ops env hpc hlen := by
    have hpc' : pc < pcEnd := hpc
    show (if pcEnd < pc then _ else takeObject N frame _ _) = _
    rw [if_neg (by omega), takeObject_parse hlen]

theorem cond_awaits {frame next limit : Nat} {els : Option BlkItem} :
    Awaits N (K.enter (.cond frame false els) next limit) .object frame where
  top := List.cons_ne_nil _ _
  process pc ops env hpc hlen := by
    have hpc' : pc < limit := hpc
    show (if limit < pc then _ else takeObject N frame _ _) = _
    rw [if_neg (by omega), takeObject_parse hlen]

theorem loop_runs {frame pred pcEnd : Nat} : Runs N (K.inLoop frame true pred pcEnd) := by
  refine fun len => ⟨List.cons_ne_nil _ _, fun pc ops env hpc _ => ?_⟩
  have hpc' : pc < pcEnd := hpc
  show (if pcEnd < pc then _ else if pc = pcEnd then _ else _) = _
  rw [if_neg (by omega), if_neg (by omega)]

theorem cond_runs {frame next limit : Nat} {els : Option BlkItem} :
    Runs N (K.enter (.cond frame true els) next limit) := by
  refine fun len => ⟨List.cons_ne_nil _ _, fun pc ops env hpc _ => ?_⟩
  have hpc' : pc < limit := hpc
  show (if limit < pc then _ else if pc = limit then _ else _) = _
  rw [if_neg (by omega), if_neg (by omega)]

theorem method_runs {want : Bool} {stack : List StackItem} (h : K.stack = .method want :: stack) : Runs N K := by
  refine fun len => ⟨by rw [h]; exact List.cons_ne_nil _ _, fun pc ops env hpc _ => ?_⟩
  unfold laiExecProcess
  simp only [Ctl.state, h]
  rw [if_neg (by omega), if_neg (by omega)]

/-! ## The terms are there -/

/-- The operator, its arguments complete. -/
theorem op_reduce {o : Op} {want : Bool} {operands : List (Operand H)} (hpc : pc ≤ K.limit)
    (hlen : operands.length = o.argModes.length) :
    laiExecProcess N ((K.push (.op ops.length o want)).state pc (ops ++ operands) env) =
      (laiExecReduceOp N o operands env).bind fun r => .ok ((K.state pc ops r.2).pushResult want r.1) := by
  simp only [laiExecProcess, Ctl.push, Ctl.state]
  rw [if_neg (by omega), List.length_append, Nat.add_sub_cancel_left, hlen, List.getElem?_eq_none (le_refl _),
    List.drop_left, List.take_left]
  cases laiExecReduceOp N o operands env with
  | error f => rfl
  | ok r => rfl

/-- The method that `handle` names, called from `K`. -/
def Ctl.callee (K : Ctl H) (pc : Nat) (env : Env H) (want : Bool) (handle : H) (code : List Byte) (size : Nat) : Ctl H where
  code := code
  handle := handle
  limit := size
  stack := .method want :: K.stack
  blks := ⟨pc, K.limit⟩ :: K.blks
  ctxs := ⟨K.code, K.handle, env.invocation⟩ :: K.ctxs

/-- The call, its arguments complete. -/
theorem invoke_call {k : H} {flags : Byte} {code : List Byte} {size : Nat} (ops : List (Operand H)) (env : Env H)
    (want : Bool) (operands : List (Operand H)) (hk : N.node k = .method flags code size) (hpc : pc ≤ K.limit) :
    laiExecProcess N ((K.push (.invoke ops.length operands.length want)).state pc
        (ops ++ .resolvedName k :: operands) env) =
      (operands.mapM laiExecGetObjectref).bind fun args =>
        .ok ((K.callee pc env want k code size).state 0 ops { env with invocation := some (.ofArgs args) }) := by
  have hlen : (ops ++ Operand.resolvedName k :: operands).length - ops.length = operands.length + 1 := by
    rw [List.length_append, Nat.add_sub_cancel_left, List.length_cons]
  show (if K.limit < pc then _
    else if operands.length + 1 < (ops ++ Operand.resolvedName k :: operands).length - ops.length then _
    else if (ops ++ Operand.resolvedName k :: operands).length - ops.length = operands.length + 1 then _ else _) = _
  rw [if_neg (by omega), if_neg (by omega), if_pos hlen]
  simp only [invokeMethod, Ctl.push, Ctl.state, List.drop_left, List.take_left, hk]
  cases operands.mapM laiExecGetObjectref with
  | error f => rfl
  | ok args => rfl

theorem ret_done {v : Variable} (hpc : pc ≤ K.limit) :
    laiExecProcess N ((K.push (.ret ops.length)).state pc (ops ++ [.object v]) env) =
      returnFrom v (K.state pc ops env) := by
  show (if K.limit < pc then _ else takeObject N ops.length _ _) = _
  rw [if_neg (by omega), takeObject_use rfl]
  simp only [laiExecGetObjectref, Ctl.push, Ctl.state, List.take_left, bind, Except.bind]

theorem loop_pred {pcEnd : Nat} (ops : List (Operand H)) (env : Env H) (v : Variable) (pred : Nat) (hpc : pc ≤ pcEnd) :
    laiExecProcess N ((K.inLoop ops.length false pred pcEnd).state pc (ops ++ [.object v]) env) =
      (truth v).bind fun b =>
        .ok (if b then (K.inLoop ops.length true pred pcEnd).state pc ops env else K.state pcEnd ops env) := by
  show (if pcEnd < pc then _ else takeObject N ops.length _ _) = _
  rw [if_neg (by omega), takeObject_use rfl]
  simp only [Ctl.inLoop, Ctl.enter, Ctl.state, List.take_left]
  cases v with
  | none => rfl
  | integer m =>
      by_cases hm : m = 0
      · subst hm; rfl
      · simp only [laiExecGetInteger, truth, bind, Except.bind, hm, ne_eq, not_false_eq_true, if_true, decide_true]
        rfl

/-- Where the block of an `Else` is, if the predicate does not hold; else the run goes on at `next`. -/
def Ctl.otherwise (K : Ctl H) (frame next : Nat) (els : Option BlkItem) (ops : List (Operand H)) (env : Env H) : State H :=
  match els with
  | some blk => (K.enter (.cond frame true els) next blk.limit).state blk.pc ops env
  | none => K.state next ops env

theorem cond_pred {limit : Nat} (ops : List (Operand H)) (env : Env H) (v : Variable) (next : Nat) (els : Option BlkItem)
    (hpc : pc ≤ limit) :
    laiExecProcess N ((K.enter (.cond ops.length false els) next limit).state pc (ops ++ [.object v]) env) =
      (truth v).bind fun b =>
        .ok (if b then (K.enter (.cond ops.length true els) next limit).state pc ops env
          else K.otherwise ops.length next els ops env) := by
  show (if limit < pc then _ else takeObject N ops.length _ _) = _
  rw [if_neg (by omega), takeObject_use rfl]
  simp only [Ctl.enter, Ctl.state, List.take_left]
  cases v with
  | none => rfl
  | integer m =>
      by_cases hm : m = 0
      · subst hm
        cases els <;> rfl
      · simp only [laiExecGetInteger, truth, bind, Except.bind, hm, ne_eq, not_false_eq_true, if_true, decide_true]
        rfl

theorem loop_end {frame pred pcEnd : Nat} :
    execStep N ((K.inLoop frame true pred pcEnd).state pcEnd ops env) =
      .more ((K.inLoop frame false pred pcEnd).state pred ops env) := by
  refine execStep_of_process (List.cons_ne_nil _ _) ?_
  show (if pcEnd < pcEnd then _ else if pcEnd = pcEnd then _ else _) = _
  rw [if_neg (lt_irrefl _), if_pos rfl]
  rfl

theorem cond_end {frame next limit : Nat} {els : Option BlkItem} :
    execStep N ((K.enter (.cond frame true els) next limit).state limit ops env) = .more (K.state next ops env) := by
  refine execStep_of_process (List.cons_ne_nil _ _) ?_
  show (if limit < limit then _ else if limit = limit then _ else _) = _
  rw [if_neg (lt_irrefl _), if_pos rfl]
  rfl

/-- The end of a method is reached: no operand may wait. -/
theorem method_end {want : Bool} {stack : List StackItem} (h : K.stack = .method want :: stack) :
    laiExecProcess N (K.state K.limit ops env) =
      if ops.isEmpty then .ok ((K.exit stack ops env).pushResult want (.integer 0)) else .error .panic := by
  unfold laiExecProcess
  simp only [Ctl.state, h]
  rw [if_neg (lt_irrefl _), if_pos trivial]
  cases ops <;> rfl

end Gewodsys.Lai
