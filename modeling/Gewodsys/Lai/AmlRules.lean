import Gewodsys.Lai.Aml

/-!
# Rules for the meaning of programs

* `Below.Le`, `sem_mono` : more fuel changes no value; `Block.append`;
* `Block.NoReturn`, `call_noReturn` : what a method without `Return` cannot do;
* `Keeps`, `Block.Within` : what every operator keeps, on operands that are allowed; `sem_keeps` : a method of a program
  that names only such operands keeps it too;
* `StoreKeeps`, `reduce_keeps` : what the stores keep, the operators keep; `store_keeps_object` : the object of a node that
  is no target.
-/

namespace Gewodsys.Lai
open Gewodsys.Machine

variable {H : Type} {N : Namespace H}

/-! ## Terms -/

def Block.append : Block → Block → Block
  | .nil, b => b
  | .cons s rest, b => .cons s (rest.append b)

mutual

/-- No part of it is a `Return`. -/
def Stmt.NoReturn : Stmt → Prop
  | .cond _ body => body.NoReturn
  | .condElse _ body els => body.NoReturn ∧ els.NoReturn
  | .loop _ body => body.NoReturn
  | .ret _ => False
  | _ => True

def Block.NoReturn : Block → Prop
  | .nil => True
  | .cons s rest => s.NoReturn ∧ rest.NoReturn

end

def Target.Within (N : Namespace H) (h : H) (ok : Operand H → Prop) (t : Target) : Prop :=
  ∀ x, t.operand N h = .ok x → ok x

mutual

/-- Every target is allowed. -/
def Expr.Within (N : Namespace H) (h : H) (ok : Operand H → Prop) : Expr → Prop
  | .ref _ _ args => args.Within N h ok
  | .op _ args => args.Within N h ok
  | _ => True

def Args.Within (N : Namespace H) (h : H) (ok : Operand H → Prop) : {ms : List Mode} → Args ms → Prop
  | _, .nil => True
  | _, .object e rest => e.Within N h ok ∧ rest.Within N h ok
  | _, .reference t rest => t.Within N h ok ∧ rest.Within N h ok

end

mutual

def Stmt.Within (N : Namespace H) (h : H) (ok : Operand H → Prop) : Stmt → Prop
  | .expr e => e.Within N h ok
  | .cond e body => e.Within N h ok ∧ body.Within N h ok
  | .condElse e body els => e.Within N h ok ∧ body.Within N h ok ∧ els.Within N h ok
  | .loop e body => e.Within N h ok ∧ body.Within N h ok
  | .ret e => e.Within N h ok
  | _ => True

def Block.Within (N : Namespace H) (h : H) (ok : Operand H → Prop) : Block → Prop
  | .nil => True
  | .cons s rest => s.Within N h ok ∧ rest.Within N h ok

end

mutual

theorem Expr.within_true {h : H} : (e : Expr) → e.Within N h (fun _ => True)
  | .const _ => trivial
  | .arg _ => trivial
  | .loc _ => trivial
  | .ref _ _ args => Args.within_true args
  | .op _ args => Args.within_true args

theorem Args.within_true {h : H} : {ms : List Mode} → (args : Args ms) → args.Within N h (fun _ => True)
  | _, .nil => trivial
  | _, .object e rest => ⟨Expr.within_true e, Args.within_true rest⟩
  | _, .reference _ rest => ⟨fun _ _ => trivial, Args.within_true rest⟩

end

mutual

theorem Stmt.within_true {h : H} : (s : Stmt) → s.Within N h (fun _ => True)
  | .expr e => Expr.within_true e
  | .cond e body => ⟨Expr.within_true e, Block.within_true body⟩
  | .condElse e body els => ⟨Expr.within_true e, Block.within_true body, Block.within_true els⟩
  | .loop e body => ⟨Expr.within_true e, Block.within_true body⟩
  | .ret e => Expr.within_true e
  | .nop => trivial
  | .breakPoint => trivial
  | .breakLoop => trivial
  | .continueLoop => trivial

theorem Block.within_true {h : H} : (b : Block) → b.Within N h (fun _ => True)
  | .nil => trivial
  | .cons s rest => ⟨Stmt.within_true s, Block.within_true rest⟩

end

variable [DecidableEq H]

/-! ## More fuel -/

structure Below.Le (B C : Below H) : Prop where
  call : ∀ k args idle env, Fueled.Le (B.call k args idle env) (C.call k args idle env)
  again : ∀ h e b idle env, Fueled.Le (B.again h e b idle env) (C.again h e b idle env)

variable {B C : Below H}

mutual

theorem Expr.eval_mono (hB : B.Le C) {h : H} : ∀ (e : Expr) (idle want : Bool) (env : Env H),
    Fueled.Le (e.eval N B h idle want env) (e.eval N C h idle want env)
  | .const c, _, _, env => by rw [Expr.eval, Expr.eval]; exact .refl _
  | .arg i, _, want, env => by rw [Expr.eval, Expr.eval]; exact .refl _
  | .loc i, _, want, env => by rw [Expr.eval, Expr.eval]; exact .refl _
  | .ref x _ args, idle, _, env => by
      rw [Expr.eval, Expr.eval]
      refine Fueled.Le.bind (.refl _) fun k => ?_
      cases N.node k with
      | name => exact .refl _
      | other => exact .refl _
      | method flags code size =>
          refine Fueled.Le.bind (Args.eval_mono hB args false env) fun r => ?_
          exact Fueled.Le.bind (.refl _) fun values => Fueled.Le.bind (hB.call k values idle r.2) fun _ => .refl _
  | .op o args, idle, _, env => by
      rw [Expr.eval, Expr.eval]
      exact Fueled.Le.bind (Args.eval_mono hB args idle env) fun _ => .refl _

theorem Args.eval_mono (hB : B.Le C) {h : H} : ∀ {ms : List Mode} (args : Args ms) (idle : Bool) (env : Env H),
    Fueled.Le (args.eval N B h idle env) (args.eval N C h idle env)
  | _, .nil, _, env => by rw [Args.eval, Args.eval]; exact .refl _
  | _, .object e rest, idle, env => by
      rw [Args.eval, Args.eval]
      refine Fueled.Le.bind (Expr.eval_mono hB e idle true env) fun r => ?_
      exact Fueled.Le.bind (Args.eval_mono hB rest false r.2) fun _ => .refl _
  | _, .reference t rest, _, env => by
      rw [Args.eval, Args.eval]
      refine Fueled.Le.bind (.refl _) fun operand => ?_
      exact Fueled.Le.bind (Args.eval_mono hB rest false env) fun _ => .refl _

end

mutual

theorem Stmt.exec_mono (hB : B.Le C) {h : H} : ∀ (s : Stmt) (idle : Bool) (env : Env H),
    Fueled.Le (s.exec N B h idle env) (s.exec N C h idle env)
  | .expr e, idle, env => by
      rw [Stmt.exec, Stmt.exec]
      exact Fueled.Le.bind (Expr.eval_mono hB e idle false env) fun _ => .refl _
  | .nop, _, env => by rw [Stmt.exec, Stmt.exec]; exact .refl _
  | .breakPoint, _, env => by rw [Stmt.exec, Stmt.exec]; exact .refl _
  | .cond e body, idle, env => by
      rw [Stmt.exec, Stmt.exec]
      refine Fueled.Le.bind (Expr.eval_mono hB e idle true env) fun r => Fueled.Le.bind (.refl _) fun b => ?_
      cases b with
      | true => exact Block.exec_mono hB body false idle r.2
      | false => exact .refl _
  | .condElse e body els, idle, env => by
      rw [Stmt.exec, Stmt.exec]
      refine Fueled.Le.bind (Expr.eval_mono hB e idle true env) fun r => Fueled.Le.bind (.refl _) fun b => ?_
      cases b with
      | true => exact Block.exec_mono hB body false idle r.2
      | false => exact Block.exec_mono hB els false idle r.2
  | .loop e body, idle, env => by
      rw [Stmt.exec, Stmt.exec]
      refine Fueled.Le.bind (Expr.eval_mono hB e idle true env) fun r => Fueled.Le.bind (.refl _) fun b => ?_
      cases b with
      | true =>
          refine Fueled.Le.bind (Block.exec_mono hB body true idle r.2) fun q => ?_
          obtain ⟨flow, env'⟩ := q
          cases flow with
          | next => exact hB.again h e body idle env'
          | continueLoop => exact hB.again h e body idle env'
          | breakLoop => exact .refl _
          | ret v => exact .refl _
      | false => exact .refl _
  | .breakLoop, _, env => by rw [Stmt.exec, Stmt.exec]; exact .refl _
  | .continueLoop, _, env => by rw [Stmt.exec, Stmt.exec]; exact .refl _
  | .ret e, idle, env => by
      rw [Stmt.exec, Stmt.exec]
      exact Fueled.Le.bind (Expr.eval_mono hB e idle true env) fun _ => .refl _

theorem Block.exec_mono (hB : B.Le C) {h : H} : ∀ (b : Block) (inLoop idle : Bool) (env : Env H),
    Fueled.Le (b.exec N B h inLoop idle env) (b.exec N C h inLoop idle env)
  | .nil, _, _, env => by rw [Block.exec, Block.exec]; exact .refl _
  | .cons s rest, inLoop, idle, env => by
      rw [Block.exec, Block.exec]
      by_cases hspin : (inLoop && s.isContinue) = true
      · rw [if_pos hspin, if_pos hspin]
        exact .refl _
      · rw [if_neg hspin, if_neg hspin]
        refine Fueled.Le.bind (Stmt.exec_mono hB s idle env) fun q => ?_
        obtain ⟨flow, env'⟩ := q
        cases flow with
        | next => exact Block.exec_mono hB rest inLoop idle env'
        | continueLoop =>
            cases inLoop with
            | true => exact Block.exec_mono hB rest true idle env'
            | false => exact .refl _
        | breakLoop => exact .refl _
        | ret v => exact .refl _

end

theorem sem_succ (N : Namespace H) (body : H → Block) : ∀ n, (sem N body n).Le (sem N body (n + 1))
  | 0 => ⟨fun _ _ _ _ => .inl rfl, fun _ _ _ _ _ => .inl rfl⟩
  | n + 1 => by
      have hB := sem_succ N body n
      refine ⟨fun k args idle env => ?_, fun h e b idle env => Stmt.exec_mono hB (.loop e b) idle env⟩
      exact Fueled.Le.bind (Block.exec_mono hB (body k) false idle _) fun _ => .refl _

theorem sem_mono (N : Namespace H) (body : H → Block) {m n : Nat} (h : m ≤ n) : (sem N body m).Le (sem N body n) := by
  induction h with
  | refl => exact ⟨fun _ _ _ _ => .refl _, fun _ _ _ _ _ => .refl _⟩
  | @step k _ ih =>
      have hstep := sem_succ N body k
      exact ⟨fun k args idle env => (ih.call k args idle env).trans (hstep.call k args idle env),
        fun h e b idle env => (ih.again h e b idle env).trans (hstep.again h e b idle env)⟩

/-! ## One block after another -/

theorem Block.exec_append {h : H} {inLoop idle : Bool} {env env' : Env H} (b : Block) : ∀ (a : Block),
    a.exec N B h inLoop idle env = .ok (.next, env') →
    (a.append b).exec N B h inLoop idle env = b.exec N B h inLoop idle env'
  | .nil, ha => by
      rw [Block.exec] at ha
      cases ha
      rfl
  | .cons s rest, ha => by
      rw [Block.append, Block.exec]
      rw [Block.exec] at ha
      by_cases hspin : (inLoop && s.isContinue) = true
      · rw [if_pos hspin] at ha
        cases ha
      rw [if_neg hspin] at ha ⊢
      obtain ⟨⟨flow, env1⟩, hs, ha⟩ := bind_eq_ok ha
      rw [hs]
      cases flow with
      | next => exact Block.exec_append b rest ha
      | continueLoop =>
          cases inLoop with
          | true => exact Block.exec_append b rest ha
          | false => cases ha
      | breakLoop => cases ha
      | ret v => cases ha

/-! ## Methods without `Return` -/

/-- Further turns of a loop do not return either. -/
def Below.NoReturn (B : Below H) : Prop :=
  ∀ (h : H) (e : Expr) (b : Block) (idle : Bool) (env env' : Env H) (v : Variable),
    b.NoReturn → B.again h e b idle env ≠ .ok (.ret v, env')

mutual

theorem Stmt.exec_noReturn (hB : B.NoReturn) {h : H} : ∀ (s : Stmt) {idle : Bool} {env env' : Env H} {v : Variable},
    s.NoReturn → s.exec N B h idle env ≠ .ok (.ret v, env')
  | .expr e, idle, env, env', v, _, hr => by
      rw [Stmt.exec] at hr
      obtain ⟨r, -, hr⟩ := bind_eq_ok hr
      cases hr
  | .nop, _, env, env', v, _, hr => by rw [Stmt.exec] at hr; cases hr
  | .breakPoint, _, env, env', v, _, hr => by rw [Stmt.exec] at hr; cases hr
  | .cond e body, idle, env, env', v, hno, hr => by
      rw [Stmt.exec] at hr
      obtain ⟨r, -, hr⟩ := bind_eq_ok hr
      obtain ⟨b, -, hr⟩ := bind_eq_ok hr
      cases b with
      | true => exact Block.exec_noReturn hB body hno hr
      | false => cases hr
  | .condElse e body els, idle, env, env', v, hno, hr => by
      rw [Stmt.exec] at hr
      obtain ⟨r, -, hr⟩ := bind_eq_ok hr
      obtain ⟨b, -, hr⟩ := bind_eq_ok hr
      cases b with
      | true => exact Block.exec_noReturn hB body hno.1 hr
      | false => exact Block.exec_noReturn hB els hno.2 hr
  | .loop e body, idle, env, env', v, hno, hr => by
      rw [Stmt.exec] at hr
      obtain ⟨r, -, hr⟩ := bind_eq_ok hr
      obtain ⟨b, -, hr⟩ := bind_eq_ok hr
      cases b with
      | true =>
          obtain ⟨⟨flow, env2⟩, hbody, hr⟩ := bind_eq_ok hr
          cases flow with
          | next => exact hB _ _ _ _ _ _ _ hno hr
          | continueLoop => exact hB _ _ _ _ _ _ _ hno hr
          | breakLoop => cases hr
          | ret w => exact Block.exec_noReturn hB body hno hbody
      | false => cases hr
  | .breakLoop, _, env, env', v, _, hr => by rw [Stmt.exec] at hr; cases hr
  | .continueLoop, _, env, env', v, _, hr => by rw [Stmt.exec] at hr; cases hr
  | .ret e, _, env, env', v, hno, _ => hno

theorem Block.exec_noReturn (hB : B.NoReturn) {h : H} : ∀ (b : Block) {inLoop idle : Bool} {env env' : Env H}
    {v : Variable}, b.NoReturn → b.exec N B h inLoop idle env ≠ .ok (.ret v, env')
  | .nil, _, _, env, env', v, _, hr => by rw [Block.exec] at hr; cases hr
  | .cons s rest, inLoop, idle, env, env', v, hno, hr => by
      rw [Block.exec] at hr
      by_cases hspin : (inLoop && s.isContinue) = true
      · rw [if_pos hspin] at hr
        cases hr
      rw [if_neg hspin] at hr
      obtain ⟨⟨flow, env1⟩, hs, hr⟩ := bind_eq_ok hr
      cases flow with
      | next => exact Block.exec_noReturn hB rest hno.2 hr
      | continueLoop =>
          cases inLoop with
          | true => exact Block.exec_noReturn hB rest hno.2 hr
          | false => cases hr
      | breakLoop => cases hr
      | ret w => exact Stmt.exec_noReturn hB s hno.1 hs

end

theorem sem_noReturn (N : Namespace H) (body : H → Block) : ∀ n, (sem N body n).NoReturn
  | 0 => by
      intro _ _ _ _ _ _ _ _ hr
      cases hr
  | n + 1 => by
      intro h e b idle env env' v hno
      exact Stmt.exec_noReturn (sem_noReturn N body n) (.loop e b) hno

/-- A method that cannot return gives nothing where an operand waits. -/
theorem call_noReturn {body : H → Block} {k : H} (hno : (body k).NoReturn) (n : Nat) (args : List Variable) (env : Env H)
    (r : Variable × Env H) : (sem N body n).call k args false env ≠ .ok r := by
  intro hr
  cases n with
  | zero => cases hr
  | succ n =>
      obtain ⟨⟨flow, env1⟩, hexec, hr⟩ := bind_eq_ok hr
      cases flow with
      | ret v => exact Block.exec_noReturn (sem_noReturn N body n) (body k) hno hexec
      | next => cases hr
      | continueLoop => cases hr
      | breakLoop => cases hr

/-! ## What operators keep -/

/-- Every operator keeps `I` where its operands are allowed; `I` does not look at arguments and locals. -/
structure Keeps (N : Namespace H) (ok : Operand H → Prop) (I : Env H → Prop) : Prop where
  object : ∀ v, ok (.object v)
  invocation : ∀ {env : Env H} (inv : Option Invocation), I env → I { env with invocation := inv }
  reduce : ∀ {o : Op} {operands : List (Operand H)} {env : Env H} {r : Variable × Env H},
    (∀ x ∈ operands, ok x) → I env → laiExecReduceOp N o operands env = .ok r → I r.2

structure BelowKeeps (N : Namespace H) (ok : Operand H → Prop) (I : Env H → Prop) (B : Below H) : Prop where
  call : ∀ {k : H} {args : List Variable} {idle : Bool} {env : Env H} {r : Variable × Env H},
    I env → B.call k args idle env = .ok r → I r.2
  again : ∀ {h : H} {e : Expr} {b : Block} {idle : Bool} {env : Env H} {r : Flow × Env H},
    e.Within N h ok → b.Within N h ok → I env → B.again h e b idle env = .ok r → I r.2

theorem lift_eq_ok {α : Type} {y : Except Failure α} {a : α} (h : Fueled.lift y = .ok a) : y = .ok a := by
  cases y with
  | error f => cases h
  | ok b => cases h; rfl

variable {ok : Operand H → Prop} {I : Env H → Prop} {h : H}

omit [DecidableEq H] in
theorem variableValue_keeps {want : Bool} {v : Option Variable} {env : Env H} {r : Variable × Env H} (hI : I env)
    (hr : variableValue want v env = .ok r) : I r.2 := by
  cases want <;> cases v <;> cases hr
  exact hI

mutual

theorem Expr.eval_keeps (hK : Keeps N ok I) (hB : BelowKeeps N ok I B) : ∀ (e : Expr) {idle want : Bool} {env : Env H}
    {r : Variable × Env H}, e.Within N h ok → I env → e.eval N B h idle want env = .ok r → I r.2
  | .const c, _, _, env, r, _, hI, hr => by
      rw [Expr.eval] at hr
      cases hr
      exact hI
  | .arg i, _, want, env, r, _, hI, hr => by
      rw [Expr.eval] at hr
      exact variableValue_keeps hI (lift_eq_ok hr)
  | .loc i, _, want, env, r, _, hI, hr => by
      rw [Expr.eval] at hr
      exact variableValue_keeps hI (lift_eq_ok hr)
  | .ref x _ args, idle, _, env, r, hwithin, hI, hr => by
      rw [Expr.eval] at hr
      obtain ⟨k, -, hr⟩ := bind_eq_ok hr
      cases hn : N.node k with
      | name => rw [hn] at hr; cases hr; exact hI
      | other => rw [hn] at hr; cases hr
      | method flags code size =>
          rw [hn] at hr
          obtain ⟨⟨operands, env1⟩, hargs, hr⟩ := bind_eq_ok hr
          obtain ⟨values, -, hr⟩ := bind_eq_ok hr
          obtain ⟨⟨v, env2⟩, hcall, hr⟩ := bind_eq_ok hr
          cases hr
          exact hK.invocation _ (hB.call (Args.eval_keeps hK hB args hwithin hI hargs).1 hcall)
  | .op o args, idle, _, env, r, hwithin, hI, hr => by
      rw [Expr.eval] at hr
      obtain ⟨⟨operands, env1⟩, hargs, hr⟩ := bind_eq_ok hr
      obtain ⟨hI1, hok⟩ := Args.eval_keeps hK hB args hwithin hI hargs
      exact hK.reduce hok hI1 (lift_eq_ok hr)

theorem Args.eval_keeps (hK : Keeps N ok I) (hB : BelowKeeps N ok I B) : ∀ {ms : List Mode} (args : Args ms) {idle : Bool}
    {env : Env H} {r : List (Operand H) × Env H}, args.Within N h ok → I env → args.eval N B h idle env = .ok r →
    I r.2 ∧ ∀ x ∈ r.1, ok x
  | _, .nil, _, env, r, _, hI, hr => by
      rw [Args.eval] at hr
      cases hr
      exact ⟨hI, fun x hx => absurd hx List.not_mem_nil⟩
  | _, .object e rest, idle, env, r, hwithin, hI, hr => by
      rw [Args.eval] at hr
      obtain ⟨⟨v, env1⟩, he, hr⟩ := bind_eq_ok hr
      obtain ⟨⟨operands, env2⟩, hrest, hr⟩ := bind_eq_ok hr
      cases hr
      obtain ⟨hI2, hok⟩ := Args.eval_keeps hK hB rest hwithin.2 (Expr.eval_keeps hK hB e hwithin.1 hI he) hrest
      exact ⟨hI2, List.forall_mem_cons.mpr ⟨hK.object v, hok⟩⟩
  | _, .reference t rest, idle, env, r, hwithin, hI, hr => by
      rw [Args.eval] at hr
      obtain ⟨operand, ht, hr⟩ := bind_eq_ok hr
      obtain ⟨⟨operands, env2⟩, hrest, hr⟩ := bind_eq_ok hr
      cases hr
      obtain ⟨hI2, hok⟩ := Args.eval_keeps hK hB rest hwithin.2 hI hrest
      exact ⟨hI2, List.forall_mem_cons.mpr ⟨hwithin.1 operand (lift_eq_ok ht), hok⟩⟩

end

mutual

theorem Stmt.exec_keeps (hK : Keeps N ok I) (hB : BelowKeeps N ok I B) : ∀ (s : Stmt) {idle : Bool} {env : Env H}
    {r : Flow × Env H}, s.Within N h ok → I env → s.exec N B h idle env = .ok r → I r.2
  | .expr e, idle, env, r, hwithin, hI, hr => by
      rw [Stmt.exec] at hr
      obtain ⟨⟨v, env1⟩, he, hr⟩ := bind_eq_ok hr
      cases hr
      exact Expr.eval_keeps hK hB e hwithin hI he
  | .nop, _, env, r, _, hI, hr => by rw [Stmt.exec] at hr; cases hr; exact hI
  | .breakPoint, _, env, r, _, hI, hr => by rw [Stmt.exec] at hr; cases hr; exact hI
  | .cond e body, idle, env, r, hwithin, hI, hr => by
      rw [Stmt.exec] at hr
      obtain ⟨⟨v, env1⟩, he, hr⟩ := bind_eq_ok hr
      obtain ⟨b, -, hr⟩ := bind_eq_ok hr
      have hI1 := Expr.eval_keeps hK hB e hwithin.1 hI he
      cases b with
      | true => exact Block.exec_keeps hK hB body hwithin.2 hI1 hr
      | false => cases hr; exact hI1
  | .condElse e body els, idle, env, r, hwithin, hI, hr => by
      rw [Stmt.exec] at hr
      obtain ⟨⟨v, env1⟩, he, hr⟩ := bind_eq_ok hr
      obtain ⟨b, -, hr⟩ := bind_eq_ok hr
      have hI1 := Expr.eval_keeps hK hB e hwithin.1 hI he
      cases b with
      | true => exact Block.exec_keeps hK hB body hwithin.2.1 hI1 hr
      | false => exact Block.exec_keeps hK hB els hwithin.2.2 hI1 hr
  | .loop e body, idle, env, r, hwithin, hI, hr => by
      rw [Stmt.exec] at hr
      obtain ⟨⟨v, env1⟩, he, hr⟩ := bind_eq_ok hr
      obtain ⟨b, -, hr⟩ := bind_eq_ok hr
      have hI1 := Expr.eval_keeps hK hB e hwithin.1 hI he
      cases b with
      | true =>
          obtain ⟨⟨flow, env2⟩, hbody, hr⟩ := bind_eq_ok hr
          have hI2 := Block.exec_keeps hK hB body hwithin.2 hI1 hbody
          cases flow with
          | next => exact hB.again hwithin.1 hwithin.2 hI2 hr
          | continueLoop => exact hB.again hwithin.1 hwithin.2 hI2 hr
          | breakLoop => cases hr; exact hI2
          | ret v => cases hr; exact hI2
      | false => cases hr; exact hI1
  | .breakLoop, _, env, r, _, hI, hr => by rw [Stmt.exec] at hr; cases hr; exact hI
  | .continueLoop, _, env, r, _, hI, hr => by rw [Stmt.exec] at hr; cases hr; exact hI
  | .ret e, idle, env, r, hwithin, hI, hr => by
      rw [Stmt.exec] at hr
      obtain ⟨⟨v, env1⟩, he, hr⟩ := bind_eq_ok hr
      cases hr
      exact Expr.eval_keeps hK hB e hwithin hI he

theorem Block.exec_keeps (hK : Keeps N ok I) (hB : BelowKeeps N ok I B) : ∀ (b : Block) {inLoop idle : Bool}
    {env : Env H} {r : Flow × Env H}, b.Within N h ok → I env → b.exec N B h inLoop idle env = .ok r → I r.2
  | .nil, _, _, env, r, _, hI, hr => by rw [Block.exec] at hr; cases hr; exact hI
  | .cons s rest, inLoop, idle, env, r, hwithin, hI, hr => by
      rw [Block.exec] at hr
      by_cases hspin : (inLoop && s.isContinue) = true
      · rw [if_pos hspin] at hr
        cases hr
      rw [if_neg hspin] at hr
      obtain ⟨⟨flow, env1⟩, hs, hr⟩ := bind_eq_ok hr
      have hI1 := Stmt.exec_keeps hK hB s hwithin.1 hI hs
      cases flow with
      | next => exact Block.exec_keeps hK hB rest hwithin.2 hI1 hr
      | continueLoop =>
          cases inLoop with
          | true => exact Block.exec_keeps hK hB rest hwithin.2 hI1 hr
          | false => cases hr; exact hI1
      | breakLoop => cases hr; exact hI1
      | ret v => cases hr; exact hI1

end

/-- A call keeps what every operator keeps, if no method has a target that is not allowed. -/
theorem sem_keeps {body : H → Block} (hK : Keeps N ok I) (hbody : ∀ k, (body k).Within N k ok) :
    ∀ n, BelowKeeps N ok I (sem N body n)
  | 0 => by
      refine ⟨fun _ hr => ?_, fun _ _ _ hr => ?_⟩
      · cases hr
      · cases hr
  | n + 1 => by
      have hB := sem_keeps hK hbody n
      refine ⟨fun {k args idle env r} hI hr => ?_, fun {h e b idle env r} he hb hI hr => ?_⟩
      · obtain ⟨⟨flow, env1⟩, hexec, hr⟩ := bind_eq_ok hr
        have hI1 := Block.exec_keeps hK hB (body k) (hbody k) (hK.invocation _ hI) hexec
        cases flow with
        | next =>
            cases idle with
            | true => cases hr; exact hI1
            | false => cases hr
        | continueLoop => cases hr
        | breakLoop => cases hr
        | ret v => cases hr; exact hI1
      · exact Stmt.exec_keeps hK hB (.loop e b) ⟨he, hb⟩ hI hr

/-! ## Stores -/

/-- The stores keep `I`, on targets that are allowed. -/
structure StoreKeeps (N : Namespace H) (ok : Operand H → Prop) (I : Env H → Prop) : Prop where
  null : ok .nullName
  mutate : ∀ {dest : Operand H} {v : Variable} {env env' : Env H}, ok dest → I env →
    laiOperandMutate N dest v env = .ok env' → I env'
  emplace : ∀ {dest : Operand H} {v : Variable} {env env' : Env H}, ok dest → I env →
    laiOperandEmplace N dest v env = .ok env' → I env'

omit [DecidableEq H] in
theorem getD_ok {operands : List (Operand H)} (hnull : ok .nullName) (hok : ∀ x ∈ operands, ok x) (i : Nat) :
    ok (operands.getD i .nullName) := by
  rw [List.getD_eq_getElem?_getD]
  cases h : operands[i]? with
  | none => exact hnull
  | some x => exact hok x (List.mem_of_getElem? h)

variable {operands : List (Operand H)} {env : Env H} {r : Variable × Env H}

theorem arithOp_keeps {f : Word64 → Word64 → Except Failure Word64} (hS : StoreKeeps N ok I)
    (hok : ∀ x ∈ operands, ok x) (hI : I env) (hr : arithOp f N operands env = .ok r) : I r.2 := by
  unfold arithOp at hr
  obtain ⟨lhs, -, hr⟩ := bind_eq_ok hr
  obtain ⟨rhs, -, hr⟩ := bind_eq_ok hr
  obtain ⟨result, -, hr⟩ := bind_eq_ok hr
  obtain ⟨env1, hstore, hr⟩ := bind_eq_ok hr
  cases hr
  exact hS.mutate (getD_ok hS.null hok 2) hI hstore

theorem arithOp1_keeps {f : Word64 → Word64} (hS : StoreKeeps N ok I) (hok : ∀ x ∈ operands, ok x) (hI : I env)
    (hr : arithOp1 f N operands env = .ok r) : I r.2 := by
  unfold arithOp1 at hr
  obtain ⟨operand, -, hr⟩ := bind_eq_ok hr
  obtain ⟨env1, hstore, hr⟩ := bind_eq_ok hr
  cases hr
  exact hS.mutate (getD_ok hS.null hok 1) hI hstore

theorem convertOp_keeps {f : Variable → Except Failure Variable} (hS : StoreKeeps N ok I) (hok : ∀ x ∈ operands, ok x)
    (hI : I env) (hr : convertOp f N operands env = .ok r) : I r.2 := by
  unfold convertOp at hr
  obtain ⟨operand, -, hr⟩ := bind_eq_ok hr
  obtain ⟨result, -, hr⟩ := bind_eq_ok hr
  obtain ⟨env1, hstore, hr⟩ := bind_eq_ok hr
  cases hr
  exact hS.emplace (getD_ok hS.null hok 1) hI hstore

theorem countOp_keeps {d : Word64} (hS : StoreKeeps N ok I) (hok : ∀ x ∈ operands, ok x) (hI : I env)
    (hr : countOp d N operands env = .ok r) : I r.2 := by
  unfold countOp at hr
  obtain ⟨v, -, hr⟩ := bind_eq_ok hr
  cases v with
  | none => cases hr
  | integer n =>
      obtain ⟨env1, hstore, hr⟩ := bind_eq_ok hr
      cases hr
      exact hS.mutate (getD_ok hS.null hok 0) hI hstore

omit [DecidableEq H] in
theorem logicOp_env {f : Word64 → Word64 → Word64} (hr : logicOp f operands env = .ok r) : r.2 = env := by
  unfold logicOp at hr
  obtain ⟨lhs, -, hr⟩ := bind_eq_ok hr
  obtain ⟨rhs, -, hr⟩ := bind_eq_ok hr
  cases hr
  rfl

omit [DecidableEq H] in
theorem compareOp_env {f : Word64 → Word64 → Bool} (hr : compareOp f operands env = .ok r) : r.2 = env := by
  unfold compareOp at hr
  obtain ⟨lhs, -, hr⟩ := bind_eq_ok hr
  obtain ⟨rhs, -, hr⟩ := bind_eq_ok hr
  cases lhs <;> cases rhs <;> cases hr
  rfl

/-- What the stores keep, the operators keep. -/
theorem reduce_keeps {o : Op} (hS : StoreKeeps N ok I) (hok : ∀ x ∈ operands, ok x) (hI : I env)
    (hr : laiExecReduceOp N o operands env = .ok r) : I r.2 := by
  cases o with
  | store =>
      obtain ⟨result, -, hr⟩ := bind_eq_ok hr
      obtain ⟨env1, hstore, hr⟩ := bind_eq_ok hr
      cases hr
      exact hS.mutate (getD_ok hS.null hok 1) hI hstore
  | divide =>
      obtain ⟨lhs, -, hr⟩ := bind_eq_ok hr
      obtain ⟨rhs, -, hr⟩ := bind_eq_ok hr
      by_cases hzero : rhs = 0
      · rw [if_pos hzero] at hr
        cases hr
      · rw [if_neg hzero] at hr
        obtain ⟨env1, hstore, hr⟩ := bind_eq_ok hr
        obtain ⟨env2, hstore', hr⟩ := bind_eq_ok hr
        cases hr
        exact hS.mutate (getD_ok hS.null hok 3) (hS.mutate (getD_ok hS.null hok 2) hI hstore) hstore'
  | lnot =>
      obtain ⟨operand, -, hr⟩ := bind_eq_ok hr
      cases hr
      exact hI
  | not | findSetLeftBit | findSetRightBit => exact arithOp1_keeps hS hok hI hr
  | add | subtract | mod | multiply | and | or | xor | nand | nor | shl | shr => exact arithOp_keeps hS hok hI hr
  | copyObject | toInteger | fromBcd | toBcd => exact convertOp_keeps hS hok hI hr
  | increment | decrement => exact countOp_keeps hS hok hI hr
  | land | lor => exact logicOp_env hr ▸ hI
  | lequal | lless | lgreater => exact compareOp_env hr ▸ hI

theorem Keeps.of_stores (hS : StoreKeeps N ok I) (hobject : ∀ v, ok (.object v))
    (hinv : ∀ {env : Env H} (inv : Option Invocation), I env → I { env with invocation := inv }) : Keeps N ok I where
  object := hobject
  invocation := hinv
  reduce hok hI hr := reduce_keeps hS hok hI hr

/-! ## What a store changes -/

theorem mutateNs_eq {k : H} {v : Variable} {env' : Env H} (h : laiExecMutateNs N k v env = .ok env') :
    N.node k = .name ∧ env' = env.setObject k v := by
  unfold laiExecMutateNs at h
  split at h
  · cases h
  · next hn _ => cases h; exact ⟨hn, rfl⟩
  · cases h
  · cases h

theorem storeNs_eq {k : H} {v : Variable} {env' : Env H} (h : laiStoreNs N k v env = .ok env') :
    N.node k = .name ∧ env' = env.setObject k v := by
  unfold laiStoreNs at h
  split at h
  · next hn => cases h; exact ⟨hn, rfl⟩
  · cases h
  · cases h

omit [DecidableEq H] in
/-- A store to what is no node leaves the nodes alone. -/
theorem operandStore_object {ns : H → Variable → Env H → Except Failure (Env H)} {dest : Operand H} {v : Variable}
    {env' : Env H} (h : operandStore ns dest v env = .ok env') :
    env'.object = env.object ∨ ∃ k, dest = .resolvedName k ∧ ns k v env = .ok env' := by
  unfold operandStore at h
  split at h
  · cases h; exact .inl rfl
  · next k => exact .inr ⟨k, rfl, h⟩
  · cases h; exact .inl rfl
  · cases h; exact .inl rfl
  · cases h; exact .inl rfl
  · cases h

theorem setObject_ne {k j : H} (v : Variable) (h : j ≠ k) : (env.setObject k v).object j = env.object j := by
  change Function.update env.object k v j = _
  rw [Function.update_of_ne h]

/-- The object of a node that is no target, or no name, is kept. -/
theorem store_keeps_object {j : H} {v : Variable} (hok : ok .nullName)
    (hj : ∀ k, ok (.resolvedName k) → N.node k = .name → j ≠ k) : StoreKeeps N ok (fun env => env.object j = v) := by
  have hset : ∀ {dest : Operand H} {w : Variable} {env env' : Env H} {ns : H → Variable → Env H → Except Failure (Env H)},
      (∀ k, ns k w env = .ok env' → N.node k = .name ∧ env' = env.setObject k w) → ok dest → env.object j = v →
      operandStore ns dest w env = .ok env' → env'.object j = v := by
    intro dest w env env' ns hns hdest hI hr
    rcases operandStore_object hr with h | ⟨k, rfl, h⟩
    · rw [h, hI]
    · obtain ⟨hn, rfl⟩ := hns k h
      rw [setObject_ne w (hj k hdest hn), hI]
  exact {
    null := hok
    mutate := fun hdest hI hr => hset (fun _ => mutateNs_eq) hdest hI hr
    emplace := fun hdest hI hr => hset (fun _ => storeNs_eq) hdest hI hr }

end Gewodsys.Lai
