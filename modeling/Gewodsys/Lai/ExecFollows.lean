import Gewodsys.Lai.ExecItems

/-!
# The interpreter follows the meaning of programs

* `op_awaits`, `invoke_awaits`, `takes_object`, `Runs` : which terms the items of the execution stack wait for;
* `op_reduce`, `invoke_call`, `ret_done`, `loop_pred`, `cond_pred` : what they do when the terms are there;
* `Expr.follows`, `Args.follows`, `Stmt.follows`, `Block.follows` : the interpreter follows each term;
* `sem_follows` : and so every call, and every further turn of a loop, with any fuel.
-/

namespace Gewodsys.Lai
open Gewodsys.Machine

variable {H : Type}

theorem isEmpty_push (ops : List (Operand H)) (x : Operand H) : (ops ++ [x]).isEmpty = false := by
  cases ops <;> rfl

variable [DecidableEq H] {N : Namespace H} {K : Ctl H} {pc : Nat} {ops : List (Operand H)} {env : Env H}

/-! ## Expressions -/

/-- A `While` in the code, its predicate at `pred`. -/
structure LoopAt (N : Namespace H) (K : Ctl H) (e : Expr) (body : Block) (pred pcEnd : Nat) : Prop where
  exprFits : e.Fits N K.handle
  bodyFits : body.Fits N K.handle
  holds : Holds8 K.code pred (e.encode ++ body.encode)
  pcEnd_eq : pred + (e.encode ++ body.encode).length = pcEnd

/-- The interpreter follows the calls and the turns of loops of `B`. A call takes a step before its method starts. -/
structure BelowFollows (N : Namespace H) (n : Nat) (B : Below H) : Prop where
  call : ∀ {M : Ctl H} {k : H} {flags : Byte} {code : List Byte} {size : Nat} {want : Bool} {stack : List StackItem},
    N.node k = .method flags code size → M.code = code → M.handle = k → M.limit = size → M.stack = .method want :: stack →
    ∀ (args : List Variable) (ops : List (Operand H)) (env : Env H),
      Follows (execStep N) (n - 1) (M.state 0 ops { env with invocation := some (.ofArgs args) })
        (B.call k args ops.isEmpty env) (fun r => .ok ((M.exit stack ops r.2).pushResult want r.1))
  again : ∀ {K : Ctl H} {e : Expr} {body : Block} {pred pcEnd : Nat},
    Runs N K → K.code.length < 2 ^ 28 → LoopAt N K e body pred pcEnd → ∀ (ops : List (Operand H)) (env : Env H),
      Follows (execStep N) n ((K.inLoop ops.length true pred pcEnd).state pcEnd ops env)
        (B.again K.handle e body ops.isEmpty env) (K.after pcEnd ops)

def ExprFollows (N : Namespace H) (n : Nat) (B : Below H) (e : Expr) : Prop :=
  ∀ {K : Ctl H} {pc : Nat} (ops : List (Operand H)) (env : Env H) (want : Bool),
    Awaits N K (wantMode want) ops.length → Holds8 K.code pc e.encode → pc + e.encode.length ≤ K.limit →
    e.Fits N K.handle →
    Follows (execStep N) n (K.state pc ops env) (e.eval N B K.handle ops.isEmpty want env)
      (fun r => .ok ((K.state (pc + e.encode.length) ops r.2).pushResult want r.1))

def ArgsFollow (N : Namespace H) (n : Nat) (B : Below H) {ms : List Mode} (args : Args ms) : Prop :=
  ∀ {K : Ctl H} {pc : Nat} (ops : List (Operand H)) (env : Env H),
    (∀ k mode, ms[k]? = some mode → Awaits N K mode (ops.length + k)) → Holds8 K.code pc args.encode →
    pc + args.encode.length ≤ K.limit → args.Fits N K.handle →
    Follows (execStep N) n (K.state pc ops env) (args.eval N B K.handle ops.isEmpty env)
      (fun r => .ok (K.state (pc + args.encode.length) (ops ++ r.1) r.2))

variable {n : Nat} {B : Below H}

/-- The arguments give one operand for each mode. -/
theorem Args.length_eval {h : H} : ∀ {ms : List Mode} (args : Args ms) {idle : Bool} {env : Env H}
    {r : List (Operand H) × Env H}, args.eval N B h idle env = .ok r → r.1.length = ms.length
  | _, .nil, idle, env, r, hr => by
      rw [Args.eval] at hr
      cases hr
      rfl
  | _, .object e rest, idle, env, r, hr => by
      rw [Args.eval] at hr
      obtain ⟨⟨v, env1⟩, -, hr⟩ := bind_eq_ok hr
      obtain ⟨⟨operands, env2⟩, hrest, hr⟩ := bind_eq_ok hr
      cases hr
      exact congrArg (· + 1) (Args.length_eval rest hrest)
  | _, .reference t rest, idle, env, r, hr => by
      rw [Args.eval] at hr
      obtain ⟨operand, -, hr⟩ := bind_eq_ok hr
      obtain ⟨⟨operands, env2⟩, hrest, hr⟩ := bind_eq_ok hr
      cases hr
      exact congrArg (· + 1) (Args.length_eval rest hrest)

theorem const_follows (c : Const) : ExprFollows N n B (.const c) := by
  intro K pc ops env want hawait hholds hlimit _
  have hpos : 0 < c.encode.length := by cases c <;> exact Nat.succ_pos _
  have hlimit' : pc + c.encode.length ≤ K.limit := hlimit
  have hlead := hawait.leads env (show pc < K.limit by omega)
  rw [parse_const hholds hlimit' (wantMode_ne want), wantMode_result] at hlead
  exact Follows.pure hlead

theorem arg_follows (i : Fin 7) : ExprFollows N n B (.arg i) := by
  intro K pc ops env want hawait hholds hlimit _
  have hlimit' : pc + 1 ≤ K.limit := hlimit
  have hlead := hawait.leads env hlimit'
  rw [parse_byte hholds hlimit' (argOp_plain i).1 (argOp_plain i).2] at hlead
  unfold parseOpcode at hlead
  rw [opcodeOf_arg] at hlead
  rw [Expr.eval]
  refine Follows.lift ?_
  rw [← parseVariable_want want (.argName i)]
  exact hlead

theorem loc_follows (i : Fin 8) : ExprFollows N n B (.loc i) := by
  intro K pc ops env want hawait hholds hlimit _
  have hlimit' : pc + 1 ≤ K.limit := hlimit
  have hlead := hawait.leads env hlimit'
  rw [parse_byte hholds hlimit' (localOp_plain i).1 (localOp_plain i).2] at hlead
  unfold parseOpcode at hlead
  rw [opcodeOf_loc] at hlead
  rw [Expr.eval]
  refine Follows.lift ?_
  rw [← parseVariable_want want (.localName i)]
  exact hlead

theorem op_follows {o : Op} {args : Args o.argModes} (hargs : ArgsFollow N n B args) : ExprFollows N n B (.op o args) := by
  intro K pc ops env want hawait hholds hlimit hfits
  have hlimit' : pc + (o.bytes ++ args.encode).length ≤ K.limit := hlimit
  rw [List.length_append] at hlimit'
  obtain ⟨hop, hrest⟩ := holds8_append.mp (show Holds8 K.code pc (o.bytes ++ args.encode) from hholds)
  have hpos : 0 < o.bytes.length := by
    rcases opcode_bytes o with ⟨c, hc, -⟩ | ⟨c, hc, -⟩ <;> rw [hc] <;> exact Nat.succ_pos _
  have hparse : laiExecParse N (wantMode want) (K.state pc ops env) = _ := parse_op hop (by omega)
  rw [wantMode_result] at hparse
  refine Follows.head (hawait.step (by omega) hparse) ?_
  have hexpr : pc + (Expr.op o args).encode.length = pc + o.bytes.length + args.encode.length := by
    rw [Expr.encode, List.length_append, Nat.add_assoc]
  rw [hexpr, Expr.eval]
  refine (hargs (K := K.push (.op ops.length o want)) ops env (fun k mode hmode => op_awaits hmode) hrest
    (show pc + o.bytes.length + args.encode.length ≤ K.limit by omega) hfits).bind fun r hr => ?_
  -- the arguments are there
  refine Follows.lift ?_
  rw [← op_reduce (by omega) (Args.length_eval args hr)]
  exact leads_process (List.cons_ne_nil _ _)

/-- A name: of an object, or of a method that is called. -/
theorem ref_follows (hB : BelowFollows N n B) {x : NameString} {argc : Nat} {args : Args (List.replicate argc .object)}
    (hargs : ArgsFollow N n B args) : ExprFollows N n B (.ref x argc args) := by
  intro K pc ops env want hawait hholds hlimit hfits
  obtain ⟨hnamed, htakes, hfits⟩ := hfits
  have hlimit' : pc + (x.encode ++ args.encode).length ≤ K.limit := hlimit
  rw [List.length_append] at hlimit'
  obtain ⟨hx, hrest⟩ := holds8_append.mp (show Holds8 K.code pc (x.encode ++ args.encode) from hholds)
  have hpos : 0 < x.encode.length := by
    obtain ⟨c, bs, hc, -⟩ := named_head hnamed
    rw [hc]
    exact Nat.succ_pos _
  have hexpr : pc + (Expr.ref x argc args).encode.length = pc + x.encode.length + args.encode.length := by
    rw [Expr.encode, List.length_append, Nat.add_assoc]
  have hparse : laiExecParse N (wantMode want) (K.state pc ops env) = _ := parse_ref hnamed hx (by omega)
  rw [wantMode_result, wantMode_invoke] at hparse
  have hlead := hawait.leads env (show pc < K.limit by omega)
  rw [hexpr, Expr.eval]
  cases hk : resolved N K.handle x with
  | error f =>
      rw [hparse, hk] at hlead
      exact Follows.fail hlead
  | ok k =>
      have hresolve : N.laiDoResolve K.handle x.parsed = .ok (some k) := by
        unfold resolved at hk
        obtain ⟨r, hr, hk⟩ := bind_eq_ok hk
        cases r with
        | none => cases hk
        | some k' => cases hk; exact hr
      have hnode := htakes k hresolve
      unfold Takes at hnode
      simp only [hk, Except.bind, if_true] at hparse
      simp only [Fueled.lift, bind, Except.bind]
      cases hn : N.node k with
      | name =>
          rw [hn] at hnode hparse
          subst hnode
          rw [hparse] at hlead
          cases args
          exact Follows.pure hlead
      | other =>
          rw [hn] at hparse
          rw [hparse] at hlead
          exact Follows.fail hlead
      | method flags code size =>
          rw [hn] at hnode hparse
          simp only at hnode hparse
          rw [hnode] at hparse
          refine Follows.head (hawait.step (by omega) hparse) ?_
          have hawaits : ∀ j mode, (List.replicate argc Mode.object)[j]? = some mode →
              Awaits N (K.push (.invoke ops.length argc want)) mode ((ops ++ [Operand.resolvedName k]).length + j) := by
            intro j mode hj
            rw [List.getElem?_replicate] at hj
            split_ifs at hj with hlt
            · cases hj
              rw [List.length_append]
              exact invoke_awaits hlt
          have hfollow := hargs (K := K.push (.invoke ops.length argc want)) (ops ++ [.resolvedName k]) env
            hawaits hrest (show pc + x.encode.length + args.encode.length ≤ K.limit by omega) hfits
          rw [isEmpty_push] at hfollow
          refine hfollow.bind fun r hr => ?_
          have hlen : r.1.length = argc := by rw [Args.length_eval args hr, List.length_replicate]
          -- the arguments are there: the method is entered
          have hcall := invoke_call ops r.2 want r.1 hn
            (show pc + x.encode.length + args.encode.length ≤ K.limit by omega)
          rw [hlen] at hcall
          have hstate : ops ++ [Operand.resolvedName k] ++ r.1 = ops ++ Operand.resolvedName k :: r.1 := by
            rw [List.append_assoc]
            rfl
          rw [hstate]
          show Follows (execStep N) n _ (Fueled.lift (r.1.mapM laiExecGetObjectref) >>= fun values =>
            B.call k values ops.isEmpty r.2 >>= fun q => pure (q.1, { q.2 with invocation := r.2.invocation })) _
          cases hvalues : r.1.mapM laiExecGetObjectref with
          | error f =>
              rw [hvalues] at hcall
              refine Follows.fail ?_
              rw [show Except.error f = _ from hcall.symm]
              exact leads_process (List.cons_ne_nil _ _)
          | ok values =>
              rw [hvalues] at hcall
              have hbody := (hB.call hn rfl rfl rfl rfl values ops r.2).tick
                (execStep_of_process (List.cons_ne_nil _ _) hcall)
              exact (hbody.mono (show n ≤ n - 1 + 1 by omega)).bind fun q _ => Follows.pure (Leads.refl _)

theorem nil_follow : ArgsFollow N n B .nil := by
  intro K pc ops env _ _ _ _
  rw [Args.eval]
  refine Follows.pure ?_
  rw [List.append_nil]
  exact Leads.refl _

theorem object_follow {ms : List Mode} {e : Expr} {rest : Args ms} (he : ExprFollows N n B e)
    (hrest : ArgsFollow N n B rest) : ArgsFollow N n B (.object e rest) := by
  intro K pc ops env hawaits hholds hlimit hfits
  obtain ⟨hhead, htail⟩ := holds8_append.mp (show Holds8 K.code pc (e.encode ++ rest.encode) from hholds)
  have hlimit' : pc + (e.encode ++ rest.encode).length ≤ K.limit := hlimit
  rw [List.length_append] at hlimit'
  have hend : pc + (Args.object e rest).encode.length = pc + e.encode.length + rest.encode.length := by
    rw [Args.encode, List.length_append, Nat.add_assoc]
  rw [hend, Args.eval]
  refine (he ops env true (hawaits 0 .object rfl) hhead (by omega) hfits.1).bind fun r _ => ?_
  have hnext := hrest (ops ++ [.object r.1]) r.2
    (fun k mode hmode => by
      rw [List.length_append, List.length_singleton, Nat.add_assoc, Nat.add_comm 1]
      exact hawaits (k + 1) mode hmode) htail (by omega) hfits.2
  rw [isEmpty_push] at hnext
  refine hnext.bind fun r' _ => Follows.pure ?_
  rw [List.append_assoc]
  exact Leads.refl _

theorem reference_follow {ms : List Mode} {t : Target} {rest : Args ms} (hrest : ArgsFollow N n B rest) :
    ArgsFollow N n B (.reference t rest) := by
  intro K pc ops env hawaits hholds hlimit hfits
  obtain ⟨hhead, htail⟩ := holds8_append.mp (show Holds8 K.code pc (t.encode ++ rest.encode) from hholds)
  have hlimit' : pc + (t.encode ++ rest.encode).length ≤ K.limit := hlimit
  rw [List.length_append] at hlimit'
  have hend : pc + (Args.reference t rest).encode.length = pc + t.encode.length + rest.encode.length := by
    rw [Args.encode, List.length_append, Nat.add_assoc]
  have hpos := target_pos hfits.1
  rw [hend, Args.eval]
  have hlead := (hawaits 0 .reference rfl).leads env (show pc < K.limit by omega)
  rw [parse_target hfits.1 hhead (by omega)] at hlead
  refine Follows.lift_bind hlead fun operand _ => ?_
  have hnext := hrest (ops ++ [operand]) env
    (fun k mode hmode => by
      rw [List.length_append, List.length_singleton, Nat.add_assoc, Nat.add_comm 1]
      exact hawaits (k + 1) mode hmode) htail (by omega) hfits.2
  rw [isEmpty_push] at hnext
  refine hnext.bind fun r' _ => Follows.pure ?_
  rw [List.append_assoc]
  exact Leads.refl _

mutual

theorem Expr.follows (hB : BelowFollows N n B) : (e : Expr) → ExprFollows N n B e
  | .const c => const_follows c
  | .arg i => arg_follows i
  | .loc i => loc_follows i
  | .ref _ _ args => ref_follows hB (Args.follow hB args)
  | .op _ args => op_follows (Args.follow hB args)

theorem Args.follow (hB : BelowFollows N n B) : {ms : List Mode} → (args : Args ms) → ArgsFollow N n B args
  | _, .nil => nil_follow
  | _, .object e rest => object_follow (Expr.follows hB e) (Args.follow hB rest)
  | _, .reference _ rest => reference_follow (Args.follow hB rest)

end

/-! ## Statements -/

def StmtFollows (N : Namespace H) (n : Nat) (B : Below H) (s : Stmt) : Prop :=
  ∀ {K : Ctl H} {pc : Nat} (ops : List (Operand H)) (env : Env H),
    Runs N K → K.code.length < 2 ^ 28 → Holds8 K.code pc s.encode → pc + s.encode.length ≤ K.limit →
    NoElse K.code (pc + s.encode.length) K.limit → s.Fits N K.handle → (s.isContinue = true → K.isLoop = false) →
    Follows (execStep N) n (K.state pc ops env) (s.exec N B K.handle ops.isEmpty env)
      (K.after (pc + s.encode.length) ops)

def BlockFollows (N : Namespace H) (n : Nat) (B : Below H) (b : Block) : Prop :=
  ∀ {K : Ctl H} {pc : Nat} (ops : List (Operand H)) (env : Env H),
    Runs N K → K.code.length < 2 ^ 28 → Holds8 K.code pc b.encode → pc + b.encode.length = K.limit →
    b.Fits N K.handle →
    Follows (execStep N) n (K.state pc ops env) (b.exec N B K.handle K.isLoop ops.isEmpty env) (K.after K.limit ops)

theorem expr_stmt_follows {e : Expr} (he : ExprFollows N n B e) : StmtFollows N n B (.expr e) := by
  intro K pc ops env hruns _ hholds hlimit _ hfits _
  rw [Stmt.exec]
  exact (he ops env false (hruns _) hholds hlimit hfits).bind fun r _ => Follows.pure (Leads.refl _)

/-- A statement of one byte. -/
theorem byte_follows {s : Stmt} {c : Byte} {r : Flow × Env H} {env : Env H} (hs : s.encode = [c]) (hname : laiIsName c = false)
    (hext : c ≠ extopPrefix) (hruns : Runs N K) (hholds : Holds8 K.code pc s.encode)
    (hlimit : pc + s.encode.length ≤ K.limit)
    (hparse : parseOpcode .exec ⟨K.code, K.handle, env.invocation⟩ K.limit pc c.toNat (pc + 1) (K.state pc ops env) =
      K.after (pc + 1) ops r) :
    Follows (execStep N) n (K.state pc ops env) (pure r) (K.after (pc + s.encode.length) ops) := by
  rw [hs] at hholds hlimit ⊢
  have hlead := (hruns ops.length).leads env hlimit
  rw [parse_byte hholds hlimit hname hext, hparse] at hlead
  exact Follows.pure hlead

theorem nop_follows : StmtFollows N n B .nop := by
  intro K pc ops env hruns _ hholds hlimit _ _ _
  rw [Stmt.exec]
  exact byte_follows (c := 0xA3) (r := (.next, env)) rfl (by decide) (by decide) hruns hholds hlimit rfl

theorem breakPoint_follows : StmtFollows N n B .breakPoint := by
  intro K pc ops env hruns _ hholds hlimit _ _ _
  rw [Stmt.exec]
  exact byte_follows (c := 0xCC) (r := (.next, env)) rfl (by decide) (by decide) hruns hholds hlimit rfl

theorem break_follows : StmtFollows N n B .breakLoop := by
  intro K pc ops env hruns _ hholds hlimit _ _ _
  rw [Stmt.exec]
  refine byte_follows (c := 0xA5) (r := (.breakLoop, env)) rfl (by decide) (by decide) hruns hholds hlimit ?_
  exact after_break pc _

theorem continue_follows : StmtFollows N n B .continueLoop := by
  intro K pc ops env hruns _ hholds hlimit _ _ hloop
  rw [Stmt.exec]
  refine byte_follows (c := 0x9F) (r := (.continueLoop, env)) rfl (by decide) (by decide) hruns hholds hlimit ?_
  exact after_continue pc _ (hloop rfl)

theorem ret_follows {e : Expr} (he : ExprFollows N n B e) : StmtFollows N n B (.ret e) := by
  intro K pc ops env hruns _ hholds hlimit _ hfits _
  have hlimit' : pc + (e.encode.length + 1) ≤ K.limit := hlimit
  have hend : pc + (Stmt.ret e).encode.length = pc + 1 + e.encode.length := by
    rw [Stmt.encode, List.length_cons]
    omega
  have hparse : laiExecParse N .exec (K.state pc ops env) = .ok ((K.push (.ret ops.length)).state (pc + 1) ops env) :=
    parse_byte (c := 0xA4) hholds (by omega) (by decide) (by decide)
  rw [hend, Stmt.exec]
  refine Follows.head ((hruns _).step (by omega) hparse) ?_
  refine (he (K := K.push (.ret ops.length)) ops env true ret_awaits (Holds8.tail hholds)
    (show pc + 1 + e.encode.length ≤ K.limit by omega) hfits).bind fun r _ => Follows.pure ?_
  show Leads _ _ (returnFrom r.1 (K.state (pc + 1 + e.encode.length) ops r.2))
  rw [← ret_done (N := N) (by omega)]
  exact leads_process (List.cons_ne_nil _ _)

/-- The block of an `If`, entered: behind it the run goes on at `next`. -/
theorem branch_follows {b : Block} {frame next limit : Nat} {els : Option BlkItem} (hb : BlockFollows N n B b)
    (hcode : K.code.length < 2 ^ 28) (hholds : Holds8 K.code pc b.encode) (hlimit : pc + b.encode.length = limit)
    (hfits : b.Fits N K.handle) :
    Follows (execStep N) n ((K.enter (.cond frame true els) next limit).state pc ops env)
      (b.exec N B K.handle false ops.isEmpty env) (K.after next ops) := by
  refine (hb (K := K.enter (.cond frame true els) next limit) ops env cond_runs hcode hholds hlimit hfits).extend ?_
  rintro ⟨flow, env'⟩ - hlead
  by_cases hflow : flow = .next
  · subst hflow
    exact Leads.trans hlead (Leads.head cond_end (Leads.refl _))
  · rwa [after_cond hflow] at hlead

/-- The predicate of an `If`, and the branch that it chooses. -/
theorem cond_branches {e : Expr} {frame next limit : Nat} {els : Option BlkItem} {f : Bool → Env H → Fueled Failure (Flow × Env H)}
    (he : ExprFollows N n B e) (hframe : frame = ops.length) (hholds : Holds8 K.code pc e.encode)
    (hlimit : pc + e.encode.length ≤ limit) (hfits : e.Fits N K.handle)
    (htrue : ∀ env, Follows (execStep N) n
      ((K.enter (.cond frame true els) next limit).state (pc + e.encode.length) ops env) (f true env) (K.after next ops))
    (hfalse : ∀ env, Follows (execStep N) n (K.otherwise frame next els ops env) (f false env) (K.after next ops)) :
    Follows (execStep N) n ((K.enter (.cond frame false els) next limit).state pc ops env)
      (e.eval N B K.handle ops.isEmpty true env >>= fun r => Fueled.lift (truth r.1) >>= fun b => f b r.2)
      (K.after next ops) := by
  subst hframe
  refine (he (K := K.enter (.cond ops.length false els) next limit) ops env true cond_awaits hholds hlimit
    hfits).bind fun r _ => ?_
  have hpred := cond_pred (N := N) (K := K) ops r.2 r.1 next els hlimit
  refine Follows.lift_bind (hpred ▸ leads_process (List.cons_ne_nil _ _)) fun b _ => ?_
  cases b with
  | true => exact htrue r.2
  | false => exact hfalse r.2

theorem cond_follows {e : Expr} {body : Block} (he : ExprFollows N n B e) (hb : BlockFollows N n B body) :
    StmtFollows N n B (.cond e body) := by
  intro K pc ops env hruns hcode hholds hlimit hnoElse hfits _
  have hlen : (Stmt.cond e body).encode.length = (package (e.encode ++ body.encode)).length + 1 := rfl
  have hpack := length_package (e.encode ++ body.encode)
  have happ : (e.encode ++ body.encode).length = e.encode.length + body.encode.length := List.length_append
  obtain ⟨hexpr, hbody⟩ := holds8_append.mp (holds8_package (Holds8.tail hholds)).2
  rw [hlen, show pc + ((package (e.encode ++ body.encode)).length + 1) =
    pc + 1 + (package (e.encode ++ body.encode)).length by omega] at hlimit hnoElse ⊢
  have hparse : laiExecParse N .exec (K.state pc ops env) = _ := parse_cond hholds hcode (by omega)
    (parseElse_none hnoElse)
  refine Follows.head ((hruns _).step (by omega) hparse) ?_
  rw [Stmt.exec]
  refine cond_branches he rfl hexpr (by omega) hfits.1 (fun env' => ?_) (fun env' => ?_)
    (f := fun b env => if b then body.exec N B K.handle false ops.isEmpty env else pure (.next, env))
  · exact branch_follows hb hcode hbody (by omega) hfits.2
  · exact Follows.pure (Leads.refl _)

theorem condElse_follows {e : Expr} {body els : Block} (he : ExprFollows N n B e) (hb : BlockFollows N n B body)
    (hels : BlockFollows N n B els) : StmtFollows N n B (.condElse e body els) := by
  intro K pc ops env hruns hcode hholds hlimit _ hfits _
  have hlen : (Stmt.condElse e body els).encode.length =
      (package (e.encode ++ body.encode)).length + 1 + ((package els.encode).length + 1) := List.length_append
  have hpack := length_package (e.encode ++ body.encode)
  have happ : (e.encode ++ body.encode).length = e.encode.length + body.encode.length := List.length_append
  have hpack' := length_package els.encode
  obtain ⟨hif, helse⟩ := holds8_append.mp hholds
  rw [List.length_cons, show pc + ((package (e.encode ++ body.encode)).length + 1) =
    pc + 1 + (package (e.encode ++ body.encode)).length by omega] at helse
  obtain ⟨hexpr, hbody⟩ := holds8_append.mp (holds8_package hif.tail).2
  rw [hlen, show pc + ((package (e.encode ++ body.encode)).length + 1 + ((package els.encode).length + 1)) =
    pc + 1 + (package (e.encode ++ body.encode)).length + 1 + (package els.encode).length by omega] at hlimit ⊢
  have hparse : laiExecParse N .exec (K.state pc ops env) = _ := parse_cond hif hcode (by omega)
    (parseElse_some helse hcode hlimit)
  refine Follows.head ((hruns _).step (by omega) hparse) ?_
  rw [Stmt.exec]
  refine cond_branches he rfl hexpr (by omega) hfits.1 (fun env' => ?_) (fun env' => ?_)
    (f := fun b env => if b then body.exec N B K.handle false ops.isEmpty env
      else els.exec N B K.handle false ops.isEmpty env)
  · exact branch_follows hb hcode hbody (by omega) hfits.2.1
  · refine branch_follows hels hcode (holds8_package helse.tail).2 ?_ hfits.2.2
    show pc + 1 + (package (e.encode ++ body.encode)).length + 1 + (pkgLength els.encode.length).length +
      els.encode.length = pc + 1 + (package (e.encode ++ body.encode)).length + 1 + (package els.encode).length
    omega

/-! ## Loops -/

/-- A `While` from the test of its predicate on. -/
theorem loop_entry {e : Expr} {body : Block} {pred pcEnd : Nat} (hB : BelowFollows N n B) (he : ExprFollows N n B e)
    (hb : BlockFollows N n B body) (hruns : Runs N K) (hcode : K.code.length < 2 ^ 28)
    (hloop : LoopAt N K e body pred pcEnd) :
    Follows (execStep N) n ((K.inLoop ops.length false pred pcEnd).state pred ops env)
      ((Stmt.loop e body).exec N B K.handle ops.isEmpty env) (K.after pcEnd ops) := by
  obtain ⟨hexpr, hbody⟩ := holds8_append.mp hloop.holds
  have hend := hloop.pcEnd_eq
  rw [List.length_append] at hend
  rw [Stmt.exec]
  refine (he (K := K.inLoop ops.length false pred pcEnd) ops env true loop_awaits hexpr
    (show pred + e.encode.length ≤ pcEnd by omega) hloop.exprFits).bind fun r _ => ?_
  have hpred := loop_pred (N := N) (K := K) ops r.2 r.1 pred
    (show pred + e.encode.length ≤ pcEnd by omega)
  refine Follows.lift_bind (hpred ▸ leads_process (List.cons_ne_nil _ _)) fun b _ => ?_
  cases b with
  | false => exact Follows.pure (Leads.refl _)
  | true =>
      refine (hb (K := K.inLoop ops.length true pred pcEnd) ops r.2 loop_runs hcode hbody
        (show pred + e.encode.length + body.encode.length = pcEnd by omega) hloop.bodyFits).bind_leads ?_
      rintro ⟨flow, env'⟩ - hlead
      cases flow with
      | next => exact Follows.of_leads hlead (hB.again hruns hcode hloop ops env')
      | breakLoop => exact Follows.pure hlead
      | continueLoop => exact Follows.of_leads hlead (hB.again hruns hcode hloop ops env')
      | ret v => exact Follows.pure hlead

theorem loop_follows {e : Expr} {body : Block} (hB : BelowFollows N n B) (he : ExprFollows N n B e)
    (hb : BlockFollows N n B body) : StmtFollows N n B (.loop e body) := by
  intro K pc ops env hruns hcode hholds hlimit _ hfits _
  have hlen : (Stmt.loop e body).encode.length = (package (e.encode ++ body.encode)).length + 1 := rfl
  have hpack := length_package (e.encode ++ body.encode)
  rw [hlen, show pc + ((package (e.encode ++ body.encode)).length + 1) =
    pc + 1 + (package (e.encode ++ body.encode)).length by omega] at hlimit ⊢
  have hparse : laiExecParse N .exec (K.state pc ops env) = _ := parse_loop hholds hcode (by omega)
  refine Follows.head ((hruns _).step (by omega) hparse) ?_
  exact loop_entry hB he hb hruns hcode ⟨hfits.1, hfits.2, (holds8_package (Holds8.tail hholds)).2, by omega⟩

/-! ## Blocks -/

theorem block_nil_follows : BlockFollows N n B .nil := by
  intro K pc ops env _ _ _ hlimit _
  have hpc : pc = K.limit := hlimit
  rw [Block.exec, hpc]
  exact Follows.pure (Leads.refl _)

theorem isContinue_eq {s : Stmt} (h : s.isContinue = true) : s = .continueLoop := by
  cases s with
  | continueLoop => rfl
  | _ => cases h

theorem block_cons_follows {s : Stmt} {rest : Block} (hs : StmtFollows N n B s) (hrest : BlockFollows N n B rest) :
    BlockFollows N n B (.cons s rest) := by
  intro K pc ops env hruns hcode hholds hlimit hfits
  obtain ⟨hhead, htail⟩ := holds8_append.mp (show Holds8 K.code pc (s.encode ++ rest.encode) from hholds)
  have hlimit' : pc + (s.encode ++ rest.encode).length = K.limit := hlimit
  rw [List.length_append, ← Nat.add_assoc] at hlimit'
  rw [Block.exec]
  by_cases hspin : (K.isLoop && s.isContinue) = true
  · -- `Continue` at the top of the body of a `While`: the state does not change
    rw [if_pos hspin]
    rw [Bool.and_eq_true] at hspin
    obtain rfl := isContinue_eq hspin.2
    have hparse : laiExecParse N .exec (K.state pc ops env) = .ok (K.state pc ops env) := by
      rw [parse_byte (c := 0x9F) hhead (by change pc + 1 + _ = _ at hlimit'; omega) (by decide) (by decide)]
      exact continueLoop_isLoop hspin.1
    exact lasts_of_self ((hruns _).step (by change pc + 1 + _ = _ at hlimit'; omega) hparse) n
  · rw [if_neg hspin]
    have hcont : s.isContinue = true → K.isLoop = false := by
      intro h
      rw [h, Bool.and_true] at hspin
      exact Bool.eq_false_iff.mpr hspin
    refine (hs ops env hruns hcode hhead (by omega) (block_noElse hfits.2 htail hlimit') hfits.1
      hcont).bind_leads ?_
    rintro ⟨flow, env'⟩ - hlead
    have hgo := hrest ops env' hruns hcode htail hlimit' hfits.2
    cases flow with
    | next => exact Follows.of_leads hlead hgo
    | breakLoop => exact Follows.pure (after_break _ K.limit ▸ hlead)
    | ret v => exact Follows.pure (after_ret _ K.limit v ▸ hlead)
    | continueLoop =>
        by_cases hloop : K.isLoop = true
        · simp only [hloop, if_true]
          rw [hloop] at hgo
          refine Follows.of_leads ?_ hgo
          rw [← continueLoop_isLoop hloop]
          exact hlead
        · simp only [hloop]
          exact Follows.pure (after_continue _ K.limit (Bool.eq_false_iff.mpr hloop) ▸ hlead)

mutual

theorem Stmt.follows (hB : BelowFollows N n B) : (s : Stmt) → StmtFollows N n B s
  | .expr e => expr_stmt_follows (Expr.follows hB e)
  | .nop => nop_follows
  | .breakPoint => breakPoint_follows
  | .cond e body => cond_follows (Expr.follows hB e) (Block.follows hB body)
  | .condElse e body els => condElse_follows (Expr.follows hB e) (Block.follows hB body) (Block.follows hB els)
  | .loop e body => loop_follows hB (Expr.follows hB e) (Block.follows hB body)
  | .breakLoop => break_follows
  | .continueLoop => continue_follows
  | .ret e => ret_follows (Expr.follows hB e)

theorem Block.follows (hB : BelowFollows N n B) : (b : Block) → BlockFollows N n B b
  | .nil => block_nil_follows
  | .cons s rest => block_cons_follows (Stmt.follows hB s) (Block.follows hB rest)

end

/-! ## Programs -/

/-- A method, from its first byte on. -/
theorem call_follows {P : Program H} (hB : BelowFollows P.toNamespace n B) {M : Ctl H} {k : H} {flags : Byte}
    {code : List Byte} {size : Nat} {want : Bool} {stack : List StackItem} (hk : P.node k = .method flags code size)
    (hcode : M.code = code) (hhandle : M.handle = k) (hlimit : M.limit = size) (hstack : M.stack = .method want :: stack)
    (args : List Variable) (ops : List (Operand H)) (env : Env H) :
    Follows (execStep P.toNamespace) n (M.state 0 ops { env with invocation := some (.ofArgs args) })
      (callBody P.toNamespace P.body B k args ops.isEmpty env)
      (fun r => .ok ((M.exit stack ops r.2).pushResult want r.1)) := by
  subst hcode hhandle hlimit
  obtain ⟨hstart, hsize⟩ := P.code_eq _ _ _ _ hk
  have hloop : M.isLoop = false := by unfold Ctl.isLoop; rw [hstack]
  have hcode : Holds8 M.code 0 (P.body M.handle).encode := hstart
  have hbody := Block.follows hB (P.body M.handle) ops { env with invocation := some (.ofArgs args) }
    (method_runs hstack) (P.code_lt _ _ _ _ hk) hcode ((Nat.zero_add _).trans hsize.symm) (P.fits _)
  rw [hloop] at hbody
  refine hbody.bind_leads ?_
  rintro ⟨flow, env'⟩ - hlead
  by_cases hflow : flow = .next
  · subst hflow
    have htop : M.stack ≠ [] := by rw [hstack]; exact List.cons_ne_nil _ _
    have hend := Leads.trans hlead (leads_process htop)
    rw [method_end hstack] at hend
    cases hops : ops.isEmpty with
    | true => rw [hops] at hend; exact Follows.pure hend
    | false => rw [hops] at hend; exact Follows.fail hend
  · rw [after_method hstack hflow] at hlead
    cases flow with
    | next => exact absurd rfl hflow
    | breakLoop => exact Follows.fail hlead
    | continueLoop => exact Follows.fail hlead
    | ret v => exact Follows.pure hlead

/-- The calls and the turns of loops that the fuel allows are what the interpreter does. -/
theorem sem_follows (P : Program H) : ∀ n, BelowFollows P.toNamespace n (sem P.toNamespace P.body n)
  | 0 => ⟨fun _ _ _ _ _ _ _ _ => Lasts.zero _, fun _ _ _ _ _ => Lasts.zero _⟩
  | n + 1 => by
      have hB := sem_follows P n
      refine ⟨?_, ?_⟩
      · intro M k flags code size want stack hk hcode hhandle hlimit hstack args ops env
        exact call_follows hB hk hcode hhandle hlimit hstack args ops env
      · intro K e body pred pcEnd hruns hcode hloop ops env
        exact Follows.tick loop_end
          (loop_entry hB (Expr.follows hB e) (Block.follows hB body) hruns hcode hloop)

end Gewodsys.Lai
