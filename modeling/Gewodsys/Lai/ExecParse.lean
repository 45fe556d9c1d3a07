import Gewodsys.Lai.Aml

/-!
# The interpreter on encoded terms: single steps

* `Ctl` : where a run is, apart from its `pc`, its operands and its variables; `Ctl.state`;
* `Awaits` : the top item parses the next term in a mode;
* `parse_const`, `parse_ref`, `parse_op`, `parse_cond`, `parse_loop` : what `lai_exec_parse` makes of the first bytes of
  each term.
-/

namespace Gewodsys.Lai
open Gewodsys.Machine

variable {H : Type}

/-- A point of a run: the method, the end of the block, and the items of the stacks below. -/
structure Ctl (H : Type) where
  code : List Byte
  handle : H
  limit : Nat
  stack : List StackItem
  blks : List BlkItem
  ctxs : List (CtxItem H)

def Ctl.state (K : Ctl H) (pc : Nat) (ops : List (Operand H)) (env : Env H) : State H where
  ctxstack := ⟨K.code, K.handle, env.invocation⟩ :: K.ctxs
  blkstack := ⟨pc, K.limit⟩ :: K.blks
  stack := K.stack
  opstack := ops
  object := env.object
  debug := env.debug

def Ctl.push (K : Ctl H) (item : StackItem) : Ctl H := { K with stack := item :: K.stack }

/-- A block up to `limit`, behind which the run goes on at `pc`. -/
def Ctl.enter (K : Ctl H) (item : StackItem) (pc limit : Nat) : Ctl H :=
  { K with stack := item :: K.stack, limit := limit, blks := ⟨pc, K.limit⟩ :: K.blks }

variable {N : Namespace H} {K : Ctl H} {mode : Mode} {pc : Nat} {ops : List (Operand H)} {env : Env H}

/-! ## The first bytes -/

theorem parse_byte {c : Byte} {bs : List Byte} (h : Holds8 K.code pc (c :: bs)) (hpc : pc < K.limit)
    (hname : laiIsName c = false) (hext : c ≠ extopPrefix) :
    laiExecParse N mode (K.state pc ops env) =
      parseOpcode mode ⟨K.code, K.handle, env.invocation⟩ K.limit pc c.toNat (pc + 1) (K.state pc ops env) := by
  simp only [laiExecParse, Ctl.state, bind, Except.bind]
  rw [if_neg (by omega), h.byteAt]
  simp only [hname, if_neg hext, Bool.false_eq_true, if_false]

theorem parse_extop {c : Byte} {bs : List Byte} (h : Holds8 K.code pc (extopPrefix :: c :: bs)) (hpc : pc + 2 ≤ K.limit) :
    laiExecParse N mode (K.state pc ops env) =
      parseOpcode mode ⟨K.code, K.handle, env.invocation⟩ K.limit pc (0x5B00 ||| c.toNat) (pc + 2)
        (K.state pc ops env) := by
  simp only [laiExecParse, Ctl.state, bind, Except.bind]
  rw [if_neg (by omega), h.byteAt]
  simp only [show laiIsName extopPrefix = false by decide, Bool.false_eq_true, if_false, if_true]
  rw [if_neg (by omega), h.tail.byteAt]
  rfl

theorem named_head {x : NameString} (hx : x.Named) : ∃ c bs, x.encode = c :: bs ∧ laiIsName c = true := by
  unfold NameString.encode
  by_cases habs : x.isAbsolute = true
  · exact ⟨rootChar, encodeSegs x.segs, by rw [if_pos habs]; rfl, by decide⟩
  · rw [if_neg habs]
    cases hh : x.height with
    | succ n => exact ⟨parentChar, List.replicate n parentChar ++ encodeSegs x.segs, by rw [List.replicate_succ]; rfl, by decide⟩
    | zero =>
        have hsegs : x.segs ≠ [] := by
          rcases hx with h | h | h
          · exact absurd h habs
          · omega
          · exact h
        rw [List.replicate_zero, List.nil_append]
        match hs : x.segs, hsegs with
        | [s], _ =>
            have hl := isLead_ne (x.lead s (by rw [hs]; exact List.mem_singleton_self s))
            exact ⟨s.b0, [s.b1, s.b2, s.b3], rfl, hl.2.2.2.2.2⟩
        | [s, t], _ => exact ⟨dualPrefix, s.bytes ++ t.bytes, rfl, by decide⟩
        | s :: t :: u :: segs, _ => exact ⟨multiPrefix, _, rfl, by decide⟩

theorem parse_named {x : NameString} (hx : x.Named) (h : Holds8 K.code pc x.encode) (hpc : pc < K.limit) :
    laiExecParse N mode (K.state pc ops env) =
      parseName N mode ⟨K.code, K.handle, env.invocation⟩ pc (K.state pc ops env) := by
  obtain ⟨c, bs, hc, hname⟩ := named_head hx
  rw [hc] at h
  simp only [laiExecParse, Ctl.state, bind, Except.bind]
  rw [if_neg (by omega), h.byteAt]
  simp only [hname, if_true]

/-- A name that is read: what its node is then decides. -/
theorem parse_ref {x : NameString} (hx : x.Named) (h : Holds8 K.code pc x.encode) (hpc : pc < K.limit) :
    laiExecParse N mode (K.state pc ops env) =
      (resolved N K.handle x).bind fun k =>
        if mode.invoke then
          match N.node k with
          | .method flags _ _ =>
              .ok ((K.push (.invoke ops.length (flags &&& 7#8).toNat mode.result)).state (pc + x.encode.length)
                (ops ++ [.resolvedName k]) env)
          | .name => .ok ((K.state (pc + x.encode.length) ops env).pushResult mode.result (env.object k))
          | .other => .error .unmodelled
        else .ok (K.state (pc + x.encode.length) (ops ++ [.resolvedName k]) env) := by
  obtain ⟨rest, hrest⟩ := h
  rw [parse_named hx ⟨rest, hrest⟩ hpc]
  simp only [parseName, ← hrest, amlname_roundTrip, resolved, bind, Except.bind]
  cases N.laiDoResolve K.handle x.parsed with
  | error f => rfl
  | ok r =>
      cases r with
      | none => rfl
      | some k => rfl

/-! ## Opcodes -/

theorem opcodeOf_arg (i : Fin 7) : opcodeOf (argOp i).toNat = .arg i := by
  revert i
  decide

theorem opcodeOf_loc (i : Fin 8) : opcodeOf (localOp i).toNat = .loc i := by
  revert i
  decide

theorem opcodeOf_op (o : Op) : opcodeOf o.opcode = .op o := by
  cases o <;> rfl

theorem argOp_plain (i : Fin 7) : laiIsName (argOp i) = false ∧ argOp i ≠ extopPrefix := by
  revert i
  decide

theorem localOp_plain (i : Fin 8) : laiIsName (localOp i) = false ∧ localOp i ≠ extopPrefix := by
  revert i
  decide

/-- The operators: one byte, or two with the prefix. -/
theorem opcode_bytes (o : Op) :
    (∃ c, o.bytes = [c] ∧ laiIsName c = false ∧ c ≠ extopPrefix ∧ c ≠ elseOp ∧ c.toNat = o.opcode) ∨
      ∃ c, o.bytes = [extopPrefix, c] ∧ 0x5B00 ||| c.toNat = o.opcode := by
  cases o
  case fromBcd => exact .inr ⟨0x28, rfl, rfl⟩
  case toBcd => exact .inr ⟨0x29, rfl, rfl⟩
  all_goals exact .inl ⟨_, rfl, by decide, by decide, by decide, by decide⟩

theorem parse_op {o : Op} (h : Holds8 K.code pc o.bytes) (hpc : pc + o.bytes.length ≤ K.limit) :
    laiExecParse N mode (K.state pc ops env) =
      .ok ((K.push (.op ops.length o mode.result)).state (pc + o.bytes.length) ops env) := by
  rcases opcode_bytes o with ⟨c, hc, hname, hext, -, hop⟩ | ⟨c, hc, hop⟩ <;> rw [hc] at h hpc ⊢
  · rw [parse_byte h hpc hname hext, hop]
    unfold parseOpcode
    rw [opcodeOf_op]
    rfl
  · rw [parse_extop h hpc, hop]
    unfold parseOpcode
    rw [opcodeOf_op]
    rfl

/-- A constant that is read. -/
theorem parse_const {c : Const} (h : Holds8 K.code pc c.encode) (hpc : pc + c.encode.length ≤ K.limit)
    (hmode : mode ≠ .reference) :
    laiExecParse N mode (K.state pc ops env) =
      .ok ((K.state (pc + c.encode.length) ops env).pushResult mode.result (.integer c.value)) := by
  have hprefixed : ∀ (b : Byte) (v n : Nat), opcodeOf b.toNat = .prefixed n → laiIsName b = false → b ≠ extopPrefix →
      v < 256 ^ n → Holds8 K.code pc (b :: leBytes v n) → pc + (n + 1) ≤ K.limit →
      laiExecParse N mode (K.state pc ops env) =
        .ok ((K.state (pc + (n + 1)) ops env).pushResult mode.result (.integer (BitVec.ofNat 64 v))) := by
    intro b v n hop hname hext hv hholds hlimit
    have hle := le_roundTrip hholds.tail hv (show pc + 1 + n ≤ K.limit by omega)
    rw [parse_byte hholds (by omega) hname hext]
    unfold parseOpcode
    rw [hop]
    simp only [hle, bind, Except.bind]
    rw [show pc + 1 + n = pc + (n + 1) by omega]
    cases mode with
    | object => rfl
    | exec => rfl
    | reference => exact absurd rfl hmode
  cases c with
  | zero =>
      rw [parse_byte h hpc (by decide) (by decide)]
      cases mode with
      | object => rfl
      | exec => rfl
      | reference => exact absurd rfl hmode
  | one =>
      rw [parse_byte h hpc (by decide) (by decide)]
      cases mode with
      | object => rfl
      | exec => rfl
      | reference => exact absurd rfl hmode
  | ones =>
      rw [parse_byte h hpc (by decide) (by decide)]
      cases mode with
      | object => rfl
      | exec => rfl
      | reference => exact absurd rfl hmode
  | byte v => exact hprefixed 0x0A v.toNat 1 (by decide) (by decide) (by decide) v.isLt h hpc
  | word v => exact hprefixed 0x0B v.toNat 2 (by decide) (by decide) (by decide) v.isLt h hpc
  | dword v => exact hprefixed 0x0C v.toNat 4 (by decide) (by decide) (by decide) v.isLt h hpc
  | qword v => exact hprefixed 0x0E v.toNat 8 (by decide) (by decide) (by decide) v.isLt h hpc

/-- The operand of a target. -/
theorem parse_target {t : Target} (ht : t.Fits) (h : Holds8 K.code pc t.encode) (hpc : pc + t.encode.length ≤ K.limit) :
    laiExecParse N .reference (K.state pc ops env) =
      (t.operand N K.handle).bind fun x => .ok (K.state (pc + t.encode.length) (ops ++ [x]) env) := by
  cases t with
  | null => exact parse_byte h hpc (by decide) (by decide)
  | arg i =>
      rw [Target.encode, parse_byte h hpc (argOp_plain i).1 (argOp_plain i).2]
      unfold parseOpcode
      rw [opcodeOf_arg]
      rfl
  | loc i =>
      rw [Target.encode, parse_byte h hpc (localOp_plain i).1 (localOp_plain i).2]
      unfold parseOpcode
      rw [opcodeOf_loc]
      rfl
  | name x =>
      have hpos : 0 < x.encode.length := by
        obtain ⟨c, bs, hc, -⟩ := named_head ht
        rw [hc]
        exact Nat.succ_pos _
      rw [parse_ref ht h (by change pc + x.encode.length ≤ K.limit at hpc; omega)]
      cases hr : resolved N K.handle x with
      | error f => simp only [Target.operand, hr, bind, Except.bind]
      | ok k => simp only [Target.operand, hr, bind, Except.bind]; rfl
  | debug => exact parse_extop h hpc

/-- The mode of an expression whose result is wanted, or not. -/
def wantMode (want : Bool) : Mode := if want then .object else .exec

@[simp] theorem wantMode_result (want : Bool) : (wantMode want).result = want := by cases want <;> rfl
@[simp] theorem wantMode_invoke (want : Bool) : (wantMode want).invoke = true := by cases want <;> rfl

theorem wantMode_ne (want : Bool) : wantMode want ≠ .reference := by cases want <;> decide

/-- `ARGx` and `LOCALx`: what `parseVariable` does is what the meaning says. -/
theorem parseVariable_want (want : Bool) (name : Operand H) (v : Option Variable) :
    parseVariable (wantMode want) name v (K.state pc ops env) =
      (variableValue want v env).bind fun r => .ok ((K.state pc ops r.2).pushResult want r.1) := by
  cases want <;> cases v <;> rfl

theorem target_pos {t : Target} (ht : t.Fits) : 0 < t.encode.length := by
  cases t with
  | name x =>
      obtain ⟨c, bs, hc, -⟩ := named_head ht
      rw [Target.encode, hc]
      exact Nat.succ_pos _
  | _ => exact Nat.succ_pos _

/-! ## Blocks -/

theorem holds8_package {code bytes : List Byte} (h : Holds8 code pc (package bytes)) :
    Holds8 code pc (pkgLength bytes.length) ∧ Holds8 code (pc + (pkgLength bytes.length).length) bytes :=
  holds8_append.mp h

theorem length_package (bytes : List Byte) :
    (package bytes).length = (pkgLength bytes.length).length + bytes.length := List.length_append

theorem pkgLength_pos (n : Nat) : 0 < (pkgLength n).length := by
  rw [length_pkgLength]
  rcases pkgLengthBytes_cases n with ⟨h, -⟩ | ⟨h, -⟩ | ⟨h, -⟩ | h <;> omega

/-- The size of a package in a short code is read back. -/
theorem package_size {bytes : List Byte} {limit : Nat} (h : Holds8 K.code pc (package bytes))
    (hcode : K.code.length < 2 ^ 28) (hlimit : pc + (package bytes).length ≤ limit) :
    laiParseVarint K.code pc limit = .ok ((package bytes).length, pc + (pkgLength bytes.length).length) := by
  have hlen := length_package bytes
  have hpos := pkgLength_pos bytes.length
  have hin := Holds8.length_le h (List.ne_nil_of_length_pos (by omega))
  rw [varint_roundTrip (by omega) (holds8_package h).1 (by omega), hlen, Nat.add_comm bytes.length]

/-- A `While` that is read: its block, and the predicate to test. -/
theorem parse_loop {bytes : List Byte} (h : Holds8 K.code pc (0xA2 :: package bytes))
    (hcode : K.code.length < 2 ^ 28) (hpc : pc + (package bytes).length < K.limit) :
    laiExecParse N mode (K.state pc ops env) =
      .ok ((K.enter (.loop ops.length false (pc + 1 + (pkgLength bytes.length).length))
          (pc + 1 + (package bytes).length) (pc + 1 + (package bytes).length)).state
        (pc + 1 + (pkgLength bytes.length).length) ops env) := by
  rw [parse_byte h (by omega) (by decide) (by decide)]
  unfold parseOpcode
  rw [show opcodeOf (0xA2 : Byte).toNat = .loop by decide]
  simp only [package_size h.tail hcode (show pc + 1 + (package bytes).length ≤ K.limit by omega), bind, Except.bind]
  rfl

/-- An `If` that is read, with the `Else` that `parseElse` finds behind it. -/
theorem parse_cond {bytes : List Byte} {els : Option BlkItem} {next : Nat} (h : Holds8 K.code pc (0xA0 :: package bytes))
    (hcode : K.code.length < 2 ^ 28) (hpc : pc + (package bytes).length < K.limit)
    (hels : parseElse K.code (pc + 1 + (package bytes).length) K.limit = .ok (els, next)) :
    laiExecParse N mode (K.state pc ops env) =
      .ok ((K.enter (.cond ops.length false els) next (pc + 1 + (package bytes).length)).state
        (pc + 1 + (pkgLength bytes.length).length) ops env) := by
  rw [parse_byte h (by omega) (by decide) (by decide)]
  unfold parseOpcode
  rw [show opcodeOf (0xA0 : Byte).toNat = .cond by decide]
  simp only [package_size h.tail hcode (show pc + 1 + (package bytes).length ≤ K.limit by omega), bind, Except.bind, hels]
  rfl

/-- No `Else` is at `pc`: the block ends there, or another statement begins. -/
def NoElse (code : List Byte) (pc limit : Nat) : Prop := pc < limit → ∃ b, Holds8 code pc [b] ∧ b ≠ elseOp

theorem argOp_ne_else (i : Fin 7) : argOp i ≠ elseOp := by
  revert i
  decide

theorem localOp_ne_else (i : Fin 8) : localOp i ≠ elseOp := by
  revert i
  decide

/-- No statement begins with the byte of an `Else`. -/
theorem stmt_head {h : H} {s : Stmt} (hs : s.Fits N h) : ∃ c bs, s.encode = c :: bs ∧ c ≠ elseOp := by
  cases s with
  | expr e =>
      cases e with
      | const c => cases c <;> exact ⟨_, _, rfl, by decide⟩
      | arg i => exact ⟨argOp i, [], rfl, argOp_ne_else i⟩
      | loc i => exact ⟨localOp i, [], rfl, localOp_ne_else i⟩
      | ref x argc args =>
          obtain ⟨c, bs, hc, hname⟩ := named_head hs.1
          refine ⟨c, bs ++ args.encode, by rw [Stmt.encode, Expr.encode, hc]; rfl, ?_⟩
          rintro rfl
          exact absurd hname (by decide)
      | op o args =>
          rcases opcode_bytes o with ⟨c, hc, -, -, helse, -⟩ | ⟨c, hc, -⟩
          · exact ⟨c, args.encode, by rw [Stmt.encode, Expr.encode, hc]; rfl, helse⟩
          · exact ⟨extopPrefix, c :: args.encode, by rw [Stmt.encode, Expr.encode, hc]; rfl, by decide⟩
  | _ => exact ⟨_, _, rfl, by decide⟩

theorem block_noElse {h : H} {b : Block} {code : List Byte} {limit : Nat} (hb : b.Fits N h)
    (hholds : Holds8 code pc b.encode) (hlimit : pc + b.encode.length = limit) : NoElse code pc limit := by
  intro hlt
  cases b with
  | nil => exact absurd hlimit (by rw [Block.encode, List.length_nil]; omega)
  | cons s rest =>
      obtain ⟨c, bs, hc, hne⟩ := stmt_head hb.1
      rw [Block.encode, hc] at hholds
      exact ⟨c, hholds.head, hne⟩

theorem parseElse_none {code : List Byte} {limit : Nat} (h : NoElse code pc limit) :
    parseElse code pc limit = .ok (none, pc) := by
  unfold parseElse
  by_cases hpc : pc < limit
  · obtain ⟨b, hb, hne⟩ := h hpc
    simp only [if_pos hpc, hb.byteAt, bind, Except.bind, if_neg hne]
    rfl
  · rw [if_neg hpc]
    rfl

theorem parseElse_some {bytes : List Byte} (h : Holds8 K.code pc (elseOp :: package bytes))
    (hcode : K.code.length < 2 ^ 28) (hpc : pc + 1 + (package bytes).length ≤ K.limit) :
    parseElse K.code pc K.limit =
      .ok (some ⟨pc + 1 + (pkgLength bytes.length).length, pc + 1 + (package bytes).length⟩,
        pc + 1 + (package bytes).length) := by
  unfold parseElse
  simp only [if_pos (show pc < K.limit by omega), h.byteAt, bind, Except.bind, package_size h.tail hcode hpc]
  rfl

/-! ## Waiting for a term -/

variable [DecidableEq H]

/-- The top item, with `len` operands there, parses the next term in the mode. -/
structure Awaits (N : Namespace H) (K : Ctl H) (mode : Mode) (len : Nat) : Prop where
  top : K.stack ≠ []
  process : ∀ pc ops env, pc < K.limit → ops.length = len →
    laiExecProcess N (K.state pc ops env) = laiExecParse N mode (K.state pc ops env)

theorem leads_process {s : State H} (hs : s.stack ≠ []) : Leads (execStep N) s (laiExecProcess N s) := by
  cases h : laiExecProcess N s with
  | ok t => exact Leads.head (by rw [execStep, if_neg hs, h]) (Leads.refl t)
  | error f => exact Leads.fail (by rw [execStep, if_neg hs, h])

theorem execStep_of_process {s t : State H} (hs : s.stack ≠ []) (h : laiExecProcess N s = .ok t) :
    execStep N s = .more t := by
  rw [execStep, if_neg hs, h]

theorem Awaits.leads (h : Awaits N K mode ops.length) (env : Env H) (hpc : pc < K.limit) :
    Leads (execStep N) (K.state pc ops env) (laiExecParse N mode (K.state pc ops env)) := by
  rw [← h.process pc ops env hpc rfl]
  exact leads_process h.top

theorem Awaits.step {t : State H} (h : Awaits N K mode ops.length) (hpc : pc < K.limit)
    (hparse : laiExecParse N mode (K.state pc ops env) = .ok t) : execStep N (K.state pc ops env) = .more t := by
  refine execStep_of_process h.top ?_
  rw [h.process pc ops env hpc rfl, hparse]

end Gewodsys.Lai
