import Gewodsys.Lai.Code
import Gewodsys.Machine.Fuel

/-!
# The AML interpreter (`lai/core/exec.c`, `exec-operand.c`)

* `Variable`, `Operand`, `Env` : objects, operands, and what the operators change;
* `Op`, `laiExecReduceOp` : the operators;
* `State` : the four stacks; `laiExecParse` : one opcode; `laiExecProcess` : the top item of the execution stack;
* `execStep` : one turn of `lai_exec_run`; `laiEvalState` : the state that `lai_eval_args` starts from.

Integers are the only objects. The stacks grow as they need to: `laihost_malloc` does not fail.
-/

namespace Gewodsys.Lai
open Gewodsys.Machine

abbrev Word64 := BitVec 64

/-! ## Objects and operands -/

/-- `lai_variable_t`: `none` is type 0. -/
inductive Variable
  | none
  | integer (n : Word64)
deriving DecidableEq, Repr

/-- The field `integer`. -/
def Variable.value : Variable → Word64
  | .none => 0
  | .integer n => n

inductive Operand (H : Type)
  | object (v : Variable)
  | nullName
  | resolvedName (handle : H)
  | argName (index : Fin 7)
  | localName (index : Fin 8)
  | debugName
deriving Repr

structure Invocation where
  arg : Fin 7 → Variable
  loc : Fin 8 → Variable

def Invocation.ofArgs (args : List Variable) : Invocation := ⟨fun i => args.getD i .none, fun _ => .none⟩

/-- What a run leaves alone of a node. -/
inductive NsNode
  | name
  | method (flags : Byte) (code : List Byte) (size : Nat)
  /-- A field, a device or any other object. -/
  | other

structure Namespace (H : Type) where
  laiDoResolve : H → AmlName → Except Failure (Option H)
  node : H → NsNode

/-- What an operator can change: the variables of the method, the objects of the named nodes, and what was stored to
`Debug`. -/
structure Env (H : Type) where
  invocation : Option Invocation
  object : H → Variable
  debug : List Variable

variable {H : Type} [DecidableEq H]

def Env.setObject (env : Env H) (h : H) (v : Variable) : Env H := { env with object := Function.update env.object h v }

/-! ## Loads and stores -/

def laiExecGetInteger : Operand H → Except Failure Word64
  | .object (.integer n) => .ok n
  | _ => .error .panic

def laiExecGetObjectref : Operand H → Except Failure Variable
  | .object v => .ok v
  | _ => .error .panic

def laiExecAccess (N : Namespace H) (h : H) (env : Env H) : Except Failure Variable :=
  match N.node h with
  | .name => .ok (env.object h)
  | .method .. => .error .panic
  | .other => .error .unmodelled

def laiOperandLoad (N : Namespace H) (src : Operand H) (env : Env H) : Except Failure Variable :=
  match src, env.invocation with
  | .argName i, some inv => .ok (inv.arg i)
  | .localName i, some inv => .ok (inv.loc i)
  | .resolvedName h, _ => laiExecAccess N h env
  | _, _ => .error .panic

def laiStoreNs (N : Namespace H) (h : H) (v : Variable) (env : Env H) : Except Failure (Env H) :=
  match N.node h with
  | .name => .ok (env.setObject h v)
  | .method .. => .error .panic
  | .other => .error .unmodelled

def laiExecMutateNs (N : Namespace H) (h : H) (v : Variable) (env : Env H) : Except Failure (Env H) :=
  match N.node h, env.object h, v with
  -- `lai_mutate_integer` converts to an integer, or fails
  | .name, .integer _, .none => .error .panic
  | .name, _, _ => .ok (env.setObject h v)
  | .method .., _, _ => .error .panic
  | .other, _, _ => .error .unmodelled

/-- A store, where `ns` stores to a node. -/
def operandStore (ns : H → Variable → Env H → Except Failure (Env H)) (dest : Operand H) (v : Variable) (env : Env H) :
    Except Failure (Env H) :=
  match dest, env.invocation with
  | .nullName, _ => .ok env
  | .resolvedName h, _ => ns h v env
  | .argName i, some inv => .ok { env with invocation := some { inv with arg := Function.update inv.arg i v } }
  | .localName i, some inv => .ok { env with invocation := some { inv with loc := Function.update inv.loc i v } }
  | .debugName, _ => .ok { env with debug := env.debug ++ [v] }
  | _, _ => .error .panic

def laiOperandMutate (N : Namespace H) := operandStore (laiExecMutateNs N)

def laiOperandEmplace (N : Namespace H) := operandStore (laiStoreNs N)

/-! ## Operators -/

inductive Mode
  | object | exec | reference
deriving DecidableEq, Repr

/-- `LAI_MF_RESULT` -/
def Mode.result : Mode → Bool
  | .exec => false
  | _ => true

/-- `LAI_MF_INVOKE` -/
def Mode.invoke : Mode → Bool
  | .reference => false
  | _ => true

inductive Op
  | store | copyObject | not | findSetLeftBit | findSetRightBit
  | add | subtract | mod | multiply | and | or | xor | nand | nor | shl | shr | divide
  | increment | decrement | lnot | land | lor | lequal | lless | lgreater
  | toInteger | fromBcd | toBcd
deriving DecidableEq, Repr

def extopPrefix : Byte := 0x5B

def Op.opcode : Op → Nat
  | .store => 0x70
  | .add => 0x72
  | .subtract => 0x74
  | .increment => 0x75
  | .decrement => 0x76
  | .multiply => 0x77
  | .divide => 0x78
  | .shl => 0x79
  | .shr => 0x7A
  | .and => 0x7B
  | .nand => 0x7C
  | .or => 0x7D
  | .nor => 0x7E
  | .xor => 0x7F
  | .not => 0x80
  | .findSetLeftBit => 0x81
  | .findSetRightBit => 0x82
  | .mod => 0x85
  | .land => 0x90
  | .lor => 0x91
  | .lnot => 0x92
  | .lequal => 0x93
  | .lgreater => 0x94
  | .lless => 0x95
  | .toInteger => 0x99
  | .copyObject => 0x9D
  | .fromBcd => 0x5B28
  | .toBcd => 0x5B29

/-- `op_arg_modes` -/
def Op.argModes : Op → List Mode
  | .store | .copyObject | .not | .findSetLeftBit | .findSetRightBit | .toInteger | .fromBcd | .toBcd =>
      [.object, .reference]
  | .add | .subtract | .mod | .multiply | .and | .or | .xor | .nand | .nor | .shl | .shr =>
      [.object, .object, .reference]
  | .divide => [.object, .object, .reference, .reference]
  | .increment | .decrement => [.reference]
  | .lnot => [.object]
  | .land | .lor | .lequal | .lless | .lgreater => [.object, .object]

/-- The loop of `FINDSETLEFTBIT_OP`: shifts to the right until nothing is left. -/
def shiftsRight : Nat → Word64 → Nat
  | 0, _ => 0
  | n + 1, v => if v = 0 then 0 else shiftsRight n (v >>> 1) + 1

/-- The loop of `FINDSETRIGHTBIT_OP`: shifts to the left until nothing is left. -/
def shiftsLeft : Nat → Word64 → Nat
  | 0, _ => 0
  | n + 1, v => if v = 0 then 0 else shiftsLeft n (v <<< 1) + 1

/-- The loop of `FROM_BCD_OP`, for the nibbles from `i` on. -/
def fromBcdLoop (value : Word64) : Nat → Nat → Word64 → Word64 → Word64
  | 0, _, _, result => result
  | n + 1, i, powerOfTen, result =>
      let temp := (value >>> (i * 4)) &&& 0xF#64
      fromBcdLoop value n (i + 1) (powerOfTen * 10) (result + temp * powerOfTen)

/-- The loop of `TO_BCD_OP`. -/
def toBcdLoop : Nat → Word64 → Word64 → Word64
  | 0, _, result => result
  | n + 1, o, result =>
      let result := result <<< 4 ||| o.umod 10
      if o.udiv 10 = 0 then result else toBcdLoop n (o.udiv 10) result

def fromBcd (v : Word64) : Word64 := fromBcdLoop v 16 0 1 0
def toBcd (v : Word64) : Word64 := toBcdLoop 20 v 0

def boolWord (b : Bool) : Word64 := if b then 1 else 0

/-- `res ? ~0 : 0` -/
def onesIf (b : Bool) : Word64 := if b then BitVec.allOnes 64 else 0

/-- The operators of two integers with a target. -/
def arithOp (f : Word64 → Word64 → Except Failure Word64) (N : Namespace H) (operands : List (Operand H)) (env : Env H) :
    Except Failure (Variable × Env H) := do
  let lhs ← laiExecGetInteger (operands.getD 0 .nullName)
  let rhs ← laiExecGetInteger (operands.getD 1 .nullName)
  let result ← f lhs rhs
  let env ← laiOperandMutate N (operands.getD 2 .nullName) (.integer result) env
  return (.integer result, env)

/-- The operators of one integer with a target. -/
def arithOp1 (f : Word64 → Word64) (N : Namespace H) (operands : List (Operand H)) (env : Env H) :
    Except Failure (Variable × Env H) := do
  let operand ← laiExecGetInteger (operands.getD 0 .nullName)
  let env ← laiOperandMutate N (operands.getD 1 .nullName) (.integer (f operand)) env
  return (.integer (f operand), env)

/-- The operators of two integers without a target. -/
def logicOp (f : Word64 → Word64 → Word64) (operands : List (Operand H)) (env : Env H) :
    Except Failure (Variable × Env H) := do
  let lhs ← laiExecGetInteger (operands.getD 0 .nullName)
  let rhs ← laiExecGetInteger (operands.getD 1 .nullName)
  return (.integer (f lhs rhs), env)

/-- The comparisons: `lai_obj_exec_match_op` fails on what is no integer. -/
def compareOp (f : Word64 → Word64 → Bool) (operands : List (Operand H)) (env : Env H) :
    Except Failure (Variable × Env H) := do
  let lhs ← laiExecGetObjectref (operands.getD 0 .nullName)
  let rhs ← laiExecGetObjectref (operands.getD 1 .nullName)
  match lhs, rhs with
  | .integer l, .integer r => return (.integer (onesIf (f l r)), env)
  | _, _ => .error (.api .illegalArguments)

/-- The conversions and `CopyObject`: they replace what the target holds. -/
def convertOp (f : Variable → Except Failure Variable) (N : Namespace H) (operands : List (Operand H)) (env : Env H) :
    Except Failure (Variable × Env H) := do
  let result ← f (← laiExecGetObjectref (operands.getD 0 .nullName))
  let env ← laiOperandEmplace N (operands.getD 1 .nullName) result env
  return (result, env)

/-- `INCREMENT_OP` and `DECREMENT_OP`. -/
def countOp (d : Word64) (N : Namespace H) (operands : List (Operand H)) (env : Env H) :
    Except Failure (Variable × Env H) := do
  match ← laiOperandLoad N (operands.getD 0 .nullName) env with
  | .integer n =>
      let env ← laiOperandMutate N (operands.getD 0 .nullName) (.integer (n + d)) env
      return (.integer (n + d), env)
  | .none => .error .panic

/-- `lai_exec_reduce_op` -/
def laiExecReduceOp (N : Namespace H) (opcode : Op) (operands : List (Operand H)) (env : Env H) :
    Except Failure (Variable × Env H) :=
  match opcode with
  | .store => do
      let result ← laiExecGetObjectref (operands.getD 0 .nullName)
      let env ← laiOperandMutate N (operands.getD 1 .nullName) result env
      return (result, env)
  | .copyObject => convertOp .ok N operands env
  | .not => arithOp1 (~~~ ·) N operands env
  | .findSetLeftBit => arithOp1 (fun v => BitVec.ofNat 64 (shiftsRight 64 v)) N operands env
  | .findSetRightBit =>
      arithOp1 (fun v => BitVec.ofNat 64 (if shiftsLeft 64 v = 0 then 0 else 65 - shiftsLeft 64 v)) N operands env
  | .add => arithOp (fun l r => .ok (l + r)) N operands env
  | .subtract => arithOp (fun l r => .ok (l - r)) N operands env
  | .mod => arithOp (fun l r => if r = 0 then .error .undefined else .ok (l.umod r)) N operands env
  | .multiply => arithOp (fun l r => .ok (l * r)) N operands env
  | .and => arithOp (fun l r => .ok (l &&& r)) N operands env
  | .or => arithOp (fun l r => .ok (l ||| r)) N operands env
  | .xor => arithOp (fun l r => .ok (l ^^^ r)) N operands env
  | .nand => arithOp (fun l r => .ok (~~~(l &&& r))) N operands env
  | .nor => arithOp (fun l r => .ok (~~~(l ||| r))) N operands env
  | .shl => arithOp (fun l r => if 64 ≤ r.toNat then .error .undefined else .ok (l <<< r.toNat)) N operands env
  | .shr => arithOp (fun l r => if 64 ≤ r.toNat then .error .undefined else .ok (l >>> r.toNat)) N operands env
  | .divide => do
      let lhs ← laiExecGetInteger (operands.getD 0 .nullName)
      let rhs ← laiExecGetInteger (operands.getD 1 .nullName)
      if rhs = 0 then .error .undefined else
      let env ← laiOperandMutate N (operands.getD 2 .nullName) (.integer (lhs.umod rhs)) env
      let env ← laiOperandMutate N (operands.getD 3 .nullName) (.integer (lhs.udiv rhs)) env
      -- `result` is never set
      return (.none, env)
  | .increment => countOp 1 N operands env
  | .decrement => countOp (-1) N operands env
  | .lnot => do
      let operand ← laiExecGetInteger (operands.getD 0 .nullName)
      return (.integer (boolWord (operand = 0)), env)
  | .land => logicOp (fun l r => boolWord (l ≠ 0 ∧ r ≠ 0)) operands env
  | .lor => logicOp (fun l r => boolWord (l ≠ 0 ∨ r ≠ 0)) operands env
  | .lequal => compareOp (fun l r => l = r) operands env
  | .lless => compareOp (fun l r => l < r) operands env
  | .lgreater => compareOp (fun l r => r < l) operands env
  | .toInteger => convertOp (fun v => match v with | .integer n => .ok (.integer n) | .none => .error .panic) N operands env
  | .fromBcd => convertOp (fun v => .ok (.integer (fromBcd v.value))) N operands env
  | .toBcd => convertOp (fun v => .ok (.integer (toBcd v.value))) N operands env

/-! ## The stacks -/

structure CtxItem (H : Type) where
  code : List Byte
  handle : H
  invocation : Option Invocation

structure BlkItem where
  pc : Nat
  limit : Nat
deriving DecidableEq, Repr

/-- `lai_stackitem_t`. `frame` is `opstack_frame`. -/
inductive StackItem
  | populate
  | method (wantResult : Bool)
  | loop (frame : Nat) (iteration : Bool) (pred : Nat)
  | cond (frame : Nat) (branch : Bool) (els : Option BlkItem)
  | op (frame : Nat) (opcode : Op) (wantResult : Bool)
  | invoke (frame : Nat) (argc : Nat) (wantResult : Bool)
  | ret (frame : Nat)
deriving DecidableEq, Repr

/-- `lai_state_t`. The top is the head of `ctxstack`, `blkstack` and `stack`, and the end of `opstack`. -/
structure State (H : Type) where
  ctxstack : List (CtxItem H)
  blkstack : List BlkItem
  stack : List StackItem
  opstack : List (Operand H)
  object : H → Variable
  debug : List Variable

def State.pushItem (s : State H) (item : StackItem) : State H := { s with stack := item :: s.stack }
def State.pushBlk (s : State H) (blk : BlkItem) : State H := { s with blkstack := blk :: s.blkstack }
def State.pushOperand (s : State H) (x : Operand H) : State H := { s with opstack := s.opstack ++ [x] }

/-- Push the object, where the result is wanted. -/
def State.pushResult (s : State H) (wantResult : Bool) (v : Variable) : State H :=
  if wantResult then s.pushOperand (.object v) else s

def laiExecCommitPc (pc : Nat) (s : State H) : State H :=
  match s.blkstack with
  | blk :: blks => { s with blkstack := { blk with pc := pc } :: blks }
  | [] => s

/-! ## Leaving loops and methods -/

/-- The stacks with the items in the top loop gone. -/
def popToLoop : List StackItem → List BlkItem → Except Failure (List StackItem × List BlkItem)
  | .cond .. :: stack, _ :: blks => popToLoop stack blks
  | .loop f i p :: stack, blks => .ok (.loop f i p :: stack, blks)
  | _, _ => .error .panic

/-- `CONTINUE_OP`. The new `pc` is never committed. -/
def continueLoop (s : State H) : Except Failure (State H) := do
  let (stack, blks) ← popToLoop s.stack s.blkstack
  return { s with stack := stack, blkstack := blks }

/-- `BREAK_OP` -/
def breakLoop (s : State H) : Except Failure (State H) := do
  let (stack, blks) ← popToLoop s.stack s.blkstack
  return { s with stack := stack.tail, blkstack := blks.tail }

/-- The stacks with the top method and the items in it gone, and whether the result of the method is wanted. -/
def popMethod : List StackItem → List BlkItem → Except Failure (Bool × List StackItem × List BlkItem)
  | .cond .. :: stack, _ :: blks => popMethod stack blks
  | .loop .. :: stack, _ :: blks => popMethod stack blks
  | .method wantResult :: stack, _ :: blks => .ok (wantResult, stack, blks)
  | _, _ => .error .panic

/-- The end of `Return`, its own item and operand gone. -/
def returnFrom (result : Variable) (s : State H) : Except Failure (State H) := do
  let (wantResult, stack, blks) ← popMethod s.stack s.blkstack
  return { s with stack := stack, blkstack := blks, ctxstack := s.ctxstack.tail }.pushResult wantResult result

/-! ## Parsing -/

inductive Opcode
  | nop | zero | one | ones
  /-- An integer of so many bytes. -/
  | prefixed (bytes : Nat)
  | ret | loop | continueLoop | breakLoop | cond | els
  | arg (index : Fin 7)
  | loc (index : Fin 8)
  | breakPoint | debug
  | op (opcode : Op)
  | other
deriving DecidableEq, Repr

def elseOp : Byte := 0xA1

def allOps : List Op :=
  [.store, .copyObject, .not, .findSetLeftBit, .findSetRightBit, .add, .subtract, .mod, .multiply, .and, .or, .xor,
    .nand, .nor, .shl, .shr, .divide, .increment, .decrement, .lnot, .land, .lor, .lequal, .lless, .lgreater,
    .toInteger, .fromBcd, .toBcd]

/-- The cases of the `switch` of `lai_exec_parse`. -/
def opcodeOf (opcode : Nat) : Opcode :=
  if opcode = 0x00 then .zero
  else if opcode = 0x01 then .one
  else if opcode = 0x0A then .prefixed 1
  else if opcode = 0x0B then .prefixed 2
  else if opcode = 0x0C then .prefixed 4
  else if opcode = 0x0E then .prefixed 8
  else if 0x60 ≤ opcode ∧ opcode ≤ 0x67 then .loc (Fin.ofNat 8 (opcode - 0x60))
  else if 0x68 ≤ opcode ∧ opcode ≤ 0x6E then .arg (Fin.ofNat 7 (opcode - 0x68))
  else if opcode = 0x9F then .continueLoop
  else if opcode = 0xA0 then .cond
  else if opcode = 0xA1 then .els
  else if opcode = 0xA2 then .loop
  else if opcode = 0xA3 then .nop
  else if opcode = 0xA4 then .ret
  else if opcode = 0xA5 then .breakLoop
  else if opcode = 0xCC then .breakPoint
  else if opcode = 0xFF then .ones
  else if opcode = 0x5B31 then .debug
  else match allOps.find? (fun o => o.opcode == opcode) with
    | some o => .op o
    | none => .other

/-- A constant: pushed in object mode, and without effect in execution mode. -/
def parseConstant (mode : Mode) (n : Word64) (s : State H) : Except Failure (State H) :=
  match mode with
  | .object => .ok (s.pushOperand (.object (.integer n)))
  | .exec => .ok s
  | .reference => .error .panic

/-- `ARGx` and `LOCALx`: a name in reference mode, and what `load` gives in object mode. -/
def parseVariable (mode : Mode) (name : Operand H) (load : Option Variable) (s : State H) : Except Failure (State H) :=
  match mode, load with
  | .reference, _ => .ok (s.pushOperand name)
  | .object, some v => .ok (s.pushOperand (.object v))
  | _, _ => .error .panic

/-- A name at `pc`. -/
def parseName (N : Namespace H) (mode : Mode) (ctx : CtxItem H) (pc : Nat) (s : State H) : Except Failure (State H) := do
  let (amln, size) ← laiAmlnameParse (ctx.code.drop pc)
  let s := laiExecCommitPc (pc + size) s
  match ← N.laiDoResolve ctx.handle amln with
  | none => .error (.api .unexpectedResult)
  | some handle =>
      if mode.invoke then
        match N.node handle with
        | .method flags _ _ =>
            return (s.pushItem (.invoke s.opstack.length (flags &&& 7#8).toNat mode.result)).pushOperand (.resolvedName handle)
        | .name => return s.pushResult mode.result (s.object handle)
        | .other => .error .unmodelled
      else return s.pushOperand (.resolvedName handle)

/-- The block of an `Else` at `pc`, if there is one, and the end of the whole. -/
def parseElse (code : List Byte) (pc limit : Nat) : Except Failure (Option BlkItem × Nat) := do
  if pc < limit then
    if (← byteAt code pc) = elseOp then
      let (elseSize, elsePc) ← laiParseVarint code (pc + 1) limit
      return (some ⟨elsePc, pc + 1 + elseSize⟩, pc + 1 + elseSize)
    else return (none, pc)
  else return (none, pc)

/-- The opcode at `opcodePc`; `pc` is behind it. -/
def parseOpcode (mode : Mode) (ctx : CtxItem H) (limit opcodePc opcode pc : Nat) (s : State H) :
    Except Failure (State H) :=
  match opcodeOf opcode with
  | .nop | .breakPoint => .ok (laiExecCommitPc pc s)
  | .zero =>
      match mode with
      -- the null target
      | .reference => .ok ((laiExecCommitPc pc s).pushOperand .nullName)
      | mode => parseConstant mode 0 (laiExecCommitPc pc s)
  | .one => parseConstant mode 1 (laiExecCommitPc pc s)
  | .ones => parseConstant mode (BitVec.allOnes 64) (laiExecCommitPc pc s)
  | .prefixed n => do
      let (value, pc) ← laiParseLe n ctx.code pc limit
      parseConstant mode (BitVec.ofNat 64 value) (laiExecCommitPc pc s)
  | .ret => .ok ((laiExecCommitPc pc s).pushItem (.ret s.opstack.length))
  | .loop => do
      let (loopSize, bodyPc) ← laiParseVarint ctx.code pc limit
      let pc := opcodePc + 1 + loopSize
      return ((laiExecCommitPc pc s).pushBlk ⟨bodyPc, pc⟩).pushItem (.loop s.opstack.length false bodyPc)
  | .continueLoop => continueLoop s
  | .breakLoop => breakLoop s
  | .cond => do
      let (ifSize, ifPc) ← laiParseVarint ctx.code pc limit
      let (els, pc) ← parseElse ctx.code (opcodePc + 1 + ifSize) limit
      return ((laiExecCommitPc pc s).pushBlk ⟨ifPc, opcodePc + 1 + ifSize⟩).pushItem (.cond s.opstack.length false els)
  | .els => .error .panic
  | .arg i => parseVariable mode (.argName i) (ctx.invocation.map (·.arg i)) (laiExecCommitPc pc s)
  | .loc i => parseVariable mode (.localName i) (ctx.invocation.map (·.loc i)) (laiExecCommitPc pc s)
  | .debug =>
      match mode with
      | .reference => .ok ((laiExecCommitPc pc s).pushOperand .debugName)
      | _ => .error .panic
  | .op o => .ok ((laiExecCommitPc pc s).pushItem (.op s.opstack.length o mode.result))
  | .other => .error .unmodelled

/-- `lai_exec_parse` -/
def laiExecParse (N : Namespace H) (mode : Mode) (s : State H) : Except Failure (State H) :=
  match s.ctxstack, s.blkstack with
  | ctx :: _, blk :: _ => do
      if blk.limit ≤ blk.pc then .error .panic else
      let c ← byteAt ctx.code blk.pc
      if laiIsName c then parseName N mode ctx blk.pc s
      else if c = extopPrefix then
        if blk.pc + 1 = blk.limit then .error .panic else
        let c' ← byteAt ctx.code (blk.pc + 1)
        parseOpcode mode ctx blk.limit blk.pc (extopPrefix.toNat <<< 8 ||| c'.toNat) (blk.pc + 2) s
      else parseOpcode mode ctx blk.limit blk.pc c.toNat (blk.pc + 1) s
  | _, _ => .error .panic

/-! ## Processing -/

/-- An item that takes one object: `k` operands are there, and `use` takes the first. -/
def takeObject (N : Namespace H) (frame : Nat) (use : Operand H → Except Failure (State H)) (s : State H) :
    Except Failure (State H) :=
  match s.opstack.drop frame with
  | [] => laiExecParse N .object s
  | [operand] => use operand
  | _ => .error .panic

/-- The call of a method, its operands complete. -/
def invokeMethod (N : Namespace H) (frame : Nat) (wantResult : Bool) (s : State H) : Except Failure (State H) :=
  match s.opstack.drop frame with
  | .resolvedName handle :: operands =>
      match N.node handle with
      | .method _ code size => do
          let args ← operands.mapM laiExecGetObjectref
          return {
            s with
            opstack := s.opstack.take frame
            stack := .method wantResult :: s.stack.tail
            ctxstack := ⟨code, handle, some (.ofArgs args)⟩ :: s.ctxstack
            blkstack := ⟨0, size⟩ :: s.blkstack }
      | _ => .error .panic
  | _ => .error .panic

/-- `lai_exec_process` -/
def laiExecProcess (N : Namespace H) (s : State H) : Except Failure (State H) :=
  match s.stack, s.ctxstack, s.blkstack with
  | item :: stack, ctx :: ctxs, blk :: blks =>
      if blk.limit < blk.pc then .error .panic else
      match item with
      | .populate =>
          if blk.pc = blk.limit then .ok { s with stack := stack, ctxstack := ctxs, blkstack := blks }
          else laiExecParse N .exec s
      | .method wantResult =>
          if blk.pc = blk.limit then
            if s.opstack ≠ [] then .error .panic
            else .ok ({ s with stack := stack, ctxstack := ctxs, blkstack := blks }.pushResult wantResult (.integer 0))
          else laiExecParse N .exec s
      | .op frame opcode wantResult =>
          match opcode.argModes[s.opstack.length - frame]? with
          | some mode => laiExecParse N mode s
          | none => do
              let (result, env) ←
                laiExecReduceOp N opcode (s.opstack.drop frame) ⟨ctx.invocation, s.object, s.debug⟩
              return {
                s with
                ctxstack := { ctx with invocation := env.invocation } :: ctxs
                object := env.object
                debug := env.debug
                opstack := s.opstack.take frame
                stack := stack }.pushResult wantResult result
      | .invoke frame argc wantResult =>
          if argc + 1 < s.opstack.length - frame then .error .panic
          else if s.opstack.length - frame = argc + 1 then invokeMethod N frame wantResult s
          else laiExecParse N .object s
      | .ret frame =>
          takeObject N frame (fun operand => do
            let result ← laiExecGetObjectref operand
            returnFrom result { s with opstack := s.opstack.take frame, stack := stack }) s
      | .loop frame false pred =>
          takeObject N frame (fun operand => do
            let predicate ← laiExecGetInteger operand
            if predicate ≠ 0 then
              return { s with opstack := s.opstack.take frame, stack := .loop frame true pred :: stack }
            else return { s with opstack := s.opstack.take frame, stack := stack, blkstack := blks }) s
      | .loop frame true pred =>
          if blk.pc = blk.limit then
            .ok { s with stack := .loop frame false pred :: stack, blkstack := { blk with pc := pred } :: blks }
          else laiExecParse N .exec s
      | .cond frame false els =>
          takeObject N frame (fun operand => do
            let predicate ← laiExecGetInteger operand
            if predicate ≠ 0 then
              return { s with opstack := s.opstack.take frame, stack := .cond frame true els :: stack }
            else match els with
              | some blk =>
                  return {
                    s with
                    opstack := s.opstack.take frame
                    stack := .cond frame true (some blk) :: stack
                    blkstack := blk :: blks }
              | none => return { s with opstack := s.opstack.take frame, stack := stack, blkstack := blks }) s
      | .cond _ true _ =>
          if blk.pc = blk.limit then .ok { s with stack := stack, blkstack := blks }
          else laiExecParse N .exec s
  | _, _, _ => .error .panic

/-- One turn of the loop of `lai_exec_run`. -/
def execStep (N : Namespace H) (s : State H) : Next (State H) Failure :=
  if s.stack = [] then .done
  else match laiExecProcess N s with
    | .ok t => .more t
    | .error f => .fail f

/-- The state that `lai_eval_args` runs a method from. -/
def laiEvalState (code : List Byte) (size : Nat) (handle : H) (args : List Variable) (object : H → Variable) : State H where
  ctxstack := [⟨code, handle, some (.ofArgs args)⟩]
  blkstack := [⟨0, size⟩]
  stack := [.method true]
  opstack := []
  object := object
  debug := []

end Gewodsys.Lai
