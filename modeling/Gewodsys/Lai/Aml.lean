import Gewodsys.Lai.Exec

/-!
# AML programs: syntax, encoding, meaning

* `Expr`, `Args`, `Stmt`, `Block` : the terms of a method; `Expr.encode`, `Block.encode` : their bytes;
* `Expr.eval`, `Stmt.exec`, `Block.exec` : what they do, with `Below` for the calls and the turns of loops that need
  fuel; `sem` ties the knot;
* `Program` : the methods of a namespace, their code loaded.
-/

namespace Gewodsys.Lai
open Gewodsys.Machine

/-! ## Syntax -/

inductive Const
  | zero | one | ones
  | byte (v : BitVec 8)
  | word (v : BitVec 16)
  | dword (v : BitVec 32)
  | qword (v : BitVec 64)

inductive Target
  | null
  | arg (i : Fin 7)
  | loc (i : Fin 8)
  | name (x : NameString)
  | debug

mutual

inductive Expr
  | const (c : Const)
  | arg (i : Fin 7)
  | loc (i : Fin 8)
  /-- A name: of an object, or of a method with its arguments. -/
  | ref (x : NameString) (argc : Nat) (args : Args (List.replicate argc .object))
  | op (o : Op) (args : Args o.argModes)

/-- Arguments for the modes. -/
inductive Args : List Mode → Type
  | nil : Args []
  | object {ms : List Mode} (e : Expr) (rest : Args ms) : Args (.object :: ms)
  | reference {ms : List Mode} (t : Target) (rest : Args ms) : Args (.reference :: ms)

end

mutual

inductive Stmt
  | expr (e : Expr)
  | nop
  | breakPoint
  | cond (e : Expr) (body : Block)
  | condElse (e : Expr) (body els : Block)
  | loop (e : Expr) (body : Block)
  | breakLoop
  | continueLoop
  | ret (e : Expr)

inductive Block
  | nil
  | cons (s : Stmt) (rest : Block)

end

/-! ## Encoding -/

def Const.value : Const → Word64
  | .zero => 0
  | .one => 1
  | .ones => BitVec.allOnes 64
  | .byte v => BitVec.ofNat 64 v.toNat
  | .word v => BitVec.ofNat 64 v.toNat
  | .dword v => BitVec.ofNat 64 v.toNat
  | .qword v => BitVec.ofNat 64 v.toNat

def Const.encode : Const → List Byte
  | .zero => [0x00]
  | .one => [0x01]
  | .ones => [0xFF]
  | .byte v => 0x0A :: leBytes v.toNat 1
  | .word v => 0x0B :: leBytes v.toNat 2
  | .dword v => 0x0C :: leBytes v.toNat 4
  | .qword v => 0x0E :: leBytes v.toNat 8

def argOp (i : Fin 7) : Byte := BitVec.ofNat 8 (0x68 + i.val)
def localOp (i : Fin 8) : Byte := BitVec.ofNat 8 (0x60 + i.val)

def Op.bytes (o : Op) : List Byte :=
  if o.opcode < 256 then [BitVec.ofNat 8 o.opcode] else [extopPrefix, BitVec.ofNat 8 o.opcode]

def Target.encode : Target → List Byte
  | .null => [0x00]
  | .arg i => [argOp i]
  | .loc i => [localOp i]
  | .name x => x.encode
  | .debug => [extopPrefix, 0x31]

/-- A package: its size, and its bytes. -/
def package (bytes : List Byte) : List Byte := pkgLength bytes.length ++ bytes

mutual

def Expr.encode : Expr → List Byte
  | .const c => c.encode
  | .arg i => [argOp i]
  | .loc i => [localOp i]
  | .ref x _ args => x.encode ++ args.encode
  | .op o args => o.bytes ++ args.encode

def Args.encode : {ms : List Mode} → Args ms → List Byte
  | _, .nil => []
  | _, .object e rest => e.encode ++ rest.encode
  | _, .reference t rest => t.encode ++ rest.encode

end

mutual

def Stmt.encode : Stmt → List Byte
  | .expr e => e.encode
  | .nop => [0xA3]
  | .breakPoint => [0xCC]
  | .cond e body => 0xA0 :: package (e.encode ++ body.encode)
  | .condElse e body els => (0xA0 :: package (e.encode ++ body.encode)) ++ elseOp :: package els.encode
  | .loop e body => 0xA2 :: package (e.encode ++ body.encode)
  | .breakLoop => [0xA5]
  | .continueLoop => [0x9F]
  | .ret e => 0xA4 :: e.encode

def Block.encode : Block → List Byte
  | .nil => []
  | .cons s rest => s.encode ++ rest.encode

end

/-! ## Meaning -/

variable {H : Type} [DecidableEq H]

/-- How a statement ends. -/
inductive Flow
  | next
  | breakLoop
  | continueLoop
  | ret (v : Variable)

/-- Calls and further turns of a loop, with the fuel that is left. `idle` says that no operand waits. -/
structure Below (H : Type) where
  call : H → List Variable → Bool → Env H → Fueled Failure (Variable × Env H)
  again : H → Expr → Block → Bool → Env H → Fueled Failure (Flow × Env H)

/-- The value of a variable, which only an expression can ask for. -/
def variableValue (want : Bool) (v : Option Variable) (env : Env H) : Except Failure (Variable × Env H) :=
  match want, v with
  | true, some v => .ok (v, env)
  | _, _ => .error .panic

/-- The node that a name means. -/
def resolved (N : Namespace H) (h : H) (x : NameString) : Except Failure H := do
  match ← N.laiDoResolve h x.parsed with
  | some k => return k
  | none => .error (.api .unexpectedResult)

def Target.operand (N : Namespace H) (h : H) : Target → Except Failure (Operand H)
  | .null => .ok .nullName
  | .arg i => .ok (.argName i)
  | .loc i => .ok (.localName i)
  | .name x => do return .resolvedName (← resolved N h x)
  | .debug => .ok .debugName

mutual

/-- `h` is the scope of the names. A result that is not wanted is computed all the same. -/
def Expr.eval (N : Namespace H) (B : Below H) (h : H) : Expr → Bool → Bool → Env H → Fueled Failure (Variable × Env H)
  | .const c, _, _, env => .ok (.integer c.value, env)
  | .arg i, _, want, env => Fueled.lift (variableValue want (env.invocation.map (·.arg i)) env)
  | .loc i, _, want, env => Fueled.lift (variableValue want (env.invocation.map (·.loc i)) env)
  | .ref x _ args, idle, _, env => do
      let k ← Fueled.lift (resolved N h x)
      match N.node k with
      | .name => return (env.object k, env)
      | .other => .error (.fail .unmodelled)
      | .method .. =>
          let (operands, env) ← args.eval N B h false env
          let values ← Fueled.lift (operands.mapM laiExecGetObjectref)
          let (v, env') ← B.call k values idle env
          return (v, { env' with invocation := env.invocation })
  | .op o args, idle, _, env => do
      let (operands, env) ← args.eval N B h idle env
      Fueled.lift (laiExecReduceOp N o operands env)

/-- Only the first argument can find no operand waiting. -/
def Args.eval (N : Namespace H) (B : Below H) (h : H) :
    {ms : List Mode} → Args ms → Bool → Env H → Fueled Failure (List (Operand H) × Env H)
  | _, .nil, _, env => .ok ([], env)
  | _, .object e rest, idle, env => do
      let (v, env) ← e.eval N B h idle true env
      let (operands, env) ← rest.eval N B h false env
      return (.object v :: operands, env)
  | _, .reference t rest, _, env => do
      let operand ← Fueled.lift (t.operand N h)
      let (operands, env) ← rest.eval N B h false env
      return (operand :: operands, env)

end

/-- A predicate holds where it is an integer other than 0. -/
def truth (v : Variable) : Except Failure Bool :=
  match v with
  | .integer n => .ok (n ≠ 0)
  | .none => .error .panic

def Stmt.isContinue : Stmt → Bool
  | .continueLoop => true
  | _ => false

mutual

def Stmt.exec (N : Namespace H) (B : Below H) (h : H) : Stmt → Bool → Env H → Fueled Failure (Flow × Env H)
  | .expr e, idle, env => do
      let (_, env) ← e.eval N B h idle false env
      return (.next, env)
  | .nop, _, env => .ok (.next, env)
  | .breakPoint, _, env => .ok (.next, env)
  | .cond e body, idle, env => do
      let (v, env) ← e.eval N B h idle true env
      if ← Fueled.lift (truth v) then body.exec N B h false idle env else return (.next, env)
  | .condElse e body els, idle, env => do
      let (v, env) ← e.eval N B h idle true env
      if ← Fueled.lift (truth v) then body.exec N B h false idle env else els.exec N B h false idle env
  | .loop e body, idle, env => do
      let (v, env) ← e.eval N B h idle true env
      if ← Fueled.lift (truth v) then
        let (flow, env) ← body.exec N B h true idle env
        match flow with
        | .breakLoop => return (.next, env)
        | .ret v => return (.ret v, env)
        | _ => B.again h e body idle env
      else return (.next, env)
  | .breakLoop, _, env => .ok (.breakLoop, env)
  | .continueLoop, _, env => .ok (.continueLoop, env)
  | .ret e, idle, env => do
      let (v, env) ← e.eval N B h idle true env
      return (.ret v, env)

/-- `inLoop` says that the block is the body of a `While`. There a `Continue` is met again and again; one inside an `If`
only leaves the `If`, and the block goes on behind it. -/
def Block.exec (N : Namespace H) (B : Below H) (h : H) : Block → Bool → Bool → Env H → Fueled Failure (Flow × Env H)
  | .nil, _, _, env => .ok (.next, env)
  | .cons s rest, inLoop, idle, env =>
      if inLoop && s.isContinue then .error .fuel else do
      let (flow, env) ← s.exec N B h idle env
      match flow with
      | .next => rest.exec N B h inLoop idle env
      | .continueLoop => if inLoop then rest.exec N B h inLoop idle env else return (.continueLoop, env)
      | flow => return (flow, env)

end

/-- A method that is left by its end returns 0, and only where no operand waits. -/
def callBody (N : Namespace H) (body : H → Block) (B : Below H) (k : H) (args : List Variable) (idle : Bool) (env : Env H) :
    Fueled Failure (Variable × Env H) := do
  let (flow, env) ← (body k).exec N B k false idle { env with invocation := some (.ofArgs args) }
  match flow with
  | .ret v => return (v, env)
  | .next => if idle then return (.integer 0, env) else .error (.fail .panic)
  | _ => .error (.fail .panic)

/-- The calls and the turns of loops that `n` units of fuel allow. -/
def sem (N : Namespace H) (body : H → Block) : Nat → Below H
  | 0 => ⟨fun _ _ _ _ => .error .fuel, fun _ _ _ _ _ => .error .fuel⟩
  | n + 1 => ⟨callBody N body (sem N body n), fun h e b => (Stmt.loop e b).exec N (sem N body n) h⟩

/-! ## Loaded programs -/

/-- A name that `lai_is_name` recognises. -/
def NameString.Named (x : NameString) : Prop := x.isAbsolute = true ∨ 0 < x.height ∨ x.segs ≠ []

/-- The node takes `n` arguments. -/
def Takes (N : Namespace H) (k : H) (n : Nat) : Prop :=
  match N.node k with
  | .name => n = 0
  | .method flags _ _ => (flags &&& 7#8).toNat = n
  | .other => True

def Target.Fits : Target → Prop
  | .name x => x.Named
  | _ => True

mutual

/-- Every name has the arguments that its node takes. -/
def Expr.Fits (N : Namespace H) (h : H) : Expr → Prop
  | .ref x argc args => x.Named ∧ (∀ k, N.laiDoResolve h x.parsed = .ok (some k) → Takes N k argc) ∧ args.Fits N h
  | .op _ args => args.Fits N h
  | _ => True

def Args.Fits (N : Namespace H) (h : H) : {ms : List Mode} → Args ms → Prop
  | _, .nil => True
  | _, .object e rest => e.Fits N h ∧ rest.Fits N h
  | _, .reference t rest => t.Fits ∧ rest.Fits N h

end

mutual

def Stmt.Fits (N : Namespace H) (h : H) : Stmt → Prop
  | .expr e => e.Fits N h
  | .cond e body => e.Fits N h ∧ body.Fits N h
  | .condElse e body els => e.Fits N h ∧ body.Fits N h ∧ els.Fits N h
  | .loop e body => e.Fits N h ∧ body.Fits N h
  | .ret e => e.Fits N h
  | _ => True

def Block.Fits (N : Namespace H) (h : H) : Block → Prop
  | .nil => True
  | .cons s rest => s.Fits N h ∧ rest.Fits N h

end

/-- The methods of a namespace: their bodies, the code of the bodies in the tables. -/
structure Program (H : Type) [DecidableEq H] extends Namespace H where
  body : H → Block
  fits : ∀ h, (body h).Fits toNamespace h
  code_eq : ∀ h flags code size, node h = .method flags code size →
    (body h).encode <+: code ∧ size = (body h).encode.length
  code_lt : ∀ h flags code size, node h = .method flags code size → code.length < 2 ^ 28

end Gewodsys.Lai
