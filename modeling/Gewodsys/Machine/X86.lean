import Gewodsys.Machine.Mem

/-!
# A 64-bit x86 core: the stack, calls, interrupt delivery

* `Cpu` : the registers an interrupt saves and restores, and the memory; `Cpu.push`, `Cpu.pop`;
* `Instr`, `Code.step` : the instructions of an interrupt entry path, run over lists of instructions with labels;
* `Cpu.deliver`, `Cpu.iretq` : what the hardware does when it takes an interrupt through a gate, and on `iretq`;
* `StackHolds c ws` : the words `ws` lie on the stack, the top one first; `StackHolds.push`, `StackHolds.pop`;
* `Code.Runs`, `Code.Returns` : the runs of the code, and those that end with `iretq`;
* `StackHolds.pushRegs`, `StackHolds.popRegs` : registers saved in one order and restored in the other;
* `CallKeeps` : what a caller may rely on after a call.
-/

namespace Gewodsys.Machine
open StateTransition

abbrev Quad := BitVec 64

/-- The general registers but `rsp`. -/
inductive Reg
  | rax | rbx | rcx | rdx | rdi | rsi | rbp | r8 | r9 | r10 | r11 | r12 | r13 | r14 | r15
deriving DecidableEq, Repr

structure Cpu where
  reg : Reg → Quad
  rsp : Quad
  rip : Quad
  cs : BitVec 16
  ss : BitVec 16
  rflags : Quad
  gsBase : Quad
  kernelGsBase : Quad
  /-- The stack pointer that the task state segment holds for privilege level 0. -/
  rsp0 : Quad
  mem : Mem

@[ext] theorem Cpu.ext {c c' : Cpu} (hreg : c.reg = c'.reg) (hrsp : c.rsp = c'.rsp) (hrip : c.rip = c'.rip)
    (hcs : c.cs = c'.cs) (hss : c.ss = c'.ss) (hflags : c.rflags = c'.rflags) (hgs : c.gsBase = c'.gsBase)
    (hkgs : c.kernelGsBase = c'.kernelGsBase) (hrsp0 : c.rsp0 = c'.rsp0) (hmem : c.mem = c'.mem) : c = c' := by
  cases c
  cases c'
  subst hreg hrsp hrip hcs hss hflags hgs hkgs hrsp0 hmem
  rfl

/-! ## Flags -/

def flagCarry : Nat := 0
def flagParity : Nat := 2
def flagAdjust : Nat := 4
def flagZero : Nat := 6
def flagSign : Nat := 7
def flagTrap : Nat := 8
def flagInterrupt : Nat := 9
def flagDirection : Nat := 10
def flagOverflow : Nat := 11
def flagNested : Nat := 14
def flagResume : Nat := 16

def setFlag (f : Quad) (i : Nat) (b : Bool) : Quad :=
  if b then f ||| BitVec.twoPow 64 i else f &&& ~~~BitVec.twoPow 64 i

theorem getLsbD_setFlag (f : Quad) {i : Nat} (b : Bool) (j : Nat) (hi : i < 64) :
    (setFlag f i b).getLsbD j = if j = i then b else f.getLsbD j := by
  unfold setFlag
  by_cases hj : j < 64
  · cases b <;> by_cases hij : j = i <;> simp [hi, hj, hij]
  · cases b <;> simp [BitVec.getLsbD_of_ge _ _ (by omega : 64 ≤ j), show j ≠ i by omega]

/-- Even parity of the low byte. -/
def parity {w : Nat} (v : BitVec w) : Bool :=
  ((List.range 8).filter fun i => v.getLsbD i).length % 2 == 0

/-- The status flags of `a - b`, as `cmp a, b` sets them. -/
def subFlags {w : Nat} (f : Quad) (a b : BitVec w) : Quad :=
  let f := setFlag f flagCarry (a.ult b)
  let f := setFlag f flagParity (parity (a - b))
  let f := setFlag f flagAdjust ((a.extractLsb' 0 4).ult (b.extractLsb' 0 4))
  let f := setFlag f flagSign (a - b).msb
  let f := setFlag f flagOverflow (a.msb != b.msb && (a - b).msb != a.msb)
  setFlag f flagZero (a == b)

/-- The status flags of `a + b`. -/
def addFlags {w : Nat} (f : Quad) (a b : BitVec w) : Quad :=
  let f := setFlag f flagCarry ((a + b).ult a)
  let f := setFlag f flagParity (parity (a + b))
  let f := setFlag f flagAdjust ((a.extractLsb' 0 4 + b.extractLsb' 0 4).ult (a.extractLsb' 0 4))
  let f := setFlag f flagSign (a + b).msb
  let f := setFlag f flagOverflow (a.msb == b.msb && (a + b).msb != a.msb)
  setFlag f flagZero (a + b == 0)

/-! ## The stack -/

def Cpu.push (c : Cpu) (v : Quad) : Cpu :=
  { c with rsp := c.rsp - 8, mem := c.mem.write64 (c.rsp - 8).toNat v.toNat }

/-- The word at `[rsp + off]`. -/
def Cpu.stack (c : Cpu) (off : Nat) : Quad := BitVec.ofNat 64 (c.mem.read64 (c.rsp.toNat + off))

/-- The 16-bit word at `[rsp + off]`. -/
def Cpu.word (c : Cpu) (off : Nat) : BitVec 16 := BitVec.ofNat 16 (c.mem.read (c.rsp.toNat + off) 2)

def Cpu.swapGs (c : Cpu) : Cpu := { c with gsBase := c.kernelGsBase, kernelGsBase := c.gsBase }

def Cpu.setReg (c : Cpu) (r : Reg) (v : Quad) : Cpu := { c with reg := Function.update c.reg r v }

def Cpu.pop (c : Cpu) (r : Reg) : Cpu := { c.setReg r (c.stack 0) with rsp := c.rsp + 8 }

def Cpu.pushRegs (c : Cpu) (rs : List Reg) : Cpu := rs.foldl (fun c r => c.push (c.reg r)) c

def Cpu.popRegs (c : Cpu) (rs : List Reg) : Cpu := rs.foldl Cpu.pop c

/-! ## Interrupts -/

/-- What a gate of the interrupt descriptor table tells the processor. -/
structure Gate where
  offset : Quad
  selector : BitVec 16
  ist : Nat
  type : Nat
  dpl : Nat
  present : Bool
deriving DecidableEq, Repr

/-- The gate keeps the privilege level: the two low bits of the selectors are equal. -/
def Cpu.samePrivilege (c : Cpu) (g : Gate) : Bool := c.cs.extractLsb' 0 2 == g.selector.extractLsb' 0 2

/-- Where the interrupted context is pushed: below the stack pointer, or below that of the task state segment. -/
def Cpu.entryStack (c : Cpu) (g : Gate) : Quad := (if c.samePrivilege g then c.rsp else c.rsp0) &&& ~~~15

/-- The interrupted context, as the processor pushes it; the last word is pushed first. -/
def Cpu.context (c : Cpu) : List Quad := [c.rip, c.cs.setWidth 64, c.rflags, c.rsp, c.ss.setWidth 64]

/-- Take an interrupt through `g`, an interrupt gate without a stack of its own: push the interrupted context, and the
error code of an exception that has one. -/
def Cpu.deliver (c : Cpu) (g : Gate) (error : Option Quad) : Cpu :=
  let e := (error.toList ++ c.context).foldr (fun v e => e.push v) { c with rsp := c.entryStack g }
  let flags := [flagTrap, flagInterrupt, flagNested, flagResume].foldl (fun f i => setFlag f i false) c.rflags
  { e with
    rip := g.offset
    cs := g.selector
    ss := if c.samePrivilege g then c.ss else (g.selector.extractLsb' 0 2).setWidth 16
    rflags := flags }

/-- Return to the context on the stack. -/
def Cpu.iretq (c : Cpu) : Cpu :=
  { c with
    rip := c.stack 0
    cs := (c.stack 8).setWidth 16
    rflags := c.stack 16
    rsp := c.stack 24
    ss := (c.stack 32).setWidth 16 }

/-! ## Instructions -/

/-- The instructions of an entry path. `F` names the functions it calls, `L` the code it jumps to; `je n` skips `n`
instructions. -/
inductive Instr (F L : Type)
  | push (r : Reg)
  | pushImm (v : Quad)
  | pop (r : Reg)
  | load (r : Reg) (off : Nat)
  | movRsp (r : Reg)
  | addImm (r : Reg) (v : Quad)
  | addRsp (v : Quad)
  | cmpWord (off : Nat) (v : BitVec 16)
  | je (n : Nat)
  | swapgs
  | cld
  | call (f : F)
  | jmp (l : L)
  | iretq

/-- The code behind the labels, and what a call of each function, up to its return, does to the processor and to the
state `κ` of the rest of the program. -/
structure Code (F L κ : Type) where
  block : L → List (Instr F L)
  callee : F → Cpu → κ → Cpu × κ

/-- Where a run of the processor is: the code ahead, `none` once `iretq` was executed. -/
structure Running (F L κ : Type) where
  todo : Option (List (Instr F L))
  cpu : Cpu
  state : κ

variable {F L κ : Type}

/-- One instruction. Nothing follows `iretq`, and nothing the end of the code. -/
def Code.step (E : Code F L κ) (x : Running F L κ) : Option (Running F L κ) :=
  match x.todo with
  | none => none
  | some [] => none
  | some (.push r :: is) => some ⟨is, x.cpu.push (x.cpu.reg r), x.state⟩
  | some (.pushImm v :: is) => some ⟨is, x.cpu.push v, x.state⟩
  | some (.pop r :: is) => some ⟨is, x.cpu.pop r, x.state⟩
  | some (.load r off :: is) => some ⟨is, x.cpu.setReg r (x.cpu.stack off), x.state⟩
  | some (.movRsp r :: is) => some ⟨is, x.cpu.setReg r x.cpu.rsp, x.state⟩
  | some (.addImm r v :: is) =>
      some ⟨is, { x.cpu.setReg r (x.cpu.reg r + v) with rflags := addFlags x.cpu.rflags (x.cpu.reg r) v }, x.state⟩
  | some (.addRsp v :: is) =>
      some ⟨is, { x.cpu with rsp := x.cpu.rsp + v, rflags := addFlags x.cpu.rflags x.cpu.rsp v }, x.state⟩
  | some (.cmpWord off v :: is) => some ⟨is, { x.cpu with rflags := subFlags x.cpu.rflags (x.cpu.word off) v }, x.state⟩
  | some (.je n :: is) => some ⟨some (if x.cpu.rflags.getLsbD flagZero then is.drop n else is), x.cpu, x.state⟩
  | some (.swapgs :: is) => some ⟨is, x.cpu.swapGs, x.state⟩
  | some (.cld :: is) => some ⟨is, { x.cpu with rflags := setFlag x.cpu.rflags flagDirection false }, x.state⟩
  | some (.call f :: is) => some ⟨is, (E.callee f x.cpu x.state).1, (E.callee f x.cpu x.state).2⟩
  | some (.jmp l :: _) => some ⟨E.block l, x.cpu, x.state⟩
  | some (.iretq :: _) => some ⟨none, x.cpu.iretq, x.state⟩

/-- The code `is`, run from `c`, gets to the code `is'` in the processor state `c'`. -/
def Code.Runs (E : Code F L κ) (is : List (Instr F L)) (c : Cpu) (k : κ) (is' : List (Instr F L)) (c' : Cpu) (k' : κ) :
    Prop :=
  Reaches E.step ⟨is, c, k⟩ ⟨is', c', k'⟩

/-- The code `is`, run from `c`, ends with an `iretq` that leaves the processor in the state `c'`. -/
def Code.Returns (E : Code F L κ) (is : List (Instr F L)) (c : Cpu) (k : κ) (c' : Cpu) (k' : κ) : Prop :=
  (⟨none, c', k'⟩ : Running F L κ) ∈ eval E.step ⟨is, c, k⟩

/-! ## Running code -/

section Running
variable {E : Code F L κ} {is is' is'' : List (Instr F L)} {c c' c'' : Cpu} {k k' k'' : κ}

theorem Code.Runs.refl : E.Runs is c k is c k := Relation.ReflTransGen.refl

theorem Code.Runs.trans (h : E.Runs is c k is' c' k') (h' : E.Runs is' c' k' is'' c'' k'') : E.Runs is c k is'' c'' k'' :=
  Relation.ReflTransGen.trans h h'

theorem Code.Runs.head (h : E.step ⟨is, c, k⟩ = some ⟨is', c', k'⟩) (h' : E.Runs is' c' k' is'' c'' k'') :
    E.Runs is c k is'' c'' k'' :=
  Relation.ReflTransGen.head h h'

theorem Code.Runs.returns (h : E.Runs is c k is' c' k') (h' : E.Returns is' c' k' c'' k'') : E.Returns is c k c'' k'' := by
  rw [Code.Returns, reaches_eval h]
  exact h'

theorem Code.returns_iretq : E.Returns (.iretq :: is) c k c.iretq k :=
  mem_eval.mpr ⟨Relation.ReflTransGen.single rfl, rfl⟩

/-- The instructions are deterministic. -/
theorem Code.Returns.unique (h : E.Returns is c k c' k') (h' : E.Returns is c k c'' k'') : c' = c'' ∧ k' = k'' := by
  have heq := Part.mem_unique h h'
  exact ⟨congrArg Running.cpu heq, congrArg Running.state heq⟩

theorem Code.runs_je (n : Nat) {zero : Bool} (h : c.rflags.getLsbD flagZero = zero) :
    E.Runs (.je n :: is) c k (if zero then is.drop n else is) c k := by
  subst h
  exact Code.Runs.head rfl Code.Runs.refl

theorem Code.runs_pushes (rs : List Reg) : E.Runs (rs.map .push ++ is) c k is (c.pushRegs rs) k := by
  induction rs generalizing c with
  | nil => exact Code.Runs.refl
  | cons r rs ih => exact Code.Runs.head rfl ih

theorem Code.runs_pops (rs : List Reg) : E.Runs (rs.map .pop ++ is) c k is (c.popRegs rs) k := by
  induction rs generalizing c with
  | nil => exact Code.Runs.refl
  | cons r rs ih => exact Code.Runs.head rfl ih

end Running

/-! ## Words on the stack -/

/-- The words `ws` at `a`. -/
def Holds (m : Mem) (a : Nat) : List Quad → Prop
  | [] => True
  | w :: ws => m.read64 a = w.toNat ∧ Holds m (a + 8) ws

theorem Holds.congr {m m' : Mem} {a : Nat} {ws : List Quad} (h : Holds m a ws)
    (heq : ∀ x, a ≤ x → x < a + 8 * ws.length → m' x = m x) : Holds m' a ws := by
  induction ws generalizing a with
  | nil => trivial
  | cons w ws ih =>
      rw [List.length_cons] at heq
      refine ⟨?_, ih h.2 fun x h1 h2 => heq x (by omega) (by omega)⟩
      rw [← h.1]
      exact Mem.read_congr fun x h1 h2 => heq x h1 (by omega)

theorem Holds.read {m : Mem} {a i : Nat} {ws : List Quad} {w : Quad} (h : Holds m a ws) (hw : ws[i]? = some w) :
    m.read64 (a + 8 * i) = w.toNat := by
  induction ws generalizing a i with
  | nil => cases hw
  | cons v ws ih =>
      cases i with
      | zero =>
          obtain rfl : v = w := by simpa using hw
          exact h.1
      | succ i =>
          rw [show a + 8 * (i + 1) = a + 8 + 8 * i by omega]
          exact ih h.2 (by simpa using hw)

theorem holds_append {m : Mem} {a : Nat} {vs ws : List Quad} :
    Holds m a (vs ++ ws) ↔ Holds m a vs ∧ Holds m (a + 8 * vs.length) ws := by
  induction vs generalizing a with
  | nil => exact ⟨fun h => ⟨trivial, h⟩, fun h => h.2⟩
  | cons v vs ih =>
      rw [List.length_cons, show a + 8 * (vs.length + 1) = a + 8 + 8 * vs.length by omega]
      exact (and_congr_right fun _ => ih).trans and_assoc.symm

/-- The words `ws` lie on the stack of `c`, the first on top. -/
structure StackHolds (c : Cpu) (ws : List Quad) : Prop where
  room : c.rsp.toNat + 8 * ws.length < 2 ^ 64
  holds : Holds c.mem c.rsp.toNat ws

theorem StackHolds.nil (c : Cpu) : StackHolds c [] := ⟨by simpa using c.rsp.isLt, trivial⟩

theorem Cpu.rsp_push {c : Cpu} (v : Quad) (h : 8 ≤ c.rsp.toNat) : (c.push v).rsp.toNat = c.rsp.toNat - 8 := by
  change (c.rsp - 8#64).toNat = _
  bv_omega

theorem StackHolds.push {c : Cpu} {ws : List Quad} (h : StackHolds c ws) (v : Quad) (hroom : 8 ≤ c.rsp.toNat) :
    StackHolds (c.push v) (v :: ws) := by
  have hsp := Cpu.rsp_push v hroom
  have hsp' : (c.rsp - 8).toNat = c.rsp.toNat - 8 := hsp
  have h64 := h.room
  refine ⟨by rw [List.length_cons, hsp]; omega, ?_, ?_⟩
  · rw [hsp]
    change (c.mem.write64 (c.rsp - 8).toNat v.toNat).read64 _ = _
    rw [hsp']
    exact (c.mem.read_write _ 8 v.toNat).trans (Nat.mod_eq_of_lt v.isLt)
  · rw [hsp, Nat.sub_add_cancel hroom]
    refine h.holds.congr fun x h1 h2 => ?_
    exact c.mem.write_apply_of_not_mem _ (by omega)

/-- The `i`-th word from the top. -/
theorem StackHolds.stack {c : Cpu} {ws : List Quad} {i : Nat} {w : Quad} (h : StackHolds c ws) (hw : ws[i]? = some w) :
    c.stack (8 * i) = w := by
  rw [Cpu.stack, h.holds.read hw, BitVec.ofNat_toNat, BitVec.setWidth_eq]

theorem StackHolds.congr {c c' : Cpu} {ws : List Quad} (h : StackHolds c ws) (hrsp : c'.rsp = c.rsp)
    (hmem : c'.mem = c.mem) : StackHolds c' ws := by
  refine ⟨by rw [hrsp]; exact h.room, ?_⟩
  rw [hrsp, hmem]
  exact h.holds

/-- The low half-word of the `i`-th word. -/
theorem StackHolds.word {c : Cpu} {ws : List Quad} {i : Nat} {w : Quad} (h : StackHolds c ws) (hw : ws[i]? = some w) :
    c.word (8 * i) = w.setWidth 16 := by
  have hread := h.holds.read hw
  have hsplit := c.mem.read_add (c.rsp.toNat + 8 * i) 2 6
  have hlow := c.mem.read_lt (c.rsp.toNat + 8 * i) 2
  apply BitVec.eq_of_toNat_eq
  rw [Cpu.word, BitVec.toNat_ofNat, BitVec.toNat_setWidth, ← hread, Mem.read64, hsplit]
  omega

theorem StackHolds.drop {c c' : Cpu} {v ws : List Quad} (h : StackHolds c (v ++ ws)) (hmem : c'.mem = c.mem)
    (hrsp : c'.rsp = c.rsp + BitVec.ofNat 64 (8 * v.length)) : StackHolds c' ws := by
  obtain ⟨hroom, hholds⟩ := h
  rw [List.length_append] at hroom
  have hsp : c'.rsp.toNat = c.rsp.toNat + 8 * v.length := by
    rw [hrsp, BitVec.toNat_add, BitVec.toNat_ofNat, Nat.mod_eq_of_lt (show 8 * v.length < 2 ^ 64 by omega)]
    exact Nat.mod_eq_of_lt (by omega)
  refine ⟨by omega, ?_⟩
  rw [hmem, hsp]
  exact (holds_append.mp hholds).2

theorem StackHolds.pop {c : Cpu} {w : Quad} {ws : List Quad} (h : StackHolds c (w :: ws)) (r : Reg) :
    (c.pop r).reg = Function.update c.reg r w ∧ StackHolds (c.pop r) ws := by
  constructor
  · change Function.update c.reg r (c.stack (8 * 0)) = _
    rw [h.stack rfl]
  · exact StackHolds.drop (v := [w]) h rfl rfl

/-! ## Saving and restoring registers -/

/-- Saving registers moves the stack pointer and writes memory, and nothing else. -/
theorem Cpu.pushRegs_eq (c : Cpu) (rs : List Reg) :
    c.pushRegs rs = { c with rsp := (c.pushRegs rs).rsp, mem := (c.pushRegs rs).mem } := by
  induction rs generalizing c with
  | nil => rfl
  | cons r rs ih => exact ih (c.push (c.reg r))

@[simp] theorem Cpu.pushRegs_reg (c : Cpu) (rs : List Reg) : (c.pushRegs rs).reg = c.reg := by
  rw [c.pushRegs_eq rs]

/-- The registers of `rs` are saved one below the other; memory outside the saved words stays. -/
theorem StackHolds.pushRegs {c : Cpu} {ws : List Quad} (h : StackHolds c ws) (rs : List Reg)
    (hroom : 8 * rs.length ≤ c.rsp.toNat) :
    StackHolds (c.pushRegs rs) (rs.reverse.map c.reg ++ ws) ∧
      (c.pushRegs rs).rsp.toNat = c.rsp.toNat - 8 * rs.length ∧
      Frame c.mem (c.pushRegs rs).mem fun x => c.rsp.toNat - 8 * rs.length ≤ x ∧ x < c.rsp.toNat := by
  induction rs generalizing c ws with
  | nil => exact ⟨h, rfl, Frame.refl _ _⟩
  | cons r rs ih =>
      rw [List.length_cons] at hroom
      have hsp := Cpu.rsp_push (c.reg r) (show 8 ≤ c.rsp.toNat by omega)
      obtain ⟨hholds, hrsp, hframe⟩ := ih (h.push (c.reg r) (by omega)) (by omega)
      refine ⟨?_, ?_, ?_⟩
      · rw [List.reverse_cons, List.map_append, List.append_assoc]
        exact hholds
      · rw [List.length_cons]
        change ((c.push (c.reg r)).pushRegs rs).rsp.toNat = _
        omega
      · have hpush : Frame c.mem (c.push (c.reg r)).mem fun x => c.rsp.toNat - 8 ≤ x ∧ x < c.rsp.toNat := by
          have hw := Frame.write c.mem (c.rsp - 8).toNat 8 (c.reg r).toNat
          refine hw.mono fun x hx => ?_
          have hsp' : (c.rsp - 8).toNat = c.rsp.toNat - 8 := hsp
          omega
        rw [List.length_cons]
        exact (hpush.mono fun x hx => by omega).trans (hframe.mono fun x hx => by omega)

/-- Restoring registers writes only these and moves the stack pointer. -/
theorem Cpu.popRegs_eq (c : Cpu) (rs : List Reg) :
    c.popRegs rs = { c with reg := (c.popRegs rs).reg, rsp := c.rsp + BitVec.ofNat 64 (8 * rs.length) } := by
  induction rs generalizing c with
  | nil =>
      rw [List.length_nil, Nat.mul_zero]
      exact Cpu.ext rfl (BitVec.add_zero _).symm rfl rfl rfl rfl rfl rfl rfl rfl
  | cons r rs ih =>
      have hrsp : c.rsp + BitVec.ofNat 64 (8 * (rs.length + 1)) = c.rsp + 8 + BitVec.ofNat 64 (8 * rs.length) := by
        rw [BitVec.add_assoc, Nat.mul_succ, Nat.add_comm, BitVec.ofNat_add]
        rfl
      rw [List.length_cons, hrsp]
      exact ih (c.pop r)

/-- Registers whose values lie on the stack get these; the others stay. -/
theorem StackHolds.popRegs {c : Cpu} {rs : List Reg} {ws : List Quad} {v : Reg → Quad}
    (h : StackHolds c (rs.map v ++ ws)) :
    (c.popRegs rs).reg = (fun r => if r ∈ rs then v r else c.reg r) ∧ StackHolds (c.popRegs rs) ws := by
  constructor
  · induction rs generalizing c with
    | nil => rfl
    | cons r rs ih =>
        obtain ⟨hreg, hholds⟩ := h.pop r
        change ((c.pop r).popRegs rs).reg = _
        rw [ih hholds]
        funext x
        by_cases hx : x ∈ rs
        · simp [hx]
        · by_cases hxr : x = r
          · subst hxr
            simp [hx, hreg]
          · simp [hx, hxr, hreg]
  · exact h.drop (by rw [c.popRegs_eq]) (by rw [c.popRegs_eq, List.length_map])

/-! ## Delivery and return -/

/-- Pushing the words `vs`, the last one first. -/
theorem StackHolds.foldr_push {c : Cpu} {ws : List Quad} (h : StackHolds c ws) (vs : List Quad)
    (hroom : 8 * vs.length ≤ c.rsp.toNat) :
    StackHolds (vs.foldr (fun v e => e.push v) c) (vs ++ ws) ∧
      (vs.foldr (fun v e => e.push v) c).rsp.toNat = c.rsp.toNat - 8 * vs.length ∧
      Frame c.mem (vs.foldr (fun v e => e.push v) c).mem fun x => c.rsp.toNat - 8 * vs.length ≤ x ∧ x < c.rsp.toNat := by
  induction vs with
  | nil => exact ⟨h, rfl, Frame.refl _ _⟩
  | cons v vs ih =>
      rw [List.length_cons] at hroom
      obtain ⟨hholds, hrsp, hframe⟩ := ih (by omega)
      rw [List.foldr_cons, List.length_cons]
      have hsp := Cpu.rsp_push v (c := vs.foldr (fun v e => e.push v) c) (by omega)
      refine ⟨hholds.push v (by omega), by omega, ?_⟩
      refine (hframe.mono fun x hx => by omega).trans ?_
      refine (Frame.write _ _ 8 v.toNat).mono fun x hx => ?_
      change (vs.foldr (fun v e => e.push v) c |>.push v).rsp.toNat ≤ x ∧
        x < (vs.foldr (fun v e => e.push v) c |>.push v).rsp.toNat + 8 at hx
      omega

theorem Cpu.foldr_push_eq (c : Cpu) (vs : List Quad) :
    vs.foldr (fun v e => e.push v) c =
      { c with
        rsp := (vs.foldr (fun v e => e.push v) c).rsp
        mem := (vs.foldr (fun v e => e.push v) c).mem } := by
  induction vs with
  | nil => rfl
  | cons v vs ih =>
      rw [List.foldr_cons, ih]
      rfl

/-- An interrupt finds its error code and the interrupted context on the stack; it keeps the general registers and
the memory outside the words it pushed. -/
theorem StackHolds.deliver (c : Cpu) (g : Gate) (error : Option Quad) (hroom : 48 ≤ (c.entryStack g).toNat) :
    StackHolds (c.deliver g error) (error.toList ++ c.context) ∧
      (c.deliver g error).rsp.toNat = (c.entryStack g).toNat - 8 * (error.toList.length + 5) ∧
      Frame c.mem (c.deliver g error).mem fun x =>
        (c.entryStack g).toNat - 8 * (error.toList.length + 5) ≤ x ∧ x < (c.entryStack g).toNat := by
  have herror : error.toList.length ≤ 1 := by cases error <;> simp
  have hlen : (error.toList ++ c.context).length = error.toList.length + 5 := List.length_append
  have hpush := (StackHolds.nil { c with rsp := c.entryStack g }).foldr_push
    (error.toList ++ c.context) (by rw [hlen]; change _ ≤ (c.entryStack g).toNat; omega)
  rw [List.append_nil, hlen] at hpush
  exact ⟨⟨hpush.1.room, hpush.1.holds⟩, hpush.2⟩

theorem Cpu.deliver_eq (c : Cpu) (g : Gate) (error : Option Quad) :
    (c.deliver g error).reg = c.reg ∧ (c.deliver g error).gsBase = c.gsBase ∧
      (c.deliver g error).kernelGsBase = c.kernelGsBase ∧ (c.deliver g error).rsp0 = c.rsp0 := by
  unfold Cpu.deliver
  rw [Cpu.foldr_push_eq]
  exact ⟨rfl, rfl, rfl, rfl⟩

/-- `iretq` gives back the context on the stack. -/
theorem StackHolds.iretq {c d : Cpu} {ws : List Quad} (h : StackHolds d (c.context ++ ws)) :
    d.iretq = { d with rip := c.rip, cs := c.cs, rflags := c.rflags, rsp := c.rsp, ss := c.ss } := by
  have hword : ∀ i v, (c.context ++ ws)[i]? = some v → d.stack (8 * i) = v := fun i v hv => h.stack hv
  have hrip : d.stack 0 = c.rip := hword 0 _ rfl
  have hcs : d.stack 8 = c.cs.setWidth 64 := hword 1 _ rfl
  have hflags : d.stack 16 = c.rflags := hword 2 _ rfl
  have hrsp : d.stack 24 = c.rsp := hword 3 _ rfl
  have hss : d.stack 32 = c.ss.setWidth 64 := hword 4 _ rfl
  have hwidth : ∀ v : BitVec 16, (v.setWidth 64).setWidth 16 = v := fun v => by
    rw [BitVec.setWidth_setWidth_of_le v (by omega), BitVec.setWidth_eq]
  unfold Cpu.iretq
  rw [hrip, hcs, hflags, hrsp, hss, hwidth, hwidth]

/-! ## Calls -/

/-- What is left of `c` after a call that follows the System V ABI, for a caller with `n` bytes on the stack that the
callee has no business with. -/
structure CallKeeps (n : Nat) (c c' : Cpu) : Prop where
  rsp : c'.rsp = c.rsp
  reg : ∀ r ∈ [Reg.rbx, .rbp, .r12, .r13, .r14, .r15], c'.reg r = c.reg r
  cs : c'.cs = c.cs
  ss : c'.ss = c.ss
  gsBase : c'.gsBase = c.gsBase
  kernelGsBase : c'.kernelGsBase = c.kernelGsBase
  rsp0 : c'.rsp0 = c.rsp0
  mem : ∀ x, c.rsp.toNat ≤ x → x < c.rsp.toNat + n → c'.mem x = c.mem x

theorem StackHolds.call {c c' : Cpu} {ws : List Quad} (h : StackHolds c ws) (hcall : CallKeeps (8 * ws.length) c c') :
    StackHolds c' ws := by
  obtain ⟨hroom, hholds⟩ := h
  refine ⟨by rw [hcall.rsp]; exact hroom, ?_⟩
  rw [hcall.rsp]
  exact hholds.congr hcall.mem

end Gewodsys.Machine
