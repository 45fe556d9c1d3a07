import Gewodsys.Cpu.Intel
import Gewodsys.Cpu.IrqHandler

/-!
# The interrupt entry path (`cpu/interrupt.asm`)

* `isrStub`, `interruptHandler`, `exceptionHandler` : the assembly, macro by macro; `entryPath` is what the two handlers
  share;
* `Takes` : a vector taken by the processor, from its gate to the `iretq`;
* `entryPath_runs`, `entryPath_returns` : the state at the call of the C handler, and after the `iretq`.
-/

namespace Gewodsys.Cpu
open Gewodsys.Machine

/-! ## The code -/

/-- The C functions that the entry code calls. -/
inductive EntryFn
  | irqHandler | excHandler
deriving DecidableEq, Repr

inductive EntryLabel
  | interruptHandler | exceptionHandler
deriving DecidableEq, Repr

abbrev EntryInstr := Instr EntryFn EntryLabel

/-- The registers in the order of `PushAll`, and in that of `PopAll`. -/
def pushAllRegs : List Reg := [.r15, .r14, .r13, .r12, .r11, .r10, .r9, .r8, .rbp, .rsi, .rdi, .rdx, .rcx, .rbx, .rax]
def popAllRegs : List Reg := [.rax, .rbx, .rcx, .rdx, .rdi, .rsi, .rbp, .r8, .r9, .r10, .r11, .r12, .r13, .r14, .r15]

def pushAll : List EntryInstr := pushAllRegs.map .push
def popAll : List EntryInstr := popAllRegs.map .pop

def maybeSwapGs (off : Nat) : List EntryInstr := [.cmpWord off 0x28#16, .je 1, .swapgs]

/-- The vectors below 32 for which the stub pushes an error code of 0. -/
def pushesZero (vector : Nat) : Bool := (1 <<< vector) &&& 0x27D00 == 0

/-- `GenerateInterruptStub`, without the padding to 32 bytes. -/
def isrStub (vector : Nat) : List EntryInstr :=
  if vector < 32 then
    (if pushesZero vector then [.pushImm 0] else []) ++ [.pushImm (BitVec.ofNat 64 vector), .jmp .exceptionHandler]
  else [.pushImm (BitVec.ofNat 64 vector), .jmp .interruptHandler]

/-- The common shape of both handlers: `args` loads the arguments of `f`, and `extra` bytes lie between the saved
registers and the interrupted context. -/
def entryPath (extra : Nat) (args : List EntryInstr) (f : EntryFn) : List EntryInstr :=
  maybeSwapGs (extra + 8) ++ (pushAll ++ (args ++ (.cld :: .call f :: (popAll ++ (maybeSwapGs (extra + 8) ++
    [.addRsp (BitVec.ofNat 64 extra), .iretq])))))

def interruptHandler : List EntryInstr := entryPath 8 [.load .rdi 0x78] .irqHandler

def exceptionHandler : List EntryInstr :=
  entryPath 16 [.load .rdi 0x78, .load .rsi 0x80, .movRsp .rdx, .addImm .rdx 0x88, .movRsp .rcx] .excHandler

def entryBlock : EntryLabel → List EntryInstr
  | .interruptHandler => interruptHandler
  | .exceptionHandler => exceptionHandler

/-- The stub at the address `a`: each takes 32 bytes of `kIntelIsrTable`, which starts at `table`. -/
def isrCode (table a : Nat) : Option (List EntryInstr) :=
  if table ≤ a ∧ (a - table) % 32 = 0 ∧ (a - table) / 32 < 256 then some (isrStub ((a - table) / 32)) else none

theorem isrCode_stub (table : Nat) {v : Nat} (hv : v < 256) : isrCode table (table + 32 * v) = some (isrStub v) := by
  have hsub : table + 32 * v - table = 32 * v := Nat.add_sub_cancel_left _ _
  unfold isrCode
  rw [hsub, Nat.mul_mod_right, Nat.mul_div_cancel_left v (by omega), if_pos ⟨Nat.le_add_right _ _, rfl, hv⟩]

/-- `v` is taken in the state `c`: through its gate and its stub, up to the `iretq` that leaves the state `c'`. -/
def Takes {κ : Type} (E : Code EntryFn EntryLabel κ) (s : Intel) (table v : Nat) (error : Option Quad) (c : Cpu) (k : κ)
    (c' : Cpu) (k' : κ) : Prop :=
  ∃ g code, { s with mem := c.mem }.gate v = some g ∧ isrCode table g.offset.toNat = some code ∧
    E.Returns code (c.deliver g error) k c' k'

/-! ## The state at the call and after it -/

variable {κ : Type} {E : Code EntryFn EntryLabel κ}

/-- `MaybeSwapGS` with the code selector `cs` on the stack. -/
def maybeSwapped (cs : BitVec 16) (c : Cpu) : Cpu := if cs = 0x28#16 then c else c.swapGs

theorem getLsbD_subFlags_zero {w : Nat} (f : Quad) (a b : BitVec w) : (subFlags f a b).getLsbD flagZero = (a == b) := by
  unfold subFlags
  rw [getLsbD_setFlag _ _ _ (by decide), if_pos rfl]

theorem runs_maybeSwapGs {off : Nat} (is : List EntryInstr) {c : Cpu} {k : κ} {cs : BitVec 16} (hcs : c.word off = cs) :
    ∃ f, E.Runs (maybeSwapGs off ++ is) c k is { maybeSwapped cs c with rflags := f } k := by
  refine ⟨subFlags c.rflags (c.word off) 0x28#16, ?_⟩
  have hcmp : E.step ⟨some (maybeSwapGs off ++ is), c, k⟩ =
      some ⟨some (.je 1 :: .swapgs :: is), { c with rflags := subFlags c.rflags (c.word off) 0x28#16 }, k⟩ := rfl
  have hzero := getLsbD_subFlags_zero c.rflags (c.word off) 0x28#16
  have hje : E.Runs (.je 1 :: .swapgs :: is) { c with rflags := subFlags c.rflags (c.word off) 0x28#16 } k
      (if c.word off == 0x28#16 then is else .swapgs :: is)
      { c with rflags := subFlags c.rflags (c.word off) 0x28#16 } k := Code.runs_je 1 hzero
  refine (Code.Runs.head hcmp hje).trans ?_
  rw [hcs]
  by_cases h : cs = 0x28#16
  · rw [maybeSwapped, if_pos h, if_pos (beq_iff_eq.mpr h)]
    exact Code.Runs.refl
  · rw [maybeSwapped, if_neg h, if_neg (by rw [beq_false_of_ne h]; decide)]
    exact Code.Runs.head rfl Code.Runs.refl

/-- What the entry code has done when it calls the C handler: the stack holds the saved registers, the words `extra`
and the interrupted context `c`. -/
structure AtCall (c : Cpu) (extra : List Quad) (e : Cpu) : Prop where
  stack : StackHolds e (popAllRegs.map c.reg ++ (extra ++ c.context))
  direction : e.rflags.getLsbD flagDirection = false
  gsBase : e.gsBase = (maybeSwapped c.cs c).gsBase
  kernelGsBase : e.kernelGsBase = (maybeSwapped c.cs c).kernelGsBase
  rsp0 : e.rsp0 = c.rsp0

/-- Loading arguments: only registers and flags change, as `setArgs` says. -/
def LoadsArgs (E : Code EntryFn EntryLabel κ) (args : List EntryInstr) (setArgs : Cpu → Cpu) : Prop :=
  ∀ is c k, E.Runs (args ++ is) c k is (setArgs c) k ∧
    setArgs c = { c with reg := (setArgs c).reg, rflags := (setArgs c).rflags }

/-- The code after the call. -/
def afterCall (extra : Nat) : List EntryInstr :=
  popAll ++ (maybeSwapGs (extra + 8) ++ [.addRsp (BitVec.ofNat 64 extra), .iretq])

theorem popAllRegs_eq : popAllRegs = pushAllRegs.reverse := rfl

theorem mem_popAllRegs (r : Reg) : r ∈ popAllRegs := by cases r <;> decide

theorem maybeSwapped_eq (cs : BitVec 16) (c : Cpu) :
    maybeSwapped cs c =
      { c with gsBase := (maybeSwapped cs c).gsBase, kernelGsBase := (maybeSwapped cs c).kernelGsBase } := by
  unfold maybeSwapped
  split_ifs <;> rfl

/-- **Up to the call**: `d` has the words `ws` and the context of `c` on its stack. `e₀` is the state that the arguments
are taken from. -/
theorem entryPath_runs {args : List EntryInstr} {f : EntryFn} {setArgs : Cpu → Cpu} (hargs : LoadsArgs E args setArgs)
    {c d : Cpu} (ws : List Quad) (hstack : StackHolds d (ws ++ c.context)) (hreg : d.reg = c.reg)
    (hgs : d.gsBase = c.gsBase) (hkgs : d.kernelGsBase = c.kernelGsBase) (hrsp0 : d.rsp0 = c.rsp0)
    (hroom : 120 ≤ d.rsp.toNat) (k : κ) :
    ∃ e₀ e : Cpu, E.Runs (entryPath (8 * ws.length) args f) d k (.call f :: afterCall (8 * ws.length)) e k ∧
      AtCall c ws e ∧ StackHolds e₀ (popAllRegs.map c.reg ++ (ws ++ c.context)) ∧ e.reg = (setArgs e₀).reg ∧ e.rsp = e₀.rsp ∧
      e.rsp.toNat = d.rsp.toNat - 120 ∧
      Frame d.mem e.mem fun x => d.rsp.toNat - 120 ≤ x ∧ x < d.rsp.toNat := by
  have hcs : d.word (8 * ws.length + 8) = c.cs := by
    have hword := hstack.word (i := ws.length + 1) (w := c.cs.setWidth 64) (by
      rw [List.getElem?_append_right (by omega), Nat.add_sub_cancel_left]
      rfl)
    rw [Nat.mul_succ] at hword
    rw [hword, BitVec.setWidth_setWidth_of_le c.cs (by omega), BitVec.setWidth_eq]
  obtain ⟨flags, hswap⟩ := runs_maybeSwapGs (E := E) (k := k)
    (pushAll ++ (args ++ (.cld :: .call f :: afterCall (8 * ws.length)))) hcs
  -- the state after MaybeSwapGS
  obtain ⟨d₁, hd₁⟩ : ∃ d₁, d₁ = { maybeSwapped c.cs d with rflags := flags } := ⟨_, rfl⟩
  rw [← hd₁] at hswap
  have hd₁eq : d₁ = { d with
      gsBase := (maybeSwapped c.cs c).gsBase, kernelGsBase := (maybeSwapped c.cs c).kernelGsBase, rflags := flags } := by
    rw [hd₁, maybeSwapped_eq]
    unfold maybeSwapped
    split_ifs
    · rw [hgs, hkgs]
    · rw [Cpu.swapGs, Cpu.swapGs, hgs, hkgs]
  have hstack₁ : StackHolds d₁ (ws ++ c.context) := hstack.congr (by rw [hd₁eq]) (by rw [hd₁eq])
  have hrsp₁ : d₁.rsp = d.rsp := by rw [hd₁eq]
  have hlen : pushAllRegs.length = 15 := rfl
  obtain ⟨hsaved, hrsp₂, hframe⟩ := hstack₁.pushRegs pushAllRegs (by rw [hlen, hrsp₁]; omega)
  rw [hlen, hrsp₁] at hrsp₂ hframe
  have hreg₁ : d₁.reg = c.reg := by rw [hd₁eq]; exact hreg
  rw [hreg₁, ← popAllRegs_eq] at hsaved
  have hpushes : E.Runs (pushAll ++ (args ++ (.cld :: .call f :: afterCall (8 * ws.length)))) d₁ k
      (args ++ (.cld :: .call f :: afterCall (8 * ws.length))) (d₁.pushRegs pushAllRegs) k := Code.runs_pushes pushAllRegs
  have hkept := d₁.pushRegs_eq pushAllRegs
  obtain ⟨d₂, hd₂⟩ : ∃ d₂, d₂ = d₁.pushRegs pushAllRegs := ⟨_, rfl⟩
  rw [← hd₂] at hsaved hrsp₂ hframe hpushes hkept
  obtain ⟨hload, hsetArgs⟩ := hargs (.cld :: .call f :: afterCall (8 * ws.length)) d₂ k
  have hcld : E.Runs (.cld :: .call f :: afterCall (8 * ws.length)) (setArgs d₂) k (.call f :: afterCall (8 * ws.length))
      { setArgs d₂ with rflags := setFlag (setArgs d₂).rflags flagDirection false } k := Code.Runs.head rfl Code.Runs.refl
  have hdirection : (setFlag (setArgs d₂).rflags flagDirection false).getLsbD flagDirection = false := by
    rw [getLsbD_setFlag _ _ _ (by decide), if_pos rfl]
  have hgs₂ : d₂.gsBase = (maybeSwapped c.cs c).gsBase := by rw [hkept, hd₁eq]
  have hkgs₂ : d₂.kernelGsBase = (maybeSwapped c.cs c).kernelGsBase := by rw [hkept, hd₁eq]
  have hrsp0₂ : d₂.rsp0 = c.rsp0 := by rw [hkept, hd₁eq]; exact hrsp0
  have hrspArgs : (setArgs d₂).rsp = d₂.rsp := by rw [hsetArgs]
  have hmemArgs : (setArgs d₂).mem = d₂.mem := by rw [hsetArgs]
  refine ⟨d₂, { setArgs d₂ with rflags := setFlag (setArgs d₂).rflags flagDirection false },
    ((hswap.trans hpushes).trans hload).trans hcld, ?_, ?_, rfl, hrspArgs, ?_, ?_⟩
  · exact ⟨hsaved.congr hrspArgs hmemArgs, hdirection, by rw [hsetArgs]; exact hgs₂, by rw [hsetArgs]; exact hkgs₂,
      by rw [hsetArgs]; exact hrsp0₂⟩
  · exact hsaved
  · change (setArgs d₂).rsp.toNat = _
    rw [hrspArgs, hrsp₂]
  · change Frame d.mem (setArgs d₂).mem _
    rw [hmemArgs, ← show d₁.mem = d.mem by rw [hd₁eq]]
    exact hframe

/-- **After the call**: whatever the C handler did within its contract, the interrupted context is back. -/
theorem afterCall_returns {c e e' : Cpu} {ws : List Quad} (he : AtCall c ws e)
    (hcall : CallKeeps (8 * (ws.length + 20)) e e') (k : κ) :
    E.Returns (afterCall (8 * ws.length)) e' k { c with mem := e'.mem } k := by
  have hlen : (popAllRegs.map c.reg ++ (ws ++ c.context)).length = ws.length + 20 := by
    rw [List.length_append, List.length_append, List.length_map]
    change 15 + (ws.length + 5) = _
    omega
  have hstack : StackHolds e' (popAllRegs.map c.reg ++ (ws ++ c.context)) := he.stack.call (by rw [hlen]; exact hcall)
  obtain ⟨hreg, hstack₁⟩ := hstack.popRegs
  have hpops : E.Runs (afterCall (8 * ws.length)) e' k
      (maybeSwapGs (8 * ws.length + 8) ++ [.addRsp (BitVec.ofNat 64 (8 * ws.length)), .iretq]) (e'.popRegs popAllRegs) k :=
    Code.runs_pops popAllRegs
  have hkept := e'.popRegs_eq popAllRegs
  obtain ⟨d, hd⟩ : ∃ d, d = e'.popRegs popAllRegs := ⟨_, rfl⟩
  rw [← hd] at hreg hstack₁ hpops hkept
  have hcs : d.word (8 * ws.length + 8) = c.cs := by
    have hword := hstack₁.word (i := ws.length + 1) (w := c.cs.setWidth 64) (by
      rw [List.getElem?_append_right (by omega), Nat.add_sub_cancel_left]
      rfl)
    rw [Nat.mul_succ] at hword
    rw [hword, BitVec.setWidth_setWidth_of_le c.cs (by omega), BitVec.setWidth_eq]
  obtain ⟨flags, hswap⟩ := runs_maybeSwapGs (E := E) (k := k)
    [.addRsp (BitVec.ofNat 64 (8 * ws.length)), .iretq] hcs
  obtain ⟨d₁, hd₁⟩ : ∃ d₁, d₁ = { maybeSwapped c.cs d with rflags := flags } := ⟨_, rfl⟩
  rw [← hd₁] at hswap
  -- the second MaybeSwapGS undoes the first
  have hd₁eq : d₁ = { d with gsBase := c.gsBase, kernelGsBase := c.kernelGsBase, rflags := flags } := by
    have hgs : d.gsBase = (maybeSwapped c.cs c).gsBase := by rw [hkept]; exact hcall.gsBase.trans he.gsBase
    have hkgs : d.kernelGsBase = (maybeSwapped c.cs c).kernelGsBase := by
      rw [hkept]; exact hcall.kernelGsBase.trans he.kernelGsBase
    rw [hd₁]
    unfold maybeSwapped at hgs hkgs ⊢
    split_ifs at hgs hkgs ⊢
    · rw [← hgs, ← hkgs]
    · rw [Cpu.swapGs, hgs, hkgs]
      rfl
  obtain ⟨d₂, hd₂⟩ : ∃ d₂ : Cpu, d₂ = { d₁ with
      rsp := d₁.rsp + BitVec.ofNat 64 (8 * ws.length)
      rflags := addFlags d₁.rflags d₁.rsp (BitVec.ofNat 64 (8 * ws.length)) } := ⟨_, rfl⟩
  have hadd : E.Runs [.addRsp (BitVec.ofNat 64 (8 * ws.length)), .iretq] d₁ k [.iretq] d₂ k := by
    rw [hd₂]
    exact Code.Runs.head rfl Code.Runs.refl
  have hstack₂ : StackHolds d₂ (c.context ++ []) := by
    rw [List.append_nil]
    exact hstack₁.drop (by rw [hd₂, hd₁eq]) (by rw [hd₂, hd₁eq])
  have hfinal : d₂.iretq = { c with mem := e'.mem } := by
    rw [hstack₂.iretq, hd₂, hd₁eq]
    apply Cpu.ext
    · change d.reg = c.reg
      rw [hreg]
      funext r
      rw [if_pos (mem_popAllRegs r)]
    all_goals try rfl
    · change d.rsp0 = c.rsp0
      rw [hkept]
      exact hcall.rsp0.trans he.rsp0
    · change d.mem = e'.mem
      rw [hkept]
  have hiretq : E.Returns [.iretq] d₂ k d₂.iretq k := Code.returns_iretq
  rw [hfinal] at hiretq
  exact ((hpops.trans hswap).trans hadd).returns hiretq

/-! ## Hardware interrupts -/

/-- `IrqHandler` as the kernel runs it: `effect` is what a registered handler does to the interrupt tables. -/
def irqDispatch (effect : HandlerCall → Irq → Irq) (s : Irq) (vector : UInt8) : Irq :=
  let r := irqHandler s vector
  match r.1 with
  | some call => effect call r.2
  | none => r.2

/-- The entry code with the C handlers behind it; `clobber` is what their calls do to the processor. -/
def entryCode (clobber : EntryFn → Cpu → Irq → Cpu) (effect : HandlerCall → Irq → Irq) : Code EntryFn EntryLabel Irq :=
  { block := entryBlock
    callee := fun f c k => (clobber f c k, match f with
      | .irqHandler => irqDispatch effect k (UInt8.ofNat (c.reg .rdi).toNat)
      | .excHandler => k) }

/-- The vectors `vs`, taken one after the other. -/
def TakesAll {κ : Type} (E : Code EntryFn EntryLabel κ) (s : Intel) (table : Nat) :
    List Nat → Cpu → κ → Cpu → κ → Prop
  | [], c, k, c', k' => c' = c ∧ k' = k
  | v :: vs, c, k, c', k' => ∃ c₁ k₁, Takes E s table v none c k c₁ k₁ ∧ TakesAll E s table vs c₁ k₁ c' k'

theorem loads_interrupt : LoadsArgs E [.load .rdi 0x78] fun c => c.setReg .rdi (c.stack 0x78) :=
  fun _ _ _ => ⟨Code.Runs.head rfl Code.Runs.refl, rfl⟩

/-- The stub of a hardware interrupt: the vector is the one word between the saved registers and the context, and the
argument of `IrqHandler`. -/
theorem interrupt_runs (hblock : E.block = entryBlock) {v : Nat} (hv : 32 ≤ v) (c : Cpu) (g : Gate)
    (hroom : 168 ≤ (c.entryStack g).toNat) (k : κ) :
    ∃ e, E.Runs (isrStub v) (c.deliver g none) k (.call .irqHandler :: afterCall 8) e k ∧
      AtCall c [BitVec.ofNat 64 v] e ∧ e.reg .rdi = BitVec.ofNat 64 v ∧
      e.rsp.toNat = (c.entryStack g).toNat - 168 ∧
      Frame c.mem e.mem fun x => (c.entryStack g).toNat - 168 ≤ x ∧ x < (c.entryStack g).toNat := by
  obtain ⟨hstack, hrsp, hframe⟩ := StackHolds.deliver c g none (by omega)
  obtain ⟨hreg, hgs, hkgs, hrsp0⟩ := c.deliver_eq g none
  simp only [Option.toList_none, List.nil_append, List.length_nil, Nat.zero_add, Nat.reduceMul] at hstack hrsp hframe
  have hpush := Cpu.rsp_push (BitVec.ofNat 64 v) (c := c.deliver g none) (by omega)
  have hpushed := hstack.push (BitVec.ofNat 64 v) (by omega)
  have hpushFrame : Frame (c.deliver g none).mem ((c.deliver g none).push (BitVec.ofNat 64 v)).mem fun x =>
      ((c.deliver g none).push (BitVec.ofNat 64 v)).rsp.toNat ≤ x ∧
        x < ((c.deliver g none).push (BitVec.ofNat 64 v)).rsp.toNat + 8 := Frame.write _ _ 8 _
  have hstub : E.Runs (isrStub v) (c.deliver g none) k interruptHandler ((c.deliver g none).push (BitVec.ofNat 64 v)) k := by
    rw [isrStub, if_neg (by omega)]
    have hjmp : E.Runs [.jmp .interruptHandler] ((c.deliver g none).push (BitVec.ofNat 64 v)) k interruptHandler
        ((c.deliver g none).push (BitVec.ofNat 64 v)) k := by
      refine Code.Runs.head ?_ Code.Runs.refl
      simp only [Code.step, hblock, entryBlock]
    exact Code.Runs.head rfl hjmp
  obtain ⟨e₀, e, hruns, hcall, hstack₀, hargs, -, hersp, heframe⟩ :=
    entryPath_runs (E := E) (f := .irqHandler) loads_interrupt [BitVec.ofNat 64 v] hpushed hreg hgs hkgs hrsp0
      (by omega) k
  refine ⟨e, hstub.trans hruns, hcall, ?_, by omega, ?_⟩
  · have hword : e₀.stack (8 * 15) = BitVec.ofNat 64 v := hstack₀.stack rfl
    rw [hargs]
    change Function.update e₀.reg .rdi (e₀.stack 0x78) .rdi = _
    rw [Function.update_self]
    exact hword
  · refine ((hframe.mono ?_).trans (hpushFrame.mono ?_)).trans (heframe.mono ?_)
    · intro x hx
      omega
    · intro x hx
      omega
    · intro x hx
      omega

/-- The bytes of the interrupt descriptor table. -/
def InIdt (k : IntelStatics) (x : Nat) : Prop := k.kIntelIDT ≤ x ∧ x < k.kIntelIDT + 4096

/-- The words that an interrupt taken in the state `c` pushes. -/
def InEntryStack (c : Cpu) (x : Nat) : Prop :=
  (c.entryStack (kernelGate 0 gateIntr)).toNat - 168 ≤ x ∧ x < (c.entryStack (kernelGate 0 gateIntr)).toNat

/-- A call of `IrqHandler` with the stack pointer `sp` follows its contract with the entry code, and writes only bytes
of `W`. -/
def Obeys (clobber : EntryFn → Cpu → Irq → Cpu) (sp : Nat) (W : Nat → Prop) : Prop :=
  ∀ e irq, e.rsp.toNat = sp →
    CallKeeps 168 e (clobber .irqHandler e irq) ∧ Frame e.mem (clobber .irqHandler e irq).mem W

/-- The processor finds the gate of `v` as long as the table is what `IntelInitialize` wrote. -/
theorem gate_of_idt {k : IntelStatics} {s : Intel} {kernelStack : Nat} {m : Mem}
    (hidt : ∀ x, InIdt k x → m x = (intelInitialize k s kernelStack).mem x) {v : Nat} (hv : v < 256) :
    { intelInitialize k s kernelStack with mem := m }.gate v =
      some (kernelGate (k.kIntelIsrTable + 32 * v) gateIntr) := by
  have hsame : gateAt m k.kIntelIDT v = gateAt (intelInitialize k s kernelStack).mem k.kIntelIDT v := by
    have hframe : Frame (intelInitialize k s kernelStack).mem m fun x => ¬ InIdt k x :=
      fun x hx => hidt x (Classical.not_not.mp hx)
    refine gateAt_frame hframe fun x h1 h2 hx => hx ?_
    unfold idtEntry sizeofInterruptDescriptor at h1 h2
    exact ⟨by omega, by omega⟩
  have hgate := intelInitialize_gate k s kernelStack hv
  have hidtr : (intelInitialize k s kernelStack).idtr.2 = k.kIntelIDT := by simp only [intelInitialize]
  unfold Intel.gate at hgate ⊢
  rw [hidtr] at hgate
  simp only [hidtr, hsame]
  exact hgate

theorem takes_interrupt {clobber : EntryFn → Cpu → Irq → Cpu} (effect : HandlerCall → Irq → Irq) {W : Nat → Prop}
    {c : Cpu} (hobeys : Obeys clobber ((c.entryStack (kernelGate 0 gateIntr)).toNat - 168) W) {k : IntelStatics}
    (htable : k.kIntelIsrTable + 8192 ≤ 2 ^ 64) {s : Intel} {kernelStack : Nat}
    (hidt : ∀ x, InIdt k x → c.mem x = (intelInitialize k s kernelStack).mem x)
    (hroom : 168 ≤ (c.entryStack (kernelGate 0 gateIntr)).toNat) (irq : Irq) {v : Nat} (hv : 32 ≤ v ∧ v < 256) :
    ∃ m, Takes (entryCode clobber effect) (intelInitialize k s kernelStack) k.kIntelIsrTable v none c irq
        { c with mem := m } (irqDispatch effect irq (UInt8.ofNat v)) ∧
      Frame c.mem m fun x => W x ∨ InEntryStack c x := by
  obtain ⟨g, hg⟩ : ∃ g, g = kernelGate (k.kIntelIsrTable + 32 * v) gateIntr := ⟨_, rfl⟩
  have hentry : c.entryStack g = c.entryStack (kernelGate 0 gateIntr) := by rw [hg]; rfl
  obtain ⟨e, hruns, hcall, hrdi, hrsp, hframe⟩ :=
    interrupt_runs (E := entryCode clobber effect) rfl hv.1 c g (by rw [hentry]; exact hroom) irq
  obtain ⟨hkeeps, hwrites⟩ := hobeys e irq (by rw [hrsp, hentry])
  have hoffset : g.offset.toNat = k.kIntelIsrTable + 32 * v := by
    rw [hg]
    exact (BitVec.toNat_ofNat _ _).trans (Nat.mod_eq_of_lt (by omega))
  have hreturns := afterCall_returns (E := entryCode clobber effect) hcall hkeeps (irqDispatch effect irq (UInt8.ofNat v))
  have hvector : UInt8.ofNat (e.reg .rdi).toNat = UInt8.ofNat v := by
    rw [hrdi, BitVec.toNat_ofNat, Nat.mod_eq_of_lt (by omega)]
  have hcallee : (entryCode clobber effect).Runs (.call .irqHandler :: afterCall 8) e irq (afterCall 8)
      (clobber .irqHandler e irq) (irqDispatch effect irq (UInt8.ofNat v)) := by
    refine Code.Runs.head ?_ Code.Runs.refl
    simp only [Code.step, entryCode, hvector]
  refine ⟨(clobber .irqHandler e irq).mem, ⟨g, isrStub v, ?_, ?_, (hruns.trans hcallee).returns hreturns⟩, ?_⟩
  · rw [hg]
    exact gate_of_idt hidt hv.2
  · rw [hoffset]
    exact isrCode_stub k.kIntelIsrTable hv.2
  · rw [hentry] at hframe
    exact (hframe.mono fun x hx => Or.inr hx).trans (hwrites.mono fun x hx => Or.inl hx)

/-- **Interrupts are transparent.** Whatever hardware interrupts are taken, one after the other: each is handed to
`IrqHandler` once, with its vector, and the interrupted context comes back as it was. -/
theorem interrupts_transparent {clobber : EntryFn → Cpu → Irq → Cpu} (effect : HandlerCall → Irq → Irq)
    {W : Nat → Prop} {c : Cpu} (hobeys : Obeys clobber ((c.entryStack (kernelGate 0 gateIntr)).toNat - 168) W)
    {k : IntelStatics} (htable : k.kIntelIsrTable + 8192 ≤ 2 ^ 64) {s : Intel} {kernelStack : Nat}
    (hidt : ∀ x, InIdt k x → c.mem x = (intelInitialize k s kernelStack).mem x ∧ ¬ W x ∧ ¬ InEntryStack c x)
    (hroom : 168 ≤ (c.entryStack (kernelGate 0 gateIntr)).toNat) (irq : Irq) {vs : List Nat}
    (hvs : ∀ v ∈ vs, 32 ≤ v ∧ v < 256) :
    ∃ m, TakesAll (entryCode clobber effect) (intelInitialize k s kernelStack) k.kIntelIsrTable vs c irq
        { c with mem := m } (vs.foldl (fun irq v => irqDispatch effect irq (UInt8.ofNat v)) irq) ∧
      Frame c.mem m fun x => W x ∨ InEntryStack c x := by
  induction vs generalizing c irq with
  | nil => exact ⟨c.mem, ⟨rfl, rfl⟩, Frame.refl _ _⟩
  | cons v vs ih =>
      obtain ⟨m₁, htakes, hframe⟩ := takes_interrupt effect hobeys htable (fun x hx => (hidt x hx).1) hroom irq
        (hvs v List.mem_cons_self)
      obtain ⟨m, hrest, hframe'⟩ := ih (c := { c with mem := m₁ }) hobeys
        (fun x hx => ⟨(hframe x fun h => h.elim (hidt x hx).2.1 (hidt x hx).2.2).trans (hidt x hx).1, (hidt x hx).2⟩)
        hroom _ fun v' hv' => hvs v' (List.mem_cons_of_mem _ hv')
      exact ⟨m, ⟨_, _, htakes, hrest⟩, hframe.trans hframe'⟩

def exampleApic : Apic := ⟨[], fun _ => ⟨0, fun _ => 0⟩⟩

def exampleCpu : Cpu :=
  ⟨fun _ => 7, 0x9008, 0x123456, 0x28, 0x30, 0x246, 1, 2, 0, (intelInitialize exampleStatics exampleIntel 0x8000).mem⟩

/-- A handler that spoils a register, the flags, the stack below it and a byte of memory. -/
def exampleClobber (_ : EntryFn) (e : Cpu) (_ : Irq) : Cpu :=
  { e with
    reg := Function.update e.reg .rax 0
    rflags := 0
    mem := (e.mem.write64 (e.rsp.toNat - 8) 0xDEAD).write8 0x20000 1 }

theorem exampleCpu_mem : exampleCpu.mem = (intelInitialize exampleStatics exampleIntel 0x8000).mem := by
  simp only [exampleCpu]

theorem exampleCpu_entryStack : (exampleCpu.entryStack (kernelGate 0 gateIntr)).toNat = 0x9000 := rfl

theorem interrupts_transparent_three :
    ∃ m, TakesAll (entryCode exampleClobber fun _ irq => irq) (intelInitialize exampleStatics exampleIntel 0x8000)
        0x10000 [0x21, 0x2C, 0x21] exampleCpu (Irq.boot exampleApic) { exampleCpu with mem := m }
        ([0x21, 0x2C, 0x21].foldl (fun irq v => irqDispatch (fun _ irq => irq) irq (UInt8.ofNat v))
          (Irq.boot exampleApic)) ∧
      Frame exampleCpu.mem m fun x => (x = 0x20000 ∨ 0x9000 - 176 ≤ x ∧ x < 0x9000 - 168) ∨ InEntryStack exampleCpu x := by
  refine interrupts_transparent (fun _ irq => irq) (W := fun x => x = 0x20000 ∨ 0x9000 - 176 ≤ x ∧ x < 0x9000 - 168)
    (c := exampleCpu) ?_ (k := exampleStatics) ?_ ?_ ?_ (Irq.boot exampleApic) ?_
  · intro e irq hsp
    rw [exampleCpu_entryStack] at hsp
    refine ⟨⟨rfl, ?_, rfl, rfl, rfl, rfl, rfl, ?_⟩, ?_⟩
    · intro r hr
      exact Function.update_of_ne (by rintro rfl; revert hr; decide) _ _
    · intro x h1 h2
      refine (Mem.write_apply_of_not_mem _ _ (by omega)).trans ?_
      exact Mem.write_apply_of_not_mem _ _ (by omega)
    · intro x hx
      refine (Mem.write_apply_of_not_mem _ _ (by omega)).trans ?_
      exact Mem.write_apply_of_not_mem _ _ (by omega)
  · decide
  · intro x hx
    have h1 : 0x1000 ≤ x := hx.1
    have h2 : x < 0x1000 + 4096 := hx.2
    refine ⟨by rw [exampleCpu_mem], by omega, ?_⟩
    unfold InEntryStack
    rw [exampleCpu_entryStack]
    omega
  · rw [exampleCpu_entryStack]
    decide
  · decide

/-! ## Exceptions -/

/-- The exceptions for which the processor pushes an error code. -/
def hasErrorCode (v : Nat) : Bool := v ∈ [8, 10, 11, 12, 13, 14, 17, 21, 29, 30]

/-- The stubs know the error codes of all but the exceptions 21, 29 and 30. -/
theorem pushesZero_eq {v : Nat} (hv : v < 32) (hlate : v ∉ [21, 29, 30]) : pushesZero v = !hasErrorCode v := by
  revert v
  decide

/-- The argument registers of `ExcHandler`. -/
def exceptionArgs (c : Cpu) : Cpu :=
  let c := c.setReg .rdi (c.stack 0x78)
  let c := c.setReg .rsi (c.stack 0x80)
  let c := c.setReg .rdx c.rsp
  let c := { c.setReg .rdx (c.reg .rdx + 0x88) with rflags := addFlags c.rflags (c.reg .rdx) 0x88 }
  c.setReg .rcx c.rsp

theorem loads_exception :
    LoadsArgs E [.load .rdi 0x78, .load .rsi 0x80, .movRsp .rdx, .addImm .rdx 0x88, .movRsp .rcx] exceptionArgs :=
  fun _ _ _ => ⟨Code.Runs.head rfl (Code.Runs.head rfl (Code.Runs.head rfl (Code.Runs.head rfl
    (Code.Runs.head rfl Code.Runs.refl)))), rfl⟩

theorem exceptionArgs_reg (c : Cpu) :
    (exceptionArgs c).reg .rdi = c.stack 0x78 ∧ (exceptionArgs c).reg .rsi = c.stack 0x80 ∧
      (exceptionArgs c).reg .rdx = c.rsp + 0x88 ∧ (exceptionArgs c).reg .rcx = c.rsp :=
  ⟨rfl, rfl, rfl, rfl⟩

theorem entryStack_aligned (c : Cpu) (g : Gate) : (c.entryStack g).toNat % 16 = 0 := by
  have hmask : (~~~15 : Quad).toNat = 2 ^ 64 - 2 ^ 4 := rfl
  unfold Cpu.entryStack
  rw [BitVec.toNat_and, hmask, land_mask _ 4 64 (by omega)]
  exact Nat.mul_mod_left _ _

theorem exception_words {v : Nat} (hv : v < 32) (hlate : v ∉ [21, 29, 30]) {error : Option Quad}
    (herror : error.isSome = hasErrorCode v) :
    (if pushesZero v then [0] else []) ++ error.toList = [error.getD 0] := by
  rw [pushesZero_eq hv hlate, ← herror]
  cases error <;> rfl

/-- **Exceptions reach `ExcHandler` with their arguments**: the vector, the error code or 0, the interrupted context and
the interrupted registers, with the direction flag clear and the stack aligned. -/
theorem exception_arguments (hblock : E.block = entryBlock) {v : Nat} (hv : v < 32) (hlate : v ∉ [21, 29, 30])
    (error : Option Quad) (herror : error.isSome = hasErrorCode v) (c : Cpu) (g : Gate)
    (hroom : 176 ≤ (c.entryStack g).toNat) (k : κ) :
    ∃ e, E.Runs (isrStub v) (c.deliver g error) k (.call .excHandler :: afterCall 16) e k ∧
      e.reg .rdi = BitVec.ofNat 64 v ∧ e.reg .rsi = error.getD 0 ∧
      Holds e.mem (e.reg .rcx).toNat (popAllRegs.map c.reg) ∧ Holds e.mem (e.reg .rdx).toNat c.context ∧
      e.rflags.getLsbD flagDirection = false ∧ e.rsp.toNat % 16 = 0 ∧
      (Frame c.mem e.mem fun x => (c.entryStack g).toNat - 176 ≤ x ∧ x < (c.entryStack g).toNat) ∧
      ∀ e', CallKeeps 176 e e' → E.Returns (afterCall 16) e' k { c with mem := e'.mem } k := by
  have hlength : error.toList.length ≤ 1 := by cases error <;> simp
  obtain ⟨hstack, hrsp, hframe⟩ := StackHolds.deliver c g error (by omega)
  obtain ⟨hreg, hgs, hkgs, hrsp0⟩ := c.deliver_eq g error
  have hwords := exception_words hv hlate herror
  have haligned := entryStack_aligned c g
  obtain ⟨zero, hzero⟩ : ∃ zero : List Quad, zero = if pushesZero v then [0] else [] := ⟨_, rfl⟩
  rw [← hzero] at hwords
  have hlen : zero.length + error.toList.length = 1 := by rw [← List.length_append, hwords, List.length_singleton]
  -- what the stub pushes, the vector on top
  obtain ⟨hpushed, hpushedRsp, hpushedFrame⟩ := hstack.foldr_push (BitVec.ofNat 64 v :: zero)
    (by rw [List.length_cons]; omega)
  have hpushedEq := (c.deliver g error).foldr_push_eq (BitVec.ofNat 64 v :: zero)
  obtain ⟨d, hd⟩ : ∃ d, d = (BitVec.ofNat 64 v :: zero).foldr (fun v e => e.push v) (c.deliver g error) := ⟨_, rfl⟩
  have hstub : E.Runs (isrStub v) (c.deliver g error) k exceptionHandler d k := by
    have hjmp : E.Runs [.jmp .exceptionHandler] d k exceptionHandler d k := by
      refine Code.Runs.head ?_ Code.Runs.refl
      simp only [Code.step, hblock, entryBlock]
    rw [isrStub, if_pos hv]
    rw [hd, hzero] at hjmp ⊢
    by_cases h : pushesZero v
    · rw [if_pos h] at hjmp ⊢
      rw [if_pos h]
      exact Code.Runs.head rfl (Code.Runs.head rfl hjmp)
    · rw [if_neg h] at hjmp ⊢
      rw [if_neg h]
      exact Code.Runs.head rfl hjmp
  rw [← hd] at hpushed hpushedRsp hpushedFrame hpushedEq
  have hstackd : StackHolds d ([BitVec.ofNat 64 v, error.getD 0] ++ c.context) := by
    have hsplit : BitVec.ofNat 64 v :: zero ++ (error.toList ++ c.context) =
        [BitVec.ofNat 64 v, error.getD 0] ++ c.context := by
      rw [List.cons_append, ← List.append_assoc, hwords]
      rfl
    rw [← hsplit]
    exact hpushed
  rw [List.length_cons] at hpushedRsp hpushedFrame
  have hdrsp : d.rsp.toNat = (c.entryStack g).toNat - 56 := by omega
  obtain ⟨e₀, e, hruns, hcall, hstack₀, hargs, hersp, hersp', heframe⟩ :=
    entryPath_runs (E := E) (f := .excHandler) loads_exception [BitVec.ofNat 64 v, error.getD 0] hstackd
      (by rw [hpushedEq]; exact hreg) (by rw [hpushedEq]; exact hgs) (by rw [hpushedEq]; exact hkgs)
      (by rw [hpushedEq]; exact hrsp0) (by omega) k
  obtain ⟨hrdi, hrsi, hrdx, hrcx⟩ := exceptionArgs_reg e₀
  have hvector : e₀.stack (8 * 15) = BitVec.ofNat 64 v := hstack₀.stack rfl
  have hcode : e₀.stack (8 * 16) = error.getD 0 := hstack₀.stack rfl
  have hframePointer : (e.reg .rdx).toNat = e.rsp.toNat + 8 * 17 := by
    have hroom' := hcall.stack.room
    rw [hargs, hrdx, ← hersp, BitVec.toNat_add]
    refine Nat.mod_eq_of_lt ?_
    change e.rsp.toNat + 136 < 2 ^ 64
    have : (popAllRegs.map c.reg ++ ([BitVec.ofNat 64 v, error.getD 0] ++ c.context)).length = 22 := rfl
    omega
  refine ⟨e, hstub.trans hruns, by rw [hargs, hrdi]; exact hvector, by rw [hargs, hrsi]; exact hcode, ?_, ?_,
    hcall.direction, by omega, ?_, fun e' he' => afterCall_returns hcall he' k⟩
  · rw [hargs, hrcx, ← hersp]
    exact (holds_append.mp hcall.stack.holds).1
  · rw [hframePointer]
    exact (holds_append.mp (holds_append.mp hcall.stack.holds).2).2
  · refine ((hframe.mono ?_).trans (hpushedFrame.mono ?_)).trans (heframe.mono ?_)
    · intro x hx
      omega
    · intro x hx
      omega
    · intro x hx
      omega

/-- A page fault in a task: vector 14, error code 2. -/
theorem exception_arguments_pageFault :
    ∃ e, (entryCode exampleClobber fun _ irq => irq).Runs (isrStub 14)
        (exampleCpu.deliver (kernelGate (0x10000 + 32 * 14) gateIntr) (some 2)) (Irq.boot exampleApic)
        (.call .excHandler :: afterCall 16) e (Irq.boot exampleApic) ∧
      e.reg .rdi = BitVec.ofNat 64 14 ∧ e.reg .rsi = 2 :=
  let ⟨e, hruns, hrdi, hrsi, _⟩ := exception_arguments (E := entryCode exampleClobber fun _ irq => irq) rfl
    (v := 14) (by decide) (by decide) (some 2) rfl exampleCpu (kernelGate (0x10000 + 32 * 14) gateIntr)
    (by decide) (Irq.boot exampleApic)
  ⟨e, hruns, hrdi, hrsi⟩

end Gewodsys.Cpu
