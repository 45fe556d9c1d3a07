import Gewodsys.Lib.Memory
import Gewodsys.Machine.Pic
import Gewodsys.Machine.X86

/-!
# Descriptor tables and the legacy interrupt controllers (`cpu/intel.c`)

* `intelSetInterrupt` : an entry of the interrupt descriptor table; `gateAt` : what the processor reads of it;
* `intelInitialize` : the task state segment, both descriptor tables, the controllers;
* `gateAt_intelSetInterrupt` : the gate of a descriptor that was just set;
* `TableOp`, `intelSetInterrupt_runs` : after any calls the table is a map from vectors to gates;
* `intelInitialize_spec` : what the processor finds after `IntelInitialize`.
-/

namespace Gewodsys.Cpu
open Gewodsys.Machine Gewodsys.Lib

/-! ## Interrupt descriptors -/

/-- The bit fields of an `InterruptDescriptor`: those of its low word, and `offset2` of its high word. -/
def idtOffset0 : Field := ⟨0, 16⟩
def idtSelector : Field := ⟨16, 16⟩
def idtIst : Field := ⟨32, 3⟩
def idtType : Field := ⟨40, 4⟩
def idtDpl : Field := ⟨45, 2⟩
def idtPresent : Field := ⟨47, 1⟩
def idtOffset1 : Field := ⟨48, 16⟩
def idtOffset2 : Field := ⟨0, 32⟩

def sizeofInterruptDescriptor : Nat := 16

def kernelCs : Nat := 0x28

/-- Assign a bit field of the 64-bit word at `a`. -/
def setField64 (m : Mem) (a : Nat) (f : Field) (v : Nat) : Mem := m.write64 a (f.set v (m.read64 a))

/-- `&kIntelIDT[interrupt]`. -/
def idtEntry (idt interrupt : Nat) : Nat := idt + sizeofInterruptDescriptor * interrupt

def intelSetInterrupt (m : Mem) (idt interrupt handler type : Nat) : Mem :=
  let entry := idtEntry idt interrupt
  let m := rtZeroMemory m entry sizeofInterruptDescriptor
  let m := setField64 m entry idtOffset0 (handler &&& 0xFFFF)
  let m := setField64 m entry idtOffset1 (handler >>> 16 &&& 0xFFFF)
  let m := setField64 m (entry + 8) idtOffset2 (handler >>> 32 &&& 0xFFFFFFFF)
  let m := setField64 m entry idtSelector kernelCs
  let m := setField64 m entry idtType type
  setField64 m entry idtPresent 1

/-- What the processor reads of the descriptor of vector `v`. -/
def gateAt (m : Mem) (idt v : Nat) : Gate :=
  let low := m.read64 (idtEntry idt v)
  let high := m.read64 (idtEntry idt v + 8)
  { offset := BitVec.ofNat 64
      (idtOffset0.get low + 2 ^ 16 * idtOffset1.get low + 2 ^ 32 * idtOffset2.get high)
    selector := BitVec.ofNat 16 (idtSelector.get low)
    ist := idtIst.get low
    type := idtType.get low
    dpl := idtDpl.get low
    present := idtPresent.get low == 1 }

/-- The gate that `IntelSetInterrupt` writes. -/
def kernelGate (handler type : Nat) : Gate := ⟨BitVec.ofNat 64 handler, BitVec.ofNat 16 kernelCs, 0, type % 16, 0, true⟩

/-- The low word of a descriptor. -/
def descriptorLow (handler type : Nat) : Nat :=
  idtPresent.set 1 (idtType.set type (idtSelector.set kernelCs
    (idtOffset1.set (handler >>> 16 &&& 0xFFFF) (idtOffset0.set (handler &&& 0xFFFF) 0))))

/-- The high word of a descriptor. -/
def descriptorHigh (handler : Nat) : Nat := idtOffset2.set (handler >>> 32 &&& 0xFFFFFFFF) 0

theorem setField64_frame (m : Mem) (a : Nat) (f : Field) (v : Nat) :
    Frame m (setField64 m a f v) fun x => a ≤ x ∧ x < a + 8 :=
  Frame.write m a 8 _

theorem read_setField64 (m : Mem) (a : Nat) (f : Field) (v : Nat) (hf : f.lo + f.len ≤ 64) :
    (setField64 m a f v).read64 a = f.set v (m.read64 a) := by
  have hlt := Field.set_lt f v (m.read64_lt a) hf
  exact (m.read_write a 8 _).trans (Nat.mod_eq_of_lt hlt)

theorem read_setField64_of_ne (m : Mem) {a b : Nat} (f : Field) (v : Nat) (h : a + 8 ≤ b ∨ b + 8 ≤ a) :
    (setField64 m b f v).read64 a = m.read64 a :=
  m.read_write_of_disjoint _ h

theorem read_intelSetInterrupt (m : Mem) (idt i handler type : Nat) :
    (intelSetInterrupt m idt i handler type).read64 (idtEntry idt i) = descriptorLow handler type ∧
      (intelSetInterrupt m idt i handler type).read64 (idtEntry idt i + 8) = descriptorHigh handler := by
  have hlow : (rtZeroMemory m (idtEntry idt i) sizeofInterruptDescriptor).read64 (idtEntry idt i) = 0 :=
    read_rtZeroMemory m (le_refl _) (by unfold sizeofInterruptDescriptor; omega)
  have hhigh : (rtZeroMemory m (idtEntry idt i) sizeofInterruptDescriptor).read64 (idtEntry idt i + 8) = 0 :=
    read_rtZeroMemory m (by omega) (by unfold sizeofInterruptDescriptor; omega)
  simp only [intelSetInterrupt]
  constructor
  · rw [read_setField64 _ _ _ _ (by decide), read_setField64 _ _ _ _ (by decide), read_setField64 _ _ _ _ (by decide),
      read_setField64_of_ne _ _ _ (Or.inl (le_refl _)), read_setField64 _ _ _ _ (by decide),
      read_setField64 _ _ _ _ (by decide), hlow]
    rfl
  · rw [read_setField64_of_ne _ _ _ (Or.inr (le_refl _)), read_setField64_of_ne _ _ _ (Or.inr (le_refl _)),
      read_setField64_of_ne _ _ _ (Or.inr (le_refl _)), read_setField64 _ _ _ _ (by decide),
      read_setField64_of_ne _ _ _ (Or.inr (le_refl _)), read_setField64_of_ne _ _ _ (Or.inr (le_refl _)), hhigh]
    rfl

theorem intelSetInterrupt_frame (m : Mem) (idt i handler type : Nat) :
    Frame m (intelSetInterrupt m idt i handler type) fun x => idtEntry idt i ≤ x ∧ x < idtEntry idt i + 16 := by
  have hlow : ∀ (m : Mem) (f : Field) (v : Nat), Frame m (setField64 m (idtEntry idt i) f v) fun x =>
      idtEntry idt i ≤ x ∧ x < idtEntry idt i + 16 :=
    fun m f v => (setField64_frame m (idtEntry idt i) f v).mono fun x hx => by omega
  have hhigh : ∀ (m : Mem) (f : Field) (v : Nat), Frame m (setField64 m (idtEntry idt i + 8) f v) fun x =>
      idtEntry idt i ≤ x ∧ x < idtEntry idt i + 16 :=
    fun m f v => (setField64_frame m (idtEntry idt i + 8) f v).mono fun x hx => by omega
  unfold intelSetInterrupt
  apply Frame.trans (frame_rtZeroMemory m (idtEntry idt i) 16)
  apply (hlow _ _ _).trans
  apply (hlow _ _ _).trans
  apply (hhigh _ _ _).trans
  apply (hlow _ _ _).trans
  apply (hlow _ _ _).trans
  exact hlow _ _ _

/-- **The processor reads back the gate that was set.** -/
theorem gateAt_intelSetInterrupt (m : Mem) (idt i handler type : Nat) :
    gateAt (intelSetInterrupt m idt i handler type) idt i = kernelGate handler type := by
  obtain ⟨hlow, hhigh⟩ := read_intelSetInterrupt m idt i handler type
  have hmask16 : ∀ n, n &&& 0xFFFF = n % 2 ^ 16 := fun n => land_low n 16
  have hmask32 : ∀ n, n &&& 0xFFFFFFFF = n % 2 ^ 32 := fun n => land_low n 32
  have hoffset0 : idtOffset0.get (descriptorLow handler type) = handler % 2 ^ 16 := by
    unfold descriptorLow
    rw [Field.get_set_of_disjoint _ _ _ _ (by decide), Field.get_set_of_disjoint _ _ _ _ (by decide),
      Field.get_set_of_disjoint _ _ _ _ (by decide), Field.get_set_of_disjoint _ _ _ _ (by decide), Field.get_set, hmask16]
    exact Nat.mod_mod _ _
  have hoffset1 : idtOffset1.get (descriptorLow handler type) = handler / 2 ^ 16 % 2 ^ 16 := by
    unfold descriptorLow
    rw [Field.get_set_of_disjoint _ _ _ _ (by decide), Field.get_set_of_disjoint _ _ _ _ (by decide),
      Field.get_set_of_disjoint _ _ _ _ (by decide), Field.get_set, hmask16, Nat.shiftRight_eq_div_pow]
    exact Nat.mod_mod _ _
  have hselector : idtSelector.get (descriptorLow handler type) = kernelCs := by
    unfold descriptorLow
    rw [Field.get_set_of_disjoint _ _ _ _ (by decide), Field.get_set_of_disjoint _ _ _ _ (by decide), Field.get_set]
    rfl
  have htype : idtType.get (descriptorLow handler type) = type % 16 := by
    unfold descriptorLow
    rw [Field.get_set_of_disjoint _ _ _ _ (by decide), Field.get_set]
    rfl
  have hpresent : idtPresent.get (descriptorLow handler type) = 1 := by
    unfold descriptorLow
    rw [Field.get_set]
    rfl
  have hzero : ∀ f : Field, f.Disjoint idtPresent → f.Disjoint idtType → f.Disjoint idtSelector → f.Disjoint idtOffset1 →
      f.Disjoint idtOffset0 → f.get (descriptorLow handler type) = 0 := by
    intro f h1 h2 h3 h4 h5
    unfold descriptorLow
    rw [Field.get_set_of_disjoint _ _ _ _ h1, Field.get_set_of_disjoint _ _ _ _ h2, Field.get_set_of_disjoint _ _ _ _ h3,
      Field.get_set_of_disjoint _ _ _ _ h4, Field.get_set_of_disjoint _ _ _ _ h5]
    simp [Field.get]
  have hoffset2 : idtOffset2.get (descriptorHigh handler) = handler / 2 ^ 32 % 2 ^ 32 := by
    unfold descriptorHigh
    rw [Field.get_set, hmask32, Nat.shiftRight_eq_div_pow]
    exact Nat.mod_mod _ _
  have hist := hzero idtIst (by decide) (by decide) (by decide) (by decide) (by decide)
  have hdpl := hzero idtDpl (by decide) (by decide) (by decide) (by decide) (by decide)
  have hoffset : BitVec.ofNat 64 (handler % 2 ^ 16 + 2 ^ 16 * (handler / 2 ^ 16 % 2 ^ 16) +
      2 ^ 32 * (handler / 2 ^ 32 % 2 ^ 32)) = BitVec.ofNat 64 handler := by
    apply BitVec.eq_of_toNat_eq
    rw [BitVec.toNat_ofNat, BitVec.toNat_ofNat]
    omega
  simp only [gateAt, kernelGate, hlow, hhigh, hoffset0, hoffset1, hoffset2, hselector, htype, hpresent, hist, hdpl, hoffset]
  rfl

theorem gateAt_frame {m m' : Mem} {W : Nat → Prop} (h : Frame m m' W) {idt v : Nat}
    (hW : ∀ x, idtEntry idt v ≤ x → x < idtEntry idt v + 16 → ¬ W x) : gateAt m' idt v = gateAt m idt v := by
  have hlow : m'.read64 (idtEntry idt v) = m.read64 (idtEntry idt v) :=
    h.read fun x h1 h2 => hW x h1 (by omega)
  have hhigh : m'.read64 (idtEntry idt v + 8) = m.read64 (idtEntry idt v + 8) :=
    h.read fun x h1 h2 => hW x (by omega) (by omega)
  unfold gateAt
  rw [hlow, hhigh]

theorem gateAt_intelSetInterrupt_of_ne (m : Mem) (idt handler type : Nat) {i v : Nat} (h : v ≠ i) :
    gateAt (intelSetInterrupt m idt i handler type) idt v = gateAt m idt v := by
  apply gateAt_frame (intelSetInterrupt_frame m idt i handler type)
  unfold idtEntry sizeofInterruptDescriptor
  omega

/-! ## The table over runs -/

/-- A call `IntelSetInterrupt(interrupt, handler, type)`. -/
structure TableOp where
  interrupt : Nat
  handler : Nat
  type : Nat
deriving DecidableEq, Repr

def TableOp.apply (idt : Nat) (m : Mem) (o : TableOp) : Mem := intelSetInterrupt m idt o.interrupt o.handler o.type

/-- The gate that a run of calls leaves for vector `v`: that of the last call for it, else the one before. -/
def gateAfter (before : Nat → Gate) (ops : List TableOp) : Nat → Gate :=
  ops.foldl (fun g o => Function.update g o.interrupt (kernelGate o.handler o.type)) before

theorem gateAt_foldl (m : Mem) (idt : Nat) (ops : List TableOp) :
    gateAt (ops.foldl (TableOp.apply idt) m) idt = gateAfter (gateAt m idt) ops := by
  induction ops generalizing m with
  | nil => rfl
  | cons o ops ih =>
      have hstep : gateAt (o.apply idt m) idt =
          Function.update (gateAt m idt) o.interrupt (kernelGate o.handler o.type) := by
        funext v
        by_cases hv : v = o.interrupt
        · subst hv
          rw [Function.update_self]
          exact gateAt_intelSetInterrupt m idt o.interrupt o.handler o.type
        · rw [Function.update_of_ne hv]
          exact gateAt_intelSetInterrupt_of_ne m idt o.handler o.type hv
      rw [List.foldl_cons, ih, hstep]
      rfl

theorem tableOps_frame (m : Mem) (idt : Nat) (ops : List TableOp) (hops : ∀ o ∈ ops, o.interrupt < 256) :
    Frame m (ops.foldl (TableOp.apply idt) m) fun x => idt ≤ x ∧ x < idt + 4096 := by
  induction ops generalizing m with
  | nil => exact Frame.refl _ _
  | cons o ops ih =>
      have ho := hops o List.mem_cons_self
      refine Frame.trans ?_ (ih _ fun o' ho' => hops o' (List.mem_cons_of_mem _ ho'))
      refine (intelSetInterrupt_frame m idt o.interrupt o.handler o.type).mono fun x hx => ?_
      unfold idtEntry sizeofInterruptDescriptor at hx
      omega

/-- **The interrupt descriptor table is a map from vectors to gates**: after any calls, in any order, every vector has
the gate of the last call for it, and no byte outside the table was written. -/
theorem intelSetInterrupt_runs (m : Mem) (idt : Nat) (ops : List TableOp) (hops : ∀ o ∈ ops, o.interrupt < 256) :
    gateAt (ops.foldl (TableOp.apply idt) m) idt = gateAfter (gateAt m idt) ops ∧
      Frame m (ops.foldl (TableOp.apply idt) m) fun x => idt ≤ x ∧ x < idt + 4096 :=
  ⟨gateAt_foldl m idt ops, tableOps_frame m idt ops hops⟩

theorem intelSetInterrupt_runs_twice :
    gateAt ([⟨3, 0x1234, 14⟩, ⟨5, 0x5678, 14⟩, ⟨3, 0x9ABC, 15⟩].foldl (TableOp.apply 0x1000) fun _ => 0) 0x1000 =
        gateAfter (gateAt (fun _ => 0) 0x1000) [⟨3, 0x1234, 14⟩, ⟨5, 0x5678, 14⟩, ⟨3, 0x9ABC, 15⟩] ∧
      Frame (fun _ => 0)
        ([⟨3, 0x1234, 14⟩, ⟨5, 0x5678, 14⟩, ⟨3, 0x9ABC, 15⟩].foldl (TableOp.apply 0x1000) fun _ => 0)
        fun x => 0x1000 ≤ x ∧ x < 0x1000 + 4096 :=
  intelSetInterrupt_runs (fun _ => 0) 0x1000 [⟨3, 0x1234, 14⟩, ⟨5, 0x5678, 14⟩, ⟨3, 0x9ABC, 15⟩] (by decide)

/-! ## `IntelInitialize` -/

def gateIntr : Nat := 0xE

/-- The calls of the loop of `IntelInitialize`, from `vector` on. -/
def isrGates (vector isrTable : Nat) : Nat → List TableOp
  | 0 => []
  | n + 1 => ⟨vector, isrTable, gateIntr⟩ :: isrGates (vector + 1) (add64 isrTable 32) n

/-- Where the linker put the static tables, and the code of the entry stubs. -/
structure IntelStatics where
  kIntelIDT : Nat
  kIntelGDT : Nat
  kIntelTSS : Nat
  kIntelIsrTable : Nat

/-- The processor state that `IntelInitialize` sets up. -/
structure Intel where
  mem : Mem
  /-- Limit and base of the tables last loaded. -/
  gdtr : Nat × Nat
  idtr : Nat × Nat
  pics : PicPair
  interrupts : Bool

/-- A `GlobalDescriptorTableEntry`. -/
def gdtEntry (limit baseLow16 baseMid8 access granularity baseHigh8 : Nat) : List (Nat × Nat) :=
  [(2, limit), (2, baseLow16), (1, baseMid8), (1, access), (1, granularity), (1, baseHigh8)]

/-- The values of an initialiser, each with its size, one behind the other from `a` on. -/
def InitialisedAt (m : Mem) (a : Nat) : List (Nat × Nat) → Prop
  | [] => True
  | (n, v) :: vs => m.read a n = v ∧ InitialisedAt m (a + n) vs

/-- The initialiser of `kIntelGDT`. -/
def kIntelGDTInit : List (Nat × Nat) :=
  gdtEntry 0 0 0 0 0 0 ++ gdtEntry 0xFFFF 0 0 0x9A 0x80 0 ++ gdtEntry 0xFFFF 0 0 0x92 0x80 0 ++
    gdtEntry 0xFFFF 0 0 0x9A 0xCF 0 ++ gdtEntry 0xFFFF 0 0 0x92 0xCF 0 ++ gdtEntry 0x0000 0 0 0x9A 0xA2 0 ++
    gdtEntry 0x0000 0 0 0x92 0xA0 0 ++ gdtEntry 0x0000 0 0 0xF2 0x00 0 ++ gdtEntry 0x0000 0 0 0xFA 0x20 0 ++
    (gdtEntry 0x0068 0 0 0x89 0x20 0 ++ [(4, 0), (4, 0)])

/-- The offset of `tss` in a `GlobalDescriptorTable`. -/
def gdtTss : Nat := 72
def sizeofGdt : Nat := 88
def sizeofTss : Nat := 104

/-- The fields of a `TaskStateSegment`. -/
def tssRsp (i : Nat) : Nat := 4 + 8 * i
def tssIst (i : Nat) : Nat := 36 + 8 * i
def tssIopbOffset : Nat := 102

def intelInitializePic : List (Nat × BitVec 8) :=
  [(0x20, 0x11), (0xA0, 0x11), (0x21, 0x20), (0xA1, 0x28), (0x21, 4), (0xA1, 2), (0x21, 1), (0xA1, 1), (0x21, 0xFF),
    (0xA1, 0xFF)]

/-- The assignments of `IntelInitialize` to `kIntelTSS`. -/
def setTss (k : IntelStatics) (m : Mem) (kernelStack : Nat) : Mem :=
  let m := m.write64 (k.kIntelTSS + tssRsp 0) kernelStack
  let m := m.write64 (k.kIntelTSS + tssIst 1) 0
  m.write (k.kIntelTSS + tssIopbOffset) 2 sizeofTss

/-- Those to `kIntelGDT.tss`. -/
def setGdtTss (k : IntelStatics) (m : Mem) : Mem :=
  let tss := k.kIntelGDT + gdtTss
  let m := m.write (tss + 2) 2 (k.kIntelTSS &&& 0xFFFF)
  let m := m.write (tss + 4) 1 (k.kIntelTSS >>> 16 &&& 0xFF)
  let m := m.write (tss + 7) 1 (k.kIntelTSS >>> 24 &&& 0xFF)
  m.write (tss + 8) 4 (k.kIntelTSS >>> 32)

/-- The loop over the vectors. -/
def setGates (k : IntelStatics) (m : Mem) : Mem :=
  (isrGates 0 k.kIntelIsrTable 256).foldl (TableOp.apply k.kIntelIDT) m

def intelInitialize (k : IntelStatics) (s : Intel) (kernelStack : Nat) : Intel :=
  { mem := setGates k (setGdtTss k (setTss k s.mem kernelStack))
    gdtr := (sizeofGdt - 1, k.kIntelGDT)
    idtr := (256 * sizeofInterruptDescriptor - 1, k.kIntelIDT)
    pics := (s.pics.outs intelInitializePic).outs [(0x21, 0xFD), (0xA1, 0xFF)]
    interrupts := true }

/-! ## What the processor finds -/

/-- The gate through which vector `v` is taken: a present interrupt gate inside the limit of the table. -/
def Intel.gate (s : Intel) (v : Nat) : Option Gate :=
  let g := gateAt s.mem s.idtr.2 v
  if sizeofInterruptDescriptor * v + 15 ≤ s.idtr.1 ∧ g.present ∧ g.type = gateIntr ∧ g.ist = 0 then some g else none

/-- The selector names a present 64-bit code segment of privilege level 0 inside the limit of the table. -/
def Intel.KernelCode (s : Intel) (selector : Nat) : Prop :=
  selector + 7 ≤ s.gdtr.1 ∧ selector % 8 = 0 ∧
    (s.mem (s.gdtr.2 + selector + 5)).extractLsb' 3 5 = 0b10011#5 ∧
    (s.mem (s.gdtr.2 + selector + 6)).extractLsb' 5 2 = 0b01#2

/-- The base address in the descriptor of the task state segment. -/
def Intel.tssBase (s : Intel) : Nat :=
  let tss := s.gdtr.2 + gdtTss
  s.mem.read (tss + 2) 2 + 2 ^ 16 * s.mem.read (tss + 4) 1 + 2 ^ 24 * s.mem.read (tss + 7) 1 +
    2 ^ 32 * s.mem.read (tss + 8) 4

/-- The static tables share no byte and lie in the address space. -/
structure IntelStatics.Apart (k : IntelStatics) : Prop where
  idtGdt : k.kIntelIDT + 4096 ≤ k.kIntelGDT ∨ k.kIntelGDT + sizeofGdt ≤ k.kIntelIDT
  idtTss : k.kIntelIDT + 4096 ≤ k.kIntelTSS ∨ k.kIntelTSS + sizeofTss ≤ k.kIntelIDT
  gdtTss : k.kIntelGDT + sizeofGdt ≤ k.kIntelTSS ∨ k.kIntelTSS + sizeofTss ≤ k.kIntelGDT
  tss_lt : k.kIntelTSS < 2 ^ 64

theorem isrGates_interrupt {n vector isrTable : Nat} {o : TableOp} (ho : o ∈ isrGates vector isrTable n) :
    vector ≤ o.interrupt ∧ o.interrupt < vector + n := by
  induction n generalizing vector isrTable with
  | zero => cases ho
  | succ n ih =>
      rcases List.mem_cons.mp ho with rfl | ho
      · exact ⟨le_refl _, by change vector < vector + (n + 1); omega⟩
      · have := ih ho
        omega

theorem gateAfter_of_not_mem (before : Nat → Gate) {ops : List TableOp} {v : Nat} (h : ∀ o ∈ ops, o.interrupt ≠ v) :
    gateAfter before ops v = before v := by
  induction ops generalizing before with
  | nil => rfl
  | cons o ops ih =>
      change gateAfter (Function.update before o.interrupt _) ops v = _
      rw [ih _ fun o' ho' => h o' (List.mem_cons_of_mem _ ho')]
      exact Function.update_of_ne (h o List.mem_cons_self).symm _ _

/-- After the loop the gate of vector `vector + i` leads to the `i`-th stub, also where the address wraps. -/
theorem gateAfter_isrGates (before : Nat → Gate) (vector isrTable : Nat) {n i : Nat} (hi : i < n) :
    gateAfter before (isrGates vector isrTable n) (vector + i) = kernelGate (isrTable + 32 * i) gateIntr := by
  induction n generalizing vector isrTable i before with
  | zero => omega
  | succ n ih =>
      change gateAfter (Function.update before vector (kernelGate isrTable gateIntr))
        (isrGates (vector + 1) (add64 isrTable 32) n) (vector + i) = _
      cases i with
      | zero =>
          rw [gateAfter_of_not_mem _ fun o ho => by have := isrGates_interrupt ho; omega, Nat.add_zero,
            Function.update_self, Nat.mul_zero, Nat.add_zero]
      | succ i =>
          rw [show vector + (i + 1) = vector + 1 + i by omega, ih _ _ _ (by omega)]
          unfold kernelGate
          congr 1
          apply BitVec.eq_of_toNat_eq
          unfold add64
          rw [BitVec.toNat_ofNat, BitVec.toNat_ofNat, Nat.mod_add_mod]
          congr 1
          omega

theorem InitialisedAt.read {m : Mem} {a i n v : Nat} {vs : List (Nat × Nat)} (h : InitialisedAt m a vs)
    (hi : vs[i]? = some (n, v)) : m.read (a + ((vs.take i).map Prod.fst).sum) n = v := by
  induction vs generalizing a i with
  | nil => cases hi
  | cons x vs ih =>
      cases i with
      | zero =>
          obtain rfl : x = (n, v) := by simpa using hi
          exact h.1
      | succ i =>
          have hrest := ih h.2 (i := i) (by simpa using hi)
          rw [List.take_succ_cons, List.map_cons, List.sum_cons, ← Nat.add_assoc]
          exact hrest

theorem setTss_frame (k : IntelStatics) (m : Mem) (kernelStack : Nat) :
    Frame m (setTss k m kernelStack) fun x => k.kIntelTSS ≤ x ∧ x < k.kIntelTSS + 104 := by
  have hstore : ∀ (m : Mem) (a n v : Nat), a + n ≤ 104 → Frame m (m.write (k.kIntelTSS + a) n v) fun x =>
      k.kIntelTSS ≤ x ∧ x < k.kIntelTSS + 104 :=
    fun m a n v h => (Frame.write m (k.kIntelTSS + a) n v).mono fun x hx => by omega
  unfold setTss
  apply (hstore _ 4 8 _ (by omega)).trans
  apply (hstore _ 44 8 _ (by omega)).trans
  exact hstore _ 102 2 _ (by omega)

theorem setGdtTss_frame (k : IntelStatics) (m : Mem) :
    Frame m (setGdtTss k m) fun x => k.kIntelGDT + 72 ≤ x ∧ x < k.kIntelGDT + 88 := by
  have hstore : ∀ (m : Mem) (a n v : Nat), 72 ≤ a → a + n ≤ 88 → Frame m (m.write (k.kIntelGDT + a) n v) fun x =>
      k.kIntelGDT + 72 ≤ x ∧ x < k.kIntelGDT + 88 :=
    fun m a n v h1 h2 => (Frame.write m (k.kIntelGDT + a) n v).mono fun x hx => by omega
  unfold setGdtTss
  apply (hstore _ 74 2 _ (by omega) (by omega)).trans
  apply (hstore _ 76 1 _ (by omega) (by omega)).trans
  apply (hstore _ 79 1 _ (by omega) (by omega)).trans
  exact hstore _ 80 4 _ (by omega) (by omega)

theorem setGates_frame (k : IntelStatics) (m : Mem) :
    Frame m (setGates k m) fun x => k.kIntelIDT ≤ x ∧ x < k.kIntelIDT + 4096 := by
  refine tableOps_frame m k.kIntelIDT _ fun o ho => ?_
  have := isrGates_interrupt ho
  omega

theorem intelInitialize_mem (k : IntelStatics) (s : Intel) (kernelStack : Nat) :
    (intelInitialize k s kernelStack).mem = setGates k (setGdtTss k (setTss k s.mem kernelStack)) := by
  simp only [intelInitialize]

/-- All that changes: the task state segment, its descriptor and the interrupt descriptor table. -/
theorem intelInitialize_frame (k : IntelStatics) (s : Intel) (kernelStack : Nat) :
    Frame s.mem (intelInitialize k s kernelStack).mem fun x =>
      (k.kIntelTSS ≤ x ∧ x < k.kIntelTSS + 104) ∨ (k.kIntelGDT + 72 ≤ x ∧ x < k.kIntelGDT + 88) ∨
        (k.kIntelIDT ≤ x ∧ x < k.kIntelIDT + 4096) := by
  have htss := setTss_frame k s.mem kernelStack
  have hgdt := setGdtTss_frame k (setTss k s.mem kernelStack)
  have hidt := setGates_frame k (setGdtTss k (setTss k s.mem kernelStack))
  rw [intelInitialize_mem]
  exact ((htss.mono fun x hx => Or.inl hx).trans (hgdt.mono fun x hx => Or.inr (Or.inl hx))).trans
    (hidt.mono fun x hx => Or.inr (Or.inr hx))

theorem intelInitialize_gate (k : IntelStatics) (s : Intel) (kernelStack : Nat) {v : Nat} (hv : v < 256) :
    (intelInitialize k s kernelStack).gate v = some (kernelGate (k.kIntelIsrTable + 32 * v) gateIntr) := by
  have hgate : gateAt (intelInitialize k s kernelStack).mem k.kIntelIDT v =
      kernelGate (k.kIntelIsrTable + 32 * v) gateIntr := by
    have h := gateAfter_isrGates (gateAt (setGdtTss k (setTss k s.mem kernelStack)) k.kIntelIDT) 0
      k.kIntelIsrTable hv
    rw [Nat.zero_add, ← gateAt_foldl] at h
    rw [intelInitialize_mem, setGates]
    exact h
  have hlimit : sizeofInterruptDescriptor * v + 15 ≤ 256 * sizeofInterruptDescriptor - 1 := by
    unfold sizeofInterruptDescriptor
    omega
  unfold Intel.gate
  rw [show (intelInitialize k s kernelStack).idtr = (256 * sizeofInterruptDescriptor - 1, k.kIntelIDT) from rfl, hgate]
  exact if_pos ⟨hlimit, rfl, rfl, rfl⟩

/-- The selector of the gates names the 64-bit code segment of the kernel. -/
theorem intelInitialize_kernelCode {k : IntelStatics} (hk : k.Apart) {s : Intel} (kernelStack : Nat)
    (hinit : InitialisedAt s.mem k.kIntelGDT kIntelGDTInit) :
    (intelInitialize k s kernelStack).KernelCode kernelCs := by
  obtain ⟨hidt, -, htss, -⟩ := hk
  unfold sizeofGdt at hidt htss
  unfold sizeofTss at htss
  have hkeep : ∀ x, k.kIntelGDT ≤ x → x < k.kIntelGDT + 72 → (intelInitialize k s kernelStack).mem x = s.mem x :=
    fun x h1 h2 => intelInitialize_frame k s kernelStack x (by omega)
  have hbyte : ∀ {i v : Nat} (o : Nat), kIntelGDTInit[i]? = some (1, v) →
      ((kIntelGDTInit.take i).map Prod.fst).sum = o → o < 72 →
      ((intelInitialize k s kernelStack).mem (k.kIntelGDT + o)).toNat = v := by
    intro i v o hi hsum ho
    have hread := hinit.read hi
    rw [hsum] at hread
    rw [hkeep _ (by omega) (by omega)]
    simpa [Mem.read] using hread
  have haccess := hbyte (i := 33) (v := 0x9A) 45 rfl rfl (by decide)
  have hgranularity := hbyte (i := 34) (v := 0xA2) 46 rfl rfl (by decide)
  have hgdtr : (intelInitialize k s kernelStack).gdtr = (87, k.kIntelGDT) := rfl
  have hcs : kernelCs = 0x28 := rfl
  unfold Intel.KernelCode
  simp only [hgdtr, hcs, Nat.add_assoc, Nat.reduceAdd]
  refine ⟨by omega, trivial, ?_, ?_⟩
  · rw [show (intelInitialize k s kernelStack).mem (k.kIntelGDT + 45) = 0x9A#8 from BitVec.eq_of_toNat_eq haccess]
    rfl
  · rw [show (intelInitialize k s kernelStack).mem (k.kIntelGDT + 46) = 0xA2#8 from BitVec.eq_of_toNat_eq hgranularity]
    rfl

theorem intelInitialize_tss {k : IntelStatics} (hk : k.Apart) (s : Intel) (kernelStack : Nat) :
    (intelInitialize k s kernelStack).tssBase = k.kIntelTSS ∧
      (intelInitialize k s kernelStack).mem.read64 (k.kIntelTSS + tssRsp 0) = kernelStack % 2 ^ 64 := by
  obtain ⟨hidt, hidttss, htss, hlt⟩ := hk
  unfold sizeofGdt at hidt htss
  unfold sizeofTss at htss hidttss
  have hops := setGates_frame k (setGdtTss k (setTss k s.mem kernelStack))
  have hmem := intelInitialize_mem k s kernelStack
  have hmask16 : ∀ n, n &&& 0xFFFF = n % 2 ^ 16 := fun n => land_low n 16
  have hmask8 : ∀ n, n &&& 0xFF = n % 2 ^ 8 := fun n => land_low n 8
  constructor
  · have hgdtr : (intelInitialize k s kernelStack).gdtr = (87, k.kIntelGDT) := rfl
    have hread : ∀ a n, 72 ≤ a → a + n ≤ 88 → (intelInitialize k s kernelStack).mem.read (k.kIntelGDT + a) n =
        (setGdtTss k (setTss k s.mem kernelStack)).read (k.kIntelGDT + a) n := by
      intro a n h1 h2
      rw [hmem]
      exact hops.read fun x h3 h4 => by omega
    generalize setTss k s.mem kernelStack = m at hread
    unfold Intel.tssBase gdtTss
    rw [hgdtr]
    have h1 : (setGdtTss k m).read (k.kIntelGDT + 74) 2 = k.kIntelTSS % 2 ^ 16 := by
      unfold setGdtTss gdtTss
      rw [Mem.read_write_of_disjoint _ _ (by omega), Mem.read_write_of_disjoint _ _ (by omega),
        Mem.read_write_of_disjoint _ _ (by omega), Mem.read_write, hmask16]
      exact Nat.mod_mod _ _
    have h2 : (setGdtTss k m).read (k.kIntelGDT + 76) 1 = k.kIntelTSS / 2 ^ 16 % 2 ^ 8 := by
      unfold setGdtTss gdtTss
      rw [Mem.read_write_of_disjoint _ _ (by omega), Mem.read_write_of_disjoint _ _ (by omega), Mem.read_write, hmask8,
        Nat.shiftRight_eq_div_pow]
      exact Nat.mod_mod _ _
    have h3 : (setGdtTss k m).read (k.kIntelGDT + 79) 1 = k.kIntelTSS / 2 ^ 24 % 2 ^ 8 := by
      unfold setGdtTss gdtTss
      rw [Mem.read_write_of_disjoint _ _ (by omega), Mem.read_write, hmask8, Nat.shiftRight_eq_div_pow]
      exact Nat.mod_mod _ _
    have h4 : (setGdtTss k m).read (k.kIntelGDT + 80) 4 = k.kIntelTSS / 2 ^ 32 % 256 ^ 4 := by
      unfold setGdtTss gdtTss
      rw [Mem.read_write, Nat.shiftRight_eq_div_pow]
    have hsum : ∀ o, k.kIntelGDT + 72 + o = k.kIntelGDT + (72 + o) := fun o => Nat.add_assoc _ _ _
    simp only [hsum]
    rw [hread 74 2 (by omega) (by omega), hread 76 1 (by omega) (by omega), hread 79 1 (by omega) (by omega),
      hread 80 4 (by omega) (by omega), h1, h2, h3, h4]
    omega
  · have hgdt := setGdtTss_frame k (setTss k s.mem kernelStack)
    unfold tssRsp
    rw [hmem]
    refine (hops.read fun x h1 h2 => by omega).trans ?_
    refine (hgdt.read fun x h1 h2 => by omega).trans ?_
    unfold setTss tssRsp tssIst tssIopbOffset
    rw [Mem.read_write_of_disjoint _ _ (by omega), Mem.read_write_of_disjoint _ _ (by omega)]
    exact Mem.read_write _ _ 8 _

/-- Whatever state they were in, the controllers end up initialised, with vectors from 32 on and all but line 1 masked. -/
theorem intelInitialize_pics (k : IntelStatics) (s : Intel) (kernelStack : Nat) (line v : Nat) :
    (intelInitialize k s kernelStack).pics.Raises line v ↔ line = 1 ∧ v = 0x21 := by
  have hprimary : (intelInitialize k s kernelStack).pics.primary = ⟨.mask, false, true, 0x20, 4, 1, 0xFD⟩ := rfl
  have hsecondary : (intelInitialize k s kernelStack).pics.secondary = ⟨.mask, false, true, 0x28, 2, 1, 0xFF⟩ := rfl
  unfold PicPair.Raises Pic.Raises
  rw [hprimary, hsecondary]
  have hmask1 : ∀ l < 8, (0xFD : BitVec 8).getLsbD l = false ↔ l = 1 := by decide
  have hmask2 : ∀ l < 8, (0xFF : BitVec 8).getLsbD l = true := by decide
  constructor
  · rintro (⟨hline, -, hmask, hv⟩ | ⟨-, hline, -, hmask, -⟩)
    · obtain rfl := (hmask1 line hline).mp hmask
      exact ⟨rfl, hv⟩
    · rw [hmask2 _ hline] at hmask
      cases hmask
  · rintro ⟨rfl, rfl⟩
    exact Or.inl ⟨by omega, rfl, (hmask1 1 (by omega)).mpr rfl, rfl⟩

/-- **The processor after `IntelInitialize`**: every vector has a present gate to its own stub, in the 64-bit code segment
of the kernel; the descriptor of the task state segment holds its address, and the segment the stack; of the lines of
the legacy controllers, only line 1 can raise a vector, and that is no exception's. -/
theorem intelInitialize_spec {k : IntelStatics} (hk : k.Apart) {s : Intel} (kernelStack : Nat)
    (hinit : InitialisedAt s.mem k.kIntelGDT kIntelGDTInit) :
    (∀ v < 256, (intelInitialize k s kernelStack).gate v = some (kernelGate (k.kIntelIsrTable + 32 * v) gateIntr)) ∧
      (intelInitialize k s kernelStack).KernelCode kernelCs ∧
      (intelInitialize k s kernelStack).tssBase = k.kIntelTSS ∧
      (intelInitialize k s kernelStack).mem.read64 (k.kIntelTSS + tssRsp 0) = kernelStack % 2 ^ 64 ∧
      ∀ line v, (intelInitialize k s kernelStack).pics.Raises line v ↔ line = 1 ∧ v = 0x21 := by
  obtain ⟨htss, hstack⟩ := intelInitialize_tss hk s kernelStack
  exact ⟨fun v hv => intelInitialize_gate k s kernelStack hv, intelInitialize_kernelCode hk kernelStack hinit, htss,
    hstack, intelInitialize_pics k s kernelStack⟩

/-- Store the values of an initialiser, as the loader does. -/
def storeAll (m : Mem) (a : Nat) : List (Nat × Nat) → Mem
  | [] => m
  | (n, v) :: vs => (storeAll m (a + n) vs).write a n v

theorem InitialisedAt.congr {m m' : Mem} {a : Nat} {vs : List (Nat × Nat)} (h : InitialisedAt m a vs)
    (heq : ∀ x, a ≤ x → m' x = m x) : InitialisedAt m' a vs := by
  induction vs generalizing a with
  | nil => trivial
  | cons x vs ih =>
      refine ⟨?_, ih h.2 fun y hy => heq y (by omega)⟩
      rw [← h.1]
      exact Mem.read_congr fun y h1 _ => heq y h1

theorem initialisedAt_storeAll (m : Mem) (a : Nat) {vs : List (Nat × Nat)} (hvs : ∀ x ∈ vs, x.2 < 256 ^ x.1) :
    InitialisedAt (storeAll m a vs) a vs := by
  induction vs generalizing a with
  | nil => trivial
  | cons x vs ih =>
      refine ⟨?_, (ih (a + x.1) fun y hy => hvs y (List.mem_cons_of_mem _ hy)).congr fun y hy => ?_⟩
      · exact (Mem.read_write _ _ _ _).trans (Nat.mod_eq_of_lt (hvs x List.mem_cons_self))
      · exact Mem.write_apply_of_not_mem _ _ (by omega)

/-- The tables at 0x1000, 0x3000 and 0x4000, the controllers in the middle of some other initialisation. -/
def exampleStatics : IntelStatics := ⟨0x1000, 0x3000, 0x4000, 0x10000⟩

def examplePic : Pic := ⟨.icw3, true, false, 0x70, 1, 0, 0⟩

def exampleIntel : Intel :=
  ⟨storeAll (fun _ => 0) 0x3000 kIntelGDTInit, (0, 0), (0, 0), ⟨examplePic, examplePic⟩, false⟩

theorem intelInitialize_spec_example :
    (∀ v < 256, (intelInitialize exampleStatics exampleIntel 0x8000).gate v =
        some (kernelGate (exampleStatics.kIntelIsrTable + 32 * v) gateIntr)) ∧
      (intelInitialize exampleStatics exampleIntel 0x8000).KernelCode kernelCs ∧
      (intelInitialize exampleStatics exampleIntel 0x8000).tssBase = exampleStatics.kIntelTSS ∧
      (intelInitialize exampleStatics exampleIntel 0x8000).mem.read64 (exampleStatics.kIntelTSS + tssRsp 0) =
        0x8000 % 2 ^ 64 ∧
      ∀ line v, (intelInitialize exampleStatics exampleIntel 0x8000).pics.Raises line v ↔ line = 1 ∧ v = 0x21 :=
  intelInitialize_spec ⟨by decide, by decide, by decide, by decide⟩ 0x8000
    (initialisedAt_storeAll (fun _ => 0) 0x3000 (by decide))

end Gewodsys.Cpu
