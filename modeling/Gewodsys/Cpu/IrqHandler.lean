import Gewodsys.Cpu.Apic
import Gewodsys.Machine.Bitmap

/-!
# Interrupt dispatch (`cpu/irqhandler.c`)

* `irqHandler` : the dispatcher of vectors 32..255; it answers with the call it makes, if any;
* `apicInitializeInterrupts` : the set-up of the bit maps, the ISA vectors and the IPI vector;
* `apicEnableInterrupt`, `apicDisableInterrupt`, `apicRegisterIrqHandler`, `apicAllocateSoftwareIrq`;
* `kIrqHandlers_register` etc. : the handler of a vector after each operation.
-/

namespace Gewodsys.Cpu
open Gewodsys.Machine

def irqNumVectors : Nat := 256
def irqNumIsa : Nat := 16
def irqVectorBase : Nat := 32

structure IrqHandlerEntry where
  ignored : Nat
  type : Nat
  /-- A function pointer; 0 is the null pointer. -/
  handler : Nat
  data : Nat
deriving DecidableEq, Repr

structure IrqIsaOverride where
  used : Nat
  destIrq : UInt8
  flags : UInt16
deriving DecidableEq, Repr

/-- The static data of the interrupt code, and the IO APICs below it. -/
structure Irq where
  apic : Apic
  kIrqHandlers : UInt8 → IrqHandlerEntry
  kIrqIsaOverrides : Nat → IrqIsaOverride
  kApicHighestIrq : Int
  kIrqSwBitmap : Mem
  kIrqHwBitmap : Mem
  kIpiVector : UInt8
  /-- How often the local APIC's EOI register was written. -/
  eoi : Nat

/-- The call `kIrqHandlers[vector].handler(vector - IRQ_VECTOR_BASE, kIrqHandlers[vector].data)`. -/
structure HandlerCall where
  handler : Nat
  irq : UInt8
  data : Nat
deriving DecidableEq, Repr

def irqHandler (s : Irq) (vector : UInt8) : Option HandlerCall × Irq :=
  let s := { s with eoi := s.eoi + 1 }
  let entry := s.kIrqHandlers vector
  (if entry.handler ≠ 0 then some ⟨entry.handler, vector - 32, entry.data⟩ else none, s)

/-! ## Enabling and disabling -/

/-- `kIrqHandlers[vector].ignored = value`. -/
def Irq.setIgnored (s : Irq) (vector : UInt8) (value : Nat) : Irq :=
  { s with kIrqHandlers := Function.update s.kIrqHandlers vector { s.kIrqHandlers vector with ignored := value } }

/-- The common body of `ApicEnableInterrupt` (0) and `ApicDisableInterrupt` (1). -/
def apicSetInterrupt (s : Irq) (irq : UInt8) (value : UInt8) : Int × Irq :=
  if irq.toNat > irqNumVectors - irqVectorBase then (-1, s)
  else
    let vector := irq + 32
    let s := s.setIgnored vector value.toNat
    (0, if (irq.toNat : Int) ≤ s.kApicHighestIrq then { s with apic := (apicSetIrqMask s.apic irq value).2 } else s)

def apicEnableInterrupt (s : Irq) (irq : UInt8) : Int × Irq := apicSetInterrupt s irq 0

def apicDisableInterrupt (s : Irq) (irq : UInt8) : Int × Irq := apicSetInterrupt s irq 1

/-! ## Registering -/

def apicIrqMapToVector (s : Irq) (irq : UInt8) : UInt8 × Irq :=
  if (irq.toNat : Int) ≤ s.kApicHighestIrq then
    if irq.toNat < irqNumIsa ∧ (s.kIrqIsaOverrides irq.toNat).used ≠ 0 then
      let vector := (s.kIrqIsaOverrides irq.toNat).destIrq + 32
      let flags := (s.kIrqIsaOverrides irq.toNat).flags
      (vector, { s with apic := (apicSetIrqIsaRouting s.apic irq vector flags).2 })
    else (irq + 32, { s with apic := (apicSetIrqVector s.apic irq (irq + 32)).2 })
  else (irq + 32, s)

def apicRegisterIrqHandler (s : Irq) (irq : UInt8) (handler data : Nat) : Irq :=
  let (vector, s) := apicIrqMapToVector s irq
  { s with kIrqHandlers := Function.update s.kIrqHandlers vector ⟨1, 1, handler, data⟩ }

/-! ## Set-up and software interrupts -/

/-- `for (bm = lo; bm < hi; bm++) BITMAP_SET(bm)`. -/
def bitmapSetRange (bitmap : Mem) (lo hi : Nat) : Mem :=
  (List.range' lo (hi - lo)).foldl (fun b bm => setBit b 0 bm) bitmap

/-- Route ISA interrupt `irq`: its override, or its own vector. -/
def apicRouteIsa (s : Irq) (irq : Nat) : Irq :=
  if (s.kIrqIsaOverrides irq).used ≠ 0 then
    let vector := (s.kIrqIsaOverrides irq).destIrq + 32
    let flags := (s.kIrqIsaOverrides irq).flags
    { s with apic := (apicSetIrqIsaRouting s.apic (UInt8.ofNat irq) vector flags).2 }
  else { s with apic := (apicSetIrqVector s.apic (UInt8.ofNat irq) (UInt8.ofNat irq + 32)).2 }

def apicInitializeInterrupts (s : Irq) : Irq :=
  let s := { s with kApicHighestIrq := apicGetHighestIrq s.apic.kIoApics }
  let s := { s with kIrqSwBitmap := bitmapSetRange s.kIrqSwBitmap (irqNumVectors - irqVectorBase) irqNumVectors }
  let s := { s with kIrqHwBitmap := bitmapSetRange s.kIrqHwBitmap (irqNumVectors - irqVectorBase) irqNumVectors }
  let s := { s with kIrqHwBitmap := bitmapSetRange s.kIrqHwBitmap 0 irqNumIsa }
  -- mask out all but the highest IRQ
  let hw := bitmapSetRange s.kIrqHwBitmap (s.kApicHighestIrq + 1).toNat (irqNumVectors - irqVectorBase + 1)
  let s := { s with kIrqHwBitmap := hw }
  let s := (List.range irqNumIsa).foldl apicRouteIsa s
  let s := { s with kIpiVector := UInt8.ofNat (irqNumVectors - 1) }
  let s := { s with kIrqSwBitmap := setBit s.kIrqSwBitmap 0 (s.kIpiVector.toNat - irqVectorBase) }
  (apicEnableInterrupt s s.kIpiVector).2

/-- The first clear bit of the bit map, shifted past the hardware interrupts. -/
def apicAllocateSoftwareIrq (s : Irq) : Int × Irq :=
  match (List.range irqNumVectors).find? (fun bm => !getBit s.kIrqSwBitmap 0 bm) with
  | some bm => ((bm : Int) + s.kApicHighestIrq + 1, { s with kIrqSwBitmap := setBit s.kIrqSwBitmap 0 bm })
  | none => (-1, s)

/-- The statics at boot: everything zero. Nothing in the kernel writes `kIrqIsaOverrides`. -/
def Irq.boot (apic : Apic) : Irq :=
  { apic := apic
    kIrqHandlers := fun _ => ⟨0, 0, 0, 0⟩
    kIrqIsaOverrides := fun _ => ⟨0, 0, 0⟩
    kApicHighestIrq := 0
    kIrqSwBitmap := fun _ => 0
    kIrqHwBitmap := fun _ => 0
    kIpiVector := 0
    eoi := 0 }

/-! ## What the operations do to the tables -/

theorem apicSetInterrupt_snd (s : Irq) (irq value : UInt8) :
    (apicSetInterrupt s irq value).2.kIrqIsaOverrides = s.kIrqIsaOverrides ∧
      ∀ v, ((apicSetInterrupt s irq value).2.kIrqHandlers v).handler = (s.kIrqHandlers v).handler ∧
        ((apicSetInterrupt s irq value).2.kIrqHandlers v).data = (s.kIrqHandlers v).data := by
  have hignored : ∀ v, (Function.update s.kIrqHandlers (irq + 32)
      { s.kIrqHandlers (irq + 32) with ignored := value.toNat } v).handler = (s.kIrqHandlers v).handler ∧
      (Function.update s.kIrqHandlers (irq + 32)
        { s.kIrqHandlers (irq + 32) with ignored := value.toNat } v).data = (s.kIrqHandlers v).data := by
    intro v
    by_cases hv : v = irq + 32
    · subst hv
      simp only [Function.update_self, and_self]
    · simp only [Function.update_of_ne hv, and_self]
  unfold apicSetInterrupt
  by_cases h1 : irq.toNat > irqNumVectors - irqVectorBase
  · rw [if_pos h1]
    exact ⟨rfl, fun v => ⟨rfl, rfl⟩⟩
  · rw [if_neg h1]
    by_cases h2 : (irq.toNat : Int) ≤ s.kApicHighestIrq
    · simp only [Irq.setIgnored, h2, if_true]
      exact ⟨trivial, hignored⟩
    · simp only [Irq.setIgnored, h2, if_false]
      exact ⟨trivial, hignored⟩

/-- Without ISA overrides every interrupt keeps its own vector. -/
theorem apicIrqMapToVector_eq (s : Irq) (irq : UInt8) (h : ∀ i, (s.kIrqIsaOverrides i).used = 0) :
    ∃ apic, apicIrqMapToVector s irq = (irq + 32, { s with apic := apic }) := by
  unfold apicIrqMapToVector
  split_ifs with h1 h2
  · exact absurd (h _) h2.2
  · exact ⟨_, rfl⟩
  · exact ⟨s.apic, rfl⟩

theorem apicRegisterIrqHandler_eq (s : Irq) (irq : UInt8) (handler data : Nat)
    (h : ∀ i, (s.kIrqIsaOverrides i).used = 0) :
    (apicRegisterIrqHandler s irq handler data).kIrqIsaOverrides = s.kIrqIsaOverrides ∧
      (apicRegisterIrqHandler s irq handler data).kIrqHandlers =
        Function.update s.kIrqHandlers (irq + 32) ⟨1, 1, handler, data⟩ := by
  obtain ⟨apic, he⟩ := apicIrqMapToVector_eq s irq h
  rw [apicRegisterIrqHandler, he]
  exact ⟨rfl, rfl⟩

theorem apicRegisterIrqHandler_kept (s : Irq) (irq : UInt8) (handler data : Nat) :
    (apicRegisterIrqHandler s irq handler data).kIrqIsaOverrides = s.kIrqIsaOverrides ∧
      (apicRegisterIrqHandler s irq handler data).kIrqSwBitmap = s.kIrqSwBitmap := by
  have hmap : (apicIrqMapToVector s irq).2.kIrqIsaOverrides = s.kIrqIsaOverrides ∧
      (apicIrqMapToVector s irq).2.kIrqSwBitmap = s.kIrqSwBitmap := by
    unfold apicIrqMapToVector
    split_ifs
    · exact ⟨rfl, rfl⟩
    · exact ⟨rfl, rfl⟩
    · exact ⟨rfl, rfl⟩
  exact hmap

theorem apicSetInterrupt_kIrqSwBitmap (s : Irq) (irq value : UInt8) :
    (apicSetInterrupt s irq value).2.kIrqSwBitmap = s.kIrqSwBitmap := by
  unfold apicSetInterrupt
  split_ifs
  · rfl
  · simp only
    split_ifs
    · rfl
    · rfl

theorem foldl_apicRouteIsa (irqs : List Nat) (s : Irq) :
    irqs.foldl apicRouteIsa s = { s with apic := (irqs.foldl apicRouteIsa s).apic } := by
  induction irqs generalizing s with
  | nil => rfl
  | cons irq irqs ih =>
      have hone : apicRouteIsa s irq = { s with apic := (apicRouteIsa s irq).apic } := by
        unfold apicRouteIsa
        split_ifs <;> rfl
      rw [List.foldl_cons, ih, hone]

/-- The state after set-up. The IPI vector itself is out of range for `ApicEnableInterrupt`, which does nothing. -/
theorem apicInitializeInterrupts_spec (s : Irq) :
    (apicInitializeInterrupts s).kIrqHandlers = s.kIrqHandlers ∧
      (apicInitializeInterrupts s).kIrqIsaOverrides = s.kIrqIsaOverrides ∧
      (apicInitializeInterrupts s).kApicHighestIrq = apicGetHighestIrq s.apic.kIoApics ∧
      (apicInitializeInterrupts s).kIrqSwBitmap = setBit (bitmapSetRange s.kIrqSwBitmap 224 256) 0 223 ∧
      (apicInitializeInterrupts s).kIpiVector = 255 := by
  have hipi : UInt8.ofNat (irqNumVectors - 1) = 255 := by decide
  simp only [apicInitializeInterrupts]
  rw [foldl_apicRouteIsa]
  simp only [hipi, apicEnableInterrupt, apicSetInterrupt]
  rw [if_pos (by decide)]
  exact ⟨rfl, rfl, rfl, rfl, rfl⟩

end Gewodsys.Cpu
