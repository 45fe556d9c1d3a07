import Gewodsys.Cpu.IrqHandler

/-!
# Mask bits

`Masked regs j` : the mask bit of redirection entry `j` is set. A setter that assigns other fields, or 1 to `mask`, keeps
every mask bit set.

* `rentryAssign_masked` : one entry; `apicAssignRentry_masked` : one setter;
* `ApicOp` : registering a handler, setting a vector or a destination; `apicOps_masked` : no sequence of these clears a
  mask bit;
* `apicInitializeInterrupts_masked` : nor does the set-up of the interrupts.
-/

namespace Gewodsys.Cpu
open Gewodsys.Machine

def Masked (regs : Nat → BitVec 32) (j : Nat) : Prop := Rentry.mask.get (rentryOf regs j) = 1

/-- An assignment inside the entry that leaves `mask` alone or sets it. -/
def KeepsMask (p : Field × Nat) : Prop := p.1.lo + p.1.len ≤ 64 ∧ (Rentry.mask.Disjoint p.1 ∨ p = (Rentry.mask, 1))

theorem keepsMask_of_disjoint {f : Field} (hfit : f.lo + f.len ≤ 64) (h : Rentry.mask.Disjoint f) (v : Nat) :
    KeepsMask (f, v) := ⟨hfit, Or.inl h⟩

theorem get_mask_assign_of_keeps {fields : List (Field × Nat)} (h : ∀ p ∈ fields, KeepsMask p) {w : Nat}
    (hw : Rentry.mask.get w = 1) : Rentry.mask.get (Rentry.assign fields w) = 1 := by
  unfold Rentry.assign
  induction fields generalizing w with
  | nil => exact hw
  | cons p fields ih =>
      rw [List.forall_mem_cons] at h
      apply ih h.2
      rcases h.1.2 with hdisjoint | rfl
      · rw [Field.get_set_of_disjoint _ _ _ _ hdisjoint, hw]
      · rw [Field.get_set]
        rfl

theorem assign_lt {fields : List (Field × Nat)} (h : ∀ p ∈ fields, KeepsMask p) {w : Nat} (hw : w < 2 ^ 64) :
    Rentry.assign fields w < 2 ^ 64 := by
  unfold Rentry.assign
  induction fields generalizing w with
  | nil => exact hw
  | cons p fields ih =>
      rw [List.forall_mem_cons] at h
      exact ih h.2 (p.1.set_lt p.2 hw h.1.1)

theorem rentryOf_setRentryOf_of_ne (regs : Nat → BitVec 32) {i j : Nat} (h : i % 128 ≠ j % 128) (value : Nat) :
    rentryOf (setRentryOf regs i value) j = rentryOf regs j := by
  have hij : rentryIndex j ≠ rentryIndex i := fun e => h ((rentryIndex_eq_iff i j).mp e.symm)
  have h1 := ne_rentryIndex_succ i j
  have h2 := ne_rentryIndex_succ j i
  unfold rentryOf setRentryOf
  rw [Function.update_of_ne (by omega), Function.update_of_ne (by omega), Function.update_of_ne h2,
    Function.update_of_ne hij]

theorem masked_setRentryOf {regs : Nat → BitVec 32} {j : Nat} (hj : Masked regs j) (i : Nat) {value : Nat}
    (hlt : value < 2 ^ 64) (hvalue : Masked regs i → Rentry.mask.get value = 1) : Masked (setRentryOf regs i value) j := by
  unfold Masked at *
  by_cases hij : j % 128 = i % 128
  · rw [(setRentryOf_congr regs hij 0).2] at hj
    rw [(setRentryOf_congr _ hij 0).2, rentryOf_setRentryOf _ _ _ hlt]
    exact hvalue hj
  · rw [rentryOf_setRentryOf_of_ne regs (Ne.symm hij)]
    exact hj

/-! ## One entry -/

theorem rentryAssign_masked {fields : List (Field × Nat)} (hkeeps : ∀ p ∈ fields, KeepsMask p) {b : Bus} {x j : Nat}
    (h : Masked (b x).regs j) (address i : Nat) : Masked (rentryAssign b address i fields x).regs j := by
  by_cases hx : x = address
  · subst hx
    rw [rentryAssign_regs_self]
    apply masked_setRentryOf h
    · exact assign_lt hkeeps (rentryOf_lt _ _)
    · exact get_mask_assign_of_keeps hkeeps
  · rw [rentryAssign_regs_of_ne b hx]
    exact h

theorem apicAssignRentry_bus (s : Apic) (irq : UInt8) (fields : List (Field × Nat)) :
    (apicAssignRentry s irq fields).2.bus = s.bus ∨
      ∃ address, (apicAssignRentry s irq fields).2.bus = rentryAssign s.bus address irq.toNat fields := by
  unfold apicAssignRentry
  cases ioApicGetByIrq s.kIoApics irq with
  | none => exact Or.inl rfl
  | some a => exact Or.inr ⟨a.address, rfl⟩

theorem apicAssignRentry_masked {fields : List (Field × Nat)} (hkeeps : ∀ p ∈ fields, KeepsMask p) {s : Apic} {x j : Nat}
    (h : Masked (s.bus x).regs j) (irq : UInt8) : Masked ((apicAssignRentry s irq fields).2.bus x).regs j := by
  obtain hbus | ⟨address, hbus⟩ := apicAssignRentry_bus s irq fields
  · rw [hbus]
    exact h
  · rw [hbus]
    exact rentryAssign_masked hkeeps h address irq.toNat

/-! ## The setters -/

section
variable {s : Apic} {x j : Nat} (h : Masked (s.bus x).regs j)
include h

theorem apicSetIrqVector_masked (irq vector : UInt8) : Masked ((apicSetIrqVector s irq vector).2.bus x).regs j := by
  apply apicAssignRentry_masked _ h
  simp only [List.forall_mem_cons, List.not_mem_nil, false_imp_iff, implies_true, and_true]
  exact ⟨keepsMask_of_disjoint (by decide) (by decide) _, keepsMask_of_disjoint (by decide) (by decide) _⟩

theorem apicSetIrqDest_masked (irq mode dest : UInt8) : Masked ((apicSetIrqDest s irq mode dest).2.bus x).regs j := by
  apply apicAssignRentry_masked _ h
  simp only [List.forall_mem_cons, List.not_mem_nil, false_imp_iff, implies_true, and_true]
  exact ⟨keepsMask_of_disjoint (by decide) (by decide) _, keepsMask_of_disjoint (by decide) (by decide) _⟩

/-- `ApicSetIrqIsaRouting` masks the entry itself. -/
theorem apicSetIrqIsaRouting_masked (irq vector : UInt8) (flags : UInt16) :
    Masked ((apicSetIrqIsaRouting s irq vector flags).2.bus x).regs j := by
  have hpolarity : ∀ v, KeepsMask (Rentry.polarity, v) := keepsMask_of_disjoint (by decide) (by decide)
  have htrigger : ∀ v, KeepsMask (Rentry.triggerMode, v) := keepsMask_of_disjoint (by decide) (by decide)
  have hvector : ∀ v, KeepsMask (Rentry.vector, v) := keepsMask_of_disjoint (by decide) (by decide)
  have hmask : KeepsMask (Rentry.mask, 1) := ⟨by decide, Or.inr rfl⟩
  apply apicAssignRentry_masked _ h
  unfold isaRoutingFields
  simp only [List.forall_mem_append, List.forall_mem_cons, List.not_mem_nil, false_imp_iff, implies_true, and_true]
  refine ⟨⟨⟨hmask, hvector _⟩, ?_⟩, ?_⟩
  · split_ifs
    · simpa using hpolarity _
    · simpa using hpolarity _
    · simp
  · split_ifs
    · simpa using htrigger _
    · simpa using htrigger _
    · simp

end

/-! ## Runs -/

/-- The operations on interrupts that are not meant to unmask any. -/
inductive ApicOp where
  | register (irq : UInt8) (handler data : Nat)
  | setVector (irq vector : UInt8)
  | setDest (irq mode dest : UInt8)
deriving DecidableEq, Repr

def ApicOp.exec (s : Irq) : ApicOp → Irq
  | .register irq handler data => apicRegisterIrqHandler s irq handler data
  | .setVector irq vector => { s with apic := (apicSetIrqVector s.apic irq vector).2 }
  | .setDest irq mode dest => { s with apic := (apicSetIrqDest s.apic irq mode dest).2 }

section
variable {s : Irq} {x j : Nat} (h : Masked (s.apic.bus x).regs j)
include h

theorem apicIrqMapToVector_masked (irq : UInt8) : Masked ((apicIrqMapToVector s irq).2.apic.bus x).regs j := by
  unfold apicIrqMapToVector
  split_ifs
  · exact apicSetIrqIsaRouting_masked h _ _ _
  · exact apicSetIrqVector_masked h _ _
  · exact h

theorem ApicOp.exec_masked (op : ApicOp) : Masked ((op.exec s).apic.bus x).regs j := by
  cases op with
  | register irq handler data => exact apicIrqMapToVector_masked h irq
  | setVector irq vector => exact apicSetIrqVector_masked h irq vector
  | setDest irq mode dest => exact apicSetIrqDest_masked h irq mode dest

theorem apicRouteIsa_masked (irq : Nat) : Masked ((apicRouteIsa s irq).apic.bus x).regs j := by
  unfold apicRouteIsa
  split_ifs
  · exact apicSetIrqIsaRouting_masked h _ _ _
  · exact apicSetIrqVector_masked h _ _

end

/-- **No sequence of these calls clears a mask bit.** -/
theorem apicOps_masked {x j : Nat} (ops : List ApicOp) {s : Irq} (h : Masked (s.apic.bus x).regs j) :
    Masked ((ops.foldl ApicOp.exec s).apic.bus x).regs j := by
  induction ops generalizing s with
  | nil => exact h
  | cons op ops ih => exact ih (ApicOp.exec_masked h op)

theorem apicRoutes_masked {x j : Nat} (irqs : List Nat) {s : Irq} (h : Masked (s.apic.bus x).regs j) :
    Masked ((irqs.foldl apicRouteIsa s).apic.bus x).regs j := by
  induction irqs generalizing s with
  | nil => exact h
  | cons irq irqs ih => exact ih (apicRouteIsa_masked h irq)

/-- The IPI vector is no interrupt that `ApicEnableInterrupt` accepts: only the routes touch an IO APIC. -/
theorem apicInitializeInterrupts_apic (s : Irq) : ∃ t : Irq, t.apic = s.apic ∧
    (apicInitializeInterrupts s).apic = ((List.range irqNumIsa).foldl apicRouteIsa t).apic := by
  have hipi : UInt8.ofNat (irqNumVectors - 1) = 255 := by decide
  simp only [apicInitializeInterrupts, hipi, apicEnableInterrupt, apicSetInterrupt]
  rw [if_pos (by decide)]
  dsimp only
  refine ⟨_, ?_, rfl⟩
  dsimp only

theorem apicAssignRentry_kIoApics (s : Apic) (irq : UInt8) (fields : List (Field × Nat)) :
    (apicAssignRentry s irq fields).2.kIoApics = s.kIoApics := by
  unfold apicAssignRentry
  cases ioApicGetByIrq s.kIoApics irq with
  | none => rfl
  | some a => rfl

theorem apicRoutes_kIoApics (irqs : List Nat) (s : Irq) :
    (irqs.foldl apicRouteIsa s).apic.kIoApics = s.apic.kIoApics := by
  induction irqs generalizing s with
  | nil => rfl
  | cons irq irqs ih =>
      rw [List.foldl_cons, ih, apicRouteIsa]
      split_ifs
      · exact apicAssignRentry_kIoApics _ _ _
      · exact apicAssignRentry_kIoApics _ _ _

theorem apicInitializeInterrupts_kIoApics (s : Irq) : (apicInitializeInterrupts s).apic.kIoApics = s.apic.kIoApics := by
  obtain ⟨t, ht, hroutes⟩ := apicInitializeInterrupts_apic s
  rw [hroutes, apicRoutes_kIoApics, ht]

theorem apicInitializeInterrupts_masked {s : Irq} {x j : Nat} (h : Masked (s.apic.bus x).regs j) :
    Masked ((apicInitializeInterrupts s).apic.bus x).regs j := by
  obtain ⟨t, ht, hroutes⟩ := apicInitializeInterrupts_apic s
  rw [hroutes]
  rw [← ht] at h
  exact apicRoutes_masked _ h

end Gewodsys.Cpu
