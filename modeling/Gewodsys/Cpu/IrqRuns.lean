import Gewodsys.Cpu.IrqHandler

/-!
# Runs of the interrupt code: dispatch and software interrupts

* `IrqOp` : the operations on the handler table; `irqRun` folds them over the state after
  `ApicInitializeInterrupts`;
* `irqHandler_run` : the dispatcher calls the handler last registered for its vector, enabled or not;
* `dispatch_correct_iff` : a delivered vector is dispatched as it should exactly when its interrupt is enabled or has
  no handler;
* `softwareIrqs_getElem` : the `i`-th software interrupt is `i + highest + 1` for `i < 223`, then `-1`;
* `software_irqs_ok_iff` : the interrupts handed out are usable exactly while at most `222 - highest` were asked for.
-/

namespace Gewodsys.Cpu
open Gewodsys.Machine

/-! ## Dispatch -/

inductive IrqOp where
  | register (irq : UInt8) (handler data : Nat)
  | enable (irq : UInt8)
  | disable (irq : UInt8)
deriving DecidableEq, Repr

def IrqOp.exec (s : Irq) : IrqOp → Irq
  | .register irq handler data => apicRegisterIrqHandler s irq handler data
  | .enable irq => (apicEnableInterrupt s irq).2
  | .disable irq => (apicDisableInterrupt s irq).2

/-- The state after `ApicInitializeInterrupts` and the operations `ops`. -/
def irqRun (apic : Apic) (ops : List IrqOp) : Irq :=
  ops.foldl IrqOp.exec (apicInitializeInterrupts (Irq.boot apic))

/-- `handler`, `data` is the last registration of `irq` in `ops`. -/
def LastRegistered (ops : List IrqOp) (irq : UInt8) (handler data : Nat) : Prop :=
  ∃ before after, ops = before ++ .register irq handler data :: after ∧
    ∀ h d, IrqOp.register irq h d ∉ after

/-- The last `ApicEnableInterrupt` of `irq` is later than its last registration and its last disabling. -/
def Enabled (ops : List IrqOp) (irq : UInt8) : Prop :=
  ∃ before after, ops = before ++ .enable irq :: after ∧
    IrqOp.disable irq ∉ after ∧ ∀ h d, IrqOp.register irq h d ∉ after

theorem append_singleton_inj {α : Type*} {xs ys : List α} {x y : α} (h : xs ++ [x] = ys ++ [y]) :
    xs = ys ∧ x = y := by
  obtain ⟨h1, h2⟩ := List.append_inj' h rfl
  exact ⟨h1, (List.cons.inj h2).1⟩

theorem lastRegistered_append_register (ops : List IrqOp) (irq i : UInt8) (handler data h d : Nat) :
    LastRegistered (ops ++ [.register i handler data]) irq h d ↔
      (i = irq ∧ handler = h ∧ data = d) ∨ (i ≠ irq ∧ LastRegistered ops irq h d) := by
  constructor
  · rintro ⟨before, after, he, hno⟩
    rcases List.eq_nil_or_concat after with rfl | ⟨init, last, rfl⟩
    · obtain ⟨-, hlast⟩ := append_singleton_inj he
      simp only [IrqOp.register.injEq] at hlast
      exact Or.inl hlast
    · rw [List.concat_eq_append, ← List.cons_append, ← List.append_assoc] at he
      obtain ⟨hops, hl⟩ := append_singleton_inj he
      refine Or.inr ⟨?_, before, init, hops, fun h' d' hmem => hno h' d' (by simp [hmem])⟩
      rintro rfl
      exact hno handler data (by simp [← hl])
  · rintro (⟨rfl, rfl, rfl⟩ | ⟨hne, before, after, rfl, hno⟩)
    · exact ⟨ops, [], rfl, by simp⟩
    · refine ⟨before, after ++ [.register i handler data], by simp, fun h' d' hmem => ?_⟩
      rcases List.mem_append.mp hmem with hmem | hmem
      · exact hno h' d' hmem
      · have := List.mem_singleton.mp hmem
        simp only [IrqOp.register.injEq] at this
        exact hne this.1.symm

theorem lastRegistered_append_other (ops : List IrqOp) (o : IrqOp) (ho : ∀ i h d, o ≠ .register i h d)
    (irq : UInt8) (h d : Nat) : LastRegistered (ops ++ [o]) irq h d ↔ LastRegistered ops irq h d := by
  constructor
  · rintro ⟨before, after, he, hno⟩
    rcases List.eq_nil_or_concat after with rfl | ⟨init, last, rfl⟩
    · obtain ⟨-, hlast⟩ := append_singleton_inj he
      exact absurd hlast (ho _ _ _)
    · rw [List.concat_eq_append, ← List.cons_append, ← List.append_assoc] at he
      obtain ⟨hops, -⟩ := append_singleton_inj he
      exact ⟨before, init, hops, fun h' d' hmem => hno h' d' (by simp [hmem])⟩
  · rintro ⟨before, after, rfl, hno⟩
    refine ⟨before, after ++ [o], by simp, fun h' d' hmem => ?_⟩
    rcases List.mem_append.mp hmem with hmem | hmem
    · exact hno h' d' hmem
    · exact ho _ _ _ (List.mem_singleton.mp hmem).symm

/-- The handler table of a run: the last registration of each interrupt, at its own vector. -/
structure TableOf (ops : List IrqOp) (s : Irq) : Prop where
  overrides : ∀ i, (s.kIrqIsaOverrides i).used = 0
  handlers : ∀ irq h d, h ≠ 0 →
    ((s.kIrqHandlers (irq + 32)).handler = h ∧ (s.kIrqHandlers (irq + 32)).data = d ↔ LastRegistered ops irq h d)

theorem tableOf_boot (apic : Apic) : TableOf [] (apicInitializeInterrupts (Irq.boot apic)) := by
  obtain ⟨hh, ho, -, -, -⟩ := apicInitializeInterrupts_spec (Irq.boot apic)
  refine ⟨fun i => by rw [ho]; rfl, fun irq h d hne => ?_⟩
  rw [hh]
  constructor
  · rintro ⟨h0, -⟩
    exact absurd h0.symm hne
  · rintro ⟨before, after, he, -⟩
    simp at he

theorem add32_inj {i j : UInt8} (h : i + 32 = j + 32) : i = j := by
  have := congrArg UInt8.toNat h
  rw [UInt8.toNat_add, UInt8.toNat_add] at this
  apply UInt8.toNat_inj.mp
  have hi := i.toNat_lt
  have hj := j.toNat_lt
  change (i.toNat + 32) % 2 ^ 8 = (j.toNat + 32) % 2 ^ 8 at this
  omega

theorem TableOf.setInterrupt {ops : List IrqOp} {s : Irq} (ht : TableOf ops s) (irq value : UInt8) (o : IrqOp)
    (ho : ∀ i h d, o ≠ .register i h d) : TableOf (ops ++ [o]) (apicSetInterrupt s irq value).2 := by
  obtain ⟨hover, hhand⟩ := apicSetInterrupt_snd s irq value
  refine ⟨fun i => by rw [hover]; exact ht.overrides i, fun i h d hne => ?_⟩
  rw [(hhand _).1, (hhand _).2, lastRegistered_append_other ops o ho]
  exact ht.handlers i h d hne

theorem TableOf.exec {ops : List IrqOp} {s : Irq} (ht : TableOf ops s) (o : IrqOp) :
    TableOf (ops ++ [o]) (o.exec s) := by
  cases o with
  | register irq handler data =>
      obtain ⟨hover, hhand⟩ := apicRegisterIrqHandler_eq s irq handler data ht.overrides
      refine ⟨fun i => ?_, fun i h d hne => ?_⟩
      · change ((apicRegisterIrqHandler s irq handler data).kIrqIsaOverrides i).used = 0
        rw [hover]
        exact ht.overrides i
      · change ((apicRegisterIrqHandler s irq handler data).kIrqHandlers (i + 32)).handler = h ∧
          ((apicRegisterIrqHandler s irq handler data).kIrqHandlers (i + 32)).data = d ↔ _
        rw [hhand, lastRegistered_append_register]
        by_cases hi : i = irq
        · subst hi
          rw [Function.update_self]
          simp
        · rw [Function.update_of_ne (fun he => hi (add32_inj he)), ht.handlers i h d hne]
          simp [Ne.symm hi]
  | enable irq => exact ht.setInterrupt irq 0 _ (by simp)
  | disable irq => exact ht.setInterrupt irq 1 _ (by simp)

theorem tableOf_run (apic : Apic) (ops : List IrqOp) : TableOf ops (irqRun apic ops) := by
  induction ops using List.reverseRecOn with
  | nil => exact tableOf_boot apic
  | append_singleton ops o ih =>
      unfold irqRun at ih ⊢
      rw [List.foldl_append]
      exact ih.exec o

/-- **The dispatcher calls the handler last registered for its vector**, whether the interrupt is enabled or not. -/
theorem irqHandler_run (apic : Apic) (ops : List IrqOp) (v : UInt8) (h d : Nat) (arg : UInt8) :
    (irqHandler (irqRun apic ops) v).1 = some ⟨h, arg, d⟩ ↔
      LastRegistered ops (v - 32) h d ∧ h ≠ 0 ∧ arg = v - 32 := by
  have ht := tableOf_run apic ops
  have hv : v - 32 + 32 = v := sub_add_cancel v 32
  have hcall : (irqHandler (irqRun apic ops) v).1 =
      if ((irqRun apic ops).kIrqHandlers v).handler ≠ 0 then
        some ⟨((irqRun apic ops).kIrqHandlers v).handler, v - 32, ((irqRun apic ops).kIrqHandlers v).data⟩
      else none := rfl
  rw [hcall]
  constructor
  · intro he
    split_ifs at he with hne
    simp only [Option.some.injEq, HandlerCall.mk.injEq] at he
    obtain ⟨rfl, rfl, rfl⟩ := he
    refine ⟨(ht.handlers _ _ _ hne).mp ?_, hne, rfl⟩
    rw [hv]
    exact ⟨rfl, rfl⟩
  · rintro ⟨hl, hne, rfl⟩
    have := (ht.handlers _ h d hne).mpr hl
    rw [hv] at this
    rw [if_pos (by rw [this.1]; exact hne), this.1, this.2]

/-- The vector `v` delivered after `ops` is dispatched as it should: the handler last registered for the interrupt
`v - 32` is called, with that number and its data, when the interrupt is enabled; no handler is called otherwise. -/
def DispatchCorrect (apic : Apic) (ops : List IrqOp) (v : UInt8) : Prop :=
  ∀ (h d : Nat) (arg : UInt8), (irqHandler (irqRun apic ops) v).1 = some ⟨h, arg, d⟩ ↔
    Enabled ops (v - 32) ∧ LastRegistered ops (v - 32) h d ∧ h ≠ 0 ∧ arg = v - 32

theorem DispatchCorrect.enabled {apic : Apic} {ops : List IrqOp} {v : UInt8} (hc : DispatchCorrect apic ops v)
    {h d : Nat} (hl : LastRegistered ops (v - 32) h d) (hne : h ≠ 0) : Enabled ops (v - 32) :=
  ((hc h d (v - 32)).mp ((irqHandler_run apic ops v h d (v - 32)).mpr ⟨hl, hne, rfl⟩)).1

/-- **Dispatch is correct exactly for an interrupt that is enabled or has no handler**: the `ignored` flag is never
read. -/
theorem dispatch_correct_iff (apic : Apic) (ops : List IrqOp) (v : UInt8) :
    DispatchCorrect apic ops v ↔
      (Enabled ops (v - 32) ∨ ∀ h d, LastRegistered ops (v - 32) h d → h = 0) := by
  refine ⟨fun hc => ?_, fun hcond h d arg => ?_⟩
  · by_cases hnone : ∀ h d, LastRegistered ops (v - 32) h d → h = 0
    · exact Or.inr hnone
    · push Not at hnone
      obtain ⟨h, d, hl, hne⟩ := hnone
      exact Or.inl (hc.enabled hl hne)
  · rw [irqHandler_run]
    refine ⟨fun hcall => ?_, fun hcall => hcall.2⟩
    rcases hcond with hen | hnone
    · exact ⟨hen, hcall⟩
    · exact absurd (hnone h d hcall.1) hcall.2.1

/-- A software interrupt that was registered and never enabled is dispatched all the same. -/
theorem dispatch_ignores_disabled :
    ¬ DispatchCorrect ⟨[], fun _ => ⟨0, fun _ => 0⟩⟩ [.register 100 0x1000 7] 132 := by
  intro hc
  obtain ⟨before, after, he, -, -⟩ := hc.enabled ⟨[], [], rfl, by simp⟩ (by decide : 0x1000 ≠ 0)
  rcases before with _ | ⟨b, before⟩
  · simp at he
  · have := congrArg List.length he
    simp at this

/-! ## Software interrupts -/

theorem getBit_bitmapSetRange (bitmap : Mem) (lo hi j : Nat) :
    getBit (bitmapSetRange bitmap lo hi) 0 j = (decide (lo ≤ j ∧ j < hi) || getBit bitmap 0 j) := by
  have h : ∀ n lo (b : Mem), getBit ((List.range' lo n).foldl (fun b bm => setBit b 0 bm) b) 0 j =
      (decide (lo ≤ j ∧ j < lo + n) || getBit b 0 j) := by
    intro n
    induction n with
    | zero => intro lo b; simp
    | succ n ih =>
        intro lo b
        rw [List.range'_succ, List.foldl_cons, ih, getBit_setBit, ← Bool.or_assoc]
        congr 1
        rw [Bool.eq_iff_iff]
        simp only [Bool.or_eq_true, decide_eq_true_eq]
        omega
  rw [bitmapSetRange, h]
  congr 1
  exact decide_eq_decide.mpr (by omega)

/-- The results of `n` calls of `ApicAllocateSoftwareIrq`. -/
def softwareIrqs (s : Irq) : Nat → List Int
  | 0 => []
  | n + 1 => (apicAllocateSoftwareIrq s).1 :: softwareIrqs (apicAllocateSoftwareIrq s).2 n

/-- `k` software interrupts were handed out: the bits below `k` are set, and the reserved ones from 223 on. -/
def Allocated (k : Nat) (s : Irq) : Prop :=
  ∀ bm < 256, getBit s.kIrqSwBitmap 0 bm = decide (bm < k ∨ 223 ≤ bm)

theorem allocated_boot (apic : Apic) : Allocated 0 (apicInitializeInterrupts (Irq.boot apic)) := by
  intro bm hbm
  obtain ⟨-, -, -, hsw, -⟩ := apicInitializeInterrupts_spec (Irq.boot apic)
  have hzero : getBit (Irq.boot apic).kIrqSwBitmap 0 bm = false := by
    simp [getBit, Irq.boot]
  rw [hsw, getBit_setBit, getBit_bitmapSetRange, hzero, Bool.eq_iff_iff]
  simp only [Bool.or_eq_true, decide_eq_true_eq, Bool.false_eq_true, or_false]
  omega

theorem Allocated.step {k : Nat} {s : Irq} (h : Allocated k s) (hk : k < 223) :
    (apicAllocateSoftwareIrq s).1 = (k : Int) + s.kApicHighestIrq + 1 ∧
      (apicAllocateSoftwareIrq s).2.kApicHighestIrq = s.kApicHighestIrq ∧
      Allocated (k + 1) (apicAllocateSoftwareIrq s).2 := by
  have hfind : (List.range irqNumVectors).find? (fun bm => !getBit s.kIrqSwBitmap 0 bm) = some k := by
    rw [List.find?_range_eq_some]
    refine ⟨?_, List.mem_range.mpr (by unfold irqNumVectors; omega), fun j hj => ?_⟩
    · rw [h k (by omega)]
      simp [show ¬ 223 ≤ k by omega]
    · rw [h j (by omega)]
      simp [hj]
  rw [apicAllocateSoftwareIrq, hfind]
  refine ⟨rfl, rfl, fun bm hbm => ?_⟩
  change getBit (setBit s.kIrqSwBitmap 0 k) 0 bm = _
  rw [getBit_setBit, h bm hbm, Bool.eq_iff_iff]
  simp only [Bool.or_eq_true, decide_eq_true_eq]
  omega

theorem Allocated.full {k : Nat} {s : Irq} (h : Allocated k s) (hk : 223 ≤ k) :
    apicAllocateSoftwareIrq s = (-1, s) := by
  have hfind : (List.range irqNumVectors).find? (fun bm => !getBit s.kIrqSwBitmap 0 bm) = none := by
    rw [List.find?_range_eq_none]
    intro j hj
    rw [h j hj]
    simp
    omega
  rw [apicAllocateSoftwareIrq, hfind]

/-- The `i`-th software interrupt is `i + highest + 1`, as long as there is one. -/
theorem softwareIrqs_getElem? {k : Nat} {s : Irq} (h : Allocated k s) (n i : Nat) :
    (softwareIrqs s n)[i]? = if i < n then
      some (if k + i < 223 then ((k + i : Nat) : Int) + s.kApicHighestIrq + 1 else -1) else none := by
  induction n generalizing k s i with
  | zero => simp [softwareIrqs]
  | succ n ih =>
      rw [softwareIrqs]
      by_cases hk : k < 223
      · obtain ⟨hres, hhigh, hnext⟩ := h.step hk
        cases i with
        | zero => simp [hres, hk]
        | succ i =>
            rw [List.getElem?_cons_succ, ih hnext, hhigh]
            simp only [Nat.add_lt_add_iff_right, show k + 1 + i = k + (i + 1) by omega]
      · have hfull := h.full (by omega)
        cases i with
        | zero => simp [hfull, hk]
        | succ i =>
            rw [List.getElem?_cons_succ, hfull, ih h]
            simp only [Nat.add_lt_add_iff_right, show ¬ k + i < 223 by omega, show ¬ k + (i + 1) < 223 by omega,
              if_false]

/-- Every software interrupt of `n` calls is new, lies above the hardware interrupts, and has a vector of its own
below the IPI vector's. -/
def SoftwareIrqsOk (s : Irq) (n : Nat) : Prop :=
  ∀ (i : Nat) (r : Int), (softwareIrqs s n)[i]? = some r → 0 ≤ r →
    (∀ j < i, (softwareIrqs s n)[j]? ≠ some r) ∧ s.kApicHighestIrq < r ∧ r + 32 ≤ 255 ∧
      r + 32 ≠ (s.kIpiVector.toNat : Int)

/-- Call number `222 - highest` gets the interrupt whose vector is the IPI vector. -/
theorem not_softwareIrqsOk {s : Irq} (h : Allocated 0 s) (hipi : s.kIpiVector = 255) {n : Nat}
    (h0 : 0 ≤ s.kApicHighestIrq) (h222 : s.kApicHighestIrq ≤ 222) (hn : 222 - s.kApicHighestIrq < (n : Int)) :
    ¬ SoftwareIrqsOk s n := by
  intro hok
  obtain ⟨i, hi⟩ : ∃ i : Nat, (i : Int) = 222 - s.kApicHighestIrq := ⟨(222 - s.kApicHighestIrq).toNat, by omega⟩
  have hget := softwareIrqs_getElem? h n i
  rw [if_pos (by omega), Nat.zero_add, if_pos (by omega)] at hget
  obtain ⟨-, -, -, hne⟩ := hok i _ hget (by omega)
  apply hne
  rw [hipi]
  change (i : Int) + s.kApicHighestIrq + 1 + 32 = 255
  omega

theorem softwareIrqsOk_of_le {s : Irq} (h : Allocated 0 s) (hipi : s.kIpiVector = 255) {n : Nat}
    (h0 : 0 ≤ s.kApicHighestIrq) (hn : (n : Int) ≤ 222 - s.kApicHighestIrq) : SoftwareIrqsOk s n := by
  have hvalue : ∀ (i : Nat) r, (softwareIrqs s n)[i]? = some r → i < n ∧ r = (i : Int) + s.kApicHighestIrq + 1 := by
    intro i r hr
    rw [softwareIrqs_getElem? h n i] at hr
    split_ifs at hr with h1 h2
    · exact ⟨h1, by rw [← Option.some.inj hr, Nat.zero_add]⟩
    · omega
  intro i r hr _
  obtain ⟨hi, rfl⟩ := hvalue i r hr
  refine ⟨fun j hj hjr => ?_, by omega, by omega, ?_⟩
  · have := (hvalue j _ hjr).2
    omega
  · rw [hipi]
    change (i : Int) + s.kApicHighestIrq + 1 + 32 ≠ 255
    omega

/-- **The software interrupts are usable exactly while at most `222 - highest` were asked for.** -/
theorem software_irqs_ok_iff (apic : Apic) (h0 : 0 ≤ apicGetHighestIrq apic.kIoApics)
    (h222 : apicGetHighestIrq apic.kIoApics ≤ 222) (n : Nat) :
    SoftwareIrqsOk (apicInitializeInterrupts (Irq.boot apic)) n ↔
      (n : Int) ≤ 222 - apicGetHighestIrq apic.kIoApics := by
  obtain ⟨-, -, hhigh, -, hipi⟩ := apicInitializeInterrupts_spec (Irq.boot apic)
  have halloc := allocated_boot apic
  change _ = apicGetHighestIrq apic.kIoApics at hhigh
  rw [← hhigh] at h0 h222 ⊢
  refine ⟨fun hok => ?_, softwareIrqsOk_of_le halloc hipi h0⟩
  by_contra hn
  exact not_softwareIrqsOk halloc hipi h0 h222 (by omega) hok

/-- The IO APIC of a PC, whose highest interrupt is 23. -/
def pcApic : Apic :=
  ⟨[{ id := 0, maxRentry := 23, version := 0x20, gsiBase := 0, physAddr := 0xFEC00000, address := 0xFEC00000 }],
    fun _ => ⟨0, fun _ => 0⟩⟩

theorem software_irqs_ok_pc : SoftwareIrqsOk (apicInitializeInterrupts (Irq.boot pcApic)) 199 :=
  (software_irqs_ok_iff pcApic (by decide) (by decide) 199).mpr (by decide)

/-- On a PC the 200th software interrupt is 223, on the IPI vector. -/
theorem software_irq_200_is_ipi :
    0 ≤ apicGetHighestIrq pcApic.kIoApics ∧ apicGetHighestIrq pcApic.kIoApics ≤ 222 ∧
      ¬ SoftwareIrqsOk (apicInitializeInterrupts (Irq.boot pcApic)) 200 := by
  obtain ⟨-, -, hhigh, -, hipi⟩ := apicInitializeInterrupts_spec (Irq.boot pcApic)
  change _ = apicGetHighestIrq pcApic.kIoApics at hhigh
  have h23 : apicGetHighestIrq pcApic.kIoApics = 23 := by decide
  rw [h23] at hhigh ⊢
  exact ⟨by decide, by decide, not_softwareIrqsOk (allocated_boot pcApic) hipi (by rw [hhigh]; decide)
    (by rw [hhigh]; decide) (by rw [hhigh]; decide)⟩

end Gewodsys.Cpu
