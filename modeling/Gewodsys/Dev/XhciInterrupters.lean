import Gewodsys.Lib.Memory
import Gewodsys.Dev.Xhci

/-!
# Runs of `XhciInterrupterCreate`

* `XhciRun` : the state with the interrupters returned so far and the bitmap bytes touched; `xhciStep` : a call, what
  other drivers do to the interrupt code, and whatever the device and the rest of the heap do;
* `InterrupterInv` : after `n` calls the first `n` bits of the allocated bytes are set, and every call that could took a
  software interrupt; `interrupterInv_run`;
* `interrupters_iff` : the interrupters are told apart and the bitmap stays inside its allocation exactly while the
  allocation, `interrupter_bitmap_size / 8` bytes, has a bit for every call.
-/

namespace Gewodsys.Dev
open Gewodsys.Machine Gewodsys.Cpu Gewodsys.Lib

/-! ## Steps -/

/-- The device as `XhciInitialize` sets it up from the capability register `hcs_params1`. -/
def xhciSetUp (pci : PciDevice) (mmio : Nat) (hcsParams1 : UInt32) : XhciDevice :=
  ⟨pci, mmio, (hcsParams1.toNat >>> 8) &&& 0x7FF⟩

/-- The bytes allocated and zeroed for the bitmap. -/
def XhciDevice.bitmapBytes (x : XhciDevice) : Nat := x.interrupterBitmapSize / 8

/-- The bytes of the bitmap that the search of one call reads and then writes. -/
def bitmapTouched (x : XhciDevice) (s : Xhci) : List Nat :=
  match freeInterrupter x s with
  | some i => (List.range (i + 1)).map (· / 8) ++ [i / 8]
  | none => (List.range x.interrupterBitmapSize).map (· / 8)

/-- The state, the interrupters returned with the position set for each, and the bitmap bytes touched. -/
structure XhciRun where
  state : Xhci
  returned : List (XhciInterrupter × Nat)
  touched : List Nat

inductive XhciOp where
  | create (c : CreateCall)
  | allocate
  | irq (op : IrqOp)
  /-- The device and its configuration space change, and so do the bytes behind the bitmap. -/
  | world (ports : PciPorts) (bar0 bytes : Mem)

/-- What a call adds to the list of interrupters. -/
def newInterrupter (x : XhciDevice) (s : Xhci) (result : Option XhciInterrupter) : List (XhciInterrupter × Nat) :=
  match result, freeInterrupter x s with
  | some interrupter, some i => [(interrupter, i)]
  | _, _ => []

def xhciStep (x : XhciDevice) (r : XhciRun) : XhciOp → Option XhciRun
  | .create c =>
      (xhciInterrupterCreate x c r.state).map fun p =>
        ⟨p.2, r.returned ++ newInterrupter x r.state p.1, r.touched ++ bitmapTouched x r.state⟩
  | .allocate => some { r with state := { r.state with irq := (apicAllocateSoftwareIrq r.state.irq).2 } }
  | .irq op => some { r with state := { r.state with irq := op.exec r.state.irq } }
  | .world ports bar0 bytes =>
      let bitmap := fun j => if j < x.bitmapBytes then r.state.interrupterBitmap j else bytes j
      some { r with state := { r.state with ports := ports, bar0 := bar0, interrupterBitmap := bitmap } }

/-- The state in which `XhciInitialize` makes its call, the interrupt code set up before it. -/
def xhciStart (x : XhciDevice) (apic : Apic) (ports : PciPorts) (bar0 bytes : Mem) : XhciRun :=
  ⟨⟨apicInitializeInterrupts (Irq.boot apic), ports, rtZeroMemory bytes 0 x.bitmapBytes, bar0⟩, [], []⟩

/-- The number of calls among the operations. -/
def creates (ops : List XhciOp) : Nat := ops.countP fun op => match op with | .create _ => true | _ => false

/-! ## The invariant -/

/-- The bitmap and the software interrupts after `n` calls. -/
structure InterrupterInv (x : XhciDevice) (n : Nat) (s : Xhci) : Prop where
  bits : ∀ j < 8 * x.bitmapBytes, getBit s.interrupterBitmap 0 j = decide (j < n)
  overrides : ∀ i, (s.irq.kIrqIsaOverrides i).used = 0
  allocated : ∃ k, Allocated k s.irq ∧ (min n (8 * x.bitmapBytes) ≤ k ∨ 223 ≤ k)

theorem interrupterInv_start (x : XhciDevice) (apic : Apic) (ports : PciPorts) (bar0 bytes : Mem) :
    InterrupterInv x 0 (xhciStart x apic ports bar0 bytes).state where
  bits := by
    intro j hj
    have hbyte : rtZeroMemory bytes 0 x.bitmapBytes (0 + j / 8) = 0 := by
      rw [rtZeroMemory_apply, if_pos (by omega)]
    change (rtZeroMemory bytes 0 x.bitmapBytes (0 + j / 8) &&& bitMask j != 0#8) = _
    rw [hbyte]
    simp
  overrides := by
    intro i
    obtain ⟨-, hover, -⟩ := apicInitializeInterrupts_spec (Irq.boot apic)
    change ((apicInitializeInterrupts (Irq.boot apic)).kIrqIsaOverrides i).used = 0
    rw [hover]
    rfl
  allocated := ⟨0, allocated_boot apic, Or.inl (by simp)⟩

theorem allocated_next {k : Nat} {s : Irq} (h : Allocated k s) :
    ∃ k', Allocated k' (apicAllocateSoftwareIrq s).2 ∧ (k' = k + 1 ∨ k' = k ∧ 223 ≤ k) := by
  rcases Nat.lt_or_ge k 223 with hlt | hge
  · exact ⟨k + 1, (h.step hlt).2.2, Or.inl rfl⟩
  · refine ⟨k, ?_, Or.inr ⟨rfl, hge⟩⟩
    rw [h.full hge]
    exact h

theorem apicAllocateSoftwareIrq_overrides (s : Irq) :
    (apicAllocateSoftwareIrq s).2.kIrqIsaOverrides = s.kIrqIsaOverrides := by
  unfold apicAllocateSoftwareIrq
  split <;> rfl

theorem irqOp_kept (s : Irq) (op : IrqOp) :
    (op.exec s).kIrqIsaOverrides = s.kIrqIsaOverrides ∧ (op.exec s).kIrqSwBitmap = s.kIrqSwBitmap := by
  cases op with
  | register irq handler data => exact apicRegisterIrqHandler_kept s irq handler data
  | enable irq => exact ⟨(apicSetInterrupt_snd s irq 0).1, apicSetInterrupt_kIrqSwBitmap s irq 0⟩
  | disable irq => exact ⟨(apicSetInterrupt_snd s irq 1).1, apicSetInterrupt_kIrqSwBitmap s irq 1⟩

/-- Registering and enabling the software interrupt leave the bit map to the allocation. -/
theorem irqAfter_kept (s : Irq) (handler data : Nat) :
    (irqAfter s handler data).kIrqIsaOverrides = s.kIrqIsaOverrides ∧
      (irqAfter s handler data).kIrqSwBitmap = (apicAllocateSoftwareIrq s).2.kIrqSwBitmap := by
  obtain ⟨h1, h2⟩ := irqOp_kept (apicAllocateSoftwareIrq s).2 (.register (toByte (apicAllocateSoftwareIrq s).1) handler data)
  obtain ⟨h3, h4⟩ := irqOp_kept (apicRegisterIrqHandler (apicAllocateSoftwareIrq s).2
    (toByte (apicAllocateSoftwareIrq s).1) handler data) (.enable (toByte (apicAllocateSoftwareIrq s).1))
  exact ⟨h3.trans (h1.trans (apicAllocateSoftwareIrq_overrides s)), h4.trans h2⟩

theorem allocated_congr {k : Nat} {s s' : Irq} (h : Allocated k s) (hsw : s'.kIrqSwBitmap = s.kIrqSwBitmap) :
    Allocated k s' := by
  intro bm hbm
  rw [hsw]
  exact h bm hbm

section
variable {x : XhciDevice} {n : Nat} {s : Xhci}

theorem bitmapBytes_le (x : XhciDevice) : 8 * x.bitmapBytes ≤ x.interrupterBitmapSize := by
  unfold XhciDevice.bitmapBytes
  omega

/-- The search of call number `n + 1`: bit `n`, as long as that is inside the allocation. -/
theorem InterrupterInv.free (h : InterrupterInv x n s) :
    (n < 8 * x.bitmapBytes ∧ freeInterrupter x s = some n) ∨
    (8 * x.bitmapBytes ≤ n ∧ (freeInterrupter x s = none ∨
      ∃ i, freeInterrupter x s = some i ∧ 8 * x.bitmapBytes ≤ i ∧ i < x.interrupterBitmapSize)) := by
  have hle := bitmapBytes_le x
  rcases Nat.lt_or_ge n (8 * x.bitmapBytes) with hlt | hge
  · refine Or.inl ⟨hlt, freeInterrupter_eq_some.mpr ⟨?_, by omega, ?_⟩⟩
    · rw [h.bits n hlt]
      simp
    · intro j hj
      rw [h.bits j (by omega)]
      simpa using hj
  · refine Or.inr ⟨hge, ?_⟩
    cases hfree : freeInterrupter x s with
    | none => exact Or.inl rfl
    | some i =>
        obtain ⟨hclear, hi, -⟩ := freeInterrupter_eq_some.mp hfree
        refine Or.inr ⟨i, rfl, ?_, hi⟩
        by_contra hin
        rw [h.bits i (by omega)] at hclear
        simp at hclear
        omega

theorem InterrupterInv.position (h : InterrupterInv x n s) {i : Nat} (hfree : freeInterrupter x s = some i) :
    i < x.interrupterBitmapSize ∧ (n < 8 * x.bitmapBytes ∧ i = n ∨ 8 * x.bitmapBytes ≤ n ∧ 8 * x.bitmapBytes ≤ i) := by
  have hlt := (freeInterrupter_eq_some.mp hfree).2.1
  refine ⟨hlt, ?_⟩
  rcases h.free with ⟨hn, hsome⟩ | ⟨hn, hnone | ⟨i', hsome, hi', -⟩⟩
  · exact Or.inl ⟨hn, Option.some.inj (hfree.symm.trans hsome)⟩
  · exact absurd (hfree.symm.trans hnone) (by simp)
  · rw [Option.some.inj (hfree.symm.trans hsome)]
    exact Or.inr ⟨hn, hi'⟩

/-- With an interrupt at hand, the position fits in the field `index`: every earlier call took an interrupt too. -/
theorem InterrupterInv.position_lt (h : InterrupterInv x n s) {i : Nat} (hfree : freeInterrupter x s = some i)
    (hirq : (apicAllocateSoftwareIrq s.irq).1 ≠ -1) : i < 256 := by
  obtain ⟨k, hk, hn⟩ := h.allocated
  have hroom : k < 223 := by
    by_contra hfull
    exact hirq (by rw [hk.full (by omega)])
  have hpos := h.position hfree
  unfold XhciDevice.bitmapBytes at *
  omega

theorem InterrupterInv.bits_set (h : InterrupterInv x n s) {i : Nat} (hfree : freeInterrupter x s = some i) :
    ∀ j < 8 * x.bitmapBytes, getBit (setBit s.interrupterBitmap 0 i) 0 j = decide (j < n + 1) := by
  intro j hj
  have hpos := (h.position hfree).2
  rw [getBit_setBit, h.bits j hj, ← Bool.decide_or]
  exact decide_eq_decide.mpr (by omega)

theorem InterrupterInv.allocated_set (h : InterrupterInv x n s) {irq : Irq}
    (hsw : irq.kIrqSwBitmap = (apicAllocateSoftwareIrq s.irq).2.kIrqSwBitmap) :
    ∃ k, Allocated k irq ∧ (min (n + 1) (8 * x.bitmapBytes) ≤ k ∨ 223 ≤ k) := by
  obtain ⟨k, hk, hn⟩ := h.allocated
  obtain ⟨k', hk', hnext⟩ := allocated_next hk
  exact ⟨k', allocated_congr hk' hsw, by omega⟩

theorem InterrupterInv.create (h : InterrupterInv x n s) {c : CreateCall} {result : Option XhciInterrupter} {s' : Xhci}
    (hout : CreateOutcome x c s result s') : InterrupterInv x (n + 1) s' := by
  have hafter : ∀ {i ports bar0}, freeInterrupter x s = some i →
      InterrupterInv x (n + 1) (afterIrq c s i ports bar0) := by
    intro i ports bar0 hfree
    obtain ⟨hover, hsw⟩ := irqAfter_kept s.irq c.handler c.data
    refine ⟨h.bits_set hfree, ?_, h.allocated_set hsw⟩
    intro i
    change ((irqAfter s.irq c.handler c.data).kIrqIsaOverrides i).used = 0
    rw [hover]
    exact h.overrides i
  cases hout with
  | noInterrupter hfree =>
      have hn : 8 * x.bitmapBytes ≤ n := by
        rcases h.free with ⟨-, hsome⟩ | ⟨hn, -⟩
        · exact absurd (hfree.symm.trans hsome) (by simp)
        · exact hn
      obtain ⟨k, hk, hbound⟩ := h.allocated
      refine ⟨?_, h.overrides, k, hk, by omega⟩
      intro j hj
      rw [h.bits j hj]
      exact decide_eq_decide.mpr (by omega)
  | noIrq hfree hirq =>
      refine ⟨h.bits_set hfree, ?_, h.allocated_set rfl⟩
      intro i
      change ((apicAllocateSoftwareIrq s.irq).2.kIrqIsaOverrides i).used = 0
      rw [apicAllocateSoftwareIrq_overrides]
      exact h.overrides i
  | noMsix hfree hirq search hsearch => exact hafter hfree
  | created hfree hirq hsearch hraw => exact hafter hfree

end

theorem InterrupterInv.other {x : XhciDevice} {n : Nat} {r r' : XhciRun} (h : InterrupterInv x n r.state) {op : XhciOp}
    (hop : ∀ c, op ≠ .create c) (hstep : xhciStep x r op = some r') :
    InterrupterInv x n r'.state ∧ r'.returned = r.returned ∧ r'.touched = r.touched := by
  cases op with
  | create c => exact absurd rfl (hop c)
  | allocate =>
      rw [← Option.some.inj hstep]
      obtain ⟨k, hk, hn⟩ := h.allocated
      obtain ⟨k', hk', hnext⟩ := allocated_next hk
      refine ⟨⟨h.bits, ?_, k', hk', by omega⟩, rfl, rfl⟩
      intro i
      change ((apicAllocateSoftwareIrq r.state.irq).2.kIrqIsaOverrides i).used = 0
      rw [apicAllocateSoftwareIrq_overrides]
      exact h.overrides i
  | irq op =>
      rw [← Option.some.inj hstep]
      obtain ⟨hover, hsw⟩ := irqOp_kept r.state.irq op
      obtain ⟨k, hk, hn⟩ := h.allocated
      refine ⟨⟨h.bits, ?_, k, allocated_congr hk hsw, hn⟩, rfl, rfl⟩
      intro i
      change ((op.exec r.state.irq).kIrqIsaOverrides i).used = 0
      rw [hover]
      exact h.overrides i
  | world ports bar0 bytes =>
      rw [← Option.some.inj hstep]
      refine ⟨⟨?_, h.overrides, h.allocated⟩, rfl, rfl⟩
      intro j hj
      rw [← h.bits j hj]
      apply getBit_congr
      change (if 0 + j / 8 < x.bitmapBytes then _ else _) = _
      rw [if_pos (by omega)]

/-! ## Every run -/

/-- The allocation has a bit for each of `n` calls, or for each interrupter. -/
def BitmapFits (x : XhciDevice) (n : Nat) : Prop := x.interrupterBitmapSize % 8 = 0 ∨ n ≤ 8 * x.bitmapBytes

/-- What is known of a run after `n` calls. -/
structure InterrupterRun (x : XhciDevice) (n : Nat) (r : XhciRun) : Prop where
  inv : InterrupterInv x n r.state
  position : ∀ p ∈ r.returned, p.1.index.toNat = p.2 ∧ p.2 < x.interrupterBitmapSize
  inside : BitmapFits x n → (∀ p ∈ r.returned, p.2 < n) ∧ (r.returned.map (·.1.index)).Nodup ∧
    ∀ t ∈ r.touched, t < x.bitmapBytes
  outside : ¬ BitmapFits x n → ∃ t ∈ r.touched, x.bitmapBytes ≤ t

section
variable {x : XhciDevice} {n : Nat} {s : Xhci}

theorem bitmapTouched_inside (h : InterrupterInv x n s) (hfits : BitmapFits x (n + 1)) :
    ∀ t ∈ bitmapTouched x s, t < x.bitmapBytes := by
  intro t ht
  have hle := bitmapBytes_le x
  unfold BitmapFits at hfits
  rcases h.free with ⟨hn, hfree⟩ | ⟨hn, hfree | ⟨i, hfree, hi, hlt⟩⟩
  · rw [bitmapTouched, hfree] at ht
    simp only [List.mem_append, List.mem_map, List.mem_range, List.mem_singleton] at ht
    rcases ht with ⟨i, hi, rfl⟩ | rfl
    · omega
    · omega
  · rw [bitmapTouched, hfree] at ht
    simp only [List.mem_map, List.mem_range] at ht
    obtain ⟨i, hi, rfl⟩ := ht
    unfold XhciDevice.bitmapBytes at *
    omega
  · unfold XhciDevice.bitmapBytes at *
    omega

theorem bitmapTouched_outside (h : InterrupterInv x n s) (hlast : ¬ BitmapFits x (n + 1)) :
    ∃ t ∈ bitmapTouched x s, x.bitmapBytes ≤ t := by
  have hle := bitmapBytes_le x
  unfold BitmapFits at hlast
  rcases h.free with ⟨hn, hfree⟩ | ⟨hn, hfree | ⟨i, hfree, hi, hlt⟩⟩
  · omega
  · refine ⟨8 * x.bitmapBytes / 8, ?_, by omega⟩
    rw [bitmapTouched, hfree]
    refine List.mem_map.mpr ⟨8 * x.bitmapBytes, List.mem_range.mpr ?_, rfl⟩
    unfold XhciDevice.bitmapBytes at *
    omega
  · refine ⟨i / 8, ?_, by omega⟩
    rw [bitmapTouched, hfree]
    exact List.mem_append_right _ (List.mem_singleton.mpr rfl)

theorem newInterrupter_mem (h : InterrupterInv x n s) {c : CreateCall} {result : Option XhciInterrupter} {s' : Xhci}
    (hout : CreateOutcome x c s result s') {p : XhciInterrupter × Nat} (hp : p ∈ newInterrupter x s result) :
    newInterrupter x s result = [p] ∧ freeInterrupter x s = some p.2 ∧ p.1.index.toNat = p.2 := by
  have hnone : newInterrupter x s none = [] := rfl
  cases hout with
  | noInterrupter hfree => exact absurd hp (by simp [hnone])
  | noIrq hfree hirq => exact absurd hp (by simp [hnone])
  | noMsix hfree hirq search hsearch => exact absurd hp (by simp [hnone])
  | created hfree hirq hsearch hraw =>
      have hlt := h.position_lt hfree hirq
      simp only [newInterrupter, hfree, List.mem_singleton] at hp ⊢
      rw [hp]
      exact ⟨rfl, rfl, UInt8.toNat_ofNat_of_lt' hlt⟩

theorem BitmapFits.of_succ (h : BitmapFits x (n + 1)) : BitmapFits x n := by
  unfold BitmapFits at *
  omega

theorem InterrupterRun.create {r : XhciRun} (h : InterrupterRun x n r) {c : CreateCall} {result : Option XhciInterrupter}
    {s' : Xhci} (hout : CreateOutcome x c r.state result s') :
    InterrupterRun x (n + 1)
      ⟨s', r.returned ++ newInterrupter x r.state result, r.touched ++ bitmapTouched x r.state⟩ := by
  refine ⟨h.inv.create hout, ?_, ?_, ?_⟩
  · intro p hp
    rcases List.mem_append.mp hp with hold | hnew
    · exact h.position p hold
    · obtain ⟨-, hfree, hindex⟩ := newInterrupter_mem h.inv hout hnew
      exact ⟨hindex, (h.inv.position hfree).1⟩
  · intro hfits
    obtain ⟨hbelow, hnodup, htouched⟩ := h.inside hfits.of_succ
    have hnewpos : ∀ p ∈ newInterrupter x r.state result, p.2 = n := by
      intro p hp
      obtain ⟨-, hfree, -⟩ := newInterrupter_mem h.inv hout hp
      have hpos := h.inv.position hfree
      unfold BitmapFits XhciDevice.bitmapBytes at *
      omega
    refine ⟨?_, ?_, ?_⟩
    · intro p hp
      rcases List.mem_append.mp hp with hold | hnew
      · exact Nat.lt_succ_of_lt (hbelow p hold)
      · rw [hnewpos p hnew]
        exact Nat.lt_succ_self n
    · rw [List.map_append, List.nodup_append]
      refine ⟨hnodup, ?_, ?_⟩
      · cases hlist : newInterrupter x r.state result with
        | nil => exact List.nodup_nil
        | cons p ps =>
            obtain ⟨hsingle, -⟩ := newInterrupter_mem h.inv hout (hlist ▸ List.mem_cons_self)
            rw [← hlist, hsingle]
            exact List.nodup_singleton _
      · -- an older index is below `n`, the new one is `n`
        intro a ha b hb hab
        obtain ⟨p, hp, rfl⟩ := List.mem_map.mp ha
        obtain ⟨q, hq, rfl⟩ := List.mem_map.mp hb
        obtain ⟨-, -, hindex⟩ := newInterrupter_mem h.inv hout hq
        have h1 := hbelow p hp
        have h2 := (h.position p hp).1
        have h3 := hnewpos q hq
        rw [hab] at h2
        omega
    · intro t ht
      rcases List.mem_append.mp ht with hold | hnew
      · exact htouched t hold
      · exact bitmapTouched_inside h.inv hfits t hnew
  · intro hfits
    obtain ⟨t, ht, hle⟩ := bitmapTouched_outside h.inv hfits
    exact ⟨t, List.mem_append_right _ ht, hle⟩

theorem InterrupterRun.other {r r' : XhciRun} (h : InterrupterRun x n r) {op : XhciOp} (hop : ∀ c, op ≠ .create c)
    (hstep : xhciStep x r op = some r') : InterrupterRun x n r' := by
  obtain ⟨hinv, hret, htou⟩ := h.inv.other hop hstep
  exact ⟨hinv, hret ▸ h.position, hret ▸ htou ▸ h.inside, htou ▸ h.outside⟩

theorem InterrupterRun.step {r r' : XhciRun} (h : InterrupterRun x n r) {op : XhciOp} (hstep : xhciStep x r op = some r') :
    InterrupterRun x (n + creates [op]) r' := by
  cases op with
  | create c =>
      obtain ⟨⟨result, s'⟩, hcall, rfl⟩ := Option.map_eq_some_iff.mp hstep
      exact h.create (xhciInterrupterCreate_cases hcall)
  | allocate => exact h.other (fun c => by simp) hstep
  | irq op => exact h.other (fun c => by simp) hstep
  | world ports bar0 bytes => exact h.other (fun c => by simp) hstep

theorem InterrupterRun.run {r r' : XhciRun} (h : InterrupterRun x n r) {ops : List XhciOp}
    (hrun : Machine.run (xhciStep x) r ops = some r') : InterrupterRun x (n + creates ops) r' := by
  induction ops generalizing r n with
  | nil =>
      rw [← Option.some.inj hrun]
      exact h
  | cons op ops ih =>
      obtain ⟨r₁, hstep, hrest⟩ := run_cons_eq_some.mp hrun
      have hcount : creates ([op] ++ ops) = creates [op] + creates ops := List.countP_append
      rw [List.singleton_append] at hcount
      rw [hcount, ← Nat.add_assoc]
      exact ih (h.step hstep) hrest

end

theorem interrupterRun_start (x : XhciDevice) (apic : Apic) (ports : PciPorts) (bar0 bytes : Mem) :
    InterrupterRun x 0 (xhciStart x apic ports bar0 bytes) where
  inv := interrupterInv_start x apic ports bar0 bytes
  position := by
    intro p hp
    exact absurd hp (by simp [xhciStart])
  inside := by
    intro _
    refine ⟨?_, List.nodup_nil, ?_⟩
    · intro p hp
      exact absurd hp (by simp [xhciStart])
    · intro t ht
      exact absurd ht (by simp [xhciStart])
  outside := fun h => absurd (Or.inr (Nat.zero_le _)) h

/-- The interrupters returned have different indices, each the bitmap position set for it, and every bitmap byte touched
is one of those allocated. -/
structure InterruptersOk (x : XhciDevice) (r : XhciRun) : Prop where
  distinct : (r.returned.map (·.1.index)).Nodup
  position : ∀ p ∈ r.returned, p.1.index.toNat = p.2 ∧ p.2 < x.interrupterBitmapSize
  inside : ∀ t ∈ r.touched, t < x.bitmapBytes

/-- **Interrupters.** In every run, whatever others do in between. -/
theorem interrupters_iff (pci : PciDevice) (mmio : Nat) (hcsParams1 : UInt32) (apic : Apic) (ports : PciPorts)
    (bar0 bytes : Mem) {ops : List XhciOp} {r : XhciRun}
    (hrun : run (xhciStep (xhciSetUp pci mmio hcsParams1))
      (xhciStart (xhciSetUp pci mmio hcsParams1) apic ports bar0 bytes) ops = some r) :
    InterruptersOk (xhciSetUp pci mmio hcsParams1) r ↔
      (xhciSetUp pci mmio hcsParams1).interrupterBitmapSize % 8 = 0 ∨
        creates ops ≤ 8 * ((xhciSetUp pci mmio hcsParams1).interrupterBitmapSize / 8) := by
  have h := (interrupterRun_start (xhciSetUp pci mmio hcsParams1) apic ports bar0 bytes).run hrun
  rw [Nat.zero_add] at h
  constructor
  · intro hok
    by_contra hfits
    obtain ⟨t, ht, hle⟩ := h.outside hfits
    exact absurd (hok.inside t ht) (Nat.not_lt.mpr hle)
  · intro hfits
    obtain ⟨-, hnodup, hinside⟩ := h.inside hfits
    exact ⟨hnodup, h.position, hinside⟩

/-- A function whose only capability is MSI-X, with the table at `0x1000` of BAR0. -/
def msixPorts : PciPorts := ⟨0, ((Mem.write (fun _ => 0) 0x34 1 0x50).write 0x50 2 0x11).write 0x54 4 0x1000⟩

theorem capabilitySearch_msixPorts :
    ∃ search, capabilitySearch msixPorts zeroDevice 1 = some search ∧ search.msix = some 0x1000 := by
  obtain ⟨search, hsearch⟩ : ∃ search, capabilitySearch msixPorts zeroDevice 1 = some search := ⟨_, rfl⟩
  have hmsix : (capabilitySearch msixPorts zeroDevice 1).map (·.msix) = some (some 0x1000) := by decide
  rw [hsearch] at hmsix
  exact ⟨search, hsearch, Option.some.inj hmsix⟩

/-- The first call of a machine without IO APICs. -/
def firstRun (bar0 : Mem) (hcsParams1 : UInt32) : XhciRun :=
  xhciStart (xhciSetUp zeroDevice 0xFEBC0000 hcsParams1) ⟨[], fun _ => ⟨0, fun _ => 0⟩⟩ msixPorts bar0 (fun _ => 0)

theorem firstRun_irq (bar0 : Mem) (hcsParams1 : UInt32) :
    (apicAllocateSoftwareIrq (firstRun bar0 hcsParams1).state.irq).1 = 1 := by
  obtain ⟨-, -, hhigh, -, -⟩ := apicInitializeInterrupts_spec (Irq.boot ⟨[], fun _ => ⟨0, fun _ => 0⟩⟩)
  have hstep := (allocated_boot ⟨[], fun _ => ⟨0, fun _ => 0⟩⟩).step (by decide)
  change (apicAllocateSoftwareIrq (apicInitializeInterrupts (Irq.boot ⟨[], fun _ => ⟨0, fun _ => 0⟩⟩))).1 = 1
  rw [hstep.1, hhigh]
  rfl

theorem firstRun_call (bar0 : Mem) (hcsParams1 : UInt32)
    (hfree : freeInterrupter (xhciSetUp zeroDevice 0xFEBC0000 hcsParams1) (firstRun bar0 hcsParams1).state = some 0) :
    ∃ interrupter s', xhciInterrupterCreate (xhciSetUp zeroDevice 0xFEBC0000 hcsParams1) plainCall
        (firstRun bar0 hcsParams1).state = some (some interrupter, s') ∧
      interrupter.index = 0 ∧ s'.bar0 = setMsixEntry bar0 0x200 1 := by
  have hirq : (apicAllocateSoftwareIrq (firstRun bar0 hcsParams1).state.irq).1 ≠ -1 := by
    rw [firstRun_irq]
    decide
  have hmsix : add64 (xhciSetUp zeroDevice 0xFEBC0000 hcsParams1).mmio (msixOff.get 0x1000) ≠ 0 := by
    change add64 0xFEBC0000 0x200 ≠ 0
    rw [add64_of_lt (by decide)]
    decide
  obtain ⟨search, hsearch, hraw⟩ := capabilitySearch_msixPorts
  obtain ⟨-, hcreated⟩ := xhciInterrupterCreate_of_free (c := plainCall) hfree hirq hsearch
  refine ⟨_, _, hcreated 0x1000 hraw hmsix, rfl, ?_⟩
  rw [firstRun_irq]
  rfl

theorem firstRun_create (bar0 : Mem) (hcsParams1 : UInt32)
    (hfree : freeInterrupter (xhciSetUp zeroDevice 0xFEBC0000 hcsParams1) (firstRun bar0 hcsParams1).state = some 0) :
    ∃ r, run (xhciStep (xhciSetUp zeroDevice 0xFEBC0000 hcsParams1)) (firstRun bar0 hcsParams1)
        [.create plainCall] = some r ∧
      r.touched = [0, 0] := by
  obtain ⟨interrupter, s', hcall, -⟩ := firstRun_call bar0 hcsParams1 hfree
  have htouched : bitmapTouched (xhciSetUp zeroDevice 0xFEBC0000 hcsParams1)
      (firstRun bar0 hcsParams1).state = [0, 0] := by
    simp only [bitmapTouched, hfree]
    rfl
  obtain ⟨r, hstep⟩ : ∃ r, xhciStep (xhciSetUp zeroDevice 0xFEBC0000 hcsParams1) (firstRun bar0 hcsParams1)
      (.create plainCall) = some r ∧ r.touched = [0, 0] := by
    rw [xhciStep, hcall, htouched, Option.map_some]
    exact ⟨_, rfl, rfl⟩
  exact ⟨r, run_cons_eq_some.mpr ⟨r, hstep.1, rfl⟩, hstep.2⟩

/-- Eight interrupters, one byte, three calls and another driver's interrupt between them. -/
theorem interrupters_eight :
    ∃ r, run (xhciStep (xhciSetUp zeroDevice 0xFEBC0000 0x800)) (firstRun (fun _ => 0) 0x800)
        [.create plainCall, .allocate, .create plainCall, .create plainCall] = some r ∧
      (r.returned.map fun p => (p.1.index, p.2)) = [(0, 0), (1, 1), (2, 2)] ∧
      InterruptersOk (xhciSetUp zeroDevice 0xFEBC0000 0x800) r := by
  have hrun : (run (xhciStep (xhciSetUp zeroDevice 0xFEBC0000 0x800)) (firstRun (fun _ => 0) 0x800)
      [.create plainCall, .allocate, .create plainCall, .create plainCall]).map
        (fun r => r.returned.map fun p => (p.1.index, p.2)) = some [(0, 0), (1, 1), (2, 2)] := by decide +kernel
  obtain ⟨r, hr, hreturned⟩ := Option.map_eq_some_iff.mp hrun
  exact ⟨r, hr, hreturned, (interrupters_iff _ _ _ _ _ _ _ hr).mpr (by decide)⟩

/-- One interrupter: no byte is allocated, and the first call reads one. -/
theorem interrupters_one :
    ∃ r, run (xhciStep (xhciSetUp zeroDevice 0xFEBC0000 0x100)) (firstRun (fun _ => 0) 0x100)
        [.create plainCall] = some r ∧
      ¬ InterruptersOk (xhciSetUp zeroDevice 0xFEBC0000 0x100) r := by
  obtain ⟨r, hrun, htouched⟩ := firstRun_create (fun _ => 0) 0x100 (by decide)
  refine ⟨r, hrun, fun hok => ?_⟩
  have hin := hok.inside 0 (by rw [htouched]; decide)
  exact absurd hin (by decide)

end Gewodsys.Dev
