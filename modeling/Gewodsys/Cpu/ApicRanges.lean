import Gewodsys.Cpu.Apic

/-!
# Interrupt ranges of the IO APICs

An IO APIC owns the interrupts `gsi_base .. gsi_base + max_rentry`. `SettersCorrect apics irq` says that the four
setters act on the entry of `irq` in its owner's table, for every register contents and every argument. The entries of that
table are those of the device: entry `n` is in the registers `0x10 + 2 n` and `0x11 + 2 n` (`entryOf`, `setEntryOf`).

* `ioApicGetByIrq_eq_some` : the lookup finds the owner, except on the owner's last pin;
* `rentryIndex_eq_entryRegister_iff` : the entry is addressed by `irq`, in an index of eight bits; which entry that is;
* `setters_correct_iff` : the setters are correct at `irq` exactly when `irq` is not the last pin of its owner, the owner's
  `gsi_base` is a multiple of 128 and the entry is one of the 120 whose registers have numbers of eight bits.
-/

namespace Gewodsys.Cpu
open Gewodsys.Machine

/-- A call of one of the four setters. -/
inductive SetCall where
  | mask (mask : UInt8)
  | vector (vector : UInt8)
  | dest (mode dest : UInt8)
  | isaRouting (vector : UInt8) (flags : UInt16)

def SetCall.exec (s : Apic) (irq : UInt8) : SetCall → Int × Apic
  | .mask m => apicSetIrqMask s irq m
  | .vector v => apicSetIrqVector s irq v
  | .dest mode d => apicSetIrqDest s irq mode d
  | .isaRouting v flags => apicSetIrqIsaRouting s irq v flags

/-- The fields a setter names, with the values it gives them. -/
def SetCall.fields : SetCall → List (Field × Nat)
  | .mask m => [(Rentry.mask, m.toNat &&& 1)]
  | .vector v => [(Rentry.triggerMode, ioapicEdge), (Rentry.vector, v.toNat)]
  | .dest mode d => [(Rentry.destMode, mode.toNat), (Rentry.dest, d.toNat)]
  | .isaRouting v flags => isaRoutingFields v flags

theorem SetCall.exec_eq (s : Apic) (irq : UInt8) (c : SetCall) :
    c.exec s irq = apicAssignRentry s irq c.fields := by
  cases c <;> rfl

/-- `a` owns the interrupt `g`. -/
def IoApic.Owns (a : IoApic) (g : Nat) : Prop :=
  a.gsiBase.toNat ≤ g ∧ g ≤ a.gsiBase.toNat + a.maxRentry.toNat

instance (a : IoApic) (g : Nat) : Decidable (a.Owns g) :=
  inferInstanceAs (Decidable (a.gsiBase.toNat ≤ g ∧ g ≤ a.gsiBase.toNat + a.maxRentry.toNat))

/-- No interrupt is owned twice. -/
def DisjointRanges (apics : List IoApic) : Prop :=
  apics.Pairwise fun a b => ∀ g, ¬ (a.Owns g ∧ b.Owns g)

/-! ## The table of an IO APIC -/

/-- The register with the low half of redirection entry `n`; the next one has the high half. -/
def entryRegister (n : Nat) : Nat := ioapicRentryBase + 2 * n

/-- Redirection entry `n`. -/
def entryOf (regs : Nat → BitVec 32) (n : Nat) : Nat :=
  (regs (entryRegister n + 1)).toNat * 2 ^ 32 + (regs (entryRegister n)).toNat

/-- The register file with redirection entry `n` replaced. -/
def setEntryOf (regs : Nat → BitVec 32) (n value : Nat) : Nat → BitVec 32 :=
  Function.update (Function.update regs (entryRegister n) (BitVec.ofNat 32 value)) (entryRegister n + 1)
    (BitVec.ofNat 32 (value / 2 ^ 32))

/-- The setters do at `irq` what they are for. -/
structure SettersCorrect (apics : List IoApic) (irq : UInt8) : Prop where
  /-- Only the named fields of the owner's entry `irq - gsi_base` change. -/
  owned : ∀ (c : SetCall) (bus : Bus), ∀ a ∈ apics, a.Owns irq.toNat →
    (c.exec ⟨apics, bus⟩ irq).1 = 0 ∧
      ((c.exec ⟨apics, bus⟩ irq).2.bus a.address).regs =
        setEntryOf (bus a.address).regs (irq.toNat - a.gsiBase.toNat)
          (Rentry.assign c.fields (entryOf (bus a.address).regs (irq.toNat - a.gsiBase.toNat))) ∧
      ∀ x, x ≠ a.address → ((c.exec ⟨apics, bus⟩ irq).2.bus x).regs = (bus x).regs
  unowned : ∀ (c : SetCall) (bus : Bus), (∀ a ∈ apics, ¬ a.Owns irq.toNat) →
    c.exec ⟨apics, bus⟩ irq = (-1, ⟨apics, bus⟩)
  /-- Every owned interrupt up to the highest one can be masked and unmasked. -/
  maskable : ∀ a ∈ apics, a.Owns irq.toNat → (irq.toNat : Int) ≤ apicGetHighestIrq apics →
    ∀ (bus : Bus) (mask : UInt8), Rentry.mask.get (entryOf
      ((apicSetIrqMask ⟨apics, bus⟩ irq mask).2.bus a.address).regs (irq.toNat - a.gsiBase.toNat)) = mask.toNat % 2

/-! ## The lookup -/

theorem DisjointRanges.eq_of_owns {apics : List IoApic} (h : DisjointRanges apics) {a b : IoApic} {g : Nat}
    (ha : a ∈ apics) (hb : b ∈ apics) (hag : a.Owns g) (hbg : b.Owns g) : a = b := by
  have : Std.Symm fun a b : IoApic => ∀ g, ¬ (a.Owns g ∧ b.Owns g) := ⟨fun _ _ hab g hg => hab g hg.symm⟩
  by_contra hne
  exact List.Pairwise.forall h ha hb hne g ⟨hag, hbg⟩

theorem owns_of_ioApicGetByIrq {apics : List IoApic} {irq : UInt8} {a : IoApic}
    (h : ioApicGetByIrq apics irq = some a) :
    a ∈ apics ∧ a.gsiBase.toNat ≤ irq.toNat ∧ irq.toNat < a.gsiBase.toNat + a.maxRentry.toNat := by
  have hfound := List.find?_some h
  simp only [Bool.and_eq_true, decide_eq_true_eq] at hfound
  exact ⟨List.mem_of_find?_eq_some h, hfound.1, lt_of_lt_of_le hfound.2 (Nat.mod_le _ _)⟩

theorem ioApicGetByIrq_eq_some {apics : List IoApic} (hd : DisjointRanges apics) {irq : UInt8} {a : IoApic}
    (ha : a ∈ apics) (hown : a.Owns irq.toNat) (hlast : irq.toNat ≠ a.gsiBase.toNat + a.maxRentry.toNat) :
    ioApicGetByIrq apics irq = some a := by
  cases hf : ioApicGetByIrq apics irq with
  | none =>
      have hirq := irq.toNat_lt
      have hmax := a.maxRentry.toNat_lt
      have h := List.find?_eq_none.mp hf a ha
      simp only [Bool.and_eq_true, decide_eq_true_eq, not_and, Nat.not_lt] at h
      have h2 := h hown.1
      have h3 := hown.2
      have h4 := hown.1
      rw [Nat.mod_eq_of_lt (by omega)] at h2
      omega
  | some b =>
      obtain ⟨hb, h1, h2⟩ := owns_of_ioApicGetByIrq hf
      rw [hd.eq_of_owns ha hb hown ⟨h1, by omega⟩]

theorem ioApicGetByIrq_last {apics : List IoApic} (hd : DisjointRanges apics) {irq : UInt8} {a : IoApic}
    (ha : a ∈ apics) (hlast : irq.toNat = a.gsiBase.toNat + a.maxRentry.toNat) :
    ioApicGetByIrq apics irq = none := by
  cases hf : ioApicGetByIrq apics irq with
  | none => rfl
  | some b =>
      obtain ⟨hb, h1, h2⟩ := owns_of_ioApicGetByIrq hf
      have hab := hd.eq_of_owns ha hb ⟨by omega, by omega⟩ ⟨h1, by omega⟩
      subst hab
      omega

theorem ioApicGetByIrq_unowned {apics : List IoApic} {irq : UInt8} (h : ∀ a ∈ apics, ¬ a.Owns irq.toNat) :
    ioApicGetByIrq apics irq = none := by
  cases hf : ioApicGetByIrq apics irq with
  | none => rfl
  | some b =>
      obtain ⟨hb, h1, h2⟩ := owns_of_ioApicGetByIrq hf
      exact absurd ⟨h1, by omega⟩ (h b hb)

/-! ## The entry that the setters address -/

/-- The index that the setters compute from `irq` is the register of entry `irq - gsi_base` for a base that eight bits of
index do not see, and entries whose registers have a number of eight bits. -/
theorem rentryIndex_eq_entryRegister_iff {irq base : Nat} (hbase : base ≤ irq) :
    rentryIndex irq = entryRegister (irq - base) ↔ base % 128 = 0 ∧ irq - base ≤ 119 := by
  unfold rentryIndex entryRegister ioapicRentryBase
  constructor
  · intro h
    refine ⟨?_, ?_⟩ <;> omega
  · rintro ⟨h1, h2⟩
    omega

theorem rentryOf_eq_entryOf {j n : Nat} (h : rentryIndex j = entryRegister n) (regs : Nat → BitVec 32) :
    rentryOf regs j = entryOf regs n := by
  rw [rentryOf, h, entryOf]

theorem setRentryOf_eq_setEntryOf {j n : Nat} (h : rentryIndex j = entryRegister n) (regs : Nat → BitVec 32)
    (value : Nat) : setRentryOf regs j value = setEntryOf regs n value := by
  rw [setRentryOf, h, setEntryOf]

theorem entryOf_setEntryOf (regs : Nat → BitVec 32) (n : Nat) {value : Nat} (h : value < 2 ^ 64) :
    entryOf (setEntryOf regs n value) n = value := by
  unfold entryOf setEntryOf
  rw [Function.update_self, Function.update_of_ne (by omega), Function.update_self, BitVec.toNat_ofNat,
    BitVec.toNat_ofNat]
  omega

theorem entryOf_lt (regs : Nat → BitVec 32) (n : Nat) : entryOf regs n < 2 ^ 64 := by
  have h1 := (regs (entryRegister n + 1)).isLt
  have h2 := (regs (entryRegister n)).isLt
  unfold entryOf
  omega

/-- With the register file cleared, a store to one entry is seen at its low register: no store to another entry gives the
same registers. -/
theorem setRentryOf_cleared_ne {j n : Nat} (h : rentryIndex j ≠ entryRegister n) {v : Nat} (w : Nat)
    (hv : v % 2 ^ 32 ≠ 0) : setRentryOf (fun _ => 0) j v ≠ setEntryOf (fun _ => 0) n w := by
  intro he
  have hhigh : rentryIndex j ≠ entryRegister n + 1 := by
    unfold rentryIndex entryRegister ioapicRentryBase
    omega
  have hlow := congrFun he (rentryIndex j)
  unfold setRentryOf setEntryOf at hlow
  rw [Function.update_of_ne (by omega), Function.update_self, Function.update_of_ne hhigh,
    Function.update_of_ne h] at hlow
  have hz := congrArg BitVec.toNat hlow
  rw [BitVec.toNat_ofNat] at hz
  exact hv hz

/-! ## The setters at an owned interrupt -/

/-- The condition on `irq` under which its owner's entry is the one the setters address. -/
def SettersReach (apics : List IoApic) (irq : UInt8) : Prop :=
  ∀ a ∈ apics, a.Owns irq.toNat →
    irq.toNat ≠ a.gsiBase.toNat + a.maxRentry.toNat ∧ a.gsiBase.toNat % 128 = 0 ∧ irq.toNat - a.gsiBase.toNat ≤ 119

theorem exec_owned {apics : List IoApic} (hd : DisjointRanges apics) {irq : UInt8} (hr : SettersReach apics irq)
    (c : SetCall) (bus : Bus) (a : IoApic) (ha : a ∈ apics) (hown : a.Owns irq.toNat) :
    (c.exec ⟨apics, bus⟩ irq).1 = 0 ∧
      ((c.exec ⟨apics, bus⟩ irq).2.bus a.address).regs =
        setEntryOf (bus a.address).regs (irq.toNat - a.gsiBase.toNat)
          (Rentry.assign c.fields (entryOf (bus a.address).regs (irq.toNat - a.gsiBase.toNat))) ∧
      ∀ x, x ≠ a.address → ((c.exec ⟨apics, bus⟩ irq).2.bus x).regs = (bus x).regs := by
  obtain ⟨hlast, hentry⟩ := hr a ha hown
  have hfind := ioApicGetByIrq_eq_some hd ha hown hlast
  obtain ⟨h0, -, hregs, hother⟩ :=
    apicAssignRentry_of_some (s := ⟨apics, bus⟩) c.fields hfind
  have hindex := (rentryIndex_eq_entryRegister_iff hown.1).mpr hentry
  rw [SetCall.exec_eq]
  refine ⟨h0, ?_, hother⟩
  rw [hregs, setRentryOf_eq_setEntryOf hindex, rentryOf_eq_entryOf hindex]

theorem assign_mask (mask : UInt8) (w : Nat) :
    Rentry.assign (SetCall.mask mask).fields w = Rentry.mask.set (mask.toNat &&& 1) w := by
  rw [SetCall.fields, Rentry.assign, List.foldl_cons, List.foldl_nil]

theorem assign_mask_lt (mask : UInt8) {w : Nat} (hw : w < 2 ^ 64) :
    Rentry.assign (SetCall.mask mask).fields w < 2 ^ 64 := by
  rw [assign_mask]
  exact Rentry.mask.set_lt (mask.toNat &&& 1) hw (by decide)

theorem get_mask_assign (mask : UInt8) (w : Nat) :
    Rentry.mask.get (Rentry.assign (SetCall.mask mask).fields w) = mask.toNat % 2 := by
  have hlen : Rentry.mask.len = 1 := rfl
  rw [assign_mask, Field.get_set, Nat.and_one_is_mod, hlen, pow_one, Nat.mod_mod]

theorem settersCorrect_of_reach {apics : List IoApic} (hd : DisjointRanges apics) {irq : UInt8}
    (hr : SettersReach apics irq) : SettersCorrect apics irq where
  owned := exec_owned hd hr
  unowned c bus h := by
    rw [SetCall.exec_eq]
    exact apicAssignRentry_of_none (s := ⟨apics, bus⟩) c.fields (ioApicGetByIrq_unowned h)
  maskable a ha hown _ bus mask := by
    obtain ⟨-, hregs, -⟩ := exec_owned hd hr (.mask mask) bus a ha hown
    simp only [SetCall.exec] at hregs
    rw [hregs, entryOf_setEntryOf _ _ (assign_mask_lt mask (entryOf_lt _ _)), get_mask_assign]

theorem reach_of_settersCorrect {apics : List IoApic} (hd : DisjointRanges apics) {irq : UInt8}
    (hc : SettersCorrect apics irq) : SettersReach apics irq := by
  intro a ha hown
  obtain ⟨h0, hregs, -⟩ := hc.owned (.mask 1) (fun _ => ⟨0, fun _ => 0⟩) a ha hown
  rw [SetCall.exec_eq] at h0 hregs
  have hlast : irq.toNat ≠ a.gsiBase.toNat + a.maxRentry.toNat := by
    intro hlast
    rw [apicAssignRentry_of_none _ (ioApicGetByIrq_last hd ha hlast)] at h0
    exact absurd (show (-1 : Int) = 0 from h0) (by decide)
  refine ⟨hlast, (rentryIndex_eq_entryRegister_iff hown.1).mp ?_⟩
  have hfind := ioApicGetByIrq_eq_some hd ha hown hlast
  obtain ⟨-, -, hreal, -⟩ := apicAssignRentry_of_some (s := ⟨apics, fun _ => ⟨0, fun _ => 0⟩⟩)
    (SetCall.mask 1).fields hfind
  -- masking sets bit 16 of the register that the setter addresses
  have hvalue : Rentry.assign (SetCall.mask 1).fields (rentryOf (fun _ => 0) irq.toNat) = 2 ^ 16 := by
    simp [rentryOf, SetCall.fields, Rentry.assign, Field.set, Rentry.mask]
  by_contra hindex
  rw [hreal] at hregs
  simp only at hregs
  rw [hvalue] at hregs
  exact setRentryOf_cleared_ne hindex _ (by decide) hregs

/-- **The setters act on the right entry exactly below the last pin of an IO APIC whose `gsi_base` is a multiple of 128, on
one of its first 120 entries.** -/
theorem setters_correct_iff {apics : List IoApic} (hd : DisjointRanges apics) (irq : UInt8) :
    SettersCorrect apics irq ↔ ∀ a ∈ apics, a.Owns irq.toNat →
      irq.toNat ≠ a.gsiBase.toNat + a.maxRentry.toNat ∧ a.gsiBase.toNat % 128 = 0 ∧
        irq.toNat - a.gsiBase.toNat ≤ 119 :=
  ⟨reach_of_settersCorrect hd, settersCorrect_of_reach hd⟩

/-- The 24-pin IO APIC of a PC. -/
def pcIoApic : IoApic :=
  { id := 0, maxRentry := 23, version := 0x20, gsiBase := 0, physAddr := 0xFEC00000, address := 0xFEC00000 }

/-- A second IO APIC, owning the interrupts from 24 on. -/
def secondIoApic : IoApic :=
  { id := 1, maxRentry := 23, version := 0x20, gsiBase := 24, physAddr := 0xFEC01000, address := 0xFEC01000 }

theorem disjointRanges_pc : DisjointRanges [pcIoApic, secondIoApic] := by
  refine List.pairwise_cons.mpr ⟨fun b hb g hg => ?_, List.pairwise_singleton _ _⟩
  rw [List.mem_singleton.mp hb] at hg
  have h1 := hg.1.2
  have h2 := hg.2.1
  change g ≤ 0 + 23 at h1
  change 24 ≤ g at h2
  omega

theorem setters_correct_iff_keyboard : SettersCorrect [pcIoApic, secondIoApic] 1 :=
  (setters_correct_iff disjointRanges_pc 1).mpr (by decide)

/-- The last pin of the first IO APIC and the first pin of the second are both missed. -/
theorem setters_miss_last_pin_and_second_ioapic :
    DisjointRanges [pcIoApic, secondIoApic] ∧ ¬ SettersCorrect [pcIoApic, secondIoApic] 23 ∧
      ¬ SettersCorrect [pcIoApic, secondIoApic] 24 := by
  refine ⟨disjointRanges_pc, fun h => ?_, fun h => ?_⟩
  · have := (reach_of_settersCorrect disjointRanges_pc h pcIoApic (by decide) (by decide)).1
    exact this (by decide)
  · have := (reach_of_settersCorrect disjointRanges_pc h secondIoApic (by decide) (by decide)).2.1
    exact absurd this (by decide)

end Gewodsys.Cpu
