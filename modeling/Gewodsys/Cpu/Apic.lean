import Gewodsys.Machine.Word

/-!
# The IO APIC driver (`cpu/apic.c`)

An IO APIC sits behind a select/window pair: `IOREGSEL` names one of 256 registers, `IOREGWIN` reads or writes it.
Redirection entry `j` is the 64-bit word of registers `0x10 + 2 j` and `0x11 + 2 j`.

* `Bus` : the IO APICs of the machine by MMIO address; `ioApicRead64`, `ioApicWrite64`;
* `ioApicGetByIrq`, `apicGetHighestIrq` : the lookups over `kIoApics`;
* `apicSetIrqMask`, `apicSetIrqVector`, `apicSetIrqDest`, `apicSetIrqIsaRouting` : the four setters, all of them
  `apicAssignRentry` at their own list of assigned fields;
* `apicAssignRentry_of_some`, `apicAssignRentry_of_none` : what a setter does, by the outcome of the lookup.
-/

namespace Gewodsys.Cpu
open Gewodsys.Machine

/-! ## Registers -/

def ioapicRentryBase : Nat := 0x10

def ioapicActiveHigh : Nat := 0
def ioapicActiveLow : Nat := 1
def ioapicEdge : Nat := 0
def ioapicLevel : Nat := 1

/-- What sits behind the MMIO window of one IO APIC. -/
structure IoApicPort where
  ioregsel : Nat
  regs : Nat → BitVec 32

/-- The IO APICs by MMIO address. -/
abbrev Bus := Nat → IoApicPort

/-- A store to `address + IOREGSEL`. -/
def Bus.select (b : Bus) (address index : Nat) : Bus :=
  Function.update b address { b address with ioregsel := index }

/-- A load from `address + IOREGWIN`; the device decodes eight bits of the selector. -/
def Bus.window (b : Bus) (address : Nat) : BitVec 32 := (b address).regs ((b address).ioregsel % 256)

/-- A store to `address + IOREGWIN`. -/
def Bus.setWindow (b : Bus) (address : Nat) (value : BitVec 32) : Bus :=
  Function.update b address
    { b address with regs := Function.update (b address).regs ((b address).ioregsel % 256) value }

def ioApicRead64 (b : Bus) (address index : Nat) : Nat × Bus :=
  let b := b.select address index
  let low := (b.window address).toNat
  let b := b.select address (index + 1)
  let high := (b.window address).toNat
  ((high <<< 32) ||| low, b)

def ioApicWrite64 (b : Bus) (address index value : Nat) : Bus :=
  let b := b.select address index
  let b := b.setWindow address (BitVec.ofNat 32 (value &&& 0xFFFFFFFF))
  let b := b.select address (index + 1)
  b.setWindow address (BitVec.ofNat 32 (value >>> 32))

/-! ## Redirection entries -/

namespace Rentry

/-! The bit fields of `IoApicRentry`. -/

def vector : Field := ⟨0, 8⟩
def delivMode : Field := ⟨8, 3⟩
def destMode : Field := ⟨11, 1⟩
def delivStatus : Field := ⟨12, 1⟩
def polarity : Field := ⟨13, 1⟩
def remoteIrr : Field := ⟨14, 1⟩
def triggerMode : Field := ⟨15, 1⟩
def mask : Field := ⟨16, 1⟩
def dest : Field := ⟨56, 8⟩

/-- Assign the listed fields in order. -/
def assign (fields : List (Field × Nat)) (rentry : Nat) : Nat := fields.foldl (fun w p => p.1.set p.2 w) rentry

end Rentry

/-- The register index of the low half of entry `j`: an 8-bit index. -/
def rentryIndex (j : Nat) : Nat := (ioapicRentryBase + 2 * j) % 256

/-- The word that the driver's index for entry `j` names: entry `j` for `j` below 120, where the index does not wrap. -/
def rentryOf (regs : Nat → BitVec 32) (j : Nat) : Nat :=
  (regs (rentryIndex j + 1)).toNat * 2 ^ 32 + (regs (rentryIndex j)).toNat

/-- The register file with that word replaced. -/
def setRentryOf (regs : Nat → BitVec 32) (j value : Nat) : Nat → BitVec 32 :=
  Function.update (Function.update regs (rentryIndex j) (BitVec.ofNat 32 value)) (rentryIndex j + 1)
    (BitVec.ofNat 32 (value / 2 ^ 32))

theorem rentryIndex_lt (j : Nat) : rentryIndex j + 1 < 256 := by
  unfold rentryIndex ioapicRentryBase
  omega

theorem rentryIndex_eq_iff (i j : Nat) : rentryIndex i = rentryIndex j ↔ i % 128 = j % 128 := by
  unfold rentryIndex ioapicRentryBase
  omega

theorem ne_rentryIndex_succ (i j : Nat) : rentryIndex i ≠ rentryIndex j + 1 := by
  unfold rentryIndex ioapicRentryBase
  omega

/-- These words are told apart by the low seven bits of the number. -/
theorem setRentryOf_congr (regs : Nat → BitVec 32) {i j : Nat} (h : i % 128 = j % 128) (value : Nat) :
    setRentryOf regs i value = setRentryOf regs j value ∧ rentryOf regs i = rentryOf regs j := by
  unfold setRentryOf rentryOf
  rw [(rentryIndex_eq_iff i j).mpr h]
  exact ⟨rfl, rfl⟩

theorem rentryOf_setRentryOf (regs : Nat → BitVec 32) (j value : Nat) (h : value < 2 ^ 64) :
    rentryOf (setRentryOf regs j value) j = value := by
  unfold rentryOf setRentryOf
  rw [Function.update_self, Function.update_of_ne (by omega), Function.update_self, BitVec.toNat_ofNat,
    BitVec.toNat_ofNat]
  omega

theorem rentryOf_lt (regs : Nat → BitVec 32) (j : Nat) : rentryOf regs j < 2 ^ 64 := by
  have h1 := (regs (rentryIndex j + 1)).isLt
  have h2 := (regs (rentryIndex j)).isLt
  unfold rentryOf
  omega

theorem ioApicRead64_fst (b : Bus) (address j : Nat) :
    (ioApicRead64 b address (rentryIndex j)).1 = rentryOf (b address).regs j := by
  have h := rentryIndex_lt j
  simp only [ioApicRead64, Bus.select, Bus.window, Function.update_self]
  rw [Nat.mod_eq_of_lt h, Nat.mod_eq_of_lt (by omega : rentryIndex j < 256),
    ← Nat.shiftLeft_add_eq_or_of_lt (BitVec.isLt _), Nat.shiftLeft_eq, rentryOf]

theorem ioApicRead64_regs (b : Bus) (address index x : Nat) :
    ((ioApicRead64 b address index).2 x).regs = (b x).regs := by
  simp only [ioApicRead64, Bus.select]
  by_cases hx : x = address
  · subst hx
    simp only [Function.update_self]
  · simp only [Function.update_of_ne hx]

theorem ioApicWrite64_regs_self (b : Bus) (address j value : Nat) :
    ((ioApicWrite64 b address (rentryIndex j) value) address).regs = setRentryOf (b address).regs j value := by
  have h := rentryIndex_lt j
  have hlow : BitVec.ofNat 32 (value &&& 0xFFFFFFFF) = BitVec.ofNat 32 value := by
    apply BitVec.eq_of_toNat_eq
    rw [BitVec.toNat_ofNat, BitVec.toNat_ofNat, show (0xFFFFFFFF : Nat) = 2 ^ 32 - 1 from rfl, land_low,
      Nat.mod_mod]
  simp only [ioApicWrite64, Bus.select, Bus.setWindow, Function.update_self]
  rw [Nat.mod_eq_of_lt h, Nat.mod_eq_of_lt (by omega : rentryIndex j < 256), hlow, Nat.shiftRight_eq_div_pow]
  rfl

theorem ioApicWrite64_regs_of_ne (b : Bus) {address x : Nat} (index value : Nat) (hx : x ≠ address) :
    ((ioApicWrite64 b address index value) x).regs = (b x).regs := by
  simp only [ioApicWrite64, Bus.select, Bus.setWindow, Function.update_of_ne hx]

/-! ## The list of IO APICs -/

structure IoApic where
  id : UInt8
  /-- The index of the last redirection entry, from the version register. -/
  maxRentry : UInt8
  version : UInt8
  gsiBase : UInt32
  physAddr : Nat
  address : Nat
deriving DecidableEq, Repr

/-- The driver's view of the IO APICs: `kIoApics` in list order, and the devices. -/
structure Apic where
  kIoApics : List IoApic
  bus : Bus

def ioApicGetByIrq (apics : List IoApic) (irq : UInt8) : Option IoApic :=
  apics.find? fun ioapic =>
    decide (ioapic.gsiBase.toNat ≤ irq.toNat) &&
      decide (irq.toNat < (ioapic.gsiBase.toNat + ioapic.maxRentry.toNat) % 2 ^ 32)

/-- The `int` with the bit pattern `n`. -/
def toInt32 (n : Nat) : Int := (BitVec.ofNat 32 n).toInt

/-- The running maximum is compared as `uint32_t` and returned as `int`. -/
def apicGetHighestIrq (apics : List IoApic) : Int :=
  toInt32 (apics.foldl (fun highest ioapic =>
    let last := (ioapic.gsiBase.toNat + ioapic.maxRentry.toNat) % 2 ^ 32
    if last > highest then last else highest) 0)

/-! ## The setters -/

/-- The common body of the setters: look the IO APIC up, read entry `irq`, assign `fields`, write it back. -/
def apicAssignRentry (s : Apic) (irq : UInt8) (fields : List (Field × Nat)) : Int × Apic :=
  match ioApicGetByIrq s.kIoApics irq with
  | none => (-1, s)
  | some ioapic =>
      let r := ioApicRead64 s.bus ioapic.address (rentryIndex irq.toNat)
      let rentry := Rentry.assign fields r.1
      (0, { s with bus := ioApicWrite64 r.2 ioapic.address (rentryIndex irq.toNat) rentry })

/-- The fields `ApicSetIrqIsaRouting` assigns: polarity `0b10` and trigger mode `0b10` are left alone. -/
def isaRoutingFields (vector : UInt8) (flags : UInt16) : List (Field × Nat) :=
  let polarity := flags.toNat &&& 0x3
  let triggerMode := (flags.toNat >>> 2) &&& 0x3
  [(Rentry.mask, 1), (Rentry.vector, vector.toNat)] ++
    (if polarity = 0b00 ∨ polarity = 0b11 then [(Rentry.polarity, ioapicActiveLow)]
      else if polarity = 0b01 then [(Rentry.polarity, ioapicActiveHigh)] else []) ++
    (if triggerMode = 0b00 ∨ triggerMode = 0b01 then [(Rentry.triggerMode, ioapicEdge)]
      else if triggerMode = 0b11 then [(Rentry.triggerMode, ioapicLevel)] else [])

def apicSetIrqIsaRouting (s : Apic) (isaIrq vector : UInt8) (flags : UInt16) : Int × Apic :=
  apicAssignRentry s isaIrq (isaRoutingFields vector flags)

def apicSetIrqVector (s : Apic) (irq vector : UInt8) : Int × Apic :=
  apicAssignRentry s irq [(Rentry.triggerMode, ioapicEdge), (Rentry.vector, vector.toNat)]

def apicSetIrqDest (s : Apic) (irq mode dest : UInt8) : Int × Apic :=
  apicAssignRentry s irq [(Rentry.destMode, mode.toNat), (Rentry.dest, dest.toNat)]

def apicSetIrqMask (s : Apic) (irq mask : UInt8) : Int × Apic :=
  apicAssignRentry s irq [(Rentry.mask, mask.toNat &&& 1)]

/-- Read entry `j`, assign `fields`, write it back. -/
def rentryAssign (b : Bus) (address j : Nat) (fields : List (Field × Nat)) : Bus :=
  let r := ioApicRead64 b address (rentryIndex j)
  ioApicWrite64 r.2 address (rentryIndex j) (Rentry.assign fields r.1)

theorem rentryAssign_regs_self (b : Bus) (address j : Nat) (fields : List (Field × Nat)) :
    (rentryAssign b address j fields address).regs =
      setRentryOf (b address).regs j (Rentry.assign fields (rentryOf (b address).regs j)) := by
  rw [rentryAssign, ioApicWrite64_regs_self, ioApicRead64_regs, ioApicRead64_fst]

theorem rentryAssign_regs_of_ne (b : Bus) {address x : Nat} (hx : x ≠ address) (j : Nat) (fields : List (Field × Nat)) :
    (rentryAssign b address j fields x).regs = (b x).regs := by
  rw [rentryAssign, ioApicWrite64_regs_of_ne _ _ _ hx, ioApicRead64_regs]

theorem apicAssignRentry_of_none {s : Apic} {irq : UInt8} (fields : List (Field × Nat))
    (h : ioApicGetByIrq s.kIoApics irq = none) : apicAssignRentry s irq fields = (-1, s) := by
  rw [apicAssignRentry, h]

theorem apicAssignRentry_of_some {s : Apic} {irq : UInt8} {a : IoApic} (fields : List (Field × Nat))
    (h : ioApicGetByIrq s.kIoApics irq = some a) :
    (apicAssignRentry s irq fields).1 = 0 ∧ (apicAssignRentry s irq fields).2.kIoApics = s.kIoApics ∧
      ((apicAssignRentry s irq fields).2.bus a.address).regs =
        setRentryOf (s.bus a.address).regs irq.toNat
          (Rentry.assign fields (rentryOf (s.bus a.address).regs irq.toNat)) ∧
      ∀ x, x ≠ a.address → ((apicAssignRentry s irq fields).2.bus x).regs = (s.bus x).regs := by
  simp only [apicAssignRentry, h]
  refine ⟨trivial, trivial, ?_, fun x hx => ?_⟩
  · exact rentryAssign_regs_self s.bus a.address irq.toNat fields
  · exact rentryAssign_regs_of_ne s.bus hx irq.toNat fields

end Gewodsys.Cpu
