import Gewodsys.Cpu.IrqRuns
import Gewodsys.Dev.XhciCaps
import Gewodsys.Dev.XhciSlots

/-!
# Interrupters: `XhciInterrupterCreate` of `dev/usb/xhci.c`

The registers of the device are one byte memory by offset in BAR0, the interrupter bitmap is the bytes
`interrupter_bitmap[0], interrupter_bitmap[1], ..`.

* `xhciInterrupterCreate` : the search for a free interrupter, the software interrupt, its handler, the search for MSI-X,
  the table entry and the event ring; `none` when the capability loop does not end within its fuel;
* `CreateOutcome` : its exits, `xhciInterrupterCreate_cases`;
* `create_failure_iff` : a failed call leaves everything as it was if and only if every interrupter was taken.
-/

namespace Gewodsys.Dev
open Gewodsys.Machine Gewodsys.Cpu

/-- What `XhciInterrupterCreate` reads of the device. -/
structure XhciDevice where
  pci : PciDevice
  mmio : Nat
  interrupterBitmapSize : Nat

structure XhciInterrupter where
  index : UInt8
  vector : UInt8
  erst : XhciErstEntry
  ring : XhciRing

/-- The interrupt code, the PCI ports, the interrupter bitmap and the registers behind BAR0. -/
structure Xhci where
  irq : Irq
  ports : PciPorts
  interrupterBitmap : Mem
  bar0 : Mem

/-- A call: its arguments, the fuel of the capability loop, where `kmalloc` puts the event ring, and the page tables. -/
structure CreateCall where
  handler : Nat
  data : Nat
  fuel : Nat
  ptr : Nat
  trbs : Nat → XhciTrb
  memory : Mem
  kPML4 : Nat

/-! ## The MSI-X table -/

/-- The field `off` of the table-offset register. -/
def msixOff : Field := ⟨3, 29⟩

/-- The bit `masked` of the last word of a table entry. -/
def msixMasked : Field := ⟨0, 1⟩

/-- The stores to `msg_addr`, `msg_data` and `masked` of the table entry at `entry`. -/
def setMsixEntry (bar0 : Mem) (entry : Nat) (irq : Int) : Mem :=
  let bar0 := bar0.write entry 8 0xFEE00000
  let bar0 := bar0.write (entry + 8) 4 (irq % 2 ^ 32).toNat
  bar0.write (entry + 12) 4 (msixMasked.set 0 (bar0.read (entry + 12) 4))

/-! ## The call -/

/-- The `uint8_t` with the value of an `int`. -/
def toByte (irq : Int) : UInt8 := UInt8.ofNat (irq % 256).toNat

/-- The first clear bit below `interrupter_bitmap_size`. -/
def freeInterrupter (x : XhciDevice) (s : Xhci) : Option Nat :=
  (List.range x.interrupterBitmapSize).find? fun i => !getBit s.interrupterBitmap 0 i

def xhciInterrupterCreate (x : XhciDevice) (c : CreateCall) (s : Xhci) : Option (Option XhciInterrupter × Xhci) :=
  match freeInterrupter x s with
  | none => some (none, s)
  | some interrupterIndex =>
      let s := { s with interrupterBitmap := setBit s.interrupterBitmap 0 interrupterIndex }
      let (irq, irqs) := apicAllocateSoftwareIrq s.irq
      let s := { s with irq := irqs }
      if irq = -1 then some (none, s)
      else
        let s := { s with irq := apicRegisterIrqHandler s.irq (toByte irq) c.handler c.data }
        let s := { s with irq := (apicEnableInterrupt s.irq (toByte irq)).2 }
        match capabilitySearch s.ports x.pci c.fuel with
        | none => none
        | some search =>
            let s := { s with ports := search.ports }
            match search.msix with
            | none => some (none, s)
            | some raw =>
                if add64 x.mmio (msixOff.get raw) = 0 then some (none, s)
                else
                  let s := { s with bar0 := setMsixEntry s.bar0 (msixOff.get raw + 16 * interrupterIndex) irq }
                  let ring := xhciRingCreate evtRingSize c.ptr c.trbs
                  some (some ⟨UInt8.ofNat interrupterIndex, toByte irq, erstOf c.memory c.kPML4 ring, ring⟩, s)

/-! ## Its exits -/

/-- The interrupt code after a software interrupt was allocated, registered and enabled. -/
def irqAfter (s : Irq) (handler data : Nat) : Irq :=
  let irq := toByte (apicAllocateSoftwareIrq s).1
  (apicEnableInterrupt (apicRegisterIrqHandler (apicAllocateSoftwareIrq s).2 irq handler data) irq).2

/-- The state after a call that took interrupter `i` and a software interrupt, whatever happened to the registers. -/
def afterIrq (c : CreateCall) (s : Xhci) (i : Nat) (ports : PciPorts) (bar0 : Mem) : Xhci :=
  ⟨irqAfter s.irq c.handler c.data, ports, setBit s.interrupterBitmap 0 i, bar0⟩

/-- The ways a call ends: no interrupter is free; no software interrupt is; no MSI-X capability is found; or it returns
an interrupter. -/
inductive CreateOutcome (x : XhciDevice) (c : CreateCall) (s : Xhci) : Option XhciInterrupter → Xhci → Prop
  | noInterrupter (hfree : freeInterrupter x s = none) : CreateOutcome x c s none s
  | noIrq {i : Nat} (hfree : freeInterrupter x s = some i) (hirq : (apicAllocateSoftwareIrq s.irq).1 = -1) :
      CreateOutcome x c s none
        { s with interrupterBitmap := setBit s.interrupterBitmap 0 i, irq := (apicAllocateSoftwareIrq s.irq).2 }
  | noMsix {i : Nat} (hfree : freeInterrupter x s = some i) (hirq : (apicAllocateSoftwareIrq s.irq).1 ≠ -1)
      (search : CapSearch) (hsearch : capabilitySearch s.ports x.pci c.fuel = some search) :
      CreateOutcome x c s none (afterIrq c s i search.ports s.bar0)
  | created {i : Nat} (hfree : freeInterrupter x s = some i) (hirq : (apicAllocateSoftwareIrq s.irq).1 ≠ -1)
      {search : CapSearch} {raw : Nat} (hsearch : capabilitySearch s.ports x.pci c.fuel = some search)
      (hraw : search.msix = some raw) :
      CreateOutcome x c s
        (some ⟨UInt8.ofNat i, toByte (apicAllocateSoftwareIrq s.irq).1,
          erstOf c.memory c.kPML4 (xhciRingCreate evtRingSize c.ptr c.trbs), xhciRingCreate evtRingSize c.ptr c.trbs⟩)
        (afterIrq c s i search.ports
          (setMsixEntry s.bar0 (msixOff.get raw + 16 * i) (apicAllocateSoftwareIrq s.irq).1))

theorem xhciInterrupterCreate_cases {x : XhciDevice} {c : CreateCall} {s s' : Xhci} {result : Option XhciInterrupter}
    (h : xhciInterrupterCreate x c s = some (result, s')) : CreateOutcome x c s result s' := by
  unfold xhciInterrupterCreate at h
  cases hfree : freeInterrupter x s with
  | none =>
      rw [hfree] at h
      obtain ⟨rfl, rfl⟩ := Prod.mk.inj (Option.some.inj h)
      exact .noInterrupter hfree
  | some i =>
      rw [hfree] at h
      simp only at h
      by_cases hirq : (apicAllocateSoftwareIrq s.irq).1 = -1
      · rw [if_pos hirq] at h
        obtain ⟨rfl, rfl⟩ := Prod.mk.inj (Option.some.inj h)
        exact .noIrq hfree hirq
      · rw [if_neg hirq] at h
        cases hsearch : capabilitySearch s.ports x.pci c.fuel with
        | none =>
            rw [hsearch] at h
            cases h
        | some search =>
            rw [hsearch] at h
            simp only at h
            cases hraw : search.msix with
            | none =>
                rw [hraw] at h
                obtain ⟨rfl, rfl⟩ := Prod.mk.inj (Option.some.inj h)
                exact .noMsix hfree hirq search hsearch
            | some raw =>
                rw [hraw] at h
                simp only at h
                by_cases hnull : add64 x.mmio (msixOff.get raw) = 0
                · rw [if_pos hnull] at h
                  obtain ⟨rfl, rfl⟩ := Prod.mk.inj (Option.some.inj h)
                  exact .noMsix hfree hirq search hsearch
                · rw [if_neg hnull] at h
                  obtain ⟨rfl, rfl⟩ := Prod.mk.inj (Option.some.inj h)
                  exact .created hfree hirq hsearch hraw

/-- With an interrupter and a software interrupt at hand, the result is that of the search for MSI-X. -/
theorem xhciInterrupterCreate_of_free {x : XhciDevice} {c : CreateCall} {s : Xhci} {i : Nat} {search : CapSearch}
    (hfree : freeInterrupter x s = some i) (hirq : (apicAllocateSoftwareIrq s.irq).1 ≠ -1)
    (hsearch : capabilitySearch s.ports x.pci c.fuel = some search) :
    (search.msix = none → xhciInterrupterCreate x c s = some (none, afterIrq c s i search.ports s.bar0)) ∧
    ∀ raw, search.msix = some raw → add64 x.mmio (msixOff.get raw) ≠ 0 → xhciInterrupterCreate x c s =
      some (some ⟨UInt8.ofNat i, toByte (apicAllocateSoftwareIrq s.irq).1,
          erstOf c.memory c.kPML4 (xhciRingCreate evtRingSize c.ptr c.trbs), xhciRingCreate evtRingSize c.ptr c.trbs⟩,
        afterIrq c s i search.ports
          (setMsixEntry s.bar0 (msixOff.get raw + 16 * i) (apicAllocateSoftwareIrq s.irq).1)) := by
  unfold xhciInterrupterCreate
  rw [hfree]
  simp only
  rw [if_neg hirq, hsearch]
  simp only
  constructor
  · intro hnone
    rw [hnone]
    rfl
  · intro raw hraw hmsix
    rw [hraw]
    simp only
    rw [if_neg hmsix]
    rfl

/-! ## Failed calls -/

theorem freeInterrupter_eq_none {x : XhciDevice} {s : Xhci} :
    freeInterrupter x s = none ↔ ∀ i < x.interrupterBitmapSize, getBit s.interrupterBitmap 0 i = true := by
  rw [freeInterrupter, List.find?_range_eq_none]
  simp only [Bool.not_not]

theorem freeInterrupter_eq_some {x : XhciDevice} {s : Xhci} {i : Nat} :
    freeInterrupter x s = some i ↔ getBit s.interrupterBitmap 0 i = false ∧ i < x.interrupterBitmapSize ∧
      ∀ j < i, getBit s.interrupterBitmap 0 j = true := by
  rw [freeInterrupter, List.find?_range_eq_some, List.mem_range]
  simp only [Bool.not_eq_true', Bool.not_not]

/-- The bitmaps, the handler table and the entries of the IO APICs are as before. -/
structure Unchanged (s s' : Xhci) : Prop where
  interrupterBitmap : s'.interrupterBitmap = s.interrupterBitmap
  kIrqSwBitmap : s'.irq.kIrqSwBitmap = s.irq.kIrqSwBitmap
  kIrqHandlers : s'.irq.kIrqHandlers = s.irq.kIrqHandlers
  ioApics : ∀ address, (s'.irq.apic.bus address).regs = (s.irq.apic.bus address).regs

theorem setBit_ne {b : Mem} {i : Nat} (h : getBit b 0 i = false) : setBit b 0 i ≠ b := by
  intro he
  have hset := getBit_setBit b 0 i i
  rw [he, h] at hset
  simp at hset

/-- **Failed calls.** Nothing is undone: a call that returns 0 leaves the tables as they were if and only if it stopped at
the first check, with every interrupter taken. -/
theorem create_failure_iff {x : XhciDevice} {c : CreateCall} {s s' : Xhci}
    (h : xhciInterrupterCreate x c s = some (none, s')) :
    Unchanged s s' ↔ ∀ i < x.interrupterBitmapSize, getBit s.interrupterBitmap 0 i = true := by
  rw [← freeInterrupter_eq_none]
  cases xhciInterrupterCreate_cases h with
  | noInterrupter hfree => exact iff_of_true ⟨rfl, rfl, rfl, fun _ => rfl⟩ hfree
  | noIrq hfree hirq =>
      rw [hfree]
      refine iff_of_false ?_ (by simp)
      intro hsame
      exact setBit_ne (freeInterrupter_eq_some.mp hfree).1 hsame.interrupterBitmap
  | noMsix hfree hirq search hsearch =>
      rw [hfree]
      refine iff_of_false ?_ (by simp)
      intro hsame
      exact setBit_ne (freeInterrupter_eq_some.mp hfree).1 hsame.interrupterBitmap

/-- A machine at boot, with empty configuration space and registers. -/
def bootXhci : Xhci := ⟨Irq.boot ⟨[], fun _ => ⟨0, fun _ => 0⟩⟩, ⟨0, fun _ => 0⟩, fun _ => 0, fun _ => 0⟩

def plainCall : CreateCall := ⟨0x1000, 0x2000, 1, 0x3000, fun _ => ⟨0, 0, 0, 0⟩, fun _ => 0, 0⟩

/-- Eight interrupters, all of them taken. -/
def takenXhci : Xhci := { bootXhci with interrupterBitmap := fun _ => 0xFF }

theorem create_failure_taken :
    xhciInterrupterCreate ⟨zeroDevice, 0xFEBC0000, 8⟩ plainCall takenXhci = some (none, takenXhci) ∧
      Unchanged takenXhci takenXhci := by
  have hcall : xhciInterrupterCreate ⟨zeroDevice, 0xFEBC0000, 8⟩ plainCall takenXhci = some (none, takenXhci) := rfl
  exact ⟨hcall, (create_failure_iff hcall).mpr (by decide)⟩

/-- A device without MSI-X: the interrupter stays taken. -/
theorem create_failure_leaks :
    ¬ ∀ s', xhciInterrupterCreate ⟨zeroDevice, 0xFEBC0000, 8⟩ plainCall bootXhci = some (none, s') →
      Unchanged bootXhci s' := by
  intro hclean
  have hfree : freeInterrupter ⟨zeroDevice, 0xFEBC0000, 8⟩ bootXhci = some 0 := by decide
  obtain ⟨hreturn, -⟩ := xhciInterrupterCreate_of_free (c := plainCall) hfree (by decide) rfl
  have hsame := hclean _ (hreturn rfl)
  exact setBit_ne (freeInterrupter_eq_some.mp hfree).1 hsame.interrupterBitmap

end Gewodsys.Dev
