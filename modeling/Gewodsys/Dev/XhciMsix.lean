import Gewodsys.Dev.XhciInterrupters

/-!
# The MSI-X table entry of an interrupter

The table starts at `table-offset register & ~7` in BAR0 and has 16 bytes for each entry. `XhciInterrupterCreate` writes at
the field `off` of that register, which counts units of eight bytes, and stores the interrupt's number as message data,
where the handler is registered under that number plus 32.

* `EntrySet`, `Delivered` : the entry of an interrupter carries, unmasked, the vector its handler is stored under;
* `setMsixEntry_apply` : the bytes the call changes;
* `msix_delivered_iff` : the entry is right after a call if and only if it was right before and the call missed it.
-/

namespace Gewodsys.Dev
open Gewodsys.Machine Gewodsys.Cpu

/-- Entry `index` of the table whose table-offset register is `raw`, as an offset in BAR0. -/
def tableEntry (raw index : Nat) : Nat := (raw &&& 0xFFFFFFF8) + 16 * index

/-- The table-offset register of the MSI-X capability found in configuration space. -/
def tableOffset (x : XhciDevice) (c : CreateCall) (s : Xhci) : Option Nat :=
  (capabilitySearch s.ports x.pci c.fuel).bind (·.msix)

/-- The vector under which a call registers the software interrupt it allocates. -/
def registeredVector (s : Irq) : UInt8 :=
  (apicIrqMapToVector (apicAllocateSoftwareIrq s).2 (toByte (apicAllocateSoftwareIrq s).1)).1

/-- The table entry at `entry` is unmasked and has the message data `vector`. -/
def EntrySet (bar0 : Mem) (entry vector : Nat) : Prop :=
  bar0.read (entry + 8) 4 = vector ∧ msixMasked.get (bar0.read (entry + 12) 4) = 0

instance (bar0 : Mem) (entry vector : Nat) : Decidable (EntrySet bar0 entry vector) :=
  inferInstanceAs (Decidable (bar0.read (entry + 8) 4 = vector ∧ msixMasked.get (bar0.read (entry + 12) 4) = 0))

/-- An interrupt of the interrupter reaches the handler of the call. -/
structure Delivered (c : CreateCall) (s s' : Xhci) (raw : Nat) (interrupter : XhciInterrupter) : Prop where
  entry : EntrySet s'.bar0 (tableEntry raw interrupter.index.toNat) (registeredVector s.irq).toNat
  handler : (s'.irq.kIrqHandlers (registeredVector s.irq)).handler = c.handler
  data : (s'.irq.kIrqHandlers (registeredVector s.irq)).data = c.data

/-- `IrqHandler` on the vector calls it. -/
theorem Delivered.irqHandler {c : CreateCall} {s s' : Xhci} {raw : Nat} {interrupter : XhciInterrupter}
    (h : Delivered c s s' raw interrupter) (hne : c.handler ≠ 0) :
    (Cpu.irqHandler s'.irq (registeredVector s.irq)).1 =
      some ⟨c.handler, registeredVector s.irq - 32, c.data⟩ := by
  unfold Cpu.irqHandler
  simp only [h.handler, h.data, ne_eq, hne, not_false_eq_true, if_true]

/-! ## The bytes written -/

theorem setMsixEntry_apply (bar0 : Mem) (entry : Nat) (irq : Int) {a : Nat} (ha : entry + 13 ≤ a) :
    setMsixEntry bar0 entry irq a = bar0 a := by
  have hlow : ∀ b, entry + 12 ≤ b →
      ((bar0.write entry 8 0xFEE00000).write (entry + 8) 4 (irq % 2 ^ 32).toNat) b = bar0 b := by
    intro b hb
    rw [Mem.write_apply_of_not_mem _ _ (by omega), Mem.write_apply_of_not_mem _ _ (by omega)]
  have hread : ((bar0.write entry 8 0xFEE00000).write (entry + 8) 4 (irq % 2 ^ 32).toNat).read (entry + 12) 4 =
      bar0.read (entry + 12) 4 := Mem.read_congr fun b hb _ => hlow b hb
  simp only [setMsixEntry, hread]
  by_cases hin : a < entry + 16
  · -- clearing bit 0 leaves the upper bytes of the word
    obtain ⟨k, hk⟩ : ∃ k, a = entry + 12 + (k + 1) := ⟨a - entry - 13, by omega⟩
    have hdiv :
        msixMasked.set 0 (bar0.read (entry + 12) 4) / 256 ^ (k + 1) = bar0.read (entry + 12) 4 / 256 ^ (k + 1) := by
      have hbits : msixMasked.set 0 (bar0.read (entry + 12) 4) = bar0.read (entry + 12) 4 / 2 * 2 := by
        unfold Field.set msixMasked
        simp only
        omega
      rw [pow_succ', ← Nat.div_div_eq_div_mul, ← Nat.div_div_eq_div_mul, hbits]
      congr 1
      omega
    rw [Mem.write, if_pos (by omega), hk, Nat.add_sub_cancel_left, hdiv]
    exact bar0.ofNat_read (entry + 12) (by omega)
  · rw [Mem.write_apply_of_not_mem _ _ (by omega), hlow a (by omega)]

theorem read_data_setMsixEntry (bar0 : Mem) (entry : Nat) (irq : Int) :
    (setMsixEntry bar0 entry irq).read (entry + 8) 4 = (irq % 2 ^ 32).toNat := by
  have hlt : (irq % 2 ^ 32).toNat < 256 ^ 4 := by omega
  rw [setMsixEntry, Mem.read_write_of_disjoint _ _ (by omega), Mem.read_write, Nat.mod_eq_of_lt hlt]

theorem entrySet_setMsixEntry {bar0 : Mem} {written entry : Nat} (h : written + 5 ≤ entry) (irq : Int) (vector : Nat) :
    EntrySet (setMsixEntry bar0 written irq) entry vector ↔ EntrySet bar0 entry vector := by
  have hdata : (setMsixEntry bar0 written irq).read (entry + 8) 4 = bar0.read (entry + 8) 4 :=
    Mem.read_congr fun a ha _ => setMsixEntry_apply bar0 written irq (by omega)
  have hmask : (setMsixEntry bar0 written irq).read (entry + 12) 4 = bar0.read (entry + 12) 4 :=
    Mem.read_congr fun a ha _ => setMsixEntry_apply bar0 written irq (by omega)
  rw [EntrySet, EntrySet, hdata, hmask]

theorem tableEntry_eq (raw index : Nat) : tableEntry raw index = 8 * msixOff.get raw + 16 * index := by
  have hmask : raw &&& (2 ^ 32 - 2 ^ 3) = raw % 2 ^ 32 / 2 ^ 3 * 2 ^ 3 := land_mask raw 3 32 (by decide)
  change (raw &&& (2 ^ 32 - 2 ^ 3)) + 16 * index = _
  rw [hmask]
  unfold Field.get msixOff
  simp only
  omega

/-! ## Interrupt numbers and vectors -/

theorem toNat_toByte (irq : Int) : ((toByte irq).toNat : Int) = irq % 256 := by
  unfold toByte
  rw [UInt8.toNat_ofNat']
  omega

/-- The number of an interrupt, as message data, is never its vector. -/
theorem data_ne_vector (irq : Int) : (irq % 2 ^ 32).toNat ≠ (toByte irq + 32).toNat := by
  have hbyte := toNat_toByte irq
  rw [UInt8.toNat_add]
  change _ ≠ ((toByte irq).toNat + 32) % 256
  omega

section
variable {s : Irq} (hover : ∀ i, (s.kIrqIsaOverrides i).used = 0)
include hover

theorem allocate_unused (i : Nat) : ((apicAllocateSoftwareIrq s).2.kIrqIsaOverrides i).used = 0 := by
  rw [apicAllocateSoftwareIrq_overrides]
  exact hover i

theorem registeredVector_eq : registeredVector s = toByte (apicAllocateSoftwareIrq s).1 + 32 := by
  obtain ⟨apic, hmap⟩ := apicIrqMapToVector_eq _ (toByte (apicAllocateSoftwareIrq s).1) (allocate_unused hover)
  rw [registeredVector, hmap]

theorem irqAfter_handler (handler data : Nat) :
    ((irqAfter s handler data).kIrqHandlers (registeredVector s)).handler = handler ∧
      ((irqAfter s handler data).kIrqHandlers (registeredVector s)).data = data := by
  obtain ⟨-, hreg⟩ :=
    apicRegisterIrqHandler_eq _ (toByte (apicAllocateSoftwareIrq s).1) handler data (allocate_unused hover)
  obtain ⟨-, henable⟩ := apicSetInterrupt_snd (apicRegisterIrqHandler (apicAllocateSoftwareIrq s).2
    (toByte (apicAllocateSoftwareIrq s).1) handler data) (toByte (apicAllocateSoftwareIrq s).1) 0
  have hentry := henable (registeredVector s)
  rw [hreg, registeredVector_eq hover, Function.update_self] at hentry
  rw [registeredVector_eq hover]
  exact hentry

end

/-! ## Calls -/

theorem delivered_iff {x : XhciDevice} {n : Nat} {c : CreateCall} {s s' : Xhci} {interrupter : XhciInterrupter}
    (hinv : InterrupterInv x n s) (hcall : xhciInterrupterCreate x c s = some (some interrupter, s')) {i raw : Nat}
    (hfree : freeInterrupter x s = some i) (hraw : tableOffset x c s = some raw) :
    Delivered c s s' raw interrupter ↔
      msixOff.get raw ≠ 0 ∧ EntrySet s.bar0 (tableEntry raw i) (registeredVector s.irq).toNat := by
  cases xhciInterrupterCreate_cases hcall with
  | @created i' hfree' hirq search raw' hsearch hraw' =>
      obtain rfl : i = i' := Option.some.inj (hfree.symm.trans hfree')
      obtain rfl : raw = raw' := by
        rw [tableOffset, hsearch, Option.bind_some, hraw'] at hraw
        exact (Option.some.inj hraw).symm
      have hindex : (UInt8.ofNat i).toNat = i := UInt8.toNat_ofNat_of_lt' (hinv.position_lt hfree hirq)
      obtain ⟨hhandler, hdata⟩ := irqAfter_handler hinv.overrides c.handler c.data
      have hdelivered : ∀ {bar0 ports interrupter}, interrupter.index = UInt8.ofNat i →
          (Delivered c s (afterIrq c s i ports bar0) raw interrupter ↔
            EntrySet bar0 (tableEntry raw i) (registeredVector s.irq).toNat) := by
        intro bar0 ports interrupter hi
        constructor
        · intro h
          have hentry := h.entry
          rw [hi, hindex] at hentry
          exact hentry
        · intro h
          refine ⟨?_, hhandler, hdata⟩
          rw [hi, hindex]
          exact h
      rw [hdelivered rfl, tableEntry_eq]
      by_cases hoff : msixOff.get raw = 0
      · -- the right entry, but with the interrupt's number
        refine iff_of_false ?_ (fun h => h.1 hoff)
        rintro ⟨hdata, -⟩
        rw [hoff, Nat.mul_zero, read_data_setMsixEntry, registeredVector_eq hinv.overrides] at hdata
        exact data_ne_vector _ hdata
      · rw [entrySet_setMsixEntry (by omega)]
        exact ⟨fun h => ⟨hoff, h⟩, fun h => h.2⟩

/-- **Delivery.** After every run, a call that returns an interrupter leaves its table entry unmasked and with the vector of
its handler if and only if the entry was so before and the call wrote elsewhere. The register is that of the first MSI-X
capability of the device's list, where the loop follows the list. -/
theorem msix_delivered_iff (pci : PciDevice) (mmio : Nat) (hcsParams1 : UInt32) (apic : Apic) (ports : PciPorts)
    (bar0 bytes : Mem) {ops : List XhciOp} {r : XhciRun}
    (hrun : run (xhciStep (xhciSetUp pci mmio hcsParams1))
      (xhciStart (xhciSetUp pci mmio hcsParams1) apic ports bar0 bytes) ops = some r)
    {c : CreateCall} {s' : Xhci} {interrupter : XhciInterrupter}
    (hcall : xhciInterrupterCreate (xhciSetUp pci mmio hcsParams1) c r.state = some (some interrupter, s')) {i raw : Nat}
    (hfree : freeInterrupter (xhciSetUp pci mmio hcsParams1) r.state = some i)
    (hraw : tableOffset (xhciSetUp pci mmio hcsParams1) c r.state = some raw) :
    (Delivered c r.state s' raw interrupter ↔
      msixOff.get raw ≠ 0 ∧ EntrySet r.state.bar0 (tableEntry raw i) (registeredVector r.state.irq).toNat) ∧
    ∀ cs, pci.Valid → CapChain r.state.ports.config pci (capByte r.state.ports.config pci 0x34) cs →
      FollowsList r.state.ports pci cs →
        ∃ o, (cs.find? fun o => decide (capByte r.state.ports.config pci o = 0x11)) = some o ∧
          raw = r.state.ports.config.read (functionBase pci + (o + 4) % 256) 4 := by
  have h := (interrupterRun_start (xhciSetUp pci mmio hcsParams1) apic ports bar0 bytes).run hrun
  refine ⟨delivered_iff h.inv hcall hfree hraw, fun cs hd hcs hfollows => ?_⟩
  obtain ⟨search, hsearch, hmsix⟩ := Option.bind_eq_some_iff.mp hraw
  exact hfollows.msix hd hcs hsearch hmsix

theorem firstRun_vector (bar0 : Mem) (hcsParams1 : UInt32) :
    registeredVector (firstRun bar0 hcsParams1).state.irq = 33 := by
  have hover : ∀ i, ((firstRun bar0 hcsParams1).state.irq.kIrqIsaOverrides i).used = 0 :=
    (interrupterInv_start _ _ _ _ _).overrides
  rw [registeredVector_eq hover, firstRun_irq]
  decide

/-- The first call on a device whose entry 0 already carries vector 33. -/
theorem msix_delivered_before :
    ∃ interrupter s', xhciInterrupterCreate (xhciSetUp zeroDevice 0xFEBC0000 0x800) plainCall
        (firstRun (Mem.write (fun _ => 0) 0x1008 4 33) 0x800).state = some (some interrupter, s') ∧
      Delivered plainCall (firstRun (Mem.write (fun _ => 0) 0x1008 4 33) 0x800).state s' 0x1000 interrupter := by
  obtain ⟨interrupter, s', hcall, -⟩ := firstRun_call (Mem.write (fun _ => 0) 0x1008 4 33) 0x800 (by decide)
  obtain ⟨search, hsearch, hraw⟩ := capabilitySearch_msixPorts
  have htable : tableOffset (xhciSetUp zeroDevice 0xFEBC0000 0x800) plainCall
      (firstRun (Mem.write (fun _ => 0) 0x1008 4 33) 0x800).state = some 0x1000 := by
    change (capabilitySearch msixPorts zeroDevice 1).bind (·.msix) = _
    rw [hsearch, Option.bind_some, hraw]
  refine ⟨interrupter, s', hcall, ?_⟩
  refine (msix_delivered_iff zeroDevice 0xFEBC0000 0x800 _ _ _ _ (run_nil _) hcall (i := 0) (by decide) htable).1.mpr
    ⟨by decide, ?_⟩
  change EntrySet (Mem.write (fun _ => 0) 0x1008 4 33) (tableEntry 0x1000 0)
    (registeredVector (firstRun (Mem.write (fun _ => 0) 0x1008 4 33) 0x800).state.irq).toNat
  rw [firstRun_vector]
  decide

/-- The first call on a device whose table is clear: the entry the device uses stays clear. -/
theorem msix_not_delivered :
    ∃ interrupter s', xhciInterrupterCreate (xhciSetUp zeroDevice 0xFEBC0000 0x800) plainCall
        (firstRun (fun _ => 0) 0x800).state = some (some interrupter, s') ∧
      ¬ Delivered plainCall (firstRun (fun _ => 0) 0x800).state s' 0x1000 interrupter := by
  obtain ⟨interrupter, s', hcall, hindex, hbar0⟩ := firstRun_call (fun _ => 0) 0x800 (by decide)
  refine ⟨interrupter, s', hcall, fun h => ?_⟩
  have hdata := h.entry.1
  rw [hindex, hbar0, firstRun_vector] at hdata
  exact absurd hdata (by decide)

end Gewodsys.Dev
