import Gewodsys.Dev.Xhci

/-!
# Register accesses of the xHCI driver

* `Mmio` : the registers behind BAR0 with a log of the accesses, as offset and size;
* `xhciInitializeRegisters`, `Mmio.setMsixEntry`, `xhciHostIrq` : the accesses of `XhciInitialize`,
  `XhciInterrupterCreate` and `XhciHostIrq` in program order;
* `InPage` : an access lies in the page of `mmio_base`, the one page the driver maps;
* `xhci_accesses_mapped_iff` : the register layouts for which every access does.
-/

namespace Gewodsys.Dev
open Gewodsys.Machine Gewodsys.Cpu

structure Mmio where
  bar0 : Mem
  log : List (Nat × Nat)

def Mmio.load (m : Mmio) (offset n : Nat) : Nat × Mmio := (m.bar0.read offset n, { m with log := m.log ++ [(offset, n)] })

def Mmio.store (m : Mmio) (offset n value : Nat) : Mmio := ⟨m.bar0.write offset n value, m.log ++ [(offset, n)]⟩

/-! ## The driver -/

def kUsbCmdRun : Nat := 1 <<< 0
def kUsbCmdHcReset : Nat := 1 <<< 1
def kUsbStsEventInterrupt : Nat := 1 <<< 3
def kUsbStsControllerNotReady : Nat := 1 <<< 11
def kImanInterruptPending : Nat := 1 <<< 0

/-- `xhci->op`, `rt`, `db` and `xcap`, as offsets from `xhci->mmio`. -/
structure XhciRegs where
  op : Nat
  rt : Nat
  db : Nat
  xcap : Nat

/-- The wait for the controller, which answers the reads of `usb_status` with `statuses`; a status that is not ready is
read a second time to be printed. -/
def waitReady (op : Nat) : List Nat → Mmio → Mmio
  | [], m => m
  | status :: statuses, m =>
      let m := (m.load (op + 0x4) 4).2
      if status &&& kUsbStsControllerNotReady ≠ 0 then waitReady op statuses (m.load (op + 0x4) 4).2 else m

/-- The register accesses of `XhciInitialize`; `dcbaap` is the physical address of the context array. The result has the
register pointers and `interrupter_bitmap_size`. -/
def xhciInitializeRegisters (m : Mmio) (statuses : List Nat) (dcbaap : Nat) : XhciRegs × Nat × Mmio :=
  let (length, m) := m.load 0x0 1
  let (runRegsOff, m) := m.load 0x18 4
  let (doorbellOffset, m) := m.load 0x14 4
  let (hccParams1, m) := m.load 0x10 4
  let regs : XhciRegs := ⟨length, runRegsOff, doorbellOffset, ((hccParams1 >>> 16) &&& 0xFFF) <<< 2⟩
  let (usbCommand, m) := m.load regs.op 4
  let m := m.store regs.op 4 (usbCommand &&& (2 ^ 32 - 1 - kUsbCmdRun))
  let (usbCommand, m) := m.load regs.op 4
  let m := m.store regs.op 4 (usbCommand ||| kUsbCmdHcReset)
  let m := waitReady regs.op statuses m
  let (hccParams1, m) := m.load 0x10 4
  let m := m.store (regs.op + 0x40) 4 (hccParams1 &&& 0xFF)
  -- the size of the context array
  let (_, m) := m.load 0x4 4
  let m := m.store (regs.op + 0x38) 4 (dcbaap % 2 ^ 32)
  let m := m.store (regs.op + 0x3C) 4 (dcbaap >>> 32)
  let (hcsParams1, m) := m.load 0x4 4
  (regs, (hcsParams1 >>> 8) &&& 0x7FF, m)

/-- The table entry of an interrupter. -/
def Mmio.setMsixEntry (m : Mmio) (entry : Nat) (irq : Int) : Mmio :=
  let m := m.store entry 8 0xFEE00000
  let m := m.store (entry + 8) 4 (irq % 2 ^ 32).toNat
  let (word, m) := m.load (entry + 12) 4
  m.store (entry + 12) 4 (msixMasked.set 0 word)

def xhciHostIrq (regs : XhciRegs) (m : Mmio) : Mmio :=
  let (usbStatus, m) := m.load (regs.op + 0x4) 4
  let m := m.store (regs.op + 0x4) 4 (usbStatus ||| kUsbStsEventInterrupt)
  let (iman, m) := m.load (regs.rt + 0x20) 4
  let m := m.store (regs.rt + 0x20) 4 (iman ||| kImanInterruptPending)
  let m := (m.load (regs.op + 0x4) 4).2
  (m.load (regs.op + 0x4) 4).2

/-! ## The logs -/

/-- The reads of the wait. -/
def waitLog (op : Nat) : List Nat → List (Nat × Nat)
  | [] => []
  | status :: statuses =>
      if status &&& kUsbStsControllerNotReady ≠ 0 then (op + 0x4, 4) :: (op + 0x4, 4) :: waitLog op statuses
      else [(op + 0x4, 4)]

theorem log_waitReady (op : Nat) (statuses : List Nat) (m : Mmio) :
    (waitReady op statuses m).log = m.log ++ waitLog op statuses := by
  induction statuses generalizing m with
  | nil => rw [waitReady, waitLog, List.append_nil]
  | cons status statuses ih =>
      rw [waitReady, waitLog]
      by_cases h : status &&& kUsbStsControllerNotReady ≠ 0
      · simp only [if_pos h]
        rw [ih]
        simp only [Mmio.load, List.append_assoc, List.singleton_append]
        rfl
      · simp only [if_neg h]
        rfl

theorem mem_waitLog {op : Nat} {statuses : List Nat} {a : Nat × Nat} (h : a ∈ waitLog op statuses) :
    a = (op + 0x4, 4) := by
  induction statuses with
  | nil => exact absurd h (by simp [waitLog])
  | cons status statuses ih =>
      rw [waitLog] at h
      split_ifs at h
      · rcases List.mem_cons.mp h with rfl | h
        · rfl
        · rcases List.mem_cons.mp h with rfl | h
          · rfl
          · exact ih h
      · exact List.mem_singleton.mp h

theorem xhciInitializeRegisters_regs (m : Mmio) (statuses : List Nat) (dcbaap : Nat) :
    (xhciInitializeRegisters m statuses dcbaap).1.op = m.bar0.read 0x0 1 ∧
      (xhciInitializeRegisters m statuses dcbaap).1.rt = m.bar0.read 0x18 4 := ⟨rfl, rfl⟩

/-- The accesses of `XhciInitialize`. -/
theorem mem_log_xhciInitializeRegisters {bar0 : Mem} {statuses : List Nat} {dcbaap : Nat} {a : Nat × Nat} :
    a ∈ (xhciInitializeRegisters ⟨bar0, []⟩ statuses dcbaap).2.2.log ↔
      a ∈ [(0x0, 1), (0x18, 4), (0x14, 4), (0x10, 4), (0x4, 4)] ∨
        a ∈ [(bar0.read 0x0 1, 4), (bar0.read 0x0 1 + 0x38, 4), (bar0.read 0x0 1 + 0x3C, 4), (bar0.read 0x0 1 + 0x40, 4)] ∨
        a ∈ waitLog (bar0.read 0x0 1) statuses := by
  simp only [xhciInitializeRegisters, Mmio.load, Mmio.store, log_waitReady, List.mem_append, List.mem_cons,
    List.not_mem_nil, or_false, false_or]
  tauto

theorem log_setMsixEntry (m : Mmio) (entry : Nat) (irq : Int) :
    (m.setMsixEntry entry irq).log = m.log ++ [(entry, 8), (entry + 8, 4), (entry + 12, 4), (entry + 12, 4)] := by
  simp only [Mmio.setMsixEntry, Mmio.load, Mmio.store, List.append_assoc, List.cons_append, List.nil_append]

theorem log_xhciHostIrq (regs : XhciRegs) (m : Mmio) :
    (xhciHostIrq regs m).log = m.log ++ [(regs.op + 0x4, 4), (regs.op + 0x4, 4), (regs.rt + 0x20, 4), (regs.rt + 0x20, 4),
      (regs.op + 0x4, 4), (regs.op + 0x4, 4)] := by
  simp only [xhciHostIrq, Mmio.load, Mmio.store, List.append_assoc, List.cons_append, List.nil_append]

/-! ## Mapped accesses -/

/-- Every byte of the access lies in the page that `MmMapMemory(mmio_base, mmio_base)` maps. -/
def InPage (mmioBase : Nat) (a : Nat × Nat) : Prop := ∀ k < a.2, add64 mmioBase (a.1 + k) / 0x1000 = mmioBase / 0x1000

theorem inPage_iff {mmioBase : Nat} (hbase : mmioBase < 2 ^ 64) {offset n : Nat} (hn : 0 < n) (hlt : offset + n < 2 ^ 63) :
    InPage mmioBase (offset, n) ↔ mmioBase % 0x1000 + offset + n ≤ 0x1000 := by
  constructor
  · intro h
    have hlast := h (n - 1) (by change n - 1 < n; omega)
    unfold add64 at hlast
    simp only at hlast
    omega
  · intro h k hk
    change k < n at hk
    unfold add64
    simp only
    omega

/-- The registers after `XhciInitialize`, the table entries of the interrupters `entries` with their interrupts, and an
interrupt of the host controller. -/
def xhciSession (bar0 : Mem) (statuses : List Nat) (dcbaap raw : Nat) (entries : List (Nat × Int)) : Mmio :=
  let (regs, _, m) := xhciInitializeRegisters ⟨bar0, []⟩ statuses dcbaap
  let m := entries.foldl (fun m e => m.setMsixEntry (msixOff.get raw + 16 * e.1) e.2) m
  xhciHostIrq regs m

theorem log_entries (off : Nat) (entries : List (Nat × Int)) (m : Mmio) :
    (entries.foldl (fun m e => m.setMsixEntry (off + 16 * e.1) e.2) m).log =
      m.log ++ entries.flatMap fun e => [(off + 16 * e.1, 8), (off + 16 * e.1 + 8, 4), (off + 16 * e.1 + 12, 4),
        (off + 16 * e.1 + 12, 4)] := by
  induction entries generalizing m with
  | nil => rw [List.foldl_nil, List.flatMap_nil, List.append_nil]
  | cons e entries ih => rw [List.foldl_cons, ih, log_setMsixEntry, List.flatMap_cons, List.append_assoc]

/-- Every access of the log lies in the page. -/
def AccessesMapped (mmioBase : Nat) (log : List (Nat × Nat)) : Prop := ∀ a ∈ log, InPage mmioBase a

/-- **Mapped accesses.** The driver maps the one page of `mmio_base`: every access lies in it if and only if the capability
registers, the operational registers, the first interrupter's registers and the table entries all end inside it. -/
theorem xhci_accesses_mapped_iff {mmioBase : Nat} (hbase : mmioBase < 2 ^ 64) (bar0 : Mem) (statuses : List Nat)
    (dcbaap raw : Nat) (entries : List (Nat × Int)) (hentries : ∀ e ∈ entries, e.1 < 2 ^ 11) :
    AccessesMapped mmioBase (xhciSession bar0 statuses dcbaap raw entries).log ↔
      mmioBase % 0x1000 + 0x1C ≤ 0x1000 ∧ mmioBase % 0x1000 + bar0.read 0x0 1 + 0x44 ≤ 0x1000 ∧
        mmioBase % 0x1000 + bar0.read 0x18 4 + 0x24 ≤ 0x1000 ∧
        ∀ e ∈ entries, mmioBase % 0x1000 + msixOff.get raw + 16 * e.1 + 16 ≤ 0x1000 := by
  have hlen : bar0.read 0x0 1 < 256 := bar0.read_lt 0x0 1
  have hrun : bar0.read 0x18 4 < 2 ^ 32 := bar0.read_lt 0x18 4
  have hoff : msixOff.get raw < 2 ^ 29 := msixOff.get_lt raw
  have hlog : ∀ a, a ∈ (xhciSession bar0 statuses dcbaap raw entries).log ↔
      (a ∈ (xhciInitializeRegisters ⟨bar0, []⟩ statuses dcbaap).2.2.log ∨
        a ∈ entries.flatMap fun e => [(msixOff.get raw + 16 * e.1, 8), (msixOff.get raw + 16 * e.1 + 8, 4),
          (msixOff.get raw + 16 * e.1 + 12, 4), (msixOff.get raw + 16 * e.1 + 12, 4)]) ∨
      a = (bar0.read 0x0 1 + 0x4, 4) ∨ a = (bar0.read 0x18 4 + 0x20, 4) := by
    intro a
    rw [xhciSession, log_xhciHostIrq, log_entries, List.mem_append, List.mem_append]
    apply or_congr_right
    simp only [List.mem_cons, List.not_mem_nil, or_false, (xhciInitializeRegisters_regs _ _ _).1,
      (xhciInitializeRegisters_regs _ _ _).2]
    tauto
  simp only [AccessesMapped, hlog, mem_log_xhciInitializeRegisters]
  constructor
  · intro h
    refine ⟨?_, ?_, ?_, ?_⟩
    · exact (inPage_iff hbase (by decide) (by decide)).mp (h (0x18, 4) (by simp))
    · have hconfig := (inPage_iff hbase (by decide) (by omega)).mp (h (bar0.read 0x0 1 + 0x40, 4) (by simp))
      omega
    · have himan := (inPage_iff hbase (by decide) (by omega)).mp (h (bar0.read 0x18 4 + 0x20, 4) (by simp))
      omega
    · intro e he
      have hindex := hentries e he
      have hmem : (msixOff.get raw + 16 * e.1 + 12, 4) ∈ entries.flatMap fun e => [(msixOff.get raw + 16 * e.1, 8),
          (msixOff.get raw + 16 * e.1 + 8, 4), (msixOff.get raw + 16 * e.1 + 12, 4),
          (msixOff.get raw + 16 * e.1 + 12, 4)] := List.mem_flatMap.mpr ⟨e, he, by simp⟩
      have hmask := (inPage_iff hbase (by decide) (by omega)).mp (h _ (Or.inl (Or.inr hmem)))
      omega
  · rintro ⟨hcap, hop, hrt, htable⟩ a (((ha | ha | ha) | ha) | rfl | rfl)
    · simp only [List.mem_cons, List.not_mem_nil, or_false] at ha
      rcases ha with rfl | rfl | rfl | rfl | rfl
      all_goals exact (inPage_iff hbase (by decide) (by decide)).mpr (by omega)
    · simp only [List.mem_cons, List.not_mem_nil, or_false] at ha
      rcases ha with rfl | rfl | rfl | rfl
      all_goals exact (inPage_iff hbase (by decide) (by omega)).mpr (by omega)
    · rw [mem_waitLog ha]
      exact (inPage_iff hbase (by decide) (by omega)).mpr (by omega)
    · obtain ⟨e, he, ha⟩ := List.mem_flatMap.mp ha
      have hindex := hentries e he
      have hentry := htable e he
      simp only [List.mem_cons, List.not_mem_nil, or_false] at ha
      rcases ha with rfl | rfl | rfl | rfl
      all_goals exact (inPage_iff hbase (by decide) (by omega)).mpr (by omega)
    · exact (inPage_iff hbase (by decide) (by omega)).mpr (by omega)
    · exact (inPage_iff hbase (by decide) (by omega)).mpr (by omega)

/-- Everything in the first page: runtime registers at `0x600`, the table field at `0x800`. -/
theorem xhci_accesses_small :
    AccessesMapped 0xFEBC0000
      (xhciSession ((Mem.write (fun _ => 0) 0x0 1 0x20).write 0x18 4 0x600) [0] 0 0x4000 [(0, 33)]).log :=
  (xhci_accesses_mapped_iff (by decide) _ _ _ _ _ (by decide)).mpr (by decide)

/-- Runtime registers at `0x1000`: the interrupt handler leaves the page. -/
theorem xhci_accesses_runtime :
    ¬ AccessesMapped 0xFEBC0000
      (xhciSession ((Mem.write (fun _ => 0) 0x0 1 0x40).write 0x18 4 0x1000) [0] 0 0x3000 [(0, 33)]).log := by
  intro h
  have hmem : (0x1020, 4) ∈
      (xhciSession ((Mem.write (fun _ => 0) 0x0 1 0x40).write 0x18 4 0x1000) [0] 0 0x3000 [(0, 33)]).log := by decide
  have hpage := (inPage_iff (by decide) (by decide) (by decide)).mp (h _ hmem)
  exact absurd hpage (by decide)

end Gewodsys.Dev
