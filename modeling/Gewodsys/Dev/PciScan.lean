import Gewodsys.Machine.Run
import Gewodsys.Dev.Pci

/-!
# Enumeration of the PCI functions: `PciInitialize` of `dev/pci.c`

The identification registers (vendor, device and class) are read-only, so a population of functions is what `PciRead16`
finds in them; an absent function reads vendor `0xFFFF`.

* `pciInitialize` : three nested loops over `scanFunction`, with the drivers' probes and the table of loaded drivers;
* `functions` : the enumeration order, `pciInitialize_eq_run` : the loops are one run over it;
* `entryFor`, `TableHolds` : the entries the table should hold;
* `scan_run` : what a run over any list of functions leaves, and when it stays inside the two arrays;
* `pci_scan_iff` : the populations `PciInitialize` enumerates as it should.
-/

namespace Gewodsys.Dev
open Gewodsys.Machine

/-! ## Drivers -/

structure PciDriver where
  name : String
  device : PciDevice
  tryProbe : PciDevice → Bool

def xhciTryProbe (device : PciDevice) : Bool :=
  let isQemuPci := device.vendorId == 0x1B36 && device.deviceId == 0x000D
  let isIntlPci := device.vendorId == 0x8086 && device.deviceId == 0x22B5
  isQemuPci || isIntlPci

def cherryTrailTryProbe (device : PciDevice) : Bool := device.vendorId == 0x8086 && device.deviceId == 0x22B0

def kXhciDriver : PciDriver := ⟨"USB xHCI Controller", zeroDevice, xhciTryProbe⟩
def kCherryTrailDriver : PciDriver := ⟨"CherryTrail GPU", zeroDevice, cherryTrailTryProbe⟩

def kPciDrivers : List PciDriver := [kXhciDriver, kCherryTrailDriver]

def pciDeviceClasses : List String :=
  ["Unclassified", "Mass Storage Controller", "Network Controller", "Display Controller", "Multimedia Controller",
    "Memory Controller", "Bridge Device", "Simple Communication Controller", "Base System Peripheral",
    "Input Device Controller", "Docking Station", "Processor", "Serial Bus Controller", "Wireless Controller",
    "Intelligent Controller", "Satellite Communication Controller", "Encryption Controller",
    "Signal Processing Controller", "Processing Accelerator", "Non Essential Instrumentation"]

/-! ## The scan -/

/-- The words `PciRead16` finds at offsets 0, 2 and 10 of a function. -/
structure PciIds where
  vendorId : UInt16
  deviceId : UInt16
  classCode : UInt16

/-- The identification registers of every bus, device and function. -/
abbrev Population := UInt8 → UInt8 → UInt8 → PciIds

/-- `kLoadedPciDrivers`, `kLoadedPciDriverCount` and the calls of `initialize`, each with the entry it was called on. -/
structure PciScan where
  loaded : Nat → Option PciDriver
  count : UInt8
  initialized : List PciDriver

def PciScan.start : PciScan := ⟨fun _ => none, 0, []⟩

/-- `kLoadedPciDrivers[index] = driver`, for an index inside the array. -/
def PciScan.store (s : PciScan) (index : Int) (driver : PciDriver) : Option PciScan :=
  if 0 ≤ index ∧ index < 256 then some { s with loaded := Function.update s.loaded index.toNat (some driver) } else none

/-- The record `PciInitialize` fills in for a function. -/
def deviceRecord (pop : Population) (bus device function : UInt8) : PciDevice :=
  let ids := pop bus device function
  { bus, device, function
    vendorId := ids.vendorId
    deviceId := ids.deviceId
    classCode := (ids.classCode >>> 8).toUInt8
    subclassCode := ((ids.classCode >>> 4) &&& 0xF).toUInt8
    interfaceCode := (ids.classCode &&& 0xF).toUInt8 }

/-- Load `driver` for `device`: copy it into the table, fill in its device, initialise it. -/
def loadDriver (s : PciScan) (driver : PciDriver) (device : PciDevice) : Option PciScan := do
  let s ← s.store s.count.toNat driver
  let s := { s with count := s.count + 1 }
  -- `kLoadedPciDriverCount - 1` is an `int`
  let loadedDriver := { driver with device := device }
  let s ← s.store ((s.count.toNat : Int) - 1) loadedDriver
  return { s with initialized := s.initialized ++ [loadedDriver] }

def scanFunction (pop : Population) (bus device : Nat) (s : PciScan) (function : Nat) : Option PciScan := do
  let pciDevice := deviceRecord pop (UInt8.ofNat bus) (UInt8.ofNat device) (UInt8.ofNat function)
  if pciDevice.vendorId = 0xFFFF then return s
  let _ ← pciDeviceClasses[pciDevice.classCode.toNat]?
  -- the loop over `kPciDrivers` breaks at the first driver that probes
  match kPciDrivers.find? (·.tryProbe pciDevice) with
  | none => return s
  | some driver => loadDriver s driver pciDevice

def scanDevice (pop : Population) (bus : Nat) (s : PciScan) (device : Nat) : Option PciScan :=
  run (scanFunction pop bus device) s (List.range 8)

def scanBus (pop : Population) (s : PciScan) (bus : Nat) : Option PciScan :=
  run (scanDevice pop bus) s (List.range 32)

/-- `PciInitialize` for the buses `startBus ..= endBus`. -/
def pciInitialize (pop : Population) (startBus endBus : UInt8) : Option PciScan :=
  run (scanBus pop) PciScan.start (List.range' startBus.toNat (endBus.toNat + 1 - startBus.toNat))

/-! ## The enumeration as one run -/

/-- The functions of the buses `startBus ..= endBus`, in the order of the loops. -/
def functions (startBus endBus : UInt8) : List (Nat × Nat × Nat) :=
  (List.range' startBus.toNat (endBus.toNat + 1 - startBus.toNat)).flatMap fun bus =>
    (List.range 32).flatMap fun device => (List.range 8).map fun function => (bus, device, function)

def scanAt (pop : Population) (s : PciScan) (f : Nat × Nat × Nat) : Option PciScan := scanFunction pop f.1 f.2.1 s f.2.2

theorem pciInitialize_eq_run (pop : Population) (startBus endBus : UInt8) :
    pciInitialize pop startBus endBus = run (scanAt pop) PciScan.start (functions startBus endBus) := by
  rw [pciInitialize, functions]
  apply run_flatMap
  intro s bus
  rw [scanBus]
  apply run_flatMap
  intro s device
  rw [scanDevice, run_map]
  rfl

/-! ## What the table should hold -/

/-- The record of a function of the enumeration. -/
def recordAt (pop : Population) (f : Nat × Nat × Nat) : PciDevice :=
  deviceRecord pop (UInt8.ofNat f.1) (UInt8.ofNat f.2.1) (UInt8.ofNat f.2.2)

def present (pop : Population) (f : Nat × Nat × Nat) : Bool := (recordAt pop f).vendorId != 0xFFFF

/-- The entry of a present function some driver matches: that driver with the function's own record. -/
def entryFor (pop : Population) (f : Nat × Nat × Nat) : Option PciDriver :=
  if present pop f then
    (kPciDrivers.find? (·.tryProbe (recordAt pop f))).map fun driver => { driver with device := recordAt pop f }
  else none

/-- A present function that some driver matches. -/
def matched (pop : Population) (f : Nat × Nat × Nat) : Bool :=
  present pop f && kPciDrivers.any (·.tryProbe (recordAt pop f))

/-- The table holds exactly the entries `es`, in order, and each was initialised as it stands there. -/
structure TableHolds (s : PciScan) (es : List PciDriver) : Prop where
  count : s.count.toNat = es.length
  loaded : ∀ i < es.length, s.loaded i = es[i]?
  initialized : s.initialized = es

theorem entryFor_isSome (pop : Population) (f : Nat × Nat × Nat) : (entryFor pop f).isSome = matched pop f := by
  rw [entryFor, matched]
  by_cases hp : present pop f = true
  · rw [if_pos hp, hp, Option.isSome_map, Bool.true_and]
    rw [Bool.eq_iff_iff, List.find?_isSome, List.any_eq_true]
  · rw [if_neg hp, Bool.not_eq_true _ |>.mp hp]
    rfl

/-! ## One function -/

theorem loadDriver_eq (s : PciScan) (driver : PciDriver) (device : PciDevice) :
    loadDriver s driver device =
      if s.count.toNat < 255 then
        some ⟨Function.update s.loaded s.count.toNat (some { driver with device := device }), s.count + 1,
          s.initialized ++ [{ driver with device := device }]⟩
      else none := by
  have hlt := s.count.toNat_lt
  have hfirst : s.store s.count.toNat driver =
      some { s with loaded := Function.update s.loaded s.count.toNat (some driver) } := by
    rw [PciScan.store, if_pos (by omega)]
    rfl
  rw [loadDriver, hfirst, Option.bind_eq_bind, Option.bind_some]
  by_cases hc : s.count.toNat < 255
  · have hnext : ((s.count + 1).toNat : Int) - 1 = s.count.toNat := by
      rw [UInt8.toNat_add]
      change (((s.count.toNat + 1) % 256 : Nat) : Int) - 1 = _
      omega
    rw [if_pos hc]
    simp only [hnext]
    rw [PciScan.store, if_pos (by omega), Option.bind_some]
    simp only [Int.toNat_natCast, Function.update_idem]
    rfl
  · -- the counter wraps: the second store would be at index -1
    have hnext : ((s.count + 1).toNat : Int) - 1 = -1 := by
      rw [UInt8.toNat_add]
      change (((s.count.toNat + 1) % 256 : Nat) : Int) - 1 = _
      omega
    rw [if_neg hc]
    simp only [hnext]
    rfl

theorem TableHolds.push {s : PciScan} {es : List PciDriver} (h : TableHolds s es) (hlt : es.length < 255)
    (entry : PciDriver) :
    TableHolds ⟨Function.update s.loaded s.count.toNat (some entry), s.count + 1, s.initialized ++ [entry]⟩
      (es ++ [entry]) where
  count := by
    rw [UInt8.toNat_add, h.count, List.length_append, List.length_singleton]
    exact Nat.mod_eq_of_lt (by change es.length + 1 < 256; omega)
  loaded := by
    intro i hi
    rw [List.length_append, List.length_singleton] at hi
    simp only [h.count]
    rcases Nat.lt_or_ge i es.length with hold | hnew
    · rw [Function.update_of_ne (by omega), h.loaded i hold, List.getElem?_append_left hold]
    · obtain rfl : i = es.length := by omega
      rw [Function.update_self, List.getElem?_append_right (le_refl _), Nat.sub_self]
      rfl
  initialized := by simp only [h.initialized]

/-- The class code of a present function is an index of `PciDeviceClasses`. -/
def ClassListed (pop : Population) (f : Nat × Nat × Nat) : Prop :=
  present pop f = true → (recordAt pop f).classCode.toNat < 20

section
variable (pop : Population) (s : PciScan) {f : Nat × Nat × Nat}

theorem scanAt_absent (hp : present pop f = false) : scanAt pop s f = some s := by
  have hv : (recordAt pop f).vendorId = 0xFFFF := by simpa [present] using hp
  rw [scanAt, scanFunction]
  exact if_pos hv

theorem scanAt_present (hp : present pop f = true) :
    scanAt pop s f = (pciDeviceClasses[(recordAt pop f).classCode.toNat]?).bind fun _ =>
      match kPciDrivers.find? (·.tryProbe (recordAt pop f)) with
      | none => some s
      | some driver => loadDriver s driver (recordAt pop f) := by
  have hv : ¬ (recordAt pop f).vendorId = 0xFFFF := by simpa [present] using hp
  rw [scanAt, scanFunction]
  exact if_neg hv

theorem scanAt_unlisted (hp : present pop f = true) (hc : ¬ (recordAt pop f).classCode.toNat < 20) :
    scanAt pop s f = none := by
  have hnone : pciDeviceClasses[(recordAt pop f).classCode.toNat]? = none := by
    rw [List.getElem?_eq_none_iff]
    exact Nat.le_of_not_lt hc
  rw [scanAt_present pop s hp, hnone, Option.bind_none]

theorem scanAt_listed (hp : present pop f = true) (hc : (recordAt pop f).classCode.toNat < 20) :
    scanAt pop s f =
      match kPciDrivers.find? (·.tryProbe (recordAt pop f)) with
      | none => some s
      | some driver => loadDriver s driver (recordAt pop f) := by
  have hsome : pciDeviceClasses[(recordAt pop f).classCode.toNat]? =
      some (pciDeviceClasses.get ⟨(recordAt pop f).classCode.toNat, hc⟩) := List.getElem?_eq_getElem hc
  rw [scanAt_present pop s hp, hsome, Option.bind_some]

end

/-- One function: its entry is added, unless an index leaves its array. -/
theorem TableHolds.scanAt (pop : Population) {s : PciScan} {es : List PciDriver} (h : TableHolds s es)
    (hle : es.length ≤ 255) (f : Nat × Nat × Nat) :
    (ClassListed pop f ∧ (es ++ (entryFor pop f).toList).length ≤ 255 ∧
      ∃ t, Dev.scanAt pop s f = some t ∧ TableHolds t (es ++ (entryFor pop f).toList)) ∨
    (¬ (ClassListed pop f ∧ (es ++ (entryFor pop f).toList).length ≤ 255) ∧ Dev.scanAt pop s f = none) := by
  by_cases hp : present pop f = true
  · by_cases hc : (recordAt pop f).classCode.toNat < 20
    · have hlisted : ClassListed pop f := fun _ => hc
      have hscan := scanAt_listed pop s hp hc
      rw [entryFor, if_pos hp]
      cases hfind : kPciDrivers.find? (·.tryProbe (recordAt pop f)) with
      | none =>
          rw [hfind] at hscan
          left
          rw [Option.map_none, Option.toList_none, List.append_nil]
          exact ⟨hlisted, hle, s, hscan, h⟩
      | some driver =>
          rw [hfind] at hscan
          simp only [loadDriver_eq, h.count] at hscan
          rw [Option.map_some, Option.toList_some, List.length_append, List.length_singleton]
          by_cases hlt : es.length < 255
          · rw [if_pos hlt] at hscan
            have hpush := h.push hlt { driver with device := recordAt pop f }
            rw [h.count] at hpush
            exact Or.inl ⟨hlisted, by omega, _, hscan, hpush⟩
          · rw [if_neg hlt] at hscan
            exact Or.inr ⟨fun hbound => hlt (by omega), hscan⟩
    · exact Or.inr ⟨fun hboth => hc (hboth.1 hp), scanAt_unlisted pop s hp hc⟩
  · have hnone : entryFor pop f = none := by rw [entryFor, if_neg hp]
    have hpf : present pop f = false := by simpa using hp
    left
    rw [hnone, Option.toList_none, List.append_nil]
    exact ⟨fun hpres => absurd hpres hp, hle, s, scanAt_absent pop s hpf, h⟩

/-! ## Every run -/

/-- A run over any list of functions adds their entries in order and stays inside the arrays, if and only if every present
function has a listed class and the entries leave the counter below its wrap. -/
theorem scan_run (pop : Population) {s : PciScan} {es : List PciDriver} (h : TableHolds s es) (hle : es.length ≤ 255)
    (fs : List (Nat × Nat × Nat)) :
    ((∀ f ∈ fs, ClassListed pop f) ∧ (es ++ fs.filterMap (entryFor pop)).length ≤ 255 ∧
      ∃ t, run (scanAt pop) s fs = some t ∧ TableHolds t (es ++ fs.filterMap (entryFor pop))) ∨
    (¬ ((∀ f ∈ fs, ClassListed pop f) ∧ (es ++ fs.filterMap (entryFor pop)).length ≤ 255) ∧
      run (scanAt pop) s fs = none) := by
  induction fs generalizing s es with
  | nil =>
      left
      rw [List.filterMap_nil, List.append_nil]
      exact ⟨fun f hf => absurd hf (by simp), hle, s, rfl, h⟩
  | cons f fs ih =>
      have hsplit : es ++ (f :: fs).filterMap (entryFor pop) =
          (es ++ (entryFor pop f).toList) ++ fs.filterMap (entryFor pop) := by
        rw [List.append_assoc, List.filterMap_cons]
        cases entryFor pop f <;> rfl
      rw [hsplit, List.forall_mem_cons, run_cons]
      rcases h.scanAt pop hle f with ⟨hlisted, hroom, t, hstep, ht⟩ | ⟨hbad, hstep⟩
      · rw [hstep, Option.bind_some]
        rcases ih ht hroom with ⟨hall, hfit, hrun⟩ | ⟨hbad, hrun⟩
        · exact Or.inl ⟨⟨hlisted, hall⟩, hfit, hrun⟩
        · exact Or.inr ⟨fun hboth => hbad ⟨hboth.1.2, hboth.2⟩, hrun⟩
      · rw [hstep, Option.bind_none]
        right
        refine ⟨fun hboth => hbad ⟨hboth.1.1, ?_⟩, rfl⟩
        have hlen := hboth.2
        rw [List.length_append] at hlen
        omega

/-- `PciInitialize` stays inside its arrays and ends with exactly one entry for each present function a driver matches,
in enumeration order, each initialised with its own record. -/
def Enumerated (pop : Population) (startBus endBus : UInt8) : Prop :=
  ∃ s, pciInitialize pop startBus endBus = some s ∧
    TableHolds s ((functions startBus endBus).filterMap (entryFor pop))

theorem pci_scan_iff (pop : Population) (startBus endBus : UInt8) :
    Enumerated pop startBus endBus ↔
      (∀ f ∈ functions startBus endBus, present pop f = true → (recordAt pop f).classCode.toNat < 20) ∧
        (functions startBus endBus).countP (matched pop) ≤ 255 := by
  have hcount : ((functions startBus endBus).filterMap (entryFor pop)).length =
      (functions startBus endBus).countP (matched pop) := by
    rw [List.length_filterMap_eq_countP]
    congr 1
    funext f
    exact entryFor_isSome pop f
  have hstart : TableHolds PciScan.start [] := ⟨rfl, fun i hi => absurd hi (by simp), rfl⟩
  have hrun := scan_run pop hstart (by simp) (functions startBus endBus)
  rw [List.nil_append, hcount, ← pciInitialize_eq_run] at hrun
  constructor
  · rintro ⟨s, hs, -⟩
    rcases hrun with ⟨hall, hfit, -⟩ | ⟨-, hnone⟩
    · exact ⟨hall, hfit⟩
    · exact absurd (hs.symm.trans hnone) (by simp)
  · rintro ⟨hall, hfit⟩
    rcases hrun with ⟨-, -, hok⟩ | ⟨hbad, -⟩
    · exact hok
    · exact absurd ⟨hall, hfit⟩ hbad

/-- One function of class `0xFF`, on bus 0: the name of its class is read behind the end of the table. -/
theorem pci_scan_unlisted :
    ¬ Enumerated (fun bus device function => if bus = 0 ∧ device = 0 ∧ function = 0 then ⟨0x8086, 0x1234, 0xFF00⟩
      else ⟨0xFFFF, 0xFFFF, 0xFFFF⟩) 0 0 := by
  rintro ⟨s, hs, -⟩
  have hfirst : functions 0 0 = (0, 0, 0) :: (functions 0 0).tail := rfl
  rw [pciInitialize_eq_run, hfirst, run_cons, scanAt_unlisted _ _ (by decide) (by decide), Option.bind_none] at hs
  exact absurd hs (by simp)

end Gewodsys.Dev
