import Gewodsys.Machine.Mem

/-!
# PCI configuration space: `dev/pci.c`

Configuration mechanism #1: a store to port `0xCF8` selects a dword of a function, the ports `0xCFC .. 0xCFF` are its
bytes. The configuration spaces of all functions are one byte memory, 256 bytes for each function at `functionBase`.

* `pciRead8`, `pciRead16`, `pciRead32`, `pciWrite8`, `pciWrite16`, `pciWrite32`;
* `pciRead32_eq`, `pciWrite32_eq` and the like : the accessors as loads and stores of that memory;
* `pci_accessors` : the readers read what the writers wrote, the writers change nothing else, and the readers agree.
-/

namespace Gewodsys.Dev
open Gewodsys.Machine

structure PciDevice where
  bus : UInt8
  device : UInt8
  function : UInt8
  vendorId : UInt16
  deviceId : UInt16
  classCode : UInt8
  subclassCode : UInt8
  interfaceCode : UInt8
deriving DecidableEq, Repr

def zeroDevice : PciDevice := ⟨0, 0, 0, 0, 0, 0, 0, 0⟩

/-! ## The ports -/

/-- The address register and the configuration spaces behind the data ports. -/
structure PciPorts where
  configAddress : Nat
  config : Mem

/-- `IoOut32(PCI_CONFIG_ADDRESS, address)`. -/
def PciPorts.select (p : PciPorts) (address : Nat) : PciPorts := { p with configAddress := address }

/-- The byte of configuration memory behind port `PCI_CONFIG_DATA`. -/
def PciPorts.data (p : PciPorts) : Nat := p.configAddress &&& 0xFFFFFC

/-- Bit 31 of the address register; without it the data ports do not reach configuration space. -/
def PciPorts.enabled (p : PciPorts) : Bool := p.configAddress.testBit 31

/-- `IoIn8(PCI_CONFIG_DATA + port)` and `IoIn32(PCI_CONFIG_DATA)`. -/
def PciPorts.in8 (p : PciPorts) (port : Nat) : Nat := if p.enabled then p.config.read (p.data + port) 1 else 0xFF
def PciPorts.in32 (p : PciPorts) : Nat := if p.enabled then p.config.read p.data 4 else 0xFFFFFFFF

/-- `IoOut8(PCI_CONFIG_DATA + port, value)` and `IoOut16(PCI_CONFIG_DATA + port, value)`. -/
def PciPorts.out8 (p : PciPorts) (port value : Nat) : PciPorts :=
  if p.enabled then { p with config := p.config.write (p.data + port) 1 value } else p
def PciPorts.out16 (p : PciPorts) (port value : Nat) : PciPorts :=
  if p.enabled then { p with config := p.config.write (p.data + port) 2 value } else p

/-! ## The accessors -/

def pciAddress (device : PciDevice) (offset : UInt8) : Nat :=
  (1 <<< 31) ||| (device.bus.toNat <<< 16) ||| (device.device.toNat <<< 11) ||| (device.function.toNat <<< 8) |||
    (offset.toNat &&& 0xFC)

def pciRead8 (p : PciPorts) (device : PciDevice) (offset : UInt8) : Nat × PciPorts :=
  let p := p.select (pciAddress device offset)
  (p.in8 (offset.toNat &&& 0x3), p)

def pciRead16 (p : PciPorts) (device : PciDevice) (offset : UInt8) : Nat × PciPorts :=
  let p := p.select (pciAddress device offset)
  ((p.in32 >>> ((offset.toNat &&& 2) * 8)) &&& 0xffff, p)

def pciRead32 (p : PciPorts) (device : PciDevice) (offset : UInt8) : Nat × PciPorts :=
  let (low, p) := pciRead16 p device offset
  let (high, p) := pciRead16 p device (offset + 2)
  ((high <<< 16) ||| low, p)

def pciWrite8 (p : PciPorts) (device : PciDevice) (offset value : UInt8) : PciPorts :=
  let p := p.select (pciAddress device offset)
  p.out8 (offset.toNat &&& 0x3) value.toNat

def pciWrite16 (p : PciPorts) (device : PciDevice) (offset : UInt8) (value : UInt16) : PciPorts :=
  let p := p.select (pciAddress device offset)
  p.out16 (offset.toNat &&& 0x2) value.toNat

def pciWrite32 (p : PciPorts) (device : PciDevice) (offset : UInt8) (value : UInt32) : PciPorts :=
  let p := pciWrite16 p device offset (value &&& 0xFFFF).toUInt16
  pciWrite16 p device (offset + 2) (value >>> 16).toUInt16

/-! ## Addresses -/

/-- The device number has five bits and the function number three. -/
structure PciDevice.Valid (d : PciDevice) : Prop where
  device : d.device.toNat < 32
  function : d.function.toNat < 8

/-- Where the configuration space of a function starts. -/
def functionBase (d : PciDevice) : Nat := d.bus.toNat * 2 ^ 16 + d.device.toNat * 2 ^ 11 + d.function.toNat * 2 ^ 8

theorem land_offset (o : UInt8) : o.toNat &&& 0xFC = o.toNat / 4 * 4 := by
  have h := o.toNat_lt
  rw [show (0xFC : Nat) = 2 ^ 8 - 2 ^ 2 from rfl, land_mask _ 2 8 (by decide), Nat.mod_eq_of_lt h]
  rfl

theorem land_two (x : Nat) : x &&& 2 = x % 4 / 2 * 2 := land_mask x 1 2 (by decide)

theorem pciAddress_eq {d : PciDevice} (hd : d.Valid) (o : UInt8) :
    pciAddress d o = 2 ^ 31 + functionBase d + o.toNat / 4 * 4 := by
  have hbus := d.bus.toNat_lt
  have ho := o.toNat_lt
  have hdev := hd.device
  have hfun := hd.function
  have h1 : (1 <<< 31) ||| (d.bus.toNat <<< 16) = 2 ^ 31 + d.bus.toNat * 2 ^ 16 := by
    rw [Nat.shiftLeft_eq, Nat.shiftLeft_eq]
    exact lor_eq_add (k := 31) (by omega) (by omega)
  have h2 : (2 ^ 31 + d.bus.toNat * 2 ^ 16) ||| (d.device.toNat <<< 11) =
      2 ^ 31 + d.bus.toNat * 2 ^ 16 + d.device.toNat * 2 ^ 11 := by
    rw [Nat.shiftLeft_eq]
    exact lor_eq_add (k := 16) (by omega) (by omega)
  have h3 : (2 ^ 31 + d.bus.toNat * 2 ^ 16 + d.device.toNat * 2 ^ 11) ||| (d.function.toNat <<< 8) =
      2 ^ 31 + d.bus.toNat * 2 ^ 16 + d.device.toNat * 2 ^ 11 + d.function.toNat * 2 ^ 8 := by
    rw [Nat.shiftLeft_eq]
    exact lor_eq_add (k := 11) (by omega) (by omega)
  rw [pciAddress, land_offset, h1, h2, h3, lor_eq_add (k := 8) (by omega) (by omega)]
  unfold functionBase
  omega

theorem functionBase_lt {d : PciDevice} (hd : d.Valid) : functionBase d + 256 ≤ 2 ^ 24 := by
  have hbus := d.bus.toNat_lt
  have hdev := hd.device
  have hfun := hd.function
  unfold functionBase
  omega

theorem enabled_select (p : PciPorts) {d : PciDevice} (hd : d.Valid) (o : UInt8) :
    (p.select (pciAddress d o)).enabled = true := by
  have hlt := functionBase_lt hd
  have ho := o.toNat_lt
  change (pciAddress d o).testBit 31 = true
  rw [pciAddress_eq hd, Nat.add_assoc, Nat.testBit_two_pow_add_eq, Nat.testBit_lt_two_pow (by omega)]
  rfl

theorem data_select (p : PciPorts) {d : PciDevice} (hd : d.Valid) (o : UInt8) :
    (p.select (pciAddress d o)).data = functionBase d + o.toNat / 4 * 4 := by
  have ho := o.toNat_lt
  change pciAddress d o &&& (2 ^ 24 - 2 ^ 2) = _
  rw [pciAddress_eq hd, land_mask _ 2 24 (by decide)]
  have hlt := functionBase_lt hd
  unfold functionBase at *
  omega

theorem functionBase_apart {d d' : PciDevice} (hd : d.Valid) (hd' : d'.Valid)
    (hne : (d.bus, d.device, d.function) ≠ (d'.bus, d'.device, d'.function)) :
    functionBase d + 256 ≤ functionBase d' ∨ functionBase d' + 256 ≤ functionBase d := by
  have h1 := hd.device
  have h2 := hd.function
  have h3 := hd'.device
  have h4 := hd'.function
  by_contra hnear
  unfold functionBase at hnear
  apply hne
  have hbus : d.bus.toNat = d'.bus.toNat := by omega
  have hdev : d.device.toNat = d'.device.toNat := by omega
  have hfun : d.function.toNat = d'.function.toNat := by omega
  rw [UInt8.toNat_inj.mp hbus, UInt8.toNat_inj.mp hdev, UInt8.toNat_inj.mp hfun]

/-! ## The accessors as loads and stores -/

section
variable (p : PciPorts) {d : PciDevice} (hd : d.Valid)

theorem config_pciRead16 (d : PciDevice) (o : UInt8) : (pciRead16 p d o).2.config = p.config := rfl

theorem config_pciRead32 (d : PciDevice) (o : UInt8) : (pciRead32 p d o).2.config = p.config := rfl

theorem add_two {o : UInt8} (hle : o.toNat ≤ 0xFC) : (o + 2).toNat = o.toNat + 2 := by
  rw [UInt8.toNat_add]
  exact Nat.mod_eq_of_lt (by change o.toNat + 2 < 256; omega)

include hd

theorem pciRead8_eq (o : UInt8) : (pciRead8 p d o).1 = p.config.read (functionBase d + o.toNat) 1 := by
  have hlow : o.toNat &&& 0x3 = o.toNat % 4 := land_low o.toNat 2
  rw [pciRead8]
  simp only [PciPorts.in8, enabled_select p hd, if_true]
  rw [data_select p hd, hlow, show functionBase d + o.toNat / 4 * 4 + o.toNat % 4 = functionBase d + o.toNat by omega]
  rfl

/-- A word is the half of its dword that the offset lies in. -/
theorem pciRead16_half (o : UInt8) : (pciRead16 p d o).1 = p.config.read (functionBase d + o.toNat / 2 * 2) 2 := by
  have hsplit := p.config.read_add (functionBase d + o.toNat / 4 * 4) 2 2
  have hlow := p.config.read_lt (functionBase d + o.toNat / 4 * 4) 2
  have hhigh := p.config.read_lt (functionBase d + o.toNat / 4 * 4 + 2) 2
  rw [pciRead16]
  simp only [PciPorts.in32, enabled_select p hd, if_true]
  rw [data_select p hd, land_two, show (0xffff : Nat) = 2 ^ 16 - 1 from rfl, land_low, Nat.shiftRight_eq_div_pow]
  change (p.config.read (functionBase d + o.toNat / 4 * 4) (2 + 2) / _) % _ = _
  rw [hsplit]
  rcases (by omega : o.toNat % 4 / 2 = 0 ∨ o.toNat % 4 / 2 = 1) with h | h
  · rw [h, show functionBase d + o.toNat / 2 * 2 = functionBase d + o.toNat / 4 * 4 by omega]
    omega
  · rw [h, show functionBase d + o.toNat / 2 * 2 = functionBase d + o.toNat / 4 * 4 + 2 by omega]
    omega

theorem pciRead16_eq {o : UInt8} (heven : o.toNat % 2 = 0) :
    (pciRead16 p d o).1 = p.config.read (functionBase d + o.toNat) 2 := by
  rw [pciRead16_half p hd, show o.toNat / 2 * 2 = o.toNat by omega]

theorem pciRead32_halves (o : UInt8) :
    (pciRead32 p d o).1 = p.config.read (functionBase d + o.toNat / 2 * 2) 2 +
      256 ^ 2 * p.config.read (functionBase d + (o + 2).toNat / 2 * 2) 2 := by
  have hlow := p.config.read_lt (functionBase d + o.toNat / 2 * 2) 2
  have hl := pciRead16_half p hd o
  have hh := pciRead16_half (pciRead16 p d o).2 hd (o + 2)
  rw [config_pciRead16] at hh
  rw [pciRead32]
  simp only [hl, hh]
  rw [Nat.shiftLeft_eq, lor_eq_add (k := 16) (by omega) (by omega)]
  omega

theorem pciRead32_eq {o : UInt8} (heven : o.toNat % 2 = 0) (hle : o.toNat ≤ 0xFC) :
    (pciRead32 p d o).1 = p.config.read (functionBase d + o.toNat) 4 := by
  have htwo := add_two hle
  rw [pciRead32_halves p hd, htwo, show o.toNat / 2 * 2 = o.toNat by omega,
    show (o.toNat + 2) / 2 * 2 = o.toNat + 2 by omega, ← Nat.add_assoc]
  exact (p.config.read_add (functionBase d + o.toNat) 2 2).symm

theorem pciWrite8_eq (o v : UInt8) :
    (pciWrite8 p d o v).config = p.config.write (functionBase d + o.toNat) 1 v.toNat := by
  have hlow : o.toNat &&& 0x3 = o.toNat % 4 := land_low o.toNat 2
  rw [pciWrite8]
  simp only [PciPorts.out8, enabled_select p hd, if_true]
  rw [data_select p hd, hlow, show functionBase d + o.toNat / 4 * 4 + o.toNat % 4 = functionBase d + o.toNat by omega]
  rfl

theorem pciWrite16_half (o : UInt8) (v : UInt16) :
    (pciWrite16 p d o v).config = p.config.write (functionBase d + o.toNat / 2 * 2) 2 v.toNat := by
  rw [pciWrite16]
  simp only [PciPorts.out16, enabled_select p hd, if_true]
  rw [data_select p hd, land_two,
    show functionBase d + o.toNat / 4 * 4 + o.toNat % 4 / 2 * 2 = functionBase d + o.toNat / 2 * 2 by omega]
  rfl

theorem pciWrite16_eq {o : UInt8} (heven : o.toNat % 2 = 0) (v : UInt16) :
    (pciWrite16 p d o v).config = p.config.write (functionBase d + o.toNat) 2 v.toNat := by
  rw [pciWrite16_half p hd, show o.toNat / 2 * 2 = o.toNat by omega]

theorem pciWrite32_eq {o : UInt8} (heven : o.toNat % 2 = 0) (hle : o.toNat ≤ 0xFC) (v : UInt32) :
    (pciWrite32 p d o v).config = p.config.write (functionBase d + o.toNat) 4 v.toNat := by
  have htwo := add_two hle
  have hv := v.toNat_lt
  have hhigh : (v >>> 16).toUInt16.toNat = v.toNat / 256 ^ 2 := by
    rw [UInt32.toNat_toUInt16, UInt32.toNat_shiftRight, Nat.shiftRight_eq_div_pow]
    change v.toNat / 2 ^ 16 % 2 ^ 16 = _
    omega
  have hlow : (v &&& 0xFFFF).toUInt16.toNat = v.toNat % 256 ^ 2 := by
    rw [UInt32.toNat_toUInt16, UInt32.toNat_and]
    change (v.toNat &&& (2 ^ 16 - 1)) % 2 ^ 16 = _
    rw [land_low]
    omega
  have hwrite : p.config.write (functionBase d + o.toNat) 2 (v.toNat % 256 ^ 2) =
      p.config.write (functionBase d + o.toNat) 2 v.toNat := p.config.write_mod _ _ _
  rw [pciWrite32, pciWrite16_eq _ hd (by rw [htwo]; omega), pciWrite16_eq p hd heven, htwo, ← Nat.add_assoc, hlow, hhigh,
    hwrite]
  exact p.config.write_add _ 2 2 _

end

/-! ## Readers and writers -/

/-- Byte `j` of the configuration space of a function. -/
def PciPorts.byte (p : PciPorts) (d : PciDevice) (j : Nat) : Byte := p.config (functionBase d + j)

/-- From `p` to `p'` no byte of any function changed but the bytes `o .. o + n - 1` of `d`. -/
def OnlyBytes (p p' : PciPorts) (d : PciDevice) (o n : Nat) : Prop :=
  ∀ d' : PciDevice, d'.Valid → ∀ j < 256,
    (d'.bus, d'.device, d'.function) ≠ (d.bus, d.device, d.function) ∨ j < o ∨ o + n ≤ j → p'.byte d' j = p.byte d' j

theorem onlyBytes_write {p p' : PciPorts} {d : PciDevice} (hd : d.Valid) {o n v : Nat} (hfit : o + n ≤ 256)
    (h : p'.config = p.config.write (functionBase d + o) n v) : OnlyBytes p p' d o n := by
  intro d' hd' j hj hout
  rw [PciPorts.byte, PciPorts.byte, h]
  apply Mem.write_apply_of_not_mem
  by_cases hsame : (d'.bus, d'.device, d'.function) = (d.bus, d.device, d.function)
  · have hbase : functionBase d' = functionBase d := by
      obtain ⟨h1, h2, h3⟩ : d'.bus = d.bus ∧ d'.device = d.device ∧ d'.function = d.function := by
        simpa only [Prod.mk.injEq] using hsame
      rw [functionBase, functionBase, h1, h2, h3]
    rcases hout with hout | hout | hout
    · exact absurd hsame hout
    · left; omega
    · right; omega
  · rcases functionBase_apart hd' hd hsame with hbelow | habove
    · left; omega
    · right; omega

/-- The little-endian word of the bytes `b 0 .. b (n - 1)`. -/
def composed (b : Nat → Nat) : Nat → Nat
  | 0 => 0
  | n + 1 => composed b n + 256 ^ n * b n

theorem pciRead8_composed (p : PciPorts) {d : PciDevice} (hd : d.Valid) (o : UInt8) {n : Nat} (hfit : o.toNat + n ≤ 256) :
    composed (fun i => (pciRead8 p d (o + UInt8.ofNat i)).1) n = p.config.read (functionBase d + o.toNat) n := by
  induction n with
  | zero => rfl
  | succ n ih =>
      have hoff : (o + UInt8.ofNat n).toNat = o.toNat + n := by
        rw [UInt8.toNat_add, UInt8.toNat_ofNat']
        change (o.toNat + n % 256) % 256 = _
        omega
      rw [composed, ih (by omega), pciRead8_eq p hd, hoff, Mem.read_add, Nat.add_assoc]

/-- The accessors over mechanism #1: a reader returns what the writer of its width stored at the same offset, a writer
changes its own bytes of its own function only, and the wider readers are the little-endian compositions of `PciRead8`
at successive offsets. -/
theorem pci_accessors (p : PciPorts) {d : PciDevice} (hd : d.Valid) :
    (∀ o v : UInt8, (pciRead8 (pciWrite8 p d o v) d o).1 = v.toNat ∧ OnlyBytes p (pciWrite8 p d o v) d o.toNat 1) ∧
    (∀ (o : UInt8) (v : UInt16), o.toNat % 2 = 0 →
      (pciRead16 (pciWrite16 p d o v) d o).1 = v.toNat ∧ OnlyBytes p (pciWrite16 p d o v) d o.toNat 2) ∧
    (∀ (o : UInt8) (v : UInt32), o.toNat % 2 = 0 → o.toNat ≤ 0xFC →
      (pciRead32 (pciWrite32 p d o v) d o).1 = v.toNat ∧ OnlyBytes p (pciWrite32 p d o v) d o.toNat 4) ∧
    (∀ o : UInt8, o.toNat % 2 = 0 →
      (pciRead16 p d o).1 = composed (fun i => (pciRead8 p d (o + UInt8.ofNat i)).1) 2) ∧
    ∀ o : UInt8, o.toNat % 2 = 0 → o.toNat ≤ 0xFC →
      (pciRead32 p d o).1 = composed (fun i => (pciRead8 p d (o + UInt8.ofNat i)).1) 4 := by
  refine ⟨?_, ?_, ?_, ?_, ?_⟩
  · intro o v
    have ho := o.toNat_lt
    have hwrite := pciWrite8_eq p hd o v
    constructor
    · rw [pciRead8_eq _ hd, hwrite, Mem.read_write]
      exact Nat.mod_eq_of_lt v.toNat_lt
    · exact onlyBytes_write hd (by omega) hwrite
  · intro o v heven
    have ho := o.toNat_lt
    have hwrite := pciWrite16_eq p hd heven v
    constructor
    · rw [pciRead16_eq _ hd heven, hwrite, Mem.read_write]
      exact Nat.mod_eq_of_lt v.toNat_lt
    · exact onlyBytes_write hd (by omega) hwrite
  · intro o v heven hle
    have hwrite := pciWrite32_eq p hd heven hle v
    constructor
    · rw [pciRead32_eq _ hd heven hle, hwrite, Mem.read_write]
      exact Nat.mod_eq_of_lt v.toNat_lt
    · exact onlyBytes_write hd (by omega) hwrite
  · intro o heven
    have ho := o.toNat_lt
    rw [pciRead16_eq p hd heven, pciRead8_composed p hd o (by omega)]
  · intro o heven hle
    rw [pciRead32_eq p hd heven hle, pciRead8_composed p hd o (by omega)]

/-- The last function of the last bus, at an offset that straddles two dwords. -/
theorem pci_accessors_last :
    let d : PciDevice := ⟨255, 31, 7, 0, 0, 0, 0, 0⟩
    let p : PciPorts := ⟨0, fun _ => 0⟩
    (pciRead32 (pciWrite32 p d 0x12 0xDEADBEEF) d 0x12).1 = 0xDEADBEEF ∧
      OnlyBytes p (pciWrite32 p d 0x12 0xDEADBEEF) d 0x12 4 := by
  have hd : PciDevice.Valid ⟨255, 31, 7, 0, 0, 0, 0, 0⟩ := ⟨by decide, by decide⟩
  obtain ⟨-, -, hwide, -⟩ := pci_accessors ⟨0, fun _ => 0⟩ hd
  exact hwide 0x12 0xDEADBEEF (by decide) (by decide)

end Gewodsys.Dev
