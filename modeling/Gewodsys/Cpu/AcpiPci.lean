import Gewodsys.Dev.Pci

/-!
# The PCI accessors of the ACPI host (`cpu/acpi.c`)

The accessors take a segment and an offset of 16 bits. `PciDevice` has no segment and the accessors of `dev/pci.c` take an
offset of eight bits; configuration mechanism #1 reaches the first 256 bytes of a function of segment zero.

* `laihostPciReadb` .. `laihostPciWrited` : the six accessors;
* `ReadsAt`, `WritesAt` : a reader, or a writer, and the bytes of configuration space it is about; `interference_iff`;
* `touched` : the bytes that an access of a given width comes to;
* `laihostPci_iff` : a writer never changes what a reader returns if and only if these bytes are apart.
-/

namespace Gewodsys.Cpu
open Gewodsys.Machine Gewodsys.Dev

/-! ## The accessors -/

/-- `{.bus = bus, .device = slot, .function = func}`. -/
def laihostDevice (bus slot func : UInt8) : PciDevice := { zeroDevice with bus, device := slot, function := func }

def laihostPciReadb (p : PciPorts) (_seg : UInt16) (bus slot func : UInt8) (offset : UInt16) : Nat × PciPorts :=
  pciRead8 p (laihostDevice bus slot func) offset.toUInt8

def laihostPciReadw (p : PciPorts) (_seg : UInt16) (bus slot func : UInt8) (offset : UInt16) : Nat × PciPorts :=
  pciRead16 p (laihostDevice bus slot func) offset.toUInt8

def laihostPciReadd (p : PciPorts) (_seg : UInt16) (bus slot func : UInt8) (offset : UInt16) : Nat × PciPorts :=
  pciRead32 p (laihostDevice bus slot func) offset.toUInt8

def laihostPciWriteb (p : PciPorts) (_seg : UInt16) (bus slot func : UInt8) (offset : UInt16) (value : UInt8) : PciPorts :=
  pciWrite8 p (laihostDevice bus slot func) offset.toUInt8 value

def laihostPciWritew (p : PciPorts) (_seg : UInt16) (bus slot func : UInt8) (offset value : UInt16) : PciPorts :=
  pciWrite16 p (laihostDevice bus slot func) offset.toUInt8 value

def laihostPciWrited (p : PciPorts) (_seg : UInt16) (bus slot func : UInt8) (offset : UInt16) (value : UInt32) : PciPorts :=
  pciWrite32 p (laihostDevice bus slot func) offset.toUInt8 value

/-- The name of a register. -/
structure PciName where
  seg : UInt16
  bus : UInt8
  slot : UInt8
  func : UInt8
  offset : UInt16
deriving DecidableEq, Repr

inductive Width where
  | byte | word | dword
deriving DecidableEq, Repr

def Width.size : Width → Nat
  | .byte => 1
  | .word => 2
  | .dword => 4

/-- The value that `laihost_pci_readb`, `w` or `d` returns for a name. -/
def PciName.read (r : PciName) (p : PciPorts) : Width → Nat
  | .byte => (laihostPciReadb p r.seg r.bus r.slot r.func r.offset).1
  | .word => (laihostPciReadw p r.seg r.bus r.slot r.func r.offset).1
  | .dword => (laihostPciReadd p r.seg r.bus r.slot r.func r.offset).1

/-- `laihost_pci_writeb`, `w` or `d` with the low bits of `value`. -/
def PciName.write (r : PciName) (p : PciPorts) (value : UInt32) : Width → PciPorts
  | .byte => laihostPciWriteb p r.seg r.bus r.slot r.func r.offset value.toUInt8
  | .word => laihostPciWritew p r.seg r.bus r.slot r.func r.offset value.toUInt16
  | .dword => laihostPciWrited p r.seg r.bus r.slot r.func r.offset value

structure PciName.Valid (r : PciName) : Prop where
  slot : r.slot.toNat < 32
  func : r.func.toNat < 8

/-- Two accesses that name no byte in common. -/
def PciName.Apart (r : PciName) (w : Width) (r' : PciName) (w' : Width) : Prop :=
  (r.seg, r.bus, r.slot, r.func) ≠ (r'.seg, r'.bus, r'.slot, r'.func) ∨
    r.offset.toNat + w.size ≤ r'.offset.toNat ∨ r'.offset.toNat + w'.size ≤ r.offset.toNat

/-! ## Readers and writers of some bytes -/

/-- A reader of the configuration bytes `base + t` for the `t` of a list, in which every byte counts. -/
structure ReadsAt (read : PciPorts → Nat) (base : Nat) (bytes : List Nat) : Prop where
  congr : ∀ p p' : PciPorts, (∀ t ∈ bytes, p.config (base + t) = p'.config (base + t)) → read p = read p'
  zero : ∀ p : PciPorts, read p = 0 ↔ ∀ t ∈ bytes, p.config (base + t) = 0

/-- A writer of these bytes. -/
structure WritesAt (write : PciPorts → UInt32 → PciPorts) (base : Nat) (bytes : List Nat) : Prop where
  frame : ∀ p value u, (∀ t ∈ bytes, u ≠ base + t) → (write p value).config u = p.config u
  ones : ∀ p, ∀ t ∈ bytes, (write p 0xFFFFFFFF).config (base + t) ≠ 0

/-- A writer and a reader interfere if and only if they have a byte in common. -/
theorem interference_iff {read : PciPorts → Nat} {write : PciPorts → UInt32 → PciPorts} {base base' : Nat}
    {bytes bytes' : List Nat} (hw : WritesAt write base bytes) (hr : ReadsAt read base' bytes') :
    (∀ p value, read (write p value) = read p) ↔ ∀ t ∈ bytes, ∀ t' ∈ bytes', base' + t' ≠ base + t := by
  constructor
  · intro hsame t ht t' ht' heq
    -- ones over a memory of zeros
    have hzero : read ⟨0, fun _ => 0⟩ = 0 := (hr.zero _).mpr fun _ _ => rfl
    rw [← hsame ⟨0, fun _ => 0⟩ 0xFFFFFFFF] at hzero
    apply hw.ones ⟨0, fun _ => 0⟩ t ht
    rw [← heq]
    exact (hr.zero _).mp hzero t' ht'
  · intro hapart p value
    apply hr.congr
    intro t' ht'
    exact hw.frame p value _ fun t ht => hapart t ht t' ht'

theorem ReadsAt.add {read read' both : PciPorts → Nat} {base : Nat} {bytes bytes' : List Nat} (h : ReadsAt read base bytes)
    (h' : ReadsAt read' base bytes') (hboth : ∀ p, both p = read p + 256 ^ 2 * read' p) :
    ReadsAt both base (bytes ++ bytes') where
  congr p q hagree := by
    have hlow := h.congr p q fun t ht => hagree t (List.mem_append_left _ ht)
    have hhigh := h'.congr p q fun t ht => hagree t (List.mem_append_right _ ht)
    rw [hboth, hboth, hlow, hhigh]
  zero p := by
    rw [List.forall_mem_append, ← h.zero, ← h'.zero, hboth]
    omega

theorem WritesAt.append {write write' : PciPorts → UInt32 → PciPorts} {base : Nat} {bytes bytes' : List Nat}
    (h : WritesAt write base bytes) (h' : WritesAt write' base bytes') :
    WritesAt (fun p value => write' (write p value) value) base (bytes ++ bytes') where
  frame p value u hout := by
    rw [List.forall_mem_append] at hout
    rw [h'.frame _ _ _ hout.2, h.frame _ _ _ hout.1]
  ones p t ht := by
    by_cases ht' : t ∈ bytes'
    · exact h'.ones _ t ht'
    · rw [h'.frame _ _ _ fun t' hmem heq => ht' (by rwa [Nat.add_left_cancel heq])]
      exact h.ones p t ((List.mem_append.mp ht).resolve_right ht')

theorem readsAt_read {read : PciPorts → Nat} {base e n : Nat} (h : ∀ p, read p = p.config.read (base + e) n) :
    ReadsAt read base (List.range' e n) where
  congr p p' hagree := by
    rw [h, h]
    apply Mem.read_congr
    intro x hle hlt
    have hbyte := hagree (x - base) (List.mem_range'_1.mpr (by omega))
    rwa [Nat.add_sub_cancel' (by omega)] at hbyte
  zero p := by
    rw [h, Mem.read_eq_zero_iff]
    constructor
    · intro hzero t ht
      have hbyte := hzero (t - e) (by have := List.mem_range'_1.mp ht; omega)
      rwa [Nat.add_assoc, Nat.add_sub_cancel' (List.mem_range'_1.mp ht).1] at hbyte
    · intro hzero k hk
      rw [Nat.add_assoc]
      exact hzero (e + k) (List.mem_range'_1.mpr (by omega))

/-- A store of `n` bytes, all of them ones for the greatest value. -/
theorem writesAt_write {write : PciPorts → UInt32 → PciPorts} {base e n : Nat} (stored : UInt32 → Nat)
    (h : ∀ p value, (write p value).config = p.config.write (base + e) n (stored value))
    (hones : ∀ k < n, BitVec.ofNat 8 (stored 0xFFFFFFFF / 256 ^ k) ≠ 0) : WritesAt write base (List.range' e n) where
  frame p value u hout := by
    rw [h]
    apply Mem.write_apply_of_not_mem
    by_contra hin
    exact hout (u - base) (List.mem_range'_1.mpr (by omega)) (by omega)
  ones p t ht := by
    have ht := List.mem_range'_1.mp ht
    rw [h, Mem.write, if_pos (by omega), Nat.add_sub_add_left]
    exact hones (t - e) (by omega)

/-! ## The bytes of an access -/

/-- The bytes of a 16-bit access: those of the even offset at or below. -/
def wordBytes (o : UInt8) : List Nat := [o.toNat / 2 * 2, o.toNat / 2 * 2 + 1]

/-- The bytes that an access comes to in the configuration space of its function. -/
def touched (offset : UInt16) : Width → List Nat
  | .byte => [offset.toUInt8.toNat]
  | .word => wordBytes offset.toUInt8
  | .dword => wordBytes offset.toUInt8 ++ wordBytes (offset.toUInt8 + 2)

theorem wordBytes_lt {o : UInt8} {t : Nat} (h : t ∈ wordBytes o) : t < 256 := by
  have ho := o.toNat_lt
  simp only [wordBytes, List.mem_cons, List.not_mem_nil, or_false] at h
  omega

theorem touched_lt {offset : UInt16} {w : Width} {t : Nat} (h : t ∈ touched offset w) : t < 256 := by
  cases w with
  | byte =>
      rw [List.mem_singleton.mp h]
      exact offset.toUInt8.toNat_lt
  | word => exact wordBytes_lt h
  | dword =>
      rcases List.mem_append.mp h with h | h
      · exact wordBytes_lt h
      · exact wordBytes_lt h

def PciName.device (r : PciName) : PciDevice := laihostDevice r.bus r.slot r.func

theorem PciName.Valid.device {r : PciName} (h : r.Valid) : r.device.Valid := ⟨h.slot, h.func⟩

theorem readsAt_word (base : Nat) (o : UInt8) :
    ReadsAt (fun p => p.config.read (base + o.toNat / 2 * 2) 2) base (wordBytes o) :=
  readsAt_read fun _ => rfl

theorem writesAt_word {d : PciDevice} (hd : d.Valid) (o : UInt8) {half : UInt32 → UInt16} (hhalf : half 0xFFFFFFFF = 0xFFFF) :
    WritesAt (fun p value => pciWrite16 p d o (half value)) (functionBase d) (wordBytes o) := by
  apply writesAt_write (fun value => (half value).toNat) fun p value => pciWrite16_half p hd o (half value)
  rw [hhalf]
  decide

theorem PciName.readsAt {r : PciName} (hr : r.Valid) (w : Width) :
    ReadsAt (fun p => r.read p w) (functionBase r.device) (touched r.offset w) := by
  cases w with
  | byte => exact readsAt_read fun p => pciRead8_eq p hr.device r.offset.toUInt8
  | word => exact readsAt_read fun p => pciRead16_half p hr.device r.offset.toUInt8
  | dword =>
      apply (readsAt_word _ r.offset.toUInt8).add (readsAt_word _ (r.offset.toUInt8 + 2))
      exact fun p => pciRead32_halves p hr.device r.offset.toUInt8

theorem PciName.writesAt {r : PciName} (hr : r.Valid) (w : Width) :
    WritesAt (fun p value => r.write p value w) (functionBase r.device) (touched r.offset w) := by
  cases w with
  | byte =>
      exact writesAt_write (fun value => value.toUInt8.toNat) (fun p value => pciWrite8_eq p hr.device r.offset.toUInt8 value.toUInt8) (by decide)
  | word => exact writesAt_word hr.device r.offset.toUInt8 rfl
  | dword => exact (writesAt_word hr.device r.offset.toUInt8 rfl).append (writesAt_word hr.device (r.offset.toUInt8 + 2) rfl)

/-- What has to be apart: the functions, or the bytes that the accesses come to. -/
def PciName.Clear (r : PciName) (w : Width) (r' : PciName) (w' : Width) : Prop :=
  (r.bus, r.slot, r.func) ≠ (r'.bus, r'.slot, r'.func) ∨ ∀ t ∈ touched r.offset w, t ∉ touched r'.offset w'

/-- **The accessors of the host** do not interfere if and only if the functions differ or the bytes behind the offsets do;
the segment and the upper half of an offset do not count. -/
theorem laihostPci_iff {r r' : PciName} (hr : r.Valid) (hr' : r'.Valid) (w w' : Width) :
    (∀ p value, r'.read (r.write p value w) w' = r'.read p w') ↔ r.Clear w r' w' := by
  rw [interference_iff (r.writesAt hr w) (r'.readsAt hr' w')]
  by_cases hsame : (r.bus, r.slot, r.func) = (r'.bus, r'.slot, r'.func)
  · have hbase : functionBase r.device = functionBase r'.device := by
      obtain ⟨hbus, hslot, hfunc⟩ : r.bus = r'.bus ∧ r.slot = r'.slot ∧ r.func = r'.func := by
        simpa only [Prod.mk.injEq] using hsame
      rw [PciName.device, PciName.device, hbus, hslot, hfunc]
    rw [PciName.Clear, or_iff_right (not_not.mpr hsame), hbase]
    constructor
    · intro hapart t ht ht'
      exact hapart t ht t ht' rfl
    · intro hclear t ht t' ht' heq
      rw [Nat.add_left_cancel heq] at ht'
      exact hclear t ht ht'
  · refine iff_of_true (fun t ht t' ht' => ?_) (Or.inl hsame)
    have hlt := touched_lt ht
    have hlt' := touched_lt ht'
    have hfar := functionBase_apart hr.device hr'.device hsame
    omega

/-- A dword stored leaves the word behind it alone. -/
theorem laihostPci_next :
    PciName.read ⟨0, 0, 31, 7, 0x14⟩ (PciName.write ⟨0, 0, 31, 7, 0x10⟩ ⟨0, fun _ => 7⟩ 0xDEADBEEF .dword) .word = 0x0707 := by
  have hsame := (@laihostPci_iff ⟨0, 0, 31, 7, 0x10⟩ ⟨0, 0, 31, 7, 0x14⟩ ⟨by decide, by decide⟩ ⟨by decide, by decide⟩
    .dword .word).mpr (Or.inr (by decide)) ⟨0, fun _ => 7⟩ 0xDEADBEEF
  exact hsame.trans (by decide)

/-- The first register of the extended space is the first register. -/
theorem laihostPci_extended : PciName.Apart ⟨0, 0, 0, 0, 0x100⟩ .byte ⟨0, 0, 0, 0, 0⟩ .byte ∧
    ¬ ∀ p value, PciName.read ⟨0, 0, 0, 0, 0⟩ (PciName.write ⟨0, 0, 0, 0, 0x100⟩ p value .byte) .byte =
      PciName.read ⟨0, 0, 0, 0, 0⟩ p .byte := by
  refine ⟨Or.inr (Or.inr (by decide)), fun hsame => ?_⟩
  exact absurd (hsame ⟨0, fun _ => 0⟩ 0x5A) (by decide)

end Gewodsys.Cpu
