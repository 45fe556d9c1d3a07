import Gewodsys.Cpu.ApicMasks
import Gewodsys.Cpu.Madt
import Gewodsys.Lib.List
import Gewodsys.Machine.Run
import Gewodsys.Mem.HeapSource

/-!
# `ApicInitialize` (`cpu/apic.c`)

* `apicInitialize` : the walk over the MADT, a list node for each IO APIC with all its interrupts masked, then the set-up
  of the interrupts;
* `MadtRecords` : the entries of a table, one after the other;
* `Built` : the list, the count and the mask bits after some entries; `Built.ioApic`, `Built.run` : one entry, all entries;
* `apic_initialize_masked` : the list of IO APICs is that of the table, and every interrupt stays masked.
-/

namespace Gewodsys.Cpu
open Gewodsys.Machine Gewodsys.Lib Gewodsys.Mem

/-! ## Model -/

def ioapicVersion : Nat := 0x01

def ioApicRead (b : Bus) (address index : Nat) : BitVec 32 × Bus :=
  let b := b.select address index
  (b.window address, b)

/-- Mask all interrupts: `for (i = 0; i <= max_rentry; i++)`. -/
def ioApicMaskAll (b : Bus) (address : Nat) (maxRentry : UInt8) : Bus :=
  (List.range (maxRentry.toNat + 1)).foldl (fun b i => rentryAssign b address i [(Rentry.mask, 1)]) b

/-- What `ApicInitialize` works on; the `IoApic` structures are found in `nodes` by address. -/
structure ApicTables (σ : Type) where
  heap : σ
  nodes : Nat → IoApic
  kIoApics : Links
  kNumIoApics : UInt32
  kLocalApicAddress : Nat
  bus : Bus
  /-- The calls `MmMapMemory(a, a)` so far. -/
  mapped : List Nat

section
variable {σ : Type} (kmalloc : σ → Option (Nat × σ)) (m : Mem)

/-- The entry of an IO APIC. -/
def apicAddIoApic (s : ApicTables σ) (entry : Nat) : Option (ApicTables σ) :=
  (kmalloc s.heap).map fun (ioapic, heap) =>
    let id := UInt8.ofNat (m.read (entry + 2) 1)
    let gsiBase := UInt32.ofNat (m.read (entry + 8) 4)
    let physAddr := m.read (entry + 4) 4
    let (version, bus) := ioApicRead s.bus physAddr ioapicVersion
    let maxRentry := UInt8.ofNat ((version.toNat >>> 16) &&& 0xFF)
    let bus := ioApicMaskAll bus physAddr maxRentry
    { s with
      heap := heap
      nodes := Function.update s.nodes ioapic
        ⟨id, maxRentry, UInt8.ofNat (version.toNat &&& 0xFF), gsiBase, physAddr, physAddr⟩
      kIoApics := listAdd s.kIoApics ioapic
      kNumIoApics := s.kNumIoApics + 1
      bus := bus
      mapped := s.mapped ++ [physAddr] }

/-- The body of the walk; what it does with the other entries is print. -/
def apicMadtEntry (s : ApicTables σ) (entry : Nat) : Option (ApicTables σ) :=
  if entryType m entry = acpiMadtTypeIoApic then apicAddIoApic kmalloc m s entry else some s

/-- The tables after the walk, and the interrupts as `ApicInitializeInterrupts` leaves them, with the devices as it leaves
them. The legacy interrupt controller is left out. -/
def apicInitialize (fuel : Nat) (madt : Nat) (s : ApicTables σ) : Option (ApicTables σ × Irq) :=
  let localApicAddress := madtLocalApicAddress m madt
  let s := { s with kLocalApicAddress := localApicAddress, mapped := s.mapped ++ [localApicAddress] }
  (madtWalk m (madt + madtLength m madt) fuel (madt + sizeofAcpiMadt)).bind fun entries =>
    (run (apicMadtEntry kmalloc m) s entries).bind fun s =>
      (listForeach s.kIoApics.link fuel s.kIoApics.head.first).map fun ioapics =>
        (s, apicInitializeInterrupts (Irq.boot ⟨ioapics.map s.nodes, s.bus⟩))

end

/-! ## The entries of a table -/

inductive MadtRecord where
  | localApic
  | ioApic (id : UInt8) (address gsiBase : UInt32)
  | other (type length : UInt8)
deriving DecidableEq, Repr

def MadtRecord.length : MadtRecord → Nat
  | .localApic => 8
  | .ioApic _ _ _ => 12
  | .other _ length => length.toNat

/-- The record `r` is at `entry`. -/
def MadtRecord.At (m : Mem) (entry : Nat) : MadtRecord → Prop
  | .localApic => entryType m entry = acpiMadtTypeLocalApic ∧ entryLength m entry = 8
  | .ioApic id address gsiBase => entryType m entry = acpiMadtTypeIoApic ∧ entryLength m entry = 12 ∧
      m.read (entry + 2) 1 = id.toNat ∧ m.read (entry + 4) 4 = address.toNat ∧ m.read (entry + 8) 4 = gsiBase.toNat
  | .other type length => 2 ≤ type.toNat ∧ 2 ≤ length.toNat ∧ entryType m entry = type.toNat ∧
      entryLength m entry = length.toNat

/-- The records `rs` follow each other from `entry` to `stop`. -/
def MadtRecords (m : Mem) (stop : Nat) : Nat → List MadtRecord → Prop
  | entry, [] => entry = stop
  | entry, r :: rs => r.At m entry ∧ MadtRecords m stop (entry + r.length) rs

/-- The IO APICs of a table: `id`, `gsi_base` and `address`. -/
def ioApics (rs : List MadtRecord) : List (UInt8 × UInt32 × Nat) :=
  rs.filterMap fun
    | .ioApic id address gsiBase => some (id, gsiBase, address.toNat)
    | _ => none

/-- Where the records start. -/
def recordEntries : Nat → List MadtRecord → List Nat
  | _, [] => []
  | entry, r :: rs => entry :: recordEntries (entry + r.length) rs

theorem MadtRecord.At.length_eq {m : Mem} {entry : Nat} {r : MadtRecord} (h : r.At m entry) :
    entryLength m entry = r.length ∧ 2 ≤ r.length := by
  cases r with
  | localApic => exact ⟨h.2, by decide⟩
  | ioApic id address gsiBase => exact ⟨h.2.1, (by decide : 2 ≤ 12)⟩
  | other type length => exact ⟨h.2.2.2, h.2.1⟩

theorem MadtRecords.le {m : Mem} {stop entry : Nat} {rs : List MadtRecord} (h : MadtRecords m stop entry rs) :
    entry + 12 * (ioApics rs).length ≤ stop := by
  induction rs generalizing entry with
  | nil => exact le_of_eq h
  | cons r rs ih =>
      have hrest := ih h.2
      cases r with
      | localApic =>
          change entry + 12 * (ioApics rs).length ≤ stop
          omega
      | ioApic id address gsiBase =>
          change entry + 12 * ((ioApics rs).length + 1) ≤ stop
          change entry + 12 + 12 * (ioApics rs).length ≤ stop at hrest
          omega
      | other type length =>
          change entry + 12 * (ioApics rs).length ≤ stop
          omega

theorem MadtRecords.walk {m : Mem} {stop entry : Nat} {rs : List MadtRecord} (h : MadtRecords m stop entry rs)
    {fuel : Nat} (hfuel : rs.length < fuel) : madtWalk m stop fuel entry = some (recordEntries entry rs) := by
  induction rs generalizing entry fuel with
  | nil =>
      obtain ⟨k, rfl⟩ := Nat.exists_eq_add_of_lt hfuel
      rw [madtWalk, if_neg (by rw [show entry = stop from h]; exact lt_irrefl stop)]
      rfl
  | cons r rs ih =>
      obtain ⟨k, rfl⟩ := Nat.exists_eq_add_of_lt hfuel
      obtain ⟨hlen, hpos⟩ := h.1.length_eq
      have hle := h.2.le
      rw [madtWalk, if_pos (by omega), hlen, ih h.2 (by rw [List.length_cons]; omega)]
      rfl

/-! ## Masking an IO APIC -/

/-- The mask bit of redirection entry `j`: bit 16 of register `0x10 + 2 j`. -/
def maskBit (regs : Nat → BitVec 32) (j : Nat) : Nat := (regs (ioapicRentryBase + 2 * j)).toNat / 2 ^ 16 % 2

/-- The index of the last redirection entry, as the version register has it. -/
def lastRentry (regs : Nat → BitVec 32) : Nat := (regs ioapicVersion).toNat / 2 ^ 16 % 256

theorem maskBit_of_masked {regs : Nat → BitVec 32} {j : Nat} (hj : j ≤ 119) (h : Masked regs j) : maskBit regs j = 1 := by
  have hindex : rentryIndex j = ioapicRentryBase + 2 * j := Nat.mod_eq_of_lt (by unfold ioapicRentryBase; omega)
  have hlow := (regs (ioapicRentryBase + 2 * j)).isLt
  simp only [Masked, Rentry.mask, Field.get, rentryOf, hindex, pow_one] at h
  unfold maskBit
  omega

theorem ioApicRead_regs (b : Bus) (address index x : Nat) : ((ioApicRead b address index).2 x).regs = (b x).regs := by
  unfold ioApicRead Bus.select
  by_cases hx : x = address
  · subst hx
    simp only [Function.update_self]
  · simp only [Function.update_of_ne hx]

theorem toNat_maxRentry (regs : Nat → BitVec 32) :
    (UInt8.ofNat (((regs ioapicVersion).toNat >>> 16) &&& 0xFF)).toNat = lastRentry regs := by
  rw [UInt8.toNat_ofNat', Nat.shiftRight_eq_div_pow, show (0xFF : Nat) = 2 ^ 8 - 1 from rfl, land_low, Nat.mod_mod]
  rfl

theorem ioApicRead_version (b : Bus) (address : Nat) :
    (ioApicRead b address ioapicVersion).1 = (b address).regs ioapicVersion := by
  simp only [ioApicRead, Bus.select, Bus.window, Function.update_self]
  rfl

theorem ioApicMaskAll_regs_of_ne (b : Bus) {address x : Nat} (hx : x ≠ address) (maxRentry : UInt8) :
    (ioApicMaskAll b address maxRentry x).regs = (b x).regs := by
  unfold ioApicMaskAll
  generalize List.range (maxRentry.toNat + 1) = is
  induction is generalizing b with
  | nil => rfl
  | cons i is ih => rw [List.foldl_cons, ih, rentryAssign_regs_of_ne b hx]

theorem keepsMask_mask : ∀ p ∈ [(Rentry.mask, 1)], KeepsMask p := by
  intro p hp
  rw [List.mem_singleton.mp hp]
  exact ⟨by decide, Or.inr rfl⟩

theorem rentryAssign_masked_self (b : Bus) (address j : Nat) :
    Masked (rentryAssign b address j [(Rentry.mask, 1)] address).regs j := by
  have hlt : Rentry.assign [(Rentry.mask, 1)] (rentryOf (b address).regs j) < 2 ^ 64 :=
    assign_lt keepsMask_mask (rentryOf_lt _ _)
  unfold Masked
  rw [rentryAssign_regs_self, rentryOf_setRentryOf _ _ _ hlt, Rentry.assign, List.foldl_cons, List.foldl_nil,
    Field.get_set]
  rfl

theorem rentryAssigns_masked {b : Bus} {x j : Nat} (h : Masked (b x).regs j) (address : Nat) (is : List Nat) :
    Masked (is.foldl (fun b i => rentryAssign b address i [(Rentry.mask, 1)]) b x).regs j := by
  induction is generalizing b with
  | nil => exact h
  | cons i is ih => exact ih (rentryAssign_masked keepsMask_mask h address i)

/-- **The masking loop** masks every entry, and unmasks none anywhere. -/
theorem ioApicMaskAll_masked (b : Bus) (address : Nat) (maxRentry : UInt8) {j : Nat} (hj : j ≤ maxRentry.toNat) :
    Masked (ioApicMaskAll b address maxRentry address).regs j := by
  obtain ⟨before, after, hsplit⟩ := List.append_of_mem (List.mem_range.mpr (Nat.lt_succ_of_le hj))
  unfold ioApicMaskAll
  rw [Nat.succ_eq_add_one] at hsplit
  rw [hsplit, List.foldl_append, List.foldl_cons]
  exact rentryAssigns_masked (rentryAssign_masked_self _ address j) address after

/-! ## The walk -/

section
variable {σ : Type} {src : BlockSource σ} {m : Mem} {bus : Bus}

/-- The tables after the IO APICs `found`, in the structures `ptrs`; `n` more are to come, and `bus` is how they were
found. -/
structure Built (src : BlockSource σ) (bus : Bus) (n : Nat) (found : List (UInt8 × UInt32 × Nat)) (ptrs : List Nat)
    (s : ApicTables σ) : Prop where
  list : ListRep s.kIoApics ptrs
  nodes : (ptrs.map fun p => ((s.nodes p).id, (s.nodes p).gsiBase, (s.nodes p).address)) = found
  count : s.kNumIoApics.toNat = ptrs.length
  ready : src.Ready n ptrs.reverse s.heap
  last : ∀ p ∈ ptrs, (s.nodes p).maxRentry.toNat = lastRentry (bus (s.nodes p).address).regs
  masked : ∀ p ∈ ptrs, ∀ j ≤ (s.nodes p).maxRentry.toNat, Masked (s.bus (s.nodes p).address).regs j
  others : ∀ x ∉ found.map (·.2.2), (s.bus x).regs = (bus x).regs

/-- The entry of an IO APIC puts one structure at the end of the list and writes one device. -/
theorem apicMadtEntry_ioApic {s : ApicTables σ} {entry : Nat} {id : UInt8} {address gsiBase : UInt32}
    (hat : (MadtRecord.ioApic id address gsiBase).At m entry) {p : Nat} {heap : σ}
    (halloc : src.alloc s.heap = some (p, heap)) :
    ∃ s' a b, apicMadtEntry src.alloc m s entry = some s' ∧ s'.heap = heap ∧ s'.nodes = Function.update s.nodes p a ∧
      s'.kIoApics = listAdd s.kIoApics p ∧ s'.kNumIoApics = s.kNumIoApics + 1 ∧
      (a.id, a.gsiBase, a.address) = (id, gsiBase, address.toNat) ∧
      a.maxRentry.toNat = lastRentry (s.bus address.toNat).regs ∧
      s'.bus = ioApicMaskAll b address.toNat a.maxRentry ∧ ∀ x, (b x).regs = (s.bus x).regs := by
  obtain ⟨htype, -, hid, haddress, hgsi⟩ := hat
  refine ⟨_, _, _, by rw [apicMadtEntry, if_pos htype, apicAddIoApic, halloc, Option.map_some], rfl, rfl, rfl, rfl, ?_,
    ?_, ?_, ioApicRead_regs s.bus address.toNat ioapicVersion⟩
  · simp only [hid, haddress, hgsi, UInt8.ofNat_toNat, UInt32.ofNat_toNat]
  · simp only [haddress, ioApicRead_version]
    exact toNat_maxRentry _
  · simp only [haddress]

theorem Built.ioApic {n : Nat} {found : List (UInt8 × UInt32 × Nat)} {ptrs : List Nat} {s : ApicTables σ}
    (h : Built src bus (n + 1) found ptrs s) {entry : Nat} {id : UInt8} {address gsiBase : UInt32}
    (hat : (MadtRecord.ioApic id address gsiBase).At m entry) (hnew : address.toNat ∉ found.map (·.2.2))
    (hroom : ptrs.length + 1 < 2 ^ 32) :
    ∃ p s', apicMadtEntry src.alloc m s entry = some s' ∧
      Built src bus n (found ++ [(id, gsiBase, address.toNat)]) (ptrs ++ [p]) s' := by
  obtain ⟨p, heap, halloc, h0, hfresh, hready⟩ := src.alloc_spec h.ready
  rw [List.mem_reverse] at hfresh
  obtain ⟨s', a, b, hstep, hheap, hnodes, hlist, hcount, hnode, hlast, hbus, hb⟩ := apicMadtEntry_ioApic hat halloc
  have haddress : a.address = address.toNat := congrArg (fun t => t.2.2) hnode
  have hself : s'.nodes p = a := by rw [hnodes, Function.update_self]
  have hkept : ∀ q ∈ ptrs, s'.nodes q = s.nodes q := by
    intro q hq
    have hne : q ≠ p := fun he => hfresh (he ▸ hq)
    rw [hnodes, Function.update_of_ne hne]
  have hregs : ∀ x, x ≠ address.toNat → (s'.bus x).regs = (s.bus x).regs := by
    intro x hx
    rw [hbus, ioApicMaskAll_regs_of_ne b hx, hb]
  refine ⟨p, s', hstep, ?_, ?_, ?_, ?_, ?_, ?_, ?_⟩
  · rw [hlist]
    exact h.list.add hfresh h0
  · rw [List.map_append, List.map_singleton, hself, hnode, ← h.nodes]
    congr 1
    apply List.map_congr_left
    intro q hq
    rw [hkept q hq]
  · rw [hcount, UInt32.toNat_add, h.count, List.length_append]
    exact Nat.mod_eq_of_lt hroom
  · rw [List.reverse_append, hheap]
    exact hready
  · intro q hq
    rcases List.mem_append.mp hq with hq | hq
    · rw [hkept q hq]
      exact h.last q hq
    · rw [List.mem_singleton.mp hq, hself, hlast, h.others _ hnew, haddress]
  · intro q hq
    rcases List.mem_append.mp hq with hq | hq
    · -- the window of another IO APIC
      have hwas : (s.nodes q).address ∈ found.map (·.2.2) := by
        rw [← h.nodes, List.map_map]
        exact List.mem_map_of_mem hq
      have hne : (s.nodes q).address ≠ address.toNat := fun he => hnew (he ▸ hwas)
      rw [hkept q hq, hregs _ hne]
      exact h.masked q hq
    · rw [List.mem_singleton.mp hq, hself, haddress, hbus]
      intro j hj
      exact ioApicMaskAll_masked b address.toNat a.maxRentry hj
  · intro x hx
    rw [List.map_append, List.mem_append, not_or] at hx
    have hne : x ≠ address.toNat := fun he => hx.2 (by simp [he])
    rw [hregs x hne]
    exact h.others x hx.1

theorem apicMadtEntry_other {s : ApicTables σ} {entry : Nat} {r : MadtRecord} (hat : r.At m entry)
    (hother : ∀ id address gsiBase, r ≠ .ioApic id address gsiBase) : apicMadtEntry src.alloc m s entry = some s := by
  have htype : entryType m entry ≠ acpiMadtTypeIoApic := by
    cases r with
    | localApic =>
        rw [hat.1]
        decide
    | ioApic id address gsiBase => exact absurd rfl (hother id address gsiBase)
    | other type length =>
        have h2 := hat.1
        rw [hat.2.2.1]
        unfold acpiMadtTypeIoApic
        omega
  rw [apicMadtEntry, if_neg htype]

theorem Built.run {rs : List MadtRecord} {stop entry : Nat} (hrs : MadtRecords m stop entry rs)
    {found : List (UInt8 × UInt32 × Nat)} {ptrs : List Nat} {s : ApicTables σ}
    (h : Built src bus (ioApics rs).length found ptrs s) (hdistinct : ((found ++ ioApics rs).map (·.2.2)).Nodup)
    (hroom : ptrs.length + (ioApics rs).length < 2 ^ 32) :
    ∃ s' ptrs', Machine.run (apicMadtEntry src.alloc m) s (recordEntries entry rs) = some s' ∧
      Built src bus 0 (found ++ ioApics rs) ptrs' s' := by
  induction rs generalizing entry found ptrs s with
  | nil =>
      refine ⟨s, ptrs, rfl, ?_⟩
      rw [show ioApics [] = [] from rfl, List.append_nil]
      exact h
  | cons r rs ih =>
      obtain ⟨hat, hrest⟩ := hrs
      by_cases hio : ∃ id address gsiBase, r = .ioApic id address gsiBase
      · obtain ⟨id, address, gsiBase, rfl⟩ := hio
        have hcons : ioApics (.ioApic id address gsiBase :: rs) = (id, gsiBase, address.toNat) :: ioApics rs := rfl
        rw [hcons] at h hdistinct hroom ⊢
        rw [List.length_cons] at h hroom
        have hnew : address.toNat ∉ found.map (·.2.2) := by
          intro hmem
          rw [List.map_append, List.nodup_append] at hdistinct
          exact hdistinct.2.2 _ hmem _ (by simp) rfl
        obtain ⟨p, s₁, hstep, h₁⟩ := h.ioApic hat hnew (by omega)
        rw [List.append_cons] at hdistinct ⊢
        obtain ⟨s', ptrs', hrun, h'⟩ := ih hrest h₁ hdistinct (by
          rw [List.length_append, List.length_singleton]
          omega)
        exact ⟨s', ptrs', run_cons_eq_some.mpr ⟨s₁, hstep, hrun⟩, h'⟩
      · push Not at hio
        have hskip : ioApics (r :: rs) = ioApics rs := by
          cases r with
          | localApic => rfl
          | ioApic id address gsiBase => exact absurd rfl (hio id address gsiBase)
          | other type length => rfl
        rw [hskip] at h hdistinct hroom ⊢
        obtain ⟨s', ptrs', hrun, h'⟩ := ih hrest h hdistinct hroom
        exact ⟨s', ptrs', run_cons_eq_some.mpr ⟨s, apicMadtEntry_other hat hio, hrun⟩, h'⟩

/-- **`ApicInitialize`** on a table of well-formed entries, from the statics at boot, with any contents of the devices. -/
theorem apic_initialize_masked (src : BlockSource σ) {madt : Nat} {rs : List MadtRecord}
    (hrs : MadtRecords m (madt + madtLength m madt) (madt + sizeofAcpiMadt) rs) {s : ApicTables σ}
    (hlist : s.kIoApics.head = listHeadInit) (hcount : s.kNumIoApics = 0)
    (hdistinct : ((ioApics rs).map (·.2.2)).Nodup) (hmax : ∀ a ∈ ioApics rs, lastRentry (s.bus a.2.2).regs ≤ 119)
    (hready : src.Ready (ioApics rs).length [] s.heap) :
    ∃ fuel s' irq ptrs, apicInitialize src.alloc m fuel madt s = some (s', irq) ∧
      listForeach s'.kIoApics.link fuel s'.kIoApics.head.first = some ptrs ∧
      (ptrs.map fun p => ((s'.nodes p).id, (s'.nodes p).gsiBase, (s'.nodes p).address)) = ioApics rs ∧
      s'.kNumIoApics.toNat = (ioApics rs).length ∧ irq.apic.kIoApics = ptrs.map s'.nodes ∧
      (∀ a ∈ irq.apic.kIoApics, a.maxRentry.toNat = lastRentry (s.bus a.address).regs) ∧
      ∀ ops : List ApicOp, ∀ a ∈ irq.apic.kIoApics, ∀ j ≤ a.maxRentry.toNat,
        maskBit ((ops.foldl ApicOp.exec irq).apic.bus a.address).regs j = 1 := by
  have hlen : madtLength m madt < 2 ^ 32 := m.read_lt (madt + 4) 4
  have hroom : 12 * (ioApics rs).length < 2 ^ 32 := by
    have hle := hrs.le
    omega
  have hempty : ListRep s.kIoApics [] := by
    rw [show s.kIoApics = ⟨listHeadInit, s.kIoApics.link⟩ by rw [← hlist]]
    exact listRep_init s.kIoApics.link
  have hstart : Built src s.bus (ioApics rs).length [] []
      { s with
        kLocalApicAddress := madtLocalApicAddress m madt
        mapped := s.mapped ++ [madtLocalApicAddress m madt] } :=
    ⟨hempty, rfl, by rw [hcount]; rfl, hready, by simp, by simp, fun _ _ => rfl⟩
  obtain ⟨s', ptrs, hrun, h⟩ := hstart.run hrs hdistinct (by simp only [List.length_nil]; omega)
  rw [List.nil_append] at h
  have hptrs : ptrs.length = (ioApics rs).length := by rw [← h.nodes, List.length_map]
  obtain ⟨fuel, hfuel⟩ : ∃ fuel, fuel = rs.length + ptrs.length + 1 := ⟨_, rfl⟩
  have hforeach := h.list.foreach (show ptrs.length < fuel by omega)
  refine ⟨fuel, s', apicInitializeInterrupts (Irq.boot ⟨ptrs.map s'.nodes, s'.bus⟩), ptrs, ?_, hforeach, h.nodes,
    h.count.trans hptrs, ?_, ?_, ?_⟩
  · rw [apicInitialize, hrs.walk (show rs.length < fuel by omega)]
    simp only [Option.bind_some]
    rw [hrun, Option.bind_some, hforeach, Option.map_some]
  · rw [apicInitializeInterrupts_kIoApics]
    rfl
  · rw [apicInitializeInterrupts_kIoApics]
    exact List.forall_mem_map.mpr h.last
  · rw [apicInitializeInterrupts_kIoApics]
    intro ops a ha j hj
    obtain ⟨p, hp, rfl⟩ := List.mem_map.mp ha
    have hfound : ((s'.nodes p).id, (s'.nodes p).gsiBase, (s'.nodes p).address) ∈ ioApics rs := by
      rw [← h.nodes]
      exact List.mem_map_of_mem hp
    apply maskBit_of_masked
    · rw [h.last p hp] at hj
      exact hj.trans (hmax _ hfound)
    · apply apicOps_masked ops
      apply apicInitializeInterrupts_masked
      exact h.masked p hp j hj

end

/-- The statics at boot, above the heap that `MmInitializeHeap` makes; an IO APIC has 24 entries, none of them masked. -/
def bootTables : ApicTables HeapState :=
  ⟨zeroHeap.state, fun _ => ⟨0, 0, 0, 0, 0, 0⟩, ⟨listHeadInit, fun _ => ⟨0, 0⟩⟩, 0, 0, fun _ => ⟨0, fun _ => 0x170011⟩, []⟩

/-- A table with two IO APICs, at `0xFEC00000` and `0xFEC01000`, and a local APIC between them. -/
def twoIoApicsMadt : Mem :=
  let m := (oneEntryMadt 76 1 12).write 0x1030 4 0xFEC00000
  let m := (m.write 0x1038 1 0).write 0x1039 1 8
  let m := ((m.write 0x1040 1 1).write 0x1041 1 12).write 0x1042 1 1
  (m.write 0x1044 4 0xFEC01000).write 0x1048 4 24

theorem apic_initialize_masked_two : ∃ fuel s' irq,
    apicInitialize (heapSource 0 40 (by decide)).alloc twoIoApicsMadt fuel 0x1000 bootTables = some (s', irq) ∧
      s'.kNumIoApics.toNat = 2 ∧ (irq.apic.kIoApics.map fun a => (a.id, a.gsiBase, a.address)) =
        [(0, 0, 0xFEC00000), (1, 24, 0xFEC01000)] ∧
      ∀ ops : List ApicOp, ∀ a ∈ irq.apic.kIoApics, ∀ j ≤ a.maxRentry.toNat,
        maskBit ((ops.foldl ApicOp.exec irq).apic.bus a.address).regs j = 1 := by
  have hok := heapOk_boot (fun _ => 0) fun _ _ => 0
  rw [show mmInitializeHeap (fun _ => 0) (fun _ _ => 0) = zeroHeap.state from congrArg HeapRun.state boot_zero] at hok
  have hclean : CleanAllocs 2 40 2 zeroHeap.state := by
    refine ⟨Or.inl (by decide +kernel), fun p s hcall => ⟨?_, fun _ _ _ => trivial⟩⟩
    have hnext : (kmalloc 2 zeroHeap.state 40).map (fun x => decide (CleanAlloc x.2 40)) = some true := by decide +kernel
    rw [hcall, Option.map_some, Option.some.injEq, decide_eq_true_iff] at hnext
    exact hnext
  have hrs : MadtRecords twoIoApicsMadt (0x1000 + madtLength twoIoApicsMadt 0x1000) (0x1000 + sizeofAcpiMadt)
      [.ioApic 0 0xFEC00000 0, .localApic, .ioApic 1 0xFEC01000 24] := by
    have hend : 0x1000 + sizeofAcpiMadt + 12 + 8 + 12 = 0x1000 + madtLength twoIoApicsMadt 0x1000 := by decide +kernel
    refine ⟨⟨?_, ?_, ?_, ?_, ?_⟩, ⟨?_, ?_⟩, ⟨?_, ?_, ?_, ?_, ?_⟩, hend⟩ <;> decide +kernel
  obtain ⟨fuel, s', irq, ptrs, hinit, -, hlist, hcount, hnodes, -, hmasks⟩ :=
    apic_initialize_masked (heapSource 0 40 (by decide)) hrs (s := bootTables) rfl rfl (by decide) (by decide)
      ⟨[], _, hok, by simp, hclean⟩
  refine ⟨fuel, s', irq, hinit, hcount, ?_, hmasks⟩
  rw [hnodes, List.map_map]
  exact hlist

end Gewodsys.Cpu
