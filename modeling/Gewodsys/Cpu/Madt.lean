import Gewodsys.Machine.Mem

/-!
# The walk over the MADT (`cpu/apic.c`)

* `madtWalk` : the entries that the loop of `ApicInitialize` visits, with fuel; `madtReads` : the bytes of the table it
  reads;
* `MadtBody` : the tables whose entries make progress and have room for what is read of them;
* `madt_walk_iff` : the walk ends and stays inside the table if and only if the table is one of these.
-/

namespace Gewodsys.Cpu
open Gewodsys.Machine

def acpiMadtTypeLocalApic : Nat := 0
def acpiMadtTypeIoApic : Nat := 1

/-! ## The table -/

def sizeofAcpiMadt : Nat := 44

/-- `madt->header.length`. -/
def madtLength (m : Mem) (madt : Nat) : Nat := m.read (madt + 4) 4

/-- `madt->local_apic_address`. -/
def madtLocalApicAddress (m : Mem) (madt : Nat) : Nat := m.read (madt + 36) 4

/-- `entry->type`. -/
def entryType (m : Mem) (entry : Nat) : Nat := m.read entry 1

/-- `entry->length`. -/
def entryLength (m : Mem) (entry : Nat) : Nat := m.read (entry + 1) 1

/-- The entries visited by the loop, from `entry` on. What its body stores goes to the registers of the IO APICs, at the
addresses the table gives; they are taken to be apart from the table. -/
def madtWalk (m : Mem) (stop : Nat) : Nat → Nat → Option (List Nat)
  | 0, _ => none
  | fuel + 1, entry =>
      if entry < stop then (madtWalk m stop fuel (entry + entryLength m entry)).map (entry :: ·) else some []

/-- What an iteration reads of the table: address and size. -/
def entryReads (m : Mem) (entry : Nat) : List (Nat × Nat) :=
  (entry, 1) ::
    (if entryType m entry = acpiMadtTypeLocalApic then [(entry + 3, 1), (entry + 4, 4)]
      else if entryType m entry = acpiMadtTypeIoApic then [(entry + 2, 1), (entry + 8, 4), (entry + 4, 4)]
      else []) ++ [(entry + 1, 1)]

/-- The reads of a walk: the loop test reads `header.length` before each entry and at the end. -/
def madtReads (m : Mem) (madt : Nat) (entries : List Nat) : List (Nat × Nat) :=
  entries.flatMap (fun entry => (madt + 4, 4) :: entryReads m entry) ++ [(madt + 4, 4)]

/-! ## Tables that can be walked -/

/-- How many bytes of an entry are read. -/
def recordSize (type : Nat) : Nat :=
  if type = acpiMadtTypeLocalApic then 8 else if type = acpiMadtTypeIoApic then 12 else 2

/-- From `entry` on the table is a sequence of entries of nonzero length, each with its record inside. -/
inductive MadtBody (m : Mem) (stop : Nat) : Nat → Prop where
  | done {entry : Nat} (h : stop ≤ entry) : MadtBody m stop entry
  | cons {entry : Nat} (h : entry < stop) (progress : entryLength m entry ≠ 0)
      (room : entry + recordSize (entryType m entry) ≤ stop) (rest : MadtBody m stop (entry + entryLength m entry)) :
      MadtBody m stop entry

/-- The walk ends, and every byte it reads lies in the table. -/
def MadtWalkOk (m : Mem) (madt : Nat) : Prop :=
  ∃ fuel entries, madtWalk m (madt + madtLength m madt) fuel (madt + sizeofAcpiMadt) = some entries ∧
    ∀ r ∈ madtReads m madt entries, madt ≤ r.1 ∧ r.1 + r.2 ≤ madt + madtLength m madt

theorem entryReads_inside (m : Mem) {start stop entry : Nat} (hstart : start ≤ entry) :
    (∀ r ∈ entryReads m entry, start ≤ r.1 ∧ r.1 + r.2 ≤ stop) ↔ entry + recordSize (entryType m entry) ≤ stop := by
  unfold entryReads recordSize
  split_ifs
  all_goals
    simp only [List.cons_append, List.nil_append, List.forall_mem_cons, List.not_mem_nil, false_imp_iff, implies_true,
      and_true]
    omega

/-- An entry of length 0 is visited for ever. -/
theorem madtWalk_stuck {m : Mem} {stop entry : Nat} (h : entry < stop) (hlen : entryLength m entry = 0) (fuel : Nat) :
    madtWalk m stop fuel entry = none := by
  induction fuel with
  | zero => rfl
  | succ fuel ih => rw [madtWalk, if_pos h, hlen, Nat.add_zero, ih, Option.map_none]

theorem madtBody_of_walk {m : Mem} {start stop fuel entry : Nat} (hstart : start ≤ entry) {entries : List Nat}
    (hwalk : madtWalk m stop fuel entry = some entries)
    (hreads : ∀ e ∈ entries, ∀ r ∈ entryReads m e, start ≤ r.1 ∧ r.1 + r.2 ≤ stop) : MadtBody m stop entry := by
  induction fuel generalizing entry entries with
  | zero => cases hwalk
  | succ fuel ih =>
      by_cases hlt : entry < stop
      · have hprogress : entryLength m entry ≠ 0 := fun h0 => by
          rw [madtWalk_stuck hlt h0] at hwalk
          cases hwalk
        rw [madtWalk, if_pos hlt] at hwalk
        obtain ⟨rest, hrest, rfl⟩ := Option.map_eq_some_iff.mp hwalk
        rw [List.forall_mem_cons] at hreads
        apply MadtBody.cons hlt hprogress
        · exact (entryReads_inside m hstart).mp hreads.1
        · exact ih (by omega) hrest hreads.2
      · exact MadtBody.done (by omega)

theorem MadtBody.walk {m : Mem} {start stop entry : Nat} (h : MadtBody m stop entry) (hstart : start ≤ entry) :
    ∃ fuel entries, madtWalk m stop fuel entry = some entries ∧
      ∀ e ∈ entries, ∀ r ∈ entryReads m e, start ≤ r.1 ∧ r.1 + r.2 ≤ stop := by
  induction h with
  | done h => exact ⟨1, [], by rw [madtWalk, if_neg (by omega)], by simp⟩
  | cons h progress room rest ih =>
      obtain ⟨fuel, entries, hwalk, hreads⟩ := ih (by omega)
      refine ⟨fuel + 1, _ :: entries, by rw [madtWalk, if_pos h, hwalk, Option.map_some], ?_⟩
      rw [List.forall_mem_cons]
      exact ⟨(entryReads_inside m hstart).mpr room, hreads⟩

theorem madtReads_inside {m : Mem} {madt : Nat} (hlen : sizeofAcpiMadt ≤ madtLength m madt) (entries : List Nat) :
    (∀ r ∈ madtReads m madt entries, madt ≤ r.1 ∧ r.1 + r.2 ≤ madt + madtLength m madt) ↔
      ∀ e ∈ entries, ∀ r ∈ entryReads m e, madt ≤ r.1 ∧ r.1 + r.2 ≤ madt + madtLength m madt := by
  have hheader : madt ≤ madt + 4 ∧ madt + 4 + 4 ≤ madt + madtLength m madt := by
    unfold sizeofAcpiMadt at hlen
    omega
  unfold madtReads
  simp only [List.forall_mem_append, List.forall_mem_flatMap, List.forall_mem_cons, hheader, List.not_mem_nil,
    false_imp_iff, implies_true, and_true, true_and]

/-- **The MADT walk.** -/
theorem madt_walk_iff (m : Mem) (madt : Nat) (hlen : sizeofAcpiMadt ≤ madtLength m madt) :
    MadtWalkOk m madt ↔ MadtBody m (madt + madtLength m madt) (madt + sizeofAcpiMadt) := by
  unfold MadtWalkOk
  constructor
  · rintro ⟨fuel, entries, hwalk, hreads⟩
    exact madtBody_of_walk (Nat.le_add_right _ _) hwalk ((madtReads_inside hlen entries).mp hreads)
  · intro h
    obtain ⟨fuel, entries, hwalk, hreads⟩ := h.walk (Nat.le_add_right madt sizeofAcpiMadt)
    exact ⟨fuel, entries, hwalk, (madtReads_inside hlen entries).mpr hreads⟩

/-- A table of `length` bytes at `0x1000` with one entry header. -/
def oneEntryMadt (length type entryLen : Nat) : Mem :=
  ((Mem.write (fun _ => 0) 0x1004 4 length).write 0x102C 1 type).write 0x102D 1 entryLen

theorem madt_walk_ioapic : MadtWalkOk (oneEntryMadt 56 1 12) 0x1000 := by
  refine (madt_walk_iff (oneEntryMadt 56 1 12) 0x1000 (by decide)).mpr ?_
  exact .cons (by decide) (by decide) (by decide) (.done (by decide))

/-- An entry of length 0: the walk does not end. -/
theorem madt_walk_zero : sizeofAcpiMadt ≤ madtLength (oneEntryMadt 46 2 0) 0x1000 ∧
    ¬ MadtWalkOk (oneEntryMadt 46 2 0) 0x1000 := by
  refine ⟨by decide, ?_⟩
  rintro ⟨fuel, entries, hwalk, -⟩
  rw [madtWalk_stuck (by decide) (by decide)] at hwalk
  cases hwalk

end Gewodsys.Cpu
