import Gewodsys.Machine.TableTree
import Gewodsys.Mem.Pmm

/-!
# Page tables (`mem/vmm.c`)

Tables are pages of physical memory, read and written at their physical address; entry `i` of a table is the word of
eight bytes at offset `8 * i`. Page directory entries and page table entries have the fields that the code reads or
writes at the same bits, so one set of `Field`s serves both.

* `mmGetPageIndices`, `mmMapMemory`, `mmGetPhysicalAddress`, `mmGetIdentityPage`, over the function `request` that
  hands out pages (`MmRequestPage`);
* `swTable` : the table the code finds at a path of indices.
-/

namespace Gewodsys.Mem
open Gewodsys.Machine Gewodsys.Lib

/-! ## Entries -/

/-- The fields of `PageDirectoryEntry` and `PageTableEntry`. -/
def present : Field := ⟨0, 1⟩
def writeable : Field := ⟨1, 1⟩
def isMapped : Field := ⟨7, 1⟩
def pagePpn : Field := ⟨12, 28⟩
def reserved1 : Field := ⟨40, 12⟩

/-- A table has a first entry. -/
instance neZero_entries : NeZero 512 := ⟨by decide⟩

def entryAddr (table : Nat) (i : Fin 512) : Nat := table + 8 * i.val

/-- `table->entries[i]`. -/
def entry (m : Mem) (table : Nat) (i : Fin 512) : Nat := m.read64 (entryAddr table i)

def setEntry (m : Mem) (table : Nat) (i : Fin 512) (w : Nat) : Mem := m.write64 (entryAddr table i) w

/-- `entry.page_ppn = ppn; entry.present = 1; entry.writeable = 1`. -/
def fillEntry (ppn w : Nat) : Nat := writeable.set 1 (present.set 1 (pagePpn.set ppn w))

/-- `(uint64_t) entry.page_ppn << 12`. -/
def entryFrame (w : Nat) : Nat := pagePpn.get w <<< 12

/-! ## Indices -/

@[ext] structure PageMapIndex where
  pdp : Fin 512
  pd : Fin 512
  pt : Fin 512
  p : Fin 512
deriving DecidableEq, Repr

/-- `address & 0x1ff`. -/
def index9 (address : Nat) : Fin 512 :=
  ⟨address &&& 0x1ff, lt_of_le_of_lt Nat.and_le_right (by decide)⟩

def mmGetPageIndices (address : Nat) : PageMapIndex :=
  let address := address >>> 12
  let p := index9 address
  let address := address >>> 9
  let pt := index9 address
  let address := address >>> 9
  let pd := index9 address
  let address := address >>> 9
  ⟨index9 address, pd, pt, p⟩

/-! ## Mapping -/

variable {σ : Type}

/-- One level of `MmMapMemory`: the table that entry `i` of `table` points to, created when the entry is absent. -/
def mmNextTable (request : Phys σ → Option (Nat × Phys σ)) (s : Phys σ) (table : Nat) (i : Fin 512) :
    Option (Nat × Phys σ) :=
  let pde := entry s.mem table i
  if present.get pde = 0 then
    (request s).map fun r =>
      let m := rtZeroMemory r.2.mem r.1 pageSize
      (r.1, { r.2 with mem := setEntry m table i (fillEntry (r.1 >>> 12) pde) })
  else some (entryFrame pde, s)

/-- `MmMapMemory`, under the root table `kPML4`; `none` when a request for a table does not return. -/
def mmMapMemory (request : Phys σ → Option (Nat × Phys σ)) (kPML4 virtualMemory physicalMemory : Nat) (s : Phys σ) :
    Option (Phys σ) :=
  let virtualMemory := virtualMemory &&& 0xfffffffffffff000
  let physicalMemory := physicalMemory &&& 0xfffffffffffff000
  let map := mmGetPageIndices virtualMemory
  (mmNextTable request s kPML4 map.pdp).bind fun (pdp, s) =>
    (mmNextTable request s pdp map.pd).bind fun (pd, s) =>
      (mmNextTable request s pd map.pt).map fun (pt, s) =>
        let pte := entry s.mem pt map.p
        { s with mem := setEntry s.mem pt map.p (fillEntry (physicalMemory >>> 12) pte) }

/-- `MmGetPhysicalAddress`: no entry is tested for presence. -/
def mmGetPhysicalAddress (m : Mem) (kPML4 virtualMemory : Nat) : Nat :=
  let map := mmGetPageIndices virtualMemory
  let pd := entryFrame (entry m kPML4 map.pdp)
  let pd := entryFrame (entry m pd map.pd)
  let pt := entryFrame (entry m pd map.pt)
  entryFrame (entry m pt map.p) ||| (virtualMemory &&& 0xfff)

def mmGetIdentityPage (request : Phys σ → Option (Nat × Phys σ)) (kPML4 : Nat) (s : Phys σ) :
    Option (Nat × Phys σ) :=
  (request s).bind fun (result, s) => (mmMapMemory request kPML4 result result s).map fun s => (result, s)

/-! ## Entries read back -/

@[simp] theorem present_fillEntry (ppn w : Nat) : present.get (fillEntry ppn w) = 1 := by
  rw [fillEntry, Field.get_set_of_disjoint _ _ _ _ (by decide), Field.get_set]
  rfl

theorem pagePpn_fillEntry (ppn w : Nat) : pagePpn.get (fillEntry ppn w) = ppn % 2 ^ 28 := by
  rw [fillEntry, Field.get_set_of_disjoint _ _ _ _ (by decide), Field.get_set_of_disjoint _ _ _ _ (by decide),
    Field.get_set]
  rfl

theorem get_fillEntry {g : Field} (h1 : g.Disjoint pagePpn) (h2 : g.Disjoint present) (h3 : g.Disjoint writeable)
    (ppn w : Nat) : g.get (fillEntry ppn w) = g.get w := by
  rw [fillEntry, Field.get_set_of_disjoint _ _ _ _ h3, Field.get_set_of_disjoint _ _ _ _ h2,
    Field.get_set_of_disjoint _ _ _ _ h1]

theorem fillEntry_lt (ppn : Nat) {w : Nat} (hw : w < 2 ^ 64) : fillEntry ppn w < 2 ^ 64 :=
  writeable.set_lt 1 (present.set_lt 1 (pagePpn.set_lt ppn hw (by decide)) (by decide)) (by decide)

theorem entryFrame_eq (w : Nat) : entryFrame w = 4096 * pagePpn.get w := by
  rw [entryFrame, Nat.shiftLeft_eq, Nat.mul_comm]

/-- A page below `2^40` fits the field of an entry. -/
theorem entryFrame_fillEntry {f : Nat} (hf : f < 2 ^ 40) (w : Nat) :
    entryFrame (fillEntry (f >>> 12) w) = f / 4096 * 4096 := by
  rw [entryFrame_eq, pagePpn_fillEntry, Nat.shiftRight_eq_div_pow]
  omega

theorem entry_lt (m : Mem) (t : Nat) (i : Fin 512) : entry m t i < 2 ^ 64 := m.read64_lt _

theorem entry_setEntry (m : Mem) (t : Nat) (i : Fin 512) {w : Nat} (hw : w < 2 ^ 64) :
    entry (setEntry m t i w) t i = w :=
  (m.read_write (entryAddr t i) 8 w).trans (Nat.mod_eq_of_lt hw)

theorem entry_setEntry_of_ne (m : Mem) {t g : Nat} {i j : Fin 512} (w : Nat) (ht : t % 4096 = 0) (hg : g % 4096 = 0)
    (hne : (g, j) ≠ (t, i)) : entry (setEntry m t i w) g j = entry m g j := by
  refine Mem.read_write_of_disjoint m w ?_
  have hi := i.isLt
  have hj := j.isLt
  unfold entryAddr
  by_cases hgt : g = t
  · subst hgt
    have hij : j.val ≠ i.val := fun h => hne (by rw [Fin.ext h])
    omega
  · omega

/-! ## Pages and indices -/

/-- The bits 12..47 of an address. -/
def pageNumber (address : Nat) : Nat := address / 2 ^ 12 % 2 ^ 36

theorem val_index9 (a : Nat) : (index9 a).val = a % 512 := Nat.and_two_pow_sub_one_eq_mod a 9

theorem mmGetPageIndices_val (a : Nat) :
    (mmGetPageIndices a).p.val = a / 2 ^ 12 % 512 ∧ (mmGetPageIndices a).pt.val = a / 2 ^ 21 % 512 ∧
      (mmGetPageIndices a).pd.val = a / 2 ^ 30 % 512 ∧ (mmGetPageIndices a).pdp.val = a / 2 ^ 39 % 512 := by
  simp only [mmGetPageIndices, val_index9, Nat.shiftRight_eq_div_pow, Nat.div_div_eq_div_mul]
  norm_num

/-- **The index split is injective**: two addresses have the same indices exactly when they lie in the same page. -/
theorem mmGetPageIndices_eq_iff (u v : Nat) : mmGetPageIndices u = mmGetPageIndices v ↔ pageNumber u = pageNumber v := by
  obtain ⟨hu1, hu2, hu3, hu4⟩ := mmGetPageIndices_val u
  obtain ⟨hv1, hv2, hv3, hv4⟩ := mmGetPageIndices_val v
  unfold pageNumber
  constructor
  · intro h
    rw [h] at hu1 hu2 hu3 hu4
    omega
  · intro h
    have h1 : (mmGetPageIndices u).p = (mmGetPageIndices v).p := Fin.ext (by omega)
    have h2 : (mmGetPageIndices u).pt = (mmGetPageIndices v).pt := Fin.ext (by omega)
    have h3 : (mmGetPageIndices u).pd = (mmGetPageIndices v).pd := Fin.ext (by omega)
    have h4 : (mmGetPageIndices u).pdp = (mmGetPageIndices v).pdp := Fin.ext (by omega)
    exact PageMapIndex.ext h4 h3 h2 h1

theorem land_page {a : Nat} (h : a < 2 ^ 64) : a &&& 0xfffffffffffff000 = a / 4096 * 4096 := by
  have hmask := land_mask a 12 64 (by decide)
  rw [Nat.mod_eq_of_lt h] at hmask
  exact hmask

theorem mmGetPageIndices_land {a : Nat} (h : a < 2 ^ 64) :
    mmGetPageIndices (a &&& 0xfffffffffffff000) = mmGetPageIndices a := by
  rw [mmGetPageIndices_eq_iff, land_page h]
  unfold pageNumber
  omega

/-! ## The tables the code finds -/

/-- The path to the table of an address, the last step first. -/
def PageMapIndex.path (x : PageMapIndex) : List (Fin 512) := [x.pt, x.pd, x.pdp]

theorem pageNumber_eq_of_path {u v : Nat} (hpath : (mmGetPageIndices u).path = (mmGetPageIndices v).path)
    (hp : (mmGetPageIndices u).p = (mmGetPageIndices v).p) : pageNumber u = pageNumber v := by
  simp only [PageMapIndex.path, List.cons.injEq, and_true] at hpath
  exact (mmGetPageIndices_eq_iff u v).mp (PageMapIndex.ext hpath.2.2 hpath.2.1 hpath.1 hp)

def swChild (_ : List (Fin 512)) (w : Nat) : Option Nat := if present.get w = 0 then none else some (entryFrame w)

theorem swChild_eq_some {p : List (Fin 512)} {w f : Nat} :
    swChild p w = some f ↔ present.get w ≠ 0 ∧ entryFrame w = f := by
  rw [swChild]
  split_ifs with h
  · simp [h]
  · simp [h]

def swTable (m : Mem) (root : Nat) (p : List (Fin 512)) : Option Nat := tableAt swChild (entry m) root p

/-- `MmGetPhysicalAddress` reads the entry of the table at the address's path. -/
theorem mmGetPhysicalAddress_of_swTable {m : Mem} {root u t : Nat}
    (h : swTable m root (mmGetPageIndices u).path = some t) :
    mmGetPhysicalAddress m root u = entryFrame (entry m t (mmGetPageIndices u).p) ||| (u &&& 0xfff) := by
  obtain ⟨t2, h2, h3⟩ := tableAt_cons_eq_some.mp h
  obtain ⟨t1, h1, h2⟩ := tableAt_cons_eq_some.mp h2
  obtain ⟨t0, h0, h1⟩ := tableAt_cons_eq_some.mp h1
  obtain rfl : root = t0 := Option.some.inj h0
  rw [mmGetPhysicalAddress, (swChild_eq_some.mp h1).2, (swChild_eq_some.mp h2).2, (swChild_eq_some.mp h3).2]

end Gewodsys.Mem
