import Gewodsys.Machine.Mem

/-!
# `laihost_scan` (`cpu/acpi.c`)

* `laihostScan` : the search for the table with a signature and an index, over the pointers of the XSDT and then, for
  `"DSDT"`, through the first FADT;
* `xsdtPointers` : the tables that an XSDT lists, `xsdtTables_eq` : the loops go over them;
* `laihostScan_eq` : the index counts among the tables with the signature, but not in the second search;
* `tablesOf` : the tables to enumerate; the DSDT of a FADT is the one of `x_dsdt`, or of the 32-bit `dsdt` where that is zero;
* `scan_iff` : the tables are enumerated up to a zero if and only if the second search finds nothing and has nothing to find.
-/

namespace Gewodsys.Cpu
open Gewodsys.Machine

def acpiFadtId : Nat := 0x50434146
def acpiDsdtId : Nat := 0x54445344

def sizeofAcpiTableHeader : Nat := 36

/-! ## The search -/

/-- `header->signature`. -/
def tableSignature (m : Mem) (header : Nat) : Nat := m.read header 4

/-- `header.length`. -/
def tableLength (m : Mem) (header : Nat) : Nat := m.read (header + 4) 4

/-- `fadt->x_dsdt`. -/
def fadtXDsdt (m : Mem) (fadt : Nat) : Nat := m.read (fadt + 140) 8

/-- `int length`, the number of pointers. A header length below that of a header makes it negative. -/
def xsdtCount (m : Mem) (xsdt : Nat) : Int :=
  (BitVec.ofNat 32 (sub64 (tableLength m xsdt) sizeofAcpiTableHeader / 8)).toInt

/-- `xsdt->pointers[0 .. length - 1]`. -/
def xsdtTables (m : Mem) (xsdt : Nat) : List Nat :=
  (List.range (xsdtCount m xsdt).toNat).map fun i => m.read (xsdt + sizeofAcpiTableHeader + 8 * i) 8

/-- The first loop, over the pointers that are left: the index counts down at each table with the signature. -/
def scanTables (m : Mem) (sig : Nat) : List Nat → Nat → Option Nat
  | [], _ => none
  | header :: headers, index =>
      if tableSignature m header = sig then
        if index = 0 then some header else scanTables m sig headers (index - 1)
      else scanTables m sig headers index

/-- The second loop: the `x_dsdt` of the first FADT. -/
def scanFadt (m : Mem) : List Nat → Option Nat
  | [] => none
  | header :: headers => if tableSignature m header = acpiFadtId then some (fadtXDsdt m header) else scanFadt m headers

/-- `laihost_scan` with the RSDP at `rsdp` and the characters of the signature at `sig`. -/
def laihostScan (m : Mem) (rsdp sig index : Nat) : Nat :=
  let headers := xsdtTables m (m.read (rsdp + 24) 8)
  -- the first loop returns, or the second one is reached
  (scanTables m (m.read sig 4) headers index).getD
    (if m.read sig 4 = acpiDsdtId then (scanFadt m headers).getD 0 else 0)

/-! ## What the search is for -/

/-- The tables that an XSDT lists: as many pointers as its length has room for. -/
def xsdtPointers (m : Mem) (xsdt : Nat) : List Nat :=
  (List.range ((tableLength m xsdt - sizeofAcpiTableHeader) / 8)).map fun i =>
    m.read (xsdt + sizeofAcpiTableHeader + 8 * i) 8

/-- The tables of a list with a signature, in order. -/
def listed (m : Mem) (headers : List Nat) (sig : Nat) : List Nat :=
  headers.filter fun header => tableSignature m header = sig

/-- The first FADT of a list. -/
def firstFadt (m : Mem) (headers : List Nat) : Option Nat := headers.find? fun header => tableSignature m header = acpiFadtId

/-- `fadt->dsdt`, the 32-bit address that `x_dsdt` extends. -/
def fadtDsdt (m : Mem) (fadt : Nat) : Nat := m.read (fadt + 40) 4

/-- The DSDT of a FADT: at `x_dsdt`, or at the 32-bit address where that one is zero. A FADT with neither has none. -/
def dsdtOf (m : Mem) (fadt : Nat) : List Nat :=
  if fadtXDsdt m fadt ≠ 0 then [fadtXDsdt m fadt] else if fadtDsdt m fadt ≠ 0 then [fadtDsdt m fadt] else []

/-- The tables to enumerate: those listed, or the DSDT of the first FADT where none is listed. -/
def tablesOf (m : Mem) (headers : List Nat) (sig : Nat) : List Nat :=
  if sig = acpiDsdtId ∧ listed m headers sig = [] then (firstFadt m headers).toList.flatMap (dsdtOf m)
  else listed m headers sig

/-- Indices from zero up give the tables, one after the other, and then zero for ever. -/
def ScanOk (m : Mem) (rsdp sig : Nat) : Prop :=
  ∃ n, (List.range n).map (laihostScan m rsdp sig) = tablesOf m (xsdtPointers m (m.read (rsdp + 24) 8)) (m.read sig 4) ∧
    ∀ k, n ≤ k → laihostScan m rsdp sig k = 0

variable {m : Mem} {rsdp sig : Nat}

theorem xsdtTables_eq (m : Mem) (xsdt : Nat) : xsdtTables m xsdt = xsdtPointers m xsdt := by
  have hlt : tableLength m xsdt < 2 ^ 32 := m.read_lt (xsdt + 4) 4
  have hcount : (xsdtCount m xsdt).toNat = (tableLength m xsdt - sizeofAcpiTableHeader) / 8 := by
    rw [xsdtCount, BitVec.toInt_eq_toNat_cond, BitVec.toNat_ofNat]
    unfold sub64 sizeofAcpiTableHeader
    -- a length below 36 wraps, and the quotient has its upper bit set
    split_ifs <;> omega
  rw [xsdtTables, hcount, xsdtPointers]

/-- The count down finds the element of that index among those listed. -/
theorem scanTables_eq (sig : Nat) (headers : List Nat) (index : Nat) :
    scanTables m sig headers index = (listed m headers sig)[index]? := by
  induction headers generalizing index with
  | nil => rfl
  | cons header headers ih =>
      rw [scanTables, listed, List.filter_cons]
      by_cases hsig : tableSignature m header = sig
      · rw [if_pos hsig, if_pos (decide_eq_true hsig)]
        cases index with
        | zero => rfl
        | succ index =>
            rw [if_neg (Nat.succ_ne_zero index), List.getElem?_cons_succ]
            exact ih index
      · rw [if_neg hsig, if_neg (by simpa using hsig)]
        exact ih index

theorem scanFadt_eq (headers : List Nat) : scanFadt m headers = (firstFadt m headers).map (fadtXDsdt m) := by
  induction headers with
  | nil => rfl
  | cons header headers ih =>
      rw [scanFadt, firstFadt, List.find?_cons]
      by_cases hsig : tableSignature m header = acpiFadtId
      · rw [if_pos hsig, decide_eq_true hsig]
        rfl
      · rw [if_neg hsig, decide_eq_false hsig]
        exact ih

/-- What the second search gives, for every index. -/
def fallback (m : Mem) (headers : List Nat) (sig : Nat) : Nat :=
  if sig = acpiDsdtId then ((firstFadt m headers).map (fadtXDsdt m)).getD 0 else 0

theorem laihostScan_eq (m : Mem) (rsdp sig index : Nat) :
    laihostScan m rsdp sig index =
      (listed m (xsdtPointers m (m.read (rsdp + 24) 8)) (m.read sig 4))[index]?.getD
        (fallback m (xsdtPointers m (m.read (rsdp + 24) 8)) (m.read sig 4)) := by
  simp only [laihostScan, fallback, xsdtTables_eq, scanTables_eq, scanFadt_eq]

theorem fallback_eq_zero_iff {headers : List Nat} :
    fallback m headers sig = 0 ↔ sig ≠ acpiDsdtId ∨ ∀ fadt, firstFadt m headers = some fadt → fadtXDsdt m fadt = 0 := by
  unfold fallback
  split_ifs with hsig
  · rw [or_iff_right (not_not.mpr hsig)]
    cases firstFadt m headers with
    | none => simp
    | some fadt => simp
  · exact iff_of_true rfl (Or.inl hsig)

theorem enumerates {f : Nat → Nat} {xs : List Nat} (h : ∀ k, f k = xs[k]?.getD 0) :
    (List.range xs.length).map f = xs ∧ ∀ k, xs.length ≤ k → f k = 0 := by
  constructor
  · apply List.ext_getElem
    · rw [List.length_map, List.length_range]
    · intro k hk hxs
      rw [List.getElem_map, List.getElem_range, h, List.getElem?_eq_getElem hxs, Option.getD_some]
  · intro k hk
    rw [h, List.getElem?_eq_none hk, Option.getD_none]

/-- Where the second search gives zero, what there is to enumerate is what is listed, unless nothing is and the first FADT
has a 32-bit DSDT. -/
theorem tablesOf_eq_listed_iff {headers : List Nat} (h : fallback m headers sig = 0) :
    tablesOf m headers sig = listed m headers sig ↔ sig ≠ acpiDsdtId ∨ listed m headers sig ≠ [] ∨
      ∀ fadt, firstFadt m headers = some fadt → fadtDsdt m fadt = 0 := by
  unfold tablesOf
  by_cases hdsdt : sig = acpiDsdtId
  · by_cases hnil : listed m headers sig = []
    · rw [if_pos ⟨hdsdt, hnil⟩, or_iff_right (not_not.mpr hdsdt), or_iff_right (not_not.mpr hnil), hnil]
      cases hfadt : firstFadt m headers with
      | none => simp
      | some fadt =>
          have hx : fadtXDsdt m fadt = 0 := (fallback_eq_zero_iff.mp h).resolve_left (not_not.mpr hdsdt) fadt hfadt
          simp [dsdtOf, hx]
    · rw [if_neg fun hboth => hnil hboth.2]
      exact iff_of_true rfl (Or.inr (Or.inl hnil))
  · rw [if_neg fun hboth => hdsdt hboth.1]
    exact iff_of_true rfl (Or.inl hdsdt)

theorem scanOk_iff_of_fallback (h : fallback m (xsdtPointers m (m.read (rsdp + 24) 8)) (m.read sig 4) = 0) :
    ScanOk m rsdp sig ↔ tablesOf m (xsdtPointers m (m.read (rsdp + 24) 8)) (m.read sig 4) =
      listed m (xsdtPointers m (m.read (rsdp + 24) 8)) (m.read sig 4) := by
  have hscan : ∀ k, laihostScan m rsdp sig k =
      (listed m (xsdtPointers m (m.read (rsdp + 24) 8)) (m.read sig 4))[k]?.getD 0 := by
    intro k
    rw [laihostScan_eq, h]
  obtain ⟨hlisted, hbeyond⟩ := enumerates hscan
  constructor
  · rintro ⟨n, htables, -⟩
    by_cases hboth : m.read sig 4 = acpiDsdtId ∧
        listed m (xsdtPointers m (m.read (rsdp + 24) 8)) (m.read sig 4) = []
    · -- nothing is listed, so that every index gives zero, which is not the address of a DSDT
      have hzero : ∀ k, laihostScan m rsdp sig k = 0 := by
        intro k
        rw [hscan, hboth.2, List.getElem?_nil, Option.getD_none]
      rw [hboth.2, List.eq_nil_iff_forall_not_mem]
      intro x hx
      obtain ⟨k, -, hk⟩ := List.mem_map.mp (htables ▸ hx)
      rw [hzero] at hk
      subst hk
      rw [tablesOf, if_pos hboth] at hx
      obtain ⟨fadt, -, hx⟩ := List.mem_flatMap.mp hx
      unfold dsdtOf at hx
      split_ifs at hx with h1 h2
      · exact h1 (List.mem_singleton.mp hx).symm
      · exact h2 (List.mem_singleton.mp hx).symm
      · exact absurd hx List.not_mem_nil
    · rw [tablesOf, if_neg hboth]
  · intro htables
    exact ⟨_, hlisted.trans htables.symm, hbeyond⟩

/-- **`laihost_scan`** enumerates the tables with a signature if and only if the signature is not `"DSDT"`, or the XSDT lists
no FADT, or `x_dsdt` of the first one is zero, and `dsdt` too unless the XSDT lists a DSDT. -/
theorem scan_iff (m : Mem) (rsdp sig : Nat) :
    ScanOk m rsdp sig ↔ m.read sig 4 ≠ acpiDsdtId ∨
      ∀ fadt, firstFadt m (xsdtPointers m (m.read (rsdp + 24) 8)) = some fadt → fadtXDsdt m fadt = 0 ∧
        (listed m (xsdtPointers m (m.read (rsdp + 24) 8)) (m.read sig 4) ≠ [] ∨ fadtDsdt m fadt = 0) := by
  by_cases hfallback : fallback m (xsdtPointers m (m.read (rsdp + 24) 8)) (m.read sig 4) = 0
  · rw [scanOk_iff_of_fallback hfallback, tablesOf_eq_listed_iff hfallback]
    rw [fallback_eq_zero_iff] at hfallback
    grind
  · refine iff_of_false ?_ fun hcond => hfallback (fallback_eq_zero_iff.mpr ?_)
    · rintro ⟨n, -, hzero⟩
      have hlast := hzero (max n (listed m (xsdtPointers m (m.read (rsdp + 24) 8)) (m.read sig 4)).length)
        (le_max_left _ _)
      rw [laihostScan_eq, List.getElem?_eq_none (le_max_right _ _), Option.getD_none] at hlast
      exact hfallback hlast
    · exact hcond.imp_right fun hall fadt hfadt => (hall fadt hfadt).1

/-- An RSDP at `0x100`, its XSDT at `0x200` with one pointer, to a FADT at `0x300` with a DSDT at `0x500`; `"DSDT"` at zero. -/
def fadtMem : Mem :=
  (((((Mem.write (fun _ => 0) 0 4 acpiDsdtId).write 0x118 8 0x200).write 0x204 4 44).write 0x224 8 0x300).write 0x300 4
    acpiFadtId).write 0x38C 8 0x500

/-- The DSDT again for every index. -/
theorem scan_repeats : (∀ k, laihostScan fadtMem 0x100 0 k = 0x500) ∧ ¬ ScanOk fadtMem 0x100 0 := by
  have htables : xsdtPointers fadtMem (fadtMem.read (0x100 + 24) 8) = [0x300] := by decide +kernel
  have hlisted : listed fadtMem [0x300] (fadtMem.read 0 4) = [] := by decide +kernel
  have hfallback : fallback fadtMem [0x300] (fadtMem.read 0 4) = 0x500 := by decide +kernel
  have hscan : ∀ k, laihostScan fadtMem 0x100 0 k = 0x500 := by
    intro k
    rw [laihostScan_eq, htables, hlisted, hfallback, List.getElem?_nil, Option.getD_none]
  refine ⟨hscan, ?_⟩
  rintro ⟨n, -, hzero⟩
  have hlast := (hscan n).symm.trans (hzero n (le_refl n))
  omega

end Gewodsys.Cpu
