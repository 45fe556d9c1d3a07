import Gewodsys.Mem.Pmm

/-!
# Runs of the page frame allocator

`PmmInv e s pages` ties the allocator of the region `e` together: the bits below the page count are the reserved pages
and the pages handed out, the counters count them, and the cursor is at most the page count.

* `pmmInv_initialize` : `MmInitialize` establishes it on every page-aligned region that passes the size check;
* `PmmInv.request`, `PmmInv.free` : the two operations keep it;
* `pmm_run_exclusive` : the accounting over every run whose requests stay inside the region;
* `request_finds_free_iff` : when the next request returns a free page of the region.
-/

namespace Gewodsys.Mem
open Gewodsys.Machine Gewodsys.Lib

/-! ## The region -/

/-- Every usable entry starts and ends at a page boundary. -/
def PageAligned (memmap : List MemmapEntry) : Prop :=
  ∀ e ∈ memmap, e.type = .usable → e.base % 4096 = 0 ∧ e.length % 4096 = 0

theorem largestStep_eq_some {l : Option MemmapEntry} {entry e : MemmapEntry} (h : largestStep l entry = some e) :
    l = some e ∨ (entry = e ∧ e.type = .usable) := by
  unfold largestStep at h
  split_ifs at h with hu
  · exact Or.inl h
  · rw [not_not] at hu
    cases l with
    | none =>
        obtain rfl := Option.some.inj h
        exact Or.inr ⟨rfl, hu⟩
    | some l =>
        simp only at h
        split_ifs at h
        · obtain rfl := Option.some.inj h
          exact Or.inr ⟨rfl, hu⟩
        · exact Or.inl h

theorem largestUsable_mem {memmap : List MemmapEntry} {e : MemmapEntry} (h : largestUsable memmap = some e) :
    e ∈ memmap ∧ e.type = .usable := by
  have hfold : ∀ (l : Option MemmapEntry), memmap.foldl largestStep l = some e →
      l = some e ∨ (e ∈ memmap ∧ e.type = .usable) := by
    clear h
    induction memmap with
    | nil => exact fun l hl => Or.inl hl
    | cons entry memmap ih =>
        intro l hl
        rcases ih _ hl with hstep | hmem
        · rcases largestStep_eq_some hstep with h | ⟨rfl, hu⟩
          · exact Or.inl h
          · exact Or.inr ⟨List.mem_cons_self, hu⟩
        · exact Or.inr ⟨List.mem_cons_of_mem _ hmem.1, hmem.2⟩
  rcases hfold none h with h | h
  · cases h
  · exact h

theorem alignAddr_of_aligned {x : Nat} (h : x % 4096 = 0) : alignAddr x = x := by
  have hz : (pageSize - 1) &&& x = 0 := by
    rw [Nat.and_comm, pageSize, show (0x1000 - 1 : Nat) = 2 ^ 12 - 1 from rfl, land_low]
    exact h
  rw [alignAddr, if_neg (not_not.mpr hz)]

/-- A region that starts and ends at page boundaries and passes the size check. -/
structure GoodRegion (e : MemmapEntry) : Prop where
  base : e.base % 4096 = 0
  length : e.length % 4096 = 0
  size : SizeCheck e

namespace GoodRegion
variable {e : MemmapEntry} (hg : GoodRegion e)
include hg

theorem regionFirst_eq : regionFirst e = e.base := alignAddr_of_aligned hg.base

theorem regionLast_eq : regionLast e = add64 e.base e.length := by
  have h1 := hg.base
  have h2 := hg.length
  refine alignAddr_of_aligned ?_
  unfold add64
  omega

theorem sub64_region : sub64 (regionLast e) (regionFirst e) = e.length := by
  rw [hg.regionLast_eq, hg.regionFirst_eq, sub64_add64_cancel, Nat.mod_eq_of_lt e.length_lt]

theorem regionPages_eq : regionPages e = e.length / 4096 := by
  rw [regionPages, hg.sub64_region, Nat.shiftRight_eq_div_pow]

theorem regionPages_lt : regionPages e < 2 ^ 52 := by
  have h := e.length_lt
  rw [hg.regionPages_eq]
  omega

theorem length_eq : e.length = 4096 * regionPages e := by
  have h := hg.length
  rw [hg.regionPages_eq]
  omega

theorem reservedPages_le : reservedPages e ≤ regionPages e := by
  have h := hg.size
  have hl := hg.length_eq
  unfold SizeCheck at h
  rw [reservedPages, Nat.shiftRight_eq_div_pow]
  omega

end GoodRegion

theorem three_le_reservedPages (e : MemmapEntry) : 3 ≤ reservedPages e := by
  rw [reservedPages, regionHeader, Nat.shiftRight_eq_div_pow]
  omega

theorem bitfieldEntries_le (e : MemmapEntry) : 4096 + bitfieldEntries e ≤ 4096 * reservedPages e := by
  rw [reservedPages, regionHeader, sizeofMemoryStatistics, Nat.shiftRight_eq_div_pow]
  omega

theorem GoodRegion.bitfield_eq {e : MemmapEntry} (hg : GoodRegion e) :
    alignAddr (add64 e.base sizeofMemoryStatistics) = add64 e.base 4096 := by
  have hb := hg.base
  have hlt := e.base_lt
  have hsum : add64 e.base sizeofMemoryStatistics = e.base + 72 := by
    apply add64_of_lt
    unfold sizeofMemoryStatistics
    omega
  have hne : (pageSize - 1) &&& (e.base + 72) ≠ 0 := by
    rw [Nat.and_comm, pageSize, show (0x1000 - 1 : Nat) = 2 ^ 12 - 1 from rfl, land_low]
    omega
  rw [hsum, alignAddr, if_pos hne, show (0xFFFFFFFFFFFFF000 : Nat) = 2 ^ 64 - 2 ^ 12 from rfl,
    land_mask _ 12 64 (by decide), pageSize]
  unfold add64
  omega

/-! ## The invariant -/

/-- The address of page `i` of a region at `base`. -/
def pageAddr (base i : Nat) : Nat := add64 base (i <<< 12)

theorem pageAddr_inj {base i j : Nat} (hi : i < 2 ^ 52) (hj : j < 2 ^ 52) (h : pageAddr base i = pageAddr base j) :
    i = j := by
  unfold pageAddr add64 at h
  rw [Nat.shiftLeft_eq, Nat.shiftLeft_eq] at h
  omega

/-- The allocator of the region `e`, with the pages `pages` handed out. -/
structure PmmInv (e : MemmapEntry) (s : Phys Pmm) (pages : List Nat) : Prop where
  total : s.pmm.kMemory.totalAvailablePages = regionPages e
  first : s.pmm.kMemory.firstAvailablePageAddr = e.base
  last : s.pmm.kMemory.lastAvailablePageAddress = add64 e.base e.length
  bitfield : s.pmm.kMemory.bitfield = alignAddr (add64 e.base sizeofMemoryStatistics)
  cursor : s.pmm.lastRequested ≤ regionPages e
  nodup : pages.Nodup
  /-- The page just past the region may have been handed out. -/
  range : ∀ i ∈ pages, reservedPages e ≤ i ∧ i ≤ regionPages e
  bits : ∀ i < regionPages e, getPageBit s i = true ↔ i < reservedPages e ∨ i ∈ pages
  past : regionPages e ∈ pages → getPageBit s (regionPages e) = true
  locked : s.pmm.kMemory.lockedMemory = 4096 * pages.length
  reserved : s.pmm.kMemory.reservedMemory = 4096 * reservedPages e
  free : s.pmm.kMemory.freeMemory = sub64 (4096 * (regionPages e - reservedPages e)) (4096 * pages.length)

theorem length_le_of_range {pages : List Nat} {a b : Nat} (hn : pages.Nodup) (hr : ∀ i ∈ pages, a ≤ i ∧ i < b) :
    pages.length ≤ b - a := by
  have hsub : pages.toFinset ⊆ Finset.Ico a b := by
    intro i hi
    exact Finset.mem_Ico.mpr (hr i (List.mem_toFinset.mp hi))
  have hcard := Finset.card_le_card hsub
  rwa [List.toFinset_card_of_nodup hn, Nat.card_Ico] at hcard

/-! ## Initialisation establishes it -/

theorem addrToPage_shift {i : Nat} (hi : i < 2 ^ 52) : addrToPage ((i <<< 12) % 2 ^ 64) = i := by
  rw [addrToPage, Nat.shiftLeft_eq, Nat.shiftRight_eq_div_pow]
  omega

@[simp] theorem mem_mmReservePage (s : Phys Pmm) (a : Nat) :
    (mmReservePage s a).mem = setBit s.mem s.pmm.kMemory.bitfield (addrToPage a) := by
  simp only [mmReservePage, Phys.setStatistics, setPageBit]

@[simp] theorem pmm_mmReservePage (s : Phys Pmm) (a : Nat) :
    (mmReservePage s a).pmm = { s.pmm with kMemory := { s.pmm.kMemory with
      freeMemory := sub64 s.pmm.kMemory.freeMemory pageSize
      reservedMemory := add64 s.pmm.kMemory.reservedMemory pageSize } } := by
  simp only [mmReservePage, Phys.setStatistics, setPageBit]

theorem mmReservePages_succ (s : Phys Pmm) (n : Nat) :
    mmReservePages s 0 (n + 1) = mmReservePage (mmReservePages s 0 n) ((n <<< 12) % 2 ^ 64) := by
  rw [mmReservePages, List.range_succ, List.foldl_append, List.foldl_cons, List.foldl_nil, mmReservePages, add64,
    Nat.zero_add]

theorem mmReservePages_keeps {α : Type} (f : Phys Pmm → α) (hf : ∀ s a, f (mmReservePage s a) = f s) (s : Phys Pmm)
    (n : Nat) : f (mmReservePages s 0 n) = f s := by
  induction n with
  | zero => rfl
  | succ n ih => rw [mmReservePages_succ, hf, ih]

theorem getPageBit_mmReservePages (s : Phys Pmm) {n : Nat} (hn : n ≤ 2 ^ 52) (i : Nat) :
    getPageBit (mmReservePages s 0 n) i = (decide (i < n) || getPageBit s i) := by
  induction n with
  | zero => simp [mmReservePages]
  | succ n ih =>
      have hpage : addrToPage ((n <<< 12) % 2 ^ 64) = n := addrToPage_shift (by omega)
      have hset : getPageBit (mmReservePages s 0 (n + 1)) i =
          (decide (i = n) || getPageBit (mmReservePages s 0 n) i) := by
        simp only [mmReservePages_succ, getPageBit, mem_mmReservePage, pmm_mmReservePage, hpage, getBit_setBit]
      rw [hset, ih (by omega), ← Bool.or_assoc]
      congr 1
      rw [Bool.eq_iff_iff]
      simp only [Bool.or_eq_true, decide_eq_true_eq]
      omega

theorem reservedMemory_mmReservePages (s : Phys Pmm) (h : s.pmm.kMemory.reservedMemory = 0) {n : Nat}
    (hn : n < 2 ^ 52) : (mmReservePages s 0 n).pmm.kMemory.reservedMemory = 4096 * n := by
  induction n with
  | zero => exact h
  | succ n ih =>
      have hstep : (mmReservePages s 0 (n + 1)).pmm.kMemory.reservedMemory =
          add64 (mmReservePages s 0 n).pmm.kMemory.reservedMemory pageSize := by
        rw [mmReservePages_succ, pmm_mmReservePage]
      rw [hstep, ih (by omega), pageSize, add64_of_lt (by omega)]
      omega

theorem freeMemory_mmReservePages (s : Phys Pmm) (hlt : s.pmm.kMemory.freeMemory < 2 ^ 64) {n : Nat}
    (hn : 4096 * n ≤ s.pmm.kMemory.freeMemory) :
    (mmReservePages s 0 n).pmm.kMemory.freeMemory = s.pmm.kMemory.freeMemory - 4096 * n := by
  induction n with
  | zero => rfl
  | succ n ih =>
      have hstep : (mmReservePages s 0 (n + 1)).pmm.kMemory.freeMemory =
          sub64 (mmReservePages s 0 n).pmm.kMemory.freeMemory pageSize := by
        rw [mmReservePages_succ, pmm_mmReservePage]
      rw [hstep, ih (by omega), pageSize, sub64_of_le (by omega) (by omega)]
      omega

theorem getBit_rtZeroMemory (m : Mem) (base n i : Nat) (h : i / 8 < n) :
    getBit (rtZeroMemory m base n) base i = false := by
  rw [getBit, rtZeroMemory_apply, if_pos (by omega)]
  simp

theorem GoodRegion.bitfieldEntries_covers {e : MemmapEntry} {i : Nat} (hi : i < regionPages e) :
    i / 8 < bitfieldEntries e := by
  rw [bitfieldEntries, Nat.shiftRight_eq_div_pow]
  split_ifs <;> omega

/-- **`MmInitialize` establishes the invariant**, with no page handed out. -/
theorem pmmInv_initialize {e : MemmapEntry} (hg : GoodRegion e) (m : Mem) (memmap : List MemmapEntry) :
    PmmInv e (mmInitializeRegion m memmap e) [] := by
  have hle := hg.reservedPages_le
  have hlt := hg.regionPages_lt
  have hlen := hg.length_eq
  have hel := e.length_lt
  obtain ⟨s, hs⟩ : ∃ s : Phys Pmm, s = ⟨rtZeroMemory m (initialStatistics memmap e).bitfield (bitfieldEntries e),
    ⟨initialStatistics memmap e, 0⟩⟩ := ⟨_, rfl⟩
  have hinit : mmInitializeRegion m memmap e = mmReservePages s 0 (reservedPages e) := by rw [hs]; rfl
  have hfree : s.pmm.kMemory.freeMemory = e.length := by rw [hs]; exact hg.sub64_region
  have hclear : ∀ i < regionPages e, getPageBit s i = false := by
    intro i hi
    rw [hs]
    exact getBit_rtZeroMemory m _ _ i (GoodRegion.bitfieldEntries_covers hi)
  rw [hinit]
  refine ⟨?_, ?_, ?_, ?_, ?_, List.nodup_nil, by simp, fun i hi => ?_, by simp, ?_, ?_, ?_⟩
  · rw [mmReservePages_keeps (fun s => s.pmm.kMemory.totalAvailablePages) (fun _ _ => by simp), hs]
    rfl
  · rw [mmReservePages_keeps (fun s => s.pmm.kMemory.firstAvailablePageAddr) (fun _ _ => by simp), hs]
    exact hg.regionFirst_eq
  · rw [mmReservePages_keeps (fun s => s.pmm.kMemory.lastAvailablePageAddress) (fun _ _ => by simp), hs]
    exact hg.regionLast_eq
  · rw [mmReservePages_keeps (fun s => s.pmm.kMemory.bitfield) (fun _ _ => by simp), hs, ← hg.regionFirst_eq]
    rfl
  · rw [mmReservePages_keeps (fun s => s.pmm.lastRequested) (fun _ _ => by simp), hs]
    exact Nat.zero_le _
  · rw [getPageBit_mmReservePages s (by omega), hclear i hi]
    simp
  · rw [mmReservePages_keeps (fun s => s.pmm.kMemory.lockedMemory) (fun _ _ => by simp), hs]
    rfl
  · rw [reservedMemory_mmReservePages s (by rw [hs]; rfl) (by omega)]
  · rw [freeMemory_mmReservePages s (by rw [hfree]; exact hel) (by rw [hfree]; omega), hfree, List.length_nil,
      Nat.mul_zero, sub64_of_le (by omega) (Nat.zero_le _)]
    omega

/-! ## The operations keep it -/

@[simp] theorem mem_mmLockPage (s : Phys Pmm) (a : Nat) :
    (mmLockPage s a).mem = setBit s.mem s.pmm.kMemory.bitfield (addrToPage a) := by
  simp only [mmLockPage, Phys.setStatistics, setPageBit]

@[simp] theorem pmm_mmLockPage (s : Phys Pmm) (a : Nat) :
    (mmLockPage s a).pmm = { s.pmm with kMemory := { s.pmm.kMemory with
      freeMemory := sub64 s.pmm.kMemory.freeMemory pageSize
      lockedMemory := add64 s.pmm.kMemory.lockedMemory pageSize } } := by
  simp only [mmLockPage, Phys.setStatistics, setPageBit]

@[simp] theorem mem_mmUnlockPage (s : Phys Pmm) (a : Nat) :
    (mmUnlockPage s a).mem = clearBit s.mem s.pmm.kMemory.bitfield (addrToPage a) := by
  simp only [mmUnlockPage, Phys.setStatistics, clearPageBit]

@[simp] theorem pmm_mmUnlockPage (s : Phys Pmm) (a : Nat) :
    (mmUnlockPage s a).pmm = { s.pmm with kMemory := { s.pmm.kMemory with
      freeMemory := add64 s.pmm.kMemory.freeMemory pageSize
      lockedMemory := sub64 s.pmm.kMemory.lockedMemory pageSize } } := by
  simp only [mmUnlockPage, Phys.setStatistics, clearPageBit]

theorem mmScan_stops {s : Phys Pmm} {fuel last c : Nat} (ht : 1 ≤ s.pmm.kMemory.totalAvailablePages)
    (ht64 : s.pmm.kMemory.totalAvailablePages < 2 ^ 63) (hlast : last ≤ s.pmm.kMemory.totalAvailablePages)
    (h : mmScan s fuel last = some c) : c ≤ s.pmm.kMemory.totalAvailablePages ∧ getPageBit s c = false := by
  induction fuel generalizing last with
  | zero => simp [mmScan] at h
  | succ fuel ih =>
      rw [mmScan] at h
      by_cases hbit : getPageBit s last
      · rw [if_pos hbit] at h
        refine ih ?_ h
        by_cases hge : last ≥ s.pmm.kMemory.totalAvailablePages
        · rw [if_pos hge, add64_of_lt (by omega)]
          omega
        · rw [if_neg hge, add64_of_lt (by omega)]
          omega
      · rw [if_neg hbit] at h
        obtain rfl := Option.some.inj h
        exact ⟨hlast, by simpa using hbit⟩

theorem PmmInv.length_le {e : MemmapEntry} {s : Phys Pmm} {pages : List Nat} (h : PmmInv e s pages) :
    pages.length ≤ regionPages e + 1 - reservedPages e :=
  length_le_of_range h.nodup fun i hi => by have := h.range i hi; omega

theorem PmmInv.not_mem_of_clear {e : MemmapEntry} {s : Phys Pmm} {pages : List Nat} (h : PmmInv e s pages) {c : Nat}
    (hle : c ≤ regionPages e) (hc : getPageBit s c = false) (hres : reservedPages e ≤ regionPages e) :
    c ∉ pages ∧ reservedPages e ≤ c := by
  rcases Nat.lt_or_eq_of_le hle with hlt | rfl
  · have hno : ¬ (c < reservedPages e ∨ c ∈ pages) := by
      rw [← h.bits c hlt, hc]
      decide
    exact ⟨fun hm => hno (Or.inr hm), Nat.le_of_not_lt fun hm => hno (Or.inl hm)⟩
  · refine ⟨fun hm => ?_, hres⟩
    rw [h.past hm] at hc
    cases hc

/-- **A request keeps the invariant**: it hands out a page whose bit was clear. -/
theorem PmmInv.request {e : MemmapEntry} (hg : GoodRegion e) {s s' : Phys Pmm} {pages : List Nat}
    (h : PmmInv e s pages) {fuel addr : Nat} (hr : mmRequestPage fuel s = some (addr, s')) :
    ∃ c, addr = pageAddr e.base c ∧ c ≤ regionPages e ∧ getPageBit s c = false ∧ PmmInv e s' (c :: pages) := by
  have hlt := hg.regionPages_lt
  have hres := hg.reservedPages_le
  have h3 := three_le_reservedPages e
  obtain ⟨c, hscan, haddr, hs'⟩ := mmRequestPage_eq_some hr
  obtain ⟨hle, hc⟩ := mmScan_stops (by rw [h.total]; omega) (by rw [h.total]; omega)
    (by rw [h.total]; exact h.cursor) hscan
  rw [h.total] at hle
  obtain ⟨hnew, hge⟩ := h.not_mem_of_clear hle hc hres
  have hpage : addrToPage ((c <<< 12) % 2 ^ 64) = c := addrToPage_shift (by omega)
  have hbit : ∀ i, getPageBit s' i = (decide (i = c) || getPageBit s i) := by
    intro i
    rw [hs']
    simp only [getPageBit, mem_mmLockPage, pmm_mmLockPage, hpage, getBit_setBit]
  have hlen := h.length_le
  refine ⟨c, by rw [haddr, h.first, pageAddr], hle, hc, ?_⟩
  refine ⟨?_, ?_, ?_, ?_, ?_, List.nodup_cons.mpr ⟨hnew, h.nodup⟩, fun i hi => ?_, fun i hi => ?_, fun hi => ?_, ?_, ?_, ?_⟩
  · simp only [hs', pmm_mmLockPage, h.total]
  · simp only [hs', pmm_mmLockPage, h.first]
  · simp only [hs', pmm_mmLockPage, h.last]
  · simp only [hs', pmm_mmLockPage, h.bitfield]
  · simp only [hs', pmm_mmLockPage, hle]
  · rcases List.mem_cons.mp hi with rfl | hi
    · exact ⟨hge, hle⟩
    · exact h.range i hi
  · rw [hbit, Bool.or_eq_true, decide_eq_true_eq, h.bits i hi, List.mem_cons]
    tauto
  · rw [hbit, Bool.or_eq_true, decide_eq_true_eq]
    rcases List.mem_cons.mp hi with hi | hi
    · exact Or.inl hi
    · exact Or.inr (h.past hi)
  · simp only [hs', pmm_mmLockPage, h.locked, pageSize, List.length_cons]
    rw [add64_of_lt (by omega)]
    omega
  · simp only [hs', pmm_mmLockPage, h.reserved]
  · simp only [hs', pmm_mmLockPage, h.free, pageSize, List.length_cons]
    unfold sub64
    omega

/-- **Freeing a page that was handed out keeps the invariant.** -/
theorem PmmInv.release {e : MemmapEntry} (hg : GoodRegion e) {s : Phys Pmm} {pages : List Nat} (h : PmmInv e s pages)
    {c : Nat} (hc : c ∈ pages) : PmmInv e (mmFreePage s (pageAddr e.base c)) (pages.erase c) := by
  have hlt := hg.regionPages_lt
  have hres := hg.reservedPages_le
  have h3 := three_le_reservedPages e
  have hrange := h.range c hc
  have hpage : addrToPage (sub64 (pageAddr e.base c) e.base) = c := by
    rw [pageAddr, sub64_add64_cancel]
    exact addrToPage_shift (by omega)
  have hbit : ∀ i, getPageBit (mmFreePage s (pageAddr e.base c)) i = (!decide (i = c) && getPageBit s i) := by
    intro i
    simp only [getPageBit, mmFreePage, h.first, mem_mmUnlockPage, pmm_mmUnlockPage, hpage, getBit_clearBit]
  have hmem : ∀ i, i ∈ pages.erase c ↔ i ≠ c ∧ i ∈ pages := fun i => h.nodup.mem_erase_iff
  have hlen := List.length_erase_of_mem hc
  have hpos := List.length_pos_of_mem hc
  have hle := h.length_le
  refine ⟨?_, ?_, ?_, ?_, ?_, h.nodup.erase c, fun i hi => ?_, fun i hi => ?_, fun hi => ?_, ?_, ?_, ?_⟩
  · simp only [mmFreePage, pmm_mmUnlockPage, h.total]
  · simp only [mmFreePage, pmm_mmUnlockPage, h.first]
  · simp only [mmFreePage, pmm_mmUnlockPage, h.last]
  · simp only [mmFreePage, pmm_mmUnlockPage, h.bitfield]
  · simpa only [mmFreePage, pmm_mmUnlockPage] using h.cursor
  · exact h.range i ((hmem i).mp hi).2
  · rw [hbit, Bool.and_eq_true, h.bits i hi, hmem]
    simp only [Bool.not_eq_true', decide_eq_false_iff_not]
    have : i < reservedPages e → i ≠ c := by omega
    tauto
  · rw [hbit, h.past ((hmem _).mp hi).2]
    simp [((hmem _).mp hi).1]
  · simp only [mmFreePage, pmm_mmUnlockPage, h.locked, pageSize, hlen]
    rw [sub64_of_le (by omega) (by omega)]
    omega
  · simp only [mmFreePage, pmm_mmUnlockPage, h.reserved]
  · simp only [mmFreePage, pmm_mmUnlockPage, h.free, pageSize, hlen]
    unfold sub64 add64
    omega

/-! ## The scan -/

/-- The scan walks over set bits to the first clear one. -/
theorem mmScan_walk {s : Phys Pmm} {last c : Nat} (ht : s.pmm.kMemory.totalAvailablePages < 2 ^ 63) (hle : last ≤ c)
    (hc : c ≤ s.pmm.kMemory.totalAvailablePages) (hset : ∀ j, last ≤ j → j < c → getPageBit s j = true)
    (hclear : getPageBit s c = false) : mmScan s (c - last + 1) last = some c := by
  obtain ⟨n, rfl⟩ : ∃ n, c = last + n := ⟨c - last, by omega⟩
  rw [Nat.add_sub_cancel_left]
  induction n generalizing last with
  | zero => exact mmScan_of_clear hclear 0
  | succ n ih =>
      rw [mmScan_of_set (hset last (le_refl _) (by omega)) (by omega) (by omega),
        show last + (n + 1) = last + 1 + n by omega]
      refine ih (by omega) (by omega) (fun j h1 h2 => hset j (by omega) (by omega)) ?_
      rwa [show last + 1 + n = last + (n + 1) by omega]

/-- Over set bits up to the one past the last page the scan wraps, and goes on at page 1. -/
theorem mmScan_wrap {s : Phys Pmm} {last : Nat} (ht : s.pmm.kMemory.totalAvailablePages < 2 ^ 63)
    (hle : last ≤ s.pmm.kMemory.totalAvailablePages)
    (hset : ∀ j, last ≤ j → j ≤ s.pmm.kMemory.totalAvailablePages → getPageBit s j = true) (fuel : Nat) :
    mmScan s (s.pmm.kMemory.totalAvailablePages - last + 1 + fuel) last = mmScan s fuel 1 := by
  obtain ⟨n, hn⟩ : ∃ n, s.pmm.kMemory.totalAvailablePages = last + n :=
    ⟨s.pmm.kMemory.totalAvailablePages - last, by omega⟩
  rw [show s.pmm.kMemory.totalAvailablePages - last + 1 + fuel = n + fuel + 1 by omega]
  induction n generalizing last with
  | zero => rw [mmScan_of_past (hset last (le_refl _) (by omega)) (by omega), Nat.zero_add]
  | succ n ih =>
      rw [mmScan_of_set (hset last (le_refl _) (by omega)) (by omega) (by omega),
        show n + 1 + fuel = n + fuel + 1 by omega]
      exact ih (by omega) (fun j h1 h2 => hset j (by omega) h2) (by omega)

/-- From a cursor at or below a clear bit of the region, the scan stops at a clear bit of the region. -/
theorem mmScan_finds {s : Phys Pmm} {last i : Nat} (ht : s.pmm.kMemory.totalAvailablePages < 2 ^ 63) (hle : last ≤ i)
    (hi : i < s.pmm.kMemory.totalAvailablePages) (hclear : getPageBit s i = false) :
    ∃ fuel c, mmScan s fuel last = some c ∧ c < s.pmm.kMemory.totalAvailablePages ∧ getPageBit s c = false := by
  have hex : ∃ c, last ≤ c ∧ getPageBit s c = false := ⟨i, hle, hclear⟩
  obtain ⟨hlast, hbit⟩ := Nat.find_spec hex
  have hfirst : Nat.find hex ≤ i := Nat.find_min' hex ⟨hle, hclear⟩
  refine ⟨_, Nat.find hex, mmScan_walk ht hlast (by omega) (fun j h1 h2 => ?_) hbit, by omega, hbit⟩
  have hmin := Nat.find_min hex h2
  rw [not_and] at hmin
  simpa using hmin h1

/-- The next request returns, and it returns a page of the region whose bit was clear. -/
def RequestFindsFree (s : Phys Pmm) : Prop :=
  ∃ fuel i s', mmRequestPage fuel s = some (pageAddr s.pmm.kMemory.firstAvailablePageAddr i, s') ∧
    i < s.pmm.kMemory.totalAvailablePages ∧ getPageBit s i = false

theorem requestFindsFree_of_scan {s : Phys Pmm} {fuel c : Nat} (h : mmScan s fuel s.pmm.lastRequested = some c)
    (hc : c < s.pmm.kMemory.totalAvailablePages) (hbit : getPageBit s c = false) : RequestFindsFree s := by
  obtain ⟨p, hp⟩ : ∃ p, mmRequestPage fuel s = some p := by
    rw [mmRequestPage, h]
    exact ⟨_, rfl⟩
  obtain ⟨c', hscan, haddr, -⟩ := mmRequestPage_eq_some hp
  obtain rfl := mmScan_unique h hscan
  refine ⟨fuel, c, p.2, ?_, hc, hbit⟩
  rw [hp, pageAddr, ← haddr]

theorem requestFindsFree_scan {s : Phys Pmm} (ht : s.pmm.kMemory.totalAvailablePages < 2 ^ 52) {fuel c : Nat}
    (h : mmScan s fuel s.pmm.lastRequested = some c) (hc : c ≤ s.pmm.kMemory.totalAvailablePages)
    (hfree : RequestFindsFree s) : c < s.pmm.kMemory.totalAvailablePages := by
  obtain ⟨fuel', i, s', hr, hi, -⟩ := hfree
  obtain ⟨c', hscan, haddr, -⟩ := mmRequestPage_eq_some hr
  obtain rfl := mmScan_unique h hscan
  have hic : i = c := pageAddr_inj (by omega) (by omega) haddr
  omega

/-- The padding bit after the last page is what the scan can trip over: it is reached when no page from the cursor on
is free. -/
theorem PmmInv.requestFindsFree_iff {e : MemmapEntry} (hg : GoodRegion e) {s : Phys Pmm} {pages : List Nat}
    (h : PmmInv e s pages) (hfree : ∃ i < s.pmm.kMemory.totalAvailablePages, getPageBit s i = false) :
    RequestFindsFree s ↔
      (∃ i, s.pmm.lastRequested ≤ i ∧ i < s.pmm.kMemory.totalAvailablePages ∧ getPageBit s i = false) ∨
        getPageBit s s.pmm.kMemory.totalAvailablePages = true := by
  have hlt := hg.regionPages_lt
  have h3 := three_le_reservedPages e
  have htotal := h.total
  have hcursor := h.cursor
  have hlt63 : s.pmm.kMemory.totalAvailablePages < 2 ^ 63 := by omega
  by_cases hahead : ∃ i, s.pmm.lastRequested ≤ i ∧ i < s.pmm.kMemory.totalAvailablePages ∧ getPageBit s i = false
  · obtain ⟨i, hle, hi, hclear⟩ := hahead
    obtain ⟨fuel, c, hscan, hc, hbit⟩ := mmScan_finds hlt63 hle hi hclear
    exact ⟨fun _ => Or.inl ⟨i, hle, hi, hclear⟩, fun _ => requestFindsFree_of_scan hscan hc hbit⟩
  · have hset : ∀ j, s.pmm.lastRequested ≤ j → j < s.pmm.kMemory.totalAvailablePages → getPageBit s j = true :=
      fun j h1 h2 => Bool.eq_true_of_not_eq_false fun hj => hahead ⟨j, h1, h2, hj⟩
    rw [or_iff_right hahead]
    refine ⟨fun hfinds => Bool.eq_true_of_not_eq_false fun hpad => ?_, fun hpad => ?_⟩
    · -- the scan stops at the padding bit
      have hscan := mmScan_walk hlt63 (by omega) (le_refl _) hset hpad
      exact absurd (requestFindsFree_scan (by omega) hscan (le_refl _) hfinds) (lt_irrefl _)
    · -- the padding bit is set, so the scan wraps and finds a free page from page 1 on
      obtain ⟨i, hi, hclear⟩ := hfree
      have hres := (h.not_mem_of_clear (by omega) hclear hg.reservedPages_le).2
      have hone : 1 ≤ i := by omega
      obtain ⟨fuel, c, hscan, hc, hbit⟩ := mmScan_finds hlt63 hone hi hclear
      have hall : ∀ j, s.pmm.lastRequested ≤ j → j ≤ s.pmm.kMemory.totalAvailablePages → getPageBit s j = true := by
        intro j h1 h2
        rcases Nat.lt_or_eq_of_le h2 with h2 | rfl
        · exact hset j h1 h2
        · exact hpad
      exact requestFindsFree_of_scan ((mmScan_wrap hlt63 (by omega) hall fuel).trans hscan) hc hbit

theorem GoodRegion.pageAddr_lt {e : MemmapEntry} (hg : GoodRegion e) (hwrap : e.base ≤ add64 e.base e.length) {i : Nat}
    (hi : i < regionPages e) : pageAddr e.base i < add64 e.base e.length := by
  have hlen := hg.length_eq
  have hbase := e.base_lt
  have hl := e.length_lt
  unfold pageAddr add64 at *
  rw [Nat.shiftLeft_eq]
  omega

theorem PmmInv.request_lt_last {e : MemmapEntry} (hg : GoodRegion e) {s : Phys Pmm} {pages : List Nat}
    (h : PmmInv e s pages) (hfinds : RequestFindsFree s)
    (hwrap : s.pmm.kMemory.firstAvailablePageAddr ≤ s.pmm.kMemory.lastAvailablePageAddress)
    {fuel addr : Nat} {s' : Phys Pmm} (hr : mmRequestPage fuel s = some (addr, s')) :
    addr < s.pmm.kMemory.lastAvailablePageAddress := by
  have hlt := hg.regionPages_lt
  have htotal := h.total
  obtain ⟨c, hscan, haddr, -⟩ := mmRequestPage_eq_some hr
  obtain ⟨hc, -⟩ := mmScan_stops (by have := three_le_reservedPages e; have := hg.reservedPages_le; omega) (by omega)
    (by rw [htotal]; exact h.cursor) hscan
  have hcl := requestFindsFree_scan (by omega) hscan hc hfinds
  rw [h.first, h.last] at hwrap
  rw [haddr, h.first, h.last]
  exact hg.pageAddr_lt hwrap (by omega)

/-! ## Runs -/

inductive PmmOp where
  | request
  | free (addr : Nat)
deriving DecidableEq, Repr

/-- A run of the allocator: the pages still held, and every page a request returned. -/
structure PmmRun where
  phys : Phys Pmm
  held : List Nat
  returned : List Nat

/-- One call; `MmFreePage` gets a page that is still held. -/
def pmmStep (fuel : Nat) (r : PmmRun) : PmmOp → Option PmmRun
  | .request => (mmRequestPage fuel r.phys).map fun p => ⟨p.2, p.1 :: r.held, p.1 :: r.returned⟩
  | .free addr => if addr ∈ r.held then some ⟨mmFreePage r.phys addr, r.held.erase addr, r.returned⟩ else none

def pmmRun (fuel : Nat) (s : Phys Pmm) (ops : List PmmOp) : Option PmmRun := run (pmmStep fuel) ⟨s, [], []⟩ ops

theorem erase_map_of_injOn {α β : Type*} [DecidableEq α] [DecidableEq β] (f : α → β) {xs : List α} {x : α}
    (hf : ∀ y ∈ xs, f y = f x → y = x) : (xs.map f).erase (f x) = (xs.erase x).map f := by
  induction xs with
  | nil => rfl
  | cons y xs ih =>
      by_cases hy : y = x
      · subst hy
        simp
      · have hne : f y ≠ f x := fun h => hy (hf y List.mem_cons_self h)
        rw [List.map_cons, List.erase_cons_tail (by simpa using hne), List.erase_cons_tail (by simpa using hy),
          List.map_cons, ih (fun z hz => hf z (List.mem_cons_of_mem _ hz))]

/-- The invariant of a run: the held addresses are the addresses of the pages handed out. -/
def RunInv (e : MemmapEntry) (r : PmmRun) : Prop :=
  ∃ pages, PmmInv e r.phys pages ∧ r.held = pages.map (pageAddr e.base) ∧ ∀ a ∈ r.held, a ∈ r.returned

theorem RunInv.step {e : MemmapEntry} (hg : GoodRegion e) {fuel : Nat} {r r' : PmmRun} {o : PmmOp}
    (h : RunInv e r) (hstep : pmmStep fuel r o = some r') : RunInv e r' := by
  obtain ⟨pages, hinv, hheld, hret⟩ := h
  have hlt := hg.regionPages_lt
  cases o with
  | request =>
      rw [pmmStep, Option.map_eq_some_iff] at hstep
      obtain ⟨⟨addr, s'⟩, hr, rfl⟩ := hstep
      obtain ⟨c, rfl, -, -, hinv'⟩ := hinv.request hg hr
      refine ⟨c :: pages, hinv', by simp [hheld], fun a ha => ?_⟩
      rcases List.mem_cons.mp ha with rfl | ha
      · exact List.mem_cons_self
      · exact List.mem_cons_of_mem _ (hret a ha)
  | free addr =>
      rw [pmmStep] at hstep
      split_ifs at hstep with hmem
      obtain rfl := Option.some.inj hstep
      have hmem' := hmem
      rw [hheld, List.mem_map] at hmem'
      obtain ⟨c, hc, rfl⟩ := hmem'
      refine ⟨pages.erase c, hinv.release hg hc, ?_, fun a ha => hret a (List.mem_of_mem_erase ha)⟩
      have hcr := hinv.range c hc
      rw [hheld]
      refine erase_map_of_injOn _ fun y hy he => ?_
      have hyr := hinv.range y hy
      exact pageAddr_inj (by omega) (by omega) he

theorem runInv_run {e : MemmapEntry} (hg : GoodRegion e) {m : Mem} {memmap : List MemmapEntry} {fuel : Nat}
    {ops : List PmmOp} {r : PmmRun} (hrun : pmmRun fuel (mmInitializeRegion m memmap e) ops = some r) :
    RunInv e r :=
  run_invariant (fun _ _ _ h _ hs => RunInv.step hg h hs) ⟨[], pmmInv_initialize hg m memmap, rfl, by simp⟩
    (stepsMeet_true _ ops) hrun

theorem mmInitialize_eq_some {m : Mem} {memmap : List MemmapEntry} {s : Phys Pmm}
    (hal : PageAligned memmap) (hsize : ∀ e, largestUsable memmap = some e → SizeCheck e)
    (h : mmInitialize m memmap = some s) :
    ∃ e, largestUsable memmap = some e ∧ GoodRegion e ∧ s = mmInitializeRegion m memmap e := by
  rw [mmInitialize, Option.map_eq_some_iff] at h
  obtain ⟨e, he, rfl⟩ := h
  obtain ⟨hmem, hu⟩ := largestUsable_mem he
  obtain ⟨h1, h2⟩ := hal e hmem hu
  exact ⟨e, he, ⟨h1, h2, hsize e he⟩, rfl⟩

/-- The accounting of a run: `s` is the state after `MmInitialize`, `k` the pages it reserved. -/
structure PmmExact (s : Phys Pmm) (k : Nat) (r : PmmRun) : Prop where
  distinct : r.held.Nodup
  notReserved : ∀ i < k, pageAddr s.pmm.kMemory.firstAvailablePageAddr i ∉ r.held
  bits : ∀ i < s.pmm.kMemory.totalAvailablePages, getPageBit r.phys i = true ↔
    i < k ∨ pageAddr s.pmm.kMemory.firstAvailablePageAddr i ∈ r.held
  locked : r.phys.pmm.kMemory.lockedMemory = pageSize * r.held.length
  reserved : r.phys.pmm.kMemory.reservedMemory = s.pmm.kMemory.reservedMemory
  fits : k + r.held.length ≤ s.pmm.kMemory.totalAvailablePages
  free : r.phys.pmm.kMemory.freeMemory = pageSize * (s.pmm.kMemory.totalAvailablePages - k - r.held.length)

theorem PmmInv.exact {e : MemmapEntry} (hg : GoodRegion e) {s : Phys Pmm} {r : PmmRun} {pages : List Nat}
    (h0 : PmmInv e s []) (h : PmmInv e r.phys pages) (hheld : r.held = pages.map (pageAddr e.base))
    (hlt : ∀ i ∈ pages, i < regionPages e) : PmmExact s (reservedPages e) r := by
  have hpages := hg.regionPages_lt
  have hres := hg.reservedPages_le
  have hlen := length_le_of_range h.nodup fun i hi => ⟨(h.range i hi).1, hlt i hi⟩
  have hmem : ∀ i < 2 ^ 52, pageAddr e.base i ∈ r.held ↔ i ∈ pages := by
    intro i hi
    rw [hheld, List.mem_map]
    refine ⟨fun ⟨j, hj, he⟩ => ?_, fun hi => ⟨i, hi, rfl⟩⟩
    have hj' := hlt j hj
    exact pageAddr_inj (by omega) hi he ▸ hj
  have hheldlen : r.held.length = pages.length := by rw [hheld, List.length_map]
  refine ⟨?_, fun i hi => ?_, fun i hi => ?_, ?_, ?_, ?_, ?_⟩
  · rw [hheld]
    refine List.Nodup.map_on (fun i hi j hj he => ?_) h.nodup
    have hi' := hlt i hi
    have hj' := hlt j hj
    exact pageAddr_inj (by omega) (by omega) he
  · rw [h0.first, hmem i (by omega)]
    intro hi'
    have := (h.range i hi').1
    omega
  · rw [h0.total] at hi
    rw [h0.first, hmem i (by omega), h.bits i hi]
  · rw [h.locked, hheldlen, pageSize]
  · rw [h.reserved, h0.reserved]
  · rw [h0.total, hheldlen]
    omega
  · rw [h.free, h0.total, hheldlen, pageSize, sub64_of_le (by omega) (by omega)]
    omega

/-- **The allocator is exclusive and its counters are exact**, over every run whose requests all returned pages of the
region. -/
theorem pmm_run_exclusive {m : Mem} {memmap : List MemmapEntry} {e : MemmapEntry} {s : Phys Pmm}
    (hal : PageAligned memmap) (he : largestUsable memmap = some e) (hsize : SizeCheck e)
    (hinit : mmInitialize m memmap = some s) {fuel : Nat} {ops : List PmmOp} {r : PmmRun}
    (hrun : pmmRun fuel s ops = some r)
    (hin : ∀ a ∈ r.returned, ∃ i < s.pmm.kMemory.totalAvailablePages,
      a = pageAddr s.pmm.kMemory.firstAvailablePageAddr i) :
    PmmExact s (reservedPages e) r := by
  obtain ⟨e', he', hg, rfl⟩ := mmInitialize_eq_some hal
    (fun e' he' => by rw [he] at he'; exact Option.some.inj he' ▸ hsize) hinit
  obtain rfl : e = e' := Option.some.inj (he.symm.trans he')
  have h0 := pmmInv_initialize hg m memmap
  have hpages := hg.regionPages_lt
  obtain ⟨pages, hinv, hheld, hret⟩ := runInv_run hg hrun
  refine PmmInv.exact hg h0 hinv hheld fun i hi => ?_
  obtain ⟨j, hj, hij⟩ := hin (pageAddr e.base i) (hret _ (by rw [hheld]; exact List.mem_map_of_mem hi))
  rw [h0.total] at hj
  rw [h0.first] at hij
  have hi' := (hinv.range i hi).2
  rw [pageAddr_inj (by omega) (by omega) hij]
  exact hj

/-- A memory map with one usable entry of twelve pages. -/
def twelvePages : MemmapEntry := ⟨0x100000, 0xC000, .usable, by decide, by decide⟩

theorem pageAligned_twelvePages : PageAligned [twelvePages] := by
  intro e he _
  rw [List.mem_singleton.mp he]
  decide

/-- A run on `twelvePages` from cleared memory, with what `f` reads of it. -/
theorem twelvePages_run {α : Type} (ops : List PmmOp) (f : Phys Pmm → PmmRun → α) {a : α}
    (h : ((mmInitialize (fun _ => 0) [twelvePages]).bind fun s => (pmmRun 20 s ops).map (f s)) = some a) :
    ∃ s r, mmInitialize (fun _ => 0) [twelvePages] = some s ∧ pmmRun 20 s ops = some r ∧ f s r = a := by
  obtain ⟨s, hs, hr⟩ := Option.bind_eq_some_iff.mp h
  obtain ⟨r, hr, hf⟩ := Option.map_eq_some_iff.mp hr
  exact ⟨s, r, hs, hr, hf⟩

theorem pmm_run_exclusive_twelve : ∃ s r, mmInitialize (fun _ => 0) [twelvePages] = some s ∧
    pmmRun 20 s [.request, .request, .free 0x103000] = some r ∧ r.held = [0x104000] ∧ PmmExact s 3 r := by
  obtain ⟨s, r, hs, hr, hf⟩ := twelvePages_run [.request, .request, .free 0x103000]
    (fun s r => (r.held, r.returned, s.pmm.kMemory.totalAvailablePages, s.pmm.kMemory.firstAvailablePageAddr))
    (a := ([0x104000], [0x104000, 0x103000], 12, 0x100000)) (by decide +kernel)
  simp only [Prod.mk.injEq] at hf
  obtain ⟨hheld, hreturned, htotal, hfirst⟩ := hf
  have h3 : reservedPages twelvePages = 3 := by decide +kernel
  refine ⟨s, r, hs, hr, hheld, h3 ▸ pmm_run_exclusive pageAligned_twelvePages rfl (by decide +kernel) hs hr ?_⟩
  rw [hreturned, htotal, hfirst]
  intro a ha
  rcases List.mem_cons.mp ha with rfl | ha
  · exact ⟨4, by decide, by decide +kernel⟩
  · rw [List.mem_singleton.mp ha]
    exact ⟨3, by decide, by decide +kernel⟩

/-- **When the next request finds a free page.** In every state of a run in which some page of the region is free, the
next request returns a free page of the region exactly when a page from the cursor on is free or the bit after the last
page is set. -/
theorem request_finds_free_iff {m : Mem} {memmap : List MemmapEntry} {e : MemmapEntry} {s : Phys Pmm}
    (hal : PageAligned memmap) (he : largestUsable memmap = some e) (hsize : SizeCheck e)
    (hinit : mmInitialize m memmap = some s) {fuel : Nat} {ops : List PmmOp} {r : PmmRun}
    (hrun : pmmRun fuel s ops = some r)
    (hfree : ∃ i < r.phys.pmm.kMemory.totalAvailablePages, getPageBit r.phys i = false) :
    (RequestFindsFree r.phys ↔
      (∃ i, r.phys.pmm.lastRequested ≤ i ∧ i < r.phys.pmm.kMemory.totalAvailablePages ∧
        getPageBit r.phys i = false) ∨
      getPageBit r.phys r.phys.pmm.kMemory.totalAvailablePages = true) ∧
    (RequestFindsFree r.phys →
      r.phys.pmm.kMemory.firstAvailablePageAddr ≤ r.phys.pmm.kMemory.lastAvailablePageAddress →
      ∀ fuel' addr s', mmRequestPage fuel' r.phys = some (addr, s') →
        addr < r.phys.pmm.kMemory.lastAvailablePageAddress) := by
  obtain ⟨e', he', hg, rfl⟩ := mmInitialize_eq_some hal
    (fun e' he' => by rw [he] at he'; exact Option.some.inj he' ▸ hsize) hinit
  obtain ⟨pages, hinv, -, -⟩ := runInv_run hg hrun
  exact ⟨hinv.requestFindsFree_iff hg hfree,
    fun hfinds hwrap fuel' addr s' hr => hinv.request_lt_last hg hfinds hwrap hr⟩

theorem request_finds_free_twelve : ∃ s r, mmInitialize (fun _ => 0) [twelvePages] = some s ∧
    pmmRun 20 s [.request, .request, .free 0x103000] = some r ∧ RequestFindsFree r.phys := by
  obtain ⟨s, r, hs, hr, hf⟩ := twelvePages_run [.request, .request, .free 0x103000]
    (fun _ r => (r.phys.pmm.lastRequested, r.phys.pmm.kMemory.totalAvailablePages, getPageBit r.phys 5))
    (a := (4, 12, false)) (by decide +kernel)
  simp only [Prod.mk.injEq] at hf
  obtain ⟨hcursor, htotal, hbit⟩ := hf
  have hfree : ∃ i < r.phys.pmm.kMemory.totalAvailablePages, getPageBit r.phys i = false :=
    ⟨5, by omega, hbit⟩
  have hiff := (request_finds_free_iff pageAligned_twelvePages rfl (by decide +kernel) hs hr hfree).1
  exact ⟨s, r, hs, hr, hiff.mpr (Or.inl ⟨5, by omega, by omega, hbit⟩)⟩

/-- Page 3 is free, but with every page from the cursor on held the scan stops at the padding bit 12 and the request
returns the address after the region. -/
theorem request_returns_past_end : ∃ s r s', mmInitialize (fun _ => 0) [twelvePages] = some s ∧
    pmmRun 20 s (List.replicate 9 .request ++ [.free 0x103000]) = some r ∧
    3 < r.phys.pmm.kMemory.totalAvailablePages ∧ getPageBit r.phys 3 = false ∧
    mmRequestPage 20 r.phys = some (r.phys.pmm.kMemory.lastAvailablePageAddress, s') ∧
    ¬ RequestFindsFree r.phys := by
  obtain ⟨s, r, hs, hr, hf⟩ := twelvePages_run (List.replicate 9 .request ++ [.free 0x103000])
    (fun _ r => (mmScan r.phys 20 r.phys.pmm.lastRequested, r.phys.pmm.kMemory.totalAvailablePages,
      getPageBit r.phys 3, (mmRequestPage 20 r.phys).map Prod.fst, r.phys.pmm.kMemory.lastAvailablePageAddress))
    (a := (some 12, 12, false, some 0x10C000, 0x10C000)) (by decide +kernel)
  simp only [Prod.mk.injEq] at hf
  obtain ⟨hscan, htotal, hbit, hreq, hlast⟩ := hf
  obtain ⟨p, hp, haddr⟩ := Option.map_eq_some_iff.mp hreq
  refine ⟨s, r, p.2, hs, hr, by omega, hbit, by rw [hp, hlast, ← haddr], fun hfinds => ?_⟩
  have hlt := requestFindsFree_scan (by omega) hscan (by omega) hfinds
  omega

end Gewodsys.Mem
