import Gewodsys.Mem.PmmRuns

/-!
# The region after `MmInitialize`

The bit map describes the region that holds the bit map itself.

* `largestUsable_max` : the chosen entry is usable and no usable entry is longer;
* `statistics_page_lt`, `bitfield_page_lt` : the reserved pages cover the record and the bit map, for every region size;
* `region_ready` : the state after `MmInitialize`.
-/

namespace Gewodsys.Mem
open Gewodsys.Machine Gewodsys.Lib

/-! ## The chosen entry -/

theorem largestStep_max (l : Option MemmapEntry) (entry : MemmapEntry) :
    (∀ e, l = some e → ∃ e', largestStep l entry = some e' ∧ e.length ≤ e'.length) ∧
    (entry.type = .usable → ∃ e', largestStep l entry = some e' ∧ entry.length ≤ e'.length) := by
  unfold largestStep
  by_cases hu : entry.type = .usable
  · rw [if_neg (not_not.mpr hu)]
    cases l with
    | none => exact ⟨fun e he => (Option.some_ne_none e he.symm).elim, fun _ => ⟨entry, rfl, le_refl _⟩⟩
    | some l =>
        by_cases hlt : entry.length > l.length
        · simp only [if_pos hlt]
          refine ⟨fun e he => ⟨entry, rfl, ?_⟩, fun _ => ⟨entry, rfl, le_refl _⟩⟩
          obtain rfl := Option.some.inj he
          exact hlt.le
        · simp only [if_neg hlt]
          refine ⟨fun e he => ⟨l, rfl, ?_⟩, fun _ => ⟨l, rfl, Nat.le_of_not_lt hlt⟩⟩
          obtain rfl := Option.some.inj he
          exact le_refl _
  · rw [if_pos hu]
    exact ⟨fun e he => ⟨e, he, le_refl _⟩, fun h => absurd h hu⟩

theorem foldl_largestStep_max (memmap : List MemmapEntry) (l : Option MemmapEntry) :
    (∀ e, l = some e → ∃ e', memmap.foldl largestStep l = some e' ∧ e.length ≤ e'.length) ∧
    (∀ e ∈ memmap, e.type = .usable → ∃ e', memmap.foldl largestStep l = some e' ∧ e.length ≤ e'.length) := by
  induction memmap generalizing l with
  | nil => exact ⟨fun e he => ⟨e, he, le_refl _⟩, fun e he => absurd he List.not_mem_nil⟩
  | cons entry memmap ih =>
      obtain ⟨hkeep, hseen⟩ := ih (largestStep l entry)
      obtain ⟨hold, hnew⟩ := largestStep_max l entry
      rw [List.foldl_cons]
      refine ⟨fun e he => ?_, fun e he hu => ?_⟩
      · obtain ⟨e₁, h₁, hle₁⟩ := hold e he
        obtain ⟨e₂, h₂, hle₂⟩ := hkeep e₁ h₁
        exact ⟨e₂, h₂, hle₁.trans hle₂⟩
      · rcases List.mem_cons.mp he with rfl | he
        · obtain ⟨e₁, h₁, hle₁⟩ := hnew hu
          obtain ⟨e₂, h₂, hle₂⟩ := hkeep e₁ h₁
          exact ⟨e₂, h₂, hle₁.trans hle₂⟩
        · exact hseen e he hu

/-- **The chosen entry is the longest usable one**; there is one as soon as the map has a usable entry. -/
theorem largestUsable_max {memmap : List MemmapEntry} {e : MemmapEntry} (he : e ∈ memmap) (hu : e.type = .usable) :
    ∃ e', largestUsable memmap = some e' ∧ e.length ≤ e'.length :=
  (foldl_largestStep_max memmap none).2 e he hu

/-! ## Bytes and pages of the region -/

/-- The byte at `x` belongs to the entry; the distance from the base is taken in `uint64_t`. -/
def MemmapEntry.Holds (e : MemmapEntry) (x : Nat) : Prop := sub64 x e.base < e.length

/-- For an entry that ends below the top of the address space this is the interval from its base on. -/
theorem MemmapEntry.holds_iff {e : MemmapEntry} (hend : e.base + e.length ≤ 2 ^ 64) {x : Nat} (hx : x < 2 ^ 64) :
    e.Holds x ↔ e.base ≤ x ∧ x < e.base + e.length := by
  have hb := e.base_lt
  unfold Holds sub64
  omega

/-- The page of the region that holds the byte at `x`. -/
def pageIndex (s : Phys Pmm) (x : Nat) : Nat := addrToPage (sub64 x s.pmm.kMemory.firstAvailablePageAddr)

theorem pageIndex_add64 {s : Phys Pmm} {x o : Nat} (hx : x = add64 s.pmm.kMemory.firstAvailablePageAddr o)
    (ho : o < 2 ^ 64) : pageIndex s x = o / 4096 := by
  rw [pageIndex, hx, sub64_add64_cancel, Nat.mod_eq_of_lt ho, addrToPage, Nat.shiftRight_eq_div_pow]

theorem GoodRegion.holds_page {e : MemmapEntry} (hg : GoodRegion e) {i j : Nat} (hi : i < regionPages e)
    (hj : j < pageSize) : e.Holds (add64 (pageAddr e.base i) j) := by
  have hlen := hg.length_eq
  have hlt := e.length_lt
  have ho : (i <<< 12) + j < e.length := by
    rw [Nat.shiftLeft_eq]
    unfold pageSize at hj
    omega
  rw [MemmapEntry.Holds, pageAddr, add64_add64, sub64_add64_cancel, Nat.mod_eq_of_lt (by omega)]
  exact ho

theorem statistics_page_lt (e : MemmapEntry) {j : Nat} (hj : j < sizeofMemoryStatistics) : j / 4096 < reservedPages e := by
  have h3 := three_le_reservedPages e
  unfold sizeofMemoryStatistics at hj
  omega

/-- The floor of the whole header covers the page of the record and the rounded-up pages of the bit map. -/
theorem bitfield_page_lt (e : MemmapEntry) {j : Nat} (hj : j < bitfieldEntries e) :
    (4096 + j) / 4096 < reservedPages e := by
  have hle := bitfieldEntries_le e
  omega

/-! ## The state after `MmInitialize` -/

/-- The region `e` is set up in `s`, with its first `k` pages reserved. -/
structure RegionReady (memmap : List MemmapEntry) (e : MemmapEntry) (k : Nat) (s : Phys Pmm) : Prop where
  usable : e ∈ memmap ∧ e.type = .usable
  longest : ∀ e' ∈ memmap, e'.type = .usable → e'.length ≤ e.length
  inside : ∀ i < s.pmm.kMemory.totalAvailablePages, ∀ j < pageSize,
    e.Holds (add64 (pageAddr s.pmm.kMemory.firstAvailablePageAddr i) j)
  bits : ∀ i < s.pmm.kMemory.totalAvailablePages, getPageBit s i = true ↔ i < k
  statistics : ∀ j < sizeofMemoryStatistics, pageIndex s (add64 s.pmm.kMemory.firstAvailablePageAddr j) < k
  bitfield : ∀ j < bitfieldEntries e, pageIndex s (add64 s.pmm.kMemory.bitfield j) < k
  fits : k ≤ s.pmm.kMemory.totalAvailablePages
  counters : s.pmm.kMemory.freeMemory + s.pmm.kMemory.reservedMemory = pageSize * s.pmm.kMemory.totalAvailablePages

theorem page_statistics (e : MemmapEntry) (s : Phys Pmm) {j : Nat} (hj : j < sizeofMemoryStatistics) :
    pageIndex s (add64 s.pmm.kMemory.firstAvailablePageAddr j) < reservedPages e := by
  have hj64 : j < 2 ^ 64 := by
    unfold sizeofMemoryStatistics at hj
    omega
  rw [pageIndex_add64 rfl hj64]
  exact statistics_page_lt e hj

theorem PmmInv.page_bitfield {e : MemmapEntry} (hg : GoodRegion e) {s : Phys Pmm} (h : PmmInv e s []) {j : Nat}
    (hj : j < bitfieldEntries e) : pageIndex s (add64 s.pmm.kMemory.bitfield j) < reservedPages e := by
  have hpages := hg.regionPages_lt
  have hres := hg.reservedPages_le
  have hentries := bitfieldEntries_le e
  have haddr : add64 s.pmm.kMemory.bitfield j = add64 s.pmm.kMemory.firstAvailablePageAddr (4096 + j) := by
    rw [h.bitfield, hg.bitfield_eq, h.first, add64_add64]
  rw [pageIndex_add64 haddr (by omega)]
  exact bitfield_page_lt e hj

theorem PmmInv.counters {e : MemmapEntry} (hg : GoodRegion e) {s : Phys Pmm} (h : PmmInv e s []) :
    s.pmm.kMemory.freeMemory + s.pmm.kMemory.reservedMemory = pageSize * s.pmm.kMemory.totalAvailablePages := by
  have hres := hg.reservedPages_le
  have hpages := hg.regionPages_lt
  rw [h.free, h.reserved, h.total, List.length_nil, Nat.mul_zero, sub64_of_le (by omega) (Nat.zero_le _), pageSize]
  omega

/-- **The region after `MmInitialize`.** For every memory map with a usable entry, with page-aligned usable entries and
a largest one that passes the size check: the region is a longest usable entry and holds every managed page, exactly the
first `k` pages are reserved, and these cover the record and the bit map. -/
theorem region_ready (m : Mem) {memmap : List MemmapEntry} (hal : PageAligned memmap)
    (husable : ∃ e ∈ memmap, e.type = .usable) (hsize : ∀ e, largestUsable memmap = some e → SizeCheck e) :
    ∃ e s, largestUsable memmap = some e ∧ mmInitialize m memmap = some s ∧
      RegionReady memmap e ((bitfieldEntries e + sizeofMemoryStatistics + (3 <<< 12)) >>> 12) s := by
  obtain ⟨e₀, he₀, hu₀⟩ := husable
  obtain ⟨e, he, -⟩ := largestUsable_max he₀ hu₀
  obtain ⟨hmem, hu⟩ := largestUsable_mem he
  have hg : GoodRegion e := ⟨(hal e hmem hu).1, (hal e hmem hu).2, hsize e he⟩
  have h := pmmInv_initialize hg m memmap
  refine ⟨e, mmInitializeRegion m memmap e, he, by rw [mmInitialize, he, Option.map_some], ?_⟩
  refine ⟨⟨hmem, hu⟩, fun e' he' hu' => ?_, fun i hi j hj => ?_, fun i hi => ?_, fun j hj => page_statistics e _ hj,
    fun j hj => h.page_bitfield hg hj, ?_, h.counters hg⟩
  · obtain ⟨e₁, h₁, hle⟩ := largestUsable_max he' hu'
    obtain rfl := Option.some.inj (h₁.symm.trans he)
    exact hle
  · rw [h.total] at hi
    rw [h.first]
    exact hg.holds_page hi hj
  · rw [h.total] at hi
    rw [h.bits i hi]
    exact or_iff_left List.not_mem_nil
  · rw [h.total]
    exact hg.reservedPages_le

theorem region_ready_twelve : ∃ e s, largestUsable [twelvePages] = some e ∧
    mmInitialize (fun _ => 0) [twelvePages] = some s ∧ RegionReady [twelvePages] e 3 s := by
  have hsize : ∀ e, largestUsable [twelvePages] = some e → SizeCheck e := by
    intro e he
    obtain rfl : twelvePages = e := Option.some.inj he
    decide +kernel
  obtain ⟨e, s, he, hs, hr⟩ := region_ready (fun _ => 0) pageAligned_twelvePages
    ⟨twelvePages, List.mem_singleton_self _, rfl⟩ hsize
  obtain rfl : twelvePages = e := Option.some.inj he
  have h3 : (bitfieldEntries twelvePages + sizeofMemoryStatistics + (3 <<< 12)) >>> 12 = 3 := by decide +kernel
  rw [h3] at hr
  exact ⟨twelvePages, s, he, hs, hr⟩

end Gewodsys.Mem
