import Gewodsys.Mem.PmmRuns
import Gewodsys.Mem.VmmTree

/-!
# The page frame allocator as a source of pages

Without calls of `MmFreePage` the allocator hands out the pages of its region in order. `Fresh e used s` : exactly the
first `used` pages are reserved or handed out; `pmmSource` is the allocator of a region below `2^40` as a `PageSource`.
-/

namespace Gewodsys.Mem
open Gewodsys.Machine Gewodsys.Lib

/-- The first `used` pages of the region `e` are taken, and no other. -/
structure Fresh (e : MemmapEntry) (used : Nat) (s : Phys Pmm) : Prop where
  total : s.pmm.kMemory.totalAvailablePages = regionPages e
  first : s.pmm.kMemory.firstAvailablePageAddr = e.base
  bitfield : s.pmm.kMemory.bitfield = e.base + 4096
  cursor : s.pmm.lastRequested ≤ used
  bits : ∀ i < regionPages e, getPageBit s i = decide (i < used)

/-- A region that ends at or below `2^40`. -/
structure LowRegion (e : MemmapEntry) : Prop extends GoodRegion e where
  low : e.base + e.length ≤ 2 ^ 40

/-- The bytes of the bit map. -/
def InBitmap (e : MemmapEntry) (x : Nat) : Prop := e.base + 4096 ≤ x ∧ x < e.base + 4096 + bitfieldEntries e

theorem LowRegion.bitfield_eq {e : MemmapEntry} (h : LowRegion e) :
    alignAddr (add64 e.base sizeofMemoryStatistics) = e.base + 4096 := by
  have hsize := h.reservedPages_le
  have h3 := three_le_reservedPages e
  have hlen := h.length_eq
  have hlow := h.low
  rw [h.toGoodRegion.bitfield_eq, add64_of_lt (by omega)]

theorem LowRegion.pageAddr_eq {e : MemmapEntry} (h : LowRegion e) {i : Nat} (hi : i < regionPages e) :
    pageAddr e.base i = e.base + 4096 * i := by
  have hlen := h.length_eq
  have hlow := h.low
  rw [pageAddr, Nat.shiftLeft_eq, add64_of_lt (by omega)]
  omega

theorem fresh_initialize {e : MemmapEntry} (h : LowRegion e) (m : Mem) (memmap : List MemmapEntry) :
    Fresh e (reservedPages e) (mmInitializeRegion m memmap e) := by
  have hinv := pmmInv_initialize h.toGoodRegion m memmap
  refine ⟨hinv.total, hinv.first, hinv.bitfield.trans h.bitfield_eq, ?_, fun i hi => ?_⟩
  · rw [mmInitializeRegion, mmReservePages_keeps (fun s => s.pmm.lastRequested) (fun _ _ => by simp)]
    exact Nat.zero_le _
  · rw [Bool.eq_iff_iff, hinv.bits i hi]
    simp

theorem frame_mmInitializeRegion {e : MemmapEntry} (h : LowRegion e) (m : Mem) (memmap : List MemmapEntry) :
    Frame m (mmInitializeRegion m memmap e).mem (InBitmap e) := by
  have hpages := h.regionPages_lt
  have hbitfield : (initialStatistics memmap e).bitfield = e.base + 4096 := by
    rw [← h.bitfield_eq, ← h.regionFirst_eq, initialStatistics]
  have hreserve : ∀ (s : Phys Pmm) n, s.pmm.kMemory.bitfield = e.base + 4096 → n ≤ regionPages e →
      Frame s.mem (mmReservePages s 0 n).mem (InBitmap e) := by
    intro s n hb
    induction n with
    | zero => exact fun _ => Frame.refl s.mem _
    | succ n ih =>
        intro hn
        have hcov := GoodRegion.bitfieldEntries_covers (show n < regionPages e by omega)
        have hpage : addrToPage ((n <<< 12) % 2 ^ 64) = n := addrToPage_shift (by omega)
        refine (ih (by omega)).trans ?_
        rw [mmReservePages_succ, mem_mmReservePage, hpage,
          mmReservePages_keeps (fun s => s.pmm.kMemory.bitfield) (fun _ _ => by simp), hb]
        refine (Frame.setBit _ (e.base + 4096) n).mono fun x hx => ?_
        unfold InBitmap
        omega
  refine Frame.trans ?_ (hreserve ⟨rtZeroMemory m (initialStatistics memmap e).bitfield (bitfieldEntries e),
    ⟨initialStatistics memmap e, 0⟩⟩ _ hbitfield h.reservedPages_le)
  rw [hbitfield]
  exact frame_rtZeroMemory m _ _

theorem Fresh.request {e : MemmapEntry} (hl : LowRegion e) {used : Nat} {s : Phys Pmm} (h : Fresh e used s)
    (hlt : used < regionPages e) {fuel : Nat} (hfuel : regionPages e < fuel) :
    ∃ s', mmRequestPage fuel s = some (e.base + 4096 * used, s') ∧ Fresh e (used + 1) s' ∧
      Frame s.mem s'.mem (InBitmap e) := by
  have hpages := hl.regionPages_lt
  have htotal := h.total
  have hcursor := h.cursor
  have hscan : mmScan s (used - s.pmm.lastRequested + 1) s.pmm.lastRequested = some used := by
    refine mmScan_walk (by omega) h.cursor (by omega) (fun j _ hj => ?_) ?_
    · rw [h.bits j (by omega)]
      simpa using hj
    · rw [h.bits used hlt]
      simp
  obtain ⟨r, hr⟩ : ∃ r, mmRequestPage fuel s = some r := by
    rw [mmRequestPage, mmScan_mono hscan (show _ ≤ fuel by omega)]
    exact ⟨_, rfl⟩
  obtain ⟨c, hc, haddr, hs'⟩ := mmRequestPage_eq_some hr
  obtain rfl := mmScan_unique hscan hc
  have hpage : addrToPage ((used <<< 12) % 2 ^ 64) = used := addrToPage_shift (by omega)
  have hmem : r.2.mem = setBit s.mem (e.base + 4096) used := by
    simp only [hs', mem_mmLockPage, hpage, h.bitfield]
  refine ⟨r.2, ?_, ⟨?_, ?_, ?_, ?_, fun i hi => ?_⟩, ?_⟩
  · rw [h.first] at haddr
    rw [hr, ← hl.pageAddr_eq hlt, pageAddr, ← haddr]
  · simp only [hs', pmm_mmLockPage, h.total]
  · simp only [hs', pmm_mmLockPage, h.first]
  · simp only [hs', pmm_mmLockPage, h.bitfield]
  · simp only [hs', pmm_mmLockPage]
    omega
  · have hbit : getPageBit r.2 i = (decide (i = used) || getPageBit s i) := by
      simp only [getPageBit, hs', mem_mmLockPage, pmm_mmLockPage, hpage, getBit_setBit]
    rw [hbit, h.bits i hi, Bool.eq_iff_iff]
    simp only [Bool.or_eq_true, decide_eq_true_eq]
    omega
  · rw [hmem]
    refine (Frame.setBit s.mem (e.base + 4096) used).mono fun x hx => ?_
    have hcov := GoodRegion.bitfieldEntries_covers hlt
    unfold InBitmap
    omega

/-- Writes that spare the bit map do not matter. -/
theorem Fresh.write {e : MemmapEntry} {used : Nat} {s : Phys Pmm} (h : Fresh e used s) {m' : Mem} {W : Nat → Prop}
    (hframe : Frame s.mem m' W) (hW : ∀ x, W x → ¬ InBitmap e x) : Fresh e used { s with mem := m' } := by
  refine ⟨h.total, h.first, h.bitfield, h.cursor, fun i hi => ?_⟩
  rw [← h.bits i hi]
  refine getBit_congr (hframe _ fun hw => hW _ hw ?_)
  have hcov := GoodRegion.bitfieldEntries_covers hi
  rw [h.bitfield]
  unfold InBitmap
  omega

/-- The page at `f` is none of the region's pages from `used` on, and does not meet the bit map. -/
structure Spared (e : MemmapEntry) (used f : Nat) : Prop where
  aligned : f % 4096 = 0
  page : ∀ i, used ≤ i → i < regionPages e → f ≠ e.base + 4096 * i
  bitmap : ∀ x, InPage f x → ¬ InBitmap e x

/-- **The allocator as a source of pages**, on a region below `2^40`. -/
def pmmSource (e : MemmapEntry) (hl : LowRegion e) (fuel : Nat) (hfuel : regionPages e < fuel) : PageSource Pmm where
  request := mmRequestPage fuel
  Page f := ∃ i, reservedPages e ≤ i ∧ i < regionPages e ∧ f = e.base + 4096 * i
  own := InBitmap e
  Ready n F s := ∃ used, Fresh e used s ∧ reservedPages e ≤ used ∧ used + n ≤ regionPages e ∧ ∀ f ∈ F, Spared e used f
  request_spec := by
    rintro n F s ⟨used, hfresh, hres, hn, hF⟩
    have hlt : used < regionPages e := by omega
    have hbase := hl.base
    have hlow := hl.low
    have hlen := hl.length_eq
    have hbit := bitfieldEntries_le e
    obtain ⟨s', hreq, hfresh', hframe⟩ := hfresh.request hl hlt hfuel
    refine ⟨_, s', hreq, ⟨used, hres, hlt, rfl⟩, by omega, by omega, fun hf => (hF _ hf).page used (le_refl _) hlt rfl,
      hframe, used + 1, hfresh', by omega, by omega, fun f hf => ?_⟩
    rcases hf with rfl | hf
    · refine ⟨by omega, fun i hi _ => by omega, fun x hx => ?_⟩
      unfold InPage at hx
      unfold InBitmap
      omega
    · have hsp := hF f hf
      exact ⟨hsp.aligned, fun i hi hi' => hsp.page i (by omega) hi', hsp.bitmap⟩
  ready_own := by
    rintro n F s ⟨used, -, -, -, hF⟩ f hf
    exact (hF f hf).bitmap
  ready_write := by
    rintro n F s m' ⟨used, hfresh, hres, hn, hF⟩ hframe
    refine ⟨used, hfresh.write hframe ?_, hres, hn, hF⟩
    rintro x ⟨f, hf, hx⟩
    exact (hF f hf).bitmap x hx

end Gewodsys.Mem
