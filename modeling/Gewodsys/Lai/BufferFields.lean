import Gewodsys.Lai.FieldRuns

/-!
# What buffer fields read and write

* `writeBuffer_spec` : a write replaces the bits of the field; `readBuffer_aligned`, `readBuffer_lowest` : what a read gives;
* `buffer_field_roundTrip_iff` : where what is written is read back.
-/

namespace Gewodsys.Lai
open Gewodsys.Machine

variable {data : List Byte} {offset size : Nat}

theorem getLsbD_byteMask {m : Nat} (hm : m ≤ 8) (k : Nat) : ((lowMask m).setWidth 8).getLsbD k = decide (k < m) := by
  rw [BitVec.getLsbD_setWidth, getLsbD_lowMask (by omega)]
  by_cases hk : k < m
  · rw [decide_eq_true hk, decide_eq_true (show k < 8 by omega)]
    rfl
  · rw [decide_eq_false hk, Bool.and_false]

theorem setWidth_byteMask {m : Nat} (hm : m ≤ 8) : ((lowMask m).setWidth 8).setWidth 64 = lowMask m := by
  apply BitVec.eq_of_getLsbD_eq
  intro k hk
  rw [BitVec.getLsbD_setWidth, getLsbD_byteMask hm, getLsbD_lowMask (by omega), decide_eq_true hk, Bool.true_and]

/-- The bits of a byte that a piece replaces. -/
theorem getLsbD_replace {bit n m k : Nat} (hm : bit + m ≤ 8) (hk : k < 8) (b : Byte) (x : Word64) :
    ((b &&& ~~~((lowMask m).setWidth 8 <<< bit)) |||
        (((x >>> n) &&& ((lowMask m).setWidth 8).setWidth 64) <<< bit).setWidth 8).getLsbD k =
      if bit ≤ k ∧ k < bit + m then x.getLsbD (n + (k - bit)) else b.getLsbD k := by
  rw [setWidth_byteMask (by omega), BitVec.getLsbD_or, getLsbD_shifted hm hk, BitVec.getLsbD_and, BitVec.getLsbD_not,
    BitVec.getLsbD_shiftLeft, getLsbD_byteMask (by omega)]
  by_cases hin : bit ≤ k ∧ k < bit + m
  · rw [if_pos hin, decide_eq_true hin, decide_eq_true hk, decide_eq_false (show ¬ k < bit by omega),
      decide_eq_true (show k - bit < m by omega)]
    simp
  · rw [if_neg hin, decide_eq_false hin, decide_eq_true hk]
    by_cases hlow : k < bit
    · rw [decide_eq_true hlow]
      simp
    · rw [decide_eq_false (show ¬ k - bit < m by omega)]
      simp

theorem writeBuffer_spec (hfit : offset + size ≤ 8 * data.length) (hsize : size ≤ 64) (value : Word64) :
    ∃ data', laiWriteBuffer offset size data value = .ok data' ∧ data'.length = data.length ∧
      listBits data' = splice (listBits data) offset size value.getLsbD := by
  refine chunks_spec (P := fun progress l => l.length = data.length ∧ listBits l = splice (listBits data) offset progress
    value.getLsbD) (show 0 < 8 by decide) ?_ ⟨rfl, (splice_zero _ _ _).symm⟩
  intro progress bit len l hpiece ⟨hlen, hbits⟩
  have hin := hpiece.inWindow
  have hpos := hpiece.pos
  have hunit := hpiece.inUnit
  have hi : (offset + progress) / 8 < l.length := by omega
  refine ⟨_, by simp only [if_neg (show ¬ 64 ≤ progress by omega), getElem?_eq_getD hi]; rfl,
    by rw [List.length_set, hlen], ?_⟩
  rw [← splice_splice, ← hbits]
  obtain rfl := hpiece.bit_eq
  refine listBits_set hi rfl hunit (fun j hj => ?_) fun k hk hkout => ?_
  · rw [getLsbD_replace hunit (by omega), if_pos ⟨Nat.le_add_right _ _, by omega⟩, Nat.add_sub_cancel_left]
  · rw [getLsbD_replace hunit hk, if_neg (by omega)]

theorem readBuffer_spec {P : Nat → Word64 → Prop} (hfit : offset + size ≤ 8 * data.length) (hsize : size ≤ 64)
    (hstart : P 0 0)
    (hstep : ∀ progress bit len value, Piece 8 offset size progress bit len → P progress value →
      P (progress + len) (value ||| (data.getD ((offset + progress) / 8) 0 &&& (lowMask len).setWidth 8).setWidth 64 <<< progress)) :
    ∃ value, laiReadBuffer offset size data = .ok value ∧ P size value := by
  refine chunks_spec (P := P) (show 0 < 8 by decide) ?_ hstart
  intro progress bit len value hpiece hP
  have hin := hpiece.inWindow
  have hpos := hpiece.pos
  have hi : (offset + progress) / 8 < data.length := by omega
  refine ⟨_, by simp only [if_neg (show ¬ 64 ≤ progress by omega), getElem?_eq_getD hi]; rfl, ?_⟩
  exact hstep progress bit len value hpiece hP

theorem getLsbD_piece {b : Byte} {len progress : Nat} (hlen : len ≤ 8) (j : Nat) :
    ((b &&& (lowMask len).setWidth 8).setWidth 64 <<< progress).getLsbD j =
      (decide (j < 64 ∧ progress ≤ j ∧ j < progress + len) && b.getLsbD (j - progress)) := by
  rw [BitVec.getLsbD_shiftLeft, BitVec.getLsbD_setWidth, BitVec.getLsbD_and, getLsbD_byteMask hlen]
  by_cases hin : j < 64 ∧ progress ≤ j ∧ j < progress + len
  · rw [decide_eq_true hin, decide_eq_true hin.1, decide_eq_false (show ¬ j < progress by omega),
      decide_eq_true (show j - progress < 64 by omega), decide_eq_true (show j - progress < len by omega)]
    simp
  · rw [decide_eq_false hin]
    by_cases h64 : j < 64
    · by_cases hlow : j < progress
      · rw [decide_eq_true hlow]
        simp
      · rw [decide_eq_false (show ¬ j - progress < len by omega)]
        simp
    · rw [decide_eq_false h64]
      simp

/-- A buffer field at the start of a byte. -/
theorem readBuffer_aligned (hfit : offset + size ≤ 8 * data.length) (hsize : size ≤ 64) (haligned : offset % 8 = 0) :
    ∃ value, laiReadBuffer offset size data = .ok value ∧
      ∀ j, value.getLsbD j = (decide (j < size) && listBits data (offset + j)) := by
  refine readBuffer_spec (P := fun progress (v : Word64) => ∀ j, v.getLsbD j = (decide (j < progress) && listBits data (offset + j)))
    hfit hsize (fun j => by simp) fun progress bit len value hpiece hP j => ?_
  have hin := hpiece.inWindow
  have hunit := hpiece.inUnit
  have hbit := hpiece.bit_eq
  have hfirst := hpiece.first
  rw [BitVec.getLsbD_or, hP, getLsbD_piece (by omega)]
  by_cases hlow : j < progress
  · rw [decide_eq_true hlow, decide_eq_true (show j < progress + len by omega), decide_eq_false (by omega)]
    simp
  · rw [decide_eq_false hlow]
    by_cases hhigh : j < progress + len
    · have hold := listBits_add data ((offset + progress) / 8) (j - progress) (by omega)
      rw [show 8 * ((offset + progress) / 8) + (j - progress) = offset + j by omega] at hold
      rw [decide_eq_true hhigh, decide_eq_true (by omega), ← hold]
      simp
    · rw [decide_eq_false hhigh, decide_eq_false (by omega)]
      simp

/-- The lowest bit that is read is that of the byte, wherever in it the field begins. -/
theorem readBuffer_lowest (hfit : offset + size ≤ 8 * data.length) (hsize : size ≤ 64) (hpos : 0 < size)
    (hlow : listBits data (8 * (offset / 8)) = true) :
    ∃ value, laiReadBuffer offset size data = .ok value ∧ value.getLsbD 0 = true := by
  obtain ⟨value, hread, hP⟩ := readBuffer_spec (P := fun progress (v : Word64) => 0 < progress → v.getLsbD 0 = true) hfit hsize
    (fun h => absurd h (Nat.lt_irrefl 0)) fun progress bit len value hpiece hP _ => by
      have hunit := hpiece.inUnit
      have hlen := hpiece.pos
      rw [BitVec.getLsbD_or]
      by_cases hzero : progress = 0
      · have hold := listBits_add data (offset / 8) 0 (by decide)
        rw [Nat.add_zero, hlow] at hold
        subst hzero
        rw [getLsbD_piece (by omega), Nat.add_zero, Nat.sub_zero, ← hold, decide_eq_true (by omega), Bool.and_true, Bool.or_true]
      · rw [hP (by omega), Bool.true_or]
  exact ⟨value, hread, hP hpos⟩

/-- **A buffer field that is written is read back exactly where it starts with a byte**: `lai_read_buffer` does not shift the
first byte. -/
theorem buffer_field_roundTrip_iff (offset : Nat) {size : Nat} (hpos : 0 < size) (hsize : size ≤ 64) :
    (∀ (data : List Byte) (value : Word64), offset + size ≤ 8 * data.length → ∃ data',
      laiWriteBuffer offset size data value = .ok data' ∧
        laiReadBuffer offset size data' = .ok ((value.setWidth size).setWidth 64)) ↔ offset % 8 = 0 := by
  constructor
  · intro h
    by_contra hne
    -- the lowest bit of the first byte is not in the field
    obtain ⟨data, hdata⟩ : ∃ data, data = (List.replicate ((offset + size) / 8 + 1) (0 : Byte)).set (offset / 8) 1 := ⟨_, rfl⟩
    have hlength : data.length = (offset + size) / 8 + 1 := by rw [hdata, List.length_set, List.length_replicate]
    have hbit : listBits data (8 * (offset / 8)) = true := by
      rw [← Nat.add_zero (8 * (offset / 8)), listBits_add _ _ _ (by decide), hdata, List.getD_eq_getElem?_getD,
        List.getElem?_set_self (by rw [List.length_replicate]; omega)]
      rfl
    obtain ⟨data', hwrite, hread⟩ := h data 0 (by omega)
    have hfit : offset + size ≤ 8 * data.length := by omega
    obtain ⟨data₁, hwrite₁, hlen₁, hbits₁⟩ := writeBuffer_spec hfit hsize 0
    obtain rfl : data₁ = data' := by
      rw [hwrite₁] at hwrite
      exact Except.ok.inj hwrite
    rw [← hlen₁] at hfit
    obtain ⟨value, hread₁, hvalue⟩ := readBuffer_lowest hfit hsize hpos
      (by rw [hbits₁, splice_of_not_mem (by omega), hbit])
    rw [hread₁] at hread
    rw [Except.ok.inj hread] at hvalue
    simp at hvalue
  · intro haligned data value hfit
    obtain ⟨data', hwrite, hlen, hbits⟩ := writeBuffer_spec hfit hsize value
    rw [← hlen] at hfit
    obtain ⟨v, hread, hv⟩ := readBuffer_aligned hfit hsize haligned
    refine ⟨data', hwrite, ?_⟩
    rw [hread]
    congr 1
    apply BitVec.eq_of_getLsbD_eq
    intro j hj
    rw [hv, hbits, BitVec.getLsbD_setWidth, BitVec.getLsbD_setWidth, decide_eq_true hj, Bool.true_and]
    by_cases hin : j < size
    · rw [decide_eq_true hin, splice_of_mem hin]
    · rw [decide_eq_false hin, Bool.false_and, Bool.false_and]

/-- Eight bits of a byte, and eight bits from the middle of a byte on. -/
theorem buffer_field_roundTrip_nibble :
    (∀ (data : List Byte) (value : Word64), 8 + 8 ≤ 8 * data.length → ∃ data',
      laiWriteBuffer 8 8 data value = .ok data' ∧ laiReadBuffer 8 8 data' = .ok ((value.setWidth 8).setWidth 64)) ∧
    ¬ ∀ (data : List Byte) (value : Word64), 4 + 8 ≤ 8 * data.length → ∃ data',
      laiWriteBuffer 4 8 data value = .ok data' ∧ laiReadBuffer 4 8 data' = .ok ((value.setWidth 8).setWidth 64) := by
  constructor
  · exact (buffer_field_roundTrip_iff 8 (by decide) (by decide)).mpr (by decide)
  · rw [buffer_field_roundTrip_iff 4 (by decide) (by decide)]
    decide

end Gewodsys.Lai
