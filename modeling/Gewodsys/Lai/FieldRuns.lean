import Gewodsys.Lai.Fields

/-!
# What fields read and write

* `putAt_spec`, `getAt_spec` : windows of bits in buffers;
* `Access.Stores` : a device that keeps what is written to its units;
* `readInternal_spec`, `writeInternal_spec` : what the two loops over the units do to such a device; `written` is what is there
  after a write, in the field and around it.
-/

namespace Gewodsys.Lai
open Gewodsys.Machine

variable {δ σ : Type} {buffer : List Byte} {offset size : Nat} {value : Word64}

/-! ## Buffers -/

theorem getLsbD_low {m : Nat} (hm : m < 64) (x : Word64) (j : Nat) :
    (x &&& lowMask m).getLsbD j = (x.getLsbD j && decide (j < m)) := by
  rw [BitVec.getLsbD_and, getLsbD_lowMask hm]

/-- The bits of a value from `n` on, put to `bit` in a byte. -/
theorem getLsbD_shifted {bit n m k : Nat} (hm : bit + m ≤ 8) (hk : k < 8) (x : Word64) :
    ((((x >>> n) &&& lowMask m) <<< bit).setWidth 8).getLsbD k =
      (decide (bit ≤ k ∧ k < bit + m) && x.getLsbD (n + (k - bit))) := by
  rw [BitVec.getLsbD_setWidth, BitVec.getLsbD_shiftLeft, getLsbD_low (by omega), BitVec.getLsbD_ushiftRight]
  by_cases hbit : bit ≤ k
  · rw [decide_eq_true hk, decide_eq_true (show k < 64 by omega), decide_eq_false (show ¬ k < bit by omega)]
    by_cases hin : k < bit + m
    · rw [decide_eq_true (show k - bit < m by omega), decide_eq_true (show bit ≤ k ∧ k < bit + m from ⟨hbit, hin⟩)]
      simp
    · rw [decide_eq_false (show ¬ k - bit < m by omega), decide_eq_false (show ¬ (bit ≤ k ∧ k < bit + m) from fun h => hin h.2)]
      simp
  · rw [decide_eq_true (show k < bit by omega), decide_eq_false (show ¬ (bit ≤ k ∧ k < bit + m) from fun h => hbit h.1)]
    simp

theorem getElem?_eq_getD {l : List Byte} {i : Nat} (hi : i < l.length) : l[i]? = some (l.getD i 0) := by
  rw [List.getD_eq_getElem?_getD, List.getElem?_eq_getElem hi]
  rfl

/-- The bits of the value are put to those that are there. -/
theorem putAt_spec (value : Word64) (hfit : offset + size ≤ 8 * buffer.length) :
    ∃ buffer', laiBufferPutAt value offset size buffer = .ok buffer' ∧ buffer'.length = buffer.length ∧
      listBits buffer' = splice (listBits buffer) offset size fun j => listBits buffer (offset + j) || value.getLsbD j := by
  refine chunks_spec (P := fun progress l => l.length = buffer.length ∧ listBits l = splice (listBits buffer) offset progress
    fun j => listBits buffer (offset + j) || value.getLsbD j) (show 0 < 8 by decide) ?_ ⟨rfl, (splice_zero _ _ _).symm⟩
  intro progress bit len l hpiece ⟨hlen, hbits⟩
  have hin := hpiece.inWindow
  have hpos := hpiece.pos
  have hunit := hpiece.inUnit
  have hi : (offset + progress) / 8 < l.length := by omega
  refine ⟨_, by simp only [getElem?_eq_getD hi]; rfl, by rw [List.length_set, hlen], ?_⟩
  rw [← splice_splice, ← hbits]
  obtain rfl := hpiece.bit_eq
  refine listBits_set hi rfl hunit (fun j hj => ?_) fun k hk hkout => ?_
  · have hold := listBits_add l ((offset + progress) / 8) ((offset + progress) % 8 + j) (by omega)
    rw [show 8 * ((offset + progress) / 8) + ((offset + progress) % 8 + j) = offset + (progress + j) by omega, hbits,
      splice_of_not_mem (by omega)] at hold
    rw [BitVec.getLsbD_or, ← hold, getLsbD_shifted hunit (by omega),
      decide_eq_true ⟨Nat.le_add_right _ _, by omega⟩, Bool.true_and, Nat.add_sub_cancel_left]
  · rw [BitVec.getLsbD_or, getLsbD_shifted hunit hk, decide_eq_false (by omega), Bool.false_and, Bool.or_false]

theorem getAt_spec (buffer : List Byte) (hfit : offset + size ≤ 8 * buffer.length) (hsize : size ≤ 64) :
    ∃ value, laiBufferGetAt buffer offset size = .ok value ∧
      ∀ j, value.getLsbD j = (decide (j < size) && listBits buffer (offset + j)) := by
  refine chunks_spec (P := fun progress (v : Word64) => ∀ j, v.getLsbD j = (decide (j < progress) && listBits buffer (offset + j)))
    (show 0 < 8 by decide) ?_ fun j => ?_
  · intro progress bit len v hpiece hv
    have hin := hpiece.inWindow
    have hunit := hpiece.inUnit
    have hi : (offset + progress) / 8 < buffer.length := by have := hpiece.pos; omega
    refine ⟨_, by simp only [getElem?_eq_getD hi]; rfl, fun j => ?_⟩
    rw [BitVec.getLsbD_or, hv, BitVec.getLsbD_shiftLeft, getLsbD_low (by omega), BitVec.getLsbD_setWidth,
      BitVec.getLsbD_ushiftRight]
    by_cases hlow : j < progress
    · rw [decide_eq_true hlow, decide_eq_true (show j < progress + len by omega)]
      simp
    · rw [decide_eq_false hlow]
      by_cases hhigh : j < progress + len
      · have hold := listBits_add buffer ((offset + progress) / 8) (bit + (j - progress)) (by omega)
        rw [← hpiece.bit_eq, show 8 * ((offset + progress) / 8) + ((offset + progress) % 8 + (j - progress)) = offset + j by omega,
          hpiece.bit_eq] at hold
        rw [decide_eq_true hhigh, decide_eq_true (show j - progress < len by omega),
          decide_eq_true (show j - progress < 64 by omega), decide_eq_true (show j < 64 by omega), ← hold]
        simp
      · rw [decide_eq_false hhigh, decide_eq_false (show ¬ j - progress < len by omega)]
        simp
  · simp

/-! ## Units -/

variable {w o n : Nat}

/-- The widths of an access. -/
def widths : List Nat := [8, 16, 32, 64]

theorem mem_widths (hw : w ∈ widths) : w = 8 ∨ w = 16 ∨ w = 32 ∨ w = 64 := by
  simpa [widths] using hw

theorem width_bounds (hw : w ∈ widths) : 0 < w ∧ w ≤ 64 := by
  rcases mem_widths hw with rfl | rfl | rfl | rfl <;> omega

theorem width_any_mem {m : Nat} (hm : m = 64 ∨ m = 32) (e : Nat) : max 8 (min m (2 ^ e)) ∈ widths := by
  by_cases he : e < 7
  · rcases hm with rfl | rfl <;> interval_cases e <;> decide
  · have hpow : 2 ^ 7 ≤ 2 ^ e := Nat.pow_le_pow_right (by decide) (by omega)
    rcases hm with rfl | rfl
    · rw [Nat.min_eq_left (by omega)]; decide
    · rw [Nat.min_eq_left (by omega)]; decide

theorem accessWidth_mem {field : NsField} (h : laiCalculateAccessWidth field = .ok w) : w ∈ widths := by
  unfold laiCalculateAccessWidth at h
  split at h
  · cases h; decide
  · cases h; decide
  · cases h; decide
  · cases h; decide
  · simp only at h
    split at h
    · cases h
    · cases hregion : field.region with
      | none => rw [hregion] at h; cases h
      | some region =>
          rw [hregion] at h
          cases h
          have hm : (if region.space = .memory then 64 else 32) = 64 ∨ (if region.space = .memory then 64 else 32) = 32 := by
            by_cases hspace : region.space = .memory
            · exact .inl (if_pos hspace)
            · exact .inr (if_neg hspace)
          by_cases hsize : 1 < field.size
          · rw [if_pos hsize]
            exact width_any_mem hm _
          · rw [if_neg hsize]
            exact width_any_mem hm 0
  · cases h

/-- The offset in bytes of the unit of a bit. -/
theorem unit_offset (hw : w ∈ widths) (x : Nat) : 8 * (x / w * w / 8) = x / w * w := by
  rcases mem_widths hw with rfl | rfl | rfl | rfl <;> omega

/-- Where the units end that `n` bits from `o` on lie in. -/
def unitsEnd (w o n : Nat) : Nat := if n = 0 then o / w * w else (o + n - 1) / w * w + w

/-- The units over a piece and what is before it. -/
theorem unitsEnd_piece (hw : w ∈ widths) {progress bit len : Nat} (h : Piece w o n progress bit len) :
    unitsEnd w o (progress + len) = (o + progress) / w * w + w ∧
      (progress = 0 ∧ unitsEnd w o progress = (o + progress) / w * w ∨
        bit = 0 ∧ unitsEnd w o progress = o + progress ∧ (o + progress) / w * w = o + progress) := by
  have hpos := h.pos
  have hbit := h.bit_eq
  have hunit := h.inUnit
  have hfirst := h.first
  rw [unitsEnd, unitsEnd, if_neg (show ¬ progress + len = 0 by omega)]
  by_cases hzero : progress = 0
  · rw [if_pos hzero, hzero]
    rcases mem_widths hw with rfl | rfl | rfl | rfl <;> omega
  · rw [if_neg hzero]
    rcases mem_widths hw with rfl | rfl | rfl | rfl <;> omega

/-! ## Devices that keep what is written -/

/-- What is written to a unit is there, and nothing else changes: `bits` are the bits of the device, `U` the offsets of the
units that may be accessed. -/
structure Access.Stores (A : Access σ) (w : Nat) (U : Nat → Prop) (bits : σ → Nat → Bool) : Prop where
  read : ∀ {offset} (s : σ), U offset → ∃ v s', A.read w offset s = .ok (v, s') ∧ bits s' = bits s ∧
    ∀ j, j < w → v.getLsbD j = bits s (8 * offset + j)
  write : ∀ {offset} (s : σ) (v : Word64), U offset → ∃ s', A.write w offset v s = .ok s' ∧
    bits s' = splice (bits s) (8 * offset) w v.getLsbD

/-- The field has a width, its units may be accessed, and no unit of 64 bits lies in it as a whole. -/
structure NsField.Fits (f : NsField) (w : Nat) (U : Nat → Prop) : Prop where
  width : laiCalculateAccessWidth f = .ok w
  units : ∀ x, f.offset ≤ x → x < f.offset + f.size → U (x / w * w / 8)
  short : w = 64 → ∀ k, f.offset ≤ 64 * k → f.offset + f.size < 64 * k + 64

variable {A : Access σ} {U : Nat → Prop} {bits : σ → Nat → Bool} {f : NsField} {progress bit len : Nat}

theorem NsField.Fits.len_lt (h : f.Fits w U) (hpiece : Piece w f.offset f.size progress bit len) : len < 64 := by
  have hunit := hpiece.inUnit
  have hin := hpiece.inWindow
  have hbit := hpiece.bit_eq
  by_contra hge
  rcases mem_widths (accessWidth_mem h.width) with rfl | rfl | rfl | rfl
  · omega
  · omega
  · omega
  · have hno := h.short rfl ((f.offset + progress) / 64) (by omega)
    omega

theorem NsField.Fits.unit (h : f.Fits w U) (hpiece : Piece w f.offset f.size progress bit len) :
    U ((f.offset + progress) / w * w / 8) :=
  h.units _ (Nat.le_add_right _ _) (by have := hpiece.pos; have := hpiece.inWindow; omega)

/-- The offset that the loop goes on with. -/
theorem next_offset (hw : w ∈ widths) (hpiece : Piece w o n progress bit len) (hmore : progress + len < n) :
    (o + progress) / w * w / 8 + w / 8 = (o + (progress + len)) / w * w / 8 := by
  rw [hpiece.next hmore]
  rcases mem_widths hw with rfl | rfl | rfl | rfl <;> omega

/-! ## Reading -/

theorem readUnit_spec (hA : A.Stores w U bits) (hf : f.Fits w U) (hpiece : Piece w f.offset f.size progress bit len)
    (destination : List Byte) (s : σ) (hfit : f.size ≤ 8 * destination.length)
    (hzero : ∀ j, j < len → listBits destination (progress + j) = false) :
    ∃ destination' s', readUnit A w progress bit len (destination, (f.offset + progress) / w * w / 8, s) =
        .ok (destination', (f.offset + progress) / w * w / 8 + w / 8, s') ∧
      bits s' = bits s ∧ destination'.length = destination.length ∧
      listBits destination' = splice (listBits destination) progress len fun j => bits s (f.offset + (progress + j)) := by
  have hlen := hf.len_lt hpiece
  have hin := hpiece.inWindow
  have hunit := hpiece.inUnit
  have hwidths := accessWidth_mem hf.width
  obtain ⟨v, s', hread, hbits, hv⟩ := hA.read s (hf.unit hpiece)
  obtain ⟨destination', hput, hlength, hlist⟩ :=
    putAt_spec ((v >>> bit) &&& lowMask len) (show progress + len ≤ 8 * destination.length by omega)
  refine ⟨destination', s', ?_, hbits, hlength, ?_⟩
  · rw [readUnit, if_neg (by omega)]
    simp only [hread, hput, bind, Except.bind]
    rfl
  · rw [hlist]
    refine splice_congr fun j hj => ?_
    rw [hzero j hj, Bool.false_or, getLsbD_low hlen, decide_eq_true hj, Bool.and_true, BitVec.getLsbD_ushiftRight,
      hv _ (by omega), unit_offset hwidths]
    congr 1
    have hdiv := Nat.div_add_mod (f.offset + progress) w
    rw [Nat.mul_comm, hpiece.bit_eq] at hdiv
    omega

/-- How far the loop of a read is: the destination, and the offset of the next unit. -/
structure ReadTo (bits : σ → Nat → Bool) (f : NsField) (w : Nat) (s : σ) (progress : Nat) (x : List Byte × Nat × σ) : Prop where
  offset : progress < f.size → x.2.1 = (f.offset + progress) / w * w / 8
  same : bits x.2.2 = bits s
  length : x.1.length = (f.size + 7) / 8
  list : listBits x.1 = splice (fun _ => false) 0 progress fun j => bits s (f.offset + j)

theorem ReadTo.start (bits : σ → Nat → Bool) (f : NsField) (w : Nat) (s : σ) :
    ReadTo bits f w s 0 (List.replicate ((f.size + 7) / 8) 0, f.offset / w * w / 8, s) where
  offset _ := rfl
  same := rfl
  length := List.length_replicate
  list := (funext fun i => listBits_replicate _ i).trans (splice_zero _ _ _).symm

theorem ReadTo.unit (hA : A.Stores w U bits) (hf : f.Fits w U) (hpiece : Piece w f.offset f.size progress bit len) {s : σ}
    {x : List Byte × Nat × σ} (h : ReadTo bits f w s progress x) :
    ∃ x', readUnit A w progress bit len x = .ok x' ∧ ReadTo bits f w s (progress + len) x' := by
  obtain ⟨destination, off, s₁⟩ := x
  obtain ⟨hoff, hbits, hlength, hlist⟩ := h
  have hpos := hpiece.pos
  have hin := hpiece.inWindow
  obtain rfl : off = _ := hoff (by omega)
  obtain ⟨destination', s₂, hunit, hbits₂, hlength₂, hlist₂⟩ := readUnit_spec hA hf hpiece destination s₁
    (by rw [show destination.length = _ from hlength]; omega)
    fun j _ => by rw [show listBits destination = _ from hlist]; exact splice_of_not_mem (by omega)
  refine ⟨_, hunit, fun hmore => next_offset (accessWidth_mem hf.width) hpiece hmore, hbits₂.trans hbits,
    hlength₂.trans hlength, ?_⟩
  have hjoin := splice_splice (fun _ => false) 0 progress len fun j => bits s (f.offset + j)
  rw [Nat.zero_add] at hjoin
  rw [hlist₂, show bits s₁ = bits s from hbits, show listBits destination = _ from hlist]
  exact hjoin

/-- What is read is the field, and the device stays as it is. -/
theorem readInternal_spec (hA : A.Stores w U bits) (hf : f.Fits w U) (s : σ) :
    ∃ buf s', laiReadFieldInternal A f (List.replicate ((f.size + 7) / 8) 0) s = .ok (buf, s') ∧ bits s' = bits s ∧
      buf.length = (f.size + 7) / 8 ∧ ∀ j, listBits buf j = (decide (j < f.size) && bits s (f.offset + j)) := by
  obtain ⟨⟨buf, off, s'⟩, hrun, hto⟩ := chunks_spec (P := ReadTo bits f w s) (width_bounds (accessWidth_mem hf.width)).1
    (fun progress bit len x hpiece h => h.unit hA hf hpiece) (ReadTo.start bits f w s)
  refine ⟨buf, s', ?_, hto.same, hto.length, fun j => ?_⟩
  · simp only [laiReadFieldInternal, hf.width, hrun, bind, Except.bind]
    rfl
  · rw [show listBits buf = _ from hto.list]
    by_cases hj : j < f.size
    · rw [splice, if_pos (by omega), decide_eq_true hj]
      rfl
    · rw [splice, if_neg (by omega), decide_eq_false hj]
      rfl

/-! ## Writing -/

/-- The bits around a field, by its flags: as they are, ones or zeroes. -/
def writeFill (flags : Byte) : Option (Option Bool) :=
  match ((flags >>> 5) &&& 0x0F#8).toNat with
  | 0 => some none
  | 1 => some (some true)
  | 2 => some (some false)
  | _ => none

theorem writeBase_spec (hA : A.Stores w U bits) (hw : w ≤ 64) {flags : Byte} {fill : Option Bool}
    (hfill : writeFill flags = some fill) {offset : Nat} (s : σ) (hU : U offset) :
    ∃ v s', writeBase A flags w offset s = .ok (v, s') ∧ bits s' = bits s ∧
      ∀ j, j < w → v.getLsbD j = fill.getD (bits s (8 * offset + j)) := by
  unfold writeFill at hfill
  unfold writeBase
  generalize ((flags >>> 5) &&& 0x0F#8).toNat = n at hfill ⊢
  rcases n with _ | _ | _ | n
  · cases hfill
    exact hA.read s hU
  · cases hfill
    refine ⟨_, s, rfl, rfl, fun j hj => ?_⟩
    rw [BitVec.getLsbD_allOnes, decide_eq_true (by omega)]
    rfl
  · cases hfill
    exact ⟨_, s, rfl, rfl, fun j _ => BitVec.getLsbD_zero⟩
  · cases hfill

/-- The bits under the mask are new. -/
theorem getLsbD_merge {k : Nat} (hlen : len < 64) (hk : k < 64) (value new : Word64) :
    ((value &&& ~~~(lowMask len <<< bit)) ||| ((new <<< bit) &&& (lowMask len <<< bit))).getLsbD k =
      if bit ≤ k ∧ k < bit + len then new.getLsbD (k - bit) else value.getLsbD k := by
  simp only [BitVec.getLsbD_or, BitVec.getLsbD_and, BitVec.getLsbD_not, BitVec.getLsbD_shiftLeft, getLsbD_lowMask hlen]
  by_cases hbit : bit ≤ k
  · by_cases hin : k < bit + len
    · rw [if_pos ⟨hbit, hin⟩, decide_eq_true (show k - bit < len by omega), decide_eq_false (show ¬ k < bit by omega),
        decide_eq_true hk]
      simp
    · rw [if_neg (fun h => hin h.2), decide_eq_false (show ¬ k - bit < len by omega), decide_eq_true hk]
      simp
  · rw [if_neg (fun h => hbit h.1), decide_eq_true (show k < bit by omega), decide_eq_true hk]
    simp

/-- The window `a .. a + n` around a field: as it is, or filled. -/
def around (fill : Option Bool) (g : Nat → Bool) (a n : Nat) : Nat → Bool :=
  splice g a n fun j => fill.getD (g (a + j))

/-- The bits after `n` bits of a source are written from bit `o` on. -/
def written (fill : Option Bool) (w : Nat) (g : Nat → Bool) (o n : Nat) (source : Nat → Bool) : Nat → Bool :=
  splice (around fill g (o / w * w) (unitsEnd w o n - o / w * w)) o n source

theorem written_zero (fill : Option Bool) (w : Nat) (g : Nat → Bool) (o : Nat) (source : Nat → Bool) :
    written fill w g o 0 source = g := by
  rw [written, splice_zero, unitsEnd, if_pos rfl, Nat.sub_self, around, splice_zero]

/-- A bit, by where it is. -/
theorem written_apply (fill : Option Bool) (w : Nat) (g : Nat → Bool) (o n : Nat) (source : Nat → Bool) (i : Nat) :
    written fill w g o n source i = if o ≤ i ∧ i < o + n then source (i - o)
      else if o / w * w ≤ i ∧ i < unitsEnd w o n then fill.getD (g i) else g i := by
  rw [written, splice]
  refine if_congr Iff.rfl rfl ?_
  rw [around, splice]
  by_cases h : o / w * w ≤ i ∧ i < unitsEnd w o n
  · rw [if_pos (by omega), if_pos h, Nat.add_sub_cancel' h.1]
  · rw [if_neg (by omega), if_neg h]

/-- One more unit is written. -/
theorem written_unit (hw : w ∈ widths) (hpiece : Piece w o n progress bit len) (fill : Option Bool) (g source new : Nat → Bool)
    (hin : ∀ j, j < len → new (bit + j) = source (progress + j))
    (hout : ∀ k, k < w → k < bit ∨ bit + len ≤ k →
      new k = fill.getD (written fill w g o progress source ((o + progress) / w * w + k))) :
    splice (written fill w g o progress source) ((o + progress) / w * w) w new =
      written fill w g o (progress + len) source := by
  obtain ⟨hend, hbefore⟩ := unitsEnd_piece hw hpiece
  have hdiv := Nat.div_add_mod (o + progress) w
  rw [Nat.mul_comm, hpiece.bit_eq] at hdiv
  have hle : o / w * w ≤ (o + progress) / w * w := Nat.mul_le_mul_right _ (Nat.div_le_div_right (Nat.le_add_right _ _))
  have hleo : o / w * w ≤ o := Nat.div_mul_le_self o w
  have hunit := hpiece.inUnit
  funext i
  rw [written_apply fill w g o (progress + len), hend]
  by_cases hi : (o + progress) / w * w ≤ i ∧ i < (o + progress) / w * w + w
  · obtain ⟨k, rfl⟩ := Nat.exists_eq_add_of_le hi.1
    rw [splice_of_mem (by omega)]
    by_cases hk : bit ≤ k ∧ k < bit + len
    · obtain ⟨j, rfl⟩ := Nat.exists_eq_add_of_le hk.1
      rw [hin j (by omega), if_pos (by omega)]
      congr 1
      omega
    · -- the rest of the unit is not written yet
      rw [hout k (by omega) (by omega), written_apply, if_neg (by omega), if_neg (by omega), if_neg (by omega),
        if_pos (by omega)]
  · rw [splice_of_not_mem (by omega), written_apply]
    by_cases hfront : o ≤ i ∧ i < o + progress
    · rw [if_pos hfront, if_pos (by omega)]
    · have hback : ¬ (o ≤ i ∧ i < o + (progress + len)) := by omega
      rw [if_neg hfront, if_neg hback]
      refine if_congr ?_ rfl rfl
      omega

theorem writeUnit_spec (hA : A.Stores w U bits) (hf : f.Fits w U) (hpiece : Piece w f.offset f.size progress bit len)
    {fill : Option Bool} (hfill : writeFill f.flags = some fill) {source : List Byte} (hfit : f.size ≤ 8 * source.length)
    {g : Nat → Bool} {s : σ} (hbits : bits s = written fill w g f.offset progress (listBits source)) :
    ∃ s', writeUnit A f.flags source w progress bit len ((f.offset + progress) / w * w / 8, s) =
        .ok ((f.offset + progress) / w * w / 8 + w / 8, s') ∧
      bits s' = written fill w g f.offset (progress + len) (listBits source) := by
  have hlen := hf.len_lt hpiece
  have hin := hpiece.inWindow
  have hunit := hpiece.inUnit
  have hw := accessWidth_mem hf.width
  have hle := (width_bounds hw).2
  obtain ⟨v, s₁, hbase, hsame, hv⟩ := writeBase_spec hA hle hfill s (hf.unit hpiece)
  obtain ⟨new, hget, hnew⟩ := getAt_spec source (show progress + len ≤ 8 * source.length by omega) hlen.le
  obtain ⟨s₂, hwrite, hbits₂⟩ := hA.write s₁
    ((v &&& ~~~(lowMask len <<< bit)) ||| ((new <<< bit) &&& (lowMask len <<< bit))) (hf.unit hpiece)
  refine ⟨s₂, ?_, ?_⟩
  · rw [writeUnit, if_neg (by omega)]
    simp only [hbase, hget, hwrite, bind, Except.bind]
    rfl
  · rw [hbits₂, hsame, hbits, unit_offset hw]
    refine written_unit hw hpiece fill g (listBits source) _ (fun j hj => ?_) fun k hk hkout => ?_
    · rw [getLsbD_merge hlen (by omega), if_pos (by omega), Nat.add_sub_cancel_left, hnew, decide_eq_true hj, Bool.true_and]
    · rw [getLsbD_merge hlen (by omega), if_neg (by omega), hv k hk, hbits, unit_offset hw]

/-- How far the loop of a write is: the offset of the next unit, and what is written. -/
structure WriteTo (bits : σ → Nat → Bool) (f : NsField) (w : Nat) (fill : Option Bool) (source g : Nat → Bool)
    (progress : Nat) (x : Nat × σ) : Prop where
  offset : progress < f.size → x.1 = (f.offset + progress) / w * w / 8
  done : bits x.2 = written fill w g f.offset progress source

theorem WriteTo.unit (hA : A.Stores w U bits) (hf : f.Fits w U) (hpiece : Piece w f.offset f.size progress bit len)
    {fill : Option Bool} (hfill : writeFill f.flags = some fill) {source : List Byte} (hfit : f.size ≤ 8 * source.length)
    {g : Nat → Bool} {x : Nat × σ} (h : WriteTo bits f w fill (listBits source) g progress x) :
    ∃ x', writeUnit A f.flags source w progress bit len x = .ok x' ∧
      WriteTo bits f w fill (listBits source) g (progress + len) x' := by
  obtain ⟨off, s⟩ := x
  have hpos := hpiece.pos
  have hin := hpiece.inWindow
  obtain rfl : off = _ := h.offset (by omega)
  obtain ⟨s', hunit, hbits⟩ := writeUnit_spec hA hf hpiece hfill hfit h.done
  exact ⟨_, hunit, fun hmore => next_offset (accessWidth_mem hf.width) hpiece hmore, hbits⟩

/-- The field is the source, and around it in its units is what the flags say. -/
theorem writeInternal_spec (hA : A.Stores w U bits) (hf : f.Fits w U) {fill : Option Bool}
    (hfill : writeFill f.flags = some fill) {source : List Byte} (hfit : f.size ≤ 8 * source.length) (s : σ) :
    ∃ s', laiWriteFieldInternal A source f s = .ok s' ∧
      bits s' = written fill w (bits s) f.offset f.size (listBits source) := by
  have hstart : WriteTo bits f w fill (listBits source) (bits s) 0 (f.offset / w * w / 8, s) :=
    ⟨fun _ => rfl, (written_zero _ _ _ _ _).symm⟩
  obtain ⟨⟨off, s'⟩, hrun, hto⟩ := chunks_spec (P := WriteTo bits f w fill (listBits source) (bits s))
    (width_bounds (accessWidth_mem hf.width)).1 (fun progress bit len x hpiece h => h.unit hA hf hpiece hfill hfit) hstart
  refine ⟨s', ?_, hto.done⟩
  simp only [laiWriteFieldInternal, hf.width, hrun, bind, Except.bind]
  rfl

end Gewodsys.Lai
