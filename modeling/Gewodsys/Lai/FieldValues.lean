import Gewodsys.Lai.FieldRuns
import Gewodsys.Mem.Vmm

/-!
# Fields and the values written to them

* `FieldValue.bits`, `FieldValue.room` : the bits of a source, and how many there are;
* `portHost_stores` : ports that keep what is written are a device that does so; `indexHost_stores` : registers behind an index
  port and a data port;
* `field_roundTrip` : a field that is written and read, and what is around it, over such a device;
* `memory_access_iff` : an access to a region in memory is one to its address only at the start of a page.
-/

namespace Gewodsys.Lai
open Gewodsys.Machine

variable {δ σ : Type}

/-! ## Bytes of integers -/

theorem getD_leBytes {n : Nat} (v : Nat) {i : Nat} (hi : i < n) : (leBytes v n).getD i 0 = BitVec.ofNat 8 (v / 256 ^ i) := by
  induction n generalizing v i with
  | zero => omega
  | succ n ih =>
      cases i with
      | zero => rw [leBytes, List.getD_cons_zero, pow_zero, Nat.div_one]
      | succ i => rw [leBytes, List.getD_cons_succ, ih _ (by omega), Nat.div_div_eq_div_mul, pow_succ']

theorem listBits_leBytes (v : Word64) : listBits (leBytes v.toNat 8) = v.getLsbD := by
  funext j
  by_cases hj : j < 64
  · have hbits := listBits_add (leBytes v.toNat 8) (j / 8) (j % 8) (Nat.mod_lt j (by decide))
    rw [Nat.div_add_mod] at hbits
    rw [hbits, getD_leBytes _ (show j / 8 < 8 by omega), BitVec.getLsbD_ofNat, show (256 : Nat) = 2 ^ 8 from rfl, ← pow_mul,
      Nat.testBit_div_two_pow, decide_eq_true (Nat.mod_lt j (by decide)), Bool.true_and, Nat.mod_add_div]
    rfl
  · rw [listBits_of_length_le (by rw [length_leBytes]; omega), BitVec.getLsbD_of_ge v j (by omega)]

theorem getLsbD_bufValue {buf : List Byte} (hlen : buf.length ≤ 8) (j : Nat) : (bufValue buf).getLsbD j = listBits buf j := by
  have hloop : ∀ n, n ≤ 8 → ∀ j, ((List.range n).foldl
      (fun (value : Word64) i => value ||| (buf.getD i 0).setWidth 64 <<< (i * 8)) 0).getLsbD j =
        (decide (j < 8 * n) && listBits buf j) := by
    intro n
    induction n with
    | zero => exact fun _ j => by simp
    | succ n ih =>
        intro hn j
        rw [List.range_succ, List.foldl_append, List.foldl_cons, List.foldl_nil, BitVec.getLsbD_or, ih (by omega),
          BitVec.getLsbD_shiftLeft, BitVec.getLsbD_setWidth]
        by_cases hlow : j < 8 * n
        · rw [decide_eq_true hlow, decide_eq_true (show j < 8 * (n + 1) by omega), decide_eq_true (show j < n * 8 by omega)]
          simp
        · obtain ⟨k, rfl⟩ := Nat.exists_eq_add_of_le (Nat.not_lt.mp hlow)
          rw [decide_eq_false hlow, decide_eq_false (show ¬ 8 * n + k < n * 8 by omega), Bool.false_and, Bool.false_or,
            show 8 * n + k - n * 8 = k by omega]
          by_cases hk : k < 8
          · rw [decide_eq_true (show 8 * n + k < 64 by omega), decide_eq_true (show k < 64 by omega),
              decide_eq_true (show 8 * n + k < 8 * (n + 1) by omega), listBits_add buf n k hk]
            rfl
          · rw [decide_eq_false (show ¬ 8 * n + k < 8 * (n + 1) by omega), BitVec.getLsbD_of_ge _ k (by omega)]
            simp
  rw [bufValue, hloop _ hlen]
  by_cases hj : j < 8 * buf.length
  · rw [decide_eq_true hj, Bool.true_and]
  · rw [listBits_of_length_le (by omega), Bool.and_false]

/-! ## Values -/

def FieldValue.bits : FieldValue → Nat → Bool
  | .integer value => value.getLsbD
  | .buffer content | .string content => listBits content
  | .other => fun _ => false

/-- How many bits a source has. -/
def FieldValue.room : FieldValue → Nat
  | .integer _ => 64
  | .buffer content | .string content => 8 * content.length
  | .other => 0

variable {w : Nat} {A : Access σ} {U : Nat → Prop} {bits : σ → Nat → Bool} {f : NsField}

theorem writeField_spec (hA : A.Stores w U bits) (hf : f.Fits w U) {fill : Option Bool}
    (hfill : writeFill f.flags = some fill) {source : FieldValue} (hpos : 0 < f.size) (hfit : f.size ≤ source.room) (s : σ) :
    ∃ s', laiWriteField A f source s = .ok s' ∧ bits s' = written fill w (bits s) f.offset f.size source.bits := by
  cases source with
  | integer value =>
      have hbytes : f.size ≤ 8 * (leBytes value.toNat 8).length := by
        rw [length_leBytes]
        exact hfit
      have hspec := writeInternal_spec hA hf hfill hbytes s
      rw [listBits_leBytes] at hspec
      exact hspec
  | buffer content => exact writeInternal_spec hA hf hfill hfit s
  | string content => exact writeInternal_spec hA hf hfill hfit s
  | other => exact absurd hfit (Nat.not_le.mpr hpos)

theorem readField_spec (hA : A.Stores w U bits) (hf : f.Fits w U) (hpos : 0 < f.size) (s : σ) :
    ∃ value s', laiReadField A f s = .ok (value, s') ∧ bits s' = bits s ∧
      ∀ j, value.bits j = (decide (j < f.size) && bits s (f.offset + j)) := by
  obtain ⟨buf, s', hread, hsame, hlength, hlist⟩ := readInternal_spec hA hf s
  unfold laiReadField
  by_cases hlong : 8 < (f.size + 7) / 8
  · refine ⟨.buffer buf, s', ?_, hsame, hlist⟩
    simp only [if_neg (show ¬ (f.size + 7) / 8 = 0 by omega), hread, bind, Except.bind, if_pos hlong]
    rfl
  · refine ⟨.integer (bufValue buf), s', ?_, hsame, fun j => ?_⟩
    · simp only [if_neg (show ¬ (f.size + 7) / 8 = 0 by omega), hread, bind, Except.bind, if_neg hlong]
      rfl
    · rw [FieldValue.bits, getLsbD_bufValue (by omega), hlist]

theorem opregion_eq (H : Host δ)
    (hbank : ∀ flags offset size region bank value, f ≠ .bankField flags offset size region bank value) :
    (∀ source s, laiWriteOpregion H f source s = laiWriteField (f.access H) f source s) ∧
      ∀ s, laiReadOpregion H f s = laiReadField (f.access H) f s := by
  cases f with
  | field => exact ⟨fun _ _ => rfl, fun _ => rfl⟩
  | bankField flags offset size region bank value => exact absurd rfl (hbank flags offset size region bank value)
  | indexField => exact ⟨fun _ _ => rfl, fun _ => rfl⟩

/-! ## Ports -/

/-- Ports that keep what is written to them. -/
def portHost : Host Mem where
  input bytes port d := (d.read port bytes, d)
  output bytes port value d := d.write port bytes value

theorem add64_port {base offset : Nat} (h : base + offset < 2 ^ 16) : add64 base offset % 2 ^ 16 = base + offset := by
  unfold add64
  omega

theorem splice_shift (g h : Nat → Bool) (a b n : Nat) :
    (fun i => splice g (a + b) n h (a + i)) = splice (fun i => g (a + i)) b n h := by
  funext i
  by_cases hi : b ≤ i ∧ i < b + n
  · rw [splice, if_pos (by omega), splice, if_pos hi]
    congr 1
    omega
  · rw [splice_of_not_mem (by omega), splice, if_neg hi]

/-- A region of such ports keeps what is written to its units. -/
theorem portHost_stores (base : Nat) (hw : w ∈ [8, 16, 32]) :
    Access.Stores ⟨laiPerformRead portHost ⟨.io, base⟩, laiPerformWrite portHost ⟨.io, base⟩⟩ w
      (fun offset => base + offset + w / 8 ≤ 2 ^ 16) fun (s : Mem × Mem) i => bitsOf s.2 (8 * base + i) := by
  have hw8 : w = 8 ∨ w = 16 ∨ w = 32 := by simpa using hw
  have hpow : 256 ^ (w / 8) = 2 ^ w := by rcases hw8 with rfl | rfl | rfl <;> rfl
  constructor
  · intro offset s hU
    have hport := add64_port (show base + offset < 2 ^ 16 by omega)
    refine ⟨_, _, by simp only [laiPerformRead, if_pos hw, portHost, hport]; rfl, rfl, fun j hj => ?_⟩
    rw [BitVec.getLsbD_ofNat, decide_eq_true (show j < 64 by omega), Bool.true_and, Nat.testBit_mod_two_pow,
      decide_eq_true hj, Bool.true_and, bitsOf_read _ _ (show j < 8 * (w / 8) by omega), Nat.mul_add, Nat.add_assoc]
  · intro offset s v hU
    have hport := add64_port (show base + offset < 2 ^ 16 by omega)
    refine ⟨_, by simp only [laiPerformWrite, if_pos hw, portHost, hport]; rfl, ?_⟩
    have hlen : 8 * (w / 8) = w := by omega
    rw [← hpow, Mem.write_mod, bitsOf_write, Nat.mul_add, hlen]
    exact splice_shift _ _ _ _ _

/-! ## Registers of one byte -/

/-- A field in one unit is written by one access. -/
theorem writeInternal_one (hwidth : laiCalculateAccessWidth f = .ok w) {o n : Nat} (ho : f.offset = o) (hn : f.size = n)
    (hpos : 0 < n) (hone : o % w + n ≤ w) {source : List Byte} {s s' : σ} {next : Nat}
    (hunit : writeUnit A f.flags source w 0 (o % w) n (o / w * w / 8, s) = .ok (next, s')) :
    laiWriteFieldInternal A source f s = .ok s' := by
  simp only [laiWriteFieldInternal, hwidth, ho, hn, bind, Except.bind, chunks_one hpos hone, hunit]
  rfl

theorem readInternal_one (hwidth : laiCalculateAccessWidth f = .ok w) {o n : Nat} (ho : f.offset = o) (hn : f.size = n)
    (hpos : 0 < n) (hone : o % w + n ≤ w) {destination destination' : List Byte} {s s' : σ} {next : Nat}
    (hunit : readUnit A w 0 (o % w) n (destination, o / w * w / 8, s) = .ok (destination', next, s')) :
    laiReadFieldInternal A f destination s = .ok (destination', s') := by
  simp only [laiReadFieldInternal, hwidth, ho, hn, bind, Except.bind, chunks_one hpos hone, hunit]
  rfl

/-- A register of one byte at a port. -/
def portRegister (port : Nat) : NsField := .field 1 0 8 ⟨.io, port⟩

theorem portRegister_offset (port : Nat) : (portRegister port).offset = 0 := rfl

theorem portRegister_size (port : Nat) : (portRegister port).size = 8 := rfl

theorem portRegister_width (port : Nat) : laiCalculateAccessWidth (portRegister port) = .ok 8 := by
  have hflags : (portRegister port).flags = 1#8 := rfl
  unfold laiCalculateAccessWidth
  rw [hflags]
  rfl

theorem portRegister_access (H : Host δ) {port : Nat} (hport : port < 2 ^ 16) (s : Mem × δ) :
    ((portRegister port).access H).read 8 0 s =
        .ok (BitVec.ofNat 64 ((H.input 1 port s.2).1 % 256), (s.1, (H.input 1 port s.2).2)) ∧
      ∀ v, ((portRegister port).access H).write 8 0 v s = .ok (s.1, H.output 1 port (v.toNat % 256) s.2) := by
  have haddr : add64 port 0 % 2 ^ 16 = port := add64_port hport
  constructor
  · simp only [NsField.access, portRegister, laiPerformRead, haddr]
    rfl
  · intro v
    simp only [NsField.access, portRegister, laiPerformWrite, haddr]
    rfl

/-- A byte that is merged as a whole. -/
theorem merge_byte {new v : Word64} (h : ∀ j, j < 8 → new.getLsbD j = v.getLsbD j) (old : Word64) :
    ((old &&& ~~~(lowMask 8 <<< 0)) ||| ((new <<< 0) &&& (lowMask 8 <<< 0))).toNat % 2 ^ 8 = v.toNat % 2 ^ 8 := by
  apply Nat.eq_of_testBit_eq
  intro k
  rw [Nat.testBit_mod_two_pow, Nat.testBit_mod_two_pow]
  by_cases hk : k < 8
  · have hbit : BitVec.getLsbD ((old &&& ~~~(lowMask 8 <<< 0)) ||| ((new <<< 0) &&& (lowMask 8 <<< 0))) k = _ :=
      getLsbD_merge (by decide) (by omega) old new
    rw [if_pos (by omega), Nat.sub_zero, h k hk] at hbit
    exact congrArg _ hbit
  · rw [decide_eq_false hk, Bool.false_and, Bool.false_and]

/-- The byte is read, for the flags are those of a field that is preserved, and written as a whole. -/
theorem portRegister_write (H : Host δ) {port : Nat} (hport : port < 2 ^ 16) (v : Word64) (s : Mem × δ) :
    laiWriteField ((portRegister port).access H) (portRegister port) (.integer v) s =
      .ok (s.1, H.output 1 port (v.toNat % 256) (H.input 1 port s.2).2) := by
  obtain ⟨new, hget, hnew⟩ := getAt_spec (leBytes v.toNat 8)
    (show 0 + 8 ≤ 8 * (leBytes v.toNat 8).length by rw [length_leBytes]; decide) (by decide)
  have hmerge := merge_byte fun j hj => (hnew j).trans (by
    rw [listBits_leBytes, Nat.zero_add, decide_eq_true hj, Bool.true_and])
  obtain ⟨hread, -⟩ := portRegister_access H hport s
  have hunit : writeUnit ((portRegister port).access H) 1 (leBytes v.toNat 8) 8 0 0 8 (0, s) =
      .ok (1, s.1, H.output 1 port (v.toNat % 256) (H.input 1 port s.2).2) := by
    rw [writeUnit, if_neg (by decide)]
    simp only [show writeBase ((portRegister port).access H) 1 8 0 s = _ from hread, hget, bind, Except.bind,
      (portRegister_access H hport _).2]
    rw [show (256 : Nat) = 2 ^ 8 from rfl, hmerge]
    rfl
  exact writeInternal_one (portRegister_width port) (portRegister_offset port) (portRegister_size port) (by decide) (by decide) hunit

/-- A byte that is put to one of zeroes. -/
theorem bufValue_byte {x : Nat} {byte : List Byte} (hlen : byte.length = 1)
    (hbits : listBits byte = splice (listBits [0]) 0 8 fun j =>
      listBits [0] (0 + j) || ((BitVec.ofNat 64 (x % 256) >>> 0) &&& lowMask 8).getLsbD j) :
    bufValue byte = BitVec.ofNat 64 (x % 2 ^ 8) := by
  apply BitVec.eq_of_getLsbD_eq
  intro j hj
  have hzero : ∀ i, listBits [0] i = false := listBits_replicate 1
  rw [getLsbD_bufValue (by rw [hlen]; decide), hbits, splice, hzero, hzero, Bool.false_or, BitVec.getLsbD_ofNat,
    Nat.testBit_mod_two_pow, Nat.sub_zero, getLsbD_low (by decide), BitVec.ushiftRight_zero, BitVec.getLsbD_ofNat,
    decide_eq_true hj]
  by_cases hlow : j < 8
  · rw [if_pos (by omega), show (256 : Nat) = 2 ^ 8 from rfl, Nat.testBit_mod_two_pow, decide_eq_true hlow]
    simp
  · rw [if_neg (by omega), decide_eq_false hlow]
    rfl

theorem portRegister_read (H : Host δ) {port : Nat} (hport : port < 2 ^ 16) (s : Mem × δ) :
    laiReadField ((portRegister port).access H) (portRegister port) s =
      .ok (.integer (BitVec.ofNat 64 ((H.input 1 port s.2).1 % 256)), (s.1, (H.input 1 port s.2).2)) := by
  obtain ⟨hread, -⟩ := portRegister_access H hport s
  obtain ⟨byte, hput, hlen, hbits⟩ := putAt_spec
    ((BitVec.ofNat 64 ((H.input 1 port s.2).1 % 256) >>> 0) &&& lowMask 8) (show 0 + 8 ≤ 8 * [(0 : Byte)].length by decide)
  have hunit : readUnit ((portRegister port).access H) 8 0 0 8 ([0], 0, s) = .ok (byte, 1, s.1, (H.input 1 port s.2).2) := by
    rw [readUnit, if_neg (by decide)]
    simp only [hread, hput, bind, Except.bind]
    rfl
  have hinternal := readInternal_one (portRegister_width port) (portRegister_offset port) (portRegister_size port)
    (by decide) (by decide) hunit
  have hvalue := bufValue_byte hlen hbits
  have hbytes : ((portRegister port).size + 7) / 8 = 1 := by rw [portRegister_size]
  unfold laiReadField
  simp only [hbytes, if_neg (show ¬ 1 = 0 by decide), if_neg (show ¬ 8 < 1 by decide), List.replicate_one, hinternal, bind,
    Except.bind, hvalue]
  rfl

/-! ## Index registers -/

/-- Registers of one byte behind a port for their index and a port for their data. -/
def indexHost (port : Nat) : Host (Byte × Mem) where
  input _ p d := (if p = port then d.1.toNat else if p = port + 1 then d.2.read d.1.toNat 1 else 0, d)
  output _ p value d := if p = port then (BitVec.ofNat 8 value, d.2)
    else if p = port + 1 then (d.1, d.2.write d.1.toNat 1 value) else d

/-- An index field over these two ports. -/
def indexedField (flags : Byte) (offset size port : Nat) : NsField :=
  .indexField flags offset size (portRegister port) (portRegister (port + 1))

theorem indexHost_select {port : Nat} (hport : port + 1 < 2 ^ 16) {offset : Nat} (hU : offset < 256) (s : Mem × Byte × Mem) :
    laiWriteField ((portRegister port).access (indexHost port)) (portRegister port) (.integer (BitVec.ofNat 64 offset)) s =
      .ok (s.1, BitVec.ofNat 8 offset, s.2.2) := by
  rw [portRegister_write _ (by omega)]
  simp only [indexHost, if_pos, BitVec.toNat_ofNat]
  rw [show offset % 2 ^ 64 % 256 = offset by omega]

theorem indexHost_input (port : Nat) (d : Byte × Mem) : (indexHost port).input 1 (port + 1) d = (d.2.read d.1.toNat 1, d) := by
  simp only [indexHost, if_neg (Nat.succ_ne_self port), if_true]

theorem indexHost_output (port value : Nat) (d : Byte × Mem) :
    (indexHost port).output 1 (port + 1) value d = (d.1, d.2.write d.1.toNat 1 value) := by
  simp only [indexHost, if_neg (Nat.succ_ne_self port), if_true]

/-- The registers keep what is written to them through the index. -/
theorem indexHost_stores {port : Nat} (hport : port + 1 < 2 ^ 16) (flags : Byte) (o n : Nat) :
    ((indexedField flags o n port).access (indexHost port)).Stores 8 (fun offset => offset < 256)
      fun (s : Mem × Byte × Mem) i => bitsOf s.2.2 i := by
  have hbyte : ∀ {offset}, offset < 256 → (BitVec.ofNat 8 offset).toNat = offset := fun h => by
    rw [BitVec.toNat_ofNat]
    exact Nat.mod_eq_of_lt h
  constructor
  · intro offset s hU
    have hdata := portRegister_read (indexHost port) hport (s.1, BitVec.ofNat 8 offset, s.2.2)
    rw [indexHost_input, hbyte hU] at hdata
    have hread : ((indexedField flags o n port).access (indexHost port)).read 8 offset s =
        .ok (BitVec.ofNat 64 (s.2.2.read offset 1 % 2 ^ 8), (s.1, BitVec.ofNat 8 offset, s.2.2)) := by
      simp only [NsField.access, indexedField, indexHost_select hport hU, hdata, bind, Except.bind]
      rfl
    refine ⟨_, _, hread, rfl, fun j hj => ?_⟩
    rw [BitVec.getLsbD_ofNat, decide_eq_true (show j < 64 by omega), Bool.true_and, Nat.testBit_mod_two_pow,
      decide_eq_true hj, Bool.true_and, bitsOf_read _ _ (show j < 8 * 1 by omega)]
  · intro offset s v hU
    have hdata := portRegister_write (indexHost port) hport v (s.1, BitVec.ofNat 8 offset, s.2.2)
    rw [indexHost_input, indexHost_output, hbyte hU, show (256 : Nat) = 256 ^ 1 from rfl, Mem.write_mod] at hdata
    have hwrite : ((indexedField flags o n port).access (indexHost port)).write 8 offset v s =
        .ok (s.1, BitVec.ofNat 8 offset, s.2.2.write offset 1 v.toNat) := by
      simp only [NsField.access, indexedField, indexHost_select hport hU, hdata, bind, Except.bind]
    exact ⟨_, hwrite, bitsOf_write _ _ _ _⟩

/-! ## Round trip -/

/-- **A field that is written is read back**, whatever its width, its offset and its accesses are: the value is the source up
to the size of the field, the read changes nothing, and the write changes nothing outside the units of the field; in them,
around the field, is what its flags say. -/
theorem field_roundTrip {H : Host δ} {bits : Mem × δ → Nat → Bool} (hA : (f.access H).Stores w U bits) (hf : f.Fits w U)
    (hbank : ∀ flags offset size region bank value, f ≠ .bankField flags offset size region bank value) {fill : Option Bool}
    (hfill : writeFill f.flags = some fill) {source : FieldValue} (hpos : 0 < f.size) (hfit : f.size ≤ source.room)
    (s : Mem × δ) :
    ∃ s₁ value s₂, laiWriteOpregion H f source s = .ok s₁ ∧ laiReadOpregion H f s₁ = .ok (value, s₂) ∧ bits s₂ = bits s₁ ∧
      (∀ j, value.bits j = (decide (j < f.size) && source.bits j)) ∧
      ∀ i, bits s₁ i = if f.offset ≤ i ∧ i < f.offset + f.size then source.bits (i - f.offset)
        else if f.offset / w * w ≤ i ∧ i < unitsEnd w f.offset f.size then fill.getD (bits s i) else bits s i := by
  obtain ⟨hwriteEq, hreadEq⟩ := opregion_eq H hbank
  obtain ⟨s₁, hwrite, hbits₁⟩ := writeField_spec hA hf hfill hpos hfit s
  obtain ⟨value, s₂, hread, hsame, hvalue⟩ := readField_spec hA hf hpos s₁
  refine ⟨s₁, value, s₂, (hwriteEq source s).trans hwrite, (hreadEq s₁).trans hread, hsame, fun j => ?_, fun i => ?_⟩
  · rw [hvalue, hbits₁]
    by_cases hj : j < f.size
    · rw [written, splice_of_mem hj]
    · rw [decide_eq_false hj, Bool.false_and, Bool.false_and]
  · rw [hbits₁, written_apply]

/-- Twelve bits behind the first four of port 0x60, accessed byte by byte, the other bits preserved. -/
def exampleField : NsField := .field 1 4 12 ⟨.io, 0x60⟩

/-- Ten bits behind the first four of register 1, the other bits of the registers cleared. -/
def exampleIndexed : NsField := indexedField 0x41 12 10 0x70

theorem exampleField_fits : exampleField.Fits 8 fun offset => 0x60 + offset + 8 / 8 ≤ 2 ^ 16 := by
  refine ⟨rfl, fun x _ hx => ?_, fun h => absurd h (by decide)⟩
  change x < 4 + 12 at hx
  omega

theorem exampleIndexed_fits : exampleIndexed.Fits 8 fun offset => offset < 256 := by
  refine ⟨rfl, fun x _ hx => ?_, fun h => absurd h (by decide)⟩
  change x < 12 + 10 at hx
  omega

/-- Port 0x60 with what is around the field, and registers behind the ports 0x70 and 0x71. -/
theorem field_roundTrip_ports :
    (∃ s₁ value s₂,
      laiWriteOpregion portHost exampleField (.integer 0xABC) ((fun _ => 0xFF), (fun _ => 0xFF)) = .ok s₁ ∧
        laiReadOpregion portHost exampleField s₁ = .ok (value, s₂) ∧
        (∀ j, value.bits j = (decide (j < 12) && (0xABC : Word64).getLsbD j)) ∧ bitsOf s₁.2 (8 * 0x60 + 3) = true) ∧
      ∃ s₁ value s₂,
        laiWriteOpregion (indexHost 0x70) exampleIndexed (.buffer [0xA5, 2]) ((fun _ => 0xFF), 0, (fun _ => 0xFF)) = .ok s₁ ∧
          laiReadOpregion (indexHost 0x70) exampleIndexed s₁ = .ok (value, s₂) ∧
          (∀ j, value.bits j = (decide (j < 10) && listBits [0xA5, 2] j)) ∧
          bitsOf s₁.2.2 (8 * 1 + 3) = false ∧ bitsOf s₁.2.2 (8 * 3) = true := by
  constructor
  · obtain ⟨s₁, value, s₂, hwrite, hread, -, hvalue, haround⟩ := field_roundTrip
      (show (exampleField.access portHost).Stores 8 _ _ from portHost_stores 0x60 (show 8 ∈ [8, 16, 32] by decide))
      exampleField_fits (fun _ _ _ _ _ _ h => NsField.noConfusion h) (show writeFill 1 = some none from rfl) (by decide)
      (show 12 ≤ (FieldValue.integer 0xABC).room by decide) ((fun _ => 0xFF), (fun _ => 0xFF))
    refine ⟨s₁, value, s₂, hwrite, hread, hvalue, ?_⟩
    rw [show bitsOf s₁.2 (8 * 0x60 + 3) = _ from haround 3]
    rfl
  · obtain ⟨s₁, value, s₂, hwrite, hread, -, hvalue, haround⟩ := field_roundTrip
      (show (exampleIndexed.access (indexHost 0x70)).Stores 8 _ _ from indexHost_stores (by decide) 0x41 12 10)
      exampleIndexed_fits (fun _ _ _ _ _ _ h => NsField.noConfusion h) (show writeFill 0x41 = some (some false) from rfl)
      (by decide) (show 10 ≤ (FieldValue.buffer [0xA5, 2]).room by decide) ((fun _ => 0xFF), 0, (fun _ => 0xFF))
    refine ⟨s₁, value, s₂, hwrite, hread, hvalue, ?_, ?_⟩
    · rw [show bitsOf s₁.2.2 (8 * 1 + 3) = _ from haround (8 * 1 + 3)]
      rfl
    · rw [show bitsOf s₁.2.2 (8 * 3) = _ from haround (8 * 3)]
      rfl

/-! ## Regions in memory -/

theorem laihostMapped_eq {a : Nat} (ha : a < 2 ^ 64) : laihostMapped a = a / 4096 * 4096 := Mem.land_page ha

/-- **An access to memory is one to its address exactly where a page starts there**: `laihost_map` returns the start of the
page. -/
theorem memory_access_iff [Inhabited δ] (H : Host δ) (base offset : Nat) (hw : w ∈ widths) :
    ((∀ s : Mem × δ, laiPerformRead H ⟨.memory, base⟩ w offset s =
        .ok (BitVec.ofNat 64 (s.1.read (add64 base offset) (w / 8)), s)) ∧
      ∀ (s : Mem × δ) value, laiPerformWrite H ⟨.memory, base⟩ w offset value s =
        .ok (s.1.write (add64 base offset) (w / 8) value.toNat, s.2)) ↔ add64 base offset % 4096 = 0 := by
  have hlt : add64 base offset < 2 ^ 64 := by
    unfold add64
    omega
  have hpage := laihostMapped_eq hlt
  have hmem : w ∈ [8, 16, 32, 64] := hw
  constructor
  · rintro ⟨hread, -⟩
    -- only the byte at the address is set
    obtain ⟨m, hm⟩ : ∃ m : Mem, m = fun x => if x = add64 base offset then 1 else 0 := ⟨_, rfl⟩
    have heq := hread (m, default)
    simp only [laiPerformRead, if_pos hmem, Except.ok.injEq, Prod.mk.injEq, and_true] at heq
    have hpos : 0 < 8 * (w / 8) := by rcases mem_widths hw with rfl | rfl | rfl | rfl <;> decide
    have hlowest : ∀ a, (BitVec.ofNat 64 (m.read a (w / 8))).getLsbD 0 = (m a).getLsbD 0 := by
      intro a
      rw [BitVec.getLsbD_ofNat, bitsOf_read m a hpos, bitsOf_add m a 0]
      rfl
    have hbit := congrArg (fun v : Word64 => v.getLsbD 0) heq
    simp only [hlowest] at hbit
    by_contra hne
    simp only [hpage, hm, if_neg (show ¬ add64 base offset / 4096 * 4096 = add64 base offset by omega), if_true] at hbit
    cases hbit
  · intro hstart
    have haddr : laihostMapped (add64 base offset) = add64 base offset := by omega
    constructor
    · intro s
      simp only [laiPerformRead, if_pos hmem, haddr]
    · intro s value
      simp only [laiPerformWrite, if_pos hmem, haddr]

/-- Devices without a port. -/
def noPorts : Host Unit := ⟨fun _ _ d => (0, d), fun _ _ _ d => d⟩

/-- The second byte of a page is not the one that is read or written. -/
theorem memory_access_second : add64 0x1000 1 = 0x1001 ∧
    ¬ ((∀ s : Mem × Unit, laiPerformRead noPorts ⟨.memory, 0x1000⟩ 8 1 s =
        .ok (BitVec.ofNat 64 (s.1.read (add64 0x1000 1) (8 / 8)), s)) ∧
      ∀ (s : Mem × Unit) value, laiPerformWrite noPorts ⟨.memory, 0x1000⟩ 8 1 value s =
        .ok (s.1.write (add64 0x1000 1) (8 / 8) value.toNat, s.2)) := by
  have haddr : add64 0x1000 1 = 0x1001 := add64_of_lt (by decide)
  refine ⟨haddr, ?_⟩
  rw [memory_access_iff noPorts 0x1000 1 (by decide), haddr]
  decide

end Gewodsys.Lai
