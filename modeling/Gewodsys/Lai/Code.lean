import Gewodsys.Machine.Mem

/-!
# AML code: bytes, package sizes and names (`lai/core/exec.c`, `ns.c`, `eval.c`)

* `Failure` : how a run of the interpreter goes wrong; `byteAt`, `Code` : the bytes of a table;
* `laiParseVarint` and its inverse `pkgLength`; `laiParseLe` and its inverse `leBytes`;
* `laiAmlnameParse` and its inverse `NameString.encode`;
* `varint_roundTrip`, `le_roundTrip`, `amlname_roundTrip`.
-/

namespace Gewodsys.Lai
open Gewodsys.Machine

/-! ## Bytes -/

inductive ApiError
  | executionFailure | unexpectedResult | illegalArguments
deriving DecidableEq, Repr

inductive Failure
  /-- `lai_panic`, or an `LAI_ENSURE` that does not hold. -/
  | panic
  /-- An error that `lai_exec_run` returns. -/
  | api (e : ApiError)
  /-- The C has no meaning: a read past the table, a division by zero, a shift by 64 or more. -/
  | undefined
  /-- An opcode or an object that is not modelled. -/
  | unmodelled
deriving DecidableEq, Repr

/-- `code[pc]`. The list holds what the table has from the start of the method on. -/
def byteAt (code : List Byte) (pc : Nat) : Except Failure Byte :=
  match code[pc]? with
  | some b => .ok b
  | none => .error .undefined

/-- The bytes `bs` are at `pc`. -/
def Holds8 (code : List Byte) (pc : Nat) (bs : List Byte) : Prop := bs <+: code.drop pc

theorem holds8_append {code : List Byte} {pc : Nat} {bs cs : List Byte} :
    Holds8 code pc (bs ++ cs) ↔ Holds8 code pc bs ∧ Holds8 code (pc + bs.length) cs := by
  unfold Holds8
  constructor
  · rintro ⟨rest, h⟩
    refine ⟨⟨cs ++ rest, by rw [← h, List.append_assoc]⟩, rest, ?_⟩
    rw [← List.drop_drop, ← h, List.append_assoc, List.drop_left]
  · rintro ⟨⟨rest, h⟩, rest', h'⟩
    refine ⟨rest', ?_⟩
    rw [← List.drop_drop, ← h, List.drop_left] at h'
    rw [List.append_assoc, h', h]

theorem Holds8.byteAt {code : List Byte} {pc : Nat} {b : Byte} {bs : List Byte} (h : Holds8 code pc (b :: bs)) :
    byteAt code pc = .ok b := by
  obtain ⟨rest, h⟩ := h
  have hget : code[pc]? = some b := by
    rw [← Nat.add_zero pc, ← List.getElem?_drop, ← h]
    rfl
  rw [Lai.byteAt, hget]

theorem Holds8.head {code : List Byte} {pc : Nat} {b : Byte} {bs : List Byte} (h : Holds8 code pc (b :: bs)) :
    Holds8 code pc [b] := (holds8_append.mp (show Holds8 code pc ([b] ++ bs) from h)).1

theorem Holds8.tail {code : List Byte} {pc : Nat} {b : Byte} {bs : List Byte} (h : Holds8 code pc (b :: bs)) :
    Holds8 code (pc + 1) bs := (holds8_append.mp (show Holds8 code pc ([b] ++ bs) from h)).2

theorem Holds8.length_le {code : List Byte} {pc : Nat} {bs : List Byte} (h : Holds8 code pc bs) (hbs : bs ≠ []) :
    pc + bs.length ≤ code.length := by
  have hle := List.IsPrefix.length_le h
  rw [List.length_drop] at hle
  have hpos := List.length_pos_iff.mpr hbs
  omega

/-! ## Package sizes -/

/-- `lai_parse_varint`: the value and the next `pc`. -/
def laiParseVarint (code : List Byte) (pc limit : Nat) : Except Failure (Nat × Nat) := do
  if limit < pc + 1 then .error (.api .executionFailure) else
  let b0 ← byteAt code pc
  let sz := (b0 >>> 6) &&& 3#8
  if sz = 0 then return ((b0 &&& 0x3F#8).toNat, pc + 1)
  else if sz = 1 then
    if limit < pc + 2 then .error (.api .executionFailure) else
    let b1 ← byteAt code (pc + 1)
    return ((b0 &&& 0x0F#8).toNat ||| b1.toNat <<< 4, pc + 2)
  else if sz = 2 then
    if limit < pc + 3 then .error (.api .executionFailure) else
    let b1 ← byteAt code (pc + 1)
    let b2 ← byteAt code (pc + 2)
    return ((b0 &&& 0x0F#8).toNat ||| b1.toNat <<< 4 ||| b2.toNat <<< 12, pc + 3)
  else
    if limit < pc + 4 then .error (.api .executionFailure) else
    let b1 ← byteAt code (pc + 1)
    let b2 ← byteAt code (pc + 2)
    let b3 ← byteAt code (pc + 3)
    return ((b0 &&& 0x0F#8).toNat ||| b1.toNat <<< 4 ||| b2.toNat <<< 12 ||| b3.toNat <<< 20, pc + 4)

/-- How many bytes the size of a package with `n` bytes after the size takes. -/
def pkgLengthBytes (n : Nat) : Nat :=
  if n + 1 < 2 ^ 6 then 1 else if n + 2 < 2 ^ 12 then 2 else if n + 3 < 2 ^ 20 then 3 else 4

/-- The size of a package with `n` bytes after the size. A size counts its own bytes. -/
def pkgLength (n : Nat) : List Byte :=
  let t := n + pkgLengthBytes n
  let low (k : Nat) : Byte := BitVec.ofNat 8 (k * 64 + t % 16)
  let byte (i : Nat) : Byte := BitVec.ofNat 8 (t / 2 ^ i % 256)
  match pkgLengthBytes n with
  | 1 => [BitVec.ofNat 8 t]
  | 2 => [low 1, byte 4]
  | 3 => [low 2, byte 4, byte 12]
  | _ => [low 3, byte 4, byte 12, byte 20]

theorem pkgLengthBytes_cases (n : Nat) :
    pkgLengthBytes n = 1 ∧ n + 1 < 2 ^ 6 ∨ pkgLengthBytes n = 2 ∧ n + 2 < 2 ^ 12 ∨
      pkgLengthBytes n = 3 ∧ n + 3 < 2 ^ 20 ∨ pkgLengthBytes n = 4 := by
  unfold pkgLengthBytes
  split_ifs with h1 h2 h3
  · exact .inl ⟨rfl, h1⟩
  · exact .inr (.inl ⟨rfl, h2⟩)
  · exact .inr (.inr (.inl ⟨rfl, h3⟩))
  · exact .inr (.inr (.inr rfl))

theorem length_pkgLength (n : Nat) : (pkgLength n).length = pkgLengthBytes n := by
  unfold pkgLength
  rcases pkgLengthBytes_cases n with ⟨h, -⟩ | ⟨h, -⟩ | ⟨h, -⟩ | h <;> rw [h] <;> rfl

theorem toNat_leadByte {k t : Nat} (hk : k < 4) (ht : t < 64) :
    ((BitVec.ofNat 8 (k * 64 + t) >>> 6) &&& 3#8 = BitVec.ofNat 8 k) ∧
      (BitVec.ofNat 8 (k * 64 + t) &&& 0x3F#8).toNat = t ∧
      (BitVec.ofNat 8 (k * 64 + t) &&& 0x0F#8).toNat = t % 16 := by
  have hval : (BitVec.ofNat 8 (k * 64 + t)).toNat = k * 64 + t := by
    rw [BitVec.toNat_ofNat, Nat.mod_eq_of_lt (by omega)]
  refine ⟨?_, ?_, ?_⟩
  · apply BitVec.eq_of_toNat_eq
    rw [BitVec.toNat_and, BitVec.toNat_ushiftRight, hval, Nat.shiftRight_eq_div_pow, BitVec.toNat_ofNat,
      BitVec.toNat_ofNat, show (3 : Nat) % 2 ^ 8 = 2 ^ 2 - 1 by decide, land_low]
    omega
  · rw [BitVec.toNat_and, hval, BitVec.toNat_ofNat, show 0x3F % 2 ^ 8 = 2 ^ 6 - 1 by decide, land_low]
    omega
  · rw [BitVec.toNat_and, hval, BitVec.toNat_ofNat, show 0x0F % 2 ^ 8 = 2 ^ 4 - 1 by decide, land_low]
    omega

/-- A digit above `x`. -/
theorem lor_shift {x k d : Nat} (hx : x < 2 ^ k) : x ||| d <<< k = x + 2 ^ k * d := by
  rw [Nat.shiftLeft_eq, Nat.or_comm, lor_eq_add (Nat.mul_mod_left _ _) hx, Nat.add_comm, Nat.mul_comm]

/-- A package size is read back as it was written. -/
theorem varint_roundTrip {code : List Byte} {pc limit n : Nat} (hn : n + (pkgLength n).length < 2 ^ 28)
    (h : Holds8 code pc (pkgLength n)) (hlimit : pc + (pkgLength n).length ≤ limit) :
    laiParseVarint code pc limit = .ok (n + (pkgLength n).length, pc + (pkgLength n).length) := by
  have hlen := length_pkgLength n
  unfold laiParseVarint
  rw [if_neg (by rcases pkgLengthBytes_cases n with ⟨e, -⟩ | ⟨e, -⟩ | ⟨e, -⟩ | e <;> omega)]
  have hbyte : ∀ t i, (BitVec.ofNat 8 (t / 2 ^ i % 256)).toNat = t / 2 ^ i % 256 := by
    intro t i
    rw [BitVec.toNat_ofNat, Nat.mod_mod]
  rcases pkgLengthBytes_cases n with ⟨e, hlt⟩ | ⟨e, hlt⟩ | ⟨e, hlt⟩ | e <;> rw [e] at hlen <;>
    rw [hlen] at hn hlimit ⊢ <;> simp only [pkgLength, e] at h
  · obtain ⟨hs, h6, -⟩ := toNat_leadByte (k := 0) (t := n + 1) (by omega) hlt
    rw [Nat.zero_mul, Nat.zero_add] at hs h6
    rw [h.byteAt]
    simp only [bind, Except.bind, hs, h6, pure, Except.pure]
    rw [if_pos (by decide)]
  · obtain ⟨hs, -, h4⟩ := toNat_leadByte (k := 1) (t := (n + 2) % 16) (by omega) (by omega)
    rw [h.byteAt]
    simp only [bind, Except.bind, hs, h4, pure, Except.pure]
    rw [if_neg (by decide), if_pos (by decide), if_neg (by omega), h.tail.byteAt]
    simp only [hbyte]
    rw [lor_shift (by omega)]
    refine congrArg Except.ok (Prod.ext ?_ rfl)
    show (n + 2) % 16 % 16 + 2 ^ 4 * ((n + 2) / 2 ^ 4 % 256) = n + 2
    omega
  · obtain ⟨hs, -, h4⟩ := toNat_leadByte (k := 2) (t := (n + 3) % 16) (by omega) (by omega)
    rw [h.byteAt]
    simp only [bind, Except.bind, hs, h4, pure, Except.pure]
    rw [if_neg (by decide), if_neg (by decide), if_pos (by decide), if_neg (by omega), h.tail.byteAt, h.tail.tail.byteAt]
    simp only [hbyte]
    rw [lor_shift (x := (n + 3) % 16 % 16) (by omega), lor_shift (by omega)]
    refine congrArg Except.ok (Prod.ext ?_ rfl)
    show (n + 3) % 16 % 16 + 2 ^ 4 * ((n + 3) / 2 ^ 4 % 256) + 2 ^ 12 * ((n + 3) / 2 ^ 12 % 256) = n + 3
    omega
  · obtain ⟨hs, -, h4⟩ := toNat_leadByte (k := 3) (t := (n + 4) % 16) (by omega) (by omega)
    rw [h.byteAt]
    simp only [bind, Except.bind, hs, h4, pure, Except.pure]
    rw [if_neg (by decide), if_neg (by decide), if_neg (by decide), if_neg (by omega), h.tail.byteAt, h.tail.tail.byteAt,
      h.tail.tail.tail.byteAt]
    simp only [hbyte]
    rw [lor_shift (x := (n + 4) % 16 % 16) (by omega), lor_shift (k := 12) (by omega), lor_shift (by omega)]
    refine congrArg Except.ok (Prod.ext ?_ rfl)
    show (n + 4) % 16 % 16 + 2 ^ 4 * ((n + 4) / 2 ^ 4 % 256) + 2 ^ 12 * ((n + 4) / 2 ^ 12 % 256) +
      2 ^ 20 * ((n + 4) / 2 ^ 20 % 256) = n + 4
    omega

/-! ## Immediate integers -/

/-- The little-endian integer of `n` bytes at `pc`. -/
def leAt (code : List Byte) (pc : Nat) : Nat → Except Failure Nat
  | 0 => .ok 0
  | n + 1 => do
      let b ← byteAt code pc
      let v ← leAt code (pc + 1) n
      return b.toNat + 256 * v

/-- `lai_parse_u8`, `lai_parse_u16`, `lai_parse_u32` and `lai_parse_u64`: `n` bytes, and the next `pc`. -/
def laiParseLe (n : Nat) (code : List Byte) (pc limit : Nat) : Except Failure (Nat × Nat) := do
  if limit < pc + n then .error (.api .executionFailure) else
  let v ← leAt code pc n
  return (v, pc + n)

def laiParseU8 := laiParseLe 1
def laiParseU16 := laiParseLe 2
def laiParseU32 := laiParseLe 4
def laiParseU64 := laiParseLe 8

def leBytes (v : Nat) : Nat → List Byte
  | 0 => []
  | n + 1 => BitVec.ofNat 8 v :: leBytes (v / 256) n

@[simp] theorem length_leBytes (v n : Nat) : (leBytes v n).length = n := by
  induction n generalizing v with
  | zero => rfl
  | succ n ih => rw [leBytes, List.length_cons, ih]

theorem leAt_leBytes {code : List Byte} {pc v n : Nat} (h : Holds8 code pc (leBytes v n)) :
    leAt code pc n = .ok (v % 256 ^ n) := by
  induction n generalizing pc v with
  | zero => rw [leAt, pow_zero, Nat.mod_one]
  | succ n ih =>
      rw [leAt, Holds8.byteAt h, ih (Holds8.tail h)]
      show Except.ok ((BitVec.ofNat 8 v).toNat + 256 * (v / 256 % 256 ^ n)) = _
      rw [BitVec.toNat_ofNat, pow_succ' 256 n, Nat.mod_mul]

theorem le_roundTrip {code : List Byte} {pc limit v n : Nat} (h : Holds8 code pc (leBytes v n)) (hv : v < 256 ^ n)
    (hlimit : pc + n ≤ limit) : laiParseLe n code pc limit = .ok (v, pc + n) := by
  unfold laiParseLe
  rw [if_neg (by omega), leAt_leBytes h, Nat.mod_eq_of_lt hv]
  rfl

/-! ## Names -/

def rootChar : Byte := 0x5C
def parentChar : Byte := 0x5E
def dualPrefix : Byte := 0x2E
def multiPrefix : Byte := 0x2F

def laiIsName (c : Byte) : Bool :=
  0x30#8 ≤ c ∧ c ≤ 0x39#8 ∨ 0x41#8 ≤ c ∧ c ≤ 0x5A#8 ∨ c = 0x5F#8 ∨ c = rootChar ∨ c = parentChar ∨ c = multiPrefix ∨
    c = dualPrefix

/-- A segment of a name: four bytes. -/
structure Seg where
  b0 : Byte
  b1 : Byte
  b2 : Byte
  b3 : Byte
deriving DecidableEq, Repr

def Seg.bytes (s : Seg) : List Byte := [s.b0, s.b1, s.b2, s.b3]

/-- `struct lai_amlname`, with the segments that `lai_amlname_iterate` goes through. -/
structure AmlName where
  isAbsolute : Bool
  height : Nat
  searchScopes : Bool
  segs : List Seg
deriving DecidableEq, Repr

/-- The number of `^` at the front, and what is after them. -/
def skipParents : List Byte → Nat × List Byte
  | [] => (0, [])
  | c :: it => if c = parentChar then ((skipParents it).1 + 1, (skipParents it).2) else (0, c :: it)

/-- `lai_amlname_iterate`, up to `lai_amlname_done`. -/
def laiAmlnameSegs : Nat → List Byte → Except Failure (List Seg × List Byte)
  | 0, it => .ok ([], it)
  | n + 1, a :: b :: c :: d :: it => do
      let (segs, rest) ← laiAmlnameSegs n it
      return (⟨a, b, c, d⟩ :: segs, rest)
  | _ + 1, _ => .error .undefined

/-- The number of segments, from the prefix of the name. -/
def numSegs : List Byte → Except Failure (Nat × List Byte)
  | [] => .error .undefined
  | c :: it =>
      if c = 0 then .ok (0, it)
      else if c = dualPrefix then .ok (2, it)
      else if c = multiPrefix then
        match it with
        | [] => .error .undefined
        | k :: it => if k.toNat ≤ 2 then .error .panic else .ok (k.toNat, it)
      else if laiIsName c then .ok (1, c :: it)
      else .error .panic

/-- `lai_amlname_parse`: the name, and how many bytes it takes. -/
def laiAmlnameParse (data : List Byte) : Except Failure (AmlName × Nat) := do
  let (isAbsolute, height, it) ←
    match data with
    | [] => .error .undefined
    | c :: it => .ok (if c = rootChar then (true, 0, it) else (false, skipParents (c :: it)))
  let (n, it) ← numSegs it
  let (segs, rest) ← laiAmlnameSegs n it
  return (⟨isAbsolute, height, !isAbsolute && height == 0 && n == 1, segs⟩, data.length - rest.length)

/-- A byte that a segment begins with. -/
def isLead (c : Byte) : Bool := 0x30#8 ≤ c ∧ c ≤ 0x39#8 ∨ 0x41#8 ≤ c ∧ c ≤ 0x5A#8 ∨ c = 0x5F#8

/-- A name as it is written. -/
structure NameString where
  isAbsolute : Bool
  height : Nat
  segs : List Seg
  height_eq : isAbsolute = true → height = 0
  segs_lt : segs.length < 256
  lead : ∀ s ∈ segs, isLead s.b0 = true

def NameString.parsed (x : NameString) : AmlName :=
  ⟨x.isAbsolute, x.height, !x.isAbsolute && x.height == 0 && x.segs.length == 1, x.segs⟩

/-- The segments of a name, with the prefix that counts them. -/
def encodeSegs (segs : List Seg) : List Byte :=
  match segs with
  | [] => [0]
  | [s] => s.bytes
  | [s, t] => dualPrefix :: s.bytes ++ t.bytes
  | segs => multiPrefix :: BitVec.ofNat 8 segs.length :: segs.flatMap Seg.bytes

def NameString.encode (x : NameString) : List Byte :=
  (if x.isAbsolute then [rootChar] else List.replicate x.height parentChar) ++ encodeSegs x.segs

theorem isLead_ne {c : Byte} (h : isLead c = true) :
    c ≠ 0 ∧ c ≠ rootChar ∧ c ≠ parentChar ∧ c ≠ dualPrefix ∧ c ≠ multiPrefix ∧ laiIsName c = true := by
  revert c
  decide

theorem skipParents_replicate (n : Nat) {c : Byte} (hc : c ≠ parentChar) (it : List Byte) :
    skipParents (List.replicate n parentChar ++ c :: it) = (n, c :: it) := by
  induction n with
  | zero => rw [List.replicate_zero, List.nil_append, skipParents, if_neg hc]
  | succ n ih => rw [List.replicate_succ, List.cons_append, skipParents, if_pos rfl, ih]

theorem laiAmlnameSegs_flatMap (segs : List Seg) (rest : List Byte) :
    laiAmlnameSegs segs.length (segs.flatMap Seg.bytes ++ rest) = .ok (segs, rest) := by
  induction segs with
  | nil => rfl
  | cons s segs ih =>
      rw [List.flatMap_cons, List.append_assoc, List.length_cons]
      show (laiAmlnameSegs segs.length (segs.flatMap Seg.bytes ++ rest) >>= fun x => pure (s :: x.1, x.2)) = _
      rw [ih]
      rfl

theorem numSegs_lead {c : Byte} (hc : isLead c = true) (it : List Byte) : numSegs (c :: it) = .ok (1, c :: it) := by
  obtain ⟨h0, -, -, hd, hm, hn⟩ := isLead_ne hc
  simp only [numSegs, if_neg h0, if_neg hd, if_neg hm, if_pos hn]

theorem numSegs_multi {k : Byte} (hk : 2 < k.toNat) (it : List Byte) :
    numSegs (multiPrefix :: k :: it) = .ok (k.toNat, it) := by
  show (if k.toNat ≤ 2 then _ else _) = _
  rw [if_neg (by omega)]

/-- What the parser reads of the segments: how many there are, and then each. -/
theorem encodeSegs_parse {segs : List Seg} (hlt : segs.length < 256) (hlead : ∀ s ∈ segs, isLead s.b0 = true)
    (rest : List Byte) :
    ∃ c it, encodeSegs segs ++ rest = c :: it ∧ c ≠ rootChar ∧ c ≠ parentChar ∧
      numSegs (c :: it) = .ok (segs.length, segs.flatMap Seg.bytes ++ rest) := by
  match segs with
  | [] => exact ⟨0, rest, rfl, by decide, by decide, rfl⟩
  | [s] =>
      obtain ⟨-, hr, hp, -, -, -⟩ := isLead_ne (hlead s (List.mem_singleton_self s))
      exact ⟨s.b0, [s.b1, s.b2, s.b3] ++ rest, rfl, hr, hp, numSegs_lead (hlead s (List.mem_singleton_self s)) _⟩
  | [s, t] => exact ⟨dualPrefix, s.bytes ++ t.bytes ++ rest, rfl, by decide, by decide, rfl⟩
  | s :: t :: u :: segs =>
      have hcount : (BitVec.ofNat 8 (s :: t :: u :: segs).length).toNat = (s :: t :: u :: segs).length := by
        rw [BitVec.toNat_ofNat, Nat.mod_eq_of_lt hlt]
      have hmulti := numSegs_multi (k := BitVec.ofNat 8 (s :: t :: u :: segs).length)
        (by rw [hcount, List.length_cons, List.length_cons, List.length_cons]; omega)
        ((s :: t :: u :: segs).flatMap Seg.bytes ++ rest)
      rw [hcount] at hmulti
      exact ⟨multiPrefix, _, rfl, by decide, by decide, hmulti⟩

/-- A name is read back as it was written, whatever is behind it. -/
theorem amlname_roundTrip (x : NameString) (rest : List Byte) :
    laiAmlnameParse (x.encode ++ rest) = .ok (x.parsed, x.encode.length) := by
  obtain ⟨c, it, hseg, hroot, hparent, hnum⟩ := encodeSegs_parse x.segs_lt x.lead rest
  have hlength : (x.encode ++ rest).length - rest.length = x.encode.length := by
    rw [List.length_append, Nat.add_sub_cancel]
  unfold laiAmlnameParse
  by_cases habs : x.isAbsolute = true
  · have hdata : x.encode ++ rest = rootChar :: c :: it := by
      rw [NameString.encode, if_pos habs, List.append_assoc, hseg]
      rfl
    simp only [hdata, if_true, bind, Except.bind, hnum, laiAmlnameSegs_flatMap, pure, Except.pure]
    rw [← hdata, hlength, NameString.parsed, habs, x.height_eq habs]
  · have hdata : x.encode ++ rest = List.replicate x.height parentChar ++ c :: it := by
      rw [NameString.encode, if_neg habs, List.append_assoc, hseg]
    have hskip := skipParents_replicate x.height hparent it
    obtain ⟨d, it', hd, hdroot⟩ : ∃ d it', x.encode ++ rest = d :: it' ∧ d ≠ rootChar := by
      rw [hdata]
      cases x.height with
      | zero => exact ⟨c, it, rfl, hroot⟩
      | succ n => exact ⟨parentChar, List.replicate n parentChar ++ c :: it, rfl, by decide⟩
    rw [← hdata, hd] at hskip
    simp only [hd, if_neg hdroot, hskip, bind, Except.bind, hnum, laiAmlnameSegs_flatMap, pure, Except.pure]
    rw [← hd, hlength, NameString.parsed, Bool.eq_false_iff.mpr habs]

end Gewodsys.Lai
