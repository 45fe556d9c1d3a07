import Gewodsys.Machine.Mem

/-!
# Bits of bytes, and loops over them unit by unit

* `bitsOf` : the bits of bytes, the low ones of a byte first; `splice` : bits with a window of them replaced;
* `lowMask` : the low bits of a word;
* `chunks` : a window of bits, in pieces that lie each in one unit of `w` bits; `chunks_spec` : its rule;
* `bitsOf_read`, `bitsOf_write` : words in memory as windows of bits;
* `listBits` : the bits of a list of bytes; `listBits_set` : a byte that is set, as a window of bits.
-/

namespace Gewodsys.Machine

/-! ## Windows -/

/-- Bit `i` of bytes: the low bits of a byte come first. -/
def bitsOf (m : Nat → Byte) (i : Nat) : Bool := (m (i / 8)).getLsbD (i % 8)

/-- The bits `g` over `n` bits from `a` on. -/
def splice (f : Nat → Bool) (a n : Nat) (g : Nat → Bool) (i : Nat) : Bool := if a ≤ i ∧ i < a + n then g (i - a) else f i

theorem splice_of_mem {f g : Nat → Bool} {a n j : Nat} (h : j < n) : splice f a n g (a + j) = g j := by
  rw [splice, if_pos ⟨Nat.le_add_right _ _, by omega⟩, Nat.add_sub_cancel_left]

theorem splice_of_not_mem {f g : Nat → Bool} {a n i : Nat} (h : i < a ∨ a + n ≤ i) : splice f a n g i = f i := by
  rw [splice, if_neg (by omega)]

theorem splice_zero (f : Nat → Bool) (a : Nat) (g : Nat → Bool) : splice f a 0 g = f := by
  funext i
  exact splice_of_not_mem (by omega)

theorem splice_congr {f g g' : Nat → Bool} {a n : Nat} (h : ∀ j, j < n → g j = g' j) : splice f a n g = splice f a n g' := by
  funext i
  by_cases hi : a ≤ i ∧ i < a + n
  · rw [splice, if_pos hi, splice, if_pos hi]
    exact h _ (by omega)
  · rw [splice, if_neg hi, splice, if_neg hi]

/-- A window, and the one right behind it. -/
theorem splice_splice (f : Nat → Bool) (a n k : Nat) (g : Nat → Bool) :
    splice (splice f a n g) (a + n) k (fun j => g (n + j)) = splice f a (n + k) g := by
  funext i
  by_cases hhigh : a + n ≤ i ∧ i < a + n + k
  · obtain ⟨j, rfl⟩ := Nat.exists_eq_add_of_le hhigh.1
    rw [splice_of_mem (by omega), Nat.add_assoc, splice_of_mem (by omega)]
  · rw [splice, if_neg hhigh]
    by_cases hlow : a ≤ i ∧ i < a + n
    · rw [splice, if_pos hlow, splice, if_pos (by omega)]
    · rw [splice, if_neg hlow, splice, if_neg (by omega)]

/-- A window that is widened by bits as they are. -/
theorem splice_widen {f g g' : Nat → Bool} {a b n k : Nat} (hab : a ≤ b) (hbn : b + n ≤ a + k)
    (hin : ∀ j, j < n → g' (b - a + j) = g j)
    (hout : ∀ j, j < k → j < b - a ∨ b - a + n ≤ j → g' j = f (a + j)) : splice f a k g' = splice f b n g := by
  funext i
  by_cases hk : a ≤ i ∧ i < a + k
  · obtain ⟨j, rfl⟩ := Nat.exists_eq_add_of_le hk.1
    rw [splice_of_mem (by omega)]
    by_cases hn : b ≤ a + j ∧ a + j < b + n
    · rw [splice, if_pos hn, ← hin _ (by omega)]
      congr 1
      omega
    · rw [splice, if_neg hn]
      exact hout j (by omega) (by omega)
  · rw [splice, if_neg hk, splice, if_neg (by omega)]

/-! ## Masks -/

/-- `(1 << n) - 1` -/
def lowMask (n : Nat) : BitVec 64 := (1#64 <<< n) - 1#64

theorem getLsbD_lowMask {n : Nat} (hn : n < 64) (j : Nat) : (lowMask n).getLsbD j = decide (j < n) := by
  have hpow : 2 ^ n < 2 ^ 64 := Nat.pow_lt_pow_right (by decide) hn
  have hpos : 0 < 2 ^ n := Nat.two_pow_pos n
  have hval : (lowMask n).toNat = 2 ^ n - 1 := by
    rw [lowMask, BitVec.toNat_sub, BitVec.toNat_shiftLeft, Nat.shiftLeft_eq]
    simp only [BitVec.toNat_ofNat]
    rw [show 1 % 2 ^ 64 = 1 from rfl, Nat.one_mul, Nat.mod_eq_of_lt hpow]
    omega
  rw [BitVec.getLsbD, hval, Nat.testBit_two_pow_sub_one]

/-! ## Pieces of a window -/

section
variable {ε σ : Type}

/-- `size` bits from bit `offset` on, piece by piece: no piece goes over the end of a unit of `w` bits. The body is given
how far the loop is, where in its unit the piece begins, and how long it is. -/
def chunks (w offset size : Nat) (body : Nat → Nat → Nat → σ → Except ε σ) : Nat → Nat → σ → Except ε σ
  | 0, _, s => .ok s
  | n + 1, progress, s =>
      if progress < size then do
        let bit := (offset + progress) % w
        let len := min (size - progress) (w - bit)
        let s ← body progress bit len s
        chunks w offset size body n (progress + len) s
      else .ok s

variable {w offset size : Nat} {body : Nat → Nat → Nat → σ → Except ε σ} {P : Nat → σ → Prop}

/-- What a piece is: in one unit, from its begin on if it is not the first one, up to its end if it is not the last one. -/
structure Piece (w offset size progress bit len : Nat) : Prop where
  pos : 0 < len
  bit_eq : (offset + progress) % w = bit
  inUnit : bit + len ≤ w
  inWindow : progress + len ≤ size
  first : progress = 0 ∨ bit = 0
  last : bit + len = w ∨ progress + len = size

theorem piece_min (hw : 0 < w) {progress : Nat} (h : progress < size)
    (hfirst : progress = 0 ∨ (offset + progress) % w = 0) :
    Piece w offset size progress ((offset + progress) % w) (min (size - progress) (w - (offset + progress) % w)) := by
  have hbit := Nat.mod_lt (offset + progress) hw
  constructor <;> omega

/-- Behind a piece that is not the last one, a unit begins. -/
theorem Piece.next {progress bit len : Nat} (h : Piece w offset size progress bit len) (hmore : progress + len < size) :
    offset + (progress + len) = ((offset + progress) / w + 1) * w := by
  have hdiv := Nat.div_add_mod (offset + progress) w
  have hend := h.last
  have hbit := h.bit_eq
  rw [Nat.add_mul, Nat.one_mul, Nat.mul_comm]
  omega

/-- A window in one unit is one piece. -/
theorem chunks_one (hpos : 0 < size)
    (hunit : offset % w + size ≤ w) (s : σ) :
    chunks w offset size body size 0 s = body 0 (offset % w) size s := by
  obtain ⟨n, rfl⟩ := Nat.exists_eq_add_of_le' hpos
  have hlen : min (n + 1) (w - offset % w) = n + 1 := by omega
  have hend : ∀ s', chunks w offset (n + 1) body n (n + 1) s' = .ok s' := by
    intro s'
    cases n with
    | zero => rfl
    | succ n => rw [chunks, if_neg (Nat.lt_irrefl _)]
  rw [chunks, if_pos hpos]
  simp only [Nat.add_zero, Nat.sub_zero, hlen, Nat.zero_add, hend]
  cases body 0 (offset % w) (n + 1) s <;> rfl

theorem chunks_run (hw : 0 < w)
    (hbody : ∀ progress bit len s, Piece w offset size progress bit len → P progress s →
      ∃ s', body progress bit len s = .ok s' ∧ P (progress + len) s') :
    ∀ n progress s, progress ≤ size → size ≤ progress + n →
      (progress < size → progress = 0 ∨ (offset + progress) % w = 0) → P progress s →
      ∃ s', chunks w offset size body n progress s = .ok s' ∧ P size s'
  | 0, progress, s, hle, hn, _, hP => by
      obtain rfl : progress = size := by omega
      exact ⟨s, rfl, hP⟩
  | n + 1, progress, s, hle, hn, hfirst, hP => by
      rw [chunks]
      by_cases hlt : progress < size
      · have hpiece := piece_min hw hlt (hfirst hlt)
        obtain ⟨s₁, hs₁, hP₁⟩ := hbody progress _ _ s hpiece hP
        have hpos := hpiece.pos
        obtain ⟨s', hs', hP'⟩ := chunks_run hw hbody n _ s₁ hpiece.inWindow (by omega)
          (fun hmore => .inr (by rw [hpiece.next hmore, Nat.mul_mod_left])) hP₁
        exact ⟨s', by simp only [if_pos hlt, hs₁, bind, Except.bind, hs'], hP'⟩
      · obtain rfl : progress = size := by omega
        exact ⟨s, if_neg hlt, hP⟩

/-- What each piece keeps and carries on holds of the window. -/
theorem chunks_spec (hw : 0 < w)
    (hbody : ∀ progress bit len s, Piece w offset size progress bit len → P progress s →
      ∃ s', body progress bit len s = .ok s' ∧ P (progress + len) s') {s : σ} (h : P 0 s) :
    ∃ s', chunks w offset size body size 0 s = .ok s' ∧ P size s' :=
  chunks_run hw hbody size 0 s (Nat.zero_le _) (by omega) (fun _ => .inl rfl) h

end

/-! ## Words in memory -/

theorem bitsOf_add (m : Nat → Byte) (a j : Nat) : bitsOf m (8 * a + j) = (m (a + j / 8)).getLsbD (j % 8) := by
  rw [bitsOf, show (8 * a + j) / 8 = a + j / 8 by omega, Nat.mul_add_mod]

theorem bitsOf_read (m : Mem) (a : Nat) {n j : Nat} (hj : j < 8 * n) : (m.read a n).testBit j = bitsOf m (8 * a + j) := by
  have hbyte := m.ofNat_read a (show j / 8 < n by omega)
  rw [bitsOf_add, ← hbyte, BitVec.getLsbD_ofNat, show (256 : Nat) = 2 ^ 8 from rfl, ← pow_mul,
    Nat.testBit_div_two_pow, decide_eq_true (Nat.mod_lt j (by decide)), Bool.true_and]
  congr 1
  omega

theorem bitsOf_write (m : Mem) (a n v : Nat) : bitsOf (m.write a n v) = splice (bitsOf m) (8 * a) (8 * n) v.testBit := by
  funext i
  by_cases hi : 8 * a ≤ i ∧ i < 8 * a + 8 * n
  · obtain ⟨j, rfl⟩ := Nat.exists_eq_add_of_le hi.1
    rw [splice_of_mem (by omega), bitsOf_add, Mem.write, if_pos (by omega), Nat.add_sub_cancel_left, BitVec.getLsbD_ofNat,
      show (256 : Nat) = 2 ^ 8 from rfl, ← pow_mul, Nat.testBit_div_two_pow, decide_eq_true (Nat.mod_lt j (by decide)),
      Bool.true_and]
    congr 1
    omega
  · rw [splice, if_neg hi, bitsOf, bitsOf, Mem.write_apply_of_not_mem m v (by omega)]

/-! ## Lists of bytes -/

def listBits (l : List Byte) : Nat → Bool := bitsOf fun k => l.getD k 0

variable {l : List Byte} {b : Byte}

theorem listBits_add (l : List Byte) (i k : Nat) (hk : k < 8) : listBits l (8 * i + k) = (l.getD i 0).getLsbD k := by
  rw [listBits, bitsOf_add, Nat.div_eq_of_lt hk, Nat.mod_eq_of_lt hk, Nat.add_zero]

theorem listBits_of_length_le {i : Nat} (h : 8 * l.length ≤ i) : listBits l i = false := by
  rw [listBits, bitsOf, List.getD_eq_default l 0 (by omega)]
  exact BitVec.getLsbD_zero

theorem listBits_replicate (n i : Nat) : listBits (List.replicate n 0) i = false := by
  by_cases hi : i / 8 < n
  · rw [listBits, bitsOf, List.getD_replicate 0 hi]
    exact BitVec.getLsbD_zero
  · exact listBits_of_length_le (by rw [List.length_replicate]; omega)

/-- A byte of which `n` bits from bit `a` of the list on are new, and the others are as they were. -/
theorem listBits_set {i a n : Nat} {g : Nat → Bool} (hi : i < l.length) (ha : a / 8 = i) (hn : a % 8 + n ≤ 8)
    (hin : ∀ j, j < n → b.getLsbD (a % 8 + j) = g j)
    (hout : ∀ k, k < 8 → k < a % 8 ∨ a % 8 + n ≤ k → b.getLsbD k = (l.getD i 0).getLsbD k) :
    listBits (l.set i b) = splice (listBits l) a n g := by
  have hsplice : listBits (l.set i b) = splice (listBits l) (8 * i) 8 b.getLsbD := by
    funext x
    by_cases hx : 8 * i ≤ x ∧ x < 8 * i + 8
    · obtain ⟨k, rfl⟩ := Nat.exists_eq_add_of_le hx.1
      rw [splice_of_mem (by omega), listBits_add _ _ _ (by omega), List.getD_eq_getElem?_getD, List.getElem?_set_self hi]
      rfl
    · rw [splice, if_neg hx, listBits, bitsOf, listBits, bitsOf, List.getD_eq_getElem?_getD, List.getElem?_set_ne (by omega),
        List.getD_eq_getElem?_getD]
  rw [hsplice]
  refine splice_widen (by omega) (by omega) (fun j hj => ?_) fun k hk hkout => ?_
  · rw [← hin j hj]
    congr 1
    omega
  · rw [listBits_add l i k hk]
    exact hout k hk (by omega)

end Gewodsys.Machine
