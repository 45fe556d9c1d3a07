import Mathlib

/-!
# Machine words: wrapping 64-bit arithmetic, masks, bit fields

* `add64`, `sub64` : `uint64_t` arithmetic on `Nat` representatives (`add64_of_lt`, `sub64_of_le`); `inc32`, `dec32`;
* `land_mask` : `x & (2^h - 2^l)` as division and remainder;
* `Field` : a bit field of a packed word, with `Field.get` and `Field.set`; the read-over-write laws
  `Field.get_set`, `Field.get_set_of_disjoint`, and the bit view `Field.testBit_set`.
-/

namespace Gewodsys.Machine

/-! ## Wrapping arithmetic -/

/-- `a + b` in `uint64_t`. -/
@[irreducible] def add64 (a b : Nat) : Nat := (a + b) % 2 ^ 64

/-- `a - b` in `uint64_t`. -/
@[irreducible] def sub64 (a b : Nat) : Nat := (a + (2 ^ 64 - b % 2 ^ 64)) % 2 ^ 64

/-- `a++` and `a--` in `uint32_t`. -/
@[irreducible] def inc32 (a : Nat) : Nat := (a + 1) % 2 ^ 32
@[irreducible] def dec32 (a : Nat) : Nat := if a = 0 then 2 ^ 32 - 1 else a - 1

theorem inc32_of_lt {a : Nat} (h : a + 1 < 2 ^ 32) : inc32 a = a + 1 := by
  rw [inc32, Nat.mod_eq_of_lt h]

theorem dec32_of_pos {a : Nat} (h : 0 < a) : dec32 a = a - 1 := by
  rw [dec32, if_neg (by omega)]

theorem add64_of_lt {a b : Nat} (h : a + b < 2 ^ 64) : add64 a b = a + b := by
  rw [add64, Nat.mod_eq_of_lt h]

theorem sub64_of_le {a b : Nat} (ha : a < 2 ^ 64) (h : b ≤ a) : sub64 a b = a - b := by
  unfold sub64
  omega

theorem add64_add64 (a b c : Nat) : add64 (add64 a b) c = add64 a (b + c) := by
  unfold add64
  omega

/-- Adding a difference, where the sum does not wrap. -/
theorem add64_sub64 {a b c : Nat} (h : a + b < 2 ^ 64) (hc : c ≤ a + b) : add64 a (sub64 b c) = a + b - c := by
  unfold add64 sub64
  rw [Nat.mod_eq_of_lt (show c < 2 ^ 64 by omega), Nat.add_mod_mod, show a + (b + (2 ^ 64 - c)) = a + b - c + 2 ^ 64 by omega,
    Nat.add_mod_right]
  exact Nat.mod_eq_of_lt (by omega)

/-- Subtracting what was added gives the word back, also across the wrap. -/
theorem sub64_add64_cancel (a b : Nat) : sub64 (add64 a b) a = b % 2 ^ 64 := by
  unfold sub64 add64
  omega

/-! ## Masks -/

/-- A mask of the bits `l .. h - 1`. -/
theorem land_mask (x l h : Nat) (hlh : l ≤ h) : x &&& (2 ^ h - 2 ^ l) = x % 2 ^ h / 2 ^ l * 2 ^ l := by
  apply Nat.eq_of_testBit_eq
  intro i
  have hmask : 2 ^ h - 2 ^ l = (2 ^ (h - l) - 1) * 2 ^ l := by
    rw [Nat.sub_mul, one_mul, ← pow_add, Nat.sub_add_cancel hlh]
  rw [Nat.testBit_and, hmask, Nat.testBit_mul_two_pow, Nat.testBit_mul_two_pow, Nat.testBit_two_pow_sub_one,
    Nat.testBit_div_two_pow, Nat.testBit_mod_two_pow]
  by_cases hl : l ≤ i
  · rw [Nat.sub_add_cancel hl]
    by_cases hi : i < h
    · simp [hl, hi, show i - l < h - l by omega]
    · simp [hi, show ¬ i - l < h - l by omega]
  · simp [hl]

theorem land_low (x n : Nat) : x &&& (2 ^ n - 1) = x % 2 ^ n := Nat.and_two_pow_sub_one_eq_mod x n

/-- Two words without a common bit, the low one below `2^k`. -/
theorem lor_eq_add {x y k : Nat} (hx : x % 2 ^ k = 0) (hy : y < 2 ^ k) : x ||| y = x + y := by
  have hdiv : 2 ^ k * (x / 2 ^ k) = x := Nat.mul_div_cancel' (Nat.dvd_of_mod_eq_zero hx)
  have hor := Nat.two_pow_add_eq_or_of_lt hy (x / 2 ^ k)
  rw [hdiv] at hor
  exact hor.symm

/-! ## Bit fields -/

/-- A bit field of a packed word: `len` bits from bit `lo` on. -/
structure Field where
  lo : Nat
  len : Nat
deriving DecidableEq, Repr

/-- The field `f` of the word `w`. -/
def Field.get (f : Field) (w : Nat) : Nat := w / 2 ^ f.lo % 2 ^ f.len

/-- The word `w` with its field `f` assigned; a value too wide for the field loses its high bits. -/
def Field.set (f : Field) (v w : Nat) : Nat :=
  w % 2 ^ f.lo + v % 2 ^ f.len * 2 ^ f.lo + w / 2 ^ (f.lo + f.len) * 2 ^ (f.lo + f.len)

/-- Two fields that share no bit. -/
def Field.Disjoint (f g : Field) : Prop := f.lo + f.len ≤ g.lo ∨ g.lo + g.len ≤ f.lo

instance (f g : Field) : Decidable (f.Disjoint g) :=
  inferInstanceAs (Decidable (f.lo + f.len ≤ g.lo ∨ g.lo + g.len ≤ f.lo))

theorem Field.testBit_get (f : Field) (w i : Nat) :
    (f.get w).testBit i = (decide (i < f.len) && w.testBit (f.lo + i)) := by
  rw [Field.get, Nat.testBit_mod_two_pow, Nat.testBit_div_two_pow, Nat.add_comm]

theorem Field.testBit_set (f : Field) (v w i : Nat) :
    (f.set v w).testBit i =
      if i < f.lo then w.testBit i else if i < f.lo + f.len then v.testBit (i - f.lo) else w.testBit i := by
  have hlow : w % 2 ^ f.lo < 2 ^ f.lo := Nat.mod_lt _ (Nat.two_pow_pos _)
  have hmid : v % 2 ^ f.len < 2 ^ f.len := Nat.mod_lt _ (Nat.two_pow_pos _)
  have hsplit : f.set v w = 2 ^ (f.lo + f.len) * (w / 2 ^ (f.lo + f.len)) +
      (2 ^ f.lo * (v % 2 ^ f.len) + w % 2 ^ f.lo) := by
    unfold Field.set
    ring
  have hbound : 2 ^ f.lo * (v % 2 ^ f.len) + w % 2 ^ f.lo < 2 ^ (f.lo + f.len) := by
    rw [pow_add]
    have h : 2 ^ f.lo * (v % 2 ^ f.len + 1) ≤ 2 ^ f.lo * 2 ^ f.len := Nat.mul_le_mul_left _ hmid
    rw [Nat.mul_add] at h
    omega
  rw [hsplit, Nat.testBit_two_pow_mul_add _ hbound, Nat.testBit_two_pow_mul_add _ hlow, Nat.testBit_mod_two_pow,
    Nat.testBit_mod_two_pow, Nat.testBit_div_two_pow]
  by_cases h1 : i < f.lo
  · simp [h1, show i < f.lo + f.len by omega]
  · by_cases h2 : i < f.lo + f.len
    · simp [h1, h2, show i - f.lo < f.len by omega]
    · simp [h1, h2, show i - (f.lo + f.len) + (f.lo + f.len) = i by omega]

@[simp] theorem Field.get_set (f : Field) (v w : Nat) : f.get (f.set v w) = v % 2 ^ f.len := by
  apply Nat.eq_of_testBit_eq
  intro i
  rw [Field.testBit_get, Field.testBit_set, Nat.testBit_mod_two_pow]
  by_cases h : i < f.len
  · simp [h]
  · simp [h]

theorem Field.get_set_of_disjoint (f g : Field) (v w : Nat) (h : g.Disjoint f) : g.get (f.set v w) = g.get w := by
  apply Nat.eq_of_testBit_eq
  intro i
  rw [Field.testBit_get, Field.testBit_get, Field.testBit_set]
  by_cases hi : i < g.len
  · rcases h with h | h
    · simp [hi, show g.lo + i < f.lo by omega]
    · simp [hi, show ¬ g.lo + i < f.lo by omega, show ¬ g.lo + i < f.lo + f.len by omega]
  · simp [hi]

theorem Field.get_lt (f : Field) (w : Nat) : f.get w < 2 ^ f.len := Nat.mod_lt _ (Nat.two_pow_pos _)

/-- Assigning a field that lies inside an `n`-bit word keeps the word within `n` bits. -/
theorem Field.set_lt (f : Field) (v : Nat) {w n : Nat} (hw : w < 2 ^ n) (hf : f.lo + f.len ≤ n) :
    f.set v w < 2 ^ n := by
  apply Nat.lt_pow_two_of_testBit
  intro i hi
  rw [Field.testBit_set, if_neg (by omega), if_neg (by omega)]
  exact Nat.testBit_lt_two_pow (lt_of_lt_of_le hw (Nat.pow_le_pow_right (by decide) hi))

/-- Two words that agree on every bit outside `f` and on `f` are equal. -/
theorem Field.set_get (f : Field) (w : Nat) : f.set (f.get w) w = w := by
  apply Nat.eq_of_testBit_eq
  intro i
  rw [Field.testBit_set, Field.testBit_get]
  split_ifs with h1 h2
  · rfl
  · simp [show i - f.lo < f.len by omega, show f.lo + (i - f.lo) = i by omega]
  · rfl

end Gewodsys.Machine
