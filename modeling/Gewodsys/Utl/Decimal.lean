import Gewodsys.Machine.Mem

/-!
# The decimal branch of `ComPrint` (`utl/serial.c`)

`int` values are integers; an `int` result out of range is undefined and gives `none`.

* `printDecimal` : the characters of `case 'd'`, with fuel for its two loops;
* `decimal n` : the canonical decimal numeral of `n`;
* `digitsFrom_eq_numeral` : the digits above a power of ten, from the top, are the numeral;
* `printDecimal_iff` : the branch ends with the numeral for every `int` but the least one.
-/

namespace Gewodsys.Utl
open Gewodsys.Machine

/-- The code of a character. -/
def code (c : Char) : Byte := BitVec.ofNat 8 c.toNat

/-- An `int` result, which must be in range. -/
def checkedInt (x : Int) : Option Int := if -2 ^ 31 ≤ x ∧ x < 2 ^ 31 then some x else none

/-! ## The branch -/

/-- `while (num / div >= 10) div *= 10`. -/
def decimalDiv (num : Int) : Nat → Int → Option Int
  | 0, _ => none
  | fuel + 1, div => if num.tdiv div ≥ 10 then (checkedInt (div * 10)).bind (decimalDiv num fuel) else some div

/-- `while (div) { ComPutChar('0' + num / div); num %= div; div /= 10; }`. -/
def decimalDigits : Nat → Int → Int → Option (List Byte)
  | 0, _, _ => none
  | fuel + 1, num, div =>
      if div ≠ 0 then
        (decimalDigits fuel (num.tmod div) (div.tdiv 10)).map (BitVec.ofInt 8 (48 + num.tdiv div) :: ·)
      else some []

/-- `case 'd'` with the argument `num`. -/
def printDecimal (fuel : Nat) (num : Int) : Option (List Byte) :=
  let signed := if num < 0 then (checkedInt (-num)).map fun num => ([code '-'], num) else some ([], num)
  signed.bind fun (sign, num) =>
    (decimalDiv num fuel 1).bind fun div => (decimalDigits fuel num div).map (sign ++ ·)

/-! ## Numerals -/

/-- The canonical decimal numeral. -/
def decimal (n : Int) : List Byte := n.repr.toList.map code

def digit (d : Nat) : Byte := BitVec.ofNat 8 (48 + d)

theorem code_digitChar {d : Nat} (h : d < 10) : code (Nat.digitChar d) = digit d := by
  interval_cases d <;> rfl

/-- The numeral of a natural number. -/
def numeral (n : Nat) : List Byte := (Nat.toDigits 10 n).map code

theorem numeral_of_lt {n : Nat} (h : n < 10) : numeral n = [digit n] := by
  rw [numeral, Nat.toDigits_of_lt_base h, List.map_singleton, code_digitChar h]

/-- The last digit comes off at the end. -/
theorem numeral_of_le {n : Nat} (h : 10 ≤ n) : numeral n = numeral (n / 10) ++ [digit (n % 10)] := by
  rw [numeral, Nat.toDigits_of_base_le (by decide) h, List.map_append, List.map_singleton,
    code_digitChar (Nat.mod_lt n (by decide))]
  rfl

theorem decimal_natCast (n : Nat) : decimal n = numeral n := by
  rw [decimal, Int.repr_eq_if, if_pos (Int.natCast_nonneg n), Int.toNat_natCast, Nat.repr_eq_ofList_toDigits,
    String.toList_ofList]
  rfl

theorem decimal_neg {n : Nat} (h : 0 < n) : decimal (-n) = code '-' :: numeral n := by
  rw [decimal, Int.repr_eq_if, if_neg (by omega), neg_neg, Int.toNat_natCast, Nat.repr_eq_ofList_toDigits,
    String.toList_append, String.toList_ofList, String.toList_ofList, List.map_append]
  rfl

/-! ## Digits from the top -/

/-- The `k + 1` digits of `n` from the power `10^k` down. -/
def digitsFrom : Nat → Nat → List Byte
  | 0, n => [digit n]
  | k + 1, n => digit (n / 10 ^ (k + 1)) :: digitsFrom k (n % 10 ^ (k + 1))

theorem digitsFrom_snoc (k n : Nat) : digitsFrom (k + 1) n = digitsFrom k (n / 10) ++ [digit (n % 10)] := by
  induction k generalizing n with
  | zero => rfl
  | succ k ih =>
      have hhigh : n / 10 ^ (k + 2) = n / 10 / 10 ^ (k + 1) := by rw [Nat.div_div_eq_div_mul, pow_succ']
      have hlow : n % 10 ^ (k + 2) / 10 = n / 10 % 10 ^ (k + 1) := by rw [pow_succ' 10 (k + 1), Nat.mod_mul_right_div_self]
      have hlast : n % 10 ^ (k + 2) % 10 = n % 10 := Nat.mod_mod_of_dvd n (dvd_pow_self 10 (by omega))
      rw [digitsFrom, ih, hhigh, hlow, hlast]
      rfl

/-- Without a leading zero they are the numeral. -/
theorem digitsFrom_eq_numeral {k n : Nat} (hlt : n < 10 ^ (k + 1)) (hge : k = 0 ∨ 10 ^ k ≤ n) :
    digitsFrom k n = numeral n := by
  induction k generalizing n with
  | zero => exact (numeral_of_lt (by simpa using hlt)).symm
  | succ k ih =>
      have hge : 10 ^ (k + 1) ≤ n := hge.resolve_left (by omega)
      have hpow : 10 ^ (k + 1) = 10 ^ k * 10 := pow_succ 10 k
      have hpos : 0 < 10 ^ k := by positivity
      rw [digitsFrom_snoc, numeral_of_le (by omega), ih]
      · rw [pow_succ] at hlt
        omega
      · right
        omega

/-! ## The loops -/

theorem checkedInt_of_lt {n : Nat} (h : n < 2 ^ 31) : checkedInt n = some (n : Int) := if_pos (by omega)

theorem le_nine_of_pow_le {k n : Nat} (hn : n < 2 ^ 31) (h : 10 ^ k ≤ n) : k ≤ 9 := by
  by_contra hk
  have hpow : 10 ^ 10 ≤ 10 ^ k := Nat.pow_le_pow_right (by decide) (by omega)
  omega

/-- The first loop stops at the power of the leading digit, without overflow. -/
theorem decimalDiv_spec {n : Nat} (hn : n < 2 ^ 31) {k fuel : Nat} (hge : k = 0 ∨ 10 ^ k ≤ n) (hfuel : 10 ≤ fuel + k) :
    ∃ k', decimalDiv n fuel ((10 ^ k : Nat) : Int) = some ((10 ^ k' : Nat) : Int) ∧ (k' = 0 ∨ 10 ^ k' ≤ n) ∧
      n < 10 ^ (k' + 1) := by
  induction fuel generalizing k with
  | zero =>
      have := le_nine_of_pow_le hn (hge.resolve_left (by omega))
      omega
  | succ fuel ih =>
      have hpos : 0 < 10 ^ k := by positivity
      have hpow : 10 ^ (k + 1) = 10 ^ k * 10 := pow_succ 10 k
      have hdiv : n / 10 ^ k ≥ 10 ↔ 10 ^ (k + 1) ≤ n := by
        rw [ge_iff_le, Nat.le_div_iff_mul_le hpos, hpow, Nat.mul_comm]
      rw [decimalDiv, ← Int.ofNat_tdiv]
      by_cases hten : 10 ^ (k + 1) ≤ n
      · have hnext : ((10 ^ k : Nat) : Int) * 10 = ((10 ^ (k + 1) : Nat) : Int) := by
          rw [hpow]
          push_cast
          rfl
        rw [if_pos (by exact_mod_cast hdiv.mpr hten), hnext, checkedInt_of_lt (by omega), Option.bind_some]
        exact ih (Or.inr hten) (by omega)
      · rw [if_neg (by exact_mod_cast fun h => hten (hdiv.mp h))]
        exact ⟨k, rfl, hge, by omega⟩

theorem ofInt_digit (d : Nat) : BitVec.ofInt 8 (48 + (d : Int)) = digit d := by
  rw [digit, ← BitVec.ofInt_natCast]
  push_cast
  rfl

/-- One turn of the second loop. -/
theorem decimalDigits_succ {k n fuel : Nat} {rest : List Byte}
    (hrest : decimalDigits fuel ((n % 10 ^ k : Nat) : Int) ((10 ^ k / 10 : Nat) : Int) = some rest) :
    decimalDigits (fuel + 1) n ((10 ^ k : Nat) : Int) = some (digit (n / 10 ^ k) :: rest) := by
  have hpos : 10 ^ k ≠ 0 := by positivity
  have hten : ((10 ^ k : Nat) : Int).tdiv 10 = ((10 ^ k / 10 : Nat) : Int) := (Int.ofNat_tdiv _ 10).symm
  rw [decimalDigits, if_pos (by exact_mod_cast hpos), ← Int.ofNat_tmod, ← Int.ofNat_tdiv, hten, hrest, ofInt_digit]
  rfl

/-- The second loop emits the digits from the top. -/
theorem decimalDigits_spec {k n fuel : Nat} (hfuel : k + 1 < fuel) :
    decimalDigits fuel n ((10 ^ k : Nat) : Int) = some (digitsFrom k n) := by
  induction k generalizing n fuel with
  | zero =>
      obtain ⟨fuel, rfl⟩ : ∃ f, fuel = f + 2 := ⟨fuel - 2, by omega⟩
      have hrest : decimalDigits (fuel + 1) ((n % 10 ^ 0 : Nat) : Int) ((10 ^ 0 / 10 : Nat) : Int) = some [] := rfl
      have hturn := decimalDigits_succ hrest
      rwa [pow_zero, Nat.div_one] at hturn
  | succ k ih =>
      obtain ⟨fuel, rfl⟩ : ∃ f, fuel = f + 1 := ⟨fuel - 1, by omega⟩
      have hdown : 10 ^ (k + 1) / 10 = 10 ^ k := by rw [pow_succ, Nat.mul_div_cancel _ (by decide)]
      have hrest : decimalDigits fuel ((n % 10 ^ (k + 1) : Nat) : Int) ((10 ^ k : Nat) : Int) =
          some (digitsFrom k (n % 10 ^ (k + 1))) := ih (by omega)
      rw [← hdown] at hrest
      exact decimalDigits_succ hrest

/-- Both loops on a value that is not negative. -/
theorem printNumeral {n fuel : Nat} (hn : n < 2 ^ 31) (hfuel : 11 ≤ fuel) (sign : List Byte) :
    ((decimalDiv n fuel 1).bind fun div => (decimalDigits fuel n div).map (sign ++ ·)) = some (sign ++ numeral n) := by
  have hten : 10 ≤ fuel + 0 := by omega
  obtain ⟨k, hdiv, hge, hlt⟩ := decimalDiv_spec hn (Or.inl rfl) hten
  have hk : k ≤ 9 := by
    rcases hge with rfl | hge
    · omega
    · exact le_nine_of_pow_le hn hge
  have hone : ((10 ^ 0 : Nat) : Int) = 1 := rfl
  rw [hone] at hdiv
  rw [hdiv, Option.bind_some, decimalDigits_spec (by omega), digitsFrom_eq_numeral hlt hge]
  rfl

/-- **The branch prints the numeral** of every `int` above the least one. -/
theorem printDecimal_spec {num : Int} (hlow : -2 ^ 31 < num) (hhigh : num < 2 ^ 31) {fuel : Nat} (hfuel : 11 ≤ fuel) :
    printDecimal fuel num = some (decimal num) := by
  unfold printDecimal
  by_cases hneg : num < 0
  · obtain ⟨n, rfl, hn⟩ : ∃ n : Nat, num = -n ∧ 0 < n := ⟨num.natAbs, by omega, by omega⟩
    simp only [if_pos hneg, neg_neg, checkedInt_of_lt (show n < 2 ^ 31 by omega), Option.map_some, Option.bind_some]
    rw [printNumeral (by omega) hfuel, decimal_neg hn]
    rfl
  · obtain ⟨n, rfl⟩ : ∃ n : Nat, num = n := ⟨num.toNat, by omega⟩
    simp only [if_neg hneg, Option.bind_some]
    rw [printNumeral (by omega) hfuel, decimal_natCast]
    rfl

/-- More fuel does not change a result. -/
theorem decimalDiv_mono {num div r : Int} {fuel fuel' : Nat} (hle : fuel ≤ fuel')
    (h : decimalDiv num fuel div = some r) : decimalDiv num fuel' div = some r := by
  induction fuel generalizing fuel' div with
  | zero => cases h
  | succ fuel ih =>
      obtain ⟨f, rfl⟩ : ∃ f, fuel' = f + 1 := ⟨fuel' - 1, by omega⟩
      rw [decimalDiv] at h ⊢
      split_ifs at h ⊢ with hten
      · obtain ⟨d, hd, hrest⟩ := Option.bind_eq_some_iff.mp h
        rw [hd, Option.bind_some]
        exact ih (by omega) hrest
      · exact h

theorem decimalDigits_mono {num div : Int} {out : List Byte} {fuel fuel' : Nat} (hle : fuel ≤ fuel')
    (h : decimalDigits fuel num div = some out) : decimalDigits fuel' num div = some out := by
  induction fuel generalizing fuel' num div out with
  | zero => cases h
  | succ fuel ih =>
      obtain ⟨f, rfl⟩ : ∃ f, fuel' = f + 1 := ⟨fuel' - 1, by omega⟩
      rw [decimalDigits] at h ⊢
      split_ifs at h ⊢ with hdiv
      · obtain ⟨rest, hrest, rfl⟩ := Option.map_eq_some_iff.mp h
        rw [ih (by omega) hrest]
        rfl
      · exact h

theorem printDecimal_mono {num : Int} {out : List Byte} {fuel fuel' : Nat} (hle : fuel ≤ fuel')
    (h : printDecimal fuel num = some out) : printDecimal fuel' num = some out := by
  unfold printDecimal at h ⊢
  obtain ⟨⟨sign, n⟩, hsigned, hprint⟩ := Option.bind_eq_some_iff.mp h
  obtain ⟨div, hdiv, hdigits⟩ := Option.bind_eq_some_iff.mp hprint
  obtain ⟨rest, hrest, rfl⟩ := Option.map_eq_some_iff.mp hdigits
  simp only [hsigned, Option.bind_some, decimalDiv_mono hle hdiv, decimalDigits_mono hle hrest, Option.map_some]

theorem printDecimal_of_ne {n : Int32} (h : n ≠ Int32.minValue) {fuel : Nat} (hfuel : 11 ≤ fuel) :
    printDecimal fuel n.toInt = some (decimal n.toInt) := by
  have hlow : n.toInt ≠ -2 ^ 31 := fun hn => h (Int32.toInt_inj.mp (hn.trans Int32.toInt_minValue.symm))
  have hle := n.le_toInt
  exact printDecimal_spec (by omega) n.toInt_lt hfuel

/-- The least `int` has no negation. -/
theorem printDecimal_least (fuel : Nat) : printDecimal fuel Int32.minValue.toInt = none := by
  rw [Int32.toInt_minValue]
  rfl

/-- **The decimal branch** ends without overflow and prints the canonical numeral of every `int` but the least one. -/
theorem printDecimal_iff (n : Int32) :
    (∃ fuel, printDecimal fuel n.toInt = some (decimal n.toInt)) ↔ n ≠ Int32.minValue := by
  constructor
  · rintro ⟨fuel, hprint⟩ rfl
    rw [printDecimal_least] at hprint
    cases hprint
  · intro hne
    exact ⟨11, printDecimal_of_ne hne (le_refl 11)⟩

theorem printDecimal_overflows : ¬ ∃ fuel, printDecimal fuel Int32.minValue.toInt = some (decimal Int32.minValue.toInt) := by
  rintro ⟨fuel, hprint⟩
  rw [printDecimal_least] at hprint
  cases hprint

end Gewodsys.Utl
