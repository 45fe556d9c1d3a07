import Mathlib

/-!
# Laps of a ring

A ring of `L` slots is filled again and again: element `n` goes to slot `n % L` in lap `n / L`, and carries a bit that
flips with every lap.

* `mod_succ`, `div_succ` : the slot and the lap of the next element;
* `lapBit L n` : the bit of element `n`; `lapBit_succ`, `lapBit_add`, `lapBit_eq_one_iff`.
-/

namespace Gewodsys.Machine

variable {L n : Nat}

theorem mod_succ (hL : 0 < L) : (n + 1) % L = if n % L + 1 = L then 0 else n % L + 1 := by
  have hlt := Nat.mod_lt n hL
  rw [Nat.add_mod]
  split_ifs with h
  · rcases Nat.lt_or_ge 1 L with h1 | h1
    · rw [Nat.mod_eq_of_lt h1, h, Nat.mod_self]
    · rw [show L = 1 by omega, Nat.mod_one]
  · rw [Nat.mod_eq_of_lt (show 1 < L by omega), Nat.mod_eq_of_lt (by omega)]

theorem div_succ (hL : 0 < L) : (n + 1) / L = if n % L + 1 = L then n / L + 1 else n / L := by
  have hn := Nat.div_add_mod n L
  have hlt := Nat.mod_lt n hL
  split_ifs with h
  · rw [show n + 1 = L * (n / L + 1) by rw [Nat.mul_add]; omega, Nat.mul_div_cancel_left _ hL]
  · rw [show n + 1 = n % L + 1 + L * (n / L) by omega, Nat.add_mul_div_left _ _ hL,
      Nat.div_eq_of_lt (by omega), Nat.zero_add]

/-- The bit that element `n` carries: `1` in the first lap, flipped in every further one. -/
def lapBit (L n : Nat) : Nat := (n / L + 1) % 2

theorem lapBit_eq_one_iff : lapBit L n = 1 ↔ Even (n / L) := by
  rw [lapBit, Nat.even_iff]
  omega

theorem lapBit_lt : lapBit L n < 2 := Nat.mod_lt _ (by decide)

theorem lapBit_succ (hL : 0 < L) : lapBit L (n + 1) = if n % L + 1 = L then 1 - lapBit L n else lapBit L n := by
  unfold lapBit
  rw [div_succ hL]
  split_ifs <;> omega

/-- One lap later the bit is the other one. -/
theorem lapBit_add (hL : 0 < L) : lapBit L (n + L) = 1 - lapBit L n := by
  unfold lapBit
  rw [Nat.add_div_right n hL]
  omega

theorem lapBit_of_lt (h : n < L) : lapBit L n = 1 := by
  rw [lapBit, Nat.div_eq_of_lt h]

/-- Two elements less than a lap apart are in one slot only when they are the same. -/
theorem eq_of_mod_eq {i j : Nat} (hij : i ≤ j) (hlt : j < i + L) (h : i % L = j % L) : i = j := by
  have hd : L ∣ j - i := (Nat.modEq_iff_dvd' hij).mp h
  have := Nat.eq_zero_of_dvd_of_lt hd (by omega)
  omega

end Gewodsys.Machine
