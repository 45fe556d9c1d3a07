import Gewodsys.Machine.Mem

/-!
# Bit maps addressed by byte and bit

Bit `i` of the map at `base` is bit `i % 8` of byte `base + i / 8`. `getBit`, `setBit`, `clearBit` are the C
idioms `b & (1 << k)`, `b |= 1 << k`, `b &= ~(1 << k)`; `getBit_setBit` and `getBit_clearBit` give the whole map
after an update, `Frame.setBit` and `Frame.clearBit` the one byte it touches.
-/

namespace Gewodsys.Machine

/-- The mask of bit `i` in its byte. -/
def bitMask (i : Nat) : Byte := 1#8 <<< (i % 8)

/-- Bit `i` of the map at `base` is set. -/
def getBit (m : Mem) (base i : Nat) : Bool := m (base + i / 8) &&& bitMask i != 0#8

/-- `m` with bit `i` of the map at `base` set. -/
def setBit (m : Mem) (base i : Nat) : Mem :=
  Function.update m (base + i / 8) (m (base + i / 8) ||| bitMask i)

/-- `m` with bit `i` of the map at `base` cleared. -/
def clearBit (m : Mem) (base i : Nat) : Mem :=
  Function.update m (base + i / 8) (m (base + i / 8) &&& ~~~ bitMask i)

theorem getLsbD_bitMask (i k : Nat) (hk : k < 8) : (bitMask i).getLsbD k = decide (k = i % 8) := by
  rw [bitMask, BitVec.getLsbD_shiftLeft, BitVec.getLsbD_one]
  by_cases h : k = i % 8
  · subst h
    simp
    omega
  · simp only [hk, decide_true, Bool.true_and, h, decide_false]
    by_cases hlt : k < i % 8
    · simp [hlt]
    · simp [show k - i % 8 ≠ 0 by omega]

theorem getBit_eq_getLsbD (m : Mem) (base i : Nat) : getBit m base i = (m (base + i / 8)).getLsbD (i % 8) := by
  have hi : i % 8 < 8 := Nat.mod_lt _ (by decide)
  rw [getBit, Bool.eq_iff_iff, bne_iff_ne, ne_eq]
  constructor
  · intro h
    by_contra hbit
    apply h
    apply BitVec.eq_of_getLsbD_eq
    intro k hk
    rw [BitVec.getLsbD_and, getLsbD_bitMask i k hk, BitVec.getLsbD_zero]
    by_cases hki : k = i % 8
    · subst hki
      simpa using hbit
    · simp [hki]
  · intro hbit h
    have := congrArg (fun b : Byte => b.getLsbD (i % 8)) h
    simp [BitVec.getLsbD_and, getLsbD_bitMask i (i % 8) hi, hbit] at this

theorem getBit_setBit (m : Mem) (base i j : Nat) :
    getBit (setBit m base i) base j = (decide (j = i) || getBit m base j) := by
  have hj : j % 8 < 8 := Nat.mod_lt _ (by decide)
  rw [getBit_eq_getLsbD, getBit_eq_getLsbD, setBit]
  by_cases hbyte : j / 8 = i / 8
  · rw [hbyte, Function.update_self, BitVec.getLsbD_or, getLsbD_bitMask i (j % 8) hj, Bool.or_comm]
    congr 1
    exact decide_eq_decide.mpr ⟨fun h => by omega, fun h => by rw [h]⟩
  · rw [Function.update_of_ne (by omega)]
    simp [show j ≠ i by rintro rfl; exact hbyte rfl]

theorem getBit_clearBit (m : Mem) (base i j : Nat) :
    getBit (clearBit m base i) base j = (!decide (j = i) && getBit m base j) := by
  have hj : j % 8 < 8 := Nat.mod_lt _ (by decide)
  rw [getBit_eq_getLsbD, getBit_eq_getLsbD, clearBit]
  by_cases hbyte : j / 8 = i / 8
  · rw [hbyte, Function.update_self, BitVec.getLsbD_and, BitVec.getLsbD_not, getLsbD_bitMask i (j % 8) hj,
      Bool.and_comm]
    simp only [hj, decide_true, Bool.true_and]
    congr 2
    exact decide_eq_decide.mpr ⟨fun h => by omega, fun h => by rw [h]⟩
  · rw [Function.update_of_ne (by omega)]
    simp [show j ≠ i by rintro rfl; exact hbyte rfl]

theorem Frame.setBit (m : Mem) (base i : Nat) : Frame m (setBit m base i) (fun x => x = base + i / 8) :=
  fun _ hx => Function.update_of_ne hx _ _

theorem Frame.clearBit (m : Mem) (base i : Nat) : Frame m (clearBit m base i) (fun x => x = base + i / 8) :=
  fun _ hx => Function.update_of_ne hx _ _

/-- A bit depends on its byte only. -/
theorem getBit_congr {m m' : Mem} {base i : Nat} (h : m (base + i / 8) = m' (base + i / 8)) :
    getBit m base i = getBit m' base i := by
  rw [getBit, getBit, h]

end Gewodsys.Machine
