import Gewodsys.Machine.Mem

/-!
# `lib/memory.c`

* `rtZeroMemory` is the byte loop of `RtZeroMemory`; `rtZeroMemory_apply` reads the result;
* `rtCopyMemory` is the byte loop of `RtCopyMemory`; `rtCopyMemory_apply` reads it where the ranges are apart,
  `rtCopyMemory_down` and `rtCopyMemory_up` where they may overlap;
* `memmove_iff` : `memmove` moves the bytes if and only if none is overwritten before it is read.
-/

namespace Gewodsys.Lib
open Gewodsys.Machine

/-- `for (i = 0; i < size; i++) ptr[i] = 0`. -/
def rtZeroMemory (m : Mem) (address : Nat) : Nat → Mem
  | 0 => m
  | size + 1 => Function.update (rtZeroMemory m address size) (address + size) 0

theorem rtZeroMemory_apply (m : Mem) (address size x : Nat) :
    rtZeroMemory m address size x = if address ≤ x ∧ x < address + size then 0 else m x := by
  induction size with
  | zero => rw [rtZeroMemory, if_neg (by omega)]
  | succ size ih =>
      rw [rtZeroMemory]
      by_cases hx : x = address + size
      · subst hx
        rw [Function.update_self, if_pos (by omega)]
      · rw [Function.update_of_ne hx, ih]
        by_cases h : address ≤ x ∧ x < address + size
        · rw [if_pos h, if_pos (by omega)]
        · rw [if_neg h, if_neg (by omega)]

theorem frame_rtZeroMemory (m : Mem) (address size : Nat) :
    Frame m (rtZeroMemory m address size) (fun x => address ≤ x ∧ x < address + size) :=
  fun x hx => by rw [rtZeroMemory_apply, if_neg hx]

/-- A word inside the cleared range reads zero. -/
theorem read_rtZeroMemory (m : Mem) {address size a n : Nat} (h1 : address ≤ a) (h2 : a + n ≤ address + size) :
    (rtZeroMemory m address size).read a n = 0 := by
  induction n generalizing a with
  | zero => rfl
  | succ n ih =>
      rw [Mem.read, rtZeroMemory_apply, if_pos (by omega), ih (by omega) (by omega)]
      rfl

/-- `for (i = 0; i < size; i++) dest[i] = src[i]`. -/
def rtCopyMemory (m : Mem) (destination source : Nat) : Nat → Mem
  | 0 => m
  | size + 1 =>
      let m' := rtCopyMemory m destination source size
      Function.update m' (destination + size) (m' (source + size))

/-- Bytes outside the destination are kept. -/
theorem frame_rtCopyMemory (m : Mem) (destination source size : Nat) :
    Frame m (rtCopyMemory m destination source size) (fun x => destination ≤ x ∧ x < destination + size) := by
  induction size with
  | zero => exact Frame.refl _ _
  | succ size ih =>
      intro x hx
      rw [rtCopyMemory, Function.update_of_ne (by omega)]
      exact ih x (by omega)

/-- A copy between ranges that are apart. -/
theorem rtCopyMemory_apply (m : Mem) {destination source size i : Nat} (hi : i < size)
    (hapart : source + size ≤ destination ∨ destination + size ≤ source) :
    rtCopyMemory m destination source size (destination + i) = m (source + i) := by
  induction size with
  | zero => omega
  | succ size ih =>
      rw [rtCopyMemory]
      by_cases h : i = size
      · subst h
        rw [Function.update_self]
        exact frame_rtCopyMemory m destination source i (source + i) (by omega)
      · rw [Function.update_of_ne (by omega)]
        exact ih (by omega) (by omega)

/-- A copy to lower addresses reads every byte before it is overwritten. -/
theorem rtCopyMemory_down (m : Mem) {destination source size i : Nat} (hi : i < size) (hle : destination ≤ source) :
    rtCopyMemory m destination source size (destination + i) = m (source + i) := by
  induction size with
  | zero => omega
  | succ size ih =>
      rw [rtCopyMemory]
      by_cases h : i = size
      · subst h
        rw [Function.update_self]
        exact frame_rtCopyMemory m destination source i (source + i) (by omega)
      · rw [Function.update_of_ne (by omega)]
        exact ih (by omega)

/-- A copy by `d` bytes up repeats the first `d` bytes. -/
theorem rtCopyMemory_up (m : Mem) {source d size i : Nat} (hi : i < size) (hd : 0 < d) :
    rtCopyMemory m (source + d) source size (source + d + i) = m (source + i % d) := by
  induction size generalizing i with
  | zero => omega
  | succ size ih =>
      rw [rtCopyMemory]
      by_cases h : i = size
      · subst h
        rw [Function.update_self]
        by_cases hlt : i < d
        · rw [Nat.mod_eq_of_lt hlt]
          exact frame_rtCopyMemory m (source + d) source i (source + i) (by omega)
        · -- the byte read was written `d` steps before
          have hback := ih (i := i - d) (by omega)
          rwa [show source + d + (i - d) = source + i by omega, ← Nat.mod_eq_sub_mod (by omega)] at hback
      · rw [Function.update_of_ne (by omega)]
        exact ih (by omega)

/-! ## `memmove` -/

/-- `memmove`: what it returns and the memory it leaves. -/
def memmove (m : Mem) (dest source size : Nat) : Nat × Mem := (dest, rtCopyMemory m dest source size)

/-- The bytes of the source are in the destination, and no other byte changed. -/
structure MoveOk (m : Mem) (dest source size : Nat) : Prop where
  result : (memmove m dest source size).1 = dest
  moved : ∀ i < size, (memmove m dest source size).2 (dest + i) = m (source + i)
  frame : Frame m (memmove m dest source size).2 fun x => dest ≤ x ∧ x < dest + size

/-- **`memmove`** copies upwards, which is right if and only if the destination starts at or below the source, or every
byte of the source that lies in the destination already has the value that is moved there. -/
theorem memmove_iff (m : Mem) (dest source size : Nat) :
    MoveOk m dest source size ↔ dest ≤ source ∨ ∀ i, dest + i < source + size → m (dest + i) = m (source + i) := by
  have hframe := frame_rtCopyMemory m dest source size
  by_cases hle : dest ≤ source
  · have hmoved : MoveOk m dest source size := ⟨rfl, fun i hi => rtCopyMemory_down m hi hle, hframe⟩
    exact ⟨fun _ => Or.inl hle, fun _ => hmoved⟩
  · obtain ⟨d, hd, rfl⟩ : ∃ d, 0 < d ∧ dest = source + d := ⟨dest - source, by omega, by omega⟩
    constructor
    · rintro ⟨-, hmoved, -⟩
      refine Or.inr fun i hi => ?_
      have hfirst := (rtCopyMemory_up m (show i < size by omega) hd).symm.trans (hmoved i (by omega))
      have hsecond := (rtCopyMemory_up m (show i + d < size by omega) hd).symm.trans (hmoved (i + d) (by omega))
      rw [Nat.add_mod_right] at hsecond
      rw [show source + d + i = source + (i + d) by omega]
      exact hsecond.symm.trans hfirst
    · intro h
      have hrepeat := h.resolve_left hle
      refine ⟨rfl, fun i hi => (rtCopyMemory_up m hi hd).trans ?_, hframe⟩
      -- from `i` down to its remainder, `d` bytes at a time
      induction i using Nat.strong_induction_on with
      | _ i ih =>
          by_cases hlt : i < d
          · rw [Nat.mod_eq_of_lt hlt]
          · rw [Nat.mod_eq_sub_mod (by omega), ih (i - d) (by omega) (by omega)]
            have hstep := hrepeat (i - d) (by omega)
            rw [show source + d + (i - d) = source + i by omega] at hstep
            exact hstep.symm

/-- Three bytes `1, 2, 3`: moved up by one, the first is repeated. -/
theorem memmove_repeats : ¬ MoveOk (Mem.write (fun _ => 0) 0x1000 3 0x030201) 0x1001 0x1000 2 := by
  rintro ⟨-, hmoved, -⟩
  exact absurd (hmoved 1 (by decide)) (by decide)

end Gewodsys.Lib
