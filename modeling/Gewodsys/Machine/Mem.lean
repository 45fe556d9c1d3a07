import Gewodsys.Machine.Word

/-!
# Byte memory

* `Mem.read`, `Mem.write` : little-endian words of `n` bytes at any byte address;
* the read-over-write laws `Mem.read_write` and `Mem.read_write_of_disjoint`; `Mem.read_add`, `Mem.write_add`;
* `Frame m m' W` : every byte outside the set `W` is the same in `m` and `m'`; `Frame.trans`, `Frame.mono`,
  `Frame.write`, `Frame.read`.
-/

namespace Gewodsys.Machine

abbrev Byte := BitVec 8

/-- A memory: a byte for every address. -/
abbrev Mem := Nat → Byte

/-- The little-endian word of `n` bytes at `a`. -/
def Mem.read (m : Mem) (a : Nat) : Nat → Nat
  | 0 => 0
  | n + 1 => (m a).toNat + 256 * m.read (a + 1) n

/-- Store the low `n` bytes of `v` little-endian at `a`. -/
def Mem.write (m : Mem) (a n v : Nat) : Mem := fun x =>
  if a ≤ x ∧ x < a + n then BitVec.ofNat 8 (v / 256 ^ (x - a)) else m x

theorem Mem.write_apply_of_not_mem (m : Mem) {a n x : Nat} (v : Nat) (h : x < a ∨ a + n ≤ x) :
    m.write a n v x = m x := by
  rw [Mem.write, if_neg (by omega)]

theorem Mem.read_congr {m m' : Mem} {a n : Nat} (h : ∀ x, a ≤ x → x < a + n → m x = m' x) :
    m.read a n = m'.read a n := by
  induction n generalizing a with
  | zero => rfl
  | succ n ih =>
      rw [Mem.read, Mem.read, h a (le_refl a) (by omega), ih (fun x h1 h2 => h x (by omega) (by omega))]

theorem Mem.read_lt (m : Mem) (a n : Nat) : m.read a n < 256 ^ n := by
  induction n generalizing a with
  | zero => exact Nat.one_pos
  | succ n ih =>
      have hb : (m a).toNat < 256 := (m a).isLt
      have ht := ih (a + 1)
      rw [Mem.read, pow_succ]
      omega

/-- The bytes of `v` from byte `k` on, read back. -/
theorem Mem.read_write_suffix (m : Mem) (a n v : Nat) :
    ∀ j k, k + j = n → (m.write a n v).read (a + k) j = v / 256 ^ k % 256 ^ j := by
  intro j
  induction j with
  | zero => intro k _; simp [Mem.read, Nat.mod_one]
  | succ j ih =>
      intro k hk
      have hbyte : (m.write a n v (a + k)).toNat = v / 256 ^ k % 256 := by
        rw [Mem.write, if_pos (by omega), BitVec.toNat_ofNat, show a + k - a = k by omega]
      rw [Mem.read, hbyte, show a + k + 1 = a + (k + 1) by omega, ih (k + 1) (by omega), pow_succ 256 k,
        ← Nat.div_div_eq_div_mul, pow_succ' 256 j, Nat.mod_mul]

@[simp] theorem Mem.read_write (m : Mem) (a n v : Nat) : (m.write a n v).read a n = v % 256 ^ n := by
  have h := m.read_write_suffix a n v n 0 (Nat.zero_add n)
  simpa using h

theorem Mem.read_write_of_disjoint (m : Mem) {a n b k : Nat} (v : Nat) (h : a + n ≤ b ∨ b + k ≤ a) :
    (m.write b k v).read a n = m.read a n :=
  Mem.read_congr fun x h1 h2 => m.write_apply_of_not_mem v (by omega)

/-- A word of `n + k` bytes is a word of `n` bytes and one of `k` bytes above it. -/
theorem Mem.read_add (m : Mem) (a n k : Nat) : m.read a (n + k) = m.read a n + 256 ^ n * m.read (a + n) k := by
  induction n generalizing a with
  | zero => rw [Nat.zero_add, Mem.read, pow_zero, Nat.one_mul, Nat.zero_add, Nat.add_zero]
  | succ n ih =>
      rw [Nat.add_right_comm, Mem.read, ih, Mem.read, show a + 1 + n = a + (n + 1) by omega, pow_succ]
      ring

/-- The bytes of a word. -/
theorem Mem.ofNat_read (m : Mem) (a : Nat) {n k : Nat} (hk : k < n) :
    BitVec.ofNat 8 (m.read a n / 256 ^ k) = m (a + k) := by
  obtain ⟨j, rfl⟩ : ∃ j, n = k + (j + 1) := ⟨n - k - 1, by omega⟩
  have hlow := m.read_lt a k
  have hbyte := (m (a + k)).isLt
  rw [Mem.read_add, Nat.add_mul_div_left _ _ (by positivity), Nat.div_eq_of_lt hlow, Nat.zero_add, Mem.read]
  apply BitVec.eq_of_toNat_eq
  rw [BitVec.toNat_ofNat]
  omega

theorem Mem.read_eq_zero_iff (m : Mem) (a n : Nat) : m.read a n = 0 ↔ ∀ k < n, m (a + k) = 0 := by
  constructor
  · intro hzero k hk
    rw [← m.ofNat_read a hk, hzero, Nat.zero_div]
    rfl
  · intro hbytes
    induction n generalizing a with
    | zero => rfl
    | succ n ih =>
        have htail : m.read (a + 1) n = 0 := ih (a + 1) fun k hk => by
          rw [Nat.add_assoc, Nat.add_comm 1]
          exact hbytes (k + 1) (by omega)
        have hbyte : m a = 0 := hbytes 0 (by omega)
        rw [Mem.read, htail, hbyte]
        rfl

/-- A store of `n + k` bytes is a store of the low `n` bytes and one of the others above them. -/
theorem Mem.write_add (m : Mem) (a n k v : Nat) :
    (m.write a n v).write (a + n) k (v / 256 ^ n) = m.write a (n + k) v := by
  funext x
  simp only [Mem.write]
  by_cases hhigh : a + n ≤ x ∧ x < a + n + k
  · rw [if_pos hhigh, if_pos (by omega), Nat.div_div_eq_div_mul, ← pow_add, show n + (x - (a + n)) = x - a by omega]
  · rw [if_neg hhigh]
    by_cases hlow : a ≤ x ∧ x < a + n
    · rw [if_pos hlow, if_pos (by omega)]
    · rw [if_neg hlow, if_neg (by omega)]

/-- Only the low `n` bytes of a value are stored. -/
theorem Mem.write_mod (m : Mem) (a n v : Nat) : m.write a n (v % 256 ^ n) = m.write a n v := by
  funext x
  simp only [Mem.write]
  by_cases h : a ≤ x ∧ x < a + n
  · have hpow : 256 ^ n = 256 ^ (x - a) * 256 ^ (n - (x - a)) := by rw [← pow_add, Nat.add_sub_cancel' (by omega)]
    have hpos : 256 ∣ 256 ^ (n - (x - a)) := dvd_pow_self 256 (by omega)
    rw [if_pos h, if_pos h]
    apply BitVec.eq_of_toNat_eq
    rw [BitVec.toNat_ofNat, BitVec.toNat_ofNat, hpow, Nat.mod_mul_right_div_self]
    exact Nat.mod_mod_of_dvd _ hpos
  · rw [if_neg h, if_neg h]

/-- A second store to the same place is the only one that counts. -/
theorem Mem.write_write (m : Mem) (a n v v' : Nat) : (m.write a n v).write a n v' = m.write a n v' := by
  funext x
  by_cases h : a ≤ x ∧ x < a + n
  · simp only [Mem.write, if_pos h]
  · simp only [Mem.write, if_neg h]

/-! ## Words of one, four and eight bytes -/

abbrev Mem.read8 (m : Mem) (a : Nat) : Nat := m.read a 1
abbrev Mem.read32 (m : Mem) (a : Nat) : Nat := m.read a 4
abbrev Mem.read64 (m : Mem) (a : Nat) : Nat := m.read a 8
abbrev Mem.write8 (m : Mem) (a v : Nat) : Mem := m.write a 1 v
abbrev Mem.write32 (m : Mem) (a v : Nat) : Mem := m.write a 4 v
abbrev Mem.write64 (m : Mem) (a v : Nat) : Mem := m.write a 8 v

theorem Mem.read64_lt (m : Mem) (a : Nat) : m.read64 a < 2 ^ 64 := m.read_lt a 8

/-! ## Frames -/

/-- Every byte outside `W` is unchanged from `m` to `m'`. -/
def Frame (m m' : Mem) (W : Nat → Prop) : Prop := ∀ x, ¬ W x → m' x = m x

theorem Frame.refl (m : Mem) (W : Nat → Prop) : Frame m m W := fun _ _ => rfl

theorem Frame.trans {m₁ m₂ m₃ : Mem} {W : Nat → Prop} (h₁ : Frame m₁ m₂ W) (h₂ : Frame m₂ m₃ W) :
    Frame m₁ m₃ W := fun x hx => (h₂ x hx).trans (h₁ x hx)

theorem Frame.mono {m m' : Mem} {W W' : Nat → Prop} (h : Frame m m' W) (hW : ∀ x, W x → W' x) :
    Frame m m' W' := fun x hx => h x fun hw => hx (hW x hw)

theorem Frame.write (m : Mem) (a n v : Nat) : Frame m (m.write a n v) (fun x => a ≤ x ∧ x < a + n) :=
  fun _ hx => m.write_apply_of_not_mem v (by omega)

theorem Frame.read {m m' : Mem} {W : Nat → Prop} (h : Frame m m' W) {a n : Nat}
    (hn : ∀ x, a ≤ x → x < a + n → ¬ W x) : m'.read a n = m.read a n :=
  Mem.read_congr fun x h1 h2 => h x (hn x h1 h2)

end Gewodsys.Machine
