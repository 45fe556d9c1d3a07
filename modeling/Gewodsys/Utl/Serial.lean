import Gewodsys.Utl.Decimal

/-!
# `ComPrint` (`utl/serial.c`)

The output is the list of the characters handed to `ComPutChar`. An argument has its C type; to read one that is not there,
or one of another type, is undefined and gives `none`.

* `comPrint` : the scanner, with fuel for its loops;
* `Item`, `format` : format strings made of literals and directives; `Emits` : what they render to, argument by argument;
* `taken` : the items that the scanner takes a format for, `prints_iff`;
* `comPrint_iff` : the scanner renders the format if and only if every `%%` stands before the end or a character that is no
  directive letter, and `%d` is not given the least `int`.
-/

namespace Gewodsys.Utl
open Gewodsys.Machine

/-- An argument behind the format. -/
inductive VaArg where
  | int (v : Int32)
  | uint64 (v : UInt64)
  | pointer (p : Nat)
deriving DecidableEq

/-! ## The scanner -/

/-- `"0123456789ABCDEF"[i]`. -/
def hexChar (i : Nat) : Byte := if i < 10 then BitVec.ofNat 8 (48 + i) else BitVec.ofNat 8 (55 + i)

/-- `for (i = 4 * (n - 1); i >= 0; i -= 4)` over the digits of `num >> i`, a signed shift or an unsigned one. -/
def printHex {w : Nat} (shift : BitVec w → Nat → BitVec w) (num : BitVec w) : Nat → List Byte
  | 0 => []
  | n + 1 => hexChar (shift num (4 * n) &&& 0xF).toNat :: printHex shift num n

/-- `for (; *s; s++) ComPutChar(*s)`. -/
def printString (m : Mem) : Nat → Nat → Option (List Byte)
  | 0, _ => none
  | fuel + 1, s => if m s = 0 then some [] else (printString m fuel (s + 1)).map (m s :: ·)

/-- The inner `switch`, with `string` behind the `%`: what is printed, `string` and the arguments that are left. -/
def comPrintDirective (m : Mem) (fuel string : Nat) (args : List VaArg) : Option (List Byte × Nat × List VaArg) :=
  if m string = code 's' then
    match args with
    | .pointer s :: args => (printString m fuel s).map fun out => (out, string + 1, args)
    | _ => none
  else if m string = code 'c' then
    match args with
    | .int c :: args => some ([c.toBitVec.setWidth 8], string + 1, args)
    | _ => none
  else if m string = code 'd' then
    match args with
    | .int num :: args => (printDecimal fuel num.toInt).map fun out => (out, string + 1, args)
    | _ => none
  else if m string = code 'x' then
    match args with
    | .int num :: args => some (printHex BitVec.sshiftRight num.toBitVec 8, string + 1, args)
    | _ => none
  else if m string = code 'X' then
    match args with
    | .uint64 num :: args => some (printHex BitVec.ushiftRight num.toBitVec 16, string + 1, args)
    | _ => none
  -- `case '%'` does not move `string`
  else if m string = code '%' then some ([code '%'], string, args)
  else some ([], string, args)

/-- `ComPrint` from `string` on: what is printed and the arguments that are left. -/
def comPrint (m : Mem) : Nat → Nat → List VaArg → Option (List Byte × List VaArg)
  | 0, _, _ => none
  | fuel + 1, string, args =>
      if m string = 0 then some ([], args)
      else if m string = code '%' then
        (comPrintDirective m fuel (string + 1) args).bind fun (out, string, args) =>
          (comPrint m fuel string args).map fun r => (out ++ r.1, r.2)
      else (comPrint m fuel (string + 1) args).map fun r => (m string :: r.1, r.2)

/-! ## Formats -/

/-- The directives that take an argument. -/
inductive Kind where
  | s | c | d | x | X
deriving DecidableEq, Repr

def Kind.letter : Kind → Byte
  | .s => code 's'
  | .c => code 'c'
  | .d => code 'd'
  | .x => code 'x'
  | .X => code 'X'

theorem letter_ne (k : Kind) : k.letter ≠ 0 ∧ k.letter ≠ code '%' := by
  cases k <;> decide

/-- The kind of directive that a letter stands for. -/
def kindOf (c : Byte) : Option Kind := [Kind.s, .c, .d, .x, .X].find? fun k => k.letter = c

inductive Item where
  | literal (c : Byte)
  | directive (k : Kind)
  | percent
deriving DecidableEq, Repr

def Item.bytes : Item → List Byte
  | .literal c => [c]
  | .directive k => [code '%', k.letter]
  | .percent => [code '%', code '%']

/-- A literal is neither NUL nor `%`. -/
def Item.Valid : Item → Prop
  | .literal c => c ≠ 0 ∧ c ≠ code '%'
  | _ => True

def format (items : List Item) : List Byte := items.flatMap Item.bytes

/-- The NUL-terminated string `bs` at `a`. -/
def StringAt (m : Mem) : Nat → List Byte → Prop
  | a, [] => m a = 0
  | a, b :: bs => m a = b ∧ b ≠ 0 ∧ StringAt m (a + 1) bs

/-! ## Rendering -/

/-- The last `n` hexadecimal digits of a number, from the top. -/
def hexNumeral (n v : Nat) : List Byte := (List.range n).reverse.map fun i => hexChar (v / 16 ^ i % 16)

/-- What a directive renders of its argument. -/
inductive Rendered (m : Mem) : Kind → VaArg → List Byte → Prop where
  | string {p : Nat} {bs : List Byte} (h : StringAt m p bs) : Rendered m .s (.pointer p) bs
  | char (v : Int32) : Rendered m .c (.int v) [v.toBitVec.setWidth 8]
  | decimal (v : Int32) : Rendered m .d (.int v) (decimal v.toInt)
  | hex (v : Int32) : Rendered m .x (.int v) (hexNumeral 8 v.toBitVec.toNat)
  | hex64 (v : UInt64) : Rendered m .X (.uint64 v) (hexNumeral 16 v.toNat)

/-- The items with the arguments `args` render to `out` and leave the arguments `rest`; `conv` renders a directive. -/
inductive Emits (conv : Kind → VaArg → List Byte → Prop) : List Item → List VaArg → List Byte → List VaArg → Prop where
  | done (args : List VaArg) : Emits conv [] args [] args
  | literal (c : Byte) {items : List Item} {args rest : List VaArg} {out : List Byte}
      (h : Emits conv items args out rest) : Emits conv (.literal c :: items) args (c :: out) rest
  | percent {items : List Item} {args rest : List VaArg} {out : List Byte}
      (h : Emits conv items args out rest) : Emits conv (.percent :: items) args (code '%' :: out) rest
  | directive {k : Kind} {a : VaArg} {bs : List Byte} (hconv : conv k a bs) {items : List Item}
      {args rest : List VaArg} {out : List Byte} (h : Emits conv items args out rest) :
      Emits conv (.directive k :: items) (a :: args) (bs ++ out) rest

/-! ## Hexadecimal digits -/

/-- Inside the word a signed shift brings down the same digit as an unsigned one. -/
theorem nibble_sshiftRight {w : Nat} (num : BitVec w) {k : Nat} (h : k + 4 ≤ w) :
    num.sshiftRight k &&& 0xF = num.ushiftRight k &&& 0xF := by
  apply BitVec.eq_of_getLsbD_eq
  intro i hi
  rw [BitVec.getLsbD_and, BitVec.getLsbD_and, BitVec.ushiftRight_eq, BitVec.getLsbD_ushiftRight,
    BitVec.getLsbD_sshiftRight]
  by_cases h4 : i < 4
  · rw [if_pos (by omega), decide_eq_false (by omega)]
    rfl
  · have hmask : (0xF : BitVec w).getLsbD i = false := by
      change (BitVec.ofNat w 0xF).getLsbD i = false
      rw [BitVec.getLsbD_ofNat, Nat.testBit_lt_two_pow, Bool.and_false]
      exact lt_of_lt_of_le (by decide : 15 < 2 ^ 4) (Nat.pow_le_pow_right (by decide) (by omega))
    rw [hmask, Bool.and_false, Bool.and_false]

theorem toNat_nibble {w : Nat} (num : BitVec w) {n : Nat} (h : 4 * n + 4 ≤ w) :
    (num.ushiftRight (4 * n) &&& 0xF).toNat = num.toNat / 16 ^ n % 16 := by
  have hmask : (0xF : BitVec w).toNat = 2 ^ 4 - 1 := by
    change (BitVec.ofNat w 0xF).toNat = 2 ^ 4 - 1
    rw [BitVec.toNat_ofNat]
    exact Nat.mod_eq_of_lt (lt_of_lt_of_le (by decide : 15 < 2 ^ 4) (Nat.pow_le_pow_right (by decide) (by omega)))
  have hpow : 2 ^ (4 * n) = 16 ^ n := by rw [pow_mul]; rfl
  rw [BitVec.toNat_and, hmask, Nat.and_two_pow_sub_one_eq_mod, BitVec.ushiftRight_eq, BitVec.toNat_ushiftRight,
    Nat.shiftRight_eq_div_pow, hpow]

theorem printHex_unsigned {w : Nat} (num : BitVec w) {n : Nat} (h : 4 * n ≤ w) :
    printHex BitVec.ushiftRight num n = hexNumeral n num.toNat := by
  induction n with
  | zero => rfl
  | succ n ih =>
      rw [printHex, ih (by omega), toNat_nibble num (by omega), hexNumeral, hexNumeral, List.range_succ,
        List.reverse_concat, List.map_cons]

theorem printHex_signed {w : Nat} (num : BitVec w) {n : Nat} (h : 4 * n ≤ w) :
    printHex BitVec.sshiftRight num n = hexNumeral n num.toNat := by
  rw [← printHex_unsigned num h]
  induction n with
  | zero => rfl
  | succ n ih => rw [printHex, printHex, ih (by omega), nibble_sshiftRight num (by omega)]

/-! ## A directive -/

/-- What the code of a directive prints of its argument. -/
def convert (m : Mem) (fuel : Nat) : Kind → VaArg → Option (List Byte)
  | .s, .pointer s => printString m fuel s
  | .c, .int c => some [c.toBitVec.setWidth 8]
  | .d, .int num => printDecimal fuel num.toInt
  | .x, .int num => some (printHex BitVec.sshiftRight num.toBitVec 8)
  | .X, .uint64 num => some (printHex BitVec.ushiftRight num.toBitVec 16)
  | _, _ => none

variable {m : Mem} {fuel fuel' string : Nat} {args rest : List VaArg} {out : List Byte}

theorem comPrintDirective_letter {k : Kind} (h : m string = k.letter) :
    comPrintDirective m fuel string args =
      match args with
      | [] => none
      | a :: args => (convert m fuel k a).map fun out => (out, string + 1, args) := by
  unfold comPrintDirective
  rw [h]
  cases k with
  | s =>
      rw [if_pos (by decide)]
      rcases args with _ | ⟨_ | _ | _, args⟩ <;> rfl
  | c =>
      rw [if_neg (by decide), if_pos (by decide)]
      rcases args with _ | ⟨_ | _ | _, args⟩ <;> rfl
  | d =>
      rw [if_neg (by decide), if_neg (by decide), if_pos (by decide)]
      rcases args with _ | ⟨_ | _ | _, args⟩ <;> rfl
  | x =>
      rw [if_neg (by decide), if_neg (by decide), if_neg (by decide), if_pos (by decide)]
      rcases args with _ | ⟨_ | _ | _, args⟩ <;> rfl
  | X =>
      rw [if_neg (by decide), if_neg (by decide), if_neg (by decide), if_neg (by decide), if_pos (by decide)]
      rcases args with _ | ⟨_ | _ | _, args⟩ <;> rfl

theorem comPrintDirective_other (h : ∀ k : Kind, m string ≠ k.letter) :
    comPrintDirective m fuel string args =
      some (if m string = code '%' then [code '%'] else [], string, args) := by
  have hs : m string ≠ code 's' := h .s
  have hc : m string ≠ code 'c' := h .c
  have hd : m string ≠ code 'd' := h .d
  have hx : m string ≠ code 'x' := h .x
  have hX : m string ≠ code 'X' := h .X
  unfold comPrintDirective
  rw [if_neg hs, if_neg hc, if_neg hd, if_neg hx, if_neg hX]
  split_ifs <;> rfl

/-! ## Fuel -/

theorem printString_mono {s : Nat} (hle : fuel ≤ fuel') (h : printString m fuel s = some out) :
    printString m fuel' s = some out := by
  induction fuel generalizing fuel' s out with
  | zero => cases h
  | succ fuel ih =>
      obtain ⟨f, rfl⟩ : ∃ f, fuel' = f + 1 := ⟨fuel' - 1, by omega⟩
      rw [printString] at h ⊢
      split_ifs at h ⊢ with h0
      · exact h
      · obtain ⟨o, ho, rfl⟩ := Option.map_eq_some_iff.mp h
        rw [ih (by omega) ho]
        rfl

theorem convert_mono {k : Kind} {a : VaArg} (hle : fuel ≤ fuel') (h : convert m fuel k a = some out) :
    convert m fuel' k a = some out := by
  cases k <;> cases a <;> first
    | exact h
    | exact printString_mono hle h
    | exact printDecimal_mono hle h

theorem comPrintDirective_mono {r : List Byte × Nat × List VaArg} (hle : fuel ≤ fuel')
    (h : comPrintDirective m fuel string args = some r) : comPrintDirective m fuel' string args = some r := by
  by_cases hletter : ∃ k : Kind, m string = k.letter
  · obtain ⟨k, hk⟩ := hletter
    rw [comPrintDirective_letter hk] at h ⊢
    cases args with
    | nil => exact h
    | cons a args =>
        obtain ⟨o, ho, rfl⟩ := Option.map_eq_some_iff.mp h
        simp only [convert_mono hle ho, Option.map_some]
  · push Not at hletter
    rwa [comPrintDirective_other hletter] at h ⊢

theorem comPrint_mono {r : List Byte × List VaArg} (hle : fuel ≤ fuel') (h : comPrint m fuel string args = some r) :
    comPrint m fuel' string args = some r := by
  induction fuel generalizing fuel' string args r with
  | zero => cases h
  | succ fuel ih =>
      obtain ⟨f, rfl⟩ : ∃ f, fuel' = f + 1 := ⟨fuel' - 1, by omega⟩
      rw [comPrint] at h ⊢
      split_ifs at h ⊢ with h0 hpercent
      · exact h
      · obtain ⟨⟨o, s, rest⟩, hdir, hrest⟩ := Option.bind_eq_some_iff.mp h
        obtain ⟨r', hr', rfl⟩ := Option.map_eq_some_iff.mp hrest
        have hmono := ih (show fuel ≤ f by omega) hr'
        rw [comPrintDirective_mono (by omega) hdir, Option.bind_some]
        simp only [hmono, Option.map_some]
      · obtain ⟨r', hr', rfl⟩ := Option.map_eq_some_iff.mp h
        rw [ih (by omega) hr']
        rfl

/-! ## What is printed -/

/-- `ComPrint` from `string` on prints `out` and leaves the arguments `rest`. -/
def Prints (m : Mem) (string : Nat) (args : List VaArg) (out : List Byte) (rest : List VaArg) : Prop :=
  ∃ fuel, comPrint m fuel string args = some (out, rest)

theorem prints_nul (h : m string = 0) : Prints m string args out rest ↔ out = [] ∧ rest = args := by
  constructor
  · rintro ⟨fuel, hprint⟩
    cases fuel with
    | zero => cases hprint
    | succ fuel =>
        rw [comPrint, if_pos h] at hprint
        obtain ⟨rfl, rfl⟩ := Prod.mk.inj (Option.some.inj hprint)
        exact ⟨rfl, rfl⟩
  · rintro ⟨rfl, rfl⟩
    exact ⟨1, by rw [comPrint, if_pos h]⟩

theorem prints_literal (h0 : m string ≠ 0) (h1 : m string ≠ code '%') :
    Prints m string args out rest ↔ ∃ o, out = m string :: o ∧ Prints m (string + 1) args o rest := by
  constructor
  · rintro ⟨fuel, hprint⟩
    cases fuel with
    | zero => cases hprint
    | succ fuel =>
        rw [comPrint, if_neg h0, if_neg h1] at hprint
        obtain ⟨⟨o, r⟩, hrest, heq⟩ := Option.map_eq_some_iff.mp hprint
        obtain ⟨rfl, rfl⟩ := Prod.mk.inj heq
        exact ⟨o, rfl, fuel, hrest⟩
  · rintro ⟨o, rfl, fuel, hrest⟩
    refine ⟨fuel + 1, ?_⟩
    rw [comPrint, if_neg h0, if_neg h1, hrest]
    rfl

/-- A `%` starts a directive. -/
theorem prints_directive (h : m string = code '%') :
    Prints m string args out rest ↔ ∃ fuel o s args' o', comPrintDirective m fuel (string + 1) args = some (o, s, args') ∧
      out = o ++ o' ∧ Prints m s args' o' rest := by
  have h0 : m string ≠ 0 := by rw [h]; decide
  constructor
  · rintro ⟨fuel, hprint⟩
    cases fuel with
    | zero => cases hprint
    | succ fuel =>
        rw [comPrint, if_neg h0, if_pos h] at hprint
        obtain ⟨⟨o, s, args'⟩, hdir, hmap⟩ := Option.bind_eq_some_iff.mp hprint
        obtain ⟨⟨o', r⟩, hrest, heq⟩ := Option.map_eq_some_iff.mp hmap
        obtain ⟨rfl, rfl⟩ := Prod.mk.inj heq
        exact ⟨fuel, o, s, args', o', hdir, rfl, fuel, hrest⟩
  · rintro ⟨f₁, o, s, args', o', hdir, rfl, f₂, hrest⟩
    refine ⟨max f₁ f₂ + 1, ?_⟩
    rw [comPrint, if_neg h0, if_pos h, comPrintDirective_mono (le_max_left f₁ f₂) hdir, Option.bind_some]
    simp only [comPrint_mono (le_max_right f₁ f₂) hrest, Option.map_some]

/-! ## One step of the scanner -/

/-- What a directive prints: its rendering, but the least `int` overflows. -/
def Put (m : Mem) (k : Kind) (a : VaArg) (bs : List Byte) : Prop :=
  Rendered m k a bs ∧ ¬ (k = .d ∧ a = .int Int32.minValue)

theorem printString_iff {s : Nat} {bs : List Byte} : (∃ fuel, printString m fuel s = some bs) ↔ StringAt m s bs := by
  constructor
  · rintro ⟨fuel, hprint⟩
    induction fuel generalizing s bs with
    | zero => cases hprint
    | succ fuel ih =>
        rw [printString] at hprint
        split_ifs at hprint with h0
        · cases hprint
          exact h0
        · obtain ⟨o, ho, rfl⟩ := Option.map_eq_some_iff.mp hprint
          exact ⟨rfl, h0, ih ho⟩
  · intro hstring
    induction bs generalizing s with
    | nil => exact ⟨1, if_pos hstring⟩
    | cons b bs ih =>
        obtain ⟨rfl, h0, hrest⟩ := hstring
        obtain ⟨fuel, hprint⟩ := ih hrest
        refine ⟨fuel + 1, ?_⟩
        rw [printString, if_neg h0, hprint]
        rfl

theorem printDecimal_eq {v : Int32} {bs : List Byte} :
    (∃ fuel, printDecimal fuel v.toInt = some bs) ↔ bs = decimal v.toInt ∧ v ≠ Int32.minValue := by
  constructor
  · rintro ⟨fuel, hprint⟩
    by_cases hleast : v = Int32.minValue
    · rw [hleast, printDecimal_least] at hprint
      cases hprint
    · have hmore := printDecimal_mono (Nat.le_add_right fuel 11) hprint
      rw [printDecimal_of_ne hleast (Nat.le_add_left 11 fuel)] at hmore
      exact ⟨(Option.some.inj hmore).symm, hleast⟩
  · rintro ⟨rfl, hleast⟩
    exact ⟨11, printDecimal_of_ne hleast (le_refl 11)⟩

theorem convert_iff {k : Kind} {a : VaArg} {bs : List Byte} : (∃ fuel, convert m fuel k a = some bs) ↔ Put m k a bs := by
  constructor
  · rintro ⟨fuel, hconv⟩
    cases k with
    | s =>
        cases a with
        | pointer p => exact ⟨.string (printString_iff.mp ⟨fuel, hconv⟩), by simp⟩
        | int v => cases hconv
        | uint64 v => cases hconv
    | c =>
        cases a with
        | int v =>
            obtain rfl := Option.some.inj hconv
            exact ⟨.char v, by simp⟩
        | pointer p => cases hconv
        | uint64 v => cases hconv
    | d =>
        cases a with
        | int v =>
            obtain ⟨rfl, hleast⟩ := printDecimal_eq.mp ⟨fuel, hconv⟩
            exact ⟨.decimal v, by simpa using hleast⟩
        | pointer p => cases hconv
        | uint64 v => cases hconv
    | x =>
        cases a with
        | int v =>
            obtain rfl := Option.some.inj hconv
            rw [printHex_signed v.toBitVec (by decide)]
            exact ⟨.hex v, by simp⟩
        | pointer p => cases hconv
        | uint64 v => cases hconv
    | X =>
        cases a with
        | uint64 v =>
            obtain rfl := Option.some.inj hconv
            rw [printHex_unsigned v.toBitVec (by decide)]
            exact ⟨.hex64 v, by simp⟩
        | int v => cases hconv
        | pointer p => cases hconv
  · rintro ⟨hrendered, hleast⟩
    cases hrendered with
    | string hs => exact printString_iff.mpr hs
    | char v => exact ⟨0, rfl⟩
    | decimal v => exact printDecimal_eq.mpr ⟨rfl, fun h => hleast ⟨rfl, by rw [h]⟩⟩
    | hex v => exact ⟨0, by rw [convert, printHex_signed v.toBitVec (by decide)]⟩
    | hex64 v => exact ⟨0, by rw [convert, printHex_unsigned v.toBitVec (by decide)]; rfl⟩

theorem prints_letter {k : Kind} (h : m string = code '%') (hk : m (string + 1) = k.letter) :
    Prints m string args out rest ↔ ∃ a args' o o', args = a :: args' ∧ Put m k a o ∧ out = o ++ o' ∧
      Prints m (string + 2) args' o' rest := by
  rw [prints_directive h]
  constructor
  · rintro ⟨fuel, o, s, args', o', hdir, rfl, hrest⟩
    rw [comPrintDirective_letter hk] at hdir
    cases args with
    | nil => cases hdir
    | cons a args =>
        obtain ⟨bs, hconv, heq⟩ := Option.map_eq_some_iff.mp hdir
        obtain ⟨rfl, hend⟩ := Prod.mk.inj heq
        obtain ⟨rfl, rfl⟩ := Prod.mk.inj hend
        exact ⟨a, args, bs, o', rfl, convert_iff.mp ⟨fuel, hconv⟩, rfl, hrest⟩
  · rintro ⟨a, args', o, o', rfl, hput, rfl, hrest⟩
    obtain ⟨fuel, hconv⟩ := convert_iff.mpr hput
    refine ⟨fuel, o, string + 2, args', o', ?_, rfl, hrest⟩
    rw [comPrintDirective_letter hk]
    simp only [hconv, Option.map_some]

theorem prints_other (h : m string = code '%') (hk : ∀ k : Kind, m (string + 1) ≠ k.letter) :
    Prints m string args out rest ↔ ∃ o, out = (if m (string + 1) = code '%' then [code '%'] else []) ++ o ∧
      Prints m (string + 1) args o rest := by
  rw [prints_directive h]
  constructor
  · rintro ⟨fuel, o, s, args', o', hdir, rfl, hrest⟩
    rw [comPrintDirective_other hk] at hdir
    obtain ⟨rfl, heq⟩ := Prod.mk.inj (Option.some.inj hdir)
    obtain ⟨rfl, rfl⟩ := Prod.mk.inj heq
    exact ⟨o', rfl, hrest⟩
  · rintro ⟨o, rfl, hrest⟩
    exact ⟨0, _, string + 1, args, o, comPrintDirective_other hk, rfl, hrest⟩

/-- `case '%'`. -/
theorem prints_again (h : m string = code '%') (hagain : m (string + 1) = code '%') :
    Prints m string args out rest ↔ ∃ o, out = code '%' :: o ∧ Prints m (string + 1) args o rest := by
  rw [prints_other h fun k hk => (letter_ne k).2 (hk.symm.trans hagain), if_pos hagain]
  rfl

/-! ## The items that are taken -/

/-- `%` and a literal. -/
def behindPercent (c : Byte) : Item :=
  match kindOf c with
  | some k => .directive k
  | none => .literal c

/-- The items that the scanner takes a format for; `true` behind a `%%`, whose second `%` it reads again. -/
def taken : Bool → List Item → List Item
  | _, [] => []
  | true, .literal c :: items => behindPercent c :: taken false items
  | true, .directive k :: items => .percent :: .directive k :: taken false items
  | true, .percent :: items => .percent :: .percent :: taken true items
  | false, .percent :: items => .percent :: taken true items
  | false, .literal c :: items => .literal c :: taken false items
  | false, .directive k :: items => .directive k :: taken false items

theorem kindOf_some {c : Byte} {k : Kind} (h : kindOf c = some k) : c = k.letter := by
  have hfound := List.find?_some h
  exact (of_decide_eq_true hfound).symm

theorem kindOf_none {c : Byte} (h : kindOf c = none) (k : Kind) : c ≠ k.letter := by
  have hnone := List.find?_eq_none.mp h k (by cases k <;> decide)
  intro hc
  exact hnone (decide_eq_true hc.symm)

variable {conv : Kind → VaArg → List Byte → Prop} {items : List Item}

theorem emits_nil : Emits conv [] args out rest ↔ out = [] ∧ rest = args := by
  constructor
  · rintro ⟨_⟩
    exact ⟨rfl, rfl⟩
  · rintro ⟨rfl, rfl⟩
    exact .done rest

theorem emits_literal {c : Byte} :
    Emits conv (.literal c :: items) args out rest ↔ ∃ o, out = c :: o ∧ Emits conv items args o rest := by
  constructor
  · intro h
    cases h with
    | literal c h => exact ⟨_, rfl, h⟩
  · rintro ⟨o, rfl, h⟩
    exact .literal c h

theorem emits_percent :
    Emits conv (.percent :: items) args out rest ↔ ∃ o, out = code '%' :: o ∧ Emits conv items args o rest := by
  constructor
  · intro h
    cases h with
    | percent h => exact ⟨_, rfl, h⟩
  · rintro ⟨o, rfl, h⟩
    exact .percent h

theorem emits_directive {k : Kind} :
    Emits conv (.directive k :: items) args out rest ↔ ∃ a args' o o', args = a :: args' ∧ conv k a o ∧ out = o ++ o' ∧
      Emits conv items args' o' rest := by
  constructor
  · intro h
    cases h with
    | directive hconv h => exact ⟨_, _, _, _, rfl, hconv, rfl, h⟩
  · rintro ⟨a, args', o, o', rfl, hconv, rfl, h⟩
    exact .directive hconv h

/-- **The scanner** renders the items it takes, both from the start of the format and from the second `%` of a `%%`. -/
theorem prints_iff (hvalid : ∀ i ∈ items, i.Valid) :
    (∀ {string args out}, StringAt m string (format items) →
      (Prints m string args out rest ↔ Emits (Put m) (taken false items) args out rest)) ∧
    (∀ {string args out}, m string = code '%' → StringAt m (string + 1) (format items) →
      (Prints m string args out rest ↔ Emits (Put m) (taken true items) args out rest)) := by
  induction items with
  | nil =>
      refine ⟨fun h => ?_, fun {string args out} hpercent h => ?_⟩
      · rw [taken, emits_nil, prints_nul h]
      · have h0 : m (string + 1) = 0 := h
        rw [taken, emits_nil, prints_other hpercent (by rw [h0]; exact fun k hk => (letter_ne k).1 hk.symm),
          if_neg (by rw [h0]; decide)]
        simp only [List.nil_append, exists_eq_left', prints_nul h0]
  | cons i items ih =>
      obtain ⟨ihstart, ihpercent⟩ := ih fun i hi => hvalid i (List.mem_cons_of_mem _ hi)
      cases i with
      | literal c =>
          obtain ⟨hc0, hc⟩ : c ≠ 0 ∧ c ≠ code '%' := hvalid _ List.mem_cons_self
          have hstart : ∀ {string args out}, StringAt m string (c :: format items) →
              (Prints m string args out rest ↔ ∃ o, out = c :: o ∧ Emits (Put m) (taken false items) args o rest) := by
            rintro string args out ⟨rfl, -, h⟩
            rw [prints_literal hc0 hc]
            simp only [ihstart h]
          refine ⟨fun h => ?_, fun {string args out} hpercent h => ?_⟩
          · rw [taken, emits_literal, hstart h]
          · rw [taken, behindPercent]
            cases hkind : kindOf c with
            | some k =>
                have hk := h.1.trans (kindOf_some hkind)
                rw [prints_letter hpercent hk]
                simp only [emits_directive, ihstart h.2.2]
            | none =>
                have hk : ∀ k : Kind, m (string + 1) ≠ k.letter := by
                  rw [h.1]
                  exact kindOf_none hkind
                rw [prints_other hpercent hk, if_neg (by rw [h.1]; exact hc)]
                simp only [List.nil_append, exists_eq_left', emits_literal, hstart h]
      | directive k =>
          have hstart : ∀ {string args out}, StringAt m string (code '%' :: k.letter :: format items) →
              (Prints m string args out rest ↔ Emits (Put m) (.directive k :: taken false items) args out rest) := by
            rintro string args out ⟨hpercent, -, hk, -, h⟩
            rw [prints_letter hpercent hk]
            simp only [emits_directive, ihstart h]
          refine ⟨fun h => ?_, fun {string args out} hpercent h => ?_⟩
          · rw [taken, hstart h]
          · rw [taken, emits_percent, prints_again hpercent h.1]
            simp only [hstart h]
      | percent =>
          have hstart : ∀ {string args out}, StringAt m string (code '%' :: code '%' :: format items) →
              (Prints m string args out rest ↔ Emits (Put m) (.percent :: taken true items) args out rest) := by
            rintro string args out ⟨hpercent, -, hagain, -, h⟩
            rw [emits_percent, prints_again hpercent hagain]
            simp only [ihpercent hagain h]
          refine ⟨fun h => ?_, fun {string args out} hpercent h => ?_⟩
          · rw [taken, hstart h]
          · rw [taken, emits_percent, prints_again hpercent h.1]
            simp only [hstart h]

/-! ## The formats that are rendered -/

/-- Behind a `%%` only a literal that is no directive letter. -/
def Item.Follows : Item → Item → Prop
  | .percent, .literal c => kindOf c = none
  | .percent, _ => False
  | _, _ => True

def Item.kind : Item → Option Kind
  | .directive k => some k
  | _ => none

/-- The directives of a format, which its arguments belong to. -/
def kinds (items : List Item) : List Kind := items.filterMap Item.kind

/-- The number of its literals and `%%`. -/
def plain (items : List Item) : Nat := items.countP fun i => i.kind = none

/-- What `ComPrint` needs of a format and its arguments. -/
structure Safe (items : List Item) (args : List VaArg) : Prop where
  follows : items.IsChain Item.Follows
  decimals : (Kind.d, VaArg.int Int32.minValue) ∉ (kinds items).zip args

@[simp] theorem kinds_literal (c : Byte) : kinds (.literal c :: items) = kinds items := rfl

@[simp] theorem kinds_percent : kinds (.percent :: items) = kinds items := rfl

@[simp] theorem kinds_directive (k : Kind) : kinds (.directive k :: items) = k :: kinds items := rfl

@[simp] theorem plain_literal (c : Byte) : plain (.literal c :: items) = plain items + 1 :=
  List.countP_cons_of_pos rfl

@[simp] theorem plain_percent : plain (.percent :: items) = plain items + 1 :=
  List.countP_cons_of_pos rfl

@[simp] theorem plain_directive (k : Kind) : plain (.directive k :: items) = plain items :=
  List.countP_cons_of_neg (by simp [Item.kind])

theorem isChain_cons {i : Item} (h : i ≠ .percent) :
    (i :: items).IsChain Item.Follows ↔ items.IsChain Item.Follows := by
  cases items with
  | nil => simp
  | cons j items =>
      rw [List.isChain_cons_cons, and_iff_right]
      cases i with
      | literal c => cases j <;> trivial
      | directive k => cases j <;> trivial
      | percent => exact absurd rfl h

theorem taken_eq (items : List Item) :
    (items.IsChain Item.Follows → taken false items = items) ∧
      ((Item.percent :: items).IsChain Item.Follows → taken true items = items) := by
  induction items with
  | nil => exact ⟨fun _ => rfl, fun _ => rfl⟩
  | cons i items ih =>
      rw [List.isChain_cons_cons]
      cases i with
      | literal c =>
          rw [isChain_cons (by simp)]
          refine ⟨fun h => by rw [taken, ih.1 h], fun ⟨hkind, h⟩ => ?_⟩
          have hkind : kindOf c = none := hkind
          rw [taken, behindPercent, hkind, ih.1 h]
      | directive k =>
          rw [isChain_cons (by simp)]
          exact ⟨fun h => by rw [taken, ih.1 h], fun ⟨hfalse, _⟩ => hfalse.elim⟩
      | percent => exact ⟨fun h => by rw [taken, ih.2 h], fun ⟨hfalse, _⟩ => hfalse.elim⟩

/-- No directive is lost. -/
theorem length_kinds_taken (b : Bool) (items : List Item) : (kinds items).length ≤ (kinds (taken b items)).length := by
  induction items generalizing b with
  | nil => exact Nat.zero_le _
  | cons i items ih =>
      have hf := ih false
      have ht := ih true
      cases i with
      | literal c =>
          cases b with
          | false => exact hf
          | true =>
              rw [taken, behindPercent]
              cases kindOf c with
              | none => exact hf
              | some k => exact Nat.le_succ_of_le hf
      | directive k => cases b <;> exact Nat.succ_le_succ hf
      | percent => cases b <;> exact ht

/-- If `items'` have no more directives than `items`, they have the same ones and no fewer other items; if also no more
of those, then `ok`. -/
def Grown (items' items : List Item) (ok : Prop) : Prop :=
  (kinds items').length = (kinds items).length →
    kinds items' = kinds items ∧ plain items ≤ plain items' ∧ (plain items' = plain items → ok)

namespace Grown
variable {items' : List Item} {ok ok' : Prop}

theorem literal (c : Byte) (h : Grown items' items ok) : Grown (.literal c :: items') (.literal c :: items) ok := by
  simpa only [Grown, kinds_literal, plain_literal, Nat.add_le_add_iff_right, Nat.add_right_cancel_iff] using h

theorem percent (h : Grown items' items ok) : Grown (.percent :: items') (.percent :: items) ok := by
  simpa only [Grown, kinds_percent, plain_percent, Nat.add_le_add_iff_right, Nat.add_right_cancel_iff] using h

theorem directive (k : Kind) (h : Grown items' items ok) : Grown (.directive k :: items') (.directive k :: items) ok := by
  simpa only [Grown, kinds_directive, plain_directive, List.length_cons, Nat.add_right_cancel_iff, List.cons_inj_right]
    using h

/-- A `%%` more. -/
theorem again (h : Grown items' items ok) : Grown (.percent :: items') items ok' := by
  intro hlen
  obtain ⟨hkinds, hle, -⟩ := h hlen
  rw [plain_percent]
  exact ⟨hkinds, Nat.le_succ_of_le hle, fun heq => by omega⟩

/-- A directive more. -/
theorem behind {c : Byte} {k : Kind} (h : (kinds items).length ≤ (kinds items').length) :
    Grown (.directive k :: items') (.literal c :: items) ok := by
  intro hlen
  rw [kinds_directive, kinds_literal, List.length_cons] at hlen
  omega

theorem imp (h : Grown items' items ok) (hok : ok → ok') : Grown items' items ok' := by
  intro hlen
  obtain ⟨hkinds, hle, heq⟩ := h hlen
  exact ⟨hkinds, hle, fun hplain => hok (heq hplain)⟩

end Grown

/-- Every misreading adds an item. -/
theorem grown_taken (items : List Item) :
    Grown (taken false items) items (items.IsChain Item.Follows) ∧
      Grown (taken true items) items ((Item.percent :: items).IsChain Item.Follows) := by
  induction items with
  | nil => exact ⟨fun _ => ⟨rfl, le_refl _, fun _ => .nil⟩, fun _ => ⟨rfl, le_refl _, fun _ => .singleton _⟩⟩
  | cons i items ih =>
      cases i with
      | literal c =>
          have hchain := (@isChain_cons items (.literal c) (by simp)).mpr
          refine ⟨(ih.1.literal c).imp hchain, ?_⟩
          rw [taken, behindPercent]
          cases hkind : kindOf c with
          | none => exact (ih.1.literal c).imp fun h => List.isChain_cons_cons.mpr ⟨hkind, hchain h⟩
          | some k => exact .behind (length_kinds_taken false items)
      | directive k =>
          have hchain := (@isChain_cons items (.directive k) (by simp)).mpr
          exact ⟨(ih.1.directive k).imp hchain, (ih.1.directive k).again⟩
      | percent => exact ⟨ih.2.percent, ih.2.percent.again⟩

/-! ## Arguments and length -/

theorem stringAt_unique {p : Nat} {bs bs' : List Byte} (h : StringAt m p bs) (h' : StringAt m p bs') : bs = bs' := by
  induction bs generalizing p bs' with
  | nil =>
      cases bs' with
      | nil => rfl
      | cons b' bs' => exact absurd (h'.1.symm.trans h) h'.2.1
  | cons b bs ih =>
      cases bs' with
      | nil => exact absurd (h.1.symm.trans h') h.2.1
      | cons b' bs' => rw [← h.1, ← h'.1, ih h.2.2 h'.2.2]

theorem rendered_unique {k : Kind} {a : VaArg} {bs bs' : List Byte} (h : Rendered m k a bs) (h' : Rendered m k a bs') :
    bs = bs' := by
  cases h with
  | string h =>
      cases h' with
      | string h' => exact stringAt_unique h h'
  | char v => cases h'; rfl
  | decimal v => cases h'; rfl
  | hex v => cases h'; rfl
  | hex64 v => cases h'; rfl

theorem Emits.length_args (h : Emits conv items args out rest) : args.length = (kinds items).length + rest.length := by
  induction h with
  | done args => exact (Nat.zero_add _).symm
  | literal c h ih => exact ih
  | percent h ih => exact ih
  | directive hconv h ih =>
      rw [kinds_directive, List.length_cons, List.length_cons, ih]
      omega

/-- The length of the output is that of the renderings and one for each other item. -/
theorem Emits.length_out (h : Emits conv items args out rest) :
    ∃ bss : List (List Byte), List.Forall₂ (fun p bs => conv p.1 p.2 bs) ((kinds items).zip args) bss ∧
      out.length = plain items + (bss.map List.length).sum := by
  induction h with
  | done args => exact ⟨[], .nil, rfl⟩
  | literal c h ih =>
      obtain ⟨bss, hall, hlen⟩ := ih
      refine ⟨bss, hall, ?_⟩
      rw [plain_literal, List.length_cons, hlen]
      omega
  | percent h ih =>
      obtain ⟨bss, hall, hlen⟩ := ih
      refine ⟨bss, hall, ?_⟩
      rw [plain_percent, List.length_cons, hlen]
      omega
  | @directive k a bs hconv items args rest out h ih =>
      obtain ⟨bss, hall, hlen⟩ := ih
      refine ⟨bs :: bss, .cons hconv hall, ?_⟩
      rw [plain_directive, List.length_append, hlen, List.map_cons, List.sum_cons]
      omega

theorem Emits.imp {conv' : Kind → VaArg → List Byte → Prop} (h : Emits conv items args out rest)
    (himp : ∀ k a bs, (k, a) ∈ (kinds items).zip args → conv k a bs → conv' k a bs) : Emits conv' items args out rest := by
  induction h with
  | done args => exact .done args
  | literal c h ih => exact .literal c (ih himp)
  | percent h ih => exact .percent (ih himp)
  | directive hconv h ih =>
      refine .directive (himp _ _ _ List.mem_cons_self hconv) (ih fun k a bs hmem => ?_)
      exact himp k a bs (List.mem_cons_of_mem _ hmem)

/-- The renderings are those of the same directives, so a `%%` more shows in the length. -/
theorem safe_of_emits (hargs : Emits (Rendered m) items args out [])
    (hput : Emits (Put m) (taken false items) args out []) : Safe items args := by
  have hlen : (kinds (taken false items)).length = (kinds items).length := by
    rw [← Nat.add_zero (kinds items).length, ← Nat.add_zero (kinds (taken false items)).length]
    exact hput.length_args.symm.trans hargs.length_args
  obtain ⟨hkinds, -, hfollows⟩ := (grown_taken items).1 hlen
  obtain ⟨bss, hall, hout⟩ := hargs.length_out
  obtain ⟨bss', hall', hout'⟩ := hput.length_out
  rw [hkinds] at hall'
  have hboth : List.Forall₂ (fun p bs => p ≠ (Kind.d, VaArg.int Int32.minValue) ∧ Rendered m p.1 p.2 bs)
      ((kinds items).zip args) bss' := hall'.imp fun p bs h => ⟨fun heq => h.2 (Prod.mk.inj heq), h.1⟩
  obtain ⟨hdecimals, hrendered⟩ := (List.forall₂_and_left _ _).mp hboth
  have hunique : Relator.RightUnique fun (p : Kind × VaArg) bs => Rendered m p.1 p.2 bs :=
    fun p bs bs' h h' => rendered_unique h h'
  have heq : bss = bss' := List.right_unique_forall₂' hunique hall hrendered
  refine ⟨hfollows (by rw [heq] at hout; omega), fun hmem => hdecimals _ hmem rfl⟩

theorem Prints.unique {out' : List Byte} {rest' : List VaArg} (h : Prints m string args out rest)
    (h' : Prints m string args out' rest') : out = out' := by
  obtain ⟨f, h⟩ := h
  obtain ⟨f', h'⟩ := h'
  have heq := (comPrint_mono (le_max_left f f') h).symm.trans (comPrint_mono (le_max_right f f') h')
  exact congrArg Prod.fst (Option.some.inj heq)

/-- **`ComPrint`** ends with the rendered format printed and all arguments consumed if and only if every `%%` stands
before the end or a literal that is no directive letter, and no `%d` has the least `int`. -/
theorem comPrint_iff (hvalid : ∀ i ∈ items, i.Valid) (hstring : StringAt m string (format items))
    (hargs : Emits (Rendered m) items args out []) : Prints m string args out [] ↔ Safe items args := by
  rw [(prints_iff hvalid).1 hstring]
  refine ⟨safe_of_emits hargs, fun hsafe => ?_⟩
  rw [(taken_eq items).1 hsafe.follows]
  refine hargs.imp fun k a bs hmem hrendered => ⟨hrendered, ?_⟩
  rintro ⟨rfl, rfl⟩
  exact hsafe.decimals hmem

/-- The text `bs` at the address zero, zeros behind it. -/
def textMem (bs : List Byte) : Mem := fun a => bs.getD a 0

/-- `"%d%%!"`. -/
theorem comPrint_percent :
    Prints (textMem (format [.directive .d, .percent, .literal (code '!')])) 0 [.int 7]
      (decimal 7 ++ [code '%', code '!']) [] :=
  (@comPrint_iff _ _ _ _ [.directive .d, .percent, .literal (code '!')]
    (by simp [Item.Valid]; decide) (by simp [StringAt, format, Item.bytes, textMem]; decide)
    (.directive (.decimal 7) (.percent (.literal _ (.done []))))).mpr
    ⟨by simp [Item.Follows]; decide, by decide⟩

/-- `"%%%%"` prints three `%`. -/
theorem comPrint_repeats :
    Emits (Rendered (textMem (format [.percent, .percent]))) [.percent, .percent] [] [code '%', code '%'] [] ∧
      StringAt (textMem (format [.percent, .percent])) 0 (format [.percent, .percent]) ∧
      Prints (textMem (format [.percent, .percent])) 0 [] [code '%', code '%', code '%'] [] ∧
      ¬ Prints (textMem (format [.percent, .percent])) 0 [] [code '%', code '%'] [] := by
  have hthree : Prints (textMem (format [.percent, .percent])) 0 [] [code '%', code '%', code '%'] [] := ⟨5, by decide⟩
  refine ⟨.percent (.percent (.done [])), by simp [StringAt, format, Item.bytes, textMem]; decide, hthree, fun htwo => ?_⟩
  have heq := hthree.unique htwo
  simp at heq

end Gewodsys.Utl
