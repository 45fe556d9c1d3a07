import Mathlib

/-!
# The 8259 interrupt controller

* `Pic` : one controller: its initialisation sequence, its vector base and its mask; `Pic.command`, `Pic.data`;
* `PicPair` : the two controllers of a PC behind their ports; `PicPair.out`;
* `PicPair.Raises` : the vectors that an interrupt line can raise.
-/

namespace Gewodsys.Machine

/-- What the next byte at the data port is taken for. -/
inductive PicPhase
  | icw2 | icw3 | icw4 | mask
deriving DecidableEq, Repr

structure Pic where
  phase : PicPhase
  single : Bool
  needsIcw4 : Bool
  /-- The vector of line 0; the low three bits are zero. -/
  base : BitVec 8
  cascade : BitVec 8
  mode : BitVec 8
  imr : BitVec 8
deriving DecidableEq, Repr

/-- A byte at the command port. Bit 4 starts an initialisation; the other commands leave what is modelled here alone. -/
def Pic.command (p : Pic) (v : BitVec 8) : Pic :=
  if v.getLsbD 4 then
    { p with phase := .icw2, single := v.getLsbD 1, needsIcw4 := v.getLsbD 0, imr := 0,
             mode := if v.getLsbD 0 then p.mode else 0 }
  else p

/-- A byte at the data port. -/
def Pic.data (p : Pic) (v : BitVec 8) : Pic :=
  let last : PicPhase := if p.needsIcw4 then .icw4 else .mask
  match p.phase with
  | .icw2 => { p with base := v &&& 0xF8, phase := if p.single then last else .icw3 }
  | .icw3 => { p with cascade := v, phase := last }
  | .icw4 => { p with mode := v, phase := .mask }
  | .mask => { p with imr := v }

structure PicPair where
  primary : Pic
  secondary : Pic
deriving DecidableEq, Repr

/-- A byte written to an I/O port. -/
def PicPair.out (p : PicPair) (port : Nat) (v : BitVec 8) : PicPair :=
  if port = 0x20 then { p with primary := p.primary.command v }
  else if port = 0x21 then { p with primary := p.primary.data v }
  else if port = 0xA0 then { p with secondary := p.secondary.command v }
  else if port = 0xA1 then { p with secondary := p.secondary.data v }
  else p

/-- The bytes `outs`, in order, each with its port. -/
def PicPair.outs (p : PicPair) (outs : List (Nat × BitVec 8)) : PicPair := outs.foldl (fun p o => p.out o.1 o.2) p

/-- Line `line` of `p` can raise the vector `v`. -/
def Pic.Raises (p : Pic) (line : Nat) (v : Nat) : Prop :=
  line < 8 ∧ p.phase = .mask ∧ p.imr.getLsbD line = false ∧ v = p.base.toNat + line

/-- Line `line` of the pair (8 .. 15 are those of the secondary controller) can raise the vector `v`. -/
def PicPair.Raises (p : PicPair) (line v : Nat) : Prop :=
  p.primary.Raises line v ∨ 8 ≤ line ∧ p.secondary.Raises (line - 8) v

end Gewodsys.Machine
