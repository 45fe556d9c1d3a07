import Gewodsys.Machine.Slots
import Gewodsys.Lai.Code

/-!
# The hash table (`lai/core/util-hash.h`)

* `Hashtable` : the table of elements and the table of buckets; `Hashtable.slot` : the bucket that is tried `i`-th;
* `laiHashtableGrow`, `laiHashtableInsert`, `laiHashtableChainAdvance`, `laiHashtableChainGet`,
  `laiHashtableChainRemove`;
* `chainSearch` : the loop over a chain that the callers write.
-/

namespace Gewodsys.Lai
open Gewodsys.Machine

abbrev HashCode := BitVec 32

/-- `struct lai_hashtable`. A bucket is `none` where `bucket_tab` is negative. -/
structure Hashtable (E : Type) where
  elemCapacity : Nat
  bucketCapacity : Nat
  numElems : Nat
  elemPtrTab : Nat → Option E
  elemHashTab : Nat → HashCode
  bucketTab : Nat → Option Nat

/-- A table of zeroes. -/
def Hashtable.zero (E : Type) : Hashtable E := ⟨0, 0, 0, fun _ => none, fun _ => 0, fun _ => none⟩

/-- `(h + i) & (m - 1)` -/
def Hashtable.slot (m : Nat) (h : HashCode) (i : Nat) : Nat :=
  ((h + BitVec.ofNat 32 i) &&& BitVec.ofNat 32 (m - 1)).toNat

variable {E : Type}

/-- The element `k` gets the first free bucket for its hash. -/
def placeBucket (m : Nat) (h : HashCode) (k : Nat) (bucketTab : Nat → Option Nat) : Except Failure (Nat → Option Nat) :=
  match (List.range m).find? (fun i => (bucketTab (Hashtable.slot m h i)).isNone) with
  | some i => .ok (Function.update bucketTab (Hashtable.slot m h i) (some k))
  | none => .error .panic

/-- The buckets of the elements that are there, in a new table. -/
def rehash (m : Nat) (ht : Hashtable E) : Nat → Except Failure (Nat → Option Nat)
  | 0 => .ok fun _ => none
  | k + 1 => do
      let bucketTab ← rehash m ht k
      if (ht.elemPtrTab k).isSome then placeBucket m (ht.elemHashTab k) k bucketTab else return bucketTab

def laiHashtableGrow (n m : Nat) (ht : Hashtable E) : Except Failure (Hashtable E) := do
  if n < ht.elemCapacity ∨ m < ht.bucketCapacity then .error .panic else
  let bucketTab ← rehash m ht ht.elemCapacity
  return {
    elemCapacity := n
    bucketCapacity := m
    numElems := ht.numElems
    elemPtrTab := fun k => if k < ht.elemCapacity then ht.elemPtrTab k else none
    -- what is new is not read before it is written
    elemHashTab := ht.elemHashTab
    bucketTab := bucketTab }

/-- The table that `lai_hashtable_insert` goes on with. -/
def growForInsert (ht : Hashtable E) : Except Failure (Hashtable E) :=
  if ht.elemCapacity = 0 ∨ ht.bucketCapacity = 0 then laiHashtableGrow 2 4 ht
  else if ht.elemCapacity ≤ ht.numElems + 1 then laiHashtableGrow (2 * ht.elemCapacity) (2 * ht.bucketCapacity) ht
  else .ok ht

def laiHashtableInsert (h : HashCode) (elem : E) (ht : Hashtable E) : Except Failure (Hashtable E) := do
  let ht ← growForInsert ht
  match (List.range ht.elemCapacity).find? (fun k => (ht.elemPtrTab k).isNone) with
  | none => .error .panic
  | some k =>
      let bucketTab ← placeBucket ht.bucketCapacity h k ht.bucketTab
      return {
        ht with
        elemPtrTab := Function.update ht.elemPtrTab k (some elem)
        elemHashTab := Function.update ht.elemHashTab k h
        numElems := ht.numElems + 1
        bucketTab := bucketTab }

/-- The bucket tried `i`-th has an element with this hash. -/
def Hashtable.hit (ht : Hashtable E) (h : HashCode) (i : Nat) : Bool :=
  match ht.bucketTab (Hashtable.slot ht.bucketCapacity h i) with
  | some k => ht.elemHashTab k == h
  | none => false

/-- The next `i` of a chain, from `i` on; `none` at its end. -/
def laiHashtableChainAdvance (h : HashCode) (i : Nat) (ht : Hashtable E) : Option Nat :=
  (List.range' i (ht.bucketCapacity - i)).find? (ht.hit h)

def laiHashtableChainGet (h : HashCode) (i : Nat) (ht : Hashtable E) : Except Failure E :=
  match (ht.bucketTab (Hashtable.slot ht.bucketCapacity h i)).bind ht.elemPtrTab with
  | some elem => .ok elem
  | none => .error .panic

def laiHashtableChainRemove (h : HashCode) (i : Nat) (ht : Hashtable E) : Except Failure (Hashtable E) :=
  match ht.bucketTab (Hashtable.slot ht.bucketCapacity h i) with
  | none => .error .panic
  | some k => .ok {
      ht with
      elemPtrTab := Function.update ht.elemPtrTab k none
      bucketTab := Function.update ht.bucketTab (Hashtable.slot ht.bucketCapacity h i) none
      numElems := ht.numElems - 1 }

/-- The loop of the callers: the first element of the chain from `i` on that meets `p`. A chain has `bucket_capacity`
buckets, so that many turns and one do. -/
def chainSearch (p : E → Bool) (h : HashCode) (ht : Hashtable E) : Nat → Nat → Except Failure (Option (Nat × E))
  | 0, _ => .ok none
  | n + 1, i =>
      match laiHashtableChainAdvance h i ht with
      | none => .ok none
      | some i => do
          let elem ← laiHashtableChainGet h i ht
          if p elem then return some (i, elem) else chainSearch p h ht n (i + 1)

/-- The search from the start of the chain. -/
def searchChain (p : E → Bool) (h : HashCode) (ht : Hashtable E) : Except Failure (Option (Nat × E)) :=
  chainSearch p h ht (ht.bucketCapacity + 1) 0

end Gewodsys.Lai
