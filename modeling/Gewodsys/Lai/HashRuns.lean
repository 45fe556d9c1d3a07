import Gewodsys.Lai.Hash
import Gewodsys.Machine.Fuel
import Gewodsys.Machine.Run

/-!
# The hash table is a multimap

* `Hashtable.contents` : the hashes and elements in the table; `Hashtable.Ok` : what every operation keeps;
* `insert_spec`, `remove_spec`, `searchChain_spec` : what they do to the contents;
* `chain_eq` : a chain goes through the elements of its hash, each once;
* `hashtable_run` : any run of insertions and removals.
-/

namespace Gewodsys.Lai
open Gewodsys.Machine

variable {E : Type} {ht : Hashtable E} {h : HashCode} {i j k m n : Nat}

/-! ## Buckets -/

/-- The `i`-th bucket of a table of `2 ^ j` goes around. -/
theorem slot_eq (hj : j ≤ 32) (h : HashCode) (i : Nat) : Hashtable.slot (2 ^ j) h i = (h.toNat + i) % 2 ^ j := by
  have hpow : 2 ^ j ≤ 2 ^ 32 := Nat.pow_le_pow_right (by omega) hj
  have hpos : 0 < 2 ^ j := Nat.pow_pos (by omega)
  unfold Hashtable.slot
  rw [BitVec.toNat_and, BitVec.toNat_add, BitVec.toNat_ofNat, BitVec.toNat_ofNat, Nat.mod_eq_of_lt (a := 2 ^ j - 1) (by omega),
    Nat.and_two_pow_sub_one_eq_mod, Nat.add_mod_mod, Nat.mod_mod_of_dvd _ (Nat.pow_dvd_pow 2 hj)]

/-- A bucket is found where the table is not full, and it was free. -/
theorem placeBucket_spec {tab : Nat → Option Nat} (hj : j ≤ 32) (h : HashCode) (k : Nat)
    (hfree : ∃ b, b < 2 ^ j ∧ tab b = none) :
    ∃ b, b < 2 ^ j ∧ tab b = none ∧ placeBucket (2 ^ j) h k tab = .ok (Function.update tab b (some k)) := by
  obtain ⟨b, hb, hnone⟩ := hfree
  obtain ⟨i, hi, hib⟩ := exists_probe h.toNat hb
  unfold placeBucket
  cases hfind : (List.range (2 ^ j)).find? (fun i => (tab (Hashtable.slot (2 ^ j) h i)).isNone) with
  | none =>
      have := List.find?_eq_none.mp hfind i (List.mem_range.mpr hi)
      rw [slot_eq hj, hib, hnone] at this
      exact absurd rfl this
  | some i' =>
      have hslot : tab (Hashtable.slot (2 ^ j) h i') = none := by
        have := List.find?_some hfind
        exact Option.isNone_iff_eq_none.mp this
      refine ⟨Hashtable.slot (2 ^ j) h i', ?_, hslot, rfl⟩
      rw [slot_eq hj]
      exact Nat.mod_lt _ (Nat.pow_pos (by omega))

/-! ## Contents -/

/-- The indices of the elements that are there, below `n`. -/
def Hashtable.live (ht : Hashtable E) (n : Nat) : Multiset Nat := entries n fun k => (ht.elemPtrTab k).map fun _ => k

def Hashtable.contents (ht : Hashtable E) : Multiset (HashCode × E) :=
  entries ht.elemCapacity fun k => (ht.elemPtrTab k).map fun e => (ht.elemHashTab k, e)

/-- Two to the `j` elements and twice as many buckets; every element has one bucket, and one more has room. -/
structure Hashtable.Sized (ht : Hashtable E) (j : Nat) : Prop where
  le : j ≤ 29
  elems : ht.elemCapacity = 2 ^ j
  buckets : ht.bucketCapacity = 2 ^ (j + 1)
  placed : entries ht.bucketCapacity ht.bucketTab = ht.live ht.elemCapacity
  count : ht.numElems = Multiset.card ht.contents
  room : ht.numElems < ht.elemCapacity

/-- A table that was not yet used, or one with room. -/
def Hashtable.Ok (ht : Hashtable E) : Prop :=
  (ht.elemCapacity = 0 ∧ ht.bucketCapacity = 0 ∧ ht.numElems = 0) ∨ ∃ j, ht.Sized j

theorem card_contents (ht : Hashtable E) : Multiset.card ht.contents = Multiset.card (ht.live ht.elemCapacity) := by
  unfold Hashtable.contents Hashtable.live
  rw [card_entries_map (fun k e => (ht.elemHashTab k, e)), card_entries_map (fun k _ => k)]

theorem live_succ (ht : Hashtable E) (k : Nat) :
    ht.live (k + 1) = if (ht.elemPtrTab k).isSome then k ::ₘ ht.live k else ht.live k := by
  unfold Hashtable.live
  rw [entries_succ]
  cases ht.elemPtrTab k with
  | none => exact Multiset.zero_add _
  | some e => exact Multiset.singleton_add k _

/-! ## Growing -/

/-- A new table of buckets, with no fewer buckets than elements, takes them all. -/
theorem rehash_spec (hj : j ≤ 32) (ht : Hashtable E) (k : Nat) (hk : k ≤ 2 ^ j) :
    ∃ tab, rehash (2 ^ j) ht k = .ok tab ∧ entries (2 ^ j) tab = ht.live k := by
  induction k with
  | zero => exact ⟨fun _ => none, rfl, entries_none _⟩
  | succ k ih =>
      obtain ⟨tab, htab, hentries⟩ := ih (Nat.le_of_succ_le hk)
      rw [live_succ]
      by_cases hsome : (ht.elemPtrTab k).isSome = true
      · have hcard : Multiset.card (ht.live k) ≤ k := card_entries_le k _
        rw [← hentries] at hcard
        obtain ⟨b, hb, hnone, hplace⟩ := placeBucket_spec hj (ht.elemHashTab k) k (exists_free (hcard.trans_lt hk))
        refine ⟨Function.update tab b (some k), ?_, ?_⟩
        · rw [rehash, htab]
          simp only [bind, Except.bind, hsome, if_true, hplace]
        · rw [entries_fill hb hnone, hentries, if_pos hsome]
      · refine ⟨tab, ?_, by rw [if_neg hsome, hentries]⟩
        rw [rehash, htab]
        simp only [bind, Except.bind, hsome]
        rfl

/-- What is kept of a table that is read below its old capacity only. -/
theorem entries_old {β : Type} {c : Nat} (hc : c ≤ n) (f : Nat → Option E) (g : Nat → E → β) :
    entries n (fun k => (if k < c then f k else none).map (g k)) = entries c fun k => (f k).map (g k) := by
  obtain ⟨d, rfl⟩ := Nat.exists_eq_add_of_le hc
  rw [entries_add d fun k hk => by rw [if_neg (Nat.not_lt.mpr hk)]; rfl]
  exact entries_congr fun k hk => by rw [if_pos hk]

theorem grow_spec (ht : Hashtable E) (hj : j ≤ 29) (helems : ht.elemCapacity ≤ 2 ^ j)
    (hbuckets : ht.bucketCapacity ≤ 2 ^ (j + 1)) (hcount : ht.numElems = Multiset.card ht.contents)
    (hroom : ht.numElems < 2 ^ j) :
    ∃ ht', laiHashtableGrow (2 ^ j) (2 ^ (j + 1)) ht = .ok ht' ∧ ht'.Sized j ∧ ht'.contents = ht.contents ∧
      ht'.numElems = ht.numElems := by
  have hpow : 2 ^ j ≤ 2 ^ (j + 1) := Nat.pow_le_pow_right (by omega) (by omega)
  obtain ⟨tab, htab, hentries⟩ := rehash_spec (j := j + 1) (by omega) ht ht.elemCapacity (helems.trans hpow)
  have hnot : ¬ (2 ^ j < ht.elemCapacity ∨ 2 ^ (j + 1) < ht.bucketCapacity) := by omega
  have hcontents := entries_old helems ht.elemPtrTab fun k e => (ht.elemHashTab k, e)
  refine ⟨⟨2 ^ j, 2 ^ (j + 1), ht.numElems, fun k => if k < ht.elemCapacity then ht.elemPtrTab k else none,
    ht.elemHashTab, tab⟩, ?_, ⟨hj, rfl, rfl, ?_, ?_, hroom⟩, hcontents, rfl⟩
  · unfold laiHashtableGrow
    rw [if_neg hnot, htab]
    rfl
  · exact hentries.trans (entries_old helems ht.elemPtrTab fun k _ => k).symm
  · exact hcount.trans (congrArg Multiset.card hcontents).symm

/-! ## Inserting -/

/-- Before an insertion there is room for two more, or the table grows. -/
theorem growForInsert_spec (hok : ht.Ok) (hsmall : ht.numElems < 2 ^ 28) :
    ∃ ht' j, growForInsert ht = .ok ht' ∧ ht'.Sized j ∧ ht'.contents = ht.contents ∧
      ht'.numElems + 1 < ht'.elemCapacity := by
  rcases hok with ⟨helems, hbuckets, hnum⟩ | ⟨j, hs⟩
  · have hcount : ht.numElems = Multiset.card ht.contents := by
      unfold Hashtable.contents
      rw [helems, hnum]
      rfl
    obtain ⟨ht', hgrow, hs, hcontents, hnum'⟩ := grow_spec (j := 1) ht (by omega) (by omega) (by omega) hcount (by omega)
    refine ⟨ht', 1, ?_, hs, hcontents, by rw [hnum', hs.elems, hnum]; decide⟩
    unfold growForInsert
    rw [if_pos (.inl helems)]
    exact hgrow
  · have hpos : 0 < 2 ^ j := Nat.pow_pos (by omega)
    have hnot : ¬ (ht.elemCapacity = 0 ∨ ht.bucketCapacity = 0) := by
      rw [hs.elems, hs.buckets, Nat.pow_succ]
      omega
    have hroom := hs.room
    unfold growForInsert
    rw [if_neg hnot]
    by_cases hfull : ht.elemCapacity ≤ ht.numElems + 1
    · have hj : j + 1 ≤ 29 := by
        have hlt : 2 ^ j ≤ 2 ^ 28 := by rw [← hs.elems]; omega
        have := (Nat.pow_le_pow_iff_right (a := 2) (by omega)).mp hlt
        omega
      have helems := hs.elems
      have hbuckets := hs.buckets
      have hdouble : ∀ k, 2 * 2 ^ k = 2 ^ (k + 1) := fun k => by rw [Nat.pow_succ, Nat.mul_comm]
      obtain ⟨ht', hgrow, hs', hcontents, hnum⟩ := grow_spec (j := j + 1) ht hj
        (by rw [helems, ← hdouble]; omega) (by rw [hbuckets, ← hdouble (j + 1)]; omega) hs.count
        (by rw [← hdouble]; omega)
      refine ⟨ht', j + 1, ?_, hs', hcontents, ?_⟩
      · rw [if_pos hfull, helems, hbuckets, hdouble, hdouble]
        exact hgrow
      · rw [hnum, hs'.elems, ← hdouble]
        have := hs.elems
        omega
    · rw [if_neg hfull]
      exact ⟨ht, j, rfl, hs, rfl, by omega⟩

/-- The live indices and the contents, where the element at `k` changes. -/
theorem live_update (f : Nat → Option E) (k : Nat) (o : Option E) :
    (fun i => (Function.update f k o i).map fun _ => i) = Function.update (fun i => (f i).map fun _ => i) k (o.map fun _ => k) := by
  funext i
  by_cases hi : i = k
  · subst hi
    rw [Function.update_self, Function.update_self]
  · rw [Function.update_of_ne hi, Function.update_of_ne hi]

theorem contents_update (f : Nat → Option E) (hash : Nat → HashCode) (k : Nat) (o : Option E) (h : HashCode) :
    (fun i => (Function.update f k o i).map fun e => (Function.update hash k h i, e)) =
      Function.update (fun i => (f i).map fun e => (hash i, e)) k (o.map fun e => (h, e)) := by
  funext i
  by_cases hi : i = k
  · subst hi
    simp only [Function.update_self]
  · simp only [Function.update_of_ne hi]

theorem insert_spec (hok : ht.Ok) (hsmall : ht.numElems < 2 ^ 28) (h : HashCode) (elem : E) :
    ∃ ht', laiHashtableInsert h elem ht = .ok ht' ∧ ht'.Ok ∧ ht'.contents = (h, elem) ::ₘ ht.contents := by
  obtain ⟨ht1, j, hgrow, hs, hcontents, hroom⟩ := growForInsert_spec hok hsmall
  have hlive : Multiset.card (ht1.live ht1.elemCapacity) = ht1.numElems := by rw [← card_contents, ← hs.count]
  -- an element is free
  obtain ⟨k, hk, hfree, hfind⟩ : ∃ k, k < ht1.elemCapacity ∧ ht1.elemPtrTab k = none ∧
      (List.range ht1.elemCapacity).find? (fun k => (ht1.elemPtrTab k).isNone) = some k := by
    cases hfind : (List.range ht1.elemCapacity).find? (fun k => (ht1.elemPtrTab k).isNone) with
    | none =>
        have hcard : Multiset.card (entries ht1.elemCapacity ht1.elemPtrTab) < ht1.elemCapacity := by
          rw [← card_entries_map fun k _ => k]
          exact lt_of_eq_of_lt hlive hs.room
        obtain ⟨k, hk, hnone⟩ := exists_free hcard
        have hno := List.find?_eq_none.mp hfind k (List.mem_range.mpr hk)
        rw [hnone] at hno
        exact absurd rfl hno
    | some k =>
        have hnone := List.find?_some (p := fun k => (ht1.elemPtrTab k).isNone) hfind
        exact ⟨k, List.mem_range.mp (List.mem_of_find?_eq_some hfind), Option.isNone_iff_eq_none.mp hnone, rfl⟩
  -- a bucket is free
  have hbucket : Multiset.card (entries (2 ^ (j + 1)) ht1.bucketTab) < 2 ^ (j + 1) := by
    have hlt := hs.room
    rw [← hs.buckets, hs.placed, hlive, hs.buckets, Nat.pow_succ, ← hs.elems]
    omega
  obtain ⟨b, hb, hnone, hplace⟩ := placeBucket_spec (by have := hs.le; omega) h k (exists_free hbucket)
  have hcontents' : entries ht1.elemCapacity (fun i => (Function.update ht1.elemPtrTab k (some elem) i).map fun e =>
      (Function.update ht1.elemHashTab k h i, e)) = (h, elem) ::ₘ ht.contents := by
    rw [contents_update, ← hcontents]
    exact entries_fill hk (by rw [hfree]; rfl) _
  refine ⟨⟨ht1.elemCapacity, ht1.bucketCapacity, ht1.numElems + 1, Function.update ht1.elemPtrTab k (some elem),
    Function.update ht1.elemHashTab k h, Function.update ht1.bucketTab b (some k)⟩, ?_, ?_, hcontents'⟩
  · unfold laiHashtableInsert
    simp only [hgrow, hfind, bind, Except.bind, hs.buckets, hplace]
    rfl
  · refine .inr ⟨j, hs.le, hs.elems, hs.buckets, ?_, ?_, hroom⟩
    · unfold Hashtable.live
      rw [live_update, entries_fill (hs.buckets ▸ hb) hnone, hs.placed]
      exact (entries_fill hk (by rw [hfree]; rfl) k).symm
    · show ht1.numElems + 1 = Multiset.card (entries _ _)
      rw [hcontents', Multiset.card_cons, ← hcontents, hs.count]

/-! ## Chains -/

/-- The element at which a chain stops for `i`. -/
def Hashtable.chainAt (ht : Hashtable E) (h : HashCode) (i : Nat) : Option E :=
  (ht.bucketTab (Hashtable.slot ht.bucketCapacity h i)).bind fun k => if ht.elemHashTab k = h then ht.elemPtrTab k else none

theorem bucket_live {b : Nat} (hs : ht.Sized j) (hb : b < ht.bucketCapacity) (hk : ht.bucketTab b = some k) :
    k < ht.elemCapacity ∧ ∃ e, ht.elemPtrTab k = some e := by
  have hmem : k ∈ ht.live ht.elemCapacity := hs.placed ▸ mem_entries.mpr ⟨b, hb, hk⟩
  obtain ⟨k', hk', hlive⟩ := mem_entries.mp hmem
  obtain ⟨e, he, rfl⟩ := Option.map_eq_some_iff.mp hlive
  exact ⟨hk', e, he⟩

theorem slot_lt (hs : ht.Sized j) (h : HashCode) (i : Nat) : Hashtable.slot ht.bucketCapacity h i < ht.bucketCapacity := by
  rw [hs.buckets, slot_eq (by have := hs.le; omega)]
  exact Nat.mod_lt _ (Nat.pow_pos (by omega))

/-- A chain goes through the elements of its hash, each once. -/
theorem chain_eq (hs : ht.Sized j) (h : HashCode) :
    entries ht.bucketCapacity (ht.chainAt h) = (ht.contents.filter fun x => x.1 = h).map Prod.snd := by
  have hle : j + 1 ≤ 32 := by have := hs.le; omega
  have hpos : 0 < ht.bucketCapacity := by rw [hs.buckets]; exact Nat.pow_pos (by omega)
  have hslot : ht.chainAt h = fun i => (ht.bucketTab ((h.toNat + i) % ht.bucketCapacity)).bind fun k =>
      if ht.elemHashTab k = h then ht.elemPtrTab k else none := by
    funext i
    unfold Hashtable.chainAt
    rw [hs.buckets, slot_eq hle]
  rw [hslot, entries_bind (f := fun i => ht.bucketTab ((h.toNat + i) % ht.bucketCapacity)),
    entries_probe h.toNat hpos, hs.placed]
  unfold Hashtable.live Hashtable.contents entries
  rw [Multiset.filterMap_filterMap, Multiset.filter_filterMap, Multiset.map_filterMap]
  refine filterMap_congr fun k _ => ?_
  cases he : ht.elemPtrTab k with
  | none => rfl
  | some e =>
      by_cases hh : ht.elemHashTab k = h
      · simp [hh, he]
      · simp [hh]

theorem hit_iff (hs : ht.Sized j) (h : HashCode) (i : Nat) : ht.hit h i = true ↔ ∃ e, ht.chainAt h i = some e := by
  unfold Hashtable.hit Hashtable.chainAt
  cases hk : ht.bucketTab (Hashtable.slot ht.bucketCapacity h i) with
  | none =>
      constructor
      · intro hno
        cases hno
      · rintro ⟨e, he⟩
        cases he
  | some k =>
      obtain ⟨-, e, he⟩ := bucket_live hs (slot_lt hs h i) hk
      simp only [beq_iff_eq, Option.bind_some]
      constructor
      · intro hh
        exact ⟨e, by rw [if_pos hh, he]⟩
      · rintro ⟨e', he'⟩
        by_contra hh
        rw [if_neg hh] at he'
        cases he'

/-- The next stop of a chain. -/
theorem advance_spec (hs : ht.Sized j) (h : HashCode) (i : Nat) :
    match laiHashtableChainAdvance h i ht with
    | none => ∀ i', i ≤ i' → i' < ht.bucketCapacity → ht.chainAt h i' = none
    | some i' => i ≤ i' ∧ i' < ht.bucketCapacity ∧ (∃ e, ht.chainAt h i' = some e) ∧
        ∀ k, i ≤ k → k < i' → ht.chainAt h k = none := by
  have hmiss : ∀ k, ¬ ht.hit h k = true → ht.chainAt h k = none := by
    intro k hk
    cases hc : ht.chainAt h k with
    | none => rfl
    | some e => exact absurd ((hit_iff hs h k).mpr ⟨e, hc⟩) hk
  unfold laiHashtableChainAdvance
  cases hfind : (List.range' i (ht.bucketCapacity - i)).find? (ht.hit h) with
  | none =>
      intro i' hle hlt
      refine hmiss i' (List.find?_eq_none.mp hfind i' ?_)
      exact List.mem_range'_1.mpr ⟨hle, by omega⟩
  | some i' =>
      obtain ⟨hhit, hmem, hbefore⟩ := List.find?_range'_eq_some.mp hfind
      obtain ⟨hle, hlt⟩ := List.mem_range'_1.mp hmem
      refine ⟨hle, by omega, (hit_iff hs h i').mp hhit, fun k hk hk' => hmiss k ?_⟩
      have hno := hbefore k hk hk'
      intro hyes
      rw [hyes] at hno
      cases hno

theorem chainGet_eq {e : E} (he : ht.chainAt h i = some e) : laiHashtableChainGet h i ht = .ok e := by
  unfold Hashtable.chainAt at he
  unfold laiHashtableChainGet
  obtain ⟨k, hk, he⟩ := Option.bind_eq_some_iff.mp he
  by_cases hh : ht.elemHashTab k = h
  · rw [if_pos hh] at he
    rw [hk, Option.bind_some, he]
  · rw [if_neg hh] at he
    cases he

/-- What a search from `i` on finds. -/
def Hashtable.Found (ht : Hashtable E) (h : HashCode) (p : E → Bool) (i : Nat) : Option (Nat × E) → Prop
  | none => ∀ i' e, i ≤ i' → i' < ht.bucketCapacity → ht.chainAt h i' = some e → p e = false
  | some (i', e) => i ≤ i' ∧ i' < ht.bucketCapacity ∧ ht.chainAt h i' = some e ∧ p e = true ∧
      ∀ k e', i ≤ k → k < i' → ht.chainAt h k = some e' → p e' = false

theorem chainSearch_spec (hs : ht.Sized j) (p : E → Bool) (h : HashCode) :
    ∀ n i, i ≤ ht.bucketCapacity → ht.bucketCapacity < n + i →
      ∃ r, chainSearch p h ht n i = .ok r ∧ ht.Found h p i r
  | 0, i, hle, hlt => by omega
  | n + 1, i, hle, hlt => by
      have hadv := advance_spec hs h i
      rw [chainSearch]
      cases hi : laiHashtableChainAdvance h i ht with
      | none =>
          rw [hi] at hadv
          refine ⟨none, rfl, fun i' e hii hlt' he => ?_⟩
          rw [hadv i' hii hlt'] at he
          cases he
      | some i' =>
          rw [hi] at hadv
          obtain ⟨hii, hlt', ⟨e, he⟩, hbefore⟩ := hadv
          simp only [chainGet_eq he, bind, Except.bind]
          by_cases hp : p e = true
          · rw [if_pos hp]
            refine ⟨some (i', e), rfl, hii, hlt', he, hp, fun k e' hk hk' he' => ?_⟩
            rw [hbefore k hk hk'] at he'
            cases he'
          · rw [if_neg hp]
            have hbelow : ∀ k e', i ≤ k → k ≤ i' → ht.chainAt h k = some e' → p e' = false := by
              intro k e' hk hk' he'
              rcases Nat.lt_or_eq_of_le hk' with hlt'' | rfl
              · rw [hbefore k hk hlt''] at he'
                cases he'
              · rw [he] at he'
                cases he'
                exact Bool.eq_false_iff.mpr hp
            obtain ⟨r, hr, hfound⟩ := chainSearch_spec hs p h n (i' + 1) (by omega) (by omega)
            refine ⟨r, hr, ?_⟩
            cases r with
            | none =>
                intro k e' hk hk' he'
                rcases Nat.lt_or_ge i' k with hlt'' | hge
                · exact hfound k e' hlt'' hk' he'
                · exact hbelow k e' hk hge he'
            | some x =>
                obtain ⟨hle', hlt'', hx, hpx, hbefore'⟩ := hfound
                refine ⟨by omega, hlt'', hx, hpx, fun k e' hk hk' he' => ?_⟩
                rcases Nat.lt_or_ge i' k with hgt | hge
                · exact hbefore' k e' hgt hk' he'
                · exact hbelow k e' hk hge he'

theorem searchChain_spec (hs : ht.Sized j) (p : E → Bool) (h : HashCode) :
    ∃ r, searchChain p h ht = .ok r ∧ ht.Found h p 0 r :=
  chainSearch_spec hs p h _ 0 (Nat.zero_le _) (Nat.lt_succ_self _)

theorem mem_contents_iff (hs : ht.Sized j) (h : HashCode) (e : E) :
    (h, e) ∈ ht.contents ↔ ∃ i, i < ht.bucketCapacity ∧ ht.chainAt h i = some e := by
  rw [← mem_entries, chain_eq hs h, Multiset.mem_map]
  constructor
  · intro hmem
    exact ⟨(h, e), Multiset.mem_filter.mpr ⟨hmem, rfl⟩, rfl⟩
  · rintro ⟨⟨h', e'⟩, hmem, rfl⟩
    obtain ⟨hin, hh⟩ := Multiset.mem_filter.mp hmem
    subst hh
    exact hin

/-- A search finds an element of the hash that meets `p`, if there is one. -/
theorem searchChain_mem (hok : ht.Ok) (p : E → Bool) (h : HashCode) :
    ∃ r, searchChain p h ht = .ok r ∧ match r with
      | none => ∀ e, (h, e) ∈ ht.contents → p e = false
      | some (i, e) => ht.chainAt h i = some e ∧ (h, e) ∈ ht.contents ∧ p e = true := by
  rcases hok with ⟨helems, hbuckets, hnum⟩ | ⟨j, hs⟩
  · refine ⟨none, ?_, fun e he => ?_⟩
    · unfold searchChain
      rw [hbuckets, chainSearch]
      unfold laiHashtableChainAdvance
      rw [hbuckets]
      rfl
    · unfold Hashtable.contents at he
      rw [helems] at he
      exact absurd he (Multiset.notMem_zero _)
  · obtain ⟨r, hr, hfound⟩ := searchChain_spec hs p h
    refine ⟨r, hr, ?_⟩
    cases r with
    | none =>
        intro e he
        obtain ⟨i, hi, hc⟩ := (mem_contents_iff hs h e).mp he
        exact hfound i e (Nat.zero_le i) hi hc
    | some x => exact ⟨hfound.2.2.1, (mem_contents_iff hs h x.2).mpr ⟨x.1, hfound.2.1, hfound.2.2.1⟩, hfound.2.2.2.1⟩

/-! ## Removing -/

theorem remove_spec {e : E} (hs : ht.Sized j) (he : ht.chainAt h i = some e) :
    ∃ ht', laiHashtableChainRemove h i ht = .ok ht' ∧ ht'.Sized j ∧ ht.contents = (h, e) ::ₘ ht'.contents := by
  unfold Hashtable.chainAt at he
  obtain ⟨k, hbucket, he⟩ := Option.bind_eq_some_iff.mp he
  obtain ⟨hk, -⟩ := bucket_live hs (slot_lt hs h i) hbucket
  by_cases hh : ht.elemHashTab k = h
  swap
  · rw [if_neg hh] at he
    cases he
  rw [if_pos hh] at he
  have hupdate := contents_update ht.elemPtrTab ht.elemHashTab k none (ht.elemHashTab k)
  rw [Function.update_eq_self] at hupdate
  have hcontents : ht.contents = (h, e) ::ₘ entries ht.elemCapacity (fun i =>
      (Function.update ht.elemPtrTab k none i).map fun e => (ht.elemHashTab i, e)) := by
    rw [hupdate]
    exact entries_clear hk (by rw [he, hh]; rfl)
  have hcard : ht.numElems = Multiset.card (entries ht.elemCapacity (fun i =>
      (Function.update ht.elemPtrTab k none i).map fun e => (ht.elemHashTab i, e))) + 1 := by
    rw [hs.count, hcontents, Multiset.card_cons]
  have hroom := hs.room
  refine ⟨⟨ht.elemCapacity, ht.bucketCapacity, ht.numElems - 1, Function.update ht.elemPtrTab k none, ht.elemHashTab,
    Function.update ht.bucketTab (Hashtable.slot ht.bucketCapacity h i) none⟩, ?_, ?_, hcontents⟩
  · unfold laiHashtableChainRemove
    rw [hbucket]
  · refine ⟨hs.le, hs.elems, hs.buckets, ?_, ?_, show ht.numElems - 1 < ht.elemCapacity by omega⟩
    · have hplaced := hs.placed
      rw [entries_clear (slot_lt hs h i) hbucket, Hashtable.live, entries_clear hk (by rw [he]; rfl)] at hplaced
      unfold Hashtable.live
      rw [live_update]
      exact (Multiset.cons_inj_right k).mp hplaced
    · show ht.numElems - 1 = _
      rw [hcard, Nat.add_sub_cancel]
      rfl

theorem Hashtable.ok_zero (E : Type) : (Hashtable.zero E).Ok := .inl ⟨rfl, rfl, rfl⟩

/-- An element that a chain stops at is there only in a table with room. -/
theorem Hashtable.Ok.sized {e : E} (hok : ht.Ok) (he : (h, e) ∈ ht.contents) : ∃ j, ht.Sized j := by
  rcases hok with ⟨helems, -, -⟩ | hs
  · unfold Hashtable.contents at he
    rw [helems] at he
    exact absurd he (Multiset.notMem_zero _)
  · exact hs

theorem Hashtable.Ok.numElems_eq {ht : Hashtable E} (hok : ht.Ok) : ht.numElems = Multiset.card ht.contents := by
  rcases hok with ⟨helems, -, hnum⟩ | ⟨j, hs⟩
  · unfold Hashtable.contents
    rw [helems, hnum]
    rfl
  · exact hs.count

/-! ## Runs -/

/-- The elements that a loop over the chain sees. -/
def chainElems (h : HashCode) (ht : Hashtable E) : Nat → Nat → Except Failure (List E)
  | 0, _ => .ok []
  | n + 1, i =>
      match laiHashtableChainAdvance h i ht with
      | none => .ok []
      | some i => do
          let elem ← laiHashtableChainGet h i ht
          let elems ← chainElems h ht n (i + 1)
          return elem :: elems

theorem filterMap_range'_none {α : Type} {f : Nat → Option α} {s c : Nat} (hnone : ∀ k, s ≤ k → k < s + c → f k = none) :
    (List.range' s c).filterMap f = [] :=
  List.filterMap_eq_nil_iff.mpr fun k hk => by
    obtain ⟨hle, hlt⟩ := List.mem_range'_1.mp hk
    exact hnone k hle hlt

theorem chainElems_eq (hs : ht.Sized j) (h : HashCode) : ∀ n i, i ≤ ht.bucketCapacity → ht.bucketCapacity < n + i →
    chainElems h ht n i = .ok ((List.range' i (ht.bucketCapacity - i)).filterMap (ht.chainAt h))
  | 0, i, hle, hlt => by omega
  | n + 1, i, hle, hlt => by
      have hadv := advance_spec hs h i
      rw [chainElems]
      cases hi : laiHashtableChainAdvance h i ht with
      | none =>
          rw [hi] at hadv
          rw [filterMap_range'_none fun k hk hk' => hadv k hk (by omega)]
      | some i' =>
          rw [hi] at hadv
          obtain ⟨hii, hlt', ⟨e, he⟩, hbefore⟩ := hadv
          have hsplit : List.range' i (ht.bucketCapacity - i) =
              List.range' i (i' - i) ++ i' :: List.range' (i' + 1) (ht.bucketCapacity - (i' + 1)) := by
            rw [show ht.bucketCapacity - i = (i' - i) + (ht.bucketCapacity - (i' + 1) + 1) by omega, ← List.range'_append_1,
              Nat.add_sub_cancel' hii, List.range'_succ]
          rw [hsplit, List.filterMap_append, filterMap_range'_none fun k hk hk' => hbefore k hk (by omega),
            List.nil_append, List.filterMap_cons_some he]
          simp only [chainGet_eq he, chainElems_eq hs h n (i' + 1) (by omega) (by omega), bind, Except.bind]
          rfl

inductive HashOp (E : Type)
  | insert (h : HashCode) (elem : E)
  | remove (h : HashCode) (elem : E)

variable [DecidableEq E]

/-- An insertion, or the removal of the first such element of the chain. -/
def HashOp.exec (ht : Hashtable E) : HashOp E → Except Failure (Hashtable E)
  | .insert h elem => laiHashtableInsert h elem ht
  | .remove h elem => do
      match ← searchChain (· = elem) h ht with
      | some (i, _) => laiHashtableChainRemove h i ht
      | none => return ht

def HashOp.apply (s : Multiset (HashCode × E)) : HashOp E → Multiset (HashCode × E)
  | .insert h elem => (h, elem) ::ₘ s
  | .remove h elem => s.erase (h, elem)

theorem exec_spec (hok : ht.Ok) (hsmall : ht.numElems < 2 ^ 28) (o : HashOp E) :
    ∃ ht', o.exec ht = .ok ht' ∧ ht'.Ok ∧ ht'.contents = o.apply ht.contents := by
  cases o with
  | insert h elem => exact insert_spec hok hsmall h elem
  | remove h elem =>
      obtain ⟨r, hr, hfound⟩ := searchChain_mem hok (· = elem) h
      simp only [HashOp.exec, hr, bind, Except.bind]
      cases r with
      | none =>
          refine ⟨ht, rfl, hok, (Multiset.erase_of_notMem fun hmem => ?_).symm⟩
          have hno := hfound elem hmem
          rw [decide_eq_true rfl] at hno
          cases hno
      | some x =>
          obtain ⟨he, hmem, hp⟩ := hfound
          have heq : x.2 = elem := of_decide_eq_true hp
          obtain ⟨j, hs⟩ := hok.sized hmem
          obtain ⟨ht', hremove, hs', hcontents⟩ := remove_spec hs he
          refine ⟨ht', hremove, .inr ⟨j, hs'⟩, ?_⟩
          rw [HashOp.apply, hcontents, heq, Multiset.erase_cons_head]

theorem card_apply_le (s : Multiset (HashCode × E)) (o : HashOp E) : Multiset.card (o.apply s) ≤ Multiset.card s + 1 := by
  cases o with
  | insert h elem => exact le_of_eq (Multiset.card_cons _ _)
  | remove h elem => exact (Multiset.card_le_card (Multiset.erase_le _ _)).trans (Nat.le_succ _)

theorem execs_spec (ops : List (HashOp E)) : ∀ {ht : Hashtable E}, ht.Ok → ht.numElems + ops.length < 2 ^ 28 →
    ∃ ht', ops.foldlM HashOp.exec ht = .ok ht' ∧ ht'.Ok ∧ ht'.contents = ops.foldl HashOp.apply ht.contents := by
  induction ops with
  | nil => exact fun hok _ => ⟨_, rfl, hok, rfl⟩
  | cons o ops ih =>
      intro ht hok hlen
      rw [List.length_cons] at hlen
      obtain ⟨ht1, hexec, hok1, hcontents⟩ := exec_spec hok (by omega) o
      have hcard := card_apply_le ht.contents o
      rw [← hcontents, ← hok1.numElems_eq, ← hok.numElems_eq] at hcard
      obtain ⟨ht2, hrun, hok2, hcontents2⟩ := ih hok1 (by omega)
      refine ⟨ht2, ?_, hok2, ?_⟩
      · rw [List.foldlM_cons, hexec]
        exact hrun
      · rw [hcontents2, hcontents, List.foldl_cons]

/-- In every run of insertions and removals no check fails, and a loop over a chain sees the elements of its hash that
were inserted and not removed, as often as they are there. -/
theorem hashtable_run (ops : List (HashOp E)) (hlen : ops.length < 2 ^ 28) :
    ∃ ht, ops.foldlM HashOp.exec (Hashtable.zero E) = .ok ht ∧ ∀ h, ∃ elems,
      chainElems h ht (ht.bucketCapacity + 1) 0 = .ok elems ∧
        (elems : Multiset E) = ((ops.foldl HashOp.apply 0).filter fun x => x.1 = h).map Prod.snd := by
  obtain ⟨ht, hrun, hok, hcontents⟩ := execs_spec ops (Hashtable.ok_zero E) ((Nat.zero_add _).trans_lt hlen)
  refine ⟨ht, hrun, fun h => ?_⟩
  have hzero : (Hashtable.zero E).contents = 0 := rfl
  rw [hzero] at hcontents
  rw [← hcontents]
  rcases hok with ⟨helems, hbuckets, -⟩ | ⟨j, hs⟩
  · refine ⟨[], ?_, ?_⟩
    · rw [hbuckets, chainElems]
      unfold laiHashtableChainAdvance
      rw [hbuckets]
      rfl
    · unfold Hashtable.contents
      rw [helems]
      rfl
  · refine ⟨_, chainElems_eq hs h _ 0 (Nat.zero_le _) (Nat.lt_succ_self _), ?_⟩
    rw [← chain_eq hs h, Nat.sub_zero, ← List.range_eq_range']
    rfl

/-- One element of two is taken out again. -/
theorem hashtable_run_three :
    ∃ ht, [HashOp.insert 5 true, .insert 5 false, .remove 5 true].foldlM HashOp.exec (Hashtable.zero Bool) = .ok ht ∧
      ∀ h, ∃ elems, chainElems h ht (ht.bucketCapacity + 1) 0 = .ok elems ∧
        (elems : Multiset Bool) =
          (([HashOp.insert 5 true, .insert 5 false, .remove 5 true].foldl HashOp.apply 0).filter fun x => x.1 = h).map
            Prod.snd :=
  hashtable_run _ (by decide)

end Gewodsys.Lai
