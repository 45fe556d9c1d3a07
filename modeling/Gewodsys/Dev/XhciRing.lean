import Gewodsys.Machine.Lap
import Gewodsys.Machine.Run
import Gewodsys.Mem.Vmm

/-!
# The TRB rings: `dev/usb/xhci.c`

* `XhciTrb` : a TRB as its four words; `XhciTrb.link` is the `XhciTrbLink` that `XhciRingAdd` builds, read as a TRB;
* `XhciRing` : the ring with the slots its buffer holds; the slots are not bounded, `max_index` is only compared with;
* `xhciRingCreate`, `xhciRingAdd`, `xhciRingGet`;
* `RingAt L init xs r` : what `r` holds after the TRBs `xs` went through it, lap by lap; `RingAt.add`;
* `ring_add_laps` : index, cycle state, slots and the link slot after any number of calls.
-/

namespace Gewodsys.Dev
open Gewodsys.Machine Gewodsys.Mem

/-! ## TRBs -/

/-- A TRB: four `uint32_t`. -/
structure XhciTrb where
  w0 : Nat
  w1 : Nat
  w2 : Nat
  w3 : Nat
deriving DecidableEq, Repr

/-- The bit fields of the last word. -/
def cycle : Field := ⟨0, 1⟩
def toggleCycle : Field := ⟨1, 1⟩
def trbType : Field := ⟨10, 6⟩

def kTrbLink : Nat := 6

def XhciTrb.cycle (t : XhciTrb) : Nat := Dev.cycle.get t.w3
def XhciTrb.toggleCycle (t : XhciTrb) : Nat := Dev.toggleCycle.get t.w3
def XhciTrb.trbType (t : XhciTrb) : Nat := Dev.trbType.get t.w3
def XhciTrb.setCycle (t : XhciTrb) (v : Nat) : XhciTrb := { t with w3 := Dev.cycle.set v t.w3 }

/-- `rs_addr` of a Link TRB. -/
def XhciTrb.rsAddr (t : XhciTrb) : Nat := t.w0 + 2 ^ 32 * t.w1

/-- The Link TRB that closes a lap. -/
def XhciTrb.link (cycle rsAddr : Nat) : XhciTrb where
  w0 := rsAddr % 2 ^ 32
  w1 := rsAddr / 2 ^ 32 % 2 ^ 32
  w2 := 0
  w3 := Dev.toggleCycle.set 1 (Dev.cycle.set cycle (Dev.trbType.set kTrbLink 0))

@[simp] theorem XhciTrb.cycle_setCycle (t : XhciTrb) (v : Nat) : (t.setCycle v).cycle = v % 2 := Field.get_set _ _ _

@[simp] theorem XhciTrb.trbType_setCycle (t : XhciTrb) (v : Nat) : (t.setCycle v).trbType = t.trbType :=
  Field.get_set_of_disjoint _ _ _ _ (by decide)

@[simp] theorem XhciTrb.toggleCycle_setCycle (t : XhciTrb) (v : Nat) : (t.setCycle v).toggleCycle = t.toggleCycle :=
  Field.get_set_of_disjoint _ _ _ _ (by decide)

@[simp] theorem XhciTrb.cycle_link (c a : Nat) : (XhciTrb.link c a).cycle = c % 2 := by
  unfold XhciTrb.cycle XhciTrb.link
  rw [Field.get_set_of_disjoint _ _ _ _ (by decide), Field.get_set]
  rfl

@[simp] theorem XhciTrb.toggleCycle_link (c a : Nat) : (XhciTrb.link c a).toggleCycle = 1 := by
  unfold XhciTrb.toggleCycle XhciTrb.link
  rw [Field.get_set]
  rfl

@[simp] theorem XhciTrb.trbType_link (c a : Nat) : (XhciTrb.link c a).trbType = kTrbLink := by
  unfold XhciTrb.trbType XhciTrb.link
  rw [Field.get_set_of_disjoint _ _ _ _ (by decide), Field.get_set_of_disjoint _ _ _ _ (by decide), Field.get_set]
  rfl

theorem XhciTrb.rsAddr_link (c : Nat) {a : Nat} (ha : a < 2 ^ 64) : (XhciTrb.link c a).rsAddr = a := by
  unfold XhciTrb.rsAddr XhciTrb.link
  simp only
  omega

/-! ## Rings -/

/-- A ring and the slots behind `ptr`. -/
structure XhciRing where
  ptr : Nat
  index : Nat
  maxIndex : Nat
  cycle : Nat
  trbs : Nat → XhciTrb

/-- `sizeof(XhciTrb)`. -/
def sizeofTrb : Nat := 16

/-- `XhciRingCreate`, where `kmalloc` returned `ptr` for the buffer and the buffer held `trbs`. -/
def xhciRingCreate (size ptr : Nat) (trbs : Nat → XhciTrb) : XhciRing :=
  let numPages := ((size * sizeofTrb % 2 ^ 64 + 0xfff) % 2 ^ 64 / 0x1000) % 2 ^ 32
  let numTrbs := numPages * 0x1000 % 2 ^ 32 / sizeofTrb
  { ptr, index := 0, maxIndex := numTrbs, cycle := 1, trbs }

section
variable (m : Mem) (kPML4 : Nat)

/-- `XhciRingAdd`: the result, the TRB of the caller, whose cycle bit is assigned too, and the ring. -/
def xhciRingAdd (r : XhciRing) (trb : XhciTrb) : Int × XhciTrb × XhciRing :=
  if trb.trbType = 0 then (-1, trb, r)
  else
    let trb := trb.setCycle r.cycle
    let r := { r with trbs := Function.update r.trbs r.index trb, index := inc32 r.index }
    if r.index = dec32 r.maxIndex then
      let link := XhciTrb.link r.cycle (mmGetPhysicalAddress m kPML4 r.ptr)
      (0, trb, { r with trbs := Function.update r.trbs r.index link, index := 0, cycle := if r.cycle = 0 then 1 else 0 })
    else (0, trb, r)

end

/-- `XhciRingGet`: the result, what is stored through `trb`, and the ring. -/
def xhciRingGet (r : XhciRing) (trb : Nat) : Int × Option XhciTrb × XhciRing :=
  if trb = 0 ∨ r.index = 0 then (-1, none, r)
  else
    let last := r.trbs r.index
    if last.trbType = 0 then (-1, none, r)
    else
      let r := { r with index := inc32 r.index }
      if r.index = r.maxIndex then (0, some last, { r with index := 0, cycle := if r.cycle = 0 then 1 else 0 })
      else (0, some last, r)

theorem xhciRingCreate_maxIndex {size : Nat} (hdvd : 256 ∣ size) (hlt : size < 2 ^ 24) (ptr : Nat)
    (trbs : Nat → XhciTrb) : (xhciRingCreate size ptr trbs).maxIndex = size := by
  obtain ⟨k, rfl⟩ := hdvd
  unfold xhciRingCreate sizeofTrb
  simp only
  omega

theorem mmGetPhysicalAddress_lt (m : Mem) (kPML4 a : Nat) : mmGetPhysicalAddress m kPML4 a < 2 ^ 64 := by
  have hframe : ∀ w, entryFrame w < 2 ^ 64 := by
    intro w
    have hget : pagePpn.get w < 2 ^ 28 := Field.get_lt pagePpn w
    unfold entryFrame
    rw [Nat.shiftLeft_eq]
    omega
  have hlow : a &&& 0xfff < 2 ^ 64 := lt_of_le_of_lt Nat.and_le_right (by decide)
  exact Nat.or_lt_two_pow (hframe _) hlow

/-! ## Laps -/

section
variable (m : Mem) (kPML4 : Nat)

/-- What the ring `r`, made as `init`, holds after the TRBs `xs` were added: a lap has `L = max_index - 1` of them, slot
`L` is the link's. -/
structure RingAt (init : XhciRing) (xs : List XhciTrb) (r : XhciRing) : Prop where
  ptr : r.ptr = init.ptr
  maxIndex : r.maxIndex = init.maxIndex
  index : r.index = xs.length % (init.maxIndex - 1)
  cycle : r.cycle = lapBit (init.maxIndex - 1) xs.length
  slots : ∀ j x, xs[j]? = some x → xs.length ≤ j + (init.maxIndex - 1) →
    r.trbs (j % (init.maxIndex - 1)) = x.setCycle (lapBit (init.maxIndex - 1) j)
  link : init.maxIndex - 1 ≤ xs.length → r.trbs (init.maxIndex - 1) =
    XhciTrb.link (lapBit (init.maxIndex - 1) (xs.length - (init.maxIndex - 1))) (mmGetPhysicalAddress m kPML4 init.ptr)
  fresh : ∀ i, i < init.maxIndex - 1 → xs.length ≤ i → r.trbs i = init.trbs i
  outside : ∀ i, init.maxIndex ≤ i → r.trbs i = init.trbs i

theorem ringAt_create (size ptr : Nat) (trbs : Nat → XhciTrb) (h : 2 ≤ (xhciRingCreate size ptr trbs).maxIndex) :
    RingAt m kPML4 (xhciRingCreate size ptr trbs) [] (xhciRingCreate size ptr trbs) := by
  refine ⟨rfl, rfl, (Nat.zero_mod _).symm, ?_, ?_, ?_, fun _ _ _ => rfl, fun _ _ => rfl⟩
  · rw [List.length_nil, lapBit_of_lt (by omega)]
    rfl
  · intro j x hx
    cases hx
  · intro hle
    rw [List.length_nil] at hle
    omega

theorem xhciRingAdd_eq (r : XhciRing) {trb : XhciTrb} (ht : trb.trbType ≠ 0) (L : Nat) (hmax : r.maxIndex = L + 1)
    (hlt : r.maxIndex < 2 ^ 32) (hidx : r.index < L) (hcyc : r.cycle < 2) :
    xhciRingAdd m kPML4 r trb = (0, trb.setCycle r.cycle,
      if r.index + 1 = L then
        { r with
          trbs := Function.update (Function.update r.trbs r.index (trb.setCycle r.cycle)) L
            (XhciTrb.link r.cycle (mmGetPhysicalAddress m kPML4 r.ptr)),
          index := 0, cycle := 1 - r.cycle }
      else { r with trbs := Function.update r.trbs r.index (trb.setCycle r.cycle), index := r.index + 1 }) := by
  have hinc : inc32 r.index = r.index + 1 := inc32_of_lt (by omega)
  have hdec : dec32 r.maxIndex = L := by rw [dec32_of_pos (by omega), hmax]; rfl
  have hflip : (if r.cycle = 0 then 1 else 0) = 1 - r.cycle := by split_ifs <;> omega
  unfold xhciRingAdd
  rw [if_neg ht]
  simp only [hinc, hdec, hflip]
  split_ifs with h
  · rw [h]
  · rfl

variable {m kPML4}

theorem RingAt.add {init r : XhciRing} {xs : List XhciTrb} (h : RingAt m kPML4 init xs r) (h2 : 2 ≤ init.maxIndex)
    (hlt : init.maxIndex < 2 ^ 32) {trb : XhciTrb} (ht : trb.trbType ≠ 0) :
    RingAt m kPML4 init (xs ++ [trb]) (xhciRingAdd m kPML4 r trb).2.2 := by
  obtain ⟨L, hL⟩ : ∃ L, init.maxIndex = L + 1 := ⟨init.maxIndex - 1, by omega⟩
  obtain ⟨hptr, hmax, hidx, hcyc, hslots, hlink, hfresh, hout⟩ := h
  rw [hL] at hmax hlt
  simp only [hL, Nat.add_sub_cancel] at hidx hcyc hslots hlink hfresh hout
  have hL0 : 0 < L := by omega
  have hidxlt : r.index < L := by
    rw [hidx]
    exact Nat.mod_lt _ hL0
  have hcyclt : r.cycle < 2 := by
    rw [hcyc]
    exact lapBit_lt
  -- the slot of an older TRB of the last lap is not the one written now
  have hother : ∀ j, j < xs.length → xs.length + 1 ≤ j + L → j % L ≠ r.index := by
    intro j hj hle he
    rw [hidx] at he
    have := eq_of_mod_eq (by omega : j ≤ xs.length) (by omega) he
    omega
  have hslot : ∀ j x, (xs ++ [trb])[j]? = some x → (xs ++ [trb]).length ≤ j + L →
      Function.update r.trbs r.index (trb.setCycle r.cycle) (j % L) = x.setCycle (lapBit L j) := by
    intro j x hj hle
    rw [List.length_append, List.length_singleton] at hle
    rcases getElem?_concat_eq_some hj with ⟨hjl, hj'⟩ | ⟨rfl, rfl⟩
    · rw [Function.update_of_ne (hother j hjl hle), hslots j x hj' (by omega)]
    · rw [← hidx, Function.update_self, hcyc]
  have hlen : (xs ++ [trb]).length = xs.length + 1 := by rw [List.length_append, List.length_singleton]
  rw [xhciRingAdd_eq m kPML4 r ht L hmax (by omega) hidxlt hcyclt]
  by_cases hend : r.index + 1 = L
  · rw [if_pos hend]
    have hmod : xs.length % L + 1 = L := by rw [← hidx]; exact hend
    constructor <;> simp only [hL, Nat.add_sub_cancel, hlen]
    · exact hptr
    · exact hmax
    · rw [mod_succ hL0, if_pos hmod]
    · rw [lapBit_succ hL0, if_pos hmod, hcyc]
    · intro j x hj hle
      have hne : j % L ≠ L := (Nat.mod_lt j hL0).ne
      rw [Function.update_of_ne hne]
      exact hslot j x hj (by rw [hlen]; exact hle)
    · intro hle
      have hdm := Nat.div_add_mod xs.length L
      have hlap : lapBit L (xs.length + 1 - L) = lapBit L xs.length := by
        have h1 := lapBit_add (n := xs.length + 1 - L) hL0
        rw [Nat.sub_add_cancel hle, lapBit_succ hL0, if_pos hmod] at h1
        have h2 := lapBit_lt (L := L) (n := xs.length + 1 - L)
        have h3 := lapBit_lt (L := L) (n := xs.length)
        omega
      rw [Function.update_self, hlap, hcyc, hptr]
    · intro i hi hle
      have hmodle := Nat.mod_le xs.length L
      omega
    · intro i hi
      rw [Function.update_of_ne (by omega), Function.update_of_ne (by omega)]
      exact hout i hi
  · rw [if_neg hend]
    have hmod : xs.length % L + 1 ≠ L := by rw [← hidx]; exact hend
    constructor <;> simp only [hL, Nat.add_sub_cancel, hlen]
    · exact hptr
    · exact hmax
    · rw [mod_succ hL0, if_neg hmod, hidx]
    · rw [lapBit_succ hL0, if_neg hmod, hcyc]
    · intro j x hj hle
      exact hslot j x hj (by rw [hlen]; exact hle)
    · intro hle
      have hne : xs.length + 1 ≠ L := by
        intro he
        rw [Nat.mod_eq_of_lt (by omega)] at hmod
        exact hmod he
      have hlap : lapBit L (xs.length + 1 - L) = lapBit L (xs.length - L) := by
        have h1 := lapBit_add (n := xs.length + 1 - L) hL0
        have h2 := lapBit_add (n := xs.length - L) hL0
        rw [Nat.sub_add_cancel hle, lapBit_succ hL0, if_neg hmod] at h1
        rw [Nat.sub_add_cancel (by omega)] at h2
        have h3 := lapBit_lt (L := L) (n := xs.length + 1 - L)
        have h4 := lapBit_lt (L := L) (n := xs.length - L)
        omega
      rw [Function.update_of_ne (by omega), hlink (by omega), hlap]
    · intro i hi hle
      have hne : i ≠ r.index := by
        have := Nat.mod_le xs.length L
        omega
      rw [Function.update_of_ne hne]
      exact hfresh i hi (by omega)
    · intro i hi
      rw [Function.update_of_ne (by omega)]
      exact hout i hi

variable (m kPML4)

/-- The ring after the calls `XhciRingAdd(ring, &x)` for the TRBs `xs`. -/
def xhciRingAdds (r : XhciRing) (xs : List XhciTrb) : XhciRing := xs.foldl (fun r x => (xhciRingAdd m kPML4 r x).2.2) r

variable {m kPML4}

theorem RingAt.adds {init r : XhciRing} {xs ys : List XhciTrb} (h : RingAt m kPML4 init xs r)
    (h2 : 2 ≤ init.maxIndex) (hlt : init.maxIndex < 2 ^ 32) (hys : ∀ y ∈ ys, y.trbType ≠ 0) :
    RingAt m kPML4 init (xs ++ ys) (xhciRingAdds m kPML4 r ys) := by
  induction ys generalizing xs r with
  | nil => simpa [xhciRingAdds] using h
  | cons y ys ih =>
      have hstep := h.add h2 hlt (hys y List.mem_cons_self)
      have hrest := ih hstep (fun z hz => hys z (List.mem_cons_of_mem y hz))
      rw [List.append_assoc] at hrest
      exact hrest

/-- **Laps.** Index, cycle state, slots and link after the calls `XhciRingAdd` for `xs`, over any number of laps. -/
theorem ring_add_laps (m : Mem) (kPML4 size ptr : Nat) (trbs : Nat → XhciTrb) (h0 : 0 < size) (hdvd : 256 ∣ size)
    (hlt : size < 2 ^ 24) (xs : List XhciTrb) (hxs : ∀ x ∈ xs, x.trbType ≠ 0) :
    let r := xhciRingAdds m kPML4 (xhciRingCreate size ptr trbs) xs
    let n := xs.length
    r.maxIndex = size ∧ (∀ i, size ≤ i → r.trbs i = trbs i) ∧
    r.index = n % (size - 1) ∧ (r.cycle = 1 ↔ Even (n / (size - 1))) ∧
    (∀ j x, xs[j]? = some x → n ≤ j + (size - 1) →
      r.trbs (j % (size - 1)) = x.setCycle (r.trbs (j % (size - 1))).cycle ∧
      ((r.trbs (j % (size - 1))).cycle = 1 ↔ Even (j / (size - 1)))) ∧
    (size - 1 ≤ n → (r.trbs (size - 1)).trbType = kTrbLink ∧ (r.trbs (size - 1)).toggleCycle = 1 ∧
      (r.trbs (size - 1)).rsAddr = mmGetPhysicalAddress m kPML4 r.ptr ∧
      ((r.trbs (size - 1)).cycle = 1 ↔ Even (n / (size - 1) - 1))) := by
  have hmax := xhciRingCreate_maxIndex hdvd hlt ptr trbs
  have hge : 256 ≤ size := Nat.le_of_dvd h0 hdvd
  have h2 : 2 ≤ (xhciRingCreate size ptr trbs).maxIndex := by omega
  have h := (ringAt_create m kPML4 size ptr trbs h2).adds h2 (by omega) hxs
  rw [List.nil_append] at h
  obtain ⟨hptr, hmaxr, hidx, hcyc, hslots, hlink, -, hout⟩ := h
  rw [hmax] at hmaxr hidx hcyc hslots hlink hout
  refine ⟨hmaxr, hout, hidx, ?_, ?_, ?_⟩
  · rw [hcyc, lapBit_eq_one_iff]
  · intro j x hj hle
    have hbit : lapBit (size - 1) j % 2 = lapBit (size - 1) j := Nat.mod_eq_of_lt lapBit_lt
    rw [hslots j x hj hle, XhciTrb.cycle_setCycle, hbit, lapBit_eq_one_iff]
    exact ⟨rfl, Iff.rfl⟩
  · intro hle
    have hbit : lapBit (size - 1) (xs.length - (size - 1)) % 2 = lapBit (size - 1) (xs.length - (size - 1)) :=
      Nat.mod_eq_of_lt lapBit_lt
    have hlap : (xs.length - (size - 1)) / (size - 1) = xs.length / (size - 1) - 1 := by
      have := Nat.sub_mul_div xs.length (size - 1) 1
      rwa [Nat.mul_one] at this
    rw [hlink hle, XhciTrb.trbType_link, XhciTrb.toggleCycle_link, XhciTrb.cycle_link,
      XhciTrb.rsAddr_link _ (mmGetPhysicalAddress_lt _ _ _), hptr, hbit, lapBit_eq_one_iff, hlap]
    exact ⟨rfl, rfl, rfl, Iff.rfl⟩

/-- 257 TRBs: on a ring of 256 slots the last two lie behind the link. -/
def pastLap : List XhciTrb := List.replicate 255 ⟨0, 0, 0, 0x400⟩ ++ [⟨1, 0, 0, 0x400⟩, ⟨2, 0, 0, 0x400⟩]

theorem pastLap_types : ∀ x ∈ pastLap, x.trbType ≠ 0 := by
  intro x hx
  rcases List.mem_append.mp hx with hx | hx
  · rw [List.eq_of_mem_replicate hx]
    decide
  · rcases List.mem_pair.mp hx with rfl | rfl <;> decide

theorem length_pastLap : pastLap.length = 257 := by
  rw [pastLap, List.length_append, List.length_replicate]
  rfl

theorem pastLap_last : pastLap[256]? = some ⟨2, 0, 0, 0x400⟩ := by
  rw [pastLap, List.getElem?_append_right (by rw [List.length_replicate]; decide), List.length_replicate]
  rfl

theorem ring_add_laps_second :
    let r := xhciRingAdds (fun _ => 0) 0 (xhciRingCreate 256 0x1000 fun _ => ⟨0, 0, 0, 0⟩) pastLap
    r.index = 2 ∧ r.cycle ≠ 1 ∧ (r.trbs 1).cycle ≠ 1 ∧ (r.trbs 255).trbType = kTrbLink ∧ (r.trbs 255).cycle = 1 := by
  intro r
  obtain ⟨-, -, hindex, hcycle, hslots, hlink⟩ := ring_add_laps (fun _ => 0) 0 256 0x1000 (fun _ => ⟨0, 0, 0, 0⟩)
    (by decide) (by decide) (by decide) pastLap pastLap_types
  rw [length_pastLap] at hindex hcycle hslots hlink
  obtain ⟨htype, -, -, hbit⟩ := hlink (by decide)
  have hslot := (hslots 256 ⟨2, 0, 0, 0x400⟩ pastLap_last (by decide)).2
  refine ⟨hindex, ?_, ?_, htype, hbit.mpr (by decide)⟩
  · exact fun h => absurd (hcycle.mp h) (by decide)
  · exact fun h => absurd (hslot.mp h) (by decide)

end

end Gewodsys.Dev
