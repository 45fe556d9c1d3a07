import Gewodsys.Dev.XhciRing

/-!
# Rings shared with the controller

* `TransferRun` : the ring of a producer, which calls `XhciRingAdd`, and of the controller, which takes a slot when its
  cycle bit is the controller's cycle state; `transferStep` interleaves them;
* `TransferInv` : how far each of them is, in TRBs and in slots;
* `ring_taken_prefix` : over a buffer whose cycle bits are clear, what was taken is a prefix of what was added;
* `EventRun` : the event ring, which the controller writes and `XhciRingGet` reads;
* `event_ring_correct_iff` : `XhciRingGet` tells that there is an event exactly as long as there was none.
-/

namespace Gewodsys.Dev
open Gewodsys.Machine Gewodsys.Mem

/-! ## Producer and controller -/

/-- A Link TRB at which the controller goes back to slot `0`. -/
def XhciTrb.IsToggleLink (t : XhciTrb) : Prop := t.trbType = kTrbLink ∧ t.toggleCycle = 1

instance (t : XhciTrb) : Decidable t.IsToggleLink :=
  inferInstanceAs (Decidable (t.trbType = kTrbLink ∧ t.toggleCycle = 1))

/-- The ring, the controller's slot and cycle state, and the TRBs added and taken so far. -/
structure TransferRun where
  ring : XhciRing
  slot : Nat
  ccs : Nat
  added : List XhciTrb
  taken : List XhciTrb

inductive TransferOp where
  | add (trb : XhciTrb)
  | consume

def TransferRun.create (ring : XhciRing) : TransferRun := ⟨ring, 0, 1, [], []⟩

section
variable (m : Mem) (kPML4 : Nat)

/-- One step of either side; `none` where the producer would be more than `max_index - 1` TRBs ahead. -/
def transferStep (s : TransferRun) : TransferOp → Option TransferRun
  | .add trb =>
      let (code, trb', ring') := xhciRingAdd m kPML4 s.ring trb
      let added := if code = 0 then s.added ++ [trb'] else s.added
      if added.length ≤ s.taken.length + (s.ring.maxIndex - 1) then some { s with ring := ring', added := added }
      else none
  | .consume =>
      let t := s.ring.trbs s.slot
      if t.cycle ≠ s.ccs then some s
      else if t.IsToggleLink then some { s with slot := 0, ccs := 1 - s.ccs }
      else some { s with slot := s.slot + 1, taken := s.taken ++ [t] }

/-- The TRB handed to `XhciRingAdd` is not itself a Link TRB with `toggle_cycle`. -/
def AddsNoLink (_ : TransferRun) : TransferOp → Prop
  | .add trb => ¬ trb.IsToggleLink
  | .consume => True

/-- Where the controller is after `t` TRBs in laps of `L`: at the slot of the next one, or still at the link. -/
def ConsumerAt (L t slot ccs : Nat) : Prop :=
  (slot = t % L ∧ ccs = lapBit L t) ∨ (0 < t ∧ t % L = 0 ∧ slot = L ∧ ccs = 1 - lapBit L t)

structure TransferInv (init : XhciRing) (s : TransferRun) : Prop where
  ring : RingAt m kPML4 init s.added s.ring
  bits : ∀ j x, s.added[j]? = some x → x.cycle = lapBit (init.maxIndex - 1) j
  noLink : ∀ x ∈ s.added, ¬ x.IsToggleLink
  pfx : s.taken <+: s.added
  ahead : s.added.length ≤ s.taken.length + (init.maxIndex - 1)
  consumer : ConsumerAt (init.maxIndex - 1) s.taken.length s.slot s.ccs

theorem XhciTrb.setCycle_cycle (t : XhciTrb) : t.setCycle t.cycle = t := by
  unfold XhciTrb.setCycle XhciTrb.cycle
  rw [Field.set_get]

theorem XhciTrb.setCycle_setCycle (t : XhciTrb) (v w : Nat) : (t.setCycle v).setCycle w = t.setCycle w := by
  unfold XhciTrb.setCycle
  congr 1
  apply Nat.eq_of_testBit_eq
  intro i
  rw [Field.testBit_set, Field.testBit_set, Field.testBit_set]
  split_ifs <;> rfl

variable {m kPML4}

theorem xhciRingAdd_setCycle (r : XhciRing) (trb : XhciTrb) (v : Nat) (ht : trb.trbType ≠ 0) :
    xhciRingAdd m kPML4 r (trb.setCycle v) = xhciRingAdd m kPML4 r trb := by
  unfold xhciRingAdd
  rw [XhciTrb.trbType_setCycle, if_neg ht, if_neg ht, XhciTrb.setCycle_setCycle]

theorem xhciRingAdd_of_type_zero (r : XhciRing) {trb : XhciTrb} (ht : trb.trbType = 0) :
    xhciRingAdd m kPML4 r trb = (-1, trb, r) := by
  unfold xhciRingAdd
  rw [if_pos ht]

theorem TransferInv.add {init : XhciRing} {s s' : TransferRun} (h : TransferInv m kPML4 init s)
    (h2 : 2 ≤ init.maxIndex) (hlt : init.maxIndex < 2 ^ 32) {trb : XhciTrb} (hn : ¬ trb.IsToggleLink)
    (hstep : transferStep m kPML4 s (.add trb) = some s') : TransferInv m kPML4 init s' := by
  by_cases ht : trb.trbType = 0
  · simp only [transferStep, xhciRingAdd_of_type_zero s.ring ht, if_neg (show ¬ (-1 : Int) = 0 by decide)] at hstep
    split_ifs at hstep
    rw [← Option.some.inj hstep]
    exact ⟨h.ring, h.bits, h.noLink, h.pfx, h.ahead, h.consumer⟩
  · have hcyc : s.ring.cycle < 2 := by
      rw [h.ring.cycle]
      exact lapBit_lt
    have hidx : s.ring.index < init.maxIndex - 1 := by
      rw [h.ring.index]
      exact Nat.mod_lt _ (by omega)
    have hmax := h.ring.maxIndex
    have hres := xhciRingAdd_eq m kPML4 s.ring ht (init.maxIndex - 1) (by omega) (by omega) hidx hcyc
    have ht' : (trb.setCycle s.ring.cycle).trbType ≠ 0 := by rwa [XhciTrb.trbType_setCycle]
    have hring := h.ring.add h2 hlt ht'
    rw [xhciRingAdd_setCycle _ _ _ ht] at hring
    have hcode : (xhciRingAdd m kPML4 s.ring trb).1 = 0 := by rw [hres]
    have htrb : (xhciRingAdd m kPML4 s.ring trb).2.1 = trb.setCycle s.ring.cycle := by rw [hres]
    simp only [transferStep, hcode, htrb, if_pos] at hstep
    split_ifs at hstep with hahead
    rw [← Option.some.inj hstep]
    refine ⟨hring, ?_, ?_, h.pfx.trans (List.prefix_append _ _), ?_, h.consumer⟩
    · intro j x hj
      rcases getElem?_concat_eq_some hj with ⟨-, hj'⟩ | ⟨rfl, rfl⟩
      · exact h.bits j x hj'
      · rw [XhciTrb.cycle_setCycle, h.ring.cycle, Nat.mod_eq_of_lt lapBit_lt]
    · intro x hx
      rcases List.mem_append.mp hx with hx | hx
      · exact h.noLink x hx
      · rw [List.mem_singleton.mp hx]
        unfold XhciTrb.IsToggleLink
        rwa [XhciTrb.trbType_setCycle, XhciTrb.toggleCycle_setCycle]
    · rw [hmax] at hahead
      exact hahead

/-- The slot the controller is at: its TRB is the next one, or it is not for the controller yet. -/
theorem TransferInv.next_slot {init : XhciRing} {s : TransferRun} (h : TransferInv m kPML4 init s)
    (h2 : 2 ≤ init.maxIndex) (hclear : ∀ i < init.maxIndex - 1, (init.trbs i).cycle = 0)
    (hslot : s.slot = s.taken.length % (init.maxIndex - 1))
    (hccs : s.ccs = lapBit (init.maxIndex - 1) s.taken.length) (hbit : (s.ring.trbs s.slot).cycle = s.ccs) :
    s.added[s.taken.length]? = some (s.ring.trbs s.slot) := by
  have hL0 : 0 < init.maxIndex - 1 := by omega
  have hle := h.pfx.length_le
  have hahead := h.ahead
  set L := init.maxIndex - 1
  rcases Nat.lt_or_ge s.taken.length s.added.length with hlt | hge
  · have hj : s.added[s.taken.length]? = some s.added[s.taken.length] := List.getElem?_eq_getElem hlt
    rw [hslot, h.ring.slots _ _ hj (by omega), ← h.bits _ _ hj, XhciTrb.setCycle_cycle, hj]
  -- nothing to take: the slot is from the lap before, or was never written
  · have hn : s.taken.length = s.added.length := by omega
    exfalso
    rcases Nat.lt_or_ge s.added.length L with hfirst | hlater
    · rw [hslot, hn, Nat.mod_eq_of_lt hfirst, h.ring.fresh _ hfirst (le_refl _), hclear _ hfirst, hccs, hn,
        lapBit_of_lt hfirst] at hbit
      cases hbit
    · have hj : s.added[s.added.length - L]? = some s.added[s.added.length - L] := by
        rw [List.getElem?_eq_getElem (by omega)]
      have hmod : (s.added.length - L) % L = s.added.length % L := by
        rw [← Nat.add_mod_right, Nat.sub_add_cancel hlater]
      have hold := h.ring.slots _ _ hj (by omega)
      rw [hmod] at hold
      have hflip := lapBit_add (n := s.added.length - L) hL0
      rw [Nat.sub_add_cancel hlater] at hflip
      have hlt := lapBit_lt (L := L) (n := s.added.length - L)
      rw [hslot, hn, hold, XhciTrb.cycle_setCycle, Nat.mod_eq_of_lt hlt, hccs, hn, hflip] at hbit
      omega

theorem TransferInv.consume {init : XhciRing} {s s' : TransferRun} (h : TransferInv m kPML4 init s)
    (h2 : 2 ≤ init.maxIndex) (hclear : ∀ i < init.maxIndex - 1, (init.trbs i).cycle = 0)
    (hstep : transferStep m kPML4 s .consume = some s') : TransferInv m kPML4 init s' := by
  have hL0 : 0 < init.maxIndex - 1 := by omega
  simp only [transferStep] at hstep
  split_ifs at hstep with hbit hlink
  · rw [← Option.some.inj hstep]
    exact h
  · rw [← Option.some.inj hstep]
    rw [ne_eq, not_not] at hbit
    refine ⟨h.ring, h.bits, h.noLink, h.pfx, h.ahead, ?_⟩
    rcases h.consumer with ⟨hslot, hccs⟩ | ⟨-, hmod, -, hccs⟩
    · -- a Link TRB among the added ones
      have hget := h.next_slot h2 hclear hslot hccs hbit
      exact absurd hlink (h.noLink _ (List.mem_of_getElem? hget))
    · refine Or.inl ⟨hmod.symm, ?_⟩
      have := lapBit_lt (L := init.maxIndex - 1) (n := s.taken.length)
      simp only [hccs]
      omega
  · rw [← Option.some.inj hstep]
    rw [ne_eq, not_not] at hbit
    rcases h.consumer with ⟨hslot, hccs⟩ | ⟨hpos, hmod, hslot, -⟩
    · have hget := h.next_slot h2 hclear hslot hccs hbit
      have hlt : s.taken.length < s.added.length := (List.getElem?_eq_some_iff.mp hget).1
      have htake : s.taken ++ [s.ring.trbs s.slot] = s.added.take (s.taken.length + 1) := by
        rw [List.take_add_one, hget, ← List.prefix_iff_eq_take.mp h.pfx]
        rfl
      refine ⟨h.ring, h.bits, h.noLink, ?_, ?_, ?_⟩
      · simp only [htake]
        exact List.take_prefix _ _
      · have := h.ahead
        simp only [List.length_append, List.length_singleton]
        omega
      · simp only [List.length_append, List.length_singleton]
        by_cases hend : s.taken.length % (init.maxIndex - 1) + 1 = init.maxIndex - 1
        · refine Or.inr ⟨by omega, ?_, by rw [hslot, hend], ?_⟩
          · rw [mod_succ hL0, if_pos hend]
          · have := lapBit_lt (L := init.maxIndex - 1) (n := s.taken.length)
            rw [lapBit_succ hL0, if_pos hend, hccs]
            omega
        · refine Or.inl ⟨?_, ?_⟩
          · rw [mod_succ hL0, if_neg hend, hslot]
          · rw [lapBit_succ hL0, if_neg hend, hccs]
    · -- at the link slot there is nothing but the link
      have hle := h.pfx.length_le
      have hdvd := Nat.le_of_dvd hpos (Nat.dvd_of_mod_eq_zero hmod)
      exfalso
      apply hlink
      rw [hslot, h.ring.link (by omega)]
      exact ⟨XhciTrb.trbType_link _ _, XhciTrb.toggleCycle_link _ _⟩

theorem TransferInv.of_run {init : XhciRing} (h2 : 2 ≤ init.maxIndex) (hlt : init.maxIndex < 2 ^ 32)
    (hclear : ∀ i < init.maxIndex - 1, (init.trbs i).cycle = 0) {s s' : TransferRun} {ops : List TransferOp}
    (h : TransferInv m kPML4 init s) (hmeet : StepsMeet (transferStep m kPML4) AddsNoLink s ops)
    (hrun : run (transferStep m kPML4) s ops = some s') : TransferInv m kPML4 init s' := by
  refine run_invariant ?_ h hmeet hrun
  intro r o r' hr hc hstep
  cases o with
  | add trb => exact hr.add h2 hlt hc hstep
  | consume => exact hr.consume h2 hclear hstep

/-- **Nothing lost, repeated or made up**, where the buffer's cycle bits are clear and no Link TRB is added. -/
theorem ring_taken_prefix (m : Mem) (kPML4 ptr : Nat) (trbs : Nat → XhciTrb) (hclear : ∀ i < 255, (trbs i).cycle = 0)
    (ops : List TransferOp) (s : TransferRun)
    (hmeet : StepsMeet (transferStep m kPML4) AddsNoLink (TransferRun.create (xhciRingCreate 256 ptr trbs)) ops)
    (hrun : run (transferStep m kPML4) (TransferRun.create (xhciRingCreate 256 ptr trbs)) ops = some s) :
    s.taken <+: s.added := by
  have hmax : (xhciRingCreate 256 ptr trbs).maxIndex = 256 :=
    xhciRingCreate_maxIndex (by decide) (by decide) ptr trbs
  have h2 : 2 ≤ (xhciRingCreate 256 ptr trbs).maxIndex := by omega
  have hL : 0 < (xhciRingCreate 256 ptr trbs).maxIndex - 1 := by omega
  have hinit : TransferInv m kPML4 (xhciRingCreate 256 ptr trbs)
      (TransferRun.create (xhciRingCreate 256 ptr trbs)) :=
    ⟨ringAt_create m kPML4 256 ptr trbs h2, by simp [TransferRun.create], by simp [TransferRun.create],
      List.nil_prefix, Nat.zero_le _, Or.inl ⟨(Nat.zero_mod _).symm, (lapBit_of_lt hL).symm⟩⟩
  refine (hinit.of_run h2 (by omega) ?_ hmeet hrun).pfx
  rw [hmax]
  exact hclear

/-- 256 TRBs, added two at a time and taken; the last one lies behind the link. -/
def pastLink : List TransferOp :=
  (List.replicate 127 [.add ⟨0, 0, 0, 0x400⟩, .add ⟨1, 0, 0, 0x400⟩, .consume, .consume]).flatten ++
    [.add ⟨2, 0, 0, 0x400⟩, .add ⟨3, 0, 0, 0x400⟩, .consume, .consume, .consume]

theorem pastLink_addsNoLink (s : TransferRun) : StepsMeet (transferStep (fun _ => 0) 0) AddsNoLink s pastLink := by
  have hall : ∀ o ∈ pastLink, ∀ r, AddsNoLink r o := by
    intro o ho r
    unfold pastLink at ho
    simp only [List.mem_append, List.mem_flatten, List.mem_replicate] at ho
    rcases ho with ⟨l, ⟨-, rfl⟩, ho⟩ | ho
    · fin_cases ho <;> first | trivial | (change ¬ XhciTrb.IsToggleLink _; decide)
    · fin_cases ho <;> first | trivial | (change ¬ XhciTrb.IsToggleLink _; decide)
  exact stepsMeet_of_forall hall s

theorem ring_taken_prefix_lap :
    ∃ s, run (transferStep (fun _ => 0) 0) (TransferRun.create (xhciRingCreate 256 0x1000 fun _ => ⟨0, 0, 0, 0⟩))
        pastLink = some s ∧ s.taken.length = 256 ∧ s.slot = 1 ∧ s.taken <+: s.added := by
  have hrun : (run (transferStep (fun _ => 0) 0) (TransferRun.create (xhciRingCreate 256 0x1000 fun _ => ⟨0, 0, 0, 0⟩))
      pastLink).map (fun s => (s.taken.length, s.slot)) = some (256, 1) := by decide +kernel
  obtain ⟨s, hs, heq⟩ := Option.map_eq_some_iff.mp hrun
  obtain ⟨hlen, hslot⟩ := Prod.mk.inj heq
  exact ⟨s, hs, hlen, hslot, ring_taken_prefix (fun _ => 0) 0 0x1000 (fun _ => ⟨0, 0, 0, 0⟩) (fun _ _ => rfl) _ s
    (pastLink_addsNoLink _) hs⟩

/-- A buffer that held a set cycle bit in slot `0`: the controller takes what was never added. -/
theorem ring_takes_stale_slot :
    ¬ ∀ (trbs : Nat → XhciTrb) (ops : List TransferOp) (s : TransferRun),
      run (transferStep (fun _ => 0) 0) (TransferRun.create (xhciRingCreate 256 0x1000 trbs)) ops = some s →
        s.taken <+: s.added := by
  intro h
  have hstale := h (fun _ => ⟨0, 0, 0, 0x401⟩) [.consume] _ rfl
  exact absurd hstale.length_le (by decide)

end

/-! ## The event ring -/

/-- The event ring, the events written and those that `XhciRingGet` returned. -/
structure EventRun where
  ring : XhciRing
  written : List XhciTrb
  got : List XhciTrb

inductive EventOp where
  | write (event : XhciTrb)
  | get (trb : Nat)

/-- The ring that `XhciInterrupterCreate` makes, with a cleared buffer at `ptr`. -/
def EventRun.create (ptr : Nat) : EventRun := ⟨xhciRingCreate 256 ptr fun _ => ⟨0, 0, 0, 0⟩, [], []⟩

/-- One step: the controller writes an event, at most `max_index` ahead, or the driver calls `XhciRingGet`. -/
def eventStep (s : EventRun) : EventOp → Option EventRun
  | .write event =>
      let n := s.written.length
      let event := event.setCycle (lapBit s.ring.maxIndex n)
      if event.trbType ≠ 0 ∧ n < s.got.length + s.ring.maxIndex then
        some { s with
          ring := { s.ring with trbs := Function.update s.ring.trbs (n % s.ring.maxIndex) event },
          written := s.written ++ [event] }
      else none
  | .get trb =>
      if trb = 0 then none
      else
        let (_, last, ring') := xhciRingGet s.ring trb
        some { s with ring := ring', got := s.got ++ last.toList }

/-- What was returned is a prefix of what was written, and `XhciRingGet` fails exactly when there is nothing unread. -/
def EventsRead (s : EventRun) (o : EventOp) : Prop :=
  s.got <+: s.written ∧ ∀ trb, o = .get trb → ((xhciRingGet s.ring trb).1 = -1 ↔ s.got.length = s.written.length)

/-- No event was written yet when `XhciRingGet` is called. -/
def ReadsNone (s : EventRun) (o : EventOp) : Prop := ∀ trb, o = .get trb → s.written = []

/-- At index `0`, where the ring starts, `XhciRingGet` always fails. -/
theorem xhciRingGet_of_index_zero {r : XhciRing} (h : r.index = 0) (trb : Nat) : xhciRingGet r trb = (-1, none, r) := by
  unfold xhciRingGet
  rw [if_pos (Or.inr h)]

/-- The index never leaves `0` and nothing is ever returned. -/
def EventStuck (s : EventRun) : Prop := s.ring.index = 0 ∧ s.got = []

theorem EventStuck.step {s s' : EventRun} {o : EventOp} (h : EventStuck s) (hstep : eventStep s o = some s') :
    EventStuck s' := by
  cases o with
  | write event =>
      simp only [eventStep] at hstep
      split_ifs at hstep
      rw [← Option.some.inj hstep]
      exact h
  | get trb =>
      simp only [eventStep, xhciRingGet_of_index_zero h.1] at hstep
      split_ifs at hstep
      rw [← Option.some.inj hstep]
      exact ⟨h.1, by simp [h.2]⟩

theorem EventStuck.eventsRead_iff {s : EventRun} (h : EventStuck s) (o : EventOp) :
    EventsRead s o ↔ ReadsNone s o := by
  have hpfx : s.got <+: s.written := by
    rw [h.2]
    exact List.nil_prefix
  constructor
  · intro hr trb ho
    have hnone := (hr.2 trb ho).mp (by rw [xhciRingGet_of_index_zero h.1])
    rw [h.2, List.length_nil] at hnone
    exact List.length_eq_zero_iff.mp hnone.symm
  · intro hr
    refine ⟨hpfx, fun trb ho => ?_⟩
    rw [xhciRingGet_of_index_zero h.1, h.2, hr trb ho]
    simp

/-- **The event ring.** The calls of `XhciRingGet` in a run are all right exactly when each of them is made before the
first event. -/
theorem event_ring_correct_iff (ptr : Nat) (ops : List EventOp) (s : EventRun)
    (hrun : run eventStep (EventRun.create ptr) ops = some s) :
    (StepsMeet eventStep EventsRead (EventRun.create ptr) ops ∧ s.got <+: s.written) ↔
      StepsMeet eventStep ReadsNone (EventRun.create ptr) ops := by
  have hinit : EventStuck (EventRun.create ptr) := ⟨rfl, rfl⟩
  have hend : EventStuck s :=
    run_invariant (fun _ _ _ h _ hstep => h.step hstep) hinit (stepsMeet_true _ _) hrun
  have hpfx : s.got <+: s.written := by
    rw [hend.2]
    exact List.nil_prefix
  rw [and_iff_left hpfx]
  exact stepsMeet_congr (fun _ _ _ h hstep => h.step hstep) (fun _ o h => h.eventsRead_iff o) hinit

/-- Two calls before the first event, and two events after them. -/
theorem event_ring_correct_iff_before : ∃ s, run eventStep (EventRun.create 0x1000)
      [.get 0x2000, .get 0x2000, .write ⟨0, 0, 0, 0x8000⟩, .write ⟨1, 0, 0, 0x8000⟩] = some s ∧ s.written.length = 2 ∧
    StepsMeet eventStep EventsRead (EventRun.create 0x1000)
      [.get 0x2000, .get 0x2000, .write ⟨0, 0, 0, 0x8000⟩, .write ⟨1, 0, 0, 0x8000⟩] ∧ s.got <+: s.written := by
  have hrun : (run eventStep (EventRun.create 0x1000) [.get 0x2000, .get 0x2000, .write ⟨0, 0, 0, 0x8000⟩,
      .write ⟨1, 0, 0, 0x8000⟩]).map (fun s => s.written.length) = some 2 := by decide +kernel
  obtain ⟨s, hs, hlen⟩ := Option.map_eq_some_iff.mp hrun
  refine ⟨s, hs, hlen, (event_ring_correct_iff 0x1000 _ s hs).mpr ⟨fun _ _ => rfl, fun s₁ h₁ => ⟨fun _ _ => ?_, ?_⟩⟩⟩
  · have hnone : (eventStep (EventRun.create 0x1000) (.get 0x2000)).map (fun s => s.written.length) = some 0 := by
      decide +kernel
    rw [h₁, Option.map_some, Option.some.injEq] at hnone
    exact List.length_eq_zero_iff.mp hnone
  · exact fun s₂ _ => stepsMeet_of_forall (by simp [ReadsNone]) s₂

/-- After one event `XhciRingGet` still says that there is none. -/
theorem event_ring_misses_first_event :
    ¬ ∀ (ops : List EventOp) (s : EventRun), run eventStep (EventRun.create 0x1000) ops = some s →
      StepsMeet eventStep EventsRead (EventRun.create 0x1000) ops := by
  intro h
  have hsome : (run eventStep (EventRun.create 0x1000) [.write ⟨0, 0, 0, 0x8000⟩, .get 0x2000]).isSome = true := by
    decide +kernel
  obtain ⟨s, hrun⟩ := Option.isSome_iff_exists.mp hsome
  have hmeet := h _ s hrun
  obtain ⟨s₁, hs₁, -⟩ := run_cons_eq_some.mp hrun
  have hlen : (eventStep (EventRun.create 0x1000) (.write ⟨0, 0, 0, 0x8000⟩)).map
      (fun s => (s.got.length, s.written.length)) = some (0, 1) := by decide +kernel
  have hstuck : EventStuck s₁ := EventStuck.step ⟨rfl, rfl⟩ hs₁
  rw [hs₁, Option.map_some, Option.some.injEq, Prod.mk.injEq] at hlen
  have hget := ((hmeet.2 s₁ hs₁).1.2 0x2000 rfl).mp (by rw [xhciRingGet_of_index_zero hstuck.1])
  omega

end Gewodsys.Dev
