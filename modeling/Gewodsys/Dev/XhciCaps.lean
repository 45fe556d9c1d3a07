import Gewodsys.Dev.PciBar

/-!
# The capability loop of `XhciInterrupterCreate`: `dev/usb/xhci.c`

* `capabilityLoop` : the search for MSI-X, with the offsets it visits; it is given fuel, `none` when that runs out;
* `CapChain` : a well-formed capability list, as the bytes of configuration space spell it;
* `FollowsList.msix` : the register that is found then;
* `capability_loop_iff` : the loop follows the list if and only if every link of it happens to satisfy
  `p + 3 * q ≡ 0 (mod 256)`, because `XCAP_NEXT` is added to the address where it should replace it.
-/

namespace Gewodsys.Dev
open Gewodsys.Machine

def xcapId (v : Nat) : Nat := v &&& 0xFF
def xcapNext (v : Nat) : Nat := ((v >>> 8) &&& 0xFF) <<< 2

/-- What the loop leaves: the offsets it visited, the dword behind the MSI-X capability if it found one, the ports. -/
structure CapSearch where
  visited : List Nat
  msix : Option Nat
  ports : PciPorts

/-- The loop at `address`, where `capability` was read. -/
def capabilityLoop (device : PciDevice) : Nat → PciPorts → Nat → Nat → Option CapSearch
  | 0, _, _, _ => none
  | fuel + 1, p, address, capability =>
      if xcapId capability = 0x11 then
        let (raw, p) := pciRead32 p device (UInt8.ofNat ((address + 0x4) % 2 ^ 32))
        let p := pciWrite32 p device (UInt8.ofNat address) (UInt32.ofNat (capability ||| 0x8000))
        some ⟨[address % 256], some raw, p⟩
      else if xcapNext capability = 0 then some ⟨[address % 256], none, p⟩
      else
        let address' := (address + xcapNext capability) % 2 ^ 32
        let (capability', p) := pciRead32 p device (UInt8.ofNat address')
        (capabilityLoop device fuel p address' capability').map fun r => { r with visited := address % 256 :: r.visited }

/-- The search from the capabilities pointer on. -/
def capabilitySearch (p : PciPorts) (device : PciDevice) (fuel : Nat) : Option CapSearch :=
  let (pointer, p) := pciRead32 p device 0x34
  let address := pointer &&& 0xFF
  let (capability, p) := pciRead32 p device (UInt8.ofNat address)
  capabilityLoop device fuel p address capability

/-! ## Well-formed lists -/

/-- The byte at `o` of a function's configuration space. -/
def capByte (m : Mem) (d : PciDevice) (o : Nat) : Nat := (m (functionBase d + o)).toNat

/-- `cs` are the capabilities of the list that starts at `o`: aligned offsets, each named by byte 1 of the one before, and
offset 0 at the end. A list with a cycle has no end. -/
def CapChain (m : Mem) (d : PciDevice) : Nat → List Nat → Prop
  | o, [] => o = 0
  | o, c :: cs => o = c ∧ c ≠ 0 ∧ c % 4 = 0 ∧ CapChain m d (capByte m d (c + 1)) cs

instance instDecidableCapChain (m : Mem) (d : PciDevice) : (o : Nat) → (cs : List Nat) → Decidable (CapChain m d o cs)
  | o, [] => inferInstanceAs (Decidable (o = 0))
  | o, c :: cs =>
      have := instDecidableCapChain m d (capByte m d (c + 1)) cs
      inferInstanceAs (Decidable (o = c ∧ c ≠ 0 ∧ c % 4 = 0 ∧ CapChain m d (capByte m d (c + 1)) cs))

/-- The capabilities up to the first one that is MSI-X. -/
def upToMsix (m : Mem) (d : PciDevice) : List Nat → List Nat
  | [] => []
  | c :: cs => if capByte m d c = 0x11 then [c] else c :: upToMsix m d cs

/-- The loop ends, visits the capabilities of the list up to MSI-X, and finds MSI-X if the list has it. -/
def FollowsList (p : PciPorts) (d : PciDevice) (cs : List Nat) : Prop :=
  ∃ fuel r, capabilitySearch p d fuel = some r ∧ r.visited = upToMsix p.config d cs ∧
    (r.msix.isSome = true ↔ ∃ c ∈ cs, capByte p.config d c = 0x11)

/-! ## The bytes of a capability -/

theorem capByte_lt (m : Mem) (d : PciDevice) (o : Nat) : capByte m d o < 256 := (m (functionBase d + o)).isLt

theorem toNat_ofNat_address (a : Nat) : (UInt8.ofNat a).toNat = a % 256 := UInt8.toNat_ofNat'

section
variable {p : PciPorts} {d : PciDevice} (hd : d.Valid) {a c : Nat} (hac : a % 256 = c) (h4 : c % 4 = 0)
include hd hac h4

theorem pciRead32_capability :
    ∃ rest, (pciRead32 p d (UInt8.ofNat a)).1 = capByte p.config d c + 256 * (capByte p.config d (c + 1) + 256 * rest) := by
  have ha := toNat_ofNat_address a
  refine ⟨p.config.read (functionBase d + c + 1 + 1) 2, ?_⟩
  rw [pciRead32_eq p hd (by omega) (by omega), ha, hac, capByte, capByte, ← Nat.add_assoc]
  simp only [Mem.read]

theorem xcapId_capability : xcapId (pciRead32 p d (UInt8.ofNat a)).1 = capByte p.config d c := by
  obtain ⟨rest, hrest⟩ := pciRead32_capability (p := p) hd hac h4
  have hlt := capByte_lt p.config d c
  change _ &&& (2 ^ 8 - 1) = _
  rw [land_low, hrest]
  omega

theorem xcapNext_capability : xcapNext (pciRead32 p d (UInt8.ofNat a)).1 = 4 * capByte p.config d (c + 1) := by
  obtain ⟨rest, hrest⟩ := pciRead32_capability (p := p) hd hac h4
  have hlt := capByte_lt p.config d c
  have hlt' := capByte_lt p.config d (c + 1)
  change (((pciRead32 p d (UInt8.ofNat a)).1 >>> 8) &&& (2 ^ 8 - 1)) <<< 2 = _
  rw [land_low, Nat.shiftLeft_eq, Nat.shiftRight_eq_div_pow, hrest]
  omega

end

/-! ## The loop against the list -/

theorem visited_head {d : PciDevice} {fuel : Nat} {p : PciPorts} {address capability : Nat} {r : CapSearch}
    (h : capabilityLoop d fuel p address capability = some r) : r.visited.head? = some (address % 256) := by
  cases fuel with
  | zero => cases h
  | succ fuel =>
      rw [capabilityLoop] at h
      split_ifs at h with hid hnext
      · rw [← Option.some.inj h]
        rfl
      · rw [← Option.some.inj h]
        rfl
      · obtain ⟨r', -, rfl⟩ := Option.map_eq_some_iff.mp h
        rfl

/-- One link of a list that the loop follows by accident: adding four times `q` to `p` leads to `q`. -/
def LinkMet (p q : Nat) : Prop := (p + 3 * q) % 256 = 0

instance (p q : Nat) : Decidable (LinkMet p q) := inferInstanceAs (Decidable ((p + 3 * q) % 256 = 0))

/-- The loop at an address follows the list `cs` of capabilities. -/
def FollowsFrom (p : PciPorts) (d : PciDevice) (a : Nat) (cs : List Nat) : Prop :=
  ∃ fuel r, capabilityLoop d fuel p a (pciRead32 p d (UInt8.ofNat a)).1 = some r ∧
    r.visited = upToMsix p.config d cs ∧ (r.msix.isSome = true ↔ ∃ c ∈ cs, capByte p.config d c = 0x11)

theorem upToMsix_head (m : Mem) (d : PciDevice) (c : Nat) (cs : List Nat) :
    ∃ rest, upToMsix m d (c :: cs) = c :: rest := by
  rw [upToMsix]
  split_ifs
  · exact ⟨[], rfl⟩
  · exact ⟨_, rfl⟩

section
variable {p : PciPorts} {d : PciDevice} (hd : d.Valid) {a c : Nat} (hac : a % 256 = c) (h4 : c % 4 = 0)
include hd hac h4

theorem followsFrom_msix (hid : capByte p.config d c = 0x11) (cs : List Nat) : FollowsFrom p d a (c :: cs) := by
  have hloop : xcapId (pciRead32 p d (UInt8.ofNat a)).1 = 0x11 := (xcapId_capability hd hac h4).trans hid
  refine ⟨1, _, if_pos hloop, ?_, ?_⟩
  · rw [upToMsix, if_pos hid, hac]
  · exact iff_of_true rfl ⟨c, List.mem_cons_self, hid⟩

theorem followsFrom_last (hid : capByte p.config d c ≠ 0x11) (hend : capByte p.config d (c + 1) = 0) :
    FollowsFrom p d a [c] := by
  have hloop : ¬ xcapId (pciRead32 p d (UInt8.ofNat a)).1 = 0x11 := by rwa [xcapId_capability hd hac h4]
  have hnext : xcapNext (pciRead32 p d (UInt8.ofNat a)).1 = 0 := by rw [xcapNext_capability hd hac h4, hend]
  refine ⟨1, _, (if_neg hloop).trans (if_pos hnext), ?_, ?_⟩
  · rw [upToMsix, if_neg hid, hac]
    rfl
  · refine iff_of_false (by simp) ?_
    rintro ⟨c', hc', hid'⟩
    rw [List.mem_singleton.mp hc'] at hid'
    exact hid hid'

theorem followsFrom_next (hid : capByte p.config d c ≠ 0x11) {c₂ : Nat} (h0 : c₂ ≠ 0)
    (hlink : capByte p.config d (c + 1) = c₂) (cs : List Nat) :
    FollowsFrom p d a (c :: c₂ :: cs) ↔ LinkMet c c₂ ∧
      FollowsFrom (pciRead32 p d (UInt8.ofNat ((a + 4 * c₂) % 2 ^ 32))).2 d ((a + 4 * c₂) % 2 ^ 32) (c₂ :: cs) := by
  have hloop : ¬ xcapId (pciRead32 p d (UInt8.ofNat a)).1 = 0x11 := by rwa [xcapId_capability hd hac h4]
  have hnext : xcapNext (pciRead32 p d (UInt8.ofNat a)).1 = 4 * c₂ := by rw [xcapNext_capability hd hac h4, hlink]
  have hmore : ¬ xcapNext (pciRead32 p d (UInt8.ofNat a)).1 = 0 := by omega
  have hlt : c₂ < 256 := hlink ▸ capByte_lt p.config d (c + 1)
  have hstep : ∀ fuel, capabilityLoop d (fuel + 1) p a (pciRead32 p d (UInt8.ofNat a)).1 =
      (capabilityLoop d fuel (pciRead32 p d (UInt8.ofNat ((a + 4 * c₂) % 2 ^ 32))).2 ((a + 4 * c₂) % 2 ^ 32)
        (pciRead32 (pciRead32 p d (UInt8.ofNat ((a + 4 * c₂) % 2 ^ 32))).2 d
          (UInt8.ofNat ((a + 4 * c₂) % 2 ^ 32))).1).map fun r => { r with visited := c :: r.visited } := by
    intro fuel
    rw [capabilityLoop, if_neg hloop, if_neg hmore, hnext, hac,
      pciRead32_congr (config_pciRead32 p d (UInt8.ofNat ((a + 4 * c₂) % 2 ^ 32)))]
  have htail : upToMsix p.config d (c :: c₂ :: cs) = c :: upToMsix p.config d (c₂ :: cs) := by
    rw [upToMsix, if_neg hid]
  have hany : (∃ c' ∈ c :: c₂ :: cs, capByte p.config d c' = 0x11) ↔
      ∃ c' ∈ c₂ :: cs, capByte p.config d c' = 0x11 := by
    rw [List.exists_mem_cons_iff]
    exact or_iff_right hid
  rw [FollowsFrom, FollowsFrom, htail, hany, config_pciRead32]
  constructor
  · rintro ⟨fuel, r, hr, hvisited, hfound⟩
    cases fuel with
    | zero => cases hr
    | succ fuel =>
        rw [hstep] at hr
        obtain ⟨r', hr', rfl⟩ := Option.map_eq_some_iff.mp hr
        have htl : r'.visited = upToMsix p.config d (c₂ :: cs) := (List.cons.inj hvisited).2
        refine ⟨?_, fuel, r', hr', htl, hfound⟩
        -- the second offset visited is the one in the list
        obtain ⟨rest, hrest⟩ := upToMsix_head p.config d c₂ cs
        have hhead := visited_head hr'
        rw [htl, hrest, List.head?_cons, Option.some.injEq] at hhead
        unfold LinkMet
        omega
  · rintro ⟨-, fuel, r', hr', hvisited, hfound⟩
    refine ⟨fuel + 1, { r' with visited := c :: r'.visited }, ?_, ?_, hfound⟩
    · rw [hstep, hr', Option.map_some]
    · rw [hvisited]

end

/-- From capability `c` on, for any address that is `c` modulo 256. -/
theorem followsFrom_iff {d : PciDevice} (hd : d.Valid) (m : Mem) (cs : List Nat) :
    ∀ (p : PciPorts) (c a : Nat), p.config = m → a % 256 = c → CapChain m d c (c :: cs) →
      (FollowsFrom p d a (c :: cs) ↔ List.IsChain LinkMet (upToMsix m d (c :: cs))) := by
  induction cs with
  | nil =>
      rintro p c a rfl hac ⟨-, -, h4, hend⟩
      by_cases hid : capByte p.config d c = 0x11
      · rw [upToMsix, if_pos hid]
        exact iff_of_true (followsFrom_msix hd hac h4 hid []) (List.IsChain.singleton c)
      · rw [upToMsix, if_neg hid]
        exact iff_of_true (followsFrom_last hd hac h4 hid hend) (List.IsChain.singleton c)
  | cons c₂ cs ih =>
      rintro p c a rfl hac ⟨-, -, h4, hlink, hrest⟩
      by_cases hid : capByte p.config d c = 0x11
      · rw [upToMsix, if_pos hid]
        exact iff_of_true (followsFrom_msix hd hac h4 hid _) (List.IsChain.singleton c)
      · obtain ⟨rest, hhead⟩ := upToMsix_head p.config d c₂ cs
        have hlt : c₂ < 256 := hlink ▸ capByte_lt p.config d (c + 1)
        rw [followsFrom_next hd hac h4 hid hrest.1 hlink, upToMsix, if_neg hid, hhead, List.isChain_cons_cons, ← hhead]
        apply and_congr_right
        intro hmet
        unfold LinkMet at hmet
        exact ih _ c₂ _ (config_pciRead32 _ _ _) (by omega) ⟨rfl, hrest⟩

/-! ## The register that is found -/

theorem capabilityLoop_succ {d : PciDevice} {fuel : Nat} {p : PciPorts} {address capability : Nat} {r : CapSearch}
    (h : capabilityLoop d fuel p address capability = some r) : capabilityLoop d (fuel + 1) p address capability = some r := by
  induction fuel generalizing p address capability r with
  | zero => cases h
  | succ fuel ih =>
      rw [capabilityLoop] at h ⊢
      split_ifs at h ⊢
      · exact h
      · exact h
      · obtain ⟨r', hr', rfl⟩ := Option.map_eq_some_iff.mp h
        exact Option.map_eq_some_iff.mpr ⟨r', ih hr', rfl⟩

theorem capabilitySearch_unique {p : PciPorts} {d : PciDevice} {fuel fuel' : Nat} {r r' : CapSearch}
    (h : capabilitySearch p d fuel = some r) (h' : capabilitySearch p d fuel' = some r') : r = r' := by
  have hmono : ∀ {fuel r} k, capabilitySearch p d fuel = some r → capabilitySearch p d (fuel + k) = some r := by
    intro fuel r k h
    induction k with
    | zero => exact h
    | succ k ih => exact capabilityLoop_succ ih
  have hsum := hmono fuel' h
  rw [Nat.add_comm, hmono fuel h'] at hsum
  exact (Option.some.inj hsum).symm

/-- The register comes from the dword behind the offset visited last. -/
theorem capabilityLoop_msix {d : PciDevice} {fuel : Nat} {p : PciPorts} {address capability : Nat} {r : CapSearch} {raw : Nat}
    (h : capabilityLoop d fuel p address capability = some r) (hraw : r.msix = some raw) :
    ∃ a p', r.visited.getLast? = some (a % 256) ∧ p'.config = p.config ∧
      raw = (pciRead32 p' d (UInt8.ofNat ((a + 4) % 2 ^ 32))).1 := by
  induction fuel generalizing p address capability r with
  | zero => cases h
  | succ fuel ih =>
      rw [capabilityLoop] at h
      split_ifs at h
      · rw [← Option.some.inj h] at hraw ⊢
        exact ⟨address, p, rfl, rfl, (Option.some.inj hraw).symm⟩
      · rw [← Option.some.inj h] at hraw
        cases hraw
      · obtain ⟨r', hr', rfl⟩ := Option.map_eq_some_iff.mp h
        obtain ⟨a, p', hlast, hconfig, heq⟩ := ih hr' hraw
        refine ⟨a, p', ?_, hconfig.trans (config_pciRead32 _ _ _), heq⟩
        rw [List.getLast?_cons, hlast]
        rfl

theorem CapChain.aligned {m : Mem} {d : PciDevice} {o : Nat} {cs : List Nat} (h : CapChain m d o cs) :
    ∀ c ∈ cs, c % 4 = 0 := by
  induction cs generalizing o with
  | nil =>
      intro c hc
      cases hc
  | cons c cs ih =>
      obtain ⟨-, -, h4, hrest⟩ := h
      intro c' hc'
      rcases List.mem_cons.mp hc' with rfl | hc'
      · exact h4
      · exact ih hrest c' hc'

theorem getLast?_upToMsix {m : Mem} {d : PciDevice} {cs : List Nat} (h : ∃ c ∈ cs, capByte m d c = 0x11) :
    (upToMsix m d cs).getLast? = cs.find? fun c => decide (capByte m d c = 0x11) := by
  induction cs with
  | nil =>
      obtain ⟨c, hc, -⟩ := h
      cases hc
  | cons c cs ih =>
      by_cases hid : capByte m d c = 0x11
      · rw [upToMsix, if_pos hid, List.find?_cons_of_pos (by simpa using hid)]
        rfl
      · have hrest : ∃ c ∈ cs, capByte m d c = 0x11 := by
          obtain ⟨c', hc', hid'⟩ := h
          rcases List.mem_cons.mp hc' with rfl | hc'
          · exact absurd hid' hid
          · exact ⟨c', hc', hid'⟩
        have hlast := ih hrest
        obtain ⟨c', hc'⟩ : ∃ c', cs.find? (fun c => decide (capByte m d c = 0x11)) = some c' := by
          rw [← Option.isSome_iff_exists, List.find?_isSome]
          simpa using hrest
        rw [upToMsix, if_neg hid, List.find?_cons_of_neg (by simpa using hid), List.getLast?_cons, hlast, hc']
        rfl

/-- **The register of the list.** Where the loop follows the list, the register it takes is the one of the first MSI-X
capability of the list. -/
theorem FollowsList.msix {p : PciPorts} {d : PciDevice} (hd : d.Valid) {o : Nat} {cs : List Nat}
    (hcs : CapChain p.config d o cs) (hf : FollowsList p d cs) {fuel : Nat} {r : CapSearch}
    (hr : capabilitySearch p d fuel = some r) {raw : Nat} (hraw : r.msix = some raw) :
    ∃ c, (cs.find? fun c => decide (capByte p.config d c = 0x11)) = some c ∧
      raw = p.config.read (functionBase d + (c + 4) % 256) 4 := by
  obtain ⟨fuel', r', hr', hvisited, hfound⟩ := hf
  obtain rfl := capabilitySearch_unique hr hr'
  have hany := hfound.mp (by rw [hraw]; rfl)
  obtain ⟨a, p', hlast, hconfig, rfl⟩ := capabilityLoop_msix hr hraw
  rw [hvisited, getLast?_upToMsix hany] at hlast
  refine ⟨a % 256, hlast, ?_⟩
  have h4 := hcs.aligned _ (List.mem_of_find?_eq_some hlast)
  have hoff : (UInt8.ofNat ((a + 4) % 2 ^ 32)).toNat = (a % 256 + 4) % 256 := by
    rw [toNat_ofNat_address]
    omega
  have hconfig' : p'.config = p.config := hconfig.trans (config_pciRead32 _ _ _)
  rw [pciRead32_eq p' hd (by omega) (by omega), hoff, hconfig']

/-! ## The search -/

/-- The links of a list with at least one capability, up to MSI-X, all satisfy `p + 3 * q ≡ 0 (mod 256)`. -/
def LinksMet (m : Mem) (d : PciDevice) (cs : List Nat) : Prop := cs ≠ [] ∧ List.IsChain LinkMet (upToMsix m d cs)

/-- The search is the loop from the capabilities pointer on. -/
theorem followsList_iff (p : PciPorts) {d : PciDevice} (hd : d.Valid) :
    ∃ p', p'.config = p.config ∧ ∀ cs, FollowsList p d cs ↔ FollowsFrom p' d (capByte p.config d 0x34) cs := by
  have hpointer : (pciRead32 p d 0x34).1 &&& 0xFF = capByte p.config d 0x34 :=
    xcapId_capability (p := p) (a := 0x34) hd rfl rfl
  refine ⟨(pciRead32 (pciRead32 p d 0x34).2 d (UInt8.ofNat (capByte p.config d 0x34))).2, rfl, ?_⟩
  intro cs
  have hsearch : ∀ fuel, capabilitySearch p d fuel =
      capabilityLoop d fuel (pciRead32 (pciRead32 p d 0x34).2 d (UInt8.ofNat (capByte p.config d 0x34))).2
        (capByte p.config d 0x34) (pciRead32 (pciRead32 (pciRead32 p d 0x34).2 d
          (UInt8.ofNat (capByte p.config d 0x34))).2 d (UInt8.ofNat (capByte p.config d 0x34))).1 := by
    intro fuel
    rw [capabilitySearch, ← hpointer, pciRead32_congr (config_pciRead32 (pciRead32 p d 0x34).2 d _)]
  rw [FollowsList, FollowsFrom]
  simp only [hsearch]
  rfl

theorem capability_loop_iff (p : PciPorts) {d : PciDevice} (hd : d.Valid) {cs : List Nat}
    (hcs : CapChain p.config d (capByte p.config d 0x34) cs) : FollowsList p d cs ↔ LinksMet p.config d cs := by
  obtain ⟨p', hconfig, hfollows⟩ := followsList_iff p hd
  rw [hfollows]
  cases cs with
  | nil =>
      refine iff_of_false ?_ (fun h => h.1 rfl)
      -- an empty list: the loop visits offset 0 all the same
      rintro ⟨fuel, r, hr, hvisited, -⟩
      have hhead := visited_head hr
      rw [hvisited] at hhead
      exact absurd hhead (by simp [upToMsix])
  | cons c cs =>
      obtain ⟨rfl, hrest⟩ := hcs
      have hlt := capByte_lt p.config d 0x34
      rw [followsFrom_iff hd p.config cs p' _ _ hconfig (Nat.mod_eq_of_lt hlt) ⟨rfl, hrest⟩]
      exact ⟨fun h => ⟨by simp, h⟩, fun h => h.2⟩

/-- Power management at `0x50`, MSI-X at `0x90`: `0x50 + 4 * 0x90` is `0x90` modulo 256, so the loop finds it. -/
theorem capability_loop_follows :
    FollowsList ⟨0, ((Mem.write (fun _ => 0) 0x34 1 0x50).write 0x50 2 0x9001).write 0x90 2 0x11⟩ zeroDevice
      [0x50, 0x90] := by
  have hd : zeroDevice.Valid := ⟨by decide, by decide⟩
  refine (capability_loop_iff _ hd (by decide)).mpr ⟨by decide, ?_⟩
  have hup : upToMsix (((Mem.write (fun _ => 0) 0x34 1 0x50).write 0x50 2 0x9001).write 0x90 2 0x11) zeroDevice
      [0x50, 0x90] = [0x50, 0x90] := by decide
  rw [hup]
  exact List.isChain_pair.mpr (by decide)

/-- MSI at `0x50`, MSI-X at `0x70`: the loop goes to `0x50 + 4 * 0x70`, which is `0x10` modulo 256, and ends there. -/
theorem capability_loop_astray :
    ¬ FollowsList ⟨0, ((Mem.write (fun _ => 0) 0x34 1 0x50).write 0x50 2 0x7005).write 0x70 2 0x11⟩ zeroDevice
      [0x50, 0x70] := by
  have hd : zeroDevice.Valid := ⟨by decide, by decide⟩
  have hup : upToMsix (((Mem.write (fun _ => 0) 0x34 1 0x50).write 0x50 2 0x7005).write 0x70 2 0x11) zeroDevice
      [0x50, 0x70] = [0x50, 0x70] := by decide
  obtain ⟨p', hconfig, hfollows⟩ := followsList_iff
    ⟨0, ((Mem.write (fun _ => 0) 0x34 1 0x50).write 0x50 2 0x7005).write 0x70 2 0x11⟩ hd
  rw [hfollows, followsFrom_iff hd _ [0x70] p' 0x50 _ hconfig (by decide) (by decide), hup]
  intro hchain
  exact absurd (List.isChain_pair.mp hchain) (by decide)

end Gewodsys.Dev
