import Gewodsys.Mem.HeapGrow

/-!
# What a call leaves alone

* `ChunkKept m m' a c` : the bytes of the chunk `c` at `a` are the same in `m` and `m'`;
* `BlocksKept`, `HeapKept` : a call keeps the blocks, and the ends of the chunks that it does not give a footer;
* `HeapKept.of_middle` : a call that replaces some chunks in the middle and writes only there;
* `heapKept_grow_new`, `heapKept_grow_last`, `heapKept_carve`, `heapKept_free` : the calls of the heap.
-/

namespace Gewodsys.Mem
open Gewodsys.Machine Gewodsys.Lib

/-- Every byte of the chunk `c` at `a` is the same in `m` and `m'`. -/
def ChunkKept (m m' : Mem) (a : Nat) (c : Chunk) : Prop := ∀ x, a ≤ x → x < a + c.size → m' x = m x

theorem ChunkKept.trans {m₁ m₂ m₃ : Mem} {a : Nat} {c : Chunk} (h₁ : ChunkKept m₁ m₂ a c) (h₂ : ChunkKept m₂ m₃ a c) :
    ChunkKept m₁ m₃ a c := fun x hl hr => (h₂ x hl hr).trans (h₁ x hl hr)

theorem ChunkKept.of_frame {m m' : Mem} {W : Nat → Prop} (hf : Frame m m' W) {a : Nat} {c : Chunk}
    (hW : ∀ x, a ≤ x → x < a + c.size → ¬ W x) : ChunkKept m m' a c := fun x hl hr => hf x (hW x hl hr)

/-- The blocks of `cs`, but for those at an address in `F`, are blocks of `cs'` with the same bytes. -/
def BlocksKept (s s' : HeapState) (cs cs' : List Chunk) (F : Nat → Prop) : Prop :=
  ∀ a c, (a, c) ∈ placed Chunk.size s.heap.startAddress cs → c.use ≠ none → ¬ F a →
    (a, c) ∈ placed Chunk.size s'.heap.startAddress cs' ∧ ChunkKept s.mem s'.mem a c

theorem BlocksKept.trans {s s' s'' : HeapState} {cs cs' cs'' : List Chunk} {F : Nat → Prop}
    (h₁ : BlocksKept s s' cs cs' F) (h₂ : BlocksKept s' s'' cs' cs'' F) : BlocksKept s s'' cs cs'' F := by
  intro a c hc hu hF
  obtain ⟨hc', hk⟩ := h₁ a c hc hu hF
  obtain ⟨hc'', hk'⟩ := h₂ a c hc' hu hF
  exact ⟨hc'', hk.trans hk'⟩

theorem BlocksKept.mono {s s' : HeapState} {cs cs' : List Chunk} {F G : Nat → Prop} (h : BlocksKept s s' cs cs' F)
    (hFG : ∀ a, F a → G a) : BlocksKept s s' cs cs' G := fun a c hc hu hG => h a c hc hu fun hF => hG (hFG a hF)

/-- A call that keeps the blocks; a chunk of `cs'` without a footer ends with a chunk of `cs` that is kept, and was not the
last one unless it still is. -/
structure HeapKept (s s' : HeapState) (cs cs' : List Chunk) (F : Nat → Prop) : Prop where
  start : s'.heap.startAddress = s.heap.startAddress
  blocks : BlocksKept s s' cs cs' F
  tails : ∀ a c, (a, c) ∈ placed Chunk.size s'.heap.startAddress cs' → c.footer = true ∨
    ∃ a' c', (a', c') ∈ placed Chunk.size s.heap.startAddress cs ∧ a ≤ a' ∧ a' + c'.size = a + c.size ∧
      ChunkKept s.mem s'.mem a' c' ∧ (a + c.size < s.heap.endAddress ∨ s'.heap.endAddress = s.heap.endAddress)

/-- No block is freed. -/
def noBlock : Nat → Prop := fun _ => False

theorem HeapKept.refl (s : HeapState) (cs : List Chunk) : HeapKept s s cs cs noBlock := by
  refine ⟨rfl, ?_, ?_⟩
  · intro a c hc hu hF
    exact ⟨hc, fun x h1 h2 => rfl⟩
  · intro a c hc
    exact Or.inr ⟨a, c, hc, le_refl a, rfl, fun x h1 h2 => rfl, Or.inr rfl⟩

variable {s s' : HeapState} {pre mid mid' post : List Chunk} {F : Nat → Prop}

/-- The chunks `mid` become `mid'`, and only the bytes of `mid`, or bytes below the heap, are written. -/
theorem HeapKept.of_middle (hstart : s'.heap.startAddress = s.heap.startAddress) {pos : Nat}
    (hpos : pos = s.heap.startAddress + total Chunk.size pre)
    (hlen : post = [] ∨ total Chunk.size mid' = total Chunk.size mid) {W : Nat → Prop} (hframe : Frame s.mem s'.mem W)
    (hW : ∀ x, W x → x < s.heap.startAddress ∨ (pos ≤ x ∧ (post ≠ [] → x < pos + total Chunk.size mid)))
    (hstop : s'.heap.endAddress = s.heap.endAddress ∨
      post = [] ∧ (pos < s.heap.endAddress ∨ ∀ c ∈ pre, c.footer = true))
    (hmid : ∀ a c, (a, c) ∈ placed Chunk.size pos mid → c.use ≠ none → F a)
    (htail : ∀ a c, (a, c) ∈ placed Chunk.size pos mid' → c.footer = true ∨
      ∃ a' c', (a', c') ∈ placed Chunk.size pos mid ∧ a ≤ a' ∧ a' + c'.size = a + c.size ∧
        ChunkKept s.mem s'.mem a' c' ∧ s'.heap.endAddress = s.heap.endAddress) :
    HeapKept s s' (pre ++ mid ++ post) (pre ++ mid' ++ post) F := by
  have hpre : ∀ a c, (a, c) ∈ placed Chunk.size s.heap.startAddress pre → ChunkKept s.mem s'.mem a c := by
    intro a c hc
    have hb := placed_bounds Chunk.size hc
    apply ChunkKept.of_frame hframe
    intro x h1 h2 hx
    have := hW x hx
    simp only at hb
    omega
  have hpost : ∀ a c, (a, c) ∈ placed Chunk.size (pos + total Chunk.size mid) post → ChunkKept s.mem s'.mem a c := by
    intro a c hc
    have hb := placed_bounds Chunk.size hc
    have hne : post ≠ [] := by
      rintro rfl
      cases hc
    apply ChunkKept.of_frame hframe
    intro x h1 h2 hx
    have hx' := hW x hx
    simp only [hne, ne_eq, not_false_eq_true, forall_const] at hx'
    simp only at hb
    omega
  have hsplit : ∀ ms a c, (a, c) ∈ placed Chunk.size s.heap.startAddress (pre ++ ms ++ post) ↔
      (a, c) ∈ placed Chunk.size s.heap.startAddress pre ∨ (a, c) ∈ placed Chunk.size pos ms ∨
        (a, c) ∈ placed Chunk.size (pos + total Chunk.size ms) post := by
    intro ms a c
    rw [placed_append, placed_append, total_append, List.mem_append, List.mem_append, ← Nat.add_assoc, ← hpos, or_assoc]
  have hshift : ∀ a c, (a, c) ∈ placed Chunk.size (pos + total Chunk.size mid) post ↔
      (a, c) ∈ placed Chunk.size (pos + total Chunk.size mid') post := by
    intro a c
    rcases hlen with rfl | hlen
    · rfl
    · rw [hlen]
  refine ⟨hstart, ?_, ?_⟩
  · intro a c hc hu hF
    rw [hstart, hsplit]
    rcases (hsplit mid a c).mp hc with hc | hc | hc
    · exact ⟨Or.inl hc, hpre a c hc⟩
    · exact absurd (hmid a c hc hu) hF
    · exact ⟨Or.inr (Or.inr ((hshift a c).mp hc)), hpost a c hc⟩
  · intro a c hc
    rw [hstart, hsplit] at hc
    rcases hc with hc | hc | hc
    · have hb := placed_bounds Chunk.size hc
      rcases hstop with hsame | ⟨-, hlt | hfoot⟩
      · exact Or.inr ⟨a, c, (hsplit mid a c).mpr (Or.inl hc), le_refl a, rfl, hpre a c hc, Or.inr hsame⟩
      · exact Or.inr ⟨a, c, (hsplit mid a c).mpr (Or.inl hc), le_refl a, rfl, hpre a c hc,
          Or.inl (by simp only at hb; omega)⟩
      · obtain ⟨us, vs, hus, -⟩ := (mem_placed_iff Chunk.size).mp hc
        exact Or.inl (hfoot c (by rw [hus]; simp))
    · refine (htail a c hc).imp_right ?_
      rintro ⟨a', c', hc', h1, h2, hk, hsame⟩
      exact ⟨a', c', (hsplit mid a' c').mpr (Or.inr (Or.inl hc')), h1, h2, hk, Or.inr hsame⟩
    · have hc' := (hshift a c).mpr hc
      rcases hstop with hsame | ⟨rfl, -⟩
      · exact Or.inr ⟨a, c, (hsplit mid a c).mpr (Or.inr (Or.inr hc')), le_refl a, rfl, hpost a c hc', Or.inr hsame⟩
      · cases hc

/-! ## The calls -/

theorem heapKept_grow_new {cs : List Chunk} {d : Nat} (hstart : s'.heap.startAddress = s.heap.startAddress)
    (hfits : s.heap.startAddress + total Chunk.size cs = s.heap.endAddress) (hfoot : ∀ c ∈ cs, c.footer = true)
    {W : Nat → Prop} (hframe : Frame s.mem s'.mem W)
    (hW : ∀ x, W x → x < s.heap.startAddress ∨ s.heap.endAddress ≤ x) :
    HeapKept s s' cs (cs ++ [⟨d, none, true⟩]) noBlock := by
  have hkept : HeapKept s s' (cs ++ [] ++ []) (cs ++ [⟨d, none, true⟩] ++ []) noBlock := by
    apply HeapKept.of_middle hstart rfl (Or.inl rfl) hframe
    · intro x hx
      have := hW x hx
      refine this.imp_right fun hx => ⟨by omega, fun h => absurd rfl h⟩
    · exact Or.inr ⟨rfl, Or.inr hfoot⟩
    · intro a c hc
      cases hc
    · intro a c hc
      rw [placed_cons, placed_nil, List.mem_singleton, Prod.mk.injEq] at hc
      rw [hc.2]
      exact Or.inl rfl
  simpa using hkept

theorem heapKept_last {mid : List Chunk} {d pos : Nat} (hstart : s'.heap.startAddress = s.heap.startAddress)
    (hpos : pos = s.heap.startAddress + total Chunk.size pre) (hlt : pos < s.heap.endAddress)
    (hmid : ∀ a c, (a, c) ∈ placed Chunk.size pos mid → c.use ≠ none → F a) {W : Nat → Prop}
    (hframe : Frame s.mem s'.mem W) (hW : ∀ x, W x → x < s.heap.startAddress ∨ pos ≤ x) :
    HeapKept s s' (pre ++ mid) (pre ++ [⟨d, none, true⟩]) F := by
  have hkept : HeapKept s s' (pre ++ mid ++ []) (pre ++ [⟨d, none, true⟩] ++ []) F := by
    apply HeapKept.of_middle hstart hpos (Or.inl rfl) hframe
    · intro x hx
      exact (hW x hx).imp_right fun hx => ⟨hx, fun h => absurd rfl h⟩
    · exact Or.inr ⟨rfl, Or.inl hlt⟩
    · exact hmid
    · intro a c hc
      rw [placed_cons, placed_nil, List.mem_singleton, Prod.mk.injEq] at hc
      rw [hc.2]
      exact Or.inl rfl
  simpa using hkept

theorem MergedLeft.split {pre pre₁ : List Chunk} {blk c : Chunk} {left : Bool} (h : MergedLeft pre blk pre₁ c left) :
    ∃ ls, pre = pre₁ ++ ls ∧ (∀ l ∈ ls, l.use = none) ∧ total Chunk.size ls + blk.size = c.size := by
  cases left with
  | true =>
      obtain ⟨l, rfl, hl, rfl⟩ := h
      refine ⟨[l], rfl, ?_, ?_⟩
      · intro l' hl'
        rw [List.mem_singleton.mp hl']
        exact hl
      · simp
  | false =>
      obtain ⟨rfl, rfl⟩ := h
      exact ⟨[], by simp, by simp, by simp⟩

theorem InnerRight.split {post post' : List Chunk} {size : Nat} {right : Bool} (h : InnerRight post post' size right) :
    ∃ rs, post = rs ++ post' ∧ (∀ r ∈ rs, r.use = none) ∧ total Chunk.size rs = size ∧
      (right = true → ∃ r, rs = [r]) := by
  cases h with
  | block => exact ⟨[], rfl, by simp, rfl, fun h => by cases h⟩
  | @hole r r' post hr =>
      refine ⟨[r], rfl, ?_, by simp, fun _ => ⟨r, rfl⟩⟩
      intro r' hr'
      rw [List.mem_singleton.mp hr']
      exact hr

theorem LastRight.split {m : Mem} {stop : Nat} {post : List Chunk} (h : LastRight m stop post) :
    ∀ r ∈ post, r.use = Option.none := by
  cases h with
  | none => simp
  | hole hr =>
      intro r' hr'
      rw [List.mem_singleton.mp hr']
      exact hr

/-- Of the chunks that are joined only the block is used. -/
theorem used_joined {ls rs : List Chunk} {blk c : Chunk} {pos a : Nat} (hls : ∀ l ∈ ls, l.use = none)
    (hrs : ∀ r ∈ rs, r.use = none) (hc : (a, c) ∈ placed Chunk.size pos (ls ++ blk :: rs)) (hu : c.use ≠ none) :
    a = pos + total Chunk.size ls := by
  rw [placed_append, List.mem_append, placed_cons, List.mem_cons, Prod.mk.injEq] at hc
  rcases hc with hc | ⟨ha, -⟩ | hc
  · obtain ⟨us, vs, hus, -⟩ := (mem_placed_iff Chunk.size).mp hc
    exact absurd (hls c (by rw [hus]; simp)) hu
  · exact ha
  · obtain ⟨us, vs, hus, -⟩ := (mem_placed_iff Chunk.size).mp hc
    exact absurd (hrs c (by rw [hus]; simp)) hu

theorem heapKept_free {pre pre₁ post post' : List Chunk} {blk c : Chunk} {left right : Bool} {size header : Nat}
    (hsame : SameExtent s s') (hm : MergedLeft pre blk pre₁ c left) (hpost : InnerRight post post' size right)
    (hheader : header = s.heap.startAddress + total Chunk.size pre) {W : Nat → Prop} (hframe : Frame s.mem s'.mem W)
    (hW : ∀ x, W x → x < s.heap.startAddress ∨
      (s.heap.startAddress + total Chunk.size pre₁ ≤ x ∧ x < header + blk.size)) :
    HeapKept s s' (pre ++ blk :: post) (pre₁ ++ ⟨c.size + size, none, !right⟩ :: post') (fun a => a = header) := by
  obtain ⟨ls, rfl, hls, hlen⟩ := hm.split
  obtain ⟨rs, rfl, hrs, rfl, hright⟩ := hpost.split
  rw [total_append, ← Nat.add_assoc] at hheader
  have hkept : HeapKept s s' (pre₁ ++ (ls ++ blk :: rs) ++ post')
      (pre₁ ++ [⟨c.size + total Chunk.size rs, none, !right⟩] ++ post') (fun a => a = header) := by
    apply HeapKept.of_middle hsame.startAddress rfl _ hframe
    · intro x hx
      refine (hW x hx).imp_right fun hx => ⟨hx.1, fun _ => ?_⟩
      rw [total_append, total_cons]
      omega
    · exact Or.inl hsame.endAddress
    · intro a c' hc hu
      rw [used_joined hls hrs hc hu, hheader]
    · intro a c' hc
      rw [placed_cons, placed_nil, List.mem_singleton, Prod.mk.injEq] at hc
      obtain ⟨rfl, rfl⟩ := hc
      cases right with
      | false => exact Or.inl rfl
      | true =>
          -- the hole on the right keeps its end
          right
          obtain ⟨r, rfl⟩ := hright rfl
          refine ⟨header + blk.size, r, ?_, by omega, ?_, ?_, hsame.endAddress⟩
          · rw [placed_append, placed_cons, placed_cons, ← hheader]
            simp
          · simp only [total_cons, total_nil]
            omega
          · apply ChunkKept.of_frame hframe
            intro x h1 h2 hx
            have := hW x hx
            omega
    · right
      simp only [total_append, total_cons, total_nil]
      omega
  simpa using hkept

end Gewodsys.Mem
