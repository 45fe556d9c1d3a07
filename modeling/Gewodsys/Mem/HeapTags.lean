import Gewodsys.Mem.HeapRuns

/-!
# The tags of a heap that keeps its size

* `Footed`, `Apart` : the chunks before the last have their footers, no two holes are adjacent;
* `Tight` : both, with the word below the heap not a footer; `Tight.leftTag` : then the footers can be trusted;
* `NoResize` : a call that reaches neither `HeapExpand` nor `HeapContract`; `NoRightHole` : it does not merge to the right;
* `HeapWf` : the representation invariant of the heap; `heap_wf_run` : it holds after every run of such calls.
-/

namespace Gewodsys.Mem
open Gewodsys.Machine Gewodsys.Lib

/-! ## Footers and neighbours -/

/-- Every chunk has its footer, but for a hole at the end. -/
def Footed : List Chunk → Prop
  | [] => True
  | c :: cs => (cs ≠ [] ∨ c.use ≠ none → c.footer = true) ∧ Footed cs

theorem footed_append {cs ds : List Chunk} (hd : ds ≠ []) :
    Footed (cs ++ ds) ↔ (∀ c ∈ cs, c.footer = true) ∧ Footed ds := by
  induction cs with
  | nil => simp
  | cons c cs ih =>
      have hne : cs ++ ds ≠ [] := by simp [hd]
      rw [List.cons_append, Footed, ih, List.forall_mem_cons, and_assoc]
      simp [hne]

/-- One of two neighbours is a block. -/
def UsedBeside (c d : Chunk) : Prop := c.use ≠ none ∨ d.use ≠ none

/-- No two adjacent chunks are both holes. -/
abbrev Apart (cs : List Chunk) : Prop := cs.IsChain UsedBeside

theorem apart_last {cs : List Chunk} {c : Chunk} : Apart (cs ++ [c]) ↔ Apart cs ∧ (c.use = none →
    ∀ cs' l, cs = cs' ++ [l] → l.use ≠ none) := by
  unfold Apart
  rw [List.isChain_append]
  refine and_congr_right fun _ => ?_
  constructor
  · rintro ⟨-, h⟩ hc cs' l rfl
    rcases h l (by simp) c (by simp) with h | h
    · exact h
    · exact absurd hc h
  · intro h
    refine ⟨List.isChain_singleton c, fun x hx y hy => ?_⟩
    simp only [List.head?_cons, Option.mem_some_iff] at hy
    subst hy
    by_cases hc : c.use = none
    · left
      obtain ⟨cs', rfl⟩ : ∃ cs', cs = cs' ++ [x] := by
        rw [Option.mem_def, List.getLast?_eq_some_iff] at hx
        exact hx
      exact h hc cs' x rfl
    · exact Or.inr hc

theorem apart_split {pre post : List Chunk} {c : Chunk} :
    Apart (pre ++ c :: post) ↔ Apart (pre ++ [c]) ∧ Apart (c :: post) := List.isChain_split

theorem apart_cons {c : Chunk} {cs : List Chunk} :
    Apart (c :: cs) ↔ (∀ d ∈ cs.head?, UsedBeside c d) ∧ Apart cs := List.isChain_cons

theorem footerMagic_of_frame {m m' : Mem} {start : Nat} (hstart : 16 ≤ start) {W : Nat → Prop} (hf : Frame m m' W)
    (hW : ∀ x, W x → start ≤ x ∨ x + 16 < start) : footerMagic m' (start - 16) = footerMagic m (start - 16) := by
  apply hf.read
  intro x h1 h2 hx
  have := hW x hx
  omega

variable {s : HeapState} {live : List (Nat × Nat)} {cs : List Chunk}

/-- Every footer can be trusted, and the holes are as large as they can be. -/
structure Tight (s : HeapState) (cs : List Chunk) : Prop where
  footed : Footed cs
  apart : Apart cs
  first : footerMagic s.mem (s.heap.startAddress - 16) ≠ heapMagic

theorem Tight.left {pre post : List Chunk} {blk : Chunk} (ht : Tight s (pre ++ blk :: post))
    (h : HeapOk s live (pre ++ blk :: post)) (header : Nat)
    (hheader : header = s.heap.startAddress + total Chunk.size pre) :
    (mergesLeft s.mem header = true ∧ ∃ pre₁ l, pre = pre₁ ++ [l] ∧ l.use = none ∧
        footerHeader s.mem (header - 16) = s.heap.startAddress + total Chunk.size pre₁) ∨
      (mergesLeft s.mem header = false ∧ ∀ pre₁ l, pre = pre₁ ++ [l] → l.use ≠ none) := by
  have hlow := h.pageHeap.low
  have htop := h.rep.top
  obtain ⟨-, hend⟩ := h.rep.chunk
  have hsub : sub64 header sizeofHeapFooter = header - 16 :=
    sub64_of_le (by omega) (by unfold sizeofHeapFooter; omega)
  have hf : Frame s.mem (setHeaderIsHole s.mem header 1) (fun x => x = header + 4) := frame_setHeaderIsHole s.mem header 1
  unfold mergesLeft leftIsHole
  simp only [hsub]
  rcases List.eq_nil_or_concat pre with rfl | ⟨pre₁, l, rfl⟩
  · right
    refine ⟨decide_eq_false fun hno => ht.first ?_, fun pre₁ l he => by simp at he⟩
    have hfirst : header = s.heap.startAddress := hheader
    rw [← hno.1, hfirst]
    rw [hfirst] at hf
    exact (footerMagic_of_frame hlow hf fun x hx => Or.inl (by omega)).symm
  · rw [List.concat_eq_append] at ht h hheader ⊢
    obtain ⟨hfoots, -⟩ := (footed_append (by simp)).mp ht.footed
    have hl : ChunkAt s.mem (s.heap.startAddress + total Chunk.size pre₁) l :=
      (chunks_cons.mp (chunks_append.mp (chunks_append.mp h.rep.tiles).1).2).1
    have hlsz := hl.size
    have haddr : header = s.heap.startAddress + total Chunk.size pre₁ + l.size := by
      rw [hheader]
      simp only [total_append, total_cons, total_nil]
      omega
    have hl₀ := hl.frame hf fun x hx => by omega
    have hfoot := hl.footer (hfoots l (by simp))
    have hfoot₀ := hl₀.footer (hfoots l (by simp))
    rw [← haddr] at hfoot hfoot₀
    rw [hfoot₀.header, hfoot₀.magic, hl₀.header.isHole]
    by_cases hu : l.use = none
    · left
      exact ⟨decide_eq_true ⟨rfl, (isHole_eq_one_iff l).mpr hu⟩, pre₁, l, rfl, hu, hfoot.header⟩
    · right
      refine ⟨decide_eq_false fun hno => hu ((isHole_eq_one_iff l).mp hno.2), fun pre' l' he => ?_⟩
      obtain ⟨-, hll⟩ := List.append_inj' he rfl
      rw [← (List.cons.inj hll).1]
      exact hu

theorem Tight.leftTag {pre post : List Chunk} {blk : Chunk} (ht : Tight s (pre ++ blk :: post))
    (h : HeapOk s live (pre ++ blk :: post)) (header : Nat)
    (hheader : header = s.heap.startAddress + total Chunk.size pre) : LeftTag s header := by
  intro hleft
  rcases ht.left h header hheader with ⟨-, pre₁, l, rfl, hl, hfh⟩ | ⟨hno, -⟩
  · have hchunk : ChunkAt s.mem (s.heap.startAddress + total Chunk.size pre₁) l :=
      (chunks_cons.mp (chunks_append.mp (chunks_append.mp h.rep.tiles).1).2).1
    rw [hfh, hchunk.header.size, hheader]
    refine ⟨h.rep.index.symm.subset ?_, ?_⟩
    · rw [holes_append, holes_append, holes_cons, if_pos hl]
      simp
    · simp only [total_append, total_cons, total_nil]
      omega
  · rw [hno] at hleft
    cases hleft

/-- A hole in the place of a block and the hole on its left has a block on its left. -/
theorem Tight.apart_left {pre pre₁ post : List Chunk} {blk c : Chunk} (ht : Tight s (pre ++ blk :: post))
    (h : HeapOk s live (pre ++ blk :: post)) (header : Nat)
    (hheader : header = s.heap.startAddress + total Chunk.size pre)
    (hm : MergedLeft pre blk pre₁ c (mergesLeft s.mem header)) (hole : Chunk) : Apart (pre₁ ++ [hole]) := by
  obtain ⟨ha, -⟩ := apart_last.mp (apart_split.mp ht.apart).1
  rcases ht.left h header hheader with ⟨hl, -⟩ | ⟨hl, hno⟩
  · rw [hl] at hm
    obtain ⟨l, rfl, hlu, -⟩ := hm
    obtain ⟨h1, h2⟩ := apart_last.mp ha
    exact apart_last.mpr ⟨h1, fun _ => h2 hlu⟩
  · rw [hl] at hm
    obtain ⟨rfl, -⟩ := hm
    exact apart_last.mpr ⟨ha, fun _ => hno⟩

/-! ## The calls -/

/-- The call reaches neither `HeapExpand` nor `HeapContract`. -/
def NoResize (r : HeapRun) : HeapOp → Prop
  | .kmalloc _ size => (heapFindSmallestHole r.state (size % 2 ^ 32 + 32) 0).isSome = true
  | .kfree address => contracts r.state address = false
  | .store _ _ => True

/-- The call does not merge with a hole on the right, and a new hole has room in the index. -/
def NoRightHole (r : HeapRun) : HeapOp → Prop
  | .kfree address => mergesRight r.state address = false ∧
      (mergesLeft r.state.mem (address - 16) = false → r.state.heap.index.size < r.state.heap.index.capacity)
  | _ => True

theorem footed_carved {pre post : List Chunk} {hole : Chunk} {holeSize size n : Nat}
    (h : Footed (pre ++ hole :: post)) : Footed (pre ++ carved holeSize size n ++ post) := by
  obtain ⟨h1, h2⟩ := (footed_append (by simp)).mp h
  have hne : carved holeSize size n ++ post ≠ [] := by
    unfold carved
    split_ifs <;> simp
  rw [List.append_assoc, footed_append hne]
  refine ⟨h1, ?_⟩
  unfold carved
  split_ifs
  · exact ⟨fun _ => rfl, h2.2⟩
  · exact ⟨fun _ => rfl, fun _ => rfl, h2.2⟩

theorem apart_carved {pre post : List Chunk} {hole : Chunk} (hhole : hole.use = none) {holeSize size n : Nat}
    (h : Apart (pre ++ hole :: post)) : Apart (pre ++ carved holeSize size n ++ post) := by
  obtain ⟨h1, h2⟩ := apart_split.mp h
  obtain ⟨h3, h4⟩ := apart_cons.mp h2
  have hpre : Apart (pre ++ [⟨size + 32, some n, true⟩]) :=
    apart_last.mpr ⟨(apart_last.mp h1).1, fun hc => by cases hc⟩
  have hpost : Apart (⟨holeSize - (size + 32), none, true⟩ :: post) := by
    refine apart_cons.mpr ⟨fun d hd => ?_, h4⟩
    rcases h3 d hd with hu | hu
    · exact absurd hhole hu
    · exact Or.inr hu
  unfold carved
  split_ifs
  · rw [List.append_assoc, List.singleton_append]
    exact apart_split.mpr ⟨hpre, apart_cons.mpr ⟨fun d _ => Or.inl (by simp), h4⟩⟩
  · rw [List.append_assoc, List.cons_append, List.singleton_append]
    refine apart_split.mpr ⟨hpre, apart_cons.mpr ⟨fun d _ => Or.inl (by simp), hpost⟩⟩

theorem Tight.kmalloc (ht : Tight s cs) (h : HeapOk s live cs) {fuel n p : Nat} {s' : HeapState} (hn : n < 2 ^ 32)
    (hfind : (heapFindSmallestHole s (n + 32) 0).isSome = true) (hcall : heapAllocate fuel s n 0 = some (p, s')) :
    ∃ cs', HeapOk s' ((p, n) :: live) cs' ∧ Tight s' cs' := by
  obtain ⟨iterator, hfind⟩ := Option.isSome_iff_exists.mp hfind
  obtain ⟨pre, hole, post, rfl, hhole, hit, hpos, hfit⟩ := h.rep.found hfind
  obtain ⟨hok, hsame, -, hframe⟩ := h.carve hhole hit hpos hfit
  have heq := (heapAllocate_of_find fuel hn hfind).symm.trans (heapAllocate_succ hcall)
  rw [Option.some.inj heq] at hok hsame hframe
  refine ⟨_, hok, footed_carved ht.footed, apart_carved hhole ht.apart, ?_⟩
  rw [hsame.startAddress, footerMagic_of_frame h.pageHeap.low hframe fun x hx => hx]
  exact ht.first

theorem Tight.kfree (ht : Tight s cs) (h : HeapOk s live cs) {p n : Nat} (hp : (p, n) ∈ live)
    (hend : contracts s p = false) (hright : mergesRight s p = false)
    (hroom : mergesLeft s.mem (p - 16) = false → s.heap.index.size < s.heap.index.capacity) :
    ∃ cs', HeapOk (kfree s p) (live.erase (p, n)) cs' ∧ Tight (kfree s p) cs' := by
  obtain ⟨pre, blk, post, rfl, hn, hp⟩ := h.block hp
  obtain ⟨header, hheader⟩ : ∃ header, header = s.heap.startAddress + total Chunk.size pre := ⟨_, rfl⟩
  rw [← hheader] at hp
  subst hp
  rw [Nat.add_sub_cancel] at hroom
  have htag := ht.leftTag h header hheader
  rw [h.mergesRight_eq hn header hheader htag] at hright
  have hno : rightHeader s.mem header = s.heap.endAddress → rightIsHole s.mem s.heap.endAddress = false :=
    fun he => he ▸ hright
  have hend' : mergedEnd s.mem header ≠ s.heap.endAddress := by
    rw [ne_eq, ← h.contracts_iff hn header hheader htag hno, hend]
    exact Bool.false_ne_true
  rcases h.neighbour header hheader hno with ⟨-, post', size, hpost⟩ | ⟨he, -, -⟩
  · rw [hright] at hpost
    obtain ⟨pre₁, c, s₂, hm, -, hsame, -, -, -, hok, -, hframe⟩ :=
      h.kfree_inner hn hpost header hheader htag fun hl _ => hroom hl
    obtain ⟨hfoots, hfooted⟩ := (footed_append (by simp)).mp ht.footed
    obtain ⟨hapart, hapart'⟩ := apart_split.mp ht.apart
    cases hpost with
    | @block r post hr =>
        refine ⟨_, hok, ?_, ?_, ?_⟩
        · exact (footed_append (by simp)).mpr ⟨fun d hd => hfoots d (hm.subset hd), fun _ => rfl, hfooted.2⟩
        · refine apart_split.mpr ⟨?_, apart_cons.mpr ⟨fun d hd => Or.inr ?_, (apart_cons.mp hapart').2⟩⟩
          · exact ht.apart_left h header hheader hm _
          · rw [List.head?_cons, Option.mem_some_iff] at hd
            rw [← hd]
            exact hr
        · rw [hok.start, ← h.start, footerMagic_of_frame h.pageHeap.low hframe fun x hx => hx]
          exact ht.first
  · exact absurd he hend'

theorem frame_boot (m : Mem) (frames : Nat → Nat → Byte) :
    Frame m (mmInitializeHeap m frames).mem fun x => heapStart ≤ x ∨ x + 16 < heapStart := by
  have hs := heapStart_eq
  have ha := heapAddr_eq
  have hi : heapIndexSize * 8 = 0x100000 := rfl
  have h1 := frame_rtZeroMemory m heapAddr (heapIndexSize * 8)
  rw [mmInitializeHeap_eq]
  generalize rtZeroMemory m heapAddr (heapIndexSize * 8) = m₁ at h1 ⊢
  have h2 := frame_writeHeader m₁ heapStart 1 (heapSize - 0x101000)
  generalize writeHeader m₁ heapStart 1 (heapSize - 0x101000) = m₂ at h2 ⊢
  have h3 := frame_arrayInsert m₂ ⟨heapAddr, 0, heapIndexSize, headerPredicate⟩ heapStart
  refine (h1.mono fun x hx => ?_).trans ((h2.mono fun x hx => ?_).trans (h3.mono fun x hx => ?_))
  · omega
  · omega
  · change heapAddr ≤ x ∧ x < heapAddr + 8 * (0 + 1) at hx
    omega

theorem tight_boot {m : Mem} (hm : footerMagic m (heapStart - 16) ≠ heapMagic) (frames : Nat → Nat → Byte) :
    Tight (mmInitializeHeap m frames) [⟨heapSize - 0x101000, none, false⟩] := by
  refine ⟨⟨fun h => by simp at h, trivial⟩, List.isChain_singleton _, ?_⟩
  rw [(heapOk_boot m frames).start, footerMagic_of_frame (by decide +kernel) (frame_boot m frames) fun x hx => hx]
  exact hm

theorem tight_step {r r' : HeapRun} {op : HeapOp} (h : ∃ cs, HeapOk r.state r.live cs ∧ Tight r.state cs)
    (hop : NoResize r op ∧ NoRightHole r op) (hstep : heapStep r op = some r') :
    ∃ cs, HeapOk r'.state r'.live cs ∧ Tight r'.state cs := by
  obtain ⟨cs, h, ht⟩ := h
  cases op with
  | kmalloc fuel size =>
      obtain ⟨⟨p, s'⟩, hcall, rfl⟩ := Option.map_eq_some_iff.mp hstep
      exact ht.kmalloc h (Nat.mod_lt _ (by decide)) hop.1 hcall
  | kfree address =>
      obtain ⟨n, hmem, rfl⟩ := heapStep_kfree hstep
      exact ht.kfree h hmem hop.1 hop.2.1 hop.2.2
  | store address byte =>
      obtain ⟨p, n, hmem, h1, h2, rfl⟩ := heapStep_store hstep
      refine ⟨cs, (h.store hmem h1 h2 byte).1, ht.footed, ht.apart, ?_⟩
      have hframe : Frame r.state.mem (Function.update r.state.mem address byte) (fun x => x = address) :=
        fun x hx => Function.update_of_ne hx byte r.state.mem
      obtain ⟨c, -, hplaced, -, -⟩ := h.placed hmem
      have hb := (placed_bounds Chunk.size hplaced).1
      unfold chunkStart at hb
      change footerMagic (Function.update r.state.mem address byte) (r.state.heap.startAddress - 16) ≠ heapMagic
      rw [footerMagic_of_frame h.pageHeap.low hframe]
      · exact ht.first
      · rintro x rfl
        simp only at hb
        omega

/-! ## The representation invariant -/

/-- The chunks `cs` tile the heap; a chunk before another one has a footer that points to its header; the index has the
headers of the holes, once; two adjacent chunks are not both holes. -/
structure HeapWf (s : HeapState) (cs : List Chunk) : Prop where
  tiles : ∀ x ∈ placed Chunk.size s.heap.startAddress cs, HeaderAt s.mem x.1 x.2.isHole x.2.size ∧ 32 ≤ x.2.size
  fits : s.heap.startAddress + total Chunk.size cs = s.heap.endAddress
  footers : ∀ pre c post, cs = pre ++ c :: post → post ≠ [] →
    FooterAt s.mem (s.heap.startAddress + total Chunk.size pre + c.size - 16) (s.heap.startAddress + total Chunk.size pre)
  once : (contents s.mem s.heap.index).Nodup
  index : ∀ e, e ∈ contents s.mem s.heap.index ↔
    ∃ c, (e, c) ∈ placed Chunk.size s.heap.startAddress cs ∧ headerIsHole s.mem e = 1
  apart : ∀ pre c d post, cs = pre ++ c :: d :: post → ¬ (c.isHole = 1 ∧ d.isHole = 1)

theorem HeapRep.nodup (h : HeapRep s cs) : (contents s.mem s.heap.index).Nodup := by
  refine h.index.nodup_iff.mpr ?_
  unfold holes
  rw [List.Nodup, List.pairwise_filterMap]
  refine (placed_pairwise Chunk.size s.heap.startAddress cs).imp_of_mem ?_
  intro x y hx hy hlt a ha b hb
  have hsz := (h.tiles x hx).size
  split_ifs at ha with hxu
  split_ifs at hb with hyu
  rw [← Option.some.inj ha, ← Option.some.inj hb]
  omega

theorem Tight.heapWf (ht : Tight s cs) (h : HeapRep s cs) : HeapWf s cs := by
  refine ⟨fun x hx => ⟨(h.tiles x hx).header, (h.tiles x hx).size⟩, h.fits, ?_, h.nodup, fun e => ?_, ?_⟩
  · rintro pre c post rfl hpost
    obtain ⟨-, hfoot, -⟩ := (footed_append (by simp)).mp ht.footed
    exact h.chunk.1.footer (hfoot (Or.inl hpost))
  · rw [h.index.mem_iff, mem_holes]
    constructor
    · rintro ⟨c, hc, hmem⟩
      refine ⟨c, hmem, ?_⟩
      rw [(h.tiles _ hmem).header.isHole]
      exact (isHole_eq_one_iff c).mpr hc
    · rintro ⟨c, hmem, he⟩
      rw [(h.tiles _ hmem).header.isHole] at he
      exact ⟨c, (isHole_eq_one_iff c).mp he, hmem⟩
  · rintro pre c d post rfl ⟨hc, hd⟩
    obtain ⟨hbeside, -⟩ := apart_cons.mp (apart_split.mp ht.apart).2
    rcases hbeside d (by simp) with hu | hu
    · exact hu ((isHole_eq_one_iff c).mp hc)
    · exact hu ((isHole_eq_one_iff d).mp hd)

/-- **The representation invariant** holds after every run of calls that keep the size of the heap and do not merge to the
right. -/
theorem heap_wf_run (m : Mem) (frames : Nat → Nat → Byte) (ops : List HeapOp) (r : HeapRun)
    (hm : footerMagic m (heapStart - 16) ≠ heapMagic)
    (hops : StepsMeet heapStep (fun r op => NoResize r op ∧ NoRightHole r op) (HeapRun.boot m frames) ops)
    (hrun : run heapStep (HeapRun.boot m frames) ops = some r) : ∃ cs, HeapWf r.state cs := by
  obtain ⟨cs, h, ht⟩ := run_invariant (I := fun r => ∃ cs, HeapOk r.state r.live cs ∧ Tight r.state cs)
    (fun _ _ _ h hop hs => tight_step h hop hs) ⟨_, heapOk_boot m frames, tight_boot hm frames⟩ hops hrun
  exact ⟨cs, ht.heapWf h.rep⟩

instance (r : HeapRun) : (op : HeapOp) → Decidable (NoResize r op)
  | .kmalloc _ size => inferInstanceAs (Decidable ((heapFindSmallestHole r.state (size % 2 ^ 32 + 32) 0).isSome = true))
  | .kfree address => inferInstanceAs (Decidable (contracts r.state address = false))
  | .store _ _ => .isTrue trivial

instance (r : HeapRun) : (op : HeapOp) → Decidable (NoRightHole r op)
  | .kmalloc _ _ => .isTrue trivial
  | .kfree _ => inferInstanceAs (Decidable (_ ∧ _))
  | .store _ _ => .isTrue trivial

theorem heap_wf_run_three : ∃ r, run heapStep (HeapRun.boot (fun _ => 0) fun _ _ => 0)
    [.kmalloc 1 100, .kmalloc 1 16, .kmalloc 1 64, .kfree 0x100000101010, .kfree 0x100000101094] = some r ∧
      r.live = [(0x1000001010C4, 64)] ∧ ∃ cs, HeapWf r.state cs := by
  have hrun : (run heapStep zeroHeap [.kmalloc 1 100, .kmalloc 1 16, .kmalloc 1 64, .kfree 0x100000101010,
      .kfree 0x100000101094]).map HeapRun.live = some [(0x1000001010C4, 64)] := by decide +kernel
  obtain ⟨r, hr, hlive⟩ := Option.map_eq_some_iff.mp hrun
  rw [← boot_zero] at hr
  refine ⟨r, hr, hlive, heap_wf_run _ _ _ r (by decide +kernel) ?_ hr⟩
  rw [boot_zero]
  decide +kernel

/-- Without the second condition: freeing a block with a hole on its right leaves the footer of that hole as it was. -/
theorem heap_footer_stale : ¬ ∀ (m : Mem) (frames : Nat → Nat → Byte) (ops : List HeapOp) (r : HeapRun),
    footerMagic m (heapStart - 16) ≠ heapMagic → StepsMeet heapStep NoResize (HeapRun.boot m frames) ops →
      run heapStep (HeapRun.boot m frames) ops = some r → ∃ cs, HeapWf r.state cs := by
  intro h
  have hrun : (run heapStep zeroHeap [.kmalloc 1 16, .kmalloc 1 16, .kmalloc 1 16, .kfree 0x100000101040,
      .kfree 0x100000101010]).map (fun r => (r.state.heap.startAddress, r.state.heap.endAddress,
        headerSize r.state.mem 0x100000101000, footerHeader r.state.mem 0x100000101050)) =
          some (0x100000101000, 0x100010000000, 96, 0x100000101030) := by decide +kernel
  obtain ⟨r, hr, heq⟩ := Option.map_eq_some_iff.mp hrun
  simp only [Prod.mk.injEq] at heq
  obtain ⟨hstart, hend, hsize, hfoot⟩ := heq
  rw [← boot_zero] at hr
  obtain ⟨cs, hwf⟩ := h _ _ _ r (by decide +kernel) (by rw [boot_zero]; decide +kernel) hr
  have hfits := hwf.fits
  rw [hstart, hend] at hfits
  cases cs with
  | nil =>
      rw [total_nil] at hfits
      omega
  | cons c cs =>
      have hc := (hwf.tiles (r.state.heap.startAddress, c) List.mem_cons_self).1.size
      simp only [hstart, hsize] at hc
      have hne : cs ≠ [] := by
        rintro rfl
        rw [total_cons, total_nil] at hfits
        omega
      have hf := (hwf.footers [] c cs rfl hne).header
      rw [hstart, total_nil, ← hc] at hf
      change footerHeader r.state.mem 0x100000101050 = 0x100000101000 at hf
      rw [hfoot] at hf
      omega

end Gewodsys.Mem
