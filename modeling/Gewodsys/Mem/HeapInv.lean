import Gewodsys.Machine.Run
import Gewodsys.Mem.HeapKept

/-!
# The kernel heap over runs

* `HeapRun` : the heap with the blocks that are in use; `heapStep` runs `kmalloc`, `kfree` of a live pointer, and a store
  of the user into a payload;
* `HeapOk s live cs` : the chunks `cs` tile the heap, and its blocks are the ones in use;
* `CleanAlloc`, `CleanFree` : the calls that keep it (`HeapOk.kmalloc`, `HeapOk.kfree`, `HeapOk.store`);
* `heapOk_run` : the heap after every run of such calls.
-/

namespace Gewodsys.Mem
open Gewodsys.Machine Gewodsys.Lib

/-! ## Runs -/

/-- The heap and the live blocks: payload address and requested size. -/
structure HeapRun where
  state : HeapState
  live : List (Nat × Nat)

inductive HeapOp where
  | kmalloc (fuel size : Nat)
  | kfree (address : Nat)
  | store (address : Nat) (byte : Byte)

/-- One call; `none` where `kmalloc` does not return, or `address` is not live. -/
def heapStep (r : HeapRun) : HeapOp → Option HeapRun
  | .kmalloc fuel size => (kmalloc fuel r.state size).map fun x => ⟨x.2, (x.1, size % 2 ^ 32) :: r.live⟩
  | .kfree address => (r.live.find? fun q => q.1 = address).map fun q => ⟨kfree r.state address, r.live.erase q⟩
  | .store address byte =>
      if ∃ q ∈ r.live, q.1 ≤ address ∧ address < q.1 + q.2 then
        some { r with state := { r.state with mem := Function.update r.state.mem address byte } }
      else none

def HeapRun.boot (m : Mem) (frames : Nat → Nat → Byte) : HeapRun := ⟨mmInitializeHeap m frames, []⟩

/-! ## The invariant -/

/-- The kernel heap with the blocks `live`. -/
structure HeapOk (s : HeapState) (live : List (Nat × Nat)) (cs : List Chunk) : Prop where
  rep : HeapRep s cs
  footers : ∀ c ∈ cs, c.use ≠ none → c.footer = true
  live : live.Perm (used s.heap.startAddress cs)
  array : s.heap.index.array = heapAddr
  capacity : s.heap.index.capacity = heapIndexSize
  start : s.heap.startAddress = heapStart
  stop : s.heap.endAddress % 4096 = 0
  least : s.heap.startAddress + heapMinSize ≤ s.heap.endAddress
  room : s.heap.index.size ≤ s.heap.index.capacity

theorem heapStart_eq : heapStart = 0x100000101000 := by decide +kernel

theorem heapAddr_eq : heapAddr = 0x100000000000 := rfl

theorem heapIndexSize_eq : heapIndexSize = 0x20000 := rfl

variable {s s' : HeapState} {live : List (Nat × Nat)} {cs : List Chunk}

theorem HeapOk.index_size (h : HeapOk s live cs) : s.heap.index.size ≤ 0x20000 := by
  have hroom := h.room
  rwa [h.capacity, heapIndexSize_eq] at hroom

/-- The index, with one more entry, ends before the 16 bytes below the heap. -/
theorem HeapOk.index_below (h : HeapOk s live cs) {x : Nat} (hx : InSlots s.heap.index (s.heap.index.size + 1) x) :
    x + 16 < s.heap.startAddress := by
  have hsize := h.index_size
  unfold InSlots at hx
  rw [h.array, heapAddr_eq] at hx
  rw [h.start, heapStart_eq]
  omega

theorem HeapOk.pageHeap (h : HeapOk s live cs) : PageHeap s := by
  refine ⟨?_, ?_, h.stop, h.least, ?_, ?_⟩
  · rw [h.start, heapStart_eq]
    omega
  · rw [h.start, heapStart_eq]
  · rw [h.start, heapStart_eq]
    omega
  · intro x hx
    have := h.index_below (x := x) ⟨hx.1, hx.2.trans_le (by omega)⟩
    omega

theorem HeapOk.of_base (h : HeapOk s live cs) (hbase : SameBase s s') {live' : List (Nat × Nat)} {cs' : List Chunk}
    (hrep : HeapRep s' cs') (hfoot : ∀ c ∈ cs', c.use ≠ none → c.footer = true)
    (hlive : live'.Perm (used s.heap.startAddress cs')) (hstop : s'.heap.endAddress % 4096 = 0)
    (hleast : s.heap.startAddress + heapMinSize ≤ s'.heap.endAddress)
    (hroom : s'.heap.index.size ≤ s.heap.index.capacity) : HeapOk s' live' cs' := by
  refine ⟨hrep, hfoot, ?_, hbase.array.trans h.array, hbase.capacity.trans h.capacity,
    hbase.startAddress.trans h.start, hstop, ?_, ?_⟩
  · rw [hbase.startAddress]
    exact hlive
  · rw [hbase.startAddress]
    exact hleast
  · rw [hbase.capacity]
    exact hroom

theorem HeapOk.block (h : HeapOk s live cs) {p n : Nat} (hp : (p, n) ∈ live) :
    ∃ pre blk post, cs = pre ++ blk :: post ∧ blk.use = some n ∧
      p = s.heap.startAddress + total Chunk.size pre + 16 := by
  obtain ⟨b, c, hc, rfl, hmem⟩ := mem_used.mp (h.live.subset hp)
  obtain ⟨pre, post, hcs, hb⟩ := (mem_placed_iff Chunk.size).mp hmem
  exact ⟨pre, c, post, hcs, hc, congrArg (· + 16) hb⟩

/-! ## `kmalloc` -/

theorem used_carved (pos holeSize size n : Nat) : used pos (carved holeSize size n) = [(pos + 16, n)] := by
  unfold carved
  split_ifs <;> simp [used_cons]

theorem footer_carved {holeSize size n : Nat} {c : Chunk} (hc : c ∈ carved holeSize size n) : c.footer = true := by
  unfold carved at hc
  split_ifs at hc
  · rw [List.mem_singleton.mp hc]
  · rcases List.mem_pair.mp hc with rfl | rfl <;> rfl

theorem HeapOk.carve {pre post : List Chunk} {hole : Chunk} (h : HeapOk s live (pre ++ hole :: post))
    (hhole : hole.use = none) {n iterator : Nat} (hit : iterator < s.heap.index.size)
    (hpos : arrayGet s.mem s.heap.index iterator = s.heap.startAddress + total Chunk.size pre)
    (hfit : n + 32 ≤ hole.size) :
    let r := heapCarve s iterator n (n + 32) 0
    HeapOk r.2 ((r.1, n) :: live) (pre ++ carved hole.size (blockSize hole.size n) n ++ post) ∧ SameExtent s r.2 ∧
      HeapKept s r.2 (pre ++ hole :: post) (pre ++ carved hole.size (blockSize hole.size n) n ++ post) noBlock ∧
      Frame s.mem r.2.mem (fun x => s.heap.startAddress ≤ x ∨ x + 16 < s.heap.startAddress) := by
  intro r
  have hsize := h.index_size
  obtain ⟨hret, hsame, hle, hrep, hframe⟩ := heapCarve_spec h.rep hhole hit hpos hfit (by omega)
  obtain ⟨hbs, hbfit⟩ := blockSize_fits hfit
  have hbelow : ∀ x, InSlots s.heap.index s.heap.index.size x → x + 16 < s.heap.startAddress := by
    intro x hx
    apply h.index_below
    unfold InSlots at hx ⊢
    omega
  refine ⟨h.of_base hsame.toSameBase hrep ?_ ?_ ?_ ?_ (hle.trans h.room), hsame, ?_, hframe.mono fun x hx => ?_⟩
  · intro c hc hu
    rcases List.mem_append.mp hc with hc | hc
    · rcases List.mem_append.mp hc with hc | hc
      · exact h.footers c (List.mem_append_left _ hc) hu
      · exact footer_carved hc
    · exact h.footers c (List.mem_append_right _ (List.mem_cons_of_mem _ hc)) hu
  · rw [List.append_assoc, used_append, used_append, used_carved, total_carved (by omega)]
    have hlive := h.live
    rw [used_append, used_cons, hhole] at hlive
    refine (hlive.cons _).trans ?_
    rw [hret]
    exact List.perm_middle.symm
  · rw [hsame.endAddress]
    exact h.stop
  · rw [hsame.endAddress]
    exact h.least
  · rw [← List.singleton_append, ← List.append_assoc]
    apply HeapKept.of_middle hsame.startAddress rfl _ hframe
    · intro x hx
      rcases hx with hx | hx
      · exact Or.inr ⟨hx.1, fun _ => by simpa using hx.2⟩
      · have := hbelow x hx
        exact Or.inl (by omega)
    · exact Or.inl hsame.endAddress
    · intro a c hc hu
      rw [placed_cons, placed_nil, List.mem_singleton, Prod.mk.injEq] at hc
      rw [hc.2] at hu
      exact absurd hhole hu
    · intro a c hc
      obtain ⟨us, vs, hus, -⟩ := (mem_placed_iff Chunk.size).mp hc
      exact Or.inl (footer_carved (c := c) (by rw [hus]; simp))
    · right
      rw [total_carved (by omega)]
      simp
  · exact hx.imp (fun hx => by omega) (hbelow x)

/-- The hole of highest address, if there is one, ends where the heap does. -/
def CanGrow (s : HeapState) : Prop :=
  ∀ e ∈ contents s.mem s.heap.index, (∀ e' ∈ contents s.mem s.heap.index, e' ≤ e) →
    e + headerSize s.mem e = s.heap.endAddress

/-- A call `kmalloc(n)` that finds a hole, or grows the heap to less than 4 GiB at its end. -/
def CleanAlloc (s : HeapState) (n : Nat) : Prop :=
  (heapFindSmallestHole s (n + 32) 0).isSome = true ∨
    (s.heap.endAddress - s.heap.startAddress + (n + 32) < 2 ^ 32 ∧ CanGrow s)

theorem length_holes (a : Nat) (cs : List Chunk) : (holes a cs).length = cs.countP fun c => c.use.isNone := by
  induction cs generalizing a with
  | nil => rfl
  | cons c cs ih =>
      rw [holes_cons, List.length_append, ih, List.countP_cons]
      cases c.use <;> simp [Nat.add_comm]

theorem HeapRep.index_size_eq (h : HeapRep s cs) : s.heap.index.size = cs.countP fun c => c.use.isNone := by
  rw [← length_contents s.mem, h.index.length_eq, length_holes]

theorem find_of_mem {e size : Nat} (he : e ∈ contents s.mem s.heap.index) (hsize : size ≤ headerSize s.mem e) :
    (heapFindSmallestHole s size 0).isSome = true := by
  by_contra hnone
  rw [Option.not_isSome_iff_eq_none] at hnone
  obtain ⟨j, hj, rfl⟩ := List.mem_map.mp he
  have := heapFindSmallestHole_eq_none hnone j (List.mem_range.mp hj)
  omega

/-- Where the last chunk is a hole that is big enough, a hole is found. -/
theorem find_of_last {pre : List Chunk} {c : Chunk} (h : HeapRep s (pre ++ [c])) (hc : c.use = none) {size : Nat}
    (hsize : size ≤ c.size) : (heapFindSmallestHole s size 0).isSome = true := by
  apply find_of_mem (h.hole_mem hc)
  rw [h.chunk.1.header.size]
  exact hsize

theorem chunks_total_zero {m : Mem} {a : Nat} (h : Chunks m a cs) (h0 : total Chunk.size cs = 0) : cs = [] := by
  cases cs with
  | nil => rfl
  | cons c cs =>
      have := (chunks_cons.mp h).1.size
      rw [total_cons] at h0
      omega

/-- The last hole, where the hole of highest address ends with the heap. -/
theorem HeapRep.last_hole (h : HeapRep s cs) (hne : s.heap.index.size ≠ 0)
    (hlast : ∀ e ∈ contents s.mem s.heap.index, (∀ e' ∈ contents s.mem s.heap.index, e' ≤ e) →
      e + headerSize s.mem e = s.heap.endAddress) : ∃ pre c, cs = pre ++ [c] ∧ c.use = none := by
  have hlen : 0 < (contents s.mem s.heap.index).length := by
    rw [length_contents]
    omega
  obtain ⟨e, he, hmax⟩ : ∃ e ∈ contents s.mem s.heap.index, ∀ e' ∈ contents s.mem s.heap.index, e' ≤ e :=
    ⟨_, List.maximum_of_length_pos_mem hlen, fun e' he' => List.le_maximum_of_length_pos_of_mem he' hlen⟩
  obtain ⟨pre, c, post, rfl, hc, hpos⟩ := h.hole he
  obtain ⟨hchunk, hend⟩ := h.chunk
  have hstop := hlast e he hmax
  rw [hpos, hchunk.header.size] at hstop
  have hnil : post = [] := by
    refine chunks_total_zero (chunks_cons.mp (chunks_append.mp h.tiles).2).2 ?_
    omega
  exact ⟨pre, c, by rw [hnil], hc⟩

/-- The end of the heap after growing is that of a page. -/
theorem HeapOk.grown_page (h : HeapOk s live cs) (n : Nat) :
    (s.heap.startAddress + grownLength s n) % 4096 = 0 ∧
      s.heap.endAddress - s.heap.startAddress + (n + 32) < grownLength s n := by
  have hstart := h.pageHeap.start
  refine ⟨?_, lt_grownLength s n⟩
  unfold grownLength
  omega

theorem HeapOk.grow_new (h : HeapOk s live cs) {n : Nat}
    (hsize : s.heap.endAddress - s.heap.startAddress + (n + 32) < 2 ^ 32) (hempty : s.heap.index.size = 0) :
    let d := grownLength s n - (s.heap.endAddress - s.heap.startAddress)
    (∀ c ∈ cs, c.footer = true) ∧ HeapOk (heapGrow s (n + 32)) live (cs ++ [⟨d, none, true⟩]) ∧
      HeapKept s (heapGrow s (n + 32)) cs (cs ++ [⟨d, none, true⟩]) noBlock := by
  intro d
  have hleast := h.least
  have hcap : s.heap.index.capacity = 0x20000 := h.capacity
  obtain ⟨hG, hlt⟩ := h.grown_page n
  have hroom' : ∀ x, InSlots s.heap.index (s.heap.index.size + 1) x → x < s.heap.startAddress := by
    intro x hx
    have := h.index_below hx
    omega
  obtain ⟨hrep, hbase, hend, hframe⟩ := heapGrow_new h.rep h.pageHeap hsize hempty hroom'
  have hfoot : ∀ c ∈ cs, c.footer = true := by
    intro c hc
    apply h.footers c hc
    intro hu
    have hcount := h.rep.index_size_eq
    rw [hempty] at hcount
    have hnot := List.countP_eq_zero.mp hcount.symm c hc
    simp [hu] at hnot
  refine ⟨hfoot, h.of_base hbase hrep ?_ ?_ ?_ ?_ ?_,
    heapKept_grow_new hbase.startAddress h.rep.fits hfoot hframe fun x hx => ?_⟩
  · intro c hc hu
    rcases List.mem_append.mp hc with hc | hc
    · exact h.footers c hc hu
    · rw [List.mem_singleton.mp hc]
  · rw [used_append, used_cons, used_nil]
    simpa using h.live
  · rw [hend]
    exact hG
  · rw [hend]
    omega
  · have hcount := hrep.index_size_eq
    have hcount' := h.rep.index_size_eq
    rw [List.countP_append, List.countP_singleton] at hcount
    rw [hcount, ← hcount', hempty, hcap]
    simp
  · exact hx.symm.imp_left (hroom' x)

theorem HeapOk.grow_last {pre : List Chunk} {c : Chunk} (h : HeapOk s live (pre ++ [c])) (hc : c.use = none) {n : Nat}
    (hsize : s.heap.endAddress - s.heap.startAddress + (n + 32) < 2 ^ 32) :
    let d := grownLength s n - (s.heap.endAddress - s.heap.startAddress)
    HeapOk (heapGrow s (n + 32)) live (pre ++ [⟨c.size + d, none, true⟩]) ∧
      HeapKept s (heapGrow s (n + 32)) (pre ++ [c]) (pre ++ [⟨c.size + d, none, true⟩]) noBlock := by
  intro d
  have hleast := h.least
  obtain ⟨hG, hlt⟩ := h.grown_page n
  obtain ⟨hrep, hbase, hend, hsz, hframe⟩ := heapGrow_last h.rep hc h.pageHeap hsize
  obtain ⟨hchunk, hcend⟩ := h.rep.chunk
  have hcsz := hchunk.size
  refine ⟨h.of_base hbase hrep ?_ ?_ ?_ ?_ ?_,
    heapKept_last hbase.startAddress rfl (by omega) ?_ hframe fun x hx => Or.inr hx⟩
  · intro c hc hu
    rcases List.mem_append.mp hc with hc | hc
    · exact h.footers c (List.mem_append_left _ hc) hu
    · rw [List.mem_singleton.mp hc]
  · have hlive := h.live
    rw [used_append, used_cons, hc, used_nil] at hlive
    rw [used_append, used_cons, used_nil]
    exact hlive
  · rw [hend]
    exact hG
  · rw [hend]
    omega
  · exact hsz.trans_le h.room
  · intro a c' hc' hu
    rw [placed_cons, placed_nil, List.mem_singleton, Prod.mk.injEq] at hc'
    rw [hc'.2] at hu
    exact absurd hc hu

theorem HeapOk.grow (h : HeapOk s live cs) {n : Nat} (hcan : CanGrow s)
    (hsize : s.heap.endAddress - s.heap.startAddress + (n + 32) < 2 ^ 32) :
    let s' := heapGrow s (n + 32)
    (∃ cs', HeapOk s' live cs' ∧ HeapKept s s' cs cs' noBlock) ∧
      (heapFindSmallestHole s' (n + 32) 0).isSome = true := by
  intro s'
  obtain ⟨-, hlt⟩ := h.grown_page n
  by_cases hempty : s.heap.index.size = 0
  · obtain ⟨-, hok, hkept⟩ := h.grow_new hsize hempty
    refine ⟨⟨_, hok, hkept⟩, find_of_last hok.rep rfl ?_⟩
    change n + 32 ≤ grownLength s n - (s.heap.endAddress - s.heap.startAddress)
    omega
  · obtain ⟨pre, c, rfl, hc⟩ := h.rep.last_hole hempty hcan
    obtain ⟨hok, hkept⟩ := h.grow_last hc hsize
    refine ⟨⟨_, hok, hkept⟩, find_of_last hok.rep rfl ?_⟩
    change n + 32 ≤ c.size + (grownLength s n - (s.heap.endAddress - s.heap.startAddress))
    omega

theorem newSize_eq {n : Nat} (hn : n < 2 ^ 32) : add64 (add64 n sizeofHeapHeader) sizeofHeapFooter = n + 32 := by
  unfold sizeofHeapHeader sizeofHeapFooter
  rw [add64_of_lt (a := n) (by omega), add64_of_lt (by omega)]

theorem HeapOk.allocate (h : HeapOk s live cs) {n : Nat} (hn : n < 2 ^ 32) (hclean : CleanAlloc s n) (fuel : Nat) :
    ∃ s₁ iterator, (∃ cs₁, HeapOk s₁ live cs₁ ∧ HeapKept s s₁ cs cs₁ noBlock) ∧
      (s₁ = s ∨ heapFindSmallestHole s (n + 32) 0 = none ∧ s₁ = heapGrow s (n + 32)) ∧
      heapFindSmallestHole s₁ (n + 32) 0 = some iterator ∧
      heapAllocate (fuel + 2) s n 0 = some (heapCarve s₁ iterator n (n + 32) 0) := by
  cases hfind : heapFindSmallestHole s (n + 32) 0 with
  | some iterator =>
      exact ⟨s, iterator, ⟨cs, h, HeapKept.refl s cs⟩, Or.inl rfl, hfind, heapAllocate_of_find (fuel + 1) hn hfind⟩
  | none =>
      rcases hclean with hsome | ⟨hsize, hcan⟩
      · rw [hfind] at hsome
        cases hsome
      · obtain ⟨⟨cs₁, hok, hkept⟩, hsome⟩ := h.grow hcan hsize
        obtain ⟨iterator, hfind'⟩ := Option.isSome_iff_exists.mp hsome
        refine ⟨heapGrow s (n + 32), iterator, ⟨cs₁, hok, hkept⟩, Or.inr ⟨rfl, rfl⟩, hfind', ?_⟩
        rw [heapAllocate]
        simp only [newSize_eq hn, hfind]
        exact heapAllocate_of_find fuel hn hfind'

theorem heapAllocate_succ {fuel : Nat} {s : HeapState} {size : Nat} {align : Int} {x : Nat × HeapState}
    (h : heapAllocate fuel s size align = some x) : heapAllocate (fuel + 1) s size align = some x := by
  induction fuel generalizing s with
  | zero => cases h
  | succ fuel ih =>
      rw [heapAllocate] at h ⊢
      cases hfind : heapFindSmallestHole s (add64 (add64 size sizeofHeapHeader) sizeofHeapFooter) align with
      | none =>
          simp only [hfind] at h ⊢
          exact ih h
      | some iterator =>
          simp only [hfind] at h ⊢
          exact h

theorem heapAllocate_mono {fuel : Nat} {s : HeapState} {size : Nat} {align : Int} {x : Nat × HeapState}
    (h : heapAllocate fuel s size align = some x) (k : Nat) : heapAllocate (fuel + k) s size align = some x := by
  induction k with
  | zero => exact h
  | succ k ih => exact heapAllocate_succ ih

theorem heapAllocate_unique {fuel fuel' : Nat} {s : HeapState} {size : Nat} {align : Int} {x y : Nat × HeapState}
    (hx : heapAllocate fuel s size align = some x) (hy : heapAllocate fuel' s size align = some y) : x = y := by
  have h := heapAllocate_mono hx fuel'
  rw [Nat.add_comm] at h
  exact Option.some.inj (h.symm.trans (heapAllocate_mono hy fuel))

/-- **A clean `kmalloc` keeps the heap in order.** It grows the heap to `s₁` first, where there is no hole. -/
theorem HeapOk.kmalloc (h : HeapOk s live cs) {fuel n p : Nat} (hn : n < 2 ^ 32) (hclean : CleanAlloc s n)
    (hcall : heapAllocate fuel s n 0 = some (p, s')) :
    ∃ s₁ cs₁ cs', HeapOk s₁ live cs₁ ∧ HeapKept s s₁ cs cs₁ noBlock ∧
      HeapOk s' ((p, n) :: live) cs' ∧ HeapKept s₁ s' cs₁ cs' noBlock := by
  obtain ⟨s₁, iterator, ⟨cs₁, h₁, hkept₁⟩, -, hfind, hcarve⟩ := h.allocate hn hclean fuel
  obtain ⟨pre, hole, post, rfl, hhole, hit, hpos, hfit⟩ := h₁.rep.found hfind
  obtain ⟨hok, -, hkept, -⟩ := h₁.carve hhole hit hpos hfit
  rw [heapAllocate_unique hcarve hcall] at hok hkept
  exact ⟨s₁, _, _, h₁, hkept₁, hok, hkept⟩

/-! ## `kfree` -/

/-- The header behind the chunk at `header`. -/
def rightHeader (m : Mem) (header : Nat) : Nat := header + headerSize m header

/-- Where the hole that the block at `header` becomes starts, and where it ends. -/
def mergedHeader (m : Mem) (header : Nat) : Nat :=
  if mergesLeft m header then footerHeader m (header - 16) else header

def mergedEnd (m : Mem) (header : Nat) : Nat :=
  let right := rightHeader m header
  if rightIsHole m right then rightHeader m right else right

/-- A call `kfree(p)` with a footer on its left that can be trusted, and room in the index for a new hole; a hole that ends
with the heap starts before the least size of the heap. -/
structure CleanFree (s : HeapState) (p : Nat) : Prop where
  left : LeftTag s (p - 16)
  room : mergesLeft s.mem (p - 16) = false → rightIsHole s.mem (rightHeader s.mem (p - 16)) = false →
    s.heap.index.size < s.heap.index.capacity
  right : rightHeader s.mem (p - 16) = s.heap.endAddress → rightIsHole s.mem s.heap.endAddress = false
  last : mergedEnd s.mem (p - 16) = s.heap.endAddress →
    mergedHeader s.mem (p - 16) + 32 ≤ s.heap.startAddress + heapMinSize

section Merged
variable {pre pre₁ : List Chunk} {blk c : Chunk} {left : Bool}

theorem MergedLeft.used_eq (h : MergedLeft pre blk pre₁ c left) (a : Nat) : used a pre₁ = used a pre := by
  cases left with
  | true =>
      obtain ⟨l, rfl, hl, -⟩ := h
      simp [used_append, used_cons, hl]
  | false => rw [h.1]

theorem MergedLeft.subset (h : MergedLeft pre blk pre₁ c left) : pre₁ ⊆ pre := by
  cases left with
  | true =>
      obtain ⟨l, rfl, -, -⟩ := h
      exact List.subset_append_left _ _
  | false =>
      rw [h.1]
      exact List.Subset.refl _

theorem MergedLeft.countP (h : MergedLeft pre blk pre₁ c left) :
    (pre.countP fun c => c.use.isNone) = (pre₁.countP fun c => c.use.isNone) + left.toNat := by
  cases left with
  | true =>
      obtain ⟨l, rfl, hl, -⟩ := h
      rw [List.countP_append, List.countP_singleton, hl]
      rfl
  | false =>
      rw [h.1]
      rfl

theorem MergedLeft.header {post : List Chunk} (hrep : HeapRep s (pre ++ blk :: post)) (header : Nat)
    (hheader : header = s.heap.startAddress + total Chunk.size pre) (htag : LeftTag s header)
    (h : MergedLeft pre blk pre₁ c (mergesLeft s.mem header)) :
    mergedHeader s.mem header = s.heap.startAddress + total Chunk.size pre₁ := by
  unfold mergedHeader
  cases hleft : mergesLeft s.mem header with
  | true =>
      rw [hleft] at h
      obtain ⟨pre₂, l₂, he, -, hh⟩ := left_spec hrep header hheader htag hleft
      obtain ⟨l, he', -, -⟩ := h
      obtain ⟨rfl, -⟩ := List.append_inj' (he'.symm.trans he) rfl
      rw [if_pos rfl, hh]
  | false =>
      rw [hleft] at h
      rw [h.1, hheader]
      rfl

end Merged

section Freed
variable {pre pre₁ post post' : List Chunk} {blk c hole : Chunk} {left right : Bool} {n : Nat}

theorem HeapOk.freed_size (h : HeapOk s live (pre ++ blk :: post)) (hn : blk.use = some n)
    (hm : MergedLeft pre blk pre₁ c left) (hrep : HeapRep s' (pre₁ ++ hole :: post')) (hhole : hole.use = none)
    (hpost : (post.countP fun c => c.use.isNone) = (post'.countP fun c => c.use.isNone) + right.toNat) :
    s'.heap.index.size + left.toNat + right.toNat = s.heap.index.size + 1 := by
  have h1 := h.rep.index_size_eq
  have h2 := hrep.index_size_eq
  have h3 := hm.countP
  simp only [List.countP_append, List.countP_cons, hn, hhole, Option.isNone_some, Option.isNone_none] at h1 h2
  simp only [Bool.false_eq_true, if_false, if_true] at h1 h2
  omega

theorem HeapOk.freed (h : HeapOk s live (pre ++ blk :: post)) (hn : blk.use = some n)
    (hm : MergedLeft pre blk pre₁ c left) (hrep : HeapRep s' (pre₁ ++ hole :: post')) (hhole : hole.use = none)
    (hsub : post' ⊆ post) (hcount : (post.countP fun c => c.use.isNone) =
      (post'.countP fun c => c.use.isNone) + right.toNat)
    (hused : used (s.heap.startAddress + total Chunk.size pre₁ + hole.size) post' =
      used (s.heap.startAddress + total Chunk.size pre + blk.size) post)
    (hbase : SameBase s s') (hstop : s'.heap.endAddress % 4096 = 0)
    (hleast : s.heap.startAddress + heapMinSize ≤ s'.heap.endAddress)
    (hroom : left = false → right = false → s.heap.index.size < s.heap.index.capacity) (header : Nat)
    (hheader : header = s.heap.startAddress + total Chunk.size pre) :
    HeapOk s' (live.erase (header + 16, n)) (pre₁ ++ hole :: post') := by
  refine h.of_base hbase hrep ?_ ?_ hstop hleast ?_
  · intro d hd hu
    rcases List.mem_append.mp hd with hd | hd
    · exact h.footers d (List.mem_append_left _ (hm.subset hd)) hu
    · rcases List.mem_cons.mp hd with rfl | hd
      · exact absurd hhole hu
      · exact h.footers d (List.mem_append_right _ (List.mem_cons_of_mem _ (hsub hd))) hu
  · have hlive := h.live
    rw [used_append, used_cons, hn, Option.map_some, Option.toList_some, List.singleton_append] at hlive
    rw [used_append, hm.used_eq, used_cons, hhole, hused]
    have herase := (hlive.trans List.perm_middle).erase (s.heap.startAddress + total Chunk.size pre + 16, n)
    rw [List.erase_cons_head] at herase
    rw [hheader]
    exact herase
  · have hsz := h.freed_size hn hm hrep hhole hcount
    have hold := h.room
    cases left <;> cases right <;> simp only [Bool.toNat_true, Bool.toNat_false] at hsz
    · have := hroom rfl rfl
      omega
    · omega
    · omega
    · omega

end Freed

section Cases
variable {pre post post' : List Chunk} {blk : Chunk} {size n : Nat} {right : Bool}

theorem InnerRight.used_eq (h : InnerRight post post' size right) (a : Nat) :
    used (a + size) post' = used a post := by
  cases h with
  | block => rfl
  | hole hr => simp [used_cons, hr]

theorem InnerRight.countP (h : InnerRight post post' size right) :
    (post.countP fun c => c.use.isNone) = (post'.countP fun c => c.use.isNone) + right.toNat := by
  cases h with
  | block => rfl
  | @hole r r' post hr =>
      rw [List.countP_cons, hr]
      rfl

theorem InnerRight.subset (h : InnerRight post post' size right) : post' ⊆ post := by
  cases h with
  | block => exact List.Subset.refl _
  | hole => exact List.subset_cons_self _ _

theorem LastRight.used_eq {m : Mem} {stop : Nat} {post : List Chunk} (h : LastRight m stop post) (a : Nat) :
    used a post = [] := by
  cases h with
  | none => rfl
  | hole hr => simp [used_cons, hr]

theorem LastRight.countP {m : Mem} {stop : Nat} {post : List Chunk} (h : LastRight m stop post) :
    (post.countP fun c => c.use.isNone) = (!post.isEmpty).toNat := by
  cases h with
  | none => rfl
  | hole hr =>
      rw [List.countP_singleton, hr]
      rfl

theorem HeapOk.kfree_inner (h : HeapOk s live (pre ++ blk :: post)) (hn : blk.use = some n)
    (hpost : InnerRight post post' size right) (header : Nat)
    (hheader : header = s.heap.startAddress + total Chunk.size pre) (htag : LeftTag s header)
    (hroom : mergesLeft s.mem header = false → right = false → s.heap.index.size < s.heap.index.capacity) :
    ∃ pre₁ c s₂, MergedLeft pre blk pre₁ c (mergesLeft s.mem header) ∧
      Merging s₂ pre₁ post' ⟨c.size + size, none, !right⟩ (!mergesLeft s.mem header) ∧ SameExtent s s₂ ∧
      s₂.heap.index.size ≤ s.heap.index.size ∧
      (contents s₂.mem s₂.heap.index).Sublist (contents s.mem s.heap.index) ∧
      kfree s (header + 16) = (if mergesLeft s.mem header then s₂
        else s₂.arrayInsert (s.heap.startAddress + total Chunk.size pre₁)) ∧
      HeapOk (kfree s (header + 16)) (live.erase (header + 16, n)) (pre₁ ++ ⟨c.size + size, none, !right⟩ :: post') ∧
      HeapKept s (kfree s (header + 16)) (pre ++ blk :: post) (pre₁ ++ ⟨c.size + size, none, !right⟩ :: post')
        (fun a => a = header) ∧
      Frame s.mem (kfree s (header + 16)).mem (fun x => s.heap.startAddress ≤ x ∨ x + 16 < s.heap.startAddress) := by
  have hlow := h.pageHeap.low
  have hindex := h.index_size
  have hused : blk.use ≠ none := by simp [hn]
  have hfoot := h.footers blk (by simp) hused
  obtain ⟨pre₁, c, s₂, hm, hmerge, hsame, hsz, hsub, hframe, hfree⟩ :=
    heapFree_inner h.rep hused hfoot hlow hpost header hheader htag
  have hlen := mergedLeft_end hm
  have hslots : ∀ x, InSlots s₂.heap.index (s₂.heap.index.size + 1) x → x + 16 < s.heap.startAddress := by
    intro x hx
    apply h.index_below
    unfold InSlots at hx ⊢
    rw [hsame.array] at hx
    omega
  have hf₂ : Frame s.mem s₂.mem (fun x => (s.heap.startAddress + total Chunk.size pre₁ ≤ x ∧ x < header + blk.size) ∨
      x + 16 < s.heap.startAddress) := by
    refine hframe.mono fun x hx => hx.imp_right fun hx => h.index_below ?_
    unfold InSlots at hx ⊢
    omega
  have hdone : HeapRep (kfree s (header + 16)) (pre₁ ++ ⟨c.size + size, none, !right⟩ :: post') ∧
      SameExtent s (kfree s (header + 16)) ∧
      Frame s.mem (kfree s (header + 16)).mem (fun x =>
        (s.heap.startAddress + total Chunk.size pre₁ ≤ x ∧ x < header + blk.size) ∨ x + 16 < s.heap.startAddress) := by
    unfold kfree
    rw [hfree]
    cases hl : mergesLeft s.mem header with
    | true =>
        rw [hl] at hmerge
        exact ⟨hmerge.heapRep, hsame, hf₂⟩
    | false =>
        rw [hl] at hmerge
        simp only [Bool.false_eq_true, if_false]
        rw [← hsame.startAddress]
        refine ⟨hmerge.insert (by omega) fun x hx => Or.inl ?_, hsame.trans (sameExtent_arrayInsert _ _), ?_⟩
        · have := hslots x hx
          rw [hsame.startAddress]
          omega
        · rw [hsame.startAddress]
          exact hf₂.trans ((frame_arrayInsert s₂.mem s₂.heap.index _).mono fun x hx => Or.inr (hslots x hx))
  obtain ⟨hrep, hsame', hframe'⟩ := hdone
  refine ⟨pre₁, c, s₂, hm, hmerge, hsame, by omega, hsub, hfree, ?_,
    heapKept_free hsame' hm hpost hheader hframe' fun x hx => hx.symm.imp_left fun hx => by omega,
    hframe'.mono fun x hx => hx.imp_left fun hx => by omega⟩
  refine h.freed hn hm hrep rfl hpost.subset hpost.countP ?_ hsame'.toSameBase ?_ ?_ hroom header hheader
  · simp only
    rw [← Nat.add_assoc, hpost.used_eq, Nat.add_assoc, hlen, Nat.add_assoc]
  · rw [hsame'.endAddress]
    exact h.stop
  · rw [hsame'.endAddress]
    exact h.least

theorem HeapOk.kfree_last (h : HeapOk s live (pre ++ blk :: post)) (hn : blk.use = some n)
    (hpost : LastRight s.mem s.heap.endAddress post) (header : Nat)
    (hheader : header = s.heap.startAddress + total Chunk.size pre) (htag : LeftTag s header)
    (hmin : mergedHeader s.mem header + 32 ≤ s.heap.startAddress + heapMinSize)
    (hroom : mergesLeft s.mem header = false → post = [] → s.heap.index.size < s.heap.index.capacity) :
    ∃ cs', HeapOk (kfree s (header + 16)) (live.erase (header + 16, n)) cs' ∧
      HeapKept s (kfree s (header + 16)) (pre ++ blk :: post) cs' (fun a => a = header) := by
  have hlow := h.pageHeap.low
  have hstart := h.pageHeap.start
  have hindex := h.index_size
  have hused : blk.use ≠ none := by simp [hn]
  have hfoot := h.footers blk (by simp) hused
  have hmin' : ∀ pre₁ c, MergedLeft pre blk pre₁ c (mergesLeft s.mem header) →
      total Chunk.size pre₁ + 32 ≤ heapMinSize := by
    intro pre₁ c hm
    rw [MergedLeft.header h.rep header hheader htag hm] at hmin
    omega
  have hroom' : mergesLeft s.mem header = false → post = [] → IndexRoom s := by
    intro _ _
    refine ⟨by omega, fun x hx => Or.inl ?_⟩
    have := h.index_below hx
    omega
  obtain ⟨pre₁, c, hm, hrep, hbase, hstop, hframe⟩ :=
    heapFree_last h.rep hused hfoot hlow hpost header hheader htag hmin' h.least hroom' (by omega)
  have hleast := h.least
  have hmin₂ := hmin' pre₁ c hm
  obtain ⟨ls, hls, hlsu, hlen⟩ := hm.split
  have hmin₁ : heapMinSize % 4096 = 0 := by decide
  have hcount : (post.countP fun c => c.use.isNone) =
      (([] : List Chunk).countP fun c => c.use.isNone) + (!post.isEmpty).toNat := by
    rw [hpost.countP, List.countP_nil, Nat.zero_add]
  have hkept : HeapKept s (kfree s (header + 16)) (pre₁ ++ (ls ++ blk :: post))
      (pre₁ ++ [⟨heapMinSize - total Chunk.size pre₁, none, true⟩]) (fun a => a = header) := by
    apply heapKept_last hbase.startAddress rfl (by omega) _ hframe
    · intro x hx
      rcases hx with hx | hx | ⟨-, hx⟩
      · exact Or.inr hx.1
      · have := h.index_below (x := x) ⟨hx.1, hx.2.trans_le (by omega)⟩
        exact Or.inl (by omega)
      · have := h.index_below hx
        exact Or.inl (by omega)
    · intro a c' hc' hu
      rw [used_joined hlsu hpost.split hc' hu, hheader, hls, total_append, Nat.add_assoc]
  rw [← List.append_assoc, ← hls] at hkept
  refine ⟨_, h.freed hn hm hrep rfl (List.nil_subset _) hcount ?_ hbase ?_ ?_ ?_ header hheader, hkept⟩
  · rw [hpost.used_eq, used_nil]
  · rw [hstop]
    omega
  · rw [hstop]
  · intro hl hr
    exact hroom hl (by simpa using hr)

/-- Where the chunk behind a block starts, and whether it is a hole. -/
theorem HeapOk.rightChunk (h : HeapOk s live (pre ++ blk :: post)) (header : Nat)
    (hheader : header = s.heap.startAddress + total Chunk.size pre) :
    rightHeader s.mem header = header + blk.size ∧ (rightHeader s.mem header = s.heap.endAddress ↔ post = []) ∧
      ∀ r post', post = r :: post' → (rightIsHole s.mem (rightHeader s.mem header) = true ↔ r.use = none) ∧
        rightHeader s.mem (rightHeader s.mem header) = header + blk.size + r.size := by
  obtain ⟨hchunk, hend⟩ := h.rep.chunk
  rw [← hheader] at hchunk hend
  have hright : rightHeader s.mem header = header + blk.size := by rw [rightHeader, hchunk.header.size]
  have hpost : Chunks s.mem (header + blk.size) post := by
    rw [hheader]
    exact (chunks_cons.mp (chunks_append.mp h.rep.tiles).2).2
  refine ⟨hright, ?_, fun r post' he => ?_⟩
  · rw [hright]
    constructor
    · intro he
      apply chunks_total_zero hpost
      omega
    · rintro rfl
      rw [total_nil] at hend
      omega
  · subst he
    have hr := (chunks_cons.mp hpost).1
    rw [hright]
    exact ⟨right_spec hr, by rw [rightHeader, hr.header.size]⟩

theorem HeapOk.neighbour (h : HeapOk s live (pre ++ blk :: post)) (header : Nat)
    (hheader : header = s.heap.startAddress + total Chunk.size pre)
    (hno : rightHeader s.mem header = s.heap.endAddress → rightIsHole s.mem s.heap.endAddress = false) :
    (mergedEnd s.mem header ≠ s.heap.endAddress ∧
        ∃ post' size, InnerRight post post' size (rightIsHole s.mem (rightHeader s.mem header))) ∨
      (mergedEnd s.mem header = s.heap.endAddress ∧ LastRight s.mem s.heap.endAddress post ∧
        (post = [] → rightIsHole s.mem (rightHeader s.mem header) = false)) := by
  obtain ⟨-, hend⟩ := h.rep.chunk
  rw [← hheader] at hend
  obtain ⟨hright, hstop, hnext⟩ := h.rightChunk header hheader
  have htiles := (chunks_cons.mp (chunks_append.mp h.rep.tiles).2).2
  unfold mergedEnd
  simp only
  cases post with
  | nil =>
      have he : rightHeader s.mem header = s.heap.endAddress := hstop.mpr rfl
      have hfalse := hno he
      rw [he, hfalse]
      exact Or.inr ⟨rfl, LastRight.none hfalse, fun _ => rfl⟩
  | cons r post =>
      obtain ⟨hhole, hnext⟩ := hnext r post rfl
      rw [total_cons] at hend
      have hrsz := (chunks_cons.mp htiles).1.size
      by_cases hr : r.use = none
      · rw [hhole.mpr hr, if_pos rfl, hnext]
        cases post with
        | nil =>
            rw [total_nil] at hend
            exact Or.inr ⟨by omega, LastRight.hole hr, fun he => by cases he⟩
        | cons r' post =>
            rw [total_cons] at hend
            have hrsz' := (chunks_cons.mp (chunks_cons.mp htiles).2).1.size
            exact Or.inl ⟨by omega, _, _, InnerRight.hole hr⟩
      · have hfalse : rightIsHole s.mem (rightHeader s.mem header) = false := by
          rw [Bool.eq_false_iff, ne_eq, hhole]
          exact hr
        rw [hfalse, hright]
        refine Or.inl ⟨?_, _, _, InnerRight.block hr⟩
        simp only [Bool.false_eq_true, if_false]
        omega

/-- The first stage of `HeapFree`, and the header on the right after it. -/
theorem HeapOk.freeLeft_spec (h : HeapOk s live (pre ++ blk :: post)) (hn : blk.use = some n) (header : Nat)
    (hheader : header = s.heap.startAddress + total Chunk.size pre) (htag : LeftTag s header) :
    ∃ pre₁ c m', MergedLeft pre blk pre₁ c (mergesLeft s.mem header) ∧
      freeLeft s (header + 16) = (m', s.heap.startAddress + total Chunk.size pre₁, !mergesLeft s.mem header) ∧
      Merging { s with mem := m' } pre₁ post c (!mergesLeft s.mem header) ∧
      rightIsHole m' (header + blk.size) = rightIsHole s.mem (header + blk.size) := by
  have hlow := h.pageHeap.low
  have hused : blk.use ≠ none := by simp [hn]
  obtain ⟨-, -, hl⟩ := freeLeft_eq h.rep hlow header hheader
  obtain ⟨pre₁, c, m', hm, hleft, hmerge, hframe⟩ :=
    freeMergeLeft_spec h.rep hused (h.footers blk (by simp) hused) hlow header hheader htag
  refine ⟨pre₁, c, m', hm, hl.trans hleft, hmerge, ?_⟩
  unfold rightIsHole headerMagic headerIsHole
  rw [show m'.read32 (header + blk.size) = s.mem.read32 (header + blk.size) from
      hframe.read fun x h1 h2 hx => by omega,
    show m'.read8 (header + blk.size + 4) = s.mem.read8 (header + blk.size + 4) from
      hframe.read fun x h1 h2 hx => by omega]

/-- The test for a hole on the right, read from the state before the call. -/
theorem HeapOk.mergesRight_eq (h : HeapOk s live (pre ++ blk :: post)) (hn : blk.use = some n) (header : Nat)
    (hheader : header = s.heap.startAddress + total Chunk.size pre) (htag : LeftTag s header) :
    mergesRight s (header + 16) = rightIsHole s.mem (rightHeader s.mem header) := by
  obtain ⟨hf, ht, -⟩ := freeLeft_eq h.rep h.pageHeap.low header hheader
  obtain ⟨pre₁, c, m', -, hl, -, hread⟩ := h.freeLeft_spec hn header hheader htag
  rw [mergesRight, hl, hf, ht, hread, (h.rightChunk header hheader).1]

theorem HeapOk.contracts_iff (h : HeapOk s live (pre ++ blk :: post)) (hn : blk.use = some n) (header : Nat)
    (hheader : header = s.heap.startAddress + total Chunk.size pre) (htag : LeftTag s header)
    (hno : rightHeader s.mem header = s.heap.endAddress → rightIsHole s.mem s.heap.endAddress = false) :
    contracts s (header + 16) = true ↔ mergedEnd s.mem header = s.heap.endAddress := by
  have htop := h.rep.top
  obtain ⟨hchunk, hend⟩ := h.rep.chunk
  have hsz := hchunk.size
  rw [← hheader] at hend
  obtain ⟨hright, hstop, hnext⟩ := h.rightChunk header hheader
  obtain ⟨hf, ht, -⟩ := freeLeft_eq h.rep h.pageHeap.low header hheader
  obtain ⟨pre₁, c, m', hm, hl, hmerge, hread⟩ := h.freeLeft_spec hn header hheader htag
  have hlen := mergedLeft_end hm
  unfold contracts freeRight mergedEnd
  simp only [hl, hf, hright, decide_eq_true_iff]
  cases hr : rightIsHole s.mem (header + blk.size) with
  | false =>
      rw [freeMergeRight_of_used (s := { s with mem := m' }) _ (header + blk.size - 16) (e := header + blk.size)
        (by omega) (by omega) (hread.trans hr), ht]
      simp
  | true =>
      cases post with
      | nil =>
          have he := hstop.mpr rfl
          have hfalse := hno he
          rw [← he, hright, hr] at hfalse
          cases hfalse
      | cons r post =>
          obtain ⟨hhole, hnext⟩ := hnext r post rfl
          rw [hright, hr] at hhole
          have hru : r.use = none := hhole.mp rfl
          rw [hright] at hnext
          have he : s.heap.startAddress + total Chunk.size pre₁ + c.size = header + blk.size := by omega
          obtain ⟨s₂, hmright, -⟩ := freeMergeRight_of_hole hmerge hru _ rfl
          change freeMergeRight { s with mem := m' } (s.heap.startAddress + total Chunk.size pre₁)
            (s.heap.startAddress + total Chunk.size pre₁ + c.size - 16) =
              (s₂, s.heap.startAddress + total Chunk.size pre₁ + c.size + r.size - 16) at hmright
          rw [he] at hmright
          rw [total_cons] at hend
          rw [hmright, if_pos rfl, hnext]
          unfold sizeofHeapFooter
          rw [add64_of_lt (by omega), Nat.sub_add_cancel (by omega)]

end Cases

/-- **A clean `kfree` keeps the heap in order.** -/
theorem HeapOk.kfree (h : HeapOk s live cs) {p n : Nat} (hp : (p, n) ∈ live) (hclean : CleanFree s p) :
    ∃ cs', HeapOk (kfree s p) (live.erase (p, n)) cs' ∧ HeapKept s (kfree s p) cs cs' (fun a => a = p - 16) := by
  obtain ⟨pre, blk, post, rfl, hn, hp⟩ := h.block hp
  obtain ⟨header, hheader⟩ : ∃ header, header = s.heap.startAddress + total Chunk.size pre := ⟨_, rfl⟩
  rw [← hheader] at hp
  subst hp
  obtain ⟨htag, hroom, hright, hlast⟩ := hclean
  rw [Nat.add_sub_cancel] at htag hroom hright hlast ⊢
  rcases h.neighbour header hheader hright with ⟨-, post', size, hpost⟩ | ⟨he, hpost, hfalse⟩
  · obtain ⟨pre₁, c, s₂, -, -, -, -, -, -, hok, hkept, -⟩ := h.kfree_inner hn hpost header hheader htag hroom
    exact ⟨_, hok, hkept⟩
  · exact h.kfree_last hn hpost header hheader htag (hlast he) fun hl hnil => hroom hl (hfalse hnil)

/-! ## Stores and the start -/

/-- A change of the bytes between the tags of a block leaves the rest alone. -/
theorem HeapOk.payload (h : HeapOk s live cs) {b : Nat} {blk : Chunk} (hu : blk.use ≠ none)
    (hb : (b, blk) ∈ placed Chunk.size s.heap.startAddress cs) {m' : Mem}
    (hf : Frame s.mem m' fun x => b + 16 ≤ x ∧ x < b + blk.size - 16) :
    HeapOk { s with mem := m' } live cs ∧ HeapKept s { s with mem := m' } cs cs (fun a => a = b) := by
  have hbounds := placed_bounds Chunk.size hb
  have hfits := h.rep.fits
  have hbelow := h.pageHeap.below
  have hblk := (h.rep.tiles _ hb).size
  have hkept : ∀ a c, (a, c) ∈ placed Chunk.size s.heap.startAddress cs → a ≠ b → ChunkKept s.mem m' a c := by
    intro a c hc hne
    apply ChunkKept.of_frame hf
    intro x h1 h2 hx
    -- a chunk with one of these bytes is the block itself
    have heq := placed_eq_of_overlap Chunk.size hc hb (by simp only; omega) (by simp only; omega)
    exact hne (Prod.mk.inj heq).1
  have hself : ∀ c, (b, c) ∈ placed Chunk.size s.heap.startAddress cs → c = blk := by
    intro c hc
    have hsz := (h.rep.tiles _ hc).size
    have heq := placed_eq_of_overlap Chunk.size hc hb (by simp only at hblk ⊢; omega) (by simp only at hsz ⊢; omega)
    exact (Prod.mk.inj heq).2
  have htiles : Chunks m' s.heap.startAddress cs := by
    rintro ⟨a, c⟩ hc
    have hchunk := h.rep.tiles _ hc
    have hsz := hchunk.size
    refine hchunk.frame hf fun x hx hin => ?_
    by_cases ha : a = b
    · subst ha
      rw [hself c hc] at hx
      simp only at hx hblk
      omega
    · have heq := placed_eq_of_overlap Chunk.size hc hb (by simp only at hx hsz ⊢; omega)
        (by simp only at hx hsz ⊢; omega)
      exact ha (Prod.mk.inj heq).1
  have hcontents : contents m' s.heap.index = contents s.mem s.heap.index := by
    apply contents_congr hf
    intro x hx hin
    have := hbelow x hx
    simp only at hbounds
    omega
  refine ⟨⟨⟨htiles, h.rep.fits, ?_, h.rep.apart, h.rep.top⟩, h.footers, h.live, h.array, h.capacity, h.start, h.stop,
    h.least, h.room⟩, rfl, ?_, ?_⟩
  · rw [hcontents]
    exact h.rep.index
  · intro a c hc _ hF
    exact ⟨hc, hkept a c hc hF⟩
  · intro a c hc
    by_cases ha : a = b
    · subst ha
      obtain ⟨us, vs, hus, -⟩ := (mem_placed_iff Chunk.size).mp hc
      exact Or.inl (h.footers c (by rw [hus]; simp) (by rw [hself c hc]; exact hu))
    · exact Or.inr ⟨a, c, hc, le_refl a, rfl, hkept a c hc ha, Or.inr rfl⟩

theorem HeapOk.store (h : HeapOk s live cs) {p n address : Nat} (hp : (p, n) ∈ live) (h1 : p ≤ address)
    (h2 : address < p + n) (byte : Byte) :
    HeapOk { s with mem := Function.update s.mem address byte } live cs ∧
      HeapKept s { s with mem := Function.update s.mem address byte } cs cs (fun a => a = p - 16) := by
  obtain ⟨b, blk, hn, rfl, hb⟩ := mem_used.mp (h.live.subset hp)
  have hroom := (h.rep.tiles _ hb).room n hn
  rw [Nat.add_sub_cancel]
  apply h.payload (by simp [hn]) hb
  intro x hx
  apply Function.update_of_ne
  simp only at hroom
  omega

theorem heapOk_boot (m : Mem) (frames : Nat → Nat → Byte) :
    HeapOk (mmInitializeHeap m frames) [] [⟨heapSize - 0x101000, none, false⟩] := by
  have hsize := indexSize_boot m frames
  have hcap : (mmInitializeHeap m frames).heap.index.capacity = heapIndexSize := by
    rw [mmInitializeHeap_eq]
    rfl
  have harray : (mmInitializeHeap m frames).heap.index.array = heapAddr := by
    rw [mmInitializeHeap_eq]
    rfl
  have hstart : (mmInitializeHeap m frames).heap.startAddress = heapStart := by
    rw [mmInitializeHeap_eq]
    rfl
  have hend : (mmInitializeHeap m frames).heap.endAddress = heapAddr + heapSize := by
    rw [mmInitializeHeap_eq]
    rfl
  refine ⟨heapRep_boot m frames, ?_, ?_, harray, hcap, hstart, ?_, ?_, ?_⟩
  · intro c hc hu
    rw [List.mem_singleton.mp hc] at hu
    exact absurd rfl hu
  · rw [used_cons, used_nil]
    exact List.Perm.refl _
  · rw [hend]
    decide +kernel
  · rw [hstart, hend]
    decide +kernel
  · rw [hcap, hsize]
    decide

/-! ## Runs in order -/

/-- The calls that keep the heap in order. -/
def CleanOp (r : HeapRun) : HeapOp → Prop
  | .kmalloc _ size => CleanAlloc r.state (size % 2 ^ 32)
  | .kfree address => CleanFree r.state address
  | .store _ _ => True

instance (s : HeapState) : Decidable (CanGrow s) :=
  inferInstanceAs (Decidable (∀ e ∈ contents s.mem s.heap.index, (∀ e' ∈ contents s.mem s.heap.index, e' ≤ e) →
    e + headerSize s.mem e = s.heap.endAddress))

instance (s : HeapState) (n : Nat) : Decidable (CleanAlloc s n) := inferInstanceAs (Decidable (_ ∨ _))

instance (s : HeapState) (header : Nat) : Decidable (LeftTag s header) := inferInstanceAs (Decidable (_ → _))

instance (s : HeapState) (p : Nat) : Decidable (CleanFree s p) :=
  decidable_of_iff (LeftTag s (p - 16) ∧ (mergesLeft s.mem (p - 16) = false →
      rightIsHole s.mem (rightHeader s.mem (p - 16)) = false → s.heap.index.size < s.heap.index.capacity) ∧
    (rightHeader s.mem (p - 16) = s.heap.endAddress → rightIsHole s.mem s.heap.endAddress = false) ∧
    (mergedEnd s.mem (p - 16) = s.heap.endAddress →
      mergedHeader s.mem (p - 16) + 32 ≤ s.heap.startAddress + heapMinSize))
    ⟨fun ⟨h1, h2, h3, h4⟩ => ⟨h1, h2, h3, h4⟩, fun h => ⟨h.left, h.room, h.right, h.last⟩⟩

instance (r : HeapRun) : (op : HeapOp) → Decidable (CleanOp r op)
  | .kmalloc _ size => inferInstanceAs (Decidable (CleanAlloc r.state (size % 2 ^ 32)))
  | .kfree address => inferInstanceAs (Decidable (CleanFree r.state address))
  | .store _ _ => .isTrue trivial

theorem heapStep_kfree {r r' : HeapRun} {address : Nat} (h : heapStep r (.kfree address) = some r') :
    ∃ n, (address, n) ∈ r.live ∧ r' = ⟨kfree r.state address, r.live.erase (address, n)⟩ := by
  obtain ⟨⟨p, n⟩, hfind, rfl⟩ := Option.map_eq_some_iff.mp h
  have hmem := List.mem_of_find?_eq_some hfind
  have hp : p = address := by simpa using List.find?_some hfind
  subst hp
  exact ⟨n, hmem, rfl⟩

theorem heapStep_store {r r' : HeapRun} {address : Nat} {byte : Byte}
    (h : heapStep r (.store address byte) = some r') :
    ∃ p n, (p, n) ∈ r.live ∧ p ≤ address ∧ address < p + n ∧
      r' = { r with state := { r.state with mem := Function.update r.state.mem address byte } } := by
  rw [heapStep] at h
  split_ifs at h with hq
  obtain ⟨⟨p, n⟩, hmem, h1, h2⟩ := hq
  exact ⟨p, n, hmem, h1, h2, (Option.some.inj h).symm⟩

theorem heapStep_ok {r r' : HeapRun} {op : HeapOp} (h : ∃ cs, HeapOk r.state r.live cs) (hclean : CleanOp r op)
    (hstep : heapStep r op = some r') : ∃ cs, HeapOk r'.state r'.live cs := by
  obtain ⟨cs, h⟩ := h
  cases op with
  | kmalloc fuel size =>
      obtain ⟨⟨p, s'⟩, hcall, rfl⟩ := Option.map_eq_some_iff.mp hstep
      obtain ⟨s₁, cs₁, cs', -, -, hok, -⟩ := h.kmalloc (Nat.mod_lt _ (by decide)) hclean hcall
      exact ⟨cs', hok⟩
  | kfree address =>
      obtain ⟨n, hmem, rfl⟩ := heapStep_kfree hstep
      obtain ⟨cs', hok, -⟩ := h.kfree hmem hclean
      exact ⟨cs', hok⟩
  | store address byte =>
      obtain ⟨p, n, hmem, h1, h2, rfl⟩ := heapStep_store hstep
      exact ⟨cs, (h.store hmem h1 h2 byte).1⟩

/-- **The heap after a run of clean calls.** -/
theorem heapOk_run {m : Mem} {frames : Nat → Nat → Byte} {ops : List HeapOp} {r : HeapRun}
    (hclean : StepsMeet heapStep CleanOp (HeapRun.boot m frames) ops)
    (hrun : run heapStep (HeapRun.boot m frames) ops = some r) : ∃ cs, HeapOk r.state r.live cs :=
  run_invariant (I := fun r => ∃ cs, HeapOk r.state r.live cs) (fun _ _ _ h hc hs => heapStep_ok h hc hs)
    ⟨_, heapOk_boot m frames⟩ hclean hrun

end Gewodsys.Mem
