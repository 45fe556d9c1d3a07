import Gewodsys.Machine.Tiling
import Gewodsys.Mem.Heap

/-!
# The chunks of the heap

* `Chunk` : a chunk as the code means it: its size, what it is used for, and whether its footer is right;
* `ChunkAt m a c` : the tags of `c` in memory; `Chunks m a cs` : the chunks `cs` from `a` on;
* `holes`, `used` : the headers of the holes and the payloads of the blocks;
* `HeapRep s cs` : the chunks tile the heap and the index lists the holes;
* `Chunks.replace` : writing other chunks over some of them;
* `heapRep_boot` : the kernel heap after `MmInitializeHeap`.
-/

namespace Gewodsys.Mem
open Gewodsys.Machine Gewodsys.Lib

/-! ## Tags -/

theorem frame_writeHeader (m : Mem) (h isHole size : Nat) :
    Frame m (writeHeader m h isHole size) fun x => h ≤ x ∧ x < h + 16 := by
  unfold writeHeader setHeaderSize setHeaderIsHole
  have h1 : Frame m (m.write32 h heapMagic) fun x => h ≤ x ∧ x < h + 16 :=
    (Frame.write m h 4 _).mono fun x hx => by omega
  have h2 : Frame (m.write32 h heapMagic) ((m.write32 h heapMagic).write8 (h + 4) isHole)
      fun x => h ≤ x ∧ x < h + 16 := (Frame.write _ (h + 4) 1 isHole).mono fun x hx => by omega
  exact (h1.trans h2).trans ((Frame.write _ (h + 8) 8 size).mono fun x hx => by omega)

theorem frame_writeFooter (m : Mem) (f h : Nat) :
    Frame m (writeFooter m f h) fun x => f ≤ x ∧ x < f + 16 := by
  unfold writeFooter setFooterHeader
  have h1 : Frame m (m.write32 f heapMagic) fun x => f ≤ x ∧ x < f + 16 :=
    (Frame.write m f 4 _).mono fun x hx => by omega
  exact h1.trans ((Frame.write _ (f + 8) 8 h).mono fun x hx => by omega)

theorem frame_setHeaderSize (m : Mem) (h size : Nat) :
    Frame m (setHeaderSize m h size) fun x => h + 8 ≤ x ∧ x < h + 16 :=
  (Frame.write m (h + 8) 8 size).mono fun x hx => by omega

theorem frame_setHeaderIsHole (m : Mem) (h isHole : Nat) :
    Frame m (setHeaderIsHole m h isHole) fun x => x = h + 4 :=
  (Frame.write m (h + 4) 1 isHole).mono fun x hx => by omega

theorem frame_setFooterHeader (m : Mem) (f h : Nat) :
    Frame m (setFooterHeader m f h) fun x => f + 8 ≤ x ∧ x < f + 16 :=
  (Frame.write m (f + 8) 8 h).mono fun x hx => by omega

/-- A header with its three fields. -/
structure HeaderAt (m : Mem) (a isHole size : Nat) : Prop where
  magic : headerMagic m a = heapMagic
  isHole : headerIsHole m a = isHole
  size : headerSize m a = size

/-- A footer that points to `a`. -/
structure FooterAt (m : Mem) (f a : Nat) : Prop where
  magic : footerMagic m f = heapMagic
  header : footerHeader m f = a

theorem headerAt_writeHeader (m : Mem) {a isHole size : Nat} (hi : isHole < 256) (hs : size < 2 ^ 64) :
    HeaderAt (writeHeader m a isHole size) a isHole size := by
  unfold writeHeader setHeaderSize setHeaderIsHole
  refine ⟨?_, ?_, ?_⟩
  · unfold headerMagic Mem.read32 Mem.write64 Mem.write8 Mem.write32
    rw [Mem.read_write_of_disjoint _ _ (by omega), Mem.read_write_of_disjoint _ _ (by omega), Mem.read_write]
    rfl
  · unfold headerIsHole Mem.read8 Mem.write64 Mem.write8
    rw [Mem.read_write_of_disjoint _ _ (by omega), Mem.read_write]
    exact Nat.mod_eq_of_lt hi
  · unfold headerSize Mem.read64 Mem.write64
    rw [Mem.read_write]
    exact Nat.mod_eq_of_lt hs

theorem footerAt_writeFooter (m : Mem) {f a : Nat} (ha : a < 2 ^ 64) : FooterAt (writeFooter m f a) f a := by
  unfold writeFooter setFooterHeader
  refine ⟨?_, ?_⟩
  · unfold footerMagic Mem.read32 Mem.write64 Mem.write32
    rw [Mem.read_write_of_disjoint _ _ (by omega), Mem.read_write]
    rfl
  · unfold footerHeader Mem.read64 Mem.write64
    rw [Mem.read_write]
    exact Nat.mod_eq_of_lt ha

theorem HeaderAt.frame {m m' : Mem} {W : Nat → Prop} {a isHole size : Nat} (h : HeaderAt m a isHole size)
    (hf : Frame m m' W) (hW : ∀ x, a ≤ x → x < a + 16 → ¬ W x) : HeaderAt m' a isHole size := by
  refine ⟨?_, ?_, ?_⟩
  · rw [← h.magic]
    exact hf.read fun x h1 h2 => hW x h1 (by omega)
  · rw [← h.isHole]
    exact hf.read fun x h1 h2 => hW x (by omega) (by omega)
  · rw [← h.size]
    exact hf.read fun x h1 h2 => hW x (by omega) (by omega)

theorem FooterAt.frame {m m' : Mem} {W : Nat → Prop} {f a : Nat} (h : FooterAt m f a) (hf : Frame m m' W)
    (hW : ∀ x, f ≤ x → x < f + 16 → ¬ W x) : FooterAt m' f a := by
  refine ⟨?_, ?_⟩
  · rw [← h.magic]
    exact hf.read fun x h1 h2 => hW x h1 (by omega)
  · rw [← h.header]
    exact hf.read fun x h1 h2 => hW x (by omega) (by omega)

theorem headerSize_setHeaderSize (m : Mem) (h : Nat) {size : Nat} (hs : size < 2 ^ 64) :
    headerSize (setHeaderSize m h size) h = size := by
  unfold headerSize setHeaderSize Mem.read64 Mem.write64
  rw [Mem.read_write]
  exact Nat.mod_eq_of_lt hs

theorem HeaderAt.setSize {m : Mem} {a isHole size : Nat} (h : HeaderAt m a isHole size) (size' : Nat)
    (hs : size' < 2 ^ 64) : HeaderAt (setHeaderSize m a size') a isHole size' := by
  refine ⟨?_, ?_, ?_⟩
  · rw [← h.magic]
    exact (frame_setHeaderSize m a size').read fun x h1 h2 => by omega
  · rw [← h.isHole]
    exact (frame_setHeaderSize m a size').read fun x h1 h2 => by omega
  · exact headerSize_setHeaderSize m a hs

theorem HeaderAt.setIsHole {m : Mem} {a isHole size : Nat} (h : HeaderAt m a isHole size) {isHole' : Nat}
    (hi : isHole' < 256) : HeaderAt (setHeaderIsHole m a isHole') a isHole' size := by
  refine ⟨?_, ?_, ?_⟩
  · rw [← h.magic]
    exact (frame_setHeaderIsHole m a isHole').read fun x h1 h2 => by omega
  · unfold headerIsHole setHeaderIsHole Mem.read8 Mem.write8
    rw [Mem.read_write]
    exact Nat.mod_eq_of_lt hi
  · rw [← h.size]
    exact (frame_setHeaderIsHole m a isHole').read fun x h1 h2 => by omega

theorem FooterAt.setHeader {m : Mem} {f a : Nat} (h : FooterAt m f a) {a' : Nat} (ha : a' < 2 ^ 64) :
    FooterAt (setFooterHeader m f a') f a' := by
  refine ⟨?_, ?_⟩
  · rw [← h.magic]
    exact (frame_setFooterHeader m f a').read fun x h1 h2 => by omega
  · unfold footerHeader setFooterHeader Mem.read64 Mem.write64
    rw [Mem.read_write]
    exact Nat.mod_eq_of_lt ha

/-! ## Chunks -/

/-- A chunk: `use` is the requested size of a block, `none` for a hole. -/
structure Chunk where
  size : Nat
  use : Option Nat
  footer : Bool
deriving DecidableEq, Repr

def Chunk.isHole (c : Chunk) : Nat := if c.use = none then 1 else 0

/-- The chunk `c` at `a`: a header, room for what was requested, and the footer where `c` has one. -/
structure ChunkAt (m : Mem) (a : Nat) (c : Chunk) : Prop where
  header : HeaderAt m a c.isHole c.size
  footer : c.footer = true → FooterAt m (a + c.size - 16) a
  size : 32 ≤ c.size
  room : ∀ n, c.use = some n → n + 32 ≤ c.size

theorem ChunkAt.frame {m m' : Mem} {W : Nat → Prop} {a : Nat} {c : Chunk} (h : ChunkAt m a c) (hf : Frame m m' W)
    (hW : ∀ x, (a ≤ x ∧ x < a + 16) ∨ (a + c.size - 16 ≤ x ∧ x < a + c.size) → ¬ W x) : ChunkAt m' a c := by
  have hsize := h.size
  refine ⟨h.header.frame hf fun x h1 h2 => hW x (Or.inl ⟨h1, h2⟩), ?_, h.size, h.room⟩
  intro hfoot
  exact (h.footer hfoot).frame hf fun x h1 h2 => hW x (Or.inr ⟨h1, by omega⟩)

/-- The chunks `cs` lie from `a` on. -/
def Chunks (m : Mem) (a : Nat) (cs : List Chunk) : Prop := ∀ x ∈ placed Chunk.size a cs, ChunkAt m x.1 x.2

/-- The headers of the holes. -/
def holes (a : Nat) (cs : List Chunk) : List Nat :=
  (placed Chunk.size a cs).filterMap fun x => if x.2.use = none then some x.1 else none

/-- The payload addresses of the blocks, with the sizes that were requested. -/
def used (a : Nat) (cs : List Chunk) : List (Nat × Nat) :=
  (placed Chunk.size a cs).filterMap fun x => x.2.use.map fun n => (x.1 + 16, n)

theorem chunks_append {m : Mem} {a : Nat} {cs ds : List Chunk} :
    Chunks m a (cs ++ ds) ↔ Chunks m a cs ∧ Chunks m (a + total Chunk.size cs) ds := by
  unfold Chunks
  rw [placed_append]
  exact List.forall_mem_append

theorem chunks_cons {m : Mem} {a : Nat} {c : Chunk} {cs : List Chunk} :
    Chunks m a (c :: cs) ↔ ChunkAt m a c ∧ Chunks m (a + c.size) cs := by
  unfold Chunks
  rw [placed_cons]
  exact List.forall_mem_cons

@[simp] theorem chunks_nil (m : Mem) (a : Nat) : Chunks m a [] := by
  intro x hx
  cases hx

theorem holes_append (a : Nat) (cs ds : List Chunk) :
    holes a (cs ++ ds) = holes a cs ++ holes (a + total Chunk.size cs) ds := by
  rw [holes, placed_append, List.filterMap_append]
  rfl

@[simp] theorem holes_nil (a : Nat) : holes a [] = [] := rfl

theorem holes_cons (a : Nat) (c : Chunk) (cs : List Chunk) :
    holes a (c :: cs) = (if c.use = none then [a] else []) ++ holes (a + c.size) cs := by
  rw [holes, placed_cons, List.filterMap_cons]
  split_ifs <;> rfl

theorem used_append (a : Nat) (cs ds : List Chunk) :
    used a (cs ++ ds) = used a cs ++ used (a + total Chunk.size cs) ds := by
  rw [used, placed_append, List.filterMap_append]
  rfl

@[simp] theorem used_nil (a : Nat) : used a [] = [] := rfl

theorem used_cons (a : Nat) (c : Chunk) (cs : List Chunk) :
    used a (c :: cs) = (c.use.map fun n => (a + 16, n)).toList ++ used (a + c.size) cs := by
  rw [used, placed_cons, List.filterMap_cons]
  cases c.use <;> rfl

theorem mem_holes {a h : Nat} {cs : List Chunk} :
    h ∈ holes a cs ↔ ∃ c, c.use = none ∧ (h, c) ∈ placed Chunk.size a cs := by
  unfold holes
  rw [List.mem_filterMap]
  constructor
  · rintro ⟨⟨b, c⟩, hx, he⟩
    split_ifs at he with hc
    rw [← Option.some.inj he]
    exact ⟨c, hc, hx⟩
  · rintro ⟨c, hc, hx⟩
    exact ⟨(h, c), hx, if_pos hc⟩

theorem mem_used {a p n : Nat} {cs : List Chunk} :
    (p, n) ∈ used a cs ↔ ∃ b c, c.use = some n ∧ p = b + 16 ∧ (b, c) ∈ placed Chunk.size a cs := by
  unfold used
  rw [List.mem_filterMap]
  constructor
  · rintro ⟨⟨b, c⟩, hx, he⟩
    obtain ⟨k, hk, he⟩ := Option.map_eq_some_iff.mp he
    simp only [Prod.mk.injEq] at he
    exact ⟨b, c, by rw [hk, he.2], he.1.symm, hx⟩
  · rintro ⟨b, c, hc, rfl, hx⟩
    exact ⟨(b, c), hx, by simp [hc]⟩

theorem Chunks.frame {m m' : Mem} {W : Nat → Prop} {a : Nat} {cs : List Chunk} (h : Chunks m a cs) (hf : Frame m m' W)
    (hW : ∀ x, a ≤ x → x < a + total Chunk.size cs → ¬ W x) : Chunks m' a cs := by
  intro x hx
  have hb := placed_bounds Chunk.size hx
  have hc := h x hx
  have hs := hc.size
  refine hc.frame hf fun y hy => hW y ?_ ?_
  · omega
  · omega

theorem Chunks.replace {m m' : Mem} {W : Nat → Prop} {a : Nat} {pre mid post : List Chunk}
    (h : Chunks m a (pre ++ mid ++ post)) (mid' : List Chunk) (hf : Frame m m' W)
    (hW : ∀ x, W x → (a + total Chunk.size pre ≤ x ∧ x < a + total Chunk.size pre + total Chunk.size mid) ∨ x < a ∨
      a + total Chunk.size (pre ++ mid ++ post) ≤ x)
    (hmid : Chunks m' (a + total Chunk.size pre) mid') (ht : total Chunk.size mid' = total Chunk.size mid) :
    Chunks m' a (pre ++ mid' ++ post) := by
  rw [chunks_append, chunks_append] at h ⊢
  simp only [total_append] at h hW ⊢
  refine ⟨⟨h.1.1.frame hf ?_, hmid⟩, ?_⟩
  · intro x h1 h2 hx
    have := hW x hx
    omega
  · rw [ht]
    refine h.2.frame hf ?_
    intro x h1 h2 hx
    have := hW x hx
    omega

/-! ## The representation -/

/-- The chunks `cs` tile the heap and the index lists the holes. -/
structure HeapRep (s : HeapState) (cs : List Chunk) : Prop where
  tiles : Chunks s.mem s.heap.startAddress cs
  fits : s.heap.startAddress + total Chunk.size cs = s.heap.endAddress
  index : (contents s.mem s.heap.index).Perm (holes s.heap.startAddress cs)
  apart : ∀ x, InSlots s.heap.index s.heap.index.size x → x < s.heap.startAddress ∨ s.heap.endAddress ≤ x
  top : s.heap.endAddress < 2 ^ 64

theorem HeapRep.hole {s : HeapState} {cs : List Chunk} (h : HeapRep s cs) {pos : Nat}
    (hpos : pos ∈ contents s.mem s.heap.index) :
    ∃ pre c post, cs = pre ++ c :: post ∧ c.use = none ∧ pos = s.heap.startAddress + total Chunk.size pre := by
  obtain ⟨c, hc, hmem⟩ := mem_holes.mp (h.index.subset hpos)
  obtain ⟨pre, post, hcs, hp⟩ := (mem_placed_iff Chunk.size).mp hmem
  exact ⟨pre, c, post, hcs, hc, hp⟩

theorem HeapRep.hole_mem {s : HeapState} {pre post : List Chunk} {c : Chunk} (h : HeapRep s (pre ++ c :: post))
    (hc : c.use = none) : s.heap.startAddress + total Chunk.size pre ∈ contents s.mem s.heap.index := by
  refine h.index.symm.subset (mem_holes.mpr ⟨c, hc, ?_⟩)
  exact (mem_placed_iff Chunk.size).mpr ⟨pre, post, rfl, rfl⟩

theorem HeapRep.chunk {s : HeapState} {pre post : List Chunk} {c : Chunk} (h : HeapRep s (pre ++ c :: post)) :
    ChunkAt s.mem (s.heap.startAddress + total Chunk.size pre) c ∧
      s.heap.startAddress + total Chunk.size pre + c.size + total Chunk.size post = s.heap.endAddress := by
  have hfits := h.fits
  rw [total_append, total_cons] at hfits
  exact ⟨(chunks_cons.mp (chunks_append.mp h.tiles).2).1, by omega⟩

/-! ## The index -/

@[simp] theorem arrayInsert_startAddress (s : HeapState) (i : Nat) :
    (s.arrayInsert i).heap.startAddress = s.heap.startAddress := rfl

@[simp] theorem arrayInsert_endAddress (s : HeapState) (i : Nat) :
    (s.arrayInsert i).heap.endAddress = s.heap.endAddress := rfl

@[simp] theorem arrayRemove_startAddress (s : HeapState) (i : Nat) :
    (s.arrayRemove i).heap.startAddress = s.heap.startAddress := rfl

@[simp] theorem arrayRemove_endAddress (s : HeapState) (i : Nat) :
    (s.arrayRemove i).heap.endAddress = s.heap.endAddress := rfl

theorem arrayGet_mem_contents (m : Mem) (a : OrderedArray) {i : Nat} (hi : i < a.size) :
    arrayGet m a i ∈ contents m a := by
  unfold contents
  exact List.mem_map.mpr ⟨i, List.mem_range.mpr hi, rfl⟩

theorem perm_arrayRemove (m : Mem) (a : OrderedArray) {i : Nat} (hi : i < a.size) :
    (contents m a).Perm (arrayGet m a i :: contents (arrayRemove m a i).1 (arrayRemove m a i).2) := by
  rw [contents_arrayRemove m a hi]
  have hlen : i < (contents m a).length := by rwa [length_contents]
  have hget : (contents m a)[i] = arrayGet m a i := by
    simp only [contents, List.getElem_map, List.getElem_range]
  rw [← hget]
  exact (List.getElem_cons_eraseIdx_perm hlen).symm

/-! ## The search -/

theorem findHole_eq_some {s : HeapState} {size : Nat} {n i iterator : Nat}
    (h : findHole s size 0 n i = some iterator) :
    i ≤ iterator ∧ iterator < i + n ∧ size ≤ headerSize s.mem (arrayGet s.mem s.heap.index iterator) ∧
      ∀ j, i ≤ j → j < iterator → headerSize s.mem (arrayGet s.mem s.heap.index j) < size := by
  induction n generalizing i with
  | zero => cases h
  | succ n ih =>
      rw [findHole] at h
      by_cases hfit : holeFits s.mem (arrayGet s.mem s.heap.index i) size 0 = true
      · rw [if_pos hfit] at h
        rw [← Option.some.inj h]
        refine ⟨le_refl i, by omega, ?_, fun j h1 h2 => by omega⟩
        simpa [holeFits] using hfit
      · rw [if_neg hfit] at h
        obtain ⟨h1, h2, h3, h4⟩ := ih h
        refine ⟨by omega, by omega, h3, fun j hj1 hj2 => ?_⟩
        by_cases hj : j = i
        · rw [hj]
          simpa [holeFits] using hfit
        · exact h4 j (by omega) hj2

theorem findHole_eq_none {s : HeapState} {size : Nat} {n i : Nat} (h : findHole s size 0 n i = none) :
    ∀ j, i ≤ j → j < i + n → headerSize s.mem (arrayGet s.mem s.heap.index j) < size := by
  induction n generalizing i with
  | zero => intro j h1 h2; omega
  | succ n ih =>
      rw [findHole] at h
      by_cases hfit : holeFits s.mem (arrayGet s.mem s.heap.index i) size 0 = true
      · rw [if_pos hfit] at h
        cases h
      · rw [if_neg hfit] at h
        intro j h1 h2
        by_cases hj : j = i
        · rw [hj]
          simpa [holeFits] using hfit
        · exact ih h j (by omega) (by omega)

/-- **First fit.** The hole that is found, and the smaller ones before it. -/
theorem heapFindSmallestHole_eq_some {s : HeapState} {size iterator : Nat}
    (h : heapFindSmallestHole s size 0 = some iterator) :
    iterator < s.heap.index.size ∧ size ≤ headerSize s.mem (arrayGet s.mem s.heap.index iterator) ∧
      ∀ j < iterator, headerSize s.mem (arrayGet s.mem s.heap.index j) < size := by
  obtain ⟨-, h2, h3, h4⟩ := findHole_eq_some h
  exact ⟨by omega, h3, fun j hj => h4 j (Nat.zero_le j) hj⟩

theorem heapFindSmallestHole_eq_none {s : HeapState} {size : Nat} (h : heapFindSmallestHole s size 0 = none) :
    ∀ j < s.heap.index.size, headerSize s.mem (arrayGet s.mem s.heap.index j) < size :=
  fun j hj => findHole_eq_none h j (Nat.zero_le j) (by omega)

/-! ## `MmInitializeHeap` -/

/-- `start_address` of the kernel heap. -/
def heapStart : Nat := heapAddr + 0x101000

theorem mmInitializeHeap_eq (m : Mem) (frames : Nat → Nat → Byte) :
    mmInitializeHeap m frames = HeapState.arrayInsert
      ⟨writeHeader (rtZeroMemory m heapAddr (heapIndexSize * 8)) heapStart 1 (heapSize - 0x101000),
        ⟨⟨heapAddr, 0, heapIndexSize, headerPredicate⟩, heapStart, heapAddr + heapSize, heapAddr + 0x40000000, 0, 0⟩,
        frames, 0⟩ heapStart := by
  have h1 : add64 heapAddr (8 * heapIndexSize) = heapAddr + 0x100000 := by decide +kernel
  have h2 : add64 (heapAddr + 0x100000 &&& 0xFFFFFFFFFFFFF000) 0x1000 = heapStart := by decide +kernel
  have h3 : sub64 (heapAddr + heapSize) heapStart = heapSize - 0x101000 := by decide +kernel
  unfold mmInitializeHeap heapCreate arrayCreate
  simp only [h1]
  rw [if_pos (by decide +kernel), h2, h3]

/-- The heap starts as one hole, without a footer. -/
theorem heapRep_boot (m : Mem) (frames : Nat → Nat → Byte) :
    HeapRep (mmInitializeHeap m frames) [⟨heapSize - 0x101000, none, false⟩] := by
  have hstart : heapStart = 0x100000101000 := by decide +kernel
  have haddr : heapAddr = 0x100000000000 := rfl
  have hsize : heapSize = 0x10000000 := by decide +kernel
  rw [mmInitializeHeap_eq]
  set m₁ := writeHeader (rtZeroMemory m heapAddr (heapIndexSize * 8)) heapStart 1 (heapSize - 0x101000)
  set a : OrderedArray := ⟨heapAddr, 0, heapIndexSize, headerPredicate⟩
  have hperm := perm_arrayInsert m₁ a (show heapStart < 2 ^ 64 by decide +kernel) (by decide)
  have hhead : HeaderAt m₁ heapStart 1 (heapSize - 0x101000) :=
    headerAt_writeHeader _ (by decide) (by decide +kernel)
  refine ⟨?_, ?_, ?_, ?_, ?_⟩
  · refine chunks_cons.mpr ⟨⟨?_, ?_, ?_, ?_⟩, chunks_nil _ _⟩
    · refine hhead.frame (frame_arrayInsert m₁ a heapStart) ?_
      intro x h1 h2 hx
      unfold InSlots at hx
      change heapAddr ≤ x ∧ x < heapAddr + 8 * (0 + 1) at hx
      omega
    · intro hf
      cases hf
    · change 32 ≤ heapSize - 0x101000
      omega
    · intro n hn
      cases hn
  · change heapStart + (heapSize - 0x101000 + 0) = heapAddr + heapSize
    omega
  · exact hperm
  · intro x hx
    have hlen : (Lib.arrayInsert m₁ a heapStart).2.size = 1 := arrayInsert_size m₁ a heapStart (by decide)
    change heapAddr ≤ x ∧ x < heapAddr + 8 * (Lib.arrayInsert m₁ a heapStart).2.size at hx
    change x < heapStart ∨ _
    rw [hlen] at hx
    omega
  · change heapAddr + heapSize < 2 ^ 64
    omega

theorem contents_boot (m : Mem) (frames : Nat → Nat → Byte) :
    contents (mmInitializeHeap m frames).mem (mmInitializeHeap m frames).heap.index = [heapStart] := by
  have hperm := (heapRep_boot m frames).index
  rw [holes_cons, if_pos rfl, holes_nil, List.append_nil] at hperm
  rw [List.perm_singleton.mp hperm, mmInitializeHeap_eq]
  rfl

theorem indexSize_boot (m : Mem) (frames : Nat → Nat → Byte) :
    (mmInitializeHeap m frames).heap.index.size = 1 := by
  rw [← length_contents (mmInitializeHeap m frames).mem, contents_boot]
  rfl

theorem predicate_boot (m : Mem) (frames : Nat → Nat → Byte) :
    (mmInitializeHeap m frames).heap.index.predicate = headerPredicate := by
  rw [mmInitializeHeap_eq]
  simp only [HeapState.arrayInsert, Lib.arrayInsert]

theorem find_boot (m : Mem) (frames : Nat → Nat → Byte) {size : Nat} (h : size ≤ heapSize - 0x101000) :
    heapFindSmallestHole (mmInitializeHeap m frames) size 0 = some 0 := by
  have hget : arrayGet (mmInitializeHeap m frames).mem (mmInitializeHeap m frames).heap.index 0 = heapStart := by
    have hmem := arrayGet_mem_contents (mmInitializeHeap m frames).mem (mmInitializeHeap m frames).heap.index
      (i := 0) (by rw [indexSize_boot]; exact Nat.one_pos)
    rw [contents_boot] at hmem
    exact List.mem_singleton.mp hmem
  have hchunk := (chunks_cons.mp (heapRep_boot m frames).tiles).1
  have hstart : (mmInitializeHeap m frames).heap.startAddress = heapStart := by rw [mmInitializeHeap_eq]; rfl
  rw [hstart] at hchunk
  unfold heapFindSmallestHole
  rw [indexSize_boot, findHole, hget, if_pos]
  simpa [holeFits, hchunk.header.size] using h

end Gewodsys.Mem
