import Gewodsys.Lib.Array
import Gewodsys.Mem.Pmm

/-!
# The kernel heap (`mem/heap.c`)

The heap is a range of virtual memory cut into chunks with a header at the start and a footer at the end; the index is an
ordered array of the headers of the holes, in the memory before the range. `HeapState` is the memory with the record
`Heap`; the frames that `MmRequestPage` will supply are `frames 0`, `frames 1`, .. with arbitrary contents, and mapping a
page puts the next of them in its place.

* `heapExpand`, `heapContract`, `heapFindSmallestHole`, `heapCreate`;
* `heapAllocate` : `heapGrow` until a hole is found, then `heapCarve`;
* `heapFree` : `freeMergeLeft`, `freeMergeRight`, `freeShrink`, and the insertion into the index;
* `kmalloc`, `kfree`.
-/

namespace Gewodsys.Mem
open Gewodsys.Machine Gewodsys.Lib

def heapAddr : Nat := 0x0000100000000000
def heapSize : Nat := pageSize * 65536
def heapMinSize : Nat := 0x70000
def heapIndexSize : Nat := 0x20000
def heapMagic : Nat := 0x123890AB

/-! ## Headers and footers -/

def sizeofHeapHeader : Nat := 16
def sizeofHeapFooter : Nat := 16

/-- The fields of `HeapHeader` and `HeapFooter` at `h`. -/
def headerMagic (m : Mem) (h : Nat) : Nat := m.read32 h
def headerIsHole (m : Mem) (h : Nat) : Nat := m.read8 (h + 4)
def headerSize (m : Mem) (h : Nat) : Nat := m.read64 (h + 8)
def footerMagic (m : Mem) (f : Nat) : Nat := m.read32 f
def footerHeader (m : Mem) (f : Nat) : Nat := m.read64 (f + 8)

def setHeaderSize (m : Mem) (h size : Nat) : Mem := m.write64 (h + 8) size
def setHeaderIsHole (m : Mem) (h isHole : Nat) : Mem := m.write8 (h + 4) isHole
def setFooterHeader (m : Mem) (f h : Nat) : Mem := m.write64 (f + 8) h

/-- The three assignments to a header, and the two to a footer. -/
def writeHeader (m : Mem) (h isHole size : Nat) : Mem := setHeaderSize (setHeaderIsHole (m.write32 h heapMagic) h isHole) h size
def writeFooter (m : Mem) (f h : Nat) : Mem := setFooterHeader (m.write32 f heapMagic) f h

/-! ## State -/

structure Heap where
  index : OrderedArray
  startAddress : Nat
  endAddress : Nat
  maxAddress : Nat
  supervisor : Nat
  readonly : Nat

structure HeapState where
  mem : Mem
  heap : Heap
  frames : Nat → Nat → Byte
  /-- The number of frames taken. -/
  mapped : Nat

def HeapState.arrayInsert (s : HeapState) (item : Nat) : HeapState :=
  let r := Lib.arrayInsert s.mem s.heap.index item
  { s with mem := r.1, heap := { s.heap with index := r.2 } }

def HeapState.arrayRemove (s : HeapState) (index : Nat) : HeapState :=
  let r := Lib.arrayRemove s.mem s.heap.index index
  { s with mem := r.1, heap := { s.heap with index := r.2 } }

def HeapState.setEnd (s : HeapState) (a : Nat) : HeapState := { s with heap := { s.heap with endAddress := a } }

/-! ## Growing and shrinking -/

/-- `MmMapMemory(a, MmRequestPage())`: the page of `a` becomes the next frame. -/
def mapNewPage (s : HeapState) (a : Nat) : HeapState :=
  { s with
    mem := fun x => if a / 4096 * 4096 ≤ x ∧ x < a / 4096 * 4096 + 4096
      then s.frames s.mapped (x - a / 4096 * 4096) else s.mem x
    mapped := s.mapped + 1 }

/-- The loop of `HeapExpand`, at most `n` pages. -/
def heapExpandLoop (size : Nat) : Nat → Nat → HeapState → HeapState
  | 0, _, s => s
  | n + 1, offset, s =>
      if offset < size then
        heapExpandLoop size n (add64 offset pageSize) (mapNewPage s (add64 s.heap.startAddress offset))
      else s

/-- The rounding of `HeapExpand`, with a mask of 32 bits. -/
def expandSize (size : Nat) : Nat := if size &&& 0xFFFFF000 ≠ 0 then (size &&& 0xFFFFF000) + 0x1000 else size

def heapExpand (s : HeapState) (size : Nat) : HeapState :=
  let size := expandSize size
  let oldSize := sub64 s.heap.endAddress s.heap.startAddress
  (heapExpandLoop size size oldSize s).setEnd (add64 s.heap.startAddress size)

/-- The size `HeapContract` goes down to; its mask keeps one bit. -/
def contractSize (size : Nat) : Nat :=
  let size := if size &&& 0x1000 ≠ 0 then (size &&& 0x1000) + 0x1000 else size
  if size < heapMinSize then heapMinSize else size

/-- Bit 12 decides: with it the size becomes two pages, without it the size stays. -/
theorem contractSize_eq (size : Nat) :
    contractSize size = if size / 0x1000 % 2 = 1 then heapMinSize else max size heapMinSize := by
  have hmask : size &&& 0x1000 = size % 0x2000 / 0x1000 * 0x1000 := land_mask size 12 13 (by decide)
  have hmin : heapMinSize = 0x70000 := rfl
  unfold contractSize
  rw [hmask]
  split_ifs with h1 h2 h2 <;> simp only <;> split_ifs <;> omega

/-- `HeapContract`; its loop only counts a local variable down. -/
def heapContract (s : HeapState) (size : Nat) : Nat × HeapState :=
  (contractSize size, s.setEnd (add64 s.heap.startAddress (contractSize size)))

/-! ## Holes -/

/-- `(int64_t) x`. -/
def toInt64 (x : Nat) : Int := if x < 2 ^ 63 then x else x - 2 ^ 64

/-- The test of `HeapFindSmallestHole` on one header. -/
def holeFits (m : Mem) (header size : Nat) (pageAlign : Int) : Bool :=
  if pageAlign > 0 then
    let offset : Int := if (header + sizeofHeapHeader) &&& 0xFFFFF000 ≠ 0
      then pageSize - (header + sizeofHeapHeader) % pageSize else 0
    decide (toInt64 (headerSize m header) - offset ≥ toInt64 size)
  else decide (headerSize m header ≥ size)

/-- The search from `iterator` on over the `n` holes that are left. -/
def findHole (s : HeapState) (size : Nat) (pageAlign : Int) : Nat → Nat → Option Nat
  | 0, _ => none
  | n + 1, iterator =>
      if holeFits s.mem (arrayGet s.mem s.heap.index iterator) size pageAlign then some iterator
      else findHole s size pageAlign n (iterator + 1)

/-- `none` for -1. -/
def heapFindSmallestHole (s : HeapState) (size : Nat) (pageAlign : Int) : Option Nat :=
  findHole s size pageAlign s.heap.index.size 0

def headerPredicate (m : Mem) (a b : Nat) : Bool := decide (headerSize m a < headerSize m b)

/-! ## `HeapCreate` -/

def heapCreate (m : Mem) (frames : Nat → Nat → Byte) (start endAddress maxAddress supervisor readonly : Nat) :
    HeapState :=
  let r := arrayCreate m start heapIndexSize headerPredicate
  let start := add64 start (8 * heapIndexSize)
  let start := if start &&& 0xFFFFFFFFFFFFF000 ≠ 0 then add64 (start &&& 0xFFFFFFFFFFFFF000) 0x1000 else start
  let s : HeapState := ⟨writeHeader r.1 start 1 (sub64 endAddress start),
    ⟨r.2, start, endAddress, maxAddress, supervisor, readonly⟩, frames, 0⟩
  s.arrayInsert start

/-- `MmInitializeHeap`, over the memory with its pages mapped. -/
def mmInitializeHeap (m : Mem) (frames : Nat → Nat → Byte) : HeapState :=
  heapCreate m frames heapAddr (heapAddr + heapSize) (heapAddr + 0x40000000) 0 0

/-! ## `HeapAllocate` -/

/-- The search for the hole of highest address, over the `n` holes left: `idx` and `value` of the code. -/
def highestFrom (s : HeapState) : Nat → Nat → Option Nat → Nat → Option Nat
  | 0, _, idx, _ => idx
  | n + 1, iterator, idx, value =>
      let tmp := arrayGet s.mem s.heap.index iterator
      if tmp > value then highestFrom s n (iterator + 1) (some iterator) tmp
      else highestFrom s n (iterator + 1) idx value

def highestHole (s : HeapState) : Option Nat := highestFrom s s.heap.index.size 0 none 0

/-- The branch of `HeapAllocate` without a hole, up to the recursive call. -/
def heapGrow (s : HeapState) (newSize : Nat) : HeapState :=
  let oldLength := sub64 s.heap.endAddress s.heap.startAddress
  let oldEnd := s.heap.endAddress
  let s := heapExpand s (add64 oldLength newSize)
  let newLength := sub64 s.heap.endAddress s.heap.startAddress
  match highestHole s with
  | none =>
      let size := sub64 newLength oldLength
      let m := writeHeader s.mem oldEnd 1 size
      let m := writeFooter m (sub64 (add64 oldEnd size) sizeofHeapFooter) oldEnd
      HeapState.arrayInsert { s with mem := m } oldEnd
  | some idx =>
      let header := arrayGet s.mem s.heap.index idx
      let size := add64 (headerSize s.mem header) (sub64 newLength oldLength)
      let m := setHeaderSize s.mem header size
      { s with mem := writeFooter m (sub64 (add64 header size) sizeofHeapFooter) header }

/-- The page-aligned carve: the hole keeps the bytes before the aligned block. Its size is read back after its footer is
written. -/
def carveAligned (m : Mem) (pos : Nat) : Mem × Nat × Nat :=
  let newLocation := sub64 (sub64 (add64 pos pageSize) (pos &&& 0xFFF)) sizeofHeapHeader
  let m := writeHeader m pos 1 (sub64 (sub64 pageSize (pos &&& 0xFFF)) sizeofHeapHeader)
  let m := writeFooter m (sub64 newLocation sizeofHeapFooter) pos
  (m, newLocation, headerSize m pos)

/-- The end of `HeapAllocate`: the block at `pos`, and what is left of the hole behind it. -/
def carveBlock (s : HeapState) (pos holeSize size newSize : Nat) : HeapState :=
  let m := writeHeader s.mem pos 0 newSize
  let m := writeFooter m (add64 (add64 pos sizeofHeapHeader) size) pos
  if sub64 holeSize newSize > 0 then
    let hole := add64 (add64 (add64 pos sizeofHeapHeader) size) sizeofHeapFooter
    let m := writeHeader m hole 1 (sub64 holeSize newSize)
    let footer := sub64 (sub64 (add64 hole holeSize) newSize) sizeofHeapFooter
    let m := if footer < s.heap.endAddress then writeFooter m footer hole else m
    HeapState.arrayInsert { s with mem := m } hole
  else { s with mem := m }

/-- `HeapAllocate` once the hole at `iterator` of the index is found. -/
def heapCarve (s : HeapState) (iterator size newSize : Nat) (pageAlign : Int) : Nat × HeapState :=
  let pos := arrayGet s.mem s.heap.index iterator
  let holeSize := headerSize s.mem pos
  let rest := sub64 holeSize newSize
  let size := if rest < sizeofHeapHeader + sizeofHeapFooter then add64 size rest else size
  let newSize := if rest < sizeofHeapHeader + sizeofHeapFooter then holeSize else newSize
  if pageAlign ≠ 0 ∧ pos &&& 0xFFFFF000 ≠ 0 then
    let r := carveAligned s.mem pos
    (add64 r.2.1 sizeofHeapHeader, carveBlock { s with mem := r.1 } r.2.1 (sub64 holeSize r.2.2) size newSize)
  else (add64 pos sizeofHeapHeader, carveBlock (s.arrayRemove iterator) pos holeSize size newSize)

/-- `HeapAllocate`; `none` when it still grows the heap after `fuel` calls. -/
def heapAllocate : Nat → HeapState → Nat → Int → Option (Nat × HeapState)
  | 0, _, _, _ => none
  | fuel + 1, s, size, pageAlign =>
      let newSize := add64 (add64 size sizeofHeapHeader) sizeofHeapFooter
      match heapFindSmallestHole s newSize pageAlign with
      | none => heapAllocate fuel (heapGrow s newSize) size pageAlign
      | some iterator => some (heapCarve s iterator size newSize pageAlign)

/-! ## `HeapFree` -/

/-- The index of `header` in the index, or its size. -/
def indexOfHeader (s : HeapState) (header : Nat) : Nat → Nat → Nat
  | 0, iterator => iterator
  | n + 1, iterator =>
      if arrayGet s.mem s.heap.index iterator ≠ header then indexOfHeader s header n (iterator + 1) else iterator

/-- A hole ends right before `header`. -/
def leftIsHole (m : Mem) (header : Nat) : Bool :=
  let testFooter := sub64 header sizeofHeapFooter
  decide (footerMagic m testFooter = heapMagic ∧ headerIsHole m (footerHeader m testFooter) = 1)

/-- A hole starts at `testHeader`. -/
def rightIsHole (m : Mem) (testHeader : Nat) : Bool :=
  decide (headerMagic m testHeader = heapMagic ∧ headerIsHole m testHeader ≠ 0)

/-- Merging with the hole on the left: the memory, the header, and whether it is to be added to the index. -/
def freeMergeLeft (m : Mem) (header footer : Nat) : Mem × Nat × Bool :=
  if leftIsHole m header then
    let cacheSize := headerSize m header
    let header := footerHeader m (sub64 header sizeofHeapFooter)
    let m := setFooterHeader m footer header
    (setHeaderSize m header (add64 (headerSize m header) cacheSize), header, false)
  else (m, header, true)

/-- Merging with the hole on the right: the state and the footer. -/
def freeMergeRight (s : HeapState) (header footer : Nat) : HeapState × Nat :=
  let testHeader := add64 footer sizeofHeapFooter
  if rightIsHole s.mem testHeader then
    let m := setHeaderSize s.mem header (add64 (headerSize s.mem header) (headerSize s.mem testHeader))
    let s := { s with mem := m }
    (s.arrayRemove (indexOfHeader s testHeader s.heap.index.size 0),
      sub64 (add64 testHeader (headerSize m testHeader)) sizeofHeapFooter)
  else (s, footer)

/-- Shrinking the heap when the hole is at its end. -/
def freeShrink (s : HeapState) (header footer testHeader : Nat) : HeapState :=
  if add64 footer sizeofHeapFooter = s.heap.endAddress then
    let oldLength := sub64 s.heap.endAddress s.heap.startAddress
    let r := heapContract s (sub64 header s.heap.startAddress)
    let s := r.2
    let size := sub64 (headerSize s.mem header) (sub64 oldLength r.1)
    if size > 0 then
      let m := setHeaderSize s.mem header size
      { s with mem := writeFooter m (sub64 (add64 header size) sizeofHeapFooter) header }
    else
      let iterator := indexOfHeader s testHeader s.heap.index.size 0
      if iterator < s.heap.index.size then s.arrayRemove iterator else s
  else s

def heapFree (s : HeapState) (address : Nat) : HeapState :=
  if address = 0 then s
  else
    let header := sub64 address sizeofHeapHeader
    let footer := sub64 (add64 header (headerSize s.mem header)) sizeofHeapFooter
    let m := setHeaderIsHole s.mem header 1
    let left := freeMergeLeft m header footer
    let right := freeMergeRight { s with mem := left.1 } left.2.1 footer
    let s := freeShrink right.1 left.2.1 right.2 (add64 footer sizeofHeapFooter)
    if left.2.2 then s.arrayInsert left.2.1 else s

def kmalloc (fuel : Nat) (s : HeapState) (size : Nat) : Option (Nat × HeapState) :=
  heapAllocate fuel s (size % 2 ^ 32) 0

def kfree (s : HeapState) (address : Nat) : HeapState := heapFree s address

end Gewodsys.Mem
