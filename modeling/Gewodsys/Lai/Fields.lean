import Gewodsys.Machine.Bits
import Gewodsys.Cpu.AcpiMap
import Gewodsys.Lai.Exec

/-!
# Fields (`lai/core/opregion.c`, `lai/core/exec-operand.c`)

* `Host` : the devices behind the ports; `laihostMapped` : the pointer that `laihost_map` returns;
* `laiBufferPutAt`, `laiBufferGetAt` : windows of bits in buffers;
* `laiPerformRead`, `laiPerformWrite` : one access to a region;
* `NsField` : fields, bank fields and index fields; `laiReadField`, `laiWriteField`, `laiReadOpregion`,
  `laiWriteOpregion`;
* `laiWriteBuffer`, `laiReadBuffer` : buffer fields.
-/

namespace Gewodsys.Lai
open Gewodsys.Machine

/-! ## Buffers -/

def laiBufferPutAt (value : Word64) (bitOffset numBits : Nat) (buffer : List Byte) : Except Failure (List Byte) :=
  chunks 8 bitOffset numBits (fun progress bit len buffer =>
    let i := (bitOffset + progress) / 8
    match buffer[i]? with
    | none => .error .undefined
    | some b => .ok (buffer.set i (b ||| (((value >>> progress) &&& lowMask len) <<< bit).setWidth 8))) numBits 0 buffer

def laiBufferGetAt (buffer : List Byte) (bitOffset numBits : Nat) : Except Failure Word64 :=
  chunks 8 bitOffset numBits (fun progress bit len value =>
    match buffer[(bitOffset + progress) / 8]? with
    | none => .error .undefined
    | some b => .ok (value ||| ((b >>> bit).setWidth 64 &&& lowMask len) <<< progress)) numBits 0 0

/-! ## Buffer fields -/

/-- `lai_write_buffer`: a shift by `n` has no meaning from 64 on. -/
def laiWriteBuffer (offset size : Nat) (data : List Byte) (value : Word64) : Except Failure (List Byte) :=
  chunks 8 offset size (fun n bit m data =>
    let i := (offset + n) / 8
    if 64 ≤ n then .error .undefined else
    match data[i]? with
    | none => .error .undefined
    | some b =>
        let mask := (lowMask m).setWidth 8
        .ok (data.set i ((b &&& ~~~(mask <<< bit)) ||| (((value >>> n) &&& mask.setWidth 64) <<< bit).setWidth 8))) size 0 data

/-- `lai_read_buffer`: the byte is masked where it is. -/
def laiReadBuffer (offset size : Nat) (data : List Byte) : Except Failure Word64 :=
  chunks 8 offset size (fun n _ m value =>
    if 64 ≤ n then .error .undefined else
    match data[(offset + n) / 8]? with
    | none => .error .undefined
    | some b => .ok (value ||| (b &&& (lowMask m).setWidth 8).setWidth 64 <<< n)) size 0 0

/-! ## Regions -/

inductive AddressSpace
  | memory
  | io
  | pci
  | other
deriving DecidableEq, Repr

/-- An operation region, that is not overridden. -/
structure OpRegion where
  space : AddressSpace
  base : Nat
deriving DecidableEq, Repr

/-- The devices: a port is read and written in 1, 2 or 4 bytes. -/
structure Host (δ : Type) where
  input (bytes port : Nat) (d : δ) : Nat × δ
  output (bytes port value : Nat) (d : δ) : δ

/-- The pointer that `laihost_map` returns. The page is mapped to itself. -/
def laihostMapped (address : Nat) : Nat := address &&& 0xfffffffffffff000

theorem laihostMap_pointer {σ : Type} {request : Gewodsys.Mem.Phys σ → Option (Nat × Gewodsys.Mem.Phys σ)}
    {root fuel address count p : Nat} {s s' : Gewodsys.Mem.Phys σ}
    (h : Cpu.laihostMap request root fuel address count s = some (p, s')) : p = laihostMapped address := by
  obtain ⟨_, -, heq⟩ := Option.map_eq_some_iff.mp h
  exact (congrArg Prod.fst heq).symm

variable {δ σ : Type}

/-- `lai_perform_read`. The registers of a device in the configuration space are not modelled. -/
def laiPerformRead (H : Host δ) (region : OpRegion) (accessSize offset : Nat) (s : Mem × δ) :
    Except Failure (Word64 × (Mem × δ)) :=
  let address := add64 region.base offset
  match region.space with
  | .memory =>
      if accessSize ∈ [8, 16, 32, 64] then
        .ok (BitVec.ofNat 64 (s.1.read (laihostMapped address) (accessSize / 8)), s)
      else .error .panic
  | .io =>
      if accessSize ∈ [8, 16, 32] then
        let (value, d) := H.input (accessSize / 8) (address % 2 ^ 16) s.2
        .ok (BitVec.ofNat 64 (value % 2 ^ accessSize), (s.1, d))
      else .error .panic
  | .pci => .error .unmodelled
  | .other => .ok (0, s)

def laiPerformWrite (H : Host δ) (region : OpRegion) (accessSize offset : Nat) (value : Word64) (s : Mem × δ) :
    Except Failure (Mem × δ) :=
  let address := add64 region.base offset
  match region.space with
  | .memory =>
      if accessSize ∈ [8, 16, 32, 64] then
        .ok (s.1.write (laihostMapped address) (accessSize / 8) value.toNat, s.2)
      else .error .panic
  | .io =>
      if accessSize ∈ [8, 16, 32] then
        .ok (s.1, H.output (accessSize / 8) (address % 2 ^ 16) (value.toNat % 2 ^ accessSize) s.2)
      else .error .panic
  | .pci => .error .unmodelled
  | .other => .ok s

/-! ## Fields -/

/-- What a node has of `fld_*`. -/
inductive NsField
  | field (flags : Byte) (offset size : Nat) (region : OpRegion)
  | bankField (flags : Byte) (offset size : Nat) (region : OpRegion) (bank : NsField) (value : Word64)
  | indexField (flags : Byte) (offset size : Nat) (index data : NsField)

def NsField.flags : NsField → Byte
  | .field flags .. | .bankField flags .. | .indexField flags .. => flags

/-- In bits. -/
def NsField.offset : NsField → Nat
  | .field _ offset .. | .bankField _ offset .. | .indexField _ offset .. => offset

/-- In bits. -/
def NsField.size : NsField → Nat
  | .field _ _ size .. | .bankField _ _ size .. | .indexField _ _ size .. => size

/-- `fld_region_node`: an index field has none. -/
def NsField.region : NsField → Option OpRegion
  | .field _ _ _ region | .bankField _ _ _ region .. => some region
  | .indexField .. => none

/-- `lai_calculate_access_width`: any access is that of the next power of 2. -/
def laiCalculateAccessWidth (field : NsField) : Except Failure Nat :=
  match (field.flags &&& 0xF#8).toNat with
  | 1 => .ok 8
  | 2 => .ok 16
  | 3 => .ok 32
  | 4 => .ok 64
  | 0 =>
      let size := (field.size - 1) % 2 ^ 32
      -- the count of the leading zeros of 0, or a shift into the sign
      if 1 < field.size ∧ (size = 0 ∨ 2 ^ 30 ≤ size) then .error .undefined else
      let accessSize := if 1 < field.size then 2 ^ (Nat.log2 size + 1) else 1
      match field.region with
      | none => .error .undefined
      | some region => .ok (max 8 (min (if region.space = .memory then 64 else 32) accessSize))
  | _ => .error .panic

/-- How a field accesses what is behind it: the width in bits, and the offset in bytes. -/
structure Access (σ : Type) where
  read (accessSize offset : Nat) (s : σ) : Except Failure (Word64 × σ)
  write (accessSize offset : Nat) (value : Word64) (s : σ) : Except Failure σ

/-- The body of the loop of `lai_read_field_internal`. `1 << 64` has no meaning. -/
def readUnit (A : Access σ) (accessSize progress bit len : Nat) (x : List Byte × Nat × σ) :
    Except Failure (List Byte × Nat × σ) := do
  if 64 ≤ len then .error .undefined else
  let (value, s) ← A.read accessSize x.2.1 x.2.2
  let destination ← laiBufferPutAt ((value >>> bit) &&& lowMask len) progress len x.1
  return (destination, x.2.1 + accessSize / 8, s)

def laiReadFieldInternal (A : Access σ) (field : NsField) (destination : List Byte) (s : σ) :
    Except Failure (List Byte × σ) := do
  let accessSize ← laiCalculateAccessWidth field
  let offset := field.offset / accessSize * accessSize / 8
  let x ← chunks accessSize field.offset field.size (readUnit A accessSize) field.size 0 (destination, offset, s)
  return (x.1, x.2.2)

/-- What is written around the field: what is there, ones or zeroes. -/
def writeBase (A : Access σ) (flags : Byte) (accessSize offset : Nat) (s : σ) : Except Failure (Word64 × σ) :=
  match ((flags >>> 5) &&& 0x0F#8).toNat with
  | 0 => A.read accessSize offset s
  | 1 => .ok (BitVec.allOnes 64, s)
  | 2 => .ok (0, s)
  | _ => .error .panic

/-- The body of the loop of `lai_write_field_internal`. -/
def writeUnit (A : Access σ) (flags : Byte) (source : List Byte) (accessSize progress bit len : Nat) (x : Nat × σ) :
    Except Failure (Nat × σ) := do
  if 64 ≤ len then .error .undefined else
  let mask := lowMask len <<< bit
  let (value, s) ← writeBase A flags accessSize x.1 x.2
  let newVal ← laiBufferGetAt source progress len
  let s ← A.write accessSize x.1 ((value &&& ~~~mask) ||| ((newVal <<< bit) &&& mask)) s
  return (x.1 + accessSize / 8, s)

def laiWriteFieldInternal (A : Access σ) (source : List Byte) (field : NsField) (s : σ) : Except Failure σ := do
  let accessSize ← laiCalculateAccessWidth field
  let offset := field.offset / accessSize * accessSize / 8
  let x ← chunks accessSize field.offset field.size (writeUnit A field.flags source accessSize) field.size 0 (offset, s)
  return x.2

/-- The objects that fields are read into and written from. A string is what its buffer holds. -/
inductive FieldValue
  | integer (value : Word64)
  | buffer (content : List Byte)
  | string (content : List Byte)
  | other
deriving DecidableEq, Repr

/-- `value |= (uint64_t)buf[i] << (i * 8)`, up to the end. -/
def bufValue (buf : List Byte) : Word64 :=
  (List.range buf.length).foldl (fun value i => value ||| (buf.getD i 0).setWidth 64 <<< (i * 8)) 0

/-- An array of no bytes has no meaning. -/
def laiReadField (A : Access σ) (field : NsField) (s : σ) : Except Failure (FieldValue × σ) := do
  let bytes := (field.size + 7) / 8
  if bytes = 0 then .error .undefined else
  let (buf, s) ← laiReadFieldInternal A field (List.replicate bytes 0) s
  if 8 < bytes then return (.buffer buf, s) else return (.integer (bufValue buf), s)

def laiWriteField (A : Access σ) (field : NsField) (source : FieldValue) (s : σ) : Except Failure σ :=
  match source with
  | .buffer content => laiWriteFieldInternal A content field s
  | .string content => laiWriteFieldInternal A content field s
  | .integer value => laiWriteFieldInternal A (leBytes value.toNat 8) field s
  | .other => .error .panic

/-- An index field is accessed through its two registers, by `lai_perform_indexfield_read` and
`lai_perform_indexfield_write`. -/
def NsField.access (H : Host δ) : NsField → Access (Mem × δ)
  | .field _ _ _ region | .bankField _ _ _ region .. => ⟨laiPerformRead H region, laiPerformWrite H region⟩
  | .indexField _ _ _ index data =>
      { read := fun _ offset s => do
          let s ← laiWriteField (index.access H) index (.integer (BitVec.ofNat 64 offset)) s
          let (dest, s) ← laiReadField (data.access H) data s
          match dest with
          | .integer value => return (value, s)
          | _ => .error .panic
        write := fun _ offset value s => do
          let s ← laiWriteField (index.access H) index (.integer (BitVec.ofNat 64 offset)) s
          laiWriteField (data.access H) data (.integer value) s }

/-- The bank is selected first. -/
def laiReadOpregion (H : Host δ) (field : NsField) (s : Mem × δ) : Except Failure (FieldValue × (Mem × δ)) :=
  match field with
  | .field .. | .indexField .. => laiReadField (field.access H) field s
  | .bankField _ _ _ _ bank value => do
      let s ← laiWriteField (bank.access H) bank (.integer value) s
      laiReadField (field.access H) field s

def laiWriteOpregion (H : Host δ) (field : NsField) (source : FieldValue) (s : Mem × δ) : Except Failure (Mem × δ) :=
  match field with
  | .field .. | .indexField .. => laiWriteField (field.access H) field source s
  | .bankField _ _ _ _ bank value => do
      let s ← laiWriteField (bank.access H) bank (.integer value) s
      laiWriteField (field.access H) field source s

end Gewodsys.Lai
