/-
`gguf.rs`: reading a GGUF header.

The header is a magic number and a version, the number of tensors and of metadata entries, the entries, and one record
for every tensor. Each accessor walks it from the front. A length that is not in the bytes is no answer (`Ok(None)`),
because the caller may hold the first chunk of a long file; what is in the bytes and cannot be read is an error.

`skip_value` steps over a value, and over the elements of an array of strings or arrays one by one, by calling itself. The
number of frames it may use is its first argument; `bytes.length + 1` of them are always enough.

A slice has fewer than `2^63` bytes, so a position and a 64-bit length are added as they are: a sum that would not fit
is past the end of the slice as well.
-/
import Hocmesh.Base.Walk
import Hocmesh.Base.Utf8

namespace Hocmesh.Model

open Hocmesh.Base Walk

def magic : List UInt8 := utf8 "GGUF"

def maxStringLen : ℕ := 2 ^ 20

def maxKvPairs : ℕ := 2 ^ 20

def maxTensors : ℕ := 2 ^ 20

def maxDimensions : ℕ := 8

def defaultAlignment : ℕ := 32

def alignmentKey : String := "general.alignment"

/-! ## Values -/

inductive ValueType where
  | u8 | i8 | u16 | i16 | u32 | i32 | f32 | bool | string | array | u64 | i64 | f64
deriving DecidableEq

namespace ValueType

def fromCode (code : ℕ) : Check ValueType :=
  match code with
  | 0 => .ok .u8
  | 1 => .ok .i8
  | 2 => .ok .u16
  | 3 => .ok .i16
  | 4 => .ok .u32
  | 5 => .ok .i32
  | 6 => .ok .f32
  | 7 => .ok .bool
  | 8 => .ok .string
  | 9 => .ok .array
  | 10 => .ok .u64
  | 11 => .ok .i64
  | 12 => .ok .f64
  | other => .error s!"unknown GGUF value type {other}"

/-- width in bytes, or none for the types of variable length -/
def fixedWidth : ValueType → Option ℕ
  | .u8 | .i8 | .bool => some 1
  | .u16 | .i16 => some 2
  | .u32 | .i32 | .f32 => some 4
  | .u64 | .i64 | .f64 => some 8
  | .string | .array => none

end ValueType

/-- the conversions between the float types, and how one is printed -/
structure FloatCast where
  /-- `f64::from` of an `f32` -/
  widen : UInt32 → UInt64
  /-- `value as f64` -/
  ofUnsigned : ℕ → UInt64
  ofSigned : ℤ → UInt64
  /-- `value as f32` -/
  narrow : UInt64 → UInt32
  /-- `{:?}` of an `f64` -/
  debug : UInt64 → String

/-- a value of fixed width, as the type the file declared -/
inductive Scalar where
  | unsigned (v : ℕ)
  | signed (v : ℤ)
  /-- the bits of an `f64` -/
  | float (v : UInt64)
  | bool (v : Bool)
deriving DecidableEq

def Scalar.debug (fc : FloatCast) : Scalar → String
  | .unsigned v => s!"Unsigned({v})"
  | .signed v => s!"Signed({v})"
  | .float v => s!"Float({fc.debug v})"
  | .bool v => s!"Bool({v})"

/-- two's complement of `w` bytes -/
def signed (w n : ℕ) : ℤ := (n : ℤ).bmod (256 ^ w)

/-- the value that `fixed_width` bytes spell -/
def ValueType.scalar (fc : FloatCast) : ValueType → ℕ → Option Scalar
  | .u8, n | .u16, n | .u32, n | .u64, n => some (.unsigned n)
  | .bool, n => some (.bool (n ≠ 0))
  | .i8, n => some (.signed (signed 1 n))
  | .i16, n => some (.signed (signed 2 n))
  | .i32, n => some (.signed (signed 4 n))
  | .i64, n => some (.signed (signed 8 n))
  | .f32, n => some (.float (fc.widen (UInt32.ofNat n)))
  | .f64, n => some (.float (UInt64.ofNat n))
  | .string, _ | .array, _ => none

/-! ## The reader -/

namespace Reader

def u32 : Walk ℕ := word 4

def u64 : Walk ℕ := word 8

def skip (count : ℕ) : Walk Unit := do
  let _ ← take count
  pure ()

/-- a string with its length in front; one that is too long reads as truncated -/
def string : Walk (List UInt8) := do
  let len ← u64
  if maxStringLen < len then runOut else take len

end Reader

/-- `u64::saturating_mul` -/
def saturatingMul (a b : ℕ) : ℕ := min (a * b) (2 ^ 64 - 1)

/-- step over a value; an element type that is not known reads as truncated -/
def skipValue : ℕ → ValueType → Walk Unit
  | 0, _ => overrun
  | stack + 1, vt =>
    match vt with
    | .string => do
      let _ ← Reader.string
      pure ()
    | .array => do
      let code ← Reader.u32
      match ValueType.fromCode code with
      | .error _ => runOut
      | .ok element => do
        let count ← Reader.u64
        match element.fixedWidth with
        | some width => Reader.skip (saturatingMul count width)
        | none => do
          let _ ← times count (skipValue stack element)
          pure ()
    | fixed => Reader.skip (fixed.fixedWidth.getD 0)

/-! ## Metadata -/

/-- the magic and the version, which every accessor starts with -/
def preamble : Walk Unit := do
  let found ← orRefuse (take 4) "file is too short to be a GGUF model"
  refuseIf (found ≠ magic) "file does not start with the GGUF magic"
  let version ← orRefuse Reader.u32 "truncated GGUF header: no version"
  refuseIf (¬ (2 ≤ version ∧ version ≤ 3)) s!"GGUF version {version} is not supported (this build reads versions 2-3)"

def pairCount : Walk ℕ := do
  let pairs ← Reader.u64
  refuseIf (maxKvPairs < pairs) s!"GGUF header claims {pairs} metadata entries, which is not plausible"
  pure pairs

/-- the key and the type of an entry -/
def pairHead : Walk (List UInt8 × ValueType) := do
  let key ← Reader.string
  let code ← Reader.u32
  let vt ← ofCheck (ValueType.fromCode code)
  pure (key, vt)

section

variable {α : Type} (skip : ValueType → Walk Unit)

/-- the first of the next entries with this key, read by `read`; the entries before it are stepped over -/
def findPair (key : String) (read : ValueType → Walk α) : ℕ → Walk (Option α)
  | 0 => pure none
  | pairs + 1 => do
    let (found, vt) ← pairHead
    if found = utf8 key then do
      let a ← read vt
      pure (some a)
    else do
      skip vt
      findPair key read pairs

/-- `findKey` behind the version -/
def findKeyBody (key : String) (read : ValueType → Walk α) : Walk (Option α) := do
  let _ ← Reader.u64
  let pairs ← pairCount
  findPair skip key read pairs

def findKey (key : String) (read : ValueType → Walk α) : Walk (Option α) := do
  preamble
  findKeyBody skip key read

/-- the value `metadata_string` wants -/
def stringValue (key : String) (vt : ValueType) : Walk String :=
  if vt = .string then do
    let value ← Reader.string
    pure (fromUtf8Lossy value)
  else refuse s!"GGUF key {key} is not a string"

def metadataString (key : String) : Walk (Option String) := findKey skip key (stringValue key)

def readScalar (fc : FloatCast) (vt : ValueType) : Walk (Option Scalar) :=
  match vt.fixedWidth with
  | none => pure none
  | some width => do
    let n ← word width
    pure (vt.scalar fc n)

/-- the value `find_scalar` wants; bytes that end inside it are reported as it not being a number -/
def scalarValue (fc : FloatCast) (key : String) (wanted : Scalar → Option Scalar) (vt : ValueType) : Walk Scalar := do
  match ← orRefuse (readScalar fc vt) s!"GGUF key {key} is not a number" with
  | none => refuse s!"GGUF key {key} is not a number"
  | some scalar =>
    match wanted scalar with
    | some value => pure value
    | none => refuse s!"GGUF key {key} holds {scalar.debug fc}, which does not fit"

def findScalar (fc : FloatCast) (key : String) (wanted : Scalar → Option Scalar) : Walk (Option Scalar) :=
  findKey skip key (scalarValue fc key wanted)

/-- a count; a negative one is refused -/
def asCount : Scalar → Option Scalar
  | .unsigned v => some (.unsigned v)
  | .signed v => if 0 ≤ v then some (.unsigned v.toNat) else none
  | .bool v => some (.unsigned v.toNat)
  | .float _ => none

def asReal (fc : FloatCast) : Scalar → Option Scalar
  | .float v => some (.float v)
  | .unsigned v => some (.float (fc.ofUnsigned v))
  | .signed v => some (.float (fc.ofSigned v))
  | .bool _ => none

def metadataU64 (fc : FloatCast) (key : String) : Walk (Option ℕ) := do
  let scalar ← findScalar skip fc key asCount
  pure (scalar.bind fun
    | .unsigned v => some v
    | _ => none)

def metadataF32 (fc : FloatCast) (key : String) : Walk (Option UInt32) := do
  let scalar ← findScalar skip fc key (asReal fc)
  pure (scalar.bind fun
    | .float v => some (fc.narrow v)
    | _ => none)

/-! ## The tensor directory -/

structure TensorInfo where
  name : String
  /-- fastest-varying first -/
  dimensions : List ℕ
  kind : ℕ
  /-- from the start of the tensor data, not of the file -/
  offset : ℕ
deriving DecidableEq

structure TensorDirectory where
  alignment : ℕ
  dataStart : ℕ
  tensors : List TensorInfo
deriving DecidableEq

/-- round up to the next multiple, unless that is past a 64-bit number -/
def alignUp (value alignment : ℕ) : Option ℕ :=
  if alignment ≤ 1 then some value
  else
    let remainder := value % alignment
    if remainder = 0 then some value
    else if value + (alignment - remainder) < 2 ^ 64 then some (value + (alignment - remainder)) else none

def isPowerOfTwo (n : ℕ) : Prop := 2 ^ n.log2 = n

instance (n : ℕ) : Decidable (isPowerOfTwo n) := inferInstanceAs (Decidable (_ = _))

/-- the entries, for the alignment on the way past; the last one that declares it counts -/
def walkPairs : ℕ → ℕ → Walk ℕ
  | 0, alignment => pure alignment
  | pairs + 1, alignment => do
    let (key, vt) ← pairHead
    if key = utf8 alignmentKey ∧ vt = .u32 then do
      let declared ← Reader.u32
      refuseIf (¬ (declared ≠ 0 ∧ isPowerOfTwo declared))
        s!"GGUF declares an alignment of {declared}, which is not a power of two"
      walkPairs pairs declared
    else do
      skip vt
      walkPairs pairs alignment

def readTensor : Walk TensorInfo := do
  let name ← Reader.string
  let dimensionCount ← Reader.u32
  refuseIf (maxDimensions < dimensionCount)
    s!"tensor {fromUtf8Lossy name} claims {dimensionCount} dimensions; GGUF allows at most 4"
  let dimensions ← times dimensionCount Reader.u64
  let kind ← Reader.u32
  let offset ← Reader.u64
  pure ⟨fromUtf8Lossy name, dimensions, kind, offset⟩

/-- `tensor_directory` behind the version -/
def directoryBody : Walk (Option TensorDirectory) := do
  let tensorCount ← Reader.u64
  refuseIf (maxTensors < tensorCount) s!"GGUF header claims {tensorCount} tensors, which is not plausible"
  let pairs ← pairCount
  let alignment ← walkPairs skip pairs defaultAlignment
  let tensors ← times tensorCount readTensor
  let stop ← position
  match alignUp stop alignment with
  | none => refuse "GGUF tensor data would start past the end of a 64-bit file"
  | some dataStart => pure (some ⟨alignment, dataStart, tensors⟩)

def tensorDirectory : Walk (Option TensorDirectory) := do
  preamble
  directoryBody skip

end

/-! ## The four accessors -/

inductive Accessor where
  | string (key : String)
  | u64 (key : String)
  | f32 (key : String)
  | directory

inductive Answer where
  | text (s : String)
  | count (n : ℕ)
  | real (bits : UInt32)
  | directory (d : TensorDirectory)
deriving DecidableEq

namespace Accessor

/-- an accessor that steps over values by `skip` -/
def walk (fc : FloatCast) (skip : ValueType → Walk Unit) : Accessor → Walk (Option Answer)
  | .string key => do
    let s ← metadataString skip key
    pure (s.map .text)
  | .u64 key => do
    let n ← metadataU64 skip fc key
    pure (n.map .count)
  | .f32 key => do
    let bits ← metadataF32 skip fc key
    pure (bits.map .real)
  | .directory => do
    let d ← tensorDirectory skip
    pure (d.map .directory)

/-- what an accessor returns on a stack of so many frames -/
def run (fc : FloatCast) (a : Accessor) (stack : ℕ) (bytes : List UInt8) : Outcome (Option Answer) :=
  (a.walk fc (skipValue stack)).run bytes

end Accessor

end Hocmesh.Model
