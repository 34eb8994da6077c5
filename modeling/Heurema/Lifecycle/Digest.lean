import Heurema.Lifecycle.Operation
import Mathlib.Data.List.Sort

/-! # The canonical encoding of an operation

Every value of the data model is one item: a tag byte, then a payload. The digest
of an operation is the hash of its item behind a domain prefix. -/

namespace Heurema.Digest

open Serde

/-- The domain prefix of every version-1 encoding. -/
def DOMAIN : Bytes := Str.asBytes "heurema.lifecycle.operation.v1\n".toList

namespace Tag

def UNIT : UInt8 := 0x00
def NONE : UInt8 := 0x01
def SOME : UInt8 := 0x02
def FALSE : UInt8 := 0x03
def TRUE : UInt8 := 0x04
def STR : UInt8 := 0x40
def BYTES : UInt8 := 0x41
def SEQ : UInt8 := 0x50
def MAP : UInt8 := 0x51
def VARIANT : UInt8 := 0x60

def ofInt : IntKind → UInt8
  | .u8 => 0x10
  | .u16 => 0x11
  | .u32 => 0x12
  | .u64 => 0x13
  | .u128 => 0x14
  | .i8 => 0x18
  | .i16 => 0x19
  | .i32 => 0x1a
  | .i64 => 0x1b
  | .i128 => 0x1c

/-- Whether the tag is that of an integer. -/
def isInt (tag : UInt8) : Bool :=
  (ofInt .u8 ≤ tag && tag ≤ ofInt .u128) || (ofInt .i8 ≤ tag && tag ≤ ofInt .i128)

end Tag

/-- What kind of value an encoded item holds, for refusal messages. -/
def describe (item : Bytes) : String :=
  match item.head? with
  | none => "an unrecognised item"
  | some tag =>
    if tag = Tag.UNIT then "a unit"
    else if tag = Tag.NONE then "an absent option"
    else if tag = Tag.SOME then "a present option"
    else if tag = Tag.FALSE ∨ tag = Tag.TRUE then "a bool"
    else if Tag.isInt tag then "an integer"
    else if tag = Tag.STR then "a string"
    else if tag = Tag.BYTES then "a byte string"
    else if tag = Tag.SEQ then "a sequence"
    else if tag = Tag.MAP then "a map or struct"
    else if tag = Tag.VARIANT then "an enum variant with data"
    else "an unrecognised item"

/-- Whether an encoded item may serve as a map key: a string or an integer. -/
def isKey (item : Bytes) : Bool :=
  item.head?.any fun tag => tag = Tag.STR || Tag.isInt tag

/-- The low `len` bytes of a number, the most significant first. -/
def beBytes : Nat → Nat → Bytes
  | 0, _ => []
  | len + 1, n => beBytes len (n / 256) ++ [UInt8.ofNat n]

/-- A length or count as the grammar writes it. -/
def count (len : Nat) : Except String Bytes :=
  if len < UInt64.size then .ok (beBytes 8 len)
  else .error ("a length of " ++ toString len ++ " does not fit the grammar's u64")

def lengthPrefixed (tag : UInt8) (payload : Bytes) : Except String Bytes := do
  return tag :: (← count payload.length) ++ payload

def floatRefusal {α : Type} (what : String) : Except String α :=
  .error ("a consumer value contains " ++ what ++ "; floating-point numbers have no canonical " ++
    "encoding, so member identity, provenance, and retention types must encode them as " ++
    "integers or strings")

def encodeInt (kind : IntKind) (bits : BitVec kind.width) : Bytes :=
  Tag.ofInt kind :: beBytes (kind.width / 8) bits.toNat

/-- A text that is exactly the decimal form of a number. -/
def decimal? (text : Str) : Option Nat :=
  let n := Nat.ofDigitChars 10 text 0
  if text.all Char.isDigit ∧ Nat.toDigits 10 n = text then some n else none

/-- The item of a number that keeps its text: that of the integer it spells. -/
def serdeJsonNumberItem (text : Str) : Except String Bytes :=
  let refused := floatRefusal ("the serde_json number " ++ String.ofList text ++
    ", which is not a u64 or a negative i64 and so is a float in serde_json's default build")
  match text with
  | '-' :: digits =>
    match decimal? digits with
    | some n =>
      if 0 < n ∧ n ≤ 2 ^ 63 then .ok (encodeInt .i64 (BitVec.ofInt _ (-n))) else refused
    | none => refused
  | _ =>
    match decimal? text with
    | some n => if n < UInt64.size then .ok (encodeInt .u64 (BitVec.ofNat _ n)) else refused
    | none => refused

/-- The text of an encoded string, or nothing for any other item. -/
def decodedStr (item : Bytes) : Option Str :=
  match item with
  | tag :: rest => if tag = Tag.STR ∧ 8 ≤ rest.length then Str.fromUtf8 (rest.drop 8) else none
  | [] => none

def openVariant (variant : Str) : Except String Bytes := do
  return Tag.VARIANT :: (← lengthPrefixed Tag.STR variant.asBytes)

def finishSeq (elements : List Bytes) : Except String Bytes := do
  return Tag.SEQ :: (← count elements.length) ++ elements.flatten

def checkKey (item : Bytes) : Except String Unit :=
  if isKey item then .ok ()
  else .error ("a map key encodes as " ++ describe item ++
    "; map keys must encode as a string or an integer")

/-- Sorts the entries by their key bytes, and refuses a repeated key. -/
def finishMap (entries : List (Bytes × Bytes)) : Except String Bytes := do
  let entries := entries.insertionSort fun left right => left.1 ≤ right.1
  if (entries.zip entries.tail).any fun pair => pair.1.1 = pair.2.1 then
    .error "a map emits the same key twice"
  else
    return Tag.MAP :: (← count entries.length) ++ entries.flatMap fun entry => entry.1 ++ entry.2

mutual

/-- The canonical item of a value. -/
def encode : Value → Except String Bytes
  | .failed reason => .error reason
  | .bool value => .ok [if value then Tag.TRUE else Tag.FALSE]
  | .int kind bits => .ok (encodeInt kind bits)
  | .f32 _ => floatRefusal "an f32"
  | .f64 _ => floatRefusal "an f64"
  | .char value => lengthPrefixed Tag.STR (Str.asBytes [value])
  | .str value => lengthPrefixed Tag.STR value.asBytes
  | .bytes value => lengthPrefixed Tag.BYTES value
  | .none => .ok [Tag.NONE]
  | .some value => do return Tag.SOME :: (← encode value)
  | .unit => .ok [Tag.UNIT]
  | .unitVariant variant => lengthPrefixed Tag.STR variant.asBytes
  | .newtypeStruct value => encode value
  | .newtypeVariant variant value => do return (← openVariant variant) ++ (← encode value)
  | .seq elements => do finishSeq (← encodeElements elements)
  | .tupleVariant variant elements => do
    return (← openVariant variant) ++ (← finishSeq (← encodeElements elements))
  | .map entries => do finishMap (← encodeEntries entries)
  | .struct name fields =>
    if name = SERDE_JSON_NUMBER then do
      match ← encodeNumber none fields with
      | some text => serdeJsonNumberItem text
      | none => .error "a serde_json number did not serialize as one decimal string"
    else if name = SERDE_JSON_RAW_VALUE then
      .error ("a consumer value contains a serde_json RawValue; unparsed JSON text has no " ++
        "canonical encoding")
    else do finishMap (← encodeFields fields)
  | .structVariant variant fields => do
    return (← openVariant variant) ++ (← finishMap (← encodeFields fields))

def encodeElements : List Value → Except String (List Bytes)
  | [] => .ok []
  | value :: values => do
    let item ← encode value
    return item :: (← encodeElements values)

def encodeEntries : List (Value × Value) → Except String (List (Bytes × Bytes))
  | [] => .ok []
  | (key, value) :: entries => do
    let key ← encode key
    checkKey key
    let value ← encode value
    return (key, value) :: (← encodeEntries entries)

def encodeFields : List (Str × Value) → Except String (List (Bytes × Bytes))
  | [] => .ok []
  | (name, value) :: fields => do
    let key ← lengthPrefixed Tag.STR name.asBytes
    let value ← encode value
    return (key, value) :: (← encodeFields fields)

/-- The text that the fields of a number's struct hold. -/
def encodeNumber (text : Option Str) : List (Str × Value) → Except String (Option Str)
  | [] => .ok text
  | (name, value) :: fields => do
    let item ← encode value
    match decodedStr item with
    | some decimal =>
      if name = SERDE_JSON_NUMBER ∧ text.isNone then encodeNumber (some decimal) fields
      else .error "a serde_json number did not serialize as one decimal string"
    | none => .error "a serde_json number did not serialize as one decimal string"

end

/-- Why an identity cannot identify a member, or nothing when it encodes as a
string or an integer. -/
def memberIdentityRefusal {M : Type} [Codec M] (id : M) : Option String :=
  match encode (serialize id) with
  | .error reason => some reason
  | .ok item =>
    if isKey item then none
    else some ("encodes as " ++ describe item ++ "; a member identity must encode as a string " ++
      "or an integer, because engine snapshots key members by it")

/-! ## Operations -/

variable {M P R : Type} [MemberIdentity M] [ProvenanceReference P] [RetentionReference R]

/-- A vector is written as the bit patterns of its components. -/
def canonicalContent : MemberContent → Value
  | .vector components => .newtypeVariant "vector_bits".toList
    (.seq (components.map fun component => .int .u32 component.bits))
  | .document text => .newtypeVariant "document".toList (.str text)

def canonicalMember (member : IndexMember M P) : Value :=
  record "CanonicalMember".toList ["id".toList, "provenance".toList, "content".toList]
    [serialize member.id, serialize member.provenance, canonicalContent member.content]

/-- `members` in ascending identity order. -/
def sortedMembers (members : List (IndexMember M P)) : List (IndexMember M P) :=
  members.insertionSort fun left right => left.id ≤ right.id

def sortedIds (members : List M) : List M := members.insertionSort (· ≤ ·)

/-- A change without its variant, which the transition names. -/
def canonicalChange : IndexChange M P R → Value
  | .create config => record "CanonicalChange".toList ["config".toList] [serialize config]
  | .insert members => record "CanonicalChange".toList ["members".toList]
    [.seq ((sortedMembers members).map canonicalMember)]
  | .remove members => record "CanonicalChange".toList ["members".toList]
    [.seq ((sortedIds members).map serialize)]
  | .rebuild config members => record "CanonicalChange".toList ["config".toList, "members".toList]
    [serialize config, .seq ((sortedMembers members).map canonicalMember)]
  | .destroy retention => record "CanonicalChange".toList ["retention".toList] [serialize retention]

variable [Unicode]

def canonicalOperation (operation : LifecycleOperation M P R) : Value :=
  record "CanonicalOperation".toList ["index".toList, "transition".toList, "change".toList]
    [serialize operation.index, serialize operation.transition, canonicalChange operation.change]

def canonicalBytes (operation : LifecycleOperation M P R) : Except String Bytes :=
  encode (canonicalOperation operation)

/-- The hash function. -/
class Sha256 where
  digest : Bytes → Bytes
  size : ∀ bytes, (digest bytes).length = 32

def operationDigest [Sha256] (operation : LifecycleOperation M P R) :
    Except HeuremaError OperationDigest :=
  match canonicalBytes operation with
  | .error reason => .error (.unencodableOperation reason)
  | .ok item => .ok ⟨Sha256.digest (DOMAIN ++ item), Sha256.size _⟩

end Heurema.Digest
