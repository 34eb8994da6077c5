import Heurema.Data.Text
import Mathlib.Tactic.Common

/-! # Identifiers

The names of indexes, their versions and the operations on them. Each type
carries its grammar, so a value that breaks it cannot be built; the conversions
that check raw text, with the refusals they raise, follow with the errors. -/

namespace Heurema

/-- Which lifecycle identifier a refusal names. -/
inductive IdentifierKind where
  | ownerNamespace
  | indexName
  | operationKey
  | operationDigest
  | indexVersion
  | memberIdentity
deriving DecidableEq, Repr

/-- The `Display` form. -/
def IdentifierKind.display : IdentifierKind → String
  | ownerNamespace => "owner namespace"
  | indexName => "index name"
  | operationKey => "operation key"
  | operationDigest => "operation digest"
  | indexVersion => "index version"
  | memberIdentity => "member identity"

/-- The character grammar of one string identifier: a lead character, then
lead characters and punctuation, within a limit on the bytes. -/
structure Grammar where
  kind : IdentifierKind
  maxLen : Nat
  uppercase : Bool
  punctuation : Str
deriving DecidableEq

namespace Grammar

def leads (g : Grammar) (character : Char) : Bool :=
  character.isDigit || character.isLower || (g.uppercase && character.isUpper)

def follows (g : Grammar) (character : Char) : Bool :=
  g.leads character || (character.toNat < 128 && g.punctuation.contains character)

/-- The first character the grammar refuses and its byte offset, scanning
from byte `offset`. -/
def refused (g : Grammar) : Nat → Str → Option (Nat × Char)
  | _, [] => none
  | offset, character :: rest =>
    let allowed := if offset = 0 then g.leads character else g.follows character
    if allowed then g.refused (offset + character.utf8Size) rest
    else some (offset, character)

/-- What `check` lets through. -/
def accepts (g : Grammar) (value : Str) : Bool :=
  !value.isEmpty && value.byteLen ≤ g.maxLen && (g.refused 0 value).isNone

end Grammar

def ownerNamespace : Grammar := ⟨.ownerNamespace, 64, false, "._-".toList⟩

def indexName : Grammar := ⟨.indexName, 128, false, "._-".toList⟩

def operationKey : Grammar := ⟨.operationKey, 128, true, "._:-".toList⟩

/-- A validated string identifier. -/
structure Identifier (g : Grammar) where
  value : Str
  accepted : g.accepts value = true
deriving DecidableEq

/-- The consumer that owns a named index. -/
abbrev OwnerNamespace := Identifier ownerNamespace

/-- The name of one index within its namespace. -/
abbrev IndexName := Identifier indexName

/-- A caller-supplied idempotency key for one lifecycle operation. -/
abbrev OperationKey := Identifier operationKey

theorem Identifier.ext {g : Grammar} {a b : Identifier g} (h : a.value = b.value) : a = b := by
  cases a; cases b; cases h; rfl

instance {g : Grammar} : LinearOrder (Identifier g) :=
  LinearOrder.lift' Identifier.value (fun _ _ => Identifier.ext)

/-- The identity of one named index: its owner and its name. -/
structure IndexIdentity where
  ns : OwnerNamespace
  name : IndexName
deriving DecidableEq

/-- One published version of a named index, a non-zero `u64` counted from 1. -/
structure IndexVersion where
  get : Nat
  nonzero : 0 < get
  fits : get < UInt64.size
deriving DecidableEq

namespace IndexVersion

theorem ext {a b : IndexVersion} (h : a.get = b.get) : a = b := by
  cases a; cases b; cases h; rfl

instance : LinearOrder IndexVersion := LinearOrder.lift' get (fun _ _ => ext)

/-- The version Create publishes. -/
def FIRST : IndexVersion := ⟨1, by decide, by decide⟩

/-- `checked_add(1)`: none when the counter is exhausted. -/
def next? (v : IndexVersion) : Option IndexVersion :=
  if h : v.get + 1 < UInt64.size then some ⟨v.get + 1, Nat.succ_pos _, h⟩ else none

theorem le_iff {a b : IndexVersion} : a ≤ b ↔ a.get ≤ b.get := Iff.rfl

theorem lt_iff {a b : IndexVersion} : a < b ↔ a.get < b.get := Iff.rfl

theorem next?_get {v w : IndexVersion} (h : v.next? = some w) : w.get = v.get + 1 := by
  unfold next? at h
  split at h
  · cases h
    rfl
  · cases h

end IndexVersion

/-- The SHA-256 digest of one operation's canonical encoding. -/
structure OperationDigest where
  bytes : Bytes
  size : bytes.length = 32
deriving DecidableEq

/-- The identity of one lifecycle operation: the caller's key and the digest
of what the operation does. -/
structure OperationIdentity where
  key : OperationKey
  digest : OperationDigest
deriving DecidableEq

end Heurema
