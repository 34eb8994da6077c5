import Heurema.Identity
import Heurema.Data.Float
import Heurema.Data.Outcome

/-! # Errors

Every refusal of the library with the fields it carries, and the conversions
of raw text and numbers that raise them. A computation that can also panic
says so in its type. -/

namespace Heurema

/-- Which index family a payload belongs to. -/
inductive SnapshotFamily where
  | vector
  | fts
deriving DecidableEq, Repr

/-- The named transitions of an index's lifecycle. -/
inductive LifecycleTransition where
  | create
  | insert
  | remove
  | rebuild
  | publish
  | recover
  | destroy
deriving DecidableEq, Repr

/-- The state of an index, without what the state carries. -/
inductive IndexStateKind where
  | absent
  | active
  | destroyed
deriving DecidableEq, Repr

/-- The source an error over stored bytes carries. -/
inductive Cause where
  /-- Bytes of the named record that do not decode. -/
  | undecodableRecord (record : String)
  /-- A decoded record that contradicts its key or its own invariants. -/
  | inconsistentRecord (reason : String)
  | malformedKey (key : Str) (reason : String)
  | unpairedQuarantineEntry (sequence : Nat) (reason : String)
  | quarantineSequenceExhausted
  | oversizedValue (what : String) (len limit : Nat)
  /-- A failure of the storage or of the codec under it. -/
  | storage
deriving DecidableEq

/-- The identities of an operation-key conflict. -/
structure OperationConflictDetail where
  index : IndexIdentity
  key : OperationKey
  recorded : OperationDigest
  requested : OperationDigest
deriving DecidableEq

inductive HeuremaError where
  | dimensionMismatch (expected actual : Nat)
  | invalidVector (reason : String)
  | distanceNotRepresentable (reason : String)
  | invalidHnswConfig (reason : String)
  | snapshotFormat (reason : String)
  | unsupportedSnapshotVersion (found supported : Nat)
  | corruptSnapshot (source : Cause)
  | invalidKConstant (kConstant : F32)
  | indexNotFound (name : String)
  | persistence (source : Cause)
  | notYetImplemented (feature : String)
  | invalidIdentifier (kind : IdentifierKind) (value : Str) (reason : String)
  | familyMismatch (expected actual : SnapshotFamily)
  | duplicateMember (member : String)
  | emptyBatch (transition : LifecycleTransition)
  | transitionNotPermitted (index : IndexIdentity) (transition : LifecycleTransition)
      (state : IndexStateKind)
  | recordMismatch (expected actual : IndexIdentity)
  | unencodableOperation (reason : String)
  | stagedStateExists (index : IndexIdentity) (version : IndexVersion)
  | headChanged (index : IndexIdentity)
  | operationConflict (conflict : OperationConflictDetail)
  | stagedStateMissing (index : IndexIdentity) (version : IndexVersion)
  | operationRecorded (index : IndexIdentity) (key : OperationKey)
  | writerHeld
  | versionStored (index : IndexIdentity) (version : IndexVersion)
deriving DecidableEq

/-- The class of failure an error belongs to. -/
inductive ErrorCategory where
  | refused
  | notFound
  | unsupported
  | corrupt
  | storage
  | conflict
  | recoveryRequired
deriving DecidableEq, Repr

def HeuremaError.category : HeuremaError → ErrorCategory
  | dimensionMismatch _ _ | invalidVector _ | distanceNotRepresentable _ | invalidHnswConfig _
  | invalidKConstant _ | invalidIdentifier _ _ _ | familyMismatch _ _ | duplicateMember _
  | emptyBatch _ | transitionNotPermitted _ _ _ | recordMismatch _ _ | unencodableOperation _
  | writerHeld => .refused
  | indexNotFound _ => .notFound
  | notYetImplemented _ | unsupportedSnapshotVersion _ _ => .unsupported
  | snapshotFormat _ | corruptSnapshot _ | versionStored _ _ => .corrupt
  | persistence _ => .storage
  | headChanged _ | operationConflict _ | stagedStateMissing _ _ | operationRecorded _ _ =>
    .conflict
  | stagedStateExists _ _ => .recoveryRequired

/-- The outcome of a library call that may panic. -/
abbrev Run := Outcome HeuremaError

/-- One more than the largest `usize` of the 64-bit targets. -/
def usizeLimit : Nat := UInt64.size

/-- Checked `usize` addition: an overflow panics. -/
def usizeAdd {ε : Type} (a b : Nat) : Outcome ε Nat :=
  if a + b < usizeLimit then .ok (a + b) else Outcome.panic "attempt to add with overflow"

theorem usizeAdd_ok {ε : Type} {a b : Nat} (h : a + b < usizeLimit) :
    (usizeAdd a b : Outcome ε Nat) = .ok (a + b) :=
  if_pos h

/-! ## Checking raw identifiers -/

/-- How much of a refused value an error echoes. -/
def REPORTED_VALUE_CHARS : Nat := 64

def reported (value : Str) : Str := value.take REPORTED_VALUE_CHARS

def refusal (kind : IdentifierKind) (value : Str) (reason : String) : HeuremaError :=
  .invalidIdentifier kind (reported value) reason

namespace Grammar

def pattern (g : Grammar) : String :=
  let lead := if g.uppercase then "A-Za-z0-9" else "a-z0-9"
  "[" ++ lead ++ "][" ++ lead ++ String.ofList g.punctuation ++ "]\x7b0," ++
    toString (g.maxLen - 1) ++ "\x7d"

variable [Unicode]

def check (g : Grammar) (value : Str) : Except HeuremaError Unit :=
  if value.isEmpty then
    .error (refusal g.kind value ("is empty; expected " ++ g.pattern))
  else if value.byteLen > g.maxLen then
    .error (refusal g.kind value ("is " ++ toString value.byteLen ++
      " bytes; the limit is " ++ toString g.maxLen))
  else match g.refused 0 value with
    | some (offset, character) =>
      .error (refusal g.kind value ("has " ++ Unicode.debugChar character ++ " at byte " ++
        toString offset ++ "; expected " ++ g.pattern))
    | none => .ok ()

theorem check_eq_ok {g : Grammar} {value : Str} :
    g.check value = .ok () ↔ g.accepts value = true := by
  unfold check accepts
  split
  · next h => simp [h]
  · next h =>
    split
    · next hlen => simp [show ¬ value.byteLen ≤ g.maxLen by omega]
    · next hlen => split <;> simp_all

end Grammar

namespace Identifier

variable [Unicode]

/-- The only way from raw text to an identifier. -/
def tryFrom (g : Grammar) (value : Str) : Except HeuremaError (Identifier g) :=
  match h : g.check value with
  | .error e => .error e
  | .ok () => .ok ⟨value, Grammar.check_eq_ok.mp h⟩

@[simp] theorem tryFrom_value {g : Grammar} (id : Identifier g) :
    tryFrom g id.value = .ok id := by
  have h := Grammar.check_eq_ok.mpr id.accepted
  unfold tryFrom
  split
  · next heq => simp [h] at heq
  · rfl

theorem tryFrom_eq_ok {g : Grammar} {value : Str} {id : Identifier g}
    (h : tryFrom g value = .ok id) : id.value = value := by
  unfold tryFrom at h
  split at h
  · cases h
  · cases h
    rfl

end Identifier

namespace IndexVersion

def successor (v : IndexVersion) : Except HeuremaError IndexVersion :=
  match v.next? with
  | some next => .ok next
  | none => .error (refusal .indexVersion (toString v.get).toList "version counter exhausted")

/-- A version from a stored `u64`. -/
def tryFrom (value : Nat) (fits : value < UInt64.size) : Except HeuremaError IndexVersion :=
  if h : 0 < value then .ok ⟨value, h, fits⟩
  else .error (refusal .indexVersion "0".toList "versions start at 1")

theorem successor_eq_ok {v w : IndexVersion} :
    v.successor = .ok w ↔ v.next? = some w := by
  unfold successor
  cases v.next? <;> simp

@[simp] theorem tryFrom_get (v : IndexVersion) : tryFrom v.get v.fits = .ok v := by
  simp [tryFrom, v.nonzero]

end IndexVersion

end Heurema
