import Heurema.Lifecycle.Backend
import Heurema.Lifecycle.Version

/-! # Snapshots of single indexes

An index is saved under a name as a versioned envelope of its family and its encoding. The
header is checked before the payload is decoded as an index. -/

namespace Heurema

open Serde

open Outcome (refuse mapError ofResult)

/-- The envelope version this build reads and writes. -/
def SNAPSHOT_FORMAT_VERSION : UInt16 := 1

namespace SnapshotFamily

def all : List SnapshotFamily := [vector, fts]

def name : SnapshotFamily → Str
  | vector => "Vector".toList
  | fts => "Fts".toList

instance : Codec SnapshotFamily where
  serialize family := .unitVariant family.name
  deserialize := readName all name

theorem stores [SerdeJson] (family : SnapshotFamily) : Stores 0 family :=
  ⟨.str family.name, by simp [serialize, Value.toJson], Nat.le_refl 0, by cases family <;> rfl⟩

end SnapshotFamily

/-- A JSON reader that can skip the values nobody asks for, whatever they hold and however
deep they nest. -/
class SkippingJson extends SerdeJson where
  /-- The JSON value a text holds, to a reader that skips. -/
  skipSlice : Bytes → Except String Json
  skipSlice_of_ok : ∀ bytes json, fromSlice bytes = .ok json → skipSlice bytes = .ok json

/-- The payload of an index under its format version and family. -/
structure SnapshotEnvelope (T : Type) where
  formatVersion : UInt16
  family : SnapshotFamily
  payload : T

/-- The part of an envelope that is read before its payload. -/
structure SnapshotHeader where
  formatVersion : UInt16
  family : SnapshotFamily
deriving DecidableEq

def SnapshotEnvelope.FIELDS : List Str :=
  ["format_version".toList, "family".toList, "payload".toList]

/-- The header of an envelope, which must have a payload of whatever kind. -/
def SnapshotHeader.read (json : Json) : Outcome String SnapshotHeader :=
  readRecord SnapshotEnvelope.FIELDS (fun found => do
    let formatVersion ← requiredField found 0
    let family ← requiredField found 1
    match found[2]?.join with
    | some _ => return ⟨formatVersion, family⟩
    | none => refuse "missing field") json

def validateHeader (formatVersion : UInt16) (family expected : SnapshotFamily) : Run Unit :=
  if formatVersion ≠ SNAPSHOT_FORMAT_VERSION then
    refuse (.unsupportedSnapshotVersion formatVersion.toNat SNAPSHOT_FORMAT_VERSION.toNat)
  else if family ≠ expected then
    refuse (.snapshotFormat ("expected " ++ String.ofList expected.name ++ " snapshot, found " ++
      String.ofList family.name))
  else .ok ()

/-- Bytes that the codec does not decode. -/
def decodeError {T : Type} (decoded : Outcome String T) : Run T :=
  mapError (fun _ => .corruptSnapshot .storage) decoded

namespace SnapshotEnvelope

variable {T : Type} [Codec T]

instance : Codec (SnapshotEnvelope T) where
  serialize envelope := record "SnapshotEnvelope".toList FIELDS [serialize envelope.formatVersion,
    serialize envelope.family, serialize envelope.payload]
  deserialize := readRecord FIELDS fun found => do
    return {
      formatVersion := ← requiredField found 0
      family := ← requiredField found 1
      payload := ← requiredField found 2 }

/-- Wraps a payload in the current format. -/
def new (family : SnapshotFamily) (payload : T) : SnapshotEnvelope T :=
  { formatVersion := SNAPSHOT_FORMAT_VERSION, family, payload }

omit [Codec T] in
/-- The payload, when version and family match. -/
def intoPayload (envelope : SnapshotEnvelope T) (expected : SnapshotFamily) : Run T := do
  validateHeader envelope.formatVersion envelope.family expected
  return envelope.payload

end SnapshotEnvelope

section Decoding

variable [SkippingJson] {T : Type} [Codec T]

/-- The header of an envelope in bytes. -/
def decodeHeader (bytes : Bytes) : Run SnapshotHeader :=
  decodeError do
    SnapshotHeader.read (← ofResult (SkippingJson.skipSlice bytes))

/-- Decodes a snapshot after its header was validated. -/
def decodeSnapshotPayload (bytes : Bytes) (expected : SnapshotFamily) : Run T := do
  let header ← decodeHeader bytes
  validateHeader header.formatVersion header.family expected
  let envelope : SnapshotEnvelope T ← decodeError (fromSlice bytes)
  envelope.intoPayload expected

end Decoding

/-! ## The trait -/

/-- A save on the state of a store, which may be refused or panic. -/
abbrev SaveM (σ α : Type) := Locked (Failure HeuremaError) σ α

/-- A store of named snapshots, as the operations on its state. -/
class PersistenceBackend (σ : Type) where
  saveVectorIndex {I : Type} [Codec I] (name : Str) (idx : I) : SaveM σ Unit
  loadVectorIndex {I : Type} [Codec I] (name : Str) (state : σ) : Run I
  saveFtsIndex {I : Type} [Codec I] (name : Str) (idx : I) : SaveM σ Unit
  loadFtsIndex {I : Type} [Codec I] (name : Str) (state : σ) : Run I

/-! ## Envelopes -/

section Envelopes

theorem validateHeader_ok (expected : SnapshotFamily) :
    validateHeader SNAPSHOT_FORMAT_VERSION expected expected = .ok () := by
  simp [validateHeader]

variable {U : Type} [Codec U]

/-- The JSON of an envelope, over that of its payload. -/
theorem SnapshotEnvelope.wrote [SerdeJson] (envelope : SnapshotEnvelope U) {json : Json}
    (hjson : (serialize envelope.payload).toJson = .ok json) :
    ∃ format family, Writes 0 envelope.formatVersion format ∧ Writes 0 envelope.family family ∧
      (serialize envelope).toJson = .ok (.obj (FIELDS.zip [format, family, json])) := by
  obtain ⟨format, hformat⟩ := stores_uint16 envelope.formatVersion
  obtain ⟨family, hfamily⟩ := envelope.family.stores
  refine ⟨format, family, hformat, hfamily, toJson_record (by decide) ?_⟩
  simp [Value.toItems, hformat.wrote, hfamily.wrote, hjson]

omit [Codec U] in
/-- The JSON of an envelope nests one level deeper than that of its payload. -/
theorem SnapshotEnvelope.depth [SerdeJson] {envelope : SnapshotEnvelope U} {format family json : Json}
    (hformat : Writes 0 envelope.formatVersion format) (hfamily : Writes 0 envelope.family family)
    {d : Nat} (hdepth : json.depth ≤ d) :
    (Json.obj (FIELDS.zip [format, family, json])).depth ≤ d + 1 := by
  refine Json.depth_obj fun field hfield => ?_
  have hitem := (List.of_mem_zip hfield).2
  simp only [List.mem_cons, List.not_mem_nil, or_false] at hitem
  rcases hitem with hitem | hitem | hitem
  · rw [hitem]
    exact hformat.depth.trans (Nat.zero_le d)
  · rw [hitem]
    exact hfamily.depth.trans (Nat.zero_le d)
  · rw [hitem]
    exact hdepth

variable [SkippingJson] {T : Type} [Codec T]

/-- What an envelope decodes to as another type: its header is checked first, and then its
payload is whatever the type reads from the JSON of the payload. -/
theorem SnapshotEnvelope.decodes (envelope : SnapshotEnvelope U) {json : Json}
    (hjson : (serialize envelope.payload).toJson = .ok json) (hdepth : json.depth ≤ 126)
    {bytes : Bytes} (hbytes : toVec envelope = .ok bytes) (expected : SnapshotFamily) :
    decodeSnapshotPayload (T := T) bytes expected = (do
      validateHeader envelope.formatVersion envelope.family expected
      decodeError (deserialize json)) := by
  obtain ⟨format, family, hformat, hfamily, hwrote⟩ := envelope.wrote hjson
  have hwhole := depth hformat hfamily hdepth
  rw [toVec, hwrote] at hbytes
  cases hbytes
  have hslice := SerdeJson.fromSlice_toVec _ hwhole
  have hskip := SkippingJson.skipSlice_of_ok _ _ hslice
  have hheader : decodeHeader (Json.obj (FIELDS.zip [format, family, json])).toVec =
      .ok ⟨envelope.formatVersion, envelope.family⟩ := by
    simp only [decodeHeader, decodeError, hskip, Outcome.ofResult_ok, Outcome.ok_bind]
    rw [SnapshotHeader.read, readRecord_zip rfl (by decide)]
    simp [requiredField, hformat.read, hfamily.read, mapError]
  have hpayload : (decodeError (fromSlice (Json.obj (FIELDS.zip [format, family, json])).toVec) :
      Run (SnapshotEnvelope T)) = (do
        let payload ← decodeError (deserialize json)
        return ⟨envelope.formatVersion, envelope.family, payload⟩) := by
    simp only [decodeError, fromSlice, hslice, Outcome.ofResult_ok, Outcome.ok_bind]
    rw [show (deserialize : Json → Outcome String (SnapshotEnvelope T)) = readRecord FIELDS _ from rfl,
      readRecord_zip rfl (by decide)]
    simp only [requiredField, List.map_cons, List.map_nil, List.getElem?_cons_zero,
      List.getElem?_cons_succ, Option.join_some, hformat.read, hfamily.read, Outcome.ok_bind]
    cases (deserialize json : Outcome String T) with
    | ok payload => rfl
    | error failure => cases failure <;> rfl
  rw [decodeSnapshotPayload, hheader, Outcome.ok_bind, hpayload]
  cases hvalid : validateHeader envelope.formatVersion envelope.family expected with
  | error failure => rfl
  | ok checked =>
    cases decodeError (deserialize json : Outcome String T) with
    | error failure => rfl
    | ok payload =>
      simp [SnapshotEnvelope.intoPayload, hvalid]

end Envelopes

end Heurema
