import Heurema.Data.Serde
import Heurema.Fts.Bm25
import Heurema.Hnsw.Engine

/-! # The scalars of the stored records

The `serde` impls of identifiers, versions, digests and configurations. Every
value of these types stores. -/

namespace Heurema

open Serde

variable [SerdeJson]

/-! ## Versions -/

instance : Codec IndexVersion where
  serialize version := serialize version.get
  deserialize json := do
    let raw ← readUint UInt64.size json
    if h : raw < UInt64.size then
      match IndexVersion.tryFrom raw h with
      | .ok version => return version
      | .error _ => Outcome.refuse "invalid value"
    else Outcome.refuse "invalid value"

theorem IndexVersion.stores (version : IndexVersion) : Stores 0 version := by
  obtain ⟨json, hjson, hdepth, hread⟩ := Stores.usize version.fits
  have hread : readUint UInt64.size json = .ok version.get := hread
  exact ⟨json, hjson, hdepth, by simp [deserialize, hread, version.fits]⟩

theorem IndexVersion.present (version : IndexVersion) : Present version := by
  simp [Present, serialize, Value.toJson]

/-! ## Enumerations -/

namespace LifecycleTransition

def all : List LifecycleTransition := [create, insert, remove, rebuild, publish, recover, destroy]

def name : LifecycleTransition → Str
  | create => "Create".toList
  | insert => "Insert".toList
  | remove => "Remove".toList
  | rebuild => "Rebuild".toList
  | publish => "Publish".toList
  | recover => "Recover".toList
  | destroy => "Destroy".toList

instance : Codec LifecycleTransition where
  serialize transition := .unitVariant transition.name
  deserialize := readName all name

theorem stores (transition : LifecycleTransition) : Stores 0 transition :=
  ⟨.str transition.name, by simp [serialize, Value.toJson], Nat.le_refl 0, by
    cases transition <;> rfl⟩

end LifecycleTransition

namespace Hnsw

namespace VectorDistance

def all : List VectorDistance := [l2, cosine, innerProduct]

def name : VectorDistance → Str
  | l2 => "L2".toList
  | cosine => "Cosine".toList
  | innerProduct => "InnerProduct".toList

instance : Codec VectorDistance where
  serialize distance := .unitVariant distance.name
  deserialize := readName all name

theorem stores (distance : VectorDistance) : Stores 0 distance :=
  ⟨.str distance.name, by simp [serialize, Value.toJson], Nat.le_refl 0, by
    cases distance <;> rfl⟩

end VectorDistance

/-! ## Configurations -/

namespace HnswConfig

def FIELDS : List Str :=
  ["dimensions".toList, "distance".toList, "ef_construction".toList, "m_neighbours".toList]

instance : Codec HnswConfig where
  serialize config :=
    record "HnswConfig".toList FIELDS [serialize config.dimensions, serialize config.distance,
      serialize config.efConstruction, serialize config.mNeighbours]
  deserialize := readRecord FIELDS fun found => do
    let dimensions : Nat ← requiredField found 0
    let distance ← requiredField found 1
    let efConstruction : Nat ← requiredField found 2
    let mNeighbours : Nat ← requiredField found 3
    if fits : dimensions < usizeLimit ∧ efConstruction < usizeLimit ∧ mNeighbours < usizeLimit then
      return { dimensions, distance, efConstruction, mNeighbours, fits }
    else Outcome.refuse "invalid value"

theorem stores (config : HnswConfig) : Stores 1 config := by
  obtain ⟨dimensions, hdimensions⟩ := Stores.usize config.fits.1
  obtain ⟨distance, hdistance⟩ := config.distance.stores
  obtain ⟨efConstruction, hef⟩ := Stores.usize config.fits.2.1
  obtain ⟨mNeighbours, hm⟩ := Stores.usize config.fits.2.2
  refine .record rfl rfl (.cons hdimensions (.cons hdistance (.cons hef (.cons hm .nil)))) rfl
    (by decide) (by decide) ?_
  simp [requiredField, hdimensions.read, hdistance.read, hef.read, hm.read, config.fits]

end HnswConfig

end Hnsw

namespace TokenizerConfig

def FIELDS : List Str := ["name".toList, "args".toList]

instance : Codec TokenizerConfig where
  serialize config :=
    record "TokenizerConfig".toList FIELDS [serialize config.name, serialize config.args]
  deserialize := readRecord FIELDS fun found => do
    return { name := ← requiredField found 0, args := ← requiredField found 1 }

theorem stores (config : TokenizerConfig) : Stores 2 config := by
  obtain ⟨name, hname⟩ := Stores.str config.name
  obtain ⟨args, hargs⟩ := Stores.list fun arg (_ : arg ∈ config.args) => Stores.str arg
  exact .record rfl rfl (.cons hname (.cons hargs .nil)) rfl (by decide) (by decide)
    (by simp [requiredField, hname.read, hargs.read])

end TokenizerConfig

namespace FtsConfig

def FIELDS : List Str := ["tokenizer".toList, "filters".toList]

instance : Codec FtsConfig where
  serialize config :=
    record "FtsConfig".toList FIELDS [serialize config.tokenizer, serialize config.filters]
  deserialize := readRecord FIELDS fun found => do
    return { tokenizer := ← requiredField found 0, filters := ← requiredField found 1 }

theorem stores (config : FtsConfig) : Stores 4 config := by
  obtain ⟨tokenizer, htokenizer⟩ := config.tokenizer.stores
  obtain ⟨filters, hfilters⟩ :=
    Stores.list fun filter (_ : filter ∈ config.filters) => filter.stores
  exact .record rfl rfl (.cons htokenizer (.cons hfilters .nil)) rfl (by decide) (by decide)
    (by simp [requiredField, htokenizer.read, hfilters.read])

end FtsConfig

variable [Unicode]

/-! ## Digests -/

namespace OperationDigest

def HEX_LEN : Nat := 64

/-- The `Display` form. -/
def hex (digest : OperationDigest) : Str :=
  digest.bytes.flatMap fun byte =>
    [Json.hexDigit (byte.toNat / 16), Json.hexDigit (byte.toNat % 16)]

def lowercaseHexNibble (digit : Char) : Option Nat :=
  if digit.isDigit then some (digit.toNat - '0'.toNat)
  else if 'a' ≤ digit ∧ digit ≤ 'f' then some (digit.toNat - 'a'.toNat + 10)
  else none

/-- The value of every digit, or the first character that is none and its offset. -/
def nibbles (offset : Nat) : Str → Except (Nat × Char) (List Nat)
  | [] => .ok []
  | character :: rest =>
    match lowercaseHexNibble character with
    | none => .error (offset, character)
    | some nibble => do return nibble :: (← nibbles (offset + character.utf8Size) rest)

def assemble : List Nat → Bytes
  | high :: low :: rest => UInt8.ofNat (high * 16 + low) :: assemble rest
  | _ => []

def tryFrom (value : Str) : Except HeuremaError OperationDigest :=
  if value.byteLen ≠ HEX_LEN then
    .error (refusal .operationDigest value ("is " ++ toString value.byteLen ++
      " bytes; expected exactly " ++ toString HEX_LEN ++ " lowercase hex digits"))
  else match nibbles 0 value with
    | .error (offset, character) =>
      .error (refusal .operationDigest value ("has " ++ Unicode.debugChar character ++
        " at byte " ++ toString offset ++ "; expected lowercase hex [0-9a-f]"))
    | .ok nibbles =>
      let bytes := assemble nibbles
      if h : bytes.length = 32 then .ok ⟨bytes, h⟩
      -- 64 digits are 32 bytes.
      else .error (refusal .operationDigest value "")

omit [Unicode] [SerdeJson] in
theorem hexDigit_spec : ∀ n < 16, (Json.hexDigit n).utf8Size = 1 ∧
    lowercaseHexNibble (Json.hexDigit n) = some n := by
  decide

omit [Unicode] [SerdeJson] in
theorem nibbles_hex (bytes : Bytes) (offset : Nat) :
    ∃ values, nibbles offset (bytes.flatMap fun byte =>
      [Json.hexDigit (byte.toNat / 16), Json.hexDigit (byte.toNat % 16)]) = .ok values ∧
      assemble values = bytes := by
  induction bytes generalizing offset with
  | nil => exact ⟨[], rfl, rfl⟩
  | cons byte bytes ih =>
    obtain ⟨values, hvalues, hbytes⟩ := ih (offset + 1 + 1)
    have hbyte : byte.toNat < 256 := byte.toNat_lt
    obtain ⟨hhighSize, hhigh⟩ := hexDigit_spec (byte.toNat / 16) (by omega)
    obtain ⟨hlowSize, hlow⟩ := hexDigit_spec (byte.toNat % 16) (by omega)
    refine ⟨byte.toNat / 16 :: byte.toNat % 16 :: values, ?_, ?_⟩
    · simp [nibbles, hhigh, hlow, hhighSize, hlowSize, hvalues]
    · rw [assemble, hbytes]
      congr 1
      have : byte.toNat / 16 * 16 + byte.toNat % 16 = byte.toNat := by omega
      rw [this, UInt8.ofNat_toNat]

omit [Unicode] [SerdeJson] in
theorem hex_byteLen (digest : OperationDigest) : digest.hex.byteLen = HEX_LEN := by
  have hlen (bytes : Bytes) : Str.byteLen (bytes.flatMap fun byte =>
      [Json.hexDigit (byte.toNat / 16), Json.hexDigit (byte.toNat % 16)]) = 2 * bytes.length := by
    induction bytes with
    | nil => rfl
    | cons byte bytes ih =>
      have hbyte : byte.toNat < 256 := byte.toNat_lt
      have hhigh := (hexDigit_spec (byte.toNat / 16) (by omega)).1
      have hlow := (hexDigit_spec (byte.toNat % 16) (by omega)).1
      rw [List.flatMap_cons, Str.byteLen_append, ih]
      simp only [Str.byteLen_cons, Str.byteLen_nil, hhigh, hlow, List.length_cons]
      omega
  rw [hex, hlen, digest.size, HEX_LEN]

omit [SerdeJson] in
/-- One digest has one text form. -/
@[simp] theorem tryFrom_hex (digest : OperationDigest) : tryFrom digest.hex = .ok digest := by
  obtain ⟨values, hvalues, hbytes⟩ := nibbles_hex digest.bytes 0
  have hnibbles : nibbles 0 digest.hex = .ok values := hvalues
  simp [tryFrom, hex_byteLen, hnibbles, hbytes, digest.size]

end OperationDigest

/-! ## Identifiers -/

/-- `serde(try_from, into)`: the impls of a type that converts to another. -/
def readInto {α β : Type} [Codec α] (tryFrom : α → Except HeuremaError β) (json : Json) :
    Outcome String β := do
  let raw ← deserialize json
  match tryFrom raw with
  | .ok value => return value
  | .error _ => Outcome.refuse "invalid value"

instance {g : Grammar} : Codec (Identifier g) where
  serialize id := serialize id.value
  deserialize := readInto (Identifier.tryFrom g)

instance : Codec OperationDigest where
  serialize digest := serialize digest.hex
  deserialize := readInto OperationDigest.tryFrom

omit [Unicode] in
/-- A type that converts to a type whose value stores. -/
theorem stores_into {α β : Type} [Codec α] [Codec β] {d : Nat} {value : β} {raw : α}
    {tryFrom : α → Except HeuremaError β} (hraw : Stores d raw)
    (hserialize : serialize value = serialize raw)
    (hdeserialize : (deserialize : Json → Outcome String β) = readInto tryFrom)
    (hback : tryFrom raw = .ok value) : Stores d value := by
  obtain ⟨json, hjson, hdepth, hread⟩ := hraw
  refine ⟨json, hserialize ▸ hjson, hdepth, ?_⟩
  rw [hdeserialize, readInto, hread, Outcome.ok_bind, hback]
  rfl

theorem Identifier.stores {g : Grammar} (id : Identifier g) : Stores 0 id :=
  stores_into (.str id.value) rfl rfl (tryFrom_value id)

theorem OperationDigest.stores (digest : OperationDigest) : Stores 0 digest :=
  stores_into (.str digest.hex) rfl rfl (tryFrom_hex digest)

/-! ## Identities -/

namespace IndexIdentity

def FIELDS : List Str := ["namespace".toList, "name".toList]

instance : Codec IndexIdentity where
  serialize index :=
    record "IndexIdentity".toList FIELDS [serialize index.ns, serialize index.name]
  deserialize := readRecord FIELDS fun found => do
    return { ns := ← requiredField found 0, name := ← requiredField found 1 }

theorem stores (index : IndexIdentity) : Stores 1 index := by
  obtain ⟨ns, hns⟩ := index.ns.stores
  obtain ⟨name, hname⟩ := index.name.stores
  exact .record rfl rfl (.cons hns (.cons hname .nil)) rfl (by decide) (by decide)
    (by simp [requiredField, hns.read, hname.read])

end IndexIdentity

namespace OperationIdentity

def FIELDS : List Str := ["key".toList, "digest".toList]

instance : Codec OperationIdentity where
  serialize operation :=
    record "OperationIdentity".toList FIELDS [serialize operation.key, serialize operation.digest]
  deserialize := readRecord FIELDS fun found => do
    return { key := ← requiredField found 0, digest := ← requiredField found 1 }

theorem stores (operation : OperationIdentity) : Stores 1 operation := by
  obtain ⟨key, hkey⟩ := operation.key.stores
  obtain ⟨digest, hdigest⟩ := operation.digest.stores
  exact .record rfl rfl (.cons hkey (.cons hdigest .nil)) rfl (by decide) (by decide)
    (by simp [requiredField, hkey.read, hdigest.read])

end OperationIdentity

end Heurema
