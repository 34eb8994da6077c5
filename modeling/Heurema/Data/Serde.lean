import Heurema.Data.Float
import Heurema.Data.Json
import Heurema.Data.Outcome
import Heurema.Data.TreeMap

/-! # Serialization

`Value` is the data model a type serializes to, `Value.toJson` its JSON form, and
`Serde` a type that is written to the data model and read back from JSON. A value
`Stores` within a depth when its JSON nests no deeper and reads back as it. The
records, enums and maps of such values store too. -/

namespace Serde

/-- The machine integers of the data model. -/
inductive IntKind where
  | u8 | u16 | u32 | u64 | u128 | i8 | i16 | i32 | i64 | i128
deriving DecidableEq, Repr

def IntKind.width : IntKind → Nat
  | u8 | i8 => 8
  | u16 | i16 => 16
  | u32 | i32 => 32
  | u64 | i64 => 64
  | u128 | i128 => 128

def IntKind.signed : IntKind → Bool
  | u8 | u16 | u32 | u64 | u128 => false
  | i8 | i16 | i32 | i64 | i128 => true

/-- What a `Serialize` impl hands to a serializer. A tuple and a tuple struct
are sequences. -/
inductive Value where
  /-- The impl returns an error of its own here. -/
  | failed (reason : String)
  | bool (value : Bool)
  | int (kind : IntKind) (bits : BitVec kind.width)
  | f32 (value : F32)
  | f64 (value : F64)
  | char (value : Char)
  | str (value : Str)
  | bytes (value : Bytes)
  | none
  | some (value : Value)
  /-- A unit or a unit struct. -/
  | unit
  | unitVariant (variant : Str)
  | newtypeStruct (value : Value)
  | newtypeVariant (variant : Str) (value : Value)
  | seq (elements : List Value)
  | tupleVariant (variant : Str) (elements : List Value)
  | map (entries : List (Value × Value))
  | struct (name : Str) (fields : List (Str × Value))
  | structVariant (variant : Str) (fields : List (Str × Value))

/-- The codec under the records: the text of floats and the JSON reader. -/
class SerdeJson where
  f32Text : F32 → JsonNumber
  f64Text : F64 → JsonNumber
  readF32 : JsonNumber → Option F32
  /-- The JSON value a text holds. -/
  fromSlice : Bytes → Except String Json
  readF32_f32Text : ∀ x : F32, x.isFinite = true → readF32 (f32Text x) = some x
  /-- Text that nests within the recursion limit reads back. -/
  fromSlice_toVec : ∀ json : Json, json.depth ≤ 127 → fromSlice json.toVec = .ok json

/-- The struct name of a number that keeps its text; its one field holds it. -/
def SERDE_JSON_NUMBER : Str := "$serde_json::private::Number".toList

/-- The struct name of unparsed JSON text. -/
def SERDE_JSON_RAW_VALUE : Str := "$serde_json::private::RawValue".toList

namespace Value

def intText (kind : IntKind) (bits : BitVec kind.width) : JsonNumber :=
  if kind.signed then .ofInt bits.toInt else .ofNat bits.toNat

/-- The number a struct of its text stands for. -/
def numberText : List (Str × Value) → Except String Json
  | [(_, .str text)] =>
    if h : isNumber text = true then .ok (.num ⟨text, h⟩) else .error "invalid number"
  | _ => .error "invalid number"

variable [SerdeJson]

/-- A float that is not finite has no JSON number. -/
def isFinite64 (x : F64) : Bool := x.bits &&& 0x7ff0000000000000#64 != 0x7ff0000000000000#64

/-- The text of a value as the key of an object. -/
def toKey : Value → Except String Str
  | failed reason => .error reason
  | str value => .ok value
  | char value => .ok [value]
  | bool value => .ok (if value then "true".toList else "false".toList)
  | int kind bits => .ok (intText kind bits).text
  | f32 value =>
    if value.isFinite then .ok (SerdeJson.f32Text value).text
    else .error "float key must be finite (got NaN or +/-inf)"
  | f64 value =>
    if isFinite64 value then .ok (SerdeJson.f64Text value).text
    else .error "float key must be finite (got NaN or +/-inf)"
  | unitVariant variant => .ok variant
  | newtypeStruct value => toKey value
  | some value => toKey value
  | _ => .error "key must be a string"

mutual

/-- What `serde_json` writes. -/
@[simp] def toJson : Value → Except String Json
  | failed reason => .error reason
  | bool value => .ok (.bool value)
  | int kind bits => .ok (.num (intText kind bits))
  | f32 value => .ok (if value.isFinite then .num (SerdeJson.f32Text value) else .null)
  | f64 value => .ok (if isFinite64 value then .num (SerdeJson.f64Text value) else .null)
  | char value => .ok (.str [value])
  | str value => .ok (.str value)
  | bytes value => .ok (.arr (value.map fun byte => .num (.ofNat byte.toNat)))
  | none | unit => .ok .null
  | some value => toJson value
  | unitVariant variant => .ok (.str variant)
  | newtypeStruct value => toJson value
  | newtypeVariant variant value => do return .obj [(variant, ← toJson value)]
  | seq elements => do return .arr (← toItems elements)
  | tupleVariant variant elements => do return .obj [(variant, .arr (← toItems elements))]
  | map entries => do return .obj (← toEntries entries)
  | struct name fields =>
    if name = SERDE_JSON_NUMBER then numberText fields
    -- The canonical encoding refuses unparsed text before it is written.
    else if name = SERDE_JSON_RAW_VALUE then .error "unparsed JSON text"
    else do return .obj (← toFields fields)
  | structVariant variant fields => do return .obj [(variant, .obj (← toFields fields))]

def toItems : List Value → Except String (List Json)
  | [] => .ok []
  | value :: values => do
    let item ← toJson value
    return item :: (← toItems values)

def toFields : List (Str × Value) → Except String (List (Str × Json))
  | [] => .ok []
  | (name, value) :: fields => do
    let json ← toJson value
    return (name, json) :: (← toFields fields)

def toEntries : List (Value × Value) → Except String (List (Str × Json))
  | [] => .ok []
  | (key, value) :: entries => do
    let key ← toKey key
    let json ← toJson value
    return (key, json) :: (← toEntries entries)

end

end Value

/-! ## Types that are written and read back -/

/-- A type with its `Serialize` and `Deserialize` impls, the latter over JSON. -/
class Codec (α : Type) where
  serialize : α → Value
  deserialize : Json → Outcome String α

/-- A type whose values also key the objects that maps are written as. -/
class KeyCodec (κ : Type) extends Codec κ where
  deserializeKey : Str → Outcome String κ

export Codec (serialize deserialize)
export KeyCodec (deserializeKey)

section Readers

variable {α : Type} [Codec α]

/-- The values a struct gives its fields, in their order: an object names each
field once at most, and an array lists them all. -/
def readField (names : List Str) (deny : Bool) (found : List (Option Json)) (field : Str × Json) :
    Outcome String (List (Option Json)) :=
  match names.idxOf? field.1 with
  | .none => if deny then Outcome.refuse "unknown field" else .ok found
  | .some i =>
    if (found[i]?.join).isSome then Outcome.refuse "duplicate field"
    else .ok (found.set i (.some field.2))

def readStruct (names : List Str) (deny : Bool) : Json → Outcome String (List (Option Json))
  | .obj fields => fields.foldlM (readField names deny) (names.map fun _ => .none)
  | .arr items =>
    if items.length = names.length then .ok (items.map .some) else Outcome.refuse "invalid length"
  | _ => Outcome.refuse "invalid type"

/-- A struct that refuses unknown fields, built from what its fields hold. -/
def readRecord {ρ : Type} (names : List Str) (build : List (Option Json) → Outcome String ρ)
    (json : Json) : Outcome String ρ := do
  build (← readStruct names true json)

/-- The field at a position. -/
def requiredField (found : List (Option Json)) (i : Nat) : Outcome String α :=
  match found[i]?.join with
  | .some json => deserialize json
  | .none => Outcome.refuse "missing field"

/-- The variant an externally tagged enum names, and its content. -/
def readVariant : Json → Outcome String (Str × Option Json)
  | .str variant => .ok (variant, .none)
  | .obj [(variant, content)] => .ok (variant, .some content)
  | _ => Outcome.refuse "invalid type"

/-- The content of a variant that has one. -/
def readContent : Option Json → Outcome String Json
  | .some json => .ok json
  | .none => Outcome.refuse "invalid type"

/-- A variant without content. -/
def readUnit : Option Json → Outcome String Unit
  | .none | .some .null => .ok ()
  | .some _ => Outcome.refuse "invalid type"

/-- An enum of unit variants, by their names. -/
def readName {ε : Type} (all : List ε) (name : ε → Str) (json : Json) : Outcome String ε := do
  let tagged ← readVariant json
  match all.find? fun e => name e = tagged.1 with
  | .some e => do
    readUnit tagged.2
    return e
  | .none => Outcome.refuse "unknown variant"

/-- An unsigned integer below a limit. -/
def readUint (limit : Nat) : Json → Outcome String Nat
  | .num number =>
    match number.toNat? with
    | .some n => if n < limit then .ok n else Outcome.refuse "invalid value"
    | .none => Outcome.refuse "invalid type"
  | _ => Outcome.refuse "invalid type"

def readItems : Json → Outcome String (List α)
  | .arr items => items.mapM deserialize
  | _ => Outcome.refuse "invalid type"

variable {κ ν : Type} [LinearOrder κ] [KeyCodec κ]

/-- One step of a map visitor that refuses a repeated key. -/
def readEntry (repeated : κ → String) (read : Json → Outcome String ν) (entries : BTreeMap κ ν)
    (field : Str × Json) : Outcome String (BTreeMap κ ν) := do
  let key ← deserializeKey field.1
  let value ← read field.2
  if key ∈ entries then Outcome.refuse (repeated key)
  else return entries.insert key value

/-- `UniqueKeys`: a map that names each key once. -/
def readMap (repeated : κ → String) (read : Json → Outcome String ν) :
    Json → Outcome String (BTreeMap κ ν)
  | .obj fields => fields.foldlM (readEntry repeated read) ∅
  | _ => Outcome.refuse "invalid type"

/-- `unique_map`. -/
def uniqueMap (read : Json → Outcome String ν) (json : Json) : Outcome String (BTreeMap κ ν) :=
  readMap (fun _ => "a stored map names one key twice") read json

end Readers

section Instances

variable {α : Type} [Codec α]

instance : KeyCodec Str where
  serialize := .str
  deserialize
    | .str value => .ok value
    | _ => Outcome.refuse "invalid type"
  deserializeKey := .ok

/-- A `usize`. -/
instance : Codec Nat where
  serialize n := .int .u64 (BitVec.ofNat _ n)
  deserialize := readUint UInt64.size

instance [SerdeJson] : Codec F32 where
  serialize := .f32
  deserialize
    | .num number =>
      match SerdeJson.readF32 number with
      | .some x => .ok x
      | .none => Outcome.refuse "invalid value"
    | _ => Outcome.refuse "invalid type"

instance : Codec (Option α) where
  serialize
    | .none => .none
    | .some value => .some (serialize value)
  deserialize
    | .null => .ok .none
    | json => do return .some (← deserialize json)

instance : Codec (List α) where
  serialize values := .seq (values.map serialize)
  deserialize := readItems

instance [LinearOrder α] : Codec (BTreeSet α) where
  serialize values := .seq (values.toList.map serialize)
  deserialize json := do return BTreeSet.ofList (← readItems json)

/-- A map as the data model has it. -/
def serializeMap {κ : Type} [LinearOrder κ] [Codec κ] (m : BTreeMap κ α) : Value :=
  .map (m.toList.map fun entry => (serialize entry.1, serialize entry.2))

/-- The optional field at a position: it may be missing. -/
def optionalField (found : List (Option Json)) (i : Nat) : Outcome String (Option α) :=
  match found[i]?.join with
  | .some json => deserialize json
  | .none => .ok .none

/-- Every map decoded from stored bytes refuses a key it names twice. -/
instance {κ : Type} [LinearOrder κ] [KeyCodec κ] : Codec (BTreeMap κ α) where
  serialize := serializeMap
  deserialize := uniqueMap deserialize

/-- A record of the fields `names`. -/
def record (name : Str) (names : List Str) (values : List Value) : Value :=
  .struct name (names.zip values)

end Instances

/-! ## Values that store -/

section Stores

variable [SerdeJson] {α : Type} [Codec α] {d : Nat}

/-- `serde_json::to_vec`. -/
def toVec (value : α) : Except String Bytes := do
  return (← (serialize value).toJson).toVec

/-- `serde_json::from_slice`. -/
def fromSlice (bytes : Bytes) : Outcome String α := do
  let json ← Outcome.ofResult (SerdeJson.fromSlice bytes)
  deserialize json

/-- The JSON of a value nests at most `d` deep and reads back as the value. -/
structure Writes (d : Nat) (value : α) (json : Json) : Prop where
  wrote : (serialize value).toJson = .ok json
  depth : json.depth ≤ d
  read : deserialize json = .ok value

def Stores (d : Nat) (value : α) : Prop := ∃ json, Writes d value json

/-- The text of a key reads back as the key. -/
def StoresKey {κ : Type} [KeyCodec κ] (key : κ) : Prop :=
  ∃ text, (serialize key).toKey = .ok text ∧ deserializeKey text = .ok key

/-- The value is not written as `null`. -/
def Present (value : α) : Prop := (serialize value).toJson ≠ .ok .null

/-- A key that also stores as a value. -/
structure StoresMember {κ : Type} [KeyCodec κ] (d : Nat) (id : κ) : Prop where
  key : StoresKey id
  value : Stores d id
  present : Present id

theorem Stores.mono {value : α} {d' : Nat} (h : Stores d value) (hle : d ≤ d') :
    Stores d' value := by
  obtain ⟨json, hjson, hdepth, hread⟩ := h
  exact ⟨json, hjson, hdepth.trans hle, hread⟩

/-- What stores within the recursion limit reads back from its text. -/
theorem Stores.fromSlice {value : α} {bytes : Bytes} (h : Stores d value) (hd : d ≤ 127)
    (hbytes : toVec value = .ok bytes) : fromSlice bytes = .ok value := by
  obtain ⟨json, hjson, hdepth, hread⟩ := h
  rw [toVec, hjson] at hbytes
  cases hbytes
  simp only [Serde.fromSlice, SerdeJson.fromSlice_toVec json (hdepth.trans hd), Outcome.ofResult_ok,
    Outcome.ok_bind, hread]

theorem Stores.toVec {value : α} (h : Stores d value) : ∃ bytes, toVec value = .ok bytes := by
  obtain ⟨json, hjson, -⟩ := h
  exact ⟨json.toVec, by rw [Serde.toVec, hjson]; rfl⟩

theorem Stores.str (value : Str) : Stores 0 value := ⟨.str value, by simp [serialize, Value.toJson],
  Nat.le_refl 0, rfl⟩

theorem StoresKey.str (value : Str) : StoresKey value :=
  ⟨value, by simp [serialize, Value.toKey], rfl⟩

omit [SerdeJson] in
theorem readUint_ofNat {n limit : Nat} (h : n < limit) :
    readUint limit (.num (.ofNat n)) = .ok n := by
  simp [readUint, h]

/-- The JSON of an unsigned integer that fits its kind. -/
theorem toJson_uint {kind : IntKind} (hkind : kind.signed = false) {n : Nat}
    (h : n < 2 ^ kind.width) :
    (Value.int kind (BitVec.ofNat _ n)).toJson = .ok (.num (.ofNat n)) := by
  simp [Value.toJson, Value.intText, hkind, Nat.mod_eq_of_lt h]

theorem Stores.usize {n : Nat} (h : n < UInt64.size) : Stores 0 n :=
  ⟨.num (.ofNat n), toJson_uint (show IntKind.signed .u64 = false from rfl) h, Nat.le_refl 0,
    readUint_ofNat h⟩

theorem Stores.f32 {x : F32} (h : x.isFinite = true) : Stores 0 x := by
  refine ⟨.num (SerdeJson.f32Text x), by simp [serialize, Value.toJson, h], Nat.le_refl 0, ?_⟩
  simp [deserialize, SerdeJson.readF32_f32Text x h]

theorem Stores.none : Stores 0 (none : Option α) :=
  ⟨.null, by simp [serialize, Value.toJson], Nat.le_refl 0, rfl⟩

theorem Stores.some {value : α} (h : Stores d value) (hpresent : Present value) :
    Stores d (some value) := by
  obtain ⟨json, hjson, hdepth, hread⟩ := h
  have hnull : json ≠ .null := fun hnull => hpresent (hnull ▸ hjson)
  refine ⟨json, by simpa [serialize, Value.toJson] using hjson, hdepth, ?_⟩
  cases json with
  | null => exact (hnull rfl).elim
  | _ => simp [deserialize, hread]

theorem Stores.option (value : Option α) (h : ∀ v, value = .some v → Stores d v ∧ Present v) :
    Stores d value := by
  cases value with
  | none => exact Stores.none.mono (Nat.zero_le d)
  | some v => exact .some (h v rfl).1 (h v rfl).2

/-! ### Lists and sets -/

theorem toItems_stores {values : List α} (h : ∀ value ∈ values, Stores d value) :
    ∃ items, Value.toItems (values.map serialize) = .ok items ∧
      (∀ item ∈ items, item.depth ≤ d) ∧ items.mapM deserialize = .ok values := by
  induction values with
  | nil => exact ⟨[], rfl, by simp, rfl⟩
  | cons value values ih =>
    obtain ⟨items, hitems, hdepths, hreads⟩ := ih fun v hv => h v (List.mem_cons_of_mem _ hv)
    obtain ⟨item, hitem, hdepth, hread⟩ := h value (by simp)
    refine ⟨item :: items, ?_, List.forall_mem_cons.mpr ⟨hdepth, hdepths⟩, ?_⟩
    · simp [Value.toItems, hitem, hitems]
    · rw [List.mapM_cons, hread, Outcome.ok_bind, hreads]
      rfl

theorem Stores.list {values : List α} (h : ∀ value ∈ values, Stores d value) :
    Stores (d + 1) values := by
  obtain ⟨items, hitems, hdepths, hreads⟩ := toItems_stores h
  exact ⟨.arr items, by simp [serialize, Value.toJson, hitems],
    Json.depth_arr hdepths, hreads⟩

theorem Stores.set [LinearOrder α] {values : BTreeSet α} (h : ∀ value ∈ values, Stores d value) :
    Stores (d + 1) values := by
  obtain ⟨items, hitems, hdepths, hreads⟩ :=
    toItems_stores fun value hv => h value (Std.ExtTreeSet.mem_toList.mp hv)
  refine ⟨.arr items, by simp [serialize, Value.toJson, hitems],
    Json.depth_arr hdepths, ?_⟩
  have hread : readItems (.arr items) = .ok values.toList := hreads
  simp only [deserialize, hread, Outcome.ok_bind, Outcome.pure_eq]
  congr 1
  exact Std.ExtTreeSet.ext_mem fun k => by simp

/-! ### Maps -/

variable {κ : Type} [LinearOrder κ] [KeyCodec κ]

theorem toEntries_stores (repeated : κ → String) {entries : List (κ × α)}
    (hkeys : (entries.map Prod.fst).Nodup)
    (h : ∀ k v, (k, v) ∈ entries → StoresKey k ∧ Stores d v) (acc : BTreeMap κ α)
    (hacc : ∀ k v, (k, v) ∈ entries → k ∉ acc) : ∃ fields,
      Value.toEntries (entries.map fun entry => (serialize entry.1, serialize entry.2)) = .ok fields ∧
      (∀ field ∈ fields, field.2.depth ≤ d) ∧
      ∃ m, fields.foldlM (readEntry repeated deserialize) acc = .ok m ∧
        ∀ (k : κ) (v : α), m[k]? = .some v ↔ acc[k]? = .some v ∨ (k, v) ∈ entries := by
  induction entries generalizing acc with
  | nil => exact ⟨[], rfl, by simp, acc, rfl, by simp⟩
  | cons entry entries ih =>
    obtain ⟨key, value⟩ := entry
    obtain ⟨hnew, hkeys⟩ := List.nodup_cons.mp hkeys
    have hfresh : key ∉ acc := hacc key value (by simp)
    obtain ⟨⟨text, htext, hreadKey⟩, json, hjson, hdepth, hread⟩ := h key value (by simp)
    have hother {k : κ} {v : α} (hmem : (k, v) ∈ entries) : k ≠ key :=
      fun heq => hnew (List.mem_map.mpr ⟨(k, v), hmem, heq⟩)
    obtain ⟨fields, hfields, hdepths, m, hm, hlookup⟩ := ih hkeys
      (fun k v hmem => h k v (List.mem_cons_of_mem _ hmem)) (acc.insert key value)
      (fun k v hmem hk => (BTreeMap.mem_insert_iff.mp hk).elim (hother hmem)
        (hacc k v (List.mem_cons_of_mem _ hmem)))
    refine ⟨(text, json) :: fields, ?_, List.forall_mem_cons.mpr ⟨hdepth, hdepths⟩, m, ?_, ?_⟩
    · simp [Value.toEntries, htext, hjson, hfields]
    · simp only [List.foldlM_cons, readEntry, hreadKey, hread, Outcome.ok_bind, hfresh, if_false,
        Outcome.pure_eq, hm]
    · intro k v
      rw [hlookup, BTreeMap.getElem?_insert_ite, List.mem_cons, Prod.mk.injEq]
      split
      · next heq =>
        subst heq
        simp [BTreeMap.not_mem_iff.mp hfresh, eq_comm]
      · next hne => simp [Ne.symm hne]

theorem serializeMap_stores {m : BTreeMap κ α} (repeated : κ → String)
    (hkey : ∀ k ∈ m, StoresKey k) (hvalue : ∀ (k : κ) (v : α), m[k]? = .some v → Stores d v) :
    ∃ json, (serializeMap m).toJson = .ok json ∧ json.depth ≤ d + 1 ∧
      readMap repeated deserialize json = .ok m := by
  obtain ⟨fields, hfields, hdepths, m', hm', hlookup⟩ :=
    toEntries_stores repeated (BTreeMap.toList_keys_nodup m)
      (fun k v hmem => ⟨hkey k (BTreeMap.mem_iff.mpr ⟨v, BTreeMap.mem_toList.mp hmem⟩),
        hvalue k v (BTreeMap.mem_toList.mp hmem)⟩) ∅ (by simp)
  refine ⟨.obj fields, by simp [serializeMap, Value.toJson, hfields],
    Json.depth_obj hdepths, ?_⟩
  rw [readMap, hm']
  congr 1
  refine BTreeMap.ext_lookup fun k => Option.ext fun v => ?_
  rw [hlookup, BTreeMap.mem_toList]
  simp

theorem Stores.map {m : BTreeMap κ α} (hkey : ∀ k ∈ m, StoresKey k)
    (hvalue : ∀ (k : κ) (v : α), m[k]? = .some v → Stores d v) : Stores (d + 1) m :=
  let ⟨json, hjson, hdepth, hread⟩ := serializeMap_stores _ hkey hvalue
  ⟨json, hjson, hdepth, hread⟩

/-! ### Records and variants -/

theorem toFields_zip {values : List Value} {items : List Json}
    (h : Value.toItems values = .ok items) (names : List Str) :
    Value.toFields (names.zip values) = .ok (names.zip items) := by
  induction values generalizing names items with
  | nil =>
    cases h
    simp [Value.toFields]
  | cons value values ih =>
    cases hitem : value.toJson with
    | error e => simp [Value.toItems, hitem] at h
    | ok item =>
      cases hrest : Value.toItems values with
      | error e => simp [Value.toItems, hitem, hrest] at h
      | ok rest =>
        simp only [Value.toItems, hitem, hrest, Outcome.ok_bind, Outcome.pure_eq,
          Except.ok.injEq] at h
        subst h
        cases names with
        | nil => simp [Value.toFields]
        | cons name names => simp [Value.toFields, hitem, ih hrest]

theorem toJson_record {name : Str} {names : List Str} {values : List Value} {items : List Json}
    (hname : name.head? ≠ .some '$') (h : Value.toItems values = .ok items) :
    (record name names values).toJson = .ok (.obj (names.zip items)) := by
  have hnumber : name ≠ SERDE_JSON_NUMBER := fun heq => hname (heq ▸ rfl)
  have hraw : name ≠ SERDE_JSON_RAW_VALUE := fun heq => hname (heq ▸ rfl)
  simp [record, Value.toJson, hnumber, hraw, toFields_zip h]

theorem toFields_names {fields : List (Str × Value)} {written : List (Str × Json)}
    (h : Value.toFields fields = .ok written) : written.map Prod.fst = fields.map Prod.fst := by
  induction fields generalizing written with
  | nil =>
    cases h
    rfl
  | cons field fields ih =>
    obtain ⟨name, value⟩ := field
    obtain ⟨json, -, h⟩ := Outcome.bind_eq_ok.mp h
    obtain ⟨rest, hrest, h⟩ := Outcome.bind_eq_ok.mp h
    cases h
    rw [List.map_cons, List.map_cons, ih hrest]

/-- The JSON of a record starts with that of its first field. -/
theorem toJson_record_cons {name first : Str} {names : List Str} {value : Value}
    {values : List Value} {item json : Json} (hname : name.head? ≠ .some '$')
    (hitem : value.toJson = .ok item)
    (h : (record name (first :: names) (value :: values)).toJson = .ok json) :
    ∃ fields : List (Str × Json), json = .obj ((first, item) :: fields) ∧
      ∀ field ∈ fields, field.1 ∈ names := by
  have hnumber : name ≠ SERDE_JSON_NUMBER := fun heq => hname (heq ▸ rfl)
  have hraw : name ≠ SERDE_JSON_RAW_VALUE := fun heq => hname (heq ▸ rfl)
  rw [record, Value.toJson, if_neg hnumber, if_neg hraw, List.zip_cons_cons, Value.toFields,
    hitem, Outcome.ok_bind] at h
  obtain ⟨written, hwritten, h⟩ := Outcome.bind_eq_ok.mp h
  obtain ⟨fields, hfields, hwritten⟩ := Outcome.bind_eq_ok.mp hwritten
  cases hwritten
  cases h
  refine ⟨fields, rfl, fun field hfield => ?_⟩
  have hmem : field.1 ∈ (names.zip values).map Prod.fst :=
    toFields_names hfields ▸ List.mem_map_of_mem hfield
  obtain ⟨pair, hpair, heq⟩ := List.mem_map.mp hmem
  exact heq ▸ (List.of_mem_zip hpair).1

omit [SerdeJson] in
/-- A reader of one field that ignores the others finds it at the front. -/
theorem readStruct_head {name : Str} {json : Json} {fields : List (Str × Json)}
    (h : ∀ field ∈ fields, field.1 ≠ name) :
    readStruct [name] false (.obj ((name, json) :: fields)) = .ok [.some json] := by
  have hrest : fields.foldlM (readField [name] false) [.some json] = .ok [.some json] := by
    induction fields with
    | nil => rfl
    | cons field fields ih =>
      have hother : [name].idxOf? field.1 = .none := by
        simpa [List.idxOf?_eq_none_iff] using (h field (by simp)).symm
      rw [List.foldlM_cons, readField, hother]
      exact ih fun other hmem => h other (List.mem_cons_of_mem _ hmem)
  have hfirst : [name].idxOf? name = .some 0 := by simp [List.idxOf?_cons]
  rw [readStruct, List.foldlM_cons, readField, hfirst]
  exact hrest

omit [SerdeJson] in
/-- A struct reads back the fields it was written with. -/
theorem readStruct_zip {names : List Str} {items : List Json} {deny : Bool}
    (hlen : names.length = items.length) (hnodup : names.Nodup) :
    readStruct names deny (.obj (names.zip items)) = .ok (items.map .some) := by
  -- The fields read so far stand before the ones that are still to come.
  have hfold (names : List Str) : ∀ (items : List Json) (before : List Str) (found : List Json),
      before.length = found.length → names.length = items.length → (before ++ names).Nodup →
      (names.zip items).foldlM (readField (before ++ names) deny)
        (found.map .some ++ names.map fun _ => .none) = .ok ((found ++ items).map .some) := by
    induction names with
    | nil =>
      intro items before found _ hlen _
      have : items = [] := List.length_eq_zero_iff.mp hlen.symm
      simp [this]
    | cons name names ih =>
      intro items before found hbefore hlen hnodup
      obtain ⟨item, items, rfl⟩ := List.exists_cons_of_length_eq_add_one hlen.symm
      have hidx : (before ++ name :: names).idxOf? name = .some found.length := by
        have hnot : name ∉ before := fun hmem =>
          (List.nodup_append.mp hnodup).2.2 name hmem name (by simp) rfl
        refine List.idxOf?_eq_some_iff.mpr ⟨by simp [hbefore], by simp [← hbefore], ?_⟩
        intro j hj heq
        rw [List.getElem_append_left (hbefore ▸ hj)] at heq
        exact hnot (heq ▸ List.getElem_mem _)
      have hstep := ih items (before ++ [name]) (found ++ [item]) (by simp [hbefore])
        (by simpa using hlen) (by simpa using hnodup)
      rw [List.zip_cons_cons, List.foldlM_cons, readField, hidx]
      simpa [List.set_append] using hstep
  exact hfold names items [] [] rfl hlen hnodup

omit [SerdeJson] in
theorem readRecord_zip {names : List Str} {items : List Json} {ρ : Type}
    {build : List (Option Json) → Outcome String ρ} (hlen : names.length = items.length)
    (hnodup : names.Nodup) :
    readRecord names build (.obj (names.zip items)) = build (items.map .some) := by
  rw [readRecord, readStruct_zip hlen hnodup, Outcome.ok_bind]

/-- The JSON of the fields of a record. -/
structure Items (d : Nat) (values : List Value) (items : List Json) : Prop where
  wrote : Value.toItems values = .ok items
  depth : ∀ item ∈ items, item.depth ≤ d

theorem Items.nil : Items d [] [] := ⟨rfl, by simp⟩

theorem Items.cons {value : α} {json : Json} {values : List Value} {items : List Json} {d' : Nat}
    (h : Writes d' value json) (hs : Items d values items) (hle : d' ≤ d := by omega) :
    Items d (serialize value :: values) (json :: items) :=
  ⟨by simp [Value.toItems, h.wrote, hs.wrote], List.forall_mem_cons.mpr ⟨h.depth.trans hle, hs.depth⟩⟩

/-- A struct stores when its fields do. -/
theorem Stores.record {value : α} {name : Str} {names : List Str} {values : List Value}
    {items : List Json} {build : List (Option Json) → Outcome String α}
    (hserialize : serialize value = Serde.record name names values)
    (hdeserialize : deserialize = readRecord names build) (hitems : Items d values items)
    (hlen : names.length = items.length) (hnodup : names.Nodup) (hname : name.head? ≠ .some '$')
    (hread : build (items.map .some) = .ok value) : Stores (d + 1) value := by
  refine ⟨.obj (names.zip items), hserialize ▸ toJson_record hname hitems.wrote, ?_, ?_⟩
  · exact Json.depth_obj fun field hfield => hitems.depth _ (List.of_mem_zip hfield).2
  · rw [hdeserialize, readRecord_zip hlen hnodup, hread]

/-- A newtype variant stores when its content does. -/
theorem Stores.newtypeVariant {β : Type} [Codec β] {value : α} {inner : β} {variant : Str}
    (h : Stores d inner) (hserialize : serialize value = .newtypeVariant variant (serialize inner))
    (hread : ∀ json, deserialize json = .ok inner →
      deserialize (.obj [(variant, json)]) = .ok value) : Stores (d + 1) value := by
  obtain ⟨json, hjson, hdepth, hinner⟩ := h
  refine ⟨.obj [(variant, json)], by simp [hserialize, Value.toJson, hjson], ?_, hread json hinner⟩
  exact Json.depth_obj (List.forall_mem_singleton.mpr hdepth)

theorem present_newtypeVariant {value : α} {variant : Str} {inner : Value}
    (hserialize : serialize value = .newtypeVariant variant inner) : Present value := by
  cases h : inner.toJson <;> simp [Present, hserialize, Value.toJson, h]

/-- A struct variant stores when its fields do. -/
theorem Stores.structVariant {value : α} {variant : Str} {names : List Str} {values : List Value}
    {items : List Json} {build : List (Option Json) → Outcome String α}
    (hserialize : serialize value = .structVariant variant (names.zip values))
    (hdeserialize : ∀ content, deserialize (.obj [(variant, content)]) =
      readRecord names build content)
    (hitems : Items d values items) (hlen : names.length = items.length) (hnodup : names.Nodup)
    (hread : build (items.map .some) = .ok value) : Stores (d + 2) value := by
  refine ⟨.obj [(variant, .obj (names.zip items))], ?_, ?_, ?_⟩
  · simp [hserialize, Value.toJson, toFields_zip hitems.wrote]
  · refine Json.depth_obj (List.forall_mem_singleton.mpr ?_)
    exact Json.depth_obj fun field hfield => hitems.depth _ (List.of_mem_zip hfield).2
  · rw [hdeserialize, readRecord_zip hlen hnodup, hread]

end Stores

end Serde
