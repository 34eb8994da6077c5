import Heurema.Lifecycle.Canonical

/-! # What the canonical encoding refuses

A value encodes when none of its parts is a float, a map with a key that is
neither a string nor an integer, or a map with a repeated key. -/

namespace Heurema.Digest

open Serde

/-- The lengths of a value fit the machine, and it is none of the values that the
grammar leaves out: an error of the value itself, a number that keeps its text,
unparsed text. -/
def Regular : Value → Prop
  | .failed _ => False
  | .str value | .unitVariant value => value.asBytes.length < UInt64.size
  | .bytes value => value.length < UInt64.size
  | .newtypeVariant variant _ => variant.asBytes.length < UInt64.size
  | .seq elements => elements.length < UInt64.size
  | .tupleVariant variant elements =>
    variant.asBytes.length < UInt64.size ∧ elements.length < UInt64.size
  | .map entries => entries.length < UInt64.size
  | .struct name fields => name ≠ SERDE_JSON_NUMBER ∧ name ≠ SERDE_JSON_RAW_VALUE ∧
    fields.length < UInt64.size ∧ ∀ field ∈ fields, field.1.asBytes.length < UInt64.size
  | .structVariant variant fields => variant.asBytes.length < UInt64.size ∧
    fields.length < UInt64.size ∧ ∀ field ∈ fields, field.1.asBytes.length < UInt64.size
  | .bool _ | .int _ _ | .f32 _ | .f64 _ | .char _ | .none | .some _ | .unit
  | .newtypeStruct _ => True

/-- A map with a key that is neither a string nor an integer, or with two equal
encoded keys. -/
def MalformedMap (entries : List (Value × Value)) : Prop :=
  (∃ entry ∈ entries, (canon entry.1).key? = none) ∨
  ¬ (entries.map fun entry => encode entry.1).Nodup

/-- A value that has no encoding whatever it holds. -/
def Malformed : Value → Prop
  | .f32 _ | .f64 _ => True
  | .map entries => MalformedMap entries
  | .struct _ fields | .structVariant _ fields => MalformedMap (asEntries fields)
  | _ => False

/-- A value is a part of another, however deep. -/
def Contains : Value → Value → Prop :=
  Relation.ReflTransGen fun value child => child ∈ children value

def Encodable (value : Value) : Prop := ∃ item, encode value = .ok item

theorem encodeEntry_encodable {entry : Value × Value} :
    (∃ texts, encodeEntry entry = .ok texts) ↔
      Encodable entry.1 ∧ Encodable entry.2 ∧ (canon entry.1).key? ≠ none := by
  simp only [encodeEntry_eq_ok]
  constructor
  · rintro ⟨texts, hkey, hisKey, hvalue⟩
    rw [(encode_spells _ _ hkey).isKey_eq] at hisKey
    exact ⟨⟨_, hkey⟩, ⟨_, hvalue⟩, Option.isSome_iff_ne_none.mp hisKey⟩
  · rintro ⟨⟨key, hkey⟩, ⟨value, hvalue⟩, hisKey⟩
    rw [← Option.isSome_iff_ne_none, ← (encode_spells _ _ hkey).isKey_eq] at hisKey
    exact ⟨(key, value), hkey, hisKey, hvalue⟩

/-- The texts of the keys repeat when the encoded keys do. -/
theorem encodeEntries_nodup {entries : List (Value × Value)} {texts : List (Bytes × Bytes)}
    (h : encodeEntries entries = .ok texts) :
    (entries.map fun entry => encode entry.1).Nodup ↔ (texts.map Prod.fst).Nodup := by
  have hkeys : entries.map (fun entry => encode entry.1) = (texts.map Prod.fst).map .ok := by
    rw [encodeEntries_eq, Outcome.mapM_eq_ok] at h
    induction h with
    | nil => rfl
    | cons hentry _ ih => simp [(encodeEntry_eq_ok.mp hentry).1, ih]
  rw [hkeys]
  exact List.nodup_map_iff fun _ _ => Except.ok.inj

theorem encodeEntries_encodable {entries : List (Value × Value)}
    (hlen : entries.length < UInt64.size) :
    Encodable (.map entries) ↔
      (∀ entry ∈ entries, Encodable entry.1 ∧ Encodable entry.2) ∧ ¬ MalformedMap entries := by
  have htexts : (∃ texts, encodeEntries entries = .ok texts) ↔
      ∀ entry ∈ entries, Encodable entry.1 ∧ Encodable entry.2 ∧ (canon entry.1).key? ≠ none := by
    simp only [encodeEntries_eq, Outcome.exists_mapM_eq_ok, encodeEntry_encodable]
  unfold Encodable MalformedMap
  rw [encode]
  simp only [Outcome.bind_eq_ok, finishMap_eq_ok, not_or, not_not, not_exists, not_and]
  constructor
  · rintro ⟨item, texts, h, hnodup, -⟩
    have heach := htexts.mp ⟨texts, h⟩
    exact ⟨fun entry hmem => ⟨(heach entry hmem).1, (heach entry hmem).2.1⟩,
      fun entry hmem => (heach entry hmem).2.2, (encodeEntries_nodup h).mpr hnodup⟩
  · rintro ⟨hparts, hkeys, hnodup⟩
    obtain ⟨texts, h⟩ := htexts.mpr fun entry hmem =>
      ⟨(hparts entry hmem).1, (hparts entry hmem).2, hkeys entry hmem⟩
    have hcount : texts.length < UInt64.size := by
      rw [encodeEntries_eq, Outcome.mapM_eq_ok] at h
      exact h.length_eq ▸ hlen
    exact ⟨_, texts, h, (encodeEntries_nodup h).mp hnodup, hcount, rfl⟩

theorem encodable_prefixed {value : Value} {tag : UInt8} {payload : Bytes}
    (hencode : encode value = lengthPrefixed tag payload) (h : payload.length < UInt64.size) :
    Encodable value :=
  ⟨_, hencode.trans (lengthPrefixed_eq_ok.mpr ⟨h, rfl⟩)⟩

theorem encodable_variant {variant : Str} (content : Value) {value : Value}
    (h : variant.asBytes.length < UInt64.size)
    (hencode : encode value = (do return (← openVariant variant) ++ (← encode content))) :
    Encodable value ↔ Encodable content := by
  unfold Encodable
  rw [hencode]
  simp only [variant_eq_ok]
  constructor
  · rintro ⟨item, name, text, -, htext, -⟩
    exact ⟨text, htext⟩
  · rintro ⟨text, htext⟩
    exact ⟨_, _, text, ⟨h, rfl⟩, htext, rfl⟩

theorem encodable_seq {elements : List Value} (h : elements.length < UInt64.size) :
    Encodable (.seq elements) ↔ ∀ element ∈ elements, Encodable element := by
  unfold Encodable
  rw [← Outcome.exists_mapM_eq_ok, encode, ← encodeElements_eq]
  simp only [Outcome.bind_eq_ok, finishSeq_eq_ok]
  constructor
  · rintro ⟨item, texts, htexts, -⟩
    exact ⟨texts, htexts⟩
  · rintro ⟨texts, htexts⟩
    have hlen : texts.length < UInt64.size := by
      rw [encodeElements_eq, Outcome.mapM_eq_ok] at htexts
      exact htexts.length_eq ▸ h
    exact ⟨_, texts, htexts, hlen, rfl⟩

theorem encodable_fields {fields : List (Str × Value)} (hlen : fields.length < UInt64.size)
    (hnames : ∀ field ∈ fields, field.1.asBytes.length < UInt64.size) :
    Encodable (.map (asEntries fields)) ↔
      (∀ value ∈ fields.map Prod.snd, Encodable value) ∧ ¬ MalformedMap (asEntries fields) := by
  rw [encodeEntries_encodable (by simpa [asEntries] using hlen)]
  refine and_congr_left fun _ => ?_
  simp only [asEntries, List.forall_mem_map]
  exact forall₂_congr fun field hmem =>
    and_iff_right (encodable_prefixed (by rw [encode]) (hnames field hmem))

/-- One level of a value: what it holds encodes, and it is not malformed itself. -/
theorem encodable_iff {value : Value} (h : Regular value) :
    Encodable value ↔ (∀ child ∈ children value, Encodable child) ∧ ¬ Malformed value := by
  cases value with
  | failed reason => cases h
  | f32 value | f64 value => simp [Encodable, encode, floatRefusal, Malformed]
  | bool value | int kind bits | none | unit =>
    simp [Encodable, encode, Malformed, children]
  | char value =>
    have hlen : (Str.asBytes [value]).length < UInt64.size := by
      rw [Str.asBytes_length, Str.byteLen_cons, Str.byteLen_nil]
      have := value.utf8Size_le_four
      exact Nat.lt_of_le_of_lt this (by decide)
    simpa [children, Malformed] using encodable_prefixed (by rw [encode]) hlen
  | str value | unitVariant value | bytes value =>
    simpa [children, Malformed] using encodable_prefixed (by rw [encode]) h
  | some value =>
    have hiff : Encodable (.some value) ↔ Encodable value := by
      simp [Encodable, encode, Outcome.bind_eq_ok]
    simpa [children, Malformed] using hiff
  | newtypeStruct value =>
    have hiff : Encodable (.newtypeStruct value) ↔ Encodable value := by
      simp [Encodable, encode]
    simpa [children, Malformed] using hiff
  | newtypeVariant variant value =>
    simpa [children, Malformed] using encodable_variant value h (by rw [encode])
  | seq elements => simpa [children, Malformed] using encodable_seq h
  | tupleVariant variant elements =>
    have hiff := encodable_variant _ h.1 (encode_tupleVariant variant elements)
    simpa [children, Malformed] using hiff.trans (encodable_seq h.2)
  | map entries =>
    rw [encodeEntries_encodable h, children, Malformed, List.forall_mem_flatMap]
    simp
  | struct name fields =>
    have hencode : encode (.struct name fields) = encode (.map (asEntries fields)) := by
      rw [encode, encode, if_neg h.1, if_neg h.2.1, encodeFields_eq]
    have hiff : Encodable (.struct name fields) ↔ Encodable (.map (asEntries fields)) := by
      rw [Encodable, Encodable, hencode]
    exact hiff.trans (encodable_fields h.2.2.1 h.2.2.2)
  | structVariant variant fields =>
    have hiff := encodable_variant _ h.1 (encode_structVariant variant fields)
    exact hiff.trans (encodable_fields h.2.1 h.2.2)

/-- The encoder refuses exactly the values with a malformed part. -/
theorem encode_refuses_iff {value : Value} (h : ∀ part, Contains value part → Regular part) :
    (∃ reason, encode value = .error reason) ↔ ∃ part, Contains value part ∧ Malformed part := by
  have hencodable : Encodable value ↔ ∀ part, Contains value part → ¬ Malformed part := by
    induction value using childrenInduction with
    | step value ih =>
      rw [encodable_iff (h value .refl)]
      constructor
      · rintro ⟨hchildren, hvalue⟩ part hpart
        obtain rfl | ⟨child, hchild, hrest⟩ := Relation.ReflTransGen.cases_head hpart
        · exact hvalue
        · exact (ih child hchild fun part hpart => h part (.head hchild hpart)).mp
            (hchildren child hchild) part hrest
      · intro hparts
        refine ⟨fun child hchild => ?_, hparts value .refl⟩
        exact (ih child hchild fun part hpart => h part (.head hchild hpart)).mpr
          fun part hpart => hparts part (.head hchild hpart)
  have herror : (∃ reason, encode value = .error reason) ↔ ¬ Encodable value := by
    unfold Encodable
    cases encode value <;> simp
  rw [herror, hencodable]
  push Not
  rfl

end Heurema.Digest
