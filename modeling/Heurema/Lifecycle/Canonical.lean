import Heurema.Data.Sorted
import Heurema.Lifecycle.Grammar

/-! # What the canonical encoding identifies

`canon` is the item of a value: the documented identifications of the data model
and no others. The encoder writes exactly it, so two values have one text when
they have one item. -/

namespace Heurema.Digest

open Serde

/-! ## The item of a value -/

/-- The integer that a text is the decimal form of: a `u64`, or a negative `i64`. -/
def spelledInteger (text : Str) : Option Key :=
  match text with
  | '-' :: digits =>
    match decimal? digits with
    | some n => if 0 < n ∧ n ≤ 2 ^ 63 then some (.int .i64 (BitVec.ofInt _ (-n))) else none
    | none => none
  | _ =>
    match decimal? text with
    | some n => if n < UInt64.size then some (.int .u64 (BitVec.ofNat _ n)) else none
    | none => none

/-- The item of a number that keeps its text. -/
def numberItem : Item → Item
  | .key (.str text) =>
    match spelledInteger text with
    | some k => .key k
    | none => .unencodable
  | _ => .unencodable

mutual

/-- A char and a unit variant are strings, a newtype struct is its content, a
struct is a map keyed by its field names, and a tuple or struct variant is a
newtype variant over a sequence or a map. A map is the set of its entries. -/
def canon : Value → Item
  | .failed _ | .f32 _ | .f64 _ => .unencodable
  | .bool value => .bool value
  | .int kind bits => .key (.int kind bits)
  | .char value => .key (.str [value])
  | .str value | .unitVariant value => .key (.str value)
  | .bytes value => .bytes value
  | .none => .none
  | .some value => .some (canon value)
  | .unit => .unit
  | .newtypeStruct value => canon value
  | .newtypeVariant variant value => .variant variant (canon value)
  | .seq elements => .seq (canonElements elements)
  | .tupleVariant variant elements => .variant variant (.seq (canonElements elements))
  | .map entries => .map (canonEntries entries)
  | .struct name fields =>
    if name = SERDE_JSON_NUMBER then canonNumber fields
    else if name = SERDE_JSON_RAW_VALUE then .unencodable
    else .map (canonFields fields)
  | .structVariant variant fields => .variant variant (.map (canonFields fields))

def canonElements : List Value → List Item
  | [] => []
  | value :: values => canon value :: canonElements values

def canonEntries : List (Value × Value) → Key → Option Item
  | [], _ => Option.none
  | (name, value) :: entries, key =>
    if (canon name).key? = Option.some key then Option.some (canon value)
    else canonEntries entries key

def canonFields : List (Str × Value) → Key → Option Item
  | [], _ => Option.none
  | (name, value) :: fields, key =>
    if Key.str name = key then Option.some (canon value) else canonFields fields key

def canonNumber : List (Str × Value) → Item
  | [(_, value)] => numberItem (canon value)
  | _ => .unencodable

end

/-! ## Identifications -/

/-- The fields of a struct as the entries of a map. -/
def asEntries (fields : List (Str × Value)) : List (Value × Value) :=
  fields.map fun field => (.str field.1, field.2)

theorem canonElements_eq (elements : List Value) : canonElements elements = elements.map canon := by
  induction elements with
  | nil => rfl
  | cons value values ih => rw [canonElements, ih, List.map_cons]

theorem canonFields_eq (fields : List (Str × Value)) :
    canonFields fields = canonEntries (asEntries fields) := by
  funext key
  induction fields with
  | nil => rfl
  | cons field fields ih =>
    simp only [canonFields, asEntries, List.map_cons, canonEntries, canon, Item.key?,
      Option.some.injEq] at ih ⊢
    rw [ih]

theorem encodeElements_eq (elements : List Value) :
    encodeElements elements = elements.mapM encode := by
  induction elements with
  | nil => rfl
  | cons value values ih => rw [encodeElements, ih, List.mapM_cons]

/-- The key and the value of an entry, encoded one after the other. -/
def encodeEntry (entry : Value × Value) : Except String (Bytes × Bytes) := do
  let key ← encode entry.1
  checkKey key
  return (key, ← encode entry.2)

theorem encode_tupleVariant (variant : Str) (elements : List Value) :
    encode (.tupleVariant variant elements) = (do
      return (← openVariant variant) ++ (← encode (.seq elements))) := by
  rw [encode, encode]
  simp only [bind_assoc]

theorem encodeEntries_eq (entries : List (Value × Value)) :
    encodeEntries entries = entries.mapM encodeEntry := by
  induction entries with
  | nil => rfl
  | cons entry entries ih =>
    rw [encodeEntries, ih, List.mapM_cons, encodeEntry]
    simp only [bind_assoc, pure_bind]

theorem checkKey_str {payload item : Bytes} (h : lengthPrefixed Tag.STR payload = .ok item) :
    checkKey item = .ok () := by
  obtain ⟨-, rfl⟩ := lengthPrefixed_eq_ok.mp h
  rfl

theorem encodeFields_eq (fields : List (Str × Value)) :
    encodeFields fields = encodeEntries (asEntries fields) := by
  induction fields with
  | nil => rfl
  | cons field fields ih =>
    have hcons : asEntries (field :: fields) = (.str field.1, field.2) :: asEntries fields := rfl
    rw [encodeFields, ih, hcons, encodeEntries, encode]
    cases hname : lengthPrefixed Tag.STR field.1.asBytes with
    | error reason => rfl
    | ok item => simp [checkKey_str hname]

theorem encode_structVariant (variant : Str) (fields : List (Str × Value)) :
    encode (.structVariant variant fields) = (do
      return (← openVariant variant) ++ (← encode (.map (asEntries fields)))) := by
  rw [encode, encode, encodeFields_eq]
  simp only [bind_assoc]

/-! ## The parts of a value -/

/-- The values that a value holds directly. -/
def children : Value → List Value
  | .some value | .newtypeStruct value | .newtypeVariant _ value => [value]
  | .seq elements | .tupleVariant _ elements => elements
  | .map entries => entries.flatMap fun entry => [entry.1, entry.2]
  | .struct _ fields | .structVariant _ fields => fields.map Prod.snd
  | _ => []

theorem sizeOf_children {value child : Value} (h : child ∈ children value) :
    sizeOf child < sizeOf value := by
  have hpair {κ : Type} [SizeOf κ] {entry : κ × Value} {entries : List (κ × Value)}
      (hmem : entry ∈ entries) :
      sizeOf entry.1 < sizeOf entries ∧ sizeOf entry.2 < sizeOf entries := by
    have hlt := List.sizeOf_lt_of_mem hmem
    obtain ⟨key, value⟩ := entry
    simp only [Prod.mk.sizeOf_spec] at hlt ⊢
    omega
  cases value with
  | some value | newtypeStruct value | newtypeVariant variant value =>
    obtain rfl := List.mem_singleton.mp h
    simp
  | seq elements | tupleVariant variant elements =>
    have hlt := List.sizeOf_lt_of_mem (show child ∈ elements from h)
    simp
    omega
  | map entries =>
    obtain ⟨entry, hmem, hchild⟩ := List.mem_flatMap.mp h
    have hlt := hpair hmem
    simp only [List.mem_cons, List.not_mem_nil, or_false] at hchild
    simp only [Value.map.sizeOf_spec]
    rcases hchild with rfl | rfl <;> omega
  | struct name fields | structVariant name fields =>
    obtain ⟨field, hmem, rfl⟩ := List.mem_map.mp h
    have hlt := hpair hmem
    simp
    omega
  | _ => cases h

/-- What holds of a value when it holds of its parts holds of every value. -/
theorem childrenInduction {P : Value → Prop}
    (step : ∀ value, (∀ child ∈ children value, P child) → P value) (value : Value) : P value :=
  step value fun child hmem =>
    have := sizeOf_children hmem
    childrenInduction step child
termination_by sizeOf value

/-! ## The encoder follows the grammar -/

/-- The entries of a map in the order of their keys. -/
def sortedEntries (entries : List (Bytes × Bytes)) : List (Bytes × Bytes) :=
  entries.insertionSort fun left right => left.1 ≤ right.1

/-- Distinct keys come in strictly ascending order. -/
theorem sortedEntries_strict {entries : List (Bytes × Bytes)} :
    (sortedEntries entries).Pairwise (fun left right => left.1 < right.1) ↔
      (entries.map Prod.fst).Nodup := Sorted.byKey_strict

theorem sortedEntries_repeat {entries : List (Bytes × Bytes)} :
    ((sortedEntries entries).zip (sortedEntries entries).tail).any
      (fun pair => pair.1.1 = pair.2.1) = false ↔ (entries.map Prod.fst).Nodup := by
  have hneighbours := Sorted.neighbours_strict (Sorted.byKey_sorted Prod.fst entries)
  rw [Sorted.byKey_strict] at hneighbours
  rw [← hneighbours]
  simp [Sorted.byKey, sortedEntries]

theorem finishMap_eq_ok {entries : List (Bytes × Bytes)} {item : Bytes} :
    finishMap entries = .ok item ↔ (entries.map Prod.fst).Nodup ∧
      entries.length < UInt64.size ∧ item = Tag.MAP :: beBytes 8 entries.length ++
        (sortedEntries entries).flatMap fun entry => entry.1 ++ entry.2 := by
  have hlen : (sortedEntries entries).length = entries.length := List.length_insertionSort ..
  have hunfold : finishMap entries =
      if ((sortedEntries entries).zip (sortedEntries entries).tail).any
        fun pair => pair.1.1 = pair.2.1 then .error "a map emits the same key twice"
      else do return Tag.MAP :: (← count (sortedEntries entries).length) ++
        (sortedEntries entries).flatMap fun entry => entry.1 ++ entry.2 := rfl
  rw [hunfold]
  by_cases hnodup : (entries.map Prod.fst).Nodup
  · rw [hlen, sortedEntries_repeat.mpr hnodup, if_neg Bool.false_ne_true]
    by_cases hlt : entries.length < UInt64.size
    · simp [count, hlt, hnodup, eq_comm]
    · simp [count, hlt]
  · rw [if_pos (Bool.eq_true_of_not_eq_false fun h => hnodup (sortedEntries_repeat.mp h))]
    simp [hnodup]

/-! ### Every text is that of the item -/

/-- The parts of an entry with their texts. -/
def Spelled (entry : Value × Value) (spelled : (Key × Bytes) × (Item × Bytes)) : Prop :=
  canon entry.1 = .key spelled.1.1 ∧ spelled.1.1.Spells spelled.1.2 ∧
    canon entry.2 = spelled.2.1 ∧ spelled.2.1.Spells spelled.2.2

/-- What a value's item is written as. -/
def Encodes (value : Value) : Prop := ∀ item, encode value = .ok item → (canon value).Spells item

theorem checkKey_eq_ok {item : Bytes} : checkKey item = .ok () ↔ isKey item = true := by
  unfold checkKey
  split <;> simp_all

theorem encodeEntry_eq_ok {entry : Value × Value} {texts : Bytes × Bytes} :
    encodeEntry entry = .ok texts ↔
      encode entry.1 = .ok texts.1 ∧ isKey texts.1 = true ∧ encode entry.2 = .ok texts.2 := by
  unfold encodeEntry
  simp only [Outcome.bind_eq_ok]
  constructor
  · rintro ⟨key, hkey, _, hcheck, value, hvalue, htexts⟩
    cases htexts
    exact ⟨hkey, checkKey_eq_ok.mp hcheck, hvalue⟩
  · rintro ⟨hkey, hisKey, hvalue⟩
    exact ⟨_, hkey, (), checkKey_eq_ok.mpr hisKey, _, hvalue, rfl⟩

theorem key?_eq_some {item : Item} {k : Key} (h : item.key? = some k) : item = .key k := by
  cases item with
  | key other => rw [Option.some.inj h]
  | _ => cases h

theorem encodeEntry_spelled {entry : Value × Value} {texts : Bytes × Bytes}
    (hkey : Encodes entry.1) (hvalue : Encodes entry.2) (h : encodeEntry entry = .ok texts) :
    ∃ spelled, Spelled entry spelled ∧ texts = (spelled.1.2, spelled.2.2) := by
  obtain ⟨hkeyText, hisKey, hvalueText⟩ := encodeEntry_eq_ok.mp h
  have hspells := hkey texts.1 hkeyText
  rw [hspells.isKey_eq] at hisKey
  obtain ⟨k, hk⟩ := Option.isSome_iff_exists.mp hisKey
  have hcanon := key?_eq_some hk
  rw [hcanon] at hspells
  cases hspells with
  | key hspells =>
    exact ⟨((k, texts.1), (canon entry.2, texts.2)),
      ⟨hcanon, hspells, rfl, hvalue texts.2 hvalueText⟩, rfl⟩

theorem encodeEntries_spelled {entries : List (Value × Value)} {texts : List (Bytes × Bytes)}
    (hparts : ∀ entry ∈ entries, Encodes entry.1 ∧ Encodes entry.2)
    (h : encodeEntries entries = .ok texts) :
    ∃ spelled, List.Forall₂ Spelled entries spelled ∧
      (∀ part ∈ spelled, part.1.1.Spells part.1.2 ∧ part.2.1.Spells part.2.2) ∧
      texts = spelled.map fun part => (part.1.2, part.2.2) := by
  rw [encodeEntries_eq, Outcome.mapM_eq_ok] at h
  induction h with
  | nil => exact ⟨[], .nil, by simp, rfl⟩
  | cons hentry _ ih =>
    obtain ⟨hkey, hvalue⟩ := hparts _ List.mem_cons_self
    obtain ⟨spelled, hspelled, rfl⟩ := encodeEntry_spelled hkey hvalue hentry
    obtain ⟨rest, hrest, hspells, rfl⟩ :=
      ih fun entry hmem => hparts entry (List.mem_cons_of_mem _ hmem)
    exact ⟨spelled :: rest, .cons hspelled hrest,
      List.forall_mem_cons.mpr ⟨⟨hspelled.2.1, hspelled.2.2.2⟩, hspells⟩, rfl⟩

theorem canonEntries_spelled {entries : List (Value × Value)}
    {spelled : List ((Key × Bytes) × (Item × Bytes))} (h : List.Forall₂ Spelled entries spelled)
    (hnodup : spelled.Pairwise fun left right => left.1.1 ≠ right.1.1) (key : Key) (item : Item) :
    canonEntries entries key = some item ↔
      ∃ entry ∈ spelled, entry.1.1 = key ∧ entry.2.1 = item := by
  induction h with
  | nil => simp [canonEntries]
  | @cons entry part entries parts hentry _ ih =>
    obtain ⟨hdistinct, hnodup⟩ := List.pairwise_cons.mp hnodup
    obtain ⟨hkey, -, hvalue, -⟩ := hentry
    rw [canonEntries, hkey, hvalue, List.exists_mem_cons_iff, Item.key?]
    by_cases hsame : part.1.1 = key
    · subst hsame
      have hother : ¬ ∃ entry ∈ parts, entry.1.1 = part.1.1 ∧ entry.2.1 = item :=
        fun ⟨entry, hmem, heq, _⟩ => hdistinct entry hmem heq.symm
      simp [hother]
    · simp [hsame, ih hnodup]

/-- A map is written as the set of its entries. -/
theorem encodeEntries_spells {entries : List (Value × Value)} {texts : List (Bytes × Bytes)}
    {item : Bytes} (hparts : ∀ entry ∈ entries, Encodes entry.1 ∧ Encodes entry.2)
    (htexts : encodeEntries entries = .ok texts) (h : finishMap texts = .ok item) :
    (Item.map (canonEntries entries)).Spells item := by
  obtain ⟨spelled, hspelled, hspells, rfl⟩ := encodeEntries_spelled hparts htexts
  obtain ⟨hnodup, hcount, rfl⟩ := finishMap_eq_ok.mp h
  let sorted := spelled.insertionSort fun left right => left.1.2 ≤ right.1.2
  have hperm : sorted.Perm spelled := List.perm_insertionSort _ spelled
  have hmap : sortedEntries (spelled.map fun part => (part.1.2, part.2.2)) =
      sorted.map fun part => (part.1.2, part.2.2) :=
    (List.map_insertionSort (fun left right : (Key × Bytes) × (Item × Bytes) =>
      left.1.2 ≤ right.1.2) (fun left right : Bytes × Bytes => left.1 ≤ right.1)
      (fun part => (part.1.2, part.2.2)) spelled fun _ _ _ _ => Iff.rfl).symm
  have hstrict : sorted.Pairwise fun left right => left.1.2 < right.1.2 := by
    have h := sortedEntries_strict.mpr hnodup
    rwa [hmap, List.pairwise_map] at h
  -- Parts with different texts have different keys.
  have hdistinct : spelled.Pairwise fun left right => left.1.1 ≠ right.1.1 := by
    rw [List.map_map, List.Nodup, List.pairwise_map] at hnodup
    refine hnodup.imp_of_mem fun hleft hright hne heq => hne ?_
    exact (hspells _ hleft).1.text_eq (heq ▸ (hspells _ hright).1)
  have hlen : (spelled.map fun part => (part.1.2, part.2.2)).length = sorted.length := by
    rw [List.length_map, hperm.length_eq]
  rw [hmap, hlen, List.flatMap_map]
  refine .map (fun part hmem => (hspells part (hperm.subset hmem)).1)
    (fun part hmem => (hspells part (hperm.subset hmem)).2) hstrict (fun key item => ?_)
    (hlen ▸ hcount)
  rw [canonEntries_spelled hspelled hdistinct]
  simp only [hperm.mem_iff]

theorem encodeFields_spells {fields : List (Str × Value)} {texts : List (Bytes × Bytes)}
    {item : Bytes} (hparts : ∀ value ∈ fields.map Prod.snd, Encodes value)
    (htexts : encodeFields fields = .ok texts) (h : finishMap texts = .ok item) :
    (Item.map (canonFields fields)).Spells item := by
  rw [canonFields_eq]
  rw [encodeFields_eq] at htexts
  refine encodeEntries_spells (fun entry hmem => ?_) htexts h
  obtain ⟨field, hfield, rfl⟩ := List.mem_map.mp hmem
  exact ⟨fun item hitem => .key (lengthPrefixed_eq_ok.mp hitem),
    hparts field.2 (List.mem_map_of_mem hfield)⟩

theorem finishSeq_eq_ok {texts : List Bytes} {item : Bytes} :
    finishSeq texts = .ok item ↔ texts.length < UInt64.size ∧
      item = Tag.SEQ :: beBytes 8 texts.length ++ texts.flatten := by
  unfold finishSeq count
  split
  · next h => simp [h, eq_comm]
  · next h => simp [h]

theorem encodeElements_spells {elements : List Value} {texts : List Bytes} {item : Bytes}
    (hparts : ∀ element ∈ elements, Encodes element)
    (htexts : encodeElements elements = .ok texts) (h : finishSeq texts = .ok item) :
    (Item.seq (canonElements elements)).Spells item := by
  obtain ⟨spelled, hspells, hcanon, rfl⟩ : ∃ spelled : List (Item × Bytes),
      (∀ part ∈ spelled, part.1.Spells part.2) ∧ canonElements elements = spelled.map Prod.fst ∧
      texts = spelled.map Prod.snd := by
    rw [encodeElements_eq, Outcome.mapM_eq_ok] at htexts
    clear h
    induction htexts with
    | nil => exact ⟨[], by simp, rfl, rfl⟩
    | @cons element text elements texts helement _ ih =>
      obtain ⟨rest, hrest, hcanon, rfl⟩ :=
        ih fun part hmem => hparts part (List.mem_cons_of_mem _ hmem)
      exact ⟨(canon element, text) :: rest, List.forall_mem_cons.mpr
        ⟨hparts element List.mem_cons_self text helement, hrest⟩,
        by rw [canonElements, hcanon, List.map_cons], rfl⟩
  obtain ⟨hcount, rfl⟩ := finishSeq_eq_ok.mp h
  rw [List.length_map] at hcount ⊢
  rw [hcanon, ← List.flatMap_def]
  exact .seq hspells hcount

theorem lengthPrefixed_str {text : Str} {item : Bytes} :
    lengthPrefixed Tag.STR text.asBytes = .ok item ↔ (Key.str text).Spells item :=
  lengthPrefixed_eq_ok

theorem openVariant_eq_ok {variant : Str} {item : Bytes} :
    openVariant variant = .ok item ↔
      ∃ name, (Key.str variant).Spells name ∧ item = Tag.VARIANT :: name := by
  unfold openVariant
  cases hname : lengthPrefixed Tag.STR variant.asBytes with
  | error reason =>
    have hnone : ∀ name, ¬ (Key.str variant).Spells name := fun name h => by
      rw [← lengthPrefixed_str, hname] at h
      cases h
    simp [hnone]
  | ok name =>
    have hspells := lengthPrefixed_str.mp hname
    constructor
    · intro h
      exact ⟨name, hspells, (Except.ok.inj h).symm⟩
    · rintro ⟨name', hname', rfl⟩
      rw [hspells.text_eq hname']
      rfl

/-- The parts of a variant's item. -/
theorem variant_eq_ok {variant : Str} {content : Except String Bytes} {item : Bytes} :
    (do return (← openVariant variant) ++ (← content)) = Except.ok item ↔
      ∃ name text, (Key.str variant).Spells name ∧ content = .ok text ∧
        item = Tag.VARIANT :: name ++ text := by
  cases hopen : openVariant variant with
  | error reason =>
    have hnone : ∀ name, ¬ (Key.str variant).Spells name := fun name h => by
      rw [openVariant_eq_ok.mpr ⟨name, h, rfl⟩] at hopen
      cases hopen
    simp [hnone]
  | ok head =>
    obtain ⟨name, hname, rfl⟩ := openVariant_eq_ok.mp hopen
    cases content with
    | error reason => simp
    | ok text =>
      constructor
      · intro h
        exact ⟨name, text, hname, rfl, (Except.ok.inj h).symm⟩
      · rintro ⟨name', text', hname', htext, rfl⟩
        rw [hname.text_eq hname', Except.ok.inj htext]
        rfl

/-- The item of a number is the integer it spells. -/
theorem serdeJsonNumberItem_spells {text : Str} {item : Bytes}
    (h : serdeJsonNumberItem text = .ok item) : (numberItem (.key (.str text))).Spells item := by
  suffices ∃ k, spelledInteger text = some k ∧ k.Spells item by
    obtain ⟨k, hk, hspells⟩ := this
    rw [numberItem, hk]
    exact .key hspells
  unfold spelledInteger
  unfold serdeJsonNumberItem at h
  split
  · next digits =>
    cases hdecimal : decimal? digits with
    | none => simp [hdecimal, floatRefusal] at h
    | some n =>
      simp only [hdecimal] at h ⊢
      split at h
      · next hbound => exact ⟨_, if_pos hbound, (Except.ok.inj h).symm⟩
      · cases h
  · next hsign =>
    cases hdecimal : decimal? text with
    | none => simp [hdecimal, floatRefusal] at h
    | some n =>
      simp only [hdecimal] at h ⊢
      split at h
      · next hbound => exact ⟨_, if_pos hbound, (Except.ok.inj h).symm⟩
      · cases h

theorem decodedStr_eq_some {value : Item} {item : Bytes} {text : Str} (h : value.Spells item)
    (hdecoded : decodedStr item = some text) : value = .key (.str text) := by
  have htag : value.tag = Tag.STR := by
    obtain ⟨rest, rfl⟩ := h.head
    rw [decodedStr] at hdecoded
    split at hdecoded
    · next hhead => exact hhead.1
    · cases hdecoded
  obtain ⟨k, hk⟩ := Option.isSome_iff_exists.mp (value.isKey_tag.symm.trans (by simp [htag]))
  cases h with
  | @key k item h =>
    cases k with
    | int kind bits => exact absurd htag Key.tag_int
    | str other =>
      obtain ⟨-, rfl⟩ := h
      simp [decodedStr] at hdecoded
      rw [hdecoded]
  | _ => cases hk

theorem encodeNumber_some {text : Str} {fields : List (Str × Value)} {found : Option Str}
    (h : encodeNumber (some text) fields = .ok found) : fields = [] ∧ found = some text := by
  cases fields with
  | nil => exact ⟨rfl, (Except.ok.inj h).symm⟩
  | cons field fields =>
    rw [encodeNumber] at h
    obtain ⟨item, hitem, h⟩ := Outcome.bind_eq_ok.mp h
    split at h <;> simp at h

/-- A number's struct has one field, which is written as the number's text. -/
theorem encodeNumber_spells {text : Str} {fields : List (Str × Value)}
    (hparts : ∀ field ∈ fields, Encodes field.2) (h : encodeNumber none fields = .ok (some text)) :
    canonNumber fields = numberItem (.key (.str text)) := by
  cases fields with
  | nil => cases h
  | cons field fields =>
    rw [encodeNumber] at h
    obtain ⟨item, hitem, h⟩ := Outcome.bind_eq_ok.mp h
    split at h
    · next decimal hdecoded =>
      split at h
      · obtain ⟨rfl, htext⟩ := encodeNumber_some h
        obtain rfl := Option.some.inj htext
        rw [canonNumber, decodedStr_eq_some (hparts field (by simp) item hitem) hdecoded]
      · cases h
    · cases h

/-- What the encoder writes is the item of the value. -/
theorem encode_spells (value : Value) : Encodes value := by
  induction value using childrenInduction with
  | step value ih =>
  intro item h
  cases value with
  | failed reason | f32 value | f64 value => cases h
  | bool value =>
    cases h
    exact .bool value
  | int kind bits =>
    cases h
    exact .key rfl
  | char value | str value | unitVariant value => exact .key (lengthPrefixed_str.mp h)
  | bytes value =>
    obtain ⟨hlen, rfl⟩ := lengthPrefixed_eq_ok.mp h
    exact .bytes hlen
  | none =>
    cases h
    exact .none
  | some value =>
    cases htext : encode value with
    | error reason => simp [encode, htext] at h
    | ok text =>
      simp only [encode, htext, Outcome.ok_bind, Outcome.pure_eq, Except.ok.injEq] at h
      subst h
      exact .some (ih value (by simp [children]) text htext)
  | unit =>
    cases h
    exact .unit
  | newtypeStruct value => exact ih value (by simp [children]) item h
  | newtypeVariant variant value =>
    obtain ⟨name, text, hname, htext, rfl⟩ := variant_eq_ok.mp h
    exact .variant hname (ih value (by simp [children]) text htext)
  | seq elements =>
    rw [encode] at h
    obtain ⟨texts, htexts, h⟩ := Outcome.bind_eq_ok.mp h
    exact encodeElements_spells ih htexts h
  | tupleVariant variant elements =>
    rw [encode_tupleVariant] at h
    obtain ⟨name, text, hname, htext, rfl⟩ := variant_eq_ok.mp h
    obtain ⟨texts, htexts, hseq⟩ := Outcome.bind_eq_ok.mp htext
    exact .variant hname (encodeElements_spells ih htexts hseq)
  | map entries =>
    rw [encode] at h
    obtain ⟨texts, htexts, h⟩ := Outcome.bind_eq_ok.mp h
    refine encodeEntries_spells (fun entry hmem => ⟨ih _ ?_, ih _ ?_⟩) htexts h
    · exact List.mem_flatMap.mpr ⟨entry, hmem, by simp⟩
    · exact List.mem_flatMap.mpr ⟨entry, hmem, by simp⟩
  | struct name fields =>
    rw [encode] at h
    rw [canon]
    by_cases hnumber : name = SERDE_JSON_NUMBER
    · rw [if_pos hnumber] at h ⊢
      obtain ⟨found, hfound, h⟩ := Outcome.bind_eq_ok.mp h
      cases found with
      | none => cases h
      | some text =>
        rw [encodeNumber_spells (fun field hmem => ih _ (List.mem_map_of_mem hmem)) hfound]
        exact serdeJsonNumberItem_spells h
    · rw [if_neg hnumber] at h ⊢
      split at h
      · cases h
      · next hraw =>
        rw [if_neg hraw]
        obtain ⟨texts, htexts, h⟩ := Outcome.bind_eq_ok.mp h
        exact encodeFields_spells ih htexts h
  | structVariant variant fields =>
    rw [encode_structVariant] at h
    obtain ⟨name, text, hname, htext, rfl⟩ := variant_eq_ok.mp h
    obtain ⟨texts, htexts, hmap⟩ := Outcome.bind_eq_ok.mp htext
    exact .variant hname (encodeFields_spells ih (encodeFields_eq fields ▸ htexts) hmap)

/-- The encoding is injective up to what `canon` identifies, and self-delimiting. -/
theorem encode_append_inj {x y : Value} {xs ys s t : Bytes} (hx : encode x = .ok xs)
    (hy : encode y = .ok ys) : xs ++ s = ys ++ t ↔ canon x = canon y ∧ s = t := by
  have hxs := encode_spells x xs hx
  have hys := encode_spells y ys hy
  constructor
  · intro h
    obtain ⟨hitem, -, hrest⟩ := hxs.determines _ _ _ _ hys h
    exact ⟨hitem, hrest⟩
  · rintro ⟨hitem, rfl⟩
    rw [hxs.text_eq hys hitem]

end Heurema.Digest
