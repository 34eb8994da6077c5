import Heurema.Data.Text
import Mathlib.Data.List.TakeWhile
import Mathlib.Order.Bounds.Defs

/-! # JSON

A JSON value is a tree whose numbers are kept as they are written, and
`Json.write` is the compact text of a tree. -/

/-- Drops the digits a text starts with. -/
def dropDigits (s : Str) : Str := s.dropWhile Char.isDigit

/-- The exponent of a number, or nothing. -/
def isExponent : Str → Bool
  | [] => true
  | e :: rest =>
    let digits := match rest with
      | '+' :: digits => digits
      | '-' :: digits => digits
      | _ => rest
    (e = 'e' || e = 'E') && !digits.isEmpty && digits.all Char.isDigit

/-- The fraction of a number and what follows it. -/
def isFraction : Str → Bool
  | '.' :: rest => (rest.head?.any Char.isDigit) && isExponent (dropDigits rest)
  | rest => isExponent rest

/-- The JSON grammar of a number, without its sign. -/
def isUnsigned : Str → Bool
  | [] => false
  | '0' :: rest => isFraction rest
  | digit :: rest => digit.isDigit && isFraction (dropDigits rest)

def isNumber : Str → Bool
  | '-' :: rest => isUnsigned rest
  | rest => isUnsigned rest

/-- The characters a number is written with. -/
def isNumberChar (c : Char) : Bool :=
  c.isDigit || c = '-' || c = '+' || c = '.' || c = 'e' || c = 'E'

theorem numberChars_dropDigits {s : Str} (h : ∀ c ∈ dropDigits s, isNumberChar c = true) :
    ∀ c ∈ s, isNumberChar c = true := by
  intro c hc
  rw [← List.takeWhile_append_dropWhile (p := Char.isDigit) (l := s)] at hc
  rcases List.mem_append.mp hc with hdigit | hrest
  · simp [isNumberChar, List.mem_takeWhile_imp hdigit]
  · exact h c hrest

theorem isExponent_chars {s : Str} (h : isExponent s = true) : ∀ c ∈ s, isNumberChar c = true := by
  rcases s with _ | ⟨e, rest⟩
  · simp
  · simp only [isExponent, Bool.and_eq_true, Bool.or_eq_true, decide_eq_true_eq,
      List.all_eq_true] at h
    obtain ⟨⟨he, -⟩, hdigits⟩ := h
    intro c hc
    rcases List.mem_cons.mp hc with rfl | hc
    · rcases he with rfl | rfl <;> rfl
    · split at hdigits
      · rcases List.mem_cons.mp hc with rfl | hc
        · rfl
        · simp [isNumberChar, hdigits c hc]
      · rcases List.mem_cons.mp hc with rfl | hc
        · rfl
        · simp [isNumberChar, hdigits c hc]
      · simp [isNumberChar, hdigits c hc]

theorem isFraction_chars {s : Str} (h : isFraction s = true) : ∀ c ∈ s, isNumberChar c = true := by
  unfold isFraction at h
  split at h
  · next rest =>
    rw [Bool.and_eq_true] at h
    intro c hc
    rcases List.mem_cons.mp hc with rfl | hc
    · rfl
    · exact numberChars_dropDigits (isExponent_chars h.2) c hc
  · exact isExponent_chars h

theorem isUnsigned_chars {s : Str} (h : isUnsigned s = true) : ∀ c ∈ s, isNumberChar c = true := by
  unfold isUnsigned at h
  split at h
  · simp
  · intro c hc
    rcases List.mem_cons.mp hc with rfl | hc
    · rfl
    · exact isFraction_chars h c hc
  · rw [Bool.and_eq_true] at h
    intro c hc
    rcases List.mem_cons.mp hc with rfl | hc
    · simp [isNumberChar, h.1]
    · exact numberChars_dropDigits (isFraction_chars h.2) c hc

/-- A number is written with the characters of numbers. -/
theorem isNumber_chars {s : Str} (h : isNumber s = true) : ∀ c ∈ s, isNumberChar c = true := by
  unfold isNumber at h
  split at h
  · intro c hc
    rcases List.mem_cons.mp hc with rfl | hc
    · rfl
    · exact isUnsigned_chars h c hc
  · exact isUnsigned_chars h

/-- A number as its text. -/
structure JsonNumber where
  text : Str
  valid : isNumber text = true
deriving DecidableEq

inductive Json where
  | null
  | bool (value : Bool)
  | num (number : JsonNumber)
  | str (value : Str)
  | arr (items : List Json)
  | obj (fields : List (Str × Json))

namespace JsonNumber

theorem isUnsigned_digits {digit : Char} {rest : Str} (hdigit : digit.isDigit = true)
    (hrest : ∀ c ∈ rest, c.isDigit = true) (hlead : digit = '0' → rest = []) :
    isUnsigned (digit :: rest) = true := by
  have hdrop : dropDigits rest = [] := List.dropWhile_eq_nil_iff.mpr hrest
  by_cases hzero : digit = '0'
  · rw [hzero, hlead hzero]
    rfl
  · rw [isUnsigned]
    · simp [hdigit, hdrop, isFraction, isExponent]
    · exact hzero

/-- Decimal digits have no leading zero. -/
theorem toDigits_lead (n : Nat) : ∃ digit rest, Nat.toDigits 10 n = digit :: rest ∧
    digit.isDigit = true ∧ (∀ c ∈ rest, c.isDigit = true) ∧ (digit = '0' → rest = []) := by
  have hall {m : Nat} {c : Char} (hc : c ∈ Nat.toDigits 10 m) : c.isDigit = true :=
    Nat.isDigit_of_mem_toDigits (by decide) (by decide) hc
  induction n using Nat.strong_induction_on with
  | _ n ih =>
    rcases Nat.lt_or_ge n 10 with hn | hn
    · refine ⟨n.digitChar, [], Nat.toDigits_of_lt_base hn, ?_, by simp, fun _ => rfl⟩
      exact hall (m := n) (by simp [Nat.toDigits_of_lt_base hn])
    · obtain ⟨digit, rest, heq, -, -, hlead⟩ := ih (n / 10) (by omega)
      have hn' := Nat.toDigits_of_base_le (by decide : 1 < 10) hn
      rw [heq] at hn'
      refine ⟨digit, rest ++ [(n % 10).digitChar], hn', hall (m := n) (by simp [hn']),
        fun c hc => hall (m := n) (by rw [hn']; exact List.mem_cons_of_mem _ hc), fun hzero => ?_⟩
      -- The digits of the quotient would be those of zero.
      have hval := Nat.ofDigitChars_ten_toDigits (n := n / 10)
      rw [heq, hzero, hlead hzero] at hval
      have : Nat.ofDigitChars 10 ['0'] 0 = 0 := rfl
      omega

theorem isUnsigned_toDigits (n : Nat) : isUnsigned (Nat.toDigits 10 n) = true := by
  obtain ⟨digit, rest, heq, hdigit, hrest, hlead⟩ := toDigits_lead n
  rw [heq]
  exact isUnsigned_digits hdigit hrest hlead

theorem isNumber_toDigits (n : Nat) : isNumber (Nat.toDigits 10 n) = true := by
  obtain ⟨digit, rest, heq, hdigit, -, -⟩ := toDigits_lead n
  have hunsigned := isUnsigned_toDigits n
  rw [heq] at hunsigned ⊢
  rw [isNumber]
  · exact hunsigned
  · intro rest' h
    obtain ⟨rfl, -⟩ := List.cons.inj h
    cases hdigit

/-- A natural number in decimal. -/
def ofNat (n : Nat) : JsonNumber := ⟨Nat.toDigits 10 n, isNumber_toDigits n⟩

/-- An integer in decimal. -/
def ofInt : Int → JsonNumber
  | .ofNat n => ofNat n
  | .negSucc n => ⟨'-' :: Nat.toDigits 10 (n + 1), isUnsigned_toDigits (n + 1)⟩

/-- The natural number a text of digits alone stands for. -/
def toNat? (number : JsonNumber) : Option Nat :=
  if number.text.all Char.isDigit then some (Nat.ofDigitChars 10 number.text 0) else none

@[simp] theorem toNat?_ofNat (n : Nat) : (ofNat n).toNat? = some n := by
  have hall : (Nat.toDigits 10 n).all Char.isDigit = true :=
    List.all_eq_true.mpr fun _ hc => Nat.isDigit_of_mem_toDigits (by decide) (by decide) hc
  simp [toNat?, ofNat, hall, Nat.ofDigitChars_ten_toDigits]

end JsonNumber

namespace Json

/-! ## Text -/

def hexDigit (n : Nat) : Char := "0123456789abcdef".toList.getD n '0'

/-- A character inside a string. -/
def escape (c : Char) : Str :=
  if c = '"' then "\\\"".toList
  else if c = '\\' then "\\\\".toList
  else if c.toNat = 8 then "\\b".toList
  else if c.toNat = 9 then "\\t".toList
  else if c.toNat = 10 then "\\n".toList
  else if c.toNat = 12 then "\\f".toList
  else if c.toNat = 13 then "\\r".toList
  else if c.toNat < 32 then "\\u00".toList ++ [hexDigit (c.toNat / 16), hexDigit (c.toNat % 16)]
  else [c]

def quote (s : Str) : Str := '"' :: s.flatMap escape ++ ['"']

mutual

/-- The compact text. -/
def write : Json → Str
  | null => "null".toList
  | bool true => "true".toList
  | bool false => "false".toList
  | num number => number.text
  | str value => quote value
  | arr [] => "[]".toList
  | arr (item :: items) => '[' :: write item ++ writeItems items
  | obj [] => "\x7b\x7d".toList
  | obj ((key, value) :: fields) => '\x7b' :: quote key ++ ':' :: write value ++ writeFields fields

/-- The items of an array from the second on, and its end. -/
def writeItems : List Json → Str
  | [] => [']']
  | item :: items => ',' :: write item ++ writeItems items

/-- The fields of an object from the second on, and its end. -/
def writeFields : List (Str × Json) → Str
  | [] => ['\x7d']
  | (key, value) :: fields => ',' :: quote key ++ ':' :: write value ++ writeFields fields

end

/-- `serde_json::to_vec` of a tree. -/
def toVec (json : Json) : Bytes := Str.asBytes json.write

mutual

/-- The deepest nesting of arrays and objects. -/
def depth : Json → Nat
  | null | bool _ | num _ | str _ => 0
  | arr items => depthItems items + 1
  | obj fields => depthFields fields + 1

def depthItems : List Json → Nat
  | [] => 0
  | item :: items => max (depth item) (depthItems items)

def depthFields : List (Str × Json) → Nat
  | [] => 0
  | (_, value) :: fields => max (depth value) (depthFields fields)

end

theorem depthItems_le {n : Nat} {items : List Json} (h : ∀ item ∈ items, item.depth ≤ n) :
    depthItems items ≤ n := by
  induction items with
  | nil => exact Nat.zero_le n
  | cons item items ih =>
    rw [depthItems]
    exact Nat.max_le.mpr ⟨h item (by simp), ih fun other hmem => h other (List.mem_cons_of_mem _ hmem)⟩

theorem depthFields_le {n : Nat} {fields : List (Str × Json)}
    (h : ∀ field ∈ fields, field.2.depth ≤ n) : depthFields fields ≤ n := by
  induction fields with
  | nil => exact Nat.zero_le n
  | cons field fields ih =>
    obtain ⟨key, value⟩ := field
    rw [depthFields]
    exact Nat.max_le.mpr
      ⟨h (key, value) (by simp), ih fun other hmem => h other (List.mem_cons_of_mem _ hmem)⟩

theorem depth_arr {n : Nat} {items : List Json} (h : ∀ item ∈ items, item.depth ≤ n) :
    (arr items).depth ≤ n + 1 := Nat.succ_le_succ (depthItems_le h)

theorem depth_obj {n : Nat} {fields : List (Str × Json)}
    (h : ∀ field ∈ fields, field.2.depth ≤ n) : (obj fields).depth ≤ n + 1 :=
  Nat.succ_le_succ (depthFields_le h)

/-! ## The arrays and objects around a point -/

/-- Some point of a value lies inside `n` arrays and objects. -/
inductive Encloses : Json → Nat → Prop where
  | at (json : Json) : Encloses json 0
  | array (items : List Json) : Encloses (.arr items) 1
  | object (fields : List (Str × Json)) : Encloses (.obj fields) 1
  | item {items : List Json} {item : Json} {n : Nat} (hmem : item ∈ items)
      (h : Encloses item n) : Encloses (.arr items) (n + 1)
  | field {fields : List (Str × Json)} {field : Str × Json} {n : Nat} (hmem : field ∈ fields)
      (h : Encloses field.2 n) : Encloses (.obj fields) (n + 1)

theorem le_depthItems {items : List Json} {item : Json} (hmem : item ∈ items) :
    item.depth ≤ depthItems items := by
  induction items with
  | nil => cases hmem
  | cons first rest ih =>
    rw [depthItems]
    rcases List.mem_cons.mp hmem with rfl | hrest
    · exact Nat.le_max_left _ _
    · exact (ih hrest).trans (Nat.le_max_right _ _)

theorem le_depthFields {fields : List (Str × Json)} {field : Str × Json}
    (hmem : field ∈ fields) : field.2.depth ≤ depthFields fields := by
  induction fields with
  | nil => cases hmem
  | cons first rest ih =>
    obtain ⟨key, value⟩ := first
    rw [depthFields]
    rcases List.mem_cons.mp hmem with rfl | hrest
    · exact Nat.le_max_left _ _
    · exact (ih hrest).trans (Nat.le_max_right _ _)

/-- No point of a value is inside more than its depth. -/
theorem Encloses.le_depth {json : Json} {n : Nat} (h : json.Encloses n) : n ≤ json.depth := by
  induction h with
  | «at» json => exact Nat.zero_le _
  | array items => exact Nat.succ_le_succ (Nat.zero_le _)
  | object fields => exact Nat.succ_le_succ (Nat.zero_le _)
  | item hmem h ih => exact Nat.succ_le_succ (ih.trans (le_depthItems hmem))
  | field hmem h ih => exact Nat.succ_le_succ (ih.trans (le_depthFields hmem))

mutual

/-- Some point of a value is inside its depth. -/
theorem encloses_depth : ∀ json : Json, json.Encloses json.depth
  | .null | .bool _ | .num _ | .str _ => .at _
  | .arr items => by
    rcases encloses_depthItems items with hzero | ⟨item, hmem, h⟩
    · rw [depth, hzero]
      exact .array items
    · exact .item hmem h
  | .obj fields => by
    rcases encloses_depthFields fields with hzero | ⟨field, hmem, h⟩
    · rw [depth, hzero]
      exact .object fields
    · exact .field hmem h

theorem encloses_depthItems : ∀ items : List Json, depthItems items = 0 ∨
    ∃ item ∈ items, item.Encloses (depthItems items)
  | [] => .inl rfl
  | item :: items => by
    have hitem := encloses_depth item
    rw [depthItems]
    rcases Nat.le_total (depthItems items) item.depth with hle | hle
    · rw [Nat.max_eq_left hle]
      exact .inr ⟨item, List.mem_cons_self, hitem⟩
    · rw [Nat.max_eq_right hle]
      rcases encloses_depthItems items with hzero | ⟨other, hmem, h⟩
      · exact .inl hzero
      · exact .inr ⟨other, List.mem_cons_of_mem _ hmem, h⟩

theorem encloses_depthFields : ∀ fields : List (Str × Json), depthFields fields = 0 ∨
    ∃ field ∈ fields, field.2.Encloses (depthFields fields)
  | [] => .inl rfl
  | (key, value) :: fields => by
    have hvalue := encloses_depth value
    rw [depthFields]
    rcases Nat.le_total (depthFields fields) value.depth with hle | hle
    · rw [Nat.max_eq_left hle]
      exact .inr ⟨(key, value), List.mem_cons_self, hvalue⟩
    · rw [Nat.max_eq_right hle]
      rcases encloses_depthFields fields with hzero | ⟨other, hmem, h⟩
      · exact .inl hzero
      · exact .inr ⟨other, List.mem_cons_of_mem _ hmem, h⟩

end

/-- The depth of a value is the most arrays and objects around any of its points. -/
theorem depth_isGreatest (json : Json) : IsGreatest {n | json.Encloses n} json.depth :=
  ⟨encloses_depth json, fun _ h => Encloses.le_depth h⟩

mutual

/-- The value with other strings and keys. -/
def relabel (text : Str → Str) : Json → Json
  | null => null
  | bool value => bool value
  | num number => num number
  | str value => str (text value)
  | arr items => arr (relabelItems text items)
  | obj fields => obj (relabelFields text fields)

def relabelItems (text : Str → Str) : List Json → List Json
  | [] => []
  | item :: items => relabel text item :: relabelItems text items

def relabelFields (text : Str → Str) : List (Str × Json) → List (Str × Json)
  | [] => []
  | (key, value) :: fields => (text key, relabel text value) :: relabelFields text fields

end

mutual

theorem depth_relabel (text : Str → Str) : ∀ json : Json, (json.relabel text).depth = json.depth
  | .null | .bool _ | .num _ | .str _ => rfl
  | .arr items => by rw [relabel, depth, depth, depth_relabelItems text items]
  | .obj fields => by rw [relabel, depth, depth, depth_relabelFields text fields]

theorem depth_relabelItems (text : Str → Str) : ∀ items : List Json,
    depthItems (relabelItems text items) = depthItems items
  | [] => rfl
  | item :: items => by
    rw [relabelItems, depthItems, depthItems, depth_relabel text item,
      depth_relabelItems text items]

theorem depth_relabelFields (text : Str → Str) : ∀ fields : List (Str × Json),
    depthFields (relabelFields text fields) = depthFields fields
  | [] => rfl
  | (key, value) :: fields => by
    rw [relabelFields, depthFields, depthFields, depth_relabel text value,
      depth_relabelFields text fields]

end

end Json
