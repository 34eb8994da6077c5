import Heurema.Data.Serde

/-! # A reader of compact JSON

It reads what `Json.write` writes and refuses everything else, so it is a codec to
run the records with. A float is written as its bits, which no decimal text would
keep apart. -/

open Serde

namespace Json

def hexValue (c : Char) : Nat := "0123456789abcdef".toList.idxOf c

/-- The character that an escape stands for, after its backslash, and what follows. -/
def unescape : Str → Option (Char × Str)
  | 'u' :: '0' :: '0' :: high :: low :: rest =>
    some (Char.ofNat (16 * hexValue high + hexValue low), rest)
  | '"' :: rest => some ('"', rest)
  | '\\' :: rest => some ('\\', rest)
  | 'b' :: rest => some (Char.ofNat 8, rest)
  | 't' :: rest => some (Char.ofNat 9, rest)
  | 'n' :: rest => some (Char.ofNat 10, rest)
  | 'f' :: rest => some (Char.ofNat 12, rest)
  | 'r' :: rest => some (Char.ofNat 13, rest)
  | _ => none

/-- A string, after its opening quote, and what follows it. -/
def readString : Nat → Str → Option (Str × Str)
  | 0, _ => none
  | _ + 1, [] => none
  | fuel + 1, c :: text =>
    if c = '"' then some ([], text)
    else if c = '\\' then do
      let (c, text) ← unescape text
      let (s, rest) ← readString fuel text
      return (c :: s, rest)
    else do
      let (s, rest) ← readString fuel text
      return (c :: s, rest)

def readWord : Str → Option (Json × Str)
  | 'n' :: 'u' :: 'l' :: 'l' :: rest => some (null, rest)
  | 't' :: 'r' :: 'u' :: 'e' :: rest => some (bool true, rest)
  | 'f' :: 'a' :: 'l' :: 's' :: 'e' :: rest => some (bool false, rest)
  | _ => none

def readNumber (text : Str) : Option (Json × Str) :=
  if h : isNumber (text.takeWhile isNumberChar) = true then
    some (num ⟨text.takeWhile isNumberChar, h⟩, text.dropWhile isNumberChar)
  else none

/-- The key of a field and its colon. -/
def readKey (fuel : Nat) : Str → Option (Str × Str)
  | '"' :: text => do
    match ← readString fuel text with
    | (key, ':' :: rest) => return (key, rest)
    | _ => none
  | _ => none

mutual

/-- A value and what follows it. -/
def read : Nat → Str → Option (Json × Str)
  | 0, _ => none
  | _ + 1, [] => none
  | fuel + 1, c :: text =>
    if c = '"' then do
      let (s, rest) ← readString fuel text
      return (str s, rest)
    else if c = '[' then
      if text.head? = some ']' then some (arr [], text.tail)
      else do
        let (item, rest) ← read fuel text
        let (items, rest) ← readItems fuel rest
        return (arr (item :: items), rest)
    else if c = '\x7b' then
      if text.head? = some '\x7d' then some (obj [], text.tail)
      else do
        let (key, rest) ← readKey fuel text
        let (value, rest) ← read fuel rest
        let (fields, rest) ← readFields fuel rest
        return (obj ((key, value) :: fields), rest)
    else if isNumberChar c then readNumber (c :: text)
    else readWord (c :: text)

/-- The items of an array from the second on, its end, and what follows it. -/
def readItems : Nat → Str → Option (List Json × Str)
  | 0, _ => none
  | _ + 1, ']' :: rest => some ([], rest)
  | fuel + 1, ',' :: text => do
    let (item, rest) ← read fuel text
    let (items, rest) ← readItems fuel rest
    return (item :: items, rest)
  | _ + 1, _ => none

/-- The fields of an object from the second on, its end, and what follows it. -/
def readFields : Nat → Str → Option (List (Str × Json) × Str)
  | 0, _ => none
  | _ + 1, '\x7d' :: rest => some ([], rest)
  | fuel + 1, ',' :: text => do
    let (key, rest) ← readKey fuel text
    let (value, rest) ← read fuel rest
    let (fields, rest) ← readFields fuel rest
    return ((key, value) :: fields, rest)
  | _ + 1, _ => none

end

theorem hexValue_hexDigit : ∀ n < 16, hexValue (hexDigit n) = n := by decide

/-- A character is written as itself or as an escape that stands for it. -/
theorem unescape_escape (c : Char) : (escape c = [c] ∧ c ≠ '"' ∧ c ≠ '\\') ∨
    ∃ tail, escape c = '\\' :: tail ∧ ∀ rest, unescape (tail ++ rest) = some (c, rest) := by
  have hchar {n : Nat} (h : c.toNat = n) : c = Char.ofNat n := by rw [← h, Char.ofNat_toNat]
  rw [escape]
  split
  · next h => exact .inr ⟨_, rfl, fun rest => by rw [h]; rfl⟩
  next hquote =>
  split
  · next h => exact .inr ⟨_, rfl, fun rest => by rw [h]; rfl⟩
  next hslash =>
  split
  · next h => exact .inr ⟨_, rfl, fun rest => by rw [hchar h]; rfl⟩
  split
  · next h => exact .inr ⟨_, rfl, fun rest => by rw [hchar h]; rfl⟩
  split
  · next h => exact .inr ⟨_, rfl, fun rest => by rw [hchar h]; rfl⟩
  split
  · next h => exact .inr ⟨_, rfl, fun rest => by rw [hchar h]; rfl⟩
  split
  · next h => exact .inr ⟨_, rfl, fun rest => by rw [hchar h]; rfl⟩
  split
  · next hcontrol =>
    refine .inr ⟨_, rfl, fun rest => ?_⟩
    have hhigh := hexValue_hexDigit (c.toNat / 16) (by omega)
    have hlow := hexValue_hexDigit (c.toNat % 16) (by omega)
    show some (Char.ofNat (16 * hexValue (hexDigit _) + hexValue (hexDigit _)), rest) = _
    rw [hhigh, hlow, Nat.div_add_mod, Char.ofNat_toNat]
  · exact .inl ⟨rfl, hquote, hslash⟩

/-- A string is read back from its escaped characters. -/
theorem readString_quote (s rest : Str) (fuel : Nat) (hfuel : s.length < fuel) :
    readString fuel (s.flatMap escape ++ '"' :: rest) = some (s, rest) := by
  induction s generalizing fuel with
  | nil =>
    obtain ⟨fuel, rfl⟩ := Nat.exists_eq_add_one_of_ne_zero (Nat.ne_of_gt hfuel)
    rfl
  | cons c s ih =>
    obtain ⟨fuel, rfl⟩ := Nat.exists_eq_add_one_of_ne_zero (Nat.ne_of_gt (Nat.zero_lt_of_lt hfuel))
    have hrest := ih fuel (Nat.lt_of_succ_lt_succ hfuel)
    rw [List.flatMap_cons]
    rcases unescape_escape c with hplain | hescaped
    · obtain ⟨hself, hquote, hslash⟩ := hplain
      simp [hself, readString, hquote, hslash, hrest]
    · obtain ⟨tail, htail, hread⟩ := hescaped
      simp [htail, readString, hread, hrest]

/-- What follows a number does not continue it. -/
def Ends (rest : Str) : Prop := ∀ c ∈ rest.head?, isNumberChar c = false

theorem readNumber_text (number : JsonNumber) {rest : Str} (hrest : Ends rest) :
    readNumber (number.text ++ rest) = some (num number, rest) := by
  have hchars := isNumber_chars number.valid
  have htake : (number.text ++ rest).takeWhile isNumberChar = number.text := by
    rw [List.takeWhile_append_of_pos hchars]
    cases rest with
    | nil => simp
    | cons c rest => simp [hrest c rfl]
  have hdrop : (number.text ++ rest).dropWhile isNumberChar = rest := by
    rw [List.dropWhile_append_of_pos hchars]
    cases rest with
    | nil => rfl
    | cons c rest => simp [hrest c rfl]
  rw [readNumber, dif_pos (by rw [htake]; exact number.valid), hdrop]
  simp only [htake]

/-- A number starts with a digit or a sign. -/
theorem number_head (number : JsonNumber) : ∃ c text, number.text = c :: text ∧
    isNumberChar c = true ∧ c ≠ '"' ∧ c ≠ '[' ∧ c ≠ '\x7b' := by
  cases htext : number.text with
  | nil =>
    have hvalid := number.valid
    rw [htext] at hvalid
    cases hvalid
  | cons c text =>
    have hc : isNumberChar c = true := isNumber_chars number.valid c (by simp [htext])
    refine ⟨c, text, rfl, hc, ?_, ?_, ?_⟩ <;> (rintro rfl; cases hc)

theorem readKey_quote (key rest : Str) (fuel : Nat) (hfuel : key.length < fuel) :
    readKey fuel (quote key ++ ':' :: rest) = some (key, rest) := by
  have hread := readString_quote key (':' :: rest) fuel hfuel
  simp [quote, readKey, hread]

theorem length_le_quote (s : Str) : s.length + 2 ≤ (quote s).length := by
  have hlength : s.length ≤ (s.flatMap escape).length := by
    induction s with
    | nil => simp
    | cons c s ih =>
      have hne : 1 ≤ (escape c).length := by
        rcases unescape_escape c with hplain | hescaped
        · simp [hplain.1]
        · obtain ⟨tail, htail, -⟩ := hescaped
          simp [htail]
      simp only [List.flatMap_cons, List.length_append, List.length_cons]
      omega
  simp only [quote, List.length_cons, List.length_append]
  omega

theorem exists_fuel {n fuel : Nat} (hpos : 0 < n) (hfuel : n ≤ fuel) : ∃ less, fuel = less + 1 :=
  Nat.exists_eq_add_one_of_ne_zero (Nat.ne_of_gt (Nat.lt_of_lt_of_le hpos hfuel))

theorem ends_items (items : List Json) (rest : Str) : Ends (writeItems items ++ rest) := by
  cases items <;> simp [Ends, writeItems] <;> rfl

theorem ends_fields (fields : List (Str × Json)) (rest : Str) :
    Ends (writeFields fields ++ rest) := by
  cases fields <;> simp [Ends, writeFields] <;> rfl

/-- A value does not start as the end of an array. -/
theorem write_head (json : Json) (rest : Str) : (json.write ++ rest).head? ≠ some ']' := by
  cases json with
  | null => simp [write]
  | bool value => cases value <;> simp [write]
  | num number =>
    obtain ⟨c, text, htext, hc, -⟩ := number_head number
    rw [write, htext]
    rintro ⟨⟩
    cases hc
  | str value => simp [write, quote]
  | arr items => cases items <;> simp [write]
  | obj fields => rcases fields with _ | ⟨⟨key, value⟩, fields⟩ <;> simp [write]

mutual

/-- A value is read back from its text. -/
theorem read_write : ∀ (json : Json) (rest : Str) (fuel : Nat), json.write.length ≤ fuel →
    Ends rest → read fuel (json.write ++ rest) = some (json, rest)
  | null, rest, fuel, hfuel, _ => by
    obtain ⟨fuel, rfl⟩ := exists_fuel (by decide) hfuel
    rfl
  | bool value, rest, fuel, hfuel, _ => by
    obtain ⟨fuel, rfl⟩ := exists_fuel (by cases value <;> decide) hfuel
    cases value <;> rfl
  | num number, rest, fuel, hfuel, hrest => by
    obtain ⟨c, text, htext, hc, hquote, harr, hobj⟩ := number_head number
    have hread := readNumber_text number hrest
    rw [write, htext] at hfuel ⊢
    rw [htext] at hread
    obtain ⟨fuel, rfl⟩ := exists_fuel (by simp) hfuel
    simpa [read, hc, hquote, harr, hobj] using hread
  | str value, rest, fuel, hfuel, _ => by
    rw [write] at hfuel ⊢
    have hlength := length_le_quote value
    obtain ⟨fuel, rfl⟩ := exists_fuel (by omega) hfuel
    have hread := readString_quote value rest fuel (by omega)
    simp [read, quote, hread]
  | arr [], rest, fuel, hfuel, _ => by
    obtain ⟨fuel, rfl⟩ := exists_fuel (by decide) hfuel
    rfl
  | arr (item :: items), rest, fuel, hfuel, _ => by
    simp only [write, List.length_cons, List.length_append] at hfuel
    obtain ⟨fuel, rfl⟩ := exists_fuel (by omega) hfuel
    have hitem := read_write item _ fuel (by omega) (ends_items items rest)
    have hitems := readItems_write items rest fuel (by omega)
    have hhead := write_head item (writeItems items ++ rest)
    simp only [write, List.cons_append, List.append_assoc]
    rw [read, if_neg (by decide), if_pos rfl, if_neg hhead]
    simp [hitem, hitems]
  | obj [], rest, fuel, hfuel, _ => by
    obtain ⟨fuel, rfl⟩ := exists_fuel (by decide) hfuel
    rfl
  | obj ((key, value) :: fields), rest, fuel, hfuel, _ => by
    have hlength := length_le_quote key
    simp only [write, List.length_cons, List.length_append] at hfuel
    obtain ⟨fuel, rfl⟩ := exists_fuel (by omega) hfuel
    have hkey := readKey_quote key (value.write ++ (writeFields fields ++ rest)) fuel (by omega)
    have hvalue := read_write value _ fuel (by omega) (ends_fields fields rest)
    have hfields := readFields_write fields rest fuel (by omega)
    simp only [write, List.cons_append, List.append_assoc]
    rw [read, if_neg (by decide), if_neg (by decide), if_pos rfl, if_neg (by simp [quote])]
    simp [hkey, hvalue, hfields]

theorem readItems_write : ∀ (items : List Json) (rest : Str) (fuel : Nat),
    (writeItems items).length ≤ fuel →
    readItems fuel (writeItems items ++ rest) = some (items, rest)
  | [], rest, fuel, hfuel => by
    obtain ⟨fuel, rfl⟩ := exists_fuel (by decide) hfuel
    rfl
  | item :: items, rest, fuel, hfuel => by
    simp only [writeItems, List.length_cons, List.length_append] at hfuel
    obtain ⟨fuel, rfl⟩ := exists_fuel (by omega) hfuel
    have hitem := read_write item _ fuel (by omega) (ends_items items rest)
    have hitems := readItems_write items rest fuel (by omega)
    simp [writeItems, readItems, hitem, hitems]

theorem readFields_write : ∀ (fields : List (Str × Json)) (rest : Str) (fuel : Nat),
    (writeFields fields).length ≤ fuel →
    readFields fuel (writeFields fields ++ rest) = some (fields, rest)
  | [], rest, fuel, hfuel => by
    obtain ⟨fuel, rfl⟩ := exists_fuel (by decide) hfuel
    rfl
  | (key, value) :: fields, rest, fuel, hfuel => by
    have hlength := length_le_quote key
    simp only [writeFields, List.length_cons, List.length_append] at hfuel
    obtain ⟨fuel, rfl⟩ := exists_fuel (by omega) hfuel
    have hkey := readKey_quote key (value.write ++ (writeFields fields ++ rest)) fuel (by omega)
    have hvalue := read_write value _ fuel (by omega) (ends_fields fields rest)
    have hfields := readFields_write fields rest fuel (by omega)
    simp [writeFields, readFields, hkey, hvalue, hfields]

end

/-- The value a text holds and nothing else, within the recursion limit. -/
def fromSlice (bytes : Bytes) : Except String Json :=
  match Str.fromUtf8 bytes with
  | none => .error "invalid unicode code point"
  | some text =>
    match read text.length text with
    | some (json, []) => if json.depth ≤ 127 then .ok json else .error "recursion limit exceeded"
    | _ => .error "expected value"

theorem fromSlice_toVec (json : Json) (hdepth : json.depth ≤ 127) :
    fromSlice json.toVec = .ok json := by
  have hread := read_write json [] json.write.length (Nat.le_refl _)
    (fun c hc => by cases hc)
  rw [List.append_nil] at hread
  simp only [fromSlice, toVec, Str.fromUtf8_asBytes, hread, hdepth, if_true]

end Json

namespace Serde

/-- The codec of compact text. -/
@[reducible] def SerdeJson.compact : SerdeJson where
  f32Text x := .ofNat x.bits.toNat
  f64Text x := .ofNat x.bits.toNat
  readF32 number := number.toNat?.map fun bits => ⟨BitVec.ofNat 32 bits⟩
  fromSlice := Json.fromSlice
  readF32_f32Text x _ := by simp
  fromSlice_toVec := Json.fromSlice_toVec

end Serde
