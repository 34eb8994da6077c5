import Heurema.Data.Json

/-! # The nesting of JSON text

`jsonDepth` scans bytes for brackets outside strings. On the text of a tree it
finds the depth of the tree. -/

namespace Heurema

/-- The scanner: the open brackets, the most that were open, and where in a
string it is. -/
structure Scan where
  depth : Nat
  deepest : Nat
  inString : Bool
  escaped : Bool

namespace Scan

def step (scan : Scan) (byte : UInt8) : Scan :=
  if scan.inString then
    if scan.escaped then { scan with escaped := false }
    else if byte = 0x5c then { scan with escaped := true }
    else if byte = 0x22 then { scan with inString := false }
    else scan
  else if byte = 0x22 then { scan with inString := true }
  else if byte = 0x5b ∨ byte = 0x7b then
    { scan with depth := scan.depth + 1, deepest := max scan.deepest (scan.depth + 1) }
  -- `saturating_sub`
  else if byte = 0x5d ∨ byte = 0x7d then { scan with depth := scan.depth - 1 }
  else scan

/-- Outside a string, under `depth` brackets. -/
def outside (depth deepest : Nat) : Scan := ⟨depth, deepest, false, false⟩

/-- Inside a string. -/
def inside (depth deepest : Nat) : Scan := ⟨depth, deepest, true, false⟩

end Scan

/-- The deepest nesting of arrays and objects in JSON text. -/
def jsonDepth (bytes : Bytes) : Nat := (bytes.foldl Scan.step (.outside 0 0)).deepest

namespace Scan

variable {d m : Nat}

/-- The scan of a text, byte by byte. -/
def text (scan : Scan) (s : Str) : Scan := s.asBytes.foldl step scan

@[simp] theorem text_append (scan : Scan) (s t : Str) :
    scan.text (s ++ t) = (scan.text s).text t := by
  simp [text]

theorem text_cons (scan : Scan) (c : Char) (s : Str) :
    scan.text (c :: s) = (scan.text [c]).text s :=
  text_append scan [c] s

theorem text_ascii (scan : Scan) {c : Char} (h : c.toNat < 128) :
    scan.text [c] = scan.step (UInt8.ofNat c.toNat) := by
  simp [text, Str.asBytes, Str.utf8EncodeChar_ascii h]

/-- A byte outside a string that is neither a quote nor a bracket. -/
theorem outside_other {byte : UInt8} (hquote : byte ≠ 0x22) (hopen : byte ≠ 0x5b ∧ byte ≠ 0x7b)
    (hclose : byte ≠ 0x5d ∧ byte ≠ 0x7d) : (outside d m).step byte = outside d m := by
  simp [outside, step, hquote, hopen, hclose]

theorem number_byte : ∀ n < 128, isNumberChar (Char.ofNat n) = true → UInt8.ofNat n ≠ 0x22 ∧
    (UInt8.ofNat n ≠ 0x5b ∧ UInt8.ofNat n ≠ 0x7b) ∧ UInt8.ofNat n ≠ 0x5d ∧ UInt8.ofNat n ≠ 0x7d := by
  decide

theorem numberChar_ascii {c : Char} (h : isNumberChar c = true) : c.toNat < 128 := by
  simp only [isNumberChar, Bool.or_eq_true, decide_eq_true_eq] at h
  rcases h with ((((hdigit | rfl) | rfl) | rfl) | rfl) | rfl
  · have hle : c.val ≤ 57 := by
      simp only [Char.isDigit, Bool.and_eq_true, decide_eq_true_eq] at hdigit
      exact hdigit.2
    exact lt_of_le_of_lt (UInt32.le_iff_toNat_le.mp hle) (by decide)
  all_goals decide

theorem outside_number {s : Str} (h : ∀ c ∈ s, isNumberChar c = true) :
    (outside d m).text s = outside d m := by
  induction s with
  | nil => rfl
  | cons c s ih =>
    obtain ⟨hc, hs⟩ := List.forall_mem_cons.mp h
    have hascii := numberChar_ascii hc
    obtain ⟨hquote, hopen, hclose⟩ := number_byte c.toNat hascii (by rwa [Char.ofNat_toNat])
    rw [text_cons, text_ascii _ hascii, outside_other hquote hopen hclose, ih hs]

/-- Bytes that leave a string open: a backslash comes with the byte after it. -/
def skips : Bytes → Bool
  | [] => true
  | byte :: rest =>
    if byte = 0x5c then
      match rest with
      | [] => false
      | _ :: rest => skips rest
    else byte ≠ 0x22 && skips rest

theorem foldl_skips (bytes : Bytes) (h : skips bytes = true) :
    bytes.foldl step (inside d m) = inside d m := by
  fun_induction skips bytes with
  | case1 => rfl
  | case2 => cases h
  | case3 byte rest ih =>
    rw [List.foldl_cons, List.foldl_cons]
    exact ih h
  | case4 byte rest hbyte ih =>
    simp only [Bool.and_eq_true, decide_eq_true_eq] at h
    have hstep : (inside d m).step byte = inside d m := by
      simp [inside, step, hbyte, h.1]
    rw [List.foldl_cons, hstep, ih h.2]

theorem skips_high {bytes : Bytes} (h : ∀ byte ∈ bytes, 128 ≤ byte.toNat) : skips bytes = true := by
  induction bytes with
  | nil => rfl
  | cons byte bytes ih =>
    obtain ⟨hbyte, hbytes⟩ := List.forall_mem_cons.mp h
    have hslash : byte ≠ 0x5c := by rintro rfl; exact absurd hbyte (by decide)
    have hquote : byte ≠ 0x22 := by rintro rfl; exact absurd hbyte (by decide)
    rw [skips.eq_def]
    simp [hslash, hquote, ih hbytes]

theorem skips_escape_ascii : ∀ n < 128, skips (Str.asBytes (Json.escape (Char.ofNat n))) = true := by
  decide +kernel

/-- A character of a string is skipped, escapes included. -/
theorem inside_escape (c : Char) : (inside d m).text (Json.escape c) = inside d m := by
  refine foldl_skips _ ?_
  rcases Nat.lt_or_ge c.toNat 128 with hc | hc
  · simpa only [Char.ofNat_toNat] using skips_escape_ascii c.toNat hc
  · have hne {x : Char} (hx : x.toNat < 128) : c ≠ x := by rintro rfl; omega
    have hescape : Json.escape c = [c] := by
      rw [Json.escape, if_neg (hne (by decide)), if_neg (hne (by decide)), if_neg (by omega),
        if_neg (by omega), if_neg (by omega), if_neg (by omega), if_neg (by omega),
        if_neg (by omega)]
    rw [hescape, Str.asBytes, List.flatMap_singleton]
    exact skips_high (Str.utf8EncodeChar_high hc)

theorem outside_quote (s : Str) : (outside d m).text (Json.quote s) = outside d m := by
  have hchars : (inside d m).text (s.flatMap Json.escape) = inside d m := by
    induction s with
    | nil => rfl
    | cons c s ih => rw [List.flatMap_cons, text_append, inside_escape, ih]
  have hopen : (outside d m).text ['"'] = inside d m := rfl
  have hclose : (inside d m).text ['"'] = outside d m := rfl
  rw [Json.quote, text_append, text_cons _ '"' (s.flatMap _), hopen, hchars, hclose]

theorem outside_open {c : Char} (hc : c = '[' ∨ c = '\x7b') :
    (outside d m).text [c] = outside (d + 1) (max m (d + 1)) := by
  rcases hc with rfl | rfl <;> rfl

theorem outside_close {c : Char} (hc : c = ']' ∨ c = '\x7d') :
    (outside d m).text [c] = outside (d - 1) m := by
  rcases hc with rfl | rfl <;> rfl

theorem outside_mark {c : Char} (hc : c = ',' ∨ c = ':') :
    (outside d m).text [c] = outside d m := by
  rcases hc with rfl | rfl <;> rfl

mutual

/-- The text of a tree leaves the scan under as many brackets as before it. -/
theorem outside_write (json : Json) (d m : Nat) (h : d ≤ m) :
    (outside d m).text json.write = outside d (max m (d + json.depth)) := by
  have hm : max m d = m := max_eq_left h
  match json with
  | .null => simp only [Json.write, Json.depth, Nat.add_zero, hm]; rfl
  | .bool true => simp only [Json.write, Json.depth, Nat.add_zero, hm]; rfl
  | .bool false => simp only [Json.write, Json.depth, Nat.add_zero, hm]; rfl
  | .num number =>
    simp only [Json.write, Json.depth, Nat.add_zero, hm]
    exact outside_number (isNumber_chars number.valid)
  | .str value =>
    simp only [Json.write, Json.depth, Nat.add_zero, hm]
    exact outside_quote value
  | .arr [] => rfl
  | .arr (item :: items) =>
    simp only [Json.write, Json.depth, Json.depthItems, List.cons_append]
    rw [text_cons, outside_open (.inl rfl), text_append, outside_write item _ _ (by omega),
      outside_writeItems items _ _ (by omega)]
    congr 1
    omega
  | .obj [] => rfl
  | .obj ((key, value) :: fields) =>
    simp only [Json.write, Json.depth, Json.depthFields, List.cons_append, List.append_assoc]
    rw [text_cons, outside_open (.inr rfl), text_append, outside_quote, text_cons,
      outside_mark (.inr rfl), text_append, outside_write value _ _ (by omega),
      outside_writeFields fields _ _ (by omega)]
    congr 1
    omega

theorem outside_writeItems (items : List Json) (d m : Nat) (h : d ≤ m) :
    (outside d m).text (Json.writeItems items) =
      outside (d - 1) (max m (d + Json.depthItems items)) := by
  match items with
  | [] => simp only [Json.writeItems, Json.depthItems, Nat.add_zero, max_eq_left h,
      outside_close (.inl rfl)]
  | item :: items =>
    simp only [Json.writeItems, Json.depthItems, List.cons_append]
    rw [text_cons, outside_mark (.inl rfl), text_append, outside_write item _ _ h,
      outside_writeItems items _ _ (by omega)]
    congr 1
    omega

theorem outside_writeFields (fields : List (Str × Json)) (d m : Nat) (h : d ≤ m) :
    (outside d m).text (Json.writeFields fields) =
      outside (d - 1) (max m (d + Json.depthFields fields)) := by
  match fields with
  | [] => simp only [Json.writeFields, Json.depthFields, Nat.add_zero, max_eq_left h,
      outside_close (.inr rfl)]
  | (key, value) :: fields =>
    simp only [Json.writeFields, Json.depthFields, List.cons_append, List.append_assoc]
    rw [text_cons, outside_mark (.inl rfl), text_append, outside_quote, text_cons,
      outside_mark (.inr rfl), text_append, outside_write value _ _ h,
      outside_writeFields fields _ _ (by omega)]
    congr 1
    omega

end

end Scan

/-- The scan finds the depth of the tree it is the text of. -/
theorem jsonDepth_toVec (json : Json) : jsonDepth json.toVec = json.depth := by
  have h := Scan.outside_write json 0 0 (Nat.le_refl 0)
  rw [jsonDepth, Json.toVec, ← Scan.text, h]
  simp [Scan.outside]

/-! ## No addition saturates

The scanner counts in a `usize`, which is larger than the length of any slice. -/

theorem Scan.step_bounds (scan : Scan) (byte : UInt8) :
    (scan.step byte).depth ≤ scan.depth + 1 ∧
      (scan.step byte).deepest ≤ max scan.deepest (scan.depth + 1) := by
  unfold Scan.step
  split_ifs <;> constructor <;> simp
  omega

theorem Scan.foldl_bounds (bytes : Bytes) (scan : Scan) {n : Nat} (hdepth : scan.depth ≤ n)
    (hdeepest : scan.deepest ≤ n) :
    (bytes.foldl Scan.step scan).depth ≤ n + bytes.length ∧
      (bytes.foldl Scan.step scan).deepest ≤ n + bytes.length := by
  induction bytes generalizing scan n with
  | nil => exact ⟨hdepth, hdeepest⟩
  | cons byte bytes ih =>
    obtain ⟨hdepth', hdeepest'⟩ := scan.step_bounds byte
    have hrest := ih (scan.step byte) (n := n + 1) (by omega) (by omega)
    rw [List.foldl_cons, List.length_cons]
    omega

/-- The counter never passes the number of bytes read. -/
theorem jsonDepth_le_length (bytes : Bytes) : jsonDepth bytes ≤ bytes.length := by
  have hbounds := Scan.foldl_bounds bytes (.outside 0 0) (Nat.le_refl 0) (Nat.le_refl 0)
  rw [jsonDepth]
  omega

/-- The scan of a value's text finds the most arrays and objects around any point of the
value, whatever its strings and keys hold, and of no bytes does it count past their number. -/
theorem jsonDepth_nesting (json : Json) :
    IsGreatest {n | json.Encloses n} (jsonDepth json.toVec) ∧
      (∀ text : Str → Str, jsonDepth (json.relabel text).toVec = jsonDepth json.toVec) ∧
      ∀ bytes : Bytes, jsonDepth bytes ≤ bytes.length := by
  refine ⟨?_, ?_, jsonDepth_le_length⟩
  · rw [jsonDepth_toVec]
    exact json.depth_isGreatest
  · intro text
    rw [jsonDepth_toVec, jsonDepth_toVec, json.depth_relabel text]

end Heurema
