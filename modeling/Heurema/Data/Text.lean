import Mathlib.Algebra.Order.Ring.Nat
import Mathlib.Order.Std
import Mathlib.Data.List.Lex
import Mathlib.Data.Char

/-! # Text and bytes

A Rust `str` is its list of characters, ordered as the characters are, which
is the order of the UTF-8 bytes. Lengths are in bytes. What the Unicode tables
decide is a parameter. -/

/-- The characters of a Rust string. -/
abbrev Str := List Char

/-- A byte string. -/
abbrev Bytes := List UInt8

/-- Bytes compare as the numbers they are. -/
instance linearOrder_uint8 : LinearOrder UInt8 where
  le_refl _ := UInt8.le_refl _
  le_trans _ _ _ := UInt8.le_trans
  lt_iff_le_not_ge a b := by
    simp only [UInt8.lt_iff_toNat_lt, UInt8.le_iff_toNat_le]; omega
  le_antisymm _ _ := UInt8.le_antisymm
  le_total := UInt8.le_total
  toDecidableLE := inferInstance

instance linearOrder_str : LinearOrder Str := inferInstance

instance linearOrder_bytes : LinearOrder Bytes := inferInstance

/-- What the standard library reads from the Unicode tables. -/
class Unicode where
  /-- `char::is_alphanumeric`. -/
  isAlphanumeric : Char → Bool
  /-- `str::to_lowercase`. -/
  toLowercase : Str → Str
  /-- The `Debug` form of a character, quotes included. -/
  debugChar : Char → String
  /-- The `Debug` form of a string, quotes included. -/
  debugStr : Str → String
  toLowercase_ne_nil : ∀ s, s ≠ [] → toLowercase s ≠ []

/-- The tables on ASCII text, where no character needs an escape. -/
@[reducible] def Unicode.ascii : Unicode where
  isAlphanumeric := Char.isAlphanum
  toLowercase := List.map Char.toLower
  debugChar c := "'" ++ String.singleton c ++ "'"
  debugStr s := "\"" ++ String.ofList s ++ "\""
  toLowercase_ne_nil s h := by simpa using h

namespace Str

/-- `str::len`: the length in bytes. -/
def byteLen (s : Str) : Nat := (s.map Char.utf8Size).sum

/-- `str::as_bytes`. -/
def asBytes (s : Str) : Bytes := s.flatMap String.utf8EncodeChar

@[simp] theorem byteLen_nil : byteLen [] = 0 := rfl

@[simp] theorem byteLen_cons (c : Char) (s : Str) :
    byteLen (c :: s) = c.utf8Size + byteLen s := rfl

@[simp] theorem byteLen_append (s t : Str) : byteLen (s ++ t) = byteLen s + byteLen t := by
  simp [byteLen]

@[simp] theorem asBytes_nil : asBytes [] = [] := rfl

@[simp] theorem asBytes_append (s t : Str) : asBytes (s ++ t) = asBytes s ++ asBytes t := by
  simp [asBytes]

theorem asBytes_length (s : Str) : (asBytes s).length = byteLen s := by
  simp [asBytes, byteLen, List.length_flatMap]

theorem utf8EncodeChar_ascii {c : Char} (h : c.toNat < 128) :
    String.utf8EncodeChar c = [UInt8.ofNat c.toNat] := by
  have hle : c.val.toNat ≤ 0x7f := Nat.le_of_lt_succ h
  unfold String.utf8EncodeChar
  rw [if_pos hle]
  rfl

/-- The bytes of a character outside ASCII are outside ASCII. -/
theorem utf8EncodeChar_high {c : Char} (h : 128 ≤ c.toNat) :
    ∀ byte ∈ String.utf8EncodeChar c, 128 ≤ byte.toNat := by
  have hlt : ¬ c.val.toNat ≤ 0x7f := Nat.not_le.mpr h
  unfold String.utf8EncodeChar
  rw [if_neg hlt]
  intro byte hbyte
  split at hbyte
  · simp at hbyte
    rcases hbyte with rfl | rfl <;> simp <;> omega
  · split at hbyte
    · simp at hbyte
      rcases hbyte with rfl | rfl | rfl <;> simp <;> omega
    · simp at hbyte
      rcases hbyte with rfl | rfl | rfl | rfl <;> simp <;> omega

/-- `str::from_utf8`. -/
def fromUtf8 (bytes : Bytes) : Option Str :=
  bytes.toByteArray.utf8Decode?.map Array.toList

@[simp] theorem fromUtf8_asBytes (s : Str) : fromUtf8 s.asBytes = some s := by
  have h : s.asBytes.toByteArray = s.utf8Encode := rfl
  simp [fromUtf8, h, List.utf8Decode?_utf8Encode]

theorem asBytes_fromUtf8 {bytes : Bytes} {s : Str} (h : fromUtf8 bytes = some s) :
    s.asBytes = bytes := by
  obtain ⟨chars, hchars, rfl⟩ := Option.map_eq_some_iff.mp h
  have hencode := ByteArray.utf8Encode_get_utf8Decode? (b := bytes.toByteArray)
    (h := by simp [hchars])
  simp only [hchars, Option.get_some] at hencode
  exact List.toByteArray_inj.mp hencode

theorem asBytes_injective : Function.Injective asBytes := fun s t h => by
  have hs := fromUtf8_asBytes s
  rw [h, fromUtf8_asBytes] at hs
  exact (Option.some.inj hs).symm

/-! ## Bytes that are not text -/

/-- The ranges of the bytes that follow the first byte of a character. -/
def trailingRanges (first : UInt8) : Option (List (UInt8 × UInt8)) :=
  let continuation : UInt8 × UInt8 := (0x80, 0xBF)
  if first < 0x80 then some []
  else if first < 0xC2 then none
  else if first < 0xE0 then some [continuation]
  else if first = 0xE0 then some [(0xA0, 0xBF), continuation]
  else if first = 0xED then some [(0x80, 0x9F), continuation]
  else if first < 0xF0 then some [continuation, continuation]
  else if first = 0xF0 then some [(0x90, 0xBF), continuation, continuation]
  else if first < 0xF4 then some [continuation, continuation, continuation]
  else if first = 0xF4 then some [(0x80, 0x8F), continuation, continuation]
  else none

/-- How many bytes follow as the ranges say, or the length of the broken sequence, none when
the bytes end within it. -/
def followRanges (seen : Nat) : List (UInt8 × UInt8) → Bytes → Except (Option Nat) Nat
  | [], _ => .ok seen
  | _ :: _, [] => .error none
  | (low, high) :: ranges, byte :: rest =>
    if low ≤ byte ∧ byte ≤ high then followRanges (seen + 1) ranges rest
    else .error (some seen)

/-- `Utf8Error`: where the valid text ends, and the length of what is invalid there. -/
def utf8Error (validUpTo : Nat) : Nat → Bytes → Option (Nat × Option Nat)
  | 0, _ => none
  | _, [] => none
  | fuel + 1, first :: rest =>
    match trailingRanges first with
    | none => some (validUpTo, some 1)
    | some ranges =>
      match followRanges 1 ranges rest with
      | .ok width => utf8Error (validUpTo + width) fuel (rest.drop (width - 1))
      | .error invalid => some (validUpTo, invalid)

/-- The `Display` form of a `Utf8Error`. -/
def utf8ErrorText : Nat × Option Nat → String
  | (validUpTo, some invalid) =>
    "invalid utf-8 sequence of " ++ toString invalid ++ " bytes from index " ++ toString validUpTo
  | (validUpTo, none) => "incomplete utf-8 byte sequence from index " ++ toString validUpTo

/-- `String::from_utf8_lossy`: every invalid sequence reads as one replacement character. -/
def fromUtf8Lossy : Nat → Bytes → Str
  | 0, _ => []
  | fuel + 1, bytes =>
    match utf8Error 0 bytes.length bytes with
    | none => (fromUtf8 bytes).getD []
    | some (validUpTo, invalid) =>
      let valid := (fromUtf8 (bytes.take validUpTo)).getD []
      let rest := bytes.drop (validUpTo + invalid.getD bytes.length)
      valid ++ '\uFFFD' :: (if rest.isEmpty then [] else fromUtf8Lossy fuel rest)

end Str
