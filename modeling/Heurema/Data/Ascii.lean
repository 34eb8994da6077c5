import Heurema.Data.Text

/-! # ASCII text

The bytes of an ASCII text are the codes of its characters, so the order and the
prefixes of the bytes are those of the characters. A decimal padded to a fixed width
compares as the number it spells. -/

namespace Str

/-- Text of ASCII characters only. -/
def Ascii (s : Str) : Prop := ∀ character ∈ s, character.toNat < 128

namespace Ascii

variable {s t : Str}

theorem nil : Ascii [] := by
  intro character hmem
  cases hmem

theorem append (hs : Ascii s) (ht : Ascii t) : Ascii (s ++ t) := by
  intro character hmem
  rcases List.mem_append.mp hmem with h | h
  · exact hs character h
  · exact ht character h

theorem cons {character : Char} (hc : character.toNat < 128) (hs : Ascii s) :
    Ascii (character :: s) := by
  intro other hmem
  rcases List.mem_cons.mp hmem with rfl | h
  · exact hc
  · exact hs other h

theorem asBytes (hs : Ascii s) :
    Str.asBytes s = s.map fun character => UInt8.ofNat character.toNat := by
  induction s with
  | nil => rfl
  | cons character s ih =>
    have hhead := utf8EncodeChar_ascii (hs character List.mem_cons_self)
    have htail := ih fun other hmem => hs other (List.mem_cons_of_mem _ hmem)
    rw [List.map_cons, ← htail]
    simp [Str.asBytes, hhead]

theorem code_lt {a b : Char} (ha : a.toNat < 128) (hb : b.toNat < 128) :
    UInt8.ofNat a.toNat < UInt8.ofNat b.toNat ↔ a < b := by
  rw [UInt8.lt_iff_toNat_lt, Char.lt_def, UInt32.lt_iff_toNat_lt]
  simp only [UInt8.toNat_ofNat']
  have hcode (c : Char) : c.toNat = c.val.toNat := rfl
  rw [hcode] at ha hb ⊢
  rw [hcode]
  omega

theorem code_inj {a b : Char} (ha : a.toNat < 128) (hb : b.toNat < 128)
    (h : UInt8.ofNat a.toNat = UInt8.ofNat b.toNat) : a = b := by
  rcases lt_trichotomy a b with hlt | heq | hgt
  · exact absurd h ((code_lt ha hb).mpr hlt).ne
  · exact heq
  · exact absurd h ((code_lt hb ha).mpr hgt).ne'

/-- The bytes compare as the characters do. -/
theorem asBytes_lt_iff (hs : Ascii s) (ht : Ascii t) : Str.asBytes s < Str.asBytes t ↔ s < t := by
  rw [hs.asBytes, ht.asBytes]
  induction s generalizing t with
  | nil => cases t <;> simp
  | cons a s ih =>
    cases t with
    | nil => simp
    | cons b t =>
      have ha := hs a List.mem_cons_self
      have hb := ht b List.mem_cons_self
      have hrest := ih (fun c hc => hs c (List.mem_cons_of_mem _ hc))
        (fun c hc => ht c (List.mem_cons_of_mem _ hc))
      rw [List.map_cons, List.map_cons, List.cons_lt_cons_iff, List.cons_lt_cons_iff,
        code_lt ha hb, hrest]
      exact or_congr_right (and_congr_left fun _ => ⟨code_inj ha hb, fun heq => heq ▸ rfl⟩)

theorem asBytes_prefix_iff (hs : Ascii s) (ht : Ascii t) :
    Str.asBytes s <+: Str.asBytes t ↔ s <+: t := by
  rw [hs.asBytes, ht.asBytes]
  induction s generalizing t with
  | nil => simp
  | cons a s ih =>
    cases t with
    | nil => simp
    | cons b t =>
      have hrest := ih (fun c hc => hs c (List.mem_cons_of_mem _ hc))
        (fun c hc => ht c (List.mem_cons_of_mem _ hc))
      rw [List.map_cons, List.map_cons, List.cons_prefix_cons, List.cons_prefix_cons, hrest]
      have ha := hs a List.mem_cons_self
      have hb := ht b List.mem_cons_self
      exact and_congr_left fun _ => ⟨code_inj ha hb, fun heq => heq ▸ rfl⟩

end Ascii

/-! ## Decimals -/

/-- `{n:0width$}`: the decimal of `n`, padded with zeros to `width` digits. -/
def padded (width n : Nat) : Str := List.leftpad width '0' (Nat.toDigits 10 n)

/-- Only decimal digits. -/
def Digits (s : Str) : Prop := ∀ digit ∈ s, digit.isDigit = true

/-- The value of a digit. -/
theorem digit_value {digit : Char} (h : digit.isDigit = true) :
    48 ≤ digit.toNat ∧ digit.toNat ≤ 57 := by
  simp only [Char.isDigit, Bool.and_eq_true, decide_eq_true_eq, UInt32.le_iff_toNat_le] at h
  exact h

theorem Digits.ascii {s : Str} (h : Digits s) : Ascii s := fun digit hmem => by
  have hvalue := digit_value (h digit hmem)
  omega

theorem value_cons (digit : Char) (s : Str) : Nat.ofDigitChars 10 (digit :: s) 0 =
    10 ^ s.length * (digit.toNat - 48) + Nat.ofDigitChars 10 s 0 := by
  rw [Nat.ofDigitChars_cons, Nat.ofDigitChars_eq_ofDigitChars_zero]
  simp

theorem Digits.value_lt {s : Str} (h : Digits s) : Nat.ofDigitChars 10 s 0 < 10 ^ s.length := by
  induction s with
  | nil => simp
  | cons digit s ih =>
    have hdigit := digit_value (h digit List.mem_cons_self)
    have hrest := ih fun other hmem => h other (List.mem_cons_of_mem _ hmem)
    rw [value_cons, List.length_cons, Nat.pow_succ]
    calc 10 ^ s.length * (digit.toNat - 48) + Nat.ofDigitChars 10 s 0
        < 10 ^ s.length * (digit.toNat - 48) + 10 ^ s.length := by omega
      _ = 10 ^ s.length * (digit.toNat - 48 + 1) := by rw [Nat.mul_succ]
      _ ≤ 10 ^ s.length * 10 := Nat.mul_le_mul_left _ (by omega)

/-- Digits of one length compare as the numbers they spell. -/
theorem Digits.lt_iff {s t : Str} (hs : Digits s) (ht : Digits t) (hlen : s.length = t.length) :
    s < t ↔ Nat.ofDigitChars 10 s 0 < Nat.ofDigitChars 10 t 0 := by
  induction s generalizing t with
  | nil =>
    obtain rfl : t = [] := List.length_eq_zero_iff.mp hlen.symm
    simp
  | cons a s ih =>
    cases t with
    | nil => cases hlen
    | cons b t =>
      have hlen : s.length = t.length := Nat.succ.inj hlen
      have hs' : Digits s := fun c hc => hs c (List.mem_cons_of_mem _ hc)
      have ht' : Digits t := fun c hc => ht c (List.mem_cons_of_mem _ hc)
      have ha := digit_value (hs a List.mem_cons_self)
      have hb := digit_value (ht b List.mem_cons_self)
      have hsval := hs'.value_lt
      have htval := ht'.value_lt
      have hlt : a < b ↔ a.toNat < b.toNat := by
        rw [Char.lt_def, UInt32.lt_iff_toNat_lt]
        exact Iff.rfl
      have heq : a = b ↔ a.toNat = b.toNat := ⟨congrArg _, Char.toNat_inj.mp⟩
      rw [List.cons_lt_cons_iff, ih hs' ht' hlen, hlt, heq, value_cons, value_cons, hlen]
      rw [hlen] at hsval
      generalize Nat.ofDigitChars 10 s 0 = x at *
      generalize Nat.ofDigitChars 10 t 0 = y at *
      generalize 10 ^ t.length = base at *
      constructor
      · rintro (hless | ⟨hsame, hless⟩)
        · have hmul : base * (a.toNat - 48 + 1) ≤ base * (b.toNat - 48) :=
            Nat.mul_le_mul_left _ (by omega)
          rw [Nat.mul_succ] at hmul
          omega
        · rw [hsame]
          omega
      · intro hless
        by_contra hnot
        push Not at hnot
        rcases lt_or_eq_of_le hnot.1 with hgt | hsame
        · have hmul : base * (b.toNat - 48 + 1) ≤ base * (a.toNat - 48) :=
            Nat.mul_le_mul_left _ (by omega)
          rw [Nat.mul_succ] at hmul
          omega
        · have hge := hnot.2 hsame.symm
          rw [hsame] at hless
          omega

theorem digits_toDigits (n : Nat) : Digits (Nat.toDigits 10 n) := fun _ hmem =>
  Nat.isDigit_of_mem_toDigits (by decide) (by decide) hmem

section Padded

variable {width n m : Nat}

theorem digits_padded : Digits (padded width n) := by
  intro digit hmem
  rw [padded, List.leftpad, List.mem_append] at hmem
  rcases hmem with hzero | hdigit
  · rw [List.eq_of_mem_replicate hzero]
    rfl
  · exact digits_toDigits n digit hdigit

theorem padded_value : Nat.ofDigitChars 10 (padded width n) 0 = n := by
  rw [padded, List.leftpad, Nat.ofDigitChars_append, Nat.ofDigitChars_replicate_zero, Nat.mul_zero,
    Nat.ofDigitChars_ten_toDigits]

theorem padded_length (hwidth : 0 < width) (hn : n < 10 ^ width) :
    (padded width n).length = width := by
  have hle : (Nat.toDigits 10 n).length ≤ width :=
    (Nat.length_toDigits_le_iff (by decide) hwidth).mpr hn
  rw [padded, List.leftpad, List.length_append, List.length_replicate]
  exact Nat.sub_add_cancel hle

/-- Numbers of one width compare as their digits do. -/
theorem padded_lt_iff (hwidth : 0 < width) (hn : n < 10 ^ width) (hm : m < 10 ^ width) :
    padded width n < padded width m ↔ n < m := by
  have hlen : (padded width n).length = (padded width m).length :=
    (padded_length hwidth hn).trans (padded_length hwidth hm).symm
  rw [digits_padded.lt_iff digits_padded hlen, padded_value, padded_value]

theorem padded_injective (h : padded width n = padded width m) : n = m := by
  have hn : Nat.ofDigitChars 10 (padded width n) 0 = n := padded_value
  rw [← hn, h, padded_value]

end Padded

end Str
