import Heurema.Data.Prefix
import Heurema.Lifecycle.Digest

/-! # The item grammar

`Item` is what the canonical encoding keeps of a value and `Item.Spells` the
grammar that writes it. The encoder writes the item of a value by the grammar,
and an item and its text determine each other whatever text follows. -/

namespace Heurema.Digest

open Serde

/-! ## Integers and lengths -/

@[simp] theorem length_beBytes (len n : Nat) : (beBytes len n).length = len := by
  induction len generalizing n with
  | zero => rfl
  | succ len ih => simp [beBytes, ih]

theorem beBytes_injective {len m n : Nat} (hm : m < 256 ^ len) (hn : n < 256 ^ len)
    (h : beBytes len m = beBytes len n) : m = n := by
  induction len generalizing m n with
  | zero =>
    rw [Nat.pow_zero] at hm hn
    omega
  | succ len ih =>
    rw [beBytes, beBytes] at h
    obtain ⟨hhigh, hlow⟩ := List.append_inj h (by simp)
    rw [Nat.pow_succ] at hm hn
    have hquot : m / 256 = n / 256 := ih (by omega) (by omega) hhigh
    have hrem : m % 256 = n % 256 := by
      have hbyte := congrArg UInt8.toNat (List.head_eq_of_cons_eq hlow)
      rwa [UInt8.toNat_ofNat', UInt8.toNat_ofNat'] at hbyte
    omega

theorem beBytes_append_inj {len m n : Nat} {s t : Bytes} (hm : m < 256 ^ len) (hn : n < 256 ^ len)
    (h : beBytes len m ++ s = beBytes len n ++ t) : m = n ∧ s = t := by
  obtain ⟨hbytes, hrest⟩ := List.append_inj h (by simp)
  exact ⟨beBytes_injective hm hn hbytes, hrest⟩

theorem size_eq_pow : UInt64.size = 256 ^ 8 := by decide

theorem lengthPrefixed_eq_ok {tag : UInt8} {payload item : Bytes} :
    lengthPrefixed tag payload = .ok item ↔
      payload.length < UInt64.size ∧ item = tag :: beBytes 8 payload.length ++ payload := by
  unfold lengthPrefixed count
  split
  · next h => simp [h, eq_comm]
  · next h => simp [h]

/-! ## Items -/

/-- The items that may serve as the key of a map. -/
inductive Key where
  | str (text : Str)
  | int (kind : IntKind) (bits : BitVec kind.width)
deriving DecidableEq

/-- What the encoding keeps of a value. A map is the set of its entries. -/
inductive Item where
  /-- A value that has no item. -/
  | unencodable
  | unit
  | none
  | some (item : Item)
  | bool (value : Bool)
  | key (k : Key)
  | bytes (value : Bytes)
  | seq (elements : List Item)
  | map (entries : Key → Option Item)
  | variant (name : Str) (item : Item)

def Item.key? : Item → Option Key
  | .key k => Option.some k
  | _ => Option.none

def Key.Spells : Key → Bytes → Prop
  | str text, item => text.asBytes.length < UInt64.size ∧
    item = Tag.STR :: beBytes 8 text.asBytes.length ++ text.asBytes
  | int kind bits, item => item = encodeInt kind bits

/-- The grammar: the text of an item. -/
inductive Item.Spells : Item → Bytes → Prop
  | unit : Spells .unit [Tag.UNIT]
  | none : Spells .none [Tag.NONE]
  | some {item : Item} {text : Bytes} (h : Spells item text) :
    Spells (.some item) (Tag.SOME :: text)
  | bool (value : Bool) : Spells (.bool value) [if value then Tag.TRUE else Tag.FALSE]
  | key {k : Key} {text : Bytes} (h : k.Spells text) : Spells (.key k) text
  | bytes {value : Bytes} (h : value.length < UInt64.size) :
    Spells (.bytes value) (Tag.BYTES :: beBytes 8 value.length ++ value)
  | seq {elements : List (Item × Bytes)} (h : ∀ element ∈ elements, Spells element.1 element.2)
    (hcount : elements.length < UInt64.size) :
    Spells (.seq (elements.map Prod.fst))
      (Tag.SEQ :: beBytes 8 elements.length ++ elements.flatMap Prod.snd)
  /-- The entries come in ascending order of the texts of their keys. -/
  | map {entries : List ((Key × Bytes) × (Item × Bytes))} {lookup : Key → Option Item}
    (hkeys : ∀ entry ∈ entries, entry.1.1.Spells entry.1.2)
    (hvalues : ∀ entry ∈ entries, Spells entry.2.1 entry.2.2)
    (hsorted : entries.Pairwise fun left right => left.1.2 < right.1.2)
    (hlookup : ∀ key item, lookup key = Option.some item ↔
      ∃ entry ∈ entries, entry.1.1 = key ∧ entry.2.1 = item)
    (hcount : entries.length < UInt64.size) :
    Spells (.map lookup) (Tag.MAP :: beBytes 8 entries.length ++
      entries.flatMap fun entry => entry.1.2 ++ entry.2.2)
  | variant {name : Str} {nameText : Bytes} {item : Item} {text : Bytes}
    (hname : (Key.str name).Spells nameText) (h : Spells item text) :
    Spells (.variant name item) (Tag.VARIANT :: nameText ++ text)

/-! ## A text is read in one way -/

def Key.tag : Key → UInt8
  | str _ => Tag.STR
  | int kind _ => Tag.ofInt kind

def Item.tag : Item → UInt8
  | .unencodable | .unit => Tag.UNIT
  | .none => Tag.NONE
  | .some _ => Tag.SOME
  | .bool value => if value then Tag.TRUE else Tag.FALSE
  | .key k => k.tag
  | .bytes _ => Tag.BYTES
  | .seq _ => Tag.SEQ
  | .map _ => Tag.MAP
  | .variant _ _ => Tag.VARIANT

theorem Key.Spells.head {key : Key} {text : Bytes} (h : key.Spells text) :
    ∃ rest, text = key.tag :: rest := by
  cases key with
  | str value => exact ⟨_, h.2⟩
  | int kind bits => exact ⟨_, h⟩

theorem Item.Spells.head {item : Item} {text : Bytes} (h : item.Spells text) :
    ∃ rest, text = item.tag :: rest := by
  cases h with
  | key h => exact h.head
  | _ => exact ⟨_, rfl⟩

theorem ofInt_injective {kind other : IntKind} (h : Tag.ofInt kind = Tag.ofInt other) :
    kind = other := by
  cases kind <;> cases other <;> first | rfl | exact absurd h (by decide)

theorem Key.tag_int {kind : IntKind} : Tag.ofInt kind ≠ Tag.STR := by
  cases kind <;> decide

/-- The tag tells a key from every other item. -/
theorem Item.isKey_tag (item : Item) :
    (item.tag = Tag.STR || Tag.isInt item.tag) = item.key?.isSome := by
  cases item with
  | key k =>
    cases k with
    | str value => rfl
    | int kind bits => cases kind <;> rfl
  | bool value => cases value <;> rfl
  | _ => rfl

theorem Item.Spells.isKey_eq {item : Item} {text : Bytes} (h : item.Spells text) :
    isKey text = item.key?.isSome := by
  obtain ⟨rest, rfl⟩ := h.head
  exact item.isKey_tag

theorem width_bytes (kind : IntKind) : 2 ^ kind.width = 256 ^ (kind.width / 8) := by
  cases kind <;> decide

theorem encodeInt_append_inj {kind : IntKind} {bits other : BitVec kind.width} {s t : Bytes}
    (h : encodeInt kind bits ++ s = encodeInt kind other ++ t) : bits = other ∧ s = t := by
  have hbits := width_bytes kind ▸ bits.isLt
  have hother := width_bytes kind ▸ other.isLt
  obtain ⟨hvalue, hrest⟩ := beBytes_append_inj hbits hother (List.tail_eq_of_cons_eq h)
  exact ⟨BitVec.eq_of_toNat_eq hvalue, hrest⟩

/-- A length and then as many bytes. -/
theorem prefixed_append_inj {payload other s t : Bytes} (h : payload.length < UInt64.size)
    (hother : other.length < UInt64.size)
    (heq : beBytes 8 payload.length ++ (payload ++ s) = beBytes 8 other.length ++ (other ++ t)) :
    payload = other ∧ s = t := by
  obtain ⟨hlen, hrest⟩ := beBytes_append_inj (size_eq_pow ▸ h) (size_eq_pow ▸ hother) heq
  exact List.append_inj hrest hlen

theorem Key.Spells.determines {k : Key} {text : Bytes} (h : k.Spells text) :
    Determines Key.Spells k text := by
  apply Determines.intro
  intro other otherText s t hother heq
  cases k with
  | str value =>
    obtain ⟨hlen, rfl⟩ := h
    cases other with
    | str otherValue =>
      obtain ⟨hotherLen, rfl⟩ := hother
      simp only [List.cons_append, List.append_assoc] at heq
      obtain ⟨hbytes, hrest⟩ := prefixed_append_inj hlen hotherLen (List.tail_eq_of_cons_eq heq)
      exact ⟨by rw [Str.asBytes_injective hbytes], hrest⟩
    | int kind bits =>
      obtain rfl := hother
      exact absurd (List.head_eq_of_cons_eq heq).symm Key.tag_int
  | int kind bits =>
    obtain rfl := h
    cases other with
    | str otherValue =>
      obtain ⟨-, rfl⟩ := hother
      exact absurd (List.head_eq_of_cons_eq heq) Key.tag_int
    | int otherKind otherBits =>
      obtain rfl := hother
      obtain rfl := ofInt_injective (List.head_eq_of_cons_eq heq)
      obtain ⟨rfl, hrest⟩ := encodeInt_append_inj heq
      exact ⟨rfl, hrest⟩

/-- What a text starts with decides the form of its item. -/
theorem Item.Spells.ctorIdx_eq {item other : Item} {text otherText s t : Bytes}
    (h : item.Spells text) (hother : other.Spells otherText) (heq : text ++ s = otherText ++ t) :
    item.ctorIdx = other.ctorIdx := by
  have htag : item.tag = other.tag := by
    obtain ⟨rest, rfl⟩ := h.head
    obtain ⟨otherRest, rfl⟩ := hother.head
    exact List.head_eq_of_cons_eq heq
  have hkey : item.key?.isSome = other.key?.isSome := by
    rw [← item.isKey_tag, ← other.isKey_tag, htag]
  clear heq
  cases h <;> cases hother <;> first
    | rfl
    | exact Bool.noConfusion hkey
    | (dsimp only [Item.tag] at htag; exact absurd htag (by clear hkey; decide +revert))

/-- An item is read off the front of a text in one way. -/
theorem Item.Spells.determines {item : Item} {text : Bytes} (h : item.Spells text) :
    Determines Item.Spells item text := by
  induction h with
  | unit =>
    refine .intro fun other otherText s t hother heq => ?_
    have hform := Item.Spells.unit.ctorIdx_eq hother heq
    cases hother with
    | unit => exact ⟨rfl, List.tail_eq_of_cons_eq heq⟩
    | _ => cases hform
  | none =>
    refine .intro fun other otherText s t hother heq => ?_
    have hform := Item.Spells.none.ctorIdx_eq hother heq
    cases hother with
    | none => exact ⟨rfl, List.tail_eq_of_cons_eq heq⟩
    | _ => cases hform
  | some h ih =>
    refine .intro fun other otherText s t hother heq => ?_
    have hform := h.some.ctorIdx_eq hother heq
    cases hother with
    | some hother =>
      obtain ⟨rfl, -, hst⟩ := ih _ _ _ _ hother (List.tail_eq_of_cons_eq heq)
      exact ⟨rfl, hst⟩
    | _ => cases hform
  | bool value =>
    refine .intro fun other otherText s t hother heq => ?_
    have hform := (Item.Spells.bool value).ctorIdx_eq hother heq
    cases hother with
    | bool other =>
      have htag := List.head_eq_of_cons_eq heq
      have hvalue : value = other := by
        cases value <;> cases other <;> first | rfl | exact absurd htag (by decide)
      exact ⟨by rw [hvalue], List.tail_eq_of_cons_eq heq⟩
    | _ => cases hform
  | key h =>
    refine .intro fun other otherText s t hother heq => ?_
    have hform := (Item.Spells.key h).ctorIdx_eq hother heq
    cases hother with
    | key hother =>
      obtain ⟨rfl, -, hst⟩ := h.determines _ _ _ _ hother heq
      exact ⟨rfl, hst⟩
    | _ => cases hform
  | bytes h =>
    refine .intro fun other otherText s t hother heq => ?_
    have hform := (Item.Spells.bytes h).ctorIdx_eq hother heq
    cases hother with
    | bytes hother =>
      simp only [List.cons_append, List.append_assoc] at heq
      obtain ⟨rfl, hst⟩ := prefixed_append_inj h hother (List.tail_eq_of_cons_eq heq)
      exact ⟨rfl, hst⟩
    | _ => cases hform
  | seq h hcount ih =>
    refine .intro fun other otherText s t hother heq => ?_
    have hform := (Item.Spells.seq h hcount).ctorIdx_eq hother heq
    cases hother with
    | seq hother hotherCount =>
      simp only [List.cons_append, List.append_assoc] at heq
      obtain ⟨hlen, hrest⟩ := beBytes_append_inj (size_eq_pow ▸ hcount) (size_eq_pow ▸ hotherCount)
        (List.tail_eq_of_cons_eq heq)
      obtain ⟨rfl, hst⟩ := Determines.flatMap (fun e he => (ih e he).self)
        (fun e he => ⟨hother e he, rfl⟩) hlen hrest
      exact ⟨rfl, hst⟩
    | _ => cases hform
  | map hkeys hvalues hsorted hlookup hcount ih =>
    refine .intro fun other otherText s t hother heq => ?_
    have hform := (Item.Spells.map hkeys hvalues hsorted hlookup hcount).ctorIdx_eq hother heq
    cases hother with
    | map hkeys' hvalues' hsorted' hlookup' hcount' =>
      simp only [List.cons_append, List.append_assoc] at heq
      obtain ⟨hlen, hrest⟩ := beBytes_append_inj (size_eq_pow ▸ hcount) (size_eq_pow ▸ hcount')
        (List.tail_eq_of_cons_eq heq)
      obtain ⟨rfl, hst⟩ := Determines.flatMap
        (fun e he => (hkeys e he).determines.append (ih e he))
        (fun e he => ⟨hkeys' e he, hvalues' e he, rfl⟩) hlen hrest
      refine ⟨congrArg Item.map (funext fun key => Option.ext fun item => ?_), hst⟩
      rw [hlookup, hlookup']
    | _ => cases hform
  | variant hname h ih =>
    refine .intro fun other otherText s t hother heq => ?_
    have hform := (Item.Spells.variant hname h).ctorIdx_eq hother heq
    cases hother with
    | variant hname' h' =>
      simp only [List.cons_append, List.append_assoc] at heq
      obtain ⟨hkey, -, hrest⟩ := hname.determines _ _ _ _ hname' (List.tail_eq_of_cons_eq heq)
      obtain ⟨rfl, -, hst⟩ := ih _ _ _ _ h' hrest
      cases hkey
      exact ⟨rfl, hst⟩
    | _ => cases hform

/-! ## An item has one text -/

theorem Key.Spells.text_eq {k : Key} {text other : Bytes} (h : k.Spells text)
    (hother : k.Spells other) : text = other := by
  cases k with
  | str value => rw [h.2, hother.2]
  | int kind bits =>
    obtain rfl := h
    exact hother.symm

/-- Lists of the same values whose texts agree are one list. -/
theorem pairs_eq {elements others : List (Item × Bytes)}
    (hfst : elements.map Prod.fst = others.map Prod.fst)
    (htexts : ∀ element ∈ elements, ∀ other ∈ others, element.1 = other.1 → element.2 = other.2) :
    elements = others := by
  induction elements generalizing others with
  | nil => exact (List.map_eq_nil_iff.mp hfst.symm).symm
  | cons element elements ih =>
    cases others with
    | nil => cases hfst
    | cons other others =>
      obtain ⟨hhead, htail⟩ := List.cons_eq_cons.mp hfst
      have htext := htexts element (by simp) other (by simp) hhead
      rw [Prod.ext hhead htext, ih htail fun e he o ho =>
        htexts e (List.mem_cons_of_mem _ he) o (List.mem_cons_of_mem _ ho)]

/-- Two lists in strictly ascending order with the same members are one list. -/
theorem sorted_ext {α : Type} {key : α → Bytes} {entries others : List α}
    (h : entries.Pairwise fun left right => key left < key right)
    (hother : others.Pairwise fun left right => key left < key right)
    (hmem : ∀ entry, entry ∈ entries ↔ entry ∈ others) : entries = others := by
  have hnodup {l : List α} (hl : l.Pairwise fun left right => key left < key right) : l.Nodup :=
    hl.imp fun hlt heq => absurd (heq ▸ hlt) (lt_irrefl _)
  have hperm := (List.perm_ext_iff_of_nodup (hnodup h) (hnodup hother)).mpr hmem
  exact hperm.eq_of_pairwise (fun _ _ _ _ hab hba => absurd (hab.trans hba) (lt_irrefl _)) h hother

/-- An item has one text. -/
theorem Item.Spells.text_eq {item other : Item} {text otherText : Bytes} (h : item.Spells text)
    (hother : other.Spells otherText) (heq : item = other) : text = otherText := by
  induction h generalizing other otherText with
  | key h =>
    subst heq
    cases hother with
    | key hother => exact h.text_eq hother
  | some h ih =>
    subst heq
    cases hother with
    | some hother => rw [ih hother rfl]
  | seq h hcount ih =>
    cases hother with
    | seq hother hotherCount =>
      have hpairs := pairs_eq (Item.seq.inj heq) fun e he o ho => ih e he (hother o ho)
      rw [hpairs]
    | _ => cases heq
  | map hkeys hvalues hsorted hlookup hcount ih =>
    cases hother with
    | map hkeys' hvalues' hsorted' hlookup' hcount' =>
      obtain rfl := Item.map.inj heq
      rw [sorted_ext hsorted hsorted' fun entry => ⟨fun hmem => ?_, fun hmem => ?_⟩]
      · obtain ⟨entry', hmem', hkey, hvalue⟩ := (hlookup' _ _).mp ((hlookup _ _).mpr
          ⟨entry, hmem, rfl, rfl⟩)
        have hkeyText := (hkeys entry hmem).text_eq (hkey ▸ hkeys' entry' hmem')
        have hvalueText := ih entry hmem (hvalues' entry' hmem') hvalue.symm
        have hentry : entry = entry' :=
          Prod.ext (Prod.ext hkey.symm hkeyText) (Prod.ext hvalue.symm hvalueText)
        exact hentry ▸ hmem'
      · obtain ⟨entry', hmem', hkey, hvalue⟩ := (hlookup _ _).mp ((hlookup' _ _).mpr
          ⟨entry, hmem, rfl, rfl⟩)
        have hkeyText := (hkeys entry' hmem').text_eq (hkey ▸ hkeys' entry hmem)
        have hvalueText := ih entry' hmem' (hvalues' entry hmem) hvalue
        have hentry : entry' = entry :=
          Prod.ext (Prod.ext hkey hkeyText) (Prod.ext hvalue hvalueText)
        exact hentry ▸ hmem'
    | _ => cases heq
  | variant hname h ih =>
    subst heq
    cases hother with
    | variant hname' h' => rw [hname.text_eq hname', ih h' rfl]
  | _ =>
    subst heq
    cases hother
    rfl

end Heurema.Digest
