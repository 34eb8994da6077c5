import Heurema.Error
import Heurema.Data.Ascii
import Heurema.Data.Keyed

/-! # Storage keys

The one key encoding that every backend adapter uses. The identifiers admit no separator,
so a key splits one way only and the prefix of an index matches the keys of that index
alone. Numbers have a fixed width, so the keys of an index compare as their numbers. -/

namespace Heurema

open Str (Ascii padded)

/-! ## The characters of identifiers -/

namespace Grammar

theorem leads_ascii {g : Grammar} {character : Char} (h : g.leads character = true) :
    character.toNat < 128 := by
  have hrange {last : Char} (hlast : last.toNat < 128) (h : character.val ≤ last.val) :
      character.toNat < 128 := Nat.lt_of_le_of_lt (UInt32.le_iff_toNat_le.mp h) hlast
  simp only [leads, Bool.or_eq_true, Bool.and_eq_true] at h
  rcases h with (hdigit | hlower) | ⟨-, hupper⟩
  · have := Str.digit_value hdigit
    omega
  · have hlower : (character.val ≥ 'a'.val && character.val ≤ 'z'.val) = true := hlower
    exact @hrange 'z' (by decide) (of_decide_eq_true (Bool.and_eq_true_iff.mp hlower).2)
  · exact @hrange 'Z' (by decide) (of_decide_eq_true hupper).2

theorem follows_ascii {g : Grammar} {character : Char} (h : g.follows character = true) :
    character.toNat < 128 := by
  simp only [follows, Bool.or_eq_true, Bool.and_eq_true, decide_eq_true_eq] at h
  rcases h with hleads | ⟨hascii, -⟩
  · exact leads_ascii hleads
  · exact hascii

/-- Every character of a scanned text is one the grammar lets follow. -/
theorem follows_of_refused {g : Grammar} {value : Str} (offset : Nat)
    (h : g.refused offset value = none) : ∀ character ∈ value, g.follows character = true := by
  induction value generalizing offset with
  | nil => simp
  | cons first rest ih =>
    have hfirst : g.follows first = true ∧ g.refused (offset + first.utf8Size) rest = none := by
      simp only [refused] at h
      split_ifs at h with hzero hleads hfollows
      · exact ⟨by simp [follows, hleads], h⟩
      · exact ⟨hfollows, h⟩
    intro character hmem
    rcases List.mem_cons.mp hmem with rfl | hrest
    · exact hfirst.1
    · exact ih _ hfirst.2 character hrest

end Grammar

namespace Identifier

variable {g : Grammar}

theorem follows (id : Identifier g) : ∀ character ∈ id.value, g.follows character = true := by
  have haccepted := id.accepted
  simp only [Grammar.accepts, Bool.and_eq_true, Option.isNone_iff_eq_none] at haccepted
  exact Grammar.follows_of_refused 0 haccepted.2

theorem ascii (id : Identifier g) : Ascii id.value := fun character hmem =>
  Grammar.follows_ascii (id.follows character hmem)

/-- A character that the grammar refuses everywhere is in no identifier. -/
theorem not_mem (id : Identifier g) {character : Char} (h : g.follows character = false) :
    character ∉ id.value := fun hmem => by
  rw [id.follows character hmem] at h
  cases h

end Identifier

namespace StorageKey

/-- `u64::MAX` has 20 decimal digits. -/
def DECIMAL_WIDTH : Nat := 20

/-- How much of a refused key an error echoes. -/
def REPORTED_KEY_CHARS : Nat := 256

def SEPARATOR : Char := '/'

/-- Which half of a quarantine entry a key names. -/
inductive QuarantinePart where
  | marker
  | payload
deriving DecidableEq, Repr

def QuarantinePart.asStr : QuarantinePart → Str
  | marker => "marker".toList
  | payload => "payload".toList

/-! ## Building keys -/

def head (index : IndexIdentity) : Str := index.ns.value ++ SEPARATOR :: index.name.value

def indexPrefix (index : IndexIdentity) : Str := head index ++ [SEPARATOR]

def version (index : IndexIdentity) (version : IndexVersion) : Str :=
  indexPrefix index ++ padded DECIMAL_WIDTH version.get

/-- The same text as `version`; the two live in different maps. -/
def staging (index : IndexIdentity) (version : IndexVersion) : Str :=
  StorageKey.version index version

def operation (index : IndexIdentity) (key : OperationKey) : Str := indexPrefix index ++ key.value

def quarantine (sequence : Nat) (index : IndexIdentity) (version : IndexVersion)
    (part : QuarantinePart) : Str :=
  padded DECIMAL_WIDTH sequence ++ SEPARATOR :: (StorageKey.version index version ++
    SEPARATOR :: part.asStr)

/-- The key of a version, by its place. -/
def versionAt (place : IndexIdentity × IndexVersion) : Str :=
  StorageKey.version place.1 place.2

/-- The key of an operation record, by its place. -/
def operationAt (place : IndexIdentity × OperationKey) : Str := operation place.1 place.2

/-! ## Reading keys -/

section Parse

variable [Unicode]

/-- A stored key that does not follow the grammar. -/
def malformed (key : Bytes) (reason : String) : HeuremaError :=
  .corruptSnapshot (.malformedKey ((Str.fromUtf8Lossy key.length key).take REPORTED_KEY_CHARS) reason)

def split (key : Bytes) : Except HeuremaError (List Str) :=
  match Str.fromUtf8 key with
  | some text => .ok (text.splitOn SEPARATOR)
  | none => .error (malformed key ("is not UTF-8: " ++
      ((Str.utf8Error 0 key.length key).map Str.utf8ErrorText).getD ""))

/-- The `Display` form of an identifier's refusal. -/
def refusalText : HeuremaError → String
  | .invalidIdentifier kind value reason =>
    "invalid " ++ kind.display ++ " " ++ Unicode.debugStr value ++ ": " ++ reason
  -- Identifiers and versions are refused as invalid identifiers only.
  | _ => ""

/-- Carries an identifier refusal over as a malformed stored key. -/
def checked {α : Type} (key : Bytes) : Except HeuremaError α → Except HeuremaError α
  | .ok value => .ok value
  | .error refusal => .error (malformed key (refusalText refusal))

def identity (key : Bytes) (ns name : Str) : Except HeuremaError IndexIdentity := do
  return {
    ns := ← checked key (Identifier.tryFrom ownerNamespace ns)
    name := ← checked key (Identifier.tryFrom indexName name) }

def decimal (key : Bytes) (digits : Str) : Except HeuremaError {n : Nat // n < UInt64.size} :=
  if digits.byteLen ≠ DECIMAL_WIDTH ∨ ¬ digits.all Char.isDigit then
    .error (malformed key (Unicode.debugStr digits ++ " is not " ++ toString DECIMAL_WIDTH ++
      " ASCII digits"))
  else if h : Nat.ofDigitChars 10 digits 0 < UInt64.size then .ok ⟨_, h⟩
  else .error (malformed key (Unicode.debugStr digits ++
    ": number too large to fit in target type"))

def indexVersion (key : Bytes) (digits : Str) : Except HeuremaError IndexVersion := do
  let number ← decimal key digits
  checked key (IndexVersion.tryFrom number.1 number.2)

def parseHead (key : Bytes) : Except HeuremaError IndexIdentity := do
  match ← split key with
  | [ns, name] => identity key ns name
  | _ => .error (malformed key "expected namespace/name")

def parseVersion (key : Bytes) : Except HeuremaError (IndexIdentity × IndexVersion) := do
  match ← split key with
  | [ns, name, version] => return (← identity key ns name, ← indexVersion key version)
  | _ => .error (malformed key "expected namespace/name/version")

def parseStaging (key : Bytes) : Except HeuremaError (IndexIdentity × IndexVersion) :=
  parseVersion key

def parseOperation (key : Bytes) : Except HeuremaError (IndexIdentity × OperationKey) := do
  match ← split key with
  | [ns, name, operation] =>
    return (← identity key ns name, ← checked key (Identifier.tryFrom operationKey operation))
  | _ => .error (malformed key "expected namespace/name/operation-key")

def quarantinePart (key : Bytes) (part : Str) : Except HeuremaError QuarantinePart :=
  if part = QuarantinePart.marker.asStr then .ok .marker
  else if part = QuarantinePart.payload.asStr then .ok .payload
  else .error (malformed key "part is neither marker nor payload")

def parseQuarantine (key : Bytes) :
    Except HeuremaError ({n : Nat // n < UInt64.size} × IndexIdentity × IndexVersion ×
      QuarantinePart) := do
  match ← split key with
  | [sequence, ns, name, version, part] =>
    let part ← quarantinePart key part
    return (← decimal key sequence, ← identity key ns name, ← indexVersion key version, part)
  | _ => .error (malformed key "expected sequence/namespace/name/version/part")

end Parse

/-! ## Keys split one way -/

theorem not_mem_ns (index : IndexIdentity) : SEPARATOR ∉ index.ns.value :=
  index.ns.not_mem (by decide)

theorem not_mem_name (index : IndexIdentity) : SEPARATOR ∉ index.name.value :=
  index.name.not_mem (by decide)

theorem not_mem_key (key : OperationKey) : SEPARATOR ∉ key.value := key.not_mem (by decide)

theorem not_mem_padded (n : Nat) : SEPARATOR ∉ padded DECIMAL_WIDTH n := fun hmem =>
  absurd (Str.digits_padded SEPARATOR hmem) (by decide)

theorem splitOn_single {part : Str} (h : SEPARATOR ∉ part) : part.splitOn SEPARATOR = [part] :=
  List.splitOn_eq_singleton h

/-- The parts of a key that starts with the prefix of an index. -/
theorem splitOn_indexed (index : IndexIdentity) (rest : Str) :
    (indexPrefix index ++ rest).splitOn SEPARATOR =
      index.ns.value :: index.name.value :: rest.splitOn SEPARATOR := by
  simp only [indexPrefix, head, List.append_assoc, List.cons_append, List.nil_append]
  rw [List.splitOn_append_cons_self_of_not_mem (not_mem_ns index),
    List.splitOn_append_cons_self_of_not_mem (not_mem_name index)]

theorem splitOn_head (index : IndexIdentity) :
    (head index).splitOn SEPARATOR = [index.ns.value, index.name.value] := by
  rw [head, List.splitOn_append_cons_self_of_not_mem (not_mem_ns index),
    splitOn_single (not_mem_name index)]

theorem splitOn_version (index : IndexIdentity) (version : IndexVersion) :
    (StorageKey.version index version).splitOn SEPARATOR =
      [index.ns.value, index.name.value, padded DECIMAL_WIDTH version.get] := by
  rw [StorageKey.version, splitOn_indexed, splitOn_single (not_mem_padded _)]

theorem splitOn_operation (index : IndexIdentity) (key : OperationKey) :
    (operation index key).splitOn SEPARATOR =
      [index.ns.value, index.name.value, key.value] := by
  rw [operation, splitOn_indexed, splitOn_single (not_mem_key key)]

theorem splitOn_quarantine (sequence : Nat) (index : IndexIdentity) (version : IndexVersion)
    (part : QuarantinePart) : (quarantine sequence index version part).splitOn SEPARATOR =
      [padded DECIMAL_WIDTH sequence, index.ns.value, index.name.value,
        padded DECIMAL_WIDTH version.get, part.asStr] := by
  have hpart : SEPARATOR ∉ part.asStr := by cases part <;> decide
  rw [quarantine, List.splitOn_append_cons_self_of_not_mem (not_mem_padded _), StorageKey.version,
    List.append_assoc, splitOn_indexed,
    List.splitOn_append_cons_self_of_not_mem (not_mem_padded _), splitOn_single hpart]

theorem identity_ext {index other : IndexIdentity} (hns : index.ns.value = other.ns.value)
    (hname : index.name.value = other.name.value) : index = other := by
  cases index
  cases other
  obtain rfl := Identifier.ext hns
  obtain rfl := Identifier.ext hname
  rfl

/-- The prefix of an index matches the keys of that index alone. -/
theorem prefix_append_inj {index other : IndexIdentity} {rest rest' : Str}
    (h : indexPrefix index ++ rest = indexPrefix other ++ rest') : index = other ∧ rest = rest' := by
  have hparts := congrArg (List.splitOn SEPARATOR) h
  rw [splitOn_indexed, splitOn_indexed] at hparts
  injection hparts with hns hparts
  injection hparts with hname
  obtain rfl := identity_ext hns hname
  exact ⟨rfl, List.append_cancel_left h⟩

theorem prefix_iff {index other : IndexIdentity} {rest : Str} :
    indexPrefix index <+: indexPrefix other ++ rest ↔ index = other := by
  constructor
  · rintro ⟨rest', h⟩
    exact (prefix_append_inj h).1
  · rintro rfl
    exact List.prefix_append _ _

theorem head_injective : Function.Injective head := fun index other h => by
  have hparts := congrArg (List.splitOn SEPARATOR) h
  rw [splitOn_head, splitOn_head] at hparts
  injection hparts with hns hparts
  injection hparts with hname
  exact identity_ext hns hname

theorem versionAt_injective : Function.Injective versionAt := by
  rintro ⟨index, v⟩ ⟨other, w⟩ h
  obtain ⟨rfl, hdigits⟩ := prefix_append_inj h
  obtain rfl := IndexVersion.ext (Str.padded_injective hdigits)
  rfl

theorem operationAt_injective : Function.Injective operationAt := by
  rintro ⟨index, key⟩ ⟨other, key'⟩ h
  obtain ⟨rfl, hkey⟩ := prefix_append_inj h
  obtain rfl := Identifier.ext hkey
  rfl

/-! ## Keys are ASCII -/

theorem head_ascii (index : IndexIdentity) : Ascii (head index) :=
  index.ns.ascii.append (.cons (by decide) index.name.ascii)

theorem prefix_ascii (index : IndexIdentity) : Ascii (indexPrefix index) :=
  (head_ascii index).append (.cons (by decide) .nil)

theorem version_ascii (index : IndexIdentity) (v : IndexVersion) : Ascii (version index v) :=
  (prefix_ascii index).append Str.digits_padded.ascii

theorem operation_ascii (index : IndexIdentity) (key : OperationKey) : Ascii (operation index key) :=
  (prefix_ascii index).append key.ascii

theorem QuarantinePart.ascii (part : QuarantinePart) : Ascii part.asStr := by
  have hall : part.asStr.all (fun character => decide (character.toNat < 128)) = true := by
    cases part <;> decide
  intro character hmem
  exact of_decide_eq_true (List.all_eq_true.mp hall character hmem)

theorem quarantine_ascii (sequence : Nat) (index : IndexIdentity) (v : IndexVersion)
    (part : QuarantinePart) : Ascii (quarantine sequence index v part) :=
  Str.digits_padded.ascii.append (.cons (by decide) ((version_ascii index v).append
    (.cons (by decide) part.ascii)))

/-! ## The order of keys -/

theorem decimal_fits {n : Nat} (h : n < UInt64.size) : n < 10 ^ DECIMAL_WIDTH :=
  h.trans (by decide)

/-- The versions of an index list in ascending order. -/
theorem version_lt_iff {index : IndexIdentity} {v w : IndexVersion} :
    version index v < version index w ↔ v < w := by
  rw [version, version, append_lt_append_iff rfl, or_iff_right (lt_irrefl _),
    and_iff_right rfl]
  exact Str.padded_lt_iff (by decide) (decimal_fits v.fits) (decimal_fits w.fits)

/-- The sequences of quarantine list in ascending order, a marker before its payload. -/
theorem quarantine_lt_iff {n m : Nat} {index other : IndexIdentity} {v w : IndexVersion}
    {part part' : QuarantinePart} (hn : n < UInt64.size) (hm : m < UInt64.size) :
    quarantine n index v part < quarantine m other w part' ↔
      n < m ∨ n = m ∧ version index v ++ SEPARATOR :: part.asStr <
        version other w ++ SEPARATOR :: part'.asStr := by
  have hlen (n : Nat) (hn : n < UInt64.size) : (padded DECIMAL_WIDTH n).length = DECIMAL_WIDTH :=
    Str.padded_length (by decide) (decimal_fits hn)
  have hpadded : padded DECIMAL_WIDTH n = padded DECIMAL_WIDTH m ↔ n = m :=
    ⟨Str.padded_injective, fun h => h ▸ rfl⟩
  rw [quarantine, quarantine, append_lt_append_iff ((hlen n hn).trans (hlen m hm).symm),
    Str.padded_lt_iff (by decide) (decimal_fits hn) (decimal_fits hm), hpadded,
    List.cons_lt_cons_iff, or_iff_right (lt_irrefl _), and_iff_right rfl]

/-! ## Keys read back -/

section Parse

variable [Unicode]

omit [Unicode] in
theorem split_asBytes (text : Str) : split text.asBytes = .ok (text.splitOn SEPARATOR) := by
  rw [split, Str.fromUtf8_asBytes]

theorem identity_value (key : Bytes) (index : IndexIdentity) :
    identity key index.ns.value index.name.value = .ok index := by
  rw [identity, Identifier.tryFrom_value, Identifier.tryFrom_value]
  rfl

theorem decimal_padded (key : Bytes) {n : Nat} (hn : n < UInt64.size) :
    decimal key (padded DECIMAL_WIDTH n) = .ok ⟨n, hn⟩ := by
  have hlen : (padded DECIMAL_WIDTH n).byteLen = DECIMAL_WIDTH := by
    have hascii : Ascii (padded DECIMAL_WIDTH n) := Str.digits_padded.ascii
    rw [← Str.asBytes_length, hascii.asBytes, List.length_map]
    exact Str.padded_length (by decide) (decimal_fits hn)
  have hdigits : (padded DECIMAL_WIDTH n).all Char.isDigit = true :=
    List.all_eq_true.mpr Str.digits_padded
  simp [decimal, hlen, hdigits, Str.padded_value, hn]

theorem indexVersion_padded (key : Bytes) (v : IndexVersion) :
    indexVersion key (padded DECIMAL_WIDTH v.get) = .ok v := by
  rw [indexVersion, decimal_padded key v.fits, Outcome.ok_bind, IndexVersion.tryFrom_get]
  rfl

omit [Unicode] in
theorem quarantinePart_asStr (key : Bytes) (part : QuarantinePart) :
    quarantinePart key part.asStr = .ok part := by
  cases part <;> rfl

/-- Every key reads back as what it was built from. -/
theorem parseHead_head (index : IndexIdentity) : parseHead (head index).asBytes = .ok index := by
  simp only [parseHead, split_asBytes, splitOn_head, Outcome.ok_bind, identity_value]

theorem parseVersion_version (index : IndexIdentity) (v : IndexVersion) :
    parseVersion (version index v).asBytes = .ok (index, v) := by
  simp only [parseVersion, split_asBytes, splitOn_version, Outcome.ok_bind, identity_value,
    indexVersion_padded, Outcome.pure_eq]

theorem parseOperation_operation (index : IndexIdentity) (key : OperationKey) :
    parseOperation (operation index key).asBytes = .ok (index, key) := by
  simp only [parseOperation, split_asBytes, splitOn_operation, Outcome.ok_bind, identity_value,
    Identifier.tryFrom_value, checked, Outcome.pure_eq]

theorem parseQuarantine_quarantine {n : Nat} (hn : n < UInt64.size) (index : IndexIdentity)
    (v : IndexVersion) (part : QuarantinePart) :
    parseQuarantine (quarantine n index v part).asBytes = .ok (⟨n, hn⟩, index, v, part) := by
  simp only [parseQuarantine, split_asBytes, splitOn_quarantine, Outcome.ok_bind, identity_value,
    indexVersion_padded, quarantinePart_asStr, decimal_padded _ hn, Outcome.pure_eq]

/-! ## Nothing else is read -/

omit [Unicode] in
theorem split_eq_ok {key : Bytes} {parts : List Str} (h : split key = .ok parts) :
    key = Str.asBytes ([SEPARATOR].intercalate parts) := by
  unfold split at h
  split at h
  · next text htext =>
    cases h
    rw [List.intercalate_splitOn, Str.asBytes_fromUtf8 htext]
  · cases h

theorem checked_eq_ok {α : Type} {key : Bytes} {parsed : Except HeuremaError α} {value : α} :
    checked key parsed = .ok value ↔ parsed = .ok value := by
  cases parsed <;> simp [checked]

theorem identity_eq_ok {key : Bytes} {ns name : Str} {index : IndexIdentity}
    (h : identity key ns name = .ok index) : index.ns.value = ns ∧ index.name.value = name := by
  obtain ⟨parsedNs, hns, h⟩ := Outcome.bind_eq_ok.mp h
  obtain ⟨parsedName, hname, h⟩ := Outcome.bind_eq_ok.mp h
  cases h
  exact ⟨Identifier.tryFrom_eq_ok (checked_eq_ok.mp hns),
    Identifier.tryFrom_eq_ok (checked_eq_ok.mp hname)⟩

theorem decimal_eq_ok {key : Bytes} {digits : Str} {number : {n : Nat // n < UInt64.size}}
    (h : decimal key digits = .ok number) : padded DECIMAL_WIDTH number.1 = digits := by
  simp only [decimal] at h
  split_ifs at h with hshape hfits
  cases h
  push Not at hshape
  have hdigits : Str.Digits digits := List.all_eq_true.mp hshape.2
  have hlen : digits.length = DECIMAL_WIDTH := by
    rw [← hshape.1, ← Str.asBytes_length, hdigits.ascii.asBytes, List.length_map]
  have hlen' : (padded DECIMAL_WIDTH (Nat.ofDigitChars 10 digits 0)).length = digits.length :=
    (Str.padded_length (by decide) (decimal_fits hfits)).trans hlen.symm
  have hlt := Str.digits_padded.lt_iff hdigits hlen'
  have hgt := hdigits.lt_iff Str.digits_padded hlen'.symm
  rw [Str.padded_value, lt_self_iff_false, iff_false, not_lt] at hlt hgt
  exact le_antisymm hgt hlt

theorem indexVersion_eq_ok {key : Bytes} {digits : Str} {v : IndexVersion}
    (h : indexVersion key digits = .ok v) : padded DECIMAL_WIDTH v.get = digits := by
  obtain ⟨number, hnumber, h⟩ := Outcome.bind_eq_ok.mp h
  have hv := checked_eq_ok.mp h
  unfold IndexVersion.tryFrom at hv
  split at hv
  · cases hv
    exact decimal_eq_ok hnumber
  · cases hv

omit [Unicode] in
theorem quarantinePart_eq_ok {key : Bytes} {text : Str} {part : QuarantinePart}
    (h : quarantinePart key text = .ok part) : part.asStr = text := by
  simp only [quarantinePart] at h
  split_ifs at h with hmarker hpayload
  · cases h
    exact hmarker.symm
  · cases h
    exact hpayload.symm

/-- A key that reads as a head is the head key of what it reads as. -/
theorem parseHead_eq_ok {key : Bytes} {index : IndexIdentity} (h : parseHead key = .ok index) :
    key = (head index).asBytes := by
  obtain ⟨parts, hparts, h⟩ := Outcome.bind_eq_ok.mp h
  split at h
  · obtain ⟨rfl, rfl⟩ := identity_eq_ok h
    rw [split_eq_ok hparts]
    simp [head, List.intercalate_cons_cons]
  · cases h

theorem parseVersion_eq_ok {key : Bytes} {index : IndexIdentity} {v : IndexVersion}
    (h : parseVersion key = .ok (index, v)) : key = (version index v).asBytes := by
  obtain ⟨parts, hparts, h⟩ := Outcome.bind_eq_ok.mp h
  split at h
  · obtain ⟨_, hindex, h⟩ := Outcome.bind_eq_ok.mp h
    obtain ⟨_, hversion, h⟩ := Outcome.bind_eq_ok.mp h
    cases h
    obtain ⟨rfl, rfl⟩ := identity_eq_ok hindex
    rw [split_eq_ok hparts, ← indexVersion_eq_ok hversion]
    simp [version, indexPrefix, head, List.intercalate_cons_cons]
  · cases h

theorem parseOperation_eq_ok {key : Bytes} {index : IndexIdentity} {operation : OperationKey}
    (h : parseOperation key = .ok (index, operation)) :
    key = (StorageKey.operation index operation).asBytes := by
  obtain ⟨parts, hparts, h⟩ := Outcome.bind_eq_ok.mp h
  split at h
  · obtain ⟨_, hindex, h⟩ := Outcome.bind_eq_ok.mp h
    obtain ⟨_, hkey, h⟩ := Outcome.bind_eq_ok.mp h
    cases h
    obtain ⟨rfl, rfl⟩ := identity_eq_ok hindex
    rw [split_eq_ok hparts, ← Identifier.tryFrom_eq_ok (checked_eq_ok.mp hkey)]
    simp [StorageKey.operation, indexPrefix, head, List.intercalate_cons_cons]
  · cases h

theorem parseQuarantine_eq_ok {key : Bytes} {sequence : {n : Nat // n < UInt64.size}}
    {index : IndexIdentity} {v : IndexVersion} {part : QuarantinePart}
    (h : parseQuarantine key = .ok (sequence, index, v, part)) :
    key = (quarantine sequence.1 index v part).asBytes := by
  obtain ⟨parts, hparts, h⟩ := Outcome.bind_eq_ok.mp h
  split at h
  · obtain ⟨_, hpart, h⟩ := Outcome.bind_eq_ok.mp h
    obtain ⟨_, hsequence, h⟩ := Outcome.bind_eq_ok.mp h
    obtain ⟨_, hindex, h⟩ := Outcome.bind_eq_ok.mp h
    obtain ⟨_, hversion, h⟩ := Outcome.bind_eq_ok.mp h
    cases h
    obtain ⟨rfl, rfl⟩ := identity_eq_ok hindex
    rw [split_eq_ok hparts, ← decimal_eq_ok hsequence, ← indexVersion_eq_ok hversion,
      ← quarantinePart_eq_ok hpart]
    simp [quarantine, version, indexPrefix, head, List.intercalate_cons_cons]
  · cases h

/-! ## Keys and what they read as -/

theorem parseHead_iff {key : Bytes} {index : IndexIdentity} :
    parseHead key = .ok index ↔ key = (head index).asBytes := by
  constructor
  · exact parseHead_eq_ok
  · rintro rfl
    exact parseHead_head index

theorem parseVersion_iff {key : Bytes} {index : IndexIdentity} {v : IndexVersion} :
    parseVersion key = .ok (index, v) ↔ key = (version index v).asBytes := by
  constructor
  · exact parseVersion_eq_ok
  · rintro rfl
    exact parseVersion_version index v

theorem parseOperation_iff {key : Bytes} {index : IndexIdentity} {op : OperationKey} :
    parseOperation key = .ok (index, op) ↔ key = (operation index op).asBytes := by
  constructor
  · exact parseOperation_eq_ok
  · rintro rfl
    exact parseOperation_operation index op

theorem parseQuarantine_iff {key : Bytes} {sequence : {n : Nat // n < UInt64.size}}
    {index : IndexIdentity} {v : IndexVersion} {part : QuarantinePart} :
    parseQuarantine key = .ok (sequence, index, v, part) ↔
      key = (quarantine sequence.1 index v part).asBytes := by
  constructor
  · exact parseQuarantine_eq_ok
  · rintro rfl
    exact parseQuarantine_quarantine sequence.2 index v part

end Parse

/-! ## The bytes of keys -/

/-- The bytes of a prefix are a prefix of the bytes of the keys of its index alone. -/
theorem prefix_bytes_iff {index other : IndexIdentity} {rest : Str} (hrest : Ascii rest) :
    (indexPrefix index).asBytes <+: (indexPrefix other ++ rest).asBytes ↔ other = index := by
  rw [Ascii.asBytes_prefix_iff (prefix_ascii index) ((prefix_ascii other).append hrest),
    prefix_iff, eq_comm]

theorem version_bytes_lt_iff {index : IndexIdentity} {v w : IndexVersion} :
    (version index v).asBytes < (version index w).asBytes ↔ v.get < w.get := by
  rw [Ascii.asBytes_lt_iff (version_ascii index v) (version_ascii index w), version_lt_iff]
  exact IndexVersion.lt_iff

/-- What follows the sequence in a quarantine key. -/
def quarantineRest (index : IndexIdentity) (v : IndexVersion) (part : QuarantinePart) : Str :=
  version index v ++ SEPARATOR :: part.asStr

theorem quarantineRest_ascii (index : IndexIdentity) (v : IndexVersion) (part : QuarantinePart) :
    Ascii (quarantineRest index v part) :=
  (version_ascii index v).append (.cons (by decide) part.ascii)

/-- Quarantine keys compare by their sequences first. -/
theorem quarantine_bytes_lt_iff {n m : Nat} {index other : IndexIdentity} {v w : IndexVersion}
    {part part' : QuarantinePart} (hn : n < UInt64.size) (hm : m < UInt64.size) :
    (quarantine n index v part).asBytes < (quarantine m other w part').asBytes ↔
      n < m ∨ n = m ∧
        (quarantineRest index v part).asBytes < (quarantineRest other w part').asBytes := by
  rw [Ascii.asBytes_lt_iff (quarantine_ascii n index v part) (quarantine_ascii m other w part'),
    Ascii.asBytes_lt_iff (quarantineRest_ascii index v part) (quarantineRest_ascii other w part')]
  exact quarantine_lt_iff hn hm

/-- In the keys of one entry the marker comes before the payload. -/
theorem marker_bytes_lt (n : Nat) (index : IndexIdentity) (v : IndexVersion) :
    (quarantine n index v .marker).asBytes < (quarantine n index v .payload).asBytes := by
  have hpart : QuarantinePart.marker.asStr < QuarantinePart.payload.asStr := by decide
  rw [Ascii.asBytes_lt_iff (quarantine_ascii n index v _) (quarantine_ascii n index v _)]
  simp only [quarantine]
  rw [append_lt_append_iff rfl, List.cons_lt_cons_iff, append_lt_append_iff rfl,
    List.cons_lt_cons_iff]
  exact .inr ⟨rfl, .inr ⟨rfl, .inr ⟨rfl, .inr ⟨rfl, hpart⟩⟩⟩⟩

/-- Every key reads as what it was built from and as nothing else, nothing else reads as a
key, the keys with the prefix of an index are its own, and the order of the bytes is that of
the versions of an index and of the sequences of quarantine. -/
theorem keys_exact [Unicode] :
    (∀ key index, parseHead key = .ok index ↔ key = (head index).asBytes) ∧
    (∀ key index v, parseVersion key = .ok (index, v) ↔ key = (version index v).asBytes) ∧
    (∀ key index v, parseStaging key = .ok (index, v) ↔ key = (staging index v).asBytes) ∧
    (∀ key index op, parseOperation key = .ok (index, op) ↔ key = (operation index op).asBytes) ∧
    (∀ key sequence index v part, parseQuarantine key = .ok (sequence, index, v, part) ↔
      key = (quarantine sequence.1 index v part).asBytes) ∧
    (∀ index other v, (indexPrefix index).asBytes <+: (version other v).asBytes ↔
      other = index) ∧
    (∀ index other v, (indexPrefix index).asBytes <+: (staging other v).asBytes ↔
      other = index) ∧
    (∀ index other op, (indexPrefix index).asBytes <+: (operation other op).asBytes ↔
      other = index) ∧
    (∀ index v w, (version index v).asBytes < (version index w).asBytes ↔ v.get < w.get) ∧
    (∀ index v w, (staging index v).asBytes < (staging index w).asBytes ↔ v.get < w.get) ∧
    (∀ (n m : {n : Nat // n < UInt64.size}) index other v w part part',
      (quarantine n.1 index v part).asBytes < (quarantine m.1 other w part').asBytes ↔
        n.1 < m.1 ∨ n.1 = m.1 ∧
          (quarantineRest index v part).asBytes < (quarantineRest other w part').asBytes) ∧
    (∀ (n : {n : Nat // n < UInt64.size}) index v,
      (quarantine n.1 index v .marker).asBytes < (quarantine n.1 index v .payload).asBytes) := by
  refine ⟨fun _ _ => parseHead_iff, fun _ _ _ => parseVersion_iff, fun _ _ _ => parseVersion_iff,
    fun _ _ _ => parseOperation_iff, fun _ _ _ _ _ => parseQuarantine_iff, ?_, ?_, ?_,
    fun _ _ _ => version_bytes_lt_iff, fun _ _ _ => version_bytes_lt_iff, ?_, ?_⟩
  · intro index other v
    exact prefix_bytes_iff Str.digits_padded.ascii
  · intro index other v
    exact prefix_bytes_iff Str.digits_padded.ascii
  · intro index other op
    exact prefix_bytes_iff op.ascii
  · intro n m index other v w part part'
    exact quarantine_bytes_lt_iff n.2 m.2
  · intro n index v
    exact marker_bytes_lt n.1 index v

end StorageKey

end Heurema
