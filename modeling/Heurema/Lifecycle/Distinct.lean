import Heurema.Lifecycle.Consumer
import Heurema.Lifecycle.Refusal

/-! # Operations with one canonical form

The item of an operation determines its index, its transition and its change up
to the order of the members, for consumer types that serialize injectively. -/

namespace Heurema.Digest

open Serde

/-- A type whose values have distinct items. -/
def Injective (T : Type) [Codec T] : Prop :=
  ∀ a b : T, canon (serialize a) = canon (serialize b) → a = b

theorem canonFields_absent {fields : List (Str × Value)} {name : Str}
    (h : name ∉ fields.map Prod.fst) : canonFields fields (.str name) = none := by
  induction fields with
  | nil => rfl
  | cons field fields ih =>
    rw [List.map_cons, List.mem_cons, not_or] at h
    rw [canonFields, if_neg (fun heq => h.1 (Key.str.inj heq).symm), ih h.2]

/-- Fields of distinct names are told apart by the item of their struct. -/
theorem canonFields_inj {names : List Str} {values others : List Value} (hnames : names.Nodup)
    (hvalues : values.length = names.length) (hothers : others.length = names.length)
    (h : canonFields (names.zip values) = canonFields (names.zip others)) :
    values.map canon = others.map canon := by
  induction names generalizing values others with
  | nil => simp [List.length_eq_zero_iff.mp hvalues, List.length_eq_zero_iff.mp hothers]
  | cons name names ih =>
    obtain ⟨hname, hnames⟩ := List.nodup_cons.mp hnames
    obtain ⟨value, values, rfl⟩ := List.exists_of_length_succ _ hvalues
    obtain ⟨other, others, rfl⟩ := List.exists_of_length_succ _ hothers
    rw [List.zip_cons_cons, List.zip_cons_cons] at h
    have hhead : canon value = canon other := by
      have hkey := congrFun h (.str name)
      simpa [canonFields] using hkey
    have hnone {rest : List Value} : canonFields (names.zip rest) (.str name) = none := by
      refine canonFields_absent fun hmem => hname ?_
      obtain ⟨field, hfield, rfl⟩ := List.mem_map.mp hmem
      exact (List.of_mem_zip hfield).1
    have htail : canonFields (names.zip values) = canonFields (names.zip others) := by
      funext key
      by_cases hkey : Key.str name = key
      · rw [← hkey, hnone, hnone]
      · have hat := congrFun h key
        simpa [canonFields, hkey] using hat
    rw [List.map_cons, List.map_cons, hhead,
      ih hnames (Nat.succ.inj hvalues) (Nat.succ.inj hothers) htail]

theorem record_inj {name : Str} {names : List Str} {values others : List Value}
    (hname : name ≠ SERDE_JSON_NUMBER ∧ name ≠ SERDE_JSON_RAW_VALUE) (hnames : names.Nodup)
    (hvalues : values.length = names.length) (hothers : others.length = names.length)
    (h : canon (record name names values) = canon (record name names others)) :
    values.map canon = others.map canon := by
  rw [record, record, canon, canon, if_neg hname.1, if_neg hname.2, if_neg hname.1,
    if_neg hname.2] at h
  exact canonFields_inj hnames hvalues hothers (Item.map.inj h)

theorem seq_inj {α : Type} {f : α → Value} {xs ys : List α}
    (hf : ∀ x y, canon (f x) = canon (f y) → x = y)
    (h : canon (.seq (xs.map f)) = canon (.seq (ys.map f))) : xs = ys := by
  rw [canon, canon, canonElements_eq, canonElements_eq, List.map_map, List.map_map] at h
  exact List.map_injective_iff.mpr (fun x y => hf x y) (Item.seq.inj h)

theorem str_inj {text other : Str} (h : canon (.str text) = canon (.str other)) : text = other :=
  Key.str.inj (Item.key.inj h)

theorem usize_inj {m n : Nat} (hm : m < UInt64.size) (hn : n < UInt64.size)
    (h : canon (serialize m) = canon (serialize n)) : m = n := by
  obtain ⟨-, hbits⟩ := Key.int.inj (Item.key.inj h)
  have hnat := congrArg BitVec.toNat (eq_of_heq hbits)
  rw [BitVec.toNat_ofNat, BitVec.toNat_ofNat] at hnat
  exact (Nat.mod_eq_of_lt hm).symm.trans (hnat.trans (Nat.mod_eq_of_lt hn))

theorem variant_inj {variant other : Str} {value content : Value}
    (h : canon (.newtypeVariant variant value) = canon (.newtypeVariant other content)) :
    variant = other ∧ canon value = canon content :=
  Item.variant.inj h

/-! ## The types of an operation -/

theorem Identifier.injective [Unicode] {g : Grammar} : Injective (Identifier g) :=
  fun _ _ h => Identifier.ext (str_inj h)

theorem IndexIdentity.injective [Unicode] : Injective IndexIdentity := by
  intro a b h
  have hparts := record_inj (by decide) (by decide) rfl rfl h
  simp only [List.map_cons, List.map_nil, List.cons.injEq, and_true] at hparts
  exact congrArg₂ IndexIdentity.mk (Identifier.injective _ _ hparts.1)
    (Identifier.injective _ _ hparts.2)

theorem LifecycleTransition.injective : Injective LifecycleTransition := by
  intro a b h
  have hname := str_inj h
  cases a <;> cases b <;> first | rfl | exact absurd hname (by decide)

theorem VectorDistance.injective : Injective Hnsw.VectorDistance := by
  intro a b h
  have hname := str_inj h
  cases a <;> cases b <;> first | rfl | exact absurd hname (by decide)

theorem HnswConfig.injective : Injective Hnsw.HnswConfig := by
  intro a b h
  have hparts := record_inj (by decide) (by decide) rfl rfl h
  simp only [List.map_cons, List.map_nil, List.cons.injEq, and_true] at hparts
  obtain ⟨hdimensions, hdistance, hef, hm⟩ := hparts
  have hdimensions := usize_inj a.fits.1 b.fits.1 hdimensions
  have hdistance := VectorDistance.injective _ _ hdistance
  have hef := usize_inj a.fits.2.1 b.fits.2.1 hef
  have hm := usize_inj a.fits.2.2 b.fits.2.2 hm
  cases a
  cases b
  simp_all

theorem TokenizerConfig.injective : Injective TokenizerConfig := by
  intro a b h
  have hparts := record_inj (by decide) (by decide) rfl rfl h
  simp only [List.map_cons, List.map_nil, List.cons.injEq, and_true] at hparts
  exact congrArg₂ TokenizerConfig.mk (str_inj hparts.1)
    (seq_inj (fun _ _ => str_inj) hparts.2)

theorem FtsConfig.injective : Injective FtsConfig := by
  intro a b h
  have hparts := record_inj (by decide) (by decide) rfl rfl h
  simp only [List.map_cons, List.map_nil, List.cons.injEq, and_true] at hparts
  exact congrArg₂ FtsConfig.mk (TokenizerConfig.injective _ _ hparts.1)
    (seq_inj TokenizerConfig.injective hparts.2)

theorem IndexConfig.injective : Injective IndexConfig := by
  intro a b h
  cases a with
  | vector hnsw =>
    cases b with
    | vector other => exact congrArg IndexConfig.vector (HnswConfig.injective _ _ (variant_inj h).2)
    | fts other => exact absurd (variant_inj h).1 (by decide)
  | fts config =>
    cases b with
    | vector other => exact absurd (variant_inj h).1 (by decide)
    | fts other => exact congrArg IndexConfig.fts (FtsConfig.injective _ _ (variant_inj h).2)

theorem canonicalContent_injective {a b : MemberContent}
    (h : canon (canonicalContent a) = canon (canonicalContent b)) : a = b := by
  cases a with
  | vector components =>
    cases b with
    | vector others =>
      refine congrArg MemberContent.vector (seq_inj (fun x y hxy => ?_) (variant_inj h).2)
      obtain ⟨-, hbits⟩ := Key.int.inj (Item.key.inj hxy)
      exact congrArg F32.mk (eq_of_heq hbits)
    | document text => exact absurd (variant_inj h).1 (by decide)
  | document text =>
    cases b with
    | vector others => exact absurd (variant_inj h).1 (by decide)
    | document other => exact congrArg MemberContent.document (str_inj (variant_inj h).2)

/-! ## Operations -/

variable {M P R : Type} [MemberIdentity M] [ProvenanceReference P] [RetentionReference R]

theorem canonicalMember_injective (hM : Injective M) (hP : Injective P) {a b : IndexMember M P}
    (h : canon (canonicalMember a) = canon (canonicalMember b)) : a = b := by
  have hparts := record_inj (by decide) (by decide) rfl rfl h
  simp only [List.map_cons, List.map_nil, List.cons.injEq, and_true] at hparts
  obtain ⟨hid, hprovenance, hcontent⟩ := hparts
  have hid := hM _ _ hid
  have hprovenance := hP _ _ hprovenance
  have hcontent := canonicalContent_injective hcontent
  cases a
  cases b
  simp_all

/-- Two changes are one up to the order in which members are listed. -/
def SameChange : IndexChange M P R → IndexChange M P R → Prop
  | .create config, .create other => config = other
  | .insert members, .insert others => members.Perm others
  | .remove members, .remove others => members.Perm others
  | .rebuild config members, .rebuild other others => config = other ∧ members.Perm others
  | .destroy retention, .destroy other => retention = other
  | _, _ => False

theorem perm_of_sorted {α : Type} {r : α → α → Prop} [DecidableRel r] {xs ys : List α}
    (h : xs.insertionSort r = ys.insertionSort r) : xs.Perm ys :=
  (List.perm_insertionSort r xs).symm.trans (h ▸ List.perm_insertionSort r ys)

theorem canonicalChange_injective (hM : Injective M) (hP : Injective P) (hR : Injective R)
    {a b : IndexChange M P R} (htransition : a.transition = b.transition)
    (h : canon (canonicalChange a) = canon (canonicalChange b)) : SameChange a b := by
  cases a <;> cases b <;> cases htransition
  all_goals
    have hparts := record_inj (by decide) (by decide) rfl rfl h
    simp only [List.map_cons, List.map_nil, List.cons.injEq, and_true] at hparts
  case create.create => exact IndexConfig.injective _ _ hparts
  case insert.insert =>
    exact perm_of_sorted (seq_inj (fun _ _ => canonicalMember_injective hM hP) hparts)
  case remove.remove => exact perm_of_sorted (seq_inj hM hparts)
  case rebuild.rebuild =>
    exact ⟨IndexConfig.injective _ _ hparts.1,
      perm_of_sorted (seq_inj (fun _ _ => canonicalMember_injective hM hP) hparts.2)⟩
  case destroy.destroy => exact hR _ _ hparts

/-- Operations with one canonical form agree in everything but the order of the members. -/
theorem canonicalBytes_injective [Unicode] (hM : Injective M) (hP : Injective P) (hR : Injective R)
    {a b : LifecycleOperation M P R} {bytes : Bytes} (ha : canonicalBytes a = .ok bytes)
    (hb : canonicalBytes b = .ok bytes) :
    a.index = b.index ∧ a.transition = b.transition ∧ SameChange a.change b.change := by
  obtain ⟨hcanon, -⟩ := (encode_append_inj (s := []) (t := []) ha hb).mp rfl
  have hparts := record_inj (by decide) (by decide) rfl rfl hcanon
  simp only [List.map_cons, List.map_nil, List.cons.injEq, and_true] at hparts
  obtain ⟨hindex, htransition, hchange⟩ := hparts
  have htransition := LifecycleTransition.injective _ _ htransition
  exact ⟨IndexIdentity.injective _ _ hindex, htransition,
    canonicalChange_injective hM hP hR htransition hchange⟩

/-- The canonical encoding is injective up to the identifications of `canon` and
self-delimiting, refuses exactly the values with a malformed part, and tells
apart any two operations that differ in more than the order of their members. -/
theorem canonical_encoding [Unicode] (hM : Injective M) (hP : Injective P) (hR : Injective R) :
    (∀ (x y : Value) (xs ys s t : Bytes), encode x = .ok xs → encode y = .ok ys →
      (xs ++ s = ys ++ t ↔ canon x = canon y ∧ s = t)) ∧
    (∀ value : Value, (∀ part, Contains value part → Regular part) →
      ((∃ reason, encode value = .error reason) ↔
        ∃ part, Contains value part ∧ Malformed part)) ∧
    ∀ (a b : LifecycleOperation M P R) (bytes : Bytes), canonicalBytes a = .ok bytes →
      canonicalBytes b = .ok bytes →
      a.index = b.index ∧ a.transition = b.transition ∧ SameChange a.change b.change :=
  ⟨fun _ _ _ _ _ _ hx hy => encode_append_inj hx hy, fun _ => encode_refuses_iff,
    fun _ _ _ => canonicalBytes_injective hM hP hR⟩

/-- A removal that lists its members in the order given. -/
def Sample.remove (members : List Str) : LifecycleOperation Str Str Str where
  index := Consumer.index
  key := Consumer.key
  change := .remove members

def Sample.bytes (members : List Str) : Except String Bytes :=
  @canonicalBytes Str Str Str Consumer.identity Consumer.reference Consumer.reference
    Unicode.ascii (Sample.remove members)

theorem canonical_encoding_remove : ∃ bytes,
    Sample.bytes ["b".toList, "a".toList] = .ok bytes ∧
    Sample.bytes ["a".toList, "b".toList] = .ok bytes ∧
    ["b".toList, "a".toList].Perm ["a".toList, "b".toList] := by
  have hstr : @Injective Str Consumer.reference.toCodec := fun _ _ => str_inj
  obtain ⟨-, -, h⟩ := @canonical_encoding Str Str Str Consumer.identity Consumer.reference
    Consumer.reference Unicode.ascii hstr hstr hstr
  obtain ⟨bytes, hbytes⟩ : ∃ bytes, Sample.bytes ["a".toList, "b".toList] = .ok bytes :=
    ⟨_, rfl⟩
  have hother : Sample.bytes ["b".toList, "a".toList] = .ok bytes := hbytes ▸ rfl
  exact ⟨bytes, hother, hbytes, (h _ _ bytes hother hbytes).2.2⟩

end Heurema.Digest
