import Heurema.Data.Ascii
import Heurema.Lifecycle.Published
import Heurema.Lifecycle.Sample

/-! # Everything permitted is applied, and reads back -/

namespace Heurema

open Serde Hnsw Digest

section Total

variable {M P R : Type} [MemberIdentity M] [ProvenanceReference P] [RetentionReference R]
  [SerdeJson] [Unicode] [Sha256] [VectorMath] {index : IndexIdentity}
  {log : List (Publication M P R)}


/-- Everything an operation writes decodes again: after every history the reads of a
preparation succeed, and the writes of an operation that was checked and permitted
decode, under the key each is stored under, to what was encoded. -/
theorem published_decodes (h : History index log) : ∃ head current,
    readCurrent index (headBytes log) (payloadBytes log) = .ok (head, current) ∧
    ∀ (checked : CheckedOperation M P R) (validated : ValidatedOperation M P R)
      (next : Successor M P R) (plan : Plan R) (write : PlannedWrite),
      checked.operation.index = index → checked.permit head = .ok validated →
      Apply.successor validated current = .ok next →
      encodePlan next (headBytes log) checked.operation = .ok (plan, write) →
      Decodes checked.operation checked.identity next plan write := by
  have hreadable := h.readable
  refine ⟨_, _, hreadable.read, fun checked validated next plan write _ hpermit hnext hplan => ?_⟩
  exact encodePlan_decodes (successor_publishes hreadable.standing hpermit hnext)
    hreadable.standing.sound hplan

end Total

section Witness

attribute [local instance] Consumer.identity Consumer.reference SerdeJson.compact Unicode.ascii
  Consumer.sha256 Line.math

theorem published_decodes_removal : ∃ (log : List (Publication Str Str Str))
    (publication : Publication Str Str Str),
    ((publication :: log).map fun publication => publication.checked.operation) =
      [Consumer.removed, Consumer.inserted, Consumer.created] ∧
    Decodes publication.checked.operation publication.checked.identity publication.next
      publication.plan publication.write := by
  obtain ⟨log, record, payload, history, hoperations, -⟩ := Consumer.history
  cases history with
  | nil => cases hoperations
  | @publish log publication head current validated history indexed fresh read permitted built encoded =>
    obtain ⟨head', current', hread, hdecodes⟩ := published_decodes history
    rw [read] at hread
    cases hread
    exact ⟨log, publication, hoperations,
      hdecodes _ validated _ _ _ indexed permitted built encoded⟩

end Witness

section Total

variable {M P R : Type} [MemberIdentity M] [ProvenanceReference P] [RetentionReference R]
  [SerdeJson] [Unicode] [Sha256] [VectorMath] {index : IndexIdentity}
  {log : List (Publication M P R)}

/-- Validation and application agree on a permitted operation: its successor is built and
encoded, or its index has no next version, which is what it is refused for. -/
def Agrees (validated : ValidatedOperation M P R) (current : Current M P R)
    (expected : Option Bytes) : Prop :=
  (∃ next plan write, Apply.successor validated current = .ok next ∧
    encodePlan next expected validated.checked.operation = .ok (plan, write)) ∨
  ∃ record payload, current = some (record, payload) ∧ payload.version.next? = none ∧
    Apply.successor validated current = .error (.refused (exhausted payload.version))

/-- What is permitted after a history and fits is agreed on; what does not fit overflows. -/
theorem History.agrees (h : History index log) {checked : CheckedOperation M P R}
    {validated : ValidatedOperation M P R}
    (hpermit : checked.permit (currentHead log) = .ok validated) :
    (checked.operation.change.Fits (currentVersion log) ∧
      Agrees validated (currentVersion log) (headBytes log)) ∨
    (¬ checked.operation.change.Fits (currentVersion log) ∧
      Apply.successor validated (currentVersion log) =
        .error (.panicked "attempt to add with overflow")) := by
  have hstanding := h.readable.standing
  obtain ⟨hchecked, -⟩ := permit_eq_ok hpermit
  by_cases hfits : checked.operation.change.Fits (currentVersion log)
  · refine .inl ⟨hfits, ?_⟩
    rcases h.total hpermit with hnext | hfailed
    · exact .inl (by rw [hchecked]; exact hnext)
    · obtain ⟨failure, hfailure, hexhausts⟩ := hfailed
      obtain ⟨record, payload, hcurrent, hlast, rfl⟩ := hexhausts.version_of_fits hfits
      exact .inr ⟨record, payload, hcurrent, hlast, hfailure⟩
  · exact .inr ⟨hfits, (successor_error_iff hstanding hpermit).mpr (exhausts_panicked.mpr hfits)⟩

theorem not_agrees {validated : ValidatedOperation M P R} {current : Current M P R}
    {expected : Option Bytes} {message : String}
    (h : Apply.successor validated current = .error (.panicked message)) :
    ¬ Agrees validated current expected := by
  intro hagrees
  rcases hagrees with hnext | hlast
  · obtain ⟨next, plan, write, hnext, -⟩ := hnext
    rw [h] at hnext
    cases hnext
  · obtain ⟨record, payload, -, -, hrefused⟩ := hlast
    rw [h] at hrefused
    cases hrefused

/-- Validation and application agree on what was checked and permitted after a history exactly
where the tokens it leaves fit a `usize`; where they do not, the counter of the corpus
overflows. -/
theorem application_total (h : History index log) : ∃ head current,
    readCurrent index (headBytes log) (payloadBytes log) = .ok (head, current) ∧
    ∀ (checked : CheckedOperation M P R) (validated : ValidatedOperation M P R),
      checked.operation.index = index → checked.permit head = .ok validated →
      (Agrees validated current (headBytes log) ↔ checked.operation.change.Fits current) ∧
      (¬ checked.operation.change.Fits current →
        Apply.successor validated current = .error (.panicked "attempt to add with overflow")) := by
  refine ⟨_, _, h.readable.read, fun checked validated _ hpermit => ?_⟩
  rcases h.agrees hpermit with hfits | hover
  · exact ⟨iff_of_true hfits.2 hfits.1, fun hnot => absurd hfits.1 hnot⟩
  · exact ⟨iff_of_false (not_agrees hover.2) hover.1, fun _ => hover.2⟩

end Total

section Witness

attribute [local instance] Consumer.identity Consumer.reference SerdeJson.compact Unicode.ascii
  Consumer.sha256 Line.math

theorem application_total_insertion : ∃ (log : List (Publication Str Str Str))
    (checked : CheckedOperation Str Str Str) (validated : ValidatedOperation Str Str Str)
    (head : Option (IndexRecord Str)) (current : Current Str Str Str),
    (log.map fun publication => publication.checked.operation) = [Consumer.created] ∧
    checked.operation = Consumer.inserted ∧ checked.permit head = .ok validated ∧
    Agrees validated current (headBytes log) ∧ checked.operation.change.Fits current := by
  obtain ⟨log, record, payload, history, hoperations, -⟩ := Consumer.history
  cases history with
  | nil => cases hoperations
  | @publish _ _ _ _ _ history =>
    obtain ⟨-, hoperations⟩ := List.cons.inj hoperations
    cases history with
    | nil => cases hoperations
    | @publish log publication head current validated history indexed fresh read permitted built
        encoded =>
      obtain ⟨head', current', hread, htotal⟩ := application_total history
      rw [read] at hread
      cases hread
      obtain ⟨hinserted, hlog⟩ := List.cons.inj hoperations
      obtain ⟨hchecked, -⟩ := permit_eq_ok permitted
      have hagrees : Agrees validated current (headBytes log) :=
        .inl ⟨_, _, _, built, by rw [hchecked]; exact encoded⟩
      exact ⟨log, publication.checked, validated, _, _, hlog, hinserted, permitted, hagrees,
        (htotal _ validated indexed permitted).1.mp hagrees⟩

end Witness

/-! ## A corpus that fills the counter -/

section Corpus

open Consumer Bm25Index

open Str (Digits padded digits_padded padded_length padded_injective)

attribute [local instance] Consumer.identity Consumer.reference SerdeJson.compact Unicode.ascii
  Consumer.sha256 Line.math

/-- The word `a`, and `n` more of it. -/
def words : Nat → Str
  | 0 => ['a']
  | n + 1 => 'a' :: ' ' :: words n

theorem tokenize_words (n : Nat) : tokenize (words n) = List.replicate (n + 1) ['a'] := by
  have hsplit : (words n).splitOnP (fun character => !Unicode.isAlphanumeric character) =
      List.replicate (n + 1) ['a'] := by
    induction n with
    | zero => rfl
    | succ n ih =>
      rw [words, List.splitOnP_cons_eq_if_modifyHead, if_neg (by decide),
        List.splitOnP_cons_eq_if_modifyHead, if_pos (by decide), ih]
      rfl
  rw [tokenize, hsplit]
  simp
  decide

theorem tokenCount_words (n : Nat) : tokenCount (words n) = n + 1 := by
  rw [tokenCount, tokenize_words, List.length_replicate]

theorem words_length (n : Nat) : (words n).asBytes.length = 2 * n + 1 := by
  induction n with
  | zero => rfl
  | succ n ih =>
    have hcons : words (n + 1) = ['a', ' '] ++ words n := rfl
    rw [hcons, Str.asBytes_append, List.length_append, ih]
    have : (Str.asBytes ['a', ' ']).length = 2 := rfl
    omega

/-- Inserts a document of `n + 1` words under a key, which is the identity as well. -/
def Consumer.grown (n : Nat) (key : OperationKey) : LifecycleOperation Str Str Str where
  index := index
  key := key
  change := .insert [⟨key.value, "scan".toList, .document (words n)⟩]

theorem lengthPrefixed_text {text : Str} (h : text.asBytes.length < UInt64.size) :
    ∃ item, lengthPrefixed Tag.STR text.asBytes = .ok item := by
  have hcount : count text.asBytes.length = .ok (beBytes 8 text.asBytes.length) := if_pos h
  rw [lengthPrefixed, hcount]
  exact ⟨_, rfl⟩

theorem Consumer.key_length (key : OperationKey) : key.value.asBytes.length < UInt64.size := by
  have haccepted := key.accepted
  simp only [Grammar.accepts, Bool.and_eq_true, decide_eq_true_eq] at haccepted
  have hmost : operationKey.maxLen < UInt64.size := by decide
  rw [Str.asBytes_length]
  exact Nat.lt_of_le_of_lt haccepted.1.2 hmost

theorem Consumer.grown_member {n : Nat} {key : OperationKey} (hn : 2 * n + 1 < UInt64.size) :
    ∃ item, Digest.encode (canonicalMember
      (⟨key.value, "scan".toList, .document (words n)⟩ : IndexMember Str Str)) = .ok item := by
  have hwords : (words n).asBytes.length < UInt64.size := by
    rw [words_length]
    exact hn
  obtain ⟨text, htext⟩ := lengthPrefixed_text hwords
  obtain ⟨identity, hidentity⟩ := lengthPrefixed_text (key_length key)
  show ∃ item, Digest.encode (.struct "CanonicalMember".toList
      [("id".toList, .str key.value), ("provenance".toList, .str "scan".toList),
        ("content".toList, .newtypeVariant "document".toList (.str (words n)))]) = .ok item
  rw [Digest.encode, if_neg (by decide), if_neg (by decide)]
  simp only [encodeFields, Digest.encode, htext, hidentity]
  exact ⟨_, rfl⟩

theorem Consumer.grown_change {n : Nat} {key : OperationKey} (hn : 2 * n + 1 < UInt64.size) :
    ∃ item, Digest.encode (canonicalChange (grown n key).change) = .ok item := by
  obtain ⟨member, hmember⟩ := @grown_member n key hn
  have hmembers : Digest.encode (.seq [canonicalMember
      (⟨key.value, "scan".toList, .document (words n)⟩ : IndexMember Str Str)]) =
      finishSeq [member] := by
    simp only [Digest.encode, encodeElements, hmember]
    rfl
  show ∃ item, Digest.encode (.struct "CanonicalChange".toList
    [("members".toList, .seq [canonicalMember _])]) = .ok item
  rw [Digest.encode, if_neg (by decide), if_neg (by decide)]
  simp only [encodeFields]
  rw [hmembers]
  exact ⟨_, rfl⟩

theorem Consumer.grown_encoded {n : Nat} {key : OperationKey} (hn : 2 * n + 1 < UInt64.size) :
    ∃ item, canonicalBytes (grown n key) = .ok item := by
  obtain ⟨change, hchange⟩ := @grown_change n key hn
  obtain ⟨index, hindex⟩ : ∃ item, Digest.encode (serialize (grown n key).index) = .ok item :=
    ⟨_, rfl⟩
  obtain ⟨transition, htransition⟩ : ∃ item,
    Digest.encode (serialize (grown n key).transition) = .ok item := ⟨_, rfl⟩
  show ∃ item, Digest.encode (.struct "CanonicalOperation".toList
    [("index".toList, _), ("transition".toList, _), ("change".toList, _)]) = .ok item
  rw [Digest.encode, if_neg (by decide), if_neg (by decide)]
  simp only [encodeFields, hindex, htransition, hchange]
  exact ⟨_, rfl⟩

theorem Consumer.grown_checked {n : Nat} {key : OperationKey} (hn : 2 * n + 1 < UInt64.size) :
    ∃ checked : CheckedOperation Str Str Str, checked.operation = grown n key := by
  obtain ⟨item, hitem⟩ := @grown_encoded n key hn
  have hids : checkMemberIdentities [key.value] = .ok () :=
    checkMemberIdentities_text (by simp) (by simpa using key_length key)
  have hdigest : operationDigest (grown n key) =
      .ok ⟨Digest.Sha256.digest (DOMAIN ++ item), Digest.Sha256.size _⟩ := by
    rw [operationDigest, hitem]
  refine exists_checked (grown n key) ?_ hdigest ?_
  · show (do
      checkMemberIdentities [key.value]
      _) = _
    rw [hids]
    rfl
  · refine Outcome.checkEach_eq_ok.mpr fun member _ => Outcome.mapError_eq_ok.mpr ?_
    exact jsonRoundTrip_of_stores ((Stores.str member.provenance).mono (Nat.zero_le _))

/-- A document under a new identity adds its tokens. -/
theorem Consumer.grown_texts {n : Nat} {key : OperationKey}
    {log : List (Publication Str Str Str)} {publication : Publication Str Str Str}
    (hgrown : publication.checked.operation = grown n key)
    (habsent : (texts log)[key.value]? = none) :
    texts (publication :: log) = (texts log).insert key.value (words n) ∧
      tokenTotal (texts (publication :: log)) = tokenTotal (texts log) + (n + 1) := by
  have htexts : texts (publication :: log) = (texts log).insert key.value (words n) := by
    rw [texts, hgrown]
    rfl
  refine ⟨htexts, ?_⟩
  rw [htexts, tokenTotal, BTreeMap.sumBy_insert_new _ _ habsent, tokenCount_words]
  rfl

/-- The keys of a creation and insertions. -/
theorem Consumer.grown_keys {n : Nat} {keys : List OperationKey}
    {log : List (Publication Str Str Str)}
    (hoperations : (log.map fun publication => publication.checked.operation) =
      keys.map (grown n) ++ [created]) :
    ∀ publication ∈ log, publication.checked.operation.key ∈ created.key :: keys := by
  intro publication hmem
  have hoperation : publication.checked.operation ∈
      log.map fun publication => publication.checked.operation := List.mem_map_of_mem hmem
  rw [hoperations] at hoperation
  rcases List.mem_append.mp hoperation with hgrown | hcreated
  · obtain ⟨key, hkey, hsame⟩ := List.mem_map.mp hgrown
    rw [← hsame]
    exact List.mem_cons_of_mem _ hkey
  · rw [List.mem_singleton.mp hcreated]
    exact List.mem_cons_self

/-- Insertions of a document each, under keys of their own. -/
theorem Consumer.grown_history {n : Nat} (hn : 2 * n + 1 < UInt64.size) (keys : List OperationKey)
    (hkeys : (created.key :: keys).Nodup) (hfew : keys.length + 1 < UInt64.size)
    (hfits : keys.length * (n + 1) < usizeLimit) : ∃ (log : List (Publication Str Str Str))
      (record : IndexRecord Str) (payload : VersionPayload Str Str), History Consumer.index log ∧
      (log.map fun publication => publication.checked.operation) =
        keys.map (grown n) ++ [created] ∧
      currentVersion log = some (record, payload) ∧ payload.config = .fts .simple ∧
      tokenTotal (texts log) = keys.length * (n + 1) ∧
      ∀ key ∉ keys, (texts log)[key.value]? = none := by
  induction keys with
  | nil =>
    obtain ⟨create, hcreate⟩ := created_checked
    have hconfig : create.operation.change = .create (.fts .simple) := hcreate ▸ rfl
    obtain ⟨first, hfirst, history, record, payload, hcurrent, hconfig, -⟩ :=
      History.start (hcreate ▸ rfl : create.operation.index = Consumer.index) hconfig
    have htexts : texts [first] = ∅ := by
      rw [texts, hfirst, hcreate]
      rfl
    refine ⟨_, record, payload, history, by simp [hfirst, hcreate], hcurrent, hconfig, ?_, ?_⟩
    · simp [htexts, tokenTotal]
    · intro key _
      rw [htexts]
      exact Std.ExtTreeMap.getElem?_empty
  | cons key keys ih =>
    obtain ⟨hkey, hkeys⟩ : key ∉ created.key :: keys ∧ (created.key :: keys).Nodup := by
      simp only [List.nodup_cons, List.mem_cons, not_or] at hkeys ⊢
      exact ⟨⟨fun heq => hkeys.1.1 heq.symm, hkeys.2.1⟩, hkeys.1.2, hkeys.2.2⟩
    rw [List.length_cons] at hfew
    rw [List.length_cons, Nat.add_mul, Nat.one_mul] at hfits
    obtain ⟨log, record, payload, history, hoperations, hcurrent, hconfig, htotal, habsent⟩ :=
      ih hkeys (by omega) (by omega)
    obtain ⟨checked, hchecked⟩ := @grown_checked n key hn
    have hlog : log.length = keys.length + 1 := by simpa using congrArg List.length hoperations
    have htokens : checked.operation.change.tokens = n + 1 := by
      rw [hchecked]
      exact tokenCount_words n
    have hfresh : ∀ earlier ∈ log, earlier.checked.operation.key ≠ checked.operation.key := by
      intro earlier hmem heq
      have hlisted := grown_keys hoperations earlier hmem
      rw [heq, hchecked] at hlisted
      exact hkey hlisted
    -- The corpus so far has room for one more document.
    obtain ⟨next, hnext, history'⟩ := history.extend_active hcurrent (by omega)
      (by rw [hchecked]; rfl) hfresh (by rw [hchecked, hconfig]; rfl) (by rw [hchecked]; rfl)
      (by rw [history.tokens hcurrent hconfig, htotal, htokens]; exact hfits)
    obtain ⟨record', payload', hcurrent', hconfig'⟩ := history'.published.2.active (by
      rw [hnext, hchecked]
      exact fun retention heq => by cases heq)
    rw [hnext, hchecked, hcurrent] at hconfig'
    have hgrown : next.checked.operation = grown n key := hnext ▸ hchecked
    have hnew : key ∉ keys := fun hmem => hkey (List.mem_cons_of_mem _ hmem)
    obtain ⟨htexts, hcount⟩ := grown_texts hgrown (habsent key hnew)
    refine ⟨_, record', payload', history', ?_, hcurrent', ?_, ?_, fun other hother => ?_⟩
    · simp [hnext, hchecked, hoperations]
    · exact (Option.some.inj hconfig').trans hconfig
    · rw [hcount, htotal, List.length_cons, Nat.add_mul, Nat.one_mul]
    · rw [List.mem_cons, not_or] at hother
      have hvalue : key.value ≠ other.value := fun heq => hother.1 (Identifier.ext heq).symm
      rw [htexts, BTreeMap.getElem?_insert_ite, if_neg hvalue, habsent other hother.2]

/-- A grammar lets digits stand anywhere. -/
theorem refused_digits {g : Grammar} {value : Str} (h : Digits value) (offset : Nat) :
    g.refused offset value = none := by
  induction value generalizing offset with
  | nil => rfl
  | cons digit value ih =>
    have hdigit := h digit List.mem_cons_self
    have hleads : g.leads digit = true := by simp [Grammar.leads, hdigit]
    have hfollows : g.follows digit = true := by simp [Grammar.follows, hleads]
    rw [Grammar.refused, hleads, hfollows, ite_self, if_pos rfl]
    exact ih (fun other hmem => h other (List.mem_cons_of_mem _ hmem)) _

/-- The key of a document among `2 ^ 24`, its number in eight digits. -/
def Consumer.numbered (i : Fin (2 ^ 24)) : OperationKey where
  value := padded 8 i
  accepted := by
    have hdigits : Digits (padded 8 i) := digits_padded
    have hlength : (padded 8 i.val).length = 8 :=
      padded_length (by omega) (Nat.lt_trans i.isLt (by omega))
    have hbytes : (padded 8 i.val).byteLen = 8 := by
      rw [← Str.asBytes_length, hdigits.ascii.asBytes, List.length_map, hlength]
    have hmost : 8 ≤ operationKey.maxLen := by decide
    have hempty : (padded 8 i.val).isEmpty = false := by
      rw [List.isEmpty_eq_false_iff, ← List.length_pos_iff, hlength]
      decide
    simp [Grammar.accepts, hempty, hbytes, hmost, refused_digits hdigits]

theorem Consumer.numbered_injective : Function.Injective numbered := by
  intro i j h
  exact Fin.ext (padded_injective (congrArg Identifier.value h))

/-- The keys of all documents but the last. -/
def Consumer.earlier : List OperationKey := (List.finRange (2 ^ 24 - 1)).map fun i => numbered i.castSucc

theorem Consumer.earlier_length : earlier.length = 2 ^ 24 - 1 := by
  rw [earlier, List.length_map, List.length_finRange]

theorem Consumer.numbered_ne_created (i : Fin (2 ^ 24)) : created.key ≠ numbered i := by
  intro h
  have hdigits : Digits (padded 8 i) := digits_padded
  have hvalue : "k1".toList = padded 8 i := congrArg Identifier.value h
  rw [← hvalue] at hdigits
  exact absurd (hdigits 'k' (by decide)) (by decide)

theorem Consumer.earlier_nodup : (created.key :: earlier).Nodup := by
  refine List.nodup_cons.mpr ⟨fun hmem => ?_, ?_⟩
  · obtain ⟨i, -, hkey⟩ := List.mem_map.mp hmem
    exact numbered_ne_created _ hkey.symm
  · refine (List.nodup_map_iff_inj_on (List.nodup_finRange _)).mpr ?_
    intro i _ j _ h
    exact Fin.castSucc_injective _ (numbered_injective h)

theorem Consumer.last_new : numbered (Fin.last _) ∉ created.key :: earlier := by
  intro hmem
  rcases List.mem_cons.mp hmem with hcreated | hearlier
  · exact numbered_ne_created _ hcreated.symm
  · obtain ⟨i, -, hkey⟩ := List.mem_map.mp hearlier
    exact (Fin.castSucc_lt_last i).ne (numbered_injective hkey)

/-- Documents of `2 ^ 40` words, `2 ^ 24` of them, fill the token counter: the last, under a
key of its own, overflows it. -/
theorem Consumer.grown_overflows : ∃ (log : List (Publication Str Str Str))
    (head : Option (IndexRecord Str)) (current : Current Str Str Str)
    (checked : CheckedOperation Str Str Str) (validated : ValidatedOperation Str Str Str),
    History Consumer.index log ∧
    (log.map fun publication => publication.checked.operation) =
      earlier.map (grown (2 ^ 40 - 1)) ++ [created] ∧
    readCurrent Consumer.index (headBytes log) (payloadBytes log) = .ok (head, current) ∧
    checked.operation = grown (2 ^ 40 - 1) (numbered (Fin.last _)) ∧
    checked.permit head = .ok validated ∧
    Apply.successor validated current = .error (.panicked "attempt to add with overflow") := by
  have hn : 2 * (2 ^ 40 - 1) + 1 < UInt64.size := by decide
  obtain ⟨log, record, payload, history, hoperations, hcurrent, hconfig, htotal, habsent⟩ :=
    grown_history hn earlier earlier_nodup (by rw [earlier_length]; decide)
      (by rw [earlier_length]; decide)
  rw [earlier_length] at htotal
  have hlog : log.length = 2 ^ 24 := by
    have hlength := congrArg List.length hoperations
    rw [List.length_map, List.length_append, List.length_map, earlier_length] at hlength
    exact hlength
  obtain ⟨checked, hchecked⟩ := @grown_checked (2 ^ 40 - 1) (numbered (Fin.last _)) hn
  obtain ⟨hhead, hidentity, hsame, hstate⟩ :=
    history.readable.standing.active_record hcurrent
  have hindex : record.identity = checked.operation.index := by
    rw [hidentity, hchecked]
    rfl
  obtain ⟨validated, hpermit⟩ := permit_active hindex hstate (by rw [hchecked]; rfl)
    (by rw [hchecked, hsame, hconfig]; rfl)
  rw [← hhead] at hpermit
  refine ⟨log, _, _, checked, validated, history, hoperations, history.readable.read, hchecked,
    hpermit, ?_⟩
  have hnew := last_new
  rcases history.total hpermit with hnext | hfailed
  · -- The version it would build counts all the tokens.
    obtain ⟨next, plan, write, hnext, hplan⟩ := hnext
    let publication : Publication Str Str Str := ⟨checked, next, plan, write⟩
    have hgrown : publication.checked.operation = _ := hchecked
    have hfresh : ∀ other ∈ log, other.checked.operation.key ≠ checked.operation.key := by
      intro other hmem heq
      have hkey := grown_keys hoperations other hmem
      rw [heq, hchecked] at hkey
      exact hnew hkey
    have history' : History Consumer.index (publication :: log) :=
      .publish history (by rw [hgrown]; rfl) hfresh history.readable.read hpermit hnext hplan
    obtain ⟨record', payload', hcurrent', hconfig'⟩ := history'.published.2.active (by
      rw [hgrown]
      exact fun retention heq => by cases heq)
    rw [hgrown, hcurrent] at hconfig'
    have hcount := (grown_texts hgrown
      (habsent _ fun hmem => hnew (List.mem_cons_of_mem _ hmem))).2
    have hsound := history'.readable.standing.sound record' payload' hcurrent'
    have hfits := hsound.engine.tokens_lt
    rw [history'.tokens hcurrent' ((Option.some.inj hconfig').trans hconfig), hcount, htotal] at hfits
    exact absurd hfits (by decide)
  · obtain ⟨failure, hfailure, hexhausts⟩ := hfailed
    rw [hfailure]
    rw [hcurrent] at hexhausts
    cases hexhausts with
    | version builds hlast =>
      -- The versions of so short a history have a next one.
      have hversion : payload.version.get + 1 < UInt64.size := by
        rw [history.version hcurrent, hlog]
        decide
      rw [IndexVersion.next?, dif_pos hversion] at hlast
      cases hlast
    | tokens next full => rfl

/-- Nothing that is checked bounds a corpus: `2 ^ 24` documents of two tebibytes each fill its
counter, and the insertion of the last is permitted and overflows it. -/
theorem application_overflows : ∃ (log : List (Publication Str Str Str))
    (head : Option (IndexRecord Str)) (current : Current Str Str Str)
    (checked : CheckedOperation Str Str Str) (validated : ValidatedOperation Str Str Str),
    History Consumer.index log ∧
    (log.map fun publication => publication.checked.operation) =
      earlier.map (grown (2 ^ 40 - 1)) ++ [created] ∧
    earlier.length + 1 = 2 ^ 24 ∧ (words (2 ^ 40 - 1)).asBytes.length = 2 ^ 41 - 1 ∧
    readCurrent Consumer.index (headBytes log) (payloadBytes log) = .ok (head, current) ∧
    checked.operation = grown (2 ^ 40 - 1) (numbered (Fin.last _)) ∧
    checked.permit head = .ok validated ∧
    Apply.successor validated current = .error (.panicked "attempt to add with overflow") ∧
    ¬ Agrees validated current (headBytes log) := by
  obtain ⟨log, head, current, checked, validated, history, hoperations, hread, hchecked, hpermit,
    hfailed⟩ := grown_overflows
  have hlength : earlier.length + 1 = 2 ^ 24 := by
    rw [earlier_length]
    decide
  exact ⟨log, head, current, checked, validated, history, hoperations, hlength, words_length _,
    hread, hchecked, hpermit, hfailed, not_agrees hfailed⟩

end Corpus

end Heurema
