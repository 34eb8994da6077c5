import Heurema.Hnsw.Runs
import Heurema.Lifecycle.Consumer
import Heurema.Lifecycle.History

/-! # Indexes of text

Text as the identity of members passes every check there is of one. A consumer of text
creates an index, inserts two documents and removes one. -/

namespace Heurema

open Serde Hnsw Digest

open Consumer

attribute [local instance] Consumer.identity Consumer.reference SerdeJson.compact Unicode.ascii
  Consumer.sha256 Line.math

/-- Text passes every check of an identity. -/
theorem checkIdentity_text (id : Str) (hlength : id.asBytes.length < UInt64.size) :
    checkIdentity id = .ok () := by
  have hcount : count id.asBytes.length = .ok (beBytes 8 id.asBytes.length) := if_pos hlength
  have hitem : Digest.encode (serialize id) =
      .ok (Tag.STR :: beBytes 8 id.asBytes.length ++ id.asBytes) := by
    show lengthPrefixed Tag.STR id.asBytes = _
    rw [lengthPrefixed, hcount]
    rfl
  have hrefusal : memberIdentityRefusal id = none := by
    rw [memberIdentityRefusal, hitem]
    rfl
  have hkey := jsonKeyRefusal_of_stores (StoresKey.str id)
  have hvalue := jsonValueRefusal_of_stores ((Stores.str id).mono (Nat.zero_le _))
  rw [checkIdentity, hrefusal]
  simp only [hkey, hvalue]
  rfl

/-- Text in strictly ascending order passes every check of a batch's identities. -/
theorem checkMemberIdentities_text {ids : List Str} (hsorted : ids.Pairwise (· < ·))
    (hlength : ∀ id ∈ ids, id.asBytes.length < UInt64.size) : checkMemberIdentities ids = .ok () := by
  have hduplicate : duplicate ids = none :=
    (duplicate_eq_none (hsorted.imp le_of_lt)).mpr (hsorted.imp ne_of_lt)
  rw [checkMemberIdentities, hduplicate]
  refine Outcome.checkEach_eq_ok.mpr fun id hmem => ?_
  rw [checkIdentity_text id (hlength id hmem)]
  rfl

/-- An operation that passes every check is a checked one. -/
theorem exists_checked (operation : LifecycleOperation Str Str Str) {digest : OperationDigest}
    (hchange : checkChange operation.change = .ok ())
    (hdigest : operationDigest operation = .ok digest)
    (hstored : checkStoredValues operation.change = .ok ()) :
    ∃ checked : CheckedOperation Str Str Str, checked.operation = operation :=
  ⟨⟨operation, ⟨operation.key, digest⟩, hchange, hdigest, hstored, rfl⟩, rfl⟩

theorem Consumer.created_checked :
    ∃ checked : CheckedOperation Str Str Str, checked.operation = created :=
  exists_checked created rfl rfl rfl

theorem Consumer.inserted_checked :
    ∃ checked : CheckedOperation Str Str Str, checked.operation = inserted := by
  refine exists_checked inserted ?_ rfl ?_
  · have hids : checkMemberIdentities ["a".toList, "b".toList] = .ok () :=
      checkMemberIdentities_text (by decide) (by decide)
    show (do
      checkMemberIdentities ["a".toList, "b".toList]
      _) = _
    rw [hids]
    rfl
  · refine Outcome.checkEach_eq_ok.mpr fun member _ => Outcome.mapError_eq_ok.mpr ?_
    exact jsonRoundTrip_of_stores ((Stores.str member.provenance).mono (Nat.zero_le _))

theorem Consumer.removed_checked :
    ∃ checked : CheckedOperation Str Str Str, checked.operation = removed := by
  refine exists_checked removed ?_ rfl rfl
  show checkMemberIdentities ["b".toList, "c".toList] = .ok ()
  exact checkMemberIdentities_text (by decide) (by decide)

/-- The versions that the consumer's operations publish. -/
theorem Consumer.history : ∃ (log : List (Publication Str Str Str)) (record : IndexRecord Str)
    (payload : VersionPayload Str Str), History Consumer.index log ∧
    (log.map fun publication => publication.checked.operation) = [removed, inserted, created] ∧
    currentVersion log = some (record, payload) ∧ payload.config = .fts .simple := by
  obtain ⟨create, hcreate⟩ := created_checked
  obtain ⟨insert, hinsert⟩ := inserted_checked
  obtain ⟨remove, hremove⟩ := removed_checked
  have hindex {checked : CheckedOperation Str Str Str} {operation : LifecycleOperation Str Str Str}
      (h : checked.operation = operation) (hop : operation.index = Consumer.index) :
      checked.operation.index = Consumer.index := h ▸ hop
  have hconfig : create.operation.change = .create (.fts .simple) := hcreate ▸ rfl
  obtain ⟨first, hfirst, history, record, payload, hcurrent, hconfig, hengine⟩ :=
    History.start (hindex hcreate rfl) hconfig
  obtain ⟨second, hsecond, history⟩ := history.extend_active hcurrent (by simp; decide)
    (hindex hinsert rfl) (by simp [hfirst, hcreate, hinsert]; decide)
    (by rw [hinsert, hconfig]; rfl) (by rw [hinsert]; rfl)
    (by rw [hinsert, hengine]; decide +kernel)
  obtain ⟨record', payload', hcurrent', hconfig'⟩ := history.published.2.active (by
    rw [hsecond, hinsert]
    exact fun retention heq => by cases heq)
  rw [hsecond, hinsert, hcurrent] at hconfig'
  have hsound := history.readable.standing.sound record' payload' hcurrent'
  obtain ⟨third, hthird, history⟩ := history.extend_active hcurrent' (by simp; decide)
    (hindex hremove rfl) (by simp [hfirst, hsecond, hcreate, hinsert, hremove]; decide)
    (by rw [hremove]; rfl) (by rw [hremove]; rfl)
    (by rw [hremove]; exact hsound.engine.tokens_lt)
  obtain ⟨record'', payload'', hcurrent'', hconfig''⟩ := history.published.2.active (by
    rw [hthird, hremove]
    exact fun retention heq => by cases heq)
  rw [hthird, hremove, hcurrent'] at hconfig''
  refine ⟨_, record'', payload'', history, ?_, hcurrent'', ?_⟩
  · simp [hfirst, hsecond, hthird, hcreate, hinsert, hremove]
  · calc payload''.config
      _ = payload'.config := Option.some.inj hconfig''
      _ = payload.config := Option.some.inj hconfig'
      _ = .fts .simple := hconfig

end Heurema
