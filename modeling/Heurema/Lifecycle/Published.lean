import Heurema.Lifecycle.Audit

/-! # A published version as a reader sees it

Queries whose every hit carries the member's identity and provenance. A full-text
version answers them as an index built from scratch from the texts that the history
leaves. -/

namespace Heurema

open Serde Hnsw Digest

open Outcome (refuse ofResult)

/-- One query result, and the published version it was read from. -/
structure IndexHit (M P F : Type) where
  id : M
  score : F
  provenance : P
  version : IndexVersion

/-- One published version of a named index, read whole. -/
structure PublishedIndex (M P : Type) [LinearOrder M] where
  identity : IndexIdentity
  version : IndexVersion
  config : IndexConfig
  engine : VersionEngine M
  members : BTreeMap M (MemberEntry P)

namespace PublishedIndex

variable {M P F : Type} [LinearOrder M]

/-- A reader's view of a decoded payload. -/
def fromPayload (payload : VersionPayload M P) : PublishedIndex M P :=
  { identity := payload.index
    version := payload.version
    config := payload.config
    engine := payload.engine
    members := payload.members }

/-- Pairs one ranked identity with its entry's provenance. -/
def hit (index : PublishedIndex M P) (ranked : M × F) : Run (IndexHit M P F) :=
  match index.members[ranked.1]? with
  | none => refuse (corrupt ("version " ++ index.version.display ++ " of index " ++
      index.identity.display ++ " ranked a member its table does not name"))
  | some entry => .ok {
      id := ranked.1
      score := ranked.2
      provenance := entry.provenance
      version := index.version }

def hits (index : PublishedIndex M P) (ranked : List (M × F)) : Run (List (IndexHit M P F)) :=
  ranked.mapM index.hit

/-- The `k` members nearest `vector`, each with its provenance. -/
def queryVector [VectorMath] (index : PublishedIndex M P) (vector : List F32) (k : Nat) :
    Run (List (IndexHit M P F32)) :=
  match index.engine with
  | .vector engine => do index.hits (← engine.query vector k)
  | .fts _ => refuse (.familyMismatch .fts .vector)

/-- The `k` members that best match `text`, each with its provenance. -/
def queryText [ScoreArith F] [Unicode] (index : PublishedIndex M P) (text : Str) (k : Nat) :
    Run (List (IndexHit M P F)) :=
  match index.engine with
  | .fts engine => do index.hits (← ofResult (engine.query text k))
  | .vector _ => refuse (.familyMismatch .vector .fts)

/-- Every ranked identity that the table names becomes a hit. -/
theorem hits_total {index : PublishedIndex M P} {ranked : List (M × F)}
    (h : ∀ entry ∈ ranked, entry.1 ∈ index.members) : ∃ hits, index.hits ranked = .ok hits ∧
      (hits.map fun hit => (hit.id, hit.score)) = ranked ∧
      ∀ hit ∈ hits, hit.version = index.version ∧
        (index.members[hit.id]?).map MemberEntry.provenance = some hit.provenance := by
  induction ranked with
  | nil => exact ⟨[], rfl, rfl, by simp⟩
  | cons entry ranked ih =>
    obtain ⟨found, hfound⟩ := BTreeMap.mem_iff.mp (h entry List.mem_cons_self)
    obtain ⟨hits, hok, hranked, hhits⟩ := ih fun other hmem => h other (List.mem_cons_of_mem _ hmem)
    refine ⟨⟨entry.1, entry.2, found.provenance, index.version⟩ :: hits, ?_,
      congrArg (entry :: ·) hranked, ?_⟩
    · rw [PublishedIndex.hits] at hok ⊢
      simp only [List.mapM_cons, hit, hfound, hok, Outcome.ok_bind, Outcome.pure_eq]
    · intro hit hmem
      rcases List.mem_cons.mp hmem with rfl | hmem
      · exact ⟨rfl, by rw [hfound]; rfl⟩
      · exact hhits hit hmem

end PublishedIndex

/-! ## The texts an index stands for -/

section Texts

variable {M P R : Type} [LinearOrder M]

def MemberContent.text : MemberContent → Option Str
  | document text => some text
  | vector _ => none

/-- Sets a member's text. -/
def setText (texts : BTreeMap M Str) (member : IndexMember M P) : BTreeMap M Str :=
  match member.content.text with
  | some text => texts.insert member.id text
  | none => texts

/-- What a change does to the texts: an insertion sets each, a removal deletes, a
rebuild replaces them all. -/
def IndexChange.texts (texts : BTreeMap M Str) : IndexChange M P R → BTreeMap M Str
  | .create _ => texts
  | .insert members => members.foldl setText texts
  | .remove ids => ids.foldl (·.erase ·) texts
  | .rebuild _ members => members.foldl setText ∅
  | .destroy _ => ∅

theorem getElem?_foldl_setText {members : List (IndexMember M P)}
    (hids : (members.map IndexMember.id).Nodup)
    (hdocuments : ∀ member ∈ members, ∃ text, member.content = .document text)
    (texts : BTreeMap M Str) (id : M) :
    (members.foldl setText texts)[id]? = match members.find? (·.id = id) with
      | some member => member.content.text
      | none => texts[id]? := by
  induction members generalizing texts with
  | nil => rfl
  | cons member members ih =>
    obtain ⟨hnew, hids⟩ := List.nodup_cons.mp hids
    obtain ⟨text, htext⟩ := hdocuments member List.mem_cons_self
    rw [List.foldl_cons, ih hids fun other hmem => hdocuments other (List.mem_cons_of_mem _ hmem),
      List.find?_cons]
    simp only [setText, htext, MemberContent.text, BTreeMap.getElem?_insert_ite]
    by_cases hid : member.id = id
    · have hnone : members.find? (·.id = id) = none := Sorted.find?_key_eq_none.mpr (hid ▸ hnew)
      simp [hid, hnone, htext]
    · simp [hid]

theorem getElem?_foldl_erase {ν : Type} (ids : List M) (held : BTreeMap M ν) (id : M) :
    (ids.foldl (·.erase ·) held)[id]? = if id ∈ ids then none else held[id]? := by
  induction ids generalizing held with
  | nil => simp
  | cons other ids ih =>
    rw [List.foldl_cons, ih, BTreeMap.getElem?_erase_ite]
    by_cases hid : other = id
    · subst hid
      simp
    · simp [hid, Ne.symm hid]

variable [Unicode]

omit [Unicode] in
/-- An identity that a change does not touch is not among its members. -/
theorem IndexChange.find?_untouched {change : IndexChange M P R} {id : M}
    (h : change.effect id = none) : change.members.find? (·.id = id) = none := by
  cases change with
  | insert members => exact Option.map_eq_none_iff.mp h
  | rebuild config members => cases h
  | create config => rfl
  | remove ids => rfl
  | destroy retention => rfl

omit [Unicode] in
theorem IndexChange.find?_written {change : IndexChange M P R} {id : M}
    {member : IndexMember M P} (h : change.effect id = some (some member)) :
    change.members.find? (·.id = id) = some member := by
  cases change with
  | create config => cases h
  | insert members =>
    obtain ⟨found, hfind, heq⟩ := Option.map_eq_some_iff.mp h
    cases heq
    exact hfind
  | remove ids =>
    rw [effect] at h
    split at h <;> cases h
  | rebuild config members => exact Option.some.inj h
  | destroy retention => cases h

/-- What a full-text engine keeps of an identity is the analysis of its text. -/
theorem IndexChange.held_texts {change : IndexChange M P R} (hids : change.ids.Nodup)
    (hdocuments : ∀ member ∈ change.members, ∃ text, member.content = .document text)
    (texts : BTreeMap M Str) (id : M) :
    change.held id (texts[id]?.map fun text => .document (documentTerms text)) =
      (change.texts texts)[id]?.map fun text => .document (documentTerms text) := by
  have hmembers {members : List (IndexMember M P)} (hids : (members.map IndexMember.id).Nodup)
      (hdocuments : ∀ member ∈ members, ∃ text, member.content = .document text)
      (texts : BTreeMap M Str) :
      (match members.find? (·.id = id) with
        | some member => some member.content.held
        | none => texts[id]?.map fun text => HeldContent.document (documentTerms text)) =
      (members.foldl setText texts)[id]?.map fun text => .document (documentTerms text) := by
    rw [getElem?_foldl_setText hids hdocuments]
    cases hfind : members.find? (·.id = id) with
    | none => rfl
    | some member =>
      obtain ⟨text, htext⟩ := hdocuments member (List.mem_of_find?_eq_some hfind)
      simp only [htext]
      rfl
  cases change with
  | create config => rfl
  | insert members =>
    rw [IndexChange.texts, ← hmembers hids hdocuments texts, IndexChange.held, IndexChange.effect]
    cases members.find? (·.id = id) <;> rfl
  | remove ids =>
    rw [IndexChange.texts, getElem?_foldl_erase, IndexChange.held, IndexChange.effect]
    by_cases hid : id ∈ ids <;> simp [hid]
  | rebuild config members =>
    rw [IndexChange.texts, ← hmembers hids hdocuments ∅, IndexChange.held, IndexChange.effect]
    cases members.find? (·.id = id) <;> simp
  | destroy retention => simp [IndexChange.texts, IndexChange.held, IndexChange.effect]

end Texts

section Readers

variable {M P R : Type} [MemberIdentity M] [ProvenanceReference P] [RetentionReference R]
  [SerdeJson] [Unicode] [Sha256]

/-- The texts a history leaves. -/
def texts : List (Publication M P R) → BTreeMap M Str
  | [] => ∅
  | publication :: log => publication.checked.operation.change.texts (texts log)

/-- The last member of a history that was written under an identity. -/
def lastWrite (log : List (Publication M P R)) (id : M) : Option (IndexMember M P) :=
  log.findSome? fun publication =>
    publication.checked.operation.change.members.find? (·.id = id)

variable [VectorMath] {index : IndexIdentity} {log : List (Publication M P R)}
  {publication : Publication M P R}

omit [ProvenanceReference P] [RetentionReference R] [SerdeJson] [Unicode] [Sha256] [VectorMath] in
/-- The members that fit a full-text index are documents. -/
theorem checkMembersFit_documents {config : FtsConfig} {members : List (IndexMember M P)}
    (h : checkMembersFit (.fts config) (sortedMembers members) = .ok ()) :
    ∀ member ∈ members, ∃ text, member.content = .document text := by
  intro member hmem
  have hcontent := checkMembersFit_content h member
    ((Sorted.perm_byKey IndexMember.id members).mem_iff.mpr hmem)
  cases hmember : member.content with
  | document text => exact ⟨text, rfl⟩
  | vector components =>
    rw [hmember] at hcontent
    cases hcontent

/-- A full-text version was built from documents, on a full-text version if on any. -/
theorem Published.documents (history : History index log) (h : Published index log publication)
    {record : IndexRecord R} {payload : VersionPayload M P} {config : FtsConfig}
    (hcurrent : currentVersion (publication :: log) = some (record, payload))
    (hconfig : payload.config = .fts config) :
    (∀ member ∈ publication.checked.operation.change.members,
      ∃ text, member.content = .document text) ∧
    ∀ record payload, currentVersion log = some (record, payload) →
      ∃ config, payload.config = .fts config := by
  have hstart := h.start history
  obtain ⟨checked, next, plan, write⟩ := publication
  have hnext : next.current = some (record, payload) := hcurrent
  have hpublishes : Publishes checked.operation checked.identity (currentVersion log) next :=
    h.publishes
  cases hpublishes with
  | destroy hop hactive => cases hnext
  | @version built hextends =>
    cases hnext
    have hbuilt : built.config = .fts config := hconfig
    have hchanged := hextends.config
    have hchange := checked.change
    rcases hstart with habsent | hactive
    · obtain ⟨rfl, created, hcreate⟩ := habsent
      have hcreate : checked.operation.change = .create created := hcreate
      refine ⟨?_, fun record payload hnone => by cases hnone⟩
      rw [hcreate]
      exact fun member hmem => by cases hmem
    · obtain ⟨record, previous, hprevious, -, hother, hagainst⟩ := hactive
      have hagainst : checkAgainstRecord checked.operation.change previous.config = .ok () := hagainst
      suffices hboth : (∀ member ∈ checked.operation.change.members,
          ∃ text, member.content = .document text) ∧ ∃ config, previous.config = .fts config by
        refine ⟨hboth.1, fun record payload hactive => ?_⟩
        rw [hprevious] at hactive
        cases hactive
        exact hboth.2
      rw [hprevious, hbuilt] at hchanged
      cases hop : checked.operation.change with
      | create created => exact absurd hop (hother created)
      | insert members =>
        rw [hop] at hchanged hagainst
        have hsame : previous.config = .fts config := (Option.some.inj hchanged).symm
        rw [hsame] at hagainst
        exact ⟨checkMembersFit_documents hagainst, config, hsame⟩
      | remove ids =>
        rw [hop] at hchanged
        exact ⟨fun member hmem => (by cases hmem), config, (Option.some.inj hchanged).symm⟩
      | rebuild replacing members =>
        rw [hop] at hchanged hagainst hchange
        cases Option.some.inj hchanged
        refine ⟨checkMembersFit_documents (checkChange_rebuild hchange).2, ?_⟩
        cases hfamily : previous.config with
        | fts config => exact ⟨config, rfl⟩
        | vector config =>
          rw [hfamily] at hagainst
          cases hagainst
      | destroy retention =>
        rw [hop] at hchanged
        exact ⟨fun member hmem => (by cases hmem), config, (Option.some.inj hchanged).symm⟩

/-- The engine of a full-text version keeps the analysis of the texts. -/
theorem History.held_texts (h : History index log)
    (hconfig : ∀ record payload, currentVersion log = some (record, payload) →
      ∃ config, payload.config = .fts config) (id : M) :
    (currentVersion log).held id =
      (texts log)[id]?.map fun text => .document (documentTerms text) := by
  induction log with
  | nil => simp [currentVersion, Current.held, texts]
  | cons publication log ih =>
    obtain ⟨history, hpublished⟩ := h.published
    cases hcurrent : currentVersion (publication :: log) with
    | some active =>
      obtain ⟨record, payload⟩ := active
      obtain ⟨config, hfts⟩ := hconfig record payload hcurrent
      obtain ⟨hdocuments, hprevious⟩ := hpublished.documents history hcurrent hfts
      rw [← hcurrent, h.audited.held, ih history hprevious, texts]
      exact IndexChange.held_texts (checkChange_nodup publication.checked.change) hdocuments _ id
    | none =>
      obtain ⟨checked, next, plan, write⟩ := publication
      have hnext : next.current = none := hcurrent
      have hpublishes : Publishes checked.operation checked.identity (currentVersion log) next :=
        hpublished.publishes
      cases hpublishes with
      | version hextends => cases hnext
      | destroy hop hactive =>
        have hop : checked.operation.change = .destroy _ := hop
        simp [texts, hop, IndexChange.texts, Current.held]

/-- The entry of a member is the one its last write got. -/
theorem History.lastWrite (h : History index log) {id : M} {entry : MemberEntry P}
    (hentry : (memberTable log)[id]? = some entry) :
    (lastWrite log id).map IndexMember.provenance = some entry.provenance := by
  obtain ⟨later, writer, earlier, horigin⟩ := h.origin hentry
  obtain ⟨member, heffect, hprovenance, -⟩ := horigin.wrote
  have huntouched := horigin.untouched
  have hsplit := horigin.split
  subst hsplit
  have hlater : later.findSome? (fun publication =>
      publication.checked.operation.change.members.find? (·.id = id)) = none :=
    List.findSome?_eq_none_iff.mpr fun publication hmem =>
      IndexChange.find?_untouched (huntouched publication hmem)
  rw [Heurema.lastWrite, List.findSome?_append, hlater, Option.none_or, List.findSome?_cons,
    IndexChange.find?_written heffect]
  exact congrArg some hprovenance

/-- The engine of a full-text version stands for the texts. -/
theorem History.represents (h : History index log) {record : IndexRecord R}
    {payload : VersionPayload M P} {engine : Bm25Index M}
    (hcurrent : currentVersion log = some (record, payload)) (hengine : payload.engine = .fts engine) :
    payload.config = .fts engine.config ∧ engine.Sound ∧ engine.Represents (texts log) := by
  have hsound := h.readable.standing.sound record payload hcurrent
  have hbuilt := VersionEngine.isBuiltUnder_iff.mp hsound.built
  have hengineSound : engine.Sound := by
    have := hsound.engine
    rwa [hengine] at this
  have hconfig : payload.config = .fts engine.config := by
    rw [← hbuilt, hengine]
    rfl
  refine ⟨hconfig, hengineSound, hengineSound.toConsistent, fun id => ?_⟩
  have hheld := h.held_texts (fun record' payload' hactive => by
    rw [hcurrent] at hactive
    cases hactive
    exact ⟨_, hconfig⟩) id
  rw [hcurrent] at hheld
  have hdocument : (engine.documents[id]?.map HeldContent.document) =
      ((texts log)[id]?.map documentTerms).map HeldContent.document := by
    rw [Option.map_map]
    refine Eq.trans ?_ hheld
    show _ = payload.engine.held id
    rw [hengine]
    rfl
  exact Option.map_injective (fun _ _ heq => HeldContent.document.inj heq) hdocument

/-- A full-text version counts the tokens of the texts. -/
theorem History.tokens (h : History index log) {record : IndexRecord R}
    {payload : VersionPayload M P} {config : FtsConfig}
    (hcurrent : currentVersion log = some (record, payload)) (hconfig : payload.config = .fts config) :
    payload.engine.tokens = Bm25Index.tokenTotal (texts log) := by
  cases hengine : payload.engine with
  | vector engine =>
    have hsound := h.readable.standing.sound record payload hcurrent
    have hbuilt := VersionEngine.isBuiltUnder_iff.mp hsound.built
    rw [hconfig, hengine] at hbuilt
    cases hbuilt
  | fts engine => exact (h.represents hcurrent hengine).2.2.total

/-- A published full-text version answers as if built from scratch: with the ranking and
the scores of a fresh index of the texts that the operations up to it leave, each hit
with its version and the provenance of the last operation that wrote the member. -/
theorem text_from_scratch {F : Type} [ScoreArith F] (h : History index log)
    (upTo : List (Publication M P R)) (hupTo : upTo <:+ log) (head : Option (IndexRecord R))
    (record : IndexRecord R) (payload : VersionPayload M P)
    (hread : readCurrent index (headBytes upTo) (payloadBytes upTo) =
      .ok (head, some (record, payload)))
    (config : FtsConfig) (hconfig : payload.config = .fts config) (entries : List (M × Str))
    (hentries : entries.Perm (texts upTo).toList) (text : Str) (k : Nat) :
    ∃ (fresh : Bm25Index M) (ranked : List (M × F)) (hits : List (IndexHit M P F)),
      (Bm25Index.new config).replay (entries.map Bm25Index.insertion) = .ok fresh ∧
      fresh.query text k = .ok ranked ∧
      (PublishedIndex.fromPayload payload).queryText text k = .ok hits ∧
      (hits.map fun hit => (hit.id, hit.score)) = ranked ∧
      ∀ hit ∈ hits, hit.version = payload.version ∧
        (lastWrite upTo hit.id).map IndexMember.provenance = some hit.provenance := by
  obtain ⟨_, rfl⟩ := hupTo
  have history := h.suffix
  have hcurrent := history.current_of_read hread
  have hsound := history.readable.standing.sound record payload hcurrent
  cases hengine : payload.engine with
  | vector engine =>
    have hbuilt := VersionEngine.isBuiltUnder_iff.mp hsound.built
    rw [hconfig, hengine] at hbuilt
    cases hbuilt
  | fts engine =>
    obtain ⟨hsame, hengineSound, hrepresents⟩ := history.represents hcurrent hengine
    rw [hconfig] at hsame
    cases hsame
    have hpipeline : engine.config.requireSimplePipeline = .ok () := by
      have hvalid := hsound.config
      rw [hconfig] at hvalid
      exact hvalid
    have hfits : Bm25Index.tokenTotal (texts upTo) < usizeLimit :=
      hrepresents.total ▸ hengineSound.fits
    -- The fresh index stands for the same texts, so it is the version's engine.
    obtain ⟨fresh, hreplay, hfreshConfig, hfresh⟩ := (Bm25Index.Represents.new engine.config).replay
      hpipeline (Bm25Index.fits_insertions hentries hfits)
    rw [Bm25Index.foldl_insertion_perm hentries] at hfresh
    cases hfresh.unique hrepresents hfreshConfig
    obtain ⟨ranked, hquery, hindexed⟩ := engine.query_ranks (F := F) hpipeline text k
    have hmembers : ∀ entry ∈ ranked, entry.1 ∈ payload.members := by
      intro entry hmem
      have hheld := VersionEngine.holdsExactly_iff.mp hsound.members entry.1
      rw [hengine, VersionEngine.held, Option.isSome_map] at hheld
      rw [Std.ExtTreeMap.mem_iff_isSome_getElem?, ← hheld]
      exact Std.ExtTreeMap.mem_iff_isSome_getElem?.mp (hindexed entry hmem)
    let published := PublishedIndex.fromPayload payload
    obtain ⟨hits, hhits, hpaired, hprovenance⟩ : ∃ hits, published.hits ranked = .ok hits ∧ _ :=
      PublishedIndex.hits_total hmembers
    refine ⟨engine, ranked, hits, hreplay, hquery, ?_, hpaired, fun hit hmem => ?_⟩
    · have hpublished : published.engine = .fts engine := hengine
      rw [PublishedIndex.queryText, hpublished]
      simp only [hquery, Outcome.ofResult_ok, Outcome.ok_bind]
      exact hhits
    · obtain ⟨hversion, hentry⟩ := hprovenance hit hmem
      obtain ⟨entry, hentry, hsame⟩ := Option.map_eq_some_iff.mp hentry
      refine ⟨hversion, ?_⟩
      rw [← hsame]
      refine history.lastWrite ?_
      rw [memberTable, hcurrent]
      exact hentry

end Readers

section Witness

attribute [local instance] Consumer.identity Consumer.reference SerdeJson.compact Unicode.ascii
  Consumer.sha256 Line.math

theorem text_from_scratch_removal : ∃ (log : List (Publication Str Str Str))
    (payload : VersionPayload Str Str) (fresh : Bm25Index Str) (ranked : List (Str × Int))
    (hits : List (IndexHit Str Str Int)),
    (log.map fun publication => publication.checked.operation) =
      [Consumer.removed, Consumer.inserted, Consumer.created] ∧
    (Bm25Index.new .simple).replay ((texts log).toList.map Bm25Index.insertion) = .ok fresh ∧
    @Bm25Index.query _ _ _ Bm25Index.exactScores _ fresh "fish".toList 5 = .ok ranked ∧
    @PublishedIndex.queryText _ _ _ _ Bm25Index.exactScores _ (.fromPayload payload)
      "fish".toList 5 = .ok hits ∧
    (hits.map fun hit => (hit.id, hit.score)) = ranked := by
  obtain ⟨log, record, payload, history, hoperations, hcurrent, hconfig⟩ := Consumer.history
  have hread := history.readable.read
  rw [hcurrent] at hread
  let _ := Bm25Index.exactScores
  obtain ⟨fresh, ranked, hits, hfresh, hranked, hhits, hpaired, -⟩ :=
    text_from_scratch (F := Int) history log (List.suffix_refl log) _ _ _ hread .simple hconfig _
      (List.Perm.refl _) "fish".toList 5
  exact ⟨log, payload, fresh, ranked, hits, hoperations, hfresh, hranked, hhits, hpaired⟩

end Witness

end Heurema
