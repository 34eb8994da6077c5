import Heurema.Fts.History
import Heurema.Lifecycle.Scalars

/-! # The snapshot of a BM25 index

The decoder builds the postings again from the documents and compares them with
those stored. It accepts what every mutation leaves behind. -/

namespace Heurema

open Serde

/-- The fields of a snapshot before they are checked against each other. -/
structure RawBm25Index (Id : Type) [LinearOrder Id] where
  config : FtsConfig
  documents : BTreeMap Id DocumentTerms
  postings : BTreeMap Str (BTreeMap Id Nat)
  totalDocumentTerms : Nat

/-- What the analysis of a text has: positive counts of non-empty terms, and
their sum. -/
structure DocumentTerms.Counted (document : DocumentTerms) : Prop where
  terms : ∀ (term : Str) (count : Nat), document.counts[term]? = some count → term ≠ [] ∧ 0 < count
  length : document.length = BTreeMap.sumBy (fun count => count) document.counts

namespace Bm25Index

variable {Id : Type} [LinearOrder Id]

def toRaw (index : Bm25Index Id) : RawBm25Index Id := { index with }

/-- `checked_add`. -/
def checkedAdd (a b : Nat) (reason : String) : Outcome String Nat :=
  if a + b < usizeLimit then .ok (a + b) else Outcome.refuse reason

/-- Adds one term of a document to its length and to the postings expected. -/
def countTerm (id : Id) (state : Nat × BTreeMap Str (BTreeMap Id Nat)) (entry : Str × Nat) :
    Outcome String (Nat × BTreeMap Str (BTreeMap Id Nat)) := do
  if entry.1.isEmpty ∨ entry.2 = 0 then
    Outcome.refuse "BM25 snapshot has an empty term or zero term frequency"
  else
    let length ← checkedAdd state.1 entry.2 "BM25 document length overflow"
    return (length, insertPosting id state.2 entry)

/-- Adds one document to the corpus length and to the postings expected. -/
def countDocument (state : Nat × BTreeMap Str (BTreeMap Id Nat)) (entry : Id × DocumentTerms) :
    Outcome String (Nat × BTreeMap Str (BTreeMap Id Nat)) := do
  let counted ← entry.2.counts.toList.foldlM (countTerm entry.1) (0, state.2)
  if counted.1 ≠ entry.2.length then
    Outcome.refuse "BM25 document length disagrees with its term counts"
  else
    let total ← checkedAdd state.1 counted.1 "BM25 corpus length overflow"
    return (total, counted.2)

/-- The postings agree with those expected, term by term and count by count. -/
def agrees (postings expected : BTreeMap Str (BTreeMap Id Nat)) : Bool :=
  postings.size = expected.size ∧ expected.toList.all fun entry =>
    match postings[entry.1]? with
    | none => false
    | some actual => actual.size = entry.2.size ∧
      entry.2.toList.all fun posting => actual[posting.1]? = some posting.2

/-- `TryFrom<RawBm25Index>`. -/
def tryFrom (raw : RawBm25Index Id) : Outcome String (Bm25Index Id) := do
  let counted ← raw.documents.toList.foldlM countDocument (0, ∅)
  if counted.1 ≠ raw.totalDocumentTerms then
    Outcome.refuse "BM25 corpus length disagrees with its documents"
  else if ¬ agrees raw.postings counted.2 then
    Outcome.refuse "BM25 postings disagree with document term counts"
  else
    let index : Bm25Index Id := { raw with totalDocumentTerms := counted.1 }
    if ¬ index.documents.isEmpty ∧ ¬ index.simplePipeline.isOk then
      Outcome.refuse "BM25 populated snapshot uses an unsupported analyzer"
    else return index

/-! ## What the decoder accepts -/

/-- An index whose snapshot the decoder accepts. -/
structure Sound (index : Bm25Index Id) : Prop extends Consistent index where
  documents : ∀ (id : Id) (document : DocumentTerms), index.documents[id]? = some document →
    document.Counted
  fits : index.totalDocumentTerms < usizeLimit
  pipeline : index.documents = ∅ ∨ index.simplePipeline = .ok ()

theorem foldlM_countTerm (id : Id) {entries : List (Str × Nat)}
    (hterms : ∀ entry ∈ entries, entry.1 ≠ [] ∧ 0 < entry.2) (length : Nat)
    (hfits : length + (entries.map Prod.snd).sum < usizeLimit)
    (postings : BTreeMap Str (BTreeMap Id Nat)) :
    entries.foldlM (countTerm id) (length, postings) =
      .ok (length + (entries.map Prod.snd).sum, entries.foldl (insertPosting id) postings) := by
  induction entries generalizing length postings with
  | nil => simp
  | cons entry entries ih =>
    obtain ⟨⟨hterm, hcount⟩, hterms⟩ := List.forall_mem_cons.mp hterms
    simp only [List.map_cons, List.sum_cons] at hfits ⊢
    have hstep : countTerm id (length, postings) entry =
        .ok (length + entry.2, insertPosting id postings entry) := by
      have hadd : length + entry.2 < usizeLimit := by omega
      simp [countTerm, hterm, hcount.ne', checkedAdd, hadd]
    rw [List.foldlM_cons, hstep, Outcome.ok_bind, ih hterms _ (by omega), List.foldl_cons,
      Nat.add_assoc]

/-- The postings of a list of documents. -/
def transposed (documents : List (Id × DocumentTerms)) (postings : BTreeMap Str (BTreeMap Id Nat)) :
    BTreeMap Str (BTreeMap Id Nat) :=
  documents.foldl (fun postings entry =>
    entry.2.counts.toList.foldl (insertPosting entry.1) postings) postings

theorem foldlM_countDocument {documents : List (Id × DocumentTerms)}
    (hdocuments : ∀ entry ∈ documents, entry.2.Counted) (total : Nat)
    (hfits : total + (documents.map fun entry => entry.2.length).sum < usizeLimit)
    (postings : BTreeMap Str (BTreeMap Id Nat)) :
    documents.foldlM countDocument (total, postings) =
      .ok (total + (documents.map fun entry => entry.2.length).sum,
        transposed documents postings) := by
  induction documents generalizing total postings with
  | nil => simp [transposed]
  | cons entry documents ih =>
    obtain ⟨hentry, hdocuments⟩ := List.forall_mem_cons.mp hdocuments
    simp only [List.map_cons, List.sum_cons] at hfits ⊢
    have hlength : (entry.2.counts.toList.map Prod.snd).sum = entry.2.length := hentry.length.symm
    have hterms := foldlM_countTerm entry.1
      (fun entry' hmem => hentry.terms entry'.1 entry'.2 (BTreeMap.mem_toList.mp hmem)) 0 (by omega)
      postings
    have hstep : countDocument (total, postings) entry =
        .ok (total + entry.2.length, entry.2.counts.toList.foldl (insertPosting entry.1) postings) := by
      have hadd : total + entry.2.length < usizeLimit := by omega
      simp [countDocument, hterms, hlength, checkedAdd, hadd]
    rw [List.foldlM_cons, hstep, Outcome.ok_bind, ih hdocuments _ (by omega), Nat.add_assoc]
    rfl

theorem transposed_spec {documents : List (Id × DocumentTerms)}
    (hids : (documents.map Prod.fst).Nodup) (postings : BTreeMap Str (BTreeMap Id Nat))
    (hne : NoEmpty postings) (hnew : ∀ id ∈ documents.map Prod.fst, ∀ t, posted postings t id = none) :
    NoEmpty (transposed documents postings) ∧
    (∀ entry ∈ documents, ∀ t, posted (transposed documents postings) t entry.1 =
      entry.2.counts[t]?) ∧
    ∀ id ∉ documents.map Prod.fst, ∀ t, posted (transposed documents postings) t id =
      posted postings t id := by
  induction documents generalizing postings with
  | nil => exact ⟨hne, by simp, fun _ _ _ => rfl⟩
  | cons entry documents ih =>
    obtain ⟨hfresh, hids⟩ := List.nodup_cons.mp hids
    obtain ⟨hnewEntry, hnew⟩ := List.forall_mem_cons.mp hnew
    obtain ⟨hne', hin, hout⟩ := foldl_insertPosting entry.1 entry.2.counts.toList
      (BTreeMap.toList_keys_nodup _) hne
    obtain ⟨hne'', hlater, hothers⟩ := ih hids _ hne' fun id hid t => by
      rw [hout t id (.inl fun heq => hfresh (heq ▸ hid)), hnew id hid t]
    refine ⟨hne'', List.forall_mem_cons.mpr ⟨fun t => ?_, hlater⟩, fun id hid t => ?_⟩
    · refine (hothers entry.1 hfresh t).trans ?_
      cases ht : entry.2.counts[t]? with
      | some count => exact hin t count (BTreeMap.mem_toList.mpr ht)
      | none =>
        have hkey : t ∉ entry.2.counts.toList.map Prod.fst := by
          simp [Std.ExtTreeMap.map_fst_toList_eq_keys, Std.ExtTreeMap.mem_iff_isSome_getElem?, ht]
        rw [hout t entry.1 (.inr hkey), hnewEntry t]
    · rw [List.map_cons, List.mem_cons, not_or] at hid
      exact (hothers id hid.2 t).trans (hout t id (.inl (Ne.symm hid.1)))

/-- The postings built from a map of documents are its transpose. -/
theorem transposed_toList (documents : BTreeMap Id DocumentTerms) :
    NoEmpty (transposed documents.toList ∅) ∧ ∀ t id, posted (transposed documents.toList ∅) t id =
      documents[id]?.bind fun document => document.counts[t]? := by
  obtain ⟨hne, hin, hout⟩ := transposed_spec (BTreeMap.toList_keys_nodup documents)
    (∅ : BTreeMap Str (BTreeMap Id Nat)) (fun h => by simp at h) (by simp [posted])
  refine ⟨hne, fun t id => ?_⟩
  cases hid : documents[id]? with
  | some document => exact hin (id, document) (BTreeMap.mem_toList.mpr hid) t
  | none =>
    rw [hout id (by simp [Std.ExtTreeMap.map_fst_toList_eq_keys, BTreeMap.not_mem_iff, hid]) t]
    simp [posted]

theorem Consistent.transposed_eq {index : Bm25Index Id} (h : Consistent index) :
    transposed index.documents.toList ∅ = index.postings := by
  obtain ⟨hne, hposted⟩ := transposed_toList index.documents
  exact posted_ext hne h.noEmpty fun t id => by rw [h.transpose, hposted]

theorem agrees_self (postings : BTreeMap Str (BTreeMap Id Nat)) :
    agrees postings postings = true := by
  simp only [agrees, decide_eq_true_eq, true_and, List.all_eq_true]
  intro entry hentry
  rw [BTreeMap.mem_toList.mp hentry]
  simp only [decide_eq_true_eq, true_and]
  exact fun posting hposting => BTreeMap.mem_toList.mp hposting

/-- The decoder gives back an index it should accept. -/
theorem tryFrom_toRaw {index : Bm25Index Id} (h : Sound index) : tryFrom index.toRaw = .ok index := by
  have hsum : (index.documents.toList.map fun entry => entry.2.length).sum =
      index.totalDocumentTerms := h.total.symm
  have hcounted := foldlM_countDocument
    (fun entry hentry => h.documents entry.1 entry.2 (BTreeMap.mem_toList.mp hentry)) 0
    (by simpa [hsum] using h.fits) ∅
  rw [h.toConsistent.transposed_eq, hsum, Nat.zero_add] at hcounted
  have hpipeline : ¬ (¬ index.documents.isEmpty ∧ ¬ index.simplePipeline.isOk) := by
    rcases h.pipeline with hempty | hok
    · simp [hempty]
    · simp [hok, Except.isOk, Except.toBool]
  simp only [tryFrom, toRaw, hcounted, Outcome.ok_bind, ne_eq, not_true, if_false, agrees_self,
    Outcome.pure_eq]
  exact if_neg hpipeline

/-! ## The operations keep an index sound -/

theorem Sound.new (config : FtsConfig) : Sound (Bm25Index.new config : Bm25Index Id) where
  toConsistent := .new config
  documents _ _ h := by simp [Bm25Index.new] at h
  fits := by simp [Bm25Index.new, usizeLimit, UInt64.size]
  pipeline := .inl rfl

theorem Sound.removeDocument {index : Bm25Index Id} (h : Sound index) (id : Id) :
    Sound (index.removeDocument id) := by
  have hcons := h.toConsistent.removeDocument id
  have hdocuments := removeDocument_documents index id
  refine ⟨hcons, fun j document hj => ?_, ?_, ?_⟩
  · rw [hdocuments, BTreeMap.getElem?_erase_ite] at hj
    split at hj
    · cases hj
    · exact h.documents j document hj
  · rw [hcons.total, hdocuments]
    refine lt_of_le_of_lt (BTreeMap.sumBy_le _ fun k v hk => ?_) (h.total ▸ h.fits)
    rw [BTreeMap.getElem?_erase_ite] at hk
    split at hk
    · cases hk
    · exact hk
  · refine h.pipeline.imp (fun hempty => ?_) fun hok => ?_
    · rw [hdocuments, hempty]
      exact BTreeMap.erase_absent (by simp)
    · rwa [simplePipeline, removeDocument_config]

end Bm25Index

theorem DocumentTerms.Counted.count {terms : DocumentTerms} (h : terms.Counted) {token : Str}
    (htoken : token ≠ []) : (terms.count token).Counted := by
  have hcounts : (terms.count token).counts =
      terms.counts.insert token (terms.counts[token]?.getD 0 + 1) :=
    BTreeMap.ext_lookup fun k => by
      simp only [DocumentTerms.count, BTreeMap.getElem?_alter_ite, BTreeMap.getElem?_insert_ite]
  refine ⟨fun term n hn => ?_, ?_⟩
  · rw [hcounts, BTreeMap.getElem?_insert_ite] at hn
    split at hn
    · next heq =>
      cases hn
      exact ⟨heq ▸ htoken, Nat.succ_pos _⟩
    · exact h.terms term n hn
  · rw [hcounts]
    show terms.length + 1 = _
    rw [h.length, ← BTreeMap.insert_erase, BTreeMap.sumBy_insert_new _ _ (by simp)]
    cases hold : terms.counts[token]? with
    | none => rw [BTreeMap.erase_absent hold]; rfl
    | some n => rw [BTreeMap.sumBy_erase _ hold, Option.getD_some, Nat.add_assoc]

theorem documentTerms_counted [Unicode] (document : Str) : (documentTerms document).Counted := by
  have htokens : ∀ token ∈ tokenize document, token ≠ [] := by
    intro token htoken
    obtain ⟨raw, hraw, rfl⟩ := List.mem_map.mp htoken
    exact Unicode.toLowercase_ne_nil raw (by simpa using (List.mem_filter.mp hraw).2)
  have hfold (tokens : List Str) : ∀ terms : DocumentTerms, terms.Counted →
      (∀ token ∈ tokens, token ≠ []) → (tokens.foldl DocumentTerms.count terms).Counted := by
    induction tokens with
    | nil => exact fun _ h _ => h
    | cons token tokens ih =>
      intro terms h htokens
      obtain ⟨htoken, htokens⟩ := List.forall_mem_cons.mp htokens
      exact ih _ (h.count htoken) htokens
  exact hfold _ _ ⟨fun _ _ h => by simp at h, by simp⟩ htokens

namespace Bm25Index

variable {Id : Type} [LinearOrder Id]

/-- What an insertion that returns leaves behind. -/
theorem insert_sound [Unicode] {index index' : Bm25Index Id} {id : Id} {document : Str}
    (h : Sound index) (hok : index.insert id document = .ok index') : Sound index' ∧
      index'.config = index.config ∧
      index'.documents = index.documents.insert id (documentTerms document) := by
  have hremoved := h.removeDocument id
  have hconfig := removeDocument_config index id
  have hdocuments := removeDocument_documents index id
  have habsent : (index.removeDocument id).documents[id]? = none := by simp [hdocuments]
  unfold insert at hok
  cases hpipeline : index.simplePipeline with
  | error e => simp [hpipeline, Outcome.refuse] at hok
  | ok =>
    rw [hpipeline, Outcome.ofResult_ok, Outcome.ok_bind] at hok
    by_cases hfits : (index.removeDocument id).totalDocumentTerms +
        (documentTerms document).length < usizeLimit
    · obtain ⟨next, hnext, hnextConfig, hnextDocuments, hcons⟩ :=
        hremoved.toConsistent.insertDocument habsent _ hfits
      rw [hnext] at hok
      cases hok
      have heq := insertDocument_eq _ id hfits
      rw [hnext] at heq
      refine ⟨⟨hcons, fun j stored hj => ?_, ?_, .inr ?_⟩, hnextConfig.trans hconfig, ?_⟩
      · rw [hnextDocuments, BTreeMap.getElem?_insert_ite] at hj
        split at hj
        · cases hj
          exact documentTerms_counted document
        · exact hremoved.documents j stored hj
      · have htotal := congrArg Bm25Index.totalDocumentTerms (Except.ok.inj heq)
        exact htotal ▸ hfits
      · rwa [simplePipeline, hnextConfig, hconfig]
      · rw [hnextDocuments, hdocuments, BTreeMap.insert_erase]
    · rw [insertDocument, usizeAdd, if_neg hfits] at hok
      cases hok

theorem remove_sound {index index' : Bm25Index Id} {id : Id} (h : Sound index)
    (hok : index.remove id = .ok index') : Sound index' ∧ index'.config = index.config ∧
      index'.documents = index.documents.erase id := by
  unfold remove at hok
  cases hpipeline : index.simplePipeline with
  | error e => simp [hpipeline, Outcome.refuse] at hok
  | ok =>
    rw [hpipeline, Outcome.ofResult_ok, Outcome.ok_bind] at hok
    cases hok
    exact ⟨h.removeDocument id, removeDocument_config index id, removeDocument_documents index id⟩

end Bm25Index

/-! ## Encoding -/

namespace DocumentTerms

def FIELDS : List Str := ["counts".toList, "length".toList]

instance : Codec DocumentTerms where
  serialize document :=
    record "DocumentTerms".toList FIELDS [serialize document.counts, serialize document.length]
  deserialize := readRecord FIELDS fun found => do
    return { counts := ← requiredField found 0, length := ← requiredField found 1 }

variable [SerdeJson]

theorem stores {document : DocumentTerms} (h : document.Counted)
    (hfits : document.length < UInt64.size) : Stores 2 document := by
  obtain ⟨counts, hcounts⟩ : Stores (0 + 1) document.counts :=
    .map (fun term _ => .str term) fun term count hcount =>
      .usize (lt_of_le_of_lt (h.length ▸ BTreeMap.le_sumBy (fun count => count) hcount) hfits)
  obtain ⟨length, hlength⟩ := Stores.usize hfits
  exact .record rfl rfl (.cons hcounts (.cons hlength .nil)) rfl (by decide) (by decide)
    (by simp [requiredField, hcounts.read, hlength.read])

end DocumentTerms

namespace Bm25Index

variable {Id : Type} [LinearOrder Id] [KeyCodec Id]

def FIELDS : List Str :=
  ["config".toList, "documents".toList, "postings".toList, "total_document_terms".toList]

/-- The fields of a snapshot, before they are checked. -/
def readRaw (found : List (Option Json)) : Outcome String (RawBm25Index Id) := do
  return {
    config := ← requiredField found 0
    documents := ← requiredField found 1
    postings := ← requiredField found 2
    totalDocumentTerms := ← requiredField found 3 }

instance : Codec (Bm25Index Id) where
  serialize index := record "Bm25Index".toList FIELDS [serialize index.config,
    serialize index.documents, serialize index.postings, serialize index.totalDocumentTerms]
  deserialize := readRecord FIELDS fun found => do
    tryFrom (← readRaw found)

variable [SerdeJson]

/-- A sound index stores when its ids serve as keys. -/
theorem stores {index : Bm25Index Id} (h : Sound index)
    (hids : ∀ id ∈ index.documents, StoresKey id) : Stores 5 index := by
  have hlength {id : Id} {document : DocumentTerms} (hid : index.documents[id]? = some document) :
      document.length < UInt64.size :=
    lt_of_le_of_lt (h.total ▸ BTreeMap.le_sumBy DocumentTerms.length hid) h.fits
  obtain ⟨config, hconfig⟩ := index.config.stores
  obtain ⟨documents, hdocuments⟩ : Stores (2 + 1) index.documents :=
    .map hids fun id document hid => DocumentTerms.stores (h.documents id document hid) (hlength hid)
  obtain ⟨postings, hpostings⟩ : Stores (1 + 1) index.postings := by
    refine .map (fun term _ => .str term) fun term posting hterm => ?_
    -- A posting's ids are documents, and its counts are theirs.
    have hposted {id : Id} {count : Nat} (hid : posting[id]? = some count) :
        ∃ document, index.documents[id]? = some document ∧
          document.counts[term]? = some count := by
      have htranspose := h.transpose term id
      rw [posted, hterm, Option.bind_some, hid] at htranspose
      exact Option.bind_eq_some_iff.mp htranspose.symm
    refine .map (fun id hid => ?_) fun id count hid => ?_
    · obtain ⟨count, hcount⟩ := BTreeMap.mem_iff.mp hid
      obtain ⟨document, hdocument, -⟩ := hposted hcount
      exact hids id (BTreeMap.mem_iff.mpr ⟨document, hdocument⟩)
    · obtain ⟨document, hdocument, hcount⟩ := hposted hid
      have hle := BTreeMap.le_sumBy (fun count => count) hcount
      rw [← (h.documents id document hdocument).length] at hle
      exact .usize (lt_of_le_of_lt hle (hlength hdocument))
  obtain ⟨total, htotal⟩ := Stores.usize h.fits
  have hitems : Items 4 _ _ :=
    .cons hconfig (.cons hdocuments (.cons hpostings (.cons htotal .nil)))
  refine .record rfl rfl hitems rfl (by decide) (by decide) ?_
  have hraw : readRaw ([config, documents, postings, total].map some) = .ok index.toRaw := by
    simp [readRaw, requiredField, hconfig.read, hdocuments.read, hpostings.read, htotal.read, toRaw]
  rw [hraw, Outcome.ok_bind, tryFrom_toRaw h]

end Bm25Index

end Heurema
