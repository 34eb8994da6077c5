import Heurema.Fts.Snapshot

/-! # What the BM25 snapshot decoder accepts

The decoder accepts exactly the sound indexes, and every operation whose sums
fit a `usize` leaves one behind. -/

namespace Heurema.Bm25Index

variable {Id : Type} [LinearOrder Id]

theorem checkedAdd_eq_ok {a b sum : Nat} {reason : String} :
    checkedAdd a b reason = .ok sum ↔ a + b < usizeLimit ∧ sum = a + b := by
  unfold checkedAdd
  split
  · next h => simp [h, eq_comm]
  · next h => simp [h, Outcome.refuse]

/-! ## The converse of the checks -/

theorem countTerm_eq_ok {id : Id} {state state' : Nat × BTreeMap Str (BTreeMap Id Nat)}
    {entry : Str × Nat} : countTerm id state entry = .ok state' ↔
      (entry.1 ≠ [] ∧ 0 < entry.2) ∧ state.1 + entry.2 < usizeLimit ∧
        state' = (state.1 + entry.2, insertPosting id state.2 entry) := by
  have hrefused : (entry.1.isEmpty ∨ entry.2 = 0) ↔ ¬ (entry.1 ≠ [] ∧ 0 < entry.2) := by
    rw [List.isEmpty_iff]
    grind
  unfold countTerm
  by_cases hgood : entry.1 ≠ [] ∧ 0 < entry.2
  · rw [if_neg (by rwa [hrefused, not_not])]
    simp only [Outcome.bind_eq_ok, checkedAdd_eq_ok, Outcome.pure_eq, Except.ok.injEq]
    constructor
    · rintro ⟨length, ⟨hfits, rfl⟩, rfl⟩
      exact ⟨hgood, hfits, rfl⟩
    · rintro ⟨-, hfits, rfl⟩
      exact ⟨_, ⟨hfits, rfl⟩, rfl⟩
  · rw [if_pos (hrefused.mpr hgood)]
    simp [Outcome.refuse, hgood]

theorem foldlM_countTerm_ok {id : Id} {entries : List (Str × Nat)}
    {state state' : Nat × BTreeMap Str (BTreeMap Id Nat)}
    (h : entries.foldlM (countTerm id) state = .ok state') :
    (∀ entry ∈ entries, entry.1 ≠ [] ∧ 0 < entry.2) ∧
      state' = (state.1 + (entries.map Prod.snd).sum, entries.foldl (insertPosting id) state.2) := by
  induction entries generalizing state with
  | nil =>
    cases h
    simp
  | cons entry entries ih =>
    rw [List.foldlM_cons] at h
    obtain ⟨next, hnext, hrest⟩ := Outcome.bind_eq_ok.mp h
    obtain ⟨hentry, -, rfl⟩ := countTerm_eq_ok.mp hnext
    obtain ⟨hentries, rfl⟩ := ih hrest
    refine ⟨List.forall_mem_cons.mpr ⟨hentry, hentries⟩, ?_⟩
    simp only [List.map_cons, List.sum_cons, List.foldl_cons, Nat.add_assoc]

theorem countDocument_ok {state state' : Nat × BTreeMap Str (BTreeMap Id Nat)}
    {entry : Id × DocumentTerms} (h : countDocument state entry = .ok state') :
    entry.2.Counted ∧ state.1 + entry.2.length < usizeLimit ∧
      state' = (state.1 + entry.2.length,
        entry.2.counts.toList.foldl (insertPosting entry.1) state.2) := by
  obtain ⟨counted, hcounted, h⟩ := Outcome.bind_eq_ok.mp h
  obtain ⟨hterms, rfl⟩ := foldlM_countTerm_ok hcounted
  have hsum : (entry.2.counts.toList.map Prod.snd).sum =
      BTreeMap.sumBy (fun count => count) entry.2.counts := rfl
  rw [Nat.zero_add, hsum] at h
  split at h
  · cases h
  · next heq =>
    obtain ⟨total, htotal, h⟩ := Outcome.bind_eq_ok.mp h
    obtain ⟨hfits, rfl⟩ := checkedAdd_eq_ok.mp htotal
    cases h
    rw [ne_eq, not_not] at heq
    dsimp only at heq hfits ⊢
    refine ⟨⟨fun term count hcount => ?_, heq.symm⟩, heq ▸ hfits, by rw [heq]⟩
    exact hterms (term, count) (BTreeMap.mem_toList.mpr hcount)

theorem foldlM_countDocument_ok {documents : List (Id × DocumentTerms)}
    {state state' : Nat × BTreeMap Str (BTreeMap Id Nat)} (hfits : state.1 < usizeLimit)
    (h : documents.foldlM countDocument state = .ok state') :
    (∀ entry ∈ documents, entry.2.Counted) ∧ state'.1 < usizeLimit ∧
      state' = (state.1 + (documents.map fun entry => entry.2.length).sum,
        transposed documents state.2) := by
  induction documents generalizing state with
  | nil =>
    cases h
    simpa [transposed] using hfits
  | cons entry documents ih =>
    rw [List.foldlM_cons] at h
    obtain ⟨next, hnext, hrest⟩ := Outcome.bind_eq_ok.mp h
    obtain ⟨hentry, hnextFits, rfl⟩ := countDocument_ok hnext
    obtain ⟨hdocuments, htotal, rfl⟩ := ih hnextFits hrest
    refine ⟨List.forall_mem_cons.mpr ⟨hentry, hdocuments⟩, htotal, ?_⟩
    simp only [List.map_cons, List.sum_cons, Nat.add_assoc]
    rfl

/-- Equal sizes and a lookup one way make equal postings. -/
theorem agrees_iff {postings expected : BTreeMap Str (BTreeMap Id Nat)} :
    agrees postings expected = true ↔ postings = expected := by
  constructor
  · intro h
    simp only [agrees, decide_eq_true_eq, List.all_eq_true] at h
    obtain ⟨hsize, hterms⟩ := h
    refine (BTreeMap.eq_of_size (fun term posting hterm => ?_) hsize.symm).symm
    have hterm := hterms (term, posting) (BTreeMap.mem_toList.mpr hterm)
    cases hactual : postings[term]? with
    | none => simp [hactual] at hterm
    | some actual =>
      simp only [hactual, decide_eq_true_eq] at hterm
      obtain ⟨hsize, hcounts⟩ := hterm
      refine congrArg some (BTreeMap.eq_of_size (fun id count hid => ?_) hsize.symm).symm
      exact hcounts (id, count) (BTreeMap.mem_toList.mpr hid)
  · rintro rfl
    exact agrees_self postings

/-- The decoder accepts exactly the snapshots of sound indexes: of non-empty terms
with positive counts, lengths and a total that are the sums they should be and fit
a `usize`, postings that are the transpose of the counts, and a supported
pipeline unless there are no documents. -/
theorem tryFrom_eq_ok {raw : RawBm25Index Id} {index : Bm25Index Id} :
    tryFrom raw = .ok index ↔ index.toRaw = raw ∧ Sound index := by
  constructor
  · intro h
    obtain ⟨counted, hcounted, h⟩ := Outcome.bind_eq_ok.mp h
    have hzero : (0 : Nat) < usizeLimit := by decide
    obtain ⟨hdocuments, hfits, rfl⟩ := foldlM_countDocument_ok hzero hcounted
    have hsum : 0 + (raw.documents.toList.map fun entry => entry.2.length).sum =
        BTreeMap.sumBy DocumentTerms.length raw.documents := Nat.zero_add _
    rw [hsum] at h hfits
    split at h
    · cases h
    next htotal =>
    split at h
    · cases h
    next hagrees =>
    dsimp only at htotal hagrees h
    split at h
    · cases h
    next hpipeline =>
    cases h
    rw [not_not, agrees_iff] at hagrees
    rw [ne_eq, not_not] at htotal
    obtain ⟨hne, hposted⟩ := transposed_toList raw.documents
    refine ⟨?_, ⟨fun hterm => ?_, fun t id => ?_, rfl⟩, fun id document hid => ?_, hfits, ?_⟩
    · cases raw
      simpa [toRaw] using htotal
    · exact hne (hagrees ▸ hterm)
    · rw [hagrees]
      exact hposted t id
    · exact hdocuments (id, document) (BTreeMap.mem_toList.mpr hid)
    · by_cases hempty : raw.documents = ∅
      · exact .inl hempty
      · refine .inr (of_not_not fun hrefused => hpipeline ⟨by simpa using hempty, fun hok => ?_⟩)
        exact hrefused (Outcome.isOk_iff.mp hok)
  · rintro ⟨rfl, h⟩
    exact tryFrom_toRaw h

/-- Success is soundness, and takes the fields over unchanged. -/
theorem decodes_iff (raw : RawBm25Index Id) :
    ((∃ index, tryFrom raw = .ok index) ↔ Sound ({ raw with } : Bm25Index Id)) ∧
      ∀ index, tryFrom raw = .ok index → index.toRaw = raw := by
  refine ⟨⟨fun ⟨index, h⟩ => ?_, fun h => ⟨_, tryFrom_eq_ok.mpr ⟨rfl, h⟩⟩⟩,
    fun index h => (tryFrom_eq_ok.mp h).1⟩
  obtain ⟨rfl, hsound⟩ := tryFrom_eq_ok.mp h
  exact hsound

/-! ## Operations on an accepted state -/

section Operations

variable [Unicode] {raw : RawBm25Index Id} {index : Bm25Index Id}

/-- A mutation that returns leaves an accepted state behind, and one that is
refused leaves the state; no addition overflows. -/
def KeepsAccepted (index : Bm25Index Id) (mutation : Mutation Id) : Prop :=
  match index.mutate mutation with
  | .ok index' => tryFrom index'.toRaw = .ok index'
  | .error (.refused _) => tryFrom index.toRaw = .ok index
  | .error (.panicked _) => False

/-- The tokens of a new text and of the documents it joins fit a `usize`. -/
def HasRoom (index : Bm25Index Id) : Mutation Id → Prop
  | .insert id document => index.simplePipeline = .ok () →
    BTreeMap.sumBy DocumentTerms.length (index.documents.erase id) + (tokenize document).length <
      usizeLimit
  | .remove _ => True

theorem keepsAccepted_refused (h : Sound index) {mutation : Mutation Id} {e : HeuremaError}
    (hrefused : index.mutate mutation = Outcome.refuse e) : KeepsAccepted index mutation := by
  rw [KeepsAccepted, hrefused]
  exact tryFrom_toRaw h

theorem insert_keepsAccepted (h : Sound index) (id : Id) (document : Str) :
    KeepsAccepted index (.insert id document) ↔ HasRoom index (.insert id document) := by
  cases hpipeline : index.simplePipeline with
  | error e =>
    have hrefused : index.mutate (.insert id document) = Outcome.refuse e := by
      rw [mutate, insert, hpipeline, Outcome.ofResult_error, Outcome.refuse_bind]
    refine iff_of_true (keepsAccepted_refused h hrefused) fun hok => ?_
    rw [hpipeline] at hok
    cases hok
  | ok =>
    have htotal : (index.removeDocument id).totalDocumentTerms =
        BTreeMap.sumBy DocumentTerms.length (index.documents.erase id) := by
      rw [(h.removeDocument id).total, removeDocument_documents]
    have hinsert : index.mutate (.insert id document) =
        (index.removeDocument id).insertDocument id (documentTerms document) := by
      rw [mutate, insert, hpipeline, Outcome.ofResult_ok, Outcome.ok_bind]
    have hroom : HasRoom index (.insert id document) ↔
        (index.removeDocument id).totalDocumentTerms + (documentTerms document).length <
          usizeLimit := by
      rw [HasRoom, htotal, documentTerms_length]
      exact forall_prop_of_true hpipeline
    rw [hroom]
    constructor
    · intro hkeeps
      by_contra hfull
      rw [KeepsAccepted, hinsert, insertDocument, usizeAdd, if_neg hfull] at hkeeps
      exact hkeeps
    · intro hfits
      have hok := insertDocument_eq (index.removeDocument id) id hfits
      rw [KeepsAccepted, hinsert, hok]
      exact tryFrom_toRaw (insert_sound h (hinsert.trans hok)).1

theorem remove_keepsAccepted (h : Sound index) (id : Id) : KeepsAccepted index (.remove id) := by
  cases hpipeline : index.simplePipeline with
  | error e =>
    refine keepsAccepted_refused h (e := e) ?_
    rw [mutate, remove, hpipeline, Outcome.ofResult_error, Outcome.refuse_bind]
  | ok =>
    have hremove : index.mutate (.remove id) = .ok (index.removeDocument id) := by
      rw [mutate, remove, hpipeline, Outcome.ofResult_ok, Outcome.ok_bind, Outcome.pure_eq]
    rw [KeepsAccepted, hremove]
    exact tryFrom_toRaw (h.removeDocument id)

/-- An operation on an accepted state keeps it accepted, with no addition
overflowing, exactly when the tokens it leaves behind fit a `usize`. -/
theorem accepted_closed (h : tryFrom raw = .ok index) (mutation : Mutation Id) :
    KeepsAccepted index mutation ↔ HasRoom index mutation := by
  have hsound := (tryFrom_eq_ok.mp h).2
  cases mutation with
  | insert id document => exact insert_keepsAccepted hsound id document
  | remove id => exact iff_of_true (remove_keepsAccepted hsound id) trivial

end Operations

/-- A corpus of one document that holds a term as often as a `usize` can say. -/
def brimming : Bm25Index Nat :=
  let count := 18446744073709551615
  { config := .simple
    documents := (∅ : BTreeMap _ _).insert 0 ⟨(∅ : BTreeMap _ _).insert "a".toList count, count⟩
    postings := (∅ : BTreeMap _ _).insert "a".toList ((∅ : BTreeMap _ _).insert 0 count)
    totalDocumentTerms := count }

/-- The decoder accepts it, and one token more overflows. -/
theorem brimming_overflows : letI := Unicode.ascii
    tryFrom brimming.toRaw = .ok brimming ∧
      brimming.mutate (.insert 1 "b".toList) = Outcome.panic "attempt to add with overflow" ∧
      ¬ KeepsAccepted brimming (.insert 1 "b".toList) := by
  let _ := Unicode.ascii
  have haccepted : tryFrom brimming.toRaw = .ok brimming := by decide +kernel
  have hpanic : brimming.mutate (.insert 1 "b".toList) =
      Outcome.panic "attempt to add with overflow" := by decide +kernel
  refine ⟨haccepted, hpanic, ?_⟩
  rw [KeepsAccepted, hpanic]
  exact id

/-- Replacing its document gives the tokens back. -/
theorem accepted_closed_replacement : letI := Unicode.ascii
    KeepsAccepted brimming (.insert 0 "b".toList) := by
  let _ := Unicode.ascii
  have haccepted : tryFrom brimming.toRaw = .ok brimming := by decide +kernel
  refine (accepted_closed haccepted _).mpr fun _ => ?_
  decide +kernel

end Heurema.Bm25Index
