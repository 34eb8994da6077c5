import Heurema.Data.Ranking
import Heurema.Fts.History

/-! # Queries

What a query should answer is stated over the live texts alone, by the
documented formula. An index that represents the texts answers that. -/

namespace Heurema

section Counts

theorem foldl_count_lookup (tokens : List Str) (terms : DocumentTerms) (token : Str) :
    (tokens.foldl DocumentTerms.count terms).counts[token]? =
      if token ∈ tokens then some (terms.counts[token]?.getD 0 + tokens.count token)
      else terms.counts[token]? := by
  induction tokens generalizing terms with
  | nil => simp
  | cons head tokens ih =>
    rw [List.foldl_cons, ih, DocumentTerms.count, BTreeMap.getElem?_alter_ite, List.count_cons]
    by_cases hhead : head = token
    · subst hhead
      by_cases hrest : head ∈ tokens
      · simp [hrest]
        omega
      · simp [hrest, List.count_eq_zero.mpr hrest]
    · simp [hhead, Ne.symm hhead]

/-- A text's analysis holds the count of each of its tokens. -/
theorem documentTerms_lookup [Unicode] (text token : Str) : (documentTerms text).counts[token]? =
    if token ∈ tokenize text then some ((tokenize text).count token) else none := by
  rw [documentTerms, foldl_count_lookup]
  simp

end Counts

namespace Bm25Index

open ScoreArith

variable {Id : Type} [LinearOrder Id] [Unicode]

/-! ## The documented ranking -/

section Reference

/-- `n(t)`: the live documents that contain a term. -/
def documentFrequency (texts : BTreeMap Id Str) (term : Str) : Nat :=
  (texts.toList.filter fun entry => term ∈ tokenize entry.2).length

/-- The distinct query terms that occur in a text, ascending. -/
def matched (query text : Str) : List Str :=
  (BTreeSet.ofList (tokenize query)).toList.filter (· ∈ tokenize text)

/-- The live documents that share a token with the query. -/
def candidates (texts : BTreeMap Id Str) (query : Str) : List (Id × Str) :=
  texts.toList.filter fun entry => (tokenize query).any (· ∈ tokenize entry.2)

variable (F : Type) [ScoreArith F]

/-- `avgdl`. -/
def averageLength (texts : BTreeMap Id Str) : F :=
  div (ofUsize (tokenTotal texts)) (ofUsize texts.size)

/-- `idf(t)`. -/
def inverseFrequency (texts : BTreeMap Id Str) (term : Str) : F :=
  let count : F := ofUsize texts.size
  let frequency : F := ofUsize (documentFrequency texts term)
  ln (add one (div (add (sub count frequency) half) (add frequency half)))

/-- What one term adds to the score of a text. -/
def termScore (texts : BTreeMap Id Str) (text term : Str) : F :=
  let frequency : F := ofUsize ((tokenize text).count term)
  let lengthRatio := div (ofUsize (tokenCount text)) (averageLength F texts)
  div (mul (inverseFrequency F texts term) (mul frequency (add k1 one)))
    (add frequency (mul k1 (add (sub one b) (mul b lengthRatio))))

/-- `score(d)`. -/
def textScore (texts : BTreeMap Id Str) (query text : Str) : F :=
  (matched query text).foldl (fun score term => add score (termScore F texts text term)) zero

/-- Every candidate with its score, best first. -/
def ranking (texts : BTreeMap Id Str) (query : Str) : List (Id × F) :=
  ranked ((candidates texts query).map fun entry => (entry.1, textScore F texts query entry.2))

end Reference

/-! ## What an index computes -/

variable {index : Bm25Index Id} {texts : BTreeMap Id Str}

theorem Represents.size (h : Represents index texts) : index.documents.size = texts.size := by
  have hdocuments : index.documents = texts.map fun _ => documentTerms :=
    BTreeMap.ext_lookup fun id => by simp [h.documents]
  simp [hdocuments]

/-- What the postings hold, in terms of the texts. -/
theorem Represents.posted (h : Represents index texts) (term : Str) (id : Id) :
    posted index.postings term id = texts[id]?.bind fun text =>
      if term ∈ tokenize text then some ((tokenize text).count term) else none := by
  rw [h.consistent.transpose, h.documents]
  cases texts[id]? with
  | none => rfl
  | some text => exact documentTerms_lookup text term

theorem Represents.posting_lookup (h : Represents index texts) {term : Str}
    {posting : BTreeMap Id Nat} (hterm : index.postings[term]? = some posting) (id : Id) :
    posting[id]? = texts[id]?.bind fun text =>
      if term ∈ tokenize text then some ((tokenize text).count term) else none := by
  rw [← h.posted, Bm25Index.posted, hterm, Option.bind_some]

/-- A posting holds the documents that contain its term. -/
theorem Represents.posting_size (h : Represents index texts) {term : Str}
    {posting : BTreeMap Id Nat} (hterm : index.postings[term]? = some posting) :
    posting.size = documentFrequency texts term := by
  have hkeys : posting.keys.Nodup := (BTreeMap.keys_sorted posting).imp fun h => ne_of_lt h
  have hids : ((texts.toList.filter fun entry => term ∈ tokenize entry.2).map Prod.fst).Nodup :=
    (BTreeMap.toList_keys_nodup texts).sublist (List.filter_sublist.map _)
  have hperm := (List.perm_ext_iff_of_nodup hkeys hids).mpr fun id => by
    rw [Std.ExtTreeMap.mem_keys, BTreeMap.mem_iff, h.posting_lookup hterm]
    simp [Option.bind_eq_some_iff, and_comm]
  simpa [documentFrequency] using hperm.length_eq

section Scores

variable {F : Type} [ScoreArith F]

/-- The score of a text after a term. -/
def addTerm (texts : BTreeMap Id Str) (term : Str) (text : Option Str) (score : Option F) : Option F :=
  match text with
  | none => score
  | some text =>
    if term ∈ tokenize text then some (add (score.getD zero) (termScore F texts text term)) else score

/-- The score of a document after its entry in a posting. -/
def credited (index : Bm25Index Id) (texts : BTreeMap Id Str) (term : Str) (entry : Id × Nat)
    (score : Option F) : Option F :=
  match index.documents[entry.1]? with
  | none => score
  | some document => some (add (score.getD zero) (div
      (mul (inverseFrequency F texts term) (mul (ofUsize entry.2) (add k1 one)))
      (add (ofUsize entry.2) (mul k1 (add (sub one b)
        (mul b (div (ofUsize document.length) (averageLength F texts))))))))

/-- One term of a query adds to the scores of the texts that contain it. -/
theorem scoreTerm_lookup (h : Represents index texts) (scores : BTreeMap Id F) (term : Str) (id : Id) :
    (index.scoreTerm (ofUsize texts.size) (averageLength F texts) scores term)[id]? =
      addTerm texts term texts[id]? scores[id]? := by
  rw [scoreTerm]
  cases hterm : index.postings[term]? with
  | none =>
    have hposted := h.posted term id
    rw [Bm25Index.posted, hterm, Option.bind_none] at hposted
    cases hid : texts[id]? with
    | none => rfl
    | some text =>
      rw [hid, Option.bind_some] at hposted
      have : term ∉ tokenize text := fun hmem => by simp [hmem] at hposted
      simp [addTerm, this]
  | some posting =>
    simp only [Std.ExtTreeMap.foldl_eq_foldl_toList]
    rw [BTreeMap.getElem?_foldl_step (credited index texts term) (fun scores entry id' => ?_)
      (BTreeMap.toList_keys_nodup posting), BTreeMap.find?_toList, h.posting_lookup hterm]
    · cases hid : texts[id]? with
      | none => rfl
      | some text =>
        by_cases hmem : term ∈ tokenize text
        · simp [credited, addTerm, hmem, h.documents, hid, termScore, documentTerms_length, tokenCount]
        · simp [addTerm, hmem]
    · cases hdocument : index.documents[entry.1]? with
      | none => simp [credited, hdocument]
      | some document =>
        rw [BTreeMap.getElem?_alter_ite, h.posting_size hterm]
        by_cases hid : entry.1 = id'
        · subst hid
          simp [credited, hdocument, inverseFrequency]
        · simp [hid]

/-- The loop over the query's terms. -/
theorem foldl_scoreTerm (h : Represents index texts) (terms : List Str) (scores : BTreeMap Id F)
    (id : Id) :
    (terms.foldl (index.scoreTerm (ofUsize texts.size) (averageLength F texts)) scores)[id]? =
      match texts[id]? with
      | none => scores[id]?
      | some text =>
        let found := terms.filter (· ∈ tokenize text)
        if found = [] then scores[id]?
        else some (found.foldl (fun score term => add score (termScore F texts text term))
          (scores[id]?.getD zero)) := by
  induction terms generalizing scores with
  | nil => cases texts[id]? <;> rfl
  | cons term terms ih =>
    rw [List.foldl_cons, ih, scoreTerm_lookup h]
    cases texts[id]? with
    | none => rfl
    | some text =>
      by_cases hmem : term ∈ tokenize text
      · simp only [addTerm, hmem, if_true, List.filter_cons, decide_true, Option.getD_some,
          reduceCtorEq, if_false, List.foldl_cons]
        split
        · next hrest => rw [hrest]; rfl
        · rfl
      · simp [addTerm, hmem]

omit [ScoreArith F] in
theorem matched_ne_nil {query text : Str} :
    matched query text ≠ [] ↔ (tokenize query).any (· ∈ tokenize text) := by
  rw [matched, ne_eq, List.filter_eq_nil_iff]
  simp

theorem query_scores (h : Represents index texts) (query : Str) (id : Id) (score : F) :
    ((BTreeSet.ofList (tokenize query)).foldl
        (index.scoreTerm (ofUsize texts.size) (averageLength F texts)) ∅)[id]? = some score ↔
      (id, score) ∈ (candidates texts query).map fun entry =>
        (entry.1, textScore F texts query entry.2) := by
  have hcandidate {text : Str} : (id, text) ∈ candidates texts query ↔
      texts[id]? = some text ∧ matched query text ≠ [] := by
    rw [candidates, List.mem_filter, BTreeMap.mem_toList, matched_ne_nil]
  rw [Std.ExtTreeSet.foldl_eq_foldl_toList, foldl_scoreTerm h, List.mem_map]
  constructor
  · intro hscore
    cases hid : texts[id]? with
    | none => simp [hid] at hscore
    | some text =>
      simp only [hid] at hscore
      split at hscore
      · simp at hscore
      · next hfound =>
        refine ⟨(id, text), hcandidate.mpr ⟨hid, hfound⟩, Prod.ext rfl ?_⟩
        simpa [textScore, matched] using hscore
  · rintro ⟨⟨id', text⟩, hmem, heq⟩
    cases heq
    obtain ⟨hid, hfound⟩ := hcandidate.mp hmem
    rw [matched] at hfound
    simp only [hid]
    rw [if_neg hfound]
    simp [textScore, matched]

theorem candidates_nodup (texts : BTreeMap Id Str) (query : Str) :
    (((candidates texts query).map fun entry => (entry.1, textScore F texts query entry.2)).map
      Prod.fst).Nodup := by
  rw [List.map_map]
  exact (BTreeMap.toList_keys_nodup texts).sublist (List.filter_sublist.map _)

/-- An index that represents some texts answers as the formula says. -/
theorem Represents.query (h : Represents index texts) (hpipeline : index.simplePipeline = .ok ())
    (query : Str) (k : Nat) : index.query query k = .ok ((ranking F texts query).take k) := by
  rw [Bm25Index.query, hpipeline]
  by_cases hnone : k = 0 ∨ index.documents.isEmpty
  · have hempty : (ranking F texts query).take k = [] := by
      rcases hnone with rfl | hempty
      · rfl
      · have hsize : texts.size = 0 := by
          rw [← h.size, Std.ExtTreeMap.isEmpty_iff.mp hempty]
          rfl
        obtain rfl : texts = ∅ := Std.ExtTreeMap.eq_empty_iff_size_eq_zero.mpr hsize
        have hlist : (∅ : BTreeMap Id Str).toList = [] := Std.ExtTreeMap.toList_eq_nil_iff.mpr rfl
        simp [ranking, candidates, hlist, ranked]
    rw [hempty]
    simp only [hnone, if_true]
    rfl
  · simp only [hnone, if_false, h.size, h.total]
    set scores := (BTreeSet.ofList (tokenize query)).foldl
      (index.scoreTerm (ofUsize texts.size) (averageLength F texts)) ∅ with hscores
    have hperm : scores.toList.Perm
        ((candidates texts query).map fun entry => (entry.1, textScore F texts query entry.2)) := by
      refine (List.perm_ext_iff_of_nodup (BTreeMap.toList_nodup _)
        (List.Nodup.of_map Prod.fst (candidates_nodup texts query))).mpr fun entry => ?_
      obtain ⟨id, score⟩ := entry
      rw [BTreeMap.mem_toList, hscores, query_scores h]
    rw [ranking, ← ranked_unique hperm]
    rfl

end Scores

/-! ## After any history -/

/-- A call that returns kept its sum within a `usize`. -/
theorem Represents.mutate_ok {index' : Bm25Index Id} (h : Represents index texts)
    {mutation : Mutation Id} (hok : index.mutate mutation = .ok index') :
    index'.config = index.config ∧ Represents index' (mutation.texts texts) := by
  have hpipeline : index.config.requireSimplePipeline = .ok () := by
    cases hp : index.config.requireSimplePipeline with
    | ok => rfl
    | error e =>
      cases mutation <;>
        simp [Bm25Index.mutate, insert, remove, simplePipeline, hp, Outcome.refuse] at hok
  have hfits : tokenTotal (mutation.texts texts) < usizeLimit ∨ ∃ id, mutation = .remove id := by
    cases mutation with
    | remove id => exact .inr ⟨id, rfl⟩
    | insert id document =>
      refine .inl ?_
      have hremoved := h.removeDocument id
      have hadd : (index.removeDocument id).totalDocumentTerms + (documentTerms document).length <
          usizeLimit := by
        by_contra hfull
        simp only [Bm25Index.mutate, insert, simplePipeline, hpipeline, Outcome.ofResult_ok,
          Outcome.ok_bind] at hok
        rw [Bm25Index.insertDocument, usizeAdd, if_neg hfull] at hok
        cases hok
      rw [hremoved.total, documentTerms_length] at hadd
      rw [Mutation.texts, ← BTreeMap.insert_erase, tokenTotal,
        BTreeMap.sumBy_insert_new _ _ (by simp)]
      exact hadd
  rcases hfits with hfits | ⟨id, rfl⟩
  · obtain ⟨next, hnext, hconfig, hrep⟩ := h.mutate hpipeline mutation hfits
    rw [hok] at hnext
    cases hnext
    exact ⟨hconfig, hrep⟩
  · rw [Bm25Index.mutate, remove, simplePipeline, hpipeline] at hok
    cases hok
    exact ⟨removeDocument_config index id, h.removeDocument id⟩

theorem Represents.replay_ok {index' : Bm25Index Id} (h : Represents index texts)
    {history : List (Mutation Id)} (hok : index.replay history = .ok index') :
    index'.config = index.config ∧ Represents index' (history.foldl Mutation.texts texts) := by
  induction history generalizing index texts with
  | nil =>
    cases hok
    exact ⟨rfl, h⟩
  | cons mutation history ih =>
    rw [Bm25Index.replay, List.foldlM_cons] at hok
    obtain ⟨next, hnext, hrest⟩ := Outcome.bind_eq_ok.mp hok
    obtain ⟨hconfig, hrep⟩ := h.mutate_ok hnext
    obtain ⟨hconfig', hrep'⟩ := ih hrep hrest
    exact ⟨hconfig'.trans hconfig, hrep'⟩

section Ranking

variable (F : Type) [ScoreArith F]

theorem mem_ranking {texts : BTreeMap Id Str} {query : Str} {id : Id} {score : F} :
    (id, score) ∈ ranking F texts query ↔ ∃ text, texts[id]? = some text ∧
      (∃ token ∈ tokenize query, token ∈ tokenize text) ∧ score = textScore F texts query text := by
  rw [ranking, (ranked_perm _).mem_iff, List.mem_map]
  simp only [candidates, List.mem_filter, Prod.exists, BTreeMap.mem_toList, Prod.mk.injEq,
    List.any_eq_true, decide_eq_true_eq]
  constructor
  · rintro ⟨id', text, ⟨htext, hshared⟩, rfl, rfl⟩
    exact ⟨text, htext, hshared, rfl⟩
  · rintro ⟨text, htext, hshared, rfl⟩
    exact ⟨id, text, ⟨htext, hshared⟩, rfl, rfl⟩

theorem ranking_nodup (texts : BTreeMap Id Str) (query : Str) :
    ((ranking F texts query).map Prod.fst).Nodup := by
  rw [ranking, ((ranked_perm _).map Prod.fst).nodup_iff]
  exact candidates_nodup texts query

/-- The set of a query's tokens is all of it that counts. -/
theorem ranking_congr (texts : BTreeMap Id Str) {query query' : Str}
    (h : ∀ token, token ∈ tokenize query' ↔ token ∈ tokenize query) :
    ranking F texts query' = ranking F texts query := by
  have hset : BTreeSet.ofList (tokenize query') = BTreeSet.ofList (tokenize query) := by
    apply Std.ExtTreeSet.ext_mem
    intro token
    rw [BTreeSet.mem_ofList, BTreeSet.mem_ofList, h]
  have hcandidates : candidates texts query' = candidates texts query := by
    apply List.filter_congr
    intro entry _
    rw [Bool.eq_iff_iff, List.any_eq_true, List.any_eq_true]
    simp only [h]
  simp only [ranking, hcandidates, textScore, matched, hset]

/-- A document that shares a token with a query has a token. -/
theorem candidate_tokens {texts : BTreeMap Id Str} {id : Id} {text token : Str}
    (hid : texts[id]? = some text) (htoken : token ∈ tokenize text) : 0 < tokenTotal texts := by
  calc 0 < tokenCount text := List.length_pos_of_mem htoken
    _ ≤ tokenTotal texts := BTreeMap.le_sumBy tokenCount hid

/-- After any history a query ranks exactly the live documents that share a token
with it, by the documented formula over the live texts, and returns the first
`k`. The order and the repetitions of its tokens do not matter, and a document
is only scored against a positive average length. -/
theorem query_documented {config : FtsConfig} (hpipeline : config.requireSimplePipeline = .ok ())
    {history : List (Mutation Id)} {index : Bm25Index Id}
    (hreplay : (new config).replay history = .ok index) (query : Str) :
    (∀ id (score : F), (id, score) ∈ ranking F (finalTexts history) query ↔
      ∃ text, (finalTexts history)[id]? = some text ∧
        (∃ token ∈ tokenize query, token ∈ tokenize text) ∧
        score = textScore F (finalTexts history) query text) ∧
    ((ranking F (finalTexts history) query).map Prod.fst).Nodup ∧
    (ranking F (finalTexts history) query).Pairwise outranks ∧
    (∀ text : Str, (matched query text).Pairwise (· < ·) ∧
      ∀ token, token ∈ matched query text ↔ token ∈ tokenize query ∧ token ∈ tokenize text) ∧
    (∀ k, index.query query k = .ok ((ranking F (finalTexts history) query).take k)) ∧
    (∀ k (fewer more : List (Id × F)), index.query query k = .ok fewer →
      index.query query (k + 1) = .ok more → fewer <+: more) ∧
    (∀ (query' : Str) k, (∀ token, token ∈ tokenize query' ↔ token ∈ tokenize query) →
      index.query (F := F) query' k = index.query query k) ∧
    (∀ id (score : F), (id, score) ∈ ranking F (finalTexts history) query →
      0 < tokenTotal (finalTexts history) ∧ 0 < (finalTexts history).size) := by
  obtain ⟨hconfig, hrep⟩ := (Represents.new config).replay_ok hreplay
  have hquery (query : Str) (k : Nat) :
      index.query query k = .ok ((ranking F (finalTexts history) query).take k) :=
    hrep.query (by rw [simplePipeline, hconfig]; exact hpipeline) query k
  refine ⟨fun id score => mem_ranking F, ranking_nodup F _ _, ranked_pairwise _,
    fun text => ⟨(BTreeSet.toList_sorted _).sublist List.filter_sublist, fun token => ?_⟩,
    hquery query, fun k fewer more hfewer hmore => ?_, fun query' k hsame => ?_,
    fun id score hmem => ?_⟩
  · simp [matched]
  · rw [hquery] at hfewer hmore
    cases hfewer
    cases hmore
    exact List.take_prefix_take_left (Nat.le_succ k)
  · rw [hquery, hquery, ranking_congr F _ hsame]
  · obtain ⟨text, hid, ⟨token, -, htoken⟩, -⟩ := (mem_ranking F).mp hmem
    refine ⟨candidate_tokens hid htoken, ?_⟩
    have := BTreeMap.length_le_size (m := finalTexts history) (l := [id]) (by simp)
      (by simpa using BTreeMap.mem_iff.mpr ⟨text, hid⟩)
    exact Nat.lt_of_lt_of_le (by simp) this

omit [Unicode] in
theorem query_documented_replacement :
    letI := Unicode.ascii
    letI := exactScores
    ∃ index : Bm25Index Nat, (new .simple).replay replacementHistory = .ok index ∧
      index.query (F := Int) "moon RED red".toList 1 = index.query "red moon".toList 1 ∧
      ∃ results : List (Nat × Int), index.query "red moon".toList 1 = .ok results ∧
        results.map Prod.fst = [1] := by
  let _ := Unicode.ascii
  let _ := exactScores
  have hreplay : ((new .simple).replay replacementHistory : Run (Bm25Index Nat)).isOk := by
    decide +kernel
  obtain ⟨index, hindex⟩ : ∃ index : Bm25Index Nat,
      (new .simple).replay replacementHistory = .ok index := by
    cases hrun : (new .simple).replay replacementHistory with
    | ok index => exact ⟨index, rfl⟩
    | error e =>
      rw [hrun] at hreplay
      cases hreplay
  obtain ⟨-, -, -, -, hquery, -, hsame, -⟩ :=
    query_documented Int rfl hindex "red moon".toList
  refine ⟨index, hindex, hsame _ 1 fun token => ?_, _, hquery 1, by decide +kernel⟩
  have hmoon : tokenize "moon RED red".toList = ["moon".toList, "red".toList, "red".toList] := by
    decide +kernel
  have hred : tokenize "red moon".toList = ["red".toList, "moon".toList] := by decide +kernel
  rw [hmoon, hred]
  simp only [List.mem_cons, List.not_mem_nil, or_false]
  tauto

end Ranking

end Bm25Index

end Heurema
