import Heurema.Data.TreeMap
import Heurema.Error
import Mathlib.Data.List.Sort

/-! # The BM25 engine

`Bm25Index` keeps, for each document, its term counts, and for each term the
documents that hold it. `posted` reads the second view entry by entry; the two
views and the corpus length are kept together by `Consistent`. -/

namespace Heurema

structure TokenizerConfig where
  name : Str
  args : List Str
deriving DecidableEq

structure FtsConfig where
  tokenizer : TokenizerConfig
  filters : List TokenizerConfig
deriving DecidableEq

namespace FtsConfig

def SIMPLE_TOKENIZER : Str := "Simple".toList

def simple : FtsConfig := ⟨⟨SIMPLE_TOKENIZER, []⟩, []⟩

/-- Refuses every analyzer pipeline but the argument-less `Simple` tokenizer
with no filters. -/
def requireSimplePipeline (config : FtsConfig) : Except HeuremaError Unit :=
  if config.tokenizer.name = SIMPLE_TOKENIZER ∧ config.tokenizer.args.isEmpty ∧
      config.filters.isEmpty then
    .ok ()
  else
    .error (.notYetImplemented "BM25 tokenizer/filter pipeline beyond Simple")

end FtsConfig

/-- The `f32` arithmetic a query scores with. -/
class ScoreArith (F : Type) extends LinearOrder F where
  ofUsize : Nat → F
  zero : F
  half : F
  one : F
  k1 : F
  b : F
  add : F → F → F
  sub : F → F → F
  mul : F → F → F
  div : F → F → F
  ln : F → F

structure DocumentTerms where
  counts : BTreeMap Str Nat
  length : Nat
deriving DecidableEq

structure Bm25Index (Id : Type) [LinearOrder Id] where
  config : FtsConfig
  documents : BTreeMap Id DocumentTerms
  postings : BTreeMap Str (BTreeMap Id Nat)
  totalDocumentTerms : Nat
deriving DecidableEq

/-- Counts one more occurrence of a token. -/
def DocumentTerms.count (terms : DocumentTerms) (token : Str) : DocumentTerms :=
  { counts := terms.counts.alter token fun n => some (n.getD 0 + 1)
    length := terms.length + 1 }

theorem DocumentTerms.foldl_count_length (tokens : List Str) (terms : DocumentTerms) :
    (tokens.foldl count terms).length = terms.length + tokens.length := by
  induction tokens generalizing terms with
  | nil => rfl
  | cons token rest ih =>
    rw [List.foldl_cons, ih]
    simp only [count, List.length_cons]
    omega

section Tokens

variable [Unicode]

def tokenize (input : Str) : List Str :=
  ((input.splitOnP fun character => !Unicode.isAlphanumeric character).filter
    fun token => !token.isEmpty).map Unicode.toLowercase

def documentTerms (document : Str) : DocumentTerms :=
  (tokenize document).foldl DocumentTerms.count { counts := ∅, length := 0 }

theorem documentTerms_length (document : Str) :
    (documentTerms document).length = (tokenize document).length := by
  simp [documentTerms, DocumentTerms.foldl_count_length]

end Tokens

namespace Bm25Index

variable {Id : Type} [LinearOrder Id]

def new (config : FtsConfig) : Bm25Index Id :=
  { config, documents := ∅, postings := ∅, totalDocumentTerms := 0 }

def simplePipeline (index : Bm25Index Id) : Except HeuremaError Unit :=
  index.config.requireSimplePipeline

/-- Takes `id` out of one term's posting, and the posting with it when that
leaves it empty. -/
def removePosting (id : Id) (postings : BTreeMap Str (BTreeMap Id Nat)) (term : Str) :
    BTreeMap Str (BTreeMap Id Nat) :=
  match postings[term]? with
  | none => postings
  | some posting =>
    let posting := posting.erase id
    if posting.isEmpty then postings.erase term else postings.insert term posting

def insertPosting (id : Id) (postings : BTreeMap Str (BTreeMap Id Nat)) (entry : Str × Nat) :
    BTreeMap Str (BTreeMap Id Nat) :=
  postings.insert entry.1 ((postings[entry.1]?.getD ∅).insert id entry.2)

def removeDocument (index : Bm25Index Id) (id : Id) : Bm25Index Id :=
  match index.documents[id]? with
  | none => index
  | some document =>
    { index with
      documents := index.documents.erase id
      -- `saturating_sub`
      totalDocumentTerms := index.totalDocumentTerms - document.length
      postings := document.counts.keys.foldl (removePosting id) index.postings }

def insertDocument (index : Bm25Index Id) (id : Id) (document : DocumentTerms) :
    Run (Bm25Index Id) := do
  let totalDocumentTerms ← usizeAdd index.totalDocumentTerms document.length
  return { index with
    totalDocumentTerms
    postings := document.counts.toList.foldl (insertPosting id) index.postings
    documents := index.documents.insert id document }

def insert [Unicode] (index : Bm25Index Id) (id : Id) (document : Str) :
    Run (Bm25Index Id) := do
  Outcome.ofResult index.simplePipeline
  let terms := documentTerms document
  (index.removeDocument id).insertDocument id terms

def remove (index : Bm25Index Id) (id : Id) : Run (Bm25Index Id) := do
  Outcome.ofResult index.simplePipeline
  return index.removeDocument id

def len (index : Bm25Index Id) : Nat := index.documents.size

/-- The identities of every indexed document, in ascending order. -/
def memberIds (index : Bm25Index Id) : List Id := index.documents.keys

section Query

variable {F : Type} [ScoreArith F] [Unicode]

open ScoreArith

/-- What one posting adds to the scores of its documents. -/
def scoreTerm (index : Bm25Index Id) (documentCount averageLength : F)
    (scores : BTreeMap Id F) (term : Str) : BTreeMap Id F :=
  match index.postings[term]? with
  | none => scores
  | some posting =>
    let documentFrequency : F := ofUsize posting.size
    let idf := ln (add one (div (add (sub documentCount documentFrequency) half)
      (add documentFrequency half)))
    posting.foldl (fun scores id termFrequency =>
      match index.documents[id]? with
      | none => scores
      | some document =>
        let lengthRatio := div (ofUsize document.length) averageLength
        let denominator := add (ofUsize termFrequency)
          (mul k1 (add (sub one b) (mul b lengthRatio)))
        let contribution := div (mul idf (mul (ofUsize termFrequency) (add k1 one))) denominator
        scores.alter id fun score => some (add (score.getD zero) contribution)) scores

/-- Better first: the greater score, then the smaller id. -/
def ranksBefore (left right : Id × F) : Prop :=
  right.2 < left.2 ∨ (right.2 = left.2 ∧ left.1 ≤ right.1)

instance : DecidableRel (ranksBefore : Id × F → Id × F → Prop) :=
  fun _ _ => inferInstanceAs (Decidable (_ ∨ _))

def query (index : Bm25Index Id) (query : Str) (k : Nat) : Except HeuremaError (List (Id × F)) := do
  index.simplePipeline
  if k = 0 ∨ index.documents.isEmpty then
    return []
  let documentCount : F := ofUsize index.documents.size
  let averageLength := div (ofUsize index.totalDocumentTerms) documentCount
  let queryTerms := BTreeSet.ofList (tokenize query)
  let scores := queryTerms.foldl (index.scoreTerm documentCount averageLength) ∅
  return (scores.toList.insertionSort ranksBefore).take k

end Query

/-! ## The two views -/

/-- The count that the postings hold for a term and a document. -/
def posted (postings : BTreeMap Str (BTreeMap Id Nat)) (term : Str) (id : Id) : Option Nat :=
  postings[term]?.bind fun posting => posting[id]?

/-- No term keeps an empty posting. -/
def NoEmpty (postings : BTreeMap Str (BTreeMap Id Nat)) : Prop :=
  ∀ {term : Str} {posting : BTreeMap Id Nat}, postings[term]? = some posting → posting ≠ ∅

/-- Postings without empty entries are determined by what they hold. -/
theorem posted_ext {p q : BTreeMap Str (BTreeMap Id Nat)} (hp : NoEmpty p) (hq : NoEmpty q)
    (h : ∀ term id, posted p term id = posted q term id) : p = q := by
  -- A term with a posting on one side has an entry there, so it has one on the other.
  have absent {p q : BTreeMap Str (BTreeMap Id Nat)} (hp : NoEmpty p)
      (h : ∀ term id, posted p term id = posted q term id) {term : Str}
      (hq : q[term]? = none) : p[term]? = none := by
    cases hpt : p[term]? with
    | none => rfl
    | some posting =>
      obtain ⟨id, count, hid⟩ := BTreeMap.exists_lookup (hp hpt)
      have := h term id
      simp [posted, hpt, hq, hid] at this
  apply BTreeMap.ext_lookup
  intro term
  cases hpt : p[term]? with
  | none => exact (absent hq (fun t i => (h t i).symm) hpt).symm
  | some posting =>
    cases hqt : q[term]? with
    | none => rw [absent hp h hqt] at hpt; cases hpt
    | some posting' =>
      congr 1
      apply BTreeMap.ext_lookup
      intro id
      simpa [posted, hpt, hqt] using h term id

theorem removePosting_noEmpty {postings : BTreeMap Str (BTreeMap Id Nat)} (h : NoEmpty postings)
    (id : Id) (term : Str) : NoEmpty (removePosting id postings term) := by
  unfold removePosting
  split
  · exact h
  · next posting hposting =>
    intro t p hp
    dsimp only at hp
    split at hp
    · rw [BTreeMap.getElem?_erase_ite] at hp
      split at hp
      · cases hp
      · exact h hp
    · next hne =>
      rw [BTreeMap.getElem?_insert_ite] at hp
      split at hp
      · cases hp
        simpa using hne
      · exact h hp

theorem posted_removePosting (postings : BTreeMap Str (BTreeMap Id Nat)) (id j : Id)
    (term t : Str) : posted (removePosting id postings term) t j =
      if term = t ∧ id = j then none else posted postings t j := by
  unfold removePosting
  split
  · next hnone =>
    split
    · next h => simp [posted, ← h.1, hnone]
    · rfl
  · next posting hposting =>
    dsimp only
    split
    · next hempty =>
      -- The posting held `id` at most, so dropping it drops that entry only.
      have hgone : (posting.erase id)[j]? = none := by
        rw [Std.ExtTreeMap.isEmpty_iff.mp hempty]; simp
      rw [BTreeMap.getElem?_erase_ite] at hgone
      by_cases ht : term = t
      · subst ht
        by_cases hj : id = j <;> simp_all [posted]
      · simp [posted, BTreeMap.getElem?_erase_ite, ht]
    · by_cases ht : term = t
      · subst ht
        simp [posted, BTreeMap.getElem?_erase_ite, hposting]
      · simp [posted, BTreeMap.getElem?_insert_ite, ht]

theorem insertPosting_noEmpty {postings : BTreeMap Str (BTreeMap Id Nat)} (h : NoEmpty postings)
    (id : Id) (entry : Str × Nat) : NoEmpty (insertPosting id postings entry) := by
  intro t p hp
  rw [insertPosting, BTreeMap.getElem?_insert_ite] at hp
  split at hp
  · cases hp
    simp
  · exact h hp

theorem posted_insertPosting (postings : BTreeMap Str (BTreeMap Id Nat)) (id j : Id)
    (entry : Str × Nat) (t : Str) : posted (insertPosting id postings entry) t j =
      if entry.1 = t ∧ id = j then some entry.2 else posted postings t j := by
  by_cases ht : entry.1 = t
  · subst ht
    cases h : postings[entry.1]? <;>
      simp [posted, insertPosting, BTreeMap.getElem?_insert_ite, h]
  · simp [posted, insertPosting, BTreeMap.getElem?_insert_ite, ht]

theorem foldl_removePosting (id : Id) (terms : List Str)
    {postings : BTreeMap Str (BTreeMap Id Nat)} (h : NoEmpty postings) :
    NoEmpty (terms.foldl (removePosting id) postings) ∧
    ∀ t j, posted (terms.foldl (removePosting id) postings) t j =
      if t ∈ terms ∧ id = j then none else posted postings t j := by
  induction terms generalizing postings with
  | nil => simp [h]
  | cons term rest ih =>
    obtain ⟨hne, hposted⟩ := ih (removePosting_noEmpty h id term)
    refine ⟨hne, fun t j => ?_⟩
    rw [List.foldl_cons, hposted, posted_removePosting]
    by_cases hr : t ∈ rest <;> by_cases hj : id = j <;> simp [hr, hj, eq_comm]

theorem foldl_insertPosting (id : Id) (entries : List (Str × Nat))
    (hkeys : (entries.map Prod.fst).Nodup)
    {postings : BTreeMap Str (BTreeMap Id Nat)} (h : NoEmpty postings) :
    NoEmpty (entries.foldl (insertPosting id) postings) ∧
    (∀ t count, (t, count) ∈ entries →
      posted (entries.foldl (insertPosting id) postings) t id = some count) ∧
    ∀ t j, (id ≠ j ∨ t ∉ entries.map Prod.fst) →
      posted (entries.foldl (insertPosting id) postings) t j = posted postings t j := by
  induction entries generalizing postings with
  | nil => simp [h]
  | cons entry rest ih =>
    obtain ⟨hfresh, hrest⟩ := List.nodup_cons.mp hkeys
    obtain ⟨hne, hin, hout⟩ := ih hrest (insertPosting_noEmpty h id entry)
    refine ⟨hne, fun t count hmem => ?_, fun t j hj => ?_⟩
    · rcases List.mem_cons.mp hmem with heq | hmem
      · -- The head's key occurs nowhere later, so its count survives the rest.
        subst heq
        rw [List.foldl_cons, hout t id (.inr hfresh), posted_insertPosting]
        simp
      · exact hin t count hmem
    · rw [List.map_cons, List.mem_cons, not_or] at hj
      rw [List.foldl_cons, hout t j (hj.imp_right And.right), posted_insertPosting, if_neg]
      rintro ⟨rfl, rfl⟩
      simp at hj

/-- The documents and the postings are one relation read both ways, and the
corpus length is the sum of the documents' lengths. -/
structure Consistent (index : Bm25Index Id) : Prop where
  noEmpty : NoEmpty index.postings
  transpose : ∀ (term : Str) (id : Id), posted index.postings term id =
    index.documents[id]?.bind fun document => document.counts[term]?
  total : index.totalDocumentTerms = BTreeMap.sumBy DocumentTerms.length index.documents

theorem Consistent.new (config : FtsConfig) :
    Consistent (Bm25Index.new config : Bm25Index Id) where
  noEmpty h := by simp [Bm25Index.new] at h
  transpose := by simp [Bm25Index.new, posted]
  total := by simp [Bm25Index.new]

/-- Under `Consistent` an index is its configuration and its documents. -/
theorem Consistent.unique {index index' : Bm25Index Id} (h : Consistent index)
    (h' : Consistent index') (hconfig : index.config = index'.config)
    (hdocuments : index.documents = index'.documents) : index = index' := by
  have hpostings : index.postings = index'.postings :=
    posted_ext h.noEmpty h'.noEmpty fun t id => by
      rw [h.transpose, h'.transpose, hdocuments]
  have htotal : index.totalDocumentTerms = index'.totalDocumentTerms := by
    rw [h.total, h'.total, hdocuments]
  cases index; cases index'
  simp_all

theorem removeDocument_config (index : Bm25Index Id) (id : Id) :
    (index.removeDocument id).config = index.config := by
  unfold removeDocument
  split <;> rfl

theorem removeDocument_documents (index : Bm25Index Id) (id : Id) :
    (index.removeDocument id).documents = index.documents.erase id := by
  unfold removeDocument
  split
  · next h => exact (BTreeMap.erase_absent h).symm
  · rfl

theorem Consistent.removeDocument {index : Bm25Index Id} (h : Consistent index) (id : Id) :
    Consistent (index.removeDocument id) := by
  unfold Bm25Index.removeDocument
  split
  · exact h
  · next document hdocument =>
    obtain ⟨hne, hposted⟩ := foldl_removePosting id document.counts.keys h.noEmpty
    refine ⟨hne, fun t j => ?_, ?_⟩
    · simp only [hposted, h.transpose, BTreeMap.getElem?_erase_ite, Std.ExtTreeMap.mem_keys]
      by_cases hj : id = j
      · subst hj
        by_cases ht : t ∈ document.counts <;> simp [hdocument, ht]
      · simp [hj]
    · show index.totalDocumentTerms - document.length = _
      rw [h.total, BTreeMap.sumBy_erase _ hdocument, Nat.add_sub_cancel]

theorem insertDocument_eq (index : Bm25Index Id) (id : Id) {document : DocumentTerms}
    (hfits : index.totalDocumentTerms + document.length < usizeLimit) :
    index.insertDocument id document = .ok { index with
      totalDocumentTerms := index.totalDocumentTerms + document.length
      postings := document.counts.toList.foldl (insertPosting id) index.postings
      documents := index.documents.insert id document } := by
  unfold insertDocument
  rw [usizeAdd_ok hfits]
  rfl

theorem Consistent.insertDocument {index : Bm25Index Id} (h : Consistent index) {id : Id}
    (habsent : index.documents[id]? = none) (document : DocumentTerms)
    (hfits : index.totalDocumentTerms + document.length < usizeLimit) :
    ∃ index', index.insertDocument id document = .ok index' ∧ index'.config = index.config ∧
      index'.documents = index.documents.insert id document ∧ Consistent index' := by
  obtain ⟨hne, hin, hout⟩ := foldl_insertPosting id document.counts.toList
    (BTreeMap.toList_keys_nodup _) h.noEmpty
  refine ⟨_, insertDocument_eq index id hfits, rfl, rfl, hne, fun t j => ?_, ?_⟩
  · dsimp only
    rw [BTreeMap.getElem?_insert_ite]
    by_cases hj : id = j
    · subst hj
      cases ht : document.counts[t]? with
      | some count => simp [hin t count (BTreeMap.mem_toList.mpr ht), ht]
      | none =>
        have hkey : t ∉ document.counts.toList.map Prod.fst := by
          simp [Std.ExtTreeMap.map_fst_toList_eq_keys, Std.ExtTreeMap.mem_iff_isSome_getElem?, ht]
        simp [hout t id (.inr hkey), h.transpose, habsent, ht]
    · simp [hout t j (.inl hj), h.transpose, hj]
  · dsimp only
    rw [h.total, BTreeMap.sumBy_insert_new _ _ habsent]

/-! ## What a query ranks -/

section Ranked

variable {F : Type} [ScoreArith F] [Unicode]

omit [Unicode] in
/-- A term scores indexed documents only. -/
theorem mem_scoreTerm {index : Bm25Index Id} {documentCount averageLength : F}
    {scores : BTreeMap Id F} {term : Str} {id : Id}
    (h : id ∈ index.scoreTerm documentCount averageLength scores term) :
    id ∈ scores ∨ id ∈ index.documents := by
  rw [scoreTerm] at h
  split at h
  · exact .inl h
  · next posting hposting =>
    simp only [Std.ExtTreeMap.foldl_eq_foldl_toList] at h
    -- The invariant of the loop over the posting's entries.
    generalize posting.toList = entries at h
    induction entries generalizing scores with
    | nil => exact .inl h
    | cons entry rest ih =>
      rw [List.foldl_cons] at h
      rcases ih h with hscored | hindexed
      · split at hscored
        · exact .inl hscored
        · next document hdocument =>
          rw [BTreeMap.mem_iff] at hscored
          simp only [BTreeMap.getElem?_alter_ite] at hscored
          by_cases hid : entry.1 = id
          · exact .inr (BTreeMap.mem_iff.mpr ⟨document, hid ▸ hdocument⟩)
          · simp only [if_neg hid] at hscored
            exact .inl (BTreeMap.mem_iff.mpr hscored)
      · exact .inr hindexed

/-- A query of an index with a supported pipeline ranks indexed documents. -/
theorem query_ranks (index : Bm25Index Id) (hpipeline : index.simplePipeline = .ok ()) (text : Str)
    (k : Nat) : ∃ ranked : List (Id × F), index.query text k = .ok ranked ∧
      ∀ entry ∈ ranked, entry.1 ∈ index.documents := by
  have hscores (terms : List Str) (documentCount averageLength : F) : ∀ scores : BTreeMap Id F,
      (∀ id ∈ scores, id ∈ index.documents) →
      ∀ id ∈ terms.foldl (index.scoreTerm documentCount averageLength) scores,
        id ∈ index.documents := by
    induction terms with
    | nil => exact fun scores hmem => hmem
    | cons term terms ih =>
      intro scores hmem
      refine ih _ fun id hid => ?_
      rcases mem_scoreTerm hid with hscored | hindexed
      · exact hmem id hscored
      · exact hindexed
  rw [query, hpipeline]
  by_cases hnone : k = 0 ∨ index.documents.isEmpty = true
  · exact ⟨[], by simp only [hnone, if_true]; rfl, by simp⟩
  · refine ⟨_, by simp only [hnone, if_false]; rfl, fun entry hmem => ?_⟩
    have hmem := (List.perm_insertionSort _ _).mem_iff.mp (List.mem_of_mem_take hmem)
    rw [Std.ExtTreeSet.foldl_eq_foldl_toList] at hmem
    exact hscores _ _ _ _ (by simp) entry.1
      (BTreeMap.mem_iff.mpr ⟨entry.2, BTreeMap.mem_toList.mp hmem⟩)

end Ranked

end Bm25Index

end Heurema
