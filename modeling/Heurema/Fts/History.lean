import Heurema.Fts.Bm25

/-! # Histories of a BM25 index

`Represents` ties an index to the map of texts it stands for. Every mutation
keeps the tie, so what a history leaves behind depends on its final texts
alone. -/

namespace Heurema.Bm25Index

variable {Id : Type} [LinearOrder Id] [Unicode]

/-- The token count of a text. -/
def tokenCount (text : Str) : Nat := (tokenize text).length

/-- The token count of a corpus. -/
def tokenTotal (texts : BTreeMap Id Str) : Nat := BTreeMap.sumBy tokenCount texts

/-- The index holds the analysis of `texts` and nothing else. -/
structure Represents (index : Bm25Index Id) (texts : BTreeMap Id Str) : Prop where
  consistent : Consistent index
  documents : ∀ id : Id, index.documents[id]? = texts[id]?.map documentTerms

theorem Represents.new (config : FtsConfig) :
    Represents (Bm25Index.new config : Bm25Index Id) ∅ :=
  ⟨.new config, by simp [Bm25Index.new]⟩

theorem Represents.unique {index index' : Bm25Index Id} {texts : BTreeMap Id Str}
    (h : Represents index texts) (h' : Represents index' texts)
    (hconfig : index.config = index'.config) : index = index' :=
  h.consistent.unique h'.consistent hconfig <| BTreeMap.ext_lookup fun id => by
    rw [h.documents, h'.documents]

theorem Represents.total {index : Bm25Index Id} {texts : BTreeMap Id Str}
    (h : Represents index texts) : index.totalDocumentTerms = tokenTotal texts := by
  have hdocuments : index.documents = texts.map fun _ => documentTerms :=
    BTreeMap.ext_lookup fun id => by simp [h.documents]
  simp [h.consistent.total, hdocuments, tokenTotal, BTreeMap.sumBy, tokenCount,
    documentTerms_length, Std.ExtTreeMap.toList_map, Function.comp_def]

theorem Represents.removeDocument {index : Bm25Index Id} {texts : BTreeMap Id Str}
    (h : Represents index texts) (id : Id) :
    Represents (index.removeDocument id) (texts.erase id) := by
  refine ⟨h.consistent.removeDocument id, fun j => ?_⟩
  rw [removeDocument_documents, BTreeMap.getElem?_erase_ite, BTreeMap.getElem?_erase_ite,
    h.documents]
  split <;> rfl

theorem Represents.insertDocument {index : Bm25Index Id} {texts : BTreeMap Id Str}
    (h : Represents index texts) {id : Id} (habsent : texts[id]? = none) (text : Str)
    (hfits : tokenTotal (texts.insert id text) < usizeLimit) :
    ∃ index', index.insertDocument id (documentTerms text) = .ok index' ∧
      index'.config = index.config ∧ Represents index' (texts.insert id text) := by
  have hlength : index.totalDocumentTerms + (documentTerms text).length < usizeLimit := by
    rw [h.total, documentTerms_length]
    rwa [tokenTotal, BTreeMap.sumBy_insert_new _ _ habsent] at hfits
  obtain ⟨index', hok, hconfig, hdocuments, hcons⟩ :=
    h.consistent.insertDocument (by rw [h.documents, habsent]; rfl) _ hlength
  refine ⟨index', hok, hconfig, hcons, fun j => ?_⟩
  rw [hdocuments, BTreeMap.getElem?_insert_ite, BTreeMap.getElem?_insert_ite, h.documents]
  split <;> rfl

/-! ## Mutations -/

/-- One call that changes an index. -/
inductive Mutation (Id : Type) where
  | insert (id : Id) (document : Str)
  | remove (id : Id)

/-- The call on the index. -/
def mutate (index : Bm25Index Id) : Mutation Id → Run (Bm25Index Id)
  | .insert id document => index.insert id document
  | .remove id => index.remove id

/-- The calls of a history in turn, stopping at the first failure. -/
def replay (index : Bm25Index Id) (history : List (Mutation Id)) : Run (Bm25Index Id) :=
  history.foldlM mutate index

omit [Unicode] in
/-- What a call does to the map of texts. -/
def Mutation.texts (texts : BTreeMap Id Str) : Mutation Id → BTreeMap Id Str
  | .insert id document => texts.insert id document
  | .remove id => texts.erase id

/-- The map of texts a history ends with. -/
def finalTexts (history : List (Mutation Id)) : BTreeMap Id Str :=
  history.foldl Mutation.texts ∅

/-- The token count fits a `usize` after every call of the history. -/
def Fits (texts : BTreeMap Id Str) (history : List (Mutation Id)) : Prop :=
  ∀ n, tokenTotal ((history.take n).foldl Mutation.texts texts) < usizeLimit

theorem Fits.step {texts : BTreeMap Id Str} {mutation : Mutation Id}
    {history : List (Mutation Id)} (h : Fits texts (mutation :: history)) :
    tokenTotal (mutation.texts texts) < usizeLimit ∧ Fits (mutation.texts texts) history :=
  ⟨by simpa using h 1, fun n => by simpa using h (n + 1)⟩

/-- One supported mutation keeps the index and its texts together. -/
theorem Represents.mutate {index : Bm25Index Id} {texts : BTreeMap Id Str}
    (h : Represents index texts) (hpipeline : index.config.requireSimplePipeline = .ok ())
    (mutation : Mutation Id) (hfits : tokenTotal (mutation.texts texts) < usizeLimit) :
    ∃ index', index.mutate mutation = .ok index' ∧ index'.config = index.config ∧
      Represents index' (mutation.texts texts) := by
  cases mutation with
  | insert id document =>
    have hsame : (texts.erase id).insert id document = texts.insert id document :=
      BTreeMap.insert_erase texts id document
    have habsent : (texts.erase id)[id]? = none := by simp
    obtain ⟨index', hok, hconfig, hrep⟩ :=
      (h.removeDocument id).insertDocument habsent document (by rwa [hsame])
    refine ⟨index', ?_, by rw [hconfig, removeDocument_config], by rwa [hsame] at hrep⟩
    simp only [Bm25Index.mutate, Bm25Index.insert, simplePipeline, hpipeline, Outcome.ofResult_ok,
      Outcome.ok_bind, hok]
  | remove id =>
    refine ⟨_, ?_, removeDocument_config index id, h.removeDocument id⟩
    simp only [Bm25Index.mutate, Bm25Index.remove, simplePipeline, hpipeline, Outcome.ofResult_ok,
      Outcome.ok_bind, Outcome.pure_eq]

/-- A whole history does what its mutations do to the texts. -/
theorem Represents.replay {index : Bm25Index Id} {texts : BTreeMap Id Str}
    (h : Represents index texts) (hpipeline : index.config.requireSimplePipeline = .ok ())
    {history : List (Mutation Id)} (hfits : Fits texts history) :
    ∃ index', index.replay history = .ok index' ∧ index'.config = index.config ∧
      Represents index' (history.foldl Mutation.texts texts) := by
  induction history generalizing index texts with
  | nil => exact ⟨index, rfl, rfl, h⟩
  | cons mutation rest ih =>
    obtain ⟨hstep, hrest⟩ := hfits.step
    obtain ⟨next, hok, hconfig, hnext⟩ := h.mutate hpipeline mutation hstep
    obtain ⟨index', hok', hconfig', hrep⟩ := ih hnext (by rwa [hconfig]) hrest
    refine ⟨index', ?_, hconfig'.trans hconfig, hrep⟩
    rw [Bm25Index.replay, List.foldlM_cons, hok]
    exact hok'

/-! ## Inserting a map's entries -/

/-- The insertion of one entry of a map of texts. -/
def insertion (entry : Id × Str) : Mutation Id := .insert entry.1 entry.2

omit [Unicode] in
theorem foldl_insertion (entries : List (Id × Str)) (hkeys : (entries.map Prod.fst).Nodup)
    (texts : BTreeMap Id Str) (id : Id) (text : Str) :
    ((entries.map insertion).foldl Mutation.texts texts)[id]? = some text ↔
      (id, text) ∈ entries ∨ (id ∉ entries.map Prod.fst ∧ texts[id]? = some text) := by
  induction entries generalizing texts with
  | nil => simp
  | cons entry rest ih =>
    obtain ⟨key, value⟩ := entry
    obtain ⟨hfresh, hrest⟩ := List.nodup_cons.mp hkeys
    rw [List.map_cons, List.foldl_cons, ih hrest]
    simp only [insertion, Mutation.texts, BTreeMap.getElem?_insert_ite, List.mem_cons,
      List.map_cons, Prod.mk.injEq]
    by_cases hid : key = id
    · subst hid
      have hpair : (key, text) ∉ rest := fun hmem =>
        hfresh (List.mem_map.mpr ⟨_, hmem, rfl⟩)
      simp [hfresh, hpair, eq_comm]
    · simp [hid, Ne.symm hid]

omit [Unicode] in
/-- Inserting the entries of a map into nothing, in any order, gives the map. -/
theorem foldl_insertion_perm {texts : BTreeMap Id Str} {entries : List (Id × Str)}
    (hperm : entries.Perm texts.toList) :
    (entries.map insertion).foldl Mutation.texts ∅ = texts := by
  have hkeys : (entries.map Prod.fst).Nodup :=
    (hperm.map Prod.fst).nodup_iff.mpr (BTreeMap.toList_keys_nodup texts)
  apply BTreeMap.ext_lookup
  intro id
  apply Option.ext
  intro text
  rw [foldl_insertion entries hkeys]
  simp [hperm.mem_iff]

/-- A prefix of the insertions holds no more tokens than all of them. -/
theorem fits_insertions {texts : BTreeMap Id Str} {entries : List (Id × Str)}
    (hperm : entries.Perm texts.toList) (hfits : tokenTotal texts < usizeLimit) :
    Fits ∅ (entries.map insertion) := by
  intro n
  have hkeys : ((entries.take n).map Prod.fst).Nodup :=
    ((hperm.map Prod.fst).nodup_iff.mpr (BTreeMap.toList_keys_nodup texts)).sublist
      ((List.take_sublist n entries).map Prod.fst)
  -- The entries inserted so far are a part of the map's own.
  have hle : tokenTotal (((entries.take n).map insertion).foldl Mutation.texts ∅) ≤
      tokenTotal texts := by
    apply BTreeMap.sumBy_le
    intro id text hmem
    rw [foldl_insertion _ hkeys] at hmem
    rcases hmem with hmem | ⟨-, hmem⟩
    · exact BTreeMap.mem_toList.mp (hperm.mem_iff.mp ((List.take_sublist n entries).subset hmem))
    · simp at hmem
  rw [← List.map_take]
  exact lt_of_le_of_lt hle hfits

/-- A BM25 index is a function of its live texts. Whatever supported history
built it, it equals the fresh index of those texts inserted in any order and
the index of every other history with the same final texts, so it answers every
query as they do; and no term keeps an empty posting or one of a dead document. -/
theorem history_independent {F : Type} [ScoreArith F] (config : FtsConfig)
    (hpipeline : config.requireSimplePipeline = .ok ()) (history : List (Mutation Id))
    (hfits : Fits ∅ history) :
    ∃ index : Bm25Index Id, (new config).replay history = .ok index ∧
      (∀ entries : List (Id × Str), entries.Perm (finalTexts history).toList →
        (new config).replay (entries.map insertion) = .ok index) ∧
      (∀ (term : Str) (posting : BTreeMap Id Nat), index.postings[term]? = some posting →
        posting ≠ ∅ ∧ ∀ id ∈ posting, id ∈ finalTexts history) ∧
      (∀ history' : List (Mutation Id), Fits ∅ history' → finalTexts history' = finalTexts history →
        ∃ index' : Bm25Index Id, (new config).replay history' = .ok index' ∧ index' = index ∧
          ∀ (text : Str) (k : Nat), index'.query (F := F) text k = index.query text k) := by
  obtain ⟨index, hok, hconfig, hrep⟩ := (Represents.new config).replay hpipeline hfits
  -- Any other run to the same texts ends in the same state.
  have hsame {history' : List (Mutation Id)} (hfits' : Fits ∅ history')
      (hfinal : history'.foldl Mutation.texts ∅ = finalTexts history) :
      (new config).replay history' = .ok index := by
    obtain ⟨index', hok', hconfig', hrep'⟩ := (Represents.new config).replay hpipeline hfits'
    rw [hok', hrep'.unique (hfinal ▸ hrep) (hconfig'.trans hconfig.symm)]
  have htotal : tokenTotal (finalTexts history) < usizeLimit := by
    simpa [finalTexts] using hfits history.length
  refine ⟨index, hok, fun entries hperm => ?_, fun term posting hterm => ?_,
    fun history' hfits' hfinal => ⟨index, hsame hfits' hfinal, rfl, fun _ _ => rfl⟩⟩
  · exact hsame (fits_insertions hperm htotal) (foldl_insertion_perm hperm)
  · refine ⟨hrep.consistent.noEmpty hterm, fun id hid => ?_⟩
    obtain ⟨count, hcount⟩ := Option.isSome_iff_exists.mp
      (Std.ExtTreeMap.mem_iff_isSome_getElem?.mp hid)
    have hposted := hrep.consistent.transpose term id
    rw [posted, hterm, Option.bind_some, hcount, hrep.documents] at hposted
    rw [Std.ExtTreeMap.mem_iff_isSome_getElem?]
    change ((history.foldl Mutation.texts ∅)[id]?).isSome
    cases hid : (history.foldl Mutation.texts ∅)[id]? with
    | some text => rfl
    | none => rw [hid] at hposted; cases hposted

/-- A replacement that shares a term with what it replaces, and a removal. -/
def replacementHistory : List (Mutation Nat) :=
  [.insert 1 "one fish".toList, .insert 2 "red fish".toList, .insert 1 "Red sky".toList, .remove 2]

/-- Scores in a type where the arithmetic is exact. -/
@[reducible] def exactScores : ScoreArith Int where
  ofUsize n := n
  zero := 0
  half := 1
  one := 2
  k1 := 2
  b := 1
  add := (· + ·)
  sub := (· - ·)
  mul := (· * ·)
  div := (· / ·)
  ln x := x

omit [Unicode] in
theorem history_independent_replacement :
    letI := Unicode.ascii
    ∃ index : Bm25Index Nat, (new .simple).replay replacementHistory = .ok index ∧
      (new .simple).replay [.insert 1 "Red sky".toList] = .ok index := by
  let _ := Unicode.ascii
  let _ := exactScores
  have hfits : Fits ∅ replacementHistory
    | 0 | 1 | 2 | 3 => by decide +kernel
    | n + 4 => by
      have hall : replacementHistory.take (n + 4) = replacementHistory :=
        List.take_of_length_le (by simp [replacementHistory])
      rw [hall]
      decide +kernel
  obtain ⟨index, hok, hfresh, -⟩ :=
    history_independent (F := Int) FtsConfig.simple (by rfl) replacementHistory hfits
  refine ⟨index, hok, hfresh [(1, "Red sky".toList)] ?_⟩
  have hfinal : (finalTexts replacementHistory).toList = [(1, "Red sky".toList)] := by
    decide +kernel
  rw [hfinal]

end Heurema.Bm25Index
