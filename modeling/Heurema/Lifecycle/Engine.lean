import Heurema.Lifecycle.Version

/-! # The engines behind the versions

What an engine keeps of each member, and what an insertion, a batch of them and a
removal do to it. A batch that passed its checks fails only when the tokens of a
corpus no longer fit a `usize`. -/

namespace Heurema

open Hnsw

open Outcome (ofResult)

/-- What an engine keeps of a member: its vector, or the token counts of its document. -/
inductive HeldContent where
  | vector (components : List F32)
  | document (terms : DocumentTerms)

namespace MemberContent

variable [Unicode]

def held : MemberContent → HeldContent
  | vector components => .vector components
  | document text => .document (documentTerms text)

/-- The tokens a member adds to a corpus. -/
def tokens : MemberContent → Nat
  | vector _ => 0
  | document text => Bm25Index.tokenCount text

end MemberContent

namespace VersionEngine

variable {M P : Type} [LinearOrder M]

def config : VersionEngine M → IndexConfig
  | vector engine => .vector engine.config
  | fts engine => .fts engine.config

/-- The content kept for a member. -/
def held : VersionEngine M → M → Option HeldContent
  | vector engine, id => (vectors engine.nodes)[id]?.map .vector
  | fts engine, id => engine.documents[id]?.map .document

/-- The tokens of the corpus. -/
def tokens : VersionEngine M → Nat
  | vector _ => 0
  | fts engine => engine.totalDocumentTerms

/-- The tokens of the corpus when the members are in: those of the documents they do not
replace, and their own. -/
def tokensWith [Unicode] : VersionEngine M → List (IndexMember M P) → Nat
  | vector _, _ => 0
  | fts engine, members =>
    BTreeMap.sumBy DocumentTerms.length
      (BTreeMap.eraseAll engine.documents (members.map IndexMember.id)) +
    (members.map fun member => member.content.tokens).sum

/-- The tokens fit a `usize` while the members go in, one after the other. -/
def HasRoom [Unicode] (engine : VersionEngine M) (members : List (IndexMember M P)) : Prop :=
  ∀ done ∈ members.inits, engine.tokensWith done < usizeLimit

theorem isBuiltUnder_iff {engine : VersionEngine M} {config : IndexConfig} :
    engine.isBuiltUnder config = true ↔ engine.config = config := by
  cases engine <;> cases config <;> simp [isBuiltUnder, VersionEngine.config]

theorem mem_memberIds {engine : VersionEngine M} {id : M} :
    id ∈ engine.memberIds ↔ (engine.held id).isSome = true := by
  cases engine with
  | vector engine => simp [memberIds, HnswIndex.memberIds, held, vectors]
  | fts engine => simp [memberIds, Bm25Index.memberIds, held]

theorem memberIds_sorted (engine : VersionEngine M) : engine.memberIds.Pairwise (· < ·) := by
  cases engine with
  | vector engine => exact BTreeMap.keys_sorted engine.nodes
  | fts engine => exact BTreeMap.keys_sorted engine.documents

/-- An engine and a table that keep the same members name them in the same order. -/
theorem holdsExactly_iff {engine : VersionEngine M} {table : BTreeMap M (MemberEntry P)} :
    engine.holdsExactly table = true ↔ ∀ id : M, (engine.held id).isSome = table[id]?.isSome := by
  simp only [holdsExactly, decide_eq_true_eq]
  constructor
  · intro h id
    rw [Bool.eq_iff_iff, ← mem_memberIds, h, Std.ExtTreeMap.mem_keys,
      Std.ExtTreeMap.mem_iff_isSome_getElem?]
  · intro h
    have hnodup {ids : List M} (hsort : ids.Pairwise (· < ·)) : ids.Nodup :=
      hsort.imp fun hlt => ne_of_lt hlt
    have hperm : engine.memberIds.Perm table.keys :=
      (List.perm_ext_iff_of_nodup (hnodup engine.memberIds_sorted)
        (hnodup (BTreeMap.keys_sorted table))).mpr fun id => by
          rw [mem_memberIds, h, Std.ExtTreeMap.mem_keys, Std.ExtTreeMap.mem_iff_isSome_getElem?]
    exact hperm.eq_of_pairwise (fun a b _ _ hab hba => absurd hab hba.asymm)
      engine.memberIds_sorted (BTreeMap.keys_sorted table)

/-! ## An empty engine -/

theorem empty_config (config : IndexConfig) : (empty config : VersionEngine M).config = config := by
  cases config <;> rfl

theorem empty_held (config : IndexConfig) (id : M) : (empty config).held id = none := by
  cases config <;> simp [empty, held, HnswIndex.new, Bm25Index.new, vectors]

theorem empty_tokens (config : IndexConfig) : (empty config : VersionEngine M).tokens = 0 := by
  cases config <;> rfl

theorem empty_sound {config : IndexConfig} (h : checkIndexConfig config = .ok ()) :
    (empty config : VersionEngine M).Sound := by
  cases config with
  | vector hnsw =>
    refine new_inv ?_
    cases hvalid : validateConfig hnsw with
    | ok => rfl
    | error reason => simp [checkIndexConfig, checkConfig, hvalid] at h
  | fts config => exact .new config

/-- The tokens of a corpus are counted in a `usize`. -/
theorem Sound.tokens_lt {engine : VersionEngine M} (h : engine.Sound) :
    engine.tokens < usizeLimit := by
  cases engine with
  | vector engine => exact Nat.zero_lt_of_lt (by decide : 0 < usizeLimit)
  | fts engine => exact h.fits

/-! ## One member -/

section Mutation

variable [VectorMath]

/-- What a removal does to an engine. -/
structure Without (engine : VersionEngine M) (id : M) (engine' : VersionEngine M) : Prop where
  sound : engine'.Sound
  config : engine'.config = engine.config
  held : ∀ j, engine'.held j = if id = j then none else engine.held j

theorem remove_spec {engine : VersionEngine M} (h : engine.Sound)
    (hconfig : checkIndexConfig engine.config = .ok ()) (id : M) :
    ∃ engine', engine.remove id = .ok engine' ∧ Without engine id engine' := by
  cases engine with
  | vector engine =>
    obtain ⟨engine', hremove, hinv, hsame, -, hvectors⟩ := removeNode_spec h id
    refine ⟨vector engine', by simp [remove, HnswIndex.remove, hremove], hinv,
      congrArg IndexConfig.vector hsame, fun j => ?_⟩
    simp only [held, hvectors, BTreeMap.getElem?_erase_ite]
    split <;> rfl
  | fts engine =>
    have hpipeline : engine.simplePipeline = .ok () := hconfig
    have hremove : engine.remove id = .ok (engine.removeDocument id) := by
      simp [Bm25Index.remove, hpipeline]
    obtain ⟨hsound, hsame, hdocuments⟩ := Bm25Index.remove_sound h hremove
    refine ⟨fts (engine.removeDocument id), by simp [remove, hremove], hsound,
      congrArg IndexConfig.fts hsame, fun j => ?_⟩
    simp only [held, hdocuments, BTreeMap.getElem?_erase_ite]
    split <;> rfl

/-- Removes the identities in turn. -/
def removeAll (engine : VersionEngine M) (ids : List M) : Run (VersionEngine M) :=
  ids.foldlM remove engine

/-- What the removals do to an engine. -/
structure WithoutAll (engine : VersionEngine M) (ids : List M) (engine' : VersionEngine M) :
    Prop where
  sound : engine'.Sound
  config : engine'.config = engine.config
  held : ∀ j, engine'.held j = if j ∈ ids then none else engine.held j

theorem removeAll_spec {engine : VersionEngine M} (h : engine.Sound)
    (hconfig : checkIndexConfig engine.config = .ok ()) (ids : List M) :
    ∃ engine', engine.removeAll ids = .ok engine' ∧ WithoutAll engine ids engine' := by
  induction ids generalizing engine with
  | nil => exact ⟨engine, rfl, h, rfl, fun j => rfl⟩
  | cons id ids ih =>
    obtain ⟨next, hremove, hnext⟩ := remove_spec h hconfig id
    obtain ⟨engine', hrest, hwithout⟩ := ih hnext.sound (by rwa [hnext.config])
    refine ⟨engine', ?_, hwithout.sound, hwithout.config.trans hnext.config, fun j => ?_⟩
    · rw [removeAll, List.foldlM_cons, hremove]
      exact hrest
    · rw [hwithout.held, hnext.held]
      by_cases hj : j ∈ ids <;> by_cases hid : id = j <;> simp [hj, hid, eq_comm]

variable [Unicode]

/-- What an insertion does to an engine. -/
structure With (engine : VersionEngine M) (member : IndexMember M P) (engine' : VersionEngine M) :
    Prop where
  sound : engine'.Sound
  config : engine'.config = engine.config
  held : ∀ j, engine'.held j = if member.id = j then some member.content.held else engine.held j
  tokens : ∀ done : List (IndexMember M P), member.id ∉ done.map IndexMember.id →
    engine'.tokensWith done = engine.tokensWith (member :: done)

theorem insert_spec {engine engine' : VersionEngine M} {member : IndexMember M P}
    (h : engine.Sound) (hok : engine.insert member.id member.content = .ok engine') :
    With engine member engine' := by
  obtain ⟨id, provenance, content⟩ := member
  cases engine with
  | vector engine =>
    cases content with
    | vector components =>
      obtain ⟨next, hinsert, hok⟩ := Outcome.bind_eq_ok.mp hok
      cases hok
      have hcheck : checkVector engine.config components = .ok () := by
        rw [HnswIndex.insert, Outcome.then_eq_ok] at hinsert
        exact Outcome.ofResult_eq_ok.mp hinsert.1
      obtain ⟨next', hnext, hinv, hsame, hvectors⟩ := Hnsw.insert_spec h id hcheck
      rw [hinsert] at hnext
      cases hnext
      refine ⟨hinv, congrArg IndexConfig.vector hsame, fun j => ?_, fun done hnew => rfl⟩
      simp only [held, hvectors, BTreeMap.getElem?_insert_ite]
      split <;> rfl
    | document text => cases hok
  | fts engine =>
    cases content with
    | vector components => cases hok
    | document text =>
      obtain ⟨next, hinsert, hok⟩ := Outcome.bind_eq_ok.mp hok
      cases hok
      obtain ⟨hsound, hsame, hdocuments⟩ := Bm25Index.insert_sound h hinsert
      refine ⟨hsound, congrArg IndexConfig.fts hsame, fun j => ?_, fun done hnew => ?_⟩
      · simp only [held, hdocuments, BTreeMap.getElem?_insert_ite]
        split <;> rfl
      · have habsent : (BTreeMap.eraseAll engine.documents (id :: done.map IndexMember.id))[id]? =
            none := by
          rw [BTreeMap.getElem?_eraseAll, if_pos List.mem_cons_self]
        rw [tokensWith, tokensWith, hdocuments, BTreeMap.eraseAll_insert hnew,
          BTreeMap.sumBy_insert_new _ _ habsent, documentTerms_length, List.map_cons,
          List.map_cons, List.sum_cons]
        exact Nat.add_assoc _ _ _

/-- The token counts of a corpus no longer fit a `usize`. -/
def overflow : Run (VersionEngine M) := Outcome.panic "attempt to add with overflow"

/-- Content that an engine's configuration admits goes in exactly when its tokens fit. -/
theorem insert_total {engine : VersionEngine M} (h : engine.Sound) (member : IndexMember M P)
    (hcheck : checkContent engine.config member.content = .ok ()) :
    (engine.tokensWith [member] < usizeLimit ∧
      ∃ engine', engine.insert member.id member.content = .ok engine') ∨
    (usizeLimit ≤ engine.tokensWith [member] ∧
      engine.insert member.id member.content = overflow) := by
  obtain ⟨id, provenance, content⟩ := member
  cases engine with
  | vector engine =>
    cases content with
    | vector components =>
      obtain ⟨next, hinsert, -⟩ := Hnsw.insert_spec h id hcheck
      have hroom : 0 < usizeLimit := by decide
      exact .inl ⟨hroom, vector next, by simp [insert, hinsert]⟩
    | document text => cases hcheck
  | fts engine =>
    cases content with
    | vector components => cases hcheck
    | document text =>
      have hpipeline : engine.simplePipeline = .ok () := hcheck
      have hinsert : engine.insert id text =
          (engine.removeDocument id).insertDocument id (documentTerms text) := by
        simp [Bm25Index.insert, hpipeline]
      have htokens : (fts engine).tokensWith [⟨id, provenance, .document text⟩] =
          (engine.removeDocument id).totalDocumentTerms + (documentTerms text).length := by
        rw [(h.toConsistent.removeDocument id).total, Bm25Index.removeDocument_documents,
          documentTerms_length]
        rfl
      rw [htokens]
      by_cases hfits : (engine.removeDocument id).totalDocumentTerms +
          (documentTerms text).length < usizeLimit
      · exact .inl ⟨hfits, by simp [insert, hinsert, Bm25Index.insertDocument_eq _ id hfits]⟩
      · refine .inr ⟨Nat.le_of_not_lt hfits, ?_⟩
        rw [insert, hinsert, Bm25Index.insertDocument, usizeAdd, if_neg hfits]
        rfl

/-! ## A batch -/

/-- Inserts the members in turn. -/
def insertAll (engine : VersionEngine M) (members : List (IndexMember M P)) :
    Run (VersionEngine M) :=
  members.foldlM (fun engine member => engine.insert member.id member.content) engine

/-- What a batch without a repeated identity does to an engine. -/
structure WithAll (engine : VersionEngine M) (members : List (IndexMember M P))
    (engine' : VersionEngine M) : Prop where
  sound : engine'.Sound
  config : engine'.config = engine.config
  held : ∀ j, engine'.held j = match members.find? (·.id = j) with
    | some member => some member.content.held
    | none => engine.held j

theorem insertAll_spec {members : List (IndexMember M P)} {engine engine' : VersionEngine M}
    (h : engine.Sound) (hids : (members.map IndexMember.id).Nodup)
    (hok : engine.insertAll members = .ok engine') : WithAll engine members engine' := by
  induction members generalizing engine with
  | nil =>
    cases hok
    exact ⟨h, rfl, fun j => rfl⟩
  | cons member members ih =>
    obtain ⟨hnew, hids⟩ := List.nodup_cons.mp hids
    rw [insertAll, List.foldlM_cons] at hok
    obtain ⟨next, hinsert, hok⟩ := Outcome.bind_eq_ok.mp hok
    have hnext := insert_spec h hinsert
    have hrest := ih hnext.sound hids hok
    refine ⟨hrest.sound, hrest.config.trans hnext.config, fun j => ?_⟩
    rw [hrest.held, hnext.held, List.find?_cons]
    by_cases hj : member.id = j
    · have hnone : members.find? (·.id = j) = none := List.find?_eq_none.mpr fun other hmem => by
        have hne : other.id ≠ member.id := fun heq => hnew (heq ▸ List.mem_map_of_mem hmem)
        simpa using hj ▸ hne
      simp [hj, hnone]
    · simp [hj]

omit [VectorMath] in
/-- A sound engine has room for nothing. -/
theorem Sound.tokensWith_nil {engine : VersionEngine M} (h : engine.Sound) :
    engine.tokensWith ([] : List (IndexMember M P)) < usizeLimit := by
  cases engine with
  | vector engine => exact Nat.zero_lt_of_lt (by decide : 0 < usizeLimit)
  | fts engine =>
    have hfits := h.fits
    rw [h.total] at hfits
    exact hfits

omit [VectorMath] in
theorem hasRoom_cons {engine : VersionEngine M} {member : IndexMember M P}
    {members : List (IndexMember M P)} : engine.HasRoom (member :: members) ↔
      engine.tokensWith ([] : List (IndexMember M P)) < usizeLimit ∧
        ∀ done ∈ members.inits, engine.tokensWith (member :: done) < usizeLimit := by
  simp [HasRoom]

omit [VectorMath] in
/-- What is left to go in after the first of a batch has the room it had. -/
theorem With.hasRoom {engine next : VersionEngine M} {member : IndexMember M P}
    {members : List (IndexMember M P)} (hnext : With engine member next) (h : engine.Sound)
    (hnew : member.id ∉ members.map IndexMember.id) :
    next.HasRoom members ↔ engine.HasRoom (member :: members) := by
  have hdone : ∀ done ∈ members.inits,
      next.tokensWith done = engine.tokensWith (member :: done) := by
    intro done hmem
    refine hnext.tokens done fun hid => hnew ?_
    exact ((List.mem_inits _ _).mp hmem).sublist.map IndexMember.id |>.mem hid
  rw [hasRoom_cons]
  constructor
  · intro hroom
    exact ⟨h.tokensWith_nil, fun done hmem => hdone done hmem ▸ hroom done hmem⟩
  · intro hroom done hmem
    rw [hdone done hmem]
    exact hroom.2 done hmem

/-- A batch that an engine's configuration admits goes in exactly when its tokens fit. -/
theorem insertAll_total {members : List (IndexMember M P)} {engine : VersionEngine M}
    (h : engine.Sound) (hids : (members.map IndexMember.id).Nodup) (hcheck : ∀ member ∈ members,
      checkContent engine.config member.content = .ok ()) :
    (engine.HasRoom members ∧ ∃ engine', engine.insertAll members = .ok engine') ∨
      (¬ engine.HasRoom members ∧ engine.insertAll members = overflow) := by
  induction members generalizing engine with
  | nil =>
    refine .inl ⟨fun done hmem => ?_, engine, rfl⟩
    obtain rfl : done = [] := List.mem_singleton.mp hmem
    exact h.tokensWith_nil
  | cons member members ih =>
    obtain ⟨hnew, hids⟩ := List.nodup_cons.mp hids
    obtain ⟨hfirst, hcheck⟩ := List.forall_mem_cons.mp hcheck
    rcases insert_total h member hfirst with hnext | hover
    · obtain ⟨-, next, hinsert⟩ := hnext
      have hnext := insert_spec h hinsert
      have hsame : engine.insertAll (member :: members) = next.insertAll members := by
        rw [insertAll, List.foldlM_cons, hinsert]
        rfl
      -- The rest of the batch replaces none of what its first member put in.
      rw [hsame, ← hnext.hasRoom h hnew]
      exact ih hnext.sound hids (by rwa [hnext.config])
    · obtain ⟨hlimit, hpanic⟩ := hover
      refine .inr ⟨fun hroom => ?_, ?_⟩
      · have hfits := (hasRoom_cons.mp hroom).2 [] ((List.mem_inits _ _).mpr List.nil_prefix)
        exact absurd hfits (Nat.not_lt.mpr hlimit)
      · rw [insertAll, List.foldlM_cons, hpanic]
        rfl

omit [VectorMath] in
/-- Members whose tokens fit beside the whole corpus have room. -/
theorem Sound.hasRoom {engine : VersionEngine M} (h : engine.Sound)
    {members : List (IndexMember M P)}
    (hfits : engine.tokens + (members.map fun member => member.content.tokens).sum < usizeLimit) :
    engine.HasRoom members := by
  -- What a batch replaces only takes tokens away.
  intro done hmem
  refine Nat.lt_of_le_of_lt ?_ hfits
  cases engine with
  | vector engine => exact Nat.zero_le _
  | fts engine =>
    have hkept := BTreeMap.sumBy_eraseAll_le DocumentTerms.length engine.documents
      (done.map IndexMember.id)
    have hsub : (done.map fun member => member.content.tokens).Sublist
        (members.map fun member => member.content.tokens) :=
      ((List.mem_inits _ _).mp hmem).sublist.map _
    have hsum := hsub.sum_le_sum fun _ _ => Nat.zero_le _
    have htotal := h.total
    simp only [tokensWith, tokens]
    omega

omit [VectorMath] in
/-- An empty engine has room for what fits a corpus. -/
theorem empty_hasRoom {config : IndexConfig} {members : List (IndexMember M P)}
    (hvalid : checkIndexConfig config = .ok ())
    (hcheck : ∀ member ∈ members, checkContent config member.content = .ok ()) :
    (empty config : VersionEngine M).HasRoom members ↔
      (members.map fun member => member.content.tokens).sum < usizeLimit := by
  constructor
  · intro hroom
    have hall := hroom members ((List.mem_inits _ _).mpr (List.prefix_refl _))
    cases config with
    | vector config =>
      have hzero : (members.map fun member => member.content.tokens).sum = 0 := by
        refine List.sum_eq_zero fun tokens htokens => ?_
        obtain ⟨member, hmem, rfl⟩ := List.mem_map.mp htokens
        have hcontent := hcheck member hmem
        cases hkind : member.content with
        | vector components => rfl
        | document text =>
          rw [hkind] at hcontent
          cases hcontent
      rw [hzero]
      decide
    | fts config => exact Nat.lt_of_le_of_lt (Nat.le_add_left _ _) hall
  · intro hfits
    refine (empty_sound hvalid).hasRoom ?_
    rwa [empty_tokens, Nat.zero_add]

end Mutation

end VersionEngine

end Heurema
