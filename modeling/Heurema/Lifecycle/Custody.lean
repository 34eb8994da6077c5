import Heurema.Lifecycle.Trace
import Mathlib.Data.List.Induction

/-! # The custody of staged data

Where the data of every stage that took effect is after any further writes: still staged,
published, destroyed with its index, or in one entry of quarantine. The ledger follows the
writes alone; that the contents of a backend agree with it is the theorem. -/

namespace Heurema

/-- What became of the data of a stage. -/
inductive Fate where
  | staged
  | published
  /-- Published, and its index destroyed since. -/
  | destroyed
  | quarantined (sequence : Nat)
deriving DecidableEq

structure Custody where
  write : StageWrite
  fate : Fate
deriving DecidableEq

namespace Custody

/-- Whether the custody is of the staged version of a place. -/
def StagedAt (custody : Custody) (index : IndexIdentity) (version : IndexVersion) : Prop :=
  custody.fate = .staged ∧ custody.write.index = index ∧ custody.write.version = version

instance (custody : Custody) (index : IndexIdentity) (version : IndexVersion) :
    Decidable (custody.StagedAt index version) := inferInstanceAs (Decidable (_ ∧ _ ∧ _))

/-- The staged version of a place meets its fate. -/
def settle (index : IndexIdentity) (version : IndexVersion) (fate : Fate) (custody : Custody) :
    Custody :=
  if custody.StagedAt index version then { custody with fate } else custody

/-- The published versions of an index are destroyed with it. -/
def destroy (index : IndexIdentity) (custody : Custody) : Custody :=
  if custody.fate = .published ∧ custody.write.index = index then
    { custody with fate := .destroyed }
  else custody

def sequence (custody : Custody) : Option Nat :=
  match custody.fate with
  | .quarantined sequence => some sequence
  | _ => none

end Custody

/-- The custody of every stage, in the order of the stages, and the quarantines so far. -/
structure Ledger where
  custodies : List Custody
  quarantines : List QuarantineWrite

namespace Ledger

def empty : Ledger := ⟨[], []⟩

/-- The ledger after a write that took effect. -/
def record (ledger : Ledger) : Write → Ledger
  | .stage write => { ledger with custodies := ledger.custodies ++ [⟨write, .staged⟩] }
  | .publish write => { ledger with
      custodies := ledger.custodies.map (Custody.settle write.index write.version .published) }
  | .destroy write => { ledger with
      custodies := ledger.custodies.map (Custody.destroy write.index) }
  | .quarantine write => {
      custodies := ledger.custodies.map (Custody.settle write.index write.version
        (.quarantined (ledger.quarantines.length + 1)))
      quarantines := ledger.quarantines ++ [write] }

/-- The ledger of a list of writes. -/
def ofWrites (writes : List Write) : Ledger := writes.foldl record empty

@[simp] theorem ofWrites_append (writes : List Write) (write : Write) :
    ofWrites (writes ++ [write]) = (ofWrites writes).record write := by
  simp [ofWrites]

end Ledger

/-! ## How custody goes on -/

def Write.staged? : Write → Option StageWrite
  | .stage write => some write
  | _ => none

def Write.quarantined? : Write → Option QuarantineWrite
  | .quarantine write => some write
  | _ => none

/-- Whether a write destroys an index. -/
def Write.Destroys (index : IndexIdentity) : Write → Prop
  | .destroy write => write.index = index
  | _ => False

namespace Custody

variable {index : IndexIdentity} {version : IndexVersion} {fate : Fate} {custody : Custody}

theorem settle_staged (h : custody.StagedAt index version) :
    custody.settle index version fate = { custody with fate } := if_pos h

theorem settle_other (h : ¬ custody.StagedAt index version) :
    custody.settle index version fate = custody := if_neg h

@[simp] theorem settle_write : (custody.settle index version fate).write = custody.write := by
  unfold settle
  split <;> rfl

@[simp] theorem destroy_write : (custody.destroy index).write = custody.write := by
  unfold destroy
  split <;> rfl

/-- How the custody of a stage goes on while writes take effect: it keeps its data, what is
in quarantine stays there under its number, and what is published is so until the index is
destroyed. -/
structure GoesOn (custody : Custody) (writes : List Write) (later : Custody) : Prop where
  write : later.write = custody.write
  quarantined : ∀ sequence, custody.fate = .quarantined sequence → later.fate = custody.fate
  published : custody.fate = .published → later.fate = .published ∨ later.fate = .destroyed
  destroyed : custody.fate = .destroyed → later.fate = .destroyed
  until_destroy : later.fate = .destroyed → custody.fate ≠ .destroyed →
    ∃ write ∈ writes, write.Destroys custody.write.index

namespace GoesOn

variable {writes more : List Write} {later last : Custody}

theorem refl (custody : Custody) (writes : List Write) : custody.GoesOn writes custody where
  write := rfl
  quarantined _ _ := rfl
  published hfate := .inl hfate
  destroyed hfate := hfate
  until_destroy hfate hnot := absurd hfate hnot

theorem trans (h : custody.GoesOn writes later) (h' : later.GoesOn more last) :
    custody.GoesOn (writes ++ more) last where
  write := h'.write.trans h.write
  quarantined sequence hfate := by
    have hlater := h.quarantined sequence hfate
    exact (h'.quarantined sequence (hlater.trans hfate)).trans hlater
  published hfate := by
    rcases h.published hfate with hlater | hlater
    · exact h'.published hlater
    · exact .inr (h'.destroyed hlater)
  destroyed hfate := h'.destroyed (h.destroyed hfate)
  until_destroy hlast hnot := by
    by_cases hlater : later.fate = .destroyed
    · obtain ⟨write, hwrite, hdestroys⟩ := h.until_destroy hlater hnot
      exact ⟨write, List.mem_append_left _ hwrite, hdestroys⟩
    · obtain ⟨write, hwrite, hdestroys⟩ := h'.until_destroy hlast hlater
      rw [h.write] at hdestroys
      exact ⟨write, List.mem_append_right _ hwrite, hdestroys⟩

theorem settle (custody : Custody) (writes : List Write) (hfate : fate ≠ .destroyed) :
    custody.GoesOn writes (custody.settle index version fate) := by
  by_cases hat : custody.StagedAt index version
  · rw [settle_staged hat]
    have hstaged := hat.1
    constructor
    · rfl
    · intro sequence hquarantined
      rw [hstaged] at hquarantined
      cases hquarantined
    · intro hpublished
      rw [hstaged] at hpublished
      cases hpublished
    · intro hdestroyed
      rw [hstaged] at hdestroyed
      cases hdestroyed
    · intro hdestroyed _
      exact absurd hdestroyed hfate
  · rw [settle_other hat]
    exact refl custody writes

theorem destroy (custody : Custody) (write : DestroyWrite) :
    custody.GoesOn [.destroy write] (custody.destroy write.index) := by
  unfold Custody.destroy
  split
  · next hpublished =>
    obtain ⟨hfate, hindex⟩ := hpublished
    constructor
    · rfl
    · intro sequence hquarantined
      rw [hfate] at hquarantined
      cases hquarantined
    · intro _
      exact .inr rfl
    · intro _
      rfl
    · intro _ _
      exact ⟨_, List.mem_singleton_self _, hindex.symm⟩
  · exact refl custody _

end GoesOn

end Custody

namespace Ledger

/-- A write leaves every custody at its place in the ledger. -/
theorem record_goesOn (ledger : Ledger) (write : Write) {place : Nat} {custody : Custody}
    (h : ledger.custodies[place]? = some custody) : ∃ later,
    (ledger.record write).custodies[place]? = some later ∧ custody.GoesOn [write] later := by
  have hmap (f : Custody → Custody) : (ledger.custodies.map f)[place]? = some (f custody) := by
    rw [List.getElem?_map, h, Option.map_some]
  cases write with
  | stage write =>
    refine ⟨custody, ?_, .refl _ _⟩
    show (ledger.custodies ++ _)[place]? = _
    rw [List.getElem?_append_left (List.getElem?_eq_some_iff.mp h).1]
    exact h
  | publish write => exact ⟨_, hmap _, .settle custody _ (by decide)⟩
  | destroy write => exact ⟨_, hmap _, .destroy custody write⟩
  | quarantine write => exact ⟨_, hmap _, .settle custody _ (by simp)⟩

/-- Whatever writes take effect later, every custody goes on at its place in the ledger. -/
theorem ofWrites_goesOn {writes : List Write} {place : Nat} {custody : Custody}
    (h : (ofWrites writes).custodies[place]? = some custody) (more : List Write) : ∃ later,
    (ofWrites (writes ++ more)).custodies[place]? = some later ∧ custody.GoesOn more later := by
  induction more using List.reverseRecOn with
  | nil => exact ⟨custody, by rwa [List.append_nil], .refl _ _⟩
  | append_singleton more write ih =>
    obtain ⟨later, hlater, hgoes⟩ := ih
    obtain ⟨last, hlast, hgoes'⟩ := record_goesOn _ write hlater
    refine ⟨last, ?_, hgoes.trans hgoes'⟩
    rw [← List.append_assoc, ofWrites_append]
    exact hlast

/-- The custodies are those of the stages, in order. -/
theorem ofWrites_stages (writes : List Write) :
    (ofWrites writes).custodies.map (·.write) = writes.filterMap Write.staged? := by
  induction writes using List.reverseRecOn with
  | nil => rfl
  | append_singleton writes write ih =>
    rw [ofWrites_append, List.filterMap_append, ← ih]
    cases write <;> simp [record, Write.staged?, Function.comp_def]

theorem ofWrites_quarantines (writes : List Write) :
    (ofWrites writes).quarantines = writes.filterMap Write.quarantined? := by
  induction writes using List.reverseRecOn with
  | nil => rfl
  | append_singleton writes write ih =>
    rw [ofWrites_append, List.filterMap_append, ← ih]
    cases write <;> simp [record, Write.quarantined?]

end Ledger

/-! ## What the contents show -/

/-- What the contents hold of the data of a stage. -/
def Custody.Held (custody : Custody) (store : Store) : Prop :=
  match custody.fate with
  | .staged =>
    store.staged custody.write.index = some (custody.write.version, custody.write.marker) ∧
      store.payloads (custody.write.index, custody.write.version) = some custody.write.payload
  | .published =>
    store.payloads (custody.write.index, custody.write.version) = some custody.write.payload ∧
      store.markers (custody.write.index, custody.write.version) = none
  | .destroyed => True
  | .quarantined sequence => store.quarantined[sequence - 1]? = some {
      sequence
      index := custody.write.index
      version := custody.write.version
      marker := custody.write.marker
      payload := some custody.write.payload }

/-- A ledger that accounts for the contents: every stage is where its fate says, no two are
in one place, and nothing else is staged or in quarantine. -/
structure Ledger.Accounts (ledger : Ledger) (store : Store) : Prop where
  held : ∀ custody ∈ ledger.custodies, custody.Held store
  staged : ∀ index version marker, store.staged index = some (version, marker) →
    ∃ custody ∈ ledger.custodies, custody.StagedAt index version
  once : ledger.custodies.Pairwise fun custody other => custody.fate = .staged →
    other.fate = .staged → custody.write.index ≠ other.write.index
  apart : ledger.custodies.Pairwise fun custody other => custody.fate = .published →
    other.fate = .published →
      (custody.write.index, custody.write.version) ≠ (other.write.index, other.write.version)
  sequences : (ledger.custodies.filterMap Custody.sequence).Perm
    (List.range' QuarantinedEntry.FIRST_SEQUENCE ledger.quarantines.length)
  quarantined : store.quarantined.map (fun entry =>
    (⟨entry.index, entry.version, entry.marker⟩ : QuarantineWrite)) = ledger.quarantines

namespace Custody

variable {custody : Custody} {store store' : Store}

/-- What is held depends on the staged version of the index, on one payload, and on the
entries of quarantine so far. -/
theorem Held.frame (h : custody.Held store)
    (hstaged : store'.staged custody.write.index = store.staged custody.write.index)
    (hpayload : store'.payloads (custody.write.index, custody.write.version) =
      store.payloads (custody.write.index, custody.write.version))
    (hquarantined : store.quarantined <+: store'.quarantined) : custody.Held store' := by
  unfold Held at h ⊢
  split at h
  · rw [hstaged, hpayload]
    exact h
  · rw [Store.markers, hstaged, hpayload]
    exact h
  · trivial
  · obtain ⟨later, hlater⟩ := hquarantined
    rw [← hlater, List.getElem?_append_left (List.getElem?_eq_some_iff.mp h).1]
    exact h

/-- What is in quarantine stays held while quarantine grows. -/
theorem Held.quarantined {sequence : Nat} (h : custody.Held store)
    (hfate : custody.fate = .quarantined sequence)
    (hquarantined : store.quarantined <+: store'.quarantined) : custody.Held store' := by
  unfold Held at h ⊢
  rw [hfate] at h ⊢
  obtain ⟨later, hlater⟩ := hquarantined
  have h : store.quarantined[sequence - 1]? = some _ := h
  show store'.quarantined[sequence - 1]? = some _
  rw [← hlater, List.getElem?_append_left (List.getElem?_eq_some_iff.mp h).1]
  exact h

end Custody

namespace Ledger.Accounts

variable {ledger : Ledger} {store : Store}

theorem empty : Ledger.empty.Accounts .empty where
  held custody hcustody := by cases hcustody
  staged index version marker hstaged := by cases hstaged
  once := .nil
  apart := .nil
  sequences := .refl _
  quarantined := rfl

theorem length (h : ledger.Accounts store) :
    ledger.quarantines.length = store.quarantined.length := by
  rw [← h.quarantined, List.length_map]

/-- The staged custody of a place has the marker stored there. -/
theorem marker (h : ledger.Accounts store) {custody : Custody}
    (hcustody : custody ∈ ledger.custodies) {index : IndexIdentity} {version : IndexVersion}
    (hat : custody.StagedAt index version) :
    store.staged index = some (version, custody.write.marker) ∧
      store.payloads (index, version) = some custody.write.payload := by
  obtain ⟨hfate, rfl, rfl⟩ := hat
  have hheld := h.held custody hcustody
  rwa [Custody.Held, hfate] at hheld

/-! ### Stages -/

theorem stage (h : ledger.Accounts store) {write : StageWrite}
    (hcheck : store.check (.stage write) = .ok ()) :
    (ledger.record (.stage write)).Accounts (store.commit (.stage write)) := by
  obtain ⟨_, hstaged, hpayload, _⟩ := Store.check_stage.mp hcheck
  have hfree : ∀ custody ∈ ledger.custodies, custody.fate = .staged →
      custody.write.index ≠ write.index := by
    intro custody hcustody hfate heq
    have hheld := (h.marker hcustody ⟨hfate, heq, rfl⟩).1
    rw [hstaged] at hheld
    cases hheld
  constructor
  case held =>
    intro custody hcustody
    rcases List.mem_append.mp hcustody with hcustody | hnew
    · have hheld := h.held custody hcustody
      by_cases hindex : custody.write.index = write.index
      · cases hfate : custody.fate with
        | staged => exact absurd hindex (hfree custody hcustody hfate)
        | published =>
          simp only [Custody.Held, hfate] at hheld ⊢
          have hversion : custody.write.version ≠ write.version := by
            intro heq
            rw [hindex, heq, hpayload] at hheld
            cases hheld.1
          rw [hindex] at hheld ⊢
          simp only [Store.commit, Store.markers]
          simp [hversion, hheld.1, Ne.symm hversion]
        | destroyed => simp only [Custody.Held, hfate]
        | quarantined sequence => exact hheld.quarantined hfate (List.prefix_refl _)
      · refine hheld.frame ?_ ?_ (List.prefix_refl _)
        · simp [Store.commit, hindex]
        · simp [Store.commit, hindex]
    · obtain rfl := List.mem_singleton.mp hnew
      simp [Custody.Held, Store.commit]
  case staged =>
    intro index version marker hlookup
    by_cases hindex : index = write.index
    · subst hindex
      simp only [Store.commit, Function.update_self, Option.some.injEq, Prod.mk.injEq] at hlookup
      exact ⟨⟨write, .staged⟩, List.mem_append_right _ List.mem_cons_self, rfl, rfl, hlookup.1⟩
    · simp only [Store.commit, Function.update_of_ne hindex] at hlookup
      obtain ⟨custody, hcustody, hat⟩ := h.staged index version marker hlookup
      exact ⟨custody, List.mem_append_left _ hcustody, hat⟩
  case once =>
    refine List.pairwise_append.mpr ⟨h.once, List.pairwise_singleton _ _, ?_⟩
    intro custody hcustody other hother hfate _
    obtain rfl := List.mem_singleton.mp hother
    exact hfree custody hcustody hfate
  case apart =>
    refine List.pairwise_append.mpr ⟨h.apart, List.pairwise_singleton _ _, ?_⟩
    intro custody _ other hother _ hpublished
    obtain rfl := List.mem_singleton.mp hother
    cases hpublished
  case sequences =>
    have hnew : [(⟨write, .staged⟩ : Custody)].filterMap Custody.sequence = [] := rfl
    show ((ledger.custodies ++ [(⟨write, .staged⟩ : Custody)]).filterMap Custody.sequence).Perm _
    rw [List.filterMap_append, hnew, List.append_nil]
    exact h.sequences
  case quarantined => exact h.quarantined

/-! ### Staged versions that meet their fate -/

/-- The staged version of an index is in the custody of one stage. -/
theorem split (h : ledger.Accounts store) {index : IndexIdentity} {version : IndexVersion}
    {marker : Bytes} (hstaged : store.staged index = some (version, marker)) :
    ∃ before custody after, ledger.custodies = before ++ custody :: after ∧
      custody.StagedAt index version ∧
      ∀ other ∈ before ++ after, ¬ (other.fate = .staged ∧ other.write.index = index) := by
  obtain ⟨custody, hcustody, hat⟩ := h.staged index version marker hstaged
  obtain ⟨before, after, hsplit⟩ := List.append_of_mem hcustody
  refine ⟨before, custody, after, hsplit, hat, ?_⟩
  have honce := h.once
  rw [hsplit, List.pairwise_append, List.pairwise_cons] at honce
  obtain ⟨_, ⟨hafter, _⟩, hbefore⟩ := honce
  obtain ⟨hfate, hindex, _⟩ := hat
  intro other hother hstaged
  obtain ⟨hotherFate, hotherIndex⟩ := hstaged
  rcases List.mem_append.mp hother with hother | hother
  · exact hbefore other hother custody List.mem_cons_self hotherFate hfate
      (hotherIndex.trans hindex.symm)
  · exact hafter other hother hfate hotherFate (hindex.trans hotherIndex.symm)

/-- Only that custody changes. -/
theorem map_settle {index : IndexIdentity} {version : IndexVersion} {fate : Fate}
    {before after : List Custody} {custody : Custody}
    (hsplit : ledger.custodies = before ++ custody :: after)
    (hat : custody.StagedAt index version)
    (hothers : ∀ other ∈ before ++ after, ¬ (other.fate = .staged ∧ other.write.index = index)) :
    ledger.custodies.map (Custody.settle index version fate) =
      before ++ { custody with fate } :: after := by
  have hkeep (others : List Custody) (hsub : ∀ other ∈ others, other ∈ before ++ after) :
      others.map (Custody.settle index version fate) = others := by
    calc others.map (Custody.settle index version fate)
        = others.map id := List.map_congr_left fun other hother =>
          Custody.settle_other fun hat => hothers other (hsub other hother) ⟨hat.1, hat.2.1⟩
      _ = others := List.map_id others
  rw [hsplit, List.map_append, List.map_cons, Custody.settle_staged hat,
    hkeep before fun other hother => List.mem_append_left _ hother,
    hkeep after fun other hother => List.mem_append_right _ hother]

/-- What is left once the staged version of an index has met its fate: the other custodies
are held where they were, and no stage of the index is. -/
theorem settled_held (h : ledger.Accounts store) {store' : Store} {index : IndexIdentity}
    {version : IndexVersion} {marker : Bytes}
    (hstaged : store.staged index = some (version, marker))
    (hclear : store'.staged = Function.update store.staged index none)
    (hpayloads : ∀ place, place ≠ (index, version) → store'.payloads place = store.payloads place)
    (hquarantined : store.quarantined <+: store'.quarantined) {other : Custody}
    (hother : other ∈ ledger.custodies)
    (hnot : ¬ (other.fate = .staged ∧ other.write.index = index)) : other.Held store' := by
  have hheld := h.held other hother
  by_cases hindex : other.write.index = index
  · cases hfate : other.fate with
    | staged => exact absurd ⟨hfate, hindex⟩ hnot
    | published =>
      simp only [Custody.Held, hfate] at hheld ⊢
      obtain ⟨hpayload, hmarker⟩ := hheld
      have hplace : (other.write.index, other.write.version) ≠ (index, version) := by
        intro heq
        rw [heq, Store.markers_eq_some.mpr hstaged] at hmarker
        cases hmarker
      refine ⟨(hpayloads _ hplace).trans hpayload, ?_⟩
      rw [Store.markers, hclear, hindex, Function.update_self]
      rfl
    | destroyed => simp only [Custody.Held, hfate]
    | quarantined sequence => exact hheld.quarantined hfate hquarantined
  · refine hheld.frame ?_ (hpayloads _ ?_) hquarantined
    · rw [hclear, Function.update_of_ne hindex]
    · intro heq
      exact hindex (congrArg Prod.fst heq)

/-- What is staged after the staged version of an index met its fate was staged before. -/
theorem settled_staged (h : ledger.Accounts store) {store' : Store} {index : IndexIdentity}
    {version : IndexVersion} {fate : Fate} {before after : List Custody} {custody : Custody}
    (hsplit : ledger.custodies = before ++ custody :: after)
    (hat : custody.StagedAt index version)
    (hclear : store'.staged = Function.update store.staged index none) :
    ∀ other v marker, store'.staged other = some (v, marker) →
      ∃ held ∈ before ++ { custody with fate } :: after, held.StagedAt other v := by
  intro other v marker hlookup
  have hne : other ≠ index := by
    rintro rfl
    rw [hclear, Function.update_self] at hlookup
    cases hlookup
  rw [hclear, Function.update_of_ne hne] at hlookup
  obtain ⟨held, hheld, heldAt⟩ := h.staged other v marker hlookup
  refine ⟨held, ?_, heldAt⟩
  rw [hsplit] at hheld
  rcases List.mem_append.mp hheld with hheld | hheld
  · exact List.mem_append_left _ hheld
  · rcases List.mem_cons.mp hheld with rfl | hheld
    · exact absurd (heldAt.2.1.symm.trans hat.2.1) hne
    · exact List.mem_append_right _ (List.mem_cons_of_mem _ hheld)

/-- Custodies apart in some respect stay so when one of them leaves it. -/
theorem pairwise_settled {before after : List Custody} {custody : Custody} {fate kind : Fate}
    {apart : Custody → Custody → Prop} (hne : fate ≠ kind)
    (h : (before ++ custody :: after).Pairwise fun custody other =>
      custody.fate = kind → other.fate = kind → apart custody other) :
    (before ++ { custody with fate } :: after).Pairwise fun custody other =>
      custody.fate = kind → other.fate = kind → apart custody other := by
  rw [List.pairwise_append, List.pairwise_cons] at h ⊢
  obtain ⟨hbefore, ⟨_, hafter⟩, hacross⟩ := h
  refine ⟨hbefore, ⟨fun _ _ hkind => absurd hkind hne, hafter⟩, ?_⟩
  intro other hother held hheld
  rcases List.mem_cons.mp hheld with rfl | hheld
  · exact fun _ hkind => absurd hkind hne
  · exact hacross other hother held (List.mem_cons_of_mem _ hheld)

theorem publish (h : ledger.Accounts store) {write : PublishWrite}
    (hcheck : store.check (.publish write) = .ok ()) :
    (ledger.record (.publish write)).Accounts (store.commit (.publish write)) := by
  obtain ⟨_, hstaged, _, _⟩ := Store.check_publish.mp hcheck
  obtain ⟨before, custody, after, hsplit, hat, hothers⟩ := h.split hstaged
  have hcustodies : (ledger.record (.publish write)).custodies =
      before ++ { custody with fate := .published } :: after := map_settle hsplit hat hothers
  have hclear : (store.commit (.publish write)).staged =
      Function.update store.staged write.index none := rfl
  have hmem : custody ∈ ledger.custodies := by
    rw [hsplit]
    exact List.mem_append_right _ List.mem_cons_self
  have hrest : ∀ other ∈ before ++ after, other ∈ ledger.custodies := by
    intro other hother
    rw [hsplit]
    rcases List.mem_append.mp hother with hother | hother
    · exact List.mem_append_left _ hother
    · exact List.mem_append_right _ (List.mem_cons_of_mem _ hother)
  have hrestHeld : ∀ other ∈ before ++ after, other.Held (store.commit (.publish write)) := by
    intro other hother
    exact h.settled_held hstaged hclear (fun _ _ => rfl) (List.prefix_refl _)
      (hrest other hother) (hothers other hother)
  have hpayload := (h.marker hmem hat).2
  obtain ⟨hfate, hindex, hversion⟩ := hat
  constructor
  case held =>
    rw [hcustodies]
    intro other hother
    rcases List.mem_append.mp hother with hother | hother
    · exact hrestHeld other (List.mem_append_left _ hother)
    · rcases List.mem_cons.mp hother with rfl | hother
      · show store.payloads (custody.write.index, custody.write.version) = _ ∧
          (store.commit (.publish write)).markers _ = none
        rw [hindex, hversion]
        refine ⟨hpayload, ?_⟩
        rw [Store.markers, hclear, Function.update_self]
        rfl
      · exact hrestHeld other (List.mem_append_right _ hother)
  case staged =>
    rw [hcustodies]
    exact h.settled_staged hsplit ⟨hfate, hindex, hversion⟩ hclear
  case once =>
    rw [hcustodies]
    have honce := h.once
    rw [hsplit] at honce
    exact pairwise_settled (by decide) honce
  case apart =>
    -- A version published before has no marker, and this one had.
    have hfresh : ∀ other ∈ before ++ after, other.fate = .published →
        (other.write.index, other.write.version) ≠ (write.index, write.version) := by
      intro other hother hpublished heq
      have hheld := h.held other (hrest other hother)
      simp only [Custody.Held, hpublished] at hheld
      rw [heq, Store.markers_eq_some.mpr hstaged] at hheld
      cases hheld.2
    have hapart := h.apart
    rw [hcustodies, List.pairwise_append, List.pairwise_cons]
    rw [hsplit, List.pairwise_append, List.pairwise_cons] at hapart
    obtain ⟨hbefore, ⟨_, hafter⟩, hacross⟩ := hapart
    refine ⟨hbefore, ⟨?_, hafter⟩, ?_⟩
    · intro other hother _ hpublished heq
      rw [hindex, hversion] at heq
      exact hfresh other (List.mem_append_right _ hother) hpublished heq.symm
    · intro other hother held hheld
      rcases List.mem_cons.mp hheld with rfl | hheld
      · intro hpublished _ heq
        rw [hindex, hversion] at heq
        exact hfresh other (List.mem_append_left _ hother) hpublished heq
      · exact hacross other hother held (List.mem_cons_of_mem _ hheld)
  case sequences =>
    rw [hcustodies]
    have hsequences := h.sequences
    rw [hsplit] at hsequences
    have hnone : custody.sequence = none := by simp only [Custody.sequence, hfate]
    rw [List.filterMap_append, List.filterMap_cons_none hnone] at hsequences
    rw [List.filterMap_append, List.filterMap_cons_none rfl]
    exact hsequences
  case quarantined => exact h.quarantined

theorem quarantine (h : ledger.Accounts store) (hnumbered : store.Numbered)
    {write : QuarantineWrite} (hcheck : store.check (.quarantine write) = .ok ()) :
    (ledger.record (.quarantine write)).Accounts (store.commit (.quarantine write)) := by
  obtain ⟨hstaged, _⟩ := Store.check_quarantine.mp hcheck
  obtain ⟨before, custody, after, hsplit, hat, hothers⟩ := h.split hstaged
  have hcustodies : (ledger.record (.quarantine write)).custodies =
      before ++ { custody with fate := .quarantined (ledger.quarantines.length + 1) } :: after :=
    map_settle hsplit hat hothers
  have hclear : (store.commit (.quarantine write)).staged =
      Function.update store.staged write.index none := rfl
  have hmem : custody ∈ ledger.custodies := by
    rw [hsplit]
    exact List.mem_append_right _ List.mem_cons_self
  have hrest : ∀ other ∈ before ++ after, other ∈ ledger.custodies := by
    intro other hother
    rw [hsplit]
    rcases List.mem_append.mp hother with hother | hother
    · exact List.mem_append_left _ hother
    · exact List.mem_append_right _ (List.mem_cons_of_mem _ hother)
  have hrestHeld : ∀ other ∈ before ++ after, other.Held (store.commit (.quarantine write)) := by
    intro other hother
    refine h.settled_held hstaged hclear ?_ (List.prefix_append _ _) (hrest other hother)
      (hothers other hother)
    intro place hplace
    exact Function.update_of_ne hplace _ _
  obtain ⟨hmarker, hpayload⟩ := h.marker hmem hat
  obtain ⟨hfate, hindex, hversion⟩ := hat
  have hmarker : custody.write.marker = write.marker := by
    rw [hstaged] at hmarker
    exact (Prod.mk.inj (Option.some.inj hmarker)).2.symm
  constructor
  case held =>
    rw [hcustodies]
    intro other hother
    rcases List.mem_append.mp hother with hother | hother
    · exact hrestHeld other (List.mem_append_left _ hother)
    · rcases List.mem_cons.mp hother with rfl | hother
      · show (store.commit (.quarantine write)).quarantined[
          ledger.quarantines.length + 1 - 1]? = some _
        rw [Nat.add_sub_cancel, h.length]
        simp only [Store.commit]
        rw [List.getElem?_concat_length, hnumbered.sequence, hpayload, hmarker, hindex, hversion]
      · exact hrestHeld other (List.mem_append_right _ hother)
  case staged =>
    rw [hcustodies]
    exact h.settled_staged hsplit ⟨hfate, hindex, hversion⟩ hclear
  case once =>
    rw [hcustodies]
    have honce := h.once
    rw [hsplit] at honce
    exact pairwise_settled (by simp) honce
  case apart =>
    rw [hcustodies]
    have hapart := h.apart
    rw [hsplit] at hapart
    exact pairwise_settled (by simp) hapart
  case sequences =>
    rw [hcustodies]
    have hsequences := h.sequences
    rw [hsplit] at hsequences
    have hnone : custody.sequence = none := by simp only [Custody.sequence, hfate]
    rw [List.filterMap_append, List.filterMap_cons_none hnone] at hsequences
    have hlength : (ledger.record (.quarantine write)).quarantines.length =
        ledger.quarantines.length + 1 := by simp [Ledger.record]
    have hsome : Custody.sequence
        { custody with fate := .quarantined (ledger.quarantines.length + 1) } =
          some (ledger.quarantines.length + 1) := rfl
    rw [List.filterMap_append, List.filterMap_cons_some hsome, hlength, List.range'_concat]
    have hlast : QuarantinedEntry.FIRST_SEQUENCE + 1 * ledger.quarantines.length =
        ledger.quarantines.length + 1 := by
      unfold QuarantinedEntry.FIRST_SEQUENCE
      omega
    rw [hlast]
    exact List.perm_middle.trans
      ((hsequences.cons _).trans (List.perm_append_singleton _ _).symm)
  case quarantined =>
    show (store.quarantined ++ [_]).map _ = ledger.quarantines ++ [write]
    rw [List.map_append, h.quarantined]
    rfl

/-! ### Destroys -/

theorem destroy (h : ledger.Accounts store) {write : DestroyWrite}
    (hcheck : store.check (.destroy write) = .ok ()) :
    (ledger.record (.destroy write)).Accounts (store.commit (.destroy write)) := by
  obtain ⟨_, hstaged, _⟩ := Store.check_destroy.mp hcheck
  have hfate {custody : Custody} {fate : Fate} (hne : fate ≠ .destroyed)
      (hafter : (custody.destroy write.index).fate = fate) : custody.fate = fate := by
    unfold Custody.destroy at hafter
    split at hafter
    · exact absurd hafter.symm hne
    · exact hafter
  constructor
  case held =>
    intro other hother
    obtain ⟨custody, hcustody, rfl⟩ := List.mem_map.mp hother
    have hheld := h.held custody hcustody
    unfold Custody.destroy
    split
    · trivial
    · next hkept =>
      by_cases hindex : custody.write.index = write.index
      · cases hkind : custody.fate with
        | staged =>
          have hlookup := (h.marker hcustody ⟨hkind, hindex, rfl⟩).1
          rw [hstaged] at hlookup
          cases hlookup
        | published => exact absurd ⟨hkind, hindex⟩ hkept
        | destroyed => simp only [Custody.Held, hkind]
        | quarantined sequence => exact hheld.quarantined hkind (List.prefix_refl _)
      · refine hheld.frame rfl ?_ (List.prefix_refl _)
        simp [Store.commit, hindex]
  case staged =>
    intro index version marker hlookup
    obtain ⟨custody, hcustody, hat⟩ := h.staged index version marker hlookup
    refine ⟨custody.destroy write.index, List.mem_map_of_mem hcustody, ?_⟩
    have hsame : custody.destroy write.index = custody :=
      if_neg fun hpublished => by
        rw [hat.1] at hpublished
        cases hpublished.1
    rw [hsame]
    exact hat
  case once =>
    refine List.pairwise_map.mpr (h.once.imp ?_)
    intro custody other honce hfirst hsecond
    simp only [Custody.destroy_write]
    exact honce (hfate (by decide) hfirst) (hfate (by decide) hsecond)
  case apart =>
    refine List.pairwise_map.mpr (h.apart.imp ?_)
    intro custody other hapart hfirst hsecond
    simp only [Custody.destroy_write]
    exact hapart (hfate (by decide) hfirst) (hfate (by decide) hsecond)
  case sequences =>
    have hsame : Custody.sequence ∘ Custody.destroy write.index = Custody.sequence := by
      funext custody
      show (custody.destroy write.index).sequence = custody.sequence
      unfold Custody.destroy
      split
      · next hpublished => simp only [Custody.sequence, hpublished.1]
      · rfl
    show ((ledger.custodies.map (Custody.destroy write.index)).filterMap Custody.sequence).Perm _
    rw [List.filterMap_map, hsame]
    exact h.sequences
  case quarantined => exact h.quarantined

end Ledger.Accounts

/-- The ledger of the writes that took effect accounts for what they leave. -/
theorem Store.Run.accounts {writes : List Write} {store : Store} (h : Store.Run writes store) :
    (Ledger.ofWrites writes).Accounts store := by
  induction h with
  | empty => exact .empty
  | commit h hcheck ih =>
    rename_i write
    rw [Ledger.ofWrites_append]
    cases write with
    | stage write => exact ih.stage hcheck
    | publish write => exact ih.publish hcheck
    | destroy write => exact ih.destroy hcheck
    | quarantine write => exact ih.quarantine h.numbered hcheck

end Heurema
