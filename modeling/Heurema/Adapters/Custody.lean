import Heurema.Adapters.Atmis
import Heurema.Adapters.Thesauros
import Heurema.Lifecycle.Custody

/-! # Staged data is kept

What the calls of a backend show of the data of every stage, after any sequence of calls. -/

namespace Heurema

open LifecycleBackend (perform trace runAll)

/-- A call answers with a reply, and changes nothing. -/
def LifecycleBackend.Shows {σ : Type} [LifecycleBackend σ] (state : σ) (call : Call)
    (reply : call.Reply) : Prop :=
  (perform call).run state = (.ok reply, state)

/-- The writes of a sequence of calls that took effect, in order. -/
def LifecycleBackend.acceptedWrites {σ : Type} [LifecycleBackend σ] (state : σ)
    (calls : List Call) : List Write :=
  (trace state calls).filterMap CallStep.accepted

open LifecycleBackend (Shows acceptedWrites)

section Shown

variable {σ : Type} [LifecycleBackend σ]

/-- A backend shows the data of a stage where its fate says: its marker and payload staged
for its index, its payload published with nothing staged for its version, or both in the
entry of quarantine with its number. -/
def Custody.Shown (custody : Custody) (state : σ) : Prop :=
  match custody.fate with
  | .staged =>
    Shows state (.readStaging custody.write.index)
        (some (custody.write.version, custody.write.marker)) ∧
      Shows state (.readVersion custody.write.index custody.write.version)
        (some custody.write.payload)
  | .published =>
    Shows state (.readVersion custody.write.index custody.write.version)
        (some custody.write.payload) ∧
      ∃ staging, Shows state (.readStaging custody.write.index) staging ∧
        ∀ marker, staging ≠ some (custody.write.version, marker)
  | .destroyed => True
  | .quarantined sequence =>
    ∃ entries, Shows state .listQuarantined entries ∧ entries[sequence - 1]? = some {
      sequence
      index := custody.write.index
      version := custody.write.version
      marker := custody.write.marker
      payload := some custody.write.payload }

/-- A backend keeps the data of every stage of a list of writes: each is where its fate
says, no two are in one place, and nothing else is staged or in quarantine, whose entries
are numbered one after the other in the order they were moved there. -/
structure Keeps (state : σ) (writes : List Write) : Prop where
  stages : (Ledger.ofWrites writes).custodies.map (·.write) = writes.filterMap Write.staged?
  shown : ∀ custody ∈ (Ledger.ofWrites writes).custodies, custody.Shown state
  staged : ∀ index version marker,
    Shows state (.readStaging index) (some (version, marker)) →
      ∃ custody ∈ (Ledger.ofWrites writes).custodies, custody.StagedAt index version
  once : (Ledger.ofWrites writes).custodies.Pairwise fun custody other =>
    custody.fate = .staged → other.fate = .staged → custody.write.index ≠ other.write.index
  apart : (Ledger.ofWrites writes).custodies.Pairwise fun custody other =>
    custody.fate = .published → other.fate = .published →
      (custody.write.index, custody.write.version) ≠ (other.write.index, other.write.version)
  sequences : ((Ledger.ofWrites writes).custodies.filterMap Custody.sequence).Perm
    (List.range' 1 (writes.filterMap Write.quarantined?).length)
  entries : ∃ entries, Shows state .listQuarantined entries ∧
    entries.map (·.sequence) = List.range' 1 entries.length ∧
    entries.map (fun entry => (⟨entry.index, entry.version, entry.marker⟩ : QuarantineWrite)) =
      writes.filterMap Write.quarantined?

/-- What later calls leave of the data kept: every custody goes on at its place, and the
entries of quarantine stay as they are. -/
structure GoesOnKept (state : σ) (writes : List Write) (later : List Call) : Prop where
  keeps : Keeps (runAll state later) (writes ++ acceptedWrites state later)
  goesOn : ∀ (place : Nat) (custody : Custody), (Ledger.ofWrites writes).custodies[place]? = some custody →
    ∃ last, (Ledger.ofWrites (writes ++ acceptedWrites state later)).custodies[place]? =
      some last ∧ custody.GoesOn (acceptedWrites state later) last
  quarantined : ∃ entries more, Shows state .listQuarantined entries ∧
    Shows (runAll state later) .listQuarantined (entries ++ more)

/-- A backend that keeps the data staged by any calls, whatever calls come later. -/
def KeepsStaged (start : σ) : Prop :=
  ∀ calls later : List Call,
    Keeps (runAll start calls) (acceptedWrites start calls) ∧
      GoesOnKept (runAll start calls) (acceptedWrites start calls) later

end Shown

/-! ## From the contract -/

/-- No call removes or changes an entry of quarantine. -/
theorem Store.quarantined_after (store : Store) (limit : Option Nat) (call : Call) :
    store.quarantined <+: (store.after limit call).quarantined := by
  cases call with
  | write write =>
    show store.quarantined <+: (store.perform limit write).2.quarantined
    unfold Store.perform
    split
    · cases write with
      | quarantine write => exact List.prefix_append _ _
      | _ => exact List.prefix_refl _
    · exact List.prefix_refl _
  | _ => exact List.prefix_refl _

theorem Store.quarantined_afterAll (store : Store) (limit : Option Nat) (calls : List Call) :
    store.quarantined <+: (store.afterAll limit calls).quarantined := by
  induction calls generalizing store with
  | nil => exact List.prefix_refl _
  | cons call calls ih => exact (store.quarantined_after limit call).trans (ih _)

namespace Adapter

variable {σ : Type} [LifecycleBackend σ] {limit : Option Nat} {Represents : σ → Store → Prop}
  {state : σ} {store : Store}

theorem shows_staging (adapter : Adapter σ limit Represents) (h : Represents state store)
    (index : IndexIdentity) : Shows state (.readStaging index) (store.staged index) := by
  obtain ⟨reply, hrun, rfl⟩ := adapter.read h (.readStaging index) (by simp)
  exact hrun

theorem shows_head (adapter : Adapter σ limit Represents) (h : Represents state store)
    (index : IndexIdentity) : Shows state (.readHead index) (store.heads index) := by
  obtain ⟨reply, hrun, rfl⟩ := adapter.read h (.readHead index) (by simp)
  exact hrun

theorem shows_operation (adapter : Adapter σ limit Represents) (h : Represents state store)
    (index : IndexIdentity) (key : OperationKey) :
    Shows state (.readOperation index key) (store.records (index, key)) := by
  obtain ⟨reply, hrun, rfl⟩ := adapter.read h (.readOperation index key) (by simp)
  exact hrun

theorem shows_version (adapter : Adapter σ limit Represents) (h : Represents state store)
    (index : IndexIdentity) (version : IndexVersion) :
    Shows state (.readVersion index version) (store.payloads (index, version)) := by
  obtain ⟨reply, hrun, rfl⟩ := adapter.read h (.readVersion index version) (by simp)
  exact hrun

theorem shows_quarantined (adapter : Adapter σ limit Represents) (h : Represents state store) :
    Shows state .listQuarantined store.quarantined := by
  obtain ⟨reply, hrun, rfl⟩ := adapter.read h .listQuarantined (by simp)
  exact hrun

/-- What the contents hold is what the backend shows. -/
theorem shows_held (adapter : Adapter σ limit Represents) (h : Represents state store)
    {custody : Custody} (hheld : custody.Held store) : custody.Shown state := by
  have hstaging := adapter.shows_staging h custody.write.index
  have hversion := adapter.shows_version h custody.write.index custody.write.version
  cases hfate : custody.fate with
  | staged =>
    simp only [Custody.Held, hfate] at hheld
    simp only [Custody.Shown, hfate]
    obtain ⟨hstaged, hpayload⟩ := hheld
    rw [hstaged] at hstaging
    rw [hpayload] at hversion
    exact ⟨hstaging, hversion⟩
  | published =>
    simp only [Custody.Held, hfate] at hheld
    simp only [Custody.Shown, hfate]
    obtain ⟨hpayload, hmarker⟩ := hheld
    rw [hpayload] at hversion
    refine ⟨hversion, _, hstaging, ?_⟩
    intro marker hstaged
    rw [Store.markers_eq_some.mpr hstaged] at hmarker
    cases hmarker
  | destroyed => simp only [Custody.Shown, hfate]
  | quarantined sequence =>
    simp only [Custody.Held, hfate] at hheld
    simp only [Custody.Shown, hfate]
    exact ⟨_, adapter.shows_quarantined h, hheld⟩

/-- A backend whose contents are what writes leave keeps the data of their stages. -/
theorem keeps (adapter : Adapter σ limit Represents) (h : Represents state store)
    {writes : List Write} (hrun : Store.Run writes store) : Keeps state writes := by
  have haccounts := hrun.accounts
  have hquarantines := Ledger.ofWrites_quarantines writes
  constructor
  case stages => exact Ledger.ofWrites_stages writes
  case shown =>
    intro custody hcustody
    exact adapter.shows_held h (haccounts.held custody hcustody)
  case staged =>
    intro index version marker hshows
    have hstaging := adapter.shows_staging h index
    unfold Shows at hshows hstaging
    rw [hstaging] at hshows
    have hstaged := Except.ok.inj (congrArg Prod.fst hshows)
    exact haccounts.staged index version marker hstaged
  case once => exact haccounts.once
  case apart => exact haccounts.apart
  case sequences =>
    rw [← hquarantines]
    exact haccounts.sequences
  case entries =>
    refine ⟨_, adapter.shows_quarantined h, hrun.numbered.sequences, ?_⟩
    rw [haccounts.quarantined, hquarantines]

theorem goesOnKept (adapter : Adapter σ limit Represents) (h : Represents state store)
    {writes : List Write} (hrun : Store.Run writes store) (later : List Call) :
    GoesOnKept state writes later := by
  obtain ⟨store', h', hrun'⟩ := adapter.accepted_run h hrun later
  obtain ⟨more, hmore⟩ := store.quarantined_afterAll limit later
  have hafter := adapter.shows_quarantined (adapter.runAll_represents h later)
  rw [← hmore] at hafter
  exact {
    keeps := adapter.keeps h' hrun'
    goesOn := fun place custody hcustody => Ledger.ofWrites_goesOn hcustody _
    quarantined := ⟨_, more, adapter.shows_quarantined h, hafter⟩ }

theorem keeps_staged (adapter : Adapter σ limit Represents) (h : Represents state .empty) :
    KeepsStaged state := by
  intro calls later
  obtain ⟨store, hafter, hrun⟩ := adapter.accepted_run h .empty calls
  exact ⟨adapter.keeps hafter hrun, adapter.goesOnKept hafter hrun later⟩

end Adapter

/-- In both adapters, started empty, staged data is never lost or duplicated: after any calls
the data of each stage that took effect is staged, published, destroyed with its index, or in
one entry of quarantine, and later calls keep it so. -/
theorem staged_data_kept [Unicode] : KeepsStaged Atmis.LifecycleState.empty ∧
    ∀ limit, KeepsStaged (Thesauros.ThesaurosBackend.empty limit) := by
  refine ⟨Atmis.adapter.keeps_staged .empty, ?_⟩
  intro limit
  exact (Thesauros.adapter limit).keeps_staged (Thesauros.Represents.empty limit)

end Heurema
