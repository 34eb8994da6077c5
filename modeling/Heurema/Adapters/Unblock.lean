import Heurema.Adapters.Performed
import Heurema.Adapters.Readers
import Heurema.Adapters.Verdict
import Heurema.Lifecycle.Total

/-! # Quarantine unblocks an index

Once every staged version that is listed is in quarantine, nothing is staged, and every
index goes on from its head. -/

namespace Heurema

open Serde Hnsw Digest

open Outcome (refuse)

open LifecycleBackend (Shows)

open Driver (alone)

/-- The quarantine of a listed entry. -/
def StagedEntry.quarantine (entry : StagedEntry) : Write :=
  .quarantine ⟨entry.index, entry.version, entry.marker⟩

/-- Quarantines entries one after the other: the answers, and what they leave. -/
def quarantineAll {σ : Type} [LifecycleBackend σ] (state : σ × List Write) :
    List StagedEntry → List (Except HeuremaError Unit) × (σ × List Write)
  | [] => ([], state)
  | entry :: entries =>
    let (answer, after) := LifecycleBackend.act (.write entry.quarantine) state
    let (answers, last) := quarantineAll after entries
    (answer :: answers, last)

/-! ## Markers within a limit -/

/-- The markers that are staged fit a limit. -/
def Store.MarkersFit (store : Store) (limit : Option Nat) : Prop :=
  ∀ index version marker, store.staged index = some (version, marker) →
    refuseOversized limit [("a staging marker", marker.length)] = .ok ()

theorem refuseOversized_of_mem {limit : Option Nat} {sizes : List (String × Nat)}
    {size : String × Nat} (h : refuseOversized limit sizes = .ok ()) (hmem : size ∈ sizes) :
    refuseOversized limit [size] = .ok () := by
  cases limit with
  | none => exact refuseOversized_none _
  | some limit =>
    rw [refuseOversized_eq_ok] at h ⊢
    intro other hother
    rw [List.mem_singleton.mp hother]
    exact h size hmem

theorem refuseOversized_eq_error {limit : Option Nat} {sizes : List (String × Nat)}
    {refusal : HeuremaError} (h : refuseOversized limit sizes = .error refusal) :
    ∃ what len most, refusal = .persistence (.oversizedValue what len most) ∧ limit = some most ∧
      (what, len) ∈ sizes ∧ most < len := by
  cases limit with
  | none =>
    rw [refuseOversized_none] at h
    cases h
  | some most =>
    induction sizes with
    | nil => cases h
    | cons size sizes ih =>
      obtain ⟨what, len⟩ := size
      rw [refuseOversized] at h
      split at h
      · next hlarge =>
        cases h
        exact ⟨what, len, most, rfl, rfl, List.mem_cons_self, hlarge⟩
      · obtain ⟨what, len, most, hrefusal, hlimit, hmem, hlarge⟩ := ih h
        exact ⟨what, len, most, hrefusal, hlimit, List.mem_cons_of_mem _ hmem, hlarge⟩

/-- What is staged after a write was staged before it, or by it. -/
theorem Store.staged_commit {store : Store} {write : Write} {index : IndexIdentity}
    {version : IndexVersion} {marker : Bytes}
    (h : (store.commit write).staged index = some (version, marker)) :
    store.staged index = some (version, marker) ∨
      ∃ staging, write = .stage staging ∧ staging.marker = marker := by
  cases write with
  | stage write =>
    simp only [Store.commit, Function.update_apply] at h
    split at h
    · cases h
      exact .inr ⟨write, rfl, rfl⟩
    · exact .inl h
  | publish write =>
    simp only [Store.commit, Function.update_apply] at h
    split at h
    · cases h
    · exact .inl h
  | destroy write => exact .inl h
  | quarantine write =>
    simp only [Store.commit, Function.update_apply] at h
    split at h
    · cases h
    · exact .inl h

theorem Store.MarkersFit.commit {store : Store} {limit : Option Nat} (h : store.MarkersFit limit)
    {write : Write} (hadmitted : store.admits limit write = .ok ()) :
    (store.commit write).MarkersFit limit := by
  intro index version marker hstaged
  rcases Store.staged_commit hstaged with hbefore | hstage
  · exact h index version marker hbefore
  · obtain ⟨staging, rfl, rfl⟩ := hstage
    have hsizes := (Outcome.then_eq_ok.mp hadmitted).1
    exact refuseOversized_of_mem hsizes (List.mem_cons_of_mem _ List.mem_cons_self)

/-- An adapter only holds markers that fit its limit. -/
theorem Adapter.fitting {σ : Type} [LifecycleBackend σ] {limit : Option Nat}
    {Represents : σ → Store → Prop} (adapter : Adapter σ limit Represents) :
    Adapter σ limit fun state store => Represents state store ∧ store.MarkersFit limit where
  read h := adapter.read h.1
  refused h := adapter.refused h.1
  admitted := by
    intro state store h write hadmitted
    obtain ⟨after, hrun, hafter⟩ := adapter.admitted h.1 hadmitted
    exact ⟨after, hrun, hafter, Store.MarkersFit.commit h.2 hadmitted⟩

theorem Store.MarkersFit.empty (limit : Option Nat) : Store.empty.MarkersFit limit := by
  intro index version marker hstaged
  cases hstaged

/-! ## Quarantine of what is listed -/

/-- Entries name what is staged for indexes of their own. -/
structure Store.Lists (store : Store) (entries : List StagedEntry) : Prop where
  staged : ∀ entry ∈ entries, store.staged entry.index = some (entry.version, entry.marker)
  apart : entries.Pairwise fun entry other => entry.index ≠ other.index

/-- The entries of quarantine are numbered as long as there is a number for the next. -/
theorem Store.Numbered.next {store : Store} (h : store.Numbered) :
    (store.quarantined.length + 1 < UInt64.size → store.nextSequence = .ok store.sequence) ∧
      ∀ refusal, store.nextSequence = .error refusal →
        refusal = .persistence .quarantineSequenceExhausted := by
  have hnumber := h.sequence
  unfold Store.sequence at hnumber ⊢
  unfold Store.nextSequence QuarantinedEntry.following
  cases hlast : store.quarantined.getLast? with
  | none =>
    refine ⟨fun _ => rfl, ?_⟩
    intro refusal hrefused
    cases hrefused
  | some last =>
    rw [hlast] at hnumber
    have hnumber : last.sequence + 1 = store.quarantined.length + 1 := hnumber
    simp only [hnumber]
    constructor
    · intro hroom
      rw [if_pos hroom]
    · intro refusal hrefused
      split at hrefused
      · cases hrefused
      · exact (Except.error.inj hrefused).symm

section Quarantining

variable {σ : Type} [LifecycleBackend σ] {limit : Option Nat} {Represents : σ → Store → Prop}
  {state : σ × List Write} {store : Store} {entry : StagedEntry} {entries : List StagedEntry}

/-- What contents say of the quarantine of an entry that is staged. -/
theorem Store.admits_quarantine (hfit : store.MarkersFit limit)
    (hstaged : store.staged entry.index = some (entry.version, entry.marker)) :
    store.admits limit entry.quarantine = store.nextSequence.map fun _ => () := by
  have hsizes : refuseOversized limit entry.quarantine.sizes = .ok () := hfit _ _ _ hstaged
  have hmarker : store.checkMarker entry.index entry.version entry.marker = .ok () :=
    Store.checkMarker_eq_ok.mpr hstaged
  rw [Store.admits, hsizes, Outcome.ok_bind]
  simp only [StagedEntry.quarantine, Store.check, hmarker, Outcome.ok_bind]
  cases store.nextSequence <;> rfl

theorem act_quarantine (adapter : Adapter σ limit Represents) (h : Represents state.1 store) :
    ∃ after, LifecycleBackend.act (.write entry.quarantine) state =
        ((store.perform limit entry.quarantine).1, after) ∧
      Represents after.1 (store.perform limit entry.quarantine).2 := by
  obtain ⟨after, hrun, hafter, -⟩ := adapter.write_replies h entry.quarantine
  rw [LifecycleBackend.act, hrun]
  exact ⟨_, rfl, hafter⟩

/-- Quarantining an entry leaves the others listed. -/
theorem Store.Lists.commit (h : store.Lists (entry :: entries)) :
    (store.commit entry.quarantine).Lists entries := by
  obtain ⟨hentry, hapart⟩ := List.pairwise_cons.mp h.apart
  refine ⟨fun other hother => ?_, hapart⟩
  have hkept : (store.commit entry.quarantine).staged other.index = store.staged other.index :=
    Function.update_of_ne (hentry other hother).symm _ _
  rw [hkept]
  exact h.staged other (List.mem_cons_of_mem _ hother)

theorem Store.Lists.tail (h : store.Lists (entry :: entries)) : store.Lists entries where
  staged other hother := h.staged other (List.mem_cons_of_mem _ hother)
  apart := (List.pairwise_cons.mp h.apart).2

/-- Quarantining listed entries: none is refused while there are numbers for them, and nothing
that was listed is staged once each is in quarantine. -/
theorem quarantineAll_clears (adapter : Adapter σ limit Represents)
    (h : Represents state.1 store) (hfit : store.MarkersFit limit) (hnumbered : store.Numbered)
    (hlists : store.Lists entries) :
    ∃ last, Represents (quarantineAll state entries).2.1 last ∧
      (∀ refusal, .error refusal ∈ (quarantineAll state entries).1 →
        refusal = .persistence .quarantineSequenceExhausted) ∧
      (store.quarantined.length + entries.length < UInt64.size →
        ∀ answer ∈ (quarantineAll state entries).1, answer = .ok ()) ∧
      ((∀ answer ∈ (quarantineAll state entries).1, answer = .ok ()) → ∀ index,
        last.staged index = if index ∈ entries.map StagedEntry.index then none
          else store.staged index) := by
  induction entries generalizing state store with
  | nil =>
    refine ⟨store, h, ?_, ?_, ?_⟩
    · intro refusal hmem
      cases hmem
    · intro _ answer hmem
      cases hmem
    · intro _ index
      rfl
  | cons entry entries ih =>
    have hadmits := Store.admits_quarantine hfit (hlists.staged entry List.mem_cons_self)
    obtain ⟨hroom, hexhausted⟩ := hnumbered.next
    obtain ⟨after, hact, hafter⟩ : ∃ after, LifecycleBackend.act (.write entry.quarantine) state =
        ((store.perform limit entry.quarantine).1, after) ∧ _ := act_quarantine adapter h
    rw [quarantineAll, hact]
    unfold Store.perform at hafter ⊢
    cases hnext : store.nextSequence with
    | error refusal =>
      rw [hnext] at hadmits
      have hadmits : store.admits limit entry.quarantine = .error refusal := hadmits
      rw [hadmits] at hafter ⊢
      obtain ⟨last, hlast, hrefused, hall, -⟩ := ih hafter hfit hnumbered hlists.tail
      refine ⟨last, hlast, ?_, ?_, ?_⟩
      · intro other hmem
        rcases List.mem_cons.mp hmem with hsame | hmem
        · cases hsame
          exact hexhausted refusal hnext
        · exact hrefused other hmem
      · intro hlength
        rw [List.length_cons] at hlength
        rw [hroom (by omega)] at hnext
        cases hnext
      · intro hok
        have herror := hok _ List.mem_cons_self
        cases herror
    | ok sequence =>
      rw [hnext] at hadmits
      have hadmits : store.admits limit entry.quarantine = .ok () := hadmits
      have hcheck := (Outcome.then_eq_ok.mp hadmits).2
      rw [hadmits] at hafter ⊢
      obtain ⟨last, hlast, hrefused, hall, hclear⟩ :=
        ih hafter (hfit.commit hadmits) (hnumbered.commit hcheck) hlists.commit
      refine ⟨last, hlast, ?_, ?_, ?_⟩
      · intro other hmem
        rcases List.mem_cons.mp hmem with hsame | hmem
        · cases hsame
        · exact hrefused other hmem
      · intro hlength answer hmem
        rcases List.mem_cons.mp hmem with rfl | hmem
        · rfl
        · refine hall ?_ answer hmem
          have hcount : (store.commit entry.quarantine).quarantined.length =
            store.quarantined.length + 1 := List.length_append
          rw [List.length_cons] at hlength
          show (store.commit entry.quarantine).quarantined.length + entries.length < _
          omega
      · intro hok index
        rw [hclear (fun answer hmem => hok answer (List.mem_cons_of_mem _ hmem)) index]
        by_cases hindex : index = entry.index
        · subst hindex
          have hnone : (store.commit entry.quarantine).staged entry.index = none :=
            Function.update_self ..
          simp [hnone]
        · have hkept : (store.commit entry.quarantine).staged index = store.staged index :=
            Function.update_of_ne hindex _ _
          simp [hkept, hindex]

end Quarantining

/-! ## In every run -/

section Runs

variable {M P R : Type} [MemberIdentity M] [ProvenanceReference P] [RetentionReference R]
  [SerdeJson] [Unicode] [Sha256] [VectorMath] {σ : Type} [LifecycleBackend σ]

/-- How a permitted operation goes on from the head of its index and the version that is
current, where `limit` bounds a stored value: it takes effect after the head, the index has no
next version, or a value of its first write is too large. -/
inductive Proceeds (limit : Option Nat) (before after : σ) (operation : LifecycleOperation M P R)
    (validated : ValidatedOperation M P R) (head : Option (IndexRecord R)) (expected : Option Bytes)
    (current : Current M P R) : Outcome HeuremaError (PublishReceipt R) → Prop where
  | published {receipt : PublishReceipt R} {publication : Publication M P R}
      (took : TookEffect before after operation receipt publication)
      (follows : Follows head receipt.state) :
    Proceeds limit before after operation validated head expected current (.ok receipt)
  | exhausted {record : IndexRecord R} {payload : VersionPayload M P}
      (active : current = some (record, payload)) (last : payload.version.next? = none)
      (refused : Apply.successor validated current = refuse (exhausted payload.version)) :
    Proceeds limit before after operation validated head expected current
      (refuse (exhausted payload.version))
  | oversized {next : Successor M P R} {prepared : Prepared R} {what : String} {len most : Nat}
      (built : Apply.successor validated current = .ok next)
      (encoded : encodePlan next expected operation = .ok (prepared.plan, prepared.write))
      (bounded : limit = some most) (listed : (what, len) ∈ prepared.first.sizes)
      (large : most < len) :
    Proceeds limit before after operation validated head expected current
      (refuse (.persistence (.oversizedValue what len most)))

/-- A backend that nothing is staged on, where every permitted operation under a new key goes
on from the head of its index exactly where the tokens it leaves fit a `usize`. -/
structure Unblocked (issued : LifecycleOperation M P R → Prop) (limit : Option Nat)
    (state : σ × List Write) : Prop where
  staging : ∀ index, Shows state.1 (.readStaging index) none
  proceeds : ∀ operation checked expected head validated, issued operation →
    CheckedOperation.check operation = .ok checked →
    Shows state.1 (.readHead operation.index) expected →
    (expected.mapM fun bytes => decodeHead bytes operation.index) = .ok head →
    checked.permit head = .ok validated →
    Shows state.1 (.readOperation operation.index operation.key) none →
    ∃ current, Finds state.1 operation.index head expected current ∧
      ∀ outcome after, alone (Driver.apply operation) state = (outcome, after) →
        (Proceeds limit state.1 after.1 operation validated head expected current outcome ↔
          operation.change.Fits current) ∧
        (¬ operation.change.Fits current →
          outcome = .error (.panicked "attempt to add with overflow"))

/-- What is listed as staged can be quarantined in any order, each entry unless the sequence
of quarantine is exhausted, and once all of it is, every index goes on. -/
def Unblocks (issued : LifecycleOperation M P R → Prop) (limit : Option Nat) (start : σ) : Prop :=
  ∀ (pool : Drivers σ) entries order answers after, Reached issued start pool →
    Shows pool.state.1 .listStaged entries → List.Perm order entries →
    quarantineAll pool.state order = (answers, after) →
      (∀ refusal, .error refusal ∈ answers →
        refusal = .persistence .quarantineSequenceExhausted) ∧
      (∀ quarantined, Shows pool.state.1 .listQuarantined quarantined →
        quarantined.length + order.length < UInt64.size → ∀ answer ∈ answers, answer = .ok ()) ∧
      ((∀ answer ∈ answers, answer = .ok ()) → Unblocked issued limit after)

variable {issued : LifecycleOperation M P R → Prop} {limit : Option Nat}
  {Represents : σ → Store → Prop} {state : σ × List Write}

/-- Quarantining entries alone is a run of drivers. -/
theorem reached_quarantineAll {start : σ} {programs : List (Driver Unit)}
    (h : Reached issued start ⟨state, programs⟩) (entries : List StagedEntry) :
    Reached issued start ⟨(quarantineAll state entries).2, programs⟩ := by
  induction entries generalizing state with
  | nil => exact h
  | cons entry entries ih =>
    have hruns : Runs issued (Driver.commit entry.quarantine) := .quarantine _
    have halone := reached_alone h hruns
    have hlast : (alone (Driver.commit entry.quarantine) state).2 =
        (LifecycleBackend.act (.write entry.quarantine) state).2 := by
      show (Program.run LifecycleBackend.act (.call (.write entry.quarantine) _) state).2 = _
      rw [Program.run]
      cases hacted : LifecycleBackend.act (.write entry.quarantine) state with
      | mk answer after =>
        cases answer with
        | ok reply => rfl
        | error refusal => rfl
    rw [hlast] at halone
    exact ih halone

omit [SerdeJson] [Unicode] [Sha256] [VectorMath] in
/-- What is listed as staged is all that is. -/
theorem Adapter.lists (adapter : Adapter σ limit Represents) {store : Store}
    (h : Represents state.1 store) {entries order : List StagedEntry}
    (hlisted : Shows state.1 .listStaged entries) (horder : List.Perm order entries) :
    store.Lists order ∧ ∀ index, store.staged index ≠ none → index ∈ order.map (·.index) := by
  obtain ⟨reply, hrun, hlisting⟩ := adapter.read h .listStaged (by simp)
  have hshown : Shows state.1 .listStaged reply := hrun
  obtain rfl : reply = entries := hshown.unique hlisted
  have hstaged {entry : StagedEntry} (hmem : entry ∈ reply) :
      store.staged entry.index = some (entry.version, entry.marker) :=
    Store.markers_eq_some.mp ((hlisting.mem _ _).mp (List.mem_map_of_mem hmem))
  have hapart : reply.Pairwise fun entry other => entry.index ≠ other.index := by
    refine (List.pairwise_map.mp hlisting.sorted).imp_of_mem ?_
    intro entry other hmem hmem' hbefore hsame
    -- Entries of one index are one entry, which does not come before itself.
    have hone := hstaged hmem
    rw [hsame, hstaged hmem'] at hone
    obtain ⟨hversion, -⟩ := Prod.mk.inj (Option.some.inj hone)
    rw [hsame, hversion] at hbefore
    exact lt_irrefl _ hbefore
  refine ⟨⟨fun entry hmem => hstaged (horder.mem_iff.mp hmem), ?_⟩, ?_⟩
  · exact horder.symm.pairwise hapart fun hne => hne.symm
  · intro index hsome
    obtain ⟨⟨version, marker⟩, hmarker⟩ := Option.ne_none_iff_exists'.mp hsome
    have hmem := (hlisting.mem (index, version) marker).mpr (Store.markers_eq_some.mpr hmarker)
    obtain ⟨entry, hentry, hplace⟩ := List.mem_map.mp hmem
    refine List.mem_map.mpr ⟨entry, horder.mem_iff.mpr hentry, ?_⟩
    exact congrArg (fun place : (IndexIdentity × IndexVersion) × Bytes => place.1.1) hplace

theorem Proceeds.not_panicked {before after : σ} {operation : LifecycleOperation M P R}
    {validated : ValidatedOperation M P R} {head : Option (IndexRecord R)}
    {expected : Option Bytes} {current : Current M P R} {message : String} :
    ¬ Proceeds limit before after operation validated head expected current
      (.error (.panicked message)) := by
  intro h
  cases h

/-- Where nothing is staged, a permitted operation under a new key that fits goes on, and one
that does not overflows. -/
theorem Adapter.goes_on (adapter : Adapter σ limit Represents)
    (hdistinguishes : Distinguishes issued) {store : Store} (h : Represents state.1 store)
    {checked : CheckedOperation M P R} {log : List (Commit M P R)}
    (hreflects : store.Reflects issued checked.operation.index log)
    (hnone : store.staged checked.operation.index = none) (hissued : issued checked.operation)
    {head : Option (IndexRecord R)} {current : Current M P R}
    (hread : readCurrent checked.operation.index (store.heads checked.operation.index)
      (store.versions checked.operation.index) = .ok (head, current))
    {validated : ValidatedOperation M P R} (hpermit : checked.permit head = .ok validated)
    (hrecord : store.records (checked.operation.index, checked.operation.key) = none)
    {outcome : Outcome HeuremaError (PublishReceipt R)} {after : σ × List Write}
    (hrun : alone (Driver.apply checked.operation) state = (outcome, after)) :
    (checked.operation.change.Fits current ∧ Proceeds limit state.1 after.1 checked.operation
      validated head (store.heads checked.operation.index) current outcome) ∨
    (¬ checked.operation.change.Fits current ∧
      outcome = .error (.panicked "attempt to add with overflow")) := by
  have hfails (failure : Failure HeuremaError) : Apply.successor validated current = .error failure ↔
      Exhausts checked.operation current failure :=
    hreflects.successor_error_iff hdistinguishes hread hpermit
  rcases hreflects.progress hdistinguishes hnone hissued rfl (readCurrent_head hread) hpermit
    hrecord with hbuilt | hfailed
  · left
    obtain ⟨publication, rfl, hbuilds, hfollows⟩ := hbuilt
    obtain ⟨head', current', validated', hread', hpermit', hnext, hencoded⟩ := hbuilds.built
    rw [← hreflects.read, hread] at hread'
    cases hread'
    rw [hpermit] at hpermit'
    cases hpermit'
    rw [← hreflects.head] at hencoded
    -- A change that does not fit would have had no successor.
    have hfits : publication.checked.operation.change.Fits current := by
      by_contra hnot
      have hfailed := (hfails _).mpr (exhausts_panicked.mpr hnot)
      rw [hnext] at hfailed
      cases hfailed
    refine ⟨hfits, ?_⟩
    have hprepare := hreflects.prepares hnone hbuilds hrecord
    have hfirst := hreflects.first_check hnone hbuilds hrecord
    have hwhole := adapter.allOrNothing h hissued hreflects outcome after hrun
    let prepared : Prepared R := ⟨publication.plan, publication.write⟩
    have hplanned : encodePlan publication.next (store.heads publication.checked.operation.index)
        publication.checked.operation = .ok (prepared.plan, prepared.write) := hencoded
    rw [apply_ready adapter h hprepare] at hrun
    cases hsizes : refuseOversized limit prepared.first.sizes with
    | error refusal =>
      -- Everything else that the first write checks holds.
      have hadmits : store.admits limit prepared.first = .error refusal := by
        rw [Store.admits, hsizes]
        rfl
      rw [finish_refused adapter h hadmits] at hrun
      cases hrun
      obtain ⟨what, len, most, rfl, hlimit, hlisted, hlarge⟩ := refuseOversized_eq_error hsizes
      exact .oversized hnext hplanned hlimit hlisted hlarge
    | ok _ =>
      have hadmits : store.admits limit prepared.first = .ok () :=
        Outcome.then_eq_ok.mpr ⟨hsizes, hfirst⟩
      obtain ⟨last, hlast, hfinished⟩ := finish_admitted adapter h hadmits
      rw [hfinished] at hrun
      cases hrun
      rcases hwhole.2 _ rfl with hreplayed | htook
      · cases hreplayed.1
      · obtain ⟨-, other, htook⟩ := htook
        refine .published htook ?_
        obtain ⟨-, -, -, -, -, -, hresulting⟩ := hbuilds.recorded hreflects.chain.top
        show Follows head publication.plan.resulting
        rw [hresulting]
        exact hfollows
  · obtain ⟨failure, current', hprepare, hread', hexhausts⟩ := hfailed
    rw [hread] at hread'
    cases hread'
    rw [apply_failed adapter h hprepare] at hrun
    cases hrun
    by_cases hfits : checked.operation.change.Fits current
    · left
      have hrefused := (hfails failure).mpr hexhausts
      obtain ⟨record, payload, hactive, hlast, rfl⟩ := hexhausts.version_of_fits hfits
      exact ⟨hfits, .exhausted hactive hlast hrefused⟩
    · right
      rw [hexhausts.unique (exhausts_panicked.mpr hfits)]
      exact ⟨hfits, rfl⟩

/-- Where nothing is staged, every permitted operation under a new key goes on that fits. -/
theorem Adapter.unblocked (adapter : Adapter σ limit Represents)
    (hdistinguishes : Distinguishes issued) {store : Store} (h : Represents state.1 store)
    {logs : IndexIdentity → List (Commit M P R)}
    (hreflects : ∀ index, store.Reflects issued index (logs index))
    (hnone : ∀ index, store.staged index = none) : Unblocked issued limit state where
  staging index := by
    rw [← hnone index]
    exact adapter.shows_staging h index
  proceeds := by
    intro operation checked expected head validated hissued hchecked hshown hhead hpermit hunused
    obtain rfl := CheckedOperation.check_operation hchecked
    obtain rfl := (adapter.shows_head h _).unique hshown
    have hrecord := (adapter.shows_operation h _ _).unique hunused
    obtain ⟨head', current, hread⟩ := (hreflects checked.operation.index).reads hdistinguishes
    have hsame := readCurrent_head hread
    rw [hhead] at hsame
    cases hsame
    refine ⟨current, adapter.finds h hread, fun outcome after hrun => ?_⟩
    rcases adapter.goes_on hdistinguishes h (hreflects _) (hnone _) hissued hread hpermit hrecord
      hrun with hfits | hover
    · exact ⟨iff_of_true hfits.2 hfits.1, fun hnot => absurd hfits.1 hnot⟩
    · obtain ⟨hnot, rfl⟩ := hover
      exact ⟨iff_of_false Proceeds.not_panicked hnot, fun _ => rfl⟩

theorem Adapter.unblocks (adapter : Adapter σ limit Represents) {start : σ}
    (hstart : Represents start .empty) (hdistinguishes : Distinguishes issued) :
    Unblocks issued limit start := by
  intro pool entries order answers after hreached hlisted horder hquarantined
  have hfits : Represents start .empty ∧ Store.MarkersFit .empty limit := ⟨hstart, .empty limit⟩
  obtain ⟨world, ⟨hrepresents, hfit⟩, -, hsound⟩ := adapter.fitting.reached hfits hreached
  obtain ⟨hlists, hall⟩ := adapter.lists hrepresents hlisted horder
  obtain ⟨last, hlast, hrefused, hroom, hclear⟩ :=
    quarantineAll_clears adapter hrepresents hfit hsound.inv.run.numbered hlists
  have hafter := reached_quarantineAll hreached order
  rw [hquarantined] at hlast hrefused hroom hclear hafter
  refine ⟨hrefused, ?_, ?_⟩
  · intro quarantined hshown hlength
    rw [← (adapter.shows_quarantined hrepresents).unique hshown] at hlength
    exact hroom hlength
  · intro hok
    obtain ⟨world', hrepresents', -, hsound'⟩ := adapter.reached hstart hafter
    refine adapter.unblocked hdistinguishes hrepresents' hsound'.inv.reflects fun index => ?_
    have hsame := (adapter.shows_staging hrepresents' index).unique (adapter.shows_staging hlast index)
    rw [hsame, hclear hok index]
    split
    · rfl
    · next houtside => exact not_not.mp fun hsome => houtside (hall index hsome)

/-- Quarantine unblocks every index, on both adapters, whatever drivers have run. -/
theorem quarantine_unblocks (hdistinguishes : Distinguishes issued) :
    Unblocks issued none Atmis.LifecycleState.empty ∧
      ∀ limit, Unblocks issued (some limit) (Thesauros.ThesaurosBackend.empty limit) :=
  ⟨Atmis.adapter.unblocks .empty hdistinguishes,
    fun limit => (Thesauros.adapter limit).unblocks (.empty limit) hdistinguishes⟩

end Runs

section Corpus

open Consumer

attribute [local instance] Consumer.identity Consumer.reference SerdeJson.compact Unicode.ascii
  Consumer.sha256 Line.math

theorem quarantine_unblocks_consumer :
    Unblocks (· ∈ Consumer.operations) none Atmis.LifecycleState.empty :=
  (quarantine_unblocks Consumer.distinguishes).1

/-- A store in which nothing is staged lists nothing. -/
theorem Adapter.shows_unstaged {σ : Type} [LifecycleBackend σ] {limit : Option Nat}
    {Represents : σ → Store → Prop} (adapter : Adapter σ limit Represents) {state : σ}
    {store : Store} (h : Represents state store) (hnone : ∀ index, store.staged index = none) :
    Shows state .listStaged [] := by
  obtain ⟨reply, hrun, hlisting⟩ := adapter.read h .listStaged (by simp)
  have hempty : reply = [] := by
    refine List.eq_nil_iff_forall_not_mem.mpr fun entry hmem => ?_
    have hmarker := (hlisting.mem _ _).mp (List.mem_map_of_mem hmem)
    rw [Store.markers_eq_some, hnone] at hmarker
    cases hmarker
  rw [hempty] at hrun
  exact hrun

/-- Nothing is staged after insertions of documents that fill the token counter, and one more
insertion is permitted, under a key of its own, but panics. -/
theorem quarantine_unblocks_overflows : ∃ (state : Atmis.LifecycleState × List Write)
    (expected : Option Bytes) (head : Option (IndexRecord Str))
    (checked : CheckedOperation Str Str Str) (validated : ValidatedOperation Str Str Str),
    Reached (fun operation => operation = created ∨ ∃ key, operation = grown (2 ^ 40 - 1) key)
      .empty ⟨state, []⟩ ∧
    Shows state.1 .listStaged [] ∧ Shows state.1 (.readHead Consumer.index) expected ∧
    (expected.mapM fun bytes => decodeHead bytes Consumer.index) = .ok head ∧
    checked.operation = grown (2 ^ 40 - 1) (numbered (Fin.last _)) ∧
    checked.permit head = .ok validated ∧
    Shows state.1 (.readOperation Consumer.index checked.operation.key) none ∧
    (alone (Driver.apply checked.operation) state).1 =
      .error (.panicked "attempt to add with overflow") := by
  obtain ⟨log, head, current, checked, validated, history, hoperations, hread, hchecked, hpermit,
    hfailed⟩ := grown_overflows
  have hissued : ∀ publication ∈ log, publication.checked.operation = created ∨
      ∃ key, publication.checked.operation = grown (2 ^ 40 - 1) key := by
    intro publication hmem
    have hlisted : publication.checked.operation ∈
        log.map fun publication => publication.checked.operation := List.mem_map_of_mem hmem
    rw [hoperations] at hlisted
    rcases List.mem_append.mp hlisted with hgrown | hcreated
    · obtain ⟨key, -, hsame⟩ := List.mem_map.mp hgrown
      exact .inr ⟨key, hsame.symm⟩
    · exact .inl (List.mem_singleton.mp hcreated)
  have hperformed : ∃ state, Performed
      (fun operation => operation = created ∨ ∃ key, operation = grown (2 ^ 40 - 1) key)
      Atmis.Represents .empty Consumer.index log state :=
    history.performed Atmis.adapter .empty hissued
  obtain ⟨state, hreached, store, commits, hrepresents, hreflects, rfl, hnone, hpayloads⟩ :=
    hperformed
  have hindex : checked.operation.index = Consumer.index := by
    rw [hchecked]
    rfl
  have hrecord : store.records (Consumer.index, checked.operation.key) = none := by
    rw [hreflects.record, ← Chain.recordBytes, recordBytes, Option.map_eq_none_iff,
      List.find?_eq_none]
    intro earlier hmem hsame
    have hkey := grown_keys hoperations earlier hmem
    rw [of_decide_eq_true hsame, hchecked] at hkey
    exact last_new hkey
  have hversions : store.versions Consumer.index = payloadBytes (Chain.publications commits) :=
    funext hpayloads
  rw [Chain.headBytes, ← hreflects.head, ← hversions] at hread
  have hprepare : store.prepare checked.operation = .error _ :=
    Store.prepare_failed (hnone _) (hindex ▸ hrecord) (hindex ▸ hread) hpermit hfailed
  refine ⟨state, _, head, checked, validated, hreached, Atmis.adapter.shows_unstaged hrepresents hnone,
    Atmis.adapter.shows_head hrepresents _, readCurrent_head hread, hchecked, hpermit, ?_, ?_⟩
  · rw [← hrecord]
    exact Atmis.adapter.shows_operation hrepresents _ _
  · rw [apply_failed Atmis.adapter hrepresents hprepare]

end Corpus

end Heurema
