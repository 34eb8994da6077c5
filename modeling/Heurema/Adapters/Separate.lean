import Heurema.Adapters.Receipts
import Heurema.Adapters.Unblock
import Heurema.Data.Slice

/-! # Indexes do not interfere

A call on one index changes nothing of another, so that what runs on the others can be left
out of a run: what runs on the one index makes the same calls, gets the same answers and ends
alike. Only the numbers of quarantine are shared. -/

namespace Heurema

open Serde Hnsw Digest

open LifecycleBackend (Shows)

/-! ## Calls on one index -/

/-- A call that reads or writes one index alone. -/
def Call.Of (index : IndexIdentity) : Call → Prop
  | .readHead name | .readVersion name _ | .readOperation name _ | .readStaging name
  | .listOperations name => name = index
  | .write update => update.index = index
  | .listHeads | .listStaged | .listQuarantined => False

/-- A call that writes nothing of an index. -/
def Call.Spares (index : IndexIdentity) : Call → Prop
  | .write update => update.index ≠ index
  | _ => True

theorem Call.Reads.spares {call : Call} (h : call.Reads) (index : IndexIdentity) :
    call.Spares index := by
  cases call with
  | write write => exact absurd rfl (h write)
  | _ => trivial

theorem Call.Of.spares {call : Call} {index other : IndexIdentity} (h : call.Of other)
    (hne : other ≠ index) : call.Spares index := by
  cases call with
  | write write =>
    intro hsame
    exact hne ((show write.index = other from h).symm.trans hsame)
  | _ => trivial

/-! ## Drivers of one index -/

namespace Driver

section Reads

theorem readHead_of (index : IndexIdentity) : (readHead index).Makes (Call.Of index) :=
  .perform rfl

theorem readVersion_of (index : IndexIdentity) (version : IndexVersion) :
    (readVersion index version).Makes (Call.Of index) := .perform rfl

theorem readOperation_of (index : IndexIdentity) (key : OperationKey) :
    (readOperation index key).Makes (Call.Of index) := .perform rfl

theorem refuseStaged_of (index : IndexIdentity) :
    (refuseStaged index).Makes (Call.Of index) := by
  have hread : (readStaging index).Makes (Call.Of index) := .perform rfl
  refine hread.bind ?_
  intro staging
  split <;> exact .done _

theorem commit_of (write : Write) : (commit write).Makes (Call.Of write.index) := .perform rfl

end Reads

variable {M P R : Type} [MemberIdentity M] [ProvenanceReference P] [RetentionReference R]
  [SerdeJson] [Unicode] [Sha256]

omit [MemberIdentity M] [ProvenanceReference P] [Sha256] in
theorem record_of (index : IndexIdentity) :
    (record index : Driver (Option (IndexRecord R))).Makes (Call.Of index) := by
  refine (readHead_of index).bind ?_
  intro bytes
  split
  · exact .done _
  · exact (Program.Makes.done _).bind fun _ => .done _

theorem replay_of (checked : CheckedOperation M P R) :
    (replay checked).Makes (Call.Of checked.operation.index) := by
  refine (readOperation_of _ _).bind ?_
  intro bytes
  split
  · exact .done _
  · exact (Program.Makes.done _).bind fun _ => .done _

omit [Sha256] in
theorem activePayload_of (index : IndexIdentity) (version : IndexVersion) (head : IndexRecord R) :
    (activePayload index version head : Driver (Option (VersionPayload M P))).Makes
      (Call.Of index) := by
  refine (readVersion_of index version).bind ?_
  intro bytes
  split
  · refine (record_of index).bind ?_
    intro again
    split <;> exact .done _
  · exact (Program.Makes.done _).bind fun _ => .done _

omit [Sha256] in
theorem current_of (index : IndexIdentity) (head : Option (IndexRecord R)) :
    (current index head : Driver (Current M P R)).Makes (Call.Of index) := by
  unfold current
  split
  · exact .done _
  · split
    · refine (activePayload_of _ _ _).bind ?_
      intro payload
      split <;> exact .done _
    · exact .done _

omit [Sha256] in
/-- A reader calls for its index alone. -/
theorem index_of (name : IndexIdentity) :
    (index R name : Driver (PublishedIndex M P)).Makes (Call.Of name) := by
  refine (readHead_of name).bind fun bytes => ?_
  split
  · exact .done _
  · refine (Program.Makes.done _).bind fun head => ?_
    split
    · refine (activePayload_of _ _ _).bind fun payload => ?_
      split <;> exact .done _
    · exact .done _

variable [VectorMath]

theorem build_of (checked : CheckedOperation M P R) (expectedHead : Option Bytes) :
    (build checked expectedHead).Makes (Call.Of checked.operation.index) := by
  refine (Program.Makes.done _).bind fun head => ?_
  refine (current_of _ _).bind fun current => ?_
  refine (Program.Makes.done _).bind fun validated => ?_
  refine (refuseStaged_of _).bind fun _ => ?_
  refine (Program.Makes.done _).bind fun successor => ?_
  exact (Program.Makes.done _).bind fun _ => .done _

theorem prepare_of (operation : LifecycleOperation M P R) :
    (prepare operation).Makes (Call.Of operation.index) := by
  unfold prepare
  cases hchecked : CheckedOperation.check operation with
  | error failure => exact .done _
  | ok checked =>
    obtain rfl := CheckedOperation.check_operation hchecked
    rw [Program.lift_ok]
    refine (readHead_of _).bind fun expectedHead => ?_
    refine (replay_of checked).bind fun receipt => ?_
    split
    · exact .done _
    · exact (build_of checked expectedHead).bind fun _ => .done _

end Driver

section Operations

variable {R : Type}

theorem Staged.publish_of (staged : Staged R) :
    staged.publish.Makes (Call.Of staged.plan.index) := by
  have hindex : staged.publishing.index = staged.plan.index := by
    unfold Staged.publishing
    split <;> rfl
  have hcommit := Driver.commit_of staged.publishing
  rw [hindex] at hcommit
  exact hcommit.bind fun _ => .done _

theorem Prepared.finish_of (prepared : Prepared R) :
    (prepared.stage >>= Staged.publish).Makes (Call.Of prepared.plan.index) := by
  obtain ⟨plan, write⟩ := prepared
  cases write with
  | version expectedHead version marker payload =>
    let prepared : Prepared R := ⟨plan, .version expectedHead version marker payload⟩
    have hstage := Driver.commit_of (.stage (prepared.staging expectedHead version marker payload))
    show (Driver.commit (.stage (prepared.staging expectedHead version marker payload)) >>=
      fun _ => prepared.staged.publish).Makes (Call.Of plan.index)
    exact hstage.bind fun _ => prepared.staged.publish_of
  | destroy expectedHead versions => exact Staged.publish_of ⟨plan, _⟩

end Operations

/-- An operation calls for its index alone. -/
theorem Driver.apply_of {M P R : Type} [MemberIdentity M] [ProvenanceReference P]
    [RetentionReference R] [SerdeJson] [Unicode] [Sha256] [VectorMath]
    (operation : LifecycleOperation M P R) :
    (apply operation).Makes (Call.Of operation.index) := by
  refine (prepare_of operation).bind_yields (prepare_yields operation) ?_
  intro preparation hprepares
  cases preparation with
  | replayed receipt => exact .done _
  | ready prepared =>
    have hplanned : Planned operation prepared := hprepares
    rw [← hplanned.index]
    exact prepared.finish_of

/-! ## Contents that are alike for an index -/

/-- An entry of quarantine without its number. -/
def QuarantinedEntry.unnumbered (entry : QuarantinedEntry) : QuarantineWrite × Option Bytes :=
  (⟨entry.index, entry.version, entry.marker⟩, entry.payload)

/-- The entries of an index. -/
def quarantinedOf (index : IndexIdentity) (entries : List QuarantinedEntry) :
    List QuarantinedEntry := entries.filter (·.index = index)

theorem quarantinedOf_concat (index : IndexIdentity) (entries : List QuarantinedEntry)
    (entry : QuarantinedEntry) : quarantinedOf index (entries ++ [entry]) =
      quarantinedOf index entries ++ if entry.index = index then [entry] else [] := by
  rw [quarantinedOf, List.filter_append, List.filter_singleton]
  simp [quarantinedOf]

/-- A part of contents that holds the same of an index, up to the numbers of quarantine. -/
structure Store.Alike (index : IndexIdentity) (store part : Store) : Prop extends
    Same store part index where
  quarantined : (quarantinedOf index part.quarantined).map QuarantinedEntry.unnumbered =
    (quarantinedOf index store.quarantined).map QuarantinedEntry.unnumbered
  fewer : part.quarantined.length ≤ store.quarantined.length

namespace Store

variable {index : IndexIdentity} {store part : Store} {limit : Option Nat} {write : Write}

theorem Alike.refl (index : IndexIdentity) (store : Store) : store.Alike index store where
  head := rfl
  staged := rfl
  payload _ := rfl
  record _ := rfl
  quarantined := rfl
  fewer := Nat.le_refl _

theorem Alike.trans {smaller : Store} (h : store.Alike index part) (h' : part.Alike index smaller) :
    store.Alike index smaller where
  head := h'.head.trans h.head
  staged := h'.staged.trans h.staged
  payload version := (h'.payload version).trans (h.payload version)
  record key := (h'.record key).trans (h.record key)
  quarantined := h'.quarantined.trans h.quarantined
  fewer := h'.fewer.trans h.fewer

theorem quarantined_commit (store : Store) (write : Write) :
    (store.commit write).quarantined = store.quarantined ∨
      ∃ moved : QuarantineWrite, write = .quarantine moved ∧
        (store.commit write).quarantined = store.quarantined ++ [⟨store.sequence, moved.index,
          moved.version, moved.marker, store.payloads (moved.index, moved.version)⟩] := by
  cases write with
  | quarantine moved => exact .inr ⟨moved, rfl, rfl⟩
  | _ => exact .inl rfl

/-- A write on another index changes nothing that is alike. -/
theorem Alike.other (h : store.Alike index part) (hne : write.index ≠ index) :
    (store.commit write).Alike index part := by
  have hsame := store.commit_same hne.symm
  refine ⟨⟨?_, ?_, ?_, ?_⟩, ?_, ?_⟩
  · exact h.head.trans hsame.head.symm
  · exact h.staged.trans hsame.staged.symm
  · exact fun version => (h.payload version).trans (hsame.payload version).symm
  · exact fun key => (h.record key).trans (hsame.record key).symm
  · rcases store.quarantined_commit write with hkept | hmoved
    · rw [hkept, h.quarantined]
    · obtain ⟨moved, rfl, hmoved⟩ := hmoved
      have hne : moved.index ≠ index := hne
      rw [hmoved, quarantinedOf_concat, if_neg hne, List.append_nil, h.quarantined]
  · rcases store.quarantined_commit write with hkept | hmoved
    · rw [hkept]
      exact h.fewer
    · obtain ⟨moved, -, hmoved⟩ := hmoved
      rw [hmoved, List.length_append]
      exact h.fewer.trans (Nat.le_add_right _ _)

/-- A write on the index leaves contents that are alike. -/
theorem Alike.commit (h : store.Alike index part) (hindex : write.index = index) :
    (store.commit write).Alike index (part.commit write) := by
  subst hindex
  cases write with
  | stage write =>
    refine ⟨⟨h.head, ?_, ?_, h.record⟩, h.quarantined, h.fewer⟩
    · simp [Store.commit, Write.index]
    · intro version
      have hpayload := h.payload version
      simp only [Write.index] at hpayload
      simp [Store.commit, Write.index, Function.update_apply, hpayload]
  | publish write =>
    refine ⟨⟨?_, ?_, h.payload, ?_⟩, h.quarantined, h.fewer⟩
    · simp [Store.commit, Write.index]
    · simp [Store.commit, Write.index]
    · intro key
      have hrecord := h.record key
      simp only [Write.index] at hrecord
      simp [Store.commit, Write.index, Function.update_apply, hrecord]
  | destroy write =>
    refine ⟨⟨?_, h.staged, ?_, ?_⟩, h.quarantined, h.fewer⟩
    · simp [Store.commit, Write.index]
    · intro version
      have hpayload := h.payload version
      simp only [Write.index] at hpayload
      simp [Store.commit, Write.index, hpayload]
    · intro key
      have hrecord := h.record key
      simp only [Write.index] at hrecord
      simp [Store.commit, Write.index, Function.update_apply, hrecord]
  | quarantine write =>
    have hmoved := h.payload write.version
    have hentries := h.quarantined
    simp only [Write.index] at hmoved hentries
    refine ⟨⟨h.head, ?_, ?_, h.record⟩, ?_, ?_⟩
    · simp [Store.commit, Write.index]
    · intro version
      have hpayload := h.payload version
      simp only [Write.index] at hpayload
      simp [Store.commit, Write.index, Function.update_apply, hpayload]
    · simp only [Store.commit, Write.index, quarantinedOf_concat, if_pos, List.map_append, hentries]
      simp only [List.map_cons, QuarantinedEntry.unnumbered, hmoved]
    · simp only [Store.commit, List.length_append]
      exact Nat.add_le_add_right h.fewer _

/-- A write on the index is let through by contents that are alike, as long as the entries of
quarantine can be numbered. -/
theorem Alike.check (h : store.Alike index part) (hindex : write.index = index)
    (hnumbered : store.Numbered) (hnumbered' : part.Numbered)
    (hroom : store.quarantined.length + 1 < UInt64.size) : part.check write = store.check write := by
  subst hindex
  have hnext : ∃ n, store.nextSequence = .ok n := ⟨_, hnumbered.next.1 hroom⟩
  have hnext' : ∃ n, part.nextSequence = .ok n :=
    ⟨_, hnumbered'.next.1 (lt_of_le_of_lt (Nat.succ_le_succ h.fewer) hroom)⟩
  have hhead := h.head
  have hstaged := h.staged
  have hpayload := h.payload
  have hrecord := h.record
  cases write with
  | stage write =>
    simp only [Write.index] at hhead hstaged hpayload hrecord
    simp only [Store.check, checkHead, refuseStaged, refuseStoredVersion, refuseRecorded, hhead,
      hstaged, hpayload, hrecord]
  | publish write =>
    simp only [Write.index] at hhead hstaged hpayload hrecord
    simp only [Store.check, checkHead, checkMarker, markers, checkPayload, refuseRecorded, hhead,
      hstaged, hpayload, hrecord]
  | destroy write =>
    simp only [Write.index] at hhead hstaged hrecord
    simp only [Store.check, checkHead, refuseStaged, refuseRecorded, hhead, hstaged, hrecord]
  | quarantine write =>
    obtain ⟨n, hn⟩ := hnext
    obtain ⟨n', hn'⟩ := hnext'
    simp only [Write.index] at hstaged
    simp only [Store.check, checkMarker, markers, hstaged, hn, hn']
    rfl

theorem Same.symm (h : store.Same part index) : part.Same store index :=
  ⟨h.head.symm, h.staged.symm, fun version => (h.payload version).symm,
    fun key => (h.record key).symm⟩

/-- A read of an index is answered alike by contents that hold the same of it. -/
theorem Same.reads (h : store.Same part index) {call : Call} (hof : call.Of index)
    (hread : call.Reads) {answer : Except HeuremaError call.Reply}
    (hreplies : store.Replies limit call answer) : part.Replies limit call answer := by
  cases call with
  | readHead name =>
    obtain rfl : name = index := hof
    exact (show answer = _ from hreplies).trans (congrArg _ h.head.symm)
  | readVersion name version =>
    obtain rfl : name = index := hof
    exact (show answer = _ from hreplies).trans (congrArg _ (h.payload version).symm)
  | readOperation name key =>
    obtain rfl : name = index := hof
    exact (show answer = _ from hreplies).trans (congrArg _ (h.record key).symm)
  | readStaging name =>
    obtain rfl : name = index := hof
    exact (show answer = _ from hreplies).trans (congrArg _ h.staged.symm)
  | listHeads => exact hof.elim
  | listStaged => exact hof.elim
  | listQuarantined => exact hof.elim
  | listOperations name =>
    obtain rfl : name = index := hof
    obtain ⟨reply, rfl, hlisting⟩ := hreplies
    have hrecords : (fun key => part.records (name, key)) = fun key => store.records (name, key) :=
      funext h.record
    refine ⟨reply, rfl, ?_⟩
    show Listing _ (fun key => part.records (name, key)) reply
    rw [hrecords]
    exact hlisting
  | write write => exact absurd rfl (hread write)

/-- A call on the index is answered by contents that are alike, and leaves such contents. -/
theorem Alike.replies (h : store.Alike index part) {call : Call} (hof : call.Of index)
    (hnumbered : store.Numbered) (hnumbered' : part.Numbered)
    (hroom : store.quarantined.length + 1 < UInt64.size)
    {answer : Except HeuremaError call.Reply} (hreplies : store.Replies limit call answer) :
    part.Replies limit call answer ∧
      (store.after limit call).Alike index (part.after limit call) := by
  by_cases hread : call.Reads
  · have hanswered := h.toSame.reads hof hread hreplies
    obtain ⟨-, hafter, -⟩ := hreplies.read hread
    obtain ⟨-, hafter', -⟩ := hanswered.read hread
    rw [hafter, hafter']
    exact ⟨hanswered, h⟩
  · cases call with
    | write write =>
      have hcheck := h.check hof hnumbered hnumbered' hroom
      have hadmits : part.admits limit write = store.admits limit write := by
        rw [admits, admits, hcheck]
      have hanswer : answer = (store.perform limit write).1 := hreplies
      show answer = (part.perform limit write).1 ∧
        (store.perform limit write).2.Alike index (part.perform limit write).2
      rw [hanswer]
      unfold Store.perform
      rw [hadmits]
      cases store.admits limit write with
      | ok _ => exact ⟨rfl, h.commit hof⟩
      | error refusal => exact ⟨rfl, h⟩
    | _ => exact absurd (fun write hsame => by cases hsame) hread

/-- A call that spares the index leaves contents that are alike. -/
theorem Alike.spared (h : store.Alike index part) {call : Call} (hspares : call.Spares index) :
    (store.after limit call).Alike index part := by
  cases call with
  | write write =>
    show (store.perform limit write).2.Alike index part
    unfold Store.perform
    cases store.admits limit write with
    | ok _ => exact h.other hspares
    | error refusal => exact h
  | _ => exact h

/-- Only an entry of its own is added to quarantine for an index. -/
theorem quarantinedOf_spared (store : Store) {call : Call} (hspares : call.Spares index) :
    quarantinedOf index (store.after limit call).quarantined =
      quarantinedOf index store.quarantined := by
  cases call with
  | write write =>
    show quarantinedOf index (store.perform limit write).2.quarantined = _
    unfold Store.perform
    cases store.admits limit write with
    | ok _ =>
      rcases store.quarantined_commit write with hkept | hmoved
      · exact congrArg _ hkept
      · obtain ⟨moved, rfl, hmoved⟩ := hmoved
        have hne : moved.index ≠ index := hspares
        show quarantinedOf index (store.commit _).quarantined = _
        rw [hmoved, quarantinedOf_concat, if_neg hne, List.append_nil]
    | error refusal => rfl
  | _ => rfl

theorem Run.replies {writes : List Write} {call : Call} (h : Store.Run writes store)
    {answer : Except HeuremaError call.Reply} (hreplies : store.Replies limit call answer) :
    Store.Run (writes ++ call.took answer) (store.after limit call) := by
  by_cases hread : call.Reads
  · obtain ⟨-, hafter, htook⟩ := hreplies.read hread
    rw [hafter, htook, List.append_nil]
    exact h
  · cases call with
    | write write =>
      have hanswer : answer = (store.perform limit write).1 := hreplies
      subst hanswer
      show Store.Run (writes ++ Call.took (.write write) (store.perform limit write).1)
        (store.perform limit write).2
      unfold Store.perform
      cases hadmits : store.admits limit write with
      | ok _ => exact h.commit (Outcome.then_eq_ok.mp hadmits).2
      | error refusal =>
        rw [show Call.took (.write write) (.error refusal) = [] from rfl, List.append_nil]
        exact h
    | _ => exact absurd (fun write hsame => by cases hsame) hread

/-- Every quarantine that took effect added one entry. -/
theorem Run.quarantined_length {writes : List Write} (h : Store.Run writes store) :
    store.quarantined.length = (writes.filterMap Write.quarantined?).length := by
  induction h with
  | empty => rfl
  | @commit writes store write h hcheck ih =>
    rw [List.filterMap_append, List.length_append, ← ih]
    cases write with
    | quarantine write =>
      show (store.quarantined ++ _).length = _
      rw [List.length_append]
      rfl
    | _ => rfl

end Store

/-! ## States that show the same of an index -/

section Shown

variable {σ : Type} [LifecycleBackend σ]

/-- Two states of a backend show the same of an index, up to the numbers of quarantine. -/
structure ShowsAlike (index : IndexIdentity) (state part : σ) : Prop where
  reads : ∀ call : Call, call.Of index → call.Reads → ∀ reply,
    Shows state call reply ↔ Shows part call reply
  heads : ∀ listed listed', Shows state .listHeads listed → Shows part .listHeads listed' →
    (listed'.filter fun entry => entry.1 = index) = listed.filter fun entry => entry.1 = index
  staged : ∀ listed listed', Shows state .listStaged listed → Shows part .listStaged listed' →
    (listed'.filter fun entry => entry.index = index) =
      listed.filter fun entry => entry.index = index
  quarantined : ∀ listed listed', Shows state .listQuarantined listed →
    Shows part .listQuarantined listed' →
    (quarantinedOf index listed').map QuarantinedEntry.unnumbered =
      (quarantinedOf index listed).map QuarantinedEntry.unnumbered

theorem ShowsAlike.symm {index : IndexIdentity} {state part : σ} (h : ShowsAlike index state part) :
    ShowsAlike index part state where
  reads call hof hread reply := (h.reads call hof hread reply).symm
  heads listed listed' hlisted hlisted' := (h.heads listed' listed hlisted' hlisted).symm
  staged listed listed' hlisted hlisted' := (h.staged listed' listed hlisted' hlisted).symm
  quarantined listed listed' hlisted hlisted' :=
    (h.quarantined listed' listed hlisted' hlisted).symm

/-- The quarantine of one more version can be numbered. -/
def Roomy (state : σ × List Write) : Prop :=
  (state.2.filterMap Write.quarantined?).length + 1 < UInt64.size

/-- A state and one that holds the part of an index of it, with the writes of that index. -/
structure PartOf (Represents : σ → Store → Prop) (index : IndexIdentity)
    (whole part : σ × List Write) : Prop where
  contents : ∃ store slice, Represents whole.1 store ∧ Represents part.1 slice ∧
    store.Alike index slice ∧ Store.Run whole.2 store ∧ Store.Run part.2 slice
  writes : part.2 = whole.2.filter fun write => write.index = index

variable {limit : Option Nat} {Represents : σ → Store → Prop} {index : IndexIdentity}

theorem Adapter.shows_reply (adapter : Adapter σ limit Represents) {state : σ} {store : Store}
    (h : Represents state store) {call : Call} (hread : call.Reads) {reply : call.Reply}
    (hshows : Shows state call reply) : store.Replies limit call (.ok reply) := by
  obtain ⟨answer, hrun, hreplies⟩ := adapter.read_replies h call hread
  rw [Shows, hrun] at hshows
  obtain rfl : answer = .ok reply := congrArg Prod.fst hshows
  exact hreplies

theorem Adapter.reply_shows (adapter : Adapter σ limit Represents) {state : σ} {store : Store}
    (h : Represents state store) {call : Call} (hread : call.Reads) {reply : call.Reply}
    (hreplies : store.Replies limit call (.ok reply)) : Shows state call reply := by
  obtain ⟨answer, hrun, hreplies'⟩ := adapter.read_replies h call hread
  rw [Shows, hrun, hreplies'.unique hreplies]

theorem Adapter.showsAlike (adapter : Adapter σ limit Represents) {state part : σ}
    {store slice : Store} (h : Represents state store) (h' : Represents part slice)
    (halike : store.Alike index slice) : ShowsAlike index state part where
  reads call hof hread reply := by
    constructor
    · intro hshows
      have hreplies := adapter.shows_reply h hread hshows
      exact adapter.reply_shows h' hread (halike.toSame.reads hof hread hreplies)
    · intro hshows
      have hreplies := adapter.shows_reply h' hread hshows
      exact adapter.reply_shows h hread (halike.toSame.symm.reads hof hread hreplies)
  heads listed listed' hlisted hlisted' := by
    obtain ⟨reply, hsame, hlisting⟩ := adapter.shows_reply h (by simp [Call.Reads]) hlisted
    obtain ⟨reply', hsame', hlisting'⟩ := adapter.shows_reply h' (by simp [Call.Reads]) hlisted'
    cases hsame
    cases hsame'
    have hheads : ∀ name, name = index → slice.heads name = store.heads name := by
      rintro name rfl
      exact halike.head
    exact hlisting'.filter_eq (p := fun name => name = index) hlisting hheads
  staged listed listed' hlisted hlisted' := by
    obtain ⟨reply, hsame, hlisting⟩ := adapter.shows_reply h (by simp [Call.Reads]) hlisted
    obtain ⟨reply', hsame', hlisting'⟩ := adapter.shows_reply h' (by simp [Call.Reads]) hlisted'
    cases hsame
    cases hsame'
    refine Store.staged_listing_injective ?_
    have hmarkers : ∀ place : IndexIdentity × IndexVersion, place.1 = index →
        slice.markers place = store.markers place := by
      rintro ⟨name, version⟩ rfl
      simp only [Store.markers, halike.staged]
    have hparts := hlisting'.filter_eq (p := fun place => place.1 = index) hlisting hmarkers
    rw [List.filter_map, List.filter_map] at hparts
    exact hparts
  quarantined listed listed' hlisted hlisted' := by
    have hsame := adapter.shows_reply h (by simp [Call.Reads]) hlisted
    have hsame' := adapter.shows_reply h' (by simp [Call.Reads]) hlisted'
    cases hsame
    cases hsame'
    exact halike.quarantined

/-- What a call does to a state is what the contents say. -/
theorem Adapter.acted (adapter : Adapter σ limit Represents) {before after : σ × List Write}
    {store : Store} (h : Represents before.1 store) {call : Call}
    {answer : Except HeuremaError call.Reply}
    (hacts : LifecycleBackend.acts call before answer after) :
    store.Replies limit call answer ∧ Represents after.1 (store.after limit call) := by
  have hcontents : Contents Represents before (store, before.2) := ⟨h, rfl⟩
  obtain ⟨contents, hstore, hafter, -⟩ := adapter.simulates _ _ hcontents _ _ _ hacts
  obtain ⟨hreplies, rfl⟩ := hstore
  exact ⟨hreplies, hafter⟩

/-- The writes of a call that is on an index are on it. -/
theorem Call.took_of {call : Call} (h : call.Of index) (answer : Except HeuremaError call.Reply) :
    (call.took answer).filter (fun write => write.index = index) = call.took answer := by
  cases call with
  | write write =>
    cases answer with
    | ok reply =>
      have hindex : write.index = index := h
      simp [Call.took, hindex]
    | error refusal => rfl
  | _ => rfl

/-- The writes of a call that spares an index are on others. -/
theorem Call.took_spares {call : Call} (h : call.Spares index)
    (answer : Except HeuremaError call.Reply) :
    (call.took answer).filter (fun write => write.index = index) = [] := by
  cases call with
  | write write =>
    cases answer with
    | ok reply =>
      have hindex : write.index ≠ index := h
      simp [Call.took, hindex]
    | error refusal => rfl
  | _ => rfl

/-- The calls on one index can be told from those that spare it. -/
theorem Adapter.separates (adapter : Adapter σ limit Represents) (index : IndexIdentity) :
    Pool.Separates (LifecycleBackend.acts (σ := σ)) LifecycleBackend.acts (Call.Of index)
      (Call.Spares index) Roomy (PartOf Represents index) where
  within := by
    intro before call answer after hacts hroomy
    rw [Roomy, act_writes hacts, List.filterMap_append, List.length_append] at hroomy
    exact lt_of_le_of_lt (Nat.succ_le_succ (Nat.le_add_right _ _)) hroomy
  mine := by
    intro whole part call answer after hpart hof hacts hroomy
    obtain ⟨⟨store, slice, hwhole, hslice, halike, hrun, hrun'⟩, hwrites⟩ := hpart
    have hadded := act_writes hacts
    obtain ⟨hreplies, hafter⟩ := adapter.acted hwhole hacts
    have hroom : store.quarantined.length + 1 < UInt64.size := by
      rw [hrun.quarantined_length]
      rw [Roomy, hadded, List.filterMap_append, List.length_append] at hroomy
      exact lt_of_le_of_lt (Nat.succ_le_succ (Nat.le_add_right _ _)) hroomy
    obtain ⟨hanswered, hlike⟩ := halike.replies hof hrun.numbered hrun'.numbered hroom hreplies
    obtain ⟨answer', after', hacts'⟩ : ∃ answer' after',
        LifecycleBackend.acts call part answer' after' := ⟨_, _, rfl⟩
    obtain ⟨hreplies', hafter'⟩ := adapter.acted hslice hacts'
    obtain rfl := hanswered.unique hreplies'
    have hadded' := act_writes hacts'
    refine ⟨after', hacts', ⟨_, _, hafter, hafter', hlike, ?_, ?_⟩, ?_⟩
    · rw [hadded]
      exact hrun.replies hreplies
    · rw [hadded']
      exact hrun'.replies hreplies'
    · rw [hadded, hadded', hwrites, List.filter_append, Call.took_of hof]
  others := by
    intro whole part call answer after hpart hspares hacts
    obtain ⟨⟨store, slice, hwhole, hslice, halike, hrun, hrun'⟩, hwrites⟩ := hpart
    have hadded := act_writes hacts
    obtain ⟨hreplies, hafter⟩ := adapter.acted hwhole hacts
    refine ⟨⟨_, _, hafter, hslice, halike.spared hspares, ?_, hrun'⟩, ?_⟩
    · rw [hadded]
      exact hrun.replies hreplies
    · rw [hadded, hwrites, List.filter_append, Call.took_spares hspares, List.append_nil]

end Shown

/-! ## Runs on one index -/

section Runs

variable {M P R : Type} [MemberIdentity M] [ProvenanceReference P] [RetentionReference R]
  [SerdeJson] [Unicode] [Sha256] [VectorMath] {σ : Type} [LifecycleBackend σ]

/-- What starts of the drivers of one index. -/
abbrev RunsOf (issued : LifecycleOperation M P R → Prop) (index : IndexIdentity) :
    Driver Unit → Prop := Pool.StartsOf (Runs issued) (Call.Of index)

/-- Drivers of other indexes leave an index alone: their calls change nothing that is shown of
it, and without them its own drivers and readers make the same calls, get the same answers
and write the same. -/
structure KeepsApart (issued : LifecycleOperation M P R → Prop) (start : σ)
    (index : IndexIdentity) : Prop where
  frame : ∀ (pool : Drivers σ) (call : Call) answer after, Reached issued start pool →
    call.Spares index → LifecycleBackend.acts call pool.state answer after →
    ShowsAlike index pool.state.1 after.1 ∧
      ∀ listed listed', Shows pool.state.1 .listQuarantined listed →
        Shows after.1 .listQuarantined listed' →
        quarantinedOf index listed' = quarantinedOf index listed
  slices : ∀ pool : Drivers σ, Reached issued start pool → Roomy pool.state →
    ∃ part : Drivers σ,
      Pool.Reachable LifecycleBackend.acts (RunsOf issued index) (start, []) part ∧
      Pool.Slice (Call.Of index) (Call.Spares index) pool.programs part.programs ∧
      ShowsAlike index pool.state.1 part.state.1 ∧
      (part.state.2 = pool.state.2.filter fun write => write.index = index) ∧
      ∀ (α : Type) (program : Driver α) calls outcome last, program.Makes (Call.Of index) →
        Pool.Beside LifecycleBackend.acts (Runs issued) program pool calls outcome last →
        Roomy last.state →
        ∃ last' : Drivers σ,
          Pool.Beside LifecycleBackend.acts (RunsOf issued index) program part calls outcome
            last' ∧
          ShowsAlike index last.state.1 last'.state.1 ∧
          last'.state.2 = last.state.2.filter fun write => write.index = index

variable {issued : LifecycleOperation M P R → Prop} {limit : Option Nat}
  {Represents : σ → Store → Prop}

/-- What runs on a backend calls for one index alone, or spares it. -/
theorem runs_apart {program : Driver Unit} (h : Runs issued program) (index : IndexIdentity) :
    program.Makes (Call.Of index) ∨ program.Makes (Call.Spares index) := by
  have hwhole {other : IndexIdentity} (hof : program.Makes (Call.Of other)) :
      program.Makes (Call.Of index) ∨ program.Makes (Call.Spares index) := by
    by_cases hindex : other = index
    · exact .inl (hindex ▸ hof)
    · exact .inr (hof.imp fun _ hcall => hcall.spares hindex)
  cases h with
  | @apply operation asked =>
    exact hwhole ((Driver.apply_of operation).bind fun _ => .done _)
  | quarantine write => exact hwhole (Driver.commit_of (.quarantine write))
  | reads hreads => exact .inr (hreads.imp fun _ hread => hread.spares index)

theorem Adapter.keepsApart (adapter : Adapter σ limit Represents) {start : σ}
    (hstart : Represents start .empty) (index : IndexIdentity) :
    KeepsApart issued start index where
  frame pool call answer after hreached hspares hacts := by
    obtain ⟨world, hrepresents, -, -⟩ := adapter.reached hstart hreached
    obtain ⟨-, hafter⟩ := adapter.acted hrepresents hacts
    have halike : (world.store.after limit call).Alike index world.store :=
      (Store.Alike.refl index world.store).spared hspares
    refine ⟨(adapter.showsAlike hafter hrepresents halike).symm, ?_⟩
    intro listed listed' hlisted hlisted'
    have hsame := adapter.shows_reply hrepresents (by simp [Call.Reads]) hlisted
    have hsame' := adapter.shows_reply hafter (by simp [Call.Reads]) hlisted'
    cases hsame
    cases hsame'
    exact world.store.quarantinedOf_spared hspares
  slices pool hreached hroomy := by
    have hinit : PartOf Represents index (start, []) (start, []) :=
      ⟨⟨_, _, hstart, hstart, .refl index _, .empty, .empty⟩, rfl⟩
    have hstarts : ∀ program : Driver Unit, Runs issued program →
        program.Makes (Call.Of index) ∨ program.Makes (Call.Spares index) :=
      fun program hruns => runs_apart hruns index
    have hshown {whole part : σ × List Write} (hpart : PartOf Represents index whole part) :
        ShowsAlike index whole.1 part.1 := by
      obtain ⟨⟨store, slice, hwhole, hslice, halike, -, -⟩, -⟩ := hpart
      exact adapter.showsAlike hwhole hslice halike
    have hseparates := adapter.separates index
    obtain ⟨state, kept, hpart, hslice, hR⟩ :=
      hseparates.reachable hstarts hinit hreached hroomy
    refine ⟨⟨state, kept⟩, hpart, hslice, hshown hR, hR.writes, ?_⟩
    intro α program calls outcome last hmakes hbeside hlast
    obtain ⟨state', kept', hbeside', -, hR'⟩ :=
      hseparates.beside hstarts hmakes hslice hR hbeside hlast
    exact ⟨⟨state', kept'⟩, hbeside', hshown hR', hR'.writes⟩

/-- On both adapters, operations and readers of an index call for that index alone, and what
runs on other indexes can be left out. -/
theorem indexes_apart (index : IndexIdentity) :
    (∀ operation : LifecycleOperation M P R,
      (Driver.apply operation).Makes (Call.Of operation.index)) ∧
    (Driver.index R index : Driver (PublishedIndex M P)).Makes (Call.Of index) ∧
    KeepsApart issued Atmis.LifecycleState.empty index ∧
    ∀ limit, KeepsApart issued (Thesauros.ThesaurosBackend.empty limit) index :=
  ⟨Driver.apply_of, Driver.index_of index, Atmis.adapter.keepsApart .empty index,
    fun limit => (Thesauros.adapter limit).keepsApart (.empty limit) index⟩

end Runs

end Heurema
