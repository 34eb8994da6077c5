import Heurema.Adapters.Receipts
import Heurema.Data.Slice
import Heurema.Lifecycle.History

/-! # Nothing unreadable is overwritten

Whatever is stored and whatever else runs, an operation writes only where it could read the head
and the active version of its index and was permitted on them, and the head that a write of it
finds is the one it read. -/

namespace Heurema

open Serde Hnsw Digest

open Outcome (refuse)

open LifecycleBackend (Shows)

open Driver (alone)

/-- Where two sequences are one, what the first part of one does not have comes after it. -/
theorem append_split {α : Type} {first rest early late : List α} {a : α} (hnot : a ∉ early)
    (h : first ++ a :: rest = early ++ late) :
    ∃ between, first = early ++ between ∧ late = between ++ a :: rest := by
  rcases List.append_eq_append_iff.mp h with hshort | hlong
  · obtain ⟨between, rfl, hrest⟩ := hshort
    cases between with
    | nil => exact ⟨[], by simp, hrest.symm⟩
    | cons other between =>
      cases hrest
      simp at hnot
  · obtain ⟨between, rfl, rfl⟩ := hlong
    exact ⟨between, rfl, rfl⟩

section Definitions

variable {M P R : Type} [MemberIdentity M] [ProvenanceReference P] [RetentionReference R]
  [SerdeJson] [Unicode] [Sha256] [VectorMath]

/-- What an operation was prepared from: the head it read and the payload of the active version of
that head, both decoded, no record under its key and nothing staged. -/
structure Grounded (operation : LifecycleOperation M P R)
    (calls : List (Σ call : Call, Except HeuremaError call.Reply)) (head payload : Option Bytes)
    (record : Option (IndexRecord R)) (current : Current M P R) (prepared : Prepared R) : Prop where
  headed : ⟨.readHead operation.index, .ok head⟩ ∈ calls
  stored : ∀ active version, record = some active → active.state = .active version →
    ⟨.readVersion operation.index version, .ok payload⟩ ∈ calls
  fresh : ⟨.readOperation operation.index operation.key, .ok none⟩ ∈ calls
  unstaged : ⟨.readStaging operation.index, .ok none⟩ ∈ calls
  read : readCurrent operation.index head (fun _ => payload) = .ok (record, current)
  planned : ∃ checked validated next, CheckedOperation.check operation = .ok checked ∧
    checked.permit record = .ok validated ∧ Apply.successor validated current = .ok next ∧
    encodePlan next head operation = .ok (prepared.plan, prepared.write)

end Definitions

section Reads

variable {M P R : Type} [MemberIdentity M] [ProvenanceReference P] [RetentionReference R]
  [SerdeJson] [Unicode] [Sha256] {σ : Type} {acts : Acts Call.Reply HeuremaError σ}
  {starts : Driver Unit → Prop} {pool last : Pool Call.Reply HeuremaError σ Unit}
  {calls : List (Σ call : Call, Except HeuremaError call.Reply)} {index : IndexIdentity}

omit [Sha256] in
theorem decoded_head {head : Option Bytes} {record : IndexRecord R}
    (h : (head.mapM fun bytes => decodeHead bytes index) = .ok (some record)) :
    ∃ bytes, head = some bytes ∧ decodeHead bytes index = .ok record := by
  cases head with
  | none => cases h
  | some bytes =>
    obtain ⟨decoded, hdecoded, hsame⟩ := Outcome.bind_eq_ok.mp h
    cases hsame
    exact ⟨bytes, rfl, hdecoded⟩

omit [Sha256] in
/-- A payload that is returned was read under its version, and decodes. -/
theorem activePayload_grounded {version : IndexVersion} {head : IndexRecord R}
    {payload : VersionPayload M P}
    (h : Pool.Beside acts starts (Driver.activePayload index version head) pool calls
      (.ok (some payload)) last) :
    ∃ bytes, ⟨.readVersion index version, .ok (some bytes)⟩ ∈ calls ∧
      decodeActive bytes index version head = .ok payload := by
  unfold Driver.activePayload at h
  obtain ⟨reply, rest, pool', rfl, hnext⟩ := h.of_perform
  cases reply with
  | none =>
    -- Whatever is read of the head again, nothing is returned.
    exfalso
    refine hnext.yields (P := fun found => found ≠ some payload) ?_ _ rfl rfl
    refine .after fun again => ?_
    split
    · exact .done fun _ hpayload => by cases hpayload
    · exact .pure fun hpayload => by cases hpayload
  | some bytes =>
    cases hactive : decodeActive (M := M) (P := P) bytes index version head with
    | error failure =>
      simp only [hactive] at hnext
      cases hnext.of_done.2
    | ok active =>
      simp only [hactive, Program.lift_ok] at hnext
      cases hnext.of_done.2
      exact ⟨bytes, List.mem_cons_self, hactive⟩

omit [Sha256] in
/-- The payload of the active version that was read after a head. -/
theorem current_grounded {record : Option (IndexRecord R)} {current : Current M P R}
    (h : Pool.Beside acts starts (Driver.current index record) pool calls (.ok current) last) :
    ∃ payload : Option Bytes,
      (∀ active version, record = some active → active.state = .active version →
        ⟨.readVersion index version, .ok payload⟩ ∈ calls) ∧
      ∀ head : Option Bytes, (head.mapM fun bytes => decodeHead bytes index) = .ok record →
        readCurrent index head (fun _ => payload) = .ok (record, current) := by
  cases record with
  | none =>
    cases h.of_done.2
    refine ⟨none, ?_, ?_⟩
    · intro active version hnone
      cases hnone
    · intro head hhead
      cases head with
      | none => rfl
      | some bytes =>
        obtain ⟨record, -, hrecord⟩ := Outcome.bind_eq_ok.mp hhead
        cases hrecord
  | some record =>
    cases hstate : record.state with
    | destroyed last retention key =>
      simp only [Driver.current, hstate] at h
      cases h.of_done.2
      refine ⟨none, ?_, ?_⟩
      · intro active version hactive hversion
        cases hactive
        rw [hstate] at hversion
        cases hversion
      · intro head hhead
        obtain ⟨bytes, rfl, hdecoded⟩ := decoded_head hhead
        simp only [readCurrent, hdecoded, Outcome.ok_bind, hstate, Outcome.pure_eq]
    | active version =>
      simp only [Driver.current, hstate] at h
      rcases h.of_bind with hfailed | hread
      · obtain ⟨failure, -, hfailure⟩ := hfailed
        cases hfailure
      · obtain ⟨first, second, found, middle, rfl, hfound, h⟩ := hread
        cases found with
        | none => cases h.of_done.2
        | some payload =>
          cases h.of_done.2
          obtain ⟨bytes, hmem, hactive⟩ := activePayload_grounded hfound
          refine ⟨some bytes, ?_, ?_⟩
          · intro active named hsame hnamed
            cases hsame
            rw [hstate] at hnamed
            cases hnamed
            exact List.mem_append_left _ hmem
          · intro head hhead
            obtain ⟨stored, rfl, hdecoded⟩ := decoded_head hhead
            simp only [readCurrent, hdecoded, Outcome.ok_bind, hstate, hactive, Outcome.pure_eq]

variable [VectorMath] {operation : LifecycleOperation M P R}

/-- What an operation is built from, on the head it read. -/
theorem build_grounded {checked : CheckedOperation M P R}
    (hchecks : CheckedOperation.check checked.operation = .ok checked) {head : Option Bytes}
    {prepared : Prepared R}
    (h : Pool.Beside acts starts (Driver.build checked head) pool calls (.ok prepared) last)
    {prior : List (Σ call : Call, Except HeuremaError call.Reply)}
    (hhead : ⟨.readHead checked.operation.index, .ok head⟩ ∈ prior)
    (hfresh : ⟨.readOperation checked.operation.index checked.operation.key, .ok none⟩ ∈ prior) :
    ∃ payload record current,
      Grounded checked.operation (prior ++ calls) head payload record current prepared := by
  unfold Driver.build at h
  cases hdecoded : (head.mapM fun bytes =>
      (decodeHead bytes checked.operation.index : Run (IndexRecord R))) with
  | error failure =>
    simp only [hdecoded] at h
    cases h.of_done.2
  | ok record =>
    simp only [hdecoded, Program.lift_ok] at h
    rcases h.of_bind with hfailed | hread
    · obtain ⟨failure, -, hfailure⟩ := hfailed
      cases hfailure
    · obtain ⟨first, second, current, middle, rfl, hcurrent, hnext⟩ := hread
      obtain ⟨payload, hstored, hreads⟩ := current_grounded hcurrent
      cases hpermit : checked.permit record with
      | error failure =>
        rw [hpermit] at hnext
        cases hnext.of_done.2
      | ok validated =>
        rw [hpermit, Program.lift_ok] at hnext
        simp only [Driver.refuseStaged, Program.bind_assoc] at hnext
        obtain ⟨staging, rest, pool', rfl, hrest⟩ := hnext.of_perform
        cases staging with
        | some staged => cases hrest.of_done.2
        | none =>
          have hvalidated := (permit_eq_ok hpermit).1
          cases hsuccessor : Apply.successor validated current with
          | error failure =>
            rw [hsuccessor] at hrest
            cases hrest.of_done.2
          | ok next =>
            simp only [hsuccessor, Program.lift_ok] at hrest
            cases hplan : encodePlan next head checked.operation with
            | error failure =>
              simp only [hvalidated, hplan] at hrest
              cases hrest.of_done.2
            | ok planned =>
              simp only [hvalidated, hplan] at hrest
              cases hrest.of_done.2
              refine ⟨payload, record, current, ?_⟩
              constructor
              case headed => exact List.mem_append_left _ hhead
              case stored =>
                intro active version hactive hversion
                have hmem := hstored active version hactive hversion
                exact List.mem_append_right _ (List.mem_append_left _ hmem)
              case fresh => exact List.mem_append_left _ hfresh
              case unstaged =>
                exact List.mem_append_right _ (List.mem_append_right _ List.mem_cons_self)
              case read => exact hreads head hdecoded
              case planned => exact ⟨checked, validated, next, hchecks, hpermit, hsuccessor, hplan⟩

/-- What an operation that is prepared read. -/
theorem prepare_grounded {prepared : Prepared R}
    (h : Pool.Beside acts starts (Driver.prepare operation) pool calls (.ok (.ready prepared)) last) :
    ∃ head payload record current, Grounded operation calls head payload record current prepared := by
  unfold Driver.prepare at h
  cases hchecks : CheckedOperation.check operation with
  | error failure =>
    rw [hchecks] at h
    cases h.of_done.2
  | ok checked =>
    obtain rfl := CheckedOperation.check_operation hchecks
    rw [hchecks, Program.lift_ok] at h
    obtain ⟨head, rest, pool', rfl, hnext⟩ := h.of_perform
    simp only [Driver.replay, Program.bind_assoc] at hnext
    obtain ⟨recorded, rest, pool'', rfl, hrest⟩ := hnext.of_perform
    cases recorded with
    | some bytes =>
      cases hreplayed : replayed checked bytes with
      | error failure =>
        simp only [hreplayed] at hrest
        cases hrest.of_done.2
      | ok receipt =>
        simp only [hreplayed] at hrest
        cases hrest.of_done.2
    | none =>
      have hrest : Pool.Beside acts starts (Driver.build checked head >>= fun prepared =>
          pure (Preparation.ready prepared)) pool'' rest (.ok (.ready prepared)) last := hrest
      rcases hrest.of_bind with hfailed | hbuilt
      · obtain ⟨failure, -, hfailure⟩ := hfailed
        cases hfailure
      · obtain ⟨first, second, built, middle, rfl, hbuild, hlast⟩ := hbuilt
        obtain ⟨rfl, hsame⟩ := hlast.of_done
        cases hsame
        let prior : List (Σ call : Call, Except HeuremaError call.Reply) :=
          [⟨.readHead checked.operation.index, .ok head⟩,
            ⟨.readOperation checked.operation.index checked.operation.key, .ok none⟩]
        have hhead : ⟨.readHead checked.operation.index, .ok head⟩ ∈ prior := List.mem_cons_self
        have hfresh : ⟨.readOperation checked.operation.index checked.operation.key, .ok none⟩ ∈ prior :=
          List.mem_cons_of_mem _ List.mem_cons_self
        obtain ⟨payload, record, current, hgrounded⟩ :=
          build_grounded hchecks hbuild hhead hfresh
        rw [List.append_nil]
        exact ⟨head, payload, record, current, hgrounded⟩

omit [MemberIdentity M] [ProvenanceReference P] [RetentionReference R] [SerdeJson] [Unicode]
  [Sha256] [VectorMath] in
/-- A prepared operation makes its own writes and no others. -/
theorem Prepared.makes (prepared : Prepared R) :
    (prepared.stage >>= Staged.publish).Makes fun call =>
      ∃ write ∈ prepared.writes, call = .write write := by
  obtain ⟨plan, write⟩ := prepared
  cases write with
  | version expectedHead version marker payload =>
    refine .call ⟨_, List.mem_cons_self, rfl⟩ fun _ => ?_
    exact .call ⟨_, List.mem_cons_of_mem _ List.mem_cons_self, rfl⟩ fun _ => .done _
  | destroy expectedHead versions =>
    exact .call ⟨_, List.mem_cons_self, rfl⟩ fun _ => .done _

/-- An operation makes the writes of what it was prepared from before. -/
theorem apply_grounded {outcome : Outcome HeuremaError (PublishReceipt R)}
    {first rest : List (Σ call : Call, Except HeuremaError call.Reply)} {write : Write}
    {answer : Except HeuremaError Unit}
    (h : Pool.Beside acts starts (Driver.apply operation) pool
      (first ++ ⟨.write write, answer⟩ :: rest) outcome last) :
    ∃ head payload record current prepared,
      Grounded operation first head payload record current prepared ∧ write ∈ prepared.writes := by
  have hreads {early : List (Σ call : Call, Except HeuremaError call.Reply)}
      (hearly : ∀ made ∈ early, made.1.Reads) : ⟨.write write, answer⟩ ∉ early :=
    fun hmem => absurd rfl (hearly _ hmem write)
  rcases h.of_bind with hfailed | hprepared
  · obtain ⟨failure, hprepare, rfl⟩ := hfailed
    have hmakes := hprepare.makes (Driver.prepare_reads operation)
    exact absurd (List.mem_append_right _ List.mem_cons_self) (hreads hmakes)
  · obtain ⟨early, late, preparation, middle, hcalls, hprepare, hrest⟩ := hprepared
    have hmakes := hprepare.makes (Driver.prepare_reads operation)
    obtain ⟨between, rfl, rfl⟩ := append_split (hreads hmakes) hcalls
    cases preparation with
    | replayed receipt =>
      have hnone := hrest.of_done.1
      simp at hnone
    | ready prepared =>
      obtain ⟨head, payload, record, current, hgrounded⟩ := prepare_grounded hprepare
      obtain ⟨made, hmade, hsame⟩ := hrest.makes prepared.makes _
        (List.mem_append_right _ List.mem_cons_self)
      cases hsame
      refine ⟨head, payload, record, current, prepared, ?_, hmade⟩
      exact { hgrounded with
        headed := List.mem_append_left _ hgrounded.headed
        stored := fun active version hactive hversion =>
          List.mem_append_left _ (hgrounded.stored active version hactive hversion)
        fresh := List.mem_append_left _ hgrounded.fresh
        unstaged := List.mem_append_left _ hgrounded.unstaged }

end Reads

/-! ## What a write finds -/

section Finds

variable {M P R : Type} [MemberIdentity M] [ProvenanceReference P] [RetentionReference R]
  [SerdeJson] [Unicode] [Sha256] [VectorMath] {operation : LifecycleOperation M P R}
  {calls : List (Σ call : Call, Except HeuremaError call.Reply)} {head payload : Option Bytes}
  {record : Option (IndexRecord R)} {current : Current M P R} {prepared : Prepared R}

/-- A write of a prepared operation names the index, the key and the head that it was prepared
from, and is let through only where it finds that head, and nothing it would overwrite. -/
theorem Grounded.finds (h : Grounded operation calls head payload record current prepared)
    {write : Write} (hmem : write ∈ prepared.writes) {store : Store}
    (hcheck : store.check write = .ok ()) :
    store.heads operation.index = head ∧ store.records (operation.index, operation.key) = none ∧
      ∀ stage, write = .stage stage → stage.index = operation.index ∧
        store.payloads (operation.index, stage.version) = none ∧
        store.staged operation.index = none := by
  obtain ⟨checked, validated, next, hchecks, hpermit, hsuccessor, hplan⟩ := h.planned
  have hvalidated := (permit_eq_ok hpermit).1
  obtain ⟨hnamed, hidentity, -⟩ := successor_named hsuccessor
  obtain ⟨hplanned, -, -, hindex, hoperation, -, -⟩ := encodePlan_eq_ok hplan
  obtain rfl := CheckedOperation.check_operation hchecks
  rw [hvalidated] at hnamed hidentity
  have hindex : prepared.plan.index = checked.operation.index := hindex.trans hnamed
  have hkey : prepared.plan.operation.key = checked.operation.key :=
    (congrArg OperationIdentity.key (hoperation.trans hidentity)).trans checked.key
  rw [← hindex, ← hkey]
  obtain ⟨plan, planned⟩ := prepared
  cases hpayload : next.payload with
  | none =>
    obtain ⟨expected, _, _, _, versions, rfl, -, -, hdestroys⟩ :=
      plannedWrite_destroy hpayload hplanned
    cases hdestroys
    obtain rfl := List.mem_singleton.mp hmem
    obtain ⟨hhead, -, hrecord⟩ := Store.check_destroy.mp hcheck
    refine ⟨hhead, hrecord, ?_⟩
    intro stage hstage
    cases hstage
  | some built =>
    obtain ⟨marker, bytes, hversion, -, -⟩ := plannedWrite_version hpayload hplanned
    cases hversion
    rcases List.mem_cons.mp hmem with rfl | hpublish
    · obtain ⟨hhead, hstaged, hpayload, hrecord⟩ := Store.check_stage.mp hcheck
      refine ⟨hhead, hrecord, ?_⟩
      intro stage hstage
      cases hstage
      exact ⟨rfl, hpayload, hstaged⟩
    · obtain rfl := List.mem_singleton.mp hpublish
      obtain ⟨hhead, -, -, hrecord⟩ := Store.check_publish.mp hcheck
      refine ⟨hhead, hrecord, ?_⟩
      intro stage hstage
      cases hstage

end Finds

/-! ## On the adapters -/

section Adapters

variable {M P R : Type} [MemberIdentity M] [ProvenanceReference P] [RetentionReference R]
  [SerdeJson] [Unicode] [Sha256] [VectorMath] {σ : Type} [LifecycleBackend σ]
  {limit : Option Nat} {Represents : σ → Store → Prop} {operation : LifecycleOperation M P R}

/-- A backend that shows the head a write was prepared from, no record under its key, and nothing
where it stages. -/
structure Clears (state : σ) (operation : LifecycleOperation M P R) (head : Option Bytes)
    (write : Write) : Prop where
  head : Shows state (.readHead operation.index) head
  record : Shows state (.readOperation operation.index operation.key) none
  stage : ∀ stage, write = .stage stage →
    Shows state (.readVersion operation.index stage.version) none ∧
      Shows state (.readStaging operation.index) none

/-- On a backend with any contents and beside any programs, an operation writes only what it was
prepared for from what it read before, and where it makes a write that takes effect, the backend
shows the head that was read. Alone where the head or the active version of its index cannot be
read, it changes nothing. -/
structure OverwritesRead (Represents : σ → Store → Prop) (operation : LifecycleOperation M P R) :
    Prop where
  grounded : ∀ (starts : Driver Unit → Prop) (pool last : Drivers σ) first write answer rest outcome
      store, Represents pool.state.1 store →
    Pool.Beside LifecycleBackend.acts starts (Driver.apply operation) pool
      (first ++ ⟨.write write, answer⟩ :: rest) outcome last →
    ∃ head payload record current prepared,
      Grounded operation first head payload record current prepared ∧
      write ∈ prepared.writes ∧ ∃ next middle after,
        Pool.Along LifecycleBackend.acts starts (Driver.apply operation) pool first
          (.call (.write write) next) middle ∧
        LifecycleBackend.acts (.write write) middle.state answer after ∧
        Pool.Beside LifecycleBackend.acts starts (Program.resume next answer)
          { middle with state := after } rest outcome last ∧
        (answer = .ok () → Clears middle.state.1 operation head write)
  unread : ∀ (state : σ × List Write) store failure, Represents state.1 store →
    (readCurrent operation.index (store.heads operation.index) (store.versions operation.index) :
      Run (Option (IndexRecord R) × Current M P R)) = .error failure →
    ∃ outcome, alone (Driver.apply operation) state = (outcome, state) ∧
      ∀ checked, CheckedOperation.check operation = .ok checked →
        store.records (operation.index, operation.key) = none → outcome = .error failure

/-- What cannot be read alone is refused as it reads. -/
theorem Adapter.unread (adapter : Adapter σ limit Represents) {state : σ × List Write} {store : Store}
    (h : Represents state.1 store) {failure : Failure HeuremaError}
    (hunread : (readCurrent operation.index (store.heads operation.index)
      (store.versions operation.index) : Run (Option (IndexRecord R) × Current M P R)) =
        .error failure) :
    ∃ outcome, alone (Driver.apply operation) state = (outcome, state) ∧
      ∀ checked, CheckedOperation.check operation = .ok checked →
        store.records (operation.index, operation.key) = none → outcome = .error failure := by
  unfold Driver.apply
  rw [prepare_alone adapter h, Store.prepare]
  cases hchecks : CheckedOperation.check operation with
  | error refused =>
    refine ⟨_, rfl, ?_⟩
    intro checked hchecked
    cases hchecked
  | ok checked =>
    obtain rfl := CheckedOperation.check_operation hchecks
    have hbuild : store.build checked = .error failure := by
      simp only [Store.build, hunread, Outcome.error_bind]
    simp only [Outcome.ok_bind]
    cases hrecord : store.records (checked.operation.index, checked.operation.key) with
    | none =>
      simp only [hbuild, Outcome.error_bind]
      exact ⟨_, rfl, fun _ _ _ => rfl⟩
    | some bytes =>
      cases hreplayed : replayed checked bytes with
      | error refused =>
        simp only [hreplayed, Outcome.error_bind]
        refine ⟨_, rfl, ?_⟩
        intro _ _ hnone
        cases hnone
      | ok receipt =>
        simp only [hreplayed, Outcome.ok_bind]
        refine ⟨_, rfl, ?_⟩
        intro _ _ hnone
        cases hnone

/-- Where a write takes effect that was let through, the backend shows what lets it through. -/
theorem Grounded.clears (adapter : Adapter σ limit Represents)
    {calls : List (Σ call : Call, Except HeuremaError call.Reply)} {head payload : Option Bytes}
    {record : Option (IndexRecord R)} {current : Current M P R} {prepared : Prepared R}
    (h : Grounded operation calls head payload record current prepared) {write : Write}
    (hmem : write ∈ prepared.writes) {state : σ} {store : Store} (hrepresents : Represents state store)
    (hadmits : store.admits limit write = .ok ()) : Clears state operation head write := by
  obtain ⟨hhead, hrecord, hstage⟩ := h.finds hmem (Outcome.then_eq_ok.mp hadmits).2
  constructor
  case head =>
    rw [← hhead]
    exact adapter.shows_head hrepresents operation.index
  case record =>
    rw [← hrecord]
    exact adapter.shows_operation hrepresents operation.index operation.key
  case stage =>
    intro stage hwrite
    obtain ⟨-, hpayload, hstaged⟩ := hstage stage hwrite
    rw [← hpayload, ← hstaged]
    exact ⟨adapter.shows_version hrepresents operation.index stage.version,
      adapter.shows_staging hrepresents operation.index⟩

theorem Adapter.overwritesRead (adapter : Adapter σ limit Represents)
    (operation : LifecycleOperation M P R) : OverwritesRead Represents operation where
  grounded starts pool last first write answer rest outcome store hrepresents hbeside := by
    obtain ⟨head, payload, record, current, prepared, hgrounded, hwrite⟩ := apply_grounded hbeside
    obtain ⟨next, middle, after, hfirst, hacts, hrest⟩ := hbeside.split
    refine ⟨head, payload, record, current, prepared, hgrounded, hwrite, next, middle, after, hfirst,
      hacts, hrest, ?_⟩
    intro hanswer
    -- Every state on the way represents some contents.
    have hmiddle : ∃ store, Represents middle.state.1 store := by
      refine hfirst.keeps (I := fun state : σ × List Write => ∃ store, Represents state.1 store)
        ?_ ⟨store, hrepresents⟩
      intro call state answer state' hacts hstate
      obtain ⟨store, hstore⟩ := hstate
      obtain ⟨answer', next, hrun, -, hnext, -⟩ := adapter.replies hstore call
      have hacts : LifecycleBackend.act call state = (answer, state') := hacts
      rw [LifecycleBackend.act, hrun] at hacts
      cases hacts
      exact ⟨_, hnext⟩
    obtain ⟨found, hfound⟩ := hmiddle
    refine hgrounded.clears adapter hwrite hfound ?_
    cases hadmits : found.admits limit write with
    | ok _ => rfl
    | error refusal =>
      have hrefused : (LifecycleBackend.perform (.write write)).run middle.state.1 =
          (.error refusal, middle.state.1) := adapter.refused hfound hadmits
      have hacts : LifecycleBackend.act (.write write) middle.state = (answer, after) := hacts
      rw [LifecycleBackend.act, hrefused, hanswer] at hacts
      cases hacts
  unread state store failure hrepresents hunread := adapter.unread hrepresents hunread

/-- On both adapters, whatever is stored and whatever else runs, nothing that an operation could
not read is overwritten by it. -/
theorem overwrites_read (operation : LifecycleOperation M P R) :
    OverwritesRead Atmis.Represents operation ∧
      ∀ limit, OverwritesRead (Thesauros.Represents limit) operation :=
  ⟨Atmis.adapter.overwritesRead operation, fun limit =>
    (Thesauros.adapter limit).overwritesRead operation⟩

end Adapters

end Heurema
