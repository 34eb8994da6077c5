import Heurema.Lifecycle.Drivers

/-! # A driver alone

Under the writer's lock no other write comes between the calls of a driver. What it prepares
is then a function of the contents it finds, and its publish is never refused once its stage
was let through. -/

namespace Heurema

open Serde Hnsw Digest

open Outcome (refuse ofResult)

namespace Store

variable {M P R : Type} [MemberIdentity M] [ProvenanceReference P] [RetentionReference R]
  [SerdeJson] [Unicode] [Sha256] [VectorMath]

/-- The payloads of an index. -/
def versions (store : Store) (index : IndexIdentity) (version : IndexVersion) : Option Bytes :=
  store.payloads (index, version)

/-- The writes of an operation on contents. -/
def build (store : Store) (checked : CheckedOperation M P R) : Outcome HeuremaError (Prepared R) := do
  let index := checked.operation.index
  let (head, current) ← readCurrent index (store.heads index) (store.versions index)
  let validated ← checked.permit head
  ofResult (store.refuseStaged index)
  let successor ← Apply.successor validated current
  let (plan, write) ← ofResult (encodePlan successor (store.heads index)
    validated.checked.operation)
  return ⟨plan, write⟩

/-- What an operation prepares on contents. -/
def prepare (store : Store) (operation : LifecycleOperation M P R) :
    Outcome HeuremaError (Preparation R) := do
  let checked ← CheckedOperation.check operation
  match store.records (checked.operation.index, checked.operation.key) with
  | some bytes => do
    let receipt ← replayed checked bytes
    return .replayed receipt
  | none => do
    let prepared ← store.build checked
    return .ready prepared

end Store

/-! ## One call -/

section Calls

variable {α β : Type} {σ : Type} [LifecycleBackend σ] {limit : Option Nat}
  {Represents : σ → Store → Prop} {state : σ × List Write} {store : Store}

/-- Runs a driver alone. -/
def Driver.alone (program : Driver α) (state : σ × List Write) :
    Outcome HeuremaError α × (σ × List Write) :=
  program.run LifecycleBackend.act state

open Driver (alone)

theorem alone_ok (a : α) (f : α → Driver β) : alone (.lift (.ok a) >>= f) state = alone (f a) state :=
  rfl

theorem alone_congr {outcome : Outcome HeuremaError α} {f g : α → Driver β}
    (h : ∀ a, outcome = .ok a → alone (f a) state = alone (g a) state) :
    alone (.lift outcome >>= f) state = alone (.lift outcome >>= g) state := by
  cases outcome with
  | ok a => exact h a rfl
  | error failure => rfl

theorem alone_read (adapter : Adapter σ limit Represents) (h : Represents state.1 store)
    (call : Call) (hread : call.Reads) (f : call.Reply → Driver α) :
    ∃ reply, store.Answers call reply ∧
      alone (Driver.call call >>= f) state = alone (f reply) state := by
  obtain ⟨reply, hrun, hreply⟩ := adapter.read h call hread
  have htook : call.took (.ok reply) = [] := by
    cases call with
    | write write => exact absurd rfl (hread write)
    | _ => rfl
  refine ⟨reply, hreply, ?_⟩
  show Program.run LifecycleBackend.act (.call call f) state = _
  rw [Program.run, LifecycleBackend.act, hrun]
  simp only [htook, List.append_nil]
  rfl

theorem alone_readHead (adapter : Adapter σ limit Represents) (h : Represents state.1 store)
    (index : IndexIdentity) (f : Option Bytes → Driver α) :
    alone (Driver.readHead index >>= f) state = alone (f (store.heads index)) state := by
  obtain ⟨reply, rfl, hrun⟩ := alone_read adapter h (.readHead index)
    (by simp [Call.Reads]) f
  exact hrun

theorem alone_readVersion (adapter : Adapter σ limit Represents) (h : Represents state.1 store)
    (index : IndexIdentity) (version : IndexVersion) (f : Option Bytes → Driver α) :
    alone (Driver.readVersion index version >>= f) state =
      alone (f (store.versions index version)) state := by
  obtain ⟨reply, rfl, hrun⟩ := alone_read adapter h (.readVersion index version)
    (by simp [Call.Reads]) f
  exact hrun

theorem alone_readOperation (adapter : Adapter σ limit Represents) (h : Represents state.1 store)
    (index : IndexIdentity) (key : OperationKey) (f : Option Bytes → Driver α) :
    alone (Driver.readOperation index key >>= f) state =
      alone (f (store.records (index, key))) state := by
  obtain ⟨reply, rfl, hrun⟩ := alone_read adapter h (.readOperation index key)
    (by simp [Call.Reads]) f
  exact hrun

theorem alone_readStaging (adapter : Adapter σ limit Represents) (h : Represents state.1 store)
    (index : IndexIdentity) (f : Option (IndexVersion × Bytes) → Driver α) :
    alone (Driver.readStaging index >>= f) state = alone (f (store.staged index)) state := by
  obtain ⟨reply, rfl, hrun⟩ := alone_read adapter h (.readStaging index)
    (by simp [Call.Reads]) f
  exact hrun

theorem alone_refused (adapter : Adapter σ limit Represents) (h : Represents state.1 store)
    {write : Write} {refusal : HeuremaError} (hrefused : store.admits limit write = .error refusal)
    (f : Unit → Driver α) :
    alone (Driver.commit write >>= f) state = (refuse refusal, state) := by
  have hrun : (LifecycleBackend.perform (.write write)).run state.1 = (.error refusal, state.1) :=
    adapter.refused h hrefused
  show Program.run LifecycleBackend.act (.call (.write write) f) state = _
  rw [Program.run, LifecycleBackend.act, hrun]
  simp only [Call.took, List.append_nil]
  rfl

theorem alone_admitted (adapter : Adapter σ limit Represents) (h : Represents state.1 store)
    {write : Write} (hadmitted : store.admits limit write = .ok ()) (f : Unit → Driver α) :
    ∃ after, Represents after (store.commit write) ∧
      alone (Driver.commit write >>= f) state = alone (f ()) (after, state.2 ++ [write]) := by
  obtain ⟨after, hrun, hrepresents⟩ := adapter.admitted h hadmitted
  have hrun : (LifecycleBackend.perform (.write write)).run state.1 = (.ok (), after) := hrun
  refine ⟨after, hrepresents, ?_⟩
  show Program.run LifecycleBackend.act (.call (.write write) f) state = _
  rw [Program.run, LifecycleBackend.act, hrun]
  rfl

end Calls

/-! ## What is prepared -/

section Preparing

variable {M P R : Type} [MemberIdentity M] [ProvenanceReference P] [RetentionReference R]
  [SerdeJson] [Unicode] [Sha256] {β : Type} {σ : Type} [LifecycleBackend σ] {limit : Option Nat}
  {Represents : σ → Store → Prop} {state : σ × List Write} {store : Store}

open Driver (alone)

omit [Sha256] in
/-- The current version is what the contents read as. -/
theorem current_alone (adapter : Adapter σ limit Represents) (h : Represents state.1 store)
    (index : IndexIdentity) (f : Option (IndexRecord R) → Current M P R → Driver β) :
    alone (do
      let head ← .lift ((store.heads index).mapM fun bytes => decodeHead bytes index)
      let current ← Driver.current index head
      f head current) state =
    alone (do
      let found ← .lift (readCurrent index (store.heads index) (store.versions index))
      f found.1 found.2) state := by
  cases hhead : store.heads index with
  | none => rfl
  | some bytes =>
    cases hdecoded : (decodeHead bytes index : Run (IndexRecord R)) with
    | error failure =>
      simp only [readCurrent, hdecoded, Option.mapM_some, Outcome.error_bind]
      rfl
    | ok record =>
      have hmapped : ((some bytes).mapM fun bytes => decodeHead bytes index) =
          (.ok (some record) : Run (Option (IndexRecord R))) := by
        simp only [Option.mapM_some, hdecoded]
        rfl
      rw [hmapped, alone_ok]
      simp only [readCurrent, hdecoded, Outcome.ok_bind]
      cases hstate : record.state with
      | destroyed last retention key =>
        simp only [Driver.current, hstate]
        rfl
      | active version =>
        simp only [Driver.current, Driver.activePayload, Program.bind_assoc, hstate]
        rw [alone_readVersion adapter h]
        cases store.versions index version with
        | none =>
          -- The head that is read again is the one that names the version.
          simp only [Driver.record, Program.bind_assoc]
          rw [alone_readHead adapter h, hhead]
          simp only [hdecoded, Program.bind_assoc]
          rw [alone_ok]
          simp only [Program.ok_bind, Program.pure_eq, Option.map_some, hstate]
          rfl
        | some bytes =>
          cases hactive : (decodeActive bytes index version record : Run (VersionPayload M P)) with
          | error failure =>
            simp only [hactive, Outcome.error_bind]
            rfl
          | ok payload =>
            simp only [hactive, Outcome.ok_bind]
            rfl

omit [MemberIdentity M] [ProvenanceReference P] [RetentionReference R] [SerdeJson] [Unicode]
  [Sha256] in
theorem refuseStaged_alone (adapter : Adapter σ limit Represents) (h : Represents state.1 store)
    (index : IndexIdentity) (f : Unit → Driver β) :
    alone (Driver.refuseStaged index >>= f) state =
      alone (.lift (ofResult (store.refuseStaged index)) >>= f) state := by
  simp only [Driver.refuseStaged, Program.bind_assoc]
  rw [alone_readStaging adapter h, Store.refuseStaged]
  cases store.staged index with
  | none => rfl
  | some staged => rfl

variable [VectorMath]

theorem build_alone (adapter : Adapter σ limit Represents) (h : Represents state.1 store)
    (checked : CheckedOperation M P R) (f : Prepared R → Driver β) :
    alone (Driver.build checked (store.heads checked.operation.index) >>= f) state =
      alone (.lift (store.build checked) >>= f) state := by
  simp only [Driver.build, Program.bind_assoc, Store.build, Program.lift_bind]
  rw [current_alone adapter h]
  refine alone_congr fun found _ => ?_
  refine alone_congr fun validated _ => ?_
  rw [refuseStaged_alone adapter h]
  rfl

/-- Alone, a driver prepares what the contents it finds say. -/
theorem prepare_alone (adapter : Adapter σ limit Represents) (h : Represents state.1 store)
    (operation : LifecycleOperation M P R) (f : Preparation R → Driver β) :
    alone (Driver.prepare operation >>= f) state =
      alone (.lift (store.prepare operation) >>= f) state := by
  simp only [Driver.prepare, Program.bind_assoc, Store.prepare, Program.lift_bind]
  refine alone_congr fun checked _ => ?_
  rw [alone_readHead adapter h]
  simp only [Driver.replay, Program.bind_assoc]
  rw [alone_readOperation adapter h]
  cases store.records (checked.operation.index, checked.operation.key) with
  | some bytes =>
    simp only [Program.bind_assoc, Program.lift_bind]
    rfl
  | none =>
    simp only [Program.pure_eq, Program.ok_bind, Program.bind_assoc, Program.lift_bind]
    exact build_alone adapter h checked _

end Preparing

/-! ## What is written -/

section Writing

variable {R : Type}

/-- The stage of a version. -/
def Prepared.staging (prepared : Prepared R) (expectedHead : Option Bytes) (version : IndexVersion)
    (marker payload : Bytes) : StageWrite where
  index := prepared.plan.index
  version := version
  key := prepared.plan.operation.key
  expectedHead := expectedHead
  marker := marker
  payload := payload
  headLen := prepared.plan.head.length
  operationLen := prepared.plan.record.length

def Prepared.staged (prepared : Prepared R) : Staged R := ⟨prepared.plan, prepared.write.staged⟩

/-- The writes of a prepared operation: a stage and a publish, or a destroy. -/
def Prepared.writes (prepared : Prepared R) : List Write :=
  match prepared.write with
  | .version expectedHead version marker payload =>
    [.stage (prepared.staging expectedHead version marker payload), prepared.staged.publishing]
  | .destroy _ _ => [prepared.staged.publishing]

/-- The first write of a prepared operation. -/
def Prepared.first (prepared : Prepared R) : Write :=
  match prepared.write with
  | .version expectedHead version marker payload =>
    .stage (prepared.staging expectedHead version marker payload)
  | .destroy _ _ => prepared.staged.publishing

/-- The contents after writes. -/
def Store.commitAll (store : Store) (writes : List Write) : Store := writes.foldl Store.commit store

/-- A publish is let through where its stage was. -/
theorem Store.admits_publish {store : Store} {limit : Option Nat} {prepared : Prepared R}
    {expectedHead : Option Bytes} {version : IndexVersion} {marker payload : Bytes}
    (hwrite : prepared.write = .version expectedHead version marker payload)
    (h : store.admits limit (.stage (prepared.staging expectedHead version marker payload)) =
      .ok ()) :
    (store.commit (.stage (prepared.staging expectedHead version marker payload))).admits limit
      prepared.staged.publishing = .ok () := by
  obtain ⟨plan, write⟩ := prepared
  cases hwrite
  obtain ⟨hsizes, hcheck⟩ := Outcome.then_eq_ok.mp h
  obtain ⟨hhead, -, -, hrecord⟩ := Store.check_stage.mp hcheck
  refine Outcome.then_eq_ok.mpr ⟨?_, Store.check_publish.mpr ⟨hhead, ?_, ⟨payload, ?_⟩, hrecord⟩⟩
  · -- The stage checked the sizes of what its publish writes.
    cases limit with
    | none => exact refuseOversized_none _
    | some limit =>
      rw [refuseOversized_eq_ok] at hsizes ⊢
      intro size hsize
      exact hsizes size (List.mem_cons_of_mem _ (List.mem_cons_of_mem _ hsize))
  · exact Function.update_self ..
  · exact Function.update_self ..

variable {σ : Type} [LifecycleBackend σ] {limit : Option Nat}
  {Represents : σ → Store → Prop} {state : σ × List Write} {store : Store} {prepared : Prepared R}

open Driver (alone)

/-- A prepared operation whose first write is refused writes nothing. -/
theorem finish_refused (adapter : Adapter σ limit Represents) (h : Represents state.1 store)
    {refusal : HeuremaError} (hrefused : store.admits limit prepared.first = .error refusal) :
    alone (prepared.stage >>= Staged.publish) state = (refuse refusal, state) := by
  obtain ⟨plan, write⟩ := prepared
  cases write with
  | version expectedHead version marker payload =>
    exact alone_refused adapter h hrefused _
  | destroy expectedHead versions => exact alone_refused adapter h hrefused _

/-- A prepared operation whose first write is let through is published. -/
theorem finish_admitted (adapter : Adapter σ limit Represents) (h : Represents state.1 store)
    (hadmitted : store.admits limit prepared.first = .ok ()) :
    ∃ after, Represents after (store.commitAll prepared.writes) ∧
      alone (prepared.stage >>= Staged.publish) state =
        (.ok (prepared.plan.receipt false), after, state.2 ++ prepared.writes) := by
  obtain ⟨plan, write⟩ := prepared
  cases write with
  | version expectedHead version marker payload =>
    let prepared : Prepared R := ⟨plan, .version expectedHead version marker payload⟩
    obtain ⟨staged, hstaged, hrun⟩ := alone_admitted adapter h hadmitted fun _ =>
      prepared.staged.publish
    have hpublish : Store.admits _ limit prepared.staged.publishing = .ok () :=
      Store.admits_publish rfl hadmitted
    have hrepresents : Represents
        (staged, state.2 ++ [.stage (prepared.staging expectedHead version marker payload)]).1
        (store.commit (.stage (prepared.staging expectedHead version marker payload))) := hstaged
    obtain ⟨after, hafter, hrun'⟩ := alone_admitted adapter hrepresents hpublish fun _ =>
      (return plan.receipt false : Driver (PublishReceipt R))
    refine ⟨after, hafter, ?_⟩
    refine (hrun.trans hrun').trans ?_
    show (_, after, (state.2 ++ [_]) ++ [_]) = _
    rw [List.append_assoc]
    rfl
  | destroy expectedHead versions =>
    obtain ⟨after, hafter, hrun⟩ := alone_admitted adapter h hadmitted fun _ =>
      (return plan.receipt false : Driver (PublishReceipt R))
    exact ⟨after, hafter, hrun⟩

end Writing

/-! ## An operation -/

section Applying

variable {M P R : Type} [MemberIdentity M] [ProvenanceReference P] [RetentionReference R]
  [SerdeJson] [Unicode] [Sha256] [VectorMath] {σ : Type} [LifecycleBackend σ]
  {limit : Option Nat} {Represents : σ → Store → Prop} {state : σ × List Write} {store : Store}
  {operation : LifecycleOperation M P R}

open Driver (alone)

theorem apply_alone (adapter : Adapter σ limit Represents) (h : Represents state.1 store)
    (operation : LifecycleOperation M P R) :
    alone (Driver.apply operation) state =
      alone (do
        match ← .lift (store.prepare operation) with
        | .replayed receipt => return receipt
        | .ready prepared =>
          let staged ← prepared.stage
          staged.publish) state :=
  prepare_alone adapter h operation _

/-- An operation that cannot be prepared changes nothing. -/
theorem apply_failed (adapter : Adapter σ limit Represents) (h : Represents state.1 store)
    {failure : Failure HeuremaError} (hprepare : store.prepare operation = .error failure) :
    alone (Driver.apply operation) state = (.error failure, state) := by
  rw [apply_alone adapter h, hprepare]
  rfl

/-- An operation that is replayed changes nothing. -/
theorem apply_replayed (adapter : Adapter σ limit Represents) (h : Represents state.1 store)
    {receipt : PublishReceipt R} (hprepare : store.prepare operation = .ok (.replayed receipt)) :
    alone (Driver.apply operation) state = (.ok receipt, state) := by
  rw [apply_alone adapter h, hprepare]
  rfl

theorem apply_ready (adapter : Adapter σ limit Represents) (h : Represents state.1 store)
    {prepared : Prepared R} (hprepare : store.prepare operation = .ok (.ready prepared)) :
    alone (Driver.apply operation) state = alone (prepared.stage >>= Staged.publish) state := by
  rw [apply_alone adapter h, hprepare]
  rfl

/-- What an operation prepares, when it prepares: a recorded outcome, or writes. -/
theorem Store.prepare_cases {preparation : Preparation R}
    (h : store.prepare operation = .ok preparation) : ∃ checked : CheckedOperation M P R,
      CheckedOperation.check operation = .ok checked ∧
      ((∃ bytes receipt, store.records (operation.index, operation.key) = some bytes ∧
          replayed checked bytes = .ok receipt ∧ preparation = .replayed receipt) ∨
        ∃ prepared, store.records (operation.index, operation.key) = none ∧
          store.build checked = .ok prepared ∧ preparation = .ready prepared) := by
  obtain ⟨checked, hchecked, h⟩ := Outcome.bind_eq_ok.mp h
  refine ⟨checked, hchecked, ?_⟩
  rw [← CheckedOperation.check_operation hchecked]
  cases hrecord : store.records (checked.operation.index, checked.operation.key) with
  | some bytes =>
    rw [hrecord] at h
    obtain ⟨receipt, hreceipt, h⟩ := Outcome.bind_eq_ok.mp h
    exact .inl ⟨bytes, receipt, rfl, hreceipt, (Except.ok.inj h).symm⟩
  | none =>
    rw [hrecord] at h
    obtain ⟨prepared, hprepared, h⟩ := Outcome.bind_eq_ok.mp h
    exact .inr ⟨prepared, rfl, hprepared, (Except.ok.inj h).symm⟩

/-- What is built on contents. -/
theorem Store.build_eq_ok {checked : CheckedOperation M P R} {prepared : Prepared R}
    (h : store.build checked = .ok prepared) : ∃ publication : Publication M P R,
      publication.checked = checked ∧ prepared = ⟨publication.plan, publication.write⟩ ∧
      store.staged checked.operation.index = none ∧
      ∃ head current validated,
        readCurrent checked.operation.index (store.heads checked.operation.index)
          (store.versions checked.operation.index) = .ok (head, current) ∧
        checked.permit head = .ok validated ∧
        Apply.successor validated current = .ok publication.next ∧
        encodePlan publication.next (store.heads checked.operation.index) checked.operation =
          .ok (publication.plan, publication.write) := by
  obtain ⟨found, hread, h⟩ := Outcome.bind_eq_ok.mp h
  obtain ⟨head, current⟩ := found
  obtain ⟨validated, hpermit, h⟩ := Outcome.bind_eq_ok.mp h
  obtain ⟨_, hstaged, h⟩ := Outcome.bind_eq_ok.mp h
  obtain ⟨next, hnext, h⟩ := Outcome.bind_eq_ok.mp h
  obtain ⟨planned, hplanned, h⟩ := Outcome.bind_eq_ok.mp h
  obtain ⟨plan, write⟩ := planned
  rw [(permit_eq_ok hpermit).1] at hplanned
  refine ⟨⟨checked, next, plan, write⟩, rfl, (Except.ok.inj h).symm, ?_, head, current, validated,
    hread, hpermit, hnext, Outcome.ofResult_eq_ok.mp hplanned⟩
  exact Store.refuseStaged_eq_ok.mp (Outcome.ofResult_eq_ok.mp hstaged)

variable {issued : LifecycleOperation M P R → Prop} {index : IndexIdentity}
  {log : List (Commit M P R)}

/-- The contents of an index are read as its chain. -/
theorem Store.Reflects.read (h : store.Reflects issued index log) :
    (readCurrent index (store.heads index) (store.versions index) :
      Outcome HeuremaError (Option (IndexRecord R) × Current M P R)) =
    readCurrent index (Chain.head log) (Chain.payload log) := by
  rw [h.head]
  cases h.chain.top with
  | absent hempty =>
    subst hempty
    rfl
  | active hheaded hdecoded hnumbered =>
    have hpayload := h.payload hnumbered.le
    simp only [readCurrent, hheaded, hdecoded, Outcome.ok_bind, Store.versions, hpayload]
  | destroyed hheaded hdecoded =>
    simp only [readCurrent, hheaded, hdecoded, Outcome.ok_bind]

/-- What is built on the contents of an index is built on its chain. -/
theorem Store.Reflects.builds (h : store.Reflects issued index log)
    {checked : CheckedOperation M P R} (hissued : issued checked.operation)
    (hindex : checked.operation.index = index) {prepared : Prepared R}
    (hbuild : store.build checked = .ok prepared) : ∃ publication : Publication M P R,
      publication.checked = checked ∧ prepared = ⟨publication.plan, publication.write⟩ ∧
      store.staged index = none ∧
      Builds issued index (Chain.head log) (Chain.payload log) publication := by
  obtain ⟨publication, rfl, hprepared, hstaged, head, current, validated, hread, hpermit, hnext,
    hencoded⟩ := Store.build_eq_ok hbuild
  subst hindex
  rw [h.read] at hread
  rw [h.head] at hencoded
  exact ⟨publication, rfl, hprepared, hstaged, hissued, rfl, head, current, validated, hread,
    hpermit, hnext, hencoded⟩

/-- A program that runs alone leaves a state that drivers reach. -/
theorem reached_alone {start : σ} {programs : List (Driver Unit)} {program : Driver Unit}
    (h : Reached issued start ⟨state, programs⟩) (hruns : Runs issued program) :
    Reached issued start ⟨(alone program state).2, programs⟩ := by
  have hstarted : Reached issued start ⟨state, program :: programs⟩ := h.step (.start hruns)
  have hact (call : Call) (before : σ × List Write) : LifecycleBackend.acts call before
    (LifecycleBackend.act call before).1 (LifecycleBackend.act call before).2 := rfl
  exact hstarted.alone hact

/-- So does an operation that runs alone. -/
theorem reached_apply {start : σ} {programs : List (Driver Unit)}
    (h : Reached issued start ⟨state, programs⟩) (hissued : issued operation) :
    Reached issued start ⟨(alone (Driver.apply operation) state).2, programs⟩ := by
  have hlast := reached_alone h (.apply hissued)
  have hsame : (alone (do let _ ← Driver.apply operation) state).2 =
      (alone (Driver.apply operation) state).2 := by
    rw [alone, alone, Program.run_bind]
    cases hrun : (Driver.apply operation).run LifecycleBackend.act state with
    | mk outcome after =>
      cases outcome with
      | ok receipt => rfl
      | error failure => rfl
  rw [hsame] at hlast
  exact hlast

end Applying

end Heurema
