import Heurema.Adapters.RealTime
import Heurema.Adapters.Separate

/-! # Destroyed indexes stay destroyed

Nothing of an index changes once it is destroyed: whatever is still at work on it, or starts
later, has no write that takes effect, and is answered that it is gone. -/

namespace Heurema

open Serde Hnsw Digest

open LifecycleBackend (Shows)

open Outcome (refuse)

section Definitions

variable {M P R : Type} [MemberIdentity M] [ProvenanceReference P] [RetentionReference R]
  [SerdeJson] [Unicode] [Sha256]

/-- The last operation of a chain destroyed its index. -/
def Chain.Destroyed (index : IndexIdentity) (log : List (Commit M P R)) : Prop :=
  ∃ head config last retention key, Chain.head log = some head ∧ decodeHead head index =
    .ok (⟨index, config, .destroyed last retention key⟩ : IndexRecord R)

/-- What an operation on a destroyed index is answered, by what is recorded under its key: its
own checks refuse it, the record answers it, or without one no transition leads out of its
state. -/
inductive AfterDestroy (operation : LifecycleOperation M P R) :
    Option Bytes → Outcome HeuremaError (PublishReceipt R) → Prop where
  | unchecked {recorded : Option Bytes} {failure : Failure HeuremaError}
      (checks : CheckedOperation.check operation = .error failure) :
    AfterDestroy operation recorded (.error failure)
  | repeated {bytes : Bytes} {record : OperationRecord M P R}
      {outcome : Outcome HeuremaError (PublishReceipt R)}
      (decoded : decodeOperation bytes operation.index operation.key = .ok record)
      (answered : Repeated record operation outcome) :
    AfterDestroy operation (some bytes) outcome
  | closed {checked : CheckedOperation M P R}
      (checks : CheckedOperation.check operation = .ok checked) :
    AfterDestroy operation none
      (refuse (.transitionNotPermitted operation.index operation.transition .destroyed))

variable [VectorMath] {σ : Type} [LifecycleBackend σ]

/-- From the write on that destroyed an index, nothing is stored of it but its head, its
records and its quarantine, no write on it takes effect, nothing that is shown of it changes,
and readers and operations find it gone. -/
structure StaysDestroyed (issued : LifecycleOperation M P R → Prop) (start : σ) : Prop where
  left : ∀ (pool : Drivers σ) write, Reached issued start pool → .destroy write ∈ pool.state.2 →
    Shows pool.state.1 (.readHead write.index) (some write.head) ∧
    Shows pool.state.1 (.readOperation write.index write.key) (some write.operation) ∧
    Shows pool.state.1 (.readStaging write.index) none ∧
    ∀ version, Shows pool.state.1 (.readVersion write.index version) none
  frozen : ∀ (pool later : Drivers σ) write, Reached issued start pool →
    .destroy write ∈ pool.state.2 →
    Relation.ReflTransGen (Pool.Step LifecycleBackend.acts (Runs issued)) pool later →
    (later.state.2.filter (·.index = write.index) =
      pool.state.2.filter (·.index = write.index)) ∧
    ShowsAlike write.index pool.state.1 later.state.1 ∧
    ∀ listed listed', Shows pool.state.1 .listQuarantined listed →
      Shows later.state.1 .listQuarantined listed' →
      quarantinedOf write.index listed' = quarantinedOf write.index listed
  reads : ∀ (pool last : Drivers σ) write calls
    (outcome : Outcome HeuremaError (PublishedIndex M P)), Reached issued start pool →
    .destroy write ∈ pool.state.2 →
    Pool.Beside LifecycleBackend.acts (Runs issued) (Driver.index R write.index) pool calls outcome
      last →
    outcome = refuse (.indexNotFound write.index.display)
  answers : ∀ (pool last : Drivers σ) write (operation : LifecycleOperation M P R) calls outcome,
    Reached issued start pool → .destroy write ∈ pool.state.2 → operation.index = write.index →
    Pool.Beside LifecycleBackend.acts (Runs issued) (Driver.apply operation) pool calls outcome
      last →
    (∃ recorded, Shows pool.state.1 (.readOperation operation.index operation.key) recorded ∧
      AfterDestroy operation recorded outcome) ∧ ∀ made ∈ calls, made.1.Reads

end Definitions

/-! ## Chains that end -/

section Chains

variable {M P R : Type} [MemberIdentity M] [ProvenanceReference P] [RetentionReference R]
  [SerdeJson] [Unicode] [Sha256] [VectorMath] {issued : LifecycleOperation M P R → Prop}
  {index : IndexIdentity} {log : List (Commit M P R)}

omit [VectorMath] in
/-- No operation goes on from a destroyed index. -/
theorem Chain.Destroyed.no_advance (h : Chain.Destroyed index log)
    {publication : Publication M P R} : ¬ Advances index log publication := by
  obtain ⟨head, config, last, retention, key, hhead, hdecoded⟩ := h
  intro hadvances
  cases hadvances with
  | version hwrite hnumbered hstanding =>
    obtain ⟨config', active, hactive⟩ := hstanding head hhead
    rw [hactive] at hdecoded
    cases hdecoded
  | destroy hwrite hheaded hactive =>
    rw [hheaded] at hhead
    cases hhead
    rw [hactive] at hdecoded
    cases hdecoded

/-- The chain of a destroyed index is whole. -/
theorem Chain.Destroyed.whole (h : Chain.Destroyed index log) {later : List (Commit M P R)}
    (hchain : Chain issued index later) (hgrows : log <:+ later) : later = log := by
  obtain ⟨head, config, last, retention, key, hhead, hdecoded⟩ := h
  obtain ⟨added, rfl⟩ := hgrows
  rw [hchain.destroyed_whole hhead hdecoded]
  rfl

/-- A commit that destroyed its index is the last of its chain. -/
theorem Chain.ends (h : Chain issued index log) {commit : Commit M P R} (hmem : commit ∈ log)
    {expected : Bytes} {versions : List IndexVersion}
    (hwrite : commit.write = .destroy expected versions) :
    (∃ earlier, log = commit :: earlier) ∧ Chain.Destroyed index log := by
  obtain ⟨later, earlier, rfl⟩ := List.append_of_mem hmem
  have hchain : Chain issued index (commit :: earlier) := h.suffix
  have hdestroyed : Chain.Destroyed index (commit :: earlier) := by
    cases hchain.advances.2 with
    | version hwrite' =>
      rw [hwrite] at hwrite'
      cases hwrite'
    | destroy hwrite' hheaded hactive hnumbered hversions hdecoded =>
      exact ⟨_, _, _, _, _, rfl, hdecoded⟩
  have hwhole := hdestroyed.whole h (List.suffix_append later _)
  rw [hwhole]
  exact ⟨⟨earlier, rfl⟩, hdestroyed⟩

/-- Nothing is staged of a destroyed index. -/
theorem Store.Reflects.unstaged {store : Store} (h : store.Reflects issued index log)
    (hdestroyed : Chain.Destroyed index log) : store.staged index = none := by
  cases hstaged : store.staged index with
  | none => rfl
  | some staged =>
    obtain ⟨version, marker⟩ := staged
    obtain ⟨payload, -, twin, hbuilds, -⟩ := h.staged version marker hstaged
    exact absurd (hbuilds.advances h.chain.top) hdestroyed.no_advance

end Chains

/-! ## Worlds in which an index is destroyed -/

section Worlds

variable {M P R : Type} [MemberIdentity M] [ProvenanceReference P] [RetentionReference R]
  [SerdeJson] [Unicode] [Sha256] [VectorMath] {issued : LifecycleOperation M P R → Prop}
  {limit : Option Nat} {index : IndexIdentity} {world next : World M P R}

/-- The write that destroyed an index is that of the last commit of its chain. -/
theorem World.Inv.destroyed (h : world.Inv issued) {write : DestroyWrite}
    (hmem : .destroy write ∈ world.writes) :
    Chain.Destroyed write.index (world.logs write.index) ∧
      Chain.head (world.logs write.index) = some write.head ∧
      Chain.record (world.logs write.index) write.key = some write.operation ∧
      ∀ version, Chain.payload (world.logs write.index) version = none := by
  have hkept : Write.destroy write ∈ world.writes.filter (·.Publishes write.index) :=
    List.mem_filter.mpr ⟨hmem, decide_eq_true rfl⟩
  rw [h.recorded, List.mem_map] at hkept
  obtain ⟨commit, hcommit, hpublishing⟩ := hkept
  have hcommit := List.mem_reverse.mp hcommit
  have hchain := (h.reflects write.index).chain
  cases hplanned : commit.write with
  | version expected version marker bytes =>
    rw [Commit.publishing, Publication.publishing_version hplanned] at hpublishing
    cases hpublishing
  | destroy expected versions =>
    obtain ⟨⟨earlier, hlog⟩, hdestroyed⟩ := hchain.ends hcommit hplanned
    have hrecorded := hchain.recorded hcommit
    have hrecord := hchain.record_of_mem hcommit
    rw [hpublishing] at hrecorded
    rw [Commit.publishing, Publication.publishing_destroy hplanned] at hpublishing
    obtain ⟨-, hkey, hbytes⟩ : write.index = write.index ∧
        write.key = commit.checked.operation.key ∧ write.operation = commit.plan.record := by
      simpa [Write.recorded] using hrecorded
    have hhead : write.head = commit.plan.head := by
      cases hpublishing
      rfl
    rw [← hkey, ← hbytes] at hrecord
    refine ⟨hdestroyed, ?_, hrecord, ?_⟩
    · rw [hlog, hhead]
      rfl
    · intro version
      rw [hlog]
      exact Chain.payload_destroy hplanned version

/-- A write on a destroyed index does not take effect. -/
theorem World.Inv.spares (h : world.Inv issued)
    (hdestroyed : Chain.Destroyed index (world.logs index)) (hnext : next.Inv issued)
    (hlater : world.Later next) {write : Write} (hcheck : world.store.check write = .ok ())
    (hstore : next.store = world.store.commit write) (hwrites : next.writes = world.writes ++ [write]) :
    write.index ≠ index := by
  rintro rfl
  have hlogs := hdestroyed.whole (hnext.reflects write.index).chain (hlater write.index)
  have hnone := (h.reflects write.index).unstaged hdestroyed
  have hnone' := (hnext.reflects write.index).unstaged (hlogs ▸ hdestroyed)
  cases write with
  | stage write =>
    rw [hstore] at hnone'
    simp [Store.commit, Write.index] at hnone'
  | publish write =>
    have hstaged := (Store.check_publish.mp hcheck).2.1
    exact absurd (hstaged.symm.trans hnone) (by simp)
  | quarantine write =>
    have hstaged := (Store.check_quarantine.mp hcheck).1
    exact absurd (hstaged.symm.trans hnone) (by simp)
  | destroy write =>
    -- The chain would have one more commit than it has.
    have hcount := congrArg List.length (hnext.recorded write.index)
    have hcount' := congrArg List.length (h.recorded write.index)
    have hpublishes : (Write.destroy write).Publishes write.index := rfl
    rw [hwrites, List.filter_append, List.filter_singleton, decide_eq_true hpublishes,
      List.length_append, List.length_map, List.length_reverse] at hcount
    rw [List.length_map, List.length_reverse] at hcount'
    have hlogs : next.logs write.index = world.logs write.index := hlogs
    rw [hlogs] at hcount
    simp at hcount
    omega

variable {pool pool' : Pool Call.Reply HeuremaError (Store × List Write) Unit}

/-- What two worlds hold of an index, and which writes of it took effect, is the same. -/
structure World.Keeps (index : IndexIdentity) (world next : World M P R) : Prop where
  alike : next.store.Alike index world.store
  quarantined : quarantinedOf index next.store.quarantined =
    quarantinedOf index world.store.quarantined
  writes : next.writes.filter (·.index = index) = world.writes.filter (·.index = index)

/-- A call changes nothing of a destroyed index. -/
theorem acted_frozen (h : world.Inv issued)
    (hdestroyed : Chain.Destroyed index (world.logs index)) (hnext : next.Inv issued)
    (hlater : world.Later next) {call : Call} {answer : Except HeuremaError call.Reply}
    (hacts : Store.acts limit call (world.store, world.writes) answer (next.store, next.writes)) :
    world.Keeps index next := by
  obtain ⟨hreplies, hafter⟩ := hacts
  have hstore : next.store = world.store.after limit call := congrArg Prod.fst hafter
  have hwrites : next.writes = world.writes ++ call.took answer := congrArg Prod.snd hafter
  have hkeeps (hspares : call.Spares index) : world.Keeps index next := by
    constructor
    · rw [hstore]
      exact (Store.Alike.refl index world.store).spared hspares
    · rw [hstore]
      exact world.store.quarantinedOf_spared hspares
    · rw [hwrites, List.filter_append, Call.took_spares hspares, List.append_nil]
  by_cases hread : call.Reads
  · exact hkeeps (hread.spares index)
  · cases call with
    | write write =>
      have hanswer : answer = (world.store.perform limit write).1 := hreplies
      have hperformed : next.store = (world.store.perform limit write).2 := hstore
      unfold Store.perform at hanswer hperformed
      cases hadmits : world.store.admits limit write with
      | ok _ =>
        rw [hadmits] at hanswer hperformed
        subst hanswer
        exact hkeeps (h.spares hdestroyed hnext hlater (Outcome.then_eq_ok.mp hadmits).2
          hperformed hwrites)
      | error refusal =>
        rw [hadmits] at hanswer hperformed
        subst hanswer
        have hsame : next.store = world.store := hperformed
        constructor
        · rw [hsame]
          exact .refl index world.store
        · rw [hsame]
        · rw [hwrites, show Call.took (.write write) (.error refusal) = [] from rfl,
            List.append_nil]
    | _ => exact absurd (fun write hsame => by cases hsame) hread

/-- Steps change nothing of a destroyed index. -/
theorem steps_frozen (hsound : (drivers issued limit).Sound world pool)
    (hdestroyed : Chain.Destroyed index (world.logs index))
    (hsteps : Relation.ReflTransGen (Pool.Step (Store.acts limit) (Runs issued)) pool pool') :
    ∃ last : World M P R, (drivers issued limit).Sound last pool' ∧
      Chain.Destroyed index (last.logs index) ∧ world.Keeps index last := by
  induction hsteps with
  | refl => exact ⟨world, hsound, hdestroyed, ⟨.refl index _, rfl, rfl⟩⟩
  | @tail middle last _ hstep ih =>
    obtain ⟨between, hmiddle, hstill, hkeeps⟩ := ih
    obtain ⟨final, hlater, hlast⟩ :=
      hmiddle.step (fun _ hprogram _ _ => runs_keep hprogram) hstep
    have hlogs := hstill.whole (hlast.inv.reflects index).chain (hlater index)
    refine ⟨final, hlast, hlogs ▸ hstill, ?_⟩
    have hview : (between.store, between.writes) = middle.state := hmiddle.view
    have hview' : (final.store, final.writes) = last.state := hlast.view
    rcases hstep.made with hsame | hmade
    · rw [← hview, ← hview'] at hsame
      have hstore : final.store = between.store := congrArg Prod.fst hsame
      have hwrites : final.writes = between.writes := congrArg Prod.snd hsame
      exact ⟨hstore ▸ hkeeps.alike, hstore ▸ hkeeps.quarantined, hwrites ▸ hkeeps.writes⟩
    · obtain ⟨call, answer, hacts⟩ := hmade
      rw [← hview, ← hview'] at hacts
      have hafter := acted_frozen hmiddle.inv hstill hlast.inv hlater hacts
      exact ⟨hafter.alike.trans hkeeps.alike, hafter.quarantined.trans hkeeps.quarantined,
        hafter.writes.trans hkeeps.writes⟩

variable {last : Pool Call.Reply HeuremaError (Store × List Write) Unit}
  {calls : List (Σ call : Call, Except HeuremaError call.Reply)}

/-- A reader of a destroyed index finds none. -/
theorem index_gone (hsound : (drivers issued limit).Sound world pool)
    (hdestroyed : Chain.Destroyed index (world.logs index))
    {outcome : Outcome HeuremaError (PublishedIndex M P)}
    (h : Pool.Beside (Store.acts limit) (Runs issued) (Driver.index R index) pool calls outcome
      last) : outcome = refuse (.indexNotFound index.display) := by
  unfold Driver.index at h
  obtain ⟨first, rest, pool', rfl, hfirst, hsound', h⟩ := beside_readHead hsound h
  rw [hdestroyed.whole (hsound'.inv.reflects index).chain (hfirst index)] at h
  obtain ⟨head, config, version, retention, key, hhead, hdecoded⟩ := hdestroyed
  rw [hhead] at h
  simp only [hdecoded, Program.lift_ok] at h
  exact h.of_done.2

omit [VectorMath] in
/-- No transition leads out of the state of a destroyed index. -/
theorem permit_gone (checked : CheckedOperation M P R) (record : IndexRecord R)
    {last : IndexVersion} {retention : R} {key : OperationKey}
    (hnamed : record.identity = checked.operation.index)
    (hstate : record.state = .destroyed last retention key) :
    checked.permit (some record) = refuse (.transitionNotPermitted checked.operation.index
      checked.operation.transition .destroyed) := by
  have hkind : stateKind (some record) = .destroyed := by
    rw [stateKind, hstate]
    rfl
  have hclosed : ¬ checked.operation.transition.isPermittedFrom .destroyed = true := by
    unfold LifecycleOperation.transition
    cases checked.operation.change <;> exact Bool.false_ne_true
  rw [CheckedOperation.permit, checkRecord, if_pos hnamed, Outcome.ok_bind, hkind, dif_neg hclosed]

theorem build_gone (checked : CheckedOperation M P R) {head : Bytes} {config : IndexConfig}
    {last : IndexVersion} {retention : R} {key : OperationKey}
    (hdecoded : decodeHead head checked.operation.index =
      .ok (⟨checked.operation.index, config, .destroyed last retention key⟩ : IndexRecord R)) :
    Driver.build checked (some head) = .done (refuse (.transitionNotPermitted
      checked.operation.index checked.operation.transition .destroyed)) := by
  let record : IndexRecord R := ⟨checked.operation.index, config, .destroyed last retention key⟩
  have hread : ((some head).mapM fun bytes => decodeHead bytes checked.operation.index) =
      (.ok (some record) : Run (Option (IndexRecord R))) := by
    show (some <$> decodeHead head checked.operation.index) = _
    rw [hdecoded]
    rfl
  have hpermit := permit_gone checked record rfl rfl
  show (Program.lift _ >>= _) = _
  rw [hread, Program.lift_ok]
  show (Program.lift (checked.permit (some record)) >>= _) = _
  rw [hpermit]
  rfl

/-- An operation under a new key on a destroyed index is not permitted. -/
theorem prepare_gone {operation : LifecycleOperation M P R}
    (hsound : (drivers issued limit).Sound world pool)
    (hdestroyed : Chain.Destroyed operation.index (world.logs operation.index))
    (hfresh : Chain.record (world.logs operation.index) operation.key = none)
    {outcome : Outcome HeuremaError (Preparation R)}
    (h : Pool.Beside (Store.acts limit) (Runs issued) (Driver.prepare operation) pool calls outcome
      last) : ∃ failure, outcome = .error failure ∧ AfterDestroy operation none (.error failure) := by
  unfold Driver.prepare at h
  cases hchecks : CheckedOperation.check operation with
  | error failure =>
    rw [hchecks] at h
    obtain ⟨-, rfl⟩ := h.of_done
    exact ⟨failure, rfl, .unchecked hchecks⟩
  | ok checked =>
    obtain rfl := CheckedOperation.check_operation hchecks
    rw [hchecks, Program.lift_ok] at h
    obtain ⟨first, rest, pool', rfl, hfirst, hsound', h⟩ := beside_readHead hsound h
    have hlogs := hdestroyed.whole (hsound'.inv.reflects _).chain (hfirst _)
    rw [hlogs] at h
    simp only [Driver.replay, Program.bind_assoc] at h
    obtain ⟨second, rest, pool'', rfl, hsecond, hsound'', h⟩ := beside_readOperation hsound' h
    have hlogs' := hdestroyed.whole (hsound''.inv.reflects _).chain
      ((hfirst _).trans (hsecond _))
    rw [hlogs', hfresh] at h
    obtain ⟨head, config, version, retention, key, hhead, hdecoded⟩ := hdestroyed
    rw [hhead] at h
    obtain ⟨-, rfl⟩ := Pool.Beside.of_done (build_gone checked hdecoded ▸ h)
    exact ⟨_, rfl, .closed hchecks⟩

/-- An operation on a destroyed index is not permitted, unless a record answers it. -/
theorem apply_gone {operation : LifecycleOperation M P R}
    (hsound : (drivers issued limit).Sound world pool)
    (hdestroyed : Chain.Destroyed operation.index (world.logs operation.index))
    {outcome : Outcome HeuremaError (PublishReceipt R)}
    (h : Pool.Beside (Store.acts limit) (Runs issued) (Driver.apply operation) pool calls outcome
      last) : AfterDestroy operation (Chain.record (world.logs operation.index) operation.key)
        outcome ∧ ∀ made ∈ calls, made.1.Reads := by
  cases hrecord : Chain.record (world.logs operation.index) operation.key with
  | some bytes =>
    obtain ⟨commit, hmem, hkey, rfl⟩ := Chain.record_eq_some hrecord
    obtain ⟨hrepeated, hreads⟩ := apply_beside hsound hmem hkey h
    obtain ⟨earlier, htop, hbuilds⟩ := (hsound.inv.reflects operation.index).chain.builds hmem
    have hdecoded := (hbuilds.recorded htop).1
    rw [hkey] at hdecoded
    exact ⟨.repeated hdecoded hrepeated, hreads⟩
  | none =>
    rcases h.of_bind with hfailed | hprepared
    · obtain ⟨failure, hprepare, rfl⟩ := hfailed
      obtain ⟨failure', hfailure, hanswer⟩ := prepare_gone hsound hdestroyed hrecord hprepare
      cases hfailure
      exact ⟨hanswer, hprepare.makes (Driver.prepare_reads operation)⟩
    · obtain ⟨first, second, preparation, middle, rfl, hprepare, -⟩ := hprepared
      obtain ⟨failure, hfailure, -⟩ := prepare_gone hsound hdestroyed hrecord hprepare
      cases hfailure

end Worlds

/-! ## On the adapters -/

section Adapters

variable {M P R : Type} [MemberIdentity M] [ProvenanceReference P] [RetentionReference R]
  [SerdeJson] [Unicode] [Sha256] [VectorMath] {issued : LifecycleOperation M P R → Prop}
  {limit : Option Nat} {σ : Type} [LifecycleBackend σ] {Represents : σ → Store → Prop}

theorem Adapter.staysDestroyed (adapter : Adapter σ limit Represents) {start : σ}
    (hstart : Represents start .empty) : StaysDestroyed issued start where
  left pool write hreached hmem := by
    obtain ⟨world, hrepresents, hwrites, hsound⟩ := adapter.reached hstart hreached
    rw [hwrites] at hmem
    obtain ⟨hdestroyed, hhead, hrecord, hpayload⟩ := hsound.inv.destroyed hmem
    have hreflects := hsound.inv.reflects write.index
    have hnone := hreflects.unstaged hdestroyed
    rw [← hreflects.head] at hhead
    rw [← hreflects.record] at hrecord
    refine ⟨?_, ?_, ?_, fun version => ?_⟩
    · exact adapter.reply_shows hrepresents (by simp [Call.Reads]) (congrArg Except.ok hhead.symm)
    · exact adapter.reply_shows hrepresents (by simp [Call.Reads]) (congrArg Except.ok hrecord.symm)
    · exact adapter.reply_shows hrepresents (by simp [Call.Reads]) (congrArg Except.ok hnone.symm)
    · have hgone : world.store.payloads (write.index, version) = none := by
        rw [hreflects.published version (by simp [hnone]), hpayload]
      exact adapter.reply_shows hrepresents (by simp [Call.Reads]) (congrArg Except.ok hgone.symm)
  frozen pool later write hreached hmem hsteps := by
    obtain ⟨world, hrepresents, hwrites, hsound⟩ := adapter.reached hstart hreached
    have hcontents : Contents Represents pool.state (world.store, world.writes) :=
      ⟨hrepresents, hwrites⟩
    obtain ⟨contents, hstore, hlater⟩ := Pool.Step.simulates_all adapter.simulates hsteps hcontents
    rw [hwrites] at hmem
    obtain ⟨hdestroyed, -⟩ := hsound.inv.destroyed hmem
    obtain ⟨final, hfinal, -, hkeeps⟩ := steps_frozen hsound hdestroyed hstore
    obtain rfl : (final.store, final.writes) = contents := hfinal.view
    have hwrites' : later.state.2 = final.writes := hlater.2
    rw [hwrites', hwrites]
    refine ⟨hkeeps.writes, (adapter.showsAlike hlater.1 hrepresents hkeeps.alike).symm, ?_⟩
    intro listed listed' hlisted hlisted'
    have hreply := adapter.shows_reply hrepresents (by simp [Call.Reads]) hlisted
    have hreply' := adapter.shows_reply hlater.1 (by simp [Call.Reads]) hlisted'
    obtain rfl : listed = world.store.quarantined := Except.ok.inj hreply
    obtain rfl : listed' = final.store.quarantined := Except.ok.inj hreply'
    exact hkeeps.quarantined
  reads pool last write calls outcome hreached hmem hbeside := by
    obtain ⟨world, hrepresents, hwrites, hsound⟩ := adapter.reached hstart hreached
    have hcontents : Contents Represents pool.state (world.store, world.writes) :=
      ⟨hrepresents, hwrites⟩
    obtain ⟨contents, hstore, -⟩ := hbeside.simulates adapter.simulates hcontents
    rw [hwrites] at hmem
    exact index_gone hsound (hsound.inv.destroyed hmem).1 hstore
  answers pool last write operation calls outcome hreached hmem hindex hbeside := by
    obtain ⟨world, hrepresents, hwrites, hsound⟩ := adapter.reached hstart hreached
    have hcontents : Contents Represents pool.state (world.store, world.writes) :=
      ⟨hrepresents, hwrites⟩
    obtain ⟨contents, hstore, -⟩ := hbeside.simulates adapter.simulates hcontents
    rw [hwrites] at hmem
    have hdestroyed := (hsound.inv.destroyed hmem).1
    rw [← hindex] at hdestroyed
    obtain ⟨hanswer, hreads⟩ := apply_gone hsound hdestroyed hstore
    rw [← (hsound.inv.reflects operation.index).record] at hanswer
    exact ⟨⟨_, adapter.shows_operation hrepresents _ _, hanswer⟩, hreads⟩

/-- On both adapters, whatever drivers run, a destroyed index stays as its destroy left it. -/
theorem destroyed_final : StaysDestroyed issued Atmis.LifecycleState.empty ∧
    ∀ limit, StaysDestroyed issued (Thesauros.ThesaurosBackend.empty limit) :=
  ⟨Atmis.adapter.staysDestroyed .empty,
    fun limit => (Thesauros.adapter limit).staysDestroyed (.empty limit)⟩

end Adapters

end Heurema
