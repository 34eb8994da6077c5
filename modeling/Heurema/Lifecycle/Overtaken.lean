import Heurema.Data.Slice
import Heurema.Lifecycle.Isolation
import Heurema.Lifecycle.Progress

/-! # Operations that are overtaken

What an operation reads and builds on is an earlier part of the chain of its index. A write of
it is refused where the chain has grown since, or where something is staged that it did not
stage, or where what it staged is there no more. -/

namespace Heurema

open Serde Hnsw Digest

open Outcome (refuse)

/-- A write that ends what is staged as a version of an index. -/
def Write.Unstages (index : IndexIdentity) (version : IndexVersion) : Write → Prop
  | .publish write => write.index = index ∧ write.version = version
  | .quarantine write => write.index = index ∧ write.version = version
  | .stage _ | .destroy _ => False

/-! ## What is staged -/

namespace Store.Run

variable {writes : List Write} {store store' : Store} {index : IndexIdentity}
  {version : IndexVersion} {marker : Bytes}

/-- The contents before the last write. -/
theorem last {write : Write} (h : Store.Run (writes ++ [write]) store') :
    ∃ store, Store.Run writes store ∧ store.check write = .ok () ∧ store' = store.commit write := by
  generalize hall : writes ++ [write] = all at h
  cases h with
  | empty => simp at hall
  | commit h hcheck =>
    obtain ⟨rfl, hlast⟩ := List.append_inj' hall rfl
    cases hlast
    exact ⟨_, h, hcheck, rfl⟩

theorem unique (h : Store.Run writes store) (h' : Store.Run writes store') : store' = store := by
  induction h generalizing store' with
  | empty =>
    generalize hnil : ([] : List Write) = writes at h'
    cases h' with
    | empty => rfl
    | commit h hcheck => simp at hnil
  | commit h hcheck ih =>
    obtain ⟨before, hbefore, -, rfl⟩ := h'.last
    rw [ih hbefore]

/-- What is staged was staged by a write that took effect. -/
theorem staged_by (h : Store.Run writes store) (hstaged : store.staged index = some (version, marker)) :
    ∃ write, .stage write ∈ writes ∧ write.index = index ∧ write.version = version := by
  induction h with
  | empty => cases hstaged
  | @commit writes store write h hcheck ih =>
    have hearlier (hsame : store.staged index = some (version, marker)) :
        ∃ stage, .stage stage ∈ writes ++ [write] ∧ stage.index = index ∧
          stage.version = version := by
      obtain ⟨stage, hmem, hnamed⟩ := ih hsame
      exact ⟨stage, List.mem_append_left _ hmem, hnamed⟩
    by_cases hindex : index = write.index
    · subst hindex
      cases write with
      | stage write =>
        simp only [Store.commit, Write.index, Function.update_self, Option.some.injEq,
          Prod.mk.injEq] at hstaged
        exact ⟨write, List.mem_append_right _ List.mem_cons_self, rfl, hstaged.1⟩
      | publish write => simp [Store.commit, Write.index] at hstaged
      | quarantine write => simp [Store.commit, Write.index] at hstaged
      | destroy write => exact hearlier hstaged
    · rw [(store.commit_same hindex).staged] at hstaged
      exact hearlier hstaged

/-- What was staged is still staged, or some write since then published or quarantined it. -/
theorem staged_since (h : Store.Run writes store)
    (hstaged : store.staged index = some (version, marker)) (added : List Write)
    (h' : Store.Run (writes ++ added) store') :
    store'.staged index = some (version, marker) ∨
      ∃ write ∈ added, write.Unstages index version := by
  induction added using List.reverseRecOn generalizing store' with
  | nil =>
    rw [List.append_nil] at h'
    rw [h.unique h']
    exact .inl hstaged
  | append_singleton added write ih =>
    rw [← List.append_assoc] at h'
    obtain ⟨between, hbetween, hcheck, rfl⟩ := h'.last
    rcases ih hbetween with hstill | hmoved
    · by_cases hindex : index = write.index
      · subst hindex
        have hlast : write ∈ added ++ [write] := List.mem_append_right _ List.mem_cons_self
        cases write with
        | stage write =>
          have hnone := Store.staged_of_check hcheck
          rw [show between.staged write.index = _ from hstill] at hnone
          cases hnone
        | publish write =>
          have hnamed := (Store.check_publish.mp hcheck).2.1
          rw [show between.staged write.index = _ from hstill] at hnamed
          cases hnamed
          exact .inr ⟨_, hlast, rfl, rfl⟩
        | quarantine write =>
          have hnamed := (Store.check_quarantine.mp hcheck).1
          rw [show between.staged write.index = _ from hstill] at hnamed
          cases hnamed
          exact .inr ⟨_, hlast, rfl, rfl⟩
        | destroy write => exact .inl hstill
      · rw [(between.commit_same hindex).staged]
        exact .inl hstill
    · obtain ⟨moved, hmem, hunstages⟩ := hmoved
      exact .inr ⟨moved, List.mem_append_left _ hmem, hunstages⟩

end Store.Run

/-! ## The writes that took effect only become more -/

section Writes

variable {limit : Option Nat} {starts : Driver Unit → Prop}
  {pool pool' last : Pool Call.Reply HeuremaError (Store × List Write) Unit}

theorem acts_writes (call : Call) (before : Store × List Write)
    (answer : Except HeuremaError call.Reply) (after : Store × List Write)
    (h : Store.acts limit call before answer after) : before.2 <+: after.2 := by
  rw [h.2]
  exact List.prefix_append _ _

theorem pool_writes
    (h : Relation.ReflTransGen (Pool.Step (Store.acts limit) starts) pool pool') :
    pool.state.2 <+: pool'.state.2 :=
  Pool.Step.ordered (R := fun before after => before.2 <+: after.2)
    (fun before => List.prefix_refl before.2) List.IsPrefix.trans acts_writes h

theorem beside_writes {α : Type} {program : Driver α}
    {calls : List (Σ call : Call, Except HeuremaError call.Reply)}
    {outcome : Outcome HeuremaError α}
    (h : Pool.Beside (Store.acts limit) starts program pool calls outcome last) :
    pool.state.2 <+: last.state.2 := by
  exact Pool.Beside.ordered (R := fun before after => before.2 <+: after.2)
    (fun before => List.prefix_refl before.2) List.IsPrefix.trans acts_writes h

end Writes

/-! ## What a check refuses -/

namespace Store

variable {store : Store} {index : IndexIdentity} {refusal : HeuremaError}

theorem checkHead_eq_error {expected : Option Bytes}
    (h : store.checkHead index expected = .error refusal) :
    refusal = .headChanged index ∧ store.heads index ≠ expected := by
  unfold Store.checkHead at h
  split at h
  · cases h
  · next hother =>
    cases h
    exact ⟨rfl, hother⟩

theorem refuseStaged_eq_error (h : store.refuseStaged index = .error refusal) :
    ∃ version marker, refusal = .stagedStateExists index version ∧
      store.staged index = some (version, marker) := by
  unfold Store.refuseStaged at h
  cases hstaged : store.staged index with
  | none =>
    rw [hstaged] at h
    cases h
  | some staged =>
    rw [hstaged] at h
    cases h
    exact ⟨staged.1, staged.2, rfl, rfl⟩

theorem checkMarker_eq_error {version : IndexVersion} {marker : Bytes}
    (h : store.checkMarker index version marker = .error refusal) :
    refusal = .stagedStateMissing index version ∧
      store.staged index ≠ some (version, marker) := by
  have hmissing : store.staged index ≠ some (version, marker) := by
    intro hstaged
    rw [Store.checkMarker_eq_ok.mpr hstaged] at h
    cases h
  unfold Store.checkMarker at h
  split at h
  · cases h
  · cases h
    exact ⟨rfl, hmissing⟩

end Store

/-! ## What is read -/

section Reads

variable {M P R : Type} [MemberIdentity M] [ProvenanceReference P] [RetentionReference R]
  [SerdeJson] [Unicode] [Sha256] [VectorMath] {issued : LifecycleOperation M P R → Prop}
  {limit : Option Nat} {index : IndexIdentity} {log : List (Commit M P R)}

/-- What drivers leave of an index reads as a head and its active version. -/
theorem Chain.reads (hdistinguishes : Distinguishes issued) (h : Chain issued index log) :
    ∃ (head : Option (IndexRecord R)) (current : Current M P R),
      readCurrent index (Chain.head log) (Chain.payload log) = .ok (head, current) := by
  have hread := (h.history hdistinguishes).readable.read
  rw [Chain.headBytes, funext (h.payloadBytes hdistinguishes)] at hread
  exact ⟨_, _, hread⟩

/-- What is permitted on a chain is applied and encoded, or a counter is exhausted. -/
theorem Chain.total (hdistinguishes : Distinguishes issued) (h : Chain issued index log)
    {head : Option (IndexRecord R)} {current : Current M P R}
    (hread : readCurrent index (Chain.head log) (Chain.payload log) = .ok (head, current))
    {checked : CheckedOperation M P R} {validated : ValidatedOperation M P R}
    (hpermit : checked.permit head = .ok validated) :
    (∃ next plan write, Apply.successor validated current = .ok next ∧
      encodePlan next (Chain.head log) checked.operation = .ok (plan, write)) ∨
    ∃ failure, Apply.successor validated current = .error failure ∧
      Exhausts checked.operation current failure := by
  have hhistory := h.history hdistinguishes
  have hread' := hhistory.readable.read
  rw [Chain.headBytes, funext (h.payloadBytes hdistinguishes), hread] at hread'
  obtain ⟨hhead, hcurrent⟩ := Prod.mk.inj (Except.ok.inj hread')
  rw [hhead] at hpermit
  rw [hcurrent, ← Chain.headBytes]
  exact hhistory.total hpermit

variable {α : Type} {world : World M P R} {earlier : List (Commit M P R)}
  {pool last : Pool Call.Reply HeuremaError (Store × List Write) Unit}
  {calls : List (Σ call : Call, Except HeuremaError call.Reply)} {outcome : Outcome HeuremaError α}

/-- An earlier part of the chain of an index is a chain. -/
theorem World.Inv.chain_earlier (h : world.Inv issued) (hearlier : earlier <:+ world.logs index) :
    Chain issued index earlier := by
  obtain ⟨later, hlog⟩ := hearlier
  have hwhole := (h.reflects index).chain
  rw [← hlog] at hwhole
  exact hwhole.suffix

theorem beside_readStaging (hsound : (drivers issued limit).Sound world pool)
    {next : Option (IndexVersion × Bytes) → Driver α}
    (h : Pool.Beside (Store.acts limit) (Runs issued) (Driver.readStaging index >>= next) pool calls
      outcome last) :
    ∃ later : World M P R, ∃ rest pool',
      calls = ⟨.readStaging index, .ok (later.store.staged index)⟩ :: rest ∧
      world.Later later ∧ (drivers issued limit).Sound later pool' ∧
      Pool.Beside (Store.acts limit) (Runs issued) (next (later.store.staged index)) pool' rest
        outcome last := by
  obtain ⟨later, reply, rest, pool', hcalls, hlater, hsound', hreplies, hnext⟩ :=
    beside_read hsound (by simp [Call.Reads]) h
  obtain rfl : reply = later.store.staged index := Except.ok.inj hreplies
  exact ⟨later, rest, pool', hcalls, hlater, hsound', hnext⟩

/-- The current version that a driver reads after a head: the one that the head names, or the
index was destroyed since. -/
theorem current_beside
    (hsound : (drivers issued limit).Sound world pool) (hearlier : earlier <:+ world.logs index)
    {head : Option (IndexRecord R)} {current : Current M P R}
    (hread : readCurrent index (Chain.head earlier) (Chain.payload earlier) = .ok (head, current))
    {next : Current M P R → Driver α}
    (h : Pool.Beside (Store.acts limit) (Runs issued) (Driver.current index head >>= next) pool calls
      outcome last) :
    ∃ later : World M P R, ∃ first rest pool', calls = first ++ rest ∧ world.Later later ∧
      (drivers issued limit).Sound later pool' ∧
      (Pool.Beside (Store.acts limit) (Runs issued) (.done (refuse (.headChanged index))) pool' rest
          outcome last ∧ earlier.length < (later.logs index).length ∨
        Pool.Beside (Store.acts limit) (Runs issued) (next current) pool' rest outcome last ∧
          (current.isSome → ∃ version bytes,
            ⟨.readVersion index version, .ok (some bytes)⟩ ∈ first ∧
            readCurrent index (Chain.head earlier) (fun _ => some bytes) = .ok (head, current))) := by
  have hchain := hsound.inv.chain_earlier hearlier
  cases hbytes : Chain.head earlier with
  | none =>
    rw [hbytes] at hread
    cases hread
    refine ⟨world, [], calls, pool, rfl, (drivers issued limit).refl world, hsound, .inr ⟨h, ?_⟩⟩
    intro hsome
    cases hsome
  | some bytes =>
    rw [hbytes] at hread
    obtain ⟨record, hdecoded, hread⟩ := Outcome.bind_eq_ok.mp hread
    cases hstate : record.state with
    | destroyed last retention key =>
      simp only [hstate] at hread
      cases hread
      simp only [Driver.current, hstate] at h
      refine ⟨world, [], calls, pool, rfl, (drivers issued limit).refl world, hsound,
        .inr ⟨h, ?_⟩⟩
      intro hsome
      cases hsome
    | active version =>
      have hnumbered := hchain.active_numbered hbytes hdecoded hstate
      simp only [hstate] at hread
      cases hstored : Chain.payload earlier version with
      | none =>
        rw [hstored] at hread
        cases hread
      | some stored =>
        rw [hstored] at hread
        obtain ⟨payload, hactive, hread⟩ := Outcome.bind_eq_ok.mp hread
        cases hread
        simp only [Driver.current, hstate, Driver.activePayload, Program.bind_assoc] at h
        obtain ⟨later, rest, pool', rfl, hlater, hsound', h⟩ := beside_readVersion hsound h
        have hgrown := hearlier.trans (hlater index)
        have hreflects := hsound'.inv.reflects index
        cases hfound : later.store.payloads (index, version) with
        | some found =>
          have hpayload := hreflects.payload_earlier hgrown hnumbered.le hfound
          rw [hstored] at hpayload
          cases hpayload
          rw [hfound] at h
          simp only [hactive, Program.lift_ok] at h
          refine ⟨later, [⟨.readVersion index version, .ok (some stored)⟩], rest, pool', rfl, hlater,
            hsound', .inr ⟨h, fun _ => ⟨version, stored, List.mem_cons_self, ?_⟩⟩⟩
          simp only [readCurrent, hdecoded, Outcome.ok_bind, hstate, hactive, Outcome.pure_eq]
        | none =>
          rw [hfound] at h
          rw [hreflects.payload (hnumbered.le.trans hgrown.length_le)] at hfound
          obtain ⟨head', config', last', retention, key, hheaded', hdecoded'⟩ :=
            hreflects.chain.gone hgrown hnumbered.le hfound
          simp only [Driver.record, Program.bind_assoc] at h
          obtain ⟨third, rest', pool'', rfl, hthird, hsound'', h⟩ := beside_readHead hsound' h
          have hwhole := (hsound''.inv.reflects index).chain
          obtain ⟨added, hlog⟩ := hthird index
          rw [← hlog] at hwhole h
          obtain rfl := hwhole.destroyed_whole hheaded' hdecoded'
          rw [List.nil_append] at hlog h
          rw [hheaded'] at h
          simp only [hdecoded', Program.lift_ok] at h
          refine ⟨third, [_, _], rest', pool'', rfl,
            fun index => (hlater index).trans (hthird index), hsound'', .inl ⟨h, ?_⟩⟩
          rw [← hlog]
          refine lt_of_le_of_ne hgrown.length_le fun hlength => ?_
          -- A destroyed head is not the active one that was read.
          rw [← hgrown.eq_of_length hlength, hbytes] at hheaded'
          cases hheaded'
          rw [hdecoded'] at hdecoded
          cases hdecoded
          cases hstate

end Reads

/-! ## Writing -/

section Writing

variable {M P R : Type} [MemberIdentity M] [ProvenanceReference P] [RetentionReference R]
  [SerdeJson] [Unicode] [Sha256] [VectorMath] {issued : LifecycleOperation M P R → Prop}
  {limit : Option Nat} {index : IndexIdentity} {world : World M P R}
  {earlier : List (Commit M P R)} {refusal : HeuremaError}

omit [VectorMath] in
/-- A record that a longer chain does not hold is none of an earlier part. -/
theorem Chain.record_earlier {log : List (Commit M P R)} (hearlier : earlier <:+ log)
    {key : OperationKey} (h : Chain.record log key = none) : Chain.record earlier key = none := by
  rw [Chain.record, Option.map_eq_none_iff, List.find?_eq_none] at h ⊢
  exact fun commit hmem => h commit (hearlier.mem hmem)

/-- A commit is published by a write that took effect. -/
theorem World.Inv.published_by (h : world.Inv issued) {commit : Commit M P R}
    (hmem : commit ∈ world.logs index) : commit.publishing ∈ world.writes := by
  have hkept : commit.publishing ∈ world.writes.filter (·.Publishes index) := by
    rw [h.recorded]
    exact List.mem_map_of_mem (List.mem_reverse.mpr hmem)
  exact (List.mem_filter.mp hkept).1

/-- A head that is not that of an earlier part of a chain is that of a longer one. -/
theorem World.Inv.overtaken (h : world.Inv issued) (hearlier : earlier <:+ world.logs index)
    (hhead : world.store.heads index ≠ Chain.head earlier) :
    earlier.length < (world.logs index).length := by
  refine lt_of_le_of_ne hearlier.length_le fun hlength => hhead ?_
  rw [hearlier.eq_of_length hlength]
  exact (h.reflects index).head

/-- Where the head is still that of an earlier part of a chain, the part is the whole, and a key
that it does not record is new. -/
theorem World.Inv.unrecorded (h : world.Inv issued) (hearlier : earlier <:+ world.logs index)
    (hhead : world.store.heads index = Chain.head earlier) {key : OperationKey}
    (hfresh : Chain.record earlier key = none) : world.store.refuseRecorded index key = .ok () := by
  have hreflects := h.reflects index
  have hwhole := hreflects.of_head hearlier hhead
  rw [Store.refuseRecorded_eq_ok, hreflects.record, ← hwhole]
  exact hfresh

/-- Why the stage or the destroy of an operation that was built on an earlier part of a chain is
refused. -/
inductive World.Bars (world : World M P R) (index : IndexIdentity) (earlier : List (Commit M P R)) :
    HeuremaError → Prop where
  | overtaken (grew : earlier.length < (world.logs index).length) :
    Bars world index earlier (.headChanged index)
  | staged {version : IndexVersion} {marker : Bytes}
      (staged : world.store.staged index = some (version, marker)) :
    Bars world index earlier (.stagedStateExists index version)

theorem World.Inv.stage_barred (h : world.Inv issued) (hearlier : earlier <:+ world.logs index)
    {write : StageWrite} (hindex : write.index = index)
    (hexpected : write.expectedHead = Chain.head earlier)
    (hnumbered : write.version.get = earlier.length + 1)
    (hfresh : Chain.record earlier write.key = none)
    (hcheck : world.store.check (.stage write) = .error refusal) :
    world.Bars index earlier refusal := by
  subst hindex
  rw [Store.check, hexpected] at hcheck
  cases hhead : world.store.checkHead write.index (Chain.head earlier) with
  | error _ =>
    rw [hhead] at hcheck
    cases hcheck
    obtain ⟨rfl, hother⟩ := Store.checkHead_eq_error hhead
    exact .overtaken (h.overtaken hearlier hother)
  | ok _ =>
    rw [hhead, Outcome.ok_bind] at hcheck
    have hsame := Store.checkHead_eq_ok.mp hhead
    cases hstaged : world.store.refuseStaged write.index with
    | error _ =>
      rw [hstaged] at hcheck
      cases hcheck
      obtain ⟨version, marker, rfl, hversion⟩ := Store.refuseStaged_eq_error hstaged
      exact .staged hversion
    | ok _ =>
      exfalso
      have hreflects := h.reflects write.index
      have hwhole := hreflects.of_head hearlier hsame
      have hnone := Store.refuseStaged_eq_ok.mp hstaged
      -- Nothing is stored past the last version, and its key is new.
      have hunstored : world.store.payloads (write.index, write.version) = none := by
        rw [hreflects.published write.version (by simp [hnone])]
        exact hreflects.chain.payload_beyond (by rw [← hwhole]; omega)
      rw [hstaged, Outcome.ok_bind, Store.refuseStoredVersion_eq_ok.mpr hunstored, Outcome.ok_bind,
        h.unrecorded hearlier hsame hfresh] at hcheck
      cases hcheck

theorem World.Inv.destroy_barred (h : world.Inv issued) (hearlier : earlier <:+ world.logs index)
    {write : DestroyWrite} (hindex : write.index = index)
    (hexpected : some write.expectedHead = Chain.head earlier)
    (hfresh : Chain.record earlier write.key = none)
    (hcheck : world.store.check (.destroy write) = .error refusal) :
    world.Bars index earlier refusal := by
  subst hindex
  rw [Store.check, hexpected] at hcheck
  cases hhead : world.store.checkHead write.index (Chain.head earlier) with
  | error _ =>
    rw [hhead] at hcheck
    cases hcheck
    obtain ⟨rfl, hother⟩ := Store.checkHead_eq_error hhead
    exact .overtaken (h.overtaken hearlier hother)
  | ok _ =>
    rw [hhead, Outcome.ok_bind] at hcheck
    have hsame := Store.checkHead_eq_ok.mp hhead
    cases hstaged : world.store.refuseStaged write.index with
    | error _ =>
      rw [hstaged] at hcheck
      cases hcheck
      obtain ⟨version, marker, rfl, hversion⟩ := Store.refuseStaged_eq_error hstaged
      exact .staged hversion
    | ok _ =>
      rw [hstaged, Outcome.ok_bind, h.unrecorded hearlier hsame hfresh] at hcheck
      cases hcheck

/-- Why the publish of a staged version is refused: its index was published, or what it staged
is there no more. -/
theorem World.Inv.publish_barred (h : world.Inv issued) (hearlier : earlier <:+ world.logs index)
    {write : PublishWrite} (hindex : write.index = index)
    (hexpected : write.expectedHead = Chain.head earlier)
    (hfresh : Chain.record earlier write.key = none)
    (hcheck : world.store.check (.publish write) = .error refusal) :
    refusal = .headChanged index ∧ earlier.length < (world.logs index).length ∨
      refusal = .stagedStateMissing index write.version ∧
        world.store.staged index ≠ some (write.version, write.marker) := by
  subst hindex
  rw [Store.check, hexpected] at hcheck
  cases hhead : world.store.checkHead write.index (Chain.head earlier) with
  | error _ =>
    rw [hhead] at hcheck
    cases hcheck
    obtain ⟨rfl, hother⟩ := Store.checkHead_eq_error hhead
    exact .inl ⟨rfl, h.overtaken hearlier hother⟩
  | ok _ =>
    rw [hhead, Outcome.ok_bind] at hcheck
    have hsame := Store.checkHead_eq_ok.mp hhead
    cases hmarker : world.store.checkMarker write.index write.version write.marker with
    | error _ =>
      rw [hmarker] at hcheck
      cases hcheck
      exact .inr (Store.checkMarker_eq_error hmarker)
    | ok _ =>
      exfalso
      have hstaged := Store.checkMarker_eq_ok.mp hmarker
      obtain ⟨payload, hpayload, -⟩ := (h.reflects write.index).staged _ _ hstaged
      rw [hmarker, Outcome.ok_bind, Store.checkPayload_eq_ok.mpr ⟨payload, hpayload⟩,
        Outcome.ok_bind, h.unrecorded hearlier hsame hfresh] at hcheck
      cases hcheck

variable {α : Type} {post : World M P R → Outcome HeuremaError α → Prop}
  {pool last : Pool Call.Reply HeuremaError (Store × List Write) Unit}
  {calls : List (Σ call : Call, Except HeuremaError call.Reply)}

/-- A write of a driver beside others is refused by a later world, or takes effect on it. -/
theorem beside_commit (hsound : (drivers issued limit).Sound world pool) {write : Write}
    {next : Unit → Driver α} {outcome : Outcome HeuremaError α}
    (hkeeps : (drivers issued limit).Keeps post world (Driver.commit write >>= next))
    (h : Pool.Beside (Store.acts limit) (Runs issued) (Driver.commit write >>= next) pool calls
      outcome last) :
    ∃ later : World M P R, world.Later later ∧ later.Inv issued ∧
      pool.state.2 <+: later.writes ∧ later.writes <+: last.state.2 ∧
      ((∃ refusal, ⟨.write write, .error refusal⟩ ∈ calls ∧ outcome = refuse refusal ∧
          later.store.admits limit write = .error refusal) ∨
        ∃ (after : World M P R) (rest : _) (pool' : _), calls = ⟨.write write, .ok ()⟩ :: rest ∧
          later.store.check write = .ok () ∧ after.store = later.store.commit write ∧
          after.writes = later.writes ++ [write] ∧ later.Later after ∧
          (drivers issued limit).Sound after pool' ∧ (drivers issued limit).Keeps post after (next ()) ∧
          Pool.Beside (Store.acts limit) (Runs issued) (next ()) pool' rest outcome last) := by
  obtain ⟨later, after, answer, rest, middle, pool', rfl, hsteps, hlater, hmiddle, hacts, hafter,
    hsound', hnext, h⟩ := hsound.beside_next (fun _ hprogram _ _ => runs_keep hprogram) hkeeps h
  have hview : (later.store, later.writes) = middle.state := hmiddle.view
  have hview' : (after.store, after.writes) = pool'.state := hsound'.view
  have hbefore : pool.state.2 <+: later.writes := by
    rw [show later.writes = middle.state.2 from congrArg Prod.snd hview]
    exact pool_writes hsteps
  have hbehind : later.writes <+: last.state.2 := by
    refine (acts_writes _ _ _ _ hacts).trans ?_
    rw [show ((drivers issued limit).view after).2 = pool'.state.2 from congrArg Prod.snd hview']
    exact beside_writes h
  refine ⟨later, hlater, hmiddle.inv, hbefore, hbehind, ?_⟩
  obtain ⟨hreplies, hstate⟩ := hacts
  have hanswer : answer = (later.store.perform limit write).1 := hreplies
  have hstore : after.store = (later.store.perform limit write).2 := congrArg Prod.fst hstate
  have hwrites : after.writes = later.writes ++ Call.took (.write write) answer :=
    congrArg Prod.snd hstate
  unfold Store.perform at hanswer hstore
  cases hadmits : later.store.admits limit write with
  | error refusal =>
    rw [hadmits] at hanswer
    subst hanswer
    exact .inl ⟨refusal, List.mem_cons_self, h.of_done.2, rfl⟩
  | ok _ =>
    rw [hadmits] at hanswer hstore
    subst hanswer
    exact .inr ⟨after, rest, pool', rfl, (Outcome.then_eq_ok.mp hadmits).2, hstore, hwrites, hafter,
      hsound', hnext, h⟩

end Writing

end Heurema
