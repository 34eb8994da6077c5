import Heurema.Adapters.RealTime
import Heurema.Lifecycle.Category
import Heurema.Lifecycle.Overtaken

/-! # What an error of an operation blames

Beside any drivers an operation is refused for a reason that took place: what it asks, what it
read, or a write that took effect while it ran. It never finds what is stored corrupt. -/

namespace Heurema

open Serde Hnsw Digest

open Outcome (refuse ofResult)

section Definitions

variable {M P R : Type} [MemberIdentity M] [ProvenanceReference P] [RetentionReference R]
  [SerdeJson] [Unicode] [Sha256]

/-- A stage of an operation names its index and its key. -/
def StageWrite.Of (operation : LifecycleOperation M P R) (staged : StageWrite) : Prop :=
  staged.index = operation.index ∧ staged.key = operation.key

/-- Why an operation fails that made `calls`, where the writes `before` had taken effect when
it began and `after` when it was answered, and `limit` bounds a stored value. -/
inductive Blames (limit : Option Nat) (operation : LifecycleOperation M P R)
    (before after : List Write) (calls : List (Σ call : Call, Except HeuremaError call.Reply)) :
    Failure HeuremaError → Prop where
  /-- Its own checks refuse it. -/
  | unchecked {failure : Failure HeuremaError}
      (checks : CheckedOperation.check operation = .error failure) :
    Blames limit operation before after calls failure
  /-- Another operation was published under its key. -/
  | conflict {checked : CheckedOperation M P R} {write : Write} {bytes : Bytes}
      {record : OperationRecord M P R} (checks : CheckedOperation.check operation = .ok checked)
      (took : write ∈ after)
      (recorded : write.recorded = some (operation.index, operation.key, bytes))
      (decoded : decodeOperation bytes operation.index operation.key = .ok record)
      (other : record.operation.digest ≠ checked.identity.digest) :
    Blames limit operation before after calls (.refused (.operationConflict {
      index := operation.index
      key := operation.key
      recorded := record.operation.digest
      requested := checked.identity.digest }))
  /-- The head it read does not permit it. -/
  | forbidden {checked : CheckedOperation M P R} {head : Option Bytes}
      {record : Option (IndexRecord R)} {failure : Failure HeuremaError}
      (checks : CheckedOperation.check operation = .ok checked)
      (read : ⟨.readHead operation.index, .ok head⟩ ∈ calls)
      (decoded : (head.mapM fun bytes => decodeHead bytes operation.index) = .ok record)
      (forbids : checked.permit record = .error failure) :
    Blames limit operation before after calls failure
  /-- What it read has no next version, or has too many tokens with what it adds. -/
  | exhausted {head bytes : Bytes} {version : IndexVersion} {record : Option (IndexRecord R)}
      {current : Current M P R} {failure : Failure HeuremaError}
      (read : ⟨.readHead operation.index, .ok (some head)⟩ ∈ calls)
      (payload : ⟨.readVersion operation.index version, .ok (some bytes)⟩ ∈ calls)
      (found : readCurrent operation.index (some head) (fun _ => some bytes) =
        .ok (record, current))
      (exhausts : Exhausts operation current failure) :
    Blames limit operation before after calls failure
  /-- Another operation on the index was published while it ran. -/
  | overtaken (grew : published before operation.index < published after operation.index) :
    Blames limit operation before after calls (.refused (.headChanged operation.index))
  /-- A version of the index was staged. -/
  | staged {write : StageWrite} (took : .stage write ∈ after)
      (named : write.index = operation.index) :
    Blames limit operation before after calls
      (.refused (.stagedStateExists operation.index write.version))
  /-- What it staged while it ran was published or quarantined after that. -/
  | moved {staged : StageWrite} {first added : List Write} {write : Write}
      (stages : staged.Of operation) (asked : ⟨.write (.stage staged), .ok ()⟩ ∈ calls)
      (since : after = before ++ first ++ .stage staged :: added) (took : write ∈ added)
      (unstages : write.Unstages operation.index staged.version) :
    Blames limit operation before after calls
      (.refused (.stagedStateMissing operation.index staged.version))
  /-- A value it would store is too large. -/
  | oversized {write : Write} {refusal : HeuremaError}
      (asked : ⟨.write write, .error refusal⟩ ∈ calls)
      (large : refuseOversized limit write.sizes = .error refusal) :
    Blames limit operation before after calls (.refused refusal)

variable {limit : Option Nat} {operation : LifecycleOperation M P R}
  {before after : List Write} {calls : List (Σ call : Call, Except HeuremaError call.Reply)}
  {failure : Failure HeuremaError}

/-- What is blamed for a part of a run is blamed for the whole. -/
theorem Blames.within {before' after' : List Write}
    {calls' : List (Σ call : Call, Except HeuremaError call.Reply)}
    (h : Blames limit operation before' after' calls' failure) (hbefore : before <+: before')
    (hafter : after' <+: after) (hcalls : calls' ⊆ calls) :
    Blames limit operation before after calls failure := by
  cases h with
  | unchecked checks => exact .unchecked checks
  | conflict checks took recorded decoded other =>
    exact .conflict checks (hafter.subset took) recorded decoded other
  | forbidden checks read decoded forbids => exact .forbidden checks (hcalls read) decoded forbids
  | exhausted read payload found exhausts =>
    exact .exhausted (hcalls read) (hcalls payload) found exhausts
  | overtaken grew =>
    have hfirst := published_prefix hbefore operation.index
    have hlast := published_prefix hafter operation.index
    exact .overtaken (hfirst.trans_lt (grew.trans_le hlast))
  | staged took named => exact .staged (hafter.subset took) named
  | @moved staged between added write stages asked since took unstages =>
    obtain ⟨first, rfl⟩ := hbefore
    obtain ⟨rest, rfl⟩ := hafter
    have hwhole : after' ++ rest = before ++ (first ++ between) ++ .stage staged :: (added ++ rest) := by
      rw [since]
      simp only [List.append_assoc, List.cons_append]
    exact .moved stages (hcalls asked) hwhole (List.mem_append_left _ took) unstages
  | oversized asked large => exact .oversized (hcalls asked) large

omit [SerdeJson] [Unicode] [Sha256] in
theorem refuseOversized_category {sizes : List (String × Nat)} {refusal : HeuremaError}
    (h : refuseOversized limit sizes = .error refusal) :
    refusal.category = .storage ∧ limit.isSome := by
  induction sizes with
  | nil => cases h
  | cons size sizes ih =>
    obtain ⟨what, len⟩ := size
    cases limit with
    | none => cases h
    | some limit =>
      rw [refuseOversized] at h
      split at h
      · cases h
        exact ⟨rfl, rfl⟩
      · exact ih h

/-- No operation finds what is stored missing or corrupt, and a backend that bounds no value
never fails it. -/
theorem Blames.category {error : HeuremaError}
    (h : Blames limit operation before after calls (.refused error)) :
    error.OfInput ∨ error.category = .conflict ∨ error.category = .recoveryRequired ∨
      error.category = .storage ∧ limit.isSome := by
  generalize hfailure : Failure.refused error = failure at h
  cases h with
  | unchecked checks =>
    subst hfailure
    exact .inl (CheckedOperation.check_ofInput operation error checks)
  | conflict checks took recorded decoded other =>
    cases hfailure
    exact .inr (.inl rfl)
  | @forbidden checked head record failure checks read decoded forbids =>
    subst hfailure
    exact .inl (checked.permit_ofInput record error forbids)
  | exhausted read payload found exhausts =>
    subst hfailure
    cases exhausts with
    | version last => exact .inl (.inl rfl)
  | overtaken grew =>
    cases hfailure
    exact .inr (.inl rfl)
  | staged took named =>
    cases hfailure
    exact .inr (.inr (.inl rfl))
  | moved stages asked since took unstages =>
    cases hfailure
    exact .inr (.inl rfl)
  | oversized asked large =>
    cases hfailure
    exact .inr (.inr (.inr (refuseOversized_category large)))

end Definitions

/-! ## Preparing -/

section Preparing

variable {M P R : Type} [MemberIdentity M] [ProvenanceReference P] [RetentionReference R]
  [SerdeJson] [Unicode] [Sha256] [VectorMath] {issued : LifecycleOperation M P R → Prop}
  {limit : Option Nat} {operation : LifecycleOperation M P R} {world : World M P R}
  {pool last : Pool Call.Reply HeuremaError (Store × List Write) Unit}
  {calls : List (Σ call : Call, Except HeuremaError call.Reply)}

/-- A prepared operation, built under a new key on a part of the chain of its index that no
world before has more of. -/
def World.Readies (issued : LifecycleOperation M P R → Prop) (world final : World M P R)
    (operation : LifecycleOperation M P R) (prepared : Prepared R) : Prop :=
  ∃ (publication : Publication M P R) (earlier : List (Commit M P R)),
    publication.checked.operation = operation ∧
    prepared = ⟨publication.plan, publication.write⟩ ∧
    Builds issued operation.index (Chain.head earlier) (Chain.payload earlier) publication ∧
    world.logs operation.index <:+ earlier ∧ earlier <:+ final.logs operation.index ∧
    Chain.record earlier operation.key = none

/-- What the writes of an operation are refused for that read the head of a part of a chain. -/
theorem build_blames (hdistinguishes : Distinguishes issued) {checked : CheckedOperation M P R}
    (hissued : issued checked.operation) (hsound : (drivers issued limit).Sound world pool)
    {earlier : List (Commit M P R)} (hearlier : earlier <:+ world.logs checked.operation.index)
    {before : List Write} (hbefore : published before checked.operation.index ≤ earlier.length)
    {prior : List (Σ call : Call, Except HeuremaError call.Reply)}
    (hprior : ⟨.readHead checked.operation.index, .ok (Chain.head earlier)⟩ ∈ prior)
    {outcome : Outcome HeuremaError (Prepared R)}
    (h : Pool.Beside (Store.acts limit) (Runs issued) (Driver.build checked (Chain.head earlier))
      pool calls outcome last) :
    ∃ final : World M P R, world.Later final ∧ (drivers issued limit).Sound final last ∧
      (∀ failure, outcome = .error failure →
        Blames limit checked.operation before last.state.2 (prior ++ calls) failure) ∧
      ∀ prepared, outcome = .ok prepared → ∃ publication : Publication M P R,
        publication.checked.operation = checked.operation ∧
        prepared = ⟨publication.plan, publication.write⟩ ∧
        Builds issued checked.operation.index (Chain.head earlier) (Chain.payload earlier)
          publication := by
  have hchecks := checked.check_checked
  have hchain := hsound.inv.chain_earlier hearlier
  obtain ⟨head, current, hread⟩ := hchain.reads hdistinguishes
  have hdecoded := readCurrent_head hread
  unfold Driver.build at h
  simp only [hdecoded, Program.lift_ok] at h
  obtain ⟨second, first, rest, pool', rfl, hsecond, hsound', hcurrent⟩ :=
    current_beside hsound hearlier hread h
  rcases hcurrent with hgone | hcurrent
  · obtain ⟨h, hgrown⟩ := hgone
    obtain ⟨final, rfl, rfl, hfinal, hlast⟩ := beside_done hsound' h
    refine ⟨final, (drivers issued limit).trans hsecond hfinal, hlast, ?_, ?_⟩
    · intro failure hsame
      cases hsame
      have hwrites : final.writes = last.state.2 := congrArg Prod.snd hlast.view
      refine .overtaken (hbefore.trans_lt ?_)
      rw [← hwrites, hlast.inv.published]
      exact hgrown.trans_le (hfinal _).length_le
    · intro prepared hsame
      cases hsame
  · obtain ⟨h, hpayload⟩ := hcurrent
    cases hpermit : checked.permit head with
    | error failure =>
      rw [hpermit] at h
      obtain ⟨final, rfl, rfl, hfinal, hlast⟩ := beside_done hsound' h
      refine ⟨final, (drivers issued limit).trans hsecond hfinal, hlast, ?_, ?_⟩
      · intro failure' hsame
        cases hsame
        exact .forbidden hchecks (List.mem_append_left _ hprior) hdecoded hpermit
      · intro prepared hsame
        cases hsame
    | ok validated =>
      rw [hpermit] at h
      simp only [Program.lift_ok, Driver.refuseStaged, Program.bind_assoc] at h
      obtain ⟨third, rest, pool'', rfl, hthird, hsound'', h⟩ := beside_readStaging hsound' h
      have hlater := (drivers issued limit).trans hsecond hthird
      have hgrows := beside_writes h
      have hview : (third.store, third.writes) = pool''.state := hsound''.view
      cases hstaged : third.store.staged checked.operation.index with
      | some staged =>
        obtain ⟨version, marker⟩ := staged
        rw [hstaged] at h
        obtain ⟨final, rfl, rfl, hfinal, hlast⟩ := beside_done hsound'' h
        refine ⟨final, (drivers issued limit).trans hlater hfinal, hlast, ?_, ?_⟩
        · intro failure hsame
          cases hsame
          obtain ⟨write, hmem, hindex, rfl⟩ := hsound''.inv.run.staged_by hstaged
          have htook : Write.stage write ∈ pool''.state.2 := by
            rw [← hview]
            exact hmem
          exact .staged (hgrows.subset htook) hindex
        · intro prepared hsame
          cases hsame
      | none =>
        rw [hstaged] at h
        have hvalidated := (permit_eq_ok hpermit).1
        rcases hchain.total hdistinguishes hread hpermit with hnext | hfailed
        · obtain ⟨next, plan, write, hnext, hplan⟩ := hnext
          simp only [hnext, hvalidated, hplan, Outcome.ofResult_ok, Program.lift_ok] at h
          obtain ⟨final, rfl, rfl, hfinal, hlast⟩ := beside_done hsound'' h
          refine ⟨final, (drivers issued limit).trans hlater hfinal, hlast, ?_, ?_⟩
          · intro failure hsame
            cases hsame
          · intro prepared hsame
            cases hsame
            refine ⟨⟨checked, next, plan, write⟩, rfl, rfl, ?_⟩
            exact ⟨hissued, rfl, head, current, validated, hread, hpermit, hnext, hplan⟩
        · obtain ⟨failure, hfailure, hexhausts⟩ := hfailed
          rw [hfailure] at h
          obtain ⟨final, rfl, rfl, hfinal, hlast⟩ := beside_done hsound'' h
          refine ⟨final, (drivers issued limit).trans hlater hfinal, hlast, ?_, ?_⟩
          · intro failure' hsame
            cases hsame
            have hcurrent : current.isSome := by
              cases hexhausts <;> rfl
            obtain ⟨version, bytes, hmem, hfound⟩ := hpayload hcurrent
            cases hhead : Chain.head earlier with
            | none =>
              rw [hhead] at hread
              cases hread
              cases hcurrent
            | some bytes' =>
              rw [hhead] at hprior hfound
              exact .exhausted (List.mem_append_left _ hprior)
                (List.mem_append_right prior (List.mem_append_left _ hmem)) hfound hexhausts
          · intro prepared hsame
            cases hsame

/-- What a preparation beside drivers is refused for, and what it builds on. -/
theorem prepare_blames (hdistinguishes : Distinguishes issued) (hissued : issued operation)
    (hsound : (drivers issued limit).Sound world pool)
    {outcome : Outcome HeuremaError (Preparation R)}
    (h : Pool.Beside (Store.acts limit) (Runs issued) (Driver.prepare operation) pool calls outcome
      last) :
    ∃ final : World M P R, world.Later final ∧ (drivers issued limit).Sound final last ∧
      (∀ failure, outcome = .error failure →
        Blames limit operation pool.state.2 last.state.2 calls failure) ∧
      ∀ prepared, outcome = .ok (.ready prepared) → world.Readies issued final operation prepared := by
  unfold Driver.prepare at h
  cases hchecks : CheckedOperation.check operation with
  | error failure =>
    rw [hchecks] at h
    obtain ⟨final, rfl, rfl, hfinal, hlast⟩ := beside_done hsound h
    refine ⟨final, hfinal, hlast, ?_, ?_⟩
    · intro failure' hsame
      cases hsame
      exact .unchecked hchecks
    · intro prepared hsame
      cases hsame
  | ok checked =>
    obtain rfl := CheckedOperation.check_operation hchecks
    rw [hchecks, Program.lift_ok] at h
    have hgrows := beside_writes h
    obtain ⟨first, rest, pool', rfl, hfirst, hsound', h⟩ := beside_readHead hsound h
    simp only [Driver.replay, Program.bind_assoc] at h
    obtain ⟨second, rest, pool'', rfl, hsecond, hsound'', h⟩ := beside_readOperation hsound' h
    have hlater := (drivers issued limit).trans hfirst hsecond
    have hchain := (hsound''.inv.reflects checked.operation.index).chain
    have hgrows' := beside_writes h
    have hwrites : second.writes = pool''.state.2 := congrArg Prod.snd hsound''.view
    cases hrecord : Chain.record (second.logs checked.operation.index) checked.operation.key with
    | some bytes =>
      rw [hrecord] at h
      obtain ⟨commit, hmem, hkey, rfl⟩ := Chain.record_eq_some hrecord
      obtain ⟨earlier, htop, hbuilds⟩ := hchain.builds hmem
      obtain ⟨hdecoded, -, hidentity, -, -, -, -⟩ := hbuilds.recorded htop
      have hreplayed := hbuilds.replayed htop rfl hkey.symm
      simp only [hreplayed, Program.bind_assoc] at h
      by_cases hother : commit.checked.identity.digest ≠ checked.identity.digest
      · rw [if_pos hother, ← hidentity] at h
        rw [← hidentity] at hother
        obtain ⟨final, rfl, rfl, hfinal, hlast⟩ := beside_done hsound'' h
        refine ⟨final, (drivers issued limit).trans hlater hfinal, hlast, ?_, ?_⟩
        · intro failure hsame
          cases hsame
          have htook := hgrows'.subset (hwrites ▸ hsound''.inv.published_by hmem)
          have hrecorded := hchain.recorded hmem
          rw [hkey] at hrecorded hdecoded
          exact .conflict hchecks htook hrecorded hdecoded hother
        · intro prepared hsame
          cases hsame
      · rw [if_neg hother] at h
        obtain ⟨final, rfl, rfl, hfinal, hlast⟩ := beside_done hsound'' h
        refine ⟨final, (drivers issued limit).trans hlater hfinal, hlast, ?_, ?_⟩
        · intro failure hsame
          cases hsame
        · intro prepared hsame
          cases hsame
    | none =>
      rw [hrecord] at h
      have hearlier := hsecond checked.operation.index
      have hbefore : published pool.state.2 checked.operation.index ≤
          (first.logs checked.operation.index).length := by
        rw [← show world.writes = pool.state.2 from congrArg Prod.snd hsound.view,
          hsound.inv.published]
        exact (hfirst _).length_le
      let prior : List (Σ call : Call, Except HeuremaError call.Reply) :=
        [⟨.readHead checked.operation.index, .ok (Chain.head (first.logs checked.operation.index))⟩,
          ⟨.readOperation checked.operation.index checked.operation.key, .ok none⟩]
      have hprior : ⟨.readHead checked.operation.index,
          .ok (Chain.head (first.logs checked.operation.index))⟩ ∈ prior := List.mem_cons_self
      have h : Pool.Beside (Store.acts limit) (Runs issued)
          (Driver.build checked (Chain.head (first.logs checked.operation.index)) >>= fun prepared =>
            pure (Preparation.ready prepared)) pool'' rest outcome last := h
      rcases h.of_bind with hfailed | hbuilt
      · obtain ⟨failure, hbuild, rfl⟩ := hfailed
        obtain ⟨final, hfinal, hlast, hblames, -⟩ :=
          build_blames hdistinguishes hissued hsound'' hearlier hbefore hprior hbuild
        refine ⟨final, (drivers issued limit).trans hlater hfinal, hlast, ?_, ?_⟩
        · intro failure' hsame
          cases hsame
          exact hblames failure rfl
        · intro prepared hsame
          cases hsame
      · obtain ⟨made, rest', prepared, middle, rfl, hbuild, h⟩ := hbuilt
        obtain ⟨final, hfinal, hmiddle, -, hready⟩ :=
          build_blames hdistinguishes hissued hsound'' hearlier hbefore hprior hbuild
        obtain ⟨publication, hoperation, hprepared, hbuilds⟩ := hready prepared rfl
        obtain ⟨final', rfl, rfl, hfinal', hlast⟩ := beside_done hmiddle h
        have hwhole := (drivers issued limit).trans hfinal hfinal'
        refine ⟨final', (drivers issued limit).trans hlater hwhole, hlast, ?_, ?_⟩
        · intro failure hsame
          cases hsame
        · intro prepared' hsame
          cases hsame
          exact ⟨publication, _, hoperation, hprepared, hbuilds, hfirst _,
            hearlier.trans (hwhole _), Chain.record_earlier hearlier hrecord⟩

end Preparing

section Finishing

variable {M P R : Type} [MemberIdentity M] [ProvenanceReference P] [RetentionReference R]
  [SerdeJson] [Unicode] [Sha256] [VectorMath] {issued : LifecycleOperation M P R → Prop}
  {limit : Option Nat} {world later : World M P R} {earlier : List (Commit M P R)}
  {publication : Publication M P R} {operation : LifecycleOperation M P R}
  {pool last : Pool Call.Reply HeuremaError (Store × List Write) Unit} {before after : List Write}
  {calls : List (Σ call : Call, Except HeuremaError call.Reply)}

omit [VectorMath] in
/-- A write that is refused is too large, or is refused by the checks of what is stored. -/
theorem Blames.of_admits {store : Store} {write : Write} {refusal : HeuremaError}
    (h : store.admits limit write = .error refusal)
    (hasked : ⟨.write write, .error refusal⟩ ∈ calls)
    (hcheck : store.check write = .error refusal →
      Blames limit operation before after calls (.refused refusal)) :
    Blames limit operation before after calls (.refused refusal) := by
  rw [Store.admits] at h
  cases hsizes : refuseOversized limit write.sizes with
  | error _ =>
    rw [hsizes] at h
    cases h
    exact .oversized hasked hsizes
  | ok _ =>
    rw [hsizes] at h
    exact hcheck h

/-- A longer chain than the one an operation was built on was published while it ran. -/
theorem blames_overtaken (h : later.Inv issued)
    (hcount : published before operation.index ≤ earlier.length)
    (hgrew : earlier.length < (later.logs operation.index).length)
    (hafter : later.writes <+: after) :
    Blames limit operation before after calls (.refused (.headChanged operation.index)) := by
  refine .overtaken (hcount.trans_lt (hgrew.trans_le ?_))
  rw [← h.published]
  exact published_prefix hafter _

theorem blames_barred (h : later.Inv issued)
    (hcount : published before operation.index ≤ earlier.length)
    (hafter : later.writes <+: after) {refusal : HeuremaError}
    (hbars : later.Bars operation.index earlier refusal) :
    Blames limit operation before after calls (.refused refusal) := by
  cases hbars with
  | overtaken hgrew => exact blames_overtaken h hcount hgrew hafter
  | staged hstaged =>
    obtain ⟨write, hmem, hindex, rfl⟩ := h.run.staged_by hstaged
    exact .staged (hafter.subset hmem) hindex

/-- What the publishing write of a built operation is refused for, whose version was staged. -/
theorem publish_blames (hsound : (drivers issued limit).Sound world pool)
    (hearlier : earlier <:+ world.logs publication.checked.operation.index)
    (hbuilds : Builds issued publication.checked.operation.index (Chain.head earlier)
      (Chain.payload earlier) publication)
    (hfresh : Chain.record earlier publication.checked.operation.key = none)
    (hcount : published before publication.checked.operation.index ≤ earlier.length)
    {prior : List (Σ call : Call, Except HeuremaError call.Reply)}
    (hstaged : ∀ expected version marker bytes,
      publication.write = .version expected version marker bytes →
      world.store.staged publication.checked.operation.index = some (version, marker) ∧
      ∃ (staged : StageWrite) (first : List Write), staged.Of publication.checked.operation ∧
        staged.version = version ∧ ⟨.write (.stage staged), .ok ()⟩ ∈ prior ∧
        world.writes = before ++ first ++ [.stage staged])
    {outcome : Outcome HeuremaError (PublishReceipt R)}
    (h : Pool.Beside (Store.acts limit) (Runs issued) publication.staged.publish pool calls outcome
      last) {failure : Failure HeuremaError} (hfailed : outcome = .error failure) :
    Blames limit publication.checked.operation before last.state.2 (prior ++ calls) failure := by
  have hbuilt : world.Built issued publication := ⟨earlier, hearlier, hbuilds⟩
  have htop := (hsound.inv.chain_earlier hearlier).top
  have hadvances := hbuilds.advances htop
  obtain ⟨hindex, hkey⟩ := hbuilt.names hsound.inv
  have hkeeps : (drivers issued limit).Keeps (Returns World.Receives) world
      publication.staged.publish := publish_keeps ⟨publication, hbuilt, rfl⟩
  have hview : world.writes = pool.state.2 := congrArg Prod.snd hsound.view
  obtain ⟨later, hlater, hinv, hgrows, hgrows', hcommit⟩ := beside_commit hsound hkeeps h
  have hgrown := hearlier.trans (hlater publication.checked.operation.index)
  rcases hcommit with hrefused | htook
  · obtain ⟨refusal, hmem, rfl, hadmits⟩ := hrefused
    cases hfailed
    refine .of_admits hadmits (List.mem_append_right _ hmem) fun hcheck => ?_
    cases hwrite : publication.write with
    | destroy expected versions =>
      rw [Publication.publishing_destroy hwrite] at hcheck
      have hexpected := (hadvances.expected_destroy hwrite).1
      exact blames_barred hinv hcount hgrows' (hinv.destroy_barred hgrown hindex hexpected.symm
        (hkey ▸ hfresh) hcheck)
    | version expected version marker bytes =>
      rw [Publication.publishing_version hwrite] at hcheck
      obtain ⟨hexpected, hnumbered⟩ := hadvances.expected_version hwrite
      rcases hinv.publish_barred hgrown hindex hexpected (hkey ▸ hfresh) hcheck with hgrew | hgone
      · obtain ⟨rfl, hgrew⟩ := hgrew
        exact blames_overtaken hinv hcount hgrew hgrows'
      · obtain ⟨rfl, hgone⟩ := hgone
        obtain ⟨hstill, staged, first, hof, rfl, hasked, hwrites⟩ := hstaged _ _ _ _ hwrite
        rw [← hview] at hgrows
        obtain ⟨added, hadded⟩ := hgrows
        have hrun := hinv.run
        rw [← hadded] at hrun hgrows'
        rcases hsound.inv.run.staged_since hstill added hrun with hstill | hmoved
        · exact absurd hstill hgone
        · obtain ⟨write, hwritten, hunstages⟩ := hmoved
          have hsince : world.writes ++ added = before ++ first ++ .stage staged :: added := by
            rw [hwrites, List.append_assoc _ [_], List.singleton_append]
          have hblames : Blames limit publication.checked.operation before
              (world.writes ++ added) (prior ++ calls) (.refused (.stagedStateMissing
                publication.checked.operation.index staged.version)) :=
            .moved hof (List.mem_append_left _ hasked) hsince hwritten hunstages
          exact hblames.within (List.prefix_refl _) hgrows' (List.Subset.refl _)
  · obtain ⟨after, rest, pool', -, -, -, -, -, -, -, h⟩ := htook
    have hdone := h.of_done.2
    rw [hfailed] at hdone
    cases hdone

/-- What the writes of a built operation are refused for. -/
theorem finish_blames (hsound : (drivers issued limit).Sound world pool)
    (hearlier : earlier <:+ world.logs publication.checked.operation.index)
    (hbuilds : Builds issued publication.checked.operation.index (Chain.head earlier)
      (Chain.payload earlier) publication)
    (hfresh : Chain.record earlier publication.checked.operation.key = none)
    (hbefore : before <+: pool.state.2)
    (hcount : published before publication.checked.operation.index ≤ earlier.length)
    {outcome : Outcome HeuremaError (PublishReceipt R)}
    (h : Pool.Beside (Store.acts limit) (Runs issued)
      (Prepared.stage ⟨publication.plan, publication.write⟩ >>= Staged.publish) pool calls outcome
      last) {failure : Failure HeuremaError} (hfailed : outcome = .error failure) :
    Blames limit publication.checked.operation before last.state.2 calls failure := by
  have hbuilt : world.Built issued publication := ⟨earlier, hearlier, hbuilds⟩
  have hkeeps : (drivers issued limit).Keeps (Returns World.Receives) world
      (Prepared.stage ⟨publication.plan, publication.write⟩ >>= Staged.publish) :=
    keeps_bind (stage_keeps ⟨publication, hbuilt, rfl⟩) fun _ _ _ _ hstages =>
      publish_keeps hstages
  cases hwrite : publication.write with
  | destroy expected versions =>
    have hstaged : publication.staged = ⟨publication.plan, .destroy expected versions⟩ := by
      rw [Publication.staged, hwrite]
      rfl
    rw [hwrite] at h
    have h : Pool.Beside (Store.acts limit) (Runs issued)
        (Staged.publish ⟨publication.plan, .destroy expected versions⟩) pool calls outcome last := h
    rw [← hstaged] at h
    have hnone : ∀ expected version marker bytes,
        publication.write ≠ .version expected version marker bytes := by
      intro _ _ _ _ hversion
      rw [hwrite] at hversion
      cases hversion
    show Blames limit publication.checked.operation before last.state.2 ([] ++ calls) failure
    exact publish_blames hsound hearlier hbuilds hfresh hcount
      (fun _ _ _ _ hversion => absurd hversion (hnone _ _ _ _)) h hfailed
  | version expected version marker bytes =>
    obtain ⟨hindex, hkey⟩ := hbuilt.names hsound.inv
    have hstaged : publication.staged = ⟨publication.plan, .version expected version marker⟩ := by
      rw [Publication.staged, hwrite]
      rfl
    let prepared : Prepared R := ⟨publication.plan, publication.write⟩
    let write := prepared.staging expected version marker bytes
    have hprogram : (Prepared.stage ⟨publication.plan, publication.write⟩ >>= Staged.publish) =
        Driver.commit (.stage write) >>= fun _ => publication.staged.publish := by
      rw [hstaged, hwrite]
      rfl
    rw [hprogram] at hkeeps h
    obtain ⟨later, hlater, hinv, hgrows, hgrows', hcommit⟩ := beside_commit hsound hkeeps h
    have hgrown := hearlier.trans (hlater publication.checked.operation.index)
    rcases hcommit with hrefused | htook
    · obtain ⟨refusal, hmem, rfl, hadmits⟩ := hrefused
      cases hfailed
      refine .of_admits hadmits hmem fun hcheck => ?_
      have htop := (hsound.inv.chain_earlier hearlier).top
      obtain ⟨hexpected, hnumbered⟩ := (hbuilds.advances htop).expected_version hwrite
      have hunrecorded : Chain.record earlier write.key = none := by
        show Chain.record earlier publication.plan.operation.key = none
        rw [hkey]
        exact hfresh
      have hbars := hinv.stage_barred hgrown hindex hexpected hnumbered hunrecorded hcheck
      exact blames_barred hinv hcount hgrows' hbars
    · obtain ⟨after, rest, pool', rfl, hcheck, hstore, hwrites, hafter, hsound', -, h⟩ := htook
      have hview : after.writes = pool'.state.2 := congrArg Prod.snd hsound'.view
      obtain ⟨first, hfirst⟩ := hbefore.trans hgrows
      have hof : write.Of publication.checked.operation := ⟨hindex, hkey⟩
      show Blames limit publication.checked.operation before last.state.2
        ([⟨.write (.stage write), .ok ()⟩] ++ rest) failure
      refine publish_blames hsound' (hgrown.trans (hafter _)) hbuilds hfresh hcount ?_ h hfailed
      intro _ _ _ _ hversion
      rw [hwrite] at hversion
      cases hversion
      constructor
      · rw [hstore, ← hindex]
        exact Function.update_self ..
      · refine ⟨write, first, hof, rfl, List.mem_singleton_self _, ?_⟩
        rw [hwrites, hfirst]

/-- What an operation beside drivers is refused for. -/
theorem apply_blames (hdistinguishes : Distinguishes issued) (hissued : issued operation)
    (hsound : (drivers issued limit).Sound world pool)
    {outcome : Outcome HeuremaError (PublishReceipt R)}
    (h : Pool.Beside (Store.acts limit) (Runs issued) (Driver.apply operation) pool calls outcome
      last) {failure : Failure HeuremaError} (hfailed : outcome = .error failure) :
    Blames limit operation pool.state.2 last.state.2 calls failure := by
  rcases h.of_bind with hunprepared | hprepared
  · obtain ⟨failure', hprepare, rfl⟩ := hunprepared
    cases hfailed
    obtain ⟨final, -, -, hblames, -⟩ := prepare_blames hdistinguishes hissued hsound hprepare
    exact hblames failure rfl
  · obtain ⟨first, second, preparation, middle, rfl, hprepare, h⟩ := hprepared
    obtain ⟨final, hfinal, hmiddle, -, hready⟩ :=
      prepare_blames hdistinguishes hissued hsound hprepare
    cases preparation with
    | replayed receipt =>
      have hdone := h.of_done.2
      rw [hfailed] at hdone
      cases hdone
    | ready prepared =>
      obtain ⟨publication, earlier, rfl, rfl, hbuilds, hbefore, hearlier, hfresh⟩ :=
        hready prepared rfl
      have hcount : published pool.state.2 publication.checked.operation.index ≤ earlier.length := by
        rw [← show world.writes = pool.state.2 from congrArg Prod.snd hsound.view,
          hsound.inv.published]
        exact hbefore.length_le
      have hblames := finish_blames hmiddle hearlier hbuilds hfresh (beside_writes hprepare) hcount h
        hfailed
      exact hblames.within (List.prefix_refl _) (List.prefix_refl _) (List.subset_append_right _ _)

end Finishing

/-! ## On the adapters -/

section Adapters

variable {M P R : Type} [MemberIdentity M] [ProvenanceReference P] [RetentionReference R]
  [SerdeJson] [Unicode] [Sha256] [VectorMath] {issued : LifecycleOperation M P R → Prop}
  {limit : Option Nat}

/-- What is run beside any drivers for an operation fails only for what took place, and never
finds what is stored missing or corrupt. -/
structure BlamesTruly (issued : LifecycleOperation M P R → Prop) (limit : Option Nat) {σ : Type}
    [LifecycleBackend σ] (start : σ) {α : Type}
    (run : LifecycleOperation M P R → Driver α) : Prop where
  blames : ∀ (pool last : Drivers σ) operation calls failure, Reached issued start pool →
    issued operation →
    Pool.Beside LifecycleBackend.acts (Runs issued) (run operation) pool calls (.error failure)
      last →
    Blames limit operation pool.state.2 last.state.2 calls failure
  category : ∀ (pool last : Drivers σ) operation calls error, Reached issued start pool →
    issued operation →
    Pool.Beside LifecycleBackend.acts (Runs issued) (run operation) pool calls (refuse error)
      last →
    error.OfInput ∨ error.category = .conflict ∨ error.category = .recoveryRequired ∨
      error.category = .storage ∧ limit.isSome

/-- What is blamed on a world is blamed on a backend that shows it. -/
theorem Adapter.blamesTruly {σ : Type} [LifecycleBackend σ] {Represents : σ → Store → Prop}
    (adapter : Adapter σ limit Represents) {start : σ} (hstart : Represents start .empty) {α : Type}
    {run : LifecycleOperation M P R → Driver α}
    (hblames : ∀ {world : World M P R} {pool last} {operation calls failure},
      issued operation → (drivers issued limit).Sound world pool →
      Pool.Beside (Store.acts limit) (Runs issued) (run operation) pool calls (.error failure)
        last →
      Blames limit operation pool.state.2 last.state.2 calls failure) :
    BlamesTruly issued limit start run := by
  have htruly : ∀ (pool last : Drivers σ) operation calls failure, Reached issued start pool →
      issued operation →
      Pool.Beside LifecycleBackend.acts (Runs issued) (run operation) pool calls (.error failure)
        last →
      Blames limit operation pool.state.2 last.state.2 calls failure := by
    intro pool last operation calls failure hreached hissued hbeside
    obtain ⟨world, hrepresents, hwrites, hsound⟩ := adapter.reached hstart hreached
    have hcontents : Contents Represents pool.state (world.store, world.writes) :=
      ⟨hrepresents, hwrites⟩
    obtain ⟨contents, hstore, hlast⟩ := hbeside.simulates adapter.simulates hcontents
    rw [hwrites, show last.state.2 = contents.2 from hlast.2]
    exact hblames hissued hsound hstore
  refine ⟨htruly, ?_⟩
  intro pool last operation calls error hreached hissued hbeside
  exact (htruly pool last operation calls _ hreached hissued hbeside).category

/-- On both adapters, however drivers are interleaved, an operation that fails blames what took
place, prepared or applied. -/
theorem errors_blamed (hdistinguishes : Distinguishes issued) :
    (BlamesTruly issued none Atmis.LifecycleState.empty Driver.prepare ∧
      BlamesTruly issued none Atmis.LifecycleState.empty Driver.apply) ∧
    ∀ limit,
      BlamesTruly issued (some limit) (Thesauros.ThesaurosBackend.empty limit) Driver.prepare ∧
        BlamesTruly issued (some limit) (Thesauros.ThesaurosBackend.empty limit) Driver.apply := by
  have hprepare {limit : Option Nat} {world : World M P R} {pool last} {operation calls failure}
      (hissued : issued operation) (hsound : (drivers issued limit).Sound world pool)
      (h : Pool.Beside (Store.acts limit) (Runs issued) (Driver.prepare operation) pool calls
        (.error failure) last) :
      Blames limit operation pool.state.2 last.state.2 calls failure := by
    obtain ⟨final, -, -, hblames, -⟩ := prepare_blames hdistinguishes hissued hsound h
    exact hblames failure rfl
  have happly {limit : Option Nat} {world : World M P R} {pool last} {operation calls failure}
      (hissued : issued operation) (hsound : (drivers issued limit).Sound world pool)
      (h : Pool.Beside (Store.acts limit) (Runs issued) (Driver.apply operation) pool calls
        (.error failure) last) :
      Blames limit operation pool.state.2 last.state.2 calls failure :=
    apply_blames hdistinguishes hissued hsound h rfl
  refine ⟨⟨?_, ?_⟩, fun limit => ⟨?_, ?_⟩⟩
  · exact Atmis.adapter.blamesTruly .empty hprepare
  · exact Atmis.adapter.blamesTruly .empty happly
  · exact (Thesauros.adapter limit).blamesTruly (.empty limit) hprepare
  · exact (Thesauros.adapter limit).blamesTruly (.empty limit) happly

end Adapters

section Witness

attribute [local instance] Consumer.identity Consumer.reference SerdeJson.compact Unicode.ascii
  Consumer.sha256 Line.math

/-- Drivers of the consumer's operations. -/
theorem errors_blamed_consumer :
    BlamesTruly (· ∈ Consumer.operations) none Atmis.LifecycleState.empty Driver.apply :=
  (errors_blamed Consumer.distinguishes).1.2

end Witness

end Heurema
