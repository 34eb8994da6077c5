import Heurema.Adapters.Once
import Heurema.Adapters.Readers

/-! # Versions follow real time

A version that a reader or a receipt names was published by the end of the call, and after
everything that was published before it: what one call returned is never undone for a call
that starts later. -/

namespace Heurema

open Serde Hnsw Digest

open Outcome (refuse)

open LifecycleBackend (Shows)

/-- How many of the writes published an index. -/
def published (writes : List Write) (index : IndexIdentity) : Nat :=
  (writes.filter (·.Publishes index)).length

/-- A write that publishes a version of an index. -/
def Write.PublishesVersion (index : IndexIdentity) : Write → Prop
  | .publish write => write.index = index
  | _ => False

instance (index : IndexIdentity) : (write : Write) → Decidable (write.PublishesVersion index)
  | .publish write => decEq write.index index
  | .stage _ | .destroy _ | .quarantine _ => .isFalse id

/-- How many versions of an index the writes published: a write that destroys it is none. -/
def publishedVersions (writes : List Write) (index : IndexIdentity) : Nat :=
  (writes.filter (·.PublishesVersion index)).length

theorem Write.PublishesVersion.publishes {index : IndexIdentity} {write : Write}
    (h : write.PublishesVersion index) : write.Publishes index := by
  cases write with
  | publish write => exact h
  | stage write => cases h
  | destroy write => cases h
  | quarantine write => cases h

theorem published_prefix {writes later : List Write} (h : writes <+: later)
    (index : IndexIdentity) : published writes index ≤ published later index :=
  (h.sublist.filter _).length_le

section Chains

variable {M P R : Type} [MemberIdentity M] [ProvenanceReference P] [RetentionReference R]
  [SerdeJson] [Unicode] [Sha256] [VectorMath] {issued : LifecycleOperation M P R → Prop}
  {index : IndexIdentity} {log earlier : List (Commit M P R)} {commit : Commit M P R}
  {world : World M P R}

theorem World.Inv.published (h : world.Inv issued) (index : IndexIdentity) :
    published world.writes index = (world.logs index).length := by
  rw [Heurema.published, h.recorded, List.length_map, List.length_reverse]

/-- The versions of an index are those among the commits of its chain. -/
theorem World.Inv.publishedVersions (h : world.Inv issued) (index : IndexIdentity) :
    publishedVersions world.writes index =
      ((world.logs index).filter fun commit => commit.publishing.PublishesVersion index).length := by
  have hnarrow : world.writes.filter (·.PublishesVersion index) =
      (world.writes.filter (·.Publishes index)).filter (·.PublishesVersion index) := by
    rw [List.filter_filter]
    refine List.filter_congr fun write _ => ?_
    rw [← Bool.decide_and]
    exact decide_eq_decide.mpr ⟨fun hversion => ⟨hversion, hversion.publishes⟩, And.left⟩
  rw [Heurema.publishedVersions, hnarrow, h.recorded, List.filter_map, List.length_map,
    List.filter_reverse, List.length_reverse]
  rfl

/-- Every commit of a chain whose head names an active version published a version. -/
theorem Chain.all_versions (h : Chain issued index log) {head : Bytes} {config : IndexConfig}
    {version : IndexVersion} (hhead : Chain.head log = some head) (hdecoded : decodeHead head index =
      .ok (⟨index, config, .active version⟩ : IndexRecord R)) :
    ∀ commit ∈ log, commit.publishing.PublishesVersion index := by
  induction log generalizing head config version with
  | nil => cases hhead
  | cons commit earlier ih =>
    cases h with
    | commit hearlier hfresh hbuilds hfound =>
      have hindexed : commit.plan.index = index := (hbuilds.recorded hearlier.top).2.2.2.1
      cases hbuilds.advances hearlier.top with
      | version hwrite hnumbered hstanding =>
        intro published hmem
        rcases List.mem_cons.mp hmem with rfl | hmem
        · rw [Commit.publishing, Publication.publishing_version hwrite]
          exact hindexed
        · -- What is before a version is a chain whose head names an active one.
          cases earlier with
          | nil => cases hmem
          | cons last older =>
            obtain ⟨before, active, hactive⟩ := hstanding last.plan.head rfl
            exact ih hearlier rfl hactive published hmem
      | destroy hwrite hheaded hactive hnumbered hversions hdestroyed =>
        cases hhead
        rw [hdestroyed] at hdecoded
        cases hdecoded

/-- An active version of an earlier chain was published among the writes. -/
theorem Chain.length_le_versions (h : Chain issued index log) {head : Bytes} {config : IndexConfig}
    {version : IndexVersion} (hhead : Chain.head log = some head) (hdecoded : decodeHead head index =
      .ok (⟨index, config, .active version⟩ : IndexRecord R)) (hinv : world.Inv issued)
    (hlog : log <:+ world.logs index) : log.length ≤ publishedVersions world.writes index := by
  rw [hinv.publishedVersions]
  calc log.length
    _ = (log.filter fun commit => commit.publishing.PublishesVersion index).length := by
      rw [List.filter_eq_self.mpr fun commit hmem =>
        decide_eq_true (h.all_versions hhead hdecoded commit hmem)]
    _ ≤ _ := (hlog.sublist.filter _).length_le

omit [ProvenanceReference P] [RetentionReference R] [SerdeJson] [Sha256] [VectorMath] in
/-- The head that a plan writes is in the state that its record gives. -/
theorem Publishes.head_state {operation : LifecycleOperation M P R} {identity : OperationIdentity}
    {current : Current M P R} {next : Successor M P R}
    (h : Publishes operation identity current next) : next.head.state = next.record.resulting := by
  cases h with
  | version hextends => rfl
  | destroy hchange hactive => rfl

/-- An operation of a chain that leaves a version active gives it the next number. -/
theorem Builds.numbered {publication : Publication M P R}
    (h : Builds issued index (Chain.head earlier) (Chain.payload earlier) publication)
    (htop : Top index earlier) {version : IndexVersion}
    (hresulting : publication.plan.resulting = .active version) :
    version.get = earlier.length + 1 ∧ ∃ config, decodeHead publication.plan.head index =
      .ok (⟨index, config, .active version⟩ : IndexRecord R) := by
  obtain ⟨head, current, validated, -, -, hstanding, hpublishes, hencoded⟩ := h.publishes htop
  obtain ⟨-, -, -, -, -, -, hplanned⟩ := h.recorded htop
  have hhead := (encodePlan_decodes hpublishes hstanding.sound hencoded).head
  rw [h.indexed] at hhead
  have hstate : publication.next.head.state = .active version := by
    rw [hpublishes.head_state, ← hplanned, hresulting]
  cases h.advances htop with
  | version hwrite hnumbered hactive hheaded =>
    have hsame := hhead
    rw [hheaded] at hsame
    have hsame := congrArg IndexRecord.state (Except.ok.inj hsame)
    rw [hstate] at hsame
    cases hsame
    exact ⟨hnumbered, _, hheaded⟩
  | destroy hwrite hheaded hactive hnumbered hversions hdestroyed =>
    rw [hdestroyed] at hhead
    have hsame := congrArg IndexRecord.state (Except.ok.inj hhead)
    rw [hstate] at hsame
    cases hsame

/-- A commit of a chain that leaves a version active names how many operations there were. -/
theorem Chain.numbered (h : Chain issued index log) (hmem : commit ∈ log) {version : IndexVersion}
    (hresulting : commit.plan.resulting = .active version) :
    (∀ {world : World M P R}, world.Inv issued → log <:+ world.logs index →
      version.get ≤ publishedVersions world.writes index) ∧
      ∀ shorter, shorter <:+ log → commit ∉ shorter → shorter.length < version.get := by
  obtain ⟨later, earlier, rfl⟩ := List.append_of_mem hmem
  have hchain : Chain issued index (commit :: earlier) := h.suffix
  cases hchain with
  | commit hearlier hfresh hbuilds hfound =>
    obtain ⟨hnumbered, config, hheaded⟩ := hbuilds.numbered hearlier.top hresulting
    constructor
    · intro world hinv hlog
      rw [hnumbered]
      have hcommit : Chain issued index (commit :: earlier) :=
        .commit hearlier hfresh hbuilds hfound
      exact hcommit.length_le_versions rfl hheaded hinv ((List.suffix_append _ _).trans hlog)
    · intro shorter hshorter hnew
      -- A suffix without the commit is no longer than what was there before it.
      by_contra hlong
      have hsuffix : commit :: earlier <:+ later ++ commit :: earlier := List.suffix_append _ _
      have hcovers := List.suffix_of_suffix_length_le hsuffix hshorter (by
        rw [List.length_cons]
        omega)
      exact hnew (hcovers.mem List.mem_cons_self)

end Chains

/-! ## Beside drivers -/

section Definitions

variable {M P R : Type} [MemberIdentity M] [ProvenanceReference P] [RetentionReference R]
  [SerdeJson] [Unicode] [Sha256] [VectorMath] {σ : Type} [LifecycleBackend σ]

/-- What calls that ran between two states of a backend name of an index: a read names a
version that was the last one at some time between them, or the index was absent at first or
is destroyed at the end, and a receipt names one published by the end, for a new outcome
after all that was published at first. A destroy comes after every version and is none. -/
structure RealTime (issued : LifecycleOperation M P R → Prop) (start : σ)
    (index : IndexIdentity) : Prop where
  grows : ∀ pool later : Drivers σ,
    Relation.ReflTransGen (Pool.Step LifecycleBackend.acts (Runs issued)) pool later →
    published pool.state.2 index ≤ published later.state.2 index
  reads : ∀ (pool last : Drivers σ) calls (found : PublishedIndex M P), Reached issued start pool →
    Pool.Beside LifecycleBackend.acts (Runs issued) (Driver.index R index) pool calls (.ok found)
      last →
    published pool.state.2 index ≤ found.version.get ∧
      found.version.get ≤ publishedVersions last.state.2 index
  missing : ∀ (pool last : Drivers σ) calls, Reached issued start pool →
    Pool.Beside LifecycleBackend.acts (Runs issued) (Driver.index R index) pool calls
      (refuse (.indexNotFound index.display) : Outcome HeuremaError (PublishedIndex M P)) last →
    published pool.state.2 index = 0 ∨ ∃ head config version retention key,
      Shows last.state.1 (.readHead index) (some head) ∧ decodeHead head index =
        .ok (⟨index, config, .destroyed version retention key⟩ : IndexRecord R)
  receipts : ∀ (pool last : Drivers σ) calls (operation : LifecycleOperation M P R)
    (receipt : PublishReceipt R) version, Reached issued start pool → issued operation →
    operation.index = index →
    Pool.Beside LifecycleBackend.acts (Runs issued) (Driver.apply operation) pool calls
      (.ok receipt) last →
    receipt.state = .active version →
    version.get ≤ publishedVersions last.state.2 index ∧
      (receipt.replayed = false → published pool.state.2 index < version.get)

end Definitions

section Beside

variable {M P R : Type} [MemberIdentity M] [ProvenanceReference P] [RetentionReference R]
  [SerdeJson] [Unicode] [Sha256] [VectorMath] {issued : LifecycleOperation M P R → Prop}
  {limit : Option Nat} {index : IndexIdentity} {world : World M P R}
  {pool last : Pool Call.Reply HeuremaError (Store × List Write) Unit}
  {calls : List (Σ call : Call, Except HeuremaError call.Reply)}

/-- Every head that a reader reads is the last of a chain between the first and the last. -/
theorem index_heads (hsound : (drivers issued limit).Sound world pool)
    {outcome : Outcome HeuremaError (PublishedIndex M P)}
    (h : Pool.Beside (Store.acts limit) (Runs issued) (Driver.index R index) pool calls outcome
      last) :
    ∃ final : World M P R, world.Later final ∧ (drivers issued limit).Sound final last ∧
      ∀ head, (⟨.readHead index, .ok head⟩ : Σ call : Call, Except HeuremaError call.Reply) ∈
          calls →
        ∃ log, Chain issued index log ∧ Chain.head log = head ∧ world.logs index <:+ log ∧
          log <:+ final.logs index := by
  have hkeeps : (drivers issued limit).Keeps (fun _ _ => True) world
      (Driver.index R index : Driver (PublishedIndex M P)) := keeps_reads (Driver.index_reads index)
  obtain ⟨final, hlater, hfinal, -, hanswers⟩ :=
    hsound.beside_answers (fun _ hprogram _ _ => runs_keep hprogram) hkeeps h
  refine ⟨final, hlater, hfinal, ?_⟩
  intro head hmem
  obtain ⟨between, hbefore, hafter, hinv, after, hacts⟩ := hanswers _ hmem
  obtain ⟨hreplies, -⟩ := hacts
  have hhead : head = between.store.heads index := Except.ok.inj hreplies
  have hreflects := hinv.reflects index
  exact ⟨_, hreflects.chain, hreflects.head.symm.trans hhead.symm, hbefore index, hafter index⟩

/-- A reader returns a version that was the last one while it read. -/
theorem index_version (hdistinguishes : Distinguishes issued)
    (hsound : (drivers issued limit).Sound world pool) {found : PublishedIndex M P}
    (h : Pool.Beside (Store.acts limit) (Runs issued) (Driver.index R index) pool calls (.ok found)
      last) :
    published world.writes index ≤ found.version.get ∧
      found.version.get ≤ publishedVersions last.state.2 index := by
  obtain ⟨_, _, _, hisolated⟩ := index_beside hdistinguishes hsound h
  obtain ⟨final, -, hfinal, hheads⟩ := index_heads hsound h
  have hwrites : final.writes = last.state.2 := congrArg Prod.snd hfinal.view
  cases hisolated with
  | @published head rest config publication payload hfirst hdecoded hmem hbuilt =>
    obtain ⟨log, hchain, hhead, hbefore, hafter⟩ := hheads (some head) (by
      rw [hfirst]
      exact List.mem_cons_self)
    have hnumbered : payload.version.get = log.length :=
      hchain.active_numbered hhead hdecoded rfl
    rw [← hwrites, hsound.inv.published]
    show _ ≤ payload.version.get ∧ payload.version.get ≤ _
    rw [hnumbered]
    exact ⟨hbefore.length_le, hchain.length_le_versions hhead hdecoded hfinal.inv hafter⟩

/-- A reader that finds no index began when there was none, or ends when it is destroyed. -/
theorem index_missing (hdistinguishes : Distinguishes issued)
    (hsound : (drivers issued limit).Sound world pool)
    (h : Pool.Beside (Store.acts limit) (Runs issued) (Driver.index R index) pool calls
      (refuse (.indexNotFound index.display) : Outcome HeuremaError (PublishedIndex M P)) last) :
    published world.writes index = 0 ∨ ∃ head config version retention key,
      last.state.1.heads index = some head ∧ decodeHead head index =
        .ok (⟨index, config, .destroyed version retention key⟩ : IndexRecord R) := by
  obtain ⟨_, _, _, hisolated⟩ := index_beside hdistinguishes hsound h
  obtain ⟨final, -, hfinal, hheads⟩ := index_heads hsound h
  generalize houtcome : (refuse (.indexNotFound index.display) :
    Outcome HeuremaError (PublishedIndex M P)) = outcome at hisolated
  cases hisolated with
  | published => cases houtcome
  | absent hread =>
    obtain ⟨log, -, hhead, hbefore, -⟩ := hheads none hread
    have hempty : log = [] := by
      cases log with
      | nil => rfl
      | cons commit earlier => cases hhead
    rw [hempty] at hbefore
    rw [hsound.inv.published, List.suffix_nil.mp hbefore]
    exact .inl rfl
  | @destroyed head config version retention key hread hdecoded =>
    obtain ⟨log, hchain, hhead, -, later, hlog⟩ := hheads (some head) hread
    have hstore : final.store = last.state.1 := congrArg Prod.fst hfinal.view
    have hreflects := hfinal.inv.reflects index
    have hwhole := hreflects.chain
    rw [← hlog] at hwhole
    obtain rfl := hwhole.destroyed_whole hhead hdecoded
    refine .inr ⟨head, config, version, retention, key, ?_, hdecoded⟩
    rw [← hstore, hreflects.head, ← hlog]
    exact hhead

/-- A receipt is that of a commit of the last world. -/
theorem apply_receives (hsound : (drivers issued limit).Sound world pool)
    {operation : LifecycleOperation M P R} (hissued : issued operation)
    {receipt : PublishReceipt R}
    (h : Pool.Beside (Store.acts limit) (Runs issued) (Driver.apply operation) pool calls
      (.ok receipt) last) :
    ∃ final : World M P R, world.Later final ∧ (drivers issued limit).Sound final last ∧
      final.Receives receipt := by
  obtain ⟨final, hlater, hfinal, hreturns⟩ :=
    hsound.beside (fun _ hprogram _ _ => runs_keep hprogram) (apply_keeps hissued) h
  exact ⟨final, hlater, hfinal, hreturns receipt rfl⟩

end Beside

/-! ## What is new -/

section New

variable {M P R : Type} [MemberIdentity M] [ProvenanceReference P] [RetentionReference R]
  [SerdeJson] [Unicode] [Sha256]

omit [MemberIdentity M] [ProvenanceReference P] [RetentionReference R] [SerdeJson] [Unicode]
  [Sha256] in
/-- A prepared operation records itself under its key. -/
theorem Prepared.records (prepared : Prepared R) :
    prepared.staged.publishing ∈ prepared.writes ∧
      prepared.staged.publishing.Records prepared.plan.index prepared.plan.operation.key := by
  obtain ⟨plan, write⟩ := prepared
  cases write with
  | version expectedHead version marker payload =>
    exact ⟨List.mem_cons_of_mem _ List.mem_cons_self, rfl⟩
  | destroy expectedHead versions => exact ⟨List.mem_cons_self, rfl⟩

variable [VectorMath] {issued : LifecycleOperation M P R → Prop} {index : IndexIdentity}
  {world final : World M P R} {commit : Commit M P R}

/-- An operation whose write is among those that were added is of no earlier chain. -/
theorem World.Inv.added (h : world.Inv issued) (hfinal : final.Inv issued) {added : List Write}
    (hadded : final.writes = world.writes ++ added) {write : Write} (hmem : write ∈ added)
    (hrecords : write.Records index commit.checked.operation.key) :
    commit ∉ world.logs index := by
  intro hcommit
  have hearlier : commit.publishing ∈ world.writes := by
    refine (List.mem_filter.mp (?_ : _ ∈ world.writes.filter (·.Publishes index))).1
    rw [h.recorded]
    exact List.mem_map_of_mem (List.mem_reverse.mpr hcommit)
  have hrecorded : commit.publishing.Records index commit.checked.operation.key := by
    rw [Write.Records, (h.reflects index).chain.recorded hcommit]
    rfl
  -- Two writes would be recorded under one key.
  have honce := hfinal.once index commit.checked.operation.key
  rw [hadded, List.filter_append, List.length_append] at honce
  have hfirst : commit.publishing ∈
      world.writes.filter (·.Records index commit.checked.operation.key) :=
    List.mem_filter.mpr ⟨hearlier, decide_eq_true hrecorded⟩
  have hsecond : write ∈ added.filter (·.Records index commit.checked.operation.key) :=
    List.mem_filter.mpr ⟨hmem, decide_eq_true hrecords⟩
  have hpositive := List.length_pos_of_mem hfirst
  have hpositive' := List.length_pos_of_mem hsecond
  omega

end New

/-! ## On the adapters -/

section Adapters

variable {M P R : Type} [MemberIdentity M] [ProvenanceReference P] [RetentionReference R]
  [SerdeJson] [Unicode] [Sha256] [VectorMath] {σ : Type} [LifecycleBackend σ]
  {issued : LifecycleOperation M P R → Prop} {limit : Option Nat}
  {Represents : σ → Store → Prop}

omit [MemberIdentity M] [ProvenanceReference P] [RetentionReference R] [SerdeJson] [Unicode]
  [Sha256] [VectorMath] in
/-- The writes that took effect only become more, whatever steps are made. -/
theorem steps_writes {starts : Driver Unit → Prop} {pool later : Drivers σ}
    (h : Relation.ReflTransGen (Pool.Step LifecycleBackend.acts starts) pool later) :
    pool.state.2 <+: later.state.2 := by
  induction h with
  | refl => exact List.prefix_refl _
  | tail _ hstep ih => exact ih.trans (step_writes hstep)

theorem Adapter.realTime (adapter : Adapter σ limit Represents) {start : σ}
    (hstart : Represents start .empty) (hdistinguishes : Distinguishes issued)
    (index : IndexIdentity) : RealTime issued start index where
  grows pool later hsteps := published_prefix (steps_writes hsteps) index
  reads pool last calls found hreached hbeside := by
    obtain ⟨world, hrepresents, hwrites, hsound⟩ := adapter.reached hstart hreached
    have hcontents : Contents Represents pool.state (world.store, world.writes) :=
      ⟨hrepresents, hwrites⟩
    obtain ⟨contents, hstore, -, hlast⟩ := hbeside.simulates adapter.simulates hcontents
    rw [hwrites, hlast]
    exact index_version hdistinguishes hsound hstore
  missing pool last calls hreached hbeside := by
    obtain ⟨world, hrepresents, hwrites, hsound⟩ := adapter.reached hstart hreached
    have hcontents : Contents Represents pool.state (world.store, world.writes) :=
      ⟨hrepresents, hwrites⟩
    obtain ⟨contents, hstore, hlast⟩ := hbeside.simulates adapter.simulates hcontents
    rw [hwrites]
    rcases index_missing hdistinguishes hsound hstore with habsent | hdestroyed
    · exact .inl habsent
    · obtain ⟨head, config, version, retention, key, hhead, hdecoded⟩ := hdestroyed
      have hshown := adapter.shows_head hlast.1 index
      rw [show contents.1.heads index = some head from hhead] at hshown
      exact .inr ⟨head, config, version, retention, key, hshown, hdecoded⟩
  receipts pool last calls operation receipt version hreached hissued hindex hbeside hstate := by
    obtain ⟨world, hrepresents, hwrites, hsound⟩ := adapter.reached hstart hreached
    have hcontents : Contents Represents pool.state (world.store, world.writes) :=
      ⟨hrepresents, hwrites⟩
    obtain ⟨contents, hstore, hlast⟩ := hbeside.simulates adapter.simulates hcontents
    obtain ⟨final, hlater, hfinal, commit, hmem, hreceipt⟩ := apply_receives hsound hissued hstore
    obtain rfl : (final.store, final.writes) = contents := hfinal.view
    have hfinals : last.state.2 = final.writes := hlast.2
    obtain ⟨earlier, htop, hbuilds⟩ := (hfinal.inv.reflects receipt.index).chain.builds hmem
    obtain ⟨-, -, -, hplan, hoperation, -, -⟩ := hbuilds.recorded htop
    have hkey : commit.plan.operation.key = commit.checked.operation.key :=
      (congrArg OperationIdentity.key hoperation).trans commit.checked.key
    have hresulting : commit.plan.resulting = .active version := by
      rw [hreceipt] at hstate
      exact hstate
    have haccounted := apply_taken hbeside
    obtain ⟨added, hadded, htaken⟩ := taken_beside hbeside
    have hindexed : receipt.index = index := by
      generalize taken calls = wrote at haccounted
      cases haccounted with
      | replayed hrecalled => exact hrecalled.index.trans hindex
      | published hplanned => exact hplanned.index.trans hindex
    rw [hindexed] at hmem hplan htop hbuilds
    have hchain := (hfinal.inv.reflects index).chain
    obtain ⟨hlast', hnew⟩ := hchain.numbered hmem hresulting
    rw [hfinals, hwrites, hsound.inv.published]
    refine ⟨hlast' hfinal.inv (List.suffix_refl _), fun hmarked => hnew _ (hlater index) ?_⟩
    rw [hwrites, hfinals] at hadded
    generalize taken calls = wrote at haccounted htaken
    cases haccounted with
    | replayed hrecalled =>
      rw [hrecalled.marked] at hmarked
      cases hmarked
    | @published prepared hplanned =>
      obtain ⟨hwritten, hrecords⟩ := prepared.records
      have hoperations : prepared.plan.operation = commit.plan.operation :=
        congrArg PublishReceipt.operation hreceipt
      have hindexes : prepared.plan.index = index := hindexed
      rw [hoperations, hkey, hindexes] at hrecords
      exact hsound.inv.added hfinal.inv hadded (htaken.subset hwritten) hrecords

/-- On both adapters, whatever drivers run, what readers and receipts name follows real time. -/
theorem versions_follow_time (hdistinguishes : Distinguishes issued) (index : IndexIdentity) :
    RealTime issued Atmis.LifecycleState.empty index ∧
      ∀ limit, RealTime issued (Thesauros.ThesaurosBackend.empty limit) index :=
  ⟨Atmis.adapter.realTime .empty hdistinguishes index,
    fun limit => (Thesauros.adapter limit).realTime (.empty limit) hdistinguishes index⟩

end Adapters

section Witness

attribute [local instance] Consumer.identity Consumer.reference SerdeJson.compact Unicode.ascii
  Consumer.sha256 Line.math

/-- Drivers of the consumer's operations. -/
theorem versions_follow_time_consumer : RealTime (· ∈ Consumer.operations)
    Atmis.LifecycleState.empty Consumer.index :=
  (versions_follow_time Consumer.distinguishes Consumer.index).1

end Witness

end Heurema
