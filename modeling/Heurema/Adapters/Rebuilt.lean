import Heurema.Adapters.Agreement
import Heurema.Adapters.Custody
import Heurema.Data.Slice
import Heurema.Lifecycle.Drivers

/-! # The log rebuilds the state

The writes that took effect are all there is to know of a backend: made anew on an empty backend,
of the same kind or the other, each is taken, and what they leave answers every further call as
the first backend does. -/

namespace Heurema

open Serde Hnsw Digest

open LifecycleBackend (acceptedWrites perform runAll trace)

/-- A call that no limit keeps out. -/
def Call.FitsIn (limit : Option Nat) (call : Call) : Prop :=
  ∀ bound ∈ limit, call.Fits bound

/-- A write that no limit keeps out. -/
def Write.FitsIn (limit : Option Nat) (write : Write) : Prop :=
  (Call.write write).FitsIn limit

/-- Made anew from the start of a backend, the writes of a log are all taken, and what they leave
answers further calls, none too large for either, as a state does. -/
structure Rebuilt {σ τ : Type} [LifecycleBackend σ] [LifecycleBackend τ] (limit limit' : Option Nat)
    (state : σ) (writes : List Write) (start : τ) : Prop where
  taken : acceptedWrites start (writes.map Call.write) = writes
  alike : ∀ calls : List Call, (∀ call ∈ calls, call.FitsIn limit ∧ call.FitsIn limit') →
    (trace state calls).map CallStep.observed =
      (trace (runAll start (writes.map Call.write)) calls).map CallStep.observed

section Fitting

variable {limit : Option Nat} {store : Store} {write : Write}

theorem refuseOversized_fits : refuseOversized limit write.sizes = .ok () ↔ write.FitsIn limit := by
  cases limit with
  | none => simp [Write.FitsIn, Call.FitsIn, refuseOversized_none]
  | some bound =>
    rw [refuseOversized_eq_ok]
    simp [Write.FitsIn, Call.FitsIn, Call.Fits]

/-- A limit that a call fits makes no difference to what it is answered and what it leaves. -/
theorem Store.Replies.fitted {call : Call} {answer : Except HeuremaError call.Reply}
    (hfits : call.FitsIn limit) (h : store.Replies limit call answer) :
    store.Replies none call answer := by
  cases limit with
  | none => exact h
  | some bound => exact h.unbounded (hfits bound rfl)

theorem Store.after_fitted {call : Call} (hfits : call.FitsIn limit) :
    store.after limit call = store.after none call := by
  cases limit with
  | none => rfl
  | some bound => exact store.after_fits (hfits bound rfl)

/-- A write that took effect fits the limit. -/
theorem acts_fit (call : Call) (before : Store × List Write) (answer : Except HeuremaError call.Reply)
    (after : Store × List Write) (h : Store.acts limit call before answer after)
    (hfit : ∀ write ∈ before.2, write.FitsIn limit) : ∀ write ∈ after.2, write.FitsIn limit := by
  obtain ⟨hreplies, rfl⟩ := h
  intro write hmem
  rcases List.mem_append.mp hmem with hearlier | htook
  · exact hfit write hearlier
  · cases call with
    | write asked =>
      have hanswer : answer = (before.1.perform limit asked).1 := hreplies
      cases answer with
      | error refusal => cases htook
      | ok _ =>
        obtain rfl := List.mem_singleton.mp htook
        unfold Store.perform at hanswer
        cases hadmits : before.1.admits limit write with
        | error refusal =>
          rw [hadmits] at hanswer
          cases hanswer
        | ok _ => exact refuseOversized_fits.mp (Outcome.then_eq_ok.mp hadmits).1
    | _ => cases htook

end Fitting

section Adapters

variable {σ τ : Type} [LifecycleBackend σ] [LifecycleBackend τ] {limit limit' : Option Nat}
  {R : σ → Store → Prop} {R' : τ → Store → Prop}

/-- Adapters over the same contents answer calls that fit both alike. -/
theorem Adapter.alike (adapter : Adapter σ limit R) (other : Adapter τ limit' R') {state : σ}
    {state' : τ} {store : Store} (h : R state store) (h' : R' state' store) {calls : List Call}
    (hfits : ∀ call ∈ calls, call.FitsIn limit ∧ call.FitsIn limit') :
    (trace state calls).map CallStep.observed = (trace state' calls).map CallStep.observed := by
  induction calls generalizing state state' store with
  | nil => rfl
  | cons call calls ih =>
    obtain ⟨⟨hcall, hcall'⟩, hcalls⟩ := List.forall_mem_cons.mp hfits
    obtain ⟨answer, next, hrun, hanswer, hnext, -⟩ := adapter.replies h call
    obtain ⟨answer', next', hrun', hanswer', hnext', -⟩ := other.replies h' call
    obtain rfl := (hanswer.fitted hcall).unique (hanswer'.fitted hcall')
    rw [store.after_fitted hcall] at hnext
    rw [store.after_fitted hcall'] at hnext'
    have hrest := ih hnext hnext' hcalls
    rw [trace, trace, hrun, hrun', List.map_cons, List.map_cons, hrest]
    rfl

theorem LifecycleBackend.trace_append (state : σ) (calls later : List Call) :
    trace state (calls ++ later) = trace state calls ++ trace (runAll state calls) later := by
  induction calls generalizing state with
  | nil => rfl
  | cons call calls ih => exact congrArg (_ :: ·) (ih _)

/-- Writes that were let through one after the other are all taken anew. -/
theorem Adapter.rebuilds_store (adapter : Adapter σ limit R) {start : σ} (hstart : R start .empty)
    {writes : List Write} {store : Store} (h : Store.Run writes store)
    (hfits : ∀ write ∈ writes, write.FitsIn limit) :
    acceptedWrites start (writes.map Call.write) = writes ∧
      R (runAll start (writes.map Call.write)) store := by
  induction h with
  | empty => exact ⟨rfl, hstart⟩
  | @commit writes store write h hcheck ih =>
    obtain ⟨htaken, hrepresents⟩ := ih fun earlier hmem => hfits earlier (List.mem_append_left _ hmem)
    have hfit := hfits write (List.mem_append_right _ List.mem_cons_self)
    have hadmits : store.admits limit write = .ok () :=
      Outcome.then_eq_ok.mpr ⟨refuseOversized_fits.mpr hfit, hcheck⟩
    obtain ⟨next, hrun, hnext⟩ := adapter.admitted hrepresents hadmits
    have hperform : (perform (.write write)).run (runAll start (writes.map Call.write)) =
        (.ok (), next) := hrun
    rw [List.map_append]
    constructor
    · rw [acceptedWrites] at htaken ⊢
      rw [LifecycleBackend.trace_append, List.filterMap_append, htaken, List.map_singleton, trace, hperform]
      rfl
    · rw [LifecycleBackend.runAll_append, List.map_singleton, runAll, hperform]
      exact hnext

end Adapters

section Drivers

variable {M P S : Type} [MemberIdentity M] [ProvenanceReference P] [RetentionReference S]
  [SerdeJson] [Unicode] [Sha256] [VectorMath] {σ τ : Type} [LifecycleBackend σ]
  [LifecycleBackend τ] {limit limit' : Option Nat} {R : σ → Store → Prop} {R' : τ → Store → Prop}
  {issued : LifecycleOperation M P S → Prop}

/-- Whatever drivers leave of a backend, its log rebuilds on another where its writes fit. -/
def LogRebuilds (issued : LifecycleOperation M P S → Prop) (limit limit' : Option Nat) (start : σ)
    (start' : τ) : Prop :=
  ∀ pool, Reached issued start pool → (∀ write ∈ pool.state.2, write.FitsIn limit') →
    Rebuilt limit limit' pool.state.1 pool.state.2 start'

theorem Adapter.logRebuilds (adapter : Adapter σ limit R) (other : Adapter τ limit' R') {start : σ}
    {start' : τ} (hstart : R start .empty) (hstart' : R' start' .empty) :
    LogRebuilds issued limit limit' start start' := by
  intro pool hreached hfits
  obtain ⟨world, hrepresents, hwrites, hsound⟩ := adapter.reached hstart hreached
  rw [hwrites] at hfits ⊢
  obtain ⟨htaken, hrebuilt⟩ := other.rebuilds_store hstart' hsound.inv.run hfits
  exact ⟨htaken, fun calls => adapter.alike other hrepresents hrebuilt⟩

/-- The writes of a log fit the limit of the backend that took them. -/
theorem Adapter.log_fits (adapter : Adapter σ limit R) {start : σ} (hstart : R start .empty)
    {pool : Drivers σ} (h : Reached issued start pool) :
    ∀ write ∈ pool.state.2, write.FitsIn limit := by
  have hcontents : Contents R (start, []) (Store.empty, []) := ⟨hstart, rfl⟩
  obtain ⟨contents, hreachable, hreached⟩ :=
    Pool.Reachable.simulates adapter.simulates hcontents h
  rw [show pool.state.2 = contents.2 from hreached.2]
  exact hreachable.keeps (I := fun state => ∀ write ∈ state.2, write.FitsIn limit)
    (fun write hmem => by cases hmem) acts_fit

/-- The log of either adapter rebuilds its state on either wherever its writes fit: always on one
with no limit, and on one with a limit that is no lower. -/
theorem logs_rebuild (issued : LifecycleOperation M P S → Prop) :
    LogRebuilds issued none none Atmis.LifecycleState.empty Atmis.LifecycleState.empty ∧
    ∀ limit limit', LogRebuilds issued none (some limit) Atmis.LifecycleState.empty
        (Thesauros.ThesaurosBackend.empty limit) ∧
      LogRebuilds issued (some limit) (some limit') (Thesauros.ThesaurosBackend.empty limit)
        (Thesauros.ThesaurosBackend.empty limit') ∧
      ∀ pool, Reached issued (Thesauros.ThesaurosBackend.empty limit) pool →
        Rebuilt (some limit) none pool.state.1 pool.state.2 Atmis.LifecycleState.empty ∧
        (limit ≤ limit' → Rebuilt (some limit) (some limit') pool.state.1 pool.state.2
          (Thesauros.ThesaurosBackend.empty limit')) := by
  refine ⟨Atmis.adapter.logRebuilds Atmis.adapter .empty .empty, fun limit limit' => ?_⟩
  have hbounded : LogRebuilds issued (some limit) (some limit')
      (Thesauros.ThesaurosBackend.empty limit) (Thesauros.ThesaurosBackend.empty limit') :=
    (Thesauros.adapter limit).logRebuilds (Thesauros.adapter limit') (.empty limit) (.empty limit')
  refine ⟨?_, hbounded, ?_⟩
  · exact Atmis.adapter.logRebuilds (Thesauros.adapter limit) .empty (.empty limit)
  · intro pool hreached
    have hfits := (Thesauros.adapter limit).log_fits (.empty limit) hreached
    constructor
    · refine (Thesauros.adapter limit).logRebuilds Atmis.adapter (.empty limit) .empty pool hreached ?_
      intro write hmem bound hbound
      cases hbound
    · intro hle
      refine hbounded pool hreached ?_
      intro write hmem bound hbound size hsize
      cases hbound
      exact (hfits write hmem limit rfl size hsize).trans hle

end Drivers

end Heurema
