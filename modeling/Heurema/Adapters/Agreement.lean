import Heurema.Adapters.Atmis
import Heurema.Adapters.Thesauros
import Heurema.Lifecycle.Consumer
import Heurema.Lifecycle.Trace

/-! # The adapters agree

Both adapters keep one contract, so any sequence of calls whose values fit the durable one
is answered alike by both. -/

namespace Heurema

open LifecycleBackend (trace)

/-- A call whose values and announced lengths are within a limit. -/
def Call.Fits (limit : Nat) : Call → Prop
  | .write update => ∀ size ∈ update.sizes, size.2 ≤ limit
  | _ => True

/-- A limit that a call fits makes no difference to it. -/
theorem Store.perform_fits (store : Store) {limit : Nat} {write : Write}
    (hfits : (Call.write write).Fits limit) :
    store.perform (some limit) write = store.perform none write := by
  have hsizes : refuseOversized (some limit) write.sizes = .ok () :=
    refuseOversized_eq_ok.mpr hfits
  simp only [perform, admits, hsizes, refuseOversized_none]

theorem Store.after_fits (store : Store) {limit : Nat} {call : Call} (hfits : call.Fits limit) :
    store.after (some limit) call = store.after none call := by
  cases call with
  | write write => exact congrArg Prod.snd (store.perform_fits hfits)
  | _ => rfl

theorem Store.Replies.unbounded {store : Store} {limit : Nat} {call : Call}
    {answer : Except HeuremaError call.Reply} (hfits : call.Fits limit)
    (h : store.Replies (some limit) call answer) : store.Replies none call answer := by
  cases call with
  | write write => exact h.trans (congrArg Prod.fst (store.perform_fits hfits))
  | _ => exact h

/-- Adapters over the same contents answer calls that fit alike. -/
theorem Adapter.agree {σ τ : Type} [LifecycleBackend σ] [LifecycleBackend τ] {limit : Nat}
    {R : σ → Store → Prop} {R' : τ → Store → Prop} (adapter : Adapter σ none R)
    (bounded : Adapter τ (some limit) R') {state : σ} {state' : τ} {store : Store}
    (h : R state store) (h' : R' state' store) {calls : List Call}
    (hfits : ∀ call ∈ calls, call.Fits limit) :
    (trace state calls).map CallStep.observed = (trace state' calls).map CallStep.observed := by
  induction calls generalizing state state' store with
  | nil => rfl
  | cons call calls ih =>
    obtain ⟨hcall, hcalls⟩ := List.forall_mem_cons.mp hfits
    obtain ⟨answer, next, hrun, hanswer, hnext, _⟩ := adapter.replies h call
    obtain ⟨answer', next', hrun', hanswer', hnext', _⟩ := bounded.replies h' call
    obtain rfl := hanswer.unique (hanswer'.unbounded hcall)
    rw [store.after_fits hcall] at hnext'
    have hrest := ih hnext hnext' hcalls
    rw [trace, trace, hrun, hrun', List.map_cons, List.map_cons, hrest]
    rfl

/-- From empty adapters, every sequence of calls that fit is answered alike, and a refused
call changes neither. -/
theorem adapters_agree [Unicode] (limit : Nat) (calls : List Call)
    (hfits : ∀ call ∈ calls, call.Fits limit) :
    (trace Atmis.LifecycleState.empty calls).map CallStep.observed =
      (trace (Thesauros.ThesaurosBackend.empty limit) calls).map CallStep.observed ∧
    (∀ step ∈ trace Atmis.LifecycleState.empty calls, step.RefusesWhole) ∧
    ∀ step ∈ trace (Thesauros.ThesaurosBackend.empty limit) calls, step.RefusesWhole := by
  have hatmis : Atmis.Represents .empty .empty := .empty
  have hthesauros := Thesauros.Represents.empty limit
  exact ⟨Atmis.adapter.agree (Thesauros.adapter limit) hatmis hthesauros hfits,
    Atmis.adapter.refuses_whole hatmis calls,
    (Thesauros.adapter limit).refuses_whole hthesauros calls⟩

section Sample

attribute [local instance] Unicode.ascii

/-- The stage of a first version, and its marker read back. -/
def Consumer.stageCalls : List Call :=
  [.write (.stage ⟨Consumer.index, .FIRST, Consumer.key, none, [1], [2], 3, 4⟩),
    .readStaging Consumer.index, .listStaged]

theorem adapters_agree_stage :
    (trace Atmis.LifecycleState.empty Consumer.stageCalls).map CallStep.observed =
      (trace (Thesauros.ThesaurosBackend.empty 4) Consumer.stageCalls).map CallStep.observed ∧
    (∀ step ∈ trace Atmis.LifecycleState.empty Consumer.stageCalls, step.RefusesWhole) ∧
    ∀ step ∈ trace (Thesauros.ThesaurosBackend.empty 4) Consumer.stageCalls,
      step.RefusesWhole := by
  refine adapters_agree 4 Consumer.stageCalls fun call hcall => ?_
  simp only [Consumer.stageCalls, List.mem_cons, List.not_mem_nil, or_false] at hcall
  rcases hcall with rfl | rfl | rfl
  · simp [Call.Fits, Write.sizes]
  · trivial
  · trivial

end Sample

end Heurema
