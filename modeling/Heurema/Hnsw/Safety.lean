import Heurema.Hnsw.Query

/-! # No operation panics

Every unchecked index of the engine panics when it is out of range. None is, in
any sequence of calls from a state the snapshot decoder accepts. -/

namespace Heurema.Hnsw

variable {Id : Type} [LinearOrder Id] [VectorMath] {index : HnswIndex Id}

/-- One call on an index. -/
inductive Call (Id : Type) where
  | insert (id : Id) (vector : List F32)
  | remove (id : Id)
  | query (vector : List F32) (k : Nat)

/-- The index after a call that returns or refuses, or how the call panicked. -/
def HnswIndex.call (index : HnswIndex Id) : Call Id → Except String (HnswIndex Id)
  | .insert id vector => index.mutate (.insert id vector)
  | .remove id => index.mutate (.remove id)
  | .query vector k =>
    match index.query vector k with
    | .error (.panicked reason) => .error reason
    | .ok _ | .error (.refused _) => .ok index

theorem query_call (h : Inv index) (vector : List F32) (k : Nat) :
    index.call (.query vector k) = .ok index := by
  unfold HnswIndex.call
  cases hcheck : checkVector index.config vector with
  | error e =>
    have hrefused : index.query vector k = Outcome.refuse e := by
      rw [HnswIndex.query, hcheck, Outcome.ofResult_error, Outcome.refuse_bind]
    simp [hrefused, Outcome.refuse]
  | ok =>
    obtain ⟨found, -, -, hquery⟩ := query_found h hcheck k
    cases hscores : (candidates index vector found).mapM HnswIndex.score with
    | error e => simp [hquery, hscores, Outcome.refuse]
    | ok scores => simp [hquery, hscores]

/-- One call of an index with the invariant returns or refuses, and keeps it. -/
theorem call_spec (h : Inv index) (call : Call Id) :
    ∃ index', index.call call = .ok index' ∧ Inv index' := by
  cases call with
  | insert id vector =>
    obtain ⟨index', hstep, hinv, -⟩ := mutate_spec h (.insert id vector)
    exact ⟨index', hstep, hinv⟩
  | remove id =>
    obtain ⟨index', hstep, hinv, -⟩ := mutate_spec h (.remove id)
    exact ⟨index', hstep, hinv⟩
  | query vector k => exact ⟨index, query_call h vector k, h⟩

theorem calls_spec (h : Inv index) (calls : List (Call Id)) :
    ∃ index', calls.foldlM HnswIndex.call index = .ok index' ∧ Inv index' := by
  induction calls generalizing index with
  | nil => exact ⟨index, rfl, h⟩
  | cons call calls ih =>
    obtain ⟨next, hnext, hinv⟩ := call_spec h call
    obtain ⟨index', hrest, hinv'⟩ := ih hinv
    exact ⟨index', by rw [List.foldlM_cons, hnext]; exact hrest, hinv'⟩

/-- No call panics, in any sequence of them from a state the decoder accepts. -/
theorem no_panic {raw : RawHnswIndex Id} (h : HnswIndex.tryFrom raw = .ok index)
    (calls : List (Call Id)) : ∃ index', calls.foldlM HnswIndex.call index = .ok index' := by
  obtain ⟨index', hcalls, -⟩ := calls_spec (tryFrom_eq_ok.mp h).2 calls
  exact ⟨index', hcalls⟩

/-- A replacement of the entry point between queries. -/
def Line.calls : List (Call Nat) :=
  [.query [⟨0x3f800000#32⟩] 2, .insert 0 [⟨0x3f800000#32⟩], .query [⟨0x00000000#32⟩] 3, .remove 1]

omit [VectorMath] in
theorem no_panic_line : ∃ (index : HnswIndex Nat) (index' : HnswIndex Nat), index.len = 3 ∧
    Line.calls.foldlM (@HnswIndex.call Nat _ Line.math) index = .ok index' := by
  obtain ⟨index, hreach, -, hlen⟩ := Line.exists_reachable
  have hdecoded : HnswIndex.tryFrom index.toRaw = .ok index :=
    tryFrom_eq_ok.mpr ⟨rfl, @Reachable.inv Nat _ Line.math index hreach⟩
  obtain ⟨index', hcalls⟩ := @no_panic Nat _ Line.math index index.toRaw hdecoded Line.calls
  exact ⟨index, index', hlen, hcalls⟩

end Heurema.Hnsw
