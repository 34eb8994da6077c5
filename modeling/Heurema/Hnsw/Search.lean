import Heurema.Hnsw.Backbone

/-! # The searches

A layer is `Closed` when no step along it leaves the nodes that reach it. On a
closed layer the greedy search and the beam search return, and a beam search
that keeps all it expands stops for one of two reasons: its budget is spent, or
what it found is closed under the steps of the layer. -/

namespace Heurema.Hnsw

open Outcome (Ensures)

variable {Id : Type} [LinearOrder Id] {nodes : Nodes Id} {l budget : Nat} {x y : Id}
  {config : HnswConfig} {vector : List F32}

/-- One step of a search at layer `l`. -/
def Onward (nodes : Nodes Id) (l : Nat) (x y : Id) : Prop :=
  ∃ node links, nodes[x]? = some node ∧ node.neighbours[l]? = some links ∧ y ∈ onward l node links

theorem mem_onward {node : Node Id} {links : BTreeSet Id} :
    y ∈ onward l node links ↔ y ∈ links ∨ (l = 0 ∧ y ∈ node.backbone) := by
  unfold onward
  by_cases hl : l = 0 <;> simp [hl]

/-- Every step along the layer ends at a node that reaches it. -/
def Closed (nodes : Nodes Id) (l : Nat) : Prop := ∀ {x y : Id}, Onward nodes l x y → Reaches nodes l y

theorem closed_of_inv (hshape : ∀ {x : Id} {node : Node Id}, nodes[x]? = some node → WellShaped config node)
    (hsymm : LayerSymm nodes l) (hbones : ∀ {x y : Id}, Cycle.Edge (backbones nodes) x y → y ∈ nodes) :
    Closed nodes l := by
  rintro x y ⟨node, links, hnode, hlinks, hy⟩
  rcases mem_onward.mp hy with hlink | ⟨rfl, hbone⟩
  · refine hsymm.reaches (x := x) ⟨links, ?_, hlink⟩
    rw [layer, hnode, Option.bind_some, hlinks]
  · have hmem : y ∈ nodes := hbones (x := x) ⟨node.backbone, by simp [backbones, hnode], hbone⟩
    obtain ⟨other, hother⟩ := mem_nodes.mp hmem
    exact ((hshape hother).reaches hother).mpr (Nat.zero_le _)

/-- What a node that reaches the layer holds there. -/
theorem Reaches.links (h : Reaches nodes l x) : ∃ node links, nodes[x]? = some node ∧
    node.neighbours[l]? = some links ∧
    (Outcome.index node.neighbours l : Run (BTreeSet Id)) = .ok links := by
  unfold Reaches layer at h
  cases hx : nodes[x]? with
  | none => simp [hx] at h
  | some node =>
    obtain ⟨links, hlinks⟩ := Option.isSome_iff_exists.mp h
    rw [hx, Option.bind_some] at hlinks
    exact ⟨node, links, rfl, hlinks, Outcome.index_eq_ok_iff.mpr hlinks⟩

theorem unvisited_eq (h : Reaches nodes l x) (visited : BTreeSet Id) :
    ∃ found, unvisited nodes l visited x = .ok found ∧
      ∀ y, y ∈ found ↔ Onward nodes l x y ∧ y ∉ visited := by
  obtain ⟨node, links, hnode, hlinks, hindex⟩ := h.links
  refine ⟨(onward l node links).filter (· ∉ visited), ?_, fun y => ?_⟩
  · simp only [unvisited, hnode, hindex, Outcome.ok_bind, Outcome.pure_eq]
  · simp [Onward, hnode, hlinks]

section Greedy

variable [VectorMath]

/-- What holds of a candidate and of every neighbour closer than one holds of the closest. -/
theorem closer_keeps {P : Id → Prop} {xs : List Id} (hx : P x)
    (hcloser : ∀ y ∈ xs, ∀ next, P next → compareIdsByDistance config nodes vector y next = .lt →
      P y) : P (xs.foldl (closer config nodes vector) x) := by
  induction xs generalizing x with
  | nil => exact hx
  | cons y ys ih =>
    rw [List.foldl_cons]
    refine ih ?_ fun z hz => hcloser z (List.mem_cons_of_mem _ hz)
    unfold closer
    split
    · next hlt => exact hcloser y List.mem_cons_self x hx hlt
    · exact hx

/-- The greedy search does not leave the layer it runs on, nor what its closer nodes keep. -/
theorem greedyAtLevel_keeps {P : Id → Prop} (hclosed : Closed nodes l) (hx : Reaches nodes l x)
    (hstart : P x) (hcloser : ∀ {y next}, Reaches nodes l y → P next →
      compareIdsByDistance config nodes vector y next = .lt → P y) (budget : Nat) :
    Ensures (greedyAtLevel config nodes vector x l budget) fun y => Reaches nodes l y ∧ P y := by
  induction budget generalizing x with
  | zero => exact .ok ⟨hx, hstart⟩
  | succ budget ih =>
    obtain ⟨node, links, hnode, hlinks, hindex⟩ := hx.links
    have hstep {y : Id} (hy : y ∈ onward l node links) : Reaches nodes l y :=
      hclosed ⟨node, links, hnode, hlinks, hy⟩
    have hnear : Reaches nodes l (links.toList.foldl (closer config nodes vector) x) ∧
        P (links.toList.foldl (closer config nodes vector) x) := by
      refine closer_keeps (P := fun y => Reaches nodes l y ∧ P y) ⟨hx, hstart⟩ ?_
      intro y hy next hnext hlt
      have hreach := hstep (mem_onward.mpr (.inl (by simpa using hy)))
      exact ⟨hreach, hcloser hreach hnext.2 hlt⟩
    rw [greedyAtLevel]
    simp only [hnode, hindex, Outcome.ok_bind]
    generalize links.toList.foldl (closer config nodes vector) x = near at hnear
    have hnext : Reaches nodes l (if l = 0 then
        node.backbone.toList.foldl (closer config nodes vector) near else near) ∧
        P (if l = 0 then node.backbone.toList.foldl (closer config nodes vector) near else near) := by
      split
      · next hl =>
        refine closer_keeps (P := fun y => Reaches nodes l y ∧ P y) hnear ?_
        intro y hy next hnext hlt
        have hreach := hstep (mem_onward.mpr (.inr ⟨hl, by simpa using hy⟩))
        exact ⟨hreach, hcloser hreach hnext.2 hlt⟩
      · exact hnear
    generalize (if l = 0 then _ else near) = next at hnext
    split
    · exact .ok ⟨hx, hstart⟩
    · exact ih hnext.1 hnext.2

theorem greedyAtLevel_spec (hclosed : Closed nodes l) (hx : Reaches nodes l x) (budget : Nat) :
    Ensures (greedyAtLevel config nodes vector x l budget) (Reaches nodes l) :=
  (greedyAtLevel_keeps (P := fun _ => True) hclosed hx trivial (fun _ _ _ => trivial) budget).mono
    fun _ h => h.1

/-- The descent ends at a node that reaches the layer it stops above. -/
theorem descend_spec (hclosed : ∀ l, Closed nodes l)
    (hdown : ∀ {x l l'}, l ≤ l' → Reaches nodes l' x → Reaches nodes l x) (budget bottom : Nat)
    {top : Nat} (hx : Reaches nodes top x) :
    Ensures (HnswIndex.descend config nodes vector budget bottom top x) (Reaches nodes (min bottom top)) := by
  induction top generalizing x with
  | zero => exact .ok (by simpa using hx)
  | succ top ih =>
    rw [HnswIndex.descend]
    split
    · next h =>
      refine (greedyAtLevel_spec (hclosed _) hx budget).bind fun y hy => ?_
      rw [show min bottom (top + 1) = min bottom top by omega]
      exact ih (hdown (Nat.le_succ top) hy)
    · next h => exact .ok (by rwa [Nat.min_eq_right (by omega)])

end Greedy

/-! ## The beam search -/

/-- The state of a beam search from `x` that has kept all it expanded. -/
structure Expanding (nodes : Nodes Id) (l : Nat) (x : Id) (budget : Nat) (visited : BTreeSet Id)
    (frontier results : List Id) : Prop where
  unique : results.Nodup
  kept : ∀ y, y ∈ results ↔ y ∈ visited
  within : visited.size ≤ budget
  reaches : ∀ y, y ∈ visited ∨ y ∈ frontier → Reaches nodes l y
  start : x ∈ visited ∨ x ∈ frontier
  explored : ∀ y z, y ∈ visited → Onward nodes l y z → z ∈ visited ∨ z ∈ frontier

/-- What a beam search that keeps all it expands returns. -/
structure Expanded (nodes : Nodes Id) (l : Nat) (x : Id) (budget : Nat) (results : List Id) : Prop where
  unique : results.Nodup
  within : results.length ≤ budget
  reaches : ∀ y ∈ results, Reaches nodes l y
  exhausted : results.length = budget ∨
    x ∈ results ∧ ∀ y z, y ∈ results → Onward nodes l y z → z ∈ results

namespace Expanding

variable {visited : BTreeSet Id} {frontier results : List Id}

theorem length (h : Expanding nodes l x budget visited frontier results) :
    results.length = visited.size := by
  rw [← Std.ExtTreeSet.length_toList]
  exact ((List.perm_ext_iff_of_nodup h.unique (BTreeSet.toList_nodup visited)).mpr
    fun y => by rw [h.kept, Std.ExtTreeSet.mem_toList]).length_eq

theorem init (hx : Reaches nodes l x) : Expanding nodes l x budget ∅ [x] [] :=
  { unique := List.nodup_nil
    kept := by simp
    within := by simp
    reaches := fun y hy => by
      have : y = x := by simpa using hy
      rwa [this]
    start := by simp
    explored := by simp }

/-- The frontier is a collection: its order is nothing to the invariant. -/
theorem sorted (h : Expanding nodes l x budget visited frontier results) (frontier' : List Id)
    (hperm : ∀ y, y ∈ frontier' ↔ y ∈ frontier) :
    Expanding nodes l x budget visited frontier' results :=
  { h with
    reaches := by simpa only [hperm] using h.reaches
    start := by simpa only [hperm] using h.start
    explored := by simpa only [hperm] using h.explored }

theorem skip (h : Expanding nodes l x budget visited (y :: frontier) results) (hy : y ∈ visited) :
    Expanding nodes l x budget visited frontier results := by
  have hhead {z : Id} (hz : z ∈ visited ∨ z ∈ y :: frontier) : z ∈ visited ∨ z ∈ frontier := by
    rcases hz with hz | hz
    · exact .inl hz
    · rcases List.mem_cons.mp hz with rfl | hz
      · exact .inl hy
      · exact .inr hz
  exact { h with
    reaches := fun z hz => h.reaches z (hz.imp_right (List.mem_cons_of_mem _))
    start := hhead h.start
    explored := fun y z hy hyz => hhead (h.explored y z hy hyz) }

/-- Expanding the head of the frontier. -/
theorem expand (hclosed : Closed nodes l)
    (h : Expanding nodes l x budget visited (y :: frontier) results) (hy : y ∉ visited)
    (hbudget : visited.size < budget) {found results' : List Id}
    (hfound : ∀ z, z ∈ found ↔ Onward nodes l y z ∧ z ∉ visited.insert y)
    (hresults : results'.Perm (results ++ [y])) :
    Expanding nodes l x budget (visited.insert y) (frontier ++ found) results' := by
  have hnew : y ∉ results := fun hmem => hy ((h.kept y).mp hmem)
  have hhead {z : Id} (hz : z ∈ visited ∨ z ∈ y :: frontier) :
      z ∈ visited.insert y ∨ z ∈ frontier ++ found := by
    simp only [BTreeSet.mem_insert_iff, List.mem_append, List.mem_cons] at hz ⊢
    rcases hz with hz | hz | hz
    · exact .inl (.inr hz)
    · exact .inl (.inl hz)
    · exact .inr (.inl hz)
  refine ⟨?_, fun z => ?_, ?_, fun z hz => ?_, hhead h.start, fun z w hz hzw => ?_⟩
  · rw [hresults.nodup_iff, List.nodup_append_comm]
    exact List.nodup_cons.mpr ⟨hnew, h.unique⟩
  · rw [hresults.mem_iff, List.mem_append, h.kept, BTreeSet.mem_insert_iff, List.mem_singleton]
    exact or_comm
  · rw [BTreeSet.size_insert_new hy]
    exact hbudget
  · have hreach := h.reaches
    simp only [BTreeSet.mem_insert_iff, List.mem_append] at hz
    rcases hz with (rfl | hz) | hz | hz
    · exact hreach z (.inr (by simp))
    · exact hreach z (.inl hz)
    · exact hreach z (.inr (List.mem_cons_of_mem _ hz))
    · exact hclosed ((hfound z).mp hz).1
  · rcases BTreeSet.mem_insert_iff.mp hz with rfl | hz
    · by_cases hw : w ∈ visited.insert z
      · exact .inl hw
      · exact .inr (List.mem_append_right _ ((hfound w).mpr ⟨hzw, hw⟩))
    · exact hhead (h.explored z w hz hzw)

/-- The search may stop once its budget is spent. -/
theorem spent (h : Expanding nodes l x budget visited frontier results)
    (hbudget : ¬ visited.size < budget) : Expanded nodes l x budget results := by
  have hwithin := h.within
  have hlength := h.length
  exact ⟨h.unique, by omega, fun y hy => h.reaches y (.inl ((h.kept y).mp hy)), .inl (by omega)⟩

/-- Or once there is nothing left to expand. -/
theorem finished (h : Expanding nodes l x budget visited [] results) :
    Expanded nodes l x budget results := by
  have hwithin := h.within
  have hlength := h.length
  refine ⟨h.unique, by omega, fun y hy => h.reaches y (.inl ((h.kept y).mp hy)), .inr ⟨?_, ?_⟩⟩
  · simpa [h.kept] using h.start
  · intro y z hy hyz
    simpa [h.kept] using h.explored y z ((h.kept y).mp hy) hyz

end Expanding

variable [VectorMath]

/-- The loop neither breaks off early nor drops a result: before its budget is
spent it holds fewer results than it may keep. -/
theorem searchLoop_spec (hclosed : Closed nodes l) {visited : BTreeSet Id}
    {frontier results : List Id} (h : Expanding nodes l x budget visited frontier results) :
    Ensures (searchLoop config nodes vector l budget budget visited frontier results)
      (Expanded nodes l x budget) := by
  fun_induction searchLoop config nodes vector l budget budget visited frontier results with
  | case1 visited frontier results hf =>
    have := h.sorted [] fun y => by
      rw [← hf, List.mem_insertionSort]
    exact .ok this.finished
  | case2 visited frontier results current rest hf hb hv ih =>
    have := h.sorted (current :: rest) fun y => by rw [← hf, List.mem_insertionSort]
    exact ih (this.skip hv)
  | case3 visited frontier results current rest hf hb hv hbreak =>
    have := h.length
    omega
  | case4 visited frontier results current rest hf hb hv hbreak failure hu =>
    have := h.sorted (current :: rest) fun y => by rw [← hf, List.mem_insertionSort]
    obtain ⟨found, hfound, -⟩ := unvisited_eq (this.reaches current (.inr (by simp)))
      (visited.insert current)
    rw [hu] at hfound
    cases hfound
  | case5 visited frontier results current rest hf hb hv hbreak grown kept found hu ih =>
    have := h.sorted (current :: rest) fun y => by rw [← hf, List.mem_insertionSort]
    obtain ⟨found', hfound', hmem⟩ := unvisited_eq (this.reaches current (.inr (by simp)))
      (visited.insert current)
    rw [hu] at hfound'
    cases hfound'
    have hgrown : grown.Perm (results ++ [current]) := List.perm_insertionSort _ _
    have hlength := this.length
    have hkept : kept = grown := by
      have := hgrown.length_eq
      simp only [List.length_append, List.length_singleton] at this
      exact if_neg (by omega)
    exact ih (this.expand hclosed hv hb hmem (hkept ▸ hgrown))
  | case6 visited frontier results current rest hf hb => exact .ok (h.spent hb)

theorem searchLayer_spec (hclosed : Closed nodes l) (hx : Reaches nodes l x) (budget : Nat) :
    Ensures (searchLayer config nodes vector [x] l budget budget) (Expanded nodes l x budget) :=
  searchLoop_spec hclosed (.init hx)

end Heurema.Hnsw
