import Heurema.Data.TreeMap
import Mathlib.Logic.Relation

/-! # A cycle kept as adjacency sets

The vertices of a map each hold the set of their neighbours. `IsCycle` says that
the edges are symmetric, connect all the vertices and give each the degree of a
cycle of that many vertices: none for one vertex, one for two, two beyond.
`splice` puts a new vertex between two neighbours and `bypass` closes the gap a
vertex leaves; both keep a cycle a cycle. -/

namespace Cycle

/-- The neighbours of each vertex. -/
abbrev Adjacency (κ : Type) [LinearOrder κ] := BTreeMap κ (BTreeSet κ)

/-- The degree of every vertex in a cycle of `count` vertices. -/
def cycleDegree : Nat → Nat
  | 0 | 1 => 0
  | 2 => 1
  | _ => 2

theorem cycleDegree_of_le {n : Nat} (h : 3 ≤ n) : cycleDegree n = 2 := by
  match n, h with
  | n + 3, _ => rfl

variable {κ : Type} [LinearOrder κ] {adj adj' : Adjacency κ} {a b v x y : κ}

def Edge (adj : Adjacency κ) (x y : κ) : Prop := ∃ near, adj[x]? = some near ∧ y ∈ near

structure IsCycle (adj : Adjacency κ) : Prop where
  irrefl : ∀ x, ¬ Edge adj x x
  symm : ∀ {x y : κ}, Edge adj x y → Edge adj y x
  degree : ∀ {x : κ} {near : BTreeSet κ}, adj[x]? = some near → near.size = cycleDegree adj.size
  connected : ∀ {x y : κ}, x ∈ adj → y ∈ adj → Relation.ReflTransGen (Edge adj) x y

theorem edge_iff {near : BTreeSet κ} (h : adj[x]? = some near) : Edge adj x y ↔ y ∈ near := by
  simp [Edge, h]

theorem Edge.mem (h : Edge adj x y) : x ∈ adj := by
  obtain ⟨near, hnear, -⟩ := h
  exact BTreeMap.mem_iff.mpr ⟨near, hnear⟩

/-- A vertex alone. -/
theorem isCycle_singleton (v : κ) : IsCycle ((∅ : Adjacency κ).insert v ∅) := by
  have hno (x y : κ) : ¬ Edge ((∅ : Adjacency κ).insert v ∅) x y := by
    rintro ⟨near, hnear, hy⟩
    rw [BTreeMap.getElem?_insert_ite] at hnear
    split at hnear
    · cases hnear
      simp at hy
    · simp at hnear
  refine ⟨fun x => hno x x, fun h => (hno _ _ h).elim, fun {x near} hnear => ?_, fun {x y} hx hy => ?_⟩
  · have hsize : ((∅ : Adjacency κ).insert v ∅).size = 1 := by simp [BTreeMap.size_insert_new]
    rw [BTreeMap.getElem?_insert_ite] at hnear
    split at hnear
    · cases hnear
      simp [hsize, cycleDegree]
    · simp at hnear
  · have hx' : x = v := (BTreeMap.mem_insert_iff.mp hx).resolve_right (by simp)
    have hy' : y = v := (BTreeMap.mem_insert_iff.mp hy).resolve_right (by simp)
    rw [hx', hy']

theorem isCycle_empty : IsCycle (∅ : Adjacency κ) := by
  refine ⟨fun x => ?_, fun h => ?_, fun h => ?_, fun hx => ?_⟩
  · rintro ⟨near, hnear, -⟩
    simp at hnear
  · obtain ⟨near, hnear, -⟩ := h
    simp at hnear
  · simp at h
  · simp at hx

/-! ## Two edges at a time -/

def connect (adj : Adjacency κ) (a b : κ) : Adjacency κ :=
  if a = b then adj else (adj.modify a (·.insert b)).modify b (·.insert a)

def disconnect (adj : Adjacency κ) (a b : κ) : Adjacency κ :=
  (adj.modify a (·.erase b)).modify b (·.erase a)

theorem connect_lookup (hne : a ≠ b) (adj : Adjacency κ) (x : κ) : (connect adj a b)[x]? =
    adj[x]?.map fun near => if x = a then near.insert b else if x = b then near.insert a else near := by
  unfold connect
  rw [if_neg hne, BTreeMap.getElem?_modify_ite, BTreeMap.getElem?_modify_ite,
    BTreeMap.getElem?_modify_ite]
  by_cases hb : b = x
  · subst hb
    simp [hne, Ne.symm hne]
  · by_cases ha : a = x
    · subst ha
      simp [hb]
    · cases adj[x]? <;> simp [ha, hb, Ne.symm ha, Ne.symm hb]

theorem disconnect_lookup (hne : a ≠ b) (adj : Adjacency κ) (x : κ) : (disconnect adj a b)[x]? =
    adj[x]?.map fun near => if x = a then near.erase b else if x = b then near.erase a else near := by
  unfold disconnect
  rw [BTreeMap.getElem?_modify_ite, BTreeMap.getElem?_modify_ite, BTreeMap.getElem?_modify_ite]
  by_cases hb : b = x
  · subst hb
    simp [hne, Ne.symm hne]
  · by_cases ha : a = x
    · subst ha
      simp [hb]
    · cases adj[x]? <;> simp [ha, hb, Ne.symm ha, Ne.symm hb]

theorem connect_edge (ha : a ∈ adj) (hb : b ∈ adj) (hne : a ≠ b) : Edge (connect adj a b) x y ↔
    Edge adj x y ∨ (x = a ∧ y = b) ∨ (x = b ∧ y = a) := by
  unfold Edge
  rw [connect_lookup hne]
  by_cases hxa : x = a
  · subst hxa
    obtain ⟨near, hnear⟩ := BTreeMap.mem_iff.mp ha
    simp only [hnear, Option.map_some, if_true, Option.some.injEq, exists_eq_left',
      BTreeSet.mem_insert_iff, hne, true_and, false_and, or_false]
    exact or_comm
  · by_cases hxb : x = b
    · subst hxb
      obtain ⟨near, hnear⟩ := BTreeMap.mem_iff.mp hb
      simp only [hnear, Option.map_some, if_true, hxa, if_false, Option.some.injEq,
        exists_eq_left', BTreeSet.mem_insert_iff, true_and, false_and, false_or]
      exact or_comm
    · cases adj[x]? <;> simp [hxa, hxb]

theorem disconnect_edge (hne : a ≠ b) : Edge (disconnect adj a b) x y ↔
    Edge adj x y ∧ ¬ (x = a ∧ y = b) ∧ ¬ (x = b ∧ y = a) := by
  unfold Edge
  rw [disconnect_lookup hne]
  by_cases hxa : x = a
  · subst hxa
    cases adj[x]? <;> simp [-Std.ExtTreeSet.mem_erase, hne, BTreeSet.mem_erase_iff, and_comm]
  · by_cases hxb : x = b
    · subst hxb
      cases adj[x]? <;> simp [-Std.ExtTreeSet.mem_erase, hxa, BTreeSet.mem_erase_iff, and_comm]
    · cases adj[x]? <;> simp [hxa, hxb]

@[simp] theorem connect_mem {a b x : κ} : x ∈ connect adj a b ↔ x ∈ adj := by
  unfold connect
  split <;> simp [Std.ExtTreeMap.mem_modify]

@[simp] theorem disconnect_mem {a b x : κ} : x ∈ disconnect adj a b ↔ x ∈ adj := by
  simp [disconnect, Std.ExtTreeMap.mem_modify]

@[simp] theorem connect_size (a b : κ) : (connect adj a b).size = adj.size := by
  unfold connect
  split <;> simp [Std.ExtTreeMap.size_modify]

@[simp] theorem disconnect_size (a b : κ) : (disconnect adj a b).size = adj.size := by
  simp [disconnect, Std.ExtTreeMap.size_modify]

/-! ## Putting a vertex in -/

/-- Gives the isolated vertex `v` its place next to `anchor`. -/
def splice (adj : Adjacency κ) (v anchor : κ) : Adjacency κ :=
  match (adj[anchor]?.getD ∅).toList with
  | [] => connect adj v anchor
  | [next] => connect (connect adj anchor v) v next
  | next :: _ :: _ => connect (connect (disconnect adj anchor next) anchor v) v next

/-- Taking the vertex `v` out and closing the gap between its neighbours. -/
def bypass (adj : Adjacency κ) (v : κ) (near : List κ) : Adjacency κ :=
  let adj := near.foldl (fun adj anchor => adj.modify anchor (·.erase v)) adj
  match near with
  | [left, right] => connect adj left right
  | _ => adj

/-- A graph that can do the old one's steps, and reaches the new vertex, is
connected. -/
theorem connected_extend (hconn : ∀ {x y : κ}, x ∈ adj → y ∈ adj →
      Relation.ReflTransGen (Edge adj) x y)
    (hsymm : ∀ {x y : κ}, Edge adj' x y → Edge adj' y x)
    (hlift : ∀ {x y}, Edge adj x y → Relation.ReflTransGen (Edge adj') x y)
    (hmem : ∀ {x}, x ∈ adj' → x = v ∨ x ∈ adj) (ha : a ∈ adj) (hva : Edge adj' a v)
    (hx : x ∈ adj') (hy : y ∈ adj') : Relation.ReflTransGen (Edge adj') x y := by
  have hroot {z : κ} (hz : z ∈ adj') : Relation.ReflTransGen (Edge adj') a z := by
    rcases hmem hz with rfl | hz
    · exact .single hva
    · exact (hconn ha hz).lift' id fun _ _ h => hlift h
  have : Std.Symm (Edge adj') := ⟨fun _ _ h => hsymm h⟩
  have hback : Relation.ReflTransGen (Edge adj') x a := Std.Symm.symm _ _ (hroot hx)
  exact hback.trans (hroot hy)

theorem isolated_lookup (v x : κ) :
    (adj.insert v ∅)[x]? = if x = v then some ∅ else adj[x]? := by
  rw [BTreeMap.getElem?_insert_ite]
  simp only [eq_comm]

theorem isolated_edge (hv : v ∉ adj) : Edge (adj.insert v ∅) x y ↔ Edge adj x y := by
  unfold Edge
  rw [isolated_lookup]
  by_cases h : x = v
  · subst h
    simp [BTreeMap.not_mem_iff.mp hv]
  · simp [h]

/-- A vertex joins a single one. -/
theorem splice_first (h : IsCycle adj) (hv : v ∉ adj) (ha : a ∈ adj) (hsize : adj.size = 1) :
    IsCycle (connect (adj.insert v ∅) v a) := by
  have hne : v ≠ a := fun heq => hv (heq ▸ ha)
  have honly {x : κ} (hx : x ∈ adj) : x = a := by
    by_contra hxa
    have htwo : [x, a].length ≤ adj.size :=
      BTreeMap.length_le_size (by simpa using hxa) (by simp [hx, ha])
    simp [hsize] at htwo
  have hnear {near : BTreeSet κ} (hn : adj[a]? = some near) : near = ∅ := by
    have := h.degree hn
    rwa [hsize, cycleDegree, ← Std.ExtTreeSet.eq_empty_iff_size_eq_zero] at this
  have hedge {x y : κ} : Edge (connect (adj.insert v ∅) v a) x y ↔
      Edge adj x y ∨ (x = v ∧ y = a) ∨ (x = a ∧ y = v) := by
    rw [connect_edge (by simp) (by simp [ha]) hne, isolated_edge hv]
  have hsymm {x y : κ} (hxy : Edge (connect (adj.insert v ∅) v a) x y) :
      Edge (connect (adj.insert v ∅) v a) y x := by
    rw [hedge] at hxy ⊢
    rcases hxy with hxy | ⟨hx, hy⟩ | ⟨hx, hy⟩
    · exact .inl (h.symm hxy)
    · exact .inr (.inr ⟨hy, hx⟩)
    · exact .inr (.inl ⟨hy, hx⟩)
  refine ⟨fun x hx => ?_, hsymm, fun {x near} hx => ?_, fun hx hy => ?_⟩
  · rcases hedge.mp hx with hx | ⟨hx, hy⟩ | ⟨hx, hy⟩
    · exact h.irrefl x hx
    · exact hne (hx.symm.trans hy)
    · exact hne (hy.symm.trans hx)
  · rw [connect_size, BTreeMap.size_insert_new _ hv, hsize]
    rw [connect_lookup hne, isolated_lookup] at hx
    by_cases hxv : x = v
    · simp only [hxv, if_true, Option.map_some, Option.some.injEq] at hx
      subst hx
      simp [BTreeSet.size_insert_new, cycleDegree]
    · rw [if_neg hxv] at hx
      obtain ⟨old, hold, hx⟩ := Option.map_eq_some_iff.mp hx
      have hxa := honly (BTreeMap.mem_iff.mpr ⟨old, hold⟩)
      subst hxa
      rw [if_neg hxv, if_pos rfl, hnear hold] at hx
      subst hx
      simp [BTreeSet.size_insert_new, cycleDegree]
  · exact connected_extend (v := v) h.connected hsymm (fun hxy => .single (hedge.mpr (.inl hxy)))
      (fun hz => BTreeMap.mem_insert_iff.mp (connect_mem.mp hz)) ha
      (hedge.mpr (.inr (.inr ⟨rfl, rfl⟩))) hx hy

/-- A vertex joins between `a` and `b`, in a graph that lacks at most their edge
to be the old cycle. -/
theorem splice_between (h : IsCycle adj) (hv : v ∉ adj) (ha : a ∈ adj) (hb : b ∈ adj)
    (hne : a ≠ b) (hmem : ∀ {x}, x ∈ adj' ↔ x = v ∨ x ∈ adj) (hlarge : 3 ≤ adj'.size)
    (hsub : ∀ {x y}, Edge adj' x y → Edge adj x y)
    (hsymm : ∀ {x y}, Edge adj' x y → Edge adj' y x)
    (hkeep : ∀ {x y}, Edge adj x y → Edge adj' x y ∨ (x = a ∧ y = b) ∨ (x = b ∧ y = a))
    (hdegree : ∀ {x near}, adj'[x]? = some near →
      near.size = if x = v then 0 else if x = a ∨ x = b then 1 else 2) :
    IsCycle (connect (connect adj' a v) v b) := by
  have hav : a ≠ v := fun heq => hv (heq ▸ ha)
  have hvb : v ≠ b := fun heq => hv (heq ▸ hb)
  have hv' : v ∈ adj' := hmem.mpr (.inl rfl)
  have ha' : a ∈ adj' := hmem.mpr (.inr ha)
  have hb' : b ∈ adj' := hmem.mpr (.inr hb)
  -- No edge of the old graph meets the new vertex.
  have hout {x : κ} (hx : Edge adj' x v) : False := hv (hsub (hsymm hx)).mem
  have hedge {x y : κ} : Edge (connect (connect adj' a v) v b) x y ↔ Edge adj' x y ∨
      ((x = a ∨ x = b) ∧ y = v) ∨ (x = v ∧ (y = a ∨ y = b)) := by
    rw [connect_edge (by simpa using hv') (by simpa using hb') hvb, connect_edge ha' hv' hav]
    tauto
  have hsymm' {x y : κ} (hxy : Edge (connect (connect adj' a v) v b) x y) :
      Edge (connect (connect adj' a v) v b) y x := by
    rw [hedge] at hxy ⊢
    rcases hxy with hxy | ⟨hx, hy⟩ | ⟨hx, hy⟩
    · exact .inl (hsymm hxy)
    · exact .inr (.inr ⟨hy, hx⟩)
    · exact .inr (.inl ⟨hy, hx⟩)
  have hto {x : κ} (hx : x = a ∨ x = b) : Edge (connect (connect adj' a v) v b) x v :=
    hedge.mpr (.inr (.inl ⟨hx, rfl⟩))
  refine ⟨fun x hx => ?_, hsymm', fun {x near} hx => ?_, fun hx hy => ?_⟩
  · have hend (hx : x = a ∨ x = b) : x ≠ v := by
      rcases hx with rfl | rfl
      · exact hav
      · exact Ne.symm hvb
    rcases hedge.mp hx with hx | ⟨hx, hxv⟩ | ⟨hxv, hx⟩
    · exact h.irrefl x (hsub hx)
    · exact hend hx hxv
    · exact hend hx hxv
  · rw [connect_size, connect_size, cycleDegree_of_le hlarge]
    rw [connect_lookup hvb, connect_lookup hav] at hx
    obtain ⟨mid, hmid, rfl⟩ := Option.map_eq_some_iff.mp hx
    obtain ⟨old, hold, rfl⟩ := Option.map_eq_some_iff.mp hmid
    have hsize := hdegree hold
    have hfresh : v ∉ old := fun hm => hout ((edge_iff hold).mpr hm)
    by_cases hxv : x = v
    · subst hxv
      have hempty : old = ∅ := by
        rwa [if_pos rfl, ← Std.ExtTreeSet.eq_empty_iff_size_eq_zero] at hsize
      subst hempty
      have hnew : b ∉ (∅ : BTreeSet κ).insert a := by
        simp [BTreeSet.mem_insert_iff, Ne.symm hne, -Std.ExtTreeSet.mem_insert]
      simp only [if_true, Ne.symm hav, if_false]
      rw [BTreeSet.size_insert_new hnew, BTreeSet.size_insert_new (by simp)]
      simp
    · rw [if_neg hxv] at hsize
      by_cases hxa : x = a
      · subst hxa
        simp only [hxv, if_false, if_true, hne]
        rw [BTreeSet.size_insert_new hfresh, hsize]
        simp
      · by_cases hxb : x = b
        · subst hxb
          simp only [hxv, hxa, if_false, if_true]
          rw [BTreeSet.size_insert_new hfresh, hsize]
          simp
        · simp only [hxv, hxa, hxb, if_false]
          simpa [hxa, hxb] using hsize
  · refine connected_extend (v := v) h.connected hsymm' (fun hxy => ?_)
      (fun hz => hmem.mp (connect_mem.mp (connect_mem.mp hz))) ha (hto (.inl rfl)) hx hy
    -- The old edge between the two neighbours has become the way through `v`.
    rcases hkeep hxy with hxy | ⟨rfl, rfl⟩ | ⟨rfl, rfl⟩
    · exact .single (hedge.mpr (.inl hxy))
    · exact .tail (.single (hto (.inl rfl))) (hsymm' (hto (.inr rfl)))
    · exact .tail (.single (hto (.inr rfl))) (hsymm' (hto (.inl rfl)))

theorem splice_isCycle (h : IsCycle adj) (hv : v ∉ adj) (ha : a ∈ adj) :
    IsCycle (splice (adj.insert v ∅) v a) := by
  obtain ⟨near, hnear⟩ := BTreeMap.mem_iff.mp ha
  have hav : a ≠ v := fun heq => hv (heq ▸ ha)
  have hlookup : (adj.insert v ∅)[a]?.getD ∅ = near := by
    rw [isolated_lookup, if_neg hav, hnear, Option.getD_some]
  have hsize := h.degree hnear
  have hpos : [a].length ≤ adj.size := BTreeMap.length_le_size (by simp) (by simpa using ha)
  have hmem {x : κ} (hx : x ∈ near.toList) : x ∈ adj ∧ Edge adj a x := by
    have hedge := (edge_iff hnear).mpr (by simpa using hx : x ∈ near)
    exact ⟨(h.symm hedge).mem, hedge⟩
  have hlen : near.toList.length = cycleDegree adj.size := by simpa using hsize
  have hisolated {x : κ} : x ∈ adj.insert v ∅ ↔ x = v ∨ x ∈ adj := BTreeMap.mem_insert_iff
  unfold splice
  rw [hlookup]
  match htoList : near.toList with
  | [] =>
    -- Degree 0 is the degree of a single vertex.
    refine splice_first h hv ha ?_
    match hn : adj.size with
    | 0 => simp [hn] at hpos
    | 1 => rfl
    | 2 => simp [htoList, hn, cycleDegree] at hlen
    | n + 3 => simp [htoList, hn, cycleDegree] at hlen
  | [next] =>
    obtain ⟨hnext, hedge⟩ := hmem (by simp [htoList] : next ∈ near.toList)
    have hne : a ≠ next := fun heq => h.irrefl a (heq ▸ hedge)
    have htwo : adj.size = 2 := by
      match hn : adj.size with
      | 0 | 1 => simp [htoList, hn, cycleDegree] at hlen
      | 2 => rfl
      | n + 3 => simp [htoList, hn, cycleDegree] at hlen
    refine splice_between h hv ha hnext hne hisolated ?_ (isolated_edge hv).mp
      (fun hxy => (isolated_edge hv).mpr (h.symm ((isolated_edge hv).mp hxy)))
      (fun hxy => .inl ((isolated_edge hv).mpr hxy)) fun {x there} hx => ?_
    · rw [BTreeMap.size_insert_new _ hv]
      omega
    · rw [isolated_lookup] at hx
      by_cases hxv : x = v
      · rw [if_pos hxv] at hx
        cases hx
        simp [hxv]
      · rw [if_neg hxv] at hx
        have hdeg := h.degree hx
        rw [htwo, cycleDegree] at hdeg
        -- Two vertices are these two.
        have heither : x = a ∨ x = next := by
          by_contra hother
          push Not at hother
          have hthree : [x, a, next].length ≤ adj.size := BTreeMap.length_le_size
            (by simpa [hne] using hother)
            (by simpa [ha, hnext] using BTreeMap.mem_iff.mpr ⟨there, hx⟩)
          simp [htwo] at hthree
        rw [if_neg hxv, if_pos heither, hdeg]
  | next :: other :: rest =>
    obtain ⟨hnext, hedge⟩ := hmem (by simp [htoList] : next ∈ near.toList)
    have hne : a ≠ next := fun heq => h.irrefl a (heq ▸ hedge)
    have hlarge : 3 ≤ adj.size := by
      match hn : adj.size with
      | 0 | 1 | 2 => simp [htoList, hn, cycleDegree] at hlen
      | n + 3 => omega
    have hcut {x y : κ} : Edge (disconnect (adj.insert v ∅) a next) x y ↔
        Edge adj x y ∧ ¬ (x = a ∧ y = next) ∧ ¬ (x = next ∧ y = a) := by
      rw [disconnect_edge hne, isolated_edge hv]
    refine splice_between h hv ha hnext hne (disconnect_mem.trans hisolated) ?_
      (fun hxy => (hcut.mp hxy).1) (fun hxy => ?_) (fun {x y} hxy => ?_) fun {x there} hx => ?_
    · rw [disconnect_size, BTreeMap.size_insert_new _ hv]
      omega
    · obtain ⟨hxy, hab, hba⟩ := hcut.mp hxy
      exact hcut.mpr ⟨h.symm hxy, fun hc => hba ⟨hc.2, hc.1⟩, fun hc => hab ⟨hc.2, hc.1⟩⟩
    · rw [hcut]
      tauto
    · rw [disconnect_lookup hne, isolated_lookup] at hx
      by_cases hxv : x = v
      · rw [if_pos hxv] at hx
        simp only [Option.map_some, Option.some.injEq] at hx
        have hva : v ≠ a := Ne.symm hav
        have hvn : v ≠ next := fun heq => hv (heq ▸ hnext)
        rw [if_neg (hxv ▸ hva), if_neg (hxv ▸ hvn)] at hx
        subst hx
        simp [hxv]
      · rw [if_neg hxv] at hx
        obtain ⟨old, hold, rfl⟩ := Option.map_eq_some_iff.mp hx
        have hdeg := h.degree hold
        rw [cycleDegree_of_le hlarge] at hdeg
        by_cases hxa : x = a
        · subst hxa
          have := BTreeSet.size_erase_mem ((edge_iff hold).mp hedge)
          simp only [hxv, if_true, if_false, true_or]
          omega
        · by_cases hxn : x = next
          · subst hxn
            have := BTreeSet.size_erase_mem ((edge_iff hold).mp (h.symm hedge))
            simp only [hxv, hxa, if_true, if_false, or_true]
            omega
          · simpa [hxv, hxa, hxn] using hdeg

/-! ## Taking a vertex out -/

theorem foldl_erase_lookup (v : κ) (l : List κ) (adj : Adjacency κ) (x : κ) :
    (l.foldl (fun adj anchor => adj.modify anchor (·.erase v)) adj)[x]? =
      adj[x]?.map fun near => if x ∈ l then near.erase v else near := by
  induction l generalizing adj with
  | nil => simp
  | cons anchor rest ih =>
    rw [List.foldl_cons, ih, BTreeMap.getElem?_modify_ite]
    by_cases hx : anchor = x
    · subst hx
      have htwice (near : BTreeSet κ) : (near.erase v).erase v = near.erase v :=
        BTreeSet.erase_absent (by simp)
      by_cases hrest : anchor ∈ rest <;> simp [hrest, htwice, Function.comp_def]
    · simp [hx, Ne.symm hx]

/-- What is left of a cycle once `v` has gone from the map and from the sets of
its neighbours. -/
structure Opened (adj : Adjacency κ) (v : κ) (near : BTreeSet κ) (adj' : Adjacency κ) : Prop where
  cycle : IsCycle adj
  vertex : adj[v]? = some near
  lookup : ∀ x, adj'[x]? = if x = v then none else adj[x]?.map fun there =>
    if x ∈ near then there.erase v else there

theorem Opened.of_isCycle (h : IsCycle adj) {near : BTreeSet κ} (hv : adj[v]? = some near) :
    Opened adj v near
      (near.toList.foldl (fun adj anchor => adj.modify anchor (·.erase v)) (adj.erase v)) := by
  refine ⟨h, hv, fun x => ?_⟩
  rw [foldl_erase_lookup, BTreeMap.getElem?_erase_ite]
  by_cases hx : v = x <;> simp [hx, eq_comm]

namespace Opened

variable {near : BTreeSet κ}

theorem edge (h : Opened adj v near adj') :
    Edge adj' x y ↔ Edge adj x y ∧ x ≠ v ∧ y ≠ v := by
  have hback {z : κ} {there : BTreeSet κ} (hz : adj[z]? = some there) : v ∈ there → z ∈ near :=
    fun hm => (edge_iff h.vertex).mp (h.cycle.symm ((edge_iff hz).mpr hm))
  unfold Edge
  rw [h.lookup]
  by_cases hx : x = v
  · simp [hx]
  · cases hxl : adj[x]? with
    | none => simp [hx]
    | some there =>
      by_cases hnear : x ∈ near
      · simp [hx, hnear, BTreeSet.mem_erase_iff, and_comm, -Std.ExtTreeSet.mem_erase]
      · have hvt : v ∉ there := fun hm => hnear (hback hxl hm)
        have hyv : y ∈ there → y ≠ v := fun hm heq => hvt (heq ▸ hm)
        simpa [hx, hnear] using hyv

theorem mem (h : Opened adj v near adj') : x ∈ adj' ↔ x ≠ v ∧ x ∈ adj := by
  rw [BTreeMap.mem_iff, BTreeMap.mem_iff, h.lookup]
  by_cases hx : x = v
  · simp [hx]
  · cases adj[x]? <;> simp [hx]

theorem size (h : Opened adj v near adj') : adj'.size + 1 = adj.size := by
  have hkeys : adj'.map (fun _ _ => ()) = (adj.erase v).map fun _ _ => () :=
    BTreeMap.ext_lookup fun x => by
      rw [Std.ExtTreeMap.getElem?_map, Std.ExtTreeMap.getElem?_map, h.lookup,
        BTreeMap.getElem?_erase_ite]
      by_cases hx : x = v
      · simp [hx]
      · cases adj[x]? <;> simp [hx, Ne.symm hx]
  have hsize := congrArg Std.ExtTreeMap.size hkeys
  simp only [Std.ExtTreeMap.size_map] at hsize
  rw [hsize, BTreeMap.size_erase_mem (BTreeMap.mem_iff.mpr ⟨near, h.vertex⟩)]

/-- The neighbours of the departed vertex. -/
theorem neighbour (h : Opened adj v near adj') (hx : x ∈ near) : x ≠ v ∧ x ∈ adj ∧ Edge adj x v := by
  have hedge := (edge_iff h.vertex).mpr hx
  exact ⟨fun heq => h.cycle.irrefl v (heq ▸ hedge), (h.cycle.symm hedge).mem, h.cycle.symm hedge⟩

/-- A neighbour of the departed vertex has lost one edge. -/
theorem neighbour_size (h : Opened adj v near adj') (hx : x ∈ near) {there : BTreeSet κ}
    (hthere : adj'[x]? = some there) : there.size + 1 = cycleDegree adj.size := by
  obtain ⟨hxv, -, hedge⟩ := h.neighbour hx
  rw [h.lookup, if_neg hxv] at hthere
  obtain ⟨old, hold, rfl⟩ := Option.map_eq_some_iff.mp hthere
  rw [if_pos hx, BTreeSet.size_erase_mem ((edge_iff hold).mp hedge), h.cycle.degree hold]

/-- Every other vertex has kept its edges. -/
theorem other_size (h : Opened adj v near adj') (hx : x ∉ near) {there : BTreeSet κ}
    (hthere : adj'[x]? = some there) : there.size = cycleDegree adj.size := by
  rw [h.lookup] at hthere
  split at hthere
  · cases hthere
  · obtain ⟨old, hold, rfl⟩ := Option.map_eq_some_iff.mp hthere
    simpa [hx] using h.cycle.degree hold

/-- The neighbours of a vertex are joined to each other only in a triangle. -/
theorem joined_iff (h : Opened adj v near adj') (hab : near.toList = [a, b]) :
    Edge adj a b ↔ adj.size = 3 := by
  have hmem {x : κ} : x ∈ near ↔ x = a ∨ x = b := by
    rw [← Std.ExtTreeSet.mem_toList, hab]
    simp
  have hne : a ≠ b := by
    have := BTreeSet.toList_nodup near
    rw [hab] at this
    simpa using this
  have hdegree : cycleDegree adj.size = 2 := by
    rw [← h.cycle.degree h.vertex, ← Std.ExtTreeSet.length_toList, hab]
    rfl
  obtain ⟨hav, ha, hea⟩ := h.neighbour (hmem.mpr (.inl rfl))
  obtain ⟨hbv, hb, heb⟩ := h.neighbour (hmem.mpr (.inr rfl))
  have hv : v ∈ adj := (h.cycle.symm hea).mem
  have hthree : [v, a, b].length ≤ adj.size :=
    BTreeMap.length_le_size (by simp [hne, Ne.symm hav, Ne.symm hbv]) (by simp [hv, ha, hb])
  obtain ⟨na, hna⟩ := BTreeMap.mem_iff.mp ha
  obtain ⟨nb, hnb⟩ := BTreeMap.mem_iff.mp hb
  have hsa := (h.cycle.degree hna).trans hdegree
  have hsb := (h.cycle.degree hnb).trans hdegree
  constructor
  · intro hjoin
    -- The three are closed under edges, and everything is reachable from `v`.
    have hclosed {x y : κ} (hx : x ∈ [v, a, b]) (hxy : Edge adj x y) : y ∈ [v, a, b] := by
      simp only [List.mem_cons, List.not_mem_nil, or_false] at hx ⊢
      rcases hx with rfl | rfl | rfl
      · exact .inr (hmem.mp ((edge_iff h.vertex).mp hxy))
      · rcases BTreeSet.mem_of_size_two hsa ((edge_iff hna).mp hea) ((edge_iff hna).mp hjoin)
          (Ne.symm hbv) ((edge_iff hna).mp hxy) with hy | hy
        · exact .inl hy
        · exact .inr (.inr hy)
      · rcases BTreeSet.mem_of_size_two hsb ((edge_iff hnb).mp heb)
          ((edge_iff hnb).mp (h.cycle.symm hjoin)) (Ne.symm hav) ((edge_iff hnb).mp hxy) with hy | hy
        · exact .inl hy
        · exact .inr (.inl hy)
    have hall {x : κ} (hx : x ∈ adj) : x ∈ [v, a, b] := by
      have hpath := h.cycle.connected hv hx
      induction hpath with
      | refl => simp
      | tail hpath hstep ih => exact hclosed (ih hstep.mem) hstep
    have hsub : adj.keys.Subperm [v, a, b] := List.subperm_of_subset
      ((BTreeMap.keys_sorted adj).imp fun h heq => absurd (heq ▸ h) (lt_irrefl _))
      fun x hx => hall (by simpa using hx)
    have hle := hsub.length_le
    simp only [Std.ExtTreeMap.length_keys, List.length_cons, List.length_nil] at hle hthree
    omega
  · intro hsize
    -- The second neighbour of `a` can only be `b`.
    have herase := BTreeSet.size_erase_mem ((edge_iff hna).mp hea)
    have hnonempty : (na.erase v).toList ≠ [] := fun hnil => by
      have hzero := congrArg List.length hnil
      simp only [Std.ExtTreeSet.length_toList, List.length_nil] at hzero
      omega
    obtain ⟨z, hz⟩ := List.exists_mem_of_ne_nil _ hnonempty
    obtain ⟨hzv, hza⟩ := BTreeSet.mem_erase_iff.mp (Std.ExtTreeSet.mem_toList.mp hz)
    have hedge := (edge_iff hna).mpr hza
    by_cases hzb : z = b
    · exact hzb ▸ hedge
    · have hza' : z ≠ a := fun heq => h.cycle.irrefl a (heq ▸ hedge)
      have hfour : [v, a, b, z].length ≤ adj.size := BTreeMap.length_le_size
        (by simp [hne, Ne.symm hav, Ne.symm hbv, Ne.symm hzv, Ne.symm hzb, Ne.symm hza'])
        (by simp [hv, ha, hb, (h.cycle.symm hedge).mem])
      simp [hsize] at hfour

/-- With at most one neighbour gone, what is left is empty or a single vertex. -/
theorem isCycle (h : Opened adj v near adj') (hsmall : adj.size ≤ 2) : IsCycle adj' := by
  have hsize := h.size
  have hnone {x y : κ} (hxy : Edge adj' x y) : False := by
    obtain ⟨hedge, hxv, hyv⟩ := h.edge.mp hxy
    have hne : x ≠ y := fun heq => h.cycle.irrefl x (heq ▸ hedge)
    have hthree : [v, x, y].length ≤ adj.size := BTreeMap.length_le_size
      (by simp [hne, Ne.symm hxv, Ne.symm hyv])
      (by simp [hedge.mem, (h.cycle.symm hedge).mem, BTreeMap.mem_iff, h.vertex])
    simp only [List.length_cons, List.length_nil] at hthree
    omega
  refine ⟨fun x hx => hnone hx, fun hxy => (hnone hxy).elim, fun {x there} hx => ?_,
    fun {x y} hx hy => ?_⟩
  · have hempty : there = ∅ := Std.ExtTreeSet.ext_mem fun y => by
      simpa using fun hy => hnone ((edge_iff hx).mpr hy)
    match hn : adj'.size with
    | 0 | 1 => simp [hempty, cycleDegree]
    | n + 2 => omega
  · by_cases hxy : x = y
    · exact hxy ▸ .refl
    · have htwo : [x, y].length ≤ adj'.size :=
        BTreeMap.length_le_size (by simpa using hxy) (by simp [hx, hy])
      simp only [List.length_cons, List.length_nil] at htwo
      omega

/-- Joining the two neighbours closes the gap. -/
theorem close_isCycle (h : Opened adj v near adj') (hab : near.toList = [a, b]) :
    IsCycle (connect adj' a b) := by
  have hmem {x : κ} : x ∈ near ↔ x = a ∨ x = b := by
    rw [← Std.ExtTreeSet.mem_toList, hab]
    simp
  have hne : a ≠ b := by
    have := BTreeSet.toList_nodup near
    rw [hab] at this
    simpa using this
  have hdegree : cycleDegree adj.size = 2 := by
    rw [← h.cycle.degree h.vertex, ← Std.ExtTreeSet.length_toList, hab]
    rfl
  have hlarge : 3 ≤ adj.size := by
    match hn : adj.size with
    | 0 | 1 | 2 => simp [hn, cycleDegree] at hdegree
    | n + 3 => omega
  have hsize := h.size
  obtain ⟨hav, ha, hea⟩ := h.neighbour (hmem.mpr (.inl rfl))
  obtain ⟨hbv, hb, heb⟩ := h.neighbour (hmem.mpr (.inr rfl))
  have hedge {x y : κ} : Edge (connect adj' a b) x y ↔
      (Edge adj x y ∧ x ≠ v ∧ y ≠ v) ∨ (x = a ∧ y = b) ∨ (x = b ∧ y = a) := by
    rw [connect_edge (h.mem.mpr ⟨hav, ha⟩) (h.mem.mpr ⟨hbv, hb⟩) hne, h.edge]
  have hsymm {x y : κ} (hxy : Edge (connect adj' a b) x y) : Edge (connect adj' a b) y x := by
    rw [hedge] at hxy ⊢
    rcases hxy with ⟨hxy, hx, hy⟩ | ⟨hx, hy⟩ | ⟨hx, hy⟩
    · exact .inl ⟨h.cycle.symm hxy, hy, hx⟩
    · exact .inr (.inr ⟨hy, hx⟩)
    · exact .inr (.inl ⟨hy, hx⟩)
  -- One neighbour, its remaining set and the other neighbour.
  have hend {c d : κ} {there : BTreeSet κ} (hc : c ∈ near) (hthere : adj'[c]? = some there)
      (hjoin : Edge adj c d ↔ adj.size = 3) (hcv : c ≠ v) (hdv : d ≠ v) :
      (there.insert d).size = cycleDegree adj'.size := by
    have hold := h.neighbour_size hc hthere
    have hd : d ∈ there ↔ adj.size = 3 := by
      rw [← edge_iff hthere, h.edge, hjoin]
      simp [hcv, hdv]
    by_cases hn : adj.size = 3
    · rw [BTreeSet.insert_mem (hd.mpr hn)]
      rw [hdegree] at hold
      rw [show adj'.size = 2 by omega, cycleDegree]
      omega
    · rw [BTreeSet.size_insert_new (fun hm => hn (hd.mp hm)), cycleDegree_of_le (by omega)]
      omega
  refine ⟨fun x hx => ?_, hsymm, fun {x there} hx => ?_, fun {x y} hx hy => ?_⟩
  · rcases hedge.mp hx with hx | ⟨hx, hy⟩ | ⟨hx, hy⟩
    · exact h.cycle.irrefl x hx.1
    · exact hne (hx.symm.trans hy)
    · exact hne (hy.symm.trans hx)
  · rw [connect_size]
    rw [connect_lookup hne] at hx
    obtain ⟨old, hold, rfl⟩ := Option.map_eq_some_iff.mp hx
    by_cases hxa : x = a
    · subst hxa
      rw [if_pos rfl]
      exact hend (hmem.mpr (.inl rfl)) hold (h.joined_iff hab) hav hbv
    · by_cases hxb : x = b
      · subst hxb
        rw [if_neg hxa, if_pos rfl]
        have hjoin : Edge adj x a ↔ adj.size = 3 :=
          ⟨fun he => (h.joined_iff hab).mp (h.cycle.symm he),
            fun hn => h.cycle.symm ((h.joined_iff hab).mpr hn)⟩
        exact hend (hmem.mpr (.inr rfl)) hold hjoin hbv hav
      · rw [if_neg hxa, if_neg hxb, h.other_size (by simp [hmem, hxa, hxb]) hold, hdegree]
        -- A vertex beyond the three means at least four of them.
        obtain ⟨hxv, hx'⟩ := h.mem.mp (BTreeMap.mem_iff.mpr ⟨old, hold⟩)
        have hfour : [v, a, b, x].length ≤ adj.size := BTreeMap.length_le_size
          (by simp [hne, Ne.symm hav, Ne.symm hbv, Ne.symm hxv, Ne.symm hxa, Ne.symm hxb])
          (by simp [ha, hb, hx', (h.cycle.symm hea).mem])
        simp only [List.length_cons, List.length_nil] at hfour
        rw [cycleDegree_of_le (by omega)]
  · -- A path through `v` goes through both its neighbours.
    obtain ⟨hxv, hx'⟩ := h.mem.mp (connect_mem.mp hx)
    obtain ⟨hyv, hy'⟩ := h.mem.mp (connect_mem.mp hy)
    let detour (z : κ) : κ := if z = v then a else z
    have hto {z : κ} (hz : Edge adj v z) : Relation.ReflTransGen (Edge (connect adj' a b)) a z := by
      rcases hmem.mp ((edge_iff h.vertex).mp hz) with rfl | rfl
      · exact .refl
      · exact .single (hedge.mpr (.inr (.inl ⟨rfl, rfl⟩)))
    have hsymm' : Std.Symm (Edge (connect adj' a b)) := ⟨fun _ _ h => hsymm h⟩
    have hstep (p q : κ) (hpq : Edge adj p q) :
        Relation.ReflTransGen (Edge (connect adj' a b)) (detour p) (detour q) := by
      by_cases hp : p = v
      · have hq : q ≠ v := fun heq => h.cycle.irrefl v (by rwa [hp, heq] at hpq)
        simp only [detour, if_pos hp, if_neg hq]
        exact hto (hp ▸ hpq)
      · by_cases hq : q = v
        · simp only [detour, if_neg hp, if_pos hq]
          exact Std.Symm.symm _ _ (hto (h.cycle.symm (hq ▸ hpq)))
        · simp only [detour, if_neg hp, if_neg hq]
          exact .single (hedge.mpr (.inl ⟨hpq, hp, hq⟩))
    have hpath : Relation.ReflTransGen (Edge (connect adj' a b)) (detour x) (detour y) :=
      (h.cycle.connected hx' hy').lift' detour hstep
    simpa [detour, hxv, hyv] using hpath

end Opened

theorem bypass_isCycle (h : IsCycle adj) {near : BTreeSet κ} (hv : adj[v]? = some near) :
    IsCycle (bypass (adj.erase v) v near.toList) := by
  have hopened := Opened.of_isCycle h hv
  have hlen : near.toList.length = cycleDegree adj.size := by simpa using h.degree hv
  have hsmall (hdegree : cycleDegree adj.size ≤ 1) : adj.size ≤ 2 := by
    match hn : adj.size with
    | 0 | 1 | 2 => omega
    | n + 3 => simp [hn, cycleDegree] at hdegree
  unfold bypass
  match htoList : near.toList with
  | [] =>
    rw [htoList] at hopened hlen
    exact hopened.isCycle (hsmall (by simp [← hlen]))
  | [left] =>
    rw [htoList] at hopened hlen
    exact hopened.isCycle (hsmall (by simp [← hlen]))
  | [left, right] =>
    have hclosed := hopened.close_isCycle htoList
    rwa [htoList] at hclosed
  | _ :: _ :: _ :: _ =>
    -- No vertex of a cycle has three neighbours.
    rw [htoList] at hlen
    match hn : adj.size with
    | 0 | 1 | 2 | n + 3 => simp [hn, cycleDegree] at hlen

end Cycle
