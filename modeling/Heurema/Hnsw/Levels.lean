import Heurema.Hnsw.Graph

/-! # Levels

The entry point is the lowest node of the highest level: `Tops` says so node by
node, which is what an insertion or a removal can keep. The level generator
never reaches its fixed point zero. -/

namespace Heurema.Hnsw

variable {Id : Type} [LinearOrder Id] {nodes : Nodes Id} {x y : Id} {m : Nat}

/-- `x` is the lowest id of the highest level, which is `m`. -/
structure Tops (nodes : Nodes Id) (x : Id) (m : Nat) : Prop where
  reached : ∃ node, nodes[x]? = some node ∧ node.level = m
  least : ∀ {y : Id} {node : Node Id}, nodes[y]? = some node →
    node.level < m ∨ (node.level = m ∧ x ≤ y)

theorem Tops.mem (h : Tops nodes x m) : x ∈ nodes :=
  let ⟨node, hnode, _⟩ := h.reached
  mem_nodes.mpr ⟨node, hnode⟩

theorem Tops.unique {x' : Id} {m' : Nat} (h : Tops nodes x m) (h' : Tops nodes x' m') :
    x = x' ∧ m = m' := by
  obtain ⟨node, hnode, hlevel⟩ := h.reached
  obtain ⟨node', hnode', hlevel'⟩ := h'.reached
  have hle := h.least hnode'
  have hle' := h'.least hnode
  exact ⟨le_antisymm (by rcases hle with h | h <;> [omega; exact h.2])
    (by rcases hle' with h | h <;> [omega; exact h.2]), by omega⟩

theorem mem_levels {x : Id} {m : Nat} :
    (x, m) ∈ levels nodes ↔ ∃ node, nodes[x]? = some node ∧ node.level = m := by
  simp [levels]

/-- The ids of `levels` ascend. -/
theorem levels_sorted (nodes : Nodes Id) : ((levels nodes).map Prod.fst).Pairwise (· < ·) := by
  have hkeys : (levels nodes).map Prod.fst = nodes.keys := by
    simp [levels, Function.comp_def, Std.ExtTreeMap.map_fst_toList_eq_keys]
  rw [hkeys]
  exact BTreeMap.keys_sorted nodes

theorem le_highestLevel {node : Node Id} (h : nodes[x]? = some node) :
    node.level ≤ highestLevel nodes := by
  rw [highestLevel_eq]
  have hmem : node.level ∈ (levels nodes).map Prod.snd :=
    List.mem_map.mpr ⟨(x, node.level), mem_levels.mpr ⟨node, h, rfl⟩, rfl⟩
  cases hmax : ((levels nodes).map Prod.snd).max? with
  | none => simp [List.max?_eq_none_iff.mp hmax] at hmem
  | some m => exact (List.max?_eq_some_iff.mp hmax).2 _ hmem

theorem exists_highestLevel (h : x ∈ nodes) :
    ∃ (y : Id) (node : Node Id), nodes[y]? = some node ∧ node.level = highestLevel nodes := by
  obtain ⟨node, hnode⟩ := mem_nodes.mp h
  rw [highestLevel_eq]
  cases hmax : ((levels nodes).map Prod.snd).max? with
  | none =>
    have hmem := mem_levels.mpr ⟨node, hnode, rfl⟩
    simp [List.map_eq_nil_iff.mp (List.max?_eq_none_iff.mp hmax)] at hmem
  | some m =>
    obtain ⟨⟨y, level⟩, hmem, rfl⟩ := List.mem_map.mp (List.max?_eq_some_iff.mp hmax).1
    obtain ⟨node, hnode, hlevel⟩ := mem_levels.mp hmem
    exact ⟨y, node, hnode, hlevel⟩

/-- A table with a node has an entry point, and it tops the table. -/
theorem exists_tops (h : y ∈ nodes) :
    ∃ x, selectEntry nodes = some x ∧ Tops nodes x (highestLevel nodes) := by
  obtain ⟨top, node, hnode, hlevel⟩ := exists_highestLevel h
  rw [selectEntry_eq]
  generalize hids : ((levels nodes).filter fun entry =>
    entry.2 = highestLevel nodes).map Prod.fst = ids
  have hmem {z : Id} : z ∈ ids ↔
      ∃ node : Node Id, nodes[z]? = some node ∧ node.level = highestLevel nodes := by
    rw [← hids, List.mem_map]
    constructor
    · rintro ⟨⟨z', level⟩, hz, rfl⟩
      obtain ⟨hz, hlevel⟩ := List.mem_filter.mp hz
      obtain ⟨node, hnode, rfl⟩ := mem_levels.mp hz
      exact ⟨node, hnode, by simpa using hlevel⟩
    · rintro ⟨node, hnode, hlevel⟩
      exact ⟨(z, node.level), List.mem_filter.mpr ⟨mem_levels.mpr ⟨node, hnode, rfl⟩, by simpa⟩, rfl⟩
  have hsorted : ids.Pairwise (· < ·) := by
    rw [← hids]
    exact (levels_sorted nodes).sublist ((List.filter_sublist).map _)
  have htop := hmem.mpr ⟨node, hnode, hlevel⟩
  rcases ids with _ | ⟨x, rest⟩
  · simp at htop
  · refine ⟨x, rfl, hmem.mp (by simp), fun {y} node hnode => ?_⟩
    rcases Nat.lt_or_eq_of_le (le_highestLevel hnode) with hlt | heq
    · exact .inl hlt
    · refine .inr ⟨heq, ?_⟩
      rcases List.mem_cons.mp (hmem.mpr ⟨node, hnode, heq⟩) with rfl | hy
      · exact le_refl y
      · exact le_of_lt (List.rel_of_pairwise_cons hsorted hy)

theorem tops_iff : Tops nodes x m ↔ selectEntry nodes = some x ∧ highestLevel nodes = m := by
  constructor
  · intro h
    obtain ⟨x', hselect, htops⟩ := exists_tops h.mem
    obtain ⟨rfl, rfl⟩ := h.unique htops
    exact ⟨hselect, rfl⟩
  · rintro ⟨hselect, rfl⟩
    have hmem : (x, highestLevel nodes) ∈ levels nodes := by
      rw [selectEntry_eq] at hselect
      obtain ⟨⟨x', level⟩, hx, rfl⟩ := List.mem_map.mp (List.mem_of_mem_head? hselect)
      obtain ⟨hx, hlevel⟩ := List.mem_filter.mp hx
      have : level = highestLevel nodes := by simpa using hlevel
      rwa [← this]
    obtain ⟨node, hnode, -⟩ := mem_levels.mp hmem
    obtain ⟨x', hselect', htops⟩ := exists_tops (mem_nodes.mpr ⟨node, hnode⟩)
    rw [hselect, Option.some.injEq] at hselect'
    rwa [hselect']

theorem selectEntry_empty : selectEntry (∅ : Nodes Id) = none := rfl

theorem selectEntry_eq_none : selectEntry nodes = none ↔ nodes = ∅ := by
  constructor
  · intro h
    by_contra hne
    rw [BTreeMap.eq_empty_iff] at hne
    obtain ⟨y, hy⟩ := not_forall.mp hne
    obtain ⟨x, hselect, -⟩ := exists_tops (by simpa using hy : y ∈ nodes)
    rw [h] at hselect
    cases hselect
  · rintro rfl
    exact selectEntry_empty

/-- Losing another node leaves the top. -/
theorem Tops.erase (h : Tops nodes x m) (hne : y ≠ x) : Tops (nodes.erase y) x m := by
  obtain ⟨node, hnode, hlevel⟩ := h.reached
  refine ⟨⟨node, by rw [BTreeMap.getElem?_erase_ite, if_neg hne, hnode], hlevel⟩, fun hz => ?_⟩
  rw [BTreeMap.getElem?_erase_ite] at hz
  split at hz
  · cases hz
  · exact h.least hz

/-- A new node takes the top over, or leaves it. -/
theorem Tops.insert (h : Tops nodes x m) (hy : y ∉ nodes) (node : Node Id) :
    if node.level > m ∨ (node.level = m ∧ y < x) then Tops (nodes.insert y node) y node.level
    else Tops (nodes.insert y node) x m := by
  have hne : y ≠ x := fun heq => hy (heq ▸ h.mem)
  split
  · next hover =>
    refine ⟨⟨node, by rw [BTreeMap.getElem?_insert_ite, if_pos rfl], rfl⟩, fun {z} other hz => ?_⟩
    rw [BTreeMap.getElem?_insert_ite] at hz
    split at hz
    · next heq =>
      cases hz
      exact .inr ⟨rfl, heq.le⟩
    · rcases h.least hz with hlt | ⟨heq, hle⟩
      · exact .inl (by omega)
      · rcases hover with hgt | ⟨hm, hyx⟩
        · exact .inl (by omega)
        · exact .inr ⟨by omega, hyx.le.trans hle⟩
  · next hunder =>
    obtain ⟨top, htop, hlevel⟩ := h.reached
    refine ⟨⟨top, by rw [BTreeMap.getElem?_insert_ite, if_neg hne, htop], hlevel⟩,
      fun {z} other hz => ?_⟩
    rw [BTreeMap.getElem?_insert_ite] at hz
    split at hz
    · next heq =>
      subst heq
      cases hz
      rcases Nat.lt_trichotomy node.level m with hlt | heq | hgt
      · exact .inl hlt
      · exact .inr ⟨heq, le_of_not_gt fun hlt => hunder (.inr ⟨heq, hlt⟩)⟩
      · exact absurd (.inl hgt) hunder
    · exact h.least hz

/-! ## The level generator -/

theorem countLevels_le (left : Nat) (state : BitVec 64) : countLevels left state ≤ left := by
  induction left generalizing state with
  | zero => exact Nat.le_refl 0
  | succ left ih =>
    rw [countLevels]
    split
    · exact Nat.succ_le_succ (ih _)
    · exact Nat.zero_le _

theorem eq_zero_of_shiftLeft {w : Nat} {state : BitVec w} {k : Nat} (hk : 0 < k)
    (h : state ^^^ (state <<< k) = 0) : state = 0 := by
  have hfix : state = state <<< k := BitVec.xor_eq_zero_iff.mp h
  -- The lowest bit that is set would come from a lower one.
  have hbit (i : Nat) : state.getLsbD i = false := by
    induction i using Nat.strong_induction_on with
    | _ i ih =>
      rw [hfix, BitVec.getLsbD_shiftLeft]
      rcases Nat.lt_or_ge i k with hi | hi
      · simp [hi]
      · simp [ih (i - k) (by omega)]
  exact BitVec.eq_of_getLsbD_eq fun i _ => by simp [hbit]

theorem eq_zero_of_shiftRight {w : Nat} {state : BitVec w} {k : Nat} (hk : 0 < k)
    (h : state ^^^ (state >>> k) = 0) : state = 0 := by
  have hfix : state = state >>> k := BitVec.xor_eq_zero_iff.mp h
  have hnat : state.toNat = state.toNat / 2 ^ k := by
    rw [← Nat.shiftRight_eq_div_pow, ← BitVec.toNat_ushiftRight, ← hfix]
  by_contra hne
  have hpos : 0 < state.toNat := Nat.pos_of_ne_zero fun h0 => hne (BitVec.eq_of_toNat_eq (by simpa))
  have hlt := Nat.div_lt_self hpos (Nat.one_lt_two_pow (by omega : k ≠ 0))
  omega

theorem xorshift_ne_zero {state : BitVec 64} (h : state ≠ 0) : xorshift state ≠ 0 := by
  intro hzero
  have h₃ := eq_zero_of_shiftLeft (by decide) hzero
  have h₂ := eq_zero_of_shiftRight (by decide) h₃
  exact h (eq_zero_of_shiftLeft (by decide) h₂)

theorem nextLevel_spec {state : BitVec 64} (h : state ≠ 0) :
    (nextLevel state).1 ≤ 16 ∧ (nextLevel state).2 ≠ 0 :=
  ⟨countLevels_le 16 _, xorshift_ne_zero h⟩

end Heurema.Hnsw
