import Heurema.Hnsw.Graph

/-! # Link and prune

Every rewrite of a layer is a few calls of `setLinks`. A link adds an edge with
its reciprocal and pruning drops edges from both ends, so a layer stays
symmetric, and within its degree limit whenever it was so before. -/

namespace Heurema.Hnsw

open Outcome (Ensures)

variable {Id : Type} [LinearOrder Id] {nodes nodes' : Nodes Id} {l : Nat} {a b x y : Id}
  {links : BTreeSet Id} {config : HnswConfig}

/-- Replaces the links of `x` at layer `l`. -/
def setLinks (nodes : Nodes Id) (x : Id) (l : Nat) (links : BTreeSet Id) : Nodes Id :=
  nodes.modify x fun node => { node with neighbours := node.neighbours.set l links }

theorem setLinks_relinked (nodes : Nodes Id) (x : Id) (l : Nat) (links : BTreeSet Id) :
    Relinked l nodes (setLinks nodes x l links) := by
  refine ⟨BTreeMap.ext_lookup fun y => ?_, fun {l'} hl y => ?_⟩
  · rw [fixed_lookup, fixed_lookup, setLinks, BTreeMap.getElem?_modify_ite]
    split
    · next h => subst h; cases nodes[x]? <;> simp
    · rfl
  · rw [layer, layer, setLinks, BTreeMap.getElem?_modify_ite]
    split
    · next h =>
      subst h
      cases nodes[x]? with
      | none => rfl
      | some node => simp [List.getElem?_set_ne (Ne.symm hl)]
    · rfl

theorem layer_setLinks (h : Reaches nodes l x) (y : Id) :
    layer (setLinks nodes x l links) l y = if x = y then some links else layer nodes l y := by
  rw [layer, setLinks, BTreeMap.getElem?_modify_ite]
  split
  · next heq =>
    subst heq
    unfold Reaches layer at h
    cases hx : nodes[x]? with
    | none => simp [hx] at h
    | some node =>
      have hlen : l < node.neighbours.length := by simpa [hx] using h
      simp [hlen]
  · rfl

theorem modifyLinks_eq (h : layer nodes l x = some links) (f : BTreeSet Id → BTreeSet Id) :
    modifyLinks nodes x l f = .ok (setLinks nodes x l (f links)) := by
  unfold layer at h
  unfold modifyLinks setLinks
  cases hx : nodes[x]? with
  | none => simp [hx] at h
  | some node =>
    have hindex : (Outcome.index node.neighbours l : Run _) = .ok links :=
      Outcome.index_eq_ok_iff.mpr (by simpa [hx] using h)
    simp only [hindex, Outcome.ok_bind, Outcome.pure_eq]
    congr 1
    apply BTreeMap.ext_lookup
    intro y
    rw [BTreeMap.getElem?_insert_ite, BTreeMap.getElem?_modify_ite, hx]
    rfl

/-- Takes one id out of the links of several nodes. -/
theorem eraseLinks_spec (others : List Id) (a : Id) (h : ∀ other ∈ others, Reaches nodes l other) :
    Ensures (others.foldlM (fun nodes other => modifyLinks nodes other l (·.erase a)) nodes)
      fun nodes' => Relinked l nodes nodes' ∧ ∀ x, layer nodes' l x =
        (layer nodes l x).map fun links => if x ∈ others then links.erase a else links := by
  induction others generalizing nodes with
  | nil => exact .ok ⟨.refl l nodes, fun x => by simp⟩
  | cons other rest ih =>
    obtain ⟨links, hlinks⟩ := Option.isSome_iff_exists.mp (h other (by simp))
    have hr := setLinks_relinked nodes other l (links.erase a)
    have hreach : ∀ o ∈ rest, Reaches (setLinks nodes other l (links.erase a)) l o := fun o ho =>
      (fixed_reaches hr.fixed).mpr (h o (List.mem_cons_of_mem _ ho))
    rw [List.foldlM_cons, modifyLinks_eq hlinks, Outcome.ok_bind]
    refine (ih hreach).mono ?_
    rintro nodes' ⟨hr', hlayer⟩
    refine ⟨hr.trans hr', fun x => ?_⟩
    rw [hlayer, layer_setLinks (h other (by simp))]
    by_cases hx : other = x
    · subst hx
      have htwice : (links.erase a).erase a = links.erase a := BTreeSet.erase_absent (by simp)
      by_cases hrest : other ∈ rest <;> simp [hlinks, hrest, htwice]
    · simp [hx, Ne.symm hx]

/-- Fewer edges leave no node with more links. -/
theorem size_le_of_linked {links' : BTreeSet Id}
    (h : ∀ {y}, Linked nodes' l x y → Linked nodes l x y) (hl : layer nodes l x = some links)
    (hl' : layer nodes' l x = some links') : links'.size ≤ links.size :=
  BTreeSet.size_le_of_subset fun _ hy =>
    (linked_iff hl).mp (h ((linked_iff hl').mpr hy))

/-! ## Layers with links to a departed node -/

/-- The layer is sound but for the links that still lead to `a`, which has left
the table; exactly `links` lead there. -/
structure Dangling (config : HnswConfig) (nodes : Nodes Id) (l : Nat) (a : Id)
    (links : BTreeSet Id) : Prop where
  gone : a ∉ nodes
  toward : ∀ {x}, Linked nodes l x a ↔ x ∈ links
  irrefl : ∀ x, ¬ Linked nodes l x x
  symm : ∀ {x y}, y ≠ a → Linked nodes l x y → Linked nodes l y x
  degree : ∀ {x : Id} {links : BTreeSet Id}, layer nodes l x = some links →
    links.size ≤ degreeLimit config l

/-- Erasing the links to the departed node leaves a sound layer. -/
theorem Dangling.erased (h : Dangling config nodes l a links) (hr : Relinked l nodes nodes')
    (hlayer : ∀ x, layer nodes' l x = (layer nodes l x).map fun there =>
      if x ∈ links.toList then there.erase a else there) : LayerOk config nodes' l := by
  have hlinked {x y : Id} : Linked nodes' l x y ↔ Linked nodes l x y ∧ y ≠ a := by
    have htoward := h.toward (x := x)
    unfold Linked at htoward ⊢
    rw [hlayer]
    cases hx : layer nodes l x with
    | none => simp
    | some there =>
      simp only [hx, Option.some.injEq, exists_eq_left'] at htoward
      simp only [Std.ExtTreeSet.mem_toList, Option.map_some, Option.some.injEq, exists_eq_left',
        ← htoward]
      split
      · rw [BTreeSet.mem_erase_iff, and_comm]
      · next hno => exact ⟨fun hy => ⟨hy, fun heq => hno (heq ▸ hy)⟩, And.left⟩
  refine ⟨⟨fun x hx => h.irrefl x (hlinked.mp hx).1, fun {x y} hxy => ?_⟩, fun {x links'} hx' => ?_⟩
  · obtain ⟨hold, hy⟩ := hlinked.mp hxy
    refine hlinked.mpr ⟨h.symm hy hold, fun hx => ?_⟩
    exact h.gone (hx ▸ hold.reaches.mem)
  · have hreach : Reaches nodes' l x := by simp [Reaches, hx']
    obtain ⟨there, hx⟩ := Option.isSome_iff_exists.mp ((fixed_reaches hr.fixed).mp hreach)
    exact (size_le_of_linked (fun hxy => (hlinked.mp hxy).1) hx hx').trans (h.degree hx)

/-- A layer no link of which leads to the departed node is sound. -/
theorem Dangling.sound (h : Dangling config nodes l a ∅) : LayerOk config nodes l :=
  h.erased (.refl l nodes) fun x => by simp

theorem Dangling.relinked {l' : Nat} (h : Dangling config nodes l' a links)
    (hr : Relinked l nodes nodes') (hl : l' ≠ l) : Dangling config nodes' l' a links := by
  have hlayer := hr.others hl
  have hlinked (x y : Id) : Linked nodes' l' x y ↔ Linked nodes l' x y := by
    simp [Linked, hlayer]
  refine ⟨fun hmem => h.gone ((fixed_mem hr.fixed).mp hmem), fun {x} => ?_, fun x => ?_,
    fun hy hxy => ?_, fun hx => h.degree (by rwa [hlayer] at hx)⟩
  · rw [hlinked]
    exact h.toward
  · rw [hlinked]
    exact h.irrefl x
  · rw [hlinked] at hxy ⊢
    exact h.symm hy hxy

/-! ## The link operations -/

/-- The two writes of a link, before any pruning. -/
theorem writes_spec (hne : a ≠ b) {la lb : BTreeSet Id} (hla : layer nodes l a = some la)
    (hlb : layer nodes l b = some lb) : ∃ between joined : Nodes Id,
      modifyLinks nodes a l (·.insert b) = .ok between ∧
      modifyLinks between b l (·.insert a) = .ok joined ∧ b ∈ between ∧
      Relinked l nodes joined ∧ ∀ x, layer joined l x =
        if b = x then some (lb.insert a) else if a = x then some (la.insert b) else layer nodes l x := by
  have ha : Reaches nodes l a := by simp [Reaches, hla]
  have hb : Reaches nodes l b := by simp [Reaches, hlb]
  have hr := setLinks_relinked nodes a l (la.insert b)
  have hb' := (fixed_reaches hr.fixed).mpr hb
  have hlb' : layer (setLinks nodes a l (la.insert b)) l b = some lb := by
    rw [layer_setLinks ha, if_neg hne, hlb]
  have hr' := setLinks_relinked (setLinks nodes a l (la.insert b)) b l (lb.insert a)
  refine ⟨_, _, modifyLinks_eq hla _, modifyLinks_eq hlb' _, hb'.mem, hr.trans hr', fun x => ?_⟩
  rw [layer_setLinks hb', layer_setLinks ha]

/-- The writes add one edge and its reciprocal. -/
theorem join_spec (hsymm : LayerSymm nodes l) (hne : a ≠ b) (ha : Reaches nodes l a)
    (hb : Reaches nodes l b) : ∃ between joined : Nodes Id,
      modifyLinks nodes a l (·.insert b) = .ok between ∧
      modifyLinks between b l (·.insert a) = .ok joined ∧ b ∈ between ∧
      Relinked l nodes joined ∧ LayerSymm joined l ∧
      ∀ x, x ≠ a → x ≠ b → layer joined l x = layer nodes l x := by
  obtain ⟨la, hla⟩ := Option.isSome_iff_exists.mp ha
  obtain ⟨lb, hlb⟩ := Option.isSome_iff_exists.mp hb
  obtain ⟨between, joined, hfirst, hsecond, hmem, hr, hlayer⟩ := writes_spec hne hla hlb
  have hlinked {x y : Id} : Linked joined l x y ↔
      Linked nodes l x y ∨ (x = a ∧ y = b) ∨ (x = b ∧ y = a) := by
    unfold Linked
    rw [hlayer]
    by_cases hxb : b = x
    · subst hxb
      simp only [if_true, Option.some.injEq, exists_eq_left', BTreeSet.mem_insert_iff, hlb,
        Ne.symm hne, false_and, true_and, false_or]
      exact or_comm
    · by_cases hxa : a = x
      · subst hxa
        simp only [hxb, if_false, if_true, Option.some.injEq, exists_eq_left',
          BTreeSet.mem_insert_iff, hla, hne, false_and, true_and, or_false]
        exact or_comm
      · simp [hxb, hxa, Ne.symm hxb, Ne.symm hxa]
  refine ⟨between, joined, hfirst, hsecond, hmem, hr, ⟨fun x => ?_, fun {x y} hxy => ?_⟩,
    fun x hxa hxb => ?_⟩
  · rw [hlinked]
    rintro (h | ⟨rfl, rfl⟩ | ⟨rfl, rfl⟩)
    · exact hsymm.irrefl x h
    · exact hne rfl
    · exact hne rfl
  · rw [hlinked] at hxy ⊢
    rcases hxy with h | ⟨hx, hy⟩ | ⟨hx, hy⟩
    · exact .inl (hsymm.symm h)
    · exact .inr (.inr ⟨hy, hx⟩)
    · exact .inr (.inl ⟨hy, hx⟩)
  · rw [hlayer, if_neg (Ne.symm hxb), if_neg (Ne.symm hxa)]

section Prune

variable [VectorMath]

/-- Pruning drops edges of one node, each from both its ends, until the node is
within its limit. -/
theorem prune_spec (hsymm : LayerSymm nodes l) (ha : Reaches nodes l a) :
    Ensures (prune config nodes a l) fun nodes' => Relinked l nodes nodes' ∧
      LayerSymm nodes' l ∧ (∀ {x y}, Linked nodes' l x y → Linked nodes l x y) ∧
      ∀ {links}, layer nodes' l a = some links → links.size ≤ degreeLimit config l := by
  obtain ⟨links, hlinks⟩ := Option.isSome_iff_exists.mp ha
  obtain ⟨node, hnode⟩ := mem_nodes.mp ha.mem
  have hindex : (Outcome.index node.neighbours l : Run _) = .ok links :=
    Outcome.index_eq_ok_iff.mpr (by simpa [layer, hnode] using hlinks)
  unfold prune
  simp only [hnode, hindex, Outcome.ok_bind]
  -- Name what is kept and what is dropped.
  generalize hranked : links.toList.insertionSort (noFarther config nodes node.vector) = ranked
  generalize hkept : BTreeSet.ofList (ranked.take (degreeLimit config l)) = kept
  have hsub : ∀ y ∈ kept, y ∈ links := by
    intro y hy
    rw [← hkept, BTreeSet.mem_ofList] at hy
    have hmem := (List.take_sublist _ ranked).subset hy
    rw [← hranked, List.mem_insertionSort] at hmem
    simpa using hmem
  have hsize : kept.size ≤ degreeLimit config l := by
    rw [← hkept]
    exact (BTreeSet.size_ofList_le _).trans (List.length_take_le _ _)
  have hinsert : nodes.insert a { node with neighbours := node.neighbours.set l kept } =
      setLinks nodes a l kept := by
    have := modifyLinks_eq hlinks fun _ => kept
    simpa [modifyLinks, hnode, hindex] using this
  rw [hinsert]
  have hr := setLinks_relinked nodes a l kept
  have hdropped : ∀ other ∈ links.toList.filter (· ∉ kept),
      Reaches (setLinks nodes a l kept) l other := by
    intro other hother
    have hmem : other ∈ links := by simpa using (List.mem_filter.mp hother).1
    exact (fixed_reaches hr.fixed).mpr (hsymm.reaches ((linked_iff hlinks).mpr hmem))
  refine (eraseLinks_spec _ a hdropped).mono ?_
  rintro nodes' ⟨hr', hlayer⟩
  have hself : a ∉ links := fun hmem => hsymm.irrefl a ((linked_iff hlinks).mpr hmem)
  have hat : layer nodes' l a = some kept := by
    rw [hlayer, layer_setLinks ha]
    simp [hself]
  -- Elsewhere an edge survives unless it leads back from a dropped node.
  have haway {x y : Id} (hx : x ≠ a) : Linked nodes' l x y ↔
      Linked nodes l x y ∧ (x ∈ links → x ∉ kept → y ≠ a) := by
    unfold Linked
    rw [hlayer, layer_setLinks ha, if_neg (Ne.symm hx)]
    cases layer nodes l x with
    | none => simp
    | some there =>
      by_cases hd : x ∈ links ∧ x ∉ kept
      · simp only [Std.ExtTreeSet.mem_toList, List.mem_filter, decide_eq_true_eq, Option.map_some,
          if_pos hd, Option.some.injEq, exists_eq_left', BTreeSet.mem_erase_iff]
        exact ⟨fun h => ⟨h.2, fun _ _ => h.1⟩, fun h => ⟨h.2 hd.1 hd.2, h.1⟩⟩
      · have hstay : x ∈ links → x ∈ kept := fun hm => by_contra fun hn => hd ⟨hm, hn⟩
        have hno : ¬ (x ∈ links ∧ x ∉ kept) := hd
        simp only [Std.ExtTreeSet.mem_toList, List.mem_filter, decide_eq_true_eq, Option.map_some,
          if_neg hno, Option.some.injEq, exists_eq_left']
        exact ⟨fun hy => ⟨hy, fun hm hn => absurd (hstay hm) hn⟩, And.left⟩
  refine ⟨hr.trans hr', ⟨fun x => ?_, fun {x y} hxy => ?_⟩, fun {x y} hxy => ?_, fun hls => ?_⟩
  · by_cases hx : x = a
    · subst hx
      rw [linked_iff hat]
      exact fun hmem => hself (hsub _ hmem)
    · rw [haway hx]
      exact fun h => hsymm.irrefl x h.1
  · by_cases hx : x = a
    · subst hx
      have hy := (linked_iff hat).mp hxy
      have hne : y ≠ x := fun heq => hself (heq ▸ hsub y hy)
      exact (haway hne).mpr
        ⟨hsymm.symm ((linked_iff hlinks).mpr (hsub y hy)), fun _ hn => absurd hy hn⟩
    · obtain ⟨hold, hback⟩ := (haway hx).mp hxy
      by_cases hy : y = a
      · subst hy
        have hmem := (linked_iff hlinks).mp (hsymm.symm hold)
        exact (linked_iff hat).mpr (by_contra fun hn => hback hmem hn rfl)
      · exact (haway hy).mpr ⟨hsymm.symm hold, fun _ _ => hx⟩
  · by_cases hx : x = a
    · subst hx
      exact (linked_iff hlinks).mpr (hsub y ((linked_iff hat).mp hxy))
    · exact ((haway hx).mp hxy).1
  · rw [hat] at hls
    cases hls
    exact hsize

/-- Linking two nodes that reach a sound layer keeps it sound. -/
theorem link_spec (h : LayerOk config nodes l) (ha : Reaches nodes l a) (hb : Reaches nodes l b) :
    Ensures (link config nodes a b l) fun nodes' =>
      Relinked l nodes nodes' ∧ LayerOk config nodes' l := by
  unfold link
  by_cases hne : a = b
  · simpa [hne] using Ensures.ok ⟨Relinked.refl l nodes, h⟩
  obtain ⟨between, joined, hfirst, hsecond, hmem, hr, hsymm, hsame⟩ :=
    join_spec h.toLayerSymm hne ha hb
  simp only [hne, ha.mem, not_true, or_self, if_false, hfirst, hsecond, hmem, Outcome.ok_bind,
    Outcome.pure_eq]
  refine (prune_spec hsymm ((fixed_reaches hr.fixed).mpr ha)).bind ?_
  rintro mid ⟨hr₁, hsymm₁, hsub₁, hlimit₁⟩
  refine (prune_spec hsymm₁ ((fixed_reaches (hr.trans hr₁).fixed).mpr hb)).mono ?_
  rintro nodes' ⟨hr₂, hsymm₂, hsub₂, hlimit₂⟩
  have hrall := (hr.trans hr₁).trans hr₂
  refine ⟨hrall, hsymm₂, fun {x links'} hx' => ?_⟩
  have hreach : Reaches nodes' l x := by simp [Reaches, hx']
  obtain ⟨links₁, hx₁⟩ := Option.isSome_iff_exists.mp ((fixed_reaches hr₂.fixed).mp hreach)
  by_cases hxb : x = b
  · subst hxb
    exact hlimit₂ hx'
  · have hle₂ := size_le_of_linked hsub₂ hx₁ hx'
    by_cases hxa : x = a
    · subst hxa
      exact hle₂.trans (hlimit₁ hx₁)
    · -- No write of the link itself touched this node.
      obtain ⟨links, hx⟩ := Option.isSome_iff_exists.mp ((fixed_reaches hrall.fixed).mp hreach)
      have hle₁ := size_le_of_linked hsub₁ ((hsame x hxa hxb).trans hx) hx₁
      exact hle₂.trans (hle₁.trans (h.degree hx))

/-- A run of links from one node keeps a sound layer sound. -/
theorem links_spec (candidates : List Id) (h : LayerOk config nodes l) (ha : Reaches nodes l a)
    (hc : ∀ c ∈ candidates, Reaches nodes l c) :
    Ensures (candidates.foldlM (fun nodes candidate => link config nodes a candidate l) nodes)
      fun nodes' => Relinked l nodes nodes' ∧ LayerOk config nodes' l := by
  refine Ensures.foldlM ⟨.refl l nodes, h⟩ ?_
  rintro current candidate hmem ⟨hr, hok⟩
  refine (link_spec hok ((fixed_reaches hr.fixed).mpr ha)
    ((fixed_reaches hr.fixed).mpr (hc candidate hmem))).mono fun _ ⟨hr', hok'⟩ => ?_
  exact ⟨hr.trans hr', hok'⟩

theorem reconnect_spec (neighbours : List Id)
    (hshape : ∀ {x : Id} {node : Node Id}, nodes[x]? = some node → WellShaped config node)
    (h : LayerOk config nodes l) : Ensures (reconnect config l nodes neighbours) fun nodes' =>
      Relinked l nodes nodes' ∧ LayerOk config nodes' l := by
  induction neighbours generalizing nodes with
  | nil => exact .ok ⟨.refl l nodes, h⟩
  | cons left rest ih =>
    rw [reconnect]
    have hinner : Ensures (rest.foldlM (reconnectPair config l left) nodes) fun nodes' =>
        Relinked l nodes nodes' ∧ LayerOk config nodes' l := by
      refine Ensures.foldlM ⟨.refl l nodes, h⟩ fun current right _ ⟨hr, hok⟩ => ?_
      unfold reconnectPair
      split
      · next hboth =>
        have hreach {x : Id} (hx : (current[x]?.any fun node => decide (l ≤ node.level)) = true) :
            Reaches current l x := by
          obtain ⟨node, hnode, hlevel⟩ := (Option.any_eq_true _ _).mp hx
          exact ((fixed_shape hr.fixed hshape hnode).reaches hnode).mpr (by simpa using hlevel)
        refine (link_spec hok (hreach hboth.1) (hreach hboth.2)).mono fun _ ⟨hr', hok'⟩ => ?_
        exact ⟨hr.trans hr', hok'⟩
      · exact .ok ⟨hr, hok⟩
    refine hinner.bind ?_
    rintro mid ⟨hr, hok⟩
    refine (ih (fun hx => fixed_shape hr.fixed hshape hx) hok).mono fun _ ⟨hr', hok'⟩ => ?_
    exact ⟨hr.trans hr', hok'⟩

/-- Detaching a departed node layer by layer: the layers below the current one
are sound, and those from it on still hold the links the node had there. -/
theorem detachLayers_spec (layers : List (BTreeSet Id)) (level : Nat)
    (hshape : ∀ {x : Id} {node : Node Id}, nodes[x]? = some node → WellShaped config node)
    (hbelow : ∀ l < level, LayerOk config nodes l)
    (hfrom : ∀ l, Dangling config nodes (level + l) a (layers[l]?.getD ∅)) :
    Ensures (detachLayers config a level nodes layers) fun nodes' =>
      fixed nodes' = fixed nodes ∧ ∀ l, LayerOk config nodes' l := by
  induction layers generalizing level nodes with
  | nil =>
    refine .ok ⟨rfl, fun l => ?_⟩
    rcases Nat.lt_or_ge l level with hl | hl
    · exact hbelow l hl
    · have := hfrom (l - level)
      rw [Nat.add_sub_cancel' hl] at this
      exact Dangling.sound this
  | cons links rest ih =>
    rw [detachLayers]
    have hhere : Dangling config nodes level a links := by simpa using hfrom 0
    have hreach : ∀ other ∈ links.toList, Reaches nodes level other := fun other hmem =>
      (hhere.toward.mpr (by simpa using hmem)).reaches
    refine (eraseLinks_spec links.toList a hreach).bind ?_
    rintro mid ⟨hr, hlayer⟩
    have hok := hhere.erased hr hlayer
    refine (reconnect_spec links.toList (fun hx => fixed_shape hr.fixed hshape hx) hok).bind
      fun next ⟨hr', hok'⟩ => ?_
    have hrall := hr.trans hr'
    refine (ih (level + 1) (fun hx => fixed_shape hrall.fixed hshape hx) (fun l hl => ?_)
      fun l => ?_).mono fun nodes' ⟨hfixed, hlayers⟩ => ⟨hfixed.trans hrall.fixed, hlayers⟩
    · rcases Nat.lt_or_eq_of_le (Nat.lt_succ_iff.mp hl) with hl | rfl
      · exact (hbelow l hl).relinked hrall (by omega)
      · exact hok'
    · have := hfrom (l + 1)
      rw [List.getElem?_cons_succ] at this
      rw [show level + 1 + l = level + (l + 1) by omega]
      exact this.relinked hrall (by omega)

end Prune

end Heurema.Hnsw
