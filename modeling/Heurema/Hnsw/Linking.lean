import Heurema.Hnsw.Metric
import Heurema.Hnsw.Query

/-! # The links of a new node

An insertion joins the layers one after another and carries an entry from each
layer to the next. Where no node is near its degree limit, a link made at a layer
stays, so whether the new node is linked there depends on what the search of the
layer finds: nothing but the new node itself, when that is where it starts. -/

namespace Heurema.Hnsw

open HnswIndex (joinLayer joinLayers descend considerNewEntry)
open Outcome (Ensures)

section Linking

variable {Id : Type} [LinearOrder Id] {nodes nodes' : Nodes Id} {l budget : Nat} {a b x y : Id}
  {config : HnswConfig} {links : BTreeSet Id} {vector : List F32} [VectorMath]

/-! ## Links that stay -/

/-- A node within its limit is not pruned. -/
theorem prune_within (hlinks : layer nodes l a = some links)
    (hsize : links.size ≤ degreeLimit config l) : prune config nodes a l = .ok nodes := by
  obtain ⟨node, hnode, hlevel⟩ : ∃ node, nodes[a]? = some node ∧ node.neighbours[l]? = some links :=
    Option.bind_eq_some_iff.mp hlinks
  have hindex : (Outcome.index node.neighbours l : Run _) = .ok links :=
    Outcome.index_eq_ok_iff.mpr hlevel
  unfold prune
  simp only [hnode, hindex, Outcome.ok_bind]
  generalize hranked : links.toList.insertionSort (noFarther config nodes node.vector) = ranked
  have hperm : ranked.Perm links.toList := hranked ▸ List.perm_insertionSort _ _
  have hall : ranked.take (degreeLimit config l) = ranked := by
    refine List.take_of_length_le ?_
    rw [hperm.length_eq, Std.ExtTreeSet.length_toList]
    exact hsize
  have hkept : BTreeSet.ofList ranked = links := by
    refine Std.ExtTreeSet.ext_mem fun y => ?_
    rw [BTreeSet.mem_ofList, hperm.mem_iff, Std.ExtTreeSet.mem_toList]
  have hdropped : links.toList.filter (· ∉ links) = [] := by simp
  have hsame : nodes.insert a { node with neighbours := node.neighbours.set l links } = nodes := by
    refine BTreeMap.insert_lookup ?_
    obtain ⟨hlt, rfl⟩ := List.getElem?_eq_some_iff.mp hlevel
    rw [hnode, List.set_getElem_self hlt]
  rw [hall, hkept, hdropped, hsame, List.foldlM_nil, Outcome.pure_eq]

/-- Linking two nodes with room left adds the edge and drops none. -/
theorem link_room (hne : a ≠ b) {la lb : BTreeSet Id} (ha : layer nodes l a = some la)
    (hb : layer nodes l b = some lb) (hroom : (la.insert b).size ≤ degreeLimit config l)
    (hroom' : (lb.insert a).size ≤ degreeLimit config l) :
    Ensures (link config nodes a b l) fun nodes' => Relinked l nodes nodes' ∧
      ∀ x, layer nodes' l x =
        if b = x then some (lb.insert a) else if a = x then some (la.insert b) else layer nodes l x := by
  obtain ⟨between, joined, hfirst, hsecond, hmem, hr, hlayer⟩ := writes_spec hne ha hb
  have hreach : Reaches nodes l a := by simp [Reaches, ha]
  have hat : layer joined l a = some (la.insert b) := by
    rw [hlayer, if_neg hne.symm, if_pos rfl]
  have hat' : layer joined l b = some (lb.insert a) := by
    rw [hlayer, if_pos rfl]
  unfold link
  simp only [hne, hreach.mem, not_true, or_self, if_false, hfirst, hsecond, hmem,
    prune_within hat hroom, prune_within hat' hroom', Outcome.ok_bind, Outcome.pure_eq]
  exact .ok ⟨hr, hlayer⟩

/-- A run of links from a node with room for them all, to nodes with room for one. -/
theorem links_room (candidates : List Id) (hnodup : candidates.Nodup)
    (ha : layer nodes l a = some links)
    (hroom : links.size + candidates.length ≤ degreeLimit config l)
    (hreach : ∀ c ∈ candidates, Reaches nodes l c)
    (hspare : ∀ c ∈ candidates, c ≠ a → ∀ {there}, layer nodes l c = some there →
      there.size < degreeLimit config l) :
    Ensures (candidates.foldlM (fun nodes candidate => link config nodes a candidate l) nodes)
      fun nodes' => Relinked l nodes nodes' ∧ ∀ y, Linked nodes' l a y ↔
        y ∈ links ∨ (y ∈ candidates ∧ y ≠ a) := by
  induction candidates generalizing nodes links with
  | nil =>
    refine .ok ⟨.refl l nodes, fun y => ?_⟩
    rw [linked_iff ha]
    simp
  | cons c rest ih =>
    obtain ⟨hnew, hnodup⟩ := List.nodup_cons.mp hnodup
    rw [List.length_cons] at hroom
    rw [List.foldlM_cons]
    by_cases hne : a = c
    · have hself : link config nodes a c l = .ok nodes := by
        unfold link
        rw [if_pos (.inl hne), Outcome.pure_eq]
      rw [hself, Outcome.ok_bind]
      refine (ih hnodup ha (by omega) (fun c' hc' => hreach c' (List.mem_cons_of_mem _ hc'))
        fun c' hc' => hspare c' (List.mem_cons_of_mem _ hc')).mono ?_
      rintro nodes' ⟨hr, hlinked⟩
      refine ⟨hr, fun y => ?_⟩
      rw [hlinked, List.mem_cons]
      exact or_congr_right (and_congr_left fun hy => (or_iff_right fun h => hy (h.trans hne.symm)).symm)
    · obtain ⟨there, hthere⟩ := Option.isSome_iff_exists.mp (hreach c List.mem_cons_self)
      have hthereRoom := hspare c List.mem_cons_self (Ne.symm hne) hthere
      have hsize : (links.insert c).size ≤ links.size + 1 := Std.ExtTreeSet.size_insert_le
      have hsize' : (there.insert a).size ≤ there.size + 1 := Std.ExtTreeSet.size_insert_le
      refine (link_room hne ha hthere (by omega) (by omega)).bind ?_
      rintro next ⟨hr, hlayer⟩
      have hat : layer next l a = some (links.insert c) := by
        rw [hlayer, if_neg (Ne.symm hne), if_pos rfl]
      -- The other candidates are as they were.
      have hrest (c' : Id) (hc' : c' ∈ rest) (hca : c' ≠ a) : layer next l c' = layer nodes l c' := by
        have hcc : c ≠ c' := fun heq => hnew (heq ▸ hc')
        rw [hlayer, if_neg hcc, if_neg hca.symm]
      refine (ih hnodup hat (by omega)
        (fun c' hc' => (fixed_reaches hr.fixed).mpr (hreach c' (List.mem_cons_of_mem _ hc')))
        fun c' hc' hca _ hthere' => ?_).mono ?_
      · rw [hrest c' hc' hca] at hthere'
        exact hspare c' (List.mem_cons_of_mem _ hc') hca hthere'
      · rintro nodes' ⟨hr', hlinked⟩
        refine ⟨hr.trans hr', fun y => ?_⟩
        rw [hlinked, BTreeSet.mem_insert_iff, List.mem_cons]
        by_cases hyc : y = c
        · simp [hyc, Ne.symm hne]
        · simp [hyc]

/-! ## What the search of a layer finds -/

omit [VectorMath] in
theorem unvisited_onward {visited : BTreeSet Id} {found : List Id}
    (h : unvisited nodes l visited x = .ok found) : ∀ y ∈ found, Onward nodes l x y := by
  intro y hy
  unfold unvisited at h
  cases hx : nodes[x]? with
  | none =>
    rw [hx] at h
    cases h
    cases hy
  | some node =>
    rw [hx] at h
    obtain ⟨links, hindex, hfound⟩ := Outcome.bind_eq_ok.mp h
    cases hfound
    exact ⟨node, links, hx, Outcome.index_eq_ok_iff.mp hindex, List.mem_of_mem_filter hy⟩

/-- What is closed under the steps of a layer holds all that a search from within
it finds. -/
theorem searchLoop_within {P : Id → Prop} (hclosed : ∀ {x y}, P x → Onward nodes l x y → P y)
    {retained : Nat} {visited : BTreeSet Id} {frontier results found : List Id}
    (hfrontier : ∀ y ∈ frontier, P y) (hresults : ∀ y ∈ results, P y)
    (h : searchLoop config nodes vector l retained budget visited frontier results = .ok found) :
    ∀ y ∈ found, P y := by
  have hsorted {frontier rest : List Id} {current : Id} (hfrontier : ∀ y ∈ frontier, P y)
      (hf : frontier.insertionSort (noFarther config nodes vector) = current :: rest) :
      P current ∧ ∀ y ∈ rest, P y := by
    refine List.forall_mem_cons.mp fun y hy => hfrontier y ?_
    rwa [← hf, List.mem_insertionSort] at hy
  fun_induction searchLoop config nodes vector l retained budget visited frontier results with
  | case1 visited frontier results hf =>
    cases h
    exact hresults
  | case2 visited frontier results current rest hf hb hv ih =>
    exact ih (hsorted hfrontier hf).2 hresults h
  | case3 visited frontier results current rest hf hb hv hbreak =>
    cases h
    exact hresults
  | case4 visited frontier results current rest hf hb hv hbreak failure hu => cases h
  | case5 visited frontier results current rest hf hb hv hbreak grown kept found' hu ih =>
    obtain ⟨hcurrent, hrest⟩ := hsorted hfrontier hf
    refine ih (fun y hy => ?_) (fun y hy => ?_) h
    · rcases List.mem_append.mp hy with hy | hy
      · exact hrest y hy
      · exact hclosed hcurrent (unvisited_onward hu y hy)
    · have hgrown : y ∈ grown := by
        have hsub : kept.Sublist grown := by
          show (if _ then _ else _ : List Id).Sublist grown
          split
          · exact List.dropLast_sublist grown
          · exact List.Sublist.refl grown
        exact hsub.subset hy
      rw [List.mem_insertionSort, List.mem_append, List.mem_singleton] at hgrown
      rcases hgrown with hold | rfl
      · exact hresults y hold
      · exact hcurrent
  | case6 visited frontier results current rest hf hb =>
    cases h
    exact hresults

/-- A search that may expand one node finds the one it starts from. -/
theorem searchLayer_one (hx : Reaches nodes l x) :
    searchLayer config nodes vector [x] l 1 1 = .ok [x] := by
  have hspent {visited : BTreeSet Id} (frontier : List Id) (hvisited : ¬ visited.size < 1) :
      searchLoop config nodes vector l 1 1 visited frontier [x] = .ok [x] := by
    unfold searchLoop
    split
    · rfl
    · rw [dif_neg hvisited]
      rfl
  obtain ⟨found, hfound, -⟩ := unvisited_eq hx ((∅ : BTreeSet Id).insert x)
  unfold searchLayer searchLoop
  split
  · next hf => simp at hf
  · next current rest hf =>
    rw [List.insertionSort_cons, List.insertionSort_nil, List.orderedInsert_nil] at hf
    obtain ⟨rfl, rfl⟩ := List.cons.inj hf
    rw [dif_pos (by simp), dif_neg (by simp), if_neg (by simp)]
    split
    · next hu =>
      rw [hu] at hfound
      cases hfound
    · next hu =>
      refine hspent _ ?_
      rw [BTreeSet.size_insert_new (by simp)]
      exact Nat.not_lt.mpr (Nat.le_add_left 1 _)

/-- A search from a node with no way on finds that node. -/
theorem searchLayer_alone (hclosed : Closed nodes l) (hx : Reaches nodes l x)
    (hapart : ∀ {y}, ¬ Onward nodes l x y) (hbudget : 0 < budget) :
    searchLayer config nodes vector [x] l budget budget = .ok [x] := by
  have hsearch : Ensures (searchLayer config nodes vector [x] l budget budget)
      (Expanded nodes l x budget) := searchLayer_spec hclosed hx budget
  obtain ⟨found, hfound, hexpanded⟩ := hsearch
  have hall : ∀ y ∈ found, y = x :=
    searchLoop_within (fun {y z} hy hyz => (hapart (hy ▸ hyz)).elim) (by simp) (by simp) hfound
  have hlength : found.length ≤ 1 := by
    have hsub : found.Subperm [x] :=
      List.subperm_of_subset hexpanded.unique fun y hy => List.mem_singleton.mpr (hall y hy)
    exact hsub.length_le
  rw [hfound]
  rcases found with _ | ⟨y, _ | ⟨z, rest⟩⟩
  · rcases hexpanded.exhausted with hspent | ⟨hstart, -⟩
    · exact absurd hspent hbudget.ne
    · cases hstart
  · rw [hall y List.mem_cons_self]
  · simp at hlength

/-! ## One layer -/

/-- A search of a layer that comes to nothing but the new node. -/
def Barren (l budget : Nat) (id entry : Id) : Prop := entry = id ∧ (0 < l ∨ budget = 1)

omit [VectorMath] in
theorem mNeighbours_pos (h : validateConfig config = .ok ()) : 0 < config.mNeighbours := by
  rw [Nat.pos_iff_ne_zero]
  intro hzero
  rw [validateConfig, if_pos hzero] at h
  split at h
  · cases h
  · cases h

omit [VectorMath] in
theorem degreeLimit_pos (h : validateConfig config = .ok ()) (l : Nat) : 0 < degreeLimit config l := by
  have hm := mNeighbours_pos h
  have hlimit : 2 < usizeLimit := by decide
  unfold degreeLimit saturatingMul
  split <;> omega

omit [VectorMath] in
theorem two_le_degreeLimit (h : validateConfig config = .ok ()) : 2 ≤ degreeLimit config 0 := by
  have hm := mNeighbours_pos h
  have hlimit : 2 < usizeLimit := by decide
  rw [degreeLimit, if_pos rfl, saturatingMul]
  omega

omit [VectorMath] in
/-- Two distinct ids are not both the new one. -/
theorem exists_ne {ids : List Id} (hnodup : ids.Nodup) (hlength : 2 ≤ ids.length) (id : Id) :
    ∃ y ∈ ids, y ≠ id := by
  by_contra hnone
  have hall : ∀ y ∈ ids, y = id := by
    intro y hy
    by_contra hne
    exact hnone ⟨y, hy, hne⟩
  have hsub : ids.Subperm [id] :=
    List.subperm_of_subset hnodup fun y hy => List.mem_singleton.mpr (hall y hy)
  have hle := hsub.length_le
  rw [List.length_singleton] at hle
  omega

variable {id entry : Id} {candidates : List Id}

/-- Above the base layer a new node is apart from the others: a search from it
finds it alone, and a search from another never finds it. -/
theorem apart (hsymm : LayerSymm nodes l) (hl : 0 < l) (hid : layer nodes l id = some ∅)
    (hfound : searchLayer config nodes vector [entry] l budget budget = .ok candidates) :
    ∀ y ∈ candidates, y = id ↔ entry = id := by
  have hbare {y : Id} : ¬ Linked nodes l id y := by
    rw [linked_iff hid]
    exact Std.ExtTreeSet.not_mem_empty
  have hstep {x y : Id} (hxy : Onward nodes l x y) : x ≠ id ∧ y ≠ id := by
    obtain ⟨node, links, hnode, hlinks, hy⟩ := hxy
    have hy := (mem_onward.mp hy).resolve_right fun h => absurd h.1 hl.ne'
    have hlinked : Linked nodes l x y := ⟨links, by rw [layer, hnode, Option.bind_some, hlinks], hy⟩
    constructor
    · rintro rfl
      exact hbare hlinked
    · rintro rfl
      exact hbare (hsymm.symm hlinked)
  refine searchLoop_within (P := fun y => y = id ↔ entry = id) (fun {x y} hx hxy => ?_) ?_ ?_ hfound
  · have hne := hstep hxy
    exact iff_of_false hne.2 (hx.not.mp hne.1)
  · simp
  · simp

/-- Whether the search of a layer finds another node than the new one to link. -/
theorem exists_candidate (h : GraphOk config nodes) (hvalid : validateConfig config = .ok ())
    (hid : layer nodes l id = some ∅) (hentry : Reaches nodes l entry)
    (hother : ∃ y ∈ nodes, y ≠ id) (hbudget : 0 < budget)
    (hfound : searchLayer config nodes vector [entry] l budget budget = .ok candidates) :
    (∃ y ∈ candidates.take (degreeLimit config l), y ≠ id) ↔ ¬ Barren l budget id entry := by
  have hexpanded := (searchLayer_spec (h.closed l) hentry budget).of_eq hfound
  have hpos := degreeLimit_pos hvalid l
  have hsub := List.take_subset (degreeLimit config l) candidates
  rcases Nat.eq_zero_or_pos l with rfl | hl
  · have hbudgets : budget = 1 ∨ 2 ≤ budget := by omega
    rcases hbudgets with rfl | hmore
    · rw [searchLayer_one hentry] at hfound
      cases hfound
      rw [List.take_of_length_le hpos]
      simp [Barren]
    · -- Along the backbone the search comes to a second node.
      have hbarren : ¬ Barren 0 budget id entry := by
        rintro ⟨-, hbad | hbad⟩ <;> omega
      refine iff_of_true ?_ hbarren
      obtain ⟨y, hy, hne⟩ := hother
      have hmem : id ∈ nodes := Reaches.mem (l := 0) (by simp [Reaches, hid])
      have hsize : 2 ≤ nodes.size :=
        BTreeMap.length_le_size (l := [id, y]) (by simpa using hne.symm) (by simp [hmem, hy])
      have hlength := hexpanded.length_ge h hentry.mem
      have htwo := two_le_degreeLimit hvalid
      refine exists_ne (hexpanded.unique.sublist (List.take_sublist _ _)) ?_ id
      rw [List.length_take]
      omega
  · have happart := apart (h.layers l).toLayerSymm hl hid hfound
    have hbarren : Barren l budget id entry ↔ entry = id := and_iff_left (.inl hl)
    rw [hbarren]
    constructor
    · rintro ⟨y, hy, hne⟩ heq
      exact hne ((happart y (hsub hy)).mpr heq)
    · intro hne
      have hnonempty : candidates.take (degreeLimit config l) ≠ [] := by
        intro hnil
        have hcandidates : candidates = [] := (List.take_eq_nil_iff.mp hnil).resolve_left hpos.ne'
        rcases hexpanded.exhausted with hspent | ⟨hstart, -⟩
        · rw [hcandidates, List.length_nil] at hspent
          omega
        · rw [hcandidates] at hstart
          cases hstart
      obtain ⟨y, hy⟩ := List.exists_mem_of_ne_nil _ hnonempty
      exact ⟨y, hy, (happart y (hsub hy)).not.mpr hne⟩

/-- Room for one more link at the layer, at every node but one. -/
def Spare (config : HnswConfig) (nodes : Nodes Id) (l : Nat) (id : Id) : Prop :=
  ∀ {x : Id} {there : BTreeSet Id}, x ≠ id → layer nodes l x = some there →
    there.size < degreeLimit config l

/-- Joining one layer links the new node there unless its search is barren. -/
theorem joinLayer_links (h : GraphOk config nodes) (hvalid : validateConfig config = .ok ())
    (hid : layer nodes l id = some ∅) (hentry : Reaches nodes l entry)
    (hother : ∃ y ∈ nodes, y ≠ id) (hbudget : 0 < budget) (hspare : Spare config nodes l id)
    {joined : Nodes Id × Id}
    (hjoin : joinLayer config id vector budget nodes entry l = .ok joined) :
    (∃ y, Linked joined.1 l id y) ↔ ¬ Barren l budget id entry := by
  obtain ⟨candidates, hfound, hjoin⟩ := Outcome.bind_eq_ok.mp hjoin
  obtain ⟨linked, hlinks, hjoin⟩ := Outcome.bind_eq_ok.mp hjoin
  obtain ⟨next, hgreedy, hjoin⟩ := Outcome.bind_eq_ok.mp hjoin
  cases hjoin
  rw [← exists_candidate h hvalid hid hentry hother hbudget hfound]
  have hexpanded := (searchLayer_spec (h.closed l) hentry budget).of_eq hfound
  have hroom := links_room (candidates.take (degreeLimit config l))
    (hexpanded.unique.sublist (List.take_sublist _ _)) hid (by simp)
    (fun c hc => hexpanded.reaches c (List.mem_of_mem_take hc)) fun c _ hne _ => hspare hne
  obtain ⟨-, hlinked⟩ := hroom.of_eq hlinks
  simp only [hlinked, Std.ExtTreeSet.not_mem_empty, false_or]

/-! ## The layer loop -/

/-- The entry with which the layer loop, from layer `top` down, comes to layer `l`. -/
def arrive (config : HnswConfig) (id : Id) (vector : List F32) (budget : Nat) (nodes : Nodes Id)
    (entry : Id) (l : Nat) : Nat → Run Id
  | 0 => return entry
  | top + 1 =>
    if l < top + 1 then do
      let (nodes, entry) ← joinLayer config id vector budget nodes entry (top + 1)
      arrive config id vector budget nodes entry l top
    else return entry

/-- The loop leaves the layers above it as they are. -/
theorem joinLayers_above (top : Nat) (h : GraphOk config nodes) (hid : Reaches nodes top id)
    (hentry : Reaches nodes top entry) (hl : top < l)
    (hjoin : joinLayers config id vector budget nodes entry top = .ok nodes') :
    ∀ x, layer nodes' l x = layer nodes l x := by
  induction top generalizing nodes entry with
  | zero =>
    obtain ⟨joined, hjoined, hrest⟩ := Outcome.bind_eq_ok.mp hjoin
    cases hrest
    obtain ⟨hr, -, -⟩ := (joinLayer_spec h hid hentry vector budget).of_eq hjoined
    exact hr.others (by omega)
  | succ top ih =>
    obtain ⟨joined, hjoined, hrest⟩ := Outcome.bind_eq_ok.mp hjoin
    obtain ⟨hr, hgraph, hnext⟩ := (joinLayer_spec h hid hentry vector budget).of_eq hjoined
    have hid' := hgraph.reaches_down (Nat.le_succ top) ((fixed_reaches hr.fixed).mpr hid)
    intro x
    rw [ih hgraph hid' (hgraph.reaches_down (Nat.le_succ top) hnext) (by omega) hrest x]
    exact hr.others (by omega) x

/-- The loop links the new node at a layer unless it comes there with an entry
that makes the search barren. -/
theorem joinLayers_links (top : Nat) (h : GraphOk config nodes)
    (hvalid : validateConfig config = .ok ()) (hl : l ≤ top)
    (hid : ∀ j ≤ top, layer nodes j id = some ∅) (hentry : Reaches nodes top entry)
    (hother : ∃ y ∈ nodes, y ≠ id) (hbudget : 0 < budget) (hspare : Spare config nodes l id)
    (hjoin : joinLayers config id vector budget nodes entry top = .ok nodes') :
    Ensures (arrive config id vector budget nodes entry l top) fun arrived =>
      (∃ y, Linked nodes' l id y) ↔ ¬ Barren l budget id arrived := by
  have hreach : Reaches nodes top id := by simp [Reaches, hid top le_rfl]
  induction top generalizing nodes entry with
  | zero =>
    obtain rfl := Nat.le_zero.mp hl
    obtain ⟨joined, hjoined, hrest⟩ := Outcome.bind_eq_ok.mp hjoin
    cases hrest
    exact .ok (joinLayer_links h hvalid (hid 0 le_rfl) hentry hother hbudget hspare hjoined)
  | succ top ih =>
    obtain ⟨joined, hjoined, hrest⟩ := Outcome.bind_eq_ok.mp hjoin
    obtain ⟨hr, hgraph, hnext⟩ := (joinLayer_spec h hreach hentry vector budget).of_eq hjoined
    have hid' {j : Nat} (hj : j ≤ top) : layer joined.1 j id = some ∅ := by
      rw [hr.others (by omega), hid j (by omega)]
    have hreach' : Reaches joined.1 top id := by simp [Reaches, hid' le_rfl]
    have hnext' := hgraph.reaches_down (Nat.le_succ top) hnext
    rw [arrive]
    by_cases hlt : l < top + 1
    · rw [if_pos hlt, hjoined, Outcome.ok_bind]
      refine ih hgraph (Nat.lt_succ_iff.mp hlt) (fun j hj => hid' hj) hnext' ?_ ?_ hrest hreach'
      · obtain ⟨y, hy, hne⟩ := hother
        exact ⟨y, (fixed_mem hr.fixed).mpr hy, hne⟩
      · intro x there hx hthere
        rw [hr.others (by omega)] at hthere
        exact hspare hx hthere
    · obtain rfl : l = top + 1 := by omega
      rw [if_neg hlt]
      have hkept := joinLayers_above top hgraph hreach' hnext' (Nat.lt_succ_self top) hrest
      have hlinked (y : Id) : Linked nodes' (top + 1) id y ↔ Linked joined.1 (top + 1) id y := by
        rw [Linked, hkept, Linked]
      simp only [hlinked]
      exact .ok (joinLayer_links h hvalid (hid _ le_rfl) hentry hother hbudget hspare hjoined)

end Linking

end Heurema.Hnsw
