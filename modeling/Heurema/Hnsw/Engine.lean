import Heurema.Data.TreeMap
import Heurema.Error
import Mathlib.Data.List.Sort

/-! # The HNSW engine

The graph as the code keeps it and every operation on it. A function that only
reads or rewrites the node table takes the table; an index into a node's layer
list or into the table panics when it is out of range, as in the code. -/

namespace Heurema.Hnsw

inductive VectorDistance where
  | l2
  | cosine
  | innerProduct
deriving DecidableEq, Repr

/-- The parameters of an index; the numbers are `usize`. -/
structure HnswConfig where
  dimensions : Nat
  distance : VectorDistance
  efConstruction : Nat
  mNeighbours : Nat
  fits : dimensions < usizeLimit ∧ efConstruction < usizeLimit ∧ mNeighbours < usizeLimit := by
    decide
deriving DecidableEq

/-- The floating-point computations of the engine. -/
class VectorMath where
  /-- The `f64` distance of two vectors under a metric. -/
  distance : VectorDistance → List F32 → List F32 → F64
  /-- `as f32`. -/
  narrow : F64 → F32
  /-- The `Display` form of an `f64`. -/
  display : F64 → String

structure Node (Id : Type) [LinearOrder Id] where
  vector : List F32
  level : Nat
  neighbours : List (BTreeSet Id)
  /-- The base-layer cycle, kept apart from the links that pruning may drop. -/
  backbone : BTreeSet Id
deriving DecidableEq

abbrev Nodes (Id : Type) [LinearOrder Id] := BTreeMap Id (Node Id)

structure HnswIndex (Id : Type) [LinearOrder Id] where
  config : HnswConfig
  nodes : Nodes Id
  entryPoint : Option Id
  maxLevel : Nat
  levelState : BitVec 64
deriving DecidableEq

/-- The fields of a snapshot before they are checked against each other. -/
structure RawHnswIndex (Id : Type) [LinearOrder Id] where
  config : HnswConfig
  nodes : Nodes Id
  entryPoint : Option Id
  maxLevel : Nat
  levelState : BitVec 64
deriving DecidableEq

/-! ## Configurations and vectors -/

def validateConfig (config : HnswConfig) : Except String Unit :=
  if config.dimensions = 0 then .error "dimensions must be non-zero"
  else if config.mNeighbours = 0 then .error "m_neighbours must be non-zero"
  else if config.efConstruction = 0 then .error "ef_construction must be non-zero"
  else .ok ()

def checkConfig (config : HnswConfig) : Except HeuremaError Unit :=
  match validateConfig config with
  | .ok () => .ok ()
  | .error reason => .error (.invalidHnswConfig reason)

def checkFinite (vector : List F32) : Except HeuremaError Unit :=
  if vector.all F32.isFinite then .ok ()
  else .error (.invalidVector "all components must be finite")

/-- Every check a vector passes before it enters or queries a graph. -/
def checkVector (config : HnswConfig) (vector : List F32) : Except HeuremaError Unit := do
  checkConfig config
  if vector.length ≠ config.dimensions then
    .error (.dimensionMismatch config.dimensions vector.length)
  else checkFinite vector

/-- `usize::saturating_mul`. -/
def saturatingMul (a b : Nat) : Nat := min (a * b) (usizeLimit - 1)

def degreeLimit (config : HnswConfig) (level : Nat) : Nat :=
  if level = 0 then saturatingMul config.mNeighbours 2 else config.mNeighbours

/-! ## Levels and the entry point -/

/-- The highest level of a table, 0 when it is empty. -/
def highestLevel {Id : Type} [LinearOrder Id] (nodes : Nodes Id) : Nat :=
  (nodes.toList.map fun entry => entry.2.level).max?.getD 0

/-- The lowest id among the nodes of the highest level. -/
def selectEntry {Id : Type} [LinearOrder Id] (nodes : Nodes Id) : Option Id :=
  let maxLevel := highestLevel nodes
  ((nodes.toList.filter fun entry => entry.2.level = maxLevel).map Prod.fst).head?

/-- The xorshift step of the level generator. -/
def xorshift (state : BitVec 64) : BitVec 64 :=
  let state := state ^^^ (state <<< 13)
  let state := state ^^^ (state >>> 7)
  state ^^^ (state <<< 17)

/-- Counts pairs of trailing zero bits, up to the levels left. -/
def countLevels : Nat → BitVec 64 → Nat
  | 0, _ => 0
  | left + 1, state =>
    if state &&& 3#64 = 0#64 then countLevels left (state.rotateRight 2) + 1 else 0

/-- The level drawn, and the generator's next state. -/
def nextLevel (levelState : BitVec 64) : Nat × BitVec 64 :=
  let levelState := xorshift levelState
  (countLevels 16 levelState, levelState)

section Graph

variable {Id : Type} [LinearOrder Id]

/-! ## Writing to one node -/

/-- Applies `f` to the links of `id` at `level`, when there is such a node. -/
def modifyLinks (nodes : Nodes Id) (id : Id) (level : Nat) (f : BTreeSet Id → BTreeSet Id) :
    Run (Nodes Id) :=
  match nodes[id]? with
  | none => return nodes
  | some node => do
    let links ← Outcome.index node.neighbours level
    return nodes.insert id { node with neighbours := node.neighbours.set level (f links) }

def modifyBackbone (nodes : Nodes Id) (id : Id) (f : BTreeSet Id → BTreeSet Id) : Nodes Id :=
  nodes.modify id fun node => { node with backbone := f node.backbone }

/-! ## Distances and searches -/

/-- Where a search at `level` goes on from a node, given its links there: on
the base layer also along the backbone. -/
def onward (level : Nat) (node : Node Id) (links : BTreeSet Id) : List Id :=
  links.toList ++ if level = 0 then node.backbone.toList else []

/-- The neighbours of `id` that a search at `level` has yet to visit. -/
def unvisited (nodes : Nodes Id) (level : Nat) (visited : BTreeSet Id) (id : Id) : Run (List Id) :=
  match nodes[id]? with
  | none => return []
  | some node => do
    let links ← Outcome.index node.neighbours level
    return (onward level node links).filter (· ∉ visited)

/-- More than any one expansion at `level` adds to the frontier. -/
def breadth (nodes : Nodes Id) (level : Nat) : Nat :=
  BTreeMap.sumBy (fun node => (onward level node (node.neighbours[level]?.getD ∅)).length) nodes + 1

theorem unvisited_length {nodes : Nodes Id} {level : Nat} {visited : BTreeSet Id} {id : Id}
    {found : List Id} (h : unvisited nodes level visited id = .ok found) :
    found.length < breadth nodes level := by
  unfold unvisited at h
  split at h
  · cases h
    exact Nat.succ_pos _
  · next node hnode =>
    obtain ⟨links, hlinks, h⟩ := Outcome.bind_eq_ok.mp h
    cases h
    have hle := BTreeMap.le_sumBy
      (fun node => (onward level node (node.neighbours[level]?.getD ∅)).length) hnode
    have hlevel : node.neighbours[level]? = some links := Outcome.index_eq_ok_iff.mp hlinks
    have hfilter := List.length_filter_le (· ∉ visited) (onward level node links)
    simp only [hlevel, Option.getD_some] at hle
    exact Nat.lt_succ_of_le (hfilter.trans hle)

section Search

variable [VectorMath]

def nodeDistance (config : HnswConfig) (nodes : Nodes Id) (vector : List F32) (id : Id) :
    Option F64 :=
  nodes[id]?.map fun node => VectorMath.distance config.distance vector node.vector

def compareIdsByDistance (config : HnswConfig) (nodes : Nodes Id) (vector : List F32)
    (left right : Id) : Ordering :=
  (compare ((nodeDistance config nodes vector left).getD F64.INFINITY)
    ((nodeDistance config nodes vector right).getD F64.INFINITY)).then (compare left right)

/-- The order `sort_by` sorts under. -/
def noFarther (config : HnswConfig) (nodes : Nodes Id) (vector : List F32) (left right : Id) :
    Prop :=
  compareIdsByDistance config nodes vector left right ≠ .gt

instance (config : HnswConfig) (nodes : Nodes Id) (vector : List F32) :
    DecidableRel (noFarther config nodes vector) :=
  fun _ _ => inferInstanceAs (Decidable (_ ≠ _))

/-- The closer of the candidate so far and one neighbour. -/
def closer (config : HnswConfig) (nodes : Nodes Id) (vector : List F32) (next neighbour : Id) :
    Id :=
  if compareIdsByDistance config nodes vector neighbour next = .lt then neighbour else next

def greedyAtLevel (config : HnswConfig) (nodes : Nodes Id) (vector : List F32) (current : Id)
    (level : Nat) : Nat → Run Id
  | 0 => return current
  | budget + 1 =>
    match nodes[current]? with
    | none => return current
    | some node => do
      let links ← Outcome.index node.neighbours level
      let next := links.toList.foldl (closer config nodes vector) current
      let next := if level = 0 then
          node.backbone.toList.foldl (closer config nodes vector) next
        else next
      if next = current then
        return current
      greedyAtLevel config nodes vector next level budget

set_option linter.unusedVariables false in
/-- The loop of `searchLayer`, from a state of its three accumulators. -/
def searchLoop (config : HnswConfig) (nodes : Nodes Id) (vector : List F32)
    (level retained budget : Nat) (visited : BTreeSet Id) (frontier results : List Id) :
    Run (List Id) :=
  match hf : frontier.insertionSort (noFarther config nodes vector) with
  | [] => return results
  | current :: rest =>
    if hb : visited.size < budget then
      if hv : current ∈ visited then
        searchLoop config nodes vector level retained budget visited rest results
      else
        -- The nearest candidate is farther than the worst result kept.
        if results.length ≥ retained ∧ results.getLast?.any
            (compareIdsByDistance config nodes vector current · = .gt) then
          return results
        else
          let results := (results ++ [current]).insertionSort (noFarther config nodes vector)
          let results := if results.length > retained then results.dropLast else results
          match hu : unvisited nodes level (visited.insert current) current with
          | .error failure => .error failure
          | .ok found =>
            searchLoop config nodes vector level retained budget (visited.insert current)
              (rest ++ found) results
    else return results
termination_by (budget - visited.size) * breadth nodes level + frontier.length
decreasing_by
  · have hlen := congrArg List.length hf
    simp only [List.length_insertionSort, List.length_cons] at hlen
    omega
  · have hlen := congrArg List.length hf
    have hsize := BTreeSet.size_insert_new hv
    have hfound := unvisited_length hu
    have hleft : budget - visited.size = (budget - (visited.insert current).size) + 1 := by omega
    simp only [List.length_insertionSort, List.length_cons] at hlen
    rw [hleft, Nat.succ_mul, List.length_append]
    omega

def searchLayer (config : HnswConfig) (nodes : Nodes Id) (vector : List F32) (entries : List Id)
    (level retained budget : Nat) : Run (List Id) :=
  searchLoop config nodes vector level retained budget ∅ entries []

/-! ## Links -/

/-- Keeps the closest links of `id` at `level`, and drops the others from both
ends. -/
def prune (config : HnswConfig) (nodes : Nodes Id) (id : Id) (level : Nat) : Run (Nodes Id) :=
  match nodes[id]? with
  | none => return nodes
  | some node => do
    let limit := degreeLimit config level
    let links ← Outcome.index node.neighbours level
    let ranked := links.toList.insertionSort (noFarther config nodes node.vector)
    let retained := BTreeSet.ofList (ranked.take limit)
    let removed := links.toList.filter (· ∉ retained)
    let nodes := nodes.insert id { node with neighbours := node.neighbours.set level retained }
    removed.foldlM (fun nodes other => modifyLinks nodes other level (·.erase id)) nodes

def link (config : HnswConfig) (nodes : Nodes Id) (left right : Id) (level : Nat) :
    Run (Nodes Id) := do
  if left = right ∨ left ∉ nodes then
    return nodes
  let nodes ← modifyLinks nodes left level (·.insert right)
  if right ∉ nodes then
    return nodes
  let nodes ← modifyLinks nodes right level (·.insert left)
  let nodes ← prune config nodes left level
  prune config nodes right level

end Search

/-! ## The backbone -/

def connectBackbone (nodes : Nodes Id) (left right : Id) : Nodes Id :=
  if left = right then nodes
  else modifyBackbone (modifyBackbone nodes left (·.insert right)) right (·.insert left)

def disconnectBackbone (nodes : Nodes Id) (left right : Id) : Nodes Id :=
  modifyBackbone (modifyBackbone nodes left (·.erase right)) right (·.erase left)

/-- Gives `id` its place in the cycle, next to `anchor`. -/
def spliceBackbone (nodes : Nodes Id) (id anchor : Id) : Run (Nodes Id) :=
  match nodes[anchor]? with
  | none => Outcome.panic "no entry found for key"
  | some node =>
    match node.backbone.toList with
    -- The second insertion forms the single edge of two nodes.
    | [] => return connectBackbone nodes id anchor
    -- Two nodes keep their edge, which is the third side of the new triangle.
    | [successor] => return connectBackbone (connectBackbone nodes anchor id) id successor
    | successor :: _ :: _ =>
      return connectBackbone
        (connectBackbone (disconnectBackbone nodes anchor successor) anchor id) id successor

section Mutation

variable [VectorMath]

/-- Joins two former neighbours of a removed node, when both reach the level. -/
def reconnectPair (config : HnswConfig) (level : Nat) (left : Id) (nodes : Nodes Id) (right : Id) :
    Run (Nodes Id) :=
  if nodes[left]?.any (level ≤ ·.level) ∧ nodes[right]?.any (level ≤ ·.level) then
    link config nodes left right level
  else return nodes

/-- Joins each of a removed node's neighbours with those after it. -/
def reconnect (config : HnswConfig) (level : Nat) (nodes : Nodes Id) : List Id → Run (Nodes Id)
  | [] => return nodes
  | left :: rest => do
    let nodes ← rest.foldlM (reconnectPair config level left) nodes
    reconnect config level nodes rest

/-- Takes the links to a removed node out of the layers from `level` on. -/
def detachLayers (config : HnswConfig) (id : Id) (level : Nat) (nodes : Nodes Id) :
    List (BTreeSet Id) → Run (Nodes Id)
  | [] => return nodes
  | links :: layers => do
    let neighbours := links.toList
    let nodes ← neighbours.foldlM (fun nodes neighbour =>
      modifyLinks nodes neighbour level (·.erase id)) nodes
    let nodes ← reconnect config level nodes neighbours
    detachLayers config id (level + 1) nodes layers

/-- Closes the cycle over a removed node. -/
def bypassBackbone (nodes : Nodes Id) (id : Id) (anchors : List Id) : Nodes Id :=
  let nodes := anchors.foldl (fun nodes anchor => modifyBackbone nodes anchor (·.erase id)) nodes
  match anchors with
  | [left, right] => connectBackbone nodes left right
  | _ => nodes

end Mutation

end Graph

/-! ## The index -/

namespace HnswIndex

variable {Id : Type} [LinearOrder Id]

def new (config : HnswConfig) : HnswIndex Id :=
  { config, nodes := ∅, entryPoint := none, maxLevel := 0, levelState := 0x9e3779b97f4a7c15#64 }

/-- The fields a snapshot stores. -/
def toRaw (index : HnswIndex Id) : RawHnswIndex Id :=
  { index with }

def memberIds (index : HnswIndex Id) : List Id := index.nodes.keys

def len (index : HnswIndex Id) : Nat := index.nodes.size

def reselectEntry (index : HnswIndex Id) : HnswIndex Id :=
  { index with
    maxLevel := highestLevel index.nodes
    entryPoint := selectEntry index.nodes }

def considerNewEntry (index : HnswIndex Id) (id : Id) (level : Nat) : HnswIndex Id :=
  if index.entryPoint.all fun entry =>
      level > index.maxLevel ∨ (level = index.maxLevel ∧ id < entry) then
    { index with maxLevel := level, entryPoint := some id }
  else index

variable [VectorMath]

def removeNode (index : HnswIndex Id) (id : Id) : Run (HnswIndex Id) :=
  match index.nodes[id]? with
  | none => return index
  | some node => do
    let nodes ← detachLayers index.config id 0 (index.nodes.erase id) node.neighbours
    let nodes := bypassBackbone nodes id node.backbone.toList
    let index := { index with nodes }
    if nodes.isEmpty then
      return { index with maxLevel := 0, entryPoint := none }
    else if index.entryPoint = some id then
      return index.reselectEntry
    else return index

/-- The greedy descent from level `top` down to, and not through, `bottom`. -/
def descend (config : HnswConfig) (nodes : Nodes Id) (vector : List F32) (budget bottom : Nat) :
    Nat → Id → Run Id
  | 0, entry => return entry
  | top + 1, entry =>
    if bottom < top + 1 then do
      let entry ← greedyAtLevel config nodes vector entry (top + 1) budget
      descend config nodes vector budget bottom top entry
    else return entry

/-- Links a new node at one layer with the closest candidates found there. -/
def joinLayer (config : HnswConfig) (id : Id) (vector : List F32) (budget : Nat)
    (nodes : Nodes Id) (entry : Id) (level : Nat) : Run (Nodes Id × Id) := do
  let candidates ← searchLayer config nodes vector [entry] level budget budget
  let count := degreeLimit config level
  let nodes ← (candidates.take count).foldlM (fun nodes candidate =>
    link config nodes id candidate level) nodes
  let entry ← greedyAtLevel config nodes vector entry level budget
  return (nodes, entry)

/-- Joins the layers from `level` down to the base. -/
def joinLayers (config : HnswConfig) (id : Id) (vector : List F32) (budget : Nat)
    (nodes : Nodes Id) (entry : Id) : Nat → Run (Nodes Id)
  | 0 => do
    let (nodes, _) ← joinLayer config id vector budget nodes entry 0
    return nodes
  | level + 1 => do
    let (nodes, entry) ← joinLayer config id vector budget nodes entry (level + 1)
    joinLayers config id vector budget nodes entry level

def insert (index : HnswIndex Id) (id : Id) (vector : List F32) : Run (HnswIndex Id) := do
  Outcome.ofResult (checkVector index.config vector)
  let index ← index.removeNode id
  let (level, levelState) := nextLevel index.levelState
  let survivingEntry := index.entryPoint
  let node : Node Id :=
    { vector, level, neighbours := List.replicate (level + 1) ∅, backbone := ∅ }
  let nodes := index.nodes.insert id node
  match survivingEntry with
  | none => return { index with nodes, levelState, maxLevel := level, entryPoint := some id }
  | some entry => do
    let nodes ← spliceBackbone nodes id entry
    let budget := max (max index.config.efConstruction index.config.mNeighbours) 1
    let entry ← descend index.config nodes vector budget level index.maxLevel entry
    let nodes ← joinLayers index.config id vector budget nodes entry (min level index.maxLevel)
    return considerNewEntry { index with nodes, levelState } id level

def remove (index : HnswIndex Id) (id : Id) : Run (HnswIndex Id) := index.removeNode id

/-- The work budget of a query. -/
def queryBeam (index : HnswIndex Id) (k : Nat) : Nat :=
  max (max k (saturatingMul index.config.mNeighbours 8)) 1

/-- The public score of one candidate. -/
def score (entry : Id × F64) : Except HeuremaError (Id × F32) :=
  let narrowed := VectorMath.narrow entry.2
  if narrowed.isFinite then .ok (entry.1, narrowed)
  else .error (.distanceNotRepresentable
    (VectorMath.display entry.2 ++ " cannot be returned by VectorIndex::query"))

omit [VectorMath] in
/-- The public order: the smaller score, then the smaller id. -/
def ranksBefore (left right : Id × F32) : Prop :=
  left.2 < right.2 ∨ (left.2 = right.2 ∧ left.1 ≤ right.1)

omit [VectorMath] in
instance : DecidableRel (ranksBefore : Id × F32 → Id × F32 → Prop) :=
  fun _ _ => inferInstanceAs (Decidable (_ ∨ _))

def query (index : HnswIndex Id) (vector : List F32) (k : Nat) : Run (List (Id × F32)) := do
  Outcome.ofResult (checkVector index.config vector)
  if k = 0 ∨ index.nodes.isEmpty then
    return []
  match index.entryPoint with
  | none => return []
  | some entry => do
    let budget := index.queryBeam k
    let entry ← descend index.config index.nodes vector budget 0 index.maxLevel entry
    let candidates ← searchLayer index.config index.nodes vector [entry] 0 budget budget
    let scored := candidates.filterMap fun id =>
      (nodeDistance index.config index.nodes vector id).map fun distance => (id, distance)
    let results ← Outcome.ofResult (scored.mapM score)
    return (results.insertionSort ranksBefore).take k

end HnswIndex

end Heurema.Hnsw
