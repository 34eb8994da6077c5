import Heurema.Adapters.Atmis
import Heurema.Adapters.Thesauros
import Heurema.Data.JsonReader
import Heurema.Fts.Snapshot
import Heurema.Hnsw.Codec
import Heurema.Persistence

/-! # Named snapshots

Both adapters keep, for each family, the last snapshot that was saved under a name. A save
that cannot be encoded changes nothing, and the two families never meet. The database stores
names and values up to its documented limits, which no save checks. -/

namespace Heurema

open Serde

open Outcome (refuse)

/-- The bytes of an index in an envelope of its family. -/
def encodeSnapshot [SerdeJson] {I : Type} [Codec I] (family : SnapshotFamily) (idx : I) :
    Run Bytes :=
  match toVec (SnapshotEnvelope.new family idx) with
  | .ok bytes => .ok bytes
  | .error _ => refuse (.persistence .storage)

namespace Atmis

/-- The snapshot maps of the backend, beside its lifecycle state. -/
structure Snapshots where
  vectorSnapshots : BTreeMap Str Bytes
  ftsSnapshots : BTreeMap Str Bytes

namespace Snapshots

def empty : Snapshots := ⟨∅, ∅⟩

/-- The snapshot under a name, or that there is none. -/
def lookup (snapshots : BTreeMap Str Bytes) (name : Str) : Run Bytes :=
  match snapshots[name]? with
  | some bytes => .ok bytes
  | none => refuse (.indexNotFound (String.ofList name))

instance [SkippingJson] : PersistenceBackend Snapshots where
  saveVectorIndex name idx := do
    let bytes ← liftM (encodeSnapshot .vector idx)
    modify fun state => { state with vectorSnapshots := state.vectorSnapshots.insert name bytes }
  loadVectorIndex name state := do
    let bytes ← lookup state.vectorSnapshots name
    decodeSnapshotPayload bytes .vector
  saveFtsIndex name idx := do
    let bytes ← liftM (encodeSnapshot .fts idx)
    modify fun state => { state with ftsSnapshots := state.ftsSnapshots.insert name bytes }
  loadFtsIndex name state := do
    let bytes ← lookup state.ftsSnapshots name
    decodeSnapshotPayload bytes .fts

end Snapshots

end Atmis

namespace Thesauros

/-- The longest key that the database stores. -/
def MAX_KEY_LEN : Nat := UInt16.size - 1

/-- A key and a value that are longer than the database documents to store. -/
def Beyond (key value : Bytes) : Prop := MAX_KEY_LEN < key.length ∨ MAX_VALUE_LEN < value.length

/-- `fjall::Keyspace::insert`, of which the limits are known: what is not beyond them is stored
under a key that is not empty, and what is beyond them is an error or a panic. -/
class Fjall where
  insert (key value : Bytes) : SaveM Keyspace Unit
  insert_within {key value : Bytes} {keyspace : Keyspace} : key ≠ [] → ¬ Beyond key value →
    (insert key value).run keyspace = (.ok (), keyspace.insert key value)
  insert_beyond {key value : Bytes} {keyspace : Keyspace} : Beyond key value →
    ∃ failure, ((insert key value).run keyspace).1 = .error failure

instance (key value : Bytes) : Decidable (Beyond key value) := by
  unfold Beyond
  infer_instance

/-- A database that asserts its limits before it writes. -/
@[reducible] def Fjall.asserting : Fjall where
  insert key value := do
    if Beyond key value then throw (.panicked "assertion failed")
    modify fun keyspace => keyspace.insert key value
  insert_within {key value keyspace} _ hwithin := by
    rw [if_neg hwithin]
    rfl
  insert_beyond {key value keyspace} hbeyond := by
    rw [if_pos hbeyond]
    exact ⟨_, rfl⟩

/-- The snapshot keyspaces of the backend, beside those of the lifecycle. -/
structure Snapshots where
  vectorIndexes : Keyspace
  ftsIndexes : Keyspace

namespace Snapshots

def empty : Snapshots := ⟨∅, ∅⟩

/-- The snapshot under a name, or that there is none. -/
def lookup (keyspace : Keyspace) (name : Str) : Run Bytes :=
  match keyspace[name.asBytes]? with
  | some bytes => .ok bytes
  | none => refuse (.indexNotFound (String.ofList name))

instance [SkippingJson] [Fjall] : PersistenceBackend Snapshots where
  saveVectorIndex name idx := do
    let bytes ← liftM (encodeSnapshot .vector idx)
    fun state =>
      let (stored, vectorIndexes) := Fjall.insert name.asBytes bytes state.vectorIndexes
      (stored, { state with vectorIndexes })
  loadVectorIndex name state := do
    let bytes ← lookup state.vectorIndexes name
    decodeSnapshotPayload bytes .vector
  saveFtsIndex name idx := do
    let bytes ← liftM (encodeSnapshot .fts idx)
    fun state =>
      let (stored, ftsIndexes) := Fjall.insert name.asBytes bytes state.ftsIndexes
      (stored, { state with ftsIndexes })
  loadFtsIndex name state := do
    let bytes ← lookup state.ftsIndexes name
    decodeSnapshotPayload bytes .fts

end Snapshots

end Thesauros

/-! ## The contract -/

namespace PersistenceBackend

variable {σ : Type} [PersistenceBackend σ]

/-- The save of a family. -/
def save {I : Type} [Codec I] (family : SnapshotFamily) (name : Str) (idx : I) : SaveM σ Unit :=
  match family with
  | .vector => saveVectorIndex name idx
  | .fts => saveFtsIndex name idx

/-- The load of a family. -/
def load {I : Type} [Codec I] (family : SnapshotFamily) (name : Str) (state : σ) : Run I :=
  match family with
  | .vector => loadVectorIndex name state
  | .fts => loadFtsIndex name state

end PersistenceBackend

open PersistenceBackend (save load)

/-- The snapshots of each family, by their names. -/
abbrev Catalog := SnapshotFamily → Str → Option Bytes

namespace Catalog

def empty : Catalog := fun _ _ => none

def put (catalog : Catalog) (family : SnapshotFamily) (name : Str) (bytes : Bytes) : Catalog :=
  Function.update catalog family (Function.update (catalog family) name (some bytes))

theorem put_same (catalog : Catalog) (family : SnapshotFamily) (name : Str) (bytes : Bytes) :
    catalog.put family name bytes family = Function.update (catalog family) name (some bytes) :=
  Function.update_self ..

theorem put_other (catalog : Catalog) {family other : SnapshotFamily} (h : other ≠ family)
    (name : Str) (bytes : Bytes) : catalog.put family name bytes other = catalog other :=
  Function.update_of_ne h ..

end Catalog

/-- What a store says of its capacity: the names and the bytes that it stores, and those that it
never does. -/
structure Capacity where
  Holds : Str → Bytes → Prop
  Bars : Str → Bytes → Prop

/-- A store that says nothing of its capacity holds everything. -/
def Capacity.unbounded : Capacity := ⟨fun _ _ => True, fun _ _ => False⟩

/-- The documented capacity of the database. -/
def Capacity.documented : Capacity where
  Holds name bytes := name ≠ [] ∧ ¬ Thesauros.Beyond name.asBytes bytes
  Bars name bytes := Thesauros.Beyond name.asBytes bytes

/-- A store of snapshots keeps the contract: a save of an index that does not encode is refused
whole, one that the store holds puts the encoded index under its name, one that it bars fails, and
a load decodes what is under the name. -/
structure SnapshotAdapter (σ : Type) [PersistenceBackend σ] [SkippingJson] (capacity : Capacity)
    (Represents : σ → Catalog → Prop) : Prop where
  saved {state : σ} {catalog : Catalog} (h : Represents state catalog) {I : Type} [Codec I]
    {family : SnapshotFamily} {name : Str} {idx : I} {bytes : Bytes}
    (hencoded : encodeSnapshot family idx = .ok bytes) (hholds : capacity.Holds name bytes) :
    ∃ state', (save family name idx).run state = (.ok (), state') ∧
      Represents state' (catalog.put family name bytes)
  barred {state : σ} {I : Type} [Codec I] {family : SnapshotFamily} {name : Str} {idx : I}
    {bytes : Bytes} (hencoded : encodeSnapshot family idx = .ok bytes)
    (hbars : capacity.Bars name bytes) :
    ∃ failure, ((save family name idx).run state).1 = .error failure
  refused {state : σ} {I : Type} [Codec I] {family : SnapshotFamily} {name : Str} {idx : I}
    {failure : Failure HeuremaError} (hrefused : encodeSnapshot family idx = .error failure) :
    (save family name idx).run state = (.error failure, state)
  loaded {state : σ} {catalog : Catalog} (h : Represents state catalog) (I : Type) [Codec I]
    (family : SnapshotFamily) (name : Str) : (load family name state : Run I) =
      match catalog family name with
      | some bytes => decodeSnapshotPayload bytes family
      | none => refuse (.indexNotFound (String.ofList name))

section Encoded

variable [SerdeJson] {σ I : Type} [Codec I] {family : SnapshotFamily} {idx : I}

/-- A save of an index that encodes writes its bytes. -/
theorem save_encoded {bytes : Bytes} (h : encodeSnapshot family idx = .ok bytes)
    (write : Bytes → SaveM σ Unit) (state : σ) :
    ((liftM (encodeSnapshot family idx) : SaveM σ Bytes) >>= write).run state =
      (write bytes).run state := by
  rw [Locked.run_check, h]

/-- A save of an index that does not encode ends there. -/
theorem save_refused {failure : Failure HeuremaError}
    (h : encodeSnapshot family idx = .error failure) (write : Bytes → SaveM σ Unit) (state : σ) :
    ((liftM (encodeSnapshot family idx) : SaveM σ Bytes) >>= write).run state =
      (.error failure, state) := by
  rw [Locked.run_check, h]

end Encoded

namespace Atmis.Snapshots

/-- The maps hold a catalog. -/
structure Represents (state : Snapshots) (catalog : Catalog) : Prop where
  vector : Keyed id state.vectorSnapshots (catalog .vector)
  fts : Keyed id state.ftsSnapshots (catalog .fts)

theorem adapter [SkippingJson] : SnapshotAdapter Snapshots .unbounded Represents where
  saved := by
    intro state catalog h I _ family name idx bytes hencoded _
    cases family with
    | vector =>
      refine ⟨{ state with vectorSnapshots := state.vectorSnapshots.insert name bytes }, ?_, ?_, ?_⟩
      · exact save_encoded hencoded _ state
      · rw [Catalog.put_same]
        exact h.vector.insert Function.injective_id name bytes
      · rw [Catalog.put_other _ (by decide)]
        exact h.fts
    | fts =>
      refine ⟨{ state with ftsSnapshots := state.ftsSnapshots.insert name bytes }, ?_, ?_, ?_⟩
      · exact save_encoded hencoded _ state
      · rw [Catalog.put_other _ (by decide)]
        exact h.vector
      · rw [Catalog.put_same]
        exact h.fts.insert Function.injective_id name bytes
  barred _ hbars := hbars.elim
  refused := by
    intro state I _ family name idx failure hrefused
    cases family with
    | vector => exact save_refused hrefused _ state
    | fts => exact save_refused hrefused _ state
  loaded := by
    intro state catalog h I _ family name
    cases family with
    | vector =>
      have hlookup : state.vectorSnapshots[name]? = catalog .vector name := h.vector.lookup name
      show (lookup state.vectorSnapshots name >>= fun bytes => decodeSnapshotPayload bytes .vector) = _
      rw [lookup, hlookup]
      cases catalog .vector name <;> rfl
    | fts =>
      have hlookup : state.ftsSnapshots[name]? = catalog .fts name := h.fts.lookup name
      show (lookup state.ftsSnapshots name >>= fun bytes => decodeSnapshotPayload bytes .fts) = _
      rw [lookup, hlookup]
      cases catalog .fts name <;> rfl

end Atmis.Snapshots

namespace Thesauros.Snapshots

/-- The keyspaces hold a catalog, each name as its bytes. -/
structure Represents (state : Snapshots) (catalog : Catalog) : Prop where
  vector : Keyed Str.asBytes state.vectorIndexes (catalog .vector)
  fts : Keyed Str.asBytes state.ftsIndexes (catalog .fts)

variable [SkippingJson] [Fjall]

/-- A save of the vector family of an index that encodes is an insert into its keyspace. -/
theorem run_vector {I : Type} [Codec I] {name : Str} {idx : I} {bytes : Bytes}
    (hencoded : encodeSnapshot .vector idx = .ok bytes) (state : Snapshots) :
    (save .vector name idx).run state =
      (((Fjall.insert name.asBytes bytes).run state.vectorIndexes).1,
        { state with vectorIndexes := ((Fjall.insert name.asBytes bytes).run state.vectorIndexes).2 }) :=
  save_encoded hencoded _ state

theorem run_fts {I : Type} [Codec I] {name : Str} {idx : I} {bytes : Bytes}
    (hencoded : encodeSnapshot .fts idx = .ok bytes) (state : Snapshots) :
    (save .fts name idx).run state =
      (((Fjall.insert name.asBytes bytes).run state.ftsIndexes).1,
        { state with ftsIndexes := ((Fjall.insert name.asBytes bytes).run state.ftsIndexes).2 }) :=
  save_encoded hencoded _ state

theorem adapter : SnapshotAdapter Snapshots .documented Represents where
  saved := by
    intro state catalog h I _ family name idx bytes hencoded ⟨hname, hwithin⟩
    have hkey : name.asBytes ≠ [] := fun hnil =>
      hname (Str.asBytes_injective (hnil.trans Str.asBytes_nil.symm))
    cases family with
    | vector =>
      refine ⟨{ state with vectorIndexes := state.vectorIndexes.insert name.asBytes bytes }, ?_, ?_,
        ?_⟩
      · rw [run_vector hencoded, Fjall.insert_within hkey hwithin]
      · rw [Catalog.put_same]
        exact h.vector.insert Str.asBytes_injective name bytes
      · rw [Catalog.put_other _ (by decide)]
        exact h.fts
    | fts =>
      refine ⟨{ state with ftsIndexes := state.ftsIndexes.insert name.asBytes bytes }, ?_, ?_, ?_⟩
      · rw [run_fts hencoded, Fjall.insert_within hkey hwithin]
      · rw [Catalog.put_other _ (by decide)]
        exact h.vector
      · rw [Catalog.put_same]
        exact h.fts.insert Str.asBytes_injective name bytes
  barred := by
    intro state I _ family name idx bytes hencoded hbeyond
    cases family with
    | vector =>
      rw [run_vector hencoded]
      exact Fjall.insert_beyond hbeyond
    | fts =>
      rw [run_fts hencoded]
      exact Fjall.insert_beyond hbeyond
  refused := by
    intro state I _ family name idx failure hrefused
    cases family with
    | vector => exact save_refused hrefused _ state
    | fts => exact save_refused hrefused _ state
  loaded := by
    intro state catalog h I _ family name
    cases family with
    | vector =>
      have hlookup := h.vector.lookup name
      show (lookup state.vectorIndexes name >>= fun bytes => decodeSnapshotPayload bytes .vector) = _
      rw [lookup, hlookup]
      cases catalog .vector name <;> rfl
    | fts =>
      have hlookup := h.fts.lookup name
      show (lookup state.ftsIndexes name >>= fun bytes => decodeSnapshotPayload bytes .fts) = _
      rw [lookup, hlookup]
      cases catalog .fts name <;> rfl

end Thesauros.Snapshots

/-! ## Runs of saves -/

/-- A save of an index of some type. -/
structure Saving where
  family : SnapshotFamily
  name : Str
  Index : Type
  codec : Codec Index
  idx : Index

namespace Saving

variable {σ : Type} [PersistenceBackend σ]

/-- A save, as an operation on the state of a backend. -/
def run (saving : Saving) : SaveM σ Unit :=
  letI := saving.codec
  save saving.family saving.name saving.idx

/-- The bytes that a save puts under its name, unless they cannot be encoded. -/
def encoded [SerdeJson] (saving : Saving) : Run Bytes :=
  letI := saving.codec
  encodeSnapshot saving.family saving.idx

/-- The state after saves, each of which may be refused. -/
def runAll (state : σ) (savings : List Saving) : σ :=
  savings.foldl (fun state saving => (saving.run.run state).2) state

/-- What saves leave in a catalog. -/
def put [SerdeJson] (catalog : Catalog) (saving : Saving) : Catalog :=
  match saving.encoded with
  | .ok bytes => catalog.put saving.family saving.name bytes
  | .error _ => catalog

/-- A save that is refused before it writes, or that a store has room for. -/
def HeldBy [SerdeJson] (capacity : Capacity) (saving : Saving) : Prop :=
  ∀ bytes, saving.encoded = .ok bytes → capacity.Holds saving.name bytes

/-- A save under a name of a family that is not refused. -/
def Puts [SerdeJson] (family : SnapshotFamily) (name : Str) (saving : Saving) : Prop :=
  saving.family = family ∧ saving.name = name ∧ ∃ bytes, saving.encoded = .ok bytes

section Catalogs

variable [SerdeJson]

/-- A save that is not refused puts its bytes under its name. -/
theorem put_ok {saving : Saving} {bytes : Bytes} (h : saving.encoded = .ok bytes)
    (catalog : Catalog) : saving.put catalog = catalog.put saving.family saving.name bytes := by
  rw [put, h]

theorem put_error {saving : Saving} {failure : Failure HeuremaError}
    (h : saving.encoded = .error failure)
    (catalog : Catalog) : saving.put catalog = catalog := by
  rw [put, h]

/-- A save leaves the names alone that it does not put. -/
theorem put_elsewhere {saving : Saving} {family : SnapshotFamily} {name : Str}
    (h : ¬ saving.Puts family name) (catalog : Catalog) :
    saving.put catalog family name = catalog family name := by
  cases hencoded : saving.encoded with
  | error failure => rw [put_error hencoded]
  | ok bytes =>
    rw [put_ok hencoded]
    by_cases hfamily : family = saving.family
    · have hname : name ≠ saving.name := fun hname =>
        h ⟨hfamily.symm, hname.symm, bytes, hencoded⟩
      subst hfamily
      rw [Catalog.put_same, Function.update_of_ne hname]
    · rw [Catalog.put_other _ hfamily]

theorem puts_elsewhere {family : SnapshotFamily} {name : Str} {savings : List Saving}
    (h : ∀ saving ∈ savings, ¬ saving.Puts family name) (catalog : Catalog) :
    savings.foldl (fun catalog saving => saving.put catalog) catalog family name =
      catalog family name := by
  induction savings generalizing catalog with
  | nil => rfl
  | cons saving rest ih =>
    have hrest := ih (fun later hlater => h later (List.mem_cons_of_mem _ hlater)) (saving.put catalog)
    rw [List.foldl_cons, hrest]
    exact put_elsewhere (h saving List.mem_cons_self) catalog

/-- The last save that puts a name decides what is under it. -/
theorem puts_last {before after : List Saving} {saving : Saving} {bytes : Bytes}
    (hencoded : saving.encoded = .ok bytes)
    (hafter : ∀ later ∈ after, ¬ later.Puts saving.family saving.name) (catalog : Catalog) :
    (before ++ saving :: after).foldl (fun catalog saving => saving.put catalog) catalog
      saving.family saving.name = some bytes := by
  rw [List.foldl_append, List.foldl_cons, puts_elsewhere hafter, put_ok hencoded, Catalog.put_same,
    Function.update_self]

end Catalogs

end Saving

namespace SnapshotAdapter

variable {σ : Type} [PersistenceBackend σ] [SkippingJson] {capacity : Capacity}
  {Represents : σ → Catalog → Prop}

/-- What a save does to a state that holds a catalog. -/
theorem run (adapter : SnapshotAdapter σ capacity Represents) {state : σ} {catalog : Catalog}
    (h : Represents state catalog) {saving : Saving} (hheld : saving.HeldBy capacity) :
    Represents (saving.run.run state).2 (saving.put catalog) := by
  let codec := saving.codec
  cases hencoded : saving.encoded with
  | error failure =>
    have hrun : saving.run.run state = (.error failure, state) := adapter.refused hencoded
    rw [hrun, Saving.put_error hencoded]
    exact h
  | ok bytes =>
    obtain ⟨state', hrun, hstate'⟩ := adapter.saved h hencoded (hheld bytes hencoded)
    have hsaved : saving.run.run state = (.ok (), state') := hrun
    rw [hsaved, Saving.put_ok hencoded]
    exact hstate'

theorem runAll (adapter : SnapshotAdapter σ capacity Represents) {state : σ} {catalog : Catalog}
    (h : Represents state catalog) {savings : List Saving}
    (hheld : ∀ saving ∈ savings, saving.HeldBy capacity) :
    Represents (Saving.runAll state savings)
      (savings.foldl (fun catalog saving => saving.put catalog) catalog) := by
  induction savings generalizing state catalog with
  | nil => exact h
  | cons saving rest ih =>
    obtain ⟨hsaving, hrest⟩ := List.forall_mem_cons.mp hheld
    exact ih (adapter.run h hsaving) hrest

end SnapshotAdapter

/-! ## What a store of snapshots keeps -/

section Contract

variable [SkippingJson] {σ : Type} [PersistenceBackend σ] {capacity : Capacity}

/-- What a store answers after any saves from its empty state that it has room for. -/
structure KeepsSnapshots (capacity : Capacity) (empty : σ) : Prop where
  /-- A save of an index that encodes is made where the store holds it and fails where it bars it;
  one of an index that does not encode changes nothing. -/
  saves : ∀ {savings : List Saving}, (∀ earlier ∈ savings, earlier.HeldBy capacity) →
    ∀ saving : Saving,
      (∀ bytes, saving.encoded = .ok bytes → capacity.Holds saving.name bytes →
        (saving.run.run (Saving.runAll empty savings)).1 = .ok ()) ∧
      (∀ bytes, saving.encoded = .ok bytes → capacity.Bars saving.name bytes →
        ∃ failure, (saving.run.run (Saving.runAll empty savings)).1 = .error failure) ∧
      ∀ failure, saving.encoded = .error failure →
        saving.run.run (Saving.runAll empty savings) = (.error failure, Saving.runAll empty savings)
  /-- A name that no save put has no snapshot in its family. -/
  absent : ∀ {savings : List Saving} {family : SnapshotFamily} {name : Str},
    (∀ saving ∈ savings, saving.HeldBy capacity) →
    (∀ saving ∈ savings, ¬ saving.Puts family name) → ∀ (I : Type) [Codec I],
      (load family name (Saving.runAll empty savings) : Run I) =
        refuse (.indexNotFound (String.ofList name))
  /-- A load reads what the last save put under the name, as whatever type it is loaded. -/
  last : ∀ {before after : List Saving} {saving : Saving} {bytes : Bytes},
    (∀ other ∈ before ++ saving :: after, other.HeldBy capacity) → saving.encoded = .ok bytes →
    (∀ later ∈ after, ¬ later.Puts saving.family saving.name) → ∀ (I : Type) [Codec I],
      (load saving.family saving.name (Saving.runAll empty (before ++ saving :: after)) : Run I) =
        decodeSnapshotPayload bytes saving.family

theorem SnapshotAdapter.keeps {Represents : σ → Catalog → Prop}
    (adapter : SnapshotAdapter σ capacity Represents) {empty : σ}
    (hempty : Represents empty Catalog.empty) : KeepsSnapshots capacity empty where
  saves := by
    intro savings hheld saving
    let codec := saving.codec
    refine ⟨fun bytes hencoded hholds => ?_, fun bytes hencoded hbars => ?_,
      fun failure herror => adapter.refused herror⟩
    · obtain ⟨state', hrun, -⟩ := adapter.saved (adapter.runAll hempty hheld) hencoded hholds
      exact congrArg Prod.fst hrun
    · exact adapter.barred hencoded hbars
  absent := by
    intro savings family name hheld hnever I _
    rw [adapter.loaded (adapter.runAll hempty hheld), Saving.puts_elsewhere hnever]
    rfl
  last := by
    intro before after saving bytes hheld hencoded hafter I _
    rw [adapter.loaded (adapter.runAll hempty hheld), Saving.puts_last hencoded hafter]

/-- A save of an index. -/
def Saving.of {I : Type} [codec : Codec I] (family : SnapshotFamily) (name : Str) (idx : I) : Saving :=
  ⟨family, name, I, codec, idx⟩

theorem encodeSnapshot_ok {I : Type} [Codec I] {family : SnapshotFamily} {idx : I} {json : Json}
    (hjson : (serialize idx).toJson = .ok json) :
    ∃ bytes, encodeSnapshot family idx = .ok bytes ∧
      toVec (SnapshotEnvelope.new family idx) = .ok bytes := by
  obtain ⟨format, named, -, -, hwrote⟩ := (SnapshotEnvelope.new family idx).wrote hjson
  have hbytes : toVec (SnapshotEnvelope.new family idx) =
      .ok (Json.obj (SnapshotEnvelope.FIELDS.zip [format, named, json])).toVec := by
    rw [toVec, hwrote]
    rfl
  exact ⟨_, by rw [encodeSnapshot, hbytes], hbytes⟩

/-- What a load reads of the last index saved under a name: whatever the type loaded takes from
the encoding of the index. -/
theorem KeepsSnapshots.reads {empty : σ} (h : KeepsSnapshots capacity empty) {U T : Type} [Codec U] [Codec T]
    {family : SnapshotFamily} {name : Str} {idx : U} {json : Json}
    (hjson : (serialize idx).toJson = .ok json) (hdepth : json.depth ≤ 126)
    {before after : List Saving}
    (hheld : ∀ other ∈ before ++ Saving.of family name idx :: after, other.HeldBy capacity)
    (hafter : ∀ later ∈ after, ¬ later.Puts family name) :
    (load family name (Saving.runAll empty (before ++ Saving.of family name idx :: after)) : Run T) =
      decodeError (deserialize json) := by
  obtain ⟨bytes, hencoded, hbytes⟩ : ∃ bytes, encodeSnapshot family idx = .ok bytes ∧
      toVec (SnapshotEnvelope.new family idx) = .ok bytes := encodeSnapshot_ok hjson
  have hsaved : (Saving.of family name idx).encoded = .ok bytes := hencoded
  refine (h.last hheld hsaved hafter T).trans ?_
  show decodeSnapshotPayload bytes family = _
  rw [SnapshotEnvelope.decodes _ hjson hdepth hbytes]
  show (do validateHeader SNAPSHOT_FORMAT_VERSION family family; _) = _
  rw [validateHeader_ok, Outcome.ok_bind]

/-- A store gives back the index that was last saved under a name. -/
theorem KeepsSnapshots.restores {empty : σ} (h : KeepsSnapshots capacity empty) {T : Type} [Codec T]
    {family : SnapshotFamily} {name : Str} {idx : T} {d : Nat} (hstores : Stores d idx) (hd : d ≤ 126)
    {before after : List Saving}
    (hheld : ∀ other ∈ before ++ Saving.of family name idx :: after, other.HeldBy capacity)
    (hafter : ∀ later ∈ after, ¬ later.Puts family name) :
    load family name (Saving.runAll empty (before ++ Saving.of family name idx :: after)) = .ok idx := by
  obtain ⟨json, hjson⟩ := hstores
  rw [h.reads hjson.wrote (hjson.depth.trans hd) hheld hafter, hjson.read]
  rfl

/-- A store gives back the engines it was given: the last one saved under a name loads as it
was, whatever is saved under other names and in the other family that there is room for. -/
structure RestoresIndexes (capacity : Capacity) (empty : σ) : Prop where
  vector : ∀ {Id : Type} [LinearOrder Id] [KeyCodec Id] {index : Hnsw.HnswIndex Id} {d : Nat},
    Hnsw.Inv index → (∀ id ∈ index.nodes, StoresMember d id) → d ≤ 121 →
    ∀ {name : Str} {before after : List Saving},
      (∀ other ∈ before ++ Saving.of .vector name index :: after, other.HeldBy capacity) →
      (∀ later ∈ after, ¬ later.Puts .vector name) →
      load .vector name (Saving.runAll empty (before ++ Saving.of .vector name index :: after)) =
        .ok index
  fts : ∀ {Id : Type} [LinearOrder Id] [KeyCodec Id] {index : Bm25Index Id}, index.Sound →
    (∀ id ∈ index.documents, StoresKey id) →
    ∀ {name : Str} {before after : List Saving},
      (∀ other ∈ before ++ Saving.of .fts name index :: after, other.HeldBy capacity) →
      (∀ later ∈ after, ¬ later.Puts .fts name) →
      load .fts name (Saving.runAll empty (before ++ Saving.of .fts name index :: after)) = .ok index

theorem KeepsSnapshots.engines {empty : σ} (h : KeepsSnapshots capacity empty) :
    RestoresIndexes capacity empty where
  vector := by
    intro Id _ _ index d hinv hids hd name before after hheld hafter
    exact h.restores (Hnsw.HnswIndex.stores hinv hids) (Nat.add_le_add_right hd 5) hheld hafter
  fts := by
    intro Id _ _ index hsound hids name before after hheld hafter
    exact h.restores (Bm25Index.stores hsound hids) (by decide) hheld hafter

end Contract

section Adapters

variable [SkippingJson] [Thesauros.Fjall]

omit [Thesauros.Fjall] in
theorem Atmis.Snapshots.keeps : KeepsSnapshots .unbounded Atmis.Snapshots.empty :=
  Atmis.Snapshots.adapter.keeps ⟨.empty, .empty⟩

theorem Thesauros.Snapshots.keeps : KeepsSnapshots .documented Thesauros.Snapshots.empty :=
  Thesauros.Snapshots.adapter.keeps ⟨.empty, .empty⟩

/-- Both adapters keep, for each family and name, the last snapshot put there, the one within what
its database documents to store. -/
theorem snapshots_kept : KeepsSnapshots .unbounded Atmis.Snapshots.empty ∧
    KeepsSnapshots .documented Thesauros.Snapshots.empty :=
  ⟨Atmis.Snapshots.keeps, Thesauros.Snapshots.keeps⟩

/-- Both adapters give back every engine as it was last saved. -/
theorem engines_restored : RestoresIndexes .unbounded Atmis.Snapshots.empty ∧
    RestoresIndexes .documented Thesauros.Snapshots.empty :=
  ⟨Atmis.Snapshots.keeps.engines, Thesauros.Snapshots.keeps.engines⟩

end Adapters

section Witness

/-- The canonical encoding, read without skipping. -/
@[reducible] def SkippingJson.compact : SkippingJson :=
  { SerdeJson.compact with
    skipSlice := SerdeJson.compact.fromSlice
    skipSlice_of_ok := fun _ _ h => h }

attribute [local instance] SkippingJson.compact Thesauros.Fjall.asserting

/-- Beside a database that asserts its limits. -/
theorem snapshots_kept_asserting : KeepsSnapshots .unbounded Atmis.Snapshots.empty ∧
    KeepsSnapshots .documented Thesauros.Snapshots.empty :=
  snapshots_kept

theorem engines_restored_asserting : RestoresIndexes .unbounded Atmis.Snapshots.empty ∧
    RestoresIndexes .documented Thesauros.Snapshots.empty :=
  engines_restored

end Witness

end Heurema
