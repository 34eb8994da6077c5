import Heurema.Lifecycle.Apply

/-! # What an operation does to each member

`IndexChange.effect` says what a change does to one identity: nothing, a removal
or a write. The table, the engine and the audit record that a change builds are
what this says, member by member, and the record undoes the table. -/

namespace Heurema

open Hnsw Digest Apply

variable {M P R : Type}

section Effect

variable [LinearOrder M]

/-- What a change does to one identity: nothing, a removal, or a write. -/
def IndexChange.effect (change : IndexChange M P R) (id : M) : Option (Option (IndexMember M P)) :=
  match change with
  | .create _ => none
  | .insert members => (members.find? (·.id = id)).map some
  | .remove ids => if id ∈ ids then some none else none
  | .rebuild _ members => some (members.find? (·.id = id))
  | .destroy _ => some none

/-- The entry of an identity after a change published `target`, from the one before. -/
def IndexChange.entry (change : IndexChange M P R) (target : IndexVersion) (id : M)
    (previous : Option (MemberEntry P)) : Option (MemberEntry P) :=
  match change.effect id with
  | none => previous
  | some none => none
  | some (some member) => some (written member target previous).1

/-- What the engine keeps of an identity after a change, from what it kept before. -/
def IndexChange.held [Unicode] (change : IndexChange M P R) (id : M)
    (previous : Option HeldContent) : Option HeldContent :=
  match change.effect id with
  | none => previous
  | some none => none
  | some (some member) => some member.content.held

/-- How a write displaces the entry before it. -/
def MemberChange.displacing (id : M) : Option (MemberEntry P) → MemberChange M P
  | some previous => .replaced id previous
  | none => .inserted id

/-- How a removal displaces the entry before it. -/
def MemberChange.removing (id : M) : Option (MemberEntry P) → MemberChange M P
  | some previous => .removed id previous
  | none => .absentOnRemove id

/-- How the record of a change explains one identity, from its entry before. -/
def IndexChange.audit (change : IndexChange M P R) (id : M) (previous : Option (MemberEntry P)) :
    Option (MemberChange M P) :=
  match change with
  | .create _ => none
  | .insert members => (members.find? (·.id = id)).map fun _ => .displacing id previous
  | .remove ids => if id ∈ ids then some (.removing id previous) else none
  | .rebuild _ members =>
    match members.find? (·.id = id) with
    | some _ => some (.displacing id previous)
    | none => previous.map (.dropped id)
  | .destroy _ => previous.map (.retired id)

/-- The entry an identity had before a change, from the one it has after. -/
def MemberChange.undone (change : MemberChange M P) (entry : Option (MemberEntry P)) :
    Option (MemberEntry P) :=
  match change with
  | .inserted _ => none
  | .replaced _ previous | .removed _ previous | .dropped _ previous | .retired _ previous =>
    some previous
  | .absentOnRemove _ => entry

/-- Takes one change back out of the table it led to. -/
def MemberChange.undo (table : BTreeMap M (MemberEntry P)) (change : MemberChange M P) :
    BTreeMap M (MemberEntry P) :=
  match change.undone table[change.id]? with
  | some entry => table.insert change.id entry
  | none => table.erase change.id

/-- The table before a record's changes, from the one after them. -/
def MemberChange.undoAll (changes : List (MemberChange M P)) (table : BTreeMap M (MemberEntry P)) :
    BTreeMap M (MemberEntry P) :=
  changes.foldl undo table

/-- Undoing what the record says of an identity gives back its entry. -/
theorem IndexChange.undone_audit (change : IndexChange M P R) (target : IndexVersion) (id : M)
    (previous : Option (MemberEntry P)) :
    (match change.audit id previous with
      | some audit => audit.undone (change.entry target id previous)
      | none => change.entry target id previous) = previous := by
  cases change with
  | create config => rfl
  | insert members =>
    cases hfind : members.find? (·.id = id) <;> cases previous <;>
      simp [audit, entry, effect, hfind, MemberChange.displacing, MemberChange.undone]
  | remove ids =>
    by_cases hid : id ∈ ids <;> cases previous <;>
      simp [audit, entry, effect, hid, MemberChange.removing, MemberChange.undone]
  | rebuild config members =>
    cases hfind : members.find? (·.id = id) <;> cases previous <;>
      simp [audit, entry, effect, hfind, MemberChange.displacing, MemberChange.undone]
  | destroy retention =>
    cases previous <;> simp [audit, entry, effect, MemberChange.undone]

/-- A record explains an identity under its own name. -/
theorem IndexChange.audit_id {change : IndexChange M P R} {id : M}
    {previous : Option (MemberEntry P)} {audit : MemberChange M P}
    (h : change.audit id previous = some audit) : audit.id = id := by
  have hdisplacing : (MemberChange.displacing id previous).id = id := by
    cases previous <;> rfl
  cases change with
  | create config => cases h
  | insert members =>
    obtain ⟨-, -, rfl⟩ := Option.map_eq_some_iff.mp h
    exact hdisplacing
  | remove ids =>
    simp only [IndexChange.audit] at h
    split at h
    · cases h
      cases previous <;> rfl
    · cases h
  | rebuild config members =>
    simp only [IndexChange.audit] at h
    split at h
    · cases h
      exact hdisplacing
    · obtain ⟨entry, -, rfl⟩ := Option.map_eq_some_iff.mp h
      rfl
  | destroy retention =>
    obtain ⟨entry, -, rfl⟩ := Option.map_eq_some_iff.mp h
    rfl

/-- The identities and the members of a change that it writes. -/
theorem IndexChange.effect_member {change : IndexChange M P R} {id : M} {member : IndexMember M P}
    (h : change.effect id = some (some member)) : member ∈ change.members ∧ member.id = id := by
  have hfound {members : List (IndexMember M P)} (hfind : members.find? (·.id = id) = some member) :
      member ∈ members ∧ member.id = id := by
    have hid := List.find?_some hfind
    exact ⟨List.mem_of_find?_eq_some hfind, of_decide_eq_true hid⟩
  cases change with
  | create config => cases h
  | insert members =>
    obtain ⟨found, hfind, heq⟩ := Option.map_eq_some_iff.mp h
    exact hfound (Option.some.inj heq ▸ hfind)
  | remove ids =>
    simp only [effect] at h
    split at h <;> simp at h
  | rebuild config members => exact hfound (Option.some.inj h)
  | destroy retention => cases h

end Effect

/-! ## The loops -/

section Loops

variable [LinearOrder M] [VectorMath] [Unicode]

/-- The entries of a batch of distinct identities, and the changes that record them. -/
theorem foldlM_insertMember (target : IndexVersion) {members : List (IndexMember M P)}
    (hids : (members.map IndexMember.id).Nodup) (table : BTreeMap M (MemberEntry P)) :
    ∃ table' : BTreeMap M (MemberEntry P),
      (∀ id : M, table'[id]? = match members.find? (·.id = id) with
        | some member => some (written member target table[id]?).1
        | none => table[id]?) ∧
      ∀ (engine : VersionEngine M) (changes : List (MemberChange M P)),
        members.foldlM (insertMember target) { engine, members := table, changes } = do
          let engine ← engine.insertAll members
          return {
            engine
            members := table'
            changes := changes ++ members.map fun member => .displacing member.id table[member.id]? } := by
  induction members generalizing table with
  | nil => exact ⟨table, fun id => rfl, by simp [VersionEngine.insertAll]⟩
  | cons member members ih =>
    obtain ⟨hnew, hids⟩ := List.nodup_cons.mp hids
    let entry := (written member target table[member.id]?).1
    let next := (table.erase member.id).insert member.id entry
    have hnext (id : M) : next[id]? = if member.id = id then some entry else table[id]? := by
      rw [show next = table.insert member.id entry from BTreeMap.insert_erase .., 
        BTreeMap.getElem?_insert_ite]
    obtain ⟨table', hlookup, hloop⟩ := ih hids next
    refine ⟨table', fun id => ?_, fun engine changes => ?_⟩
    · rw [hlookup, List.find?_cons]
      by_cases hid : member.id = id
      · have hnone : members.find? (·.id = id) = none :=
          Sorted.find?_key_eq_none.mpr (hid ▸ hnew)
        simp [hnone, hnext, hid, entry]
      · simp [hnext, hid]
    · have hchanges : (members.map fun member : IndexMember M P =>
          MemberChange.displacing member.id next[member.id]?) =
          members.map fun member => .displacing member.id table[member.id]? := by
        refine List.map_congr_left fun other hmem => ?_
        have hne : member.id ≠ other.id := fun heq => hnew (heq ▸ List.mem_map_of_mem hmem)
        rw [hnext, if_neg hne]
      rw [List.foldlM_cons, VersionEngine.insertAll, List.foldlM_cons, insertMember]
      cases hinsert : engine.insert member.id member.content with
      | error failure => rfl
      | ok inserted =>
        have hrest := hloop inserted (changes ++ [.displacing member.id table[member.id]?])
        rw [hchanges, List.append_assoc] at hrest
        exact hrest

omit [Unicode] in
/-- The entries that a list of distinct identities takes out, and the changes that
record them. -/
theorem foldlM_removeMember {ids : List M} (hids : ids.Nodup) (table : BTreeMap M (MemberEntry P)) :
    ∃ table' : BTreeMap M (MemberEntry P),
      (∀ id : M, table'[id]? = if id ∈ ids then none else table[id]?) ∧
      ∀ (engine : VersionEngine M) (changes : List (MemberChange M P)),
        ids.foldlM removeMember { engine, members := table, changes } = do
          let engine ← engine.removeAll (ids.filter (· ∈ table))
          return {
            engine
            members := table'
            changes := changes ++ ids.map fun id => .removing id table[id]? } := by
  induction ids generalizing table with
  | nil => exact ⟨table, fun id => by simp, by simp [VersionEngine.removeAll]⟩
  | cons id ids ih =>
    obtain ⟨hnew, hids⟩ := List.nodup_cons.mp hids
    obtain ⟨table', hlookup, hloop⟩ := ih hids (table.erase id)
    have herase {other : M} (hmem : other ∈ ids) : (table.erase id)[other]? = table[other]? := by
      have hne : id ≠ other := fun heq => hnew (heq ▸ hmem)
      rw [BTreeMap.getElem?_erase_ite, if_neg hne]
    have hfilter : ids.filter (· ∈ table.erase id) = ids.filter (· ∈ table) := by
      refine List.filter_congr fun other hmem => ?_
      simp only [Std.ExtTreeMap.mem_iff_isSome_getElem?, herase hmem]
    have hchanges : (ids.map fun other => MemberChange.removing other (table.erase id)[other]?) =
        ids.map fun other => .removing other table[other]? :=
      List.map_congr_left fun other hmem => by rw [herase hmem]
    simp only [hchanges, hfilter] at hloop
    refine ⟨table', fun other => ?_, fun engine changes => ?_⟩
    · rw [hlookup, BTreeMap.getElem?_erase_ite]
      by_cases hother : other ∈ ids <;> by_cases hid : id = other <;> simp [hother, hid, eq_comm]
    · have happend (change : MemberChange M P) (rest : List (MemberChange M P)) :
          changes ++ [change] ++ rest = changes ++ change :: rest := List.append_assoc ..
      rw [List.foldlM_cons, List.map_cons]
      cases hprevious : table[id]? with
      | some previous =>
        have hpresent : id ∈ table := BTreeMap.mem_iff.mpr ⟨previous, hprevious⟩
        have hstep : removeMember { engine, members := table, changes } id = do
            let engine ← engine.remove id
            return {
              engine
              members := table.erase id
              changes := changes ++ [.removing id (some previous)] } := by
          simp only [removeMember, hprevious, MemberChange.removing]
        rw [hstep, List.filter_cons_of_pos (by simpa using hpresent), VersionEngine.removeAll,
          List.foldlM_cons]
        cases hremove : engine.remove id with
        | error failure => rfl
        | ok removed =>
          have hremoved := hloop removed (changes ++ [.removing id (some previous)])
          rw [happend] at hremoved
          exact hremoved
      | none =>
        have habsent : id ∉ table := BTreeMap.not_mem_iff.mpr hprevious
        have hstep : removeMember { engine, members := table, changes } id =
            .ok {
              engine
              members := table.erase id
              changes := changes ++ [.removing id none] } := by
          simp [removeMember, hprevious, MemberChange.removing, BTreeMap.erase_absent hprevious]
        have hremoved := hloop engine (changes ++ [.removing id none])
        rw [happend] at hremoved
        rw [hstep, List.filter_cons_of_neg (by simpa using habsent)]
        exact hremoved

/-- The three tables of a rebuild with distinct identities. -/
theorem foldlM_rebuildMember (target : IndexVersion) {members : List (IndexMember M P)}
    (hids : (members.map IndexMember.id).Nodup) (previous table : BTreeMap M (MemberEntry P))
    (changes : BTreeMap M (MemberChange M P)) :
    ∃ (previous' table' : BTreeMap M (MemberEntry P)) (changes' : BTreeMap M (MemberChange M P)),
      (∀ id : M, previous'[id]? = if id ∈ members.map IndexMember.id then none else previous[id]?) ∧
      (∀ id : M, table'[id]? = match members.find? (·.id = id) with
        | some member => some (written member target previous[id]?).1
        | none => table[id]?) ∧
      (∀ id : M, changes'[id]? = match members.find? (·.id = id) with
        | some _ => some (.displacing id previous[id]?)
        | none => changes[id]?) ∧
      ∀ engine : VersionEngine M,
        members.foldlM (rebuildMember target) { engine, previous, members := table, changes } = do
          let engine ← engine.insertAll members
          return { engine, previous := previous', members := table', changes := changes' } := by
  induction members generalizing previous table changes with
  | nil => exact ⟨previous, table, changes, fun _ => by simp, fun _ => rfl, fun _ => rfl, fun _ => rfl⟩
  | cons member members ih =>
    obtain ⟨hnew, hids⟩ := List.nodup_cons.mp hids
    obtain ⟨previous', table', changes', hprevious, htable, hchanges, hloop⟩ :=
      ih hids (previous.erase member.id)
        (table.insert member.id (written member target previous[member.id]?).1)
        (changes.insert member.id (.displacing member.id previous[member.id]?))
    have hfirst {id : M} (hid : member.id = id) : members.find? (·.id = id) = none :=
      Sorted.find?_key_eq_none.mpr (hid ▸ hnew)
    refine ⟨previous', table', changes', fun id => ?_, fun id => ?_, fun id => ?_, fun engine => ?_⟩
    · rw [hprevious, BTreeMap.getElem?_erase_ite, List.map_cons]
      by_cases hmem : id ∈ members.map IndexMember.id
      · rw [if_pos hmem, if_pos (List.mem_cons_of_mem _ hmem)]
      · by_cases hid : member.id = id
        · simp [hid]
        · simp [hmem, hid, Ne.symm hid]
    · rw [htable, BTreeMap.getElem?_erase_ite, BTreeMap.getElem?_insert_ite, List.find?_cons]
      by_cases hid : member.id = id
      · simp [hid, hfirst hid]
      · simp [hid]
    · rw [hchanges, BTreeMap.getElem?_erase_ite, BTreeMap.getElem?_insert_ite, List.find?_cons]
      by_cases hid : member.id = id
      · simp [hid, hfirst hid]
      · simp [hid]
    · rw [List.foldlM_cons, VersionEngine.insertAll, List.foldlM_cons, rebuildMember]
      cases hinsert : engine.insert member.id member.content with
      | error failure => rfl
      | ok inserted => exact hloop inserted

omit [VectorMath] [Unicode] in
theorem getElem?_dropRest (previous : BTreeMap M (MemberEntry P))
    (changes : BTreeMap M (MemberChange M P)) (id : M) :
    (dropRest previous changes)[id]? = match previous[id]? with
      | some entry => some (.dropped id entry)
      | none => changes[id]? := by
  have hkeys : (previous.toList.map Prod.fst).Nodup := BTreeMap.toList_keys_nodup previous
  rw [dropRest, BTreeMap.getElem?_foldl_insert _ hkeys, BTreeMap.find?_toList]
  cases previous[id]? <;> rfl

end Loops

/-! ## The versions built -/

/-- The configuration after a change, from the one before. -/
def IndexChange.configAfter (change : IndexChange M P R) (previous : Option IndexConfig) :
    Option IndexConfig :=
  match change with
  | .create config | .rebuild config _ => some config
  | .insert _ | .remove _ | .destroy _ => previous

/-- The configuration that the record of a change keeps. -/
def IndexChange.replacedConfig (change : IndexChange M P R) (previous : Option IndexConfig) :
    Option IndexConfig :=
  match change with
  | .rebuild _ _ => previous
  | .create _ | .insert _ | .remove _ | .destroy _ => none

/-- The member table an operation starts from. -/
def Current.table [LinearOrder M] (current : Current M P R) : BTreeMap M (MemberEntry P) :=
  match current with
  | some (_, payload) => payload.members
  | none => ∅

/-- What the engine an operation starts from keeps. -/
def Current.held [LinearOrder M] (current : Current M P R) (id : M) : Option HeldContent :=
  current.bind fun current => current.2.engine.held id

/-! ### Records of distinct identities -/

/-- The record of a list of distinct identities, in their order. -/
theorem mem_map_audit {ids : List M} {explain : M → MemberChange M P}
    (hid : ∀ id, (explain id).id = id) {audit : MemberChange M P} :
    audit ∈ ids.map explain ↔ audit.id ∈ ids ∧ explain audit.id = audit := by
  rw [List.mem_map]
  constructor
  · rintro ⟨id, hmem, rfl⟩
    rw [hid]
    exact ⟨hmem, rfl⟩
  · rintro ⟨hmem, heq⟩
    exact ⟨audit.id, hmem, heq⟩

theorem displacing_id (id : M) (previous : Option (MemberEntry P)) :
    (MemberChange.displacing id previous).id = id := by
  cases previous <;> rfl

theorem removing_id (id : M) (previous : Option (MemberEntry P)) :
    (MemberChange.removing id previous).id = id := by
  cases previous <;> rfl

variable [MemberIdentity M] {members : List (IndexMember M P)} {ids : List M}

theorem find?_map_const {id : M} {explained audit : MemberChange M P} :
    ((members.find? (·.id = id)).map fun _ => explained) = some audit ↔
      id ∈ members.map IndexMember.id ∧ explained = audit := by
  cases hfind : members.find? (·.id = id) with
  | none => simp [Sorted.find?_key_eq_none.mp hfind]
  | some member =>
    have hmem : id ∈ members.map IndexMember.id := by
      by_contra hnot
      rw [Sorted.find?_key_eq_none.mpr hnot] at hfind
      cases hfind
    simp [hmem]

theorem sortedMembers_nodup (hids : (members.map IndexMember.id).Nodup) :
    ((sortedMembers members).map IndexMember.id).Nodup :=
  ((Sorted.perm_byKey IndexMember.id members).map IndexMember.id).nodup_iff.mpr hids

theorem sortedMembers_strict (hids : (members.map IndexMember.id).Nodup) :
    (sortedMembers members).Pairwise fun left right => left.id < right.id :=
  Sorted.byKey_strict.mpr hids

/-- What an identity finds in a batch, it finds in the sorted batch. -/
theorem find?_sortedMembers (hids : (members.map IndexMember.id).Nodup) (id : M) :
    (sortedMembers members).find? (·.id = id) = members.find? (·.id = id) :=
  Sorted.find?_key_perm (Sorted.perm_byKey IndexMember.id members) (sortedMembers_nodup hids) id

theorem mem_sortedMembers {id : M} :
    id ∈ (sortedMembers members).map IndexMember.id ↔ id ∈ members.map IndexMember.id :=
  ((Sorted.perm_byKey IndexMember.id members).map IndexMember.id).mem_iff

theorem mem_sortedIds {id : M} : id ∈ sortedIds ids ↔ id ∈ ids :=
  (Sorted.perm_byKey (fun id : M => id) ids).mem_iff

theorem sortedIds_nodup (hids : ids.Nodup) : (sortedIds ids).Nodup :=
  (Sorted.perm_byKey (fun id : M => id) ids).nodup_iff.mpr hids

theorem sortedIds_strict (hids : ids.Nodup) : (sortedIds ids).Pairwise (· < ·) := by
  have hstrict := (@Sorted.byKey_strict M M _ (fun id => id) ids).mpr
  exact hstrict (by simpa using hids)

/-- The tokens that the documents of a change hold. -/
def IndexChange.tokens [Unicode] (change : IndexChange M P R) : Nat :=
  (change.members.map fun member => member.content.tokens).sum

theorem tokens_sortedMembers [Unicode] (members : List (IndexMember M P)) :
    ((sortedMembers members).map fun member => member.content.tokens).sum =
      (members.map fun member => member.content.tokens).sum :=
  ((Sorted.perm_byKey IndexMember.id members).map _).sum_eq

/-! ### One version after another -/

section Built

variable [VectorMath] [Unicode]

/-- A version that is what a change makes of what was there before. -/
structure Extends (change : IndexChange M P R) (current : Current M P R) (built : Built M P) :
    Prop where
  sound : built.engine.Sound
  engineConfig : built.engine.config = built.config
  members : ∀ id : M, built.members[id]? = change.entry built.target id current.table[id]?
  held : ∀ id, built.engine.held id = change.held id (current.held id)
  sorted : built.changes.Pairwise fun left right => left.id < right.id
  changes : ∀ audit, audit ∈ built.changes ↔
    change.audit audit.id current.table[audit.id]? = some audit
  fromVersion : built.fromVersion = current.map fun current => current.2.version
  target : match current with
    | some (_, payload) => payload.version.successor = .ok built.target
    | none => built.target = .FIRST
  config : some built.config = change.configAfter (current.map fun current => current.2.config)
  previousConfig : built.previousConfig =
    change.replacedConfig (current.map fun current => current.2.config)

variable {record : IndexRecord R} {current : VersionPayload M P} {target : IndexVersion}
  {built : Built M P}

/-- An insertion builds its engine, and the rest is settled before. -/
theorem insert_eq (hids : (members.map IndexMember.id).Nodup)
    (hnext : current.version.successor = .ok target) :
    ∃ table' : BTreeMap M (MemberEntry P),
      (∀ id : M, table'[id]? = (IndexChange.insert members : IndexChange M P R).entry target id
        current.members[id]?) ∧
      Apply.insert members current = do
        let engine ← current.engine.insertAll (sortedMembers members)
        return {
          fromVersion := some current.version
          target
          config := current.config
          engine
          members := table'
          changes := (sortedMembers members).map fun member =>
            .displacing member.id current.members[member.id]?
          previousConfig := none } := by
  obtain ⟨table', hlookup, hloop⟩ :=
    foldlM_insertMember target (sortedMembers_nodup hids) current.members
  refine ⟨table', fun id => ?_, ?_⟩
  · rw [hlookup, find?_sortedMembers hids, IndexChange.entry, IndexChange.effect]
    cases members.find? (·.id = id) <;> rfl
  · rw [Apply.insert, hnext, Outcome.ofResult_ok, Outcome.ok_bind, hloop]
    cases current.engine.insertAll (sortedMembers members) <;> rfl

theorem insert_extends (hsound : current.engine.Sound)
    (hconfig : current.engine.config = current.config)
    (hids : (members.map IndexMember.id).Nodup) (hok : Apply.insert members current = .ok built) :
    Extends (.insert members) (some (record, current)) built := by
  cases hnext : current.version.successor with
  | error e => rw [Apply.insert, hnext] at hok; cases hok
  | ok target =>
    obtain ⟨table', htable, heq⟩ := insert_eq (R := R) hids hnext
    rw [heq] at hok
    obtain ⟨engine, hengine, hbuilt⟩ := Outcome.bind_eq_ok.mp hok
    cases hbuilt
    have hall := VersionEngine.insertAll_spec hsound (sortedMembers_nodup hids) hengine
    refine ⟨hall.sound, hall.config.trans hconfig, htable, fun id => ?_, ?_, fun audit => ?_, rfl,
      hnext, rfl, rfl⟩
    · show engine.held id = IndexChange.held _ id (current.engine.held id)
      rw [hall.held, find?_sortedMembers hids, IndexChange.held, IndexChange.effect]
      cases members.find? (·.id = id) <;> rfl
    · rw [List.pairwise_map]
      simpa only [displacing_id] using sortedMembers_strict hids
    · have hmap : (sortedMembers members).map (fun member =>
          MemberChange.displacing member.id current.members[member.id]?) =
          ((sortedMembers members).map IndexMember.id).map fun id =>
            .displacing id current.members[id]? := by rw [List.map_map]; rfl
      rw [hmap, mem_map_audit fun id => displacing_id id _, IndexChange.audit, find?_map_const,
        mem_sortedMembers]
      rfl

omit [Unicode] in
/-- A removal builds its engine, and the rest is settled before. -/
theorem remove_eq (hids : ids.Nodup) (hnext : current.version.successor = .ok target) :
    ∃ table' : BTreeMap M (MemberEntry P),
      (∀ id : M, table'[id]? = if id ∈ ids then none else current.members[id]?) ∧
      Apply.remove ids current = do
        let engine ← current.engine.removeAll ((sortedIds ids).filter (· ∈ current.members))
        return {
          fromVersion := some current.version
          target
          config := current.config
          engine
          members := table'
          changes := (sortedIds ids).map fun id => .removing id current.members[id]?
          previousConfig := none } := by
  obtain ⟨table', hlookup, hloop⟩ := foldlM_removeMember (sortedIds_nodup hids) current.members
  refine ⟨table', fun id => ?_, ?_⟩
  · simp only [hlookup, mem_sortedIds]
  · rw [Apply.remove, hnext, Outcome.ofResult_ok, Outcome.ok_bind, hloop]
    cases current.engine.removeAll ((sortedIds ids).filter (· ∈ current.members)) <;> rfl

theorem insert_total (hsound : current.engine.Sound)
    (hconfig : current.engine.config = current.config) (hids : (members.map IndexMember.id).Nodup)
    (hfit : checkMembersFit current.config (sortedMembers members) = .ok ())
    (hnext : current.version.successor = .ok target) :
    (current.engine.HasRoom (sortedMembers members) ∧
      ∃ built, Apply.insert members current = .ok built) ∨
    (¬ current.engine.HasRoom (sortedMembers members) ∧
      Apply.insert members current = Outcome.panic "attempt to add with overflow") := by
  obtain ⟨table', -, heq⟩ := insert_eq (R := Unit) hids hnext
  rw [heq]
  rcases VersionEngine.insertAll_total hsound (sortedMembers_nodup hids)
      (hconfig.symm ▸ checkMembersFit_content hfit) with hok | hover
  · obtain ⟨hroom, engine, hengine⟩ := hok
    exact .inl ⟨hroom, _, by rw [hengine]; rfl⟩
  · obtain ⟨hfull, hpanic⟩ := hover
    exact .inr ⟨hfull, by rw [hpanic]; rfl⟩

/-- A removal builds what it should: no engine refuses one. -/
theorem remove_extends (hsound : current.engine.Sound)
    (hconfig : current.engine.config = current.config)
    (hvalid : checkIndexConfig current.config = .ok ())
    (hmembers : current.engine.holdsExactly current.members = true) (hids : ids.Nodup)
    (hnext : current.version.successor = .ok target) :
    ∃ built, Apply.remove ids current = .ok built ∧
      Extends (.remove ids) (some (record, current)) built := by
  obtain ⟨table', htable, heq⟩ := remove_eq hids hnext
  obtain ⟨engine, hengine, hall⟩ := VersionEngine.removeAll_spec hsound (hconfig ▸ hvalid)
    ((sortedIds ids).filter (· ∈ current.members))
  rw [hengine, Outcome.ok_bind] at heq
  refine ⟨_, heq, hall.sound, hall.config.trans hconfig, fun id => ?_, fun id => ?_, ?_,
    fun audit => ?_, rfl, hnext, rfl, rfl⟩
  · simp only [htable, IndexChange.entry, IndexChange.effect, Current.table]
    by_cases hid : id ∈ ids <;> simp [hid]
  · have hheld := VersionEngine.holdsExactly_iff.mp hmembers id
    show engine.held id = IndexChange.held _ id (current.engine.held id)
    simp only [hall.held, IndexChange.held, IndexChange.effect, List.mem_filter, mem_sortedIds,
      decide_eq_true_eq]
    by_cases hid : id ∈ ids
    · by_cases hmem : id ∈ current.members
      · simp [hid, hmem]
      · have hnone : current.engine.held id = none := by
          rw [BTreeMap.not_mem_iff.mp hmem] at hheld
          simpa using hheld
        simp [hid, hmem, hnone]
    · simp [hid]
  · rw [List.pairwise_map]
    simpa only [removing_id] using sortedIds_strict hids
  · rw [mem_map_audit fun id => removing_id id _, mem_sortedIds, IndexChange.audit]
    by_cases hid : audit.id ∈ ids <;> simp [hid, Current.table]

omit [VectorMath] [Unicode] in
/-- The values of a map of records under their own identities. -/
theorem audits_spec {changes : BTreeMap M (MemberChange M P)}
    (h : ∀ (id : M) (audit : MemberChange M P), changes[id]? = some audit → audit.id = id) :
    (changes.toList.map Prod.snd).Pairwise (fun left right => left.id < right.id) ∧
    ∀ audit, audit ∈ changes.toList.map Prod.snd ↔ changes[audit.id]? = some audit := by
  constructor
  · rw [List.pairwise_map]
    refine (BTreeMap.toList_sorted changes).imp_of_mem fun {left right} hleft hright hlt => ?_
    rwa [h left.1 left.2 (BTreeMap.mem_toList.mp hleft),
      h right.1 right.2 (BTreeMap.mem_toList.mp hright)]
  · intro audit
    rw [List.mem_map]
    constructor
    · rintro ⟨⟨id, audit⟩, hmem, rfl⟩
      have hlookup := BTreeMap.mem_toList.mp hmem
      rwa [h id audit hlookup]
    · intro hlookup
      exact ⟨(audit.id, audit), BTreeMap.mem_toList.mpr hlookup, rfl⟩

/-- A rebuild builds its engine, and the rest is settled before. -/
theorem rebuild_eq (config : IndexConfig) (hids : (members.map IndexMember.id).Nodup)
    (hnext : current.version.successor = .ok target) :
    ∃ (table' : BTreeMap M (MemberEntry P)) (changes' : List (MemberChange M P)),
      (∀ id : M, table'[id]? = (IndexChange.rebuild config members : IndexChange M P R).entry
        target id current.members[id]?) ∧
      (changes'.Pairwise fun left right => left.id < right.id) ∧
      (∀ audit, audit ∈ changes' ↔ (IndexChange.rebuild config members : IndexChange M P R).audit
        audit.id current.members[audit.id]? = some audit) ∧
      Apply.rebuild config members current = do
        let engine ← (VersionEngine.empty config).insertAll (sortedMembers members)
        return {
          fromVersion := some current.version
          target
          config
          engine
          members := table'
          changes := changes'
          previousConfig := some current.config } := by
  obtain ⟨previous', table', recorded, hprevious, htable, hrecorded, hloop⟩ :=
    foldlM_rebuildMember target (sortedMembers_nodup hids) current.members ∅ ∅
  have haudit (id : M) : (dropRest previous' recorded)[id]? =
      (IndexChange.rebuild config members : IndexChange M P R).audit id current.members[id]? := by
    rw [getElem?_dropRest, hprevious, hrecorded, find?_sortedMembers hids, IndexChange.audit]
    simp only [mem_sortedMembers]
    cases hfind : members.find? (·.id = id) with
    | some member =>
      have hmem : id ∈ members.map IndexMember.id := by
        by_contra hnot
        rw [Sorted.find?_key_eq_none.mpr hnot] at hfind
        cases hfind
      simp [hmem]
    | none =>
      have hnot := Sorted.find?_key_eq_none.mp hfind
      rw [if_neg hnot]
      cases current.members[id]? <;> simp
  have hown (id : M) (audit : MemberChange M P)
      (h : (dropRest previous' recorded)[id]? = some audit) : audit.id = id :=
    IndexChange.audit_id ((haudit id).symm.trans h)
  obtain ⟨hsorted, hmem⟩ := audits_spec hown
  refine ⟨table', (dropRest previous' recorded).toList.map Prod.snd, fun id => ?_, hsorted,
    fun audit => by rw [hmem, haudit], ?_⟩
  · rw [htable, find?_sortedMembers hids, IndexChange.entry, IndexChange.effect]
    cases members.find? (·.id = id) <;> simp
  · rw [Apply.rebuild, hnext, Outcome.ofResult_ok, Outcome.ok_bind, hloop]
    cases (VersionEngine.empty config).insertAll (sortedMembers members) <;> rfl

theorem rebuild_extends {config : IndexConfig} (hvalid : checkIndexConfig config = .ok ())
    (hids : (members.map IndexMember.id).Nodup)
    (hok : Apply.rebuild config members current = .ok built) :
    Extends (.rebuild config members) (some (record, current)) built := by
  cases hnext : current.version.successor with
  | error e => rw [Apply.rebuild, hnext] at hok; cases hok
  | ok target =>
    obtain ⟨table', changes', htable, hsorted, hmem, heq⟩ := rebuild_eq (R := R) config hids hnext
    rw [heq] at hok
    obtain ⟨engine, hengine, hbuilt⟩ := Outcome.bind_eq_ok.mp hok
    cases hbuilt
    have hall := VersionEngine.insertAll_spec (VersionEngine.empty_sound hvalid)
      (sortedMembers_nodup hids) hengine
    refine ⟨hall.sound, hall.config.trans (VersionEngine.empty_config config), htable,
      fun id => ?_, hsorted, hmem, rfl, hnext, rfl, rfl⟩
    rw [hall.held, find?_sortedMembers hids, VersionEngine.empty_held, IndexChange.held,
      IndexChange.effect]
    cases members.find? (·.id = id) <;> rfl

theorem rebuild_total {config : IndexConfig}
    (hids : (members.map IndexMember.id).Nodup)
    (hconfig : checkIndexConfig config = .ok ())
    (hfit : checkMembersFit config (sortedMembers members) = .ok ())
    (hnext : current.version.successor = .ok target) :
    ((members.map fun member => member.content.tokens).sum < usizeLimit ∧
      ∃ built, Apply.rebuild config members current = .ok built) ∨
    (usizeLimit ≤ (members.map fun member => member.content.tokens).sum ∧
      Apply.rebuild config members current = Outcome.panic "attempt to add with overflow") := by
  obtain ⟨table', changes', -, -, -, heq⟩ := rebuild_eq (R := Unit) config hids hnext
  rw [heq]
  have hsound : (VersionEngine.empty config : VersionEngine M).Sound :=
    VersionEngine.empty_sound hconfig
  have hcontent := checkMembersFit_content hfit
  have hroom := VersionEngine.empty_hasRoom (M := M) hconfig hcontent
  rw [tokens_sortedMembers] at hroom
  rw [← VersionEngine.empty_config (M := M) config] at hcontent
  rcases VersionEngine.insertAll_total hsound (sortedMembers_nodup hids) hcontent with hok | hover
  · obtain ⟨hfits, engine, hengine⟩ := hok
    exact .inl ⟨hroom.mp hfits, _, by rw [hengine]; rfl⟩
  · obtain ⟨hfull, hpanic⟩ := hover
    exact .inr ⟨Nat.le_of_not_lt fun hfits => hfull (hroom.mpr hfits), by rw [hpanic]; rfl⟩

omit [VectorMath] in
/-- An index is created empty. -/
theorem create_extends {config : IndexConfig} (hvalid : checkIndexConfig config = .ok ()) :
    Extends (.create config : IndexChange M P R) none {
      fromVersion := none
      target := .FIRST
      config
      engine := .empty config
      members := ∅
      changes := []
      previousConfig := none } where
  sound := VersionEngine.empty_sound hvalid
  engineConfig := VersionEngine.empty_config config
  members id := by simp [IndexChange.entry, IndexChange.effect, Current.table]
  held id := VersionEngine.empty_held config id
  sorted := .nil
  changes audit := by simp [IndexChange.audit]
  fromVersion := rfl
  target := rfl
  config := rfl
  previousConfig := rfl

end Built

/-! ## Undoing -/

theorem MemberChange.getElem?_undo (table : BTreeMap M (MemberEntry P)) (change : MemberChange M P)
    (id : M) : (undo table change)[id]? =
      if change.id = id then change.undone table[id]? else table[id]? := by
  unfold undo
  split
  · next entry hentry =>
    rw [BTreeMap.getElem?_insert_ite]
    split
    · next heq => rw [← heq, hentry]
    · rfl
  · next hnone =>
    rw [BTreeMap.getElem?_erase_ite]
    split
    · next heq => rw [← heq, hnone]
    · rfl

theorem MemberChange.getElem?_undoAll {changes : List (MemberChange M P)}
    (hids : (changes.map MemberChange.id).Nodup) (table : BTreeMap M (MemberEntry P)) (id : M) :
    (undoAll changes table)[id]? = match changes.find? (·.id = id) with
      | some change => change.undone table[id]?
      | none => table[id]? := by
  induction changes generalizing table with
  | nil => rfl
  | cons change changes ih =>
    obtain ⟨hnew, hids⟩ := List.nodup_cons.mp hids
    rw [undoAll, List.foldl_cons, List.find?_cons]
    refine (ih hids _).trans ?_
    rw [getElem?_undo]
    by_cases hid : change.id = id
    · have hnone : changes.find? (·.id = id) = none :=
        Sorted.find?_key_eq_none.mpr (hid ▸ hnew)
      simp [hid, hnone]
    · simp [hid]

/-- Undoing what a record explains, member by member, gives the table before it. -/
theorem undoAll_eq {change : IndexChange M P R} {target : IndexVersion}
    {before after : BTreeMap M (MemberEntry P)} {changes : List (MemberChange M P)}
    (hafter : ∀ id : M, after[id]? = change.entry target id before[id]?)
    (hsorted : changes.Pairwise fun left right => left.id < right.id)
    (hchanges : ∀ audit, audit ∈ changes ↔ change.audit audit.id before[audit.id]? = some audit) :
    MemberChange.undoAll changes after = before := by
  have hids : (changes.map MemberChange.id).Nodup :=
    List.pairwise_map.mpr (hsorted.imp fun hlt => hlt.ne)
  refine BTreeMap.ext_lookup fun id => ?_
  rw [MemberChange.getElem?_undoAll hids, hafter]
  have hundone := change.undone_audit target id before[id]?
  cases haudit : change.audit id before[id]? with
  | some audit =>
    have hid := IndexChange.audit_id haudit
    have hmem : audit ∈ changes := (hchanges audit).mpr (hid ▸ haudit)
    rw [(Sorted.find?_key hids).mpr ⟨hmem, hid⟩]
    simpa only [haudit] using hundone
  | none =>
    have hnone : changes.find? (·.id = id) = none := by
      refine List.find?_eq_none.mpr fun audit hmem hid => ?_
      have hid : audit.id = id := of_decide_eq_true hid
      rw [(hchanges audit), hid, haudit] at hmem
      cases hmem
    rw [hnone]
    simpa only [haudit] using hundone

end Heurema
