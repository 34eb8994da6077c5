import Heurema.Lifecycle.Chain
import Heurema.Lifecycle.Distinct
import Heurema.Lifecycle.Order

/-! # Operations with one marker

A marker names an operation by its digest. Where digests tell the operations that are asked
for apart, two operations that stage under one marker on one chain stage the same bytes, so
that a chain is a history: what it published is what its own operations built. -/

namespace Heurema

open Serde Hnsw Digest

section Twins

variable {M P R : Type} [MemberIdentity M] [ProvenanceReference P] [RetentionReference R]

/-- The digests of the operations that are asked for tell them apart: the hash function does
not collide on their canonical bytes, and equal canonical bytes are those of one operation up
to its key and the order of its batch. -/
structure Distinguishes [Unicode] [Sha256] (issued : LifecycleOperation M P R → Prop) : Prop where
  collision : ∀ operation other, issued operation → issued other → ∀ bytes bytes',
    canonicalBytes operation = .ok bytes → canonicalBytes other = .ok bytes' →
    Sha256.digest (DOMAIN ++ bytes) = Sha256.digest (DOMAIN ++ bytes') → bytes = bytes'
  canonical : ∀ operation other, issued operation → issued other → ∀ bytes,
    canonicalBytes operation = .ok bytes → canonicalBytes other = .ok bytes →
    operation.index = other.index ∧ SameChange operation.change other.change

/-- Consumer types that serialize injectively leave one operation to equal canonical bytes. -/
theorem Distinguishes.of_injective [Unicode] [Sha256] {issued : LifecycleOperation M P R → Prop}
    (hM : Injective M) (hP : Injective P) (hR : Injective R)
    (hcollision : ∀ operation other, issued operation → issued other → ∀ bytes bytes',
      canonicalBytes operation = .ok bytes → canonicalBytes other = .ok bytes' →
      Sha256.digest (DOMAIN ++ bytes) = Sha256.digest (DOMAIN ++ bytes') → bytes = bytes') :
    Distinguishes issued where
  collision := hcollision
  canonical _ _ _ _ _ hbytes hbytes' := by
    obtain ⟨hindex, -, hchange⟩ := canonicalBytes_injective hM hP hR hbytes hbytes'
    exact ⟨hindex, hchange⟩

omit [MemberIdentity M] [ProvenanceReference P] [RetentionReference R] in
theorem Digest.SameChange.reordered {change other : IndexChange M P R}
    (h : SameChange change other) : change = other ∨ change.Reordered other := by
  cases change with
  | create config =>
    cases other with
    | create config' =>
      obtain rfl : config = config' := h
      exact .inl rfl
    | _ => exact h.elim
  | insert members =>
    cases other with
    | insert members' => exact .inr (.insert h)
    | _ => exact h.elim
  | remove ids =>
    cases other with
    | remove ids' => exact .inr (.remove h)
    | _ => exact h.elim
  | rebuild config members =>
    cases other with
    | rebuild config' members' =>
      obtain ⟨rfl, hmembers⟩ := h
      exact .inr (.rebuild hmembers)
    | _ => exact h.elim
  | destroy retention =>
    cases other with
    | destroy retention' =>
      obtain rfl : retention = retention' := h
      exact .inl rfl
    | _ => exact h.elim

variable [SerdeJson] [Unicode] [Sha256] {issued : LifecycleOperation M P R → Prop}
  {index : IndexIdentity}

omit [SerdeJson] in
theorem operationDigest_eq_ok {operation : LifecycleOperation M P R} {digest : OperationDigest}
    (h : operationDigest operation = .ok digest) : ∃ bytes, canonicalBytes operation = .ok bytes ∧
      digest.bytes = Sha256.digest (DOMAIN ++ bytes) := by
  unfold operationDigest at h
  split at h
  · cases h
  · next bytes hbytes =>
    cases h
    exact ⟨bytes, hbytes, rfl⟩

/-- Checked operations of one identity are one operation up to the order of its batch. -/
theorem Distinguishes.same (h : Distinguishes issued) {checked other : CheckedOperation M P R}
    (hissued : issued checked.operation) (hother : issued other.operation)
    (hidentity : checked.identity = other.identity) :
    checked = other ∨ checked.operation.Reordered other.operation := by
  obtain ⟨bytes, hbytes, hdigest⟩ := operationDigest_eq_ok checked.digest
  obtain ⟨bytes', hbytes', hdigest'⟩ := operationDigest_eq_ok other.digest
  have hhash : Sha256.digest (DOMAIN ++ bytes) = Sha256.digest (DOMAIN ++ bytes') := by
    rw [← hdigest, ← hdigest', hidentity]
  obtain rfl := h.collision _ _ hissued hother _ _ hbytes hbytes' hhash
  obtain ⟨hindex, hchange⟩ := h.canonical _ _ hissued hother _ hbytes hbytes'
  have hkey : checked.operation.key = other.operation.key := by
    rw [← checked.key, ← other.key, hidentity]
  rcases hchange.reordered with hsame | hreordered
  · refine .inl ?_
    obtain ⟨⟨index, key, change⟩, identity, _, _, _, _⟩ := checked
    obtain ⟨⟨index', key', change'⟩, identity', _, _, _, _⟩ := other
    cases hindex
    cases hkey
    cases hsame
    cases hidentity
    rfl
  · exact .inr ⟨hindex, hkey, hreordered⟩

variable [VectorMath] {head : Option Bytes} {payload : IndexVersion → Option Bytes}
  {publication twin : Publication M P R} {log : List (Commit M P R)}

/-- Operations of one identity build and write the same. -/
theorem Builds.same_writes (hdistinguishes : Distinguishes issued)
    (h : Builds issued index head payload publication) (htwin : Builds issued index head payload twin)
    (hidentity : twin.checked.identity = publication.checked.identity) :
    twin.next = publication.next ∧ twin.plan = publication.plan ∧
      twin.write = publication.write := by
  obtain ⟨record, current, validated, hread, hpermit, hnext, hencoded⟩ := h.built
  obtain ⟨record', current', validated', hread', hpermit', hnext', hencoded'⟩ := htwin.built
  rw [hread] at hread'
  cases hread'
  rcases hdistinguishes.same htwin.issued h.issued hidentity with hsame | hreordered
  · rw [hsame] at hpermit' hencoded'
    rw [hpermit] at hpermit'
    cases hpermit'
    rw [hnext] at hnext'
    have hbuilt := Except.ok.inj hnext'
    rw [← hbuilt, hencoded] at hencoded'
    have hwritten := Except.ok.inj hencoded'
    exact ⟨hbuilt.symm, (congrArg Prod.fst hwritten).symm, (congrArg Prod.snd hwritten).symm⟩
  · have hsorts := hreordered.change.checkChange.2 twin.checked.change
    rw [successor_reordered hreordered hsorts rfl rfl hidentity (permit_eq_ok hpermit').1
      (permit_eq_ok hpermit).1, hnext] at hnext'
    have hbuilt := Except.ok.inj hnext'
    rw [encodePlan_reordered hreordered hsorts, ← hbuilt, hencoded] at hencoded'
    have hwritten := Except.ok.inj hencoded'
    exact ⟨hbuilt.symm, (congrArg Prod.fst hwritten).symm, (congrArg Prod.snd hwritten).symm⟩

omit [VectorMath] in
/-- What a version's marker names is the identity of its operation. -/
theorem Advances.marker_identity (h : Advances index log publication)
    (h' : Advances index log twin) {expected expected' : Option Bytes} {version : IndexVersion}
    {marker bytes bytes' : Bytes}
    (hwrite : publication.write = .version expected version marker bytes)
    (hwrite' : twin.write = .version expected' version marker bytes') :
    twin.checked.identity = publication.checked.identity := by
  cases h with
  | destroy hdestroy =>
    rw [hwrite] at hdestroy
    cases hdestroy
  | version hsame _ _ _ _ _ hmarked =>
    rw [hwrite] at hsame
    cases hsame
    cases h' with
    | destroy hdestroy =>
      rw [hwrite'] at hdestroy
      cases hdestroy
    | version hsame' _ _ _ _ _ hmarked' =>
      rw [hwrite'] at hsame'
      cases hsame'
      rw [hmarked] at hmarked'
      exact (congrArg StagingMarker.operation (Except.ok.inj hmarked')).symm

/-- What was staged when a version was published is what its own operation stages. -/
theorem Commit.Found.stored (hdistinguishes : Distinguishes issued) (htop : Top index log)
    {commit : Commit M P R} (hfound : commit.Found issued index log)
    (hbuilds : Builds issued index (Chain.head log) (Chain.payload log) commit.toPublication)
    {expected : Option Bytes} {version : IndexVersion} {marker bytes : Bytes}
    (hwrite : commit.write = .version expected version marker bytes) :
    commit.stored = some bytes := by
  rw [Commit.Found, hwrite] at hfound
  obtain ⟨payload, hstored, twin, htwin, hstaged⟩ := hfound
  have hidentity := (hbuilds.advances htop).marker_identity (htwin.advances htop) hwrite hstaged
  obtain ⟨-, -, hsame⟩ := hbuilds.same_writes hdistinguishes htwin hidentity
  rw [hwrite, hstaged] at hsame
  cases hsame
  exact hstored

/-- The publications of a chain. -/
def Chain.publications (log : List (Commit M P R)) : List (Publication M P R) :=
  log.map Commit.toPublication

omit [VectorMath] in
theorem Chain.headBytes (log : List (Commit M P R)) :
    headBytes (publications log) = Chain.head log := by
  cases log <;> rfl

/-- What a chain published is what its operations stage. -/
theorem Chain.published_eq (hdistinguishes : Distinguishes issued) (h : Chain issued index log)
    (version : IndexVersion) :
    (publications log).findSome? (fun publication => publication.write.stages version) =
      published log version := by
  induction h with
  | nil => rfl
  | @commit log commit chain fresh builds found ih =>
    have hstages : commit.write.stages version =
        if commit.write.Names version then commit.stored else none := by
      cases hwrite : commit.write with
      | destroy expected versions => rfl
      | version expected target marker bytes =>
        rw [found.stored hdistinguishes chain.top builds hwrite]
        rfl
    rw [published, List.findSome?_cons, ← hstages, ← published, ← ih]
    rfl

theorem Chain.payloadBytes (hdistinguishes : Distinguishes issued) (h : Chain issued index log)
    (version : IndexVersion) :
    payloadBytes (publications log) version = Chain.payload log version := by
  have hpublished := h.published_eq hdistinguishes version
  cases log with
  | nil => rfl
  | cons commit log =>
    cases hwrite : commit.write with
    | destroy expected versions =>
      rw [Chain.payload_destroy hwrite]
      simp only [Heurema.payloadBytes, publications, List.map_cons, hwrite]
    | version expected target marker bytes =>
      rw [Chain.payload_version hwrite, ← hpublished]
      simp only [Heurema.payloadBytes, publications, List.map_cons, hwrite]

/-- A chain is a history of what its own operations built. -/
theorem Chain.history (hdistinguishes : Distinguishes issued) (h : Chain issued index log) :
    History index (publications log) := by
  induction h with
  | nil => exact .nil
  | @commit log commit chain fresh builds found ih =>
    obtain ⟨record, current, validated, hread, hpermit, hnext, hencoded⟩ := builds.built
    rw [← Chain.headBytes log, ← funext (chain.payloadBytes hdistinguishes)] at hread
    rw [← Chain.headBytes log] at hencoded
    refine .publish ih builds.indexed ?_ hread hpermit hnext hencoded
    intro earlier hearlier
    obtain ⟨other, hother, rfl⟩ := List.mem_map.mp hearlier
    exact fresh other hother

end Twins

section Sample

attribute [local instance] Consumer.identity Consumer.reference Unicode.ascii Consumer.sha256

/-- SHA-256 tells the operations of the consumer apart. -/
theorem Consumer.distinguishes : Distinguishes (· ∈ Consumer.operations) := by
  have hdigests : (Consumer.operations.map operationDigest).Nodup := by decide +kernel
  have htext : Injective Str := fun _ _ h => str_inj h
  refine .of_injective htext htext htext ?_
  intro operation other hissued hother bytes bytes' hbytes hbytes' hhash
  have hsame : operationDigest operation = operationDigest other := by
    simp only [operationDigest, hbytes, hbytes', hhash]
  obtain rfl := List.inj_on_of_nodup_map hdigests hissued hother hsame
  exact Except.ok.inj (hbytes.symm.trans hbytes')

end Sample

end Heurema
