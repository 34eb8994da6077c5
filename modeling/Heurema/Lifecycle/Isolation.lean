import Heurema.Lifecycle.Drivers
import Heurema.Lifecycle.Twins

/-! # Readers beside drivers

A reader takes no lock: its reads are steps among those of any drivers. It returns the whole
payload of the version that was active when it first read the head, or finds the index gone. -/

namespace Heurema

open Serde Hnsw Digest

open Outcome (refuse)

variable {M P R : Type} [MemberIdentity M] [ProvenanceReference P] [RetentionReference R]
  [SerdeJson] [Unicode] [Sha256]

/-- How a read of an index ends: with the payload published as the version that the first
head read names, or without, when a head read found the index absent or destroyed. -/
inductive Isolated (index : IndexIdentity) (log : List (Publication M P R))
    (calls : List (Σ call : Call, Except HeuremaError call.Reply)) :
    Outcome HeuremaError (PublishedIndex M P) → Prop where
  | published {head : Bytes} {rest : List (Σ call : Call, Except HeuremaError call.Reply)}
      {config : IndexConfig} {publication : Publication M P R} {payload : VersionPayload M P}
      (first : calls = ⟨.readHead index, .ok (some head)⟩ :: rest)
      (decoded : decodeHead head index =
        .ok (⟨index, config, .active payload.version⟩ : IndexRecord R))
      (mem : publication ∈ log) (built : publication.next.payload = some payload) :
    Isolated index log calls (.ok (.fromPayload payload))
  | absent (read : ⟨.readHead index, .ok none⟩ ∈ calls) :
    Isolated index log calls (refuse (.indexNotFound index.display))
  | destroyed {head : Bytes} {config : IndexConfig} {last : IndexVersion} {retention : R}
      {key : OperationKey} (read : ⟨.readHead index, .ok (some head)⟩ ∈ calls)
      (decoded : decodeHead head index =
        .ok (⟨index, config, .destroyed last retention key⟩ : IndexRecord R)) :
    Isolated index log calls (refuse (.indexNotFound index.display))

variable [VectorMath] {issued : LifecycleOperation M P R → Prop} {limit : Option Nat}
  {index : IndexIdentity} {log : List (Commit M P R)} {world : World M P R}

/-- A chain that ends in a destroyed head is never longer. -/
theorem Chain.destroyed_whole {later : List (Commit M P R)} (h : Chain issued index (later ++ log))
    {head : Bytes} {config : IndexConfig} {last : IndexVersion} {retention : R} {key : OperationKey}
    (hhead : Chain.head log = some head) (hdecoded : decodeHead head index =
      .ok (⟨index, config, .destroyed last retention key⟩ : IndexRecord R)) : later = [] := by
  induction later using List.reverseRecOn with
  | nil => rfl
  | append_singleton later next ih =>
    exfalso
    rw [List.append_assoc] at h
    have h : Chain issued index (next :: log) := h.suffix
    cases h.advances.2 with
    | version hwrite hnumbered hstanding =>
      obtain ⟨config', active, hactive⟩ := hstanding head hhead
      rw [hactive] at hdecoded
      cases hdecoded
    | destroy hwrite hheaded hactive =>
      rw [hheaded] at hhead
      cases hhead
      rw [hactive] at hdecoded
      cases hdecoded

/-- The active payload of a chain is read whole, under the configuration of its head, and is
the one its last operation built. -/
theorem Chain.active_read (hdistinguishes : Distinguishes issued) (h : Chain issued index log)
    {head bytes : Bytes} {config : IndexConfig} {version : IndexVersion}
    (hhead : Chain.head log = some head)
    (hdecoded : decodeHead head index = .ok (⟨index, config, .active version⟩ : IndexRecord R))
    (hbytes : Chain.payload log version = some bytes) :
    ∃ payload : VersionPayload M P, payload.version = version ∧
      decodeActive bytes index version (⟨index, config, .active version⟩ : IndexRecord R) =
        .ok payload ∧
      ∃ publication ∈ publications log, publication.next.payload = some payload := by
  have hhistory := h.history hdistinguishes
  have hread := hhistory.readable.read
  rw [Chain.headBytes, hhead] at hread
  simp only [readCurrent, hdecoded, Outcome.ok_bind, h.payloadBytes hdistinguishes, hbytes]
    at hread
  obtain ⟨payload, hpayload, hread⟩ := Outcome.bind_eq_ok.mp hread
  have hcurrent : currentVersion (publications log) = some (_, payload) :=
    congrArg Prod.snd (Except.ok.inj hread).symm
  have hnamed : payload.version = version := by
    rw [decodeActive] at hpayload
    obtain ⟨decoded, hdecoded, hconfig⟩ := Outcome.bind_eq_ok.mp hpayload
    split at hconfig
    · cases hconfig
    · cases hconfig
      exact (decodePayload_named hdecoded).2
  refine ⟨payload, hnamed, hpayload, ?_⟩
  cases hlog : publications log with
  | nil =>
    rw [hlog] at hcurrent
    cases hcurrent
  | cons publication earlier =>
    rw [hlog] at hcurrent
    obtain ⟨built, hbuilt, hsame⟩ := Option.map_eq_some_iff.mp hcurrent
    obtain rfl : built = payload := congrArg Prod.snd hsame
    exact ⟨publication, List.mem_cons_self, hbuilt⟩

section Reading

variable {pool last : Pool Call.Reply HeuremaError (Store × List Write) Unit}
  {calls : List (Σ call : Call, Except HeuremaError call.Reply)}
  {outcome : Outcome HeuremaError (PublishedIndex M P)}

/-- An active version whose payload is gone is of an index that was destroyed since. -/
theorem Chain.gone {earlier : List (Commit M P R)} (h : Chain issued index log)
    (hearlier : earlier <:+ log) {version : IndexVersion} (hle : version.get ≤ earlier.length)
    (hgone : Chain.payload log version = none) : ∃ head config last retention key,
      Chain.head log = some head ∧ decodeHead head index =
        .ok (⟨index, config, .destroyed last retention key⟩ : IndexRecord R) := by
  have hle : version.get ≤ log.length := hle.trans hearlier.length_le
  cases h.top with
  | absent hempty =>
    have hpositive := version.nonzero
    rw [hempty, List.length_nil] at hle
    omega
  | active hheaded hdecoded =>
    obtain ⟨bytes, hbytes⟩ := h.payload_stored hheaded hdecoded hle
    rw [hgone] at hbytes
    cases hbytes
  | destroyed hheaded hdecoded => exact ⟨_, _, _, _, _, hheaded, hdecoded⟩

/-- A read of an index beside drivers. -/
theorem index_beside (hdistinguishes : Distinguishes issued)
    (hsound : (drivers issued limit).Sound world pool)
    (h : Pool.Beside (Store.acts limit) (Runs issued) (Driver.index R index) pool calls outcome
      last) :
    ∃ final : World M P R, world.Later final ∧ (drivers issued limit).Sound final last ∧
      Isolated index (Chain.publications (final.logs index)) calls outcome := by
  unfold Driver.index at h
  obtain ⟨first, rest, pool', rfl, hfirst, hsound', h⟩ := beside_readHead hsound h
  have hreflects := hsound'.inv.reflects index
  cases hreflects.chain.top with
  | absent hempty =>
    have hhead : Chain.head (first.logs index) = none := by
      rw [hempty]
      rfl
    rw [hhead] at h ⊢
    obtain ⟨final, rfl, rfl, hfinal, hlast⟩ := beside_done hsound' h
    exact ⟨final, fun index => (hfirst index).trans (hfinal index), hlast,
      .absent List.mem_cons_self⟩
  | @destroyed head config version retention key hheaded hdecoded =>
    rw [hheaded] at h ⊢
    simp only [hdecoded] at h
    obtain ⟨final, rfl, rfl, hfinal, hlast⟩ := beside_done hsound' h
    exact ⟨final, fun index => (hfirst index).trans (hfinal index), hlast,
      .destroyed List.mem_cons_self hdecoded⟩
  | @active head bytes config version payload hheaded hdecoded hnumbered hstored =>
    rw [hheaded] at h ⊢
    simp only [hdecoded] at h
    rw [Program.lift_ok] at h
    simp only [Driver.activePayload, Program.bind_assoc] at h
    obtain ⟨second, rest', pool'', rfl, hsecond, hsound'', h⟩ := beside_readVersion hsound' h
    have hle : version.get ≤ (first.logs index).length := hnumbered.le
    have hreflects' := hsound''.inv.reflects index
    cases hfound : second.store.payloads (index, version) with
    | some bytes =>
      rw [hfound] at h
      have hpayload := hreflects'.payload_earlier (hsecond index) hle hfound
      obtain ⟨payload, rfl, hactive, publication, hmem, hbuilt⟩ :=
        hreflects.chain.active_read hdistinguishes hheaded hdecoded hpayload
      simp only [hactive] at h
      obtain ⟨final, rfl, rfl, hfinal, hlast⟩ := beside_done hsound'' h
      have hlater : first.Later final := fun index => (hsecond index).trans (hfinal index)
      refine ⟨final, fun index => (hfirst index).trans (hlater index), hlast, ?_⟩
      refine .published rfl hdecoded ?_ hbuilt
      obtain ⟨commit, hcommit, rfl⟩ := List.mem_map.mp hmem
      exact List.mem_map_of_mem ((hlater index).mem hcommit)
    | none =>
      rw [hfound] at h
      rw [hreflects'.payload (hle.trans (hsecond index).length_le)] at hfound
      obtain ⟨head', config', last', retention, key, hheaded', hdecoded'⟩ :=
        hreflects'.chain.gone (hsecond index) hle hfound
      simp only [Driver.record, Program.bind_assoc] at h
      obtain ⟨third, rest, pool, rfl, hthird, hsound, h⟩ := beside_readHead hsound'' h
      obtain ⟨later, hlog⟩ := hthird index
      have hchain := (hsound.inv.reflects index).chain
      rw [← hlog] at hchain
      obtain rfl := hchain.destroyed_whole hheaded' hdecoded'
      have hhead : Chain.head (third.logs index) = some head' := by
        rw [← hlog]
        exact hheaded'
      rw [hhead] at h ⊢
      simp only [hdecoded'] at h
      obtain ⟨final, rfl, rfl, hfinal, hlast⟩ := beside_done hsound h
      refine ⟨final, fun index => ?_, hlast, .destroyed ?_ hdecoded'⟩
      · exact (((hfirst index).trans (hsecond index)).trans (hthird index)).trans (hfinal index)
      · exact List.mem_cons_of_mem _ (List.mem_cons_of_mem _ List.mem_cons_self)

end Reading

end Heurema
