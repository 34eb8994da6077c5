import Heurema.Data.TreeMap
import Mathlib.Data.List.Lex
import Mathlib.Logic.Function.Basic

/-! # Functions stored under encoded keys

`Keyed key m f` says that the ordered map `m` stores the function `f`, each argument under
its encoded key, and nothing else. Its rules are the operations of a store. Iterating over
the map lists the function in the order of the keys, so two stores whose encodings order
their arguments alike list them alike. -/

variable {κ τ ν : Type} [LinearOrder τ] {key : κ → τ} {m : BTreeMap τ ν} {f : κ → Option ν}

/-- What a map stores under encoded keys. -/
structure Keyed (key : κ → τ) (m : BTreeMap τ ν) (f : κ → Option ν) : Prop where
  lookup : ∀ k, m[key k]? = f k
  keys : ∀ (text : τ) (v : ν), m[text]? = some v → ∃ k, key k = text

/-- What a listing of a function in the order of its keys returns. -/
structure Listing (key : κ → τ) (f : κ → Option ν) (l : List (κ × ν)) : Prop where
  sorted : l.Pairwise fun a b => key a.1 < key b.1
  mem : ∀ k v, (k, v) ∈ l ↔ f k = some v

namespace Keyed

theorem empty : Keyed key (∅ : BTreeMap τ ν) fun _ => none where
  lookup k := by simp
  keys text v h := by simp at h

theorem congr {f' : κ → Option ν} (h : Keyed key m f) (heq : ∀ k, f k = f' k) : Keyed key m f' where
  lookup k := (h.lookup k).trans (heq k)
  keys := h.keys

theorem contains (h : Keyed key m f) (k : κ) : m.contains (key k) = (f k).isSome := by
  rw [← h.lookup]
  simp

section Update

variable [DecidableEq κ]

theorem insert (hkey : Function.Injective key) (h : Keyed key m f) (k : κ) (v : ν) :
    Keyed key (m.insert (key k) v) (Function.update f k (some v)) where
  lookup k' := by
    rw [BTreeMap.getElem?_insert_ite, h.lookup, Function.update_apply]
    exact if_congr (hkey.eq_iff.trans eq_comm) rfl rfl
  keys text w hw := by
    rw [BTreeMap.getElem?_insert_ite] at hw
    split at hw
    · next heq => exact ⟨k, heq⟩
    · exact h.keys text w hw

theorem erase (hkey : Function.Injective key) (h : Keyed key m f) (k : κ) :
    Keyed key (m.erase (key k)) (Function.update f k none) where
  lookup k' := by
    rw [BTreeMap.getElem?_erase_ite, h.lookup, Function.update_apply]
    exact if_congr (hkey.eq_iff.trans eq_comm) rfl rfl
  keys text w hw := by
    rw [BTreeMap.getElem?_erase_ite] at hw
    split at hw
    · cases hw
    · exact h.keys text w hw

/-- Erasing a list of keys one after the other. -/
theorem eraseAll (hkey : Function.Injective key) (ks : List κ) (h : Keyed key m f) :
    Keyed key (ks.foldl (fun m k => m.erase (key k)) m)
      (fun k => if k ∈ ks then none else f k) := by
  induction ks generalizing m f with
  | nil => simpa using h
  | cons k ks ih =>
    have herase := ih (h.erase hkey k)
    have hsame : (fun k' => if k' ∈ ks then none else Function.update f k none k') =
        fun k' => if k' ∈ k :: ks then none else f k' := by
      funext k'
      rw [Function.update_apply]
      by_cases hk : k' = k <;> by_cases hks : k' ∈ ks <;> simp [hk, hks]
    rw [hsame] at herase
    exact herase

end Update

/-- The entries of a store, in the order of the keys. -/
theorem lists (hkey : Function.Injective key) (h : Keyed key m f) :
    ∃ l, m.toList = l.map (fun entry => (key entry.1, entry.2)) ∧ Listing key f l := by
  have hentries : ∀ entry ∈ m.toList, ∃ k : κ, key k = entry.1 := fun entry hmem =>
    h.keys entry.1 entry.2 (BTreeMap.mem_toList.mp hmem)
  obtain ⟨l, hl⟩ : ∃ l : List (κ × ν), m.toList = l.map fun entry => (key entry.1, entry.2) := by
    generalize m.toList = entries at hentries
    induction entries with
    | nil => exact ⟨[], rfl⟩
    | cons entry entries ih =>
      obtain ⟨l, hl⟩ := ih fun other hmem => hentries other (List.mem_cons_of_mem _ hmem)
      obtain ⟨k, hk⟩ := hentries entry List.mem_cons_self
      exact ⟨(k, entry.2) :: l, by rw [List.map_cons, ← hl, hk]⟩
  refine ⟨l, hl, ?_, ?_⟩
  · have hsorted := BTreeMap.toList_sorted m
    rw [hl, List.pairwise_map] at hsorted
    exact hsorted
  · intro k v
    rw [← h.lookup, ← BTreeMap.mem_toList, hl, List.mem_map]
    constructor
    · intro hmem
      exact ⟨(k, v), hmem, rfl⟩
    · rintro ⟨⟨k', v'⟩, hmem, heq⟩
      injection heq with hk hv
      rw [← hkey hk, ← hv]
      exact hmem

end Keyed

namespace Listing

variable {l l' : List (κ × ν)}

/-- A function is listed in one way. -/
theorem unique (h : Listing key f l) (h' : Listing key f l') : l = l' := by
  have hnodup {l : List (κ × ν)} (h : Listing key f l) : l.Nodup :=
    h.sorted.imp fun hlt heq => absurd (heq ▸ hlt) (lt_irrefl _)
  have hperm : l.Perm l' := by
    apply (List.perm_ext_iff_of_nodup (hnodup h) (hnodup h')).mpr
    rintro ⟨k, v⟩
    exact (h.mem k v).trans (h'.mem k v).symm
  exact hperm.eq_of_pairwise (fun _ _ _ _ hab hba => absurd hba hab.asymm) h.sorted h'.sorted

/-- Encodings that order the arguments alike list a function alike. -/
theorem reorder {τ' : Type} [LinearOrder τ'] {key' : κ → τ'}
    (horder : ∀ k k', key k < key k' ↔ key' k < key' k') (h : Listing key f l) : Listing key' f l where
  sorted := h.sorted.imp fun hlt => (horder _ _).mp hlt
  mem := h.mem

/-- The part of a listing whose arguments have a first component. -/
theorem part {α β : Type} [DecidableEq α] {key : α × β → τ} {f : α × β → Option ν}
    {l : List ((α × β) × ν)} (h : Listing key f l) (a : α) :
    Listing (fun b => key (a, b)) (fun b => f (a, b))
      ((l.filter fun entry => entry.1.1 = a).map fun entry => (entry.1.2, entry.2)) where
  sorted := by
    rw [List.pairwise_map]
    refine (h.sorted.filter _).imp_of_mem fun {entry other} hentry hother hlt => ?_
    have ha : entry.1.1 = a := of_decide_eq_true (List.mem_filter.mp hentry).2
    have ha' : other.1.1 = a := of_decide_eq_true (List.mem_filter.mp hother).2
    have hkey : ∀ {entry : (α × β) × ν}, entry.1.1 = a → key (a, entry.1.2) = key entry.1 := by
      rintro entry rfl
      rfl
    rw [hkey ha, hkey ha']
    exact hlt
  mem b v := by
    rw [← h.mem, List.mem_map]
    constructor
    · rintro ⟨⟨⟨a', b'⟩, v'⟩, hmem, heq⟩
      obtain ⟨hmem, ha⟩ := List.mem_filter.mp hmem
      injection heq with hb hv
      have ha : a' = a := of_decide_eq_true ha
      rw [← ha, ← hb, ← hv]
      exact hmem
    · intro hmem
      exact ⟨((a, b), v), List.mem_filter.mpr ⟨hmem, decide_eq_true rfl⟩, rfl⟩

/-- The part of a listing whose arguments are of a kind lists the function on them. -/
theorem filter (h : Listing key f l) (p : κ → Prop) [DecidablePred p] :
    Listing key (fun k => if p k then f k else none) (l.filter fun entry => p entry.1) where
  sorted := h.sorted.filter _
  mem k v := by
    rw [List.mem_filter, h.mem, decide_eq_true_eq]
    by_cases hp : p k
    · simp [hp]
    · simp [hp]

/-- Functions that agree on arguments of a kind are listed alike there. -/
theorem filter_eq {f' : κ → Option ν} (h : Listing key f l) (h' : Listing key f' l') {p : κ → Prop}
    [DecidablePred p] (hsame : ∀ k, p k → f k = f' k) :
    (l.filter fun entry => p entry.1) = l'.filter fun entry => p entry.1 := by
  have hpart := h'.filter p
  have hagree : (fun k => if p k then f' k else none) = fun k => if p k then f k else none := by
    funext k
    split
    · next hp => exact (hsame k hp).symm
    · rfl
  rw [hagree] at hpart
  exact (h.filter p).unique hpart

/-- A function with no value is listed as nothing. -/
theorem nil (h : ∀ k, f k = none) : Listing key f [] where
  sorted := .nil
  mem k v := by simp [h]

/-- A function with one value is listed as that value. -/
theorem single {k : κ} {v : ν} (hvalue : f k = some v) (hother : ∀ k', k' ≠ k → f k' = none) :
    Listing key f [(k, v)] where
  sorted := List.pairwise_singleton _ _
  mem k' v' := by
    rw [List.mem_singleton, Prod.mk.injEq]
    constructor
    · rintro ⟨rfl, rfl⟩
      exact hvalue
    · intro h
      have hk : k' = k := by
        by_contra hne
        rw [hother k' hne] at h
        cases h
      subst hk
      rw [hvalue] at h
      exact ⟨rfl, (Option.some.inj h).symm⟩

end Listing

/-! ## Prefixes -/

section Prefix

variable {α : Type} [LinearOrder α] {p s t : List α}

/-- Texts compare by their fronts of one length, then by what follows. -/
theorem append_lt_append_iff {s' t' : List α} (hlen : s.length = t.length) :
    s ++ s' < t ++ t' ↔ s < t ∨ s = t ∧ s' < t' := by
  induction s generalizing t with
  | nil =>
    obtain rfl : t = [] := List.length_eq_zero_iff.mp hlen.symm
    simp
  | cons a s ih =>
    cases t with
    | nil => cases hlen
    | cons b t =>
      rw [List.cons_append, List.cons_append, List.cons_lt_cons_iff, List.cons_lt_cons_iff,
        ih (Nat.succ.inj hlen), List.cons.injEq]
      tauto

theorem not_lt_of_prefix (h : p <+: s) : ¬ s < p := by
  induction p generalizing s with
  | nil => simp
  | cons a p ih =>
    obtain ⟨rest, rfl⟩ := h
    rw [List.cons_append, List.cons_lt_cons_iff, not_or]
    exact ⟨lt_irrefl a, fun hlt => ih (List.prefix_append p rest) hlt.2⟩

/-- A text that is not below a prefix and does not start with it is above every text that
does. -/
theorem lt_of_not_prefix (hle : ¬ s < p) (hs : ¬ p <+: s) (ht : p <+: t) : t < s := by
  induction p generalizing s t with
  | nil => exact absurd List.nil_prefix hs
  | cons a p ih =>
    obtain ⟨rest, rfl⟩ := ht
    cases s with
    | nil => simp at hle
    | cons b s =>
      rw [List.cons_lt_cons_iff, not_or, not_lt] at hle
      rw [List.cons_append, List.cons_lt_cons_iff]
      rcases lt_or_eq_of_le hle.1 with hlt | rfl
      · exact .inl hlt
      · have hs : ¬ p <+: s := fun h => hs (List.cons_prefix_cons.mpr ⟨rfl, h⟩)
        exact .inr ⟨rfl, ih (fun hlt => hle.2 ⟨rfl, hlt⟩) hs (List.prefix_append p rest)⟩

/-- A range scan from a prefix, up to the first text without it, visits the texts with it. -/
theorem takeWhile_dropWhile_prefix {ν : Type} [DecidableEq α] {l : List (List α × ν)}
    (hsorted : l.Pairwise fun a b => a.1 < b.1) :
    (l.dropWhile fun entry => entry.1 < p).takeWhile (fun entry => p.isPrefixOf entry.1) =
      l.filter fun entry => p.isPrefixOf entry.1 := by
  induction l with
  | nil => rfl
  | cons entry l ih =>
    obtain ⟨hhead, htail⟩ := List.pairwise_cons.mp hsorted
    rw [List.dropWhile_cons, List.filter_cons]
    by_cases hlt : entry.1 < p
    · have hno : p.isPrefixOf entry.1 = false := by
        rw [← Bool.not_eq_true, List.isPrefixOf_iff_prefix]
        exact fun h => not_lt_of_prefix h hlt
      rw [if_pos (decide_eq_true hlt), if_neg (by simp [hno])]
      exact ih htail
    · rw [if_neg (by simpa using hlt)]
      have habove : ∀ other ∈ l, ¬ other.1 < p := fun other hmem h =>
        hlt ((hhead other hmem).trans h)
      by_cases hpre : p <+: entry.1
      · have hyes : p.isPrefixOf entry.1 = true := List.isPrefixOf_iff_prefix.mpr hpre
        have hdrop : l.dropWhile (fun entry => entry.1 < p) = l := by
          cases l with
          | nil => rfl
          | cons other l => exact List.dropWhile_cons_of_neg (by simpa using habove other (by simp))
        rw [List.takeWhile_cons, if_pos hyes, if_pos hyes, ← ih htail, hdrop]
      · have hno : ¬ p.isPrefixOf entry.1 = true := fun h =>
          hpre (List.isPrefixOf_iff_prefix.mp h)
        rw [List.takeWhile_cons, if_neg hno, if_neg hno, eq_comm, List.filter_eq_nil_iff]
        intro other hmem hother
        have hother := lt_of_not_prefix hlt hpre (List.isPrefixOf_iff_prefix.mp hother)
        exact absurd (hhead other hmem) hother.asymm

theorem head?_filter {β : Type} (q : β → Bool) (l : List β) :
    l.head?.filter q = (l.takeWhile q).head? := by
  cases l with
  | nil => rfl
  | cons b l =>
    rw [List.takeWhile_cons, List.head?_cons]
    cases hb : q b <;> simp [hb]

/-- The entries whose keys start with the prefix of a first component. -/
theorem Keyed.scan {β κ ν : Type} [DecidableEq α] [DecidableEq β] {key : β × κ → List α}
    {m : BTreeMap (List α) ν} {f : β × κ → Option ν} (hkey : Function.Injective key)
    (h : Keyed key m f) {b : β} (hp : ∀ place, p <+: key place ↔ b = place.1) :
    ∃ l, (m.toList.filter fun entry => p.isPrefixOf entry.1) =
        l.map (fun entry => (key (b, entry.1), entry.2)) ∧
      Listing (fun k => key (b, k)) (fun k => f (b, k)) l := by
  obtain ⟨l, hl, hlists⟩ := h.lists hkey
  refine ⟨_, ?_, hlists.part b⟩
  have hprefix : ∀ entry : (β × κ) × ν,
      p.isPrefixOf (key entry.1) = decide (entry.1.1 = b) := fun entry => by
    rw [Bool.eq_iff_iff, List.isPrefixOf_iff_prefix, hp, decide_eq_true_iff, eq_comm]
  rw [hl, List.filter_map, List.map_map]
  have hfilter : ((fun entry : List α × ν => p.isPrefixOf entry.1) ∘
      fun entry : (β × κ) × ν => (key entry.1, entry.2)) = fun entry => decide (entry.1.1 = b) :=
    funext hprefix
  rw [hfilter]
  apply List.map_congr_left
  intro entry hmem
  have hb : entry.1.1 = b := of_decide_eq_true (List.mem_filter.mp hmem).2
  obtain ⟨⟨b', k⟩, v⟩ := entry
  cases hb
  rfl

end Prefix
