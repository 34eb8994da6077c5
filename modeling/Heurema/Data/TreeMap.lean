import Mathlib.Order.Std
import Mathlib.Data.List.Perm.Basic
import Mathlib.Algebra.Order.BigOperators.Group.List
import Mathlib.Algebra.Order.Ring.Nat
import Mathlib.Tactic.Common

/-! # Ordered maps and sets

`BTreeMap` and `BTreeSet` are the extensional ordered trees of the standard
library under the comparison of a linear order, so that two maps with the same
lookups are equal and an iteration visits the keys in ascending order. The
lemmas here speak of lookups and of the entry list only; none looks inside a
tree. -/

/-- Keys that compare equal are equal, whichever equality test their type has. -/
instance lawfulEqCmp_compare {κ : Type} [LinearOrder κ] :
    Std.LawfulEqCmp (compare : κ → κ → Ordering) :=
  ⟨compare_eq_iff_eq.mp⟩

/-- The order of the keys, as one instance for every map over them. -/
instance transCmp_compare {κ : Type} [LinearOrder κ] :
    Std.TransCmp (compare : κ → κ → Ordering) := inferInstance

/-- An ordered map: what Rust's `BTreeMap` observes of its keys and values. -/
abbrev BTreeMap (κ ν : Type) [LinearOrder κ] := Std.ExtTreeMap κ ν compare

/-- An ordered set: what Rust's `BTreeSet` observes of its members. -/
abbrev BTreeSet (κ : Type) [LinearOrder κ] := Std.ExtTreeSet κ compare

namespace BTreeSet

open Std (ExtTreeSet)

variable {κ : Type} [LinearOrder κ] {s t : BTreeSet κ} {k : κ}

/-- The set of a list's members. -/
def ofList (l : List κ) : BTreeSet κ := ExtTreeSet.ofList l compare

theorem mem_insert_iff {j : κ} : j ∈ s.insert k ↔ j = k ∨ j ∈ s := by
  rw [ExtTreeSet.mem_insert, compare_eq_iff_eq, eq_comm]

theorem mem_erase_iff {j : κ} : j ∈ s.erase k ↔ j ≠ k ∧ j ∈ s := by
  rw [ExtTreeSet.mem_erase, ne_eq, compare_eq_iff_eq, ne_comm]

@[simp] theorem mem_ofList {l : List κ} : k ∈ ofList l ↔ k ∈ l := by
  simp [ofList, ExtTreeSet.mem_ofList]

theorem size_ofList_le (l : List κ) : (ofList l).size ≤ l.length :=
  ExtTreeSet.size_ofList_le

theorem toList_sorted (s : BTreeSet κ) : s.toList.Pairwise (· < ·) := by
  simpa [compare_lt_iff_lt] using s.ordered_toList

theorem toList_nodup (s : BTreeSet κ) : s.toList.Nodup :=
  (toList_sorted s).imp fun h heq => absurd (heq ▸ h) (lt_irrefl _)

theorem size_le_of_subset (h : ∀ k ∈ s, k ∈ t) : s.size ≤ t.size := by
  have hsub : s.toList.Subperm t.toList :=
    List.subperm_of_subset (toList_nodup s) fun k hk => by
      simpa using h k (by simpa using hk)
  simpa using hsub.length_le

theorem size_insert_new (h : k ∉ s) : (s.insert k).size = s.size + 1 := by
  rw [ExtTreeSet.size_insert, if_neg (by simpa using h)]

theorem size_erase_mem (h : k ∈ s) : (s.erase k).size + 1 = s.size := by
  have hpos : s.size ≠ 0 := fun hzero => by
    rw [← ExtTreeSet.eq_empty_iff_size_eq_zero] at hzero
    subst hzero
    simp at h
  rw [ExtTreeSet.size_erase, if_pos (by simpa using h)]
  omega

theorem insert_mem (h : k ∈ s) : s.insert k = s := by
  apply ExtTreeSet.ext_mem
  intro j
  rw [mem_insert_iff, or_iff_right_iff_imp]
  rintro rfl
  exact h

theorem erase_absent (h : k ∉ s) : s.erase k = s := by
  apply ExtTreeSet.ext_mem
  intro j
  rw [mem_erase_iff, and_iff_right_iff_imp]
  rintro hj rfl
  exact h hj

/-- A set of two members is those two. -/
theorem mem_of_size_two {j i : κ} (hsize : s.size = 2) (hk : k ∈ s) (hj : j ∈ s) (hne : k ≠ j)
    (hi : i ∈ s) : i = k ∨ i = j := by
  by_contra hother
  push Not at hother
  have hsub : [i, k, j].Subperm s.toList := List.subperm_of_subset
    (by simpa [hne] using hother) fun x hx => by
      simp only [List.mem_cons, List.not_mem_nil, or_false] at hx
      rcases hx with rfl | rfl | rfl <;> simpa
  have hlen := hsub.length_le
  simp [hsize] at hlen

end BTreeSet

namespace BTreeMap

open Std (ExtTreeMap)

variable {κ ν : Type} [LinearOrder κ] {m m' : BTreeMap κ ν} {k k' : κ} {v : ν}

theorem ext_lookup (h : ∀ k : κ, m[k]? = m'[k]?) : m = m' :=
  ExtTreeMap.ext_getElem? @h

theorem getElem?_insert_ite (m : BTreeMap κ ν) (k k' : κ) (v : ν) :
    (m.insert k v)[k']? = if k = k' then some v else m[k']? := by
  simp [ExtTreeMap.getElem?_insert]

theorem getElem?_erase_ite (m : BTreeMap κ ν) (k k' : κ) :
    (m.erase k)[k']? = if k = k' then none else m[k']? := by
  simp [ExtTreeMap.getElem?_erase]

theorem getElem?_alter_ite (m : BTreeMap κ ν) (k k' : κ) (f : Option ν → Option ν) :
    (m.alter k f)[k']? = if k = k' then f m[k]? else m[k']? := by
  simp [ExtTreeMap.getElem?_alter]

theorem getElem?_modify_ite (m : BTreeMap κ ν) (k k' : κ) (f : ν → ν) :
    (m.modify k f)[k']? = if k = k' then m[k]?.map f else m[k']? := by
  simp [ExtTreeMap.getElem?_modify]

theorem mem_insert_iff : k' ∈ m.insert k v ↔ k' = k ∨ k' ∈ m := by
  rw [ExtTreeMap.mem_insert, compare_eq_iff_eq, eq_comm]

theorem mem_iff : k ∈ m ↔ ∃ v, m[k]? = some v := by
  rw [ExtTreeMap.mem_iff_isSome_getElem?, Option.isSome_iff_exists]

theorem not_mem_iff : k ∉ m ↔ m[k]? = none := by
  rw [ExtTreeMap.mem_iff_isSome_getElem?, Option.not_isSome_iff_eq_none]

theorem size_insert_new (v : ν) (h : k ∉ m) : (m.insert k v).size = m.size + 1 := by
  rw [ExtTreeMap.size_insert, if_neg (by simpa using h)]

theorem size_erase_mem (h : k ∈ m) : (m.erase k).size + 1 = m.size := by
  have hpos : m.size ≠ 0 := fun hzero => by
    rw [← ExtTreeMap.eq_empty_iff_size_eq_zero] at hzero
    subst hzero
    simp at h
  rw [ExtTreeMap.size_erase, if_pos (by simpa using h)]
  omega

/-- Distinct keys number at most the size. -/
theorem length_le_size {l : List κ} (hnodup : l.Nodup) (hmem : ∀ k ∈ l, k ∈ m) :
    l.length ≤ m.size := by
  have hsub : l.Subperm m.keys := List.subperm_of_subset hnodup fun k hk => by
    simpa using hmem k hk
  simpa using hsub.length_le

theorem insert_lookup (h : m[k]? = some v) : m.insert k v = m := by
  apply ext_lookup
  intro k'
  rw [getElem?_insert_ite]
  split
  · next hk => rw [← hk, h]
  · rfl

theorem erase_absent (h : m[k]? = none) : m.erase k = m := by
  apply ext_lookup
  intro k'
  rw [getElem?_erase_ite]
  split
  · next hk => rw [← hk, h]
  · rfl

theorem insert_erase (m : BTreeMap κ ν) (k : κ) (v : ν) :
    (m.erase k).insert k v = m.insert k v := by
  apply ext_lookup
  intro k'
  simp only [getElem?_erase_ite, getElem?_insert_ite]
  split <;> rfl

theorem eq_empty_iff : m = ∅ ↔ ∀ k : κ, m[k]? = none := by
  constructor
  · rintro rfl k
    simp
  · intro h
    exact ext_lookup fun k => by simpa using h k

theorem exists_lookup (h : m ≠ ∅) : ∃ (k : κ) (v : ν), m[k]? = some v := by
  by_contra hnone
  push Not at hnone
  exact h (eq_empty_iff.mpr fun k => Option.eq_none_iff_forall_ne_some.mpr (hnone k))

/-! ## The entry list -/

theorem mem_toList : (k, v) ∈ m.toList ↔ m[k]? = some v :=
  ExtTreeMap.mem_toList_iff_getElem?_eq_some

/-- The entries come in ascending order of their keys. -/
theorem toList_sorted (m : BTreeMap κ ν) : m.toList.Pairwise (fun a b => a.1 < b.1) := by
  simpa [compare_lt_iff_lt] using m.ordered_keys_toList

theorem keys_sorted (m : BTreeMap κ ν) : m.keys.Pairwise (· < ·) := by
  simpa [compare_lt_iff_lt] using m.ordered_keys

/-- A map that holds the entries of another, and no more keys, is the other. -/
theorem eq_of_size (h : ∀ (k : κ) (v : ν), m[k]? = some v → m'[k]? = some v) (hsize : m.size = m'.size) :
    m = m' := by
  have hsub : m.keys.Subperm m'.keys := by
    refine List.subperm_of_subset ((keys_sorted m).imp fun h => ne_of_lt h) fun k hk => ?_
    obtain ⟨v, hv⟩ := mem_iff.mp (by simpa using hk : k ∈ m)
    simpa using mem_iff.mpr ⟨v, h k v hv⟩
  have hperm := hsub.perm_of_length_le (by simp [hsize])
  apply ext_lookup
  intro k
  cases hk : m[k]? with
  | some v => exact (h k v hk).symm
  | none =>
    have hnot : k ∉ m' := fun hmem => by
      have : k ∈ m := by simpa using hperm.mem_iff.mpr (by simpa using hmem)
      exact not_mem_iff.mpr hk this
    exact (not_mem_iff.mp hnot).symm

theorem toList_nodup (m : BTreeMap κ ν) : m.toList.Nodup :=
  (toList_sorted m).imp fun h heq => absurd (heq ▸ h) (lt_irrefl _)

theorem toList_keys_nodup (m : BTreeMap κ ν) : (m.toList.map Prod.fst).Nodup := by
  rw [ExtTreeMap.map_fst_toList_eq_keys]
  exact (keys_sorted m).imp fun h => ne_of_lt h

/-- Two lists of the same entries in ascending order of distinct keys are one list. -/
theorem toList_unique {l : List (κ × ν)} (hsort : l.Pairwise (fun a b => a.1 < b.1))
    (hmem : ∀ k v, (k, v) ∈ l ↔ m[k]? = some v) : m.toList = l := by
  have hperm : m.toList.Perm l := by
    apply (List.perm_ext_iff_of_nodup (toList_nodup m)
      (hsort.imp fun h heq => absurd (heq ▸ h) (lt_irrefl _))).mpr
    intro entry
    exact mem_toList.trans (hmem entry.1 entry.2).symm
  refine hperm.eq_of_pairwise ?_ (toList_sorted m) hsort
  intro a b _ _ hab hba
  exact absurd (lt_trans hab hba) (lt_irrefl a.1)

theorem toList_insert_perm (v : ν) (h : m[k]? = none) :
    (m.insert k v).toList.Perm ((k, v) :: m.toList) := by
  apply (List.perm_ext_iff_of_nodup (toList_nodup _) ?_).mpr
  · rintro ⟨k', v'⟩
    simp only [List.mem_cons, mem_toList, getElem?_insert_ite, Prod.mk.injEq]
    by_cases hk : k = k'
    · subst hk
      simp [h, eq_comm]
    · simp [hk, Ne.symm hk]
  · refine List.nodup_cons.mpr ⟨?_, toList_nodup m⟩
    simp [h]

/-- A key above every other is listed last. -/
theorem toList_insert_last (v : ν) (h : ∀ entry ∈ m.toList, entry.1 < k) :
    (m.insert k v).toList = m.toList ++ [(k, v)] := by
  apply toList_unique
  · rw [List.pairwise_append]
    refine ⟨toList_sorted m, List.pairwise_singleton _ _, fun entry hentry last hlast => ?_⟩
    obtain rfl := List.mem_singleton.mp hlast
    exact h entry hentry
  · intro k' v'
    rw [getElem?_insert_ite, List.mem_append, List.mem_singleton, mem_toList, Prod.mk.injEq]
    by_cases hk : k = k'
    · subst hk
      have hnone : m[k]? = none := by
        cases hlookup : m[k]? with
        | none => rfl
        | some w => exact absurd (h (k, w) (mem_toList.mpr hlookup)) (lt_irrefl k)
      simp [hnone, eq_comm]
    · simp [hk, Ne.symm hk]

/-- A loop whose steps each change the entry of their own key, over distinct keys. -/
theorem getElem?_foldl_step {α μ : Type} {key : α → κ} {step : BTreeMap κ μ → α → BTreeMap κ μ}
    (change : α → Option μ → Option μ)
    (hstep : ∀ m a k, (step m a)[k]? = if key a = k then change a m[k]? else m[k]?) {l : List α}
    (hkeys : (l.map key).Nodup) (m : BTreeMap κ μ) (k : κ) :
    (l.foldl step m)[k]? =
      match l.find? (fun a => key a = k) with
      | some a => change a m[k]?
      | none => m[k]? := by
  induction l generalizing m with
  | nil => rfl
  | cons a l ih =>
    obtain ⟨hnew, hkeys⟩ := List.nodup_cons.mp hkeys
    rw [List.foldl_cons, ih hkeys, List.find?_cons]
    by_cases hk : key a = k
    · have hnone : l.find? (fun a => key a = k) = none := List.find?_eq_none.mpr fun b hb => by
        have hne : key b ≠ key a := fun heq => hnew (heq ▸ List.mem_map_of_mem hb)
        simpa [hk] using hne
      simp [hk, hnone, hstep]
    · simp [hk, hstep]

/-- Writing the values of a list of distinct keys over a map. -/
theorem getElem?_foldl_insert {α : Type} {key : α → κ} (value : α → ν) {l : List α}
    (hkeys : (l.map key).Nodup) (m : BTreeMap κ ν) (k : κ) :
    (l.foldl (fun m a => m.insert (key a) (value a)) m)[k]? =
      match l.find? (fun a => key a = k) with
      | some a => some (value a)
      | none => m[k]? :=
  getElem?_foldl_step (fun a _ => some (value a))
    (fun m a k => getElem?_insert_ite m (key a) k (value a)) hkeys m k

theorem find?_toList (m : BTreeMap κ ν) (k : κ) :
    m.toList.find? (fun entry => entry.1 = k) = m[k]?.map fun v => (k, v) := by
  refine Option.ext fun entry => ?_
  obtain ⟨k', v⟩ := entry
  constructor
  · intro h
    have hkey : k' = k := by simpa using List.find?_some h
    have hmem := mem_toList.mp (List.mem_of_find?_eq_some h)
    simp [← hkey, hmem]
  · intro h
    obtain ⟨v', hv, heq⟩ := Option.map_eq_some_iff.mp h
    cases heq
    cases hfind : m.toList.find? (fun entry => entry.1 = k) with
    | none =>
      have hnone := List.find?_eq_none.mp hfind (k, v) (mem_toList.mpr hv)
      simp at hnone
    | some other =>
      have hkey : other.1 = k := by simpa using List.find?_some hfind
      have hother : m[other.1]? = some other.2 := mem_toList.mp (List.mem_of_find?_eq_some hfind)
      rw [hkey, hv] at hother
      obtain rfl : v = other.2 := Option.some.inj hother
      rw [← hkey]

/-! ## Keys left out -/

/-- A map without the keys of a list. -/
def eraseAll (m : BTreeMap κ ν) (keys : List κ) : BTreeMap κ ν :=
  keys.foldl ExtTreeMap.erase m

theorem getElem?_eraseAll (m : BTreeMap κ ν) (keys : List κ) (k : κ) :
    (eraseAll m keys)[k]? = if k ∈ keys then none else m[k]? := by
  induction keys generalizing m with
  | nil => rfl
  | cons key keys ih =>
    rw [eraseAll, List.foldl_cons]
    refine (ih _).trans ?_
    rw [getElem?_erase_ite]
    by_cases hmem : k ∈ keys
    · simp [hmem]
    · simp [hmem, eq_comm (a := k)]

/-- A key that is left in may be written before or after the others are left out. -/
theorem eraseAll_insert {keys : List κ} (h : k ∉ keys) (m : BTreeMap κ ν) (v : ν) :
    eraseAll (m.insert k v) keys = (eraseAll m (k :: keys)).insert k v := by
  refine ext_lookup fun j => ?_
  simp only [getElem?_eraseAll, getElem?_insert_ite, List.mem_cons]
  by_cases hj : k = j
  · simp [← hj, h]
  · simp [hj, Ne.symm hj]

/-! ## Sums over the values -/

/-- The sum of `f` over the values of a map. -/
def sumBy (f : ν → Nat) (m : BTreeMap κ ν) : Nat :=
  (m.toList.map fun entry => f entry.2).sum

@[simp] theorem sumBy_empty (f : ν → Nat) : sumBy f (∅ : BTreeMap κ ν) = 0 := by
  simp [sumBy, ExtTreeMap.toList_eq_nil_iff.mpr]

theorem sumBy_insert_new (f : ν → Nat) (v : ν) (h : m[k]? = none) :
    sumBy f (m.insert k v) = sumBy f m + f v := by
  have hperm := (toList_insert_perm v h).map fun entry => f entry.2
  simp only [sumBy, hperm.sum_eq, List.map_cons, List.sum_cons]
  omega

theorem sumBy_erase (f : ν → Nat) (h : m[k]? = some v) :
    sumBy f m = sumBy f (m.erase k) + f v := by
  have hnone : (m.erase k)[k]? = none := by simp
  rw [← sumBy_insert_new f v hnone, insert_erase, insert_lookup h]

theorem le_sumBy (f : ν → Nat) (h : m[k]? = some v) : f v ≤ sumBy f m := by
  rw [sumBy_erase f h]
  omega

theorem sumBy_le (f : ν → Nat) (h : ∀ (k : κ) (v : ν), m[k]? = some v → m'[k]? = some v) :
    sumBy f m ≤ sumBy f m' := by
  have hsub : m.toList.Subperm m'.toList := by
    apply List.subperm_of_subset (toList_nodup m)
    rintro ⟨k, v⟩ hmem
    exact mem_toList.mpr (h k v (mem_toList.mp hmem))
  obtain ⟨l, hperm, hsublist⟩ := hsub
  calc sumBy f m = (l.map fun entry => f entry.2).sum := ((hperm.map _).sum_eq).symm
    _ ≤ sumBy f m' := (hsublist.map _).sum_le_sum fun _ _ => Nat.zero_le _

theorem sumBy_eraseAll_le (f : ν → Nat) (m : BTreeMap κ ν) (keys : List κ) :
    sumBy f (eraseAll m keys) ≤ sumBy f m := by
  refine sumBy_le f fun k v hk => ?_
  rw [getElem?_eraseAll] at hk
  by_cases hmem : k ∈ keys
  · rw [if_pos hmem] at hk
    cases hk
  · rwa [if_neg hmem] at hk

end BTreeMap
