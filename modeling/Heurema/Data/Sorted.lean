import Mathlib.Data.List.Sort
import Mathlib.Order.Basic

/-! # Lists sorted by a key

A list is sorted by the keys of its elements. Elements of one key may come in
either order, so two permutations of a list sort alike when their keys are
distinct, and their keys sort alike always. -/

namespace Sorted

variable {α κ : Type} [LinearOrder κ] {key : α → κ} {l l' : List α}

/-- The elements in ascending order of their keys. -/
def byKey (key : α → κ) (l : List α) : List α :=
  l.insertionSort fun left right => key left ≤ key right

instance total_key (key : α → κ) : Std.Total fun left right => key left ≤ key right :=
  ⟨fun left right => le_total (key left) (key right)⟩

instance trans_key (key : α → κ) : IsTrans α fun left right => key left ≤ key right :=
  ⟨fun _ _ _ => le_trans⟩

theorem perm_byKey (key : α → κ) (l : List α) : (byKey key l).Perm l :=
  List.perm_insertionSort _ l

theorem byKey_sorted (key : α → κ) (l : List α) :
    (byKey key l).Pairwise fun left right => key left ≤ key right :=
  List.pairwise_insertionSort _ l

/-- The keys come in strictly ascending order when they are distinct. -/
theorem byKey_strict :
    (byKey key l).Pairwise (fun left right => key left < key right) ↔ (l.map key).Nodup := by
  rw [← ((perm_byKey key l).map key).nodup_iff, List.Nodup, List.pairwise_map]
  exact ⟨fun h => h.imp fun hlt => hlt.ne,
    fun h => (byKey_sorted key l).imp₂ (fun _ _ => lt_of_le_of_ne) h⟩

/-- No two neighbours share a key when no two elements do. -/
theorem neighbours_strict (h : l.Pairwise fun left right => key left ≤ key right) :
    (∀ pair ∈ l.zip l.tail, key pair.1 ≠ key pair.2) ↔
      l.Pairwise fun left right => key left < key right := by
  induction l with
  | nil => simp
  | cons first rest ih =>
    obtain ⟨hhead, htail⟩ := List.pairwise_cons.mp h
    cases rest with
    | nil => simp
    | cons next rest =>
      have hnext := (List.pairwise_cons.mp htail).1
      rw [List.tail_cons, List.zip_cons_cons, List.forall_mem_cons,
        show (next :: rest).zip rest = (next :: rest).zip (next :: rest).tail from rfl, ih htail,
        List.pairwise_cons (a := first)]
      refine and_congr_left fun _ => ⟨fun hne other hmem => ?_, fun hlt => (hlt next (by simp)).ne⟩
      have hfirst : key first < key next := lt_of_le_of_ne (hhead next (by simp)) hne
      rcases List.mem_cons.mp hmem with rfl | hother
      · exact hfirst
      · exact hfirst.trans_le (hnext other hother)

/-- The keys sort alike in every permutation. -/
theorem map_byKey_perm (h : l.Perm l') : (byKey key l).map key = (byKey key l').map key := by
  have hsorted (l : List α) : ((byKey key l).map key).Pairwise (· ≤ ·) :=
    List.pairwise_map.mpr (byKey_sorted key l)
  have hperm : ((byKey key l).map key).Perm ((byKey key l').map key) :=
    (((perm_byKey key l).trans h).trans (perm_byKey key l').symm).map key
  exact hperm.eq_of_pairwise (fun _ _ _ _ hab hba => le_antisymm hab hba) (hsorted l) (hsorted l')

/-- Elements of distinct keys sort alike in every permutation. -/
theorem byKey_perm (h : l.Perm l') (hnodup : (l.map key).Nodup) : byKey key l = byKey key l' := by
  have hperm : (byKey key l).Perm (byKey key l') :=
    ((perm_byKey key l).trans h).trans (perm_byKey key l').symm
  have hstrict' := byKey_strict.mpr ((h.map key).nodup_iff.mp hnodup)
  exact hperm.eq_of_pairwise (fun _ _ _ _ hab hba => absurd hab hba.asymm)
    (byKey_strict.mpr hnodup) hstrict'

/-! ## Finding by key -/

theorem find?_key (hnodup : (l.map key).Nodup) {k : κ} {a : α} :
    l.find? (fun a => decide (key a = k)) = some a ↔ a ∈ l ∧ key a = k := by
  constructor
  · intro h
    have hkey := List.find?_some h
    exact ⟨List.mem_of_find?_eq_some h, of_decide_eq_true hkey⟩
  · rintro ⟨hmem, rfl⟩
    induction l with
    | nil => cases hmem
    | cons first rest ih =>
      obtain ⟨hnew, hnodup⟩ := List.nodup_cons.mp hnodup
      rw [List.find?_cons]
      rcases List.mem_cons.mp hmem with rfl | hmem
      · simp
      · have hne : key first ≠ key a := fun heq => hnew (heq ▸ List.mem_map_of_mem hmem)
        simpa [hne] using ih hnodup hmem

theorem find?_key_eq_none {k : κ} :
    l.find? (fun a => decide (key a = k)) = none ↔ k ∉ l.map key := by
  simp [List.find?_eq_none]

/-- What a key finds does not depend on the order of the elements. -/
theorem find?_key_perm (h : l.Perm l') (hnodup : (l.map key).Nodup) (k : κ) :
    l.find? (fun a => decide (key a = k)) = l'.find? (fun a => decide (key a = k)) := by
  refine Option.ext fun a => ?_
  rw [find?_key hnodup, find?_key ((h.map key).nodup_iff.mp hnodup), h.mem_iff]

end Sorted
