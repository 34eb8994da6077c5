import Mathlib.Data.List.Sort
import Mathlib.Data.Prod.Lex
import Mathlib.Order.OrderDual

/-! # Ranked lists

Scored keys sorted by descending score, and by ascending key where scores are
equal. With unique keys the result depends on the set of entries alone. -/

variable {κ F : Type} [LinearOrder κ] [LinearOrder F]

/-- Better first: the greater score, then the smaller key. -/
def outranks (left right : κ × F) : Prop :=
  right.2 < left.2 ∨ (right.2 = left.2 ∧ left.1 ≤ right.1)

instance : DecidableRel (outranks : κ × F → κ × F → Prop) :=
  fun _ _ => inferInstanceAs (Decidable (_ ∨ _))

theorem outranks_iff {left right : κ × F} : outranks left right ↔
    toLex (OrderDual.toDual left.2, left.1) ≤ toLex (OrderDual.toDual right.2, right.1) := by
  rw [outranks, Prod.Lex.toLex_le_toLex]
  simp only [OrderDual.toDual_lt_toDual, OrderDual.toDual_inj, eq_comm]

instance : IsTrans (κ × F) outranks :=
  ⟨fun _ _ _ h h' => outranks_iff.mpr ((outranks_iff.mp h).trans (outranks_iff.mp h'))⟩

instance : Std.Total (outranks : κ × F → κ × F → Prop) :=
  ⟨fun _ _ => by simp only [outranks_iff]; exact le_total _ _⟩

instance : Std.Antisymm (outranks : κ × F → κ × F → Prop) :=
  ⟨fun a b h h' => by
    have heq := toLex.injective (le_antisymm (outranks_iff.mp h) (outranks_iff.mp h'))
    exact Prod.ext (congrArg Prod.snd heq) (congrArg Prod.fst heq)⟩

/-- The entries, best first. -/
def ranked (entries : List (κ × F)) : List (κ × F) := entries.insertionSort outranks

variable {entries entries' : List (κ × F)}

theorem ranked_perm (entries : List (κ × F)) : (ranked entries).Perm entries :=
  List.perm_insertionSort _ entries

theorem ranked_pairwise (entries : List (κ × F)) : (ranked entries).Pairwise outranks :=
  List.pairwise_insertionSort _ entries

/-- Ranking forgets the order of its input. -/
theorem ranked_unique (h : entries.Perm entries') : ranked entries = ranked entries' :=
  (((ranked_perm entries).trans h).trans (ranked_perm entries').symm).eq_of_pairwise'
    (ranked_pairwise entries) (ranked_pairwise entries')

/-- What stands before another entry outranks it. -/
theorem outranks_of_sublist {left right : κ × F} (h : [left, right].Sublist (ranked entries)) :
    outranks left right :=
  List.rel_of_pairwise_cons ((ranked_pairwise entries).sublist h) (by simp)

/-- Two members of a list stand in one order or the other. -/
theorem sublist_or_sublist {α : Type} {l : List α} {x y : α} (hx : x ∈ l) (hy : y ∈ l) (hne : x ≠ y) :
    [x, y].Sublist l ∨ [y, x].Sublist l := by
  induction l with
  | nil => cases hx
  | cons z l ih =>
    by_cases hxz : x = z
    · have hy : y ∈ l := (List.mem_cons.mp hy).resolve_left fun h => hne (hxz.trans h.symm)
      exact .inl (hxz ▸ (List.singleton_sublist.mpr hy).cons_cons x)
    · have hx : x ∈ l := (List.mem_cons.mp hx).resolve_left hxz
      by_cases hyz : y = z
      · exact .inr (hyz ▸ (List.singleton_sublist.mpr hx).cons_cons y)
      · have hy : y ∈ l := (List.mem_cons.mp hy).resolve_left hyz
        exact (ih hx hy).imp (·.cons z) (·.cons z)

/-- Against a greater key, a lesser score decides. -/
theorem outranks_of_lt {left right : κ × F} (h : left.1 < right.1) :
    outranks left right ↔ right.2 ≤ left.2 := by
  constructor
  · rintro (hlt | ⟨heq, -⟩)
    · exact hlt.le
    · exact heq.le
  · intro hle
    exact hle.lt_or_eq.imp_right fun heq => ⟨heq, h.le⟩

theorem outranks_of_gt {left right : κ × F} (h : right.1 < left.1) :
    outranks left right ↔ ¬ left.2 ≤ right.2 := by
  rw [not_le]
  exact or_iff_left fun ⟨_, hle⟩ => absurd h hle.not_gt

/-- Whether a member of a sorted list is among the first `k` is a matter of how many
stand before it. -/
theorem mem_take_sorted {α : Type} {r : α → α → Prop} [DecidableRel r] [DecidableEq α]
    [Std.Antisymm r] {l : List α} {k : Nat} {x : α} (hsorted : l.Pairwise r) (hnodup : l.Nodup)
    (hx : x ∈ l) : x ∈ l.take k ↔ (l.filter fun y => r y x ∧ y ≠ x).length < k := by
  obtain ⟨before, after, rfl⟩ := List.append_of_mem hx
  obtain ⟨-, hafter, hbefore⟩ := List.pairwise_append.mp hsorted
  obtain ⟨-, hxafter, hnew⟩ := List.nodup_append.mp hnodup
  have hxbefore : x ∉ before := fun hmem => hnew x hmem x List.mem_cons_self rfl
  have hfirst : before.filter (fun y => r y x ∧ y ≠ x) = before := by
    refine List.filter_eq_self.mpr fun y hy => ?_
    have hne : y ≠ x := fun heq => hxbefore (heq ▸ hy)
    simpa using ⟨hbefore y hy x List.mem_cons_self, hne⟩
  have hlast : after.filter (fun y => r y x ∧ y ≠ x) = [] := by
    refine List.filter_eq_nil_iff.mpr fun y hy => ?_
    have hxy := (List.pairwise_cons.mp hafter).1 y hy
    simpa using fun hyx => antisymm (r := r) hyx hxy
  rw [List.filter_append, List.filter_cons, hfirst, hlast]
  simp only [ne_eq, not_true, and_false, decide_false, Bool.false_eq_true, if_false,
    List.append_nil, List.take_append, List.mem_append]
  constructor
  · rintro (hmem | hmem)
    · exact absurd (List.mem_of_mem_take hmem) hxbefore
    · by_contra hle
      rw [show k - before.length = 0 by omega] at hmem
      cases hmem
  · intro hlt
    obtain ⟨n, hn⟩ : ∃ n, k - before.length = n + 1 := ⟨k - before.length - 1, by omega⟩
    rw [hn, List.take_succ_cons]
    exact .inr List.mem_cons_self
