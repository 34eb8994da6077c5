import Mathlib.Data.List.Forall2
import Mathlib.Tactic.Common

/-! # Computations that can refuse and can panic

`Outcome ε` is the result of a computation that returns a value, refuses with
an error of type `ε` it reports to its caller, or panics. `Ensures x P` says
that `x` returns a value with `P`; its rules follow the shape of a program. -/

/-- How a computation fails. -/
inductive Failure (ε : Type) where
  | refused (error : ε)
  | panicked (reason : String)
deriving DecidableEq

abbrev Outcome (ε : Type) := Except (Failure ε)

namespace Outcome

variable {ε α β : Type}

def refuse (error : ε) : Outcome ε α := .error (.refused error)

def panic (reason : String) : Outcome ε α := .error (.panicked reason)

/-- A fallible computation that cannot panic, run where a panic is possible. -/
def ofResult : Except ε α → Outcome ε α
  | .ok a => .ok a
  | .error e => refuse e

/-- `map_err`: a panic stays one. -/
def mapError {ε' : Type} (f : ε → ε') : Outcome ε α → Outcome ε' α
  | .ok a => .ok a
  | .error (.refused e) => refuse (f e)
  | .error (.panicked reason) => panic reason

/-- Runs a check over a list, up to the first refusal. -/
def checkEach (check : α → Outcome ε Unit) : List α → Outcome ε Unit
  | [] => .ok ()
  | item :: items => do
    check item
    checkEach check items

/-- `xs[i]` of a slice: an index out of range panics. -/
def index (xs : List α) (i : Nat) : Outcome ε α :=
  match xs[i]? with
  | some x => .ok x
  | none => panic "index out of bounds"

@[simp] theorem ofResult_ok (a : α) : ofResult (.ok a) = (.ok a : Outcome ε α) := rfl

@[simp] theorem ofResult_error (e : ε) : ofResult (.error e) = (refuse e : Outcome ε α) := rfl

@[simp] theorem ok_bind (a : α) (f : α → Except ε β) : (Except.ok a >>= f) = f a := rfl

@[simp] theorem error_bind (e : ε) (f : α → Except ε β) : (Except.error e >>= f) = .error e := rfl

@[simp] theorem refuse_bind (e : ε) (f : α → Outcome ε β) :
    ((refuse e : Outcome ε α) >>= f) = refuse e := rfl

@[simp] theorem pure_eq (a : α) : (pure a : Except ε α) = .ok a := rfl

theorem isOk_iff {x : Except ε Unit} : x.isOk = true ↔ x = .ok () := by
  cases x <;> simp [Except.isOk, Except.toBool]

theorem bind_eq_ok {x : Except ε α} {f : α → Except ε β} {b : β} :
    (x >>= f) = .ok b ↔ ∃ a, x = .ok a ∧ f a = .ok b := by
  cases x with
  | ok a => simp
  | error e => simp [bind, Except.bind]

theorem then_eq_ok {check : Except ε Unit} {next : Except ε α} {a : α} :
    (do check; next) = .ok a ↔ check = .ok () ∧ next = .ok a := by
  rw [bind_eq_ok]
  exact ⟨fun ⟨_, hcheck, hnext⟩ => ⟨hcheck, hnext⟩, fun ⟨hcheck, hnext⟩ => ⟨(), hcheck, hnext⟩⟩

theorem checkEach_eq_ok {check : α → Outcome ε Unit} {items : List α} :
    checkEach check items = .ok () ↔ ∀ item ∈ items, check item = .ok () := by
  induction items with
  | nil => simp [checkEach]
  | cons item items ih => rw [checkEach, then_eq_ok, ih, List.forall_mem_cons]

theorem mapError_eq_ok {ε' : Type} {f : ε → ε'} {x : Outcome ε α} {a : α} :
    mapError f x = .ok a ↔ x = .ok a := by
  unfold mapError
  split <;> simp [refuse, panic]

theorem ofResult_eq_ok {x : Except ε α} {a : α} :
    (ofResult x : Outcome ε α) = .ok a ↔ x = .ok a := by
  cases x <;> simp [refuse]

/-- A traversal that succeeds succeeds on every element. -/
theorem mapM_eq_ok {f : α → Except ε β} {xs : List α} {ys : List β} :
    xs.mapM f = .ok ys ↔ List.Forall₂ (fun x y => f x = .ok y) xs ys := by
  induction xs generalizing ys with
  | nil => simp [eq_comm]
  | cons x xs ih =>
    rw [List.mapM_cons]
    cases hx : f x with
    | error e => simp [List.forall₂_cons_left_iff, hx]
    | ok y =>
      cases hxs : xs.mapM f with
      | error e =>
        have hnone : ∀ ys, ¬ List.Forall₂ (fun x y => f x = .ok y) xs ys := fun ys h => by
          rw [← ih, hxs] at h
          cases h
        simp [List.forall₂_cons_left_iff, hx, hnone]
      | ok ys' =>
        have hys := fun ys => (@ih ys).symm.trans (by rw [hxs])
        simp [List.forall₂_cons_left_iff, hx, hys, eq_comm]

theorem mapM_of_ok {f : α → Except ε β} {g : α → β} {xs : List α} (h : ∀ x ∈ xs, f x = .ok (g x)) :
    xs.mapM f = .ok (xs.map g) :=
  mapM_eq_ok.mpr (List.forall₂_map_right_iff.mpr (List.forall₂_same.mpr h))

/-- Reading back every element of a list from what it was turned into. -/
theorem mapM_map_of_ok {γ : Type} {text : γ → α} {f : α → Except ε β} {g : γ → β} {xs : List γ}
    (h : ∀ x, f (text x) = .ok (g x)) : (xs.map text).mapM f = .ok (xs.map g) := by
  refine mapM_eq_ok.mpr (List.forall₂_map_left_iff.mpr (List.forall₂_map_right_iff.mpr ?_))
  exact List.forall₂_same.mpr fun x _ => h x

theorem exists_mapM_eq_ok {f : α → Except ε β} {xs : List α} :
    (∃ ys, xs.mapM f = .ok ys) ↔ ∀ x ∈ xs, ∃ y, f x = .ok y := by
  simp only [mapM_eq_ok]
  induction xs with
  | nil => simp
  | cons x xs ih =>
    rw [List.forall_mem_cons, ← ih]
    constructor
    · intro h
      obtain ⟨_, hxs⟩ := h
      obtain ⟨y, ys, hx, hxs, -⟩ := List.forall₂_cons_left_iff.mp hxs
      exact ⟨⟨y, hx⟩, ys, hxs⟩
    · rintro ⟨⟨y, hx⟩, ys, hxs⟩
      exact ⟨y :: ys, .cons hx hxs⟩

theorem index_eq_ok_iff {xs : List α} {i : Nat} {x : α} :
    (index xs i : Outcome ε α) = .ok x ↔ xs[i]? = some x := by
  unfold index
  cases xs[i]? with
  | none => simp [panic]
  | some y => simp

/-- `x` returns, and what it returns has `P`. -/
def Ensures (x : Outcome ε α) (P : α → Prop) : Prop := ∃ a, x = .ok a ∧ P a

namespace Ensures

variable {x : Outcome ε α} {f : α → Outcome ε β} {P Q : α → Prop} {R : β → Prop}

theorem ok {a : α} (h : P a) : Ensures (.ok a : Outcome ε α) P := ⟨a, rfl, h⟩

theorem mono (h : Ensures x P) (himp : ∀ a, P a → Q a) : Ensures x Q :=
  let ⟨a, ha, hp⟩ := h
  ⟨a, ha, himp a hp⟩

/-- What a computation ensures holds of what it returned. -/
theorem of_eq {a : α} (h : Ensures x P) (hx : x = .ok a) : P a := by
  obtain ⟨b, hb, hp⟩ := h
  obtain rfl := Except.ok.inj (hx.symm.trans hb)
  exact hp

theorem bind (h : Ensures x P) (hf : ∀ a, P a → Ensures (f a) R) : Ensures (x >>= f) R := by
  obtain ⟨a, rfl, hp⟩ := h
  exact hf a hp

/-- An invariant of the loop body is an invariant of the loop. -/
theorem foldlM {γ : Type} {body : α → γ → Outcome ε α} {items : List γ} {init : α}
    (hinit : P init) (hbody : ∀ a item, item ∈ items → P a → Ensures (body a item) P) :
    Ensures (items.foldlM body init) P := by
  induction items generalizing init with
  | nil => exact ok hinit
  | cons item rest ih =>
    rw [List.foldlM_cons]
    refine (hbody init item (by simp) hinit).bind fun a ha => ?_
    exact ih ha fun a item hmem => hbody a item (List.mem_cons_of_mem _ hmem)

end Ensures

/-! ## Which computations panic -/

def Panics (x : Outcome ε α) : Prop := ∃ reason, x = panic reason

section Panics

variable {x : Outcome ε α} {f : α → Outcome ε β}

@[simp] theorem panics_ok {a : α} : ¬ Panics (.ok a : Outcome ε α) := by
  rintro ⟨reason, h⟩
  cases h

@[simp] theorem panics_refuse {e : ε} : ¬ Panics (refuse e : Outcome ε α) := by
  rintro ⟨reason, h⟩
  cases h

@[simp] theorem panics_ofResult {r : Except ε α} : ¬ Panics (ofResult r) := by
  cases r <;> simp

theorem panics_bind : Panics (x >>= f) ↔ Panics x ∨ ∃ a, x = .ok a ∧ Panics (f a) := by
  match x with
  | .ok a => simp
  | .error (.refused e) => simp [Panics, panic]
  | .error (.panicked reason) => simp [Panics, panic]

theorem panics_then {check : Outcome ε Unit} {next : Outcome ε α} :
    Panics (do check; next) ↔ Panics check ∨ check = .ok () ∧ Panics next := by
  rw [panics_bind]
  exact or_congr_right ⟨fun ⟨_, h⟩ => h, fun h => ⟨(), h⟩⟩

@[simp] theorem panics_index {xs : List α} {i : Nat} :
    Panics (index xs i : Outcome ε α) ↔ xs.length ≤ i := by
  rw [index, ← List.getElem?_eq_none_iff]
  cases xs[i]? with
  | none => exact iff_of_true ⟨_, rfl⟩ rfl
  | some y => simp

/-- Over a sorted list a check panics at some item, having passed all before it. -/
theorem panics_checkEach {check : α → Outcome ε Unit} {items : List α} {before : α → α → Prop}
    (hsorted : items.Pairwise before) (hirrefl : ∀ a, ¬ before a a)
    (hasymm : ∀ a b, before a b → ¬ before b a) :
    Panics (checkEach check items) ↔ ∃ item ∈ items, Panics (check item) ∧
      ∀ earlier ∈ items, before earlier item → check earlier = .ok () := by
  induction items with
  | nil => simp [checkEach]
  | cons head items ih =>
    obtain ⟨hhead, hsorted⟩ := List.pairwise_cons.mp hsorted
    rw [checkEach, panics_then, ih hsorted]
    constructor
    · rintro (hpanic | ⟨hok, item, hitem, hpanic, hearlier⟩)
      · refine ⟨head, List.mem_cons_self, hpanic, fun earlier hmem hbefore => ?_⟩
        rcases List.mem_cons.mp hmem with rfl | hmem
        · exact absurd hbefore (hirrefl earlier)
        · exact absurd (hhead earlier hmem) (hasymm _ _ hbefore)
      · exact ⟨item, List.mem_cons_of_mem _ hitem, hpanic,
          List.forall_mem_cons.mpr ⟨fun _ => hok, hearlier⟩⟩
    · rintro ⟨item, hitem, hpanic, hearlier⟩
      rcases List.mem_cons.mp hitem with rfl | hitem
      · exact .inl hpanic
      · exact .inr ⟨hearlier head List.mem_cons_self (hhead item hitem), item, hitem, hpanic,
          fun earlier hmem => hearlier earlier (List.mem_cons_of_mem _ hmem)⟩

end Panics

end Outcome
