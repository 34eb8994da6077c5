import Mathlib.Data.List.Basic
import Mathlib.Tactic.Common

/-! # Uniquely decodable texts

`Determines Spells a x` says that a text with the prefix `x` is read in one way:
whatever value is spelled at its front is `a`, and the same text follows. -/

variable {α β γ : Type} {Spells : α → List γ → Prop} {a : α} {x : List γ}

def Determines (Spells : α → List γ → Prop) (a : α) (x : List γ) : Prop :=
  ∀ b y s t, Spells b y → x ++ s = y ++ t → a = b ∧ x = y ∧ s = t

namespace Determines

theorem intro (h : ∀ b y s t, Spells b y → x ++ s = y ++ t → a = b ∧ s = t) :
    Determines Spells a x := by
  intro b y s t hb heq
  obtain ⟨rfl, rfl⟩ := h b y s t hb heq
  exact ⟨rfl, List.append_cancel_right heq, rfl⟩

/-- A value beside its text. -/
theorem self (h : Determines Spells a x) :
    Determines (fun part text => Spells part.1 part.2 ∧ text = part.2) (a, x) x := by
  rintro ⟨b, y⟩ text s t ⟨hspells, rfl⟩ heq
  obtain ⟨rfl, rfl, rfl⟩ := h b _ s t hspells heq
  exact ⟨rfl, rfl, rfl⟩

/-- A part of a spelling followed by another part. -/
theorem append {SpellsRest : β → List γ → Prop} {b : β} {y : List γ}
    (hx : Determines Spells a x) (hy : Determines SpellsRest b y) :
    Determines (fun parts text => Spells parts.1.1 parts.1.2 ∧ SpellsRest parts.2.1 parts.2.2 ∧
      text = parts.1.2 ++ parts.2.2) ((a, x), (b, y)) (x ++ y) := by
  rintro ⟨⟨a', x'⟩, b', y'⟩ text s t ⟨hx', hy', rfl⟩ heq
  rw [List.append_assoc, List.append_assoc] at heq
  obtain ⟨rfl, rfl, hrest⟩ := hx a' x' (y ++ s) (y' ++ t) hx' heq
  obtain ⟨rfl, rfl, rfl⟩ := hy b' y' s t hy' hrest
  exact ⟨rfl, rfl, rfl⟩

/-- As many spellings in a row. -/
theorem flatMap {text : α → List γ} {elements others : List α} {s t : List γ}
    (h : ∀ element ∈ elements, Determines Spells element (text element))
    (hothers : ∀ element ∈ others, Spells element (text element))
    (hlen : elements.length = others.length)
    (heq : elements.flatMap text ++ s = others.flatMap text ++ t) : elements = others ∧ s = t := by
  induction elements generalizing others s t with
  | nil =>
    obtain rfl : others = [] := List.length_eq_zero_iff.mp hlen.symm
    exact ⟨rfl, heq⟩
  | cons element elements ih =>
    cases others with
    | nil => cases hlen
    | cons other others =>
      rw [List.flatMap_cons, List.flatMap_cons, List.append_assoc, List.append_assoc] at heq
      obtain ⟨rfl, -, hrest⟩ := h element (by simp) other _ _ _ (hothers other (by simp)) heq
      obtain ⟨rfl, rfl⟩ := ih (fun e he => h e (by simp [he]))
        (fun e he => hothers e (by simp [he])) (Nat.succ.inj hlen) hrest
      exact ⟨rfl, rfl⟩

end Determines
