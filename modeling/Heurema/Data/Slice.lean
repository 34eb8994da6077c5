import Heurema.Data.Program
import Mathlib.Logic.Relation

/-! # Slices of a run

Where the calls of some programs show nothing of the calls of others, the others can be left
out of a run: in what is left of it, the programs that stay make the same calls and get the
same answers. -/

open Program

namespace Pool

variable {Call : Type} {Reply : Call → Type} {ε α β σ τ : Type} {acts : Acts Reply ε σ}
  {acts' : Acts Reply ε τ} {starts : Program Reply ε α → Prop} {mine others : Call → Prop}

/-- The calls of one kind are answered on a smaller state as they are on the whole one, and
those of another kind change nothing of the smaller one, as long as the whole one stays
within bounds. -/
structure Separates (acts : Acts Reply ε σ) (acts' : Acts Reply ε τ) (mine others : Call → Prop)
    (Within : σ → Prop) (R : σ → τ → Prop) : Prop where
  within : ∀ {s c answer s'}, acts c s answer s' → Within s' → Within s
  mine : ∀ {s t c answer s'}, R s t → mine c → acts c s answer s' → Within s' →
    ∃ t', acts' c t answer t' ∧ R s' t'
  others : ∀ {s t c answer s'}, R s t → others c → acts c s answer s' → R s' t

/-- Programs of two kinds, and those of the first kind in their order. -/
inductive Slice (mine others : Call → Prop) :
    List (Program Reply ε α) → List (Program Reply ε α) → Prop where
  | nil : Slice mine others [] []
  | mine {program : Program Reply ε α} {programs kept : List (Program Reply ε α)}
      (makes : Makes mine program) (rest : Slice mine others programs kept) :
      Slice mine others (program :: programs) (program :: kept)
  | other {program : Program Reply ε α} {programs kept : List (Program Reply ε α)}
      (makes : Makes others program) (rest : Slice mine others programs kept) :
      Slice mine others (program :: programs) kept

namespace Slice

variable {programs kept before behind : List (Program Reply ε α)} {program : Program Reply ε α}

theorem append {kept' : List (Program Reply ε α)} (h : Slice mine others before kept)
    (h' : Slice mine others behind kept') : Slice mine others (before ++ behind) (kept ++ kept') := by
  induction h with
  | nil => exact h'
  | mine makes rest ih => exact .mine makes ih
  | other makes rest ih => exact .other makes ih

/-- A program in its place is kept in its place, or is of the other kind. -/
theorem split (h : Slice mine others (before ++ program :: behind) kept) :
    ∃ first second, Slice mine others before first ∧ Slice mine others behind second ∧
      (kept = first ++ program :: second ∧ Makes mine program ∨
        kept = first ++ second ∧ Makes others program) := by
  induction before generalizing kept with
  | nil =>
    cases h with
    | mine makes rest => exact ⟨[], _, .nil, rest, .inl ⟨rfl, makes⟩⟩
    | other makes rest => exact ⟨[], _, .nil, rest, .inr ⟨rfl, makes⟩⟩
  | cons other before ih =>
    cases h with
    | mine makes rest =>
      obtain ⟨first, second, hbefore, hbehind, hkept⟩ := ih rest
      refine ⟨other :: first, second, .mine makes hbefore, hbehind, ?_⟩
      rcases hkept with hkept | hkept
      · exact .inl ⟨congrArg (other :: ·) hkept.1, hkept.2⟩
      · exact .inr ⟨congrArg (other :: ·) hkept.1, hkept.2⟩
    | other makes rest =>
      obtain ⟨first, second, hbefore, hbehind, hkept⟩ := ih rest
      exact ⟨first, second, .other makes hbefore, hbehind, hkept⟩

end Slice

/-- The programs of a kind among those that start. -/
def StartsOf (starts : Program Reply ε α → Prop) (mine : Call → Prop)
    (program : Program Reply ε α) : Prop := starts program ∧ Makes mine program

variable {Within : σ → Prop} {R : σ → τ → Prop} {pool pool' : Pool Reply ε σ α} {t : τ}
  {kept : List (Program Reply ε α)}

/-- A step makes one call on the state, or leaves it as it is. -/
theorem Step.made (h : Step acts starts pool pool') : pool'.state = pool.state ∨
    ∃ c answer, acts c pool.state answer pool'.state := by
  cases h with
  | start started => exact .inl rfl
  | answered acted => exact .inr ⟨_, _, acted⟩
  | lost acted => exact .inr ⟨_, _, acted⟩
  | dropped => exact .inl rfl

/-- A preorder that every call keeps holds between the states before and after steps. -/
theorem Step.ordered {R : σ → σ → Prop} (hrefl : ∀ s, R s s)
    (htrans : ∀ {s t u}, R s t → R t u → R s u) (hacts : ∀ c s answer t, acts c s answer t → R s t)
    (h : Relation.ReflTransGen (Step acts starts) pool pool') : R pool.state pool'.state := by
  induction h with
  | refl => exact hrefl _
  | tail _ hstep ih =>
    rcases hstep.made with hsame | hmade
    · rw [hsame]
      exact ih
    · obtain ⟨c, answer, hacted⟩ := hmade
      exact htrans ih (hacts _ _ _ _ hacted)

theorem Beside.ordered {R : σ → σ → Prop} (hrefl : ∀ s, R s s)
    (htrans : ∀ {s t u}, R s t → R t u → R s u) (hacts : ∀ c s answer t, acts c s answer t → R s t)
    {program : Program Reply ε β} {calls : List (Σ c : Call, Except ε (Reply c))}
    {outcome : Outcome ε β} {last : Pool Reply ε σ α}
    (h : Beside acts starts program pool calls outcome last) : R pool.state last.state := by
  induction h with
  | done => exact hrefl _
  | step hstep rest ih => exact htrans (Step.ordered hrefl htrans hacts (.single hstep)) ih
  | call acted rest ih => exact htrans (hacts _ _ _ _ acted) ih

/-- The call that a program begins with beside a pool, where the program returns something. -/
theorem Beside.of_perform {c : Call} {f : Reply c → Program Reply ε β} {a : β}
    {calls : List (Σ c : Call, Except ε (Reply c))} {last : Pool Reply ε σ α}
    (h : Beside acts starts (perform c >>= f) pool calls (.ok a) last) :
    ∃ reply rest pool', calls = ⟨c, .ok reply⟩ :: rest ∧
      Beside acts starts (f reply) pool' rest (.ok a) last := by
  have h : Beside acts starts (.call c f) pool calls (.ok a) last := h
  obtain ⟨answer, rest, pool', rfl, hrest⟩ := h.of_call
  cases answer with
  | ok reply => exact ⟨reply, rest, pool', rfl, hrest⟩
  | error e => cases hrest.of_done.2

/-- A program that is part of the way beside a pool: the calls it made with their answers, what
is left of it, and the pool it came to. -/
inductive Along (acts : Acts Reply ε σ) (starts : Program Reply ε α → Prop) :
    Program Reply ε β → Pool Reply ε σ α → List (Σ c : Call, Except ε (Reply c)) →
      Program Reply ε β → Pool Reply ε σ α → Prop
  | here {program : Program Reply ε β} {pool : Pool Reply ε σ α} :
      Along acts starts program pool [] program pool
  | step {program left : Program Reply ε β} {pool pool' last : Pool Reply ε σ α}
      {calls : List (Σ c : Call, Except ε (Reply c))} (step : Step acts starts pool pool')
      (rest : Along acts starts program pool' calls left last) :
      Along acts starts program pool calls left last
  | call {c : Call} {next : Reply c → Program Reply ε β} {left : Program Reply ε β}
      {pool last : Pool Reply ε σ α} {answer : Except ε (Reply c)} {after : σ}
      {calls : List (Σ c : Call, Except ε (Reply c))} (acted : acts c pool.state answer after)
      (rest : Along acts starts (resume next answer) { pool with state := after } calls left last) :
      Along acts starts (call c next) pool (⟨c, answer⟩ :: calls) left last

/-- The way to a call of a program beside a pool, the call, and the way from there. -/
theorem Beside.split {program : Program Reply ε β} {c : Call} {answer : Except ε (Reply c)}
    {first rest : List (Σ c : Call, Except ε (Reply c))} {outcome : Outcome ε β}
    {last : Pool Reply ε σ α}
    (h : Beside acts starts program pool (first ++ ⟨c, answer⟩ :: rest) outcome last) :
    ∃ next middle after, Along acts starts program pool first (.call c next) middle ∧
      acts c middle.state answer after ∧
      Beside acts starts (resume next answer) { middle with state := after } rest outcome last := by
  generalize hcalls : first ++ ⟨c, answer⟩ :: rest = calls at h
  induction h generalizing first with
  | done => cases first <;> cases hcalls
  | step hstep hrest ih =>
    obtain ⟨next, middle, after, hfirst, hacted⟩ := ih hcalls
    exact ⟨next, middle, after, .step hstep hfirst, hacted⟩
  | @call c' next' pool last answer' after calls outcome acted hrest ih =>
    cases first with
    | nil =>
      cases hcalls
      exact ⟨next', pool, after, .here, acted, hrest⟩
    | cons made first =>
      obtain ⟨rfl, hrest'⟩ := List.cons.inj hcalls
      obtain ⟨next, middle, after', hfirst, hacted⟩ := ih hrest'
      exact ⟨next, middle, after', .call acted hfirst, hacted⟩

/-- A program comes to a state that has what every call keeps. -/
theorem Along.keeps {I : σ → Prop} (hacts : ∀ c s answer s', acts c s answer s' → I s → I s')
    {program left : Program Reply ε β} {calls : List (Σ c : Call, Except ε (Reply c))}
    {last : Pool Reply ε σ α} (h : Along acts starts program pool calls left last)
    (hinit : I pool.state) : I last.state := by
  induction h with
  | here => exact hinit
  | step hstep rest ih =>
    refine ih ?_
    rcases hstep.made with hsame | hmade
    · rw [hsame]
      exact hinit
    · obtain ⟨c, answer, hacted⟩ := hmade
      exact hacts _ _ _ _ hacted hinit
  | call acted rest ih => exact ih (hacts _ _ _ _ acted hinit)

theorem Separates.within_step (h : Separates acts acts' mine others Within R)
    (hstep : Step acts starts pool pool') (hwithin : Within pool'.state) : Within pool.state := by
  cases hstep with
  | start started => exact hwithin
  | answered acted => exact h.within acted hwithin
  | lost acted => exact h.within acted hwithin
  | dropped => exact hwithin

/-- One step of a run is a step of its slice, or none. -/
theorem Separates.step (h : Separates acts acts' mine others Within R)
    (hstarts : ∀ program, starts program → Makes mine program ∨ Makes others program)
    (hstep : Step acts starts pool pool') (hslice : Slice mine others pool.programs kept)
    (hR : R pool.state t) (hwithin : Within pool'.state) :
    ∃ t' kept', Relation.ReflTransGen (Step acts' (StartsOf starts mine)) ⟨t, kept⟩ ⟨t', kept'⟩ ∧
      Slice mine others pool'.programs kept' ∧ R pool'.state t' := by
  cases hstep with
  | @start state programs program started =>
    rcases hstarts _ started with hmine | hother
    · exact ⟨t, program :: kept, .single (.start ⟨started, hmine⟩), .mine hmine hslice, hR⟩
    · exact ⟨t, kept, .refl, .other hother hslice, hR⟩
  | @answered state after before behind c next answer acted =>
    obtain ⟨first, second, hbefore, hbehind, hkept⟩ := hslice.split
    rcases hkept with hkept | hkept
    · obtain ⟨rfl, hmakes⟩ := hkept
      cases hmakes with
      | call made rest =>
        obtain ⟨t', hacted, hR'⟩ := h.mine hR made acted hwithin
        have hresumed := Makes.resume rest answer
        exact ⟨t', _, .single (.answered hacted), hbefore.append (.mine hresumed hbehind), hR'⟩
    · obtain ⟨rfl, hmakes⟩ := hkept
      cases hmakes with
      | call made rest =>
        have hresumed := Makes.resume rest answer
        exact ⟨t, _, .refl, hbefore.append (.other hresumed hbehind), h.others hR made acted⟩
  | @lost state after before behind c next answer acted =>
    obtain ⟨first, second, hbefore, hbehind, hkept⟩ := hslice.split
    rcases hkept with hkept | hkept
    · obtain ⟨rfl, hmakes⟩ := hkept
      cases hmakes with
      | call made rest =>
        obtain ⟨t', hacted, hR'⟩ := h.mine hR made acted hwithin
        exact ⟨t', _, .single (.lost hacted), hbefore.append hbehind, hR'⟩
    · obtain ⟨rfl, hmakes⟩ := hkept
      cases hmakes with
      | call made rest =>
        exact ⟨t, _, .refl, hbefore.append hbehind, h.others hR made acted⟩
  | @dropped state before behind program =>
    obtain ⟨first, second, hbefore, hbehind, hkept⟩ := hslice.split
    rcases hkept with hkept | hkept
    · obtain ⟨rfl, -⟩ := hkept
      exact ⟨t, _, .single .dropped, hbefore.append hbehind, hR⟩
    · obtain ⟨rfl, -⟩ := hkept
      exact ⟨t, _, .refl, hbefore.append hbehind, hR⟩

theorem Reachable.steps {acts : Acts Reply ε σ} {init : σ} (h : Reachable acts starts init pool)
    (hsteps : Relation.ReflTransGen (Step acts starts) pool pool') :
    Reachable acts starts init pool' := by
  induction hsteps with
  | refl => exact h
  | tail _ hstep ih => exact ih.step hstep

/-- What every call keeps of the state, every run keeps. -/
theorem Reachable.keeps {acts : Acts Reply ε σ} {init : σ} {I : σ → Prop} (hinit : I init)
    (hacts : ∀ c s answer s', acts c s answer s' → I s → I s')
    (h : Reachable acts starts init pool) : I pool.state := by
  induction h with
  | init => exact hinit
  | step reachable hstep ih =>
    cases hstep with
    | start started => exact ih
    | answered acted => exact hacts _ _ _ _ acted ih
    | lost acted => exact hacts _ _ _ _ acted ih
    | dropped => exact ih

/-- What a run reaches, its slice reaches. -/
theorem Separates.reachable (h : Separates acts acts' mine others Within R)
    (hstarts : ∀ program, starts program → Makes mine program ∨ Makes others program)
    {init : σ} {init' : τ} (hinit : R init init') (hreached : Reachable acts starts init pool)
    (hwithin : Within pool.state) :
    ∃ t kept, Reachable acts' (StartsOf starts mine) init' ⟨t, kept⟩ ∧
      Slice mine others pool.programs kept ∧ R pool.state t := by
  induction hreached with
  | init => exact ⟨init', [], .init, .nil, hinit⟩
  | step reachable hstep ih =>
    obtain ⟨t, kept, hreachable, hslice, hR⟩ := ih (h.within_step hstep hwithin)
    obtain ⟨t', kept', hsteps, hslice', hR'⟩ := h.step hstarts hstep hslice hR hwithin
    exact ⟨t', kept', hreachable.steps hsteps, hslice', hR'⟩

theorem Beside.steps {acts : Acts Reply ε σ} {last : Pool Reply ε σ α} {program : Program Reply ε β}
    {calls : List (Σ c : Call, Except ε (Reply c))} {outcome : Outcome ε β}
    (hsteps : Relation.ReflTransGen (Step acts starts) pool pool')
    (h : Beside acts starts program pool' calls outcome last) :
    Beside acts starts program pool calls outcome last := by
  induction hsteps using Relation.ReflTransGen.head_induction_on with
  | refl => exact h
  | head hstep _ ih => exact .step hstep ih

/-- A program of the kind that stays makes the same calls beside the slice of a run, gets the
same answers, and ends alike. -/
theorem Separates.beside (h : Separates acts acts' mine others Within R)
    (hstarts : ∀ program, starts program → Makes mine program ∨ Makes others program)
    {last : Pool Reply ε σ α} {program : Program Reply ε β}
    {calls : List (Σ c : Call, Except ε (Reply c))} {outcome : Outcome ε β}
    (hmakes : Makes mine program) (hslice : Slice mine others pool.programs kept)
    (hR : R pool.state t) (hbeside : Beside acts starts program pool calls outcome last)
    (hwithin : Within last.state) :
    ∃ t' kept', Beside acts' (StartsOf starts mine) program ⟨t, kept⟩ calls outcome ⟨t', kept'⟩ ∧
      Slice mine others last.programs kept' ∧ R last.state t' := by
  have hearlier {program : Program Reply ε β} {pool last : Pool Reply ε σ α}
      {calls : List (Σ c : Call, Except ε (Reply c))} {outcome : Outcome ε β}
      (hbeside : Beside acts starts program pool calls outcome last) (hwithin : Within last.state) :
      Within pool.state := by
    induction hbeside with
    | done => exact hwithin
    | step hstep rest ih => exact h.within_step hstep (ih hwithin)
    | call acted rest ih => exact h.within acted (ih hwithin)
  induction hbeside generalizing t kept with
  | done => exact ⟨t, kept, .done, hslice, hR⟩
  | step hstep rest ih =>
    obtain ⟨t₁, kept₁, hsteps, hslice', hR'⟩ :=
      h.step hstarts hstep hslice hR (hearlier rest hwithin)
    obtain ⟨t', kept', hrest, hlast, hR''⟩ := ih hmakes hslice' hR' hwithin
    exact ⟨t', kept', hrest.steps hsteps, hlast, hR''⟩
  | call acted rest ih =>
    cases hmakes with
    | call made hnext =>
      obtain ⟨t₁, hacted, hR'⟩ := h.mine hR made acted (hearlier rest hwithin)
      obtain ⟨t', kept', hrest, hlast, hR''⟩ := ih (Makes.resume hnext _) hslice hR' hwithin
      exact ⟨t', kept', .call hacted hrest, hlast, hR''⟩

end Pool
