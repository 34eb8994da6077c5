import Heurema.Data.Program
import Mathlib.Logic.Relation

/-! # Programs that keep to a discipline

A rely and guarantee rule for programs that share a state. A world shows a state and knows
more of it: every call leads to a world that keeps the invariant and is later than the one
before. Whatever all later worlds keep is then known to a program however its calls are
interleaved with those of others. -/

open Program

/-- Worlds that show a state, their invariant, and what they may turn into. -/
structure Discipline {Call : Type} (Reply : Call → Type) (ε τ W : Type) where
  acts : Acts Reply ε τ
  view : W → τ
  Inv : W → Prop
  Later : W → W → Prop
  refl : ∀ w, Later w w
  trans : ∀ {v w x}, Later v w → Later w x → Later v x

namespace Discipline

variable {Call : Type} {Reply : Call → Type} {ε α β τ σ W : Type} {D : Discipline Reply ε τ W}
  {post post' : W → Outcome ε α → Prop} {w w' : W} {program : Program Reply ε α}

variable (D) in
/-- A program that leads to a later world by each of its calls, and ends as promised. -/
def Keeps (post : W → Outcome ε α → Prop) : W → Program Reply ε α → Prop
  | w, .done outcome => ∀ w', D.Later w w' → D.Inv w' → post w' outcome
  | w, .call c next => ∀ w', D.Later w w' → D.Inv w' →
    ∀ answer t, D.acts c (D.view w') answer t →
      ∃ x, D.view x = t ∧ D.Inv x ∧ D.Later w' x ∧
        (∀ reply, answer = .ok reply → Keeps post x (next reply)) ∧
        ∀ e, answer = .error e → ∀ y, D.Later x y → D.Inv y → post y (.error (.refused e))

namespace Keeps

theorem later (h : D.Keeps post w program) (hlater : D.Later w w') : D.Keeps post w' program := by
  cases program with
  | done outcome => exact fun x hx => h x (D.trans hlater hx)
  | call c next => exact fun x hx => h x (D.trans hlater hx)

theorem of_later (h : ∀ w', D.Later w w' → D.Inv w' → D.Keeps post w' program) :
    D.Keeps post w program := by
  cases program with
  | done outcome => exact fun x hx hinv => h x hx hinv x (D.refl x) hinv
  | call c next => exact fun x hx hinv => h x hx hinv x (D.refl x) hinv

theorem resume {c : Call} {next : Reply c → Program Reply ε α} {answer : Except ε (Reply c)} :
    D.Keeps post w (resume next answer) ↔
      (∀ reply, answer = .ok reply → D.Keeps post w (next reply)) ∧
        ∀ e, answer = .error e → ∀ y, D.Later w y → D.Inv y → post y (.error (.refused e)) := by
  cases answer with
  | ok reply =>
    constructor
    · intro h
      constructor
      · intro reply' hreply
        cases hreply
        exact h
      · intro e he
        cases he
    · intro h
      exact h.1 reply rfl
  | error e =>
    constructor
    · intro h
      constructor
      · intro reply hreply
        cases hreply
      · intro e' he
        cases he
        exact h
    · intro h
      exact h.2 e rfl

/-- One call, by what it answers in any later world. -/
theorem call {c : Call} {next : Reply c → Program Reply ε α}
    (h : ∀ w', D.Later w w' → D.Inv w' → ∀ answer t, D.acts c (D.view w') answer t →
      ∃ x, D.view x = t ∧ D.Inv x ∧ D.Later w' x ∧ D.Keeps post x (Program.resume next answer)) :
    D.Keeps post w (.call c next) := by
  intro w' hlater hinv answer t hacts
  obtain ⟨x, hview, hx, hafter, hkeeps⟩ := h w' hlater hinv answer t hacts
  exact ⟨x, hview, hx, hafter, resume.mp hkeeps⟩

theorem of_call {c : Call} {next : Reply c → Program Reply ε α}
    (h : D.Keeps post w (.call c next)) (hinv : D.Inv w) {answer : Except ε (Reply c)} {t : τ}
    (hacts : D.acts c (D.view w) answer t) :
    ∃ x, D.view x = t ∧ D.Inv x ∧ D.Later w x ∧ D.Keeps post x (Program.resume next answer) := by
  obtain ⟨x, hview, hx, hafter, hnext⟩ := h w (D.refl w) hinv answer t hacts
  exact ⟨x, hview, hx, hafter, resume.mpr hnext⟩

theorem bind {f : α → Program Reply ε β} {post : W → Outcome ε β → Prop}
    (h : D.Keeps (fun w outcome => match outcome with
      | .ok a => D.Keeps post w (f a)
      | .error failure => post w (.error failure)) w program) : D.Keeps post w (program >>= f) := by
  induction program generalizing w with
  | done outcome =>
    cases outcome with
    | ok a => exact of_later h
    | error failure => exact h
  | call c next ih =>
    intro w' hlater hinv answer t hacts
    obtain ⟨x, hview, hx, hafter, hok, herror⟩ := h w' hlater hinv answer t hacts
    exact ⟨x, hview, hx, hafter, fun reply hreply => ih reply (hok reply hreply), herror⟩

theorem imp (h : D.Keeps post w program)
    (himp : ∀ w outcome, D.Inv w → post w outcome → post' w outcome) :
    D.Keeps post' w program := by
  induction program generalizing w with
  | done outcome => exact fun x hx hinv => himp x outcome hinv (h x hx hinv)
  | call c next ih =>
    intro w' hlater hinv answer t hacts
    obtain ⟨x, hview, hx, hafter, hok, herror⟩ := h w' hlater hinv answer t hacts
    exact ⟨x, hview, hx, hafter, fun reply hreply => ih reply (hok reply hreply),
      fun e he y hy hinvy => himp y _ hinvy (herror e he y hy hinvy)⟩

/-- A program ends in a world that is later than the one it starts from. -/
theorem since {v : W} (h : D.Keeps post w program) (hlater : D.Later v w) :
    D.Keeps (fun w' outcome => D.Later v w' ∧ post w' outcome) w program := by
  induction program generalizing w with
  | done outcome => exact fun x hx hinv => ⟨D.trans hlater hx, h x hx hinv⟩
  | call c next ih =>
    intro w' hw' hinv answer t hacts
    obtain ⟨x, hview, hx, hafter, hok, herror⟩ := h w' hw' hinv answer t hacts
    have hvx := D.trans (D.trans hlater hw') hafter
    exact ⟨x, hview, hx, hafter, fun reply hreply => ih reply (hok reply hreply) hvx,
      fun e he y hy hinvy => ⟨D.trans hvx hy, herror e he y hy hinvy⟩⟩

end Keeps

/-! ## Pools -/

/-- A world of a pool whose programs all keep to the discipline. -/
structure Sound (D : Discipline Reply ε τ W) (w : W) (pool : Pool Reply ε τ α) : Prop where
  view : D.view w = pool.state
  inv : D.Inv w
  programs : ∀ program ∈ pool.programs, D.Keeps (fun _ _ => True) w program

variable {starts : Program Reply ε α → Prop} {pool pool' : Pool Reply ε τ α}

/-- Every step of a pool leads to a later world. -/
theorem Sound.step (hstarts : ∀ program, starts program → ∀ w, D.Inv w →
      D.Keeps (fun _ _ => True) w program)
    (h : D.Sound w pool) (hstep : Pool.Step D.acts starts pool pool') :
    ∃ w', D.Later w w' ∧ D.Sound w' pool' := by
  obtain ⟨hview, hinv, hprograms⟩ := h
  cases hstep with
  | @start state programs program started =>
    refine ⟨w, D.refl w, hview, hinv, ?_⟩
    intro other hother
    rcases List.mem_cons.mp hother with rfl | hother
    · exact hstarts _ started w hinv
    · exact hprograms other hother
  | @answered state after before behind c next answer acted =>
    have hcall := hprograms (.call c next) (List.mem_append_right _ List.mem_cons_self)
    rw [← show D.view w = state from hview] at acted
    obtain ⟨x, hx, hinvx, hlater, hnext⟩ := hcall.of_call hinv acted
    refine ⟨x, hlater, hx, hinvx, ?_⟩
    intro other hother
    rcases List.mem_append.mp hother with hother | hother
    · exact (hprograms other (List.mem_append_left _ hother)).later hlater
    · rcases List.mem_cons.mp hother with rfl | hother
      · exact hnext
      · exact (hprograms other (List.mem_append_right _ (List.mem_cons_of_mem _ hother))).later
          hlater
  | @lost state after before behind c next answer acted =>
    have hcall := hprograms (.call c next) (List.mem_append_right _ List.mem_cons_self)
    rw [← show D.view w = state from hview] at acted
    obtain ⟨x, hx, hinvx, hlater, -⟩ := hcall.of_call hinv acted
    refine ⟨x, hlater, hx, hinvx, ?_⟩
    intro other hother
    rcases List.mem_append.mp hother with hother | hother
    · exact (hprograms other (List.mem_append_left _ hother)).later hlater
    · exact (hprograms other (List.mem_append_right _ (List.mem_cons_of_mem _ hother))).later
        hlater
  | @dropped state before behind program =>
    refine ⟨w, D.refl w, hview, hinv, ?_⟩
    intro other hother
    rcases List.mem_append.mp hother with hother | hother
    · exact hprograms other (List.mem_append_left _ hother)
    · exact hprograms other (List.mem_append_right _ (List.mem_cons_of_mem _ hother))

theorem Sound.reachable (hstarts : ∀ program, starts program → ∀ w, D.Inv w →
      D.Keeps (fun _ _ => True) w program) (hinv : D.Inv w)
    (h : Pool.Reachable D.acts starts (D.view w) pool) : ∃ w', D.Later w w' ∧ D.Sound w' pool := by
  induction h with
  | init => exact ⟨w, D.refl w, rfl, hinv, by simp⟩
  | step reachable hstep ih =>
    obtain ⟨w', hlater, hsound⟩ := ih
    obtain ⟨x, hx, hsound'⟩ := hsound.step hstarts hstep
    exact ⟨x, D.trans hlater hx, hsound'⟩

/-- Steps of a pool lead to a later world. -/
theorem Sound.steps (hstarts : ∀ program, starts program → ∀ w, D.Inv w →
      D.Keeps (fun _ _ => True) w program) (h : D.Sound w pool)
    (hsteps : Relation.ReflTransGen (Pool.Step D.acts starts) pool pool') :
    ∃ w', D.Later w w' ∧ D.Sound w' pool' := by
  induction hsteps with
  | refl => exact ⟨w, D.refl w, h⟩
  | tail _ hstep ih =>
    obtain ⟨w', hlater, hsound⟩ := ih
    obtain ⟨x, hx, hsound'⟩ := hsound.step hstarts hstep
    exact ⟨x, D.trans hlater hx, hsound'⟩

/-- What a program promises is what it ends with beside a pool. -/
theorem Sound.beside {post : W → Outcome ε β → Prop} {program : Program Reply ε β}
    {last : Pool Reply ε τ α} {calls : List (Σ c : Call, Except ε (Reply c))}
    {outcome : Outcome ε β} (hstarts : ∀ program, starts program → ∀ w, D.Inv w →
      D.Keeps (fun _ _ => True) w program)
    (h : D.Sound w pool) (hkeeps : D.Keeps post w program)
    (hbeside : Pool.Beside D.acts starts program pool calls outcome last) :
    ∃ w', D.Later w w' ∧ D.Sound w' last ∧ post w' outcome := by
  induction hbeside generalizing w with
  | done => exact ⟨w, D.refl w, h, hkeeps w (D.refl w) h.inv⟩
  | step hstep rest ih =>
    obtain ⟨x, hx, hsound⟩ := h.step hstarts hstep
    obtain ⟨w', hlater, hlast, hpost⟩ := ih hsound (hkeeps.later hx)
    exact ⟨w', D.trans hx hlater, hlast, hpost⟩
  | @call c next pool last answer after calls outcome acted rest ih =>
    rw [← h.view] at acted
    obtain ⟨x, hview, hinv, hx, hnext⟩ := hkeeps.of_call h.inv acted
    have hsound : D.Sound x { pool with state := after } :=
      ⟨hview, hinv, fun other hother => (h.programs other hother).later hx⟩
    obtain ⟨w', hlater, hlast, hpost⟩ := ih hsound hnext
    exact ⟨w', D.trans hx hlater, hlast, hpost⟩

/-- Every call of a program beside a pool is answered in a world between the first and the
last. -/
theorem Sound.beside_answers {post : W → Outcome ε β → Prop} {program : Program Reply ε β}
    {last : Pool Reply ε τ α} {calls : List (Σ c : Call, Except ε (Reply c))}
    {outcome : Outcome ε β} (hstarts : ∀ program, starts program → ∀ w, D.Inv w →
      D.Keeps (fun _ _ => True) w program)
    (h : D.Sound w pool) (hkeeps : D.Keeps post w program)
    (hbeside : Pool.Beside D.acts starts program pool calls outcome last) :
    ∃ w', D.Later w w' ∧ D.Sound w' last ∧ post w' outcome ∧ ∀ made ∈ calls, ∃ x,
      D.Later w x ∧ D.Later x w' ∧ D.Inv x ∧ ∃ t, D.acts made.1 (D.view x) made.2 t := by
  induction hbeside generalizing w with
  | done =>
    refine ⟨w, D.refl w, h, hkeeps w (D.refl w) h.inv, ?_⟩
    intro made hmem
    cases hmem
  | step hstep rest ih =>
    obtain ⟨v, hv, hsound⟩ := h.step hstarts hstep
    obtain ⟨w', hlater, hlast, hpost, hanswers⟩ := ih hsound (hkeeps.later hv)
    refine ⟨w', D.trans hv hlater, hlast, hpost, ?_⟩
    intro made hmem
    obtain ⟨x, hx, hx', hacts⟩ := hanswers made hmem
    exact ⟨x, D.trans hv hx, hx', hacts⟩
  | @call c next pool last answer after calls outcome acted rest ih =>
    rw [← h.view] at acted
    obtain ⟨v, hview, hinv, hv, hnext⟩ := hkeeps.of_call h.inv acted
    have hsound : D.Sound v { pool with state := after } :=
      ⟨hview, hinv, fun other hother => (h.programs other hother).later hv⟩
    obtain ⟨w', hlater, hlast, hpost, hanswers⟩ := ih hsound hnext
    refine ⟨w', D.trans hv hlater, hlast, hpost, ?_⟩
    intro made hmem
    rcases List.mem_cons.mp hmem with rfl | hmem
    · exact ⟨w, D.refl w, D.trans hv hlater, h.inv, after, acted⟩
    · obtain ⟨x, hx, hx', hacts⟩ := hanswers made hmem
      exact ⟨x, D.trans hv hx, hx', hacts⟩

/-- A program whose next call changes no world beside a pool: the call is answered in a later
world, where the program goes on. -/
theorem Sound.beside_call {c : Call} {next : Reply c → Program Reply ε β}
    {last : Pool Reply ε τ α} {calls : List (Σ c : Call, Except ε (Reply c))}
    {outcome : Outcome ε β} (hstarts : ∀ program, starts program → ∀ w, D.Inv w →
      D.Keeps (fun _ _ => True) w program)
    (h : D.Sound w pool) (hsame : ∀ s answer t, D.acts c s answer t → t = s)
    (hbeside : Pool.Beside D.acts starts (.call c next) pool calls outcome last) :
    ∃ w' answer rest pool', calls = ⟨c, answer⟩ :: rest ∧ D.Later w w' ∧ D.Sound w' pool' ∧
      D.acts c (D.view w') answer (D.view w') ∧
      Pool.Beside D.acts starts (resume next answer) pool' rest outcome last := by
  generalize hprogram : Program.call c next = program at hbeside
  induction hbeside generalizing w with
  | done => cases hprogram
  | step hstep rest ih =>
    obtain ⟨x, hx, hsound⟩ := h.step hstarts hstep
    obtain ⟨w', answer, calls, pool', hcalls, hlater, hnext⟩ := ih hsound hprogram
    exact ⟨w', answer, calls, pool', hcalls, D.trans hx hlater, hnext⟩
  | @call c' next' pool last answer after calls outcome acted rest ih =>
    cases hprogram
    obtain rfl := hsame _ _ _ acted
    refine ⟨w, answer, calls, pool, rfl, D.refl w, h, ?_, rest⟩
    rw [h.view]
    exact acted

/-- A program that keeps to the discipline, at its next call beside a pool: steps of the pool
lead to the call, and the call to a later world, where the program goes on. -/
theorem Sound.beside_next {post : W → Outcome ε β → Prop} {c : Call}
    {next : Reply c → Program Reply ε β} {last : Pool Reply ε τ α}
    {calls : List (Σ c : Call, Except ε (Reply c))} {outcome : Outcome ε β}
    (hstarts : ∀ program, starts program → ∀ w, D.Inv w → D.Keeps (fun _ _ => True) w program)
    (h : D.Sound w pool) (hkeeps : D.Keeps post w (.call c next))
    (hbeside : Pool.Beside D.acts starts (.call c next) pool calls outcome last) :
    ∃ w' x answer rest, ∃ middle pool' : Pool Reply ε τ α, calls = ⟨c, answer⟩ :: rest ∧
      Relation.ReflTransGen (Pool.Step D.acts starts) pool middle ∧ D.Later w w' ∧
      D.Sound w' middle ∧ D.acts c (D.view w') answer (D.view x) ∧ D.Later w' x ∧
      D.Sound x pool' ∧ D.Keeps post x (resume next answer) ∧
      Pool.Beside D.acts starts (resume next answer) pool' rest outcome last := by
  generalize hprogram : Program.call c next = program at hbeside
  induction hbeside generalizing w with
  | done => cases hprogram
  | step hstep rest ih =>
    obtain ⟨v, hv, hsound⟩ := h.step hstarts hstep
    obtain ⟨w', x, answer, calls, middle, pool', hcalls, hsteps, hlater, hrest⟩ :=
      ih hsound (hkeeps.later hv) hprogram
    exact ⟨w', x, answer, calls, middle, pool', hcalls, .head hstep hsteps, D.trans hv hlater, hrest⟩
  | @call c' next' pool last answer after calls outcome acted rest ih =>
    cases hprogram
    rw [← h.view] at acted
    obtain ⟨x, hview, hinv, hx, hnext⟩ := hkeeps.of_call h.inv acted
    refine ⟨w, x, answer, calls, pool, { pool with state := after }, rfl, .refl, D.refl w, h, ?_, hx,
      ?_, hnext, rest⟩
    · rw [hview]
      exact acted
    · exact ⟨hview, hinv, fun other hother => (h.programs other hother).later hx⟩

end Discipline

/-! ## Pools over another state -/

namespace Pool

variable {Call : Type} {Reply : Call → Type} {ε α β σ τ : Type} {acts : Acts Reply ε σ}
  {acts' : Acts Reply ε τ} {starts : Program Reply ε α → Prop} {R : σ → τ → Prop}
  {pool pool' : Pool Reply ε σ α} {t : τ}

/-- A state that answers every call as another one does. -/
def Simulates (acts : Acts Reply ε σ) (acts' : Acts Reply ε τ) (R : σ → τ → Prop) : Prop :=
  ∀ s t, R s t → ∀ c answer s', acts c s answer s' → ∃ t', acts' c t answer t' ∧ R s' t'

theorem Step.simulates (hacts : Simulates acts acts' R) (hstep : Step acts starts pool pool')
    (h : R pool.state t) :
    ∃ t', Step acts' starts ⟨t, pool.programs⟩ ⟨t', pool'.programs⟩ ∧ R pool'.state t' := by
  cases hstep with
  | start started => exact ⟨t, .start started, h⟩
  | answered acted =>
    obtain ⟨t', hacted, ht'⟩ := hacts _ _ h _ _ _ acted
    exact ⟨t', .answered hacted, ht'⟩
  | lost acted =>
    obtain ⟨t', hacted, ht'⟩ := hacts _ _ h _ _ _ acted
    exact ⟨t', .lost hacted, ht'⟩
  | dropped => exact ⟨t, .dropped, h⟩

theorem Step.simulates_all (hacts : Simulates acts acts' R)
    (hsteps : Relation.ReflTransGen (Step acts starts) pool pool') (h : R pool.state t) :
    ∃ t', Relation.ReflTransGen (Step acts' starts) ⟨t, pool.programs⟩ ⟨t', pool'.programs⟩ ∧
      R pool'.state t' := by
  induction hsteps with
  | refl => exact ⟨t, .refl, h⟩
  | tail _ hstep ih =>
    obtain ⟨u, hsteps', hu⟩ := ih
    obtain ⟨t', hstep', ht'⟩ := hstep.simulates hacts hu
    exact ⟨t', hsteps'.tail hstep', ht'⟩

theorem Reachable.simulates (hacts : Simulates acts acts' R) {init : σ} {init' : τ}
    (hinit : R init init') (h : Reachable acts starts init pool) :
    ∃ t, Reachable acts' starts init' ⟨t, pool.programs⟩ ∧ R pool.state t := by
  induction h with
  | init => exact ⟨init', .init, hinit⟩
  | step reachable hstep ih =>
    obtain ⟨t, hreachable, ht⟩ := ih
    obtain ⟨t', hstep', ht'⟩ := hstep.simulates hacts ht
    exact ⟨t', hreachable.step hstep', ht'⟩

theorem Beside.simulates (hacts : Simulates acts acts' R) {program : Program Reply ε β}
    {calls : List (Σ c : Call, Except ε (Reply c))} {outcome : Outcome ε β}
    (hbeside : Beside acts starts program pool calls outcome pool') (h : R pool.state t) :
    ∃ t', Beside acts' starts program ⟨t, pool.programs⟩ calls outcome ⟨t', pool'.programs⟩ ∧
      R pool'.state t' := by
  induction hbeside generalizing t with
  | done => exact ⟨t, .done, h⟩
  | step hstep rest ih =>
    obtain ⟨t', hstep', ht'⟩ := hstep.simulates hacts h
    obtain ⟨last, hrest, hlast⟩ := ih ht'
    exact ⟨last, .step hstep' hrest, hlast⟩
  | call acted rest ih =>
    obtain ⟨t', hacted, ht'⟩ := hacts _ _ h _ _ _ acted
    obtain ⟨last, hrest, hlast⟩ := ih ht'
    exact ⟨last, .call hacted hrest, hlast⟩

end Pool
