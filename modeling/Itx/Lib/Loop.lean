import Itx.Lib.Call
import Mathlib

/-!
# Loops

A loop makes passes until one says that it is over, fails or panics. A pass is given
its number: what it reads of its surroundings may differ from one pass to the next.
With a bound on the passes the loop is a function (`loop`). It returns when some
bound is enough (`Returns`), that is, when it does not come to all of its passes
(`returns_iff_reaches`).

A measure that every pass going on lowers makes a loop return. It may also be lowered
by all but some of them: a loop returns exactly when only finitely many of the passes
it comes to go on without lowering the measure (`returns_iff_finite`).
-/

namespace Itx.Call

variable {σ ε : Type} {body : ℕ → Call σ ε Bool} {s s' s'' : σ} {n : ℕ}

/-- A loop from the pass `n` on, for at most some passes: none if they are not
    enough. -/
def loop (body : ℕ → Call σ ε Bool) : ℕ → ℕ → σ → Option (σ × Outcome ε Unit)
  | 0, _, _ => none
  | fuel + 1, n, s =>
    match body n s with
    | (s', .ok true) => loop body fuel (n + 1) s'
    | (s', .ok false) => some (s', .ok ())
    | (s', .err e) => some (s', .err e)
    | (s', .panic) => some (s', .panic)

/-- The loop returns. -/
def Returns (body : ℕ → Call σ ε Bool) (n : ℕ) (s : σ) : Prop :=
  ∃ fuel r, loop body fuel n s = some r

/-- The state a pass begins in, if the loop comes to it. -/
def reaches (body : ℕ → Call σ ε Bool) (s : σ) : ℕ → Option σ
  | 0 => some s
  | n + 1 => (reaches body s n).bind fun s' =>
    match body n s' with
    | (s'', .ok true) => some s''
    | _ => none

/-- A pass goes on from a state to another. -/
def GoesOn (body : ℕ → Call σ ε Bool) (n : ℕ) (s s' : σ) : Prop := body n s = (s', .ok true)

/-! ## Passes -/

theorem loop_goesOn (h : GoesOn body n s s') (fuel : ℕ) :
    loop body (fuel + 1) n s = loop body fuel (n + 1) s' := by
  rw [loop, h]

theorem loop_over (h : body n s = (s', .ok false)) (fuel : ℕ) :
    loop body (fuel + 1) n s = some (s', .ok ()) := by
  rw [loop, h]

theorem loop_err {e : ε} (h : body n s = (s', .err e)) (fuel : ℕ) :
    loop body (fuel + 1) n s = some (s', .err e) := by
  rw [loop, h]

/-- A loop whose first pass does not go on returns. -/
theorem returns_of_not_goesOn (h : ∀ s', ¬ GoesOn body n s s') : Returns body n s := by
  refine ⟨1, ?_⟩
  rw [loop]
  match hb : body n s with
  | (s', .ok true) => exact absurd hb (h s')
  | (s', .ok false) => exact ⟨_, rfl⟩
  | (s', .err e) => exact ⟨_, rfl⟩
  | (s', .panic) => exact ⟨_, rfl⟩

theorem returns_iff_of_goesOn (h : GoesOn body n s s') :
    Returns body n s ↔ Returns body (n + 1) s' := by
  constructor
  · rintro ⟨_ | fuel, r, hr⟩
    · cases hr
    · exact ⟨fuel, r, (loop_goesOn h fuel).symm.trans hr⟩
  · rintro ⟨fuel, r, hr⟩
    exact ⟨fuel + 1, r, (loop_goesOn h fuel).trans hr⟩

theorem reaches_succ : reaches body s (n + 1) = some s' ↔
    ∃ s₀, reaches body s n = some s₀ ∧ GoesOn body n s₀ s' := by
  rw [reaches, Option.bind_eq_some_iff]
  refine exists_congr fun s₀ => and_congr_right fun _ => ?_
  rw [GoesOn]
  split
  · next s'' h => rw [h, Option.some.injEq, Prod.mk.injEq, and_iff_left rfl]
  · next h => exact iff_of_false nofun fun he => h _ he

theorem reaches_eq_none {m : ℕ} (h : reaches body s n = none) (hm : n ≤ m) :
    reaches body s m = none := by
  induction hm with
  | refl => exact h
  | step _ ih => rw [reaches, ih, Option.bind_none]

/-- From a pass it comes to, the loop goes on as it does from there. -/
theorem returns_iff_of_reaches (h : reaches body s n = some s') :
    Returns body 0 s ↔ Returns body n s' := by
  induction n generalizing s' with
  | zero =>
    obtain rfl := Option.some.inj h
    rfl
  | succ n ih =>
    obtain ⟨s₀, h₀, hgo⟩ := reaches_succ.1 h
    rw [ih h₀, returns_iff_of_goesOn hgo]

/-- A loop that returns within some passes does not come to the pass after them. -/
theorem reaches_of_loop {fuel : ℕ} {r : σ × Outcome ε Unit} (h : reaches body s n = some s')
    (hr : loop body fuel n s' = some r) : reaches body s (n + fuel) = none := by
  induction fuel generalizing n s' with
  | zero => cases hr
  | succ fuel ih =>
    cases hnext : reaches body s (n + 1) with
    | none => exact reaches_eq_none hnext (by omega)
    | some s'' =>
      obtain ⟨s₀, h₀, hgo⟩ := reaches_succ.1 hnext
      obtain rfl := Option.some.inj (h.symm.trans h₀)
      rw [loop_goesOn hgo] at hr
      have := ih hnext hr
      rwa [show n + 1 + fuel = n + (fuel + 1) by omega] at this

/-- A loop that returns comes to a pass that says it is over. -/
theorem reaches_last {fuel : ℕ} (h : reaches body s n = some s')
    (hr : loop body fuel n s' = some (s'', .ok ())) :
    ∃ m s₀, reaches body s m = some s₀ ∧ body m s₀ = (s'', .ok false) := by
  induction fuel generalizing n s' with
  | zero => cases hr
  | succ fuel ih =>
    rw [loop] at hr
    split at hr
    · next s₁ hgo => exact ih (reaches_succ.2 ⟨s', h, hgo⟩) hr
    · next s₁ hover =>
      obtain ⟨rfl, -⟩ := Prod.mk.inj (Option.some.inj hr)
      exact ⟨n, s', h, hover⟩
    · cases hr
    · cases hr

/-- What holds at first and is kept by the passes that go on holds at every pass the
    loop comes to. -/
theorem reaches_invariant {I : ℕ → σ → Prop} (h₀ : I 0 s)
    (hgo : ∀ n s₀ s₁, I n s₀ → GoesOn body n s₀ s₁ → I (n + 1) s₁) (h : reaches body s n = some s') :
    I n s' := by
  induction n generalizing s' with
  | zero =>
    obtain rfl := Option.some.inj h
    exact h₀
  | succ n ih =>
    obtain ⟨s₀, h₀, hstep⟩ := reaches_succ.1 h
    exact hgo n s₀ s' (ih h₀) hstep

/-- A loop has enough passes if a measure that every pass going on lowers, unless it is
    the last but one, stays below their number. -/
theorem loop_ne_none {I : σ → Prop} {μ : σ → ℕ}
    (hI : ∀ n s₀ s₁, I s₀ → GoesOn body n s₀ s₁ → I s₁)
    (hμ : ∀ n s₀ s₁, I s₀ → GoesOn body n s₀ s₁ →
      μ s₁ < μ s₀ ∨ 0 < μ s₀ ∧ ∀ s₂, ¬ GoesOn body (n + 1) s₁ s₂) {fuel : ℕ} (hs : I s)
    (hfuel : μ s < fuel) : loop body fuel n s ≠ none := by
  induction fuel generalizing n s with
  | zero => exact absurd hfuel (Nat.not_lt_zero _)
  | succ fuel ih =>
    rw [loop]
    split
    · next s₁ hgo =>
      rcases hμ n s s₁ hs hgo with hlt | ⟨hpos, hstop⟩
      · exact ih (hI n s s₁ hs hgo) (by omega)
      · cases fuel with
        | zero => omega
        | succ fuel =>
          rw [loop]
          split
          · next s₂ hgo₂ => exact absurd hgo₂ (hstop s₂)
          · nofun
          · nofun
          · nofun
    · nofun
    · nofun
    · nofun

/-- A loop returns when there is a pass it does not come to. -/
theorem returns_iff_reaches : Returns body 0 s ↔ ∃ n, reaches body s n = none := by
  constructor
  · rintro ⟨fuel, r, hr⟩
    exact ⟨0 + fuel, reaches_of_loop rfl hr⟩
  · rintro ⟨n, hn⟩
    induction n with
    | zero => cases hn
    | succ n ih =>
      cases hs : reaches body s n with
      | none => exact ih hs
      | some s' =>
        rw [returns_iff_of_reaches hs]
        refine returns_of_not_goesOn fun s'' hgo => ?_
        rw [reaches_succ.2 ⟨s', hs, hgo⟩] at hn
        cases hn

/-! ## Measures -/

/-- The passes the loop comes to that go on without lowering the measure. -/
def stalls (body : ℕ → Call σ ε Bool) (μ : σ → ℕ) (s : σ) : Set ℕ :=
  {n | ∃ s₀ s₁, reaches body s n = some s₀ ∧ GoesOn body n s₀ s₁ ∧ μ s₀ ≤ μ s₁}

/-- A loop returns exactly when it stalls finitely often. -/
theorem returns_iff_finite (μ : σ → ℕ) : Returns body 0 s ↔ (stalls body μ s).Finite := by
  rw [returns_iff_reaches]
  constructor
  · rintro ⟨n, hn⟩
    refine (Set.finite_Iio n).subset fun m ⟨s₀, _, hm, _⟩ => ?_
    by_contra hle
    rw [reaches_eq_none hn (not_lt.1 hle)] at hm
    cases hm
  · intro hfin
    by_contra hall
    rw [not_exists] at hall
    choose at' hat using fun n => Option.ne_none_iff_exists'.1 (hall n)
    have hgo : ∀ n, GoesOn body n (at' n) (at' (n + 1)) := fun n => by
      obtain ⟨s₀, h₀, hgo⟩ := reaches_succ.1 (hat (n + 1))
      obtain rfl := Option.some.inj ((hat n).symm.trans h₀)
      exact hgo
    -- After the last stall the measure goes down for ever.
    obtain ⟨N, hN⟩ := hfin.bddAbove
    have hdesc : ∀ k, μ (at' (N + 1 + (k + 1))) < μ (at' (N + 1 + k)) := fun k => by
      by_contra hle
      have : N + 1 + k ≤ N := hN ⟨_, _, hat _, hgo (N + 1 + k), not_lt.1 hle⟩
      omega
    have hbound : ∀ k, μ (at' (N + 1 + k)) + k ≤ μ (at' (N + 1)) := fun k => by
      induction k with
      | zero => exact le_rfl
      | succ k ih =>
        have := hdesc k
        omega
    have := hbound (μ (at' (N + 1)) + 1)
    omega

end Itx.Call
