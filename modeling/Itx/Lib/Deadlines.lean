import Mathlib

/-!
# Passes with deadlines

Some passes go over items, each moving those whose deadline it watches has passed. Once an
item is due for a pass it stays so, and at most one pass moves it at a time; a moved item
can only be due again for a pass of a higher rank (`Deadlines`).

A *sweep* runs all the passes once, by ascending rank. Nothing is due after it
(`not_due_sweep`), and whatever passes were run before it, in any order and at earlier
times, it leaves what it would have left without them (`sweep_run`): a late sweep makes up
for those that were missed.

What a move costs may be kept with the item (`charged`).
-/

namespace Itx

/-- Passes `P` over items `X`, at times `T`. The laws are about the items that are good. -/
structure Deadlines (P T X : Type*) [Preorder T] where
  /-- The item is due for the pass at that time. -/
  due : P → T → X → Prop
  /-- What the pass makes of an item that is due. -/
  moved : P → X → X
  /-- The items the laws are about. -/
  good : X → Prop
  /-- The order of the passes of a sweep. -/
  rank : P → ℕ
  good_moved : ∀ {p t x}, good x → due p t x → good (moved p x)
  mono : ∀ {p t u x}, t ≤ u → due p t x → due p u x
  alone : ∀ {p q t u x}, good x → due p t x → due q u x → p = q
  forward : ∀ {p q t u x}, good x → due p t x → due q u (moved p x) → rank p < rank q

namespace Deadlines

variable {P T X : Type*} [Preorder T] (D : Deadlines P T X) [∀ p t x, Decidable (D.due p t x)]

/-- A pass over one item. -/
def step (p : P) (t : T) (x : X) : X := if D.due p t x then D.moved p x else x

/-- Passes one after the other, each at its time. -/
def run (schedule : List (P × T)) (x : X) : X := schedule.foldl (fun x e => D.step e.1 e.2 x) x

/-- All the passes, at one time. -/
def sweep (passes : List P) (t : T) (x : X) : X := D.run (passes.map (·, t)) x

/-- The passes of a sweep: all of them, by ascending rank. -/
structure Complete (passes : List P) : Prop where
  mem : ∀ p, p ∈ passes
  sorted : passes.Pairwise (D.rank · < D.rank ·)

variable {D} {p q : P} {t u : T} {x : X} {passes : List P}

theorem step_of_due (h : D.due p t x) : D.step p t x = D.moved p x := if_pos h

theorem step_of_not_due (h : ¬ D.due p t x) : D.step p t x = x := if_neg h

theorem good_step (h : D.good x) : D.good (D.step p t x) := by
  rw [step]
  split_ifs with hdue
  · exact D.good_moved h hdue
  · exact h

theorem run_append (l l' : List (P × T)) (x : X) : D.run (l ++ l') x = D.run l' (D.run l x) :=
  List.foldl_append

theorem run_cons (e : P × T) (l : List (P × T)) (x : X) :
    D.run (e :: l) x = D.run l (D.step e.1 e.2 x) := rfl

theorem good_run {l : List (P × T)} (h : D.good x) : D.good (D.run l x) := by
  induction l generalizing x with
  | nil => exact h
  | cons e l ih => exact ih (good_step h)

/-- What no move changes. -/
theorem run_const {α : Type*} {f : X → α} (h : ∀ p x, f (D.moved p x) = f x) (l : List (P × T)) (x : X) :
    f (D.run l x) = f x := by
  induction l generalizing x with
  | nil => rfl
  | cons e l ih =>
    rw [run_cons, ih, step]
    split_ifs
    · exact h e.1 x
    · rfl

theorem sweep_cons (p : P) (passes : List P) (t : T) (x : X) :
    D.sweep (p :: passes) t x = D.sweep passes t (D.step p t x) := rfl

theorem sweep_append (l l' : List P) (t : T) (x : X) :
    D.sweep (l ++ l') t x = D.sweep l' t (D.sweep l t x) := by
  rw [sweep, List.map_append, run_append]
  rfl

/-- Passes an item is not due for leave it. -/
theorem sweep_of_not_due (h : ∀ p ∈ passes, ¬ D.due p t x) : D.sweep passes t x = x := by
  induction passes with
  | nil => rfl
  | cons p passes ih =>
    rw [sweep_cons, step_of_not_due (h p List.mem_cons_self)]
    exact ih fun q hq => h q (List.mem_cons_of_mem _ hq)

/-- A pass run before a sweep, at an earlier time, changes nothing of its outcome. -/
theorem sweep_step (hp : D.Complete passes) (hx : D.good x) (hle : t ≤ u) :
    D.sweep passes u (D.step p t x) = D.sweep passes u x := by
  by_cases hdue : D.due p t x
  · obtain ⟨l, r, rfl⟩ := List.append_of_mem (hp.mem p)
    have hdue' := D.mono hle hdue
    have hbefore : ∀ q ∈ l, D.rank q < D.rank p := fun q hq =>
      (List.pairwise_append.1 hp.sorted).2.2 q hq p List.mem_cons_self
    -- The passes before `p` leave the item alone, moved or not: they come to the same at `p`.
    have hleft : ∀ q ∈ l, ¬ D.due q u x := by
      intro q hq h
      have hlt := hbefore q hq
      rw [D.alone hx h hdue'] at hlt
      exact Nat.lt_irrefl _ hlt
    have hleft' : ∀ q ∈ l, ¬ D.due q u (D.moved p x) := fun q hq h =>
      Nat.lt_asymm (D.forward hx hdue h) (hbefore q hq)
    have hself : ¬ D.due p u (D.moved p x) := fun h => Nat.lt_irrefl _ (D.forward hx hdue h)
    rw [step_of_due hdue, sweep_append, sweep_append, sweep_of_not_due hleft, sweep_of_not_due hleft',
      sweep_cons, sweep_cons, step_of_not_due hself, step_of_due hdue']
  · rw [step_of_not_due hdue]

/-- A sweep makes up for any passes run before it, at earlier times. -/
theorem sweep_run (hp : D.Complete passes) (hx : D.good x) {schedule : List (P × T)}
    (hle : ∀ e ∈ schedule, e.2 ≤ u) : D.sweep passes u (D.run schedule x) = D.sweep passes u x := by
  induction schedule generalizing x with
  | nil => rfl
  | cons e schedule ih =>
    rw [run_cons, ih (good_step hx) fun e he => hle e (List.mem_cons_of_mem _ he)]
    exact sweep_step hp hx (hle e List.mem_cons_self)

/-- After some passes by ascending rank, an item is not due for any of them. -/
theorem not_due_of_sorted (hsorted : passes.Pairwise (D.rank · < D.rank ·)) (hx : D.good x)
    (hp : p ∈ passes) : ¬ D.due p u (D.sweep passes u x) := by
  induction passes using List.reverseRecOn generalizing p with
  | nil => cases hp
  | append_singleton l q ih =>
    rw [List.pairwise_append] at hsorted
    have hgood : D.good (D.sweep l u x) := good_run hx
    rw [sweep_append, sweep_cons, sweep_of_not_due nofun]
    by_cases hdue : D.due q u (D.sweep l u x)
    · rw [step_of_due hdue]
      intro h
      have hlt := D.forward hgood hdue h
      rcases List.mem_append.1 hp with hl | hq
      · exact Nat.lt_asymm hlt (hsorted.2.2 p hl q List.mem_cons_self)
      · rw [List.mem_singleton.1 hq] at hlt
        exact Nat.lt_irrefl _ hlt
    · rw [step_of_not_due hdue]
      rcases List.mem_append.1 hp with hl | hq
      · exact ih hsorted.1 hl
      · rwa [List.mem_singleton.1 hq]

/-- Nothing is due after a sweep, at its time or before. -/
theorem not_due_sweep (hp : D.Complete passes) (hx : D.good x) (hle : t ≤ u) (p : P) :
    ¬ D.due p t (D.sweep passes u x) :=
  fun h => not_due_of_sorted hp.sorted hx (hp.mem p) (D.mono hle h)

/-! ## Costs -/

variable {M : Type*} [AddMonoid M]

/-- The same passes, with what the moves of an item have cost. -/
def charged (D : Deadlines P T X) (cost : P → X → M) : Deadlines P T (X × M) where
  due p t y := D.due p t y.1
  moved p y := (D.moved p y.1, y.2 + cost p y.1)
  good y := D.good y.1
  rank := D.rank
  good_moved := D.good_moved
  mono := D.mono
  alone := D.alone
  forward := D.forward

instance (cost : P → X → M) (p : P) (t : T) (y : X × M) : Decidable ((D.charged cost).due p t y) :=
  inferInstanceAs (Decidable (D.due p t y.1))

omit [∀ p t x, Decidable (D.due p t x)] in
theorem Complete.charged (hp : D.Complete passes) (cost : P → X → M) :
    (D.charged cost).Complete passes := ⟨hp.mem, hp.sorted⟩

/-- What a pass costs an item. -/
theorem charged_step (cost : P → X → M) (p : P) (t : T) (y : X × M) :
    (D.charged cost).step p t y = (D.step p t y.1, y.2 + if D.due p t y.1 then cost p y.1 else 0) := by
  by_cases h : D.due p t y.1
  · have h' : (D.charged cost).due p t y := h
    rw [step_of_due h', step_of_due h, if_pos h]
    rfl
  · have h' : ¬ (D.charged cost).due p t y := h
    rw [step_of_not_due h', step_of_not_due h, if_neg h, add_zero]

/-- The cost of a run adds to what was there. -/
theorem charged_run (cost : P → X → M) (l : List (P × T)) (x : X) (m : M) :
    (D.charged cost).run l (x, m) =
      (D.run l x, m + ((D.charged cost).run l (x, 0)).2) := by
  induction l generalizing x m with
  | nil => exact Prod.ext rfl (add_zero m).symm
  | cons e l ih =>
    rw [run_cons, run_cons, run_cons, charged_step, charged_step, ih, ih (D.step e.1 e.2 x) (0 + _),
      zero_add, add_assoc]

end Deadlines

end Itx
