import Mathlib

/-!
# Transition systems

A system has initial states and labelled steps. A *condition* on the steps, a
predicate of the state before a step and of its label, restricts its runs to
those whose steps all meet it: `ReachableBy C` are the states such runs go
through, and `Reachable` those of any run.

An invariant is proved from what one step preserves (`ReachableBy.invariant`).
The step may use an invariant established before (`ReachableBy.invariant_of`).
-/

namespace Itx

/-- A labelled transition system. -/
structure System (S L : Type*) where
  /-- The initial states. -/
  init : Set S
  /-- The steps: the state before, the label, the state after. -/
  step : S → L → S → Prop

namespace System

variable {S L : Type*} (sys : System S L)

/-- The states of the runs whose steps all meet the condition `C`. -/
inductive ReachableBy (C : S → L → Prop) : S → Prop
  | init {s : S} : s ∈ sys.init → ReachableBy C s
  | step {s s' : S} {l : L} : ReachableBy C s → C s l → sys.step s l s' → ReachableBy C s'

/-- The states of the runs. -/
abbrev Reachable : S → Prop := sys.ReachableBy fun _ _ => True

variable {sys} {C : S → L → Prop}

/-- What holds initially and is preserved by the steps meeting the condition
    holds throughout the runs made of such steps. -/
theorem ReachableBy.invariant {I : S → Prop} (h₀ : ∀ s ∈ sys.init, I s)
    (hstep : ∀ s l s', I s → C s l → sys.step s l s' → I s') {s : S}
    (hs : sys.ReachableBy C s) : I s := by
  induction hs with
  | init h => exact h₀ _ h
  | step _ hC hst ih => exact hstep _ _ _ ih hC hst

/-- The same, with an invariant `J` already known of the runs. -/
theorem ReachableBy.invariant_of {I J : S → Prop} (hJ : ∀ s, sys.ReachableBy C s → J s)
    (h₀ : ∀ s ∈ sys.init, I s)
    (hstep : ∀ s l s', J s → I s → C s l → sys.step s l s' → I s') {s : S}
    (hs : sys.ReachableBy C s) : I s := by
  induction hs with
  | init h => exact h₀ _ h
  | step hs hC hst ih => exact hstep _ _ _ (hJ _ hs) ih hC hst

/-- A run under a condition is a run under a weaker one. -/
theorem ReachableBy.mono {C' : S → L → Prop} (h : ∀ s l, C s l → C' s l) {s : S}
    (hs : sys.ReachableBy C s) : sys.ReachableBy C' s :=
  hs.invariant (fun _ h₀ => .init h₀) fun _ _ _ hr hC hst => .step hr (h _ _ hC) hst

/-- A run under a condition is a run. -/
theorem ReachableBy.reachable {s : S} (hs : sys.ReachableBy C s) : sys.Reachable s :=
  hs.mono fun _ _ _ => trivial

/-- A list of steps taken one after the other, all of them possible, is a run. -/
theorem ReachableBy.foldlM {next : S → L → Option S} {labels : List L} {s s' : S}
    (hs : sys.ReachableBy C s)
    (hnext : ∀ l ∈ labels, ∀ s s', next s l = some s' → C s l ∧ sys.step s l s')
    (h : labels.foldlM next s = some s') : sys.ReachableBy C s' := by
  induction labels generalizing s with
  | nil =>
    obtain rfl := Option.some.inj h
    exact hs
  | cons l labels ih =>
    rw [List.foldlM_cons] at h
    obtain ⟨s₁, hstep, h⟩ := Option.bind_eq_some_iff.1 h
    obtain ⟨hC, hstep⟩ := hnext l List.mem_cons_self s s₁ hstep
    exact ih (hs.step hC hstep) (fun l hl => hnext l (List.mem_cons_of_mem _ hl)) h

/-- So is a list of steps that can always be taken. -/
theorem ReachableBy.foldl {next : S → L → S} {labels : List L} {s : S} (hs : sys.ReachableBy C s)
    (hnext : ∀ l ∈ labels, ∀ s, C s l ∧ sys.step s l (next s l)) :
    sys.ReachableBy C (labels.foldl next s) := by
  induction labels generalizing s with
  | nil => exact hs
  | cons l labels ih =>
    obtain ⟨hC, hstep⟩ := hnext l List.mem_cons_self s
    exact ih (hs.step hC hstep) fun l hl => hnext l (List.mem_cons_of_mem _ hl)

end System

end Itx
