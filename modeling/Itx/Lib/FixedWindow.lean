import Mathlib

/-!
# Fixed windows

Events that come in windows of a width: each event in the window it belongs to, and one window
beginning no earlier than another ends (`Windowed`). If there are at most `n` events to a window,
there are at most `2 * n` in any interval of that width (`Windowed.countP_interval_le`): those of
the windows that began before the interval are of one window, and so are the others.
-/

namespace Itx

variable {ε T : Type*} [AddCommGroup T] [LinearOrder T] [IsOrderedAddMonoid T]
  {width : T} {start time : ε → T} {events : List ε} {p : ε → Bool} {n : ℕ}

/-- Each event is at a time of its window, and the windows do not overlap, but for their ends. -/
structure Windowed (width : T) (start time : ε → T) (events : List ε) : Prop where
  within : ∀ e ∈ events, start e ≤ time e ∧ time e ≤ start e + width
  apart : ∀ e ∈ events, ∀ e' ∈ events, start e < start e' → start e + width ≤ start e'

omit [AddCommGroup T] [IsOrderedAddMonoid T] in
/-- What is in one window only is counted there. -/
theorem countP_le_of_one_window (hn : ∀ s, (events.countP fun e => p e && decide (start e = s)) ≤ n)
    {q : ε → Bool} (hone : ∀ e ∈ events, ∀ e' ∈ events, q e → q e' → start e = start e') :
    (events.countP fun e => p e && q e) ≤ n := by
  by_cases hsome : ∃ e ∈ events, q e
  · obtain ⟨e₀, he₀, hq₀⟩ := hsome
    refine (List.countP_mono_left fun e he hpq => ?_).trans (hn (start e₀))
    rw [Bool.and_eq_true] at hpq ⊢
    exact ⟨hpq.1, decide_eq_true (hone e he e₀ he₀ hpq.2 hq₀)⟩
  · have hzero : (events.countP fun e => p e && q e) = 0 := by
      refine List.countP_eq_zero.2 fun e he hpq => hsome ⟨e, he, ?_⟩
      exact ((Bool.and_eq_true _ _).mp hpq).2
    exact hzero.trans_le n.zero_le

theorem Windowed.countP_interval_le (h : Windowed width start time events)
    (hn : ∀ s, (events.countP fun e => p e && decide (start e = s)) ≤ n) (a : T) :
    (events.countP fun e => p e && decide (a ≤ time e ∧ time e < a + width)) ≤ 2 * n := by
  -- The events of windows from before the interval, and the others.
  have hearly := countP_le_of_one_window hn
    (q := fun e => decide (a ≤ time e ∧ start e < a)) fun e he e' he' hq hq' => by
      rw [decide_eq_true_iff] at hq hq'
      rcases lt_trichotomy (start e) (start e') with hlt | heq | hlt
      · exact absurd ((h.within e he).2.trans (h.apart e he e' he' hlt)) (not_le.2 (hq'.2.trans_le hq.1))
      · exact heq
      · exact absurd ((h.within e' he').2.trans (h.apart e' he' e he hlt)) (not_le.2 (hq.2.trans_le hq'.1))
  have hlate := countP_le_of_one_window hn
    (q := fun e => decide (a ≤ start e ∧ time e < a + width)) fun e he e' he' hq hq' => by
      rw [decide_eq_true_iff] at hq hq'
      have hlast : ∀ x ∈ events, time x < a + width → start x < a + width :=
        fun x hx hlt => (h.within x hx).1.trans_lt hlt
      rcases lt_trichotomy (start e) (start e') with hlt | heq | hlt
      · exact absurd (h.apart e he e' he' hlt)
          (not_le.2 ((hlast e' he' hq'.2).trans_le (add_le_add_left hq.1 width)))
      · exact heq
      · exact absurd (h.apart e' he' e he hlt)
          (not_le.2 ((hlast e he hq.2).trans_le (add_le_add_left hq'.1 width)))
  rw [two_mul, List.countP_eq_countP_filter_add _ _ fun e => decide (start e < a), List.countP_filter,
    List.countP_filter]
  refine Nat.add_le_add (le_trans (List.countP_mono_left fun e _ he => ?_) hearly)
    (le_trans (List.countP_mono_left fun e _ he => ?_) hlate)
  · simp only [Bool.and_eq_true, decide_eq_true_iff] at he ⊢
    exact ⟨he.1.1, he.1.2.1, he.2⟩
  · simp only [Bool.and_eq_true, Bool.not_eq_true', decide_eq_false_iff_not, decide_eq_true_iff, not_lt]
      at he ⊢
    exact ⟨he.1.1, he.2, he.1.2.2⟩

end Itx
