import Mathlib

/-!
# Medians

The upper median of some values is the one at the half of their number, rounded down, when they
are sorted. It is characterised by counting (`IsUpperMedian`): at most half of the values are
below it, and more than half are not above it. There is one (`isUpperMedian_sort`) and no other
(`IsUpperMedian.eq`), and it lies where most values do (`IsUpperMedian.mem_of_majority`).
-/

namespace Itx

variable {α : Type*} [LinearOrder α]

/-- No more of the values are below `v` than its place, and more than that are not above it. -/
def IsUpperMedian (values : Multiset α) (v : α) : Prop :=
  values.countP (· < v) ≤ values.card / 2 ∧ values.card / 2 < values.countP (· ≤ v)

instance (values : Multiset α) (v : α) : Decidable (IsUpperMedian values v) :=
  inferInstanceAs (Decidable (_ ∧ _))

/-! ## Sorted lists -/

section

variable {l : List α} {k : ℕ}

theorem countP_lt_getElem_le (h : l.Pairwise (· ≤ ·)) (hk : k < l.length) :
    l.countP (· < l[k]) ≤ k := by
  have hsplit := List.take_append_drop k l
  have hdrop : (l.drop k).countP (· < l[k]) = 0 := by
    refine List.countP_eq_zero.2 fun x hx hlt => ?_
    obtain ⟨i, hi, rfl⟩ := List.mem_drop_iff_getElem.1 hx
    exact absurd (of_decide_eq_true hlt) (not_lt.2 (h.sortedLE.getElem_le_getElem_of_le (by omega)))
  calc l.countP (· < l[k]) = (l.take k).countP (· < l[k]) + (l.drop k).countP (· < l[k]) := by
        rw [← List.countP_append, hsplit]
    _ = (l.take k).countP (· < l[k]) := by rw [hdrop, Nat.add_zero]
    _ ≤ (l.take k).length := List.countP_le_length
    _ ≤ k := List.length_take_le k l

theorem lt_countP_le_getElem (h : l.Pairwise (· ≤ ·)) (hk : k < l.length) :
    k < l.countP (· ≤ l[k]) := by
  have htake : (l.take (k + 1)).countP (· ≤ l[k]) = (l.take (k + 1)).length := by
    refine List.countP_eq_length.2 fun x hx => decide_eq_true ?_
    obtain ⟨i, hi, rfl⟩ := List.mem_take_iff_getElem.1 hx
    exact h.sortedLE.getElem_le_getElem_of_le (by omega)
  have hlength : (l.take (k + 1)).length = k + 1 := List.length_take_of_le hk
  have hle : (l.take (k + 1)).countP (· ≤ l[k]) ≤ l.countP (· ≤ l[k]) :=
    (List.take_sublist (k + 1) l).countP_le
  omega

end

/-! ## The median -/

variable {values : Multiset α} {v w : α}

omit [LinearOrder α] in
theorem countP_le_countP {p q : α → Prop} [DecidablePred p] [DecidablePred q] (h : ∀ x, p x → q x)
    (values : Multiset α) : values.countP p ≤ values.countP q := by
  induction values using Quot.inductionOn with
  | h l => exact List.countP_mono_left fun x _ hx => decide_eq_true (h x (of_decide_eq_true hx))

theorem isUpperMedian_sort (h : values.card / 2 < (values.sort (· ≤ ·)).length) :
    IsUpperMedian values (values.sort (· ≤ ·))[values.card / 2] := by
  have hsorted := values.pairwise_sort (· ≤ ·)
  have hcount (p : α → Prop) [DecidablePred p] : values.countP p = (values.sort (· ≤ ·)).countP p := by
    conv_lhs => rw [← values.sort_eq (· ≤ ·), Multiset.coe_countP]
  rw [IsUpperMedian, hcount, hcount]
  exact ⟨countP_lt_getElem_le hsorted h, lt_countP_le_getElem hsorted h⟩

theorem IsUpperMedian.le (hv : IsUpperMedian values v) (hw : IsUpperMedian values w) : v ≤ w := by
  by_contra hlt
  have hmono : values.countP (· ≤ w) ≤ values.countP (· < v) :=
    countP_le_countP (fun x hx => lt_of_le_of_lt hx (not_le.1 hlt)) values
  exact absurd (hw.2.trans_le (hmono.trans hv.1)) (lt_irrefl _)

/-- There is one upper median at most. -/
theorem IsUpperMedian.eq (hv : IsUpperMedian values v) (hw : IsUpperMedian values w) : v = w :=
  le_antisymm (hv.le hw) (hw.le hv)

/-- It is in an interval that has more than half of the values. -/
theorem IsUpperMedian.mem_of_majority (hv : IsUpperMedian values v) {I : Set α} (hI : I.OrdConnected)
    [DecidablePred (· ∈ I)] (hmost : values.card < 2 * values.countP (· ∈ I)) : v ∈ I := by
  by_contra hmem
  -- The interval is on one side of the median.
  by_cases hbelow : ∃ x ∈ I, x ≤ v
  · obtain ⟨x, hx, hxv⟩ := hbelow
    have hside : ∀ y, y ∈ I → y < v := fun y hy => by
      by_contra hvy
      exact hmem (hI.out hx hy ⟨hxv, not_lt.1 hvy⟩)
    have hcount : values.countP (· ∈ I) ≤ values.countP (· < v) := countP_le_countP hside values
    have := hv.1
    omega
  · have hside : ∀ y, y ∈ I → ¬ y ≤ v := fun y hy hyv => hbelow ⟨y, hy, hyv⟩
    have hcount : values.countP (· ∈ I) ≤ values.countP fun x => ¬ x ≤ v :=
      countP_le_countP hside values
    have hcard := values.card_eq_countP_add_countP (· ≤ v)
    have := hv.2
    omega

end Itx
