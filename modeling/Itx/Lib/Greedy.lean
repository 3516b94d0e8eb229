import Mathlib

/-!
# Greedy collection

Things with a weight are taken from the front of a list until what is taken weighs enough,
which may depend on how many are taken (`collect`). What is collected is the shortest part of
the list, from its front, that weighs enough, or all of the list if none does.

* `collect_enough_iff`: it weighs enough iff some part from the front does;
* `collect_length_le`: where enough is always the same, and the list has the heaviest first,
  nothing of the list that weighs enough is of fewer things.
-/

namespace Itx

variable {α : Type*} (f : α → ℕ) (need : ℕ → ℕ)

/-- From the front of a list, until the weight is what is needed for the count: `count` and
    `weight` are those of what is taken already. -/
def collect : (count weight : ℕ) → List α → List α
  | _, _, [] => []
  | count, weight, a :: l =>
    if need count ≤ weight then [] else a :: collect (count + 1) (weight + f a) l

variable {f need} {count weight : ℕ} {l : List α}

theorem collect_isPrefix : collect f need count weight l <+: l := by
  induction l generalizing count weight with
  | nil => exact List.prefix_rfl
  | cons a l ih =>
    rw [collect]
    split_ifs
    · exact List.nil_prefix
    · exact (List.prefix_cons_inj a).2 ih

/-- Nothing less from the front weighs enough. -/
theorem lt_of_lt_collect {n : ℕ} (h : n < (collect f need count weight l).length) :
    weight + ((l.take n).map f).sum < need (count + n) := by
  induction l generalizing count weight n with
  | nil => exact absurd h (Nat.not_lt_zero n)
  | cons a l ih =>
    rw [collect] at h
    split_ifs at h with henough
    · exact absurd h (Nat.not_lt_zero n)
    · rcases n with _ | n
      · simpa using henough
      · have hrest := ih (Nat.lt_of_succ_lt_succ h)
        rw [List.take_succ_cons, List.map_cons, List.sum_cons]
        rw [add_assoc, add_right_comm] at hrest
        exact hrest

/-- Unless it is enough, all of the list is collected. -/
theorem collect_eq_self (h : weight + ((collect f need count weight l).map f).sum <
    need (count + (collect f need count weight l).length)) : collect f need count weight l = l := by
  induction l generalizing count weight with
  | nil => rfl
  | cons a l ih =>
    rw [collect] at h ⊢
    split_ifs at h ⊢ with henough
    · exact absurd henough (by simpa using h)
    · rw [List.map_cons, List.sum_cons, List.length_cons] at h
      rw [ih (by rw [add_assoc, add_right_comm]; exact h)]

variable (f need) in
/-- What is collected is enough iff some part of the list, from the front, is. -/
theorem collect_enough_iff : need (count + (collect f need count weight l).length) ≤
    weight + ((collect f need count weight l).map f).sum ↔
    ∃ n ≤ l.length, need (count + n) ≤ weight + ((l.take n).map f).sum := by
  have hpre : collect f need count weight l <+: l := collect_isPrefix
  constructor
  · intro h
    refine ⟨_, hpre.length_le, ?_⟩
    rwa [← List.prefix_iff_eq_take.1 hpre]
  · rintro ⟨n, hn, henough⟩
    by_contra hless
    -- All of the list has been collected, so the part that is enough is a shorter one.
    have hall := collect_eq_self (not_le.1 hless)
    rcases hn.eq_or_lt with rfl | hlt
    · rw [hall] at hless
      exact hless (by rwa [List.take_length] at henough)
    · exact (lt_of_lt_collect (by rwa [hall])).not_ge henough

/-! ## The same need for any count -/

section

variable {t : ℕ}

/-- How many are taken already makes no difference. -/
theorem collect_const_count : collect f (fun _ => t) count weight l = collect f (fun _ => t) 0 weight l := by
  induction l generalizing count weight with
  | nil => rfl
  | cons a l ih =>
    rw [collect, collect]
    split_ifs
    · rfl
    · rw [ih, ← ih]

/-- What is collected is enough as soon as the whole list is. -/
theorem le_collect_sum (h : t ≤ weight + (l.map f).sum) :
    t ≤ weight + ((collect f (fun _ => t) count weight l).map f).sum := by
  refine (collect_enough_iff f fun _ => t).2 ⟨l.length, le_rfl, ?_⟩
  rwa [List.take_length]

theorem collect_sum_le : ((collect f need count weight l).map f).sum ≤ (l.map f).sum :=
  (collect_isPrefix.sublist.map f).sum_le_sum fun _ _ => Nat.zero_le _

/-- With the heaviest first, no sublist that is enough is shorter. -/
theorem collect_length_le_sublist (hl : l.Pairwise fun a b => f b ≤ f a) {s : List α} (hs : s.Sublist l)
    (h : t ≤ weight + (s.map f).sum) : (collect f (fun _ => t) count weight l).length ≤ s.length := by
  induction l generalizing count weight s with
  | nil => exact Nat.zero_le _
  | cons a l ih =>
    obtain ⟨hmax, hl⟩ := List.pairwise_cons.1 hl
    rw [collect]
    split_ifs with henough
    · exact Nat.zero_le _
    · -- The first of the sublist weighs no more than `a`, which may take its place.
      cases s with
      | nil => exact absurd h (by simpa using henough)
      | cons b s =>
        obtain ⟨hs, hb⟩ : s.Sublist l ∧ f b ≤ f a := by
          cases hs with
          | cons _ hs => exact ⟨(List.sublist_cons_self b s).trans hs, hmax b (hs.subset List.mem_cons_self)⟩
          | cons_cons _ hs => exact ⟨hs, le_rfl⟩
        rw [List.map_cons, List.sum_cons] at h
        exact Nat.succ_le_succ (ih hl hs (by omega))

/-- With the heaviest first, nothing of the list that is enough is of fewer things. -/
theorem collect_length_le (hl : l.Pairwise fun a b => f b ≤ f a) {s : List α} (hs : s.Subperm l)
    (h : t ≤ weight + (s.map f).sum) : (collect f (fun _ => t) count weight l).length ≤ s.length := by
  obtain ⟨s', hperm, hsub⟩ := hs
  rw [← hperm.length_eq]
  exact collect_length_le_sublist hl hsub (by rwa [(hperm.map f).sum_eq])

end

end Itx
