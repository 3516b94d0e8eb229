import Itx.Chain.Blockchain

/-!
# Work

The work of a target is how many hashes meet it on average, `2 ^ 256 / (target + 1)` rounded
down. The numerator has a bit too many for a `U256`, and `work_from_target` divides what is left
of it once the divisor has been taken away (`lib/src/lib.rs`). That is the quotient, and nothing
it computes is out of range (`work_exact`). So the work of a chain is the sum of the quotients
of its blocks, as far as it is in range (`workOfChain_eq`).
-/

namespace Itx

open Blockchain

/-- A quotient is one more than that of what is left once the divisor is taken away. -/
theorem complement_div_add_one {n t : ℕ} (h : t < n) : (n - 1 - t) / (t + 1) + 1 = n / (t + 1) := by
  have hn : n - 1 - t = n - (t + 1) := by omega
  rw [hn, ← Nat.add_div_right _ t.succ_pos, Nat.succ_eq_add_one, Nat.sub_add_cancel h]

/-- The work of a target that is neither zero nor the greatest. -/
theorem workFromTarget_eq {t : ℕ} (h₁ : 1 ≤ t) (h₂ : t ≤ 2 ^ 256 - 2) :
    workFromTarget t = some (2 ^ 256 / (t + 1)) := by
  have hdivisor : t + 1 < 2 ^ 256 := by omega
  have hwork : u256Bound / (t + 1) < u256Bound := Nat.div_lt_self (by decide) (by omega)
  rw [workFromTarget, checked_eq_some.2 ⟨rfl, hdivisor⟩, Option.bind_eq_bind, Option.bind_some,
    complement_div_add_one (Nat.lt_of_succ_lt hdivisor)]
  exact checked_eq_some.2 ⟨rfl, hwork⟩

/-- The work of a target is the exact quotient, is in range and positive, and is less the easier
    the target. -/
theorem work_exact (t : ℕ) (h₁ : 1 ≤ t) (h₂ : t ≤ 2 ^ 256 - 2) :
    (workFromTarget t = some (2 ^ 256 / (t + 1)) ∧ 2 ^ 256 / (t + 1) < u256Bound) ∧
      0 < 2 ^ 256 / (t + 1) ∧
      ∀ t' ≤ t, 1 ≤ t' → ∃ w w', workFromTarget t = some w ∧ workFromTarget t' = some w' ∧ w ≤ w' := by
  refine ⟨⟨workFromTarget_eq h₁ h₂, Nat.div_lt_self (by decide) (by omega)⟩,
    Nat.div_pos (by omega) t.succ_pos, fun t' hle h₁' => ?_⟩
  refine ⟨_, _, workFromTarget_eq h₁ h₂, workFromTarget_eq h₁' (hle.trans h₂), ?_⟩
  exact Nat.div_le_div_left (Nat.add_le_add_right hle 1) t'.succ_pos

/-- The easiest targets have the work of one hash, and the hardest half of all. -/
theorem work_exact_sample : workFromTarget (2 ^ 256 - 2) = some 1 ∧ workFromTarget 1 = some (2 ^ 255) := by
  obtain ⟨⟨heasy, -⟩, -⟩ := work_exact (2 ^ 256 - 2) (by decide) le_rfl
  obtain ⟨⟨hhard, -⟩, -⟩ := work_exact 1 le_rfl (by decide)
  exact ⟨heasy, hhard⟩

namespace Blockchain

variable {blocks : Finmap fun _ : Hash => Block} {chain : List Hash}

/-- The work of a chain of such targets. -/
theorem workOfChain_eq {block : Hash → Block} (h : ∀ x ∈ chain, blocks.lookup x = some (block x) ∧
      1 ≤ (block x).header.target ∧ (block x).header.target ≤ 2 ^ 256 - 2) :
    workOfChain blocks chain =
      some (min (chain.map fun x => 2 ^ 256 / ((block x).header.target + 1)).sum (u256Bound - 1)) := by
  -- From any sum, as far as that is in range.
  have key : ∀ n, chain.foldlM (fun acc h => do
      let block ← blocks.lookup h
      let work ← block.header.work
      some (min (acc + work) (u256Bound - 1))) (min n (u256Bound - 1)) =
        some (min (n + (chain.map fun x => 2 ^ 256 / ((block x).header.target + 1)).sum)
          (u256Bound - 1)) := by
    induction chain with
    | nil => exact fun n => rfl
    | cons x chain ih =>
      intro n
      obtain ⟨hlookup, h₁, h₂⟩ := h x List.mem_cons_self
      have hwork : (block x).header.work = some (2 ^ 256 / ((block x).header.target + 1)) :=
        workFromTarget_eq h₁ h₂
      have hmin : ∀ q, min (min n (u256Bound - 1) + q) (u256Bound - 1) = min (n + q) (u256Bound - 1) := by
        omega
      rw [List.foldlM_cons, hlookup, List.map_cons, List.sum_cons, ← Nat.add_assoc,
        ← ih (fun y hy => h y (List.mem_cons_of_mem _ hy)), ← hmin _]
      simp only [Option.bind_eq_bind, Option.bind_some, hwork]
  have h₀ := key 0
  rwa [Nat.zero_min, Nat.zero_add] at h₀

end Blockchain

end Itx
