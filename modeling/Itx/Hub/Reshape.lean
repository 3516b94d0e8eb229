import Itx.Hub.Admission

/-!
# Reshaping a wallet

A payment consumes an output and its change is not visible before the next block, so the hub keeps
its wallets split into many outputs (`hub/src/operator_wallet.rs`). On every sweep `planReshape`
looks at what the node reports: if too few outputs are large enough to be useful, it sweeps those
that are not into some that are, or cuts the largest one into pieces.

* `planReshape_spec`: what a plan spends and what it makes of it;
* `Replaces.ready_eq`: how many useful outputs there are once a plan is carried out;
* `reshape_converges`: each plan makes more outputs useful, and never too many, so that there is no
  plan after as many as there should be useful outputs.
-/

namespace Itx

variable {c : Crypto} {g : Signing} {utxos utxos' : UtxoReply} {fee floor pieces : ℕ}
  {inputs dust : List TransactionOutput} {plan : Reshape}

/-- `MIN_USEFUL_OUTPUT`: one coin. -/
def minUsefulOutput : ℕ := 100000000

/-- `ready_outputs`: the unmarked outputs that are large enough to be useful. -/
def readyOutputs (utxos : UtxoReply) : ℕ :=
  (utxos.filter fun p => !p.1 && decide (minUsefulOutput ≤ p.2.value)).length

/-- A transaction that pays the wallet back: it spends `inputs`, and pays each of `shares`. -/
structure Reshape where
  inputs : List TransactionOutput
  shares : List ℕ
  deriving DecidableEq, Repr

/-- `spendable`: what outputs are worth without the fee. -/
def spendable (fee : ℕ) (outputs : List TransactionOutput) : Outcome Empty ℕ := do
  let total ← .expect (checkedSum (outputs.map TransactionOutput.value))
  pure (total - fee)

/-- `cut`: equal pieces, of which the last one is larger by what is left. The pieces are at least
    one, so that the division is one, and are at most `total` together. -/
def cut (fee : ℕ) (inputs : List TransactionOutput) (pieces : ℕ) : Outcome Empty Reshape := do
  let total ← spendable fee inputs
  let share := total / pieces
  pure { inputs, shares := (List.replicate pieces share).set (pieces - 1) (total - share * (pieces - 1)) }

/-- `plan_reshape`. Of outputs of the same value and id, `max_by_key` takes the last one. -/
def planReshape (utxos : UtxoReply) (fee floor : ℕ) : Outcome Empty (Option Reshape) :=
  let ready := readyOutputs utxos
  if ready ≥ floor then pure none
  else do
    let wanted := floor - ready
    let dust := (utxos.filter fun p => !p.1 && decide (p.2.value < minUsefulOutput)).map Prod.snd
    let fromDust := (← spendable fee dust) / minUsefulOutput
    if fromDust ≥ 1 then
      return some (← cut fee dust (min wanted fromDust))
    let useful := utxos.filter fun p => !p.1 && decide (minUsefulOutput ≤ p.2.value)
    match useful.reverse.argmax fun p => toLex (p.2.value, p.2.uniqueId) with
    | none => pure none
    | some (_, largest) => do
      let inputs := largest :: dust
      let wanted ← .expect (checkedAdd wanted 1)
      let pieces := min wanted ((← spendable fee inputs) / minUsefulOutput)
      if pieces < 2 then pure none
      else return some (← cut fee inputs pieces)

/-! ## A plan -/

theorem spendable_eq (h : totalValue inputs < u64Bound) :
    spendable fee inputs = .ok (totalValue inputs - fee) := by
  rw [spendable, checkedSum_eq_some.2 ⟨rfl, h⟩]
  rfl

/-- The shares of a plan that cuts something up. -/
def equalShares (total pieces : ℕ) : List ℕ :=
  (List.replicate pieces (total / pieces)).set (pieces - 1) (total - total / pieces * (pieces - 1))

theorem cut_eq (h : totalValue inputs < u64Bound) :
    cut fee inputs pieces = .ok ⟨inputs, equalShares (totalValue inputs - fee) pieces⟩ := by
  rw [cut, spendable_eq h]
  rfl

theorem equalShares_succ (total n : ℕ) : equalShares total (n + 1) =
    List.replicate n (total / (n + 1)) ++ [total - total / (n + 1) * n] := by
  rw [equalShares, List.replicate_succ', Nat.add_sub_cancel, List.set_append_right _ _ (by simp)]
  simp

/-- The shares are all there is. -/
theorem equalShares_sum (total : ℕ) (h : 0 < pieces) : (equalShares total pieces).sum = total := by
  obtain ⟨n, rfl⟩ := Nat.exists_eq_add_one.2 h
  have hle : total / (n + 1) * n ≤ total :=
    (Nat.mul_le_mul_left _ n.le_succ).trans (Nat.div_mul_le_self total (n + 1))
  rw [equalShares_succ, List.sum_append, List.sum_replicate, List.sum_singleton, smul_eq_mul, mul_comm,
    Nat.add_sub_of_le hle]

/-- No share is smaller than what there is for each. -/
theorem le_of_mem_equalShares {total share least : ℕ} (h : 0 < pieces) (hle : pieces ≤ total / least)
    (hleast : 0 < least) (hs : share ∈ equalShares total pieces) : least ≤ share := by
  obtain ⟨n, rfl⟩ := Nat.exists_eq_add_one.2 h
  have heach : least ≤ total / (n + 1) := by
    rw [Nat.le_div_iff_mul_le h, mul_comm]
    exact (Nat.le_div_iff_mul_le hleast).1 hle
  rw [equalShares_succ] at hs
  rcases List.mem_append.1 hs with hs | hs
  · exact heach.trans_eq (List.eq_of_mem_replicate hs).symm
  -- The last share has the remainder, too.
  · rw [List.mem_singleton.1 hs]
    have hall := Nat.div_mul_le_self total (n + 1)
    rw [Nat.mul_succ] at hall
    omega

theorem equalShares_length (total pieces : ℕ) : (equalShares total pieces).length = pieces := by
  rw [equalShares, List.length_set, List.length_replicate]

/-- A plan is sound for a wallet: it spends unmarked outputs, all of their value but the fee, in
    useful pieces, more of them than it spends, and no more than are missing. -/
structure Reshape.Sound (plan : Reshape) (utxos : UtxoReply) (fee floor : ℕ) : Prop where
  unmarked : plan.inputs.Subperm (unmarked utxos)
  sum : plan.shares.sum + fee = totalValue plan.inputs
  useful : ∀ share ∈ plan.shares, minUsefulOutput ≤ share
  gains : plan.inputs.countP (fun o => minUsefulOutput ≤ o.value) < plan.shares.length
  fits : readyOutputs utxos + plan.shares.length ≤
    floor + plan.inputs.countP (fun o => minUsefulOutput ≤ o.value)

theorem filter_unmarked (utxos : UtxoReply) (p : TransactionOutput → Prop) [DecidablePred p] :
    (utxos.filter fun q => !q.1 && decide (p q.2)).map Prod.snd = (unmarked utxos).filter p := by
  rw [unmarked, List.filter_map, List.filter_filter]
  refine congrArg _ (List.filter_congr fun q _ => ?_)
  exact Bool.and_comm _ _

theorem readyOutputs_eq (utxos : UtxoReply) :
    readyOutputs utxos = (unmarked utxos).countP fun o => minUsefulOutput ≤ o.value := by
  rw [List.countP_eq_length_filter, ← filter_unmarked, List.length_map]
  rfl

theorem totalValue_le_of_subperm {l l' : List TransactionOutput} (h : l.Subperm l') :
    totalValue l ≤ totalValue l' := by
  obtain ⟨m, hperm, hsub⟩ := h
  rw [← totalValue_perm hperm]
  exact (hsub.map _).sum_le_sum fun _ _ => Nat.zero_le _

section

variable (hdust : (unmarked utxos).filter (fun o => o.value < minUsefulOutput) = dust)

include hdust

theorem dust_useless : dust.countP (fun o => minUsefulOutput ≤ o.value) = 0 := by
  refine List.countP_eq_zero.2 fun o ho => ?_
  rw [← hdust] at ho
  have hsmall := of_decide_eq_true (List.mem_filter.1 ho).2
  simpa using hsmall

/-- A useful output and all that are not are among the unmarked ones. -/
theorem subperm_split {largest : TransactionOutput} (hmem : largest ∈ unmarked utxos)
    (huseful : minUsefulOutput ≤ largest.value) : (largest :: dust).Subperm (unmarked utxos) := by
  have hrest : [largest].Subperm ((unmarked utxos).filter fun o => !decide (o.value < minUsefulOutput)) :=
    List.singleton_subperm_iff.2 (List.mem_filter.2 ⟨hmem, by simpa using huseful⟩)
  have hall := List.filter_append_perm (fun o : TransactionOutput => decide (o.value < minUsefulOutput))
    (unmarked utxos)
  rw [hdust] at hall
  have hlast : (largest :: dust).Perm (dust ++ [largest]) := (List.perm_append_singleton largest dust).symm
  exact hlast.subperm.trans (((List.subperm_append_left dust).2 hrest).trans hall.subperm)

/-- Sweeping up what is not useful is sound. -/
theorem sound_sweep (hready : readyOutputs utxos < floor)
    (henough : 1 ≤ (totalValue dust - fee) / minUsefulOutput) :
    Reshape.Sound ⟨dust, equalShares (totalValue dust - fee)
      (min (floor - readyOutputs utxos) ((totalValue dust - fee) / minUsefulOutput))⟩ utxos fee floor := by
  have hpieces : 0 < min (floor - readyOutputs utxos) ((totalValue dust - fee) / minUsefulOutput) :=
    lt_min (Nat.sub_pos_of_lt hready) henough
  -- If the fee were more, nothing would be left to make useful outputs of.
  have hfee : fee ≤ totalValue dust := by
    by_contra hlt
    rw [Nat.sub_eq_zero_of_le (not_le.1 hlt).le, Nat.zero_div] at henough
    exact absurd henough (by decide)
  constructor
  · rw [← hdust]
    exact List.filter_sublist.subperm
  · rw [equalShares_sum _ hpieces]
    exact Nat.sub_add_cancel hfee
  · exact fun share => le_of_mem_equalShares hpieces (min_le_right _ _) (by decide)
  · rw [equalShares_length, dust_useless hdust]
    exact hpieces
  · rw [equalShares_length, dust_useless hdust]
    omega

/-- Cutting up a useful output is sound, if it makes two of it. -/
theorem sound_split {largest : TransactionOutput} (hmem : largest ∈ unmarked utxos)
    (huseful : minUsefulOutput ≤ largest.value) (hready : readyOutputs utxos < floor)
    (hpieces : 2 ≤
      min (floor - readyOutputs utxos + 1) ((totalValue (largest :: dust) - fee) / minUsefulOutput)) :
    Reshape.Sound ⟨largest :: dust, equalShares (totalValue (largest :: dust) - fee)
      (min (floor - readyOutputs utxos + 1) ((totalValue (largest :: dust) - fee) / minUsefulOutput))⟩
      utxos fee floor := by
  have hpos := Nat.zero_lt_two.trans_le hpieces
  have hfee : fee ≤ totalValue (largest :: dust) := by
    by_contra hlt
    rw [Nat.sub_eq_zero_of_le (not_le.1 hlt).le, Nat.zero_div] at hpieces
    omega
  have hone : (largest :: dust).countP (fun o => minUsefulOutput ≤ o.value) = 1 := by
    rw [List.countP_cons, dust_useless hdust, if_pos (decide_eq_true huseful)]
  constructor
  · exact subperm_split hdust hmem huseful
  · rw [equalShares_sum _ hpos]
    exact Nat.sub_add_cancel hfee
  · exact fun share => le_of_mem_equalShares hpos (min_le_right _ _) (by decide)
  · rw [equalShares_length, hone]
    exact hpieces
  · rw [equalShares_length, hone]
    omega

end

/-- There is no plan, or a sound one. -/
theorem planReshape_spec (hsum : totalValue (unmarked utxos) < u64Bound) (hfloor : floor < u64Bound) :
    planReshape utxos fee floor = .ok none ∨
      ∃ plan : Reshape, planReshape utxos fee floor = .ok (some plan) ∧ plan.Sound utxos fee floor := by
  rw [planReshape]
  by_cases hready : readyOutputs utxos ≥ floor
  · exact .inl (if_pos hready)
  rw [if_neg hready, filter_unmarked utxos fun o => o.value < minUsefulOutput]
  obtain ⟨dust, hdust⟩ : ∃ dust, (unmarked utxos).filter (fun o => o.value < minUsefulOutput) = dust := ⟨_, rfl⟩
  have hswept : totalValue dust < u64Bound := by
    rw [← hdust]
    exact (totalValue_le_of_subperm List.filter_sublist.subperm).trans_lt hsum
  rw [hdust]
  dsimp only
  rw [spendable_eq hswept, Outcome.ok_bind]
  by_cases henough : (totalValue dust - fee) / minUsefulOutput ≥ 1
  · rw [if_pos henough, cut_eq hswept]
    exact .inr ⟨_, rfl, sound_sweep hdust (not_le.1 hready) henough⟩
  rw [if_neg henough]
  split
  · exact .inl rfl
  next marked largest hlargest =>
    have hmem := List.mem_reverse.1 (List.argmax_mem hlargest)
    obtain ⟨hutxo, hkept⟩ := List.mem_filter.1 hmem
    obtain ⟨hmarked, huseful⟩ := Bool.and_eq_true_iff.1 hkept
    obtain rfl : marked = false := by simpa using hmarked
    have huseful : minUsefulOutput ≤ largest.value := of_decide_eq_true huseful
    -- The source is one of those that are there, so one more than are missing is in range.
    have hpos : 0 < readyOutputs utxos := List.length_pos_of_mem hmem
    have hone : checkedAdd (floor - readyOutputs utxos) 1 = some (floor - readyOutputs utxos + 1) :=
      checkedAdd_eq_some.2 ⟨rfl, by omega⟩
    have hsplit : totalValue (largest :: dust) < u64Bound :=
      (totalValue_le_of_subperm (subperm_split hdust (mem_unmarked.2 hutxo) huseful)).trans_lt hsum
    rw [hone, Outcome.expect_eq_ok.2 rfl, Outcome.ok_bind, spendable_eq hsplit, Outcome.ok_bind]
    split_ifs with hfew
    · exact .inl rfl
    · rw [cut_eq hsplit]
      exact .inr ⟨_, rfl, sound_split hdust (mem_unmarked.2 hutxo) huseful (not_le.1 hready) (not_lt.1 hfew)⟩

/-! ## Carrying it out -/

/-- A plan is carried out: what it spends is gone, and there are unmarked outputs of its shares. -/
def Replaces (utxos : UtxoReply) (plan : Reshape) (utxos' : UtxoReply) : Prop :=
  ∃ (rest : UtxoReply) (created : List TransactionOutput),
    utxos.Perm (plan.inputs.map (Prod.mk false) ++ rest) ∧
    utxos'.Perm (rest ++ created.map (Prod.mk false)) ∧
    created.map TransactionOutput.value = plan.shares

theorem unmarked_append (utxos utxos' : UtxoReply) :
    unmarked (utxos ++ utxos') = unmarked utxos ++ unmarked utxos' := by
  rw [unmarked, List.filter_append, List.map_append]
  rfl

theorem unmarked_free (outputs : List TransactionOutput) :
    unmarked (outputs.map (Prod.mk false)) = outputs := by
  rw [unmarked, List.filter_eq_self.2 fun p hp => ?_, List.map_map]
  · exact List.map_id _
  · obtain ⟨o, -, rfl⟩ := List.mem_map.1 hp
    rfl

/-- What is unmarked, before and after. -/
theorem Replaces.unmarked (h : Replaces utxos plan utxos') : ∃ rest created : List TransactionOutput,
    (unmarked utxos).Perm (plan.inputs ++ rest) ∧ (Itx.unmarked utxos').Perm (rest ++ created) ∧
      created.map TransactionOutput.value = plan.shares := by
  obtain ⟨rest, created, hbefore, hafter, hvalues⟩ := h
  refine ⟨Itx.unmarked rest, created, ?_, ?_, hvalues⟩
  · have hperm := unmarked_perm hbefore
    rwa [unmarked_append, unmarked_free] at hperm
  · have hperm := unmarked_perm hafter
    rwa [unmarked_append, unmarked_free] at hperm

theorem perm_unmarked (utxos : UtxoReply) :
    utxos.Perm ((unmarked utxos).map (Prod.mk false) ++ utxos.filter Prod.fst) := by
  have hfree : (unmarked utxos).map (Prod.mk false) = utxos.filter fun p => !p.1 := by
    rw [unmarked, List.map_map]
    refine (List.map_congr_left fun p hp => ?_).trans (List.map_id _)
    have hmark : p.1 = false := by simpa using (List.mem_filter.1 hp).2
    exact Prod.ext hmark.symm rfl
  rw [hfree]
  exact ((List.filter_append_perm Prod.fst utxos).symm).trans List.perm_append_comm

/-- A plan for unmarked outputs can be carried out. -/
theorem exists_replaces (h : plan.inputs.Subperm (unmarked utxos)) : ∃ utxos', Replaces utxos plan utxos' := by
  obtain ⟨inputs, hperm, hsub⟩ := h
  obtain ⟨rest, hrest⟩ := hsub.exists_perm_append
  refine ⟨_, rest.map (Prod.mk false) ++ utxos.filter Prod.fst, plan.shares.map fun value => ⟨value, 0, 0⟩,
    ?_, .refl _, ?_⟩
  · have hall := (hrest.trans (hperm.append_right rest)).map (Prod.mk false)
    rw [List.map_append] at hall
    rw [← List.append_assoc]
    exact (perm_unmarked utxos).trans (hall.append_right _)
  · rw [List.map_map]
    exact List.map_id _

/-- How many useful outputs there are then. -/
theorem Replaces.ready_eq (h : Replaces utxos plan utxos')
    (huseful : ∀ share ∈ plan.shares, minUsefulOutput ≤ share) :
    readyOutputs utxos' + plan.inputs.countP (fun o => minUsefulOutput ≤ o.value) =
      readyOutputs utxos + plan.shares.length := by
  obtain ⟨rest, created, hbefore, hafter, hvalues⟩ := h.unmarked
  have hcreated : created.countP (fun o => minUsefulOutput ≤ o.value) = plan.shares.length := by
    rw [← hvalues, List.length_map, List.countP_eq_length]
    intro o ho
    exact decide_eq_true (huseful _ (hvalues ▸ List.mem_map_of_mem ho))
  rw [readyOutputs_eq, readyOutputs_eq, hbefore.countP_eq, hafter.countP_eq, List.countP_append,
    List.countP_append,
    hcreated]
  omega

/-- What there is then, without the fee. -/
theorem Replaces.totalValue_le (h : Replaces utxos plan utxos')
    (hsum : plan.shares.sum + fee = totalValue plan.inputs) :
    totalValue (Itx.unmarked utxos') ≤ totalValue (Itx.unmarked utxos) := by
  obtain ⟨rest, created, hbefore, hafter, hvalues⟩ := h.unmarked
  have hcreated : totalValue created = plan.shares.sum := congrArg List.sum hvalues
  have happend : ∀ l l' : List TransactionOutput, totalValue (l ++ l') = totalValue l + totalValue l' :=
    fun l l' => by
    rw [totalValue, List.map_append, List.sum_append]
    rfl
  rw [totalValue_perm hbefore, totalValue_perm hafter, happend, happend, hcreated]
  omega

/-- A plan that is carried out makes more outputs useful, and not too many. -/
theorem Reshape.Sound.progress (hp : plan.Sound utxos fee floor) (h : Replaces utxos plan utxos') :
    readyOutputs utxos + 1 ≤ readyOutputs utxos' ∧ readyOutputs utxos' ≤ floor := by
  have hready := h.ready_eq hp.useful
  have hgains := hp.gains
  have hfits := hp.fits
  omega

/-- The hub builds a payment from what a plan spends (`maintain_wallet`, `hub/src/handlers.rs`). It
    pays the shares, in order, and there is no change. -/
theorem built_of_plan {ids : ℕ → Uuid} {key : PrivateKey} {owner : PublicKey} (hp : plan.Sound utxos fee floor)
    (hsum : totalValue (unmarked utxos) < u64Bound) : ∃ tx,
      buildMultiPayment c g ids (plan.inputs.map (Prod.mk false)) key (plan.shares.map (Prod.mk owner)) fee
        owner =
        .ok tx ∧ tx.outputs.map (fun o => (o.pubkey, o.value)) = plan.shares.map (Prod.mk owner) := by
  have hinputs : totalValue plan.inputs < u64Bound := (totalValue_le_of_subperm hp.unmarked).trans_lt hsum
  have hneeded : ((plan.shares.map (Prod.mk owner)).map Prod.snd).sum + fee = totalValue plan.inputs := by
    rw [List.map_map, ← hp.sum]
    exact congrArg (· + fee) (congrArg List.sum (List.map_id plan.shares))
  have hfree : unmarked (plan.inputs.map (Prod.mk false)) = plan.inputs := unmarked_free plan.inputs
  obtain ⟨spent, change, hbuilt, hpicked, htotal⟩ : ∃ spent change,
      buildMultiPayment c g ids (plan.inputs.map (Prod.mk false)) key (plan.shares.map (Prod.mk owner)) fee
        owner =
        .ok (builtPayment c g ids key (plan.shares.map (Prod.mk owner)) owner spent change) ∧
      spent = picked (totalValue plan.inputs) 0 (plan.inputs.map (Prod.mk false)) ∧
      totalValue spent = totalValue plan.inputs + change :=
    buildMultiPayment_covered hneeded hinputs (by rwa [hfree]) (by rw [hfree])
  -- What is picked is worth no more than the inputs, which are worth just what is needed.
  have hchange : change = 0 := by
    have hle : totalValue (picked (totalValue plan.inputs) 0 (plan.inputs.map (Prod.mk false))) ≤
        totalValue (unmarked (plan.inputs.map (Prod.mk false))) := totalValue_picked_le
    rw [← hpicked, hfree] at hle
    omega
  refine ⟨_, hbuilt, ?_⟩
  rw [hchange]
  exact payments_paid ids _

/-- While there are plans, and each is carried out, there are ever more useful outputs. -/
theorem ready_of_plans {w : ℕ → UtxoReply} {n : ℕ} (hfloor : floor < u64Bound)
    (hsum : totalValue (unmarked (w 0)) < u64Bound)
    (hstep : ∀ n plan, planReshape (w n) fee floor = .ok (some plan) → Replaces (w n) plan (w (n + 1)))
    (hplans : ∀ i < n, planReshape (w i) fee floor ≠ .ok none) :
    totalValue (unmarked (w n)) < u64Bound ∧ readyOutputs (w 0) + n ≤ readyOutputs (w n) ∧
      (0 < n → readyOutputs (w n) ≤ floor) := by
  induction n with
  | zero => exact ⟨hsum, le_rfl, fun h => absurd h (lt_irrefl 0)⟩
  | succ n ih =>
    obtain ⟨hbound, hready, -⟩ := ih fun i hi => hplans i (hi.trans n.lt_succ_self)
    rcases planReshape_spec hbound hfloor with hnone | ⟨plan, hplan, hsound⟩
    · exact absurd hnone (hplans n n.lt_succ_self)
    have happlied := hstep n plan hplan
    obtain ⟨hmore, hfew⟩ := hsound.progress happlied
    exact ⟨(happlied.totalValue_le hsound.sum).trans_lt hbound, by omega, fun _ => hfew⟩

/-- A plan spends unmarked outputs, each once, all of their value but the fee, in useful pieces;
    carried out, it makes at least one more output useful, and no more than there should be. So
    wherever a wallet begins, and whatever the outputs that are made are, there is no plan left
    after as many as there should be useful outputs, at the latest. -/
theorem reshape_converges (fee floor : ℕ) (hfloor : floor < u64Bound) :
    (∀ utxos, totalValue (unmarked utxos) < u64Bound → planReshape utxos fee floor = .ok none ∨
      ∃ plan : Reshape, planReshape utxos fee floor = .ok (some plan) ∧
        plan.inputs.Subperm (unmarked utxos) ∧ plan.shares.sum + fee = totalValue plan.inputs ∧
        (∀ share ∈ plan.shares, minUsefulOutput ≤ share) ∧ (∃ utxos', Replaces utxos plan utxos') ∧
        ∀ utxos', Replaces utxos plan utxos' →
          readyOutputs utxos + 1 ≤ readyOutputs utxos' ∧ readyOutputs utxos' ≤ floor) ∧
    ∀ w : ℕ → UtxoReply, totalValue (unmarked (w 0)) < u64Bound →
      (∀ n plan, planReshape (w n) fee floor = .ok (some plan) → Replaces (w n) plan (w (n + 1))) →
      ∃ n ≤ floor, planReshape (w n) fee floor = .ok none := by
  constructor
  · intro utxos hsum
    refine (planReshape_spec hsum hfloor).imp_right ?_
    rintro ⟨plan, hplan, hsound⟩
    exact ⟨plan, hplan, hsound.unmarked, hsound.sum, hsound.useful, exists_replaces hsound.unmarked,
      fun utxos' => hsound.progress⟩
  · intro w hsum hstep
    -- One plan more than there should be useful outputs would leave too many.
    by_contra hnever
    have hplans : ∀ i < floor + 1, planReshape (w i) fee floor ≠ .ok none := fun i hi hnone =>
      hnever ⟨i, Nat.le_of_lt_succ hi, hnone⟩
    obtain ⟨-, hready, hfew⟩ := ready_of_plans hfloor hsum hstep hplans
    have := hfew floor.succ_pos
    omega

namespace ReshapeSample

open SelectionSample

/-- Two and a half coins, in one output and then in the two that the plan makes of it. -/
def wallets : ℕ → UtxoReply
  | 0 => [(false, coin 250000000 0)]
  | _ + 1 => [(false, coin 124999500 1), (false, coin 124999500 2)]

def split : Reshape where
  inputs := [coin 250000000 0]
  shares := [124999500, 124999500]

theorem planned : planReshape (wallets 0) 1000 24 = .ok (some split) := by decide +kernel

theorem planned_sound : split.Sound (wallets 0) 1000 24 := by
  have hspec : planReshape (wallets 0) 1000 24 = .ok none ∨ ∃ plan : Reshape,
      planReshape (wallets 0) 1000 24 = .ok (some plan) ∧ plan.Sound (wallets 0) 1000 24 :=
    planReshape_spec (by decide) (by decide)
  rcases hspec with hnone | ⟨plan, hplan, hsound⟩
  · rw [planned] at hnone
    cases hnone
  · obtain rfl : split = plan := Option.some.inj (Outcome.ok.inj (planned.symm.trans hplan))
    exact hsound

theorem settled (n : ℕ) : planReshape (wallets (n + 1)) 1000 24 = .ok none := by
  change planReshape (wallets 1) 1000 24 = .ok none
  decide +kernel

end ReshapeSample

open ReshapeSample SelectionSample in
/-- A wallet too small for 24 useful outputs has two in the end: its one plan can be built, with any
    keys. -/
theorem reshape_converges_small : split.shares.sum + 1000 = totalValue split.inputs ∧
    readyOutputs (wallets 0) + 1 ≤ readyOutputs (wallets 1) ∧
    (∃ n ≤ 24, planReshape (wallets n) 1000 24 = .ok none) ∧
    ∀ (c : Crypto) (g : Signing) (ids : ℕ → Uuid) (key : PrivateKey) (owner : PublicKey), ∃ tx,
      buildMultiPayment c g ids (split.inputs.map (Prod.mk false)) key (split.shares.map (Prod.mk owner))
          1000 owner = .ok tx ∧
        tx.outputs.map (fun o => (o.pubkey, o.value)) = [(owner, 124999500), (owner, 124999500)] := by
  obtain ⟨hplan, hend⟩ := reshape_converges 1000 24 (by decide)
  have hsum : totalValue (unmarked (wallets 0)) < u64Bound := by decide
  have hreplaces : Replaces (wallets 0) split (wallets 1) :=
    ⟨[], [coin 124999500 1, coin 124999500 2], .refl _, .refl _, rfl⟩
  rcases hplan (wallets 0) hsum with hnone | ⟨plan, hplan, -, hshares, -, -, hprogress⟩
  · rw [planned] at hnone
    cases hnone
  obtain rfl : split = plan := Option.some.inj (Outcome.ok.inj (planned.symm.trans hplan))
  refine ⟨hshares, (hprogress _ hreplaces).1, hend wallets hsum fun n plan hplan => ?_,
    fun c g ids key owner => built_of_plan planned_sound hsum⟩
  rcases n with _ | n
  · obtain rfl : split = plan := Option.some.inj (Outcome.ok.inj (planned.symm.trans hplan))
    exact hreplaces
  · rw [settled n] at hplan
    cases hplan

end Itx
