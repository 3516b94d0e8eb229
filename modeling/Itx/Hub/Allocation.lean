import Itx.Hub.Lifecycle

/-!
# What a task pays, and whom

The recipients of a task come from its claimant, from a vote, from the answers of a
contest or from a dispute (`Task.allocatedPayouts`).

* `Allotted`: nobody has a share before the task is settled, and the shares are within
  the bounty from then on. They are never changed again (`Moves.allocatedPayouts_eq`);
* `PaidUp`: a task is paid when everyone it pays was paid, however that is recorded.
-/

namespace Itx

/-! ## Shares -/

section

variable {α : Type*} {β : Type*} {key : α → β} {share : α → Option ℕ} {l : List α}

/-- Those of a list who have a share, with it. -/
def shares (key : α → β) (share : α → Option ℕ) (l : List α) : List (β × ℕ) :=
  l.filterMap fun a => (share a).map fun n => (key a, n)

theorem mem_shares {b : β} {n : ℕ} :
    (b, n) ∈ shares key share l ↔ ∃ a ∈ l, key a = b ∧ share a = some n := by
  rw [shares, List.mem_filterMap]
  refine exists_congr fun a => and_congr_right fun _ => ?_
  rw [Option.map_eq_some_iff]
  constructor
  · rintro ⟨m, hm, he⟩
    obtain ⟨rfl, rfl⟩ := Prod.mk.inj he
    exact ⟨rfl, hm⟩
  · rintro ⟨rfl, hn⟩
    exact ⟨n, hn, rfl⟩

theorem nodup_shares (hl : (l.map key).Nodup) : ((shares key share l).map Prod.fst).Nodup := by
  suffices h : ((shares key share l).map Prod.fst).Sublist (l.map key) from h.nodup hl
  clear hl
  induction l with
  | nil => exact List.Sublist.refl _
  | cons a l ih =>
    rw [shares, List.filterMap_cons, List.map_cons]
    cases share a with
    | none => exact ih.cons _
    | some n => exact ih.cons_cons _

theorem shares_eq_nil (h : ∀ a ∈ l, share a = none) : shares key share l = [] := by
  rw [shares, List.filterMap_eq_nil_iff]
  intro a ha
  rw [h a ha]
  rfl

/-- Only shares and keys matter. -/
theorem shares_updateFirst {p : α → Bool} {f : α → α} (hkey : ∀ a, key (f a) = key a)
    (hshare : ∀ a, share (f a) = share a) :
    shares key share (updateFirst p f l) = shares key share l := by
  induction l with
  | nil => rfl
  | cons a l ih =>
    rw [updateFirst]
    split_ifs
    · rw [shares, shares, List.filterMap_cons, List.filterMap_cons, hkey, hshare]
    · rw [shares, shares, List.filterMap_cons, List.filterMap_cons, ← shares, ih, ← shares]

/-- Equal shares of at most a bounty. -/
theorem sum_shares_le {bounty n : ℕ} (hn : ∀ a ∈ l, ∀ m ∈ share a, m = bounty / max 1 n)
    (hcount : l.countP (fun a => (share a).isSome) ≤ n) :
    ((shares key share l).map Prod.snd).sum ≤ bounty := by
  have hle : ((shares key share l).map Prod.snd).sum ≤
      l.countP (fun a => (share a).isSome) * (bounty / max 1 n) := by
    clear hcount
    induction l with
    | nil => simp [shares]
    | cons a l ih =>
      have ih := ih fun b hb => hn b (List.mem_cons_of_mem _ hb)
      rw [shares, List.filterMap_cons]
      cases hshare : share a with
      | none =>
        rw [List.countP_cons_of_neg (by simp [hshare])]
        exact ih
      | some m =>
        rw [List.countP_cons_of_pos (by simp [hshare]), hn a List.mem_cons_self m hshare]
        simp only [Option.map_some, List.map_cons, List.sum_cons]
        rw [add_mul, one_mul, add_comm]
        exact Nat.add_le_add_right ih _
  calc ((shares key share l).map Prod.snd).sum
      ≤ l.countP (fun a => (share a).isSome) * (bounty / max 1 n) := hle
    _ ≤ max 1 n * (bounty / max 1 n) := Nat.mul_le_mul_right _ (hcount.trans (le_max_right 1 n))
    _ ≤ bounty := Nat.mul_div_le bounty (max 1 n)

end

namespace Task

variable {t t' : Task}

/-! ## The recipients -/

theorem allocatedPayouts_hashMatch {hash : Hash} (h : t.kind = .hashMatch hash) :
    t.allocatedPayouts = t.claimant.toList.map fun pk => (pk, t.bounty) := by
  rw [allocatedPayouts, h]

theorem allocatedPayouts_consensus {kind : ConsensusKind} (h : t.kind = .consensus kind) :
    t.allocatedPayouts = shares (fun pk => pk)
      (fun pk => (kind.assignees.lookup pk).bind ConsensusAssignment.share)
      kind.assignees.keys.ascending := by
  rw [allocatedPayouts, h, shares]
  refine List.filterMap_congr fun pk _ => ?_
  cases kind.assignees.lookup pk <;> rfl

theorem allocatedPayouts_contest {kind : DisputableKind} (h : t.kind = .disputable kind)
    (hne : kind.answers ≠ []) :
    t.allocatedPayouts = shares ContestAnswer.pubkey ContestAnswer.share kind.answers := by
  rw [allocatedPayouts, h]
  exact if_pos hne

theorem allocatedPayouts_single {kind : DisputableKind} (h : t.kind = .disputable kind)
    (hnil : kind.answers = []) :
    t.allocatedPayouts =
      (disputeWinner t.claimant kind.dispute).toList.map fun pk => (pk, t.bounty) := by
  rw [allocatedPayouts, h]
  exact if_neg (not_not.2 hnil)

/-- No two answers of a contest are by the same key. -/
def Distinct (task : Task) : Prop :=
  ∀ kind, task.kind = .disputable kind → (kind.answers.map ContestAnswer.pubkey).Nodup

theorem Distinct.nodup (h : t.Distinct) : (t.allocatedPayouts.map Prod.fst).Nodup := by
  cases hkind : t.kind with
  | hashMatch hash =>
    rw [allocatedPayouts_hashMatch hkind]
    cases t.claimant <;> simp
  | consensus kind =>
    rw [allocatedPayouts_consensus hkind]
    refine nodup_shares ?_
    rw [List.map_id']
    exact Finset.nodup_ascending _
  | disputable kind =>
    by_cases hnil : kind.answers = []
    · rw [allocatedPayouts_single hkind hnil]
      cases disputeWinner t.claimant kind.dispute <;> simp
    · rw [allocatedPayouts_contest hkind hnil]
      exact nodup_shares (h kind hkind)

/-! ## Before and after a task is settled -/

/-- Nobody was given a share, or paid. -/
structure Blank (task : Task) : Prop where
  consensus : ∀ kind, task.kind = .consensus kind → ∀ pk a, kind.assignees.lookup pk = some a →
    a.share = none ∧ a.paid = false
  contest : ∀ kind, task.kind = .disputable kind → ∀ a ∈ kind.answers,
    a.share = none ∧ a.paid = false

/-- What a task promises of its bounty. -/
structure Allotted (task : Task) : Prop where
  distinct : task.Distinct
  blank : ¬ task.Settled → task.Blank
  within : task.Settled → (task.allocatedPayouts.map Prod.snd).sum ≤ task.bounty

theorem Fresh.blank (h : t.Fresh) : t.Blank where
  consensus kind hkind pk a ha := by
    rw [(h.consensus kind hkind).1, Finmap.lookup_empty] at ha
    cases ha
  contest kind hkind a ha := by
    rw [(h.disputable kind hkind).1] at ha
    cases ha

theorem not_settled_of {status : TaskStatus} (h : t.status = status)
    (hstatus : status ∉ [TaskStatus.verified, .submitted, .payoutFailed, .paid]) :
    ¬ t.Settled := by
  rw [Settled, h]
  exact hstatus

theorem Fresh.allotted (h : t.Fresh) : t.Allotted where
  distinct kind hkind := by
    rw [(h.disputable kind hkind).1]
    exact List.nodup_nil
  blank _ := h.blank
  within hsettled := absurd hsettled (not_settled_of h.status (by decide))

/-- A single recipient gets the bounty. -/
theorem sum_single_le (winner : Option PublicKey) (bounty : ℕ) :
    ((winner.toList.map fun pk => (pk, bounty)).map Prod.snd).sum ≤ bounty := by
  cases winner <;> simp

/-- A task nobody has a share of pays a single recipient. -/
theorem Blank.within (h : t.Blank) : (t.allocatedPayouts.map Prod.snd).sum ≤ t.bounty := by
  cases hkind : t.kind with
  | hashMatch hash =>
    rw [allocatedPayouts_hashMatch hkind]
    exact sum_single_le _ _
  | consensus kind =>
    rw [allocatedPayouts_consensus hkind, shares_eq_nil]
    · exact Nat.zero_le _
    · intro pk _
      cases ha : kind.assignees.lookup pk with
      | none => rfl
      | some a => exact (h.consensus kind hkind pk a ha).1
  | disputable kind =>
    by_cases hnil : kind.answers = []
    · rw [allocatedPayouts_single hkind hnil]
      exact sum_single_le _ _
    · rw [allocatedPayouts_contest hkind hnil, shares_eq_nil fun a ha => ?_]
      · exact Nat.zero_le _
      · exact (h.contest kind hkind a ha).1

/-- The one answer that is picked gets the bounty. -/
theorem within_pick {answers : List ContestAnswer} {answerer : PublicKey} {bounty : ℕ}
    (hblank : ∀ a ∈ answers, a.share = none) :
    ((shares ContestAnswer.pubkey ContestAnswer.share (updateFirst (fun a => a.pubkey = answerer)
      (fun a => { a with share := some bounty }) answers)).map Prod.snd).sum ≤ bounty := by
  induction answers with
  | nil => exact Nat.zero_le _
  | cons a answers ih =>
    have hrest : ∀ b ∈ answers, b.share = none := fun b hb => hblank b (List.mem_cons_of_mem _ hb)
    rw [updateFirst]
    split_ifs
    · rw [shares, List.filterMap_cons, Option.map_some, ← shares, shares_eq_nil hrest]
      simp
    · rw [shares, List.filterMap_cons, hblank a List.mem_cons_self]
      exact ih hrest

/-- Those who voted with the majority share the bounty. -/
theorem within_vote {kind : ConsensusKind} {winningAnswer : String} {bounty : ℕ}
    (hblank : ∀ pk a, kind.assignees.lookup pk = some a → a.share = none) :
    ((shares (fun pk => pk) (fun pk => ((kind.assignees.filterMap fun _ a =>
        some (if a.answer = some winningAnswer
          then { a with share := some (TaskBoard.shareOf bounty kind winningAnswer) } else a)).lookup
            pk).bind ConsensusAssignment.share)
      kind.assignees.keys.ascending).map Prod.snd).sum ≤ bounty := by
  -- A key has a share if its answer is the winning one.
  have hshare : ∀ pk, (((kind.assignees.filterMap fun _ a => some (if a.answer = some winningAnswer
      then { a with share := some (TaskBoard.shareOf bounty kind winningAnswer) } else a)).lookup
        pk).bind ConsensusAssignment.share) =
      if (kind.assignees.lookup pk).any (fun a => a.answer = some winningAnswer)
        then some (TaskBoard.shareOf bounty kind winningAnswer) else none := by
    intro pk
    rw [Finmap.lookup_filterMap]
    cases ha : kind.assignees.lookup pk with
    | none => rfl
    | some a =>
      rw [Option.bind_some, Option.bind_some, Option.any_some]
      by_cases hwin : a.answer = some winningAnswer
      · rw [if_pos hwin, if_pos (decide_eq_true hwin)]
      · rw [if_neg hwin, if_neg (by simpa using hwin), hblank pk a ha]
  refine sum_shares_le (n := kind.assignees.values.countP fun a => a.answer = some winningAnswer)
    (fun pk _ m hm => ?_) (le_of_eq ?_)
  · rw [hshare] at hm
    split_ifs at hm
    · exact (Option.some.inj hm).symm
    · cases hm
  · rw [Finmap.values, List.countP_filterMap]
    refine List.countP_congr fun pk _ => ?_
    rw [hshare]
    cases kind.assignees.lookup pk with
    | none => simp
    | some a => by_cases hwin : a.answer = some winningAnswer <;> simp [hwin]

/-- Recording a payout changes no share. -/
theorem Pays.allocatedPayouts_eq {recipient : PublicKey} {kind : TaskKind}
    {nowFullyPaid credited : Bool} (h : t.Pays recipient kind nowFullyPaid credited)
    (now : DateTime) :
    (TaskBoard.paidTask t now kind nowFullyPaid).allocatedPayouts = t.allocatedPayouts := by
  cases h with
  | hashMatch hkind =>
    rw [allocatedPayouts_hashMatch hkind, allocatedPayouts_hashMatch (paidTask_kind ..),
      paidTask_claimant, paidTask_bounty]
  | @consensus k a hkind ha =>
    rw [allocatedPayouts_consensus hkind, allocatedPayouts_consensus (paidTask_kind ..)]
    have hmem : recipient ∈ k.assignees.keys :=
      Finmap.mem_keys.2 (Finmap.mem_of_lookup_eq_some ha)
    rw [Finmap.keys_insert, Finset.insert_eq_of_mem hmem]
    congr 1
    funext pk
    rw [Finmap.lookup_insert_eq]
    split_ifs with hpk
    · rw [hpk, ha]
      rfl
    · rfl
  | contest hkind hne =>
    rw [allocatedPayouts_contest hkind hne, allocatedPayouts_contest (paidTask_kind ..)
      (updateFirst_ne_nil.2 hne)]
    exact shares_updateFirst (fun _ => rfl) fun _ => rfl
  | single hkind hnil =>
    rw [allocatedPayouts_single hkind hnil, allocatedPayouts_single (paidTask_kind ..) hnil,
      paidTask_claimant, paidTask_bounty]

/-- The shares of a settled task are never changed. -/
theorem Moves.allocatedPayouts_eq (h : t.Moves t') (ht : t.Settled) :
    t'.allocatedPayouts = t.allocatedPayouts := by
  rcases h.settled_cases ht with ⟨_, _, _, rfl⟩ | ⟨-, rfl⟩ | ⟨_, _, _, _, now, -, hpay, rfl⟩ | ⟨-, rfl⟩
  · rfl
  · rfl
  · exact (pays_of_payRecipient hpay).allocatedPayouts_eq now
  · rfl

theorem MovesTo.allocatedPayouts_eq (h : t.MovesTo t') (ht : t.Settled) :
    t'.allocatedPayouts = t.allocatedPayouts := by
  induction h with
  | refl => rfl
  | tail h hmove ih => exact (hmove.allocatedPayouts_eq (MovesTo.settled h ht)).trans ih

theorem Moves.bounty_eq (h : t.Moves t') : t'.bounty = t.bounty := by
  cases h with
  | work h =>
    cases h with
    | vote => unfold TaskBoard.resolved; split <;> rfl
    | _ => rfl
  | pay => exact paidTask_bounty ..
  | _ => rfl

/-! ## The moves -/

theorem Blank.allotted (h : t.Blank) (hdistinct : t.Distinct) : t.Allotted :=
  ⟨hdistinct, fun _ => h, fun _ => h.within⟩

theorem Allotted.of_kind (h : t.Allotted) (hsettled : ¬ t.Settled) (hkind : t'.kind = t.kind) :
    t'.Allotted := by
  obtain ⟨hconsensus, hcontest⟩ := h.blank hsettled
  refine Blank.allotted ⟨by rwa [hkind], by rwa [hkind]⟩ ?_
  rw [Distinct, hkind]
  exact h.distinct

/-- Only the assignees of a consensus task change, and nobody is given a share. -/
theorem Allotted.of_consensus {kind : ConsensusKind} (hkind : t'.kind = .consensus kind)
    (hblank : ∀ pk a, kind.assignees.lookup pk = some a → a.share = none ∧ a.paid = false) :
    t'.Allotted := by
  refine Blank.allotted ⟨fun _ hk => ?_, fun _ hk => ?_⟩ fun _ hk => ?_
  · obtain rfl := TaskKind.consensus.inj (hkind.symm.trans hk)
    exact hblank
  · cases hkind.symm.trans hk
  · cases hkind.symm.trans hk

/-- Only the answers of a contest change, and nobody is given a share. -/
theorem Allotted.of_contest {kind : DisputableKind} (hkind : t'.kind = .disputable kind)
    (hdistinct : (kind.answers.map ContestAnswer.pubkey).Nodup)
    (hblank : ∀ a ∈ kind.answers, a.share = none ∧ a.paid = false) : t'.Allotted := by
  refine Blank.allotted ⟨fun _ hk => ?_, fun _ hk => ?_⟩ fun _ hk => ?_
  · cases hkind.symm.trans hk
  · obtain rfl := TaskKind.disputable.inj (hkind.symm.trans hk)
    exact hblank
  · obtain rfl := TaskKind.disputable.inj (hkind.symm.trans hk)
    exact hdistinct

/-- The answers of a contest stay as they are. -/
theorem Allotted.of_answers (h : t.Allotted) (hsettled : ¬ t.Settled) {kind kind' : DisputableKind}
    (hkind : t.kind = .disputable kind) (hkind' : t'.kind = .disputable kind')
    (hanswers : kind'.answers = kind.answers) : t'.Allotted :=
  .of_contest hkind' (hanswers ▸ h.distinct kind hkind)
    (hanswers ▸ (h.blank hsettled).contest kind hkind)

/-- The answers of a contest are given their shares. -/
theorem Allotted.of_shares {kind : DisputableKind} (hkind : t'.kind = .disputable kind)
    (hstatus : t'.status = .verified) (hdistinct : (kind.answers.map ContestAnswer.pubkey).Nodup)
    (hwithin : ((shares ContestAnswer.pubkey ContestAnswer.share kind.answers).map Prod.snd).sum ≤
      t'.bounty) : t'.Allotted := by
  refine ⟨fun _ hk => ?_, fun hsettled => ?_, fun _ => ?_⟩
  · obtain rfl := TaskKind.disputable.inj (hkind.symm.trans hk)
    exact hdistinct
  · rw [Settled, hstatus] at hsettled
    exact absurd (by decide) hsettled
  · by_cases hnil : kind.answers = []
    · rw [allocatedPayouts_single hkind hnil]
      exact sum_single_le _ _
    · rw [allocatedPayouts_contest hkind hnil]
      exact hwithin

/-- A payout is recorded, of a task whose shares are fixed. -/
theorem Allotted.of_settled (h : t.Allotted) (hmove : t.Moves t') (hsettled : t.Settled) :
    t'.Allotted where
  distinct := by
    rcases hmove.settled_cases hsettled with
      ⟨_, _, _, rfl⟩ | ⟨-, rfl⟩ | ⟨_, _, _, _, now, -, hpay, rfl⟩ | ⟨-, rfl⟩
    · exact h.distinct
    · exact h.distinct
    · intro kind hkind
      rw [paidTask_kind] at hkind
      subst hkind
      cases pays_of_payRecipient hpay with
      | contest hkind => exact nodup_map_updateFirst (fun _ => rfl) (h.distinct _ hkind)
      | single hkind => exact h.distinct _ hkind
    · exact h.distinct
  blank hnot := absurd (MovesTo.settled (.single hmove) hsettled) hnot
  within _ := by
    rw [hmove.allocatedPayouts_eq hsettled, hmove.bounty_eq]
    exact h.within hsettled

theorem Moves.allotted (h : t.Moves t') (ht : t.Allotted) : t'.Allotted := by
  by_cases hsettled : t.Settled
  · exact ht.of_settled h hsettled
  have hblank := ht.blank hsettled
  cases h with
  | work h =>
    cases h with
    -- Moves that leave the kind of the task as it is.
    | annotate => exact ht.of_kind hsettled rfl
    | cancel => exact ht.of_kind hsettled rfl
    | claim => exact ht.of_kind hsettled rfl
    | verify => exact ht.of_kind hsettled rfl
    | reopen => exact ht.of_kind hsettled rfl
    | shut => exact ht.of_kind hsettled rfl
    | finalize => exact ht.of_kind hsettled rfl
    | upheld => exact ht.of_kind hsettled rfl
    | understaffed => exact ht.of_kind hsettled rfl
    -- Moves that enter or change an assignee, who has no share before the vote.
    | join hkind =>
      refine .of_consensus rfl fun pk a ha => ?_
      rw [Finmap.lookup_insert_eq] at ha
      split_ifs at ha
      · obtain rfl := Option.some.inj ha
        exact ⟨rfl, rfl⟩
      · exact hblank.consensus _ hkind pk a ha
    | fill _ hkind =>
      refine .of_consensus rfl fun pk a ha => ?_
      rw [Finmap.lookup_insert_eq] at ha
      split_ifs at ha
      · obtain rfl := Option.some.inj ha
        exact ⟨rfl, rfl⟩
      · exact hblank.consensus _ hkind pk a ha
    | @answer kind agent assignment _ hkind _ hagent =>
      refine .of_consensus rfl fun pk a ha => ?_
      rw [Finmap.lookup_insert_eq] at ha
      split_ifs at ha
      · obtain rfl := Option.some.inj ha
        exact hblank.consensus kind hkind agent assignment hagent
      · exact hblank.consensus _ hkind pk a ha
    | enter answer hkind h hnew hshare hpaid =>
      refine .of_contest rfl ?_ fun a ha => ?_
      · rw [List.map_append]
        refine (ht.distinct _ hkind).append (List.nodup_singleton _) fun pk hpk hpk' => ?_
        obtain ⟨a, ha, rfl⟩ := List.mem_map.1 hpk
        exact hnew a ha (List.mem_singleton.1 hpk')
      · rcases List.mem_append.1 ha with ha | ha
        · exact hblank.contest _ hkind a ha
        · rw [List.mem_singleton.1 ha]
          exact ⟨hshare, hpaid⟩
    | close _ hkind => exact ht.of_answers hsettled hkind rfl rfl
    | file _ hkind => exact ht.of_answers hsettled hkind rfl rfl
    | rule _ hkind => exact ht.of_answers hsettled hkind rfl rfl
    -- Moves that settle the task: the shares are given out here.
    | pick hkind =>
      refine .of_shares rfl rfl ?_ (within_pick fun a ha => (hblank.contest _ hkind a ha).1)
      exact nodup_map_updateFirst (fun _ => rfl) (ht.distinct _ hkind)
    | @split kind hkind =>
      refine .of_shares rfl rfl ?_ (sum_shares_le (n := kind.answers.length) (fun a ha m hm => ?_) ?_)
      · rw [List.map_map]
        exact ht.distinct _ hkind
      · obtain ⟨b, -, rfl⟩ := List.mem_map.1 ha
        exact (Option.some.inj hm).symm
      · exact List.countP_le_length.trans (List.length_map ..).le
    | @vote kind hkind =>
      unfold TaskBoard.resolved
      split
      · refine ⟨fun _ hk => ?_, fun hnot => absurd ?_ hnot, fun _ => ?_⟩
        · cases hk
        · exact List.mem_cons_self
        · rw [allocatedPayouts_consensus rfl, Finmap.keys_filterMap fun _ _ => rfl]
          exact within_vote fun pk a ha => (hblank.consensus kind hkind pk a ha).1
      · exact ht.of_kind hsettled rfl
  | submitted => exact ht.of_kind hsettled rfl
  | fail => exact ht.of_kind hsettled rfl
  | pay _ h =>
    rcases h with h | h <;> exact absurd (by rw [Settled, h]; decide) hsettled

/-! ## Who was paid -/

theorem isRecipientPaid_hashMatch {hash : Hash} {pk : PublicKey} (h : t.kind = .hashMatch hash) :
    t.isRecipientPaid pk ↔ t.status = .paid ∧ t.claimant = some pk := by
  rw [isRecipientPaid, h]
  exact decide_eq_true_iff

theorem isRecipientPaid_consensus {kind : ConsensusKind} {pk : PublicKey}
    (h : t.kind = .consensus kind) :
    t.isRecipientPaid pk ↔ ∃ a, kind.assignees.lookup pk = some a ∧ a.paid := by
  rw [isRecipientPaid, h]
  exact Option.any_eq_true _ _

theorem isRecipientPaid_contest {kind : DisputableKind} {pk : PublicKey}
    (h : t.kind = .disputable kind) (hne : kind.answers ≠ []) :
    t.isRecipientPaid pk ↔ ∃ a ∈ kind.answers, a.pubkey = pk ∧ a.paid := by
  rw [isRecipientPaid, h]
  simp only [if_pos hne, List.any_eq_true, decide_eq_true_iff]

theorem isRecipientPaid_single {kind : DisputableKind} {pk : PublicKey}
    (h : t.kind = .disputable kind) (hnil : kind.answers = []) :
    t.isRecipientPaid pk ↔ t.status = .paid ∧ t.pendingPayoutsRecipientHint = some pk := by
  rw [isRecipientPaid, h]
  simp only [ne_eq, hnil, not_true, if_false, decide_eq_true_iff]

/-- The dispute over a settled task without answers, if any, was ruled upon. -/
def Ruled (task : Task) : Prop :=
  ∀ kind, task.kind = .disputable kind → kind.answers = [] → ∀ d ∈ kind.dispute, d.resolution.isSome

/-- Once it was, the two readings of its winner agree. -/
theorem Ruled.hint_eq (h : t.Ruled) {kind : DisputableKind} (hkind : t.kind = .disputable kind)
    (hnil : kind.answers = []) :
    t.pendingPayoutsRecipientHint = disputeWinner t.claimant kind.dispute := by
  have hruled := h kind hkind hnil
  simp only [pendingPayoutsRecipientHint, hkind]
  cases hd : kind.dispute with
  | none => rfl
  | some d =>
    obtain ⟨resolution, hr⟩ := Option.isSome_iff_exists.1 (hruled d hd)
    simp only [disputeWinner, hr]
    cases resolution <;> rfl

/-- What recording a payout says of who was paid. -/
structure PaysOne (task task' : Task) (recipient : PublicKey) (nowFullyPaid : Bool) : Prop where
  allocated : ∃ amount, (recipient, amount) ∈ task.allocatedPayouts
  unpaid : ¬ task.isRecipientPaid recipient
  paid_iff : ∀ pk, task'.isRecipientPaid pk ↔ pk = recipient ∨ task.isRecipientPaid pk
  full_iff : nowFullyPaid ↔ ∀ p ∈ task.allocatedPayouts, task'.isRecipientPaid p.1

section

variable {recipient : PublicKey} {kind : TaskKind} {nowFullyPaid credited : Bool}

theorem paysOne_single {winner : Option PublicKey} (hwinner : winner = some recipient)
    (hallocated : t.allocatedPayouts = winner.toList.map fun pk => (pk, t.bounty))
    (hunpaid : ∀ pk, ¬ t.isRecipientPaid pk)
    (hpaid : ∀ pk, t'.isRecipientPaid pk ↔ winner = some pk) :
    t.PaysOne t' recipient true := by
  subst hwinner
  refine ⟨⟨t.bounty, ?_⟩, hunpaid recipient, fun pk => ?_, ?_⟩
  · rw [hallocated]
    exact List.mem_singleton_self _
  · rw [hpaid, Option.some.injEq, or_iff_left (hunpaid pk), eq_comm]
  · refine ⟨fun _ p hp => ?_, fun _ => rfl⟩
    rw [hallocated] at hp
    rw [hpaid, List.mem_singleton.1 hp]

/-- One assignee of a consensus task is recorded as paid. -/
theorem paysOne_consensus {k : ConsensusKind} {a : ConsensusAssignment}
    (hkind : t.kind = .consensus k) (ha : k.assignees.lookup recipient = some a)
    (hshare : a.share.isSome) (hpaid : a.paid = false)
    (hkind' : t'.kind = .consensus
      { k with assignees := k.assignees.insert recipient { a with paid := true } })
    (hallocated : t'.allocatedPayouts = t.allocatedPayouts) :
    t.PaysOne t' recipient (allPaid (k.assignees.insert recipient { a with paid := true })) := by
  have hiff : ∀ pk, t'.isRecipientPaid pk ↔ pk = recipient ∨ t.isRecipientPaid pk := by
    intro pk
    rw [isRecipientPaid_consensus hkind', isRecipientPaid_consensus hkind, Finmap.lookup_insert_eq]
    split_ifs with hpk
    · exact ⟨fun _ => .inl hpk, fun _ => ⟨_, rfl, rfl⟩⟩
    · exact (or_iff_right hpk).symm
  refine ⟨?_, fun h => ?_, hiff, ?_⟩
  · obtain ⟨n, hn⟩ := Option.isSome_iff_exists.1 hshare
    refine ⟨n, ?_⟩
    rw [allocatedPayouts_consensus hkind]
    refine mem_shares.2 ⟨recipient, Finset.mem_ascending.2 (Finmap.mem_keys.2
      (Finmap.mem_of_lookup_eq_some ha)), rfl, ?_⟩
    rw [ha, Option.bind_some, hn]
  · obtain ⟨a', ha', hpaid'⟩ := (isRecipientPaid_consensus hkind).1 h
    rw [ha, Option.some.injEq] at ha'
    rw [← ha', hpaid] at hpaid'
    cases hpaid'
  · -- Those with a share are those the task pays.
    rw [← hallocated, allocatedPayouts_consensus hkind', allPaid, List.all_eq_true]
    constructor
    · rintro hall ⟨pk, n⟩ hp
      obtain ⟨_, -, rfl, hn⟩ := mem_shares.1 hp
      obtain ⟨a', ha', hn⟩ := Option.bind_eq_some_iff.1 hn
      have := hall a' (Finmap.mem_values.2 ⟨_, ha'⟩)
      rw [hn] at this
      exact (isRecipientPaid_consensus hkind').2 ⟨a', ha', this⟩
    · intro hall a' ha'
      obtain ⟨pk, hpk⟩ := Finmap.mem_values.1 ha'
      cases hn : a'.share with
      | none => rfl
      | some n =>
        have hmem : (pk, n) ∈ shares (fun pk => pk) (fun pk => ((k.assignees.insert recipient
            { a with paid := true }).lookup pk).bind ConsensusAssignment.share)
            (k.assignees.insert recipient { a with paid := true }).keys.ascending := by
          refine mem_shares.2 ⟨pk, Finset.mem_ascending.2 (Finmap.mem_keys.2
            (Finmap.mem_of_lookup_eq_some hpk)), rfl, ?_⟩
          rw [hpk, Option.bind_some, hn]
        obtain ⟨a'', ha'', hpaid''⟩ := (isRecipientPaid_consensus hkind').1 (hall _ hmem)
        rw [hpk, Option.some.injEq] at ha''
        rw [ha'', hpaid'']
        rfl

/-- One answer of a contest is recorded as paid. -/
theorem paysOne_contest {k k' : DisputableKind} {a : ContestAnswer}
    (hkind : t.kind = .disputable k) (hne : k.answers ≠ [])
    (hdistinct : (k.answers.map ContestAnswer.pubkey).Nodup)
    (ha : k.answers.find? (fun a => a.pubkey = recipient) = some a) (hshare : a.share.isSome)
    (hpaid : a.paid = false) (hkind' : t'.kind = .disputable k')
    (hanswers : k'.answers = updateFirst (fun a => a.pubkey = recipient)
      (fun a => { a with paid := true }) k.answers)
    (hallocated : t'.allocatedPayouts = t.allocatedPayouts) :
    t.PaysOne t' recipient (k'.answers.all fun a => a.share.isNone || a.paid) := by
  have hmem := List.mem_of_find?_eq_some ha
  have hkey : a.pubkey = recipient := by simpa using List.find?_some ha
  have hne' : k'.answers ≠ [] := hanswers ▸ updateFirst_ne_nil.2 hne
  have hdistinct' : (k'.answers.map ContestAnswer.pubkey).Nodup :=
    hanswers ▸ nodup_map_updateFirst (fun _ => rfl) hdistinct
  have hmap := hanswers.trans (updateFirst_eq_map hdistinct)
  refine ⟨?_, fun h => ?_, fun pk => ?_, ?_⟩
  · obtain ⟨n, hn⟩ := Option.isSome_iff_exists.1 hshare
    refine ⟨n, ?_⟩
    rw [allocatedPayouts_contest hkind hne]
    exact mem_shares.2 ⟨a, hmem, hkey, hn⟩
  · obtain ⟨b, hb, hbkey, hbpaid⟩ := (isRecipientPaid_contest hkind hne).1 h
    obtain rfl := List.inj_on_of_nodup_map hdistinct hb hmem (hbkey.trans hkey.symm)
    rw [hpaid] at hbpaid
    cases hbpaid
  · rw [isRecipientPaid_contest hkind' hne', isRecipientPaid_contest hkind hne, hmap]
    constructor
    · rintro ⟨b', hb', hkey', hpaid'⟩
      obtain ⟨b, hb, rfl⟩ := List.mem_map.1 hb'
      split_ifs at hkey' hpaid' with hb''
      · exact .inl (hkey'.symm.trans hb'')
      · exact .inr ⟨b, hb, hkey', hpaid'⟩
    · rintro (rfl | ⟨b, hb, hbkey, hbpaid⟩)
      · exact ⟨_, List.mem_map.2 ⟨a, hmem, if_pos hkey⟩, hkey, rfl⟩
      · refine ⟨_, List.mem_map.2 ⟨b, hb, rfl⟩, ?_, ?_⟩
        · split_ifs <;> exact hbkey
        · split_ifs
          · rfl
          · exact hbpaid
  -- Those with a share are those the task pays.
  · rw [← hallocated, allocatedPayouts_contest hkind' hne', List.all_eq_true]
    constructor
    · rintro hall ⟨pk, n⟩ hp
      obtain ⟨b, hb, rfl, hn⟩ := mem_shares.1 hp
      have := hall b hb
      rw [hn] at this
      exact (isRecipientPaid_contest hkind' hne').2 ⟨b, hb, rfl, this⟩
    · intro hall b hb
      cases hn : b.share with
      | none => rfl
      | some n =>
        obtain ⟨c, hc, hckey, hcpaid⟩ := (isRecipientPaid_contest hkind' hne').1
          (hall _ (mem_shares.2 ⟨b, hb, rfl, hn⟩))
        obtain rfl := List.inj_on_of_nodup_map hdistinct' hc hb hckey
        rw [hcpaid]
        rfl

/-- Recording a payout, in whichever way the kind of the task records it. -/
theorem Pays.paysOne (h : t.Pays recipient kind nowFullyPaid credited) (hstatus : t.status ≠ .paid)
    (hdistinct : t.Distinct) (hruled : t.Ruled) (now : DateTime) :
    t.PaysOne (TaskBoard.paidTask t now kind nowFullyPaid) recipient nowFullyPaid := by
  have hallocated := h.allocatedPayouts_eq now
  cases h with
  | hashMatch hkind hclaimant =>
    refine paysOne_single hclaimant (allocatedPayouts_hashMatch hkind) (fun pk hpk => ?_) fun pk => ?_
    · exact hstatus ((isRecipientPaid_hashMatch hkind).1 hpk).1
    · rw [isRecipientPaid_hashMatch (paidTask_kind ..), paidTask_claimant, paidTask_status]
      exact and_iff_right rfl
  | consensus hkind ha hshare hpaid =>
    exact paysOne_consensus hkind ha hshare hpaid (paidTask_kind ..) hallocated
  | contest hkind hne ha hshare hpaid =>
    exact paysOne_contest hkind hne (hdistinct _ hkind) ha hshare hpaid (paidTask_kind ..) rfl
      hallocated
  | single hkind hnil hhint =>
    refine paysOne_single (hruled.hint_eq hkind hnil ▸ hhint) (allocatedPayouts_single hkind hnil)
      (fun pk hpk => ?_) fun pk => ?_
    · exact hstatus ((isRecipientPaid_single hkind hnil).1 hpk).1
    · rw [isRecipientPaid_single (paidTask_kind ..) hnil, paidTask_status,
        pendingPayoutsRecipientHint, paidTask_kind, ← hruled.hint_eq hkind hnil,
        pendingPayoutsRecipientHint, hkind, paidTask_claimant]
      exact and_iff_right rfl

end

/-! ## Paid, and all paid -/

/-- A task is paid when everyone it pays was. -/
structure PaidUp (task : Task) : Prop where
  paid_iff : task.status = .paid ↔
    task.allocatedPayouts ≠ [] ∧ ∀ p ∈ task.allocatedPayouts, task.isRecipientPaid p.1
  ruled : task.Settled → task.Ruled
  contested : task.status = .awaitingPick → ∀ kind, task.kind = .disputable kind → kind.answers ≠ []

/-- Nobody was recorded as paid. -/
structure Unpaid (task : Task) : Prop where
  consensus : ∀ kind, task.kind = .consensus kind → ∀ pk a, kind.assignees.lookup pk = some a →
    a.paid = false
  contest : ∀ kind, task.kind = .disputable kind → ∀ a ∈ kind.answers, a.paid = false

theorem Blank.unpaid (h : t.Blank) : t.Unpaid where
  consensus kind hkind pk a ha := (h.consensus kind hkind pk a ha).2
  contest kind hkind a ha := (h.contest kind hkind a ha).2

theorem Unpaid.not_isRecipientPaid (h : t.Unpaid) (hstatus : t.status ≠ .paid) (pk : PublicKey) :
    ¬ t.isRecipientPaid pk := by
  intro hpk
  cases hkind : t.kind with
  | hashMatch hash => exact hstatus ((isRecipientPaid_hashMatch hkind).1 hpk).1
  | consensus kind =>
    obtain ⟨a, ha, hpaid⟩ := (isRecipientPaid_consensus hkind).1 hpk
    rw [h.consensus kind hkind pk a ha] at hpaid
    cases hpaid
  | disputable kind =>
    by_cases hnil : kind.answers = []
    · exact hstatus ((isRecipientPaid_single hkind hnil).1 hpk).1
    · obtain ⟨a, ha, -, hpaid⟩ := (isRecipientPaid_contest hkind hnil).1 hpk
      rw [h.contest kind hkind a ha] at hpaid
      cases hpaid

theorem Unpaid.paidUp (h : t.Unpaid) (hstatus : t.status ≠ .paid) (hruled : t.Settled → t.Ruled)
    (hcontested : t.status = .awaitingPick → ∀ kind, t.kind = .disputable kind →
      kind.answers ≠ []) : t.PaidUp where
  paid_iff := by
    refine ⟨fun hpaid => absurd hpaid hstatus, fun ⟨hne, hall⟩ => ?_⟩
    obtain ⟨p, hp⟩ := List.exists_mem_of_ne_nil _ hne
    exact absurd (hall p hp) (h.not_isRecipientPaid hstatus p.1)
  ruled := hruled
  contested := hcontested

theorem Fresh.paidUp (h : t.Fresh) : t.PaidUp := by
  refine h.blank.unpaid.paidUp ?_ (fun hsettled => ?_) fun hstatus => ?_
  · rw [h.status]
    decide
  · exact absurd hsettled (not_settled_of h.status (by decide))
  · rw [h.status] at hstatus
    cases hstatus

/-- Settling a task pays nobody. -/
theorem Moves.unpaid (h : t.Moves t') (ht : t.Allotted) (hsettled : ¬ t.Settled) : t'.Unpaid := by
  have hblank := ht.blank hsettled
  by_cases hsettled' : t'.Settled
  · rcases h.settles_cases hsettled hsettled' with ⟨-, rfl⟩ | ⟨_, -, -, -, rfl⟩ |
      ⟨kind, answers, picked, hkind, -, hanswers, -, rfl⟩ | ⟨kind, winningAnswer, hkind, -, rfl⟩
    · exact ⟨hblank.unpaid.consensus, hblank.unpaid.contest⟩
    · exact ⟨hblank.unpaid.consensus, hblank.unpaid.contest⟩
    · refine ⟨fun _ hk => (by cases hk), fun _ hk a ha => ?_⟩
      obtain rfl := TaskKind.disputable.inj hk
      obtain ⟨b, hb, hpaid⟩ := hanswers a ha
      exact hpaid.trans (hblank.contest kind hkind b hb).2
    · refine ⟨fun _ hk pk a ha => ?_, fun _ hk => (by cases hk)⟩
      obtain rfl := TaskKind.consensus.inj hk
      rw [Finmap.lookup_filterMap] at ha
      obtain ⟨b, hb, ha⟩ := Option.bind_eq_some_iff.1 ha
      obtain rfl := Option.some.inj ha
      split_ifs <;> exact (hblank.consensus kind hkind pk b hb).2
  · exact ((h.allotted ht).blank hsettled').unpaid

/-- A contest that awaits a pick has answers to pick from. -/
theorem Moves.contested (h : t.Moves t') (ht : t.PaidUp) (hstatus : t'.status = .awaitingPick) :
    ∀ kind, t'.kind = .disputable kind → kind.answers ≠ [] := by
  -- It was closed just now, or awaits it already.
  have hfrom : t.status = .open ∨ t.status = .awaitingPick := by
    have hmem := hstatus ▸ h.status_mem
    cases hs : t.status <;> simp_all [TaskStatus.next]
  have hkeep : t.status = .awaitingPick → t'.kind = t.kind →
      ∀ kind, t'.kind = .disputable kind → kind.answers ≠ [] :=
    fun hs hkind => hkind ▸ ht.contested hs
  cases h with
  | work h =>
    cases h with
    | close _ _ _ hne =>
      rintro _ ⟨⟩
      exact hne
    | annotate => exact hkeep hstatus rfl
    | join _ h => cases h.symm.trans hstatus
    | enter _ _ h => cases h.symm.trans hstatus
    | rule _ _ h => cases h.symm.trans hstatus
    | answer _ _ h => cases h.symm.trans hstatus
    | vote _ h => rcases hfrom with hs | hs <;> cases h.symm.trans hs
    | _ => cases hstatus
  | pay _ h => rcases h with h | h <;> rcases hfrom with hs | hs <;> cases h.symm.trans hs
  | _ => cases hstatus

/-- Recording a payout keeps what is known of a dispute. -/
theorem Pays.ruled {recipient : PublicKey} {kind : TaskKind} {nowFullyPaid credited : Bool}
    (h : t.Pays recipient kind nowFullyPaid credited) (ht : t.Ruled) (now : DateTime) :
    (TaskBoard.paidTask t now kind nowFullyPaid).Ruled := by
  intro k hk hnil
  rw [paidTask_kind] at hk
  subst hk
  cases h with
  | contest hkind hne => exact absurd hnil (updateFirst_ne_nil.2 hne)
  | single hkind => exact ht k hkind hnil

/-- Who was paid does not depend on the status, short of the task being paid. -/
theorem isRecipientPaid_status (hne : t.status ≠ .paid) {status : TaskStatus} (hne' : status ≠ .paid)
    (pk : PublicKey) : ({ t with status } : Task).isRecipientPaid pk = t.isRecipientPaid pk := by
  rw [isRecipientPaid, isRecipientPaid]
  cases t.kind with
  | hashMatch hash => simp [hne, hne']
  | consensus kind => rfl
  | disputable kind => simp [hne, hne']

/-- Only the status of a settled task changes, and not to paid. -/
theorem PaidUp.of_status (hp : t.PaidUp) (hsettled : t.Settled) (hne : t.status ≠ .paid)
    {status : TaskStatus} (hne' : status ≠ .paid) (hpick : status ≠ .awaitingPick) :
    PaidUp { t with status } := by
  refine ⟨⟨fun hs => absurd hs hne', fun ⟨hnil, hall⟩ => absurd (hp.paid_iff.2 ?_) hne⟩,
    fun _ => hp.ruled hsettled, fun hs => absurd hs hpick⟩
  refine ⟨hnil, fun p hmem => ?_⟩
  rw [← isRecipientPaid_status hne hne']
  exact hall p hmem

/-- Recording a payout, of a task whose shares are fixed. -/
theorem PaidUp.of_settled (hp : t.PaidUp) (ht : t.Allotted) (h : t.Moves t') (hsettled : t.Settled) :
    t'.PaidUp := by
  rcases h.settled_cases hsettled with
    ⟨_, _, _, rfl⟩ | ⟨hs, rfl⟩ | ⟨_, _, nowFullyPaid, _, now, hs, hpay, rfl⟩ | ⟨hs, rfl⟩
  · exact ⟨hp.paid_iff, hp.ruled, hp.contested⟩
  · exact hp.of_status hsettled (by rw [hs]; decide) (by decide) (by decide)
  · have hne : t.status ≠ .paid := by rcases hs with hs | hs <;> rw [hs] <;> decide
    have hpays := pays_of_payRecipient hpay
    have hone := hpays.paysOne hne ht.distinct (hp.ruled hsettled) now
    obtain ⟨amount, hamount⟩ := hone.allocated
    refine ⟨?_, fun _ => hpays.ruled (hp.ruled hsettled) now, fun hawaiting => ?_⟩
    · rw [paidTask_status, h.allocatedPayouts_eq hsettled, ← hone.full_iff]
      split_ifs with hfull
      · exact ⟨fun _ => ⟨List.ne_nil_of_mem hamount, hfull⟩, fun _ => rfl⟩
      · exact ⟨fun hs => absurd hs hne, fun h => absurd h.2 hfull⟩
    · -- A settled task awaits nothing.
      rw [paidTask_status] at hawaiting
      rcases hs with hs | hs <;> split_ifs at hawaiting <;> simp [hs] at hawaiting
  · refine hp.of_status hsettled ?_ (by decide) (by decide)
    rcases hs with hs | hs <;> rw [hs] <;> decide

theorem Moves.paidUp (h : t.Moves t') (ht : t.Allotted) (hp : t.PaidUp) : t'.PaidUp := by
  by_cases hsettled : t.Settled
  · exact hp.of_settled ht h hsettled
  · have hstatus : t'.status ≠ .paid := by
      intro hpaid
      refine TaskStatus.not_mem_next hsettled h.status_mem ?_
      rw [hpaid]
      decide
    refine (h.unpaid ht hsettled).paidUp hstatus (fun hsettled' => ?_) (h.contested hp)
    rcases h.settles_cases hsettled hsettled' with ⟨⟨hash, hkind⟩, rfl⟩ |
      ⟨kind, hkind, -, hruled, rfl⟩ | ⟨kind, answers, picked, hkind, hawaiting, -, hne, rfl⟩ |
      ⟨kind, winningAnswer, hkind, -, rfl⟩
    · intro k hk
      rw [hkind] at hk
      cases hk
    · intro k hk _
      obtain rfl := TaskKind.disputable.inj (hkind.symm.trans hk)
      exact hruled
    · intro k hk hnil
      obtain rfl := TaskKind.disputable.inj hk
      exact absurd hnil (hne (hp.contested hawaiting kind hkind))
    · intro k hk
      cases hk

/-! ## What a task owes -/

theorem mem_owedPayouts {p : PublicKey × ℕ} :
    p ∈ t.owedPayouts ↔ p ∈ t.allocatedPayouts ∧ ¬ t.isRecipientPaid p.1 := by
  rw [owedPayouts, List.mem_filter, Bool.not_eq_true, Bool.not_eq_eq_eq_not, Bool.not_true]

theorem owedPayouts_status (hne : t.status ≠ .paid) {status : TaskStatus} (hne' : status ≠ .paid) :
    ({ t with status } : Task).owedPayouts = t.owedPayouts := by
  refine List.filter_congr fun p _ => ?_
  rw [isRecipientPaid_status hne hne']

theorem pendingPayouts_eq (h : t.status = .verified ∨ t.status = .submitted) :
    t.pendingPayouts = t.owedPayouts := if_pos h

/-- A task that pays someone owes something until it is paid. -/
theorem PaidUp.owedPayouts_ne_nil (h : t.PaidUp) (hstatus : t.status ≠ .paid)
    (hne : t.allocatedPayouts ≠ []) : t.owedPayouts ≠ [] := by
  intro hnil
  refine hstatus (h.paid_iff.2 ⟨hne, fun p hp => ?_⟩)
  by_contra hpaid
  have hmem := mem_owedPayouts.2 ⟨hp, hpaid⟩
  rw [hnil] at hmem
  cases hmem

/-- A payout recorded again changes nothing. -/
theorem isRecipientPaid_of_again {recipient : PublicKey} (h : t.payRecipient recipient = .ok none) :
    t.isRecipientPaid recipient := by
  rw [payRecipient] at h
  split at h
  · simp [Outcome.bind_eq_ok] at h
  · next kind hkind =>
    simp only [Outcome.bind_eq_ok, Outcome.okOr_eq_ok] at h
    obtain ⟨a, ha, _, -, h⟩ := h
    split_ifs at h with hpaid
    · exact (isRecipientPaid_consensus hkind).2 ⟨a, ha, hpaid⟩
    · cases Outcome.ok.inj h
  · next kind hkind =>
    split_ifs at h with hne
    · simp only [Outcome.bind_eq_ok, Outcome.okOr_eq_ok] at h
      obtain ⟨a, ha, _, -, h⟩ := h
      split_ifs at h with hpaid
      · refine (isRecipientPaid_contest hkind hne).2 ⟨a, List.mem_of_find?_eq_some ha, ?_, hpaid⟩
        simpa using List.find?_some ha
      · cases Outcome.ok.inj h
    · simp [Outcome.bind_eq_ok] at h

/-! ## What holds of every task -/

/-- What holds of a task, whatever was done to it. -/
structure Sound (task : Task) : Prop where
  life : task.Life
  allotted : task.Allotted
  paidUp : task.PaidUp

theorem Fresh.sound (h : t.Fresh) : t.Sound := ⟨h.life, h.allotted, h.paidUp⟩

theorem MovesTo.sound (h : t.MovesTo t') (ht : t.Sound) : t'.Sound :=
  h.preserves (fun _ _ ht hmove => ⟨hmove.life ht.life, hmove.allotted ht.allotted,
    hmove.paidUp ht.allotted ht.paidUp⟩) ht

/-- What a settled task pays, and to whom, stays as it is while it is worked on. -/
theorem WorksTo.of_settled (h : t.WorksTo t') (ht : t.Settled) :
    ∃ minReputation failedAttempts capabilities,
      t' = { t with minReputation, failedAttempts, capabilities } := by
  induction h with
  | refl => exact ⟨t.minReputation, t.failedAttempts, t.capabilities, rfl⟩
  | tail _ hwork ih =>
    obtain ⟨_, _, _, rfl⟩ := ih
    obtain ⟨_, _, _, rfl⟩ := hwork.of_settled ht
    exact ⟨_, _, _, rfl⟩

/-- Nothing is submitted, paid or given up by working on it. -/
theorem WorksTo.status_eq (h : t.WorksTo t')
    (ht' : t'.status ∈ [TaskStatus.submitted, .payoutFailed, .paid]) :
    t.status = t'.status := by
  induction h with
  | refl => rfl
  | @tail u u' hworks hwork ih =>
    have hu : u.status = u'.status := by
      by_cases hsettled : u.Settled
      · obtain ⟨_, _, _, rfl⟩ := hwork.of_settled hsettled
        rfl
      · exact absurd ht' (TaskStatus.not_mem_next hsettled (Moves.work hwork).status_mem)
    rw [← hu] at ht' ⊢
    exact ih ht'

end Task

end Itx
