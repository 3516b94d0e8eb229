import Itx.Hub.TaskRuns

/-!
# The vote on a consensus task

A consensus task is decided by its assignees: an answer wins when more than half of all of
them gave it, those who gave none counting against it (`majorityAnswer_eq_some`). Those who
gave it share the bounty, and each of the others is charged a failure; without such an answer
the task is closed, and nobody is paid or charged (`VoteCounted`).

The vote is counted when the last assignee answers, or by the sweep once the deadline has
passed. Both count the same answers in the same way, and answers of different assignees may
come in any order (`submitAll_perm`), since an answer is only recorded until the last one is.
-/

namespace Itx

open Call

variable {kind : ConsensusKind} {answer : String}

/-! ## Majorities -/

namespace ConsensusKind

/-- Those who gave an answer. -/
def voters (kind : ConsensusKind) (answer : String) : Finset PublicKey :=
  kind.assignees.keys.filter fun pk => ∃ a ∈ kind.assignees.lookup pk, a.answer = some answer

/-- An answer is given by more than half of all assignees. -/
def Majority (kind : ConsensusKind) (answer : String) : Prop :=
  kind.assignees.keys.card < 2 * (kind.voters answer).card

instance (kind : ConsensusKind) (answer : String) : Decidable (kind.Majority answer) :=
  inferInstanceAs (Decidable (_ < _))

/-- The answer of an assignee is recorded. -/
def answered (kind : ConsensusKind) (agent : PublicKey) (answer : String) : ConsensusKind :=
  { kind with assignees := kind.assignees.modify agent fun a => { a with answer := some answer } }

/-- Every assignee has answered. -/
def complete (kind : ConsensusKind) : Bool := kind.assignees.values.all fun a => a.answer.isSome

/-- The voters of an answer are the assignees who gave it. -/
theorem mem_voters {pk : PublicKey} : pk ∈ kind.voters answer ↔
    ∃ a, kind.assignees.lookup pk = some a ∧ a.answer = some answer := by
  simp only [voters, Finset.mem_filter, Finmap.mem_keys, Option.mem_def, and_iff_right_iff_imp]
  rintro ⟨a, ha, -⟩
  exact Finmap.mem_iff.2 ⟨a, ha⟩

end ConsensusKind

open ConsensusKind

/-- Counting the values of a map is counting its keys. -/
theorem countP_values {β : Type*} (m : Finmap fun _ : PublicKey => β) (p : β → Bool) :
    m.values.countP p = (m.keys.filter fun pk => (m.lookup pk).any p).card := by
  rw [Finmap.values, List.countP_filterMap]
  have hnodup := (Finset.nodup_ascending m.keys).filter fun pk => (m.lookup pk).any p
  have hset : (m.keys.ascending.filter fun pk => (m.lookup pk).any p).toFinset =
      m.keys.filter fun pk => (m.lookup pk).any p := by
    ext pk
    simp [Finset.mem_ascending]
  rw [← hset, List.toFinset_card_of_nodup hnodup, ← List.countP_eq_length_filter]
  refine List.countP_congr fun pk _ => ?_
  cases m.lookup pk <;> simp

/-- An answer has as many votes as voters. -/
theorem countP_answer (kind : ConsensusKind) (answer : String) :
    (kind.assignees.values.countP fun a => a.answer = some answer) = (kind.voters answer).card := by
  rw [countP_values, voters]
  congr 1
  refine Finset.filter_congr fun pk _ => ?_
  cases kind.assignees.lookup pk <;> simp

/-- Among the answers given, one occurs as often as it has voters. -/
theorem count_given (kind : ConsensusKind) (answer : String) :
    (kind.assignees.values.filterMap ConsensusAssignment.answer).count answer = (kind.voters answer).card := by
  rw [← countP_answer, List.count, List.countP_filterMap]
  refine List.countP_congr fun a _ => ?_
  cases a.answer <;> simp

/-- Two answers are not given by more voters than there are. -/
theorem card_voters_add_le {other : String} (h : other ≠ answer) :
    (kind.voters answer).card + (kind.voters other).card ≤ kind.assignees.keys.card := by
  have hdisjoint : Disjoint (kind.voters answer) (kind.voters other) := by
    refine Finset.disjoint_left.2 fun pk hpk hpk' => h ?_
    obtain ⟨a, ha, hanswer⟩ := mem_voters.1 hpk
    obtain ⟨b, hb, hother⟩ := mem_voters.1 hpk'
    obtain rfl := Option.some.inj (ha.symm.trans hb)
    exact Option.some.inj (hother.symm.trans hanswer)
  rw [← Finset.card_union_of_disjoint hdisjoint]
  exact Finset.card_le_card (Finset.union_subset (Finset.filter_subset _ _) (Finset.filter_subset _ _))

/-- Of a list without repetitions, a test that one member passes keeps that member. -/
theorem length_filter_eq_one {α : Type*} [DecidableEq α] {l : List α} {a : α} {p : α → Bool} (hl : l.Nodup)
    (ha : a ∈ l) (hp : ∀ b ∈ l, p b ↔ b = a) : l.filter p = [a] := by
  have hfilter : l.filter p = l.filter (· == a) := List.filter_congr fun b hb => by
    rw [Bool.eq_iff_iff, hp b hb, beq_iff_eq]
  rw [hfilter, List.filter_beq, List.count_eq_one_of_mem hl ha, List.replicate_one]

/-- An answer that more than half of the assignees gave is the one they gave most, alone. -/
theorem majorityAnswer_of_majority (h : kind.Majority answer) :
    majorityAnswer kind.assignees = some answer := by
  set given := kind.assignees.values.filterMap ConsensusAssignment.answer with hgiven
  have hcount : ∀ other, given.count other = (kind.voters other).card := count_given kind
  have hmem : answer ∈ given.toFinset.ascending := by
    rw [Finset.mem_ascending, List.mem_toFinset, ← List.count_pos_iff, hcount]
    rw [Majority] at h
    omega
  have hless : ∀ other, other ≠ answer → (kind.voters other).card < (kind.voters answer).card := by
    intro other hne
    have hcard : (kind.voters answer).card + (kind.voters other).card ≤ kind.assignees.keys.card :=
      card_voters_add_le hne
    rw [Majority] at h
    omega
  have hle : ∀ other, (kind.voters other).card ≤ (kind.voters answer).card := by
    intro other
    by_cases hne : other = answer
    · rw [hne]
    · exact (hless other hne).le
  have hmax : ((given.toFinset.ascending.map fun a => (a, given.count a)).map Prod.snd).max? =
      some (kind.voters answer).card := by
    rw [List.map_map, List.max?_eq_some_iff]
    refine ⟨List.mem_map.2 ⟨answer, hmem, hcount answer⟩, fun n hn => ?_⟩
    obtain ⟨other, -, rfl⟩ := List.mem_map.1 hn
    exact (hcount other).trans_le (hle other)
  have htop : ((given.toFinset.ascending.map fun a => (a, given.count a)).filter fun p =>
      p.2 = (kind.voters answer).card) = [(answer, given.count answer)] := by
    rw [List.filter_map]
    have hfilter : given.toFinset.ascending.filter ((fun p => decide (p.2 = (kind.voters answer).card)) ∘
        fun a => (a, given.count a)) = [answer] := by
      refine length_filter_eq_one (Finset.nodup_ascending _) hmem fun other _ => ?_
      rw [Function.comp_apply, decide_eq_true_eq, hcount]
      exact ⟨fun he => by_contra fun hne => (hless other hne).ne he, fun he => by rw [he]⟩
    rw [hfilter]
    rfl
  rw [majorityAnswer, ← hgiven]
  simp only [hmax, htop]
  rw [if_pos]
  rw [Majority] at h
  omega

/-- `majority_answer` finds the answer that has a majority. -/
theorem majorityAnswer_eq_some : majorityAnswer kind.assignees = some answer ↔ kind.Majority answer := by
  refine ⟨fun h => ?_, majorityAnswer_of_majority⟩
  rw [majorityAnswer] at h
  split at h
  · cases h
  · next maxCount _ =>
    split at h
    · next winner count htop =>
      split_ifs at h with hmost
      obtain rfl := Option.some.inj h
      have hmem := List.mem_filter.1 (htop ▸ List.mem_singleton_self (winner, count))
      obtain ⟨other, -, hother⟩ := List.mem_map.1 hmem.1
      obtain ⟨rfl, hcount⟩ := Prod.mk.inj hother
      rw [count_given] at hcount
      have hmax : count = maxCount := of_decide_eq_true hmem.2
      rw [Majority]
      omega
    · cases h

/-- `majority_answer` finds nothing when no answer has a majority. -/
theorem majorityAnswer_eq_none : majorityAnswer kind.assignees = none ↔ ∀ answer, ¬ kind.Majority answer := by
  rw [Option.eq_none_iff_forall_ne_some]
  exact forall_congr' fun answer => not_congr majorityAnswer_eq_some

/-! ## Charging the losers -/

namespace TaskBoard

variable {s s' : TaskBoard} {id : Uuid} {task : Task} {pk : PublicKey} {pks : List PublicKey}

/-- A call goes on with the result of its first part. -/
theorem bind_of_ok {α β : Type} {x : BoardCall α} {f : α → BoardCall β} {a : α} (h : x s = (s', .ok a)) :
    (x >>= f) s = f a s' := by
  change Call.bind x f s = _
  rw [Call.bind, h]

/-- A failure more. -/
def charge (s : TaskBoard) (pk : PublicKey) : TaskBoard :=
  s.restoreReputation pk { s.reputationOf pk with failed := (s.reputationOf pk).failed + 1 }

/-- The failures of a key can be counted once more. -/
def HasRoom (s : TaskBoard) (pk : PublicKey) : Prop := (s.reputationOf pk).failed + 1 < u64Bound

instance (s : TaskBoard) (pk : PublicKey) : Decidable (s.HasRoom pk) := inferInstanceAs (Decidable (_ < _))

/-- A failure is counted when there is room for it, and else the addition panics. -/
theorem addFailed_eq (s : TaskBoard) (pk : PublicKey) :
    addFailed pk s = if s.HasRoom pk then (s.charge pk, .ok ()) else (s, .panic) := by
  rw [addFailed, bind_of_ok (x := Call.get) (a := s) rfl]
  split_ifs with hroom
  · rw [checkedAdd_eq_some.2 ⟨rfl, hroom⟩]
    rfl
  · have hnone : checkedAdd (s.reputationOf pk).failed 1 = none := by
      rw [Option.eq_none_iff_forall_ne_some]
      intro n hn
      obtain ⟨rfl, hlt⟩ := checkedAdd_eq_some.1 hn
      exact hroom hlt
    rw [hnone]
    rfl

/-- A failure touches no other key. -/
theorem reputationOf_charge_of_ne {x : PublicKey} (h : x ≠ pk) :
    (s.charge pk).reputationOf x = s.reputationOf x := by
  rw [charge, reputationOf_restoreReputation, if_neg h]

/-- Charging different keys one after the other returns when each has room, and panics
    otherwise. -/
theorem forEach_addFailed (h : pks.Nodup) :
    (∀ pk ∈ pks, s.HasRoom pk) ∧ forEach pks addFailed s = (pks.foldl charge s, .ok ()) ∨
      (¬ ∀ pk ∈ pks, s.HasRoom pk) ∧ (forEach pks addFailed s).2 = .panic := by
  induction pks generalizing s with
  | nil => exact .inl ⟨by simp, rfl⟩
  | cons pk pks ih =>
    obtain ⟨hpk, hpks⟩ := List.nodup_cons.1 h
    rw [List.forall_mem_cons, List.foldl_cons]
    by_cases hroom : s.HasRoom pk
    · have hstep : forEach (pk :: pks) addFailed s = forEach pks addFailed (s.charge pk) := by
        rw [forEach, bind_of_ok (addFailed_eq s pk ▸ if_pos hroom)]
      have hsame : (∀ x ∈ pks, (s.charge pk).HasRoom x) ↔ ∀ x ∈ pks, s.HasRoom x := by
        refine forall₂_congr fun x hx => ?_
        rw [HasRoom, HasRoom, reputationOf_charge_of_ne]
        exact fun he => hpk (he ▸ hx)
      rw [hstep, and_iff_right hroom, ← hsame]
      exact ih hpks
    · right
      refine ⟨fun hall => hroom hall.1, ?_⟩
      rw [forEach]
      change (Call.bind (addFailed pk) _ s).2 = _
      rw [Call.bind, addFailed_eq, if_neg hroom]

/-- Failures touch the reputations alone. -/
theorem foldl_charge_tasks (pks : List PublicKey) (s : TaskBoard) :
    pks.foldl charge s = { s with reputation := (pks.foldl charge s).reputation } := by
  induction pks generalizing s with
  | nil => rfl
  | cons pk pks ih =>
    rw [List.foldl_cons, ih (s.charge pk)]
    rfl

/-- Each key of a list without repetitions has one failure more. -/
theorem lookup_foldl_charge (h : pks.Nodup) (s : TaskBoard) (x : PublicKey) :
    (pks.foldl charge s).reputation.lookup x =
      if x ∈ pks then some { s.reputationOf x with failed := (s.reputationOf x).failed + 1 }
      else s.reputation.lookup x := by
  induction pks generalizing s with
  | nil => rfl
  | cons pk pks ih =>
    obtain ⟨hpk, hpks⟩ := List.nodup_cons.1 h
    have hcharge : (s.charge pk).reputation.lookup x =
        if x = pk then some { s.reputationOf pk with failed := (s.reputationOf pk).failed + 1 }
        else s.reputation.lookup x := Finmap.lookup_insert_eq _ _ _ _
    rw [List.foldl_cons, ih hpks, hcharge]
    by_cases hx : x = pk
    · subst hx
      simp [hpk]
    · rw [reputationOf_charge_of_ne hx]
      simp [hx]

/-! ## Counting the vote -/

/-- The keys come in order. -/
theorem pairwise_ascending (t : Finset PublicKey) : t.ascending.Pairwise (· ≤ ·) := by
  obtain ⟨m, hm⟩ := t
  induction m using Quot.inductionOn with
  | _ l => exact List.pairwise_insertionSort _ l

/-- A selection of ordered keys is ordered. -/
theorem ascending_filter (t : Finset PublicKey) (p : PublicKey → Prop) [DecidablePred p] :
    t.ascending.filter p = (t.filter p).ascending := by
  refine List.Perm.eq_of_pairwise' ((pairwise_ascending t).filter _) (pairwise_ascending _) ?_
  refine (List.perm_ext_iff_of_nodup ((Finset.nodup_ascending t).filter _) (Finset.nodup_ascending _)).2
    fun x => ?_
  simp [Finset.mem_ascending]

/-- The losers are the assignees that did not give the winning answer, in order. -/
theorem losers_eq (kind : ConsensusKind) (answer : String) :
    losers kind (some answer) = (kind.assignees.keys \ kind.voters answer).ascending := by
  rw [losers, ascending_filter]
  congr 1
  ext pk
  rw [Finset.mem_filter, Finset.mem_sdiff, mem_voters, Finmap.mem_keys]
  refine and_congr_right fun _ => not_congr ?_
  rw [Option.bind_eq_some_iff]

/-- The assignees once the vote is counted: those who gave the answer have a share. -/
theorem lookup_shared (kind : ConsensusKind) (answer : String) (share : ℕ) (pk : PublicKey) :
    (kind.assignees.filterMap fun _ a =>
      some (if a.answer = some answer then { a with share := some share } else a)).lookup pk =
    (kind.assignees.lookup pk).map fun a =>
      if pk ∈ kind.voters answer then { a with share := some share } else a := by
  rw [Finmap.lookup_filterMap]
  cases ha : kind.assignees.lookup pk with
  | none => rfl
  | some a =>
    have hmem : pk ∈ kind.voters answer ↔ a.answer = some answer := by
      rw [mem_voters, ha]
      simp
    simp [hmem]

/-- Those who gave the answer of the majority have the bounty among them, and the others
    nothing. -/
theorem pendingPayouts_resolved (hkind : task.kind = .consensus kind) (hblank : task.Blank)
    (hmajority : kind.Majority answer) : (resolved task kind (some answer)).pendingPayouts =
      (kind.voters answer).ascending.map fun pk => (pk, task.bounty / (kind.voters answer).card) := by
  have hshare : shareOf task.bounty kind answer = task.bounty / (kind.voters answer).card := by
    rw [shareOf, countP_answer, max_eq_right]
    rw [Majority] at hmajority
    omega
  set shared := kind.assignees.filterMap fun _ a =>
    some (if a.answer = some answer then { a with share := some (shareOf task.bounty kind answer) } else a)
    with hshared
  have hlookup : ∀ pk, shared.lookup pk = (kind.assignees.lookup pk).map fun a =>
      if pk ∈ kind.voters answer then { a with share := some (shareOf task.bounty kind answer) } else a :=
    lookup_shared kind answer _
  have hkeys : shared.keys = kind.assignees.keys := by
    ext pk
    rw [Finmap.mem_keys, Finmap.mem_keys, ← Finmap.lookup_isSome, ← Finmap.lookup_isSome, hlookup,
      Option.isSome_map]
  -- Nobody was given a share before, and nobody is paid yet.
  have hentry : ∀ pk, ((shared.lookup pk).bind fun a => a.share.map fun share => (pk, share)) =
      if pk ∈ kind.voters answer then some (pk, shareOf task.bounty kind answer) else none := by
    intro pk
    rw [hlookup]
    cases ha : kind.assignees.lookup pk with
    | none =>
      have hno : pk ∉ kind.voters answer := fun hmem => by
        obtain ⟨a, ha', -⟩ := mem_voters.1 hmem
        rw [ha] at ha'
        cases ha'
      simp [hno]
    | some a =>
      by_cases hmem : pk ∈ kind.voters answer
      · simp [hmem]
      · simp [hmem, (hblank.consensus kind hkind pk a ha).1]
  have hunpaid : ∀ pk, (shared.lookup pk).any ConsensusAssignment.paid = false := by
    intro pk
    rw [hlookup]
    cases ha : kind.assignees.lookup pk with
    | none => rfl
    | some a =>
      have := (hblank.consensus kind hkind pk a ha).2
      by_cases hmem : pk ∈ kind.voters answer
      · simpa [hmem] using this
      · simpa [hmem] using this
  have hallocated : (resolved task kind (some answer)).allocatedPayouts =
      (kind.voters answer).ascending.map fun pk => (pk, task.bounty / (kind.voters answer).card) := by
    change shared.keys.ascending.filterMap (fun pk => (shared.lookup pk).bind fun a =>
      a.share.map fun share => (pk, share)) = _
    have hfilter : (kind.voters answer).ascending =
        kind.assignees.keys.ascending.filter fun pk => pk ∈ kind.voters answer := by
      rw [ascending_filter]
      congr 1
      rw [Finset.filter_mem_eq_inter]
      exact (Finset.inter_eq_right.2 (Finset.filter_subset _ _)).symm
    rw [hkeys, hfilter, ← hshare, ← List.filterMap_eq_map, List.filterMap_filter]
    refine List.filterMap_congr fun pk _ => ?_
    rw [hentry]
    simp
  rw [Task.pendingPayouts, if_pos (.inl rfl), Task.owedPayouts, hallocated]
  refine List.filter_eq_self.2 fun p _ => ?_
  rw [Bool.not_eq_true']
  exact hunpaid p.1

/-- What counting a vote does to a board. -/
structure VoteCounted (s : TaskBoard) (id : Uuid) (task : Task) (kind : ConsensusKind)
    (s' : TaskBoard) : Prop where
  /-- Those who gave the answer of the majority are owed equal shares of the bounty. -/
  paid : ∀ answer, kind.Majority answer → ∃ task', s'.tasks = s.tasks.insert id task' ∧
    task'.status = .verified ∧ task'.pendingPayouts =
      (kind.voters answer).ascending.map fun pk => (pk, task.bounty / (kind.voters answer).card)
  /-- Each of the other assignees has a failure more, and nothing else changes of any
      reputation. -/
  charged : ∀ answer, kind.Majority answer → ∀ pk, s'.reputation.lookup pk =
    if pk ∈ kind.assignees.keys \ kind.voters answer
      then some { s.reputationOf pk with failed := (s.reputationOf pk).failed + 1 }
      else s.reputation.lookup pk
  /-- Without a majority the task is closed, and nobody is owed or charged anything. -/
  closed : (∀ answer, ¬ kind.Majority answer) → s'.reputation = s.reputation ∧
    s'.tasks = s.tasks.insert id { task with status := .closed, closeReason := some .noMajority } ∧
    { task with status := .closed, closeReason := some .noMajority }.allocatedPayouts = []

/-- The losers of the vote can be charged. -/
def Chargeable (s : TaskBoard) (kind : ConsensusKind) : Prop :=
  ∀ answer, kind.Majority answer → ∀ pk ∈ kind.assignees.keys \ kind.voters answer, s.HasRoom pk

/-- The steps of a count. -/
def countVote (id : Uuid) (task : Task) (kind : ConsensusKind) (winningAnswer : Option String) :
    BoardCall Unit := do
  forEach (losers kind winningAnswer) addFailed
  Call.modify fun s => { s with tasks := s.tasks.insert id (resolved task kind winningAnswer) }

/-- On a consensus task a resolution is a count. -/
theorem resolveConsensus_eq (ht : s.tasks.lookup id = some task) (hkind : task.kind = .consensus kind) :
    resolveConsensus id s = countVote id task kind (majorityAnswer kind.assignees) s := by
  rw [resolveConsensus, bind_of_ok (x := Call.get) (a := s) rfl]
  simp only [ht, hkind]
  rfl

/-- The vote is counted, unless a failure of one of its losers cannot be. -/
theorem resolveConsensus_counted (ht : s.tasks.lookup id = some task) (hkind : task.kind = .consensus kind)
    (hblank : task.Blank) :
    (s.Chargeable kind ∧ (resolveConsensus id s).2 = .ok () ∧
      VoteCounted s id task kind (resolveConsensus id s).1) ∨
      ¬ s.Chargeable kind ∧ (resolveConsensus id s).2 = .panic := by
  rw [resolveConsensus_eq ht hkind, countVote]
  cases hwinning : majorityAnswer kind.assignees with
  | none =>
    -- Without a majority nobody is charged, and nothing is allocated.
    have hnone := majorityAnswer_eq_none.1 hwinning
    refine .inl ⟨fun answer hm => absurd hm (hnone answer), rfl, ?_, ?_, fun _ => ⟨rfl, rfl, ?_⟩⟩
    · exact fun answer hm => absurd hm (hnone answer)
    · exact fun answer hm => absurd hm (hnone answer)
    · rw [Task.allocatedPayouts]
      simp only [hkind]
      refine List.filterMap_eq_nil_iff.2 fun pk _ => ?_
      cases ha : kind.assignees.lookup pk with
      | none => rfl
      | some a => simp [(hblank.consensus kind hkind pk a ha).1]
  | some answer =>
    have hmajority := majorityAnswer_eq_some.1 hwinning
    -- There is no other majority, so the losers are those who have not given this answer.
    have hunique : ∀ other, kind.Majority other → other = answer := fun other hm =>
      Option.some.inj ((majorityAnswer_eq_some.2 hm).symm.trans hwinning)
    have hroom : s.Chargeable kind ↔ ∀ pk ∈ losers kind (some answer), s.HasRoom pk := by
      rw [losers_eq]
      simp only [Finset.mem_ascending]
      exact ⟨fun h => h answer hmajority, fun h other hm => by rw [hunique other hm]; exact h⟩
    have hnodup : (losers kind (some answer)).Nodup := by
      rw [losers_eq]
      exact Finset.nodup_ascending _
    rw [hroom]
    -- All losers can be charged, or the first who cannot makes it panic.
    rcases forEach_addFailed (s := s) hnodup with ⟨hall, hloop⟩ | ⟨hsome, hloop⟩
    · left
      rw [bind_of_ok hloop]
      refine ⟨hall, rfl, fun other hm => ?_, fun other hm pk => ?_, fun hnone =>
        absurd hmajority (hnone answer)⟩
      · obtain rfl := hunique other hm
        refine ⟨resolved task kind (some other), ?_, rfl, pendingPayouts_resolved hkind hblank hm⟩
        change Finmap.insert id _ ((losers kind (some other)).foldl charge s).tasks = _
        rw [foldl_charge_tasks]
      · obtain rfl := hunique other hm
        refine (lookup_foldl_charge hnodup s pk).trans ?_
        simp only [losers_eq, Finset.mem_ascending]
    · right
      refine ⟨hsome, ?_⟩
      change (Call.bind (forEach _ addFailed) _ s).2 = _
      rw [Call.bind]
      generalize forEach (losers kind (some answer)) addFailed s = r at hloop
      obtain ⟨s', o⟩ := r
      obtain rfl : o = .panic := hloop
      rfl

/-! ## Answers -/

/-- An answer, and when it is submitted. -/
structure Submission where
  agent : PublicKey
  answer : String
  now : DateTime

/-- A submission that is recorded. -/
structure Accepts (s : TaskBoard) (id : Uuid) (sub : Submission) (task : Task)
    (kind : ConsensusKind) : Prop where
  known : s.tasks.lookup id = some task
  consensus : task.kind = .consensus kind
  claimed : task.status = .claimed
  inTime : ∃ deadline, kind.submissionDeadline = some deadline ∧ sub.now ≤ deadline
  missing : ∃ a, kind.assignees.lookup sub.agent = some a ∧ a.answer = none

/-- The task with the answer of a submission. -/
def recorded (task : Task) (kind : ConsensusKind) (sub : Submission) : Task :=
  { task with kind := .consensus (kind.answered sub.agent sub.answer) }

/-- The board with the answer of a submission. -/
def record (s : TaskBoard) (id : Uuid) (task : Task) (kind : ConsensusKind) (sub : Submission) : TaskBoard :=
  { s with tasks := s.tasks.insert id (recorded task kind sub) }

/-- The checks of a submission, and the answer it records. -/
def checkAnswer (sub : Submission) (task : Task) : Outcome BoardError (ConsensusKind × Task) := do
  let kind ← consensusOf task
  Outcome.ensure (task.status = .claimed) .notClaimed
  let deadline ← Outcome.expect kind.submissionDeadline
  Outcome.ensure (sub.now ≤ deadline) .submissionWindowExpired
  let assignment ← Outcome.okOr .notClaimant (kind.assignees.lookup sub.agent)
  Outcome.ensure (assignment.answer = none) .alreadySubmitted
  let assignees := kind.assignees.insert sub.agent { assignment with answer := some sub.answer }
  let kind := { kind with assignees }
  pure (kind, { task with kind := .consensus kind })

/-- What follows once an answer is recorded. -/
def afterAnswer (id : Uuid) (kind : ConsensusKind) : BoardCall Bool := do
  Call.when kind.complete (resolveConsensus id)
  pure kind.complete

/-- A submission is its checks, and what follows once the answer is recorded. -/
theorem submitConsensusAnswer_eq (id : Uuid) (sub : Submission) :
    submitConsensusAnswer id sub.agent sub.answer sub.now =
      (onTask id fun _ => checkAnswer sub) >>= afterAnswer id := rfl

variable {sub x y : Submission}

/-- To change the assignment of an assignee is to insert the changed one. -/
theorem modify_of_lookup {a : ConsensusAssignment} {agent : PublicKey}
    (h : kind.assignees.lookup agent = some a) (f : ConsensusAssignment → ConsensusAssignment) :
    kind.assignees.modify agent f = kind.assignees.insert agent (f a) := by
  rw [Finmap.modify, h]

/-- A submission that meets the conditions passes the checks. -/
theorem checkAnswer_of_accepts (h : Accepts s id sub task kind) :
    checkAnswer sub task = .ok (kind.answered sub.agent sub.answer, recorded task kind sub) := by
  obtain ⟨deadline, hdeadline, htime⟩ := h.inTime
  obtain ⟨a, ha, hnone⟩ := h.missing
  have hkind : consensusOf task = .ok kind := by
    rw [consensusOf, h.consensus]
  rw [checkAnswer, hkind, Outcome.ok_bind, Outcome.ensure_of h.claimed, Outcome.ok_bind,
    Outcome.expect_eq_ok.2 hdeadline, Outcome.ok_bind, Outcome.ensure_of htime, Outcome.ok_bind,
    Outcome.okOr_eq_ok.2 ha, Outcome.ok_bind, Outcome.ensure_of hnone, Outcome.ok_bind, recorded, answered,
    modify_of_lookup ha]
  rfl

/-- A submission that passes the checks meets the conditions. -/
theorem accepts_of_checkAnswer {r : ConsensusKind × Task} (ht : s.tasks.lookup id = some task)
    (h : checkAnswer sub task = .ok r) : ∃ kind, Accepts s id sub task kind := by
  rw [checkAnswer] at h
  obtain ⟨kind, hkind, h⟩ := Outcome.bind_eq_ok.1 h
  obtain ⟨_, hclaimed, h⟩ := Outcome.bind_eq_ok.1 h
  obtain ⟨deadline, hdeadline, h⟩ := Outcome.bind_eq_ok.1 h
  obtain ⟨_, htime, h⟩ := Outcome.bind_eq_ok.1 h
  obtain ⟨a, ha, h⟩ := Outcome.bind_eq_ok.1 h
  obtain ⟨_, hnone, -⟩ := Outcome.bind_eq_ok.1 h
  refine ⟨kind, ht, ?_, Outcome.ensure_eq_ok.1 hclaimed,
    ⟨deadline, Outcome.expect_eq_ok.1 hdeadline, Outcome.ensure_eq_ok.1 htime⟩,
    ⟨a, Outcome.okOr_eq_ok.1 ha, Outcome.ensure_eq_ok.1 hnone⟩⟩
  rw [consensusOf] at hkind
  split at hkind
  · next k hk => rw [hk, Outcome.ok.inj hkind]
  · cases hkind

/-- A submission is recorded, and the vote counted if it is the last, or it changes nothing. -/
theorem submit_cases (s : TaskBoard) (id : Uuid) (sub : Submission) :
    (∃ task kind, Accepts s id sub task kind ∧ submitConsensusAnswer id sub.agent sub.answer sub.now s =
      afterAnswer id (kind.answered sub.agent sub.answer) (s.record id task kind sub)) ∨
    (¬ ∃ task kind, Accepts s id sub task kind) ∧
      (submitConsensusAnswer id sub.agent sub.answer sub.now s).1 = s ∧
      ∀ b, (submitConsensusAnswer id sub.agent sub.answer sub.now s).2 ≠ .ok b := by
  have hon := (triple_onTask : Triple (· = s) (onTask id fun _ => checkAnswer sub) _ _ _) s rfl
  rw [submitConsensusAnswer_eq]
  change _ ∨ _ ∧ (Call.bind _ _ s).1 = s ∧ ∀ b, (Call.bind _ _ s).2 ≠ .ok b
  by_cases hacc : ∃ task kind, Accepts s id sub task kind
  · left
    obtain ⟨task, kind, h⟩ := hacc
    refine ⟨task, kind, h, ?_⟩
    change Call.bind _ _ s = _
    rw [Call.bind]
    have hcheck := checkAnswer_of_accepts h
    generalize onTask id (fun _ => checkAnswer sub) s = r at hon
    obtain ⟨s', a | e | _⟩ := r
    · -- The check passes on the task of the board, and nothing comes before it.
      obtain ⟨t, t', ht, hf, rfl⟩ := hon
      obtain rfl := Option.some.inj (ht.symm.trans h.known)
      obtain ⟨rfl, rfl⟩ := Prod.mk.inj (Outcome.ok.inj (hf.symm.trans hcheck))
      rfl
    · rw [hon.2 task h.known] at hcheck
      cases hcheck
    · obtain ⟨-, t, ht, hf⟩ := hon
      obtain rfl := Option.some.inj (ht.symm.trans h.known)
      rw [hf] at hcheck
      cases hcheck
  · -- A check that fails leaves the board.
    right
    refine ⟨hacc, ?_⟩
    rw [Call.bind]
    generalize onTask id (fun _ => checkAnswer sub) s = r at hon
    obtain ⟨s', a | e | _⟩ := r
    · obtain ⟨t, t', ht, hf, -⟩ := hon
      exact absurd ⟨t, accepts_of_checkAnswer ht hf⟩ hacc
    · exact ⟨hon.1, by simp⟩
    · exact ⟨hon.1, by simp⟩

/-! ## The order of the answers -/

/-- The board after a submission, whether it is recorded or not. -/
def submitted (id : Uuid) (s : TaskBoard) (sub : Submission) : TaskBoard :=
  (submitConsensusAnswer id sub.agent sub.answer sub.now s).1

/-- A submission that is recorded leaves the board with its answer, and what follows. -/
theorem submitted_of_accepts (h : Accepts s id sub task kind) : submitted id s sub =
    (afterAnswer id (kind.answered sub.agent sub.answer) (s.record id task kind sub)).1 := by
  rcases submit_cases s id sub with ⟨t, k, h', he⟩ | ⟨hno, -⟩
  · obtain rfl := Option.some.inj (h'.known.symm.trans h.known)
    obtain rfl := TaskKind.consensus.inj (h'.consensus.symm.trans h.consensus)
    rw [submitted, he]
  · exact absurd ⟨task, kind, h⟩ hno

/-- A submission that is not recorded leaves the board as it is. -/
theorem submitted_of_refused (h : ¬ ∃ task kind, Accepts s id sub task kind) : submitted id s sub = s := by
  rcases submit_cases s id sub with ⟨t, k, h', -⟩ | ⟨-, he, -⟩
  · exact absurd ⟨t, k, h'⟩ h
  · exact he

/-- An answer touches the assignment of its agent alone. -/
theorem lookup_answered (kind : ConsensusKind) (agent pk : PublicKey) (answer : String) :
    (kind.answered agent answer).assignees.lookup pk =
      if pk = agent then (kind.assignees.lookup pk).map fun a => { a with answer := some answer }
      else kind.assignees.lookup pk := Finmap.lookup_modify _ _ _ _

/-- Two answers of different agents are recorded in either order. -/
theorem answered_comm {agent agent' : PublicKey} (h : agent ≠ agent') (answer answer' : String) :
    (kind.answered agent answer).answered agent' answer' =
      (kind.answered agent' answer').answered agent answer := by
  have hlookup : ((kind.answered agent answer).answered agent' answer').assignees =
      ((kind.answered agent' answer').answered agent answer).assignees := by
    refine Finmap.ext_lookup fun pk => ?_
    rw [lookup_answered, lookup_answered, lookup_answered, lookup_answered]
    by_cases hpk : pk = agent
    · have hne : pk ≠ agent' := hpk ▸ h
      rw [if_neg hne, if_pos hpk, if_pos hpk, if_neg hne]
    · rw [if_neg hpk, if_neg hpk]
  rw [answered, answered] at hlookup ⊢
  exact congrArg (fun assignees => { kind with assignees }) hlookup

/-- An assignee who has not answered keeps the vote open. -/
theorem not_complete {pk : PublicKey} {a : ConsensusAssignment} (ha : kind.assignees.lookup pk = some a)
    (hnone : a.answer = none) : kind.complete = false := by
  rw [complete, Bool.eq_false_iff]
  intro hall
  have := List.all_eq_true.1 hall a (Finmap.mem_values.2 ⟨pk, ha⟩)
  rw [hnone] at this
  cases this

/-- The answer of another is recorded as well. -/
theorem Accepts.record (hx : Accepts s id x task kind) (hy : Accepts s id y task kind)
    (hne : x.agent ≠ y.agent) :
    Accepts (s.record id task kind x) id y (recorded task kind x) (kind.answered x.agent x.answer) where
  known := Finmap.lookup_insert _
  consensus := rfl
  claimed := hx.claimed
  inTime := hy.inTime
  missing := by
    obtain ⟨a, ha, hnone⟩ := hy.missing
    refine ⟨a, ?_, hnone⟩
    rw [lookup_answered, if_neg hne.symm, ha]

/-- The task of a vote that is counted is not waiting for answers any more. -/
theorem lookup_resolveConsensus (ht : s.tasks.lookup id = some task) (hkind : task.kind = .consensus kind) :
    ∃ t, (resolveConsensus id s).1.tasks.lookup id = some t ∧ (t = task ∨ t.status ≠ .claimed) := by
  have hloop : Preserves (fun s' : TaskBoard => s'.tasks.lookup id = some task)
      (forEach (losers kind (majorityAnswer kind.assignees)) addFailed) :=
    .forEach fun _ _ => .bind .get fun _ => .bind (.lift _) fun _ => .modify fun _ h => h
  have hcount : Triple (fun s' : TaskBoard => s'.tasks.lookup id = some task)
      (countVote id task kind (majorityAnswer kind.assignees))
      (fun _ s' => ∃ t, s'.tasks.lookup id = some t ∧ (t = task ∨ t.status ≠ .claimed))
      (fun _ s' => ∃ t, s'.tasks.lookup id = some t ∧ (t = task ∨ t.status ≠ .claimed))
      fun s' => ∃ t, s'.tasks.lookup id = some t ∧ (t = task ∨ t.status ≠ .claimed) := by
    refine Triple.bind (hloop.conseq (fun _ h => h) (fun _ _ h => h) (fun _ _ h => ⟨task, h, .inl rfl⟩)
      fun _ h => ⟨task, h, .inl rfl⟩) fun _ => .modify fun s' _ => ?_
    refine ⟨_, Finmap.lookup_insert _, .inr ?_⟩
    cases majorityAnswer kind.assignees <;> simp [resolved]
  have hend := hcount s ht
  rw [resolveConsensus_eq ht hkind]
  generalize countVote id task kind (majorityAnswer kind.assignees) s = r at hend
  obtain ⟨s', a | e | _⟩ := r
  exacts [hend, hend, hend]

/-- After a submission, only what was acceptable before is. -/
theorem Accepts.of_submitted {task' : Task} {kind' : ConsensusKind} (hx : Accepts s id x task kind)
    (hne : x.agent ≠ y.agent) (h : Accepts (submitted id s x) id y task' kind') : Accepts s id y task kind := by
  have hknown : ∃ t, (submitted id s x).tasks.lookup id = some t ∧
      (t = recorded task kind x ∨ t.status ≠ .claimed) := by
    have hrecorded : (s.record id task kind x).tasks.lookup id = some (recorded task kind x) :=
      Finmap.lookup_insert _
    rw [submitted_of_accepts hx, afterAnswer, Call.when]
    -- If the answer was the last, the vote has been counted, and the task is no longer claimed.
    by_cases hcomplete : (kind.answered x.agent x.answer).complete
    · rw [if_pos hcomplete]
      obtain ⟨t, ht, hcases⟩ := lookup_resolveConsensus hrecorded rfl
      refine ⟨t, ?_, hcases⟩
      change (Call.bind (resolveConsensus id) _ _).1.tasks.lookup id = _
      rw [Call.bind]
      generalize resolveConsensus id (s.record id task kind x) = r at ht
      obtain ⟨s', a | e | _⟩ := r
      exacts [ht, ht, ht]
    · rw [if_neg hcomplete]
      exact ⟨_, hrecorded, .inl rfl⟩
  obtain ⟨t, ht, hcases⟩ := hknown
  obtain rfl := Option.some.inj (ht.symm.trans h.known)
  -- The second agent had not answered before, since the first answer is of another.
  rcases hcases with rfl | hclaimed
  · obtain rfl := TaskKind.consensus.inj h.consensus
    refine ⟨hx.known, hx.consensus, hx.claimed, h.inTime, ?_⟩
    obtain ⟨a, ha, hnone⟩ := h.missing
    rw [lookup_answered, if_neg hne.symm] at ha
    exact ⟨a, ha, hnone⟩
  · exact absurd h.claimed hclaimed

/-- After two submissions that meet the conditions on the same board, both answers are there. -/
theorem submitted_record_of_accepts (hx : Accepts s id x task kind) (hy : Accepts s id y task kind)
    (hne : x.agent ≠ y.agent) : submitted id (submitted id s x) y =
      (afterAnswer id ((kind.answered x.agent x.answer).answered y.agent y.answer)
        (s.record id task (kind.answered x.agent x.answer) y)).1 := by
  obtain ⟨a, ha, hnone⟩ := (hx.record hy hne).missing
  have hfirst : submitted id s x = s.record id task kind x := by
    rw [submitted_of_accepts hx, afterAnswer, not_complete ha hnone]
    rfl
  rw [hfirst, submitted_of_accepts (hx.record hy hne)]
  congr 2
  rw [TaskBoard.record, TaskBoard.record, TaskBoard.record, Finmap.insert_insert]
  rfl

/-- Answers of different assignees may come in either order. -/
theorem submitted_comm (h : x.agent ≠ y.agent) :
    submitted id (submitted id s x) y = submitted id (submitted id s y) x := by
  by_cases hx : ∃ task kind, Accepts s id x task kind
  · obtain ⟨task, kind, hx⟩ := hx
    by_cases hy : Accepts s id y task kind
    · -- Both are recorded, and answers of different agents commute.
      rw [submitted_record_of_accepts hx hy h, submitted_record_of_accepts hy hx h.symm, TaskBoard.record,
        TaskBoard.record, recorded, recorded, answered_comm h]
    · have hno : ¬ ∃ t k, Accepts s id y t k := by
        rintro ⟨t, k, hk⟩
        obtain rfl := Option.some.inj (hk.known.symm.trans hx.known)
        obtain rfl := TaskKind.consensus.inj (hk.consensus.symm.trans hx.consensus)
        exact hy hk
      -- Refused before the other answer, it is refused after it.
      have hno' : ¬ ∃ t k, Accepts (submitted id s x) id y t k := by
        rintro ⟨t, k, hk⟩
        exact hy (hx.of_submitted h hk)
      rw [submitted_of_refused hno, submitted_of_refused hno']
  · rw [submitted_of_refused hx]
    by_cases hy : ∃ task kind, Accepts s id y task kind
    · obtain ⟨task, kind, hy⟩ := hy
      have hno' : ¬ ∃ t k, Accepts (submitted id s y) id x t k := by
        rintro ⟨t, k, hk⟩
        exact hx ⟨task, kind, hy.of_submitted h.symm hk⟩
      rw [submitted_of_refused hno']
    · rw [submitted_of_refused hy, submitted_of_refused hx]

/-- The board after some submissions, one after the other. -/
def submitAll (id : Uuid) (subs : List Submission) (s : TaskBoard) : TaskBoard := subs.foldl (submitted id) s

/-- Submissions of different agents leave the same board in any order. -/
theorem submitAll_perm {subs subs' : List Submission} (hagents : (subs.map Submission.agent).Nodup)
    (h : subs.Perm subs') : submitAll id subs s = submitAll id subs' s := by
  refine h.foldl_eq' (fun x hx y hy s => ?_) s
  by_cases he : x.agent = y.agent
  · rw [List.inj_on_of_nodup_map hagents hx hy he]
  · exact submitted_comm he

/-! ## The deadline -/

/-- The tasks a sweep counts the vote of. -/
def due (now : DateTime) (s : TaskBoard) : List Uuid := (s.tasks.values.filter (isDue now)).map Task.id

/-- A sweep counts the votes of the tasks that are due, one after the other. -/
theorem resolveExpiredConsensusTasks_eq (now : DateTime) (s : TaskBoard) :
    resolveExpiredConsensusTasks now s =
      (forEach (s.due now) resolveConsensus >>= fun _ => pure (s.due now)) s := rfl

/-- Counting a vote touches no other task. -/
theorem preserves_lookup_resolveConsensus {j : Uuid} (h : id ≠ j) (o : Option Task) :
    Preserves (fun s : TaskBoard => s.tasks.lookup id = o) (resolveConsensus j) := by
  refine .bind .get fun s₁ => ?_
  split
  · exact .pure _
  · split
    · refine .bind (.forEach fun _ _ => .bind .get fun _ => .bind (.lift _) fun _ => .modify fun _ h => h)
        fun _ => .modify fun s₂ hs₂ => ?_
      rw [Finmap.lookup_insert_of_ne _ h]
      exact hs₂
    · exact .pure _

/-- A count that does not panic leaves the task resolved. -/
theorem lookup_of_resolveConsensus_ok (ht : s.tasks.lookup id = some task) (hkind : task.kind = .consensus kind)
    (h : (resolveConsensus id s).2 = .ok ()) : (resolveConsensus id s).1.tasks.lookup id =
      some (resolved task kind (majorityAnswer kind.assignees)) := by
  rw [resolveConsensus_eq ht hkind] at h ⊢
  rw [countVote] at h ⊢
  change (Call.bind (forEach _ addFailed) _ s).2 = _ at h
  change (Call.bind (forEach _ addFailed) _ s).1.tasks.lookup id = _
  rw [Call.bind] at h ⊢
  generalize forEach (losers kind (majorityAnswer kind.assignees)) addFailed s = r at h ⊢
  obtain ⟨s', a | e | _⟩ := r
  · exact Finmap.lookup_insert _
  · cases h
  · cases h

/-- A sweep that gets through leaves a task it goes over as counting its vote does. -/
theorem lookup_forEach_resolveConsensus {ids : List Uuid} (hids : ids.Nodup) (hmem : id ∈ ids)
    (ht : s.tasks.lookup id = some task) (hkind : task.kind = .consensus kind)
    (h : (forEach ids resolveConsensus s).2 = .ok ()) : (forEach ids resolveConsensus s).1.tasks.lookup id =
      some (resolved task kind (majorityAnswer kind.assignees)) := by
  induction ids generalizing s with
  | nil => cases hmem
  | cons j ids ih =>
    obtain ⟨hj, hids⟩ := List.nodup_cons.1 hids
    rw [forEach] at h ⊢
    change (Call.bind (resolveConsensus j) _ s).2 = _ at h
    change (Call.bind (resolveConsensus j) _ s).1.tasks.lookup id = _
    -- A vote on another task leaves this one to be counted.
    have hfirst : id ≠ j → (resolveConsensus j s).1.tasks.lookup id = some task := fun hne =>
      (preserves_lookup_resolveConsensus hne (some task)).apply ht
    have hself : id = j → (resolveConsensus j s).2 = .ok () → (resolveConsensus j s).1.tasks.lookup id =
        some (resolved task kind (majorityAnswer kind.assignees)) := by
      rintro rfl hok
      exact lookup_of_resolveConsensus_ok ht hkind hok
    rw [Call.bind] at h ⊢
    generalize resolveConsensus j s = r at h hfirst hself ⊢
    obtain ⟨s₁, a | e | _⟩ := r
    · by_cases he : id = j
      · -- The others leave it as it is.
        have hrest : id ∉ ids := he ▸ hj
        have hpreserves : Preserves (fun s' : TaskBoard => s'.tasks.lookup id =
            some (resolved task kind (majorityAnswer kind.assignees))) (forEach ids resolveConsensus) :=
          .forEach fun i hi => preserves_lookup_resolveConsensus (fun hid : id = i => hrest (hid ▸ hi)) _
        exact hpreserves.apply (hself he rfl)
      · exact ih hids ((List.mem_cons.1 hmem).resolve_left he) (hfirst he) h
    · cases h
    · cases h

/-- A task on the board that is due is swept. -/
theorem mem_due {now : DateTime} (h : s.TasksKeyed) (ht : s.tasks.lookup id = some task)
    (hdue : isDue now task = true) : id ∈ s.due now :=
  List.mem_map.2 ⟨task, List.mem_filter.2 ⟨Finmap.mem_values.2 ⟨id, ht⟩, hdue⟩, h id task ht⟩

/-- A task is swept once. -/
theorem nodup_due (h : s.TasksKeyed) (now : DateTime) : (s.due now).Nodup :=
  h.values_nodup.sublist (List.filter_sublist.map _)

/-- The sweep counts the vote of a task that is due, and nothing else when it is the only one. -/
theorem sweep_counts (h : s.TasksKeyed) (ht : s.tasks.lookup id = some task)
    (hkind : task.kind = .consensus kind) (now : DateTime) :
    (s.due now = [id] → (resolveExpiredConsensusTasks now s).1 = (resolveConsensus id s).1) ∧
    (isDue now task = true → ∀ s' ids, resolveExpiredConsensusTasks now s = (s', .ok ids) →
      s'.tasks.lookup id = some (resolved task kind (majorityAnswer kind.assignees))) := by
  rw [resolveExpiredConsensusTasks_eq]
  refine ⟨fun hdue => ?_, fun hdue s' ids hsweep => ?_⟩
  · rw [hdue]
    change (Call.bind (Call.bind (resolveConsensus id) fun _ => pure ()) _ s).1 = _
    rw [Call.bind, Call.bind]
    generalize resolveConsensus id s = r
    obtain ⟨s', a | e | _⟩ := r
    · rfl
    · rfl
    · rfl
  · have hall := lookup_forEach_resolveConsensus (nodup_due h now) (mem_due h ht hdue) ht hkind
    change Call.bind (forEach (s.due now) resolveConsensus) _ s = _ at hsweep
    rw [Call.bind] at hsweep
    generalize forEach (s.due now) resolveConsensus s = r at hsweep hall
    obtain ⟨s₁, a | e | _⟩ := r
    · obtain ⟨rfl, -⟩ := Prod.mk.inj hsweep
      exact hall rfl
    · cases (Prod.mk.inj hsweep).2
    · cases (Prod.mk.inj hsweep).2

/-! ## The vote on a task -/

/-- A submission that completes the vote counts it. -/
theorem submit_eq_true (h : submitConsensusAnswer id sub.agent sub.answer sub.now s = (s', .ok true)) :
    ∃ task kind, Accepts s id sub task kind ∧
      resolveConsensus id (s.record id task kind sub) = (s', .ok ()) := by
  rcases submit_cases s id sub with ⟨task, kind, hacc, he⟩ | ⟨-, -, hno⟩
  · refine ⟨task, kind, hacc, ?_⟩
    rw [he, afterAnswer, Call.when] at h
    split_ifs at h with hcomplete
    · change Call.bind (resolveConsensus id) _ _ = _ at h
      rw [Call.bind] at h
      generalize resolveConsensus id (s.record id task kind sub) = r at h ⊢
      obtain ⟨s₁, a | e | _⟩ := r
      · rw [(Prod.mk.inj h).1]
      · cases (Prod.mk.inj h).2
      · cases (Prod.mk.inj h).2
    · have hb := Outcome.ok.inj (Prod.mk.inj h).2
      exact absurd hb hcomplete
  · exact absurd (congrArg Prod.snd h) (hno true)

/-- An answer leaves a task that is not resolved without allocation or submission. -/
theorem Accepts.blank_recorded (h : Accepts s id sub task kind) (hblank : task.Blank) :
    (recorded task kind sub).Blank where
  consensus k hk pk a ha := by
    obtain rfl := TaskKind.consensus.inj hk
    rw [lookup_answered] at ha
    split_ifs at ha
    · obtain ⟨b, hb, rfl⟩ := Option.map_eq_some_iff.1 ha
      exact hblank.consensus kind h.consensus pk b hb
    · exact hblank.consensus kind h.consensus pk a ha
  contest k hk := by cases hk

/-- A count from the board with the last answer, seen from before it. -/
theorem VoteCounted.of_record (h : VoteCounted (s.record id task kind sub) id (recorded task kind sub)
    (kind.answered sub.agent sub.answer) s') :
    VoteCounted s id (recorded task kind sub) (kind.answered sub.agent sub.answer) s' where
  paid answer hm := by
    obtain ⟨task', htasks, hpaid⟩ := h.paid answer hm
    refine ⟨task', ?_, hpaid⟩
    rw [htasks, TaskBoard.record, Finmap.insert_insert]
  charged := h.charged
  closed hnone := by
    obtain ⟨hreputation, htasks, hpayouts⟩ := h.closed hnone
    refine ⟨hreputation, ?_, hpayouts⟩
    rw [htasks, TaskBoard.record, Finmap.insert_insert]

end TaskBoard

open TaskBoard

variable {b₀ : TaskBoard} {s : TaskRun} {id : Uuid} {task : Task}

/-- In every run, for every consensus task that is filled: its vote is counted unless a
    failure of a loser cannot be, and as `VoteCounted` says, whether the sweep counts it or the
    last answer; what both make of the same answers is the same, and so is what submissions
    of different agents do in any order. -/
theorem consensus_resolution (hr : (taskRuns b₀).Reachable s) (ht : s.board.tasks.lookup id = some task)
    (hkind : task.kind = .consensus kind) (hclaimed : task.status = .claimed) :
    ((resolveConsensus id s.board).2 = .ok () ↔ s.board.Chargeable kind) ∧
    ((resolveConsensus id s.board).2 = .ok () →
      VoteCounted s.board id task kind (resolveConsensus id s.board).1) ∧
    (∀ now, (s.board.due now = [id] →
        (resolveExpiredConsensusTasks now s.board).1 = (resolveConsensus id s.board).1) ∧
      (isDue now task = true → ∀ s' ids, resolveExpiredConsensusTasks now s.board = (s', .ok ids) →
        s'.tasks.lookup id = some (resolved task kind (majorityAnswer kind.assignees)))) ∧
    (∀ (sub : Submission) s', submitConsensusAnswer id sub.agent sub.answer sub.now s.board = (s', .ok true) →
      VoteCounted s.board id (recorded task kind sub) (kind.answered sub.agent sub.answer) s' ∧
      ∀ now, ((s.board.record id task kind sub).due now = [id] →
          (resolveExpiredConsensusTasks now (s.board.record id task kind sub)).1 = s') ∧
        (isDue now (recorded task kind sub) = true → ∀ s'' ids,
          resolveExpiredConsensusTasks now (s.board.record id task kind sub) = (s'', .ok ids) →
          s''.tasks.lookup id = s'.tasks.lookup id)) ∧
    ∀ subs subs' : List Submission, (subs.map Submission.agent).Nodup → subs.Perm subs' →
      submitAll id subs s.board = submitAll id subs' s.board := by
  have htidy := tidy_of_reachable hr
  have hblank : task.Blank := (htidy.sound id task ht).allotted.blank (by
    rw [Task.Settled, hclaimed]
    decide)
  refine ⟨?_, fun hok => ?_, sweep_counts htidy.keyed ht hkind, fun sub s' hsub => ?_,
    fun subs subs' => submitAll_perm⟩
  · rcases resolveConsensus_counted ht hkind hblank with ⟨hcharge, hok, -⟩ | ⟨hcharge, hpanic⟩
    · exact iff_of_true hok hcharge
    · refine iff_of_false (fun hok => ?_) hcharge
      rw [hok] at hpanic
      cases hpanic
  · rcases resolveConsensus_counted ht hkind hblank with ⟨-, -, hcounted⟩ | ⟨-, hpanic⟩
    · exact hcounted
    · rw [hok] at hpanic
      cases hpanic
  -- The last answer is recorded, and the vote is counted on what it leaves.
  · obtain ⟨t, k, hacc, hresolve⟩ := submit_eq_true hsub
    obtain rfl := Option.some.inj (hacc.known.symm.trans ht)
    obtain rfl := TaskKind.consensus.inj (hacc.consensus.symm.trans hkind)
    have hrecorded : (s.board.record id t k sub).tasks.lookup id = some (recorded t k sub) :=
      Finmap.lookup_insert _
    have hkeyed : (s.board.record id t k sub).TasksKeyed := htidy.keyed.insert (htidy.keyed id t ht)
    have hlookup := lookup_of_resolveConsensus_ok hrecorded rfl (congrArg Prod.snd hresolve)
    rw [hresolve] at hlookup
    refine ⟨?_, fun now => ⟨fun hdue => ?_, fun hdue s'' ids hsweep => ?_⟩⟩
    · rcases resolveConsensus_counted hrecorded rfl (hacc.blank_recorded hblank) with
        ⟨-, -, hcounted⟩ | ⟨-, hpanic⟩
      · rw [hresolve] at hcounted
        exact hcounted.of_record
      · rw [hresolve] at hpanic
        cases hpanic
    · -- The sweep counts what the last answer has left.
      rw [(sweep_counts hkeyed hrecorded rfl now).1 hdue, hresolve]
    · rw [(sweep_counts hkeyed hrecorded rfl now).2 hdue s'' ids hsweep, hlookup]

/-! A task for three is filled; two of them answer alike, and the third does not. -/

def sampleBallot : List TaskOp :=
  [.createConsensusTask 1 0 6 "" 1000 3 100 60, .joinConsensusTask 1 7 1 1, .joinConsensusTask 1 8 2 2,
    .joinConsensusTask 1 9 3 3, .submitConsensusAnswer 1 7 "yes" 4, .submitConsensusAnswer 1 8 "yes" 5]

/-- The vote, with one answer missing. -/
def sampleKind : ConsensusKind where
  numAssignees := 3
  joinDeadline := 100
  submissionWindowMinutes := 60
  submissionDeadline := some (3 + 60 * 60 * 10 ^ 9)
  assignees := ((Finmap.insert 9 {} ∅ : Finmap fun _ : PublicKey => ConsensusAssignment).insert
    7 { answer := some "yes" }).insert 8 { answer := some "yes" }

def sampleStaffed : Task :=
  { newTask 1 0 6 "" 1000 (.consensus sampleKind) with status := .claimed }

theorem sampleBallot_claimed :
    (sampleTaskRun sampleBallot).board.tasks.lookup 1 = some sampleStaffed := rfl

theorem reachable_sampleBallot : (taskRuns TaskBoard.new).Reachable (sampleTaskRun sampleBallot) := by
  have hstart : (taskRuns TaskBoard.new).Reachable ⟨TaskBoard.new, [], [], []⟩ := .init ⟨started_new, rfl⟩
  have hcreate := reachable_after (.createConsensusTask 1 0 6 "" 1000 3 100 60) hstart (fun _ _ h => h) trivial
    ⟨by decide, by decide, by decide⟩
  have hfirst := reachable_after (.joinConsensusTask 1 7 1 1) hcreate (fun _ _ h => h) trivial
    ⟨by decide, by decide⟩
  have hsecond := reachable_after (.joinConsensusTask 1 8 2 2) hfirst (fun _ _ h => h) trivial
    ⟨by decide, by decide⟩
  have hthird := reachable_after (.joinConsensusTask 1 9 3 3) hsecond (fun _ _ h => h) trivial
    ⟨by decide, by decide⟩
  have hyes := reachable_after (.submitConsensusAnswer 1 7 "yes" 4) hthird (fun _ _ h => h) trivial trivial
  exact reachable_after (.submitConsensusAnswer 1 8 "yes" 5) hyes (fun _ _ h => h) trivial trivial

theorem consensus_resolution_sample :
    ∃ s', resolveConsensus 1 (sampleTaskRun sampleBallot).board = (s', .ok ()) ∧
    (∃ t, s'.tasks.lookup 1 = some t ∧ t.status = .verified ∧ t.pendingPayouts = [(7, 500), (8, 500)]) ∧
    s'.reputation.lookup 9 = some { failed := 1 } ∧ s'.reputation.lookup 7 = none := by
  obtain ⟨hok, hcounted, -⟩ := consensus_resolution reachable_sampleBallot sampleBallot_claimed rfl rfl
  have hmajority : sampleKind.Majority "yes" := by decide +kernel
  have hroom : (sampleTaskRun sampleBallot).board.Chargeable sampleKind := by
    have hall : ∀ pk ∈ sampleKind.assignees.keys, (sampleTaskRun sampleBallot).board.HasRoom pk := by
      decide +kernel
    exact fun answer _ pk hpk => hall pk (Finset.mem_sdiff.1 hpk).1
  have hok := hok.2 hroom
  have hcounted := hcounted hok
  obtain ⟨t, htasks, hstatus, hpayouts⟩ := hcounted.paid "yes" hmajority
  have hpaid : (sampleKind.voters "yes").ascending.map (fun pk =>
      (pk, sampleStaffed.bounty / (sampleKind.voters "yes").card)) = [(7, 500), (8, 500)] := by decide +kernel
  refine ⟨(resolveConsensus 1 (sampleTaskRun sampleBallot).board).1, Prod.ext rfl hok,
    ⟨t, ?_, hstatus, hpayouts.trans hpaid⟩, ?_, ?_⟩
  · rw [htasks, Finmap.lookup_insert]
  · rw [hcounted.charged "yes" hmajority 9]
    decide +kernel
  · rw [hcounted.charged "yes" hmajority 7]
    decide +kernel

end Itx
