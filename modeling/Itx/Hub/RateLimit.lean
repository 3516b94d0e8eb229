import Itx.Hub.Forwarded
import Itx.Lib.Call
import Itx.Lib.Checked
import Itx.Lib.Finmap
import Itx.Lib.FixedWindow

/-!
# Rate limits

Requests are counted in buckets: those of an address by what they cost, and the signed ones of a
key (`hub/src/rate_limit.rs`). The count of a bucket begins anew with the first request later than
a minute after the one it began with (`check_and_record`). The sweep drops the counts that began a
minute ago or earlier (`cleanup`), so that a window may also end early, by an instant.

Over any run in which the clock does not go back (`rate_limit`):

* no more requests than the limit of a bucket are allowed to a window, and no more than twice as
  many in any minute: windows are a minute apart at least, however requests, restarts and sweeps
  fall (`Limiter.Sound`);
* what a bucket answers depends on its own requests and on the sweeps;
* a request to a bucket unused for more than a minute is allowed.

The count is of 32 bits, and the request that would overflow it panics.
-/

namespace Itx

open Call

/-! ## Buckets -/

/-- What a request costs. -/
inductive Tier
  | health
  | metrics
  | read
  | write
  | chain
  deriving DecidableEq

/-- `WINDOW_SECONDS`. -/
def windowSeconds : ℤ := 60

/-- `MAX_REQUESTS_PER_WINDOW`. -/
def maxRequestsPerWindow : ℕ := 120

/-- `MAX_SIGNED_REQUESTS_PER_PUBKEY_PER_WINDOW`. -/
def maxSignedRequestsPerPubkeyPerWindow : ℕ := 60

/-- `Tier::max_per_window`. -/
def Tier.maxPerWindow : Tier → ℕ
  | .health => 120
  | .metrics => 120
  | .read => maxRequestsPerWindow
  | .write => 60
  | .chain => 20

/-- What requests are counted by. -/
inductive Bucket
  | ip (address : IpAddr) (tier : Tier)
  | pubkey (key : Text)
  deriving DecidableEq

/-- `Bucket::max_per_window`. -/
def Bucket.maxPerWindow : Bucket → ℕ
  | .ip _ tier => tier.maxPerWindow
  | .pubkey _ => maxSignedRequestsPerPubkeyPerWindow

/-- A bucket allows some requests. -/
theorem Bucket.one_le_maxPerWindow (bucket : Bucket) : 1 ≤ bucket.maxPerWindow := by
  rcases bucket with ⟨_, _ | _ | _ | _ | _⟩ | _ <;> exact of_decide_eq_true rfl

/-! ## Counting -/

/-- The count of a bucket, and when it began. -/
structure Window where
  startedAt : DateTime
  count : ℕ
  deriving DecidableEq

abbrev RateLimitTable := Finmap fun _ : Bucket => Window

/-- The window a request falls in: a new one, if there is none or it has lapsed. -/
def RateLimitTable.window (table : RateLimitTable) (bucket : Bucket) (now : DateTime) : Window :=
  let entry := (table.lookup bucket).getD ⟨now, 0⟩
  if now - entry.startedAt > Duration.seconds windowSeconds then ⟨now, 0⟩ else entry

/-- `check_and_record`. -/
def checkAndRecord (bucket : Bucket) (now : DateTime) : Call RateLimitTable Empty Bool := do
  let limit := bucket.maxPerWindow
  let entry := (← Call.get).window bucket now
  Call.modify fun table => table.insert bucket entry
  let count ← Call.lift (.expect (checked (2 ^ 32) (entry.count + 1)))
  Call.modify fun table => table.insert bucket { entry with count }
  pure (decide (count ≤ limit))

/-- `cleanup`. -/
def RateLimitTable.cleanup (now : DateTime) (table : RateLimitTable) : RateLimitTable :=
  let cutoff := now - Duration.seconds windowSeconds
  table.filterMap fun _ w => if w.startedAt > cutoff then some w else none

/-- What happens to the table. -/
inductive RateOp
  | check (bucket : Bucket) (now : DateTime)
  | cleanup (now : DateTime)
  deriving DecidableEq

def RateOp.time : RateOp → DateTime
  | .check _ now => now
  | .cleanup now => now

/-- What may matter to a bucket. -/
def RateOp.concerns (bucket : Bucket) : RateOp → Bool
  | .check b _ => b = bucket
  | .cleanup _ => true

/-- A request that has been counted: in which window, and whether it was allowed. -/
structure Charge where
  bucket : Bucket
  time : DateTime
  startedAt : DateTime
  allowed : Bool
  deriving DecidableEq

/-- The table, and the requests there have been. -/
structure Limiter where
  table : RateLimitTable
  charges : List Charge

namespace Limiter

/-- A request that panics is not allowed. -/
def after (l : Limiter) : RateOp → Limiter
  | .check bucket now =>
    let (table, answer) := checkAndRecord bucket now l.table
    ⟨table, l.charges ++ [⟨bucket, now, (l.table.window bucket now).startedAt, answer = .ok true⟩]⟩
  | .cleanup now => { l with table := l.table.cleanup now }

/-- A run from the empty table. -/
def run (ops : List RateOp) : Limiter := ops.foldl after ⟨∅, []⟩

theorem run_concat (ops : List RateOp) (op : RateOp) : run (ops ++ [op]) = (run ops).after op :=
  List.foldl_concat after _ op ops

/-- The requests allowed to a bucket in the window that began at `s`. -/
def granted (l : Limiter) (bucket : Bucket) (s : DateTime) : ℕ :=
  (l.charges.filter fun charge => charge.bucket = bucket).countP fun charge =>
    charge.allowed && decide (charge.startedAt = s)

end Limiter

/-! ## One request -/

variable {table : RateLimitTable} {bucket b : Bucket} {now t : DateTime} {w : Window}

/-- A request is counted in its window, unless that panics, and is allowed up to the limit. -/
theorem checkAndRecord_eq (bucket : Bucket) (now : DateTime) (table : RateLimitTable) :
    let w := table.window bucket now
    checkAndRecord bucket now table =
      if w.count + 1 < 2 ^ 32 then
        ((table.insert bucket w).insert bucket { w with count := w.count + 1 },
          .ok (decide (w.count + 1 ≤ bucket.maxPerWindow)))
      else (table.insert bucket w, .panic) := by
  intro w
  have hstep : checkAndRecord bucket now table =
      (Call.lift (.expect (checked (2 ^ 32) (w.count + 1))) >>= fun count => do
        Call.modify fun table => table.insert bucket { w with count }
        pure (decide (count ≤ bucket.maxPerWindow))) (table.insert bucket w) := rfl
  rw [hstep]
  split_ifs with h
  · rw [checked_eq_some.2 ⟨rfl, h⟩]
    rfl
  · rw [checked_eq_none.2 (not_lt.1 h)]
    rfl

theorem lookup_cleanup (b : Bucket) : (table.cleanup now).lookup b =
    (table.lookup b).filter fun w => w.startedAt > now - Duration.seconds windowSeconds := by
  rw [RateLimitTable.cleanup, Finmap.lookup_filterMap]
  cases table.lookup b with
  | none => rfl
  | some w => simp only [Option.bind_some, Option.filter_some, decide_eq_true_iff]

namespace Limiter

variable {l : Limiter} {last : DateTime}

/-- What a request adds to a run. -/
theorem after_check (l : Limiter) (bucket : Bucket) (now : DateTime) :
    let w := l.table.window bucket now
    ∃ count allowed,
      (l.after (.check bucket now)).charges = l.charges ++ [⟨bucket, now, w.startedAt, allowed⟩] ∧
      (∀ b, (l.after (.check bucket now)).table.lookup b =
        if b = bucket then some ⟨w.startedAt, count⟩ else l.table.lookup b) ∧
      w.count ≤ count ∧ (allowed = true → w.count < count ∧ count ≤ bucket.maxPerWindow) := by
  intro w
  rw [after, checkAndRecord_eq]
  split_ifs with hroom
  · refine ⟨w.count + 1, decide (w.count + 1 ≤ bucket.maxPerWindow), ?_, fun b => ?_, Nat.le_succ _,
      fun hallowed => ⟨Nat.lt_succ_self _, of_decide_eq_true hallowed⟩⟩
    · by_cases hle : w.count + 1 ≤ bucket.maxPerWindow <;> simp [w, hle]
    · simp only [Finmap.lookup_insert_eq]
      split_ifs <;> rfl
  · exact ⟨w.count, false, rfl, fun b => Finmap.lookup_insert_eq _ _ _ _, le_rfl, nofun⟩

/-- Windows are apart, no more is allowed in one than the limit, and the table has the last
    window of a bucket, unless that has ended. -/
structure Sound (last : DateTime) (l : Limiter) : Prop where
  windowed : ∀ b, Windowed (Duration.seconds windowSeconds) Charge.startedAt Charge.time
    (l.charges.filter fun charge => charge.bucket = b)
  limit : ∀ b s, l.granted b s ≤ b.maxPerWindow
  current : ∀ b w, l.table.lookup b = some w → w.startedAt ≤ last ∧ l.granted b w.startedAt ≤ w.count ∧
    ∀ charge ∈ l.charges, charge.bucket = b → charge.startedAt = w.startedAt ∨
      charge.startedAt + Duration.seconds windowSeconds ≤ w.startedAt
  gone : ∀ b, l.table.lookup b = none → ∀ charge ∈ l.charges, charge.bucket = b →
    charge.startedAt + Duration.seconds windowSeconds ≤ last

theorem Sound.empty (last : DateTime) : Sound last ⟨∅, []⟩ where
  windowed _ := ⟨nofun, nofun⟩
  limit _ _ := Nat.zero_le _
  current _ _ h := by cases h
  gone _ _ := nofun

/-- Nothing has been allowed in a window that is still to come. -/
theorem granted_eq_zero {s : DateTime} (h : ∀ charge ∈ l.charges, charge.bucket = b →
    charge.startedAt + Duration.seconds windowSeconds ≤ s) : l.granted b s = 0 := by
  refine List.countP_eq_zero.2 fun charge hcharge hs => ?_
  rw [List.mem_filter, decide_eq_true_iff] at hcharge
  rw [Bool.and_eq_true, decide_eq_true_iff] at hs
  have hle := h charge hcharge.1 hcharge.2
  rw [hs.2] at hle
  exact absurd hle (not_le.2 (lt_add_of_pos_right s (by decide)))

/-- The window of the next request to a bucket: it has not ended, and is the last there has been
    or begins with the request. -/
theorem Sound.window (h : Sound last l) (hlast : last ≤ now) (b : Bucket) :
    let w := l.table.window b now
    (w.startedAt ≤ now ∧ now ≤ w.startedAt + Duration.seconds windowSeconds) ∧
      l.granted b w.startedAt ≤ w.count ∧
      ∀ charge ∈ l.charges, charge.bucket = b → charge.startedAt = w.startedAt ∨
        charge.startedAt + Duration.seconds windowSeconds ≤ w.startedAt := by
  have hnow : now ≤ now + Duration.seconds windowSeconds := le_add_of_nonneg_right (by decide)
  have hnew (hold : ∀ charge ∈ l.charges, charge.bucket = b →
      charge.startedAt + Duration.seconds windowSeconds ≤ now) :
      (now ≤ now ∧ now ≤ now + Duration.seconds windowSeconds) ∧ l.granted b now ≤ 0 ∧
        ∀ charge ∈ l.charges, charge.bucket = b → charge.startedAt = now ∨
          charge.startedAt + Duration.seconds windowSeconds ≤ now :=
    ⟨⟨le_rfl, hnow⟩, (granted_eq_zero hold).le, fun charge hmem hb => .inr (hold charge hmem hb)⟩
  intro w
  cases hlookup : l.table.lookup b with
  | none =>
    have hw : w = ⟨now, 0⟩ := by
      simp only [w, RateLimitTable.window, hlookup, Option.getD_none]
      exact ite_self _
    rw [hw]
    exact hnew fun charge hmem hb => (h.gone b hlookup charge hmem hb).trans hlast
  | some e =>
    obtain ⟨hle, hgranted, hwindows⟩ := h.current b e hlookup
    by_cases hlapsed : now - e.startedAt > Duration.seconds windowSeconds
    · have hw : w = ⟨now, 0⟩ := by
        simp only [w, RateLimitTable.window, hlookup, Option.getD_some]
        exact if_pos hlapsed
      rw [hw]
      refine hnew fun charge hmem hb => ?_
      have hpos : (0 : ℤ) ≤ Duration.seconds windowSeconds := by decide
      rcases hwindows charge hmem hb with heq | hlt <;> unfold DateTime Duration at * <;> omega
    · have hw : w = e := by
        simp only [w, RateLimitTable.window, hlookup, Option.getD_some]
        exact if_neg hlapsed
      rw [hw]
      exact ⟨⟨hle.trans hlast, by unfold DateTime Duration at *; omega⟩, hgranted, hwindows⟩

theorem Sound.check (h : Sound last l) (hlast : last ≤ now) (bucket : Bucket) :
    Sound now (l.after (.check bucket now)) := by
  obtain ⟨hwithin, hgranted, hwindows⟩ := h.window hlast bucket
  obtain ⟨count, allowed, hcharges, htable, hcount, hallowed⟩ := l.after_check bucket now
  generalize l.table.window bucket now = w at *
  generalize l.after (.check bucket now) = l' at *
  have hfilter (b : Bucket) : (l'.charges.filter fun charge => charge.bucket = b) =
      (l.charges.filter fun charge => charge.bucket = b) ++
        if b = bucket then [⟨bucket, now, w.startedAt, allowed⟩] else [] := by
    rw [hcharges, List.filter_append, List.filter_cons, List.filter_nil]
    by_cases hb : b = bucket
    · simp [hb]
    · simp [hb, Ne.symm hb]
  have hother {b : Bucket} (hb : b ≠ bucket) (s : DateTime) : l'.granted b s = l.granted b s := by
    rw [granted, hfilter, if_neg hb, List.append_nil, granted]
  have hsame (s : DateTime) : l'.granted bucket s =
      l.granted bucket s + if allowed = true ∧ w.startedAt = s then 1 else 0 := by
    rw [granted, hfilter, if_pos rfl, List.countP_append, List.countP_singleton, granted]
    simp only [Bool.and_eq_true, decide_eq_true_iff]
  refine ⟨fun b => ?_, fun b s => ?_, fun b e he => ?_, fun b hnone charge hmem hb => ?_⟩
  · rw [hfilter]
    split_ifs with hb
    · -- The window of the request is the last one.
      subst hb
      have hold := h.windowed b
      refine ⟨fun e he => ?_, fun e he e' he' hlt => ?_⟩
      · rcases List.mem_append.1 he with he | he
        · exact hold.within e he
        · rw [List.mem_singleton.1 he]
          exact hwithin
      · have hw (e : Charge) (he : e ∈ l.charges.filter fun charge => charge.bucket = b) :=
          hwindows e (List.mem_filter.1 he).1 (of_decide_eq_true (List.mem_filter.1 he).2)
        have hpos : (0 : ℤ) ≤ Duration.seconds windowSeconds := by decide
        rcases List.mem_append.1 he with he | he <;> rcases List.mem_append.1 he' with he' | he'
        · exact hold.apart e he e' he' hlt
        · rw [List.mem_singleton.1 he'] at hlt ⊢
          exact (hw e he).resolve_left hlt.ne
        · rw [List.mem_singleton.1 he] at hlt
          rcases hw e' he' with heq | hle
          · exact absurd heq hlt.ne'
          · exact absurd (le_trans (le_add_of_nonneg_right hpos) hle) (not_le.2 hlt)
        · rw [List.mem_singleton.1 he, List.mem_singleton.1 he'] at hlt
          exact absurd hlt (lt_irrefl _)
    · rw [List.append_nil]
      exact h.windowed b
  · by_cases hb : b = bucket
    · subst hb
      rw [hsame]
      split_ifs with hs
      · obtain ⟨hlt, hle⟩ := hallowed hs.1
        rw [← hs.2]
        exact (Nat.succ_le_of_lt (hgranted.trans_lt hlt)).trans hle
      · exact h.limit b s
    · rw [hother hb]
      exact h.limit b s
  · rw [htable] at he
    split_ifs at he with hb
    · subst hb
      obtain rfl := Option.some.inj he
      refine ⟨hwithin.1, ?_, fun charge hmem hcharge => ?_⟩
      · rw [hsame]
        split_ifs with hs
        · exact Nat.succ_le_of_lt (hgranted.trans_lt (hallowed hs.1).1)
        · exact hgranted.trans hcount
      · rw [hcharges] at hmem
        rcases List.mem_append.1 hmem with hmem | hmem
        · exact hwindows charge hmem hcharge
        · exact .inl (congrArg Charge.startedAt (List.mem_singleton.1 hmem))
    · obtain ⟨hle, hgranted, hwindows⟩ := h.current b e he
      refine ⟨hle.trans hlast, (hother hb _).trans_le hgranted, fun charge hmem hcharge => ?_⟩
      rw [hcharges] at hmem
      rcases List.mem_append.1 hmem with hmem | hmem
      · exact hwindows charge hmem hcharge
      · rw [List.mem_singleton.1 hmem] at hcharge
        exact absurd hcharge.symm hb
  · rw [htable] at hnone
    split_ifs at hnone with hbucket
    rw [hcharges] at hmem
    rcases List.mem_append.1 hmem with hmem | hmem
    · exact (h.gone b hnone charge hmem hb).trans hlast
    · rw [List.mem_singleton.1 hmem] at hb
      exact absurd hb.symm hbucket

theorem Sound.cleanup (h : Sound last l) (hlast : last ≤ now) : Sound now (l.after (.cleanup now)) where
  windowed := h.windowed
  limit := h.limit
  current b w hw := by
    rw [after, lookup_cleanup, Option.filter_eq_some_iff] at hw
    obtain ⟨hle, hcurrent⟩ := h.current b w hw.1
    exact ⟨hle.trans hlast, hcurrent⟩
  gone b hnone charge hmem hb := by
    rw [after, lookup_cleanup] at hnone
    cases hlookup : l.table.lookup b with
    | none => exact (h.gone b hlookup charge hmem hb).trans hlast
    | some w =>
      -- The count dropped began a minute ago or earlier, and so did the windows before it.
      obtain ⟨-, -, hwindows⟩ := h.current b w hlookup
      have hdropped : ¬ w.startedAt > now - Duration.seconds windowSeconds := by
        simpa [hlookup, Option.filter_some] using hnone
      have hpos : (0 : ℤ) ≤ Duration.seconds windowSeconds := by decide
      rcases hwindows charge hmem hb with heq | hle <;> unfold DateTime Duration at * <;> omega

theorem Sound.after (h : Sound last l) {op : RateOp} (hlast : last ≤ op.time) :
    Sound op.time (l.after op) := by
  cases op with
  | check bucket now => exact h.check hlast bucket
  | cleanup now => exact h.cleanup hlast

/-- A run keeps it, as of the time of its last operation. -/
theorem sound_run {ops : List RateOp} (hops : ops.Pairwise fun op op' => op.time ≤ op'.time)
    {next : DateTime} (hnext : ∀ op ∈ ops, op.time ≤ next) : ∃ last ≤ next, Sound last (run ops) := by
  induction ops using List.reverseRecOn generalizing next with
  | nil => exact ⟨next, le_rfl, .empty next⟩
  | append_singleton ops op ih =>
    obtain ⟨hops, -, hlast⟩ := List.pairwise_append.1 hops
    obtain ⟨last, hle, hsound⟩ := ih hops fun op' hmem => hlast op' hmem op (List.mem_singleton_self op)
    refine ⟨op.time, hnext op (List.mem_append_right _ (List.mem_singleton_self op)), ?_⟩
    rw [run_concat]
    exact hsound.after hle

/-! ## Other buckets do not matter -/

/-- Two runs are alike for a bucket. -/
structure Alike (bucket : Bucket) (l l' : Limiter) : Prop where
  lookup : l.table.lookup bucket = l'.table.lookup bucket
  charges : (l.charges.filter fun charge => charge.bucket = bucket) = l'.charges

theorem Alike.of_check_ne {l' : Limiter} (h : Alike b l l') (hne : bucket ≠ b) :
    Alike b (l.after (.check bucket now)) l' := by
  obtain ⟨count, allowed, hcharges, htable, -⟩ := l.after_check bucket now
  refine ⟨?_, ?_⟩
  · rw [htable, if_neg (Ne.symm hne), h.lookup]
  · rw [hcharges, List.filter_append, h.charges, List.filter_singleton, decide_eq_false hne, cond_false,
      List.append_nil]

theorem Alike.check {l' : Limiter} (h : Alike b l l') :
    Alike b (l.after (.check b now)) (l'.after (.check b now)) := by
  have hwindow : l.table.window b now = l'.table.window b now := by
    rw [RateLimitTable.window, RateLimitTable.window, h.lookup]
  simp only [after, checkAndRecord_eq, hwindow]
  split_ifs with hroom
  · refine ⟨?_, ?_⟩
    · simp only [Finmap.lookup_insert]
    · rw [List.filter_append, h.charges]
      simp
  · refine ⟨?_, ?_⟩
    · simp only [Finmap.lookup_insert]
    · rw [List.filter_append, h.charges]
      simp

theorem Alike.cleanup {l' : Limiter} (h : Alike b l l') :
    Alike b (l.after (.cleanup now)) (l'.after (.cleanup now)) :=
  ⟨by rw [after, after, lookup_cleanup, lookup_cleanup, h.lookup], h.charges⟩

/-- A run goes for a bucket as the run of what concerns it. -/
theorem alike_run (bucket : Bucket) (ops : List RateOp) :
    Alike bucket (run ops) (run (ops.filter (RateOp.concerns bucket))) := by
  induction ops using List.reverseRecOn with
  | nil => exact ⟨rfl, rfl⟩
  | append_singleton ops op ih =>
    rw [run_concat, List.filter_append]
    cases op with
    | check b now =>
      by_cases hb : b = bucket
      · subst hb
        have hconcerns : (RateOp.check b now).concerns b = true := decide_eq_true rfl
        rw [List.filter_cons_of_pos hconcerns, List.filter_nil, run_concat]
        exact ih.check
      · have hconcerns : ¬ (RateOp.check b now).concerns bucket = true := fun h => hb (of_decide_eq_true h)
        rw [List.filter_cons_of_neg hconcerns, List.filter_nil, List.append_nil]
        exact ih.of_check_ne hb
    | cleanup now =>
      have hconcerns : (RateOp.cleanup now).concerns bucket = true := rfl
      rw [List.filter_cons_of_pos hconcerns, List.filter_nil, run_concat]
      exact ih.cleanup

/-! ## Buckets that have not been used -/

/-- The window of a bucket began with a request to it. -/
theorem mem_of_lookup_run {ops : List RateOp} (h : (run ops).table.lookup b = some w) :
    .check b w.startedAt ∈ ops := by
  induction ops using List.reverseRecOn generalizing w with
  | nil => cases h
  | append_singleton ops op ih =>
    rw [run_concat] at h
    cases op with
    | cleanup now =>
      rw [after, lookup_cleanup, Option.filter_eq_some_iff] at h
      exact List.mem_append_left _ (ih h.1)
    | check bucket now =>
      obtain ⟨count, allowed, -, htable, -⟩ := (run ops).after_check bucket now
      rw [htable] at h
      split_ifs at h with hb
      · obtain rfl := Option.some.inj h
        subst hb
        change RateOp.check b ((run ops).table.window b now).startedAt ∈ _
        rw [RateLimitTable.window]
        split_ifs with hlapsed
        · exact List.mem_append_right _ (List.mem_singleton_self _)
        · cases hlookup : (run ops).table.lookup b with
          | none => exact List.mem_append_right _ (List.mem_singleton_self _)
          | some e => exact List.mem_append_left _ (ih hlookup)
      · exact List.mem_append_left _ (ih h)

theorem allowed_of_unused {ops : List RateOp}
    (hops : ∀ t, .check bucket t ∈ ops → t + Duration.seconds windowSeconds < now) :
    (checkAndRecord bucket now (run ops).table).2 = .ok true := by
  have hwindow : (run ops).table.window bucket now = ⟨now, 0⟩ := by
    rw [RateLimitTable.window]
    cases hlookup : (run ops).table.lookup bucket with
    | none => exact ite_self _
    | some w =>
      refine if_pos ?_
      exact lt_sub_iff_add_lt'.2 (hops _ (mem_of_lookup_run hlookup))
  rw [checkAndRecord_eq, hwindow]
  exact congrArg Outcome.ok (decide_eq_true bucket.one_le_maxPerWindow)

end Limiter

/-! ## The limit -/

open Limiter in
/-- In a run over which the clock does not go back: each request to a bucket is in one of its
    windows, which take a minute each at most and are a minute apart at least; a window allows no
    more than the limit, and any minute no more than twice that. What becomes of the requests to a
    bucket is what becomes of them in the run of these requests and the sweeps alone, and one to a
    bucket unused for over a minute is allowed. -/
theorem rate_limit (ops : List RateOp) (hops : ops.Pairwise fun op op' => op.time ≤ op'.time)
    (bucket : Bucket) :
    let charges := (run ops).charges.filter fun charge => charge.bucket = bucket
    Windowed (Duration.seconds windowSeconds) Charge.startedAt Charge.time charges ∧
      (∀ s, (charges.countP fun charge => charge.allowed && decide (charge.startedAt = s)) ≤
        bucket.maxPerWindow) ∧
      (∀ t, (charges.countP fun charge => charge.allowed &&
          decide (t ≤ charge.time ∧ charge.time < t + Duration.seconds windowSeconds)) ≤
        2 * bucket.maxPerWindow) ∧
      charges = (run (ops.filter (RateOp.concerns bucket))).charges ∧
      ∀ before now after, ops = before ++ .check bucket now :: after →
        (∀ t, .check bucket t ∈ before → t + Duration.seconds windowSeconds < now) →
        (checkAndRecord bucket now (run before).table).2 = .ok true := by
  intro charges
  obtain ⟨last, hlast⟩ := (ops.map RateOp.time).toFinset.exists_le
  obtain ⟨_, -, hsound⟩ := sound_run hops fun op hop =>
    hlast _ (List.mem_toFinset.2 (List.mem_map_of_mem hop))
  exact ⟨hsound.windowed bucket, hsound.limit bucket,
    (hsound.windowed bucket).countP_interval_le (hsound.limit bucket), (alike_run bucket ops).charges,
    fun _ _ _ _ => allowed_of_unused⟩

namespace RateLimitSample

/-- Twenty requests to the scarcest bucket of an address at the end of a minute, a sweep, and one
    more than twenty. -/
def chainBucket : Bucket := .ip (.v4 ⟨127, 0, 0, 1⟩) .chain

def ops : List RateOp :=
  .check chainBucket 0 :: List.replicate 19 (.check chainBucket (Duration.seconds 59)) ++
    .cleanup (Duration.seconds 60) :: List.replicate 21 (.check chainBucket (Duration.seconds 60))

end RateLimitSample

open RateLimitSample in
/-- Two windows may allow all they can at the end of one and the beginning of the other. -/
theorem rate_limit_sample :
    (((Limiter.run ops).charges.filter fun charge => charge.bucket = chainBucket).countP fun charge =>
      charge.allowed && decide (Duration.seconds 59 ≤ charge.time ∧
        charge.time < Duration.seconds 59 + Duration.seconds windowSeconds)) ≤ 40 ∧
    (Limiter.run ops).charges.countP (fun charge => charge.allowed) = 40 := by
  obtain ⟨-, -, hminute, -⟩ := rate_limit ops (by decide +kernel) chainBucket
  exact ⟨hminute (Duration.seconds 59), by decide +kernel⟩

end Itx
