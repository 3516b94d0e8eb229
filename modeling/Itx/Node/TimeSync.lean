import Itx.Chain.Panic
import Itx.Lib.Address
import Itx.Lib.Median

/-!
# Network time

A node keeps how far the clocks of its peers are from its own, one sample to an address, and
applies the median of them to its chain (`node/src/time_sync.rs`): once there are five, and unless
it is too far from its own clock. The samples are taken in whole seconds, and the median is
compared with the bound in whole minutes (`record_sample`).

* An offset is applied only if five addresses have been sampled, and lies where most of the
  samples do (`network_time`).
* It is no more than the bound of `70` minutes, unless the median is between that and one minute
  more: in whole minutes that is `70`, and is applied. So the offset is less than `71` minutes, as
  what a chain is given has to be (`record_received`).
-/

namespace Itx

open Blockchain

/-- `MAX_SAMPLES`. -/
def maxSamples : ℕ := 50

/-- `MIN_SAMPLES_TO_ADJUST`. -/
def minSamplesToAdjust : ℕ := 5

/-- `MAX_TIME_ADJUSTMENT_MINUTES`. -/
def maxTimeAdjustmentMinutes : ℤ := 70

/-- `Duration::num_minutes`, rounded towards zero. -/
def Duration.numMinutes (d : Duration) : ℤ := d.numSeconds.tdiv 60

/-- `SAMPLES`. -/
abbrev Samples := Finmap fun _ : IpAddr => Duration

/-- The samples in whole seconds, in no order. -/
def Samples.seconds (samples : Samples) : Multiset ℤ :=
  samples.entries.map fun entry => Duration.numSeconds entry.2

theorem half_lt_length_sort {secs : Multiset ℤ} (h : ¬ secs.card < minSamplesToAdjust) :
    secs.card / 2 < (secs.sort (· ≤ ·)).length := by
  rw [Multiset.length_sort]
  exact Nat.div_lt_self (lt_of_lt_of_le (by decide) (not_lt.1 h)) (by decide)

/-- `median_of_seconds`. -/
def medianOfSeconds (secs : Multiset ℤ) : Option Duration :=
  if h : secs.card < minSamplesToAdjust then none
  else
    have := half_lt_length_sort h
    some (Duration.seconds (secs.sort (· ≤ ·))[secs.card / 2])

/-- A chain, and the samples its offset comes from. -/
structure NetworkTime where
  samples : Samples
  chain : Blockchain

namespace NetworkTime

/-- Whether a sample of an address is taken: there is room, or it replaces another. -/
def Takes (s : NetworkTime) (ip : IpAddr) : Prop :=
  ¬ (s.samples.keys.card ≥ maxSamples ∧ ip ∉ s.samples)

instance (s : NetworkTime) (ip : IpAddr) : Decidable (s.Takes ip) := inferInstanceAs (Decidable (¬ _))

/-- The offset applied for some samples. -/
def applied (samples : Samples) : Duration :=
  match medianOfSeconds samples.seconds with
  | none => 0
  | some median => if |median.numMinutes| > maxTimeAdjustmentMinutes then 0 else median

/-- `record_sample`. -/
def recordSample (ip : IpAddr) (offset : Duration) (s : NetworkTime) : NetworkTime :=
  if s.Takes ip then
    let samples := s.samples.insert ip offset
    { samples, chain := s.chain.setTimeOffset (applied samples) }
  else s

end NetworkTime

/-- The runs of a node that has no samples. -/
def timeRuns : System NetworkTime (IpAddr × Duration) where
  init := {s | s.samples = ∅ ∧ s.chain.timeOffset = 0}
  step s sample s' := s' = s.recordSample sample.1 sample.2

namespace NetworkTime

/-! ## The bounds -/

/-- The offset is no more than the bound. -/
def Bounded (s : NetworkTime) : Prop :=
  s.chain.timeOffset = 0 ∨ |s.chain.timeOffset| ≤ Duration.seconds (maxTimeAdjustmentMinutes * 60)

/-- A sample that is taken does not put the median within the minute after the bound. -/
def Clear (s : NetworkTime) (sample : IpAddr × Duration) : Prop :=
  s.Takes sample.1 → ∀ v, minSamplesToAdjust ≤ (s.samples.insert sample.1 sample.2).keys.card →
    IsUpperMedian (Samples.seconds (s.samples.insert sample.1 sample.2)) v →
    ¬ (maxTimeAdjustmentMinutes * 60 < |v| ∧ |v| < (maxTimeAdjustmentMinutes + 1) * 60)

variable {s : NetworkTime} {samples : Samples} {v : ℤ} {lo hi : Duration}

theorem card_seconds (samples : Samples) : samples.seconds.card = samples.keys.card := by
  rw [Samples.seconds, Multiset.card_map]
  exact (Multiset.card_map _ _).symm

theorem numSeconds_seconds (n : ℤ) : (Duration.seconds n).numSeconds = n := by
  rw [Duration.seconds, Duration.numSeconds]
  exact Int.mul_tdiv_cancel n (by decide)

/-- In whole minutes the bound is exceeded from one minute more on. -/
theorem numMinutes_le_iff :
    |(Duration.seconds v).numMinutes| ≤ maxTimeAdjustmentMinutes ↔
      |v| < (maxTimeAdjustmentMinutes + 1) * 60 := by
  have habs : |v.tdiv 60| = |v| / 60 := by
    rcases Int.eq_nat_or_neg v with ⟨n, rfl | rfl⟩
    · rw [Int.tdiv_eq_ediv_of_nonneg (Int.natCast_nonneg n), Nat.abs_cast]
      exact abs_of_nonneg (by omega)
    · rw [Int.neg_tdiv, abs_neg, abs_neg, Int.tdiv_eq_ediv_of_nonneg (Int.natCast_nonneg n), Nat.abs_cast]
      exact abs_of_nonneg (by omega)
  rw [Duration.numMinutes, numSeconds_seconds, habs, maxTimeAdjustmentMinutes]
  omega

/-- What is applied: nothing, with too few samples or a median too far off, or the median. -/
theorem applied_cases (samples : Samples) :
    samples.keys.card < minSamplesToAdjust ∧ applied samples = 0 ∨
      ∃ v, minSamplesToAdjust ≤ samples.keys.card ∧ IsUpperMedian samples.seconds v ∧
        applied samples =
          if |v| < (maxTimeAdjustmentMinutes + 1) * 60 then Duration.seconds v else 0 := by
  rw [applied, medianOfSeconds, ← card_seconds]
  split_ifs with hfew
  · exact .inl ⟨hfew, rfl⟩
  · have hlt := half_lt_length_sort hfew
    refine .inr ⟨(samples.seconds.sort (· ≤ ·))[samples.seconds.card / 2], not_lt.1 hfew,
      isUpperMedian_sort hlt, ?_⟩
    simp only [gt_iff_lt, ← not_le (b := maxTimeAdjustmentMinutes), ite_not, numMinutes_le_iff]

theorem applied_eq (hcard : minSamplesToAdjust ≤ samples.keys.card) (hv : IsUpperMedian samples.seconds v)
    (hclose : |v| < (maxTimeAdjustmentMinutes + 1) * 60) : applied samples = Duration.seconds v := by
  rcases applied_cases samples with ⟨hfew, -⟩ | ⟨w, -, hw, happlied⟩
  · exact absurd hfew (not_lt.2 hcard)
  · obtain rfl := hv.eq hw
    exact happlied.trans (if_pos hclose)

/-- A step: a sample that is not taken changes nothing. -/
theorem recordSample_cases (s : NetworkTime) (sample : IpAddr × Duration) :
    ¬ s.Takes sample.1 ∧ s.recordSample sample.1 sample.2 = s ∨
      s.Takes sample.1 ∧
        (s.recordSample sample.1 sample.2).samples = s.samples.insert sample.1 sample.2 ∧
        (s.recordSample sample.1 sample.2).chain.timeOffset =
          applied (s.samples.insert sample.1 sample.2) := by
  rw [recordSample]
  split_ifs with htakes
  · exact .inr ⟨htakes, rfl, rfl⟩
  · exact .inl ⟨htakes, rfl⟩

/-- The offset is none, or the median of the samples there are, which are enough. -/
def Sound (s : NetworkTime) : Prop :=
  s.chain.timeOffset = 0 ∨ ∃ v, minSamplesToAdjust ≤ s.samples.keys.card ∧
    IsUpperMedian s.samples.seconds v ∧ |v| < (maxTimeAdjustmentMinutes + 1) * 60 ∧
    s.chain.timeOffset = Duration.seconds v

theorem Sound.of_reachable (hs : timeRuns.Reachable s) : Sound s := by
  refine hs.invariant (fun s h => .inl h.2) ?_
  rintro s sample _ h - rfl
  rcases recordSample_cases s sample with ⟨-, hsame⟩ | ⟨-, hsamples, hoffset⟩
  · rwa [hsame]
  · rw [Sound, hsamples, hoffset]
    rcases applied_cases (s.samples.insert sample.1 sample.2) with ⟨-, hzero⟩ | ⟨v, hcard, hv, happlied⟩
    · exact .inl hzero
    · rw [happlied]
      split_ifs with hclose
      · exact .inr ⟨v, hcard, hv, hclose, rfl⟩
      · exact .inl rfl

theorem abs_seconds (n : ℤ) : |Duration.seconds n| = Duration.seconds |n| := by
  rw [Duration.seconds, Duration.seconds, abs_mul]
  rfl

theorem seconds_le {m n : ℤ} : Duration.seconds m ≤ Duration.seconds n ↔ m ≤ n :=
  mul_le_mul_iff_of_pos_right (by decide)

theorem bounded_seconds (h : s.chain.timeOffset = Duration.seconds v) :
    s.Bounded ↔ |v| ≤ maxTimeAdjustmentMinutes * 60 := by
  rw [Bounded, h, abs_seconds, seconds_le]
  refine ⟨fun hor => hor.elim (fun hzero => ?_) id, .inr⟩
  obtain rfl : v = 0 := (mul_eq_zero.1 hzero).resolve_right (by decide)
  decide

/-- The offset goes on to be bounded exactly if the median is not in the minute after the bound. -/
theorem bounded_recordSample (h : s.Bounded) (sample : IpAddr × Duration) :
    (s.recordSample sample.1 sample.2).Bounded ↔ s.Clear sample := by
  rcases recordSample_cases s sample with ⟨htakes, hsame⟩ | ⟨htakes, -, hoffset⟩
  · rw [hsame]
    exact iff_of_true h fun htakes' => absurd htakes' htakes
  · rcases applied_cases (s.samples.insert sample.1 sample.2) with ⟨hfew, hzero⟩ | ⟨v, hcard, hv, happlied⟩
    · exact iff_of_true (.inl (hoffset.trans hzero)) fun _ v hcard => absurd hfew (not_lt.2 hcard)
    · have hclear : s.Clear sample ↔
          ¬ (maxTimeAdjustmentMinutes * 60 < |v| ∧ |v| < (maxTimeAdjustmentMinutes + 1) * 60) :=
        ⟨fun hclear => hclear htakes v hcard hv, fun hv' _ w _ hw => hv.eq hw ▸ hv'⟩
      rw [happlied] at hoffset
      rw [hclear]
      split_ifs at hoffset with hclose
      · rw [bounded_seconds hoffset, ← not_lt]
        exact not_congr (and_iff_left hclose).symm
      · exact iff_of_true (.inl hoffset) fun hlt => hclose hlt.2

/-- An offset is where most of the samples are. -/
theorem Sound.mem_of_majority (h : Sound s)
    (hmost : s.samples.keys.card < 2 * s.samples.seconds.countP fun x =>
      lo ≤ Duration.seconds x ∧ Duration.seconds x ≤ hi) (hne : s.chain.timeOffset ≠ 0) :
    lo ≤ s.chain.timeOffset ∧ s.chain.timeOffset ≤ hi := by
  obtain ⟨v, -, hv, -, hoffset⟩ := h.resolve_left hne
  have hconnected : {x | lo ≤ Duration.seconds x ∧ Duration.seconds x ≤ hi}.OrdConnected :=
    ⟨fun x hx y hy z hz => ⟨hx.1.trans (seconds_le.2 hz.1), (seconds_le.2 hz.2).trans hy.2⟩⟩
  rw [← card_seconds] at hmost
  rw [hoffset]
  exact hv.mem_of_majority hconnected hmost

end NetworkTime

open NetworkTime in
/-- In the runs in which no median is in the minute after the bound, the offset is none or within
    the bound, and it is so in no others: the first such median is applied. In every run there is
    no offset with fewer than five samples, and one there is lies where most of them do. -/
theorem network_time (s : NetworkTime) :
    (timeRuns.ReachableBy NetworkTime.Clear s → s.Bounded) ∧
      (timeRuns.Reachable s → ∀ sample s', timeRuns.step s sample s' → s.Bounded →
        (s'.Bounded ↔ s.Clear sample)) ∧
      (timeRuns.Reachable s →
        (s.samples.keys.card < minSamplesToAdjust → s.chain.timeOffset = 0) ∧
        ∀ lo hi, (s.samples.keys.card < 2 * s.samples.seconds.countP fun x =>
            lo ≤ Duration.seconds x ∧ Duration.seconds x ≤ hi) →
          s.chain.timeOffset ≠ 0 → lo ≤ s.chain.timeOffset ∧ s.chain.timeOffset ≤ hi) := by
  refine ⟨fun hs => hs.invariant (fun s h => .inl h.2) ?_, ?_, fun hs => ⟨fun hfew => ?_,
    fun lo hi => (Sound.of_reachable hs).mem_of_majority⟩⟩
  · rintro s sample _ h hclear rfl
    exact (bounded_recordSample h sample).2 hclear
  · rintro - sample _ rfl h
    exact bounded_recordSample h sample
  · refine (Sound.of_reachable hs).resolve_right ?_
    rintro ⟨v, hcard, -⟩
    exact absurd hfew (not_lt.2 hcard)

namespace TimeSyncSample

def peer (n : UInt8) : IpAddr := .v4 ⟨10, 0, 0, n⟩

/-- Peers with clocks that are ahead by as many seconds. -/
def four (secs : ℤ) : NetworkTime :=
  ((((⟨∅, new⟩ : NetworkTime).recordSample (peer 1) (Duration.seconds secs)).recordSample (peer 2)
    (Duration.seconds secs)).recordSample (peer 3) (Duration.seconds secs)).recordSample (peer 4)
    (Duration.seconds secs)

def five (secs : ℤ) : NetworkTime := (four secs).recordSample (peer 5) (Duration.seconds secs)

theorem step_record (s : NetworkTime) (ip : IpAddr) (offset : Duration) :
    timeRuns.step s (ip, offset) (s.recordSample ip offset) := rfl

theorem reachable_four (secs : ℤ) : timeRuns.Reachable (four secs) :=
  .step (.step (.step (.step (.init ⟨rfl, rfl⟩) trivial (step_record _ _ _)) trivial (step_record _ _ _))
    trivial (step_record _ _ _)) trivial (step_record _ _ _)

theorem reachable_five (secs : ℤ) : timeRuns.Reachable (five secs) :=
  .step (reachable_four secs) trivial (step_record _ _ _)

end TimeSyncSample

open TimeSyncSample in
/-- Five peers that are seventy minutes and a half ahead move the clock by more than seventy. -/
theorem network_time_fails : timeRuns.Reachable (five 4230) ∧
    (five 4230).chain.timeOffset = Duration.seconds 4230 ∧
    Duration.seconds (maxTimeAdjustmentMinutes * 60) < |(five 4230).chain.timeOffset| ∧
    ¬ (five 4230).Bounded := by
  have htakes : (four 4230).Takes (peer 5) := by decide +kernel
  have hoffset : (five 4230).chain.timeOffset = Duration.seconds 4230 := by
    rcases NetworkTime.recordSample_cases (four 4230) (peer 5, Duration.seconds 4230) with
      ⟨hfull, -⟩ | ⟨-, -, hoffset⟩
    · exact absurd htakes hfull
    · exact hoffset.trans (NetworkTime.applied_eq (by decide +kernel) (by decide +kernel) (by decide))
  refine ⟨reachable_five 4230, hoffset, ?_, fun hbounded => ?_⟩
  · rw [hoffset]
    decide
  · exact absurd ((NetworkTime.bounded_seconds hoffset).1 hbounded) (by decide)

open TimeSyncSample in
/-- The fifth peer that is a minute ahead moves the clock within the bound, and by nothing but a
    minute. -/
theorem network_time_sample : (four 60).chain.timeOffset = 0 ∧ (five 60).Bounded ∧
    ((five 60).chain.timeOffset ≠ 0 → (five 60).chain.timeOffset ≤ Duration.seconds 60) := by
  obtain ⟨-, hstep, hfour⟩ := network_time (four 60)
  obtain ⟨-, -, hfive⟩ := network_time (five 60)
  have hzero : (four 60).chain.timeOffset = 0 := (hfour (reachable_four 60)).1 (by decide +kernel)
  have hmedian :
      IsUpperMedian (Samples.seconds ((four 60).samples.insert (peer 5) (Duration.seconds 60))) 60 := by
    decide +kernel
  refine ⟨hzero, ?_, fun hne => ?_⟩
  · refine (hstep (reachable_four 60) (peer 5, Duration.seconds 60) _ (step_record _ _ _) (.inl hzero)).2 ?_
    rintro - v - hv ⟨hlate, -⟩
    rw [hv.eq hmedian] at hlate
    exact absurd hlate (by decide)
  · exact ((hfive (reachable_five 60)).2 0 (Duration.seconds 60) (by decide +kernel) hne).2

open NetworkTime in
/-- Whatever the peers send, a chain is only given offsets it can add to its clock. -/
theorem record_received {s : NetworkTime} (hs : timeRuns.Reachable s) (c : Crypto) :
    Received c s.chain (.setTimeOffset s.chain.timeOffset) := by
  change -maxTimeOffset ≤ s.chain.timeOffset ∧ s.chain.timeOffset ≤ maxTimeOffset
  rcases Sound.of_reachable hs with hzero | ⟨v, -, -, hclose, hoffset⟩
  · rw [hzero]
    decide
  · rw [← abs_le, hoffset, abs_seconds, maxTimeOffset, seconds_le]
    exact hclose.le

end Itx
