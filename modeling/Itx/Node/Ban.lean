import Itx.Hub.Envelope
import Itx.Lib.Address
import Itx.Lib.Finmap
import Itx.Lib.System

/-!
# Bans

A peer that breaks the protocol is banned for an hour at once. One that sends a block or a
transaction that fails validation gets a strike, and is banned by the third within ten minutes
(`node/src/ban.rs`). What is kept of the strikes against an address is how many there have been in
a window that begins with the first of them, and when that was. A strike after the end of the
window begins another, and those of the window before are forgotten.

So three strikes within ten minutes of each other ban an address, unless one of them was the
second of a window that had lapsed by the next: then the count has begun anew with the one after
it, and the third finds a count of one (`Forgets`). These are all the exceptions (`ban_law`). A ban
holds for its hour, counted from the latest.
-/

namespace Itx

/-- `BAN_DURATION_HOURS`. -/
def banDurationHours : ℤ := 1

/-- `MAX_STRIKES`. -/
def maxStrikes : ℕ := 3

/-- `STRIKE_WINDOW_MINUTES`. -/
def strikeWindowMinutes : ℤ := 10

/-- `Duration::hours(BAN_DURATION_HOURS)`. -/
def banDuration : Duration := Duration.seconds (banDurationHours * 3600)

/-- `Duration::minutes(STRIKE_WINDOW_MINUTES)`. -/
def strikeWindow : Duration := Duration.seconds (strikeWindowMinutes * 60)

/-- `BANNED` and `STRIKES`, and the table of bans that outlives the process, in seconds. -/
structure Bans where
  banned : Finmap fun _ : IpAddr => DateTime
  strikes : Finmap fun _ : IpAddr => ℕ × DateTime
  table : Finmap fun _ : IpAddr => ℤ

namespace Bans

/-- `load_persisted`, from a table that can be read or not. -/
def loadPersisted (loads : Bool) (now : DateTime) (table : Finmap fun _ : IpAddr => ℤ) : Bans where
  banned := if loads then table.filterMap fun _ u => (fromTimestamp u).filter (· > now) else ∅
  strikes := ∅
  table

/-- `is_banned`. -/
def isBanned (s : Bans) (ip : IpAddr) (now : DateTime) : Bans × Bool :=
  match s.banned.lookup ip with
  | some u => if u > now then (s, true) else ({ s with banned := s.banned.erase ip }, false)
  | none => (s, false)

/-- `ban_now`. The clock is not within an hour of the end of its range. -/
def banNow (s : Bans) (ip : IpAddr) (now : DateTime) (saves : Bool) : Bans :=
  let u := now + banDuration
  { s with
    banned := s.banned.insert ip u
    table := if saves then s.table.insert ip (timestamp u) else s.table }

/-- The entry of an address once a strike has been counted. -/
def counted (s : Bans) (ip : IpAddr) (now : DateTime) : ℕ × DateTime :=
  let entry := (s.strikes.lookup ip).getD (0, now)
  let entry := if now - entry.2 > strikeWindow then (0, now) else entry
  (entry.1 + 1, entry.2)

/-- `strike`. A ban reads the clock again, at `later`. -/
def strike (s : Bans) (ip : IpAddr) (severe : Bool) (now later : DateTime) (saves : Bool) : Bans :=
  if severe then s.banNow ip later saves
  else
    let entry := s.counted ip now
    let s := { s with strikes := s.strikes.insert ip entry }
    if entry.1 ≥ maxStrikes then { s with strikes := s.strikes.erase ip }.banNow ip later saves else s

end Bans

/-! ## Runs -/

/-- An ordinary strike, and whether it banned its address. -/
structure Strike where
  ip : IpAddr
  time : DateTime
  banned : Bool
  deriving DecidableEq

/-- A node, with the ordinary strikes there have been, the latest first, and the latest ban of each
    address. -/
structure BanRun where
  bans : Bans
  clock : DateTime
  struck : List Strike
  bannedAt : Finmap fun _ : IpAddr => DateTime

/-- What may happen. -/
inductive BanOp
  | strike (ip : IpAddr) (severe : Bool) (now later : DateTime) (saves : Bool)
  | isBanned (ip : IpAddr) (now : DateTime)
  deriving DecidableEq

namespace BanRun

/-- The clock does not go back. -/
def Enabled (r : BanRun) : BanOp → Prop
  | .strike _ _ now later _ => r.clock ≤ now ∧ now ≤ later
  | .isBanned _ now => r.clock ≤ now

instance (r : BanRun) (op : BanOp) : Decidable (r.Enabled op) :=
  match op with
  | .strike .. => inferInstanceAs (Decidable (_ ∧ _))
  | .isBanned .. => inferInstanceAs (Decidable (_ ≤ _))

def after (r : BanRun) : BanOp → BanRun
  | .strike ip severe now later saves =>
    let bans := r.bans.strike ip severe now later saves
    let banned := severe || decide ((r.bans.counted ip now).1 ≥ maxStrikes)
    { bans
      clock := later
      struck := if severe then r.struck else ⟨ip, now, banned⟩ :: r.struck
      bannedAt := if banned then r.bannedAt.insert ip later else r.bannedAt }
  | .isBanned ip now => { r with bans := (r.bans.isBanned ip now).1, clock := now }

end BanRun

/-- The runs of a node that has been started. -/
def banRuns : System BanRun BanOp where
  init := {r | ∃ loads now table, r = ⟨.loadPersisted loads now table, now, [], ∅⟩}
  step r op r' := r.Enabled op ∧ r' = r.after op

/-! ## The law -/

/-- The ordinary strikes against an address since one banned it, the latest first. -/
def sinceBan (ip : IpAddr) (struck : List Strike) : List DateTime :=
  ((struck.filter fun strike => strike.ip = ip).takeWhile fun strike => !strike.banned).map Strike.time

/-- A strike and two earlier ones are within the window of each other. -/
def ThreeClose (t : DateTime) (earlier : List DateTime) : Prop :=
  ∃ two, two.Sublist earlier ∧ two.length = 2 ∧
    (t :: two).Pairwise fun a b => |a - b| ≤ strikeWindow

namespace BanRun

/-- The ordinary strikes that banned an address are those that were the third of three. -/
def Lawful (r : BanRun) : Prop :=
  ∀ strike earlier, strike :: earlier <:+ r.struck →
    (strike.banned = true ↔ ThreeClose strike.time (sinceBan strike.ip earlier))

/-- A strike finds a count of one, and the strike before that one is in the window of its own. -/
def Forgets (r : BanRun) (ip : IpAddr) (now : DateTime) : Prop :=
  (∃ start, r.bans.strikes.lookup ip = some (1, start)) ∧
    ∃ t, (sinceBan ip r.struck)[1]? = some t ∧ now - t ≤ strikeWindow

/-- No ordinary strike is one of three of which one is forgotten. -/
def Recalls (r : BanRun) : BanOp → Prop
  | .strike ip severe now _ _ => severe = false → ¬ r.Forgets ip now
  | .isBanned _ _ => True

end BanRun

variable {t now later : DateTime} {times : List DateTime} {ip : IpAddr} {struck : List Strike}

/-- In order, the two latest strikes are the ones that matter. -/
theorem threeClose_iff (hsorted : times.Pairwise (· ≥ ·)) (hle : ∀ x ∈ times, x ≤ t) :
    ThreeClose t times ↔ ∃ x, times[1]? = some x ∧ t - x ≤ strikeWindow := by
  constructor
  · rintro ⟨two, hsub, hlen, hclose⟩
    obtain ⟨a, b, rfl⟩ := List.length_eq_two.1 hlen
    have hb : t - b ≤ strikeWindow :=
      (le_abs_self _).trans (List.rel_of_pairwise_cons hclose (by simp))
    rcases times with _ | ⟨y, _ | ⟨x, rest⟩⟩
    · cases hsub
    · exact absurd hsub.length_le (by simp)
    · refine ⟨x, rfl, ?_⟩
      -- The earlier of the two is not the latest of all.
      have hmem : b ∈ x :: rest := List.singleton_sublist.1 hsub.tail
      have hbx : b ≤ x := by
        rcases List.mem_cons.1 hmem with rfl | hmem
        · exact le_rfl
        · exact List.rel_of_pairwise_cons (List.Pairwise.of_cons hsorted) hmem
      exact (sub_le_sub_left hbx t).trans hb
  · rintro ⟨x, hx, hclose⟩
    rcases times with _ | ⟨y, _ | ⟨x', rest⟩⟩
    · cases hx
    · cases hx
    · obtain rfl := Option.some.inj hx
      have hxy : x' ≤ y := List.rel_of_pairwise_cons hsorted List.mem_cons_self
      have hyt : y ≤ t := hle y List.mem_cons_self
      refine ⟨[y, x'], by simp, rfl, ?_⟩
      simp only [List.pairwise_cons, List.mem_cons, List.not_mem_nil, or_false, forall_eq_or_imp,
        forall_eq, IsEmpty.forall_iff, implies_true, List.Pairwise.nil, and_true, abs_le]
      unfold DateTime Duration at *
      omega

/-! ## What is kept of the strikes -/

theorem sinceBan_cons (strike : Strike) : sinceBan ip (strike :: struck) =
    if strike.ip = ip then if strike.banned then [] else strike.time :: sinceBan ip struck
    else sinceBan ip struck := by
  rw [sinceBan, List.filter_cons]
  by_cases hip : strike.ip = ip
  · rw [if_pos (decide_eq_true hip), if_pos hip, List.takeWhile_cons]
    cases strike.banned <;> rfl
  · rw [if_neg (by simpa using hip), if_neg hip, sinceBan]

theorem sinceBan_sublist (ip : IpAddr) (struck : List Strike) :
    (sinceBan ip struck).Sublist (struck.map Strike.time) :=
  ((List.takeWhile_sublist _).trans List.filter_sublist).map Strike.time

namespace BanRun

variable {r : BanRun} {op : BanOp} {severe saves : Bool}

/-- The entry of an address: no strike, the last one, or the last but one. -/
def Kept (entry : Option (ℕ × DateTime)) (times : List DateTime) : Prop :=
  match entry with
  | none => times = []
  | some (n, start) => n = 1 ∧ times.head? = some start ∨ n = 2 ∧ times[1]? = some start

/-- Strikes are in order, the entries are what is kept of them, and the bans are those of the
    latest ones, unless they have ended. -/
structure Sound (r : BanRun) : Prop where
  sorted : (r.struck.map Strike.time).Pairwise (· ≥ ·)
  past : ∀ t ∈ r.struck.map Strike.time, t ≤ r.clock
  kept : ∀ ip, Kept (r.bans.strikes.lookup ip) (sinceBan ip r.struck)
  bans : ∀ ip t, r.bannedAt.lookup ip = some t →
    r.bans.banned.lookup ip = some (t + banDuration) ∨
      r.bans.banned.lookup ip = none ∧ t + banDuration ≤ r.clock

/-- An ordinary strike bans if the two latest since the last ban are in its window, unless one of
    them is forgotten. What is kept after it is kept of the strikes with it. -/
theorem Sound.counted (h : Sound r) (hnow : r.clock ≤ now) (ip : IpAddr) :
    (((r.bans.counted ip now).1 ≥ maxStrikes ↔ ThreeClose now (sinceBan ip r.struck)) ↔
        ¬ r.Forgets ip now) ∧
      ((r.bans.counted ip now).1 < maxStrikes →
        Kept (some (r.bans.counted ip now)) (now :: sinceBan ip r.struck)) := by
  have hclose := threeClose_iff (t := now) (h.sorted.sublist (sinceBan_sublist ip r.struck))
    fun x hx => (h.past x ((sinceBan_sublist ip r.struck).subset hx)).trans hnow
  have hkept := h.kept ip
  rw [hclose, Forgets, Bans.counted]
  rcases hlookup : r.bans.strikes.lookup ip with _ | ⟨n, start⟩ <;> rw [hlookup] at hkept
  · -- The first strike.
    change sinceBan ip r.struck = [] at hkept
    simp [hkept, maxStrikes, Kept]
  · rcases hkept with ⟨rfl, hhead⟩ | ⟨rfl, hsecond⟩
    · by_cases hlapsed : now - start > strikeWindow
      · simp [hlapsed, maxStrikes, Kept]
      · have hget : (sinceBan ip r.struck)[0]? = some start := List.head?_eq_getElem?.symm.trans hhead
        simp [hlapsed, maxStrikes, Kept, hget]
    · by_cases hlapsed : now - start > strikeWindow
      · have hlate : strikeWindow + start < now := lt_sub_iff_add_lt.1 hlapsed
        simp [hlapsed, hsecond, hlate, maxStrikes, Kept]
      · have hclose : now ≤ strikeWindow + start :=
          sub_le_iff_le_add.1 (not_lt.1 hlapsed)
        simp [hlapsed, hsecond, hclose, maxStrikes, Kept]

/-- What an ordinary strike leaves. -/
theorem strikes_strike (bans : Bans) (ip x : IpAddr) (now later : DateTime) (saves : Bool) :
    (bans.strike ip false now later saves).strikes.lookup x =
      if x = ip then if (bans.counted ip now).1 ≥ maxStrikes then none else some (bans.counted ip now)
      else bans.strikes.lookup x := by
  rw [Bans.strike, if_neg Bool.false_ne_true]
  by_cases hban : (bans.counted ip now).1 ≥ maxStrikes
  · rw [if_pos hban, if_pos hban, Bans.banNow, Finmap.lookup_erase_eq, Finmap.lookup_insert_eq]
    split_ifs <;> rfl
  · rw [if_neg hban, if_neg hban, Finmap.lookup_insert_eq]

theorem banned_strike (bans : Bans) (ip x : IpAddr) (severe : Bool) (now later : DateTime) (saves : Bool) :
    (bans.strike ip severe now later saves).banned.lookup x =
      if (severe || decide ((bans.counted ip now).1 ≥ maxStrikes)) = true ∧ x = ip then
        some (later + banDuration)
      else bans.banned.lookup x := by
  rw [Bans.strike]
  cases severe with
  | true => simp [Bans.banNow, Finmap.lookup_insert_eq]
  | false =>
    by_cases hban : (bans.counted ip now).1 ≥ maxStrikes
    · simp [hban, Bans.banNow, Finmap.lookup_insert_eq]
    · simp [hban]

theorem Sound.strike (h : Sound r) (hnow : r.clock ≤ now) (hlater : now ≤ later) :
    Sound (r.after (.strike ip severe now later saves)) := by
  have hclock : r.clock ≤ later := hnow.trans hlater
  have hbans : ∀ x t, (r.after (.strike ip severe now later saves)).bannedAt.lookup x = some t →
      (r.bans.strike ip severe now later saves).banned.lookup x =
        some (t + banDuration) ∨
      (r.bans.strike ip severe now later saves).banned.lookup x = none ∧
        t + banDuration ≤ later := by
    intro x t ht
    rw [banned_strike]
    dsimp only [after] at ht
    by_cases hban : (severe || decide ((r.bans.counted ip now).1 ≥ maxStrikes)) = true
    · rw [if_pos hban, Finmap.lookup_insert_eq] at ht
      by_cases hx : x = ip
      · rw [if_pos hx] at ht
        obtain rfl := Option.some.inj ht
        exact .inl (if_pos ⟨hban, hx⟩)
      · rw [if_neg hx] at ht
        rw [if_neg fun hand => hx hand.2]
        exact (h.bans x t ht).imp_right (And.imp_right hclock.trans')
    · rw [if_neg hban] at ht
      rw [if_neg fun hand => hban hand.1]
      exact (h.bans x t ht).imp_right (And.imp_right hclock.trans')
  cases severe with
  | true => exact ⟨h.sorted, fun t ht => (h.past t ht).trans hclock, h.kept, hbans⟩
  | false =>
    refine ⟨?_, ?_, fun x => ?_, hbans⟩
    · exact List.pairwise_cons.2 ⟨fun t ht => (h.past t ht).trans hnow, h.sorted⟩
    · rintro t (_ | ⟨_, ht⟩)
      · exact hlater
      · exact (h.past t ht).trans hclock
    · change Kept ((r.bans.strike ip false now later saves).strikes.lookup x)
        (sinceBan x (⟨ip, now, false || decide ((r.bans.counted ip now).1 ≥ maxStrikes)⟩ :: r.struck))
      rw [strikes_strike, sinceBan_cons, Bool.false_or]
      by_cases hx : x = ip
      · subst hx
        by_cases hban : (r.bans.counted x now).1 ≥ maxStrikes
        · simp [hban, Kept]
        · simpa [hban] using (h.counted hnow x).2 (not_le.1 hban)
      · rw [if_neg hx, if_neg (Ne.symm hx)]
        exact h.kept x

theorem Sound.isBanned (h : Sound r) (hnow : r.clock ≤ now) : Sound (r.after (.isBanned ip now)) := by
  have hstrikes : (r.bans.isBanned ip now).1.strikes = r.bans.strikes := by
    rw [Bans.isBanned]
    split
    · split_ifs <;> rfl
    · rfl
  refine ⟨h.sorted, fun t ht => (h.past t ht).trans hnow, fun x => ?_, fun x t ht => ?_⟩
  · dsimp only [after]
    rw [hstrikes]
    exact h.kept x
  · -- An entry is only removed once it is in the past.
    have hold := h.bans x t ht
    dsimp only [after]
    rw [Bans.isBanned]
    split
    · next u hu =>
      split_ifs with hlate
      · exact hold.imp_right (And.imp_right hnow.trans')
      · rw [Finmap.lookup_erase_eq]
        split_ifs with hx
        · subst hx
          rcases hold with hsome | ⟨hnone, -⟩
          · rw [hu] at hsome
            exact .inr ⟨rfl, Option.some.inj hsome ▸ not_lt.1 hlate⟩
          · rw [hu] at hnone
            cases hnone
        · exact hold.imp_right (And.imp_right hnow.trans')
    · exact hold.imp_right (And.imp_right hnow.trans')

theorem Sound.of_reachable (hr : banRuns.Reachable r) : Sound r := by
  refine hr.invariant ?_ ?_
  · rintro _ ⟨loads, now, table, rfl⟩
    exact ⟨.nil, nofun, fun _ => rfl, nofun⟩
  · rintro r op _ h - ⟨henabled, rfl⟩
    cases op with
    | strike ip severe now later saves => exact h.strike henabled.1 henabled.2
    | isBanned ip now => exact h.isBanned henabled

/-! ## When the law holds -/

/-- The law goes on to hold exactly if the strike is not one of three of which one is forgotten. -/
theorem lawful_after (h : Sound r) (henabled : r.Enabled op) :
    (r.after op).Lawful ↔ r.Lawful ∧ r.Recalls op := by
  cases op with
  | isBanned ip now => exact (and_iff_left trivial).symm
  | strike ip severe now later saves =>
    cases severe with
    | true => exact (and_iff_left (nofun : Recalls r (.strike ip true now later saves))).symm
    | false =>
      have hcounted := (h.counted henabled.1 ip).1
      have hbanned : (false || decide ((r.bans.counted ip now).1 ≥ maxStrikes)) = true ↔
          (r.bans.counted ip now).1 ≥ maxStrikes := by
        rw [Bool.false_or, decide_eq_true_iff]
      constructor
      · intro hlaw
        refine ⟨fun strike earlier hsuffix => hlaw strike earlier (hsuffix.trans (List.suffix_cons _ _)),
          fun _ => hcounted.1 ?_⟩
        exact hbanned.symm.trans (hlaw _ _ List.suffix_rfl)
      · rintro ⟨hlaw, hrecalls⟩ strike earlier hsuffix
        rcases List.suffix_cons_iff.1 hsuffix with heq | hsuffix
        · obtain ⟨rfl, rfl⟩ := List.cons.inj heq
          exact hbanned.trans (hcounted.2 (hrecalls rfl))
        · exact hlaw strike earlier hsuffix

/-- Whether an address is banned: for an hour from the latest ban. -/
theorem isBanned_iff (h : Sound r) (hban : r.bannedAt.lookup ip = some t) (hnow : r.clock ≤ now) :
    (r.bans.isBanned ip now).2 = true ↔ now < t + banDuration := by
  rw [Bans.isBanned]
  rcases h.bans ip t hban with hsome | ⟨hnone, hended⟩
  · rw [hsome]
    dsimp only
    by_cases hlate : t + banDuration > now
    · rw [if_pos hlate]
      exact iff_of_true rfl hlate
    · rw [if_neg hlate]
      exact iff_of_false Bool.false_ne_true hlate
  · rw [hnone]
    exact iff_of_false Bool.false_ne_true (not_lt.2 (hended.trans hnow))

end BanRun

/-- In the runs in which no strike is one of three of which one is forgotten, an ordinary strike
    bans its address exactly if it is the third of three within ten minutes of each other, since a
    strike last banned it. It is so in no others: the law is broken by the first such strike. In
    every run, an address is banned for an hour from its latest ban. -/
theorem ban_law (r : BanRun) :
    (banRuns.ReachableBy BanRun.Recalls r → r.Lawful) ∧
      (banRuns.Reachable r → ∀ op r', banRuns.step r op r' → (r'.Lawful ↔ r.Lawful ∧ r.Recalls op)) ∧
      (banRuns.Reachable r → ∀ ip t now, r.bannedAt.lookup ip = some t → r.clock ≤ now →
        ((r.bans.isBanned ip now).2 = true ↔ now < t + banDuration)) := by
  refine ⟨fun hr => ?_, ?_, fun hr ip t now hban hnow =>
    BanRun.isBanned_iff (.of_reachable hr) hban hnow⟩
  · refine hr.invariant_of (J := BanRun.Sound) (fun r hr => .of_reachable hr.reachable) ?_ ?_
    · rintro _ ⟨loads, now, table, rfl⟩ strike earlier hsuffix
      exact absurd hsuffix.length_le (by simp)
    · rintro r op _ hsound hlaw hrecalls ⟨henabled, rfl⟩
      exact (BanRun.lawful_after hsound henabled).2 ⟨hlaw, hrecalls⟩
  · rintro hr op _ ⟨henabled, rfl⟩
    exact BanRun.lawful_after (.of_reachable hr) henabled

namespace BanSample

def peer : IpAddr := .v4 ⟨127, 0, 0, 1⟩

/-- Some minutes after the start. -/
def minute (n : ℤ) : DateTime := Duration.seconds (n * 60)

def start : BanRun := ⟨.loadPersisted true 0 ∅, 0, [], ∅⟩

/-- An ordinary strike. -/
def strikeAt (n : ℤ) : BanOp := .strike peer false (minute n) (minute n) true

/-- The second strike is forgotten with the third, and is in the window of both. -/
def forgotten : BanRun :=
  (((start.after (strikeAt 0)).after (strikeAt 9)).after (strikeAt 11)).after (strikeAt 12)

/-- Three strikes in a row. -/
def sustained : BanRun := ((start.after (strikeAt 0)).after (strikeAt 4)).after (strikeAt 8)

theorem init_start : start ∈ banRuns.init := ⟨true, 0, ∅, rfl⟩

theorem reachable_forgotten : banRuns.Reachable forgotten :=
  .step (.step (.step (.step (.init init_start) trivial ⟨by decide +kernel, rfl⟩) trivial
    ⟨by decide +kernel, rfl⟩) trivial ⟨by decide +kernel, rfl⟩) trivial ⟨by decide +kernel, rfl⟩

end BanSample

open BanSample in
/-- Strikes at `0`, `9`, `11` and `12` minutes: the last three are within three minutes of each
    other, and do not ban. -/
theorem ban_law_fails : banRuns.Reachable forgotten ∧
    ThreeClose (minute 12) [minute 11, minute 9, 0] ∧
    forgotten.struck.head?.map Strike.banned = some false ∧
    (forgotten.bans.isBanned peer (minute 12)).2 = false ∧ ¬ forgotten.Lawful := by
  have hclose : ThreeClose (minute 12) [minute 11, minute 9, 0] :=
    (threeClose_iff (by decide +kernel) (by decide +kernel)).2
      ⟨minute 9, rfl, by decide +kernel⟩
  refine ⟨reachable_forgotten, hclose, by decide +kernel, by decide +kernel, fun hlaw => ?_⟩
  have hlast := hlaw ⟨peer, minute 12, false⟩ [⟨peer, minute 11, false⟩,
    ⟨peer, minute 9, false⟩, ⟨peer, 0, false⟩] (by decide +kernel)
  have hsince : sinceBan peer [⟨peer, minute 11, false⟩, ⟨peer, minute 9, false⟩,
      ⟨peer, 0, false⟩] = [minute 11, minute 9, 0] := by decide +kernel
  exact Bool.false_ne_true (hlast.2 (hsince ▸ hclose))

open BanSample in
/-- Strikes at `0`, `4` and `8` minutes ban, for an hour. -/
theorem ban_law_sample : sustained.Lawful ∧ sustained.struck.head?.map Strike.banned = some true ∧
    (sustained.bans.isBanned peer (minute 67)).2 = true := by
  obtain ⟨hlaw, -, hban⟩ := ban_law sustained
  have hsecond : (sinceBan peer (start.after (strikeAt 0)).struck)[1]? = none := by decide +kernel
  have hcount : ((start.after (strikeAt 0)).after (strikeAt 4)).bans.strikes.lookup peer = some (2, 0) := by
    decide +kernel
  have hrun : banRuns.ReachableBy BanRun.Recalls sustained := by
    refine .step (.step (.step (.init init_start) ?_ ⟨by decide +kernel, rfl⟩) ?_
      ⟨by decide +kernel, rfl⟩) ?_ ⟨by decide +kernel, rfl⟩
    · rintro - ⟨⟨_, hnone⟩, -⟩
      cases hnone
    · rintro - ⟨-, _, hsome, -⟩
      cases hsecond.symm.trans hsome
    · rintro - ⟨⟨_, hone⟩, -⟩
      cases hcount.symm.trans hone
  exact ⟨hlaw hrun, by decide +kernel,
    (hban hrun.reachable peer (minute 8) (minute 67) (by decide +kernel)
      (by decide +kernel)).2 (by decide +kernel)⟩

end Itx
