import Itx.Lib.System
import Itx.Lib.Call
import Itx.Hub.Envelope

/-!
# The replay guard

A hub accepts a signed request once (`hub/src/auth.rs`). Its guard remembers the
signatures it accepted, in memory for the check and in a table of the store for the
next process (`hub/src/store.rs`), and forgets a signature when the drift check would
refuse it anyway. A process that cannot read the table refuses every request for as
long as a signature of the process before could be replayed.

A run of the guard: requests are verified, the sweep forgets, and the process crashes
and starts again, from its table (`restore`) or without it (`booting`). A commit may
fail, and a failed commit may have reached the disk.

The invariant is that what was accepted and could still pass the drift check is
remembered (`Remembers`): by the table, and, of the process that runs, by its memory
or by its refusal of every request until then. The memory may hold the time the table
has, in whole seconds, so it is exact to the second only.
-/

namespace Itx

open Blockchain Call

/-! ## The guard -/

/-- `REPLAY_MEMORY_SECONDS`. -/
def replayMemorySeconds : ℤ := 2 * maxRequestDriftSeconds

/-- `forget_before`, none out of the range of times. -/
def forgetBefore (now : DateTime) : Option DateTime :=
  addDuration now (-Duration.seconds (replayMemorySeconds + 1))

/-- `REPLAY_GUARD_TABLE`: the signatures, each with the second it was seen in. -/
abbrev SeenTable := Finmap fun _ : Bytes => ℤ

/-- The end of a transaction of the store: a failed one may be kept nonetheless. -/
inductive Write
  | committed
  | failed (message : Text) (kept : Bool)

/-- What a transaction makes of the table. -/
def Write.commit (write : Write) (f : SeenTable → SeenTable) (table : SeenTable) : SeenTable :=
  match write with
  | .committed => f table
  | .failed _ kept => if kept then f table else table

/-- `HubStore::record_seen_signature`. -/
def recordSeenSignature (signature : Bytes) (seenAtUnix : ℤ) (table : SeenTable) : SeenTable :=
  table.insert signature seenAtUnix

/-- `HubStore::load_recent_signatures`. -/
def loadRecentSignatures (cutoffUnix : ℤ) (table : SeenTable) : SeenTable :=
  table.filterMap fun _ seenAt => if cutoffUnix < seenAt then some seenAt else none

/-- `HubStore::prune_seen_signatures`. -/
def pruneSeenSignatures (cutoffUnix : ℤ) (table : SeenTable) : SeenTable :=
  table.filterMap fun _ seenAt => if cutoffUnix < seenAt then some seenAt else none

/-- `ReplayGuard`, less its counters. -/
structure ReplayGuard where
  seen : Finmap fun _ : Bytes => DateTime
  acceptingFrom : Option DateTime

/-- A guard and the table it writes to. -/
structure Guarded where
  guard : ReplayGuard
  table : SeenTable

namespace ReplayGuard

/-- `ReplayGuard::restore`, none when it panics. -/
def restore (table : SeenTable) (now : DateTime) : Option ReplayGuard := do
  let cutoff ← forgetBefore now
  let recent := loadRecentSignatures (timestamp cutoff) table
  some ⟨recent.filterMap fun _ seenAtUnix => fromTimestamp seenAtUnix, none⟩

/-- `ReplayGuard::booting`, none when it panics. -/
def booting (startedAt : DateTime) : Option ReplayGuard := do
  let acceptingFrom ← addDuration startedAt (Duration.seconds replayMemorySeconds)
  some ⟨∅, some acceptingFrom⟩

/-- `ReplayGuard::refuses_at`. -/
def RefusesAt (guard : ReplayGuard) (now : DateTime) : Prop := ∃ t ∈ guard.acceptingFrom, now < t

instance (guard : ReplayGuard) (now : DateTime) : Decidable (guard.RefusesAt now) :=
  inferInstanceAs (Decidable (∃ t ∈ guard.acceptingFrom, now < t))

/-- `self.seen.insert`. -/
def insertSeen (guard : ReplayGuard) (signature : Bytes) (now : DateTime) : ReplayGuard :=
  { guard with seen := guard.seen.insert signature now }

/-- `cleanup_replay_guard`. -/
def cleanupSeen (guard : ReplayGuard) (cutoff : DateTime) : ReplayGuard :=
  { guard with
    seen := guard.seen.filterMap fun _ seenAt => if cutoff < seenAt then some seenAt else none }

/-- `ReplayGuard::claim`. -/
def claim (write : Write) (signature : Bytes) (now : DateTime) :
    Call Guarded EnvelopeError Unit := do
  let s ← Call.get
  Call.modify fun s => { s with guard := s.guard.insertSeen signature now }
  Call.lift (Outcome.ensure (signature ∉ s.guard.seen) .replayed)
  Call.modify fun s =>
    { s with table := write.commit (recordSeenSignature signature (timestamp now)) s.table }
  match write with
  | .committed => pure ()
  | .failed message _ => Call.lift (.err (.guardUnavailable message))

/-- `ReplayGuard::cleanup`. -/
def cleanup (write : Write) (now : DateTime) : Call Guarded Empty Unit := do
  let cutoff ← Call.lift (.expect (forgetBefore now))
  Call.modify fun s => { s with guard := s.guard.cleanupSeen cutoff }
  Call.modify fun s => { s with table := write.commit (pruneSeenSignatures (timestamp cutoff)) s.table }

end ReplayGuard

/-- `VerifyError`, with the reason a charge was refused for. -/
inductive VerifyError (Q : Type)
  | auth (error : EnvelopeError)
  | quota (exceeded : Q)

variable {T Q : Type} (c : Crypto) (x : Codecs T)

/-- `VerifyEnvelope::verify_charging`. -/
def SignedEnvelope.verifyCharging (e : SignedEnvelope T) (now : DateTime) (hub method path : Text)
    (charge : PublicKey → Outcome Q Unit) (write : Write) :
    Call Guarded (VerifyError Q) PublicKey := do
  let s ← Call.get
  Call.lift (Outcome.ensure (¬s.guard.RefusesAt now) (.auth .guardWarmingUp))
  let pubkey ← Call.lift ((e.verifySignature c x now method path hub).mapErr .auth)
  let signatureBytes ← Call.lift (x.hexDecode e.signature).unwrap
  Call.lift (Outcome.ensure (signatureBytes ∉ s.guard.seen) (.auth .replayed))
  Call.lift ((charge pubkey).mapErr .quota)
  Call.mapErr .auth (ReplayGuard.claim write signatureBytes now)
  pure pubkey

/-! ## Runs -/

/-- A request that was accepted, with the endpoint it came to and when. -/
structure Acceptance (T : Type) where
  envelope : SignedEnvelope T
  method : Text
  path : Text
  hub : Text
  acceptedAt : DateTime

/-- The state of a run: the guard of the process, if there is one, the table, the time
    last read, and the requests accepted so far. -/
structure ReplayState (T : Type) where
  guard : Option ReplayGuard
  table : SeenTable
  clock : DateTime
  accepted : List (Acceptance T)

/-- The steps of a run. -/
inductive ReplayOp (T Q : Type)
  /-- `verify_charging`. -/
  | verify (now : DateTime) (e : SignedEnvelope T) (hub method path : Text)
      (charge : PublicKey → Outcome Q Unit) (write : Write)
  /-- `cleanup`, by the sweep. -/
  | cleanup (now : DateTime) (write : Write)
  /-- The process stops. -/
  | crash
  /-- A process starts, and reads the table. -/
  | restore (now : DateTime)
  /-- A process starts, and cannot read it. -/
  | booting (now : DateTime)

/-- The state after a step. Without a process nothing is verified or forgotten. -/
def ReplayOp.after (s : ReplayState T) : ReplayOp T Q → ReplayState T
  | .verify now e hub method path charge write =>
    match s.guard with
    | none => s
    | some guard =>
      match e.verifyCharging c x now hub method path charge write ⟨guard, s.table⟩ with
      | (g, .ok _) => ⟨some g.guard, g.table, now, ⟨e, method, path, hub, now⟩ :: s.accepted⟩
      | (g, _) => ⟨some g.guard, g.table, now, s.accepted⟩
  | .cleanup now write =>
    match s.guard with
    | none => s
    | some guard =>
      let g := (ReplayGuard.cleanup write now ⟨guard, s.table⟩).1
      ⟨some g.guard, g.table, now, s.accepted⟩
  | .crash => { s with guard := none }
  | .restore now => { s with guard := ReplayGuard.restore s.table now, clock := now }
  | .booting now => { s with guard := ReplayGuard.booting now, clock := now }

/-- A time of the clock. -/
def ClockTime (now : DateTime) : Prop := minDateTime ≤ now ∧ now ≤ maxDateTime

/-- The clock does not go back, and a process starts after the last acceptance. -/
def ReplayOp.Enabled (s : ReplayState T) : ReplayOp T Q → Prop
  | .verify now .. => ClockTime now ∧ s.clock ≤ now
  | .cleanup now _ => ClockTime now ∧ s.clock ≤ now
  | .crash => True
  | .restore now => ClockTime now ∧ s.clock ≤ now ∧ ∀ a ∈ s.accepted, a.acceptedAt < now
  | .booting now => ClockTime now ∧ s.clock ≤ now ∧ ∀ a ∈ s.accepted, a.acceptedAt < now

instance (now : DateTime) : Decidable (ClockTime now) := inferInstanceAs (Decidable (_ ∧ _))

instance (s : ReplayState T) (op : ReplayOp T Q) : Decidable (op.Enabled s) :=
  match op with
  | .verify .. => inferInstanceAs (Decidable (_ ∧ _))
  | .cleanup .. => inferInstanceAs (Decidable (_ ∧ _))
  | .crash => inferInstanceAs (Decidable True)
  | .restore _ => inferInstanceAs (Decidable (_ ∧ _ ∧ ∀ a ∈ s.accepted, _))
  | .booting _ => inferInstanceAs (Decidable (_ ∧ _ ∧ ∀ a ∈ s.accepted, _))

/-- The runs of the guard, from a table of another run. -/
def replaySystem (T Q : Type) (c : Crypto) (x : Codecs T) : System (ReplayState T) (ReplayOp T Q) where
  init := {s | s.guard = none ∧ s.accepted = []}
  step s op s' := op.Enabled s ∧ s' = op.after c x s

/-! ## What a verification does -/

variable {c x} {s s' : Guarded} {guard : ReplayGuard} {table : SeenTable} {σ : Bytes}
  {now t : DateTime} {e : SignedEnvelope T} {hub method path : Text}
  {charge : PublicKey → Outcome Q Unit} {write : Write}

/-- A signature has been claimed: in memory, and perhaps in the table. -/
structure Claimed (σ : Bytes) (now : DateTime) (s s' : Guarded) : Prop where
  guard : s'.guard = s.guard.insertSeen σ now
  table : s'.table = s.table ∨ s'.table = recordSeenSignature σ (timestamp now) s.table

/-- A verification that does not accept leaves the guard as it is, or with the signature
    claimed. -/
def Unaccepted (now : DateTime) (s s' : Guarded) : Prop := s' = s ∨ ∃ σ, Claimed σ now s s'

theorem Write.commit_eq (write : Write) (f : SeenTable → SeenTable) (table : SeenTable) :
    write.commit f table = table ∨ write.commit f table = f table := by
  rcases write with _ | ⟨message, _ | _⟩
  exacts [.inr rfl, .inl rfl, .inr rfl]

theorem ReplayGuard.triple_claim (write : Write) (σ : Bytes) (now : DateTime) (s : Guarded) :
    Triple (· = s) (ReplayGuard.claim write σ now)
      (fun _ s' => s'.guard = s.guard.insertSeen σ now ∧
        s'.table = recordSeenSignature σ (timestamp now) s.table)
      (fun _ s' => Claimed σ now s s') fun _ => False := by
  refine .get_bind fun s₀ hs₀ => ?_
  subst hs₀
  refine .modify_bind (.lift_known (fun _ _ => .modify_bind ?_) (fun _ _ => ⟨rfl, .inl rfl⟩)
    fun h => absurd h Outcome.ensure_ne_panic)
  rcases write with _ | ⟨message, kept⟩
  · exact .pure fun s' hs' => hs' ▸ ⟨rfl, rfl⟩
  · refine .lift nofun (fun _ s' hs' _ => ?_) nofun
    subst hs'
    exact ⟨rfl, Write.commit_eq (.failed message kept) _ _⟩

/-- A request is accepted when the guard does not refuse every request, the envelope
    verifies, and its signature is new; the signature is then recorded. -/
theorem triple_verifyCharging (e : SignedEnvelope T) (now : DateTime)
    (hub method path : Text) (charge : PublicKey → Outcome Q Unit) (write : Write) (s : Guarded) :
    Triple (· = s) (e.verifyCharging c x now hub method path charge write)
      (fun key s' => ¬s.guard.RefusesAt now ∧
        e.verifySignature c x now method path hub = .ok key ∧
        ∃ σ, x.hexDecode e.signature = .ok σ ∧ σ ∉ s.guard.seen ∧
          s'.guard = s.guard.insertSeen σ now ∧
          s'.table = recordSeenSignature σ (timestamp now) s.table)
      (fun _ s' => Unaccepted now s s') fun s' => Unaccepted now s s' := by
  refine .get_bind fun s₀ hs₀ => ?_
  subst hs₀
  refine .lift_known (fun _ hopen => ?_) (fun _ _ => .inl rfl) fun _ => .inl rfl
  refine .lift_known (fun key hkey => ?_) (fun _ _ => .inl rfl) fun _ => .inl rfl
  refine .lift_known (fun σ hσ => ?_) (fun _ _ => .inl rfl) fun _ => .inl rfl
  refine .lift_known (fun _ hnew => ?_) (fun _ _ => .inl rfl) fun _ => .inl rfl
  refine .lift_known (fun _ _ => ?_) (fun _ _ => .inl rfl) fun _ => .inl rfl
  refine .bind (.mapErr ((ReplayGuard.triple_claim write σ now s₀).conseq (fun _ => id)
    (fun _ _ => id) (fun _ s' h => .inr ⟨σ, h⟩) nofun)) fun _ => .pure fun s' h => ?_
  exact ⟨Outcome.ensure_eq_ok.1 hopen, Outcome.mapErr_eq_ok.1 hkey, σ, Outcome.unwrap_eq_ok.1 hσ,
    Outcome.ensure_eq_ok.1 hnew, h⟩

/-! ## What is remembered -/

/-- The signature `σ`, accepted at `t`, is remembered: in the table, and, of a process
    that runs, in memory, or as it refuses every request for long enough. -/
structure Remembers (guard : Option ReplayGuard) (table : SeenTable) (σ : Bytes) (t : DateTime) :
    Prop where
  stored : ∃ seenAt, ClockTime seenAt ∧ t ≤ seenAt ∧ table.lookup σ = some (timestamp seenAt)
  held : ∀ g ∈ guard, (∃ seenAt, g.seen.lookup σ = some seenAt ∧ t < seenAt + Duration.seconds 1) ∨
    ∃ acceptingFrom ∈ g.acceptingFrom, t + Duration.seconds replayMemorySeconds < acceptingFrom

namespace Remembers

theorem recorded (hnow : ClockTime now) : Remembers (some (guard.insertSeen σ now))
    (recordSeenSignature σ (timestamp now) table) σ now where
  stored := ⟨now, hnow, le_rfl, Finmap.lookup_insert _⟩
  held g hg := by
    obtain rfl := Option.some.inj hg
    exact .inl ⟨now, Finmap.lookup_insert _, lt_add_of_pos_right _ (by decide)⟩

/-- A claim forgets nothing: a signature claimed again is remembered from then. -/
theorem claim {s s' : Guarded} {σ' : Bytes} (h : Remembers (some s.guard) s.table σ t)
    (hnow : ClockTime now) (ht : t ≤ now) (hclaim : Claimed σ' now s s') :
    Remembers (some s'.guard) s'.table σ t where
  stored := by
    rcases hclaim.table with htable | htable
    · rw [htable]
      exact h.stored
    · rw [htable, recordSeenSignature, Finmap.lookup_insert_eq]
      split_ifs
      exacts [⟨now, hnow, ht, rfl⟩, h.stored]
  held g hg := by
    obtain rfl := Option.some.inj hg
    rw [hclaim.guard, ReplayGuard.insertSeen, Finmap.lookup_insert_eq]
    split_ifs
    · exact .inl ⟨now, rfl, lt_add_of_le_of_pos ht (by decide)⟩
    · exact h.held _ rfl

theorem crash {guard : Option ReplayGuard} (h : Remembers guard table σ t) :
    Remembers none table σ t := ⟨h.stored, nofun⟩

theorem forgetBefore_eq_some {cutoff : DateTime} (h : forgetBefore now = some cutoff) :
    cutoff = now - Duration.seconds (replayMemorySeconds + 1) := by
  rw [forgetBefore, addDuration] at h
  split_ifs at h
  exact (Option.some.inj h).symm

/-- The second a signature was seen in is past the cutoff for as long as the signature
    can be replayed: the cutoff is one second further back. -/
theorem timestamp_cutoff_lt {cutoff seenAt : DateTime} (hcutoff : forgetBefore now = some cutoff)
    (hnow : now ≤ t + Duration.seconds replayMemorySeconds) (ht : t ≤ seenAt) :
    timestamp cutoff < timestamp seenAt := by
  rw [forgetBefore_eq_some hcutoff]
  simp only [timestamp, Duration.seconds, replayMemorySeconds, maxRequestDriftSeconds] at *
  unfold DateTime Duration at *
  omega

/-- The table keeps what can be replayed. -/
theorem prune {cutoff : DateTime} {guard : Option ReplayGuard} (h : Remembers guard table σ t)
    (hcutoff : forgetBefore now = some cutoff)
    (hnow : now ≤ t + Duration.seconds replayMemorySeconds) :
    ∃ seenAt, ClockTime seenAt ∧ t ≤ seenAt ∧
      (pruneSeenSignatures (timestamp cutoff) table).lookup σ = some (timestamp seenAt) := by
  obtain ⟨seenAt, hclock, ht, hlookup⟩ := h.stored
  refine ⟨seenAt, hclock, ht, ?_⟩
  rw [pruneSeenSignatures, Finmap.lookup_filterMap, hlookup, Option.bind_some,
    if_pos (timestamp_cutoff_lt hcutoff hnow ht)]

theorem cleanup (h : Remembers (some guard) table σ t)
    (hnow : now ≤ t + Duration.seconds replayMemorySeconds) :
    Remembers (some (ReplayGuard.cleanup write now ⟨guard, table⟩).1.guard)
      (ReplayGuard.cleanup write now ⟨guard, table⟩).1.table σ t := by
  cases hcutoff : forgetBefore now with
  | none =>
    rw [ReplayGuard.cleanup, hcutoff]
    exact h
  | some cutoff =>
    rw [ReplayGuard.cleanup, hcutoff]
    change Remembers (some (guard.cleanupSeen cutoff))
      (write.commit (pruneSeenSignatures (timestamp cutoff)) table) σ t
    refine ⟨?_, fun g hg => ?_⟩
    · rcases write.commit_eq (pruneSeenSignatures (timestamp cutoff)) table with hw | hw
      · rw [hw]
        exact h.stored
      · rw [hw]
        exact h.prune hcutoff hnow
    · obtain rfl := Option.some.inj hg
      rcases h.held _ rfl with ⟨seenAt, hlookup, ht⟩ | hrefuses
      · -- The memory is exact to the second, and so is the cutoff.
        have hlt : cutoff < seenAt := by
          rw [forgetBefore_eq_some hcutoff]
          simp only [Duration.seconds, replayMemorySeconds] at *
          unfold DateTime Duration at *
          omega
        refine .inl ⟨seenAt, ?_, ht⟩
        rw [ReplayGuard.cleanupSeen, Finmap.lookup_filterMap, hlookup, Option.bind_some, if_pos hlt]
      · exact .inr hrefuses

/-- A time of the clock, in whole seconds, is in range. -/
theorem fromTimestamp_timestamp (h : ClockTime t) :
    fromTimestamp (timestamp t) = some (timestamp t * 10 ^ 9) := by
  rw [fromTimestamp, if_pos]
  obtain ⟨h₁, h₂⟩ := h
  simp only [timestamp, minDateTime, maxDateTime] at *
  unfold DateTime at *
  omega

theorem restore {guard : Option ReplayGuard} (h : Remembers guard table σ t)
    (hnow : now ≤ t + Duration.seconds replayMemorySeconds) :
    Remembers (ReplayGuard.restore table now) table σ t := by
  refine ⟨h.stored, fun g hg => ?_⟩
  obtain ⟨cutoff, hcutoff, hg⟩ := Option.bind_eq_some_iff.1 hg
  obtain rfl := Option.some.inj hg
  obtain ⟨seenAt, hclock, ht, hlookup⟩ := h.prune hcutoff hnow
  refine .inl ⟨timestamp seenAt * 10 ^ 9, ?_, ?_⟩
  · have hload : (loadRecentSignatures (timestamp cutoff) table).lookup σ = some (timestamp seenAt) :=
      hlookup
    rw [Finmap.lookup_filterMap, hload, Option.bind_some, fromTimestamp_timestamp hclock]
  · simp only [timestamp, Duration.seconds] at *
    unfold DateTime Duration at *
    omega

theorem booting {guard : Option ReplayGuard} (h : Remembers guard table σ t) (ht : t < now) :
    Remembers (ReplayGuard.booting now) table σ t := by
  refine ⟨h.stored, fun g hg => .inr ?_⟩
  obtain ⟨acceptingFrom, hfrom, hg⟩ := Option.bind_eq_some_iff.1 hg
  obtain rfl := Option.some.inj hg
  refine ⟨acceptingFrom, rfl, ?_⟩
  rw [addDuration] at hfrom
  split_ifs at hfrom
  obtain rfl := Option.some.inj hfrom
  exact Int.add_lt_add_right ht _

/-- What is remembered is not accepted. -/
theorem refuses (h : Remembers (some guard) table σ t)
    (hnow : now ≤ t + Duration.seconds replayMemorySeconds) :
    guard.RefusesAt now ∨ σ ∈ guard.seen := by
  rcases h.held guard rfl with ⟨seenAt, hlookup, -⟩ | ⟨acceptingFrom, hfrom, hlt⟩
  · exact .inr (Finmap.mem_iff.2 ⟨seenAt, hlookup⟩)
  · exact .inl ⟨acceptingFrom, hfrom, hnow.trans_lt hlt⟩

end Remembers

/-! ## A request is accepted once -/

variable (c x) in
/-- The invariant of the runs. -/
structure Guarding (s : ReplayState T) : Prop where
  past : ∀ a ∈ s.accepted, a.acceptedAt ≤ s.clock
  verified : ∀ a ∈ s.accepted, ∃ key,
    a.envelope.verifySignature c x a.acceptedAt a.method a.path a.hub = .ok key
  remembered : ∀ a ∈ s.accepted, s.clock ≤ a.acceptedAt + Duration.seconds replayMemorySeconds →
    ∀ σ, x.hexDecode a.envelope.signature = .ok σ → Remembers s.guard s.table σ a.acceptedAt
  once : (s.accepted.map fun a => x.hexDecode a.envelope.signature).Nodup

namespace Guarding

variable {r r' : ReplayState T}

/-- A step that accepts nothing, and keeps in memory what can be replayed after it. -/
theorem keep (h : Guarding c x r) (haccepted : r'.accepted = r.accepted)
    (hclock : r.clock ≤ r'.clock)
    (hkeep : ∀ a ∈ r.accepted, r'.clock ≤ a.acceptedAt + Duration.seconds replayMemorySeconds →
      ∀ σ, Remembers r.guard r.table σ a.acceptedAt →
        Remembers r'.guard r'.table σ a.acceptedAt) : Guarding c x r' where
  past := by
    rw [haccepted]
    exact fun a ha => (h.past a ha).trans hclock
  verified := haccepted ▸ h.verified
  remembered := by
    rw [haccepted]
    exact fun a ha hlive σ hσ => hkeep a ha hlive σ (h.remembered a ha (hclock.trans hlive) σ hσ)
  once := haccepted ▸ h.once

variable (hhex : x.DecodesHex) (hrfc : ∀ t t' r r', x.toRfc3339 t ++ r = x.toRfc3339 t' ++ r' → t = t')
  (hsigns : ∀ σ signed signed', Signs c x σ signed → Signs c x σ signed' → signed = signed')

include hhex hrfc hsigns in
/-- A signature that verifies again does so before it can be forgotten: it is of the same
    string, hence of the same time. -/
theorem replay_window {a : Acceptance T} {key key' : PublicKey}
    (ha : a.envelope.verifySignature c x a.acceptedAt a.method a.path a.hub = .ok key)
    (he : e.verifySignature c x now method path hub = .ok key')
    (hsame : x.hexDecode a.envelope.signature = x.hexDecode e.signature) :
    now ≤ a.acceptedAt + Duration.seconds replayMemorySeconds := by
  obtain ⟨hwithin, σ, signed, k, hk, hσ, hsigned, hsig⟩ := SignedEnvelope.verifySignature_eq_ok ha
  obtain ⟨hwithin', σ', signed', k', hk', hσ', hsigned', hsig'⟩ :=
    SignedEnvelope.verifySignature_eq_ok he
  obtain rfl : σ = σ' := Outcome.ok.inj (hσ.symm.trans (hsame.trans hσ'))
  obtain rfl := hsigns σ signed signed' hsig hsig'
  rw [← SignedEnvelope.timestamp_inj hhex hrfc hk hk' hsigned hsigned'] at hwithin'
  exact Timestamp.drift_span hwithin hwithin'

include hhex hrfc hsigns in
/-- A request is accepted with a signature that none accepted before has. -/
theorem accept (h : Guarding c x r) (hnow : ClockTime now) (hclock : r.clock ≤ now)
    (hguard : r.guard = some guard) (hopen : ¬guard.RefusesAt now) {key : PublicKey}
    (hkey : e.verifySignature c x now method path hub = .ok key)
    (hσ : x.hexDecode e.signature = .ok σ) (hnew : σ ∉ guard.seen) :
    Guarding c x ⟨some (guard.insertSeen σ now), recordSeenSignature σ (timestamp now) r.table, now,
      ⟨e, method, path, hub, now⟩ :: r.accepted⟩ where
  past a ha := by
    rcases List.mem_cons.1 ha with rfl | ha
    exacts [le_rfl, (h.past a ha).trans hclock]
  verified a ha := by
    rcases List.mem_cons.1 ha with rfl | ha
    exacts [⟨key, hkey⟩, h.verified a ha]
  remembered a ha hlive σ' hσ' := by
    rcases List.mem_cons.1 ha with rfl | ha
    · obtain rfl : σ = σ' := Outcome.ok.inj (hσ.symm.trans hσ')
      exact .recorded hnow
    · have hremembers := h.remembered a ha (hclock.trans hlive) σ' hσ'
      rw [hguard] at hremembers
      have hclaim : Claimed σ now ⟨guard, r.table⟩
          ⟨guard.insertSeen σ now, recordSeenSignature σ (timestamp now) r.table⟩ := ⟨rfl, .inr rfl⟩
      exact Remembers.claim hremembers hnow ((h.past a ha).trans hclock) hclaim
  once := by
    rw [List.map_cons, List.nodup_cons]
    refine ⟨fun hmem => ?_, h.once⟩
    obtain ⟨a, ha, hsame⟩ := List.mem_map.1 hmem
    obtain ⟨key', ha'⟩ := h.verified a ha
    have hlive := replay_window hhex hrfc hsigns ha' hkey hsame
    have hremembers := h.remembered a ha (hclock.trans hlive) σ (hsame.trans hσ)
    rw [hguard] at hremembers
    rcases hremembers.refuses hlive with hrefuses | hseen
    exacts [hopen hrefuses, hnew hseen]

include hhex hrfc hsigns in
theorem verify (h : Guarding c x r) (hnow : ClockTime now) (hclock : r.clock ≤ now) :
    Guarding c x
      ((ReplayOp.verify now e hub method path charge write : ReplayOp T Q).after c x r) := by
  rw [ReplayOp.after]
  split
  · exact h
  next guard hguard =>
    have hend := triple_verifyCharging (c := c) (x := x) e now hub method path charge write
      ⟨guard, r.table⟩ _ rfl
    -- Whatever the outcome, the signatures accepted before stay remembered.
    have hkeep : ∀ g, Unaccepted now ⟨guard, r.table⟩ g →
        Guarding c x ⟨some g.guard, g.table, now, r.accepted⟩ := by
      intro g hg
      refine h.keep rfl hclock fun a ha _ σ hremembers => ?_
      rw [hguard] at hremembers
      rcases hg with rfl | ⟨σ', hclaim⟩
      exacts [hremembers, hremembers.claim hnow ((h.past a ha).trans hclock) hclaim]
    split
    next g key hr =>
      rw [hr] at hend
      obtain ⟨hopen, hkey, σ, hσ, hnew, hg, htable⟩ := hend
      rw [hg, htable]
      exact h.accept hhex hrfc hsigns hnow hclock hguard hopen hkey hσ hnew
    next g o hne hr =>
      rw [hr] at hend
      cases o with
      | ok key => exact absurd rfl (hne key)
      | err error => exact hkeep g hend
      | panic => exact hkeep g hend

include hhex hrfc hsigns in
theorem step {op : ReplayOp T Q} (h : Guarding c x r) (hop : op.Enabled r) :
    Guarding c x (op.after c x r) := by
  cases op with
  | verify now e hub method path charge write => exact h.verify hhex hrfc hsigns hop.1 hop.2
  | cleanup now write =>
    rw [ReplayOp.after]
    split
    · exact h
    next guard hguard =>
      refine h.keep rfl hop.2 fun a _ hlive σ hremembers => ?_
      rw [hguard] at hremembers
      exact hremembers.cleanup hlive
  | crash => exact h.keep rfl le_rfl fun _ _ _ _ => Remembers.crash
  | restore now => exact h.keep rfl hop.2.1 fun _ _ hlive _ hremembers => hremembers.restore hlive
  | booting now =>
    exact h.keep rfl hop.2.1 fun a ha _ _ hremembers => hremembers.booting (hop.2.2 a ha)

include hhex hrfc hsigns in
theorem of_reachable (hr : (replaySystem T Q c x).Reachable r) : Guarding c x r := by
  refine hr.invariant (fun r hinit => ?_) fun r op r' h _ hstep => ?_
  · obtain ⟨-, haccepted⟩ := hinit
    refine ⟨?_, ?_, ?_, ?_⟩ <;> rw [haccepted]
    exacts [List.forall_mem_nil _, List.forall_mem_nil _, List.forall_mem_nil _, List.nodup_nil]
  · obtain ⟨hop, rfl⟩ := hstep
    exact h.step hhex hrfc hsigns hop

end Guarding

/-- A signature is accepted once, when keys are hexadecimal, no form of a time begins
    another, and a signature is of one string naming its key. When, too, a string has one
    signature under its key, it is accepted once. -/
theorem accepted_once (hhex : x.DecodesHex)
    (hrfc : ∀ t t' r r', x.toRfc3339 t ++ r = x.toRfc3339 t' ++ r' → t = t')
    (hsigns : ∀ σ signed signed', Signs c x σ signed → Signs c x σ signed' → signed = signed')
    {r : ReplayState T} (hr : (replaySystem T Q c x).Reachable r) :
    (r.accepted.map fun a => x.hexDecode a.envelope.signature).Nodup ∧
      ((∀ σ σ' signed, Signs c x σ signed → Signs c x σ' signed → σ = σ') →
        (r.accepted.map fun a => a.envelope.signingString x a.method a.path a.hub).Nodup) := by
  have h := Guarding.of_reachable hhex hrfc hsigns hr
  refine ⟨h.once, fun hunique => ?_⟩
  refine List.pairwise_map.2 ((List.pairwise_map.1 h.once).imp_of_mem fun {a b} ha hb hne hsame => ?_)
  obtain ⟨keyA, hkeyA⟩ := h.verified a ha
  obtain ⟨keyB, hkeyB⟩ := h.verified b hb
  obtain ⟨-, σ, signed, -, -, hσ, hsigned, hsig⟩ := SignedEnvelope.verifySignature_eq_ok hkeyA
  obtain ⟨-, σ', signed', -, -, hσ', hsigned', hsig'⟩ := SignedEnvelope.verifySignature_eq_ok hkeyB
  obtain rfl : signed = signed' := Outcome.ok.inj (hsigned.symm.trans (hsame.trans hsigned'))
  rw [hσ, hσ', hunique σ σ' signed hsig hsig'] at hne
  exact hne rfl

/-! A run in which a request is accepted, the process starts again from its table, and
the request is refused. One request has been signed: the cryptography verifies it, and
nothing else. -/

namespace ReplaySample

/-- Bytes as a number: the digits in base 256, and a leading one. -/
def digits : Bytes → ℕ
  | [] => 1
  | b :: l => digits l * 256 + b.toNat

theorem digits_pos (l : Bytes) : 0 < digits l := by
  induction l with
  | nil => exact Nat.one_pos
  | cons b l ih =>
    rw [digits]
    omega

theorem digits_injective : Function.Injective digits := by
  intro l
  induction l with
  | nil =>
    rintro (_ | ⟨b, l'⟩) h
    · rfl
    · rw [digits, digits] at h
      have := digits_pos l'
      omega
  | cons b l ih =>
    rintro (_ | ⟨b', l'⟩) h
    · rw [digits, digits] at h
      have := digits_pos l
      omega
    · rw [digits, digits] at h
      have hb := b.toNat_lt
      have hb' := b'.toNat_lt
      rw [ih (by omega : digits l = digits l'), UInt8.toNat_inj.1 (by omega : b.toNat = b'.toNat)]

/-- The text of ASCII characters. -/
def ascii (s : String) : Text := s.toList.map fun ch => UInt8.ofNat ch.toNat

def epoch : Text := ascii "1970-01-01T00:00:00"

/-- The form of the epoch, less its offset; any other time has one of its own. -/
def dateOf (t : Timestamp) : Text :=
  if t.secs = 0 ∧ t.nanos = 0 then epoch
  else List.replicate (Encodable.encode (t.secs, t.nanos)) 48

theorem dateOf_notMem (t : Timestamp) : 43 ∉ dateOf t := by
  rw [dateOf]
  split_ifs
  · decide
  · exact fun h => absurd (List.eq_of_mem_replicate h) (by decide)

theorem dateOf_injective : Function.Injective dateOf := by
  intro t t' h
  have hfields : t.secs = t'.secs ∧ t.nanos = t'.nanos := by
    rw [dateOf, dateOf] at h
    -- The form of the epoch has other digits than zero.
    have hother : ∀ n, epoch ≠ List.replicate n 48 := fun n he => by
      have hmem : 49 ∈ epoch := by decide
      rw [he] at hmem
      exact absurd (List.eq_of_mem_replicate hmem) (by decide)
    split_ifs at h with h₁ h₂ h₂
    · exact ⟨h₁.1.trans h₂.1.symm, h₁.2.trans h₂.2.symm⟩
    · exact absurd h (hother _)
    · exact absurd h.symm (hother _)
    · exact Prod.mk.inj (Encodable.encode_injective (List.replicate_left_injective 48 h))
  obtain ⟨secs, nanos, _, _, _⟩ := t
  obtain ⟨rfl, rfl⟩ := hfields
  rfl

def codecs : Codecs Unit where
  toRfc3339 t := dateOf t ++ ascii "+00:00"
  hexDecode := EnvelopeSample.hexDecode
  toJson _ := .ok (ascii "null")
  fromSec1Bytes bytes := if bytes.length = 33 then .ok (digits bytes) else .err []
  signatureFromBytes bytes := if bytes.length = 64 then .ok (digits bytes) else .err []
  fromHexMessage _ := []

theorem rfc3339_ends (t t' : Timestamp) (r r' : Text)
    (h : codecs.toRfc3339 t ++ r = codecs.toRfc3339 t' ++ r') : t = t' := by
  rw [codecs, List.append_assoc, List.append_assoc] at h
  exact dateOf_injective (append_cons_inj (dateOf_notMem t) (dateOf_notMem t') h).1

def envelope : SignedEnvelope Unit where
  pubkey := ascii "02" ++ List.replicate 64 55
  timestamp := ⟨0, 0, by decide, by decide, by decide⟩
  payload := ()
  signature := List.replicate 128 49

def post : Text := ascii "POST"
def faucet : Text := ascii "/faucet"
def hubId : Text := ascii "02"

/-- The string the envelope signs. -/
def signed : Text :=
  envelope.pubkey ++ colon :: (codecs.toRfc3339 envelope.timestamp ++ colon :: (post ++ blank ::
    (faucet ++ colon :: (hubId ++ colon :: ascii "null"))))

def crypto : Crypto where
  hashOutput _ := 0
  hashTransaction _ := 0
  hashHeader _ := 0
  hashBlock _ := 0
  hashPair _ _ := 0
  hashBytes := digits
  toSec1Bytes _ := []
  verify signature hash key := signature == digits (List.replicate 64 17) && hash == digits signed &&
    key == digits (2 :: List.replicate 32 119)
  serializedSize _ := 0
  genesisPubkey := 0

/-- What is signed is that string, with that signature. -/
theorem eq_of_signs {σ : Bytes} {m : Text} (h : Signs crypto codecs σ m) :
    m = signed ∧ σ = List.replicate 64 17 := by
  obtain ⟨_, _, _, _, signature, -, -, -, hsignature, hverify⟩ := h
  change (signature == digits (List.replicate 64 17) && digits m == digits signed && _) = true
    at hverify
  simp only [Bool.and_eq_true, beq_iff_eq] at hverify
  obtain ⟨⟨hsig, hm⟩, -⟩ := hverify
  refine ⟨digits_injective hm, ?_⟩
  change (if σ.length = 64 then .ok (digits σ) else .err []) = Outcome.ok signature at hsignature
  split_ifs at hsignature
  exact digits_injective ((Outcome.ok.inj hsignature).trans hsig)

/-- A request to the faucet, some seconds after the epoch. -/
def request (secs : ℤ) : ReplayOp Unit Unit :=
  .verify (Duration.seconds secs) envelope hubId post faucet (fun _ => .ok ()) .committed

def start : ReplayState Unit := ⟨none, ∅, 0, []⟩

/-- The request is accepted by a process. -/
def once : ReplayState Unit :=
  (request 20).after crypto codecs ((ReplayOp.restore (Duration.seconds 10) : ReplayOp Unit Unit).after
    crypto codecs start)

/-- It comes again, to the next process. -/
def again : ReplayState Unit :=
  (request 40).after crypto codecs ((ReplayOp.restore (Duration.seconds 30) : ReplayOp Unit Unit).after
    crypto codecs once)

theorem reachable_after {r : ReplayState Unit} {op : ReplayOp Unit Unit}
    (hr : (replaySystem Unit Unit crypto codecs).Reachable r) (hop : op.Enabled r) :
    (replaySystem Unit Unit crypto codecs).Reachable (op.after crypto codecs r) :=
  .step hr trivial ⟨hop, rfl⟩

theorem reachable_again : (replaySystem Unit Unit crypto codecs).Reachable again := by
  have honce : (replaySystem Unit Unit crypto codecs).Reachable once :=
    reachable_after (reachable_after (.init ⟨rfl, rfl⟩) (by decide +kernel)) (by decide +kernel)
  exact reachable_after (reachable_after honce (by decide +kernel)) (by decide +kernel)

end ReplaySample

open ReplaySample in
theorem accepted_once_sample : once.accepted.length = 1 ∧ again.accepted.length = 1 ∧
    (again.accepted.map fun a => codecs.hexDecode a.envelope.signature).Nodup ∧
    (again.accepted.map fun a => a.envelope.signingString codecs a.method a.path a.hub).Nodup := by
  have h := accepted_once (EnvelopeSample.decodesHex rfl) rfc3339_ends
    (fun _ _ _ hs hs' => (eq_of_signs hs).1.trans (eq_of_signs hs').1.symm) reachable_again
  exact ⟨by decide +kernel, by decide +kernel, h.1,
    h.2 fun _ _ _ hs hs' => (eq_of_signs hs).2.trans (eq_of_signs hs').2.symm⟩

end Itx
