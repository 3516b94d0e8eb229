import Itx.Lib.System
import Itx.Lib.Call
import Itx.Hub.Envelope
import Itx.Hub.Payments

/-!
# Faucet challenges

A grant of the faucet costs a proof of work (`hub/src/faucet_pow.rs`). The hub issues a
challenge to a key, and grants to the key that presents a solution of it in time. A book
holds the challenges (`ChallengeBook`): by their ids, and, for each key, the one that is
outstanding. Each is in a table of the store too, for the next process
(`hub/src/store.rs`).

A run of the book: challenges are issued and redeemed, the sweep drops what can no longer
matter, from memory and from the table, and the process crashes and starts again from the
table. A commit may fail, and the process may stop between a commit and the rest of a call.

* `redeemed_once`: a challenge is redeemed at most once, by the key it was issued to, in
  time and with a solution of it;
* `one_redeemable`: a key has no more than one challenge that could be redeemed, as long
  as no process starts from a table with two of them.
-/

namespace Itx

open Blockchain Call

/-! ## Texts -/

/-- The digit of a value below sixteen. -/
def hexDigit (n : ℕ) : UInt8 := UInt8.ofNat (if n < 10 then 48 + n else 87 + n)

/-- `hex::encode`. -/
def hexEncode (bytes : Bytes) : Text :=
  bytes.flatMap fun b => [hexDigit (b.toNat / 16), hexDigit (b.toNat % 16)]

/-- The text of a string. -/
def textOf (s : String) : Text := s.toUTF8.toList

/-- `PublicKey::to_string`. -/
def keyText (c : Crypto) (pubkey : PublicKey) : Text := hexEncode (c.toSec1Bytes pubkey)

theorem hexDigit_inj {m n : ℕ} (hm : m < 16) (hn : n < 16) (h : hexDigit m = hexDigit n) : m = n := by
  have h := congrArg UInt8.toNat h
  simp only [hexDigit, UInt8.toNat_ofNat'] at h
  split_ifs at h <;> omega

theorem hexEncode_injective : Function.Injective hexEncode := by
  intro l
  induction l with
  | nil =>
    rintro (_ | ⟨b, l⟩) h
    · rfl
    · cases h
  | cons b l ih =>
    rintro (_ | ⟨b', l'⟩) h
    · cases h
    · simp only [hexEncode, List.flatMap_cons, List.cons_append, List.nil_append,
        List.cons.injEq] at h
      obtain ⟨hhi, hlo, hrest⟩ := h
      have hb := b.toNat_lt
      have hb' := b'.toNat_lt
      have hdiv := hexDigit_inj (by omega) (by omega) hhi
      have hmod := hexDigit_inj (by omega) (by omega) hlo
      have hbyte : b = b' := UInt8.toNat.inj (by omega)
      rw [ih hrest, hbyte]

theorem keyText_injective {c : Crypto} (h : Function.Injective c.toSec1Bytes) :
    Function.Injective (keyText c) := hexEncode_injective.comp h

/-! ## Challenges -/

/-- `FAUCET_ACTION`. -/
def faucetAction : Text := textOf "faucet"

/-- `CHALLENGE_TTL_SECONDS`. -/
def challengeTtlSeconds : ℤ := 600

/-- `REDEEMED_RETENTION_SECONDS`. -/
def redeemedRetentionSeconds : ℤ := 3600

/-- `Challenge`. The network is the one it was priced for. -/
structure Challenge where
  id : Uuid
  pubkey : Text
  serverNonce : Text
  action : Text
  target : ℕ
  issuedAt : ℤ
  expiresAt : ℤ
  network : Option Text
  redeemedAt : Option ℤ
  deriving DecidableEq

/-- `RedemptionError`. -/
inductive RedemptionError
  | unknown
  | wrongKey
  | expired
  | alreadyRedeemed
  | unsolved
  | notRecorded
  deriving DecidableEq, Repr

variable (c : Crypto) (showUuid : Uuid → Text)

namespace Challenge

/-- `Challenge::issue`, with the id and the nonce it draws: none when its expiry is out of
    the range of times. -/
def issue (id : Uuid) (nonce : Bytes) (pubkey : PublicKey) (target : ℕ) (network : Option Text)
    (now : DateTime) : Option Challenge := do
  let expiry ← addDuration now (Duration.seconds challengeTtlSeconds)
  some
    { id
      pubkey := keyText c pubkey
      serverNonce := hexEncode nonce
      action := faucetAction
      target
      issuedAt := timestamp now
      expiresAt := timestamp expiry
      network
      redeemedAt := none }

/-- `Challenge::preimage`. -/
def preimage (challenge : Challenge) (solution : ℕ) : Text :=
  showUuid challenge.id ++ colon :: challenge.serverNonce ++ colon :: challenge.pubkey ++
    colon :: challenge.action ++ colon :: textOf (toString solution)

/-- `Challenge::is_solved_by`: a solution is judged by the target of the challenge. -/
def IsSolvedBy (challenge : Challenge) (solution : ℕ) : Prop :=
  c.hashBytes (challenge.preimage showUuid solution) ≤ challenge.target

instance (challenge : Challenge) (solution : ℕ) :
    Decidable (challenge.IsSolvedBy c showUuid solution) :=
  inferInstanceAs (Decidable (_ ≤ _))

/-- `Challenge::is_expired_at`. -/
def IsExpiredAt (challenge : Challenge) (now : DateTime) : Prop :=
  challenge.expiresAt < timestamp now

instance (challenge : Challenge) (now : DateTime) : Decidable (challenge.IsExpiredAt now) :=
  inferInstanceAs (Decidable (_ < _))

/-- `Challenge::is_redeemed`. -/
def isRedeemed (challenge : Challenge) : Bool := challenge.redeemedAt.isSome

/-- The second after which a challenge can no longer matter. -/
def horizon (challenge : Challenge) : ℤ :=
  if challenge.isRedeemed then challenge.expiresAt + redeemedRetentionSeconds
  else challenge.expiresAt

/-- `validate`. -/
def validate (challenge : Challenge) (pubkey : PublicKey) (solution : ℕ) (now : DateTime) :
    Outcome RedemptionError Unit := do
  Outcome.ensure (challenge.pubkey = keyText c pubkey) .wrongKey
  Outcome.ensure (challenge.isRedeemed = false) .alreadyRedeemed
  Outcome.ensure (¬challenge.IsExpiredAt now) .expired
  Outcome.ensure (challenge.IsSolvedBy c showUuid solution) .unsolved

end Challenge

/-- `ChallengeBook`, less the target of the hub. -/
structure ChallengeBook where
  byId : Finmap fun _ : Uuid => Challenge
  outstanding : Finmap fun _ : Text => Uuid

/-- `FAUCET_CHALLENGES_TABLE`. -/
abbrev ChallengeTable := Finmap fun _ : Uuid => Challenge

/-- A book and the table it writes to. -/
structure Challenges where
  book : ChallengeBook
  table : ChallengeTable

/-! ## Calls -/

/-- `HubStore::save_faucet_challenge`: a transaction commits or fails. -/
def saveFaucetChallenge (commits : Bool) (challenge : Challenge) :
    Call Challenges RedemptionError Unit :=
  if commits then
    Call.modify fun s => { s with table := s.table.insert challenge.id challenge }
  else Call.lift (.err .notRecorded)

/-- `HubStore::prune_faucet_challenges`. -/
def pruneFaucetChallenges (nowUnix : ℤ) (table : ChallengeTable) : ChallengeTable :=
  table.filterMap fun _ challenge => if nowUnix ≤ challenge.horizon then some challenge else none

namespace ChallengeBook

/-- What `ChallengeBook::restore` makes of a row. -/
def restoreOne (now : DateTime) (book : ChallengeBook) (challenge : Challenge) : ChallengeBook :=
  if challenge.isRedeemed then
    if timestamp now ≤ challenge.expiresAt + redeemedRetentionSeconds then
      { book with byId := book.byId.insert challenge.id challenge }
    else book
  else if ¬challenge.IsExpiredAt now then
    { byId := book.byId.insert challenge.id challenge
      outstanding := book.outstanding.insert challenge.pubkey challenge.id }
  else book

/-- `ChallengeBook::restore`. -/
def restore (table : ChallengeTable) (now : DateTime) : ChallengeBook :=
  table.values.foldl (restoreOne now) ⟨∅, ∅⟩

/-- `ChallengeBook::issue_at_target`. -/
def issueAtTarget (commits : Bool) (id : Uuid) (nonce : Bytes) (pubkey : PublicKey) (target : ℕ)
    (network : Option Text) (now : DateTime) : Call Challenges RedemptionError Challenge := do
  let challenge ← Call.lift (.expect (Challenge.issue c id nonce pubkey target network now))
  saveFaucetChallenge commits challenge
  Call.modify fun s =>
    let byId := (s.book.outstanding.lookup challenge.pubkey).elim s.book.byId s.book.byId.erase
    { s with book :=
        { byId := byId.insert challenge.id challenge
          outstanding := s.book.outstanding.insert challenge.pubkey challenge.id } }
  pure challenge

/-- `ChallengeBook::redeem`. -/
def redeem (commits : Bool) (id : Uuid) (pubkey : PublicKey) (solution : ℕ) (now : DateTime) :
    Call Challenges RedemptionError Challenge := do
  let s ← Call.get
  let challenge ← Call.lift (.okOr .unknown (s.book.byId.lookup id))
  Call.lift (challenge.validate c showUuid pubkey solution now)
  let redeemed := { challenge with redeemedAt := some (timestamp now) }
  saveFaucetChallenge commits redeemed
  Call.modify fun s =>
    { s with book :=
        { byId := s.book.byId.insert id redeemed
          outstanding := s.book.outstanding.erase redeemed.pubkey } }
  pure redeemed

/-- `ChallengeBook::check`. -/
def check (id : Uuid) (pubkey : PublicKey) (solution : ℕ) (now : DateTime) (book : ChallengeBook) :
    Outcome RedemptionError Unit := do
  let challenge ← .okOr .unknown (book.byId.lookup id)
  challenge.validate c showUuid pubkey solution now

/-- `ChallengeBook::cleanup`. A failed pruning is only logged. -/
def cleanup (commits : Bool) (now : DateTime) (s : Challenges) : Challenges :=
  let byId := s.book.byId.filterMap fun _ challenge =>
    if timestamp now ≤ challenge.horizon then some challenge else none
  { book :=
      { byId
        outstanding := s.book.outstanding.filterMap fun _ id => if id ∈ byId then some id else none }
    table := if commits then pruneFaucetChallenges (timestamp now) s.table else s.table }

end ChallengeBook

/-! ## Runs -/

/-- A call on the book or on its table. -/
inductive BookCall
  | issueAtTarget (commits : Bool) (id : Uuid) (nonce : Bytes) (pubkey : PublicKey) (target : ℕ)
      (network : Option Text) (now : DateTime)
  | redeem (commits : Bool) (id : Uuid) (pubkey : PublicKey) (solution : ℕ) (now : DateTime)
  | check (id : Uuid) (pubkey : PublicKey) (solution : ℕ) (now : DateTime)
  | cleanup (commits : Bool) (now : DateTime)
  | pruneFaucetChallenges (nowUnix : ℤ)

/-- The steps of a run: a call, or a crash followed by a start from the table. The process
    may stop during a call, once what the call writes is in the table. -/
inductive ChallengeOp
  | call (made : BookCall)
  | crash (during : Option BookCall) (now : DateTime)

/-- A redemption that returned. -/
structure Redemption where
  id : Uuid
  pubkey : PublicKey
  solution : ℕ
  now : DateTime

/-- A state of a run, with what has happened in it: the challenges as they were issued, each
    with the key it was issued to, and the redemptions. -/
structure ChallengeRun where
  state : Challenges
  issued : Finmap fun _ : Uuid => PublicKey × Challenge
  redemptions : List Redemption

namespace ChallengeRun

/-- The state after a call. -/
def after (r : ChallengeRun) : BookCall → ChallengeRun
  | .issueAtTarget commits id nonce pubkey target network now =>
    match ChallengeBook.issueAtTarget c commits id nonce pubkey target network now r.state with
    | (state, .ok challenge) => { r with state, issued := r.issued.insert id (pubkey, challenge) }
    | (state, _) => { r with state }
  | .redeem commits id pubkey solution now =>
    match ChallengeBook.redeem c showUuid commits id pubkey solution now r.state with
    | (state, .ok _) =>
      { r with state, redemptions := r.redemptions ++ [⟨id, pubkey, solution, now⟩] }
    | (state, _) => { r with state }
  | .check .. => r
  | .cleanup commits now => { r with state := ChallengeBook.cleanup commits now r.state }
  | .pruneFaucetChallenges nowUnix =>
    { r with state :=
        { r.state with table := Itx.pruneFaucetChallenges nowUnix r.state.table } }

/-- What a call that is interrupted by a crash leaves: its row, if it writes one. -/
def interrupted (r : ChallengeRun) (during : Option BookCall) : ChallengeRun :=
  match during with
  | none => r
  | some made => { r.after c showUuid made with redemptions := r.redemptions }

end ChallengeRun

/-- The id a call draws, if it draws one. -/
def BookCall.drawn? : BookCall → Option Uuid
  | .issueAtTarget _ id .. => some id
  | _ => none

/-- The call a step makes, if it makes one. -/
def ChallengeOp.call? : ChallengeOp → Option BookCall
  | .call made => some made
  | .crash during _ => during

/-- The runs of the book, from an empty one. The ids that are drawn are fresh. -/
def challengeRuns : System ChallengeRun ChallengeOp where
  init := {⟨⟨⟨∅, ∅⟩, ∅⟩, ∅, []⟩}
  step r op r' :=
    (∀ made ∈ op.call?, ∀ id ∈ made.drawn?, id ∉ r.issued) ∧
      match op with
      | .call made => r' = r.after c showUuid made
      | .crash during now =>
        let stopped := r.interrupted c showUuid during
        r' = { stopped with state :=
          ⟨ChallengeBook.restore stopped.state.table now, stopped.state.table⟩ }

/-! ## What the calls do -/

variable {c showUuid} {s : Challenges} {commits : Bool} {id : Uuid} {nonce : Bytes}
  {pubkey : PublicKey} {target : ℕ} {network : Option Text} {solution : ℕ} {now : DateTime}
  {challenge : Challenge}

/-- A challenge is issued: it takes the place of the outstanding one of its key. -/
def Challenges.issue (s : Challenges) (challenge : Challenge) : Challenges where
  book :=
    { byId := ((s.book.outstanding.lookup challenge.pubkey).elim s.book.byId
        s.book.byId.erase).insert challenge.id challenge
      outstanding := s.book.outstanding.insert challenge.pubkey challenge.id }
  table := s.table.insert challenge.id challenge

/-- A challenge is spent. -/
def Challenges.spend (s : Challenges) (id : Uuid) (redeemed : Challenge) : Challenges where
  book :=
    { byId := s.book.byId.insert id redeemed
      outstanding := s.book.outstanding.erase redeemed.pubkey }
  table := s.table.insert redeemed.id redeemed

theorem triple_issueAtTarget :
    Triple (· = s) (ChallengeBook.issueAtTarget c commits id nonce pubkey target network now)
      (fun challenge s' => Challenge.issue c id nonce pubkey target network now = some challenge ∧
        s' = s.issue challenge) (fun _ => (· = s)) (· = s) := by
  refine .expect_bind (fun challenge hissue => ?_) fun _ _ e => e
  rw [saveFaucetChallenge]
  split_ifs
  · refine .modify_bind (.modify_bind (.pure ?_))
    rintro _ rfl
    exact ⟨hissue, rfl⟩
  · exact .lift_known nofun (fun _ _ => rfl) nofun

theorem Challenge.validate_eq_ok : challenge.validate c showUuid pubkey solution now = .ok () ↔
    challenge.pubkey = keyText c pubkey ∧ challenge.isRedeemed = false ∧
      ¬challenge.IsExpiredAt now ∧ challenge.IsSolvedBy c showUuid solution := by
  simp only [validate, Outcome.bind_eq_ok, Outcome.ensure_eq_ok, exists_const]

theorem Challenge.validate_ne_panic : challenge.validate c showUuid pubkey solution now ≠ .panic :=
  Outcome.bind_ne_panic Outcome.ensure_ne_panic fun _ _ =>
    Outcome.bind_ne_panic Outcome.ensure_ne_panic fun _ _ =>
      Outcome.bind_ne_panic Outcome.ensure_ne_panic fun _ _ => Outcome.ensure_ne_panic

theorem triple_redeem :
    Triple (· = s) (ChallengeBook.redeem c showUuid commits id pubkey solution now)
      (fun redeemed s' => ∃ challenge, s.book.byId.lookup id = some challenge ∧
        challenge.validate c showUuid pubkey solution now = .ok () ∧
        redeemed = { challenge with redeemedAt := some (timestamp now) } ∧
        s' = s.spend id redeemed) (fun _ => (· = s)) fun _ => False := by
  refine .get_bind fun s' hs' => ?_
  subst hs'
  refine .lift_known (fun challenge hlookup => ?_) (fun _ _ => rfl) fun hn =>
    absurd hn Outcome.okOr_ne_panic
  refine .lift_known (fun _ hvalid => ?_) (fun _ _ => rfl) fun hn =>
    absurd hn Challenge.validate_ne_panic
  dsimp only
  rw [saveFaucetChallenge]
  split_ifs
  · refine .modify_bind (.modify_bind (.pure ?_))
    rintro _ rfl
    exact ⟨challenge, Outcome.okOr_eq_ok.1 hlookup, hvalid, rfl, rfl⟩
  · exact .lift_known nofun (fun _ _ => rfl) nofun

/-- `check` returns exactly if the validation of `redeem` does, and fails as it does. -/
theorem check_iff (s : Challenges) :
    (s.book.check c showUuid id pubkey solution now = .ok () ↔
      ∃ redeemed, (ChallengeBook.redeem c showUuid true id pubkey solution now s).2 =
        .ok redeemed) ∧
    ∀ e, s.book.check c showUuid id pubkey solution now = .err e → ∀ commits,
      ChallengeBook.redeem c showUuid commits id pubkey solution now s = (s, .err e) := by
  refine ⟨⟨fun hcheck => ?_, ?_⟩, fun e hcheck commits => ?_⟩
  · obtain ⟨challenge, hlookup, hvalid⟩ := Outcome.bind_eq_ok.1 hcheck
    have hend : Triple (· = s) (ChallengeBook.redeem c showUuid true id pubkey solution now)
        (fun _ _ => True) (fun _ _ => False) fun _ => False := by
      refine .get_bind fun s' hs' => ?_
      subst hs'
      exact .lift_bind hlookup (.lift_bind hvalid (.modify_bind (.modify_bind (.pure fun _ _ => trivial))))
    have hend := hend s rfl
    generalize ChallengeBook.redeem c showUuid true id pubkey solution now s = r at hend ⊢
    obtain ⟨s', redeemed | e | _⟩ := r
    · exact ⟨redeemed, rfl⟩
    · exact hend.elim
    · exact hend.elim
  · rintro ⟨redeemed, hredeem⟩
    have hend : Ends _ _ _ (ChallengeBook.redeem c showUuid true id pubkey solution now s) :=
      triple_redeem _ rfl
    generalize ChallengeBook.redeem c showUuid true id pubkey solution now s = r at hend hredeem
    obtain ⟨s', redeemed' | e | _⟩ := r
    · obtain ⟨challenge, hlookup, hvalid, -⟩ := hend
      exact Outcome.bind_eq_ok.2 ⟨challenge, Outcome.okOr_eq_ok.2 hlookup, hvalid⟩
    · cases hredeem
    · cases hredeem
  · change Call.bind (Call.lift (.okOr RedemptionError.unknown (s.book.byId.lookup id))) _ s = _
    rw [Call.bind, Call.lift]
    rw [ChallengeBook.check] at hcheck
    cases hlookup : s.book.byId.lookup id with
    | none =>
      rw [hlookup] at hcheck
      cases hcheck
      rfl
    | some challenge =>
      rw [hlookup] at hcheck
      change challenge.validate c showUuid pubkey solution now = .err e at hcheck
      change Call.bind (Call.lift (challenge.validate c showUuid pubkey solution now)) _ s = _
      rw [Call.bind, Call.lift, hcheck]

/-! ## A challenge is redeemed at most once -/

/-- A record of a challenge that was issued: all of it but the redemption is as it was
    then. -/
def ChallengeRun.Issued (r : ChallengeRun) (id : Uuid) (challenge : Challenge) : Prop :=
  ∃ pubkey issued, r.issued.lookup id = some (pubkey, issued) ∧
    challenge = { issued with redeemedAt := challenge.redeemedAt }

/-- A map with records of challenges that were issued. Those of the challenges that were
    redeemed say so. -/
structure ChallengeRun.Records (r : ChallengeRun) (m : ChallengeTable) : Prop where
  issued : ∀ id challenge, m.lookup id = some challenge → r.Issued id challenge
  spent : ∀ x ∈ r.redemptions, ∀ challenge, m.lookup x.id = some challenge →
    challenge.isRedeemed = true

variable (c showUuid) in
/-- What holds throughout a run. -/
structure ChallengeRun.Sound (r : ChallengeRun) : Prop where
  keys : ∀ id pubkey challenge, r.issued.lookup id = some (pubkey, challenge) →
    challenge.id = id ∧ challenge.pubkey = keyText c pubkey
  table : r.Records r.state.table
  book : r.Records r.state.book.byId
  nodup : (r.redemptions.map Redemption.id).Nodup
  redemptions : ∀ x ∈ r.redemptions, ∃ challenge,
    r.issued.lookup x.id = some (x.pubkey, challenge) ∧ timestamp x.now ≤ challenge.expiresAt ∧
      challenge.IsSolvedBy c showUuid x.solution

variable {r r' : ChallengeRun} {m m' : ChallengeTable}

namespace ChallengeRun

theorem Records.of_subset (h : r.Records m)
    (hm : ∀ id challenge, m'.lookup id = some challenge → m.lookup id = some challenge) :
    r.Records m' :=
  ⟨fun id challenge hid => h.issued id challenge (hm id challenge hid),
    fun x hx challenge hid => h.spent x hx challenge (hm x.id challenge hid)⟩

theorem Records.retain (h : r.Records m) (keep : Challenge → Prop) [DecidablePred keep] :
    r.Records (m.filterMap fun _ challenge => if keep challenge then some challenge else none) := by
  refine h.of_subset fun id challenge hid => ?_
  rw [Finmap.lookup_filterMap] at hid
  obtain ⟨challenge', hlookup, hkeep⟩ := Option.bind_eq_some_iff.1 hid
  split_ifs at hkeep
  rw [hlookup, ← hkeep]

/-- A record is written over the others. -/
theorem Records.insert (h : r.Records m) (hissued : r.Issued id challenge)
    (hspent : ∀ x ∈ r.redemptions, x.id = id → challenge.isRedeemed = true) :
    r.Records (m.insert id challenge) := by
  refine ⟨fun i ch hi => ?_, fun x hx ch hi => ?_⟩
  · rw [Finmap.lookup_insert_eq] at hi
    split_ifs at hi with he
    · rw [he, ← Option.some.inj hi]
      exact hissued
    · exact h.issued i ch hi
  · rw [Finmap.lookup_insert_eq] at hi
    split_ifs at hi with he
    · rw [← Option.some.inj hi]
      exact hspent x hx he
    · exact h.spent x hx ch hi

/-- One more challenge has been issued, under a fresh id. -/
theorem Records.issue (h : r.Records m) (hfresh : id ∉ r.issued) (entry : PublicKey × Challenge)
    (hissued : r'.issued = r.issued.insert id entry)
    (hredemptions : r'.redemptions = r.redemptions) : r'.Records m := by
  refine ⟨fun i ch hi => ?_, ?_⟩
  · obtain ⟨pubkey, issued, hlookup, heq⟩ := h.issued i ch hi
    refine ⟨pubkey, issued, ?_, heq⟩
    rw [hissued, Finmap.lookup_insert_eq, if_neg, hlookup]
    rintro rfl
    exact hfresh (Finmap.mem_iff.2 ⟨_, hlookup⟩)
  · rw [hredemptions]
    exact h.spent

end ChallengeRun

/-- What a start takes from the table. -/
theorem ChallengeBook.lookup_restore {table : ChallengeTable}
    (h : (ChallengeBook.restore table now).byId.lookup id = some challenge) :
    (∃ k, table.lookup k = some challenge) ∧ challenge.id = id := by
  have key : ∀ (l : List Challenge) (book : ChallengeBook),
      (l.foldl (ChallengeBook.restoreOne now) book).byId.lookup id = some challenge →
      book.byId.lookup id = some challenge ∨ challenge ∈ l ∧ challenge.id = id := by
    intro l
    induction l with
    | nil => exact fun book h => .inl h
    | cons row l ih =>
      intro book h
      rcases ih _ h with h | ⟨hmem, hid⟩
      · have hrow : ∀ m : ChallengeTable, (m.insert row.id row).lookup id = some challenge →
            m.lookup id = some challenge ∨ challenge ∈ row :: l ∧ challenge.id = id := by
          intro m hm
          rw [Finmap.lookup_insert_eq] at hm
          split_ifs at hm with he
          · rw [he, ← Option.some.inj hm]
            exact .inr ⟨List.mem_cons_self, rfl⟩
          · exact .inl hm
        rw [ChallengeBook.restoreOne] at h
        split_ifs at h
        · exact hrow _ h
        · exact .inl h
        · exact .inl h
        · exact hrow _ h
      · exact .inr ⟨List.mem_cons_of_mem _ hmem, hid⟩
  rcases key _ _ h with h | ⟨hmem, hid⟩
  · cases h
  · exact ⟨Finmap.mem_values.1 hmem, hid⟩

namespace ChallengeRun

/-- A challenge is issued to a key. -/
def issue (r : ChallengeRun) (id : Uuid) (pubkey : PublicKey) (challenge : Challenge) :
    ChallengeRun :=
  { r with state := r.state.issue challenge, issued := r.issued.insert id (pubkey, challenge) }

/-- A challenge is redeemed. -/
def spend (r : ChallengeRun) (redeemed : Challenge) (x : Redemption) : ChallengeRun :=
  { r with state := r.state.spend x.id redeemed, redemptions := r.redemptions ++ [x] }

/-- A challenge is issued, and its row is in the table. -/
theorem Sound.issue (h : r.Sound c showUuid) (hfresh : id ∉ r.issued)
    (hissue : Challenge.issue c id nonce pubkey target network now = some challenge) :
    (r.issue id pubkey challenge).Sound c showUuid := by
  obtain ⟨expiry, -, hchallenge⟩ := Option.bind_eq_some_iff.1 hissue
  have hid : challenge.id = id := by rw [← Option.some.inj hchallenge]
  have hkey : challenge.pubkey = keyText c pubkey := by rw [← Option.some.inj hchallenge]
  have hredeemed : ∀ x ∈ r.redemptions, x.id ≠ id := by
    rintro x hx rfl
    obtain ⟨ch, hlookup, -⟩ := h.redemptions x hx
    exact hfresh (Finmap.mem_iff.2 ⟨_, hlookup⟩)
  have hnew : ∀ m, r.Records m →
      (r.issue id pubkey challenge).Records (m.insert challenge.id challenge) := by
    intro m hm
    have hm' : (r.issue id pubkey challenge).Records m := hm.issue hfresh (pubkey, challenge) rfl rfl
    rw [hid]
    refine hm'.insert ?_ fun x hx he => absurd he (hredeemed x hx)
    exact ⟨pubkey, challenge, Finmap.lookup_insert _, rfl⟩
  refine ⟨fun i pk ch hi => ?_, hnew _ h.table, hnew _ ?_, h.nodup, fun x hx => ?_⟩
  · rw [ChallengeRun.issue, Finmap.lookup_insert_eq] at hi
    split_ifs at hi with he
    · obtain ⟨rfl, rfl⟩ := Prod.mk.inj (Option.some.inj hi)
      exact ⟨hid.trans he.symm, hkey⟩
    · exact h.keys i pk ch hi
  · -- The outstanding challenge of the key, if there is one, is dropped.
    cases r.state.book.outstanding.lookup challenge.pubkey with
    | none => exact h.book
    | some previous =>
      refine h.book.of_subset fun i ch hi => ?_
      rw [Option.elim_some, Finmap.lookup_erase_eq] at hi
      split_ifs at hi
      exact hi
  · obtain ⟨ch, hlookup, hgood⟩ := h.redemptions x hx
    refine ⟨ch, ?_, hgood⟩
    change (r.issued.insert id (pubkey, challenge)).lookup x.id = _
    rw [Finmap.lookup_insert_eq, if_neg (hredeemed x hx), hlookup]

/-- A challenge is spent, in memory and in the table. -/
theorem Sound.spend (hsec1 : Function.Injective c.toSec1Bytes) (h : r.Sound c showUuid)
    (hlookup : r.state.book.byId.lookup id = some challenge)
    (hvalid : challenge.validate c showUuid pubkey solution now = .ok ()) :
    (r.spend { challenge with redeemedAt := some (timestamp now) }
      ⟨id, pubkey, solution, now⟩).Sound c showUuid := by
  obtain ⟨hkey, hunspent, htime, hsolved⟩ := Challenge.validate_eq_ok.1 hvalid
  obtain ⟨pk, issued, hissued, hrecord⟩ := h.book.issued id challenge hlookup
  obtain ⟨hid, hpk⟩ := h.keys id pk issued hissued
  have hpubkey : pk = pubkey := by
    refine keyText_injective hsec1 ?_
    rw [← hpk, ← hkey, hrecord]
  obtain rfl : challenge.id = id := by rw [hrecord, hid]
  -- It has not been redeemed before, or the book would have it as spent.
  have hnot : ∀ x ∈ r.redemptions, x.id ≠ challenge.id := by
    intro x hx he
    have := h.book.spent x hx challenge (he ▸ hlookup)
    rw [hunspent] at this
    cases this
  -- The book and the table are written alike, so one argument does for both.
  have hspent : ∀ m, r.Records m → (r.spend { challenge with redeemedAt := some (timestamp now) }
      ⟨challenge.id, pubkey, solution, now⟩).Records
        (m.insert challenge.id { challenge with redeemedAt := some (timestamp now) }) := by
    intro m hm
    refine ⟨fun i ch hi => ?_, fun x hx ch hi => ?_⟩
    · rw [Finmap.lookup_insert_eq] at hi
      split_ifs at hi with he
      · rw [he, ← Option.some.inj hi]
        exact ⟨pk, issued, hissued, by rw [hrecord]⟩
      · exact hm.issued i ch hi
    · rw [Finmap.lookup_insert_eq] at hi
      split_ifs at hi with he
      · rw [← Option.some.inj hi]
        rfl
      · rcases List.mem_append.1 hx with hx | hx
        · exact hm.spent x hx ch hi
        · rw [List.mem_singleton.1 hx] at he
          exact absurd rfl he
  refine ⟨h.keys, hspent _ h.table, hspent _ h.book, ?_, fun x hx => ?_⟩
  · rw [ChallengeRun.spend, List.map_append, List.map_singleton, List.nodup_append]
    refine ⟨h.nodup, List.nodup_singleton _, fun i hi j hj => ?_⟩
    obtain ⟨x, hx, rfl⟩ := List.mem_map.1 hi
    rw [List.mem_singleton.1 hj]
    exact hnot x hx
  · rcases List.mem_append.1 hx with hx | hx
    · exact h.redemptions x hx
    · rw [List.mem_singleton.1 hx]
      rw [Challenge.IsExpiredAt, not_lt] at htime
      refine ⟨issued, hpubkey ▸ hissued, ?_, ?_⟩
      · rw [hrecord] at htime
        exact htime
      · rw [hrecord] at hsolved
        exact hsolved

theorem Sound.of_records (h : r.Sound c showUuid) {s : Challenges} (htable : r.Records s.table)
    (hbook : r.Records s.book.byId) : ({ r with state := s } : ChallengeRun).Sound c showUuid :=
  ⟨h.keys, ⟨htable.issued, htable.spent⟩, ⟨hbook.issued, hbook.spent⟩, h.nodup, h.redemptions⟩

/-- What one call preserves. -/
theorem Sound.after (hsec1 : Function.Injective c.toSec1Bytes) (h : r.Sound c showUuid)
    {made : BookCall} (hfresh : ∀ id ∈ made.drawn?, id ∉ r.issued) :
    (r.after c showUuid made).Sound c showUuid := by
  cases made with
  | issueAtTarget commits id nonce pubkey target network now =>
    have hend : Ends _ _ _ (ChallengeBook.issueAtTarget c commits id nonce pubkey target network now
        r.state) := triple_issueAtTarget _ rfl
    rw [ChallengeRun.after]
    generalize ChallengeBook.issueAtTarget c commits id nonce pubkey target network now r.state = o
      at hend
    obtain ⟨s', challenge | e | _⟩ := o
    · obtain ⟨hissue, rfl⟩ := hend
      exact h.issue (hfresh id rfl) hissue
    · obtain rfl : s' = r.state := hend
      exact h
    · obtain rfl : s' = r.state := hend
      exact h
  | redeem commits id pubkey solution now =>
    have hend : Ends _ _ _ (ChallengeBook.redeem c showUuid commits id pubkey solution now r.state) :=
      triple_redeem _ rfl
    rw [ChallengeRun.after]
    generalize ChallengeBook.redeem c showUuid commits id pubkey solution now r.state = o at hend
    obtain ⟨s', redeemed | e | _⟩ := o
    · obtain ⟨challenge, hlookup, hvalid, rfl, rfl⟩ := hend
      exact h.spend hsec1 hlookup hvalid
    · obtain rfl : s' = r.state := hend
      exact h
    · exact hend.elim
  | check id pubkey solution now => exact h
  | cleanup commits now =>
    refine h.of_records ?_ (h.book.retain fun ch => timestamp now ≤ ch.horizon)
    rw [ChallengeBook.cleanup]
    cases commits with
    | true => exact h.table.retain fun ch => timestamp now ≤ ch.horizon
    | false => exact h.table
  | pruneFaucetChallenges nowUnix =>
    exact h.of_records (h.table.retain fun ch => nowUnix ≤ ch.horizon) h.book

/-- Fewer redemptions are asked less of. -/
theorem Sound.forget (h : r.Sound c showUuid) {l : List Redemption}
    (hl : l.Sublist r.redemptions) : ({ r with redemptions := l } : ChallengeRun).Sound c showUuid :=
  ⟨h.keys, ⟨h.table.issued, fun x hx => h.table.spent x (hl.subset hx)⟩,
    ⟨h.book.issued, fun x hx => h.book.spent x (hl.subset hx)⟩, h.nodup.sublist (hl.map _),
    fun x hx => h.redemptions x (hl.subset hx)⟩

theorem sublist_redemptions (made : BookCall) :
    r.redemptions.Sublist (r.after c showUuid made).redemptions := by
  cases made with
  | issueAtTarget commits id nonce pubkey target network now =>
    rw [ChallengeRun.after]
    split <;> exact List.Sublist.refl _
  | redeem commits id pubkey solution now =>
    rw [ChallengeRun.after]
    split
    · exact List.sublist_append_left _ _
    · exact List.Sublist.refl _
  | check id pubkey solution now => exact List.Sublist.refl _
  | cleanup commits now => exact List.Sublist.refl _
  | pruneFaucetChallenges nowUnix => exact List.Sublist.refl _

theorem Sound.interrupted (hsec1 : Function.Injective c.toSec1Bytes) (h : r.Sound c showUuid)
    {during : Option BookCall} (hfresh : ∀ made ∈ during, ∀ id ∈ made.drawn?, id ∉ r.issued) :
    (r.interrupted c showUuid during).Sound c showUuid := by
  cases during with
  | none => exact h
  | some made => exact (h.after hsec1 (hfresh made rfl)).forget (sublist_redemptions made)

/-- A book that is started from the table holds records of the table. -/
theorem Sound.restore (h : r.Sound c showUuid) (now : DateTime) :
    r.Records (ChallengeBook.restore r.state.table now).byId := by
  refine h.table.of_subset fun id challenge hlookup => ?_
  obtain ⟨⟨k, hk⟩, rfl⟩ := ChallengeBook.lookup_restore hlookup
  obtain ⟨pk, issued, hissued, hrecord⟩ := h.table.issued k challenge hk
  have hid : challenge.id = k := by rw [hrecord, (h.keys k pk issued hissued).1]
  rw [hid, hk]

theorem sound_of_reachable (hsec1 : Function.Injective c.toSec1Bytes)
    (hs : (challengeRuns c showUuid).Reachable r) : r.Sound c showUuid := by
  have h₀ : ∀ r ∈ (challengeRuns c showUuid).init, r.Sound c showUuid := by
    rintro _ rfl
    exact ⟨nofun, ⟨nofun, nofun⟩, ⟨nofun, nofun⟩, List.nodup_nil, nofun⟩
  refine hs.invariant h₀ fun r op r' h _ hstep => ?_
  obtain ⟨hfresh, hstep⟩ := hstep
  cases op with
  | call made =>
    rw [show r' = _ from hstep]
    exact h.after hsec1 (hfresh made rfl)
  | crash during now =>
    have hstopped := h.interrupted hsec1 hfresh
    rw [show r' = _ from hstep]
    exact hstopped.of_records hstopped.table (hstopped.restore now)

end ChallengeRun

/-- Each challenge is redeemed at most once. In every run: no two redemptions that returned
    are of the same challenge; each is by the key the challenge was issued to, no later than
    it expires, and with a solution that meets the target it was issued with; and `check`
    passes exactly if `redeem` would. -/
theorem redeemed_once (hsec1 : Function.Injective c.toSec1Bytes)
    (hs : (challengeRuns c showUuid).Reachable r) :
    (r.redemptions.map Redemption.id).Nodup ∧
    (∀ x ∈ r.redemptions, ∃ challenge, r.issued.lookup x.id = some (x.pubkey, challenge) ∧
      timestamp x.now ≤ challenge.expiresAt ∧ challenge.IsSolvedBy c showUuid x.solution) ∧
    ∀ id pubkey solution now,
      (r.state.book.check c showUuid id pubkey solution now = .ok () ↔
        ∃ redeemed, (ChallengeBook.redeem c showUuid true id pubkey solution now r.state).2 =
          .ok redeemed) ∧
      ∀ e, r.state.book.check c showUuid id pubkey solution now = .err e → ∀ commits,
        ChallengeBook.redeem c showUuid commits id pubkey solution now r.state =
          (r.state, .err e) := by
  have h := ChallengeRun.sound_of_reachable hsec1 hs
  exact ⟨h.nodup, h.redemptions, fun id pubkey solution now => check_iff r.state⟩

/-- Keys are written as that many bytes, and every hash is zero. -/
def sampleKeys : Crypto := { pairingCrypto with toSec1Bytes := fun pubkey => List.replicate pubkey 0 }

theorem sampleKeys_injective : Function.Injective sampleKeys.toSec1Bytes := by
  intro a b h
  have hlen := congrArg List.length h
  simpa [sampleKeys] using hlen

/-- The state at first. -/
def sampleEmpty : ChallengeRun := ⟨⟨⟨∅, ∅⟩, ∅⟩, ∅, []⟩

/-- A challenge is issued to a key. -/
def sampleIssued : ChallengeRun :=
  sampleEmpty.after sampleKeys (fun _ => []) (.issueAtTarget true 1 [] 7 5 none 0)

theorem sampleIssued_reachable (C : ChallengeRun → ChallengeOp → Prop)
    (hC : ∀ r made, C r (.call made)) :
    (challengeRuns sampleKeys fun _ => []).ReachableBy C sampleIssued :=
  .step (l := .call (.issueAtTarget true 1 [] 7 5 none 0)) (.init rfl) (hC _ _) ⟨by
    rintro _ ⟨⟩ _ ⟨⟩
    exact Finmap.notMem_empty, rfl⟩

/-- The process crashes and starts again two seconds later. -/
def sampleRestarted : ChallengeRun :=
  { sampleIssued with state :=
      ⟨ChallengeBook.restore sampleIssued.state.table (Duration.seconds 2), sampleIssued.state.table⟩ }

theorem sampleRestarted_step :
    (challengeRuns sampleKeys fun _ => []).step sampleIssued (.crash none (Duration.seconds 2))
      sampleRestarted := ⟨nofun, rfl⟩

/-- The challenge is redeemed three seconds after it was issued, by the process after the
    crash. -/
theorem redeemed_once_restarted :
    ∃ r, (challengeRuns sampleKeys fun _ => []).Reachable r ∧
      r.redemptions = [⟨1, 7, 0, Duration.seconds 3⟩] ∧ (r.redemptions.map Redemption.id).Nodup := by
  have h := ((sampleIssued_reachable (fun _ _ => True) fun _ _ => trivial).step trivial
    sampleRestarted_step).step (l := .call (.redeem true 1 7 0 (Duration.seconds 3))) trivial
      ⟨by rintro _ ⟨⟩ _ ⟨⟩, rfl⟩
  refine ⟨_, h, ?_, (redeemed_once sampleKeys_injective h).1⟩
  rw [ChallengeRun.after]
  have hok : ∃ redeemed, (ChallengeBook.redeem sampleKeys (fun _ => []) true 1 7 0 (Duration.seconds 3)
      sampleRestarted.state).2 = .ok redeemed := by
    rw [← (check_iff sampleRestarted.state).1]
    decide +kernel
  obtain ⟨redeemed, hredeemed⟩ := hok
  generalize ChallengeBook.redeem sampleKeys (fun _ => []) true 1 7 0 (Duration.seconds 3)
    sampleRestarted.state = o at hredeemed
  obtain ⟨s', _ | e | _⟩ := o
  · rfl
  · cases hredeemed
  · cases hredeemed

/-! ## One challenge at a time -/

/-- The challenge of an id is known to the book, was issued to the key, and is neither
    redeemed nor expired. -/
def ChallengeBook.Redeemable (c : Crypto) (book : ChallengeBook) (pubkey : PublicKey)
    (now : DateTime) (id : Uuid) : Prop :=
  ∃ challenge, book.byId.lookup id = some challenge ∧ challenge.pubkey = keyText c pubkey ∧
    challenge.isRedeemed = false ∧ ¬challenge.IsExpiredAt now

/-- A table has no more than one challenge of a key that is neither redeemed nor expired. -/
def ChallengeTable.OneEach (table : ChallengeTable) (now : DateTime) : Prop :=
  ∀ i j a b, table.lookup i = some a → table.lookup j = some b → a.pubkey = b.pubkey →
    a.isRedeemed = false → b.isRedeemed = false → ¬a.IsExpiredAt now → ¬b.IsExpiredAt now → i = j

variable (c showUuid) in
/-- A process starts from a table with one challenge of each key at most. -/
def StartsClean (r : ChallengeRun) (op : ChallengeOp) : Prop :=
  ∀ during now, op = .crash during now →
    (r.interrupted c showUuid during).state.table.OneEach now

/-- Every challenge of the book that is not redeemed is the outstanding one of its key. -/
def ChallengeBook.Single (book : ChallengeBook) : Prop :=
  ∀ id challenge, book.byId.lookup id = some challenge → challenge.isRedeemed = false →
    book.outstanding.lookup challenge.pubkey = some id

namespace ChallengeBook

variable {book : ChallengeBook}

/-- A challenge takes the place of the outstanding one. -/
theorem Single.issue (h : s.book.Single) (challenge : Challenge) : (s.issue challenge).book.Single := by
  intro id ch hlookup hunspent
  rw [Challenges.issue, Finmap.lookup_insert_eq] at hlookup
  rw [Challenges.issue, Finmap.lookup_insert_eq]
  split_ifs at hlookup with hid
  · rw [← Option.some.inj hlookup, if_pos rfl, hid]
  · have hold : s.book.byId.lookup id = some ch ∧ s.book.outstanding.lookup challenge.pubkey ≠ some id := by
      cases hprev : s.book.outstanding.lookup challenge.pubkey with
      | none =>
        rw [hprev] at hlookup
        exact ⟨hlookup, nofun⟩
      | some previous =>
        rw [hprev, Option.elim_some, Finmap.lookup_erase_eq] at hlookup
        split_ifs at hlookup with he
        exact ⟨hlookup, fun hsome => he (Option.some.inj hsome).symm⟩
    have hout := h id ch hold.1 hunspent
    rw [if_neg, hout]
    intro hkey
    rw [hkey] at hout
    exact hold.2 hout

theorem Single.spend (h : s.book.Single) (hlookup : s.book.byId.lookup id = some challenge)
    (hunspent : challenge.isRedeemed = false) (at' : ℤ) :
    (s.spend id { challenge with redeemedAt := some at' }).book.Single := by
  intro i ch hi hi'
  rw [Challenges.spend, Finmap.lookup_insert_eq] at hi
  rw [Challenges.spend, Finmap.lookup_erase_eq]
  split_ifs at hi with hid
  · rw [← Option.some.inj hi] at hi'
    cases hi'
  · have hout := h i ch hi hi'
    rw [if_neg, hout]
    intro hkey
    have hout' := h id challenge hlookup hunspent
    rw [show ch.pubkey = challenge.pubkey from hkey, hout'] at hout
    exact hid (Option.some.inj hout).symm

theorem Single.cleanup (h : s.book.Single) (commits : Bool) (now : DateTime) :
    (ChallengeBook.cleanup commits now s).book.Single := by
  intro id ch hlookup hunspent
  rw [ChallengeBook.cleanup] at hlookup ⊢
  dsimp only at hlookup ⊢
  have hmem : id ∈ s.book.byId.filterMap fun _ challenge =>
    if timestamp now ≤ challenge.horizon then some challenge else none := Finmap.mem_iff.2 ⟨ch, hlookup⟩
  rw [Finmap.lookup_filterMap] at hlookup
  obtain ⟨ch', hch', hkeep⟩ := Option.bind_eq_some_iff.1 hlookup
  split_ifs at hkeep
  obtain rfl := Option.some.inj hkeep
  rw [Finmap.lookup_filterMap, h id ch' hch' hunspent, Option.bind_some, if_pos hmem]

/-- A book that is started from a table with one challenge of each key at most. -/
theorem single_restore {table : ChallengeTable} (hkeyed : ∀ id ch, table.lookup id = some ch → ch.id = id)
    (h : table.OneEach now) : (ChallengeBook.restore table now).Single := by
  -- The rows that have been read, and the book so far.
  have key : ∀ (l l' : List Challenge) (book : ChallengeBook), (∀ ch ∈ l' ++ l, table.lookup ch.id = some ch) →
      book.Single → (∀ id ch, book.byId.lookup id = some ch → ch ∈ l' ∧ ch.id = id ∧
        (ch.isRedeemed = false → ¬ch.IsExpiredAt now)) →
      (l.foldl (restoreOne now) book).Single := by
    intro l
    induction l with
    | nil => exact fun _ _ _ hbook _ => hbook
    | cons row l ih =>
      intro l' book hrows hbook hread
      have hrow : table.lookup row.id = some row := hrows row (by simp)
      have hread' : ∀ m : ChallengeTable, (∀ id ch, m.lookup id = some ch → id = row.id ∧ ch = row ∨
          book.byId.lookup id = some ch) → (row.isRedeemed = false → ¬row.IsExpiredAt now) →
          ∀ id ch, m.lookup id = some ch → ch ∈ l' ++ [row] ∧ ch.id = id ∧
            (ch.isRedeemed = false → ¬ch.IsExpiredAt now) := by
        intro m hm hexp id ch hlookup
        rcases hm id ch hlookup with ⟨rfl, rfl⟩ | hold
        · exact ⟨by simp, rfl, hexp⟩
        · obtain ⟨hmem, hid, hok⟩ := hread id ch hold
          exact ⟨List.mem_append_left _ hmem, hid, hok⟩
      have hinsert : ∀ id ch, (book.byId.insert row.id row).lookup id = some ch →
          id = row.id ∧ ch = row ∨ book.byId.lookup id = some ch := by
        intro id ch hlookup
        rw [Finmap.lookup_insert_eq] at hlookup
        split_ifs at hlookup with hid
        · exact .inl ⟨hid, (Option.some.inj hlookup).symm⟩
        · exact .inr hlookup
      have hrows' : ∀ ch ∈ (l' ++ [row]) ++ l, table.lookup ch.id = some ch := by
        rw [List.append_assoc]
        exact hrows
      have hsame : ∀ id ch, book.byId.lookup id = some ch → ch ∈ l' ++ [row] ∧ ch.id = id ∧
          (ch.isRedeemed = false → ¬ch.IsExpiredAt now) := fun id ch hlookup =>
        ⟨List.mem_append_left _ (hread id ch hlookup).1, (hread id ch hlookup).2⟩
      rw [List.foldl_cons]
      refine ih (l' ++ [row]) _ hrows' ?_ ?_
      · rw [restoreOne]
        split_ifs with hredeemed htime hexp
        · intro id ch hlookup hunspent
          rcases hinsert id ch hlookup with ⟨rfl, rfl⟩ | hold
          · rw [hredeemed] at hunspent
            cases hunspent
          · exact hbook id ch hold hunspent
        · exact hbook
        · exact hbook
        · intro id ch hlookup hunspent
          change (book.outstanding.insert row.pubkey row.id).lookup ch.pubkey = some id
          rw [Finmap.lookup_insert_eq]
          rcases hinsert id ch hlookup with ⟨rfl, rfl⟩ | hold
          · rw [if_pos rfl]
          · obtain ⟨hmem, rfl, hok⟩ := hread id ch hold
            split_ifs with hkey
            · -- The row and the one before would be two challenges of the key.
              have hch : table.lookup ch.id = some ch := hrows ch (List.mem_append_left _ hmem)
              rw [h row.id ch.id row ch hrow hch hkey.symm (Bool.eq_false_iff.2 hredeemed) hunspent hexp
                (hok hunspent)]
            · exact hbook ch.id ch hold hunspent
      · rw [restoreOne]
        split_ifs with hredeemed htime hexp
        · exact hread' _ hinsert fun hunspent => by rw [hredeemed] at hunspent; cases hunspent
        · exact hsame
        · exact hsame
        · exact hread' _ hinsert fun _ => hexp
  refine key table.values [] ⟨∅, ∅⟩ (fun ch hch => ?_) nofun nofun
  obtain ⟨k, hk⟩ := Finmap.mem_values.1 hch
  rw [hkeyed k ch hk, hk]

end ChallengeBook

/-- The rows of the table are stored under their ids. -/
def ChallengeTable.Keyed (table : ChallengeTable) : Prop :=
  ∀ id challenge, table.lookup id = some challenge → challenge.id = id

theorem ChallengeTable.Keyed.insert (h : m.Keyed) (challenge : Challenge) :
    ChallengeTable.Keyed (m.insert challenge.id challenge) := by
  intro id ch hlookup
  rw [Finmap.lookup_insert_eq] at hlookup
  split_ifs at hlookup with hid
  · rw [← Option.some.inj hlookup, hid]
  · exact h id ch hlookup

theorem ChallengeTable.Keyed.prune (h : m.Keyed) (nowUnix : ℤ) :
    (pruneFaucetChallenges nowUnix m).Keyed := by
  intro id ch hlookup
  rw [pruneFaucetChallenges, Finmap.lookup_filterMap] at hlookup
  obtain ⟨ch', hch', hkeep⟩ := Option.bind_eq_some_iff.1 hlookup
  split_ifs at hkeep
  rw [← Option.some.inj hkeep]
  exact h id ch' hch'

/-- What one call preserves. -/
theorem ChallengeRun.single_after (made : BookCall) (hkeyed : r.state.table.Keyed)
    (h : r.state.book.Single) :
    (r.after c showUuid made).state.table.Keyed ∧ (r.after c showUuid made).state.book.Single := by
  cases made with
  | issueAtTarget commits id nonce pubkey target network now =>
    have hend : Ends _ _ _ (ChallengeBook.issueAtTarget c commits id nonce pubkey target network now
        r.state) := triple_issueAtTarget _ rfl
    rw [ChallengeRun.after]
    generalize ChallengeBook.issueAtTarget c commits id nonce pubkey target network now r.state = o
      at hend
    obtain ⟨s', challenge | e | _⟩ := o
    · obtain ⟨-, rfl⟩ := hend
      exact ⟨hkeyed.insert challenge, h.issue challenge⟩
    · obtain rfl : s' = r.state := hend
      exact ⟨hkeyed, h⟩
    · obtain rfl : s' = r.state := hend
      exact ⟨hkeyed, h⟩
  | redeem commits id pubkey solution now =>
    have hend : Ends _ _ _ (ChallengeBook.redeem c showUuid commits id pubkey solution now r.state) :=
      triple_redeem _ rfl
    rw [ChallengeRun.after]
    generalize ChallengeBook.redeem c showUuid commits id pubkey solution now r.state = o at hend
    obtain ⟨s', redeemed | e | _⟩ := o
    · obtain ⟨challenge, hlookup, hvalid, rfl, rfl⟩ := hend
      exact ⟨hkeyed.insert _, h.spend hlookup (Challenge.validate_eq_ok.1 hvalid).2.1 _⟩
    · obtain rfl : s' = r.state := hend
      exact ⟨hkeyed, h⟩
    · exact hend.elim
  | check id pubkey solution now => exact ⟨hkeyed, h⟩
  | cleanup commits now =>
    refine ⟨?_, h.cleanup commits now⟩
    cases commits with
    | true => exact hkeyed.prune _
    | false => exact hkeyed
  | pruneFaucetChallenges nowUnix => exact ⟨hkeyed.prune nowUnix, h⟩

theorem single_of_reachable
    (hs : (challengeRuns c showUuid).ReachableBy (StartsClean c showUuid) r) :
    r.state.table.Keyed ∧ r.state.book.Single := by
  have h₀ : ∀ r ∈ (challengeRuns c showUuid).init, r.state.table.Keyed ∧ r.state.book.Single := by
    rintro _ rfl
    exact ⟨nofun, nofun⟩
  refine hs.invariant h₀ fun r op r' ⟨hkeyed, h⟩ hop hstep => ?_
  obtain ⟨-, hstep⟩ := hstep
  cases op with
  | call made =>
    rw [show r' = _ from hstep]
    exact ChallengeRun.single_after made hkeyed h
  | crash during now =>
    have hstopped : (r.interrupted c showUuid during).state.table.Keyed := by
      cases during with
      | none => exact hkeyed
      | some made => exact (ChallengeRun.single_after made hkeyed h).1
    rw [show r' = _ from hstep]
    exact ⟨hstopped, ChallengeBook.single_restore hstopped (hop during now rfl)⟩

/-- No stock of puzzles, as long as every start is from a table that has no more than one
    challenge of a key that is neither redeemed nor expired: at every moment of such a run a
    key has at most one challenge that could be redeemed. -/
theorem one_redeemable (hs : (challengeRuns c showUuid).ReachableBy (StartsClean c showUuid) r)
    (pubkey : PublicKey) (now : DateTime) :
    {id | r.state.book.Redeemable c pubkey now id}.Subsingleton := by
  have h := (single_of_reachable hs).2
  rintro i ⟨a, ha, hakey, haunspent, -⟩ j ⟨b, hb, hbkey, hbunspent, -⟩
  have hi := h i a ha haunspent
  have hj := h j b hb hbunspent
  rw [hakey] at hi
  rw [hbkey, hi] at hj
  exact Option.some.inj hj

/-! Another challenge is issued to the key a second after the first. It takes the place of the
first in memory, but both are in the table. -/

/-- The run of the second challenge. -/
def sampleReplaced : ChallengeRun :=
  sampleIssued.after sampleKeys (fun _ => []) (.issueAtTarget true 2 [] 7 5 none (Duration.seconds 1))

/-- The process crashes and starts again. -/
def sampleStock : ChallengeRun :=
  { sampleReplaced with state :=
      ⟨ChallengeBook.restore sampleReplaced.state.table (Duration.seconds 2),
        sampleReplaced.state.table⟩ }

instance (book : ChallengeBook) (pubkey : PublicKey) (now : DateTime) (id : Uuid) :
    Decidable (book.Redeemable c pubkey now id) :=
  match h : book.byId.lookup id with
  | none => .isFalse fun ⟨_, hlookup, _⟩ => by rw [h] at hlookup; cases hlookup
  | some challenge => decidable_of_iff (challenge.pubkey = keyText c pubkey ∧
      challenge.isRedeemed = false ∧ ¬challenge.IsExpiredAt now)
    ⟨fun hok => ⟨challenge, h, hok⟩, fun ⟨_, hlookup, hok⟩ => by
      rw [h] at hlookup
      rwa [Option.some.inj hlookup]⟩

/-- After the crash both challenges can be redeemed. -/
theorem replaced_redeemable_after_restart :
    (challengeRuns sampleKeys fun _ => []).Reachable sampleStock ∧
      sampleStock.state.book.Redeemable sampleKeys 7 (Duration.seconds 2) 1 ∧
      sampleStock.state.book.Redeemable sampleKeys 7 (Duration.seconds 2) 2 := by
  refine ⟨?_, by decide +kernel, by decide +kernel⟩
  have h : (challengeRuns sampleKeys fun _ => []).Reachable sampleReplaced :=
    (sampleIssued_reachable (fun _ _ => True) fun _ _ => trivial).step
      (l := .call (.issueAtTarget true 2 [] 7 5 none (Duration.seconds 1))) trivial ⟨by
        rintro _ ⟨⟩ _ ⟨⟩
        decide +kernel, rfl⟩
  exact h.step (l := .crash none (Duration.seconds 2)) trivial ⟨nofun, rfl⟩

/-- Without the second challenge, the first is the only one that can be redeemed after the
    crash. -/
theorem one_redeemable_restarted :
    sampleRestarted.state.book.Redeemable sampleKeys 7 (Duration.seconds 2) 1 ∧
      {id | sampleRestarted.state.book.Redeemable sampleKeys 7 (Duration.seconds 2) id}.Subsingleton := by
  have htable : sampleIssued.state.table.keys = {1} := by decide +kernel
  have hclean : StartsClean sampleKeys (fun _ => []) sampleIssued (.crash none (Duration.seconds 2)) := by
    rintro _ _ ⟨⟩ i j a b ha hb - - - - -
    have hi : i ∈ sampleIssued.state.table.keys := Finmap.mem_keys.2 (Finmap.mem_iff.2 ⟨a, ha⟩)
    have hj : j ∈ sampleIssued.state.table.keys := Finmap.mem_keys.2 (Finmap.mem_iff.2 ⟨b, hb⟩)
    rw [htable, Finset.mem_singleton] at hi hj
    rw [hi, hj]
  have h := (sampleIssued_reachable (StartsClean sampleKeys fun _ => []) nofun).step hclean
    sampleRestarted_step
  exact ⟨by decide +kernel, one_redeemable h 7 (Duration.seconds 2)⟩

end Itx
