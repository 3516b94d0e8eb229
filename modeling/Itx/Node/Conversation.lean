import Itx.Node.Serving

/-!
# A connection

A peer connects to a node, greets it, and writes messages; the node reads them one by one and
answers (`handle_connection`, `node/src/handler.rs`). The bytes arrive in pieces, in both
directions; the node may be slow, and its chain changes meanwhile, by what other connections
ask and by what its peers send; a write may fail half-way, and the peer may hang up.

A peer that writes messages that can be read, one after the other, is in order with the node
(`conversation_in_order`):

* the node has handled the first of them, each on its chain as it was at that moment, and
  said of them what `handle` says, in order, and nothing else;
* the peer has read the first of these answers, up to one that is too long to be read;
* the node never finds a message malformed, and takes the peer to have disconnected only when
  it has hung up and all it wrote is handled; a severe strike is for an answer or a greeting
  among the messages, or for a handshake that fails: the peer is of another protocol, hangs up
  before it has greeted, or cannot be answered, the write of the node having failed; an
  ordinary strike is for a block or a transaction of the peer that is rejected;
* when nothing is on its way and the node waits, all is handled; and when nothing is on its
  way back and the peer waits, it has read all the answers it can.
-/

namespace Itx

open Blockchain

/-- `PROTOCOL_MAGIC`. -/
def protocolMagic : ℕ := 0x49545800

/-- `PROTOCOL_VERSION`. -/
def protocolVersion : ℕ := 3

/-- The answer of `perform_handshake_acceptor` to the first message, and whether the peer is
    accepted. There is none to what is not a greeting. -/
def greet (now : DateTime) : Packet → Option (Packet × Bool)
  | .hello magic version _ =>
    let accepted := decide (magic = protocolMagic ∧ version = protocolVersion)
    some (.helloAck protocolMagic protocolVersion accepted now, accepted)
  | _ => none

/-- A greeting of the protocol, in its version. -/
def Packet.Greets (m : Packet) : Prop := ∃ timestamp, m = .hello protocolMagic protocolVersion timestamp

/-- Such a greeting is answered, and accepted. -/
theorem Packet.Greets.greet_eq {m : Packet} (h : m.Greets) (now : DateTime) :
    greet now m = some (.helloAck protocolMagic protocolVersion true now, true) := by
  obtain ⟨timestamp, rfl⟩ := h
  rfl

/-- Why a node has closed a connection. -/
inductive Ending
  /-- The handshake failed. -/
  | handshake
  /-- The peer has hung up. -/
  | disconnected
  /-- What it wrote cannot be read. -/
  | malformed
  | refused (r : Refusal)
  /-- The task has panicked: an answer could not be sent, or not be found. -/
  | panicked
  deriving DecidableEq, Repr

/-- Whether it is a strike against the peer, and a severe one. -/
def Ending.strike : Ending → Option Bool
  | .handshake | .malformed => some true
  | .refused r => r.strike
  | .disconnected | .panicked => none

/-- A message handled, with the chain and the surroundings it was handled in. -/
structure Served where
  chain : Blockchain
  env : Surroundings
  packet : Packet

/-- A connection, at both of its ends and in between, with what has been read off it. -/
structure Conversation where
  chain : Blockchain
  /-- From the peer, which may have hung up. -/
  up : Line UInt8
  hungUp : Bool
  /-- The first message, its answer, and the messages handled after it. -/
  greeting : Option Packet
  ack : Option Packet
  served : List Served
  ended : Option Ending
  /-- Whether a write of the node has failed. -/
  torn : Bool
  /-- What the node has said, the last of it perhaps not whole. -/
  said : List Packet
  down : Line UInt8
  got : List Packet

/-- What may happen. -/
inductive ConversationOp
  | write (bs : List UInt8)
  | hangUp
  /-- Some bytes arrive at the node. -/
  | carry (n : ℕ)
  /-- The node makes a pass of its loop. Of what it writes only some bytes get through, if its
      write fails. -/
  | serve (env : Surroundings) (cut : Option ℕ)
  /-- Another task uses the chain. -/
  | elsewhere (op : DrainOp)
  /-- Some bytes arrive at the peer. -/
  | deliver (n : ℕ)
  /-- The peer reads. -/
  | read

section

variable (c : Crypto) (e : Encoding) (decode : List UInt8 → Option Packet)

namespace Served

def outcome (x : Served) : Outcome Refusal Answer := (handle c e x.env x.packet x.chain).2

/-- What is said to the peer. -/
def reply (x : Served) : Option Packet :=
  match x.outcome c e with
  | .ok answer => answer.reply
  | _ => none

end Served

namespace Conversation

/-- A connection is accepted. -/
def accepted (chain : Blockchain) : Conversation where
  chain
  up := .idle
  hungUp := false
  greeting := none
  ack := none
  served := []
  ended := none
  torn := false
  said := []
  down := .idle
  got := []

/-- What gets through of a message. -/
def through (m : Packet) : Option ℕ → List UInt8
  | none => e.frame m
  | some n => (e.frame m).take n

/-- A message is written, or some of it, which ends the connection. -/
def speak (m : Packet) (cut : Option ℕ) (failing : Ending) (σ : Conversation) : Conversation :=
  { σ with
    said := σ.said ++ [m]
    down := σ.down.write (through e m cut)
    ended := if cut.isSome then some failing else σ.ended
    torn := σ.torn || cut.isSome }

/-- The first message. -/
def shakeHands (now : DateTime) (cut : Option ℕ) (m : Packet) (σ : Conversation) : Conversation :=
  let σ := { σ with greeting := some m }
  match greet now m with
  | some (ack, accepted) =>
    let σ := { σ with ack := some ack }.speak e ack cut .handshake
    if accepted then σ else { σ with ended := some .handshake }
  | none => { σ with ended := some .handshake }

/-- Any other message. -/
def answer (env : Surroundings) (cut : Option ℕ) (m : Packet) (σ : Conversation) : Conversation :=
  let r := handle c e env m σ.chain
  let σ := { σ with chain := r.1, served := σ.served ++ [⟨σ.chain, env, m⟩] }
  match r.2 with
  | .ok answer =>
    match answer.reply with
    | some reply => σ.speak e reply cut .panicked
    | none => σ
  | .err refusal => { σ with ended := some (.refused refusal) }
  | .panic => { σ with ended := some .panicked }

/-- A pass of the node. -/
def serve (env : Surroundings) (cut : Option ℕ) (σ : Conversation) : Conversation :=
  match (Packet.reader decode).read σ.up.arrived with
  | .item m rest =>
    let σ := { σ with up := { σ.up with arrived := rest } }
    match σ.greeting with
    | none => σ.shakeHands e env.amb.now cut m
    | some _ => σ.answer c e env cut m
  | .waiting =>
    if σ.hungUp ∧ σ.up.flying = [] then
      { σ with ended := some (if σ.greeting = none then .handshake else .disconnected) }
    else σ
  | .refused => { σ with ended := some (if σ.greeting = none then .handshake else .malformed) }

/-- The peer reads a message, if there is one. -/
def readReply (σ : Conversation) : Conversation :=
  match (Packet.reader decode).read σ.down.arrived with
  | .item m rest => { σ with down := { σ.down with arrived := rest }, got := σ.got ++ [m] }
  | _ => σ

def Enabled (σ : Conversation) : ConversationOp → Prop
  | .write _ | .hangUp => σ.hungUp = false
  | .serve _ _ => σ.ended = none
  | _ => True

def after (σ : Conversation) : ConversationOp → Conversation
  | .write bs => { σ with up := σ.up.write bs }
  | .hangUp => { σ with hungUp := true }
  | .carry n => { σ with up := σ.up.carry n }
  | .serve env cut => σ.serve c e decode env cut
  | .elsewhere op => { σ with chain := op.apply c σ.chain }
  | .deliver n => { σ with down := σ.down.carry n }
  | .read => σ.readReply decode

end Conversation

/-- The connection as a transition system. -/
def conversationSystem : System Conversation ConversationOp where
  init := { σ | ∃ chain, (drainSystem c).Reachable chain ∧ σ = .accepted chain }
  step σ op σ' := σ.Enabled op ∧ σ' = σ.after c e decode op

/-! ## What holds of a connection -/

namespace Conversation

/-- What there is to an ending. -/
def Because (σ : Conversation) : Ending → Prop
  | .handshake => σ.served = [] ∧
      ((σ.greeting = none ∧ ((Packet.reader decode).read σ.up.arrived = .refused ∨
          σ.hungUp = true ∧ σ.up.flying = [] ∧ (Packet.reader decode).read σ.up.arrived = .waiting)) ∨
        ∃ m, σ.greeting = some m ∧ (¬ m.Greets ∨ σ.torn = true))
  | .disconnected => σ.hungUp = true ∧ σ.up.flying = [] ∧ (Packet.reader decode).read σ.up.arrived = .waiting
  | .malformed => (Packet.reader decode).read σ.up.arrived = .refused
  | .refused r => ∃ x, σ.served.getLast? = some x ∧ x.outcome c e = .err r
  | .panicked => ∃ x, σ.served.getLast? = some x ∧ (x.outcome c e = .panic ∨ (x.reply c e).isSome)

/-- What is written for some answers: all of them, but that the last write may have failed. -/
structure Written (ended : Option Ending) (written : List UInt8) (answers : List Packet) : Prop where
  isPrefix : written <+: answers.flatMap e.frame
  whole : ended = none → written = answers.flatMap e.frame

/-- What has been read and said goes with what has been written at either end. -/
structure Kept (σ : Conversation) : Prop where
  chain : (drainSystem c).Reachable σ.chain
  served : ∀ x ∈ σ.served, (drainSystem c).Reachable x.chain
  heard : (Packet.reader decode).Heard σ.up (σ.greeting.toList ++ σ.served.map Served.packet)
  ungreeted : σ.greeting = none → σ.ack = none ∧ σ.served = []
  said : σ.said = σ.ack.toList ++ σ.served.filterMap (Served.reply c e)
  written : Written e σ.ended σ.down.written σ.said
  got : (Packet.reader decode).Heard σ.down σ.got
  because : ∀ ending, σ.ended = some ending → σ.Because c e decode ending

end Conversation

end

namespace Conversation

variable {c : Crypto} {e : Encoding} {decode : List UInt8 → Option Packet} {σ : Conversation}
  {ended : Option Ending} {written : List UInt8} {answers : List Packet} {m : Packet} {rest : List UInt8}
  {cut : Option ℕ}

/-- The node writes one more message, all of it or a part. -/
theorem Written.speak (h : Written e ended written answers) (hended : ended = none) (m : Packet)
    (cut : Option ℕ) (failing : Ending) :
    Written e (if cut.isSome then some failing else ended) (written ++ through e m cut) (answers ++ [m]) := by
  rw [h.whole hended]
  cases cut with
  | none => exact ⟨by simp [through], by simp [through]⟩
  | some n => exact ⟨by simpa [through] using List.take_prefix n _, by simp⟩

/-- Closing writes nothing. -/
theorem Written.close (h : Written e ended written answers) (ending : Ending) :
    Written e (some ending) written answers := ⟨h.isPrefix, by simp⟩

/-- A connection is closed for a reason. -/
theorem Kept.close (h : σ.Kept c e decode) {ending : Ending} (hbecause : σ.Because c e decode ending) :
    { σ with ended := some ending }.Kept c e decode := by
  refine ⟨h.chain, h.served, h.heard, h.ungreeted, h.said, h.written.close ending, h.got, ?_⟩
  rintro _ ⟨⟩
  cases ending <;> exact hbecause

/-- A write that has failed closes the connection. -/
theorem ending_of_cut {failing ending : Ending}
    (h : (if cut.isSome then some failing else none) = some ending) :
    ending = failing ∧ cut.isSome = true := by
  split_ifs at h with hcut
  exact ⟨(Option.some.inj h).symm, hcut⟩

/-- The first message is a greeting, and is answered; or the handshake fails. -/
theorem Kept.shakeHands (h : σ.Kept c e decode) (hended : σ.ended = none) (hgreeting : σ.greeting = none)
    (hread : (Packet.reader decode).read σ.up.arrived = .item m rest) (now : DateTime) (cut : Option ℕ) :
    ({ σ with up := { σ.up with arrived := rest } }.shakeHands e now cut m).Kept c e decode := by
  obtain ⟨hack, hserved⟩ := h.ungreeted hgreeting
  have hheard := h.heard.read hread
  rw [hgreeting, hserved] at hheard
  have hsaid : σ.said = [] := by simpa [hack, hserved] using h.said
  rw [Conversation.shakeHands]
  cases hgreet : greet now m with
  | none =>
    -- No greeting: the connection is closed, and nothing is answered.
    refine ⟨h.chain, h.served, ?_, by simp, h.said, h.written.close _, h.got, ?_⟩
    · simpa [hserved] using hheard
    · rintro _ ⟨⟩
      refine ⟨hserved, .inr ⟨m, rfl, .inl fun hgreets => ?_⟩⟩
      rw [hgreets.greet_eq] at hgreet
      cases hgreet
  | some p =>
    obtain ⟨ack, accepted⟩ := p
    -- The answer to a greeting is written in any case.
    have hkept : (({ σ with up := { σ.up with arrived := rest }, greeting := some m, ack := some ack } :
        Conversation).speak e ack cut .handshake).Kept c e decode := by
      refine ⟨h.chain, h.served, ?_, by simp [Conversation.speak], ?_, h.written.speak hended ack cut _,
        h.got.write _, ?_⟩
      · simpa [Conversation.speak, hserved] using hheard
      · simp [Conversation.speak, hsaid, hserved]
      · intro ending hending
        rw [Conversation.speak] at hending
        dsimp only at hending
        rw [hended] at hending
        -- The connection ends here only if the write failed half-way.
        obtain ⟨rfl, hcut⟩ := ending_of_cut hending
        refine ⟨hserved, .inr ⟨m, rfl, .inr ?_⟩⟩
        rw [Conversation.speak, hcut, Bool.or_true]
    -- A peer of another protocol is answered, and then disconnected.
    cases accepted with
    | true => exact hkept
    | false =>
      refine hkept.close ⟨hserved, .inr ⟨m, rfl, .inl fun hgreets => ?_⟩⟩
      rw [hgreets.greet_eq] at hgreet
      cases hgreet

/-- Any later one is handled on the chain as it is, and what it is answered is written. -/
theorem Kept.answer (h : σ.Kept c e decode) (hended : σ.ended = none) {greeting : Packet}
    (hgreeting : σ.greeting = some greeting)
    (hread : (Packet.reader decode).read σ.up.arrived = .item m rest) (env : Surroundings) (cut : Option ℕ) :
    ({ σ with up := { σ.up with arrived := rest } }.answer c e env cut m).Kept c e decode := by
  have hheard := h.heard.read hread
  rw [Conversation.answer]
  dsimp only
  generalize hx : (⟨σ.chain, env, m⟩ : Served) = x
  have hchain : (drainSystem c).Reachable (handle c e env m σ.chain).1 := (preserves_handle m).apply h.chain
  have houtcome : (handle c e env m σ.chain).2 = x.outcome c e := by
    rw [← hx]
    rfl
  rw [houtcome]
  -- The chain a message is handled on is one the node really had.
  have hserved : ∀ y ∈ σ.served ++ [x], (drainSystem c).Reachable y.chain := by
    intro y hy
    rcases List.mem_append.1 hy with hy | hy
    · exact h.served y hy
    · rw [List.mem_singleton.1 hy, ← hx]
      exact h.chain
  -- What was heard is what was served before, and then this message.
  have hheard' : (Packet.reader decode).Heard { σ.up with arrived := rest }
      (σ.greeting.toList ++ (σ.served ++ [x]).map Served.packet) := by
    rw [List.map_append, ← List.append_assoc, ← hx]
    exact hheard
  have hlast : (σ.served ++ [x]).getLast? = some x := List.getLast?_concat
  have hungreeted : ∀ {P : Prop}, σ.greeting = none → P := fun hnone => by simp [hgreeting] at hnone
  have hsaid : ∀ {replies}, (x.reply c e).toList = replies →
      σ.said ++ replies = σ.ack.toList ++ (σ.served ++ [x]).filterMap (Served.reply c e) := by
    rintro _ rfl
    rw [h.said, List.filterMap_append, ← List.append_assoc]
    cases hreply : x.reply c e <;> simp [hreply]
  cases ho : x.outcome c e with
  | ok a =>
    have hreply : x.reply c e = a.reply := by rw [Served.reply, ho]
    dsimp only
    cases ha : a.reply with
    | some reply =>
      rw [ha] at hreply
      refine ⟨hchain, hserved, hheard', hungreeted, hsaid (by rw [hreply, Option.toList_some]),
        h.written.speak hended reply cut _, h.got.write _, ?_⟩
      intro ending hending
      dsimp only [speak] at hending
      rw [hended] at hending
      rw [(ending_of_cut hending).1]
      exact ⟨x, hlast, .inr (by rw [hreply, Option.isSome_some])⟩
    | none =>
      -- Without an answer nothing is written.
      rw [ha] at hreply
      refine ⟨hchain, hserved, hheard', hungreeted, ?_, h.written, h.got, ?_⟩
      · rw [← hsaid (by rw [hreply])]
        exact (List.append_nil _).symm
      · intro ending hending
        simp [hended] at hending
  | err r =>
    -- A refusal closes the connection without an answer.
    have hreply : x.reply c e = none := by rw [Served.reply, ho]
    refine ⟨hchain, hserved, hheard', hungreeted, ?_, h.written.close _, h.got, ?_⟩
    · rw [← hsaid (by rw [hreply])]
      exact (List.append_nil _).symm
    · rintro _ ⟨⟩
      exact ⟨x, hlast, ho⟩
  | panic =>
    have hreply : x.reply c e = none := by rw [Served.reply, ho]
    refine ⟨hchain, hserved, hheard', hungreeted, ?_, h.written.close _, h.got, ?_⟩
    · rw [← hsaid (by rw [hreply])]
      exact (List.append_nil _).symm
    · rintro _ ⟨⟩
      exact ⟨x, hlast, .inl ho⟩

/-- So whatever has arrived, the node keeps to it. -/
theorem Kept.serve (h : σ.Kept c e decode) (hended : σ.ended = none) (env : Surroundings)
    (cut : Option ℕ) : (σ.serve c e decode env cut).Kept c e decode := by
  rw [Conversation.serve]
  cases hread : (Packet.reader decode).read σ.up.arrived with
  | item m rest =>
    dsimp only
    split
    · next hgreeting => exact h.shakeHands hended hgreeting hread env.amb.now cut
    · next hgreeting => exact h.answer hended hgreeting hread env cut
  | waiting =>
    dsimp only
    split_ifs with hup hgreeting
    · exact h.close ⟨(h.ungreeted hgreeting).2, .inl ⟨hgreeting, .inr ⟨hup.1, hup.2, hread⟩⟩⟩
    · exact h.close ⟨hup.1, hup.2, hread⟩
    · exact h
  | refused =>
    dsimp only
    split_ifs with hgreeting
    · exact h.close ⟨(h.ungreeted hgreeting).2, .inl ⟨hgreeting, .inl hread⟩⟩
    · exact h.close hread

/-- What has ended stays so for its reason, whatever still arrives. -/
theorem Kept.because_carry (h : σ.Kept c e decode) (n : ℕ) {ending : Ending}
    (hending : σ.ended = some ending) : { σ with up := σ.up.carry n }.Because c e decode ending := by
  have hbecause := h.because ending hending
  have hwaiting : σ.hungUp = true ∧ σ.up.flying = [] ∧
      (Packet.reader decode).read σ.up.arrived = .waiting →
      σ.hungUp = true ∧ (σ.up.carry n).flying = [] ∧
        (Packet.reader decode).read (σ.up.carry n).arrived = .waiting := by
    rintro ⟨hungUp, hflying, hread⟩
    exact ⟨hungUp, by simp [Line.carry, hflying], by simpa [Line.carry, hflying] using hread⟩
  cases ending with
  | handshake =>
    refine ⟨hbecause.1, hbecause.2.imp_left fun hnone => ⟨hnone.1, ?_⟩⟩
    exact hnone.2.imp ((Packet.reader decode).refused_append _) hwaiting
  | disconnected => exact hwaiting hbecause
  | malformed => exact (Packet.reader decode).refused_append _ hbecause
  | _ => exact hbecause

/-- The peer reads an answer, if all of it has arrived. -/
theorem Kept.readReply (h : σ.Kept c e decode) : (σ.readReply decode).Kept c e decode := by
  rw [Conversation.readReply]
  cases hread : (Packet.reader decode).read σ.down.arrived with
  | item m rest =>
    refine ⟨h.chain, h.served, h.heard, h.ungreeted, h.said, h.written, h.got.read hread, ?_⟩
    intro ending hending
    have hbecause := h.because ending hending
    cases ending <;> exact hbecause
  | _ => exact h

/-- By induction on the steps, it is kept all along. -/
theorem kept_of_reachable (hσ : (conversationSystem c e decode).Reachable σ) : σ.Kept c e decode := by
  refine hσ.invariant (I := Kept c e decode) ?_ ?_
  · rintro σ ⟨chain, hchain, rfl⟩
    refine ⟨hchain, by simp [accepted], Reader.heard_idle, fun _ => ⟨rfl, rfl⟩, rfl,
      ⟨List.nil_prefix, fun _ => rfl⟩, ?_, ?_⟩
    · exact Reader.heard_idle
    · simp [accepted]
  · rintro σ op σ' h - ⟨henabled, rfl⟩
    -- What is only about the connection's ends is not changed by a step elsewhere.
    -- A step that leaves the reasons for an ending as they are keeps them.
    have hbecause : ∀ {σ' : Conversation}, σ'.ended = σ.ended → σ'.torn = σ.torn →
        σ'.hungUp = σ.hungUp → σ'.up = σ.up → σ'.greeting = σ.greeting → σ'.served = σ.served →
        ∀ ending, σ'.ended = some ending → σ'.Because c e decode ending := by
      rintro σ' hended' htorn hhung hup hgreeting hserved ending hending
      have hbecause := h.because ending (hended' ▸ hending)
      cases ending <;> simpa only [Because, htorn, hhung, hup, hgreeting, hserved] using hbecause
    cases op with
    | write bs =>
      refine ⟨h.chain, h.served, h.heard.write bs, h.ungreeted, h.said, h.written, h.got, ?_⟩
      intro ending hending
      have hbecause := h.because ending hending
      -- Who has hung up does not write any more.
      have hopen : σ.hungUp ≠ true := fun hungUp => Bool.false_ne_true (henabled.symm.trans hungUp)
      cases ending with
      | handshake =>
        exact ⟨hbecause.1, hbecause.2.imp_left fun hnone =>
          ⟨hnone.1, hnone.2.imp_right fun hwaiting => absurd hwaiting.1 hopen⟩⟩
      | disconnected => exact absurd hbecause.1 hopen
      | _ => exact hbecause
    | hangUp =>
      refine ⟨h.chain, h.served, h.heard, h.ungreeted, h.said, h.written, h.got, ?_⟩
      intro ending hending
      have hbecause := h.because ending hending
      cases ending with
      | handshake =>
        exact ⟨hbecause.1, hbecause.2.imp_left fun hnone =>
          ⟨hnone.1, hnone.2.imp_right fun hwaiting => ⟨rfl, hwaiting.2⟩⟩⟩
      | disconnected => exact ⟨rfl, hbecause.2⟩
      | _ => exact hbecause
    | carry n =>
      exact ⟨h.chain, h.served, h.heard.carry n, h.ungreeted, h.said, h.written, h.got,
        fun ending hending => h.because_carry n hending⟩
    | serve env cut => exact h.serve henabled env cut
    | elsewhere op =>
      exact ⟨h.chain.step trivial rfl, h.served, h.heard, h.ungreeted, h.said, h.written, h.got,
        hbecause rfl rfl rfl rfl rfl rfl⟩
    | deliver n =>
      exact ⟨h.chain, h.served, h.heard, h.ungreeted, h.said, h.written, h.got.carry n,
        hbecause rfl rfl rfl rfl rfl rfl⟩
    | read => exact h.readReply

/-- A run goes on by a step. -/
theorem reachable_conversed (hσ : (conversationSystem c e decode).Reachable σ) (op : ConversationOp)
    (henabled : σ.Enabled op) : (conversationSystem c e decode).Reachable (σ.after c e decode op) :=
  hσ.step trivial ⟨henabled, rfl⟩

/-! ## Peers in order -/

variable {hello : Packet} {asked : List Packet}

variable (e decode) in
/-- What can be read. -/
def Readable (m : Packet) : Prop := e.Carries decode m ∧ e.Within m

/-- The messages that only a node sends, or that only come first. -/
def IsAnswer : Packet → Prop
  | .utxos _ | .template _ | .chainTip _ _ | .templateValidity _ | .nodeList _ | .blocks _
  | .hello .. | .helloAck .. => True
  | _ => False

variable (c e decode) in
/-- The peer has greeted the node and asked for some things. -/
structure Orderly (σ : Conversation) (hello : Packet) (asked : List Packet) : Prop where
  /-- The first messages are handled, each on the chain of the moment. -/
  served : σ.served.map Served.packet <+: asked ∧ ∀ x ∈ σ.served, (drainSystem c).Reachable x.chain
  /-- The peer has read the first of their answers, up to one too long. -/
  got : σ.got <+: (σ.ack.toList ++ σ.served.filterMap (Served.reply c e)).takeWhile (e.Within ·)
  malformed : σ.ended ≠ some .malformed
  disconnected : σ.ended = some .disconnected → σ.hungUp = true ∧
    (σ.up.written = (hello :: asked).flatMap e.frame → σ.served.map Served.packet = asked)
  /-- A strike is for a handshake that fails, the peer being of another protocol, or having hung up
      before it has greeted, or the node having failed to write to it; or for a message that is no
      request, or a block or transaction that is not accepted: the last one handled. -/
  struck : ∀ ending severe, σ.ended = some ending → ending.strike = some severe →
    (severe = true ∧ σ.served = [] ∧
      (¬ hello.Greets ∨ (σ.hungUp = true ∧ ¬ e.frame hello <+: σ.up.written) ∨
        (σ.greeting = some hello ∧ σ.torn = true))) ∨
    ∃ x, σ.served.getLast? = some x ∧
      if severe then IsAnswer x.packet else ∃ err, x.outcome c e = .err (.rejected err)
  /-- Nothing is on its way, and the node waits. -/
  settled : σ.ended = none → σ.up.written = (hello :: asked).flatMap e.frame → σ.up.flying = [] →
    (Packet.reader decode).read σ.up.arrived = .waiting → σ.served.map Served.packet = asked
  /-- Nothing is on its way back, and the peer waits. -/
  answered : σ.ended = none → σ.down.flying = [] → (Packet.reader decode).Stuck σ.down.arrived →
    σ.got = (σ.ack.toList ++ σ.served.filterMap (Served.reply c e)).takeWhile (e.Within ·)

/-- A call that does not refuse a message as unexpected. -/
abbrev Expects {α : Type} (x : Call Blockchain Refusal α) : Prop :=
  Call.Triple (fun _ => True) x (fun _ _ => True) (fun r _ => r ≠ .unexpected) fun _ => True

/-- What is computed is no refusal. -/
theorem expects_lift {α : Type} {o : Outcome Refusal α} (h : o ≠ .err .unexpected) : Expects (Call.lift o) :=
  Call.Triple.lift (fun _ _ _ _ => trivial) (fun _ _ _ ho he => h (he ▸ ho)) fun _ _ _ => trivial

/-- Nor is what is expected to be there. -/
theorem expects_expect {α : Type} (x : Option α) : Expects (Call.lift (.expect x)) :=
  expects_lift (by cases x <;> simp [Outcome.expect])

/-- A call of the chain rejects what it does not accept; it expects the message. -/
theorem expects_rejected {α : Type} (x : ChainCall α) : Expects (Call.mapErr .rejected x) :=
  Call.Triple.mapErr (Call.Triple.of_forall (fun _ _ => trivial) (fun _ _ => by simp) fun _ => trivial)

/-- So does taking up a block. -/
theorem expects_takeBlock (env : Surroundings) (block : Block) : Expects (takeBlock c env block) := by
  intro s _
  rw [takeBlock]
  generalize Blockchain.addBlock c env.amb block s = r
  obtain ⟨s', ⟨⟩ | e | _⟩ := r
  · trivial
  · cases e <;> simp [Call.Ends]
  · trivial

/-- Only an answer, or a greeting, is refused as unexpected. -/
theorem isAnswer_of_unexpected {env : Surroundings} {s : Blockchain}
    (h : (handle c e env m s).2 = .err .unexpected) : IsAnswer m := by
  by_contra hrequest
  have hpure : ∀ answer, Expects (pure answer : Call Blockchain Refusal Answer) := fun _ =>
    Call.Triple.pure fun _ _ => trivial
  have hread : ∀ {f : Blockchain → Call Blockchain Refusal Answer}, (∀ s, Expects (f s)) →
      Expects (Call.get >>= f) := fun hf => Call.Triple.get_bind fun s _ => (hf s).conseq
    (fun _ _ => trivial) (fun _ _ => id) (fun _ _ => id) fun _ => id
  have hexpects : Expects (handle c e env m) := by
    -- Each request is answered, or refused for its own block, its own transaction or the template.
    cases m with
    | fetchBlocks _ _ | askChainTip | validateTemplate _ =>
      exact hread fun _ => (expects_expect _).bind fun _ => hpure _
    | fetchUtxos _ => exact hread fun _ => hpure _
    | discoverNodes => exact hpure _
    | fetchTemplate pubkey =>
      refine hread fun s => (expects_lift ?_).bind fun _ => hpure _
      generalize createBlockTemplate c env.amb.now env.uniqueId pubkey s = o
      cases o <;> simp [Outcome.mapErr]
    | newBlock block => exact (expects_takeBlock env block).bind fun _ => hpure _
    | submitTemplate block => exact (expects_takeBlock env block).bind fun _ => hpure _
    | submitTransaction tx => exact (expects_rejected _).bind fun _ => hpure _
    | newTransaction tx =>
      exact Call.Triple.bind (Call.Triple.ignore (Call.Triple.of_forall (fun _ _ => trivial)
        (fun _ _ => trivial) fun _ => trivial)) fun _ => hpure _
    | _ => exact absurd trivial hrequest
  exact hexpects.err trivial (Prod.ext rfl h) rfl

variable {σ : Conversation}

/-- What can be read of some answers, each of which is carried: those before one too long. -/
theorem exists_reads_frames (h : ∀ m ∈ answers, e.Carries decode m) :
    ∃ rest, (Packet.reader decode).Reads (answers.flatMap e.frame) (answers.takeWhile (e.Within ·)) rest ∧
      (Packet.reader decode).Stuck rest := by
  have hfirst : ∀ m ∈ answers.takeWhile (e.Within ·), (Packet.reader decode).Writes m (e.frame m) :=
    fun m hm => writes_frame (h m (List.takeWhile_subset _ hm)) (by simpa using List.mem_takeWhile_imp hm)
  refine ⟨(answers.dropWhile (e.Within ·)).flatMap e.frame, ?_, ?_⟩
  · have hreads := Reader.reads_flatMap hfirst ((answers.dropWhile (e.Within ·)).flatMap e.frame)
    rwa [← List.flatMap_append, List.takeWhile_append_dropWhile] at hreads
  · cases hdrop : answers.dropWhile (e.Within ·) with
    | nil => exact Reader.stuck_nil
    | cons m rest =>
      have hlong : ¬ e.Within m := by
        have hhead := List.head_dropWhile_not (fun m => decide (e.Within m)) (l := answers) (by simp [hdrop])
        simpa [hdrop] using hhead
      have hm : m ∈ answers := List.dropWhile_subset _ (by rw [hdrop]; exact List.mem_cons_self)
      rw [List.flatMap_cons]
      exact Reader.stuck_of_refused (read_frame_of_oversized (h m hm) hlong _)

/-- What the peer has asked for can be read: what the node has read of it is the first, and the
    others are left. -/
theorem Kept.exists_others (h : σ.Kept c e decode) {tail : List UInt8}
    (hreadable : ∀ m ∈ hello :: asked, Readable e decode m)
    (hsent : σ.up.written ++ tail = (hello :: asked).flatMap e.frame) :
    ∃ others, hello :: asked = σ.greeting.toList ++ σ.served.map Served.packet ++ others ∧
      (Packet.reader decode).Reads (σ.up.arrived ++ (σ.up.flying ++ tail)) others [] := by
  have hall := Reader.reads_flatMap (r := Packet.reader decode)
    (fun m hm => writes_frame (hreadable m hm).1 (hreadable m hm).2) []
  rw [List.append_nil, ← hsent] at hall
  exact h.heard.split hall Reader.stuck_nil

/-- When all has arrived and the node waits, it has read all. -/
theorem Kept.served_eq (h : σ.Kept c e decode)
    (hreadable : ∀ m ∈ hello :: asked, Readable e decode m)
    (hsent : σ.up.written = (hello :: asked).flatMap e.frame) (hflying : σ.up.flying = [])
    (hread : (Packet.reader decode).read σ.up.arrived = .waiting) : σ.served.map Served.packet = asked := by
  obtain ⟨others, hsplit, hothers⟩ := h.exists_others hreadable ((List.append_nil _).trans hsent)
  rw [hflying, List.append_nil, List.append_nil] at hothers
  rcases hothers.front with ⟨-, rfl⟩ | ⟨m, rest, hitem⟩
  · cases hgreeting : σ.greeting with
    | none => simp [hgreeting, (h.ungreeted hgreeting).2] at hsplit
    | some greeting =>
      rw [hgreeting, List.append_nil] at hsplit
      exact (List.cons.inj hsplit).2.symm
  · rw [hread] at hitem
    cases hitem

/-- Why the handshake has failed with a peer whose greeting can be read. -/
theorem Kept.handshake_failed (h : σ.Kept c e decode)
    (hreadable : ∀ m ∈ hello :: asked, Readable e decode m)
    (hsent : σ.up.written <+: (hello :: asked).flatMap e.frame) (hended : σ.ended = some .handshake) :
    σ.served = [] ∧ (¬ hello.Greets ∨ (σ.hungUp = true ∧ ¬ e.frame hello <+: σ.up.written) ∨
      (σ.greeting = some hello ∧ σ.torn = true)) := by
  obtain ⟨hserved, hbecause⟩ := h.because _ hended
  obtain ⟨tail, hsent⟩ := hsent
  obtain ⟨others, hsplit, hothers⟩ := h.exists_others hreadable hsent
  refine ⟨hserved, ?_⟩
  rcases hbecause with ⟨hnone, hrefused | ⟨hungUp, hflying, hwaiting⟩⟩ | ⟨m, hgreeting, hfailed⟩
  · exact absurd hrefused hothers.read_ne_refused
  · refine .inr (.inl ⟨hungUp, ?_⟩)
    rintro ⟨more, hwritten⟩
    -- All that was written has arrived, and the greeting would have been read.
    obtain ⟨front, hfront, hreads⟩ := h.heard
    rw [hnone, hserved] at hreads
    cases hreads
    rw [hflying, List.append_nil, ← hwritten] at hfront
    obtain ⟨hcarries, hwithin⟩ := hreadable hello List.mem_cons_self
    rw [← hfront, writes_frame hcarries hwithin] at hwaiting
    cases hwaiting
  · rw [hgreeting, hserved] at hsplit
    obtain rfl := (List.cons.inj hsplit).1
    exact hfailed.imp_right fun htorn => .inr ⟨hgreeting, htorn⟩

/-- A peer that greets a node and then writes messages that can be read, is in order with it,
    however the bytes are cut and delayed and whatever else the node does, as long as what the
    node answers is decoded as it was encoded. -/
theorem conversation_in_order (hσ : (conversationSystem c e decode).Reachable σ)
    (hreadable : ∀ m ∈ hello :: asked, Readable e decode m)
    (hsent : σ.up.written <+: (hello :: asked).flatMap e.frame)
    (hsaid : ∀ m ∈ σ.said, e.Carries decode m) : σ.Orderly c e decode hello asked := by
  have h := kept_of_reachable hσ
  have hhandshake := h.handshake_failed hreadable hsent
  obtain ⟨tail, hsent⟩ := hsent
  obtain ⟨others, hsplit, hothers⟩ := h.exists_others hreadable hsent
  have hmalformed : σ.ended ≠ some .malformed := fun hended =>
    hothers.read_ne_refused (h.because _ hended)
  obtain ⟨rest, hanswers, hstuck⟩ := exists_reads_frames hsaid
  obtain ⟨unwritten, hwritten⟩ := h.written.isPrefix
  have hgot := hanswers
  rw [← hwritten] at hgot
  obtain ⟨unread, hreplies, -⟩ := h.got.split hgot hstuck
  rw [h.said] at hreplies
  refine ⟨⟨?_, h.served⟩, ⟨unread, hreplies.symm⟩, hmalformed, ?_, ?_, ?_, ?_⟩
  · cases hgreeting : σ.greeting with
    | none => simp [(h.ungreeted hgreeting).2]
    | some greeting =>
      rw [hgreeting] at hsplit
      exact ⟨others, (List.cons.inj hsplit).2.symm⟩
  · -- It had hung up, and nothing of what it wrote was on its way.
    intro hended
    obtain ⟨hungUp, hflying, hread⟩ := h.because _ hended
    exact ⟨hungUp, fun hall => h.served_eq hreadable hall hflying hread⟩
  · intro ending severe hended hstrike
    have hbecause := h.because ending hended
    cases ending with
    | handshake =>
      obtain rfl := Option.some.inj hstrike
      exact .inl ⟨rfl, hhandshake hended⟩
    | malformed => exact absurd hended hmalformed
    | disconnected => cases hstrike
    | panicked => cases hstrike
    | refused r =>
      -- A refusal is of the last message that was handled.
      obtain ⟨x, hlast, houtcome⟩ := hbecause
      refine .inr ⟨x, hlast, ?_⟩
      cases r with
      | unexpected =>
        obtain rfl := Option.some.inj hstrike
        exact isAnswer_of_unexpected houtcome
      | rejected err =>
        obtain rfl := Option.some.inj hstrike
        exact ⟨err, houtcome⟩
      | noTemplate err => cases hstrike
  · exact fun _ hall hflying hread => h.served_eq hreadable hall hflying hread
  · -- Nothing is on its way to the peer, so what it has not read it cannot read.
    intro hended hflying hpeer
    rw [← h.written.whole hended, ← List.append_nil σ.down.written] at hanswers
    obtain ⟨unread, hreplies, hunread⟩ := h.got.split hanswers hstuck
    rw [hflying, List.append_nil, List.append_nil] at hunread
    rw [h.said] at hreplies
    cases hunread with
    | nil => rw [hreplies, List.append_nil]
    | cons hread _ => exact absurd hread (hpeer _ _)

end Conversation

namespace Sample

open Conversation

def greeting : Packet := .hello protocolMagic protocolVersion 0

def questions : List Packet := [.discoverNodes, .askChainTip]

def replies : List Packet :=
  [.helloAck protocolMagic protocolVersion true ambient.now, .nodeList ["seed"], .chainTip 0 0]

/-- A decoder of these messages. -/
def decodeOne (bs : List UInt8) : Option Packet :=
  (greeting :: questions ++ replies).find? fun m => encoding.packet m = bs

/-- The bytes of three messages arrive in two pieces, and those of the answers in one. -/
noncomputable def conversation : Conversation :=
  [ConversationOp.write ((greeting :: questions).flatMap encoding.frame), .carry 70, .serve surroundings none,
    .serve surroundings none, .carry 70, .serve surroundings none, .serve surroundings none, .deliver 500,
    .read, .read, .read].foldl (fun σ op => σ.after (crypto [] []) encoding decodeOne op) (.accepted new)

/-- The sample conversation, step by step. -/
theorem reachable_conversation :
    (conversationSystem (crypto [] []) encoding decodeOne).Reachable conversation := by
  have h₀ : (conversationSystem (crypto [] []) encoding decodeOne).Reachable (.accepted new) :=
    .init ⟨new, .init rfl, rfl⟩
  have h₁ := reachable_conversed h₀ (.write ((greeting :: questions).flatMap encoding.frame)) rfl
  have h₂ := reachable_conversed h₁ (.carry 70) trivial
  have h₃ := reachable_conversed h₂ (.serve surroundings none) rfl
  have h₄ := reachable_conversed h₃ (.serve surroundings none) (by change _ = none; decide +kernel)
  have h₅ := reachable_conversed h₄ (.carry 70) trivial
  have h₆ := reachable_conversed h₅ (.serve surroundings none) (by change _ = none; decide +kernel)
  have h₇ := reachable_conversed h₆ (.serve surroundings none) (by change _ = none; decide +kernel)
  have h₈ := reachable_conversed h₇ (.deliver 500) trivial
  rw [conversation]
  simp only [List.foldl_cons, List.foldl_nil]
  exact reachable_conversed (reachable_conversed (reachable_conversed h₈ .read trivial) .read trivial)
    .read trivial

/-- All that was asked is handled, and all answers are read. -/
theorem conversation_in_order_sample :
    conversation.Orderly (crypto [] []) encoding decodeOne greeting questions ∧
      conversation.got = replies := by
  have hreadable : ∀ m ∈ greeting :: questions ++ replies,
      (decodeOne (encoding.packet m) = some m ∧ (encoding.packet m).length < 256 ^ 8) ∧
        (encoding.packet m).length ≤ maxMessageSize := by decide +kernel
  have hsaid : conversation.said = replies := by decide +kernel
  refine ⟨conversation_in_order reachable_conversation (fun m hm => hreadable m (List.mem_append_left _ hm))
    ⟨[], by decide +kernel⟩ fun m hm => ?_, by decide +kernel⟩
  rw [hsaid] at hm
  exact (hreadable m (List.mem_append_right _ hm)).1

end Sample

end Itx
