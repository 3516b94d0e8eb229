import Itx.Lib.Reader
import Itx.Node.Drain
import Itx.Node.Unspent

/-!
# Handling a message

All the messages of the network (`Message`, `lib/src/network.rs`), how they are encoded, and
what a node does on each of them (`handle_connection`, `node/src/handler.rs`): it answers, or
changes its chain, or passes the message on to its peers; or it closes the connection, with a
strike against the peer or without (`Refusal`).

The messages are read off a stream by `Message::receive_async`, of which the decoding is
another crate's (`decode`). A frame whose message is decoded and not too long is read as that
message whatever follows it (`writes_frame`); one that is too long is refused
(`read_frame_of_oversized`).
-/

namespace Itx

open Blockchain Cbor

/-- `Message`. -/
inductive Packet
  | hello (magic version : ℕ) (timestamp : DateTime)
  | helloAck (magic version : ℕ) (accepted : Bool) (timestamp : DateTime)
  | fetchUtxos (key : PublicKey)
  | utxos (outputs : List (TransactionOutput × Bool))
  | submitTransaction (tx : Transaction)
  | newTransaction (tx : Transaction)
  | fetchTemplate (pubkey : PublicKey)
  | template (block : Block)
  | validateTemplate (block : Block)
  | templateValidity (valid : Bool)
  | submitTemplate (block : Block)
  | discoverNodes
  | nodeList (nodes : List String)
  | askChainTip
  | chainTip (height : ℕ) (work : U256)
  | fetchBlocks (start count : ℕ)
  | blocks (blocks : List Block)
  | newBlock (block : Block)
  deriving DecidableEq

/-! ## Frames -/

namespace Encoding

variable (e : Encoding)

/-- `Message::encode`. A variant without a value is its name; those with blocks or unspent outputs are
    encoded as they are alone. -/
def packet : Packet → List UInt8
  | .hello magic version timestamp => variant "Hello" <| struct
      [("magic", uint magic), ("version", uint version), ("timestamp", text (e.timestamp timestamp))]
  | .helloAck magic version accepted timestamp => variant "HelloAck" <| struct
      [("magic", uint magic), ("version", uint version), ("accepted", bool accepted),
        ("timestamp", text (e.timestamp timestamp))]
  | .fetchUtxos key => variant "FetchUTXOs" (e.publicKey key)
  | .utxos outputs => e.encode (.utxos outputs)
  | .submitTransaction tx => variant "SubmitTransaction" (e.transaction tx)
  | .newTransaction tx => variant "NewTransaction" (e.transaction tx)
  | .fetchTemplate pubkey => variant "FetchTemplate" (e.publicKey pubkey)
  | .template b => variant "Template" (e.block b)
  | .validateTemplate b => variant "ValidateTemplate" (e.block b)
  | .templateValidity valid => variant "TemplateValidity" (bool valid)
  | .submitTemplate b => e.encode (.submitTemplate b)
  | .discoverNodes => name "DiscoverNodes"
  | .nodeList nodes => variant "NodeList" (array (nodes.map name))
  | .askChainTip => name "AskChainTip"
  | .chainTip height work => variant "ChainTip" (array [uint height, u256 work])
  | .fetchBlocks start count => variant "FetchBlocks" (struct [("start", uint start), ("count", uint count)])
  | .blocks bs => e.encode (.blocks bs)
  | .newBlock b => e.encode (.newBlock b)

/-- `Message::send_async`: what is written to the stream. -/
def frame (m : Packet) : List UInt8 := toBeBytes 8 (e.packet m).length ++ e.packet m

/-- A message is decoded as it was encoded, and its length fits in eight bytes. -/
def Carries (decode : List UInt8 → Option Packet) (m : Packet) : Prop :=
  decode (e.packet m) = some m ∧ (e.packet m).length < 256 ^ 8

/-- A message is not too long to be read. -/
def Within (m : Packet) : Prop := (e.packet m).length ≤ maxMessageSize

instance (m : Packet) : Decidable (e.Within m) := inferInstanceAs (Decidable (_ ≤ _))

end Encoding

/-- What follows is left alone. -/
theorem readExact_more {n : ℕ} {bs front rest : List UInt8} (h : readExact n bs = .ok (front, rest))
    (more : List UInt8) : readExact n (bs ++ more) = .ok (front, rest ++ more) := by
  rw [readExact] at h
  split_ifs at h with hle
  obtain ⟨rfl, rfl⟩ := Prod.mk.inj (Outcome.ok.inj h)
  rw [readExact, if_pos (by rw [List.length_append]; omega), List.take_append_of_le_length hle,
    List.drop_append_of_le_length hle]

/-- What is read depends on the length in front, and on what has arrived after it. -/
theorem receiveAsync_eq (bs : List UInt8) : receiveAsync bs =
    if 8 ≤ bs.length then
      if fromBeBytes (bs.take 8) ≤ maxMessageSize then readExact (fromBeBytes (bs.take 8)) (bs.drop 8)
      else .err .oversizedMessage
    else .err .unexpectedEof := by
  rw [receiveAsync, readExact]
  split_ifs with h hlen
  · rw [Outcome.ok_bind]
    dsimp only
    rw [Outcome.ensure_of hlen]
    rfl
  · rw [Outcome.ok_bind]
    dsimp only
    rw [Outcome.ensure, if_neg hlen]
    rfl
  · rfl

section

variable {bs body rest : List UInt8}

/-- A message that is there is read as well when more has arrived. -/
theorem receiveAsync_more (h : receiveAsync bs = .ok (body, rest)) (more : List UInt8) :
    receiveAsync (bs ++ more) = .ok (body, rest ++ more) := by
  rw [receiveAsync_eq] at h
  split_ifs at h with h8 hlen
  rw [receiveAsync_eq, List.take_append_of_le_length h8, List.drop_append_of_le_length h8, if_pos hlen,
    if_pos (by rw [List.length_append]; omega)]
  exact readExact_more h more

/-- One that is too long is refused as soon as its length is there. -/
theorem receiveAsync_more_oversized (h : receiveAsync bs = .err .oversizedMessage) (more : List UInt8) :
    receiveAsync (bs ++ more) = .err .oversizedMessage := by
  rw [receiveAsync_eq] at h
  split_ifs at h with h8 hlen
  · rw [readExact] at h
    split_ifs at h
    cases h
  · rw [receiveAsync_eq, List.take_append_of_le_length h8, if_neg hlen,
      if_pos (by rw [List.length_append]; omega)]
  · cases h

/-- Reading does not panic, whatever arrives. -/
theorem receiveAsync_ne_panic : receiveAsync bs ≠ .panic := by
  rw [receiveAsync_eq, readExact]
  split_ifs <;> simp

end

/-- `Message::receive_async`, on what has arrived so far. -/
def Packet.read (decode : List UInt8 → Option Packet) (bs : List UInt8) : Reading UInt8 Packet :=
  match receiveAsync bs with
  | .ok (body, rest) =>
    match decode body with
    | some m => .item m rest
    | none => .refused
  | .err .unexpectedEof => .waiting
  | _ => .refused

section

variable {decode : List UInt8 → Option Packet} {bs rest : List UInt8} {m : Packet}

/-- A message is found where its bytes are all there and can be decoded. -/
theorem Packet.read_eq_item : Packet.read decode bs = .item m rest ↔
    ∃ body, receiveAsync bs = .ok (body, rest) ∧ decode body = some m := by
  rw [Packet.read]
  cases hreceive : receiveAsync bs with
  | ok p =>
    obtain ⟨body, rest'⟩ := p
    cases hdecode : decode body with
    | none => simp +contextual [hdecode]
    | some m' => simp [hdecode, and_comm]
  | err e => cases e <;> simp
  | panic => simp

/-- A connection is given up on a length that is too large, and on bytes that are no message. -/
theorem Packet.read_eq_refused : Packet.read decode bs = .refused ↔
    receiveAsync bs = .err .oversizedMessage ∨
      ∃ body rest, receiveAsync bs = .ok (body, rest) ∧ decode body = none := by
  rw [Packet.read]
  cases hreceive : receiveAsync bs with
  | ok p =>
    obtain ⟨body, rest'⟩ := p
    cases hdecode : decode body <;> simp [hdecode]
  | err e => cases e <;> simp
  | panic => exact absurd hreceive receiveAsync_ne_panic

end

/-- Reading messages off a connection. -/
def Packet.reader (decode : List UInt8 → Option Packet) : Reader UInt8 Packet where
  read := Packet.read decode
  read_nil := rfl
  item_append more h := by
    obtain ⟨body, hreceive, hdecode⟩ := Packet.read_eq_item.1 h
    exact Packet.read_eq_item.2 ⟨body, receiveAsync_more hreceive more, hdecode⟩
  refused_append more h := by
    rcases Packet.read_eq_refused.1 h with h | ⟨body, rest, hreceive, hdecode⟩
    · exact Packet.read_eq_refused.2 (.inl (receiveAsync_more_oversized h more))
    · exact Packet.read_eq_refused.2 (.inr ⟨body, _, receiveAsync_more hreceive more, hdecode⟩)

section

variable {e : Encoding} {decode : List UInt8 → Option Packet} {m : Packet}

/-- A frame is read as it was written, unless its message is too long. -/
theorem receiveAsync_frame (h : (e.packet m).length < 256 ^ 8) (more : List UInt8) :
    receiveAsync (e.frame m ++ more) =
      if e.Within m then .ok (e.packet m, more) else .err .oversizedMessage := by
  rw [receiveAsync, Encoding.frame, List.append_assoc, readExact_append (toBeBytes_length 8 _),
    Outcome.ok_bind]
  dsimp only
  -- The length is in eight bytes, so it is read back as it is.
  rw [fromBeBytes_toBeBytes, Nat.mod_eq_of_lt h]
  by_cases hwithin : e.Within m
  · rw [if_pos hwithin]
    -- It passes the check, and as many bytes as it says are read.
    exact (congrArg (· >>= _) (Outcome.ensure_of hwithin)).trans (readExact_append rfl)
  · rw [if_neg hwithin]
    -- It fails the check, before anything else is read.
    exact congrArg (· >>= _) (if_neg hwithin)

/-- So a message that is decoded as it was encoded is found at the front of its frame. -/
theorem writes_frame (h : e.Carries decode m) (hwithin : e.Within m) :
    (Packet.reader decode).Writes m (e.frame m) := fun more =>
  Packet.read_eq_item.2 ⟨e.packet m, by rw [receiveAsync_frame h.2, if_pos hwithin], h.1⟩

/-- And one that is too long is given up on. -/
theorem read_frame_of_oversized (h : e.Carries decode m) (hlong : ¬ e.Within m) (more : List UInt8) :
    (Packet.reader decode).read (e.frame m ++ more) = .refused :=
  Packet.read_eq_refused.2 (.inl (by rw [receiveAsync_frame h.2, if_neg hlong]))

end

/-! ## Handling -/

/-- What handling a message reads of its surroundings: the clock and the orders of the maps,
    the peers of the node, a fresh identifier, and whether the store takes a block and then
    records the chain. -/
structure Surroundings where
  amb : Ambient
  nodes : List String
  uniqueId : Uuid
  putsBlock : Bool
  recordsChain : Bool

def Sample.surroundings : Surroundings where
  amb := ambient
  nodes := ["seed"]
  uniqueId := 0
  putsBlock := true
  recordsChain := true

/-- What a node says of a message, to the peer and to all of its own peers. -/
structure Answer where
  reply : Option Packet
  broadcast : Option Packet

namespace Answer

/-- Nothing. -/
def silent : Answer := ⟨none, none⟩

def replying (m : Packet) : Answer := ⟨some m, none⟩

def broadcasting (m : Packet) : Answer := ⟨none, some m⟩

end Answer

/-- Why a node closes a connection over a message. -/
inductive Refusal
  /-- It is an answer, or a greeting. -/
  | unexpected
  /-- The block or the transaction is not accepted. -/
  | rejected (e : BtcError)
  /-- There is no template to give. -/
  | noTemplate (e : BtcError)
  deriving DecidableEq, Repr

/-- Whether a refusal is a strike against the peer, and a severe one. -/
def Refusal.strike : Refusal → Option Bool
  | .unexpected => some true
  | .rejected _ => some false
  | .noTemplate _ => none

section

variable (c : Crypto) (e : Encoding) (env : Surroundings)

/-- The hash of the last block of the active chain, which has to be known. -/
def lastHash (s : Blockchain) : Option Hash :=
  match s.activeChain.getLast? with
  | some h => (s.blocks.lookup h).map c.hashBlock
  | none => some Hash.zero

/-- The block of `NewBlock` or `SubmitTemplate`: whether it is added, and not kept as an
    orphan. What cannot be persisted is only logged. -/
def takeBlock (block : Block) : Call Blockchain Refusal Bool := fun s =>
  match Blockchain.addBlock c env.amb block s with
  | (s, .ok ()) => ((persistChainState env.putsBlock env.recordsChain s).1, .ok true)
  | (s, .err .orphanBlock) => (s, .ok false)
  | (s, .err e) => (s, .err (.rejected e))
  | (s, .panic) => (s, .panic)

/-- A pass of the loop of `handle_connection`, from the message on. -/
def handle : Packet → Call Blockchain Refusal Answer
  | .utxos _ | .template _ | .chainTip _ _ | .templateValidity _ | .nodeList _ | .blocks _
  | .hello .. | .helloAck .. => Call.lift (.err .unexpected)
  | .fetchBlocks start count => do
    let s ← Call.get
    let blocks ← Call.lift (.expect (fetchBlocks e.serializedSize start count s))
    pure (.replying (.blocks blocks))
  | .discoverNodes => pure (.replying (.nodeList env.nodes))
  | .askChainTip => do
    let s ← Call.get
    let work ← Call.lift (.expect s.chainWork)
    pure (.replying (.chainTip (s.blockHeight % 2 ^ 32) work))
  | .fetchUtxos key => do
    let s ← Call.get
    pure (.replying (.utxos (s.fetchUtxos env.amb.order key)))
  | .newBlock block => do
    let _ ← takeBlock c env block
    pure .silent
  | .newTransaction tx => do
    Call.ignore (Call.mapErr .rejected (Blockchain.addToMempool c env.amb.now tx))
    pure .silent
  | .validateTemplate template => do
    let s ← Call.get
    let lastHash ← Call.lift (.expect (lastHash c s))
    let prevHashMatches := template.header.prevBlockHash = lastHash
    let targetMatches := template.header.target = s.target
    pure (.replying (.templateValidity (prevHashMatches ∧ targetMatches)))
  | .submitTemplate block => do
    let added ← takeBlock c env block
    pure (if added then .broadcasting (.newBlock block) else .silent)
  | .submitTransaction tx => do
    Call.mapErr .rejected (Blockchain.addToMempool c env.amb.now tx)
    pure (.broadcasting (.newTransaction tx))
  | .fetchTemplate pubkey => do
    let s ← Call.get
    let block ← Call.lift
      ((Blockchain.createBlockTemplate c env.amb.now env.uniqueId pubkey s).mapErr .noTemplate)
    pure (.replying (.template block))

end

variable {c : Crypto} {e : Encoding} {env : Surroundings} {s : Blockchain}

/-! ## What it does to the chain -/

namespace Packet

/-- The block a message has added to the chain. -/
def block? : Packet → Option Block
  | .newBlock block => some block
  | .submitTemplate block => some block
  | _ => none

/-- The transaction a message has offered to the mempool. -/
def transaction? : Packet → Option Transaction
  | .newTransaction tx => some tx
  | .submitTransaction tx => some tx
  | _ => none

end Packet

section

variable {I : Blockchain → Prop}

/-- What is kept when the pruned hashes are taken is kept when the chain is saved. -/
theorem preserves_persistChainState (htake : ∀ s, I s → I s.takePrunedHashes) (putsBlock recordsChain : Bool) :
    Call.Preserves I (persistChainState putsBlock recordsChain) :=
  (Call.Preserves.lift _).bind fun _ => (Call.Preserves.modify htake).bind fun _ => Call.Preserves.lift _

/-- So is it when a block is taken up and the chain is saved after it. -/
theorem preserves_takeBlock {block : Block} (htake : ∀ s, I s → I s.takePrunedHashes)
    (hadd : Call.Preserves I (Blockchain.addBlock c env.amb block)) :
    Call.Preserves I (takeBlock c env block) := by
  intro s hs
  have hadd := hadd s hs
  rw [takeBlock]
  generalize Blockchain.addBlock c env.amb block s = r at hadd
  obtain ⟨s', ⟨⟩ | e | _⟩ := r
  · exact (preserves_persistChainState htake env.putsBlock env.recordsChain).apply hadd
  · -- An orphan is the one error that is not a refusal; neither saves the chain.
    cases e <;> exact hadd
  · exact hadd

/-- What adding its block or offering its transaction preserves, handling a message does. -/
theorem preserves_handle_of {m : Packet} (htake : ∀ s, I s → I s.takePrunedHashes)
    (hadd : ∀ block, m.block? = some block → Call.Preserves I (Blockchain.addBlock c env.amb block))
    (hoffer : ∀ tx, m.transaction? = some tx → Call.Preserves I (Blockchain.addToMempool c env.amb.now tx)) :
    Call.Preserves I (handle c e env m) := by
  -- A question reads the chain and leaves it.
  have hread : ∀ {f : Blockchain → Call Blockchain Refusal Answer}, (∀ s, Call.Preserves I (f s)) →
      Call.Preserves I (Call.get >>= f) := Call.Preserves.bind Call.Preserves.get
  have hoffered : ∀ tx, m.transaction? = some tx →
      Call.Preserves I (Call.mapErr Refusal.rejected (Blockchain.addToMempool c env.amb.now tx)) :=
    fun tx htx => Call.Triple.mapErr (hoffer tx htx)
  cases m with
  | newBlock block | submitTemplate block =>
    exact (preserves_takeBlock htake (hadd block rfl)).bind fun _ => Call.Preserves.pure _
  | newTransaction tx => exact (hoffered tx rfl).ignore.bind fun _ => Call.Preserves.pure _
  | submitTransaction tx => exact (hoffered tx rfl).bind fun _ => Call.Preserves.pure _
  | fetchUtxos key => exact hread fun _ => Call.Preserves.pure _
  | discoverNodes => exact Call.Preserves.pure _
  | fetchBlocks _ _ | askChainTip | validateTemplate _ | fetchTemplate _ =>
    exact hread fun _ => (Call.Preserves.lift _).bind fun _ => Call.Preserves.pure _
  -- An answer or a greeting is refused at once.
  | _ => exact Call.Preserves.lift _

end

/-- Each of the calls is a step of the chain. -/
theorem preserves_call (op : Op) : Call.Preserves (drainSystem c).Reachable (op.call c) :=
  Call.Preserves.of_fst fun _ hs => hs.step (l := .call op) trivial rfl

/-- Whatever the message, the chain of the node goes on as it may. -/
theorem preserves_handle (m : Packet) : Call.Preserves (drainSystem c).Reachable (handle c e env m) :=
  preserves_handle_of (fun _ hs => hs.step (l := .takePrunedHashes) trivial rfl)
    (fun block _ => preserves_call (.addBlock env.amb block))
    fun tx _ => preserves_call (.addToMempool env.amb.now tx)

end Itx
