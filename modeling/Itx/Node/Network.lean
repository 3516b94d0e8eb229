import Itx.Chain.Filling
import Itx.Node.Serving

/-!
# A network of nodes

Nodes that broadcast to one another, answer clients, and download from one another. Each
handles one message at a time (`handle_connection`, `node/src/handler.rs`). What it
broadcasts goes on each of its connections (`broadcast`, `node/src/util.rs`), and may be
handled at the other end at any time later and in any order, since a connection has a task
of its own, or be lost.

A block reaches a node in three ways only: from a client of its own; in one hop from a node
to which a client has submitted it, since what a peer sends is not passed on; or in a
download. A block that is known, kept as an orphan, or on its way was brought by some client,
or is the genesis, and so is what waits in a mempool (`provenance`).
-/

namespace Itx

open Blockchain

/-! ## What a message makes a node say -/

/-- A request of a client that is passed on, and what it is passed on as. -/
inductive SentOn : Packet → Packet → Prop
  | block (block : Block) : SentOn (.submitTemplate block) (.newBlock block)
  | transaction (tx : Transaction) : SentOn (.submitTransaction tx) (.newTransaction tx)

section

variable {c : Crypto} {e : Encoding} {env : Surroundings} {s s' : Blockchain} {m : Packet} {a : Answer}

/-- A call that answers without a broadcast, or with one that passes on the message. -/
abbrev SendsOn (m : Packet) (x : Call Blockchain Refusal Answer) : Prop :=
  Call.Triple (fun _ => True) x (fun a _ => ∀ m' ∈ a.broadcast, SentOn m m') (fun _ _ => True) fun _ => True

/-- What a call sends on is what its last part does. -/
theorem SendsOn.bind {α : Type} {x : Call Blockchain Refusal α} {f : α → Call Blockchain Refusal Answer}
    (hf : ∀ a, SendsOn m (f a)) : SendsOn m (x >>= f) :=
  Call.Triple.bind (R := fun _ _ => True)
    (Call.Triple.of_forall (fun _ _ => trivial) (fun _ _ => trivial) fun _ => trivial) hf

/-- An answer sends on what it broadcasts. -/
theorem SendsOn.pure (h : ∀ m' ∈ a.broadcast, SentOn m m') : SendsOn m (Pure.pure a) :=
  Call.Triple.pure fun _ _ => h

/-- Only what a client submits is broadcast. -/
theorem sentOn_of_broadcast {said : Packet} (h : handle c e env m s = (s', .ok a))
    (hsaid : a.broadcast = some said) : SentOn m said := by
  have hsilent : ∀ a : Answer, a.broadcast = none → SendsOn m (Pure.pure a) := fun a ha =>
    SendsOn.pure (by rw [ha]; exact fun _ h => nomatch h)
  have hnothing : SendsOn m (handle c e env m) := by
    cases m with
    | submitTemplate block =>
      refine SendsOn.bind fun added => SendsOn.pure ?_
      rintro m' hm'
      -- It is broadcast only if it was added.
      split_ifs at hm'
      · obtain rfl := Option.some.inj hm'
        exact .block block
      · cases hm'
    | submitTransaction tx =>
      refine SendsOn.bind fun _ => SendsOn.pure ?_
      rintro m' hm'
      obtain rfl := Option.some.inj hm'
      exact .transaction tx
    | newBlock _ | newTransaction _ | fetchUtxos _ => exact SendsOn.bind fun _ => hsilent _ rfl
    | discoverNodes => exact hsilent _ rfl
    | fetchBlocks _ _ | askChainTip | validateTemplate _ | fetchTemplate _ =>
      exact SendsOn.bind fun _ => SendsOn.bind fun _ => hsilent _ rfl
    -- What is refused broadcasts nothing.
    | _ => exact Call.Triple.lift (fun _ _ _ h => nomatch h) (fun _ _ _ _ => trivial) fun _ _ _ => trivial
  have hend := hnothing s trivial
  rw [h] at hend
  exact hend said hsaid

end

/-! ## What a chain holds -/

/-- A block of a download (`download_blockchain`). -/
def syncBlock (c : Crypto) (env : Surroundings) (block : Block) : Call Blockchain SyncError Unit := do
  Call.mapErr .ofBlock (Blockchain.addBlock c env.amb block)
  persistChainState env.putsBlock env.recordsChain

/-- The blocks and orphans of a chain meet `Q`, and the transactions that wait meet `R`. -/
structure Holds (c : Crypto) (Q : Block → Prop) (R : Transaction → Prop) (s : Blockchain) : Prop where
  chain : (Keyed c s ∧ Stores Q s) ∧ Admitted s
  waiting : ∀ entry ∈ s.mempool, R entry.2

namespace Holds

variable {c : Crypto} {Q Q' : Block → Prop} {R R' : Transaction → Prop} {s : Blockchain}

/-- What a chain holds, it holds of anything weaker. -/
theorem mono (h : Holds c Q R s) (hQ : ∀ b, Q b → Q' b) (hR : ∀ tx, R tx → R' tx) : Holds c Q' R' s where
  chain := ⟨⟨h.chain.1.1, fun x b hb => hQ b (h.chain.1.2.blocks x b hb),
    fun x b hb => hQ b (h.chain.1.2.orphans x b hb)⟩, h.chain.2⟩
  waiting entry he := hR entry.2 (h.waiting entry he)

/-- The chain a node is built with holds nothing to account for. -/
theorem new : Holds c Q R new :=
  ⟨⟨⟨keyed_new, stores_new⟩, admitted_new⟩, by simp [Blockchain.new]⟩

/-- Admitting a transaction adds that transaction and no other. -/
theorem addToMempool {tx : Transaction} (hR : R tx) (now : DateTime) :
    Call.Preserves (Holds c Q R) (addToMempool c now tx) := by
  intro s hs
  have hchain := (ofChain_keyed.and ofChain_stores).addToMempool (c := c) now tx s hs.chain.1
  have hoffer :=
    ((triple_addToMempool (c := c) now tx).and (triple_offer hs.chain.2 now tx)) s ⟨hs.chain.2, rfl⟩
  generalize Blockchain.addToMempool c now tx s = r at hchain hoffer
  obtain ⟨s', a | e | _⟩ := r
  · refine ⟨⟨hchain, hoffer.1⟩, fun entry he => ?_⟩
    rcases hoffer.2.2.2 entry he with he | rfl
    exacts [hs.waiting entry he, hR]
  · exact ⟨⟨hchain, hoffer.1⟩, fun entry he => hs.waiting entry (hoffer.2.2 entry he)⟩
  · exact hoffer.1.elim

/-- A cleanup adds nothing. -/
theorem cleanupMempool (h : Holds c Q R s) (now : DateTime) : Holds c Q R (s.cleanupMempool now) :=
  ⟨⟨(ofChain_keyed.and ofChain_stores).1 _ _ ((SameChain.refl s).cleanupMempool now) h.chain.1,
    h.chain.2.cleanupMempool now⟩, fun entry he => h.waiting entry (List.mem_filter.1 he).1⟩

/-- The clock offset is not part of what a chain holds. -/
theorem setTimeOffset (h : Holds c Q R s) (offset : Duration) : Holds c Q R (s.setTimeOffset offset) :=
  ⟨⟨(ofChain_keyed.and ofChain_stores).2 s offset h.chain.1, h.chain.2.nodup, h.chain.2.present⟩, h.waiting⟩

/-- Reading the pruned hashes adds nothing. -/
theorem takePrunedHashes (h : Holds c Q R s) : Holds c Q R s.takePrunedHashes :=
  ⟨⟨⟨⟨h.chain.1.1.blocks, h.chain.1.1.orphans, h.chain.1.1.known⟩, h.chain.1.2.blocks, h.chain.1.2.orphans⟩,
    h.chain.2.nodup, h.chain.2.present⟩, h.waiting⟩

/-- What the steps of an acceptance do: the transactions of the blocks that leave the active
    chain wait again. -/
theorem moves (hQR : ∀ b, Q b → ∀ tx ∈ b.transactions.tail, R tx) (amb : Ambient) :
    Moves c amb (fun _ => Q) (Holds c Q R) (Holds c Q R) := by
  have h := ((moves_keyed (c := c) amb fun _ => Q).and (moves_stores amb)).and (moves_admitted amb _)
  -- Only offering a transaction adds to the mempool; the other steps take out of it.
  have hevicted : ∀ {mempool : List (DateTime × Transaction)} {p q : DateTime × Transaction → Bool},
      ∀ entry ∈ (mempool.filter p).filter q, entry ∈ mempool := fun _ he =>
    (List.mem_filter.1 (List.mem_filter.1 he).1).1
  exact
    { push := fun s block hs hP hext =>
        ⟨h.push s block hs.chain hP hext, fun entry he => hs.waiting entry (hevicted entry he)⟩
      adjust := fun s a b target hs h₁ h₂ h₃ h₄ h₅ =>
        ⟨h.adjust s a b target hs.chain h₁ h₂ h₃ h₄ h₅, hs.waiting⟩
      prune := fun s prunable hs hp => ⟨h.prune s prunable hs.chain hp, hs.waiting⟩
      store := fun s block i l hs hP hoff => ⟨h.store s block i l hs.chain hP hoff, hs.waiting⟩
      switch := fun s block i l target utxos confirmed hs hP hoff h₁ h₂ h₃ =>
        ⟨h.switch s block i l target utxos confirmed hs.chain hP hoff h₁ h₂ h₃,
          fun entry he => hs.waiting entry (hevicted entry he)⟩
      -- What is put back was in a block that left the chain.
      pool := fun tx ⟨s, x, block, hs, hblock, htx⟩ =>
        Holds.addToMempool (hQR block (hs.chain.1.2.blocks x block hblock) tx htx) amb.now
      keep := fun s block hs h₁ h₂ => by
        refine ⟨h.keep s block hs.chain h₁ h₂, ?_⟩
        rw [keepOrphan]
        split
        exacts [hs.waiting, hs.waiting]
      take := fun s block hs => ⟨h.take s block hs.chain, hs.waiting⟩ }

/-- Adding a block stores that block; a reorganization puts back only transactions of blocks
    that were stored. -/
theorem addBlock (hQR : ∀ b, Q b → ∀ tx ∈ b.transactions.tail, R tx) {amb : Ambient} {block : Block}
    (hblock : Q block) : Call.Preserves (Holds c Q R) (addBlock c amb block) := fun s hs =>
  preserves_addBlockWithin (moves hQR amb) (fun _ hs => hs.chain.1.1) (fun _ hs => hs.chain.1.2.orphans)
    (fun _ _ => id) hblock s hs

/-- Handling a message. -/
theorem handle {e : Encoding} {env : Surroundings} {m : Packet}
    (hQR : ∀ b, Q b → ∀ tx ∈ b.transactions.tail, R tx) (hQ : ∀ b, m.block? = some b → Q b)
    (hR : ∀ tx, m.transaction? = some tx → R tx) : Call.Preserves (Holds c Q R) (handle c e env m) :=
  preserves_handle_of (fun _ => Holds.takePrunedHashes) (fun b hb => addBlock hQR (hQ b hb))
    fun tx htx => Holds.addToMempool (hR tx htx) env.amb.now

/-- A block of a download is held as one that is submitted. -/
theorem syncBlock {env : Surroundings} {block : Block} (hQR : ∀ b, Q b → ∀ tx ∈ b.transactions.tail, R tx)
    (hblock : Q block) : Call.Preserves (Holds c Q R) (syncBlock c env block) := by
  have hadd :
      Call.Preserves (Holds c Q R) (Call.mapErr SyncError.ofBlock (Blockchain.addBlock c env.amb block)) :=
    Call.Triple.mapErr (addBlock hQR hblock)
  exact hadd.bind fun _ => preserves_persistChainState (fun _ hs => hs.takePrunedHashes) _ _

end Holds

/-- What a node answers to a download, it knows. -/
theorem exists_lookup_of_fetchBlocks {c : Crypto} {s : Blockchain} {size : Block → ℕ} {start count : ℕ}
    {blocks : List Block} {b : Block} (hs : Keyed c s) (h : fetchBlocks size start count s = some blocks)
    (hb : b ∈ blocks) : ∃ x, s.blocks.lookup x = some b := by
  obtain ⟨bs, hbs, hnamed, -⟩ := exists_fetchBlocks hs.known size start count
  obtain rfl := Option.some.inj (h.symm.trans hbs)
  exact hnamed.exists_lookup hb

/-! ## The network -/

variable {ι : Type}

/-- Where a message that a node handles comes from. -/
inductive Sender (ι : Type)
  | client
  | peer (i : ι)

/-- What happens at a node. -/
inductive Happening (ι : Type)
  /-- It handles a message, and broadcasts another. -/
  | handled (j : ι) (sender : Sender ι) (m : Packet) (said : Option Packet)
  /-- It adds a block that a peer has answered. -/
  | downloaded (j i : ι) (block : Block)

/-- What one node has broadcast to another and is not handled yet; none if they are not
    connected. -/
abbrev Links (ι : Type) := ι → ι → Option (List Packet)

/-- The nodes, and what is between them. -/
structure Network (ι : Type) where
  chain : ι → Blockchain
  link : Links ι
  /-- The blocks of a download that are still to be added, and who has answered them. -/
  batch : ι → List (ι × Block)
  /-- What has happened, for the statements. -/
  log : List (Happening ι)

inductive NetworkOp (ι : Type)
  /-- A client sends a message. -/
  | ask (j : ι) (env : Surroundings) (m : Packet)
  /-- One of the messages from a node to another is handled. -/
  | deliver (i j : ι) (k : ℕ) (env : Surroundings)
  /-- One is lost. -/
  | lose (i j : ι) (k : ℕ)
  | connect (i j : ι)
  | disconnect (i j : ι)
  /-- A node downloads a batch of blocks from another. -/
  | fetch (j i : ι) (start count : ℕ)
  /-- It adds the next of them. -/
  | add (j : ι) (env : Surroundings)
  | cleanup (j : ι) (now : DateTime)
  /-- It has sampled a clock. -/
  | sample (j : ι) (offset : Duration)

namespace Links

variable [DecidableEq ι] (link : Links ι)

def set (i j : ι) (ms : Option (List Packet)) : Links ι :=
  Function.update link i (Function.update (link i) j ms)

/-- `broadcast`. -/
def broadcast (j : ι) : Option Packet → Links ι
  | some m => Function.update link j fun k => (link j k).map (· ++ [m])
  | none => link

/-- A connection over which a message was refused is closed. -/
def hangUp (j : ι) : Sender ι → Links ι
  | .client => link
  | .peer i => link.set i j none

end Links

namespace Network

variable [DecidableEq ι] (c : Crypto) (e : Encoding) (s : Network ι)

def setChain (j : ι) (chain : Blockchain) : Network ι := { s with chain := Function.update s.chain j chain }

def setLink (i j : ι) (ms : Option (List Packet)) : Network ι := { s with link := s.link.set i j ms }

/-- What a node broadcasts on a message. -/
def said (j : ι) (env : Surroundings) (m : Packet) : Option Packet :=
  match (handle c e env m (s.chain j)).2 with
  | .ok answer => answer.broadcast
  | _ => none

/-- A node handles a message. -/
def handled (j : ι) (sender : Sender ι) (env : Surroundings) (m : Packet) : Network ι where
  chain := Function.update s.chain j (handle c e env m (s.chain j)).1
  link :=
    match (handle c e env m (s.chain j)).2 with
    | .ok answer => s.link.broadcast j answer.broadcast
    | _ => s.link.hangUp j sender
  batch := s.batch
  log := s.log ++ [.handled j sender m (s.said c e j env m)]

/-- A node adds the next block of a download, which an error stops. -/
def added (j : ι) (env : Surroundings) : Network ι :=
  match s.batch j with
  | [] => s
  | (i, block) :: rest =>
    let r := syncBlock c env block (s.chain j)
    { s.setChain j r.1 with
      batch := Function.update s.batch j (if r.2 = .ok () then rest else [])
      log := s.log ++ [.downloaded j i block] }

def after : NetworkOp ι → Network ι
  | .ask j env m => s.handled c e j .client env m
  | .deliver i j k env =>
    match (s.link i j).bind (·[k]?) with
    | some m => (s.setLink i j ((s.link i j).map (·.eraseIdx k))).handled c e j (.peer i) env m
    | none => s
  | .lose i j k => s.setLink i j ((s.link i j).map (·.eraseIdx k))
  | .connect i j => s.setLink i j (some [])
  | .disconnect i j => s.setLink i j none
  | .fetch j i start count =>
    match fetchBlocks e.serializedSize start count (s.chain i) with
    | some blocks => { s with batch := Function.update s.batch j (blocks.map (i, ·)) }
    | none => s
  | .add j env => s.added c j env
  | .cleanup j now => s.setChain j ((s.chain j).cleanupMempool now)
  | .sample j offset => s.setChain j ((s.chain j).setTimeOffset offset)

end Network

/-- A chain on which the genesis has been established. -/
def Established (c : Crypto) (s : Blockchain) : Prop :=
  ∃ amb genesis, genesisBlock c = some genesis ∧ addBlock c amb genesis new = (s, .ok ())

/-- The nodes have established the genesis, and nothing is between them. -/
structure Network.Starts (c : Crypto) (s : Network ι) : Prop where
  chain : ∀ j, Established c (s.chain j)
  link : ∀ i j, ∀ ms ∈ s.link i j, ms = []
  batch : ∀ j, s.batch j = []
  log : s.log = []

/-- The network as a transition system. -/
def networkSystem [DecidableEq ι] (c : Crypto) (e : Encoding) : System (Network ι) (NetworkOp ι) where
  init := {s | s.Starts c}
  step s op s' := s' = s.after c e op

/-! ## Where things come from -/

/-- How a node may have come by a block. -/
inductive Origin (c : Crypto) (log : List (Happening ι)) : ι → Block → Prop
  | genesis {j : ι} {block : Block} : genesisBlock c = some block → Origin c log j block
  | client {j : ι} {block : Block} {m : Packet} {said : Option Packet} : .handled j .client m said ∈ log →
      m.block? = some block → Origin c log j block
  /-- A client has submitted it to a peer, which has sent it on. -/
  | sentOn {i j : ι} {block : Block} {said : Option Packet} :
      .handled i .client (.submitTemplate block) (some (.newBlock block)) ∈ log →
      .handled j (.peer i) (.newBlock block) said ∈ log → Origin c log j block
  | downloaded {i j : ι} {block : Block} : .downloaded j i block ∈ log → Origin c log i block →
      Origin c log j block

/-- How a node may have come by a transaction that waits. -/
inductive Offered (c : Crypto) (log : List (Happening ι)) : ι → Transaction → Prop
  | client {j : ι} {tx : Transaction} {m : Packet} {said : Option Packet} : .handled j .client m said ∈ log →
      m.transaction? = some tx → Offered c log j tx
  | sentOn {i j : ι} {tx : Transaction} {said : Option Packet} :
      .handled i .client (.submitTransaction tx) (some (.newTransaction tx)) ∈ log →
      .handled j (.peer i) (.newTransaction tx) said ∈ log → Offered c log j tx
  /-- A block of it has left the active chain. -/
  | displaced {j : ι} {tx : Transaction} {block : Block} : Origin c log j block →
      tx ∈ block.transactions.tail → Offered c log j tx

/-- A message that a node has sent on for a client. -/
def SentBy (log : List (Happening ι)) (i : ι) (m : Packet) : Prop :=
  ∃ request, SentOn request m ∧ .handled i .client request (some m) ∈ log

section

variable {c : Crypto} {e : Encoding} {log log' : List (Happening ι)} {i j : ι} {block : Block}
  {tx : Transaction}
  {m : Packet}

/-- An origin stays one as more happens. -/
theorem Origin.mono (h : log ⊆ log') (ho : Origin c log j block) : Origin c log' j block := by
  induction ho with
  | genesis hg => exact .genesis hg
  | client hm hb => exact .client (h hm) hb
  | sentOn hi hj => exact .sentOn (h hi) (h hj)
  | downloaded hd _ ih => exact .downloaded (h hd) ih

/-- A transaction that was offered stays so as more happens. -/
theorem Offered.mono (h : log ⊆ log') (ho : Offered c log j tx) : Offered c log' j tx := by
  cases ho with
  | client hm ht => exact .client (h hm) ht
  | sentOn hi hj => exact .sentOn (h hi) (h hj)
  | displaced hb ht => exact .displaced (hb.mono h) ht

/-- A packet that was sent stays so as more happens. -/
theorem SentBy.mono (h : log ⊆ log') (hs : SentBy log i m) : SentBy log' i m := by
  obtain ⟨request, hon, hi⟩ := hs
  exact ⟨request, hon, h hi⟩

/-- A block that a peer has sent. -/
theorem SentBy.origin {said : Option Packet} (hs : SentBy log i m) (hm : .handled j (.peer i) m said ∈ log)
    (hb : m.block? = some block) : Origin c log j block := by
  obtain ⟨request, hon, hi⟩ := hs
  cases hon with
  | block b =>
    obtain rfl := Option.some.inj hb
    exact .sentOn hi hm
  | transaction _ => cases hb

/-- A transaction a peer sent, and the node has handled, was offered to the node. -/
theorem SentBy.offered {said : Option Packet} (hs : SentBy log i m) (hm : .handled j (.peer i) m said ∈ log)
    (ht : m.transaction? = some tx) : Offered c log j tx := by
  obtain ⟨request, hon, hi⟩ := hs
  cases hon with
  | block _ => cases ht
  | transaction t =>
    obtain rfl := Option.some.inj ht
    exact .sentOn hi hm

/-- Every block was brought by some client, or is the genesis. -/
theorem Origin.exists_client (h : Origin c log j block) : genesisBlock c = some block ∨
    ∃ i m said, .handled i .client m said ∈ log ∧ m.block? = some block := by
  induction h with
  | genesis hg => exact .inl hg
  | client hm hb => exact .inr ⟨_, _, _, hm, hb⟩
  | sentOn hi _ => exact .inr ⟨_, _, _, hi, rfl⟩
  | downloaded _ _ ih => exact ih

end

/-- A message that is on its way from one node to another. -/
def Links.Flying (link : Links ι) (i j : ι) (m : Packet) : Prop := ∃ ms ∈ link i j, m ∈ ms

section

variable [DecidableEq ι] {c : Crypto} {e : Encoding} {s : Network ι} {link : Links ι} {i j k l : ι}
  {sender : Sender ι} {env : Surroundings} {m m' : Packet}

/-- A packet in flight after a change of one link was in flight before, or is on that link. -/
theorem Links.flying_set {ms : Option (List Packet)} (h : (link.set i j ms).Flying k l m) :
    link.Flying k l m ∨ k = i ∧ l = j ∧ ∃ ms' ∈ ms, m ∈ ms' := by
  obtain ⟨ms', hms, hm⟩ := h
  rw [set, Function.update_apply] at hms
  split_ifs at hms with hk
  · rw [Function.update_apply] at hms
    split_ifs at hms with hl
    · exact .inr ⟨hk, hl, ms', hms, hm⟩
    · exact .inl ⟨ms', hk ▸ hms, hm⟩
  · exact .inl ⟨ms', hms, hm⟩

/-- A packet in flight after a broadcast was in flight before, or is the one broadcast. -/
theorem Links.flying_broadcast {said : Option Packet} (h : (link.broadcast j said).Flying k l m) :
    link.Flying k l m ∨ k = j ∧ said = some m := by
  cases said with
  | none => exact .inl h
  | some m₀ =>
    obtain ⟨ms', hms, hm⟩ := h
    rw [broadcast, Function.update_apply] at hms
    split_ifs at hms with hk
    · obtain ⟨ms, hbefore, rfl⟩ := Option.map_eq_some_iff.1 hms
      rcases List.mem_append.1 hm with hm | hm
      · exact .inl ⟨ms, hk ▸ hbefore, hm⟩
      · exact .inr ⟨hk, by rw [List.mem_singleton.1 hm]⟩
    · exact .inl ⟨ms', hms, hm⟩

/-- Hanging up sends nothing. -/
theorem Links.flying_hangUp (h : (link.hangUp j sender).Flying k l m) : link.Flying k l m := by
  cases sender with
  | client => exact h
  | peer i =>
    rcases flying_set h with h | ⟨-, -, ms, hms, -⟩
    exacts [h, nomatch hms]

/-- A broadcast is in flight on every link of its node. -/
theorem Links.flying_of_broadcast (h : (link j k).isSome) : (link.broadcast j (some m)).Flying j k m := by
  obtain ⟨ms, hms⟩ := Option.isSome_iff_exists.1 h
  refine ⟨ms ++ [m], ?_, List.mem_append_right _ (List.mem_singleton.2 rfl)⟩
  rw [broadcast, Function.update_self, hms]
  rfl

/-- What is left when a message is taken off a connection. -/
theorem Links.flying_erase {ms : List Packet} {n : ℕ} (hms : link i j = some ms) (hn : ms[n]? = some m)
    (h : link.Flying k l m') : (link.set i j ((link i j).map (·.eraseIdx n))).Flying k l m' ∨
      k = i ∧ l = j ∧ m' = m := by
  by_cases hkl : k = i ∧ l = j
  · obtain ⟨rfl, rfl⟩ := hkl
    by_cases hm : m' = m
    · exact .inr ⟨rfl, rfl, hm⟩
    · -- Another packet than the one taken off stays, though its place may change.
      obtain ⟨ms', hms', hmem⟩ := h
      obtain rfl := Option.some.inj (hms.symm.trans hms')
      refine .inl ⟨ms.eraseIdx n, ?_, ?_⟩
      · rw [set, Function.update_self, Function.update_self, hms]
        rfl
      · obtain ⟨p, hp⟩ := List.mem_iff_getElem?.1 hmem
        refine List.mem_eraseIdx_iff_getElem?.2 ⟨p, ?_, hp⟩
        rintro rfl
        exact hm (Option.some.inj (hp.symm.trans hn))
  · -- On any other link nothing has changed.
    refine .inl ?_
    obtain ⟨ms', hms', hmem⟩ := h
    refine ⟨ms', ?_, hmem⟩
    rw [set, Function.update_apply]
    split_ifs with hk
    · rw [Function.update_of_ne fun hl => hkl ⟨hk, hl⟩, ← hk]
      exact hms'
    · exact hms'

/-- Taking a packet off a link sends nothing. -/
theorem Links.flying_of_erase {n : ℕ} (h : (link.set i j ((link i j).map (·.eraseIdx n))).Flying k l m) :
    link.Flying k l m := by
  rcases flying_set h with h | ⟨rfl, rfl, ms', hms', hm⟩
  · exact h
  · obtain ⟨ms, hms, rfl⟩ := Option.map_eq_some_iff.1 hms'
    exact ⟨ms, hms, List.mem_of_mem_eraseIdx hm⟩

/-- Taking a packet off a link leaves the connections. -/
theorem Links.isSome_erase {n : ℕ} (h : (link k l).isSome) :
    (link.set i j ((link i j).map (·.eraseIdx n)) k l).isSome := by
  rw [set, Function.update_apply]
  split_ifs with hk
  · rw [Function.update_apply]
    split_ifs with hl
    · rwa [Option.isSome_map, ← hk, ← hl]
    · rwa [← hk]
  · exact h

/-- A broadcast loses no packet in flight. -/
theorem Links.flying_broadcast_of {said : Option Packet} (h : link.Flying k l m) :
    (link.broadcast j said).Flying k l m := by
  cases said with
  | none => exact h
  | some m₀ =>
    obtain ⟨ms, hms, hm⟩ := h
    by_cases hk : k = j
    · refine ⟨ms ++ [m₀], ?_, List.mem_append_left _ hm⟩
      rw [broadcast, hk, Function.update_self, ← hk, hms]
      rfl
    · exact ⟨ms, by rwa [broadcast, Function.update_of_ne hk], hm⟩

/-- A broadcast leaves the connections. -/
theorem Links.isSome_broadcast {said : Option Packet} :
    (link.broadcast j said k l).isSome = (link k l).isSome := by
  cases said with
  | none => rfl
  | some m₀ =>
    rw [broadcast, Function.update_apply]
    split_ifs with hk
    · rw [Option.isSome_map, hk]
    · rfl

/-- What a call that succeeds does to the links is its broadcast. -/
theorem Network.handled_link {answer : Answer} (h : (handle c e env m (s.chain j)).2 = .ok answer) :
    (s.handled c e j sender env m).link = s.link.broadcast j answer.broadcast := by
  rw [handled, h]

/-- Adding a block takes from a batch. -/
theorem Network.batch_added (k : ι) : (s.added c j env).batch k ⊆ s.batch k := by
  rw [added]
  cases hbatch : s.batch j with
  | nil => exact List.Subset.refl _
  | cons x rest =>
    dsimp only
    rw [Function.update_apply]
    split_ifs with hk
    · rw [hk, hbatch]
      exact List.subset_cons_self _ _
    · exact List.nil_subset _
    · exact List.Subset.refl _

/-- A batch that has just been answered is of blocks that the peer knows. -/
theorem Network.of_mem_fetched {start count : ℕ} {blocks : List Block} {x : ι × Block}
    (hs : Keyed c (s.chain i))
    (hblocks : fetchBlocks e.serializedSize start count (s.chain i) = some blocks)
    (hx : x ∈ Function.update s.batch j (blocks.map (i, ·)) k) :
    x ∈ s.batch k ∨ x.1 = i ∧ ∃ y, (s.chain i).blocks.lookup y = some x.2 := by
  rw [Function.update_apply] at hx
  split_ifs at hx
  · obtain ⟨b, hb, rfl⟩ := List.mem_map.1 hx
    exact .inr ⟨rfl, exists_lookup_of_fetchBlocks hs hblocks hb⟩
  · exact .inl hx

/-- A message from a client closes no connection between nodes. -/
theorem Network.flying_of_client (h : s.link.Flying k l m') :
    (s.handled c e j .client env m).link.Flying k l m' := by
  rw [handled]
  generalize (handle c e env m (s.chain j)).2 = r
  cases r with
  | ok answer => exact Links.flying_broadcast_of h
  | err _ => exact h
  | panic => exact h

/-- A client's request closes no connection. -/
theorem Network.isSome_of_client (h : (s.link k l).isSome) :
    ((s.handled c e j .client env m).link k l).isSome := by
  rw [handled]
  generalize (handle c e env m (s.chain j)).2 = r
  cases r with
  | ok answer => exact Links.isSome_broadcast.trans h
  | err _ => exact h
  | panic => exact h

/-- Nothing comes on the connections but what is broadcast. -/
theorem Network.flying_handled (h : (s.handled c e j sender env m).link.Flying k l m') :
    s.link.Flying k l m' ∨ k = j ∧ s.said c e j env m = some m' := by
  rw [said]
  rw [handled] at h
  generalize (handle c e env m (s.chain j)).2 = r at h
  cases r with
  | ok answer => exact Links.flying_broadcast h
  | err _ => exact .inl (Links.flying_hangUp h)
  | panic => exact .inl (Links.flying_hangUp h)

end

section

variable {c : Crypto} {e : Encoding} {s : Network ι} {i j : ι} {sender : Sender ι} {env : Surroundings}
  {m : Packet}

/-- What a node broadcasts, it sends on for a client. -/
theorem Network.sentOn_of_said {said : Packet} (h : s.said c e j env m = some said) : SentOn m said := by
  rw [Network.said] at h
  split at h
  · next answer hanswer => exact sentOn_of_broadcast (Prod.ext rfl hanswer) h
  · cases h

/-- A message from a peer is not sent on. -/
theorem Network.said_eq_none (h : SentBy s.log i m) : s.said c e j env m = none := by
  obtain ⟨request, hon, -⟩ := h
  by_contra hsaid
  obtain ⟨said, hsaid⟩ := Option.ne_none_iff_exists'.1 hsaid
  cases hon with
  | block _ => nomatch sentOn_of_said hsaid
  | transaction _ => nomatch sentOn_of_said hsaid

variable (c) in
/-- All that a network has, has come in one of these ways. -/
structure Provenance (s : Network ι) : Prop where
  holds : ∀ j, Holds c (Origin c s.log j) (Offered c s.log j) (s.chain j)
  flying : ∀ i j m, s.link.Flying i j m → SentBy s.log i m
  batch : ∀ j, ∀ x ∈ s.batch j, Origin c s.log x.1 x.2
  heard : ∀ j i m said, .handled j (.peer i) m said ∈ s.log → said = none ∧ SentBy s.log i m

/-- A network that starts has nothing to account for but the genesis block. -/
theorem Provenance.start (h : s.Starts c) : Provenance c s where
  holds j := by
    obtain ⟨amb, genesis, hg, hadd⟩ := h.chain j
    have hpreserves :
        Call.Preserves (Holds c (Origin c s.log j) (Offered c s.log j)) (addBlock c amb genesis) :=
      Holds.addBlock (fun b hb tx htx => .displaced hb htx) (.genesis hg)
    have hholds := hpreserves.apply Holds.new
    rwa [hadd] at hholds
  flying i j m := by
    rintro ⟨ms, hms, hm⟩
    rw [h.link i j ms hms] at hm
    cases hm
  batch j x hx := by
    rw [h.batch j] at hx
    cases hx
  heard j i m said hm := by
    rw [h.log] at hm
    cases hm

variable [DecidableEq ι]

namespace Provenance

/-- A link may be set to packets that were in flight on it. -/
theorem setLink {ms : Option (List Packet)} (h : Provenance c s)
    (hms : ∀ ms' ∈ ms, ∀ m ∈ ms', s.link.Flying i j m) : Provenance c (s.setLink i j ms) where
  holds := h.holds
  flying k l m hm := by
    rcases Links.flying_set hm with hm | ⟨rfl, rfl, ms', hms', hm⟩
    exacts [h.flying k l m hm, h.flying k l m (hms ms' hms' m hm)]
  batch := h.batch
  heard := h.heard

/-- A packet may be taken off a link. -/
theorem erase {n : ℕ} (h : Provenance c s) :
    Provenance c (s.setLink i j ((s.link i j).map (·.eraseIdx n))) := by
  refine h.setLink fun ms' hms' m hm => ?_
  obtain ⟨ms, hms, rfl⟩ := Option.map_eq_some_iff.1 hms'
  exact ⟨ms, hms, List.mem_of_mem_eraseIdx hm⟩

/-- The chain of a node changes, and more has happened. -/
theorem step (h : Provenance c s) {s' : Network ι} {chain : Blockchain} {x : Happening ι}
    (hchain : s'.chain = Function.update s.chain j chain) (hlog : s'.log = s.log ++ [x])
    (hholds : Holds c (Origin c s'.log j) (Offered c s'.log j) chain)
    (hflying : ∀ i k m, s'.link.Flying i k m → s.link.Flying i k m ∨ SentBy s'.log i m)
    (hbatch : ∀ k, s'.batch k ⊆ s.batch k)
    (hheard : ∀ k i m said, x = .handled k (.peer i) m said → said = none ∧ SentBy s'.log i m) :
    Provenance c s' := by
  have hmore : s.log ⊆ s'.log := by
    rw [hlog]
    exact List.subset_append_left _ _
  refine ⟨fun k => ?_, fun i k m hm => ?_, fun k x hx => ?_, fun k i m said hm => ?_⟩
  · -- Only the chain of the one node has changed.
    rw [hchain, Function.update_apply]
    split_ifs with hk
    · rw [hk]
      exact hholds
    · exact (h.holds k).mono (fun _ ho => ho.mono hmore) fun _ ho => ho.mono hmore
  · -- What is in flight was so before, or is sent now; in both cases it is accounted for by the
    -- longer log.
    rcases hflying i k m hm with hm | hm
    exacts [(h.flying i k m hm).mono hmore, hm]
  · exact (h.batch k x (hbatch k hx)).mono hmore
  · rw [hlog] at hm
    rcases List.mem_append.1 hm with hm | hm
    · exact ⟨(h.heard k i m said hm).1, (h.heard k i m said hm).2.mono hmore⟩
    · exact hheard k i m said (List.mem_singleton.1 hm).symm

/-- A message is handled. -/
theorem handled (h : Provenance c s) (hm : ∀ i, sender = .peer i → SentBy s.log i m) :
    Provenance c (s.handled c e j sender env m) := by
  have hmore : s.log ⊆ (s.handled c e j sender env m).log := List.subset_append_left _ _
  have hlast : .handled j sender m (s.said c e j env m) ∈ (s.handled c e j sender env m).log :=
    List.mem_append_right _ (List.mem_singleton.2 rfl)
  refine h.step (j := j) rfl rfl ?_ (fun i k m' hm' => ?_) (fun _ => List.Subset.refl _) ?_
  · refine (Holds.handle (fun b hb tx htx => .displaced hb htx) (fun b hb => ?_) fun tx htx => ?_).apply
      ((h.holds j).mono (fun _ ho => ho.mono hmore) fun _ ho => ho.mono hmore)
    · -- A client is an origin of its own; a packet of a peer has the origin it had when it was sent.
      cases sender with
      | client => exact .client hlast hb
      | peer i => exact ((hm i rfl).mono hmore).origin hlast hb
    · cases sender with
      | client => exact .client hlast htx
      | peer i => exact ((hm i rfl).mono hmore).offered hlast htx
  · rcases Network.flying_handled hm' with hm' | ⟨rfl, hsaid⟩
    · exact .inl hm'
    · refine .inr ⟨m, Network.sentOn_of_said hsaid, ?_⟩
      cases sender with
      | client => exact hsaid ▸ hlast
      | peer i =>
        -- What a peer sends is not what is broadcast.
        rw [Network.said_eq_none (hm i rfl)] at hsaid
        cases hsaid
  · rintro k i m' said ⟨⟩
    exact ⟨Network.said_eq_none (hm i rfl), (hm i rfl).mono hmore⟩

/-- A downloaded block is added. -/
theorem added (h : Provenance c s) : Provenance c (s.added c j env) := by
  have hbatch : ∀ k, (s.added c j env).batch k ⊆ s.batch k := Network.batch_added
  rw [Network.added] at hbatch ⊢
  cases hnext : s.batch j with
  | nil => exact h
  | cons x rest =>
    obtain ⟨i, block⟩ := x
    have horigin := h.batch j (i, block) (by rw [hnext]; exact List.mem_cons_self)
    rw [hnext] at hbatch
    refine h.step (j := j) rfl rfl ?_ (fun _ _ _ => .inl) hbatch (by rintro _ _ _ _ ⟨⟩)
    have hmore : s.log ⊆ s.log ++ [.downloaded j i block] := List.subset_append_left _ _
    refine (Holds.syncBlock (fun b hb tx htx => .displaced hb htx) ?_).apply
      ((h.holds j).mono (fun _ ho => ho.mono hmore) fun _ ho => ho.mono hmore)
    exact .downloaded (List.mem_append_right _ (List.mem_singleton.2 rfl)) (horigin.mono hmore)

/-- The chain of a node changes, and nothing else. -/
theorem setChain (h : Provenance c s) {chain : Blockchain}
    (hchain : ∀ Q R, Holds c Q R (s.chain j) → Holds c Q R chain) : Provenance c (s.setChain j chain) where
  holds k := by
    dsimp only [Network.setChain]
    rw [Function.update_apply]
    split_ifs with hk
    · rw [hk]
      exact hchain _ _ (h.holds j)
    · exact h.holds k
  flying := h.flying
  batch := h.batch
  heard := h.heard

/-- No step of the network holds, or sends, what it has not received. -/
theorem after (h : Provenance c s) (op : NetworkOp ι) : Provenance c (s.after c e op) := by
  cases op with
  | ask j env m => exact h.handled (by rintro _ ⟨⟩)
  | deliver i j k env =>
    dsimp only [Network.after]
    -- The packet is one that is in flight, if its place is in range.
    split
    · next m hm =>
      obtain ⟨ms, hms, hk⟩ := Option.bind_eq_some_iff.1 hm
      have hsent := h.flying i j m ⟨ms, hms, List.mem_of_getElem? hk⟩
      refine h.erase.handled fun i' hi' => ?_
      cases hi'
      exact hsent
    · exact h
  | lose i j k => exact h.erase
  | connect i j =>
    -- A new connection carries nothing yet.
    refine h.setLink fun ms hms m hm => ?_
    rw [← Option.some.inj hms] at hm
    cases hm
  | disconnect i j => exact h.setLink fun _ hms => nomatch hms
  | fetch j i start count =>
    dsimp only [Network.after]
    split
    · next blocks hblocks =>
      refine ⟨h.holds, h.flying, fun k x hx => ?_, h.heard⟩
      -- What is fetched are blocks of the other node.
      rcases Network.of_mem_fetched (h.holds i).chain.1.1 hblocks hx with hx | ⟨rfl, y, hy⟩
      exacts [h.batch k x hx, (h.holds x.1).chain.1.2.blocks y x.2 hy]
    · exact h
  | add j env => exact h.added
  | cleanup j now => exact h.setChain fun _ _ hs => hs.cleanupMempool now
  | sample j offset => exact h.setChain fun _ _ hs => hs.setTimeOffset offset

end Provenance

/-- Every state of a run accounts for its blocks, its transactions and its packets. -/
theorem provenance_of_reachable (hs : (networkSystem c e).Reachable s) : Provenance c s := by
  refine hs.invariant (I := Provenance c) (fun s hs => ?_) ?_
  · exact Provenance.start hs
  · rintro s op _ h - rfl
    exact h.after op

/-- In every run of a network: each block that a node knows, or keeps as an orphan, it has from
    a client, or from a peer to which a client has submitted it, or has downloaded from a node
    that had it so, so that some client has brought it or it is the genesis; a transaction
    that waits it has likewise, or from such a block; and a message that a node handles for a
    peer is one that a client has submitted to that peer, and is not sent on. -/
theorem provenance (hs : (networkSystem c e).Reachable s) :
    (∀ j x block, (s.chain j).blocks.lookup x = some block ∨ (s.chain j).orphans.lookup x = some block →
      Origin c s.log j block ∧ (genesisBlock c = some block ∨
        ∃ i m said, .handled i .client m said ∈ s.log ∧ m.block? = some block)) ∧
    (∀ j, ∀ entry ∈ (s.chain j).mempool, Offered c s.log j entry.2) ∧
    (∀ i j m, s.link.Flying i j m → SentBy s.log i m) ∧
    ∀ j i m said, .handled j (.peer i) m said ∈ s.log → said = none ∧ SentBy s.log i m := by
  have h := provenance_of_reachable hs
  refine ⟨fun j x block hblock => ?_, fun j => (h.holds j).waiting, h.flying, h.heard⟩
  have horigin : Origin c s.log j block := by
    rcases hblock with hblock | hblock
    exacts [(h.holds j).chain.1.2.blocks x block hblock, (h.holds j).chain.1.2.orphans x block hblock]
  exact ⟨horigin, horigin.exists_client⟩

end

namespace Sample

/-- Two nodes at the genesis. -/
noncomputable def neighbours : Network Bool where
  chain _ := run forkCrypto (delivering [genesis])
  link i j := if i = j then none else some []
  batch _ := []
  log := []

/-- Two nodes at their start. -/
theorem starts_neighbours : neighbours.Starts forkCrypto := by
  have hadd : (addBlock forkCrypto ambient genesis new).2 = .ok () := by decide +kernel
  refine ⟨fun _ => ⟨ambient, genesis, by decide +kernel, Prod.ext rfl hadd⟩, fun i j ms hms => ?_,
    fun _ => rfl, rfl⟩
  change (if i = j then none else some []) = some ms at hms
  split_ifs at hms
  exact (Option.some.inj hms).symm

/-- A client submits a block to one, which passes it on. -/
noncomputable def informed : Network Bool :=
  [NetworkOp.ask false surroundings (.submitTemplate left), .deliver false true 0 surroundings].foldl
    (Network.after forkCrypto encoding) neighbours

/-- A run of the two. -/
theorem reachable_neighbours (ops : List (NetworkOp Bool)) : (networkSystem forkCrypto encoding).Reachable
    (ops.foldl (Network.after forkCrypto encoding) neighbours) := by
  have hstart : (networkSystem forkCrypto encoding).Reachable neighbours := .init starts_neighbours
  exact hstart.foldl fun _ _ _ => ⟨trivial, rfl⟩

/-- The other has it. -/
theorem provenance_sample : (informed.chain true).blocks.lookup 2 = some left ∧
    Origin forkCrypto informed.log true left := by
  have hblock : (informed.chain true).blocks.lookup 2 = some left := by decide +kernel
  exact ⟨hblock, ((provenance (reachable_neighbours _)).1 true 2 left (.inl hblock)).1⟩

end Sample

end Itx
