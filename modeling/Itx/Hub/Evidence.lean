import Itx.Chain.Ideal
import Itx.Hub.Payments
import Itx.Node.Sync

/-!
# Looking for a payment on the chain

When the outputs of the recipient and the source do not tell what became of a payment, the hub
reads the blocks of its node from the height of the payment on (`scan_for_evidence`,
`hub/src/payments.rs`). A pass makes two requests, and how far it came is kept on the payment
for the next one. An empty answer says that all blocks were read.

What is kept is a height, while the chain of the node may be switched under it: a payment in a
block that replaces one that was read already is missed, and the scan answers that it is on no
block (`scan_misses_replaced`). In every run where no change of the chain brings the output of
the payment to a height that was read, the answer is right; and on a chain that does not change
any more, the scan comes to an end (`scan_sound`).
-/

namespace Itx

open Blockchain

/-! ## Positions that were searched -/

section

variable {α : Type*} {p : α → Prop} {f f' : ℕ → Option α} {start n k m : ℕ}

/-- From one position up to another, nothing meets a predicate. -/
def Clear (p : α → Prop) (f : ℕ → Option α) (start n : ℕ) : Prop :=
  ∀ i, start ≤ i → i < n → ∀ a ∈ f i, ¬ p a

theorem Clear.refl : Clear p f start start := fun _ hle hlt => absurd hlt (not_lt.2 hle)

theorem Clear.mono (h : Clear p f start n) (hle : m ≤ n) : Clear p f start m :=
  fun i hi hlt => h i hi (hlt.trans_le hle)

/-- Reading on. -/
theorem Clear.advance (h : Clear p f start n) (hread : ∀ i < k, ∀ a ∈ f (n + i), ¬ p a) :
    Clear p f start (n + k) := by
  intro i hi hlt a ha
  by_cases hin : i < n
  · exact h i hi hin a ha
  · obtain ⟨j, rfl⟩ := Nat.exists_eq_add_of_le (not_lt.1 hin)
    exact hread j (by omega) a ha

/-- Everything was read. -/
theorem Clear.all (h : Clear p f start n) (hend : ∀ i, n ≤ i → f i = none) {i : ℕ} (hi : start ≤ i)
    {a : α} (ha : f i = some a) : ¬ p a := by
  refine h i hi (not_le.1 fun hle => ?_) a ha
  rw [hend i hle] at ha
  cases ha

/-- Something changes, but nothing that meets the predicate comes to where it was read. -/
theorem Clear.change (h : Clear p f start n)
    (hkeeps : ∀ i, start ≤ i → i < n → ∀ a ∈ f' i, p a → f i = some a) : Clear p f' start n := by
  intro i hi hlt a ha hp
  exact h i hi hlt a (hkeeps i hi hlt a ha hp) hp

end

/-! ## The scan -/

def evidenceScanBlocksPerPass : ℕ := 64

/-- The block of the active chain at a height. -/
def Blockchain.blockAt (s : Blockchain) (height : ℕ) : Option Block :=
  s.activeChain[height]?.bind s.blocks.lookup

/-- A scan, and the node it reads from. -/
structure Scan where
  chain : Blockchain
  /-- The payment as the hub keeps it between the passes. -/
  saved : Payment
  /-- The copy a pass goes on with, after its first request. -/
  copy : Option Payment
  /-- What the last request settled, if the chain has not changed since. -/
  answer : Option Evidence

namespace Scan

/-- The copy of the payment that is read for. -/
def payment (s : Scan) : Payment := s.copy.getD s.saved

/-- How far the blocks were read. -/
def progress (s : Scan) : ℕ := s.payment.scannedThrough

end Scan

section

variable (c : Crypto) (size : Block → ℕ) (wanted : Hash)

/-- What a request for blocks is answered, if it is. -/
def scanReply (answers : Bool) (chain : Blockchain) (start : ℕ) : Option (List Block) :=
  if answers then fetchBlocks size start evidenceScanBlocksPerPass chain else none

/-- A pass comes to an end: unless the payment was found, how far it came is saved, if that
    can be. -/
def Scan.conclude (saves : Bool) (evidence : Evidence) (scanned : Payment) (s : Scan) : Scan :=
  { s with
    copy := none
    answer := some evidence
    saved :=
      if saves then
        match evidence with
        | .mined => s.saved
        | .absentFromChain => { scanned with status := .needsReview }
        | .inconclusive => scanned
      else s.saved }

/-- The next request of a scan. -/
def Scan.ask (answers saves : Bool) (s : Scan) : Scan :=
  match scanPass c wanted (scanReply size answers s.chain) s.payment, s.copy with
  | (some evidence, scanned), _ => s.conclude saves evidence scanned
  | (none, scanned), none => { s with copy := some scanned, answer := none }
  | (none, scanned), some _ => s.conclude saves .inconclusive scanned

/-- The chain of the node moves on, or the scan makes a request: whether it is answered, and
    whether what comes of it can be saved. -/
inductive ScanOp
  | node (op : Op)
  | ask (answers saves : Bool)

namespace ScanOp

def after (s : Scan) : ScanOp → Scan
  | node op => { s with chain := (op.call c s.chain).1, answer := none }
  | ask answers saves => s.ask c size wanted answers saves

/-- A change of the chain brings the output to no height from `start` on that was read. -/
def Keeps (start : ℕ) (s : Scan) : ScanOp → Prop
  | node op => ∀ h, start ≤ h → h < s.progress → ∀ b ∈ (op.call c s.chain).1.blockAt h,
      wanted ∈ b.creates c → s.chain.blockAt h = some b
  | ask _ _ => True

end ScanOp

/-- The scans for a payment, on any chain. -/
def scanSystem (payment : Payment) : System Scan ScanOp where
  init := { s | (chainSystem c).Reachable s.chain ∧ s.saved = payment ∧ s.copy = none ∧ s.answer = none }
  step s op s' := s' = op.after c size wanted s

end

section

variable {c : Crypto} {size : Block → ℕ} {wanted : Hash} {start : ℕ} {s : Scan} {payment : Payment}
  {answers saves : Bool}

/-! ## What a request settles -/

theorem ask_of_settled {evidence : Evidence} {scanned : Payment}
    (h : scanPass c wanted (scanReply size answers s.chain) s.payment = (some evidence, scanned)) :
    s.ask c size wanted answers saves = s.conclude saves evidence scanned := by
  rw [Scan.ask, h]

theorem ask_of_first {scanned : Payment} (hcopy : s.copy = none)
    (h : scanPass c wanted (scanReply size answers s.chain) s.payment = (none, scanned)) :
    s.ask c size wanted answers saves = { s with copy := some scanned, answer := none } := by
  rw [Scan.ask, h, hcopy]

theorem ask_of_second {scanned copy : Payment} (hcopy : s.copy = some copy)
    (h : scanPass c wanted (scanReply size answers s.chain) s.payment = (none, scanned)) :
    s.ask c size wanted answers saves = s.conclude saves .inconclusive scanned := by
  rw [Scan.ask, h, hcopy]

/-- A pass answers what `scan_for_evidence` does, of the chain at each of its requests. -/
theorem ask_answer {replies : NodeReplies} {chain : Blockchain} {answers' : Bool}
    (hwanted : s.saved.outputHash = some wanted) (hcopy : s.copy = none)
    (hblocks : replies.blocks = scanReply size answers s.chain)
    (hblocks' : replies.blocks' = scanReply size answers' chain) {first second : Scan}
    (hfirst : first = s.ask c size wanted answers saves)
    (hsecond : second = ({ first with chain, answer := none } : Scan).ask c size wanted answers' saves) :
    (if first.copy = none then first else second).answer = some (scanForEvidence c replies s.saved).1 := by
  have hpayment : s.payment = s.saved := by rw [Scan.payment, hcopy, Option.getD_none]
  rw [scanForEvidence, hwanted, hblocks, hblocks', ← hpayment]
  dsimp only
  rcases hpass : scanPass c wanted (scanReply size answers s.chain) s.payment with ⟨_ | evidence, scanned⟩
  · rw [ask_of_first hcopy hpass] at hfirst
    subst hfirst
    rw [if_neg (by simp), hsecond]
    dsimp only
    rcases hpass' : scanPass c wanted (scanReply size answers' chain) scanned with ⟨_ | evidence, scanned'⟩
    · rw [ask_of_second rfl hpass']
      rfl
    · rw [ask_of_settled hpass']
      rfl
  · rw [ask_of_settled hpass] at hfirst
    subst hfirst
    rfl

/-! ## Reading the blocks of a node -/

/-- The payment once some more blocks were read for it. -/
def Payment.readOn (payment : Payment) (count : ℕ) : Payment :=
  { payment with scannedThrough := min (payment.scannedThrough + count) (u64Bound - 1) }

theorem Payment.readOn_lt (payment : Payment) (count : ℕ) :
    (payment.readOn count).scannedThrough < u64Bound := by
  rw [Payment.readOn]
  have hpos : 0 < u64Bound := by decide
  dsimp only
  omega

section

variable {reply : ℕ → Option (List Block)} {blocks : List Block}

theorem scanPass_unanswered (h : reply payment.scannedThrough = none) :
    scanPass c wanted reply payment = (some .inconclusive, payment) := by
  rw [scanPass, h]

theorem scanPass_nil (h : reply payment.scannedThrough = some []) :
    scanPass c wanted reply payment = (some .absentFromChain, payment) := by
  rw [scanPass, h]
  exact if_pos rfl

theorem any_creates_iff : (blocks.any fun block => block.transactions.any fun tx =>
    tx.outputs.any fun o => c.hashOutput o = wanted) = true ↔ ∃ b ∈ blocks, wanted ∈ b.creates c := by
  simp only [List.any_eq_true, decide_eq_true_eq, Block.creates, Block.outputs, List.mem_map, List.mem_flatMap]
  constructor
  · rintro ⟨b, hb, tx, htx, o, ho, he⟩
    exact ⟨b, hb, o, ⟨tx, htx, ho⟩, he⟩
  · rintro ⟨b, hb, o, ⟨tx, htx, ho⟩, he⟩
    exact ⟨b, hb, tx, htx, o, ho, he⟩

theorem scanPass_found (h : reply payment.scannedThrough = some blocks)
    (hfound : ∃ b ∈ blocks, wanted ∈ b.creates c) :
    scanPass c wanted reply payment = (some .mined, payment.readOn blocks.length) := by
  have hne : blocks ≠ [] := by
    rintro rfl
    simp at hfound
  rw [scanPass, h]
  simp only [if_neg hne, any_creates_iff.2 hfound, if_true]
  rfl

theorem scanPass_unfound (h : reply payment.scannedThrough = some blocks) (hne : blocks ≠ [])
    (hfound : ¬ ∃ b ∈ blocks, wanted ∈ b.creates c) :
    scanPass c wanted reply payment = (none, payment.readOn blocks.length) := by
  rw [scanPass, h]
  simp only [if_neg hne, if_neg (mt any_creates_iff.1 hfound)]
  rfl

end

theorem blockAt_of_le {chain : Blockchain} {h : ℕ} (hle : chain.blockHeight ≤ h) : chain.blockAt h = none := by
  rw [blockAt, List.getElem?_eq_none hle]
  rfl

/-- What a node answers is the blocks from a height on, and at least one if there is one. -/
theorem scanReply_cases (size : Block → ℕ) {chain : Blockchain}
    (hknown : ∀ x ∈ chain.activeChain, x ∈ chain.blocks) (answers : Bool) (n : ℕ) :
    (answers = false ∧ scanReply size answers chain n = none) ∨
    ∃ blocks, answers = true ∧ scanReply size answers chain n = some blocks ∧
      (∀ i < blocks.length, ∀ b ∈ chain.blockAt (n + i), b ∈ blocks) ∧
      n + blocks.length ≤ max n chain.blockHeight ∧ (blocks = [] ↔ chain.blockHeight ≤ n) := by
  cases answers with
  | false => exact .inl ⟨rfl, rfl⟩
  | true =>
    right
    obtain ⟨blocks, hfetch, hnamed, -, -, hne⟩ := exists_fetchBlocks hknown size n evidenceScanBlocksPerPass
    have hlength := hnamed.length_eq
    rw [List.length_take, List.length_drop] at hlength
    refine ⟨blocks, rfl, hfetch, fun i hi b hb => ?_, ?_, ?_⟩
    · obtain ⟨x, hx, hb⟩ := Option.bind_eq_some_iff.1 hb
      obtain ⟨hlt, hget⟩ := List.getElem?_eq_some_iff.1 hx
      have hi' : i < ((chain.activeChain.drop n).take blocks.length).length := by
        rw [List.length_take, List.length_drop]
        omega
      have hxi : ((chain.activeChain.drop n).take blocks.length)[i] = x := by
        rw [List.getElem_take, List.getElem_drop]
        exact hget
      have hbi : chain.blocks.lookup ((chain.activeChain.drop n).take blocks.length)[i] = some blocks[i] :=
        hnamed.get hi' hi
      rw [hxi, hb] at hbi
      rw [Option.some.inj hbi]
      exact List.getElem_mem hi
    · rw [blockHeight]
      omega
    · rw [← not_iff_not, ← ne_eq, hne]
      simp [evidenceScanBlocksPerPass]

/-! ## Runs of a scan -/

/-- What the heights a scan has read say of the chain. -/
structure Searched (c : Crypto) (wanted : Hash) (start : ℕ) (s : Scan) : Prop where
  node : (chainSystem c).Reachable s.chain
  clear : Clear (fun b => wanted ∈ b.creates c) s.chain.blockAt start s.progress
  saved : s.saved.scannedThrough ≤ s.progress
  bounded : s.progress < u64Bound
  absent : s.answer = some .absentFromChain →
    Clear (fun b => wanted ∈ b.creates c) s.chain.blockAt start s.chain.blockHeight

theorem Scan.conclude_progress (evidence : Evidence) (scanned : Payment) (saves : Bool) (s : Scan) :
    (s.conclude saves evidence scanned).progress = s.saved.scannedThrough ∨
      (s.conclude saves evidence scanned).progress = scanned.scannedThrough ∧ evidence ≠ .mined := by
  cases saves with
  | false => exact .inl rfl
  | true => cases evidence <;> simp [Scan.conclude, Scan.progress, Scan.payment]

/-- A pass that ends where nothing was found. -/
theorem Searched.conclude (h : Searched c wanted start s) {evidence : Evidence} {scanned : Payment}
    (hbounded : scanned.scannedThrough < u64Bound)
    (hclear : evidence ≠ .mined →
      Clear (fun b => wanted ∈ b.creates c) s.chain.blockAt start scanned.scannedThrough)
    (habsent : evidence = .absentFromChain → s.chain.blockHeight ≤ s.progress) (saves : Bool) :
    Searched c wanted start (s.conclude saves evidence scanned) where
  node := h.node
  clear := by
    rcases s.conclude_progress evidence scanned saves with hp | ⟨hp, hne⟩
    · rw [hp]
      exact h.clear.mono h.saved
    · rw [hp]
      exact hclear hne
  saved := le_rfl
  bounded := by
    rcases s.conclude_progress evidence scanned saves with hp | ⟨hp, -⟩
    · rw [hp]
      exact h.saved.trans_lt h.bounded
    · rwa [hp]
  absent he := h.clear.mono (habsent (Option.some.inj he))

/-- The node of a scan is one that runs. -/
theorem node_of_reachable (hs : (scanSystem c size wanted payment).Reachable s) :
    (chainSystem c).Reachable s.chain := by
  refine hs.invariant (I := fun s => (chainSystem c).Reachable s.chain) ?_ ?_
  · rintro s ⟨h, -⟩
    exact h
  rintro s op _ h - rfl
  cases op with
  | node op => exact .step h trivial rfl
  | ask answers saves =>
    have hchain : (s.ask c size wanted answers saves).chain = s.chain := by
      rw [Scan.ask]
      split <;> rfl
    exact hchain.symm ▸ h

/-- A request that is answered settles the scan, or brings it on. -/
theorem ask_settles (hknown : ∀ x ∈ s.chain.activeChain, x ∈ s.chain.blocks)
    (hheight : s.chain.blockHeight < u64Bound) :
    (∃ evidence ≠ .inconclusive, (s.ask c size wanted true true).answer = some evidence) ∨
      s.progress < s.chain.blockHeight ∧ s.progress < (s.ask c size wanted true true).progress ∧
        (s.ask c size wanted true true).chain = s.chain := by
  rcases scanReply_cases size hknown true s.progress with
    ⟨hfalse, -⟩ | ⟨blocks, -, hreply, -, hle, hnil⟩
  · cases hfalse
  -- Nothing was read, so the end of the chain is reached.
  by_cases hempty : blocks = []
  · left
    rw [ask_of_settled (scanPass_nil (hempty ▸ hreply))]
    exact ⟨.absentFromChain, by simp, rfl⟩
  -- The output is in one of the blocks that were read.
  by_cases hfound : ∃ b ∈ blocks, wanted ∈ b.creates c
  · left
    rw [ask_of_settled (scanPass_found hreply hfound)]
    exact ⟨.mined, by simp, rfl⟩
  · right
    have hlt : s.progress < s.chain.blockHeight := not_le.1 (mt hnil.2 hempty)
    have hpos := List.length_pos_iff.2 hempty
    -- A block more is read, and the next pass starts after it.
    have hread : s.progress < (s.payment.readOn blocks.length).scannedThrough := by
      rw [max_eq_right hlt.le] at hle
      rw [Scan.progress] at hle ⊢
      rw [Payment.readOn]
      dsimp only
      omega
    have hpass := scanPass_unfound hreply hempty hfound
    cases hcopy : s.copy with
    | none =>
      rw [ask_of_first hcopy hpass]
      exact ⟨hlt, hread, rfl⟩
    | some copy =>
      rw [ask_of_second hcopy hpass]
      exact ⟨hlt, hread, rfl⟩

/-- Requests that are answered come to an end, while the chain stays as it is. -/
theorem asks_settle (hknown : ∀ x ∈ s.chain.activeChain, x ∈ s.chain.blocks)
    (hheight : s.chain.blockHeight < u64Bound) :
    ∃ n ≤ s.chain.blockHeight - s.progress + 1, ∃ evidence ≠ .inconclusive,
      ((Scan.ask c size wanted true true)^[n] s).answer = some evidence := by
  induction hrest : s.chain.blockHeight - s.progress using Nat.strongRecOn generalizing s with
  | ind rest ih =>
    have hsettles := @ask_settles c size wanted s hknown hheight
    rcases hsettles with hsettled | ⟨hlt, hprogress, hchain⟩
    · exact ⟨1, by omega, hsettled⟩
    · have hless : s.chain.blockHeight - (s.ask c size wanted true true).progress < rest := by omega
      obtain ⟨n, hn, hsettled⟩ := ih _ hless (hchain.symm ▸ hknown) (hchain.symm ▸ hheight) (by rw [hchain])
      exact ⟨n + 1, by omega, hsettled⟩

section

variable (hinj : Function.Injective c.hashBlock) (hne : ∀ block, c.hashBlock block ≠ Hash.zero)

include hinj hne

/-- What one request preserves. -/
theorem Searched.ask (h : Searched c wanted start s) (answers saves : Bool) :
    Searched c wanted start (s.ask c size wanted answers saves) := by
  have hknown := (sound_of_reachable hinj hne h.node).known
  rcases scanReply_cases size hknown answers s.progress with
    ⟨-, hreply⟩ | ⟨blocks, -, hreply, hread, -, hnil⟩
  · rw [ask_of_settled (scanPass_unanswered hreply)]
    exact h.conclude h.bounded (fun _ => h.clear) (by simp) saves
  by_cases hempty : blocks = []
  · -- There is nothing left to read.
    rw [ask_of_settled (scanPass_nil (hempty ▸ hreply))]
    exact h.conclude h.bounded (fun _ => h.clear) (fun _ => hnil.1 hempty) saves
  by_cases hfound : ∃ b ∈ blocks, wanted ∈ b.creates c
  · rw [ask_of_settled (scanPass_found hreply hfound)]
    exact h.conclude (Payment.readOn_lt _ _) (fun hmined => absurd rfl hmined) (by simp) saves
  · -- The blocks read are clear, and those before were.
    have hclear : Clear (fun b => wanted ∈ b.creates c) s.chain.blockAt start
        (s.payment.readOn blocks.length).scannedThrough := by
      refine (h.clear.advance fun i hi b hb hcreates => ?_).mono (Nat.min_le_left _ _)
      exact hfound ⟨b, hread i hi b hb, hcreates⟩
    have hpass := scanPass_unfound hreply hempty hfound
    cases hcopy : s.copy with
    | none =>
      rw [ask_of_first hcopy hpass]
      have hbounded := h.bounded
      have hpayment : s.payment = s.saved := by rw [Scan.payment, hcopy, Option.getD_none]
      refine ⟨h.node, hclear, le_min ?_ ?_, Payment.readOn_lt _ _, by simp⟩
      · rw [hpayment]
        exact Nat.le_add_right _ _
      · rw [Scan.progress, hpayment] at hbounded
        exact Nat.le_pred_of_lt hbounded
    | some copy =>
      rw [ask_of_second hcopy hpass]
      exact h.conclude (Payment.readOn_lt _ _) (fun _ => hclear) (by simp) saves

/-- What one step preserves, if it brings the output to no height that was read. -/
theorem Searched.after (h : Searched c wanted start s) {op : ScanOp} (hkeeps : op.Keeps c wanted start s) :
    Searched c wanted start (op.after c size wanted s) := by
  cases op with
  | node op =>
    refine ⟨.step h.node trivial rfl, ?_, h.saved, h.bounded, fun he => ?_⟩
    · exact h.clear.change hkeeps
    · cases he
  | ask answers saves => exact h.ask hinj hne answers saves

theorem searched_of_reachable (hbounded : payment.scannedThrough < u64Bound)
    (hs : (scanSystem c size wanted payment).ReachableBy
      (fun s op => op.Keeps c wanted payment.scannedThrough s) s) :
    Searched c wanted payment.scannedThrough s := by
  refine hs.invariant ?_ ?_
  · rintro ⟨chain, saved, copy, answer⟩ ⟨hchain, rfl, rfl, rfl⟩
    exact ⟨hchain, .refl, le_rfl, hbounded, by simp⟩
  · rintro s op _ h hkeeps rfl
    exact h.after hinj hne hkeeps

/-- **The scan is right** in every run where no change of the chain, between the requests or
    between the passes, brings the output of the payment to a height it has read: when it
    answers that the payment is on no block, no block of the active chain from the height of
    the payment on has its output. And in every run at all, once the chain stays as it is and
    the node answers, some request settles whether it has. -/
theorem scan_sound (hbounded : payment.scannedThrough < u64Bound) :
    (∀ s, (scanSystem c size wanted payment).ReachableBy
        (fun s op => op.Keeps c wanted payment.scannedThrough s) s →
      s.answer = some .absentFromChain → ∀ h, payment.scannedThrough ≤ h →
        ∀ b, s.chain.blockAt h = some b → wanted ∉ b.creates c) ∧
    ∀ s, (scanSystem c size wanted payment).Reachable s → s.chain.blockHeight < u64Bound →
      ∃ n ≤ s.chain.blockHeight - s.progress + 1, ∃ evidence ≠ .inconclusive,
        ((Scan.ask c size wanted true true)^[n] s).answer = some evidence := by
  refine ⟨fun s hs he height hle b hb => ?_, fun s hs hheight => ?_⟩
  · have h := searched_of_reachable hinj hne hbounded hs
    exact (h.absent he).all (fun i hi => blockAt_of_le hi) hle hb
  · exact asks_settle (sound_of_reachable hinj hne (node_of_reachable hs)).known hheight

end

end

/-! ## A block that is replaced -/

namespace Sample

/-- The second block spends the output of the key `8` by another payment. Two blocks replace
    it: the first has the payment that is looked for, the second one of its recipient. -/
def paid : Block := block 1 1 2 [payment [] 1 (50 * 10 ^ 8) 8]
def conflicting : Block :=
  block 2 2 (Nat.pair 3 4 + 1) [payment [] 2 (50 * 10 ^ 8) 9, payment [⟨2, 8⟩] 3 (50 * 10 ^ 8) 12]
def landed : Block :=
  block 3 2 (Nat.pair 5 6 + 1) [payment [] 4 (50 * 10 ^ 8) 9, payment [⟨2, 8⟩] 5 (50 * 10 ^ 8) 11]
def spentOnward : Block :=
  block 4 4 (Nat.pair 7 8 + 1) [payment [] 6 (50 * 10 ^ 8) 9, payment [⟨6, 11⟩] 7 (50 * 10 ^ 8) 13]

noncomputable def scanCrypto : Crypto :=
  crypto ([paid, conflicting, landed, spentOnward].flatMap Block.transactions)
    [paid, conflicting, landed, spentOnward]

/-- The payment of the block `landed`. -/
noncomputable def scanned : Payment :=
  Payment.new scanCrypto 1 0 .faucet 8 11 (50 * 10 ^ 8) (some (payment [⟨2, 8⟩] 5 (50 * 10 ^ 8) 11))

noncomputable def scanning : Scan :=
  ⟨run scanCrypto (delivering [genesis, paid, conflicting]), scanned, none, none⟩

def sizeOne (_ : Block) : ℕ := 1

noncomputable def scanRun (ops : List ScanOp) : Scan :=
  ops.foldl (ScanOp.after scanCrypto sizeOne 6) scanning

def replaced : List ScanOp :=
  [.ask true true, .ask true true] ++ (delivering [landed, spentOnward]).map .node ++
    [.ask true true, .ask true true]

theorem reachable_scanRun {C : Scan → ScanOp → Prop} {ops : List ScanOp}
    (h : ∀ op ∈ ops, ∀ s, C s op) :
    (scanSystem scanCrypto sizeOne 6 scanned).ReachableBy C (scanRun ops) := by
  have hstart : (scanSystem scanCrypto sizeOne 6 scanned).ReachableBy C scanning :=
    .init ⟨reachable_run _, rfl, rfl, rfl⟩
  exact hstart.foldl fun op hop s => ⟨h op hop s, rfl⟩

end Sample

open Sample

/-- The payment is in the block at height `2`, and the scan answers that it is on no block
    from height `0` on: it had read the block that was there before. -/
theorem scan_misses_replaced : scanned.outputHash = some 6 ∧ scanned.scannedThrough = 0 ∧
    ∃ s, (scanSystem scanCrypto sizeOne 6 scanned).Reachable s ∧ s.answer = some .absentFromChain ∧
      ∃ b, s.chain.blockAt 2 = some b ∧ 6 ∈ b.creates scanCrypto := by
  have hreach : (scanSystem scanCrypto sizeOne 6 scanned).Reachable (scanRun replaced) :=
    reachable_scanRun fun _ _ _ => trivial
  exact ⟨by decide +kernel, rfl, scanRun replaced, hreach, by decide +kernel, landed, by decide +kernel,
    by decide +kernel⟩

/-- Without the replacement, the scan is right, and answers what one call answers. -/
theorem scan_sound_sample : (scanRun [.ask true true, .ask true true]).answer = some .absentFromChain ∧
    (∀ replies : NodeReplies, replies.blocks = scanReply sizeOne true scanning.chain →
      replies.blocks' = scanReply sizeOne true scanning.chain →
      (scanForEvidence scanCrypto replies scanned).1 = .absentFromChain) ∧
    ∀ h b, (scanRun [.ask true true, .ask true true]).chain.blockAt h = some b →
      6 ∉ b.creates scanCrypto := by
  have hreach : (scanSystem scanCrypto sizeOne 6 scanned).ReachableBy
      (fun s op => op.Keeps scanCrypto 6 scanned.scannedThrough s)
      (scanRun [.ask true true, .ask true true]) := by
    refine reachable_scanRun fun op hop s => ?_
    simp only [List.mem_cons, List.not_mem_nil, or_false, or_self] at hop
    rw [hop]
    trivial
  have hanswer : (scanRun [.ask true true, .ask true true]).answer = some .absentFromChain := by
    decide +kernel
  refine ⟨hanswer, fun replies hblocks hblocks' => ?_, fun h b hb => ?_⟩
  · have hwanted : scanning.saved.outputHash = some 6 := by decide +kernel
    have hanswered := ask_answer (c := scanCrypto) hwanted rfl hblocks hblocks'
      (show _ = scanning.ask scanCrypto sizeOne 6 _ true from rfl) rfl
    exact Option.some.inj (hanswered.symm.trans (by decide +kernel))
  · exact (scan_sound (tableHash_injective _) (tableHash_ne_zero _) (by decide)).1 _ hreach
      hanswer h (Nat.zero_le _) b hb

end Itx
