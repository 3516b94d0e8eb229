import Itx.Hub.Selection
import Itx.Wallet.Fees

/-!
# What the wallet spends

A wallet pays from the outputs of several keys (`Core::create_transaction`, `wallet/src/core.rs`).
It walks through them as they are stored, and takes the unmarked ones until they cover the amount
and the fee, which depends on how many it has taken. It never leaves one out, though it may cost
more than it is worth.

* `exists_err_iff`: when the funds are said not to suffice;
* `selection_complete_iff`: when this is so only if no choice of outputs would do, and what is built
  otherwise spends each output once;
* `PaysFrom.verifies`: what is built spends each output with a signature that is good for its key.
-/

namespace Itx

/-- `LoadedKey`: a key pair. -/
structure LoadedKey where
  publicKey : PublicKey
  privateKey : PrivateKey

/-- `UtxoStore`: the keys of the wallet, and the outputs that the node has reported for some keys, in
    the order they are gone through. -/
structure UtxoStore where
  myKeys : List LoadedKey
  utxos : List (PublicKey × UtxoReply)
  /-- The outputs are those of a `SkipMap`. -/
  nodup : (utxos.map Prod.fst).Nodup

/-- Why a wallet does not pay. -/
inductive WalletError
  | insufficientFunds
  deriving DecidableEq, Repr

/-- An output, with the key it is stored for. -/
abbrev Coin := PublicKey × TransactionOutput

/-- All that is stored. -/
def UtxoStore.entries (store : UtxoStore) : List (PublicKey × Bool × TransactionOutput) :=
  store.utxos.flatMap fun entry => entry.2.map (Prod.mk entry.1)

/-- What is not marked of it. -/
def freeCoins (entries : List (PublicKey × Bool × TransactionOutput)) : List Coin :=
  (entries.filter fun entry => !entry.2.1).map fun entry => (entry.1, entry.2.2)

def UtxoStore.free (store : UtxoStore) : List Coin := freeCoins store.entries

section

variable (c : Crypto) (g : Signing) (fee : ℕ → ℕ) (amount : ℕ)

/-- The selection of `create_transaction`, both loops in one, as the inner one ends them both: the
    hashes of what is taken, with the keys to sign with, and their sum. The fee is
    `calculate_fee` of the number of inputs, for the amount and two outputs. -/
def selectCoins (myKeys : List LoadedKey) : List (PublicKey × Bool × TransactionOutput) → ℕ → ℕ →
    Outcome WalletError (List (Hash × PrivateKey) × ℕ)
  | [], _, inputSum => .ok ([], inputSum)
  | (pubkey, marked, utxo) :: entries, count, inputSum =>
    if marked then selectCoins myKeys entries count inputSum
    else do
      let needed ← .expect (checkedAdd amount (fee count))
      if inputSum ≥ needed then .ok ([], inputSum)
      else do
        let key ← .expect (myKeys.find? fun key => key.publicKey = pubkey)
        let inputSum ← .expect (checkedAdd inputSum utxo.value)
        let (selected, inputSum) ← selectCoins myKeys entries (count + 1) inputSum
        pure ((c.hashOutput utxo, key.privateKey) :: selected, inputSum)

/-- The outputs of `create_transaction`: the payment, then the change if there is any. -/
def walletOutputs (ids : ℕ → Uuid) (myKeys : List LoadedKey) (recipient : PublicKey) (change : ℕ) :
    Outcome WalletError (List TransactionOutput) :=
  let payment : TransactionOutput := { value := amount, uniqueId := ids 0, pubkey := recipient }
  if change > 0 then do
    let key ← .expect myKeys[0]?
    pure [payment, { value := change, uniqueId := ids 1, pubkey := key.publicKey }]
  else pure [payment]

/-- `Core::create_transaction`, with the ids it draws. -/
def createTransaction (ids : ℕ → Uuid) (store : UtxoStore) (recipient : PublicKey) :
    Outcome WalletError Transaction := do
  let (selected, inputSum) ← selectCoins c fee amount store.myKeys store.entries 0 0
  let totalAmount ← .expect (checkedAdd amount (fee selected.length))
  Outcome.ensure (totalAmount ≤ inputSum) .insufficientFunds
  let outputs ← walletOutputs amount ids store.myKeys recipient (inputSum - totalAmount)
  pure ⟨selected.map fun p => .signed c g p.1 outputs p.2, outputs⟩

end

variable {c : Crypto} {g : Signing} {fee : ℕ → ℕ} {amount count inputSum : ℕ} {ids : ℕ → Uuid}
  {myKeys : List LoadedKey} {entries : List (PublicKey × Bool × TransactionOutput)} {store : UtxoStore}
  {recipient : PublicKey}

/-! ## The walk -/

/-- What coins are worth. -/
def Coin.value (coin : Coin) : ℕ := coin.2.value

variable (fee amount) in
/-- The coins that are taken, when `count` are already, and are worth `inputSum`. -/
def taken (count inputSum : ℕ) (coins : List Coin) : List Coin :=
  collect Coin.value (fun n => amount + fee n) count inputSum coins

/-- What is recorded of a coin: its hash, and the key for it. -/
def Records (c : Crypto) (myKeys : List LoadedKey) (p : Hash × PrivateKey) (coin : Coin) : Prop :=
  p.1 = c.hashOutput coin.2 ∧ ∃ key ∈ myKeys, key.publicKey = coin.1 ∧ p.2 = key.privateKey

/-- The walk comes to an end: every key is known, and every sum is in range. -/
structure Walked (fee : ℕ → ℕ) (amount : ℕ) (myKeys : List LoadedKey) (count inputSum : ℕ) (coins : List Coin) :
    Prop where
  known : ∀ coin ∈ coins, ∃ key ∈ myKeys, key.publicKey = coin.1
  sum : inputSum + (coins.map Coin.value).sum < u64Bound
  needed : ∀ n ≤ coins.length, amount + fee (count + n) < u64Bound

theorem freeCoins_cons_free (pubkey : PublicKey) (utxo : TransactionOutput) :
    freeCoins ((pubkey, false, utxo) :: entries) = (pubkey, utxo) :: freeCoins entries := rfl

/-- What is selected is what is taken. -/
theorem selectCoins_eq_ok {selected : List (Hash × PrivateKey)} {total : ℕ}
    (h : selectCoins c fee amount myKeys entries count inputSum = .ok (selected, total)) :
    total = inputSum + ((taken fee amount count inputSum (freeCoins entries)).map Coin.value).sum ∧
      List.Forall₂ (Records c myKeys) selected (taken fee amount count inputSum (freeCoins entries)) := by
  induction entries generalizing count inputSum selected with
  | nil =>
    obtain ⟨rfl, rfl⟩ := Prod.mk.inj (Outcome.ok.inj h)
    exact ⟨rfl, .nil⟩
  | cons entry entries ih =>
    obtain ⟨pubkey, marked, utxo⟩ := entry
    cases marked with
    | true => exact ih h
    | false =>
      obtain ⟨needed, hneeded, h⟩ := Outcome.bind_eq_ok.1 h
      obtain ⟨rfl, -⟩ := checkedAdd_eq_some.1 (Outcome.expect_eq_ok.1 hneeded)
      rw [freeCoins_cons_free, taken, collect]
      split_ifs at h ⊢ with henough
      · obtain ⟨rfl, rfl⟩ := Prod.mk.inj (Outcome.ok.inj h)
        exact ⟨rfl, .nil⟩
      · obtain ⟨key, hkey, h⟩ := Outcome.bind_eq_ok.1 h
        obtain ⟨sum, hsum, h⟩ := Outcome.bind_eq_ok.1 h
        obtain ⟨⟨rest, total'⟩, hrest, h⟩ := Outcome.bind_eq_ok.1 h
        obtain ⟨rfl, rfl⟩ := Prod.mk.inj (Outcome.ok.inj h)
        obtain ⟨rfl, -⟩ := checkedAdd_eq_some.1 (Outcome.expect_eq_ok.1 hsum)
        obtain ⟨htotal, hrecords⟩ := ih hrest
        have hkey := Outcome.expect_eq_ok.1 hkey
        refine ⟨?_, .cons ⟨rfl, key, List.mem_of_find?_eq_some hkey, ?_, rfl⟩ hrecords⟩
        · rw [List.map_cons, List.sum_cons, ← add_assoc]
          exact htotal
        · simpa using List.find?_some hkey

/-- What is selected was in range. -/
theorem selectCoins_in_range {selected : List (Hash × PrivateKey)} {total : ℕ} (hsum : inputSum < u64Bound)
    (h : selectCoins c fee amount myKeys entries count inputSum = .ok (selected, total)) :
    total < u64Bound ∧ ∀ n < selected.length, amount + fee (count + n) < u64Bound := by
  induction entries generalizing count inputSum selected with
  | nil =>
    obtain ⟨rfl, rfl⟩ := Prod.mk.inj (Outcome.ok.inj h)
    exact ⟨hsum, fun n hn => absurd hn (Nat.not_lt_zero n)⟩
  | cons entry entries ih =>
    obtain ⟨pubkey, marked, utxo⟩ := entry
    cases marked with
    | true => exact ih hsum h
    | false =>
      obtain ⟨needed, hneeded, h⟩ := Outcome.bind_eq_ok.1 h
      obtain ⟨rfl, hlt⟩ := checkedAdd_eq_some.1 (Outcome.expect_eq_ok.1 hneeded)
      split_ifs at h
      · obtain ⟨rfl, rfl⟩ := Prod.mk.inj (Outcome.ok.inj h)
        exact ⟨hsum, fun n hn => absurd hn (Nat.not_lt_zero n)⟩
      · obtain ⟨key, -, h⟩ := Outcome.bind_eq_ok.1 h
        obtain ⟨sum, hsum', h⟩ := Outcome.bind_eq_ok.1 h
        obtain ⟨⟨rest, total'⟩, hrest, h⟩ := Outcome.bind_eq_ok.1 h
        obtain ⟨rfl, rfl⟩ := Prod.mk.inj (Outcome.ok.inj h)
        obtain ⟨rfl, hbound⟩ := checkedAdd_eq_some.1 (Outcome.expect_eq_ok.1 hsum')
        obtain ⟨htotal, hall⟩ := ih hbound hrest
        refine ⟨htotal, fun n hn => ?_⟩
        rcases n with _ | n
        · exact hlt
        · rw [← Nat.add_assoc, Nat.add_right_comm]
          exact hall n (Nat.lt_of_succ_lt_succ hn)

/-- It never fails. -/
theorem selectCoins_ne_err {e : WalletError} :
    selectCoins c fee amount myKeys entries count inputSum ≠ .err e := by
  induction entries generalizing count inputSum with
  | nil => exact fun h => by cases h
  | cons entry entries ih =>
    obtain ⟨pubkey, marked, utxo⟩ := entry
    cases marked with
    | true => exact ih
    | false =>
      refine Outcome.expect_bind_ne_err fun needed => ?_
      split_ifs
      · exact fun h => by cases h
      · refine Outcome.expect_bind_ne_err fun key => Outcome.expect_bind_ne_err fun sum => ?_
        exact Outcome.bind_ne_err ih fun _ h => by cases h

theorem Walked.tail {coin : Coin} {coins : List Coin}
    (h : Walked fee amount myKeys count inputSum (coin :: coins)) :
    Walked fee amount myKeys (count + 1) (inputSum + coin.value) coins where
  known coin' hcoin := h.known coin' (List.mem_cons_of_mem _ hcoin)
  sum := by
    have hsum := h.sum
    rwa [List.map_cons, List.sum_cons, ← add_assoc] at hsum
  needed n hn := by
    rw [add_assoc, add_comm 1]
    exact h.needed (n + 1) (Nat.succ_le_succ hn)

/-- Where the walk comes to an end, after `n` coins that are enough or after all of them, something
    is selected. -/
theorem Walked.selects {n : ℕ} (h : Walked fee amount myKeys count inputSum ((freeCoins entries).take n))
    (hn : (freeCoins entries).length ≤ n ∨
      amount + fee (count + n) ≤ inputSum + (((freeCoins entries).take n).map Coin.value).sum) :
    ∃ selected total, selectCoins c fee amount myKeys entries count inputSum = .ok (selected, total) := by
  induction entries generalizing count inputSum n with
  | nil => exact ⟨_, _, rfl⟩
  | cons entry entries ih =>
    obtain ⟨pubkey, marked, utxo⟩ := entry
    cases marked with
    | true => exact ih h hn
    | false =>
      have hneeded : checkedAdd amount (fee count) = some (amount + fee count) :=
        checkedAdd_eq_some.2 ⟨rfl, h.needed 0 (Nat.zero_le _)⟩
      rw [selectCoins, if_neg Bool.false_ne_true, hneeded, Outcome.expect_eq_ok.2 rfl, Outcome.ok_bind]
      split_ifs with henough
      · exact ⟨_, _, rfl⟩
      rw [freeCoins_cons_free] at h hn
      cases n with
      | zero =>
        -- No coin is needed, and yet what there is was not enough.
        rcases hn with hn | hn
        · cases hn
        · exact absurd hn henough
      | succ n =>
        rw [List.take_succ_cons] at h hn
        have hsum : checkedAdd inputSum utxo.value = some (inputSum + utxo.value) :=
          checkedAdd_eq_some.2 ⟨rfl, (Nat.le_add_right _ _).trans_lt h.tail.sum⟩
        obtain ⟨key, hkey⟩ : ∃ key, myKeys.find? (fun key => key.publicKey = pubkey) = some key := by
          obtain ⟨key, hmem, he⟩ := h.known (pubkey, utxo) List.mem_cons_self
          exact Option.isSome_iff_exists.1 (List.find?_isSome.2 ⟨key, hmem, decide_eq_true he⟩)
        obtain ⟨selected, total, hrest⟩ : ∃ selected total,
            selectCoins c fee amount myKeys entries (count + 1) (inputSum + utxo.value) =
              .ok (selected, total) := by
          refine ih h.tail (hn.imp Nat.le_of_succ_le_succ fun hn => ?_)
          rw [List.map_cons, List.sum_cons] at hn
          rw [add_assoc count 1 n, add_comm 1 n, add_assoc]
          exact hn
        rw [hkey, Outcome.expect_eq_ok.2 rfl, Outcome.ok_bind, hsum, Outcome.expect_eq_ok.2 rfl,
          Outcome.ok_bind, hrest]
        exact ⟨_, _, rfl⟩

/-! ## When the funds do not suffice -/

/-- Coins cover the amount and the fee for as many inputs. -/
def Covers (fee : ℕ → ℕ) (amount : ℕ) (coins : List Coin) : Prop :=
  amount + fee coins.length ≤ (coins.map Coin.value).sum

variable (fee amount) in
/-- What is taken covers the amount iff some coins do, from the first one on. -/
theorem covers_taken_iff (coins : List Coin) :
    Covers fee amount (taken fee amount 0 0 coins) ↔ ∃ n, Covers fee amount (coins.take n) := by
  have henough : amount + fee (0 + (taken fee amount 0 0 coins).length) ≤
      0 + ((taken fee amount 0 0 coins).map Coin.value).sum ↔ _ :=
    collect_enough_iff Coin.value fun n => amount + fee n
  simp only [Nat.zero_add] at henough
  refine henough.trans ⟨fun ⟨n, hn, hcovers⟩ => ⟨n, ?_⟩, fun ⟨n, hcovers⟩ =>
    ⟨min n coins.length, min_le_right _ _, ?_⟩⟩
  · rwa [Covers, List.length_take, min_eq_left hn]
  · rw [Covers, List.length_take, List.take_eq_take_min] at hcovers
    exact hcovers

theorem taken_eq_self {coins : List Coin} (h : ¬ Covers fee amount (taken fee amount 0 0 coins)) :
    taken fee amount 0 0 coins = coins := by
  refine collect_eq_self (?_ : 0 + ((taken fee amount 0 0 coins).map Coin.value).sum <
    amount + fee (0 + (taken fee amount 0 0 coins).length))
  rw [zero_add, zero_add]
  exact not_le.1 h

theorem taken_eq_take (coins : List Coin) :
    taken fee amount 0 0 coins = coins.take (taken fee amount 0 0 coins).length :=
  List.prefix_iff_eq_take.1 collect_isPrefix

/-- Fewer than are taken do not cover the amount. -/
theorem not_covers_take {coins : List Coin} {n : ℕ} (hn : n < (taken fee amount 0 0 coins).length) :
    ¬ Covers fee amount (coins.take n) := by
  have hless : 0 + ((coins.take n).map Coin.value).sum < amount + fee (0 + n) := lt_of_lt_collect hn
  rw [zero_add, zero_add] at hless
  rw [Covers, List.length_take_of_le (hn.le.trans collect_isPrefix.length_le)]
  exact hless.not_ge

theorem known_of_records {selected : List (Hash × PrivateKey)} {coins : List Coin}
    (h : List.Forall₂ (Records c myKeys) selected coins) :
    ∀ coin ∈ coins, ∃ key ∈ myKeys, key.publicKey = coin.1 := by
  induction h with
  | nil => simp
  | cons hrecords _ ih =>
    obtain ⟨-, key, hkey, he, -⟩ := hrecords
    exact List.forall_mem_cons.2 ⟨⟨key, hkey, he⟩, ih⟩

theorem walletOutputs_ne_err {change : ℕ} {e : WalletError} :
    walletOutputs amount ids myKeys recipient change ≠ .err e := by
  rw [walletOutputs]
  split_ifs
  · exact Outcome.expect_bind_ne_err fun key h => by cases h
  · exact fun h => by cases h

/-- With a selection, the funds do not suffice where its sum is below what is needed. -/
theorem createTransaction_of_selected {selected : List (Hash × PrivateKey)} {total : ℕ}
    (h : selectCoins c fee amount store.myKeys store.entries 0 0 = .ok (selected, total)) :
    (∃ e, createTransaction c g fee amount ids store recipient = .err e) ↔
      amount + fee selected.length < u64Bound ∧ total < amount + fee selected.length := by
  rw [createTransaction, h, Outcome.ok_bind]
  dsimp only
  by_cases hlt : amount + fee selected.length < u64Bound
  · rw [checkedAdd_eq_some.2 ⟨rfl, hlt⟩, Outcome.expect_eq_ok.2 rfl, Outcome.ok_bind, and_iff_right hlt]
    by_cases henough : amount + fee selected.length ≤ total
    · rw [Outcome.ensure_of henough, Outcome.ok_bind]
      refine iff_of_false ?_ henough.not_gt
      rintro ⟨e, he⟩
      exact Outcome.bind_ne_err walletOutputs_ne_err (fun _ h => by cases h) he
    · refine iff_of_true ⟨.insufficientFunds, ?_⟩ (not_le.1 henough)
      rw [Outcome.ensure, if_neg henough]
      rfl
  · have hnone : checkedAdd amount (fee selected.length) = none := checked_eq_none.2 (not_lt.1 hlt)
    refine iff_of_false ?_ fun h => hlt h.1
    rintro ⟨e, he⟩
    rw [hnone] at he
    cases he

/-- The funds are said not to suffice where no coins do, from the first one on, and the walk comes to
    an end. -/
theorem exists_err_iff : (∃ e, createTransaction c g fee amount ids store recipient = .err e) ↔
    (∀ n, ¬ Covers fee amount (store.free.take n)) ∧ Walked fee amount store.myKeys 0 0 store.free := by
  have hcovers := covers_taken_iff fee amount store.free
  constructor
  · rintro ⟨e, he⟩
    rcases hselected : selectCoins c fee amount store.myKeys store.entries 0 0 with ⟨selected, total⟩ | e' | _
    · obtain ⟨hlt, hless⟩ := (createTransaction_of_selected hselected).1 ⟨e, he⟩
      obtain ⟨htotal, hrecords⟩ := selectCoins_eq_ok hselected
      obtain ⟨hrange, hneeded⟩ := selectCoins_in_range (by decide) hselected
      have hlength : selected.length = (taken fee amount 0 0 store.free).length := hrecords.length_eq
      -- What is taken does not cover the amount, so it is all there is.
      have hnot : ¬ Covers fee amount (taken fee amount 0 0 store.free) := by
        rw [Covers, ← hlength]
        rw [zero_add] at htotal
        exact (htotal ▸ hless).not_ge
      refine ⟨fun n hn => hnot (hcovers.2 ⟨n, hn⟩), ?_⟩
      rw [UtxoStore.free] at hnot hlength
      rw [taken_eq_self hnot] at htotal hrecords hlength
      refine ⟨known_of_records hrecords, htotal ▸ hrange, fun n hn => ?_⟩
      rcases hn.eq_or_lt with rfl | hn
      · rw [zero_add, UtxoStore.free, ← hlength]
        exact hlt
      · exact hneeded n (hlength ▸ hn)
    · exact absurd hselected selectCoins_ne_err
    · rw [createTransaction, hselected] at he
      cases he
  · rintro ⟨hnone, hwalked⟩
    obtain ⟨selected, total, hselected⟩ : ∃ selected total,
        selectCoins c fee amount store.myKeys store.entries 0 0 = .ok (selected, total) := by
      refine Walked.selects ?_ (.inl le_rfl)
      rwa [List.take_length]
    obtain ⟨htotal, hrecords⟩ := selectCoins_eq_ok hselected
    have hnot : ¬ Covers fee amount (taken fee amount 0 0 store.free) := fun h =>
      (hcovers.1 h).elim hnone
    have hall := taken_eq_self hnot
    rw [hall] at hnot
    have htaken : taken fee amount 0 0 (freeCoins store.entries) = store.free := hall
    rw [htaken] at htotal hrecords
    have hlength : selected.length = store.free.length := hrecords.length_eq
    refine (createTransaction_of_selected hselected).2 ?_
    rw [hlength, htotal, zero_add]
    exact ⟨by simpa using hwalked.needed _ le_rfl, not_le.1 hnot⟩

/-! ## What is built -/

/-- A transaction pays from coins of the wallet: it spends them, signed with the keys they are stored
    for; it pays the amount first, and what it spends is what it pays and the fee. -/
structure PaysFrom (c : Crypto) (g : Signing) (fee : ℕ → ℕ) (amount : ℕ) (store : UtxoStore)
    (recipient : PublicKey) (tx : Transaction) (spent : List Coin) : Prop where
  unmarked : spent.Sublist store.free
  spends : tx.spends = spent.map fun coin => c.hashOutput coin.2
  signed : List.Forall₂ (fun coin input => ∃ key ∈ store.myKeys, key.publicKey = coin.1 ∧
    input = .signed c g (c.hashOutput coin.2) tx.outputs key.privateKey) spent tx.inputs
  pays : ∃ o, tx.outputs.head? = some o ∧ o.pubkey = recipient ∧ o.value = amount
  balance : (spent.map Coin.value).sum = tx.outputSum + fee tx.inputs.length

/-- What is signed with the key of an output is good for it. -/
theorem PaysFrom.verifies {tx : Transaction} {spent : List Coin}
    (h : PaysFrom c g fee amount store recipient tx spent) (hg : g.Sound c)
    (hkeys : ∀ key ∈ store.myKeys, g.publicKey key.privateKey = key.publicKey)
    (howned : ∀ coin ∈ store.free, coin.2.pubkey = coin.1) : List.Forall₂ (fun coin input =>
      input.prevTransactionOutputHash = c.hashOutput coin.2 ∧ input.verifies c tx.outputs coin.2.pubkey = true)
      spent tx.inputs := by
  have hspent : ∀ coin ∈ spent, coin.2.pubkey = coin.1 :=
    fun coin hcoin => howned coin (h.unmarked.subset hcoin)
  refine ((List.forall₂_and_left _ _).2 ⟨hspent, h.signed⟩).imp fun coin input hsigned => ?_
  obtain ⟨hpubkey, key, hkey, he, rfl⟩ := hsigned
  refine ⟨rfl, ?_⟩
  rw [hpubkey, ← he, ← hkeys key hkey]
  exact hg _ _

theorem hashes_of_records {selected : List (Hash × PrivateKey)} {coins : List Coin}
    (h : List.Forall₂ (Records c myKeys) selected coins) :
    selected.map Prod.fst = coins.map fun coin => c.hashOutput coin.2 := by
  induction h with
  | nil => rfl
  | cons hrecords _ ih => rw [List.map_cons, List.map_cons, hrecords.1, ih]

/-- What is built pays from what is taken. -/
theorem createTransaction_eq_ok {tx : Transaction}
    (h : createTransaction c g fee amount ids store recipient = .ok tx) :
    PaysFrom c g fee amount store recipient tx (taken fee amount 0 0 store.free) := by
  obtain ⟨⟨selected, total⟩, hselected, h⟩ := Outcome.bind_eq_ok.1 h
  obtain ⟨totalAmount, hadd, h⟩ := Outcome.bind_eq_ok.1 h
  obtain ⟨_, hle, h⟩ := Outcome.bind_eq_ok.1 h
  obtain ⟨outputs, houtputs, h⟩ := Outcome.bind_eq_ok.1 h
  obtain rfl := Outcome.ok.inj h
  obtain ⟨rfl, -⟩ := checkedAdd_eq_some.1 (Outcome.expect_eq_ok.1 hadd)
  have hle := Outcome.ensure_eq_ok.1 hle
  obtain ⟨htotal, hrecords⟩ := selectCoins_eq_ok hselected
  rw [zero_add] at htotal
  -- With the change or without it, the payment is the first output, and nothing is lost.
  have hpaid : (∃ o, outputs.head? = some o ∧ o.pubkey = recipient ∧ o.value = amount) ∧
      (outputs.map TransactionOutput.value).sum + fee selected.length = total := by
    rw [walletOutputs] at houtputs
    split_ifs at houtputs with hchange
    · obtain ⟨key, -, houtputs⟩ := Outcome.bind_eq_ok.1 houtputs
      obtain rfl := Outcome.ok.inj houtputs
      refine ⟨⟨_, rfl, rfl, rfl⟩, ?_⟩
      simp only [List.map_cons, List.map_nil, List.sum_cons, List.sum_nil]
      omega
    · obtain rfl := Outcome.ok.inj houtputs
      refine ⟨⟨_, rfl, rfl, rfl⟩, ?_⟩
      simp only [List.map_cons, List.map_nil, List.sum_cons, List.sum_nil]
      omega
  refine ⟨collect_isPrefix.sublist, ?_, ?_, hpaid.1, ?_⟩
  · rw [Transaction.spends, List.map_map]
    exact hashes_of_records hrecords
  · refine List.forall₂_map_right_iff.2 (List.Forall₂.flip (hrecords.imp fun p coin hp => ?_))
    obtain ⟨hhash, key, hkey, he, hprivate⟩ := hp
    exact ⟨key, hkey, he, by rw [hhash, hprivate]⟩
  · rw [List.length_map]
    exact htotal.symm.trans hpaid.2.symm

/-! ## Where the walk ends -/

/-- The walk ends after `n` unmarked outputs: they cover the amount, fewer from the first one on do
    not, and nothing panics on the way. -/
structure EndsAfter (fee : ℕ → ℕ) (amount : ℕ) (store : UtxoStore) (n : ℕ) : Prop where
  covers : Covers fee amount (store.free.take n)
  first : ∀ m < n, ¬ Covers fee amount (store.free.take m)
  walked : Walked fee amount store.myKeys 0 0 (store.free.take n)

/-- Then what is taken are these outputs. -/
theorem EndsAfter.taken_eq {n : ℕ} (h : EndsAfter fee amount store n) :
    taken fee amount 0 0 store.free = store.free.take n := by
  have hcovers := (covers_taken_iff fee amount store.free).2 ⟨n, h.covers⟩
  rw [taken_eq_take] at hcovers ⊢
  rcases lt_trichotomy (taken fee amount 0 0 store.free).length n with hlt | heq | hlt
  · exact absurd hcovers (h.first _ hlt)
  · rw [heq]
  · exact absurd h.covers (not_covers_take hlt)

/-- And a transaction is built. -/
theorem EndsAfter.exists_ok {n : ℕ} (h : EndsAfter fee amount store n) :
    ∃ tx, createTransaction c g fee amount ids store recipient = .ok tx := by
  obtain ⟨selected, total, hselected⟩ : ∃ selected total,
      selectCoins c fee amount store.myKeys store.entries 0 0 = .ok (selected, total) := by
    refine Walked.selects h.walked ((le_or_gt store.free.length n).imp_right fun hlt => ?_)
    have hcovers := h.covers
    rw [Covers, List.length_take_of_le hlt.le] at hcovers
    rw [zero_add, zero_add]
    exact hcovers
  obtain ⟨htotal, hrecords⟩ := selectCoins_eq_ok hselected
  have htaken : taken fee amount 0 0 (freeCoins store.entries) = store.free.take n := h.taken_eq
  rw [htaken] at htotal hrecords
  have hlength : selected.length = (store.free.take n).length := hrecords.length_eq
  have hneeded : amount + fee selected.length < u64Bound := by
    rw [hlength, ← zero_add (store.free.take n).length]
    exact h.walked.needed _ le_rfl
  have henough : amount + fee selected.length ≤ total := by
    rw [hlength, htotal, zero_add]
    exact h.covers
  have houtputs : ∃ outputs, walletOutputs amount ids store.myKeys recipient
      (total - (amount + fee selected.length)) = .ok outputs := by
    rw [walletOutputs]
    split_ifs with hchange
    · -- There is change only of an output, and its key is loaded.
      cases hkeys : store.myKeys with
      | cons key keys => exact ⟨_, rfl⟩
      | nil =>
        have hnone : store.free.take n = [] := by
          refine List.eq_nil_iff_forall_not_mem.2 fun coin hcoin => ?_
          obtain ⟨key, hkey, -⟩ := h.walked.known coin hcoin
          rw [hkeys] at hkey
          cases hkey
        rw [hnone] at htotal
        rw [htotal] at hchange
        exact absurd hchange (by simp)
    · exact ⟨_, rfl⟩
  obtain ⟨outputs, houtputs⟩ := houtputs
  rw [createTransaction, hselected, Outcome.ok_bind]
  dsimp only
  rw [checkedAdd_eq_some.2 ⟨rfl, hneeded⟩, Outcome.expect_eq_ok.2 rfl, Outcome.ok_bind,
    Outcome.ensure_of henough, Outcome.ok_bind, houtputs]
  exact ⟨_, rfl⟩

/-- Where a transaction is built, the walk ended so. -/
theorem exists_endsAfter {tx : Transaction}
    (h : createTransaction c g fee amount ids store recipient = .ok tx) :
    ∃ n, EndsAfter fee amount store n := by
  obtain ⟨⟨selected, total⟩, hselected, h⟩ := Outcome.bind_eq_ok.1 h
  obtain ⟨totalAmount, hadd, h⟩ := Outcome.bind_eq_ok.1 h
  obtain ⟨_, hle, -⟩ := Outcome.bind_eq_ok.1 h
  obtain ⟨rfl, hlt⟩ := checkedAdd_eq_some.1 (Outcome.expect_eq_ok.1 hadd)
  have hle := Outcome.ensure_eq_ok.1 hle
  obtain ⟨htotal, hrecords⟩ := selectCoins_eq_ok hselected
  obtain ⟨hrange, hneeded⟩ := selectCoins_in_range (by decide) hselected
  have hlength : selected.length = (taken fee amount 0 0 store.free).length := hrecords.length_eq
  refine ⟨(taken fee amount 0 0 store.free).length, ?_, fun m hm => not_covers_take hm, ?_⟩
  · rw [← taken_eq_take, Covers, ← hlength]
    rw [zero_add] at htotal
    exact htotal ▸ hle
  · rw [← taken_eq_take]
    refine ⟨known_of_records hrecords, htotal ▸ hrange, fun n hn => ?_⟩
    rcases hn.eq_or_lt with rfl | hn
    · rw [zero_add, ← hlength]
      exact hlt
    · exact hneeded n (hlength ▸ hn)

/-! ## When it is complete -/

/-- The wallet selects well: it says that the funds do not suffice only if no set of unmarked outputs
    would do, and what it builds pays from its outputs, each spent once. -/
def SelectsWell (c : Crypto) (g : Signing) (fee : ℕ → ℕ) (amount : ℕ) (ids : ℕ → Uuid) (store : UtxoStore)
    (recipient : PublicKey) : Prop :=
  (∀ e, createTransaction c g fee amount ids store recipient = .err e →
    ∀ coins, coins.Subperm store.free → ¬ Covers fee amount coins) ∧
  ∀ tx, createTransaction c g fee amount ids store recipient = .ok tx →
    (∃ spent, PaysFrom c g fee amount store recipient tx spent) ∧ tx.spends.Nodup

theorem Covers.append {coins rest : List Coin} (h : Covers fee amount coins)
    (hrest : ∀ coin ∈ rest, ∀ n, fee (n + 1) ≤ fee n + coin.value) : Covers fee amount (coins ++ rest) := by
  induction rest generalizing coins with
  | nil => rwa [List.append_nil]
  | cons coin rest ih =>
    obtain ⟨hcoin, hrest⟩ := List.forall_mem_cons.1 hrest
    rw [List.append_cons]
    refine ih ?_ hrest
    have hmore := hcoin coins.length
    rw [Covers] at h ⊢
    rw [List.map_append, List.sum_append, List.map_singleton, List.sum_singleton, List.length_append,
      List.length_singleton]
    omega

theorem Covers.perm {coins coins' : List Coin} (h : Covers fee amount coins) (hperm : coins.Perm coins') :
    Covers fee amount coins' := by
  rwa [Covers, ← hperm.length_eq, ← (hperm.map Coin.value).sum_eq]

/-- If no output is worth less than what one more input adds to the fee, all of them cover the amount
    if some do. -/
theorem Covers.all {coins all : List Coin} (h : Covers fee amount coins) (hsub : coins.Subperm all)
    (hworth : ∀ coin ∈ all, ∀ n, fee (n + 1) ≤ fee n + coin.value) : Covers fee amount all := by
  obtain ⟨coins', hperm, hsublist⟩ := hsub
  obtain ⟨rest, hrest⟩ := hsublist.exists_perm_append
  refine ((h.perm hperm.symm).append fun coin hcoin => hworth coin ?_).perm hrest.symm
  exact hrest.mem_iff.2 (List.mem_append_right _ hcoin)

/-- The funds are said not to suffice only if they do not, exactly where the unmarked outputs cover
    the amount and the fee from the first one on, as far as some number of them, or no set of them
    does, or the walk panics. -/
theorem complete_iff : (∀ e, createTransaction c g fee amount ids store recipient = .err e →
      ∀ coins, coins.Subperm store.free → ¬ Covers fee amount coins) ↔
    (∃ n, Covers fee amount (store.free.take n)) ∨
    (∀ coins, coins.Subperm store.free → ¬ Covers fee amount coins) ∨
    ¬ Walked fee amount store.myKeys 0 0 store.free := by
  have herr : (∃ e, createTransaction c g fee amount ids store recipient = .err e) ↔ _ := exists_err_iff
  constructor
  · intro hcomplete
    -- The walk comes to an end without covering the amount, though some outputs would.
    by_contra hnot
    obtain ⟨hnone, hnot⟩ := not_or.1 hnot
    obtain ⟨hsome, hwalked⟩ := not_or.1 hnot
    obtain ⟨e, he⟩ := herr.2 ⟨not_exists.1 hnone, not_not.1 hwalked⟩
    exact hsome (hcomplete e he)
  · intro h e he
    obtain ⟨hnone, hwalked⟩ := herr.1 ⟨e, he⟩
    rcases h with ⟨n, hn⟩ | hall | hnot
    · exact absurd hn (hnone n)
    · exact hall
    · exact absurd hwalked hnot

/-- What is built spends each output once exactly where the outputs that the walk ends after are
    distinct. -/
theorem distinct_iff : (∀ tx, createTransaction c g fee amount ids store recipient = .ok tx → tx.spends.Nodup) ↔
    ∀ n, EndsAfter fee amount store n →
      ((store.free.take n).map fun coin => c.hashOutput coin.2).Nodup := by
  constructor
  · intro h n hn
    obtain ⟨tx, htx⟩ : ∃ tx, createTransaction c g fee amount ids store recipient = .ok tx := hn.exists_ok
    rw [← hn.taken_eq, ← (createTransaction_eq_ok htx).spends]
    exact h tx htx
  · intro h tx htx
    obtain ⟨n, hn⟩ := exists_endsAfter htx
    rw [(createTransaction_eq_ok htx).spends, hn.taken_eq]
    exact h n hn

/-- The wallet selects well exactly where the unmarked outputs cover the amount and the fee from the
    first one on, as far as some number of them, or no set of them does, or the walk panics: for an
    output that is stored for an unknown key, or a sum out of range; and the outputs that the walk
    ends after, if it does, are distinct.
    So it does where what is stored is distinct, and no unmarked output is worth less than what one
    more input adds to the fee. -/
theorem selection_complete_iff (c : Crypto) (g : Signing) (fee : ℕ → ℕ) (amount : ℕ) (ids : ℕ → Uuid)
    (store : UtxoStore) (recipient : PublicKey) :
    (SelectsWell c g fee amount ids store recipient ↔
      ((∃ n, Covers fee amount (store.free.take n)) ∨
        (∀ coins, coins.Subperm store.free → ¬ Covers fee amount coins) ∨
        ¬ Walked fee amount store.myKeys 0 0 store.free) ∧
      ∀ n, EndsAfter fee amount store n →
        ((store.free.take n).map fun coin => c.hashOutput coin.2).Nodup) ∧
    ((store.free.map fun coin => c.hashOutput coin.2).Nodup →
      (∀ coin ∈ store.free, ∀ n, fee (n + 1) ≤ fee n + coin.value) →
      SelectsWell c g fee amount ids store recipient) := by
  have hiff : SelectsWell c g fee amount ids store recipient ↔ _ ∧ _ :=
    and_congr complete_iff ((forall₂_congr fun tx htx =>
      and_iff_right ⟨_, createTransaction_eq_ok htx⟩).trans distinct_iff)
  refine ⟨hiff, fun hdistinct hworth => hiff.2 ⟨?_, fun n _ => ?_⟩⟩
  · -- If some outputs cover the amount, all of them do.
    by_cases hsome : ∃ coins, coins.Subperm store.free ∧ Covers fee amount coins
    · obtain ⟨coins, hsub, hcovers⟩ := hsome
      refine .inl ⟨store.free.length, ?_⟩
      rw [List.take_length]
      exact hcovers.all hsub hworth
    · exact .inr (.inl fun coins hsub hcovers => hsome ⟨coins, hsub, hcovers⟩)
  · exact hdistinct.sublist ((List.take_sublist n _).map _)

namespace DustSample

/-- By the byte, at one satoshi each. -/
def byteFee (n : ℕ) : ℕ := estimatedTransactionSize FeeSample.crypto FeeSample.signing Sample.encoding 7 0 n 2

theorem byteFee_eq : byteFee = fun n => 420 + n * 202 := by
  funext n
  have hhash : (Encoding.u256 (FeeSample.crypto.hashBytes sampleText)).length = 37 := by decide +kernel
  rw [byteFee, estimate_eq FeeSample.fixed, hhash]
  omega

/-- An output of one satoshi, then one that is worth a payment and its fee. -/
def dusty : UtxoStore where
  myKeys := [{ publicKey := 7, privateKey := 7 }]
  utxos := [(7, [(false, ⟨1, 0, 7⟩), (false, ⟨1236, 1, 7⟩)])]
  nodup := List.nodup_singleton _

end DustSample

open DustSample in
/-- The second output covers 600 and the fee. But the first one is taken before it, and costs more
    than it is worth. -/
theorem dust_first : Monotone byteFee ∧ Covers byteFee 600 [(7, ⟨1236, 1, 7⟩)] ∧
    createTransaction FeeSample.crypto FeeSample.signing byteFee 600 id dusty 8 = .err .insufficientFunds ∧
    ¬ SelectsWell FeeSample.crypto FeeSample.signing byteFee 600 id dusty 8 := by
  have hcovers : Covers byteFee 600 [(7, ⟨1236, 1, 7⟩)] := by
    rw [byteFee_eq, Covers]
    decide
  have herr : createTransaction FeeSample.crypto FeeSample.signing byteFee 600 id dusty 8 =
      .err .insufficientFunds := by
    rw [byteFee_eq]
    decide +kernel
  refine ⟨?_, hcovers, herr, fun hwell => hwell.1 _ herr _ ?_ hcovers⟩
  · rw [byteFee_eq]
    exact fun n m h => Nat.add_le_add_left (Nat.mul_le_mul_right 202 h) 420
  · exact (List.sublist_cons_self _ _).subperm

end Itx
