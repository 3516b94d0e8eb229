import Itx.Lib.Cbor
import Itx.Chain.Blockchain
import Itx.Chain.Spends

/-!
# Messages on the wire

Nodes, miners and wallets exchange messages (`lib/src/network.rs`), each in CBOR after its
length in eight bytes. Whoever reads one refuses a length above `maxMessageSize` before it
reads anything else (`receiveAsync`), so a message reaches its receiver exactly when its
encoding is no longer than that (`receives_iff`).

The encoding is that of the types of the chain, field by field; how a public key, a
signature and a time are encoded is other crates' (`Encoding`).
-/

namespace Itx

open Cbor

/-- `MAX_MESSAGE_SIZE`. -/
def maxMessageSize : ℕ := 10 * 1024 * 1024

/-- The encodings of other crates: those of public keys and signatures, and the text of a
    time. -/
structure Encoding where
  publicKey : PublicKey → List UInt8
  signature : Signature → List UInt8
  timestamp : DateTime → List UInt8

/-- The messages that carry blocks or unspent outputs. -/
inductive Message
  | utxos (outputs : List (TransactionOutput × Bool))
  | submitTemplate (block : Block)
  | blocks (blocks : List Block)
  | newBlock (block : Block)

namespace Encoding

variable (e : Encoding)

/-- A `U256` is its four limbs, the lowest first. -/
def u256 (x : U256) : List UInt8 := array ((List.range 4).map fun i => uint (x / 2 ^ (64 * i) % 2 ^ 64))

def output (o : TransactionOutput) : List UInt8 :=
  struct [("value", uint o.value), ("unique_id", bytes (toBeBytes 16 o.uniqueId)),
    ("pubkey", e.publicKey o.pubkey)]

def input (i : TransactionInput) : List UInt8 :=
  struct [("prev_transaction_output_hash", u256 i.prevTransactionOutputHash),
    ("signature", e.signature i.signature)]

def transaction (tx : Transaction) : List UInt8 :=
  struct [("inputs", array (tx.inputs.map e.input)), ("outputs", array (tx.outputs.map e.output))]

def header (h : BlockHeader) : List UInt8 :=
  struct [("timestamp", text (e.timestamp h.timestamp)), ("nonce", uint h.nonce),
    ("prev_block_hash", u256 h.prevBlockHash), ("merkle_root", u256 h.merkleRoot), ("target", u256 h.target)]

def block (b : Block) : List UInt8 :=
  struct [("header", e.header b.header), ("transactions", array (b.transactions.map e.transaction))]

/-- `Block::serialized_size`. -/
def serializedSize (b : Block) : ℕ := (e.block b).length

/-- `Message::encode`. -/
def encode : Message → List UInt8
  | .utxos outputs => variant "UTXOs" (array (outputs.map fun p => array [e.output p.1, bool p.2]))
  | .submitTemplate b => variant "SubmitTemplate" (e.block b)
  | .blocks bs => variant "Blocks" (array (bs.map e.block))
  | .newBlock b => variant "NewBlock" (e.block b)

/-- `Message::send_async`: what is written to the stream. -/
def sendAsync (m : Message) : List UInt8 := toBeBytes 8 (e.encode m).length ++ e.encode m

end Encoding

/-! ## Frames -/

/-- Why a message is not read. -/
inductive ReceiveError
  | unexpectedEof
  | oversizedMessage
  deriving DecidableEq, Repr

/-- `u64::from_be_bytes`. -/
def fromBeBytes (bs : List UInt8) : ℕ := bs.foldl (fun n b => n * 256 + b.toNat) 0

/-- `read_exact`: what is read, and what is left. -/
def readExact (n : ℕ) (stream : List UInt8) : Outcome ReceiveError (List UInt8 × List UInt8) :=
  if n ≤ stream.length then .ok (stream.take n, stream.drop n) else .err .unexpectedEof

/-- `Message::receive_async`, up to the decoding: the bytes to decode, and what is left. -/
def receiveAsync (stream : List UInt8) : Outcome ReceiveError (List UInt8 × List UInt8) := do
  let (lenBytes, stream) ← readExact 8 stream
  let len := fromBeBytes lenBytes
  Outcome.ensure (len ≤ maxMessageSize) .oversizedMessage
  readExact len stream

/-- A message is received as it was sent, whatever follows it on the stream. -/
def Encoding.Receives (e : Encoding) (m : Message) : Prop :=
  ∀ rest, receiveAsync (e.sendAsync m ++ rest) = .ok (e.encode m, rest)

/-- The last byte is the lowest. -/
theorem fromBeBytes_append (bs : List UInt8) (b : UInt8) :
    fromBeBytes (bs ++ [b]) = fromBeBytes bs * 256 + b.toNat := by
  simp [fromBeBytes]

/-- One byte more is written in front of the last. -/
theorem toBeBytes_succ (n x : ℕ) : toBeBytes (n + 1) x = toBeBytes n (x / 256) ++ [UInt8.ofNat x] := by
  rw [toBeBytes, toBeBytes, toLeBytes, toLeBytes, List.range_succ_eq_map, List.map_cons, List.reverse_cons,
    List.map_map, pow_zero, Nat.div_one]
  -- Digit by digit: the next digit of `x` is the same digit of `x / 256`.
  refine congrArg (fun l => List.reverse l ++ _) (List.map_congr_left fun i _ => ?_)
  rw [Function.comp_apply, Nat.div_div_eq_div_mul, ← pow_succ']

/-- What is written in `n` bytes is read back, up to `256 ^ n`. -/
theorem fromBeBytes_toBeBytes (n x : ℕ) : fromBeBytes (toBeBytes n x) = x % 256 ^ n := by
  induction n generalizing x with
  | zero => rw [pow_zero, Nat.mod_one]; rfl
  | succ n ih =>
    rw [toBeBytes_succ, fromBeBytes_append, ih, pow_succ', Nat.mod_mul, UInt8.toNat_ofNat']
    omega

/-- What is in front is read, as much as was asked for. -/
theorem readExact_append {n : ℕ} {front rest : List UInt8} (h : front.length = n) :
    readExact n (front ++ rest) = .ok (front, rest) := by
  subst h
  rw [readExact, if_pos (by simp), List.take_left', List.drop_left']
  · rfl
  · rfl

/-- A message is received when it is not too long, and only then. -/
theorem receives_iff {e : Encoding} {m : Message} :
    e.Receives m ↔ (e.encode m).length ≤ maxMessageSize := by
  have hread : ∀ rest, receiveAsync (e.sendAsync m ++ rest) =
      (Outcome.ensure ((e.encode m).length % 256 ^ 8 ≤ maxMessageSize) .oversizedMessage).bind fun _ =>
        readExact ((e.encode m).length % 256 ^ 8) (e.encode m ++ rest) := by
    intro rest
    rw [receiveAsync, Encoding.sendAsync, List.append_assoc, readExact_append (toBeBytes_length 8 _),
      Outcome.ok_bind]
    dsimp only
    rw [fromBeBytes_toBeBytes]
    rfl
  constructor
  · -- If it is longer, the length that is read is too large, or has lost its upper part.
    intro h
    by_contra hlong
    have h := hread [] ▸ h []
    obtain ⟨_, hle, h⟩ := Outcome.bind_eq_ok.1 h
    have hle := Outcome.ensure_eq_ok.1 hle
    -- What is read then is shorter than the message.
    rw [readExact] at h
    split_ifs at h with hfits
    obtain ⟨htake, -⟩ := Prod.mk.inj (Outcome.ok.inj h)
    have hlength := congrArg List.length htake
    rw [List.length_take] at hlength
    omega
  · intro h rest
    have hlt : (e.encode m).length % 256 ^ 8 = (e.encode m).length :=
      Nat.mod_eq_of_lt (h.trans_lt (by decide))
    rw [hread, hlt, Outcome.ensure_of h]
    exact readExact_append rfl

/-! ## Lengths -/

namespace Encoding

variable (e : Encoding)

/-- Keys and times are encoded in a few bytes. -/
structure Short : Prop where
  publicKey : ∀ key, (e.publicKey key).length < 2 ^ 8
  timestamp : ∀ time, (e.timestamp time).length < 2 ^ 8

/-- Four limbs, each of at most nine bytes, and the head of their array. -/
theorem length_u256_le (x : U256) : (u256 x).length ≤ 37 := by
  have hlimbs : ∀ n ∈ ((List.range 4).map fun i => uint (x / 2 ^ (64 * i) % 2 ^ 64)).map List.length,
      n ≤ 9 := by
    intro n hn
    rw [List.map_map, List.mem_map] at hn
    obtain ⟨i, -, rfl⟩ := hn
    exact (length_uint _).trans_le (headSize_le _)
  -- The limbs take at most `4 * 9` bytes together.
  have hsum := List.sum_le_card_nsmul _ 9 hlimbs
  rw [u256, length_array]
  simp [headSize] at hsum ⊢
  omega

/-- The key and the value are what the size of an output depends on. -/
theorem length_output (o : TransactionOutput) :
    (e.output o).length = 41 + headSize o.value + (e.publicKey o.pubkey).length := by
  rw [output, length_struct (n := 23) rfl]
  simp [toBeBytes_length, headSize_of_lt]
  omega

/-- A time and three hashes: a header is short. -/
theorem length_header_le {e : Encoding} (h : e.Short) (header : BlockHeader) :
    (e.header header).length ≤ 500 := by
  have htime := h.timestamp header.timestamp
  have hprev := length_u256_le header.prevBlockHash
  have hroot := length_u256_le header.merkleRoot
  have htarget := length_u256_le header.target
  have hnonce := headSize_le header.nonce
  have hhead := headSize_le (e.timestamp header.timestamp).length
  rw [Encoding.header, length_struct (n := 51) rfl]
  simp [headSize_of_lt]
  omega

/-- The name of the variant and the head of the array come on top of the blocks. -/
theorem length_encode_blocks (bs : List Block) :
    (e.encode (.blocks bs)).length = 8 + headSize bs.length + (bs.map e.serializedSize).sum := by
  rw [encode, length_variant (n := 7) rfl, length_array, List.length_map, List.map_map, ← add_assoc]
  rfl

/-- Ten bytes name the variant. -/
theorem length_encode_newBlock (b : Block) : (e.encode (.newBlock b)).length = 10 + e.serializedSize b :=
  length_variant (n := 9) rfl _

/-- Sixteen bytes name the variant. -/
theorem length_encode_submitTemplate (b : Block) :
    (e.encode (.submitTemplate b)).length = 16 + e.serializedSize b :=
  length_variant (n := 15) rfl _

/-- An output takes two bytes more than in a block: the head of its pair and its mark. -/
theorem length_encode_utxos (outputs : List (TransactionOutput × Bool)) :
    (e.encode (.utxos outputs)).length = 7 + headSize outputs.length +
      (outputs.map fun p => 43 + headSize p.1.value + (e.publicKey p.1.pubkey).length).sum := by
  have hitem : ∀ p : TransactionOutput × Bool, (array [e.output p.1, bool p.2]).length =
      43 + headSize p.1.value + (e.publicKey p.1.pubkey).length := by
    intro p
    simp [length_array, length_output, headSize_of_lt]
    omega
  rw [encode, length_variant (n := 6) rfl, length_array, List.length_map, List.map_map, ← add_assoc]
  simp only [Function.comp_def, hitem]

end Encoding

/-! Keys and signatures of the size they have: the bytes of a key in DER, and those of a
signature, one by one as an array of numbers. A byte of 24 or more takes two. -/

namespace Sample

/-- What the DER of a key has before its point. -/
def pointHead : List UInt8 :=
  [0x30, 0x56, 0x30, 0x10, 0x06, 0x07, 0x2a, 0x86, 0x48, 0xce, 0x3d, 0x02, 0x01, 0x06, 0x05, 0x2b,
    0x81, 0x04, 0x00, 0x0a, 0x03, 0x42, 0x00, 0x04]

/-- Two numbers of 32 bytes, of which six bytes are small: about as many as there are at random. -/
def scalars (n : ℕ) : List UInt8 :=
  .replicate 58 0xb7 ++ (List.range 6).map fun i => UInt8.ofNat (n / 24 ^ i % 24)

/-- The encoding of these keys and signatures, and of the times of the first second. -/
def encoding : Encoding where
  publicKey key := numbers (pointHead ++ scalars key)
  signature signature := numbers (scalars signature)
  timestamp time :=
    if time = 0 then "1970-01-01T00:00:00Z".toUTF8.data.toList
    else "1970-01-01T00:00:00.".toUTF8.data.toList ++
      ((List.range 9).reverse.map fun i => UInt8.ofNat (48 + time.toNat / 10 ^ i % 10)) ++
      "Z".toUTF8.data.toList

/-- A signature is of `64` bytes. -/
theorem length_scalars (n : ℕ) : (scalars n).length = 64 := by simp [scalars]

/-- As numbers all of its bytes but six take two bytes. -/
theorem sum_scalars (n : ℕ) : ((scalars n).map fun x => headSize x.toNat).sum = 122 := by
  -- The six small bytes differ from key to key, and are all below `24`.
  have hsmall : ∀ i, headSize (UInt8.ofNat (n / 24 ^ i % 24)).toNat = 1 := fun i => by
    have hlt := Nat.mod_lt (n / 24 ^ i) (show 0 < 24 by decide)
    rw [UInt8.toNat_ofNat', Nat.mod_eq_of_lt (hlt.trans (by decide))]
    exact headSize_of_lt hlt
  rw [scalars, List.map_append, List.sum_append, List.map_replicate, List.map_map]
  simp only [Function.comp_def, hsmall]
  rfl

/-- A key takes 159 bytes. -/
theorem length_publicKey (key : PublicKey) : (encoding.publicKey key).length = 159 := by
  dsimp only [encoding]
  rw [length_numbers, List.length_append, length_scalars, List.map_append, List.sum_append, sum_scalars]
  rfl

/-- A signature is encoded in `124` bytes. -/
theorem length_signature (signature : Signature) : (encoding.signature signature).length = 124 := by
  dsimp only [encoding]
  rw [length_numbers, length_scalars, sum_scalars]
  rfl

/-- Keys and times are encoded in fewer than `256` bytes. -/
theorem encoding_short : encoding.Short where
  publicKey key := by
    rw [length_publicKey]
    decide
  timestamp time := by
    -- The text is of a fixed length, whatever the nanoseconds are.
    have hlengths : "1970-01-01T00:00:00.".utf8ByteSize = 20 ∧ "Z".utf8ByteSize = 1 := by decide
    dsimp only [encoding]
    split_ifs
    · decide
    · simp [hlengths]

end Sample

end Itx
