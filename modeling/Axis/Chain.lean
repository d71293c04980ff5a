import Axis.Block
import Axis.Utxo

/-!
# The chain

`src/chain.cpp`: the state of a node, its two databases, the acceptance of
transactions and blocks, and what the constructor loads.

A LevelDB database is a finite map enumerated in bytewise key order.  Every write
takes the status LevelDB answers as an argument; a function that writes more than
once takes the statuses as a list, and a write beyond its end succeeds.  A method
that throws leaves the state as the source leaves it at the `throw`, so it
returns that state together with the text of the exception.

## Main definitions

* `Chain` — the fields of the class.
* `Chain.addTx`, `Chain.addBlock` — the two mutators.
* `boot` — the constructor, up to its printing.
-/

namespace Axis

open Positional

/-! ### Databases -/

/-- A LevelDB database. -/
abbrev Db := FiniteMap Bytes Bytes

/-- What a LevelDB write answers.  A write that failed may have reached the
database all the same. -/
inductive WriteStatus
  | ok
  | error (what : String) (written : Bool)
  deriving DecidableEq

/-- The database after a write with the given status. -/
def WriteStatus.commit (status : WriteStatus) (new old : Db) : Db :=
  match status with
  | .ok => new
  | .error _ written => if written then new else old

@[simp] theorem WriteStatus.commit_ok (new old : Db) : WriteStatus.ok.commit new old = new := rfl

@[simp] theorem WriteStatus.commit_lost (what : String) (new old : Db) :
    (WriteStatus.error what false).commit new old = old := rfl

def hexDigit (d : ℕ) : UInt8 := if d < 10 then UInt8.ofNat (48 + d) else UInt8.ofNat (87 + d)

/-- The lower-case hexadecimal key of a pool transaction. -/
def hexKey (h : Hash) : Bytes :=
  h.data.flatMap fun b => [hexDigit (b.toNat / 16), hexDigit (b.toNat % 16)]

/-- The key of a block: its position in ten decimal digits. -/
def blockKey (height : UInt32) : Bytes := padDec 10 height.toNat

/-- The characters of a key, as they appear in a message. -/
def keyText (key : Bytes) : String := String.ofList (key.map fun b => Char.ofNat b.toNat)

/-- The lower-case hexadecimal text of an array. -/
def toHex {n : ℕ} (a : U8Array n) : String :=
  keyText (a.data.flatMap fun b => [hexDigit (b.toNat / 16), hexDigit (b.toNat % 16)])

/-! ### The state -/

/-- The state of a node. -/
@[ext] structure Chain extends UtxoSet where
  blocks : List Block := []
  height : UInt32 := 0
  difficulty : UInt8 := 3
  target : Hash := U8Array.fill 32 0
  pool : FiniteMap Hash Transaction := ∅
  poolSpent : FiniteMap OutPoint OutPoint := ∅
  blocksDb : Db
  poolDb : Db

namespace Chain

/-- The hash of the last block. -/
def tipHash (c : Chain) : Hash := (c.blocks.getLast?.map Block.hash).getD (U8Array.fill 32 0)

/-- The confirmed transactions, in the order of the chain. -/
def txs (c : Chain) : List Transaction := c.blocks.flatMap Block.transactions

def rebuildUtxo (c : Chain) : Chain := { c with toUtxoSet := c.txs.foldl UtxoSet.applyTx {} }

def storeBlock (blk : Block) (status : WriteStatus) (c : Chain) : Chain × Except String Unit :=
  let key := blockKey (UInt32.ofNat c.blocks.length)
  let c := { c with blocksDb := status.commit (c.blocksDb.insert key blk.serialize) c.blocksDb }
  match status with
  | .ok => (c, .ok ())
  | .error what _ =>
    (c, .error ("failed to store block at key '" ++ keyText key ++ "': " ++ what))

/-- All bytes `0xff` but the first `difficulty` ones, which are zero. -/
def buildTarget (c : Chain) : Chain :=
  { c with target :=
      ⟨(List.range 32).map fun i => if i < c.difficulty.toNat then 0 else 0xff, by simp⟩ }

/-! ### Accepting a transaction -/

/-- `std::numeric_limits<uint64_t>::max()`. -/
def maxU64 : UInt64 := 0xffffffffffffffff

/-- One round of the loop over the outputs. -/
def addOutput (sumOut : UInt64) (out : TxOutput) : Except TxError UInt64 :=
  if out.amount = 0 then .error .zeroAmount
  else if sumOut > maxU64 - out.amount then .error .invalidPayload
  else .ok (sumOut + out.amount)

def sumOutputs (outputs : List TxOutput) : Except TxError UInt64 := outputs.foldlM addOutput 0

/-- One round of the loop over the inputs. -/
def addInput (utxo : FiniteMap OutPoint TxOutput) (sender : Address) (sumIn : UInt64)
    (op : OutPoint) : Except TxError UInt64 :=
  match utxo[op]? with
  | none => .error .badOwnership
  | some out =>
    if out.recipient ≠ sender then .error .badOwnership
    else if sumIn > maxU64 - out.amount then .error .invalidPayload
    else .ok (sumIn + out.amount)

def sumInputs (utxo : FiniteMap OutPoint TxOutput) (sender : Address) (inputs : List OutPoint) :
    Except TxError UInt64 := inputs.foldlM (addInput utxo sender) 0

/-- The checks of `add_tx`, in their order. -/
def checkTx (S : Sodium) (st : SignedTransaction) (c : Chain) : Except TxError Unit := do
  let sumOut ← sumOutputs st.tx.outputs
  if sumOut = 0 then .error .zeroAmount
  else if st.tx.inputs.isEmpty then .error .invalidPayload
  else
    let sumIn ← sumInputs c.utxo (deriveAddress S st.pubkey) st.tx.inputs
    if sumIn < sumOut then .error .badOwnership
    else if !verifySig S st.pubkey st.tx.txid st.sig then .error .badSignature
    else if st.tx.txid ∈ c.pool then .error .duplicate
    else if st.tx.inputs.any (fun op => op ∈ c.poolSpent) then .error .inputSpent
    else .ok ()

/-- What `add_tx` does with a transaction that passed its checks. -/
def admitTx (tx : Transaction) (status : WriteStatus) (c : Chain) :
    Chain × Except String TxError :=
  let key := hexKey tx.txid
  -- memory has the transaction whatever the write answers
  let c := { c with
    poolSpent := FiniteMap.insertAll c.poolSpent (tx.inputs.map fun op => (op, op))
    pool := c.pool.insert tx.txid tx
    poolDb := status.commit (c.poolDb.insert key tx.serialize) c.poolDb }
  match status with
  | .ok => (c, .ok .none)
  | .error what _ =>
    (c, .error ("failed to store pool transaction '" ++ keyText key ++ "': " ++ what))

def addTx (S : Sodium) (st : SignedTransaction) (status : WriteStatus) (c : Chain) :
    Chain × Except String TxError :=
  match c.checkTx S st with
  | .error err => (c, .ok err)
  | .ok () => c.admitTx st.tx status

/-! ### Adding a block -/

/-- The loop over the transactions of a block; it hands on the statuses it did not
use. -/
def mineTxs : List Transaction → List WriteStatus → Chain → Chain × Except String (List WriteStatus)
  | [], io, c => (c, .ok io)
  | tx :: txs, io, c =>
    -- applied before the pool and its database are touched, and never undone
    let c := { c with toUtxoSet := c.toUtxoSet.applyTx tx }
    if tx.isCoinbase then mineTxs txs io c
    else
      let poolKey := hexKey tx.txid
      let status := io.headD .ok
      let c := { c with
        poolSpent := FiniteMap.eraseAll c.poolSpent tx.inputs
        pool := c.pool.erase tx.txid
        poolDb := status.commit (c.poolDb.erase poolKey) c.poolDb }
      match status with
      | .ok => mineTxs txs io.tail c
      | .error what _ =>
        (c, .error ("failed to remove mined transaction '" ++ keyText poolKey ++
          "' from pool DB: " ++ what))

def addBlock (blk : Block) (io : List WriteStatus) (c : Chain) : Chain × Except String Unit :=
  match c.mineTxs blk.transactions io with
  | (c, .error what) => (c, .error what)
  | (c, .ok io) =>
    -- the block is stored before memory has it
    match c.storeBlock blk (io.headD .ok) with
    | (c, .error what) => (c, .error what)
    | (c, .ok ()) => ({ c with blocks := c.blocks ++ [blk], height := c.height + 1 }, .ok ())

/-! ### Construction -/

/-- One round of `load_blocks`. -/
def loadBlock (S : Sodium) (c : Chain) (entry : Bytes × Bytes) : Except String Chain :=
  let failed (what : String) : Except String Chain :=
    .error ("failed to deserialize block at key '" ++ keyText entry.1 ++ "': " ++ what)
  match (Block.deserialize S).run ⟨entry.2, 0⟩ with
  | .error what => failed what
  | .ok (blk, reader) =>
    if reader.offset ≠ entry.2.length then
      failed ("trailing bytes after block payload: consumed " ++ toString reader.offset ++ " of " ++
        toString entry.2.length ++ " bytes")
    else
      -- nothing about the block is checked
      .ok { c with
        toUtxoSet := blk.transactions.foldl UtxoSet.applyTx c.toUtxoSet
        blocks := c.blocks ++ [blk] }

def loadBlocks (S : Sodium) (c : Chain) : Except String Chain := do
  let c ← c.blocksDb.toList.foldlM (loadBlock S) c
  pure { c with height := UInt32.ofNat c.blocks.length }

/-- One round of `load_pool`. -/
def loadPoolTx (c : Chain) (entry : Bytes × Bytes) : Except String Chain := do
  let tx ← Transaction.ofBytes entry.2
  pure { c with
    poolSpent := FiniteMap.insertAll c.poolSpent (tx.inputs.map fun op => (op, op))
    pool := c.pool.insert tx.txid tx }

def loadPool (c : Chain) : Except String Chain := c.poolDb.toList.foldlM loadPoolTx c

end Chain

/-- `GENESIS_ADDR`. -/
def genesisAddr : Address :=
  ⟨[0xf4, 0x5a, 0x20, 0xe0, 0x43, 0xb0, 0x1f, 0x65, 0x63, 0x8a,
    0x46, 0x83, 0x1c, 0xe7, 0x9b, 0x8f, 0xec, 0x3f, 0x67, 0x37], rfl⟩

/-- `UNITS`: the smallest units of one coin. -/
def units : UInt64 := 1000000

/-- The coinbase of the genesis block. -/
def genesisCoinbase (S : Sodium) : Transaction :=
  Transaction.new S [] [⟨genesisAddr, 15 * units⟩] ⟨1781545365⟩

/-- The genesis block. -/
def genesisBlock (S : Sodium) : Block :=
  Block.new S (U8Array.fill 32 0) [genesisCoinbase S] ⟨1781545365⟩ 31496

def Chain.createGenesis (S : Sodium) (status : WriteStatus) (c : Chain) : Except String Chain :=
  match c.storeBlock (genesisBlock S) status with
  | (_, .error what) => .error what
  | (c, .ok ()) =>
    .ok { c with
      toUtxoSet := (genesisBlock S).transactions.foldl UtxoSet.applyTx c.toUtxoSet
      blocks := c.blocks ++ [genesisBlock S]
      height := 1 }

/-- The constructor, on the databases it opens, up to what it prints.  Printing changes
nothing, but can end the process at a block it loaded: `bootPrinted` is the constructor
with it.  The status is that of the write of a genesis block. -/
def boot (S : Sodium) (status : WriteStatus) (blocksDb poolDb : Db) : Except String Chain := do
  let c ← Chain.loadBlocks S { blocksDb := blocksDb, poolDb := poolDb }
  let c ← c.loadPool
  let c ← (if c.blocks.isEmpty then c.createGenesis S status else .ok c)
  pure c.buildTarget

end Axis
