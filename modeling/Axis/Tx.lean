import Axis.Crypto

/-!
# Transactions

`src/tx.cpp`: the transaction, its txid, and its codec.

## Main results

* `Transaction.code` — **the transaction codec is an exact prefix code**: the
  decoder reads every serialized transaction back, whatever follows it, and
  accepts nothing else.
* `Transaction.length_serialize` — the size of a serialized transaction.
-/

namespace Axis

open Positional PrefixCode

/-! ### Data -/

/-- A reference to an output: the transaction that created it, and its position
there. -/
@[ext] structure OutPoint where
  txid : Hash
  index : UInt32
  deriving DecidableEq

namespace OutPoint

/-- Outpoints are ordered by txid and then by index. -/
instance : Ord OutPoint :=
  ⟨fun a b => (compare a.txid b.txid).then (compare a.index b.index)⟩

theorem compare_eq_compareLex :
    (compare : OutPoint → OutPoint → Ordering) =
      compareLex (compareOn OutPoint.txid) (compareOn OutPoint.index) := rfl

instance : Std.TransOrd OutPoint := by
  rw [Std.TransOrd, compare_eq_compareLex]
  infer_instance

instance : Std.LawfulEqOrd OutPoint where
  eq_of_compare {a b} h := by
    have hboth : compare a.txid b.txid = .eq ∧ compare a.index b.index = .eq :=
      Ordering.then_eq_eq.mp h
    exact OutPoint.ext (Std.LawfulEqCmp.eq_of_compare hboth.1)
      (Std.LawfulEqCmp.eq_of_compare hboth.2)

end OutPoint

/-- An amount paid to an address. -/
structure TxOutput where
  recipient : Address
  amount : UInt64
  deriving DecidableEq

/-- A transaction with the txid it carries. -/
structure Transaction where
  txid : Hash
  inputs : List OutPoint
  outputs : List TxOutput
  timestamp : Timestamp
  deriving DecidableEq

/-- A transaction as it is submitted, with the key and the signature of its signer. -/
structure SignedTransaction where
  tx : Transaction
  pubkey : PublicKey
  sig : Signature

/-! ### Writing -/

namespace Writer

def putOutPoint (w : Writer) (op : OutPoint) : Writer := (w.putHash op.txid).putU32 op.index

def putTxOutput (w : Writer) (out : TxOutput) : Writer :=
  (w.putAddr out.recipient).putU64 out.amount

end Writer

/-- The 36 bytes of an input. -/
def OutPoint.bytes (op : OutPoint) : Bytes := op.txid.data ++ leBytes 4 op.index.toNat

/-- The 28 bytes of an output. -/
def TxOutput.bytes (out : TxOutput) : Bytes := out.recipient.data ++ leBytes 8 out.amount.toNat

@[simp] theorem Writer.buf_putOutPoint (w : Writer) (op : OutPoint) :
    (w.putOutPoint op).buf = w.buf ++ op.bytes := by
  simp [Writer.putOutPoint, OutPoint.bytes]

@[simp] theorem Writer.buf_putTxOutput (w : Writer) (out : TxOutput) :
    (w.putTxOutput out).buf = w.buf ++ out.bytes := by
  simp [Writer.putTxOutput, TxOutput.bytes]

@[simp] theorem OutPoint.length_bytes (op : OutPoint) : op.bytes.length = 36 := by
  simp [OutPoint.bytes, op.txid.size_data]

@[simp] theorem TxOutput.length_bytes (out : TxOutput) : out.bytes.length = 28 := by
  simp [TxOutput.bytes, out.recipient.size_data]

theorem length_flatMap_of_const {α : Type} {enc : α → Bytes} {k : ℕ}
    (h : ∀ a, (enc a).length = k) (l : List α) : (l.flatMap enc).length = k * l.length := by
  induction l with
  | nil => rfl
  | cons a l ih =>
    rw [List.flatMap_cons, List.length_append, ih, h, List.length_cons]
    ring

namespace Transaction

/-- The bytes `compute_hash` feeds to blake2b. -/
def preimage (inputs : List OutPoint) (outputs : List TxOutput) (timestamp : Timestamp) : Bytes :=
  let w := inputs.foldl Writer.putOutPoint {}
  let w := outputs.foldl Writer.putTxOutput w
  (w.putU64 timestamp.value).buf

/-- The constructor from fields, which computes the txid. -/
def new (S : Sodium) (inputs : List OutPoint) (outputs : List TxOutput)
    (timestamp : Timestamp) : Transaction where
  txid := blake2b S (preimage inputs outputs timestamp)
  inputs := inputs
  outputs := outputs
  timestamp := timestamp

def isCoinbase (tx : Transaction) : Bool := tx.inputs.isEmpty

/-- `serialize(Writer&)`: append to a writer. -/
def serializeTo (tx : Transaction) (w : Writer) : Writer :=
  let w := w.putHash tx.txid
  let w := w.putU64 tx.timestamp.value
  let w := w.putU32 (UInt32.ofNat tx.inputs.length)
  let w := tx.inputs.foldl Writer.putOutPoint w
  let w := w.putU32 (UInt32.ofNat tx.outputs.length)
  tx.outputs.foldl Writer.putTxOutput w

/-- `serialize()`: the bytes in a string of their own. -/
def serialize (tx : Transaction) : Bytes := (tx.serializeTo {}).buf

/-! ### Reading -/

/-- One input of the counted list. -/
def takeOutPoint : ReadM OutPoint := do
  let txid ← Reader.takeHash
  let index ← Reader.takeU32
  pure ⟨txid, index⟩

/-- One output of the counted list. -/
def takeTxOutput : ReadM TxOutput := do
  let recipient ← Reader.takeAddr
  let amount ← Reader.takeU64
  pure ⟨recipient, amount⟩

def deserialize : ReadM Transaction := do
  let txid ← Reader.takeHash
  let timestamp ← Reader.takeU64
  let inCount ← Reader.takeU32
  let inputs ← many takeOutPoint inCount.toNat
  let outCount ← Reader.takeU32
  let outputs ← many takeTxOutput outCount.toNat
  pure ⟨txid, inputs, outputs, ⟨timestamp⟩⟩

/-- The constructor from a serialized string. -/
def ofBytes (serialized : Bytes) : Except String Transaction :=
  (deserialize.run ⟨serialized, 0⟩).map Prod.fst

/-! ### The codec -/

theorem preimage_eq (inputs : List OutPoint) (outputs : List TxOutput) (timestamp : Timestamp) :
    preimage inputs outputs timestamp =
      inputs.flatMap OutPoint.bytes ++ (outputs.flatMap TxOutput.bytes ++
        leBytes 8 timestamp.value.toNat) := by
  rw [preimage, Writer.buf_putU64, Writer.buf_foldl Writer.buf_putTxOutput,
    Writer.buf_foldl Writer.buf_putOutPoint, List.nil_append, List.append_assoc]

theorem length_preimage (inputs : List OutPoint) (outputs : List TxOutput)
    (timestamp : Timestamp) :
    (preimage inputs outputs timestamp).length
      = 36 * inputs.length + 28 * outputs.length + 8 := by
  rw [preimage_eq, List.length_append, List.length_append,
    length_flatMap_of_const OutPoint.length_bytes, length_flatMap_of_const TxOutput.length_bytes,
    length_leBytes]
  omega

theorem serialize_eq (tx : Transaction) :
    tx.serialize = tx.txid.data ++ (leBytes 8 tx.timestamp.value.toNat ++
      (leBytes 4 (UInt32.ofNat tx.inputs.length).toNat ++ (tx.inputs.flatMap OutPoint.bytes ++
        (leBytes 4 (UInt32.ofNat tx.outputs.length).toNat ++
          tx.outputs.flatMap TxOutput.bytes)))) := by
  rw [serialize, serializeTo]
  simp only [Writer.buf_foldl Writer.buf_putTxOutput, Writer.buf_foldl Writer.buf_putOutPoint,
    Writer.buf_putU32, Writer.buf_putU64, Writer.buf_putHash, List.append_assoc, List.nil_append]

/-- The size of a serialized transaction. -/
theorem length_serialize (tx : Transaction) :
    tx.serialize.length = 48 + 36 * tx.inputs.length + 28 * tx.outputs.length := by
  rw [serialize_eq]
  simp only [List.length_append, tx.txid.size_data, length_leBytes,
    length_flatMap_of_const OutPoint.length_bytes, length_flatMap_of_const TxOutput.length_bytes]
  omega

/-- A transaction whose lists fit the counts it is serialized with. -/
def Sized (tx : Transaction) : Prop :=
  tx.inputs.length < 2 ^ 32 ∧ tx.outputs.length < 2 ^ 32

theorem codeOutPoint : Code cursor OutPoint.bytes (fun _ => True) takeOutPoint := by
  refine ((codeArray 32).bind OutPoint.txid (fun txid => codeU32.map (fun index => ⟨txid, index⟩)
    OutPoint.index fun _ _ => rfl) ?_).congr ?_ fun _ _ => rfl
  · intro txid op hboth
    obtain ⟨-, hop⟩ := hboth
    rw [← hop]
  · intro op
    simp

theorem codeTxOutput : Code cursor TxOutput.bytes (fun _ => True) takeTxOutput := by
  refine ((codeArray 20).bind TxOutput.recipient (fun recipient => codeU64.map
    (fun amount => ⟨recipient, amount⟩) TxOutput.amount fun _ _ => rfl) ?_).congr ?_
    fun _ _ => rfl
  · intro recipient out hboth
    obtain ⟨-, hout⟩ := hboth
    rw [← hout]
  · intro out
    simp

theorem toNat_ofNat_length_iff {α : Type} (l : List α) :
    l.length = (UInt32.ofNat l.length).toNat ↔ l.length < 2 ^ 32 := by
  rw [UInt32.toNat_ofNat']
  omega

/-- **The transaction codec is an exact prefix code.** -/
theorem code : Code cursor serialize Sized deserialize := by
  -- field by field, the last one first
  have houtputs := fun txid ts inputs (outCount : UInt32) =>
    (codeTxOutput.many outCount.toNat).map
      (fun outputs => (⟨txid, inputs, outputs, ⟨ts⟩⟩ : Transaction)) Transaction.outputs
      fun _ _ => rfl
  have houtCount := fun txid ts inputs => codeU32.bind
    (fun tx : Transaction => UInt32.ofNat tx.outputs.length) (houtputs txid ts inputs) <| by
      intro outCount tx hex
      obtain ⟨⟨hlen, -⟩, -⟩ := hex
      rw [hlen, UInt32.ofNat_toNat]
  have hinputs := fun txid ts (inCount : UInt32) =>
    (codeOutPoint.many inCount.toNat).bind Transaction.inputs (houtCount txid ts) <| by
      intro inputs tx hboth
      obtain ⟨-, -, htx⟩ := hboth
      rw [← htx]
  have hinCount := fun txid ts => codeU32.bind
    (fun tx : Transaction => UInt32.ofNat tx.inputs.length) (hinputs txid ts) <| by
      intro inCount tx hex
      obtain ⟨⟨hlen, -⟩, -⟩ := hex
      rw [hlen, UInt32.ofNat_toNat]
  have htimestamp := fun txid => codeU64.bind (fun tx : Transaction => tx.timestamp.value)
    (hinCount txid) <| by
      intro ts tx hboth
      obtain ⟨-, -, -, -, htx⟩ := hboth
      rw [← htx]
  have htxid := (codeArray 32).bind Transaction.txid htimestamp <| by
      intro txid tx hboth
      obtain ⟨-, -, -, -, -, htx⟩ := hboth
      rw [← htx]
  refine htxid.congr ?_ fun tx _ => serialize_eq tx
  intro tx
  rw [Sized, ← toNat_ofNat_length_iff, ← toNat_ofNat_length_iff]
  constructor
  · intro hboth
    obtain ⟨hin, hout⟩ := hboth
    exact ⟨trivial, trivial, trivial, ⟨hin, fun _ _ => trivial⟩, trivial,
      ⟨hout, fun _ _ => trivial⟩, rfl⟩
  · intro hboth
    obtain ⟨-, -, -, ⟨hin, -⟩, -, ⟨hout, -⟩, -⟩ := hboth
    exact ⟨hin, hout⟩

/-- The round trip through a string of its own. -/
theorem ofBytes_serialize {tx : Transaction} (h : tx.Sized) : ofBytes tx.serialize = .ok tx := by
  have hrun := code.complete.run_start h []
  rw [List.append_nil] at hrun
  rw [ofBytes]
  exact congrArg (Except.map Prod.fst) hrun

theorem serialize_injOn {tx tx' : Transaction} (h : tx.Sized) (h' : tx'.Sized)
    (heq : tx.serialize = tx'.serialize) : tx = tx' := by
  have hfree := code.prefix_free h h' (s := []) (t := []) (by rw [heq])
  exact hfree.1

end Transaction

end Axis
