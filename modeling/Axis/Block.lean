import Axis.Tx

/-!
# Blocks

`src/block.cpp`: the header, the block with its cached hash, and its codec.

The transactions of a serialized block are each preceded by their size and read
from a view of that size, so a reader does not notice bytes of a view that come
after the transaction.  The round trip is therefore stated by itself.

## Main results

* `BlockHeader.code` — the header codec is an exact prefix code.
* `Block.complete` — **every block that was serialized is read back**, whatever
  follows it.
-/

namespace Axis

open Positional PrefixCode

/-! ### Headers -/

/-- What is hashed of a block. -/
@[ext] structure BlockHeader where
  prevHash : Hash
  merkleRoot : Hash
  timestamp : Timestamp
  nonce : UInt64
  deriving DecidableEq

namespace BlockHeader

def serializeTo (hdr : BlockHeader) (w : Writer) : Writer :=
  (((w.putHash hdr.prevHash).putHash hdr.merkleRoot).putU64 hdr.timestamp.value).putU64 hdr.nonce

/-- The 80 bytes of a header. -/
def bytes (hdr : BlockHeader) : Bytes := (hdr.serializeTo {}).buf

def hash (S : Sodium) (hdr : BlockHeader) : Hash := blake2b S hdr.bytes

def deserialize : ReadM BlockHeader := do
  let prevHash ← Reader.takeHash
  let merkleRoot ← Reader.takeHash
  let timestamp ← Reader.takeU64
  let nonce ← Reader.takeU64
  pure ⟨prevHash, merkleRoot, ⟨timestamp⟩, nonce⟩

theorem bytes_eq (hdr : BlockHeader) :
    hdr.bytes = hdr.prevHash.data ++ (hdr.merkleRoot.data ++
      (leBytes 8 hdr.timestamp.value.toNat ++ leBytes 8 hdr.nonce.toNat)) := by
  rw [bytes, serializeTo]
  simp only [Writer.buf_putU64, Writer.buf_putHash, List.append_assoc, List.nil_append]

theorem serializeTo_buf (hdr : BlockHeader) (w : Writer) :
    (hdr.serializeTo w).buf = w.buf ++ hdr.bytes := by
  rw [bytes_eq, serializeTo]
  simp only [Writer.buf_putU64, Writer.buf_putHash, List.append_assoc]

@[simp] theorem length_bytes (hdr : BlockHeader) : hdr.bytes.length = 80 := by
  rw [bytes_eq]
  simp [hdr.prevHash.size_data, hdr.merkleRoot.size_data]

theorem code : Code cursor bytes (fun _ => True) deserialize := by
  have hnonce := fun prevHash merkleRoot ts => codeU64.map
    (fun nonce => (⟨prevHash, merkleRoot, ⟨ts⟩, nonce⟩ : BlockHeader)) BlockHeader.nonce
    fun _ _ => rfl
  have htimestamp := fun prevHash merkleRoot => codeU64.bind
    (fun hdr : BlockHeader => hdr.timestamp.value) (hnonce prevHash merkleRoot) <| by
      intro ts hdr hboth
      obtain ⟨-, hhdr⟩ := hboth
      rw [← hhdr]
  have hmerkle := fun prevHash => (codeArray 32).bind BlockHeader.merkleRoot
    (htimestamp prevHash) <| by
      intro merkleRoot hdr hboth
      obtain ⟨-, -, hhdr⟩ := hboth
      rw [← hhdr]
  have hprev := (codeArray 32).bind BlockHeader.prevHash hmerkle <| by
      intro prevHash hdr hboth
      obtain ⟨-, -, -, hhdr⟩ := hboth
      rw [← hhdr]
  refine hprev.congr ?_ fun hdr _ => bytes_eq hdr
  intro hdr
  simp

/-- A header is determined by its bytes. -/
theorem bytes_inj {hdr hdr' : BlockHeader} (h : hdr.bytes = hdr'.bytes) : hdr = hdr' := by
  have hfree := code.prefix_free (a := hdr) (b := hdr') trivial trivial (s := []) (t := [])
    (by rw [h])
  exact hfree.1

end BlockHeader

/-! ### Blocks -/

/-- A block with its cached hash. -/
structure Block where
  header : BlockHeader
  hash : Hash
  transactions : List Transaction
  deriving DecidableEq

def computeBlockMerkleRoot (S : Sodium) (txs : List Transaction) : Hash :=
  computeMerkleRoot S (txs.map Transaction.txid)

namespace Block

/-- The constructor from fields, which computes the Merkle root and the hash. -/
def new (S : Sodium) (prev : Hash) (txs : List Transaction) (ts : Timestamp) (nonce : UInt64) :
    Block :=
  let header : BlockHeader := ⟨prev, computeBlockMerkleRoot S txs, ts, nonce⟩
  { header := header, hash := header.hash S, transactions := txs }

/-- One transaction of a serialized block, with its size in front. -/
def putTransaction (w : Writer) (tx : Transaction) : Writer :=
  (w.putU32 (UInt32.ofNat tx.serialize.length)).putStr tx.serialize

def serializeTo (blk : Block) (w : Writer) : Writer :=
  let w := blk.header.serializeTo w
  let w := w.putU32 (UInt32.ofNat blk.transactions.length)
  blk.transactions.foldl putTransaction w

def serialize (blk : Block) : Bytes := (blk.serializeTo {}).buf

/-- One transaction of a serialized block, read from a view of its own. -/
def takeTransaction : ReadM Transaction := do
  let txSize ← Reader.takeU32
  let txData ← Reader.takeView txSize.toNat
  liftM (Transaction.ofBytes txData)

def deserialize (S : Sodium) : ReadM Block := do
  let header ← BlockHeader.deserialize
  let txCount ← Reader.takeU32
  let transactions ← many takeTransaction txCount.toNat
  pure { header := header, hash := header.hash S, transactions := transactions }

/-! ### The codec -/

/-- The bytes of one transaction of a serialized block. -/
def txBytes (tx : Transaction) : Bytes :=
  leBytes 4 (UInt32.ofNat tx.serialize.length).toNat ++ tx.serialize

theorem buf_putTransaction (w : Writer) (tx : Transaction) :
    (putTransaction w tx).buf = w.buf ++ txBytes tx := by
  rw [putTransaction, Writer.buf_putStr, Writer.buf_putU32, List.append_assoc, txBytes]

theorem serialize_eq (blk : Block) :
    blk.serialize = blk.header.bytes ++ (leBytes 4 (UInt32.ofNat blk.transactions.length).toNat ++
      blk.transactions.flatMap txBytes) := by
  rw [serialize, serializeTo]
  simp only [Writer.buf_foldl buf_putTransaction, Writer.buf_putU32, BlockHeader.serializeTo_buf,
    List.nil_append, List.append_assoc]

/-- A block whose lists fit the counts and sizes it is serialized with, and whose
cached hash is that of its header. -/
structure Storable (S : Sodium) (blk : Block) : Prop where
  hash : blk.hash = blk.header.hash S
  count : blk.transactions.length < 2 ^ 32
  size : ∀ tx ∈ blk.transactions, tx.serialize.length < 2 ^ 32

theorem sized_of_length_serialize {tx : Transaction} (h : tx.serialize.length < 2 ^ 32) :
    tx.Sized := by
  rw [Transaction.length_serialize] at h
  exact ⟨by omega, by omega⟩

theorem completeTransaction :
    Complete cursor txBytes (fun tx => tx.serialize.length < 2 ^ 32) takeTransaction := by
  intro r tx hsize hpre
  have hlen : (UInt32.ofNat tx.serialize.length).toNat = tx.serialize.length := by
    rw [UInt32.toNat_ofNat', Nat.mod_eq_of_lt hsize]
  have hcount := codeU32.complete (a := UInt32.ofNat tx.serialize.length) trivial
    ((List.prefix_append _ _).trans hpre)
  have hview := (codeView (UInt32.ofNat tx.serialize.length).toNat).complete
    (a := tx.serialize) hlen.symm (prefix_rest_skip hpre)
  rw [id, cursor.skip_skip, ← List.length_append] at hview
  refine run_bind_eq_ok.mpr ⟨_, _, hcount, run_bind_eq_ok.mpr ⟨_, _, hview, ?_⟩⟩
  rw [Transaction.ofBytes_serialize (sized_of_length_serialize hsize)]
  rfl

/-- **Every serialized block is read back**, and nothing after it. -/
theorem complete (S : Sodium) : Complete cursor serialize (Storable S) (deserialize S) := by
  -- from the last field back to the first, each with those in front of it given
  have htxs := fun (header : BlockHeader) (txCount : UInt32) =>
    (completeTransaction.many txCount.toNat).bind Block.transactions fun transactions =>
      Complete.pure (C := cursor)
        (⟨header, header.hash S, transactions⟩ : Block)
  have hcount := fun header => codeU32.complete.bind
    (fun blk : Block => UInt32.ofNat blk.transactions.length) (htxs header)
  have hheader := BlockHeader.code.complete.bind Block.header hcount
  refine hheader.congr ?_ ?_
  · intro blk hboth
    obtain ⟨hhash, hcount, hsize⟩ := hboth
    refine ⟨trivial, trivial, ⟨?_, hsize⟩, ?_⟩
    · exact (Transaction.toNat_ofNat_length_iff _).mpr hcount
    · rw [← hhash]
  · intro blk _
    rw [serialize_eq, List.append_nil]

/-- The run of the decoder on a serialized block. -/
theorem run_deserialize_serialize {S : Sodium} {blk : Block} (h : blk.Storable S) :
    (deserialize S).run ⟨blk.serialize, 0⟩ =
      .ok (blk, ⟨blk.serialize, blk.serialize.length⟩) := by
  have hrun := (complete S).run_start h []
  rw [List.append_nil] at hrun
  have hskip : cursor.skip blk.serialize.length (cursor.start blk.serialize) =
      ⟨blk.serialize, blk.serialize.length⟩ := by
    simp [cursor]
  rw [hskip] at hrun
  exact hrun

theorem serialize_injOn {S : Sodium} {blk blk' : Block} (h : blk.Storable S)
    (h' : blk'.Storable S) (heq : blk.serialize = blk'.serialize) : blk = blk' := by
  have hrun := run_deserialize_serialize h
  rw [heq, run_deserialize_serialize h'] at hrun
  injection hrun with hpair
  exact (Prod.mk.inj hpair).1.symm

end Block

end Axis
