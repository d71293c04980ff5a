import Axis.Order

/-!
# Submitted blocks

A miner hashes 80 bytes and sends them with the fields of a coinbase and the txids of
transactions of the pool.  `on_create_block` never sees those 80 bytes as a header: it looks
the transactions up, rebuilds the coinbase, the Merkle root and the header, and hashes that.
When the root it computes is the one on the wire, the header it rebuilt has the bytes the
miner hashed, so that acceptance can be said in terms of the payload alone.

## Main definitions

* `BlockSubmission.wireHeader` — the header the miner hashed.
* `Acceptable` — the conditions on a payload, over the pool and the tip.

## Main results

* `take_eq_bytes_wireHeader` — the first 80 bytes of a payload are that header.
* `Base.compare_target_iff` — the comparison with the target counts leading zero bytes.
* `accepts_iff_acceptable` — **a block is accepted exactly when its payload is
  acceptable.**
* `onCreateBlock_exact` — **block submission end to end.**
-/

namespace Axis

open Positional

variable {S : Sodium}

/-! ### The header on the wire -/

namespace BlockSubmission

/-- The header the miner hashed, with the Merkle root as it was sent. -/
def wireHeader (sub : BlockSubmission) : BlockHeader :=
  ⟨sub.prevHash, sub.wireMerkle, sub.timestamp, sub.nonce⟩

/-- A submission starts with its header. -/
theorem bytes_wireHeader_prefix (sub : BlockSubmission) : sub.wireHeader.bytes <+: sub.bytes := by
  rw [BlockHeader.bytes_eq, bytes, wireHeader]
  simp only [List.prefix_append_right_inj]
  exact List.prefix_append _ _

/-- The first 80 bytes of a payload are the header of its submission. -/
theorem take_eq_bytes_wireHeader {sub : BlockSubmission} {payload : Bytes}
    (h : sub.bytes <+: payload) : payload.take 80 = sub.wireHeader.bytes := by
  have hpre := List.prefix_iff_eq_take.mp (sub.bytes_wireHeader_prefix.trans h)
  rw [BlockHeader.length_bytes] at hpre
  exact hpre.symm

/-- A block whose Merkle root is the one on the wire has the header on the wire. -/
theorem header_block {sub : BlockSubmission} {refs : List Transaction}
    (h : (sub.block S refs).header.merkleRoot = sub.wireMerkle) :
    (sub.block S refs).header = sub.wireHeader := by
  show BlockHeader.mk sub.prevHash (sub.block S refs).header.merkleRoot sub.timestamp sub.nonce = _
  rw [h, wireHeader]

/-- References that are keys of the pool resolve. -/
theorem exists_resolve {pool : FiniteMap Hash Transaction} {txids : List Hash}
    (h : ∀ txid ∈ txids, txid ∈ pool) :
    ∃ refs, txids.mapM (fun txid => pool[txid]?) = some refs := by
  induction txids with
  | nil => exact ⟨[], rfl⟩
  | cons txid txids ih =>
    rw [List.forall_mem_cons] at h
    obtain ⟨tx, htx⟩ := (FiniteMap.mem_iff_exists _ _).mp h.1
    obtain ⟨refs, hrefs⟩ := ih h.2
    exact ⟨tx :: refs, mapM_cons_eq_some.mpr ⟨tx, refs, htx, hrefs, rfl⟩⟩

/-- The Merkle root of a block over the txids of its submission. -/
theorem merkleRoot_block {sub : BlockSubmission} {refs : List Transaction}
    (h : sub.txids = refs.map Transaction.txid) :
    (sub.block S refs).header.merkleRoot =
      computeMerkleRoot S ((sub.coinbase S).txid :: sub.txids) := by
  rw [h]
  rfl

end BlockSubmission

/-! ### The target -/

/-- A hash meets the target when its first `difficulty` bytes are zero. -/
theorem Base.compare_target_iff {c : Chain} (h : Base S c) (hash : Hash) :
    compare hash c.target ≠ .gt ↔ ∀ b ∈ hash.data.take c.difficulty.toNat, b = 0 := by
  rw [h.target, h.difficulty]
  exact compare_leading_zeros_iff hash.size_data

/-! ### Acceptance -/

/-- What a payload must start with to be accepted: references to the pool, the Merkle root
of the coinbase and the references, enough work in its first 80 bytes, and the tip as its
parent. -/
structure Acceptable (S : Sodium) (c : Chain) (payload : Bytes) (sub : BlockSubmission) :
    Prop where
  count : sub.txids.length < 2 ^ 32
  starts : sub.bytes <+: payload
  known : ∀ txid ∈ sub.txids, txid ∈ c.pool
  merkle : sub.wireMerkle = computeMerkleRoot S ((sub.coinbase S).txid :: sub.txids)
  work : ∀ b ∈ (blake2b S (payload.take 80)).data.take c.difficulty.toNat, b = 0
  parent : sub.prevHash = c.tipHash

/-- The hash of a block whose Merkle root is the one on the wire. -/
theorem hash_block {sub : BlockSubmission} {refs : List Transaction} {payload : Bytes}
    (hpre : sub.bytes <+: payload)
    (hmerkle : (sub.block S refs).header.merkleRoot = sub.wireMerkle) :
    (sub.block S refs).hash = blake2b S (payload.take 80) := by
  show blake2b S (sub.block S refs).header.bytes = _
  rw [BlockSubmission.header_block hmerkle, BlockSubmission.take_eq_bytes_wireHeader hpre]

/-- **A block is accepted exactly when its payload is acceptable.** -/
theorem accepts_iff_acceptable {c : Chain} (hbase : Base S c) (payload : Bytes) :
    (∃ blk, acceptBlock S payload c = .ok blk) ↔ ∃ sub, Acceptable S c payload sub := by
  constructor
  · intro hblk
    obtain ⟨blk, haccept⟩ := hblk
    obtain ⟨sub, refs, hcount, hpre, hresolve, rfl, hmerkle, hwork, hparent⟩ :=
      acceptBlock_eq_ok.mp haccept
    obtain ⟨htxids, hpool⟩ := resolve_eq_some hbase.pool.good hresolve
    refine ⟨sub, hcount, hpre, ?_, ?_, ?_, hparent⟩
    · intro txid htxid
      rw [htxids] at htxid
      obtain ⟨tx, htx, rfl⟩ := List.mem_map.mp htxid
      exact (FiniteMap.mem_iff_exists _ _).mpr ⟨tx, hpool tx htx⟩
    · rw [← hmerkle, BlockSubmission.merkleRoot_block htxids]
    · rwa [← hash_block hpre hmerkle, ← hbase.compare_target_iff]
  · intro hsub
    obtain ⟨sub, hcount, hpre, hknown, hwire, hwork, hparent⟩ := hsub
    obtain ⟨refs, hresolve⟩ := BlockSubmission.exists_resolve hknown
    -- the pool keeps each transaction under its txid, so the leaves are the references
    obtain ⟨htxids, -⟩ := resolve_eq_some hbase.pool.good hresolve
    have hmerkle : (sub.block S refs).header.merkleRoot = sub.wireMerkle := by
      rw [hwire, BlockSubmission.merkleRoot_block htxids]
    refine ⟨sub.block S refs, acceptBlock_eq_ok.mpr
      ⟨sub, refs, hcount, hpre, hresolve, rfl, hmerkle, ?_, hparent⟩⟩
    rwa [hash_block hpre hmerkle, hbase.compare_target_iff]

/-- The header of an accepted block is what the payload starts with. -/
theorem bytes_header_of_acceptBlock {c : Chain} {payload : Bytes} {blk : Block}
    (h : acceptBlock S payload c = .ok blk) : blk.header.bytes = payload.take 80 := by
  obtain ⟨sub, refs, -, hpre, -, rfl, hmerkle, -, -⟩ := acceptBlock_eq_ok.mp h
  rw [BlockSubmission.header_block hmerkle, BlockSubmission.take_eq_bytes_wireHeader hpre]

/-- **Block submission end to end.**  In every reachable state and for every byte string,
`on_create_block` accepts exactly the acceptable payloads; it then appends one block, whose
header has the first 80 bytes of the payload; and any other payload changes nothing. -/
theorem onCreateBlock_exact {c : Chain} (h : Reachable S anyOp c) (payload : Bytes) :
    ((onCreateBlock S payload [] c).2 = blockAccepted ↔ ∃ sub, Acceptable S c payload sub) ∧
    ((∃ sub, Acceptable S c payload sub) →
      ∃ blk : Block, (onCreateBlock S payload [] c).1.blocks = c.blocks ++ [blk] ∧
        blk.header.bytes = payload.take 80) ∧
    ((¬ ∃ sub, Acceptable S c payload sub) → (onCreateBlock S payload [] c).1 = c) := by
  have hiff := accepts_iff_acceptable (base_of_reachable h) payload
  refine ⟨?_, ?_, ?_⟩
  · rw [onCreateBlock_accepts_iff, hiff]
  · intro hsub
    obtain ⟨blk, haccept⟩ := hiff.mpr hsub
    refine ⟨blk, ?_, bytes_header_of_acceptBlock haccept⟩
    rw [onCreateBlock_eq haccept]
    rfl
  · intro hnot
    cases haccept : acceptBlock S payload c with
    | error e => rw [onCreateBlock, haccept]
    | ok blk => exact absurd (hiff.mp ⟨blk, haccept⟩) hnot

/-- The third block of the sample run, with a byte behind its references. -/
theorem onCreateBlock_exact_setup : ∃ c, run Sample.sodium Sample.setup = .ok c ∧
    c.blocks.length = 3 ∧
    ∃ blk : Block,
      (onCreateBlock Sample.sodium (Sample.submission₃.bytes ++ [0]) [] c).1.blocks =
        c.blocks ++ [blk] ∧
      blk.header.bytes = (Sample.submission₃.bytes ++ [0]).take 80 := by
  obtain ⟨c, hrun, hreach, hlen, haccepted⟩ := exists_reachable_any (S := Sample.sodium)
    Sample.setup
    (fun c => c.blocks.length = 3 ∧
      (onCreateBlock Sample.sodium (Sample.submission₃.bytes ++ [0]) [] c).2 = blockAccepted)
    (by decide +kernel)
  obtain ⟨hiff, happended, -⟩ := onCreateBlock_exact hreach (Sample.submission₃.bytes ++ [0])
  exact ⟨c, hrun, hlen, happended (hiff.mp haccepted)⟩

end Axis
