import Axis.Restart

/-!
# The mempool in reachable states

The pool, the outpoints it spends and its database agree in every reachable state.
That the pool spends only unspent outputs is lost when a node restarts with more
than `2 ^ 32` blocks: the key of a block wraps around, and the blocks written over
are missing from what is loaded.

## Main definitions

* `MempoolConsistent` — the agreement of the three structures.

## Main results

* `mempoolConsistent_of_reachable` — **the mempool is consistent in every reachable
  state**, and spends only unspent outputs unless a restart was out of range.
* `pool_spends_missing_output` — a run that restarts out of range.
-/

namespace Axis

open Positional

/-- The pool, the outpoints it spends and its database agree. -/
structure MempoolConsistent (c : Chain) : Prop where
  key : ∀ (k : Hash) (tx : Transaction), c.pool[k]? = some tx → tx.txid = k ∧ tx.inputs ≠ []
  disjoint : ∀ (k k' : Hash) (tx tx' : Transaction), c.pool[k]? = some tx →
    c.pool[k']? = some tx' → k ≠ k' → ∀ op ∈ tx.inputs, op ∉ tx'.inputs
  spent : ∀ op : OutPoint, op ∈ c.poolSpent ↔
    ∃ (k : Hash) (tx : Transaction), c.pool[k]? = some tx ∧ op ∈ tx.inputs
  stored : ∀ key raw : Bytes, c.poolDb[key]? = some raw ↔
    ∃ (k : Hash) (tx : Transaction), c.pool[k]? = some tx ∧ key = hexKey k ∧ raw = tx.serialize

/-- **The mempool is consistent in every reachable state.**  It spends only unspent
outputs in every run that restarts in range. -/
theorem mempoolConsistent_of_reachable {S : Sodium} {c : Chain} (h : Reachable S anyOp c) :
    MempoolConsistent c ∧ (Reachable S restartInRange c →
      ∀ (k : Hash) (tx : Transaction), c.pool[k]? = some tx → ∀ op ∈ tx.inputs, op ∈ c.utxo) := by
  have hpool := (base_of_reachable h).pool
  refine ⟨⟨?_, ?_, ?_, hpool.stored⟩, ?_⟩
  · exact fun k tx hk => ⟨hpool.good.key k tx hk, hpool.good.inputs_ne k tx hk⟩
  · exact fun k k' tx tx' hk hk' hne op hop hop' =>
      hne (hpool.good.disjoint k tx k' tx' op hk hk' hop hop')
  · intro op
    rw [FiniteMap.mem_iff_exists]
    constructor
    · rintro ⟨op', hop'⟩
      exact ((hpool.spent op op').mp hop').2
    · intro hex
      exact ⟨op, (hpool.spent op op).mpr ⟨rfl, hex⟩⟩
  · exact fun hr => (kept_of_reachable (fun _ _ hg => hg) hr).unspent

/-- The pool of the sample run spends both coinbases. -/
theorem mempoolConsistent_setup : ∃ c, run Sample.sodium Sample.setup = .ok c ∧
    c.pool.size = 2 ∧ MempoolConsistent c ∧
    ∀ (k : Hash) (tx : Transaction), c.pool[k]? = some tx → ∀ op ∈ tx.inputs, op ∈ c.utxo := by
  obtain ⟨c, hrun, hreach, hpool⟩ := exists_reachable (S := Sample.sodium) restartInRange
    Sample.setup (fun c => c.pool.size = 2) (by decide +kernel)
  obtain ⟨hconsistent, hunspent⟩ :=
    mempoolConsistent_of_reachable (hreach.mono fun _ _ _ => trivial)
  exact ⟨c, hrun, hpool, hconsistent, hunspent hreach⟩

/-! ### A restart out of range

A hash under which every header has enough work, and everything else hashes to its
own first bytes, lets one payload be submitted over and over. -/

namespace Wrap

/-- Headers hash to zero, the key of the run to the genesis address, and other strings
to their first bytes. -/
def sodium : Sodium where
  generichash outlen data :=
    U8Array.ofBytes outlen (if data.length = 80 then [] else if data.length = 32 then
      genesisAddr.data else data)
  signVerifyDetached _ _ _ := true

/-- A block with an empty reward and no references. -/
def sub : BlockSubmission where
  prevHash := U8Array.fill 32 0
  wireMerkle := U8Array.fill 32 0
  timestamp := ⟨0⟩
  nonce := 0
  cbAddress := U8Array.fill 20 0
  cbReward := 0
  cbTimestamp := ⟨0⟩
  txids := []

/-- The block of the submission. -/
def blk : Block := sub.block sodium []

def payload : FramePayload where
  bytes := sub.bytes
  fits := by
    rw [sub.length_bytes]
    decide

/-- The chain after `n` submissions. -/
def chain : ℕ → Chain
  | 0 => genesisChain sodium
  | n + 1 => (chain n).grown blk

/-- The output of the genesis block. -/
def genesisOut : OutPoint := ⟨(genesisCoinbase sodium).txid, 0⟩

theorem blk_txs : blk.transactions = [sub.coinbase sodium] := rfl

theorem txid_ne : (sub.coinbase sodium).txid ≠ (genesisCoinbase sodium).txid := by decide

theorem length_chain (n : ℕ) : (chain n).blocks.length = n + 1 := by
  induction n with
  | zero => rfl
  | succ n ih =>
    show ((chain n).blocks ++ [blk]).length = n + 2
    rw [List.length_append, ih, List.length_singleton]

theorem accepted (n : ℕ) : Accepted sodium (chain n) sub [] where
  txids := rfl
  inPool := by simp
  count := by norm_num
  merkle := by decide
  work := by
    have htarget : (chain n).target = target₃ := by
      induction n with
      | zero => rfl
      | succ n ih => exact ih
    rw [htarget]
    decide
  parent := by
    cases n with
    | zero => decide
    | succ n =>
      have hlast : (chain (n + 1)).blocks.getLast? = some blk := List.getLast?_concat
      rw [Chain.tipHash, hlast]
      decide

theorem acceptBlock_chain (n : ℕ) : acceptBlock sodium payload.bytes (chain n) = .ok blk := by
  have ha := accepted n
  exact acceptBlock_eq_ok.mpr ⟨sub, [], by decide, List.prefix_refl _, rfl, rfl, ha.merkle,
    ha.work, ha.parent⟩

theorem reachable_chain (n : ℕ) : Reachable sodium anyOp (chain n) := by
  induction n with
  | zero => exact .start boot_empty
  | succ n ih =>
    refine .step (i := .createBlock payload) ih trivial (congrArg Except.ok ?_)
    rw [onCreateBlock, acceptBlock_chain]
    dsimp only
    rw [addBlock_nil]
    rfl

/-- After `2 ^ 32` submissions every stored block is the submitted one. -/
theorem eq_of_stored {n : ℕ} {key raw : Bytes} (h : (chain n).blocksDb[key]? = some raw) :
    raw = blk.serialize ∨ key = blockKey 0 ∧ n < 2 ^ 32 := by
  induction n with
  | zero =>
    change ((∅ : Db).insert (blockKey 0) _)[key]? = some raw at h
    rw [FiniteMap.getElem?_insert_eq] at h
    split at h
    · next heq => exact Or.inr ⟨heq.symm, by norm_num⟩
    · rw [Std.ExtTreeMap.getElem?_empty] at h
      cases h
  | succ n ih =>
    change ((chain n).blocksDb.insert (blockKey (UInt32.ofNat (chain n).blocks.length))
      blk.serialize)[key]? = some raw at h
    rw [FiniteMap.getElem?_insert_eq, length_chain] at h
    split at h
    · exact Or.inl (Option.some.inj h).symm
    · next hne =>
      rcases ih h with hraw | ⟨hkey, hlt⟩
      · exact Or.inl hraw
      · -- the block at position `2 ^ 32` has the key of the genesis block
        refine Or.inr ⟨hkey, ?_⟩
        by_contra hge
        apply hne
        have hwrap : n + 1 = 2 ^ 32 := by omega
        rw [hwrap, hkey, ← blockKey_mod, Nat.mod_self]
        rfl

theorem utxo_genesisOut (n : ℕ) :
    (chain n).utxo[genesisOut]? = some ⟨genesisAddr, 15 * units⟩ := by
  induction n with
  | zero => decide +kernel
  | succ n ih =>
    have hsize : (sub.coinbase sodium).outputs.length < 2 ^ 32 := (by norm_num : 1 < 2 ^ 32)
    show ((chain n).toUtxoSet.applyTx (sub.coinbase sodium)).utxo[genesisOut]? = _
    refine (UtxoSet.getElem?_applyTx hsize).mpr (Or.inr ⟨ih, by simp [BlockSubmission.coinbase,
      Transaction.new], fun hmem => ?_⟩)
    exact txid_ne (txid_of_mem_names hmem).symm

/-- A transaction that spends the output of the genesis block. -/
def spend : ParsedCreateTx where
  pubkey := U8Array.fill 32 0
  timestamp := ⟨0⟩
  inputs := [genesisOut]
  outputs := [⟨U8Array.fill 20 0, 1⟩]
  sig := U8Array.fill 64 0

def spendPayload : FramePayload where
  bytes := spend.bytes
  fits := by
    rw [spend.length_bytes]
    decide

theorem pool_chain (n : ℕ) : (chain n).pool = ∅ ∧ (chain n).poolSpent = ∅ := by
  induction n with
  | zero => exact ⟨rfl, rfl⟩
  | succ n ih => exact ih

theorem valid_spend (n : ℕ) : Chain.Valid sodium (spend.signed sodium) (chain n) where
  outputs_ne := List.cons_ne_nil _ _
  positive := by decide
  inputs_ne := List.cons_ne_nil _ _
  owned := by
    intro op hop
    rw [List.mem_singleton.mp hop]
    exact ⟨_, utxo_genesisOut n, by decide⟩
  covered := by
    show 1 ≤ (([genesisOut].map (FiniteMap.amountAt TxOutput.value (chain n).utxo)).sum)
    rw [List.map_singleton, List.sum_singleton,
      FiniteMap.amountAt_of_getElem? _ (utxo_genesisOut n)]
    decide
  bounded := by
    show ([genesisOut].map (FiniteMap.amountAt TxOutput.value (chain n).utxo)).sum < 2 ^ 64
    rw [List.map_singleton, List.sum_singleton,
      FiniteMap.amountAt_of_getElem? _ (utxo_genesisOut n)]
    decide
  signed := rfl
  unknown := by
    rw [(pool_chain n).1]
    exact Std.ExtTreeMap.not_mem_empty
  unspent := by
    intro op _
    rw [(pool_chain n).2]
    exact Std.ExtTreeMap.not_mem_empty

/-- The chain with the transaction in its pool. -/
def pooled (n : ℕ) : Chain := ((chain n).admitTx (spend.signed sodium).tx .ok).1

theorem blocksDb_pooled (n : ℕ) : (pooled n).blocksDb = (chain n).blocksDb := rfl

theorem reachable_pooled (n : ℕ) : Reachable sodium anyOp (pooled n) := by
  refine .step (i := .createTx spendPayload) (reachable_chain n) trivial (congrArg Except.ok ?_)
  have hrun := (codeSignedTransaction.complete (s := ⟨spend.bytes, 0⟩) (a := spend)
    ⟨by decide, by decide⟩ (List.prefix_refl _))
  show (onCreateTx sodium spend.bytes .ok (chain n)).1 = _
  rw [onCreateTx, hrun]
  dsimp only
  rw [Chain.addTx_ok (valid_spend n)]
  rfl

end Wrap

/-- **A pool that spends a missing output.**  After `2 ^ 32` blocks on the genesis block
and the submission of a transaction that spends the genesis output, a restart loads a
chain without the genesis block, and the pool still has the transaction. -/
theorem pool_spends_missing_output : ∃ c : Chain, Reachable Wrap.sodium anyOp c ∧
    ∃ (k : Hash) (tx : Transaction) (op : OutPoint),
      c.pool[k]? = some tx ∧ op ∈ tx.inputs ∧ op ∉ c.utxo := by
  -- the block at position `2 ^ 32` has the key of the genesis block
  have hreach := Wrap.reachable_pooled (2 ^ 32)
  have hbase := base_of_reachable hreach
  obtain ⟨c, hboot, hbase', hpool, -, -, -, hblocks⟩ := Base.of_boot hbase.goodDb hbase.keys
    (List.length_pos_iff.mpr hbase.blocks_ne) hbase.pool.good hbase.pool.stored .ok
  refine ⟨c, .step (i := .restart) hreach trivial hboot, (Wrap.spend.signed Wrap.sodium).tx.txid,
    (Wrap.spend.signed Wrap.sodium).tx, Wrap.genesisOut, ?_, List.mem_singleton_self _, ?_⟩
  · rw [hpool]
    show ((Wrap.chain (2 ^ 32)).pool.insert _ (Wrap.spend.signed Wrap.sodium).tx)[_]? = _
    rw [FiniteMap.getElem?_insert_eq, if_pos rfl]
  · -- whatever is loaded was submitted, and creates another outpoint
    intro hmem
    obtain ⟨out, hout⟩ := (FiniteMap.mem_iff_exists _ _).mp hmem
    obtain ⟨tx, htx, hcre⟩ := (hbase'.getElem?_utxo.mp hout).exists_creates
    obtain ⟨b, hb, hin⟩ := List.mem_flatMap.mp htx
    obtain ⟨key, hkey⟩ := (hblocks b (hbase'.good b hb)).mp hb
    rw [Wrap.blocksDb_pooled] at hkey
    -- every entry of the database was written over by then
    have hserialize : b.serialize = Wrap.blk.serialize := by
      rcases Wrap.eq_of_stored hkey with hraw | ⟨-, hlt⟩
      · exact hraw
      · omega
    have hgood : BlockGood Wrap.sodium Wrap.blk := by
      apply (Wrap.accepted 0).blockGood
      rw [(Wrap.pool_chain 0).1]
      exact PoolGood.empty
    rw [(hbase'.good b hb).eq_of_serialize hgood hserialize, Wrap.blk_txs,
      List.mem_singleton] at hin
    rw [hin] at hcre
    exact Wrap.txid_ne (txid_of_mem_names (Ledger.mem_names.mpr ⟨out, hcre⟩)).symm

end Axis
