import Axis.Restart

/-!
# Double spends

Blocks are not validated against the UTXO set.  What keeps an outpoint from being
spent twice is that the references of a block are transactions of the pool, whose
inputs are unspent and shared by no other one; and nothing keeps a block from
creating an outpoint again.

## Main definitions

* `distinctInputs`, `freshTxids`, `newCoinbase` — conditions on a submitted block.
* `NoDoubleSpend` — no outpoint is spent twice, and every input names an output of
  an earlier transaction.
* `FindsInputs` — applying transactions finds every input.

## Main results

* `admissible_of_fresh` — **a block of new txids is an admissible batch of the
  ledger.**
* `noDoubleSpend_of_reachable` — no double spends in runs of fresh blocks.
* `nodup_txids_of_reachable` — no output is created twice in runs of blocks without
  repeated references or repeated coinbases.
-/

namespace Axis

variable {S : Sodium}

/-! ### Conditions on submitted blocks -/

/-- No referenced transaction lists an input twice. -/
def distinctInputs (c : Chain) (sub : BlockSubmission) : Prop :=
  ∀ txid ∈ sub.txids, ∀ tx ∈ c.pool[txid]?, tx.inputs.Nodup

/-- The txids of the block are distinct, and none of them is confirmed. -/
def freshTxids (S : Sodium) (c : Chain) (sub : BlockSubmission) : Prop :=
  ((sub.coinbase S).txid :: sub.txids).Nodup ∧
    ∀ txid ∈ (sub.coinbase S).txid :: sub.txids, txid ∉ c.txs.map Transaction.txid

/-- No confirmed coinbase has the address, the reward and the timestamp of the
block's coinbase. -/
def newCoinbase (c : Chain) (sub : BlockSubmission) : Prop :=
  ∀ tx ∈ c.txs, tx.isCoinbase = true →
    ¬ (tx.outputs = [⟨sub.cbAddress, sub.cbReward⟩] ∧ tx.timestamp = sub.cbTimestamp)

instance (c : Chain) (sub : BlockSubmission) : Decidable (distinctInputs c sub) :=
  inferInstanceAs (Decidable (∀ txid ∈ sub.txids, ∀ tx ∈ c.pool[txid]?, tx.inputs.Nodup))

instance (c : Chain) (sub : BlockSubmission) : Decidable (freshTxids S c sub) :=
  inferInstanceAs (Decidable (_ ∧ _))

instance (c : Chain) (sub : BlockSubmission) : Decidable (newCoinbase c sub) :=
  inferInstanceAs (Decidable (∀ tx ∈ c.txs, tx.isCoinbase = true → ¬ (_ ∧ _)))

theorem distinctInputs_refs {c : Chain} {sub : BlockSubmission} {refs : List Transaction}
    (ha : Accepted S c sub refs) (h : distinctInputs c sub) : ∀ tx ∈ refs, tx.inputs.Nodup := by
  intro tx htx
  refine h tx.txid ?_ tx (ha.inPool tx htx)
  rw [ha.txids]
  exact List.mem_map_of_mem htx

/-! ### The ledger of a chain -/

/-- A confirmed transaction is constructed. -/
theorem Base.constructed {c : Chain} (h : Base S c) {tx : Transaction} (htx : tx ∈ c.txs) :
    tx.Constructed S := by
  obtain ⟨blk, hblk, hmem⟩ := List.mem_flatMap.mp htx
  exact (h.good blk hblk).constructed tx hmem

/-- Transactions with distinct txids create distinct outpoints. -/
theorem fresh_of_nodup_txids {txs : List Transaction}
    (hsize : ∀ tx ∈ txs, tx.outputs.length < 2 ^ 32)
    (hnodup : (txs.map Transaction.txid).Nodup) : Ledger.Fresh effects txs := by
  rw [Ledger.Fresh, Ledger.created, List.nodup_flatMap]
  refine ⟨fun tx htx => nodup_names_of_sized (hsize tx htx), ?_⟩
  rw [List.Nodup, List.pairwise_map] at hnodup
  apply hnodup.imp
  intro tx tx' hne op hop hop'
  exact hne ((txid_of_mem_names hop).symm.trans (txid_of_mem_names hop'))

/-- What the pool spends is unspent. -/
theorem Kept.exists_unspent {c : Chain} (h : Kept S c) (hbase : Base S c) {tx : Transaction}
    (htx : c.pool[tx.txid]? = some tx) {op : OutPoint} (hop : op ∈ tx.inputs) :
    ∃ out, Ledger.Unspent effects c.txs op out := by
  obtain ⟨out, hout⟩ := (FiniteMap.mem_iff_exists _ _).mp (h.unspent _ _ htx op hop)
  exact ⟨out, hbase.getElem?_utxo.mp hout⟩

/-- **A block of new txids is an admissible batch of the ledger.** -/
theorem admissible_of_fresh {c : Chain} (hbase : Base S c) (hkept : Kept S c)
    {sub : BlockSubmission} {refs : List Transaction} (ha : Accepted S c sub refs)
    (hfresh : freshTxids S c sub) :
    Ledger.Admissible effects c.txs (sub.block S refs).transactions := by
  have htxids : (sub.block S refs).transactions.map Transaction.txid =
      (sub.coinbase S).txid :: sub.txids := by
    rw [ha.txids]
    rfl
  have hsize : ∀ tx ∈ (sub.block S refs).transactions, tx.outputs.length < 2 ^ 32 :=
    fun tx htx => (ha.constructed hbase.pool.good tx htx).outputs_lt
  refine ⟨?_, ?_, fresh_of_nodup_txids hsize (htxids ▸ hfresh.1), ?_⟩
  · intro op hop
    obtain ⟨tx, htx, hmem⟩ := Ledger.mem_spent.mp hop
    rcases List.mem_cons.mp htx with rfl | href
    · cases hmem
    · exact hkept.exists_unspent hbase (ha.inPool tx href) hmem
  · -- the coinbase spends nothing, and different transactions of a pool are disjoint
    refine List.pairwise_cons.mpr ⟨fun tx _ op hop => (List.not_mem_nil hop).elim, ?_⟩
    have hnodup : (refs.map Transaction.txid).Nodup := by
      rw [← ha.txids]
      exact (List.nodup_cons.mp hfresh.1).2
    rw [List.Nodup, List.pairwise_map] at hnodup
    apply hnodup.imp_of_mem
    intro tx tx' htx htx' hne op hop hop'
    exact hne (congrArg _ (ha.disjoint hbase.pool.good htx htx' hop hop'))
  · intro op hop hold
    -- an outpoint created before has the txid of a confirmed transaction
    obtain ⟨tx, htx, hname⟩ := Ledger.mem_created.mp hop
    obtain ⟨tx', htx', hname'⟩ := Ledger.mem_created.mp hold
    have hmem : tx.txid ∈ (sub.block S refs).transactions.map Transaction.txid :=
      List.mem_map_of_mem htx
    rw [htxids] at hmem
    apply hfresh.2 tx.txid hmem
    rw [← txid_of_mem_names hname, txid_of_mem_names hname']
    exact List.mem_map_of_mem htx'

/-- A genesis block spends nothing. -/
theorem clean_genesis : Ledger.Clean effects (genesisChain S).txs := by
  have hsize : (genesisCoinbase S).outputs.length < 2 ^ 32 := (by norm_num : 1 < 2 ^ 32)
  exact Ledger.clean_nil.concat (t := genesisCoinbase S) (fun op hop => by cases hop)
    (nodup_names_of_sized hsize) (fun op _ hop => by cases hop)

/-! ### No outpoint is spent twice -/

/-- No outpoint occurs twice among the inputs of the confirmed transactions, and every
input names an output of a transaction at an earlier position. -/
structure NoDoubleSpend (c : Chain) : Prop where
  nodup : (c.txs.flatMap Transaction.inputs).Nodup
  earlier : ∀ pre tx post, c.txs = pre ++ tx :: post →
    ∀ op ∈ tx.inputs, ∃ t ∈ pre, ∃ out, (op, out) ∈ t.created

/-- Applying the transactions in order, each input is there when its turn comes. -/
def FindsInputs (u : UtxoSet) (txs : List Transaction) : Prop :=
  ∀ pre tx post, txs = pre ++ tx :: post → ∀ ops op ops', tx.inputs = ops ++ op :: ops' →
    op ∈ (ops.foldl UtxoSet.spend (pre.foldl UtxoSet.applyTx u)).utxo

/-- An admissible batch of transactions without repeated inputs finds its inputs. -/
theorem findsInputs_of_admissible {txs batch : List Transaction}
    (hsize : ∀ tx ∈ txs ++ batch, tx.outputs.length < 2 ^ 32)
    (ha : Ledger.Admissible effects txs batch) (hdistinct : ∀ tx ∈ batch, tx.inputs.Nodup) :
    FindsInputs (UtxoSet.replay txs) batch := by
  rintro pre tx post rfl ops op ops' hinputs
  have hop : op ∈ tx.inputs := by
    rw [hinputs]
    simp
  obtain ⟨out, hout⟩ := ha.unspent_at hop
  have hsize' : ∀ t ∈ txs ++ pre, t.outputs.length < 2 ^ 32 := by
    intro t ht
    apply hsize t
    rw [← List.append_assoc]
    exact List.mem_append_left _ ht
  rw [UtxoSet.utxo_foldl_spend, ← UtxoSet.replay_append, FiniteMap.mem_iff_exists]
  refine ⟨out, ?_⟩
  -- the inputs in front of this one are others
  have hnot : op ∉ ops := by
    have hnodup := hdistinct tx (by simp)
    rw [hinputs] at hnodup
    exact fun hmem => (List.nodup_append.mp hnodup).2.2 op hmem op List.mem_cons_self rfl
  rw [FiniteMap.getElem?_eraseAll, if_neg hnot]
  exact (UtxoSet.getElem?_replay hsize').mpr hout

/-- Blocks with new txids, of transactions without repeated inputs. -/
def freshBlock (S : Sodium) (c : Chain) (sub : BlockSubmission) : Prop :=
  freshTxids S c sub ∧ distinctInputs c sub

instance (c : Chain) (sub : BlockSubmission) : Decidable (freshBlock S c sub) :=
  inferInstanceAs (Decidable (_ ∧ _))

/-- The ledger of a run of fresh blocks is clean and spends nothing twice. -/
theorem clean_of_freshBlocks {c : Chain} (h : Reachable S (guarded (freshBlock S)) c) :
    Ledger.Clean effects c.txs ∧ (Ledger.spent effects c.txs).Nodup := by
  refine guarded_rule (I := fun c => Ledger.Clean effects c.txs ∧
    (Ledger.spent effects c.txs).Nodup) ⟨clean_genesis, List.nodup_nil⟩
    (fun c st _ hI _ => hI) ?_ h
  rintro c sub refs hbase hkept ⟨hclean, hspent⟩ ⟨hfresh, hdistinct⟩ ha
  -- the batch lemma of the ledger does the rest
  have hadm := admissible_of_fresh hbase hkept ha hfresh
  rw [txs_grown]
  refine ⟨hclean.append hadm, Ledger.nodup_spent_append hclean hadm hspent ?_⟩
  intro tx htx
  rcases List.mem_cons.mp htx with rfl | href
  · exact List.nodup_nil
  · exact distinctInputs_refs ha hdistinct tx href

/-- **No double spends** in a run whose blocks are fresh: no outpoint is spent twice,
every input names an earlier output, and the next such block finds its inputs. -/
theorem noDoubleSpend_of_reachable {c : Chain} (h : Reachable S (guarded (freshBlock S)) c) :
    NoDoubleSpend c ∧ ∀ (payload : FramePayload) (blk : Block),
      guarded (freshBlock S) c (.createBlock payload) →
      acceptBlock S payload.bytes c = .ok blk → FindsInputs c.toUtxoSet blk.transactions := by
  have hbase := base_of_reachable h
  have hkept := kept_of_reachable (fun _ _ => restartInRange_of_guarded) h
  obtain ⟨hclean, hspent⟩ := clean_of_freshBlocks h
  refine ⟨⟨hspent, ?_⟩, ?_⟩
  · intro pre tx post heq op hop
    obtain ⟨t, ht, hname⟩ := Ledger.mem_created.mp (hclean.sourced pre tx post heq op hop)
    exact ⟨t, ht, Ledger.mem_names.mp hname⟩
  · intro payload blk hguard haccept
    obtain ⟨sub, refs, hsub, rfl, ha⟩ :=
      accepted_of_acceptBlock hbase.pool.good payload.fits haccept
    obtain ⟨hfresh, hdistinct⟩ := hguard sub hsub
    rw [hbase.replayed]
    refine findsInputs_of_admissible ?_ (admissible_of_fresh hbase hkept ha hfresh) ?_
    · intro tx htx
      rcases List.mem_append.mp htx with hold | hnew
      · exact (hbase.constructed hold).outputs_lt
      · exact (ha.constructed hbase.pool.good tx hnew).outputs_lt
    · intro tx htx
      rcases List.mem_cons.mp htx with rfl | href
      · exact List.nodup_nil
      · exact distinctInputs_refs ha hdistinct tx href

/-- The sample run is one of fresh blocks. -/
theorem noDoubleSpend_confirmed : ∃ c, run Sample.sodium Sample.confirmed = .ok c ∧
    (Ledger.spent effects c.txs).length = 2 ∧ NoDoubleSpend c := by
  obtain ⟨c, hrun, hreach, hlen⟩ := exists_reachable (S := Sample.sodium)
    (guarded (freshBlock Sample.sodium)) Sample.confirmed
    (fun c => (Ledger.spent effects c.txs).length = 2) (by decide +kernel)
  exact ⟨c, hrun, hlen, (noDoubleSpend_of_reachable hreach).1⟩

/-- **A repeated reference is a double spend**: nothing keeps a block from listing a
transaction of the pool twice. -/
theorem doubleSpend_repeated : ∃ c, run Sample.sodium Sample.repeated = .ok c ∧
    Reachable Sample.sodium anyOp c ∧ ¬ NoDoubleSpend c := by
  obtain ⟨c, hrun, hreach, hspent⟩ := exists_reachable_any (S := Sample.sodium) Sample.repeated
    (fun c => ¬ (Ledger.spent effects c.txs).Nodup) (by decide +kernel)
  exact ⟨c, hrun, hreach, fun h => hspent h.nodup⟩

end Axis
