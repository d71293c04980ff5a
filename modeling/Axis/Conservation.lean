import Axis.DoubleSpend

/-!
# Conservation of value

`add_tx` adds up the amount of every position of an input list, and `apply_tx`
erases each input once.  For a transaction that lists no input twice the two agree,
and applying it creates no value.

## Main results

* `inputTotal_eq` — what a transaction of the pool spends keeps its amount.
* `utxoTotal_grown` — **a block creates at most what its coinbase does.**
* `utxoTotal_le_of_reachable` — the UTXO set never holds more than the coinbases
  created.
-/

namespace Axis

variable {S : Sodium}

/-- The exact sum of the amounts in the UTXO set. -/
def utxoTotal (c : Chain) : ℕ := FiniteMap.total TxOutput.value c.utxo

/-- The exact sum of the outputs of all confirmed coinbases. -/
def coinbaseTotal (c : Chain) : ℕ :=
  ((c.txs.filter Transaction.isCoinbase).map Transaction.outputTotal).sum

/-- No two different confirmed transactions share a txid. -/
def NoSharedTxid (c : Chain) : Prop :=
  ∀ tx ∈ c.txs, ∀ tx' ∈ c.txs, tx.txid = tx'.txid → tx = tx'

instance (c : Chain) : Decidable (NoSharedTxid c) :=
  inferInstanceAs (Decidable (∀ tx ∈ c.txs, ∀ tx' ∈ c.txs, tx.txid = tx'.txid → tx = tx'))

/-- Every transaction of the pool has outputs worth at most its inputs. -/
def PoolCovered (c : Chain) : Prop :=
  ∀ (k : Hash) (tx : Transaction), c.pool[k]? = some tx → tx.outputTotal ≤ tx.inputTotal c.utxo

/-! ### Amounts of outpoints -/

/-- Creating an outpoint again, a transaction with the same txid gives it the same
output. -/
theorem created_unique {tx : Transaction} (hsize : tx.outputs.length < 2 ^ 32) {op : OutPoint}
    {out out' : TxOutput} (h : (op, out) ∈ tx.created) (h' : (op, out') ∈ tx.created) :
    out = out' := by
  have heq := List.inj_on_of_nodup_map (nodup_names_of_sized hsize) h h' rfl
  exact (Prod.mk.inj heq).2

/-- An outpoint that outlasts a block keeps its output. -/
theorem getElem?_utxo_grown {c : Chain} (hbase : Base S c) {sub : BlockSubmission}
    {refs : List Transaction} (ha : Accepted S c sub refs)
    (hshare : NoSharedTxid (c.grown (sub.block S refs))) {op : OutPoint} {out : TxOutput}
    (hout : c.utxo[op]? = some out) (hnot : op ∉ refs.flatMap Transaction.inputs) :
    (c.grown (sub.block S refs)).utxo[op]? = some out := by
  have hunspent := hbase.getElem?_utxo.mp hout
  obtain ⟨w, hw, hor⟩ := Ledger.exists_unspent_append
    (l := (sub.block S refs).transactions) hunspent hnot
  rw [← txs_grown] at hw
  rw [(hbase.grown ha).getElem?_utxo]
  rcases hor with rfl | ⟨tx, htx, hcre⟩
  · exact hw
  · -- created again by a transaction of the block, which is then the one that created it
    obtain ⟨tx', htx', hcre'⟩ := hunspent.exists_creates
    have htxid : tx.txid = tx'.txid :=
      (txid_of_mem_names (Ledger.mem_names.mpr ⟨w, hcre⟩)).symm.trans
        (txid_of_mem_names (Ledger.mem_names.mpr ⟨out, hcre'⟩))
    have hsame : tx = tx' := by
      refine hshare tx ?_ tx' ?_ htxid
      · rw [txs_grown]
        exact List.mem_append_right _ htx
      · rw [txs_grown]
        exact List.mem_append_left _ htx'
    subst hsame
    rwa [created_unique (hbase.constructed htx').outputs_lt hcre' hcre]

/-- What a transaction that stays in the pool spends keeps its amount, over a block that
keeps the outputs it does not spend. -/
theorem inputTotal_eq {c : Chain} (hbase : Base S c) (hkept : Kept S c) {sub : BlockSubmission}
    {refs : List Transaction} (ha : Accepted S c sub refs)
    (hkeep : ∀ (op : OutPoint) (out : TxOutput), c.utxo[op]? = some out →
      op ∉ refs.flatMap Transaction.inputs → (c.grown (sub.block S refs)).utxo[op]? = some out)
    {k : Hash} {tx : Transaction} (hk : c.pool[k]? = some tx)
    (hnot : k ∉ refs.map Transaction.txid) :
    tx.inputTotal (c.grown (sub.block S refs)).utxo = tx.inputTotal c.utxo := by
  -- amount by amount: none of them is spent by the block
  refine congrArg List.sum (List.map_congr_left fun op hop => ?_)
  obtain ⟨out, hout⟩ := (FiniteMap.mem_iff_exists _ _).mp (hkept.unspent k tx hk op hop)
  have hother : op ∉ refs.flatMap Transaction.inputs := by
    intro hmem
    obtain ⟨t, ht, hop'⟩ := List.mem_flatMap.mp hmem
    have hkey := hbase.pool.good.disjoint k tx t.txid t op hk (ha.inPool t ht) hop hop'
    exact hnot (hkey ▸ List.mem_map_of_mem ht)
  rw [FiniteMap.amountAt_of_getElem? _ hout,
    FiniteMap.amountAt_of_getElem? _ (hkeep op out hout hother)]

theorem poolCovered_genesis : PoolCovered (genesisChain S) := by
  intro k tx hk
  change (∅ : FiniteMap Hash Transaction)[k]? = some tx at hk
  rw [Std.ExtTreeMap.getElem?_empty] at hk
  cases hk

theorem PoolCovered.admitTx {c : Chain} (h : PoolCovered c) {st : SignedTransaction}
    (hv : Chain.Valid S st c) : PoolCovered (c.admitTx st.tx .ok).1 := by
  intro k tx hk
  rcases getElem?_pool_admitTx hk with ⟨-, rfl⟩ | hold
  · exact hv.covered
  · exact h k tx hold

/-- The pool stays covered over a block that keeps the outputs it does not spend. -/
theorem PoolCovered.grown {c : Chain} (h : PoolCovered c) (hbase : Base S c) (hkept : Kept S c)
    {sub : BlockSubmission} {refs : List Transaction} (ha : Accepted S c sub refs)
    (hkeep : ∀ (op : OutPoint) (out : TxOutput), c.utxo[op]? = some out →
      op ∉ refs.flatMap Transaction.inputs →
      (c.grown (sub.block S refs)).utxo[op]? = some out) :
    PoolCovered (c.grown (sub.block S refs)) := by
  intro k tx hk
  change (FiniteMap.eraseAll c.pool
    ((spending (sub.block S refs).transactions).map Transaction.txid))[k]? = some tx at hk
  rw [spending_block sub fun t ht => ha.inputs_ne hbase.pool.good ht,
    FiniteMap.getElem?_eraseAll] at hk
  split at hk
  · cases hk
  · next hnot =>
    rw [inputTotal_eq hbase hkept ha hkeep hk hnot]
    exact h k tx hk

theorem sum_value_created (tx : Transaction) :
    (tx.created.map fun e => e.2.value).sum = tx.outputTotal := by
  rw [Transaction.outputTotal, ← tx.map_snd_created, List.map_map]
  rfl

/-- Sums over the lists of a list of transactions. -/
theorem sum_map_flatMap {α : Type} (f : Transaction → List α) (g : α → ℕ)
    (txs : List Transaction) :
    ((txs.flatMap f).map g).sum = (txs.map fun tx => ((f tx).map g).sum).sum := by
  induction txs with
  | nil => rfl
  | cons tx txs ih => rw [List.flatMap_cons, List.map_append, List.sum_append, ih, List.map_cons,
      List.sum_cons]

/-! ### Blocks -/

/-- **A block creates at most what its coinbase does**, if its transactions list no
input twice. -/
theorem utxoTotal_grown {c : Chain} (hbase : Base S c) (hkept : Kept S c)
    (hcovered : PoolCovered c) {sub : BlockSubmission} {refs : List Transaction}
    (ha : Accepted S c sub refs) (hdistinct : distinctInputs c sub) :
    utxoTotal (c.grown (sub.block S refs)) ≤ utxoTotal c + (sub.coinbase S).outputTotal := by
  -- a repeated reference creates and removes nothing more
  let mined := refs.dedup
  have hmined : ∀ tx ∈ mined, tx ∈ refs := fun tx htx => List.mem_dedup.mp htx
  let removed := mined.flatMap Transaction.inputs
  let created := (sub.coinbase S :: mined).flatMap Transaction.created
  have hnodup : removed.Nodup := by
    rw [List.nodup_flatMap]
    refine ⟨fun tx htx => distinctInputs_refs ha hdistinct tx (hmined tx htx), ?_⟩
    apply (List.nodup_dedup refs).imp_of_mem
    intro tx tx' htx htx' hne op hop hop'
    exact hne (ha.disjoint hbase.pool.good (hmined tx htx) (hmined tx' htx') hop hop')
  have hmem : ∀ op ∈ removed, op ∈ c.utxo := by
    intro op hop
    obtain ⟨tx, htx, hin⟩ := List.mem_flatMap.mp hop
    exact hkept.unspent _ _ (ha.inPool tx (hmined tx htx)) op hin
  have hentry : ∀ (op : OutPoint) (out : TxOutput),
      (c.grown (sub.block S refs)).utxo[op]? = some out →
      (op, out) ∈ created ∨ c.utxo[op]? = some out ∧ op ∉ removed := by
    intro op out hout
    have hunspent := (hbase.grown ha).getElem?_utxo.mp hout
    rw [txs_grown] at hunspent
    rcases Ledger.unspent_append hunspent with ⟨tx, htx, hcre⟩ | ⟨hold, hnot⟩
    · refine Or.inl (List.mem_flatMap.mpr ⟨tx, ?_, hcre⟩)
      rcases List.mem_cons.mp htx with rfl | href
      · exact List.mem_cons_self
      · exact List.mem_cons_of_mem _ (List.mem_dedup.mpr href)
    · refine Or.inr ⟨hbase.getElem?_utxo.mpr hold, fun hop => hnot ?_⟩
      obtain ⟨tx, htx, hin⟩ := List.mem_flatMap.mp hop
      exact Ledger.mem_spent.mpr ⟨tx, List.mem_cons_of_mem _ (hmined tx htx), hin⟩
  -- the accounting rule of finite maps
  have haccount := FiniteMap.total_add_le TxOutput.value hnodup hmem hentry
  -- what the mined transactions create is covered by what they remove
  have hcreated : (created.map fun e => e.2.value).sum =
      (sub.coinbase S).outputTotal + (mined.map Transaction.outputTotal).sum := by
    rw [sum_map_flatMap, List.map_cons, List.sum_cons, sum_value_created]
    simp only [sum_value_created]
  have hremoved : (removed.map (FiniteMap.amountAt TxOutput.value c.utxo)).sum =
      (mined.map fun tx => tx.inputTotal c.utxo).sum := sum_map_flatMap _ _ _
  have hcover : (mined.map Transaction.outputTotal).sum ≤
      (mined.map fun tx => tx.inputTotal c.utxo).sum :=
    List.sum_le_sum fun tx htx => hcovered _ _ (ha.inPool tx (hmined tx htx))
  rw [utxoTotal, utxoTotal]
  omega

theorem coinbaseTotal_grown {c : Chain} (hbase : Base S c) {sub : BlockSubmission}
    {refs : List Transaction} (ha : Accepted S c sub refs) :
    coinbaseTotal (c.grown (sub.block S refs)) =
      coinbaseTotal c + (sub.coinbase S).outputTotal := by
  have hrefs : refs.filter Transaction.isCoinbase = [] := by
    refine List.filter_eq_nil_iff.mpr fun tx htx hcb => ?_
    exact ha.inputs_ne hbase.pool.good htx (List.isEmpty_iff.mp hcb)
  have hfilter : (sub.block S refs).transactions.filter Transaction.isCoinbase =
      [sub.coinbase S] := by
    show (sub.coinbase S :: refs).filter Transaction.isCoinbase = _
    rw [List.filter_cons_of_pos rfl, hrefs]
  rw [coinbaseTotal, coinbaseTotal, txs_grown, List.filter_append, hfilter, List.map_append,
    List.sum_append, List.map_singleton, List.sum_singleton]

/-! ### Runs -/

theorem utxoTotal_genesis : utxoTotal (genesisChain S) ≤ coinbaseTotal (genesisChain S) := by
  have hsize : (genesisCoinbase S).outputs.length < 2 ^ 32 := (by norm_num : 1 < 2 ^ 32)
  have hentry : ∀ (op : OutPoint) (out : TxOutput), (genesisChain S).utxo[op]? = some out →
      (op, out) ∈ (genesisCoinbase S).created ∨
        (∅ : FiniteMap OutPoint TxOutput)[op]? = some out ∧ op ∉ [] :=
    fun op out hout => ((UtxoSet.getElem?_applyTx hsize).mp hout).imp_right fun hold =>
      ⟨hold.1, List.not_mem_nil⟩
  have haccount := FiniteMap.total_add_le TxOutput.value List.nodup_nil
    (fun _ hop => (List.not_mem_nil hop).elim) hentry
  rw [FiniteMap.total_empty, sum_value_created] at haccount
  have hcoinbase : coinbaseTotal (genesisChain S) = (genesisCoinbase S).outputTotal := by
    show ([genesisCoinbase S].map Transaction.outputTotal).sum = _
    rw [List.map_singleton, List.sum_singleton]
  rw [hcoinbase, utxoTotal]
  simpa using haccount

/-- Fewer confirmed transactions share no txid either. -/
theorem NoSharedTxid.of_grown {c : Chain} {blk : Block} (h : NoSharedTxid (c.grown blk)) :
    NoSharedTxid c := by
  intro tx htx tx' htx'
  rw [NoSharedTxid, txs_grown] at h
  exact h tx (List.mem_append_left _ htx) tx' (List.mem_append_left _ htx')

/-- **Conservation of value.**  In a run whose blocks refer to no transaction that
lists an input twice, the UTXO set never holds more than the coinbases created. -/
theorem utxoTotal_le_of_reachable {c : Chain} (h : Reachable S (guarded distinctInputs) c)
    (hshare : NoSharedTxid c) : utxoTotal c ≤ coinbaseTotal c := by
  suffices hinv : PoolCovered c ∧ utxoTotal c ≤ coinbaseTotal c by
    exact hinv.2
  refine guarded_rule (I := fun c => NoSharedTxid c → PoolCovered c ∧
    utxoTotal c ≤ coinbaseTotal c) ?_ ?_ ?_ h hshare
  · exact fun _ => ⟨poolCovered_genesis, utxoTotal_genesis⟩
  · intro c st _ hI hv hshare
    obtain ⟨hcovered, htotal⟩ := hI hshare
    exact ⟨hcovered.admitTx hv, htotal⟩
  · intro c sub refs hbase hkept hI hdistinct ha hshare
    obtain ⟨hcovered, htotal⟩ := hI hshare.of_grown
    have hgrown := utxoTotal_grown hbase hkept hcovered ha hdistinct
    refine ⟨hcovered.grown hbase hkept ha fun op out =>
      getElem?_utxo_grown hbase ha hshare, ?_⟩
    rw [coinbaseTotal_grown hbase ha]
    omega

/-- The coinbases cover what the sample run leaves unspent. -/
theorem utxoTotal_le_confirmed : ∃ c, run Sample.sodium Sample.confirmed = .ok c ∧
    NoSharedTxid c ∧ c.blocks.length = 4 ∧ utxoTotal c ≤ coinbaseTotal c := by
  obtain ⟨c, hrun, hreach, hshare, hlen⟩ := exists_reachable (S := Sample.sodium)
    (guarded distinctInputs) Sample.confirmed (fun c => NoSharedTxid c ∧ c.blocks.length = 4)
    (by decide +kernel)
  exact ⟨c, hrun, hshare, hlen, utxoTotal_le_of_reachable hreach hshare⟩

/-- **An input listed twice creates value**: it is counted twice and erased once. -/
theorem coinbaseTotal_lt_doubled : ∃ c, run Sample.sodium Sample.doubled = .ok c ∧
    Reachable Sample.sodium anyOp c ∧ NoSharedTxid c ∧ coinbaseTotal c < utxoTotal c :=
  exists_reachable_any Sample.doubled (fun c => NoSharedTxid c ∧ coinbaseTotal c < utxoTotal c)
    (by decide +kernel)

end Axis
