import Axis.Mempool

/-!
# Accepted blocks

What `on_create_block` accepts, over a pool whose transactions are stored under
their txids, and what `add_block` does with it when every write succeeds.

## Main definitions

* `Accepted` — the facts about an accepted block and the pool it refers to.
* `BlockGood` — what is true of every block of a chain by itself.
* `Chain.grown` — the chain with one more block.

## Main results

* `accepted_of_acceptBlock` — an accepted block is `Accepted`.
* `Accepted.blockGood` — **an accepted block is good.**
* `addBlock_eq` — `add_block` without a failing write.
-/

namespace Axis

open Positional

variable {S : Sodium}

/-! ### Good blocks -/

/-- What is true of every block by itself: its hash and its Merkle root are those
of its contents, and it has a coinbase with one output in front of transactions
that spend something. -/
structure BlockGood (S : Sodium) (blk : Block) : Prop where
  hash : blk.hash = blk.header.hash S
  merkle : blk.header.merkleRoot = computeBlockMerkleRoot S blk.transactions
  count : blk.transactions.length < 2 ^ 32
  constructed : ∀ tx ∈ blk.transactions, tx.Constructed S
  shape : ∃ cb refs, blk.transactions = cb :: refs ∧ cb.inputs = [] ∧ cb.outputs.length = 1 ∧
    ∀ tx ∈ refs, tx.inputs ≠ [] ∧ tx.outputs ≠ []

theorem BlockGood.storable {blk : Block} (h : BlockGood S blk) : blk.Storable S where
  hash := h.hash
  count := h.count
  size tx htx := (h.constructed tx htx).size

/-- Good blocks with the same bytes are the same. -/
theorem BlockGood.eq_of_serialize {blk blk' : Block} (h : BlockGood S blk)
    (h' : BlockGood S blk') (heq : blk.serialize = blk'.serialize) : blk = blk' :=
  Block.serialize_injOn h.storable h'.storable heq

/-- A coinbase made by the constructor. -/
theorem constructed_coinbase (addr : Address) (reward : UInt64) (ts : Timestamp) :
    (Transaction.new S [] [⟨addr, reward⟩] ts).Constructed S where
  txid := rfl
  size := by
    rw [Transaction.length_serialize]
    show 48 + 36 * 0 + 28 * 1 < 2 ^ 32
    norm_num

theorem blockGood_genesis : BlockGood S (genesisBlock S) where
  hash := rfl
  merkle := rfl
  count := by
    show 1 < 2 ^ 32
    norm_num
  constructed := by
    intro tx htx
    rw [List.mem_singleton.mp htx]
    exact constructed_coinbase _ _ _
  shape := ⟨genesisCoinbase S, [], rfl, rfl, rfl, by simp⟩

/-! ### Accepted blocks -/

/-- The facts about an accepted submission and the transactions it refers to. -/
structure Accepted (S : Sodium) (c : Chain) (sub : BlockSubmission) (refs : List Transaction) :
    Prop where
  txids : sub.txids = refs.map Transaction.txid
  inPool : ∀ tx ∈ refs, c.pool[tx.txid]? = some tx
  count : refs.length + 1 < 2 ^ 32
  merkle : (sub.block S refs).header.merkleRoot = sub.wireMerkle
  work : compare (sub.block S refs).hash c.target ≠ .gt
  parent : sub.prevHash = c.tipHash

/-- Resolved references are transactions of the pool, under their own txids. -/
theorem resolve_eq_some {pool : FiniteMap Hash Transaction} (hgood : PoolGood S pool)
    {txids : List Hash} {refs : List Transaction}
    (h : txids.mapM (fun txid => pool[txid]?) = some refs) :
    txids = refs.map Transaction.txid ∧ ∀ tx ∈ refs, pool[tx.txid]? = some tx := by
  induction txids generalizing refs with
  | nil =>
    rw [List.mapM_nil] at h
    cases h
    simp
  | cons txid txids ih =>
    obtain ⟨tx, rest, hget, hrest, rfl⟩ := mapM_cons_eq_some.mp h
    obtain ⟨htxids, hmem⟩ := ih hrest
    have hkey := hgood.key txid tx hget
    refine ⟨by rw [List.map_cons, hkey, ← htxids], ?_⟩
    rw [List.forall_mem_cons]
    exact ⟨by rw [hkey, hget], hmem⟩

/-- References to transactions of the pool resolve to them. -/
theorem resolve_map_txid {pool : FiniteMap Hash Transaction} {refs : List Transaction}
    (h : ∀ tx ∈ refs, pool[tx.txid]? = some tx) :
    (refs.map Transaction.txid).mapM (fun txid => pool[txid]?) = some refs := by
  induction refs with
  | nil => rfl
  | cons tx refs ih =>
    rw [List.forall_mem_cons] at h
    exact mapM_cons_eq_some.mpr ⟨tx, refs, h.1, ih h.2, rfl⟩

/-- **What acceptance says** about a payload that fits a frame. -/
theorem accepted_of_acceptBlock {c : Chain} (hgood : PoolGood S c.pool) {payload : Bytes}
    (hfit : payload.length + 2 < 2 ^ 32) {blk : Block}
    (h : acceptBlock S payload c = .ok blk) :
    ∃ sub refs, submission payload = some sub ∧ blk = sub.block S refs ∧
      Accepted S c sub refs := by
  obtain ⟨sub, refs, hcount, hpre, hresolve, rfl, hmerkle, hwork, hparent⟩ :=
    acceptBlock_eq_ok.mp h
  obtain ⟨htxids, hmem⟩ := resolve_eq_some hgood hresolve
  refine ⟨sub, refs, submission_eq_some hcount hpre, rfl, htxids, hmem, ?_, hmerkle, hwork,
    hparent⟩
  have hlen := hpre.length_le
  rw [sub.length_bytes, htxids, List.length_map] at hlen
  omega

namespace Accepted

variable {c : Chain} {sub : BlockSubmission} {refs : List Transaction}

theorem inputs_ne (h : Accepted S c sub refs) (hgood : PoolGood S c.pool) {tx : Transaction}
    (htx : tx ∈ refs) : tx.inputs ≠ [] := hgood.inputs_ne _ _ (h.inPool tx htx)

theorem constructed (h : Accepted S c sub refs) (hgood : PoolGood S c.pool) :
    ∀ tx ∈ sub.coinbase S :: refs, tx.Constructed S := by
  rw [List.forall_mem_cons]
  exact ⟨constructed_coinbase _ _ _, fun tx htx => hgood.constructed _ _ (h.inPool tx htx)⟩

/-- **An accepted block is good.** -/
theorem blockGood (h : Accepted S c sub refs) (hgood : PoolGood S c.pool) :
    BlockGood S (sub.block S refs) where
  hash := rfl
  merkle := rfl
  count := h.count
  constructed := h.constructed hgood
  shape := ⟨sub.coinbase S, refs, rfl, rfl, rfl, fun tx htx =>
    ⟨h.inputs_ne hgood htx, hgood.outputs_ne _ _ (h.inPool tx htx)⟩⟩

/-- Two different transactions of a block share no input. -/
theorem disjoint (h : Accepted S c sub refs) (hgood : PoolGood S c.pool) {tx tx' : Transaction}
    (htx : tx ∈ refs) (htx' : tx' ∈ refs) {op : OutPoint} (hop : op ∈ tx.inputs)
    (hop' : op ∈ tx'.inputs) : tx = tx' := by
  have hkey := hgood.disjoint _ _ _ _ op (h.inPool tx htx) (h.inPool tx' htx') hop hop'
  have hget := h.inPool tx htx
  rw [hkey, h.inPool tx' htx'] at hget
  exact (Option.some.inj hget).symm

end Accepted

/-! ### Adding a block -/

/-- The transactions of a block that are no coinbase. -/
def spending (txs : List Transaction) : List Transaction := txs.filter fun tx => !tx.isCoinbase

/-- The chain after the loop of `add_block`, when every write succeeded. -/
def Chain.mined (txs : List Transaction) (c : Chain) : Chain :=
  { c with
    toUtxoSet := txs.foldl UtxoSet.applyTx c.toUtxoSet
    poolSpent := FiniteMap.eraseAll c.poolSpent (txs.flatMap Transaction.inputs)
    pool := FiniteMap.eraseAll c.pool ((spending txs).map Transaction.txid)
    poolDb := FiniteMap.eraseAll c.poolDb (((spending txs).map Transaction.txid).map hexKey) }

/-- The chain after `add_block`, when every write succeeded. -/
def Chain.grown (blk : Block) (c : Chain) : Chain :=
  { c.mined blk.transactions with
    blocksDb := c.blocksDb.insert (blockKey (UInt32.ofNat c.blocks.length)) blk.serialize
    blocks := c.blocks ++ [blk]
    height := c.height + 1 }

theorem spending_cons_of_coinbase {tx : Transaction} (h : tx.isCoinbase = true)
    (txs : List Transaction) : spending (tx :: txs) = spending txs := by
  rw [spending, spending, List.filter_cons_of_neg]
  simp [h]

theorem spending_cons_of_not_coinbase {tx : Transaction} (h : ¬ tx.isCoinbase = true)
    (txs : List Transaction) : spending (tx :: txs) = tx :: spending txs := by
  rw [spending, spending, List.filter_cons_of_pos]
  simp [h]

theorem spending_eq_self {txs : List Transaction} (h : ∀ tx ∈ txs, tx.inputs ≠ []) :
    spending txs = txs := by
  refine List.filter_eq_self.mpr fun tx htx => ?_
  simp [Transaction.isCoinbase, h tx htx]

/-- The transactions of a good block without its coinbase. -/
theorem spending_block (sub : BlockSubmission) {refs : List Transaction}
    (h : ∀ tx ∈ refs, tx.inputs ≠ []) :
    spending (sub.block S refs).transactions = refs := by
  have hcb : (sub.coinbase S).isCoinbase = true := rfl
  exact (spending_cons_of_coinbase hcb refs).trans (spending_eq_self h)

/-- A coinbase is applied and nothing else. -/
theorem mineTxs_coinbase {tx : Transaction} (h : tx.isCoinbase = true) (txs : List Transaction)
    (io : List WriteStatus) (c : Chain) :
    c.mineTxs (tx :: txs) io =
      { c with toUtxoSet := c.toUtxoSet.applyTx tx }.mineTxs txs io := by
  rw [Chain.mineTxs, if_pos h]

/-- The chain after one other transaction, with the given pool database. -/
def Chain.minedOne (tx : Transaction) (poolDb : Db) (c : Chain) : Chain :=
  { c with
    toUtxoSet := c.toUtxoSet.applyTx tx
    poolSpent := FiniteMap.eraseAll c.poolSpent tx.inputs
    pool := c.pool.erase tx.txid
    poolDb := poolDb }

/-- Another transaction whose deletion succeeds. -/
theorem mineTxs_ok {tx : Transaction} (h : ¬ tx.isCoinbase = true) (txs : List Transaction)
    {io : List WriteStatus} (hio : io.headD .ok = .ok) (c : Chain) :
    c.mineTxs (tx :: txs) io =
      (c.minedOne tx (c.poolDb.erase (hexKey tx.txid))).mineTxs txs io.tail := by
  rw [Chain.mineTxs, if_neg h, hio]
  rfl

/-- Another transaction whose deletion fails. -/
theorem mineTxs_error {tx : Transaction} (h : ¬ tx.isCoinbase = true) (txs : List Transaction)
    {io : List WriteStatus} {what : String} {written : Bool}
    (hio : io.headD .ok = .error what written) (c : Chain) :
    ∃ text, c.mineTxs (tx :: txs) io =
      (c.minedOne tx ((WriteStatus.error what written).commit (c.poolDb.erase (hexKey tx.txid))
        c.poolDb), .error text) := by
  rw [Chain.mineTxs, if_neg h, hio]
  exact ⟨_, rfl⟩

/-- The loop of `add_block`, as long as the writes succeed. -/
theorem mineTxs_eq {txs : List Transaction} {io : List WriteStatus} {c : Chain}
    (h : ∀ status ∈ io.take (spending txs).length, status = .ok) :
    c.mineTxs txs io = (c.mined txs, .ok (io.drop (spending txs).length)) := by
  induction txs generalizing io c with
  | nil => rfl
  | cons tx txs ih =>
    by_cases hcb : tx.isCoinbase = true
    · have hinputs : tx.inputs = [] := List.isEmpty_iff.mp hcb
      rw [spending_cons_of_coinbase hcb] at h
      rw [mineTxs_coinbase hcb, ih h, spending_cons_of_coinbase hcb]
      simp only [Chain.mined, List.foldl_cons, List.flatMap_cons, hinputs, List.nil_append,
        spending_cons_of_coinbase hcb]
    · rw [spending_cons_of_not_coinbase hcb, List.length_cons] at h
      have hhead : io.headD .ok = .ok := by
        cases io with
        | nil => rfl
        | cons status io => exact h status (by simp)
      have htail : ∀ status ∈ io.tail.take (spending txs).length, status = .ok := by
        intro status hmem
        cases io with
        | nil => simp at hmem
        | cons s io => exact h status (List.mem_cons_of_mem _ hmem)
      rw [mineTxs_ok hcb txs hhead, ih htail, spending_cons_of_not_coinbase hcb, List.length_cons,
        List.drop_tail]
      simp only [Chain.mined, Chain.minedOne, List.foldl_cons, List.flatMap_cons,
        FiniteMap.eraseAll_append, spending_cons_of_not_coinbase hcb, List.map_cons,
        FiniteMap.eraseAll_cons]

/-- **`add_block` without a failing write.** -/
theorem addBlock_eq {blk : Block} {io : List WriteStatus} {c : Chain}
    (h : ∀ status ∈ io.take ((spending blk.transactions).length + 1), status = .ok) :
    c.addBlock blk io = (c.grown blk, .ok ()) := by
  have hloop : ∀ status ∈ io.take (spending blk.transactions).length, status = .ok :=
    fun status hmem => h status (List.take_subset_take_left _ (Nat.le_succ _) hmem)
  -- what is left of the statuses starts with that of the block
  have hlast : (io.drop (spending blk.transactions).length).headD .ok = .ok := by
    rw [List.headD_eq_head?_getD, List.head?_drop]
    cases hget : io[(spending blk.transactions).length]? with
    | none => rfl
    | some status =>
      apply h status
      rw [List.mem_iff_getElem?]
      refine ⟨(spending blk.transactions).length, ?_⟩
      rw [List.getElem?_take_of_lt (Nat.lt_succ_self _), hget]
  rw [Chain.addBlock, mineTxs_eq hloop]
  dsimp only
  rw [hlast]
  rfl

theorem addBlock_nil (blk : Block) (c : Chain) : c.addBlock blk [] = (c.grown blk, .ok ()) :=
  addBlock_eq (by simp)

end Axis
