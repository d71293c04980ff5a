import Axis.Restart

/-!
# Failing writes and crashes

`add_block` applies a transaction, erases it from the pool and deletes it from the
pool database before it goes on to the next one, and stores the block last.  Nothing
is undone when a write fails, and nothing ties the writes together when the process
stops between them.

## Main definitions

* `Chain.memory` — a chain without its databases.
* `blockWrites`, `crashImage` — the writes of `add_block` in their order, and the
  databases after some of them.
* `KeepsPool` — a restarted node still has every transaction of a pool.

## Main results

* `addBlock_atomic_iff` — **`add_block` is atomic only when no write fails.**
* `databases_addBlock_lost` — the databases after a lost write are a crash image.
* `boot_crashImage` — what the constructor builds of a crash image.
* `crash_keeps_iff` — **a crash keeps the pool only before the first or after the
  last write**, except for transactions that were confirmed before, and only when the
  constructor can print what it loads.
-/

namespace Axis

open Positional

variable {S : Sodium}

/-! ### Failing writes -/

/-- A chain without its databases. -/
def Chain.memory (c : Chain) : Chain := { c with blocksDb := ∅, poolDb := ∅ }

/-- The first status of a list is that of the next write. -/
theorem headD_cases (io : List WriteStatus) :
    io.headD .ok = .ok ∨ ∃ what written, io.headD .ok = .error what written := by
  cases io.headD .ok with
  | ok => exact Or.inl rfl
  | error what written => exact Or.inr ⟨what, written, rfl⟩

/-- The loop of `add_block` never adds to the pool. -/
theorem getElem?_pool_mineTxs {txs : List Transaction} {io : List WriteStatus} {c : Chain}
    {k : Hash} (h : c.pool[k]? = none) : (c.mineTxs txs io).1.pool[k]? = none := by
  induction txs generalizing io c with
  | nil => exact h
  | cons tx txs ih =>
    have herase : (c.pool.erase tx.txid)[k]? = none := by
      rw [FiniteMap.getElem?_erase_eq, h, ite_self]
    by_cases hcb : tx.isCoinbase = true
    · rw [mineTxs_coinbase hcb]
      exact ih h
    · rcases headD_cases io with hok | ⟨what, written, herr⟩
      · rw [mineTxs_ok hcb txs hok]
        exact ih herase
      · obtain ⟨text, heq⟩ := mineTxs_error hcb txs herr c
        rw [heq]
        exact herase

/-- A transaction whose turn came has left the pool, whatever the writes answered. -/
theorem getElem?_pool_mineTxs_cons {tx : Transaction} (hcb : ¬ tx.isCoinbase = true)
    (txs : List Transaction) (io : List WriteStatus) (c : Chain) :
    (c.mineTxs (tx :: txs) io).1.pool[tx.txid]? = none := by
  have herase : (c.pool.erase tx.txid)[tx.txid]? = none := by
    rw [FiniteMap.getElem?_erase_eq, if_pos rfl]
  rcases headD_cases io with hok | ⟨what, written, herr⟩
  · rw [mineTxs_ok hcb txs hok]
    exact getElem?_pool_mineTxs herase
  · obtain ⟨text, heq⟩ := mineTxs_error hcb txs herr c
    rw [heq]
    exact herase

/-- The loop leaves the blocks alone. -/
theorem blocks_mineTxs (txs : List Transaction) (io : List WriteStatus) (c : Chain) :
    (c.mineTxs txs io).1.blocks = c.blocks ∧ (c.mineTxs txs io).1.height = c.height := by
  induction txs generalizing io c with
  | nil => exact ⟨rfl, rfl⟩
  | cons tx txs ih =>
    by_cases hcb : tx.isCoinbase = true
    · rw [mineTxs_coinbase hcb]
      exact ih io _
    · rcases headD_cases io with hok | ⟨what, written, herr⟩
      · rw [mineTxs_ok hcb txs hok]
        exact ih io.tail _
      · obtain ⟨text, heq⟩ := mineTxs_error hcb txs herr c
        rw [heq]
        exact ⟨rfl, rfl⟩

/-- What follows the loop changes the blocks and their database alone. -/
theorem fst_addBlock (blk : Block) (io : List WriteStatus) (c : Chain) :
    ∃ blocks height blocksDb, (c.addBlock blk io).1 =
      { (c.mineTxs blk.transactions io).1 with
        blocks := blocks, height := height, blocksDb := blocksDb } := by
  rw [Chain.addBlock]
  rcases c.mineTxs blk.transactions io with ⟨c', what | io'⟩
  · exact ⟨c'.blocks, c'.height, c'.blocksDb, rfl⟩
  · dsimp only
    unfold Chain.storeBlock
    cases io'.headD .ok with
    | ok => exact ⟨_, _, _, rfl⟩
    | error what written => exact ⟨c'.blocks, c'.height, _, rfl⟩

/-- One more output makes the list of an address longer. -/
theorem addressUtxo_create_ne (u : UtxoSet) (op : OutPoint) (out : TxOutput) :
    (u.create op out).addressUtxo ≠ u.addressUtxo := by
  intro heq
  have hget : (u.create op out).addressUtxo[out.recipient]? =
      some (u.addressUtxo[out.recipient]?.getD [] ++ [op]) := by
    rw [UtxoSet.create, FiniteMap.getElem?_insert_eq, if_pos rfl]
  rw [heq] at hget
  -- the list of the recipient would have to be longer than itself
  cases hold : u.addressUtxo[out.recipient]? with
  | none =>
    rw [hold] at hget
    cases hget
  | some vec =>
    rw [hold] at hget
    have hlen := congrArg List.length (Option.some.inj hget)
    simp at hlen

/-- **After `add_block`, memory has changed**, whatever the writes answered: the first
reference has left the pool, or the coinbase is in the address index. -/
theorem memory_addBlock_ne {c : Chain} (hbase : Base S c) {sub : BlockSubmission}
    {refs : List Transaction} (ha : Accepted S c sub refs) (io : List WriteStatus) :
    (c.addBlock (sub.block S refs) io).1.memory ≠ c.memory := by
  intro hmem
  obtain ⟨blocks, height, blocksDb, heq⟩ := fst_addBlock (sub.block S refs) io c
  have hpool := congrArg (fun c : Chain => c.pool) heq
  have hindex := congrArg (fun c : Chain => c.addressUtxo) heq
  dsimp only at hpool hindex
  -- the coinbase comes first and takes no status
  have hloop : c.mineTxs (sub.block S refs).transactions io =
      { c with toUtxoSet := c.toUtxoSet.applyTx (sub.coinbase S) }.mineTxs refs io :=
    mineTxs_coinbase rfl refs io c
  rw [hloop] at hpool hindex
  cases refs with
  | nil =>
    have hsame := congrArg (fun c : Chain => c.addressUtxo) hmem
    exact addressUtxo_create_ne _ _ _ (hindex.symm.trans hsame)
  | cons tx refs =>
    have hcb : ¬ tx.isCoinbase = true := by
      intro h
      exact ha.inputs_ne hbase.pool.good List.mem_cons_self (List.isEmpty_iff.mp h)
    have hsame := congrArg (fun c : Chain => c.pool[tx.txid]?) hmem
    have hgone := getElem?_pool_mineTxs_cons hcb refs io
      { c with toUtxoSet := c.toUtxoSet.applyTx (sub.coinbase S) }
    rw [← hpool] at hgone
    have hin : c.pool[tx.txid]? = none := hsame.symm.trans hgone
    rw [ha.inPool tx List.mem_cons_self] at hin
    cases hin

/-- The loop throws when one of its writes fails. -/
theorem mineTxs_throws {txs : List Transaction} {io : List WriteStatus} {c : Chain}
    {status : WriteStatus} (hmem : status ∈ io.take (spending txs).length)
    (hbad : status ≠ .ok) : ∃ c' what, c.mineTxs txs io = (c', .error what) := by
  induction txs generalizing io c with
  | nil => simp [spending] at hmem
  | cons tx txs ih =>
    by_cases hcb : tx.isCoinbase = true
    · rw [spending_cons_of_coinbase hcb] at hmem
      rw [mineTxs_coinbase hcb]
      exact ih hmem
    · rw [spending_cons_of_not_coinbase hcb, List.length_cons] at hmem
      rcases headD_cases io with hok | ⟨what, written, herr⟩
      · rw [mineTxs_ok hcb txs hok]
        apply ih
        cases io with
        | nil => simp at hmem
        | cons s io =>
          rw [List.take_succ_cons] at hmem
          rcases List.mem_cons.mp hmem with rfl | htail
          · exact absurd hok hbad
          · exact htail
      · obtain ⟨text, heq⟩ := mineTxs_error hcb txs herr c
        exact ⟨_, text, heq⟩

/-- `add_block` throws exactly when one of its writes fails: a deletion for every
transaction but the coinbase, and the write of the block. -/
theorem addBlock_throws_iff {blk : Block} {io : List WriteStatus} {c : Chain} :
    (∃ what, (c.addBlock blk io).2 = .error what) ↔
      ∃ status ∈ io.take ((spending blk.transactions).length + 1), status ≠ .ok := by
  constructor
  · rintro ⟨what, hthrow⟩
    by_contra hall
    push Not at hall
    rw [addBlock_eq hall] at hthrow
    cases hthrow
  · rintro ⟨status, hmem, hbad⟩
    by_cases hloop : ∃ s ∈ io.take (spending blk.transactions).length, s ≠ .ok
    · obtain ⟨s, hs, hsbad⟩ := hloop
      obtain ⟨c', what, heq⟩ := mineTxs_throws (c := c) hs hsbad
      refine ⟨what, ?_⟩
      rw [Chain.addBlock, heq]
    · -- the loop ran to its end, so it is the block that is not stored
      push Not at hloop
      have hlast : (io.drop (spending blk.transactions).length).headD .ok = status := by
        rw [List.take_add_one, List.mem_append] at hmem
        rcases hmem with hin | hin
        · exact absurd (hloop status hin) hbad
        · rw [List.headD_eq_head?_getD, List.head?_drop]
          rw [Option.mem_toList] at hin
          rw [hin]
          rfl
      cases status with
      | ok => exact absurd rfl hbad
      | error what written =>
        rw [Chain.addBlock, mineTxs_eq hloop]
        dsimp only
        rw [hlast]
        exact ⟨_, rfl⟩

/-- **`add_block` is atomic only when no write fails.**  For an accepted block, memory
is unchanged by a call that throws, and the UTXO set is the replay of the blocks, if
and only if no write of the call fails. -/
theorem addBlock_atomic_iff {c : Chain} (h : Reachable S anyOp c) (payload : FramePayload)
    {blk : Block} (haccept : acceptBlock S payload.bytes c = .ok blk) (io : List WriteStatus) :
    ((∃ what, (c.addBlock blk io).2 = .error what) →
      (c.addBlock blk io).1.memory = c.memory ∧
        (c.addBlock blk io).1.rebuildUtxo.toUtxoSet = (c.addBlock blk io).1.toUtxoSet) ↔
      ∀ status ∈ io.take blk.transactions.length, status = .ok := by
  have hbase := base_of_reachable h
  obtain ⟨sub, refs, -, rfl, ha⟩ := accepted_of_acceptBlock hbase.pool.good payload.fits haccept
  -- the block takes the place of the coinbase in the count of the writes
  have hwrites : (spending (sub.block S refs).transactions).length + 1 =
      (sub.block S refs).transactions.length := by
    rw [spending_block sub fun tx htx => ha.inputs_ne hbase.pool.good htx]
    rfl
  constructor
  · intro hatomic
    by_contra hbad
    push Not at hbad
    rw [← hwrites] at hbad
    exact memory_addBlock_ne hbase ha io (hatomic (addBlock_throws_iff.mpr hbad)).1
  · intro hall hthrow
    rw [← hwrites] at hall
    obtain ⟨status, hmem, hbad⟩ := addBlock_throws_iff.mp hthrow
    exact absurd (hall status hmem) hbad

/-- The second deletion of a block fails. -/
def Sample.failing : List WriteStatus := [.ok, .error "IO error" false]

/-- The equivalence for the third block of the sample run, and a failing write. -/
theorem addBlock_atomic_setup : ∃ c blk, run Sample.sodium Sample.setup = .ok c ∧
    acceptBlock Sample.sodium Sample.submission₃.bytes c = .ok blk ∧
    (((∃ what, (c.addBlock blk Sample.failing).2 = .error what) →
      (c.addBlock blk Sample.failing).1.memory = c.memory ∧
        (c.addBlock blk Sample.failing).1.rebuildUtxo.toUtxoSet =
          (c.addBlock blk Sample.failing).1.toUtxoSet) ↔
      ∀ status ∈ Sample.failing.take blk.transactions.length, status = .ok) := by
  obtain ⟨c, blk, hrun, hreach, haccept, -⟩ := exists_accepted (S := Sample.sodium) Sample.setup
    Sample.submission₃ (fun _ _ => True) (by decide +kernel)
  exact ⟨c, blk, hrun, haccept, addBlock_atomic_iff hreach _ haccept _⟩

/-- **A failing write leaves memory between two states**: both payments have left the
pool, and the UTXO set is not the replay of the blocks. -/
theorem addBlock_not_atomic : ∃ c blk, run Sample.sodium Sample.setup = .ok c ∧
    Reachable Sample.sodium anyOp c ∧
    acceptBlock Sample.sodium Sample.submission₃.bytes c = .ok blk ∧
    (∃ what, (c.addBlock blk Sample.failing).2 = .error what) ∧
    (c.addBlock blk Sample.failing).1.pool ≠ c.pool ∧
    (c.addBlock blk Sample.failing).1.rebuildUtxo.utxo ≠
      (c.addBlock blk Sample.failing).1.utxo := by
  obtain ⟨c, blk, hrun, hreach, haccept, ⟨hin, hout⟩, hreplay, hutxo, hlen⟩ :=
    exists_accepted (S := Sample.sodium) Sample.setup Sample.submission₃
      (fun c blk => (Sample.tx₁ ∈ c.pool ∧
          Sample.tx₁ ∉ (c.addBlock blk Sample.failing).1.pool) ∧
        ⟨Sample.cb₁, 0⟩ ∈ (c.addBlock blk Sample.failing).1.rebuildUtxo.utxo ∧
        ⟨Sample.cb₁, 0⟩ ∉ (c.addBlock blk Sample.failing).1.utxo ∧
        (spending blk.transactions).length = 2) (by decide +kernel)
  refine ⟨c, blk, hrun, hreach, haccept, addBlock_throws_iff.mpr ?_, ?_, ?_⟩
  · rw [hlen]
    exact ⟨.error "IO error" false, by simp [Sample.failing], by simp⟩
  · intro heq
    exact hout (heq ▸ hin)
  · intro heq
    exact hutxo (heq ▸ hreplay)

/-! ### Crashes -/

/-- A write to one of the two databases. -/
inductive DbWrite
  | deletePool (key : Bytes)
  | putBlock (key value : Bytes)

/-- The block database and the pool database after a write. -/
def DbWrite.apply (dbs : Db × Db) : DbWrite → Db × Db
  | .deletePool key => (dbs.1, dbs.2.erase key)
  | .putBlock key value => (dbs.1.insert key value, dbs.2)

/-- The writes of `add_block`, in their order. -/
def blockWrites (blk : Block) (c : Chain) : List DbWrite :=
  ((spending blk.transactions).map fun tx => .deletePool (hexKey tx.txid)) ++
    [.putBlock (blockKey (UInt32.ofNat c.blocks.length)) blk.serialize]

/-- The databases when the process stops after `j` writes of `add_block`. -/
def crashImage (blk : Block) (j : ℕ) (c : Chain) : Db × Db :=
  ((blockWrites blk c).take j).foldl DbWrite.apply (c.blocksDb, c.poolDb)

theorem length_blockWrites (blk : Block) (c : Chain) :
    (blockWrites blk c).length = (spending blk.transactions).length + 1 := by
  rw [blockWrites, List.length_append, List.length_map, List.length_singleton]

theorem foldl_deletePool (txs : List Transaction) (dbs : Db × Db) :
    (txs.map fun tx => DbWrite.deletePool (hexKey tx.txid)).foldl DbWrite.apply dbs =
      (dbs.1, FiniteMap.eraseAll dbs.2 ((txs.map Transaction.txid).map hexKey)) := by
  induction txs generalizing dbs with
  | nil => rfl
  | cons tx txs ih =>
    rw [List.map_cons, List.foldl_cons, ih]
    rfl

/-- Before the last write, only deletions happened. -/
theorem crashImage_of_le {blk : Block} {j : ℕ} (hj : j ≤ (spending blk.transactions).length)
    (c : Chain) :
    crashImage blk j c = (c.blocksDb, FiniteMap.eraseAll c.poolDb
      ((((spending blk.transactions).take j).map Transaction.txid).map hexKey)) := by
  rw [crashImage, blockWrites, List.take_append_of_le_length (by rwa [List.length_map]),
    ← List.map_take, foldl_deletePool]

/-- After the last write, the databases are those of the grown chain. -/
theorem crashImage_all (blk : Block) (c : Chain) :
    crashImage blk (blockWrites blk c).length c =
      ((c.grown blk).blocksDb, (c.grown blk).poolDb) := by
  rw [crashImage, List.take_length, blockWrites, List.foldl_append, foldl_deletePool]
  rfl

/-- The loop of `add_block` when the write after `j` successful ones is lost. -/
theorem databases_mineTxs_lost {txs : List Transaction} {j : ℕ} (hj : j < (spending txs).length)
    (what : String) (c : Chain) :
    ∃ c' text, c.mineTxs txs (List.replicate j WriteStatus.ok ++ [.error what false]) =
        (c', .error text) ∧
      c'.blocksDb = c.blocksDb ∧
      c'.poolDb = FiniteMap.eraseAll c.poolDb
        ((((spending txs).take j).map Transaction.txid).map hexKey) := by
  induction txs generalizing j c with
  | nil => simp [spending] at hj
  | cons tx txs ih =>
    by_cases hcb : tx.isCoinbase = true
    · rw [spending_cons_of_coinbase hcb] at hj ⊢
      rw [mineTxs_coinbase hcb]
      exact ih hj _
    · rw [spending_cons_of_not_coinbase hcb, List.length_cons] at hj
      cases j with
      | zero =>
        have hfirst : [WriteStatus.error what false].headD .ok = .error what false := rfl
        obtain ⟨text, heq⟩ := mineTxs_error hcb txs hfirst c
        exact ⟨_, text, heq, rfl, rfl⟩
      | succ j =>
        rw [mineTxs_ok hcb txs rfl, spending_cons_of_not_coinbase hcb]
        obtain ⟨c', text, heq, hblocks, hpool⟩ := ih (Nat.lt_of_succ_lt_succ hj)
          (c.minedOne tx (c.poolDb.erase (hexKey tx.txid)))
        exact ⟨c', text, heq, hblocks, hpool⟩

/-- **A crash image is what a lost write leaves**: when the write after `j` successful
ones fails without reaching the database, the databases are the crash image after
`j` writes. -/
theorem databases_addBlock_lost {blk : Block} {c : Chain} {j : ℕ}
    (hj : j < (blockWrites blk c).length) (what : String) :
    let c' := (c.addBlock blk (List.replicate j WriteStatus.ok ++ [.error what false])).1
    (c'.blocksDb, c'.poolDb) = crashImage blk j c := by
  intro c'
  rw [length_blockWrites] at hj
  rw [crashImage_of_le (by omega)]
  rcases Nat.lt_or_ge j (spending blk.transactions).length with hlt | hge
  · obtain ⟨c'', text, heq, hblocks, hpool⟩ := databases_mineTxs_lost hlt what c
    have hc' : c' = c'' := by
      show (c.addBlock blk _).1 = c''
      rw [Chain.addBlock, heq]
    rw [hc', hblocks, hpool]
  · -- the deletions are over, and the block was not stored
    have hjeq : j = (spending blk.transactions).length := by omega
    have hloop : ∀ status ∈ (List.replicate j WriteStatus.ok ++ [WriteStatus.error what false]).take
        (spending blk.transactions).length, status = .ok := by
      intro status hmem
      rw [← hjeq, List.take_left' List.length_replicate] at hmem
      exact List.eq_of_mem_replicate hmem
    have hc' : c' = c.mined blk.transactions := by
      show (c.addBlock blk _).1 = _
      rw [Chain.addBlock, mineTxs_eq hloop, ← hjeq, List.drop_left' List.length_replicate]
      rfl
    rw [hc', hjeq, List.take_length]
    rfl

/-- The restarted node still has every transaction of the pool, in its own pool or in
one of its blocks. -/
def KeepsPool (c c' : Chain) : Prop :=
  ∀ (k : Hash) (tx : Transaction), c.pool[k]? = some tx →
    c'.pool[k]? = some tx ∨ ∃ blk ∈ c'.blocks, tx ∈ blk.transactions

/-- The transaction is in a block of the block database. -/
def Confirmed (S : Sodium) (c : Chain) (tx : Transaction) : Prop :=
  ∃ blk, BlockGood S blk ∧ StoredBlock c.blocksDb blk ∧ tx ∈ blk.transactions

/-- What a restart finds after the deletions of some transactions and nothing else. -/
theorem keepsPool_deleted_iff {c c' : Chain} {deleted : List Transaction}
    (hdeleted : ∀ tx ∈ deleted, c.pool[tx.txid]? = some tx)
    (hpool : c'.pool = FiniteMap.eraseAll c.pool (deleted.map Transaction.txid))
    (hgood : ∀ blk ∈ c'.blocks, BlockGood S blk)
    (hblocks : ∀ blk, BlockGood S blk → (blk ∈ c'.blocks ↔ StoredBlock c.blocksDb blk)) :
    KeepsPool c c' ↔ ∀ tx ∈ deleted, Confirmed S c tx := by
  constructor
  · intro hkeeps tx htx
    rcases hkeeps tx.txid tx (hdeleted tx htx) with hin | ⟨blk, hblk, hmem⟩
    · rw [hpool, FiniteMap.getElem?_eraseAll, if_pos (List.mem_map_of_mem htx)] at hin
      cases hin
    · exact ⟨blk, hgood blk hblk, (hblocks blk (hgood blk hblk)).mp hblk, hmem⟩
  · intro hconf k tx hk
    -- a deleted transaction is gone from the pool, and any other is still there
    by_cases hmem : k ∈ deleted.map Transaction.txid
    · obtain ⟨t, ht, rfl⟩ := List.mem_map.mp hmem
      rw [hdeleted t ht] at hk
      obtain ⟨blk, hblk, hstored, hin⟩ := hconf t ht
      rw [← Option.some.inj hk]
      exact Or.inr ⟨blk, (hblocks blk hblk).mpr hstored, hin⟩
    · refine Or.inl ?_
      rw [hpool, FiniteMap.getElem?_eraseAll, if_neg hmem, hk]

/-- After all writes, a restart finds the block. -/
theorem keepsPool_grown {c c' : Chain} (hbase : Base S c) {sub : BlockSubmission}
    {refs : List Transaction} (ha : Accepted S c sub refs)
    (hpool : c'.pool = (c.grown (sub.block S refs)).pool)
    (hblk : sub.block S refs ∈ c'.blocks) : KeepsPool c c' := by
  intro k tx hk
  have hspending : spending (sub.block S refs).transactions = refs :=
    spending_block sub fun tx htx => ha.inputs_ne hbase.pool.good htx
  -- a transaction of the block is in the chain, and any other is still in the pool
  by_cases hmem : k ∈ refs.map Transaction.txid
  · obtain ⟨t, ht, rfl⟩ := List.mem_map.mp hmem
    rw [ha.inPool t ht] at hk
    rw [← Option.some.inj hk]
    exact Or.inr ⟨_, hblk, List.mem_cons_of_mem _ ht⟩
  · refine Or.inl ?_
    rw [hpool]
    show (FiniteMap.eraseAll c.pool
      ((spending (sub.block S refs).transactions).map Transaction.txid))[k]? = some tx
    rw [hspending, FiniteMap.getElem?_eraseAll, if_neg hmem, hk]

/-- What the constructor builds of a crash image before it prints it: the blocks that are
stored, and the pool up to the deletions that were made. -/
theorem boot_crashImage {c : Chain} (h : Reachable S anyOp c) (payload : FramePayload)
    {blk : Block} (haccept : acceptBlock S payload.bytes c = .ok blk) {j : ℕ}
    (hj : j ≤ (blockWrites blk c).length) :
    ∃ c', boot S .ok (crashImage blk j c).1 (crashImage blk j c).2 = .ok c' ∧
      (∀ b ∈ c'.blocks, BlockGood S b) ∧
      (∀ b, BlockGood S b → (b ∈ c'.blocks ↔ StoredBlock (crashImage blk j c).1 b)) ∧
      (KeepsPool c c' ↔ j = (blockWrites blk c).length ∨
        ∀ tx ∈ (spending blk.transactions).take j, Confirmed S c tx) := by
  have hbase := base_of_reachable h
  obtain ⟨sub, refs, -, rfl, ha⟩ := accepted_of_acceptBlock hbase.pool.good payload.fits haccept
  have hspending : spending (sub.block S refs).transactions = refs :=
    spending_block sub fun tx htx => ha.inputs_ne hbase.pool.good htx
  rcases Nat.lt_or_ge j (blockWrites (sub.block S refs) c).length with hlt | hge
  · -- the block is not stored
    rw [length_blockWrites] at hlt
    have hdeleted : ∀ tx ∈ (spending (sub.block S refs).transactions).take j,
        c.pool[tx.txid]? = some tx := by
      intro tx htx
      rw [hspending] at htx
      exact ha.inPool tx (List.mem_of_mem_take htx)
    obtain ⟨c', hboot, hbase', hpool, -, -, -, hblocks⟩ := Base.of_boot hbase.goodDb hbase.keys
      (List.length_pos_iff.mpr hbase.blocks_ne)
      (hbase.pool.good.eraseAll
        (((spending (sub.block S refs).transactions).take j).map Transaction.txid))
      (hbase.pool.stored.eraseAll
        (((spending (sub.block S refs).transactions).take j).map Transaction.txid)) .ok
    rw [crashImage_of_le (by omega)]
    refine ⟨c', hboot, hbase'.good, hblocks, ?_⟩
    rw [keepsPool_deleted_iff hdeleted hpool hbase'.good hblocks, length_blockWrites]
    constructor
    · exact Or.inr
    · rintro (hall | hconf)
      · omega
      · exact hconf
  · -- all writes were made
    have hall : j = (blockWrites (sub.block S refs) c).length := le_antisymm hj hge
    have hgrown := hbase.grown ha
    obtain ⟨c', hboot, hbase', hpool, -, -, -, hblocks⟩ := Base.of_boot hgrown.goodDb hgrown.keys
      (List.length_pos_iff.mpr hgrown.blocks_ne) hgrown.pool.good hgrown.pool.stored .ok
    rw [hall, crashImage_all]
    refine ⟨c', hboot, hbase'.good, hblocks,
      iff_of_true (keepsPool_grown hbase ha hpool ?_) (Or.inl rfl)⟩
    refine (hblocks _ (ha.blockGood hbase.pool.good)).mpr
      ⟨blockKey (UInt32.ofNat c.blocks.length), ?_⟩
    show (c.blocksDb.insert _ _)[_]? = _
    rw [FiniteMap.getElem?_insert_eq, if_pos rfl]

/-- **What a crash keeps.**  When the process stops after `j` writes of `add_block`, a node
is started from the databases and still has every transaction of the pool if and only if the
blocks of the database are printable, and all writes were made or every transaction deleted
so far was confirmed before. -/
theorem crash_keeps_iff {c : Chain} (h : Reachable S anyOp c) (payload : FramePayload)
    {blk : Block} (haccept : acceptBlock S payload.bytes c = .ok blk) {j : ℕ}
    (hj : j ≤ (blockWrites blk c).length) :
    (∃ c', bootPrinted S .ok (crashImage blk j c).1 (crashImage blk j c).2 = some (.ok c') ∧
      KeepsPool c c') ↔
      PrintableDb S (crashImage blk j c).1 ∧ (j = (blockWrites blk c).length ∨
        ∀ tx ∈ (spending blk.transactions).take j, Confirmed S c tx) := by
  obtain ⟨c', hboot, hgood, hblocks, hkeeps⟩ := boot_crashImage h payload haccept hj
  -- what is printed is what is stored
  have hprint : (∀ b ∈ c'.blocks, b.header.timestamp.Printable) ↔
      PrintableDb S (crashImage blk j c).1 := by
    constructor
    · exact fun hall b hb hstored => hall b ((hblocks b hb).mpr hstored)
    · exact fun hall b hb => hall b (hgood b hb) ((hblocks b (hgood b hb)).mp hb)
  rw [← hprint, ← hkeeps]
  constructor
  · intro hex
    obtain ⟨c'', hprinted, hkept⟩ := hex
    obtain ⟨hboot', hall⟩ := bootPrinted_eq_ok_iff.mp hprinted
    obtain rfl := Except.ok.inj (hboot.symm.trans hboot')
    exact ⟨hall, hkept⟩
  · rintro ⟨hall, hkept⟩
    exact ⟨c', bootPrinted_eq_ok_iff.mpr ⟨hboot, hall⟩, hkept⟩

/-- The equivalence for the third block of the sample run, between its first write and
its second. -/
theorem crash_keeps_setup : ∃ c blk, run Sample.sodium Sample.setup = .ok c ∧
    acceptBlock Sample.sodium Sample.submission₃.bytes c = .ok blk ∧
    ((∃ c', bootPrinted Sample.sodium .ok (crashImage blk 1 c).1 (crashImage blk 1 c).2 =
        some (.ok c') ∧ KeepsPool c c') ↔
      PrintableDb Sample.sodium (crashImage blk 1 c).1 ∧ (1 = (blockWrites blk c).length ∨
        ∀ tx ∈ (spending blk.transactions).take 1, Confirmed Sample.sodium c tx)) := by
  obtain ⟨c, blk, hrun, hreach, haccept, hlen⟩ := exists_accepted (S := Sample.sodium)
    Sample.setup Sample.submission₃ (fun c blk => 1 ≤ (blockWrites blk c).length)
    (by decide +kernel)
  exact ⟨c, blk, hrun, haccept, crash_keeps_iff hreach _ haccept hlen⟩

/-- **A crash loses a transaction**: after the first write of the third block, the node starts
again, and the first payment is neither in its pool nor in a block. -/
theorem crash_loses_payment : ∃ c blk c', run Sample.sodium Sample.setup = .ok c ∧
    Reachable Sample.sodium anyOp c ∧
    acceptBlock Sample.sodium Sample.submission₃.bytes c = .ok blk ∧
    bootPrinted Sample.sodium .ok (crashImage blk 1 c).1 (crashImage blk 1 c).2 =
      some (.ok c') ∧
    ¬ KeepsPool c c' := by
  obtain ⟨c, blk, hrun, hreach, haccept, hboot⟩ := exists_accepted (S := Sample.sodium)
    Sample.setup Sample.submission₃
    (fun c blk => Transition.Ok (fun c' => c.pool[Sample.tx₁]? =
        some (Sample.pay₁.signed Sample.sodium).tx ∧ Sample.tx₁ ∉ c'.pool ∧
        (∀ blk ∈ c'.blocks, (Sample.pay₁.signed Sample.sodium).tx ∉ blk.transactions) ∧
        ∀ blk ∈ c'.blocks, blk.header.timestamp.Printable)
      (boot Sample.sodium .ok (crashImage blk 1 c).1 (crashImage blk 1 c).2)) (by decide +kernel)
  obtain ⟨c', hc', hin, hout, hblocks, hprint⟩ := Transition.ok_iff.mp hboot
  refine ⟨c, blk, c', hrun, hreach, haccept, bootPrinted_eq_ok_iff.mpr ⟨hc', hprint⟩,
    fun hkeeps => ?_⟩
  rcases hkeeps _ _ hin with hpool | ⟨b, hb, hmem⟩
  · exact hout ((FiniteMap.mem_iff_exists _ _).mpr ⟨_, hpool⟩)
  · exact hblocks b hb hmem

end Axis
