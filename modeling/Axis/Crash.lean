import Axis.Failure

/-!
# Runs with crashes

The process may stop between any two writes of an operation, and is started again on what its
databases hold then.  A crash of `add_tx` falls before or after its one write; a crash of
`add_block` falls between the deletions, or before or after the write of the block.  The
constructor writes over an empty block database only, so a restart issues no write.  Runs are
those of constructors that do not print; which of them go on with their printing is said of
the blocks.

## Main definitions

* `opWrites`, `crashed` — the writes of an operation, and the databases after some of them.
* `Chain.without` — a chain that lost transactions of its pool.
* `Fault`, `stepFault` — operations and crashes.
* `Sound` — the invariants of a node that restarts in range.

## Main results

* `opWrites_step` — an operation that is not interrupted makes all of its writes.
* `crash_cases` — **what a restarted node finds after a crash.**
* `crashes_recover` — **every run with crashes goes on**, as far as its blocks are printable,
  is sound, and loses no block.
-/

namespace Axis

open Positional

variable {S : Sodium}

/-! ### The writes of an operation -/

/-- A write of an operation: of a transaction of the pool, or one of `add_block`. -/
inductive OpWrite
  | putPool (key value : Bytes)
  | block (write : DbWrite)

def OpWrite.apply (dbs : Db × Db) : OpWrite → Db × Db
  | .putPool key value => (dbs.1, dbs.2.insert key value)
  | .block write => write.apply dbs

/-- The writes of `add_tx`: none when a check fails. -/
def txWrites (S : Sodium) (st : SignedTransaction) (c : Chain) : List OpWrite :=
  match c.checkTx S st with
  | .error _ => []
  | .ok () => [.putPool (hexKey st.tx.txid) st.tx.serialize]

/-- The writes of an operation, in their order. -/
def opWrites (S : Sodium) : Op → Chain → List OpWrite
  | .createTx payload, c =>
    match parseCreateTxPayload.run ⟨payload.bytes, 0⟩ with
    | .error _ => []
    | .ok (parsed, _) => txWrites S (parsed.signed S) c
  | .postTx raw, c =>
    match parseSignedTransactionPayload S raw.bytes with
    | .error _ => []
    | .ok st => txWrites S st c
  | .createBlock payload, c =>
    match acceptBlock S payload.bytes c with
    | .error _ => []
    | .ok blk => (blockWrites blk c).map .block
  | .restart, _ => []

/-- The databases when the process stops after some writes of an operation. -/
def crashed (S : Sodium) (op : Op) (writes : ℕ) (c : Chain) : Db × Db :=
  ((opWrites S op c).take writes).foldl OpWrite.apply (c.blocksDb, c.poolDb)

theorem foldl_block (ws : List DbWrite) (dbs : Db × Db) :
    (ws.map OpWrite.block).foldl OpWrite.apply dbs = ws.foldl DbWrite.apply dbs :=
  List.foldl_map

theorem txWrites_of_valid {st : SignedTransaction} {c : Chain} (h : Chain.Valid S st c) :
    txWrites S st c = [.putPool (hexKey st.tx.txid) st.tx.serialize] := by
  rw [txWrites, Chain.checkTx_eq_ok_iff.mpr h]

/-- What an operation may write, and what it then does: nothing, the one write of an admitted
transaction, or the writes of an accepted block. -/
theorem opWrites_cases {c : Chain} (hgood : PoolGood S c.pool) (op : Op) :
    (opWrites S op c = [] ∧ (op ≠ .restart → step S op c = .ok c)) ∨
    (∃ st, Chain.Valid S st c ∧ st.tx.Constructed S ∧
      opWrites S op c = [.putPool (hexKey st.tx.txid) st.tx.serialize] ∧
      step S op c = .ok (c.admitTx st.tx .ok).1) ∨
    (∃ payload sub refs, op = .createBlock payload ∧ submission payload.bytes = some sub ∧
      Accepted S c sub refs ∧
      opWrites S op c = (blockWrites (sub.block S refs) c).map .block ∧
      step S op c = .ok (c.grown (sub.block S refs))) := by
  -- both protocols end in `add_tx`
  have htx : ∀ st : SignedTransaction, st.tx.Constructed S →
      (txWrites S st c = [] ∧ (c.addTx S st .ok).1 = c) ∨
      (∃ st', Chain.Valid S st' c ∧ st'.tx.Constructed S ∧
        txWrites S st c = [.putPool (hexKey st'.tx.txid) st'.tx.serialize] ∧
        (c.addTx S st .ok).1 = (c.admitTx st'.tx .ok).1) := by
    intro st hc
    cases hcheck : c.checkTx S st with
    | error err => exact Or.inl ⟨by rw [txWrites, hcheck], by rw [Chain.addTx, hcheck]⟩
    | ok u =>
      have hv := Chain.checkTx_eq_ok_iff.mp hcheck
      exact Or.inr ⟨st, hv, hc, txWrites_of_valid hv, by rw [Chain.addTx_ok hv]⟩
  cases op with
  | createTx payload =>
    dsimp only [opWrites, step]
    cases hrun : parseCreateTxPayload.run ⟨payload.bytes, 0⟩ with
    | error what =>
      refine Or.inl ⟨rfl, fun _ => ?_⟩
      rw [onCreateTx, hrun]
    | ok p =>
      obtain ⟨parsed, r⟩ := p
      have hfst : (onCreateTx S payload.bytes .ok c).1 = (c.addTx S (parsed.signed S) .ok).1 := by
        rw [onCreateTx, hrun]
        dsimp only
        rcases c.addTx S (parsed.signed S) .ok with ⟨c', what | err⟩ <;> rfl
      rw [hfst]
      rcases htx _ (constructed_signed payload.fits hrun) with ⟨hnone, hsame⟩ |
        ⟨st, hv, hc, hwrites, hadded⟩
      · exact Or.inl ⟨hnone, fun _ => by rw [hsame]⟩
      · exact Or.inr (Or.inl ⟨st, hv, hc, hwrites, by rw [hadded]⟩)
  | postTx raw =>
    dsimp only [opWrites, step]
    cases hparse : parseSignedTransactionPayload S raw.bytes with
    | error what =>
      refine Or.inl ⟨rfl, fun _ => ?_⟩
      rw [postTransaction, hparse]
    | ok st =>
      rw [fst_postTransaction_of_parse hparse]
      -- what parses was constructed
      have hc : st.tx.Constructed S := by
        cases hrun : parseCreateTxPayload.run ⟨raw.bytes, 0⟩ with
        | error what =>
          rw [parseSignedTransactionPayload_error hrun] at hparse
          cases hparse
        | ok p =>
          obtain ⟨parsed, r⟩ := p
          rw [parseSignedTransactionPayload_ok hrun] at hparse
          split at hparse
          · cases hparse
          · have hfit := raw.fits
            rw [← Except.ok.inj hparse]
            exact constructed_signed (by omega) hrun
      rcases htx st hc with ⟨hnone, hsame⟩ | ⟨st', hv, hc', hwrites, hadded⟩
      · exact Or.inl ⟨hnone, fun _ => by rw [hsame]⟩
      · exact Or.inr (Or.inl ⟨st', hv, hc', hwrites, by rw [hadded]⟩)
  | createBlock payload =>
    dsimp only [opWrites, step]
    cases haccept : acceptBlock S payload.bytes c with
    | error e =>
      refine Or.inl ⟨rfl, fun _ => ?_⟩
      rw [onCreateBlock, haccept]
    | ok blk =>
      obtain ⟨sub, refs, hsub, rfl, ha⟩ := accepted_of_acceptBlock hgood payload.fits haccept
      refine Or.inr (Or.inr ⟨payload, sub, refs, rfl, hsub, ha, rfl, ?_⟩)
      rw [onCreateBlock, haccept]
      dsimp only
      rw [addBlock_nil]
  | restart => exact Or.inl ⟨rfl, fun hne => absurd rfl hne⟩

/-- **An operation that is not interrupted makes all of its writes**, and nothing else
changes the databases. -/
theorem opWrites_step {c c' : Chain} (hbase : Base S c) {op : Op} (h : step S op c = .ok c') :
    (opWrites S op c).foldl OpWrite.apply (c.blocksDb, c.poolDb) = (c'.blocksDb, c'.poolDb) := by
  rcases opWrites_cases hbase.pool.good op with ⟨hnone, hsame⟩ | ⟨st, -, -, hwrites, hstep⟩ |
    ⟨payload, sub, refs, -, -, -, hwrites, hstep⟩
  · rw [hnone]
    by_cases hop : op = .restart
    · -- the constructor finds a block and writes nothing
      subst hop
      obtain ⟨c'', hboot, -, -, hblocksDb, hpoolDb, -⟩ := Base.of_boot hbase.goodDb hbase.keys
        (List.length_pos_iff.mpr hbase.blocks_ne) hbase.pool.good hbase.pool.stored .ok
      have heq : c'' = c' := Except.ok.inj (hboot.symm.trans h)
      rw [← heq, hblocksDb, hpoolDb]
      rfl
    · rw [Except.ok.inj ((hsame hop).symm.trans h)]
      rfl
  · rw [hwrites, ← Except.ok.inj (hstep.symm.trans h)]
    rfl
  · rw [hwrites, ← Except.ok.inj (hstep.symm.trans h), foldl_block]
    have hall := crashImage_all (sub.block S refs) c
    rwa [crashImage, List.take_length] at hall

/-! ### After a crash -/

/-- The invariants of a node that restarts in range. -/
structure Sound (S : Sodium) (c : Chain) : Prop where
  base : Base S c
  kept : Kept S c

theorem sound_genesisChain : Sound S (genesisChain S) := ⟨base_genesisChain, kept_genesisChain⟩

/-- A restart brings back a sound state. -/
theorem Sound.restart {c : Chain} (h : Sound S c) (hlen : c.blocks.length ≤ 2 ^ 32)
    (status : WriteStatus) : boot S status c.blocksDb c.poolDb = .ok c :=
  boot_self h.base (h.kept.stored hlen) hlen status

/-- With its printing, a restart does so when the blocks are printable. -/
theorem Sound.restartPrinted {c : Chain} (h : Sound S c) (hlen : c.blocks.length ≤ 2 ^ 32)
    (status : WriteStatus) :
    bootPrinted S status c.blocksDb c.poolDb = some (.ok c) ↔
      ∀ blk ∈ c.blocks, blk.header.timestamp.Printable :=
  bootPrinted_iff_printable (h.restart hlen status)

theorem Sound.admitTx {c : Chain} (h : Sound S c) {st : SignedTransaction}
    (hv : Chain.Valid S st c) (hc : st.tx.Constructed S) : Sound S (c.admitTx st.tx .ok).1 :=
  ⟨h.base.admitTx hv hc, h.kept.admitTx hv⟩

theorem Sound.grown {c : Chain} (h : Sound S c) {sub : BlockSubmission}
    {refs : List Transaction} (ha : Accepted S c sub refs) :
    Sound S (c.grown (sub.block S refs)) :=
  ⟨h.base.grown ha, h.kept.grown h.base ha⟩

/-- The chain without some transactions of its pool. -/
def Chain.without (txs : List Transaction) (c : Chain) : Chain :=
  { c with
    poolSpent := FiniteMap.eraseAll c.poolSpent (txs.flatMap Transaction.inputs)
    pool := FiniteMap.eraseAll c.pool (txs.map Transaction.txid)
    poolDb := FiniteMap.eraseAll c.poolDb ((txs.map Transaction.txid).map hexKey) }

/-- What is left of a pool was in it. -/
theorem getElem?_pool_without {c : Chain} {txs : List Transaction} {k : Hash} {tx : Transaction} :
    (c.without txs).pool[k]? = some tx ↔ k ∉ txs.map Transaction.txid ∧ c.pool[k]? = some tx := by
  show (FiniteMap.eraseAll c.pool (txs.map Transaction.txid))[k]? = some tx ↔ _
  rw [FiniteMap.getElem?_eraseAll]
  by_cases hmem : k ∈ txs.map Transaction.txid
  · simp [hmem]
  · rw [if_neg hmem]
    exact (and_iff_right hmem).symm

/-- **A sound node that loses transactions of its pool is sound.** -/
theorem Sound.without {c : Chain} (h : Sound S c) (txs : List Transaction)
    (hin : ∀ tx ∈ txs, c.pool[tx.txid]? = some tx) : Sound S (c.without txs) where
  base :=
    { blocks_ne := h.base.blocks_ne
      good := h.base.good
      replayed := h.base.replayed
      height := h.base.height
      difficulty := h.base.difficulty
      target := h.base.target
      goodDb := h.base.goodDb
      keys := h.base.keys
      pool :=
        { good := h.base.pool.good.eraseAll _
          spent := h.base.pool.spent.eraseAll h.base.pool.good hin
          stored := h.base.pool.stored.eraseAll _ } }
  kept :=
    { stored := h.kept.stored
      linked := h.kept.linked
      worked := h.kept.worked
      unspent := fun k tx hk => h.kept.unspent k tx (getElem?_pool_without.mp hk).2 }

/-- The databases of a block submission that is cut short: those of a node that lost some of
the transactions, or of one that has the block. -/
theorem crashImage_cases {c : Chain} (hgood : PoolGood S c.pool) {sub : BlockSubmission}
    {refs : List Transaction} (ha : Accepted S c sub refs) (writes : ℕ) :
    crashImage (sub.block S refs) writes c =
      if writes ≤ refs.length then
        ((c.without (refs.take writes)).blocksDb, (c.without (refs.take writes)).poolDb)
      else ((c.grown (sub.block S refs)).blocksDb, (c.grown (sub.block S refs)).poolDb) := by
  have hspending : spending (sub.block S refs).transactions = refs :=
    spending_block sub fun tx htx => ha.inputs_ne hgood htx
  split
  · next hle =>
    rw [crashImage_of_le (by rwa [hspending]), hspending]
    rfl
  · next hgt =>
    have hall : (blockWrites (sub.block S refs) c).take writes =
        (blockWrites (sub.block S refs) c).take (blockWrites (sub.block S refs) c).length := by
      rw [List.take_length, List.take_of_length_le]
      rw [length_blockWrites, hspending]
      omega
    rw [← crashImage_all, crashImage, hall]
    rfl

/-- **What a restarted node finds after a crash**: the state before the operation, the state
after it, or, when a block was being added, the state before it without those transactions of
the block whose deletions were made. -/
theorem crash_cases {c : Chain} (h : Sound S c) (hlen : c.blocks.length < 2 ^ 32) (op : Op)
    (writes : ℕ) :
    ∃ c', boot S .ok (crashed S op writes c).1 (crashed S op writes c).2 = .ok c' ∧ Sound S c' ∧
      (c' = c ∨ (0 < writes ∧ step S op c = .ok c') ∨
        ∃ payload sub refs, op = .createBlock payload ∧ submission payload.bytes = some sub ∧
          Accepted S c sub refs ∧ writes ≤ refs.length ∧ c' = c.without (refs.take writes)) := by
  rcases opWrites_cases h.base.pool.good op with ⟨hnone, -⟩ | ⟨st, hv, hc, hwrites, hstep⟩ |
    ⟨payload, sub, refs, rfl, hsub, ha, hwrites, hstep⟩
  · refine ⟨c, ?_, h, Or.inl rfl⟩
    rw [crashed, hnone, List.take_nil]
    exact h.restart hlen.le .ok
  · cases writes with
    | zero =>
      refine ⟨c, ?_, h, Or.inl rfl⟩
      rw [crashed, List.take_zero]
      exact h.restart hlen.le .ok
    | succ n =>
      refine ⟨_, ?_, h.admitTx hv hc, Or.inr (Or.inl ⟨Nat.succ_pos n, hstep⟩)⟩
      rw [crashed, hwrites, List.take_succ_cons, List.take_nil]
      exact (h.admitTx hv hc).restart hlen.le .ok
  · have himage : crashed S (.createBlock payload) writes c =
        crashImage (sub.block S refs) writes c := by
      rw [crashed, hwrites, ← List.map_take, foldl_block]
      rfl
    rw [himage, crashImage_cases h.base.pool.good ha]
    split
    · next hle =>
      have hlost := h.without (refs.take writes) fun tx htx =>
        ha.inPool tx (List.mem_of_mem_take htx)
      exact ⟨_, hlost.restart hlen.le .ok, hlost,
        Or.inr (Or.inr ⟨payload, sub, refs, rfl, hsub, ha, hle, rfl⟩)⟩
    · next hgt =>
      refine ⟨_, (h.grown ha).restart ?_ .ok, h.grown ha, Or.inr (Or.inl ⟨by omega, hstep⟩)⟩
      show (c.blocks ++ [_]).length ≤ 2 ^ 32
      rw [List.length_append, List.length_singleton]
      exact hlen

/-! ### Runs with crashes -/

/-- An operation, or one that the process does not survive: it stops after some of the
writes, and is started again. -/
inductive Fault
  | run (op : Op)
  | crash (op : Op) (writes : ℕ)

def stepFault (S : Sodium) : Fault → Chain → Except String Chain
  | .run op, c => step S op c
  | .crash op writes, c => boot S .ok (crashed S op writes c).1 (crashed S op writes c).2

/-- A submitted block is printable. -/
def Fault.Printable : Fault → Prop
  | .run op | .crash op _ => op.Printable

instance : DecidablePred Fault.Printable
  | .run op | .crash op _ => inferInstanceAs (Decidable op.Printable)

/-- An operation of a sound node goes through, keeps the node sound, and loses no block; a
printable one keeps the blocks printable. -/
theorem Sound.op {c : Chain} (h : Sound S c) (hlen : c.blocks.length < 2 ^ 32) (op : Op) :
    ∃ c', step S op c = .ok c' ∧ (Sound S c' ∧ (op.Printable → AllPrintable S c →
      AllPrintable S c')) ∧ c.blocks <+: c'.blocks ∧
      c'.blocks.length ≤ c.blocks.length + 1 := by
  rcases opWrites_cases h.base.pool.good op with ⟨-, hsame⟩ | ⟨st, hv, hc, -, hstep⟩ |
    ⟨payload, sub, refs, rfl, hsub, ha, -, hstep⟩
  · refine ⟨c, ?_, ⟨h, fun _ => id⟩, List.prefix_rfl, Nat.le_succ _⟩
    by_cases hop : op = .restart
    · subst hop
      exact h.restart hlen.le .ok
    · exact hsame hop
  · exact ⟨_, hstep, ⟨h.admitTx hv hc, fun _ hall => ⟨hall.loaded, hall.stored⟩⟩,
      List.prefix_rfl, Nat.le_succ _⟩
  · refine ⟨_, hstep, ⟨h.grown ha, fun hop hall => hall.grown h.base ha (hop sub hsub)⟩,
      List.prefix_append _ _, Nat.le_of_eq ?_⟩
    exact List.length_append

/-- **The step lemma.** -/
theorem Sound.fault {c : Chain} (h : Sound S c) (hlen : c.blocks.length < 2 ^ 32)
    (fault : Fault) :
    ∃ c', stepFault S fault c = .ok c' ∧ (Sound S c' ∧ (fault.Printable → AllPrintable S c →
      AllPrintable S c')) ∧ c.blocks <+: c'.blocks ∧
      c'.blocks.length ≤ c.blocks.length + 1 := by
  cases fault with
  | run op => exact h.op hlen op
  | crash op writes =>
    obtain ⟨c', hboot, hsound, hcases⟩ := crash_cases h hlen op writes
    refine ⟨c', hboot, ?_⟩
    rcases hcases with rfl | ⟨-, hstep⟩ | ⟨_, _, refs, -, -, -, -, rfl⟩
    · exact ⟨⟨hsound, fun _ => id⟩, List.prefix_rfl, Nat.le_succ _⟩
    · obtain ⟨c'', hstep', hrest⟩ := h.op hlen op
      rwa [Except.ok.inj (hstep.symm.trans hstep')]
    · exact ⟨⟨hsound, fun _ hall => ⟨hall.loaded, hall.stored⟩⟩, List.prefix_rfl, Nat.le_succ _⟩

/-- **The run lemma**: a list of operations and crashes that is too short to leave the range
of the keys goes through, keeps the node sound, and loses no block; printable ones keep the
blocks printable. -/
theorem Sound.exec {c : Chain} (h : Sound S c) (faults : List Fault)
    (hlen : c.blocks.length + faults.length ≤ 2 ^ 32) :
    ∃ c', Transition.exec (stepFault S) faults c = .ok c' ∧ (Sound S c' ∧
      ((∀ fault ∈ faults, fault.Printable) → AllPrintable S c → AllPrintable S c')) ∧
      c.blocks <+: c'.blocks ∧ c'.blocks.length ≤ c.blocks.length + faults.length := by
  refine Transition.exec_rule (R := fun c c' => c.blocks <+: c'.blocks)
    (I := fun d => Sound S d ∧ ((∀ fault ∈ faults, fault.Printable) → AllPrintable S c →
      AllPrintable S d))
    (fun c => c.blocks.length) (fun _ => List.prefix_rfl) (fun _ _ _ => List.IsPrefix.trans)
    ?_ ⟨h, fun _ => id⟩ hlen
  rintro fault hmem d ⟨hsound, hall⟩ hlt
  obtain ⟨d', hstep, ⟨hsound', hall'⟩, hrest⟩ := hsound.fault hlt fault
  exact ⟨d', hstep, ⟨hsound', fun hprint hc => hall' (hprint fault hmem) (hall hprint hc)⟩, hrest⟩

/-- **Every run with crashes goes on.**  However operations, restarts and crashes follow each
other, as long as there are fewer than `2 ^ 32` of them, each constructor builds a state, up to
its printing.  In the end the node is sound and still has every block it ever had, in its place;
one more restart brings back its state when all its blocks are printable, which they are when
all submitted blocks were, and ends the process otherwise. -/
theorem crashes_recover (S : Sodium) (before after : List Fault)
    (hlen : (before ++ after).length + 1 < 2 ^ 32) :
    ∃ c c', Transition.exec (stepFault S) before (genesisChain S) = .ok c ∧
      Transition.exec (stepFault S) after c = .ok c' ∧ Sound S c' ∧ c.blocks <+: c'.blocks ∧
      (bootPrinted S .ok c'.blocksDb c'.poolDb = some (.ok c') ↔
        ∀ blk ∈ c'.blocks, blk.header.timestamp.Printable) ∧
      ((∀ fault ∈ before ++ after, fault.Printable) →
        ∀ blk ∈ c'.blocks, blk.header.timestamp.Printable) := by
  rw [List.length_append] at hlen
  have hone : (genesisChain S).blocks.length = 1 := rfl
  obtain ⟨c, hbefore, ⟨hsound, hprint⟩, -, hgrow⟩ :=
    sound_genesisChain.exec (S := S) before (by omega)
  obtain ⟨c', hafter, ⟨hsound', hprint'⟩, hfront, hgrow'⟩ := hsound.exec after (by omega)
  refine ⟨c, c', hbefore, hafter, hsound', hfront, hsound'.restartPrinted (by omega) .ok,
    fun hall => ?_⟩
  rw [List.forall_mem_append] at hall
  exact (hprint' hall.2 (hprint hall.1 allPrintable_genesis)).loaded

namespace Sample

/-- A crash after the first deletion of the third block, and a crash in front of it. -/
def crashes : List Fault :=
  [.crash (.createBlock submission₃) 1, .crash (.createTx payment₁) 0]

end Sample

/-- The sample run with two crashes, none of whose blocks keeps it from starting again. -/
theorem crashes_recover_setup : ∃ c c',
    Transition.exec (stepFault Sample.sodium) (Sample.setup.map .run)
      (genesisChain Sample.sodium) = .ok c ∧
    Transition.exec (stepFault Sample.sodium) Sample.crashes c = .ok c' ∧
    Sound Sample.sodium c' ∧ c.blocks <+: c'.blocks ∧
    bootPrinted Sample.sodium .ok c'.blocksDb c'.poolDb = some (.ok c') := by
  obtain ⟨c, c', hbefore, hafter, hsound, hfront, hboot, hprint⟩ :=
    crashes_recover Sample.sodium (Sample.setup.map .run) Sample.crashes (by decide)
  exact ⟨c, c', hbefore, hafter, hsound, hfront, hboot.mpr (hprint (by decide +kernel))⟩

/-- **What any crash of any run leaves**: the node comes back, as far as it can print its
blocks, in the state before the operation, in the state after it, or, when a block was being
added, in the state before it without those transactions of the block whose deletions were
made. -/
theorem crash_leaves {faults : List Fault} (hlen : faults.length + 1 < 2 ^ 32) {c : Chain}
    (hrun : Transition.exec (stepFault S) faults (genesisChain S) = .ok c) (op : Op)
    (writes : ℕ) :
    ∃ c', boot S .ok (crashed S op writes c).1 (crashed S op writes c).2 = .ok c' ∧
      (bootPrinted S .ok (crashed S op writes c).1 (crashed S op writes c).2 = some (.ok c') ↔
        ∀ blk ∈ c'.blocks, blk.header.timestamp.Printable) ∧
      (c' = c ∨ (0 < writes ∧ step S op c = .ok c') ∨
        ∃ payload sub refs, op = .createBlock payload ∧ submission payload.bytes = some sub ∧
          Accepted S c sub refs ∧ writes ≤ refs.length ∧ c' = c.without (refs.take writes)) := by
  have hone : (genesisChain S).blocks.length = 1 := rfl
  obtain ⟨c'', hrun', ⟨hsound, -⟩, -, hgrow⟩ :=
    sound_genesisChain.exec (S := S) faults (by omega)
  obtain rfl := Except.ok.inj (hrun'.symm.trans hrun)
  obtain ⟨c', hboot, -, hcases⟩ := crash_cases hsound (by omega) op writes
  exact ⟨c', hboot, bootPrinted_iff_printable hboot, hcases⟩

/-- A crash of the sample run after the first deletion of the third block. -/
theorem crash_leaves_setup : ∃ c,
    Transition.exec (stepFault Sample.sodium) (Sample.setup.map .run)
      (genesisChain Sample.sodium) = .ok c ∧
    ∃ c', boot Sample.sodium .ok (crashed Sample.sodium (.createBlock Sample.submission₃) 1 c).1
        (crashed Sample.sodium (.createBlock Sample.submission₃) 1 c).2 = .ok c' ∧
      (bootPrinted Sample.sodium .ok
          (crashed Sample.sodium (.createBlock Sample.submission₃) 1 c).1
          (crashed Sample.sodium (.createBlock Sample.submission₃) 1 c).2 = some (.ok c') ↔
        ∀ blk ∈ c'.blocks, blk.header.timestamp.Printable) ∧
      (c' = c ∨ (0 < 1 ∧ step Sample.sodium (.createBlock Sample.submission₃) c = .ok c') ∨
        ∃ payload sub refs, Op.createBlock Sample.submission₃ = .createBlock payload ∧
          submission payload.bytes = some sub ∧ Accepted Sample.sodium c sub refs ∧
          1 ≤ refs.length ∧ c' = c.without (refs.take 1)) := by
  have hrun : Transition.Ok (fun c => c.pool.size = 2)
      (Transition.exec (stepFault Sample.sodium) (Sample.setup.map .run)
        (genesisChain Sample.sodium)) := by decide +kernel
  obtain ⟨c, hc, -⟩ := Transition.ok_iff.mp hrun
  exact ⟨c, hc, crash_leaves (by decide) hc (.createBlock Sample.submission₃) 1⟩

end Axis
