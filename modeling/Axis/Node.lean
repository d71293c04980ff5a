import Axis.Lib.Transition
import Axis.Loading

/-!
# Runs of a node

The operations a node is subject to: transactions submitted over either protocol,
submitted blocks, and restarts.  No write fails, and each operation is atomic: the
lock of the chain makes `add_tx` and `add_block` so, and an `add_tx` between the
checks of a block and `add_block` is one that came first (`acceptBlock_admitTx`).

## Main definitions

* `Op`, `step` — the operations and what they do.
* `Reachable` — the states reached from a fresh start by operations that a guard
  allows.
* `Base` — the invariant of all runs.

## Main results

* `acceptBlock_admitTx` — acceptance outlasts the admission of a transaction.
* `step_cases` — what a step can do.
* `base_of_reachable` — **the invariant holds in every reachable state.**
-/

namespace Axis

open Positional

/-! ### Operations -/

/-- The payload of a TCP frame; the 32-bit size of the frame counts the two bytes
of the message type too. -/
structure FramePayload where
  bytes : Bytes
  fits : bytes.length + 2 < 2 ^ 32

/-- The decoded `rawTx` of a `POST /api/transaction` request, of at most
`kMaxRawTxHexChars` digits. -/
structure RawTx where
  bytes : Bytes
  fits : 2 * bytes.length ≤ 128 * 1024

/-- What can happen to a node. -/
inductive Op
  | createTx (payload : FramePayload)
  | postTx (raw : RawTx)
  | createBlock (payload : FramePayload)
  | restart

/-- The state after an operation.  A restart fails when the constructor throws.  What is
printed after an operation, or by the constructor, can end the process, and a run then has
no further step; the model of the printing is `Axis.Printing`. -/
def step (S : Sodium) : Op → Chain → Except String Chain
  | .createTx payload, c => .ok (onCreateTx S payload.bytes .ok c).1
  | .postTx raw, c => .ok (postTransaction S raw.bytes .ok c).1
  | .createBlock payload, c => .ok (onCreateBlock S payload.bytes [] c).1
  | .restart, c => boot S .ok c.blocksDb c.poolDb

/-- Any operation at any time. -/
def anyOp : Chain → Op → Prop := fun _ _ => True

/-- The states a node reaches from a fresh start. -/
abbrev Reachable (S : Sodium) (guard : Chain → Op → Prop) : Chain → Prop :=
  Transition.Reachable (fun c => boot S .ok ∅ ∅ = .ok c) guard (step S)

variable {S : Sodium}

/-! ### What a step can do -/

/-- A submitted transaction is constructed. -/
theorem constructed_signed {payload : Bytes} (hfit : payload.length + 2 < 2 ^ 32)
    {parsed : ParsedCreateTx} {r : Reader}
    (h : parseCreateTxPayload.run ⟨payload, 0⟩ = .ok (parsed, r)) :
    (parsed.signed S).tx.Constructed S where
  txid := rfl
  size := by
    obtain ⟨-, hpre, -⟩ := codeSignedTransaction.sound h
    have hlen : parsed.bytes.length ≤ payload.length := hpre.length_le
    rw [parsed.length_bytes] at hlen
    rw [Transaction.length_serialize]
    show 48 + 36 * parsed.inputs.length + 28 * parsed.outputs.length < 2 ^ 32
    omega

/-- What submitting a transaction does to the state. -/
theorem addTx_cases (S : Sodium) (st : SignedTransaction) (status : WriteStatus) (c : Chain) :
    (c.addTx S st status).1 = c ∨
      Chain.Valid S st c ∧ (c.addTx S st status).1 = (c.admitTx st.tx status).1 := by
  cases hcheck : c.checkTx S st with
  | error err =>
    refine Or.inl ?_
    rw [Chain.addTx, hcheck]
  | ok u =>
    exact Or.inr ⟨Chain.checkTx_eq_ok_iff.mp hcheck, by rw [Chain.addTx, hcheck]⟩

/-- A block accepted before a transaction is admitted is accepted after it too. -/
theorem acceptBlock_admitTx {c : Chain} (hgood : PoolGood S c.pool) {st : SignedTransaction}
    (hv : Chain.Valid S st c) {payload : Bytes} {blk : Block}
    (h : acceptBlock S payload c = .ok blk) :
    acceptBlock S payload (c.admitTx st.tx .ok).1 = .ok blk := by
  obtain ⟨sub, refs, hcount, hpre, hresolve, hblk, hmerkle, hwork, hprev⟩ :=
    acceptBlock_eq_ok.mp h
  obtain ⟨htxids, hin⟩ := resolve_eq_some hgood hresolve
  refine acceptBlock_eq_ok.mpr ⟨sub, refs, hcount, hpre, ?_, hblk, hmerkle, hwork, hprev⟩
  unfold BlockSubmission.resolve
  rw [htxids]
  exact resolve_map_txid fun tx htx => hv.getElem?_pool (hin tx htx)

theorem fst_onCreateTx (payload : Bytes) (status : WriteStatus) (c : Chain) :
    (onCreateTx S payload status c).1 = c ∨
      ∃ parsed r, parseCreateTxPayload.run ⟨payload, 0⟩ = .ok (parsed, r) ∧
        (onCreateTx S payload status c).1 = (c.addTx S (parsed.signed S) status).1 := by
  cases hrun : parseCreateTxPayload.run ⟨payload, 0⟩ with
  | error what =>
    refine Or.inl ?_
    rw [onCreateTx, hrun]
  | ok p =>
    obtain ⟨parsed, r⟩ := p
    refine Or.inr ⟨parsed, r, rfl, ?_⟩
    rw [onCreateTx, hrun]
    dsimp only
    rcases c.addTx S (parsed.signed S) status with ⟨c', what | err⟩ <;> rfl

/-- A request that parses calls `add_tx`. -/
theorem fst_postTransaction_of_parse {payload : Bytes} {st : SignedTransaction}
    (h : parseSignedTransactionPayload S payload = .ok st) (status : WriteStatus) (c : Chain) :
    (postTransaction S payload status c).1 = (c.addTx S st status).1 := by
  rw [postTransaction, h]
  dsimp only
  rcases c.addTx S st status with ⟨c', what | err⟩
  · rfl
  · dsimp only
    split <;> rfl

theorem fst_postTransaction (payload : Bytes) (status : WriteStatus) (c : Chain) :
    (postTransaction S payload status c).1 = c ∨
      ∃ parsed r, parseCreateTxPayload.run ⟨payload, 0⟩ = .ok (parsed, r) ∧
        (postTransaction S payload status c).1 = (c.addTx S (parsed.signed S) status).1 := by
  cases hrun : parseCreateTxPayload.run ⟨payload, 0⟩ with
  | error what =>
    refine Or.inl ?_
    rw [postTransaction, parseSignedTransactionPayload_error hrun]
  | ok p =>
    obtain ⟨parsed, r⟩ := p
    have hparse := parseSignedTransactionPayload_ok (S := S) hrun
    by_cases htrail : r.offset ≠ r.data.length
    · rw [if_pos htrail] at hparse
      refine Or.inl ?_
      rw [postTransaction, hparse]
    · rw [if_neg htrail] at hparse
      exact Or.inr ⟨parsed, r, rfl, fst_postTransaction_of_parse hparse status c⟩

/-- Submitting a block changes nothing, or grows the chain by an accepted block. -/
theorem fst_onCreateBlock {c : Chain} (hgood : PoolGood S c.pool) {payload : Bytes}
    (hfit : payload.length + 2 < 2 ^ 32) :
    (onCreateBlock S payload [] c).1 = c ∨
      ∃ sub refs, submission payload = some sub ∧ Accepted S c sub refs ∧
        (onCreateBlock S payload [] c).1 = c.grown (sub.block S refs) := by
  cases haccept : acceptBlock S payload c with
  | error e =>
    refine Or.inl ?_
    rw [onCreateBlock, haccept]
  | ok blk =>
    obtain ⟨sub, refs, hsub, rfl, ha⟩ := accepted_of_acceptBlock hgood hfit haccept
    refine Or.inr ⟨sub, refs, hsub, ha, ?_⟩
    rw [onCreateBlock, haccept]
    dsimp only
    rw [addBlock_nil]

/-- **What a step can do**: nothing, admit a valid transaction, grow the chain by
an accepted block, or load the databases. -/
theorem step_cases {c c' : Chain} (hgood : PoolGood S c.pool) {op : Op}
    (h : step S op c = .ok c') :
    c' = c ∨
    (∃ st, Chain.Valid S st c ∧ st.tx.Constructed S ∧ c' = (c.admitTx st.tx .ok).1) ∨
    (∃ payload sub refs, op = .createBlock payload ∧ submission payload.bytes = some sub ∧
      Accepted S c sub refs ∧ c' = c.grown (sub.block S refs)) ∨
    (op = .restart ∧ boot S .ok c.blocksDb c.poolDb = .ok c') := by
  -- both protocols hand a constructed transaction to `add_tx`
  have htx : ∀ (payload : Bytes) (parsed : ParsedCreateTx) (r : Reader),
      payload.length + 2 < 2 ^ 32 → parseCreateTxPayload.run ⟨payload, 0⟩ = .ok (parsed, r) →
      c' = (c.addTx S (parsed.signed S) .ok).1 →
      c' = c ∨ ∃ st, Chain.Valid S st c ∧ st.tx.Constructed S ∧
        c' = (c.admitTx st.tx .ok).1 := by
    intro payload parsed r hfit hrun hc'
    rcases addTx_cases S (parsed.signed S) .ok c with hsame | ⟨hv, hadmitted⟩
    · exact Or.inl (hc'.trans hsame)
    · exact Or.inr ⟨_, hv, constructed_signed hfit hrun, hc'.trans hadmitted⟩
  cases op with
  | createTx payload =>
    cases h
    rcases fst_onCreateTx (S := S) payload.bytes .ok c with hsame | ⟨parsed, r, hrun, hadd⟩
    · exact Or.inl hsame
    · rcases htx payload.bytes parsed r payload.fits hrun hadd with hsame | hadmitted
      · exact Or.inl hsame
      · exact Or.inr (Or.inl hadmitted)
  | postTx raw =>
    cases h
    rcases fst_postTransaction (S := S) raw.bytes .ok c with hsame | ⟨parsed, r, hrun, hadd⟩
    · exact Or.inl hsame
    · have hfit := raw.fits
      rcases htx raw.bytes parsed r (by omega) hrun hadd with hsame | hadmitted
      · exact Or.inl hsame
      · exact Or.inr (Or.inl hadmitted)
  | createBlock payload =>
    cases h
    rcases fst_onCreateBlock hgood payload.fits with hsame | ⟨sub, refs, hsub, hacc, hgrow⟩
    · exact Or.inl hsame
    · exact Or.inr (Or.inr (Or.inl ⟨payload, sub, refs, rfl, hsub, hacc, hgrow⟩))
  | restart => exact Or.inr (Or.inr (Or.inr ⟨rfl, h⟩))

/-! ### Keys of the block database -/

theorem blockKey_ofNat {i : ℕ} (h : i < 2 ^ 32) : blockKey (UInt32.ofNat i) = padDec 10 i := by
  rw [blockKey, UInt32.toNat_ofNat', Nat.mod_eq_of_lt h]

theorem blockKey_inj {i j : ℕ} (hi : i < 2 ^ 32) (hj : j < 2 ^ 32)
    (h : blockKey (UInt32.ofNat i) = blockKey (UInt32.ofNat j)) : i = j := by
  rw [blockKey_ofNat hi, blockKey_ofNat hj] at h
  exact padDec_injOn (by omega) (by omega) h

/-- The key of a block wraps around at `2 ^ 32`. -/
theorem blockKey_mod (i : ℕ) :
    blockKey (UInt32.ofNat (i % 2 ^ 32)) = blockKey (UInt32.ofNat i) := by
  rw [blockKey, blockKey, UInt32.toNat_ofNat', UInt32.toNat_ofNat', Nat.mod_mod]

/-- The keys of a block database are those of the first `n` positions, up to the
`2 ^ 32` positions that keys tell apart. -/
def HasKeys (blocksDb : Db) (n : ℕ) : Prop :=
  ∀ key : Bytes, key ∈ blocksDb ↔ ∃ i < n, i < 2 ^ 32 ∧ key = blockKey (UInt32.ofNat i)

/-- The number of stored blocks. -/
theorem HasKeys.length_toList {blocksDb : Db} {n : ℕ} (h : HasKeys blocksDb n) :
    blocksDb.toList.length = min n (2 ^ 32) := by
  -- the keys of the enumeration, in some order
  have hperm : (blocksDb.toList.map Prod.fst).Perm
      ((List.range (min n (2 ^ 32))).map fun i => blockKey (UInt32.ofNat i)) := by
    rw [List.perm_ext_iff_of_nodup (FiniteMap.nodup_keys_toList _)]
    · intro key
      have hmem : key ∈ blocksDb.toList.map Prod.fst ↔ key ∈ blocksDb := by
        rw [FiniteMap.mem_iff_exists, List.mem_map]
        constructor
        · intro hex
          obtain ⟨⟨k, raw⟩, hin, rfl⟩ := hex
          exact ⟨raw, (FiniteMap.mem_toList_iff _ _ _).mp hin⟩
        · intro hex
          obtain ⟨raw, hraw⟩ := hex
          exact ⟨(key, raw), (FiniteMap.mem_toList_iff _ _ _).mpr hraw, rfl⟩
      rw [hmem, h key, List.mem_map]
      constructor
      · intro hex
        obtain ⟨i, hi, hlt, rfl⟩ := hex
        exact ⟨i, List.mem_range.mpr (lt_min hi hlt), rfl⟩
      · intro hex
        obtain ⟨i, hi, rfl⟩ := hex
        obtain ⟨hn, hlt⟩ := lt_min_iff.mp (List.mem_range.mp hi)
        exact ⟨i, hn, hlt, rfl⟩
    · refine List.Nodup.map_on ?_ List.nodup_range
      intro i hi j hj heq
      exact blockKey_inj (lt_min_iff.mp (List.mem_range.mp hi)).2
        (lt_min_iff.mp (List.mem_range.mp hj)).2 heq
  have hlen := hperm.length_eq
  rwa [List.length_map, List.length_map, List.length_range] at hlen

/-- One more position. -/
theorem HasKeys.insert {blocksDb : Db} {n : ℕ} (h : HasKeys blocksDb n) (raw : Bytes) :
    HasKeys (blocksDb.insert (blockKey (UInt32.ofNat n)) raw) (n + 1) := by
  intro key
  rw [FiniteMap.mem_iff_exists]
  simp only [FiniteMap.getElem?_insert_eq]
  by_cases hkey : blockKey (UInt32.ofNat n) = key
  · simp only [if_pos hkey, Option.some.injEq, exists_eq', true_iff]
    -- a position beyond the keys writes over an earlier one
    have hle := Nat.mod_le n (2 ^ 32)
    exact ⟨n % 2 ^ 32, by omega, Nat.mod_lt _ (by norm_num), by rw [blockKey_mod, hkey]⟩
  · simp only [if_neg hkey]
    rw [← FiniteMap.mem_iff_exists, h key]
    constructor
    · intro hex
      obtain ⟨i, hi, hlt, rfl⟩ := hex
      exact ⟨i, by omega, hlt, rfl⟩
    · intro hex
      obtain ⟨i, hi, hlt, rfl⟩ := hex
      refine ⟨i, ?_, hlt, rfl⟩
      have hne : i ≠ n := by
        intro heq
        obtain rfl := heq
        exact hkey rfl
      omega

/-! ### The invariant of all runs -/

/-- What holds in every reachable state. -/
structure Base (S : Sodium) (c : Chain) : Prop where
  blocks_ne : c.blocks ≠ []
  good : ∀ blk ∈ c.blocks, BlockGood S blk
  replayed : c.toUtxoSet = UtxoSet.replay c.txs
  height : c.height = UInt32.ofNat c.blocks.length
  difficulty : c.difficulty = 3
  target : c.target = target₃
  goodDb : GoodDb S c.blocksDb
  keys : HasKeys c.blocksDb c.blocks.length
  pool : PoolInv S c

theorem base_genesisChain : Base S (genesisChain S) where
  blocks_ne := List.cons_ne_nil _ _
  good := by
    intro blk hblk
    rw [List.mem_singleton.mp hblk]
    exact blockGood_genesis
  replayed := rfl
  height := rfl
  difficulty := rfl
  target := rfl
  goodDb := by
    intro key raw hraw
    change ((∅ : Db).insert (blockKey 0) (genesisBlock S).serialize)[key]? = some raw at hraw
    rw [FiniteMap.getElem?_insert_eq] at hraw
    split at hraw
    · exact ⟨genesisBlock S, blockGood_genesis, (Option.some.inj hraw).symm⟩
    · rw [Std.ExtTreeMap.getElem?_empty] at hraw
      cases hraw
  keys := by
    have hempty : HasKeys (∅ : Db) 0 := by
      intro key
      simp
    exact hempty.insert _
  pool :=
    { good := PoolGood.empty
      spent := by
        intro op op'
        show (∅ : FiniteMap OutPoint OutPoint)[op]? = some op' ↔
          op' = op ∧ ∃ (k : Hash) (tx : Transaction),
            (∅ : FiniteMap Hash Transaction)[k]? = some tx ∧ op ∈ tx.inputs
        simp
      stored := by
        intro key raw
        show (∅ : Db)[key]? = some raw ↔ ∃ (k : Hash) (tx : Transaction),
          (∅ : FiniteMap Hash Transaction)[k]? = some tx ∧ key = hexKey k ∧ raw = tx.serialize
        simp }

/-- What a chain has confirmed after one more block. -/
theorem txs_grown (blk : Block) (c : Chain) : (c.grown blk).txs = c.txs ++ blk.transactions := by
  show (c.blocks ++ [blk]).flatMap Block.transactions = _
  rw [List.flatMap_append, List.flatMap_singleton]
  rfl

theorem Base.admitTx {c : Chain} (h : Base S c) {st : SignedTransaction}
    (hv : Chain.Valid S st c) (hc : st.tx.Constructed S) : Base S (c.admitTx st.tx .ok).1 where
  blocks_ne := h.blocks_ne
  good := h.good
  replayed := h.replayed
  height := h.height
  difficulty := h.difficulty
  target := h.target
  goodDb := h.goodDb
  keys := h.keys
  pool := h.pool.admitTx hv hc

/-- The pool after a block of its transactions. -/
theorem PoolInv.grown {c : Chain} (h : PoolInv S c) {sub : BlockSubmission}
    {refs : List Transaction} (ha : Accepted S c sub refs) :
    PoolInv S (c.grown (sub.block S refs)) := by
  -- the pool loses the references, and their inputs and keys with them
  have hspending : spending (sub.block S refs).transactions = refs :=
    spending_block sub fun tx htx => ha.inputs_ne h.good htx
  have hpool : (c.grown (sub.block S refs)).pool =
      FiniteMap.eraseAll c.pool (refs.map Transaction.txid) :=
    congrArg (fun txs : List Transaction =>
      FiniteMap.eraseAll c.pool (txs.map Transaction.txid)) hspending
  have hspent : (c.grown (sub.block S refs)).poolSpent =
      FiniteMap.eraseAll c.poolSpent (refs.flatMap Transaction.inputs) := rfl
  have hdb : (c.grown (sub.block S refs)).poolDb =
      FiniteMap.eraseAll c.poolDb ((refs.map Transaction.txid).map hexKey) :=
    congrArg (fun txs : List Transaction =>
      FiniteMap.eraseAll c.poolDb ((txs.map Transaction.txid).map hexKey)) hspending
  refine ⟨?_, ?_, ?_⟩
  · rw [hpool]
    exact h.good.eraseAll _
  · rw [hpool, hspent]
    exact h.spent.eraseAll h.good ha.inPool
  · rw [hpool, hdb]
    exact h.stored.eraseAll _

theorem Base.grown {c : Chain} (h : Base S c) {sub : BlockSubmission}
    {refs : List Transaction} (ha : Accepted S c sub refs) :
    Base S (c.grown (sub.block S refs)) where
  blocks_ne := List.append_ne_nil_of_right_ne_nil _ (List.cons_ne_nil _ _)
  good := by
    intro blk hblk
    rcases List.mem_append.mp hblk with hold | hnew
    · exact h.good blk hold
    · rw [List.mem_singleton.mp hnew]
      exact ha.blockGood h.pool.good
  replayed := by
    rw [txs_grown, UtxoSet.replay_append, ← h.replayed]
    rfl
  height := by
    show c.height + 1 = UInt32.ofNat (c.blocks ++ [_]).length
    rw [h.height, List.length_append, List.length_singleton, UInt32.ofNat_add]
    rfl
  difficulty := h.difficulty
  target := h.target
  goodDb := by
    intro key raw hraw
    change (c.blocksDb.insert _ (sub.block S refs).serialize)[key]? = some raw at hraw
    rw [FiniteMap.getElem?_insert_eq] at hraw
    split at hraw
    · exact ⟨_, ha.blockGood h.pool.good, (Option.some.inj hraw).symm⟩
    · exact h.goodDb key raw hraw
  keys := by
    have hkeys := h.keys.insert (sub.block S refs).serialize
    have hlen : (c.grown (sub.block S refs)).blocks.length = c.blocks.length + 1 := by
      show (c.blocks ++ [_]).length = _
      rw [List.length_append, List.length_singleton]
    rw [hlen]
    exact hkeys
  pool := h.pool.grown ha

/-- **The constructor establishes the invariant**, on any good databases that hold
a block. -/
theorem Base.of_boot {blocksDb poolDb : Db} {n : ℕ} (hdb : GoodDb S blocksDb)
    (hkeys : HasKeys blocksDb n) (hpos : 0 < n) {pool : FiniteMap Hash Transaction}
    (hgood : PoolGood S pool) (hstored : StoredPool pool poolDb) (status : WriteStatus) :
    ∃ c, boot S status blocksDb poolDb = .ok c ∧ Base S c ∧ c.pool = pool ∧
      c.blocksDb = blocksDb ∧ c.poolDb = poolDb ∧ c.blocks.length = min n (2 ^ 32) ∧
      ∀ blk, BlockGood S blk → (blk ∈ c.blocks ↔ StoredBlock blocksDb blk) := by
  -- every stored value is a good block, so that loading never throws
  obtain ⟨entries, hlist, hentries⟩ := hdb.exists_entries
  have hlen : entries.length = min n (2 ^ 32) := by
    rw [← hkeys.length_toList, hlist, List.length_map]
  have hne : entries ≠ [] := by
    intro hsame
    obtain rfl := hsame
    rw [List.length_nil] at hlen
    omega
  obtain ⟨poolSpent, hspent, hboot⟩ := boot_stored hlist
    (fun e he => (hentries e he).storable) hne hgood hstored status
  refine ⟨_, hboot, ?_, rfl, rfl, rfl, ?_, ?_⟩
  · constructor
    · simpa using hne
    · intro blk hblk
      obtain ⟨e, he, rfl⟩ := List.mem_map.mp hblk
      exact hentries e he
    · rfl
    · rfl
    · rfl
    · rfl
    · exact hdb
    · intro key
      rw [hkeys key, List.length_map, hlen]
      constructor
      · intro hex
        obtain ⟨i, hi, hlt, rfl⟩ := hex
        exact ⟨i, lt_min hi hlt, hlt, rfl⟩
      · intro hex
        obtain ⟨i, hi, hlt, rfl⟩ := hex
        exact ⟨i, (lt_min_iff.mp hi).1, hlt, rfl⟩
    · exact ⟨hgood, hspent, hstored⟩
  · rw [List.length_map, hlen]
  · intro blk hblk
    rw [List.mem_map]
    constructor
    · intro hex
      obtain ⟨e, he, rfl⟩ := hex
      refine ⟨e.1, (FiniteMap.mem_toList_iff _ _ _).mp ?_⟩
      rw [hlist]
      exact List.mem_map_of_mem he
    · intro hex
      obtain ⟨key, hkey⟩ := hex
      have hmem := (FiniteMap.mem_toList_iff _ _ _).mpr hkey
      rw [hlist] at hmem
      obtain ⟨e, he, heq⟩ := List.mem_map.mp hmem
      exact ⟨e, he, (hentries e he).eq_of_serialize hblk (Prod.mk.inj heq).2⟩

/-- The invariant is kept by every step. -/
theorem Base.step {c c' : Chain} (h : Base S c) {op : Op} (hstep : step S op c = .ok c') :
    Base S c' := by
  rcases step_cases h.pool.good hstep with rfl | ⟨st, hv, hc, rfl⟩ |
    ⟨payload, sub, refs, -, -, ha, rfl⟩ | ⟨-, hboot⟩
  · exact h
  · exact h.admitTx hv hc
  · exact h.grown ha
  · obtain ⟨c'', hboot', hbase, -⟩ := Base.of_boot h.goodDb h.keys
      (List.length_pos_iff.mpr h.blocks_ne) h.pool.good h.pool.stored .ok
    rw [hboot] at hboot'
    rwa [Except.ok.inj hboot']

/-- **The invariant of all runs.** -/
theorem base_of_reachable {guard : Chain → Op → Prop} {c : Chain}
    (h : Reachable S guard c) : Base S c := by
  refine Transition.Reachable.rule ?_ ?_ h
  · intro c hc
    rw [boot_empty] at hc
    rw [← Except.ok.inj hc]
    exact base_genesisChain
  · intro c op c' _ hbase _ hstep
    exact hbase.step hstep

/-- The UTXO set of a reachable state holds the unspent outputs of its blocks. -/
theorem Base.getElem?_utxo {c : Chain} (h : Base S c) {op : OutPoint} {out : TxOutput} :
    c.utxo[op]? = some out ↔ Ledger.Unspent effects c.txs op out := by
  rw [h.replayed]
  refine UtxoSet.getElem?_replay fun tx htx => ?_
  obtain ⟨blk, hblk, hmem⟩ := List.mem_flatMap.mp htx
  exact ((h.good blk hblk).constructed tx hmem).outputs_lt

/-! ### A sample run

A node that mines two blocks on the genesis block, takes in a payment of either
coinbase, and confirms both payments in a third block.  The digests, the signatures
and the nonces are those of BLAKE2b and Ed25519 on the byte strings of the run. -/

/-- A frame with a submitted transaction. -/
def ParsedCreateTx.frame (p : ParsedCreateTx)
    (h : 36 * p.inputs.length + 28 * p.outputs.length < 2 ^ 31) : FramePayload where
  bytes := p.bytes
  fits := by
    rw [p.length_bytes]
    omega

/-- A request with a submitted transaction. -/
def ParsedCreateTx.request (p : ParsedCreateTx)
    (h : 36 * p.inputs.length + 28 * p.outputs.length < 2 ^ 15) : RawTx where
  bytes := p.bytes
  fits := by
    rw [p.length_bytes]
    omega

/-- A frame with a submitted block. -/
def BlockSubmission.frame (sub : BlockSubmission) (h : sub.txids.length < 2 ^ 26) :
    FramePayload where
  bytes := sub.bytes
  fits := by
    rw [sub.length_bytes]
    omega

theorem BlockSubmission.submission_frame (sub : BlockSubmission) (h : sub.txids.length < 2 ^ 26) :
    submission (sub.frame h).bytes = some sub :=
  submission_eq_some (h.trans (by norm_num)) (List.prefix_refl _)

namespace Sample

/-- The array with the given hexadecimal text. -/
def ofHex (n v : ℕ) : U8Array n := ⟨(leBytes n v).reverse, by simp⟩

/-- The miner of all blocks, who pays with the coinbases. -/
def pubkey : PublicKey :=
  ofHex 32 0x0b788ef018b87270bd7c3056982ebde4d41199e8954462d8b24c8f09a03974f4

def sender : Address := ofHex 20 0xe307d357c22efa8254ada4e02cedf3cec7b711ee

def recipient : Address := ofHex 20 0x058f5ccb21bc73da502bf458e13d45e7736932fc

def genesisTxid : Hash :=
  ofHex 32 0x98e0317d0a7cc1a9d9aa5fdf6a391c617d1f8d694f65c10998d552166049d20b

def genesisHash : Hash :=
  ofHex 32 0xce935228b9860a67bec9e4c8c7d8a20ef2383868336ccfd83205c04b46a40a88

/-- The txids of the coinbases of the three blocks. -/
def cb₁ : Hash := ofHex 32 0x81a5e2c8e276e0cbda52a8a676f4c3a3abfce5f72c2774b135c9c33a9ebca5d6

def cb₂ : Hash := ofHex 32 0x682a0a815a300ce2cf0466614923c49645d3d053443b4d62c219541f51cc1774

def cb₃ : Hash := ofHex 32 0xd0b7c493c28ae72260438bedb72f9afb95b55b1a99389ab4888a906cc8884657

/-- The hashes of the three blocks. -/
def hash₁ : Hash := ofHex 32 0x000000c1b0d74ae366057e93d9b9a7751c3bf535842fa8d5fc0dc6fb8b1a2665

def hash₂ : Hash := ofHex 32 0x000000f6e1f161ea6a845d4ec0eeaa3dc076f5b312b41868c173147ace0b3a7f

def hash₃ : Hash := ofHex 32 0x000000728ec661aac7e726a2cf32c52b46ea421b43eaa318f0591c9daa5088ab

/-- The txids of the two payments. -/
def tx₁ : Hash := ofHex 32 0x3633b117c79cdae85d101d8c720502ba6e443a97952246d24700f3429987921c

def tx₂ : Hash := ofHex 32 0xee27e27214139100e7a924fbb416b95eee1938d9578d29d301c434ea595e83a1

/-- The Merkle tree of the third block, whose second pair is padded. -/
def inner₁ : Hash := ofHex 32 0x09b6024fdc7f1bcd2e70735bd119acbc8c5bc932d092a88f6cb425f3903bbb82

def inner₂ : Hash := ofHex 32 0x491e90763e5a0a1a223f394998e578f37d1cbc72376263a310606db12b0df1bf

def merkle₃ : Hash := ofHex 32 0xeb658fc7306b431a5d62bdfaa7fac7fa6680fff88f45614a8578e73c3bea30a1

def block₁ : BlockSubmission :=
  ⟨genesisHash, cb₁, ⟨1781545965⟩, 934125, sender, 3 * units, ⟨1781545965⟩, []⟩

def block₂ : BlockSubmission :=
  ⟨hash₁, cb₂, ⟨1781546565⟩, 40132844, sender, 3 * units, ⟨1781546565⟩, []⟩

/-- The third block, with a list of references. -/
def block₃ (txids : List Hash) : BlockSubmission :=
  ⟨hash₂, merkle₃, ⟨1781547165⟩, 32063385, sender, 3 * units, ⟨1781547165⟩, txids⟩

/-- A payment of the first coinbase. -/
def pay₁ : ParsedCreateTx where
  pubkey := pubkey
  timestamp := ⟨1781546665⟩
  inputs := [⟨cb₁, 0⟩]
  outputs := [⟨recipient, 2 * units⟩, ⟨sender, units⟩]
  sig := ofHex 64 (0x4ce8c25fad58662498f1f92eece34b4b8aaa8bf5a75ffed19a02d08a2aae2c53 * 256 ^ 32 +
    0xf1f95e76dfd01ee772249de8c957505b5c2d6c420f85e0d0c9f72024332f3d0b)

/-- A payment of the second coinbase. -/
def pay₂ : ParsedCreateTx where
  pubkey := pubkey
  timestamp := ⟨1781546765⟩
  inputs := [⟨cb₂, 0⟩]
  outputs := [⟨recipient, 3 * units⟩]
  sig := ofHex 64 (0x4257a62ec61cf61d7a29671f0829ac3536a3a50cdbdfa8c6659654e19c62abb8 * 256 ^ 32 +
    0xd743b1779ea08d23055402779812df1bb3da5c995650a80aacc2fc628e6c7604)

/-- A payment that lists the first coinbase twice, its txid, and a block with it. -/
def payTwice : ParsedCreateTx where
  pubkey := pubkey
  timestamp := ⟨1781546065⟩
  inputs := [⟨cb₁, 0⟩, ⟨cb₁, 0⟩]
  outputs := [⟨sender, 6 * units⟩]
  sig := ofHex 64 (0x5a5681417ba3a82533b84d2b74a4479e379076b3604ee0ca31173955a834b2f7 * 256 ^ 32 +
    0x23542c6a604b36e9bdbefb0900411b4c030e7cbab35ee9e14b1eee0bf46fd402)

def txTwice : Hash :=
  ofHex 32 0xfdea46c55af2de81c0a49d5620008a6d890cbb99c84490f974f247ba01eaea4e

def cbTwice : Hash :=
  ofHex 32 0x5b0c0124185d791910aa37257abd5a94cc8b90c3e09e058bacdbf661bf28c284

def blockTwice : BlockSubmission :=
  ⟨hash₁, ofHex 32 0xd2802e90ebb8f72c1b5412d6093c5e0687d4522b5f9d43ee8cadf8a07f51e678,
    ⟨1781546465⟩, 559441, sender, 3 * units, ⟨1781546465⟩, [txTwice]⟩

def hashTwice : Hash :=
  ofHex 32 0x000000cab55b8bf7ed441f478781d7f3ee6223f3b142f10c26eef5cb1bb1977e

/-- The bytes hashed for a coinbase, for a payment and for a header. -/
def coinbaseBytes (sub : BlockSubmission) : Bytes :=
  Transaction.preimage [] [⟨sub.cbAddress, sub.cbReward⟩] sub.cbTimestamp

def paymentBytes (p : ParsedCreateTx) : Bytes :=
  Transaction.preimage p.inputs p.outputs p.timestamp

def headerBytes (sub : BlockSubmission) : Bytes :=
  (⟨sub.prevHash, sub.wireMerkle, sub.timestamp, sub.nonce⟩ : BlockHeader).bytes

/-- The BLAKE2b digests of the byte strings hashed in the run. -/
def digests : List (Bytes × Hash) :=
  [(Transaction.preimage [] [⟨genesisAddr, 15 * units⟩] ⟨1781545365⟩, genesisTxid),
   ((⟨U8Array.fill 32 0, genesisTxid, ⟨1781545365⟩, 31496⟩ : BlockHeader).bytes, genesisHash),
   (coinbaseBytes block₁, cb₁), (headerBytes block₁, hash₁),
   (coinbaseBytes block₂, cb₂), (headerBytes block₂, hash₂),
   (paymentBytes pay₁, tx₁), (paymentBytes pay₂, tx₂),
   (coinbaseBytes (block₃ []), cb₃), (headerBytes (block₃ []), hash₃),
   (combinePreimage cb₃ tx₁, inner₁), (combinePreimage tx₂ tx₂, inner₂),
   (combinePreimage inner₁ inner₂, merkle₃),
   (paymentBytes payTwice, txTwice), (coinbaseBytes blockTwice, cbTwice),
   (combinePreimage cbTwice txTwice, blockTwice.wireMerkle),
   (headerBytes blockTwice, hashTwice)]

/-- The primitives on the byte strings of the run. -/
def sodium : Sodium where
  generichash outlen data :=
    U8Array.ofBytes outlen
      (if data = pubkey.data then sender.data
       else ((digests.lookup data).getD (U8Array.fill 32 0)).data)
  signVerifyDetached sig msg pk :=
    decide (pk = pubkey ∧
      (msg, sig) ∈ [(tx₁.data, pay₁.sig), (tx₂.data, pay₂.sig), (txTwice.data, payTwice.sig)])

/-- The primitives with the digests of further byte strings. -/
def sodiumWith (more : List (Bytes × Hash)) : Sodium where
  generichash outlen data :=
    match more.lookup data with
    | some digest => U8Array.ofBytes outlen digest.data
    | none => sodium.generichash outlen data
  signVerifyDetached := sodium.signVerifyDetached

/-- Two blocks, and a payment of either coinbase. -/
def setup : List Op :=
  [.createBlock (block₁.frame (by decide)), .createBlock (block₂.frame (by decide)),
   .createTx (pay₁.frame (by decide)), .postTx (pay₂.request (by decide))]

/-- The frames of the first two blocks and of the first payment, and the request with the
second payment. -/
def frame₁ : FramePayload := block₁.frame (by decide)

def frame₂ : FramePayload := block₂.frame (by decide)

def payment₁ : FramePayload := pay₁.frame (by decide)

def payment₂ : RawTx := pay₂.request (by decide)

/-- The submission of the third block. -/
def submit₃ (txids : List Hash) (h : txids.length < 2 ^ 26) : FramePayload :=
  (block₃ txids).frame h

/-- The submission of the third block with both payments. -/
def submission₃ : FramePayload := submit₃ [tx₁, tx₂] (by decide)

/-- The submission of the third block with the second payment repeated. -/
def repetition₃ : FramePayload := submit₃ [tx₁, tx₂, tx₂] (by decide)

/-- The third block, and a restart. -/
def confirmed : List Op := setup ++ [.createBlock submission₃, .restart]

/-- The third block with the repeated reference. -/
def repeated : List Op := setup ++ [.createBlock repetition₃]

/-- A block with the payment that lists an input twice. -/
def doubled : List Op :=
  [.createBlock (block₁.frame (by decide)), .createTx (payTwice.frame (by decide)),
   .createBlock (blockTwice.frame (by decide))]

end Sample

/-- The state after a list of operations from the genesis block. -/
abbrev run (S : Sodium) (ops : List Op) : Except String Chain :=
  Transition.exec (step S) ops (genesisChain S)

/-- A run of operations that the guard allows reaches a state. -/
theorem exists_reachable (guard : Chain → Op → Prop) (ops : List Op) (P : Chain → Prop)
    (h : Transition.Passes guard (step S) P ops (genesisChain S)) :
    ∃ c, run S ops = .ok c ∧ Reachable S guard c ∧ P c :=
  Transition.exists_of_passes (.start boot_empty) h

/-- A run of any operations reaches a state. -/
theorem exists_reachable_any (ops : List Op) (P : Chain → Prop)
    (hok : Transition.Ok P (run S ops)) : ∃ c, run S ops = .ok c ∧ Reachable S anyOp c ∧ P c :=
  Transition.exists_of_exec_true (.start boot_empty) hok

/-- A run of any operations reaches a state that accepts a block. -/
theorem exists_accepted (ops : List Op) (payload : FramePayload) (P : Chain → Block → Prop)
    (hok : Transition.Ok (fun c => Transition.Ok (P c) (acceptBlock S payload.bytes c))
      (run S ops)) :
    ∃ c blk, run S ops = .ok c ∧ Reachable S anyOp c ∧
      acceptBlock S payload.bytes c = .ok blk ∧ P c blk := by
  obtain ⟨c, hrun, hreach, haccept⟩ := exists_reachable_any ops _ hok
  obtain ⟨blk, hblk, hP⟩ := Transition.ok_iff.mp haccept
  exact ⟨c, blk, hrun, hreach, hblk, hP⟩

/-- A run of operations that the guard allows reaches a state that accepts a block. -/
theorem exists_accepted_guarded (guard : Chain → Op → Prop) (ops : List Op)
    (payload : FramePayload) (P : Chain → Block → Prop)
    (h : Transition.Passes guard (step S)
      (fun c => Transition.Ok (P c) (acceptBlock S payload.bytes c)) ops (genesisChain S)) :
    ∃ c blk, run S ops = .ok c ∧ Reachable S guard c ∧
      acceptBlock S payload.bytes c = .ok blk ∧ P c blk := by
  obtain ⟨c, hrun, hreach, haccept⟩ := exists_reachable guard ops _ h
  obtain ⟨blk, hblk, hP⟩ := Transition.ok_iff.mp haccept
  exact ⟨c, blk, hrun, hreach, hblk, hP⟩

end Axis
