import Axis.Mining

/-!
# What the constructor loads

The constructor reads both databases in key order.  Databases whose values are
serialized good blocks, and the serialized transactions of a pool, load without
an error, and the state is the replay of what they hold.

## Main results

* `boot_empty` — a fresh start.
* `boot_stored` — **what is loaded from stored blocks and a stored pool.**
-/

namespace Axis

open Positional

variable {S : Sodium}

/-! ### The parts of the constructor -/

/-- A stored block and its key. -/
def blockEntry (e : Bytes × Block) : Bytes × Bytes := (e.1, e.2.serialize)

/-- A stored transaction and its key. -/
def poolEntry (tx : Transaction) : Bytes × Bytes := (hexKey tx.txid, tx.serialize)

/-- The chain after blocks were loaded. -/
def Chain.loaded (blks : List Block) (c : Chain) : Chain :=
  { c with
    toUtxoSet := (blks.flatMap Block.transactions).foldl UtxoSet.applyTx c.toUtxoSet
    blocks := c.blocks ++ blks }

theorem foldlM_loadBlock {entries : List (Bytes × Block)}
    (h : ∀ e ∈ entries, e.2.Storable S) (c : Chain) :
    (entries.map blockEntry).foldlM (Chain.loadBlock S) c =
      .ok (c.loaded (entries.map Prod.snd)) := by
  induction entries generalizing c with
  | nil =>
    rw [Chain.loaded, List.map_nil, List.map_nil, List.append_nil]
    rfl
  | cons e entries ih =>
    rw [List.forall_mem_cons] at h
    have hblk : Chain.loadBlock S c (blockEntry e) = .ok (c.loaded [e.2]) := by
      rw [Chain.loadBlock, blockEntry, Block.run_deserialize_serialize h.1]
      dsimp only
      rw [if_neg (not_not.mpr rfl), Chain.loaded, List.flatMap_singleton]
    rw [List.map_cons, List.foldlM_cons, hblk]
    apply (ih h.2 (c.loaded [e.2])).trans
    simp only [Chain.loaded, List.map_cons, List.flatMap_cons, List.flatMap_nil, List.append_nil,
      List.foldl_append, List.append_assoc, List.singleton_append]

/-- The chain after transactions were loaded into the pool. -/
def Chain.pooled (txs : List Transaction) (c : Chain) : Chain :=
  { c with
    poolSpent := FiniteMap.insertAll c.poolSpent
      ((txs.flatMap Transaction.inputs).map fun op => (op, op))
    pool := FiniteMap.insertAll c.pool (txs.map fun tx => (tx.txid, tx)) }

theorem foldlM_loadPoolTx {txs : List Transaction} (h : ∀ tx ∈ txs, tx.Sized) (c : Chain) :
    (txs.map poolEntry).foldlM Chain.loadPoolTx c = .ok (c.pooled txs) := by
  induction txs generalizing c with
  | nil => rfl
  | cons tx txs ih =>
    rw [List.forall_mem_cons] at h
    have htx : Chain.loadPoolTx c (poolEntry tx) = .ok (c.pooled [tx]) := by
      rw [Chain.loadPoolTx, poolEntry, Transaction.ofBytes_serialize h.1, Chain.pooled,
        List.flatMap_singleton]
      rfl
    rw [List.map_cons, List.foldlM_cons, htx]
    apply (ih h.2 (c.pooled [tx])).trans
    simp only [Chain.pooled, List.map_cons, List.map_nil, List.flatMap_cons, List.flatMap_nil,
      List.append_nil, List.map_append, FiniteMap.insertAll_append, FiniteMap.insertAll_cons,
      FiniteMap.insertAll_nil]

/-! ### Stored blocks -/

/-- Every value of a block database is a serialized good block. -/
def GoodDb (S : Sodium) (blocksDb : Db) : Prop :=
  ∀ key raw : Bytes, blocksDb[key]? = some raw → ∃ blk, BlockGood S blk ∧ raw = blk.serialize

/-- The block is in the block database. -/
def StoredBlock (blocksDb : Db) (blk : Block) : Prop :=
  ∃ key : Bytes, blocksDb[key]? = some blk.serialize

/-- A list of values each of which comes from somewhere comes from a list. -/
theorem exists_map_eq_of_forall_mem {α β : Type} {f : α → β} {P : α → Prop} {l : List β}
    (h : ∀ b ∈ l, ∃ a, P a ∧ b = f a) : ∃ as : List α, l = as.map f ∧ ∀ a ∈ as, P a := by
  induction l with
  | nil => exact ⟨[], rfl, by simp⟩
  | cons b l ih =>
    rw [List.forall_mem_cons] at h
    obtain ⟨a, ha, rfl⟩ := h.1
    obtain ⟨as, rfl, has⟩ := ih h.2
    exact ⟨a :: as, rfl, List.forall_mem_cons.mpr ⟨ha, has⟩⟩

/-- A good database lists good blocks. -/
theorem GoodDb.exists_entries {blocksDb : Db} (h : GoodDb S blocksDb) :
    ∃ entries : List (Bytes × Block), blocksDb.toList = entries.map blockEntry ∧
      ∀ e ∈ entries, BlockGood S e.2 := by
  apply exists_map_eq_of_forall_mem
  intro e hmem
  obtain ⟨key, raw⟩ := e
  obtain ⟨blk, hgood, rfl⟩ := h key raw ((FiniteMap.mem_toList_iff _ _ _).mp hmem)
  exact ⟨(key, blk), hgood, rfl⟩

/-- The entries of a stored pool are its transactions. -/
theorem StoredPool.exists_txs {pool : FiniteMap Hash Transaction} {poolDb : Db}
    (h : StoredPool pool poolDb) (hgood : PoolGood S pool) :
    ∃ txs : List Transaction, poolDb.toList = txs.map poolEntry ∧
      (txs.map Transaction.txid).Nodup ∧
      ∀ tx, tx ∈ txs ↔ pool[tx.txid]? = some tx := by
  obtain ⟨txs, hlist, hmem⟩ := exists_map_eq_of_forall_mem
    (f := poolEntry) (P := fun tx => pool[tx.txid]? = some tx) (l := poolDb.toList) <| by
      intro e hin
      obtain ⟨key, raw⟩ := e
      obtain ⟨k, tx, hk, rfl, rfl⟩ := (h key raw).mp ((FiniteMap.mem_toList_iff _ _ _).mp hin)
      have hkey := hgood.key k tx hk
      exact ⟨tx, by rw [hkey, hk], by rw [poolEntry, hkey]⟩
  refine ⟨txs, hlist, ?_, fun tx => ⟨hmem tx, fun htx => ?_⟩⟩
  · have hkeys := FiniteMap.nodup_keys_toList poolDb
    rw [hlist, List.map_map] at hkeys
    apply List.Nodup.of_map hexKey
    rw [List.map_map]
    exact hkeys
  · have hentry : poolEntry tx ∈ poolDb.toList :=
      (FiniteMap.mem_toList_iff _ _ _).mpr ((h _ _).mpr ⟨tx.txid, tx, htx, rfl, rfl⟩)
    rw [hlist] at hentry
    obtain ⟨tx', htx', heq⟩ := List.mem_map.mp hentry
    obtain ⟨hkey, hraw⟩ := Prod.mk.inj heq
    have hsized := (hgood.constructed _ _ htx).sized
    have hsized' := (hgood.constructed _ _ (hmem tx' htx')).sized
    rwa [← Transaction.serialize_injOn hsized' hsized hraw]

/-- Loading a stored pool gives the pool and the outpoints it spends. -/
theorem pooled_of_stored {pool : FiniteMap Hash Transaction} (hgood : PoolGood S pool)
    {txs : List Transaction} (hnodup : (txs.map Transaction.txid).Nodup)
    (hmem : ∀ tx, tx ∈ txs ↔ pool[tx.txid]? = some tx) {c : Chain} (hpool : c.pool = ∅)
    (hspent : c.poolSpent = ∅) :
    (c.pooled txs).pool = pool ∧ SpentBy pool (c.pooled txs).poolSpent := by
  constructor
  · refine Std.ExtTreeMap.ext_getElem? fun k => ?_
    have hkeys : ((txs.map fun tx => (tx.txid, tx)).map Prod.fst).Nodup := by
      rwa [List.map_map]
    show (FiniteMap.insertAll c.pool (txs.map fun tx => (tx.txid, tx)))[k]? = pool[k]?
    cases hget : pool[k]? with
    | some tx =>
      have hkey := hgood.key k tx hget
      refine FiniteMap.getElem?_insertAll_of_mem hkeys ?_ _
      exact List.mem_map.mpr ⟨tx, (hmem tx).mpr (by rw [hkey, hget]), by rw [hkey]⟩
    | none =>
      rw [FiniteMap.getElem?_insertAll_of_notMem, hpool, Std.ExtTreeMap.getElem?_empty]
      intro hin
      obtain ⟨e, he, rfl⟩ := List.mem_map.mp hin
      obtain ⟨tx, htx, rfl⟩ := List.mem_map.mp he
      rw [(hmem tx).mp htx] at hget
      cases hget
  · intro op op'
    show (FiniteMap.insertAll c.poolSpent
      ((txs.flatMap Transaction.inputs).map fun i => (i, i)))[op]? = some op' ↔ _
    rw [getElem?_insertAll_self, hspent, Std.ExtTreeMap.getElem?_empty]
    split
    · next hin =>
      obtain ⟨tx, htx, hop⟩ := List.mem_flatMap.mp hin
      constructor
      · intro heq
        exact ⟨(Option.some.inj heq).symm, tx.txid, tx, (hmem tx).mp htx, hop⟩
      · intro hex
        obtain ⟨rfl, -⟩ := hex
        rfl
    · next hnot =>
      constructor
      · intro h
        cases h
      · intro hboth
        obtain ⟨-, k, tx, hk, hop⟩ := hboth
        have hkey := hgood.key k tx hk
        exact absurd (List.mem_flatMap.mpr ⟨tx, (hmem tx).mpr (by rw [hkey, hk]), hop⟩) hnot

/-! ### The constructor -/

/-- The proof-of-work target of a difficulty of three bytes. -/
def target₃ : Hash := ⟨List.replicate 3 0 ++ List.replicate 29 0xff, rfl⟩

theorem target_buildTarget {c : Chain} (h : c.difficulty = 3) : c.buildTarget.target = target₃ := by
  apply U8Array.ext
  rw [Chain.buildTarget, h]
  rfl

/-- The state of a node that starts on empty databases. -/
def genesisChain (S : Sodium) : Chain where
  toUtxoSet := UtxoSet.replay [genesisCoinbase S]
  blocks := [genesisBlock S]
  height := 1
  target := target₃
  blocksDb := (∅ : Db).insert (blockKey 0) (genesisBlock S).serialize
  poolDb := ∅

/-- **A fresh start.** -/
theorem boot_empty : boot S .ok ∅ ∅ = .ok (genesisChain S) := by
  have hlist : (∅ : Db).toList = [] := Std.ExtTreeMap.toList_eq_nil_iff.mpr rfl
  have hload : Chain.loadBlocks S { blocksDb := ∅, poolDb := ∅ } =
      .ok { blocksDb := ∅, poolDb := ∅ } := by
    rw [Chain.loadBlocks, hlist]
    rfl
  have hpool : Chain.loadPool { blocksDb := ∅, poolDb := ∅ } =
      .ok { blocksDb := ∅, poolDb := ∅ } := by
    rw [Chain.loadPool, hlist]
    rfl
  rw [boot, hload, ok_bind, hpool, ok_bind]
  refine congrArg Except.ok (Chain.ext rfl rfl rfl rfl rfl ?_ rfl rfl rfl rfl)
  exact target_buildTarget rfl

/-- **What is loaded from stored blocks and a stored pool**: the blocks in the
order of their keys, the replay of their transactions, and the pool. -/
theorem boot_stored {blocksDb poolDb : Db} {entries : List (Bytes × Block)}
    (hlist : blocksDb.toList = entries.map blockEntry) (hblocks : ∀ e ∈ entries, e.2.Storable S)
    (hne : entries ≠ []) {pool : FiniteMap Hash Transaction} (hgood : PoolGood S pool)
    (hstored : StoredPool pool poolDb) (status : WriteStatus) :
    ∃ poolSpent, SpentBy pool poolSpent ∧
      boot S status blocksDb poolDb = .ok
        { toUtxoSet := UtxoSet.replay ((entries.map Prod.snd).flatMap Block.transactions)
          blocks := entries.map Prod.snd
          height := UInt32.ofNat (entries.map Prod.snd).length
          target := target₃
          pool := pool
          poolSpent := poolSpent
          blocksDb := blocksDb
          poolDb := poolDb } := by
  obtain ⟨txs, htxs, hnodup, hmem⟩ := hstored.exists_txs hgood
  have hsized : ∀ tx ∈ txs, tx.Sized := fun tx htx =>
    (hgood.constructed _ _ ((hmem tx).mp htx)).sized
  -- the state between the two loads
  let c₀ : Chain := { blocksDb := blocksDb, poolDb := poolDb }
  let c₁ : Chain := { c₀.loaded (entries.map Prod.snd) with
    height := UInt32.ofNat (c₀.loaded (entries.map Prod.snd)).blocks.length }
  have hload : Chain.loadBlocks S c₀ = .ok c₁ := by
    rw [Chain.loadBlocks]
    show (List.foldlM _ _ blocksDb.toList >>= _) = _
    rw [hlist, foldlM_loadBlock hblocks]
    rfl
  have hpoolLoad : c₁.loadPool = .ok (c₁.pooled txs) := by
    rw [Chain.loadPool]
    show List.foldlM _ _ poolDb.toList = _
    rw [htxs, foldlM_loadPoolTx hsized]
  obtain ⟨hpool, hspent⟩ := pooled_of_stored (c := c₁) hgood hnodup hmem rfl rfl
  have hnonempty : ¬ (c₁.pooled txs).blocks.isEmpty = true := by
    show ¬ ([] ++ entries.map Prod.snd).isEmpty = true
    simp [hne]
  refine ⟨(c₁.pooled txs).poolSpent, hspent, ?_⟩
  rw [boot, hload, ok_bind, hpoolLoad, ok_bind, if_neg hnonempty, ok_bind]
  exact congrArg Except.ok
    (Chain.ext rfl rfl rfl rfl rfl (target_buildTarget rfl) hpool rfl rfl rfl)

end Axis
