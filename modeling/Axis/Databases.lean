import Axis.Lib.Scan
import Axis.Crash
import Axis.Wire

/-!
# Arbitrary databases

What the constructor does on any two databases, whatever wrote them: it stops at the least key
of the block database whose value is not one serialized block, then at the least key of the
pool database whose value does not start with a serialized transaction, and it names the key of
a block only.  Nothing that loads is checked against anything else; a timestamp that cannot be
printed ends the process after everything was loaded.

## Main definitions

* `readBlock`, `readEntry` — what `load_blocks` makes of a value, and of an entry.
* `assemble` — the state read from given blocks and pool transactions.

## Main results

* `boot_eq` — the constructor reads first and assembles afterwards.
* `bootPrinted_error_exact`, `bootPrinted_none_exact` — **with what the constructor fails**, and
  when it ends the process.
* `bootPrinted_ok_exact` — **what the constructor builds** when it does neither.
* `bootPrinted_again` — **a node that was started once can be started again.**
-/

namespace Axis

open Positional

variable {S : Sodium}

/-! ### Reading values -/

/-- What `load_blocks` makes of a value, up to the text it puts in front of an exception. -/
def readBlock (S : Sodium) (raw : Bytes) : Except String Block :=
  match (Block.deserialize S).run ⟨raw, 0⟩ with
  | .error what => .error what
  | .ok (blk, reader) =>
    if reader.offset ≠ raw.length then
      .error ("trailing bytes after block payload: consumed " ++ toString reader.offset ++ " of " ++
        toString raw.length ++ " bytes")
    else .ok blk

/-- The text of the exception `load_blocks` throws. -/
def blockFailure (key : Bytes) (what : String) : String :=
  "failed to deserialize block at key '" ++ keyText key ++ "': " ++ what

def readEntry (S : Sodium) (entry : Bytes × Bytes) : Except String Block :=
  (readBlock S entry.2).mapError (blockFailure entry.1)

/-- What `load_pool` makes of an entry. -/
def readPoolEntry (entry : Bytes × Bytes) : Except String Transaction :=
  Transaction.ofBytes entry.2

theorem readBlock_eq_ok_iff {raw : Bytes} {blk : Block} :
    readBlock S raw = .ok blk ↔ Loads S raw blk := by
  unfold readBlock Loads
  cases hrun : (Block.deserialize S).run ⟨raw, 0⟩ with
  | error what => simp
  | ok p =>
    obtain ⟨blk', r⟩ := p
    by_cases htrail : r.offset ≠ raw.length
    · simp only [if_pos htrail, reduceCtorEq, false_iff, not_exists, not_and]
      intro r' heq
      cases heq
      exact htrail
    · simp only [if_neg htrail]
      constructor
      · intro h
        cases h
        exact ⟨r, rfl, not_not.mp htrail⟩
      · intro hex
        obtain ⟨r', heq, -⟩ := hex
        cases heq
        rfl

theorem readEntry_eq_ok_iff {entry : Bytes × Bytes} {blk : Block} :
    readEntry S entry = .ok blk ↔ Loads S entry.2 blk := by
  rw [← readBlock_eq_ok_iff, readEntry]
  cases readBlock S entry.2 <;> simp [Except.mapError]

theorem readEntry_eq_error_iff {entry : Bytes × Bytes} {what : String} :
    readEntry S entry = .error what ↔
      ∃ reason, readBlock S entry.2 = .error reason ∧ what = blockFailure entry.1 reason := by
  rw [readEntry]
  cases readBlock S entry.2 <;> simp [Except.mapError, eq_comm]

/-! ### Reading first, assembling afterwards -/

/-- A round of `load_blocks` reads the value and applies the block. -/
theorem loadBlock_eq (c : Chain) (entry : Bytes × Bytes) :
    Chain.loadBlock S c entry = (readEntry S entry).map fun blk => c.loaded [blk] := by
  unfold Chain.loadBlock readEntry readBlock
  cases (Block.deserialize S).run ⟨entry.2, 0⟩ with
  | error what => rfl
  | ok p =>
    obtain ⟨blk, r⟩ := p
    dsimp only
    split
    · rfl
    · simp only [Except.mapError, Except.map, Chain.loaded, List.flatMap_singleton]

/-- A round of `load_pool` reads the value and enters the transaction. -/
theorem loadPoolTx_eq (c : Chain) (entry : Bytes × Bytes) :
    Chain.loadPoolTx c entry = (readPoolEntry entry).map fun tx => c.pooled [tx] := by
  unfold Chain.loadPoolTx readPoolEntry
  cases Transaction.ofBytes entry.2 with
  | error what => rfl
  | ok tx => simp only [ok_bind, Except.map, Chain.pooled, List.flatMap_singleton]; rfl

theorem foldl_loaded (blks : List Block) (c : Chain) :
    blks.foldl (fun c blk => c.loaded [blk]) c = c.loaded blks := by
  induction blks generalizing c with
  | nil =>
    rw [Chain.loaded, List.append_nil]
    rfl
  | cons blk blks ih =>
    rw [List.foldl_cons, ih]
    simp only [Chain.loaded, List.flatMap_cons, List.flatMap_nil, List.append_nil,
      List.foldl_append, List.append_assoc, List.singleton_append]

theorem foldl_pooled (txs : List Transaction) (c : Chain) :
    txs.foldl (fun c tx => c.pooled [tx]) c = c.pooled txs := by
  induction txs generalizing c with
  | nil => rfl
  | cons tx txs ih =>
    rw [List.foldl_cons, ih]
    simp only [Chain.pooled, List.map_cons, List.map_nil, List.flatMap_cons, List.flatMap_nil,
      List.append_nil, List.map_append, FiniteMap.insertAll_append, FiniteMap.insertAll_cons,
      FiniteMap.insertAll_nil]

/-- The state read from databases with these blocks and these pool transactions, in the order
of their keys. -/
def assemble (blks : List Block) (txs : List Transaction) (blocksDb poolDb : Db) : Chain where
  toUtxoSet := UtxoSet.replay (blks.flatMap Block.transactions)
  blocks := blks
  height := UInt32.ofNat blks.length
  target := target₃
  pool := FiniteMap.insertAll ∅ (txs.map fun tx => (tx.txid, tx))
  poolSpent := FiniteMap.insertAll ∅ ((txs.flatMap Transaction.inputs).map fun op => (op, op))
  blocksDb := blocksDb
  poolDb := poolDb

/-- The block database with the genesis block. -/
def withGenesis (S : Sodium) (blocksDb : Db) : Db :=
  blocksDb.insert (blockKey 0) (genesisBlock S).serialize

/-- The text of the exception of a genesis block that is not stored. -/
def genesisFailure (what : String) : String :=
  "failed to store block at key '" ++ keyText (blockKey 0) ++ "': " ++ what

/-- What the constructor makes of what it read. -/
def construct (S : Sodium) (status : WriteStatus) (blocksDb poolDb : Db) (blks : List Block)
    (txs : List Transaction) : Except String Chain :=
  if blks = [] then
    match status with
    | .ok => .ok (assemble [genesisBlock S] txs (withGenesis S blocksDb) poolDb)
    | .error what _ => .error (genesisFailure what)
  else .ok (assemble blks txs blocksDb poolDb)

/-- **The constructor reads both databases first**, and assembles the state from what it
read. -/
theorem boot_eq (S : Sodium) (status : WriteStatus) (blocksDb poolDb : Db) :
    boot S status blocksDb poolDb =
      (blocksDb.toList.mapM (readEntry S)).bind fun blks =>
        (poolDb.toList.mapM readPoolEntry).bind fun txs =>
          construct S status blocksDb poolDb blks txs := by
  have hblocks : Chain.loadBlocks S { blocksDb := blocksDb, poolDb := poolDb } =
      (blocksDb.toList.mapM (readEntry S)).map fun blks =>
        { assemble blks [] blocksDb poolDb with target := U8Array.fill 32 0 } := by
    rw [Chain.loadBlocks]
    show (List.foldlM (Chain.loadBlock S) _ blocksDb.toList >>= _) = _
    have hround : Chain.loadBlock S = fun c entry =>
        (readEntry S entry).map fun blk => c.loaded [blk] := by
      funext c entry
      exact loadBlock_eq c entry
    rw [hround, Scan.foldlM_map_eq]
    cases blocksDb.toList.mapM (readEntry S) with
    | error what => rfl
    | ok blks =>
      have hloaded := foldl_loaded blks { blocksDb := blocksDb, poolDb := poolDb }
      exact congrArg (fun c : Chain =>
        Except.ok (ε := String) { c with height := UInt32.ofNat c.blocks.length }) hloaded
  have hpool : ∀ c : Chain, c.poolDb = poolDb →
      c.loadPool = (poolDb.toList.mapM readPoolEntry).map fun txs => c.pooled txs := by
    intro c hdb
    have hround : Chain.loadPoolTx = fun c entry =>
        (readPoolEntry entry).map fun tx => c.pooled [tx] := by
      funext c entry
      exact loadPoolTx_eq c entry
    rw [Chain.loadPool, hdb, hround, Scan.foldlM_map_eq]
    cases poolDb.toList.mapM readPoolEntry with
    | error what => rfl
    | ok txs =>
      exact congrArg Except.ok (foldl_pooled txs c)
  rw [boot, hblocks]
  cases blocksDb.toList.mapM (readEntry S) with
  | error what => rfl
  | ok blks =>
    show (Chain.loadPool _ >>= _) = Except.bind _ _
    rw [hpool _ rfl]
    cases poolDb.toList.mapM readPoolEntry with
    | error what => rfl
    | ok txs =>
      show (if blks.isEmpty = true then _ else _) >>= _ =
        construct S status blocksDb poolDb blks txs
      cases blks with
      | nil =>
        cases status with
        | ok =>
          refine congrArg Except.ok (Chain.ext rfl rfl rfl rfl rfl ?_ rfl rfl rfl rfl)
          exact target_buildTarget rfl
        | error what written => rfl
      | cons blk blks =>
        refine congrArg Except.ok (Chain.ext rfl rfl rfl rfl rfl ?_ rfl rfl rfl rfl)
        exact target_buildTarget rfl

/-! ### Failures -/

/-- Every value of the block database is one serialized block. -/
def BlocksLoad (S : Sodium) (blocksDb : Db) : Prop :=
  ∀ key raw : Bytes, blocksDb[key]? = some raw → ∃ blk, Loads S raw blk

/-- Every value of the pool database starts with a serialized transaction. -/
def PoolLoads (poolDb : Db) : Prop :=
  ∀ key raw : Bytes, poolDb[key]? = some raw → ∃ tx, Transaction.ofBytes raw = .ok tx

theorem exists_blocks_iff (blocksDb : Db) :
    (∃ blks, blocksDb.toList.mapM (readEntry S) = .ok blks) ↔ BlocksLoad S blocksDb := by
  rw [Scan.exists_mapM_toList_iff]
  exact forall₃_congr fun key raw _ => exists_congr fun blk => readEntry_eq_ok_iff

theorem exists_txs_iff (poolDb : Db) :
    (∃ txs, poolDb.toList.mapM readPoolEntry = .ok txs) ↔ PoolLoads poolDb :=
  Scan.exists_mapM_toList_iff poolDb

/-- The failure of the least key of the block database whose value is no block. -/
def BadBlock (S : Sodium) (blocksDb : Db) (what : String) : Prop :=
  ∃ key raw reason, blocksDb[key]? = some raw ∧ readBlock S raw = .error reason ∧
    what = blockFailure key reason ∧
    ∀ key' raw' : Bytes, blocksDb[key']? = some raw' → compare key' key = .lt →
      ∃ blk, Loads S raw' blk

/-- The failure of the least key of the pool database whose value is no transaction; it does
not name the key. -/
def BadPool (poolDb : Db) (what : String) : Prop :=
  ∃ key raw, poolDb[key]? = some raw ∧ Transaction.ofBytes raw = .error what ∧
    ∀ key' raw' : Bytes, poolDb[key']? = some raw' → compare key' key = .lt →
      ∃ tx, Transaction.ofBytes raw' = .ok tx

theorem blocks_eq_error_iff (blocksDb : Db) {what : String} :
    blocksDb.toList.mapM (readEntry S) = .error what ↔ BadBlock S blocksDb what := by
  rw [Scan.mapM_toList_eq_error_iff]
  constructor
  · intro hex
    obtain ⟨key, raw, hraw, hbad, hless⟩ := hex
    obtain ⟨reason, hread, rfl⟩ := readEntry_eq_error_iff.mp hbad
    refine ⟨key, raw, reason, hraw, hread, rfl, fun key' raw' hraw' hlt => ?_⟩
    obtain ⟨blk, hblk⟩ := hless key' raw' hraw' hlt
    exact ⟨blk, readEntry_eq_ok_iff.mp hblk⟩
  · intro hex
    obtain ⟨key, raw, reason, hraw, hread, rfl, hless⟩ := hex
    refine ⟨key, raw, hraw, readEntry_eq_error_iff.mpr ⟨reason, hread, rfl⟩,
      fun key' raw' hraw' hlt => ?_⟩
    obtain ⟨blk, hblk⟩ := hless key' raw' hraw' hlt
    exact ⟨blk, readEntry_eq_ok_iff.mpr hblk⟩

theorem txs_eq_error_iff (poolDb : Db) {what : String} :
    poolDb.toList.mapM readPoolEntry = .error what ↔ BadPool poolDb what :=
  Scan.mapM_toList_eq_error_iff poolDb

/-- A database is empty when no block is read from it. -/
theorem eq_empty_of_mapM {blocksDb : Db} (h : blocksDb.toList.mapM (readEntry S) = .ok []) :
    blocksDb = ∅ :=
  Std.ExtTreeMap.toList_eq_nil_iff.mp (List.forall₂_nil_right_iff.mp (Scan.mapM_eq_ok_iff.mp h))

theorem mapM_empty {β : Type} (read : Bytes × Bytes → Except String β) :
    (∅ : Db).toList.mapM read = .ok [] := by
  rw [Std.ExtTreeMap.toList_eq_nil_iff.mpr rfl]
  rfl

/-- What the constructor throws. -/
theorem boot_eq_error_iff (S : Sodium) (status : WriteStatus) (blocksDb poolDb : Db)
    (what : String) :
    boot S status blocksDb poolDb = .error what ↔
      BadBlock S blocksDb what ∨ (BlocksLoad S blocksDb ∧ BadPool poolDb what) ∨
        (blocksDb = ∅ ∧ PoolLoads poolDb ∧
          ∃ reason written, status = .error reason written ∧ what = genesisFailure reason) := by
  rw [boot_eq, ← blocks_eq_error_iff, ← txs_eq_error_iff, ← exists_blocks_iff, ← exists_txs_iff]
  cases hblks : blocksDb.toList.mapM (readEntry S) with
  | error reason =>
    have hne : blocksDb ≠ ∅ := by
      rintro rfl
      rw [mapM_empty] at hblks
      cases hblks
    show Except.error reason = Except.error what ↔ _
    simp [hne]
  | ok blks =>
    cases htxs : poolDb.toList.mapM readPoolEntry with
    | error reason =>
      show Except.error reason = Except.error what ↔ _
      simp
    | ok txs =>
      show construct S status blocksDb poolDb blks txs = .error what ↔ _
      have hempty : blks = [] ↔ blocksDb = ∅ := by
        constructor
        · rintro rfl
          exact eq_empty_of_mapM hblks
        · rintro rfl
          rw [mapM_empty] at hblks
          exact (Except.ok.inj hblks).symm
      unfold construct
      by_cases hnil : blks = []
      · rw [if_pos hnil]
        cases status with
        | ok => simp
        | error reason written => simp [hempty.mp hnil, eq_comm]
      · rw [if_neg hnil]
        have hne := mt hempty.mpr hnil
        simp [hne]

/-- **With what the constructor fails**, on any two databases: with the failure of the least
bad key of the block database; when all blocks load, with that of the least bad key of the pool
database; and when there is no block and the pool loads, with that of the write of the genesis
block.  On all others it throws nothing. -/
theorem bootPrinted_error_exact (S : Sodium) (status : WriteStatus) (blocksDb poolDb : Db)
    (what : String) :
    bootPrinted S status blocksDb poolDb = some (.error what) ↔
      BadBlock S blocksDb what ∨ (BlocksLoad S blocksDb ∧ BadPool poolDb what) ∨
        (blocksDb = ∅ ∧ PoolLoads poolDb ∧
          ∃ reason written, status = .error reason written ∧ what = genesisFailure reason) := by
  rw [bootPrinted_eq_error_iff]
  exact boot_eq_error_iff S status blocksDb poolDb what

/-! ### What is loaded -/

/-- What the constructor builds from two databases. -/
structure LoadedFrom (S : Sodium) (blocksDb poolDb : Db) (c : Chain) : Prop where
  /-- The blocks are those of the values, in the order of the keys. -/
  blocks : blocksDb ≠ ∅ →
    List.Forall₂ (fun e blk => Loads S e.2 blk) blocksDb.toList c.blocks ∧ c.blocksDb = blocksDb
  genesis : blocksDb = ∅ → c.blocks = [genesisBlock S] ∧ c.blocksDb = withGenesis S ∅
  replayed : c.toUtxoSet = UtxoSet.replay c.txs
  height : c.height = UInt32.ofNat c.blocks.length
  difficulty : c.difficulty = 3
  target : c.target = target₃
  /-- Of several values with one txid, the pool has the one with the greatest key. -/
  pool : ∀ (k : Hash) (tx : Transaction), c.pool[k]? = some tx ↔ tx.txid = k ∧
    ∃ key raw : Bytes, poolDb[key]? = some raw ∧ Transaction.ofBytes raw = .ok tx ∧
      ∀ (key' raw' : Bytes) (tx' : Transaction), poolDb[key']? = some raw' →
        Transaction.ofBytes raw' = .ok tx' → tx'.txid = k → compare key' key ≠ .gt
  /-- The outpoints are those of all values, also of the ones the pool does not have. -/
  spent : ∀ op : OutPoint, op ∈ c.poolSpent ↔ ∃ (key raw : Bytes) (tx : Transaction),
    poolDb[key]? = some raw ∧ Transaction.ofBytes raw = .ok tx ∧ op ∈ tx.inputs
  poolDb : c.poolDb = poolDb

/-- The pool of what is assembled from the values of a database. -/
theorem assemble_pool {poolDb : Db} {txs : List Transaction}
    (htxs : poolDb.toList.mapM readPoolEntry = .ok txs) (blks : List Block) (blocksDb : Db) :
    (∀ (k : Hash) (tx : Transaction), (assemble blks txs blocksDb poolDb).pool[k]? = some tx ↔
      tx.txid = k ∧ ∃ key raw : Bytes, poolDb[key]? = some raw ∧
        Transaction.ofBytes raw = .ok tx ∧
        ∀ (key' raw' : Bytes) (tx' : Transaction), poolDb[key']? = some raw' →
          Transaction.ofBytes raw' = .ok tx' → tx'.txid = k → compare key' key ≠ .gt) ∧
    ∀ op : OutPoint, op ∈ (assemble blks txs blocksDb poolDb).poolSpent ↔
      ∃ (key raw : Bytes) (tx : Transaction), poolDb[key]? = some raw ∧
        Transaction.ofBytes raw = .ok tx ∧ op ∈ tx.inputs := by
  constructor
  · exact fun k tx => Scan.getElem?_insertAll_iff Transaction.txid poolDb htxs k tx
  · intro op
    show op ∈ FiniteMap.insertAll ∅ ((txs.flatMap Transaction.inputs).map fun op => (op, op)) ↔ _
    rw [mem_insertAll_self, List.mem_flatMap]
    have hmem := fun tx : Transaction => Scan.mem_of_mapM_toList_iff poolDb htxs tx
    constructor
    · rintro (⟨tx, htx, hop⟩ | hnone)
      · obtain ⟨key, raw, hraw, hread⟩ := (hmem tx).mp htx
        exact ⟨key, raw, tx, hraw, hread, hop⟩
      · exact absurd hnone Std.ExtTreeMap.not_mem_empty
    · rintro ⟨key, raw, tx, hraw, hread, hop⟩
      exact Or.inl ⟨tx, (hmem tx).mpr ⟨key, raw, hraw, hread⟩, hop⟩

/-- What a constructor that does not fail has read. -/
theorem boot_eq_ok {status : WriteStatus} {blocksDb poolDb : Db} {c : Chain}
    (h : boot S status blocksDb poolDb = .ok c) :
    ∃ blks txs, blocksDb.toList.mapM (readEntry S) = .ok blks ∧
      poolDb.toList.mapM readPoolEntry = .ok txs ∧
      ((blks = [] ∧ blocksDb = ∅ ∧
          c = assemble [genesisBlock S] txs (withGenesis S ∅) poolDb) ∨
        (blks ≠ [] ∧ blocksDb ≠ ∅ ∧ c = assemble blks txs blocksDb poolDb)) := by
  rw [boot_eq] at h
  cases hblks : blocksDb.toList.mapM (readEntry S) with
  | error what =>
    rw [hblks] at h
    cases h
  | ok blks =>
    cases htxs : poolDb.toList.mapM readPoolEntry with
    | error what =>
      rw [hblks, htxs] at h
      cases h
    | ok txs =>
      rw [hblks, htxs] at h
      change construct S status blocksDb poolDb blks txs = .ok c at h
      refine ⟨blks, txs, rfl, rfl, ?_⟩
      unfold construct at h
      by_cases hnil : blks = []
      · rw [if_pos hnil] at h
        subst hnil
        have hempty := eq_empty_of_mapM hblks
        cases status with
        | ok =>
          cases h
          exact Or.inl ⟨rfl, hempty, by rw [hempty]⟩
        | error what written => cases h
      · rw [if_neg hnil] at h
        cases h
        refine Or.inr ⟨hnil, ?_, rfl⟩
        rintro rfl
        rw [mapM_empty] at hblks
        exact hnil (Except.ok.inj hblks).symm

/-- What the constructor builds before it prints. -/
theorem loadedFrom_of_boot {status : WriteStatus} {blocksDb poolDb : Db} {c : Chain}
    (h : boot S status blocksDb poolDb = .ok c) : LoadedFrom S blocksDb poolDb c := by
  obtain ⟨blks, txs, hblks, htxs, ⟨-, hempty, rfl⟩ | ⟨-, hne, rfl⟩⟩ := boot_eq_ok h
  · have hpool := assemble_pool htxs [genesisBlock S] (withGenesis S ∅)
    exact ⟨fun hne => absurd hempty hne, fun _ => ⟨rfl, rfl⟩, rfl, rfl, rfl, rfl, hpool.1, hpool.2,
      rfl⟩
  · have hpool := assemble_pool htxs blks blocksDb
    refine ⟨fun _ => ⟨?_, rfl⟩, fun hempty => absurd hempty hne, rfl, rfl, rfl, rfl, hpool.1,
      hpool.2, rfl⟩
    exact (Scan.mapM_eq_ok_iff.mp hblks).imp fun _ _ => readEntry_eq_ok_iff.mp

/-- A value of the block database is one of a block that cannot be printed. -/
def UnprintableBlock (S : Sodium) (blocksDb : Db) : Prop :=
  ∃ (key raw : Bytes) (blk : Block), blocksDb[key]? = some raw ∧ Loads S raw blk ∧
    ¬ blk.header.timestamp.Printable

theorem unprintable_iff {blocksDb : Db} {blks : List Block}
    (hblks : blocksDb.toList.mapM (readEntry S) = .ok blks) :
    (∃ blk ∈ blks, ¬ blk.header.timestamp.Printable) ↔ UnprintableBlock S blocksDb := by
  have hmem := Scan.mem_of_mapM_toList_iff blocksDb hblks
  constructor
  · rintro ⟨blk, hblk, hnot⟩
    obtain ⟨key, raw, hraw, hread⟩ := (hmem blk).mp hblk
    exact ⟨key, raw, blk, hraw, readEntry_eq_ok_iff.mp hread, hnot⟩
  · rintro ⟨key, raw, blk, hraw, hloads, hnot⟩
    exact ⟨blk, (hmem blk).mpr ⟨key, raw, hraw, readEntry_eq_ok_iff.mpr hloads⟩, hnot⟩

/-- **When the constructor ends the process**, on any two databases: when both of them load and
a block cannot be printed. -/
theorem bootPrinted_none_exact (S : Sodium) (status : WriteStatus) (blocksDb poolDb : Db) :
    bootPrinted S status blocksDb poolDb = none ↔
      BlocksLoad S blocksDb ∧ PoolLoads poolDb ∧ UnprintableBlock S blocksDb := by
  rw [bootPrinted_eq_none_iff, ← exists_blocks_iff, ← exists_txs_iff]
  constructor
  · intro hex
    obtain ⟨c, hboot, hnot⟩ := hex
    obtain ⟨blks, txs, hblks, htxs, ⟨-, -, rfl⟩ | ⟨-, -, rfl⟩⟩ := boot_eq_ok hboot
    · -- the genesis block can be printed
      obtain ⟨blk, hblk, hnot⟩ := hnot
      rw [List.mem_singleton.mp hblk] at hnot
      exact absurd printable_genesis hnot
    · exact ⟨⟨blks, hblks⟩, ⟨txs, htxs⟩, (unprintable_iff hblks).mp hnot⟩
  · rintro ⟨⟨blks, hblks⟩, ⟨txs, htxs⟩, hnot⟩
    have hprint := (unprintable_iff hblks).mpr hnot
    refine ⟨assemble blks txs blocksDb poolDb, ?_, hprint⟩
    obtain ⟨blk, hblk, -⟩ := hprint
    rw [boot_eq, hblks]
    show (poolDb.toList.mapM readPoolEntry).bind _ = _
    rw [htxs]
    exact if_neg (List.ne_nil_of_mem hblk)

/-- **What the constructor builds**, on any two databases on which it neither fails nor ends the
process. -/
theorem bootPrinted_ok_exact {status : WriteStatus} {blocksDb poolDb : Db} {c : Chain}
    (h : bootPrinted S status blocksDb poolDb = some (.ok c)) :
    LoadedFrom S blocksDb poolDb c ∧ ∀ blk ∈ c.blocks, blk.header.timestamp.Printable := by
  obtain ⟨hboot, hprint⟩ := bootPrinted_eq_ok_iff.mp h
  exact ⟨loadedFrom_of_boot hboot, hprint⟩

namespace Sample

/-- A database that no node writes: a block under a key of one letter, with a byte that the
loader ignores. -/
def oddBlocks : Db := (∅ : Db).insert [0x61] padded

/-- A payment under two keys, once with a byte after it. -/
def oddPool : Db :=
  ((∅ : Db).insert [0x61] (pay₁.signed sodium).tx.serialize).insert [0x62]
    ((pay₁.signed sodium).tx.serialize ++ [0])

theorem bootPrinted_odd : ∃ c, bootPrinted sodium .ok oddBlocks oddPool = some (.ok c) ∧
    c.pool.size = 1 := by
  have hex : ∃ c, boot sodium .ok oddBlocks oddPool = .ok c ∧ c.pool.size = 1 ∧
      ∀ blk ∈ c.blocks, blk.header.timestamp.Printable :=
    Transition.ok_iff.mp (by decide +kernel)
  obtain ⟨c, hboot, hpool, hprint⟩ := hex
  exact ⟨c, bootPrinted_eq_ok_iff.mpr ⟨hboot, hprint⟩, hpool⟩

end Sample

/-- What is built from databases that no node writes. -/
theorem bootPrinted_ok_exact_odd : ∃ c,
    bootPrinted Sample.sodium .ok Sample.oddBlocks Sample.oddPool = some (.ok c) ∧
    c.pool.size = 1 ∧ LoadedFrom Sample.sodium Sample.oddBlocks Sample.oddPool c := by
  obtain ⟨c, hboot, hpool⟩ := Sample.bootPrinted_odd
  exact ⟨c, hboot, hpool, (bootPrinted_ok_exact hboot).1⟩

/-- The database of a fresh start holds the genesis block. -/
theorem mapM_withGenesis : (withGenesis S ∅).toList.mapM (readEntry S) = .ok [genesisBlock S] := by
  have hlist : (withGenesis S ∅).toList = [(blockKey 0, (genesisBlock S).serialize)] := by
    refine FiniteMap.toList_eq_of_pairwise _ (List.pairwise_singleton _ _) fun key raw => ?_
    rw [withGenesis, FiniteMap.getElem?_insert_eq, Std.ExtTreeMap.getElem?_empty,
      List.mem_singleton, Prod.mk.injEq]
    split
    · next heq => simp [heq, eq_comm]
    · next hne => simp [Ne.symm hne]
  have hloads : Loads S (genesisBlock S).serialize (genesisBlock S) :=
    ⟨_, Block.run_deserialize_serialize blockGood_genesis.storable, rfl⟩
  rw [hlist]
  exact Scan.mapM_eq_ok_iff.mpr (.cons (readEntry_eq_ok_iff.mpr hloads) .nil)

/-- The databases that are left are read as they were. -/
theorem boot_boot {status : WriteStatus} {blocksDb poolDb : Db} {c : Chain}
    (h : boot S status blocksDb poolDb = .ok c) (status' : WriteStatus) :
    boot S status' c.blocksDb c.poolDb = .ok c := by
  obtain ⟨blks, txs, hblks, htxs, ⟨-, -, rfl⟩ | ⟨hnil, -, rfl⟩⟩ := boot_eq_ok h
  · rw [boot_eq]
    show ((withGenesis S ∅).toList.mapM (readEntry S)).bind _ = _
    rw [mapM_withGenesis]
    show (poolDb.toList.mapM readPoolEntry).bind _ = _
    rw [htxs]
    rfl
  · rw [boot_eq]
    show (blocksDb.toList.mapM (readEntry S)).bind _ = _
    rw [hblks]
    show (poolDb.toList.mapM readPoolEntry).bind _ = _
    rw [htxs]
    exact if_neg hnil

/-- **A node that was started once can be started again**: on the databases the constructor
leaves, whatever they were before, it neither fails nor ends the process, and builds the same
state. -/
theorem bootPrinted_again {status : WriteStatus} {blocksDb poolDb : Db} {c : Chain}
    (h : bootPrinted S status blocksDb poolDb = some (.ok c)) (status' : WriteStatus) :
    bootPrinted S status' c.blocksDb c.poolDb = some (.ok c) := by
  obtain ⟨hboot, hprint⟩ := bootPrinted_eq_ok_iff.mp h
  exact bootPrinted_eq_ok_iff.mpr ⟨boot_boot hboot status', hprint⟩

/-- A node on databases that no node writes, started again. -/
theorem bootPrinted_again_odd : ∃ c,
    bootPrinted Sample.sodium .ok Sample.oddBlocks Sample.oddPool = some (.ok c) ∧
    bootPrinted Sample.sodium .ok c.blocksDb c.poolDb = some (.ok c) := by
  obtain ⟨c, hboot, -⟩ := Sample.bootPrinted_odd
  exact ⟨c, hboot, bootPrinted_again hboot .ok⟩

end Axis
