import Axis.Databases
import Axis.Reads

/-!
# Runs with failing writes

Any write of any operation may fail, and may have reached its database all the same; the node
goes on, with a memory that no longer matches its databases, and may be restarted at any time.
What survives is the chain of blocks: a block in memory is stored under its position, the block
after the last one may be stored without being in memory, and every value of both databases
can be read back.  A crash between two writes is a run with a lost write and a restart.  As in
`Axis.Crash`, a constructor of a run does not print.

## Main definitions

* `Attempt`, `attempt` — operations with what their writes answer.
* `Linked` — a chain of good blocks.
* `Lasting` — what no failing write destroys.

## Main results

* `Lasting.step` — the step lemma.
* `faults_recover` — **whatever writes fail, the node can be restarted** when its blocks are
  printable, its chain is a chain, and no block it has ever had is lost.
* `crashes_are_faults` — **runs with crashes are such runs.**
-/

namespace Axis

open Positional

variable {S : Sodium}

/-! ### Operations with failing writes -/

/-- An operation, and what its writes answer. -/
inductive Attempt
  | createTx (payload : FramePayload) (status : WriteStatus)
  | postTx (raw : RawTx) (status : WriteStatus)
  | createBlock (payload : FramePayload) (io : List WriteStatus)
  | restart

def attempt (S : Sodium) : Attempt → Chain → Except String Chain
  | .createTx payload status, c => .ok (onCreateTx S payload.bytes status c).1
  | .postTx raw status, c => .ok (postTransaction S raw.bytes status c).1
  | .createBlock payload io, c => .ok (onCreateBlock S payload.bytes io c).1
  | .restart, c => boot S .ok c.blocksDb c.poolDb

/-! ### Chains of blocks -/

/-- A chain of good blocks, each with the hash of the one before it and with enough work. -/
structure Linked (S : Sodium) (blocks : List Block) : Prop where
  ne : blocks ≠ []
  good : ∀ blk ∈ blocks, BlockGood S blk
  linked : ∀ (i : ℕ) (blk blk' : Block), blocks[i]? = some blk → blocks[i + 1]? = some blk' →
    blk'.header.prevHash = blk.hash
  worked : ∀ (i : ℕ) (blk : Block), blocks[i + 1]? = some blk → ∀ b ∈ blk.hash.data.take 3, b = 0

theorem linked_genesis : Linked S [genesisBlock S] where
  ne := List.cons_ne_nil _ _
  good blk hblk := by
    rw [List.mem_singleton.mp hblk]
    exact blockGood_genesis
  linked i blk blk' _ hget' := by simp at hget'
  worked i blk hget := by simp at hget

/-- A block may be appended to a chain when it names the hash of the last block. -/
structure Appendable (S : Sodium) (blocks : List Block) (blk : Block) : Prop where
  good : BlockGood S blk
  parent : ∀ last, blocks.getLast? = some last → blk.header.prevHash = last.hash
  work : ∀ b ∈ blk.hash.data.take 3, b = 0

theorem Linked.append {blocks : List Block} (h : Linked S blocks) {blk : Block}
    (ha : Appendable S blocks blk) : Linked S (blocks ++ [blk]) where
  ne := List.append_ne_nil_of_right_ne_nil _ (List.cons_ne_nil _ _)
  good b hb := by
    rcases List.mem_append.mp hb with hold | hnew
    · exact h.good b hold
    · rw [List.mem_singleton.mp hnew]
      exact ha.good
  linked i b b' hget hget' := by
    have hi := (List.getElem?_eq_some_iff.mp hget').1
    rw [List.length_append, List.length_singleton] at hi
    rw [List.getElem?_append_left (by omega)] at hget
    rcases Nat.lt_or_ge (i + 1) blocks.length with hlt | hge
    · rw [List.getElem?_append_left hlt] at hget'
      exact h.linked i b b' hget hget'
    · have hidx : i + 1 = blocks.length := by omega
      rw [hidx, List.getElem?_concat_length] at hget'
      rw [← Option.some.inj hget']
      apply ha.parent
      rw [List.getLast?_eq_getElem?, ← hidx, Nat.add_sub_cancel, hget]
  worked i b hget := by
    have hi := (List.getElem?_eq_some_iff.mp hget).1
    rw [List.length_append, List.length_singleton] at hi
    rcases Nat.lt_or_ge (i + 1) blocks.length with hlt | hge
    · rw [List.getElem?_append_left hlt] at hget
      exact h.worked i b hget
    · have hidx : i + 1 = blocks.length := by omega
      rw [hidx, List.getElem?_concat_length] at hget
      rw [← Option.some.inj hget]
      exact ha.work

/-- **A block takes the place of the one that was stored after the last block**, if there was
one. -/
theorem StoredBlocks.overwrite {blocks extra : List Block} {blocksDb : Db}
    (h : StoredBlocks (blocks ++ extra) blocksDb) (hextra : extra.length ≤ 1)
    (hlen : blocks.length < 2 ^ 32) (blk : Block) :
    StoredBlocks (blocks ++ [blk])
      (blocksDb.insert (blockKey (UInt32.ofNat blocks.length)) blk.serialize) := by
  intro key raw
  rw [FiniteMap.getElem?_insert_eq]
  split
  · next heq =>
    subst heq
    constructor
    · intro hraw
      exact ⟨blocks.length, blk, by simp, rfl, (Option.some.inj hraw).symm⟩
    · rintro ⟨i, blk', hget, hkey, rfl⟩
      have hi := (List.getElem?_eq_some_iff.mp hget).1
      rw [List.length_append, List.length_singleton] at hi
      have hidx := blockKey_inj hlen (by omega) hkey
      rw [← hidx, List.getElem?_concat_length] at hget
      rw [Option.some.inj hget]
  · next hne =>
    rw [h key raw]
    -- the other positions are those of the blocks in memory
    have hother : ∀ (new : List Block) (i : ℕ) (blk' : Block), new.length ≤ 1 →
        (blocks ++ new)[i]? = some blk' → key = blockKey (UInt32.ofNat i) →
        blocks[i]? = some blk' := by
      intro new i blk' hnew hget hkey
      have hi := (List.getElem?_eq_some_iff.mp hget).1
      rw [List.length_append] at hi
      have hlt : i < blocks.length := by
        have hne' : i ≠ blocks.length := fun hsame => hne (by rw [hkey, hsame])
        omega
      rwa [List.getElem?_append_left hlt] at hget
    constructor
    · rintro ⟨i, blk', hget, hkey, rfl⟩
      have hold := hother extra i blk' hextra hget hkey
      refine ⟨i, blk', ?_, hkey, rfl⟩
      rw [List.getElem?_append_left (List.getElem?_eq_some_iff.mp hold).1, hold]
    · rintro ⟨i, blk', hget, hkey, rfl⟩
      have hold := hother [blk] i blk' le_rfl hget hkey
      refine ⟨i, blk', ?_, hkey, rfl⟩
      rw [List.getElem?_append_left (List.getElem?_eq_some_iff.mp hold).1, hold]

/-! ### What lasts -/

/-- A transaction that `add_tx` admitted at some time. -/
structure Admitted (S : Sodium) (tx : Transaction) : Prop where
  constructed : tx.Constructed S
  inputs_ne : tx.inputs ≠ []
  outputs_ne : tx.outputs ≠ []

/-- What no failing write destroys. -/
structure Lasting (S : Sodium) (c : Chain) : Prop where
  linked : Linked S c.blocks
  height : c.height = UInt32.ofNat c.blocks.length
  difficulty : c.difficulty = 3
  target : c.target = target₃
  pool : ∀ (k : Hash) (tx : Transaction), c.pool[k]? = some tx → tx.txid = k ∧ Admitted S tx
  poolDb : ∀ key raw : Bytes, c.poolDb[key]? = some raw →
    ∃ tx, Admitted S tx ∧ raw = tx.serialize
  /-- A block after the last one may be stored. -/
  stored : ∃ extra : List Block, extra.length ≤ 1 ∧ (c.blocks ++ extra).length ≤ 2 ^ 32 ∧
    Linked S (c.blocks ++ extra) ∧ StoredBlocks (c.blocks ++ extra) c.blocksDb

theorem lasting_genesisChain : Lasting S (genesisChain S) where
  linked := linked_genesis
  height := rfl
  difficulty := rfl
  target := rfl
  pool k tx hk := by
    change (∅ : FiniteMap Hash Transaction)[k]? = some tx at hk
    rw [Std.ExtTreeMap.getElem?_empty] at hk
    cases hk
  poolDb key raw hraw := by
    change (∅ : Db)[key]? = some raw at hraw
    rw [Std.ExtTreeMap.getElem?_empty] at hraw
    cases hraw
  stored := ⟨[], Nat.zero_le _, by show 1 ≤ 2 ^ 32; norm_num, linked_genesis,
    kept_genesisChain.stored (by show 1 ≤ 2 ^ 32; norm_num)⟩

/-! ### Steps that leave the blocks alone -/

/-- The second chain differs from the first one in its UTXO set, and in transactions that
left the pool or its database. -/
structure Shrunk (c c' : Chain) : Prop where
  blocks : c'.blocks = c.blocks
  height : c'.height = c.height
  difficulty : c'.difficulty = c.difficulty
  target : c'.target = c.target
  blocksDb : c'.blocksDb = c.blocksDb
  pool : ∀ (k : Hash) (tx : Transaction), c'.pool[k]? = some tx → c.pool[k]? = some tx
  poolDb : ∀ key raw : Bytes, c'.poolDb[key]? = some raw → c.poolDb[key]? = some raw

theorem Shrunk.refl (c : Chain) : Shrunk c c :=
  ⟨rfl, rfl, rfl, rfl, rfl, fun _ _ h => h, fun _ _ h => h⟩

theorem Shrunk.trans {c c' c'' : Chain} (h : Shrunk c c') (h' : Shrunk c' c'') : Shrunk c c'' where
  blocks := h'.blocks.trans h.blocks
  height := h'.height.trans h.height
  difficulty := h'.difficulty.trans h.difficulty
  target := h'.target.trans h.target
  blocksDb := h'.blocksDb.trans h.blocksDb
  pool k tx hk := h.pool k tx (h'.pool k tx hk)
  poolDb key raw hraw := h.poolDb key raw (h'.poolDb key raw hraw)

theorem Lasting.shrunk {c c' : Chain} (h : Lasting S c) (hs : Shrunk c c') : Lasting S c' where
  linked := hs.blocks ▸ h.linked
  height := by rw [hs.height, hs.blocks, h.height]
  difficulty := by rw [hs.difficulty, h.difficulty]
  target := by rw [hs.target, h.target]
  pool k tx hk := h.pool k tx (hs.pool k tx hk)
  poolDb key raw hraw := h.poolDb key raw (hs.poolDb key raw hraw)
  stored := by
    rw [hs.blocks, hs.blocksDb]
    exact h.stored

/-- What is left after an entry may have been erased was there before. -/
theorem getElem?_commit_erase {status : WriteStatus} {db : Db} {key k raw : Bytes}
    (h : (status.commit (db.erase key) db)[k]? = some raw) : db[k]? = some raw := by
  have herase : (db.erase key)[k]? = some raw → db[k]? = some raw := by
    intro hraw
    rw [FiniteMap.getElem?_erase_eq] at hraw
    split at hraw
    · cases hraw
    · exact hraw
  cases status with
  | ok => exact herase h
  | error what written =>
    cases written with
    | true => exact herase h
    | false => exact h

theorem shrunk_minedOne (tx : Transaction) (status : WriteStatus) (c : Chain) :
    Shrunk c (c.minedOne tx (status.commit (c.poolDb.erase (hexKey tx.txid)) c.poolDb)) :=
  ⟨rfl, rfl, rfl, rfl, rfl, fun _ _ hk => (getElem?_pool_minedOne.mp hk).2,
    fun _ _ => getElem?_commit_erase⟩

/-- The loop of `add_block` shrinks the pool, wherever it stops. -/
theorem shrunk_mineTxs (txs : List Transaction) (io : List WriteStatus) (c : Chain) :
    Shrunk c (c.mineTxs txs io).1 := by
  induction txs generalizing io c with
  | nil => exact .refl c
  | cons tx txs ih =>
    by_cases hcb : tx.isCoinbase = true
    · rw [mineTxs_coinbase hcb]
      have hcoin : Shrunk c { c with toUtxoSet := c.toUtxoSet.applyTx tx } :=
        ⟨rfl, rfl, rfl, rfl, rfl, fun _ _ h => h, fun _ _ h => h⟩
      exact hcoin.trans (ih io _)
    · rcases headD_cases io with hok | ⟨what, written, herr⟩
      · rw [mineTxs_ok hcb txs hok]
        exact (shrunk_minedOne tx .ok c).trans (ih io.tail _)
      · obtain ⟨text, heq⟩ := mineTxs_error hcb txs herr c
        rw [heq]
        exact shrunk_minedOne tx (.error what written) c

/-! ### Submitted transactions -/

/-- A transaction is admitted, whatever its write answers. -/
theorem Lasting.admitTx {c : Chain} (h : Lasting S c) {tx : Transaction} (htx : Admitted S tx)
    (status : WriteStatus) : Lasting S (c.admitTx tx status).1 := by
  have hmemory : (c.admitTx tx status).1 =
      { c with
        poolSpent := FiniteMap.insertAll c.poolSpent (tx.inputs.map fun op => (op, op))
        pool := c.pool.insert tx.txid tx
        poolDb := status.commit (c.poolDb.insert (hexKey tx.txid) tx.serialize) c.poolDb } := by
    cases status <;> rfl
  rw [hmemory]
  refine ⟨h.linked, h.height, h.difficulty, h.target, fun k t hk => ?_, fun key raw hraw => ?_,
    h.stored⟩
  · change (c.pool.insert tx.txid tx)[k]? = some t at hk
    rw [FiniteMap.getElem?_insert_eq] at hk
    split at hk
    · next hkey =>
      obtain rfl := Option.some.inj hk
      exact ⟨hkey, htx⟩
    · exact h.pool k t hk
  · have hinsert : (c.poolDb.insert (hexKey tx.txid) tx.serialize)[key]? = some raw →
        ∃ tx, Admitted S tx ∧ raw = tx.serialize := by
      intro hget
      rw [FiniteMap.getElem?_insert_eq] at hget
      split at hget
      · exact ⟨tx, htx, (Option.some.inj hget).symm⟩
      · exact h.poolDb key raw hget
    cases status with
    | ok => exact hinsert hraw
    | error what written =>
      cases written with
      | true => exact hinsert hraw
      | false => exact h.poolDb key raw hraw

/-- What both protocols do with a transaction. -/
theorem Lasting.addTx {c : Chain} (h : Lasting S c) {st : SignedTransaction}
    (hc : st.tx.Constructed S) (status : WriteStatus) :
    Lasting S (c.addTx S st status).1 ∧ (c.addTx S st status).1.blocks = c.blocks ∧
      (c.addTx S st status).1.blocksDb = c.blocksDb := by
  rcases addTx_cases S st status c with hsame | ⟨hv, hadd⟩
  · rw [hsame]
    exact ⟨h, rfl, rfl⟩
  · rw [hadd]
    refine ⟨h.admitTx ⟨hc, hv.inputs_ne, hv.outputs_ne⟩ status, ?_⟩
    cases status <;> exact ⟨rfl, rfl⟩

/-! ### Submitted blocks -/

/-- What references resolve to is in the pool. -/
theorem mem_pool_of_resolve {pool : FiniteMap Hash Transaction} {txids : List Hash}
    {refs : List Transaction} (h : txids.mapM (fun txid => pool[txid]?) = some refs) :
    refs.length = txids.length ∧ ∀ tx ∈ refs, ∃ k : Hash, pool[k]? = some tx := by
  induction txids generalizing refs with
  | nil =>
    rw [List.mapM_nil] at h
    cases h
    simp
  | cons txid txids ih =>
    obtain ⟨tx, rest, hget, hrest, rfl⟩ := mapM_cons_eq_some.mp h
    obtain ⟨hlen, hmem⟩ := ih hrest
    refine ⟨by rw [List.length_cons, List.length_cons, hlen], ?_⟩
    rw [List.forall_mem_cons]
    exact ⟨⟨txid, hget⟩, hmem⟩

/-- A block that `on_create_block` accepts may be appended, whatever the pool has become. -/
theorem Lasting.appendable {c : Chain} (h : Lasting S c) {payload : FramePayload} {blk : Block}
    (haccept : acceptBlock S payload.bytes c = .ok blk) : Appendable S c.blocks blk := by
  obtain ⟨sub, refs, hcount, hpre, hresolve, rfl, hmerkle, hwork, hparent⟩ :=
    acceptBlock_eq_ok.mp haccept
  obtain ⟨hlen, hin⟩ := mem_pool_of_resolve hresolve
  have hadmitted : ∀ tx ∈ refs, Admitted S tx := by
    intro tx htx
    obtain ⟨k, hk⟩ := hin tx htx
    exact (h.pool k tx hk).2
  have hshort := hpre.length_le
  have hfits := payload.fits
  rw [sub.length_bytes] at hshort
  refine ⟨⟨rfl, rfl, ?_, ?_, ?_⟩, ?_, ?_⟩
  · show refs.length + 1 < 2 ^ 32
    omega
  · show ∀ tx ∈ sub.coinbase S :: refs, tx.Constructed S
    rw [List.forall_mem_cons]
    exact ⟨constructed_coinbase _ _ _, fun tx htx => (hadmitted tx htx).constructed⟩
  · exact ⟨sub.coinbase S, refs, rfl, rfl, rfl, fun tx htx =>
      ⟨(hadmitted tx htx).inputs_ne, (hadmitted tx htx).outputs_ne⟩⟩
  · intro last hlast
    show sub.prevHash = last.hash
    rw [hparent, Chain.tipHash, hlast]
    rfl
  · rw [h.target] at hwork
    exact (compare_leading_zeros_iff (sub.block S refs).hash.size_data).mp hwork

/-- The chain when its next block is stored, and memory does not have it yet. -/
def Chain.ahead (blk : Block) (c : Chain) : Chain :=
  { c with blocksDb :=
      c.blocksDb.insert (blockKey (UInt32.ofNat c.blocks.length)) blk.serialize }

/-- The chain when memory has the block. -/
def Chain.appended (blk : Block) (c : Chain) : Chain :=
  { c.ahead blk with blocks := c.blocks ++ [blk], height := c.height + 1 }

/-- A submission that is accepted calls `add_block`. -/
theorem fst_onCreateBlock_of_accept {c : Chain} {payload : Bytes} {blk : Block}
    (h : acceptBlock S payload c = .ok blk) (io : List WriteStatus) :
    (onCreateBlock S payload io c).1 = (c.addBlock blk io).1 := by
  rw [onCreateBlock, h]
  dsimp only
  rcases c.addBlock blk io with ⟨c', what | u⟩ <;> rfl

/-- What `add_block` does after its loop, whatever the write of the block answers. -/
theorem addBlock_cases (blk : Block) (io : List WriteStatus) (c : Chain) :
    Shrunk c (c.addBlock blk io).1 ∨
    ∃ c', Shrunk c c' ∧
      ((c.addBlock blk io).1 = c'.ahead blk ∨ (c.addBlock blk io).1 = c'.appended blk) := by
  have hloop := shrunk_mineTxs blk.transactions io c
  unfold Chain.addBlock
  generalize c.mineTxs blk.transactions io = res at hloop ⊢
  obtain ⟨c', what | io'⟩ := res
  · exact Or.inl hloop
  · dsimp only
    unfold Chain.storeBlock
    cases io'.headD .ok with
    | ok => exact Or.inr ⟨c', hloop, Or.inr rfl⟩
    | error what written =>
      cases written with
      | true => exact Or.inr ⟨c', hloop, Or.inl rfl⟩
      | false => exact Or.inl hloop

/-- The next block is stored. -/
theorem Lasting.ahead {c : Chain} (h : Lasting S c) (hlen : c.blocks.length < 2 ^ 32)
    {blk : Block} (ha : Appendable S c.blocks blk) : Lasting S (c.ahead blk) where
  linked := h.linked
  height := h.height
  difficulty := h.difficulty
  target := h.target
  pool := h.pool
  poolDb := h.poolDb
  stored := by
    obtain ⟨extra, hextra, -, -, hdb⟩ := h.stored
    refine ⟨[blk], le_rfl, ?_, h.linked.append ha, hdb.overwrite hextra hlen blk⟩
    show (c.blocks ++ [blk]).length ≤ 2 ^ 32
    rw [List.length_append]
    exact hlen

/-- Memory has the block that was stored. -/
theorem Lasting.appended {c : Chain} (h : Lasting S c) (hlen : c.blocks.length < 2 ^ 32)
    {blk : Block} (ha : Appendable S c.blocks blk) : Lasting S (c.appended blk) where
  linked := h.linked.append ha
  height := by
    show c.height + 1 = UInt32.ofNat (c.blocks ++ [blk]).length
    rw [h.height, List.length_append]
    exact (UInt32.ofNat_add _ _).symm
  difficulty := h.difficulty
  target := h.target
  pool := h.pool
  poolDb := h.poolDb
  stored := by
    obtain ⟨extra, hextra, -, -, hdb⟩ := h.stored
    refine ⟨[], Nat.zero_le _, ?_⟩
    rw [List.append_nil]
    refine ⟨?_, h.linked.append ha, hdb.overwrite hextra hlen blk⟩
    show (c.blocks ++ [blk]).length ≤ 2 ^ 32
    rw [List.length_append]
    exact hlen

/-- A block is added, whatever its writes answer. -/
theorem Lasting.addBlock {c : Chain} (h : Lasting S c) (hlen : c.blocks.length < 2 ^ 32)
    {blk : Block} (ha : Appendable S c.blocks blk) (io : List WriteStatus) :
    Lasting S (c.addBlock blk io).1 ∧
      ((c.addBlock blk io).1.blocks = c.blocks ∨
        (c.addBlock blk io).1.blocks = c.blocks ++ [blk]) ∧
      (blk.header.timestamp.Printable → PrintableDb S c.blocksDb →
        PrintableDb S (c.addBlock blk io).1.blocksDb) := by
  rcases addBlock_cases blk io c with hshrunk | ⟨c', hshrunk, hcases⟩
  · refine ⟨h.shrunk hshrunk, Or.inl hshrunk.blocks, fun _ hdb => ?_⟩
    rwa [hshrunk.blocksDb]
  · have hlast := h.shrunk hshrunk
    rw [← hshrunk.blocks] at hlen ha ⊢
    rw [← hshrunk.blocksDb]
    have hinsert : blk.header.timestamp.Printable → PrintableDb S c'.blocksDb →
        PrintableDb S (c'.ahead blk).blocksDb :=
      fun hprint hdb => hdb.insert ha.good hprint _
    rcases hcases with heq | heq
    · rw [heq]
      exact ⟨hlast.ahead hlen ha, Or.inl rfl, hinsert⟩
    · rw [heq]
      exact ⟨hlast.appended hlen ha, Or.inr rfl, hinsert⟩

/-! ### Restarts -/

/-- The blocks of a stored chain are read back in its order. -/
theorem StoredBlocks.mapM_eq {blocks : List Block} {blocksDb : Db}
    (h : StoredBlocks blocks blocksDb) (hlen : blocks.length ≤ 2 ^ 32)
    (hgood : ∀ blk ∈ blocks, BlockGood S blk) :
    blocksDb.toList.mapM (readEntry S) = .ok blocks := by
  rw [h.toList_eq hlen, Scan.mapM_eq_ok_iff, List.forall₂_map_left_iff]
  have hsnd := map_snd_chainEntries blocks
  have hall : List.Forall₂ (fun e blk => readEntry S (blockEntry e) = .ok blk)
      (chainEntries blocks) ((chainEntries blocks).map Prod.snd) := by
    rw [List.forall₂_map_right_iff, List.forall₂_same]
    intro e he
    have hmem : e.2 ∈ blocks := hsnd ▸ List.mem_map_of_mem he
    have hrun := Block.run_deserialize_serialize (hgood e.2 hmem).storable
    exact readEntry_eq_ok_iff.mpr ⟨_, hrun, rfl⟩
  rwa [hsnd] at hall

/-- What is read from the value of an admitted transaction. -/
theorem Admitted.ofBytes {tx : Transaction} (h : Admitted S tx) :
    Transaction.ofBytes tx.serialize = .ok tx :=
  Transaction.ofBytes_serialize h.constructed.sized

/-- **A restart succeeds**, and finds the block that was stored ahead of memory. -/
theorem Lasting.restart {c : Chain} (h : Lasting S c) (status : WriteStatus) :
    ∃ c' extra, boot S status c.blocksDb c.poolDb = .ok c' ∧ Lasting S c' ∧
      c'.blocks = c.blocks ++ extra ∧ extra.length ≤ 1 ∧
      c'.toUtxoSet = UtxoSet.replay c'.txs ∧ c'.blocksDb = c.blocksDb := by
  obtain ⟨extra, hextra, hlen, hlinked, hdb⟩ := h.stored
  have hblks := hdb.mapM_eq hlen hlinked.good
  have hloads : PoolLoads c.poolDb := by
    intro key raw hraw
    obtain ⟨tx, htx, rfl⟩ := h.poolDb key raw hraw
    exact ⟨tx, htx.ofBytes⟩
  obtain ⟨txs, htxs⟩ := (exists_txs_iff c.poolDb).mpr hloads
  refine ⟨assemble (c.blocks ++ extra) txs c.blocksDb c.poolDb, extra, ?_, ?_, rfl, hextra,
    rfl, rfl⟩
  · rw [boot_eq, hblks]
    show (c.poolDb.toList.mapM readPoolEntry).bind _ = _
    rw [htxs]
    exact if_neg hlinked.ne
  · refine ⟨hlinked, rfl, rfl, rfl, fun k tx hk => ?_, h.poolDb, [], Nat.zero_le _, ?_⟩
    · obtain ⟨hkey, key, raw, hraw, hread, -⟩ :=
        ((assemble_pool htxs (c.blocks ++ extra) c.blocksDb).1 k tx).mp hk
      obtain ⟨tx', htx', rfl⟩ := h.poolDb key raw hraw
      rw [htx'.ofBytes] at hread
      rw [← Except.ok.inj hread] at hkey ⊢
      exact ⟨hkey, htx'⟩
    · rw [List.append_nil]
      exact ⟨hlen, hlinked, hdb⟩

/-- The blocks in memory are stored, and so printable when those of the database are. -/
theorem Lasting.printable {c : Chain} (h : Lasting S c) (hdb : PrintableDb S c.blocksDb) :
    ∀ blk ∈ c.blocks, blk.header.timestamp.Printable := by
  intro blk hblk
  obtain ⟨extra, -, -, -, hstored⟩ := h.stored
  obtain ⟨i, hi⟩ := List.getElem?_of_mem (List.mem_append_left extra hblk)
  exact hdb blk (h.linked.good blk hblk)
    ⟨blockKey (UInt32.ofNat i), (hstored _ _).mpr ⟨i, blk, hi, rfl, rfl⟩⟩

/-! ### Runs with failing writes -/

/-- A submitted block is printable. -/
def Attempt.Printable : Attempt → Prop
  | .createBlock payload _ => (Op.createBlock payload).Printable
  | _ => True

instance : DecidablePred Attempt.Printable
  | .createBlock payload _ => inferInstanceAs (Decidable (Op.createBlock payload).Printable)
  | .createTx _ _ | .postTx _ _ | .restart => inferInstanceAs (Decidable True)

/-- **The step lemma**: whatever an operation is and whatever its writes answer, it goes
through, what lasts lasts, and no block is lost; a printable one keeps the stored blocks
printable. -/
theorem Lasting.step {c : Chain} (h : Lasting S c) (hlen : c.blocks.length < 2 ^ 32)
    (a : Attempt) :
    ∃ c', attempt S a c = .ok c' ∧ (Lasting S c' ∧ (a.Printable → PrintableDb S c.blocksDb →
      PrintableDb S c'.blocksDb)) ∧ c.blocks <+: c'.blocks ∧
      c'.blocks.length ≤ c.blocks.length + 1 := by
  have hkept : ∀ {c' : Chain}, Lasting S c' → c'.blocks = c.blocks → c'.blocksDb = c.blocksDb →
      (Lasting S c' ∧ (a.Printable → PrintableDb S c.blocksDb → PrintableDb S c'.blocksDb)) ∧
        c.blocks <+: c'.blocks ∧ c'.blocks.length ≤ c.blocks.length + 1 := by
    intro c' hlast hblocks hdb
    rw [hblocks, hdb]
    exact ⟨⟨hlast, fun _ => id⟩, List.prefix_rfl, Nat.le_succ _⟩
  have hadded : ∀ {st : SignedTransaction} (status : WriteStatus), st.tx.Constructed S →
      (Lasting S (c.addTx S st status).1 ∧ (a.Printable → PrintableDb S c.blocksDb →
        PrintableDb S (c.addTx S st status).1.blocksDb)) ∧
        c.blocks <+: (c.addTx S st status).1.blocks ∧
        (c.addTx S st status).1.blocks.length ≤ c.blocks.length + 1 := by
    intro st status hc
    obtain ⟨hlast, hblocks, hdb⟩ := h.addTx hc status
    exact hkept hlast hblocks hdb
  have hsame := hkept h rfl rfl
  cases a with
  | createTx payload status =>
    refine ⟨_, rfl, ?_⟩
    rcases fst_onCreateTx (S := S) payload.bytes status c with heq | ⟨parsed, r, hrun, heq⟩
    · rwa [heq]
    · rw [heq]
      exact hadded status (constructed_signed payload.fits hrun)
  | postTx raw status =>
    refine ⟨_, rfl, ?_⟩
    rcases fst_postTransaction (S := S) raw.bytes status c with heq | ⟨parsed, r, hrun, heq⟩
    · rwa [heq]
    · have hfits := raw.fits
      rw [heq]
      exact hadded status (constructed_signed (by omega) hrun)
  | createBlock payload io =>
    refine ⟨_, rfl, ?_⟩
    cases haccept : acceptBlock S payload.bytes c with
    | error e =>
      rw [onCreateBlock, haccept]
      exact hsame
    | ok blk =>
      obtain ⟨hlast, hblocks, hdb⟩ := h.addBlock hlen (h.appendable haccept) io
      rw [fst_onCreateBlock_of_accept haccept]
      refine ⟨⟨hlast, fun hprint => hdb (printable_of_acceptBlock haccept hprint)⟩, ?_⟩
      rcases hblocks with heq | heq
      · rw [heq]
        exact hsame.2
      · rw [heq, List.length_append]
        exact ⟨List.prefix_append _ _, le_rfl⟩
  | restart =>
    obtain ⟨c', extra, hboot, hlast, hblocks, hextra, -, hdb⟩ := h.restart .ok
    refine ⟨c', hboot, ⟨hlast, fun _ hprint => hdb ▸ hprint⟩, ?_⟩
    rw [hblocks, List.length_append]
    exact ⟨List.prefix_append _ _, by omega⟩

/-- **The run lemma.** -/
theorem Lasting.exec {c : Chain} (h : Lasting S c) (attempts : List Attempt)
    (hlen : c.blocks.length + attempts.length ≤ 2 ^ 32) :
    ∃ c', Transition.exec (attempt S) attempts c = .ok c' ∧ (Lasting S c' ∧
      ((∀ a ∈ attempts, a.Printable) → PrintableDb S c.blocksDb → PrintableDb S c'.blocksDb)) ∧
      c.blocks <+: c'.blocks ∧ c'.blocks.length ≤ c.blocks.length + attempts.length := by
  refine Transition.exec_rule (R := fun c c' => c.blocks <+: c'.blocks)
    (I := fun d => Lasting S d ∧ ((∀ a ∈ attempts, a.Printable) → PrintableDb S c.blocksDb →
      PrintableDb S d.blocksDb))
    (fun c => c.blocks.length) (fun _ => List.prefix_rfl) (fun _ _ _ => List.IsPrefix.trans)
    ?_ ⟨h, fun _ => id⟩ hlen
  rintro a hmem d ⟨hlast, hdb⟩ hlt
  obtain ⟨d', hstep, ⟨hlast', hdb'⟩, hrest⟩ := hlast.step hlt a
  exact ⟨d', hstep, ⟨hlast', fun hprint hc => hdb' (hprint a hmem) (hdb hprint hc)⟩, hrest⟩

/-- **Whatever writes fail, the node can be restarted** as far as it can print its blocks.  In
a run of fewer than `2 ^ 32` operations and restarts, with any answers of any writes, each
constructor builds a state, up to its printing; the blocks in memory form a chain at any time,
and none is ever lost or replaced.  One more restart finds all of them, at most one more block,
the one that was stored when its write answered an error, and the UTXO set of just these
blocks.  It goes through with its printing when all of them are printable, which they are when
all submitted blocks were, and ends the process otherwise. -/
theorem faults_recover (S : Sodium) (before after : List Attempt)
    (hlen : (before ++ after).length + 1 < 2 ^ 32) :
    ∃ c c', Transition.exec (attempt S) before (genesisChain S) = .ok c ∧
      Transition.exec (attempt S) after c = .ok c' ∧ Linked S c'.blocks ∧
      c.blocks <+: c'.blocks ∧
      ∃ c'' extra, boot S .ok c'.blocksDb c'.poolDb = .ok c'' ∧ Linked S c''.blocks ∧
        c''.blocks = c'.blocks ++ extra ∧ extra.length ≤ 1 ∧
        c''.toUtxoSet = UtxoSet.replay c''.txs ∧
        (bootPrinted S .ok c'.blocksDb c'.poolDb = some (.ok c'') ↔
          ∀ blk ∈ c''.blocks, blk.header.timestamp.Printable) ∧
        ((∀ a ∈ before ++ after, a.Printable) →
          ∀ blk ∈ c''.blocks, blk.header.timestamp.Printable) := by
  rw [List.length_append] at hlen
  have hone : (genesisChain S).blocks.length = 1 := rfl
  obtain ⟨c, hbefore, ⟨hlast, hdb⟩, -, hgrow⟩ :=
    lasting_genesisChain.exec (S := S) before (by omega)
  obtain ⟨c', hafter, ⟨hlast', hdb'⟩, hfront, -⟩ := hlast.exec after (by omega)
  obtain ⟨c'', extra, hboot, hlast'', hblocks, hextra, hreplay, hsame⟩ := hlast'.restart .ok
  refine ⟨c, c', hbefore, hafter, hlast'.linked, hfront, c'', extra, hboot, hlast''.linked,
    hblocks, hextra, hreplay, bootPrinted_iff_printable hboot, fun hall => hlast''.printable ?_⟩
  rw [List.forall_mem_append] at hall
  rw [hsame]
  exact hdb' hall.2 (hdb hall.1 allPrintable_genesis.stored)

namespace Sample

/-- The sample run without a failing write. -/
def attempts : List Attempt :=
  [.createBlock frame₁ [], .createBlock frame₂ [], .createTx payment₁ .ok, .postTx payment₂ .ok]

/-- The third block reaches the database when its write fails, after a deletion that failed. -/
def failures : List Attempt :=
  [.createBlock submission₃ failing, .createBlock submission₃ [.ok, .ok, .error "IO error" true]]

end Sample

/-- The sample run with failing writes, none of whose blocks keeps it from starting again. -/
theorem faults_recover_failures : ∃ c c',
    Transition.exec (attempt Sample.sodium) Sample.attempts (genesisChain Sample.sodium) = .ok c ∧
    Transition.exec (attempt Sample.sodium) Sample.failures c = .ok c' ∧
    Linked Sample.sodium c'.blocks ∧ c.blocks <+: c'.blocks ∧
    ∃ c'' extra, bootPrinted Sample.sodium .ok c'.blocksDb c'.poolDb = some (.ok c'') ∧
      Linked Sample.sodium c''.blocks ∧ c''.blocks = c'.blocks ++ extra ∧ extra.length ≤ 1 ∧
      c''.toUtxoSet = UtxoSet.replay c''.txs := by
  obtain ⟨c, c', hbefore, hafter, hlinked, hfront, c'', extra, -, hlinked', hblocks, hextra,
    hreplay, hboot, hprint⟩ :=
    faults_recover Sample.sodium Sample.attempts Sample.failures (by decide)
  exact ⟨c, c', hbefore, hafter, hlinked, hfront, c'', extra,
    hboot.mpr (hprint (by decide +kernel)), hlinked', hblocks, hextra, hreplay⟩

/-! ### Crashes as failing writes -/

/-- An operation whose writes succeed, as an attempt. -/
def Op.attempt : Op → Attempt
  | .createTx payload => .createTx payload .ok
  | .postTx raw => .postTx raw .ok
  | .createBlock payload => .createBlock payload []
  | .restart => .restart

theorem attempt_attempt (op : Op) (c : Chain) : attempt S op.attempt c = step S op c := by
  cases op <;> rfl

/-- A restart alone. -/
theorem exec_restart (c : Chain) :
    Transition.exec (attempt S) [.restart] c = boot S .ok c.blocksDb c.poolDb := by
  show (boot S .ok c.blocksDb c.poolDb).bind .ok = _
  cases boot S .ok c.blocksDb c.poolDb <;> rfl

/-- An attempt that goes through, and a restart. -/
theorem exec_attempt_restart {a : Attempt} {c c' : Chain} (h : attempt S a c = .ok c') :
    Transition.exec (attempt S) [a, .restart] c = boot S .ok c'.blocksDb c'.poolDb := by
  rw [Transition.exec, h]
  exact exec_restart c'

/-- What a crash of `add_tx` leaves: the databases of before the call, or those of after
it. -/
theorem txWrites_cases (st : SignedTransaction) (c : Chain) (writes : ℕ) :
    ((txWrites S st c).take writes).foldl OpWrite.apply (c.blocksDb, c.poolDb) =
        (c.blocksDb, c.poolDb) ∨
      ((txWrites S st c).take writes).foldl OpWrite.apply (c.blocksDb, c.poolDb) =
        ((c.addTx S st .ok).1.blocksDb, (c.addTx S st .ok).1.poolDb) := by
  unfold txWrites Chain.addTx
  cases c.checkTx S st with
  | error err => exact Or.inl (by rw [List.take_nil]; rfl)
  | ok u =>
    cases writes with
    | zero => exact Or.inl rfl
    | succ n => exact Or.inr (by rw [List.take_succ_cons, List.take_nil]; rfl)

/-- **A crash is a lost write and a restart**, or a restart after an operation that ended, or
before one that began; the databases never tell which. -/
theorem crash_cases_attempt (op : Op) (writes : ℕ) (c : Chain) :
    crashed S op writes c = (c.blocksDb, c.poolDb) ∨
    ∃ a c', attempt S a c = .ok c' ∧ crashed S op writes c = (c'.blocksDb, c'.poolDb) := by
  cases op with
  | createTx payload =>
    dsimp only [crashed, opWrites]
    cases hrun : parseCreateTxPayload.run ⟨payload.bytes, 0⟩ with
    | error what => exact Or.inl (by rw [List.take_nil]; rfl)
    | ok p =>
      obtain ⟨parsed, r⟩ := p
      have hfst : (onCreateTx S payload.bytes .ok c).1 = (c.addTx S (parsed.signed S) .ok).1 := by
        rw [onCreateTx, hrun]
        dsimp only
        rcases c.addTx S (parsed.signed S) .ok with ⟨c', what | err⟩ <;> rfl
      refine (txWrites_cases (parsed.signed S) c writes).imp_right fun hdbs => ?_
      exact ⟨.createTx payload .ok, _, rfl, by rw [hfst]; exact hdbs⟩
  | postTx raw =>
    dsimp only [crashed, opWrites]
    cases hparse : parseSignedTransactionPayload S raw.bytes with
    | error what => exact Or.inl (by rw [List.take_nil]; rfl)
    | ok st =>
      refine (txWrites_cases st c writes).imp_right fun hdbs => ?_
      exact ⟨.postTx raw .ok, _, rfl, by rw [fst_postTransaction_of_parse hparse]; exact hdbs⟩
  | createBlock payload =>
    dsimp only [crashed, opWrites]
    cases haccept : acceptBlock S payload.bytes c with
    | error e => exact Or.inl (by rw [List.take_nil]; rfl)
    | ok blk =>
      refine Or.inr ?_
      dsimp only
      rw [← List.map_take, foldl_block]
      rcases Nat.lt_or_ge writes (blockWrites blk c).length with hlt | hge
      · -- the first write that is not made is one that fails and is lost
        refine ⟨.createBlock payload (List.replicate writes .ok ++ [.error "" false]), _, rfl, ?_⟩
        rw [fst_onCreateBlock_of_accept haccept]
        exact (databases_addBlock_lost hlt "").symm
      · refine ⟨.createBlock payload [], _, rfl, ?_⟩
        rw [fst_onCreateBlock_of_accept haccept, addBlock_nil, List.take_of_length_le hge]
        have hall := crashImage_all blk c
        rwa [crashImage, List.take_length] at hall
  | restart =>
    dsimp only [crashed, opWrites]
    exact Or.inl (by rw [List.take_nil]; rfl)

/-- A step of a run with crashes, as a run with failing writes. -/
theorem stepFault_eq_exec (fault : Fault) (c : Chain) :
    ∃ attempts : List Attempt, attempts.length ≤ 2 ∧
      Transition.exec (attempt S) attempts c = stepFault S fault c := by
  cases fault with
  | run op =>
    refine ⟨[op.attempt], by simp, ?_⟩
    show (attempt S op.attempt c).bind .ok = step S op c
    rw [attempt_attempt]
    cases step S op c <;> rfl
  | crash op writes =>
    dsimp only [stepFault]
    rcases crash_cases_attempt (S := S) op writes c with hdbs | ⟨a, c', ha, hdbs⟩
    · rw [hdbs]
      exact ⟨[.restart], by simp, exec_restart c⟩
    · rw [hdbs]
      exact ⟨[a, .restart], le_rfl, exec_attempt_restart ha⟩

/-- **Runs with crashes are runs with failing writes**, of at most twice as many operations,
from any state. -/
theorem crashes_are_faults (S : Sodium) (faults : List Fault) (c : Chain) :
    ∃ attempts : List Attempt, attempts.length ≤ 2 * faults.length ∧
      Transition.exec (attempt S) attempts c = Transition.exec (stepFault S) faults c := by
  induction faults generalizing c with
  | nil => exact ⟨[], le_rfl, rfl⟩
  | cons fault faults ih =>
    obtain ⟨first, hfirst, heq⟩ := stepFault_eq_exec (S := S) fault c
    rw [Transition.exec, ← heq, List.length_cons]
    cases hrun : Transition.exec (attempt S) first c with
    | error what => exact ⟨first, by omega, hrun⟩
    | ok c' =>
      obtain ⟨rest, hrest, hthen⟩ := ih c'
      refine ⟨first ++ rest, by rw [List.length_append]; omega, ?_⟩
      rw [Transition.exec_append, hrun]
      exact hthen

end Axis
