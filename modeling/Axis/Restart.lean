import Axis.Printing

/-!
# Restarts

A block is stored under its position modulo `2 ^ 32`.  As long as the chain has at
most that many blocks its database holds exactly its blocks, and a restart builds the
state it started from, unless printing its blocks ends the process.

## Main definitions

* `restartInRange` — the guard of runs that restart only then.
* `Kept` — what holds in every state of such a run.
* `WellFormed` — the well-formedness of a chain.

## Main results

* `boot_self` — **a restart builds the state**, up to its printing.
* `kept_of_reachable` — the invariant of runs that restart in range.
* `guarded_rule` — the rule for further invariants of such runs.
* `reachable_inRange` — a run that reaches fewer than `2 ^ 32` blocks restarted in
  range.
* `bootPrinted_of_reachable` — **restart fidelity** for printable blocks, and for no
  others.
* `wellFormed_of_reachable` — well-formedness in every such run.
-/

namespace Axis

open Positional

variable {S : Sodium}

/-! ### What is stored -/

/-- The block database holds exactly the serialized blocks, under their positions. -/
def StoredBlocks (blocks : List Block) (blocksDb : Db) : Prop :=
  ∀ key raw : Bytes, blocksDb[key]? = some raw ↔
    ∃ (i : ℕ) (blk : Block), blocks[i]? = some blk ∧ key = blockKey (UInt32.ofNat i) ∧
      raw = blk.serialize

/-- The entries of a block database, in the order of the chain. -/
def chainEntries (blocks : List Block) : List (Bytes × Block) :=
  blocks.zipIdx.map fun e => (blockKey (UInt32.ofNat e.2), e.1)

theorem map_snd_chainEntries (blocks : List Block) :
    (chainEntries blocks).map Prod.snd = blocks := by
  rw [chainEntries, List.map_map]
  exact List.zipIdx_map_fst 0 blocks

/-- **Key order is chain order**, up to `2 ^ 32` blocks. -/
theorem StoredBlocks.toList_eq {blocks : List Block} {blocksDb : Db}
    (h : StoredBlocks blocks blocksDb) (hlen : blocks.length ≤ 2 ^ 32) :
    blocksDb.toList = (chainEntries blocks).map blockEntry := by
  refine FiniteMap.toList_eq_of_pairwise _ ?_ ?_
  · rw [chainEntries, List.map_map, List.pairwise_map, List.pairwise_iff_getElem]
    intro i j hi hj hij
    rw [List.length_zipIdx] at hi hj
    rw [List.getElem_zipIdx, List.getElem_zipIdx]
    show compare (blockKey (UInt32.ofNat (0 + i))) (blockKey (UInt32.ofNat (0 + j))) = .lt
    rw [blockKey_ofNat (by omega), blockKey_ofNat (by omega)]
    exact padDec_lt_padDec (by omega) (by omega)
  · intro key raw
    rw [h key raw, chainEntries, List.map_map, List.mem_map]
    constructor
    · intro hex
      obtain ⟨⟨blk, i⟩, hmem, heq⟩ := hex
      obtain ⟨hkey, hraw⟩ := Prod.mk.inj heq
      exact ⟨i, blk, List.mem_zipIdx_iff_getElem?.mp hmem, hkey.symm, hraw.symm⟩
    · intro hex
      obtain ⟨i, blk, hget, rfl, rfl⟩ := hex
      exact ⟨(blk, i), List.mem_zipIdx_iff_getElem?.mpr hget, rfl⟩

theorem StoredBlocks.insert {c : Chain} (h : StoredBlocks c.blocks c.blocksDb)
    (hlen : c.blocks.length < 2 ^ 32) (blk : Block) :
    StoredBlocks (c.blocks ++ [blk])
      (c.blocksDb.insert (blockKey (UInt32.ofNat c.blocks.length)) blk.serialize) := by
  intro key raw
  rw [FiniteMap.getElem?_insert_eq]
  split
  · next heq =>
    subst heq
    constructor
    · intro hraw
      exact ⟨c.blocks.length, blk, by simp, rfl, (Option.some.inj hraw).symm⟩
    · intro hex
      obtain ⟨i, blk', hget, hkey, rfl⟩ := hex
      have hi := (List.getElem?_eq_some_iff.mp hget).1
      rw [List.length_append, List.length_singleton] at hi
      -- the positions stay below the range of the keys
      have hidx := blockKey_inj hlen (by omega) hkey
      rw [← hidx, List.getElem?_concat_length] at hget
      rw [Option.some.inj hget]
  · next hne =>
    rw [h key raw]
    constructor
    · intro hex
      obtain ⟨i, blk', hget, rfl, rfl⟩ := hex
      have hi := (List.getElem?_eq_some_iff.mp hget).1
      exact ⟨i, blk', by rw [List.getElem?_append_left hi, hget], rfl, rfl⟩
    · intro hex
      obtain ⟨i, blk', hget, rfl, rfl⟩ := hex
      have hi := (List.getElem?_eq_some_iff.mp hget).1
      rw [List.length_append, List.length_singleton] at hi
      have hlt : i < c.blocks.length := by
        have hne' : i ≠ c.blocks.length := by
          intro hsame
          obtain rfl := hsame
          exact hne rfl
        omega
      rw [List.getElem?_append_left hlt] at hget
      exact ⟨i, blk', hget, rfl, rfl⟩

/-- `pool_spent_` is determined by the pool. -/
theorem SpentBy.unique {pool : FiniteMap Hash Transaction}
    {poolSpent poolSpent' : FiniteMap OutPoint OutPoint} (h : SpentBy pool poolSpent)
    (h' : SpentBy pool poolSpent') : poolSpent = poolSpent' := by
  refine Std.ExtTreeMap.ext_getElem? fun op => Option.ext fun op' => ?_
  exact (h op op').trans (h' op op').symm

/-- **A restart brings back the state** of a chain whose database holds its blocks. -/
theorem boot_self {c : Chain} (hbase : Base S c) (hstored : StoredBlocks c.blocks c.blocksDb)
    (hlen : c.blocks.length ≤ 2 ^ 32) (status : WriteStatus) :
    boot S status c.blocksDb c.poolDb = .ok c := by
  have hentries : ∀ e ∈ chainEntries c.blocks, e.2.Storable S := by
    intro e he
    have hmem := List.mem_map_of_mem (f := Prod.snd) he
    rw [map_snd_chainEntries] at hmem
    exact (hbase.good _ hmem).storable
  have hne : chainEntries c.blocks ≠ [] := by
    intro hnil
    have hsnd := map_snd_chainEntries c.blocks
    rw [hnil] at hsnd
    exact hbase.blocks_ne hsnd.symm
  obtain ⟨poolSpent, hspent, hboot⟩ := boot_stored (hstored.toList_eq hlen) hentries hne
    hbase.pool.good hbase.pool.stored status
  rw [hboot, map_snd_chainEntries]
  -- the incremental updates are the replay
  have hutxo : UtxoSet.replay (c.blocks.flatMap Block.transactions) = c.toUtxoSet :=
    hbase.replayed.symm
  refine congrArg Except.ok (Chain.ext ?_ ?_ rfl hbase.height.symm hbase.difficulty.symm
    hbase.target.symm rfl (hspent.unique hbase.pool.spent) rfl rfl)
  · rw [hutxo]
  · rw [hutxo]

/-! ### Runs that restart in range -/

/-- Restarts happen only while the keys of the block database tell the blocks
apart. -/
def restartInRange (c : Chain) : Op → Prop
  | .restart => c.blocks.length ≤ 2 ^ 32
  | _ => True

instance (c : Chain) : (op : Op) → Decidable (restartInRange c op)
  | .restart => inferInstanceAs (Decidable (_ ≤ _))
  | .createTx _ | .postTx _ | .createBlock _ => inferInstanceAs (Decidable True)

/-- What holds in every state of a run that restarts in range. -/
structure Kept (S : Sodium) (c : Chain) : Prop where
  stored : c.blocks.length ≤ 2 ^ 32 → StoredBlocks c.blocks c.blocksDb
  linked : ∀ (i : ℕ) (blk blk' : Block), c.blocks[i]? = some blk → c.blocks[i + 1]? = some blk' →
    blk'.header.prevHash = blk.hash
  worked : ∀ (i : ℕ) (blk : Block), c.blocks[i + 1]? = some blk → ∀ b ∈ blk.hash.data.take 3, b = 0
  unspent : ∀ (k : Hash) (tx : Transaction), c.pool[k]? = some tx → ∀ op ∈ tx.inputs, op ∈ c.utxo

theorem kept_genesisChain : Kept S (genesisChain S) where
  stored _ := by
    have hempty : StoredBlocks [] (∅ : Db) := by
      intro key raw
      simp
    exact hempty.insert (c := { blocksDb := ∅, poolDb := ∅ }) (by norm_num) (genesisBlock S)
  linked := by
    intro i blk blk' _ hget'
    have hi := (List.getElem?_eq_some_iff.mp hget').1
    change i + 1 < 1 at hi
    omega
  worked := by
    intro i blk hget
    have hi := (List.getElem?_eq_some_iff.mp hget).1
    change i + 1 < 1 at hi
    omega
  unspent := by
    intro k tx hk
    change (∅ : FiniteMap Hash Transaction)[k]? = some tx at hk
    rw [Std.ExtTreeMap.getElem?_empty] at hk
    cases hk

theorem Kept.admitTx {c : Chain} (h : Kept S c) {st : SignedTransaction}
    (hv : Chain.Valid S st c) : Kept S (c.admitTx st.tx .ok).1 where
  stored := h.stored
  linked := h.linked
  worked := h.worked
  unspent := by
    intro k tx hk op hop
    rcases getElem?_pool_admitTx hk with ⟨-, rfl⟩ | hold
    · obtain ⟨out, hout, -⟩ := hv.owned op hop
      exact (FiniteMap.mem_iff_exists _ _).mpr ⟨out, hout⟩
    · exact h.unspent k tx hold op hop

/-- The enough work of an accepted block. -/
theorem Accepted.leading_zeros {c : Chain} {sub : BlockSubmission} {refs : List Transaction}
    (ha : Accepted S c sub refs) (htarget : c.target = target₃) :
    ∀ b ∈ (sub.block S refs).hash.data.take 3, b = 0 := by
  have hwork := ha.work
  rw [htarget] at hwork
  exact (compare_leading_zeros_iff (sub.block S refs).hash.size_data).mp hwork

/-- What a transaction of the pool spends outlasts a block it is not part of. -/
theorem mem_utxo_grown {c : Chain} (hbase : Base S c) {sub : BlockSubmission}
    {refs : List Transaction} (ha : Accepted S c sub refs) {op : OutPoint} (hop : op ∈ c.utxo)
    (hnot : op ∉ refs.flatMap Transaction.inputs) :
    op ∈ (c.grown (sub.block S refs)).utxo := by
  obtain ⟨out, hout⟩ := (FiniteMap.mem_iff_exists _ _).mp hop
  have hunspent := hbase.getElem?_utxo.mp hout
  -- the block may create it anew, but does not spend it
  obtain ⟨w, hw, -⟩ := Ledger.exists_unspent_append
    (l := (sub.block S refs).transactions) hunspent hnot
  rw [← txs_grown] at hw
  exact (FiniteMap.mem_iff_exists _ _).mpr ⟨w, (hbase.grown ha).getElem?_utxo.mpr hw⟩

theorem Kept.grown {c : Chain} (h : Kept S c) (hbase : Base S c) {sub : BlockSubmission}
    {refs : List Transaction} (ha : Accepted S c sub refs) :
    Kept S (c.grown (sub.block S refs)) where
  stored := by
    intro hlen
    change (c.blocks ++ [sub.block S refs]).length ≤ 2 ^ 32 at hlen
    rw [List.length_append, List.length_singleton] at hlen
    exact (h.stored (by omega)).insert (by omega) _
  linked := by
    intro i blk blk' hget hget'
    change (c.blocks ++ [sub.block S refs])[i]? = some blk at hget
    change (c.blocks ++ [sub.block S refs])[i + 1]? = some blk' at hget'
    have hi := (List.getElem?_eq_some_iff.mp hget').1
    rw [List.length_append, List.length_singleton] at hi
    rw [List.getElem?_append_left (by omega)] at hget
    rcases Nat.lt_or_ge (i + 1) c.blocks.length with hlt | hge
    · rw [List.getElem?_append_left hlt] at hget'
      exact h.linked i blk blk' hget hget'
    · -- the new block names the hash of the last one
      have hidx : i + 1 = c.blocks.length := by omega
      rw [hidx, List.getElem?_concat_length] at hget'
      rw [← Option.some.inj hget']
      show sub.prevHash = blk.hash
      rw [ha.parent, Chain.tipHash, List.getLast?_eq_getElem?, ← hidx, Nat.add_sub_cancel, hget]
      rfl
  worked := by
    intro i blk hget
    change (c.blocks ++ [sub.block S refs])[i + 1]? = some blk at hget
    have hi := (List.getElem?_eq_some_iff.mp hget).1
    rw [List.length_append, List.length_singleton] at hi
    rcases Nat.lt_or_ge (i + 1) c.blocks.length with hlt | hge
    · rw [List.getElem?_append_left hlt] at hget
      exact h.worked i blk hget
    · have hidx : i + 1 = c.blocks.length := by omega
      rw [hidx, List.getElem?_concat_length] at hget
      rw [← Option.some.inj hget]
      exact ha.leading_zeros hbase.target
  unspent := by
    intro k tx hk op hop
    change (FiniteMap.eraseAll c.pool
      ((spending (sub.block S refs).transactions).map Transaction.txid))[k]? = some tx at hk
    rw [spending_block sub fun t ht => ha.inputs_ne hbase.pool.good ht,
      FiniteMap.getElem?_eraseAll] at hk
    split at hk
    · cases hk
    · next hnot =>
      -- a transaction that stays in the pool shares no input with the block
      apply mem_utxo_grown hbase ha (h.unspent k tx hk op hop)
      intro hmem
      obtain ⟨t, ht, hop'⟩ := List.mem_flatMap.mp hmem
      have hkey := hbase.pool.good.disjoint k tx t.txid t op hk (ha.inPool t ht) hop hop'
      exact hnot (hkey ▸ List.mem_map_of_mem ht)

/-- **The invariant of runs that restart in range.** -/
theorem kept_of_reachable {guard : Chain → Op → Prop}
    (hguard : ∀ c op, guard c op → restartInRange c op) {c : Chain} (h : Reachable S guard c) :
    Kept S c := by
  refine Transition.Reachable.rule ?_ ?_ h
  · intro c hc
    rw [boot_empty] at hc
    rw [← Except.ok.inj hc]
    exact kept_genesisChain
  · intro c op c' hreach hkept hg hstep
    have hbase := base_of_reachable hreach
    rcases step_cases hbase.pool.good hstep with rfl | ⟨st, hv, -, rfl⟩ |
      ⟨payload, sub, refs, -, -, ha, rfl⟩ | ⟨rfl, hboot⟩
    · exact hkept
    · exact hkept.admitTx hv
    · exact hkept.grown hbase ha
    · have hlen : c.blocks.length ≤ 2 ^ 32 := hguard c .restart hg
      rw [boot_self hbase (hkept.stored hlen) hlen] at hboot
      rwa [← Except.ok.inj hboot]

/-- The guard of runs that restart in range and submit only blocks that meet a
condition. -/
def guarded (P : Chain → BlockSubmission → Prop) (c : Chain) : Op → Prop
  | .createBlock payload => ∀ sub ∈ submission payload.bytes, P c sub
  | .restart => c.blocks.length ≤ 2 ^ 32
  | _ => True

instance (P : Chain → BlockSubmission → Prop) [∀ c sub, Decidable (P c sub)] (c : Chain) :
    (op : Op) → Decidable (guarded P c op)
  | .createBlock payload =>
    inferInstanceAs (Decidable (∀ sub ∈ submission payload.bytes, P c sub))
  | .restart => inferInstanceAs (Decidable (_ ≤ _))
  | .createTx _ | .postTx _ => inferInstanceAs (Decidable True)

theorem restartInRange_of_guarded {P : Chain → BlockSubmission → Prop} {c : Chain} {op : Op}
    (h : guarded P c op) : restartInRange c op := by
  cases op with
  | restart => exact h
  | createTx | postTx | createBlock => trivial

/-- A stronger condition on the blocks guards more. -/
theorem guarded_mono {P Q : Chain → BlockSubmission → Prop} (h : ∀ c sub, P c sub → Q c sub)
    {c : Chain} {op : Op} (hg : guarded P c op) : guarded Q c op := by
  cases op with
  | createBlock payload => exact fun sub hsub => h c sub (hg sub hsub)
  | createTx | postTx => trivial
  | restart => exact hg

/-- **The rule for invariants of guarded runs.**  A restart brings back the state, so
only admitted transactions and accepted blocks have to keep the invariant. -/
theorem guarded_rule {P : Chain → BlockSubmission → Prop} {I : Chain → Prop}
    (hstart : I (genesisChain S))
    (hadmitted : ∀ c st, Base S c → I c → Chain.Valid S st c → I (c.admitTx st.tx .ok).1)
    (hgrow : ∀ c sub refs, Base S c → Kept S c → I c → P c sub → Accepted S c sub refs →
      I (c.grown (sub.block S refs)))
    {c : Chain} (h : Reachable S (guarded P) c) : I c := by
  refine Transition.Reachable.rule ?_ ?_ h
  · intro c hc
    rw [boot_empty] at hc
    rwa [← Except.ok.inj hc]
  · intro c op c' hreach hI hg hstep
    have hbase := base_of_reachable hreach
    have hkept := kept_of_reachable (fun _ _ => restartInRange_of_guarded) hreach
    rcases step_cases hbase.pool.good hstep with rfl | ⟨st, hv, -, rfl⟩ |
      ⟨payload, sub, refs, rfl, hsub, ha, rfl⟩ | ⟨rfl, hboot⟩
    · exact hI
    · exact hadmitted c st hbase hI hv
    · exact hgrow c sub refs hbase hkept hI (hg sub hsub) ha
    · have hlen : c.blocks.length ≤ 2 ^ 32 := hg
      rw [boot_self hbase (hkept.stored hlen) hlen] at hboot
      rwa [← Except.ok.inj hboot]

/-- A run that restarts in range is guarded, with no condition on its blocks. -/
theorem reachable_guarded {c : Chain} (h : Reachable S restartInRange c) :
    Reachable S (guarded fun _ _ => True) c := by
  refine h.mono fun c op hg => ?_
  cases op with
  | restart => exact hg
  | createTx | postTx => trivial
  | createBlock => exact fun _ _ => trivial

/-- A run that reaches fewer than `2 ^ 32` blocks never restarted with more. -/
theorem reachable_inRange {c : Chain} (h : Reachable S anyOp c)
    (hlen : c.blocks.length < 2 ^ 32) : Reachable S restartInRange c := by
  suffices hor : Reachable S restartInRange c ∨ 2 ^ 32 ≤ c.blocks.length by
    exact hor.resolve_right (not_le.mpr hlen)
  refine Transition.Reachable.rule (I := fun c => Reachable S restartInRange c ∨
    2 ^ 32 ≤ c.blocks.length) ?_ ?_ h
  · intro c hc
    exact Or.inl (.start hc)
  · intro c op c' hreach hor _ hstep
    have hbase := base_of_reachable hreach
    by_cases hg : restartInRange c op ∧ Reachable S restartInRange c
    · exact Or.inl (.step hg.2 hg.1 hstep)
    · -- beyond the range, the chain stays there: restarts load `2 ^ 32` blocks
      have hge : 2 ^ 32 ≤ c.blocks.length := by
        rcases hor with hr | hge
        · by_contra hlt
          refine hg ⟨?_, hr⟩
          cases op with
          | restart => exact (not_le.mp hlt).le
          | createTx | postTx | createBlock => trivial
        · exact hge
      refine Or.inr ?_
      rcases step_cases hbase.pool.good hstep with rfl | ⟨st, -, -, rfl⟩ |
        ⟨payload, sub, refs, -, -, -, rfl⟩ | ⟨-, hboot⟩
      · exact hge
      · exact hge
      · show 2 ^ 32 ≤ (c.blocks ++ [_]).length
        rw [List.length_append]
        omega
      · obtain ⟨c'', hboot', -, -, -, -, hlen', -⟩ := Base.of_boot hbase.goodDb hbase.keys
          (List.length_pos_iff.mpr hbase.blocks_ne) hbase.pool.good hbase.pool.stored .ok
        rw [hboot] at hboot'
        rw [Except.ok.inj hboot', hlen']
        omega

/-- The facts about a run that reaches fewer than `2 ^ 32` blocks. -/
theorem kept_of_length {c : Chain} (h : Reachable S anyOp c)
    (hlen : c.blocks.length < 2 ^ 32) : Kept S c :=
  kept_of_reachable (fun _ _ hg => hg) (reachable_inRange h hlen)

/-! ### Fidelity and well-formedness -/

/-- On the databases of a running node with fewer than `2 ^ 32` blocks, the constructor
builds the state the node has in memory before it prints it. -/
theorem boot_of_reachable {c : Chain} (h : Reachable S anyOp c)
    (hlen : c.blocks.length < 2 ^ 32) (status : WriteStatus) :
    boot S status c.blocksDb c.poolDb = .ok c :=
  boot_self (base_of_reachable h) ((kept_of_length h hlen).stored hlen.le) hlen.le status

/-- **Restart fidelity.**  On the databases of a running node with fewer than `2 ^ 32`
blocks, the constructor yields the state the node has in memory exactly when all blocks
are printable; so it does in every state of a run that submits printable blocks only. -/
theorem bootPrinted_of_reachable {c : Chain} (h : Reachable S anyOp c)
    (hlen : c.blocks.length < 2 ^ 32) (status : WriteStatus) :
    (bootPrinted S status c.blocksDb c.poolDb = some (.ok c) ↔
      ∀ blk ∈ c.blocks, blk.header.timestamp.Printable) ∧
    (Reachable S printableBlocks c →
      bootPrinted S status c.blocksDb c.poolDb = some (.ok c)) := by
  have hiff := bootPrinted_iff_printable (boot_of_reachable h hlen status)
  exact ⟨hiff, fun hprint => hiff.mpr (allPrintable_of_reachable hprint).loaded⟩

/-- The sample run submits printable blocks, and can be restarted before it confirms its
payments. -/
theorem bootPrinted_setup : ∃ c, run Sample.sodium Sample.setup = .ok c ∧ c.pool.size = 2 ∧
    bootPrinted Sample.sodium .ok c.blocksDb c.poolDb = some (.ok c) := by
  obtain ⟨c, hrun, hreach, hpool, hlen⟩ := exists_reachable (S := Sample.sodium)
    printableBlocks Sample.setup (fun c => c.pool.size = 2 ∧ c.blocks.length < 2 ^ 32)
    (by decide +kernel)
  have hany : Reachable Sample.sodium anyOp c := hreach.mono fun _ _ _ => trivial
  exact ⟨c, hrun, hpool, (bootPrinted_of_reachable hany hlen .ok).2 hreach⟩

/-- **An accepted block keeps a node from starting again**: the constructor ends the
process on the databases of a node with two blocks. -/
theorem bootPrinted_far : ∃ c,
    run Sample.sodiumFar [.createBlock (Sample.blockFar.frame (by decide))] = .ok c ∧
    Reachable Sample.sodiumFar anyOp c ∧ c.blocks.length = 2 ∧
    bootPrinted Sample.sodiumFar .ok c.blocksDb c.poolDb = none := by
  obtain ⟨c, hrun, hreach, hlen, hboot⟩ := exists_reachable_any (S := Sample.sodiumFar)
    [.createBlock (Sample.blockFar.frame (by decide))]
    (fun c => c.blocks.length = 2 ∧
      (bootPrinted Sample.sodiumFar .ok c.blocksDb c.poolDb).isNone = true) (by decide +kernel)
  exact ⟨c, hrun, hreach, hlen, Option.isNone_iff_eq_none.mp hboot⟩

/-- The well-formedness of a chain: of its blocks, of their links, and of the
database they are stored in. -/
structure WellFormed (S : Sodium) (c : Chain) : Prop where
  blocks_ne : c.blocks ≠ []
  height : c.height.toNat = c.blocks.length
  linked : ∀ (i : ℕ) (blk blk' : Block), c.blocks[i]? = some blk → c.blocks[i + 1]? = some blk' →
    blk'.header.prevHash = blk.hash
  worked : ∀ (i : ℕ) (blk : Block), c.blocks[i + 1]? = some blk →
    ∀ b ∈ blk.hash.data.take c.difficulty.toNat, b = 0
  hash : ∀ blk ∈ c.blocks, blk.hash = blake2b S blk.header.bytes
  merkle : ∀ blk ∈ c.blocks,
    blk.header.merkleRoot = computeMerkleRoot S (blk.transactions.map Transaction.txid)
  coinbase : ∀ blk ∈ c.blocks, ∃ cb txs, blk.transactions = cb :: txs ∧ cb.isCoinbase = true ∧
    cb.outputs.length = 1 ∧ ∀ tx ∈ txs, tx.inputs ≠ []
  txid : ∀ blk ∈ c.blocks, ∀ tx ∈ blk.transactions,
    tx.txid = blake2b S (Transaction.preimage tx.inputs tx.outputs tx.timestamp)
  stored : StoredBlocks c.blocks c.blocksDb

/-- **Chain well-formedness** in every state with fewer than `2 ^ 32` blocks. -/
theorem wellFormed_of_reachable {c : Chain} (h : Reachable S anyOp c)
    (hlen : c.blocks.length < 2 ^ 32) : WellFormed S c := by
  have hbase := base_of_reachable h
  have hkept := kept_of_length h hlen
  constructor
  · exact hbase.blocks_ne
  · rw [hbase.height, UInt32.toNat_ofNat', Nat.mod_eq_of_lt hlen]
  · exact hkept.linked
  · rw [hbase.difficulty]
    exact hkept.worked
  · exact fun blk hblk => (hbase.good blk hblk).hash
  · exact fun blk hblk => (hbase.good blk hblk).merkle
  · intro blk hblk
    obtain ⟨cb, txs, htxs, hcb, hout, hne⟩ := (hbase.good blk hblk).shape
    exact ⟨cb, txs, htxs, List.isEmpty_iff.mpr hcb, hout, fun tx htx => (hne tx htx).1⟩
  · exact fun blk hblk tx htx => ((hbase.good blk hblk).constructed tx htx).txid
  · exact hkept.stored hlen.le

/-- The sample run reaches a well-formed chain of four blocks. -/
theorem wellFormed_confirmed : ∃ c, run Sample.sodium Sample.confirmed = .ok c ∧
    c.blocks.length = 4 ∧ WellFormed Sample.sodium c := by
  obtain ⟨c, hrun, hreach, hlen⟩ := exists_reachable_any (S := Sample.sodium) Sample.confirmed
    (fun c => c.blocks.length = 4) (by decide +kernel)
  exact ⟨c, hrun, hlen, wellFormed_of_reachable hreach (by omega)⟩

end Axis
