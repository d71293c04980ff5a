import Axis.DoubleSpend

/-!
# Outputs are created once

The txid of a coinbase depends on its address, reward and timestamp alone, which
the miner chooses; that of any other transaction is new because its first input
was unspent.

## Main definitions

* `uniqueBlock` — a submitted block without repeated references and with a new
  coinbase.
* `CreatedOnce` — no two confirmed transactions share a txid.

## Main results

* `freshTxids_of_unique` — **the txids of such a block are new**, when no two
  hashed strings collide.
* `createdOnce_of_reachable` — every output is created at most once.
-/

namespace Axis

open Positional

variable {S : Sodium}

/-- The bytes the txid of a transaction is the hash of. -/
def Transaction.hashed (tx : Transaction) : Bytes :=
  Transaction.preimage tx.inputs tx.outputs tx.timestamp

/-! ### Hashed bytes -/

/-- The hashed bytes of a coinbase with one output. -/
theorem length_hashed_coinbase {tx : Transaction} (hin : tx.inputs = [])
    (hout : tx.outputs.length = 1) : tx.hashed.length = 36 := by
  rw [Transaction.hashed, Transaction.length_preimage, hin, hout]
  rfl

theorem BlockSubmission.length_hashed_coinbase (sub : BlockSubmission) :
    (sub.coinbase S).hashed.length = 36 :=
  Axis.length_hashed_coinbase rfl rfl

/-- Any other transaction hashes more bytes. -/
theorem lt_length_hashed {tx : Transaction} (hin : tx.inputs ≠ []) (hout : tx.outputs ≠ []) :
    64 < tx.hashed.length := by
  have hpos := List.length_pos_iff.mpr hin
  have hpos' := List.length_pos_iff.mpr hout
  rw [Transaction.hashed, Transaction.length_preimage]
  omega

/-- Transactions with the same hashed bytes have the same first input. -/
theorem exists_common_input {tx tx' : Transaction} (hin : tx.inputs ≠ [])
    (hin' : tx'.inputs ≠ []) (h : tx.hashed = tx'.hashed) :
    ∃ op, op ∈ tx.inputs ∧ op ∈ tx'.inputs := by
  obtain ⟨op, ops, hops⟩ := List.exists_cons_of_ne_nil hin
  obtain ⟨op', ops', hops'⟩ := List.exists_cons_of_ne_nil hin'
  rw [Transaction.hashed, Transaction.hashed, Transaction.preimage_eq, Transaction.preimage_eq,
    hops, hops', List.flatMap_cons, List.flatMap_cons, List.append_assoc, List.append_assoc] at h
  have hsame := (Transaction.codeOutPoint.prefix_free trivial trivial h).1
  rw [hops, hops', ← hsame]
  exact ⟨op, List.mem_cons_self, List.mem_cons_self⟩

/-- The hashed bytes of a coinbase determine it. -/
theorem coinbase_of_hashed {tx tx' : Transaction} {out out' : TxOutput} (hin : tx.inputs = [])
    (hin' : tx'.inputs = []) (hout : tx.outputs = [out]) (hout' : tx'.outputs = [out'])
    (h : tx.hashed = tx'.hashed) : out = out' ∧ tx.timestamp = tx'.timestamp := by
  rw [Transaction.hashed, Transaction.hashed, Transaction.preimage_eq, Transaction.preimage_eq,
    hin, hin', hout, hout', List.flatMap_nil, List.nil_append, List.nil_append,
    List.flatMap_singleton, List.flatMap_singleton] at h
  -- an output and a timestamp follow each other without a count between them
  obtain ⟨hsame, hts⟩ := Transaction.codeTxOutput.prefix_free trivial trivial h
  have hnat := leBytes_injOn (w := 8) tx.timestamp.value.toNat_lt tx'.timestamp.value.toNat_lt hts
  exact ⟨hsame, Timestamp.ext (UInt64.toNat_inj.mp hnat)⟩

/-! ### New txids -/

/-- A confirmed transaction is a coinbase with one output, or spends something. -/
theorem Base.shape_of_mem {c : Chain} (h : Base S c) {tx : Transaction} (htx : tx ∈ c.txs) :
    tx.inputs = [] ∧ tx.outputs.length = 1 ∨ tx.inputs ≠ [] ∧ tx.outputs ≠ [] := by
  obtain ⟨blk, hblk, hmem⟩ := List.mem_flatMap.mp htx
  obtain ⟨cb, refs, htxs, hcb, hout, hrefs⟩ := (h.good blk hblk).shape
  rw [htxs] at hmem
  rcases List.mem_cons.mp hmem with rfl | href
  · exact Or.inl ⟨hcb, hout⟩
  · exact Or.inr (hrefs tx href)

/-- Strings without collisions have none in a part of them. -/
theorem NoCollision.mono {hashed hashed' : List Bytes} (h : NoCollision S hashed')
    (hsub : hashed ⊆ hashed') : NoCollision S hashed :=
  fun x hx y hy => h x (hsub hx) y (hsub hy)

/-- Without collisions, a shared txid is the hash of the same bytes. -/
theorem hashed_eq_of_txid {txs : List Transaction}
    (hcoll : NoCollision S (txs.map Transaction.hashed)) {tx tx' : Transaction}
    (htx : tx ∈ txs) (htx' : tx' ∈ txs) (hc : tx.Constructed S) (hc' : tx'.Constructed S)
    (h : tx.txid = tx'.txid) : tx.hashed = tx'.hashed := by
  apply hcoll _ (List.mem_map_of_mem htx) _ (List.mem_map_of_mem htx')
  rw [hc.txid, hc'.txid] at h
  exact h

/-- A submitted block without repeated references and with a new coinbase. -/
def uniqueBlock (c : Chain) (sub : BlockSubmission) : Prop :=
  sub.txids.Nodup ∧ newCoinbase c sub

instance (c : Chain) (sub : BlockSubmission) : Decidable (uniqueBlock c sub) :=
  inferInstanceAs (Decidable (_ ∧ _))

section

variable {c : Chain} {sub : BlockSubmission} {refs : List Transaction}

/-- The same txid means the same bytes, for a transaction of an accepted block and any
other. -/
theorem Accepted.hashed_eq (hbase : Base S c) (ha : Accepted S c sub refs)
    (hcoll : NoCollision S ((c.txs ++ (sub.block S refs).transactions).map Transaction.hashed))
    {tx tx' : Transaction} (htx : tx ∈ sub.coinbase S :: refs)
    (htx' : tx' ∈ c.txs ++ (sub.coinbase S :: refs)) (heq : tx.txid = tx'.txid) :
    tx.hashed = tx'.hashed := by
  have hconstructed := ha.constructed hbase.pool.good
  have hc' : tx'.Constructed S := by
    rcases List.mem_append.mp htx' with hold | hnew
    · exact hbase.constructed hold
    · exact hconstructed tx' hnew
  exact hashed_eq_of_txid hcoll (List.mem_append_right _ htx) htx' (hconstructed tx htx) hc' heq

/-- A reference hashes more bytes than a coinbase. -/
theorem Accepted.lt_length_hashed (hgood : PoolGood S c.pool) (ha : Accepted S c sub refs)
    {tx : Transaction} (htx : tx ∈ refs) : 64 < tx.hashed.length :=
  Axis.lt_length_hashed (ha.inputs_ne hgood htx) (hgood.outputs_ne _ _ (ha.inPool tx htx))

/-- The coinbase has another txid than the references. -/
theorem Accepted.coinbase_notMem_refs (hgood : PoolGood S c.pool) (ha : Accepted S c sub refs)
    (hcoll : NoCollision S ((sub.block S refs).transactions.map Transaction.hashed)) :
    (sub.coinbase S).txid ∉ refs.map Transaction.txid := by
  intro hmem
  obtain ⟨tx, htx, heq⟩ := List.mem_map.mp hmem
  have hconstructed := ha.constructed hgood
  have hbytes := hashed_eq_of_txid hcoll (List.mem_cons_of_mem _ htx) List.mem_cons_self
    (hconstructed tx (List.mem_cons_of_mem _ htx)) (hconstructed _ List.mem_cons_self) heq
  have hlen := ha.lt_length_hashed hgood htx
  rw [hbytes, sub.length_hashed_coinbase] at hlen
  omega

/-- A coinbase with new fields has a new txid. -/
theorem Accepted.coinbase_notMem (hbase : Base S c) (ha : Accepted S c sub refs)
    (hnew : newCoinbase c sub)
    (hcoll : NoCollision S ((c.txs ++ (sub.block S refs).transactions).map Transaction.hashed)) :
    (sub.coinbase S).txid ∉ c.txs.map Transaction.txid := by
  intro hmem
  obtain ⟨tx, htx, heq⟩ := List.mem_map.mp hmem
  have hbytes := ha.hashed_eq hbase hcoll List.mem_cons_self (List.mem_append_left _ htx) heq.symm
  rcases hbase.shape_of_mem htx with ⟨hin, hout⟩ | ⟨hin, hout⟩
  · -- a coinbase with the same bytes has the same fields
    obtain ⟨out, hout⟩ := List.length_eq_one_iff.mp hout
    obtain ⟨rfl, hts⟩ := coinbase_of_hashed (show (sub.coinbase S).inputs = [] from rfl) hin
      rfl hout hbytes
    exact hnew tx htx (List.isEmpty_iff.mpr hin) ⟨hout, hts.symm⟩
  · have hlen := Axis.lt_length_hashed hin hout
    rw [← hbytes, sub.length_hashed_coinbase] at hlen
    omega

/-- A reference has a new txid on a clean ledger, where its inputs are unspent. -/
theorem Accepted.reference_notMem (hbase : Base S c) (hkept : Kept S c)
    (hclean : Ledger.Clean effects c.txs) (ha : Accepted S c sub refs)
    (hcoll : NoCollision S ((c.txs ++ (sub.block S refs).transactions).map Transaction.hashed))
    {tx : Transaction} (htx : tx ∈ refs) : tx.txid ∉ c.txs.map Transaction.txid := by
  intro hmem
  obtain ⟨tx', htx', heq⟩ := List.mem_map.mp hmem
  have hbytes := ha.hashed_eq hbase hcoll (List.mem_cons_of_mem _ htx)
    (List.mem_append_left _ htx') heq.symm
  rcases hbase.shape_of_mem htx' with ⟨hin, hout⟩ | ⟨hin, -⟩
  · have hlen := ha.lt_length_hashed hbase.pool.good htx
    rw [hbytes, length_hashed_coinbase hin hout] at hlen
    omega
  · -- the first input was spent before
    obtain ⟨op, hop, hop'⟩ := exists_common_input (ha.inputs_ne hbase.pool.good htx) hin hbytes
    obtain ⟨out, hunspent⟩ := hkept.exists_unspent hbase (ha.inPool tx htx) hop
    exact hclean.unspent op out hunspent (Ledger.mem_spent.mpr ⟨tx', htx', hop'⟩)

/-- **The txids of such a block are new**, when no hashed strings collide. -/
theorem freshTxids_of_unique (hbase : Base S c) (hkept : Kept S c)
    (hclean : Ledger.Clean effects c.txs) (ha : Accepted S c sub refs)
    (hunique : uniqueBlock c sub)
    (hcoll : NoCollision S ((c.txs ++ (sub.block S refs).transactions).map Transaction.hashed)) :
    freshTxids S c sub := by
  constructor
  · rw [List.nodup_cons, ha.txids]
    refine ⟨ha.coinbase_notMem_refs hbase.pool.good (hcoll.mono ?_), ha.txids ▸ hunique.1⟩
    exact List.map_subset _ (List.subset_append_right _ _)
  · rw [List.forall_mem_cons, ha.txids, List.forall_mem_map]
    exact ⟨ha.coinbase_notMem hbase hunique.2 hcoll,
      fun tx htx => ha.reference_notMem hbase hkept hclean hcoll htx⟩

end

/-! ### Runs -/

/-- The ledger of a run of unique blocks is clean, and its txids are distinct. -/
theorem clean_of_uniqueBlocks {c : Chain} (h : Reachable S (guarded uniqueBlock) c)
    (hcoll : NoCollision S (c.txs.map Transaction.hashed)) :
    Ledger.Clean effects c.txs ∧ (c.txs.map Transaction.txid).Nodup := by
  refine guarded_rule (I := fun c => NoCollision S (c.txs.map Transaction.hashed) →
    Ledger.Clean effects c.txs ∧ (c.txs.map Transaction.txid).Nodup)
    (fun _ => ⟨clean_genesis, List.nodup_singleton _⟩) (fun c st _ hI _ => hI) ?_ h hcoll
  intro c sub refs hbase hkept hI hunique ha hcoll
  rw [txs_grown] at hcoll ⊢
  -- the strings hashed so far are among those of the longer chain
  have hold : NoCollision S (c.txs.map Transaction.hashed) := by
    apply hcoll.mono
    rw [List.map_append]
    exact List.subset_append_left _ _
  obtain ⟨hclean, hnodup⟩ := hI hold
  have hfresh := freshTxids_of_unique hbase hkept hclean ha hunique hcoll
  refine ⟨hclean.append (admissible_of_fresh hbase hkept ha hfresh), ?_⟩
  have htxids : (sub.block S refs).transactions.map Transaction.txid =
      (sub.coinbase S).txid :: sub.txids := by
    rw [ha.txids]
    rfl
  rw [List.map_append, htxids]
  exact List.Nodup.append hnodup hfresh.1 fun txid hmem hnew => hfresh.2 txid hnew hmem

/-- No two confirmed transactions share a txid; applying a transaction creates
outpoints that are not in the UTXO set, and were never spent. -/
structure CreatedOnce (c : Chain) : Prop where
  nodup : (c.txs.map Transaction.txid).Nodup
  fresh : ∀ pre tx post, c.txs = pre ++ tx :: post → (effects.names tx).Nodup ∧
    ∀ op ∈ effects.names tx,
      op ∉ (UtxoSet.replay pre).utxo ∧ op ∉ Ledger.spent effects (pre ++ [tx])

/-- **Every output is created at most once** in a run whose blocks are unique. -/
theorem createdOnce_of_reachable {c : Chain} (h : Reachable S (guarded uniqueBlock) c)
    (hcoll : NoCollision S (c.txs.map Transaction.hashed)) : CreatedOnce c := by
  have hbase := base_of_reachable h
  obtain ⟨hclean, hnodup⟩ := clean_of_uniqueBlocks h hcoll
  refine ⟨hnodup, ?_⟩
  intro pre tx post heq
  have hsize : ∀ t ∈ c.txs, t.outputs.length < 2 ^ 32 := fun t ht =>
    (hbase.constructed ht).outputs_lt
  rw [heq] at hsize
  refine ⟨nodup_names_of_sized (hsize tx (by simp)), ?_⟩
  intro op hop
  -- the outpoint was not created before
  have hnew : op ∉ Ledger.created effects pre := by
    have hfresh : (Ledger.created effects c.txs).Nodup := hclean.fresh
    rw [heq, Ledger.created_append] at hfresh
    intro hold
    refine (List.nodup_append.mp hfresh).2.2 op hold op ?_ rfl
    exact Ledger.mem_created.mpr ⟨tx, List.mem_cons_self, hop⟩
  constructor
  · rw [FiniteMap.mem_iff_exists]
    rintro ⟨out, hout⟩
    have hunspent := (UtxoSet.getElem?_replay fun t ht =>
      hsize t (List.mem_append_left _ ht)).mp hout
    exact hnew hunspent.mem_created
  · -- and what was spent was created before
    intro hspent
    obtain ⟨t, ht, hmem⟩ := Ledger.mem_spent.mp hspent
    rcases List.mem_append.mp ht with hpre | hself
    · obtain ⟨pre₁, pre₂, rfl⟩ := List.append_of_mem hpre
      have hsrc := hclean.sourced pre₁ t (pre₂ ++ tx :: post) (by rw [heq]; simp) op hmem
      rw [Ledger.created_append, List.mem_append, not_or] at hnew
      exact hnew.1 hsrc
    · rw [List.mem_singleton.mp hself] at hmem
      exact hnew (hclean.sourced pre tx post heq op hmem)

/-- The sample run is one of unique blocks. -/
theorem createdOnce_confirmed : ∃ c, run Sample.sodium Sample.confirmed = .ok c ∧
    c.txs.length = 6 ∧ CreatedOnce c := by
  obtain ⟨c, hrun, hreach, hlen, hcoll⟩ := exists_reachable (S := Sample.sodium)
    (guarded uniqueBlock) Sample.confirmed
    (fun c => c.txs.length = 6 ∧ NoCollision Sample.sodium (c.txs.map Transaction.hashed))
    (by decide +kernel)
  exact ⟨c, hrun, hlen, createdOnce_of_reachable hreach hcoll⟩

/-- **A repeated reference creates outputs again**: the txid is in the chain twice,
although no two strings of the run collide. -/
theorem createdTwice_repeated : ∃ c, run Sample.sodium Sample.repeated = .ok c ∧
    Reachable Sample.sodium anyOp c ∧ NoCollision Sample.sodium (Sample.digests.map Prod.fst) ∧
    (∀ tx ∈ c.txs, tx.hashed ∈ Sample.digests.map Prod.fst) ∧ ¬ CreatedOnce c := by
  obtain ⟨c, hrun, hreach, hhashed, htwice⟩ := exists_reachable_any (S := Sample.sodium)
    Sample.repeated (fun c => (∀ tx ∈ c.txs, tx.hashed ∈ Sample.digests.map Prod.fst) ∧
      ¬ (c.txs.map Transaction.txid).Nodup) (by decide +kernel)
  exact ⟨c, hrun, hreach, by decide +kernel, hhashed, fun h => htwice h.nodup⟩

end Axis
