import Axis.Conservation

/-!
# The order of submissions

A transaction comes in over HTTP while a block comes in over TCP, and the lock of the
chain decides which is first.  Either order accepts both and ends in the same state,
because an accepted block touches the pool only where its own transactions are, and an
accepted transaction spends nothing that they spend.

## Main results

* `addTx_accepts_iff`, `onCreateBlock_accepts_iff` — what the answers say.
* `Chain.Valid.grown` — **a valid transaction stays valid over an accepted block.**
* `grown_admitTx` — the two orders end in the same state.
* `submissions_commute` — **transaction and block acceptance commute.**
-/

namespace Axis

variable {S : Sodium}

/-! ### Answers -/

/-- A loop that fails does so in one of its rounds. -/
theorem exists_of_foldlM_error {α β ε : Type} {f : β → α → Except ε β} {l : List α} {b : β}
    {e : ε} (h : l.foldlM f b = .error e) : ∃ b' a, f b' a = .error e := by
  induction l generalizing b with
  | nil => cases h
  | cons a l ih =>
    rw [List.foldlM_cons] at h
    cases hround : f b a with
    | error e' =>
      rw [hround] at h
      cases h
      exact ⟨b, a, hround⟩
    | ok b' =>
      rw [hround] at h
      exact ih h

theorem sumOutputs_ne_none (outputs : List TxOutput) :
    Chain.sumOutputs outputs ≠ .error .none := by
  intro h
  obtain ⟨sumOut, out, hround⟩ := exists_of_foldlM_error h
  unfold Chain.addOutput at hround
  split at hround
  · cases hround
  · split at hround <;> cases hround

theorem sumInputs_ne_none (utxo : FiniteMap OutPoint TxOutput) (sender : Address)
    (inputs : List OutPoint) : Chain.sumInputs utxo sender inputs ≠ .error .none := by
  intro h
  obtain ⟨sumIn, op, hround⟩ := exists_of_foldlM_error h
  unfold Chain.addInput at hround
  split at hround
  · cases hround
  · split at hround
    · cases hround
    · split at hround <;> cases hround

/-- A failed check has an error to answer. -/
theorem checkTx_ne_none (st : SignedTransaction) (c : Chain) :
    c.checkTx S st ≠ .error .none := by
  unfold Chain.checkTx
  cases hout : Chain.sumOutputs st.tx.outputs with
  | error e =>
    intro h
    cases h
    exact sumOutputs_ne_none _ hout
  | ok sumOut =>
    show (if _ then _ else _) ≠ _
    split
    · exact fun h => by cases h
    · split
      · exact fun h => by cases h
      · cases hin : Chain.sumInputs c.utxo (deriveAddress S st.pubkey) st.tx.inputs with
        | error e =>
          intro h
          cases h
          exact sumInputs_ne_none _ _ _ hin
        | ok sumIn =>
          show (if _ then _ else _) ≠ _
          repeat' split
          all_goals exact fun h => by cases h

/-- **`add_tx` answers `None` to the valid transactions**, and to no others. -/
theorem addTx_accepts_iff {st : SignedTransaction} {c : Chain} :
    (c.addTx S st .ok).2 = .ok .none ↔ Chain.Valid S st c := by
  constructor
  · intro h
    unfold Chain.addTx at h
    cases hcheck : c.checkTx S st with
    | error err =>
      rw [hcheck] at h
      cases h
      exact absurd hcheck (checkTx_ne_none st c)
    | ok u => exact Chain.checkTx_eq_ok_iff.mp hcheck
  · intro hv
    rw [Chain.addTx_ok hv]
    rfl

/-- The answer to an accepted block. -/
def blockAccepted : BlockError × String := (.none, "accepted")

theorem acceptBlock_ne_none {payload : Bytes} {c : Chain} {e : BlockError × String}
    (h : acceptBlock S payload c = .error e) : e.1 ≠ .none := by
  unfold acceptBlock at h
  split at h
  · cases h
    exact fun heq => by cases heq
  · cases h
    exact fun heq => by cases heq
  · dsimp only at h
    repeat' split at h
    all_goals cases h
    all_goals exact fun heq => by cases heq

/-- **`on_create_block` answers that it accepted** the blocks that pass its checks, and no
others. -/
theorem onCreateBlock_accepts_iff {payload : Bytes} {c : Chain} :
    (onCreateBlock S payload [] c).2 = blockAccepted ↔
      ∃ blk, acceptBlock S payload c = .ok blk := by
  unfold onCreateBlock
  cases haccept : acceptBlock S payload c with
  | error e =>
    obtain ⟨err, reason⟩ := e
    constructor
    · intro h
      exact absurd (congrArg Prod.fst h) (acceptBlock_ne_none haccept)
    · rintro ⟨blk, hblk⟩
      cases hblk
  | ok blk =>
    dsimp only
    rw [addBlock_nil]
    exact ⟨fun _ => ⟨blk, rfl⟩, fun _ => rfl⟩

/-- The state after an accepted block. -/
theorem onCreateBlock_eq {payload : Bytes} {c : Chain} {blk : Block}
    (h : acceptBlock S payload c = .ok blk) :
    onCreateBlock S payload [] c = (c.grown blk, blockAccepted) := by
  rw [onCreateBlock, h]
  dsimp only
  rw [addBlock_nil]
  rfl

/-! ### Either order -/

variable {c : Chain} {sub : BlockSubmission} {refs : List Transaction} {st : SignedTransaction}

/-- A valid transaction spends nothing that an accepted block spends. -/
theorem Accepted.disjoint_valid (hbase : Base S c) (ha : Accepted S c sub refs)
    (hv : Chain.Valid S st c) : ∀ op ∈ refs.flatMap Transaction.inputs, op ∉ st.tx.inputs := by
  intro op hop hmem
  obtain ⟨tx, htx, hin⟩ := List.mem_flatMap.mp hop
  exact hbase.pool.spent.not_mem_inputs (hv.unspent op hmem) (ha.inPool tx htx) hin

/-- A valid transaction is under another key than the transactions of the block. -/
theorem Accepted.txid_notMem_valid (ha : Accepted S c sub refs) (hv : Chain.Valid S st c) :
    st.tx.txid ∉ refs.map Transaction.txid := by
  intro hmem
  obtain ⟨tx, htx, heq⟩ := List.mem_map.mp hmem
  refine hv.unknown ((FiniteMap.mem_iff_exists _ _).mpr ⟨tx, ?_⟩)
  rw [← heq, ha.inPool tx htx]

/-- **A valid transaction stays valid over an accepted block.** -/
theorem Chain.Valid.grown (hv : Chain.Valid S st c) (hbase : Base S c)
    (ha : Accepted S c sub refs) (hshare : NoSharedTxid (c.grown (sub.block S refs))) :
    Chain.Valid S st (c.grown (sub.block S refs)) := by
  -- the block neither spends nor alters what the transaction spends
  have hkeep : ∀ op ∈ st.tx.inputs, ∀ out, c.utxo[op]? = some out →
      (c.grown (sub.block S refs)).utxo[op]? = some out := by
    intro op hop out hout
    refine getElem?_utxo_grown hbase ha hshare hout fun hmem => ?_
    exact ha.disjoint_valid hbase hv op hmem hop
  have htotal : st.tx.inputTotal (c.grown (sub.block S refs)).utxo = st.tx.inputTotal c.utxo := by
    refine congrArg List.sum (List.map_congr_left fun op hop => ?_)
    obtain ⟨out, hout, -⟩ := hv.owned op hop
    rw [FiniteMap.amountAt_of_getElem? _ hout,
      FiniteMap.amountAt_of_getElem? _ (hkeep op hop out hout)]
  constructor
  · exact hv.outputs_ne
  · exact hv.positive
  · exact hv.inputs_ne
  · intro op hop
    obtain ⟨out, hout, howner⟩ := hv.owned op hop
    exact ⟨out, hkeep op hop out hout, howner⟩
  · rw [htotal]
    exact hv.covered
  · rw [htotal]
    exact hv.bounded
  · exact hv.signed
  · -- the pool only loses transactions
    intro hmem
    obtain ⟨tx, htx⟩ := (FiniteMap.mem_iff_exists _ _).mp hmem
    change (FiniteMap.eraseAll c.pool _)[_]? = some tx at htx
    rw [FiniteMap.getElem?_eraseAll] at htx
    split at htx
    · cases htx
    · exact hv.unknown ((FiniteMap.mem_iff_exists _ _).mpr ⟨tx, htx⟩)
  · intro op hop hmem
    obtain ⟨op', hop'⟩ := (FiniteMap.mem_iff_exists _ _).mp hmem
    change (FiniteMap.eraseAll c.poolSpent _)[_]? = some op' at hop'
    rw [FiniteMap.getElem?_eraseAll] at hop'
    split at hop'
    · cases hop'
    · exact hv.unspent op hop ((FiniteMap.mem_iff_exists _ _).mpr ⟨op', hop'⟩)

/-- **The two orders end in the same state.** -/
theorem grown_admitTx (hbase : Base S c) (ha : Accepted S c sub refs)
    (hv : Chain.Valid S st c) :
    (c.admitTx st.tx .ok).1.grown (sub.block S refs) =
      ((c.grown (sub.block S refs)).admitTx st.tx .ok).1 := by
  have hspending : spending (sub.block S refs).transactions = refs :=
    spending_block sub fun tx htx => ha.inputs_ne hbase.pool.good htx
  have htxid := ha.txid_notMem_valid hv
  refine Chain.ext rfl rfl rfl rfl rfl rfl ?_ ?_ rfl ?_
  · -- the pool
    show FiniteMap.eraseAll (FiniteMap.insertAll c.pool [(st.tx.txid, st.tx)])
      ((spending (sub.block S refs).transactions).map Transaction.txid) = _
    rw [FiniteMap.eraseAll_insertAll_comm]
    · rfl
    · rw [hspending]
      intro k hk hmem
      rw [List.map_singleton, List.mem_singleton] at hmem
      subst hmem
      exact htxid hk
  · -- the outpoints it spends
    refine FiniteMap.eraseAll_insertAll_comm ?_ _
    have hinputs : (sub.block S refs).transactions.flatMap Transaction.inputs =
        refs.flatMap Transaction.inputs := rfl
    rw [hinputs, List.map_map]
    intro op hop hmem
    have hkeys : st.tx.inputs.map (Prod.fst ∘ fun i => (i, i)) = st.tx.inputs := List.map_id _
    rw [hkeys] at hmem
    exact ha.disjoint_valid hbase hv op hop hmem
  · -- the pool database
    show FiniteMap.eraseAll
      (FiniteMap.insertAll c.poolDb [(hexKey st.tx.txid, st.tx.serialize)])
      (((spending (sub.block S refs).transactions).map Transaction.txid).map hexKey) = _
    rw [FiniteMap.eraseAll_insertAll_comm]
    · rfl
    · rw [hspending]
      intro key hkey hmem
      rw [List.map_singleton, List.mem_singleton] at hmem
      subst hmem
      obtain ⟨k, hk, heq⟩ := List.mem_map.mp hkey
      exact htxid (hexKey_injective heq ▸ hk)

/-- **Transaction and block acceptance commute.**  A transaction and a block that a node
accepts in one state are accepted in either order, and the two orders end in the same
state, unless two different confirmed transactions share a txid. -/
theorem submissions_commute {c : Chain} (h : Reachable S anyOp c) (st : SignedTransaction)
    (payload : FramePayload)
    (hst : (c.addTx S st .ok).2 = .ok .none)
    (hpayload : (onCreateBlock S payload.bytes [] c).2 = blockAccepted)
    (hshare : NoSharedTxid (onCreateBlock S payload.bytes [] c).1) :
    (onCreateBlock S payload.bytes [] (c.addTx S st .ok).1).2 = blockAccepted ∧
    ((onCreateBlock S payload.bytes [] c).1.addTx S st .ok).2 = .ok .none ∧
    (onCreateBlock S payload.bytes [] (c.addTx S st .ok).1).1 =
      ((onCreateBlock S payload.bytes [] c).1.addTx S st .ok).1 := by
  have hbase := base_of_reachable h
  have hv := addTx_accepts_iff.mp hst
  obtain ⟨blk, haccept⟩ := onCreateBlock_accepts_iff.mp hpayload
  obtain ⟨sub, refs, -, rfl, ha⟩ :=
    accepted_of_acceptBlock hbase.pool.good payload.fits haccept
  rw [onCreateBlock_eq haccept] at hshare ⊢
  have hvalid := hv.grown hbase ha hshare
  have hlater := acceptBlock_admitTx hbase.pool.good hv haccept
  rw [Chain.addTx_ok hv, Chain.addTx_ok hvalid, onCreateBlock_eq hlater]
  exact ⟨rfl, rfl, grown_admitTx hbase ha hv⟩

namespace Sample

/-- The third block of the sample run with the first payment alone. -/
def blockSingle : BlockSubmission :=
  ⟨hash₂, inner₁, ⟨1781547165⟩, 8117975, sender, 3 * units, ⟨1781547165⟩, [tx₁]⟩

def hashSingle : Hash :=
  ofHex 32 0x00000005df71bc5001e5f1c2940a0a3c75aaa8d5bd99681fa0164b9b4f94be2e

def sodiumSingle : Sodium := sodiumWith [(headerBytes blockSingle, hashSingle)]

def frameSingle : FramePayload := blockSingle.frame (by decide)

end Sample

/-- The block with the first payment and the submission of the second one. -/
theorem submissions_commute_setup : ∃ c, run Sample.sodiumSingle (Sample.setup.take 3) = .ok c ∧
    (onCreateBlock Sample.sodiumSingle Sample.frameSingle.bytes []
      (c.addTx Sample.sodiumSingle (Sample.pay₂.signed Sample.sodiumSingle) .ok).1).1 =
    ((onCreateBlock Sample.sodiumSingle Sample.frameSingle.bytes [] c).1.addTx
      Sample.sodiumSingle (Sample.pay₂.signed Sample.sodiumSingle) .ok).1 := by
  obtain ⟨c, hrun, hreach, hst, hpayload, hshare⟩ := exists_reachable_any
    (S := Sample.sodiumSingle) (Sample.setup.take 3)
    (fun c => (c.addTx Sample.sodiumSingle (Sample.pay₂.signed Sample.sodiumSingle) .ok).2 =
        .ok .none ∧
      (onCreateBlock Sample.sodiumSingle Sample.frameSingle.bytes [] c).2 =
        blockAccepted ∧
      NoSharedTxid
        (onCreateBlock Sample.sodiumSingle Sample.frameSingle.bytes [] c).1)
    (by decide +kernel)
  exact ⟨c, hrun, (submissions_commute hreach (Sample.pay₂.signed Sample.sodiumSingle)
    Sample.frameSingle hst hpayload hshare).2.2⟩

end Axis
