import Axis.Index
import Axis.Threads

/-!
# Owners of outpoints

While no two confirmed transactions share a txid, every outpoint of a run has one owner:
whoever the output of that name is paid to, also when the output is created again.  Then
`address_utxo_` may list an outpoint more than once, but it never lists one that is spent
or one of another address, and `get_utxos` agrees with the checks of `add_tx`.

## Main definitions

* `UtxoSet.OwnedBy` — the set and its index agree with the owners.

## Main results

* `UtxoSet.OwnedBy.applyTx` — **the step lemma**: no condition on what the transaction
  overwrites.
* `ownedBy_of_reachable` — the outpoints of a run without shared txids have owners.
* `getUtxos_spendable` — **what `get_utxos` offers can be spent.**
* `getUtxos_addTx_of_ne` — **a submission affects only its signer.**
-/

namespace Axis

variable {S : Sodium}

namespace UtxoSet

/-! ### Sets that agree with their owners -/

/-- Every output of the set is paid to the owner of its outpoint, and the index lists
outpoints of the set under their owners only. -/
structure OwnedBy (owner : OutPoint → Address) (u : UtxoSet) : Prop where
  recipient : ∀ (op : OutPoint) (out : TxOutput), u.utxo[op]? = some out →
    out.recipient = owner op
  listed : ∀ (addr : Address) (op : OutPoint), op ∈ u.addressed addr →
    op ∈ u.utxo ∧ owner op = addr

variable {owner : OutPoint → Address}

theorem ownedBy_empty : OwnedBy owner {} := by
  constructor
  · intro op out hout
    change (∅ : FiniteMap OutPoint TxOutput)[op]? = some out at hout
    simp at hout
  · intro addr op hop
    change op ∈ (∅ : FiniteMap Address (List OutPoint))[addr]?.getD [] at hop
    simp at hop

/-- **The step of an input**: every copy of the outpoint leaves the list of its owner. -/
theorem OwnedBy.spend {u : UtxoSet} (h : OwnedBy owner u) (op : OutPoint) :
    OwnedBy owner (u.spend op) := by
  cases hget : u.utxo[op]? with
  | none =>
    have hsame : u.spend op = u := by
      rw [UtxoSet.spend, hget]
    rwa [hsame]
  | some out =>
    constructor
    · intro op' out' hout'
      rw [utxo_spend, FiniteMap.getElem?_erase_eq] at hout'
      split at hout'
      · cases hout'
      · exact h.recipient op' out' hout'
    · intro addr op' hop'
      rw [addressed_spend hget] at hop'
      -- what is still listed is another outpoint
      have hstill : op' ≠ op ∧ op' ∈ u.addressed addr := by
        split at hop'
        · simpa [and_comm] using hop'
        · next howner =>
          refine ⟨?_, hop'⟩
          intro heq
          rw [heq] at hop'
          exact howner ((h.recipient op out hget).trans (h.listed addr op hop').2)
      obtain ⟨hne, hmem⟩ := hstill
      obtain ⟨hin, howner⟩ := h.listed addr op' hmem
      obtain ⟨out', hout'⟩ := (FiniteMap.mem_iff_exists _ _).mp hin
      refine ⟨(FiniteMap.mem_iff_exists _ _).mpr ⟨out', ?_⟩, howner⟩
      rw [utxo_spend, FiniteMap.getElem?_erase_eq, if_neg hne.symm, hout']

/-- **The step of an output**, paid to the owner of its outpoint. -/
theorem OwnedBy.create {u : UtxoSet} (h : OwnedBy owner u) {op : OutPoint} {out : TxOutput}
    (hout : out.recipient = owner op) : OwnedBy owner (u.create op out) := by
  have hutxo : ∀ op' : OutPoint,
      (u.create op out).utxo[op']? = if op = op' then some out else u.utxo[op']? :=
    fun op' => FiniteMap.getElem?_insert_eq _ _ _ _
  constructor
  · intro op' out' hout'
    rw [hutxo] at hout'
    split at hout'
    · next heq =>
      cases hout'
      rw [← heq, hout]
    · exact h.recipient op' out' hout'
  · intro addr op' hop'
    rw [addressed_create] at hop'
    -- what is listed is the new outpoint, or was listed
    have hcases : (op = op' ∧ out.recipient = addr) ∨ op' ∈ u.addressed addr := by
      split at hop'
      · next howner =>
        rcases List.mem_append.mp hop' with hold | hnew
        · exact Or.inr hold
        · exact Or.inl ⟨(List.mem_singleton.mp hnew).symm, howner⟩
      · exact Or.inr hop'
    rw [FiniteMap.mem_iff_exists, hutxo]
    rcases hcases with hnew | hold
    · obtain ⟨heq, howner⟩ := hnew
      rw [if_pos heq, ← heq, ← hout, howner]
      exact ⟨⟨out, rfl⟩, rfl⟩
    · obtain ⟨hin, howner⟩ := h.listed addr op' hold
      refine ⟨?_, howner⟩
      split
      · exact ⟨out, rfl⟩
      · exact (FiniteMap.mem_iff_exists _ _).mp hin

theorem OwnedBy.foldl_spend {u : UtxoSet} (h : OwnedBy owner u) (ops : List OutPoint) :
    OwnedBy owner (ops.foldl UtxoSet.spend u) :=
  List.foldlRecOn ops UtxoSet.spend h fun _ hu op _ => hu.spend op

theorem OwnedBy.createOutputs {u : UtxoSet} (h : OwnedBy owner u) {txid : Hash} {idx : UInt32}
    {outs : List TxOutput}
    (houts : ∀ e ∈ outpointsFrom txid idx outs, e.2.recipient = owner e.1) :
    OwnedBy owner (u.createOutputs txid idx outs) := by
  induction outs generalizing u idx with
  | nil => exact h
  | cons out outs ih =>
    rw [outpointsFrom, List.forall_mem_cons] at houts
    exact ih (h.create houts.1) houts.2

/-- **The step lemma**: the transaction pays the owners of its outpoints. -/
theorem OwnedBy.applyTx {u : UtxoSet} (h : OwnedBy owner u) {tx : Transaction}
    (htx : ∀ e ∈ tx.created, e.2.recipient = owner e.1) : OwnedBy owner (u.applyTx tx) :=
  (h.foldl_spend tx.inputs).createOutputs htx

/-- **The run lemma**, over a list of transactions. -/
theorem OwnedBy.foldl_applyTx {u : UtxoSet} (h : OwnedBy owner u) {txs : List Transaction}
    (htxs : ∀ tx ∈ txs, ∀ e ∈ tx.created, e.2.recipient = owner e.1) :
    OwnedBy owner (txs.foldl UtxoSet.applyTx u) :=
  List.foldlRecOn txs UtxoSet.applyTx h fun _ hu tx htx => hu.applyTx (htxs tx htx)

end UtxoSet

/-! ### Owners in a run -/

/-- Transactions without shared txids name each outpoint for one recipient. -/
theorem exists_owner {txs : List Transaction}
    (hsize : ∀ tx ∈ txs, tx.outputs.length < 2 ^ 32)
    (hshare : ∀ tx ∈ txs, ∀ tx' ∈ txs, tx.txid = tx'.txid → tx = tx') :
    ∃ owner : OutPoint → Address, ∀ tx ∈ txs, ∀ e ∈ tx.created, e.2.recipient = owner e.1 := by
  have hone : ∀ op : OutPoint, ∃ addr : Address, ∀ tx ∈ txs, ∀ out : TxOutput,
      (op, out) ∈ tx.created → out.recipient = addr := by
    intro op
    by_cases hex : ∃ tx ∈ txs, ∃ out : TxOutput, (op, out) ∈ tx.created
    · obtain ⟨tx, htx, out, hout⟩ := hex
      refine ⟨out.recipient, fun tx' htx' out' hout' => ?_⟩
      -- whoever creates the outpoint is the same transaction
      have hname : op ∈ effects.names tx := Ledger.mem_names.mpr ⟨out, hout⟩
      have hname' : op ∈ effects.names tx' := Ledger.mem_names.mpr ⟨out', hout'⟩
      have hsame : tx = tx' := hshare tx htx tx' htx'
        ((txid_of_mem_names hname).symm.trans (txid_of_mem_names hname'))
      subst hsame
      rw [created_unique (hsize tx htx) hout' hout]
    · exact ⟨genesisAddr, fun tx htx out hout => absurd ⟨tx, htx, out, hout⟩ hex⟩
  choose owner howner using hone
  exact ⟨owner, fun tx htx e he => howner e.1 tx htx e.2 he⟩

/-- **The outpoints of a run without shared txids have owners.** -/
theorem ownedBy_of_reachable {c : Chain} (h : Reachable S anyOp c) (hshare : NoSharedTxid c) :
    ∃ owner, UtxoSet.OwnedBy owner c.toUtxoSet := by
  have hbase := base_of_reachable h
  obtain ⟨owner, howner⟩ :=
    exists_owner (fun tx htx => (hbase.constructed htx).outputs_lt) hshare
  refine ⟨owner, ?_⟩
  rw [hbase.replayed]
  exact UtxoSet.ownedBy_empty.foldl_applyTx howner

/-! ### What is offered -/

/-- What `get_utxos` answers: outputs of the set paid to the address, which the pool does
not spend, with their amounts. -/
theorem getUtxos_eq_some {c : Chain} {owner : OutPoint → Address}
    (h : UtxoSet.OwnedBy owner c.toUtxoSet) (addr : Address) :
    ∃ l, c.getUtxos addr = some l ∧ ∀ e ∈ l, e.1 ∉ c.poolSpent ∧
      ∃ out, c.utxo[e.1]? = some out ∧ out.recipient = addr ∧ out.amount = e.2 := by
  have hin : ∀ op ∈ (c.toUtxoSet.addressed addr).filter fun op => op ∉ c.poolSpent,
      op ∈ c.utxo := fun op hop => (h.listed addr op (List.mem_filter.mp hop).1).1
  obtain ⟨l, hl, -, hmem⟩ := mapM_lookupAmount hin
  refine ⟨l, hl, fun e he => ?_⟩
  obtain ⟨hop, out, hout, hamount⟩ := (hmem e).mp he
  obtain ⟨hlisted, hspent⟩ := List.mem_filter.mp hop
  have howner := (h.listed addr e.1 hlisted).2
  exact ⟨of_decide_eq_true hspent, out, hout, (h.recipient e.1 out hout).trans howner, hamount⟩

/-- The inputs of a transaction that spends listed outpoints are worth what the list
says. -/
theorem inputTotal_of_listed {utxo : FiniteMap OutPoint TxOutput} {tx : Transaction}
    {picks : List (OutPoint × UInt64)} (hinputs : tx.inputs = picks.map Prod.fst)
    (hpicks : ∀ e ∈ picks, ∃ out, utxo[e.1]? = some out ∧ out.amount = e.2) :
    tx.inputTotal utxo = (picks.map fun e => e.2.toNat).sum := by
  rw [Transaction.inputTotal, hinputs, List.map_map]
  refine congrArg List.sum (List.map_congr_left fun e he => ?_)
  obtain ⟨out, hout, hamount⟩ := hpicks e he
  rw [Function.comp_apply, FiniteMap.amountAt_of_getElem? _ hout, TxOutput.value, hamount]

/-- **What `get_utxos` offers can be spent.**  For a key whose address it is asked for it
does not throw, and every signed transaction over a non-empty list of what it answers is
accepted, if its outputs are covered and its txid is new to the pool. -/
theorem getUtxos_spendable {c : Chain} (h : Reachable S anyOp c) (hshare : NoSharedTxid c)
    (pk : PublicKey) :
    ∃ l, c.getUtxos (deriveAddress S pk) = some l ∧
      ∀ (picks : List (OutPoint × UInt64)) (st : SignedTransaction),
        picks ≠ [] → picks ⊆ l → (picks.map fun e => e.2.toNat).sum ≤ 2 ^ 64 - 1 →
        st.pubkey = pk → st.tx.inputs = picks.map Prod.fst →
        st.tx.outputs ≠ [] → (∀ out ∈ st.tx.outputs, 0 < out.amount) →
        st.tx.outputTotal ≤ (picks.map fun e => e.2.toNat).sum →
        verifySig S pk st.tx.txid st.sig = true → st.tx.txid ∉ c.pool →
        (c.addTx S st .ok).2 = .ok .none := by
  obtain ⟨owner, howned⟩ := ownedBy_of_reachable h hshare
  obtain ⟨l, hl, hoffered⟩ := getUtxos_eq_some howned (deriveAddress S pk)
  refine ⟨l, hl, ?_⟩
  intro picks st hne hsub hfit hpk hinputs houts hpos hcovered hsig hnew
  have htotal : st.tx.inputTotal c.utxo = (picks.map fun e => e.2.toNat).sum := by
    refine inputTotal_of_listed hinputs fun e he => ?_
    obtain ⟨-, out, hout, -, hamount⟩ := hoffered e (hsub he)
    exact ⟨out, hout, hamount⟩
  -- every input is one of the outpoints on offer
  have hin : ∀ op ∈ st.tx.inputs, op ∉ c.poolSpent ∧
      ∃ out, c.utxo[op]? = some out ∧ out.recipient = deriveAddress S st.pubkey := by
    intro op hop
    rw [hinputs] at hop
    obtain ⟨e, he, rfl⟩ := List.mem_map.mp hop
    obtain ⟨hspent, out, hout, hrecipient, -⟩ := hoffered e (hsub he)
    exact ⟨hspent, out, hout, by rw [hpk, hrecipient]⟩
  refine addTx_accepts_iff.mpr ⟨houts, ?_, ?_, fun op hop => (hin op hop).2, ?_, ?_, ?_, hnew,
    fun op hop => (hin op hop).1⟩
  · intro out hout heq
    have hlt := hpos out hout
    rw [heq] at hlt
    exact absurd hlt (by decide)
  · rw [hinputs]
    simpa using hne
  · rw [htotal]
    exact hcovered
  · rw [htotal]
    omega
  · rw [hpk]
    exact hsig

/-- The miner of the sample run spends the coinbase of the second block. -/
theorem getUtxos_spendable_setup : ∃ c, run Sample.sodium (Sample.setup.take 3) = .ok c ∧
    ∃ l, c.getUtxos (deriveAddress Sample.sodium Sample.pubkey) = some l ∧
      ((⟨Sample.cb₂, 0⟩, 3 * units) : OutPoint × UInt64) ∈ l ∧
      (c.addTx Sample.sodium (Sample.pay₂.signed Sample.sodium) .ok).2 = .ok .none := by
  obtain ⟨c, hrun, hreach, hshare, hlisted, hnew⟩ := exists_reachable_any (S := Sample.sodium)
    (Sample.setup.take 3)
    (fun c => NoSharedTxid c ∧
      (∃ l ∈ c.getUtxos (deriveAddress Sample.sodium Sample.pubkey),
        ((⟨Sample.cb₂, 0⟩, 3 * units) : OutPoint × UInt64) ∈ l) ∧
      (Sample.pay₂.signed Sample.sodium).tx.txid ∉ c.pool) (by decide +kernel)
  obtain ⟨l, hl, hspend⟩ := getUtxos_spendable hreach hshare Sample.pubkey
  obtain ⟨l', hl', hmem⟩ := hlisted
  rw [hl] at hl'
  cases hl'
  refine ⟨c, hrun, l, hl, hmem, ?_⟩
  exact hspend [(⟨Sample.cb₂, 0⟩, 3 * units)] _ (by decide) (by simpa using hmem) (by decide) rfl
    rfl (by decide) (by decide) (by decide) (by decide +kernel) hnew

/-! ### What a submission affects -/

/-- The lookups of an owner, whose outpoints are not among those a transaction adds to
`pool_spent_`. -/
theorem getUtxos_admitTx {c : Chain} {tx : Transaction} {addr : Address}
    (h : ∀ op ∈ c.toUtxoSet.addressed addr, op ∉ tx.inputs) (status : WriteStatus) :
    (c.admitTx tx status).1.getUtxos addr = c.getUtxos addr := by
  obtain ⟨poolDb, heq⟩ := fst_admitTx tx status c
  rw [heq]
  have hfilter : ((c.toUtxoSet.addressed addr).filter fun op =>
        op ∉ FiniteMap.insertAll c.poolSpent (tx.inputs.map fun i => (i, i))) =
      (c.toUtxoSet.addressed addr).filter fun op => op ∉ c.poolSpent := by
    refine List.filter_congr fun op hop => ?_
    rw [decide_eq_decide, mem_insertAll_self, or_iff_right (h op hop)]
  -- neither the set nor its index is touched
  exact congrArg (List.mapM c.lookupAmount) hfilter

/-- **A submission affects only its signer.**  Whatever `add_tx` answers, an owner lookup
for any address but the signer's answers the same after it as before it. -/
theorem getUtxos_addTx_of_ne {c : Chain} (h : Reachable S anyOp c) (hshare : NoSharedTxid c)
    (st : SignedTransaction) (status : WriteStatus) {addr : Address}
    (hne : addr ≠ deriveAddress S st.pubkey) :
    (c.addTx S st status).1.getUtxos addr = c.getUtxos addr := by
  obtain ⟨owner, howned⟩ := ownedBy_of_reachable h hshare
  rcases addTx_cases S st status c with hsame | hadmitted
  · rw [hsame]
  · obtain ⟨hv, hlater⟩ := hadmitted
    rw [hlater]
    refine getUtxos_admitTx (fun op hop hin => ?_) status
    -- an outpoint has one owner
    obtain ⟨out, hout, hrecipient⟩ := hv.owned op hin
    have howner := (howned.listed addr op hop).2
    exact hne (howner.symm.trans ((howned.recipient op out hout).symm.trans hrecipient))

/-- The second payment of the sample run is admitted, and the owner of the genesis output
sees nothing of it. -/
theorem getUtxos_addTx_setup : ∃ c, run Sample.sodium (Sample.setup.take 3) = .ok c ∧
    (c.addTx Sample.sodium (Sample.pay₂.signed Sample.sodium) .ok).2 = .ok .none ∧
    c.getUtxos genesisAddr = some [(⟨Sample.genesisTxid, 0⟩, 15 * units)] ∧
    (c.addTx Sample.sodium (Sample.pay₂.signed Sample.sodium) .ok).1.getUtxos genesisAddr =
      c.getUtxos genesisAddr := by
  obtain ⟨c, hrun, hreach, hshare, haccepted, hlist⟩ := exists_reachable_any
    (S := Sample.sodium) (Sample.setup.take 3)
    (fun c => NoSharedTxid c ∧
      (c.addTx Sample.sodium (Sample.pay₂.signed Sample.sodium) .ok).2 = .ok .none ∧
      c.getUtxos genesisAddr = some [(⟨Sample.genesisTxid, 0⟩, 15 * units)]) (by decide +kernel)
  exact ⟨c, hrun, haccepted, hlist, getUtxos_addTx_of_ne hreach hshare
    (Sample.pay₂.signed Sample.sodium) .ok (by decide +kernel)⟩

end Axis
