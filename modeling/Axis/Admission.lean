import Axis.Lib.Independence
import Axis.Index
import Axis.Threads

/-!
# Admission of transactions

`add_tx` runs four loops and a cascade of checks before it touches the state.  In exact
arithmetic the checks are the conditions of `Chain.Valid`, whose order does not matter, and
a refusal leaves everything as it is.  An admission writes to the pool, to `pool_spent_` and
to the pool database, under keys that only the transaction's own checks read.

The pool and `pool_spent_` are written before the database, so a failing write finds the
transaction in memory.

## Main definitions

* `failedTx` — the state after a submission whose write failed.
* `Separate` — two submissions with different txids and no common input.

## Main results

* `addTx_exact` — **`add_tx` accepts exactly the valid transactions, and a refusal changes
  nothing.**
* `addTx_not_atomic` — **no failing write is undone.**
* `Separate.independent` — no check of one submission can observe the other.
* `addTx_perm` — **separate submissions commute.**
-/

namespace Axis

variable {S : Sodium}

/-! ### Refusals -/

/-- A transaction that is not valid is refused with an error, and the state is left
alone. -/
theorem exists_refusal {st : SignedTransaction} {c : Chain} (h : ¬ Chain.Valid S st c)
    (status : WriteStatus) : ∃ err, err ≠ .none ∧ c.addTx S st status = (c, .ok err) := by
  cases hcheck : c.checkTx S st with
  | ok u => exact absurd (Chain.checkTx_eq_ok_iff.mp hcheck) h
  | error err =>
    refine ⟨err, ?_, by rw [Chain.addTx, hcheck]⟩
    intro hnone
    rw [hnone] at hcheck
    exact checkTx_ne_none st c hcheck

/-- **`add_tx` accepts exactly the valid transactions, and a refusal changes nothing.** -/
theorem addTx_exact (S : Sodium) (st : SignedTransaction) (c : Chain) :
    ((c.addTx S st .ok).2 = .ok .none ↔ Chain.Valid S st c) ∧
    (¬ Chain.Valid S st c → ∃ err, err ≠ .none ∧ c.addTx S st .ok = (c, .ok err)) :=
  ⟨addTx_accepts_iff, fun h => exists_refusal h .ok⟩

/-! ### Failing writes -/

/-- What memory holds of a transaction that passed its checks, whatever the write
answers. -/
theorem pool_admitTx (tx : Transaction) (status : WriteStatus) (c : Chain) :
    (c.admitTx tx status).1.pool = c.pool.insert tx.txid tx ∧
    (c.admitTx tx status).1.poolSpent =
      FiniteMap.insertAll c.poolSpent (tx.inputs.map fun op => (op, op)) ∧
    (c.admitTx tx status).1.toUtxoSet = c.toUtxoSet := by
  cases status <;> exact ⟨rfl, rfl, rfl⟩

/-- The transaction is in the pool. -/
theorem mem_pool_admitTx (tx : Transaction) (status : WriteStatus) (c : Chain) :
    tx.txid ∈ (c.admitTx tx status).1.pool := by
  rw [(pool_admitTx tx status c).1, FiniteMap.mem_iff_exists]
  exact ⟨tx, by rw [FiniteMap.getElem?_insert_eq, if_pos rfl]⟩

/-- Its inputs are in `pool_spent_`. -/
theorem mem_poolSpent_admitTx {tx : Transaction} {op : OutPoint} (hop : op ∈ tx.inputs)
    (status : WriteStatus) (c : Chain) : op ∈ (c.admitTx tx status).1.poolSpent := by
  rw [(pool_admitTx tx status c).2.1, mem_insertAll_self]
  exact Or.inl hop

/-- Lookups keep the order of their outpoints. -/
theorem map_fst_mapM_lookupAmount {c : Chain} {ops : List OutPoint}
    {l : List (OutPoint × UInt64)} (h : ops.mapM c.lookupAmount = some l) :
    l.map Prod.fst = ops := by
  induction ops generalizing l with
  | nil =>
    cases h
    rfl
  | cons op ops ih =>
    obtain ⟨e, l', hop, hl', rfl⟩ := mapM_cons_eq_some.mp h
    obtain ⟨out, -, rfl⟩ := Option.map_eq_some_iff.mp hop
    rw [List.map_cons, ih hl']

/-- What an owner lookup answers is not spent by the pool. -/
theorem notMem_poolSpent_of_getUtxos {c : Chain} {addr : Address}
    {l : List (OutPoint × UInt64)} (h : c.getUtxos addr = some l) {e : OutPoint × UInt64}
    (he : e ∈ l) : e.1 ∉ c.poolSpent := by
  have hmem : e.1 ∈ l.map Prod.fst := List.mem_map_of_mem he
  rw [map_fst_mapM_lookupAmount h] at hmem
  exact of_decide_eq_true (List.mem_filter.mp hmem).2

/-- The state after a submission whose write failed. -/
abbrev failedTx (S : Sodium) (st : SignedTransaction) (what : String) (written : Bool)
    (c : Chain) : Chain := (c.addTx S st (.error what written)).1

/-- **No failing write is undone.**  Whenever the checks pass and the write fails, `add_tx`
throws with the transaction in the pool and its inputs in `pool_spent_`, where they were
not before.  The same submission is then answered `Duplicate`, and no owner lookup lists
the inputs. -/
theorem addTx_not_atomic {st : SignedTransaction} {c : Chain} (h : c.checkTx S st = .ok ())
    (what : String) (written : Bool) :
    (∃ text, (c.addTx S st (.error what written)).2 = .error text) ∧
    (failedTx S st what written c).pool ≠ c.pool ∧
    (failedTx S st what written c).poolSpent ≠ c.poolSpent ∧
    (∀ status, (failedTx S st what written c).addTx S st status =
      (failedTx S st what written c, .ok .duplicate)) ∧
    ∀ (addr : Address) (l : List (OutPoint × UInt64)),
      (failedTx S st what written c).getUtxos addr = some l →
      ∀ op ∈ st.tx.inputs, op ∉ l.map Prod.fst := by
  have hv := Chain.checkTx_eq_ok_iff.mp h
  have hadd : c.addTx S st (.error what written) = c.admitTx st.tx (.error what written) := by
    rw [Chain.addTx, h]
  have hknown := mem_pool_admitTx st.tx (.error what written) c
  have hspent : ∀ op ∈ st.tx.inputs, op ∈ (c.admitTx st.tx (.error what written)).1.poolSpent :=
    fun op hop => mem_poolSpent_admitTx hop _ c
  unfold failedTx
  rw [hadd]
  refine ⟨⟨_, rfl⟩, ?_, ?_, ?_, ?_⟩
  · intro heq
    rw [heq] at hknown
    exact hv.unknown hknown
  · intro heq
    obtain ⟨op, hop⟩ := List.exists_mem_of_ne_nil _ hv.inputs_ne
    have hmem := hspent op hop
    rw [heq] at hmem
    exact hv.unspent op hop hmem
  · -- every check before the one for duplicates passes again
    intro status
    have hutxo : (c.admitTx st.tx (.error what written)).1.utxo = c.utxo := rfl
    have hdup : (c.admitTx st.tx (.error what written)).1.checkTx S st = .error .duplicate := by
      rw [hv.checkTx_pool hutxo, if_pos hknown]
    rw [Chain.addTx, hdup]
  · intro addr l hl op hop hmem
    obtain ⟨e, he, rfl⟩ := List.mem_map.mp hmem
    exact notMem_poolSpent_of_getUtxos hl he (hspent e.1 hop)

namespace Sample

/-- The first payment, whose write fails. -/
def failedPay (c : Chain) : Chain := failedTx sodium (pay₁.signed sodium) "IO error" false c

end Sample

/-- The first payment of the sample run, with an IO error. -/
theorem addTx_not_atomic_setup : ∃ c, run Sample.sodium (Sample.setup.take 2) = .ok c ∧
    c.checkTx Sample.sodium (Sample.pay₁.signed Sample.sodium) = .ok () ∧
    (Sample.failedPay c).pool ≠ c.pool ∧ (Sample.failedPay c).poolSpent ≠ c.poolSpent := by
  obtain ⟨c, hrun, hreach, hcheck⟩ := exists_reachable_any (S := Sample.sodium)
    (Sample.setup.take 2)
    (fun c => c.checkTx Sample.sodium (Sample.pay₁.signed Sample.sodium) = .ok ())
    (by decide +kernel)
  obtain ⟨-, hpool, hspent, -, -⟩ := addTx_not_atomic hcheck "IO error" false
  exact ⟨c, hrun, hcheck, hpool, hspent⟩

/-- **A submission reported as failed stays in the pool**: its input is no longer on offer,
and submitting it again is answered `Duplicate`. -/
theorem addTx_failed_stays : ∃ c, run Sample.sodium (Sample.setup.take 2) = .ok c ∧
    Reachable Sample.sodium anyOp c ∧
    c.checkTx Sample.sodium (Sample.pay₁.signed Sample.sodium) = .ok () ∧
    c.getUtxos Sample.sender =
      some [(⟨Sample.cb₁, 0⟩, 3 * units), (⟨Sample.cb₂, 0⟩, 3 * units)] ∧
    ¬ ((Sample.failedPay c).pool = c.pool ∧ (Sample.failedPay c).poolSpent = c.poolSpent) ∧
    ((Sample.failedPay c).addTx Sample.sodium (Sample.pay₁.signed Sample.sodium) .ok).2 =
      .ok .duplicate ∧
    (Sample.failedPay c).getUtxos Sample.sender = some [(⟨Sample.cb₂, 0⟩, 3 * units)] := by
  obtain ⟨c, hrun, hreach, hcheck, hlist, hsize, hsize', hdup, hlist'⟩ := exists_reachable_any
    (S := Sample.sodium) (Sample.setup.take 2)
    (fun c => c.checkTx Sample.sodium (Sample.pay₁.signed Sample.sodium) = .ok () ∧
      c.getUtxos Sample.sender =
        some [(⟨Sample.cb₁, 0⟩, 3 * units), (⟨Sample.cb₂, 0⟩, 3 * units)] ∧
      c.pool.size = 0 ∧ (Sample.failedPay c).pool.size = 1 ∧
      ((Sample.failedPay c).addTx Sample.sodium (Sample.pay₁.signed Sample.sodium) .ok).2 =
        .ok .duplicate ∧
      (Sample.failedPay c).getUtxos Sample.sender = some [(⟨Sample.cb₂, 0⟩, 3 * units)])
    (by decide +kernel)
  refine ⟨c, hrun, hreach, hcheck, hlist, ?_, hdup, hlist'⟩
  intro hboth
  rw [hboth.1, hsize] at hsize'
  cases hsize'

/-! ### Separate submissions -/

/-- Two submissions with different txids and no common input. -/
structure Separate (st st' : SignedTransaction) : Prop where
  txid : st.tx.txid ≠ st'.tx.txid
  inputs : ∀ op ∈ st.tx.inputs, op ∉ st'.tx.inputs

instance (st st' : SignedTransaction) : Decidable (Separate st st') :=
  decidable_of_iff (st.tx.txid ≠ st'.tx.txid ∧ ∀ op ∈ st.tx.inputs, op ∉ st'.tx.inputs)
    ⟨fun h => ⟨h.1, h.2⟩, fun h => ⟨h.txid, h.inputs⟩⟩

theorem Separate.symm {st st' : SignedTransaction} (h : Separate st st') : Separate st' st :=
  ⟨h.txid.symm, fun op hop hop' => h.inputs op hop' hop⟩

/-- A submission, with no failing write. -/
def submit (S : Sodium) (st : SignedTransaction) (c : Chain) : Chain × Except String TxError :=
  c.addTx S st .ok

/-- The checks read the UTXO set, and what the pool holds under the transaction's own
txid and inputs. -/
theorem checkTx_congr {st : SignedTransaction} {c c' : Chain} (hutxo : c'.utxo = c.utxo)
    (hpool : st.tx.txid ∈ c'.pool ↔ st.tx.txid ∈ c.pool)
    (hspent : ∀ op ∈ st.tx.inputs, op ∈ c'.poolSpent ↔ op ∈ c.poolSpent) :
    c'.checkTx S st = c.checkTx S st := by
  have hany : (st.tx.inputs.any fun op => op ∈ c'.poolSpent) =
      st.tx.inputs.any fun op => op ∈ c.poolSpent := by
    rw [Bool.eq_iff_iff, List.any_eq_true, List.any_eq_true]
    simp only [decide_eq_true_eq]
    exact exists_congr fun op => and_congr_right fun hop => hspent op hop
  unfold Chain.checkTx
  simp only [hutxo, hpool, hany]

/-- **No check of a submission observes the admission of a separate one.** -/
theorem Separate.checkTx_admitTx {st st' : SignedTransaction} (h : Separate st st') (c : Chain) :
    (c.admitTx st'.tx .ok).1.checkTx S st = c.checkTx S st := by
  obtain ⟨hpool, hspent, hset⟩ := pool_admitTx st'.tx .ok c
  apply checkTx_congr
  · rw [hset]
  · rw [hpool, FiniteMap.mem_iff_exists, FiniteMap.mem_iff_exists,
      FiniteMap.getElem?_insert_eq, if_neg h.txid.symm]
  · intro op hop
    rw [hspent, mem_insertAll_self, or_iff_right (h.inputs op hop)]

/-- A submission admits its transaction if the checks pass. -/
theorem submit_eq (st : SignedTransaction) (c : Chain) :
    submit S st c =
      match c.checkTx S st with
      | .ok () => c.admitTx st.tx .ok
      | .error err => (c, .ok err) := by
  unfold submit Chain.addTx
  rcases c.checkTx S st with err | u <;> rfl

/-- The checks of a submission after a separate one. -/
theorem Separate.checkTx_submit {st st' : SignedTransaction} (h : Separate st st') (c : Chain) :
    (submit S st' c).1.checkTx S st = c.checkTx S st := by
  rw [submit_eq]
  rcases c.checkTx S st' with err | u
  · rfl
  · exact h.checkTx_admitTx c

/-- **The admissions of separate transactions commute.** -/
theorem Separate.admitTx_comm {st st' : SignedTransaction} (h : Separate st st') (c : Chain) :
    ((c.admitTx st.tx .ok).1.admitTx st'.tx .ok).1 =
      ((c.admitTx st'.tx .ok).1.admitTx st.tx .ok).1 := by
  have hkeys : ∀ tx : Transaction, (tx.inputs.map fun op => (op, op)).map Prod.fst = tx.inputs := by
    intro tx
    simp [Function.comp_def]
  refine Chain.ext rfl rfl rfl rfl rfl rfl ?_ ?_ rfl ?_
  · exact FiniteMap.insert_comm h.txid c.pool st.tx st'.tx
  · refine FiniteMap.insertAll_comm ?_ c.poolSpent
    rw [hkeys, hkeys]
    exact h.inputs
  · exact FiniteMap.insert_comm (hexKey_injective.ne h.txid) c.poolDb _ _

/-- Separate submissions are independent: neither sees the other. -/
theorem Separate.independent {st st' : SignedTransaction} (h : Separate st st') :
    Independence.Independent (submit S) st st' where
  left c := by
    rw [submit_eq st, submit_eq st, h.checkTx_submit c]
    rcases c.checkTx S st with err | u <;> rfl
  right c := by
    rw [submit_eq st', submit_eq st', h.symm.checkTx_submit c]
    rcases c.checkTx S st' with err | u <;> rfl
  comm c := by
    rw [submit_eq st' (submit S st c).1, submit_eq st (submit S st' c).1, h.checkTx_submit c,
      h.symm.checkTx_submit c, submit_eq st c, submit_eq st' c]
    -- only two admissions change the state twice
    rcases c.checkTx S st with err | u <;> rcases c.checkTx S st' with err' | u'
    · rfl
    · rfl
    · rfl
    · exact h.admitTx_comm c

/-- **Separate submissions commute.**  From any state, in every order, each submission is
answered as if it came first, and all orders end in the same state. -/
theorem addTx_perm {sts order : List SignedTransaction} (h : sts.Pairwise Separate)
    (horder : order.Perm sts) (c : Chain) :
    Independence.answers (submit S) order c = order.map (fun st => (c.addTx S st .ok).2) ∧
    Independence.final (submit S) order c = Independence.final (submit S) sts c := by
  have hindependent : sts.Pairwise (Independence.Independent (submit S)) :=
    h.imp Separate.independent
  have hperm : order.Pairwise (Independence.Independent (submit S)) :=
    hindependent.perm horder.symm Independence.Independent.symm
  exact ⟨Independence.answers_eq_map hperm c,
    (Independence.final_perm hindependent horder.symm c).symm⟩

namespace Sample

/-- Both payments, and one of the genesis output, which the signer does not own. -/
def submissions : List SignedTransaction :=
  [pay₁.signed sodium, pay₂.signed sodium,
    ({ pay₁ with inputs := [⟨genesisTxid, 0⟩] } : ParsedCreateTx).signed sodium]

end Sample

/-- The two payments of the sample run and a refused one, last one first. -/
theorem addTx_perm_setup : ∃ c, run Sample.sodium (Sample.setup.take 2) = .ok c ∧
    (Independence.final (submit Sample.sodium) Sample.submissions.reverse c).pool.size = 2 ∧
    Independence.answers (submit Sample.sodium) Sample.submissions.reverse c =
      Sample.submissions.reverse.map (fun st => (c.addTx Sample.sodium st .ok).2) ∧
    Independence.final (submit Sample.sodium) Sample.submissions.reverse c =
      Independence.final (submit Sample.sodium) Sample.submissions c := by
  obtain ⟨c, hrun, -, hsize⟩ := exists_reachable_any (S := Sample.sodium)
    (Sample.setup.take 2)
    (fun c => (Independence.final (submit Sample.sodium) Sample.submissions.reverse c).pool.size
      = 2) (by decide +kernel)
  exact ⟨c, hrun, hsize, addTx_perm (by decide +kernel) (List.reverse_perm _) c⟩

end Axis
