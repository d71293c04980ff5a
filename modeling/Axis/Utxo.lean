import Axis.Lib.FiniteMap
import Axis.Lib.Ledger
import Axis.Tx

/-!
# The UTXO set

`Chain::apply_tx` and the two maps it updates: the unspent outputs, and for each
address its outpoints in the order they were created.

Applying a transaction never fails.  An input that is not in the set is skipped
without a sign, and an output that is already there is overwritten.

## Main results

* `getElem?_applyTx` — what the set holds after a transaction.
* `getElem?_replay` — **the set refines the ledger**: replaying a list of
  transactions leaves exactly their unspent outputs.
-/

namespace Axis

/-- The unspent outputs and their index by address. -/
@[ext] structure UtxoSet where
  utxo : FiniteMap OutPoint TxOutput := ∅
  addressUtxo : FiniteMap Address (List OutPoint) := ∅

namespace UtxoSet

/-- The loop body over the inputs.  The source looks the vector of the address up
with `operator[]`, which makes an empty one where there is none. -/
def spend (u : UtxoSet) (op : OutPoint) : UtxoSet :=
  match u.utxo[op]? with
  | none => u
  | some out =>
    let vec := (u.addressUtxo[out.recipient]?.getD []).filter (· ≠ op)
    { utxo := u.utxo.erase op
      addressUtxo :=
        if vec.isEmpty then u.addressUtxo.erase out.recipient
        else u.addressUtxo.insert out.recipient vec }

/-- The loop body over the outputs. -/
def create (u : UtxoSet) (op : OutPoint) (out : TxOutput) : UtxoSet where
  utxo := u.utxo.insert op out
  addressUtxo :=
    u.addressUtxo.insert out.recipient (u.addressUtxo[out.recipient]?.getD [] ++ [op])

/-- The loop over the outputs, with its 32-bit index. -/
def createOutputs (txid : Hash) (idx : UInt32) (u : UtxoSet) : List TxOutput → UtxoSet
  | [] => u
  | out :: outs => (u.create ⟨txid, idx⟩ out).createOutputs txid (idx + 1) outs

def applyTx (u : UtxoSet) (tx : Transaction) : UtxoSet :=
  (tx.inputs.foldl spend u).createOutputs tx.txid 0 tx.outputs

/-- The outpoints listed for an address. -/
def addressed (u : UtxoSet) (addr : Address) : List OutPoint := u.addressUtxo[addr]?.getD []

end UtxoSet

/-- The outpoints and outputs of a transaction, counted from `idx`. -/
def outpointsFrom (txid : Hash) (idx : UInt32) : List TxOutput → List (OutPoint × TxOutput)
  | [] => []
  | out :: outs => (⟨txid, idx⟩, out) :: outpointsFrom txid (idx + 1) outs

/-- The outpoints a transaction creates, with their outputs. -/
def Transaction.created (tx : Transaction) : List (OutPoint × TxOutput) :=
  outpointsFrom tx.txid 0 tx.outputs

/-- Transactions as events of a ledger: they spend outpoints and create outputs. -/
def effects : Ledger.Effects Transaction OutPoint TxOutput where
  spends := Transaction.inputs
  creates := Transaction.created

@[simp] theorem effects_spends (tx : Transaction) : effects.spends tx = tx.inputs := rfl

@[simp] theorem effects_creates (tx : Transaction) : effects.creates tx = tx.created := rfl

/-! ### Outpoints of a transaction -/

theorem mem_outpointsFrom {txid : Hash} {idx : UInt32} {outs : List TxOutput} {op : OutPoint}
    {out : TxOutput} :
    (op, out) ∈ outpointsFrom txid idx outs ↔
      ∃ k, outs[k]? = some out ∧ op = ⟨txid, idx + UInt32.ofNat k⟩ := by
  induction outs generalizing idx with
  | nil => simp [outpointsFrom]
  | cons o outs ih =>
    rw [outpointsFrom, List.mem_cons, ih]
    constructor
    · intro hcases
      rcases hcases with heq | ⟨k, hk, rfl⟩
      · obtain ⟨rfl, rfl⟩ := Prod.mk.inj heq
        exact ⟨0, rfl, by simp⟩
      · refine ⟨k + 1, hk, ?_⟩
        rw [UInt32.ofNat_add, UInt32.add_assoc, UInt32.add_comm (UInt32.ofNat k)]
        rfl
    · intro hex
      obtain ⟨k, hk, rfl⟩ := hex
      cases k with
      | zero =>
        refine Or.inl ?_
        rw [List.getElem?_cons_zero, Option.some.injEq] at hk
        simp [hk]
      | succ k =>
        refine Or.inr ⟨k, hk, ?_⟩
        rw [Nat.succ_eq_add_one, UInt32.ofNat_add, UInt32.add_assoc,
          UInt32.add_comm (UInt32.ofNat k)]
        rfl

theorem Transaction.mem_created {tx : Transaction} {op : OutPoint} {out : TxOutput} :
    (op, out) ∈ tx.created ↔
      ∃ k, tx.outputs[k]? = some out ∧ op = ⟨tx.txid, UInt32.ofNat k⟩ := by
  rw [created, mem_outpointsFrom]
  simp

theorem txid_of_mem_names {tx : Transaction} {op : OutPoint} (h : op ∈ effects.names tx) :
    op.txid = tx.txid := by
  obtain ⟨out, hout⟩ := Ledger.mem_names.mp h
  obtain ⟨k, -, rfl⟩ := Transaction.mem_created.mp hout
  rfl

/-- The amounts a transaction creates are those of its outputs. -/
theorem map_snd_outpointsFrom (txid : Hash) (idx : UInt32) (outs : List TxOutput) :
    (outpointsFrom txid idx outs).map Prod.snd = outs := by
  induction outs generalizing idx with
  | nil => rfl
  | cons o outs ih => rw [outpointsFrom, List.map_cons, ih]

theorem Transaction.map_snd_created (tx : Transaction) : tx.created.map Prod.snd = tx.outputs :=
  map_snd_outpointsFrom _ _ _

/-- Fewer than `2 ^ 32` outputs get different indices. -/
theorem nodup_names_of_sized {tx : Transaction} (h : tx.outputs.length < 2 ^ 32) :
    (effects.names tx).Nodup := by
  have hnames : effects.names tx =
      (List.range tx.outputs.length).map fun k => ⟨tx.txid, UInt32.ofNat k⟩ := by
    rw [Ledger.Effects.names, effects_creates, Transaction.created]
    -- the induction needs the outputs from any index on
    suffices hfrom : ∀ idx : ℕ, ∀ outs : List TxOutput,
        (outpointsFrom tx.txid (UInt32.ofNat idx) outs).map Prod.fst =
          (List.range' idx outs.length).map fun k => (⟨tx.txid, UInt32.ofNat k⟩ : OutPoint) by
      rw [List.range_eq_range']
      exact hfrom 0 tx.outputs
    intro idx outs
    induction outs generalizing idx with
    | nil => rfl
    | cons o outs ih =>
      rw [outpointsFrom, List.map_cons, List.length_cons, List.range'_succ, List.map_cons, ← ih,
        UInt32.ofNat_add]
      rfl
  rw [hnames]
  refine List.Nodup.map_on ?_ List.nodup_range
  intro a ha b hb heq
  rw [List.mem_range] at ha hb
  have hidx : UInt32.ofNat a = UInt32.ofNat b := congrArg OutPoint.index heq
  have hnat := congrArg UInt32.toNat hidx
  rw [UInt32.toNat_ofNat', UInt32.toNat_ofNat', Nat.mod_eq_of_lt (by omega),
    Nat.mod_eq_of_lt (by omega)] at hnat
  exact hnat

/-! ### Applying a transaction -/

namespace UtxoSet

theorem utxo_spend (u : UtxoSet) (op : OutPoint) : (u.spend op).utxo = u.utxo.erase op := by
  rw [spend]
  split
  · -- the silent path: there is nothing to erase
    next hnone =>
    refine (Std.ExtTreeMap.ext_getElem? fun k => ?_).symm
    rw [FiniteMap.getElem?_erase_eq]
    split
    · next heq => rw [← heq, hnone]
    · rfl
  · rfl

theorem utxo_foldl_spend (u : UtxoSet) (ops : List OutPoint) :
    (ops.foldl spend u).utxo = FiniteMap.eraseAll u.utxo ops := by
  induction ops generalizing u with
  | nil => rfl
  | cons op ops ih => rw [List.foldl_cons, ih, utxo_spend, FiniteMap.eraseAll_cons]

theorem utxo_createOutputs (txid : Hash) (idx : UInt32) (u : UtxoSet) (outs : List TxOutput) :
    (u.createOutputs txid idx outs).utxo =
      FiniteMap.insertAll u.utxo (outpointsFrom txid idx outs) := by
  induction outs generalizing u idx with
  | nil => rfl
  | cons out outs ih => rw [createOutputs, ih, outpointsFrom, FiniteMap.insertAll_cons]; rfl

/-- Applying a transaction erases its inputs and inserts what it creates. -/
theorem utxo_applyTx (u : UtxoSet) (tx : Transaction) :
    (u.applyTx tx).utxo =
      FiniteMap.insertAll (FiniteMap.eraseAll u.utxo tx.inputs) tx.created := by
  rw [applyTx, utxo_createOutputs, utxo_foldl_spend, Transaction.created]

/-- What the set holds after a transaction: its outputs, and what was there and is
neither spent nor overwritten. -/
theorem getElem?_applyTx {u : UtxoSet} {tx : Transaction} (hsize : tx.outputs.length < 2 ^ 32)
    {op : OutPoint} {out : TxOutput} :
    (u.applyTx tx).utxo[op]? = some out ↔
      (op, out) ∈ tx.created ∨
        u.utxo[op]? = some out ∧ op ∉ tx.inputs ∧ op ∉ effects.names tx := by
  rw [utxo_applyTx]
  constructor
  · intro h
    rcases FiniteMap.mem_or_of_getElem?_insertAll h with hcre | ⟨hname, hold⟩
    · exact Or.inl hcre
    · rw [FiniteMap.getElem?_eraseAll] at hold
      split at hold
      · cases hold
      · next hnot => exact Or.inr ⟨hold, hnot, hname⟩
  · intro hcases
    rcases hcases with hcre | ⟨hold, hnot, hname⟩
    · exact FiniteMap.getElem?_insertAll_of_mem (nodup_names_of_sized hsize) hcre _
    · have hkeys : op ∉ tx.created.map Prod.fst := hname
      rw [FiniteMap.getElem?_insertAll_of_notMem hkeys, FiniteMap.getElem?_eraseAll,
        if_neg hnot, hold]

/-- An outpoint that a transaction does not spend outlasts it. -/
theorem mem_utxo_applyTx {u : UtxoSet} {tx : Transaction} {op : OutPoint} (h : op ∈ u.utxo)
    (hnot : op ∉ tx.inputs) : op ∈ (u.applyTx tx).utxo := by
  rw [FiniteMap.mem_iff_exists] at h ⊢
  obtain ⟨out, hout⟩ := h
  rw [utxo_applyTx]
  by_cases hname : op ∈ tx.created.map Prod.fst
  · obtain ⟨out', hout', -⟩ := FiniteMap.exists_getElem?_insertAll hname
      (FiniteMap.eraseAll u.utxo tx.inputs)
    exact ⟨out', hout'⟩
  · refine ⟨out, ?_⟩
    rw [FiniteMap.getElem?_insertAll_of_notMem hname, FiniteMap.getElem?_eraseAll, if_neg hnot,
      hout]

/-! ### Replaying a history -/

/-- The set after a list of transactions, from nothing. -/
def replay (txs : List Transaction) : UtxoSet := txs.foldl applyTx {}

theorem replay_append (txs ts : List Transaction) :
    replay (txs ++ ts) = ts.foldl applyTx (replay txs) := List.foldl_append

/-- **The UTXO set refines the ledger**: it holds exactly the unspent outputs. -/
theorem getElem?_replay {txs : List Transaction}
    (hsize : ∀ tx ∈ txs, tx.outputs.length < 2 ^ 32) {op : OutPoint} {out : TxOutput} :
    (replay txs).utxo[op]? = some out ↔ Ledger.Unspent effects txs op out := by
  -- on the last transaction, whose effect both sides describe in the same way
  induction txs using List.reverseRecOn generalizing out with
  | nil =>
    have hempty : (replay []).utxo[op]? = none := Std.ExtTreeMap.getElem?_empty
    rw [hempty]
    constructor
    · intro h
      cases h
    · exact fun h => absurd h Ledger.not_unspent_nil
  | append_singleton txs tx ih =>
    rw [replay_append, List.foldl_cons, List.foldl_nil,
      getElem?_applyTx (hsize tx (by simp)), Ledger.unspent_concat,
      ih fun t ht => hsize t (List.mem_append_left _ ht)]
    rfl

end UtxoSet

end Axis
