import Axis.Lib.Independence
import Axis.Node

/-!
# Replaying transactions

`apply_tx` checks nothing: an input that is not in the set is skipped, and an output that
is there is overwritten.  So the set after any list of transactions is known from the
list alone, and transactions that do not touch each other's outpoints may be applied in
any order.

The index by address lists outpoints in the order they were created, which depends on the
order of the transactions.  What does not is a `View`: the set, and for each address that
is present the multiset of its outpoints.

## Main definitions

* `View` — a UTXO set without the order of its lists.
* `Update`, `Transaction.updates` — what a transaction does, one outpoint at a time.
* `Unrelated` — two transactions that touch no common outpoint.

## Main results

* `getElem?_replay_iff` — **the set holds exactly the unspent outputs**, by positions of
  the list.
* `replayed_of_loadBlocks` — what `load_blocks` builds is a replay.
* `View.act_comm` — updates of different outpoints commute.
* `applyTx_perm` — **unrelated transactions may be applied in any order.**
-/

namespace Axis

/-! ### The history of the set -/

/-- The outputs of a transaction by their index. -/
theorem Transaction.mem_created_iff {tx : Transaction} (hsize : tx.outputs.length < 2 ^ 32)
    {h : Hash} {k : UInt32} {out : TxOutput} :
    (⟨h, k⟩, out) ∈ tx.created ↔ tx.txid = h ∧ tx.outputs[k.toNat]? = some out := by
  rw [Transaction.mem_created]
  constructor
  · intro hex
    obtain ⟨i, hi, heq⟩ := hex
    obtain ⟨rfl, rfl⟩ := OutPoint.mk.inj heq
    have hlt := (List.getElem?_eq_some_iff.mp hi).1
    rw [UInt32.toNat_ofNat', Nat.mod_eq_of_lt (by omega)]
    exact ⟨rfl, hi⟩
  · intro hboth
    obtain ⟨rfl, hk⟩ := hboth
    exact ⟨k.toNat, hk, by simp⟩

/-- The outpoints of a transaction by their index. -/
theorem mem_names_iff {tx : Transaction} (hsize : tx.outputs.length < 2 ^ 32) {h : Hash}
    {k : UInt32} :
    (⟨h, k⟩ : OutPoint) ∈ effects.names tx ↔ tx.txid = h ∧ k.toNat < tx.outputs.length := by
  rw [Ledger.mem_names]
  simp only [effects_creates, Transaction.mem_created_iff hsize, exists_and_left]
  rw [← Option.isSome_iff_exists]
  simp

/-- **The UTXO set is exactly the unspent outputs.**  After any list of transactions it
holds, under a txid and an index, the output that the transaction at some position has
there, if no later transaction creates or lists that outpoint. -/
theorem getElem?_replay_iff {txs : List Transaction}
    (hsize : ∀ tx ∈ txs, tx.outputs.length < 2 ^ 32) (h : Hash) (k : UInt32) (out : TxOutput) :
    (UtxoSet.replay txs).utxo[(⟨h, k⟩ : OutPoint)]? = some out ↔
      ∃ (i : ℕ) (tx : Transaction), txs[i]? = some tx ∧
        (tx.txid = h ∧ tx.outputs[k.toNat]? = some out) ∧
        ∀ (j : ℕ) (tx' : Transaction), i < j → txs[j]? = some tx' →
          (⟨h, k⟩ : OutPoint) ∉ tx'.inputs ∧ ¬ (tx'.txid = h ∧ k.toNat < tx'.outputs.length) := by
  rw [UtxoSet.getElem?_replay hsize, Ledger.unspent_iff_getElem?]
  constructor
  · intro hex
    obtain ⟨i, tx, hi, hcre, hlater⟩ := hex
    refine ⟨i, tx, hi, (Transaction.mem_created_iff (hsize tx (List.mem_of_getElem? hi))).mp hcre,
      fun j tx' hlt hj => ?_⟩
    rw [← mem_names_iff (hsize tx' (List.mem_of_getElem? hj))]
    exact hlater j tx' hlt hj
  · intro hex
    obtain ⟨i, tx, hi, hcre, hlater⟩ := hex
    refine ⟨i, tx, hi, (Transaction.mem_created_iff (hsize tx (List.mem_of_getElem? hi))).mpr hcre,
      fun j tx' hlt hj => ?_⟩
    have hkept := hlater j tx' hlt hj
    rwa [← mem_names_iff (hsize tx' (List.mem_of_getElem? hj))] at hkept

namespace Sample

/-- A transaction that lists its own output, and one with the same txid. -/
def selfSpend : Transaction := ⟨genesisTxid, [⟨genesisTxid, 0⟩], [⟨genesisAddr, 1⟩], ⟨0⟩⟩

def sameTxid : Transaction := ⟨genesisTxid, [], [⟨genesisAddr, 2⟩], ⟨0⟩⟩

end Sample

/-- The later one of two transactions with one txid. -/
theorem getElem?_replay_selfSpend :
    ∃ (i : ℕ) (tx : Transaction), [Sample.selfSpend, Sample.sameTxid][i]? = some tx ∧
      (tx.txid = Sample.genesisTxid ∧
        tx.outputs[(0 : UInt32).toNat]? = some ⟨genesisAddr, 2⟩) ∧
      ∀ (j : ℕ) (tx' : Transaction), i < j →
        [Sample.selfSpend, Sample.sameTxid][j]? = some tx' →
        (⟨Sample.genesisTxid, 0⟩ : OutPoint) ∉ tx'.inputs ∧
          ¬ (tx'.txid = Sample.genesisTxid ∧ (0 : UInt32).toNat < tx'.outputs.length) :=
  (getElem?_replay_iff (by decide) Sample.genesisTxid 0 ⟨genesisAddr, 2⟩).mp (by decide +kernel)

/-- `rebuild_utxo` replays the chain. -/
theorem replayed_rebuildUtxo (c : Chain) : c.rebuildUtxo.toUtxoSet = UtxoSet.replay c.txs := rfl

/-- A round of `load_blocks` replays one block more. -/
theorem replayed_of_loadBlock {S : Sodium} {c c' : Chain} {entry : Bytes × Bytes}
    (hc : c.toUtxoSet = UtxoSet.replay c.txs) (h : Chain.loadBlock S c entry = .ok c') :
    c'.toUtxoSet = UtxoSet.replay c'.txs := by
  unfold Chain.loadBlock at h
  dsimp only at h
  split at h
  · cases h
  next blk reader hrun =>
  split at h
  · cases h
  cases h
  have htxs : (c.blocks ++ [blk]).flatMap Block.transactions = c.txs ++ blk.transactions := by
    simp [Chain.txs]
  show blk.transactions.foldl UtxoSet.applyTx c.toUtxoSet =
    UtxoSet.replay ((c.blocks ++ [blk]).flatMap Block.transactions)
  rw [htxs, UtxoSet.replay_append, hc]

/-- **What `load_blocks` builds is a replay** of the blocks it loads. -/
theorem replayed_of_loadBlocks {S : Sodium} {c c' : Chain}
    (hc : c.toUtxoSet = UtxoSet.replay c.txs) (h : Chain.loadBlocks S c = .ok c') :
    c'.toUtxoSet = UtxoSet.replay c'.txs := by
  -- entry by entry
  have hloop : ∀ (entries : List (Bytes × Bytes)) (c c' : Chain),
      c.toUtxoSet = UtxoSet.replay c.txs → entries.foldlM (Chain.loadBlock S) c = .ok c' →
      c'.toUtxoSet = UtxoSet.replay c'.txs := by
    intro entries
    induction entries with
    | nil =>
      intro c c' hc hloop
      cases hloop
      exact hc
    | cons e entries ih =>
      intro c c' hc hloop
      rw [List.foldlM_cons] at hloop
      cases hround : Chain.loadBlock S c e with
      | error what =>
        rw [hround] at hloop
        cases hloop
      | ok c₁ =>
        rw [hround] at hloop
        exact ih c₁ c' (replayed_of_loadBlock hc hround) hloop
  unfold Chain.loadBlocks at h
  cases hload : c.blocksDb.toList.foldlM (Chain.loadBlock S) c with
  | error what =>
    rw [hload] at h
    cases h
  | ok c₁ =>
    rw [hload] at h
    cases h
    exact hloop _ c c₁ hc hload

/-! ### Sets without the order of their lists -/

/-- A UTXO set without the order of its lists: the map, and for each address that is
present the multiset of its outpoints. -/
@[ext] structure View where
  utxo : FiniteMap OutPoint TxOutput
  listed : Address → Option (Multiset OutPoint)

/-- One outpoint is spent, or created with its output. -/
inductive Update
  | spend (op : OutPoint)
  | create (op : OutPoint) (out : TxOutput)

/-- The outpoint of an update. -/
def Update.outpoint : Update → OutPoint
  | .spend op => op
  | .create op _ => op

namespace View

/-- Change what is listed for an address; nothing listed is the empty multiset. -/
def relist (f : Multiset OutPoint → Option (Multiset OutPoint)) (addr : Address)
    (listed : Address → Option (Multiset OutPoint)) : Address → Option (Multiset OutPoint) :=
  Function.update listed addr (f ((listed addr).getD 0))

/-- Remove an outpoint, and the address with the last of its outpoints. -/
def unlist (op : OutPoint) (m : Multiset OutPoint) : Option (Multiset OutPoint) :=
  if m.filter (· ≠ op) = 0 then none else some (m.filter (· ≠ op))

/-- Add an outpoint. -/
def enlist (op : OutPoint) (m : Multiset OutPoint) : Option (Multiset OutPoint) := some (op ::ₘ m)

/-- What an update does to a view. -/
def act (v : View) : Update → View
  | .spend op =>
    match v.utxo[op]? with
    | none => v
    | some out => ⟨v.utxo.erase op, relist (unlist op) out.recipient v.listed⟩
  | .create op out => ⟨v.utxo.insert op out, relist (enlist op) out.recipient v.listed⟩

theorem act_spend_none {v : View} {op : OutPoint} (h : v.utxo[op]? = none) :
    v.act (.spend op) = v := by
  simp only [act, h]

theorem act_spend_some {v : View} {op : OutPoint} {out : TxOutput} (h : v.utxo[op]? = some out) :
    v.act (.spend op) = ⟨v.utxo.erase op, relist (unlist op) out.recipient v.listed⟩ := by
  simp only [act, h]

theorem act_create (v : View) (op : OutPoint) (out : TxOutput) :
    v.act (.create op out) =
      ⟨v.utxo.insert op out, relist (enlist op) out.recipient v.listed⟩ := rfl

/-! ### Updates of different outpoints -/

@[simp] theorem getD_unlist (op : OutPoint) (m : Multiset OutPoint) :
    (unlist op m).getD 0 = m.filter (· ≠ op) := by
  unfold unlist
  split
  · next hzero => simp [hzero]
  · rfl

@[simp] theorem getD_enlist (op : OutPoint) (m : Multiset OutPoint) :
    (enlist op m).getD 0 = op ::ₘ m := rfl

/-- Removing an outpoint from what a list holds. -/
theorem unlist_coe (op : OutPoint) (l : List OutPoint) :
    unlist op l =
      if (l.filter (· ≠ op)).isEmpty then none
      else some (l.filter (· ≠ op) : Multiset OutPoint) := by
  unfold unlist
  rw [Multiset.filter_coe]
  simp only [Multiset.coe_eq_zero, List.isEmpty_iff]

/-- Changes to the same list that commute may be made to any two lists. -/
theorem relist_comm {f g : Multiset OutPoint → Option (Multiset OutPoint)}
    (h : ∀ m, g ((f m).getD 0) = f ((g m).getD 0)) (a b : Address)
    (listed : Address → Option (Multiset OutPoint)) :
    relist g b (relist f a listed) = relist f a (relist g b listed) := by
  unfold relist
  by_cases hab : a = b
  · subst hab
    simp [h]
  · rw [Function.update_of_ne (Ne.symm hab), Function.update_of_ne hab, Function.update_comm hab]

theorem unlist_unlist (op op' : OutPoint) (m : Multiset OutPoint) :
    unlist op' ((unlist op m).getD 0) = unlist op ((unlist op' m).getD 0) := by
  rw [getD_unlist, getD_unlist, unlist, unlist, Multiset.filter_comm]

theorem enlist_enlist (op op' : OutPoint) (m : Multiset OutPoint) :
    enlist op' ((enlist op m).getD 0) = enlist op ((enlist op' m).getD 0) := by
  rw [getD_enlist, getD_enlist, enlist, enlist, Multiset.cons_swap]

/-- An outpoint that is added keeps the address when another one is removed. -/
theorem enlist_unlist {op op' : OutPoint} (h : op ≠ op') (m : Multiset OutPoint) :
    enlist op' ((unlist op m).getD 0) = unlist op ((enlist op' m).getD 0) := by
  have hfilter : (op' ::ₘ m).filter (· ≠ op) = op' ::ₘ m.filter (· ≠ op) :=
    Multiset.filter_cons_of_pos _ h.symm
  rw [getD_unlist, getD_enlist, enlist, unlist, hfilter, if_neg (Multiset.cons_ne_zero)]

/-- A spend and a creation. -/
theorem act_spend_create {op op' : OutPoint} (h : op ≠ op') (v : View) (out' : TxOutput) :
    (v.act (.spend op)).act (.create op' out') = (v.act (.create op' out')).act (.spend op) := by
  have hlater : (v.act (.create op' out')).utxo[op]? = v.utxo[op]? := by
    rw [act_create, FiniteMap.getElem?_insert_eq, if_neg h.symm]
  cases hget : v.utxo[op]? with
  | none => rw [act_spend_none hget, act_spend_none (hlater.trans hget)]
  | some out =>
    rw [act_spend_some hget, act_spend_some (hlater.trans hget), act_create, act_create]
    refine View.ext (FiniteMap.erase_insert_comm h _ _) ?_
    exact relist_comm (enlist_unlist h) _ _ _

/-- Two spends. -/
theorem act_spend_spend {op op' : OutPoint} (h : op ≠ op') (v : View) :
    (v.act (.spend op)).act (.spend op') = (v.act (.spend op')).act (.spend op) := by
  cases hget : v.utxo[op]? with
  | none =>
    have hlater : (v.act (.spend op')).utxo[op]? = none := by
      cases hget' : v.utxo[op']? with
      | none => rw [act_spend_none hget', hget]
      | some out' => rw [act_spend_some hget', FiniteMap.getElem?_erase_eq, if_neg h.symm, hget]
    rw [act_spend_none hget, act_spend_none hlater]
  | some out =>
    cases hget' : v.utxo[op']? with
    | none =>
      have hlater : (v.act (.spend op)).utxo[op']? = none := by
        rw [act_spend_some hget, FiniteMap.getElem?_erase_eq, if_neg h, hget']
      rw [act_spend_none hlater, act_spend_none hget']
    | some out' =>
      have hlater : (v.act (.spend op)).utxo[op']? = some out' := by
        rw [act_spend_some hget, FiniteMap.getElem?_erase_eq, if_neg h, hget']
      have hlater' : (v.act (.spend op')).utxo[op]? = some out := by
        rw [act_spend_some hget', FiniteMap.getElem?_erase_eq, if_neg h.symm, hget]
      rw [act_spend_some hlater, act_spend_some hlater', act_spend_some hget,
        act_spend_some hget']
      refine View.ext (FiniteMap.erase_comm _ _ _) ?_
      exact relist_comm (unlist_unlist op op') _ _ _

/-- **Updates of different outpoints commute**, also when they are paid to the same
address. -/
theorem act_comm {a b : Update} (h : a.outpoint ≠ b.outpoint) (v : View) :
    (v.act a).act b = (v.act b).act a := by
  cases a with
  | spend op =>
    cases b with
    | spend op' => exact act_spend_spend h v
    | create op' out' => exact act_spend_create h v out'
  | create op out =>
    cases b with
    | spend op' => exact (act_spend_create h.symm v out).symm
    | create op' out' =>
      refine View.ext (FiniteMap.insert_comm h _ _ _) ?_
      exact relist_comm (enlist_enlist op op') _ _ _

end View

/-! ### Transactions as updates -/

/-- What a transaction does, one outpoint at a time: its inputs come first. -/
def Transaction.updates (tx : Transaction) : List Update :=
  tx.inputs.map .spend ++ tx.created.map fun e => .create e.1 e.2

namespace UtxoSet

/-- A UTXO set as a view. -/
def view (u : UtxoSet) : View where
  utxo := u.utxo
  listed addr := u.addressUtxo[addr]?.map Multiset.ofList

theorem getD_listed (u : UtxoSet) (addr : Address) :
    (u.view.listed addr).getD 0 = (u.addressed addr : Multiset OutPoint) := by
  unfold view addressed
  dsimp only
  cases u.addressUtxo[addr]? <;> rfl

/-- Spending an outpoint, as an update. -/
theorem view_spend (u : UtxoSet) (op : OutPoint) : (u.spend op).view = u.view.act (.spend op) := by
  cases hget : u.utxo[op]? with
  | none =>
    rw [View.act_spend_none hget, spend, hget]
  | some out =>
    rw [View.act_spend_some hget]
    refine View.ext (utxo_spend u op) (funext fun addr => ?_)
    rw [View.relist, getD_listed, View.unlist_coe, addressed]
    unfold spend view
    rw [hget]
    dsimp only
    by_cases howner : out.recipient = addr
    · subst howner
      rw [Function.update_self]
      split
      · rw [FiniteMap.getElem?_erase_eq, if_pos rfl]
        rfl
      · rw [FiniteMap.getElem?_insert_eq, if_pos rfl]
        rfl
    · rw [Function.update_of_ne (Ne.symm howner)]
      split
      · rw [FiniteMap.getElem?_erase_eq, if_neg howner]
      · rw [FiniteMap.getElem?_insert_eq, if_neg howner]

/-- Creating an output, as an update. -/
theorem view_create (u : UtxoSet) (op : OutPoint) (out : TxOutput) :
    (u.create op out).view = u.view.act (.create op out) := by
  refine View.ext rfl (funext fun addr => ?_)
  show (u.addressUtxo.insert out.recipient _)[addr]?.map _ =
    View.relist (View.enlist op) out.recipient u.view.listed addr
  rw [View.relist, getD_listed, addressed, View.enlist, FiniteMap.getElem?_insert_eq]
  by_cases howner : out.recipient = addr
  · subst howner
    rw [if_pos rfl, Function.update_self, Option.map_some, Multiset.cons_coe]
    exact congrArg some (Multiset.coe_eq_coe.mpr (List.perm_append_singleton _ _))
  · rw [if_neg howner, Function.update_of_ne (Ne.symm howner)]
    rfl

theorem view_foldl_spend (u : UtxoSet) (ops : List OutPoint) :
    (ops.foldl spend u).view = (ops.map Update.spend).foldl View.act u.view := by
  induction ops generalizing u with
  | nil => rfl
  | cons op ops ih => rw [List.foldl_cons, ih, view_spend, List.map_cons, List.foldl_cons]

theorem view_createOutputs (u : UtxoSet) (txid : Hash) (idx : UInt32) (outs : List TxOutput) :
    (u.createOutputs txid idx outs).view =
      ((outpointsFrom txid idx outs).map fun e => Update.create e.1 e.2).foldl View.act
        u.view := by
  induction outs generalizing u idx with
  | nil => rfl
  | cons out outs ih =>
    rw [createOutputs, ih, view_create, outpointsFrom, List.map_cons, List.foldl_cons]

/-- **Applying a transaction is making its updates.** -/
theorem view_applyTx (u : UtxoSet) (tx : Transaction) :
    (u.applyTx tx).view = tx.updates.foldl View.act u.view := by
  rw [applyTx, view_createOutputs, view_foldl_spend, Transaction.updates, List.foldl_append,
    Transaction.created]

end UtxoSet

/-! ### Transactions in any order -/

/-- Two transactions touch no common outpoint: their txids differ, they share no input,
and neither lists an output of the other. -/
structure Unrelated (tx tx' : Transaction) : Prop where
  txid : tx.txid ≠ tx'.txid
  inputs : ∀ op ∈ tx.inputs, op ∉ tx'.inputs
  left : ∀ op ∈ tx.inputs, op ∉ effects.names tx'
  right : ∀ op ∈ tx'.inputs, op ∉ effects.names tx

instance (tx tx' : Transaction) : Decidable (Unrelated tx tx') :=
  decidable_of_iff (tx.txid ≠ tx'.txid ∧ (∀ op ∈ tx.inputs, op ∉ tx'.inputs) ∧
      (∀ op ∈ tx.inputs, op ∉ effects.names tx') ∧ ∀ op ∈ tx'.inputs, op ∉ effects.names tx)
    ⟨fun h => ⟨h.1, h.2.1, h.2.2.1, h.2.2.2⟩, fun h => ⟨h.txid, h.inputs, h.left, h.right⟩⟩

/-- The outpoint of an update of a transaction is one of its inputs or of its outputs. -/
theorem outpoint_of_mem_updates {tx : Transaction} {a : Update} (h : a ∈ tx.updates) :
    a.outpoint ∈ tx.inputs ∨ a.outpoint ∈ effects.names tx := by
  rw [Transaction.updates, List.mem_append, List.mem_map, List.mem_map] at h
  rcases h with ⟨op, hop, rfl⟩ | ⟨e, he, rfl⟩
  · exact Or.inl hop
  · exact Or.inr (List.mem_map_of_mem he)

/-- Unrelated transactions update different outpoints. -/
theorem Unrelated.outpoint_ne {tx tx' : Transaction} (h : Unrelated tx tx') {a b : Update}
    (ha : a ∈ tx.updates) (hb : b ∈ tx'.updates) : a.outpoint ≠ b.outpoint := by
  intro heq
  have hb' := outpoint_of_mem_updates hb
  rw [← heq] at hb'
  rcases outpoint_of_mem_updates ha with hin | hname
  · rcases hb' with hin' | hname'
    · exact h.inputs _ hin hin'
    · exact h.left _ hin hname'
  · rcases hb' with hin' | hname'
    · exact h.right _ hin' hname
    · exact h.txid ((txid_of_mem_names hname).symm.trans (txid_of_mem_names hname'))

/-- `apply_tx` as a step on views, which has nothing to answer. -/
def viewStep (tx : Transaction) (v : View) : View × Unit := (tx.updates.foldl View.act v, ())

theorem Unrelated.independent {tx tx' : Transaction} (h : Unrelated tx tx') :
    Independence.Independent viewStep tx tx' where
  left _ := rfl
  right _ := rfl
  comm := Independence.foldl_comm fun _ ha _ hb v => View.act_comm (h.outpoint_ne ha hb) v

/-- A list of transactions, as steps on views. -/
theorem view_foldl_applyTx (u : UtxoSet) (txs : List Transaction) :
    (txs.foldl UtxoSet.applyTx u).view = Independence.final viewStep txs u.view := by
  induction txs generalizing u with
  | nil => rfl
  | cons tx txs ih =>
    rw [List.foldl_cons, ih, UtxoSet.view_applyTx]
    rfl

/-- Sets with one view hold the same outputs, and list the same outpoints in some order. -/
theorem perm_of_view_eq {u u' : UtxoSet} (h : u.view = u'.view) :
    u.utxo = u'.utxo ∧ ∀ addr : Address,
      (addr ∈ u.addressUtxo ↔ addr ∈ u'.addressUtxo) ∧
        (u.addressed addr).Perm (u'.addressed addr) := by
  refine ⟨congrArg View.utxo h, fun addr => ⟨?_, ?_⟩⟩
  · have hsome := congrArg (fun v => (v.listed addr).isSome) h
    unfold UtxoSet.view at hsome
    simp only [Option.isSome_map] at hsome
    rw [Std.ExtTreeMap.mem_iff_isSome_getElem?, Std.ExtTreeMap.mem_iff_isSome_getElem?, hsome]
  · rw [← Multiset.coe_eq_coe]
    have hlisted := congrArg (fun v => (v.listed addr).getD 0) h
    simpa only [UtxoSet.getD_listed] using hlisted

/-- **Unrelated transactions may be applied in any order.**  From any state, every order
ends with the same set, the same addresses, and the same outpoints for each address. -/
theorem applyTx_perm {txs order : List Transaction} (h : txs.Pairwise Unrelated)
    (horder : order.Perm txs) (u : UtxoSet) :
    (order.foldl UtxoSet.applyTx u).utxo = (txs.foldl UtxoSet.applyTx u).utxo ∧
    ∀ addr : Address,
      (addr ∈ (order.foldl UtxoSet.applyTx u).addressUtxo ↔
        addr ∈ (txs.foldl UtxoSet.applyTx u).addressUtxo) ∧
      ((order.foldl UtxoSet.applyTx u).addressed addr).Perm
        ((txs.foldl UtxoSet.applyTx u).addressed addr) := by
  apply perm_of_view_eq
  rw [view_foldl_applyTx, view_foldl_applyTx]
  exact (Independence.final_perm (h.imp Unrelated.independent) horder.symm u.view).symm

namespace Sample

/-- The set with the first two coinbases of the sample run. -/
def coinbases : UtxoSet := UtxoSet.replay [block₁.coinbase sodium, block₂.coinbase sodium]

/-- The two payments, which both pay the recipient. -/
def payments : List Transaction := [(pay₁.signed sodium).tx, (pay₂.signed sodium).tx]

end Sample

/-- Both payments, in either order. -/
theorem applyTx_perm_payments :
    (Sample.payments.reverse.foldl UtxoSet.applyTx Sample.coinbases).utxo =
      (Sample.payments.foldl UtxoSet.applyTx Sample.coinbases).utxo ∧
    ∀ addr : Address,
      (addr ∈ (Sample.payments.reverse.foldl UtxoSet.applyTx Sample.coinbases).addressUtxo ↔
        addr ∈ (Sample.payments.foldl UtxoSet.applyTx Sample.coinbases).addressUtxo) ∧
      ((Sample.payments.reverse.foldl UtxoSet.applyTx Sample.coinbases).addressed addr).Perm
        ((Sample.payments.foldl UtxoSet.applyTx Sample.coinbases).addressed addr) :=
  applyTx_perm (by decide +kernel) (List.reverse_perm _) Sample.coinbases

end Axis
