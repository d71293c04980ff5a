import Axis.Conservation

/-!
# The index by address

`address_utxo_` repeats the UTXO set: for each address it lists the outpoints paid to it,
in the order they were created.  Spending removes every copy of an outpoint from its list,
and creating appends one.  The list is exact as long as no output is created over one that
is there: the map then keeps one entry, and the list two.

## Main definitions

* `Chain.getUtxos` — what an owner lookup answers.
* `Chain.scanUtxos` — the same by a scan of the whole set.
* `UtxoSet.Indexed` — the index is exact.
* `overwritesNothing` — the condition under which it stays exact.

## Main results

* `UtxoSet.Indexed.applyTx` — **the step lemma**: applying a transaction keeps the index
  exact if it overwrites nothing.
* `getUtxos_perm_of_reachable` — **an owner lookup is a permutation of the scan** in every
  run whose blocks overwrite nothing.
-/

namespace Axis

variable {S : Sodium}

/-! ### Owner lookups -/

/-- One round of the loop of `get_utxos`, which throws when an outpoint of the list is not
in the set. -/
def Chain.lookupAmount (c : Chain) (op : OutPoint) : Option (OutPoint × UInt64) :=
  c.utxo[op]?.map fun out => (op, out.amount)

/-- What `get_utxos` appends to its argument, or `none` when it throws. -/
def Chain.getUtxos (addr : Address) (c : Chain) : Option (List (OutPoint × UInt64)) :=
  ((c.toUtxoSet.addressed addr).filter fun op => op ∉ c.poolSpent).mapM c.lookupAmount

/-- The scan of the whole set for the outputs of an address that the pool does not
spend. -/
def Chain.scanUtxos (addr : Address) (c : Chain) : List (OutPoint × UInt64) :=
  (c.utxo.toList.filter fun e => e.2.recipient = addr ∧ e.1 ∉ c.poolSpent).map
    fun e => (e.1, e.2.amount)

namespace UtxoSet

/-! ### Exact indices -/

/-- The index lists exactly the outpoints of each address, each of them once. -/
structure Indexed (u : UtxoSet) : Prop where
  nodup : ∀ addr : Address, (u.addressed addr).Nodup
  exact : ∀ (addr : Address) (op : OutPoint),
    op ∈ u.addressed addr ↔ ∃ out, u.utxo[op]? = some out ∧ out.recipient = addr

theorem indexed_empty : Indexed {} := by
  have hnone : ∀ addr : Address, addressed {} addr = [] := by
    intro addr
    show (∅ : FiniteMap Address (List OutPoint))[addr]?.getD [] = []
    rw [Std.ExtTreeMap.getElem?_empty]
    rfl
  constructor
  · intro addr
    rw [hnone]
    exact List.nodup_nil
  · intro addr op
    rw [hnone]
    show op ∈ [] ↔ ∃ out, (∅ : FiniteMap OutPoint TxOutput)[op]? = some out ∧ _
    simp

/-- Spending an outpoint removes it from the list of its owner. -/
theorem addressed_spend {u : UtxoSet} {op : OutPoint} {out : TxOutput}
    (h : u.utxo[op]? = some out) (addr : Address) :
    (u.spend op).addressed addr =
      if out.recipient = addr then (u.addressed addr).filter (· ≠ op) else u.addressed addr := by
  unfold spend addressed
  rw [h]
  dsimp only
  by_cases howner : out.recipient = addr
  · subst howner
    rw [if_pos rfl]
    split
    · -- the last outpoint of the address: its list is erased
      next hempty =>
      rw [FiniteMap.getElem?_erase_eq, if_pos rfl, List.isEmpty_iff.mp hempty]
      rfl
    · rw [FiniteMap.getElem?_insert_eq, if_pos rfl]
      rfl
  · rw [if_neg howner]
    split
    · rw [FiniteMap.getElem?_erase_eq, if_neg howner]
    · rw [FiniteMap.getElem?_insert_eq, if_neg howner]

/-- Creating an output appends it to the list of its owner. -/
theorem addressed_create (u : UtxoSet) (op : OutPoint) (out : TxOutput) (addr : Address) :
    (u.create op out).addressed addr =
      if out.recipient = addr then u.addressed addr ++ [op] else u.addressed addr := by
  unfold create addressed
  dsimp only
  rw [FiniteMap.getElem?_insert_eq]
  split
  · next howner =>
    rw [← howner]
    rfl
  · rfl

theorem Indexed.spend {u : UtxoSet} (h : Indexed u) (op : OutPoint) : Indexed (u.spend op) := by
  cases hget : u.utxo[op]? with
  | none =>
    have hsame : u.spend op = u := by
      rw [UtxoSet.spend, hget]
    rwa [hsame]
  | some out =>
    constructor
    · intro addr
      rw [addressed_spend hget]
      split
      · exact (h.nodup addr).filter _
      · exact h.nodup addr
    · intro addr op'
      rw [addressed_spend hget, utxo_spend, FiniteMap.getElem?_erase_eq]
      by_cases hop : op = op'
      · -- the outpoint is on the list of its owner only
        subst hop
        rw [if_pos rfl]
        simp only [reduceCtorEq, false_and, exists_false, iff_false]
        split
        · simp
        · next howner =>
          rw [h.exact addr op, hget]
          intro hex
          obtain ⟨out', hout, hrecipient⟩ := hex
          cases hout
          exact howner hrecipient
      · rw [if_neg hop, ← h.exact addr op']
        split
        · simp [Ne.symm hop]
        · rfl

/-- **The step of an output**: it must not be there yet. -/
theorem Indexed.create {u : UtxoSet} (h : Indexed u) {op : OutPoint} {out : TxOutput}
    (hnew : op ∉ u.utxo) : Indexed (u.create op out) := by
  have hnot : ∀ addr, op ∉ u.addressed addr := by
    intro addr hmem
    obtain ⟨out', hout', -⟩ := (h.exact addr op).mp hmem
    exact hnew ((FiniteMap.mem_iff_exists _ _).mpr ⟨out', hout'⟩)
  constructor
  · intro addr
    rw [addressed_create]
    split
    · exact List.nodup_append.mpr ⟨h.nodup addr, List.nodup_singleton _, by
        intro a ha b hb heq
        obtain rfl := heq
        rw [List.mem_singleton] at hb
        exact hnot addr (hb ▸ ha)⟩
    · exact h.nodup addr
  · intro addr op'
    have hutxo : (u.create op out).utxo[op']? = if op = op' then some out else u.utxo[op']? :=
      FiniteMap.getElem?_insert_eq _ _ _ _
    rw [addressed_create, hutxo]
    by_cases hop : op = op'
    · subst hop
      rw [if_pos rfl]
      simp only [Option.some.injEq, exists_eq_left']
      split
      · next howner => simp [howner]
      · next howner => simp [howner, hnot]
    · rw [if_neg hop, ← h.exact addr op']
      split
      · simp [Ne.symm hop]
      · rfl

/-- Outputs of one transaction do not overwrite each other. -/
theorem Indexed.createOutputs {u : UtxoSet} (h : Indexed u) {txid : Hash} {idx : UInt32}
    {outs : List TxOutput} (hnodup : ((outpointsFrom txid idx outs).map Prod.fst).Nodup)
    (hnew : ∀ op ∈ (outpointsFrom txid idx outs).map Prod.fst, op ∉ u.utxo) :
    Indexed (u.createOutputs txid idx outs) := by
  induction outs generalizing u idx with
  | nil => exact h
  | cons out outs ih =>
    rw [outpointsFrom, List.map_cons] at hnodup hnew
    rw [List.nodup_cons] at hnodup
    rw [List.forall_mem_cons] at hnew
    refine ih (h.create hnew.1) hnodup.2 fun op hop hmem => ?_
    obtain ⟨out', hout'⟩ := (FiniteMap.mem_iff_exists _ _).mp hmem
    change (u.utxo.insert _ out)[op]? = some out' at hout'
    rw [FiniteMap.getElem?_insert_eq] at hout'
    split at hout'
    · next heq => exact hnodup.1 (heq ▸ hop)
    · exact hnew.2 op hop ((FiniteMap.mem_iff_exists _ _).mpr ⟨out', hout'⟩)

theorem Indexed.foldl_spend {u : UtxoSet} (h : Indexed u) (ops : List OutPoint) :
    Indexed (ops.foldl UtxoSet.spend u) :=
  List.foldlRecOn ops UtxoSet.spend h fun _ hu op _ => hu.spend op

/-- **The step lemma**: a transaction that overwrites nothing. -/
theorem Indexed.applyTx {u : UtxoSet} (h : Indexed u) {tx : Transaction}
    (hsize : tx.outputs.length < 2 ^ 32)
    (hnew : ∀ op ∈ effects.names tx, op ∉ (tx.inputs.foldl UtxoSet.spend u).utxo) :
    Indexed (u.applyTx tx) :=
  (h.foldl_spend tx.inputs).createOutputs (nodup_names_of_sized hsize) hnew

end UtxoSet

/-! ### Batches that overwrite nothing -/

/-- No transaction of the list creates an output that is in the set at its turn. -/
def overwritesNothing : UtxoSet → List Transaction → Prop
  | _, [] => True
  | u, tx :: txs =>
    (∀ op ∈ effects.names tx, op ∉ (tx.inputs.foldl UtxoSet.spend u).utxo) ∧
      overwritesNothing (u.applyTx tx) txs

instance decidableOverwritesNothing : (u : UtxoSet) → (txs : List Transaction) →
    Decidable (overwritesNothing u txs)
  | _, [] => inferInstanceAs (Decidable True)
  | u, tx :: txs =>
    have := decidableOverwritesNothing (u.applyTx tx) txs
    inferInstanceAs (Decidable ((∀ op ∈ effects.names tx,
      op ∉ (tx.inputs.foldl UtxoSet.spend u).utxo) ∧ overwritesNothing (u.applyTx tx) txs))

/-- **The batch lemma.** -/
theorem UtxoSet.Indexed.foldl_applyTx {u : UtxoSet} (h : u.Indexed) {txs : List Transaction}
    (hsize : ∀ tx ∈ txs, tx.outputs.length < 2 ^ 32) (hnew : overwritesNothing u txs) :
    (txs.foldl UtxoSet.applyTx u).Indexed := by
  induction txs generalizing u with
  | nil => exact h
  | cons tx txs ih =>
    rw [List.forall_mem_cons] at hsize
    exact ih (h.applyTx hsize.1 hnew.1) hsize.2 hnew.2

/-- The checks of `on_create_block` that follow the lookup of the references. -/
def passesChecks (S : Sodium) (c : Chain) (sub : BlockSubmission) (refs : List Transaction) :
    Prop :=
  (sub.block S refs).header.merkleRoot = sub.wireMerkle ∧
    compare (sub.block S refs).hash c.target ≠ .gt ∧ sub.prevHash = c.tipHash

instance (c : Chain) (sub : BlockSubmission) (refs : List Transaction) :
    Decidable (passesChecks S c sub refs) :=
  inferInstanceAs (Decidable (_ ∧ _))

/-- The block of a submission is refused, or overwrites nothing. -/
def keepsOutputs (S : Sodium) (c : Chain) (sub : BlockSubmission) : Prop :=
  ∀ refs ∈ sub.resolve c.pool, passesChecks S c sub refs →
    overwritesNothing c.toUtxoSet (sub.coinbase S :: refs)

instance (c : Chain) (sub : BlockSubmission) : Decidable (keepsOutputs S c sub) :=
  inferInstanceAs (Decidable (∀ refs ∈ sub.resolve c.pool, _))

theorem Accepted.resolve {c : Chain} {sub : BlockSubmission} {refs : List Transaction}
    (ha : Accepted S c sub refs) : sub.resolve c.pool = some refs := by
  rw [BlockSubmission.resolve, ha.txids]
  exact resolve_map_txid ha.inPool

theorem Accepted.passesChecks {c : Chain} {sub : BlockSubmission} {refs : List Transaction}
    (ha : Accepted S c sub refs) : passesChecks S c sub refs := ⟨ha.merkle, ha.work, ha.parent⟩

theorem Accepted.overwritesNothing {c : Chain} {sub : BlockSubmission} {refs : List Transaction}
    (ha : Accepted S c sub refs) (h : keepsOutputs S c sub) :
    overwritesNothing c.toUtxoSet (sub.block S refs).transactions :=
  h refs ha.resolve ha.passesChecks

/-- **The index is exact** in every run whose blocks overwrite nothing. -/
theorem indexed_of_reachable {c : Chain} (h : Reachable S (guarded (keepsOutputs S)) c) :
    c.toUtxoSet.Indexed := by
  refine guarded_rule (I := fun c => c.toUtxoSet.Indexed) ?_ (fun c st _ hI _ => hI) ?_ h
  · have hsize : (genesisCoinbase S).outputs.length < 2 ^ 32 := (by norm_num : 1 < 2 ^ 32)
    refine UtxoSet.indexed_empty.applyTx hsize fun op _ hop => ?_
    exact Std.ExtTreeMap.not_mem_empty hop
  · intro c sub refs hbase _ hI hkeeps ha
    exact hI.foldl_applyTx (fun tx htx => (ha.constructed hbase.pool.good tx htx).outputs_lt)
      (ha.overwritesNothing hkeeps)

/-! ### Lookups and scans -/

/-- Looking up outpoints of the set lists them with their amounts. -/
theorem mapM_lookupAmount {c : Chain} {ops : List OutPoint} (h : ∀ op ∈ ops, op ∈ c.utxo) :
    ∃ l, ops.mapM c.lookupAmount = some l ∧ l.map Prod.fst = ops ∧
      ∀ e : OutPoint × UInt64, e ∈ l ↔
        e.1 ∈ ops ∧ ∃ out, c.utxo[e.1]? = some out ∧ out.amount = e.2 := by
  induction ops with
  | nil => exact ⟨[], rfl, rfl, by simp⟩
  | cons op ops ih =>
    rw [List.forall_mem_cons] at h
    obtain ⟨l, hl, hfst, hmem⟩ := ih h.2
    obtain ⟨out, hout⟩ := (FiniteMap.mem_iff_exists _ _).mp h.1
    have hop : c.lookupAmount op = some (op, out.amount) := by
      rw [Chain.lookupAmount, hout]
      rfl
    refine ⟨(op, out.amount) :: l, ?_, by rw [List.map_cons, hfst], ?_⟩
    · exact mapM_cons_eq_some.mpr ⟨_, l, hop, hl, rfl⟩
    · intro e
      obtain ⟨op', amount⟩ := e
      rw [List.mem_cons, List.mem_cons, hmem, Prod.mk.injEq]
      constructor
      · intro hcases
        rcases hcases with ⟨rfl, rfl⟩ | ⟨hin, hex⟩
        · exact ⟨Or.inl rfl, out, hout, rfl⟩
        · exact ⟨Or.inr hin, hex⟩
      · intro hboth
        obtain ⟨rfl | hin, out', hout', hamount⟩ := hboth
        · refine Or.inl ⟨rfl, ?_⟩
          change c.utxo[op']? = some out' at hout'
          rw [hout] at hout'
          rw [Option.some.inj hout']
          exact hamount.symm
        · exact Or.inr ⟨hin, out', hout', hamount⟩

/-- **An owner lookup is a permutation of the scan**, without repetitions, when the index
is exact. -/
theorem getUtxos_perm {c : Chain} (h : c.toUtxoSet.Indexed) (addr : Address) :
    ∃ l, c.getUtxos addr = some l ∧ l.Nodup ∧ l.Perm (c.scanUtxos addr) := by
  have hin : ∀ op ∈ (c.toUtxoSet.addressed addr).filter fun op => op ∉ c.poolSpent,
      op ∈ c.utxo := by
    intro op hop
    obtain ⟨out, hout, -⟩ := (h.exact addr op).mp (List.mem_filter.mp hop).1
    exact (FiniteMap.mem_iff_exists _ _).mpr ⟨out, hout⟩
  obtain ⟨l, hl, hfst, hmem⟩ := mapM_lookupAmount hin
  have hnodup : l.Nodup := by
    apply List.Nodup.of_map Prod.fst
    rw [hfst]
    exact (h.nodup addr).filter _
  have hscan : (c.scanUtxos addr).Nodup := by
    -- the keys of the set are distinct
    apply List.Nodup.of_map Prod.fst
    unfold Chain.scanUtxos
    rw [List.map_map]
    exact ((FiniteMap.nodup_keys_toList c.utxo).sublist (List.filter_sublist.map _))
  refine ⟨l, hl, hnodup, (List.perm_ext_iff_of_nodup hnodup hscan).mpr ?_⟩
  intro e
  obtain ⟨op, amount⟩ := e
  rw [hmem, List.mem_filter, h.exact, Chain.scanUtxos, List.mem_map]
  constructor
  · intro hex
    obtain ⟨⟨⟨out, hout, howner⟩, hspent⟩, out', hout', hamount⟩ := hex
    rw [hout] at hout'
    cases hout'
    refine ⟨(op, out), List.mem_filter.mpr ⟨(FiniteMap.mem_toList_iff _ _ _).mpr hout, ?_⟩, ?_⟩
    · exact decide_eq_true ⟨howner, of_decide_eq_true hspent⟩
    · exact Prod.ext rfl hamount
  · intro hex
    obtain ⟨⟨op', out⟩, he, heq⟩ := hex
    obtain ⟨rfl, rfl⟩ := Prod.mk.inj heq
    obtain ⟨hentry, hcond⟩ := List.mem_filter.mp he
    have hout := (FiniteMap.mem_toList_iff _ _ _).mp hentry
    obtain ⟨howner, hspent⟩ := of_decide_eq_true hcond
    exact ⟨⟨⟨out, hout, howner⟩, decide_eq_true hspent⟩, out, hout, rfl⟩

/-- **The address index refines the scan** in every run whose blocks overwrite no entry of
the UTXO set. -/
theorem getUtxos_perm_of_reachable {c : Chain} (h : Reachable S (guarded (keepsOutputs S)) c)
    (addr : Address) :
    ∃ l, c.getUtxos addr = some l ∧ l.Nodup ∧ l.Perm (c.scanUtxos addr) :=
  getUtxos_perm (indexed_of_reachable h) addr

/-- The recipient of both payments of the sample run owns two outputs. -/
theorem getUtxos_confirmed : ∃ c, run Sample.sodium Sample.confirmed = .ok c ∧
    (c.scanUtxos Sample.recipient).length = 2 ∧
    ∃ l, c.getUtxos Sample.recipient = some l ∧ l.Nodup ∧
      l.Perm (c.scanUtxos Sample.recipient) := by
  obtain ⟨c, hrun, hreach, hlen⟩ := exists_reachable (S := Sample.sodium)
    (guarded (keepsOutputs Sample.sodium)) Sample.confirmed
    (fun c => (c.scanUtxos Sample.recipient).length = 2) (by decide +kernel)
  exact ⟨c, hrun, hlen, getUtxos_perm_of_reachable hreach Sample.recipient⟩

/-- **A repeated reference is listed twice**: its outputs are created over themselves. -/
theorem getUtxos_repeated : ∃ c, run Sample.sodium Sample.repeated = .ok c ∧
    Reachable Sample.sodium anyOp c ∧ NoSharedTxid c ∧
    ¬ ∃ l, c.getUtxos Sample.recipient = some l ∧ l.Nodup ∧
      l.Perm (c.scanUtxos Sample.recipient) := by
  obtain ⟨c, hrun, hreach, hshare, hdup⟩ := exists_reachable_any (S := Sample.sodium)
    Sample.repeated (fun c => NoSharedTxid c ∧
      (c.getUtxos Sample.recipient).all fun l => ¬ l.Nodup) (by decide +kernel)
  refine ⟨c, hrun, hreach, hshare, ?_⟩
  intro hex
  obtain ⟨l, hl, hnodup, -⟩ := hex
  rw [hl] at hdup
  exact of_decide_eq_true hdup hnodup

end Axis
