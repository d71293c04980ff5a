import Axis.Net

/-!
# The mempool

What `add_tx` checks, in exact arithmetic, and what it keeps: the pool, the
outpoints the pool spends, and the pool database, which repeats the pool.

## Main definitions

* `Valid` — the conditions under which `add_tx` accepts.
* `PoolGood` — what is true of every pool: its transactions are constructed, are
  stored under their txids, and share no input.
* `PoolInv` — the three structures agree.

## Main results

* `checkTx_eq_ok_iff` — **`add_tx` accepts exactly the valid transactions.**
* `PoolInv.admitTx` — the three structures still agree after a transaction was
  accepted.
* `SpentBy.eraseAll`, `StoredPool.eraseAll`, `PoolGood.eraseAll` — and after
  transactions of the pool were mined, however often each is listed.
-/

namespace Axis

open Positional PrefixCode

/-! ### Sums of amounts -/

/-- The amount of an output, as an unbounded number. -/
def TxOutput.value (out : TxOutput) : ℕ := out.amount.toNat

/-- The exact sum of the outputs of a transaction. -/
def Transaction.outputTotal (tx : Transaction) : ℕ := (tx.outputs.map TxOutput.value).sum

/-- The exact sum of what the inputs hold, counted once for every position of the
input list. -/
def Transaction.inputTotal (utxo : FiniteMap OutPoint TxOutput) (tx : Transaction) : ℕ :=
  (tx.inputs.map (FiniteMap.amountAt TxOutput.value utxo)).sum

namespace Chain

/-- The overflow test of both loops. -/
theorem not_overflow_iff (sum amount : UInt64) :
    ¬ sum > maxU64 - amount ↔ sum.toNat + amount.toNat < 2 ^ 64 := by
  have hamount := amount.toNat_lt
  have hle : amount ≤ maxU64 := by
    rw [UInt64.le_iff_toNat_le, maxU64]
    simp only [UInt64.reduceToNat]
    omega
  rw [gt_iff_lt, UInt64.lt_iff_toNat_lt, UInt64.toNat_sub_of_le _ _ hle, maxU64]
  simp only [UInt64.reduceToNat]
  omega

theorem toNat_add_of_lt {sum amount : UInt64} (h : sum.toNat + amount.toNat < 2 ^ 64) :
    (sum + amount).toNat = sum.toNat + amount.toNat := by
  rw [UInt64.toNat_add, Nat.mod_eq_of_lt h]

/-- **A loop that adds up amounts without overflow** computes their exact sum, and ends
early at an element that fails a check. -/
theorem foldlM_eq_ok_iff {α ε : Type} {f : UInt64 → α → Except ε UInt64} {P : α → Prop}
    {amount : α → ℕ}
    (hround : ∀ acc a v, f acc a = .ok v ↔ P a ∧ v.toNat = acc.toNat + amount a) (l : List α)
    (acc : UInt64) {v : UInt64} :
    l.foldlM f acc = .ok v ↔ (∀ a ∈ l, P a) ∧ v.toNat = acc.toNat + (l.map amount).sum := by
  induction l generalizing acc with
  | nil =>
    rw [List.foldlM_nil, List.map_nil, List.sum_nil, Nat.add_zero]
    constructor
    · intro h
      cases h
      exact ⟨by simp, rfl⟩
    · intro h
      rw [UInt64.toNat_inj.mp h.2]
      rfl
  | cons a l ih =>
    rw [List.foldlM_cons, List.map_cons, List.sum_cons, List.forall_mem_cons]
    constructor
    · intro h
      cases hfirst : f acc a with
      | error e =>
        rw [hfirst] at h
        cases h
      | ok acc' =>
        rw [hfirst] at h
        obtain ⟨ha, hsum⟩ := (hround acc a acc').mp hfirst
        obtain ⟨hl, hrest⟩ := (ih acc').mp h
        exact ⟨⟨ha, hl⟩, by omega⟩
    · intro h
      obtain ⟨⟨ha, hl⟩, hsum⟩ := h
      -- the partial sum fits, because the whole sum does
      have hlt := v.toNat_lt
      have hpartial : (UInt64.ofNat (acc.toNat + amount a)).toNat = acc.toNat + amount a := by
        rw [UInt64.toNat_ofNat', Nat.mod_eq_of_lt (by omega)]
      rw [(hround acc a _).mpr ⟨ha, hpartial⟩]
      exact (ih _).mpr ⟨hl, by omega⟩

/-- The overflow test and the addition of a round. -/
theorem addChecked_eq_ok_iff {sum amount v : UInt64} :
    (if sum > maxU64 - amount then .error .invalidPayload else .ok (sum + amount) :
      Except TxError UInt64) = .ok v ↔ v.toNat = sum.toNat + amount.toNat := by
  by_cases hfit : sum > maxU64 - amount
  · rw [if_pos hfit]
    constructor
    · intro h
      cases h
    · intro h
      have hlt := v.toNat_lt
      exact absurd hfit ((not_overflow_iff _ _).mpr (by omega))
  · rw [if_neg hfit]
    have hsum := toNat_add_of_lt ((not_overflow_iff _ _).mp hfit)
    constructor
    · intro h
      cases h
      exact hsum
    · intro h
      rw [UInt64.toNat_inj.mp (h.trans hsum.symm)]

theorem sumOutputs_eq_ok_iff {outputs : List TxOutput} {v : UInt64} :
    sumOutputs outputs = .ok v ↔ (∀ out ∈ outputs, out.amount ≠ 0) ∧
      v.toNat = (outputs.map TxOutput.value).sum := by
  have hround : ∀ (acc : UInt64) (out : TxOutput) (v : UInt64),
      addOutput acc out = .ok v ↔ out.amount ≠ 0 ∧ v.toNat = acc.toNat + out.value := by
    intro acc out v
    unfold addOutput
    by_cases hzero : out.amount = 0
    · simp [hzero]
    · rw [if_neg hzero, addChecked_eq_ok_iff]
      simp [hzero, TxOutput.value]
  have hloop := foldlM_eq_ok_iff hround outputs 0 (v := v)
  rwa [UInt64.toNat_zero, Nat.zero_add] at hloop

theorem sumInputs_eq_ok_iff {utxo : FiniteMap OutPoint TxOutput} {sender : Address}
    {inputs : List OutPoint} {v : UInt64} :
    sumInputs utxo sender inputs = .ok v ↔
      (∀ op ∈ inputs, ∃ out, utxo[op]? = some out ∧ out.recipient = sender) ∧
        v.toNat = (inputs.map (FiniteMap.amountAt TxOutput.value utxo)).sum := by
  have hround : ∀ (acc : UInt64) (op : OutPoint) (v : UInt64),
      addInput utxo sender acc op = .ok v ↔
        (∃ out, utxo[op]? = some out ∧ out.recipient = sender) ∧
          v.toNat = acc.toNat + FiniteMap.amountAt TxOutput.value utxo op := by
    intro acc op v
    unfold addInput
    cases hget : utxo[op]? with
    | none => simp
    | some out =>
      rw [FiniteMap.amountAt_of_getElem? TxOutput.value hget]
      by_cases howner : out.recipient = sender
      · simp only [howner, ne_eq, not_true_eq_false, if_false, addChecked_eq_ok_iff]
        simp [howner, TxOutput.value]
      · simp [howner]
  have hloop := foldlM_eq_ok_iff hround inputs 0 (v := v)
  rwa [UInt64.toNat_zero, Nat.zero_add] at hloop

/-! ### The checks of `add_tx` -/

/-- The conditions under which `add_tx` accepts a signed transaction. -/
structure Valid (S : Sodium) (st : SignedTransaction) (c : Chain) : Prop where
  outputs_ne : st.tx.outputs ≠ []
  positive : ∀ out ∈ st.tx.outputs, out.amount ≠ 0
  inputs_ne : st.tx.inputs ≠ []
  owned : ∀ op ∈ st.tx.inputs, ∃ out, c.utxo[op]? = some out ∧
    out.recipient = deriveAddress S st.pubkey
  covered : st.tx.outputTotal ≤ st.tx.inputTotal c.utxo
  bounded : st.tx.inputTotal c.utxo < 2 ^ 64
  signed : verifySig S st.pubkey st.tx.txid st.sig = true
  unknown : st.tx.txid ∉ c.pool
  unspent : ∀ op ∈ st.tx.inputs, op ∉ c.poolSpent

/-- A list of positive amounts has sum zero only when it is empty. -/
theorem sum_value_eq_zero_iff {outputs : List TxOutput} (h : ∀ out ∈ outputs, out.amount ≠ 0) :
    (outputs.map TxOutput.value).sum = 0 ↔ outputs = [] := by
  constructor
  · intro hsum
    cases outputs with
    | nil => rfl
    | cons out outputs =>
      rw [List.map_cons, List.sum_cons, Nat.add_eq_zero_iff] at hsum
      have hzero : out.amount.toNat = (0 : UInt64).toNat := hsum.1
      exact absurd (UInt64.toNat_inj.mp hzero) (h out List.mem_cons_self)
  · intro heq
    obtain rfl := heq
    rfl

/-- What passes the checks is valid. -/
theorem valid_of_checkTx {S : Sodium} {st : SignedTransaction} {c : Chain}
    (hok : c.checkTx S st = .ok ()) : Valid S st c := by
  rw [checkTx] at hok
  cases hout : sumOutputs st.tx.outputs with
  | error e =>
    rw [hout] at hok
    cases hok
  | ok sumOut =>
    obtain ⟨hpos, hsumOut⟩ := sumOutputs_eq_ok_iff.mp hout
    rw [hout] at hok
    change (if _ then _ else _) = _ at hok
    split at hok
    · cases hok
    next hzero =>
    split at hok
    · cases hok
    next hempty =>
    -- the second loop runs only after the checks on the outputs
    cases hin : sumInputs c.utxo (deriveAddress S st.pubkey) st.tx.inputs with
    | error e =>
      rw [hin] at hok
      cases hok
    | ok sumIn =>
      obtain ⟨howned, hsumIn⟩ := sumInputs_eq_ok_iff.mp hin
      rw [hin] at hok
      change (if _ then _ else _) = _ at hok
      split at hok
      · cases hok
      next hcover =>
      split at hok
      · cases hok
      next hsig =>
      split at hok
      · cases hok
      next hdup =>
      split at hok
      · cases hok
      next hspent =>
      refine ⟨?_, hpos, ?_, howned, ?_, ?_, ?_, hdup, ?_⟩
      · intro hnil
        rw [hnil] at hsumOut
        exact hzero (UInt64.toNat_inj.mp hsumOut)
      · exact fun hnil => hempty (List.isEmpty_iff.mpr hnil)
      · rw [UInt64.lt_iff_toNat_lt, hsumIn, hsumOut] at hcover
        exact not_lt.mp hcover
      · rw [Transaction.inputTotal, ← hsumIn]
        exact sumIn.toNat_lt
      · simpa using hsig
      · simpa using hspent

/-- The sum of the outputs of a valid transaction fits, because its inputs bound it. -/
theorem Valid.exists_sumOutputs {S : Sodium} {st : SignedTransaction} {c : Chain}
    (hv : Valid S st c) :
    ∃ sumOut, sumOutputs st.tx.outputs = .ok sumOut ∧ sumOut.toNat = st.tx.outputTotal := by
  have hlt : st.tx.outputTotal < 2 ^ 64 := lt_of_le_of_lt hv.covered hv.bounded
  have hnat : (UInt64.ofNat st.tx.outputTotal).toNat = st.tx.outputTotal := by
    rw [UInt64.toNat_ofNat', Nat.mod_eq_of_lt hlt]
  exact ⟨_, sumOutputs_eq_ok_iff.mpr ⟨hv.positive, hnat⟩, hnat⟩

theorem Valid.exists_sumInputs {S : Sodium} {st : SignedTransaction} {c : Chain}
    (hv : Valid S st c) :
    ∃ sumIn, sumInputs c.utxo (deriveAddress S st.pubkey) st.tx.inputs = .ok sumIn ∧
      sumIn.toNat = st.tx.inputTotal c.utxo := by
  have hnat : (UInt64.ofNat (st.tx.inputTotal c.utxo)).toNat = st.tx.inputTotal c.utxo := by
    rw [UInt64.toNat_ofNat', Nat.mod_eq_of_lt hv.bounded]
  exact ⟨_, sumInputs_eq_ok_iff.mpr ⟨hv.owned, hnat⟩, hnat⟩

/-- What is left of the checks of a valid transaction in a state with the same outputs:
the two that read the pool. -/
theorem Valid.checkTx_pool {S : Sodium} {st : SignedTransaction} {c c' : Chain}
    (hv : Valid S st c) (hutxo : c'.utxo = c.utxo) :
    c'.checkTx S st =
      if st.tx.txid ∈ c'.pool then .error .duplicate
      else if st.tx.inputs.any (fun op => op ∈ c'.poolSpent) then .error .inputSpent
      else .ok () := by
  obtain ⟨sumOut, hout, hsumOut⟩ := hv.exists_sumOutputs
  obtain ⟨sumIn, hin, hsumIn⟩ := hv.exists_sumInputs
  have hzero : ¬ sumOut = 0 := by
    intro h
    rw [h] at hsumOut
    exact hv.outputs_ne ((sum_value_eq_zero_iff hv.positive).mp hsumOut.symm)
  have hempty : ¬ st.tx.inputs.isEmpty = true := by simpa using hv.inputs_ne
  have hcover : ¬ sumIn < sumOut := by
    rw [UInt64.lt_iff_toNat_lt, hsumIn, hsumOut]
    exact not_lt.mpr hv.covered
  have hsig : ¬ (!verifySig S st.pubkey st.tx.txid st.sig) = true := by simp [hv.signed]
  rw [checkTx, hout]
  show (if _ then _ else _) = _
  rw [if_neg hzero, if_neg hempty, hutxo, hin]
  show (if _ then _ else _) = _
  rw [if_neg hcover, if_neg hsig]

/-- What is valid passes the checks. -/
theorem Valid.checkTx_eq {S : Sodium} {st : SignedTransaction} {c : Chain} (hv : Valid S st c) :
    c.checkTx S st = .ok () := by
  have hspent : ¬ (st.tx.inputs.any fun op => op ∈ c.poolSpent) = true := by
    simpa using hv.unspent
  rw [hv.checkTx_pool rfl, if_neg hv.unknown, if_neg hspent]

/-- **`add_tx` accepts exactly the valid transactions.** -/
theorem checkTx_eq_ok_iff {S : Sodium} {st : SignedTransaction} {c : Chain} :
    c.checkTx S st = .ok () ↔ Valid S st c := ⟨valid_of_checkTx, Valid.checkTx_eq⟩

/-- What `add_tx` does when the write succeeds. -/
theorem addTx_ok {S : Sodium} {st : SignedTransaction} {c : Chain} (h : Valid S st c) :
    c.addTx S st .ok = c.admitTx st.tx .ok := by
  rw [addTx, checkTx_eq_ok_iff.mpr h]

end Chain

/-! ### Constructed transactions -/

/-- A transaction whose txid is the hash of its fields, and whose size fits the
32 bits it is stored with. -/
structure Transaction.Constructed (S : Sodium) (tx : Transaction) : Prop where
  txid : tx.txid = blake2b S (Transaction.preimage tx.inputs tx.outputs tx.timestamp)
  size : tx.serialize.length < 2 ^ 32

theorem Transaction.Constructed.sized {S : Sodium} {tx : Transaction} (h : tx.Constructed S) :
    tx.Sized := Block.sized_of_length_serialize h.size

theorem Transaction.Constructed.outputs_lt {S : Sodium} {tx : Transaction}
    (h : tx.Constructed S) : tx.outputs.length < 2 ^ 32 := h.sized.2

/-! ### Keys of the pool database -/

theorem hexDigit_injOn {a b : ℕ} (ha : a < 16) (hb : b < 16) (h : hexDigit a = hexDigit b) :
    a = b := by
  have hnat := congrArg UInt8.toNat h
  rw [hexDigit, hexDigit] at hnat
  split at hnat <;> split at hnat <;>
    · rw [UInt8.toNat_ofNat', UInt8.toNat_ofNat'] at hnat
      omega

theorem hexKey_injective : Function.Injective hexKey := by
  intro a b h
  apply U8Array.ext
  rw [hexKey, hexKey] at h
  have hlen : a.data.length = b.data.length := by rw [a.size_data, b.size_data]
  -- two digits for each byte
  generalize a.data = l at h hlen
  generalize b.data = l' at h hlen
  induction l generalizing l' with
  | nil => exact (List.length_eq_zero_iff.mp hlen.symm).symm
  | cons x l ih =>
    cases l' with
    | nil => cases hlen
    | cons y l' =>
      rw [List.flatMap_cons, List.flatMap_cons] at h
      obtain ⟨hxy, hrest⟩ := List.append_inj h rfl
      obtain ⟨hhi, hlo⟩ := List.cons.inj hxy
      have hx := x.toNat_lt
      have hy := y.toNat_lt
      have hdiv := hexDigit_injOn (by omega) (by omega) hhi
      have hmod := hexDigit_injOn (by omega) (by omega) (List.cons.inj hlo).1
      have hnat : x.toNat = y.toNat := by omega
      rw [UInt8.toNat_inj.mp hnat, ih l' hrest (Nat.succ.inj hlen)]

/-! ### Invariants -/

/-- What is true of every pool. -/
structure PoolGood (S : Sodium) (pool : FiniteMap Hash Transaction) : Prop where
  key : ∀ (k : Hash) (tx : Transaction), pool[k]? = some tx → tx.txid = k
  constructed : ∀ (k : Hash) (tx : Transaction), pool[k]? = some tx → tx.Constructed S
  inputs_ne : ∀ (k : Hash) (tx : Transaction), pool[k]? = some tx → tx.inputs ≠ []
  outputs_ne : ∀ (k : Hash) (tx : Transaction), pool[k]? = some tx → tx.outputs ≠ []
  disjoint : ∀ (k : Hash) (tx : Transaction) (k' : Hash) (tx' : Transaction) (op : OutPoint),
    pool[k]? = some tx → pool[k']? = some tx' → op ∈ tx.inputs → op ∈ tx'.inputs → k = k'

/-- `pool_spent_` maps exactly the inputs of the pool's transactions, each to
itself. -/
def SpentBy (pool : FiniteMap Hash Transaction) (poolSpent : FiniteMap OutPoint OutPoint) : Prop :=
  ∀ op op' : OutPoint, poolSpent[op]? = some op' ↔
    op' = op ∧ ∃ (k : Hash) (tx : Transaction), pool[k]? = some tx ∧ op ∈ tx.inputs

/-- The pool database holds exactly the serialized transactions of the pool. -/
def StoredPool (pool : FiniteMap Hash Transaction) (poolDb : Db) : Prop :=
  ∀ key raw : Bytes, poolDb[key]? = some raw ↔
    ∃ (k : Hash) (tx : Transaction), pool[k]? = some tx ∧ key = hexKey k ∧ raw = tx.serialize

/-- The pool, the outpoints it spends and its database agree. -/
structure PoolInv (S : Sodium) (c : Chain) : Prop where
  good : PoolGood S c.pool
  spent : SpentBy c.pool c.poolSpent
  stored : StoredPool c.pool c.poolDb

variable {S : Sodium}

/-- Fewer transactions are a pool too. -/
theorem PoolGood.mono {pool pool' : FiniteMap Hash Transaction} (h : PoolGood S pool)
    (hsub : ∀ (k : Hash) (tx : Transaction), pool'[k]? = some tx → pool[k]? = some tx) :
    PoolGood S pool' where
  key k tx hk := h.key k tx (hsub k tx hk)
  constructed k tx hk := h.constructed k tx (hsub k tx hk)
  inputs_ne k tx hk := h.inputs_ne k tx (hsub k tx hk)
  outputs_ne k tx hk := h.outputs_ne k tx (hsub k tx hk)
  disjoint k tx k' tx' op hk hk' := h.disjoint k tx k' tx' op (hsub k tx hk) (hsub k' tx' hk')

theorem PoolGood.empty : PoolGood S ∅ := by
  have hnone : ∀ k : Hash, (∅ : FiniteMap Hash Transaction)[k]? = none :=
    fun _ => Std.ExtTreeMap.getElem?_empty
  constructor <;> intro k tx <;> simp only [hnone] <;> intros <;> contradiction

/-- What `pool_spent_` holds after the inputs of a transaction were recorded. -/
theorem getElem?_insertAll_self (m : FiniteMap OutPoint OutPoint) (ops : List OutPoint)
    (op : OutPoint) :
    (FiniteMap.insertAll m (ops.map fun i => (i, i)))[op]? =
      if op ∈ ops then some op else m[op]? := by
  have hkeys : (ops.map fun i => (i, i)).map Prod.fst = ops := by
    rw [List.map_map]
    exact List.map_id ops
  by_cases hmem : op ∈ ops
  · obtain ⟨v, hv, hin⟩ := FiniteMap.exists_getElem?_insertAll (hkeys.symm ▸ hmem) m
    obtain ⟨i, -, heq⟩ := List.mem_map.mp hin
    obtain ⟨rfl, rfl⟩ := Prod.mk.inj heq
    rw [if_pos hmem, hv]
  · rw [if_neg hmem, FiniteMap.getElem?_insertAll_of_notMem (hkeys.symm ▸ hmem)]

/-- `pool_spent_` gains the inputs of the transaction. -/
theorem mem_insertAll_self {m : FiniteMap OutPoint OutPoint} {ops : List OutPoint}
    {op : OutPoint} :
    op ∈ FiniteMap.insertAll m (ops.map fun i => (i, i)) ↔ op ∈ ops ∨ op ∈ m := by
  rw [FiniteMap.mem_iff_exists, FiniteMap.mem_iff_exists, getElem?_insertAll_self]
  by_cases hmem : op ∈ ops <;> simp [hmem]

/-- The outpoint of a valid transaction is spent by no transaction of the pool. -/
theorem SpentBy.not_mem_inputs {pool : FiniteMap Hash Transaction}
    {poolSpent : FiniteMap OutPoint OutPoint} (h : SpentBy pool poolSpent) {op : OutPoint}
    (hop : op ∉ poolSpent) {k : Hash} {tx : Transaction} (hk : pool[k]? = some tx) :
    op ∉ tx.inputs := by
  intro hmem
  exact hop ((FiniteMap.mem_iff_exists _ _).mpr ⟨op, (h op op).mpr ⟨rfl, k, tx, hk, hmem⟩⟩)

/-- What the pool holds after a transaction was admitted. -/
theorem getElem?_pool_admitTx {c : Chain} {t : Transaction} {k : Hash} {tx : Transaction}
    (h : (c.admitTx t .ok).1.pool[k]? = some tx) :
    t.txid = k ∧ t = tx ∨ c.pool[k]? = some tx := by
  change (c.pool.insert t.txid t)[k]? = some tx at h
  rw [FiniteMap.getElem?_insert_eq] at h
  split at h
  · next heq => exact Or.inl ⟨heq, Option.some.inj h⟩
  · exact Or.inr h

/-- A transaction of the pool outlasts the admission of a valid one. -/
theorem Chain.Valid.getElem?_pool {c : Chain} {st : SignedTransaction} (hv : Chain.Valid S st c)
    {k : Hash} {tx : Transaction} (h : c.pool[k]? = some tx) :
    (c.admitTx st.tx .ok).1.pool[k]? = some tx := by
  -- the admitted transaction is under a key of its own
  have hne : st.tx.txid ≠ k := by
    intro heq
    obtain rfl := heq
    exact hv.unknown ((FiniteMap.mem_iff_exists _ _).mpr ⟨tx, h⟩)
  show (c.pool.insert st.tx.txid st.tx)[k]? = some tx
  rw [FiniteMap.getElem?_insert_eq, if_neg hne, h]

theorem PoolGood.admitTx {c : Chain} (h : PoolGood S c.pool) (hspent : SpentBy c.pool c.poolSpent)
    {st : SignedTransaction} (hv : Chain.Valid S st c) (hc : st.tx.Constructed S) :
    PoolGood S (c.admitTx st.tx .ok).1.pool := by
  constructor
  · intro k tx hk
    rcases getElem?_pool_admitTx hk with ⟨rfl, rfl⟩ | hold
    · rfl
    · exact h.key k tx hold
  · intro k tx hk
    rcases getElem?_pool_admitTx hk with ⟨rfl, rfl⟩ | hold
    · exact hc
    · exact h.constructed k tx hold
  · intro k tx hk
    rcases getElem?_pool_admitTx hk with ⟨rfl, rfl⟩ | hold
    · exact hv.inputs_ne
    · exact h.inputs_ne k tx hold
  · intro k tx hk
    rcases getElem?_pool_admitTx hk with ⟨rfl, rfl⟩ | hold
    · exact hv.outputs_ne
    · exact h.outputs_ne k tx hold
  · intro k tx k' tx' op hk hk' hop hop'
    rcases getElem?_pool_admitTx hk with ⟨rfl, rfl⟩ | hold <;>
      rcases getElem?_pool_admitTx hk' with ⟨rfl, rfl⟩ | hold'
    · rfl
    · exact absurd hop' (hspent.not_mem_inputs (hv.unspent op hop) hold')
    · exact absurd hop (hspent.not_mem_inputs (hv.unspent op hop') hold)
    · exact h.disjoint k tx k' tx' op hold hold' hop hop'

theorem SpentBy.admitTx {c : Chain} (h : SpentBy c.pool c.poolSpent) {st : SignedTransaction}
    (hv : Chain.Valid S st c) :
    SpentBy (c.admitTx st.tx .ok).1.pool (c.admitTx st.tx .ok).1.poolSpent := by
  intro op op'
  show (FiniteMap.insertAll c.poolSpent (st.tx.inputs.map fun i => (i, i)))[op]? = some op' ↔
    op' = op ∧ ∃ (k : Hash) (tx : Transaction),
      (c.admitTx st.tx .ok).1.pool[k]? = some tx ∧ op ∈ tx.inputs
  rw [getElem?_insertAll_self]
  split
  · next hmem =>
    constructor
    · intro heq
      refine ⟨(Option.some.inj heq).symm, st.tx.txid, st.tx, ?_, hmem⟩
      show (c.pool.insert st.tx.txid st.tx)[st.tx.txid]? = _
      rw [FiniteMap.getElem?_insert_eq, if_pos rfl]
    · intro hex
      obtain ⟨rfl, -⟩ := hex
      rfl
  · next hmem =>
    rw [h op op']
    constructor
    · intro hex
      obtain ⟨rfl, k, tx, hk, hop⟩ := hex
      exact ⟨rfl, k, tx, hv.getElem?_pool hk, hop⟩
    · intro hex
      obtain ⟨rfl, k, tx, hk, hop⟩ := hex
      rcases getElem?_pool_admitTx hk with ⟨-, rfl⟩ | hold
      · exact absurd hop hmem
      · exact ⟨rfl, k, tx, hold, hop⟩

/-- **The step of `add_tx`**: the three structures agree after it. -/
theorem PoolInv.admitTx {c : Chain} (h : PoolInv S c) {st : SignedTransaction}
    (hv : Chain.Valid S st c) (hc : st.tx.Constructed S) :
    PoolInv S (c.admitTx st.tx .ok).1 where
  good := h.good.admitTx h.spent hv hc
  spent := h.spent.admitTx hv
  stored := by
    intro key raw
    show (c.poolDb.insert (hexKey st.tx.txid) st.tx.serialize)[key]? = some raw ↔
      ∃ (k : Hash) (tx : Transaction),
        (c.admitTx st.tx .ok).1.pool[k]? = some tx ∧ key = hexKey k ∧ raw = tx.serialize
    rw [FiniteMap.getElem?_insert_eq]
    split
    · next heq =>
      subst heq
      constructor
      · intro hraw
        refine ⟨st.tx.txid, st.tx, ?_, rfl, (Option.some.inj hraw).symm⟩
        show (c.pool.insert st.tx.txid st.tx)[st.tx.txid]? = _
        rw [FiniteMap.getElem?_insert_eq, if_pos rfl]
      · intro hex
        obtain ⟨k, tx, hk, hkey, rfl⟩ := hex
        rcases getElem?_pool_admitTx hk with ⟨-, rfl⟩ | hold
        · rfl
        · rw [← hexKey_injective hkey] at hold
          exact absurd ((FiniteMap.mem_iff_exists _ _).mpr ⟨tx, hold⟩) hv.unknown
    · next hne =>
      rw [h.stored key raw]
      constructor
      · intro hex
        obtain ⟨k, tx, hk, rfl, rfl⟩ := hex
        exact ⟨k, tx, hv.getElem?_pool hk, rfl, rfl⟩
      · intro hex
        obtain ⟨k, tx, hk, rfl, rfl⟩ := hex
        rcases getElem?_pool_admitTx hk with ⟨rfl, -⟩ | hold
        · exact absurd rfl hne
        · exact ⟨k, tx, hold, rfl, rfl⟩

/-! ### Transactions that leave the pool -/

/-- The outpoints of mined transactions are erased from `pool_spent_`, and only
those of the transactions that stay are left. -/
theorem SpentBy.eraseAll {pool : FiniteMap Hash Transaction}
    {poolSpent : FiniteMap OutPoint OutPoint} (hgood : PoolGood S pool)
    (h : SpentBy pool poolSpent) {refs : List Transaction}
    (hrefs : ∀ tx ∈ refs, pool[tx.txid]? = some tx) :
    SpentBy (FiniteMap.eraseAll pool (refs.map Transaction.txid))
      (FiniteMap.eraseAll poolSpent (refs.flatMap Transaction.inputs)) := by
  intro op op'
  rw [FiniteMap.getElem?_eraseAll]
  split
  · next hmem =>
    -- an outpoint of a mined transaction is an input of no other one
    obtain ⟨t, ht, hop⟩ := List.mem_flatMap.mp hmem
    simp only [reduceCtorEq, false_iff, not_and, not_exists]
    intro _ k tx hk hop'
    rw [FiniteMap.getElem?_eraseAll] at hk
    split at hk
    · cases hk
    · next hnot =>
      have hkey := hgood.disjoint k tx t.txid t op hk (hrefs t ht) hop' hop
      exact hnot (hkey ▸ List.mem_map_of_mem ht)
  · next hnot =>
    rw [h op op']
    refine and_congr_right fun _ => ?_
    constructor
    · intro hex
      obtain ⟨k, tx, hk, hop⟩ := hex
      refine ⟨k, tx, ?_, hop⟩
      rw [FiniteMap.getElem?_eraseAll, if_neg, hk]
      intro hmem
      obtain ⟨t, ht, rfl⟩ := List.mem_map.mp hmem
      rw [hrefs t ht] at hk
      rw [← Option.some.inj hk] at hop
      exact hnot (List.mem_flatMap.mpr ⟨t, ht, hop⟩)
    · intro hex
      obtain ⟨k, tx, hk, hop⟩ := hex
      rw [FiniteMap.getElem?_eraseAll] at hk
      split at hk
      · cases hk
      · exact ⟨k, tx, hk, hop⟩

theorem StoredPool.eraseAll {pool : FiniteMap Hash Transaction} {poolDb : Db}
    (h : StoredPool pool poolDb) (txids : List Hash) :
    StoredPool (FiniteMap.eraseAll pool txids)
      (FiniteMap.eraseAll poolDb (txids.map hexKey)) := by
  intro key raw
  rw [FiniteMap.getElem?_eraseAll]
  split
  · next hmem =>
    obtain ⟨k', hk', rfl⟩ := List.mem_map.mp hmem
    simp only [reduceCtorEq, false_iff, not_exists]
    intro k tx hboth
    obtain ⟨hk, hkey, -⟩ := hboth
    rw [← hexKey_injective hkey, FiniteMap.getElem?_eraseAll, if_pos hk'] at hk
    cases hk
  · next hnot =>
    rw [h key raw]
    constructor
    · intro hex
      obtain ⟨k, tx, hk, rfl, rfl⟩ := hex
      refine ⟨k, tx, ?_, rfl, rfl⟩
      rw [FiniteMap.getElem?_eraseAll, if_neg, hk]
      exact fun hmem => hnot (List.mem_map_of_mem hmem)
    · intro hex
      obtain ⟨k, tx, hk, rfl, rfl⟩ := hex
      refine ⟨k, tx, ?_, rfl, rfl⟩
      rw [FiniteMap.getElem?_eraseAll] at hk
      split at hk
      · cases hk
      · exact hk

theorem PoolGood.eraseAll {pool : FiniteMap Hash Transaction} (h : PoolGood S pool)
    (txids : List Hash) : PoolGood S (FiniteMap.eraseAll pool txids) := by
  refine h.mono fun k tx hk => ?_
  rw [FiniteMap.getElem?_eraseAll] at hk
  split at hk
  · cases hk
  · exact hk

end Axis
