import Axis.Index

/-!
# Sums of amounts

The balance of an address and the total of `dump_utxo` are added up in 64 bits, without the
overflow test that `add_tx` makes.  They are exact as long as the whole UTXO set is worth
less than `2 ^ 64`, and nothing bounds the reward a miner writes into a coinbase.

## Main definitions

* `Chain.balance`, `Chain.dumpTotal` — the two sums, as they are added up.
* `ExactSums` — the sums are exact.
* `boundedSupply` — the condition on a submitted block.

## Main results

* `getElem?_foldl_applyTx` — what a batch neither spends nor overwrites stays.
* `exactSums_of_reachable` — **sums of amounts do not wrap** in runs of such blocks.
-/

namespace Axis

variable {S : Sodium}

/-! ### Sums in 64 bits -/

/-- The balance the HTTP server answers for an address. -/
def Chain.balance (addr : Address) (c : Chain) : Option UInt64 :=
  (c.getUtxos addr).map fun utxos => utxos.foldl (fun balance e => balance + e.2) 0

/-- The total that `dump_utxo` prints.  It sorts the entries by the text of the txid and
then by the index, which is the order of the map. -/
def Chain.dumpTotal (c : Chain) : UInt64 :=
  c.utxo.toList.foldl (fun total e => total + e.2.amount) 0

/-- A sum in 64 bits is the exact sum modulo `2 ^ 64`. -/
theorem toNat_foldl_add {α : Type} (f : α → UInt64) (l : List α) (acc : UInt64) :
    (l.foldl (fun sum a => sum + f a) acc).toNat =
      (acc.toNat + (l.map fun a => (f a).toNat).sum) % 2 ^ 64 := by
  induction l generalizing acc with
  | nil =>
    have hlt := acc.toNat_lt
    rw [List.foldl_nil, List.map_nil, List.sum_nil, Nat.add_zero, Nat.mod_eq_of_lt hlt]
  | cons a l ih =>
    rw [List.foldl_cons, ih, List.map_cons, List.sum_cons, UInt64.toNat_add, Nat.mod_add_mod,
      Nat.add_assoc]

/-- A sum below `2 ^ 64` is exact. -/
theorem toNat_foldl_add_zero {α : Type} (f : α → UInt64) {l : List α}
    (h : (l.map fun a => (f a).toNat).sum < 2 ^ 64) :
    (l.foldl (fun sum a => sum + f a) 0).toNat = (l.map fun a => (f a).toNat).sum := by
  rw [toNat_foldl_add, UInt64.toNat_zero, Nat.zero_add, Nat.mod_eq_of_lt h]

/-! ### The value of the set -/

/-- The set is worth less than `2 ^ 64`, every balance is the exact sum of the amounts of
the lookup, and so is the printed total of the set. -/
structure ExactSums (c : Chain) : Prop where
  bounded : utxoTotal c < 2 ^ 64
  balance : ∀ addr : Address, ∃ utxos balance, c.getUtxos addr = some utxos ∧
    c.balance addr = some balance ∧ balance.toNat = (utxos.map fun e => e.2.toNat).sum
  total : c.dumpTotal.toNat = utxoTotal c

/-- An owner lookup is worth at most the whole set. -/
theorem sum_scanUtxos_le (c : Chain) (addr : Address) :
    ((c.scanUtxos addr).map fun e => e.2.toNat).sum ≤ utxoTotal c := by
  unfold Chain.scanUtxos utxoTotal FiniteMap.total
  rw [List.map_map]
  exact (List.filter_sublist.map _).sum_le_sum fun _ _ => Nat.zero_le _

/-- **Sums are exact** over a set worth less than `2 ^ 64` with an exact index. -/
theorem exactSums_of_bounded {c : Chain} (hindexed : c.toUtxoSet.Indexed)
    (hbounded : utxoTotal c < 2 ^ 64) : ExactSums c where
  bounded := hbounded
  balance := by
    intro addr
    obtain ⟨utxos, hlookup, -, hperm⟩ := getUtxos_perm hindexed addr
    refine ⟨utxos, _, hlookup, by rw [Chain.balance, hlookup]; rfl, ?_⟩
    refine toNat_foldl_add_zero (fun e : OutPoint × UInt64 => e.2) ?_
    calc (utxos.map fun e => e.2.toNat).sum
        = ((c.scanUtxos addr).map fun e => e.2.toNat).sum := (hperm.map _).sum_eq
      _ ≤ utxoTotal c := sum_scanUtxos_le c addr
      _ < 2 ^ 64 := hbounded
  total := toNat_foldl_add_zero (fun e : OutPoint × TxOutput => e.2.amount) hbounded

/-- What a batch neither spends nor overwrites stays. -/
theorem getElem?_foldl_applyTx {u : UtxoSet} {txs : List Transaction}
    (hsize : ∀ tx ∈ txs, tx.outputs.length < 2 ^ 32) (hnew : overwritesNothing u txs)
    {op : OutPoint} {out : TxOutput} (hout : u.utxo[op]? = some out)
    (hnot : op ∉ txs.flatMap Transaction.inputs) :
    (txs.foldl UtxoSet.applyTx u).utxo[op]? = some out := by
  induction txs generalizing u with
  | nil => exact hout
  | cons tx txs ih =>
    rw [List.forall_mem_cons] at hsize
    rw [List.flatMap_cons, List.mem_append, not_or] at hnot
    refine ih hsize.2 hnew.2 ?_ hnot.2
    refine (UtxoSet.getElem?_applyTx hsize.1).mpr (Or.inr ⟨hout, hnot.1, fun hname => ?_⟩)
    -- it would be overwritten
    refine hnew.1 op hname ((FiniteMap.mem_iff_exists _ _).mpr ⟨out, ?_⟩)
    rw [UtxoSet.utxo_foldl_spend, FiniteMap.getElem?_eraseAll, if_neg hnot.1, hout]

/-! ### Runs -/

/-- The block is refused; or it overwrites nothing, refers to no transaction that lists an
input twice, and its reward fits on top of the value of the set. -/
def boundedSupply (S : Sodium) (c : Chain) (sub : BlockSubmission) : Prop :=
  keepsOutputs S c sub ∧ ∀ refs ∈ sub.resolve c.pool, passesChecks S c sub refs →
    distinctInputs c sub ∧ utxoTotal c + sub.cbReward.toNat < 2 ^ 64

instance (c : Chain) (sub : BlockSubmission) : Decidable (boundedSupply S c sub) :=
  inferInstanceAs (Decidable (_ ∧ ∀ refs ∈ sub.resolve c.pool, _))

theorem outputTotal_coinbase (sub : BlockSubmission) :
    (sub.coinbase S).outputTotal = sub.cbReward.toNat := by
  show ([(⟨sub.cbAddress, sub.cbReward⟩ : TxOutput)].map TxOutput.value).sum = _
  rw [List.map_singleton, List.sum_singleton]
  rfl

theorem utxoTotal_genesis_lt : utxoTotal (genesisChain S) < 2 ^ 64 := by
  apply lt_of_le_of_lt utxoTotal_genesis
  show (15 * units).toNat + 0 + 0 < 2 ^ 64
  decide

/-- **Amount totals never wrap** in a run of blocks that overwrite nothing, refer to no
transaction that lists an input twice, and leave room for their rewards. -/
theorem exactSums_of_reachable {c : Chain} (h : Reachable S (guarded (boundedSupply S)) c) :
    ExactSums c := by
  have hindexed : c.toUtxoSet.Indexed :=
    indexed_of_reachable (h.mono fun _ _ hg => guarded_mono (fun _ _ hsupply => hsupply.1) hg)
  suffices hinv : PoolCovered c ∧ utxoTotal c < 2 ^ 64 by
    exact exactSums_of_bounded hindexed hinv.2
  refine guarded_rule (I := fun c => PoolCovered c ∧ utxoTotal c < 2 ^ 64)
    ⟨poolCovered_genesis, utxoTotal_genesis_lt⟩ ?_ ?_ h
  · intro c st _ hI hv
    exact ⟨hI.1.admitTx hv, hI.2⟩
  · intro c sub refs hbase hkept hI hsupply ha
    obtain ⟨hcovered, -⟩ := hI
    obtain ⟨hkeeps, hrest⟩ := hsupply
    obtain ⟨hdistinct, hroom⟩ := hrest refs ha.resolve ha.passesChecks
    have hgrown := utxoTotal_grown hbase hkept hcovered ha hdistinct
    rw [outputTotal_coinbase] at hgrown
    refine ⟨hcovered.grown hbase hkept ha fun op out hout hnot => ?_, by omega⟩
    exact getElem?_foldl_applyTx
      (fun tx htx => (ha.constructed hbase.pool.good tx htx).outputs_lt)
      (ha.overwritesNothing hkeeps) hout hnot

/-- The blocks of the sample run leave room for their rewards. -/
theorem exactSums_confirmed : ∃ c, run Sample.sodium Sample.confirmed = .ok c ∧
    utxoTotal c = 24000000 ∧ ExactSums c := by
  obtain ⟨c, hrun, hreach, htotal⟩ := exists_reachable (S := Sample.sodium)
    (guarded (boundedSupply Sample.sodium)) Sample.confirmed
    (fun c => utxoTotal c = 24000000) (by decide +kernel)
  exact ⟨c, hrun, htotal, exactSums_of_reachable hreach⟩

namespace Sample

/-- A block on the genesis block that pays the largest amount to its address. -/
def blockReward : BlockSubmission :=
  ⟨genesisHash, ofHex 32 0x7a21ab0da5a2a206a4f8ae33c555ff59092ed16beecd1850225e4b3d9ecf6faf,
    ⟨1781545965⟩, 4225091, genesisAddr, Chain.maxU64, ⟨1781545965⟩, []⟩

def hashReward : Hash :=
  ofHex 32 0x0000008f081b98349b3697a2424685375dacf8092b1448025cc231cf2bac1ee2

def sodiumReward : Sodium :=
  sodiumWith [(coinbaseBytes blockReward, blockReward.wireMerkle),
    (headerBytes blockReward, hashReward)]

end Sample

/-- **A reward wraps the sums around**: the address has 15 coins and the largest amount,
and both sums are one unit less than 15 coins. -/
theorem utxoTotal_reward : ∃ c,
    run Sample.sodiumReward [.createBlock (Sample.blockReward.frame (by decide))] = .ok c ∧
    Reachable Sample.sodiumReward anyOp c ∧ 2 ^ 64 ≤ utxoTotal c ∧
    c.balance genesisAddr = some 14999999 ∧ c.dumpTotal = 14999999 :=
  exists_reachable_any [.createBlock (Sample.blockReward.frame (by decide))]
    (fun c => 2 ^ 64 ≤ utxoTotal c ∧ c.balance genesisAddr = some 14999999 ∧
      c.dumpTotal = 14999999) (by decide +kernel)

end Axis
