import Axis.Node

/-!
# Sizes and hourly charts

What the explorer reports, from `src/web.cpp`.  The sizes it shows are computed from the
shape of a transaction or a block with constants of its own, and not by serializing.  The
charts of `/api/charts` by hour put every block of the last day under the start of its hour
and read the map back slot by slot; the text of a slot is left out, and its start stands
for it.

## Main definitions

* `transactionJson`, `blockSerializedSize` — the sizes that are reported.
* `blocksOverTime`, `avgBlockSize` — the two hourly charts.
* `Chain.minedIn` — the blocks of an hour.

## Main results

* `reportedSizes_eq` — **reported sizes are those of the serialized bytes.**
* `hourlyCharts_exact` — **the hourly charts are right exactly when the oldest hour is
  empty**, on a chain whose height counts all blocks.
-/

namespace Axis

open Positional

variable {S : Sodium}

/-! ### Sizes -/

/-- `size()` of a container. -/
def sizeOfList {α : Type} (l : List α) : UInt64 := UInt64.ofNat l.length

def kOutPointSize : UInt64 := 36

def kTxOutputSize : UInt64 := 28

def kTxFixedOverhead : UInt64 := 48

def kBlockHeaderSize : UInt64 := 80

structure OutPointJson where
  txid : String
  index : UInt32
  size : UInt64
  deriving DecidableEq

structure OutputJson where
  recipient : String
  amount : UInt64
  size : UInt64
  deriving DecidableEq

structure TransactionJson where
  txid : String
  timestamp : UInt64
  coinbase : Bool
  size : UInt64
  inputs : List OutPointJson
  outputs : List OutputJson
  deriving DecidableEq

def outpointJson (op : OutPoint) : OutPointJson := ⟨toHex op.txid, op.index, kOutPointSize⟩

def outputJson (out : TxOutput) : OutputJson := ⟨toHex out.recipient, out.amount, kTxOutputSize⟩

def transactionJson (tx : Transaction) : TransactionJson where
  txid := toHex tx.txid
  timestamp := tx.timestamp.value
  coinbase := tx.isCoinbase
  size := kTxFixedOverhead + kOutPointSize * sizeOfList tx.inputs +
    kTxOutputSize * sizeOfList tx.outputs
  inputs := tx.inputs.map outpointJson
  outputs := tx.outputs.map outputJson

def blockSerializedSize (block : Block) : UInt64 :=
  block.transactions.foldl (fun s tx =>
    let txSize := kTxFixedOverhead + kOutPointSize * sizeOfList tx.inputs +
      kTxOutputSize * sizeOfList tx.outputs
    s + (4 + txSize)) (kBlockHeaderSize + 4)

/-- The formula of a transaction's size is that of its bytes. -/
theorem txSize_eq (tx : Transaction) :
    kTxFixedOverhead + kOutPointSize * sizeOfList tx.inputs +
      kTxOutputSize * sizeOfList tx.outputs = sizeOfList tx.serialize := by
  unfold sizeOfList
  rw [Transaction.length_serialize, UInt64.ofNat_add, UInt64.ofNat_add, UInt64.ofNat_mul,
    UInt64.ofNat_mul]
  rfl

/-- A loop that adds up the sizes of records adds the size of all of them. -/
theorem foldl_size_eq (txs : List Transaction) (s : UInt64) :
    txs.foldl (fun s tx => s + (4 + sizeOfList tx.serialize)) s =
      s + sizeOfList (txs.flatMap Block.txBytes) := by
  induction txs generalizing s with
  | nil => exact (UInt64.add_zero s).symm
  | cons tx txs ih =>
    have hrecord : sizeOfList (Block.txBytes tx) = 4 + sizeOfList tx.serialize := by
      unfold sizeOfList Block.txBytes
      rw [List.length_append, length_leBytes, UInt64.ofNat_add]
      rfl
    have hall : sizeOfList ((tx :: txs).flatMap Block.txBytes) =
        sizeOfList (Block.txBytes tx) + sizeOfList (txs.flatMap Block.txBytes) := by
      unfold sizeOfList
      rw [List.flatMap_cons, List.length_append, UInt64.ofNat_add]
    rw [List.foldl_cons, ih, hall, hrecord, UInt64.add_assoc]

theorem blockSerializedSize_eq (block : Block) :
    blockSerializedSize block = sizeOfList block.serialize := by
  have hall : sizeOfList block.serialize =
      kBlockHeaderSize + 4 + sizeOfList (block.transactions.flatMap Block.txBytes) := by
    unfold sizeOfList
    rw [Block.serialize_eq, List.length_append, List.length_append, BlockHeader.length_bytes,
      length_leBytes, ← Nat.add_assoc, UInt64.ofNat_add]
    rfl
  unfold blockSerializedSize
  simp only [txSize_eq]
  rw [foldl_size_eq, hall]

/-- What fits a size is not changed by it. -/
theorem toNat_sizeOfList {α : Type} {l : List α} (h : l.length < 2 ^ 64) :
    (sizeOfList l).toNat = l.length := by
  rw [sizeOfList, UInt64.toNat_ofNat', Nat.mod_eq_of_lt h]

/-- **Reported sizes are those of the serialized bytes**, for blocks and for transactions of
any shape. -/
theorem reportedSizes_eq :
    (∀ block : Block, blockSerializedSize block = sizeOfList block.serialize ∧
      (block.serialize.length < 2 ^ 64 →
        (blockSerializedSize block).toNat = block.serialize.length)) ∧
    ∀ tx : Transaction, (transactionJson tx).size = sizeOfList tx.serialize ∧
      (tx.serialize.length < 2 ^ 64 → (transactionJson tx).size.toNat = tx.serialize.length) := by
  constructor
  · intro block
    refine ⟨blockSerializedSize_eq block, fun hfit => ?_⟩
    rw [blockSerializedSize_eq, toNat_sizeOfList hfit]
  · intro tx
    have hsize : (transactionJson tx).size = sizeOfList tx.serialize := txSize_eq tx
    refine ⟨hsize, fun hfit => ?_⟩
    rw [hsize, toNat_sizeOfList hfit]

/-! ### Charts by hour -/

def kHour : UInt64 := 3600

/-- The start of the hour of a time. -/
def hourStart (t : UInt64) : UInt64 := t - t % kHour

namespace Chain

/-- `get_block(height)`. -/
def getBlock (height : UInt32) (c : Chain) : Option Block := c.blocks[height.toNat]?

/-- The blocks that a loop over the heights below `height()` gets. -/
def visited (c : Chain) : List Block :=
  (List.range c.height.toNat).filterMap fun h => c.getBlock (UInt32.ofNat h)

end Chain

/-- The loop of both charts over the blocks: those of the last hours, under the start of
their hour. -/
def hourTally {ν : Type} (zero : ν) (add : ν → Block → ν) (now : UInt64) (c : Chain) :
    FiniteMap UInt64 ν :=
  FiniteMap.tally (fun blk => hourStart blk.header.timestamp.value) zero add
    (c.visited.filter fun blk =>
      hourStart blk.header.timestamp.value > hourStart now - 23 * kHour) ∅

def hourCounts (now : UInt64) (c : Chain) : FiniteMap UInt64 UInt32 :=
  hourTally 0 (fun n _ => n + 1) now c

def hourSizes (now : UInt64) (c : Chain) : FiniteMap UInt64 (UInt64 × UInt32) :=
  hourTally (0, 0) (fun e blk => (e.1 + blockSerializedSize blk, e.2 + 1)) now c

/-- The loop over the slots from `h` to `last`, whose counter is 64 bits wide and wraps
around; `none` when the loop is not done after `fuel` rounds. -/
def hourSlots (last : UInt64) : ℕ → UInt64 → Option (List UInt64)
  | 0, _ => none
  | fuel + 1, h => if h ≤ last then (hourSlots last fuel (h + kHour)).map (h :: ·) else some []

/-- `blocksOverTime`: the starts of the slots with what is read back for them. -/
def blocksOverTime (fuel : ℕ) (now : UInt64) (c : Chain) : Option (List (UInt64 × UInt32)) :=
  if c.height > 0 then
    (hourSlots (hourStart now) fuel (hourStart now - 23 * kHour)).map fun slots =>
      slots.map fun h => (h, (hourCounts now c)[h]?.getD 0)
  else some []

/-- `avgBlockSize`, in the same way. -/
def avgBlockSize (fuel : ℕ) (now : UInt64) (c : Chain) : Option (List (UInt64 × UInt64)) :=
  if c.height > 0 then
    (hourSlots (hourStart now) fuel (hourStart now - 23 * kHour)).map fun slots =>
      slots.map fun h =>
        let (total, count) := (hourSizes now c)[h]?.getD (0, 0)
        (h, if count > 0 then total / count.toUInt64 else 0)
  else some []

/-! ### What the charts should say -/

/-- The timestamp is in the hour from `h` on. -/
def Block.InHour (h : UInt64) (blk : Block) : Prop :=
  h.toNat ≤ blk.header.timestamp.value.toNat ∧ blk.header.timestamp.value.toNat < h.toNat + 3600

instance (h : UInt64) : DecidablePred (Block.InHour h) :=
  fun _ => inferInstanceAs (Decidable (_ ∧ _))

/-- The blocks of the hour from `h` on. -/
def Chain.minedIn (h : UInt64) (c : Chain) : List Block :=
  c.blocks.filter fun blk => blk.InHour h

/-- The reported sizes of blocks, added up. -/
def totalSize (blks : List Block) : ℕ := (blks.map fun blk => (blockSerializedSize blk).toNat).sum

theorem totalSize_minedIn_le (h : UInt64) (c : Chain) :
    totalSize (c.minedIn h) ≤ totalSize c.blocks :=
  (List.filter_sublist.map _).sum_le_sum fun _ _ => Nat.zero_le _

theorem totalSize_cons (blk : Block) (blks : List Block) :
    totalSize (blk :: blks) = (blockSerializedSize blk).toNat + totalSize blks := List.sum_cons

/-- The hour of a time, counted in seconds. -/
def hourOf (now : UInt64) : ℕ := now.toNat - now.toNat % 3600

/-- The starts of the 24 hours that end with the hour of `now`. -/
def hours (now : UInt64) : List UInt64 :=
  (List.range 24).map fun k => UInt64.ofNat (hourOf now - 23 * 3600 + k * 3600)

/-- Every slot shows the number of blocks of its hour, and the quotient of their total size
by their number. -/
structure HourlyExact (fuel : ℕ) (now : UInt64) (c : Chain) : Prop where
  mined : ∃ entries, blocksOverTime fuel now c = some entries ∧
    ∀ e ∈ entries, e.2.toNat = (c.minedIn e.1).length
  sizes : ∃ entries, avgBlockSize fuel now c = some entries ∧
    ∀ e ∈ entries, e.2.toNat = totalSize (c.minedIn e.1) / (c.minedIn e.1).length

/-- Every block of the 24 hours is below the height and not in the oldest hour. -/
def BlocksCounted (now : UInt64) (c : Chain) : Prop :=
  ∀ (i : ℕ) (blk : Block), c.blocks[i]? = some blk →
    hourOf now - 23 * 3600 ≤ blk.header.timestamp.value.toNat →
    blk.header.timestamp.value.toNat < hourOf now + 3600 →
    i < c.height.toNat ∧ hourOf now - 22 * 3600 ≤ blk.header.timestamp.value.toNat

/-- The blocks of the 24 hours are counted, and the sizes of those of one hour add up to 64
bits. -/
structure HoursCounted (now : UInt64) (c : Chain) : Prop where
  counted : BlocksCounted now c
  fits : ∀ h ∈ hours now, totalSize (c.minedIn h) < 2 ^ 64

/-! ### What the loops compute -/

namespace Chain

/-- The loop over the heights sees the blocks below the height. -/
theorem visited_eq (c : Chain) : c.visited = c.blocks.take c.height.toNat := by
  have hloop : ∀ n ≤ c.height.toNat,
      (List.range n).filterMap (fun h => c.getBlock (UInt32.ofNat h)) = c.blocks.take n := by
    intro n hn
    induction n with
    | zero => simp
    | succ n ih =>
      have hlt := c.height.toNat_lt
      have hpos : (UInt32.ofNat n).toNat = n := by
        rw [UInt32.toNat_ofNat', Nat.mod_eq_of_lt (by omega)]
      rw [List.range_succ, List.filterMap_append, ih (by omega), List.take_add_one]
      unfold getBlock
      rw [List.filterMap_cons, hpos]
      cases c.blocks[n]? <;> rfl
  exact hloop _ (Nat.le_refl _)

/-- The blocks of an hour that the loop sees. -/
def visitedIn (h : UInt64) (c : Chain) : List Block :=
  c.visited.filter fun blk => blk.InHour h

/-- Blocks are below the height, where a loop sees them, or beyond it. -/
theorem filter_blocks (p : Block → Bool) (c : Chain) :
    c.blocks.filter p = c.visited.filter p ++ (c.blocks.drop c.height.toNat).filter p := by
  rw [visited_eq, ← List.filter_append, List.take_append_drop]

/-- The blocks of an hour are those the loop sees and those beyond the height. -/
theorem minedIn_eq (h : UInt64) (c : Chain) :
    c.minedIn h = c.visitedIn h ++ (c.blocks.drop c.height.toNat).filter fun blk => blk.InHour h :=
  c.filter_blocks fun blk => blk.InHour h

theorem length_visitedIn_lt (h : UInt64) (c : Chain) : (c.visitedIn h).length < 2 ^ 32 := by
  have hlt := c.height.toNat_lt
  have hle : (c.visitedIn h).length ≤ c.visited.length := List.length_filter_le _ _
  rw [visited_eq, List.length_take] at hle
  omega

end Chain

theorem toNat_hourStart (t : UInt64) : (hourStart t).toNat = hourOf t := by
  have hle : t % kHour ≤ t := by
    rw [UInt64.le_iff_toNat_le, UInt64.toNat_mod]
    exact Nat.mod_le _ _
  rw [hourStart, UInt64.toNat_sub_of_le _ _ hle, UInt64.toNat_mod]
  rfl

/-- A time that a `time_t` holds, at least a day after the epoch. -/
structure Now (now : UInt64) : Prop where
  day : 86400 ≤ now.toNat
  fits : now.toNat < 2 ^ 63

/-- The first slot. -/
theorem Now.toNat_first {now : UInt64} (h : Now now) :
    (hourStart now - 23 * kHour).toNat = hourOf now - 23 * 3600 := by
  have hday := h.day
  have hmod := Nat.mod_lt now.toNat (show 0 < 3600 by norm_num)
  have hspan : (23 * kHour).toNat = 23 * 3600 := rfl
  have hle : 23 * kHour ≤ hourStart now := by
    rw [UInt64.le_iff_toNat_le, toNat_hourStart, hspan, hourOf]
    omega
  rw [UInt64.toNat_sub_of_le _ _ hle, toNat_hourStart, hspan]

/-- The slots, in seconds. -/
theorem Now.mem_hours {now : UInt64} (hnow : Now now) {h : UInt64} :
    h ∈ hours now ↔ ∃ k < 24, h.toNat = hourOf now - 23 * 3600 + k * 3600 := by
  have hfits := hnow.fits
  have hle : hourOf now ≤ now.toNat := Nat.sub_le _ _
  unfold hours
  rw [List.mem_map]
  constructor
  · intro hex
    obtain ⟨k, hk, rfl⟩ := hex
    have hk := List.mem_range.mp hk
    exact ⟨k, hk, by rw [UInt64.toNat_ofNat', Nat.mod_eq_of_lt (by omega)]⟩
  · intro hex
    obtain ⟨k, hk, heq⟩ := hex
    exact ⟨k, List.mem_range.mpr hk, by rw [← heq, UInt64.ofNat_toNat]⟩

/-- The loop over the slots, `n` hours before the last one. -/
theorem hourSlots_eq {last : UInt64} (hlast : last.toNat + 3600 < 2 ^ 64) {n fuel : ℕ}
    (hfuel : n + 1 < fuel) {h : UInt64} (hh : h.toNat + n * 3600 = last.toNat) :
    hourSlots last fuel h =
      some ((List.range (n + 1)).map fun k => UInt64.ofNat (h.toNat + k * 3600)) := by
  -- on the number of hours that are left
  induction n generalizing fuel h with
  | zero =>
    obtain ⟨fuel, rfl⟩ := Nat.exists_eq_add_of_lt hfuel
    have hle : h ≤ last := by
      rw [UInt64.le_iff_toNat_le]
      omega
    have hnext : ¬ h + kHour ≤ last := by
      rw [UInt64.le_iff_toNat_le, UInt64.toNat_add, show kHour.toNat = 3600 from rfl,
        Nat.mod_eq_of_lt (by omega)]
      omega
    rw [show 0 + 1 + fuel + 1 = (fuel + 1) + 1 by omega, hourSlots, if_pos hle, hourSlots,
      if_neg hnext]
    simp
  | succ n ih =>
    obtain ⟨fuel, rfl⟩ := Nat.exists_eq_add_of_lt hfuel
    have hle : h ≤ last := by
      rw [UInt64.le_iff_toNat_le]
      omega
    have hnext : (h + kHour).toNat = h.toNat + 3600 := by
      rw [UInt64.toNat_add, show kHour.toNat = 3600 from rfl, Nat.mod_eq_of_lt (by omega)]
    rw [show n + 1 + 1 + fuel + 1 = (n + 1 + fuel + 1) + 1 by omega, hourSlots, if_pos hle,
      ih (by omega) (by rw [hnext]; omega), hnext, Option.map_some,
      List.range_succ_eq_map (n := n + 1), List.map_cons, List.map_map]
    simp only [Nat.zero_mul, Nat.add_zero, UInt64.ofNat_toNat]
    refine congrArg (fun l => some (h :: l)) (List.map_congr_left fun k _ => ?_)
    have hk : h.toNat + 3600 + k * 3600 = h.toNat + (k + 1) * 3600 := by ring
    rw [hk, Function.comp_apply]

/-- Both charts have a slot for each of the 24 hours. -/
theorem Now.slots {now : UInt64} (h : Now now) {fuel : ℕ} (hfuel : 24 < fuel) :
    hourSlots (hourStart now) fuel (hourStart now - 23 * kHour) = some (hours now) := by
  have hday := h.day
  have hfits := h.fits
  have hmod := Nat.mod_lt now.toNat (show 0 < 3600 by norm_num)
  have hlast : (hourStart now).toNat = hourOf now := toNat_hourStart now
  have hhour : hourOf now = now.toNat - now.toNat % 3600 := rfl
  rw [hourSlots_eq (n := 23) (by omega) (by omega) (by rw [h.toNat_first]; omega), h.toNat_first]
  rfl

/-- The blocks put under a slot are those of its hour. -/
theorem Now.hourStart_eq_iff {now : UInt64} (hnow : Now now) {h : UInt64} (hh : h ∈ hours now)
    (blk : Block) : hourStart blk.header.timestamp.value = h ↔ blk.InHour h := by
  obtain ⟨k, hk, heq⟩ := hnow.mem_hours.mp hh
  have hday := hnow.day
  have hhour : hourOf now = now.toNat - now.toNat % 3600 := rfl
  rw [← UInt64.toNat_inj, toNat_hourStart, hourOf, Block.InHour]
  omega

/-- The slots after the first one. -/
theorem Now.le_of_ne_first {now : UInt64} (hnow : Now now) {h : UInt64} (hh : h ∈ hours now)
    (hne : h ≠ hourStart now - 23 * kHour) : hourOf now - 22 * 3600 ≤ h.toNat := by
  obtain ⟨k, -, heq⟩ := hnow.mem_hours.mp hh
  have hk : k ≠ 0 := by
    intro hzero
    rw [hzero, Nat.zero_mul, Nat.add_zero, ← hnow.toNat_first] at heq
    exact hne (UInt64.toNat_inj.mp heq)
  omega

/-- What is put under a slot: the blocks of its hour, and none for the oldest hour. -/
theorem Now.getD_hourTally {now : UInt64} (hnow : Now now) {h : UInt64} (hh : h ∈ hours now)
    {ν : Type} (zero : ν) (add : ν → Block → ν) (c : Chain) :
    (hourTally zero add now c)[h]?.getD zero =
      (if h = hourStart now - 23 * kHour then [] else c.visitedIn h).foldl add zero := by
  have hday := hnow.day
  have hhour : hourOf now = now.toNat - now.toNat % 3600 := rfl
  unfold hourTally
  rw [FiniteMap.getD_tally, List.filter_filter, Std.ExtTreeMap.getElem?_empty, Option.getD_none]
  split
  · next hold =>
    -- the boundary is strict
    have hnone : c.visited.filter (fun blk => decide (hourStart blk.header.timestamp.value = h) &&
        decide (hourStart blk.header.timestamp.value > hourStart now - 23 * kHour)) = [] := by
      rw [List.filter_eq_nil_iff]
      intro blk _ hboth
      rw [Bool.and_eq_true, decide_eq_true_eq, decide_eq_true_eq] at hboth
      rw [hboth.1, hold] at hboth
      exact UInt64.lt_irrefl _ hboth.2
    rw [hnone]
  · next hlater =>
    refine congrArg (List.foldl add zero) (List.filter_congr fun blk _ => ?_)
    rw [Bool.eq_iff_iff, Bool.and_eq_true, decide_eq_true_eq, decide_eq_true_eq, decide_eq_true_eq,
      ← hnow.hourStart_eq_iff hh blk]
    constructor
    · exact fun hboth => hboth.1
    · intro hkey
      refine ⟨hkey, ?_⟩
      have hle := hnow.le_of_ne_first hh hlater
      rw [hkey, gt_iff_lt, UInt64.lt_iff_toNat_lt, hnow.toNat_first]
      omega

/-- Counting in 32 bits. -/
theorem foldl_count_eq (blks : List Block) (n : UInt32) :
    blks.foldl (fun n _ => n + 1) n = n + UInt32.ofNat blks.length := by
  induction blks generalizing n with
  | nil => exact (UInt32.add_zero n).symm
  | cons blk blks ih =>
    rw [List.foldl_cons, ih, List.length_cons, UInt32.ofNat_add, UInt32.add_assoc,
      UInt32.add_comm 1]
    rfl

/-- Adding up sizes in 64 bits, and counting. -/
theorem foldl_sizes_eq (blks : List Block) (e : UInt64 × UInt32) :
    blks.foldl (fun e blk => (e.1 + blockSerializedSize blk, e.2 + 1)) e =
      (e.1 + UInt64.ofNat (totalSize blks), e.2 + UInt32.ofNat blks.length) := by
  induction blks generalizing e with
  | nil => exact Prod.ext (UInt64.add_zero _).symm (UInt32.add_zero _).symm
  | cons blk blks ih =>
    rw [List.foldl_cons, ih, totalSize_cons, List.length_cons, UInt64.ofNat_add,
      UInt64.ofNat_toNat, UInt32.ofNat_add, UInt64.add_assoc, UInt32.add_assoc, UInt32.add_comm 1]
    rfl

/-- The entries of the two charts. -/
theorem Now.blocksOverTime_eq {now : UInt64} (hnow : Now now) {fuel : ℕ} (hfuel : 24 < fuel)
    {c : Chain} (hheight : 0 < c.height) :
    blocksOverTime fuel now c =
      some ((hours now).map fun h => (h, (hourCounts now c)[h]?.getD 0)) := by
  rw [blocksOverTime, if_pos hheight, hnow.slots hfuel, Option.map_some]

theorem Now.avgBlockSize_eq {now : UInt64} (hnow : Now now) {fuel : ℕ} (hfuel : 24 < fuel)
    {c : Chain} (hheight : 0 < c.height) :
    avgBlockSize fuel now c = some ((hours now).map fun h =>
      let (total, count) := (hourSizes now c)[h]?.getD (0, 0)
      (h, if count > 0 then total / count.toUInt64 else 0)) := by
  rw [avgBlockSize, if_pos hheight, hnow.slots hfuel, Option.map_some]

/-- The blocks that a slot shows: those the loop sees of its hour, and none for the oldest
hour. -/
def shownIn (now h : UInt64) (c : Chain) : List Block :=
  if h = hourStart now - 23 * kHour then [] else c.visitedIn h

theorem length_shownIn_lt (now h : UInt64) (c : Chain) : (shownIn now h c).length < 2 ^ 32 := by
  unfold shownIn
  split
  · exact Nat.two_pow_pos 32
  · exact c.length_visitedIn_lt h

/-- The number a slot shows. -/
theorem Now.toNat_count {now : UInt64} (hnow : Now now) {h : UInt64} (hh : h ∈ hours now)
    (c : Chain) : ((hourCounts now c)[h]?.getD 0).toNat = (shownIn now h c).length := by
  rw [hourCounts, hnow.getD_hourTally hh, foldl_count_eq, UInt32.zero_add, UInt32.toNat_ofNat']
  exact Nat.mod_eq_of_lt (length_shownIn_lt now h c)

/-- The average a slot shows, of a total that is cut off at 64 bits. -/
theorem Now.toNat_avg {now : UInt64} (hnow : Now now) {h : UInt64} (hh : h ∈ hours now)
    (c : Chain) :
    (let (total, count) := (hourSizes now c)[h]?.getD (0, 0)
      if count > 0 then total / count.toUInt64 else 0).toNat =
        totalSize (shownIn now h c) % 2 ^ 64 / (shownIn now h c).length := by
  have hlen : (UInt32.ofNat (shownIn now h c).length).toNat = (shownIn now h c).length := by
    rw [UInt32.toNat_ofNat', Nat.mod_eq_of_lt (length_shownIn_lt now h c)]
  rw [hourSizes, hnow.getD_hourTally hh, foldl_sizes_eq]
  show (if 0 + UInt32.ofNat (shownIn now h c).length > 0 then
    (0 + UInt64.ofNat (totalSize (shownIn now h c))) /
      (0 + UInt32.ofNat (shownIn now h c).length).toUInt64 else 0).toNat = _
  rw [UInt32.zero_add, UInt64.zero_add]
  split
  · rw [UInt64.toNat_div, UInt32.toNat_toUInt64, UInt64.toNat_ofNat', hlen]
  · next hzero =>
    rw [gt_iff_lt, UInt32.lt_iff_toNat_lt, hlen] at hzero
    have hnil : (shownIn now h c).length = 0 := by
      rw [UInt32.toNat_zero] at hzero
      omega
    rw [hnil, Nat.div_zero]
    rfl

/-- A quotient shows when its dividend was cut off. -/
theorem mod_div_eq_div_iff {total count : ℕ} (hpos : 0 < count) (hcount : count < 2 ^ 64) :
    total % 2 ^ 64 / count = total / count ↔ total < 2 ^ 64 := by
  constructor
  · intro heq
    by_contra hlarge
    -- what is cut off is more than the divisor
    have hcut : total % 2 ^ 64 + count ≤ total := by
      have hdiv := Nat.div_add_mod total (2 ^ 64)
      have hquot : 1 ≤ total / 2 ^ 64 := Nat.div_pos (Nat.not_lt.mp hlarge) (by norm_num)
      omega
    have hle := Nat.div_le_div_right (c := count) hcut
    rw [Nat.add_div_right _ hpos, heq] at hle
    omega
  · intro hfit
    rw [Nat.mod_eq_of_lt hfit]

/-- What a slot shows is a first part of what it should show. -/
theorem prefix_shownIn (now h : UInt64) (c : Chain) : shownIn now h c <+: c.minedIn h := by
  unfold shownIn
  split
  · exact List.nil_prefix
  · rw [c.minedIn_eq]
    exact List.prefix_append _ _

/-- Blocks that are counted are shown. -/
theorem Now.shownIn_eq_minedIn {now : UInt64} (hnow : Now now) {c : Chain}
    (h : BlocksCounted now c) {hour : UInt64} (hh : hour ∈ hours now) :
    shownIn now hour c = c.minedIn hour := by
  have hday := hnow.day
  have hfirst := hnow.toNat_first
  have hhour : hourOf now = now.toNat - now.toNat % 3600 := rfl
  obtain ⟨k, hk, heq⟩ := hnow.mem_hours.mp hh
  -- a block of the hour, at its position
  have hin : ∀ (i : ℕ) (blk : Block), c.blocks[i]? = some blk → blk.InHour hour →
      i < c.height.toNat ∧ hourOf now - 22 * 3600 ≤ blk.header.timestamp.value.toNat :=
    fun i blk hget hblk => h i blk hget (by have := hblk.1; omega) (by have := hblk.2; omega)
  unfold shownIn
  split
  · next hold =>
    refine (List.filter_eq_nil_iff.mpr fun blk hblk hhour' => ?_).symm
    obtain ⟨i, hget⟩ := List.getElem?_of_mem hblk
    have hblk' := of_decide_eq_true hhour'
    have hlater := (hin i blk hget hblk').2
    have hlt := hblk'.2
    rw [hold, hfirst] at hlt
    omega
  · have hrest : (c.blocks.drop c.height.toNat).filter (fun blk => blk.InHour hour) = [] := by
      refine List.filter_eq_nil_iff.mpr fun blk hblk hhour' => ?_
      obtain ⟨i, hget⟩ := List.getElem?_of_mem hblk
      rw [List.getElem?_drop] at hget
      have hlt := (hin _ blk hget (of_decide_eq_true hhour')).1
      omega
    rw [c.minedIn_eq, hrest, List.append_nil]

/-- A block that a slot shows is below the height, and not in the oldest hour. -/
theorem Now.lt_height_of_shownIn {now : UInt64} (hnow : Now now) {c : Chain} {hour : UInt64}
    (hh : hour ∈ hours now) (hshown : shownIn now hour c = c.minedIn hour) {i : ℕ} {blk : Block}
    (hget : c.blocks[i]? = some blk) (hblk : blk.InHour hour) :
    i < c.height.toNat ∧ hourOf now - 22 * 3600 ≤ blk.header.timestamp.value.toNat := by
  have hmem : blk ∈ c.minedIn hour :=
    List.mem_filter.mpr ⟨List.mem_of_getElem? hget, decide_eq_true hblk⟩
  unfold shownIn at hshown
  split at hshown
  · rw [← hshown] at hmem
    exact absurd hmem List.not_mem_nil
  · next hlater =>
    refine ⟨?_, (hnow.le_of_ne_first hh hlater).trans hblk.1⟩
    by_contra hbeyond
    -- a block beyond the height is shown by no slot
    rw [c.minedIn_eq] at hshown
    have hnil := List.append_right_eq_self.mp hshown.symm
    have hdrop : (c.blocks.drop c.height.toNat)[i - c.height.toNat]? = some blk := by
      rw [List.getElem?_drop, Nat.add_sub_cancel' (Nat.not_lt.mp hbeyond), hget]
    have hrest : blk ∈ (c.blocks.drop c.height.toNat).filter fun blk => blk.InHour hour :=
      List.mem_filter.mpr ⟨List.mem_of_getElem? hdrop, decide_eq_true hblk⟩
    rw [hnil] at hrest
    exact List.not_mem_nil hrest

/-- A time of the 24 hours is in one of the slots. -/
theorem Now.exists_hour {now : UInt64} (hnow : Now now) {blk : Block}
    (hlo : hourOf now - 23 * 3600 ≤ blk.header.timestamp.value.toNat)
    (hhi : blk.header.timestamp.value.toNat < hourOf now + 3600) :
    ∃ hour ∈ hours now, blk.InHour hour := by
  have hday := hnow.day
  have hhour : hourOf now = now.toNat - now.toNat % 3600 := rfl
  have hval := toNat_hourStart blk.header.timestamp.value
  have hblkHour : hourOf blk.header.timestamp.value = blk.header.timestamp.value.toNat -
    blk.header.timestamp.value.toNat % 3600 := rfl
  have hh : hourStart blk.header.timestamp.value ∈ hours now := by
    refine hnow.mem_hours.mpr ⟨((hourStart blk.header.timestamp.value).toNat -
      (hourOf now - 23 * 3600)) / 3600, ?_, ?_⟩ <;> omega
  exact ⟨_, hh, (hnow.hourStart_eq_iff hh blk).mp rfl⟩

/-- The blocks of the 24 hours are counted when every slot shows its blocks. -/
theorem Now.counted_iff {now : UInt64} (hnow : Now now) (c : Chain) :
    BlocksCounted now c ↔ ∀ hour ∈ hours now, shownIn now hour c = c.minedIn hour := by
  constructor
  · exact fun hcounted hour hh => hnow.shownIn_eq_minedIn hcounted hh
  · intro hshown i blk hget hlo hhi
    obtain ⟨hour, hh, hblk⟩ := hnow.exists_hour hlo hhi
    exact hnow.lt_height_of_shownIn hh (hshown hour hh) hget hblk

/-- The slots of a chart that is not empty are right when their blocks are counted. -/
theorem Now.hourlyExact_iff {now : UInt64} (hnow : Now now) {fuel : ℕ} (hfuel : 24 < fuel)
    {c : Chain} (hheight : 0 < c.height) : HourlyExact fuel now c ↔ HoursCounted now c := by
  have hmined := hnow.blocksOverTime_eq hfuel hheight
  have hsizes := hnow.avgBlockSize_eq hfuel hheight
  constructor
  · intro hexact
    obtain ⟨mined, hmined', hcounts⟩ := hexact.mined
    obtain ⟨sizes, hsizes', havgs⟩ := hexact.sizes
    rw [hmined] at hmined'
    rw [hsizes] at hsizes'
    cases hmined'
    cases hsizes'
    have hshown : ∀ hour ∈ hours now, shownIn now hour c = c.minedIn hour := by
      intro hour hh
      have hcount := hcounts _ (List.mem_map_of_mem hh)
      rw [hnow.toNat_count hh] at hcount
      exact (prefix_shownIn now hour c).eq_of_length hcount
    refine ⟨(hnow.counted_iff c).mpr hshown, fun hour hh => ?_⟩
    have havg := havgs _ (List.mem_map_of_mem hh)
    rw [hnow.toNat_avg hh, hshown hour hh] at havg
    rcases Nat.eq_zero_or_pos (c.minedIn hour).length with hnil | hpos
    · rw [List.length_eq_zero_iff.mp hnil]
      exact Nat.two_pow_pos 64
    · have hlt := length_shownIn_lt now hour c
      rw [hshown hour hh] at hlt
      exact (mod_div_eq_div_iff hpos (by omega)).mp havg
  · intro hcounted
    have hshown := (hnow.counted_iff c).mp hcounted.counted
    refine ⟨⟨_, hmined, ?_⟩, ⟨_, hsizes, ?_⟩⟩
    · intro e he
      obtain ⟨hour, hh, rfl⟩ := List.mem_map.mp he
      rw [hnow.toNat_count hh, hshown hour hh]
    · intro e he
      obtain ⟨hour, hh, rfl⟩ := List.mem_map.mp he
      exact (hnow.toNat_avg hh c).trans (by
        rw [hshown hour hh, Nat.mod_eq_of_lt (hcounted.fits hour hh)])

/-- A chart without slots has nothing wrong in it. -/
theorem hourlyExact_of_height {fuel : ℕ} {now : UInt64} {c : Chain} (h : c.height = 0) :
    HourlyExact fuel now c := by
  have hheight : ¬ c.height > 0 := by simp [h]
  refine ⟨⟨[], ?_, fun e he => absurd he List.not_mem_nil⟩,
    ⟨[], ?_, fun e he => absurd he List.not_mem_nil⟩⟩
  · rw [blocksOverTime, if_neg hheight]
  · rw [avgBlockSize, if_neg hheight]

/-- **The hourly charts are right exactly when** they have no slots, or no block of the 24
hours is in the oldest one or beyond the height, and sizes add up to 64 bits.  They have
slots for the 24 hours that end with the current one. -/
theorem hourlyCharts_exact {now : UInt64} (hnow : Now now) {fuel : ℕ} (hfuel : 24 < fuel)
    (c : Chain) :
    (0 < c.height → ∃ mined sizes, blocksOverTime fuel now c = some mined ∧
      avgBlockSize fuel now c = some sizes ∧ mined.map Prod.fst = hours now ∧
      sizes.map Prod.fst = hours now) ∧
    (HourlyExact fuel now c ↔ c.height = 0 ∨ HoursCounted now c) := by
  constructor
  · intro hheight
    refine ⟨_, _, hnow.blocksOverTime_eq hfuel hheight, hnow.avgBlockSize_eq hfuel hheight, ?_, ?_⟩
    · rw [List.map_map]
      exact List.map_id _
    · rw [List.map_map]
      exact List.map_id _
  · by_cases hzero : c.height = 0
    · exact iff_of_true (hourlyExact_of_height hzero) (Or.inl hzero)
    · have hheight : 0 < c.height := by
        rw [UInt32.lt_iff_toNat_lt]
        exact Nat.pos_of_ne_zero fun heq => hzero (UInt32.toNat_inj.mp heq)
      rw [or_iff_right hzero]
      exact hnow.hourlyExact_iff hfuel hheight

/-- Ten minutes after the genesis block, on a fresh node. -/
theorem hourlyCharts_genesis : ∃ c, run Sample.sodium [] = .ok c ∧ HoursCounted 1781545965 c ∧
    (c.minedIn 1781542800).length = 1 ∧ HourlyExact 25 1781545965 c := by
  have hcounted : HoursCounted 1781545965 (genesisChain Sample.sodium) := by
    refine ⟨fun i blk hget _ _ => ?_, fun h _ =>
      (totalSize_minedIn_le h _).trans_lt (by decide +kernel)⟩
    obtain ⟨hlt, rfl⟩ := List.getElem?_eq_some_iff.mp hget
    obtain rfl : i = 0 := Nat.lt_one_iff.mp hlt
    have hgenesis : 0 < (genesisChain Sample.sodium).height.toNat ∧ hourOf 1781545965 - 22 * 3600 ≤
        (genesisBlock Sample.sodium).header.timestamp.value.toNat := by decide +kernel
    exact hgenesis
  have hnow : Now 1781545965 := ⟨by decide, by decide⟩
  have hexact := hourlyCharts_exact hnow (show 24 < 25 by norm_num) (genesisChain Sample.sodium)
  exact ⟨_, rfl, hcounted, by decide +kernel, hexact.2.mpr (Or.inr hcounted)⟩

/-- **A block of the oldest hour is missing**: 23 hours after the genesis block, a fresh node
shows no block in its first slot. -/
theorem hourlyCharts_oldest : ∃ c, run Sample.sodium [] = .ok c ∧ Now 1781628165 ∧
    (c.minedIn 1781542800).length = 1 ∧
    (blocksOverTime 25 1781628165 c).map List.head? = some (some (1781542800, 0)) ∧
    ¬ HourlyExact 25 1781628165 c := by
  have hlen : ((genesisChain Sample.sodium).minedIn 1781542800).length = 1 := by decide +kernel
  have hhead : (blocksOverTime 25 1781628165 (genesisChain Sample.sodium)).map List.head? =
      some (some (1781542800, 0)) := by decide +kernel
  refine ⟨_, rfl, ⟨by decide, by decide⟩, hlen, hhead, fun hexact => ?_⟩
  obtain ⟨entries, hentries, hcounts⟩ := hexact.mined
  rw [hentries, Option.map_some] at hhead
  have hcount := hcounts _ (List.mem_of_mem_head? (Option.some.inj hhead))
  rw [hlen] at hcount
  exact absurd hcount (by decide)

end Axis
