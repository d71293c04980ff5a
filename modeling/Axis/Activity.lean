import Axis.Charts
import Axis.Headers

/-!
# Network activity

The windows of `/api/charts` over the last minute, five minutes and hour, from
`src/web.cpp`.  Each one walks back from the tip and stops at the first block that looks too
old; a timestamp in the future looks old too, since the age of a block is an unsigned
difference.  What a window reports is the number of transactions divided by its seconds, a
floating point number, and the model stops at the dividend.

## Main definitions

* `recentTx`, `networkActivity` — the loop of a window, and the numbers of all windows.
* `Chain.txsWithin` — the number of transactions of the blocks that are not too old.
* `LastInWindow` — those blocks are the last ones.
* `NoneAhead` — no loop counts a block dated after the current time.

## Main results

* `takeWhile_eq_filter_iff` — when a loop that stops early misses nothing.
* `networkActivity_exact` — **the windows are exact when those blocks are the last ones**, as
  they are when timestamps increase.
-/

namespace Axis

variable {S : Sodium}

/-! ### Loops that stop early -/

/-- A loop that stops at the first element that fails a test misses no other one exactly when
each element is followed by failing ones only, or passes. -/
theorem takeWhile_eq_filter_iff {α : Type} {p : α → Bool} {l : List α} :
    l.takeWhile p = l.filter p ↔ l.Pairwise fun a b => p b = true → p a = true := by
  induction l with
  | nil => simp
  | cons a l ih =>
    rw [List.takeWhile_cons, List.filter_cons, List.pairwise_cons]
    by_cases ha : p a = true
    · simp [ha, ih]
    · rw [if_neg ha, if_neg ha]
      constructor
      · intro hnil
        have hnone := List.filter_eq_nil_iff.mp hnil.symm
        refine ⟨fun b hb hpb => absurd hpb (hnone b hb), ?_⟩
        exact List.pairwise_of_forall_mem_list fun b _ b' hb' hpb' => absurd hpb' (hnone b' hb')
      · intro hall
        exact (List.filter_eq_nil_iff.mpr fun b hb hpb => ha (hall.1 b hb hpb)).symm

/-- A stronger test stops the loop at the same element when what the weaker one lets through
passes it. -/
theorem takeWhile_eq_of_imp {α : Type} {p q : α → Bool} {l : List α}
    (hweak : ∀ a ∈ l, q a = true → p a = true) (hpassed : ∀ a ∈ l.takeWhile p, q a = true) :
    l.takeWhile p = l.takeWhile q := by
  induction l with
  | nil => rfl
  | cons a l ih =>
    rw [List.forall_mem_cons] at hweak
    rw [List.takeWhile_cons] at hpassed ⊢
    rw [List.takeWhile_cons]
    by_cases ha : p a = true
    · rw [if_pos ha, List.forall_mem_cons] at hpassed
      rw [if_pos ha, if_pos hpassed.1, ih hweak.2 hpassed.2]
    · rw [if_neg ha, if_neg fun hq => ha (hweak.1 hq)]

theorem takeWhile_sublist_filter {α : Type} (p : α → Bool) (l : List α) :
    (l.takeWhile p).Sublist (l.filter p) := by
  have hall : (l.takeWhile p).filter p = l.takeWhile p :=
    List.filter_eq_self.mpr fun _ ha => List.mem_takeWhile_imp ha
  rw [← hall]
  exact (List.takeWhile_sublist p).filter p

/-- What weighs as much as a list it is taken from is all of it. -/
theorem eq_of_sublist_of_sum_eq {α : Type} {w : α → ℕ} {l l' : List α} (hsub : l.Sublist l')
    (hpos : ∀ a ∈ l', 0 < w a) (hsum : (l.map w).sum = (l'.map w).sum) : l = l' := by
  induction hsub with
  | slnil => rfl
  | @cons l l' a hsub ih =>
    -- the element that is left out weighs something
    have hle : (l.map w).sum ≤ (l'.map w).sum :=
      (hsub.map w).sum_le_sum fun _ _ => Nat.zero_le _
    have ha := hpos a List.mem_cons_self
    rw [List.map_cons, List.sum_cons] at hsum
    omega
  | @cons_cons l l' a hsub ih =>
    rw [List.map_cons, List.map_cons, List.sum_cons, List.sum_cons] at hsum
    rw [ih (fun b hb => hpos b (List.mem_cons_of_mem a hb)) (Nat.add_left_cancel hsum)]

/-! ### The windows -/

/-- The loop of a window over the heights below a height, from the last one down. -/
def recentTx (now secs : UInt64) (c : Chain) : ℕ → UInt64 → UInt64
  | 0, recent => recent
  | h + 1, recent =>
    match c.getBlock (UInt32.ofNat h) with
    | none => recentTx now secs c h recent
    | some block =>
      if now - block.header.timestamp.value > secs then recent
      else recentTx now secs c h (recent + sizeOfList block.transactions)

def windows : List (String × UInt64) := [("1m ago", 60), ("5m ago", 300), ("1h ago", 3600)]

/-- The number that each window divides by its seconds. -/
def networkActivity (now : UInt64) (c : Chain) : List (String × UInt64) :=
  windows.map fun (label, secs) => (label, recentTx now secs c c.height.toNat 0)

/-- The block is not in the future, and not older than `secs`. -/
def Block.Within (now secs : UInt64) (blk : Block) : Prop :=
  blk.header.timestamp.value.toNat ≤ now.toNat ∧
    now.toNat - blk.header.timestamp.value.toNat ≤ secs.toNat

instance (now secs : UInt64) : DecidablePred (Block.Within now secs) :=
  fun _ => inferInstanceAs (Decidable (_ ∧ _))

/-- The number of transactions of some blocks. -/
def txCount (blks : List Block) : ℕ := (blks.map fun blk => blk.transactions.length).sum

/-- The number of transactions of the blocks within a window. -/
def Chain.txsWithin (now secs : UInt64) (c : Chain) : ℕ :=
  txCount (c.blocks.filter fun blk => blk.Within now secs)

/-- Every window reports the transactions of the blocks within it. -/
def ActivityExact (now : UInt64) (c : Chain) : Prop :=
  (networkActivity now c).map (fun (label, recent) => (label, recent.toNat)) =
    windows.map fun (label, secs) => (label, c.txsWithin now secs)

instance (now : UInt64) (c : Chain) : Decidable (ActivityExact now c) :=
  inferInstanceAs (Decidable (_ = _))

/-- The blocks within a window are the last ones below the height. -/
structure LastInWindow (now secs : UInt64) (c : Chain) : Prop where
  ordered : c.visited.Pairwise fun blk blk' => blk.Within now secs → blk'.Within now secs
  below : ∀ blk ∈ c.blocks.drop c.height.toNat, ¬ blk.Within now secs

instance (now secs : UInt64) (c : Chain) : Decidable (LastInWindow now secs c) :=
  decidable_of_iff (_ ∧ _) ⟨fun h => ⟨h.1, h.2⟩, fun h => ⟨h.ordered, h.below⟩⟩

/-! ### What the loop computes -/

/-- The blocks whose unsigned age is small enough, from the tip down. -/
def walked (now secs : UInt64) (blks : List Block) : List Block :=
  blks.reverse.takeWhile fun blk => decide (now - blk.header.timestamp.value ≤ secs)

/-- The loop over the first `n` heights adds up the blocks it walks over. -/
theorem recentTx_eq (now secs : UInt64) (c : Chain) (n : ℕ) (recent : UInt64) :
    recentTx now secs c n recent = recent + UInt64.ofNat (txCount (walked now secs
      ((List.range n).filterMap fun h => c.getBlock (UInt32.ofNat h)))) := by
  unfold walked txCount
  induction n generalizing recent with
  | zero => exact (UInt64.add_zero recent).symm
  | succ n ih =>
    rw [List.range_succ, List.filterMap_append, List.reverse_append, recentTx]
    cases hget : c.getBlock (UInt32.ofNat n) with
    | none =>
      have hnone : ([n].filterMap fun h => c.getBlock (UInt32.ofNat h)) = [] := by simp [hget]
      rw [hnone]
      exact ih recent
    | some block =>
      have hsome : ([n].filterMap fun h => c.getBlock (UInt32.ofNat h)) = [block] := by simp [hget]
      rw [hsome]
      show (if now - block.header.timestamp.value > secs then recent else
        recentTx now secs c n (recent + sizeOfList block.transactions)) = recent +
        UInt64.ofNat (((block :: ((List.range n).filterMap fun h =>
          c.getBlock (UInt32.ofNat h)).reverse).takeWhile _).map _).sum
      rw [List.takeWhile_cons]
      by_cases hold : now - block.header.timestamp.value > secs
      · rw [if_pos hold, if_neg (by simpa using hold)]
        exact (UInt64.add_zero recent).symm
      · rw [if_neg hold, if_pos (by simpa using hold), ih, List.map_cons, List.sum_cons,
          UInt64.ofNat_add, ← UInt64.add_assoc]
        rfl

/-- What the loop reports, in a chain whose blocks are not too long. -/
theorem toNat_recentTx {c : Chain} (hcount : ∀ blk ∈ c.blocks, blk.transactions.length < 2 ^ 32)
    (now secs : UInt64) :
    (recentTx now secs c c.height.toNat 0).toNat = txCount (walked now secs c.visited) := by
  have hheight := c.height.toNat_lt
  have hvisited : c.visited = c.blocks.take c.height.toNat := c.visited_eq
  -- the walk is over fewer than `2 ^ 32` blocks
  have hsub : (walked now secs c.visited).Sublist c.visited.reverse := List.takeWhile_sublist _
  have hlen : (walked now secs c.visited).length ≤ 2 ^ 32 := by
    have hle := hsub.length_le
    have hvisits : c.visited.length ≤ c.height.toNat := by
      rw [hvisited]
      exact List.length_take_le _ _
    rw [List.length_reverse] at hle
    omega
  have hsmall : txCount (walked now secs c.visited) ≤
      (walked now secs c.visited).length * (2 ^ 32 - 1) := by
    unfold txCount
    have hle := List.sum_le_card_nsmul ((walked now secs c.visited).map fun blk =>
      blk.transactions.length) (2 ^ 32 - 1) ?_
    · rwa [List.length_map, smul_eq_mul] at hle
    · intro n hn
      obtain ⟨blk, hblk, rfl⟩ := List.mem_map.mp hn
      have hmem := List.mem_reverse.mp (hsub.subset hblk)
      rw [hvisited] at hmem
      have hlt := hcount blk (List.mem_of_mem_take hmem)
      omega
  have hfit : txCount (walked now secs c.visited) < 2 ^ 64 := by
    have hmul := Nat.mul_le_mul_right (2 ^ 32 - 1) hlen
    omega
  rw [recentTx_eq, UInt64.zero_add, UInt64.toNat_ofNat']
  exact Nat.mod_eq_of_lt hfit

theorem mem_blocks_of_mem_walked {c : Chain} {now secs : UInt64} {blk : Block}
    (h : blk ∈ walked now secs c.visited) : blk ∈ c.blocks := by
  have hmem := List.mem_reverse.mp ((List.takeWhile_sublist _).subset h)
  rw [c.visited_eq] at hmem
  exact List.mem_of_mem_take hmem

theorem age_le_of_mem_walked {now secs : UInt64} {blks : List Block} {blk : Block}
    (h : blk ∈ walked now secs blks) : now - blk.header.timestamp.value ≤ secs := by
  have htest := List.mem_takeWhile_imp h
  exact of_decide_eq_true htest

/-- The blocks that the loop of a window counts are not dated after `now`. -/
def NoneAhead (now secs : UInt64) (c : Chain) : Prop :=
  ∀ blk ∈ walked now secs c.visited, blk.header.timestamp.value ≤ now

instance (now secs : UInt64) (c : Chain) : Decidable (NoneAhead now secs c) :=
  inferInstanceAs (Decidable (∀ blk ∈ _, _))

/-- The unsigned age of a block within a window is its age. -/
theorem Block.Within.age_le {now secs : UInt64} {blk : Block} (h : blk.Within now secs) :
    now - blk.header.timestamp.value ≤ secs := by
  obtain ⟨hpast, hage⟩ := h
  rwa [UInt64.le_iff_toNat_le, UInt64.toNat_sub_of_le _ _ (UInt64.le_iff_toNat_le.mpr hpast)]

theorem Block.within_of_age_le {now secs : UInt64} {blk : Block}
    (hpast : blk.header.timestamp.value ≤ now) (hage : now - blk.header.timestamp.value ≤ secs) :
    blk.Within now secs := by
  refine ⟨UInt64.le_iff_toNat_le.mp hpast, ?_⟩
  rwa [UInt64.le_iff_toNat_le, UInt64.toNat_sub_of_le _ _ hpast] at hage

/-- Only in the first hour can the age of a block ahead wrap around to be small enough. -/
theorem noneAhead_of_le {now secs : UInt64} (hnow : 3600 ≤ now) (hsecs : secs.toNat ≤ 3600)
    (c : Chain) : NoneAhead now secs c := by
  intro blk hblk
  have hage := age_le_of_mem_walked hblk
  have htime := blk.header.timestamp.value.toNat_lt
  rw [UInt64.le_iff_toNat_le] at hnow hage ⊢
  rw [UInt64.toNat_sub] at hage
  by_contra hahead
  rw [Nat.mod_eq_of_lt (by omega)] at hage
  change 3600 ≤ now.toNat at hnow
  omega

/-- The walk stops at the first block that is not within the window. -/
theorem walked_eq {c : Chain} {now secs : UInt64} (hahead : NoneAhead now secs c) :
    walked now secs c.visited =
      c.visited.reverse.takeWhile fun blk => decide (blk.Within now secs) := by
  refine takeWhile_eq_of_imp (fun blk _ hin => ?_) fun blk hblk => ?_
  · exact decide_eq_true (of_decide_eq_true hin).age_le
  · exact decide_eq_true (Block.within_of_age_le (hahead blk hblk) (age_le_of_mem_walked hblk))

/-- The walk is over all blocks within the window that the loop can see exactly when they are
the last ones of those. -/
theorem reverse_walked_eq_iff {c : Chain} {now secs : UInt64} (hahead : NoneAhead now secs c) :
    (walked now secs c.visited).reverse = (c.visited.filter fun blk => blk.Within now secs) ↔
      c.visited.Pairwise fun blk blk' => blk.Within now secs → blk'.Within now secs := by
  rw [List.reverse_eq_iff, ← List.filter_reverse, walked_eq hahead, takeWhile_eq_filter_iff,
    List.pairwise_reverse]
  simp only [decide_eq_true_eq]

theorem reverse_walked_sublist {c : Chain} {now secs : UInt64} (hahead : NoneAhead now secs c) :
    (walked now secs c.visited).reverse.Sublist
      (c.visited.filter fun blk => blk.Within now secs) := by
  rw [walked_eq hahead, ← List.reverse_reverse (c.visited.filter _), ← List.filter_reverse]
  exact (takeWhile_sublist_filter _ _).reverse

/-- The loop of a window is exact exactly when the blocks within the window are the last
ones. -/
theorem txCount_walked_iff {c : Chain} {now secs : UInt64} (hahead : NoneAhead now secs c)
    (hpos : ∀ blk ∈ c.blocks, 0 < blk.transactions.length) :
    txCount (walked now secs c.visited) = c.txsWithin now secs ↔ LastInWindow now secs c := by
  have hsub := reverse_walked_sublist hahead
  have hordered := reverse_walked_eq_iff hahead
  have hsplit := c.filter_blocks fun blk => blk.Within now secs
  have hreverse : txCount (walked now secs c.visited).reverse =
      txCount (walked now secs c.visited) := by
    rw [txCount, List.map_reverse, List.sum_reverse, txCount]
  constructor
  · intro hsum
    -- every block within the window weighs something
    have hall : (walked now secs c.visited).reverse =
        c.blocks.filter fun blk => blk.Within now secs := by
      refine eq_of_sublist_of_sum_eq (w := fun blk => blk.transactions.length) ?_ ?_ ?_
      · rw [hsplit]
        exact hsub.trans (List.sublist_append_left _ _)
      · exact fun blk hblk => hpos blk (List.mem_of_mem_filter hblk)
      · exact hreverse.trans hsum
    rw [hsplit] at hall
    have hlen := hsub.length_le
    rw [hall, List.length_append] at hlen
    have hnone : (c.blocks.drop c.height.toNat).filter (fun blk => blk.Within now secs) = [] :=
      List.length_eq_zero_iff.mp (by omega)
    rw [hnone, List.append_nil] at hall
    refine ⟨hordered.mp hall, fun blk hblk => ?_⟩
    simpa using List.filter_eq_nil_iff.mp hnone blk hblk
  · intro hlast
    have hnone : (c.blocks.drop c.height.toNat).filter (fun blk => blk.Within now secs) = [] :=
      List.filter_eq_nil_iff.mpr fun blk hblk => by simpa using hlast.below blk hblk
    rw [← hreverse, hordered.mpr hlast.ordered, Chain.txsWithin, hsplit, hnone, List.append_nil]

/-- Every window is at most an hour long. -/
theorem toNat_le_of_mem_windows {w : String × UInt64} (hw : w ∈ windows) : w.2.toNat ≤ 3600 := by
  revert w
  decide

/-- All windows are exact exactly when the blocks within each one are the last ones. -/
theorem activityExact_iff {c : Chain} (hgood : ∀ blk ∈ c.blocks, BlockGood S blk) {now : UInt64}
    (hahead : ∀ w ∈ windows, NoneAhead now w.2 c) :
    ActivityExact now c ↔ ∀ w ∈ windows, LastInWindow now w.2 c := by
  have hpos : ∀ blk ∈ c.blocks, 0 < blk.transactions.length := by
    intro blk hblk
    obtain ⟨cb, refs, htxs, -⟩ := (hgood blk hblk).shape
    rw [htxs]
    exact Nat.succ_pos _
  unfold ActivityExact networkActivity
  rw [List.map_map, List.map_inj_left]
  refine forall₂_congr fun w hw => ?_
  rw [← txCount_walked_iff (hahead w hw) hpos,
    ← toNat_recentTx fun blk hblk => (hgood blk hblk).count]
  exact Prod.mk_right_injective w.1 |>.eq_iff

/-- Increasing timestamps put the blocks within a window last. -/
theorem TimestampsIncrease.lastInWindow {c : Chain} (h : TimestampsIncrease c)
    (hlen : c.blocks.length = c.height.toNat) {now : UInt64} (hnow : c.tipTimestamp.value ≤ now)
    (secs : UInt64) : LastInWindow now secs c where
  ordered := by
    rw [c.visited_eq]
    refine List.Pairwise.imp_of_mem ?_ (List.Pairwise.sublist (List.take_sublist _ _) h)
    intro blk blk' _ hblk' hlt hin
    have htip := UInt64.le_trans (h.le_tip (List.mem_of_mem_take hblk')) hnow
    rw [UInt64.le_iff_toNat_le] at htip
    rw [UInt64.lt_iff_toNat_lt] at hlt
    unfold Block.Within at hin ⊢
    omega
  below := by
    rw [← hlen, List.drop_length]
    exact fun blk hblk => absurd hblk List.not_mem_nil

/-- **The windows of the network activity are exact exactly when** the blocks within each one
are the last ones of the chain, unless a loop counts a block dated after `now`, which none does
from the end of the first hour on; and they are exact in every state of a run that submits only
later blocks, from the time of the tip on. -/
theorem networkActivity_exact (now : UInt64) (c : Chain) :
    (Reachable S anyOp c → (∀ w ∈ windows, NoneAhead now w.2 c) →
      (ActivityExact now c ↔ ∀ w ∈ windows, LastInWindow now w.2 c)) ∧
    (Reachable S anyOp c → 3600 ≤ now →
      (ActivityExact now c ↔ ∀ w ∈ windows, LastInWindow now w.2 c)) ∧
    (Reachable S (guarded laterTimestamp) c → c.blocks.length < 2 ^ 32 →
      c.tipTimestamp.value ≤ now → ActivityExact now c) := by
  refine ⟨fun h => activityExact_iff (base_of_reachable h).good, fun h hnow => ?_,
    fun h hlen htip => ?_⟩
  · exact activityExact_iff (base_of_reachable h).good fun w hw =>
      noneAhead_of_le hnow (toNat_le_of_mem_windows hw) c
  · have hbase := base_of_reachable h
    have hincrease := (verifyBlockHeader_iff_later (S := S) c).2 h
    have hheight : c.blocks.length = c.height.toNat := by
      rw [hbase.height, UInt32.toNat_ofNat', Nat.mod_eq_of_lt hlen]
    refine (activityExact_iff hbase.good fun w _ blk hblk => ?_).mpr fun w _ =>
      hincrease.lastInWindow hheight htip w.2
    exact UInt64.le_trans (hincrease.le_tip (mem_blocks_of_mem_walked hblk)) htip

/-- Half an hour after the third block of the sample run, the last hour has all its
transactions. -/
theorem networkActivity_confirmed : ∃ c, run Sample.sodium Sample.confirmed = .ok c ∧
    Reachable Sample.sodium (guarded laterTimestamp) c ∧
    networkActivity 1781549000 c = [("1m ago", 0), ("5m ago", 0), ("1h ago", 5)] ∧
    LastInWindow 1781549000 3600 c ∧ ActivityExact 1781549000 c := by
  obtain ⟨c, hrun, hreach, hP⟩ := exists_reachable (S := Sample.sodium)
    (guarded laterTimestamp) Sample.confirmed
    (fun c => c.blocks.length < 2 ^ 32 ∧ c.tipTimestamp.value ≤ 1781549000 ∧
      (∀ w ∈ windows, NoneAhead 1781549000 w.2 c) ∧
      networkActivity 1781549000 c = [("1m ago", 0), ("5m ago", 0), ("1h ago", 5)])
    (by decide +kernel)
  obtain ⟨hlen, htip, hahead, hactivity⟩ := hP
  obtain ⟨hiff, -, hrunExact⟩ := networkActivity_exact (S := Sample.sodium) 1781549000 c
  have hexact := hrunExact hreach hlen htip
  have hlast := (hiff (hreach.mono fun _ _ _ => trivial) hahead).mp hexact
  exact ⟨c, hrun, hreach, hactivity, hlast ("1h ago", 3600) (by decide), hexact⟩

/-- **A block dated early hides the blocks below it**: at the time of the genesis block, the
last minute has its transaction, and none is reported. -/
theorem networkActivity_early : ∃ c, run Sample.sodiumEarly
    [.createBlock (Sample.blockEarly.frame (by decide))] = .ok c ∧
    Reachable Sample.sodiumEarly anyOp c ∧
    networkActivity 1781545365 c = [("1m ago", 0), ("5m ago", 0), ("1h ago", 2)] ∧
    c.txsWithin 1781545365 60 = 1 ∧ ¬ ActivityExact 1781545365 c := by
  refine exists_reachable_any _ (fun c =>
    networkActivity 1781545365 c = [("1m ago", 0), ("5m ago", 0), ("1h ago", 2)] ∧
      c.txsWithin 1781545365 60 = 1 ∧ ¬ ActivityExact 1781545365 c) ?_
  decide +kernel

end Axis
