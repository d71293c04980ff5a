import Axis.Activity
import Axis.Lib.Queries
import Axis.Reads

/-!
# Charts of a chain that grows

`/api/charts` reads the height once and then calls `get_block` for height after height, up to five
times for each block, and other threads may add blocks in between.  What it answers describes the
chain of the one moment at which it read the height.  (`/api/tip` and `/api/status` read twice what
may change, and have no such property: `reads_torn`.)

The clock is read once for each chart.

## Main definitions

* `txPerBlock` — the chart of the last blocks.
* `chartsReading` — the handler as a program that calls `get_block`.
* `Charting`, `stepCharting` — a node with its threads, and the handler between its calls.

## Main results

* `answer_chartsReading` — a handler that is not interrupted answers with the charts.
* `charts_snapshot` — **neither is one that is interrupted told apart from it.**
-/

namespace Axis

open Queries

variable {S : Sodium}

/-! ### Transactions of the last blocks -/

structure TxPerBlockJson where
  blockHeight : String
  txCount : UInt64
  time : String
  deriving DecidableEq

/-- The age of a block in words; that of a block of the future wraps around. -/
def ageText (dt : UInt64) : String :=
  if dt < 60 then toString dt ++ "s ago"
  else if dt < 3600 then toString (dt / 60) ++ "m ago"
  else toString (dt / 3600) ++ "h ago"

def txPerBlockJson (now : UInt64) (h : UInt32) (block : Block) : TxPerBlockJson where
  blockHeight := "#" ++ toString h
  txCount := sizeOfList block.transactions
  time := ageText (now - block.header.timestamp.value)

/-- The heights of a loop from `start` to below `height`. -/
def heightsFrom (start height : UInt32) : List UInt32 :=
  (List.range' start.toNat (height.toNat - start.toNat)).map UInt32.ofNat

/-- Where the chart of the last `n` blocks starts. -/
def lastFrom (n height : UInt32) : UInt32 := if height > n then height - n else 0

/-- What becomes of the blocks that the loop gets. -/
def txPerBlockEntries (now : UInt64) (hs : List UInt32) (blocks : List (Option Block)) :
    List TxPerBlockJson :=
  (hs.zip blocks).filterMap fun (h, block) => block.map (txPerBlockJson now h)

def txPerBlock (now : UInt64) (c : Chain) : List TxPerBlockJson :=
  let hs := heightsFrom (lastFrom 20 c.height) c.height
  txPerBlockEntries now hs (hs.map fun h => c.getBlock h)

/-! ### The handler -/

/-- What the clock shows at each chart. -/
structure ChartTimes where
  overTime : UInt64
  perBlock : UInt64
  sizes : UInt64
  activity : UInt64

/-- The charts; the two by hour are `none` when the loop over the hours is not done. -/
structure ChartsJson where
  blocksOverTime : Option (List (UInt64 × UInt32))
  txPerBlock : List TxPerBlockJson
  avgBlockSize : Option (List (UInt64 × UInt64))
  networkActivity : List (String × UInt64)

/-- The charts of a chain. -/
def chartsJson (fuel : ℕ) (times : ChartTimes) (c : Chain) : ChartsJson where
  blocksOverTime := blocksOverTime fuel times.overTime c
  txPerBlock := txPerBlock times.perBlock c
  avgBlockSize := avgBlockSize fuel times.sizes c
  networkActivity := networkActivity times.activity c

/-- A part of the handler, which calls `get_block`. -/
abbrev Reading := Program UInt32 (Option Block)

/-- The tally of `hourTally` for the blocks of a loop. -/
def tallyOf {ν : Type} (zero : ν) (add : ν → Block → ν) (now : UInt64)
    (blocks : List (Option Block)) : FiniteMap UInt64 ν :=
  FiniteMap.tally (fun blk => hourStart blk.header.timestamp.value) zero add
    ((blocks.filterMap id).filter fun blk =>
      hourStart blk.header.timestamp.value > hourStart now - 23 * kHour) ∅

def blocksOverTimeReading (fuel : ℕ) (now : UInt64) (height : UInt32) :
    Reading (Option (List (UInt64 × UInt32))) :=
  if height > 0 then do
    let blocks ← Program.collect (heightsFrom 0 height)
    let hourCounts : FiniteMap UInt64 UInt32 := tallyOf 0 (fun n _ => n + 1) now blocks
    pure ((hourSlots (hourStart now) fuel (hourStart now - 23 * kHour)).map fun slots =>
      slots.map fun h => (h, hourCounts[h]?.getD 0))
  else pure (some [])

def txPerBlockReading (now : UInt64) (height : UInt32) : Reading (List TxPerBlockJson) := do
  let hs := heightsFrom (lastFrom 20 height) height
  let blocks ← Program.collect hs
  pure (txPerBlockEntries now hs blocks)

def avgBlockSizeReading (fuel : ℕ) (now : UInt64) (height : UInt32) :
    Reading (Option (List (UInt64 × UInt64))) :=
  if height > 0 then do
    let blocks ← Program.collect (heightsFrom 0 height)
    let hourSizes : FiniteMap UInt64 (UInt64 × UInt32) :=
      tallyOf (0, 0) (fun e blk => (e.1 + blockSerializedSize blk, e.2 + 1)) now blocks
    pure ((hourSlots (hourStart now) fuel (hourStart now - 23 * kHour)).map fun slots =>
      slots.map fun h =>
        let (total, count) := hourSizes[h]?.getD (0, 0)
        (h, if count > 0 then total / count.toUInt64 else 0))
  else pure (some [])

/-- The loop of a window, from the last height down. -/
def recentTxReading (now secs : UInt64) : ℕ → UInt64 → Reading UInt64
  | 0, recent => pure recent
  | h + 1, recent =>
    .ask (UInt32.ofNat h) fun
      | none => recentTxReading now secs h recent
      | some block =>
        if now - block.header.timestamp.value > secs then pure recent
        else recentTxReading now secs h (recent + sizeOfList block.transactions)

def networkActivityReading (now : UInt64) (height : UInt32) : Reading (List (String × UInt64)) := do
  -- nothing reads what this loop adds up
  let _ ← Program.collect (heightsFrom (lastFrom 10 height) height)
  Program.each (fun (label, secs) => do
    let recent ← recentTxReading now secs height.toNat 0
    pure (label, recent)) windows

/-- The handler of `/api/charts`, once it has read the height. -/
def chartsReading (fuel : ℕ) (times : ChartTimes) (height : UInt32) : Reading ChartsJson := do
  let overTime ← blocksOverTimeReading fuel times.overTime height
  let perBlock ← txPerBlockReading times.perBlock height
  let sizes ← avgBlockSizeReading fuel times.sizes height
  let activity ← networkActivityReading times.activity height
  pure ⟨overTime, perBlock, sizes, activity⟩

/-! ### A handler that is not interrupted -/

/-- What `get_block` returns. -/
def Chain.store (c : Chain) (h : UInt32) : Option Block := c.getBlock h

theorem mem_heightsFrom {start height h : UInt32} (hh : h ∈ heightsFrom start height) :
    h < height := by
  obtain ⟨i, hi, rfl⟩ := List.mem_map.mp hh
  rw [List.mem_range'_1] at hi
  have hlt := height.toNat_lt
  rw [UInt32.lt_iff_toNat_lt, UInt32.toNat_ofNat', Nat.mod_eq_of_lt (by omega)]
  omega

theorem length_heightsFrom (start height : UInt32) :
    (heightsFrom start height).length = height.toNat - start.toNat := by
  rw [heightsFrom, List.length_map, List.length_range']

/-- The last blocks are few. -/
theorem length_heightsFrom_lastFrom (n height : UInt32) :
    (heightsFrom (lastFrom n height) height).length ≤ n.toNat := by
  rw [length_heightsFrom, lastFrom]
  split
  · next hgt =>
    rw [gt_iff_lt, UInt32.lt_iff_toNat_lt] at hgt
    rw [UInt32.toNat_sub_of_le _ _ (UInt32.le_iff_toNat_le.mpr hgt.le)]
    omega
  · next hle =>
    rw [gt_iff_lt, UInt32.lt_iff_toNat_lt] at hle
    show height.toNat - 0 ≤ n.toNat
    omega

/-- The blocks that the loop over all heights gets. -/
theorem filterMap_heightsFrom (c : Chain) :
    ((heightsFrom 0 c.height).map c.store).filterMap id = c.visited := by
  rw [heightsFrom, List.map_map, List.filterMap_map, Chain.visited, List.range_eq_range']
  rfl

/-- Both tallies are those of the charts. -/
theorem tallyOf_store {ν : Type} (zero : ν) (add : ν → Block → ν) (now : UInt64) (c : Chain) :
    tallyOf zero add now ((heightsFrom 0 c.height).map c.store) = hourTally zero add now c := by
  rw [tallyOf, filterMap_heightsFrom, hourTally]

theorem answer_recentTxReading (now secs : UInt64) (c : Chain) (n : ℕ) (recent : UInt64) :
    (recentTxReading now secs n recent).answer c.store = recentTx now secs c n recent := by
  induction n generalizing recent with
  | zero => rfl
  | succ n ih =>
    rw [recentTxReading, recentTx, Program.answer, Chain.store]
    cases c.getBlock (UInt32.ofNat n) with
    | none => exact ih recent
    | some block =>
      dsimp only
      split
      · rfl
      · exact ih _

/-- **A handler that is not interrupted answers with the charts.** -/
theorem answer_chartsReading (fuel : ℕ) (times : ChartTimes) (c : Chain) :
    (chartsReading fuel times c.height).answer c.store = chartsJson fuel times c := by
  have hover : (blocksOverTimeReading fuel times.overTime c.height).answer c.store =
      blocksOverTime fuel times.overTime c := by
    unfold blocksOverTimeReading blocksOverTime hourCounts
    split
    · rw [Program.answer_bind, Program.answer_collect, Program.answer_pure, tallyOf_store]
    · rfl
  have hper : (txPerBlockReading times.perBlock c.height).answer c.store =
      txPerBlock times.perBlock c := by
    unfold txPerBlockReading txPerBlock
    rw [Program.answer_bind, Program.answer_collect, Program.answer_pure]
    rfl
  have hsizes : (avgBlockSizeReading fuel times.sizes c.height).answer c.store =
      avgBlockSize fuel times.sizes c := by
    unfold avgBlockSizeReading avgBlockSize hourSizes
    split
    · rw [Program.answer_bind, Program.answer_collect, Program.answer_pure, tallyOf_store]
    · rfl
  have hactivity : (networkActivityReading times.activity c.height).answer c.store =
      networkActivity times.activity c := by
    unfold networkActivityReading networkActivity
    rw [Program.answer_bind, Program.answer_each]
    refine List.map_congr_left fun w _ => ?_
    rw [Program.answer_bind, Program.answer_pure, answer_recentTxReading]
  rw [chartsReading, Program.answer_bind, Program.answer_bind, Program.answer_bind,
    Program.answer_bind, Program.answer_pure, hover, hper, hsizes, hactivity]
  rfl

/-! ### What the handler asks for -/

theorem asks_recentTxReading (now secs : UInt64) {height : UInt32} (store : UInt32 → Option Block)
    {n : ℕ} (hn : n ≤ height.toNat) (recent : UInt64) :
    (recentTxReading now secs n recent).Asks (· < height) store := by
  induction n generalizing recent with
  | zero => trivial
  | succ n ih =>
    have hlt := height.toNat_lt
    refine ⟨?_, ?_⟩
    · show UInt32.ofNat n < height
      rw [UInt32.lt_iff_toNat_lt, UInt32.toNat_ofNat', Nat.mod_eq_of_lt (by omega)]
      exact hn
    · cases store (UInt32.ofNat n) with
      | none => exact ih (Nat.le_of_succ_le hn) recent
      | some block =>
        dsimp only
        split
        · trivial
        · exact ih (Nat.le_of_succ_le hn) _

/-- **The handler asks for blocks below the height only.** -/
theorem asks_chartsReading (fuel : ℕ) (times : ChartTimes) (height : UInt32)
    (store : UInt32 → Option Block) :
    (chartsReading fuel times height).Asks (· < height) store := by
  have hcollect : ∀ start : UInt32, (Program.collect (heightsFrom start height) :
      Reading (List (Option Block))).Asks (· < height) store := fun _ =>
    Program.asks_collect store fun _ => mem_heightsFrom
  have hover : (blocksOverTimeReading fuel times.overTime height).Asks (· < height) store := by
    unfold blocksOverTimeReading
    split
    · exact Program.asks_bind.mpr ⟨hcollect 0, trivial⟩
    · trivial
  have hper : (txPerBlockReading times.perBlock height).Asks (· < height) store :=
    Program.asks_bind.mpr ⟨hcollect _, trivial⟩
  have hsizes : (avgBlockSizeReading fuel times.sizes height).Asks (· < height) store := by
    unfold avgBlockSizeReading
    split
    · exact Program.asks_bind.mpr ⟨hcollect 0, trivial⟩
    · trivial
  have hactivity : (networkActivityReading times.activity height).Asks (· < height) store := by
    refine Program.asks_bind.mpr ⟨hcollect _, Program.asks_each fun w _ => ?_⟩
    exact Program.asks_bind.mpr ⟨asks_recentTxReading _ _ store le_rfl 0, trivial⟩
  rw [chartsReading, Program.asks_bind, Program.asks_bind, Program.asks_bind, Program.asks_bind]
  exact ⟨hover, hper, hsizes, hactivity, trivial⟩

theorem calls_recentTxReading_le (now secs : UInt64) (store : UInt32 → Option Block) (n : ℕ)
    (recent : UInt64) : (recentTxReading now secs n recent).calls store ≤ n := by
  induction n generalizing recent with
  | zero => exact Nat.zero_le _
  | succ n ih =>
    rw [recentTxReading, Program.calls]
    refine Nat.succ_le_succ ?_
    cases store (UInt32.ofNat n) with
    | none => exact ih recent
    | some block =>
      dsimp only
      split
      · exact Nat.zero_le _
      · exact ih _

/-- **The handler makes at most five calls for each block**, and thirty more. -/
theorem calls_chartsReading_le (fuel : ℕ) (times : ChartTimes) (height : UInt32)
    (store : UInt32 → Option Block) :
    (chartsReading fuel times height).calls store ≤ 5 * height.toNat + 30 := by
  have hall : (Program.collect (heightsFrom 0 height) :
      Reading (List (Option Block))).calls store ≤ height.toNat :=
    (Program.calls_collect_le store _).trans (by
      rw [length_heightsFrom]
      exact Nat.sub_le _ _)
  have hlast : ∀ n : UInt32, (Program.collect (heightsFrom (lastFrom n height) height) :
      Reading (List (Option Block))).calls store ≤ n.toNat := fun n =>
    (Program.calls_collect_le store _).trans (length_heightsFrom_lastFrom n height)
  have hover : (blocksOverTimeReading fuel times.overTime height).calls store ≤ height.toNat := by
    unfold blocksOverTimeReading
    split
    · rw [Program.calls_bind, Program.calls_pure]
      exact hall
    · exact Nat.zero_le _
  have hper : (txPerBlockReading times.perBlock height).calls store ≤ 20 := by
    rw [txPerBlockReading, Program.calls_bind, Program.calls_pure]
    exact hlast 20
  have hsizes : (avgBlockSizeReading fuel times.sizes height).calls store ≤ height.toNat := by
    unfold avgBlockSizeReading
    split
    · rw [Program.calls_bind, Program.calls_pure]
      exact hall
    · exact Nat.zero_le _
  have hactivity : (networkActivityReading times.activity height).calls store ≤
      10 + 3 * height.toNat := by
    rw [networkActivityReading, Program.calls_bind]
    refine Nat.add_le_add (hlast 10) (Program.calls_each_le fun w _ => ?_)
    rw [Program.calls_bind, Program.calls_pure]
    exact calls_recentTxReading_le _ _ store _ 0
  rw [chartsReading, Program.calls_bind, Program.calls_bind, Program.calls_bind,
    Program.calls_bind, Program.calls_pure]
  omega

/-! ### A handler that is interrupted -/

/-- A node with its threads, and a handler of `/api/charts` that has read the height. -/
structure Charting where
  node : Threads
  reading : Option (Reading ChartsJson) := none

/-- A step of the other threads, or a call of the handler. -/
inductive ChartingEvent
  | node (e : Event)
  | height (times : ChartTimes)
  | getBlock

def ChartingEvent.isCall : ChartingEvent → Bool
  | .getBlock => true
  | .node _ | .height _ => false

def stepCharting (S : Sodium) (fuel : ℕ) : ChartingEvent → Charting → Except String Charting
  | .node e, s => (stepThreads S e s.node).map fun node => { s with node := node }
  | .height times, s =>
    match s.reading with
    | none => .ok { s with reading := some (chartsReading fuel times s.node.chain.height) }
    | some _ => .error "the handler has read the height"
  | .getBlock, s =>
    match s.reading with
    | some (.ask h next) => .ok { s with reading := some (next (s.node.chain.getBlock h)) }
    | some (.done _) | none => .error "no call is due"

/-- A step of the threads appends blocks only. -/
theorem blocks_prefix_stepThreads {s s' : Threads} {e : Event}
    (h : stepThreads S e s = .ok s') : s.chain.blocks <+: s'.chain.blocks := by
  rcases blocks_stepThreads h with ⟨hsame, -⟩ | ⟨-, blk, hgrown, -⟩
  · rw [hsame]
  · rw [hgrown]
    exact List.prefix_append _ _

/-- The height of a node is at most the number of its blocks. -/
theorem height_le_of_interleaved {guard : Chain → Op → Prop} {allowed : Threads → Event → Prop}
    {s : Threads} (h : Interleaved S guard allowed s) :
    s.chain.height.toNat ≤ s.chain.blocks.length := by
  refine Transition.Reachable.rule
    (I := fun t : Threads => t.chain.height.toNat ≤ t.chain.blocks.length) ?_ ?_ h
  · intro t ht
    rw [(base_of_reachable ht.1).height, UInt32.toNat_ofNat']
    exact Nat.mod_le _ _
  · intro t e t' _ hle _ hstep
    rcases blocks_stepThreads hstep with ⟨hblocks, hheight⟩ | ⟨-, blk, hblocks, hheight⟩
    · rw [hblocks, hheight]
      exact hle
    · rw [hblocks, hheight, List.length_append, UInt32.toNat_add]
      exact (Nat.mod_le _ _).trans (Nat.add_le_add_right hle 1)

/-- Below its height, a chain that has grown gives the blocks that it gave. -/
theorem store_of_prefix {c c' : Chain} (hheight : c.height.toNat ≤ c.blocks.length)
    (hpre : c.blocks <+: c'.blocks) {h : UInt32} (hh : h < c.height) : c'.store h = c.store h := by
  rw [UInt32.lt_iff_toNat_lt] at hh
  obtain ⟨more, hmore⟩ := hpre
  rw [Chain.store, Chain.getBlock, ← hmore, List.getElem?_append_left (by omega)]
  rfl

/-- The handler has `p` still to do; from there it comes to the charts of the chain `c`. -/
structure Pending (fuel : ℕ) (times : ChartTimes) (c : Chain) (s : Charting)
    (p : Reading ChartsJson) : Prop where
  reading : s.reading = some p
  comesTo : p.ComesTo (· < c.height) c.store (chartsJson fuel times c)
  grown : c.blocks <+: s.node.chain.blocks

/-- **A step brings the handler one call further, or leaves it where it is.** -/
theorem Pending.step {fuel : ℕ} {times : ChartTimes} {c : Chain} {s s' : Charting}
    {p : Reading ChartsJson} (h : Pending fuel times c s p)
    (hheight : c.height.toNat ≤ c.blocks.length) {e : ChartingEvent}
    (hstep : stepCharting S fuel e s = .ok s') :
    ∃ p', Pending fuel times c s' p' ∧
      p'.calls c.store + (if e.isCall then 1 else 0) = p.calls c.store := by
  cases e with
  | node e =>
    dsimp only [stepCharting] at hstep
    cases hnode : stepThreads S e s.node with
    | error what =>
      rw [hnode] at hstep
      cases hstep
    | ok node =>
      rw [hnode] at hstep
      cases hstep
      exact ⟨p, ⟨h.reading, h.comesTo, h.grown.trans (blocks_prefix_stepThreads hnode)⟩, rfl⟩
  | height times' =>
    dsimp only [stepCharting] at hstep
    rw [h.reading] at hstep
    cases hstep
  | getBlock =>
    dsimp only [stepCharting] at hstep
    rw [h.reading] at hstep
    cases p with
    | done charts => cases hstep
    | ask i next =>
      cases hstep
      have hagree : ∀ h' < c.height, s.node.chain.store h' = c.store h' := fun _ hlt =>
        store_of_prefix hheight h.grown hlt
      obtain ⟨hcomes, hcalls⟩ := h.comesTo.next hagree
      exact ⟨next (s.node.chain.store i), ⟨rfl, hcomes, h.grown⟩, hcalls⟩

/-- The same for any number of steps. -/
theorem Pending.exec {fuel : ℕ} {times : ChartTimes} {c : Chain} {s s' : Charting}
    {p : Reading ChartsJson} (h : Pending fuel times c s p)
    (hheight : c.height.toNat ≤ c.blocks.length) {events : List ChartingEvent}
    (hrun : Transition.exec (stepCharting S fuel) events s = .ok s') :
    ∃ p', Pending fuel times c s' p' ∧
      p'.calls c.store + events.countP ChartingEvent.isCall = p.calls c.store := by
  induction events generalizing s p with
  | nil =>
    cases hrun
    exact ⟨p, h, rfl⟩
  | cons e events ih =>
    obtain ⟨t, ht, hrest⟩ := Transition.exec_cons_eq_ok.mp hrun
    obtain ⟨p₁, h₁, hone⟩ := h.step hheight ht
    obtain ⟨p', h', hcalls⟩ := ih h₁ hrest
    refine ⟨p', h', ?_⟩
    rw [List.countP_cons]
    omega

/-- **An interrupted handler answers as of one moment**: whatever the other threads do between its
calls, it is done after a number of calls that was settled when it read the height, and answers
with the charts of the chain of that moment. -/
theorem charts_snapshot {guard : Chain → Op → Prop} {t : Threads}
    (h : Interleaved S guard anyEvent t) (fuel : ℕ) (times : ChartTimes) :
    ∃ calls ≤ 5 * t.chain.height.toNat + 30, ∀ events s,
      Transition.exec (stepCharting S fuel) (.height times :: events) ⟨t, none⟩ = .ok s →
        events.countP ChartingEvent.isCall ≤ calls ∧
        (events.countP ChartingEvent.isCall = calls ↔ ∃ charts, s.reading = some (.done charts)) ∧
        ∀ charts, s.reading = some (.done charts) → charts = chartsJson fuel times t.chain := by
  have hheight := height_le_of_interleaved h
  refine ⟨_, calls_chartsReading_le fuel times t.chain.height t.chain.store, ?_⟩
  intro events s hrun
  obtain ⟨s₁, hread, hrest⟩ := Transition.exec_cons_eq_ok.mp hrun
  cases hread
  have hpending : Pending fuel times t.chain
      ⟨t, some (chartsReading fuel times t.chain.height)⟩
      (chartsReading fuel times t.chain.height) :=
    ⟨rfl, ⟨answer_chartsReading fuel times t.chain, asks_chartsReading fuel times _ _⟩,
      List.prefix_rfl⟩
  obtain ⟨p, hp, hcalls⟩ := hpending.exec hheight hrest
  refine ⟨by omega, ?_, ?_⟩
  · constructor
    · intro hall
      cases p with
      | done charts => exact ⟨charts, hp.reading⟩
      | ask i next =>
        rw [Program.calls] at hcalls
        omega
    · intro hex
      obtain ⟨charts, hdone⟩ := hex
      rw [hp.reading] at hdone
      obtain rfl := Option.some.inj hdone
      rw [Program.calls] at hcalls
      omega
  · intro charts hdone
    have hcomes := hp.comesTo
    rw [hp.reading] at hdone
    obtain rfl := Option.some.inj hdone
    exact hcomes.eq

namespace Sample

/-- Ten minutes after the genesis block. -/
def chartTimes : ChartTimes := ⟨1781545965, 1781545965, 1781545965, 1781545965⟩

/-- The second block is added while the handler reads. -/
def chartEvents : List ChartingEvent :=
  (checks frame₂ 2).map .node ++ [.getBlock, .node (.call [])] ++ List.replicate 13 .getBlock

end Sample

/-- The handler has its answer. -/
def Charting.isDone (s : Charting) : Bool :=
  match s.reading with
  | some (.done _) => true
  | some (.ask _ _) | none => false

/-- The handler at work in the sample run. -/
theorem charts_snapshot_grown : ∃ t s charts,
    runThreads Sample.sodium (Sample.checks Sample.frame₁ 3) = .ok t ∧
    Transition.exec (stepCharting Sample.sodium 25)
      (.height Sample.chartTimes :: Sample.chartEvents) ⟨t, none⟩ = .ok s ∧
    (t.chain.blocks.length = 2 ∧ s.node.chain.blocks.length = 3) ∧
    s.reading = some (.done charts) ∧ charts = chartsJson 25 Sample.chartTimes t.chain := by
  obtain ⟨t, hrun, hreach, hok⟩ := exists_interleaved (S := Sample.sodium) anyOp
    (Sample.checks Sample.frame₁ 3)
    (fun t => Transition.Ok
      (fun s => (t.chain.blocks.length = 2 ∧ s.node.chain.blocks.length = 3) ∧ s.isDone = true)
      (Transition.exec (stepCharting Sample.sodium 25)
        (.height Sample.chartTimes :: Sample.chartEvents) ⟨t, none⟩)) (by decide +kernel)
  obtain ⟨s, hexec, hlen, hdone⟩ := Transition.ok_iff.mp hok
  obtain ⟨_, -, hall⟩ := charts_snapshot hreach 25 Sample.chartTimes
  obtain ⟨-, -, hcharts⟩ := hall Sample.chartEvents s hexec
  unfold Charting.isDone at hdone
  split at hdone
  · next charts hreading =>
    exact ⟨t, s, charts, hrun, hexec, hlen, hreading, hcharts charts hreading⟩
  · cases hdone
  · cases hdone

end Axis
