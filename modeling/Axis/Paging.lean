import Axis.Explorer

/-!
# Paging through the chain

`/api/blocks` of `src/web.cpp`.  A page is read with two calls of the chain: its blocks, and then
the height, and anything may happen between the two.  A client that asks for the next page each
time, from the number of blocks it has on, gets every block once, while the node goes on with
failing writes and restarts.

## Main definitions

* `Chain.getBlocks`, `apiBlocks` — the handler.
* `Crawl`, `stepCrawl` — a client and a node that goes on.

## Main results

* `getBlocks_eq` — a page is a slice of the chain.
* `crawl_exact` — **paging shows the chain**, without a gap and without a repetition.
-/

namespace Axis

open Digits Positional

variable {S : Sodium}

/-! ### Pages -/

def kDefaultBlockCount : UInt32 := 10

def kMaxBlockCount : UInt32 := 100

/-- `get_blocks`, with positions of 32 bits. -/
def Chain.getBlocks (start count : UInt32) (c : Chain) : List Block :=
  if c.blocks.length ≤ start.toNat ∨ count = 0 then []
  else
    let available := UInt32.ofNat (c.blocks.length - start.toNat)
    let last := start + min count available
    (List.range (last.toNat - start.toNat)).filterMap fun i => c.blocks[start.toNat + i]?

structure BlocksJson where
  blocks : List BlockSummaryJson
  total : UInt32
  deriving DecidableEq

/-- The parameters of a request, as far as they are there. -/
structure BlocksQuery where
  start : Option Bytes
  count : Option Bytes
  deriving DecidableEq

/-- A parameter that may be missing. -/
def paramU32 (default : UInt32) : Option Bytes → Option UInt32
  | none => some default
  | some text => parseU32 text

/-- `/api/blocks`; the height is read after the blocks. -/
def apiBlocks (query : BlocksQuery) (c c' : Chain) : Response BlocksJson :=
  match paramU32 0 query.start with
  | none => .error 400 "start must be an unsigned integer"
  | some start =>
    match paramU32 kDefaultBlockCount query.count with
    | none => .error 400 "count must be an unsigned integer"
    | some count =>
      let blocks := c.getBlocks start (min count kMaxBlockCount)
      .json 200 {
        blocks := blocks.zipIdx.map fun e => blockSummaryJson e.1 (start + UInt32.ofNat e.2)
        total := c'.height }

theorem toNat_min (a b : UInt32) : (min a b).toNat = min a.toNat b.toNat := by
  show (if a ≤ b then a else b).toNat = _
  split
  · next h => rw [Nat.min_eq_left (UInt32.le_iff_toNat_le.mp h)]
  · next h =>
    rw [UInt32.le_iff_toNat_le] at h
    rw [Nat.min_eq_right (by omega)]

/-- The elements of a list from a position on. -/
theorem filterMap_range_getElem? {α : Type} (l : List α) (k n : ℕ) :
    (List.range n).filterMap (fun i => l[k + i]?) = (l.drop k).take n := by
  induction n with
  | zero => rfl
  | succ n ih =>
    rw [List.range_succ, List.filterMap_append, ih, List.take_add_one, List.getElem?_drop]
    cases hget : l[k + n]? <;> simp [hget]

/-- **A page is a slice of the chain**, below `2 ^ 32` blocks. -/
theorem getBlocks_eq {c : Chain} (hshort : c.blocks.length < 2 ^ 32) (start count : UInt32) :
    c.getBlocks start count = (c.blocks.drop start.toNat).take count.toNat := by
  unfold Chain.getBlocks
  split
  · next hnone =>
    rcases hnone with hstart | hcount
    · rw [List.drop_eq_nil_of_le hstart, List.take_nil]
    · rw [hcount]
      rfl
  · next hsome =>
    rw [not_or, Nat.not_le] at hsome
    have havailable : (UInt32.ofNat (c.blocks.length - start.toNat)).toNat =
        c.blocks.length - start.toNat := by
      rw [UInt32.toNat_ofNat', Nat.mod_eq_of_lt (by omega)]
    have hlast : (start + min count (UInt32.ofNat (c.blocks.length - start.toNat))).toNat =
        start.toNat + min count.toNat (c.blocks.length - start.toNat) := by
      rw [UInt32.toNat_add, toNat_min, havailable, Nat.mod_eq_of_lt (by omega)]
    dsimp only
    rw [hlast, Nat.add_sub_cancel_left, filterMap_range_getElem?, ← List.length_drop,
      ← List.take_eq_take_min]

/-- What a list of blocks shows of a chain. -/
def shownSummaries (blocks : List Block) : List BlockSummaryJson :=
  blocks.zipIdx.map fun e => blockSummaryJson e.1 (UInt32.ofNat e.2)

@[simp] theorem length_shownSummaries (blocks : List Block) :
    (shownSummaries blocks).length = blocks.length := by
  rw [shownSummaries, List.length_map, List.length_zipIdx]

/-- Blocks that follow others are shown with the heights that follow. -/
theorem shownSummaries_append (blocks page : List Block) :
    shownSummaries (blocks ++ page) = shownSummaries blocks ++
      page.zipIdx.map fun e => blockSummaryJson e.1 (UInt32.ofNat blocks.length +
        UInt32.ofNat e.2) := by
  rw [shownSummaries, List.zipIdx_append, List.map_append, Nat.zero_add,
    List.zipIdx_eq_map_add (l := page), List.map_map]
  congr 1
  refine List.map_congr_left fun e _ => ?_
  show blockSummaryJson e.1 (UInt32.ofNat (blocks.length + e.2)) = _
  rw [UInt32.ofNat_add]

/-- What is answered to a request for the blocks from a position on. -/
theorem apiBlocks_eq {query : BlocksQuery} {c : Chain} (c' : Chain)
    (hshort : c.blocks.length < 2 ^ 32) {start : UInt32}
    (hstart : paramU32 0 query.start = some start)
    (hle : start.toNat ≤ c.blocks.length) {count : UInt32}
    (hcount : paramU32 kDefaultBlockCount query.count = some count) :
    ∃ body, apiBlocks query c c' = .json 200 body ∧ body.total = c'.height ∧
      shownSummaries (c.blocks.take start.toNat) ++ body.blocks =
        shownSummaries (c.blocks.take (start.toNat + min count.toNat 100)) := by
  have hmax : (min count kMaxBlockCount).toNat = min count.toNat 100 := toNat_min _ _
  have hlen : UInt32.ofNat (c.blocks.take start.toNat).length = start := by
    rw [List.length_take, Nat.min_eq_left hle]
    exact UInt32.ofNat_toNat
  unfold apiBlocks
  rw [hstart, hcount]
  refine ⟨_, rfl, rfl, ?_⟩
  dsimp only
  rw [getBlocks_eq hshort, hmax, List.take_add, shownSummaries_append, hlen]

/-! ### Paging -/

/-- A node, and a client with the summaries it has got, the last total it was told, and the
request that is being answered, with the chain its blocks were read from. -/
structure Crawl where
  chain : Chain
  collected : List BlockSummaryJson := []
  total : UInt32 := 0
  pending : Option (BlocksQuery × Chain) := none

/-- The node does something, or the handler of the client makes its first or its second call. -/
inductive CrawlEvent
  | attempt (a : Attempt)
  | getBlocks (query : BlocksQuery)
  | height

/-- What a handler is doing does not survive a restart. -/
def Attempt.survivor {α : Type} : Attempt → Option α → Option α
  | .restart, _ => none
  | _, pending => pending

theorem Attempt.survivor_eq {α : Type} (a : Attempt) (pending : Option α) :
    a.survivor pending = pending ∨ a.survivor pending = none := by
  cases a with
  | restart => exact Or.inr rfl
  | createTx payload status | postTx raw status | createBlock payload io => exact Or.inl rfl

def stepCrawl (S : Sodium) : CrawlEvent → Crawl → Except String Crawl
  | .attempt a, s =>
    (attempt S a s.chain).map fun c => { s with chain := c, pending := a.survivor s.pending }
  | .getBlocks query, s =>
    match s.pending with
    | some _ => .error "a request is being answered"
    | none => .ok { s with pending := some (query, s.chain) }
  | .height, s =>
    match s.pending with
    | none => .error "no request is being answered"
    | some (query, c) =>
      match apiBlocks query c s.chain with
      | .error _ _ => .ok { s with pending := none }
      | .json _ body => .ok {
          s with collected := s.collected ++ body.blocks, total := body.total, pending := none }

/-- The request is for the blocks that follow those the client has. -/
def BlocksQuery.Next (query : BlocksQuery) (s : Crawl) : Prop :=
  (paramU32 0 query.start).map UInt32.toNat = some s.collected.length

/-- The client asks for what follows, and the chain stays below `2 ^ 32` blocks. -/
def paging (s : Crawl) : CrawlEvent → Prop
  | .attempt _ => s.chain.blocks.length + 1 < 2 ^ 32
  | .getBlocks query => query.Next s
  | .height => True

instance (s : Crawl) (query : BlocksQuery) : Decidable (query.Next s) :=
  inferInstanceAs (Decidable (_ = _))

instance (s : Crawl) : (e : CrawlEvent) → Decidable (paging s e)
  | .attempt _ => inferInstanceAs (Decidable (_ < _))
  | .getBlocks query => inferInstanceAs (Decidable (query.Next s))
  | .height => inferInstanceAs (Decidable True)

abbrev Crawling (S : Sodium) : Crawl → Prop :=
  Transition.Reachable (fun s => s = { chain := genesisChain S }) paging (stepCrawl S)

/-- The client has the first blocks of the chain, and is getting the following ones. -/
structure Crawled (S : Sodium) (s : Crawl) : Prop where
  lasting : Lasting S s.chain
  short : s.chain.blocks.length < 2 ^ 32
  collected : s.collected = shownSummaries (s.chain.blocks.take s.collected.length)
  total : s.collected.length ≤ s.total.toNat
  pending : ∀ query c, s.pending = some (query, c) →
    c.blocks <+: s.chain.blocks ∧ s.collected.length ≤ c.blocks.length ∧ query.Next s

/-- The client does not have more blocks than there are. -/
theorem Crawled.le {s : Crawl} (h : Crawled S s) :
    s.collected.length ≤ s.chain.blocks.length := by
  have hlen := congrArg List.length h.collected
  rw [length_shownSummaries, List.length_take] at hlen
  omega

theorem crawled_start : Crawled S { chain := genesisChain S } where
  lasting := lasting_genesisChain
  short := by
    show 1 < 2 ^ 32
    norm_num
  collected := rfl
  total := Nat.zero_le _
  pending query c h := by cases h

/-- A chain that goes on keeps what the client has. -/
theorem Crawled.chain {s : Crawl} (h : Crawled S s) {c : Chain} (hlast : Lasting S c)
    (hshort : c.blocks.length < 2 ^ 32) (hfront : s.chain.blocks <+: c.blocks)
    {pending : Option (BlocksQuery × Chain)} (hpending : pending = s.pending ∨ pending = none) :
    Crawled S { s with chain := c, pending := pending } where
  lasting := hlast
  short := hshort
  collected := by
    obtain ⟨rest, hrest⟩ := hfront
    show s.collected = shownSummaries (c.blocks.take s.collected.length)
    rw [← hrest, List.take_append_of_le_length h.le]
    exact h.collected
  total := h.total
  pending query c' heq := by
    rcases hpending with rfl | rfl
    · obtain ⟨hold, hle, hnext⟩ := h.pending query c' heq
      exact ⟨hold.trans hfront, hle, hnext⟩
    · cases heq

/-- What the second call of the handler makes of what the client has. -/
theorem Crawled.height {s : Crawl} (h : Crawled S s) {query : BlocksQuery} {c : Chain}
    (hpending : s.pending = some (query, c)) :
    (paramU32 kDefaultBlockCount query.count = none ∧
      stepCrawl S .height s = .ok { s with pending := none }) ∨
    ∃ count page, paramU32 kDefaultBlockCount query.count = some count ∧
      stepCrawl S .height s = .ok {
        s with collected := s.collected ++ page, total := s.chain.height, pending := none } ∧
      s.collected ++ page =
        shownSummaries (c.blocks.take (s.collected.length + min count.toNat 100)) := by
  obtain ⟨hfront, hle, hnext⟩ := h.pending query c hpending
  obtain ⟨start, hstart, hlen⟩ := Option.map_eq_some_iff.mp hnext
  have hshort : c.blocks.length < 2 ^ 32 := lt_of_le_of_lt hfront.length_le h.short
  cases hcount : paramU32 kDefaultBlockCount query.count with
  | none =>
    refine Or.inl ⟨rfl, ?_⟩
    simp only [stepCrawl, hpending, apiBlocks, hstart, hcount]
  | some count =>
    refine Or.inr ⟨count, ?_⟩
    obtain ⟨body, hbody, htotal, hblocks⟩ :=
      apiBlocks_eq s.chain hshort hstart (by omega) hcount
    refine ⟨body.blocks, rfl, ?_, ?_⟩
    · simp only [stepCrawl, hpending, hbody, htotal]
    · -- the client has the blocks in front of the page
      obtain ⟨rest, hrest⟩ := hfront
      have hfirst : s.collected = shownSummaries (c.blocks.take start.toNat) := by
        have hcollected := h.collected
        rw [← hrest, List.take_append_of_le_length hle] at hcollected
        rw [hlen]
        exact hcollected
      rw [← hlen]
      exact hfirst ▸ hblocks

/-- **The step lemma.** -/
theorem Crawled.step {s s' : Crawl} (h : Crawled S s) {e : CrawlEvent} (hg : paging s e)
    (hstep : stepCrawl S e s = .ok s') : Crawled S s' := by
  cases e with
  | attempt a =>
    obtain ⟨c, hc, ⟨hlast, -⟩, hfront, hgrow⟩ := h.lasting.step h.short a
    have hshort : s.chain.blocks.length + 1 < 2 ^ 32 := hg
    rw [stepCrawl, hc] at hstep
    cases hstep
    exact h.chain hlast (by omega) hfront (a.survivor_eq s.pending)
  | getBlocks query =>
    rw [stepCrawl] at hstep
    split at hstep
    · cases hstep
    · cases hstep
      refine ⟨h.lasting, h.short, h.collected, h.total, fun query' c heq => ?_⟩
      obtain ⟨rfl, rfl⟩ := Prod.mk.inj (Option.some.inj heq)
      exact ⟨List.prefix_rfl, h.le, hg⟩
  | height =>
    cases hpending : s.pending with
    | none =>
      rw [stepCrawl, hpending] at hstep
      cases hstep
    | some p =>
      obtain ⟨query, c⟩ := p
      rcases h.height hpending with ⟨-, heq⟩ | ⟨count, page, -, heq, hpage⟩
      · rw [heq] at hstep
        cases hstep
        exact ⟨h.lasting, h.short, h.collected, h.total, fun _ _ hnone => by cases hnone⟩
      · rw [heq] at hstep
        cases hstep
        obtain ⟨hfront, -, -⟩ := h.pending query c hpending
        have hlen := congrArg List.length hpage
        rw [length_shownSummaries, List.length_take] at hlen
        have hheight : s.chain.height.toNat = s.chain.blocks.length := by
          rw [h.lasting.height, UInt32.toNat_ofNat', Nat.mod_eq_of_lt h.short]
        have hle := hfront.length_le
        refine ⟨h.lasting, h.short, ?_, ?_, fun _ _ hnone => by cases hnone⟩
        · -- what was read is still the front of the chain
          obtain ⟨rest, hrest⟩ := hfront
          show s.collected ++ page =
            shownSummaries (s.chain.blocks.take (s.collected ++ page).length)
          rw [← hrest, List.take_append_of_le_length (by omega), hlen, hpage,
            ← List.take_eq_take_min]
        · show (s.collected ++ page).length ≤ s.chain.height.toNat
          omega

/-- **Paging shows the chain**, in any run of the node with failing writes and restarts that
stays below `2 ^ 32` blocks: the client has the first blocks of the chain, each once and with
its height, and not more than the total it was told.  Whatever the node does between the two
calls of the handler, the page goes on where the client is, is as long as was asked for, up to
the maximum and to the end of the chain of the first call, and comes with the height of the
second. -/
theorem crawl_exact {s : Crawl} (h : Crawling S s) :
    s.collected = shownSummaries (s.chain.blocks.take s.collected.length) ∧
    s.collected.length ≤ s.total.toNat ∧
    ∀ query c, s.pending = some (query, c) → c.blocks <+: s.chain.blocks ∧
      ((paramU32 kDefaultBlockCount query.count = none ∧
        stepCrawl S .height s = .ok { s with pending := none }) ∨
      ∃ count s', paramU32 kDefaultBlockCount query.count = some count ∧
        stepCrawl S .height s = .ok s' ∧
        s'.collected = shownSummaries (c.blocks.take (s.collected.length + min count.toNat 100)) ∧
        s'.total.toNat = s.chain.blocks.length) := by
  have hI : Crawled S s := by
    refine Transition.Reachable.rule (I := Crawled S) ?_ ?_ h
    · rintro s rfl
      exact crawled_start
    · exact fun s e s' _ hI hg hstep => hI.step hg hstep
  refine ⟨hI.collected, hI.total, fun query c hpending => ?_⟩
  refine ⟨(hI.pending query c hpending).1, ?_⟩
  rcases hI.height hpending with hbad | ⟨count, page, hcount, hstep, hpage⟩
  · exact Or.inl hbad
  · refine Or.inr ⟨count, _, hcount, hstep, hpage, ?_⟩
    show s.chain.height.toNat = s.chain.blocks.length
    rw [hI.lasting.height, UInt32.toNat_ofNat', Nat.mod_eq_of_lt hI.short]

namespace Sample

/-- Two pages of one block, and a block that is added between the two calls of the first. -/
def pages : List CrawlEvent :=
  [.attempt (.createBlock frame₁ []), .getBlocks ⟨none, some (padDec 1 1)⟩,
    .attempt (.createBlock frame₂ []), .height, .getBlocks ⟨some (padDec 3 1), some (padDec 1 1)⟩]

end Sample

/-- The client of the sample run, before the answer to its second request. -/
theorem crawl_exact_pages : ∃ s, Transition.exec (stepCrawl Sample.sodium) Sample.pages
      { chain := genesisChain Sample.sodium } = .ok s ∧
    (s.collected.length = 1 ∧ s.total = 3 ∧ s.pending.isSome) ∧
    s.collected = shownSummaries (s.chain.blocks.take s.collected.length) ∧
    s.collected.length ≤ s.total.toNat ∧
    ∀ query c, s.pending = some (query, c) → c.blocks <+: s.chain.blocks ∧
      ((paramU32 kDefaultBlockCount query.count = none ∧
        stepCrawl Sample.sodium .height s = .ok { s with pending := none }) ∨
      ∃ count s', paramU32 kDefaultBlockCount query.count = some count ∧
        stepCrawl Sample.sodium .height s = .ok s' ∧
        s'.collected = shownSummaries (c.blocks.take (s.collected.length + min count.toNat 100)) ∧
        s'.total.toNat = s.chain.blocks.length) := by
  have hstart : Crawling Sample.sodium { chain := genesisChain Sample.sodium } := .start rfl
  obtain ⟨s, hrun, hreach, hs⟩ := Transition.exists_of_passes hstart
    (show Transition.Passes paging (stepCrawl Sample.sodium)
      (fun s => s.collected.length = 1 ∧ s.total = 3 ∧ s.pending.isSome) Sample.pages _ by
        decide +kernel)
  exact ⟨s, hrun, hs, crawl_exact hreach⟩

end Axis
