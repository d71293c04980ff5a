import Axis.Threads

/-!
# Reads of the tip

`/api/tip` reads the height and then the tip, `/api/status` the height, the difficulty
and then the hash of the tip, each under a lock of its own.  A block that is added in
between makes the height one of the old chain and the hash one of the new chain.

## Main definitions

* `Request.Consistent` — the answer names the height and the hash of one block.
* `quiet` — the guard of runs that add no block while a handler reads.

## Main results

* `blocks_stepThreads`, `http_stepThreads` — what a step does to the blocks and to the
  requests.
* `reads_consistent` — **in quiet runs every answer is consistent.**
* `reads_torn` — a block between two reads makes both handlers answer otherwise.
-/

namespace Axis

variable {S : Sodium}

/-! ### Answers -/

/-- The answer describes one chain: the hash is that of the block at the height, which
`/api/status` counts from one. -/
def Request.Consistent (blocks : List Block) : Request → Prop
  | .tipReply height (some tip) => blocks[height.toNat]?.map Block.hash = some tip.hash
  | .tipReply _ none => False
  | .tipEmpty => blocks = []
  | .statusReply blockHeight _ tipHash =>
    0 < blockHeight.toNat ∧ blocks[blockHeight.toNat - 1]?.map Block.hash = some tipHash
  | _ => True

instance (blocks : List Block) : (r : Request) → Decidable (r.Consistent blocks)
  | .tipReply _ (some _) => inferInstanceAs (Decidable (_ = _))
  | .tipReply _ none => inferInstanceAs (Decidable False)
  | .tipEmpty => inferInstanceAs (Decidable (_ = _))
  | .statusReply _ _ _ => inferInstanceAs (Decidable (_ ∧ _))
  | .tipHeight | .tipBlock _ | .statusHeight | .statusDifficulty _ | .statusTipHash _ _ =>
    inferInstanceAs (Decidable True)

/-- The handler has read the height and will read more. -/
def Request.reading : Request → Bool
  | .tipBlock _ | .statusDifficulty _ | .statusTipHash _ _ => true
  | _ => false

/-- The next call of the thread adds a block: it is `add_block`, and no write fails. -/
def Phase.Grows (io : List WriteStatus) : Phase → Prop
  | .addBlock blk => ∀ status ∈ io.take ((spending blk.transactions).length + 1), status = .ok
  | _ => False

instance (io : List WriteStatus) : (phase : Phase) → Decidable (phase.Grows io)
  | .addBlock _ => inferInstanceAs (Decidable (∀ _ ∈ _, _))
  | .ready | .poolContains _ _ | .getPoolTx _ _ | .target _ | .tipHash _ | .replied _ | .threw =>
    inferInstanceAs (Decidable False)

/-- No block is added while a handler reads, and heights are read while they fit. -/
def quiet (s : Threads) : Event → Prop
  | .call io => s.tcp.Grows io → ∀ r ∈ s.http, r.reading = false
  | .read _ => s.chain.blocks.length < 2 ^ 32
  | _ => True

instance (s : Threads) : (e : Event) → Decidable (quiet s e)
  | .call _ => inferInstanceAs (Decidable (_ → _))
  | .read _ => inferInstanceAs (Decidable (_ < _))
  | .createTx _ _ | .createBlock _ | .postTx _ _ | .getTip | .getStatus =>
    inferInstanceAs (Decidable True)

/-! ### What a step changes -/

/-- A call of `add_block` that throws leaves the blocks as they were. -/
theorem blocks_addBlock_of_throws {blk : Block} {io : List WriteStatus} {c : Chain} {what : String}
    (h : (c.addBlock blk io).2 = .error what) :
    (c.addBlock blk io).1.blocks = c.blocks ∧ (c.addBlock blk io).1.height = c.height := by
  revert h
  have hloop := blocks_mineTxs blk.transactions io c
  unfold Chain.addBlock
  generalize c.mineTxs blk.transactions io = res at hloop ⊢
  obtain ⟨c', what' | io'⟩ := res
  · exact fun _ => hloop
  · unfold Chain.storeBlock
    dsimp only
    cases io'.headD .ok with
    | ok => exact fun hok => by cases hok
    | error what' written => exact fun _ => hloop

/-- `add_block` appends its block, unless a write fails. -/
theorem blocks_addBlock (blk : Block) (io : List WriteStatus) (c : Chain) :
    ((c.addBlock blk io).1.blocks = c.blocks ∧ (c.addBlock blk io).1.height = c.height) ∨
    (Phase.addBlock blk).Grows io ∧ (c.addBlock blk io).1.blocks = c.blocks ++ [blk] ∧
      (c.addBlock blk io).1.height = c.height + 1 := by
  by_cases hall : (Phase.addBlock blk).Grows io
  · refine Or.inr ⟨hall, ?_⟩
    rw [addBlock_eq hall]
    exact ⟨rfl, rfl⟩
  · have hbad : ∃ status ∈ io.take ((spending blk.transactions).length + 1), status ≠ .ok := by
      simpa [Phase.Grows] using hall
    obtain ⟨what, hthrow⟩ := (addBlock_throws_iff (c := c)).mpr hbad
    exact Or.inl (blocks_addBlock_of_throws hthrow)

/-- A call of the TCP thread appends at most the block it calls `add_block` with. -/
theorem blocks_call {c c' : Chain} {phase phase' : Phase} {io : List WriteStatus}
    (h : call S io c phase = .ok (c', phase')) :
    (c'.blocks = c.blocks ∧ c'.height = c.height) ∨
    phase.Grows io ∧ ∃ blk, c'.blocks = c.blocks ++ [blk] ∧ c'.height = c.height + 1 := by
  cases phase with
  | ready | replied | threw => cases h
  | poolContains | getPoolTx | target | tipHash =>
    dsimp only [call] at h
    split at h
    all_goals cases h
    all_goals exact Or.inl ⟨rfl, rfl⟩
  | addBlock blk =>
    have hadded := blocks_addBlock blk io c
    dsimp only [call] at h
    split at h
    all_goals next heq =>
      cases h
      rw [heq] at hadded
      exact hadded.imp_right fun hgrown => ⟨hgrown.1, blk, hgrown.2⟩

/-- **What a step does to the blocks**: nothing, or the TCP thread adds one. -/
theorem blocks_stepThreads {s s' : Threads} {e : Event} (h : stepThreads S e s = .ok s') :
    (s'.chain.blocks = s.chain.blocks ∧ s'.chain.height = s.chain.height) ∨
    (∃ io, e = .call io ∧ s.tcp.Grows io) ∧
      ∃ blk, s'.chain.blocks = s.chain.blocks ++ [blk] ∧
        s'.chain.height = s.chain.height + 1 := by
  rcases stepThreads_cases h with ⟨hchain, -⟩ | ⟨st, status, -, hchain, -⟩ | ⟨hchain, -, -⟩ |
    ⟨io, rfl, hcall⟩
  · exact Or.inl (by rw [hchain]; exact ⟨rfl, rfl⟩)
  · refine Or.inl ?_
    rw [hchain]
    rcases addTx_cases S st status s.chain with hsame | ⟨-, hadmitted⟩
    · rw [hsame]
      exact ⟨rfl, rfl⟩
    · obtain ⟨poolDb, heq⟩ := fst_admitTx st.tx status s.chain
      rw [hadmitted, heq]
      exact ⟨rfl, rfl⟩
  · exact Or.inl (by rw [hchain]; exact ⟨rfl, rfl⟩)
  · exact (blocks_call hcall).imp_right fun hgrown => ⟨⟨io, rfl, hgrown.1⟩, hgrown.2⟩

/-- **What a step does to the requests**: nothing, a request comes in, or one is read
for. -/
theorem http_stepThreads {s s' : Threads} {e : Event} (h : stepThreads S e s = .ok s') :
    s'.http = s.http ∨
    (s'.chain = s.chain ∧
      (s'.http = s.http ++ [.tipHeight] ∨ s'.http = s.http ++ [.statusHeight])) ∨
    ∃ i r r', e = .read i ∧ r ∈ s.http ∧ r.read s.chain = .ok r' ∧ s'.chain = s.chain ∧
      s'.http = s.http.set i r' := by
  cases e with
  | createTx | createBlock =>
    dsimp only [stepThreads] at h
    split at h
    · cases h
      exact Or.inl rfl
    · cases h
  | call io =>
    dsimp only [stepThreads] at h
    split at h
    · cases h
    · cases h
      exact Or.inl rfl
  | postTx =>
    cases h
    exact Or.inl rfl
  | getTip =>
    cases h
    exact Or.inr (Or.inl ⟨rfl, Or.inl rfl⟩)
  | getStatus =>
    cases h
    exact Or.inr (Or.inl ⟨rfl, Or.inr rfl⟩)
  | read i =>
    dsimp only [stepThreads] at h
    split at h
    · cases h
    next r hr =>
    split at h
    · cases h
    next r' hread =>
    cases h
    exact Or.inr (Or.inr ⟨i, r, r', rfl, List.mem_of_getElem? hr, hread, rfl, rfl⟩)

/-! ### Quiet runs -/

/-- What a handler has read so far is what the chain still is. -/
def Request.Current (blocks : List Block) : Request → Prop
  | .tipBlock height => height.toNat = blocks.length
  | .statusDifficulty blockHeight => blockHeight.toNat = blocks.length
  | .statusTipHash blockHeight _ => blockHeight.toNat = blocks.length
  | r => r.Consistent blocks

theorem Request.Current.consistent {blocks : List Block} {r : Request} (h : r.Current blocks) :
    r.Consistent blocks := by
  cases r with
  | tipBlock | statusDifficulty | statusTipHash => trivial
  | tipHeight | tipEmpty | tipReply | statusHeight | statusReply => exact h

/-- An answer stays consistent when blocks are added. -/
theorem Request.Current.append {blocks : List Block} {r : Request} (h : r.Current blocks)
    (hreading : r.reading = false) (hne : blocks ≠ []) (blk : Block) :
    r.Current (blocks ++ [blk]) := by
  -- a block that is there stays where it is
  have hkeep : ∀ (i : ℕ) (hash : Hash), blocks[i]?.map Block.hash = some hash →
      (blocks ++ [blk])[i]?.map Block.hash = some hash := by
    intro i hash hget
    obtain ⟨b, hb, rfl⟩ := Option.map_eq_some_iff.mp hget
    rw [List.getElem?_append_left (List.getElem?_eq_some_iff.mp hb).1, hb]
    rfl
  cases r with
  | tipBlock | statusDifficulty | statusTipHash => cases hreading
  | tipHeight | statusHeight => trivial
  | tipEmpty => exact absurd h hne
  | tipReply height tip =>
    cases tip with
    | none => exact h
    | some tip => exact hkeep _ _ h
  | statusReply blockHeight difficulty tipHash => exact ⟨h.1, hkeep _ _ h.2⟩

/-- **The next call of a handler** finds what the calls before it found. -/
theorem Request.Current.read {c : Chain} {r r' : Request} (h : r.Current c.blocks)
    (hne : c.blocks ≠ []) (hheight : c.height = UInt32.ofNat c.blocks.length)
    (hlen : c.blocks.length < 2 ^ 32) (hread : r.read c = .ok r') : r'.Current c.blocks := by
  have hpos := List.length_pos_iff.mpr hne
  have hnat : c.height.toNat = c.blocks.length := by
    rw [hheight, UInt32.toNat_ofNat', Nat.mod_eq_of_lt hlen]
  obtain ⟨tip, htip⟩ : ∃ tip, c.blocks.getLast? = some tip :=
    ⟨_, List.getLast?_eq_some_getLast hne⟩
  have hlast : c.blocks[c.blocks.length - 1]? = some tip := by
    rw [← List.getLast?_eq_getElem?, htip]
  cases r with
  | tipEmpty | tipReply | statusReply => cases hread
  | tipHeight =>
    cases hread
    rw [if_neg]
    · exact hnat
    · intro hzero
      rw [hzero] at hnat
      exact hpos.ne hnat
  | tipBlock height =>
    cases hread
    rw [htip]
    show c.blocks[(height - 1).toNat]?.map Block.hash = some tip.hash
    have hsub : (height - 1).toNat = c.blocks.length - 1 := by
      have hle : 1 ≤ height := by
        rw [UInt32.le_iff_toNat_le, h]
        exact hpos
      rw [UInt32.toNat_sub_of_le _ _ hle, h]
      rfl
    rw [hsub, hlast]
    rfl
  | statusHeight =>
    cases hread
    exact hnat
  | statusDifficulty blockHeight =>
    cases hread
    exact h
  | statusTipHash blockHeight difficulty =>
    cases hread
    refine ⟨hpos.trans_eq (Eq.symm h), ?_⟩
    have hheight : blockHeight.toNat = c.blocks.length := h
    rw [hheight, hlast, Chain.tipHash, htip]
    rfl

/-- **HTTP tip reads are consistent in quiet runs**: when no block is added between two
calls of a handler, and heights are read while they fit, every answer names the height
and the hash of one block. -/
theorem reads_consistent {s : Threads} (h : Interleaved S anyOp quiet s) :
    ∀ r ∈ s.http, r.Consistent s.chain.blocks := by
  suffices hinv : s.chain.blocks ≠ [] ∧ s.chain.height = UInt32.ofNat s.chain.blocks.length ∧
      ∀ r ∈ s.http, r.Current s.chain.blocks by
    exact fun r hr => (hinv.2.2 r hr).consistent
  refine Transition.Reachable.rule (I := fun s => s.chain.blocks ≠ [] ∧
    s.chain.height = UInt32.ofNat s.chain.blocks.length ∧
    ∀ r ∈ s.http, r.Current s.chain.blocks) ?_ ?_ h
  · intro s hstart
    obtain ⟨hreach, -, hhttp⟩ := hstart
    have hbase := base_of_reachable hreach
    rw [hhttp]
    exact ⟨hbase.blocks_ne, hbase.height, by simp⟩
  · intro s e s' _ hinv hquiet hstep
    obtain ⟨hne, hheight, hcurrent⟩ := hinv
    rcases http_stepThreads hstep with hhttp | ⟨hchain, hnew⟩ |
      ⟨i, r, r', rfl, hr, hread, hchain, hhttp⟩
    · rw [hhttp]
      rcases blocks_stepThreads hstep with ⟨hblocks, hheight'⟩ |
        ⟨⟨io, rfl, hgrows⟩, blk, hblocks, hheight'⟩
      · rw [hblocks, hheight']
        exact ⟨hne, hheight, hcurrent⟩
      · -- a block is added, and no handler is between its calls
        rw [hblocks, hheight']
        refine ⟨by simp, ?_, fun r hr => (hcurrent r hr).append (hquiet hgrows r hr) hne blk⟩
        rw [hheight, List.length_append, List.length_singleton, UInt32.ofNat_add]
        rfl
    · -- a request starts with nothing read
      rw [hchain]
      refine ⟨hne, hheight, fun r hr => ?_⟩
      rcases hnew with hhttp | hhttp
      all_goals
        rw [hhttp] at hr
        rcases List.mem_append.mp hr with hold | hmem
        · exact hcurrent r hold
        · rw [List.mem_singleton.mp hmem]
          trivial
    · rw [hhttp, hchain]
      refine ⟨hne, hheight, fun r'' hr'' => ?_⟩
      rcases List.mem_or_eq_of_mem_set hr'' with hold | rfl
      · exact hcurrent r'' hold
      · exact (hcurrent r hr).read hne hheight hquiet hread

namespace Sample

/-- Both handlers are asked for the tip. -/
def requests : List Event := [.getTip, .getStatus]

/-- Both handlers read in turn, and the first block comes in afterwards. -/
def untorn : List Event :=
  requests ++ [.read 0, .read 1, .read 0, .read 1, .read 1] ++ checks frame₁ 3

/-- The first block comes in after both handlers have read the height. -/
def torn : List Event :=
  requests ++ [.read 0, .read 1] ++ checks frame₁ 3 ++
    [.read 0, .read 1, .read 1]

/-- The first block of the sample run. -/
def first : Block := block₁.block sodium []

end Sample

/-- A run that the guard allows reaches a state of the threads. -/
theorem exists_interleaved_allowed (guard : Chain → Op → Prop) (allowed : Threads → Event → Prop)
    (events : List Event) (P : Threads → Prop)
    (h : Transition.Passes allowed (stepThreads S) P events ⟨genesisChain S, .ready, []⟩) :
    ∃ s, runThreads S events = .ok s ∧ Interleaved S guard allowed s ∧ P s :=
  Transition.exists_of_passes (.start ⟨.start boot_empty, rfl, rfl⟩) h

/-- Both handlers answer with the genesis block before a block is added. -/
theorem reads_consistent_untorn : ∃ s, runThreads Sample.sodium Sample.untorn = .ok s ∧
    s.http = [.tipReply 0 (some (genesisBlock Sample.sodium)),
      .statusReply 1 3 Sample.genesisHash] ∧
    s.chain.blocks.length = 2 ∧ ∀ r ∈ s.http, r.Consistent s.chain.blocks := by
  obtain ⟨s, hrun, hreach, hhttp, hlen⟩ := exists_interleaved_allowed (S := Sample.sodium) anyOp
    quiet Sample.untorn
    (fun s => s.http = [.tipReply 0 (some (genesisBlock Sample.sodium)),
      .statusReply 1 3 Sample.genesisHash] ∧ s.chain.blocks.length = 2)
    (by decide +kernel)
  exact ⟨s, hrun, hhttp, hlen, reads_consistent hreach⟩

/-- **A block between two reads tears both answers**: they name the height of the
genesis block and the hash of the block after it. -/
theorem reads_torn : ∃ s, runThreads Sample.sodium Sample.torn = .ok s ∧
    Interleaved Sample.sodium anyOp anyEvent s ∧
    s.http = [.tipReply 0 (some Sample.first), .statusReply 1 3 Sample.hash₁] ∧
    ∀ r ∈ s.http, ¬ r.Consistent s.chain.blocks :=
  exists_interleaved anyOp Sample.torn
    (fun s => s.http = [.tipReply 0 (some Sample.first), .statusReply 1 3 Sample.hash₁] ∧
      ∀ r ∈ s.http, ¬ r.Consistent s.chain.blocks) (by decide +kernel)

end Axis
