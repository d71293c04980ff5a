import Axis.GetPool
import Axis.Http
import Axis.Submission

/-!
# Clients that come back

Clients come back to a node that has gone on without them, and that may have restarted.  One has
submitted a transaction and looks for it.  Another one is a miner, who has put a block on the tip
and has searched for a nonce, which takes a while.

## Main definitions

* `Later` — a later state of a node.
* `apiMempool` — the page with the pool.
* `lateAnswer` — what a miner is told who is late.

## Main results

* `pool_lasts` — **a transaction of the pool stays there until it is in a block.**
* `submission_found` — **a submitted transaction is found** on the page with the pool, or on that of
  a block.
* `mining_exact` — **a block that was acceptable is acceptable until there is another one**, and
  what a miner is told afterwards.
-/

namespace Axis

open Digits Positional PrefixCode

variable {S : Sodium} {H : HexReader}

/-- A run from `c` that restarts in range ends in `c'`. -/
def Later (S : Sodium) (c c' : Chain) : Prop :=
  Transition.Reachable (· = c) restartInRange (step S) c'

/-! ### What lasts -/

/-- What has become of the blocks and the pool. -/
structure Continues (c c' : Chain) : Prop where
  blocks : c.blocks <+: c'.blocks
  pool : ∀ (k : Hash) (tx : Transaction), c.pool[k]? = some tx →
    c'.pool[k]? = some tx ∨ ∃ blk ∈ c'.blocks.drop c.blocks.length, tx ∈ blk.transactions

theorem Continues.refl (c : Chain) : Continues c c where
  blocks := List.prefix_rfl
  pool _ _ hk := Or.inl hk

theorem Continues.trans {c₁ c₂ c₃ : Chain} (h : Continues c₁ c₂) (h' : Continues c₂ c₃) :
    Continues c₁ c₃ where
  blocks := h.blocks.trans h'.blocks
  pool := by
    intro k tx hk
    rcases h.pool k tx hk with hpool | ⟨blk, hblk, htx⟩
    · -- the blocks of the second run are among those of both
      rcases h'.pool k tx hpool with hpool' | ⟨blk, hblk, htx⟩
      · exact Or.inl hpool'
      · exact Or.inr ⟨blk, List.drop_subset_drop_left _ h.blocks.length_le hblk, htx⟩
    · obtain ⟨more, hmore⟩ := h'.blocks
      refine Or.inr ⟨blk, ?_, htx⟩
      rw [← hmore, List.drop_append_of_le_length h.blocks.length_le]
      exact List.mem_append_left _ hblk

theorem Continues.admitTx {c : Chain} {st : SignedTransaction} (hv : Chain.Valid S st c) :
    Continues c (c.admitTx st.tx .ok).1 where
  blocks := List.prefix_rfl
  pool _ _ hk := Or.inl (hv.getElem?_pool hk)

/-- A block takes out of the pool what is in it. -/
theorem Continues.grown {c : Chain} (hgood : PoolGood S c.pool) {sub : BlockSubmission}
    {refs : List Transaction} (ha : Accepted S c sub refs) :
    Continues c (c.grown (sub.block S refs)) where
  blocks := List.prefix_append _ _
  pool := by
    intro k tx hk
    show (FiniteMap.eraseAll c.pool
      ((spending (sub.block S refs).transactions).map Transaction.txid))[k]? = some tx ∨ _
    rw [spending_block sub fun t ht => ha.inputs_ne hgood ht, FiniteMap.getElem?_eraseAll]
    split
    · next hmem =>
      obtain ⟨t, ht, rfl⟩ := List.mem_map.mp hmem
      have heq : t = tx := Option.some.inj ((ha.inPool t ht).symm.trans hk)
      refine Or.inr ⟨sub.block S refs, ?_, heq ▸ List.mem_cons_of_mem _ ht⟩
      show sub.block S refs ∈ (c.blocks ++ [sub.block S refs]).drop c.blocks.length
      rw [List.drop_left]
      exact List.mem_singleton_self _
    · exact Or.inl hk

/-- A step keeps what lasts; a restart in range brings back the state. -/
theorem Continues.step {c c' : Chain} (h : Reachable S restartInRange c) {op : Op}
    (hg : restartInRange c op) (hstep : step S op c = .ok c') : Continues c c' := by
  have hbase := base_of_reachable h
  rcases step_cases hbase.pool.good hstep with rfl | ⟨st, hv, -, rfl⟩ |
    ⟨payload, sub, refs, -, -, ha, rfl⟩ | ⟨rfl, hboot⟩
  · exact .refl _
  · exact .admitTx hv
  · exact .grown hbase.pool.good ha
  · have hlen : c.blocks.length ≤ 2 ^ 32 := hg
    rw [boot_self hbase ((kept_of_reachable (fun _ _ => id) h).stored hlen) hlen] at hboot
    rw [← Except.ok.inj hboot]
    exact .refl _

theorem Later.continues {c c' : Chain} (h : Reachable S restartInRange c) (hlater : Later S c c') :
    Continues c c' := by
  refine Transition.Reachable.rule (I := Continues c) ?_ ?_ hlater
  · rintro _ rfl
    exact .refl _
  · intro s op s' hs hcont hg hstep
    exact hcont.trans (.step (h.trans hs) hg hstep)

/-- The blocks that were added since, by their positions. -/
theorem exists_getElem?_of_mem_drop {bs : List Block} {n : ℕ} {tx : Transaction}
    (h : ∃ blk ∈ bs.drop n, tx ∈ blk.transactions) :
    ∃ i blk, n ≤ i ∧ bs[i]? = some blk ∧ tx ∈ blk.transactions := by
  obtain ⟨blk, hblk, htx⟩ := h
  obtain ⟨i, hi⟩ := List.getElem?_of_mem hblk
  rw [List.getElem?_drop] at hi
  exact ⟨_, blk, Nat.le_add_right _ _, hi, htx⟩

/-- **A transaction of the pool stays there until it is in a block**, and the block stays where
it is. -/
theorem pool_lasts {c c' : Chain} (h : Reachable S restartInRange c) (hlater : Later S c c') :
    (∀ (i : ℕ) (blk : Block), c.blocks[i]? = some blk → c'.blocks[i]? = some blk) ∧
    ∀ (k : Hash) (tx : Transaction), c.pool[k]? = some tx →
      c'.pool[k]? = some tx ∨
        ∃ i blk, c.blocks.length ≤ i ∧ c'.blocks[i]? = some blk ∧ tx ∈ blk.transactions := by
  obtain ⟨hblocks, hpool⟩ := hlater.continues h
  refine ⟨fun i blk hget => ?_, fun k tx hk =>
    (hpool k tx hk).imp_right exists_getElem?_of_mem_drop⟩
  obtain ⟨more, hmore⟩ := hblocks
  rw [← hmore, List.getElem?_append_left (List.getElem?_eq_some_iff.mp hget).1, hget]

/-- A state after a submitted block. -/
theorem later_createBlock (c : Chain) (payload : FramePayload) :
    Later S c (onCreateBlock S payload.bytes [] c).1 :=
  .step (i := .createBlock payload) (.start rfl) trivial rfl

/-- The first payment of the sample run, before and after the third block. -/
theorem pool_lasts_setup : ∃ c tx, run Sample.sodium Sample.setup = .ok c ∧
    c.pool[Sample.tx₁]? = some tx ∧ ∃ i blk, 3 ≤ i ∧
      (onCreateBlock Sample.sodium Sample.submission₃.bytes [] c).1.blocks[i]? = some blk ∧
      tx ∈ blk.transactions := by
  obtain ⟨c, hrun, hreach, hlen, hbefore, hafter⟩ := exists_reachable (S := Sample.sodium)
    restartInRange Sample.setup
    (fun c => c.blocks.length = 3 ∧ (c.pool[Sample.tx₁]?).isSome ∧
      (onCreateBlock Sample.sodium Sample.submission₃.bytes [] c).1.pool[Sample.tx₁]? = none)
    (by decide +kernel)
  obtain ⟨tx, htx⟩ := Option.isSome_iff_exists.mp hbefore
  obtain ⟨-, hpool⟩ := pool_lasts hreach (later_createBlock c Sample.submission₃)
  refine ⟨c, tx, hrun, htx, ?_⟩
  rw [← hlen]
  refine (hpool _ tx htx).resolve_left fun hstill => ?_
  rw [hafter] at hstill
  cases hstill

/-! ### What a client finds -/

structure MempoolJson where
  size : UInt64
  txids : List String
  transactions : List TransactionJson
  deriving DecidableEq

/-- `/api/mempool`. -/
def apiMempool (c : Chain) : Response MempoolJson :=
  let txs := c.getPoolTxs
  .json 200 ⟨sizeOfList txs, txs.map fun tx => toHex tx.txid, txs.map transactionJson⟩

/-- The page of a response shows a transaction, and its txid. -/
def MempoolJson.Shows (page : MempoolJson) (tx : Transaction) : Prop :=
  transactionJson tx ∈ page.transactions ∧ toHex tx.txid ∈ page.txids

/-- The page of a block shows a transaction, and its txid. -/
def BlockJson.Shows (page : BlockJson) (tx : Transaction) : Prop :=
  transactionJson tx ∈ page.transactions ∧ toHex tx.txid ∈ page.txids

/-- A client finds a transaction in the pool, or in a block at a height from `n` on. -/
def Found (H : HexReader) (c : Chain) (n : ℕ) (tx : Transaction) : Prop :=
  (∃ page, apiMempool c = .json 200 page ∧ page.Shows tx) ∨
  ∃ i, n ≤ i ∧ ∃ page : BlockJson, page.Shows tx ∧ ∀ id fuel, Spells id i →
    apiBlock H fuel id c = some (.json 200 page)

/-- What is in the pool, or in a block since `n`, is found. -/
theorem found_of_lasts {c : Chain} (hshort : c.blocks.length < 2 ^ 32) {n : ℕ} {k : Hash}
    {tx : Transaction} (h : c.pool[k]? = some tx ∨
      ∃ i blk, n ≤ i ∧ c.blocks[i]? = some blk ∧ tx ∈ blk.transactions) : Found H c n tx := by
  rcases h with hpool | ⟨i, blk, hi, hget, htx⟩
  · have hmem : tx ∈ c.getPoolTxs :=
      List.mem_map.mpr ⟨(k, tx), (FiniteMap.mem_toList_iff _ _ _).mpr hpool, rfl⟩
    exact Or.inl ⟨_, rfl, List.mem_map_of_mem hmem,
      List.mem_map_of_mem (f := fun tx : Transaction => toHex tx.txid) hmem⟩
  · have hlt := (List.getElem?_eq_some_iff.mp hget).1
    refine Or.inr ⟨i, hi, blockJson blk (UInt32.ofNat i), ⟨List.mem_map_of_mem htx,
      List.mem_map_of_mem (f := fun tx : Transaction => toHex tx.txid) htx⟩, ?_⟩
    exact fun id fuel hspells => apiBlock_of_spells hget (hlt.trans hshort) hspells fuel

/-- **A submitted transaction is found.**  A client whose request was answered with the txid of
a transaction finds it in every later state, with all of its fields: on the page with the pool,
or on that of a block that was added since. -/
theorem submission_found {c c' : Chain} (h : Reachable S restartInRange c) {rawTx : Option Bytes}
    {body : SubmittedJson} (hsubmit : (apiTransaction S H rawTx .ok c).2 = .json 200 body)
    (hlater : Later S (apiTransaction S H rawTx .ok c).1 c') (hshort : c'.blocks.length < 2 ^ 32) :
    ∃ text p, rawTx = some text ∧ Submits text p ∧ body.txid = toHex (p.signed S).tx.txid ∧
      Found H c' c.blocks.length (p.signed S).tx := by
  rcases apiTransaction_cases S H rawTx .ok c with ⟨-, code, message, heq⟩ |
    ⟨text, p, rfl, hp, hv, hfst, hanswer⟩
  · rw [heq] at hsubmit
    cases hsubmit
  · rcases hanswer with ⟨-, hjson⟩ | ⟨hfailed, -⟩
    · rw [hjson] at hsubmit
      cases hsubmit
      rw [hfst] at hlater
      -- the request is one of the steps of a run
      obtain ⟨hlen, bytes, hread, hparse⟩ := (submits_iff (S := S) (H := H)).mp ⟨p, hp, rfl⟩
      have htext := congrArg List.length (hexToBytes_eq_ok_iff.mp hread)
      rw [List.length_map, length_encodeHex] at htext
      have hmax : text.length ≤ 128 * 1024 := hlen
      have hstep : step S (.postTx ⟨bytes, by omega⟩) c =
          .ok (c.admitTx (p.signed S).tx .ok).1 := by
        show Except.ok (postTransaction S bytes .ok c).1 = _
        rw [fst_postTransaction_of_parse hparse, Chain.addTx_ok hv]
      have hreach : Reachable S restartInRange (c.admitTx (p.signed S).tx .ok).1 :=
        .step h (i := .postTx ⟨bytes, by omega⟩) trivial hstep
      have hpool : (c.admitTx (p.signed S).tx .ok).1.pool[(p.signed S).tx.txid]? =
          some (p.signed S).tx := Std.ExtTreeMap.getElem?_insert_self
      obtain ⟨-, hlasts⟩ := hlater.continues hreach
      have hlasts' := (hlasts _ _ hpool).imp_right fun hmem => exists_getElem?_of_mem_drop hmem
      exact ⟨text, p, rfl, hp, rfl, found_of_lasts hshort hlasts'⟩
    · exact absurd rfl hfailed

/-- The second payment of the sample run, after the third block. -/
theorem submission_found_setup : ∃ c p, run Sample.sodium (Sample.setup.take 3) = .ok c ∧
    Submits Sample.upperCase p ∧ Found .standard
      (onCreateBlock Sample.sodium Sample.submission₃.bytes []
        (apiTransaction Sample.sodium .standard (some Sample.upperCase) .ok c).1).1
      3 (p.signed Sample.sodium).tx := by
  obtain ⟨c, hrun, hreach, hlen, hsubmit, hshort⟩ := exists_reachable (S := Sample.sodium)
    restartInRange (Sample.setup.take 3)
    (fun c => c.blocks.length = 3 ∧
      (apiTransaction Sample.sodium .standard (some Sample.upperCase) .ok c).2 =
        .json 200 ⟨toHex Sample.tx₂, "submitted"⟩ ∧
      (onCreateBlock Sample.sodium Sample.submission₃.bytes []
        (apiTransaction Sample.sodium .standard (some Sample.upperCase) .ok c).1).1.blocks.length
          < 2 ^ 32) (by decide +kernel)
  obtain ⟨text, p, htext, hp, -, hfound⟩ := submission_found hreach hsubmit
    (later_createBlock _ Sample.submission₃) hshort
  obtain rfl := Option.some.inj htext
  rw [hlen] at hfound
  exact ⟨c, p, hrun, hp, hfound⟩

/-! ### A miner who is late -/

/-- The answer to a block whose parent is not the tip any more: the references are looked up
first. -/
def lateAnswer (sub : BlockSubmission) (c : Chain) : BlockError × String :=
  if ∀ txid ∈ sub.txids, txid ∈ c.pool then (.badPreviousHash, "prev hash does not match tip")
  else (.invalidPayload, "tx not in pool")

/-- The loop over the references ends at one that is not in the pool. -/
theorem run_takeReferences_error {pool : FiniteMap Hash Transaction} {n : ℕ} {r r' : Reader}
    {txids : List Hash} (h : (many Reader.takeHash n).run r = .ok (txids, r'))
    (hmissing : ¬ ∀ txid ∈ txids, txid ∈ pool) :
    ∃ r'', (takeReferences pool n).run r = .ok (.error "tx not in pool", r'') := by
  induction n generalizing r txids with
  | zero =>
    obtain ⟨rfl, -⟩ := Prod.mk.inj (run_pure_eq_ok.mp h)
    exact absurd (fun _ hmem => nomatch hmem) hmissing
  | succ n ih =>
    simp only [many, run_bind_eq_ok, run_pure_eq_ok] at h
    obtain ⟨txid, s₁, htxid, rest, s₂, hrest, heq⟩ := h
    obtain ⟨rfl, rfl⟩ := Prod.mk.inj heq
    rw [takeReferences]
    cases hget : pool[txid]? with
    | none =>
      refine ⟨s₁, run_bind_eq_ok.mpr ⟨txid, s₁, htxid, ?_⟩⟩
      rw [hget]
      rfl
    | some tx =>
      have hknown : txid ∈ pool := (FiniteMap.mem_iff_exists _ _).mpr ⟨tx, hget⟩
      obtain ⟨r'', hrun⟩ := ih hrest fun hall =>
        hmissing (List.forall_mem_cons.mpr ⟨hknown, hall⟩)
      refine ⟨r'', run_bind_eq_ok.mpr ⟨txid, s₁, htxid, ?_⟩⟩
      rw [hget]
      exact run_bind_eq_ok.mpr ⟨_, r'', hrun, rfl⟩

/-- A payload with a reference that is not in the pool is not parsed. -/
theorem acceptBlock_missing {c : Chain} {payload : Bytes} {sub : BlockSubmission}
    (hcount : sub.txids.length < 2 ^ 32) (hpre : sub.bytes <+: payload)
    (hmissing : ¬ ∀ txid ∈ sub.txids, txid ∈ c.pool) :
    acceptBlock S payload c = .error (.invalidPayload, "tx not in pool") := by
  have htake := BlockSubmission.code.complete (s := ⟨payload, 0⟩) hcount hpre
  simp only [BlockSubmission.take, run_bind_eq_ok, run_pure_eq_ok] at htake
  obtain ⟨prev, s₁, h₁, merkle, s₂, h₂, ts, s₃, h₃, nonce, s₄, h₄, addr, s₅, h₅, reward, s₆, h₆,
    cbTs, s₇, h₇, txCount, s₈, h₈, txids, s₉, hmany, heq⟩ := htake
  obtain ⟨rfl, -⟩ := Prod.mk.inj heq
  obtain ⟨r, hrefs⟩ := run_takeReferences_error hmany hmissing
  have hrun : (parseCreateBlockPayload S c.pool).run ⟨payload, 0⟩ =
      .ok (.error "tx not in pool", r) := by
    simp only [parseCreateBlockPayload, run_bind_eq_ok, run_pure_eq_ok]
    exact ⟨prev, s₁, h₁, merkle, s₂, h₂, ts, s₃, h₃, nonce, s₄, h₄, addr, s₅, h₅, reward, s₆, h₆,
      cbTs, s₇, h₇, txCount, s₈, h₈, .error "tx not in pool", r, hrefs, rfl⟩
  rw [acceptBlock, hrun]

/-- What is wrong with an acceptable payload on another tip is its parent, or a reference. -/
theorem acceptBlock_late {c c' : Chain} (hbase : Base S c) (hbase' : Base S c')
    {payload : Bytes} {sub : BlockSubmission} (hsub : Acceptable S c payload sub)
    (htip : c'.tipHash ≠ c.tipHash) :
    acceptBlock S payload c' = .error (lateAnswer sub c') := by
  rw [lateAnswer]
  split
  · next hknown =>
    obtain ⟨refs, hresolve⟩ := BlockSubmission.exists_resolve hknown
    obtain ⟨htxids, -⟩ := resolve_eq_some hbase'.pool.good hresolve
    have hmerkle : (sub.block S refs).header.merkleRoot = sub.wireMerkle := by
      rw [hsub.merkle, BlockSubmission.merkleRoot_block htxids]
    have hwork : compare (sub.block S refs).hash c'.target ≠ .gt := by
      rw [hash_block hsub.starts hmerkle, hbase'.compare_target_iff, hbase'.difficulty,
        ← hbase.difficulty]
      exact hsub.work
    have hparent : (sub.block S refs).header.prevHash ≠ c'.tipHash := by
      show sub.prevHash ≠ c'.tipHash
      rw [hsub.parent]
      exact htip.symm
    have htake := BlockSubmission.code.complete (s := ⟨payload, 0⟩) hsub.count hsub.starts
    have hrun : (parseCreateBlockPayload S c'.pool).run _ = .ok (.ok _, _) :=
      run_parseCreateBlockPayload_eq_ok.mpr ⟨sub, refs, htake, hresolve, rfl⟩
    rw [acceptBlock, hrun]
    exact (if_neg (not_not.mpr hmerkle)).trans ((if_neg hwork).trans (if_pos hparent))
  · next hmissing => exact acceptBlock_missing hsub.count hsub.starts hmissing

/-- Longer chains have other tips, when no two blocks share a hash. -/
theorem tipHash_ne_of_prefix {c c' : Chain} (hne : c.blocks ≠ []) (hpre : c.blocks <+: c'.blocks)
    (hmore : c'.blocks ≠ c.blocks) (hdistinct : (c'.blocks.map Block.hash).Nodup) :
    c'.tipHash ≠ c.tipHash := by
  have hpos : 0 < c.blocks.length := List.length_pos_iff.mpr hne
  have hlt : c.blocks.length < c'.blocks.length :=
    lt_of_le_of_ne hpre.length_le fun heq => hmore (hpre.eq_of_length heq).symm
  obtain ⟨more, hblocks⟩ := hpre
  have htip : ∀ s : Chain, s.blocks ≠ [] → ∃ blk,
      s.blocks[s.blocks.length - 1]? = some blk ∧ s.tipHash = blk.hash := by
    intro s hs
    have hlast := List.getLast?_eq_some_getLast hs
    refine ⟨_, by rw [← List.getLast?_eq_getElem?, hlast], ?_⟩
    rw [Chain.tipHash, hlast]
    rfl
  obtain ⟨blk, hblk, heq⟩ := htip c hne
  obtain ⟨blk', hblk', heq'⟩ := htip c' (List.length_pos_iff.mp (hpos.trans hlt))
  rw [heq, heq']
  intro hsame
  -- the tip of the shorter chain is an earlier block of the longer one
  have hearlier : c'.blocks[c.blocks.length - 1]? = some blk := by
    rw [← hblocks, List.getElem?_append_left (by omega), hblk]
  have hpos' : (c'.blocks.map Block.hash)[c.blocks.length - 1]? =
      (c'.blocks.map Block.hash)[c'.blocks.length - 1]? := by
    rw [List.getElem?_map, List.getElem?_map, hearlier, hblk']
    exact congrArg some hsame.symm
  have hidx := (List.getElem?_inj (by
    rw [List.length_map]
    omega) hdistinct).mp hpos'
  omega

/-- A block is accepted on the chain it was put together for, whatever has come to the pool. -/
theorem acceptBlock_of_continues {c c' : Chain} (hbase : Base S c) (hbase' : Base S c')
    (hcont : Continues c c') (hsame : c'.blocks = c.blocks) {payload : Bytes} {blk : Block}
    (h : acceptBlock S payload c = .ok blk) : acceptBlock S payload c' = .ok blk := by
  obtain ⟨sub, refs, hcount, hpre, hresolve, hblk, hmerkle, hwork, hparent⟩ :=
    acceptBlock_eq_ok.mp h
  obtain ⟨htxids, hin⟩ := resolve_eq_some hbase.pool.good hresolve
  refine acceptBlock_eq_ok.mpr ⟨sub, refs, hcount, hpre, ?_, hblk, hmerkle, ?_, ?_⟩
  · unfold BlockSubmission.resolve
    rw [htxids]
    refine resolve_map_txid fun tx htx => ?_
    rcases hcont.pool _ tx (hin tx htx) with hpool | ⟨b, hb, -⟩
    · exact hpool
    · rw [hsame, List.drop_length] at hb
      cases hb
  · rwa [hbase'.target, ← hbase.target]
  · rw [hparent, Chain.tipHash, Chain.tipHash, hsame]

/-- **Mining on a tip.**  A payload that is acceptable in a state is accepted in every later
one, until there is another block, and this is answered when the block can be printed; then the
miner is told that the parent is not the tip, or that a reference is not in the pool, and nothing
changes. -/
theorem mining_exact {c c' : Chain} (h : Reachable S restartInRange c) (hlater : Later S c c')
    {payload : Bytes} {sub : BlockSubmission} (hsub : Acceptable S c payload sub) :
    (c'.blocks = c.blocks → ∃ blk, acceptBlock S payload c = .ok blk ∧
      onCreateBlock S payload [] c' = (c'.grown blk, blockAccepted) ∧
      ((onCreateBlockPrinted S payload [] c').isSome ↔ blk.header.timestamp.Printable)) ∧
    (c'.blocks ≠ c.blocks → (c'.blocks.map Block.hash).Nodup →
      onCreateBlock S payload [] c' = (c', lateAnswer sub c')) := by
  have hbase := base_of_reachable h
  have hbase' := base_of_reachable (h.trans hlater)
  have hcont := hlater.continues h
  constructor
  · intro hsame
    obtain ⟨blk, haccept⟩ := (accepts_iff_acceptable hbase payload).mpr ⟨sub, hsub⟩
    have haccept' := acceptBlock_of_continues hbase hbase' hcont hsame haccept
    refine ⟨blk, haccept, onCreateBlock_eq haccept', ?_⟩
    rw [onCreateBlockPrinted, haccept']
    dsimp only
    rw [addBlock_nil]
    show (blk.pretty.map (· ++ "\n")).isSome ↔ _
    rw [Option.isSome_map, Block.pretty_isSome_iff]
  · intro hmore hdistinct
    have htip := tipHash_ne_of_prefix hbase.blocks_ne hcont.blocks hmore hdistinct
    rw [onCreateBlock, acceptBlock_late hbase hbase' hsub htip]

/-- Two miners submit the third block of the sample run. -/
theorem mining_exact_setup : ∃ c c' sub, run Sample.sodium Sample.setup = .ok c ∧
    Acceptable Sample.sodium c Sample.submission₃.bytes sub ∧
    onCreateBlock Sample.sodium Sample.submission₃.bytes [] c = (c', blockAccepted) ∧
    onCreateBlock Sample.sodium Sample.submission₃.bytes [] c' = (c', lateAnswer sub c') := by
  obtain ⟨c, hrun, hreach, haccepted, hmore, hdistinct⟩ := exists_reachable (S := Sample.sodium)
    restartInRange Sample.setup
    (fun c => (onCreateBlock Sample.sodium Sample.submission₃.bytes [] c).2 = blockAccepted ∧
      (onCreateBlock Sample.sodium Sample.submission₃.bytes [] c).1.blocks ≠ c.blocks ∧
      ((onCreateBlock Sample.sodium Sample.submission₃.bytes [] c).1.blocks.map
        Block.hash).Nodup) (by decide +kernel)
  obtain ⟨sub, hsub⟩ := (accepts_iff_acceptable (base_of_reachable hreach) _).mp
    (onCreateBlock_accepts_iff.mp haccepted)
  obtain ⟨-, hlate⟩ := mining_exact hreach (later_createBlock c Sample.submission₃) hsub
  refine ⟨c, (onCreateBlock Sample.sodium Sample.submission₃.bytes [] c).1, sub, hrun, hsub, ?_,
    hlate hmore hdistinct⟩
  rw [← haccepted, Prod.mk.eta]

end Axis
