import Axis.Failure
import Axis.Order

/-!
# Threads

The lock of the chain is taken for one call at a time.  `on_create_block` makes a call
for every reference and three more for the block, and the HTTP server submits
transactions and reads the chain from threads of its own.  Here the TCP thread stands
before one of its calls, and any other thread may make a call first; the writes of a
call may fail.

The calls that only feed the log are left out.

## Main definitions

* `Phase`, `call` — where `on_create_block` stands, and its next call.
* `Request`, `Request.read` — the two HTTP handlers that read the tip.
* `Threads`, `stepThreads` — a node with its threads.
* `Memory` — what the memory of a node keeps, whatever its writes answer.

## Main results

* `calls_onCreateBlock` — **a thread that is not interrupted does what
  `onCreateBlock` does.**
* `memory_mineTxs` — `add_block` keeps the invariant of memory, wherever it stops.
* `createBlock_safe` — **between its checks and `add_block`, a submitted block stays
  acceptable.**
-/

namespace Axis

open PrefixCode

variable {S : Sodium}

/-! ### The calls of `on_create_block` -/

/-- What `parse_create_block_payload` has at hand in its loop: `left` references are
still to be read. -/
structure Parsing where
  prevHash : Hash
  wireMerkle : Hash
  timestamp : Timestamp
  nonce : UInt64
  coinbase : Transaction
  transactions : List Transaction
  left : ℕ
  reader : Reader
  deriving DecidableEq

/-- Where `on_create_block` stands: before a call, or at its end. -/
inductive Phase
  | ready
  | poolContains (p : Parsing) (txid : Hash)
  | getPoolTx (p : Parsing) (txid : Hash)
  | target (blk : Block)
  | tipHash (blk : Block)
  | addBlock (blk : Block)
  | replied (answer : BlockError × String)
  /-- `get_pool_tx` threw; the handler catches that too. -/
  | threw
  deriving DecidableEq

/-- No frame is being answered. -/
def Phase.idle : Phase → Bool
  | .ready | .replied _ | .threw => true
  | _ => false

/-- The fields in front of the loop. -/
def startParsing (S : Sodium) : ReadM Parsing := do
  let prevHash ← Reader.takeHash
  let wireMerkle ← Reader.takeHash
  let timestamp ← Reader.takeU64
  let nonce ← Reader.takeU64
  let cbAddress ← Reader.takeAddr
  let cbReward ← Reader.takeU64
  let cbTimestamp ← Reader.takeU64
  let coinbase := Transaction.new S [] [⟨cbAddress, cbReward⟩] ⟨cbTimestamp⟩
  let txCount ← Reader.takeU32
  let reader ← get
  pure ⟨prevHash, wireMerkle, ⟨timestamp⟩, nonce, coinbase, [coinbase], txCount.toNat, reader⟩

/-- After the loop: the block, and the check that needs no call. -/
def finishParsing (S : Sodium) (p : Parsing) : Phase :=
  let blk := Block.new S p.prevHash p.transactions p.timestamp p.nonce
  if blk.header.merkleRoot ≠ p.wireMerkle then
    .replied (.invalidBlockHash, "merkle root mismatch")
  else .target blk

/-- The head of the loop. -/
def nextReference (S : Sodium) (p : Parsing) : Phase :=
  match p.left with
  | 0 => finishParsing S p
  | left + 1 =>
    match Reader.takeHash.run p.reader with
    | .error what => .replied (.invalidPayload, what)
    | .ok (txid, reader) => .poolContains { p with left := left, reader := reader } txid

/-- What a frame makes the thread do before its first call. -/
def receiveBlock (S : Sodium) (payload : Bytes) : Phase :=
  match (startParsing S).run ⟨payload, 0⟩ with
  | .error what => .replied (.invalidPayload, what)
  | .ok (p, _) => nextReference S p

/-- The next call, and what the thread does until the one after it. -/
def call (S : Sodium) (io : List WriteStatus) (c : Chain) : Phase → Except String (Chain × Phase)
  | .poolContains p txid =>
    if txid ∈ c.pool then .ok (c, .getPoolTx p txid)
    else .ok (c, .replied (.invalidPayload, "tx not in pool"))
  | .getPoolTx p txid =>
    match c.pool[txid]? with
    | none => .ok (c, .threw)
    | some tx => .ok (c, nextReference S { p with transactions := p.transactions ++ [tx] })
  | .target blk =>
    if compare blk.hash c.target = .gt then
      .ok (c, .replied (.highHash, "hash does not meet difficulty"))
    else .ok (c, .tipHash blk)
  | .tipHash blk =>
    if blk.header.prevHash ≠ c.tipHash then
      .ok (c, .replied (.badPreviousHash, "prev hash does not match tip"))
    else .ok (c, .addBlock blk)
  | .addBlock blk =>
    match c.addBlock blk io with
    | (c, .error what) => .ok (c, .replied (.invalidPayload, what))
    | (c, .ok ()) => .ok (c, .replied (.none, "accepted"))
  | .ready | .replied _ | .threw => .error "no call is due"

/-! ### A thread that is not interrupted -/

/-- The calls of a thread that no other one interrupts. -/
abbrev Calls (S : Sodium) (io : List WriteStatus) : Chain × Phase → Chain × Phase → Prop :=
  Relation.ReflTransGen fun s s' => call S io s.1 s.2 = .ok s'

/-- The parser without its calls: the fields, then all references at once. -/
theorem parseCreateBlockPayload_eq (S : Sodium) (pool : FiniteMap Hash Transaction) :
    parseCreateBlockPayload S pool = (do
      let p ← startParsing S
      let transactions ← takeReferences pool p.left
      pure (transactions.map fun txs =>
        ⟨p.prevHash, p.wireMerkle, p.timestamp, p.nonce, p.coinbase, p.transactions ++ txs⟩)) := by
  unfold parseCreateBlockPayload startParsing
  simp only [bind_assoc, pure_bind]
  rfl

/-- In front of the loop, the coinbase is the only transaction. -/
theorem startParsing_eq_ok {r r' : Reader} {p : Parsing}
    (h : (startParsing S).run r = .ok (p, r')) :
    p.reader = r' ∧ p.transactions = [p.coinbase] ∧ p.coinbase.isCoinbase = true := by
  simp only [startParsing, run_bind_eq_ok] at h
  obtain ⟨_, _, -, _, _, -, _, _, -, _, _, -, _, _, -, _, _, -, _, _, -, _, s, -, reader, s', hget,
    hp⟩ := h
  obtain ⟨rfl, rfl⟩ := Prod.mk.inj (Except.ok.inj hget)
  obtain ⟨rfl, rfl⟩ := Prod.mk.inj (run_pure_eq_ok.mp hp)
  exact ⟨rfl, rfl, rfl⟩

/-- Where the thread stands after its loop, for what the loop of the parser returns. -/
def afterReferences (S : Sodium) (p : Parsing) :
    Except String (Except String (List Transaction) × Reader) → Phase
  | .error what => .replied (.invalidPayload, what)
  | .ok (.error reason, _) => .replied (.invalidPayload, reason)
  | .ok (.ok txs, _) => finishParsing S { p with transactions := p.transactions ++ txs }

/-- The two calls for a reference that is in the pool. -/
theorem calls_reference (io : List WriteStatus) {c : Chain} (p : Parsing) {txid : Hash}
    {tx : Transaction} (h : c.pool[txid]? = some tx) :
    Calls S io (c, .poolContains p txid)
      (c, nextReference S { p with transactions := p.transactions ++ [tx] }) := by
  have hin : txid ∈ c.pool := (FiniteMap.mem_iff_exists _ _).mpr ⟨tx, h⟩
  have hcontains : call S io c (.poolContains p txid) = .ok (c, .getPoolTx p txid) := if_pos hin
  have hget : call S io c (.getPoolTx p txid) =
      .ok (c, nextReference S { p with transactions := p.transactions ++ [tx] }) := by
    simp only [call, h]
  exact .head hcontains (.single hget)

/-- The loop, two calls for every reference. -/
theorem calls_references (io : List WriteStatus) (c : Chain) {n : ℕ} {p : Parsing}
    (hleft : p.left = n) :
    Calls S io (c, nextReference S p)
      (c, afterReferences S p ((takeReferences c.pool n).run p.reader)) := by
  induction n generalizing p with
  | zero =>
    have hnext : nextReference S p = finishParsing S p := by
      unfold nextReference
      rw [hleft]
    have hafter : afterReferences S p ((takeReferences c.pool 0).run p.reader) =
        finishParsing S p := by
      show finishParsing S { p with transactions := p.transactions ++ [] } = _
      rw [List.append_nil]
    rw [hnext, hafter]
  | succ n ih =>
    unfold nextReference takeReferences
    rw [hleft, StateT.run_bind]
    cases htake : Reader.takeHash.run p.reader with
    | error what => exact .refl
    | ok res =>
      obtain ⟨txid, reader⟩ := res
      dsimp only
      rw [ok_bind]
      cases hget : c.pool[txid]? with
      | none =>
        -- the loop ends at a reference that is not in the pool
        have hnot : txid ∉ c.pool := by
          rw [FiniteMap.mem_iff_exists, hget]
          simp
        exact .single (if_neg hnot)
      | some tx =>
        -- the loop goes on with one transaction more
        apply (calls_reference io _ hget).trans
        convert ih (p := ⟨p.prevHash, p.wireMerkle, p.timestamp, p.nonce, p.coinbase,
          p.transactions ++ [tx], n, reader⟩) rfl using 2
        dsimp only
        rw [StateT.run_bind]
        rcases (takeReferences c.pool n).run reader with what | ⟨reason | txs, r⟩
        · rfl
        · rfl
        · have happend : p.transactions ++ (tx :: txs) = p.transactions ++ [tx] ++ txs := by simp
          show finishParsing S { p with transactions := p.transactions ++ (tx :: txs) } = _
          rw [happend]
          rfl

/-- Where the thread stands after its checks, for what `acceptBlock` returns. -/
def afterChecks : Except (BlockError × String) Block → Phase
  | .error answer => .replied answer
  | .ok blk => .addBlock blk

/-- The checks of `acceptBlock`, one call for each but the first. -/
theorem calls_checks (io : List WriteStatus) (c : Chain) (p : Parsing) :
    Calls S io (c, finishParsing S p)
      (c, afterChecks
        (let blk := Block.new S p.prevHash p.transactions p.timestamp p.nonce
        if blk.header.merkleRoot ≠ p.wireMerkle then
          .error (.invalidBlockHash, "merkle root mismatch")
        else if compare blk.hash c.target = .gt then
          .error (.highHash, "hash does not meet difficulty")
        else if blk.header.prevHash ≠ c.tipHash then
          .error (.badPreviousHash, "prev hash does not match tip")
        else .ok blk)) := by
  unfold finishParsing
  dsimp only
  generalize Block.new S p.prevHash p.transactions p.timestamp p.nonce = blk
  by_cases hmerkle : blk.header.merkleRoot ≠ p.wireMerkle
  · rw [if_pos hmerkle, if_pos hmerkle]
    exact .refl
  · rw [if_neg hmerkle, if_neg hmerkle]
    by_cases hwork : compare blk.hash c.target = .gt
    · rw [if_pos hwork]
      exact .single (if_pos hwork)
    · have htarget : call S io c (.target blk) = .ok (c, .tipHash blk) := if_neg hwork
      refine .head htarget ?_
      rw [if_neg hwork]
      by_cases hprev : blk.header.prevHash ≠ c.tipHash
      · rw [if_pos hprev]
        exact .single (if_pos hprev)
      · rw [if_neg hprev]
        exact .single (if_neg hprev)

/-- The thread comes to `add_block` with the block that `acceptBlock` returns. -/
theorem calls_acceptBlock (payload : Bytes) (io : List WriteStatus) (c : Chain) :
    Calls S io (c, receiveBlock S payload) (c, afterChecks (acceptBlock S payload c)) := by
  unfold receiveBlock acceptBlock
  rw [parseCreateBlockPayload_eq, StateT.run_bind]
  cases hstart : (startParsing S).run ⟨payload, 0⟩ with
  | error what => exact .refl
  | ok res =>
    obtain ⟨p, r⟩ := res
    obtain ⟨rfl, -, -⟩ := startParsing_eq_ok hstart
    apply (calls_references io c rfl).trans
    rw [ok_bind, StateT.run_bind]
    rcases (takeReferences c.pool p.left).run p.reader with what | ⟨reason | txs, r⟩
    · exact .refl
    · exact .refl
    · exact calls_checks io c { p with transactions := p.transactions ++ txs }

/-- **A thread that is not interrupted does what `onCreateBlock` does**, and gives the
answer that `onCreateBlock` gives. -/
theorem calls_onCreateBlock (payload : Bytes) (io : List WriteStatus) (c : Chain) :
    Calls S io (c, receiveBlock S payload)
      ((onCreateBlock S payload io c).1, .replied (onCreateBlock S payload io c).2) := by
  apply (calls_acceptBlock payload io c).trans
  unfold onCreateBlock
  cases acceptBlock S payload c with
  | error answer => exact .refl
  | ok blk =>
    refine .single ?_
    dsimp only [afterChecks, call]
    rcases c.addBlock blk io with ⟨c', what | u⟩ <;> rfl

/-! ### The HTTP handlers that read the tip -/

/-- A request to `/api/tip` or `/api/status`: before one of its calls, or answered.
`tip()` has no value on a chain without blocks. -/
inductive Request
  | tipHeight
  | tipBlock (height : UInt32)
  | tipEmpty
  | tipReply (height : UInt32) (tip : Option Block)
  | statusHeight
  | statusDifficulty (blockHeight : UInt32)
  | statusTipHash (blockHeight : UInt32) (difficulty : UInt8)
  | statusReply (blockHeight : UInt32) (difficulty : UInt8) (tipHash : Hash)
  deriving DecidableEq

/-- The next call of a handler. -/
def Request.read (c : Chain) : Request → Except String Request
  | .tipHeight => .ok (if c.height = 0 then .tipEmpty else .tipBlock c.height)
  | .tipBlock height => .ok (.tipReply (height - 1) c.blocks.getLast?)
  | .statusHeight => .ok (.statusDifficulty c.height)
  | .statusDifficulty blockHeight => .ok (.statusTipHash blockHeight c.difficulty)
  | .statusTipHash blockHeight difficulty => .ok (.statusReply blockHeight difficulty c.tipHash)
  | .tipEmpty | .tipReply _ _ | .statusReply _ _ _ => .error "no call is due"

/-! ### A node with its threads -/

/-- The chain, where the TCP thread stands, and the requests made over HTTP so far. -/
structure Threads where
  chain : Chain
  tcp : Phase
  http : List Request

/-- What a thread can do next. -/
inductive Event
  | createTx (payload : FramePayload) (status : WriteStatus)
  | createBlock (payload : FramePayload)
  | call (io : List WriteStatus)
  | postTx (raw : RawTx) (status : WriteStatus)
  | getTip
  | getStatus
  | read (i : ℕ)

/-- The one TCP thread takes a frame when it has answered the last one; an HTTP thread
does its next call at any time. -/
def stepThreads (S : Sodium) : Event → Threads → Except String Threads
  | .createTx payload status, s =>
    if s.tcp.idle then
      .ok { s with chain := (onCreateTx S payload.bytes status s.chain).1, tcp := .ready }
    else .error "the TCP thread is busy"
  | .createBlock payload, s =>
    if s.tcp.idle then .ok { s with tcp := receiveBlock S payload.bytes }
    else .error "the TCP thread is busy"
  | .call io, s =>
    match call S io s.chain s.tcp with
    | .error what => .error what
    | .ok (c, phase) => .ok { s with chain := c, tcp := phase }
  | .postTx raw status, s =>
    .ok { s with chain := (postTransaction S raw.bytes status s.chain).1 }
  | .getTip, s => .ok { s with http := s.http ++ [.tipHeight] }
  | .getStatus, s => .ok { s with http := s.http ++ [.statusHeight] }
  | .read i, s =>
    match s.http[i]? with
    | none => .error "no such request"
    | some r =>
      match r.read s.chain with
      | .error what => .error what
      | .ok r => .ok { s with http := s.http.set i r }

/-- Any thread at any time. -/
def anyEvent : Threads → Event → Prop := fun _ _ => True

/-- The states that the threads reach from a state of a node at rest. -/
abbrev Interleaved (S : Sodium) (guard : Chain → Op → Prop) (allowed : Threads → Event → Prop) :
    Threads → Prop :=
  Transition.Reachable (fun s => Reachable S guard s.chain ∧ s.tcp = .ready ∧ s.http = [])
    allowed (stepThreads S)

/-! ### What memory keeps -/

/-- What the memory of a node keeps, whatever its writes answer. -/
structure Memory (S : Sodium) (c : Chain) : Prop where
  good : PoolGood S c.pool
  spent : SpentBy c.pool c.poolSpent
  unspent : ∀ (k : Hash) (tx : Transaction), c.pool[k]? = some tx → ∀ op ∈ tx.inputs, op ∈ c.utxo

/-- A transaction that a block may take: what the pool holds under its txid is the
transaction, and no other transaction of the pool has one of its inputs. -/
structure Takeable (c : Chain) (tx : Transaction) : Prop where
  own : ∀ tx', c.pool[tx.txid]? = some tx' → tx' = tx
  alone : ∀ (k : Hash) (tx' : Transaction) (op : OutPoint), c.pool[k]? = some tx' →
    op ∈ tx.inputs → op ∈ tx'.inputs → k = tx.txid

/-- The transactions of a pool may be taken. -/
theorem Memory.takeable {c : Chain} (h : Memory S c) {tx : Transaction}
    (htx : c.pool[tx.txid]? = some tx) : Takeable c tx where
  own := by
    intro tx' htx'
    rw [htx] at htx'
    exact (Option.some.inj htx').symm
  alone := by
    intro k tx' op hk hop hop'
    exact h.good.disjoint k tx' tx.txid tx op hk htx hop' hop

/-- The pool after one transaction of a block. -/
theorem getElem?_pool_minedOne {c : Chain} {t : Transaction} {poolDb : Db} {k : Hash}
    {tx : Transaction} : (c.minedOne t poolDb).pool[k]? = some tx ↔
      t.txid ≠ k ∧ c.pool[k]? = some tx := by
  show (c.pool.erase t.txid)[k]? = some tx ↔ _
  rw [FiniteMap.getElem?_erase_eq]
  split
  · next heq => simp [heq]
  · next hne => simp [hne]

/-- A transaction that may be taken may be taken after another one. -/
theorem Takeable.minedOne {c : Chain} {tx : Transaction} (h : Takeable c tx) (t : Transaction)
    (poolDb : Db) : Takeable (c.minedOne t poolDb) tx where
  own tx' htx' := h.own tx' (getElem?_pool_minedOne.mp htx').2
  alone k tx' op hk hop hop' := h.alone k tx' op (getElem?_pool_minedOne.mp hk).2 hop hop'

/-- **One transaction of a block keeps the invariant of memory.** -/
theorem Memory.minedOne {c : Chain} (h : Memory S c) {t : Transaction} (ht : Takeable c t)
    (poolDb : Db) : Memory S (c.minedOne t poolDb) where
  good := h.good.mono fun k tx hk => (getElem?_pool_minedOne.mp hk).2
  spent := by
    intro op op'
    show (FiniteMap.eraseAll c.poolSpent t.inputs)[op]? = some op' ↔ _
    rw [FiniteMap.getElem?_eraseAll]
    split
    · next hmem =>
      -- whoever else spends the outpoint would be under the same txid
      simp only [reduceCtorEq, false_iff, not_and, not_exists]
      intro _ k tx hk hop
      obtain ⟨hne, hold⟩ := getElem?_pool_minedOne.mp hk
      exact hne (ht.alone k tx op hold hmem hop).symm
    · next hnot =>
      rw [h.spent op op']
      refine and_congr_right fun _ => ?_
      constructor
      · rintro ⟨k, tx, hk, hop⟩
        refine ⟨k, tx, getElem?_pool_minedOne.mpr ⟨?_, hk⟩, hop⟩
        rintro rfl
        exact hnot (ht.own tx hk ▸ hop)
      · rintro ⟨k, tx, hk, hop⟩
        exact ⟨k, tx, (getElem?_pool_minedOne.mp hk).2, hop⟩
  unspent := by
    intro k tx hk op hop
    obtain ⟨hne, hold⟩ := getElem?_pool_minedOne.mp hk
    refine UtxoSet.mem_utxo_applyTx (h.unspent k tx hold op hop) fun hmem => ?_
    exact hne (ht.alone k tx op hold hmem hop).symm

/-- A coinbase keeps it too. -/
theorem Memory.applyCoinbase {c : Chain} (h : Memory S c) {cb : Transaction}
    (hcb : cb.isCoinbase = true) :
    Memory S { c with toUtxoSet := c.toUtxoSet.applyTx cb } where
  good := h.good
  spent := h.spent
  unspent := by
    intro k tx hk op hop
    apply UtxoSet.mem_utxo_applyTx (h.unspent k tx hk op hop)
    rw [List.isEmpty_iff.mp hcb]
    exact List.not_mem_nil

/-- **The loop of `add_block` keeps the invariant of memory**, wherever a failing write
stops it, and however often a transaction is listed. -/
theorem Memory.mineTxs {c : Chain} (h : Memory S c) {txs : List Transaction}
    (htxs : ∀ tx ∈ txs, ¬ tx.isCoinbase = true → Takeable c tx) (io : List WriteStatus) :
    Memory S (c.mineTxs txs io).1 := by
  induction txs generalizing io c with
  | nil => exact h
  | cons tx txs ih =>
    rw [List.forall_mem_cons] at htxs
    obtain ⟨htx, htxs⟩ := htxs
    by_cases hcb : tx.isCoinbase = true
    · rw [mineTxs_coinbase hcb]
      exact ih (h.applyCoinbase hcb) (fun t ht hne => ⟨(htxs t ht hne).own, (htxs t ht hne).alone⟩)
        io
    · rcases headD_cases io with hok | ⟨what, written, herr⟩
      · rw [mineTxs_ok hcb txs hok]
        exact ih (h.minedOne (htx hcb) _) (fun t ht hne => (htxs t ht hne).minedOne tx _) io.tail
      · obtain ⟨text, heq⟩ := mineTxs_error hcb txs herr c
        rw [heq]
        exact h.minedOne (htx hcb) _

theorem Memory.addBlock {c : Chain} (h : Memory S c) {blk : Block}
    (htxs : ∀ tx ∈ blk.transactions, ¬ tx.isCoinbase = true → Takeable c tx)
    (io : List WriteStatus) : Memory S (c.addBlock blk io).1 := by
  obtain ⟨blocks, height, blocksDb, heq⟩ := fst_addBlock blk io c
  have hloop := h.mineTxs htxs io
  rw [heq]
  exact ⟨hloop.good, hloop.spent, hloop.unspent⟩

/-- What admitting a transaction does to memory does not depend on the write. -/
theorem fst_admitTx (tx : Transaction) (status : WriteStatus) (c : Chain) :
    ∃ poolDb, (c.admitTx tx status).1 = { (c.admitTx tx .ok).1 with poolDb := poolDb } := by
  cases status with
  | ok => exact ⟨_, rfl⟩
  | error what written => exact ⟨_, rfl⟩

theorem Memory.admitTx {c : Chain} (h : Memory S c) {st : SignedTransaction}
    (hv : Chain.Valid S st c) (hc : st.tx.Constructed S) (status : WriteStatus) :
    Memory S (c.admitTx st.tx status).1 := by
  obtain ⟨poolDb, heq⟩ := fst_admitTx st.tx status c
  rw [heq]
  refine ⟨h.good.admitTx h.spent hv hc, h.spent.admitTx hv, fun k tx hk op hop => ?_⟩
  rcases getElem?_pool_admitTx hk with ⟨-, rfl⟩ | hold
  · obtain ⟨out, hout, -⟩ := hv.owned op hop
    exact (FiniteMap.mem_iff_exists _ _).mpr ⟨out, hout⟩
  · exact h.unspent k tx hold op hop

/-- The memory of a node at rest. -/
theorem memory_of_reachable {c : Chain} (h : Reachable S restartInRange c) : Memory S c where
  good := (base_of_reachable h).pool.good
  spent := (base_of_reachable h).pool.spent
  unspent := (kept_of_reachable (fun _ _ hg => hg) h).unspent

/-! ### What the TCP thread relies on -/

/-- The transactions of a block but its coinbase are in the pool, under their txids. -/
def FromPool (c : Chain) (txs : List Transaction) : Prop :=
  ∀ tx ∈ txs, ¬ tx.isCoinbase = true → c.pool[tx.txid]? = some tx

/-- What the chain still has of what the thread found. -/
def PhaseOk (c : Chain) : Phase → Prop
  | .poolContains p _ => FromPool c p.transactions
  | .getPoolTx p txid => FromPool c p.transactions ∧ txid ∈ c.pool
  | .target blk | .tipHash blk => FromPool c blk.transactions
  | .addBlock blk => FromPool c blk.transactions ∧ blk.header.prevHash = c.tipHash
  | .ready | .replied _ => True
  | .threw => False

theorem phaseOk_nextReference {c : Chain} {p : Parsing} (h : FromPool c p.transactions) :
    PhaseOk c (nextReference S p) := by
  unfold nextReference
  split
  · unfold finishParsing
    dsimp only
    split
    · trivial
    · exact h
  · split
    · trivial
    · exact h

theorem phaseOk_receiveBlock (c : Chain) (payload : Bytes) :
    PhaseOk c (receiveBlock S payload) := by
  unfold receiveBlock
  split
  · trivial
  next p r hstart =>
    obtain ⟨-, htxs, hcb⟩ := startParsing_eq_ok hstart
    apply phaseOk_nextReference
    rw [htxs]
    intro tx htx hne
    rw [List.mem_singleton.mp htx] at hne
    exact absurd hcb hne

/-- **What the thread relies on outlasts the admission of a transaction.** -/
theorem PhaseOk.admitTx {c : Chain} {phase : Phase} (h : PhaseOk c phase)
    {st : SignedTransaction} (hv : Chain.Valid S st c) (status : WriteStatus) :
    PhaseOk (c.admitTx st.tx status).1 phase := by
  obtain ⟨poolDb, heq⟩ := fst_admitTx st.tx status c
  rw [heq]
  -- the pool only gains a transaction, under a txid of its own
  have hpool : ∀ txs, FromPool c txs →
      FromPool { (c.admitTx st.tx .ok).1 with poolDb := poolDb } txs :=
    fun txs htxs tx htx hne => hv.getElem?_pool (htxs tx htx hne)
  cases phase with
  | poolContains p txid => exact hpool _ h
  | getPoolTx p txid =>
    obtain ⟨htxs, hin⟩ := h
    obtain ⟨tx, htx⟩ := (FiniteMap.mem_iff_exists _ _).mp hin
    exact ⟨hpool _ htxs, (FiniteMap.mem_iff_exists _ _).mpr ⟨tx, hv.getElem?_pool htx⟩⟩
  | target blk => exact hpool _ h
  | tipHash blk => exact hpool _ h
  | addBlock blk => exact ⟨hpool _ h.1, h.2⟩
  | ready | replied => trivial
  | threw => exact h

/-- **The step of the TCP thread.** -/
theorem PhaseOk.call {c c' : Chain} {phase phase' : Phase} (hmem : Memory S c)
    (h : PhaseOk c phase) {io : List WriteStatus}
    (hcall : call S io c phase = .ok (c', phase')) : Memory S c' ∧ PhaseOk c' phase' := by
  cases phase with
  | ready | replied | threw => cases hcall
  | poolContains p txid =>
    dsimp only [Axis.call] at hcall
    split at hcall
    · next hin =>
      cases hcall
      exact ⟨hmem, h, hin⟩
    · cases hcall
      exact ⟨hmem, trivial⟩
  | getPoolTx p txid =>
    obtain ⟨htxs, hin⟩ := h
    obtain ⟨tx, htx⟩ := (FiniteMap.mem_iff_exists _ _).mp hin
    simp only [Axis.call, htx] at hcall
    cases hcall
    refine ⟨hmem, phaseOk_nextReference ?_⟩
    intro t ht hne
    rcases List.mem_append.mp ht with hold | hnew
    · exact htxs t hold hne
    · rw [List.mem_singleton.mp hnew, hmem.good.key txid tx htx, htx]
  | target blk =>
    dsimp only [Axis.call] at hcall
    split at hcall
    · cases hcall
      exact ⟨hmem, trivial⟩
    · cases hcall
      exact ⟨hmem, h⟩
  | tipHash blk =>
    dsimp only [Axis.call] at hcall
    split at hcall
    · cases hcall
      exact ⟨hmem, trivial⟩
    · next hprev =>
      cases hcall
      exact ⟨hmem, h, not_not.mp hprev⟩
  | addBlock blk =>
    have hadded := hmem.addBlock (fun tx htx hne => hmem.takeable (h.1 tx htx hne)) io
    dsimp only [Axis.call] at hcall
    split at hcall
    · next heq =>
      cases hcall
      rw [heq] at hadded
      exact ⟨hadded, trivial⟩
    · next heq =>
      cases hcall
      rw [heq] at hadded
      exact ⟨hadded, trivial⟩

/-! ### Runs of the threads -/

/-- What a step of the threads does to the chain and to the TCP thread: nothing to
either, a transaction is submitted, a frame is taken, or the TCP thread makes a call. -/
theorem stepThreads_cases {s s' : Threads} {e : Event} (h : stepThreads S e s = .ok s') :
    (s'.chain = s.chain ∧ s'.tcp = s.tcp) ∨
    (∃ st status, st.tx.Constructed S ∧ s'.chain = (s.chain.addTx S st status).1 ∧
      (s'.tcp = s.tcp ∨ s'.tcp = .ready)) ∨
    (s'.chain = s.chain ∧ s.tcp.idle = true ∧
      (s'.tcp = .ready ∨ ∃ payload, s'.tcp = receiveBlock S payload)) ∨
    (∃ io, e = .call io ∧ call S io s.chain s.tcp = .ok (s'.chain, s'.tcp)) := by
  cases e with
  | createTx payload status =>
    dsimp only [stepThreads] at h
    split at h
    · next hidle =>
      cases h
      rcases fst_onCreateTx (S := S) payload.bytes status s.chain with hsame |
        ⟨parsed, r, hrun, hadd⟩
      · exact Or.inr (Or.inr (Or.inl ⟨hsame, hidle, Or.inl rfl⟩))
      · exact Or.inr (Or.inl ⟨_, status, constructed_signed payload.fits hrun, hadd, Or.inr rfl⟩)
    · cases h
  | createBlock payload =>
    dsimp only [stepThreads] at h
    split at h
    · next hidle =>
      cases h
      exact Or.inr (Or.inr (Or.inl ⟨rfl, hidle, Or.inr ⟨payload.bytes, rfl⟩⟩))
    · cases h
  | call io =>
    dsimp only [stepThreads] at h
    split at h
    · cases h
    · next c phase hcall =>
      cases h
      exact Or.inr (Or.inr (Or.inr ⟨io, rfl, hcall⟩))
  | postTx raw status =>
    cases h
    rcases fst_postTransaction (S := S) raw.bytes status s.chain with hsame |
      ⟨parsed, r, hrun, hadd⟩
    · exact Or.inl ⟨hsame, rfl⟩
    · have hfit := raw.fits
      exact Or.inr (Or.inl ⟨_, status, constructed_signed (by omega) hrun, hadd, Or.inl rfl⟩)
  | getTip | getStatus =>
    cases h
    exact Or.inl ⟨rfl, rfl⟩
  | read i =>
    dsimp only [stepThreads] at h
    split at h
    · cases h
    · split at h
      · cases h
      · cases h
        exact Or.inl ⟨rfl, rfl⟩

/-- **The invariant of all interleavings.** -/
theorem phaseOk_of_interleaved {allowed : Threads → Event → Prop} {s : Threads}
    (h : Interleaved S restartInRange allowed s) : Memory S s.chain ∧ PhaseOk s.chain s.tcp := by
  refine Transition.Reachable.rule (I := fun s => Memory S s.chain ∧ PhaseOk s.chain s.tcp)
    ?_ ?_ h
  · intro s hstart
    obtain ⟨hreach, htcp, -⟩ := hstart
    rw [htcp]
    exact ⟨memory_of_reachable hreach, trivial⟩
  · intro s e s' _ hinv _ hstep
    obtain ⟨hmem, hphase⟩ := hinv
    rcases stepThreads_cases hstep with ⟨hchain, htcp⟩ | ⟨st, status, hc, hchain, htcp⟩ |
      ⟨hchain, hidle, htcp⟩ | ⟨io, -, hcall⟩
    · rw [hchain, htcp]
      exact ⟨hmem, hphase⟩
    · -- a transaction: refused, or admitted
      have hboth : Memory S s'.chain ∧ PhaseOk s'.chain s.tcp := by
        rw [hchain]
        rcases addTx_cases S st status s.chain with hsame | ⟨hv, hadmitted⟩
        · rw [hsame]
          exact ⟨hmem, hphase⟩
        · rw [hadmitted]
          exact ⟨hmem.admitTx hv hc status, hphase.admitTx hv status⟩
      rcases htcp with hsame | hready
      · rw [hsame]
        exact hboth
      · rw [hready]
        exact ⟨hboth.1, trivial⟩
    · rw [hchain]
      rcases htcp with hready | ⟨payload, hreceived⟩
      · rw [hready]
        exact ⟨hmem, trivial⟩
      · rw [hreceived]
        exact ⟨hmem, phaseOk_receiveBlock _ _⟩
    · exact hphase.call hmem hcall

/-- **Block submission is safe under concurrent submissions.**  However the calls of
`on_create_block` are interleaved with other threads, and whatever the writes answer,
`get_pool_tx` never throws; and when `add_block` is called, the parent of the block is
the tip, and its transactions but the coinbase are in the pool with all their inputs
unspent.  The threads start from a node that was only restarted with at most `2 ^ 32`
blocks; a restart with more of them is excluded. -/
theorem createBlock_safe {s : Threads} (h : Interleaved S restartInRange anyEvent s) :
    s.tcp ≠ .threw ∧
    ∀ blk, s.tcp = .addBlock blk →
      blk.header.prevHash = s.chain.tipHash ∧
      ∀ tx ∈ blk.transactions, ¬ tx.isCoinbase = true →
        s.chain.pool[tx.txid]? = some tx ∧ ∀ op ∈ tx.inputs, op ∈ s.chain.utxo := by
  obtain ⟨hmem, hphase⟩ := phaseOk_of_interleaved h
  constructor
  · intro hthrew
    rw [hthrew] at hphase
    exact hphase
  · intro blk htcp
    rw [htcp] at hphase
    obtain ⟨hfrom, hprev⟩ := hphase
    refine ⟨hprev, fun tx htx hne => ?_⟩
    have hin := hfrom tx htx hne
    exact ⟨hin, hmem.unspent _ tx hin⟩

namespace Sample

/-- The TCP thread submits a block: the frame, and one call for each of its checks. -/
def checks (payload : FramePayload) (calls : ℕ) : List Event :=
  .createBlock payload :: List.replicate calls (.call [])

/-- The third block with the first payment, and the second payment in between. -/
def interleaving : List Event :=
  checks frame₁ 3 ++ checks frame₂ 3 ++ [.createTx payment₁ .ok] ++ checks frameSingle 1 ++
    [.postTx payment₂ .ok] ++ List.replicate 3 (.call [])

/-- The block that the thread comes to `add_block` with. -/
def submitted : Block := blockSingle.block sodiumSingle [(pay₁.signed sodiumSingle).tx]

end Sample

/-- What the threads do from the genesis block on. -/
abbrev runThreads (S : Sodium) (events : List Event) : Except String Threads :=
  Transition.exec (stepThreads S) events ⟨genesisChain S, .ready, []⟩

/-- A run of any threads reaches a state. -/
theorem exists_interleaved (guard : Chain → Op → Prop) (events : List Event) (P : Threads → Prop)
    (hok : Transition.Ok P (runThreads S events)) :
    ∃ s, runThreads S events = .ok s ∧ Interleaved S guard anyEvent s ∧ P s :=
  Transition.exists_of_exec_true (.start ⟨.start boot_empty, rfl, rfl⟩) hok

/-- A payment comes in while the thread reads the reference of its block. -/
theorem createBlock_safe_setup : ∃ s, runThreads Sample.sodiumSingle Sample.interleaving = .ok s ∧
    s.chain.pool.size = 2 ∧ s.tcp = .addBlock Sample.submitted ∧
    Sample.submitted.header.prevHash = s.chain.tipHash ∧
    ∀ tx ∈ Sample.submitted.transactions, ¬ tx.isCoinbase = true →
      s.chain.pool[tx.txid]? = some tx ∧ ∀ op ∈ tx.inputs, op ∈ s.chain.utxo := by
  obtain ⟨s, hrun, hreach, hpool, htcp⟩ := exists_interleaved (S := Sample.sodiumSingle)
    restartInRange Sample.interleaving
    (fun s => s.chain.pool.size = 2 ∧ s.tcp = .addBlock Sample.submitted) (by decide +kernel)
  exact ⟨s, hrun, hpool, htcp, (createBlock_safe hreach).2 Sample.submitted htcp⟩

end Axis
