import Axis.Charts
import Axis.Faults
import Axis.Frames
import Axis.GetPool

/-!
# Events over WebSocket

`broadcast_new_tx`, `broadcast_new_block` and `/ws/events` of `src/web.cpp`, as `main` ties them to
the TCP server.  The TCP thread and the HTTP threads report what the chain accepted, and there is
a moment between the acceptance and the report; a connection is entered in the set of connections
before it is greeted, and receives what is reported while it is in the set.

What `send_text` is called with is recorded for each connection; how it gets to the client is a
matter of the library.  What the TCP thread prints after a report is not a step here; when it ends
the process, a run is over.

## Main definitions

* `Notice`, `notice` — what a step of the node makes a thread report.
* `Web`, `stepWeb` — a node, its threads and its connections.

## Main results

* `blocks_stepThreads_eq` — a step appends exactly the block it reports.
* `notices_complete` — **everything accepted is reported once**, and blocks in the order of the
  chain.
* `notices_delivered` — **a connection gets every report of its time**, in order, and nothing
  after it was closed.
-/

namespace Axis

variable {S : Sodium}

/-! ### What is reported -/

structure NewTxJson where
  txid : String
  size : UInt64
  transaction : TransactionJson
  deriving DecidableEq

structure NewBlockJson where
  hash : String
  timestamp : UInt64
  transactionCount : UInt64
  size : UInt64
  deriving DecidableEq

/-- What is sent to a connection. -/
inductive Text
  | connected
  | pong
  | newTx (event : NewTxJson)
  | newBlock (event : NewBlockJson)
  deriving DecidableEq

/-- The text of a report, and no other one. -/
def Text.isEvent : Text → Bool
  | .connected | .pong => false
  | .newTx _ | .newBlock _ => true

def eventNewTxJson (tx : Transaction) : NewTxJson where
  txid := toHex tx.txid
  size := kTxFixedOverhead + kOutPointSize * sizeOfList tx.inputs +
    kTxOutputSize * sizeOfList tx.outputs
  transaction := transactionJson tx

def eventNewBlockJson (block : Block) : NewBlockJson where
  hash := toHex block.hash
  timestamp := block.header.timestamp.value
  transactionCount := sizeOfList block.transactions
  size := blockSerializedSize block

/-- What a thread reports. -/
inductive Notice
  | newTx (tx : Transaction)
  | newBlock (block : Block)
  deriving DecidableEq

def Notice.text : Notice → Text
  | .newTx tx => .newTx (eventNewTxJson tx)
  | .newBlock block => .newBlock (eventNewBlockJson block)

def Notice.block? : Notice → Option Block
  | .newTx _ => none
  | .newBlock block => some block

/-- The blocks of some reports. -/
def blocksOf (notices : List Notice) : List Block := notices.filterMap Notice.block?

/-- The transaction, if `add_tx` answers that it was accepted. -/
def acceptedTx (S : Sodium) (st : SignedTransaction) (status : WriteStatus) (c : Chain) :
    Option Notice :=
  match (c.addTx S st status).2 with
  | .ok .none => some (.newTx st.tx)
  | _ => none

/-- What a thread has to report after a step of the node. -/
def notice (S : Sodium) : Event → Threads → Option Notice
  | .createTx payload status, s =>
    match parseCreateTxPayload.run ⟨payload.bytes, 0⟩ with
    | .error _ => none
    | .ok (parsed, _) => acceptedTx S (parsed.signed S) status s.chain
  | .postTx raw status, s =>
    match parseSignedTransactionPayload S raw.bytes with
    | .error _ => none
    | .ok signedTx => acceptedTx S signedTx status s.chain
  | .call io, s =>
    match s.tcp with
    | .addBlock blk =>
      match (s.chain.addBlock blk io).2 with
      | .ok () => some (.newBlock blk)
      | .error _ => none
    | _ => none
  | .createBlock _, _ | .getTip, _ | .getStatus, _ | .read _, _ => none

/-! ### The node and its connections -/

/-- A node with what its threads have still to report, and its connections: the set, those that
were not greeted yet, all that there have been, and what was sent to each.  What was accepted and
what was reported is recorded too. -/
structure Web (κ : Type) where
  node : Threads
  tcpNotice : Option Notice := none
  httpNotices : List Notice := []
  connections : List κ := []
  greeting : List κ := []
  opened : List κ := []
  sent : κ → List Text := fun _ => []
  accepted : List Notice := []
  log : List Notice := []

/-- A step of the node, a report, or a callback of a connection; the one that opens a
connection is in two parts. -/
inductive WebEvent (κ : Type)
  | node (e : Event)
  | tcpBroadcast
  | httpBroadcast (i : ℕ)
  | onopen (k : κ)
  | greet (k : κ)
  | onclose (k : κ)
  | onmessage (k : κ) (message : Bytes) (isBinary : Bool)

variable {κ : Type} [DecidableEq κ]

def WebEvent.closes (k : κ) : WebEvent κ → Bool
  | .onclose k' => k' = k
  | _ => false

namespace Web

def sendText (k : κ) (text : Text) (s : Web κ) : Web κ :=
  { s with sent := Function.update s.sent k (s.sent k ++ [text]) }

/-- `broadcast_text`, with what it reports. -/
def broadcast (n : Notice) (s : Web κ) : Web κ :=
  { s with
    sent := fun k => if k ∈ s.connections then s.sent k ++ [n.text] else s.sent k
    log := s.log ++ [n] }

/-- A thread has something to report, or nothing. -/
def report (tcp : Bool) (n : Option Notice) (s : Web κ) : Web κ :=
  { s with
    tcpNotice := if tcp then n.or s.tcpNotice else s.tcpNotice
    httpNotices := if tcp then s.httpNotices else s.httpNotices ++ n.toList
    accepted := s.accepted ++ n.toList }

end Web

/-- The two texts that are answered. -/
def isPing (message : Bytes) : Bool :=
  message = textBytes "ping" || message = textBytes "\x7b\"type\":\"ping\"\x7d"

/-- The TCP thread takes its next step when it has reported; a connection is opened once, and has
other callbacks between its greeting and its end. -/
def stepWeb (S : Sodium) : WebEvent κ → Web κ → Except String (Web κ)
  | .node e, s =>
    if e.onTcp ∧ s.tcpNotice ≠ none then .error "the TCP thread has something to report"
    else
      (stepThreads S e s.node).map fun node =>
        { s.report e.onTcp (notice S e s.node) with node := node }
  | .tcpBroadcast, s =>
    match s.tcpNotice with
    | none => .error "the TCP thread has nothing to report"
    | some n => .ok { s.broadcast n with tcpNotice := none }
  | .httpBroadcast i, s =>
    match s.httpNotices[i]? with
    | none => .error "no such thread"
    | some n => .ok { s.broadcast n with httpNotices := s.httpNotices.eraseIdx i }
  | .onopen k, s =>
    if k ∈ s.opened then .error "the connection was opened before"
    else
      .ok { s with
        connections := k :: s.connections, greeting := k :: s.greeting, opened := k :: s.opened }
  | .greet k, s =>
    if k ∈ s.greeting then .ok { s.sendText k .connected with greeting := s.greeting.erase k }
    else .error "the connection is not being opened"
  | .onclose k, s =>
    if k ∈ s.connections ∧ k ∉ s.greeting then
      .ok { s with connections := s.connections.filter fun k' => k' ≠ k }
    else .error "the connection is not open"
  | .onmessage k message isBinary, s =>
    if k ∈ s.connections ∧ k ∉ s.greeting then
      if isBinary then .ok s
      else if isPing message then .ok (s.sendText k .pong)
      else .ok s
    else .error "the connection is not open"

/-- What a step can do. -/
inductive WebStep (S : Sodium) (s : Web κ) : WebEvent κ → Web κ → Prop
  | node {e : Event} {node : Threads} (hfree : ¬ (e.onTcp = true ∧ s.tcpNotice ≠ none))
      (h : stepThreads S e s.node = .ok node) :
      WebStep S s (.node e) { s.report e.onTcp (notice S e s.node) with node := node }
  | tcpBroadcast {n : Notice} (hn : s.tcpNotice = some n) :
      WebStep S s .tcpBroadcast { s.broadcast n with tcpNotice := none }
  | httpBroadcast {i : ℕ} {n : Notice} (hn : s.httpNotices[i]? = some n) :
      WebStep S s (.httpBroadcast i)
        { s.broadcast n with httpNotices := s.httpNotices.eraseIdx i }
  | onopen {k : κ} (hk : k ∉ s.opened) :
      WebStep S s (.onopen k)
        { s with
          connections := k :: s.connections, greeting := k :: s.greeting, opened := k :: s.opened }
  | greet {k : κ} (hk : k ∈ s.greeting) :
      WebStep S s (.greet k) { s.sendText k .connected with greeting := s.greeting.erase k }
  | onclose {k : κ} (hk : k ∈ s.connections) (hgreeted : k ∉ s.greeting) :
      WebStep S s (.onclose k)
        { s with connections := s.connections.filter fun k' => k' ≠ k }
  | pong {k : κ} {message : Bytes} {isBinary : Bool} (hk : k ∈ s.connections) :
      WebStep S s (.onmessage k message isBinary) (s.sendText k .pong)
  | ignored {k : κ} {message : Bytes} {isBinary : Bool} :
      WebStep S s (.onmessage k message isBinary) s

theorem webStep_of_stepWeb {s s' : Web κ} {e : WebEvent κ} (h : stepWeb S e s = .ok s') :
    WebStep S s e s' := by
  cases e with
  | node e =>
    dsimp only [stepWeb] at h
    split at h
    · cases h
    next hfree =>
    cases hnode : stepThreads S e s.node with
    | error what =>
      rw [hnode] at h
      cases h
    | ok node =>
      rw [hnode] at h
      cases h
      exact .node hfree hnode
  | tcpBroadcast =>
    dsimp only [stepWeb] at h
    split at h
    · cases h
    next n hn =>
    cases h
    exact .tcpBroadcast hn
  | httpBroadcast i =>
    dsimp only [stepWeb] at h
    split at h
    · cases h
    next n hn =>
    cases h
    exact .httpBroadcast hn
  | onopen k =>
    dsimp only [stepWeb] at h
    split at h
    · cases h
    next hk =>
    cases h
    exact .onopen hk
  | greet k =>
    dsimp only [stepWeb] at h
    split at h
    next hk =>
      cases h
      exact .greet hk
    · cases h
  | onclose k =>
    dsimp only [stepWeb] at h
    split at h
    next hk =>
      cases h
      exact .onclose hk.1 hk.2
    · cases h
  | onmessage k message isBinary =>
    dsimp only [stepWeb] at h
    split at h
    next hk =>
      split at h
      · cases h
        exact .ignored
      · split at h
        all_goals cases h
        · exact .pong hk.1
        · exact .ignored
    · cases h

/-! ### What is accepted is reported -/

/-- A submitted transaction leaves the blocks alone. -/
theorem blocks_addTx (st : SignedTransaction) (status : WriteStatus) (c : Chain) :
    (c.addTx S st status).1.blocks = c.blocks := by
  rcases addTx_cases S st status c with hsame | ⟨-, hadd⟩
  · rw [hsame]
  · rw [hadd]
    cases status <;> rfl

theorem block?_acceptedTx {st : SignedTransaction} {status : WriteStatus} {c : Chain} :
    (acceptedTx S st status c).bind Notice.block? = none := by
  unfold acceptedTx
  split <;> rfl

/-- A call of `add_block` appends its block when it does not throw. -/
theorem blocks_addBlock_eq (blk : Block) (io : List WriteStatus) (c : Chain) :
    (c.addBlock blk io).1.blocks = c.blocks ++
      ((match (c.addBlock blk io).2 with
        | .ok () => some (Notice.newBlock blk)
        | .error _ => none).bind Notice.block?).toList := by
  cases hres : (c.addBlock blk io).2 with
  | error what =>
    rw [(blocks_addBlock_of_throws hres).1]
    exact (List.append_nil _).symm
  | ok u =>
    have hok : ¬ ∃ what, (c.addBlock blk io).2 = .error what := by simp [hres]
    rw [addBlock_throws_iff] at hok
    push Not at hok
    rw [addBlock_eq hok]
    rfl

/-- A submitted transaction makes no thread report a block. -/
theorem block?_notice_createTx (payload : FramePayload) (status : WriteStatus) (s : Threads) :
    (notice S (.createTx payload status) s).bind Notice.block? = none := by
  dsimp only [notice]
  split
  · rfl
  · exact block?_acceptedTx

theorem block?_notice_postTx (raw : RawTx) (status : WriteStatus) (s : Threads) :
    (notice S (.postTx raw status) s).bind Notice.block? = none := by
  dsimp only [notice]
  split
  · rfl
  · exact block?_acceptedTx

/-- The last call of a submitted block. -/
theorem fst_call_addBlock {blk : Block} {io : List WriteStatus} {c c' : Chain} {phase : Phase}
    (h : call S io c (.addBlock blk) = .ok (c', phase)) : c' = (c.addBlock blk io).1 := by
  dsimp only [call] at h
  split at h
  all_goals next heq =>
    cases h
    rw [heq]

/-- **A step appends exactly the block it reports.** -/
theorem blocks_stepThreads_eq {s s' : Threads} {e : Event} (h : stepThreads S e s = .ok s') :
    s'.chain.blocks = s.chain.blocks ++ ((notice S e s).bind Notice.block?).toList := by
  cases e with
  | createTx payload status =>
    dsimp only [stepThreads] at h
    split at h
    · cases h
      rw [block?_notice_createTx, Option.toList_none, List.append_nil]
      dsimp only
      rcases fst_onCreateTx (S := S) payload.bytes status s.chain with hsame | ⟨parsed, r, -, hadd⟩
      · rw [hsame]
      · rw [hadd, blocks_addTx]
    · cases h
  | postTx raw status =>
    cases h
    rw [block?_notice_postTx, Option.toList_none, List.append_nil]
    dsimp only
    rcases fst_postTransaction (S := S) raw.bytes status s.chain with hsame | ⟨parsed, r, -, hadd⟩
    · rw [hsame]
    · rw [hadd, blocks_addTx]
  | createBlock payload =>
    dsimp only [stepThreads] at h
    split at h
    · cases h
      exact (List.append_nil _).symm
    · cases h
  | call io =>
    dsimp only [stepThreads] at h
    split at h
    · cases h
    next c phase hcall =>
    cases h
    dsimp only [notice]
    cases htcp : s.tcp with
    | addBlock blk =>
      rw [htcp] at hcall
      rw [fst_call_addBlock hcall]
      exact blocks_addBlock_eq blk io s.chain
    | ready | replied answer | threw =>
      rw [htcp] at hcall
      cases hcall
    | poolContains p txid | getPoolTx p txid | target blk | tipHash blk =>
      rw [htcp] at hcall
      dsimp only [call] at hcall
      split at hcall
      all_goals cases hcall
      all_goals exact (List.append_nil _).symm
  | getTip | getStatus =>
    cases h
    exact (List.append_nil _).symm
  | read i =>
    dsimp only [stepThreads] at h
    split at h
    · cases h
    split at h
    · cases h
    · cases h
      exact (List.append_nil _).symm

/-- A node without connections. -/
def startWeb (c : Chain) : Web κ where
  node := ⟨c, .ready, []⟩

theorem blocksOf_append (ns ms : List Notice) :
    blocksOf (ns ++ ms) = blocksOf ns ++ blocksOf ms := List.filterMap_append

theorem blocksOf_toList (n : Option Notice) :
    blocksOf n.toList = (n.bind Notice.block?).toList := by
  cases n with
  | none => rfl
  | some n => cases n <;> rfl

/-- Nothing that was accepted is forgotten or reported twice, and the TCP thread reports the
blocks. -/
structure Reported (c₀ : Chain) (s : Web κ) : Prop where
  accepted : (s.log ++ s.tcpNotice.toList ++ s.httpNotices).Perm s.accepted
  blocks : s.node.chain.blocks = c₀.blocks ++ blocksOf (s.log ++ s.tcpNotice.toList)
  http : blocksOf s.httpNotices = []

omit [DecidableEq κ] in
theorem reported_startWeb (c : Chain) : Reported c (startWeb c : Web κ) where
  accepted := .refl _
  blocks := (List.append_nil _).symm
  http := rfl

/-- Only the TCP thread reports blocks. -/
theorem block?_notice_of_http {e : Event} (he : e.onTcp = false) (s : Threads) :
    (notice S e s).bind Notice.block? = none := by
  cases e with
  | createTx | createBlock | call => cases he
  | postTx raw status => exact block?_notice_postTx raw status s
  | getTip | getStatus | read => rfl

omit [DecidableEq κ] in
/-- What a step of the node leaves to be reported. -/
theorem Reported.node {c₀ : Chain} {s : Web κ} (h : Reported c₀ s) {e : Event}
    (hfree : ¬ (e.onTcp = true ∧ s.tcpNotice ≠ none)) {node : Threads}
    (hstep : stepThreads S e s.node = .ok node) :
    Reported c₀ { s.report e.onTcp (notice S e s.node) with node := node } := by
  have hblocks := blocks_stepThreads_eq hstep
  cases he : e.onTcp with
  | true =>
    have hnone : s.tcpNotice = none := by
      by_contra hsome
      exact hfree ⟨he, hsome⟩
    obtain ⟨haccepted, hold, hhttp⟩ := h
    rw [hnone, Option.toList_none, List.append_nil] at haccepted hold
    refine ⟨?_, ?_, hhttp⟩
    · show (s.log ++ ((notice S e s.node).or s.tcpNotice).toList ++ s.httpNotices).Perm
        (s.accepted ++ (notice S e s.node).toList)
      rw [hnone, Option.or_none, List.append_assoc]
      refine (List.perm_append_comm.append_left s.log).trans ?_
      rw [← List.append_assoc]
      exact haccepted.append_right _
    · show node.chain.blocks =
        c₀.blocks ++ blocksOf (s.log ++ ((notice S e s.node).or s.tcpNotice).toList)
      rw [hblocks, hold, hnone, Option.or_none, blocksOf_append, blocksOf_toList, List.append_assoc]
  | false =>
    have hno := block?_notice_of_http (S := S) he s.node
    refine ⟨?_, ?_, ?_⟩
    · show (s.log ++ s.tcpNotice.toList ++ (s.httpNotices ++ (notice S e s.node).toList)).Perm
        (s.accepted ++ (notice S e s.node).toList)
      rw [← List.append_assoc]
      exact h.accepted.append_right _
    · show node.chain.blocks = c₀.blocks ++ blocksOf (s.log ++ s.tcpNotice.toList)
      rw [hblocks, hno, Option.toList_none, List.append_nil, h.blocks]
    · show blocksOf (s.httpNotices ++ (notice S e s.node).toList) = []
      rw [blocksOf_append, h.http, blocksOf_toList, hno]
      rfl

/-- An HTTP thread reports what it accepted. -/
theorem Reported.httpBroadcast {c₀ : Chain} {s : Web κ} (h : Reported c₀ s) {i : ℕ} {n : Notice}
    (hn : s.httpNotices[i]? = some n) :
    Reported c₀ { s.broadcast n with httpNotices := s.httpNotices.eraseIdx i } := by
  obtain ⟨hi, rfl⟩ := List.getElem?_eq_some_iff.mp hn
  have hmove : (s.httpNotices[i] :: s.httpNotices.eraseIdx i).Perm s.httpNotices :=
    List.getElem_cons_eraseIdx_perm hi
  -- no report of these threads is one of a block
  have hno : s.httpNotices[i].block? = none :=
    List.filterMap_eq_nil_iff.mp h.http _ (List.getElem_mem hi)
  refine ⟨?_, ?_, ?_⟩
  · refine List.Perm.trans ?_ h.accepted
    show (s.log ++ [s.httpNotices[i]] ++ s.tcpNotice.toList ++ s.httpNotices.eraseIdx i).Perm _
    rw [List.append_assoc, List.append_assoc, List.append_assoc]
    refine List.Perm.append_left s.log ?_
    rw [List.singleton_append]
    exact List.perm_middle.symm.trans (hmove.append_left _)
  · show s.node.chain.blocks =
      c₀.blocks ++ blocksOf (s.log ++ [s.httpNotices[i]] ++ s.tcpNotice.toList)
    have hone : blocksOf [s.httpNotices[i]] = [] := by
      rw [blocksOf, List.filterMap_cons_none hno, List.filterMap_nil]
    rw [h.blocks, blocksOf_append, blocksOf_append, blocksOf_append, hone, List.append_nil]
  · refine List.filterMap_eq_nil_iff.mpr ?_
    intro m hm
    exact List.filterMap_eq_nil_iff.mp h.http m (List.mem_of_mem_eraseIdx hm)

/-- **A step keeps the account of what is reported.** -/
theorem Reported.step {c₀ : Chain} {s s' : Web κ} (h : Reported c₀ s) {e : WebEvent κ}
    (hstep : WebStep S s e s') : Reported c₀ s' := by
  cases hstep with
  | node hfree hnode => exact h.node hfree hnode
  | tcpBroadcast hn =>
    next n =>
    obtain ⟨haccepted, hblocks, hhttp⟩ := h
    rw [hn, Option.toList_some] at haccepted hblocks
    refine ⟨?_, ?_, hhttp⟩
    · show (s.log ++ [n] ++ [] ++ s.httpNotices).Perm s.accepted
      rwa [List.append_nil]
    · show s.node.chain.blocks = c₀.blocks ++ blocksOf (s.log ++ [n] ++ [])
      rwa [List.append_nil]
  | httpBroadcast hn => exact h.httpBroadcast hn
  | onopen | greet | onclose | pong => exact ⟨h.accepted, h.blocks, h.http⟩
  | ignored => exact h

namespace Sample

/-- A submitted block, from its frame to the report. -/
def blockFeed (payload : FramePayload) : List (WebEvent ℕ) :=
  (checks payload 3).map .node ++ [.tcpBroadcast]

end Sample

/-- What a node and its connections do from the genesis block on. -/
abbrev runWeb (S : Sodium) (events : List (WebEvent κ)) : Except String (Web κ) :=
  Transition.exec (stepWeb S) events (startWeb (genesisChain S))

theorem exists_web (events : List (WebEvent κ)) (P : Web κ → Prop)
    (hok : Transition.Ok P (runWeb S events)) : ∃ s, runWeb S events = .ok s ∧ P s :=
  Transition.ok_iff.mp hok

theorem Notice.text_ne (n : Notice) : n.text ≠ .connected := by
  cases n <;> exact fun h => Text.noConfusion h

theorem Notice.isEvent_text (n : Notice) : n.text.isEvent = true := by
  cases n <;> rfl

/-- The connections that were opened: each is greeted once, and nothing is sent before. -/
structure Opened (s : Web κ) : Prop where
  greeting : ∀ k ∈ s.greeting, k ∈ s.connections
  opened : ∀ k ∈ s.connections, k ∈ s.opened
  nodup : s.greeting.Nodup
  unsent : ∀ k, k ∉ s.opened → s.sent k = []
  ungreeted : ∀ k ∈ s.greeting, (s.sent k).count .connected = 0
  greeted : ∀ k ∈ s.opened, k ∉ s.greeting → (s.sent k).count .connected = 1

omit [DecidableEq κ] in
theorem opened_startWeb (c : Chain) : Opened (startWeb c : Web κ) where
  greeting k hk := by cases hk
  opened k hk := by cases hk
  nodup := List.nodup_nil
  unsent k _ := rfl
  ungreeted k hk := by cases hk
  greeted k hk := by cases hk

theorem sent_sendText_self (k : κ) (text : Text) (s : Web κ) :
    (s.sendText k text).sent k = s.sent k ++ [text] := Function.update_self ..

theorem sent_sendText_of_ne {k k' : κ} (h : k' ≠ k) (text : Text) (s : Web κ) :
    (s.sendText k text).sent k' = s.sent k' := Function.update_of_ne h ..

theorem sent_broadcast_of_mem {k : κ} {s : Web κ} (h : k ∈ s.connections) (n : Notice) :
    (s.broadcast n).sent k = s.sent k ++ [n.text] := if_pos h

theorem sent_broadcast_of_notMem {k : κ} {s : Web κ} (h : k ∉ s.connections) (n : Notice) :
    (s.broadcast n).sent k = s.sent k := if_neg h

/-- A report greets nobody. -/
theorem count_sent_broadcast (n : Notice) (s : Web κ) (k : κ) :
    ((s.broadcast n).sent k).count .connected = (s.sent k).count .connected := by
  by_cases hk : k ∈ s.connections
  · rw [sent_broadcast_of_mem hk, List.count_append, List.count_singleton, Nat.add_eq_left,
      if_neg]
    exact fun heq => n.text_ne (eq_of_beq heq)
  · rw [sent_broadcast_of_notMem hk]

/-- A report goes to connections only. -/
theorem Opened.broadcast {s : Web κ} (h : Opened s) (n : Notice) : Opened (s.broadcast n) where
  greeting := h.greeting
  opened := h.opened
  nodup := h.nodup
  unsent k hk := by
    rw [sent_broadcast_of_notMem fun hmem => hk (h.opened k hmem)]
    exact h.unsent k hk
  ungreeted k hk := by
    rw [count_sent_broadcast]
    exact h.ungreeted k hk
  greeted k hk hnot := by
    rw [count_sent_broadcast]
    exact h.greeted k hk hnot

/-- What is sent to one connection is not sent to another one. -/
theorem unsent_sendText {s : Web κ} (h : Opened s) {k : κ} (hk : k ∈ s.opened) (text : Text)
    (k' : κ) (hk' : k' ∉ s.opened) : (s.sendText k text).sent k' = [] := by
  have hne : k' ≠ k := by
    intro heq
    exact hk' (heq ▸ hk)
  rw [sent_sendText_of_ne hne]
  exact h.unsent k' hk'

/-- An answer greets nobody. -/
theorem count_sent_pong (k : κ) (s : Web κ) (k' : κ) :
    ((s.sendText k .pong).sent k').count .connected = (s.sent k').count .connected := by
  by_cases hne : k' = k
  · rw [hne, sent_sendText_self, List.count_append]
    rfl
  · rw [sent_sendText_of_ne hne]

/-- An answer goes to a connection. -/
theorem Opened.pong {s : Web κ} (h : Opened s) {k : κ} (hk : k ∈ s.connections) :
    Opened (s.sendText k .pong) where
  greeting := h.greeting
  opened := h.opened
  nodup := h.nodup
  unsent := unsent_sendText h (h.opened k hk) .pong
  ungreeted k' hk' := by
    rw [count_sent_pong]
    exact h.ungreeted k' hk'
  greeted k' hk' hnot := by
    rw [count_sent_pong]
    exact h.greeted k' hk' hnot

/-- The greeting is sent. -/
theorem Opened.greet {s : Web κ} (h : Opened s) {k : κ} (hk : k ∈ s.greeting) :
    Opened { s.sendText k .connected with greeting := s.greeting.erase k } where
  greeting k' hk' := h.greeting k' (List.mem_of_mem_erase hk')
  opened := h.opened
  nodup := h.nodup.erase k
  unsent := unsent_sendText h (h.opened k (h.greeting k hk)) .connected
  ungreeted k' hk' := by
    obtain ⟨hne, hmem⟩ := h.nodup.mem_erase_iff.mp hk'
    show ((s.sendText k .connected).sent k').count .connected = 0
    rw [sent_sendText_of_ne hne]
    exact h.ungreeted k' hmem
  greeted k' hk' hnot := by
    show ((s.sendText k .connected).sent k').count .connected = 1
    by_cases hne : k' = k
    · rw [hne, sent_sendText_self, List.count_append, h.ungreeted k hk]
      rfl
    · rw [sent_sendText_of_ne hne]
      exact h.greeted k' hk' fun hmem => hnot (h.nodup.mem_erase_iff.mpr ⟨hne, hmem⟩)

omit [DecidableEq κ] in
/-- A connection is entered. -/
theorem Opened.onopen {s : Web κ} (h : Opened s) {k : κ} (hk : k ∉ s.opened) :
    Opened { s with
      connections := k :: s.connections
      greeting := k :: s.greeting
      opened := k :: s.opened } where
  greeting k' hk' := by
    rcases List.mem_cons.mp hk' with rfl | hold
    · exact List.mem_cons_self
    · exact List.mem_cons_of_mem _ (h.greeting k' hold)
  opened k' hk' := by
    rcases List.mem_cons.mp hk' with rfl | hold
    · exact List.mem_cons_self
    · exact List.mem_cons_of_mem _ (h.opened k' hold)
  nodup := List.nodup_cons.mpr ⟨fun hmem => hk (h.opened k (h.greeting k hmem)), h.nodup⟩
  unsent k' hk' := h.unsent k' fun hold => hk' (List.mem_cons_of_mem _ hold)
  ungreeted k' hk' := by
    rcases List.mem_cons.mp hk' with rfl | hold
    · show (s.sent k').count .connected = 0
      rw [h.unsent k' hk, List.count_nil]
    · exact h.ungreeted k' hold
  greeted k' hk' hnot := by
    rw [List.mem_cons, not_or] at hnot
    exact h.greeted k' (List.mem_of_ne_of_mem hnot.1 hk') hnot.2

omit [DecidableEq κ] in
/-- What `Opened` is about. -/
theorem Opened.congr {s s' : Web κ} (h : Opened s) (hconnections : s'.connections = s.connections)
    (hgreeting : s'.greeting = s.greeting) (hopened : s'.opened = s.opened)
    (hsent : s'.sent = s.sent) : Opened s' := by
  obtain ⟨hg, ho, hn, hu, hug, hgr⟩ := h
  constructor
  all_goals simpa only [hconnections, hgreeting, hopened, hsent]

/-- **A step keeps the account of the connections.** -/
theorem Opened.step {s s' : Web κ} (h : Opened s) {e : WebEvent κ}
    (hstep : WebStep S s e s') : Opened s' := by
  cases hstep with
  | node => exact h.congr rfl rfl rfl rfl
  | tcpBroadcast | httpBroadcast => exact (h.broadcast _).congr rfl rfl rfl rfl
  | onopen hk => exact h.onopen hk
  | greet hk => exact h.greet hk
  | onclose hk hgreeted =>
    next k =>
    refine ⟨?_, ?_, h.nodup, h.unsent, h.ungreeted, h.greeted⟩
    · intro k' hk'
      have hne : k' ≠ k := by
        rintro rfl
        exact hgreeted hk'
      exact List.mem_filter.mpr ⟨h.greeting k' hk', decide_eq_true hne⟩
    · intro k' hk'
      exact h.opened k' (List.mem_of_mem_filter hk')
  | pong hk => exact h.pong hk
  | ignored => exact h

/-- The reports that were sent to a connection. -/
def Web.events (k : κ) (s : Web κ) : List Text := (s.sent k).filter Text.isEvent

/-- A connection that is still in the set has got every report since the first state. -/
structure Delivered (k : κ) (s₁ s : Web κ) : Prop where
  connected : k ∈ s.connections
  events : ∃ new, s.log = s₁.log ++ new ∧ s.events k = s₁.events k ++ new.map Notice.text

/-- A report is delivered. -/
theorem Delivered.broadcast {k : κ} {s₁ s : Web κ} (h : Delivered k s₁ s) (n : Notice) :
    Delivered k s₁ (s.broadcast n) where
  connected := h.connected
  events := by
    obtain ⟨new, hlog, hevents⟩ := h.events
    refine ⟨new ++ [n], ?_, ?_⟩
    · show s.log ++ [n] = _
      rw [hlog, List.append_assoc]
    · rw [Web.events, sent_broadcast_of_mem h.connected, List.filter_append, ← Web.events,
        hevents, List.map_append, List.append_assoc, List.filter_singleton, n.isEvent_text]
      rfl

/-- Any other text is none of the reports. -/
theorem events_sendText {text : Text} (h : text.isEvent = false) (k k' : κ) (s : Web κ) :
    (s.sendText k' text).events k = s.events k := by
  unfold Web.events
  by_cases hne : k = k'
  · rw [hne, sent_sendText_self, List.filter_append, List.filter_singleton, h]
    exact List.append_nil _
  · rw [sent_sendText_of_ne hne]

/-- **A step delivers what it reports** to a connection that it does not close. -/
theorem Delivered.step {k : κ} {s₁ s s' : Web κ} (h : Delivered k s₁ s) {e : WebEvent κ}
    (he : e.closes k = false) (hstep : WebStep S s e s') : Delivered k s₁ s' := by
  cases hstep with
  | node => exact ⟨h.connected, h.events⟩
  | tcpBroadcast | httpBroadcast =>
    next n _ =>
    obtain ⟨hconnected, hevents⟩ := h.broadcast n
    exact ⟨hconnected, hevents⟩
  | onopen => exact ⟨List.mem_cons_of_mem _ h.connected, h.events⟩
  | greet =>
    obtain ⟨new, hlog, hevents⟩ := h.events
    exact ⟨h.connected, new, hlog, (events_sendText rfl k _ s).trans hevents⟩
  | onclose =>
    next k' _ _ =>
    have hne : k ≠ k' := fun heq => of_decide_eq_false he heq.symm
    exact ⟨List.mem_filter.mpr ⟨h.connected, decide_eq_true hne⟩, h.events⟩
  | pong =>
    obtain ⟨new, hlog, hevents⟩ := h.events
    exact ⟨h.connected, new, hlog, (events_sendText rfl k _ s).trans hevents⟩
  | ignored => exact h

/-- A connection that is no longer in the set. -/
structure Closed (k : κ) (sent : List Text) (s : Web κ) : Prop where
  opened : k ∈ s.opened
  notMem : k ∉ s.connections
  sent_eq : s.sent k = sent

/-- A text goes to another connection. -/
theorem Closed.sendText {k : κ} {sent : List Text} {s : Web κ} (h : Closed k sent s) {k' : κ}
    (hk' : k' ∈ s.connections) (text : Text) : Closed k sent (s.sendText k' text) := by
  have hne : k ≠ k' := by
    rintro rfl
    exact h.notMem hk'
  exact ⟨h.opened, h.notMem, (sent_sendText_of_ne hne _ s).trans h.sent_eq⟩

/-- **A step sends nothing to a connection that was closed.** -/
theorem Closed.step {k : κ} {sent : List Text} {s s' : Web κ} (h : Closed k sent s)
    (hopened : Opened s) {e : WebEvent κ} (hstep : WebStep S s e s') : Closed k sent s' := by
  cases hstep with
  | node => exact ⟨h.opened, h.notMem, h.sent_eq⟩
  | tcpBroadcast | httpBroadcast =>
    exact ⟨h.opened, h.notMem, (sent_broadcast_of_notMem h.notMem _).trans h.sent_eq⟩
  | onopen hk' =>
    refine ⟨List.mem_cons_of_mem _ h.opened, ?_, h.sent_eq⟩
    intro hmem
    rcases List.mem_cons.mp hmem with rfl | hold
    · exact hk' h.opened
    · exact h.notMem hold
  | greet hk' =>
    obtain ⟨hop, hnot, hsent⟩ := h.sendText (hopened.greeting _ hk') .connected
    exact ⟨hop, hnot, hsent⟩
  | onclose => exact ⟨h.opened, fun hmem => h.notMem (List.mem_of_mem_filter hmem), h.sent_eq⟩
  | pong hk' => exact h.sendText hk' .pong
  | ignored => exact h

/-- A step appends blocks only. -/
theorem blocks_prefix_stepWeb {s s' : Web κ} {e : WebEvent κ} (h : WebStep S s e s') :
    s.node.chain.blocks <+: s'.node.chain.blocks := by
  cases h with
  | node _ hnode => exact ⟨_, (blocks_stepThreads_eq hnode).symm⟩
  | tcpBroadcast | httpBroadcast | onopen | greet | onclose | pong | ignored =>
    exact List.prefix_refl _

/-- **A connection gets every report of its time**, in the order in which they were made, and one
greeting; among them are the blocks of its time, but for one that the TCP thread had not reported
yet.  Once it was closed nothing is sent to it. -/
theorem notices_delivered (S : Sodium) {c : Chain} {before mid : List (WebEvent κ)} {k : κ}
    {s₁ s₂ : Web κ} (h₁ : Transition.exec (stepWeb S) before (startWeb c) = .ok s₁)
    (h₂ : Transition.exec (stepWeb S) (.onopen k :: mid) s₁ = .ok s₂)
    (hmid : ∀ e ∈ mid, e.closes k = false) :
    (∃ new blocks, s₂.log = s₁.log ++ new ∧ s₂.events k = new.map Notice.text ∧
      s₂.node.chain.blocks = s₁.node.chain.blocks ++ blocks ∧
      blocksOf s₁.tcpNotice.toList ++ blocks = blocksOf new ++ blocksOf s₂.tcpNotice.toList) ∧
    (s₂.sent k).count .connected ≤ 1 ∧
    ∀ after s₃, Transition.exec (stepWeb S) (.onclose k :: after) s₂ = .ok s₃ →
      s₃.sent k = s₂.sent k ∧ (s₃.sent k).count .connected = 1 := by
  -- what holds before the connection, and while it is open
  have hbefore : Reported c s₁ ∧ Opened s₁ := by
    refine Transition.exec_invariant (I := fun t => Reported c t ∧ Opened t) ?_
      ⟨reported_startWeb c, opened_startWeb c⟩ h₁
    intro e _ t t' ht hstep
    exact ⟨ht.1.step (webStep_of_stepWeb hstep), ht.2.step (webStep_of_stepWeb hstep)⟩
  obtain ⟨t, hopen, hrest⟩ := Transition.exec_cons_eq_ok.mp h₂
  have hstep := webStep_of_stepWeb hopen
  have hfirst : k ∉ s₁.opened ∧ Delivered k s₁ t := by
    cases hstep with
    | onopen hk => exact ⟨hk, List.mem_cons_self, [], (List.append_nil _).symm,
        (List.append_nil _).symm⟩
  have hwhile : Reported c s₂ ∧ Opened s₂ ∧ Delivered k s₁ s₂ ∧
      s₁.node.chain.blocks <+: s₂.node.chain.blocks := by
    refine Transition.exec_invariant (I := fun t => Reported c t ∧ Opened t ∧ Delivered k s₁ t ∧
      s₁.node.chain.blocks <+: t.node.chain.blocks) ?_
      ⟨hbefore.1.step hstep, hbefore.2.step hstep, hfirst.2, blocks_prefix_stepWeb hstep⟩ hrest
    intro e he t t' ht hstep
    obtain ⟨hrep, hop, hdel, hpre⟩ := ht
    have hweb := webStep_of_stepWeb hstep
    exact ⟨hrep.step hweb, hop.step hweb, hdel.step (hmid e he) hweb,
      hpre.trans (blocks_prefix_stepWeb hweb)⟩
  obtain ⟨hrep, hop, hdel, blocks, hblocks⟩ := hwhile
  obtain ⟨new, hlog, hevents⟩ := hdel.events
  have hnothing : s₁.events k = [] := by
    rw [Web.events, hbefore.2.unsent k hfirst.1]
    rfl
  rw [hnothing, List.nil_append] at hevents
  refine ⟨⟨new, blocks, hlog, hevents, hblocks.symm, ?_⟩, ?_, ?_⟩
  · have hall := hrep.blocks
    rw [← hblocks, hbefore.1.blocks, hlog, blocksOf_append, blocksOf_append,
      blocksOf_append] at hall
    simpa only [List.append_assoc, List.append_cancel_left_eq] using hall
  · by_cases hk : k ∈ s₂.greeting
    · rw [hop.ungreeted k hk]
      exact Nat.zero_le 1
    · rw [hop.greeted k (hop.opened k hdel.connected) hk]
  · intro after s₃ h₃
    obtain ⟨u, hclose, hafter⟩ := Transition.exec_cons_eq_ok.mp h₃
    have hweb := webStep_of_stepWeb hclose
    have hlast : k ∉ s₂.greeting ∧ Closed k (s₂.sent k) u := by
      cases hweb with
      | onclose hk hgreeted =>
        refine ⟨hgreeted, hop.opened k hk, ?_, rfl⟩
        intro hmem
        exact of_decide_eq_true (List.mem_filter.mp hmem).2 rfl
    have hend : Opened s₃ ∧ Closed k (s₂.sent k) s₃ := by
      refine Transition.exec_invariant (I := fun t => Opened t ∧ Closed k (s₂.sent k) t) ?_
        ⟨hop.step hweb, hlast.2⟩ hafter
      intro e _ t t' ht hstep
      exact ⟨ht.1.step (webStep_of_stepWeb hstep), ht.2.step ht.1 (webStep_of_stepWeb hstep)⟩
    refine ⟨hend.2.sent_eq, ?_⟩
    rw [hend.2.sent_eq, hop.greeted k (hop.opened k hdel.connected) hlast.1]

namespace Sample

/-- A connection that is open for the second block and a payment, and asks for an answer. -/
def session : List (WebEvent ℕ) :=
  [.node (.createBlock frame₂), .greet 0] ++ List.replicate 3 (.node (.call [])) ++
    [.node (.postTx payment₂ .ok), .httpBroadcast 0, .tcpBroadcast,
      .onmessage 0 (textBytes "ping") false]

end Sample

/-- A connection of the sample run. -/
theorem notices_delivered_session : ∃ s₁ s₂,
    runWeb Sample.sodium (Sample.blockFeed Sample.frame₁) = .ok s₁ ∧
    Transition.exec (stepWeb Sample.sodium) (.onopen 0 :: Sample.session) s₁ = .ok s₂ ∧
    (s₂.sent 0).length = 4 ∧
    ∃ new blocks, s₂.log = s₁.log ++ new ∧ s₂.events 0 = new.map Notice.text ∧
      s₂.node.chain.blocks = s₁.node.chain.blocks ++ blocks ∧
      blocksOf s₁.tcpNotice.toList ++ blocks = blocksOf new ++ blocksOf s₂.tcpNotice.toList := by
  obtain ⟨s₁, h₁, hok⟩ := exists_web (S := Sample.sodium) (Sample.blockFeed Sample.frame₁)
    (fun s₁ => Transition.Ok (fun s₂ => (s₂.sent 0).length = 4)
      (Transition.exec (stepWeb Sample.sodium) (.onopen 0 :: Sample.session) s₁))
    (by decide +kernel)
  obtain ⟨s₂, h₂, hsent⟩ := Transition.ok_iff.mp hok
  exact ⟨s₁, s₂, h₁, h₂, hsent, (notices_delivered Sample.sodium h₁ h₂ (by decide)).1⟩

end Axis
