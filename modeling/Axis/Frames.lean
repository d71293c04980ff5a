import Axis.GetPool
import Axis.Index
import Axis.Lib.Serving

/-!
# Frames

The messages of the TCP protocol, from `src/net.cpp`: what `send` writes, what the loop of
`handle_client` reads, and how `handle_msg` answers.  A read that the stream is too short for
throws the exception that the loop takes for the end of a session.  Writing to the socket does
not fail, and `GetTip` is answered on a chain that has a block.

## Main definitions

* `Message`, `send` — the messages and their frames.
* `readMsg`, `handleClient` — the loop of a session.
* `handleMsg` — the handlers, on the state of a node and the bytes sent to the client.

## Main results

* `codeMsg` — the frames are read by an exact prefix code.
* `handleClient_exact` — **framing is lossless**, and a stream that breaks off is served up to
  the last complete frame.
* `handleClient_sound` — nothing is dispatched that is not framed in the stream.
* `reachable_handleClient` — **what any bytes of a client do to a node** is a run.
-/

namespace Axis

open Positional PrefixCode

variable {S : Sodium} {τ : Type}

/-! ### Messages -/

/-- `MsgType`; what a client sends may be none of the enumerators. -/
abbrev MsgType := UInt16

namespace MsgType

def getUTXOs : MsgType := 0

def getTip : MsgType := 2

def getDifficulty : MsgType := 5

def getPool : MsgType := 6

def createTransaction : MsgType := 7

def createBlock : MsgType := 8

def difficultyResponse : MsgType := 9

def transactionResponse : MsgType := 10

def createBlockResponse : MsgType := 11

def utxosResponse : MsgType := 12

def tipResponse : MsgType := 13

def poolResponse : MsgType := 14

end MsgType

/-- What `handle_msg` is called with. -/
structure Message where
  type : MsgType
  payload : Bytes
  deriving DecidableEq

/-- The payload and the type fit the 32-bit size of a frame. -/
def Message.Fits (m : Message) : Prop := m.payload.length + 2 < 2 ^ 32

/-- The bytes that `send` writes for a message that fits. -/
def send (m : Message) : Bytes :=
  let totalSize := UInt32.ofNat (2 + m.payload.length)
  leBytes 4 totalSize.toNat ++ (leBytes 2 m.type.toNat ++ m.payload)

theorem Message.Fits.toNat_size {m : Message} (h : m.Fits) :
    (UInt32.ofNat (2 + m.payload.length)).toNat = 2 + m.payload.length := by
  unfold Fits at h
  rw [UInt32.toNat_ofNat', Nat.mod_eq_of_lt (by omega)]

theorem length_send (m : Message) : (send m).length = 6 + m.payload.length := by
  unfold send
  rw [List.length_append, List.length_append, length_leBytes, length_leBytes]
  omega

/-! ### Reading -/

/-- `async_read` into a buffer. -/
def asyncRead (size : ℕ) : StateT Bytes (Except String) Bytes := fun stream =>
  if stream.length < size then .error "End of file"
  else .ok (stream.take size, stream.drop size)

def readPayloadSize : StateT Bytes (Except String) UInt32 := do
  let size ← asyncRead 4
  pure (UInt32.ofNat (ofLe size))

/-- One round of the loop of `handle_client`, up to the call of `handle_msg`. -/
def readMsg : StateT Bytes (Except String) Message := do
  let payloadSize ← readPayloadSize
  if payloadSize < 2 then throw "packet too small"
  else
    let buf ← asyncRead payloadSize.toNat
    pure ⟨UInt16.ofNat (ofLe (buf.take 2)), buf.drop 2⟩

/-- A socket is what is left to read of what the client sends. -/
def socket : Cursor Bytes UInt8 where
  rest stream := stream
  skip n stream := stream.drop n
  start stream := stream
  rest_start _ := rfl
  rest_skip _ _ := rfl
  skip_zero _ := List.drop_zero
  skip_skip m n stream := by rw [List.drop_drop]

theorem asyncRead_append {size : ℕ} {bs : Bytes} (h : bs.length = size) (t : Bytes) :
    (asyncRead size).run (bs ++ t) = .ok (bs, t) := by
  have hlong : ¬ (bs ++ t).length < size := by
    rw [List.length_append]
    omega
  subst h
  show (if (bs ++ t).length < bs.length then _ else _) = _
  rw [if_neg hlong, List.take_left, List.drop_left]

theorem asyncRead_short {size : ℕ} {stream : Bytes} (h : stream.length < size) :
    (asyncRead size).run stream = .error "End of file" := by
  show (if stream.length < size then _ else _) = _
  rw [if_pos h]

theorem codeRead (size : ℕ) :
    Code socket id (fun bs : Bytes => bs.length = size) (asyncRead size) where
  complete := by
    intro stream bs hlen hpre
    obtain ⟨t, rfl⟩ := hpre
    rw [id, asyncRead_append hlen]
    show _ = Except.ok (bs, (bs ++ t).drop bs.length)
    rw [List.drop_left]
  sound := by
    intro stream bs stream' hok
    by_cases hshort : stream.length < size
    · rw [asyncRead_short hshort] at hok
      cases hok
    · have hlen : (stream.take size).length = size := List.length_take_of_le (by omega)
      have hread := asyncRead_append hlen (stream.drop size)
      rw [List.take_append_drop, hok] at hread
      obtain ⟨rfl, rfl⟩ := Prod.mk.inj (Except.ok.inj hread)
      refine ⟨hlen, List.take_prefix _ _, ?_⟩
      show _ = stream.drop (stream.take size).length
      rw [hlen]

theorem codePayloadSize :
    Code socket (fun v : UInt32 => leBytes 4 v.toNat) (fun _ => True) readPayloadSize :=
  codeU32_of_code (codeRead 4)

/-- The two bytes in front of the payload are those of the type. -/
theorem typeBytes_append {buf : Bytes} (h : 2 ≤ buf.length) :
    leBytes 2 (UInt16.ofNat (ofLe (buf.take 2))).toNat ++ buf.drop 2 = buf := by
  have hlen : (buf.take 2).length = 2 := List.length_take_of_le h
  have hlt := ofLe_lt (buf.take 2)
  have hback := leBytes_ofLe (buf.take 2)
  rw [hlen] at hlt hback
  rw [UInt16.toNat_ofNat', Nat.mod_eq_of_lt (by omega), hback, List.take_append_drop]

theorem type_typeBytes (type : MsgType) (payload : Bytes) :
    (⟨UInt16.ofNat (ofLe ((leBytes 2 type.toNat ++ payload).take 2)),
      (leBytes 2 type.toNat ++ payload).drop 2⟩ : Message) = ⟨type, payload⟩ := by
  have hlen : (leBytes 2 type.toNat).length = 2 := length_leBytes 2 _
  have hlt := type.toNat_lt
  rw [List.take_left' hlen, List.drop_left' hlen, ofLe_leBytes (by omega), UInt16.ofNat_toNat]

/-- **Frames are read by an exact prefix code.** -/
theorem codeMsg : Code socket send Message.Fits readMsg := by
  have hbody : ∀ payloadSize : UInt32, Code socket
      (fun m : Message => leBytes 2 m.type.toNat ++ m.payload)
      (fun m => payloadSize.toNat = 2 + m.payload.length)
      (if payloadSize < 2 then throw "packet too small"
      else do
        let buf ← asyncRead payloadSize.toNat
        pure ⟨UInt16.ofNat (ofLe (buf.take 2)), buf.drop 2⟩) := by
    intro payloadSize
    by_cases hsmall : payloadSize < 2
    · -- no message is that small
      rw [if_pos hsmall]
      rw [UInt32.lt_iff_toNat_lt] at hsmall
      constructor
      · intro stream m hsize _
        have htwo : (2 : UInt32).toNat = 2 := rfl
        omega
      · intro stream m stream' hok
        cases hok
    · rw [if_neg hsmall]
      rw [UInt32.lt_iff_toNat_lt] at hsmall
      have htwo : (2 : UInt32).toNat = 2 := rfl
      refine ((codeRead payloadSize.toNat).map
        (fun buf => (⟨UInt16.ofNat (ofLe (buf.take 2)), buf.drop 2⟩ : Message))
        (fun m => leBytes 2 m.type.toNat ++ m.payload)
        fun buf hlen => typeBytes_append (by omega)).congr ?_ fun _ _ => rfl
      intro m
      rw [type_typeBytes, List.length_append, length_leBytes]
      constructor
      · exact fun hsize => ⟨hsize.symm, rfl⟩
      · exact fun hboth => hboth.1.symm
  refine (codePayloadSize.bind (fun m : Message => UInt32.ofNat (2 + m.payload.length)) hbody
    fun size m hsize => ?_).congr ?_ fun m _ => rfl
  · rw [← hsize, UInt32.ofNat_toNat]
  · intro m
    constructor
    · exact fun hfits => ⟨trivial, hfits.toNat_size⟩
    · intro hboth
      have hlt := (UInt32.ofNat (2 + m.payload.length)).toNat_lt
      unfold Message.Fits
      omega

/-- A frame that breaks off ends the stream. -/
theorem readMsg_of_prefix {m : Message} (hfits : m.Fits) {p : Bytes} (hpre : p <+: send m)
    (hne : p ≠ send m) : readMsg.run p = .error "End of file" := by
  have hlt : p.length < (send m).length := by
    have hle := hpre.length_le
    have hlen : p.length ≠ (send m).length := fun heq => hne (hpre.eq_of_length heq)
    omega
  rw [length_send] at hlt
  unfold readMsg
  rw [StateT.run_bind]
  by_cases hshort : p.length < 4
  · -- in the size
    have hsize : readPayloadSize.run p = .error "End of file" := by
      rw [readPayloadSize, StateT.run_bind, asyncRead_short hshort]
      rfl
    rw [hsize]
    rfl
  · -- after it
    have hsize : leBytes 4 (UInt32.ofNat (2 + m.payload.length)).toNat <+: p :=
      List.prefix_of_prefix_length_le (List.prefix_append _ _) hpre (by
        rw [length_leBytes]
        omega)
    obtain ⟨q, rfl⟩ := hsize
    rw [codePayloadSize.complete trivial (List.prefix_append _ q)]
    show ((if UInt32.ofNat (2 + m.payload.length) < 2 then _ else _ :
      StateT Bytes (Except String) Message).run _) = _
    have hlarge : ¬ UInt32.ofNat (2 + m.payload.length) < 2 := by
      rw [UInt32.lt_iff_toNat_lt, hfits.toNat_size, show (2 : UInt32).toNat = 2 from rfl]
      omega
    have hbody : (asyncRead (UInt32.ofNat (2 + m.payload.length)).toNat).run q =
        .error "End of file" := by
      refine asyncRead_short ?_
      rw [List.length_append, length_leBytes] at hlt
      rw [hfits.toNat_size]
      omega
    rw [if_neg hlarge, StateT.run_bind]
    show (asyncRead _).run (List.drop _ _) >>= _ = _
    rw [List.drop_left, hbody]
    rfl

/-! ### Sessions -/

/-- What the `catch` of `handle_client` logs. -/
def sessionLog (what : String) : Option String :=
  if what = "End of file" then none else some ("client session ended: " ++ what)

/-- A session: the messages dispatched, what is left of the stream, the state of the
handlers, and what is logged in the end. -/
structure ClientSession (τ : Type) where
  dispatched : List Message
  unread : Bytes
  state : τ
  logged : Option String

/-- `handle_client` on all that a client sends before it closes the connection. -/
def handleClient (handle : Message → τ → Except String τ) (stream : Bytes) (t : τ) :
    Option (ClientSession τ) :=
  (serve readMsg handle (stream.length + 1) stream t).map fun r =>
    ⟨r.items, r.input, r.state, sessionLog r.error⟩

/-- The session that dispatches what is handed over, and reads as many frames of the
stream. -/
def ClientSession.after (stream : Bytes) (h : Handed Message τ String) : ClientSession τ where
  dispatched := h.items
  unread := stream.drop (h.items.flatMap send).length
  state := h.state
  logged := h.error.bind sessionLog

/-- A session over frames, and what is no frame, hands the messages to the handlers. -/
theorem handleClient_eq (handle : Message → τ → Except String τ) (t : τ) {msgs : List Message}
    (hfits : ∀ m ∈ msgs, m.Fits) {stream : Bytes} (hpre : msgs.flatMap send <+: stream)
    (hend : readMsg.run (stream.drop (msgs.flatMap send).length) = .error "End of file") :
    handleClient handle stream t = some (.after stream (handOver handle msgs t)) := by
  have hfuel : msgs.length < stream.length + 1 := by
    have hle := hpre.length_le
    have hframes : msgs.length ≤ (msgs.flatMap send).length := by
      rw [List.length_flatMap, ← List.length_map (f := fun m => (send m).length)]
      refine List.length_le_sum_of_one_le _ fun n hn => ?_
      obtain ⟨m, -, rfl⟩ := List.mem_map.mp hn
      rw [length_send]
      omega
    omega
  rw [handleClient, serve_flatMap codeMsg.complete hfits hpre hend hfuel t, Option.map_some]
  unfold ClientSession.after
  cases (handOver handle msgs t).error <;> rfl

/-- A client's frame: a type and a payload that fits. -/
structure Frame where
  type : MsgType
  payload : FramePayload

def Frame.message (f : Frame) : Message := ⟨f.type, f.payload.bytes⟩

def messages (frames : List Frame) : List Message := frames.map Frame.message

/-- What `send` writes for some frames, one after the other. -/
def framesBytes (frames : List Frame) : Bytes := (messages frames).flatMap send

theorem fits_messages {frames : List Frame} {m : Message} (h : m ∈ messages frames) : m.Fits := by
  obtain ⟨f, -, rfl⟩ := List.mem_map.mp h
  exact f.payload.fits

/-- **Framing is lossless**: a session over some frames does what the handlers do with the
messages, one after the other; if none of them throws, it dispatches all messages and consumes
the stream.  A stream that breaks off dispatches no other messages than those whose frames it
contains in full. -/
theorem handleClient_exact (handle : Message → τ → Except String τ) (t : τ)
    (frames : List Frame) :
    (∃ r, handleClient handle (framesBytes frames) t = some r ∧
      r = .after (framesBytes frames) (handOver handle (messages frames) t) ∧
      ((handOver handle (messages frames) t).error = none →
        r.dispatched = messages frames ∧ r.unread = [] ∧ r.logged = none)) ∧
    ∀ p, p <+: framesBytes frames → p ≠ framesBytes frames →
      ∃ k < frames.length, framesBytes (frames.take k) <+: p ∧
        p.length < (framesBytes (frames.take (k + 1))).length ∧
        ∃ r, handleClient handle p t = some r ∧
          r = .after p (handOver handle (messages (frames.take k)) t) ∧
          r.dispatched <+: messages (frames.take k) ∧
          ((handOver handle (messages (frames.take k)) t).error = none →
            r.dispatched = messages (frames.take k)) := by
  constructor
  · have hend : readMsg.run ((framesBytes frames).drop ((messages frames).flatMap send).length) =
        .error "End of file" := by
      rw [framesBytes, List.drop_length]
      rfl
    refine ⟨_, handleClient_eq handle t (fun m => fits_messages) List.prefix_rfl hend, rfl, ?_⟩
    intro hreturn
    have hitems := handOver_of_error_eq_none hreturn
    unfold ClientSession.after
    rw [hitems, hreturn]
    exact ⟨rfl, List.drop_length, rfl⟩
  · intro p hpre hne
    obtain ⟨k, hk, q, rfl, hq, hqne, hlen⟩ := exists_take_of_prefix hpre hne
    have htake : ∀ n, (messages frames).take n = messages (frames.take n) := fun _ =>
      List.map_take.symm
    have hklt : k < frames.length := by
      rw [messages, List.length_map] at hk
      exact hk
    have hfits : ((messages frames).get ⟨k, hk⟩).Fits := fits_messages (List.get_mem _ _)
    rw [htake, htake] at hlen
    rw [htake]
    refine ⟨k, hklt, List.prefix_append _ _, hlen, _, handleClient_eq handle t
      (fun m => fits_messages) (List.prefix_append _ _) ?_, rfl, handOver_prefix _ _,
      handOver_of_error_eq_none⟩
    rw [List.drop_left]
    exact readMsg_of_prefix hfits hq hqne

/-- **Nothing else is dispatched**: on any stream, the frames of what a session dispatches are
the first ones of the stream, and what it leaves is behind them. -/
theorem handleClient_sound {handle : Message → τ → Except String τ} {t : τ} {stream : Bytes}
    {r : ClientSession τ} (h : handleClient handle stream t = some r) :
    (∀ m ∈ r.dispatched, m.Fits) ∧ r.dispatched.flatMap send <+: stream ∧
      r.unread = stream.drop (r.dispatched.flatMap send).length := by
  obtain ⟨r', hserve, rfl⟩ := Option.map_eq_some_iff.mp h
  exact serve_sound codeMsg.sound hserve

/-! ### The handlers -/

def Writer.putU8 (w : Writer) (v : UInt8) : Writer := w.putBytes [v]

def Writer.putU16 (w : Writer) (v : UInt16) : Writer := w.putBytes (leBytes 2 v.toNat)

/-- The bytes of a text. -/
def textBytes (text : String) : Bytes := text.toList.map fun ch => UInt8.ofNat ch.toNat

/-- The body that `serialize_tx_response` and `serialize_block_response` share. -/
def serializeResponse (accepted : Bool) (err : UInt8) (reason : String) : Bytes :=
  let w := (({} : Writer).putU8 (if accepted then 1 else 0)).putU8 err
  let w := w.putU16 (UInt16.ofNat (textBytes reason).length)
  (w.putStr (textBytes reason)).buf

def serializeTxResponse (err : TxError) (reason : String) : Bytes :=
  serializeResponse (err = .none) (UInt8.ofNat err.ctorIdx) reason

def serializeBlockResponse (err : BlockError) (reason : String) : Bytes :=
  serializeResponse (err = .none) (UInt8.ofNat err.ctorIdx) reason

def serializeUtxoResponse (outpoints : List (OutPoint × UInt64)) : Bytes :=
  (outpoints.foldl (fun w (op, amount) => ((w.putHash op.txid).putU32 op.index).putU64 amount)
    (({} : Writer).putU32 (UInt32.ofNat outpoints.length))).buf

/-- The address of a lookup: a short payload leaves it zero. -/
def utxosAddress (payload : Bytes) : Address :=
  if payload.length ≥ 20 then U8Array.ofBytes 20 (payload.take 20) else U8Array.fill 20 0

/-- What the handlers of a session work on: the chain, what the writes to the databases come
to, message by message, and the bytes sent to the client. -/
structure Conn where
  chain : Chain
  disk : List (List WriteStatus) := []
  sent : Bytes := []

namespace Conn

def reply (type : MsgType) (payload : Bytes) (n : Conn) : Conn :=
  { n with sent := n.sent ++ send ⟨type, payload⟩ }

/-- `on_get_utxos`; the text is that of the exception of `utxo_.at`. -/
def onGetUtxos (payload : Bytes) (n : Conn) : Except String Conn :=
  match n.chain.getUtxos (utxosAddress payload) with
  | none => .error "unordered_map::at"
  | some outpoints => .ok (n.reply .utxosResponse (serializeUtxoResponse outpoints))

def onCreateTx (S : Sodium) (payload : Bytes) (io : List WriteStatus) (n : Conn) : Conn :=
  let (chain, err, reason) := Axis.onCreateTx S payload (io.headD .ok) n.chain
  { n with chain := chain }.reply .transactionResponse (serializeTxResponse err reason)

def onCreateBlock (S : Sodium) (payload : Bytes) (io : List WriteStatus) (n : Conn) : Conn :=
  let (chain, err, reason) := Axis.onCreateBlock S payload io n.chain
  { n with chain := chain }.reply .createBlockResponse (serializeBlockResponse err reason)

end Conn

/-- `handle_msg`; an unknown type is only logged. -/
def handleMsg (S : Sodium) (m : Message) (conn : Conn) : Except String Conn :=
  let io := conn.disk.headD []
  let n := { conn with disk := conn.disk.tail }
  if m.type = .getUTXOs then n.onGetUtxos m.payload
  else if m.type = .getTip then .ok (n.reply .tipResponse n.chain.tipHash.data)
  else if m.type = .getPool then .ok (n.reply .poolResponse (onGetPool n.chain))
  else if m.type = .createTransaction then .ok (n.onCreateTx S m.payload io)
  else if m.type = .getDifficulty then
    .ok (n.reply .difficultyResponse [n.chain.difficulty])
  else if m.type = .createBlock then .ok (n.onCreateBlock S m.payload io)
  else .ok n

/-- What a message that fits a frame does to the chain, when no write fails. -/
theorem handleMsg_chain {m : Message} (hfits : m.Fits) {n n' : Conn} (hdisk : n.disk = [])
    (h : handleMsg S m n = .ok n') :
    n'.disk = [] ∧ (n'.chain = n.chain ∨ ∃ op, step S op n.chain = .ok n'.chain) := by
  unfold handleMsg at h
  rw [hdisk] at h
  dsimp only at h
  split_ifs at h with hutxos htip hpool htx hdifficulty hblock
  · unfold Conn.onGetUtxos at h
    dsimp only at h
    split at h
    · cases h
    · cases h
      exact ⟨rfl, Or.inl rfl⟩
  · cases h
    exact ⟨rfl, Or.inl rfl⟩
  · cases h
    exact ⟨rfl, Or.inl rfl⟩
  · cases h
    exact ⟨rfl, Or.inr ⟨.createTx ⟨m.payload, hfits⟩, rfl⟩⟩
  · cases h
    exact ⟨rfl, Or.inl rfl⟩
  · cases h
    exact ⟨rfl, Or.inr ⟨.createBlock ⟨m.payload, hfits⟩, rfl⟩⟩
  · cases h
    exact ⟨rfl, Or.inl rfl⟩

/-- Two messages to a fresh node, the second one of an unknown type. -/
theorem handleClient_genesis : ∃ frames : List Frame, frames.length = 2 ∧
    ∃ r, handleClient (handleMsg Sample.sodium) (framesBytes frames)
        { chain := genesisChain Sample.sodium } = some r ∧
      r.dispatched = messages frames ∧ r.unread = [] ∧ r.logged = none := by
  have hexact := handleClient_exact (handleMsg Sample.sodium)
    { chain := genesisChain Sample.sodium }
    [⟨.getTip, ⟨[], by decide⟩⟩, ⟨77, ⟨[1, 2], by decide⟩⟩]
  obtain ⟨r, hrun, -, hreturn⟩ := hexact.1
  exact ⟨_, rfl, r, hrun, hreturn rfl⟩

/-- **Whatever bytes a client sends**, its session ends, and what it did to the chain is a run
of operations. -/
theorem reachable_handleClient {n : Conn} (h : Reachable S anyOp n.chain) (hdisk : n.disk = [])
    (stream : Bytes) :
    ∃ r, handleClient (handleMsg S) stream n = some r ∧ Reachable S anyOp r.state.chain := by
  obtain ⟨r, hserve⟩ : ∃ r, serve readMsg (handleMsg S) (stream.length + 1) stream n = some r := by
    refine exists_serve codeMsg.sound (fun m _ => ?_) (Nat.lt_succ_self _) n
    rw [length_send]
    omega
  have hkept := serve_rule (I := fun n : Conn => n.disk = [] ∧ Reachable S anyOp n.chain)
    codeMsg.sound (fun m n n' hfits hI hrun => ?_) ⟨hdisk, h⟩ hserve
  · refine ⟨⟨r.items, r.input, r.state, sessionLog r.error⟩, ?_, hkept.2⟩
    exact congrArg (Option.map _) hserve
  · obtain ⟨hdisk', hsame | ⟨op, hop⟩⟩ := handleMsg_chain hfits hI.1 hrun
    · exact ⟨hdisk', hsame ▸ hI.2⟩
    · exact ⟨hdisk', .step hI.2 trivial hop⟩

end Axis
