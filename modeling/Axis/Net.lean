import Axis.Chain

/-!
# Submissions

The handlers that change the chain: `on_create_tx` and `on_create_block` of
`src/net.cpp`, which answer frames of the TCP protocol, and the
`POST /api/transaction` handler of `src/web.cpp`, from the decoded bytes of
`rawTx` on.

## Main results

* `codeSignedTransaction` — the fields of a submitted transaction are read by an
  exact prefix code.
* `acceptBlock_eq_ok` — what an accepted block is made of.
-/

namespace Axis

open Positional PrefixCode

/-! ### Submitted transactions -/

/-- The text of an answer to a transaction; the handlers of both servers have the
same table. -/
def txErrorStr : TxError → String
  | .none => "accepted"
  | .invalidPayload => "invalid payload"
  | .badPubkey => "bad public key"
  | .zeroAmount => "zero amount"
  | .badOwnership => "ownership failed"
  | .badSignature => "bad signature"
  | .duplicate => "duplicate"
  | .inputSpent => "input spent"
  | .internal => "internal error"

structure ParsedCreateTx where
  pubkey : PublicKey
  timestamp : Timestamp
  inputs : List OutPoint
  outputs : List TxOutput
  sig : Signature
  deriving DecidableEq

/-- Bytes after the signature are not looked at. -/
def parseCreateTxPayload : ReadM ParsedCreateTx := do
  let pubkey ← Reader.takePk
  let timestamp ← Reader.takeU64
  let inCount ← Reader.takeU32
  let inputs ← many Transaction.takeOutPoint inCount.toNat
  let outCount ← Reader.takeU32
  let outputs ← many Transaction.takeTxOutput outCount.toNat
  let sig ← Reader.takeSig
  pure ⟨pubkey, ⟨timestamp⟩, inputs, outputs, sig⟩

/-- The signed transaction with the parsed fields. -/
def ParsedCreateTx.signed (S : Sodium) (parsed : ParsedCreateTx) : SignedTransaction where
  tx := Transaction.new S parsed.inputs parsed.outputs parsed.timestamp
  pubkey := parsed.pubkey
  sig := parsed.sig

/-- The body of the HTTP server's parser: a second copy of the grammar, which admits no
bytes after the signature. -/
def takeSignedTransaction (S : Sodium) : ReadM SignedTransaction := do
  let pubkey ← Reader.takePk
  let timestamp ← Reader.takeU64
  let inCount ← Reader.takeU32
  let inputs ← many Transaction.takeOutPoint inCount.toNat
  let outCount ← Reader.takeU32
  let outputs ← many Transaction.takeTxOutput outCount.toNat
  let sig ← Reader.takeSig
  let r ← get
  if r.offset ≠ r.data.length then throw "trailing bytes after transaction payload"
  else pure ⟨Transaction.new S inputs outputs ⟨timestamp⟩, pubkey, sig⟩

def parseSignedTransactionPayload (S : Sodium) (payload : Bytes) :
    Except String SignedTransaction :=
  ((takeSignedTransaction S).run ⟨payload, 0⟩).map Prod.fst

/-- `on_create_tx`, up to the response it sends, and to the print after `add_tx`, which
can end the process: that is `onCreateTxPrinted`. -/
def onCreateTx (S : Sodium) (payload : Bytes) (status : WriteStatus) (c : Chain) :
    Chain × TxError × String :=
  match parseCreateTxPayload.run ⟨payload, 0⟩ with
  | .error what => (c, .invalidPayload, what)
  | .ok (parsed, _) =>
    match c.addTx S (parsed.signed S) status with
    | (c, .error what) => (c, .invalidPayload, what)
    | (c, .ok err) => (c, err, txErrorStr err)

/-- The code and the error text of the HTTP response; an accepted transaction has
no error. -/
def postTransaction (S : Sodium) (payload : Bytes) (status : WriteStatus) (c : Chain) :
    Chain × ℕ × Option String :=
  match parseSignedTransactionPayload S payload with
  | .error what => (c, 400, some what)
  | .ok signedTx =>
    match c.addTx S signedTx status with
    | (c, .error what) => (c, 400, some what)
    | (c, .ok err) => if err ≠ .none then (c, 400, some (txErrorStr err)) else (c, 200, none)

/-! ### Submitted blocks -/

structure ParsedCreateBlock where
  prevHash : Hash
  wireMerkle : Hash
  timestamp : Timestamp
  nonce : UInt64
  coinbase : Transaction
  transactions : List Transaction
  deriving DecidableEq

/-- The loop over the references, which ends at the first one not in the pool. -/
def takeReferences (pool : FiniteMap Hash Transaction) :
    ℕ → ReadM (Except String (List Transaction))
  | 0 => pure (.ok [])
  | n + 1 => do
    let txid ← Reader.takeHash
    match pool[txid]? with
    | none => pure (.error "tx not in pool")
    | some tx => do
      let transactions ← takeReferences pool n
      pure (transactions.map (tx :: ·))

/-- The outer exception is thrown, the inner error is returned. -/
def parseCreateBlockPayload (S : Sodium) (pool : FiniteMap Hash Transaction) :
    ReadM (Except String ParsedCreateBlock) := do
  let prevHash ← Reader.takeHash
  let wireMerkle ← Reader.takeHash
  let timestamp ← Reader.takeU64
  let nonce ← Reader.takeU64
  let cbAddress ← Reader.takeAddr
  let cbReward ← Reader.takeU64
  let cbTimestamp ← Reader.takeU64
  let coinbase := Transaction.new S [] [⟨cbAddress, cbReward⟩] ⟨cbTimestamp⟩
  let txCount ← Reader.takeU32
  let transactions ← takeReferences pool txCount.toNat
  pure (transactions.map fun txs =>
    ⟨prevHash, wireMerkle, ⟨timestamp⟩, nonce, coinbase, coinbase :: txs⟩)

/-- The checks of `on_create_block`: the block it hands to `add_block`, or the
error it answers. -/
def acceptBlock (S : Sodium) (payload : Bytes) (c : Chain) : Except (BlockError × String) Block :=
  match (parseCreateBlockPayload S c.pool).run ⟨payload, 0⟩ with
  | .error what => .error (.invalidPayload, what)
  | .ok (.error reason, _) => .error (.invalidPayload, reason)
  | .ok (.ok parsed, _) =>
    let blk := Block.new S parsed.prevHash parsed.transactions parsed.timestamp parsed.nonce
    if blk.header.merkleRoot ≠ parsed.wireMerkle then
      .error (.invalidBlockHash, "merkle root mismatch")
    else if compare blk.hash c.target = .gt then
      .error (.highHash, "hash does not meet difficulty")
    else if blk.header.prevHash ≠ c.tipHash then
      .error (.badPreviousHash, "prev hash does not match tip")
    else .ok blk

/-- `on_create_block`, up to the response it sends, and to the print after `add_block`,
which can end the process: that is `onCreateBlockPrinted`. -/
def onCreateBlock (S : Sodium) (payload : Bytes) (io : List WriteStatus) (c : Chain) :
    Chain × BlockError × String :=
  match acceptBlock S payload c with
  | .error (err, reason) => (c, err, reason)
  | .ok blk =>
    match c.addBlock blk io with
    | (c, .error what) => (c, .invalidPayload, what)
    | (c, .ok ()) => (c, .none, "accepted")

/-! ### What the parsers accept -/

/-- The second copy of the grammar reads the fields the first one does, and then looks
at what is left. -/
theorem takeSignedTransaction_eq (S : Sodium) :
    takeSignedTransaction S = (do
      let parsed ← parseCreateTxPayload
      let r ← get
      if r.offset ≠ r.data.length then throw "trailing bytes after transaction payload"
      else pure (parsed.signed S)) := by
  unfold takeSignedTransaction parseCreateTxPayload
  simp only [bind_assoc, pure_bind]
  rfl

/-- The parser of the HTTP server rejects what the other one rejects. -/
theorem parseSignedTransactionPayload_error {S : Sodium} {payload : Bytes} {what : String}
    (h : parseCreateTxPayload.run ⟨payload, 0⟩ = .error what) :
    parseSignedTransactionPayload S payload = .error what := by
  unfold parseSignedTransactionPayload
  rw [takeSignedTransaction_eq, StateT.run_bind, h]
  rfl

/-- The parser of the HTTP server on what the other one accepts. -/
theorem parseSignedTransactionPayload_ok {S : Sodium} {payload : Bytes}
    {parsed : ParsedCreateTx} {r : Reader}
    (h : parseCreateTxPayload.run ⟨payload, 0⟩ = .ok (parsed, r)) :
    parseSignedTransactionPayload S payload =
      if r.offset ≠ r.data.length then .error "trailing bytes after transaction payload"
      else .ok (parsed.signed S) := by
  unfold parseSignedTransactionPayload
  rw [takeSignedTransaction_eq, StateT.run_bind, h]
  by_cases htrail : r.offset ≠ r.data.length
  · rw [if_pos htrail]
    show Except.map Prod.fst ((if r.offset ≠ r.data.length then _ else _ : ReadM _).run r) = _
    rw [if_pos htrail]
    rfl
  · rw [if_neg htrail]
    show Except.map Prod.fst ((if r.offset ≠ r.data.length then _ else _ : ReadM _).run r) = _
    rw [if_neg htrail]
    rfl

/-- The bytes of a submitted transaction. -/
def ParsedCreateTx.bytes (p : ParsedCreateTx) : Bytes :=
  p.pubkey.data ++ (leBytes 8 p.timestamp.value.toNat ++
    (leBytes 4 (UInt32.ofNat p.inputs.length).toNat ++ (p.inputs.flatMap OutPoint.bytes ++
      (leBytes 4 (UInt32.ofNat p.outputs.length).toNat ++ (p.outputs.flatMap TxOutput.bytes ++
        p.sig.data)))))

theorem ParsedCreateTx.length_bytes (p : ParsedCreateTx) :
    p.bytes.length = 112 + 36 * p.inputs.length + 28 * p.outputs.length := by
  rw [bytes]
  simp only [List.length_append, p.pubkey.size_data, p.sig.size_data, length_leBytes,
    length_flatMap_of_const OutPoint.length_bytes, length_flatMap_of_const TxOutput.length_bytes]
  omega

/-- The fields of a submitted transaction are read by an exact prefix code. -/
theorem codeSignedTransaction :
    Code cursor ParsedCreateTx.bytes
      (fun p => p.inputs.length < 2 ^ 32 ∧ p.outputs.length < 2 ^ 32) parseCreateTxPayload := by
  -- field by field, the last one first
  have hsig := fun pk ts inputs outputs => (codeArray 64).map
    (fun sig => (⟨pk, ⟨ts⟩, inputs, outputs, sig⟩ : ParsedCreateTx)) ParsedCreateTx.sig
    fun _ _ => rfl
  have houtputs := fun pk ts inputs (outCount : UInt32) =>
    (Transaction.codeTxOutput.many outCount.toNat).bind ParsedCreateTx.outputs
      (hsig pk ts inputs) <| by
        intro outputs p hboth
        obtain ⟨-, hp⟩ := hboth
        rw [← hp]
  have houtCount := fun pk ts inputs => codeU32.bind
    (fun p : ParsedCreateTx => UInt32.ofNat p.outputs.length) (houtputs pk ts inputs) <| by
      intro outCount p hex
      obtain ⟨⟨hlen, -⟩, -, -⟩ := hex
      rw [hlen, UInt32.ofNat_toNat]
  have hinputs := fun pk ts (inCount : UInt32) =>
    (Transaction.codeOutPoint.many inCount.toNat).bind ParsedCreateTx.inputs
      (houtCount pk ts) <| by
        intro inputs p hboth
        obtain ⟨-, -, -, hp⟩ := hboth
        rw [← hp]
  have hinCount := fun pk ts => codeU32.bind
    (fun p : ParsedCreateTx => UInt32.ofNat p.inputs.length) (hinputs pk ts) <| by
      intro inCount p hex
      obtain ⟨⟨hlen, -⟩, -⟩ := hex
      rw [hlen, UInt32.ofNat_toNat]
  have htimestamp := fun pk => codeU64.bind (fun p : ParsedCreateTx => p.timestamp.value)
    (hinCount pk) <| by
      intro ts p hboth
      obtain ⟨-, -, -, -, -, hp⟩ := hboth
      rw [← hp]
  have hpubkey := (codeArray 32).bind ParsedCreateTx.pubkey htimestamp <| by
      intro pk p hboth
      obtain ⟨-, -, -, -, -, -, hp⟩ := hboth
      rw [← hp]
  refine hpubkey.congr ?_ fun p _ => rfl
  intro p
  rw [← Transaction.toNat_ofNat_length_iff, ← Transaction.toNat_ofNat_length_iff]
  constructor
  · intro hboth
    obtain ⟨hin, hout⟩ := hboth
    exact ⟨trivial, trivial, trivial, ⟨hin, fun _ _ => trivial⟩, trivial,
      ⟨hout, fun _ _ => trivial⟩, trivial, rfl⟩
  · intro hboth
    obtain ⟨-, -, -, ⟨hin, -⟩, -, ⟨hout, -⟩, -⟩ := hboth
    exact ⟨hin, hout⟩

/-- The fields of a submitted block, with the references not looked up. -/
structure BlockSubmission where
  prevHash : Hash
  wireMerkle : Hash
  timestamp : Timestamp
  nonce : UInt64
  cbAddress : Address
  cbReward : UInt64
  cbTimestamp : Timestamp
  txids : List Hash
  deriving DecidableEq

namespace BlockSubmission

/-- The bytes of a submitted block. -/
def bytes (sub : BlockSubmission) : Bytes :=
  sub.prevHash.data ++ (sub.wireMerkle.data ++ (leBytes 8 sub.timestamp.value.toNat ++
    (leBytes 8 sub.nonce.toNat ++ (sub.cbAddress.data ++ (leBytes 8 sub.cbReward.toNat ++
      (leBytes 8 sub.cbTimestamp.value.toNat ++
        (leBytes 4 (UInt32.ofNat sub.txids.length).toNat ++ sub.txids.flatMap U8Array.data)))))))

/-- The fields alone, read without a pool. -/
def take : ReadM BlockSubmission := do
  let prevHash ← Reader.takeHash
  let wireMerkle ← Reader.takeHash
  let timestamp ← Reader.takeU64
  let nonce ← Reader.takeU64
  let cbAddress ← Reader.takeAddr
  let cbReward ← Reader.takeU64
  let cbTimestamp ← Reader.takeU64
  let txCount ← Reader.takeU32
  let txids ← many Reader.takeHash txCount.toNat
  pure ⟨prevHash, wireMerkle, ⟨timestamp⟩, nonce, cbAddress, cbReward, ⟨cbTimestamp⟩, txids⟩

/-- The coinbase of a submitted block. -/
def coinbase (S : Sodium) (sub : BlockSubmission) : Transaction :=
  Transaction.new S [] [⟨sub.cbAddress, sub.cbReward⟩] sub.cbTimestamp

/-- The referenced transactions, if all of them are in the pool. -/
def resolve (sub : BlockSubmission) (pool : FiniteMap Hash Transaction) :
    Option (List Transaction) := sub.txids.mapM fun txid => pool[txid]?

/-- The block made of a submission and its referenced transactions. -/
def block (S : Sodium) (sub : BlockSubmission) (refs : List Transaction) : Block :=
  Block.new S sub.prevHash (sub.coinbase S :: refs) sub.timestamp sub.nonce

theorem length_bytes (sub : BlockSubmission) :
    sub.bytes.length = 120 + 32 * sub.txids.length := by
  rw [bytes]
  simp only [List.length_append, sub.prevHash.size_data, sub.wireMerkle.size_data,
    sub.cbAddress.size_data, length_leBytes, length_flatMap_of_const U8Array.size_data]
  omega

/-- The fields of a submitted block are read by an exact prefix code. -/
theorem code : Code cursor bytes (fun sub => sub.txids.length < 2 ^ 32) take := by
  have htxids := fun prev merkle ts nonce addr reward cbTs (txCount : UInt32) =>
    ((codeArray 32).many txCount.toNat).map
      (fun txids =>
        (⟨prev, merkle, ⟨ts⟩, nonce, addr, reward, ⟨cbTs⟩, txids⟩ : BlockSubmission))
      BlockSubmission.txids fun _ _ => rfl
  have hcount := fun prev merkle ts nonce addr reward cbTs => codeU32.bind
    (fun sub : BlockSubmission => UInt32.ofNat sub.txids.length)
    (htxids prev merkle ts nonce addr reward cbTs) <| by
      intro txCount sub hex
      obtain ⟨⟨hlen, -⟩, -⟩ := hex
      rw [hlen, UInt32.ofNat_toNat]
  have hcbTs := fun prev merkle ts nonce addr reward => codeU64.bind
    (fun sub : BlockSubmission => sub.cbTimestamp.value)
    (hcount prev merkle ts nonce addr reward) <| by
      intro cbTs sub hboth
      obtain ⟨-, -, hsub⟩ := hboth
      rw [← hsub]
  have hreward := fun prev merkle ts nonce addr => codeU64.bind
    (fun sub : BlockSubmission => sub.cbReward) (hcbTs prev merkle ts nonce addr) <| by
      intro reward sub hboth
      obtain ⟨-, -, -, hsub⟩ := hboth
      rw [← hsub]
  have haddr := fun prev merkle ts nonce => (codeArray 20).bind
    BlockSubmission.cbAddress (hreward prev merkle ts nonce) <| by
      intro addr sub hboth
      obtain ⟨-, -, -, -, hsub⟩ := hboth
      rw [← hsub]
  have hnonce := fun prev merkle ts => codeU64.bind
    (fun sub : BlockSubmission => sub.nonce) (haddr prev merkle ts) <| by
      intro nonce sub hboth
      obtain ⟨-, -, -, -, -, hsub⟩ := hboth
      rw [← hsub]
  have htimestamp := fun prev merkle => codeU64.bind
    (fun sub : BlockSubmission => sub.timestamp.value) (hnonce prev merkle) <| by
      intro ts sub hboth
      obtain ⟨-, -, -, -, -, -, hsub⟩ := hboth
      rw [← hsub]
  have hmerkle := fun prev => (codeArray 32).bind BlockSubmission.wireMerkle
    (htimestamp prev) <| by
      intro merkle sub hboth
      obtain ⟨-, -, -, -, -, -, -, hsub⟩ := hboth
      rw [← hsub]
  have hprev := (codeArray 32).bind BlockSubmission.prevHash hmerkle <| by
      intro prev sub hboth
      obtain ⟨-, -, -, -, -, -, -, -, hsub⟩ := hboth
      rw [← hsub]
  refine hprev.congr ?_ fun sub _ => rfl
  intro sub
  rw [← Transaction.toNat_ofNat_length_iff]
  constructor
  · intro hlen
    exact ⟨trivial, trivial, trivial, trivial, trivial, trivial, trivial, trivial,
      ⟨hlen, fun _ _ => trivial⟩, rfl⟩
  · intro hboth
    obtain ⟨-, -, -, -, -, -, -, -, ⟨hlen, -⟩, -⟩ := hboth
    exact hlen

end BlockSubmission

/-- The fields of the submission a payload starts with. -/
def submission (payload : Bytes) : Option BlockSubmission :=
  match BlockSubmission.take.run ⟨payload, 0⟩ with
  | .ok (sub, _) => some sub
  | .error _ => none

theorem submission_eq_some {payload : Bytes} {sub : BlockSubmission}
    (hcount : sub.txids.length < 2 ^ 32) (hpre : sub.bytes <+: payload) :
    submission payload = some sub := by
  have htake := BlockSubmission.code.complete (s := ⟨payload, 0⟩) hcount hpre
  rw [submission, htake]

/-- A list of lookups succeeds when each of them does. -/
theorem mapM_cons_eq_some {α β : Type} {f : α → Option β} {a : α} {l : List α} {bs : List β} :
    (a :: l).mapM f = some bs ↔
      ∃ b rest, f a = some b ∧ l.mapM f = some rest ∧ bs = b :: rest := by
  rw [List.mapM_cons]
  cases f a with
  | none => simp
  | some b =>
    cases l.mapM f with
    | none => simp
    | some rest => simp [eq_comm]

/-- Looking the references up while they are read is looking them up afterwards. -/
theorem run_takeReferences_eq_ok {pool : FiniteMap Hash Transaction} {n : ℕ} {r r' : Reader}
    {txs : List Transaction} :
    (takeReferences pool n).run r = .ok (.ok txs, r') ↔
      ∃ txids, (many Reader.takeHash n).run r = .ok (txids, r') ∧
        txids.mapM (fun txid => pool[txid]?) = some txs := by
  induction n generalizing r txs with
  | zero =>
    rw [takeReferences, many, run_pure_eq_ok]
    constructor
    · intro heq
      obtain ⟨htxs, rfl⟩ := Prod.mk.inj heq
      cases htxs
      exact ⟨[], rfl, rfl⟩
    · intro hex
      obtain ⟨txids, hrun, hmap⟩ := hex
      obtain ⟨rfl, rfl⟩ := Prod.mk.inj (run_pure_eq_ok.mp hrun)
      rw [List.mapM_nil] at hmap
      cases hmap
      rfl
  | succ n ih =>
    simp only [takeReferences, many, run_bind_eq_ok, run_pure_eq_ok]
    constructor
    · intro hex
      obtain ⟨txid, s₁, htxid, hrest⟩ := hex
      cases hget : pool[txid]? with
      | none =>
        rw [hget] at hrest
        cases hrest
      | some tx =>
        rw [hget] at hrest
        obtain ⟨res, s₂, hres, hpair⟩ := run_bind_eq_ok.mp hrest
        obtain ⟨hmap, rfl⟩ := Prod.mk.inj (run_pure_eq_ok.mp hpair)
        cases res with
        | error e => cases hmap
        | ok rest =>
          cases hmap
          obtain ⟨txids, hmany, hlookup⟩ := ih.mp hres
          exact ⟨txid :: txids, ⟨txid, s₁, htxid, txids, s₂, hmany, rfl⟩,
            mapM_cons_eq_some.mpr ⟨tx, rest, hget, hlookup, rfl⟩⟩
    · intro hex
      obtain ⟨_, ⟨txid, s₁, htxid, txids, s₂, hmany, heq⟩, hlookup⟩ := hex
      obtain ⟨rfl, rfl⟩ := Prod.mk.inj heq
      obtain ⟨tx, rest, hget, hrest, rfl⟩ := mapM_cons_eq_some.mp hlookup
      refine ⟨txid, s₁, htxid, ?_⟩
      rw [hget]
      exact run_bind_eq_ok.mpr ⟨.ok rest, s₂, ih.mpr ⟨txids, hmany, hrest⟩, rfl⟩

/-- What the parser returns: the fields of the payload, and the pool's
transactions for its references. -/
theorem run_parseCreateBlockPayload_eq_ok {S : Sodium} {pool : FiniteMap Hash Transaction}
    {r r' : Reader} {parsed : ParsedCreateBlock} :
    (parseCreateBlockPayload S pool).run r = .ok (.ok parsed, r') ↔
      ∃ sub refs, BlockSubmission.take.run r = .ok (sub, r') ∧ sub.resolve pool = some refs ∧
        parsed = ⟨sub.prevHash, sub.wireMerkle, sub.timestamp, sub.nonce, sub.coinbase S,
          sub.coinbase S :: refs⟩ := by
  simp only [parseCreateBlockPayload, BlockSubmission.take, run_bind_eq_ok, run_pure_eq_ok]
  constructor
  · intro hex
    obtain ⟨prev, s₁, h₁, merkle, s₂, h₂, ts, s₃, h₃, nonce, s₄, h₄, addr, s₅, h₅, reward, s₆, h₆,
      cbTs, s₇, h₇, txCount, s₈, h₈, res, s₉, hres, heq⟩ := hex
    obtain ⟨hmap, rfl⟩ := Prod.mk.inj heq
    cases res with
    | error e => cases hmap
    | ok refs =>
      cases hmap
      obtain ⟨txids, hmany, hlookup⟩ := run_takeReferences_eq_ok.mp hres
      exact ⟨_, refs, ⟨prev, s₁, h₁, merkle, s₂, h₂, ts, s₃, h₃, nonce, s₄, h₄, addr, s₅, h₅,
        reward, s₆, h₆, cbTs, s₇, h₇, txCount, s₈, h₈, txids, s₉, hmany, rfl⟩, hlookup, rfl⟩
  · intro hex
    obtain ⟨_, refs, ⟨prev, s₁, h₁, merkle, s₂, h₂, ts, s₃, h₃, nonce, s₄, h₄, addr, s₅, h₅,
      reward, s₆, h₆, cbTs, s₇, h₇, txCount, s₈, h₈, txids, s₉, hmany, heq⟩, hlookup, rfl⟩ := hex
    obtain ⟨rfl, rfl⟩ := Prod.mk.inj heq
    exact ⟨prev, s₁, h₁, merkle, s₂, h₂, ts, s₃, h₃, nonce, s₄, h₄, addr, s₅, h₅, reward, s₆, h₆,
      cbTs, s₇, h₇, txCount, s₈, h₈, .ok refs, s₉,
      run_takeReferences_eq_ok.mpr ⟨txids, hmany, hlookup⟩, rfl⟩

/-- **What `on_create_block` accepts**: a payload that starts with a submission
whose references are in the pool, with the Merkle root of its block, enough work,
and the tip as its parent. -/
theorem acceptBlock_eq_ok {S : Sodium} {payload : Bytes} {c : Chain} {blk : Block} :
    acceptBlock S payload c = .ok blk ↔
      ∃ (sub : BlockSubmission) (refs : List Transaction), sub.txids.length < 2 ^ 32 ∧
        sub.bytes <+: payload ∧ sub.resolve c.pool = some refs ∧ blk = sub.block S refs ∧
        blk.header.merkleRoot = sub.wireMerkle ∧ compare blk.hash c.target ≠ .gt ∧
        sub.prevHash = c.tipHash := by
  have hstart : cursor.rest ⟨payload, 0⟩ = payload := rfl
  rw [acceptBlock]
  constructor
  · intro hok
    split at hok
    · cases hok
    · cases hok
    next parsed r' hrun =>
      obtain ⟨sub, refs, htake, hresolve, rfl⟩ := run_parseCreateBlockPayload_eq_ok.mp hrun
      obtain ⟨hcount, hpre, -⟩ := BlockSubmission.code.sound htake
      rw [hstart] at hpre
      refine ⟨sub, refs, hcount, hpre, hresolve, ?_⟩
      dsimp only at hok
      split at hok
      · cases hok
      next hmerkle =>
      split at hok
      · cases hok
      next hwork =>
      split at hok
      · cases hok
      next hprev =>
      cases hok
      exact ⟨rfl, not_not.mp hmerkle, hwork, not_not.mp hprev⟩
  · intro hex
    obtain ⟨sub, refs, hcount, hpre, hresolve, rfl, hmerkle, hwork, hprev⟩ := hex
    have htake := BlockSubmission.code.complete (s := ⟨payload, 0⟩) hcount hpre
    have hrun : (parseCreateBlockPayload S c.pool).run _ = .ok (.ok _, _) :=
      run_parseCreateBlockPayload_eq_ok.mpr ⟨sub, refs, htake, hresolve, rfl⟩
    rw [hrun]
    exact (if_neg (not_not.mpr hmerkle)).trans <| (if_neg hwork).trans <|
      if_neg (not_not.mpr hprev)

end Axis
