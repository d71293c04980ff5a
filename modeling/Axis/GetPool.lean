import Axis.Threads

/-!
# Reading the pool

`on_get_pool` asks the chain for the pool twice: once for the count it writes in front, and
once for the txids behind it.  The calls are locked one at a time, so that a transaction
submitted over HTTP between them is among the txids and not in the count.  A block or a
transaction that comes in over TCP waits, because the TCP thread is the one that answers.

## Main definitions

* `PoolPhase`, `stepPool` — where the handler stands, and a node with a thread that
  answers `GetPool`.
* `CountsTxids` — the payload of a well-formed response.
* `undisturbed` — the guard of runs in which nothing is admitted between the two calls.

## Main results

* `countsTxids_iff_read` — a reader of the count and of as many txids is at the end of the
  payload.
* `exec_onGetPool` — a thread that is not interrupted does what `onGetPool` does.
* `step_other` — **the step lemma**: what another thread does to the size of the pool.
* `poolResponse_exact` — **responses are well formed in undisturbed runs, and an exchange
  that is disturbed is not.**
-/

namespace Axis

open Positional PrefixCode

variable {S : Sodium}

/-! ### The response -/

/-- The transactions of the pool.  The order is that of an unordered map; here it is that
of the txids. -/
def Chain.getPoolTxs (c : Chain) : List Transaction := c.pool.toList.map Prod.snd

/-- What `on_get_pool` writes for a count and a list. -/
def poolPayload (txCount : UInt32) (txs : List Transaction) : Bytes :=
  (txs.foldl (fun w tx => w.putHash tx.txid) (({} : Writer).putU32 txCount)).buf

/-- `on_get_pool`, without other threads. -/
def onGetPool (c : Chain) : Bytes :=
  poolPayload (UInt32.ofNat c.getPoolTxs.length) c.getPoolTxs

/-- A payload of a count and as many txids. -/
def CountsTxids (payload : Bytes) : Prop :=
  ∃ (txCount : UInt32) (txids : List Hash),
    payload = leBytes 4 txCount.toNat ++ txids.flatMap U8Array.data ∧
      txCount.toNat = txids.length

/-- What a client reads from a response. -/
def takePoolResponse : ReadM (List Hash) := do
  let txCount ← Reader.takeU32
  many Reader.takeHash txCount.toNat

/-- The response is read by an exact prefix code. -/
theorem codePoolResponse :
    Code cursor (fun txids : List Hash => leBytes 4 (UInt32.ofNat txids.length).toNat ++
      txids.flatMap U8Array.data) (fun txids => txids.length < 2 ^ 32) takePoolResponse := by
  have hread := codeU32.bind (fun txids : List Hash => UInt32.ofNat txids.length)
    (fun txCount => (codeArray 32).many txCount.toNat) <| by
      intro txCount txids h
      rw [h.1, UInt32.ofNat_toNat]
  refine hread.congr ?_ fun _ _ => rfl
  intro txids
  rw [← Transaction.toNat_ofNat_length_iff]
  simp

/-- **A client that reads the count and as many txids** is then at the end of the payload,
if and only if the payload counts its txids. -/
theorem countsTxids_iff_read (payload : Bytes) :
    CountsTxids payload ↔ ∃ (txids : List Hash) (r : Reader),
      takePoolResponse.run ⟨payload, 0⟩ = .ok (txids, r) ∧ r.offset = payload.length := by
  constructor
  · intro h
    obtain ⟨txCount, txids, rfl, hcount⟩ := h
    have hlt : txids.length < 2 ^ 32 := hcount ▸ txCount.toNat_lt
    have hsame : UInt32.ofNat txids.length = txCount := by rw [← hcount, UInt32.ofNat_toNat]
    have hrun := codePoolResponse.complete.run_start hlt []
    rw [List.append_nil, hsame] at hrun
    refine ⟨txids, _, hrun, ?_⟩
    show 0 + _ = _
    rw [Nat.zero_add]
  · intro h
    obtain ⟨txids, r, hrun, hend⟩ := h
    obtain ⟨hlt, hpre, rfl⟩ := codePoolResponse.sound hrun
    refine ⟨UInt32.ofNat txids.length, txids, ?_, ?_⟩
    · -- what was read is a prefix of full length
      change 0 + _ = _ at hend
      rw [Nat.zero_add] at hend
      exact (hpre.eq_of_length hend).symm
    · rw [← (Transaction.toNat_ofNat_length_iff txids).mpr hlt]

theorem poolPayload_eq (txCount : UInt32) (txs : List Transaction) :
    poolPayload txCount txs =
      leBytes 4 txCount.toNat ++ (txs.map Transaction.txid).flatMap U8Array.data := by
  have hput : ∀ (w : Writer) (tx : Transaction),
      (w.putHash tx.txid).buf = w.buf ++ tx.txid.data := fun _ _ => rfl
  rw [poolPayload, Writer.buf_foldl hput, Writer.buf_putU32, List.nil_append, List.flatMap_map]

/-- A response is well formed when its count is the length of its list. -/
theorem countsTxids_poolPayload_iff (txCount : UInt32) (txs : List Transaction) :
    CountsTxids (poolPayload txCount txs) ↔ txCount.toNat = txs.length := by
  rw [poolPayload_eq]
  constructor
  · intro h
    obtain ⟨n, txids, heq, hcount⟩ := h
    obtain ⟨hn, hlist⟩ := List.append_inj heq (by simp)
    have hsame : txCount.toNat = n.toNat :=
      leBytes_injOn (by have := txCount.toNat_lt; omega) (by have := n.toNat_lt; omega) hn
    have hlen := congrArg List.length hlist
    rw [length_flatMap_of_const U8Array.size_data, length_flatMap_of_const U8Array.size_data,
      List.length_map] at hlen
    omega
  · intro h
    exact ⟨txCount, txs.map Transaction.txid, rfl, by rw [List.length_map, h]⟩

theorem length_getPoolTxs (c : Chain) : c.getPoolTxs.length = c.pool.size := by
  rw [Chain.getPoolTxs, List.length_map, Std.ExtTreeMap.length_toList]

/-! ### A node that answers `GetPool` -/

/-- Where `on_get_pool` stands: before one of its calls, or at its end. -/
inductive PoolPhase
  | idle
  | count
  | list (txCount : UInt32)
  | replied (payload : Bytes)
  deriving DecidableEq

/-- No `GetPool` is being answered. -/
def PoolPhase.done : PoolPhase → Bool
  | .idle | .replied _ => true
  | .count | .list _ => false

/-- The count is taken and the list is not. -/
def PoolPhase.between : PoolPhase → Bool
  | .list _ => true
  | .idle | .count | .replied _ => false

/-- A node with its threads, and where the TCP thread stands in `on_get_pool`. -/
structure PoolThreads extends Threads where
  phase : PoolPhase

/-- What can happen to it: a `GetPool` frame, the next call of its handler, or what can
happen to the threads anyway. -/
inductive PoolEvent
  | getPool
  | poolCall
  | other (e : Event)

/-- The event is one of the TCP thread. -/
def Event.onTcp : Event → Bool
  | .createTx _ _ | .createBlock _ | .call _ => true
  | .postTx _ _ | .getTip | .getStatus | .read _ => false

/-- The TCP thread answers one frame at a time. -/
def stepPool (S : Sodium) : PoolEvent → PoolThreads → Except String PoolThreads
  | .getPool, s =>
    if s.tcp.idle && s.phase.done then .ok { s with phase := .count }
    else .error "the TCP thread is busy"
  | .poolCall, s =>
    match s.phase with
    | .count => .ok { s with phase := .list (UInt32.ofNat s.chain.getPoolTxs.length) }
    | .list txCount => .ok { s with phase := .replied (poolPayload txCount s.chain.getPoolTxs) }
    | .idle | .replied _ => .error "no call is due"
  | .other e, s =>
    if e.onTcp && !s.phase.done then .error "the TCP thread is busy"
    else
      match stepThreads S e s.toThreads with
      | .error what => .error what
      | .ok threads => .ok { s with toThreads := threads }

/-- The states reached from a state of a node at rest. -/
abbrev PoolInterleaved (S : Sodium) (guard : Chain → Op → Prop)
    (allowed : PoolThreads → PoolEvent → Prop) : PoolThreads → Prop :=
  Transition.Reachable
    (fun s => (Reachable S guard s.chain ∧ s.tcp = .ready ∧ s.http = []) ∧ s.phase = .idle)
    allowed (stepPool S)

/-- Any thread at any time. -/
def anyPoolEvent : PoolThreads → PoolEvent → Prop := fun _ _ => True

/-- **A thread that is not interrupted** does what `onGetPool` does. -/
theorem exec_onGetPool {s : PoolThreads} (htcp : s.tcp.idle = true) (hdone : s.phase.done = true) :
    Transition.exec (stepPool S) [.getPool, .poolCall, .poolCall] s =
      .ok { s with phase := .replied (onGetPool s.chain) } := by
  have hget : stepPool S .getPool s = .ok { s with phase := .count } := by
    simp [stepPool, htcp, hdone]
  rw [Transition.exec, hget]
  rfl

/-! ### What other threads do to the pool -/

/-- The submission passes the parser of the HTTP server and the checks of `add_tx`. -/
def admits (S : Sodium) (c : Chain) (raw : RawTx) : Bool :=
  match parseSignedTransactionPayload S raw.bytes with
  | .error _ => false
  | .ok st => c.checkTx S st = .ok ()

/-- What a request does to the size of the pool, whatever the write answers. -/
theorem size_postTransaction (S : Sodium) (raw : RawTx) (status : WriteStatus) (c : Chain) :
    (postTransaction S raw.bytes status c).1.pool.size =
      if admits S c raw then c.pool.size + 1 else c.pool.size := by
  unfold admits
  cases hparse : parseSignedTransactionPayload S raw.bytes with
  | error what =>
    rw [postTransaction, hparse]
    rfl
  | ok st =>
    rw [fst_postTransaction_of_parse hparse, Chain.addTx]
    cases hcheck : c.checkTx S st with
    | error err => simp [hcheck]
    | ok u =>
      -- a valid transaction is new to the pool
      have hnew := (Chain.checkTx_eq_ok_iff.mp hcheck).unknown
      obtain ⟨poolDb, heq⟩ := fst_admitTx st.tx status c
      dsimp only
      rw [heq]
      show (c.pool.insert st.tx.txid st.tx).size = _
      rw [Std.ExtTreeMap.size_insert]
      simp [hnew, hcheck]

/-- No submission is admitted between the two calls, and the count fits when it is
taken. -/
def undisturbed (S : Sodium) (s : PoolThreads) : PoolEvent → Prop
  | .poolCall => s.phase = .count → s.chain.pool.size < 2 ^ 32
  | .other (.postTx raw _) => s.phase.between = true → admits S s.chain raw = false
  | _ => True

instance (s : PoolThreads) : (e : PoolEvent) → Decidable (undisturbed S s e)
  | .poolCall => inferInstanceAs (Decidable (_ → _))
  | .other (.postTx _ _) => inferInstanceAs (Decidable (_ → _))
  | .getPool | .other (.createTx _ _) | .other (.createBlock _) | .other (.call _)
  | .other .getTip | .other .getStatus | .other (.read _) => inferInstanceAs (Decidable True)

/-- What it takes for another event to happen, and what it leaves alone. -/
theorem stepPool_other {s s' : PoolThreads} {e : Event} (h : stepPool S (.other e) s = .ok s') :
    (e.onTcp = true → s.phase.done = true) ∧ s'.phase = s.phase ∧
      stepThreads S e s.toThreads = .ok s'.toThreads := by
  dsimp only [stepPool] at h
  split at h
  · cases h
  next hfree =>
  split at h
  · cases h
  next threads hstep =>
  cases h
  refine ⟨fun htcp => ?_, rfl, hstep⟩
  simpa [htcp] using hfree

/-- Reading the chain over HTTP leaves it alone. -/
theorem chain_of_read {s s' : Threads} {i : ℕ} (h : stepThreads S (.read i) s = .ok s') :
    s'.chain = s.chain := by
  dsimp only [stepThreads] at h
  repeat' split at h
  all_goals cases h
  rfl

/-- **The step lemma**: between the two calls, another thread leaves the pool as it is, or
makes it larger by a transaction. -/
theorem step_other {s s' : PoolThreads} {e : Event} {txCount : UInt32}
    (hphase : s.phase = .list txCount) (h : stepPool S (.other e) s = .ok s') :
    s'.phase = .list txCount ∧
      (undisturbed S s (.other e) ∧ s'.chain.pool.size = s.chain.pool.size ∨
        ¬ undisturbed S s (.other e) ∧ s'.chain.pool.size = s.chain.pool.size + 1) := by
  obtain ⟨hfree, hsame, hstep⟩ := stepPool_other h
  refine ⟨hsame.trans hphase, ?_⟩
  rw [hphase] at hfree
  cases e with
  | createTx | createBlock | call => cases hfree rfl
  | postTx raw status =>
    have hchain : s'.chain = (postTransaction S raw.bytes status s.chain).1 :=
      congrArg Threads.chain (Except.ok.inj hstep).symm
    rw [hchain, size_postTransaction]
    cases hadmits : admits S s.chain raw with
    | false => exact Or.inl ⟨fun _ => hadmits, rfl⟩
    | true =>
      refine Or.inr ⟨fun hquiet => ?_, rfl⟩
      have hrefused := hquiet (by rw [hphase]; rfl)
      rw [hadmits] at hrefused
      cases hrefused
  | getTip | getStatus =>
    have hthreads := Except.ok.inj hstep
    exact Or.inl ⟨trivial, by rw [← hthreads]⟩
  | read i => exact Or.inl ⟨trivial, by rw [chain_of_read hstep]⟩

/-- **The run lemma**: over any steps of other threads between the two calls, the pool
keeps its size exactly when none of them disturbs the handler. -/
theorem exec_others {between : List Event} {s s' : PoolThreads} {txCount : UInt32}
    (hphase : s.phase = .list txCount)
    (h : Transition.exec (stepPool S) (between.map .other) s = .ok s') :
    s'.phase = .list txCount ∧ s.chain.pool.size ≤ s'.chain.pool.size ∧
      (s'.chain.pool.size = s.chain.pool.size ↔
        Transition.Allowed (undisturbed S) (stepPool S) (between.map .other) s) := by
  induction between generalizing s with
  | nil =>
    cases h
    exact ⟨hphase, le_rfl, iff_of_true rfl trivial⟩
  | cons e between ih =>
    rw [List.map_cons, Transition.exec_cons_eq_ok] at h
    obtain ⟨t, hstep, hrest⟩ := h
    obtain ⟨htphase, hcases⟩ := step_other hphase hstep
    obtain ⟨hphase', hle, hiff⟩ := ih htphase hrest
    rw [List.map_cons, Transition.Allowed, hstep, Transition.Ok, ← hiff]
    rcases hcases with hquiet | hdisturbed
    · obtain ⟨hquiet, hsize⟩ := hquiet
      refine ⟨hphase', by omega, ?_⟩
      rw [hsize, and_iff_right hquiet]
    · obtain ⟨hdisturbed, hsize⟩ := hdisturbed
      -- the pool never becomes smaller again
      refine ⟨hphase', by omega, iff_of_false (by omega) fun hboth => hdisturbed hboth.1⟩

/-! ### Responses -/

/-- The response is known from the size of the pool at either call. -/
theorem countsTxids_response_iff {s s' : PoolThreads}
    (hle : s.chain.pool.size ≤ s'.chain.pool.size) :
    CountsTxids (poolPayload (UInt32.ofNat s.chain.getPoolTxs.length) s'.chain.getPoolTxs) ↔
      s.chain.pool.size < 2 ^ 32 ∧ s'.chain.pool.size = s.chain.pool.size := by
  rw [countsTxids_poolPayload_iff, length_getPoolTxs, length_getPoolTxs, UInt32.toNat_ofNat']
  omega

/-- What the handler has in hand in undisturbed runs. -/
def PoolPhase.Sound (size : ℕ) : PoolPhase → Prop
  | .list txCount => txCount.toNat = size
  | .replied payload => CountsTxids payload
  | .idle | .count => True

/-- **The invariant of undisturbed runs.** -/
theorem sound_of_undisturbed {guard : Chain → Op → Prop} {s : PoolThreads}
    (h : PoolInterleaved S guard (undisturbed S) s) : s.phase.Sound s.chain.pool.size := by
  refine Transition.Reachable.rule (I := fun s => s.phase.Sound s.chain.pool.size) ?_ ?_ h
  · intro s hstart
    rw [hstart.2]
    trivial
  · intro s e s' _ hsound hquiet hstep
    cases e with
    | getPool =>
      dsimp only [stepPool] at hstep
      split at hstep
      · cases hstep
        trivial
      · cases hstep
    | poolCall =>
      dsimp only [stepPool] at hstep
      split at hstep
      · next hphase =>
        cases hstep
        show (UInt32.ofNat s.chain.getPoolTxs.length).toNat = s.chain.pool.size
        have hfits := hquiet hphase
        rw [length_getPoolTxs, UInt32.toNat_ofNat', Nat.mod_eq_of_lt hfits]
      · next txCount hphase =>
        cases hstep
        rw [hphase] at hsound
        show CountsTxids (poolPayload txCount s.chain.getPoolTxs)
        rw [countsTxids_poolPayload_iff, length_getPoolTxs]
        exact hsound
      · cases hstep
      · cases hstep
    | other e =>
      cases hphase : s.phase with
      | idle | count =>
        rw [(stepPool_other hstep).2.1, hphase]
        trivial
      | list txCount =>
        rw [hphase] at hsound
        obtain ⟨hphase', hcases⟩ := step_other hphase hstep
        rcases hcases with hkept | hdisturbed
        · rw [hphase', hkept.2]
          exact hsound
        · exact absurd hquiet hdisturbed.1
      | replied payload =>
        rw [hphase] at hsound
        rw [(stepPool_other hstep).2.1, hphase]
        exact hsound

/-- **`PoolResponse` is well formed exactly when nothing comes between.**  In every run in
which no submission is admitted between the two calls of a handler, and the pool is smaller
than `2 ^ 32` at the first one, all responses count their txids.  And whatever state the
handler starts in, and whatever other threads do between its calls, it sends a response
that counts its txids only then. -/
theorem poolResponse_exact (S : Sodium) :
    (∀ s, PoolInterleaved S anyOp (undisturbed S) s →
      ∀ payload, s.phase = .replied payload → CountsTxids payload) ∧
    ∀ (s t u v : PoolThreads) (between : List Event), s.phase = .count →
      stepPool S .poolCall s = .ok t →
      Transition.exec (stepPool S) (between.map .other) t = .ok u →
      stepPool S .poolCall u = .ok v →
      ∃ payload, v.phase = .replied payload ∧
        (CountsTxids payload ↔ s.chain.pool.size < 2 ^ 32 ∧
          Transition.Allowed (undisturbed S) (stepPool S) (between.map .other) t) := by
  constructor
  · intro s h payload hphase
    have hsound := sound_of_undisturbed h
    rw [hphase] at hsound
    exact hsound
  · intro s t u v between hphase hfirst hbetween hlast
    simp only [stepPool, hphase] at hfirst
    cases hfirst
    obtain ⟨huphase, hle, hiff⟩ := exec_others rfl hbetween
    simp only [stepPool, huphase] at hlast
    cases hlast
    refine ⟨_, rfl, ?_⟩
    rw [countsTxids_response_iff hle, hiff]

namespace Sample

/-- Two blocks, and a `GetPool` with requests before it and between its calls. -/
def poolExchange (before between : List Event) : List PoolEvent :=
  (checks frame₁ 3 ++ checks frame₂ 3 ++ before).map .other ++
    ([.getPool, .poolCall] ++ between.map .other ++ [.poolCall])

/-- The second payment, and the same request again between the calls. -/
def repeatedPayment : List PoolEvent :=
  poolExchange [.postTx payment₂ .ok] [.postTx payment₂ .ok, .getTip]

/-- The second payment between the calls. -/
def tornPayment : List PoolEvent := poolExchange [] [.postTx payment₂ .ok]

end Sample

/-- What the threads do from the genesis block on. -/
abbrev runPool (S : Sodium) (events : List PoolEvent) : Except String PoolThreads :=
  Transition.exec (stepPool S) events ⟨⟨genesisChain S, .ready, []⟩, .idle⟩

/-- A run of events that are allowed reaches a state. -/
theorem exists_poolInterleaved (allowed : PoolThreads → PoolEvent → Prop)
    (events : List PoolEvent) (P : PoolThreads → Prop)
    (h : Transition.Passes allowed (stepPool S) P events ⟨⟨genesisChain S, .ready, []⟩, .idle⟩) :
    ∃ s, runPool S events = .ok s ∧ PoolInterleaved S anyOp allowed s ∧ P s :=
  Transition.exists_of_passes (.start ⟨⟨.start boot_empty, rfl, rfl⟩, rfl⟩) h

/-- A run of any events reaches a state. -/
theorem exists_poolInterleaved_any (events : List PoolEvent) (P : PoolThreads → Prop)
    (hok : Transition.Ok P (runPool S events)) :
    ∃ s, runPool S events = .ok s ∧ PoolInterleaved S anyOp anyPoolEvent s ∧ P s :=
  Transition.exists_of_exec_true (.start ⟨⟨.start boot_empty, rfl, rfl⟩, rfl⟩) hok

/-- A request that is refused between the two calls. -/
theorem poolResponse_repeated : ∃ s, runPool Sample.sodium Sample.repeatedPayment = .ok s ∧
    s.phase = .replied (poolPayload 1 [(Sample.pay₂.signed Sample.sodium).tx]) ∧
    CountsTxids (poolPayload 1 [(Sample.pay₂.signed Sample.sodium).tx]) := by
  obtain ⟨s, hrun, hreach, hphase⟩ := exists_poolInterleaved (S := Sample.sodium)
    (undisturbed Sample.sodium) Sample.repeatedPayment
    (fun s => s.phase = .replied (poolPayload 1 [(Sample.pay₂.signed Sample.sodium).tx]))
    (by decide +kernel)
  exact ⟨s, hrun, hphase, (poolResponse_exact Sample.sodium).1 s hreach _ hphase⟩

/-- **A payment between the two calls** is listed and not counted. -/
theorem poolResponse_torn : ∃ s, runPool Sample.sodium Sample.tornPayment = .ok s ∧
    PoolInterleaved Sample.sodium anyOp anyPoolEvent s ∧
    ∃ payload, s.phase = .replied payload ∧ ¬ CountsTxids payload := by
  obtain ⟨s, hrun, hreach, hphase⟩ := exists_poolInterleaved_any (S := Sample.sodium)
    Sample.tornPayment
    (fun s => s.phase = .replied (poolPayload 0 [(Sample.pay₂.signed Sample.sodium).tx]))
    (by decide +kernel)
  refine ⟨s, hrun, hreach, _, hphase, ?_⟩
  rw [countsTxids_poolPayload_iff]
  exact Nat.zero_ne_one

end Axis
