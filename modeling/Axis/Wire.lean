import Axis.Node

/-!
# The wire and storage formats

A submitted transaction is parsed by two hand-written copies of one grammar, one for
each server, and they differ in what they do with bytes after the signature.  A stored
block is read through a view for each transaction, and nothing compares the end of the
transaction with the end of its view.

## Main definitions

* `createTxTransaction` — what the TCP server parses, as a signed transaction.
* `ParsersAgree` — both servers reject a byte string, or both take the same transaction
  from it.
* `Framing` — the header and the views of a stored block.
* `Loads` — the loader takes a stored value, and the block it reads.

## Main results

* `parsersAgree_iff` — **the parsers agree on a byte string exactly when no transaction
  in it is followed by more bytes.**
* `parseSignedTransactionPayload_exact` — **the HTTP server accepts exactly its grammar.**
* `transaction_exact` — **the codec of a transaction is exact** over all byte strings.
* `run_deserialize_new` — **the round trip of the block codec.**
* `serialize_eq_iff_of_loads` — **a stored block is the serialization of what is read
  from it exactly when every view ends with its transaction.**
-/

namespace Axis

open Positional PrefixCode

variable {S : Sodium}

/-! ### Submitted transactions -/

/-- What `on_create_tx` makes of a payload before it calls `add_tx`. -/
def createTxTransaction (S : Sodium) (payload : Bytes) : Except String SignedTransaction :=
  (parseCreateTxPayload.run ⟨payload, 0⟩).map fun p => p.1.signed S

/-- Both parsers reject the payload, or both accept it with the same result. -/
def ParsersAgree (S : Sodium) (payload : Bytes) : Prop :=
  (createTxTransaction S payload).toOption = (parseSignedTransactionPayload S payload).toOption

/-- The reader is at the end of a payload that it read whole. -/
theorem offset_eq_length_iff {payload : Bytes} {p : ParsedCreateTx} {r : Reader}
    (h : parseCreateTxPayload.run ⟨payload, 0⟩ = .ok (p, r)) :
    r.offset = r.data.length ↔ p.bytes = payload := by
  obtain ⟨-, hpre, rfl⟩ := codeSignedTransaction.sound h
  show 0 + p.bytes.length = payload.length ↔ _
  rw [Nat.zero_add]
  exact ⟨fun hlen => hpre.eq_of_length hlen, congrArg List.length⟩

/-- **The parsers agree on a payload exactly when no transaction in it is followed by
more bytes.** -/
theorem parsersAgree_iff (payload : Bytes) :
    ParsersAgree S payload ↔ ∀ p : ParsedCreateTx, p.inputs.length < 2 ^ 32 →
      p.outputs.length < 2 ^ 32 → p.bytes <+: payload → p.bytes = payload := by
  unfold ParsersAgree createTxTransaction
  cases hrun : parseCreateTxPayload.run ⟨payload, 0⟩ with
  | error what =>
    rw [parseSignedTransactionPayload_error hrun]
    constructor
    · -- a transaction at the front would have been read
      intro _ p hin hout hpre
      have hread := codeSignedTransaction.complete (s := ⟨payload, 0⟩) ⟨hin, hout⟩ hpre
      rw [hrun] at hread
      cases hread
    · intro _
      rfl
  | ok q =>
    obtain ⟨parsed, r⟩ := q
    rw [parseSignedTransactionPayload_ok hrun]
    have hend := offset_eq_length_iff hrun
    obtain ⟨⟨hin, hout⟩, hpre, -⟩ := codeSignedTransaction.sound hrun
    constructor
    · intro hagree p hpin hpout hppre
      -- the transaction in front is the one that was read
      have hread := codeSignedTransaction.complete (s := ⟨payload, 0⟩) ⟨hpin, hpout⟩ hppre
      rw [hrun] at hread
      have hp : parsed = p := (Prod.mk.inj (Except.ok.inj hread)).1
      rw [← hp, ← hend]
      by_contra htrail
      rw [if_pos htrail] at hagree
      cases hagree
    · intro hwhole
      rw [if_neg (not_not.mpr (hend.mpr (hwhole parsed hin hout hpre)))]
      rfl

/-- **One byte after the signature** is ignored by the TCP server, and makes the HTTP
server reject the transaction. -/
theorem not_parsersAgree_pay : ¬ ParsersAgree Sample.sodium (Sample.pay₁.bytes ++ [0]) := by
  intro hagree
  have hsome := congrArg Option.isSome hagree
  revert hsome
  decide +kernel

/-- The HTTP server's parser accepts the bytes of a transaction, and nothing else. -/
theorem parseSignedTransactionPayload_eq_ok {payload : Bytes} {st : SignedTransaction} :
    parseSignedTransactionPayload S payload = .ok st ↔
      ∃ p : ParsedCreateTx, (p.inputs.length < 2 ^ 32 ∧ p.outputs.length < 2 ^ 32) ∧
        payload = p.bytes ∧ st = p.signed S := by
  constructor
  · intro hok
    cases hrun : parseCreateTxPayload.run ⟨payload, 0⟩ with
    | error what =>
      rw [parseSignedTransactionPayload_error hrun] at hok
      cases hok
    | ok q =>
      obtain ⟨p, r⟩ := q
      obtain ⟨hcounts, -, -⟩ := codeSignedTransaction.sound hrun
      rw [parseSignedTransactionPayload_ok hrun] at hok
      by_cases htrail : r.offset ≠ r.data.length
      · rw [if_pos htrail] at hok
        cases hok
      · rw [if_neg htrail] at hok
        have hbytes := (offset_eq_length_iff hrun).mp (not_not.mp htrail)
        exact ⟨p, hcounts, hbytes.symm, (Except.ok.inj hok).symm⟩
  · intro hex
    obtain ⟨p, hcounts, rfl, rfl⟩ := hex
    have hrun := codeSignedTransaction.complete (s := ⟨p.bytes, 0⟩) hcounts (List.prefix_refl _)
    have hend := (offset_eq_length_iff hrun).mpr rfl
    rw [parseSignedTransactionPayload_ok hrun, if_neg (not_not.mpr hend)]

/-- **The HTTP server's parser accepts exactly its grammar**: it takes the bytes of a public
key, a timestamp, counted inputs, counted outputs and a signature, it returns these fields,
and no other byte string has the same ones. -/
theorem parseSignedTransactionPayload_exact (S : Sodium) :
    (∀ (payload : Bytes) (st : SignedTransaction),
      parseSignedTransactionPayload S payload = .ok st ↔
        ∃ p : ParsedCreateTx, (p.inputs.length < 2 ^ 32 ∧ p.outputs.length < 2 ^ 32) ∧
          payload = p.bytes ∧ st = p.signed S) ∧
    ∀ (payload payload' : Bytes) (st st' : SignedTransaction),
      parseSignedTransactionPayload S payload = .ok st →
      parseSignedTransactionPayload S payload' = .ok st' →
      st.pubkey = st'.pubkey → st.tx.timestamp = st'.tx.timestamp →
      st.tx.inputs = st'.tx.inputs → st.tx.outputs = st'.tx.outputs → st.sig = st'.sig →
      payload = payload' := by
  refine ⟨fun payload st => parseSignedTransactionPayload_eq_ok, ?_⟩
  intro payload payload' st st' hparse hparse' hpubkey htimestamp hinputs houtputs hsig
  obtain ⟨p, -, rfl, rfl⟩ := parseSignedTransactionPayload_eq_ok.mp hparse
  obtain ⟨p', -, rfl, rfl⟩ := parseSignedTransactionPayload_eq_ok.mp hparse'
  have hp : p = p' := by
    cases p
    cases p'
    rw [ParsedCreateTx.mk.injEq]
    exact ⟨hpubkey, htimestamp, hinputs, houtputs, hsig⟩
  rw [hp]

/-! ### The codec of a transaction -/

/-- A reader at the front of a byte string, after some bytes. -/
theorem skip_start (n : ℕ) (data : Bytes) : cursor.skip n (cursor.start data) = ⟨data, n⟩ := by
  show Reader.mk data (0 + n) = ⟨data, n⟩
  rw [Nat.zero_add]

/-- What a transaction is read back from, with anything behind it. -/
theorem run_deserialize_serialize {tx : Transaction} (h : tx.Sized) (suf : Bytes) :
    Transaction.deserialize.run ⟨tx.serialize ++ suf, 0⟩ =
      .ok (tx, ⟨tx.serialize ++ suf, tx.serialize.length⟩) := by
  have hrun := Transaction.code.complete.run_start h suf
  rw [skip_start] at hrun
  exact hrun

/-- What was read of a byte string is the serialization of what was returned. -/
theorem take_of_run_deserialize {data : Bytes} {tx : Transaction} {r : Reader}
    (h : Transaction.deserialize.run ⟨data, 0⟩ = .ok (tx, r)) :
    tx.Sized ∧ data.take r.offset = tx.serialize := by
  obtain ⟨hsized, hpre, rfl⟩ := Transaction.code.sound h
  refine ⟨hsized, ?_⟩
  show data.take (0 + tx.serialize.length) = tx.serialize
  rw [Nat.zero_add]
  exact (List.prefix_iff_eq_take.mp hpre).symm

/-- **The codec of a transaction is exact.**  The decoder reads back every transaction
whose lists fit their counts, with any stored txid, and stops where its bytes end; what it
consumed of any byte string is the serialization of what it returns; and it throws exactly
on the byte strings that start with no serialized transaction. -/
theorem transaction_exact :
    (∀ (tx : Transaction) (suf : Bytes), tx.inputs.length < 2 ^ 32 →
      tx.outputs.length < 2 ^ 32 →
      Transaction.deserialize.run ⟨tx.serialize ++ suf, 0⟩ =
        .ok (tx, ⟨tx.serialize ++ suf, tx.serialize.length⟩)) ∧
    (∀ (data : Bytes) (tx : Transaction) (r : Reader),
      Transaction.deserialize.run ⟨data, 0⟩ = .ok (tx, r) →
      tx.inputs.length < 2 ^ 32 ∧ tx.outputs.length < 2 ^ 32 ∧
        data.take r.offset = tx.serialize) ∧
    ∀ data : Bytes, (∃ what, Transaction.deserialize.run ⟨data, 0⟩ = .error what) ↔
      ¬ ∃ tx : Transaction, (tx.inputs.length < 2 ^ 32 ∧ tx.outputs.length < 2 ^ 32) ∧
        tx.serialize <+: data := by
  refine ⟨?_, ?_, ?_⟩
  · intro tx suf hin hout
    exact run_deserialize_serialize ⟨hin, hout⟩ suf
  · intro data tx r hrun
    obtain ⟨⟨hin, hout⟩, htake⟩ := take_of_run_deserialize hrun
    exact ⟨hin, hout, htake⟩
  · exact Transaction.code.run_start_error_iff

/-! ### The round trip of a block -/

/-- **The round trip of the block codec**: the decoder reads back any block made by the
constructor, ends where its bytes end, and does not look at what follows them. -/
theorem run_deserialize_new (S : Sodium) (prev : Hash) (txs : List Transaction)
    (ts : Timestamp) (nonce : UInt64) (hcount : txs.length < 2 ^ 32)
    (hsize : ∀ tx ∈ txs, tx.serialize.length < 2 ^ 32) (suf : Bytes) :
    (Block.deserialize S).run ⟨(Block.new S prev txs ts nonce).serialize ++ suf, 0⟩ =
      .ok (Block.new S prev txs ts nonce,
        ⟨(Block.new S prev txs ts nonce).serialize ++ suf,
          (Block.new S prev txs ts nonce).serialize.length⟩) := by
  have hstorable : (Block.new S prev txs ts nonce).Storable S := ⟨rfl, hcount, hsize⟩
  have hrun := (Block.complete S).run_start hstorable suf
  rw [skip_start] at hrun
  exact hrun

/-- A block of two transactions, with a byte after it. -/
theorem run_deserialize_sample :
    (Block.deserialize Sample.sodium).run
        ⟨(Block.new Sample.sodium Sample.genesisHash
          [genesisCoinbase Sample.sodium, (Sample.pay₁.signed Sample.sodium).tx]
          ⟨1781545965⟩ 0).serialize ++ [7], 0⟩ =
      .ok (Block.new Sample.sodium Sample.genesisHash
          [genesisCoinbase Sample.sodium, (Sample.pay₁.signed Sample.sodium).tx] ⟨1781545965⟩ 0,
        ⟨(Block.new Sample.sodium Sample.genesisHash
            [genesisCoinbase Sample.sodium, (Sample.pay₁.signed Sample.sodium).tx]
            ⟨1781545965⟩ 0).serialize ++ [7],
          (Block.new Sample.sodium Sample.genesisHash
            [genesisCoinbase Sample.sodium, (Sample.pay₁.signed Sample.sodium).tx]
            ⟨1781545965⟩ 0).serialize.length⟩) :=
  run_deserialize_new Sample.sodium Sample.genesisHash
    [genesisCoinbase Sample.sodium, (Sample.pay₁.signed Sample.sodium).tx] ⟨1781545965⟩ 0
    (by decide) (by decide +kernel) [7]

/-! ### Stored blocks -/

/-- A view in a stored block, with its size in front. -/
def viewBytes (view : Bytes) : Bytes := leBytes 4 (UInt32.ofNat view.length).toNat ++ view

/-- The view a transaction is read from. -/
def takeSized : ReadM Bytes := do
  let txSize ← Reader.takeU32
  Reader.takeView txSize.toNat

theorem codeSized : Code cursor viewBytes (fun view => view.length < 2 ^ 32) takeSized := by
  refine (codeU32.bind (fun view : Bytes => UInt32.ofNat view.length)
    (fun txSize => codeView txSize.toNat) ?_).congr ?_ fun _ _ => rfl
  · intro txSize view hlen
    rw [hlen, UInt32.ofNat_toNat]
  · intro view
    rw [← Transaction.toNat_ofNat_length_iff, true_and]

/-- What a stored block is made of: its header, and a view for each transaction. -/
structure Framing where
  header : BlockHeader
  views : List Bytes

namespace Framing

def bytes (f : Framing) : Bytes :=
  f.header.bytes ++ (leBytes 4 (UInt32.ofNat f.views.length).toNat ++ f.views.flatMap viewBytes)

/-- The counts and the sizes fit 32 bits. -/
def Fits (f : Framing) : Prop :=
  f.views.length < 2 ^ 32 ∧ ∀ view ∈ f.views, view.length < 2 ^ 32

/-- The part of `Block::deserialize` that does not look into the views. -/
def take : ReadM Framing := do
  let header ← BlockHeader.deserialize
  let txCount ← Reader.takeU32
  let views ← many takeSized txCount.toNat
  pure ⟨header, views⟩

/-- The framing of a stored block is an exact prefix code. -/
theorem code : Code cursor bytes Fits take := by
  have hviews := fun header (txCount : UInt32) => (codeSized.many txCount.toNat).map
    (fun views => (⟨header, views⟩ : Framing)) Framing.views fun _ _ => rfl
  have hcount := fun header => codeU32.bind
    (fun f : Framing => UInt32.ofNat f.views.length) (hviews header) <| by
      intro txCount f hex
      obtain ⟨⟨hlen, -⟩, -⟩ := hex
      rw [hlen, UInt32.ofNat_toNat]
  have hheader := BlockHeader.code.bind Framing.header hcount <| by
      intro header f hboth
      obtain ⟨-, -, hf⟩ := hboth
      rw [← hf]
  refine hheader.congr ?_ fun f _ => rfl
  intro f
  rw [Fits, ← Transaction.toNat_ofNat_length_iff]
  constructor
  · intro hboth
    obtain ⟨hcount, hsize⟩ := hboth
    exact ⟨trivial, trivial, ⟨hcount, hsize⟩, rfl⟩
  · intro hboth
    obtain ⟨-, -, hall, -⟩ := hboth
    exact hall

/-- The bytes determine the framing. -/
theorem bytes_injOn {f g : Framing} (hf : f.Fits) (hg : g.Fits) (h : f.bytes = g.bytes) :
    f = g := by
  have hfree := code.prefix_free hf hg (s := []) (t := []) (by rw [h])
  exact hfree.1

end Framing

/-- The framing a block is serialized with. -/
def Block.framing (blk : Block) : Framing :=
  ⟨blk.header, blk.transactions.map Transaction.serialize⟩

theorem Block.serialize_eq_bytes (blk : Block) : blk.serialize = blk.framing.bytes := by
  rw [Block.serialize_eq, Framing.bytes]
  show _ = blk.header.bytes ++ (leBytes 4 (UInt32.ofNat (blk.transactions.map _).length).toNat ++
    (blk.transactions.map Transaction.serialize).flatMap viewBytes)
  rw [List.length_map, List.flatMap_map]
  rfl

/-- What a view is read as. -/
theorem Transaction.ofBytes_eq_ok {view : Bytes} {tx : Transaction} :
    Transaction.ofBytes view = .ok tx ↔ tx.Sized ∧ tx.serialize <+: view := by
  constructor
  · intro h
    unfold Transaction.ofBytes at h
    cases hrun : Transaction.deserialize.run ⟨view, 0⟩ with
    | error what =>
      rw [hrun] at h
      cases h
    | ok p =>
      rw [hrun] at h
      cases h
      obtain ⟨hsized, hpre, -⟩ := Transaction.code.sound hrun
      exact ⟨hsized, hpre⟩
  · intro hboth
    obtain ⟨hsized, hpre⟩ := hboth
    have hrun := Transaction.code.complete (s := ⟨view, 0⟩) hsized hpre
    rw [Transaction.ofBytes, hrun]
    rfl

/-- The decoder reads a framing, and then a transaction from each view. -/
theorem run_deserialize_eq_ok {r r' : Reader} {blk : Block} :
    (Block.deserialize S).run r = .ok (blk, r') ↔
      ∃ f : Framing, Framing.take.run r = .ok (f, r') ∧ blk.header = f.header ∧
        blk.hash = f.header.hash S ∧
        List.Forall₂ (fun view tx => Transaction.ofBytes view = .ok tx) f.views
          blk.transactions := by
  have htake : Block.takeTransaction = takeSized >>= fun view =>
      liftM (Transaction.ofBytes view) := by
    unfold Block.takeTransaction takeSized
    rw [bind_assoc]
  simp only [Block.deserialize, Framing.take, htake, run_bind_eq_ok, run_pure_eq_ok,
    run_many_bind_liftM_eq_ok]
  constructor
  · intro hboth
    obtain ⟨header, s₁, hheader, txCount, s₂, hcount, txs, s₃, ⟨views, hviews, hall⟩, heq⟩ := hboth
    obtain ⟨rfl, rfl⟩ := Prod.mk.inj heq
    exact ⟨⟨header, views⟩, ⟨header, s₁, hheader, txCount, s₂, hcount, views, s₃, hviews, rfl⟩,
      rfl, rfl, hall⟩
  · intro hex
    obtain ⟨_, ⟨header, s₁, hheader, txCount, s₂, hcount, views, s₃, hviews, heq⟩, hhdr, hhash,
      hall⟩ := hex
    obtain ⟨rfl, rfl⟩ := Prod.mk.inj heq
    refine ⟨header, s₁, hheader, txCount, s₂, hcount, blk.transactions, s₃,
      ⟨views, hviews, hall⟩, ?_⟩
    have hhdr' : blk.header = header := hhdr
    have hhash' : blk.hash = header.hash S := hhash
    rw [← hhash', ← hhdr']

/-- The loader takes the stored value `raw`, and reads the block `blk` from it. -/
def Loads (S : Sodium) (raw : Bytes) (blk : Block) : Prop :=
  ∃ r, (Block.deserialize S).run ⟨raw, 0⟩ = .ok (blk, r) ∧ r.offset = raw.length

theorem loads_of_run {raw : Bytes} {blk : Block}
    (h : Transition.Ok (fun p : Block × Reader => p.1 = blk ∧ p.2.offset = raw.length)
      ((Block.deserialize S).run ⟨raw, 0⟩)) : Loads S raw blk := by
  obtain ⟨⟨blk', r⟩, hrun, rfl, hend⟩ := Transition.ok_iff.mp h
  exact ⟨r, hrun, hend⟩

/-- One round of `load_blocks` succeeds on the values the loader takes. -/
theorem loadBlock_eq_ok {c c' : Chain} {entry : Bytes × Bytes} :
    Chain.loadBlock S c entry = .ok c' ↔ ∃ blk, Loads S entry.2 blk ∧ c' = c.loaded [blk] := by
  have hloaded : ∀ blk : Block, c.loaded [blk] =
      { c with
        toUtxoSet := blk.transactions.foldl UtxoSet.applyTx c.toUtxoSet
        blocks := c.blocks ++ [blk] } := by
    intro blk
    rw [Chain.loaded, List.flatMap_singleton]
  unfold Chain.loadBlock Loads
  cases hrun : (Block.deserialize S).run ⟨entry.2, 0⟩ with
  | error what => simp
  | ok p =>
    obtain ⟨blk, r⟩ := p
    by_cases htrail : r.offset ≠ entry.2.length
    · simp only [if_pos htrail, reduceCtorEq, false_iff, not_exists, not_and]
      intro blk' hex
      obtain ⟨r', heq, hend⟩ := hex
      cases heq
      exact absurd hend htrail
    · simp only [if_neg htrail]
      constructor
      · intro h
        cases h
        exact ⟨blk, ⟨r, rfl, not_not.mp htrail⟩, (hloaded blk).symm⟩
      · intro hex
        obtain ⟨blk', ⟨r', heq, -⟩, rfl⟩ := hex
        cases heq
        rw [hloaded]

/-- The framing of a value the loader takes. -/
theorem Loads.exists_framing {raw : Bytes} {blk : Block} (h : Loads S raw blk) :
    ∃ f : Framing, f.Fits ∧ f.bytes = raw ∧ blk.header = f.header ∧
      List.Forall₂ (fun view tx => Transaction.ofBytes view = .ok tx) f.views
        blk.transactions := by
  obtain ⟨r, hrun, hend⟩ := h
  obtain ⟨f, htake, hheader, -, hall⟩ := run_deserialize_eq_ok.mp hrun
  obtain ⟨hfits, hpre, rfl⟩ := Framing.code.sound htake
  refine ⟨f, hfits, ?_, hheader, hall⟩
  -- the framing ends where the value ends
  have hlen : 0 + f.bytes.length = raw.length := hend
  rw [Nat.zero_add] at hlen
  exact hpre.eq_of_length hlen

/-- Views are as long as what is read from them. -/
theorem eq_map_serialize_iff {views : List Bytes} {txs : List Transaction}
    (h : List.Forall₂ (fun view tx => Transaction.ofBytes view = .ok tx) views txs)
    (hsize : ∀ view ∈ views, view.length < 2 ^ 32) :
    txs.map Transaction.serialize = views ↔
      ∀ view ∈ views, ∃ tx : Transaction, tx.serialize = view := by
  induction h with
  | nil => simp
  | @cons view tx views txs hview hrest ih =>
    rw [List.forall_mem_cons] at hsize
    rw [List.map_cons, List.forall_mem_cons, ← ih hsize.2, List.cons.injEq]
    refine and_congr_left fun _ => ⟨fun heq => ⟨tx, heq⟩, ?_⟩
    intro hread
    obtain ⟨tx', rfl⟩ := hread
    -- the transaction the view serializes is the one that was read
    rw [Transaction.ofBytes_serialize (Block.sized_of_length_serialize hsize.1)] at hview
    rw [Except.ok.inj hview]

/-- A block read from a value serializes into a framing that fits. -/
theorem fits_framing {f : Framing} {blk : Block} (hfits : f.Fits)
    (hall : List.Forall₂ (fun view tx => Transaction.ofBytes view = .ok tx) f.views
      blk.transactions) : blk.framing.Fits := by
  constructor
  · show (blk.transactions.map Transaction.serialize).length < 2 ^ 32
    rw [List.length_map, ← hall.length_eq]
    exact hfits.1
  · intro view hview
    obtain ⟨tx, htx, rfl⟩ := List.mem_map.mp hview
    obtain ⟨i, hi, rfl⟩ := List.getElem_of_mem htx
    have hi' : i < f.views.length := hall.length_eq ▸ hi
    obtain ⟨-, hpre⟩ := Transaction.ofBytes_eq_ok.mp (hall.get hi' hi)
    exact lt_of_le_of_lt hpre.length_le (hfits.2 _ (List.getElem_mem hi'))

/-- **A stored block is the serialization of what is read from it exactly when every
view ends with its transaction.** -/
theorem serialize_eq_iff_of_loads {raw : Bytes} {blk : Block} (h : Loads S raw blk) :
    blk.serialize = raw ↔ ∀ f : Framing, f.Fits → f.bytes = raw →
      ∀ view ∈ f.views, ∃ tx : Transaction, tx.serialize = view := by
  obtain ⟨f, hfits, rfl, hheader, hall⟩ := h.exists_framing
  have hviews := eq_map_serialize_iff hall hfits.2
  rw [Block.serialize_eq_bytes]
  constructor
  · intro heq g hg hbytes
    -- all three framings are the same
    have hgf := Framing.bytes_injOn hg hfits hbytes
    have hbf := Framing.bytes_injOn (fits_framing hfits hall) hfits heq
    rw [hgf]
    exact hviews.mp (congrArg Framing.views hbf)
  · intro hwhole
    have hmap := hviews.mpr (hwhole f hfits rfl)
    unfold Block.framing
    rw [hheader, hmap]

namespace Sample

/-- The stored genesis block, with one more byte in the view of its coinbase. -/
def padded : Bytes :=
  (⟨(genesisBlock sodium).header, [(genesisCoinbase sodium).serialize ++ [0]]⟩ : Framing).bytes

/-- The loader takes the genesis block from the padded bytes. -/
theorem loads_padded : Loads sodium padded (genesisBlock sodium) :=
  loads_of_run (by decide +kernel)

end Sample

/-- The padded bytes are taken, and have a view that goes on after its transaction. -/
theorem serialize_eq_padded_iff :
    (genesisBlock Sample.sodium).serialize = Sample.padded ↔ ∀ f : Framing, f.Fits →
      f.bytes = Sample.padded → ∀ view ∈ f.views, ∃ tx : Transaction, tx.serialize = view :=
  serialize_eq_iff_of_loads Sample.loads_padded

/-- **A byte of a stored block is ignored**: it comes after a transaction, in the view the
transaction is read from. -/
theorem serialize_ne_padded : ∃ blk, Loads Sample.sodium Sample.padded blk ∧
    blk.serialize ≠ Sample.padded :=
  ⟨genesisBlock Sample.sodium, Sample.loads_padded, by decide +kernel⟩

end Axis
