import Axis.Explorer
import Axis.Index
import Axis.Wire

/-!
# Submissions and balances over HTTP

`POST /api/transaction` and `/api/utxos` of `src/web.cpp`, from the text of the client to the
response.  A submission goes through two encodings, hexadecimal digits around the bytes of the
wire; a balance is a sum of 64 bits.

The parser of the JSON body is not part of the repository: a handler starts from the string it
takes out of the body, if there is one.

## Main definitions

* `apiTransaction`, `apiUtxos` — the two handlers.
* `Chain.owned` — the amounts of an address that the pool does not spend.

## Main results

* `apiTransaction_exact` — **which texts are submitted transactions**, and what they change.
* `apiUtxos_exact` — **what is answered about an address**, after any run whose blocks overwrite
  nothing.
-/

namespace Axis

open Digits

variable {S : Sodium} {H : HexReader}

/-! ### Submitting a transaction -/

def kMaxRawTxHexChars : ℕ := 128 * 1024

def hexToBytes (H : HexReader) (hex : Bytes) : Except String Bytes :=
  if hex.length % 2 ≠ 0 then .error "hex input must contain an even number of characters"
  else if hex.length / 2 = 0 then .ok []
  else
    match H.hex2bin (hex.length / 2) hex with
    | none => .error "invalid hex data"
    | some bytes =>
      if bytes.length ≠ hex.length / 2 then .error "invalid hex data" else .ok bytes

structure SubmittedJson where
  txid : String
  status : String
  deriving DecidableEq

/-- `POST /api/transaction`, for the string `rawTx` of the body. -/
def apiTransaction (S : Sodium) (H : HexReader) (rawTx : Option Bytes) (status : WriteStatus)
    (c : Chain) : Chain × Response SubmittedJson :=
  match rawTx with
  | none => (c, .error 400 "request body must include string field rawTx")
  | some rawTx =>
    if rawTx.length > kMaxRawTxHexChars then (c, .error 413 "rawTx payload is too large")
    else
      match hexToBytes H rawTx with
      | .error what => (c, .error 400 what)
      | .ok bytes =>
        match parseSignedTransactionPayload S bytes with
        | .error what => (c, .error 400 what)
        | .ok signedTx =>
          match c.addTx S signedTx status with
          | (c, .error what) => (c, .error 400 what)
          | (c, .ok err) =>
            if err ≠ .none then (c, .error 400 (txErrorStr err))
            else (c, .json 200 ⟨toHex signedTx.tx.txid, "submitted"⟩)

/-- **What is read as bytes is their text**, up to the case of letters. -/
theorem hexToBytes_eq_ok_iff {hex bytes : Bytes} :
    hexToBytes H hex = .ok bytes ↔ hex.map lower = encodeHex bytes := by
  have hlength : hex.map lower = encodeHex bytes → hex.length = 2 * bytes.length := by
    intro h
    have hlen := congrArg List.length h
    rwa [List.length_map, length_encodeHex] at hlen
  unfold hexToBytes
  constructor
  · intro h
    split at h
    · cases h
    next heven =>
    split at h
    · next hzero =>
      cases h
      have hnil : hex = [] := List.length_eq_zero_iff.mp (by omega)
      rw [hnil]
      rfl
    split at h
    · cases h
    next bytes' hread =>
    split at h
    · cases h
    · cases h
      exact decodeHex_eq_some_iff.mp ((H.reads _ _ _).mp hread).1
  · intro h
    have hlen := hlength h
    have heven : ¬ hex.length % 2 ≠ 0 := by omega
    have hhalf : hex.length / 2 = bytes.length := by omega
    rw [if_neg heven, hhalf]
    by_cases hzero : bytes.length = 0
    · rw [if_pos hzero, List.length_eq_zero_iff.mp hzero]
    · have hread : H.hex2bin bytes.length hex = some bytes :=
        (H.reads _ _ _).mpr ⟨decodeHex_eq_some_iff.mpr h, le_rfl⟩
      rw [if_neg hzero, hread]
      exact if_neg (not_not.mpr rfl)

/-- The text is that of a signed transaction, and not too long. -/
def Submits (text : Bytes) (p : ParsedCreateTx) : Prop :=
  text.length ≤ kMaxRawTxHexChars ∧ text.map lower = encodeHex p.bytes

instance (text : Bytes) (p : ParsedCreateTx) : Decidable (Submits text p) :=
  inferInstanceAs (Decidable (_ ∧ _))

/-- A text that is a transaction is parsed as such, and no other. -/
theorem submits_iff {text : Bytes} {st : SignedTransaction} :
    (∃ p, Submits text p ∧ st = p.signed S) ↔ text.length ≤ kMaxRawTxHexChars ∧
      ∃ bytes, hexToBytes H text = .ok bytes ∧
        parseSignedTransactionPayload S bytes = .ok st := by
  constructor
  · rintro ⟨p, ⟨hshort, htext⟩, rfl⟩
    have hlen := congrArg List.length htext
    rw [List.length_map, length_encodeHex, p.length_bytes] at hlen
    have hmax : text.length ≤ 131072 := hshort
    refine ⟨hshort, p.bytes, hexToBytes_eq_ok_iff.mpr htext,
      parseSignedTransactionPayload_eq_ok.mpr ⟨p, ⟨by omega, by omega⟩, rfl, rfl⟩⟩
  · rintro ⟨hshort, bytes, hread, hparse⟩
    obtain ⟨p, -, rfl, rfl⟩ := parseSignedTransactionPayload_eq_ok.mp hparse
    exact ⟨p, ⟨hshort, hexToBytes_eq_ok_iff.mp hread⟩, rfl⟩

/-- A request without a transaction is refused. -/
theorem apiTransaction_refused {rawTx : Option Bytes}
    (h : ∀ text p, rawTx = some text → ¬ Submits text p) (status : WriteStatus) (c : Chain) :
    ∃ code message, apiTransaction S H rawTx status c = (c, .error code message) := by
  unfold apiTransaction
  cases rawTx with
  | none => exact ⟨_, _, rfl⟩
  | some text =>
    dsimp only
    split
    · exact ⟨_, _, rfl⟩
    next hshort =>
    cases hread : hexToBytes H text with
    | error what => exact ⟨_, _, rfl⟩
    | ok bytes =>
      dsimp only
      cases hparse : parseSignedTransactionPayload S bytes with
      | error what => exact ⟨_, _, rfl⟩
      | ok st =>
        obtain ⟨p, hp, -⟩ := (submits_iff (H := H)).mpr ⟨by omega, bytes, hread, hparse⟩
        exact absurd hp (h text p rfl)

/-- A request with a transaction calls `add_tx`. -/
theorem apiTransaction_submits {text : Bytes} {p : ParsedCreateTx} (h : Submits text p)
    (status : WriteStatus) (c : Chain) :
    apiTransaction S H (some text) status c =
      match c.addTx S (p.signed S) status with
      | (c, .error what) => (c, .error 400 what)
      | (c, .ok err) =>
        if err ≠ .none then (c, .error 400 (txErrorStr err))
        else (c, .json 200 ⟨toHex (p.signed S).tx.txid, "submitted"⟩) := by
  obtain ⟨hshort, bytes, hread, hparse⟩ := (submits_iff (S := S) (H := H)).mp ⟨p, h, rfl⟩
  unfold apiTransaction
  dsimp only
  rw [if_neg (by omega), hread]
  dsimp only
  rw [hparse]

/-- A text is one signed transaction. -/
theorem Submits.signed_eq {text : Bytes} {p p' : ParsedCreateTx} (h : Submits text p)
    (h' : Submits text p') : p.signed S = p'.signed S := by
  obtain ⟨-, bytes, hread, hparse⟩ := (submits_iff (S := S) (H := .standard)).mp ⟨p, h, rfl⟩
  obtain ⟨-, bytes', hread', hparse'⟩ := (submits_iff (S := S) (H := .standard)).mp ⟨p', h', rfl⟩
  rw [hread] at hread'
  rw [Except.ok.inj hread', hparse'] at hparse
  exact (Except.ok.inj hparse).symm

/-- A request is refused and changes nothing, or its transaction is valid and is admitted. -/
theorem apiTransaction_cases (S : Sodium) (H : HexReader) (rawTx : Option Bytes)
    (status : WriteStatus) (c : Chain) :
    ((∀ text p, rawTx = some text → Submits text p → ¬ Chain.Valid S (p.signed S) c) ∧
      ∃ code message, apiTransaction S H rawTx status c = (c, .error code message)) ∨
    ∃ text p, rawTx = some text ∧ Submits text p ∧ Chain.Valid S (p.signed S) c ∧
      (apiTransaction S H rawTx status c).1 = (c.admitTx (p.signed S).tx status).1 ∧
      ((status = .ok ∧ (apiTransaction S H rawTx status c).2 =
          .json 200 ⟨toHex (p.signed S).tx.txid, "submitted"⟩) ∨
        (status ≠ .ok ∧ ∃ what, (apiTransaction S H rawTx status c).2 = .error 400 what)) := by
  by_cases hsubmits : ∃ text p, rawTx = some text ∧ Submits text p
  · obtain ⟨text, p, rfl, hp⟩ := hsubmits
    rw [apiTransaction_submits hp, Chain.addTx]
    cases hcheck : c.checkTx S (p.signed S) with
    | error err =>
      refine Or.inl ⟨fun text' p' htext hp' hv => ?_, 400, txErrorStr err, ?_⟩
      · obtain rfl := Option.some.inj htext
        rw [← hp.signed_eq hp', ← Chain.checkTx_eq_ok_iff, hcheck] at hv
        cases hv
      · have herr : err ≠ .none := fun hnone => checkTx_ne_none _ c (by rw [hcheck, hnone])
        exact if_pos herr
    | ok u =>
      refine Or.inr ⟨text, p, rfl, hp, Chain.checkTx_eq_ok_iff.mp hcheck, ?_⟩
      cases status with
      | ok => exact ⟨rfl, Or.inl ⟨rfl, rfl⟩⟩
      | error what written => exact ⟨rfl, Or.inr ⟨by simp, _, rfl⟩⟩
  · have hnot : ∀ text p, rawTx = some text → ¬ Submits text p :=
      fun text p htext hp => hsubmits ⟨text, p, htext, hp⟩
    exact Or.inl ⟨fun text p htext hp => absurd hp (hnot text p htext),
      apiTransaction_refused hnot status c⟩

/-- **Which texts are submitted transactions.**  The answer is 200 exactly when the string is
the hexadecimal text, in any case and of at most 131072 digits, of a valid signed transaction,
and its write succeeds; then its txid is the answer.  A valid one is admitted also when its
write fails, and anything else changes nothing. -/
theorem apiTransaction_exact (S : Sodium) (H : HexReader) (rawTx : Option Bytes)
    (status : WriteStatus) (c : Chain) :
    (∀ code body, (apiTransaction S H rawTx status c).2 = .json code body ↔
      code = 200 ∧ status = .ok ∧ ∃ text p, rawTx = some text ∧ Submits text p ∧
        Chain.Valid S (p.signed S) c ∧ body = ⟨toHex (p.signed S).tx.txid, "submitted"⟩) ∧
    ∀ c', (apiTransaction S H rawTx status c).1 = c' ↔
      ((∀ text p, rawTx = some text → Submits text p → ¬ Chain.Valid S (p.signed S) c) ∧ c' = c) ∨
      ∃ text p, rawTx = some text ∧ Submits text p ∧ Chain.Valid S (p.signed S) c ∧
        c' = (c.admitTx (p.signed S).tx status).1 := by
  rcases apiTransaction_cases S H rawTx status c with ⟨hnot, code', message, heq⟩ |
    ⟨text, p, rfl, hp, hv, hfst, hanswer⟩
  · rw [heq]
    constructor
    · intro code body
      refine iff_of_false (by simp) ?_
      rintro ⟨-, -, text, p, htext, hp, hv, -⟩
      exact hnot text p htext hp hv
    · intro c'
      constructor
      · rintro rfl
        exact Or.inl ⟨hnot, rfl⟩
      · rintro (⟨-, rfl⟩ | ⟨text, p, htext, hp, hv, -⟩)
        · rfl
        · exact absurd hv (hnot text p htext hp)
  · constructor
    · intro code body
      rcases hanswer with ⟨rfl, hjson⟩ | ⟨hfailed, what, herror⟩
      · rw [hjson]
        constructor
        · intro h
          cases h
          exact ⟨rfl, rfl, text, p, rfl, hp, hv, rfl⟩
        · rintro ⟨rfl, -, text', p', htext, hp', -, rfl⟩
          obtain rfl := Option.some.inj htext
          rw [hp.signed_eq hp']
      · rw [herror]
        refine iff_of_false (by simp) fun h => hfailed h.2.1
    · intro c'
      rw [hfst]
      constructor
      · rintro rfl
        exact Or.inr ⟨text, p, rfl, hp, hv, rfl⟩
      · rintro (⟨hnot, -⟩ | ⟨text', p', htext, hp', -, rfl⟩)
        · exact absurd hv (hnot text p rfl hp)
        · obtain rfl := Option.some.inj htext
          rw [hp.signed_eq hp']

namespace Sample

/-- The hexadecimal text of the second payment, in upper case. -/
def upperCase : Bytes :=
  (encodeHex pay₂.bytes).map fun b => if 97 ≤ b.toNat then UInt8.ofNat (b.toNat - 32) else b

example : Submits upperCase pay₂ := by decide +kernel

end Sample

/-! ### Balances -/

structure UtxoJson where
  txid : String
  index : UInt32
  amount : UInt64
  size : UInt64
  deriving DecidableEq

structure UtxosJson where
  address : String
  utxos : List UtxoJson
  balance : UInt64
  deriving DecidableEq

def utxoJson (e : OutPoint × UInt64) : UtxoJson := ⟨toHex e.1.txid, e.1.index, e.2, kOutPointSize⟩

/-- `/api/utxos/<address>` and `/api/address/<address>`, or `none` when the lookup throws. -/
def apiUtxos (H : HexReader) (addressHex : Bytes) (c : Chain) : Option (Response UtxosJson) :=
  match fromHex H 20 addressHex with
  | .error _ => some (.error 400 "address must be a 20-byte hex value")
  | .ok address =>
    (c.getUtxos address).map fun utxos => .json 200 {
      address := toHex address
      utxos := utxos.map utxoJson
      balance := utxos.foldl (fun balance e => balance + e.2) 0 }

/-- The sum of 64 bits is the sum of the amounts, as far as it fits. -/
theorem foldl_amount_eq (utxos : List (OutPoint × UInt64)) (balance : UInt64) :
    utxos.foldl (fun balance e => balance + e.2) balance =
      balance + UInt64.ofNat (utxos.map fun e => e.2.toNat).sum := by
  induction utxos generalizing balance with
  | nil => exact (UInt64.add_zero balance).symm
  | cons e utxos ih =>
    rw [List.foldl_cons, ih, List.map_cons, List.sum_cons, UInt64.ofNat_add, UInt64.ofNat_toNat,
      UInt64.add_assoc]

/-- What an address owns and the pool does not spend. -/
def Chain.owned (addr : Address) (c : Chain) : ℕ :=
  ((c.scanUtxos addr).map fun e => e.2.toNat).sum

/-- **What is answered about an address**, in every run whose blocks overwrite no entry of the
UTXO set: for the text of an address, in any case, the outputs that a scan of the whole set
finds and the pool does not spend, each once, and the sum of their amounts modulo `2 ^ 64`; for
any other text an error.  The lookup does not throw. -/
theorem apiUtxos_exact {c : Chain} (h : Reachable S (guarded (keepsOutputs S)) c) (H : HexReader)
    (text : Bytes) :
    ((∀ addr : Address, text.map lower ≠ encodeHex addr.data) ∧
      apiUtxos H text c = some (.error 400 "address must be a 20-byte hex value")) ∨
    ∃ (addr : Address) (l : List (OutPoint × UInt64)), text.map lower = encodeHex addr.data ∧
      l.Nodup ∧ l.Perm (c.scanUtxos addr) ∧
      apiUtxos H text c = some (.json 200 {
        address := toHex addr
        utxos := l.map utxoJson
        balance := UInt64.ofNat (c.owned addr) }) := by
  cases hread : fromHex H 20 text with
  | error what =>
    refine Or.inl ⟨fun addr htext => ?_, ?_⟩
    · rw [fromHex_eq_ok_iff.mpr htext] at hread
      cases hread
    · rw [apiUtxos, hread]
  | ok addr =>
    obtain ⟨l, hl, hnodup, hperm⟩ := getUtxos_perm_of_reachable h addr
    refine Or.inr ⟨addr, l, fromHex_eq_ok_iff.mp hread, hnodup, hperm, ?_⟩
    have hsum : (l.map fun e => e.2.toNat).sum = c.owned addr := (hperm.map _).sum_eq
    rw [apiUtxos, hread]
    dsimp only
    rw [hl, Option.map_some, foldl_amount_eq, UInt64.zero_add, hsum]

/-- The recipient of both payments of the sample run. -/
theorem apiUtxos_exact_confirmed : ∃ c, run Sample.sodium Sample.confirmed = .ok c ∧
    c.owned Sample.recipient ≠ 0 ∧
    (((∀ addr : Address, (textBytes (toHex Sample.recipient)).map lower ≠ encodeHex addr.data) ∧
      apiUtxos .standard (textBytes (toHex Sample.recipient)) c =
        some (.error 400 "address must be a 20-byte hex value")) ∨
    ∃ (addr : Address) (l : List (OutPoint × UInt64)),
      (textBytes (toHex Sample.recipient)).map lower = encodeHex addr.data ∧
      l.Nodup ∧ l.Perm (c.scanUtxos addr) ∧
      apiUtxos .standard (textBytes (toHex Sample.recipient)) c = some (.json 200 {
        address := toHex addr
        utxos := l.map utxoJson
        balance := UInt64.ofNat (c.owned addr) })) := by
  obtain ⟨c, hrun, hreach, howned⟩ := exists_reachable (S := Sample.sodium)
    (guarded (keepsOutputs Sample.sodium)) Sample.confirmed
    (fun c => c.owned Sample.recipient ≠ 0) (by decide +kernel)
  exact ⟨c, hrun, howned, apiUtxos_exact hreach .standard _⟩

end Axis
