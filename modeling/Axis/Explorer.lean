import Axis.Lib.Digits
import Axis.Charts
import Axis.Faults
import Axis.Frames
import Axis.Headers

/-!
# Blocks in the explorer

`/api/block` of `src/web.cpp`.  A block is named by its height or by its hash, both as text of
the client: the height in decimal digits, with any number of leading zeros, and the hash in
hexadecimal digits of any case.  A text of decimal digits alone is a height when it fits 32 bits,
also when it would be a hash.

What reads hexadecimal text is libsodium, and is a parameter `H : HexReader`.

## Main definitions

* `parseU32`, `fromHex` — the texts of a client.
* `blockJson`, `blockSummaryJson` — what is shown of a block.
* `apiBlock` — the handler.
* `walkBack` — a client that follows the links to the predecessors.

## Main results

* `blockJson_injective` — **what is shown of a block determines it.**
* `apiBlock_exact` — **what `/api/block` answers**, to any text, after any run.
* `walkBack_exact` — **following the links shows the whole chain.**
-/

namespace Axis

open Digits

variable {S : Sodium}

/-! ### Texts of a client -/

/-- The reader of hexadecimal text of libsodium. -/
structure HexReader where
  /-- `sodium_hex2bin` with no characters to ignore and no place to report the end: the bytes
  it has written when it returned zero. -/
  hex2bin : (maxlen : ℕ) → Bytes → Option Bytes
  /-- It reads what consists of pairs of digits and has room. -/
  reads : ∀ (maxlen : ℕ) (hex bytes : Bytes),
    hex2bin maxlen hex = some bytes ↔ decodeHex hex = some bytes ∧ bytes.length ≤ maxlen

/-- A reader. -/
def HexReader.standard : HexReader where
  hex2bin maxlen hex := (decodeHex hex).filter fun bytes => bytes.length ≤ maxlen
  reads maxlen hex bytes := by simp [Option.filter_eq_some_iff]

variable {H : HexReader}

def fromHex (H : HexReader) (n : ℕ) (hex : Bytes) : Except String (U8Array n) :=
  if hex.length ≠ n * 2 then .error "invalid hex length"
  else
    match H.hex2bin n hex with
    | none => .error "invalid hex data"
    | some bytes => .ok (U8Array.ofBytes n bytes)

/-- `std::from_chars` for 64 bits and base ten: the value of the digits at the start, and what
is behind them. -/
def fromChars (text : Bytes) : Option (ℕ × Bytes) :=
  let digits := text.takeWhile isDigit
  if digits = [] then none
  else if 2 ^ 64 ≤ ofDec digits then none
  else some (ofDec digits, text.dropWhile isDigit)

def parseU32 (text : Bytes) : Option UInt32 :=
  if text = [] then none
  else
    match fromChars text with
    | none => none
    | some (value, rest) =>
      if rest ≠ [] ∨ value > 0xffffffff then none else some (UInt32.ofNat value)

theorem takeWhile_eq_self {p : UInt8 → Bool} {text : Bytes} (h : ∀ b ∈ text, p b = true) :
    text.takeWhile p = text ∧ text.dropWhile p = [] := by
  induction text with
  | nil => exact ⟨rfl, rfl⟩
  | cons b text ih =>
    rw [List.forall_mem_cons] at h
    rw [List.takeWhile_cons_of_pos h.1, List.dropWhile_cons_of_pos h.1]
    exact ⟨by rw [(ih h.2).1], (ih h.2).2⟩

/-- **A text is a number of 32 bits when it spells one.** -/
theorem parseU32_eq_some_iff {text : Bytes} {n : UInt32} :
    parseU32 text = some n ↔ Spells text n.toNat := by
  unfold parseU32 fromChars Spells
  constructor
  · intro h
    split at h
    · cases h
    next hne =>
    split at h
    · cases h
    next value rest hchars =>
    dsimp only at hchars
    split at hchars
    · cases hchars
    next hdigits =>
    split at hchars
    · cases hchars
    next hbound =>
    obtain ⟨rfl, rfl⟩ := Prod.mk.inj (Option.some.inj hchars)
    split at h
    · cases h
    next hrest =>
    rw [not_or, not_not, gt_iff_lt, Nat.not_lt] at hrest
    obtain ⟨hdrop, hvalue⟩ := hrest
    -- nothing is behind the digits
    have hall : text.takeWhile isDigit = text := by
      have happ := List.takeWhile_append_dropWhile (p := isDigit) (l := text)
      rwa [hdrop, List.append_nil] at happ
    rw [hall] at h hvalue
    refine ⟨hne, fun b hb => ?_, ?_⟩
    · rw [← hall] at hb
      exact List.mem_takeWhile_imp hb
    · have hlt : ofDec text < 2 ^ 32 := by omega
      rw [← Option.some.inj h, UInt32.toNat_ofNat', Nat.mod_eq_of_lt hlt]
  · intro h
    obtain ⟨hne, hall, hvalue⟩ := h
    obtain ⟨htake, hdrop⟩ := takeWhile_eq_self hall
    have hlt := n.toNat_lt
    have hfits : ¬ 2 ^ 64 ≤ ofDec text := by omega
    have hrest : ¬ (([] : Bytes) ≠ [] ∨ ofDec text > 0xffffffff) := by
      rw [hvalue]
      simp only [ne_eq, not_true_eq_false, false_or]
      omega
    rw [if_neg hne, htake, hdrop, if_neg hne, if_neg hfits]
    dsimp only
    rw [if_neg hrest, hvalue]
    exact congrArg some (UInt32.ofNat_toNat)

/-- **What is read as an array is its text**, up to the case of letters. -/
theorem fromHex_eq_ok_iff {n : ℕ} {hex : Bytes} {a : U8Array n} :
    fromHex H n hex = .ok a ↔ hex.map lower = encodeHex a.data := by
  unfold fromHex
  constructor
  · intro h
    split at h
    · cases h
    next hlen =>
    split at h
    · cases h
    next bytes hread =>
    have hdec := decodeHex_eq_some_iff.mp ((H.reads _ _ _).mp hread).1
    have hbytes : bytes.length = n := by
      have hmap := congrArg List.length hdec
      rw [List.length_map, length_encodeHex] at hmap
      omega
    rw [hdec, ← Except.ok.inj h, U8Array.data_ofBytes hbytes]
  · intro h
    have hlen : hex.length = n * 2 := by
      have hmap := congrArg List.length h
      rw [List.length_map, length_encodeHex, a.size_data] at hmap
      omega
    have hread : H.hex2bin n hex = some a.data :=
      (H.reads _ _ _).mpr ⟨decodeHex_eq_some_iff.mpr h, a.size_data.le⟩
    rw [if_neg (not_not.mpr hlen), hread]
    exact congrArg Except.ok (U8Array.ofBytes_data a)

/-! ### Texts of the explorer -/

theorem hexDigit_eq (d : ℕ) : hexDigit d = hexChar d := rfl

/-- The characters of a text of bytes are its bytes. -/
theorem textBytes_keyText (text : Bytes) : textBytes (keyText text) = text := by
  rw [textBytes, keyText, String.toList_ofList, List.map_map]
  refine (List.map_congr_left fun b _ => ?_).trans (List.map_id text)
  have hb := b.toNat_lt
  have hvalid : b.toNat.isValidChar := Or.inl (by omega)
  have hnat : (Char.ofNat b.toNat).toNat = b.toNat := by
    rw [Char.toNat_ofNat, if_pos hvalid]
  show UInt8.ofNat (Char.ofNat b.toNat).toNat = b
  rw [hnat, UInt8.ofNat_toNat]

theorem textBytes_toHex {n : ℕ} (a : U8Array n) : textBytes (toHex a) = encodeHex a.data :=
  textBytes_keyText _

theorem toHex_inj {n : ℕ} {a b : U8Array n} (h : toHex a = toHex b) : a = b := by
  have htext := congrArg textBytes h
  rw [textBytes_toHex, textBytes_toHex] at htext
  exact U8Array.ext (encodeHex_injective htext)

/-! ### What is shown of a block -/

structure BlockJson where
  height : UInt32
  hash : String
  previousHash : String
  merkleRoot : String
  timestamp : UInt64
  nonce : UInt64
  size : UInt64
  txids : List String
  transactions : List TransactionJson
  deriving DecidableEq

def blockJson (block : Block) (height : UInt32) : BlockJson where
  height := height
  hash := toHex block.hash
  previousHash := toHex block.header.prevHash
  merkleRoot := toHex block.header.merkleRoot
  timestamp := block.header.timestamp.value
  nonce := block.header.nonce
  size := blockSerializedSize block
  txids := block.transactions.map fun tx => toHex tx.txid
  transactions := block.transactions.map transactionJson

structure BlockSummaryJson where
  height : UInt32
  hash : String
  previousHash : String
  merkleRoot : String
  timestamp : UInt64
  nonce : UInt64
  transactionCount : UInt64
  /-- `null` and no empty array where there is no transaction. -/
  transactions : Option (List TransactionJson)
  size : UInt64
  deriving DecidableEq

def blockSummaryJson (block : Block) (height : UInt32) : BlockSummaryJson where
  height := height
  hash := toHex block.hash
  previousHash := toHex block.header.prevHash
  merkleRoot := toHex block.header.merkleRoot
  timestamp := block.header.timestamp.value
  nonce := block.header.nonce
  transactionCount := sizeOfList block.transactions
  transactions :=
    if block.transactions = [] then none else some (block.transactions.map transactionJson)
  size := blockSerializedSize block

theorem outpointJson_injective : Function.Injective outpointJson := by
  intro op op' h
  obtain ⟨htxid, hindex, -⟩ := OutPointJson.mk.inj h
  exact OutPoint.ext (toHex_inj htxid) hindex

theorem outputJson_injective : Function.Injective outputJson := by
  intro out out' h
  obtain ⟨recipient, amount⟩ := out
  obtain ⟨recipient', amount'⟩ := out'
  obtain ⟨hrecipient, hamount, -⟩ := OutputJson.mk.inj h
  cases toHex_inj hrecipient
  cases hamount
  rfl

/-- What is shown of a transaction determines it. -/
theorem transactionJson_injective : Function.Injective transactionJson := by
  intro tx tx' h
  obtain ⟨txid, inputs, outputs, timestamp⟩ := tx
  obtain ⟨txid', inputs', outputs', timestamp'⟩ := tx'
  obtain ⟨htxid, htime, -, -, hinputs, houtputs⟩ := TransactionJson.mk.inj h
  cases toHex_inj htxid
  cases Timestamp.ext htime
  cases List.map_injective_iff.mpr outpointJson_injective hinputs
  cases List.map_injective_iff.mpr outputJson_injective houtputs
  rfl

/-- The fields that both pages show determine the block. -/
theorem eq_of_shown {blk blk' : Block} (hhash : toHex blk.hash = toHex blk'.hash)
    (hprev : toHex blk.header.prevHash = toHex blk'.header.prevHash)
    (hmerkle : toHex blk.header.merkleRoot = toHex blk'.header.merkleRoot)
    (htime : blk.header.timestamp.value = blk'.header.timestamp.value)
    (hnonce : blk.header.nonce = blk'.header.nonce)
    (htxs : blk.transactions.map transactionJson = blk'.transactions.map transactionJson) :
    blk = blk' := by
  obtain ⟨header, hash, transactions⟩ := blk
  obtain ⟨header', hash', transactions'⟩ := blk'
  cases BlockHeader.ext (toHex_inj hprev) (toHex_inj hmerkle) (Timestamp.ext htime) hnonce
  cases toHex_inj hhash
  cases List.map_injective_iff.mpr transactionJson_injective htxs
  rfl

/-- **What is shown of a block determines it**, with its height: on the page of the block, and
in a list of blocks. -/
theorem blockJson_injective :
    Function.Injective (Function.uncurry blockJson) ∧
      Function.Injective (Function.uncurry blockSummaryJson) := by
  constructor
  · rintro ⟨blk, height⟩ ⟨blk', height'⟩ h
    obtain ⟨hheight, hhash, hprev, hmerkle, htime, hnonce, -, -, htxs⟩ := BlockJson.mk.inj h
    exact Prod.ext (eq_of_shown hhash hprev hmerkle htime hnonce htxs) hheight
  · rintro ⟨blk, height⟩ ⟨blk', height'⟩ h
    obtain ⟨hheight, hhash, hprev, hmerkle, htime, hnonce, -, hshown, -⟩ :=
      BlockSummaryJson.mk.inj h
    refine Prod.ext (eq_of_shown hhash hprev hmerkle htime hnonce ?_) hheight
    -- no transaction is shown as `null`
    by_cases hnil : blk.transactions = [] <;> by_cases hnil' : blk'.transactions = []
    · rw [hnil, hnil']
    · rw [if_pos hnil, if_neg hnil'] at hshown
      cases hshown
    · rw [if_neg hnil, if_pos hnil'] at hshown
      cases hshown
    · rw [if_neg hnil, if_neg hnil'] at hshown
      exact Option.some.inj hshown

/-! ### A block by its name -/

/-- An HTTP response: a code with a JSON body, or with the text of an error. -/
inductive Response (α : Type)
  | json (code : ℕ) (body : α)
  | error (code : ℕ) (message : String)
  deriving DecidableEq

/-- `/api/block/<id>`, or `none` when the search for a hash is not done after `fuel` rounds. -/
def apiBlock (H : HexReader) (fuel : ℕ) (id : Bytes) (c : Chain) : Option (Response BlockJson) :=
  match parseU32 id with
  | some height =>
    match c.getBlock height with
    | none => some (.error 404 "block not found")
    | some block => some (.json 200 (blockJson block height))
  | none =>
    match fromHex H 32 id with
    | .error _ => some (.error 400 "block id must be a height or 32-byte hex hash")
    | .ok hash =>
      match c.getBlockByHash hash fuel with
      | none => none
      | some none => some (.error 404 "block not found")
      | some (some (height, block)) => some (.json 200 (blockJson block height))

/-- The text is a number of 32 bits. -/
def IsHeight (id : Bytes) : Prop := ∃ n < 2 ^ 32, Spells id n

theorem isHeight_iff {id : Bytes} : IsHeight id ↔ parseU32 id ≠ none := by
  rw [ne_eq, ← Option.not_isSome_iff_eq_none, not_not, Option.isSome_iff_exists]
  constructor
  · intro h
    obtain ⟨n, hn, hspells⟩ := h
    refine ⟨UInt32.ofNat n, parseU32_eq_some_iff.mpr ?_⟩
    rwa [UInt32.toNat_ofNat', Nat.mod_eq_of_lt hn]
  · intro h
    obtain ⟨n, hn⟩ := h
    exact ⟨n.toNat, n.toNat_lt, parseU32_eq_some_iff.mp hn⟩

instance (id : Bytes) : Decidable (IsHeight id) := decidable_of_iff _ isHeight_iff.symm

/-- The text is the block's height, or else its hash. -/
def Names (id : Bytes) (i : ℕ) (blk : Block) : Prop :=
  Spells id i ∨ ¬ IsHeight id ∧ id.map lower = encodeHex blk.hash.data

/-- A search that finds nothing ends. -/
theorem findBlock_eq_none {hash : Hash} {blocks : List Block} (hlen : blocks.length < 2 ^ 32)
    (hnone : ∀ blk ∈ blocks, blk.hash ≠ hash) {k fuel : ℕ} (hk : k ≤ blocks.length)
    (hfuel : blocks.length < k + fuel) :
    Chain.findBlock hash blocks fuel (UInt32.ofNat k) = some none := by
  induction fuel generalizing k with
  | zero => omega
  | succ fuel ih =>
    have hpos : (UInt32.ofNat k).toNat = k := by
      rw [UInt32.toNat_ofNat', Nat.mod_eq_of_lt (by omega)]
    rw [Chain.findBlock, hpos]
    rcases Nat.lt_or_ge k blocks.length with hlt | hge
    · rw [List.getElem?_eq_getElem hlt]
      dsimp only
      rw [if_neg (hnone _ (List.getElem_mem hlt))]
      have hnext := ih (k := k + 1) (by omega) (by omega)
      rw [UInt32.ofNat_add] at hnext
      exact hnext
    · rw [List.getElem?_eq_none hge]

/-- The headers of a chain of good blocks on the genesis block are linked. -/
theorem Linked.headers {c : Chain} (h : Linked S c.blocks)
    (hfirst : [genesisBlock S] <+: c.blocks) : LinkedHeaders S c := by
  intro pre hdr post heq
  obtain ⟨bs, rest, hblocks, rfl, hrest⟩ := List.map_eq_append_iff.mp heq
  obtain ⟨blk, rest, rfl, rfl, rfl⟩ := List.map_eq_cons_iff.mp hrest
  rcases List.eq_nil_or_concat bs with rfl | ⟨bs, last, rfl⟩
  · rw [hblocks] at hfirst
    rw [← (List.cons_prefix_cons.mp hfirst).1]
    rfl
  · rw [List.concat_eq_append] at hblocks ⊢
    have hlast : c.blocks[bs.length]? = some last := by
      rw [hblocks, List.append_assoc, List.getElem?_append_right le_rfl, Nat.sub_self]
      rfl
    have hblk : c.blocks[bs.length + 1]? = some blk := by
      rw [hblocks, List.append_assoc, List.getElem?_append_right (Nat.le_add_right _ 1),
        Nat.add_sub_cancel_left]
      rfl
    have hgood := h.good last (List.mem_of_getElem? hlast)
    rw [List.map_append, List.map_singleton, HashChain.tip_concat, ← hgood.hash]
    exact h.linked _ _ _ hlast hblk

/-- A node after a run with failing writes, with no collision and no zero hash among its
headers. -/
structure Explored (S : Sodium) (c : Chain) : Prop where
  linked : Linked S c.blocks
  first : [genesisBlock S] <+: c.blocks
  short : c.blocks.length < 2 ^ 32
  collision : NoCollision S (headerStrings c)
  zero : NoZeroHash S (headerStrings c)

theorem explored_of_exec {attempts : List Attempt} (hlen : attempts.length + 1 < 2 ^ 32)
    {c : Chain} (hrun : Transition.exec (attempt S) attempts (genesisChain S) = .ok c)
    (hcol : NoCollision S (headerStrings c)) (hzero : NoZeroHash S (headerStrings c)) :
    Explored S c := by
  have hone : (genesisChain S).blocks.length = 1 := rfl
  obtain ⟨c', hrun', ⟨hlast, -⟩, hfront, hgrow⟩ :=
    lasting_genesisChain.exec (S := S) attempts (by omega)
  obtain rfl := Except.ok.inj (hrun'.symm.trans hrun)
  exact ⟨hlast.linked, hfront, by omega, hcol, hzero⟩

/-- A block is found by its hash. -/
theorem Explored.getBlockByHash {c : Chain} (h : Explored S c) {i : ℕ} {blk : Block}
    (hget : c.blocks[i]? = some blk) {fuel : ℕ} (hfuel : c.blocks.length < fuel) :
    c.getBlockByHash blk.hash fuel = some (some (UInt32.ofNat i, blk)) := by
  have hmem : ∀ hdr ∈ c.headers, hdr.bytes ∈ headerStrings c :=
    fun hdr hhdr => List.mem_map_of_mem hhdr
  have hlen := (List.getElem?_eq_some_iff.mp hget).1
  have hshort := h.short
  have hhashes : c.blocks.map Block.hash = c.headers.map (BlockHeader.hash S) := by
    rw [Chain.headers, List.map_map]
    exact List.map_congr_left fun blk hblk => (h.linked.good blk hblk).hash
  have hnodup : (c.blocks.map Block.hash).Nodup := by
    rw [hhashes]
    exact (h.linked.headers h.first).nodup_digests
      (fun x hx y hy => header_eq_of_hash_eq h.collision (hmem x hx) (hmem y hy))
      (fun x hx => h.zero _ (hmem x hx))
  refine Chain.findBlock_eq (k := 0) hget rfl (by omega) ?_ (Nat.zero_le _) (by omega)
  -- an earlier block with the hash would be the same position
  intro k b hk hb heq
  have hpos : (c.blocks.map Block.hash)[k]? = (c.blocks.map Block.hash)[i]? := by
    rw [List.getElem?_map, List.getElem?_map, hb, hget]
    exact congrArg some heq
  have hidx := (List.getElem?_inj (by
    rw [List.length_map]
    omega) hnodup).mp hpos
  omega

/-- A block is found by its height. -/
theorem apiBlock_of_spells {c : Chain} {i : ℕ} {blk : Block} (hget : c.blocks[i]? = some blk)
    (hi : i < 2 ^ 32) {id : Bytes} (hspells : Spells id i) (fuel : ℕ) :
    apiBlock H fuel id c = some (.json 200 (blockJson blk (UInt32.ofNat i))) := by
  have hpos : (UInt32.ofNat i).toNat = i := by
    rw [UInt32.toNat_ofNat', Nat.mod_eq_of_lt hi]
  have hparse : parseU32 id = some (UInt32.ofNat i) :=
    parseU32_eq_some_iff.mpr (by rwa [hpos])
  have hblock : c.getBlock (UInt32.ofNat i) = some blk := by rw [Chain.getBlock, hpos, hget]
  rw [apiBlock, hparse]
  dsimp only
  rw [hblock]

/-- **A block is found by what names it.** -/
theorem Explored.apiBlock_of_names {c : Chain} (h : Explored S c) {i : ℕ} {blk : Block}
    (hget : c.blocks[i]? = some blk) {id : Bytes} (hnames : Names id i blk) {fuel : ℕ}
    (hfuel : c.blocks.length < fuel) :
    apiBlock H fuel id c = some (.json 200 (blockJson blk (UInt32.ofNat i))) := by
  have hi : i < 2 ^ 32 := lt_trans (List.getElem?_eq_some_iff.mp hget).1 h.short
  rcases hnames with hspells | ⟨hnot, hhash⟩
  · exact apiBlock_of_spells hget hi hspells fuel
  · have hparse : parseU32 id = none := not_not.mp (mt isHeight_iff.mpr hnot)
    rw [apiBlock, hparse]
    dsimp only
    rw [fromHex_eq_ok_iff.mpr hhash]
    dsimp only
    rw [h.getBlockByHash hget hfuel]

/-- The text of a hash, in digits of any case. -/
def IsHash (id : Bytes) : Prop := ∃ hash : Hash, id.map lower = encodeHex hash.data

/-- A text that names no block is not found, or is no name at all. -/
theorem Explored.apiBlock_of_not_names {c : Chain} (h : Explored S c) {id : Bytes}
    (hnone : ∀ (i : ℕ) (blk : Block), c.blocks[i]? = some blk → ¬ Names id i blk) {fuel : ℕ}
    (hfuel : c.blocks.length < fuel) :
    ((IsHeight id ∨ IsHash id) ∧ apiBlock H fuel id c = some (.error 404 "block not found")) ∨
    (¬ (IsHeight id ∨ IsHash id) ∧
      apiBlock H fuel id c =
        some (.error 400 "block id must be a height or 32-byte hex hash")) := by
  by_cases hheight : IsHeight id
  · refine Or.inl ⟨Or.inl hheight, ?_⟩
    obtain ⟨n, hn, hspells⟩ := hheight
    have hpos : (UInt32.ofNat n).toNat = n := by
      rw [UInt32.toNat_ofNat', Nat.mod_eq_of_lt hn]
    have hparse : parseU32 id = some (UInt32.ofNat n) :=
      parseU32_eq_some_iff.mpr (by rwa [hpos])
    have hblock : c.getBlock (UInt32.ofNat n) = none := by
      rw [Chain.getBlock, hpos]
      cases hget : c.blocks[n]? with
      | none => rfl
      | some blk => exact absurd (Or.inl hspells) (hnone n blk hget)
    rw [apiBlock, hparse]
    dsimp only
    rw [hblock]
  · have hparse : parseU32 id = none := not_not.mp (mt isHeight_iff.mpr hheight)
    by_cases hhash : IsHash id
    · refine Or.inl ⟨Or.inr hhash, ?_⟩
      obtain ⟨hash, htext⟩ := hhash
      have hsearch : c.getBlockByHash hash fuel = some none := by
        refine findBlock_eq_none (k := 0) h.short (fun blk hblk heq => ?_) (Nat.zero_le _)
          (by omega)
        obtain ⟨i, hget⟩ := List.getElem?_of_mem hblk
        exact hnone i blk hget (Or.inr ⟨hheight, by rw [heq, htext]⟩)
      rw [apiBlock, hparse]
      dsimp only
      rw [fromHex_eq_ok_iff.mpr htext]
      dsimp only
      rw [hsearch]
    · refine Or.inr ⟨by rw [not_or]; exact ⟨hheight, hhash⟩, ?_⟩
      rw [apiBlock, hparse]
      dsimp only
      cases hread : fromHex H 32 id with
      | error what => rfl
      | ok hash => exact absurd ⟨hash, fromHex_eq_ok_iff.mp hread⟩ hhash

/-- **What `/api/block` answers**, to any text, after any run with failing writes of fewer than
`2 ^ 32` operations, without collisions among the headers: the block that the text names, with
its height; that there is none; or that the text is no name.  A hash of decimal digits below
`2 ^ 32` names the block at that height and no other. -/
theorem apiBlock_exact {attempts : List Attempt} (hlen : attempts.length + 1 < 2 ^ 32) {c : Chain}
    (hrun : Transition.exec (attempt S) attempts (genesisChain S) = .ok c)
    (hcol : NoCollision S (headerStrings c)) (hzero : NoZeroHash S (headerStrings c))
    (H : HexReader) (id : Bytes) {fuel : ℕ} (hfuel : c.blocks.length < fuel) :
    ∃ response, apiBlock H fuel id c = some response ∧
      (∀ code body, response = .json code body ↔ code = 200 ∧ ∃ i blk, c.blocks[i]? = some blk ∧
        Names id i blk ∧ body = blockJson blk (UInt32.ofNat i)) ∧
      ∀ code message, response = .error code message ↔
        (∀ i blk, c.blocks[i]? = some blk → ¬ Names id i blk) ∧
          ((IsHeight id ∨ IsHash id) ∧ code = 404 ∧ message = "block not found" ∨
            ¬ (IsHeight id ∨ IsHash id) ∧ code = 400 ∧
              message = "block id must be a height or 32-byte hex hash") := by
  have h := explored_of_exec hlen hrun hcol hzero
  by_cases hnamed : ∃ i blk, c.blocks[i]? = some blk ∧ Names id i blk
  · obtain ⟨i, blk, hget, hnames⟩ := hnamed
    refine ⟨_, h.apiBlock_of_names hget hnames hfuel, fun code body => ?_, fun code message => ?_⟩
    · constructor
      · intro heq
        cases heq
        exact ⟨rfl, i, blk, hget, hnames, rfl⟩
      · rintro ⟨rfl, i', blk', hget', hnames', rfl⟩
        -- both blocks are the answer
        have hsame := (h.apiBlock_of_names (H := H) hget hnames hfuel).symm.trans
          (h.apiBlock_of_names hget' hnames' hfuel)
        exact Option.some.inj hsame
    · refine iff_of_false (by simp) fun hnot => ?_
      exact hnot.1 i blk hget hnames
  · have hnone : ∀ i blk, c.blocks[i]? = some blk → ¬ Names id i blk :=
      fun i blk hget hnames => hnamed ⟨i, blk, hget, hnames⟩
    have hbody : ∀ (message : String) (code code' : ℕ) (body : BlockJson),
        Response.error code message = .json code' body ↔ code' = 200 ∧
          ∃ i blk, c.blocks[i]? = some blk ∧ Names id i blk ∧
            body = blockJson blk (UInt32.ofNat i) := by
      refine fun message code code' body => iff_of_false (by simp) ?_
      rintro ⟨-, i, blk, hget, hnames, -⟩
      exact hnone i blk hget hnames
    rcases h.apiBlock_of_not_names (H := H) hnone hfuel with ⟨hname, heq⟩ | ⟨hname, heq⟩
    · refine ⟨_, heq, hbody _ _, fun code message => ?_⟩
      simp only [Response.error.injEq, hname, true_and, not_true_eq_false, false_and, or_false]
      rw [and_iff_right hnone, eq_comm, eq_comm (a := message)]
    · refine ⟨_, heq, hbody _ _, fun code message => ?_⟩
      simp only [Response.error.injEq, hname, not_false_eq_true, true_and, false_and, false_or]
      rw [and_iff_right hnone, eq_comm, eq_comm (a := message)]

namespace Sample

/-- The sample run without a failing write, with the third block. -/
def grown : List Attempt := attempts ++ [.createBlock submission₃ []]

theorem exists_grown : ∃ c,
    Transition.exec (attempt sodium) grown (genesisChain sodium) = .ok c ∧ EndsAtThird c :=
  Transition.ok_iff.mp (by decide +kernel)

end Sample

/-- What is answered to the hash of the third block of the sample run. -/
theorem apiBlock_exact_grown : ∃ c,
    Transition.exec (attempt Sample.sodium) Sample.grown (genesisChain Sample.sodium) = .ok c ∧
    ∃ response, apiBlock .standard (c.blocks.length + 1) (textBytes (toHex Sample.hash₃)) c =
        some response ∧
      (∀ code body, response = .json code body ↔ code = 200 ∧ ∃ i blk, c.blocks[i]? = some blk ∧
        Names (textBytes (toHex Sample.hash₃)) i blk ∧ body = blockJson blk (UInt32.ofNat i)) ∧
      ∀ code message, response = .error code message ↔
        (∀ i blk, c.blocks[i]? = some blk → ¬ Names (textBytes (toHex Sample.hash₃)) i blk) ∧
          ((IsHeight (textBytes (toHex Sample.hash₃)) ∨ IsHash (textBytes (toHex Sample.hash₃))) ∧
              code = 404 ∧ message = "block not found" ∨
            ¬ (IsHeight (textBytes (toHex Sample.hash₃)) ∨
                IsHash (textBytes (toHex Sample.hash₃))) ∧
              code = 400 ∧ message = "block id must be a height or 32-byte hex hash") := by
  obtain ⟨c, hrun, hc⟩ := Sample.exists_grown
  exact ⟨c, hrun, apiBlock_exact (by decide) hrun (by rw [hc.2]; decide +kernel)
    (by rw [hc.2]; decide +kernel) .standard _ (Nat.lt_succ_self _)⟩

/-! ### Following the links -/

/-- A client that asks for a block, and then again and again for the one it names as its
predecessor. -/
def walkBack (H : HexReader) (fuel : ℕ) (c : Chain) : ℕ → Bytes → List BlockJson
  | 0, _ => []
  | n + 1, id =>
    match apiBlock H fuel id c with
    | some (.json _ body) => body :: walkBack H fuel c n (textBytes body.previousHash)
    | _ => []

/-- What is shown of the blocks of a chain. -/
def shownBlocks (blocks : List Block) : List BlockJson :=
  blocks.zipIdx.map fun e => blockJson e.1 (UInt32.ofNat e.2)

theorem shownBlocks_concat (blocks : List Block) (blk : Block) :
    shownBlocks (blocks ++ [blk]) =
      shownBlocks blocks ++ [blockJson blk (UInt32.ofNat blocks.length)] := by
  simp only [shownBlocks, List.zipIdx_append, List.map_append, Nat.zero_add, List.zipIdx_singleton,
    List.map_cons, List.map_nil]

/-- The predecessor that the genesis block names is the text of zero, and a height. -/
theorem names_genesis : Names (textBytes (toHex (genesisBlock S).header.prevHash)) 0
    (genesisBlock S) := by
  refine Or.inl ?_
  show Spells (textBytes (toHex (U8Array.fill 32 0))) 0
  rw [textBytes_toHex]
  exact ⟨by decide, by decide +kernel, by decide +kernel⟩

theorem walkBack_succ {fuel : ℕ} {c : Chain} (h : Explored S c) {i : ℕ} {blk : Block}
    (hget : c.blocks[i]? = some blk) {id : Bytes} (hnames : Names id i blk)
    (hfuel : c.blocks.length < fuel) (n : ℕ) :
    walkBack H fuel c (n + 1) id = blockJson blk (UInt32.ofNat i) ::
      walkBack H fuel c n (textBytes (toHex blk.header.prevHash)) := by
  rw [walkBack, h.apiBlock_of_names hget hnames hfuel]
  rfl

/-- From the genesis block on, the client gets the genesis block. -/
theorem Explored.walkBack_genesis {c : Chain} (h : Explored S c) {id : Bytes}
    (hnames : Names id 0 (genesisBlock S)) {fuel : ℕ} (hfuel : c.blocks.length < fuel) (n : ℕ) :
    walkBack H fuel c n id = List.replicate n (blockJson (genesisBlock S) 0) := by
  have hget : c.blocks[0]? = some (genesisBlock S) := by
    obtain ⟨rest, hrest⟩ := h.first
    rw [← hrest]
    rfl
  induction n generalizing id with
  | zero => rfl
  | succ n ih =>
    rw [walkBack_succ h hget hnames hfuel, ih names_genesis, List.replicate_succ]
    rfl

/-- A walk that starts at a block. -/
theorem Explored.walkBack_eq {c : Chain} (h : Explored S c)
    (htext : ∀ blk ∈ c.blocks, ¬ IsHeight (textBytes (toHex blk.hash))) {i : ℕ} {blk : Block}
    (hget : c.blocks[i]? = some blk) {id : Bytes} (hnames : Names id i blk) {fuel : ℕ}
    (hfuel : c.blocks.length < fuel) (n : ℕ) :
    walkBack H fuel c (i + 1 + n) id = (shownBlocks (c.blocks.take (i + 1))).reverse ++
      List.replicate n (blockJson (genesisBlock S) 0) := by
  induction i generalizing blk id with
  | zero =>
    obtain ⟨rest, hrest⟩ := h.first
    have hgenesis : c.blocks[0]? = some (genesisBlock S) := by
      rw [← hrest]
      rfl
    rw [hgenesis] at hget
    cases hget
    rw [h.walkBack_genesis hnames hfuel, ← hrest, Nat.add_comm, List.replicate_succ]
    rfl
  | succ i ih =>
    have hlt := (List.getElem?_eq_some_iff.mp hget).1
    have hprev : c.blocks[i]? = some c.blocks[i] := List.getElem?_eq_getElem (by omega)
    have hlink := h.linked.linked i _ _ hprev hget
    have hnamed : Names (textBytes (toHex blk.header.prevHash)) i c.blocks[i] := by
      rw [hlink]
      refine Or.inr ⟨htext _ (List.getElem_mem _), ?_⟩
      rw [textBytes_toHex, map_lower_encodeHex]
    have htake : c.blocks.take (i + 1 + 1) = c.blocks.take (i + 1) ++ [blk] := by
      rw [List.take_add_one, hget]
      rfl
    have hmin : (c.blocks.take (i + 1)).length = i + 1 := by
      rw [List.length_take, Nat.min_eq_left (by omega)]
    have hrounds : i + 1 + 1 + n = i + 1 + n + 1 := by omega
    rw [hrounds, walkBack_succ h hget hnames hfuel, ih hprev hnamed, htake, shownBlocks_concat,
      List.reverse_append, hmin]
    rfl

/-- **Following the links shows the whole chain**, from the tip back, and then the genesis
block for ever: its predecessor is sixty-four zeros, which is a height. -/
theorem walkBack_exact {attempts : List Attempt} (hlen : attempts.length + 1 < 2 ^ 32) {c : Chain}
    (hrun : Transition.exec (attempt S) attempts (genesisChain S) = .ok c)
    (hcol : NoCollision S (headerStrings c)) (hzero : NoZeroHash S (headerStrings c))
    (htext : ∀ blk ∈ c.blocks, ¬ IsHeight (textBytes (toHex blk.hash))) (H : HexReader)
    {fuel : ℕ} (hfuel : c.blocks.length < fuel) (n : ℕ) :
    walkBack H fuel c (c.blocks.length + n) (textBytes (toHex c.tipHash)) =
      (shownBlocks c.blocks).reverse ++ List.replicate n (blockJson (genesisBlock S) 0) := by
  have h := explored_of_exec hlen hrun hcol hzero
  obtain ⟨last, hlast⟩ := List.getLast?_isSome.mpr h.linked.ne |> Option.isSome_iff_exists.mp
  have hpos := List.length_pos_iff.mpr h.linked.ne
  have hget : c.blocks[c.blocks.length - 1]? = some last := by
    rw [← List.getLast?_eq_getElem?, hlast]
  have htip : c.tipHash = last.hash := by
    rw [Chain.tipHash, hlast]
    rfl
  have hnames : Names (textBytes (toHex c.tipHash)) (c.blocks.length - 1) last := by
    rw [htip]
    refine Or.inr ⟨htext _ (List.mem_of_getLast? hlast), ?_⟩
    rw [textBytes_toHex, map_lower_encodeHex]
  have hwalk := h.walkBack_eq (H := H) htext hget hnames hfuel n
  rwa [Nat.sub_add_cancel hpos, List.take_length] at hwalk

/-- The sample run, walked back with two rounds too many. -/
theorem walkBack_exact_grown : ∃ c,
    Transition.exec (attempt Sample.sodium) Sample.grown (genesisChain Sample.sodium) = .ok c ∧
    walkBack .standard (c.blocks.length + 1) c (c.blocks.length + 2)
        (textBytes (toHex c.tipHash)) =
      (shownBlocks c.blocks).reverse ++
        List.replicate 2 (blockJson (genesisBlock Sample.sodium) 0) := by
  have hok : Transition.Ok (fun c => Sample.EndsAtThird c ∧
      ∀ blk ∈ c.blocks, ¬ IsHeight (textBytes (toHex blk.hash)))
      (Transition.exec (attempt Sample.sodium) Sample.grown (genesisChain Sample.sodium)) := by
    decide +kernel
  obtain ⟨c, hrun, hc, htext⟩ := Transition.ok_iff.mp hok
  exact ⟨c, hrun, walkBack_exact (by decide) hrun (by rw [hc.2]; decide +kernel)
    (by rw [hc.2]; decide +kernel) htext .standard (Nat.lt_succ_self _) 2⟩

end Axis
