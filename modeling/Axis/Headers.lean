import Axis.Lib.HashChain
import Axis.Restart

/-!
# Headers

The block validator of the TCP server is not `Chain::verify_block_header`, which
nothing calls.  It compares the hash with a target instead of looping over its bytes,
and it has no check of the timestamp.

The headers of a chain are linked by their hashes down to the genesis block.  The
linear search of `get_block` relies on the hashes being distinct, and counts with 32
bits.

## Main definitions

* `Chain.verifyBlockHeader` — the validator that is not called.
* `Chain.zeroBytes` — its test of the hash.
* `Chain.getBlockByHash` — the linear search for a hash.
* `Chain.headers` — the headers of a chain.

## Main results

* `target_iff_zeroBytes` — **the two proof-of-work tests agree**, at any difficulty.
* `verifyBlockHeader_iff_later` — **an accepted block has a valid header exactly when its
  timestamp is later than that of the tip**, and timestamps increase along the chain in
  runs of such blocks.
* `linked_headers` — the headers of a chain that restarted in range are linked.
* `headers_of_tipHash` — **the tip hash determines the headers**, and a block is found
  by its hash.
-/

namespace Axis

open Positional

variable {S : Sodium}

/-! ### The two validators -/

/-- The timestamp of the last block. -/
def Chain.tipTimestamp (c : Chain) : Timestamp :=
  (c.blocks.getLast?.map fun blk => blk.header.timestamp).getD ⟨0⟩

def Chain.verifyBlockHeader (blk : Block) (c : Chain) : Bool :=
  if blk.header.prevHash ≠ c.tipHash then false
  else if blk.header.timestamp.value ≤ c.tipTimestamp.value then false
  else (List.range c.difficulty.toNat).all fun i => blk.hash.data[i]? = some 0

/-- The block's timestamp is later than that of the tip. -/
def laterTimestamp (c : Chain) (sub : BlockSubmission) : Prop :=
  c.tipTimestamp.value < sub.timestamp.value

instance (c : Chain) (sub : BlockSubmission) : Decidable (laterTimestamp c sub) :=
  inferInstanceAs (Decidable (_ < _))

/-- The loop over the first bytes of a hash. -/
theorem all_range_eq_zero_iff {l : Bytes} {d : ℕ} (h : d ≤ l.length) :
    ((List.range d).all fun i => l[i]? = some 0) = true ↔ ∀ b ∈ l.take d, b = 0 := by
  rw [List.all_eq_true]
  constructor
  · intro hall b hb
    obtain ⟨i, hi, rfl⟩ := List.getElem_of_mem hb
    rw [List.length_take] at hi
    have hzero := hall i (List.mem_range.mpr (by omega))
    rw [decide_eq_true_eq, List.getElem?_eq_getElem (by omega), Option.some.injEq] at hzero
    rw [List.getElem_take, hzero]
  · intro hall i hi
    have hlt := List.mem_range.mp hi
    have hi' : i < (l.take d).length := by
      rw [List.length_take]
      omega
    have hzero := hall _ (List.getElem_mem hi')
    rw [List.getElem_take] at hzero
    rw [decide_eq_true_eq, List.getElem?_eq_getElem (by omega), hzero]

/-- The loop of `verify_block_header` over the bytes of a hash. -/
def Chain.zeroBytes (hash : Hash) (c : Chain) : Bool :=
  (List.range c.difficulty.toNat).all fun i => hash.data[i]? = some 0

theorem verifyBlockHeader_eq (blk : Block) (c : Chain) :
    c.verifyBlockHeader blk =
      if blk.header.prevHash ≠ c.tipHash then false
      else if blk.header.timestamp.value ≤ c.tipTimestamp.value then false
      else c.zeroBytes blk.hash := rfl

/-- The target is zeros, and then all ones. -/
theorem data_target_buildTarget {c : Chain} (h : c.difficulty.toNat ≤ 32) :
    c.buildTarget.target.data =
      List.replicate c.difficulty.toNat 0 ++ List.replicate (32 - c.difficulty.toNat) 255 := by
  show (List.range 32).map (fun i => if i < c.difficulty.toNat then (0 : UInt8) else 0xff) = _
  apply List.ext_getElem
  · simp only [List.length_map, List.length_range, List.length_append, List.length_replicate]
    omega
  · intro i _ _
    rw [List.getElem_map, List.getElem_range, List.getElem_append]
    simp only [List.length_replicate, List.getElem_replicate]
    split <;> rfl

/-- **The two proof-of-work tests agree**: a hash is not above the target of a difficulty
exactly when the byte loop finds as many leading zeros. -/
theorem target_iff_zeroBytes {c : Chain} (h : c.difficulty.toNat ≤ 32) (hash : Hash) :
    compare hash c.buildTarget.target ≠ .gt ↔ c.zeroBytes hash = true := by
  have hlen : hash.data.length = c.difficulty.toNat + (32 - c.difficulty.toNat) := by
    rw [hash.size_data]
    omega
  rw [U8Array.compare_def, data_target_buildTarget h, compare_leading_zeros_iff hlen]
  refine (all_range_eq_zero_iff ?_).symm
  rw [hash.size_data]
  exact h

/-- The first mined block of the sample run passes both tests. -/
theorem target_iff_zeroBytes_mined :
    compare Sample.hash₁ (genesisChain Sample.sodium).buildTarget.target ≠ .gt ∧
      (genesisChain Sample.sodium).zeroBytes Sample.hash₁ = true := by
  have hzero : (genesisChain Sample.sodium).zeroBytes Sample.hash₁ = true := by decide +kernel
  have hle : (genesisChain Sample.sodium).difficulty.toNat ≤ 32 := by decide +kernel
  exact ⟨(target_iff_zeroBytes hle _).mpr hzero, hzero⟩

/-- **What is missing from the validator of the TCP server is the timestamp.** -/
theorem verifyBlockHeader_iff {c : Chain} (hbase : Base S c) {sub : BlockSubmission}
    {refs : List Transaction} (ha : Accepted S c sub refs) :
    c.verifyBlockHeader (sub.block S refs) = true ↔ laterTimestamp c sub := by
  have hparent : ¬ (sub.block S refs).header.prevHash ≠ c.tipHash := not_not.mpr ha.parent
  have hwork : c.zeroBytes (sub.block S refs).hash = true := by
    unfold Chain.zeroBytes
    rw [hbase.difficulty]
    refine (all_range_eq_zero_iff ?_).mpr (ha.leading_zeros hbase.target)
    rw [(sub.block S refs).hash.size_data]
    decide
  unfold laterTimestamp
  rw [verifyBlockHeader_eq, if_neg hparent, hwork]
  show (if sub.timestamp.value ≤ c.tipTimestamp.value then false else true) = true ↔ _
  rw [← UInt64.not_le]
  split
  · next hle => simp [hle]
  · next hlt => simp [hlt]

/-- Timestamps increase along the chain. -/
def TimestampsIncrease (c : Chain) : Prop :=
  c.blocks.Pairwise fun blk blk' => blk.header.timestamp.value < blk'.header.timestamp.value

instance (c : Chain) : Decidable (TimestampsIncrease c) :=
  inferInstanceAs (Decidable (c.blocks.Pairwise _))

/-- No block is later than the last one. -/
theorem TimestampsIncrease.le_tip {c : Chain} (h : TimestampsIncrease c) {b : Block}
    (hb : b ∈ c.blocks) : b.header.timestamp.value ≤ c.tipTimestamp.value := by
  unfold TimestampsIncrease at h
  rcases List.eq_nil_or_concat c.blocks with hnil | ⟨bs, last, hbs⟩
  · rw [hnil] at hb
    exact (List.not_mem_nil hb).elim
  · rw [List.concat_eq_append] at hbs
    have htip : c.tipTimestamp = last.header.timestamp := by
      rw [Chain.tipTimestamp, hbs, List.getLast?_concat]
      rfl
    rw [htip]
    rw [hbs, List.pairwise_append] at h
    rw [hbs, List.mem_append] at hb
    rcases hb with hold | hlast
    · exact UInt64.le_of_lt (h.2.2 b hold last (List.mem_singleton_self _))
    · rw [List.mem_singleton.mp hlast]
      exact UInt64.le_refl _

/-- A later block keeps the order. -/
theorem TimestampsIncrease.grown {c : Chain} (h : TimestampsIncrease c) {blk : Block}
    (hlater : c.tipTimestamp.value < blk.header.timestamp.value) :
    TimestampsIncrease (c.grown blk) := by
  show (c.blocks ++ [blk]).Pairwise _
  rw [List.pairwise_append]
  refine ⟨h, List.pairwise_singleton _ _, ?_⟩
  intro b hb b' hb'
  rw [List.mem_singleton.mp hb']
  exact UInt64.lt_of_le_of_lt (h.le_tip hb) hlater

/-- **An accepted block has a valid header exactly when its timestamp is later than that
of the tip**, and in a run of such blocks the timestamps increase along the chain. -/
theorem verifyBlockHeader_iff_later (c : Chain) :
    (Reachable S anyOp c → ∀ (payload : FramePayload) (sub : BlockSubmission) (blk : Block),
      submission payload.bytes = some sub → acceptBlock S payload.bytes c = .ok blk →
      (c.verifyBlockHeader blk = true ↔ laterTimestamp c sub)) ∧
    (Reachable S (guarded laterTimestamp) c → TimestampsIncrease c) := by
  constructor
  · intro h payload sub blk hsub haccept
    have hbase := base_of_reachable h
    obtain ⟨sub', refs, hsub', rfl, ha⟩ :=
      accepted_of_acceptBlock hbase.pool.good payload.fits haccept
    rw [hsub] at hsub'
    cases hsub'
    exact verifyBlockHeader_iff hbase ha
  · intro h
    refine guarded_rule (I := TimestampsIncrease) (List.pairwise_singleton _ _)
      (fun c st _ hI _ => hI) ?_ h
    intro c sub refs _ _ hI hlater _
    exact hI.grown hlater

/-- The third block of the sample run is later than the second one. -/
theorem verifyBlockHeader_setup : ∃ c blk, run Sample.sodium Sample.setup = .ok c ∧
    acceptBlock Sample.sodium Sample.submission₃.bytes c = .ok blk ∧
    laterTimestamp c (Sample.block₃ [Sample.tx₁, Sample.tx₂]) ∧
    c.verifyBlockHeader blk = true ∧ TimestampsIncrease c := by
  obtain ⟨c, blk, hrun, hreach, hblk, hlater⟩ := exists_accepted_guarded (S := Sample.sodium)
    (guarded laterTimestamp) Sample.setup Sample.submission₃
    (fun c _ => laterTimestamp c (Sample.block₃ [Sample.tx₁, Sample.tx₂]))
    (by decide +kernel)
  obtain ⟨hvalid, hincrease⟩ := verifyBlockHeader_iff_later (S := Sample.sodium) c
  have hsub := BlockSubmission.submission_frame (Sample.block₃ [Sample.tx₁, Sample.tx₂])
    (by decide)
  have hiff := hvalid (hreach.mono fun _ _ _ => trivial) Sample.submission₃ _ blk hsub hblk
  exact ⟨c, blk, hrun, hblk, hlater, hiff.mpr hlater, hincrease hreach⟩

namespace Sample

/-- A block on the genesis block, dated ten minutes before it. -/
def blockEarly : BlockSubmission :=
  ⟨genesisHash, ofHex 32 0xb18d11073631d9b561c1ada3305b078734b73201e08599fc6b5b5075e48d7ea0,
    ⟨1781544765⟩, 4823761, sender, 3 * units, ⟨1781544765⟩, []⟩

def hashEarly : Hash :=
  ofHex 32 0x000000f27d480626a65dec1f99c93bfabc7e42df3bb63d18464055508a59e8b8

def sodiumEarly : Sodium :=
  sodiumWith [(coinbaseBytes blockEarly, blockEarly.wireMerkle),
    (headerBytes blockEarly, hashEarly)]

end Sample

/-- **A block dated before its parent is accepted.** -/
theorem blockEarly_accepted : ∃ c blk, run Sample.sodiumEarly [] = .ok c ∧
    Reachable Sample.sodiumEarly anyOp c ∧
    acceptBlock Sample.sodiumEarly (Sample.blockEarly.frame (by decide)).bytes c = .ok blk ∧
    c.verifyBlockHeader blk = false ∧ ¬ TimestampsIncrease (c.grown blk) :=
  exists_accepted [] (Sample.blockEarly.frame (by decide))
    (fun c blk => c.verifyBlockHeader blk = false ∧ ¬ TimestampsIncrease (c.grown blk))
    (by decide +kernel)

/-! ### The chain of headers -/

namespace Chain

def headers (c : Chain) : List BlockHeader := c.blocks.map Block.header

/-- The loop of `get_block(hash)` from the index `i` on, which is 32 bits wide and wraps
around; `none` when the loop is not done after `fuel` rounds. -/
def findBlock (hash : Hash) (blocks : List Block) : ℕ → UInt32 → Option (Option (UInt32 × Block))
  | 0, _ => none
  | fuel + 1, i =>
    match blocks[i.toNat]? with
    | none => some none
    | some blk =>
      if blk.hash = hash then some (some (i, blk)) else findBlock hash blocks fuel (i + 1)

def getBlockByHash (hash : Hash) (fuel : ℕ) (c : Chain) : Option (Option (UInt32 × Block)) :=
  findBlock hash c.blocks fuel 0

/-- The search finds the first block with the hash, at a position of 32 bits. -/
theorem findBlock_eq {hash : Hash} {blocks : List Block} {n : ℕ} {blk : Block}
    (hget : blocks[n]? = some blk) (hhash : blk.hash = hash) (hn : n < 2 ^ 32)
    (hfirst : ∀ (k : ℕ) (b : Block), k < n → blocks[k]? = some b → b.hash ≠ hash) {k fuel : ℕ}
    (hk : k ≤ n) (hfuel : n < k + fuel) :
    findBlock hash blocks fuel (UInt32.ofNat k) = some (some (UInt32.ofNat n, blk)) := by
  -- on the number of rounds, with the position they start from
  induction fuel generalizing k with
  | zero => omega
  | succ fuel ih =>
    have hpos : (UInt32.ofNat k).toNat = k := by
      rw [UInt32.toNat_ofNat', Nat.mod_eq_of_lt (by omega)]
    rw [findBlock, hpos]
    rcases Nat.lt_or_ge k n with hlt | hge
    · have hlen := (List.getElem?_eq_some_iff.mp hget).1
      have hin : k < blocks.length := by omega
      have hblk : blocks[k]? = some blocks[k] := List.getElem?_eq_getElem hin
      rw [hblk]
      dsimp only
      rw [if_neg (hfirst k _ hlt hblk)]
      have hnext := ih (k := k + 1) (by omega) (by omega)
      rw [UInt32.ofNat_add] at hnext
      exact hnext
    · have heq : k = n := by omega
      subst heq
      rw [hget]
      dsimp only
      rw [if_pos hhash]

end Chain

/-- The headers of a chain are linked by their hashes. -/
def LinkedHeaders (S : Sodium) (c : Chain) : Prop :=
  HashChain.Linked BlockHeader.prevHash (BlockHeader.hash S) (U8Array.fill 32 0) c.headers

/-- The tip hash of a node is the tip of its headers. -/
theorem Base.tipHash {c : Chain} (h : Base S c) :
    c.tipHash = HashChain.tip (BlockHeader.hash S) (U8Array.fill 32 0) c.headers := by
  unfold Chain.tipHash HashChain.tip Chain.headers
  rw [List.getLast?_map]
  cases hlast : c.blocks.getLast? with
  | none => rfl
  | some blk => exact (h.good blk (List.mem_of_getLast? hlast)).hash

/-- **The headers of a chain that restarted in range are linked**, down to the genesis
block. -/
theorem linked_headers {c : Chain} (h : Reachable S restartInRange c) : LinkedHeaders S c := by
  refine guarded_rule (I := LinkedHeaders S) ?_ (fun c st _ hI _ => hI) ?_ (reachable_guarded h)
  · exact HashChain.linked_nil.concat (x := (genesisBlock S).header) rfl
  · intro c sub refs hbase _ hI _ ha
    unfold LinkedHeaders
    have hheaders : (c.grown (sub.block S refs)).headers =
        c.headers ++ [(sub.block S refs).header] := List.map_append
    rw [hheaders]
    apply HashChain.Linked.concat hI
    rw [← hbase.tipHash]
    exact ha.parent

/-- The serialized headers of a chain. -/
def headerStrings (c : Chain) : List Bytes := c.headers.map BlockHeader.bytes

/-- No string of a list hashes to zero. -/
def NoZeroHash (S : Sodium) (hashed : List Bytes) : Prop :=
  ∀ x ∈ hashed, blake2b S x ≠ U8Array.fill 32 0

instance (hashed : List Bytes) : Decidable (NoZeroHash S hashed) :=
  inferInstanceAs (Decidable (∀ x ∈ hashed, _))

/-- Without collisions, headers with the same hash are the same. -/
theorem header_eq_of_hash_eq {hashed : List Bytes} (hcol : NoCollision S hashed)
    {hdr hdr' : BlockHeader} (h : hdr.bytes ∈ hashed) (h' : hdr'.bytes ∈ hashed)
    (heq : hdr.hash S = hdr'.hash S) : hdr = hdr' :=
  BlockHeader.bytes_inj (hcol _ h _ h' heq)

theorem map_hash_blocks {c : Chain} (h : Base S c) :
    c.blocks.map Block.hash = c.headers.map (BlockHeader.hash S) := by
  rw [Chain.headers, List.map_map]
  exact List.map_congr_left fun blk hblk => (h.good blk hblk).hash

/-- **The tip hash determines the headers.**  In runs that restart in range, and without
collisions and zero hashes among the serialized headers, chains with the same tip hash
have the same headers, the hashes of a chain are distinct, and a block at a position of
32 bits is found by its hash. -/
theorem headers_of_tipHash {c c' : Chain} (h : Reachable S restartInRange c)
    (h' : Reachable S restartInRange c')
    (hcol : NoCollision S (headerStrings c ++ headerStrings c'))
    (hzero : NoZeroHash S (headerStrings c ++ headerStrings c')) :
    (c.tipHash = c'.tipHash →
      c.blocks.length = c'.blocks.length ∧ c.headers = c'.headers) ∧
    (c.blocks.map Block.hash).Nodup ∧
    ∀ (i : ℕ) (blk : Block), c.blocks[i]? = some blk → i < 2 ^ 32 → ∀ fuel, i < fuel →
      c.getBlockByHash blk.hash fuel = some (some (UInt32.ofNat i, blk)) := by
  have hbase := base_of_reachable h
  have hbase' := base_of_reachable h'
  have hmem : ∀ hdr ∈ c.headers, hdr.bytes ∈ headerStrings c ++ headerStrings c' :=
    fun hdr hhdr => List.mem_append_left _ (List.mem_map_of_mem hhdr)
  have hmem' : ∀ hdr ∈ c'.headers, hdr.bytes ∈ headerStrings c ++ headerStrings c' :=
    fun hdr hhdr => List.mem_append_right _ (List.mem_map_of_mem hhdr)
  have hnodup : (c.blocks.map Block.hash).Nodup := by
    rw [map_hash_blocks hbase]
    exact (linked_headers h).nodup_digests
      (fun x hx y hy => header_eq_of_hash_eq hcol (hmem x hx) (hmem y hy))
      (fun x hx => hzero _ (hmem x hx))
  refine ⟨?_, hnodup, ?_⟩
  · intro htip
    rw [hbase.tipHash, hbase'.tipHash] at htip
    have heq := (linked_headers h).eq_of_tip_eq (linked_headers h')
      (fun x hx y hy => header_eq_of_hash_eq hcol (hmem x hx) (hmem' y hy))
      (fun x hx => hzero _ (hmem x hx)) (fun x hx => hzero _ (hmem' x hx)) htip
    have hlen := congrArg List.length heq
    rw [Chain.headers, Chain.headers, List.length_map, List.length_map] at hlen
    exact ⟨hlen, heq⟩
  · intro i blk hget hi fuel hfuel
    refine Chain.findBlock_eq (k := 0) hget rfl hi ?_ (Nat.zero_le _) (by omega)
    -- an earlier block with the hash would be the same position
    intro k b hk hb heq
    have hlen := (List.getElem?_eq_some_iff.mp hget).1
    have hpos : (c.blocks.map Block.hash)[k]? = (c.blocks.map Block.hash)[i]? := by
      rw [List.getElem?_map, List.getElem?_map, hb, hget]
      exact congrArg some heq
    have hidx := (List.getElem?_inj (by
      rw [List.length_map]
      omega) hnodup).mp hpos
    omega

/-- The headers of the sample run, with the third block on top. -/
def Sample.EndsAtThird (c : Chain) : Prop :=
  c.tipHash = Sample.hash₃ ∧
    headerStrings c = [(genesisBlock Sample.sodium).header.bytes,
      Sample.headerBytes Sample.block₁, Sample.headerBytes Sample.block₂,
      Sample.headerBytes (Sample.block₃ [])]

instance (c : Chain) : Decidable (Sample.EndsAtThird c) := inferInstanceAs (Decidable (_ ∧ _))

/-- The node after the third block of the sample run, before and after a restart. -/
theorem headers_confirmed : ∃ c c', run Sample.sodium Sample.confirmed = .ok c ∧
    run Sample.sodium (Sample.confirmed.take 5) = .ok c' ∧ c.tipHash = c'.tipHash ∧
    c.headers = c'.headers ∧ (c.blocks.map Block.hash).Nodup := by
  obtain ⟨c, hrun, hreach, hc⟩ := exists_reachable (S := Sample.sodium) restartInRange
    Sample.confirmed Sample.EndsAtThird (by decide +kernel)
  obtain ⟨c', hrun', hreach', hc'⟩ := exists_reachable (S := Sample.sodium) restartInRange
    (Sample.confirmed.take 5) Sample.EndsAtThird (by decide +kernel)
  have htip : c.tipHash = c'.tipHash := hc.1.trans hc'.1.symm
  obtain ⟨hheaders, hnodup, -⟩ := headers_of_tipHash hreach hreach'
    (by rw [hc.2, hc'.2]; decide +kernel) (by rw [hc.2, hc'.2]; decide +kernel)
  exact ⟨c, c', hrun, hrun', htip, (hheaders htip).2, hnodup⟩

/-! ### One tip, two chains

The block at position `2 ^ 32` is stored over the genesis block.  A node that restarts
after it has the tip of the chain before it, and another first block.  The hash of this
run has three leading zeros and is the timestamp and the nonce otherwise. -/

/-- The block at position `2 ^ 32` is stored under the key of the first block. -/
theorem StoredBlocks.insert_wrap {c : Chain} (h : StoredBlocks c.blocks c.blocksDb)
    (hlen : c.blocks.length = 2 ^ 32) (blk : Block) :
    StoredBlocks (c.blocks.set 0 blk)
      (c.blocksDb.insert (blockKey (UInt32.ofNat c.blocks.length)) blk.serialize) := by
  have hwrap : blockKey (UInt32.ofNat c.blocks.length) = blockKey (UInt32.ofNat 0) := by
    rw [hlen, ← blockKey_mod, Nat.mod_self]
  intro key raw
  rw [FiniteMap.getElem?_insert_eq, hwrap]
  split
  · next heq =>
    subst heq
    constructor
    · intro hraw
      refine ⟨0, blk, ?_, rfl, (Option.some.inj hraw).symm⟩
      rw [List.getElem?_set_self (by omega)]
    · intro hex
      obtain ⟨i, blk', hget, hkey, rfl⟩ := hex
      have hi := (List.getElem?_eq_some_iff.mp hget).1
      rw [List.length_set] at hi
      have hidx := blockKey_inj (by norm_num) (by omega) hkey
      subst hidx
      rw [List.getElem?_set_self (by omega)] at hget
      rw [Option.some.inj hget]
  · next hne =>
    rw [h key raw]
    constructor
    · intro hex
      obtain ⟨i, blk', hget, rfl, rfl⟩ := hex
      have hi : 0 ≠ i := by
        intro hsame
        obtain rfl := hsame
        exact hne rfl
      exact ⟨i, blk', by rw [List.getElem?_set_ne hi, hget], rfl, rfl⟩
    · intro hex
      obtain ⟨i, blk', hget, rfl, rfl⟩ := hex
      have hi : 0 ≠ i := by
        intro hsame
        obtain rfl := hsame
        exact hne rfl
      rw [List.getElem?_set_ne hi] at hget
      exact ⟨i, blk', hget, rfl, rfl⟩

namespace Rewind

def sodium : Sodium where
  generichash outlen data :=
    U8Array.ofBytes outlen (if data.length = 80 then [0, 0, 0] ++ data.drop 64 ++ [1] else data)
  signVerifyDetached _ _ _ := true

theorem data_hash (hdr : BlockHeader) : (hdr.hash sodium).data =
    [0, 0, 0] ++ (leBytes 8 hdr.timestamp.value.toNat ++ leBytes 8 hdr.nonce.toNat) ++ [1] ++
      List.replicate 12 0 := by
  have hlen := hdr.length_bytes
  have hdrop : hdr.bytes.drop 64 =
      leBytes 8 hdr.timestamp.value.toNat ++ leBytes 8 hdr.nonce.toNat := by
    rw [hdr.bytes_eq, ← List.append_assoc]
    apply List.drop_left'
    rw [List.length_append, hdr.prevHash.size_data, hdr.merkleRoot.size_data]
  show (U8Array.ofBytes 32 (if hdr.bytes.length = 80 then _ else _)).data = _
  rw [if_pos hlen, hdrop]
  show List.take 32 (_ ++ List.replicate 32 0) = _
  have htwelve : List.replicate 32 (0 : UInt8) = List.replicate 12 0 ++ List.replicate 20 0 := by
    decide
  rw [htwelve, ← List.append_assoc]
  apply List.take_left'
  simp

/-- A hash tells the timestamp and the nonce. -/
theorem eq_of_hash_eq {hdr hdr' : BlockHeader} (h : hdr.hash sodium = hdr'.hash sodium) :
    hdr.timestamp.value = hdr'.timestamp.value ∧ hdr.nonce = hdr'.nonce := by
  have hdata := congrArg U8Array.data h
  rw [data_hash, data_hash, List.append_left_inj, List.append_left_inj,
    List.append_right_inj] at hdata
  obtain ⟨hts, hnonce⟩ := List.append_inj hdata (by simp)
  have hts' := congrArg ofLe hts
  have hnonce' := congrArg ofLe hnonce
  have h₁ := hdr.timestamp.value.toNat_lt
  have h₂ := hdr'.timestamp.value.toNat_lt
  have h₃ := hdr.nonce.toNat_lt
  have h₄ := hdr'.nonce.toNat_lt
  rw [ofLe_leBytes (by omega), ofLe_leBytes (by omega)] at hts' hnonce'
  exact ⟨UInt64.toNat_inj.mp hts', UInt64.toNat_inj.mp hnonce'⟩

theorem hash_ne_zero (hdr : BlockHeader) : hdr.hash sodium ≠ U8Array.fill 32 0 := by
  intro h
  have hget := congrArg (fun a : Hash => a.data[19]?) h
  change (hdr.hash sodium).data[19]? = _ at hget
  rw [data_hash, List.append_assoc, List.getElem?_append_right (by simp)] at hget
  simp [U8Array.fill] at hget

/-- A block with the nonce `n` on the given parent. -/
def sub (n : ℕ) (prev : Hash) : BlockSubmission where
  prevHash := prev
  wireMerkle := (Transaction.new sodium [] [⟨U8Array.fill 20 0, 0⟩] ⟨0⟩).txid
  timestamp := ⟨0⟩
  nonce := UInt64.ofNat n
  cbAddress := U8Array.fill 20 0
  cbReward := 0
  cbTimestamp := ⟨0⟩
  txids := []

/-- The chain after `n` submissions, the one of the nonce `n` last. -/
def chain : ℕ → Chain
  | 0 => genesisChain sodium
  | n + 1 => (chain n).grown ((sub n (chain n).tipHash).block sodium [])

/-- The block of the nonce `n`. -/
def blk (n : ℕ) : Block := (sub n (chain n).tipHash).block sodium []

theorem length_chain (n : ℕ) : (chain n).blocks.length = n + 1 := by
  induction n with
  | zero => rfl
  | succ n ih =>
    show ((chain n).blocks ++ [_]).length = n + 2
    rw [List.length_append, ih, List.length_singleton]

theorem head_chain (n : ℕ) : (chain n).blocks[0]? = some (genesisBlock sodium) := by
  induction n with
  | zero => rfl
  | succ n ih =>
    have hlen := length_chain n
    show ((chain n).blocks ++ [_])[0]? = _
    rw [List.getElem?_append_left (by omega), ih]

theorem accepted (n : ℕ) : Accepted sodium (chain n) (sub n (chain n).tipHash) [] where
  txids := rfl
  inPool := by simp
  count := by norm_num
  merkle := rfl
  work := by
    have htarget : (chain n).target = target₃ := by
      induction n with
      | zero => rfl
      | succ n ih => exact ih
    rw [htarget]
    apply (compare_leading_zeros_iff (blk n).hash.size_data).mpr
    show ∀ b ∈ ((blk n).header.hash sodium).data.take 3, b = 0
    rw [data_hash]
    simp
  parent := rfl

theorem reachable_chain (n : ℕ) : Reachable sodium restartInRange (chain n) := by
  induction n with
  | zero => exact .start boot_empty
  | succ n ih =>
    let payload : FramePayload := (sub n (chain n).tipHash).frame (by
      show 0 < 2 ^ 26
      norm_num)
    refine .step (i := .createBlock payload) ih trivial (congrArg Except.ok ?_)
    have ha := accepted n
    have haccept : acceptBlock sodium payload.bytes (chain n) = .ok (blk n) :=
      acceptBlock_eq_ok.mpr ⟨sub n (chain n).tipHash, [], (by norm_num : 0 < 2 ^ 32),
        List.prefix_refl _, rfl, rfl, ha.merkle, ha.work, ha.parent⟩
    rw [onCreateBlock, haccept]
    dsimp only
    rw [addBlock_nil]
    rfl

/-- The headers of the run. -/
def Made (hdr : BlockHeader) : Prop :=
  hdr = (genesisBlock sodium).header ∨ ∃ n < 2 ^ 33, hdr = (blk n).header

theorem made_of_mem {n : ℕ} (hn : n ≤ 2 ^ 33) {b : Block} (hb : b ∈ (chain n).blocks) :
    Made b.header := by
  induction n with
  | zero => exact Or.inl (congrArg Block.header (List.mem_singleton.mp hb))
  | succ n ih =>
    change b ∈ (chain n).blocks ++ [blk n] at hb
    rcases List.mem_append.mp hb with hold | hnew
    · exact ih (by omega) hold
    · exact Or.inr ⟨n, by omega, congrArg Block.header (List.mem_singleton.mp hnew)⟩

/-- The genesis block is dated later than the others. -/
theorem timestamp_ne (n : ℕ) :
    (genesisBlock sodium).header.timestamp.value ≠ (blk n).header.timestamp.value := by
  show (1781545365 : UInt64) ≠ 0
  decide

/-- Headers of the run with the same hash are the same. -/
theorem eq_of_made {hdr hdr' : BlockHeader} (h : Made hdr) (h' : Made hdr')
    (heq : hdr.hash sodium = hdr'.hash sodium) : hdr = hdr' := by
  obtain ⟨hts, hnonce⟩ := eq_of_hash_eq heq
  rcases h with rfl | ⟨n, hn, rfl⟩ <;> rcases h' with rfl | ⟨m, hm, rfl⟩
  · rfl
  · exact absurd hts (timestamp_ne m)
  · exact absurd hts.symm (timestamp_ne n)
  · have hnat := congrArg UInt64.toNat hnonce
    change (UInt64.ofNat n).toNat = (UInt64.ofNat m).toNat at hnat
    rw [UInt64.toNat_ofNat', UInt64.toNat_ofNat', Nat.mod_eq_of_lt (by omega),
      Nat.mod_eq_of_lt (by omega)] at hnat
    rw [hnat]

/-- There is no collision among the headers of the run, and no zero hash. -/
theorem noCollision_of_made {hdrs : List BlockHeader} (h : ∀ hdr ∈ hdrs, Made hdr) :
    NoCollision sodium (hdrs.map BlockHeader.bytes) ∧
      NoZeroHash sodium (hdrs.map BlockHeader.bytes) := by
  constructor
  · intro x hx y hy heq
    obtain ⟨hdr, hhdr, rfl⟩ := List.mem_map.mp hx
    obtain ⟨hdr', hhdr', rfl⟩ := List.mem_map.mp hy
    rw [eq_of_made (h hdr hhdr) (h hdr' hhdr') heq]
  · intro x hx
    obtain ⟨hdr, -, rfl⟩ := List.mem_map.mp hx
    exact hash_ne_zero hdr

/-- What a node loads that has one block more than there are keys. -/
theorem boot_wrapped {n : ℕ} (hn : n + 1 = 2 ^ 32) : ∃ c, boot sodium .ok (chain (n + 1)).blocksDb
    (chain (n + 1)).poolDb = .ok c ∧ c.blocks = (chain n).blocks.set 0 (blk n) := by
  have hbase := base_of_reachable (reachable_chain (n + 1))
  have hkept := kept_of_reachable (fun _ _ hg => hg) (reachable_chain n)
  have hfull : (chain n).blocks.length = 2 ^ 32 := (length_chain n).trans hn
  have hstored := (hkept.stored hfull.le).insert_wrap hfull (blk n)
  -- the entries of its database are those of a chain of the same length
  generalize hblks : (chain n).blocks.set 0 (blk n) = blks at hstored ⊢
  have hlen : blks.length = 2 ^ 32 := by rw [← hblks, List.length_set, hfull]
  have hgood : ∀ b ∈ blks, BlockGood sodium b := by
    intro b hb
    apply hbase.good b
    show b ∈ (chain n).blocks ++ [blk n]
    rw [← hblks] at hb
    rcases List.mem_or_eq_of_mem_set hb with hold | hnew
    · exact List.mem_append_left _ hold
    · exact List.mem_append_right _ (List.mem_singleton.mpr hnew)
  have hentries : ∀ e ∈ chainEntries blks, e.2.Storable sodium := by
    intro e he
    have hmem := List.mem_map_of_mem (f := Prod.snd) he
    rw [map_snd_chainEntries] at hmem
    exact (hgood _ hmem).storable
  have hne : chainEntries blks ≠ [] := by
    intro hnil
    have hsnd := congrArg List.length (map_snd_chainEntries blks)
    rw [hnil, hlen] at hsnd
    cases hsnd
  obtain ⟨poolSpent, -, hboot⟩ := boot_stored (hstored.toList_eq hlen.le) hentries hne
    hbase.pool.good hbase.pool.stored .ok
  exact ⟨_, hboot, map_snd_chainEntries _⟩

end Rewind

/-- **Two chains with one tip.**  A node with `2 ^ 32` blocks, and one that restarted with
one more, have the same tip hash, and different first headers.  The position of the one
more block is out of the range of the search. -/
theorem tipHash_rewind : (∃ c c' : Chain, Reachable Rewind.sodium anyOp c ∧
      Reachable Rewind.sodium anyOp c' ∧
      NoCollision Rewind.sodium (headerStrings c ++ headerStrings c') ∧
      NoZeroHash Rewind.sodium (headerStrings c ++ headerStrings c') ∧
      c.tipHash = c'.tipHash ∧ c.headers ≠ c'.headers) ∧
    ∃ (c : Chain) (blk : Block), Reachable Rewind.sodium anyOp c ∧
      NoCollision Rewind.sodium (headerStrings c) ∧ NoZeroHash Rewind.sodium (headerStrings c) ∧
      c.blocks[2 ^ 32]? = some blk ∧ ∀ (fuel : ℕ) (i : UInt32) (blk' : Block),
        c.getBlockByHash blk.hash fuel = some (some (i, blk')) → i.toNat ≠ 2 ^ 32 := by
  obtain ⟨n, hn⟩ : ∃ n, n + 1 = 2 ^ 32 := ⟨2 ^ 32 - 1, by norm_num⟩
  obtain ⟨c', hboot, hblocks⟩ := Rewind.boot_wrapped hn
  have hlen := Rewind.length_chain n
  have hreach : ∀ m, Reachable Rewind.sodium anyOp (Rewind.chain m) :=
    fun m => (Rewind.reachable_chain m).mono fun _ _ _ => trivial
  have hnext : (Rewind.chain (n + 1)).blocks = (Rewind.chain n).blocks ++ [Rewind.blk n] := rfl
  have hmade : ∀ hdr ∈ (Rewind.chain (n + 1)).headers, Rewind.Made hdr := by
    intro hdr hhdr
    obtain ⟨b, hb, rfl⟩ := List.mem_map.mp hhdr
    exact Rewind.made_of_mem (n := n + 1) (by omega) hb
  have hboth : ∀ hdr ∈ (Rewind.chain n).headers ++ c'.headers, Rewind.Made hdr := by
    intro hdr hhdr
    rw [Chain.headers, Chain.headers, ← List.map_append] at hhdr
    obtain ⟨b, hb, rfl⟩ := List.mem_map.mp hhdr
    refine hmade _ (List.mem_map_of_mem ?_)
    rw [hblocks] at hb
    rw [hnext]
    rcases List.mem_append.mp hb with hold | hnew
    · exact List.mem_append_left _ hold
    · rcases List.mem_or_eq_of_mem_set hnew with hold | hlast
      · exact List.mem_append_left _ hold
      · exact List.mem_append_right _ (List.mem_singleton.mpr hlast)
  obtain ⟨hcol, hzero⟩ := Rewind.noCollision_of_made hboth
  rw [List.map_append] at hcol hzero
  obtain ⟨hcolNext, hzeroNext⟩ := Rewind.noCollision_of_made hmade
  refine ⟨⟨Rewind.chain n, c', hreach n, .step (i := .restart) (hreach (n + 1)) trivial hboot,
    hcol, hzero, ?_, ?_⟩, Rewind.chain (n + 1), Rewind.blk n, hreach (n + 1), hcolNext, hzeroNext,
    ?_, fun _ i _ _ => i.toNat_lt.ne⟩
  · -- the last block is not the first one
    rw [Chain.tipHash, Chain.tipHash, hblocks, List.getLast?_eq_getElem?,
      List.getLast?_eq_getElem?, List.length_set, List.getElem?_set_ne (by omega)]
  · intro heq
    have hfirst := congrArg (fun hdrs : List BlockHeader => hdrs[0]?) heq
    change ((Rewind.chain n).blocks.map _)[0]? = (c'.blocks.map _)[0]? at hfirst
    rw [hblocks, List.getElem?_map, List.getElem?_map, List.getElem?_set_self (by omega),
      Rewind.head_chain] at hfirst
    have hts := congrArg BlockHeader.timestamp (Option.some.inj hfirst)
    exact Rewind.timestamp_ne n (congrArg Timestamp.value hts)
  · rw [hnext, ← hn, ← hlen, List.getElem?_concat_length]

end Axis
