import Axis.Uniqueness

/-!
# What hashes commit to

The bytes hashed for a txid are the inputs, the outputs and the timestamp without
the two counts, and an input is 36 bytes long, an output 28.  Seven inputs therefore
read as nine outputs.  The Merkle root of a block pads a level of odd length with a
copy of its last node, so that a list of references and a longer one can have the
same root.

## Main definitions

* `Binding` — a transaction is the only one with its hashed bytes.
* `MerkleTwins` — different lists of leaves that the padding turns into one tree.

## Main results

* `binding_iff` — **a txid commits to a transaction of fewer than seven inputs and
  fewer than nine outputs**, and to no other.
* `computeMerkleRoot_eq_iff` — **a Merkle root binds a list of leaves without repeats.**
* `build_eq_of_root` — the Merkle root determines the padded tree.
* `hash_commits_iff` — **a block hash commits to the transactions of a block except
  for Merkle twins.**
* `transactions_eq_of_hash` — in particular, for blocks without repeated references.
-/

namespace Axis

open Positional PrefixCode

/-! ### The bytes of a txid -/

/-- Bytes are the encoding of as many items as fit in them, when every string of the
size of an item is one. -/
theorem exists_flatMap_eq {α : Type} {enc : α → Bytes} {w : ℕ}
    (hsurj : ∀ bs : Bytes, bs.length = w → ∃ a, enc a = bs) {k : ℕ} {bs : Bytes}
    (hlen : bs.length = w * k) : ∃ l : List α, l.length = k ∧ l.flatMap enc = bs := by
  induction k generalizing bs with
  | zero =>
    rw [Nat.mul_zero] at hlen
    exact ⟨[], rfl, (List.length_eq_zero_iff.mp hlen).symm⟩
  | succ k ih =>
    rw [Nat.mul_succ] at hlen
    obtain ⟨a, ha⟩ := hsurj (bs.take w) (by rw [List.length_take]; omega)
    have hdrop : (bs.drop w).length = w * k := by rw [List.length_drop]; omega
    obtain ⟨l, hl, hbs⟩ := ih hdrop
    refine ⟨a :: l, by rw [List.length_cons, hl], ?_⟩
    rw [List.flatMap_cons, ha, hbs, List.take_append_drop]

/-- Any 36 bytes are an input. -/
theorem exists_outPoint_bytes {bs : Bytes} (h : bs.length = 36) :
    ∃ op : OutPoint, op.bytes = bs := by
  have hdrop : (bs.drop 32).length = 4 := by rw [List.length_drop, h]
  have htake : (bs.take 32).length = 32 := by rw [List.length_take, h]; rfl
  have hlt := ofLe_lt (bs.drop 32)
  rw [hdrop] at hlt
  refine ⟨⟨U8Array.ofBytes 32 (bs.take 32), UInt32.ofNat (ofLe (bs.drop 32))⟩, ?_⟩
  rw [OutPoint.bytes, U8Array.data_ofBytes htake, UInt32.toNat_ofNat',
    Nat.mod_eq_of_lt (by omega), ← hdrop, leBytes_ofLe, List.take_append_drop]

/-- Any 28 bytes are an output. -/
theorem exists_txOutput_bytes {bs : Bytes} (h : bs.length = 28) :
    ∃ out : TxOutput, out.bytes = bs := by
  have hdrop : (bs.drop 20).length = 8 := by rw [List.length_drop, h]
  have htake : (bs.take 20).length = 20 := by rw [List.length_take, h]; rfl
  have hlt := ofLe_lt (bs.drop 20)
  rw [hdrop] at hlt
  refine ⟨⟨U8Array.ofBytes 20 (bs.take 20), UInt64.ofNat (ofLe (bs.drop 20))⟩, ?_⟩
  rw [TxOutput.bytes, U8Array.data_ofBytes htake, UInt64.toNat_ofNat',
    Nat.mod_eq_of_lt (by omega), ← hdrop, leBytes_ofLe, List.take_append_drop]

/-- With the counts given, the hashed bytes determine the transaction. -/
theorem preimage_inj_of_length {ins ins' : List OutPoint} {outs outs' : List TxOutput}
    {ts ts' : Timestamp} (hin : ins.length = ins'.length) (hout : outs.length = outs'.length)
    (h : Transaction.preimage ins outs ts = Transaction.preimage ins' outs' ts') :
    ins = ins' ∧ outs = outs' ∧ ts = ts' := by
  rw [Transaction.preimage_eq, Transaction.preimage_eq] at h
  obtain ⟨hins, hrest⟩ := (Transaction.codeOutPoint.many ins'.length).prefix_free
    ⟨hin, fun _ _ => trivial⟩ ⟨rfl, fun _ _ => trivial⟩ h
  obtain ⟨houts, hts⟩ := (Transaction.codeTxOutput.many outs'.length).prefix_free
    ⟨hout, fun _ _ => trivial⟩ ⟨rfl, fun _ _ => trivial⟩ hrest
  have hnat := leBytes_injOn (w := 8) ts.value.toNat_lt ts'.value.toNat_lt hts
  exact ⟨hins, houts, Timestamp.ext (UInt64.toNat_inj.mp hnat)⟩

/-- Seven inputs read as nine outputs. -/
theorem exists_preimage_of_inputs {ins : List OutPoint} (h : 7 ≤ ins.length)
    (outs : List TxOutput) (ts : Timestamp) : ∃ ins' outs',
      Transaction.preimage ins outs ts = Transaction.preimage ins' outs' ts ∧ ins ≠ ins' := by
  -- the bytes of the last seven inputs are cut into nine pieces
  have hlast : (ins.drop (ins.length - 7)).length = 7 := by rw [List.length_drop]; omega
  have hsize : ((ins.drop (ins.length - 7)).flatMap OutPoint.bytes).length = 28 * 9 := by
    rw [length_flatMap_of_const OutPoint.length_bytes, hlast]
  obtain ⟨outs', -, hbytes⟩ := exists_flatMap_eq (fun _ => exists_txOutput_bytes) hsize
  have hsplit : ins.flatMap OutPoint.bytes = (ins.take (ins.length - 7)).flatMap OutPoint.bytes ++
      (ins.drop (ins.length - 7)).flatMap OutPoint.bytes := by
    rw [← List.flatMap_append, List.take_append_drop]
  refine ⟨ins.take (ins.length - 7), outs' ++ outs, ?_, ?_⟩
  · rw [Transaction.preimage_eq, Transaction.preimage_eq, List.flatMap_append, hbytes, hsplit,
      List.append_assoc, List.append_assoc]
  · intro heq
    have hlen := congrArg List.length heq
    rw [List.length_take] at hlen
    omega

/-- Nine outputs read as seven inputs. -/
theorem exists_preimage_of_outputs {outs : List TxOutput} (h : 9 ≤ outs.length)
    (ins : List OutPoint) (ts : Timestamp) : ∃ ins' outs',
      Transaction.preimage ins outs ts = Transaction.preimage ins' outs' ts ∧ ins ≠ ins' := by
  -- the bytes of the first nine outputs are cut into seven pieces
  have hfirst : (outs.take 9).length = 9 := by rw [List.length_take]; omega
  have hsize : ((outs.take 9).flatMap TxOutput.bytes).length = 36 * 7 := by
    rw [length_flatMap_of_const TxOutput.length_bytes, hfirst]
  obtain ⟨ins', hlen', hbytes⟩ := exists_flatMap_eq (fun _ => exists_outPoint_bytes) hsize
  have hsplit : outs.flatMap TxOutput.bytes =
      (outs.take 9).flatMap TxOutput.bytes ++ (outs.drop 9).flatMap TxOutput.bytes := by
    rw [← List.flatMap_append, List.take_append_drop]
  refine ⟨ins ++ ins', outs.drop 9, ?_, ?_⟩
  · rw [Transaction.preimage_eq, Transaction.preimage_eq, List.flatMap_append, hbytes, hsplit,
      List.append_assoc, List.append_assoc]
  · intro heq
    have hlen := congrArg List.length heq
    rw [List.length_append, hlen'] at hlen
    omega

/-- The fields are the only ones with their hashed bytes; and, when these collide with
no others, the only ones that a signature over the txid authorises. -/
structure Binding (S : Sodium) (ins : List OutPoint) (outs : List TxOutput) (ts : Timestamp) :
    Prop where
  preimage : ∀ ins' outs' ts',
    Transaction.preimage ins outs ts = Transaction.preimage ins' outs' ts' →
      ins = ins' ∧ outs = outs' ∧ ts = ts'
  signature : ∀ (pk : PublicKey) (sig : Signature) ins' outs' ts',
    NoCollision S [Transaction.preimage ins outs ts, Transaction.preimage ins' outs' ts'] →
      verifySig S pk (Transaction.new S ins outs ts).txid sig = true →
      (Transaction.new S ins' outs' ts').txid = (Transaction.new S ins outs ts).txid →
      ins = ins' ∧ outs = outs' ∧ ts = ts'

/-- **What a txid commits to**: exactly the transactions of fewer than seven inputs and
fewer than nine outputs are the only ones with their hashed bytes. -/
theorem binding_iff (S : Sodium) (ins : List OutPoint) (outs : List TxOutput) (ts : Timestamp) :
    Binding S ins outs ts ↔ ins.length < 7 ∧ outs.length < 9 := by
  constructor
  · intro hbind
    by_contra hmany
    rw [not_and_or, not_lt, not_lt] at hmany
    rcases hmany with hin | hout
    · obtain ⟨ins', outs', heq, hne⟩ := exists_preimage_of_inputs hin outs ts
      exact hne (hbind.preimage ins' outs' ts heq).1
    · obtain ⟨ins', outs', heq, hne⟩ := exists_preimage_of_outputs hout ins ts
      exact hne (hbind.preimage ins' outs' ts heq).1
  · rintro ⟨hin, hout⟩
    have hpreimage : ∀ ins' outs' ts',
        Transaction.preimage ins outs ts = Transaction.preimage ins' outs' ts' →
        ins = ins' ∧ outs = outs' ∧ ts = ts' := by
      intro ins' outs' ts' heq
      have hlen := congrArg List.length heq
      rw [Transaction.length_preimage, Transaction.length_preimage] at hlen
      -- the counts differ by multiples of seven and nine, if at all
      exact preimage_inj_of_length (by omega) (by omega) heq
    refine ⟨hpreimage, ?_⟩
    intro pk sig ins' outs' ts' hcoll _ htxid
    apply hpreimage ins' outs' ts'
    exact hcoll _ (by simp) _ (by simp) htxid.symm

/-- Inputs and outputs that are bytes of ones. -/
def Sample.ins (n : ℕ) : List OutPoint := List.replicate n ⟨U8Array.fill 32 1, 0x01010101⟩

def Sample.outs (n : ℕ) : List TxOutput := List.replicate n ⟨U8Array.fill 20 1, 0x0101010101010101⟩

/-- **A txid of two transactions**: eight inputs and an output, or an input and ten
outputs. -/
theorem txid_ambiguous :
    let tx := Transaction.new Sample.sodium (Sample.ins 8) (Sample.outs 1) ⟨0⟩
    let tx' := Transaction.new Sample.sodium (Sample.ins 1) (Sample.outs 10) ⟨0⟩
    tx.hashed = tx'.hashed ∧ tx.txid = tx'.txid ∧ tx.inputs ≠ tx'.inputs ∧
      tx.outputs ≠ tx'.outputs := by
  have hhashed : Transaction.preimage (Sample.ins 8) (Sample.outs 1) ⟨0⟩ =
      Transaction.preimage (Sample.ins 1) (Sample.outs 10) ⟨0⟩ := by decide +kernel
  exact ⟨hhashed, congrArg (blake2b Sample.sodium) hhashed, by decide, by decide⟩

/-! ### The hash of a block -/

variable {S : Sodium}

/-- Different lists of leaves that the padding turns into one tree. -/
def MerkleTwins (leaves leaves' : List Hash) : Prop :=
  leaves ≠ leaves' ∧ MerkleTree.build (U8Array.fill 32 0) leaves =
    MerkleTree.build (U8Array.fill 32 0) leaves'

/-- The byte strings hashed to make a block. -/
def Block.hashed (S : Sodium) (blk : Block) : List Bytes :=
  blk.header.bytes :: (merklePreimages S (blk.transactions.map Transaction.txid) ++
    blk.transactions.map Transaction.hashed)

/-- Twins have the same Merkle root. -/
theorem MerkleTwins.root_eq {leaves leaves' : List Hash} (h : MerkleTwins leaves leaves') :
    computeMerkleRoot S leaves = computeMerkleRoot S leaves' := by
  rw [computeMerkleRoot, computeMerkleRoot, ← MerkleTree.eval_build, ← MerkleTree.eval_build, h.2]

/-- Without collisions among the pairs that are combined, the Merkle root determines the
padded tree over leaves that are no inner nodes. -/
theorem build_eq_of_leaves {leaves leaves' : List Hash} (hne : leaves ≠ []) (hne' : leaves' ≠ [])
    (hcoll : NoCollision S (merklePreimages S leaves ++ merklePreimages S leaves'))
    (hleaf : ∀ leaf ∈ leaves ++ leaves',
      ∀ x ∈ merklePreimages S leaves ++ merklePreimages S leaves', leaf ≠ blake2b S x)
    (hroot : computeMerkleRoot S leaves = computeMerkleRoot S leaves') :
    MerkleTree.build (U8Array.fill 32 0) leaves = MerkleTree.build (U8Array.fill 32 0) leaves' := by
  let N := MerkleTree.combined (combineHash S) leaves.length leaves ++
    MerkleTree.combined (combineHash S) leaves'.length leaves'
  have hnode : ∀ p ∈ N, combinePreimage p.1 p.2 ∈
      merklePreimages S leaves ++ merklePreimages S leaves' := by
    intro p hp
    rcases List.mem_append.mp hp with hp | hp
    · exact List.mem_append_left _ (List.mem_map.mpr ⟨p, hp, rfl⟩)
    · exact List.mem_append_right _ (List.mem_map.mpr ⟨p, hp, rfl⟩)
  have hinj : ∀ p ∈ N, ∀ q ∈ N, combineHash S p.1 p.2 = combineHash S q.1 q.2 → p = q := by
    intro p hp q hq heq
    obtain ⟨h₁, h₂⟩ := combinePreimage_inj (hcoll _ (hnode p hp) _ (hnode q hq) heq)
    exact Prod.ext h₁ h₂
  refine MerkleTree.Tree.eval_injOn hinj ?_ ?_ ?_ ?_
  · exact fun p hp => List.mem_append_left _ (MerkleTree.nodePairs_build _ _ hne hp)
  · exact fun p hp => List.mem_append_right _ (MerkleTree.nodePairs_build _ _ hne' hp)
  · -- the leaves of either tree are those of its list
    intro a ha p hp
    obtain ⟨e, hl, he⟩ := MerkleTree.leaves_build (U8Array.fill 32 0) hne
    obtain ⟨e', hl', he'⟩ := MerkleTree.leaves_build (U8Array.fill 32 0) hne'
    rw [hl, hl'] at ha
    refine hleaf a (List.mem_append.mpr ?_) _ (hnode p hp)
    rcases List.mem_append.mp ha with h | h
    · exact Or.inl ((List.mem_append.mp h).elim id fun h => he h)
    · exact Or.inr ((List.mem_append.mp h).elim id fun h => he' h)
  · rw [MerkleTree.eval_build, MerkleTree.eval_build]
    exact hroot

/-- **Merkle roots bind lists of leaves without repeats.**  No leaf is an inner node, and
the pairs that are combined for the two roots have no collision. -/
theorem computeMerkleRoot_eq_iff {leaves leaves' : List Hash} (hne : leaves ≠ [])
    (hne' : leaves' ≠ []) (hnodup : leaves.Nodup) (hnodup' : leaves'.Nodup)
    (hleaf : ∀ leaf ∈ leaves ++ leaves',
      ∀ x ∈ merklePreimages S leaves ++ merklePreimages S leaves', leaf ≠ blake2b S x)
    (hcoll : NoCollision S (merklePreimages S leaves ++ merklePreimages S leaves')) :
    computeMerkleRoot S leaves = computeMerkleRoot S leaves' ↔ leaves = leaves' := by
  constructor
  · intro hroot
    exact MerkleTree.build_injOn_nodup hne hne' hnodup hnodup'
      (build_eq_of_leaves hne hne' hcoll hleaf hroot)
  · exact congrArg (computeMerkleRoot S)

/-- The leaves of the third block of the sample run, and all but the last of them. -/
theorem computeMerkleRoot_eq_iff_block₃ :
    computeMerkleRoot Sample.sodium [Sample.cb₃, Sample.tx₁, Sample.tx₂] = Sample.merkle₃ ∧
    (computeMerkleRoot Sample.sodium [Sample.cb₃, Sample.tx₁, Sample.tx₂] =
      computeMerkleRoot Sample.sodium [Sample.cb₃, Sample.tx₁] ↔
        [Sample.cb₃, Sample.tx₁, Sample.tx₂] = [Sample.cb₃, Sample.tx₁]) :=
  ⟨by decide +kernel, computeMerkleRoot_eq_iff (by decide) (by decide) (by decide) (by decide)
    (by decide +kernel) (by decide +kernel)⟩

/-- **Without collisions, the Merkle root determines the padded tree.**  A txid is no
inner node, because no transaction hashes 64 bytes. -/
theorem build_eq_of_root {txs txs' : List Transaction} (hne : txs ≠ []) (hne' : txs' ≠ [])
    (hc : ∀ tx ∈ txs ++ txs', tx.Constructed S)
    (hlen : ∀ tx ∈ txs ++ txs', tx.hashed.length ≠ 64)
    (hcoll : NoCollision S ((merklePreimages S (txs.map Transaction.txid) ++
      txs.map Transaction.hashed) ++ (merklePreimages S (txs'.map Transaction.txid) ++
      txs'.map Transaction.hashed)))
    (hroot : computeMerkleRoot S (txs.map Transaction.txid) =
      computeMerkleRoot S (txs'.map Transaction.txid)) :
    MerkleTree.build (U8Array.fill 32 0) (txs.map Transaction.txid) =
      MerkleTree.build (U8Array.fill 32 0) (txs'.map Transaction.txid) := by
  have hpre : ∀ x ∈ merklePreimages S (txs.map Transaction.txid) ++
      merklePreimages S (txs'.map Transaction.txid),
      x ∈ (merklePreimages S (txs.map Transaction.txid) ++ txs.map Transaction.hashed) ++
        (merklePreimages S (txs'.map Transaction.txid) ++ txs'.map Transaction.hashed) := by
    intro x hx
    rcases List.mem_append.mp hx with h | h
    · exact List.mem_append_left _ (List.mem_append_left _ h)
    · exact List.mem_append_right _ (List.mem_append_left _ h)
  refine build_eq_of_leaves (by simpa using hne) (by simpa using hne') (hcoll.mono hpre) ?_ hroot
  -- a leaf is the hash of a string of another length
  intro leaf hmem x hx heq
  rw [← List.map_append] at hmem
  obtain ⟨tx, htx, rfl⟩ := List.mem_map.mp hmem
  have hhashed : tx.hashed ∈ (merklePreimages S (txs.map Transaction.txid) ++
      txs.map Transaction.hashed) ++ (merklePreimages S (txs'.map Transaction.txid) ++
      txs'.map Transaction.hashed) := by
    rcases List.mem_append.mp htx with h | h
    · exact List.mem_append_left _ (List.mem_append_right _ (List.mem_map_of_mem h))
    · exact List.mem_append_right _ (List.mem_append_right _ (List.mem_map_of_mem h))
  rw [(hc tx htx).txid] at heq
  have hbytes := hcoll _ hhashed _ (hpre x hx) heq
  -- the strings combined for an inner node have 64 bytes
  have h64 : x.length = 64 := by
    rcases List.mem_append.mp hx with h | h
    · obtain ⟨p, -, rfl⟩ := List.mem_map.mp h
      exact length_combinePreimage _ _
    · obtain ⟨p, -, rfl⟩ := List.mem_map.mp h
      exact length_combinePreimage _ _
  exact hlen tx htx (by rw [hbytes, h64])

/-- No transaction of an accepted block hashes as many bytes as an inner node. -/
theorem Accepted.length_hashed_ne {c : Chain} (hgood : PoolGood S c.pool) {sub : BlockSubmission}
    {refs : List Transaction} (ha : Accepted S c sub refs) :
    ∀ tx ∈ (sub.block S refs).transactions, tx.hashed.length ≠ 64 := by
  intro tx htx
  rcases List.mem_cons.mp htx with rfl | href
  · rw [sub.length_hashed_coinbase]
    norm_num
  · exact (ha.lt_length_hashed hgood href).ne'

/-- Accepted blocks over one pool with the same txids have the same transactions. -/
theorem transactions_eq_of_txids {c : Chain} {sub sub' : BlockSubmission}
    {refs refs' : List Transaction} (ha : Accepted S c sub refs) (ha' : Accepted S c sub' refs')
    (hcoll : NoCollision S ((sub.block S refs).hashed S ++ (sub'.block S refs').hashed S))
    (h : (sub.block S refs).transactions.map Transaction.txid =
      (sub'.block S refs').transactions.map Transaction.txid) :
    (sub.block S refs).transactions = (sub'.block S refs').transactions := by
  obtain ⟨hcb, hrefs⟩ := List.cons.inj h
  have hrefs : refs = refs' := by
    have hresolve := resolve_map_txid ha.inPool
    rw [hrefs, resolve_map_txid ha'.inPool] at hresolve
    exact (Option.some.inj hresolve).symm
  have hbytes : (sub.coinbase S).hashed = (sub'.coinbase S).hashed := by
    refine hcoll _ ?_ _ ?_ hcb
    · exact List.mem_append_left _
        (List.mem_cons_of_mem _ (List.mem_append_right _ List.mem_cons_self))
    · exact List.mem_append_right _
        (List.mem_cons_of_mem _ (List.mem_append_right _ List.mem_cons_self))
  obtain ⟨hout, hts⟩ := coinbase_of_hashed (show (sub.coinbase S).inputs = [] from rfl)
    (show (sub'.coinbase S).inputs = [] from rfl) rfl rfl hbytes
  have hcoinbase : sub.coinbase S = sub'.coinbase S := by
    have hts' : sub.cbTimestamp = sub'.cbTimestamp := hts
    rw [BlockSubmission.coinbase, BlockSubmission.coinbase, hout, hts']
  show sub.coinbase S :: refs = sub'.coinbase S :: refs'
  rw [hcoinbase, hrefs]

/-- The txids of an accepted block are those of its submission. -/
theorem Accepted.map_txid {c : Chain} {sub : BlockSubmission} {refs : List Transaction}
    (ha : Accepted S c sub refs) : (sub.block S refs).transactions.map Transaction.txid =
      (sub.coinbase S).txid :: sub.txids := by
  rw [ha.txids]
  rfl

/-- Accepted blocks with equal hashes and different transactions are made of twins. -/
theorem twins_of_hash {c : Chain} (hgood : PoolGood S c.pool) {sub sub' : BlockSubmission}
    {refs refs' : List Transaction} (ha : Accepted S c sub refs) (ha' : Accepted S c sub' refs')
    (hcoll : NoCollision S ((sub.block S refs).hashed S ++ (sub'.block S refs').hashed S))
    (hhash : (sub.block S refs).hash = (sub'.block S refs').hash)
    (hne : (sub.block S refs).transactions ≠ (sub'.block S refs').transactions) :
    sub.timestamp = sub'.timestamp ∧ sub.nonce = sub'.nonce ∧
      MerkleTwins ((sub.coinbase S).txid :: sub.txids)
        ((sub'.coinbase S).txid :: sub'.txids) := by
  -- equal hashes are those of one header, and so of one Merkle root
  have hbytes := hcoll _ (List.mem_append_left _ List.mem_cons_self) _
    (List.mem_append_right _ List.mem_cons_self) hhash
  have hheader := BlockHeader.bytes_inj hbytes
  have hroot : computeBlockMerkleRoot S (sub.block S refs).transactions =
      computeBlockMerkleRoot S (sub'.block S refs').transactions :=
    congrArg BlockHeader.merkleRoot hheader
  refine ⟨congrArg BlockHeader.timestamp hheader, congrArg BlockHeader.nonce hheader, ?_⟩
  rw [← ha.map_txid, ← ha'.map_txid]
  refine ⟨fun heq => hne (transactions_eq_of_txids ha ha' hcoll heq), ?_⟩
  refine build_eq_of_root (List.cons_ne_nil _ _) (List.cons_ne_nil _ _) ?_ ?_ ?_ hroot
  · intro tx htx
    rcases List.mem_append.mp htx with h | h
    · exact ha.constructed hgood tx h
    · exact ha'.constructed hgood tx h
  · intro tx htx
    rcases List.mem_append.mp htx with h | h
    · exact ha.length_hashed_ne hgood tx h
    · exact ha'.length_hashed_ne hgood tx h
  · apply hcoll.mono
    intro x hx
    rcases List.mem_append.mp hx with h | h
    · exact List.mem_append_left _ (List.mem_cons_of_mem _ h)
    · exact List.mem_append_right _ (List.mem_cons_of_mem _ h)

/-- Accepted blocks made of twins, with one timestamp and nonce, have the same hash. -/
theorem hash_eq_of_twins {c : Chain} {sub sub' : BlockSubmission} {refs refs' : List Transaction}
    (ha : Accepted S c sub refs) (ha' : Accepted S c sub' refs')
    (hts : sub.timestamp = sub'.timestamp) (hnonce : sub.nonce = sub'.nonce)
    (htwins : MerkleTwins ((sub.coinbase S).txid :: sub.txids)
      ((sub'.coinbase S).txid :: sub'.txids)) :
    (sub.block S refs).hash = (sub'.block S refs').hash := by
  have hroot : computeBlockMerkleRoot S (sub.block S refs).transactions =
      computeBlockMerkleRoot S (sub'.block S refs').transactions := by
    rw [computeBlockMerkleRoot, computeBlockMerkleRoot, ha.map_txid, ha'.map_txid]
    exact htwins.root_eq
  show BlockHeader.hash S ⟨sub.prevHash, computeBlockMerkleRoot S
    (sub.block S refs).transactions, sub.timestamp, sub.nonce⟩ = BlockHeader.hash S
    ⟨sub'.prevHash, computeBlockMerkleRoot S (sub'.block S refs').transactions,
      sub'.timestamp, sub'.nonce⟩
  rw [ha.parent, ha'.parent, hroot, hts, hnonce]

/-- **What a block hash commits to.**  Two blocks accepted in one state that have the
same hash have the same transactions, except when their submissions agree on the
timestamp and the nonce and their lists of txids are Merkle twins. -/
theorem hash_commits_iff {c : Chain} (h : Reachable S anyOp c) (payload payload' : FramePayload)
    {blk blk' : Block} (haccept : acceptBlock S payload.bytes c = .ok blk)
    (haccept' : acceptBlock S payload'.bytes c = .ok blk') {sub sub' : BlockSubmission}
    (hsub : submission payload.bytes = some sub) (hsub' : submission payload'.bytes = some sub')
    (hcoll : NoCollision S (blk.hashed S ++ blk'.hashed S)) :
    (blk.hash = blk'.hash → blk.transactions = blk'.transactions) ↔
      ¬ (sub.timestamp = sub'.timestamp ∧ sub.nonce = sub'.nonce ∧
        MerkleTwins ((sub.coinbase S).txid :: sub.txids)
          ((sub'.coinbase S).txid :: sub'.txids)) := by
  have hgood := (base_of_reachable h).pool.good
  obtain ⟨_, refs, hs, rfl, ha⟩ := accepted_of_acceptBlock hgood payload.fits haccept
  obtain ⟨_, refs', hs', rfl, ha'⟩ := accepted_of_acceptBlock hgood payload'.fits haccept'
  rw [hsub] at hs
  rw [hsub'] at hs'
  cases Option.some.inj hs
  cases Option.some.inj hs'
  constructor
  · rintro hcommit ⟨hts, hnonce, htwins⟩
    apply htwins.1
    rw [← ha.map_txid, ← ha'.map_txid, hcommit (hash_eq_of_twins ha ha' hts hnonce htwins)]
  · intro hnot hhash
    by_contra hne
    exact hnot (twins_of_hash hgood ha ha' hcoll hhash hne)

/-- A run of any operations reaches a state that accepts either of two blocks. -/
theorem exists_accepted_both (ops : List Op) (payload payload' : FramePayload)
    (P : Block → Block → Prop)
    (hok : Transition.Ok (fun c => Transition.Ok (fun blk => Transition.Ok (P blk)
      (acceptBlock S payload'.bytes c)) (acceptBlock S payload.bytes c)) (run S ops)) :
    ∃ c blk blk', run S ops = .ok c ∧ Reachable S anyOp c ∧
      acceptBlock S payload.bytes c = .ok blk ∧ acceptBlock S payload'.bytes c = .ok blk' ∧
      P blk blk' := by
  obtain ⟨c, blk, hrun, hreach, hblk, haccept⟩ := exists_accepted ops payload _ hok
  obtain ⟨blk', hblk', hP⟩ := Transition.ok_iff.mp haccept
  exact ⟨c, blk, blk', hrun, hreach, hblk, hblk', hP⟩

/-- The third block of the sample run, and the one with a repeated reference. -/
theorem accepted_repetition : ∃ c blk blk', run Sample.sodium Sample.setup = .ok c ∧
    Reachable Sample.sodium anyOp c ∧
    acceptBlock Sample.sodium Sample.submission₃.bytes c = .ok blk ∧
    acceptBlock Sample.sodium Sample.repetition₃.bytes c = .ok blk' ∧
    NoCollision Sample.sodium (blk.hashed Sample.sodium ++ blk'.hashed Sample.sodium) ∧
    blk.hash = blk'.hash ∧ blk.transactions.length = 3 ∧ blk'.transactions.length = 4 :=
  exists_accepted_both Sample.setup Sample.submission₃ Sample.repetition₃ (fun blk blk' =>
    NoCollision Sample.sodium (blk.hashed Sample.sodium ++ blk'.hashed Sample.sodium) ∧
    blk.hash = blk'.hash ∧ blk.transactions.length = 3 ∧ blk'.transactions.length = 4)
    (by decide +kernel)

/-- The equivalence for these two blocks. -/
theorem hash_commits_setup : ∃ c blk blk', run Sample.sodium Sample.setup = .ok c ∧
    acceptBlock Sample.sodium Sample.submission₃.bytes c = .ok blk ∧
    acceptBlock Sample.sodium Sample.repetition₃.bytes c = .ok blk' ∧
    let sub := Sample.block₃ [Sample.tx₁, Sample.tx₂]
    let sub' := Sample.block₃ [Sample.tx₁, Sample.tx₂, Sample.tx₂]
    ((blk.hash = blk'.hash → blk.transactions = blk'.transactions) ↔
      ¬ (sub.timestamp = sub'.timestamp ∧ sub.nonce = sub'.nonce ∧
        MerkleTwins ((sub.coinbase Sample.sodium).txid :: sub.txids)
          ((sub'.coinbase Sample.sodium).txid :: sub'.txids))) := by
  obtain ⟨c, blk, blk', hrun, hreach, haccept, haccept', hcoll, -⟩ := accepted_repetition
  have hsub : submission Sample.submission₃.bytes =
      some (Sample.block₃ [Sample.tx₁, Sample.tx₂]) :=
    BlockSubmission.submission_frame _ (by decide)
  have hsub' : submission Sample.repetition₃.bytes =
      some (Sample.block₃ [Sample.tx₁, Sample.tx₂, Sample.tx₂]) :=
    BlockSubmission.submission_frame _ (by decide)
  exact ⟨c, blk, blk', hrun, haccept, haccept',
    hash_commits_iff hreach _ _ haccept haccept' hsub hsub' hcoll⟩

/-- **Two blocks with one hash**: repeating the last reference of the third block does
not change the padded tree. -/
theorem hash_ambiguous : ∃ c blk blk', run Sample.sodium Sample.setup = .ok c ∧
    Reachable Sample.sodium anyOp c ∧
    acceptBlock Sample.sodium Sample.submission₃.bytes c = .ok blk ∧
    acceptBlock Sample.sodium Sample.repetition₃.bytes c = .ok blk' ∧
    NoCollision Sample.sodium (blk.hashed Sample.sodium ++ blk'.hashed Sample.sodium) ∧
    blk.hash = blk'.hash ∧ blk.transactions ≠ blk'.transactions := by
  obtain ⟨c, blk, blk', hrun, hreach, haccept, haccept', hcoll, hhash, hlen, hlen'⟩ :=
    accepted_repetition
  refine ⟨c, blk, blk', hrun, hreach, haccept, haccept', hcoll, hhash, fun heq => ?_⟩
  rw [heq, hlen'] at hlen
  omega

/-- The txids of an accepted block without repeated references are distinct. -/
theorem Accepted.nodup_txids {c : Chain} (hgood : PoolGood S c.pool) {sub : BlockSubmission}
    {refs : List Transaction} (ha : Accepted S c sub refs)
    (hcoll : NoCollision S ((sub.block S refs).transactions.map Transaction.hashed))
    (hnodup : sub.txids.Nodup) : ((sub.coinbase S).txid :: sub.txids).Nodup := by
  rw [List.nodup_cons]
  refine ⟨?_, hnodup⟩
  rw [ha.txids]
  exact ha.coinbase_notMem_refs hgood hcoll

/-- **Without repeated references, a block hash commits to the transactions.** -/
theorem transactions_eq_of_hash {c : Chain} (hgood : PoolGood S c.pool)
    {sub sub' : BlockSubmission} {refs refs' : List Transaction} (ha : Accepted S c sub refs)
    (ha' : Accepted S c sub' refs')
    (hcoll : NoCollision S ((sub.block S refs).hashed S ++ (sub'.block S refs').hashed S))
    (hnodup : sub.txids.Nodup) (hnodup' : sub'.txids.Nodup)
    (hhash : (sub.block S refs).hash = (sub'.block S refs').hash) :
    (sub.block S refs).transactions = (sub'.block S refs').transactions := by
  by_contra hne
  obtain ⟨-, -, hdiff, hbuild⟩ := twins_of_hash hgood ha ha' hcoll hhash hne
  refine hdiff (MerkleTree.build_injOn_nodup (List.cons_ne_nil _ _) (List.cons_ne_nil _ _)
    (ha.nodup_txids hgood (hcoll.mono ?_) hnodup)
    (ha'.nodup_txids hgood (hcoll.mono ?_) hnodup') hbuild)
  · exact fun x hx => List.mem_append_left _ (List.mem_cons_of_mem _ (List.mem_append_right _ hx))
  · exact fun x hx => List.mem_append_right _ (List.mem_cons_of_mem _ (List.mem_append_right _ hx))

end Axis
