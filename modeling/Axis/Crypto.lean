import Axis.Lib.MerkleTree
import Axis.Types

/-!
# Hashing, Merkle roots and signatures

`src/crypto.cpp`.  The primitives come from libsodium and are a parameter
`S : Sodium` of everything that hashes or verifies: the generic hash with the
output length it is asked for, and the check of a detached signature.
-/

namespace Axis

/-- The libsodium primitives the node calls. -/
structure Sodium where
  /-- `crypto_generichash` without a key: BLAKE2b with the given output length. -/
  generichash : (outlen : ℕ) → Bytes → U8Array outlen
  /-- `crypto_sign_verify_detached` returned zero. -/
  signVerifyDetached : Signature → Bytes → PublicKey → Bool

variable (S : Sodium)

def blake2b (data : Bytes) : Hash := S.generichash 32 data

/-- The 64 bytes hashed for an inner node. -/
def combinePreimage (a b : Hash) : Bytes := a.data ++ b.data

def combineHash (a b : Hash) : Hash := blake2b S (combinePreimage a b)

/-- The Merkle root; an empty list has the all-zero root. -/
def computeMerkleRoot (leaves : List Hash) : Hash :=
  MerkleTree.root (combineHash S) (U8Array.fill 32 0) leaves

def deriveAddress (pk : PublicKey) : Address := S.generichash 20 pk.data

def verifySig (pk : PublicKey) (msg : Hash) (sig : Signature) : Bool :=
  S.signVerifyDetached sig msg.data pk

/-- The byte strings hashed while a Merkle root is computed. -/
def merklePreimages (leaves : List Hash) : List Bytes :=
  (MerkleTree.combined (combineHash S) leaves.length leaves).map
    fun p => combinePreimage p.1 p.2

/-- No two different byte strings of a list have the same blake2b hash. -/
def NoCollision (hashed : List Bytes) : Prop :=
  ∀ x ∈ hashed, ∀ y ∈ hashed, blake2b S x = blake2b S y → x = y

instance (hashed : List Bytes) : Decidable (NoCollision S hashed) :=
  inferInstanceAs (Decidable (∀ x ∈ hashed, ∀ y ∈ hashed, _))

theorem length_combinePreimage (a b : Hash) : (combinePreimage a b).length = 64 := by
  rw [combinePreimage, List.length_append, a.size_data, b.size_data]

theorem combinePreimage_inj {a b c d : Hash} (h : combinePreimage a b = combinePreimage c d) :
    a = c ∧ b = d := by
  have hsplit := List.append_inj h (by rw [a.size_data, c.size_data])
  exact ⟨U8Array.ext hsplit.1, U8Array.ext hsplit.2⟩

end Axis
