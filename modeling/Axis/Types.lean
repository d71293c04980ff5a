import Axis.Lib.Positional
import Axis.Lib.PrefixCode
import Mathlib

/-!
# Fixed-size arrays, errors, and the binary writer and reader

The types of `include/axis/types.h`.  Bytes are `UInt8`, byte strings and
vectors of bytes are lists.  All integers are written little-endian, as the
`memcpy` of the source does on the machines it is built for.

The reader throws on a short read; a throw carries the text of the exception.

## Main definitions

* `U8Array` — `std::array<uint8_t, N>`, with its length in the type.
* `Writer` — the append-only buffer and its `put` methods.
* `Reader`, `ReadM` — the cursor over a byte string and its `take` methods.

## Main results

* `codeU32`, `codeU64`, `codeArray`, `codeView` — every `take` method reads
  exactly what the corresponding `put` method writes.
-/

namespace Axis

open Positional PrefixCode

/-- Byte strings. -/
abbrev Bytes := List UInt8

instance : Std.TransOrd Bytes := inferInstance

instance : Std.LawfulEqOrd Bytes := inferInstance

/-! ### Fixed-size arrays -/

/-- An array of `n` bytes. -/
@[ext] structure U8Array (n : ℕ) where
  /-- The bytes. -/
  data : Bytes
  size_data : data.length = n
  deriving DecidableEq

namespace U8Array

variable {n : ℕ}

/-- Arrays compare lexicographically by their bytes. -/
instance : Ord (U8Array n) := ⟨fun a b => compare a.data b.data⟩

theorem compare_def (a b : U8Array n) : compare a b = compare a.data b.data := rfl

instance : Std.TransOrd (U8Array n) where
  eq_swap {a b} := by
    rw [compare_def, compare_def]
    exact Std.OrientedCmp.eq_swap
  isLE_trans {a b c} h₁ h₂ := by
    rw [compare_def] at h₁ h₂ ⊢
    exact Std.TransCmp.isLE_trans h₁ h₂

instance : Std.LawfulEqOrd (U8Array n) where
  eq_of_compare {a b} h := by
    rw [compare_def] at h
    exact U8Array.ext (Std.LawfulEqCmp.eq_of_compare h)

/-- The array with all bytes equal. -/
def fill (n : ℕ) (b : UInt8) : U8Array n := ⟨List.replicate n b, List.length_replicate⟩

/-- The array `n` bytes are copied into. -/
def ofBytes (n : ℕ) (bs : Bytes) : U8Array n :=
  ⟨(bs ++ List.replicate n 0).take n, by simp⟩

theorem data_ofBytes {bs : Bytes} (h : bs.length = n) : (ofBytes n bs).data = bs := by
  subst h
  exact List.take_left

@[simp] theorem ofBytes_data (a : U8Array n) : ofBytes n a.data = a :=
  U8Array.ext (data_ofBytes a.size_data)

end U8Array

/-- Blake2b digests. -/
abbrev Hash := U8Array 32

instance : Std.TransOrd Hash := U8Array.instTransOrd

instance : Std.LawfulEqOrd Hash := U8Array.instLawfulEqOrd

/-- The 20 bytes an output is paid to. -/
abbrev Address := U8Array 20

instance : Std.TransOrd Address := U8Array.instTransOrd

instance : Std.LawfulEqOrd Address := U8Array.instLawfulEqOrd

/-- Ed25519 public keys, of `crypto_sign_PUBLICKEYBYTES` bytes. -/
abbrev PublicKey := U8Array 32

/-- Detached Ed25519 signatures, of `crypto_sign_BYTES` bytes. -/
abbrev Signature := U8Array 64

/-! ### Errors -/

/-- What `add_tx` answers. -/
inductive TxError
  | none
  | invalidPayload
  | badPubkey
  | zeroAmount
  | badOwnership
  | badSignature
  | duplicate
  | inputSpent
  | internal
  deriving DecidableEq

/-- What `on_create_block` answers. -/
inductive BlockError
  | none
  | invalidHeight
  | badPreviousHash
  | invalidBlockHash
  | highHash
  | timeTooFar
  | timeTooOld
  | badSignature
  | missingInputs
  | duplicate
  | invalidPayload
  | internal
  deriving DecidableEq

/-! ### Timestamps -/

/-- Seconds since the epoch. -/
@[ext] structure Timestamp where
  value : UInt64
  deriving DecidableEq

/-! ### The writer -/

/-- The append-only buffer. -/
structure Writer where
  buf : Bytes := []
  deriving DecidableEq

namespace Writer

def putBytes (w : Writer) (data : Bytes) : Writer := ⟨w.buf ++ data⟩

def putU32 (w : Writer) (v : UInt32) : Writer := w.putBytes (leBytes 4 v.toNat)

def putU64 (w : Writer) (v : UInt64) : Writer := w.putBytes (leBytes 8 v.toNat)

def putHash (w : Writer) (h : Hash) : Writer := w.putBytes h.data

def putAddr (w : Writer) (a : Address) : Writer := w.putBytes a.data

def putStr (w : Writer) (s : Bytes) : Writer := w.putBytes s

@[simp] theorem buf_putBytes (w : Writer) (data : Bytes) :
    (w.putBytes data).buf = w.buf ++ data := rfl

@[simp] theorem buf_putU32 (w : Writer) (v : UInt32) :
    (w.putU32 v).buf = w.buf ++ leBytes 4 v.toNat := rfl

@[simp] theorem buf_putU64 (w : Writer) (v : UInt64) :
    (w.putU64 v).buf = w.buf ++ leBytes 8 v.toNat := rfl

@[simp] theorem buf_putHash (w : Writer) (h : Hash) : (w.putHash h).buf = w.buf ++ h.data := rfl

@[simp] theorem buf_putAddr (w : Writer) (a : Address) :
    (w.putAddr a).buf = w.buf ++ a.data := rfl

@[simp] theorem buf_putStr (w : Writer) (s : Bytes) : (w.putStr s).buf = w.buf ++ s := rfl

/-- A loop whose every round appends an encoding appends the encodings in order. -/
theorem buf_foldl {α : Type} {put : Writer → α → Writer} {enc : α → Bytes}
    (hput : ∀ w a, (put w a).buf = w.buf ++ enc a) (l : List α) (w : Writer) :
    (l.foldl put w).buf = w.buf ++ l.flatMap enc := by
  induction l generalizing w with
  | nil => simp
  | cons a l ih => rw [List.foldl_cons, ih, hput, List.flatMap_cons, List.append_assoc]

end Writer

/-! ### The reader -/

/-- The cursor over a byte string. -/
structure Reader where
  data : Bytes
  offset : ℕ := 0
  deriving DecidableEq

/-- Methods of the reader: they move it and may throw. -/
abbrev ReadM := StateT Reader (Except String)

@[simp] theorem ok_bind {ε α β : Type} (a : α) (f : α → Except ε β) :
    (Except.ok a >>= f) = f a := rfl

namespace Reader

/-- The bytes left to read. -/
def remain (r : Reader) : ℕ := r.data.length - r.offset

def check (r : Reader) (n : ℕ) : Except String Unit :=
  if n > r.remain then .error "Reader: unexpected end of data" else .ok ()

/-- The checked copy that every `take` method makes. -/
def takeBytes (n : ℕ) : ReadM Bytes := fun r => do
  r.check n
  pure ((r.data.drop r.offset).take n, { r with offset := r.offset + n })

def takeU32 : ReadM UInt32 := do
  let v ← takeBytes 4
  pure (UInt32.ofNat (ofLe v))

def takeU64 : ReadM UInt64 := do
  let v ← takeBytes 8
  pure (UInt64.ofNat (ofLe v))

/-- Copy the next `n` bytes into an array. -/
def takeArray (n : ℕ) : ReadM (U8Array n) := do
  let bs ← takeBytes n
  pure (U8Array.ofBytes n bs)

def takeHash : ReadM Hash := takeArray 32

def takeAddr : ReadM Address := takeArray 20

def takePk : ReadM PublicKey := takeArray 32

def takeSig : ReadM Signature := takeArray 64

def takeView (n : ℕ) : ReadM Bytes := takeBytes n

end Reader

/-! ### The reader as a cursor -/

/-- A reader walks over what follows its offset. -/
def cursor : Cursor Reader UInt8 where
  rest r := r.data.drop r.offset
  skip n r := { r with offset := r.offset + n }
  start data := ⟨data, 0⟩
  rest_start _ := List.drop_zero
  rest_skip n r := by rw [List.drop_drop]
  skip_zero _ := rfl
  skip_skip m n r := by simp only [Nat.add_assoc]

theorem length_rest (r : Reader) : (cursor.rest r).length = r.remain := List.length_drop

theorem codeView (n : ℕ) :
    Code cursor id (fun bs : Bytes => bs.length = n) (Reader.takeView n) where
  complete := by
    intro r bs hlen hpre
    obtain ⟨t, ht⟩ := hpre
    have hremain : ¬ n > r.remain := by
      have hrest := length_rest r
      rw [← ht, List.length_append, id, hlen] at hrest
      omega
    have htake : (r.data.drop r.offset).take n = bs := by
      have hrest : r.data.drop r.offset = bs ++ t := ht.symm
      rw [hrest, ← hlen, List.take_left]
    simp only [Reader.takeView, Reader.takeBytes, StateT.run, Reader.check, if_neg hremain,
      htake, id, hlen]
    rfl
  sound := by
    intro r bs r' hok
    by_cases hremain : n > r.remain
    · simp only [Reader.takeView, Reader.takeBytes, StateT.run, Reader.check,
        if_pos hremain] at hok
      cases hok
    · simp only [Reader.takeView, Reader.takeBytes, StateT.run, Reader.check,
        if_neg hremain] at hok
      cases hok
      have hlen : ((r.data.drop r.offset).take n).length = n := by
        have hrest : (r.data.drop r.offset).length = r.remain := length_rest r
        rw [List.length_take]
        omega
      refine ⟨hlen, List.take_prefix _ _, ?_⟩
      simp only [id, hlen]
      rfl

/-- A fixed-width integer is read by whatever reads its bytes. -/
theorem codeLe {σ α : Type} {C : Cursor σ UInt8} {dec : StateT σ (Except String) Bytes} {w : ℕ}
    (toNat : α → ℕ) (ofNat : ℕ → α) (hback : ∀ n < 256 ^ w, toNat (ofNat n) = n)
    (hofNat : ∀ v, ofNat (toNat v) = v) (hlt : ∀ v, toNat v < 256 ^ w)
    (h : Code C id (fun bs : Bytes => bs.length = w) dec) :
    Code C (fun v : α => leBytes w (toNat v)) (fun _ => True)
      (dec >>= fun bs => pure (ofNat (ofLe bs))) := by
  have hbytes : ∀ bs : Bytes, bs.length = w → leBytes w (toNat (ofNat (ofLe bs))) = bs := by
    intro bs hlen
    have hsmall := ofLe_lt bs
    rw [hlen] at hsmall
    rw [hback _ hsmall, ← hlen, leBytes_ofLe]
  refine (h.map (fun bs => ofNat (ofLe bs)) (fun v => leBytes w (toNat v)) hbytes).congr ?_
    fun _ _ => rfl
  intro v
  rw [ofLe_leBytes (hlt v), hofNat]
  simp

theorem codeU32_of_code {σ : Type} {C : Cursor σ UInt8} {dec : StateT σ (Except String) Bytes}
    (h : Code C id (fun bs : Bytes => bs.length = 4) dec) :
    Code C (fun v : UInt32 => leBytes 4 v.toNat) (fun _ => True)
      (dec >>= fun bs => pure (UInt32.ofNat (ofLe bs))) := by
  refine codeLe UInt32.toNat UInt32.ofNat (fun n hn => ?_) (fun v => ?_) (fun v => ?_) h
  · rw [UInt32.toNat_ofNat', Nat.mod_eq_of_lt (by omega)]
  · exact UInt32.ofNat_toNat
  · exact v.toNat_lt

theorem codeU32 : Code cursor (fun v : UInt32 => leBytes 4 v.toNat) (fun _ => True)
    Reader.takeU32 := codeU32_of_code (codeView 4)

theorem codeU64 : Code cursor (fun v : UInt64 => leBytes 8 v.toNat) (fun _ => True)
    Reader.takeU64 := by
  refine codeLe UInt64.toNat UInt64.ofNat (fun n hn => ?_) (fun v => ?_) (fun v => ?_) (codeView 8)
  · rw [UInt64.toNat_ofNat', Nat.mod_eq_of_lt (by omega)]
  · exact UInt64.ofNat_toNat
  · exact v.toNat_lt

theorem codeArray (n : ℕ) : Code cursor (fun a : U8Array n => a.data) (fun _ => True)
    (Reader.takeArray n) := by
  refine ((codeView n).map (U8Array.ofBytes n) U8Array.data
    fun bs hlen => U8Array.data_ofBytes hlen).congr ?_ fun _ _ => rfl
  intro a
  simp [a.size_data]

end Axis
