import Mathlib.Data.Nat.Digits.Lemmas
import Mathlib.Tactic.Ring

/-!
# Fixed-width positional numerals

Two ways a natural number is written at a fixed width: little-endian in bytes,
as a wire format does, and as zero-padded decimal text, most significant digit
first, as a sorted key does.  Both are structural recursions on the width, so
that the kernel evaluates them on numerals.

## Main results

* `ofLe_leBytes`, `leBytes_ofLe` — the two little-endian round trips.
* `padDec_lt_padDec` — **at a fixed width the lexicographic order of the padded
  decimal texts is the order of the numbers.**
* `compare_leading_zeros_iff` — a comparison that tests for leading zeros.
-/

namespace Positional

/-! ### Little-endian bytes -/

/-- The `w` little-endian bytes of `n`; what does not fit is dropped. -/
def leBytes : ℕ → ℕ → List UInt8
  | 0, _ => []
  | w + 1, n => UInt8.ofNat n :: leBytes w (n / 256)

/-- The number with the given little-endian bytes. -/
def ofLe : List UInt8 → ℕ
  | [] => 0
  | b :: bs => b.toNat + 256 * ofLe bs

@[simp] theorem leBytes_zero (n : ℕ) : leBytes 0 n = [] := rfl

@[simp] theorem leBytes_succ (w n : ℕ) :
    leBytes (w + 1) n = UInt8.ofNat n :: leBytes w (n / 256) := rfl

@[simp] theorem ofLe_nil : ofLe [] = 0 := rfl

@[simp] theorem ofLe_cons (b : UInt8) (bs : List UInt8) :
    ofLe (b :: bs) = b.toNat + 256 * ofLe bs := rfl

@[simp] theorem length_leBytes (w n : ℕ) : (leBytes w n).length = w := by
  induction w generalizing n with
  | zero => rfl
  | succ w ih => simp [ih]

theorem ofLe_leBytes {w n : ℕ} (h : n < 256 ^ w) : ofLe (leBytes w n) = n := by
  induction w generalizing n with
  | zero =>
    rw [pow_zero] at h
    rw [leBytes_zero, ofLe_nil]
    omega
  | succ w ih =>
    have hdiv : n / 256 < 256 ^ w := by
      rw [pow_succ] at h
      exact Nat.div_lt_of_lt_mul (by omega)
    rw [leBytes_succ, ofLe_cons, ih hdiv, UInt8.toNat_ofNat']
    omega

theorem ofLe_lt (bs : List UInt8) : ofLe bs < 256 ^ bs.length := by
  induction bs with
  | nil => simp
  | cons b bs ih =>
    have hb : b.toNat < 256 := b.toNat_lt
    rw [ofLe_cons, List.length_cons, pow_succ]
    omega

theorem leBytes_ofLe (bs : List UInt8) : leBytes bs.length (ofLe bs) = bs := by
  induction bs with
  | nil => rfl
  | cons b bs ih =>
    have hb : b.toNat < 256 := b.toNat_lt
    have hdiv : (b.toNat + 256 * ofLe bs) / 256 = ofLe bs := by omega
    have hhead : UInt8.ofNat (b.toNat + 256 * ofLe bs) = b := by
      apply UInt8.toNat_inj.mp
      rw [UInt8.toNat_ofNat']
      omega
    rw [List.length_cons, ofLe_cons, leBytes_succ, hdiv, ih, hhead]

theorem leBytes_injOn {w n m : ℕ} (hn : n < 256 ^ w) (hm : m < 256 ^ w)
    (h : leBytes w n = leBytes w m) : n = m := by
  rw [← ofLe_leBytes hn, h, ofLe_leBytes hm]

/-! ### Zero-padded decimal text -/

/-- The character of a decimal digit, as an ASCII byte. -/
def decDigit (d : ℕ) : UInt8 := UInt8.ofNat (48 + d % 10)

/-- The last `w` decimal digits of `n`, most significant first, padded with
zeros. -/
def padDec : ℕ → ℕ → List UInt8
  | 0, _ => []
  | w + 1, n => padDec w (n / 10) ++ [decDigit n]

@[simp] theorem padDec_zero (n : ℕ) : padDec 0 n = [] := rfl

theorem padDec_succ (w n : ℕ) : padDec (w + 1) n = padDec w (n / 10) ++ [decDigit n] := rfl

@[simp] theorem length_padDec (w n : ℕ) : (padDec w n).length = w := by
  induction w generalizing n with
  | zero => rfl
  | succ w ih => simp [padDec_succ, ih]

theorem toNat_decDigit (d : ℕ) : (decDigit d).toNat = 48 + d % 10 := by
  rw [decDigit, UInt8.toNat_ofNat']
  omega

/-- Lists of equal length that differ before the end compare there. -/
theorem compare_append_of_length_eq {l₁ l₂ : List UInt8} (r₁ r₂ : List UInt8)
    (hlen : l₁.length = l₂.length) :
    compare (l₁ ++ r₁) (l₂ ++ r₂) = (compare l₁ l₂).then (compare r₁ r₂) := by
  induction l₁ generalizing l₂ with
  | nil =>
    cases l₂ with
    | nil => simp
    | cons b l₂ => simp at hlen
  | cons a l₁ ih =>
    cases l₂ with
    | nil => simp at hlen
    | cons b l₂ =>
      have hlen' : l₁.length = l₂.length := by simpa using hlen
      simp only [List.cons_append, List.compare_cons_cons, ih hlen']
      cases compare a b <;> rfl

theorem padDec_lt_padDec {w n m : ℕ} (hnm : n < m) (hm : m < 10 ^ w) :
    compare (padDec w n) (padDec w m) = .lt := by
  induction w generalizing n m with
  | zero =>
    rw [pow_zero] at hm
    omega
  | succ w ih =>
    have hdiv : m / 10 < 10 ^ w := by
      rw [pow_succ] at hm
      exact Nat.div_lt_of_lt_mul (by omega)
    rw [padDec_succ, padDec_succ, compare_append_of_length_eq _ _ (by simp)]
    rcases Nat.lt_or_ge (n / 10) (m / 10) with hlt | hge
    · -- the leading digits already decide
      rw [ih hlt hdiv]
      rfl
    · -- the leading digits agree, and the last one decides
      have heq : n / 10 = m / 10 := by omega
      have hlast : decDigit n < decDigit m := by
        rw [UInt8.lt_iff_toNat_lt, toNat_decDigit, toNat_decDigit]
        omega
      have hcmp : compare (decDigit n) (decDigit m) = .lt := by
        rw [Std.compare_eq_lt]
        exact hlast
      have hlead : compare (padDec w (m / 10)) (padDec w (m / 10)) = .eq :=
        Std.ReflCmp.compare_self
      rw [heq, hlead, List.compare_cons_cons, hcmp]
      rfl

theorem padDec_injOn {w n m : ℕ} (hn : n < 10 ^ w) (hm : m < 10 ^ w)
    (h : padDec w n = padDec w m) : n = m := by
  have hself : compare (padDec w m) (padDec w m) = .eq := Std.ReflCmp.compare_self
  rcases Nat.lt_trichotomy n m with hlt | heq | hgt
  · have hcmp := padDec_lt_padDec hlt hm
    rw [h, hself] at hcmp
    cases hcmp
  · exact heq
  · have hcmp := padDec_lt_padDec hgt hn
    rw [h, hself] at hcmp
    cases hcmp

/-! ### Leading zeros -/

/-- All ones is the largest string of its length. -/
theorem compare_ones_ne_gt {l : List UInt8} {n : ℕ} (hlen : l.length = n) :
    compare l (List.replicate n 255) ≠ .gt := by
  induction l generalizing n with
  | nil =>
    subst hlen
    simp
  | cons x l ih =>
    subst hlen
    rw [List.length_cons, List.replicate_succ, List.compare_cons_cons]
    rcases Nat.lt_or_ge x.toNat 255 with hlt | hge
    · have hcmp : compare x 255 = .lt := by
        rw [Std.compare_eq_lt, UInt8.lt_iff_toNat_lt]
        exact hlt
      rw [hcmp]
      simp
    · have hx : x = 255 := by
        have hbound := x.toNat_lt
        refine UInt8.toNat_inj.mp ?_
        show x.toNat = 255
        omega
      have hcmp : compare x 255 = .eq := Std.compare_eq_iff_eq.mpr hx
      rw [hcmp]
      exact ih rfl

/-- A string compares at most `d` zeros followed by all ones exactly when it starts
with `d` zeros. -/
theorem compare_leading_zeros_iff {l : List UInt8} {d n : ℕ} (hlen : l.length = d + n) :
    compare l (List.replicate d 0 ++ List.replicate n 255) ≠ .gt ↔ ∀ b ∈ l.take d, b = 0 := by
  induction d generalizing l with
  | zero =>
    rw [Nat.zero_add] at hlen
    have hle := compare_ones_ne_gt hlen
    simpa using hle
  | succ d ih =>
    cases l with
    | nil =>
      rw [List.length_nil] at hlen
      omega
    | cons x l =>
      have hlen' : l.length = d + n := by
        rw [List.length_cons] at hlen
        omega
      rw [List.replicate_succ, List.cons_append, List.compare_cons_cons, List.take_succ_cons,
        List.forall_mem_cons, ← ih hlen']
      -- a first byte above zero decides the comparison
      by_cases hx : x = 0
      · have hcmp : compare x 0 = .eq := Std.compare_eq_iff_eq.mpr hx
        rw [hcmp]
        simp [hx]
      · have hpos : 0 < x := UInt8.pos_iff_ne_zero.mpr hx
        have hcmp : compare x 0 = .gt := Std.compare_eq_gt.mpr hpos
        rw [hcmp]
        simp [hx]

end Positional
