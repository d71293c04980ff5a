import Mathlib.Data.List.Forall2
import Mathlib.Data.Nat.Notation

/-!
# Numbers and bytes as text

Hexadecimal text of a byte string, in lower case when it is written and in any case when it is
read, and decimal text of a natural number, with any number of leading zeros.

## Main definitions

* `encodeHex`, `decodeHex` — two digits for each byte.
* `lower` — a letter in lower case.
* `Spells` — decimal text of a number.

## Main results

* `decodeHex_eq_some_iff` — **what can be read is what was written, up to the case of letters.**
* `compare_encodeHex` — text and bytes are ordered alike.
* `unlines_inj` — lines can be told apart.
-/

namespace Digits

/-! ### Hexadecimal digits -/

/-- The digit with a value below 16. -/
def hexChar (d : ℕ) : UInt8 := if d < 10 then UInt8.ofNat (48 + d) else UInt8.ofNat (87 + d)

/-- The value of a digit. -/
def hexValue (b : UInt8) : Option ℕ :=
  if 48 ≤ b.toNat ∧ b.toNat ≤ 57 then some (b.toNat - 48)
  else if 97 ≤ b.toNat ∧ b.toNat ≤ 102 then some (b.toNat - 87)
  else if 65 ≤ b.toNat ∧ b.toNat ≤ 70 then some (b.toNat - 55)
  else none

/-- A letter in lower case, and any other byte as it is. -/
def lower (b : UInt8) : UInt8 :=
  if 65 ≤ b.toNat ∧ b.toNat ≤ 90 then UInt8.ofNat (b.toNat + 32) else b

theorem toNat_hexChar {d : ℕ} (h : d < 16) :
    (hexChar d).toNat = if d < 10 then 48 + d else 87 + d := by
  rw [hexChar]
  split <;>
    · rw [UInt8.toNat_ofNat']
      omega

theorem hexValue_hexChar {d : ℕ} (h : d < 16) : hexValue (hexChar d) = some d := by
  rw [hexValue, toNat_hexChar h]
  by_cases hd : d < 10
  · rw [if_pos hd, if_pos (by omega), Nat.add_sub_cancel_left]
  · rw [if_neg hd, if_neg (by omega), if_pos (by omega), Nat.add_sub_cancel_left]

theorem toNat_lower (b : UInt8) :
    (lower b).toNat = if 65 ≤ b.toNat ∧ b.toNat ≤ 90 then b.toNat + 32 else b.toNat := by
  rw [lower]
  split
  · rw [UInt8.toNat_ofNat']
    omega
  · rfl

/-- A byte has a value when it is a digit, up to its case. -/
theorem hexValue_eq_some_iff {b : UInt8} {d : ℕ} :
    hexValue b = some d ↔ d < 16 ∧ lower b = hexChar d := by
  rw [← UInt8.toNat_inj, toNat_lower]
  constructor
  · intro h
    unfold hexValue at h
    split at h
    · cases h
      rw [toNat_hexChar (by omega), if_neg (by omega), if_pos (by omega)]
      omega
    split at h
    · cases h
      rw [toNat_hexChar (by omega), if_neg (by omega), if_neg (by omega)]
      omega
    split at h
    · cases h
      rw [toNat_hexChar (by omega), if_pos (by omega), if_neg (by omega)]
      omega
    · cases h
  · rintro ⟨hd, h⟩
    rw [toNat_hexChar hd] at h
    unfold hexValue
    split at h <;> split at h
    · omega
    · rw [if_neg (by omega), if_neg (by omega), if_pos (by omega)]
      congr 1
      omega
    · rw [if_pos (by omega)]
      congr 1
      omega
    · rw [if_neg (by omega), if_pos (by omega)]
      congr 1
      omega

theorem lower_hexChar {d : ℕ} (h : d < 16) : lower (hexChar d) = hexChar d :=
  (hexValue_eq_some_iff.mp (hexValue_hexChar h)).2

/-! ### Hexadecimal text -/

/-- The text of a byte string, in lower case. -/
def encodeHex (bytes : List UInt8) : List UInt8 :=
  bytes.flatMap fun b => [hexChar (b.toNat / 16), hexChar (b.toNat % 16)]

/-- The byte string a text stands for. -/
def decodeHex : List UInt8 → Option (List UInt8)
  | [] => some []
  | [_] => none
  | hi :: lo :: text =>
    match hexValue hi, hexValue lo with
    | some x, some y => (decodeHex text).map fun bytes => UInt8.ofNat (16 * x + y) :: bytes
    | _, _ => none

@[simp] theorem encodeHex_nil : encodeHex [] = [] := rfl

theorem encodeHex_cons (b : UInt8) (bytes : List UInt8) :
    encodeHex (b :: bytes) =
      hexChar (b.toNat / 16) :: hexChar (b.toNat % 16) :: encodeHex bytes := rfl

@[simp] theorem length_encodeHex (bytes : List UInt8) :
    (encodeHex bytes).length = 2 * bytes.length := by
  induction bytes with
  | nil => rfl
  | cons b bytes ih =>
    rw [encodeHex_cons, List.length_cons, List.length_cons, List.length_cons, ih]
    omega

/-- **What can be read is what was written**, up to the case of letters. -/
theorem decodeHex_eq_some_iff {text bytes : List UInt8} :
    decodeHex text = some bytes ↔ text.map lower = encodeHex bytes := by
  induction text using decodeHex.induct generalizing bytes with
  | case1 =>
    cases bytes with
    | nil => simp [decodeHex]
    | cons b bytes => simp [decodeHex, encodeHex_cons]
  | case2 c =>
    cases bytes with
    | nil => simp [decodeHex]
    | cons b bytes => simp [decodeHex, encodeHex_cons]
  | case3 hi lo text x y hy hx ih =>
    rw [decodeHex, hx, hy, List.map_cons, List.map_cons]
    obtain ⟨hx16, hhi⟩ := hexValue_eq_some_iff.mp hx
    obtain ⟨hy16, hlo⟩ := hexValue_eq_some_iff.mp hy
    have hnat : (UInt8.ofNat (16 * x + y)).toNat = 16 * x + y := by
      rw [UInt8.toNat_ofNat']
      omega
    constructor
    · intro h
      obtain ⟨rest, hrest, rfl⟩ := Option.map_eq_some_iff.mp h
      have hdiv : (16 * x + y) / 16 = x := by omega
      have hmod : (16 * x + y) % 16 = y := by omega
      rw [encodeHex_cons, hnat, hdiv, hmod, ← hhi, ← hlo, ih.mp hrest]
    · intro h
      cases bytes with
      | nil => cases h
      | cons b bytes =>
        rw [encodeHex_cons] at h
        obtain ⟨hb₁, h⟩ := List.cons.inj h
        obtain ⟨hb₂, hrest⟩ := List.cons.inj h
        have hb := b.toNat_lt
        -- both digits are those of the byte
        have hx' : x = b.toNat / 16 := by
          have hvalue := hexValue_eq_some_iff.mpr ⟨by omega, hb₁⟩
          exact Option.some.inj (hx.symm.trans hvalue)
        have hy' : y = b.toNat % 16 := by
          have hvalue := hexValue_eq_some_iff.mpr ⟨by omega, hb₂⟩
          exact Option.some.inj (hy.symm.trans hvalue)
        have hbyte : UInt8.ofNat (16 * x + y) = b := by
          rw [← UInt8.toNat_inj, hnat]
          omega
        rw [ih.mpr hrest, ← hbyte]
        rfl
  | case4 hi lo text hbad =>
    have hnone : decodeHex (hi :: lo :: text) = none := by
      rw [decodeHex]
      split
      · next x y hx hy => exact absurd hy (hbad x y hx)
      · rfl
    rw [hnone]
    refine iff_of_false (by simp) fun h => ?_
    cases bytes with
    | nil => cases h
    | cons b bytes =>
      rw [encodeHex_cons, List.map_cons, List.map_cons] at h
      obtain ⟨hb₁, h⟩ := List.cons.inj h
      obtain ⟨hb₂, -⟩ := List.cons.inj h
      have hb := b.toNat_lt
      exact hbad _ _ (hexValue_eq_some_iff.mpr ⟨by omega, hb₁⟩)
        (hexValue_eq_some_iff.mpr ⟨by omega, hb₂⟩)

/-- What is written is in lower case. -/
theorem map_lower_encodeHex (bytes : List UInt8) :
    (encodeHex bytes).map lower = encodeHex bytes := by
  induction bytes with
  | nil => rfl
  | cons b bytes ih =>
    have hb := b.toNat_lt
    rw [encodeHex_cons, List.map_cons, List.map_cons, ih, lower_hexChar (by omega),
      lower_hexChar (by omega)]

theorem decodeHex_encodeHex (bytes : List UInt8) : decodeHex (encodeHex bytes) = some bytes :=
  decodeHex_eq_some_iff.mpr (map_lower_encodeHex bytes)

theorem encodeHex_injective : Function.Injective encodeHex := by
  intro a b h
  have hread := decodeHex_encodeHex a
  rw [h, decodeHex_encodeHex] at hread
  exact (Option.some.inj hread).symm

/-- Digits are ordered as their values. -/
theorem compare_hexChar {d e : ℕ} (hd : d < 16) (he : e < 16) :
    compare (hexChar d) (hexChar e) = compare d e := by
  have hlt : ∀ {d e : ℕ}, d < 16 → e < 16 → d < e → hexChar d < hexChar e := by
    intro d e hd he h
    rw [UInt8.lt_iff_toNat_lt, toNat_hexChar hd, toNat_hexChar he]
    split <;> split <;> omega
  rcases Nat.lt_trichotomy d e with h | rfl | h
  · rw [Std.compare_eq_lt.mpr (hlt hd he h), Nat.compare_eq_lt.mpr h]
  · rw [Std.compare_eq_iff_eq.mpr rfl, Nat.compare_eq_eq.mpr rfl]
  · rw [Std.compare_eq_gt.mpr (hlt he hd h), Nat.compare_eq_gt.mpr h]

/-- A byte is compared by its high half first. -/
theorem compare_halves (a b : UInt8) :
    compare a b = (compare (a.toNat / 16) (b.toNat / 16)).then
      (compare (a.toNat % 16) (b.toNat % 16)) := by
  rcases Nat.lt_trichotomy a.toNat b.toNat with h | h | h
  · rw [Std.compare_eq_lt.mpr (UInt8.lt_iff_toNat_lt.mpr h)]
    rcases Nat.lt_or_ge (a.toNat / 16) (b.toNat / 16) with hdiv | hdiv
    · rw [Nat.compare_eq_lt.mpr hdiv]
      rfl
    · have heq : a.toNat / 16 = b.toNat / 16 := by omega
      have hmod : a.toNat % 16 < b.toNat % 16 := by omega
      rw [heq, Nat.compare_eq_eq.mpr rfl, Nat.compare_eq_lt.mpr hmod]
      rfl
  · rw [UInt8.toNat_inj.mp h, Std.compare_eq_iff_eq.mpr rfl, Nat.compare_eq_eq.mpr rfl,
      Nat.compare_eq_eq.mpr rfl]
    rfl
  · rw [Std.compare_eq_gt.mpr (UInt8.lt_iff_toNat_lt.mpr h)]
    rcases Nat.lt_or_ge (b.toNat / 16) (a.toNat / 16) with hdiv | hdiv
    · rw [Nat.compare_eq_gt.mpr hdiv]
      rfl
    · have heq : a.toNat / 16 = b.toNat / 16 := by omega
      have hmod : b.toNat % 16 < a.toNat % 16 := by omega
      rw [heq, Nat.compare_eq_eq.mpr rfl, Nat.compare_eq_gt.mpr hmod]
      rfl

/-- **Text and bytes are ordered alike.** -/
theorem compare_encodeHex (a b : List UInt8) :
    compare (encodeHex a) (encodeHex b) = compare a b := by
  induction a generalizing b with
  | nil =>
    cases b with
    | nil => rfl
    | cons y b => rfl
  | cons x a ih =>
    cases b with
    | nil => rfl
    | cons y b =>
      have hx := x.toNat_lt
      have hy := y.toNat_lt
      rw [encodeHex_cons, encodeHex_cons, List.compare_cons_cons, List.compare_cons_cons,
        List.compare_cons_cons, ih, compare_hexChar (by omega) (by omega),
        compare_hexChar (by omega) (by omega), compare_halves x y]
      cases compare (x.toNat / 16) (y.toNat / 16) <;> rfl

/-! ### Decimal text -/

def isDigit (b : UInt8) : Bool := 48 ≤ b.toNat && b.toNat ≤ 57

/-- The number a string of digits stands for. -/
def ofDec (text : List UInt8) : ℕ := text.foldl (fun n b => 10 * n + (b.toNat - 48)) 0

/-- The text is a decimal spelling of the number. -/
def Spells (text : List UInt8) (n : ℕ) : Prop :=
  text ≠ [] ∧ (∀ b ∈ text, isDigit b = true) ∧ ofDec text = n

/-! ### Lines -/

/-- Lines, each with the symbol that ends it. -/
def unlines {α : Type*} (nl : α) (ls : List (List α)) : List α := ls.flatMap fun l => l ++ [nl]

/-- **The lines of a text can be told apart**, when none of them contains the symbol that ends
them. -/
theorem unlines_inj {α : Type*} {nl : α} {ls ms : List (List α)} (hls : ∀ l ∈ ls, nl ∉ l)
    (hms : ∀ m ∈ ms, nl ∉ m) (h : unlines nl ls = unlines nl ms) : ls = ms := by
  induction ls generalizing ms with
  | nil =>
    cases ms with
    | nil => rfl
    | cons m ms => exact absurd h.symm (by simp [unlines])
  | cons l ls ih =>
    cases ms with
    | nil => exact absurd h (by simp [unlines])
    | cons m ms =>
      rw [List.forall_mem_cons] at hls hms
      rw [unlines, unlines, List.flatMap_cons, List.flatMap_cons, List.append_assoc,
        List.append_assoc, List.singleton_append, List.singleton_append] at h
      have hfirst : l = m := by
        rcases List.append_eq_append_iff.mp h with ⟨more, hm, heq⟩ | ⟨more, hl, heq⟩
        · cases more with
          | nil => rw [hm, List.append_nil]
          | cons x more =>
            obtain ⟨rfl, -⟩ := List.cons.inj heq
            exact absurd (by rw [hm]; simp) hms.1
        · cases more with
          | nil => rw [hl, List.append_nil]
          | cons x more =>
            obtain ⟨rfl, -⟩ := List.cons.inj heq
            exact absurd (by rw [hl]; simp) hls.1
      subst hfirst
      exact congrArg (l :: ·) (ih hls.2 hms.2 (List.cons.inj (List.append_cancel_left h)).2)

end Digits
