import Mathlib

/-!
# The Gregorian calendar

The calendar of 365 and 366 days, extended to all years before and after its introduction,
with a year 0.  Days are counted from the first day of that year.

## Main definitions

* `daysBefore` — the days before the first day of a year.
* `yearOf` — the year of a day.
* `monthDay` — the month and the day of the month.

## Main results

* `daysBefore_succ` — a year has 365 or 366 days.
* `le_yearOf_iff` — **a day is in a year or later exactly when it is not before its first
  day.**
-/

namespace Calendar

/-! ### Years -/

/-- The years with 366 days. -/
def IsLeap (y : ℤ) : Prop := y % 4 = 0 ∧ (y % 100 ≠ 0 ∨ y % 400 = 0)

instance : DecidablePred IsLeap := fun _ => inferInstanceAs (Decidable (_ ∧ _))

def yearLength (y : ℤ) : ℤ := if IsLeap y then 366 else 365

/-- The days before the first day of a year; the leap years among the earlier ones are
counted by their definition. -/
def daysBefore (y : ℤ) : ℤ := 365 * y + (y + 3) / 4 - (y + 99) / 100 + (y + 399) / 400

theorem daysBefore_succ (y : ℤ) : daysBefore (y + 1) = daysBefore y + yearLength y := by
  unfold yearLength
  by_cases hleap : IsLeap y
  · rw [if_pos hleap]
    unfold IsLeap at hleap
    unfold daysBefore
    omega
  · rw [if_neg hleap]
    unfold IsLeap at hleap
    unfold daysBefore
    omega

theorem yearLength_pos (y : ℤ) : 0 < yearLength y := by
  unfold yearLength
  split <;> decide

theorem daysBefore_strictMono : StrictMono daysBefore := by
  refine strictMono_int_of_lt_succ fun y => ?_
  have hpos := yearLength_pos y
  rw [daysBefore_succ]
  omega

/-- The year of a day: a guess by the mean length of a year is off by one at most. -/
def yearOf (d : ℤ) : ℤ :=
  let guess := 400 * d / 146097
  if daysBefore (guess + 1) ≤ d then guess + 1
  else if d < daysBefore guess then guess - 1
  else guess

theorem yearOf_spec (d : ℤ) : daysBefore (yearOf d) ≤ d ∧ d < daysBefore (yearOf d + 1) := by
  have hearly : daysBefore (400 * d / 146097 - 1) ≤ d := by
    unfold daysBefore
    omega
  have hlate : d < daysBefore (400 * d / 146097 + 1 + 1) := by
    unfold daysBefore
    omega
  unfold yearOf
  dsimp only
  split
  · next hnext => exact ⟨hnext, hlate⟩
  · next hnext =>
    split
    · next hprev =>
      rw [Int.sub_add_cancel]
      exact ⟨hearly, hprev⟩
    · next hprev => exact ⟨not_lt.mp hprev, not_le.mp hnext⟩

/-- **A day is in a year or later exactly when it is not before its first day.** -/
theorem le_yearOf_iff {y d : ℤ} : y ≤ yearOf d ↔ daysBefore y ≤ d := by
  obtain ⟨hfirst, hlast⟩ := yearOf_spec d
  constructor
  · exact fun hle => (daysBefore_strictMono.monotone hle).trans hfirst
  · intro hle
    have hlt := daysBefore_strictMono.lt_iff_lt.mp (hle.trans_lt hlast)
    omega

/-! ### Months -/

/-- The lengths of the months of a year. -/
def monthLengths (y : ℤ) : List ℕ :=
  [31, if IsLeap y then 29 else 28, 31, 30, 31, 30, 31, 31, 30, 31, 30, 31]

theorem sum_monthLengths (y : ℤ) : ((monthLengths y).sum : ℤ) = yearLength y := by
  unfold monthLengths yearLength
  split <;> rfl

/-- The month of a day, and the days of the month before it; both are counted from zero. -/
def monthDay : List ℕ → ℕ → ℕ × ℕ
  | [], n => (0, n)
  | len :: lens, n =>
    if n < len then (0, n)
    else ((monthDay lens (n - len)).1 + 1, (monthDay lens (n - len)).2)

/-- A day within the months is in one of them. -/
theorem monthDay_spec {lens : List ℕ} {n : ℕ} (h : n < lens.sum) :
    ∃ len ∈ lens, (monthDay lens n).1 < lens.length ∧ (monthDay lens n).2 < len := by
  induction lens generalizing n with
  | nil => simp at h
  | cons len lens ih =>
    rw [monthDay]
    split
    · next hlt => exact ⟨len, by simp, by simp, hlt⟩
    · next hge =>
      rw [List.sum_cons] at h
      obtain ⟨len', hmem, hmonth, hday⟩ := ih (show n - len < lens.sum by omega)
      refine ⟨len', by simp [hmem], ?_, hday⟩
      rw [List.length_cons]
      omega

/-- The day of the year, counted from zero. -/
def dayOfYear (d : ℤ) : ℕ := (d - daysBefore (yearOf d)).toNat

theorem dayOfYear_lt (d : ℤ) : dayOfYear d < (monthLengths (yearOf d)).sum := by
  obtain ⟨hfirst, hlast⟩ := yearOf_spec d
  have hsum := sum_monthLengths (yearOf d)
  rw [daysBefore_succ] at hlast
  unfold dayOfYear
  omega

/-- Months have at most 31 days. -/
theorem month_day_lt (d : ℤ) :
    (monthDay (monthLengths (yearOf d)) (dayOfYear d)).1 < 12 ∧
      (monthDay (monthLengths (yearOf d)) (dayOfYear d)).2 < 31 := by
  obtain ⟨len, hlen, hmonth, hday⟩ := monthDay_spec (dayOfYear_lt d)
  refine ⟨hmonth, hday.trans_le ?_⟩
  clear hday
  unfold monthLengths at hlen
  split at hlen <;> revert len <;> decide

end Calendar
