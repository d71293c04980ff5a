import Mathlib.Data.List.Basic
import Mathlib.Data.List.Induction
import Mathlib.Data.List.Infix
import Mathlib.Data.List.Nodup
import Mathlib.Tactic.Common

/-!
# Hash chains

A list of items each of which names the digest of the one before it.  The first item
names a digest that stands for the absence of a predecessor.

## Main definitions

* `tip l` — the digest of the last item, or the null digest.
* `Linked l` — every item names the tip of the items before it.

## Main results

* `Linked.eq_of_tip_eq` — **the tip determines the chain**, without collisions and null
  digests.
* `Linked.nodup_digests` — the digests of a chain are distinct.
-/

namespace HashChain

variable {α δ : Type*} (prev digest : α → δ) (null : δ)

/-- The digest of the last item, or the null digest where there is none. -/
def tip (l : List α) : δ := (l.getLast?.map digest).getD null

/-- Every item names the tip of the items before it. -/
def Linked (l : List α) : Prop :=
  ∀ pre x post, l = pre ++ x :: post → prev x = tip digest null pre

variable {prev digest null}

@[simp] theorem tip_nil : tip digest null [] = null := rfl

@[simp] theorem tip_concat (l : List α) (x : α) : tip digest null (l ++ [x]) = digest x := by
  simp [tip]

theorem linked_nil : Linked prev digest null [] := by
  intro pre x post heq
  simp at heq

/-- The first items of a chain are a chain. -/
theorem Linked.of_append {l r : List α} (h : Linked prev digest null (l ++ r)) :
    Linked prev digest null l := by
  rintro pre x post rfl
  exact h pre x (post ++ r) (by simp)

theorem Linked.concat {l : List α} {x : α} (h : Linked prev digest null l)
    (hx : prev x = tip digest null l) : Linked prev digest null (l ++ [x]) := by
  intro pre y post heq
  -- the split is at the new item, or before it
  rcases List.eq_nil_or_concat post with rfl | ⟨post', z, rfl⟩
  · obtain ⟨rfl, hlast⟩ := List.append_inj' heq rfl
    rw [← List.singleton_inj.mp hlast]
    exact hx
  · rw [List.concat_eq_append, ← List.cons_append, ← List.append_assoc] at heq
    exact h pre y post' (List.append_inj' heq rfl).1

/-- The last item names the tip of the others. -/
theorem Linked.prev_last {l : List α} {x : α} (h : Linked prev digest null (l ++ [x])) :
    prev x = tip digest null l := h l x [] rfl

/-- A chain whose items have no null digest is empty when its tip is null. -/
theorem eq_nil_of_tip_eq_null {l : List α} (hnull : ∀ x ∈ l, digest x ≠ null)
    (h : tip digest null l = null) : l = [] := by
  rcases List.eq_nil_or_concat l with rfl | ⟨l, x, rfl⟩
  · rfl
  · rw [List.concat_eq_append, tip_concat] at h
    exact absurd h (hnull x (by simp))

/-- **The tip determines the chain.** -/
theorem Linked.eq_of_tip_eq {l l' : List α} (h : Linked prev digest null l)
    (h' : Linked prev digest null l')
    (hinj : ∀ x ∈ l, ∀ y ∈ l', digest x = digest y → x = y)
    (hnull : ∀ x ∈ l, digest x ≠ null) (hnull' : ∀ x ∈ l', digest x ≠ null)
    (htip : tip digest null l = tip digest null l') : l = l' := by
  -- descend along both chains at once
  induction l using List.reverseRecOn generalizing l' with
  | nil => exact (eq_nil_of_tip_eq_null hnull' htip.symm).symm
  | append_singleton l x ih =>
    rcases List.eq_nil_or_concat l' with rfl | ⟨l', y, rfl⟩
    · exact eq_nil_of_tip_eq_null hnull htip
    · rw [List.concat_eq_append] at h' hinj hnull' htip ⊢
      rw [tip_concat, tip_concat] at htip
      have hxy : x = y := hinj x (by simp) y (by simp) htip
      subst hxy
      have hprev : tip digest null l = tip digest null l' := by
        rw [← h.prev_last, ← h'.prev_last]
      rw [ih h.of_append h'.of_append (fun z hz w hw => hinj z (by simp [hz]) w (by simp [hw]))
        (fun z hz => hnull z (by simp [hz])) (fun z hz => hnull' z (by simp [hz])) hprev]

/-- The digests of a chain are distinct. -/
theorem Linked.nodup_digests {l : List α} (h : Linked prev digest null l)
    (hinj : ∀ x ∈ l, ∀ y ∈ l, digest x = digest y → x = y)
    (hnull : ∀ x ∈ l, digest x ≠ null) : (l.map digest).Nodup := by
  induction l using List.reverseRecOn with
  | nil => exact List.nodup_nil
  | append_singleton l x ih =>
    have hsub : ∀ z ∈ l, z ∈ l ++ [x] := fun z hz => List.mem_append_left _ hz
    rw [List.map_append, List.nodup_append]
    refine ⟨ih h.of_append (fun z hz w hw => hinj z (hsub z hz) w (hsub w hw))
      (fun z hz => hnull z (hsub z hz)), List.nodup_singleton _, ?_⟩
    rintro d hd d' hd' rfl
    obtain ⟨y, hy, rfl⟩ := List.mem_map.mp hd
    obtain ⟨z, hz, hyz⟩ := List.mem_map.mp hd'
    rw [List.mem_singleton] at hz
    subst hz
    -- the items up to `y` would have the tip of the whole chain
    obtain ⟨pre, post, rfl⟩ := List.append_of_mem hy
    have hpre : Linked prev digest null (pre ++ [y]) := by
      refine Linked.of_append (r := post ++ [z]) ?_
      simpa using h
    have heq := hpre.eq_of_tip_eq h
      (fun u hu w hw => hinj u (by
        rcases List.mem_append.mp hu with hu | hu
        · simp [hu]
        · simp [List.mem_singleton.mp hu]) w hw)
      (fun u hu => hnull u (by
        rcases List.mem_append.mp hu with hu | hu
        · simp [hu]
        · simp [List.mem_singleton.mp hu])) hnull
      (by rw [tip_concat, tip_concat, hyz])
    have hlen := congrArg List.length heq
    simp at hlen

end HashChain
