import Mathlib.Data.List.Perm.Basic
import Mathlib.Tactic.Common

/-!
# Independent steps

A machine that answers every step it takes.  Two steps are *independent* when neither
can tell from its answer whether the other came first, and either order ends in the
same state.  Steps that are pairwise independent may be taken in any order.

## Main definitions

* `final`, `answers` — the state after a list of steps, and what they were answered.
* `Independent` — the two steps may be exchanged.

## Main results

* `answers_eq_map` — **pairwise independent steps are answered as if each came first.**
* `final_perm` — **and in any order they end in the same state.**
* `foldl_comm` — two lists of updates may be exchanged when their elements may.
-/

namespace Independence

variable {σ ι ρ : Type*}

/-! ### Folds -/

/-- An update that commutes with every update of a list may come after or before it. -/
theorem foldl_comm_one {f : σ → ι → σ} {a : ι} {l : List ι}
    (h : ∀ b ∈ l, ∀ s, f (f s a) b = f (f s b) a) (s : σ) :
    l.foldl f (f s a) = f (l.foldl f s) a := by
  induction l generalizing s with
  | nil => rfl
  | cons b l ih =>
    rw [List.forall_mem_cons] at h
    rw [List.foldl_cons, h.1, ih h.2, List.foldl_cons]

/-- Two lists of updates may be exchanged when any two of their elements may. -/
theorem foldl_comm {f : σ → ι → σ} {l l' : List ι}
    (h : ∀ a ∈ l, ∀ b ∈ l', ∀ s, f (f s a) b = f (f s b) a) (s : σ) :
    l'.foldl f (l.foldl f s) = l.foldl f (l'.foldl f s) := by
  induction l generalizing s with
  | nil => rfl
  | cons a l ih =>
    rw [List.forall_mem_cons] at h
    rw [List.foldl_cons, ih h.2, foldl_comm_one h.1, List.foldl_cons]

/-! ### Machines that answer -/

/-- The state after a list of steps. -/
def final (step : ι → σ → σ × ρ) (is : List ι) (s : σ) : σ :=
  is.foldl (fun s i => (step i s).1) s

/-- The answers to a list of steps. -/
def answers (step : ι → σ → σ × ρ) : List ι → σ → List ρ
  | [], _ => []
  | i :: is, s => (step i s).2 :: answers step is (step i s).1

/-- Neither step can tell whether the other came first. -/
structure Independent (step : ι → σ → σ × ρ) (i j : ι) : Prop where
  left : ∀ s, (step i (step j s).1).2 = (step i s).2
  right : ∀ s, (step j (step i s).1).2 = (step j s).2
  comm : ∀ s, (step j (step i s).1).1 = (step i (step j s).1).1

variable {step : ι → σ → σ × ρ}

theorem Independent.symm {i j : ι} (h : Independent step i j) : Independent step j i :=
  ⟨h.right, h.left, fun s => (h.comm s).symm⟩

/-- **Pairwise independent steps are answered as if each came first.** -/
theorem answers_eq_map {is : List ι} (h : is.Pairwise (Independent step)) (s : σ) :
    answers step is s = is.map fun i => (step i s).2 := by
  induction is generalizing s with
  | nil => rfl
  | cons i is ih =>
    rw [List.pairwise_cons] at h
    rw [answers, ih h.2, List.map_cons]
    -- no later step notices the first one
    refine congrArg _ (List.map_congr_left fun j hj => ?_)
    exact (h.1 j hj).right s

/-- **Pairwise independent steps end in the same state in any order.** -/
theorem final_perm {is js : List ι} (h : is.Pairwise (Independent step)) (hperm : is.Perm js)
    (s : σ) : final step is s = final step js s := by
  induction hperm generalizing s with
  | nil => rfl
  | cons i _ ih => exact ih (List.pairwise_cons.mp h).2 _
  | swap i j is =>
    have hji := (List.pairwise_cons.mp h).1 i List.mem_cons_self
    exact congrArg (final step is) (hji.comm s)
  | trans p _ ih₁ ih₂ =>
    rw [ih₁ h s, ih₂ (h.perm p Independent.symm) s]

end Independence
