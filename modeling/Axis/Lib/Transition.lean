import Mathlib.Data.Nat.Notation
import Mathlib.Tactic.TypeStar

/-!
# Guarded reachability

A system whose operations may fail, and the states its runs reach.  A *guard*
restricts the operations a run may take, depending on the state it takes them
in; the unguarded system has the guard that is always true.

## Main results

* `Reachable.rule` — **the invariant rule.**
* `Reachable.mono` — a weaker guard reaches at least as many states.
* `exists_of_passes` — a list of allowed operations that is executed is a run.
* `exec_rule` — **the rule for lists of operations**: they are executed to their end, the
  invariant is kept, and every state is related to the first one.
-/

namespace Transition

variable {σ ι ε : Type*} {start : σ → Prop} {guard guard' : σ → ι → Prop}
  {step : ι → σ → Except ε σ}

/-- The states reached from a start state by operations that the guard allows
and that do not fail. -/
inductive Reachable (start : σ → Prop) (guard : σ → ι → Prop) (step : ι → σ → Except ε σ) :
    σ → Prop
  | start {s : σ} (h : start s) : Reachable start guard step s
  | step {s s' : σ} {i : ι} (hs : Reachable start guard step s) (hg : guard s i)
      (h : step i s = .ok s') : Reachable start guard step s'

/-- **The invariant rule**: what holds at the start and is kept by every allowed
step from a reachable state holds of every reachable state. -/
theorem Reachable.rule {I : σ → Prop} (h₀ : ∀ s, start s → I s)
    (hstep : ∀ s i s', Reachable start guard step s → I s → guard s i →
      step i s = .ok s' → I s') {s : σ} (h : Reachable start guard step s) : I s := by
  induction h with
  | start h => exact h₀ _ h
  | step hs hg h ih => exact hstep _ _ _ hs ih hg h

/-- A run goes on from where another one has ended. -/
theorem Reachable.trans {s s' : σ} (hs : Reachable start guard step s)
    (h : Reachable (· = s) guard step s') : Reachable start guard step s' := by
  induction h with
  | start h =>
    subst h
    exact hs
  | step _ hg h ih => exact .step ih hg h

theorem Reachable.mono (hguard : ∀ s i, guard s i → guard' s i) {s : σ}
    (h : Reachable start guard step s) : Reachable start guard' step s := by
  induction h with
  | start h => exact .start h
  | step _ hg h ih => exact .step ih (hguard _ _ hg) h

/-- Run a list of operations, stopping at the first failure. -/
def exec (step : ι → σ → Except ε σ) : List ι → σ → Except ε σ
  | [], s => .ok s
  | i :: is, s => (step i s).bind (exec step is)

/-- A condition on an outcome that is met when there is a state, and the state
meets `P`. -/
def Ok (P : σ → Prop) : Except ε σ → Prop
  | .ok s => P s
  | .error _ => False

instance (P : σ → Prop) [DecidablePred P] : (r : Except ε σ) → Decidable (Ok P r)
  | .ok s => inferInstanceAs (Decidable (P s))
  | .error _ => inferInstanceAs (Decidable False)

theorem ok_iff {P : σ → Prop} {r : Except ε σ} : Ok P r ↔ ∃ s, r = .ok s ∧ P s := by
  cases r with
  | error e => simp [Ok]
  | ok s => simp [Ok]

/-- Every operation of a list succeeds, and the guard allows each in the state it is
run in. -/
def Allowed (guard : σ → ι → Prop) (step : ι → σ → Except ε σ) : List ι → σ → Prop
  | [], _ => True
  | i :: is, s => guard s i ∧ Ok (Allowed guard step is) (step i s)

instance decidableAllowed (guard : σ → ι → Prop) [∀ s i, Decidable (guard s i)]
    (step : ι → σ → Except ε σ) : (is : List ι) → DecidablePred (Allowed guard step is)
  | [], _ => inferInstanceAs (Decidable True)
  | i :: is, s =>
    have := decidableAllowed guard step is
    inferInstanceAs (Decidable (guard s i ∧ Ok (Allowed guard step is) (step i s)))

theorem exec_cons_eq_ok {i : ι} {is : List ι} {s s' : σ} :
    exec step (i :: is) s = .ok s' ↔ ∃ t, step i s = .ok t ∧ exec step is t = .ok s' := by
  rw [exec]
  cases step i s with
  | error e => simp [Except.bind]
  | ok t => simp [Except.bind]

/-- What an executed list of operations reaches, when every operation is allowed. -/
theorem reachable_of_exec_true {is : List ι} {s s' : σ}
    (hs : Reachable start (fun _ _ => True) step s) (h : exec step is s = .ok s') :
    Reachable start (fun _ _ => True) step s' := by
  induction is generalizing s with
  | nil =>
    cases h
    exact hs
  | cons i is ih =>
    obtain ⟨t, ht, hrest⟩ := exec_cons_eq_ok.mp h
    exact ih (.step hs trivial ht) hrest

/-- Every operation of a list succeeds and is allowed, and the state they lead to meets `P`. -/
def Passes (guard : σ → ι → Prop) (step : ι → σ → Except ε σ) (P : σ → Prop) : List ι → σ → Prop
  | [], s => P s
  | i :: is, s => guard s i ∧ Ok (Passes guard step P is) (step i s)

instance decidablePasses (guard : σ → ι → Prop) [∀ s i, Decidable (guard s i)]
    (step : ι → σ → Except ε σ) (P : σ → Prop) [DecidablePred P] :
    (is : List ι) → DecidablePred (Passes guard step P is)
  | [], s => inferInstanceAs (Decidable (P s))
  | i :: is, s =>
    have := decidablePasses guard step P is
    inferInstanceAs (Decidable (guard s i ∧ Ok (Passes guard step P is) (step i s)))

/-- A list of allowed operations whose outcome meets a condition reaches a state that
does. -/
theorem exists_of_passes {P : σ → Prop} {is : List ι} {s : σ}
    (hs : Reachable start guard step s) (h : Passes guard step P is s) :
    ∃ s', exec step is s = .ok s' ∧ Reachable start guard step s' ∧ P s' := by
  induction is generalizing s with
  | nil => exact ⟨s, rfl, hs, h⟩
  | cons i is ih =>
    obtain ⟨hg, hok⟩ := h
    obtain ⟨t, ht, hrest⟩ := ok_iff.mp hok
    obtain ⟨s', hrun, hreach, hP⟩ := ih (.step hs hg ht) hrest
    exact ⟨s', exec_cons_eq_ok.mpr ⟨t, ht, hrun⟩, hreach, hP⟩

/-- The same when every operation is allowed. -/
theorem exists_of_exec_true {P : σ → Prop} {is : List ι} {s : σ}
    (hs : Reachable start (fun _ _ => True) step s) (hok : Ok P (exec step is s)) :
    ∃ s', exec step is s = .ok s' ∧ Reachable start (fun _ _ => True) step s' ∧ P s' := by
  obtain ⟨s', hrun, hP⟩ := ok_iff.mp hok
  exact ⟨s', hrun, reachable_of_exec_true hs hrun, hP⟩

/-! ### Lists of operations that never fail -/

theorem exec_append (is js : List ι) (s : σ) :
    exec step (is ++ js) s = (exec step is s).bind (exec step js) := by
  induction is generalizing s with
  | nil => rfl
  | cons i is ih =>
    rw [List.cons_append, exec, exec]
    cases step i s with
    | error e => rfl
    | ok t => exact ih t

/-- What every operation of a list keeps is kept by the list. -/
theorem exec_invariant {I : σ → Prop} {is : List ι} {s s' : σ}
    (hstep : ∀ i ∈ is, ∀ s s', I s → step i s = .ok s' → I s') (hI : I s)
    (h : exec step is s = .ok s') : I s' := by
  induction is generalizing s with
  | nil =>
    cases h
    exact hI
  | cons i is ih =>
    rw [List.forall_mem_cons] at hstep
    obtain ⟨t, ht, hrest⟩ := exec_cons_eq_ok.mp h
    exact ih hstep.2 (hstep.1 s t hI ht) hrest

/-- **The rule for lists of operations.**  A state may grow by one with every operation.  As
long as it is below a bound, every operation of the list succeeds, keeps the invariant, and
relates the state to the next one; so does the list when it is too short to reach the bound. -/
theorem exec_rule {I : σ → Prop} {R : σ → σ → Prop} (size : σ → ℕ) (hrefl : ∀ s, R s s)
    (htrans : ∀ s t u, R s t → R t u → R s u) {bound : ℕ} {is : List ι}
    (hstep : ∀ i ∈ is, ∀ s, I s → size s < bound →
      ∃ s', step i s = .ok s' ∧ I s' ∧ R s s' ∧ size s' ≤ size s + 1)
    {s : σ} (hI : I s) (hsize : size s + is.length ≤ bound) :
    ∃ s', exec step is s = .ok s' ∧ I s' ∧ R s s' ∧ size s' ≤ size s + is.length := by
  induction is generalizing s with
  | nil => exact ⟨s, rfl, hI, hrefl s, Nat.le_refl _⟩
  | cons i is ih =>
    rw [List.forall_mem_cons] at hstep
    rw [List.length_cons] at hsize ⊢
    obtain ⟨t, ht, hIt, hRt, hgrow⟩ := hstep.1 s hI (by omega)
    obtain ⟨s', hrun, hI', hR', hgrow'⟩ := ih hstep.2 hIt (by omega)
    exact ⟨s', exec_cons_eq_ok.mpr ⟨t, ht, hrun⟩, hI', htrans _ _ _ hRt hR', by omega⟩

end Transition
