import Mathlib.Data.List.Basic
import Mathlib.Tactic.TypeStar

/-!
# Programs that query a store

A program asks a store for one entry after the other, and what it asks next may depend on the
answers.  Between two queries the store may change.  Where the entries that the program asks for
stay what they are, the program returns what it would have returned at once.

## Main definitions

* `Program ι ν α` — programs that ask for entries in `ν` under keys in `ι`, and return an `α`.
* `answer` — what a program returns when the store does not change.
* `Asks` — what a program asks a store for.
* `calls` — how often it asks.

## Main results

* `answer_bind`, `asks_bind` — programs in sequence.
* `ComesTo.next` — **a query may go to another store** that agrees on what is asked for.
* `answer_each`, `asks_each` — loops.
-/

namespace Queries

/-- A program returns, or asks for an entry. -/
inductive Program (ι ν α : Type) : Type
  | done (a : α)
  | ask (i : ι) (next : ν → Program ι ν α)

namespace Program

variable {ι ν α β : Type}

/-- One program after the other. -/
def bind : Program ι ν α → (α → Program ι ν β) → Program ι ν β
  | done a, f => f a
  | ask i next, f => ask i fun v => (next v).bind f

instance : Monad (Program ι ν) where
  pure := done
  bind := bind

/-- What a program returns when the store does not change. -/
def answer (store : ι → ν) : Program ι ν α → α
  | done a => a
  | ask i next => answer store (next (store i))

/-- What the program asks the store for meets `P`. -/
def Asks (P : ι → Prop) (store : ι → ν) : Program ι ν α → Prop
  | done _ => True
  | ask i next => P i ∧ Asks P store (next (store i))

@[simp] theorem answer_pure (store : ι → ν) (a : α) :
    (pure a : Program ι ν α).answer store = a := rfl

@[simp] theorem answer_bind (store : ι → ν) (p : Program ι ν α) (f : α → Program ι ν β) :
    (p >>= f).answer store = (f (p.answer store)).answer store := by
  induction p with
  | done a => rfl
  | ask i next ih => exact ih (store i)

@[simp] theorem asks_pure (P : ι → Prop) (store : ι → ν) (a : α) :
    (pure a : Program ι ν α).Asks P store := trivial

@[simp] theorem asks_bind {P : ι → Prop} {store : ι → ν} {p : Program ι ν α}
    {f : α → Program ι ν β} :
    (p >>= f).Asks P store ↔ p.Asks P store ∧ (f (p.answer store)).Asks P store := by
  induction p with
  | done a => exact ⟨fun h => ⟨trivial, h⟩, fun h => h.2⟩
  | ask i next ih =>
    constructor
    · intro h
      exact ⟨⟨h.1, ((ih (store i)).mp h.2).1⟩, ((ih (store i)).mp h.2).2⟩
    · intro h
      exact ⟨h.1.1, (ih (store i)).mpr ⟨h.1.2, h.2⟩⟩

/-! ### How many queries there are -/

/-- The number of queries. -/
def calls (store : ι → ν) : Program ι ν α → ℕ
  | done _ => 0
  | ask i next => calls store (next (store i)) + 1

@[simp] theorem calls_pure (store : ι → ν) (a : α) :
    (pure a : Program ι ν α).calls store = 0 := rfl

@[simp] theorem calls_bind (store : ι → ν) (p : Program ι ν α) (f : α → Program ι ν β) :
    (p >>= f).calls store = p.calls store + (f (p.answer store)).calls store := by
  induction p with
  | done a => exact (Nat.zero_add _).symm
  | ask i next ih =>
    have hrest := ih (store i)
    show (next (store i) >>= f).calls store + 1 = _
    rw [hrest, calls, answer]
    omega

/-! ### Stores that change -/

/-- A program that comes to `a` from `store`, and asks for what meets `P`. -/
structure ComesTo (P : ι → Prop) (store : ι → ν) (a : α) (p : Program ι ν α) : Prop where
  answer : p.answer store = a
  asks : p.Asks P store

/-- **A query may go to another store**, when the two agree on what meets `P`: the program comes
to the same answer, with a query less to make. -/
theorem ComesTo.next {P : ι → Prop} {store store' : ι → ν} {a : α} {i : ι}
    {next : ν → Program ι ν α} (h : (ask i next).ComesTo P store a)
    (hagree : ∀ i, P i → store' i = store i) :
    (next (store' i)).ComesTo P store a ∧
      (next (store' i)).calls store + 1 = (ask i next).calls store := by
  obtain ⟨hi, hnext⟩ := h.asks
  rw [hagree i hi]
  exact ⟨⟨h.answer, hnext⟩, rfl⟩

/-- A program that has returned has come to its answer. -/
theorem ComesTo.eq {P : ι → Prop} {store : ι → ν} {a b : α}
    (h : (done b : Program ι ν α).ComesTo P store a) : b = a := h.answer

/-! ### Loops -/

/-- One program for each item of a list, one after the other. -/
def each (f : α → Program ι ν β) : List α → Program ι ν (List β)
  | [] => pure []
  | a :: as => f a >>= fun b => each f as >>= fun bs => pure (b :: bs)

@[simp] theorem answer_each (store : ι → ν) (f : α → Program ι ν β) (as : List α) :
    (each f as).answer store = as.map fun a => (f a).answer store := by
  induction as with
  | nil => rfl
  | cons a as ih =>
    rw [each, answer_bind, answer_bind, answer_pure, ih, List.map_cons]

theorem asks_each {P : ι → Prop} {store : ι → ν} {f : α → Program ι ν β} {as : List α}
    (h : ∀ a ∈ as, (f a).Asks P store) : (each f as).Asks P store := by
  induction as with
  | nil => trivial
  | cons a as ih =>
    rw [List.forall_mem_cons] at h
    rw [each, asks_bind, asks_bind]
    exact ⟨h.1, ih h.2, asks_pure _ _ _⟩

theorem calls_each_le {store : ι → ν} {f : α → Program ι ν β} {as : List α} {n : ℕ}
    (h : ∀ a ∈ as, (f a).calls store ≤ n) : (each f as).calls store ≤ as.length * n := by
  induction as with
  | nil => exact Nat.zero_le _
  | cons a as ih =>
    rw [List.forall_mem_cons] at h
    have hrest := ih h.2
    rw [each, calls_bind, calls_bind, calls_pure, List.length_cons, Nat.succ_mul]
    omega

/-- Ask for the entries under some keys, one after the other. -/
def collect : List ι → Program ι ν (List ν) := each fun i => ask i done

@[simp] theorem answer_collect (store : ι → ν) (is : List ι) :
    (collect is).answer store = is.map store := answer_each store _ is

theorem asks_collect {P : ι → Prop} (store : ι → ν) {is : List ι} (h : ∀ i ∈ is, P i) :
    (collect is).Asks P store := asks_each fun i hi => ⟨h i hi, trivial⟩

theorem calls_collect_le (store : ι → ν) (is : List ι) :
    (collect is).calls store ≤ is.length := by
  have hone : ∀ i ∈ is, (ask i done : Program ι ν ν).calls store ≤ 1 := fun _ _ => Nat.le_refl 1
  exact Nat.le_trans (calls_each_le hone) (Nat.le_of_eq (Nat.mul_one _))

end Program

end Queries
