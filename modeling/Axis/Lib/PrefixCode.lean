import Mathlib.Data.List.Basic
import Mathlib.Data.List.Infix

/-!
# Prefix codes read by a cursor

A decoder that walks over its input with a cursor and may fail is a *prefix
code* for an encoder when it accepts exactly the inputs that start with an
encoding, returns the value encoded, and leaves the cursor right after it.
Both directions matter: the first is the round trip, the second says that no
byte of what was read is ignored.

Prefix codes compose, so that the code of a record is assembled from the codes
of its fields by `Code.bind`, and the code of a counted list from the code of
its items by `Code.many`.  The two directions compose separately, for decoders
that have only one of them.

## Main definitions

* `Cursor` — states that walk over a list of symbols.
* `Complete C enc P dec` — `dec` reads back the encodings of values satisfying `P`.
* `Sound C enc P dec` — `dec` accepts nothing else.
* `Code C enc P dec` — both.
* `many` — the decoder loop of a counted list.

## Main results

* `Code.bind`, `Code.map`, `Code.many` — the composition rules.
* `Code.run_start_error_iff` — the decoder fails exactly where no encoding starts.
* `Code.prefix_free` — **no encoding is a proper prefix of another.**
-/

namespace PrefixCode

universe u

variable {σ α γ : Type u} {ε β : Type*}

/-- States that walk over a list of symbols: what is left to read, how to move
on, and where to start. -/
structure Cursor (σ β : Type*) where
  /-- The symbols not yet read. -/
  rest : σ → List β
  /-- The state after `n` more symbols. -/
  skip : ℕ → σ → σ
  /-- The state before the first symbol of an input. -/
  start : List β → σ
  rest_start : ∀ l, rest (start l) = l
  rest_skip : ∀ n s, rest (skip n s) = (rest s).drop n
  skip_zero : ∀ s, skip 0 s = s
  skip_skip : ∀ m n s, skip m (skip n s) = skip (n + m) s

/-- An input that starts with the encoding of a value satisfying `P` is read back
by `dec`, and no further. -/
def Complete (C : Cursor σ β) (enc : α → List β) (P : α → Prop)
    (dec : StateT σ (Except ε) α) : Prop :=
  ∀ ⦃s a⦄, P a → enc a <+: C.rest s → dec.run s = .ok (a, C.skip (enc a).length s)

/-- What `dec` accepts starts with the encoding of what it returns. -/
def Sound (C : Cursor σ β) (enc : α → List β) (P : α → Prop)
    (dec : StateT σ (Except ε) α) : Prop :=
  ∀ ⦃s a s'⦄, dec.run s = .ok (a, s') →
    P a ∧ enc a <+: C.rest s ∧ s' = C.skip (enc a).length s

/-- The decoder `dec` reads exactly the encodings under `enc` of the values
satisfying `P`. -/
structure Code (C : Cursor σ β) (enc : α → List β) (P : α → Prop)
    (dec : StateT σ (Except ε) α) : Prop where
  complete : Complete C enc P dec
  sound : Sound C enc P dec

/-- The loop that decodes `n` items one after the other. -/
def many (item : StateT σ (Except ε) α) : ℕ → StateT σ (Except ε) (List α)
  | 0 => pure []
  | n + 1 => do
    let a ← item
    let as ← many item n
    pure (a :: as)

/-- A sequenced decoder succeeds when both of its halves do. -/
theorem run_bind_eq_ok {d₁ : StateT σ (Except ε) α} {d₂ : α → StateT σ (Except ε) γ}
    {s : σ} {r : γ × σ} :
    (d₁ >>= d₂).run s = .ok r ↔ ∃ a s₁, d₁.run s = .ok (a, s₁) ∧ (d₂ a).run s₁ = .ok r := by
  rw [StateT.run_bind]
  cases h : d₁.run s with
  | error e =>
    simp only [reduceCtorEq, false_and, exists_false, iff_false]
    intro hok
    cases hok
  | ok p =>
    obtain ⟨a, s₁⟩ := p
    constructor
    · intro hok
      exact ⟨a, s₁, rfl, hok⟩
    · intro hex
      obtain ⟨a', s', heq, hok⟩ := hex
      cases heq
      exact hok

theorem run_pure_eq_ok {a : α} {s : σ} {r : α × σ} :
    (pure a : StateT σ (Except ε) α).run s = .ok r ↔ (a, s) = r := by
  rw [StateT.run_pure]
  constructor
  · intro h
    cases h
    rfl
  · intro heq
    obtain rfl := heq
    rfl

/-- A loop whose rounds end with a conversion that may fail is the loop without the
conversions, followed by them. -/
theorem run_many_bind_liftM_eq_ok {item : StateT σ (Except ε) α} {f : α → Except ε γ} {n : ℕ}
    {s s' : σ} {bs : List γ} :
    (many (item >>= fun a => liftM (f a)) n).run s = .ok (bs, s') ↔
      ∃ as, (many item n).run s = .ok (as, s') ∧ List.Forall₂ (fun a b => f a = .ok b) as bs := by
  have hlift : ∀ (x : Except ε γ) (t : σ) (r : γ × σ),
      (liftM x : StateT σ (Except ε) γ).run t = .ok r ↔ x = .ok r.1 ∧ t = r.2 := by
    intro x t r
    obtain ⟨b, t'⟩ := r
    cases x with
    | error e =>
      constructor
      · intro h
        cases h
      · intro hboth
        obtain ⟨h, -⟩ := hboth
        cases h
    | ok b' =>
      constructor
      · intro h
        cases h
        exact ⟨rfl, rfl⟩
      · intro hboth
        obtain ⟨h, rfl⟩ := hboth
        cases h
        rfl
  induction n generalizing s bs with
  | zero =>
    rw [many, many, run_pure_eq_ok]
    constructor
    · intro heq
      obtain ⟨rfl, rfl⟩ := Prod.mk.inj heq
      exact ⟨[], rfl, .nil⟩
    · intro hex
      obtain ⟨as, hrun, hall⟩ := hex
      obtain ⟨rfl, rfl⟩ := Prod.mk.inj (run_pure_eq_ok.mp hrun)
      cases hall
      rfl
  | succ n ih =>
    rw [many, many]
    simp only [run_bind_eq_ok, run_pure_eq_ok, hlift]
    constructor
    · intro hex
      obtain ⟨b, s₂, ⟨a, s₁, hitem, hconv, rfl⟩, bs', s₃, hloop, heq⟩ := hex
      obtain ⟨rfl, rfl⟩ := Prod.mk.inj heq
      obtain ⟨as, hmany, hall⟩ := ih.mp hloop
      exact ⟨a :: as, ⟨a, s₁, hitem, as, s₃, hmany, rfl⟩, .cons hconv hall⟩
    · intro hex
      obtain ⟨_, ⟨a, s₁, hitem, as, s₃, hmany, heq⟩, hall⟩ := hex
      obtain ⟨rfl, rfl⟩ := Prod.mk.inj heq
      cases hall with
      | cons hconv hall =>
        exact ⟨_, s₁, ⟨a, s₁, hitem, hconv, rfl⟩, _, s₃, ih.mpr ⟨as, hmany, hall⟩, rfl⟩

variable {C : Cursor σ β} {enc enc' : α → List β} {P P' : α → Prop}
  {dec : StateT σ (Except ε) α}

/-- What follows a prefix that was read, when the input went on with `r`. -/
theorem prefix_rest_skip {e r : List β} {s : σ} (h : e ++ r <+: C.rest s) :
    r <+: C.rest (C.skip e.length s) := by
  obtain ⟨t, ht⟩ := h
  rw [C.rest_skip, ← ht, List.append_assoc, List.drop_left]
  exact List.prefix_append _ _

/-- A prefix that was read, and one that was read after it. -/
theorem append_prefix_of_skip {e r : List β} {s : σ} (he : e <+: C.rest s)
    (hr : r <+: C.rest (C.skip e.length s)) : e ++ r <+: C.rest s := by
  obtain ⟨t, ht⟩ := he
  rw [C.rest_skip, ← ht, List.drop_left] at hr
  rw [← ht]
  exact (List.prefix_append_right_inj _).mpr hr

/-! ### Reading back what was encoded -/

namespace Complete

/-- Nothing is read, and the value is known beforehand. -/
protected theorem pure (a : α) :
    Complete C (fun _ => []) (fun b => b = a) (pure a : StateT σ (Except ε) α) := by
  intro s b hb _
  subst hb
  rw [List.length_nil, C.skip_zero]
  rfl

/-- Sequencing: the value `b` read in the end determines, through `f`, the value
the first decoder returns, and its encoding is the first one followed by the
second one. -/
protected theorem bind {enc₁ : α → List β} {P₁ : α → Prop} {d₁ : StateT σ (Except ε) α}
    {enc₂ : α → γ → List β} {P₂ : α → γ → Prop} {d₂ : α → StateT σ (Except ε) γ}
    (f : γ → α) (h₁ : Complete C enc₁ P₁ d₁) (h₂ : ∀ a, Complete C (enc₂ a) (P₂ a) (d₂ a)) :
    Complete C (fun b => enc₁ (f b) ++ enc₂ (f b) b) (fun b => P₁ (f b) ∧ P₂ (f b) b)
      (d₁ >>= d₂) := by
  intro s b hboth hpre
  obtain ⟨hP₁, hP₂⟩ := hboth
  have hfirst := h₁ hP₁ ((List.prefix_append _ _).trans hpre)
  have hsecond := h₂ (f b) hP₂ (prefix_rest_skip hpre)
  rw [C.skip_skip, ← List.length_append] at hsecond
  exact run_bind_eq_ok.mpr ⟨_, _, hfirst, hsecond⟩

/-- A weaker promise about the same encodings. -/
theorem congr (h : Complete C enc P dec) (hP : ∀ a, P' a → P a)
    (henc : ∀ a, P' a → enc' a = enc a) : Complete C enc' P' dec := by
  intro s a ha hpre
  rw [henc a ha] at hpre ⊢
  exact h (hP a ha) hpre

/-- Counted lists. -/
protected theorem many {item : StateT σ (Except ε) α} (h : Complete C enc P item) (n : ℕ) :
    Complete C (fun l => l.flatMap enc) (fun l => l.length = n ∧ ∀ a ∈ l, P a)
      (PrefixCode.many item n) := by
  induction n with
  | zero =>
    intro s l hboth _
    obtain ⟨hlen, -⟩ := hboth
    rw [List.length_eq_zero_iff.mp hlen]
    simp only [List.flatMap_nil, List.length_nil, C.skip_zero]
    rfl
  | succ n ih =>
    -- the head is read by the item decoder, the tail by the loop for `n`
    intro s l hboth hpre
    obtain ⟨hlen, hall⟩ := hboth
    cases l with
    | nil => simp at hlen
    | cons a as =>
      simp only [List.flatMap_cons] at hpre ⊢
      have hfirst := h (hall a List.mem_cons_self) ((List.prefix_append _ _).trans hpre)
      have htail := ih ⟨by simpa using hlen, fun b hb => hall b (List.mem_cons_of_mem _ hb)⟩
        (prefix_rest_skip hpre)
      rw [C.skip_skip] at htail
      refine run_bind_eq_ok.mpr ⟨_, _, hfirst, run_bind_eq_ok.mpr ⟨_, _, htail, ?_⟩⟩
      rw [run_pure_eq_ok, List.length_append]

/-- The round trip, with whatever follows left unread. -/
theorem run_start (h : Complete C enc P dec) {a : α} (ha : P a) (suf : List β) :
    dec.run (C.start (enc a ++ suf)) =
      .ok (a, C.skip (enc a).length (C.start (enc a ++ suf))) := by
  refine h ha ?_
  rw [C.rest_start]
  exact List.prefix_append _ _

end Complete

/-! ### Accepting nothing else -/

namespace Sound

protected theorem bind {enc₁ : α → List β} {P₁ : α → Prop} {d₁ : StateT σ (Except ε) α}
    {enc₂ : α → γ → List β} {P₂ : α → γ → Prop} {d₂ : α → StateT σ (Except ε) γ}
    (f : γ → α) (h₁ : Sound C enc₁ P₁ d₁) (h₂ : ∀ a, Sound C (enc₂ a) (P₂ a) (d₂ a))
    (hf : ∀ a b, P₂ a b → f b = a) :
    Sound C (fun b => enc₁ (f b) ++ enc₂ (f b) b) (fun b => P₁ (f b) ∧ P₂ (f b) b)
      (d₁ >>= d₂) := by
  intro s b s' h
  obtain ⟨a, s₁, hfirst, hsecond⟩ := run_bind_eq_ok.mp h
  obtain ⟨hP₁, hpre₁, rfl⟩ := h₁ hfirst
  obtain ⟨hP₂, hpre₂, rfl⟩ := h₂ a hsecond
  have hfa := hf a b hP₂
  subst hfa
  refine ⟨⟨hP₁, hP₂⟩, append_prefix_of_skip hpre₁ hpre₂, ?_⟩
  rw [C.skip_skip, List.length_append]

theorem congr (h : Sound C enc P dec) (hP : ∀ a, P a → P' a)
    (henc : ∀ a, P a → enc' a = enc a) : Sound C enc' P' dec := by
  intro s a s' hok
  obtain ⟨haP, hpre, hs⟩ := h hok
  rw [henc a haP]
  exact ⟨hP a haP, hpre, hs⟩

protected theorem many {item : StateT σ (Except ε) α} (h : Sound C enc P item) (n : ℕ) :
    Sound C (fun l => l.flatMap enc) (fun l => l.length = n ∧ ∀ a ∈ l, P a)
      (PrefixCode.many item n) := by
  induction n with
  | zero =>
    intro s l s' hok
    rw [PrefixCode.many, run_pure_eq_ok, Prod.mk.injEq] at hok
    obtain ⟨rfl, rfl⟩ := hok
    exact ⟨⟨rfl, by simp⟩, List.nil_prefix, (C.skip_zero s).symm⟩
  | succ n ih =>
    intro s l s' hok
    obtain ⟨a, s₁, hfirst, htail⟩ := run_bind_eq_ok.mp hok
    obtain ⟨as, s₂, hloop, hlast⟩ := run_bind_eq_ok.mp htail
    obtain ⟨hPa, hpre, rfl⟩ := h hfirst
    obtain ⟨⟨hlen, hall⟩, hpre', rfl⟩ := ih hloop
    rw [run_pure_eq_ok, Prod.mk.injEq] at hlast
    obtain ⟨rfl, rfl⟩ := hlast
    refine ⟨⟨by rw [List.length_cons, hlen], ?_⟩, ?_, ?_⟩
    · intro b hb
      rcases List.mem_cons.mp hb with rfl | hb
      · exact hPa
      · exact hall b hb
    · simp only [List.flatMap_cons]
      exact append_prefix_of_skip hpre hpre'
    · simp only [List.flatMap_cons, C.skip_skip, List.length_append]

end Sound

/-! ### Both directions -/

namespace Code

/-- **Sequencing.**  See `Complete.bind`. -/
protected theorem bind {enc₁ : α → List β} {P₁ : α → Prop} {d₁ : StateT σ (Except ε) α}
    {enc₂ : α → γ → List β} {P₂ : α → γ → Prop} {d₂ : α → StateT σ (Except ε) γ}
    (f : γ → α) (h₁ : Code C enc₁ P₁ d₁) (h₂ : ∀ a, Code C (enc₂ a) (P₂ a) (d₂ a))
    (hf : ∀ a b, P₂ a b → f b = a) :
    Code C (fun b => enc₁ (f b) ++ enc₂ (f b) b) (fun b => P₁ (f b) ∧ P₂ (f b) b)
      (d₁ >>= d₂) :=
  ⟨Complete.bind f h₁.complete fun a => (h₂ a).complete,
    Sound.bind f h₁.sound (fun a => (h₂ a).sound) hf⟩

/-- Two descriptions of one code. -/
theorem congr (h : Code C enc P dec) (hP : ∀ a, P' a ↔ P a)
    (henc : ∀ a, P a → enc' a = enc a) : Code C enc' P' dec :=
  ⟨h.complete.congr (fun a => (hP a).mp) fun a ha => henc a ((hP a).mp ha),
    h.sound.congr (fun a => (hP a).mpr) henc⟩

/-- Reading a value through another one that determines it. -/
protected theorem map (h : Code C enc P dec) (g : α → γ) (f : γ → α)
    (hfg : ∀ a, P a → f (g a) = a) :
    Code C (fun b => enc (f b)) (fun b => P (f b) ∧ g (f b) = b)
      (dec >>= fun a => pure (g a)) where
  complete := by
    intro s b hboth hpre
    obtain ⟨hP, hg⟩ := hboth
    refine run_bind_eq_ok.mpr ⟨_, _, h.complete hP hpre, ?_⟩
    rw [run_pure_eq_ok, hg]
  sound := by
    intro s b s' hok
    obtain ⟨a, s₁, hfirst, hlast⟩ := run_bind_eq_ok.mp hok
    obtain ⟨hP, hpre, rfl⟩ := h.sound hfirst
    rw [run_pure_eq_ok, Prod.mk.injEq] at hlast
    obtain ⟨rfl, rfl⟩ := hlast
    simp only [hfg a hP]
    exact ⟨⟨hP, trivial⟩, hpre, trivial⟩

/-- **Counted lists.**  The loop over `n` items reads exactly the encodings of
the lists of length `n`. -/
protected theorem many {item : StateT σ (Except ε) α} (h : Code C enc P item) (n : ℕ) :
    Code C (fun l => l.flatMap enc) (fun l => l.length = n ∧ ∀ a ∈ l, P a)
      (PrefixCode.many item n) :=
  ⟨h.complete.many n, h.sound.many n⟩

/-- **Exact rejection**: the decoder fails on the inputs that start with no encoding, and
on no others. -/
theorem run_start_error_iff (h : Code C enc P dec) (l : List β) :
    (∃ e, dec.run (C.start l) = .error e) ↔ ¬ ∃ a, P a ∧ enc a <+: l := by
  constructor
  · intro herr hex
    obtain ⟨e, herr⟩ := herr
    obtain ⟨a, ha, hpre⟩ := hex
    rw [← C.rest_start l] at hpre
    rw [h.complete ha hpre] at herr
    cases herr
  · intro hnone
    cases hrun : dec.run (C.start l) with
    | error e => exact ⟨e, rfl⟩
    | ok p =>
      obtain ⟨a, s'⟩ := p
      obtain ⟨ha, hpre, -⟩ := h.sound hrun
      rw [C.rest_start] at hpre
      exact absurd ⟨a, ha, hpre⟩ hnone

/-- No encoding is a proper prefix of another, and equal encodings have equal
values. -/
theorem prefix_free (h : Code C enc P dec) {a b : α} (ha : P a) (hb : P b)
    {s t : List β} (heq : enc a ++ s = enc b ++ t) : a = b ∧ s = t := by
  have hrun := h.complete.run_start ha s
  rw [heq, h.complete.run_start hb t] at hrun
  have hab : b = a := by
    injection hrun with hpair
    injection hpair
  subst hab
  exact ⟨rfl, List.append_cancel_left heq⟩

end Code

end PrefixCode
