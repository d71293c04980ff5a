import Axis.Lib.PrefixCode

/-!
# Serving a stream of items

A server decodes items from a stream one after the other and hands each one to a handler,
until the decoder or the handler fails.  When the items are read by a prefix code, a stream
of encodings is served as if the items were handed over directly, and a stream that breaks
off inside an encoding is served up to the item before it.

## Main definitions

* `serve` — the loop of the server.
* `handOver` — the handler on a list of items, without a stream.

## Main results

* `serve_flatMap` — **a stream of encodings is served as its items.**
* `serve_rule` — the rule for invariants of the handler.
* `exists_take_of_prefix` — where a stream of encodings breaks off.
-/

namespace PrefixCode

universe u

variable {σ α : Type u} {τ ε β : Type*}

/-- What a server did: the items it handed over, where it stopped in the stream, the state
it reached, and the failure that stopped it. -/
structure Served (σ α τ ε : Type*) where
  items : List α
  input : σ
  state : τ
  error : ε

/-- Hand one more item over first. -/
def Served.cons (a : α) (r : Served σ α τ ε) : Served σ α τ ε := { r with items := a :: r.items }

/-- The loop of a server; `none` when it still runs after `fuel` rounds. -/
def serve (dec : StateT σ (Except ε) α) (handle : α → τ → Except ε τ) :
    ℕ → σ → τ → Option (Served σ α τ ε)
  | 0, _, _ => none
  | fuel + 1, s, t =>
    match dec.run s with
    | .error e => some ⟨[], s, t, e⟩
    | .ok (a, s') =>
      match handle a t with
      | .error e => some ⟨[a], s', t, e⟩
      | .ok t' => (serve dec handle fuel s' t').map (Served.cons a)

/-- What became of a list of items: those handed over, the state reached, and the failure of
the handler, if there was one. -/
structure Handed (α τ ε : Type*) where
  items : List α
  state : τ
  error : Option ε

/-- Hand items over one after the other, until the handler fails. -/
def handOver (handle : α → τ → Except ε τ) : List α → τ → Handed α τ ε
  | [], t => ⟨[], t, none⟩
  | a :: as, t =>
    match handle a t with
    | .error e => ⟨[a], t, some e⟩
    | .ok t' => { handOver handle as t' with items := a :: (handOver handle as t').items }

variable {C : Cursor σ β} {enc : α → List β} {P : α → Prop} {dec : StateT σ (Except ε) α}
  {handle : α → τ → Except ε τ}

/-! ### One round -/

/-- **What a round can do**: stop before an item, stop at an item, or go on after it. -/
theorem serve_cases {fuel : ℕ} {s : σ} {t : τ} {r : Served σ α τ ε}
    (h : serve dec handle (fuel + 1) s t = some r) :
    (∃ e, dec.run s = .error e ∧ r = ⟨[], s, t, e⟩) ∨
    (∃ a s' e, dec.run s = .ok (a, s') ∧ handle a t = .error e ∧ r = ⟨[a], s', t, e⟩) ∨
    ∃ a s' t' r', dec.run s = .ok (a, s') ∧ handle a t = .ok t' ∧
      serve dec handle fuel s' t' = some r' ∧ r = r'.cons a := by
  rw [serve] at h
  cases hrun : dec.run s with
  | error e =>
    rw [hrun] at h
    exact Or.inl ⟨e, rfl, (Option.some.inj h).symm⟩
  | ok p =>
    obtain ⟨a, s'⟩ := p
    rw [hrun] at h
    dsimp only at h
    cases hhandle : handle a t with
    | error e =>
      rw [hhandle] at h
      exact Or.inr (Or.inl ⟨a, s', e, rfl, hhandle, (Option.some.inj h).symm⟩)
    | ok t' =>
      rw [hhandle] at h
      obtain ⟨r', hrest, heq⟩ := Option.map_eq_some_iff.mp h
      exact Or.inr (Or.inr ⟨a, s', t', r', rfl, hhandle, hrest, heq.symm⟩)

theorem serve_of_decode_error {s : σ} {e : ε} (h : dec.run s = .error e) (fuel : ℕ) (t : τ) :
    serve dec handle (fuel + 1) s t = some ⟨[], s, t, e⟩ := by
  rw [serve, h]

theorem serve_of_handle_error {s s' : σ} {a : α} {t : τ} {e : ε} (h : dec.run s = .ok (a, s'))
    (he : handle a t = .error e) (fuel : ℕ) :
    serve dec handle (fuel + 1) s t = some ⟨[a], s', t, e⟩ := by
  rw [serve, h]
  dsimp only
  rw [he]

theorem serve_of_ok {s s' : σ} {a : α} {t t' : τ} (h : dec.run s = .ok (a, s'))
    (ht : handle a t = .ok t') (fuel : ℕ) :
    serve dec handle (fuel + 1) s t = (serve dec handle fuel s' t').map (Served.cons a) := by
  rw [serve, h]
  dsimp only
  rw [ht]

/-! ### Handing over -/

theorem handOver_cons_error {a : α} {as : List α} {t : τ} {e : ε} (h : handle a t = .error e) :
    handOver handle (a :: as) t = ⟨[a], t, some e⟩ := by
  rw [handOver, h]

theorem handOver_cons_ok {a : α} {as : List α} {t t' : τ} (h : handle a t = .ok t') :
    handOver handle (a :: as) t =
      { handOver handle as t' with items := a :: (handOver handle as t').items } := by
  rw [handOver, h]

/-- The items handed over are the first ones. -/
theorem handOver_prefix (as : List α) (t : τ) : (handOver handle as t).items <+: as := by
  induction as generalizing t with
  | nil => exact List.nil_prefix
  | cons a as ih =>
    cases hrun : handle a t with
    | error e =>
      rw [handOver_cons_error hrun]
      exact (List.prefix_cons_inj a).mpr List.nil_prefix
    | ok t' =>
      rw [handOver_cons_ok hrun]
      exact (List.prefix_cons_inj a).mpr (ih t')

/-- A handler that does not fail is handed all items. -/
theorem handOver_of_error_eq_none {as : List α} {t : τ}
    (h : (handOver handle as t).error = none) : (handOver handle as t).items = as := by
  induction as generalizing t with
  | nil => rfl
  | cons a as ih =>
    cases hrun : handle a t with
    | error e =>
      rw [handOver_cons_error hrun] at h
      cases h
    | ok t' =>
      rw [handOver_cons_ok hrun] at h ⊢
      rw [ih h]

/-! ### Streams of encodings -/

/-- **A stream of encodings is served as its items**, when the decoder fails on what
follows. -/
theorem serve_flatMap (hdec : Complete C enc P dec) {as : List α} (has : ∀ a ∈ as, P a) {s : σ}
    (hpre : as.flatMap enc <+: C.rest s) {e : ε}
    (hend : dec.run (C.skip (as.flatMap enc).length s) = .error e) {fuel : ℕ}
    (hfuel : as.length < fuel) (t : τ) :
    serve dec handle fuel s t = some
      { items := (handOver handle as t).items
        input := C.skip ((handOver handle as t).items.flatMap enc).length s
        state := (handOver handle as t).state
        error := (handOver handle as t).error.getD e } := by
  induction as generalizing s t fuel with
  | nil =>
    obtain ⟨fuel, rfl⟩ := Nat.exists_eq_add_of_lt hfuel
    rw [List.flatMap_nil, List.length_nil, C.skip_zero] at hend
    rw [serve_of_decode_error hend, handOver, List.flatMap_nil, List.length_nil, C.skip_zero]
    rfl
  | cons a as ih =>
    obtain ⟨fuel, rfl⟩ := Nat.exists_eq_add_of_lt hfuel
    rw [List.forall_mem_cons] at has
    rw [List.flatMap_cons] at hpre hend
    have hfirst := hdec has.1 ((List.prefix_append _ _).trans hpre)
    cases hrun : handle a t with
    | error e' =>
      rw [serve_of_handle_error hfirst hrun, handOver_cons_error hrun, List.flatMap_singleton]
      rfl
    | ok t' =>
      rw [List.length_append, ← C.skip_skip] at hend
      have hrest := ih has.2 (prefix_rest_skip hpre) hend
        (show as.length < as.length + 1 + fuel by omega) t'
      rw [serve_of_ok hfirst hrun, List.length_cons, hrest, handOver_cons_ok hrun,
        Option.map_some, Served.cons, C.skip_skip, ← List.length_append, ← List.flatMap_cons]

/-- Where a stream of encodings breaks off: inside one of them. -/
theorem exists_take_of_prefix {as : List α} {p : List β} (hpre : p <+: as.flatMap enc)
    (hne : p ≠ as.flatMap enc) :
    ∃ k, ∃ hk : k < as.length, ∃ t, p = (as.take k).flatMap enc ++ t ∧
      t <+: enc (as.get ⟨k, hk⟩) ∧ t ≠ enc (as.get ⟨k, hk⟩) ∧
      p.length < ((as.take (k + 1)).flatMap enc).length := by
  induction as generalizing p with
  | nil => exact absurd (List.prefix_nil.mp hpre) hne
  | cons a as ih =>
    rw [List.flatMap_cons] at hpre hne
    by_cases hfull : enc a <+: p
    · obtain ⟨q, rfl⟩ := hfull
      rw [List.prefix_append_right_inj] at hpre
      obtain ⟨k, hk, t, hq, ht, hne', hlt⟩ := ih hpre fun heq => hne (by rw [heq])
      refine ⟨k + 1, Nat.succ_lt_succ hk, t, ?_, ht, hne', ?_⟩
      · rw [List.take_succ_cons, List.flatMap_cons, List.append_assoc, ← hq]
      · rw [List.take_succ_cons, List.flatMap_cons, List.length_append, List.length_append]
        exact Nat.add_lt_add_left hlt _
    · have hin : p <+: enc a :=
        (List.prefix_or_prefix_of_prefix hpre (List.prefix_append _ _)).resolve_right hfull
      have hne' : p ≠ enc a := by
        intro hall
        rw [hall] at hfull
        exact hfull List.prefix_rfl
      refine ⟨0, Nat.succ_pos _, p, rfl, hin, hne', ?_⟩
      rw [List.take_succ_cons, List.take_zero, List.flatMap_singleton]
      exact lt_of_le_of_ne hin.length_le fun hlen => hne' (hin.eq_of_length hlen)

/-! ### What a server does on any stream -/

/-- What a server hands over was in the stream, item by item. -/
theorem serve_sound (hdec : Sound C enc P dec) {fuel : ℕ} {s : σ} {t : τ} {r : Served σ α τ ε}
    (h : serve dec handle fuel s t = some r) :
    (∀ a ∈ r.items, P a) ∧ r.items.flatMap enc <+: C.rest s ∧
      r.input = C.skip (r.items.flatMap enc).length s := by
  induction fuel generalizing s t r with
  | zero => cases h
  | succ fuel ih =>
    rcases serve_cases h with ⟨e, -, rfl⟩ | ⟨a, s', e, hrun, -, rfl⟩ |
      ⟨a, s', t', r', hrun, -, hrest, rfl⟩
    · exact ⟨by simp, List.nil_prefix, (C.skip_zero s).symm⟩
    · obtain ⟨ha, hpre, rfl⟩ := hdec hrun
      rw [List.flatMap_singleton]
      exact ⟨by simpa using ha, hpre, rfl⟩
    · obtain ⟨ha, hpre, rfl⟩ := hdec hrun
      obtain ⟨hall, hpre', hinput⟩ := ih hrest
      rw [Served.cons, List.flatMap_cons]
      refine ⟨List.forall_mem_cons.mpr ⟨ha, hall⟩, append_prefix_of_skip hpre hpre', ?_⟩
      rw [hinput, C.skip_skip, List.length_append]

/-- **The rule for invariants of the handler**, which may use what the decoder promises. -/
theorem serve_rule (hdec : Sound C enc P dec) {I : τ → Prop}
    (hstep : ∀ a t t', P a → I t → handle a t = .ok t' → I t') {fuel : ℕ} {s : σ} {t : τ}
    (ht : I t) {r : Served σ α τ ε} (h : serve dec handle fuel s t = some r) : I r.state := by
  induction fuel generalizing s t r with
  | zero => cases h
  | succ fuel ih =>
    rcases serve_cases h with ⟨e, -, rfl⟩ | ⟨a, s', e, -, -, rfl⟩ |
      ⟨a, s', t', r', hrun, hhandle, hrest, rfl⟩
    · exact ht
    · exact ht
    · have hkept : I r'.state := ih (hstep a t t' (hdec hrun).1 ht hhandle) hrest
      exact hkept

/-- A server stops when every encoding has a symbol. -/
theorem exists_serve (hdec : Sound C enc P dec) (hpos : ∀ a, P a → 0 < (enc a).length)
    {fuel : ℕ} {s : σ} (hfuel : (C.rest s).length < fuel) (t : τ) :
    ∃ r, serve dec handle fuel s t = some r := by
  induction fuel generalizing s t with
  | zero => exact absurd hfuel (Nat.not_lt_zero _)
  | succ fuel ih =>
    cases hrun : dec.run s with
    | error e => exact ⟨_, serve_of_decode_error hrun fuel t⟩
    | ok p =>
      obtain ⟨a, s'⟩ := p
      obtain ⟨ha, hpre, rfl⟩ := hdec hrun
      cases hhandle : handle a t with
      | error e => exact ⟨_, serve_of_handle_error hrun hhandle fuel⟩
      | ok t' =>
        -- what is left of the stream is shorter
        have hshort : (C.rest (C.skip (enc a).length s)).length < fuel := by
          have hlen := hpos a ha
          have hle := hpre.length_le
          rw [C.rest_skip, List.length_drop]
          omega
        obtain ⟨r, hrest⟩ := ih hshort t'
        exact ⟨r.cons a, by rw [serve_of_ok hrun hhandle, hrest, Option.map_some]⟩

end PrefixCode
