import Axis.Threads

/-!
# Serializability

A submitted block is one operation of a sequential run, although the TCP thread makes
several calls for it and other threads make theirs in between.  While the thread is
between two calls, all its answers so far are those it would get if it asked again:
transactions only ever join the pool, and the tip is moved by the thread alone.  The
block takes effect at its last call.

## Main definitions

* `writesSucceed` — the guard of runs without a failing write.
* `Underway` — the thread stands where it would stand if it started now.

## Main results

* `acceptBlock_of_underway` — a thread that comes to `add_block` has a block that is
  accepted now.
* `reachable_of_interleaved` — **the threads reach no state that sequential runs do not
  reach.**
-/

namespace Axis

variable {S : Sodium}

/-- No write fails. -/
def writesSucceed : Threads → Event → Prop
  | _, .createTx _ status | _, .postTx _ status => status = .ok
  | _, .call io => ∀ status ∈ io, status = .ok
  | _, _ => True

/-- The calls that leave the chain alone. -/
abbrev Checks (S : Sodium) (c : Chain) : Phase → Phase → Prop :=
  Relation.ReflTransGen fun phase phase' => call S [] c phase = .ok (c, phase')

/-- The thread stands where it would stand if it started now. -/
def Underway (S : Sodium) (c : Chain) (phase : Phase) : Prop :=
  phase.idle = false →
    ∃ payload : FramePayload, Checks S c (receiveBlock S payload.bytes) phase

/-- Only a thread that answers a frame has a call to make. -/
theorem idle_of_call {io : List WriteStatus} {c : Chain} {phase : Phase} {res : Chain × Phase}
    (h : call S io c phase = .ok res) : phase.idle = false := by
  cases phase with
  | ready | replied | threw => cases h
  | poolContains | getPoolTx | target | tipHash | addBlock => rfl

/-- All calls but `add_block` leave the chain alone. -/
theorem call_check {io : List WriteStatus} {c c' : Chain} {phase phase' : Phase}
    (h : call S io c phase = .ok (c', phase')) (hne : ∀ blk, phase ≠ .addBlock blk) :
    c' = c ∧ call S [] c phase = .ok (c, phase') := by
  cases phase with
  | ready | replied | threw => cases h
  | addBlock blk => exact absurd rfl (hne blk)
  | poolContains | getPoolTx | target | tipHash =>
    have hsame : c' = c := by
      dsimp only [call] at h
      split at h
      all_goals cases h
      all_goals rfl
    rw [hsame] at h
    exact ⟨hsame, h⟩

/-- A check that was passed is passed again after a transaction was admitted. -/
theorem call_admitTx {c : Chain} {st : SignedTransaction} (hv : Chain.Valid S st c)
    {phase phase' : Phase} (h : call S [] c phase = .ok (c, phase'))
    (hidle : phase'.idle = false) :
    call S [] (c.admitTx st.tx .ok).1 phase = .ok ((c.admitTx st.tx .ok).1, phase') := by
  cases phase with
  | ready | replied | threw => cases h
  | poolContains p txid =>
    dsimp only [call] at h ⊢
    split at h
    · next hin =>
      cases h
      obtain ⟨tx, htx⟩ := (FiniteMap.mem_iff_exists _ _).mp hin
      exact if_pos ((FiniteMap.mem_iff_exists _ _).mpr ⟨tx, hv.getElem?_pool htx⟩)
    · cases h
      cases hidle
  | getPoolTx p txid =>
    dsimp only [call] at h ⊢
    split at h
    · cases h
      cases hidle
    · next tx htx =>
      cases h
      rw [hv.getElem?_pool htx]
  | target blk =>
    dsimp only [call] at h ⊢
    split at h
    · cases h
      cases hidle
    · next hwork =>
      cases h
      exact if_neg hwork
  | tipHash blk =>
    dsimp only [call] at h ⊢
    split at h
    · cases h
      cases hidle
    · next hprev =>
      cases h
      exact if_neg hprev
  | addBlock blk =>
    dsimp only [call] at h
    split at h
    all_goals cases h
    all_goals cases hidle

/-- **A thread under way stays so when a transaction is admitted.** -/
theorem Underway.admitTx {c : Chain} {phase : Phase} (h : Underway S c phase)
    {st : SignedTransaction} (hv : Chain.Valid S st c) :
    Underway S (c.admitTx st.tx .ok).1 phase := by
  intro hidle
  obtain ⟨payload, hpath⟩ := h hidle
  refine ⟨payload, ?_⟩
  induction hpath with
  | refl => exact .refl
  | tail hpath hstep ih =>
    have hbusy := idle_of_call hstep
    exact (ih (fun _ => ⟨payload, hpath⟩) hbusy).tail (call_admitTx hv hstep hidle)

/-- From `add_block` on, no call leaves the chain alone. -/
theorem eq_of_calls_addBlock {c : Chain} {blk : Block} {phase : Phase}
    (h : Calls S [] (c, .addBlock blk) (c, phase)) : phase = .addBlock blk := by
  rcases Relation.ReflTransGen.cases_head h with heq | ⟨res, hcall, hrest⟩
  · exact (Prod.mk.inj heq).2.symm
  · exfalso
    have hres : res = (c.grown blk, .replied (.none, "accepted")) := by
      dsimp only [call] at hcall
      rw [addBlock_nil] at hcall
      exact (Except.ok.inj hcall).symm
    subst hres
    rcases Relation.ReflTransGen.cases_head hrest with heq | ⟨res', hcall', -⟩
    · -- the chain has one block more
      have hlen := congrArg List.length (congrArg Chain.blocks (Prod.mk.inj heq).1)
      change (c.blocks ++ [blk]).length = c.blocks.length at hlen
      rw [List.length_append, List.length_singleton] at hlen
      omega
    · cases hcall'

/-- **A thread that comes to `add_block` has a block that is accepted now.** -/
theorem acceptBlock_of_underway {c : Chain} {blk : Block} (h : Underway S c (.addBlock blk)) :
    ∃ payload : FramePayload, acceptBlock S payload.bytes c = .ok blk := by
  obtain ⟨payload, hpath⟩ := h rfl
  refine ⟨payload, ?_⟩
  have hhere : Calls S [] (c, receiveBlock S payload.bytes) (c, .addBlock blk) :=
    hpath.lift (fun phase => (c, phase)) fun _ _ hstep => hstep
  have hthere := calls_acceptBlock (S := S) payload.bytes [] c
  -- calls are deterministic, so one of the two comes first
  have hunique : Relator.RightUnique
      fun s s' : Chain × Phase => call S [] s.1 s.2 = .ok s' := by
    intro s t u ht hu
    exact Except.ok.inj (ht.symm.trans hu)
  cases haccept : acceptBlock S payload.bytes c with
  | ok blk' =>
    rw [haccept] at hthere
    rcases Relation.ReflTransGen.total_of_right_unique hunique hhere hthere with hnext | hnext
    · exact congrArg Except.ok (Phase.addBlock.inj (eq_of_calls_addBlock hnext))
    · exact congrArg Except.ok (Phase.addBlock.inj (eq_of_calls_addBlock hnext)).symm
  | error answer =>
    rw [haccept] at hthere
    rcases Relation.ReflTransGen.total_of_right_unique hunique hhere hthere with hnext | hnext
    · cases eq_of_calls_addBlock hnext
    · -- nothing comes after an answer
      rcases Relation.ReflTransGen.cases_head hnext with heq | ⟨res, hcall, -⟩
      · cases heq
      · cases hcall

/-- **The step of the TCP thread**: a check leaves the chain alone, and `add_block` is the
whole submission. -/
theorem Underway.call {guard : Chain → Op → Prop} {c c' : Chain} {phase phase' : Phase}
    (h : Underway S c phase) (hreach : Reachable S guard c)
    (hguard : ∀ c op, op ≠ .restart → guard c op) {io : List WriteStatus}
    (hio : ∀ status ∈ io, status = .ok) (hcall : call S io c phase = .ok (c', phase')) :
    Reachable S guard c' ∧ Underway S c' phase' := by
  by_cases hblk : ∃ blk, phase = .addBlock blk
  · obtain ⟨blk, rfl⟩ := hblk
    obtain ⟨payload, haccept⟩ := acceptBlock_of_underway h
    have hadded : c.addBlock blk io = (c.grown blk, .ok ()) :=
      addBlock_eq fun status hmem => hio status (List.mem_of_mem_take hmem)
    dsimp only [Axis.call] at hcall
    rw [hadded] at hcall
    cases hcall
    refine ⟨hreach.step (hguard _ (.createBlock payload) (by simp)) ?_, fun hidle => by cases hidle⟩
    show Except.ok (onCreateBlock S payload.bytes [] c).1 = _
    rw [onCreateBlock_eq haccept]
  · obtain ⟨rfl, hstep⟩ := call_check hcall fun blk heq => hblk ⟨blk, heq⟩
    refine ⟨hreach, fun _ => ?_⟩
    obtain ⟨payload, hpath⟩ := h (idle_of_call hcall)
    exact ⟨payload, hpath.tail hstep⟩

/-- **Serializability**: without failing writes, the threads leave a node in a state that
submissions one after the other leave it in. -/
theorem reachable_of_interleaved {guard : Chain → Op → Prop}
    (hguard : ∀ c op, op ≠ .restart → guard c op) {s : Threads}
    (h : Interleaved S guard writesSucceed s) : Reachable S guard s.chain := by
  suffices hinv : Reachable S guard s.chain ∧ Underway S s.chain s.tcp by
    exact hinv.1
  refine Transition.Reachable.rule
    (I := fun s => Reachable S guard s.chain ∧ Underway S s.chain s.tcp) ?_ ?_ h
  · intro s hstart
    obtain ⟨hreach, htcp, -⟩ := hstart
    rw [htcp]
    exact ⟨hreach, fun hidle => by cases hidle⟩
  · intro s e s' _ hinv hwrites hstep
    obtain ⟨hreach, hunder⟩ := hinv
    cases e with
    | createTx payload status =>
      have hok : status = .ok := hwrites
      subst hok
      dsimp only [stepThreads] at hstep
      split at hstep
      · cases hstep
        exact ⟨hreach.step (hguard _ (.createTx payload) (by simp)) rfl,
          fun hidle => by cases hidle⟩
      · cases hstep
    | createBlock payload =>
      dsimp only [stepThreads] at hstep
      split at hstep
      · cases hstep
        exact ⟨hreach, fun _ => ⟨payload, .refl⟩⟩
      · cases hstep
    | call io =>
      dsimp only [stepThreads] at hstep
      split at hstep
      · cases hstep
      next c phase hcall =>
      cases hstep
      exact hunder.call hreach hguard hwrites hcall
    | postTx raw status =>
      have hok : status = .ok := hwrites
      subst hok
      cases hstep
      refine ⟨hreach.step (hguard _ (.postTx raw) (by simp)) rfl, ?_⟩
      dsimp only
      rcases fst_postTransaction (S := S) raw.bytes .ok s.chain with hsame | ⟨parsed, r, -, hadd⟩
      · rw [hsame]
        exact hunder
      · rw [hadd]
        rcases addTx_cases S (parsed.signed S) .ok s.chain with hsame | ⟨hv, hadmitted⟩
        · rw [hsame]
          exact hunder
        · rw [hadmitted]
          exact hunder.admitTx hv
    | getTip | getStatus =>
      cases hstep
      exact ⟨hreach, hunder⟩
    | read i =>
      dsimp only [stepThreads] at hstep
      split at hstep
      · cases hstep
      · split at hstep
        · cases hstep
        · cases hstep
          exact ⟨hreach, hunder⟩

end Axis
