import Mathlib.Data.List.Basic
import Mathlib.Data.List.Induction
import Mathlib.Data.List.Nodup
import Mathlib.Tactic.Common

/-!
# Histories that create and spend resources

A history is a list of events, each of which first spends some names and then
creates some named values.  A value is *unspent* after a history when an event
created it and no later event spent or created its name.

Nothing here prevents an event from spending a name that was never created,
or a name from being created twice: those are properties of a history, and a
program has to see to them.

## Main definitions

* `Unspent h i v` — the name `i` holds the value `v` after the history `h`.
* `Sourced h` — every spend names something created at an earlier event.
* `Fresh h` — no name is created twice.

## Main results

* `unspent_iff_getElem?` — what is unspent, by positions of the history.
* `unspent_concat` — what one more event leaves unspent.
* `unspent_append` — what is unspent after a batch was made by it or survived it.
* `Clean.append` — **a batch of events that spend disjoint unspent names and
  create new ones keeps a history free of double spends.**
-/

namespace Ledger

variable {τ ι ν : Type*}

/-- Events that spend names and create named values. -/
structure Effects (τ ι ν : Type*) where
  /-- The names an event spends. -/
  spends : τ → List ι
  /-- The named values an event creates. -/
  creates : τ → List (ι × ν)

variable (E : Effects τ ι ν)

/-- The names an event creates. -/
def Effects.names (t : τ) : List ι := (E.creates t).map Prod.fst

/-- The names a history spends, with repetitions. -/
def spent (h : List τ) : List ι := h.flatMap E.spends

/-- The names a history creates, with repetitions. -/
def created (h : List τ) : List ι := h.flatMap E.names

/-- The name `i` holds the value `v` after the history `h`: some event created
it, and no later one spent or created the name. -/
def Unspent (h : List τ) (i : ι) (v : ν) : Prop :=
  ∃ pre t post, h = pre ++ t :: post ∧ (i, v) ∈ E.creates t ∧
    ∀ t' ∈ post, i ∉ E.spends t' ∧ i ∉ E.names t'

/-- Every spend names something created at a strictly earlier event. -/
def Sourced (h : List τ) : Prop :=
  ∀ pre t post, h = pre ++ t :: post → ∀ i ∈ E.spends t, i ∈ created E pre

/-- No name is created twice. -/
def Fresh (h : List τ) : Prop := (created E h).Nodup

variable {E}

theorem mem_names {t : τ} {i : ι} : i ∈ E.names t ↔ ∃ v, (i, v) ∈ E.creates t := by
  rw [Effects.names, List.mem_map]
  constructor
  · intro hex
    obtain ⟨⟨j, v⟩, hmem, rfl⟩ := hex
    exact ⟨v, hmem⟩
  · intro hex
    obtain ⟨v, hmem⟩ := hex
    exact ⟨(i, v), hmem, rfl⟩

theorem mem_spent {h : List τ} {i : ι} : i ∈ spent E h ↔ ∃ t ∈ h, i ∈ E.spends t :=
  List.mem_flatMap

theorem mem_created {h : List τ} {i : ι} : i ∈ created E h ↔ ∃ t ∈ h, i ∈ E.names t :=
  List.mem_flatMap

@[simp] theorem spent_append (h l : List τ) : spent E (h ++ l) = spent E h ++ spent E l :=
  List.flatMap_append

@[simp] theorem created_append (h l : List τ) :
    created E (h ++ l) = created E h ++ created E l := List.flatMap_append

@[simp] theorem spent_singleton (t : τ) : spent E [t] = E.spends t := by simp [spent]

@[simp] theorem created_singleton (t : τ) : created E [t] = E.names t := by simp [created]

/-- A split of a history with one more event is at that event, or in the history. -/
theorem concat_eq_append_cons {h pre post : List τ} {t u : τ}
    (heq : h ++ [t] = pre ++ u :: post) :
    (pre = h ∧ u = t ∧ post = []) ∨ ∃ post', post = post' ++ [t] ∧ h = pre ++ u :: post' := by
  -- the last event is `t` on either side
  rcases List.eq_nil_or_concat post with rfl | ⟨post', w, rfl⟩
  · obtain ⟨hpre, hlast⟩ := List.append_inj' heq rfl
    exact Or.inl ⟨hpre.symm, (List.singleton_inj.mp hlast).symm, rfl⟩
  · rw [List.concat_eq_append, ← List.cons_append, ← List.append_assoc] at heq
    obtain ⟨hpre, hlast⟩ := List.append_inj' heq rfl
    rw [List.singleton_inj] at hlast
    exact Or.inr ⟨post', by rw [List.concat_eq_append, hlast], hpre⟩

/-! ### What is unspent -/

theorem not_unspent_nil {i : ι} {v : ν} : ¬ Unspent E [] i v := by
  intro hex
  obtain ⟨pre, t, post, heq, -⟩ := hex
  simp at heq

/-- The same by positions: the event at a position created the value, and no event at a
later position spent or created its name. -/
theorem unspent_iff_getElem? {h : List τ} {i : ι} {v : ν} :
    Unspent E h i v ↔ ∃ (n : ℕ) (t : τ), h[n]? = some t ∧ (i, v) ∈ E.creates t ∧
      ∀ (m : ℕ) (t' : τ), n < m → h[m]? = some t' → i ∉ E.spends t' ∧ i ∉ E.names t' := by
  constructor
  · intro hex
    obtain ⟨pre, t, post, rfl, hcre, hpost⟩ := hex
    refine ⟨pre.length, t, by simp, hcre, fun m t' hlt hget => hpost t' ?_⟩
    -- a later position is one behind the event
    obtain ⟨k, rfl⟩ := Nat.exists_eq_add_of_lt hlt
    have hk : (pre ++ t :: post)[pre.length + k + 1]? = post[k]? := by
      rw [List.getElem?_append_right (by omega)]
      simp [Nat.add_assoc]
    rw [hk] at hget
    exact List.mem_of_getElem? hget
  · intro hex
    obtain ⟨n, t, hget, hcre, hlater⟩ := hex
    obtain ⟨hn, rfl⟩ := List.getElem?_eq_some_iff.mp hget
    refine ⟨h.take n, h[n], h.drop (n + 1), ?_, hcre, fun t' ht' => ?_⟩
    · rw [← List.drop_eq_getElem_cons hn, List.take_append_drop]
    · obtain ⟨k, hk⟩ := List.mem_iff_getElem?.mp ht'
      rw [List.getElem?_drop] at hk
      exact hlater (n + 1 + k) t' (by omega) hk

/-- What one more event leaves unspent: its own creations, and what it neither
spends nor creates anew. -/
theorem unspent_concat {h : List τ} {t : τ} {i : ι} {v : ν} :
    Unspent E (h ++ [t]) i v ↔
      (i, v) ∈ E.creates t ∨ Unspent E h i v ∧ i ∉ E.spends t ∧ i ∉ E.names t := by
  constructor
  · intro hex
    obtain ⟨pre, t', post, heq, hcre, hpost⟩ := hex
    rcases concat_eq_append_cons heq with ⟨-, rfl, -⟩ | ⟨post', rfl, hpre⟩
    · exact Or.inl hcre
    · refine Or.inr ⟨⟨pre, t', post', hpre, hcre, fun u hu => hpost u ?_⟩, hpost t ?_⟩
      · exact List.mem_append_left _ hu
      · exact List.mem_append_right _ (List.mem_singleton_self t)
  · intro hcases
    rcases hcases with hcre | ⟨⟨pre, t', post, rfl, hcre, hpost⟩, hkeep⟩
    · exact ⟨h, t, [], rfl, hcre, by simp⟩
    · refine ⟨pre, t', post ++ [t], by simp, hcre, fun u hu => ?_⟩
      rcases List.mem_append.mp hu with hu | hu
      · exact hpost u hu
      · rw [List.mem_singleton] at hu
        rw [hu]
        exact hkeep

/-- What is unspent after a batch was made by one of its events, or was unspent
before and is spent by none of them. -/
theorem unspent_append {h l : List τ} {i : ι} {v : ν} (hu : Unspent E (h ++ l) i v) :
    (∃ t ∈ l, (i, v) ∈ E.creates t) ∨ Unspent E h i v ∧ i ∉ spent E l := by
  induction l using List.reverseRecOn with
  | nil =>
    rw [List.append_nil] at hu
    exact Or.inr ⟨hu, by simp [spent]⟩
  | append_singleton l t ih =>
    rw [← List.append_assoc] at hu
    rcases unspent_concat.mp hu with hcre | ⟨hold, hns, -⟩
    · exact Or.inl ⟨t, by simp, hcre⟩
    · rcases ih hold with ⟨t', ht', hcre⟩ | ⟨hbefore, hnot⟩
      · exact Or.inl ⟨t', List.mem_append_left _ ht', hcre⟩
      · refine Or.inr ⟨hbefore, ?_⟩
        rw [spent_append, List.mem_append, not_or, spent_singleton]
        exact ⟨hnot, hns⟩

/-- A name that no event of a batch spends still holds a value after it: the old
one, or one the batch created. -/
theorem exists_unspent_append {h l : List τ} {i : ι} {v : ν} (hu : Unspent E h i v)
    (hnot : i ∉ spent E l) :
    ∃ w, Unspent E (h ++ l) i w ∧ (w = v ∨ ∃ t ∈ l, (i, w) ∈ E.creates t) := by
  induction l using List.reverseRecOn with
  | nil => exact ⟨v, by rwa [List.append_nil], Or.inl rfl⟩
  | append_singleton l t ih =>
    rw [spent_append, List.mem_append, not_or, spent_singleton] at hnot
    by_cases hname : i ∈ E.names t
    · obtain ⟨w, hw⟩ := mem_names.mp hname
      refine ⟨w, ?_, Or.inr ⟨t, by simp, hw⟩⟩
      rw [← List.append_assoc]
      exact unspent_concat.mpr (Or.inl hw)
    · obtain ⟨w, hw, hor⟩ := ih hnot.1
      refine ⟨w, ?_, ?_⟩
      · rw [← List.append_assoc]
        exact unspent_concat.mpr (Or.inr ⟨hw, hnot.2, hname⟩)
      · rcases hor with rfl | ⟨t', ht', hcre⟩
        · exact Or.inl rfl
        · exact Or.inr ⟨t', List.mem_append_left _ ht', hcre⟩

/-- What is unspent was created. -/
theorem Unspent.exists_creates {h : List τ} {i : ι} {v : ν} (hu : Unspent E h i v) :
    ∃ t ∈ h, (i, v) ∈ E.creates t := by
  obtain ⟨pre, t, post, rfl, hcre, -⟩ := hu
  exact ⟨t, by simp, hcre⟩

theorem Unspent.mem_created {h : List τ} {i : ι} {v : ν} (hu : Unspent E h i v) :
    i ∈ created E h := by
  obtain ⟨t, ht, hcre⟩ := hu.exists_creates
  exact Ledger.mem_created.mpr ⟨t, ht, mem_names.mpr ⟨v, hcre⟩⟩

/-! ### Histories without double spends -/

variable (E) in
/-- Histories in which names are created once, spent only after that, and not
unspent once spent. -/
structure Clean (h : List τ) : Prop where
  fresh : Fresh E h
  sourced : Sourced E h
  unspent : ∀ i v, Unspent E h i v → i ∉ spent E h

theorem clean_nil : Clean E [] where
  fresh := by simp [Fresh, created]
  sourced := by
    intro pre t post heq
    simp at heq
  unspent := fun i v hu => absurd hu not_unspent_nil

theorem Sourced.spent_subset {h : List τ} (hs : Sourced E h) {i : ι} (hi : i ∈ spent E h) :
    i ∈ created E h := by
  obtain ⟨t, ht, hit⟩ := mem_spent.mp hi
  obtain ⟨pre, post, rfl⟩ := List.append_of_mem ht
  have := hs pre t post rfl i hit
  rw [created_append]
  exact List.mem_append_left _ this

/-- **The step lemma**: an event that spends only unspent names and creates only
new ones, each once. -/
theorem Clean.concat {h : List τ} (hc : Clean E h) {t : τ}
    (hspends : ∀ i ∈ E.spends t, ∃ v, Unspent E h i v)
    (hnames : (E.names t).Nodup) (hnew : ∀ i ∈ E.names t, i ∉ created E h) :
    Clean E (h ++ [t]) where
  fresh := by
    rw [Fresh, created_append, created_singleton]
    exact List.Nodup.append hc.fresh hnames fun i hi hit => hnew i hit hi
  sourced := by
    intro pre t' post heq i hi
    rcases concat_eq_append_cons heq with ⟨rfl, rfl, -⟩ | ⟨post', -, hpre⟩
    · obtain ⟨v, hv⟩ := hspends i hi
      exact hv.mem_created
    · exact hc.sourced pre t' post' hpre i hi
  unspent := by
    intro i v hu hspent
    rw [spent_append, List.mem_append, spent_singleton] at hspent
    rcases unspent_concat.mp hu with hcre | ⟨hold, hns, -⟩
    · -- a new name was spent neither before nor by the event itself
      have hinew := hnew i (mem_names.mpr ⟨v, hcre⟩)
      rcases hspent with hbefore | hself
      · exact hinew (hc.sourced.spent_subset hbefore)
      · obtain ⟨w, hw⟩ := hspends i hself
        exact hinew hw.mem_created
    · rcases hspent with hbefore | hself
      · exact hc.unspent i v hold hbefore
      · exact hns hself

/-- What a batch has to satisfy to keep a history clean: its events spend names
that are unspent before it, no two of them the same, and create new names. -/
structure Admissible (E : Effects τ ι ν) (h l : List τ) : Prop where
  spends : ∀ i ∈ spent E l, ∃ v, Unspent E h i v
  disjoint : l.Pairwise fun t t' => ∀ i ∈ E.spends t, i ∉ E.spends t'
  fresh : Fresh E l
  new : ∀ i ∈ created E l, i ∉ created E h

/-- After the first event of an admissible batch, the rest is admissible. -/
theorem Admissible.tail {h l : List τ} {t : τ} (ha : Admissible E h (t :: l)) :
    Admissible E (h ++ [t]) l where
  spends := by
    intro i hi
    obtain ⟨t', ht', hit'⟩ := mem_spent.mp hi
    obtain ⟨v, hv⟩ := ha.spends i (mem_spent.mpr ⟨t', List.mem_cons_of_mem _ ht', hit'⟩)
    -- the first event spends none of what the others spend
    have hnot : i ∉ spent E [t] := by
      rw [spent_singleton]
      exact fun hit => (List.pairwise_cons.mp ha.disjoint).1 t' ht' i hit hit'
    obtain ⟨w, hw, -⟩ := exists_unspent_append hv hnot
    exact ⟨w, hw⟩
  disjoint := (List.pairwise_cons.mp ha.disjoint).2
  fresh := by
    have hfresh := ha.fresh
    rw [Fresh, ← List.singleton_append, created_append] at hfresh
    exact hfresh.of_append_right
  new := by
    intro i hi hmem
    rw [created_append, List.mem_append, created_singleton] at hmem
    rcases hmem with hbefore | hhead
    · refine ha.new i ?_ hbefore
      rw [← List.singleton_append, created_append]
      exact List.mem_append_right _ hi
    · have hfresh := ha.fresh
      rw [Fresh, ← List.singleton_append, created_append, created_singleton] at hfresh
      exact (List.nodup_append.mp hfresh).2.2 i hhead i hi rfl

/-- The first event of an admissible batch keeps a history clean. -/
theorem Clean.concat_of_admissible {h l : List τ} {t : τ} (hc : Clean E h)
    (ha : Admissible E h (t :: l)) : Clean E (h ++ [t]) := by
  refine hc.concat ?_ ?_ ?_
  · intro i hi
    exact ha.spends i (mem_spent.mpr ⟨t, List.mem_cons_self, hi⟩)
  · have hfresh := ha.fresh
    rw [Fresh, ← List.singleton_append, created_append, created_singleton] at hfresh
    exact hfresh.of_append_left
  · intro i hi
    exact ha.new i (mem_created.mpr ⟨t, List.mem_cons_self, hi⟩)

/-- **The batch lemma**: an admissible batch keeps a history clean. -/
theorem Clean.append {h l : List τ} (hc : Clean E h) (ha : Admissible E h l) :
    Clean E (h ++ l) := by
  induction l generalizing h with
  | nil => rwa [List.append_nil]
  | cons t l ih =>
    have hrest := ih (hc.concat_of_admissible ha) ha.tail
    rwa [List.append_assoc, List.singleton_append] at hrest

/-- Every event of an admissible batch finds what it spends unspent when its turn
comes. -/
theorem Admissible.unspent_at {h pre post : List τ} {t : τ}
    (ha : Admissible E h (pre ++ t :: post)) {i : ι} (hi : i ∈ E.spends t) :
    ∃ v, Unspent E (h ++ pre) i v := by
  induction pre generalizing h with
  | nil =>
    rw [List.append_nil]
    exact ha.spends i (mem_spent.mpr ⟨t, List.mem_cons_self, hi⟩)
  | cons u pre ih =>
    rw [← List.singleton_append, ← List.append_assoc]
    exact ih ha.tail

/-- A clean history spends no name twice when no event of it does, and the batch
spends unspent names only. -/
theorem nodup_spent_append {h l : List τ} (hc : Clean E h) (ha : Admissible E h l)
    (hspent : (spent E h).Nodup) (hself : ∀ t ∈ l, (E.spends t).Nodup) :
    (spent E (h ++ l)).Nodup := by
  rw [spent_append]
  refine List.Nodup.append hspent ?_ ?_
  · rw [spent, List.nodup_flatMap]
    refine ⟨hself, ha.disjoint.imp ?_⟩
    intro t t' hdisj i hi hi'
    exact hdisj i hi hi'
  · intro i hi hil
    obtain ⟨v, hv⟩ := ha.spends i hil
    exact hc.unspent i v hv hi

end Ledger
