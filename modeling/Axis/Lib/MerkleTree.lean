import Mathlib.Data.List.Basic
import Mathlib.Data.List.Dedup
import Mathlib.Tactic.Common

/-!
# Merkle trees with the last node repeated

The level-by-level reduction of a list of leaves to one root: while more than
one node is left, a level of odd length is extended by a copy of its last node,
and the nodes are combined two by two.

Run over the free binary trees, the reduction builds a tree; run over any other
combining operation it computes the value of that tree.  So what a root says
about its leaves splits in two: whether the operation collides, and which lists
build the same tree.

## Main definitions

* `padOdd`, `pairUp`, `levelUp`, `reduce`, `root` — the reduction.
* `pairs`, `combined` — the pairs the reduction combines.
* `Tree`, `Tree.eval`, `build` — the free trees and the reduction over them.

## Main results

* `eval_build` — a root is the value of the tree built.
* `Tree.eval_injOn` — without collisions the value determines the tree.
* `leaves_build` — the leaves of the tree are the list and repeats of it.
* `build_injOn_nodup` — **lists without repeats that build one tree are equal.**
-/

namespace MerkleTree

variable {α β : Type*}

/-! ### The reduction -/

/-- A level of odd length gets a copy of its last node. -/
def padOdd (cur : List α) : List α :=
  if cur.length % 2 = 1 then cur ++ cur.getLast?.toList else cur

/-- Combine the nodes of a level two by two. -/
def pairUp (combine : α → α → α) : List α → List α
  | a :: b :: cur => combine a b :: pairUp combine cur
  | _ => []

/-- One round of the reduction. -/
def levelUp (combine : α → α → α) (cur : List α) : List α := pairUp combine (padOdd cur)

/-- The rounds of the reduction, at most `fuel` of them. -/
def reduce (combine : α → α → α) : ℕ → List α → List α
  | 0, cur => cur
  | fuel + 1, cur => if 1 < cur.length then reduce combine fuel (levelUp combine cur) else cur

/-- The root over a list of leaves, `zero` over the empty list.  A round at least
halves the level, so as many rounds as leaves are enough. -/
def root (combine : α → α → α) (zero : α) (leaves : List α) : α :=
  (reduce combine leaves.length leaves).headD zero

/-- The neighbours of a level that are combined. -/
def pairs : List α → List (α × α)
  | a :: b :: cur => (a, b) :: pairs cur
  | _ => []

/-- Every pair the rounds combine. -/
def combined (combine : α → α → α) : ℕ → List α → List (α × α)
  | 0, _ => []
  | fuel + 1, cur =>
    if 1 < cur.length then
      pairs (padOdd cur) ++ combined combine fuel (levelUp combine cur)
    else []

theorem length_padOdd (cur : List α) : (padOdd cur).length = 2 * ((cur.length + 1) / 2) := by
  unfold padOdd
  split
  · next hodd =>
    cases cur with
    | nil => simp at hodd
    | cons a cur =>
      rw [List.getLast?_cons, Option.toList_some, List.length_append, List.length_singleton]
      omega
  · omega

theorem length_pairUp (combine : α → α → α) (cur : List α) :
    (pairUp combine cur).length = cur.length / 2 := by
  induction cur using pairUp.induct with
  | case1 a b cur ih =>
    rw [pairUp, List.length_cons, ih, List.length_cons, List.length_cons]
    omega
  | case2 cur hcur =>
    match cur with
    | [] => simp [pairUp]
    | [a] => simp [pairUp]
    | a :: b :: cur => exact absurd rfl (hcur a b cur)

theorem length_levelUp (combine : α → α → α) (cur : List α) :
    (levelUp combine cur).length = (cur.length + 1) / 2 := by
  rw [levelUp, length_pairUp, length_padOdd]
  omega

/-- Enough rounds leave one node. -/
theorem length_reduce (combine : α → α → α) {fuel : ℕ} {cur : List α} (hpos : 0 < cur.length)
    (hfuel : cur.length ≤ fuel) : (reduce combine fuel cur).length = 1 := by
  induction fuel generalizing cur with
  | zero => omega
  | succ fuel ih =>
    rw [reduce]
    split
    · next hlong =>
      refine ih ?_ ?_
      · rw [length_levelUp]
        omega
      · rw [length_levelUp]
        omega
    · next hshort => omega

/-! ### Change of operation -/

variable {f : α → α → α} {g : β → β → β} {φ : α → β}

theorem map_padOdd (φ : α → β) (cur : List α) : (padOdd cur).map φ = padOdd (cur.map φ) := by
  unfold padOdd
  rw [List.length_map]
  split
  · rw [List.map_append, List.getLast?_map]
    cases cur.getLast? <;> rfl
  · rfl

theorem map_pairUp (hφ : ∀ a b, φ (f a b) = g (φ a) (φ b)) (cur : List α) :
    (pairUp f cur).map φ = pairUp g (cur.map φ) := by
  induction cur using pairUp.induct with
  | case1 a b cur ih =>
    rw [pairUp, List.map_cons, ih, hφ, List.map_cons, List.map_cons, pairUp]
  | case2 cur hcur =>
    match cur with
    | [] => rfl
    | [a] => rfl
    | a :: b :: cur => exact absurd rfl (hcur a b cur)

theorem map_levelUp (hφ : ∀ a b, φ (f a b) = g (φ a) (φ b)) (cur : List α) :
    (levelUp f cur).map φ = levelUp g (cur.map φ) := by
  rw [levelUp, map_pairUp hφ, map_padOdd, levelUp]

theorem map_reduce (hφ : ∀ a b, φ (f a b) = g (φ a) (φ b)) (fuel : ℕ) (cur : List α) :
    (reduce f fuel cur).map φ = reduce g fuel (cur.map φ) := by
  induction fuel generalizing cur with
  | zero => rfl
  | succ fuel ih =>
    rw [reduce, reduce, List.length_map]
    split
    · rw [ih, map_levelUp hφ]
    · rfl

/-! ### Free trees -/

/-- Binary trees with values at their leaves. -/
inductive Tree (α : Type*)
  /-- A leaf. -/
  | leaf (a : α)
  /-- A combination of two subtrees. -/
  | node (l r : Tree α)
  deriving DecidableEq

namespace Tree

/-- The value of a tree under a combining operation. -/
def eval (combine : α → α → α) : Tree α → α
  | leaf a => a
  | node l r => combine (eval combine l) (eval combine r)

/-- The leaves of a tree, from the left. -/
def leaves : Tree α → List α
  | leaf a => [a]
  | node l r => l.leaves ++ r.leaves

/-- The pairs of values combined in a tree. -/
def nodePairs (combine : α → α → α) : Tree α → List (α × α)
  | leaf _ => []
  | node l r => (l.eval combine, r.eval combine) ::
      (l.nodePairs combine ++ r.nodePairs combine)

/-- **Without collisions the value determines the tree.**  `N` collects the pairs
combined in both trees: the operation is injective on them, and no leaf is one
of its values. -/
theorem eval_injOn {combine : α → α → α} {N : List (α × α)}
    (hinj : ∀ p ∈ N, ∀ q ∈ N, combine p.1 p.2 = combine q.1 q.2 → p = q)
    {t₁ t₂ : Tree α} (h₁ : t₁.nodePairs combine ⊆ N) (h₂ : t₂.nodePairs combine ⊆ N)
    (hleaf : ∀ a ∈ t₁.leaves ++ t₂.leaves, ∀ p ∈ N, a ≠ combine p.1 p.2)
    (heq : t₁.eval combine = t₂.eval combine) : t₁ = t₂ := by
  induction t₁ generalizing t₂ with
  | leaf a =>
    cases t₂ with
    | leaf b => rw [show a = b from heq]
    | node l r =>
      have hmem : (l.eval combine, r.eval combine) ∈ N := h₂ List.mem_cons_self
      exact absurd heq (hleaf a (by simp [leaves]) _ hmem)
  | node l r ihl ihr =>
    have hmem₁ : (l.eval combine, r.eval combine) ∈ N := h₁ List.mem_cons_self
    cases t₂ with
    | leaf b => exact absurd heq.symm (hleaf b (by simp [leaves]) _ hmem₁)
    | node l' r' =>
      have hmem₂ : (l'.eval combine, r'.eval combine) ∈ N := h₂ List.mem_cons_self
      -- both trees end with the same combination
      have hpair := hinj _ hmem₁ _ hmem₂ heq
      rw [Prod.mk.injEq] at hpair
      simp only [nodePairs, List.cons_subset, List.append_subset] at h₁ h₂
      simp only [leaves, List.mem_append] at hleaf
      have hleft : ∀ a ∈ l.leaves ++ l'.leaves, ∀ p ∈ N, a ≠ combine p.1 p.2 := by
        intro a ha
        rcases List.mem_append.mp ha with h | h
        · exact hleaf a (Or.inl (Or.inl h))
        · exact hleaf a (Or.inr (Or.inl h))
      have hright : ∀ a ∈ r.leaves ++ r'.leaves, ∀ p ∈ N, a ≠ combine p.1 p.2 := by
        intro a ha
        rcases List.mem_append.mp ha with h | h
        · exact hleaf a (Or.inl (Or.inr h))
        · exact hleaf a (Or.inr (Or.inr h))
      rw [ihl h₁.2.1 h₂.2.1 hleft hpair.1, ihr h₁.2.2 h₂.2.2 hright hpair.2]

end Tree

open MerkleTree.Tree

/-- The tree the reduction builds over a non-empty list. -/
def build (zero : α) (L : List α) : Tree α := root node (leaf zero) (L.map leaf)

/-- A root is the value of the tree built. -/
theorem eval_build (combine : α → α → α) (zero : α) (L : List α) :
    (build zero L).eval combine = root combine zero L := by
  have hmap : (reduce node L.length (L.map leaf)).map (Tree.eval combine) =
      reduce combine L.length ((L.map leaf).map (Tree.eval combine)) :=
    map_reduce (fun _ _ => rfl) L.length (L.map leaf)
  rw [List.map_map] at hmap
  have hid : L.map (Tree.eval combine ∘ leaf) = L := by
    have : Tree.eval combine ∘ leaf = id := rfl
    rw [this, List.map_id]
  rw [hid] at hmap
  rw [build, root, root, List.length_map, ← hmap]
  cases reduce Tree.node L.length (L.map leaf) <;> rfl

/-! ### The pairs combined -/

theorem map_pairs (φ : α → β) (cur : List α) :
    (pairs cur).map (Prod.map φ φ) = pairs (cur.map φ) := by
  induction cur using pairs.induct with
  | case1 a b cur ih => rw [pairs, List.map_cons, ih, List.map_cons, List.map_cons, pairs]; rfl
  | case2 cur hcur =>
    match cur with
    | [] => rfl
    | [a] => rfl
    | a :: b :: cur => exact absurd rfl (hcur a b cur)

theorem mem_of_mem_padOdd {cur : List α} {a : α} (h : a ∈ padOdd cur) : a ∈ cur := by
  unfold padOdd at h
  split at h
  · rcases List.mem_append.mp h with h | h
    · exact h
    · exact List.mem_of_getLast? (by simpa using h)
  · exact h

/-- A node of the next level combines two nodes of the padded level. -/
theorem exists_of_mem_pairUp {combine : α → α → α} {cur : List α} {c : α}
    (h : c ∈ pairUp combine cur) :
    ∃ a b, (a, b) ∈ pairs cur ∧ a ∈ cur ∧ b ∈ cur ∧ c = combine a b := by
  induction cur using pairUp.induct with
  | case1 a b cur ih =>
    rw [pairUp] at h
    rcases List.mem_cons.mp h with rfl | h
    · exact ⟨a, b, List.mem_cons_self, by simp, by simp, rfl⟩
    · obtain ⟨a', b', hpair, ha, hb, rfl⟩ := ih h
      exact ⟨a', b', List.mem_cons_of_mem _ hpair, by simp [ha], by simp [hb], rfl⟩
  | case2 cur hcur =>
    match cur with
    | [] => cases h
    | [a] => cases h
    | a :: b :: cur => exact absurd rfl (hcur a b cur)

/-- Every pair combined in a tree of the last level was combined in some round,
or in a tree of the first level. -/
theorem nodePairs_reduce {combine : α → α → α} {fuel : ℕ} {ts : List (Tree α)} {t : Tree α}
    (ht : t ∈ reduce node fuel ts) {p : α × α} (hp : p ∈ t.nodePairs combine) :
    p ∈ combined combine fuel (ts.map (Tree.eval combine)) ∨
      ∃ s ∈ ts, p ∈ s.nodePairs combine := by
  induction fuel generalizing ts with
  | zero => exact Or.inr ⟨t, ht, hp⟩
  | succ fuel ih =>
    rw [reduce] at ht
    rw [combined, List.length_map]
    split at ht
    · next hlong =>
      rw [if_pos hlong, List.mem_append]
      rcases ih ht with hlater | ⟨s, hs, hps⟩
      · rw [map_levelUp (g := combine) (fun _ _ => rfl)] at hlater
        exact Or.inl (Or.inr hlater)
      · -- `s` is a node of the next level, made of two trees of this one
        obtain ⟨l, r, hpair, hl, hr, rfl⟩ := exists_of_mem_pairUp hs
        rw [Tree.nodePairs] at hps
        rcases List.mem_cons.mp hps with rfl | hps
        · refine Or.inl (Or.inl ?_)
          rw [← map_padOdd, ← map_pairs]
          exact List.mem_map_of_mem (f := Prod.map (Tree.eval combine) (Tree.eval combine)) hpair
        · rcases List.mem_append.mp hps with hps | hps
          · exact Or.inr ⟨l, mem_of_mem_padOdd hl, hps⟩
          · exact Or.inr ⟨r, mem_of_mem_padOdd hr, hps⟩
    · exact Or.inr ⟨t, ht, hp⟩

/-- The reduction over a non-empty list ends with the tree built. -/
theorem reduce_eq_build (zero : α) {L : List α} (hL : L ≠ []) :
    reduce node L.length (L.map leaf) = [build zero L] := by
  have hpos : 0 < (L.map leaf).length := by
    rw [List.length_map]
    exact List.length_pos_of_ne_nil hL
  -- as many rounds as there are leaves are enough
  have hone : (reduce node L.length (L.map leaf)).length = 1 :=
    length_reduce node hpos (Nat.le_of_eq (List.length_map _))
  obtain ⟨t, ht⟩ := List.length_eq_one_iff.mp hone
  rw [build, root, List.length_map, ht]
  rfl

/-- Every pair combined in the tree built was combined in some round. -/
theorem nodePairs_build (combine : α → α → α) (zero : α) {L : List α} (hL : L ≠ []) :
    (build zero L).nodePairs combine ⊆ combined combine L.length L := by
  intro p hp
  have hmem : build zero L ∈ reduce node L.length (L.map leaf) := by
    rw [reduce_eq_build zero hL]
    exact List.mem_singleton_self _
  rcases nodePairs_reduce hmem hp with hround | ⟨s, hs, hps⟩
  · have hid : (L.map leaf).map (Tree.eval combine) = L := by
      rw [List.map_map]
      exact List.map_id L
    rwa [hid] at hround
  · obtain ⟨a, -, rfl⟩ := List.mem_map.mp hs
    cases hps

/-! ### The leaves of the tree -/

theorem leaves_pairUp {cur : List (Tree α)} (heven : cur.length % 2 = 0) :
    (pairUp node cur).flatMap leaves = cur.flatMap leaves := by
  induction cur using pairUp.induct with
  | case1 l r cur ih =>
    have hrest : cur.length % 2 = 0 := by
      rw [List.length_cons, List.length_cons] at heven
      omega
    rw [pairUp, List.flatMap_cons, ih hrest, List.flatMap_cons, List.flatMap_cons, leaves,
      List.append_assoc]
  | case2 cur hcur =>
    match cur with
    | [] => rfl
    | [a] => simp at heven
    | a :: b :: cur => exact absurd rfl (hcur a b cur)

/-- A round keeps the leaves and repeats some of them at the end. -/
theorem leaves_levelUp (cur : List (Tree α)) :
    ∃ extra, (levelUp node cur).flatMap leaves = cur.flatMap leaves ++ extra ∧
      extra ⊆ cur.flatMap leaves := by
  -- only the padded node has leaves that were there before
  have heven : (padOdd cur).length % 2 = 0 := by
    rw [length_padOdd]
    omega
  rw [levelUp, leaves_pairUp heven]
  by_cases hodd : cur.length % 2 = 1
  · refine ⟨cur.getLast?.toList.flatMap leaves, ?_, ?_⟩
    · rw [padOdd, if_pos hodd, List.flatMap_append]
    · intro a ha
      obtain ⟨t, ht, hat⟩ := List.mem_flatMap.mp ha
      exact List.mem_flatMap.mpr ⟨t, List.mem_of_getLast? (by simpa using ht), hat⟩
  · refine ⟨[], ?_, List.nil_subset _⟩
    rw [padOdd, if_neg hodd, List.append_nil]

theorem leaves_reduce (fuel : ℕ) (cur : List (Tree α)) :
    ∃ extra, (reduce node fuel cur).flatMap leaves = cur.flatMap leaves ++ extra ∧
      extra ⊆ cur.flatMap leaves := by
  induction fuel generalizing cur with
  | zero => exact ⟨[], by rw [reduce, List.append_nil], List.nil_subset _⟩
  | succ fuel ih =>
    rw [reduce]
    split
    · obtain ⟨extra₁, heq₁, hsub₁⟩ := leaves_levelUp cur
      obtain ⟨extra₂, heq₂, hsub₂⟩ := ih (levelUp node cur)
      refine ⟨extra₁ ++ extra₂, ?_, ?_⟩
      · rw [heq₂, heq₁, List.append_assoc]
      · rw [heq₁] at hsub₂
        refine List.append_subset.mpr ⟨hsub₁, fun a ha => ?_⟩
        rcases List.mem_append.mp (hsub₂ ha) with h | h
        · exact h
        · exact hsub₁ h
    · exact ⟨[], by rw [List.append_nil], List.nil_subset _⟩

/-- The leaves of the tree built are the list, followed by repeats. -/
theorem leaves_build (zero : α) {L : List α} (hL : L ≠ []) :
    ∃ extra, (build zero L).leaves = L ++ extra ∧ extra ⊆ L := by
  obtain ⟨extra, heq, hsub⟩ := leaves_reduce L.length (L.map leaf)
  have hflat : (L.map leaf).flatMap leaves = L := by
    rw [List.flatMap_map]
    exact List.flatMap_singleton' L
  rw [hflat] at heq hsub
  refine ⟨extra, ?_, hsub⟩
  rw [reduce_eq_build zero hL] at heq
  simpa using heq

/-- Of two lists without repeats that agree as far as the shorter one goes, the
rest of the longer one repeats nothing of the shorter one. -/
theorem eq_of_append_eq_of_subset {L₁ L₂ e₁ e₂ : List α} (h₁ : L₁.Nodup) (h₂ : L₂.Nodup)
    (he₁ : e₁ ⊆ L₁) (he₂ : e₂ ⊆ L₂) (heq : L₁ ++ e₁ = L₂ ++ e₂) : L₁ = L₂ := by
  rcases List.append_eq_append_iff.mp heq with ⟨as, rfl, hsuf⟩ | ⟨bs, rfl, hsuf⟩
  · have has : as = [] := by
      rw [List.eq_nil_iff_forall_not_mem]
      intro a ha
      have hmem : a ∈ L₁ := he₁ (by rw [hsuf]; exact List.mem_append_left _ ha)
      exact (List.nodup_append.mp h₂).2.2 a hmem a ha rfl
    rw [has, List.append_nil]
  · have hbs : bs = [] := by
      rw [List.eq_nil_iff_forall_not_mem]
      intro a ha
      have hmem : a ∈ L₂ := he₂ (by rw [hsuf]; exact List.mem_append_left _ ha)
      exact (List.nodup_append.mp h₁).2.2 a hmem a ha rfl
    rw [hbs, List.append_nil]

/-- **Lists without repeats that build one tree are equal.** -/
theorem build_injOn_nodup {zero : α} {L₁ L₂ : List α} (hne₁ : L₁ ≠ []) (hne₂ : L₂ ≠ [])
    (h₁ : L₁.Nodup) (h₂ : L₂.Nodup) (heq : build zero L₁ = build zero L₂) : L₁ = L₂ := by
  obtain ⟨e₁, hl₁, he₁⟩ := leaves_build zero hne₁
  obtain ⟨e₂, hl₂, he₂⟩ := leaves_build zero hne₂
  refine eq_of_append_eq_of_subset h₁ h₂ he₁ he₂ ?_
  rw [← hl₁, heq, hl₂]

end MerkleTree
