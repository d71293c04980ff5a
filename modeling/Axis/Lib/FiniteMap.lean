import Axis.Lib.Independence
import Mathlib

/-!
# Finite maps as canonical values

Finite maps over an ordered key type, equal exactly when they hold the same
pairs.  They stand for the hash maps of a program, of which only the pairs
matter, and for a sorted store, whose enumeration `toList` is in key order.

The bulk operations are the loops a program writes: erasing a list of keys and
inserting a list of pairs, and a *tally* puts items under their keys.  `total` adds
up a measure of the values, in unbounded arithmetic.

## Main results

* `toList_eq_of_pairwise` — a sorted list with the pairs of a map is its
  enumeration.
* `total_add_le` — **accounting**: a map whose pairs were either created or kept
  from another map, less what was removed from it, has at most the other's total
  plus what was created, minus what was removed.
* `getD_tally` — what a tally holds for a key comes from the items of that key.
-/

/-- Finite maps from `κ` to `ν`, enumerated in key order. -/
abbrev FiniteMap (κ ν : Type*) [Ord κ] := Std.ExtTreeMap κ ν compare

set_option linter.unusedSectionVars false

namespace FiniteMap

variable {κ ν : Type*} [Ord κ] [Std.TransOrd κ] [Std.LawfulEqOrd κ] [DecidableEq κ]

/-! ### Lookups -/

theorem getElem?_insert_eq (m : FiniteMap κ ν) (k a : κ) (v : ν) :
    (m.insert k v)[a]? = if k = a then some v else m[a]? := by
  simp only [Std.ExtTreeMap.getElem?_insert, Std.LawfulEqCmp.compare_eq_iff_eq]

theorem getElem?_erase_eq (m : FiniteMap κ ν) (k a : κ) :
    (m.erase k)[a]? = if k = a then none else m[a]? := by
  simp only [Std.ExtTreeMap.getElem?_erase, Std.LawfulEqCmp.compare_eq_iff_eq]

theorem mem_iff_exists (m : FiniteMap κ ν) (k : κ) : k ∈ m ↔ ∃ v, m[k]? = some v := by
  rw [Std.ExtTreeMap.mem_iff_isSome_getElem?, Option.isSome_iff_exists]

theorem mem_toList_iff (m : FiniteMap κ ν) (k : κ) (v : ν) :
    (k, v) ∈ m.toList ↔ m[k]? = some v :=
  Std.ExtTreeMap.mem_toList_iff_getElem?_eq_some

/-! ### Enumeration -/

/-- The enumeration of a map is determined by its order and its pairs. -/
theorem toList_eq_of_pairwise (m : FiniteMap κ ν) {l : List (κ × ν)}
    (hsorted : l.Pairwise fun a b => compare a.1 b.1 = .lt)
    (hmem : ∀ k v, (k, v) ∈ l ↔ m[k]? = some v) : m.toList = l := by
  have hord := Std.ExtTreeMap.ordered_keys_toList (t := m)
  have hne : ∀ a b : κ × ν, compare a.1 b.1 = .lt → a ≠ b := by
    intro a b hlt heq
    obtain rfl := heq
    have hself : compare a.1 a.1 = .eq := Std.ReflCmp.compare_self
    rw [hself] at hlt
    cases hlt
  -- sorted lists have no duplicates, so the same pairs make a permutation
  have hperm : m.toList.Perm l := by
    rw [List.perm_ext_iff_of_nodup (hord.imp (hne _ _)) (hsorted.imp (hne _ _))]
    intro e
    obtain ⟨k, v⟩ := e
    rw [mem_toList_iff, hmem]
  refine List.Perm.eq_of_pairwise ?_ hord hsorted hperm
  intro a b _ _ hab hba
  have hswap : compare b.1 a.1 = (compare a.1 b.1).swap := Std.OrientedCmp.eq_swap
  rw [hswap, hab] at hba
  cases hba

/-- The keys of the enumeration are distinct. -/
theorem nodup_keys_toList (m : FiniteMap κ ν) : (m.toList.map Prod.fst).Nodup := by
  rw [List.Nodup, List.pairwise_map]
  refine (Std.ExtTreeMap.ordered_keys_toList (t := m)).imp fun {a b} hlt heq => ?_
  have hself : compare a.1 a.1 = .eq := Std.ReflCmp.compare_self
  rw [heq] at hlt hself
  rw [hself] at hlt
  cases hlt

/-- **Sorting by the keys restores the enumeration**, from any other order of the pairs. -/
theorem mergeSort_eq_toList (m : FiniteMap κ ν) {l : List (κ × ν)} (h : l.Perm m.toList)
    {le : κ × ν → κ × ν → Bool} (hle : ∀ a b, le a b = true ↔ (compare a.1 b.1).isLE = true) :
    l.mergeSort le = m.toList := by
  have htrans : ∀ a b c, le a b = true → le b c = true → le a c = true := by
    intro a b c hab hbc
    rw [hle] at hab hbc ⊢
    exact Std.TransCmp.isLE_trans hab hbc
  have htotal : ∀ a b, (le a b || le b a) = true := by
    intro a b
    rw [Bool.or_eq_true, hle, hle, ← Std.OrientedCmp.isGE_iff_isLE (a := a.1) (b := b.1)]
    cases compare a.1 b.1
    · exact Or.inl rfl
    · exact Or.inl rfl
    · exact Or.inr rfl
  have hord := (Std.ExtTreeMap.ordered_keys_toList (t := m)).imp fun {a b} hlt =>
    (hle a b).mpr (Ordering.isLE_of_eq_lt hlt)
  have hperm := (List.mergeSort_perm l le).trans h
  refine List.Perm.eq_of_pairwise ?_ (List.pairwise_mergeSort htrans htotal l) hord hperm
  intro a b ha hb hab hba
  rw [hle] at hab hba
  -- pairs with one key are one pair
  have hkey : a.1 = b.1 := Std.LawfulEqCmp.eq_of_compare (Std.OrientedCmp.isLE_antisymm hab hba)
  have ha' := (mem_toList_iff m a.1 a.2).mp (hperm.mem_iff.mp ha)
  have hb' := (mem_toList_iff m b.1 b.2).mp hb
  rw [hkey, hb'] at ha'
  exact Prod.ext hkey (Option.some.inj ha').symm

/-! ### Bulk operations -/

/-- Erase every key of a list. -/
def eraseAll (m : FiniteMap κ ν) (ks : List κ) : FiniteMap κ ν := ks.foldl (·.erase ·) m

/-- Insert every pair of a list; a later pair overwrites an earlier one. -/
def insertAll (m : FiniteMap κ ν) (es : List (κ × ν)) : FiniteMap κ ν :=
  es.foldl (fun m e => m.insert e.1 e.2) m

@[simp] theorem eraseAll_nil (m : FiniteMap κ ν) : eraseAll m [] = m := rfl

@[simp] theorem eraseAll_cons (m : FiniteMap κ ν) (k : κ) (ks : List κ) :
    eraseAll m (k :: ks) = eraseAll (m.erase k) ks := rfl

theorem eraseAll_append (m : FiniteMap κ ν) (ks ls : List κ) :
    eraseAll m (ks ++ ls) = eraseAll (eraseAll m ks) ls := List.foldl_append

@[simp] theorem insertAll_nil (m : FiniteMap κ ν) : insertAll m [] = m := rfl

@[simp] theorem insertAll_cons (m : FiniteMap κ ν) (e : κ × ν) (es : List (κ × ν)) :
    insertAll m (e :: es) = insertAll (m.insert e.1 e.2) es := rfl

theorem insertAll_append (m : FiniteMap κ ν) (es fs : List (κ × ν)) :
    insertAll m (es ++ fs) = insertAll (insertAll m es) fs := List.foldl_append

theorem getElem?_eraseAll (m : FiniteMap κ ν) (ks : List κ) (a : κ) :
    (eraseAll m ks)[a]? = if a ∈ ks then none else m[a]? := by
  induction ks generalizing m with
  | nil => simp
  | cons k ks ih =>
    rw [eraseAll_cons, ih, getElem?_erase_eq]
    by_cases hmem : a ∈ ks
    · simp [hmem]
    · by_cases hk : k = a
      · simp [hk]
      · simp [hmem, hk, Ne.symm hk]

theorem getElem?_insertAll_of_notMem {es : List (κ × ν)} {a : κ}
    (h : a ∉ es.map Prod.fst) (m : FiniteMap κ ν) : (insertAll m es)[a]? = m[a]? := by
  induction es generalizing m with
  | nil => rfl
  | cons e es ih =>
    rw [List.map_cons, List.mem_cons, not_or] at h
    rw [insertAll_cons, ih h.2, getElem?_insert_eq, if_neg (Ne.symm h.1)]

/-- What a bulk insertion holds comes from the list or was there before. -/
theorem mem_or_of_getElem?_insertAll {es : List (κ × ν)} {m : FiniteMap κ ν} {a : κ} {v : ν}
    (h : (insertAll m es)[a]? = some v) :
    (a, v) ∈ es ∨ a ∉ es.map Prod.fst ∧ m[a]? = some v := by
  induction es generalizing m with
  | nil => exact Or.inr ⟨List.not_mem_nil, h⟩
  | cons e es ih =>
    rw [insertAll_cons] at h
    rcases ih h with hmem | ⟨hnot, hold⟩
    · exact Or.inl (List.mem_cons_of_mem _ hmem)
    · rw [getElem?_insert_eq] at hold
      by_cases hk : e.1 = a
      · rw [if_pos hk, Option.some.injEq] at hold
        refine Or.inl (List.mem_cons.mpr (Or.inl ?_))
        rw [← hk, ← hold]
      · rw [if_neg hk] at hold
        refine Or.inr ⟨?_, hold⟩
        rw [List.map_cons, List.mem_cons, not_or]
        exact ⟨Ne.symm hk, hnot⟩

/-- A key of the list is present after a bulk insertion. -/
theorem exists_getElem?_insertAll {es : List (κ × ν)} {a : κ}
    (h : a ∈ es.map Prod.fst) (m : FiniteMap κ ν) :
    ∃ v, (insertAll m es)[a]? = some v ∧ (a, v) ∈ es := by
  induction es generalizing m with
  | nil => cases h
  | cons e es ih =>
    rw [insertAll_cons]
    by_cases hes : a ∈ es.map Prod.fst
    · obtain ⟨v, hv, hmem⟩ := ih hes (m.insert e.1 e.2)
      exact ⟨v, hv, List.mem_cons_of_mem _ hmem⟩
    · rw [List.map_cons, List.mem_cons] at h
      have hk : a = e.1 := h.resolve_right hes
      refine ⟨e.2, ?_, ?_⟩
      · rw [getElem?_insertAll_of_notMem hes, getElem?_insert_eq, if_pos hk.symm]
      · rw [hk]
        exact List.mem_cons_self

/-- With distinct keys, a bulk insertion holds every pair of the list. -/
theorem getElem?_insertAll_of_mem {es : List (κ × ν)} (hnodup : (es.map Prod.fst).Nodup)
    {a : κ} {v : ν} (h : (a, v) ∈ es) (m : FiniteMap κ ν) :
    (insertAll m es)[a]? = some v := by
  obtain ⟨w, hw, hmem⟩ := exists_getElem?_insertAll (List.mem_map_of_mem h) m
  have heq : (a, w) = (a, v) := List.inj_on_of_nodup_map hnodup hmem h rfl
  injection heq with _ hwv
  rw [hw, hwv]

/-- Erasing keys and inserting pairs with other keys commute. -/
theorem eraseAll_insertAll_comm {es : List (κ × ν)} {ks : List κ}
    (h : ∀ k ∈ ks, k ∉ es.map Prod.fst) (m : FiniteMap κ ν) :
    eraseAll (insertAll m es) ks = insertAll (eraseAll m ks) es := by
  induction es generalizing m with
  | nil => rfl
  | cons e es ih =>
    have htail : ∀ k ∈ ks, k ∉ es.map Prod.fst := fun k hk hmem =>
      h k hk (List.mem_cons_of_mem _ hmem)
    rw [insertAll_cons, ih htail, insertAll_cons]
    refine congrArg (insertAll · es) (Std.ExtTreeMap.ext_getElem? fun a => ?_)
    rw [getElem?_eraseAll, getElem?_insert_eq, getElem?_insert_eq, getElem?_eraseAll]
    by_cases hmem : a ∈ ks
    · have hne : e.1 ≠ a := by
        intro heq
        obtain rfl := heq
        exact h e.1 hmem (by simp)
      rw [if_pos hmem, if_neg hne, if_pos hmem]
    · rw [if_neg hmem, if_neg hmem]

/-- Insertions under different keys commute. -/
theorem insert_comm {k k' : κ} (h : k ≠ k') (m : FiniteMap κ ν) (v v' : ν) :
    (m.insert k v).insert k' v' = (m.insert k' v').insert k v := by
  refine Std.ExtTreeMap.ext_getElem? fun a => ?_
  simp only [getElem?_insert_eq]
  by_cases hk : k = a
  · subst hk
    rw [if_neg h.symm, if_pos rfl, if_pos rfl]
  · rw [if_neg hk, if_neg hk]

/-- Erasures commute. -/
theorem erase_comm (m : FiniteMap κ ν) (k k' : κ) :
    (m.erase k).erase k' = (m.erase k').erase k := by
  refine Std.ExtTreeMap.ext_getElem? fun a => ?_
  simp only [getElem?_erase_eq]
  by_cases hk : k = a <;> simp [hk]

/-- An erasure and an insertion under different keys commute. -/
theorem erase_insert_comm {k k' : κ} (h : k ≠ k') (m : FiniteMap κ ν) (v' : ν) :
    (m.erase k).insert k' v' = (m.insert k' v').erase k := by
  refine Std.ExtTreeMap.ext_getElem? fun a => ?_
  simp only [getElem?_insert_eq, getElem?_erase_eq]
  by_cases hk : k = a
  · subst hk
    rw [if_neg h.symm, if_pos rfl, if_pos rfl]
  · rw [if_neg hk, if_neg hk]

/-- Bulk insertions without a common key commute. -/
theorem insertAll_comm {es fs : List (κ × ν)}
    (h : ∀ k ∈ es.map Prod.fst, k ∉ fs.map Prod.fst) (m : FiniteMap κ ν) :
    insertAll (insertAll m es) fs = insertAll (insertAll m fs) es := by
  refine Independence.foldl_comm (fun e he f hf m => insert_comm ?_ m e.2 f.2) m
  intro heq
  exact h e.1 (List.mem_map_of_mem he) (heq ▸ List.mem_map_of_mem hf)

/-! ### Tallies -/

/-- Add up the items of a list under their keys; a key without an item has no entry. -/
def tally {α : Type*} (key : α → κ) (zero : ν) (add : ν → α → ν) (l : List α)
    (m : FiniteMap κ ν) : FiniteMap κ ν :=
  l.foldl (fun m a => m.insert (key a) (add (m[key a]?.getD zero) a)) m

/-- What is tallied under a key is the sum over the items with that key. -/
theorem getD_tally {α : Type*} (key : α → κ) (zero : ν) (add : ν → α → ν) (l : List α)
    (m : FiniteMap κ ν) (k : κ) :
    (tally key zero add l m)[k]?.getD zero =
      (l.filter fun a => key a = k).foldl add (m[k]?.getD zero) := by
  induction l generalizing m with
  | nil => rfl
  | cons a l ih =>
    rw [tally, List.foldl_cons]
    refine (ih _).trans ?_
    by_cases hk : key a = k
    · rw [List.filter_cons_of_pos (by simpa using hk), List.foldl_cons, getElem?_insert_eq,
        if_pos hk, hk]
      rfl
    · rw [List.filter_cons_of_neg (by simpa using hk), getElem?_insert_eq, if_neg hk]

/-! ### Totals -/

variable (f : ν → ℕ)

/-- The sum of a measure over the values of a map. -/
def total (m : FiniteMap κ ν) : ℕ := (m.toList.map fun e => f e.2).sum

/-- The measure of the value at a key, and zero where there is none. -/
def amountAt (m : FiniteMap κ ν) (k : κ) : ℕ := (m[k]?.map f).getD 0

theorem amountAt_of_getElem? {m : FiniteMap κ ν} {k : κ} {v : ν} (h : m[k]? = some v) :
    amountAt f m k = f v := by rw [amountAt, h]; rfl

@[simp] theorem total_empty : total f (∅ : FiniteMap κ ν) = 0 := by
  rw [total, Std.ExtTreeMap.toList_eq_nil_iff.mpr rfl]
  rfl

/-- A list without duplicates sums to at most any list that contains it. -/
theorem sum_le_sum_of_subset {l₁ l₂ : List (κ × ν)} (hnodup : l₁.Nodup) (hsub : l₁ ⊆ l₂) :
    (l₁.map fun e => f e.2).sum ≤ (l₂.map fun e => f e.2).sum := by
  obtain ⟨l, hperm, hsubl⟩ := hnodup.subperm hsub
  calc (l₁.map fun e => f e.2).sum
      = (l.map fun e => f e.2).sum := ((hperm.map _).sum_eq).symm
    _ ≤ (l₂.map fun e => f e.2).sum := (hsubl.map _).sum_le_sum fun _ _ => Nat.zero_le _

/-- **Accounting.**  If every pair of `m'` was created, or was a pair of `m` whose
key was not removed, then the totals differ accordingly. -/
theorem total_add_le {m m' : FiniteMap κ ν} {created : List (κ × ν)} {removed : List κ}
    (hnodup : removed.Nodup) (hmem : ∀ k ∈ removed, k ∈ m)
    (hentry : ∀ k v, m'[k]? = some v →
      (k, v) ∈ created ∨ m[k]? = some v ∧ k ∉ removed) :
    total f m' + (removed.map (amountAt f m)).sum ≤
      total f m + (created.map fun e => f e.2).sum := by
  let kept := m.toList.filter fun e => e.1 ∉ removed
  -- what `m'` holds is created or kept
  have hnew : total f m' ≤ ((created ++ kept).map fun e => f e.2).sum := by
    refine sum_le_sum_of_subset f (nodup_keys_toList m').of_map ?_
    intro e hkv
    obtain ⟨k, v⟩ := e
    rw [List.mem_append]
    rcases hentry k v ((mem_toList_iff m' k v).mp hkv) with hcre | ⟨hold, hnot⟩
    · exact Or.inl hcre
    · refine Or.inr (List.mem_filter.mpr ⟨(mem_toList_iff m k v).mpr hold, ?_⟩)
      exact decide_eq_true hnot
  -- what `m` held was kept or removed
  have hold : (kept.map fun e => f e.2).sum + (removed.map (amountAt f m)).sum ≤ total f m := by
    let gone := m.toList.filter fun e => e.1 ∈ removed
    have hsplit : (gone.map fun e => f e.2).sum + (kept.map fun e => f e.2).sum
        = total f m := by
      rw [← List.sum_append, ← List.map_append]
      refine ((List.Perm.map _ ?_).sum_eq)
      have hperm := List.filter_append_perm (fun e : κ × ν => decide (e.1 ∈ removed)) m.toList
      simpa [gone, kept] using hperm
    have hgone : (removed.map (amountAt f m)).sum ≤ (gone.map fun e => f e.2).sum := by
      -- the removed keys are, in some order, among the keys of the pairs gone
      have hkeys : removed.Subperm (gone.map Prod.fst) := by
        refine hnodup.subperm fun k hk => ?_
        obtain ⟨v, hv⟩ := (mem_iff_exists m k).mp (hmem k hk)
        have hgone : (k, v) ∈ gone :=
          List.mem_filter.mpr ⟨(mem_toList_iff m k v).mpr hv, decide_eq_true hk⟩
        exact List.mem_map_of_mem hgone
      obtain ⟨l, hperm, hsubl⟩ := hkeys
      have hvals : (gone.map fun e => f e.2) = (gone.map Prod.fst).map (amountAt f m) := by
        rw [List.map_map]
        refine List.map_congr_left ?_
        intro e hkv
        obtain ⟨k, v⟩ := e
        have hget := (mem_toList_iff m k v).mp (List.mem_filter.mp hkv).1
        exact (amountAt_of_getElem? f hget).symm
      rw [hvals, ← (hperm.map _).sum_eq]
      exact (hsubl.map _).sum_le_sum fun _ _ => Nat.zero_le _
    omega
  rw [List.map_append, List.sum_append] at hnew
  omega

end FiniteMap
