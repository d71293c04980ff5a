import Axis.Lib.FiniteMap

/-!
# Scans that stop at the first failure

A loop that reads the items of a list one after the other, each by itself, and folds what it
reads into a state.  It fails with the failure of the first item that cannot be read, and
otherwise does what reading all items first and folding afterwards does.

## Main results

* `foldlM_map_eq` — **reading and folding can be separated.**
* `mapM_eq_ok_iff`, `mapM_eq_error_iff` — when a scan succeeds, and with what it fails.
* `mapM_toList_eq_error_iff` — over a sorted store, **the failure is that of the least bad
  key.**
* `getElem?_insertAll_iff` — when what is read is entered under keys of its own, **the greatest
  key of the store wins.**
-/

set_option linter.unusedSectionVars false

namespace Scan

universe u

variable {ε α : Type*} {β γ : Type u} {read : α → Except ε β}

/-! ### Lists -/

theorem mapM_cons_ok {a : α} {b : β} (h : read a = .ok b) (as : List α) :
    (a :: as).mapM read = (as.mapM read).map (b :: ·) := by
  rw [List.mapM_cons, h]
  cases as.mapM read <;> rfl

theorem mapM_cons_error {a : α} {e : ε} (h : read a = .error e) (as : List α) :
    (a :: as).mapM read = .error e := by
  rw [List.mapM_cons, h]
  rfl

/-- **Reading and folding can be separated.** -/
theorem foldlM_map_eq (read : α → Except ε β) (update : γ → β → γ) (as : List α) (c : γ) :
    as.foldlM (fun c a => (read a).map (update c)) c =
      (as.mapM read).map (fun bs => bs.foldl update c) := by
  induction as generalizing c with
  | nil => rfl
  | cons a as ih =>
    rw [List.foldlM_cons]
    cases hread : read a with
    | error e =>
      rw [mapM_cons_error hread]
      rfl
    | ok b =>
      rw [mapM_cons_ok hread]
      refine (ih (update c b)).trans ?_
      cases as.mapM read <;> rfl

/-- A scan succeeds when every item can be read. -/
theorem mapM_eq_ok_iff {as : List α} {bs : List β} :
    as.mapM read = .ok bs ↔ List.Forall₂ (fun a b => read a = .ok b) as bs := by
  induction as generalizing bs with
  | nil =>
    rw [List.mapM_nil, List.forall₂_nil_left_iff]
    constructor
    · intro h
      cases h
      rfl
    · intro heq
      rw [heq]
      rfl
  | cons a as ih =>
    rw [List.forall₂_cons_left_iff]
    cases hread : read a with
    | error e =>
      rw [mapM_cons_error hread]
      simp
    | ok b =>
      rw [mapM_cons_ok hread]
      constructor
      · intro h
        cases hrest : as.mapM read with
        | error e =>
          rw [hrest] at h
          cases h
        | ok bs' =>
          rw [hrest] at h
          cases h
          exact ⟨b, bs', rfl, ih.mp hrest, rfl⟩
      · intro hex
        obtain ⟨b', bs', hb, hrest, rfl⟩ := hex
        cases hb
        rw [ih.mpr hrest]
        rfl

/-- A scan fails with the failure of the first item that cannot be read. -/
theorem mapM_eq_error_iff {as : List α} {e : ε} :
    as.mapM read = .error e ↔ ∃ done a rest, as = done ++ a :: rest ∧ read a = .error e ∧
      ∀ x ∈ done, ∃ b, read x = .ok b := by
  induction as with
  | nil => simp [pure, Except.pure]
  | cons a as ih =>
    cases hread : read a with
    | error e' =>
      rw [mapM_cons_error hread]
      constructor
      · intro h
        cases h
        exact ⟨[], a, as, rfl, hread, by simp⟩
      · intro hex
        obtain ⟨done, x, rest, heq, hx, hdone⟩ := hex
        cases done with
        | nil =>
          obtain ⟨rfl, -⟩ := List.cons.inj heq
          rw [Except.error.inj (hread.symm.trans hx)]
        | cons d done =>
          obtain ⟨rfl, -⟩ := List.cons.inj heq
          obtain ⟨b, hb⟩ := hdone _ List.mem_cons_self
          rw [hread] at hb
          cases hb
    | ok b =>
      have hmap : (a :: as).mapM read = .error e ↔ as.mapM read = .error e := by
        rw [mapM_cons_ok hread]
        cases as.mapM read <;> simp [Except.map]
      rw [hmap, ih]
      constructor
      · intro hex
        obtain ⟨done, x, rest, rfl, hx, hdone⟩ := hex
        exact ⟨a :: done, x, rest, rfl, hx, List.forall_mem_cons.mpr ⟨⟨b, hread⟩, hdone⟩⟩
      · intro hex
        obtain ⟨done, x, rest, heq, hx, hdone⟩ := hex
        cases done with
        | nil =>
          obtain ⟨rfl, rfl⟩ := List.cons.inj heq
          rw [hread] at hx
          cases hx
        | cons d done =>
          obtain ⟨rfl, rfl⟩ := List.cons.inj heq
          exact ⟨done, x, rest, rfl, hx, (List.forall_mem_cons.mp hdone).2⟩

theorem exists_mapM_iff {as : List α} :
    (∃ bs, as.mapM read = .ok bs) ↔ ∀ a ∈ as, ∃ b, read a = .ok b := by
  constructor
  · intro hex a ha
    obtain ⟨bs, hbs⟩ := hex
    have hall := mapM_eq_ok_iff.mp hbs
    clear hbs
    induction hall with
    | nil => cases ha
    | cons hread _ ih =>
      rcases List.mem_cons.mp ha with rfl | ha
      · exact ⟨_, hread⟩
      · exact ih ha
  · intro hall
    cases hscan : as.mapM read with
    | ok bs => exact ⟨bs, rfl⟩
    | error e =>
      obtain ⟨done, a, rest, rfl, hbad, -⟩ := mapM_eq_error_iff.mp hscan
      obtain ⟨b, hb⟩ := hall a (List.mem_append_right _ List.mem_cons_self)
      rw [hbad] at hb
      cases hb

theorem mem_of_mapM_iff {as : List α} {bs : List β} (h : as.mapM read = .ok bs) {b : β} :
    b ∈ bs ↔ ∃ a ∈ as, read a = .ok b := by
  have hall := mapM_eq_ok_iff.mp h
  clear h
  induction hall with
  | nil => simp
  | @cons a b₀ as bs ha _ ih =>
    simp only [List.mem_cons, exists_eq_or_imp, ha, Except.ok.injEq]
    exact or_congr eq_comm ih

/-! ### Sorted stores -/

variable {κ : Type*} {ν : Type*} [Ord κ] [Std.TransOrd κ] [Std.LawfulEqOrd κ] [DecidableEq κ]
  {readEntry : κ × ν → Except ε β}

/-- A scan of a store succeeds when every entry can be read. -/
theorem exists_mapM_toList_iff (m : FiniteMap κ ν) :
    (∃ bs, m.toList.mapM readEntry = .ok bs) ↔
      ∀ k v, m[k]? = some v → ∃ b, readEntry (k, v) = .ok b := by
  rw [exists_mapM_iff]
  constructor
  · exact fun hall k v hkv => hall _ ((FiniteMap.mem_toList_iff m k v).mpr hkv)
  · intro hall e he
    exact hall e.1 e.2 ((FiniteMap.mem_toList_iff m e.1 e.2).mp he)

/-- **The failure of a scan of a sorted store is that of the least bad key.** -/
theorem mapM_toList_eq_error_iff (m : FiniteMap κ ν) {e : ε} :
    m.toList.mapM readEntry = .error e ↔ ∃ k v, m[k]? = some v ∧ readEntry (k, v) = .error e ∧
      ∀ k' v', m[k']? = some v' → compare k' k = .lt → ∃ b, readEntry (k', v') = .ok b := by
  have hsorted := Std.ExtTreeMap.ordered_keys_toList (t := m)
  rw [mapM_eq_error_iff]
  constructor
  · intro hex
    obtain ⟨done, ⟨k, v⟩, rest, hlist, hbad, hdone⟩ := hex
    refine ⟨k, v, (FiniteMap.mem_toList_iff m k v).mp ?_, hbad, fun k' v' hkv' hlt => ?_⟩
    · rw [hlist]
      exact List.mem_append_right _ List.mem_cons_self
    · -- an entry with a smaller key comes before
      apply hdone
      have hmem := (FiniteMap.mem_toList_iff m k' v').mpr hkv'
      rw [hlist] at hmem hsorted
      rcases List.mem_append.mp hmem with hin | hin
      · exact hin
      · have hself : compare k k = .eq := Std.ReflCmp.compare_self
        rcases List.mem_cons.mp hin with heq | hin
        · obtain ⟨rfl, rfl⟩ := Prod.mk.inj heq
          rw [hself] at hlt
          cases hlt
        · have hgt := (List.pairwise_cons.mp (List.pairwise_append.mp hsorted).2.1).1 _ hin
          have hswap : compare k' k = (compare k k').swap := Std.OrientedCmp.eq_swap
          rw [hswap, hgt] at hlt
          cases hlt
  · intro hex
    obtain ⟨k, v, hkv, hbad, hless⟩ := hex
    obtain ⟨done, rest, hlist⟩ := List.append_of_mem ((FiniteMap.mem_toList_iff m k v).mpr hkv)
    refine ⟨done, (k, v), rest, hlist, hbad, fun x hx => ?_⟩
    obtain ⟨k', v'⟩ := x
    rw [hlist] at hsorted
    have hlt := (List.pairwise_append.mp hsorted).2.2 _ hx _ List.mem_cons_self
    refine hless k' v' ((FiniteMap.mem_toList_iff m k' v').mp ?_) hlt
    rw [hlist]
    exact List.mem_append_left _ hx

/-! ### Entering what is read -/

variable {κ' : Type*} [Ord κ'] [Std.TransOrd κ'] [Std.LawfulEqOrd κ'] [DecidableEq κ']
  {key : β → κ'}

/-- The item is read from an entry of the list, and from no entry with a greater key an item
with the same key is read. -/
def LastRead (readEntry : κ × ν → Except ε β) (key : β → κ') (l : List (κ × ν)) (b : β) : Prop :=
  ∃ e ∈ l, readEntry e = .ok b ∧
    ∀ e' ∈ l, ∀ b', readEntry e' = .ok b' → key b' = key b → compare e'.1 e.1 ≠ .gt

/-- The loop that enters what it reads, over any map. -/
theorem getElem?_insertAll_or {l : List (κ × ν)} {bs : List β}
    (hsorted : l.Pairwise fun e e' => compare e.1 e'.1 = .lt)
    (hread : List.Forall₂ (fun e b => readEntry e = .ok b) l bs) (m : FiniteMap κ' β) (a : κ')
    (b : β) :
    (FiniteMap.insertAll m (bs.map fun b => (key b, b)))[a]? = some b ↔
      (key b = a ∧ LastRead readEntry key l b) ∨
        ((∀ e ∈ l, ∀ b', readEntry e = .ok b' → key b' ≠ a) ∧ m[a]? = some b) := by
  induction hread generalizing m with
  | nil => simp [LastRead]
  | @cons e b₀ l bs he _ ih =>
    obtain ⟨hfirst, hsorted⟩ := List.pairwise_cons.mp hsorted
    have hgt : ∀ e' ∈ l, compare e'.1 e.1 = .gt := by
      intro e' he'
      have hswap : compare e'.1 e.1 = (compare e.1 e'.1).swap := Std.OrientedCmp.eq_swap
      rw [hswap, hfirst e' he']
      rfl
    rw [List.map_cons, FiniteMap.insertAll_cons, ih hsorted, FiniteMap.getElem?_insert_eq]
    constructor
    · rintro (⟨hkey, e₁, he₁, hb, hlast⟩ | ⟨hnone, hget⟩)
      · -- an entry before the one that wins
        refine Or.inl ⟨hkey, e₁, List.mem_cons_of_mem _ he₁, hb, ?_⟩
        rw [List.forall_mem_cons]
        refine ⟨fun b' _ _ => ?_, hlast⟩
        rw [hfirst e₁ he₁]
        simp
      · split at hget
        · next hkey =>
          obtain rfl := Option.some.inj hget
          refine Or.inl ⟨hkey, e, List.mem_cons_self, he, ?_⟩
          rw [List.forall_mem_cons]
          constructor
          · intro b' _ _
            simp
          · intro e' he' b' hb' hsame
            exact absurd (hsame.trans hkey) (hnone e' he' b' hb')
        · next hkey =>
          refine Or.inr ⟨?_, hget⟩
          rw [List.forall_mem_cons]
          refine ⟨fun b' hb' => ?_, hnone⟩
          rwa [← Except.ok.inj (he.symm.trans hb')]
    · rintro (⟨hkey, e₁, he₁, hb, hlast⟩ | ⟨hnone, hget⟩)
      · rw [List.forall_mem_cons] at hlast
        rcases List.mem_cons.mp he₁ with rfl | he₁
        · -- the first entry wins when no later one has the key
          obtain rfl := Except.ok.inj (he.symm.trans hb)
          refine Or.inr ⟨fun e' he' b' hb' hsame => ?_, by rw [if_pos hkey]⟩
          exact hlast.2 e' he' b' hb' (hsame.trans hkey.symm) (hgt e' he')
        · exact Or.inl ⟨hkey, e₁, he₁, hb, hlast.2⟩
      · rw [List.forall_mem_cons] at hnone
        exact Or.inr ⟨hnone.2, by rw [if_neg (hnone.1 b₀ he), hget]⟩

/-- **The greatest key wins**: what is entered under a key is what the last entry of the store
with that key was read as. -/
theorem getElem?_insertAll_iff (key : β → κ') (m : FiniteMap κ ν) {bs : List β}
    (hread : m.toList.mapM readEntry = .ok bs) (a : κ') (b : β) :
    (FiniteMap.insertAll ∅ (bs.map fun b => (key b, b)))[a]? = some b ↔
      key b = a ∧ ∃ k v, m[k]? = some v ∧ readEntry (k, v) = .ok b ∧
        ∀ k' v' b', m[k']? = some v' → readEntry (k', v') = .ok b' → key b' = a →
          compare k' k ≠ .gt := by
  rw [getElem?_insertAll_or (Std.ExtTreeMap.ordered_keys_toList (t := m)) (mapM_eq_ok_iff.mp hread),
    Std.ExtTreeMap.getElem?_empty]
  constructor
  · rintro (⟨hkey, ⟨k, v⟩, hmem, hb, hlast⟩ | ⟨-, hnone⟩)
    · refine ⟨hkey, k, v, (FiniteMap.mem_toList_iff m k v).mp hmem, hb, ?_⟩
      intro k' v' b' hkv' hb' hsame
      exact hlast _ ((FiniteMap.mem_toList_iff m k' v').mpr hkv') b' hb' (hsame.trans hkey.symm)
    · cases hnone
  · rintro ⟨hkey, k, v, hkv, hb, hlast⟩
    refine Or.inl ⟨hkey, (k, v), (FiniteMap.mem_toList_iff m k v).mpr hkv, hb, ?_⟩
    rintro ⟨k', v'⟩ hmem b' hb' hsame
    exact hlast k' v' b' ((FiniteMap.mem_toList_iff m k' v').mp hmem) hb' (hsame.trans hkey)

/-- What is read from a store is read from its entries. -/
theorem mem_of_mapM_toList_iff (m : FiniteMap κ ν) {bs : List β}
    (hread : m.toList.mapM readEntry = .ok bs) (b : β) :
    b ∈ bs ↔ ∃ k v, m[k]? = some v ∧ readEntry (k, v) = .ok b := by
  rw [mem_of_mapM_iff hread]
  constructor
  · rintro ⟨⟨k, v⟩, he, hb⟩
    exact ⟨k, v, (FiniteMap.mem_toList_iff m k v).mp he, hb⟩
  · rintro ⟨k, v, hkv, hb⟩
    exact ⟨(k, v), (FiniteMap.mem_toList_iff m k v).mpr hkv, hb⟩

end Scan
