import Axis.Explorer
import Axis.Printing
import Axis.Supply

/-!
# The dump of the UTXO set

`dump_utxo` of `src/chain.cpp`, which the constructor calls when the databases are loaded.  The set
is an unordered map, so that its entries come in any order; they are sorted before they are printed.

## Main definitions

* `dumpLess` — the comparator of the sort.
* `dumpUtxo` — what is printed, for the entries in the order of an iteration.

## Main results

* `dumpLess_iff` — the texts are ordered as the outpoints.
* `mergeSort_dump` — **the order of the iteration does not matter.**
* `dumpUtxo_exact` — **the dumps of two chains are the same text exactly when their sets are the
  same.**
-/

namespace Axis

open Digits

/-! ### What is printed -/

/-- An entry of `utxo_`. -/
abbrev UtxoEntry := OutPoint × TxOutput

/-- The comparator of the sort; strings are compared byte by byte. -/
def dumpLess (a b : UtxoEntry) : Bool :=
  let aTxid := textBytes (toHex a.1.txid)
  let bTxid := textBytes (toHex b.1.txid)
  if aTxid ≠ bTxid then compare aTxid bTxid = .lt
  else a.1.index < b.1.index

/-- The lines of an entry, of which the last one has a branch of its own. -/
def dumpEntry (last : Bool) (e : UtxoEntry) : List String :=
  [(if last then "└─" else "├─") ++ " OutPoint",
   "   ├─ TxID:       " ++ shortHex e.1.txid,
   "   ├─ Index:      " ++ toString e.1.index.toNat,
   "   ├─ Recipient:  " ++ shortAddr e.2.recipient ++ " (" ++ toHex e.2.recipient ++ ")",
   "   └─ Amount:     " ++ formatAmount e.2.amount ++ " AXIS"]

def dumpEntries : List UtxoEntry → List String
  | [] => []
  | e :: es => dumpEntry es.isEmpty e ++ dumpEntries es

/-- The lines for the entries in the order of an iteration over the map. -/
def dumpLines (entries : List UtxoEntry) : List String :=
  let info := "[INFO] UTXO set contains " ++ toString entries.length ++ " output(s)"
  if entries.isEmpty then [info, "UTXO Set", "└─ (empty)"]
  else
    let sorted := entries.mergeSort fun a b => !dumpLess b a
    let totalAmount := sorted.foldl (fun total e => total + e.2.amount) 0
    [info, "UTXO Set"] ++ (dumpEntries sorted ++
      ["Total UTXO Balance: " ++ formatAmount totalAmount ++ " AXIS"])

def dumpUtxo (entries : List UtxoEntry) : String :=
  String.join ((dumpLines entries).map (· ++ "\n"))

/-! ### The order -/

/-- The texts are ordered as the outpoints. -/
theorem dumpLess_iff {a b : UtxoEntry} : dumpLess a b = true ↔ compare a.1 b.1 = .lt := by
  have hdef : compare a.1 b.1 = (compare a.1.txid.data b.1.txid.data).then
      (compare a.1.index b.1.index) := rfl
  have htext : textBytes (toHex a.1.txid) = textBytes (toHex b.1.txid) ↔
      a.1.txid.data = b.1.txid.data := by
    rw [textBytes_toHex, textBytes_toHex, encodeHex_injective.eq_iff]
  rw [hdef, dumpLess]
  by_cases heq : a.1.txid.data = b.1.txid.data
  · rw [if_neg (not_not.mpr (htext.mpr heq)), heq, Std.compare_eq_iff_eq.mpr rfl,
      decide_eq_true_eq]
    exact Std.compare_eq_lt.symm
  · have hne : compare a.1.txid.data b.1.txid.data ≠ .eq := fun h =>
      heq (Std.LawfulEqCmp.eq_of_compare h)
    rw [if_pos fun h => heq (htext.mp h), textBytes_toHex, textBytes_toHex, compare_encodeHex,
      decide_eq_true_eq]
    revert hne
    cases compare a.1.txid.data b.1.txid.data
    · exact fun _ => iff_of_true rfl rfl
    · exact fun hne => absurd rfl hne
    · exact fun _ => iff_of_false (fun h => nomatch h) fun h => nomatch h

/-- **The order of the iteration does not matter**: the sort puts the entries in the order of
their outpoints. -/
theorem mergeSort_dump {m : FiniteMap OutPoint TxOutput} {entries : List UtxoEntry}
    (h : entries.Perm m.toList) : (entries.mergeSort fun a b => !dumpLess b a) = m.toList := by
  refine FiniteMap.mergeSort_eq_toList m h ?_
  intro a b
  rw [Bool.not_eq_true', ← Bool.not_eq_true, dumpLess_iff, ← Ordering.isGE_iff_ne_lt,
    Std.OrientedCmp.isGE_iff_isLE]

/-! ### The text -/

/-- The text goes on one line. -/
def OneLine (text : String) : Prop := '\n' ∉ text.toList

instance (text : String) : Decidable (OneLine text) := inferInstanceAs (Decidable (¬ _))

theorem OneLine.append {s t : String} (hs : OneLine s) (ht : OneLine t) : OneLine (s ++ t) := by
  unfold OneLine
  rw [String.toList_append, List.mem_append, not_or]
  exact ⟨hs, ht⟩

theorem oneLine_toString (n : ℕ) : OneLine (toString n) := by
  intro hmem
  rw [Nat.toString_eq_repr, Nat.toList_repr] at hmem
  exact absurd (Nat.isDigit_of_mem_toDigits (by norm_num) le_rfl hmem) (by decide)

theorem toString_inj {m n : ℕ} (h : toString m = toString n) : m = n := by
  rw [Nat.toString_eq_repr, Nat.toString_eq_repr, ← String.toList_inj, Nat.toList_repr,
    Nat.toList_repr] at h
  have hread := congrArg (fun cs => Nat.ofDigitChars 10 cs 0) h
  simpa only [Nat.ofDigitChars_ten_toDigits] using hread

/-- The characters of hexadecimal text are digits. -/
theorem ne_newline_of_mem_toHex {n : ℕ} {a : U8Array n} {ch : Char} (h : ch ∈ (toHex a).toList) :
    ch ≠ '\n' := by
  rw [toHex, keyText, String.toList_ofList] at h
  obtain ⟨b, hb, rfl⟩ := List.mem_map.mp h
  obtain ⟨x, -, hx⟩ := List.mem_flatMap.mp hb
  have hx256 := x.toNat_lt
  obtain ⟨d, hd, rfl⟩ : ∃ d < 16, b = hexDigit d := by
    rcases List.mem_cons.mp hx with rfl | hlow
    · exact ⟨x.toNat / 16, by omega, rfl⟩
    · exact ⟨x.toNat % 16, by omega, List.mem_singleton.mp hlow⟩
  intro heq
  have hnat := congrArg Char.toNat heq
  have hvalue := toNat_hexChar hd
  rw [← hexDigit_eq] at hvalue
  have hvalid : (hexDigit d).toNat.isValidChar := Or.inl (by
    have hlt := (hexDigit d).toNat_lt
    omega)
  rw [Char.toNat_ofNat, if_pos hvalid, hvalue, show '\n'.toNat = 10 from rfl] at hnat
  split at hnat <;> omega

theorem oneLine_toHex {n : ℕ} (a : U8Array n) : OneLine (toHex a) := fun h =>
  ne_newline_of_mem_toHex h rfl

theorem oneLine_shortAddr (a : Address) : OneLine (shortAddr a) := by
  have htake : OneLine (String.ofList ((toHex a).toList.take 8)) := by
    unfold OneLine
    rw [String.toList_ofList]
    exact fun h => oneLine_toHex a (List.mem_of_mem_take h)
  have hdrop : OneLine (String.ofList
      ((toHex a).toList.drop ((toHex a).toList.length - 8))) := by
    unfold OneLine
    rw [String.toList_ofList]
    exact fun h => oneLine_toHex a (List.mem_of_mem_drop h)
  exact (htake.append (by decide)).append hdrop

/-- Every line of an entry is one line. -/
theorem oneLine_dumpEntry {last : Bool} {e : UtxoEntry} {line : String}
    (h : line ∈ dumpEntry last e) : OneLine line := by
  simp only [dumpEntry, List.mem_cons, List.not_mem_nil, or_false] at h
  rcases h with rfl | rfl | rfl | rfl | rfl
  · cases last <;> decide
  · exact .append (by decide) (oneLine_toHex _)
  · exact .append (by decide) (oneLine_toString _)
  · exact .append (.append (.append (.append (by decide) (oneLine_shortAddr _)) (by decide))
      (oneLine_toHex _)) (by decide)
  · exact .append (.append (by decide) (oneLine_toString _)) (by decide)

theorem oneLine_dumpEntries {es : List UtxoEntry} {line : String} (h : line ∈ dumpEntries es) :
    OneLine line := by
  induction es with
  | nil => cases h
  | cons e es ih =>
    rcases List.mem_append.mp h with hfirst | hrest
    · exact oneLine_dumpEntry hfirst
    · exact ih hrest

theorem oneLine_dumpLines {entries : List UtxoEntry} {line : String}
    (h : line ∈ dumpLines entries) : OneLine line := by
  have hinfo : OneLine ("[INFO] UTXO set contains " ++ toString entries.length ++ " output(s)") :=
    .append (.append (by decide) (oneLine_toString _)) (by decide)
  unfold dumpLines at h
  dsimp only at h
  split at h
  · simp only [List.mem_cons, List.not_mem_nil, or_false] at h
    rcases h with rfl | rfl | rfl
    · exact hinfo
    · decide
    · decide
  · simp only [List.mem_append, List.mem_cons, List.not_mem_nil, or_false] at h
    rcases h with (rfl | rfl) | hentry | rfl
    · exact hinfo
    · decide
    · exact oneLine_dumpEntries hentry
    · exact .append (.append (by decide) (oneLine_toString _)) (by decide)

/-- The text determines its lines. -/
theorem dumpLines_of_dumpUtxo {entries entries' : List UtxoEntry}
    (h : dumpUtxo entries = dumpUtxo entries') : dumpLines entries = dumpLines entries' := by
  have htext : ∀ lines : List String, (String.join (lines.map (· ++ "\n"))).toList =
      unlines '\n' (lines.map String.toList) := by
    intro lines
    rw [String.toList_join, unlines, List.flatMap_map, List.flatMap_map]
    refine List.flatMap_congr fun line _ => ?_
    rw [String.toList_append]
    rfl
  have hlines : ∀ {es : List UtxoEntry}, ∀ l ∈ (dumpLines es).map String.toList, '\n' ∉ l := by
    intro es l hl
    obtain ⟨line, hline, rfl⟩ := List.mem_map.mp hl
    exact oneLine_dumpLines hline
  rw [← String.toList_inj, dumpUtxo, dumpUtxo, htext, htext] at h
  exact List.map_injective_iff.mpr (fun s t => String.toList_inj.mp) (unlines_inj hlines hlines h)

theorem length_toHex {n : ℕ} (a : U8Array n) : (toHex a).toList.length = 2 * n := by
  have h := congrArg List.length (textBytes_toHex a)
  rwa [textBytes, List.length_map, length_encodeHex, a.size_data] at h

/-- Texts with ends of one length are compared end by end. -/
theorem append_inj_of_length {s t u v : String} (h : s ++ u = t ++ v)
    (hlength : u.toList.length = v.toList.length) : u = v := by
  have htext := congrArg String.toList h
  rw [String.toList_append (s := s) (t := u), String.toList_append (s := t) (t := v)] at htext
  exact String.toList_inj.mp (List.append_inj' htext hlength).2

/-- The lines of an entry determine it: the shortened address in front of the whole one has no
more to say. -/
theorem dumpEntry_inj {last last' : Bool} {e e' : UtxoEntry}
    (h : dumpEntry last e = dumpEntry last' e') : e = e' := by
  simp only [dumpEntry, List.cons.injEq] at h
  obtain ⟨-, htxid, hindex, hrecipient, hamount, -⟩ := h
  have htxid' : e.1.txid = e'.1.txid := toHex_inj ((String.append_right_inj _).mp htxid)
  have hindex' : e.1.index = e'.1.index :=
    UInt32.toNat_inj.mp (toString_inj ((String.append_right_inj _).mp hindex))
  have hamount' : e.2.amount = e'.2.amount :=
    UInt64.toNat_inj.mp (toString_inj
      ((String.append_right_inj _).mp ((String.append_left_inj _).mp hamount)))
  have hrecipient' : e.2.recipient = e'.2.recipient := by
    refine toHex_inj (append_inj_of_length ((String.append_left_inj _).mp hrecipient) ?_)
    rw [length_toHex, length_toHex]
  obtain ⟨⟨txid, index⟩, ⟨recipient, amount⟩⟩ := e
  obtain ⟨⟨txid', index'⟩, ⟨recipient', amount'⟩⟩ := e'
  obtain ⟨rfl, rfl⟩ : txid = txid' ∧ index = index' := ⟨htxid', hindex'⟩
  obtain ⟨rfl, rfl⟩ : recipient = recipient' ∧ amount = amount' := ⟨hrecipient', hamount'⟩
  rfl

theorem length_dumpEntry (last : Bool) (e : UtxoEntry) : (dumpEntry last e).length = 5 := rfl

theorem dumpEntries_inj {es es' : List UtxoEntry} {rest rest' : List String}
    (hlength : es.length = es'.length) (h : dumpEntries es ++ rest = dumpEntries es' ++ rest') :
    es = es' := by
  induction es generalizing es' with
  | nil => exact (List.length_eq_zero_iff.mp hlength.symm).symm
  | cons e es ih =>
    cases es' with
    | nil => exact absurd hlength (Nat.succ_ne_zero _)
    | cons e' es' =>
      rw [dumpEntries, dumpEntries, List.append_assoc, List.append_assoc] at h
      obtain ⟨hfirst, hrest⟩ := List.append_inj h (by rw [length_dumpEntry, length_dumpEntry])
      exact congrArg₂ List.cons (dumpEntry_inj hfirst) (ih (Nat.succ.inj hlength) hrest)

/-- The lines determine the entries, up to the order of the iteration. -/
theorem sorted_of_dumpLines {entries entries' : List UtxoEntry}
    (h : dumpLines entries = dumpLines entries') :
    (entries.mergeSort fun a b => !dumpLess b a) =
      entries'.mergeSort fun a b => !dumpLess b a := by
  have hlength : entries.length = entries'.length := by
    have hinfo : ∀ es : List UtxoEntry, (dumpLines es).head? =
        some ("[INFO] UTXO set contains " ++ toString es.length ++ " output(s)") := by
      intro es
      unfold dumpLines
      dsimp only
      split <;> rfl
    have hhead := congrArg List.head? h
    rw [hinfo, hinfo, Option.some_inj] at hhead
    exact toString_inj ((String.append_right_inj _).mp ((String.append_left_inj _).mp hhead))
  cases entries with
  | nil => rw [List.length_eq_zero_iff.mp hlength.symm]
  | cons e es =>
    cases entries' with
    | nil => exact absurd hlength (Nat.succ_ne_zero _)
    | cons e' es' =>
      rw [dumpLines, dumpLines] at h
      simp only [List.isEmpty_cons, Bool.false_eq_true, if_false] at h
      exact dumpEntries_inj (by rw [List.length_mergeSort, List.length_mergeSort, hlength])
        (List.append_inj h rfl).2

/-- The last line is the total of the set. -/
theorem getLast?_dumpLines {c : Chain} {entries : List UtxoEntry}
    (h : entries.Perm c.utxo.toList) (hne : entries ≠ []) :
    (dumpLines entries).getLast? =
      some ("Total UTXO Balance: " ++ formatAmount c.dumpTotal ++ " AXIS") := by
  have hempty : entries.isEmpty = false := by
    rw [← Bool.not_eq_true, List.isEmpty_iff]
    exact hne
  rw [dumpLines, hempty, mergeSort_dump h, Chain.dumpTotal]
  simp only [Bool.false_eq_true, if_false]
  rw [List.getLast?_append_of_ne_nil _ (by simp), List.getLast?_append_of_ne_nil _ (by simp),
    List.getLast?_singleton]

/-- **The dump shows the set**: in whatever order the two maps are iterated, the texts are the
same exactly when the sets are; and the last line is the total of the set. -/
theorem dumpUtxo_exact {c c' : Chain} {entries entries' : List UtxoEntry}
    (h : entries.Perm c.utxo.toList) (h' : entries'.Perm c'.utxo.toList) :
    (dumpUtxo entries = dumpUtxo entries' ↔ c.utxo = c'.utxo) ∧
    (entries ≠ [] → (dumpLines entries).getLast? =
      some ("Total UTXO Balance: " ++ formatAmount c.dumpTotal ++ " AXIS")) := by
  refine ⟨⟨fun htext => ?_, fun heq => ?_⟩, getLast?_dumpLines h⟩
  · have hsorted := sorted_of_dumpLines (dumpLines_of_dumpUtxo htext)
    rw [mergeSort_dump h, mergeSort_dump h'] at hsorted
    exact Std.ExtTreeMap.toList_inj.mp hsorted
  · rw [← heq] at h'
    have hlength : entries.length = entries'.length := (h.trans h'.symm).length_eq
    have hempty : entries.isEmpty = entries'.isEmpty := by
      rw [Bool.eq_iff_iff, List.isEmpty_iff, List.isEmpty_iff, ← List.length_eq_zero_iff,
        ← List.length_eq_zero_iff, hlength]
    rw [dumpUtxo, dumpUtxo, dumpLines, dumpLines, mergeSort_dump h, mergeSort_dump h', hlength,
      hempty]

/-- The dumps of the sample run before and after it restarts, the first in the order of the map
and the second in the opposite one. -/
theorem dumpUtxo_exact_confirmed : ∃ c c', run Sample.sodium Sample.confirmed = .ok c ∧
    run Sample.sodium (Sample.confirmed ++ [.restart]) = .ok c' ∧ 2 ≤ c.utxo.toList.length ∧
    dumpUtxo c.utxo.toList = dumpUtxo c'.utxo.toList.reverse := by
  obtain ⟨c, hrun, -, hlength⟩ := exists_reachable_any (S := Sample.sodium)
    Sample.confirmed (fun c => 2 ≤ c.utxo.toList.length) (by decide +kernel)
  obtain ⟨c', hrun', -, heq⟩ := exists_reachable_any (S := Sample.sodium)
    (Sample.confirmed ++ [.restart]) (fun c' => (run Sample.sodium Sample.confirmed).toOption.map
      (fun c => c.utxo.toList) = some c'.utxo.toList) (by decide +kernel)
  rw [hrun] at heq
  refine ⟨c, c', hrun, hrun', hlength, ?_⟩
  exact (dumpUtxo_exact (List.Perm.refl _) (List.reverse_perm _)).1.mpr
    (Std.ExtTreeMap.toList_inj.mp (Option.some_inj.mp heq))

end Axis
