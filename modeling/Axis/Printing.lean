import Axis.Lib.Calendar
import Axis.Node

/-!
# Printing

The console output of transactions and blocks, from `include/axis/util.h`, `src/tx.cpp` and
`src/block.cpp`, and the places that print them: the handlers of the TCP server and the
constructor.  `format_timestamp` hands the result of `std::gmtime` to `strftime` without a
look at it; a text that is `none` stands for a null pointer there, which ends the process.
Lines of the log are left out, and what `add_tx` prints, which has no times; what `dump_utxo`
prints is in `Axis.Dump`.

## Main definitions

* `gmtime`, `formatTimestamp` — the broken-down time, and its text.
* `Transaction.pretty`, `Block.pretty`, `Chain.printBlocks` — what is printed.
* `bootPrinted` — the constructor with its printing.
* `onCreateTxPrinted`, `onCreateBlockPrinted` — what the handlers print.
* `Timestamp.Printable` — the timestamps whose year fits.

## Main results

* `formatTimestamp_isSome_iff` — which timestamps have a text.
* `length_formatTimestamp` — a text fits its buffer.
* `bootPrinted_eq_ok_iff`, `bootPrinted_eq_none_iff` — when the constructor ends well, and when
  it ends the process.
* `printing_safe_iff` — **printing is safe exactly for printable timestamps**, at each place
  that prints, and in every run of printable blocks.
-/

namespace Axis

open Calendar Positional

variable {S : Sodium}

/-! ### Times -/

/-- `std::tm`, the year counted from 1900 and the month from zero. -/
structure Tm where
  year : ℤ
  mon : ℕ
  mday : ℕ
  hour : ℕ
  min : ℕ
  sec : ℕ
  deriving DecidableEq

/-- The day of a time, counted from the first day of the year 0. -/
def dayOfTime (t : Int64) : ℤ := daysBefore 1970 + t.toInt / 86400

/-- `std::gmtime`, which returns a null pointer when the year does not fit an `int`. -/
def gmtime (t : Int64) : Option Tm :=
  let day := dayOfTime t
  let second := (t.toInt % 86400).toNat
  let (month, mday) := monthDay (monthLengths (yearOf day)) (dayOfYear day)
  let year := yearOf day - 1900
  if -2 ^ 31 ≤ year ∧ year < 2 ^ 31 then
    some ⟨year, month, mday + 1, second / 3600, second / 60 % 60, second % 60⟩
  else none

/-- `strftime` with `%Y-%m-%d %H:%M:%S`.  The sum of `tm_year` and 1900 does not overflow
here; a C library that adds them as an `int` writes another year from `2 ^ 31` on. -/
def strftime (tm : Tm) : String :=
  toString (tm.year + 1900) ++ "-" ++ keyText (padDec 2 (tm.mon + 1)) ++ "-" ++
    keyText (padDec 2 tm.mday) ++ " " ++ keyText (padDec 2 tm.hour) ++ ":" ++
    keyText (padDec 2 tm.min) ++ ":" ++ keyText (padDec 2 tm.sec)

/-- The text of a timestamp, which is a signed number to `std::gmtime`. -/
def formatTimestamp (ts : Timestamp) : Option String := (gmtime ts.value.toInt64).map strftime

/-! ### What is printed -/

def shortHex (h : Hash) : String := toHex h

def shortAddr (a : Address) : String :=
  let full := (toHex a).toList
  String.ofList (full.take 8) ++ ".." ++ String.ofList (full.drop (full.length - 8))

def formatAmount (amount : UInt64) : String := toString amount.toNat

def OutPoint.text (op : OutPoint) : String :=
  "\x7b txid: " ++ shortHex op.txid ++ ",  index: " ++ toString op.index.toNat ++ " \x7d"

/-- The text behind or in front of the spaces that make up a width. -/
def padLeft (width : ℕ) (text : String) : String :=
  String.ofList (List.replicate (width - text.length) ' ') ++ text

def padRight (width : ℕ) (text : String) : String :=
  text ++ String.ofList (List.replicate (width - text.length) ' ')

/-- A horizontal line. -/
def rule (indent : ℕ) : String :=
  String.ofList (List.replicate indent ' ' ++ List.replicate (3 + 18 + 1 + 18) '─') ++ "\n"

namespace Transaction

def amountLine (label : String) (amount : UInt64) : String :=
  padRight 18 label ++ " " ++ padLeft 18 (formatAmount amount ++ " AXIS") ++ "\n"

def pretty (tx : Transaction) : Option String :=
  let title := "  ◆  " ++ (if tx.isCoinbase then "Coinbase" else "Transaction") ++ "  " ++
    shortHex tx.txid ++ "\n" ++ rule 2
  let ins := if tx.inputs.isEmpty then "" else
    "    Inputs  " ++ toString tx.inputs.length ++ "\n\n" ++
      String.join (tx.inputs.map fun op => "      ○  " ++ op.text ++ "\n") ++ "\n"
  let total := tx.outputs.foldl (fun total out => total + out.amount) 0
  let outs := if tx.outputs.isEmpty then "" else
    "    Outputs  " ++ toString tx.outputs.length ++ "\n" ++
      String.join (tx.outputs.map fun out =>
        "      →  " ++ amountLine (shortAddr out.recipient) out.amount) ++
      rule 6 ++ "      " ++ amountLine "Total" total ++ "\n"
  (formatTimestamp tx.timestamp).map fun time =>
    title ++ ins ++ outs ++ "    ▸  " ++ time ++ "\n"

/-- The line of a transaction below its block. -/
def line (last : Bool) (tx : Transaction) : String :=
  "   " ++ (if last then "└" else "├") ++ "─ " ++ shortHex tx.txid ++
    (if tx.isCoinbase then "  (coinbase)" else "") ++
    "  [" ++ toString tx.inputs.length ++ " in,  " ++ toString tx.outputs.length ++ " out]" ++
    (match tx.isCoinbase, tx.outputs with
      | true, out :: _ => "  " ++ formatAmount out.amount ++ " AXIS"
      | _, _ => "") ++ "\n"

end Transaction

def Block.pretty (blk : Block) : Option String :=
  (formatTimestamp blk.header.timestamp).map fun time =>
    shortHex blk.hash ++ "\n" ++
    "├─ Previous:     " ++ shortHex blk.header.prevHash ++ "\n" ++
    "├─ Merkle Root:  " ++ shortHex blk.header.merkleRoot ++ "\n" ++
    "├─ Timestamp:    " ++ time ++ "\n" ++
    "├─ Nonce:        " ++ toString blk.header.nonce.toNat ++ "\n" ++
    "└─ Transactions (" ++ toString blk.transactions.length ++ ")\n" ++
    String.join (blk.transactions.zipIdx.map fun (tx, i) =>
      tx.line (i + 1 = blk.transactions.length))

/-- The loop of the constructor over the blocks, from a position on. -/
def printFrom : ℕ → List Block → Option String
  | _, [] => some ""
  | i, blk :: blks => do
    let text ← blk.pretty
    let rest ← printFrom (i + 1) blks
    some ("Block #" ++ toString i ++ "\n" ++ text ++ "\n" ++ rest)

def Chain.printBlocks (c : Chain) : Option String := printFrom 0 c.blocks

/-- The constructor with its printing: `none` when it ends the process.  An exception of the
loading comes before any printing. -/
def bootPrinted (S : Sodium) (status : WriteStatus) (blocksDb poolDb : Db) :
    Option (Except String Chain) :=
  match boot S status blocksDb poolDb with
  | .error what => some (.error what)
  | .ok c => c.printBlocks.map fun _ => .ok c

/-- What `on_create_tx` prints: the transaction, unless something was thrown before. -/
def onCreateTxPrinted (S : Sodium) (payload : Bytes) (status : WriteStatus) (c : Chain) :
    Option String :=
  match parseCreateTxPayload.run ⟨payload, 0⟩ with
  | .error _ => some ""
  | .ok (parsed, _) =>
    match (c.addTx S (parsed.signed S) status).2 with
    | .error _ => some ""
    | .ok _ => (parsed.signed S).tx.pretty.map (· ++ "\n")

/-- What `on_create_block` prints of an accepted block. -/
def onCreateBlockPrinted (S : Sodium) (payload : Bytes) (io : List WriteStatus) (c : Chain) :
    Option String :=
  match acceptBlock S payload c with
  | .error _ => some ""
  | .ok blk =>
    match (c.addBlock blk io).2 with
    | .error _ => some ""
    | .ok () => blk.pretty.map (· ++ "\n")

/-! ### Which timestamps have a text -/

/-- The timestamp, as a signed number, is in a year that fits. -/
def Timestamp.Printable (ts : Timestamp) : Prop :=
  -67768040609740800 ≤ ts.value.toInt64.toInt ∧ ts.value.toInt64.toInt ≤ 67768036191676799

instance (ts : Timestamp) : Decidable ts.Printable := inferInstanceAs (Decidable (_ ∧ _))

/-- The years of an `int` counted from 1900, in seconds. -/
theorem gmtime_isSome_iff (t : Int64) :
    (gmtime t).isSome ↔ -67768040609740800 ≤ t.toInt ∧ t.toInt ≤ 67768036191676799 := by
  have hstart : daysBefore 1970 = 719528 := by decide
  have hfirst : -2 ^ 31 ≤ yearOf (dayOfTime t) - 1900 ↔ -67768040609740800 ≤ t.toInt := by
    have hyear := le_yearOf_iff (y := -2147481748) (d := dayOfTime t)
    rw [dayOfTime, hstart, show daysBefore (-2147481748) = -784351602344 by decide] at hyear
    rw [dayOfTime, hstart]
    omega
  have hlast : yearOf (dayOfTime t) - 1900 < 2 ^ 31 ↔ t.toInt ≤ 67768036191676799 := by
    have hyear := le_yearOf_iff (y := 2147485548) (d := dayOfTime t)
    rw [dayOfTime, hstart, show daysBefore 2147485548 = 784352990265 by decide] at hyear
    rw [dayOfTime, hstart]
    omega
  rw [← hfirst, ← hlast]
  unfold gmtime
  dsimp only
  split
  · next hfits => exact iff_of_true rfl hfits
  · next hfits => exact iff_of_false Bool.false_ne_true hfits

/-- **Which timestamps have a text.** -/
theorem formatTimestamp_isSome_iff (ts : Timestamp) :
    (formatTimestamp ts).isSome ↔ ts.Printable := by
  unfold formatTimestamp Timestamp.Printable
  rw [Option.isSome_map, gmtime_isSome_iff]

/-- The fields of a broken-down time are in their ranges. -/
structure Tm.Valid (tm : Tm) : Prop where
  year : -2 ^ 31 ≤ tm.year ∧ tm.year < 2 ^ 31
  mon : tm.mon < 12
  mday : 1 ≤ tm.mday ∧ tm.mday ≤ 31
  hour : tm.hour < 24
  min : tm.min < 60
  sec : tm.sec < 60

theorem gmtime_valid {t : Int64} {tm : Tm} (h : gmtime t = some tm) : tm.Valid := by
  unfold gmtime at h
  dsimp only at h
  split at h
  · next hyear =>
    cases h
    obtain ⟨hmonth, hday⟩ := month_day_lt (dayOfTime t)
    have hsecond : (t.toInt % 86400).toNat < 86400 := by omega
    refine ⟨hyear, hmonth, ⟨?_, ?_⟩, ?_, ?_, ?_⟩ <;> dsimp only <;> omega
  · cases h

/-- The text of a year that fits an `int`. -/
theorem length_toString_le {n : ℤ} (h : n.natAbs < 10 ^ 10) : (toString n).length ≤ 11 := by
  cases n with
  | ofNat m =>
    have hdigits := Nat.toDigits_length 10 m 10 (by norm_num) (by simpa using h)
    show (Nat.repr m).length ≤ 11
    simp only [Nat.repr, String.length_ofList]
    omega
  | negSucc m =>
    have hdigits := Nat.toDigits_length 10 (m + 1) 10 (by norm_num) (by simpa using h)
    have hsign : "-".length = 1 := rfl
    show ("-" ++ Nat.repr (m + 1)).length ≤ 11
    simp only [Nat.repr, String.length_append, String.length_ofList]
    omega

/-- **A text fits the buffer** of 32 characters, with the null character behind it. -/
theorem length_formatTimestamp {ts : Timestamp} {text : String}
    (h : formatTimestamp ts = some text) : text.length + 1 ≤ 32 := by
  obtain ⟨tm, htm, rfl⟩ := Option.map_eq_some_iff.mp h
  obtain ⟨hlow, hhigh⟩ := (gmtime_valid htm).year
  have hyear := length_toString_le (n := tm.year + 1900) (by omega)
  have htwo : ∀ n, (keyText (padDec 2 n)).length = 2 := by
    intro n
    rw [keyText, String.length_ofList, List.length_map, length_padDec]
  have hsep : "-".length = 1 ∧ " ".length = 1 ∧ ":".length = 1 := ⟨rfl, rfl, rfl⟩
  unfold strftime
  simp only [String.length_append, htwo]
  omega

theorem Transaction.pretty_isSome_iff (tx : Transaction) :
    tx.pretty.isSome ↔ tx.timestamp.Printable := by
  unfold pretty
  rw [Option.isSome_map, formatTimestamp_isSome_iff]

theorem Block.pretty_isSome_iff (blk : Block) :
    blk.pretty.isSome ↔ blk.header.timestamp.Printable := by
  unfold pretty
  rw [Option.isSome_map, formatTimestamp_isSome_iff]

/-- The constructor prints all blocks when all of them are printable. -/
theorem printBlocks_isSome_iff (c : Chain) :
    c.printBlocks.isSome ↔ ∀ blk ∈ c.blocks, blk.header.timestamp.Printable := by
  unfold Chain.printBlocks
  generalize 0 = i
  induction c.blocks generalizing i with
  | nil => simp [printFrom]
  | cons blk blks ih =>
    rw [printFrom, List.forall_mem_cons, ← ih (i + 1), ← Block.pretty_isSome_iff]
    cases blk.pretty with
    | none => simp
    | some text => cases printFrom (i + 1) blks <;> simp

/-! ### The places that print -/

/-- The constructor ends well when it loads printable blocks only. -/
theorem bootPrinted_eq_ok_iff {status : WriteStatus} {blocksDb poolDb : Db} {c : Chain} :
    bootPrinted S status blocksDb poolDb = some (.ok c) ↔
      boot S status blocksDb poolDb = .ok c ∧
        ∀ blk ∈ c.blocks, blk.header.timestamp.Printable := by
  unfold bootPrinted
  cases boot S status blocksDb poolDb with
  | error what => simp
  | ok c' =>
    rw [← printBlocks_isSome_iff]
    constructor
    · intro h
      obtain ⟨text, htext, heq⟩ := Option.map_eq_some_iff.mp h
      cases heq
      exact ⟨rfl, Option.isSome_of_eq_some htext⟩
    · rintro ⟨heq, hprint⟩
      cases heq
      obtain ⟨text, htext⟩ := Option.isSome_iff_exists.mp hprint
      exact Option.map_eq_some_iff.mpr ⟨text, htext, rfl⟩

/-- When the databases load, only the printing is left. -/
theorem bootPrinted_iff_printable {status : WriteStatus} {blocksDb poolDb : Db} {c : Chain}
    (h : boot S status blocksDb poolDb = .ok c) :
    bootPrinted S status blocksDb poolDb = some (.ok c) ↔
      ∀ blk ∈ c.blocks, blk.header.timestamp.Printable := by
  rw [bootPrinted_eq_ok_iff]
  exact and_iff_right h

theorem bootPrinted_eq_error_iff {status : WriteStatus} {blocksDb poolDb : Db} {what : String} :
    bootPrinted S status blocksDb poolDb = some (.error what) ↔
      boot S status blocksDb poolDb = .error what := by
  unfold bootPrinted
  cases boot S status blocksDb poolDb with
  | error what' => simp
  | ok c => simp

/-- The constructor ends the process at a block that is not printable. -/
theorem bootPrinted_eq_none_iff {status : WriteStatus} {blocksDb poolDb : Db} :
    bootPrinted S status blocksDb poolDb = none ↔
      ∃ c, boot S status blocksDb poolDb = .ok c ∧
        ∃ blk ∈ c.blocks, ¬ blk.header.timestamp.Printable := by
  unfold bootPrinted
  cases boot S status blocksDb poolDb with
  | error what => simp
  | ok c =>
    have hprint := printBlocks_isSome_iff c
    rw [← Option.not_isSome_iff_eq_none, Option.isSome_map, hprint]
    simp

theorem onCreateTxPrinted_isSome_iff (payload : Bytes) (status : WriteStatus) (c : Chain) :
    (onCreateTxPrinted S payload status c).isSome ↔
      ∀ parsed r, parseCreateTxPayload.run ⟨payload, 0⟩ = .ok (parsed, r) →
        ∀ err, (c.addTx S (parsed.signed S) status).2 = .ok err → parsed.timestamp.Printable := by
  unfold onCreateTxPrinted
  cases hrun : parseCreateTxPayload.run ⟨payload, 0⟩ with
  | error what => simp
  | ok p =>
    obtain ⟨parsed, r⟩ := p
    dsimp only
    cases hadd : (c.addTx S (parsed.signed S) status).2 with
    | error what =>
      refine iff_of_true rfl fun parsed' r' heq err herr => ?_
      cases heq
      rw [hadd] at herr
      cases herr
    | ok err =>
      rw [Option.isSome_map, Transaction.pretty_isSome_iff]
      constructor
      · intro hprint parsed' r' heq _ _
        cases heq
        exact hprint
      · exact fun hall => hall parsed r rfl err hadd

theorem onCreateBlockPrinted_isSome_iff (payload : Bytes) (io : List WriteStatus) (c : Chain) :
    (onCreateBlockPrinted S payload io c).isSome ↔
      ∀ blk, acceptBlock S payload c = .ok blk → (c.addBlock blk io).2 = .ok () →
        blk.header.timestamp.Printable := by
  unfold onCreateBlockPrinted
  cases haccept : acceptBlock S payload c with
  | error e => simp
  | ok blk =>
    dsimp only
    cases hadd : (c.addBlock blk io).2 with
    | error what =>
      refine iff_of_true rfl fun blk' heq hok => ?_
      cases heq
      rw [hadd] at hok
      cases hok
    | ok u =>
      rw [Option.isSome_map, Block.pretty_isSome_iff]
      constructor
      · intro hprint blk' heq _
        cases heq
        exact hprint
      · exact fun hall => hall blk rfl hadd

/-- An accepted block has the timestamp of its submission. -/
theorem printable_of_acceptBlock {c : Chain} {payload : Bytes} {blk : Block}
    (haccept : acceptBlock S payload c = .ok blk)
    (hprint : ∀ sub ∈ submission payload, sub.timestamp.Printable) :
    blk.header.timestamp.Printable := by
  obtain ⟨sub, refs, hcount, hpre, -, rfl, -⟩ := acceptBlock_eq_ok.mp haccept
  exact hprint sub (submission_eq_some hcount hpre)

/-! ### Runs -/

/-- An operation that submits no block but one with a printable timestamp. -/
def Op.Printable : Op → Prop
  | .createBlock payload => ∀ sub ∈ submission payload.bytes, sub.timestamp.Printable
  | _ => True

instance : DecidablePred Op.Printable
  | .createBlock payload =>
    inferInstanceAs (Decidable (∀ sub ∈ submission payload.bytes, sub.timestamp.Printable))
  | .createTx _ | .postTx _ | .restart => inferInstanceAs (Decidable True)

/-- The guard of runs that submit only blocks with printable timestamps. -/
def printableBlocks (_ : Chain) (op : Op) : Prop := op.Printable

instance (c : Chain) : DecidablePred (printableBlocks c) :=
  fun op => inferInstanceAs (Decidable op.Printable)

/-- A block of a database to which one was added. -/
theorem StoredBlock.of_insert {blocksDb : Db} {key : Bytes} {new blk : Block}
    (hnew : BlockGood S new) (hgood : BlockGood S blk)
    (h : StoredBlock (blocksDb.insert key new.serialize) blk) :
    blk = new ∨ StoredBlock blocksDb blk := by
  obtain ⟨key', hkey⟩ := h
  rw [FiniteMap.getElem?_insert_eq] at hkey
  split at hkey
  · exact Or.inl (hgood.eq_of_serialize hnew (Option.some.inj hkey).symm)
  · exact Or.inr ⟨key', hkey⟩

theorem printable_genesis : (genesisBlock S).header.timestamp.Printable := by
  show Timestamp.Printable ⟨1781545365⟩
  decide

/-- The blocks of a block database are printable. -/
def PrintableDb (S : Sodium) (blocksDb : Db) : Prop :=
  ∀ blk, BlockGood S blk → StoredBlock blocksDb blk → blk.header.timestamp.Printable

theorem PrintableDb.insert {blocksDb : Db} (h : PrintableDb S blocksDb) {new : Block}
    (hnew : BlockGood S new) (hprint : new.header.timestamp.Printable) (key : Bytes) :
    PrintableDb S (blocksDb.insert key new.serialize) := by
  intro blk hgood hstored
  rcases hstored.of_insert hnew hgood with rfl | hold
  · exact hprint
  · exact h blk hgood hold

theorem printableDb_empty : PrintableDb S ∅ := by
  rintro blk - ⟨key, hkey⟩
  rw [Std.ExtTreeMap.getElem?_empty] at hkey
  cases hkey

/-- All blocks are printable, those of the state and those of its database. -/
structure AllPrintable (S : Sodium) (c : Chain) : Prop where
  loaded : ∀ blk ∈ c.blocks, blk.header.timestamp.Printable
  stored : PrintableDb S c.blocksDb

theorem AllPrintable.grown {c : Chain} (h : AllPrintable S c) (hbase : Base S c)
    {sub : BlockSubmission} {refs : List Transaction} (ha : Accepted S c sub refs)
    (hsub : sub.timestamp.Printable) : AllPrintable S (c.grown (sub.block S refs)) where
  loaded := by
    intro blk hblk
    rcases List.mem_append.mp hblk with hold | hnew
    · exact h.loaded blk hold
    · rw [List.mem_singleton.mp hnew]
      exact hsub
  stored := h.stored.insert (ha.blockGood hbase.pool.good) hsub _

theorem allPrintable_genesis : AllPrintable S (genesisChain S) where
  loaded := by
    intro blk hblk
    rw [List.mem_singleton.mp hblk]
    exact printable_genesis
  stored := printableDb_empty.insert blockGood_genesis printable_genesis _

/-- **A run of printable blocks** holds and stores no other ones. -/
theorem allPrintable_of_reachable {c : Chain} (h : Reachable S printableBlocks c) :
    AllPrintable S c := by
  refine Transition.Reachable.rule ?_ ?_ h
  · intro c hc
    rw [boot_empty] at hc
    rw [← Except.ok.inj hc]
    exact allPrintable_genesis
  · intro c op c' hreach hI hg hstep
    have hbase := base_of_reachable hreach
    rcases step_cases hbase.pool.good hstep with rfl | ⟨st, hv, -, rfl⟩ |
      ⟨payload, sub, refs, rfl, hsub, ha, rfl⟩ | ⟨rfl, hboot⟩
    · exact hI
    · exact ⟨hI.loaded, hI.stored⟩
    · exact hI.grown hbase ha (hg sub hsub)
    · -- the constructor loads what is stored
      obtain ⟨c'', hboot', hbase', -, hdb, -, -, hblocks⟩ := Base.of_boot hbase.goodDb hbase.keys
        (List.length_pos_iff.mpr hbase.blocks_ne) hbase.pool.good hbase.pool.stored .ok
      rw [hboot] at hboot'
      obtain rfl := Except.ok.inj hboot'
      refine ⟨fun blk hblk => ?_, hdb ▸ hI.stored⟩
      have hgood := hbase'.good blk hblk
      exact hI.stored blk hgood ((hblocks blk hgood).mp hblk)

/-- **Printing is safe exactly for printable timestamps**: for a submitted transaction that
reaches the print, for an accepted block, and for the blocks that the constructor loads.  A
run of printable blocks can be restarted at any time. -/
theorem printing_safe_iff (S : Sodium) :
    (∀ payload status c, (onCreateTxPrinted S payload status c).isSome ↔
      ∀ parsed r, parseCreateTxPayload.run ⟨payload, 0⟩ = .ok (parsed, r) →
        ∀ err, (c.addTx S (parsed.signed S) status).2 = .ok err → parsed.timestamp.Printable) ∧
    (∀ payload io c, (onCreateBlockPrinted S payload io c).isSome ↔
      ∀ blk, acceptBlock S payload c = .ok blk → (c.addBlock blk io).2 = .ok () →
        blk.header.timestamp.Printable) ∧
    (∀ status blocksDb poolDb c, boot S status blocksDb poolDb = .ok c →
      (c.printBlocks.isSome ↔ ∀ blk ∈ c.blocks, blk.header.timestamp.Printable)) ∧
    ∀ c c', Reachable S printableBlocks c → step S .restart c = .ok c' →
      c'.printBlocks.isSome := by
  refine ⟨onCreateTxPrinted_isSome_iff, onCreateBlockPrinted_isSome_iff,
    fun _ _ _ c _ => printBlocks_isSome_iff c, fun c c' hreach hrestart => ?_⟩
  have hall := allPrintable_of_reachable (.step (i := .restart) hreach trivial hrestart)
  exact (printBlocks_isSome_iff c').mpr hall.loaded

namespace Sample

/-- A transaction of nothing, dated far beyond the years of an `int`. -/
def payFar : ParsedCreateTx := ⟨pubkey, ⟨2 ^ 62⟩, [], [], U8Array.fill 64 0⟩

/-- A block on the genesis block with the same date. -/
def blockFar : BlockSubmission :=
  ⟨genesisHash, cb₁, ⟨2 ^ 62⟩, 33447741, sender, 3 * units, ⟨1781545965⟩, []⟩

def txFar : Hash := ofHex 32 0x8e488be40b9e366c0ce6f7d9c2b72cfa37583e00f84fce16af57ae2dfcd39a4c

def hashFar : Hash := ofHex 32 0x0000002451ef6c07c1af9e7748f326603aa8fcbf684e3d89eaa6c26102638ed9

def sodiumFar : Sodium := sodiumWith [(paymentBytes payFar, txFar), (headerBytes blockFar, hashFar)]

end Sample

/-- **Null pointers reach the formatter**: for a transaction that is rejected, for a block that
is accepted, and for the same block when the node starts again. -/
theorem printing_far : ∃ c c', run Sample.sodiumFar [] = .ok c ∧
    (onCreateTx Sample.sodiumFar Sample.payFar.bytes .ok c).2.1 = .zeroAmount ∧
    onCreateTxPrinted Sample.sodiumFar Sample.payFar.bytes .ok c = none ∧
    (onCreateBlock Sample.sodiumFar Sample.blockFar.bytes [] c).2.1 = .none ∧
    onCreateBlockPrinted Sample.sodiumFar Sample.blockFar.bytes [] c = none ∧
    run Sample.sodiumFar [.createBlock (Sample.blockFar.frame (by decide)), .restart] = .ok c' ∧
    c'.printBlocks = none := by
  obtain ⟨c', hrun, -, hprint⟩ := exists_reachable_any (S := Sample.sodiumFar)
    [.createBlock (Sample.blockFar.frame (by decide)), .restart]
    (fun c => c.printBlocks = none) (by decide +kernel)
  exact ⟨_, c', rfl, by decide +kernel, by decide +kernel, by decide +kernel, by decide +kernel,
    hrun, hprint⟩

end Axis
