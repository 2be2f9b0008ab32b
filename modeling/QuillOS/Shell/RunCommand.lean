import Mathlib.Data.List.TakeWhile
import QuillOS.Cluster.Jobs
import QuillOS.Shell.Model

/-!
# The arguments of `run`

The `run` command reads its numbers in a loop that skips digits and blanks only. It reads a list of
numerals as it should; any other character holds it up for good.
-/

namespace QuillOS.Shell

open Filesystem (Str)
open Cluster (JobType JobNode Ip Bytes jobSum jobProduct jobMax jobPrime jobEcho)
open Lib (le32)

variable {rest digits : Str} {numbers values : List UInt32} {fuel k : ℕ} {c : UInt8}

/-! ## The command -/

/-- `c >= '0' && c <= '9'`. -/
def isDigit (c : UInt8) : Bool := decide (48 ≤ c ∧ c ≤ 57)

/-- The value the inner loop builds up. -/
def numeral (digits : Str) : UInt32 :=
  digits.foldl (fun val c => val * 10 + (c - 48).toUInt32) 0

/-- A turn of the loop: the digits are skipped, their value is kept if there was one, and the blanks
behind them are skipped. -/
def parseTurn (rest : Str) (numbers : List UInt32) : Str × List UInt32 :=
  let digits := rest.takeWhile isDigit
  ((rest.dropWhile isDigit).dropWhile (· = 32),
    if digits = [] then numbers else numbers ++ [numeral digits])

/-- The loop, for at most `fuel` turns. -/
def parseNumbers : ℕ → Str → List UInt32 → Option (List UInt32)
  | 0, _, _ => none
  | fuel + 1, rest, numbers =>
    if rest ≠ [] ∧ numbers.length < 32 then
      parseNumbers fuel (parseTurn rest numbers).1 (parseTurn rest numbers).2
    else some numbers

/-- The type of the job and what follows it. -/
def splitRun (arg : Str) : Str × Str :=
  let type := (arg.takeWhile (· ≠ 32)).take 15
  (type, (arg.drop type.length).dropWhile (· = 32))

def jobTypeOf (type : Str) : Option JobType :=
  if type = ascii "sum" then some jobSum
  else if type = ascii "product" then some jobProduct
  else if type = ascii "max" then some jobMax
  else if type = ascii "prime" then some jobPrime
  else if type = ascii "echo" then some jobEcho
  else none

/-- The job side of the node after the command, and the message if one was sent; `none` when the
numbers take more than `fuel` turns or the job never ends. -/
def runCommand (fuel : ℕ) (node : JobNode) (arg : Str) (ticks : UInt64) (localLoad : UInt32)
    (sent : Bool) : Option (JobNode × Option (Ip × Bytes)) :=
  if arg = [] then some (node, none)
  else match jobTypeOf (splitRun arg).1 with
    | none => some (node, none)
    | some jtype =>
      (parseNumbers fuel (splitRun arg).2 []).bind fun numbers =>
        if numbers = [] then some (node, none)
        else node.submit jtype (numbers.flatMap le32) ticks localLoad sent

/-! ## Words -/

/-- A character the loop skips. -/
def Legible (c : UInt8) : Prop := isDigit c = true ∨ c = 32

instance (c : UInt8) : Decidable (Legible c) := inferInstanceAs (Decidable (_ ∨ _))

/-- What comes before the first character the loop does not skip. -/
def legiblePart (rest : Str) : Str := rest.takeWhile fun c => decide (Legible c)

/-- The parts of a string between its blanks. -/
def words (s : Str) : List Str := (s.splitOnP (· = 32)).filter (· ≠ [])

theorem isDigit_ne_blank (h : isDigit c = true) : c ≠ 32 := by
  rintro rfl
  cases h

theorem words_nil : words [] = [] := by
  unfold words
  rw [List.splitOnP_nil]
  rfl

theorem words_blanks (k : ℕ) (s : Str) : words (List.replicate k 32 ++ s) = words s := by
  induction k with
  | zero => rfl
  | succ k ih =>
    rw [List.replicate_succ, List.cons_append, ← ih]
    unfold words
    rw [List.splitOnP_cons_eq_if_modifyHead, if_pos (by decide)]
    rfl

/-- A numeral is a word of its own if it is followed by a blank, or by nothing. -/
theorem words_numeral {s : Str} (hne : digits ≠ []) (hdigits : ∀ c ∈ digits, isDigit c = true)
    (hend : k = 0 → s = []) : words (digits ++ (List.replicate k 32 ++ s)) = digits :: words s := by
  have hfree : ∀ c ∈ digits, decide (c = 32) = false :=
    fun c hc => decide_eq_false (isDigit_ne_blank (hdigits c hc))
  cases k with
  | zero =>
    rw [hend rfl, words_nil, List.replicate_zero, List.nil_append, List.append_nil]
    unfold words
    rw [List.splitOnP_eq_singleton hfree]
    simp [hne]
  | succ k =>
    rw [← words_blanks k s, List.replicate_succ, List.cons_append]
    unfold words
    rw [List.splitOnP_append_cons_of_forall_mem hfree 32 (by decide), List.filter_cons_of_pos]
    simpa using hne

/-! ## One turn -/

/-- A turn takes a numeral, if there is one, and the blanks behind it off the string. -/
theorem parseTurn_spec (rest : Str) (numbers : List UInt32) : ∃ digits k rest',
    rest = digits ++ (List.replicate k 32 ++ rest') ∧ (∀ c ∈ digits, isDigit c = true) ∧
      (k = 0 → ∀ c ∈ rest'.head?, ¬Legible c) ∧
      parseTurn rest numbers =
        (rest', if digits = [] then numbers else numbers ++ [numeral digits]) := by
  refine ⟨rest.takeWhile isDigit, ((rest.dropWhile isDigit).takeWhile (· = 32)).length,
    (rest.dropWhile isDigit).dropWhile (· = 32), ?_, ?_, ?_, rfl⟩
  · have hblanks : List.replicate ((rest.dropWhile isDigit).takeWhile (· = 32)).length 32 =
        (rest.dropWhile isDigit).takeWhile (· = 32) := by
      refine (List.eq_replicate_of_mem fun c hc => ?_).symm
      have hblank := List.mem_takeWhile_imp (p := fun c : UInt8 => decide (c = 32)) hc
      exact of_decide_eq_true hblank
    rw [hblanks, List.takeWhile_append_dropWhile, List.takeWhile_append_dropWhile]
  · exact fun c hc => List.mem_takeWhile_imp hc
  · intro hk c hc
    have hblank : c ≠ 32 := by
      have hhead := List.head?_dropWhile_not (fun c : UInt8 => decide (c = 32))
        (rest.dropWhile isDigit)
      rw [Option.mem_def.mp hc] at hhead
      simpa using hhead
    have hsame : (rest.dropWhile isDigit).dropWhile (· = 32) = rest.dropWhile isDigit := by
      have hcut := List.takeWhile_append_dropWhile (p := fun c : UInt8 => decide (c = 32))
        (l := rest.dropWhile isDigit)
      rwa [List.length_eq_zero_iff.mp hk, List.nil_append] at hcut
    have hdigit : isDigit c ≠ true := by
      have hhead := List.head?_dropWhile_not isDigit rest
      rw [hsame] at hc
      rw [Option.mem_def.mp hc] at hhead
      simpa using hhead
    exact not_or.mpr ⟨hdigit, hblank⟩

/-- Where it starts with one that is, the string gets shorter. -/
theorem parseTurn_shorter {r : Str} (h : Legible c) (numbers : List UInt32) :
    (parseTurn (c :: r) numbers).1.length < (c :: r).length := by
  obtain ⟨digits, k, rest', hcut, -, hend, hturn⟩ := parseTurn_spec (c :: r) numbers
  rw [hturn]
  by_contra hlen
  dsimp only at hlen
  have hlength := congrArg List.length hcut
  simp only [List.length_append, List.length_replicate] at hlength
  have hdigits : digits = [] := List.length_eq_zero_iff.mp (by omega)
  have hk : k = 0 := by omega
  rw [hdigits, hk, List.replicate_zero, List.nil_append, List.nil_append] at hcut
  exact hend hk c (hcut ▸ rfl) h

/-! ## The loop -/

/-- The numbers read so far, and the values of the numerals still to come. -/
def expected (rest : Str) (numbers : List UInt32) : List UInt32 :=
  numbers ++ (words (legiblePart rest)).map numeral

theorem legiblePart_append {s : Str} (h : ∀ c ∈ digits, Legible c) :
    legiblePart (digits ++ s) = digits ++ legiblePart s :=
  List.takeWhile_append_of_pos fun c hc => decide_eq_true (h c hc)

/-- A turn changes nothing in what is expected. -/
theorem parseTurn_expected (rest : Str) (numbers : List UInt32) :
    expected (parseTurn rest numbers).1 (parseTurn rest numbers).2 = expected rest numbers := by
  obtain ⟨digits, k, rest', hcut, hdigits, hend, hturn⟩ := parseTurn_spec rest numbers
  have hblanks : ∀ c ∈ List.replicate k 32, Legible c :=
    fun c hc => .inr (List.eq_of_mem_replicate hc)
  have hpart : legiblePart rest = digits ++ (List.replicate k 32 ++ legiblePart rest') := by
    rw [hcut, legiblePart_append fun c hc => .inl (hdigits c hc), legiblePart_append hblanks]
  have hnone : k = 0 → legiblePart rest' = [] := by
    intro hk
    cases rest' with
    | nil => rfl
    | cons c r => exact List.takeWhile_cons_of_neg (by simpa using hend hk c rfl)
  rw [hturn]
  unfold expected
  rw [hpart]
  by_cases hnil : digits = []
  · rw [if_pos hnil, hnil, List.nil_append, words_blanks]
  · rw [if_neg hnil, words_numeral hnil hdigits hnone, List.map_cons, List.append_assoc]
    rfl

theorem legible_of_turn {numbers : List UInt32} :
    (∀ c ∈ (parseTurn rest numbers).1, Legible c) ↔ ∀ c ∈ rest, Legible c := by
  obtain ⟨digits, k, rest', hcut, hdigits, -, hturn⟩ := parseTurn_spec rest numbers
  rw [hturn, hcut]
  constructor
  · intro h c hc
    rcases List.mem_append.mp hc with hc | hc
    · exact .inl (hdigits c hc)
    · rcases List.mem_append.mp hc with hc | hc
      · exact .inr (List.eq_of_mem_replicate hc)
      · exact h c hc
  · exact fun h c hc => h c (List.mem_append_right _ (List.mem_append_right _ hc))

/-- The loop comes to an end. -/
def Ends (rest : Str) (numbers : List UInt32) : Prop :=
  (∀ c ∈ rest, Legible c) ∨ 32 ≤ (expected rest numbers).length

theorem parseNumbers_ends (h : Ends rest numbers) (hfuel : rest.length < fuel) :
    parseNumbers fuel rest numbers ≠ none := by
  induction fuel generalizing rest numbers with
  | zero => exact absurd hfuel (Nat.not_lt_zero _)
  | succ fuel ih =>
    rw [parseNumbers]
    split
    · next hgo =>
      obtain ⟨hne, hfew⟩ := hgo
      cases rest with
      | nil => exact absurd rfl hne
      | cons c r =>
        have hlegible : Legible c := by
          rcases h with hall | hmany
          · exact hall c List.mem_cons_self
          · by_contra hc
            have hnone : legiblePart (c :: r) = [] :=
              List.takeWhile_cons_of_neg (by simpa using hc)
            rw [expected, hnone, words_nil, List.map_nil, List.append_nil] at hmany
            omega
        apply ih
        · rw [Ends, legible_of_turn, parseTurn_expected]
          exact h
        · have hshort := parseTurn_shorter (r := r) hlegible numbers
          omega
    · exact Option.some_ne_none _

/-- Otherwise it goes on for ever, at the first character it does not skip. -/
theorem parseNumbers_stuck (h : ¬Ends rest numbers) (fuel : ℕ) :
    parseNumbers fuel rest numbers = none := by
  induction fuel generalizing rest numbers with
  | zero => rfl
  | succ fuel ih =>
    obtain ⟨hsome, hfew⟩ := not_or.mp h
    have hgo : rest ≠ [] ∧ numbers.length < 32 := by
      constructor
      · rintro rfl
        exact hsome fun c hc => by cases hc
      · rw [expected, List.length_append] at hfew
        omega
    rw [parseNumbers, if_pos hgo]
    apply ih
    rwa [Ends, legible_of_turn, parseTurn_expected]

theorem parseNumbers_value (h : parseNumbers fuel rest numbers = some values)
    (hfew : numbers.length ≤ 32) : values = (expected rest numbers).take 32 := by
  induction fuel generalizing rest numbers with
  | zero => cases h
  | succ fuel ih =>
    rw [parseNumbers] at h
    split at h
    · next hgo =>
      rw [← parseTurn_expected]
      apply ih h
      obtain ⟨digits, k, rest', -, -, -, hturn⟩ := parseTurn_spec rest numbers
      rw [hturn]
      split
      · exact hfew
      · rw [List.length_append]
        exact hgo.2
    · next hstop =>
      obtain rfl := Option.some.inj h
      rcases Decidable.not_and_iff_or_not.mp hstop with hnil | hfull
      · rw [not_not] at hnil
        rw [hnil, expected, show legiblePart [] = [] from rfl, words_nil, List.map_nil,
          List.append_nil, List.take_of_length_le hfew]
      · rw [expected, List.take_append_of_le_length (by omega), List.take_of_length_le hfew]

/-! ## Lists of numerals -/

/-- The number a string of decimal digits stands for. -/
def decimal (digits : Str) : ℕ := digits.foldl (fun n c => n * 10 + (c.toNat - 48)) 0

/-- The string consists of these decimal numerals, with one or more blanks between them and any
number behind the last. -/
inductive Numerals : List Str → Str → Prop
  | none : Numerals [] []
  | last {d : Str} : d ≠ [] → (∀ c ∈ d, isDigit c = true) → Numerals [d] d
  | more {d : Str} {ds : List Str} {s : Str} (k : ℕ) : d ≠ [] → (∀ c ∈ d, isDigit c = true) →
      Numerals ds s → Numerals (d :: ds) (d ++ (List.replicate (k + 1) 32 ++ s))

theorem numeral_eq (hdigits : ∀ c ∈ digits, isDigit c = true) :
    numeral digits = UInt32.ofNat (decimal digits) := by
  unfold numeral decimal
  suffices h : ∀ n : ℕ, digits.foldl (fun val c => val * 10 + (c - 48).toUInt32) (UInt32.ofNat n) =
      UInt32.ofNat (digits.foldl (fun n c => n * 10 + (c.toNat - 48)) n) from h 0
  induction digits with
  | nil => exact fun n => rfl
  | cons c digits ih =>
    intro n
    obtain ⟨hlo, -⟩ := of_decide_eq_true (hdigits c List.mem_cons_self)
    have hsub : (c - 48).toNat = c.toNat - 48 := UInt8.toNat_sub_of_le c 48 hlo
    have hdigit : (c - 48).toUInt32 = UInt32.ofNat (c.toNat - 48) := by
      rw [← hsub, UInt32.ofNat_uInt8ToNat]
    rw [List.foldl_cons, List.foldl_cons, hdigit,
      ← ih (fun c hc => hdigits c (List.mem_cons_of_mem _ hc)), UInt32.ofNat_add, UInt32.ofNat_mul]
    rfl

theorem Numerals.legible {ds : List Str} (h : Numerals ds rest) :
    (∀ c ∈ rest, Legible c) ∧ words rest = ds ∧ ∀ d ∈ ds, ∀ c ∈ d, isDigit c = true := by
  induction h with
  | none =>
    refine ⟨fun c hc => ?_, words_nil, fun d hd => ?_⟩
    · cases hc
    · cases hd
  | @last d hne hdigits =>
    refine ⟨fun c hc => .inl (hdigits c hc), ?_, ?_⟩
    · have hword := words_numeral (k := 0) (s := []) hne hdigits fun _ => rfl
      rwa [List.replicate_zero, List.nil_append, List.append_nil, words_nil] at hword
    · intro e he
      obtain rfl := List.mem_singleton.mp he
      exact hdigits
  | @more d ds s k hne hdigits _ ih =>
    obtain ⟨hlegible, hwords, hall⟩ := ih
    refine ⟨?_, ?_, ?_⟩
    · intro c hc
      rcases List.mem_append.mp hc with hc | hc
      · exact .inl (hdigits c hc)
      · rcases List.mem_append.mp hc with hc | hc
        · exact .inr (List.eq_of_mem_replicate hc)
        · exact hlegible c hc
    · rw [words_numeral hne hdigits fun hk => absurd hk (Nat.succ_ne_zero k), hwords]
    · intro e he
      rcases List.mem_cons.mp he with rfl | he
      · exact hdigits
      · exact hall e he

/-- The values of the numerals modulo `2 ^ 32`, the first 32 of them. -/
def submitted (ds : List Str) : List UInt32 := (ds.map fun d => UInt32.ofNat (decimal d)).take 32

theorem Numerals.parsed {ds : List Str} (h : Numerals ds rest) (hfuel : rest.length < fuel) :
    parseNumbers fuel rest [] = some (submitted ds) := by
  obtain ⟨hlegible, hwords, hdigits⟩ := h.legible
  have hends : Ends rest [] := .inl hlegible
  have hsome := parseNumbers_ends hends hfuel
  obtain ⟨values, hvalues⟩ := Option.ne_none_iff_exists'.mp hsome
  have hpart : legiblePart rest = rest :=
    List.takeWhile_eq_self_iff.mpr fun c hc => decide_eq_true (hlegible c hc)
  rw [hvalues, parseNumbers_value hvalues (Nat.zero_le _), expected, hpart, hwords,
    List.nil_append, submitted]
  congr 2
  exact List.map_congr_left fun d hd => numeral_eq (hdigits d hd)

/-- Behind a known type the loop ends exactly if every character is a digit or a blank, or 32
numerals come before the first other one; and of a list of numerals the values are submitted. -/
theorem run_parser_ends_iff (arg : Str) {jtype : JobType}
    (htype : jobTypeOf (splitRun arg).1 = some jtype) :
    ((∃ fuel, parseNumbers fuel (splitRun arg).2 [] ≠ none) ↔
      (∀ c ∈ (splitRun arg).2, Legible c) ∨ 32 ≤ (words (legiblePart (splitRun arg).2)).length) ∧
    ∀ ds, Numerals ds (splitRun arg).2 → ∀ fuel, (splitRun arg).2.length < fuel →
      ∀ (node : JobNode) (ticks : UInt64) (localLoad : UInt32) (sent : Bool),
        runCommand fuel node arg ticks localLoad sent =
          if ds = [] then some (node, none)
          else node.submit jtype ((submitted ds).flatMap le32) ticks localLoad sent := by
  have hends : Ends (splitRun arg).2 [] ↔ (∀ c ∈ (splitRun arg).2, Legible c) ∨
      32 ≤ (words (legiblePart (splitRun arg).2)).length := by
    rw [Ends, expected, List.nil_append, List.length_map]
  refine ⟨?_, ?_⟩
  · rw [← hends]
    constructor
    · rintro ⟨fuel, hfuel⟩
      by_contra hstuck
      exact hfuel (parseNumbers_stuck hstuck fuel)
    · exact fun h => ⟨_, parseNumbers_ends h (Nat.lt_succ_self _)⟩
  · intro ds hds fuel hfuel node ticks localLoad sent
    have hnonempty : arg ≠ [] := by
      rintro rfl
      cases htype
    unfold runCommand
    rw [if_neg hnonempty, htype]
    dsimp only
    rw [hds.parsed hfuel, Option.bind_some]
    have hempty : submitted ds = [] ↔ ds = [] := by
      unfold submitted
      rw [List.take_eq_nil_iff, List.map_eq_nil_iff]
      exact or_iff_right (by decide)
    simp only [hempty]

/-- `run sum 10 20` submits the two numbers. -/
theorem run_parser_ends_sum :
    (∃ fuel, parseNumbers fuel (splitRun (ascii "sum 10 20")).2 [] ≠ none) ∧
      ∀ (node : JobNode) (ticks : UInt64) (localLoad : UInt32) (sent : Bool),
        runCommand 6 node (ascii "sum 10 20") ticks localLoad sent =
          node.submit jobSum (le32 10 ++ le32 20) ticks localLoad sent := by
  have htype : jobTypeOf (splitRun (ascii "sum 10 20")).1 = some jobSum := by decide +kernel
  have hrest : (splitRun (ascii "sum 10 20")).2 = ascii "10" ++ (List.replicate 1 32 ++ ascii "20") :=
    by decide +kernel
  have hnumerals : Numerals [ascii "10", ascii "20"] (splitRun (ascii "sum 10 20")).2 := by
    rw [hrest]
    exact Numerals.more 0 (by decide +kernel) (by decide +kernel)
      (Numerals.last (by decide +kernel) (by decide +kernel))
  obtain ⟨hends, hvalues⟩ := run_parser_ends_iff (ascii "sum 10 20") htype
  refine ⟨hends.mpr (.inl (by decide +kernel)), fun node ticks localLoad sent => ?_⟩
  rw [hvalues _ hnumerals 6 (by decide +kernel), if_neg (List.cons_ne_nil _ _)]
  rw [show (submitted [ascii "10", ascii "20"]).flatMap le32 = le32 10 ++ le32 20 by decide +kernel]

/-- `run sum 1 x` never returns. -/
theorem run_parser_hangs : ¬∀ (arg : Str) {jtype : JobType},
    jobTypeOf (splitRun arg).1 = some jtype →
      ∃ fuel, parseNumbers fuel (splitRun arg).2 [] ≠ none := by
  intro h
  have htype : jobTypeOf (splitRun (ascii "sum 1 x")).1 = some jobSum := by decide +kernel
  have hends := h (ascii "sum 1 x") htype
  rw [(run_parser_ends_iff (ascii "sum 1 x") htype).1] at hends
  revert hends
  decide +kernel

end QuillOS.Shell
