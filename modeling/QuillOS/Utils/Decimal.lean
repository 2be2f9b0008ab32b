import Mathlib.Data.Nat.Digits.Lemmas
import QuillOS.Lib.ByteMemory
import QuillOS.Shell.RunCommand

/-!
# Decimal numerals

`itoa` of `utils.cpp` writes the digits of a number to a scratch buffer, the last one first, and
copies them back to front. The `kill` command reads a number with the loop of `run`, in 32 bits.
-/

namespace QuillOS.Utils

open Lib
open Filesystem (Str)
open Shell (isDigit decimal numeral numeral_eq)

/-! ## The loops -/

/-- `while (n > 0) { tmp[i++] = (n % 10) + '0'; n /= 10; }` -/
def extract (n : UInt64) (tmp : Mem) (i : ℕ) : Mem × ℕ :=
  if 0 < n then extract (n / 10) (Function.update tmp i (n % 10 + 48).toUInt8) (i + 1) else (tmp, i)
termination_by n.toNat
decreasing_by
  rename_i hpos
  rw [UInt64.lt_iff_toNat_lt] at hpos
  exact Nat.div_lt_self hpos (by decide)

/-- `while (i > 0) str[j++] = tmp[--i];` -/
def copyBack (tmp : Mem) : ℕ → Mem → ℕ → Mem × ℕ
  | 0, str, j => (str, j)
  | i + 1, str, j => copyBack tmp i (Function.update str j (tmp i)) (j + 1)

/-- The two buffers when `itoa` returns, with the number of entries of each that were used. -/
structure Written where
  tmp : Mem
  scratch : ℕ
  str : Mem
  length : ℕ

def itoa (n : UInt64) (tmp str : Mem) : Written :=
  let (tmp, i) := if n = 0 then (Function.update tmp 0 48, 1) else (tmp, 0)
  let (tmp, i) := extract n tmp i
  let (str, j) := copyBack tmp i str 0
  { tmp := tmp, scratch := i, str := Function.update str j 0, length := j + 1 }

/-- The loop of `kill` over its argument, from `arg[j]` on, for at most `fuel` tests. -/
def parsePid (arg : Mem) : ℕ → ℕ → UInt32 → Option UInt32
  | 0, _, _ => none
  | fuel + 1, j, pid =>
    if isDigit (arg j) then parsePid arg fuel (j + 1) (pid * 10 + (arg j - 48).toUInt32)
    else some pid

/-- The decimal numeral of a number, with no zero in front unless it stands alone. -/
structure IsNumeral (s : Str) (n : ℕ) : Prop where
  digits : ∀ c ∈ s, isDigit c = true
  value : decimal s = n
  ne_nil : s ≠ []
  canonical : s.head? = some 48 → s = [48]

/-! ## Digits -/

variable {n : UInt64} {tmp str arg : Mem} {s : Str} {ds : List ℕ} {i j : ℕ}

/-- The character of a digit. -/
def digitChar (d : ℕ) : UInt8 := UInt8.ofNat (48 + d)

theorem toNat_digitChar {d : ℕ} (hd : d < 10) : (digitChar d).toNat = 48 + d := by
  unfold digitChar
  rw [UInt8.toNat_ofNat', Nat.mod_eq_of_lt (by omega)]

theorem isDigit_digitChar {d : ℕ} (hd : d < 10) : isDigit (digitChar d) = true := by
  apply decide_eq_true
  rw [UInt8.le_iff_toNat_le, UInt8.le_iff_toNat_le, toNat_digitChar hd]
  change 48 ≤ 48 + d ∧ 48 + d ≤ 57
  omega

/-- Digits written back to front stand for the number they are the digits of. -/
theorem decimal_reverse (hds : ∀ d ∈ ds, d < 10) :
    decimal (ds.map digitChar).reverse = Nat.ofDigits 10 ds := by
  induction ds with
  | nil => rfl
  | cons d ds ih =>
    rw [List.forall_mem_cons] at hds
    rw [List.map_cons, List.reverse_cons, Nat.ofDigits_cons, ← ih hds.2]
    unfold decimal
    rw [List.foldl_append, List.foldl_cons, List.foldl_nil, toNat_digitChar hds.1]
    omega

/-- The digits of a number, the last one first; zero has one. -/
def digitsOf (n : ℕ) : List ℕ := if n = 0 then [0] else Nat.digits 10 n

theorem digitsOf_lt (n : ℕ) : ∀ d ∈ digitsOf n, d < 10 := by
  unfold digitsOf
  split_ifs
  · simp
  · exact fun d hd => Nat.digits_lt_base (by decide) hd

theorem ofDigits_digitsOf (n : ℕ) : Nat.ofDigits 10 (digitsOf n) = n := by
  unfold digitsOf
  split_ifs with hn
  · rw [hn]
    rfl
  · exact Nat.ofDigits_digits 10 n

theorem digitsOf_ne_nil (n : ℕ) : digitsOf n ≠ [] := by
  unfold digitsOf
  split_ifs with hn
  · exact List.cons_ne_nil _ _
  · exact Nat.digits_ne_nil_iff_ne_zero.mpr hn

/-- The first digit is a zero in `0` alone. -/
theorem getLast_digitsOf {n : ℕ} (h : (digitsOf n).getLast? = some 0) : digitsOf n = [0] := by
  unfold digitsOf at h ⊢
  split_ifs at h ⊢ with hn
  · rfl
  · have hlast := Nat.getLast_digit_ne_zero 10 hn
    rw [List.getLast?_eq_some_getLast (Nat.digits_ne_nil_iff_ne_zero.mpr hn)] at h
    exact absurd (Option.some.inj h) hlast

/-- A number of 64 bits has at most 20 digits. -/
theorem length_digitsOf_le (n : UInt64) : (digitsOf n.toNat).length ≤ 20 := by
  have hlt := n.toNat_lt
  unfold digitsOf
  split_ifs
  · decide
  · exact (Nat.digits_length_le_iff (by decide) _).mpr (hlt.trans (by norm_num))

/-- The numeral `itoa` writes. -/
def numeralOf (n : ℕ) : Str := ((digitsOf n).map digitChar).reverse

theorem length_numeralOf (n : ℕ) : (numeralOf n).length = (digitsOf n).length := by
  unfold numeralOf
  rw [List.length_reverse, List.length_map]

theorem numeralOf_digits (n : ℕ) : ∀ c ∈ numeralOf n, isDigit c = true := by
  intro c hc
  obtain ⟨d, hd, rfl⟩ := List.mem_map.mp (List.mem_reverse.mp hc)
  exact isDigit_digitChar (digitsOf_lt n d hd)

theorem isNumeral_numeralOf (n : ℕ) : IsNumeral (numeralOf n) n where
  digits := numeralOf_digits n
  value := (decimal_reverse (digitsOf_lt n)).trans (ofDigits_digitsOf n)
  ne_nil := by
    unfold numeralOf
    rw [ne_eq, List.reverse_eq_nil_iff, List.map_eq_nil_iff]
    exact digitsOf_ne_nil n
  canonical := by
    unfold numeralOf
    intro hhead
    rw [List.head?_reverse, List.getLast?_map] at hhead
    obtain ⟨d, hlast, hd⟩ := Option.map_eq_some_iff.mp hhead
    have hlt := digitsOf_lt n d (List.mem_of_getLast? hlast)
    have hzero : d = 0 := by
      have hval := congrArg UInt8.toNat hd
      rw [toNat_digitChar hlt] at hval
      change 48 + d = 48 at hval
      omega
    rw [getLast_digitsOf (hzero ▸ hlast)]
    rfl

theorem exists_digits (hs : ∀ c ∈ s, isDigit c = true) :
    ∃ ds : List ℕ, (∀ d ∈ ds, d < 10) ∧ s = (ds.map digitChar).reverse := by
  induction s with
  | nil => exact ⟨[], nofun, rfl⟩
  | cons c s ih =>
    rw [List.forall_mem_cons] at hs
    obtain ⟨ds, hds, rfl⟩ := ih hs.2
    obtain ⟨hlo, hhi⟩ := of_decide_eq_true hs.1
    replace hlo : 48 ≤ c.toNat := UInt8.le_iff_toNat_le.mp hlo
    replace hhi : c.toNat ≤ 57 := UInt8.le_iff_toNat_le.mp hhi
    have hc : digitChar (c.toNat - 48) = c := by
      rw [← UInt8.toNat_inj, toNat_digitChar (by omega)]
      omega
    refine ⟨ds ++ [c.toNat - 48], ?_, ?_⟩
    · rw [List.forall_mem_append, List.forall_mem_singleton]
      exact ⟨hds, by omega⟩
    · rw [List.map_append, List.map_singleton, hc, List.reverse_append, List.reverse_singleton]
      rfl

/-- A number has one numeral. -/
theorem IsNumeral.eq {n : ℕ} (h : IsNumeral s n) : s = numeralOf n := by
  have hvalue := h.value
  by_cases hhead : s.head? = some 48
  · rw [h.canonical hhead] at hvalue ⊢
    exact hvalue ▸ rfl
  · obtain ⟨ds, hds, rfl⟩ := exists_digits h.digits
    rw [decimal_reverse hds] at hvalue
    have hne : ds ≠ [] := fun hnil => h.ne_nil (hnil ▸ rfl)
    have hlast : ∀ hd : ds ≠ [], ds.getLast hd ≠ 0 := by
      intro hd hzero
      rw [List.head?_reverse, List.getLast?_map, List.getLast?_eq_some_getLast hd, hzero] at hhead
      exact hhead rfl
    have hdigits : Nat.digits 10 n = ds :=
      hvalue ▸ Nat.digits_ofDigits 10 (by decide) ds hds hlast
    have hpos : n ≠ 0 := Nat.digits_ne_nil_iff_ne_zero.mp (hdigits ▸ hne)
    rw [numeralOf, digitsOf, if_neg hpos, hdigits]

/-! ## Writing -/

/-- Nothing changes outside `k` bytes from `a` on. -/
def SameOutside (a k : ℕ) (m m' : Mem) : Prop := ∀ x, x < a ∨ a + k ≤ x → m' x = m x

/-- A byte is written and then those behind it. -/
theorem load_update {m m' : Mem} {a k : ℕ} (v : UInt8)
    (hsame : SameOutside (a + 1) k (Function.update m a v) m') :
    m'.load a (k + 1) = v :: m'.load (a + 1) k ∧ SameOutside a (k + 1) m m' := by
  constructor
  · rw [Mem.load_succ, hsame a (.inl (Nat.lt_succ_self a)), Function.update_self]
  · intro x hx
    rw [hsame x (by omega), Function.update_of_ne (by omega)]

theorem extract_spec (n : UInt64) (tmp : Mem) (i : ℕ) :
    (extract n tmp i).2 = i + (Nat.digits 10 n.toNat).length ∧
      (extract n tmp i).1.load i (Nat.digits 10 n.toNat).length =
        (Nat.digits 10 n.toNat).map digitChar ∧
      SameOutside i (Nat.digits 10 n.toNat).length tmp (extract n tmp i).1 := by
  fun_induction extract n tmp i with
  | case1 n tmp i hpos ih =>
    have hn : 0 < n.toNat := UInt64.lt_iff_toNat_lt.mp hpos
    have hchar : (n % 10 + 48).toUInt8 = digitChar (n.toNat % 10) := by
      apply UInt8.toNat_inj.mp
      rw [toNat_digitChar (Nat.mod_lt _ (by decide)), UInt64.toNat_toUInt8, UInt64.toNat_add,
        UInt64.toNat_mod]
      change (n.toNat % 10 + 48) % 2 ^ 64 % 2 ^ 8 = _
      omega
    have hdiv : (n / 10).toNat = n.toNat / 10 := UInt64.toNat_div n 10
    rw [hdiv] at ih
    obtain ⟨hlen, hload, hsame⟩ := ih
    obtain ⟨hfirst, houtside⟩ := load_update _ hsame
    rw [Nat.digits_def' (by decide) hn, List.length_cons, List.map_cons]
    refine ⟨by omega, ?_, houtside⟩
    rw [hfirst, hload, hchar]
  | case2 n tmp i hzero =>
    have hn : n.toNat = 0 := by
      rw [UInt64.lt_iff_toNat_lt] at hzero
      exact Nat.eq_zero_of_not_pos hzero
    rw [hn, Nat.digits_zero]
    exact ⟨rfl, rfl, fun _ _ => rfl⟩

theorem copyBack_spec (tmp : Mem) (i : ℕ) (str : Mem) (j : ℕ) :
    (copyBack tmp i str j).2 = j + i ∧
      (copyBack tmp i str j).1.load j i = (tmp.load 0 i).reverse ∧
      SameOutside j i str (copyBack tmp i str j).1 := by
  induction i generalizing str j with
  | zero => exact ⟨rfl, rfl, fun _ _ => rfl⟩
  | succ i ih =>
    obtain ⟨hlen, hload, hsame⟩ := ih (Function.update str j (tmp i)) (j + 1)
    obtain ⟨hfirst, houtside⟩ := load_update _ hsame
    rw [copyBack]
    refine ⟨by omega, ?_, houtside⟩
    rw [hfirst, hload, Mem.load_snoc, List.reverse_append, List.reverse_singleton, Nat.zero_add]
    rfl

/-- The scratch buffer once the first loop is done. -/
theorem scratch_spec (n : UInt64) (tmp : Mem) :
    ∃ m, (if n = 0 then (Function.update tmp 0 48, 1) else (tmp, 0)) = m ∧
      (extract n m.1 m.2).2 = (digitsOf n.toNat).length ∧
      (extract n m.1 m.2).1.load 0 (digitsOf n.toNat).length = (digitsOf n.toNat).map digitChar ∧
      SameOutside 0 (digitsOf n.toNat).length tmp (extract n m.1 m.2).1 := by
  refine ⟨_, rfl, ?_⟩
  by_cases hn : n = 0
  · subst hn
    rw [if_pos rfl, extract, if_neg (by decide)]
    refine ⟨rfl, ?_, fun x hx => Function.update_of_ne ?_ _ _⟩
    · change [Function.update tmp 0 48 0] = _
      rw [Function.update_self]
      rfl
    · change x < 0 ∨ 0 + 1 ≤ x at hx
      omega
  · have hdigits : digitsOf n.toNat = Nat.digits 10 n.toNat :=
      if_neg fun h => hn (UInt64.toNat_inj.mp h)
    rw [if_neg hn, hdigits]
    have hspec := extract_spec n tmp 0
    rwa [Nat.zero_add] at hspec

theorem itoa_spec (n : UInt64) (tmp str : Mem) :
    (itoa n tmp str).scratch = (numeralOf n.toNat).length ∧
      (itoa n tmp str).length = (numeralOf n.toNat).length + 1 ∧
      (itoa n tmp str).str.load 0 ((numeralOf n.toNat).length + 1) = numeralOf n.toNat ++ [0] ∧
      SameOutside 0 (numeralOf n.toNat).length tmp (itoa n tmp str).tmp ∧
      SameOutside 0 ((numeralOf n.toNat).length + 1) str (itoa n tmp str).str := by
  obtain ⟨m, hm, hscratch, hdigits, htmp⟩ := scratch_spec n tmp
  obtain ⟨hlen, hcopied, hstr⟩ := copyBack_spec (extract n m.1 m.2).1 (extract n m.1 m.2).2 str 0
  rw [← length_numeralOf] at hscratch hdigits htmp
  rw [hscratch] at hlen hcopied hstr
  rw [Nat.zero_add] at hlen
  rw [hdigits] at hcopied
  unfold itoa
  rw [hm]
  dsimp only
  rw [hscratch, hlen]
  refine ⟨rfl, rfl, ?_, htmp, fun x hx => ?_⟩
  · rw [Mem.load_snoc, Nat.zero_add, Function.update_self]
    congr 1
    rw [Mem.load_congr, hcopied]
    · rfl
    · intro x hx
      exact Function.update_of_ne (by omega) _ _
  · rw [Function.update_of_ne (by omega), hstr x (by omega)]

/-! ## Reading -/

/-- The loop of `kill` reads the digits up to the first other character. -/
theorem parsePid_eq {c : UInt8} {fuel : ℕ} {pid : UInt32} (hs : ∀ c ∈ s, isDigit c = true)
    (hend : isDigit c = false) (hload : arg.load j (s.length + 1) = s ++ [c])
    (hfuel : s.length < fuel) :
    parsePid arg fuel j pid =
      some (s.foldl (fun val c => val * 10 + (c - 48).toUInt32) pid) := by
  induction s generalizing j fuel pid with
  | nil =>
    obtain ⟨fuel, rfl⟩ : ∃ k, fuel = k + 1 := ⟨fuel - 1, by rw [List.length_nil] at hfuel; omega⟩
    have hchar : arg j = c := List.head_eq_of_cons_eq hload
    rw [parsePid, hchar, hend, if_neg Bool.false_ne_true]
    rfl
  | cons d s ih =>
    obtain ⟨fuel, rfl⟩ : ∃ k, fuel = k + 1 := ⟨fuel - 1, by omega⟩
    rw [List.forall_mem_cons] at hs
    rw [List.length_cons, Mem.load_succ, List.cons_append, List.cons.injEq] at hload
    rw [List.length_cons] at hfuel
    rw [parsePid, hload.1, if_pos hs.1, List.foldl_cons]
    exact ih hs.2 hload.2 (by omega)

/-- `itoa` writes the numeral of every number of 64 bits and its terminator, in 20 entries of the
scratch buffer and 21 bytes of the string, and `kill` reads the number back in 32 bits. -/
theorem itoa_exact (n : UInt64) (tmp str : Mem) :
    (∃ s, IsNumeral s n.toNat ∧
      (itoa n tmp str).str.load 0 (itoa n tmp str).length = s ++ [0]) ∧
      ((itoa n tmp str).scratch ≤ 20 ∧ SameOutside 0 20 tmp (itoa n tmp str).tmp) ∧
      ((itoa n tmp str).length ≤ 21 ∧ SameOutside 0 21 str (itoa n tmp str).str) ∧
      ∃ pid, (∀ fuel, 21 ≤ fuel → parsePid (itoa n tmp str).str fuel 0 0 = some pid) ∧
        pid.toNat = n.toNat % 2 ^ 32 ∧ (n.toNat < 2 ^ 32 → pid.toNat = n.toNat) := by
  obtain ⟨hscratch, hlen, hload, htmp, hstr⟩ := itoa_spec n tmp str
  have hshort : (numeralOf n.toNat).length ≤ 20 :=
    (length_numeralOf _).trans_le (length_digitsOf_le n)
  have hnumeral := isNumeral_numeralOf n.toNat
  have hpid : (numeral (numeralOf n.toNat)).toNat = n.toNat % 2 ^ 32 := by
    rw [numeral_eq hnumeral.digits, hnumeral.value, UInt32.toNat_ofNat']
  refine ⟨⟨_, hnumeral, by rw [hlen, hload]⟩, ⟨by omega, fun x hx => htmp x (by omega)⟩,
    ⟨by omega, fun x hx => hstr x (by omega)⟩, numeral (numeralOf n.toNat), fun fuel hfuel => ?_,
    hpid, fun hsmall => hpid.trans (Nat.mod_eq_of_lt hsmall)⟩
  exact parsePid_eq hnumeral.digits (by decide) hload (by omega)

/-- The largest number of 64 bits has 20 digits. -/
example : (numeralOf 18446744073709551615).length = 20 := by
  rw [length_numeralOf]
  norm_num [digitsOf]

end QuillOS.Utils
