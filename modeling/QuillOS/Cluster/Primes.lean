import Mathlib.NumberTheory.LucasPrimality
import Mathlib.NumberTheory.PrimeCounting
import Mathlib.Tactic.NormNum.Prime
import Mathlib.Tactic.ReduceModChar
import QuillOS.Cluster.Jobs

/-!
# The prime job

Trial division with 32-bit words. The square of the divisor wraps, so for candidates from
`65535 ^ 2` on the loop does not stop at the square root; it goes on until a wrapped square passes
the candidate, or the divisor reaches it.
-/

namespace QuillOS.Cluster

open Lib

/-- The numbers `isPrime` divides `i` by in its first `fuel` turns from divisor `j` on. -/
def divisors (i : UInt32) : ℕ → UInt32 → List UInt32
  | 0, _ => []
  | fuel + 1, j =>
    if j * j ≤ i then j :: if i % j = 0 then [] else divisors i fuel (j + 1) else []

/-! ## One turn -/

theorem square_le_iff {i j : UInt32} : j * j ≤ i ↔ j.toNat * j.toNat % 2 ^ 32 ≤ i.toNat := by
  rw [UInt32.le_iff_toNat_le, UInt32.toNat_mul]

theorem mod_eq_zero_iff {i j : UInt32} : i % j = 0 ↔ j.toNat ∣ i.toNat := by
  rw [← UInt32.toNat_inj, UInt32.toNat_mod, Nat.dvd_iff_mod_eq_zero]
  rfl

theorem toNat_add_one {j : UInt32} (h : j.toNat < 2 ^ 32 - 1) : (j + 1).toNat = j.toNat + 1 := by
  rw [UInt32.toNat_add, show UInt32.toNat 1 = 1 from rfl, Nat.mod_eq_of_lt (by omega)]

/-- The loop goes on from divisor `j` to divisor `s` when no turn before `s` ends it. -/
theorem isPrime_skip {i s : UInt32} (d : ℕ) {j : UInt32} (fuel : ℕ) (hd : j.toNat + d = s.toNat)
    (hturn : ∀ k, j.toNat ≤ k → k < s.toNat → k * k % 2 ^ 32 ≤ i.toNat ∧ ¬k ∣ i.toNat) :
    isPrime i (fuel + d) j = isPrime i fuel s := by
  induction d generalizing j with
  | zero =>
    obtain rfl : j = s := UInt32.toNat_inj.mp hd
    rfl
  | succ d ih =>
    obtain ⟨hsquare, hdvd⟩ := hturn j.toNat le_rfl (by omega)
    have hs := s.toNat_lt
    have hnext : (j + 1).toNat = j.toNat + 1 := toNat_add_one (by omega)
    rw [← Nat.add_assoc, isPrime, if_pos (square_le_iff.mpr hsquare),
      if_neg (mt mod_eq_zero_iff.mp hdvd)]
    exact ih (by omega) fun k hk hks => hturn k (by omega) hks

/-- A divisor that does not end the loop is less than the candidate, so the next one is not 0. -/
theorem zero_notMem_divisors_from {i : UInt32} (fuel : ℕ) {j : UInt32} (hpos : 0 < j.toNat)
    (hle : j.toNat ≤ i.toNat) : 0 ∉ divisors i fuel j := by
  induction fuel generalizing j with
  | zero => exact List.not_mem_nil
  | succ fuel ih =>
    rw [divisors]
    split
    · rw [List.mem_cons, not_or]
      refine ⟨fun h0 => absurd hpos (h0 ▸ Nat.lt_irrefl 0), ?_⟩
      split
      · exact List.not_mem_nil
      · rename_i hmod
        have hne : j.toNat ≠ i.toNat := fun heq => hmod (mod_eq_zero_iff.mpr (heq ▸ dvd_rfl))
        have hi := i.toNat_lt
        have hnext : (j + 1).toNat = j.toNat + 1 := toNat_add_one (by omega)
        exact ih (by omega) (by omega)
    · exact List.not_mem_nil

/-- No candidate is ever divided by 0. -/
theorem zero_notMem_divisors (i : UInt32) (fuel : ℕ) : 0 ∉ divisors i fuel 2 := by
  rcases Nat.lt_or_ge i.toNat 2 with hlt | hge
  · cases fuel with
    | zero => exact List.not_mem_nil
    | succ fuel =>
      have hstop : ¬(2 : UInt32) * 2 ≤ i := by
        rw [square_le_iff]
        change ¬2 * 2 % 2 ^ 32 ≤ _
        omega
      rw [divisors, if_neg hstop]
      exact List.not_mem_nil
  · exact zero_notMem_divisors_from fuel (by decide) hge

/-! ## One candidate -/

/-- The loop that starts with divisor 2 and stops at divisor `s`. -/
theorem isPrime_stop {i s : UInt32} (hs : 2 ≤ s.toNat)
    (hturn : ∀ k, 2 ≤ k → k < s.toNat → k * k % 2 ^ 32 ≤ i.toNat ∧ ¬k ∣ i.toNat) :
    isPrime i UInt32.size 2 =
      if s * s ≤ i then if i % s = 0 then some false
        else isPrime i (UInt32.size - 1 - (s.toNat - 2)) (s + 1) else some true := by
  have hlt := s.toNat_lt
  have hsize : UInt32.size = UInt32.size - 1 - (s.toNat - 2) + 1 + (s.toNat - 2) := by
    have : UInt32.size = 2 ^ 32 := rfl
    omega
  conv_lhs => rw [hsize]
  rw [isPrime_skip (j := 2) (s := s) (s.toNat - 2) _ (by change 2 + _ = _; omega) hturn, isPrime]

/-- A composite candidate is divided by its least factor, whose square does not pass it. -/
theorem isPrime_composite {i : UInt32} (h2 : 2 ≤ i.toNat) (hcomp : ¬i.toNat.Prime) :
    isPrime i UInt32.size 2 = some false := by
  have hlt := i.toNat_lt
  have hsq : i.toNat.minFac * i.toNat.minFac ≤ i.toNat := by
    have := Nat.minFac_sq_le_self (by omega) hcomp
    rwa [sq] at this
  have hs : (UInt32.ofNat i.toNat.minFac).toNat = i.toNat.minFac :=
    UInt32.toNat_ofNat_of_lt' (lt_of_le_of_lt (Nat.minFac_le (by omega)) hlt)
  have hmin := (Nat.minFac_prime (show i.toNat ≠ 1 by omega)).two_le
  rw [isPrime_stop (s := UInt32.ofNat i.toNat.minFac) (by rw [hs]; exact hmin), if_pos,
    if_pos]
  · rw [mod_eq_zero_iff, hs]
    exact Nat.minFac_dvd _
  · rw [square_le_iff, hs]
    exact (Nat.mod_le _ _).trans hsq
  · intro k hk hks
    rw [hs] at hks
    exact ⟨(Nat.mod_le _ _).trans ((Nat.mul_le_mul hks.le hks.le).trans hsq),
      fun hdvd => absurd (Nat.minFac_le_of_dvd hk hdvd) (by omega)⟩

/-- A prime candidate counts when some divisor up to it has a wrapped square that passes it. -/
theorem isPrime_prime {i : UInt32} (hprime : i.toNat.Prime) {r : ℕ} (hr : 2 ≤ r)
    (hri : r ≤ i.toNat) (hpass : i.toNat < r * r % 2 ^ 32) :
    isPrime i UInt32.size 2 = some true := by
  have hex : ∃ k, 2 ≤ k ∧ i.toNat < k * k % 2 ^ 32 := ⟨r, hr, hpass⟩
  have hlt := i.toNat_lt
  have hfirst := Nat.find_le (n := r) (h := hex) ⟨hr, hpass⟩
  obtain ⟨hs2, hsq⟩ := Nat.find_spec hex
  have hs : (UInt32.ofNat (Nat.find hex)).toNat = Nat.find hex :=
    UInt32.toNat_ofNat_of_lt' (by change _ < 2 ^ 32; omega)
  rw [isPrime_stop (s := UInt32.ofNat (Nat.find hex)) (by rw [hs]; exact hs2), if_neg]
  · rw [square_le_iff, hs]
    omega
  · intro k hk hks
    rw [hs] at hks
    refine ⟨?_, fun hdvd => ?_⟩
    · by_contra hgt
      exact Nat.find_min hex hks ⟨hk, Nat.not_le.mp hgt⟩
    · rcases (Nat.dvd_prime hprime).mp hdvd with h1 | h1 <;> omega

/-! ## The last candidates -/

/-- The largest prime of 32 bits. -/
def lastPrime : ℕ := 4294967291

theorem lastPrime_prime : lastPrime.Prime := by
  apply lucas_primality _ (2 : ZMod 4294967291)
  · reduce_mod_char
  · intro q hq hdvd
    have hfactors : q ∣ 2 * 5 * 19 * 22605091 := hdvd
    rw [hq.dvd_mul, hq.dvd_mul, hq.dvd_mul, Nat.prime_dvd_prime_iff_eq hq Nat.prime_two,
      Nat.prime_dvd_prime_iff_eq hq Nat.prime_five,
      Nat.prime_dvd_prime_iff_eq hq (by norm_num : Nat.Prime 19),
      Nat.prime_dvd_prime_iff_eq hq (by norm_num : Nat.Prime 22605091)] at hfactors
    change (2 : ZMod 4294967291) ^ ((4294967291 - 1) / q) ≠ 1
    rcases hfactors with ((rfl | rfl) | rfl) | rfl <;> reduce_mod_char <;> decide

/-- A square leaves 0, 1, 4 or 9 when divided by 16, so no wrapped square passes `lastPrime`. -/
theorem square_le_lastPrime (k : ℕ) : k * k % 2 ^ 32 ≤ lastPrime := by
  have h16 : k * k % 16 = (k % 16) * (k % 16) % 16 := Nat.mul_mod k k 16
  have hr : k % 16 < 16 := Nat.mod_lt _ (by decide)
  have hres : k * k % 16 < 10 := by
    rw [h16]
    generalize k % 16 = r at hr
    decide +revert
  unfold lastPrime
  omega

/-- The divisor reaches `lastPrime` itself, which is then taken for composite. -/
theorem isPrime_lastPrime {i : UInt32} (hi : i.toNat = lastPrime) :
    isPrime i UInt32.size 2 = some false := by
  rw [isPrime_stop (s := i) (by rw [hi]; decide), if_pos, if_pos]
  · exact mod_eq_zero_iff.mpr dvd_rfl
  · rw [square_le_iff, hi]
    exact square_le_lastPrime _
  · intro k hk hki
    rw [hi] at hki ⊢
    refine ⟨square_le_lastPrime k, fun hdvd => ?_⟩
    rcases (Nat.dvd_prime lastPrime_prime).mp hdvd with h1 | h1 <;> omega

theorem not_prime_of_gt {i : ℕ} (hlo : 2 ^ 32 - 8 < i) (hhi : i < 2 ^ 32) (hne : i ≠ lastPrime) :
    ¬i.Prime := by
  have hcases : i % 2 = 0 ∨ i = 4294967289 ∨ i = 4294967293 ∨ i = 4294967295 := by
    unfold lastPrime at hne
    omega
  have hdvd : 2 ∣ i ∨ 3 ∣ i ∨ 9241 ∣ i := by
    rcases hcases with h | rfl | rfl | rfl
    · exact .inl (Nat.dvd_of_mod_eq_zero h)
    all_goals decide
  intro hprime
  rcases hdvd with h | h | h <;>
    · rcases (Nat.dvd_prime hprime).mp h with h1 | h1 <;> omega

/-- Every other prime is passed by the wrapped square of a smaller number: at first by the one
after its square root, later by a root of `2 ^ 32 - 7`. -/
theorem exists_pass {i : ℕ} (hprime : i.Prime) (hlt : i < 2 ^ 32) (hne : i ≠ lastPrime) :
    ∃ r, 2 ≤ r ∧ r ≤ i ∧ i < r * r % 2 ^ 32 := by
  have h2 := hprime.two_le
  rcases Nat.lt_or_ge i (65535 * 65535) with hsmall | hlarge
  · have hroot : i.sqrt < 65535 := Nat.sqrt_lt.mpr hsmall
    have hpos : 0 < i.sqrt := Nat.sqrt_pos.mpr (by omega)
    have hself : i.sqrt < i := Nat.sqrt_lt_self (by omega)
    have hpass : i < (i.sqrt + 1) * (i.sqrt + 1) := Nat.lt_succ_sqrt i
    have hwrap : (i.sqrt + 1) * (i.sqrt + 1) ≤ 65535 * 65535 := Nat.mul_le_mul hroot hroot
    exact ⟨i.sqrt + 1, by omega, hself, by rwa [Nat.mod_eq_of_lt (by omega)]⟩
  · rcases Nat.lt_or_ge (2 ^ 32 - 8) i with hlast | hroot
    · exact absurd hprime (not_prime_of_gt hlast hlt hne)
    · refine ⟨479772853, by decide, by omega, ?_⟩
      rw [show 479772853 * 479772853 % 2 ^ 32 = 2 ^ 32 - 7 by decide]
      omega

/-- Trial division on words counts every prime but the last. -/
theorem isPrime_eq {i : UInt32} (h2 : 2 ≤ i.toNat) :
    isPrime i UInt32.size 2 = some (decide (i.toNat.Prime ∧ i.toNat ≠ lastPrime)) := by
  by_cases hprime : i.toNat.Prime
  · by_cases hlast : i.toNat = lastPrime
    · rw [isPrime_lastPrime hlast]
      simp [hlast]
    · obtain ⟨r, hr, hri, hpass⟩ := exists_pass hprime i.toNat_lt hlast
      rw [isPrime_prime hprime hr hri hpass]
      simp [hprime, hlast]
  · rw [isPrime_composite h2 hprime]
    simp [hprime]

/-! ## The count -/

/-- What the outer loop counts. -/
abbrev Counted (i : ℕ) : Prop := i.Prime ∧ i ≠ lastPrime

theorem countPrimes_eq {n : UInt32} (hn : n.toNat < 2 ^ 32 - 1) (fuel : ℕ) {i primes : UInt32}
    (h2 : 2 ≤ i.toNat) (hi : i.toNat ≤ n.toNat + 1) (hfuel : n.toNat + 1 < i.toNat + fuel)
    (hprimes : primes.toNat = Nat.count Counted i.toNat) :
    ∃ r, countPrimes n fuel i primes = some r ∧ r.toNat = Nat.count Counted (n.toNat + 1) := by
  induction fuel generalizing i primes with
  | zero => omega
  | succ fuel ih =>
    rw [countPrimes]
    split
    · rename_i hle
      rw [UInt32.le_iff_toNat_le] at hle
      have hnext : (i + 1).toNat = i.toNat + 1 := toNat_add_one (by omega)
      have hcount : Nat.count Counted i.toNat ≤ i.toNat := Nat.count_le _
      have hadd : (primes + 1).toNat = primes.toNat + 1 := toNat_add_one (by omega)
      rw [isPrime_eq h2]
      refine ih (by omega) (by omega) (by omega) ?_
      rw [hnext, Nat.count_succ]
      by_cases hc : Counted i.toNat
      · rw [if_pos hc, if_pos (decide_eq_true hc), hadd, hprimes]
      · rw [if_neg hc, if_neg (by simpa using hc), hprimes, Nat.add_zero]
    · rename_i hgt
      rw [UInt32.le_iff_toNat_le] at hgt
      exact ⟨primes, rfl, by rw [hprimes, show i.toNat = n.toNat + 1 by omega]⟩

/-- With the largest word the loop condition always holds. -/
theorem countPrimes_max (fuel : ℕ) (i primes : UInt32) :
    countPrimes (UInt32.ofNat (2 ^ 32 - 1)) fuel i primes = none := by
  induction fuel generalizing i primes with
  | zero => rfl
  | succ fuel ih =>
    have hle : i ≤ UInt32.ofNat (2 ^ 32 - 1) := by
      have := i.toNat_lt
      rw [UInt32.le_iff_toNat_le]
      change _ ≤ 2 ^ 32 - 1
      omega
    rw [countPrimes, if_pos hle]
    cases isPrime i UInt32.size 2 with
    | none => rfl
    | some prime => exact ih _ _

/-- The count misses one prime, from `lastPrime` on. -/
theorem count_counted (m : ℕ) :
    Nat.count Counted m + (if lastPrime < m then 1 else 0) = Nat.count Nat.Prime m := by
  induction m with
  | zero => rfl
  | succ m ih =>
    rw [Nat.count_succ, Nat.count_succ, ← ih]
    rcases Nat.lt_trichotomy m lastPrime with hlt | rfl | hgt
    · have hm : Counted m ↔ m.Prime := and_iff_left hlt.ne
      simp only [hm, if_neg (show ¬lastPrime < m by omega),
        if_neg (show ¬lastPrime < m + 1 by omega)]
      omega
    · rw [if_neg (fun hc : Counted lastPrime => hc.2 rfl), if_neg (Nat.lt_irrefl _),
        if_pos (Nat.lt_succ_self _), if_pos lastPrime_prime]
    · have hm : Counted m ↔ m.Prime := and_iff_left hgt.ne'
      simp only [hm, if_pos hgt, if_pos (show lastPrime < m + 1 by omega)]
      omega

/-! ## The job -/

/-- The job ends with the number of primes up to the first word of the payload, and never divides
by zero. -/
def PrimeJobRight (data : Bytes) : Prop :=
  (∃ r, execute jobPrime data data.length = some r ∧
    r.toNat = Nat.primeCounting (wordAt data 0).toNat) ∧
    ∀ i fuel, 0 ∉ divisors i fuel 2

theorem execute_prime {data : Bytes} (hlen : 4 ≤ data.length) :
    execute jobPrime data data.length =
      if wordAt data 0 < 2 then some 0 else countPrimes (wordAt data 0) UInt32.size 2 0 := by
  unfold execute
  rw [if_neg (by decide), if_neg (by decide), if_neg (by decide), if_pos rfl, if_neg (by omega)]

/-- For every payload but those with the largest word, the job ends. -/
theorem execute_prime_ends {data : Bytes} (hlen : 4 ≤ data.length)
    (hn : (wordAt data 0).toNat < 2 ^ 32 - 1) :
    ∃ r, execute jobPrime data data.length = some r ∧
      r.toNat = Nat.count Counted ((wordAt data 0).toNat + 1) := by
  rw [execute_prime hlen]
  split
  · rename_i hlt
    have hlt : (wordAt data 0).toNat < 2 := UInt32.lt_iff_toNat_lt.mp hlt
    refine ⟨0, rfl, Eq.symm ((Nat.count_iff_forall_not).mpr fun m hm hc => ?_)⟩
    have := hc.1.two_le
    omega
  · rename_i hge
    have hge : 2 ≤ (wordAt data 0).toNat := by
      by_contra hlt
      exact hge (UInt32.lt_iff_toNat_lt.mpr (Nat.not_le.mp hlt))
    refine countPrimes_eq hn UInt32.size le_rfl (by change 2 ≤ _; omega) ?_ ?_
    · change _ < 2 + 2 ^ 32
      omega
    · exact Eq.symm ((Nat.count_iff_forall_not).mpr fun m hm hc => absurd hc.1.two_le
        (Nat.not_le.mpr hm))

/-- The prime job is right exactly up to the number before the last prime of 32 bits. -/
theorem prime_job_right_iff (data : Bytes) (hlen : 4 ≤ data.length) :
    PrimeJobRight data ↔ (wordAt data 0).toNat < lastPrime := by
  have hword := (wordAt data 0).toNat_lt
  constructor
  · rintro ⟨⟨r, hr, hcount⟩, -⟩
    by_contra hge
    rcases Nat.lt_or_ge (wordAt data 0).toNat (2 ^ 32 - 1) with hn | hmax
    · obtain ⟨r', hr', hcount'⟩ := execute_prime_ends hlen hn
      obtain rfl : r = r' := Option.some.inj (hr.symm.trans hr')
      have hmiss := count_counted ((wordAt data 0).toNat + 1)
      rw [if_pos (by omega)] at hmiss
      rw [hcount'] at hcount
      unfold Nat.primeCounting Nat.primeCounting' at hcount
      omega
    · have hn : wordAt data 0 = UInt32.ofNat (2 ^ 32 - 1) := by
        apply UInt32.toNat_inj.mp
        change _ = 2 ^ 32 - 1
        omega
      rw [execute_prime hlen, hn, if_neg (by decide), countPrimes_max] at hr
      cases hr
  · intro hlt
    refine ⟨?_, zero_notMem_divisors⟩
    obtain ⟨r, hr, hcount⟩ := execute_prime_ends hlen (hlt.trans (by decide))
    refine ⟨r, hr, hcount.trans ?_⟩
    have hall := count_counted ((wordAt data 0).toNat + 1)
    rw [if_neg (by omega), Nat.add_zero] at hall
    exact hall

theorem prime_job_right_iff_ten : PrimeJobRight [10, 0, 0, 0] ↔ 10 < lastPrime :=
  prime_job_right_iff [10, 0, 0, 0] (by decide)

/-- With the largest word the job never ends. -/
theorem prime_job_never_ends :
    execute jobPrime [255, 255, 255, 255] 4 = none ∧ ¬PrimeJobRight [255, 255, 255, 255] := by
  have hnone : execute jobPrime [255, 255, 255, 255] 4 = none := by
    change execute jobPrime [255, 255, 255, 255] ([255, 255, 255, 255] : Bytes).length = none
    rw [execute_prime (by decide), if_neg (by decide)]
    exact countPrimes_max UInt32.size 2 0
  refine ⟨hnone, fun ⟨⟨r, hr, _⟩, _⟩ => ?_⟩
  rw [show ([255, 255, 255, 255] : Bytes).length = 4 from rfl, hnone] at hr
  cases hr

end QuillOS.Cluster
