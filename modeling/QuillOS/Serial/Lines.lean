import QuillOS.Lib.Run
import QuillOS.Filesystem.Path

/-!
# Lines from the serial port

`read_available` and `read_line` of `serial.cpp` over a receiver with a buffer of 16 characters. A
character may arrive and time may pass before every test of the line status. However this goes,
every read comes to its end, and the characters received come out of the reads once and in order.
-/

namespace QuillOS.Serial

open Lib
open Filesystem (Str)

/-- What happens outside: the characters that arrive, and the ticks, at each test of the status. -/
structure Line where
  arrivals : ℕ → Str
  ticks : ℕ → ℕ

/-- The receiver; `received` is the list of the characters it took, which no code reads. -/
structure Port where
  tests : ℕ
  fifo : Str
  received : Str

def fifoSize : ℕ := 16

/-- The port before anything arrives. -/
def Port.idle : Port := ⟨0, [], []⟩

/-- Characters arrive as far as there is room for them, and one test is made. -/
def Port.test (line : Line) (p : Port) : Port :=
  let taken := (line.arrivals p.tests).take (fifoSize - p.fifo.length)
  { tests := p.tests + 1, fifo := p.fifo ++ taken, received := p.received ++ taken }

/-- The loop of `read_available`, with `out` in the buffer; `none` is more than `fuel` turns. -/
def readAvailable (line : Line) (bufSize : UInt32) : ℕ → Str → Port → Option (Str × Port)
  | 0, _, _ => none
  | fuel + 1, out, p =>
    if out.length < (bufSize - 1).toNat then
      match (p.test line).fifo with
      | [] => some (out, p.test line)
      | c :: rest => readAvailable line bufSize fuel (out ++ [c]) { p.test line with fifo := rest }
    else some (out, p)

/-- The loop of `read_line`. -/
def readLine (line : Line) (bufSize timeout : UInt32) (start : ℕ) :
    ℕ → Str → Port → Option (Str × Port)
  | 0, _, _ => none
  | fuel + 1, out, p =>
    if out.length < (bufSize - 1).toNat then
      match (p.test line).fifo with
      | c :: rest =>
        if c = 10 ∨ c = 13 then some (out, { p.test line with fifo := rest })
        else readLine line bufSize timeout start fuel (out ++ [c]) { p.test line with fifo := rest }
      | [] =>
        if line.ticks p.tests - start > timeout.toNat then some (out, p.test line)
        else readLine line bufSize timeout start fuel out (p.test line)
    else some (out, p)

inductive Call
  | available (bufSize : UInt32)
  | line (bufSize timeout : UInt32)

def Call.bufSize : Call → UInt32
  | available n | line n _ => n

def call (line : Line) (fuel : ℕ) (p : Port) : Call → Option (Str × Port)
  | .available bufSize => readAvailable line bufSize fuel [] p
  | .line bufSize timeout => readLine line bufSize timeout (line.ticks p.tests) fuel [] p

/-- A call comes to its end and returns `out`. -/
def Returns (line : Line) (p : Port) (r : Call × Str) (q : Port) : Prop :=
  ∃ fuel, call line fuel p r.1 = some (r.2, q)

/-! ## One read -/

/-- What a read takes off the receiver: what it returns, and for a line perhaps its end. -/
structure Takes (p q : Port) (out term : Str) : Prop where
  tests : p.tests ≤ q.tests
  received : ∃ more, q.received = p.received ++ more ∧ p.fifo ++ more = out ++ term ++ q.fifo

/-- The most characters a call returns. -/
def Call.room (c : Call) : ℕ := (c.bufSize - 1).toNat

/-- How a call that began with `start` ticks ends: with its buffer full, with nothing left to read
and, for a line, with the time over, or with the end of the line. -/
def Call.Ends (line : Line) (start : ℕ) (q : Port) : Call → Str → Str → Prop
  | available n, out, term => term = [] ∧ (out.length = (n - 1).toNat ∨ q.fifo = [])
  | .line n timeout, out, term => (∀ c ∈ out, c ≠ 10 ∧ c ≠ 13) ∧
      (term = [10] ∨ term = [13] ∨ term = [] ∧ (out.length = (n - 1).toNat ∨
        q.fifo = [] ∧ timeout.toNat < line.ticks (q.tests - 1) - start))

variable {line : Line} {bufSize timeout : UInt32} {start fuel : ℕ} {p q : Port} {out out' : Str}

theorem Takes.refl (p : Port) : Takes p p [] [] := ⟨le_rfl, [], by simp, by simp⟩

/-- Nothing is taken by a test. -/
theorem takes_test (line : Line) (p : Port) : Takes p (p.test line) [] [] :=
  ⟨Nat.le_succ _, _, rfl, rfl⟩

/-- A test and the character it finds. -/
theorem takes_char {c : UInt8} {rest : Str} (h : (p.test line).fifo = c :: rest) :
    Takes p { p.test line with fifo := rest } [c] [] := by
  obtain ⟨htests, more, hreceived, hfifo⟩ := takes_test line p
  exact ⟨htests, more, hreceived, by simpa [h] using hfifo⟩

theorem Takes.trans {r : Port} {term : Str} (h : Takes p q out []) (h' : Takes q r out' term) :
    Takes p r (out ++ out') term := by
  obtain ⟨htests, more, hreceived, hfifo⟩ := h
  obtain ⟨htests', more', hreceived', hfifo'⟩ := h'
  refine ⟨htests.trans htests', more ++ more', ?_, ?_⟩
  · rw [hreceived', hreceived, List.append_assoc]
  · rw [List.append_nil] at hfifo
    rw [← List.append_assoc, hfifo, List.append_assoc, hfifo', List.append_assoc, List.append_assoc,
      List.append_assoc]

theorem readAvailable_takes (hout : out.length ≤ (bufSize - 1).toNat)
    (h : readAvailable line bufSize fuel out p = some (out', q)) :
    ∃ new, out' = out ++ new ∧ Takes p q new [] ∧ out'.length ≤ (bufSize - 1).toNat ∧
      (out'.length = (bufSize - 1).toNat ∨ q.fifo = []) := by
  induction fuel generalizing out p with
  | zero => cases h
  | succ fuel ih =>
    unfold readAvailable at h
    split at h
    · next hroom =>
      split at h
      · next hfifo =>
        obtain ⟨rfl, rfl⟩ := Prod.mk.inj (Option.some.inj h)
        exact ⟨[], (List.append_nil _).symm, takes_test line p, hout, .inr hfifo⟩
      · next c rest hfifo =>
        rw [← Nat.succ_le_iff] at hroom
        obtain ⟨new, rfl, htakes, hend⟩ := ih (by simpa using hroom) h
        exact ⟨c :: new, by simp, (takes_char hfifo).trans htakes, hend⟩
    · next hfull =>
      obtain ⟨rfl, rfl⟩ := Prod.mk.inj (Option.some.inj h)
      exact ⟨[], (List.append_nil _).symm, Takes.refl p, hout,
        .inl (le_antisymm hout (not_lt.mp hfull))⟩

theorem readLine_takes (hout : out.length ≤ (bufSize - 1).toNat)
    (h : readLine line bufSize timeout start fuel out p = some (out', q)) :
    ∃ new term, out' = out ++ new ∧ Takes p q new term ∧ out'.length ≤ (bufSize - 1).toNat ∧
      (∀ c ∈ new, c ≠ 10 ∧ c ≠ 13) ∧
      (term = [10] ∨ term = [13] ∨ term = [] ∧ (out'.length = (bufSize - 1).toNat ∨
        q.fifo = [] ∧ timeout.toNat < line.ticks (q.tests - 1) - start)) := by
  induction fuel generalizing out p with
  | zero => cases h
  | succ fuel ih =>
    unfold readLine at h
    split at h
    · next hroom =>
      split at h
      · next c rest hfifo =>
        split at h
        · next hend =>
          obtain ⟨rfl, rfl⟩ := Prod.mk.inj (Option.some.inj h)
          obtain ⟨htests, htaken⟩ := takes_char hfifo
          refine ⟨[], [c], (List.append_nil _).symm, ⟨htests, htaken⟩, hout, nofun, ?_⟩
          rcases hend with rfl | rfl
          · exact .inl rfl
          · exact .inr (.inl rfl)
        · next hend =>
          rw [← Nat.succ_le_iff] at hroom
          obtain ⟨new, term, rfl, htakes, hlen, hnew, hterm⟩ := ih (by simpa using hroom) h
          exact ⟨c :: new, term, by simp, (takes_char hfifo).trans htakes, hlen,
            List.forall_mem_cons.mpr ⟨not_or.mp hend, hnew⟩, hterm⟩
      · next hfifo =>
        split at h
        · next hlate =>
          obtain ⟨rfl, rfl⟩ := Prod.mk.inj (Option.some.inj h)
          exact ⟨[], [], (List.append_nil _).symm, takes_test line p, hout, nofun,
            .inr (.inr ⟨rfl, .inr ⟨hfifo, hlate⟩⟩)⟩
        · obtain ⟨new, term, rfl, htakes, hrest⟩ := ih hout h
          exact ⟨new, term, rfl, (takes_test line p).trans htakes, hrest⟩
    · next hfull =>
      obtain ⟨rfl, rfl⟩ := Prod.mk.inj (Option.some.inj h)
      exact ⟨[], [], (List.append_nil _).symm, Takes.refl p, hout, nofun,
        .inr (.inr ⟨rfl, .inl (le_antisymm hout (not_lt.mp hfull))⟩)⟩

/-- What a call returns is what it takes, up to the end of a line. -/
theorem returns_takes {c : Call} (h : Returns line p (c, out) q) :
    ∃ term, Takes p q out term ∧ out.length ≤ c.room ∧
      c.Ends line (line.ticks p.tests) q out term := by
  obtain ⟨fuel, h⟩ := h
  cases c with
  | available bufSize =>
    obtain ⟨new, rfl, htakes, hlen, hend⟩ := readAvailable_takes (Nat.zero_le _) h
    exact ⟨[], htakes, hlen, rfl, hend⟩
  | line bufSize timeout =>
    obtain ⟨new, term, rfl, htakes, hlen, hnew, hend⟩ := readLine_takes (Nat.zero_le _) h
    exact ⟨term, htakes, hlen, hnew, hend⟩

theorem Call.Ends.term {c : Call} {term : Str} (h : c.Ends line start q out term) :
    term ∈ [[], [10], [13]] := by
  cases c with
  | available bufSize =>
    rw [h.1]
    decide
  | line bufSize timeout =>
    rcases h.2 with rfl | rfl | ⟨rfl, -⟩
    · decide
    · decide
    · decide

/-! ## Reads come to their end -/

theorem readAvailable_isSome (hfuel : (bufSize - 1).toNat - out.length < fuel) :
    (readAvailable line bufSize fuel out p).isSome := by
  induction fuel generalizing out p with
  | zero => exact absurd hfuel (Nat.not_lt_zero _)
  | succ fuel ih =>
    unfold readAvailable
    split
    · split
      · rfl
      · apply ih
        rw [List.length_append, List.length_singleton]
        omega
    · rfl

/-- Each turn takes a character or is one of the tests before the time is over. -/
theorem readLine_isSome (hmono : Monotone line.ticks) {late : ℕ}
    (hlate : timeout.toNat < line.ticks late - start)
    (hfuel : (bufSize - 1).toNat - out.length + (late - p.tests) < fuel) :
    (readLine line bufSize timeout start fuel out p).isSome := by
  induction fuel generalizing out p with
  | zero => exact absurd hfuel (Nat.not_lt_zero _)
  | succ fuel ih =>
    have htests : (p.test line).tests = p.tests + 1 := rfl
    unfold readLine
    split
    · split
      · split
        · rfl
        · apply ih
          rw [List.length_append, List.length_singleton]
          dsimp only
          omega
      · split
        · rfl
        · next hsoon =>
          have hbefore : p.tests < late := by
            by_contra hafter
            have hticks := hmono (not_lt.mp hafter)
            omega
          apply ih
          omega
    · rfl

theorem exists_returns (hmono : Monotone line.ticks) (hgoes : ∀ n, ∃ i, n < line.ticks i)
    (p : Port) (c : Call) : ∃ out q, Returns line p (c, out) q := by
  have hsome : ∃ fuel, (call line fuel p c).isSome := by
    cases c with
    | available bufSize => exact ⟨_, readAvailable_isSome (Nat.lt_succ_self _)⟩
    | line bufSize timeout =>
      obtain ⟨late, hlate⟩ := hgoes (timeout.toNat + line.ticks p.tests)
      have hwait : timeout.toNat < line.ticks late - line.ticks p.tests := by omega
      exact ⟨_, readLine_isSome hmono hwait (Nat.lt_succ_self _)⟩
  obtain ⟨fuel, hfuel⟩ := hsome
  obtain ⟨⟨out, q⟩, heq⟩ := Option.isSome_iff_exists.mp hfuel
  exact ⟨out, q, fuel, heq⟩

/-! ## Any number of reads -/

/-- The texts of the calls and the ends of the lines, with what is still in the receiver, are what
was received. -/
def Accounts (rs : List (Call × Str)) (q : Port) : Prop :=
  ∃ terms : List Str, terms.length = rs.length ∧ (∀ term ∈ terms, term ∈ [[], [10], [13]]) ∧
    q.received = (List.zipWith (fun r term => r.2 ++ term) rs terms).flatten ++ q.fifo

theorem accounts_of_run {rs : List (Call × Str)} (hrun : Run (Returns line) Port.idle rs q) :
    Accounts rs q := by
  induction hrun with
  | nil => exact ⟨[], rfl, nofun, rfl⟩
  | @snoc p q rs r _ hreturns ih =>
    obtain ⟨terms, hlen, hall, hreceived⟩ := ih
    obtain ⟨term, htakes, -, hends⟩ := returns_takes hreturns
    obtain ⟨more, hmore, hfifo⟩ := htakes.received
    refine ⟨terms ++ [term], by simp [hlen], ?_, ?_⟩
    · exact List.forall_mem_append.mpr ⟨hall, List.forall_mem_singleton.mpr hends.term⟩
    · rw [List.zipWith_append hlen.symm, List.flatten_append, hmore, hreceived, List.append_assoc,
        hfifo]
      simp

/-- With a clock that goes on, every read comes to its end, and returns no more than has room, up to
the end of a line. However the characters come in, those received are the texts of the reads, with
the ends of the lines, and what is still in the receiver. -/
theorem reads_deliver (line : Line) (hmono : Monotone line.ticks)
    (hgoes : ∀ n, ∃ i, n < line.ticks i) :
    (∀ p c, ∃ out q, Returns line p (c, out) q) ∧
      (∀ p c out q, Returns line p (c, out) q → ∃ term, Takes p q out term ∧
        out.length ≤ c.room ∧ c.Ends line (line.ticks p.tests) q out term) ∧
      ∀ rs q, Run (Returns line) Port.idle rs q → Accounts rs q :=
  ⟨exists_returns hmono hgoes, fun _ _ _ _ => returns_takes, fun _ _ => accounts_of_run⟩

/-- Two lines, of which the second is not ended. -/
def twoLines : Line where
  arrivals n := if n = 3 then [104, 105, 10, 97] else []
  ticks n := n

theorem reads_deliver_twoLines :
    (∀ p c, ∃ out q, Returns twoLines p (c, out) q) ∧
      (∀ p c out q, Returns twoLines p (c, out) q → ∃ term, Takes p q out term ∧
        out.length ≤ c.room ∧ c.Ends twoLines (twoLines.ticks p.tests) q out term) ∧
      ∀ rs q, Run (Returns twoLines) Port.idle rs q → Accounts rs q :=
  reads_deliver twoLines monotone_id fun n => ⟨n + 1, Nat.lt_succ_self n⟩

/-- The end of the line is not part of it, and the rest stays in the receiver. -/
example : (call twoLines 8 Port.idle (.line 512 10000)).map (fun r => (r.1, r.2.fifo)) =
    some ([104, 105], [97]) := by
  decide +kernel

end QuillOS.Serial
