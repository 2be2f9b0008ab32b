import QuillOS.E1000.Model

/-!
# The receive ring

The tail register trails the driver's index by one slot, so that the card stops one slot before
the driver and head and tail are equal only when no slot is free. The frames accepted are those
returned followed by the ones lying in the ring, and the done bits of a lap tell the two apart.
-/

namespace QuillOS.E1000

open Lib

@[simp] theorem arrived_append (l l' : List RxEvent) : arrived (l ++ l') = arrived l ++ arrived l' :=
  List.filterMap_append

@[simp] theorem received_append (l l' : List RxEvent) :
    received (l ++ l') = received l ++ received l' :=
  List.filterMap_append

theorem dd_or_one (x : UInt8) : dd (x ||| 1) = true := by
  have hbit : (x ||| 1) &&& 1 = 1 := by
    apply UInt8.toBitVec_inj.mp
    ext i hi
    simp only [UInt8.toBitVec_and, UInt8.toBitVec_or, BitVec.getElem_and, BitVec.getElem_or]
    cases (UInt8.toBitVec 1)[i] <;> simp
  simp [dd, hbit]

/-- The frame a descriptor stands for. -/
def Rx.frameAt (s : Rx) (i : ℕ) : Frame :=
  (List.range (s.ring i).length.toNat).map (s.buf (s.ring i).addr)

@[simp] theorem length_frameAt (s : Rx) (i : ℕ) :
    (s.frameAt i).length = (s.ring i).length.toNat := by
  simp [Rx.frameAt]

/-- What the call under way has found in its slot. -/
def Polled (s : Rx) (r a : ℕ) : PollPc → Prop
  | .test => True
  | .getLength => r < a
  | .copy pktLen out => r < a ∧ pktLen = (s.ring s.rxCur).length.toNat ∧ out.length ≤ pktLen ∧
      out = (s.frameAt s.rxCur).take out.length
  | .setStatus out => r < a ∧ out = s.frameAt s.rxCur
  | .setTail out => r < a ∧ out = s.frameAt s.rxCur ∧ dd (s.ring s.rxCur).status = false

/-- The done bit of the current slot has been cleared, and the tail not yet moved. -/
def Rx.atTail (s : Rx) : Prop := ∃ out, s.call = some (.setTail out)

/-- `poll_receive` says that nothing is there only when all that has arrived was returned. -/
def MissedWhenEmpty (log : List RxEvent) : Prop :=
  Throughout (fun before e => e = .missed → arrived before = received before) log

/-- `r` frames are returned and `a` accepted; the registers stand for these counters, and the done
bits of the lap from `r` on mark the frames in between. -/
structure RxInv (s : Rx) (r a : ℕ) : Prop where
  ready : s.ready = true
  le : r ≤ a
  lt : a < r + numRx
  rdh : s.rdh = a % numRx
  rdt : s.rdt = (r + (numRx - 1)) % numRx
  cur : s.rxCur = r % numRx
  addr : ∀ i, (s.ring i).addr = i
  length : ∀ i, (s.ring i).length.toNat ≤ bufSize
  log : arrived s.log = received s.log ++ Ring.entries numRx s.frameAt r a
  done : ∀ k, r ≤ k → k < r + numRx → (k = r → ¬ s.atTail) →
    dd (s.ring (k % numRx)).status = decide (k < a)
  polled : ∀ pc, s.call = some pc → Polled s r a pc
  missed : MissedWhenEmpty s.log

/-- The frames returned are the first of the frames accepted. -/
theorem RxInv.in_order {s : Rx} {r a : ℕ} (inv : RxInv s r a) : received s.log <+: arrived s.log := by
  rw [inv.log]
  exact List.prefix_append _ _

theorem rxInit_inv (pages : ℕ → ℕ → UInt8) : RxInv (rxInit pages) 0 0 where
  ready := rfl
  le := le_rfl
  lt := by decide
  rdh := rfl
  rdt := rfl
  cur := rfl
  addr _ := rfl
  length i := by simp [rxInit]
  log := by simp [rxInit, arrived, received]
  done k _ _ _ := by simp [rxInit, dd]
  polled pc hc := by simp [rxInit] at hc
  missed := throughout_nil _

/-! ## The driver -/

/-- Moving on within a call without a store: the invariant asks for what the next access needs. -/
theorem RxInv.advance {s : Rx} {r a : ℕ} (inv : RxInv s r a) (pc : PollPc)
    (hcall : ¬ s.atTail) (hpc : ∀ out, pc ≠ .setTail out) (hpolled : Polled s r a pc) :
    RxInv { s with call := some pc } r a :=
  { inv with
    done k hlo hhi _ := inv.done k hlo hhi fun _ => hcall
    polled pc' hpc' := by
      obtain rfl : pc = pc' := by simpa using hpc'
      cases pc with
      | setTail out => exact absurd rfl (hpc out)
      | test => trivial
      | getLength => exact hpolled
      | copy => exact hpolled
      | setStatus => exact hpolled }

theorem RxInv.test {s : Rx} {r a : ℕ} (inv : RxInv s r a) (hcall : s.call = some .test) :
    RxInv (pollStep s .test) r a := by
  have htail : ¬ s.atTail := by
    rintro ⟨out, hout⟩
    simp [hcall] at hout
  have hdd : dd (s.ring s.rxCur).status = decide (r < a) := by
    rw [inv.cur]
    exact inv.done r le_rfl (by simp [numRx]) fun _ => htail
  simp only [pollStep]
  rw [hdd]
  split_ifs with hlt
  · exact inv.advance .getLength htail (by simp) (by simpa [Polled] using hlt)
  · obtain rfl : r = a := le_antisymm inv.le (by simpa using hlt)
    refine ⟨inv.ready, inv.le, inv.lt, inv.rdh, inv.rdt, inv.cur, inv.addr, inv.length, ?_, ?_, ?_, ?_⟩
    · change arrived (s.log ++ [.missed]) =
        received (s.log ++ [.missed]) ++ Ring.entries numRx s.frameAt r r
      rw [arrived_append, received_append, inv.log]
      simp [arrived, received]
    · intro k hlo hhi _
      exact inv.done k hlo hhi fun _ => htail
    · intro pc hpc
      simp [Rx.finish] at hpc
    · apply inv.missed.snoc
      intro _
      simpa using inv.log

theorem RxInv.copy {s : Rx} {r a pktLen : ℕ} {out : Frame} (inv : RxInv s r a)
    (hcall : s.call = some (.copy pktLen out)) : RxInv (pollStep s (.copy pktLen out)) r a := by
  have htail : ¬ s.atTail := by
    rintro ⟨out', hout⟩
    simp [hcall] at hout
  obtain ⟨hlt, hpkt, hle, hout⟩ := inv.polled _ hcall
  have hlen : (s.frameAt s.rxCur).length = pktLen := by rw [length_frameAt, hpkt]
  simp only [pollStep]
  split_ifs with hmore
  · apply inv.advance _ htail (by simp)
    refine ⟨hlt, hpkt, by simpa [Nat.succ_le_iff] using hmore, ?_⟩
    have hnext : out.length < (s.frameAt s.rxCur).length := by omega
    rw [List.length_append, List.length_singleton, List.take_succ_eq_append_getElem hnext, ← hout]
    simp [Rx.frameAt, inv.addr]
  · apply inv.advance _ htail (by simp)
    refine ⟨hlt, ?_⟩
    rw [hout, List.take_of_length_le (by omega)]

theorem RxInv.setStatus {s : Rx} {r a : ℕ} {out : Frame} (inv : RxInv s r a)
    (hcall : s.call = some (.setStatus out)) : RxInv (pollStep s (.setStatus out)) r a := by
  have htail : ¬ s.atTail := by
    rintro ⟨out', hout⟩
    simp [hcall] at hout
  obtain ⟨hlt, hout⟩ := inv.polled _ hcall
  have hframe : (pollStep s (.setStatus out)).frameAt = s.frameAt := by
    funext i
    by_cases hi : i = s.rxCur <;> simp [Rx.frameAt, pollStep, Rx.setDesc, hi]
  have hring : ∀ i, ((pollStep s (.setStatus out)).ring i).addr = (s.ring i).addr ∧
      ((pollStep s (.setStatus out)).ring i).length = (s.ring i).length := by
    intro i
    by_cases hi : i = s.rxCur <;> simp [pollStep, Rx.setDesc, hi]
  refine ⟨inv.ready, inv.le, inv.lt, inv.rdh, inv.rdt, inv.cur, fun i => ?_, fun i => ?_, ?_, ?_, ?_,
    inv.missed⟩
  · rw [(hring i).1, inv.addr]
  · rw [(hring i).2]
    exact inv.length i
  · rw [hframe]
    exact inv.log
  · intro k hlo hhi hk
    -- the cleared slot is the one the condition leaves out
    have hkr : k ≠ r := fun h => hk h ⟨out, rfl⟩
    have hne : k % numRx ≠ s.rxCur := by
      rw [inv.cur]
      intro heq
      exact hkr (Ring.slot_inj hlo hhi le_rfl (by simp [numRx]) heq)
    have := inv.done k hlo hhi fun _ => htail
    simpa [pollStep, Rx.setDesc, hne] using this
  · intro pc hpc
    obtain rfl : PollPc.setTail out = pc := by simpa [pollStep] using hpc
    refine ⟨hlt, ?_, by simp [pollStep, Rx.setDesc, dd]⟩
    rw [hframe]
    exact hout

theorem RxInv.setTail {s : Rx} {r a : ℕ} {out : Frame} (inv : RxInv s r a)
    (hcall : s.call = some (.setTail out)) : RxInv (pollStep s (.setTail out)) (r + 1) a := by
  obtain ⟨hlt, hout, hdd⟩ := inv.polled _ hcall
  have hlap := inv.lt
  refine ⟨inv.ready, hlt, by omega, inv.rdh, ?_, ?_, inv.addr, inv.length, ?_, ?_, ?_, ?_⟩
  · change s.rxCur = (r + 1 + (numRx - 1)) % numRx
    rw [inv.cur, show r + 1 + (numRx - 1) = r + numRx by simp [numRx], Nat.add_mod_right]
  · change (s.rxCur + 1) % numRx = (r + 1) % numRx
    rw [inv.cur, Nat.mod_add_mod]
  · change arrived (s.log ++ [.received out]) =
      received (s.log ++ [.received out]) ++ Ring.entries numRx s.frameAt (r + 1) a
    rw [arrived_append, received_append, inv.log, Ring.entries_pop hlt, hout, inv.cur]
    simp [arrived, received]
  · intro k hlo hhi _
    change dd (s.ring (k % numRx)).status = decide (k < a)
    rcases Nat.lt_or_ge k (r + numRx) with hk | hk
    · exact inv.done k (by omega) hk (by omega)
    · -- the slot just given back comes round as the last of the new lap
      obtain rfl : k = r + numRx := by omega
      rw [Nat.add_mod_right, ← inv.cur, hdd]
      simpa using hlap.le
  · intro pc hpc
    simp [pollStep, Rx.finish] at hpc
  · apply inv.missed.snoc
    simp

theorem RxInv.driver {s : Rx} {r a : ℕ} {pc : PollPc} (inv : RxInv s r a)
    (hcall : s.call = some pc) : ∃ r', RxInv (pollStep s pc) r' a := by
  cases pc with
  | test => exact ⟨r, inv.test hcall⟩
  | getLength =>
    have hlt : r < a := inv.polled _ hcall
    have htail : ¬ s.atTail := by
      rintro ⟨out, hout⟩
      simp [hcall] at hout
    refine ⟨r, inv.advance _ htail (by simp) ⟨hlt, ?_, by simp, by simp⟩⟩
    exact min_eq_left (inv.length s.rxCur)
  | copy pktLen out => exact ⟨r, inv.copy hcall⟩
  | setStatus out => exact ⟨r, inv.setStatus hcall⟩
  | setTail out => exact ⟨r + 1, inv.setTail hcall⟩

theorem RxInv.poll {s : Rx} {r a : ℕ} (inv : RxInv s r a) (hidle : s.call = none) (args : PollArgs) :
    RxInv (pollReceive s args) r a := by
  have htail : ¬ s.atTail := by
    rintro ⟨out, hout⟩
    simp [hidle] at hout
  have hargs : ¬ (!s.ready || args.data == 0 || args.len == 0) = true := by
    simp [inv.ready, args.data_ne, args.len_ne]
  unfold pollReceive
  rw [if_neg hargs]
  exact inv.advance .test htail (by simp) trivial

/-! ## The card -/

/-- The card writes only the slot at its own index. -/
theorem ring_fill_of_ne {s : Rx} {i : ℕ} (hi : i ≠ s.rdh) (f : Arrival) :
    (s.fill f).ring i = s.ring i := by
  simp [Rx.fill, Rx.setDesc, hi]

theorem frameAt_fill_of_ne {s : Rx} {i : ℕ} (haddr : ∀ i, (s.ring i).addr = i) (hi : i ≠ s.rdh)
    (f : Arrival) : (s.fill f).frameAt i = s.frameAt i := by
  simp [Rx.frameAt, Rx.fill, Rx.setDesc, hi, haddr]

theorem toNat_length_arrival (f : Arrival) :
    (UInt16.ofNat f.bytes.length).toNat = f.bytes.length := by
  have hbound := f.length_le
  unfold bufSize at hbound
  rw [UInt16.toNat_ofNat', Nat.mod_eq_of_lt (by omega)]

theorem frameAt_fill_self (s : Rx) (f : Arrival) : (s.fill f).frameAt s.rdh = f.bytes := by
  have hsize := toNat_length_arrival f
  apply List.ext_getElem
  · simp [Rx.fill, Rx.setDesc, hsize]
  · intro i hi hi'
    simp [Rx.frameAt, Rx.fill, Rx.setDesc, hi']

/-- What a call under way has read stays as it is, as the slot it reads is not the one filled. -/
theorem Polled.fill {s : Rx} {r a : ℕ} {pc : PollPc} (h : Polled s r a pc)
    (haddr : ∀ i, (s.ring i).addr = i) (hcur : r < a → s.rxCur ≠ s.rdh) (f : Arrival) :
    Polled (s.fill f) r (a + 1) pc := by
  cases pc with
  | test => trivial
  | getLength => exact Nat.lt_succ_of_lt h
  | copy pktLen out =>
    obtain ⟨hlt, hpkt, hle, hout⟩ := h
    refine ⟨by omega, hpkt.trans ?_, hle, hout.trans ?_⟩
    · change (s.ring s.rxCur).length.toNat = ((s.fill f).ring s.rxCur).length.toNat
      rw [ring_fill_of_ne (hcur hlt)]
    · change _ = ((s.fill f).frameAt s.rxCur).take out.length
      rw [frameAt_fill_of_ne haddr (hcur hlt)]
  | setStatus out =>
    obtain ⟨hlt, hout⟩ := h
    exact ⟨by omega, hout.trans (frameAt_fill_of_ne haddr (hcur hlt) f).symm⟩
  | setTail out =>
    obtain ⟨hlt, hout, hdd⟩ := h
    refine ⟨by omega, hout.trans (frameAt_fill_of_ne haddr (hcur hlt) f).symm, ?_⟩
    change dd ((s.fill f).ring s.rxCur).status = false
    rw [ring_fill_of_ne (hcur hlt)]
    exact hdd

theorem RxInv.fill {s : Rx} {r a : ℕ} (inv : RxInv s r a) (hne : s.rdh ≠ s.rdt) (f : Arrival) :
    RxInv (s.fill f) r (a + 1) := by
  have hlap := inv.lt
  have hroom : a + 1 < r + numRx := by
    by_contra hge
    apply hne
    rw [inv.rdh, inv.rdt, show a = r + (numRx - 1) by simp only [numRx] at *; omega]
  -- Within one lap only the counter `a` stands for the slot at the head.
  have hother : ∀ k, r ≤ k → k < r + numRx → k ≠ a → k % numRx ≠ s.rdh := by
    intro k hlo hhi hka heq
    rw [inv.rdh] at heq
    exact hka (Ring.slot_inj hlo hhi inv.le hlap heq)
  refine ⟨inv.ready, by have := inv.le; omega, hroom, ?_, inv.rdt, inv.cur, fun i => ?_,
    fun i => ?_, ?_, ?_, ?_, ?_⟩
  · change (s.rdh + 1) % numRx = (a + 1) % numRx
    rw [inv.rdh, Nat.mod_add_mod]
  · by_cases hi : i = s.rdh
    · simpa [Rx.fill, Rx.setDesc, hi] using inv.addr s.rdh
    · rw [ring_fill_of_ne hi]
      exact inv.addr i
  · by_cases hi : i = s.rdh
    · have hlen : ((s.fill f).ring i).length = UInt16.ofNat f.bytes.length := by
        simp [Rx.fill, Rx.setDesc, hi]
      rw [hlen, toNat_length_arrival]
      exact f.length_le
    · rw [ring_fill_of_ne hi]
      exact inv.length i
  · change arrived (s.log ++ [.arrived f.bytes]) =
      received (s.log ++ [.arrived f.bytes]) ++ Ring.entries numRx (s.fill f).frameAt r (a + 1)
    have hkept : Ring.entries numRx (s.fill f).frameAt r a = Ring.entries numRx s.frameAt r a :=
      Ring.entries_of_ne hlap fun i hi => frameAt_fill_of_ne inv.addr (by rwa [inv.rdh]) f
    rw [Ring.entries_push inv.le, ← inv.rdh, frameAt_fill_self, hkept, arrived_append,
      received_append, inv.log]
    simp [arrived, received]
  · intro k hlo hhi hk
    by_cases hka : k = a
    · subst hka
      rw [← inv.rdh]
      simp [Rx.fill, Rx.setDesc, dd_or_one]
    · have hdec : decide (k < a + 1) = decide (k < a) := by
        simp only [decide_eq_decide]
        omega
      rw [hdec, ← inv.done k hlo hhi hk, ring_fill_of_ne (hother k hlo hhi hka)]
  · intro pc hpc
    apply (inv.polled pc hpc).fill inv.addr
    intro hlt
    rw [inv.cur]
    exact hother r le_rfl (by simp [numRx]) hlt.ne
  · apply inv.missed.snoc
    simp

/-- One step of driver or card. -/
theorem RxInv.step {s u : Rx} {l : RxLabel} {r a : ℕ} (inv : RxInv s r a) (hstep : RxStep s l u) :
    ∃ r' a', RxInv u r' a' := by
  unfold RxStep rxStep at hstep
  cases l with
  | poll args =>
    dsimp only at hstep
    split_ifs at hstep with hidle
    obtain rfl := Option.some.inj hstep
    exact ⟨r, a, inv.poll (Option.isNone_iff_eq_none.mp hidle) args⟩
  | driver =>
    obtain ⟨pc, hcall, rfl⟩ := Option.map_eq_some_iff.mp hstep
    obtain ⟨r', inv'⟩ := inv.driver hcall
    exact ⟨r', a, inv'⟩
  | card f =>
    dsimp only at hstep
    split_ifs at hstep with hne
    obtain rfl := Option.some.inj hstep
    exact ⟨r, a + 1, inv.fill hne f⟩

/-! ## Runs -/

/-- In every interleaving of arrivals and calls of `poll_receive`, the frames returned are the
first of those accepted, in order and unchanged, and a call finds nothing only when all of them
have been returned. -/
theorem frames_received_in_order (pages : ℕ → ℕ → UInt8) (ls : List RxLabel) (s : Rx)
    (hrun : Run RxStep (rxInit pages) ls s) :
    received s.log <+: arrived s.log ∧ MissedWhenEmpty s.log := by
  have hinv : ∃ r a, RxInv s r a := by
    apply hrun.invariant (fun s => ∃ r a, RxInv s r a) ⟨0, 0, rxInit_inv pages⟩
    rintro x l y ⟨r, a, inv⟩ hstep
    exact inv.step hstep
  obtain ⟨r, a, inv⟩ := hinv
  exact ⟨inv.in_order, inv.missed⟩

def callPoll : List RxLabel := .poll ⟨1, 1, by decide, by decide⟩ :: List.replicate 6 .driver

def arrival (k : ℕ) : RxLabel := .card ⟨[UInt8.ofNat k], Nat.le_of_ble_eq_true rfl⟩

/-- Five frames arrive and are read, and five more, which go around the end of the ring. -/
def twoBursts : List RxLabel :=
  (List.range 5).map arrival ++ (List.replicate 5 callPoll).flatten ++
    (List.range 5).map (fun k => arrival (5 + k)) ++ (List.replicate 5 callPoll).flatten

def afterBursts : Rx :=
  (exec rxStep (rxInit fun _ _ => 0) twoBursts).get (by decide +kernel)

theorem frames_received_in_order_twoBursts :
    afterBursts.rxCur = 2 ∧ received afterBursts.log = (List.range 10).map (fun k => [UInt8.ofNat k]) ∧
      received afterBursts.log <+: arrived afterBursts.log ∧ MissedWhenEmpty afterBursts.log :=
  ⟨by decide +kernel, by decide +kernel, frames_received_in_order _ twoBursts _ (run_get _)⟩

end QuillOS.E1000
