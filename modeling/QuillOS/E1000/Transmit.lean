import QuillOS.E1000.Model

/-!
# The transmit ring

A run in which the tail register never catches up with the head register loses no frame: what
`send` accepted is what is on the wire followed by the window the card owns. The driver's own check
looks at the done bit of one descriptor, which holds for the last free slot too, so that the eighth
outstanding frame makes the window look empty.
-/

namespace QuillOS.E1000

open Lib

@[simp] theorem sent_append (l l' : List TxEvent) : sent (l ++ l') = sent l ++ sent l' :=
  List.filterMap_append

@[simp] theorem transmitted_append (l l' : List TxEvent) :
    transmitted (l ++ l') = transmitted l ++ transmitted l' :=
  List.filterMap_append

/-- What the call under way has put into its slot. -/
def Filled (s : Tx) (a : SendArgs) : SendPc → Prop
  | .wait _ => True
  | .copy i => ∀ j, j < i → s.buf s.txCur j = a.data j
  | .setLength => ∀ j, j < a.len.toNat → s.buf s.txCur j = a.data j
  | .setCmd | .setStatus | .setTail => s.frameAt s.txCur = a.frame

/-- The registers stand for counters less than a lap apart, and the log splits at the head. -/
structure TxInv (s : Tx) (h t : ℕ) : Prop where
  le : h ≤ t
  lt : t < h + numTx
  tdh : s.tdh = h % numTx
  tdt : s.tdt = t % numTx
  cur : s.txCur = t % numTx
  addr : ∀ i, (s.ring i).addr = i
  log : sent s.log = transmitted s.log ++ Ring.entries numTx s.frameAt h t
  filled : ∀ a pc, s.call = some (a, pc) → Filled s a pc

/-- Every accepted frame is on the wire or in the card's window, in the order of the sends. -/
def Visible (s : Tx) : Prop := sent s.log = transmitted s.log ++ s.window

theorem TxInv.visible {s : Tx} {h t : ℕ} (inv : TxInv s h t) : Visible s := by
  unfold Visible Tx.window
  rw [inv.tdh, inv.tdt, Ring.window_eq_entries inv.le inv.lt]
  exact inv.log

theorem txInit_inv (pages : ℕ → ℕ → UInt8) : TxInv (txInit pages) 0 0 where
  le := le_rfl
  lt := by decide
  tdh := rfl
  tdt := rfl
  cur := rfl
  addr _ := rfl
  log := by simp [txInit, sent, transmitted]
  filled a pc hc := by simp [txInit] at hc

/-! ## Stores into the current slot -/

/-- The driver writes only the slot at its own index. -/
structure SameButCur (s t : Tx) : Prop where
  txCur : t.txCur = s.txCur
  tdh : t.tdh = s.tdh
  tdt : t.tdt = s.tdt
  log : t.log = s.log
  addr : ∀ i, (t.ring i).addr = (s.ring i).addr
  ring : ∀ i, i ≠ s.txCur → t.ring i = s.ring i
  buf : ∀ i, i ≠ s.txCur → t.buf i = s.buf i

theorem SameButCur.frameAt {s t : Tx} {i : ℕ} (same : SameButCur s t)
    (haddr : ∀ i, (s.ring i).addr = i) (hi : i ≠ s.txCur) : t.frameAt i = s.frameAt i := by
  unfold Tx.frameAt
  rw [same.ring i hi, haddr i, same.buf i hi]

/-- Stores into the slot of the tail counter keep the invariant. -/
theorem TxInv.of_same {s t : Tx} {h n : ℕ} (inv : TxInv s h n) (same : SameButCur s t)
    (hfilled : ∀ a pc, t.call = some (a, pc) → Filled t a pc) : TxInv t h n where
  le := inv.le
  lt := inv.lt
  tdh := same.tdh.trans inv.tdh
  tdt := same.tdt.trans inv.tdt
  cur := same.txCur.trans inv.cur
  addr i := (same.addr i).trans (inv.addr i)
  log := by
    rw [same.log, inv.log]
    congr 1
    refine (Ring.entries_of_ne inv.lt fun i hi => ?_).symm
    exact same.frameAt inv.addr (by rwa [inv.cur])
  filled := hfilled

/-- Moving on within a call, with the stores of the step. -/
theorem TxInv.advance {s t : Tx} {h n : ℕ} {a : SendArgs} {pc : SendPc} (inv : TxInv s h n)
    (same : SameButCur s t) (hcall : t.call = some (a, pc)) (hfilled : Filled t a pc) :
    TxInv t h n := by
  apply inv.of_same same
  intro b pc' hb
  obtain ⟨rfl, rfl⟩ : a = b ∧ pc = pc' := by simpa [hcall] using hb
  exact hfilled

theorem TxInv.finish {s : Tx} {h n : ℕ} (inv : TxInv s h n) : TxInv (s.finish .failed) h n where
  le := inv.le
  lt := inv.lt
  tdh := inv.tdh
  tdt := inv.tdt
  cur := inv.cur
  addr := inv.addr
  log := by
    change sent (s.log ++ [.failed]) =
      transmitted (s.log ++ [.failed]) ++ Ring.entries numTx s.frameAt h n
    rw [sent_append, transmitted_append, inv.log]
    simp [sent, transmitted]
  filled a pc hc := by simp [Tx.finish] at hc

theorem frameAt_eq {s : Tx} {a : SendArgs} (haddr : (s.ring s.txCur).addr = s.txCur)
    (hlen : (s.ring s.txCur).length = a.len)
    (hbuf : ∀ j, j < a.len.toNat → s.buf s.txCur j = a.data j) : s.frameAt s.txCur = a.frame := by
  unfold Tx.frameAt SendArgs.frame
  rw [haddr, hlen]
  apply List.map_congr_left
  intro j hj
  exact hbuf j (List.mem_range.mp hj)

/-- A store into the current descriptor that leaves its address and length alone shows the same
frame. -/
theorem frameAt_setDesc {s : Tx} (d : TxDesc) (haddr : d.addr = (s.ring s.txCur).addr)
    (hlen : d.length = (s.ring s.txCur).length) :
    (s.setDesc s.txCur d).frameAt s.txCur = s.frameAt s.txCur := by
  simp [Tx.frameAt, Tx.setDesc, haddr, hlen]

theorem setDesc_same {s : Tx} (d : TxDesc) (haddr : d.addr = (s.ring s.txCur).addr)
    (c : Option (SendArgs × SendPc)) : SameButCur s { s.setDesc s.txCur d with call := c } where
  txCur := rfl
  tdh := rfl
  tdt := rfl
  log := rfl
  addr i := by
    by_cases hi : i = s.txCur
    · subst hi
      simpa [Tx.setDesc] using haddr
    · simp [Tx.setDesc, hi]
  ring i hi := by simp [Tx.setDesc, hi]
  buf i _ := rfl

/-! ## Steps -/

/-- The next access of the driver is the write of `TDT`. -/
def Tx.atTail (s : Tx) : Bool :=
  match s.call with
  | some (_, .setTail) => true
  | _ => false

/-- The write of `TDT` leaves a slot between tail and head. -/
def Room (s : Tx) : TxLabel → Prop
  | .driver => s.atTail = true → (s.tdt + 1) % numTx ≠ s.tdh
  | _ => True

instance : ∀ s l, Decidable (Room s l)
  | s, .driver => inferInstanceAs (Decidable (s.atTail = true → (s.tdt + 1) % numTx ≠ s.tdh))
  | _, .call _ _ => inferInstanceAs (Decidable True)
  | _, .card => inferInstanceAs (Decidable True)

theorem TxInv.room {s : Tx} {h t : ℕ} (inv : TxInv s h t) (hroom : (s.tdt + 1) % numTx ≠ s.tdh) :
    t + 1 < h + numTx := by
  have hlt := inv.lt
  by_contra hge
  apply hroom
  rw [inv.tdt, inv.tdh, Nat.mod_add_mod, show t + 1 = h + numTx by omega, Nat.add_mod_right]

theorem TxInv.setTail {s : Tx} {h t : ℕ} {a : SendArgs} (inv : TxInv s h t)
    (hcall : s.call = some (a, .setTail)) (hroom : (s.tdt + 1) % numTx ≠ s.tdh) :
    TxInv (sendStep s a .setTail) h (t + 1) where
  le := inv.le.trans (Nat.le_succ t)
  lt := inv.room hroom
  tdh := inv.tdh
  tdt := by simp [sendStep, Tx.finish, inv.cur]
  cur := by simp [sendStep, Tx.finish, inv.cur]
  addr := inv.addr
  log := by
    have hframe : s.frameAt (t % numTx) = a.frame := by
      have hf : s.frameAt s.txCur = a.frame := inv.filled a .setTail hcall
      rwa [inv.cur] at hf
    change sent (s.log ++ [.sent a.frame]) =
      transmitted (s.log ++ [.sent a.frame]) ++ Ring.entries numTx s.frameAt h (t + 1)
    rw [Ring.entries_push inv.le, hframe, sent_append, transmitted_append, inv.log]
    simp [sent, transmitted]
  filled b pc hb := by simp [sendStep, Tx.finish] at hb

theorem TxInv.driver {s : Tx} {h t : ℕ} {a : SendArgs} {pc : SendPc} (inv : TxInv s h t)
    (hcall : s.call = some (a, pc)) (hroom : Room s .driver) :
    ∃ t', TxInv (sendStep s a pc) h t' := by
  have hfilled := inv.filled a pc hcall
  -- a step that only moves on leaves ring and buffers alone
  have hstay : ∀ c, SameButCur s { s with call := c } := fun c =>
    ⟨rfl, rfl, rfl, rfl, fun _ => rfl, fun _ _ => rfl, fun _ _ => rfl⟩
  cases pc with
  | wait timeout =>
    refine ⟨t, ?_⟩
    simp only [sendStep]
    split_ifs
    · apply inv.advance (hstay _) rfl
      intro j hj
      omega
    · exact inv.advance (hstay _) rfl trivial
    · exact inv.finish
  | copy i =>
    refine ⟨t, ?_⟩
    simp only [sendStep]
    split_ifs with hi
    · have hsame : SameButCur s
          { s.setByte s.txCur i (a.data i) with call := some (a, .copy (i + 1)) } :=
        ⟨rfl, rfl, rfl, rfl, fun _ => rfl, fun _ _ => rfl, fun j hj => by simp [Tx.setByte, hj]⟩
      apply inv.advance hsame rfl
      intro j hj
      by_cases hji : j = i
      · simp [Tx.setByte, hji]
      · have := hfilled j (by omega)
        simpa [Tx.setByte, hji] using this
    · apply inv.advance (hstay _) rfl
      intro j hj
      exact hfilled j (by omega)
  | setLength =>
    have hsame : SameButCur s (sendStep s a .setLength) :=
      setDesc_same { s.ring s.txCur with length := a.len } rfl _
    refine ⟨t, inv.advance hsame rfl ?_⟩
    apply frameAt_eq
    · exact (hsame.addr s.txCur).trans (inv.addr s.txCur)
    · simp [sendStep, Tx.setDesc]
    · exact hfilled
  | setCmd =>
    have hsame : SameButCur s (sendStep s a .setCmd) :=
      setDesc_same { s.ring s.txCur with cmd := 0x0B } rfl _
    refine ⟨t, inv.advance hsame rfl ?_⟩
    exact (frameAt_setDesc { s.ring s.txCur with cmd := 0x0B } rfl rfl).trans hfilled
  | setStatus =>
    have hsame : SameButCur s (sendStep s a .setStatus) :=
      setDesc_same { s.ring s.txCur with status := 0 } rfl _
    refine ⟨t, inv.advance hsame rfl ?_⟩
    exact (frameAt_setDesc { s.ring s.txCur with status := 0 } rfl rfl).trans hfilled
  | setTail => exact ⟨t + 1, inv.setTail hcall (hroom (by simp [Tx.atTail, hcall]))⟩

theorem TxInv.call {s : Tx} {h t : ℕ} (inv : TxInv s h t) (data : Option (ℕ → UInt8))
    (len : UInt16) : TxInv (send s data len) h t := by
  unfold send
  cases data with
  | none => exact inv.finish
  | some data =>
    dsimp only
    split_ifs
    · exact inv.finish
    · refine inv.advance ?_ rfl trivial
      exact ⟨rfl, rfl, rfl, rfl, fun _ => rfl, fun _ _ => rfl, fun _ _ => rfl⟩

/-- The done bit is not part of a frame. -/
theorem frameAt_transmit (s : Tx) : s.transmit.frameAt = s.frameAt := by
  funext i
  by_cases hi : i = s.tdh
  · simp [Tx.frameAt, Tx.transmit, Tx.setDesc, hi]
  · simp [Tx.frameAt, Tx.transmit, Tx.setDesc, hi]

theorem TxInv.transmit {s : Tx} {h t : ℕ} (inv : TxInv s h t) (hne : s.tdh ≠ s.tdt) :
    TxInv s.transmit (h + 1) t := by
  have hlt : h < t := by
    apply Nat.lt_of_le_of_ne inv.le
    rintro rfl
    exact hne (inv.tdh.trans inv.tdt.symm)
  have hlap := inv.lt
  refine ⟨hlt, by omega, by simp [Tx.transmit, inv.tdh], inv.tdt, inv.cur, fun i => ?_, ?_,
    fun a pc hc => ?_⟩
  · by_cases hi : i = s.tdh
    · simpa [Tx.transmit, Tx.setDesc, hi] using inv.addr s.tdh
    · simpa [Tx.transmit, Tx.setDesc, hi] using inv.addr i
  · rw [frameAt_transmit]
    change sent (s.log ++ [.transmitted (s.frameAt s.tdh)]) =
      transmitted (s.log ++ [.transmitted (s.frameAt s.tdh)]) ++ _
    rw [sent_append, transmitted_append, inv.log, Ring.entries_pop hlt, inv.tdh]
    simp [sent, transmitted]
  · have hf := inv.filled a pc hc
    cases pc with
    | wait timeout => trivial
    | copy i => exact hf
    | setLength => exact hf
    | setCmd | setStatus | setTail =>
      change s.transmit.frameAt s.txCur = a.frame
      rw [frameAt_transmit]
      exact hf

/-- One step of driver or card, the write of `TDT` meeting `Room`. -/
theorem TxInv.step {s u : Tx} {l : TxLabel} {h t : ℕ} (inv : TxInv s h t) (hroom : Room s l)
    (hstep : TxStep s l u) : ∃ h' t', TxInv u h' t' := by
  unfold TxStep txStep at hstep
  cases l with
  | call data len =>
    dsimp only at hstep
    split_ifs at hstep
    obtain rfl := Option.some.inj hstep
    exact ⟨h, t, inv.call data len⟩
  | driver =>
    obtain ⟨⟨a, pc⟩, hcall, rfl⟩ := Option.map_eq_some_iff.mp hstep
    obtain ⟨t', ht'⟩ := inv.driver hcall hroom
    exact ⟨h, t', ht'⟩
  | card =>
    dsimp only at hstep
    split_ifs at hstep with hne
    obtain rfl := Option.some.inj hstep
    exact ⟨h + 1, t, inv.transmit hne⟩

/-- Moving `TDT` onto `TDH` hides at least the frame just accepted. -/
theorem TxInv.not_visible {s : Tx} {h t : ℕ} {a : SendArgs} (inv : TxInv s h t)
    (hfull : (s.tdt + 1) % numTx = s.tdh) : ¬ Visible (sendStep s a .setTail) := by
  intro hvis
  -- Head and tail meet, which the card reads as nothing to do.
  have hempty : (sendStep s a .setTail).window = [] := by
    have htail : (s.txCur + 1) % numTx = s.tdh := by rw [inv.cur, ← inv.tdt, hfull]
    simp [Tx.window, sendStep, Tx.finish, htail]
  unfold Visible at hvis
  rw [hempty] at hvis
  change sent (s.log ++ [.sent a.frame]) = transmitted (s.log ++ [.sent a.frame]) ++ [] at hvis
  have hlen := congrArg List.length hvis
  rw [sent_append, transmitted_append, inv.log] at hlen
  simp [sent, transmitted] at hlen

/-- The condition is needed at each step. -/
theorem TxInv.room_of_visible {s u : Tx} {l : TxLabel} {h t : ℕ} (inv : TxInv s h t)
    (hstep : TxStep s l u) (hvis : Visible u) : Room s l := by
  cases l with
  | call data len => trivial
  | card => trivial
  | driver =>
    intro htail hfull
    obtain ⟨⟨a, pc⟩, hcall, rfl⟩ := Option.map_eq_some_iff.mp hstep
    unfold Tx.atTail at htail
    rw [hcall] at htail
    cases pc with
    | setTail => exact inv.not_visible hfull hvis
    | wait | copy | setLength | setCmd | setStatus => simp at htail

/-! ## Runs -/

/-- In every interleaving of sends and card steps in which the tail register is never moved onto
the head register, no accepted frame is lost, changed or overtaken; and the first move of the tail
onto the head breaks this. -/
theorem accepted_frames_visible (pages : ℕ → ℕ → UInt8) (ls : List TxLabel) (s : Tx)
    (hrun : Run (Where Room TxStep) (txInit pages) ls s) :
    Visible s ∧ ∀ l u, TxStep s l u → (Visible u ↔ Room s l) := by
  have hinv : ∃ h t, TxInv s h t := by
    apply hrun.invariant (fun s => ∃ h t, TxInv s h t) ⟨0, 0, txInit_inv pages⟩
    rintro a l b ⟨h, t, inv⟩ ⟨hroom, hstep⟩
    exact inv.step hroom hstep
  obtain ⟨h, t, inv⟩ := hinv
  refine ⟨inv.visible, fun l u hstep => ⟨inv.room_of_visible hstep, fun hroom => ?_⟩⟩
  obtain ⟨_, _, inv'⟩ := inv.step hroom hstep
  exact inv'.visible

/-- The labels of one call of `send` with the frame `[b]`, the card standing still. -/
def sendByte (b : UInt8) : List TxLabel :=
  .call (some fun _ => b) 1 :: List.replicate 7 .driver

/-- Two sends with the card working in between. -/
def twoSends : List TxLabel := sendByte 1 ++ [.card] ++ sendByte 2

theorem accepted_frames_visible_two :
    ∃ s, Run (Where Room TxStep) (txInit fun _ _ => 0) twoSends s ∧ Visible s := by
  have hdone : (exec (guarded Room txStep) (txInit fun _ _ => 0) twoSends).isSome = true := by
    decide +kernel
  exact ⟨_, run_where_get hdone, (accepted_frames_visible _ _ _ (run_where_get hdone)).1⟩

/-! ## A full ring reads as empty -/

def eightSends : List TxLabel := (List.range 8).flatMap fun k => sendByte (UInt8.ofNat k)

/-- The ring after eight sends, none of them transmitted. -/
@[irreducible] def fullRing : Tx :=
  (exec txStep (txInit fun _ _ => 0) eightSends).get (by decide +kernel)

theorem fullRing_run : Run TxStep (txInit fun _ _ => 0) eightSends fullRing := by
  unfold fullRing
  exact run_get _

/-- The eighth accepted frame moves `TDT` onto `TDH`. -/
theorem fullRing_lost : sent fullRing.log = (List.range 8).map (fun k => [UInt8.ofNat k]) ∧
    transmitted fullRing.log = [] ∧ fullRing.window = [] := by
  unfold fullRing
  decide +kernel

theorem ring_overtakes_itself : ∃ ls s f, Run TxStep (txInit fun _ _ => 0) ls s ∧
    f ∈ sent s.log ∧ f ∉ transmitted s.log ∧ f ∉ s.window := by
  obtain ⟨hsent, htransmitted, hwindow⟩ := fullRing_lost
  refine ⟨eightSends, fullRing, [3], fullRing_run, ?_, ?_, ?_⟩
  · rw [hsent]
    decide
  · simp [htransmitted]
  · simp [hwindow]

end QuillOS.E1000
