import QuillOS.Lib.Ring
import QuillOS.Cluster.Results

/-!
# The job history

The three readers of the history of `djob.cpp` use different indices into one ring. Any sequence
of `DJob` calls leaves a ring that shows the last sixteen submitted jobs in order, and the readers
agree on them.
-/

namespace QuillOS.Cluster

open Lib

/-! ## The readers -/

namespace DJob

/-- `get_job`. -/
def getJob (d : DJob) (id : UInt32) : Option Job := (d.findJob id).map d.history

/-- The slot of a history index. -/
def slot (d : DJob) (k : ℕ) : Job := d.history (Fin.ofNat maxHistory k)

theorem slot_mod (d : DJob) (k : ℕ) : d.slot (k % maxHistory) = d.slot k := by
  unfold slot
  congr 1
  exact Fin.ext (Nat.mod_mod k maxHistory)

/-- `get_last_completed`: from the slot before `historyWrite` once around, backwards. -/
def getLastCompleted (d : DJob) : Option Job :=
  (List.range maxHistory).reverse.findSome? fun i =>
    let j := d.slot (d.historyWrite.val + i)
    if j.id ≠ 0 ∧ j.status = .completed then some j else none

def getHistoryCount (d : DJob) : UInt32 := d.historyCount

/-- `get_history`. Before the ring is full, the index is the slot. -/
def getHistory (d : DJob) (idx : UInt32) : Option Job :=
  if hidx : idx ≥ d.historyCount then none
  else if hcount : d.historyCount.toNat < maxHistory then
    some (d.history ⟨idx.toNat, Nat.lt_trans (Nat.not_le.mp hidx) hcount⟩)
  else some (d.slot (d.historyWrite.val + idx.toNat))

/-- What `get_history` shows, oldest first. -/
def shown (d : DJob) : List Job :=
  (List.range d.getHistoryCount.toNat).filterMap fun i => d.getHistory (UInt32.ofNat i)

end DJob

/-! ## Calls of the history -/

inductive HistoryCall
  /-- `submit`; `sent` is what `send_udp` answers if the job goes to a peer. -/
  | submit (type : JobType) (data : Bytes) (ticks : UInt64) (localLoad : UInt32) (sent : Bool)
  | onRemoteResult (id result : UInt32) (ticks : UInt64)
  /-- `update_node_load`, which decides where later jobs run. -/
  | updateNodeLoad (ip : Ip) (count : UInt32) (ticks : UInt64)

namespace JobNode

/-- `none` when a local job never ends. -/
def historyStep (c : JobNode) : HistoryCall → Option JobNode
  | .submit type data ticks localLoad sent =>
    (c.submit type data ticks localLoad sent).map Prod.fst
  | .onRemoteResult id result ticks =>
    some { c with djob := c.djob.onRemoteResult id result ticks }
  | .updateNodeLoad ip count ticks => some { c with djob := c.djob.updateNodeLoad ip count ticks }

def HistoryStep (c : JobNode) (call : HistoryCall) (c' : JobNode) : Prop :=
  c.historyStep call = some c'

/-- The payloads `submit` is given are at most 240 bytes long. -/
def PayloadFits (_ : JobNode) : HistoryCall → Prop
  | .submit _ data _ _ _ => data.length ≤ maxPayload
  | _ => True

instance (c : JobNode) (call : HistoryCall) : Decidable (c.PayloadFits call) := by
  cases call <;> unfold PayloadFits <;> infer_instance

end JobNode

/-- The jobs that were submitted, in order. -/
def submitted (calls : List HistoryCall) : List (JobType × Bytes) :=
  calls.filterMap fun
    | .submit type data _ _ _ => some (type, data)
    | _ => none

/-- The job is the submission number `k`, counted from 0. -/
structure Job.IsNumber (j : Job) (jobs : List (JobType × Bytes)) (k : ℕ) : Prop where
  id : j.id.toNat = k + 1
  content : jobs[k]? = some (j.type, j.payload)
  length : j.payloadLen = j.payload.length

theorem Job.IsNumber.append {j : Job} {jobs : List (JobType × Bytes)} {k : ℕ}
    (h : j.IsNumber jobs k) (more : List (JobType × Bytes)) : j.IsNumber (jobs ++ more) k :=
  { h with
    content := by
      have hk := (List.getElem?_eq_some_iff.mp h.content).1
      rw [List.getElem?_append_left hk, h.content] }

/-! ## What the ring holds -/

/-- The ring after the submissions `jobs`. -/
structure Recorded (jobs : List (JobType × Bytes)) (d : DJob) : Prop where
  ready : d.initialized = true
  next : d.nextJobId.toNat = jobs.length + 1
  write : d.historyWrite.val = jobs.length % maxHistory
  count : d.historyCount.toNat = min jobs.length maxHistory
  entry : ∀ k < jobs.length, jobs.length ≤ k + maxHistory → (d.slot k).IsNumber jobs k
  empty : ∀ k < maxHistory, jobs.length ≤ k → (d.slot k).id = 0

namespace Recorded

variable {jobs : List (JobType × Bytes)} {d : DJob}

theorem init : Recorded [] DJob.init where
  ready := rfl
  next := rfl
  write := rfl
  count := rfl
  entry k hk := absurd hk (Nat.not_lt_zero k)
  empty _ _ _ := rfl

/-- A history with the same identifiers and contents, under the same counters. -/
theorem of_entries {d' : DJob} (h : Recorded jobs d) (hready : d'.initialized = d.initialized)
    (hnext : d'.nextJobId = d.nextJobId) (hwrite : d'.historyWrite = d.historyWrite)
    (hcount : d'.historyCount = d.historyCount)
    (hslot : ∀ i, (d'.history i).id = (d.history i).id ∧ (d'.history i).type = (d.history i).type ∧
      (d'.history i).payload = (d.history i).payload ∧
      (d'.history i).payloadLen = (d.history i).payloadLen) :
    Recorded jobs d' where
  ready := hready.trans h.ready
  next := hnext ▸ h.next
  write := hwrite ▸ h.write
  count := hcount ▸ h.count
  entry k hk hlast := by
    obtain ⟨hid, htype, hpayload, hlen⟩ := hslot (Fin.ofNat maxHistory k)
    obtain ⟨hnum, hcontent, hplen⟩ := h.entry k hk hlast
    unfold DJob.slot at hnum hcontent hplen ⊢
    constructor
    · rw [hid, hnum]
    · rw [htype, hpayload, hcontent]
    · rw [hlen, hpayload, hplen]
  empty k hk hfree := by
    unfold DJob.slot
    rw [(hslot _).1]
    exact h.empty k hk hfree

/-- The slot that is written, and the slots that are not. -/
theorem slot_recordJob (d : DJob) (j : Job) (k : ℕ) :
    (d.recordJob j).slot k = if k % maxHistory = d.historyWrite.val then j else d.slot k := by
  unfold DJob.recordJob DJob.slot
  simp only [Function.update_apply, Fin.ext_iff, Fin.ofNat]

/-- `record_job` with the next identifier. -/
theorem recordJob {d' : DJob} {j : Job} {type : JobType} {data : Bytes} (h : Recorded jobs d)
    (hlt : jobs.length + 1 < 2 ^ 32 - 1) (hready : d'.initialized = d.initialized)
    (hnext : d'.nextJobId = d.nextJobId + 1) (hwrite : d'.historyWrite = d.historyWrite)
    (hcount : d'.historyCount = d.historyCount) (hhistory : d'.history = d.history)
    (hid : j.id = d.nextJobId) (htype : j.type = type) (hpayload : j.payload = data)
    (hlen : j.payloadLen = data.length) :
    Recorded (jobs ++ [(type, data)]) (d'.recordJob j) where
  ready := hready.trans h.ready
  next := by
    change d'.nextJobId.toNat = _
    rw [hnext, UInt32.toNat_add, h.next, List.length_append, List.length_singleton,
      show UInt32.toNat 1 = 1 from rfl]
    exact Nat.mod_eq_of_lt (by omega)
  write := by
    change (d'.historyWrite + 1 : Fin maxHistory).val = _
    rw [hwrite, Fin.val_add, h.write, List.length_append, List.length_singleton]
    simp
  count := by
    change (if d'.historyCount.toNat < maxHistory then d'.historyCount + 1
      else d'.historyCount).toNat = _
    rw [hcount, List.length_append, List.length_singleton]
    split
    · rw [UInt32.toNat_add, show UInt32.toNat 1 = 1 from rfl, h.count]
      rw [h.count] at *
      omega
    · rw [h.count] at *
      omega
  entry k hk hlast := by
    rw [List.length_append, List.length_singleton] at hk hlast
    rw [slot_recordJob, hwrite, h.write]
    by_cases hnew : k = jobs.length
    · -- The slot that was written.
      subst hnew
      rw [if_pos rfl]
      exact ⟨by rw [hid, h.next], by simp [htype, hpayload], by rw [hlen, hpayload]⟩
    · rw [if_neg]
      · have hslot : d'.slot k = d.slot k := by unfold DJob.slot; rw [hhistory]
        rw [hslot]
        exact (h.entry k (by omega) (by omega)).append _
      · intro heq
        exact hnew (Ring.slot_inj (h := k) le_rfl (by omega) (by omega) (by omega) heq)
  empty k hk hfree := by
    rw [List.length_append, List.length_singleton] at hfree
    rw [slot_recordJob, hwrite, h.write, Nat.mod_eq_of_lt hk, Nat.mod_eq_of_lt (by omega),
      if_neg (by omega)]
    have hslot : d'.slot k = d.slot k := by unfold DJob.slot; rw [hhistory]
    rw [hslot]
    exact h.empty k hk (by omega)

end Recorded

/-! ## What the calls do -/

/-- A result sets one running entry of its identifier, or changes nothing. -/
theorem onRemoteResult_cases (d : DJob) (id result : UInt32) (ticks : UInt64) :
    d.onRemoteResult id result ticks = d ∨
      ∃ i, (d.history i).id = id ∧ (d.history i).status = .running ∧
        d.onRemoteResult id result ticks =
          { d with
            history := Function.update d.history i ((d.history i).complete result ticks) } := by
  unfold DJob.onRemoteResult
  cases hfind : d.findJob id with
  | none => exact .inl rfl
  | some i =>
    dsimp only
    split
    · rename_i hrun
      exact .inr ⟨i, (findJob_some hfind).1, hrun, rfl⟩
    · exact .inl rfl

theorem updateNodeLoad_eq (d : DJob) (ip : Ip) (count : UInt32) (ticks : UInt64) :
    ∃ loads, d.updateNodeLoad ip count ticks = { d with nodeLoads := loads } := by
  unfold DJob.updateNodeLoad
  split
  · exact ⟨_, rfl⟩
  · split
    · exact ⟨_, rfl⟩
    · exact ⟨d.nodeLoads, rfl⟩

/-- Whatever becomes of a submitted job, `submit` records it under the next identifier. -/
theorem JobNode.submit_records {c c' : JobNode} {type : JobType} {data : Bytes} {ticks : UInt64}
    {localLoad : UInt32} {sent : Bool} {out : Option (Ip × Bytes)}
    (h : c.submit type data ticks localLoad sent = some (c', out))
    (hready : c.djob.initialized = true) :
    ∃ (counter : UInt32) (j : Job), j.id = c.djob.nextJobId ∧ j.type = type ∧
      j.payload = data.take maxPayload ∧ j.payloadLen = data.length ∧
      c'.djob = (c.drawId counter).djob.recordJob j := by
  unfold submit at h
  rw [if_neg (by simp [hready])] at h
  cases hpick : c.djob.pickTarget localLoad ticks with
  | mk target counter =>
    rw [hpick] at h
    dsimp only at h
    split at h
    · obtain ⟨result, -, heq⟩ := Option.map_eq_some_iff.mp h
      obtain ⟨rfl, rfl⟩ := Prod.mk.inj heq
      exact ⟨counter, c.newJob type data target ticks .completed result, rfl, rfl, rfl, rfl, rfl⟩
    · cases hsub : (c.drawId counter).submitJob type data sent with
      | mk b message =>
        obtain ⟨hdjob, -⟩ := submitJob_cases hsub
        rw [hsub] at h
        cases message with
        | none =>
          obtain ⟨rfl, rfl⟩ := Prod.mk.inj (Option.some.inj h)
          exact ⟨counter, c.newJob type data target ticks .failed 0, rfl, rfl, rfl, rfl,
            by rw [← hdjob]; rfl⟩
        | some m =>
          obtain ⟨rfl, rfl⟩ := Prod.mk.inj (Option.some.inj h)
          exact ⟨counter, c.newJob type data target ticks .running 0, rfl, rfl, rfl, rfl,
            by rw [← hdjob]; rfl⟩

/-- One call keeps the ring in step with the submissions. -/
theorem recorded_step {c c' : JobNode} {call : HistoryCall} {jobs : List (JobType × Bytes)}
    (h : Recorded jobs c.djob) (hfits : c.PayloadFits call) (hstep : c.HistoryStep call c')
    (hlt : (jobs ++ submitted [call]).length < 2 ^ 32 - 1) :
    Recorded (jobs ++ submitted [call]) c'.djob := by
  cases call with
  | submit type data ticks localLoad sent =>
    obtain ⟨⟨b, out⟩, hsubmit, rfl⟩ := Option.map_eq_some_iff.mp hstep
    obtain ⟨counter, j, hid, htype, hpayload, hlen, hdjob⟩ := JobNode.submit_records hsubmit h.ready
    rw [hdjob]
    exact h.recordJob (by simpa [submitted] using hlt) rfl rfl rfl rfl rfl hid htype
      (hpayload.trans (List.take_of_length_le hfits)) hlen
  | onRemoteResult id result ticks =>
    obtain rfl := Option.some.inj hstep
    rw [show submitted [HistoryCall.onRemoteResult id result ticks] = [] from rfl, List.append_nil]
    rcases onRemoteResult_cases c.djob id result ticks with heq | ⟨k, -, -, heq⟩
    · simpa only [heq] using h
    · rw [heq]
      refine h.of_entries rfl rfl rfl rfl fun i => ?_
      by_cases hik : i = k
      · subst hik
        simp only [Function.update_self]
        exact ⟨rfl, rfl, rfl, rfl⟩
      · simp only [Function.update_of_ne hik, and_self]
  | updateNodeLoad ip count ticks =>
    obtain rfl := Option.some.inj hstep
    obtain ⟨loads, heq⟩ := updateNodeLoad_eq c.djob ip count ticks
    rw [show submitted [HistoryCall.updateNodeLoad ip count ticks] = [] from rfl, List.append_nil,
      heq]
    exact h.of_entries rfl rfl rfl rfl fun _ => ⟨rfl, rfl, rfl, rfl⟩

theorem recorded_of_run {present : Bool} {calls : List HistoryCall} {c : JobNode}
    (hrun : Run (Where JobNode.PayloadFits JobNode.HistoryStep) (JobNode.init present) calls c)
    (hlt : (submitted calls).length < 2 ^ 32 - 1) : Recorded (submitted calls) c.djob := by
  induction hrun with
  | nil => exact Recorded.init
  | snoc _ hstep ih =>
    have happend : ∀ cs c, submitted (cs ++ [c]) = submitted cs ++ submitted [c] :=
      fun _ _ => List.filterMap_append
    rw [happend] at hlt ⊢
    exact recorded_step (ih (lt_of_le_of_lt (by simp) hlt)) hstep.1 hstep.2 hlt

/-! ## What the readers show -/

namespace Recorded

variable {jobs : List (JobType × Bytes)} {d : DJob}

/-- The direct index and the rotated one lead to the same submission. -/
theorem getHistory_eq (h : Recorded jobs d) {i : ℕ} (hi : i < min jobs.length maxHistory) :
    d.getHistory (UInt32.ofNat i) = some (d.slot (jobs.length - maxHistory + i)) := by
  have hi16 : i < 16 := lt_of_lt_of_le hi (Nat.min_le_right _ _)
  have hval : (UInt32.ofNat i).toNat = i := UInt32.toNat_ofNat_of_lt' (hi16.trans (by decide))
  unfold DJob.getHistory
  rw [dif_neg (by rw [ge_iff_le, UInt32.le_iff_toNat_le, h.count, hval]; omega)]
  split
  · rename_i hcount
    rw [h.count] at hcount
    have hshort : jobs.length < maxHistory := by omega
    unfold DJob.slot
    congr 2
    apply Fin.ext
    simp only [hval, Fin.ofNat, show jobs.length - maxHistory = 0 by omega, zero_add]
    exact (Nat.mod_eq_of_lt (by omega)).symm
  · rename_i hcount
    rw [h.count] at hcount
    rw [hval, h.write, ← d.slot_mod, ← d.slot_mod (jobs.length - maxHistory + i),
      Nat.mod_eq_sub_mod (show maxHistory ≤ jobs.length by omega), Nat.mod_add_mod]

theorem shown_eq (h : Recorded jobs d) :
    d.shown = Ring.entries maxHistory d.slot (jobs.length - maxHistory) jobs.length := by
  unfold DJob.shown DJob.getHistoryCount Ring.entries
  rw [h.count, List.range'_eq_map_range, List.map_map,
    show jobs.length - (jobs.length - maxHistory) = min jobs.length maxHistory by omega,
    ← List.filterMap_eq_map]
  apply List.filterMap_congr
  intro i hi
  rw [h.getHistory_eq (List.mem_range.mp hi), Function.comp_apply, Function.comp_apply,
    d.slot_mod]

theorem mem_shown (h : Recorded jobs d) {j : Job} :
    j ∈ d.shown ↔ ∃ k, jobs.length - maxHistory ≤ k ∧ k < jobs.length ∧ d.slot k = j := by
  rw [h.shown_eq, Ring.mem_entries]
  simp only [d.slot_mod]

/-- A slot in use holds one of the last submissions. -/
theorem slot_of_id_ne (h : Recorded jobs d) {i : Fin maxHistory} (hne : (d.history i).id ≠ 0) :
    ∃ k, jobs.length - maxHistory ≤ k ∧ k < jobs.length ∧ d.slot k = d.history i := by
  have hslot : d.slot i.val = d.history i := by
    unfold DJob.slot
    congr 1
    exact Fin.ext (Nat.mod_eq_of_lt i.isLt)
  have hused : i.val < jobs.length := by
    by_contra hfree
    exact hne (hslot ▸ h.empty i.val i.isLt (Nat.not_lt.mp hfree))
  obtain ⟨k, hlo, hhi, hk⟩ := Ring.exists_entry i.isLt hused
  exact ⟨k, hlo, hhi, by rw [← d.slot_mod, hk, hslot]⟩

theorem isNumber (h : Recorded jobs d) {k : ℕ} (hlo : jobs.length - maxHistory ≤ k)
    (hhi : k < jobs.length) : (d.slot k).IsNumber jobs k :=
  h.entry k hhi (by omega)

theorem getJob_eq_some (h : Recorded jobs d) {id : UInt32} {j : Job} :
    d.getJob id = some j ↔ j ∈ d.shown ∧ j.id = id := by
  unfold DJob.getJob
  rw [Option.map_eq_some_iff, h.mem_shown]
  constructor
  · rintro ⟨i, hfind, rfl⟩
    obtain ⟨hid, hne⟩ := findJob_some hfind
    exact ⟨h.slot_of_id_ne (hid ▸ hne), hid⟩
  · rintro ⟨⟨k, hlo, hhi, rfl⟩, hid⟩
    have hnum := (h.isNumber hlo hhi).id
    have hne : id ≠ 0 := by
      rintro rfl
      rw [hid] at hnum
      cases hnum
    cases hfind : d.findJob id with
    | none => exact absurd hfind (findJob_ne_none hid hne)
    | some i =>
      obtain ⟨hi, -⟩ := findJob_some hfind
      -- Identifiers are numbers, so the entry that was found is the one of number `k`.
      obtain ⟨k', hlo', hhi', hslot⟩ := h.slot_of_id_ne (hi ▸ hne)
      have hnum' := (h.isNumber hlo' hhi').id
      rw [hslot, hi, ← hid, hnum] at hnum'
      obtain rfl : k = k' := by omega
      exact ⟨i, rfl, hslot.symm⟩

theorem getJob_isSome (h : Recorded jobs d) {id : UInt32} :
    (d.getJob id).isSome = true ↔
      jobs.length - maxHistory < id.toNat ∧ id.toNat ≤ jobs.length := by
  simp only [Option.isSome_iff_exists, h.getJob_eq_some, h.mem_shown]
  constructor
  · rintro ⟨j, ⟨k, hlo, hhi, rfl⟩, rfl⟩
    rw [(h.isNumber hlo hhi).id]
    omega
  · rintro ⟨hlo, hhi⟩
    refine ⟨d.slot (id.toNat - 1), ⟨id.toNat - 1, by omega, by omega, rfl⟩, ?_⟩
    apply UInt32.toNat_inj.mp
    rw [(h.isNumber (by omega) (by omega)).id]
    omega

/-- The backward walk meets the entries newest first, and then the slots never written. -/
theorem getLastCompleted_eq (h : Recorded jobs d) :
    d.getLastCompleted = d.shown.reverse.find? fun j => decide (j.status = .completed) := by
  have hwalk : d.getLastCompleted =
      (((List.range maxHistory).map fun i =>
        d.slot ((jobs.length % maxHistory + i) % maxHistory)).reverse).find?
          fun j => decide (j.id ≠ 0 ∧ j.status = .completed) := by
    unfold DJob.getLastCompleted
    rw [← List.map_reverse, List.find?_eq_findSome?_guard, List.findSome?_map, h.write]
    congr 1
    funext i
    simp only [Function.comp_apply, d.slot_mod, Option.guard, decide_eq_true_eq]
  rw [hwalk, Ring.rotation_eq, List.reverse_append, List.find?_append, ← h.shown_eq]
  have hfree : ((List.range' jobs.length (maxHistory - jobs.length)).map d.slot).reverse.find?
      (fun j => decide (j.id ≠ 0 ∧ j.status = .completed)) = none := by
    rw [List.find?_eq_none]
    intro j hj
    obtain ⟨k, hk, rfl⟩ := List.mem_map.mp (List.mem_reverse.mp hj)
    obtain ⟨hlo, hhi⟩ := List.mem_range'_1.mp hk
    simp [h.empty k (by omega) hlo]
  have hused : d.shown.reverse.find? (fun j => decide (j.id ≠ 0 ∧ j.status = .completed)) =
      d.shown.reverse.find? fun j => decide (j.status = .completed) := by
    apply List.find?_congr
    intro j hj
    obtain ⟨k, hlo, hhi, rfl⟩ := h.mem_shown.mp (List.mem_reverse.mp hj)
    have hne : (d.slot k).id ≠ 0 := by
      intro h0
      have hnum := (h.isNumber hlo hhi).id
      rw [h0] at hnum
      cases hnum
    simp [hne]
  rw [hfree, hused, Option.or_none]

end Recorded

/-- The readers show the last submissions, in order. -/
structure ShowsLast (jobs : List (JobType × Bytes)) (d : DJob) : Prop where
  count : d.getHistoryCount.toNat = min jobs.length maxHistory
  nth : ∀ i : UInt32, i.toNat < min jobs.length maxHistory →
    ∃ j, d.getHistory i = some j ∧ j.IsNumber jobs (jobs.length - maxHistory + i.toNat)
  job : ∀ id j, d.getJob id = some j ↔ j ∈ d.shown ∧ j.id = id
  job_isSome : ∀ id, (d.getJob id).isSome = true ↔
    jobs.length - maxHistory < id.toNat ∧ id.toNat ≤ jobs.length
  lastCompleted :
    d.getLastCompleted = d.shown.reverse.find? fun j => decide (j.status = .completed)

theorem Recorded.showsLast {jobs : List (JobType × Bytes)} {d : DJob} (h : Recorded jobs d) :
    ShowsLast jobs d where
  count := h.count
  nth i hi := by
    have hget := h.getHistory_eq hi
    rw [UInt32.ofNat_toNat] at hget
    exact ⟨_, hget, h.isNumber (by omega) (by omega)⟩
  job _ _ := h.getJob_eq_some
  job_isSome _ := h.getJob_isSome
  lastCompleted := h.getLastCompleted_eq

/-- After any calls, with fewer than `2^32 - 1` submissions, the readers show the last sixteen of
them, and a result changes at most a running entry. -/
theorem history_shows_last (present : Bool) (calls : List HistoryCall) (c : JobNode)
    (hrun : Run (Where JobNode.PayloadFits JobNode.HistoryStep) (JobNode.init present) calls c)
    (hlt : (submitted calls).length < 2 ^ 32 - 1) :
    ShowsLast (submitted calls) c.djob ∧
      ∀ id result ticks, c.djob.onRemoteResult id result ticks = c.djob ∨
        ∃ i, (c.djob.history i).id = id ∧ (c.djob.history i).status = .running ∧
          c.djob.onRemoteResult id result ticks =
            { c.djob with
              history := Function.update c.djob.history i
                ((c.djob.history i).complete result ticks) } :=
  ⟨(recorded_of_run hrun hlt).showsLast, onRemoteResult_cases c.djob⟩

/-- A job for a peer that reported no load, its result, and a job that runs here. -/
def remoteThenLocal : List HistoryCall :=
  [.updateNodeLoad 2 0 0, .submit jobEcho [9] 0 5 true, .onRemoteResult 1 1 0,
    .submit jobSum [1, 0, 0, 0] 20000 5 true]

theorem history_shows_last_remoteThenLocal :
    ∃ c, Run JobNode.HistoryStep (JobNode.init true) remoteThenLocal c ∧
      ShowsLast [(jobEcho, [9]), (jobSum, [1, 0, 0, 0])] c.djob := by
  have hok : (exec (guarded JobNode.PayloadFits JobNode.historyStep) (JobNode.init true)
      remoteThenLocal).isSome = true := by
    decide +kernel
  have hrun : Run (Where JobNode.PayloadFits JobNode.HistoryStep) (JobNode.init true)
      remoteThenLocal _ := run_where_get hok
  exact ⟨_, hrun.of_where, (history_shows_last true remoteThenLocal _ hrun (by decide)).1⟩

end QuillOS.Cluster
