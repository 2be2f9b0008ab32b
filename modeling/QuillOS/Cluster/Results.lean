import QuillOS.Lib.Run
import QuillOS.Lib.Slots
import QuillOS.Cluster.Jobs

/-!
# Results go to the right job

Nodes that exchange job messages over a network that may delay, reorder and lose them. A result is
matched with the history by an identifier that `Cluster` draws, while the history holds the
identifiers `DJob` draws; when the two agree at every job sent to a peer, each result completes the
entry that asked for it.
-/

namespace QuillOS.Cluster

open Lib

/-! ## The system -/

/-- A datagram on its way. The number of the `DJob::submit` call it belongs to is kept for the
statements only; no node reads it. -/
structure JobPacket where
  src : Ip
  dst : Ip
  data : Bytes
  request : Option ℕ
  deriving DecidableEq

/-- `submissions` counts the `DJob::submit` calls and `sender` says which of them wrote a slot of
a history; no node reads them. -/
structure JobSystem where
  nodes : Ip → JobNode
  inFlight : List JobPacket
  submissions : ℕ
  sender : Ip → Fin maxHistory → Option ℕ

/-- Every node after its start, with or without a network card. -/
def JobSystem.boot (present : Ip → Bool) : JobSystem where
  nodes n := JobNode.init (present n)
  inFlight := []
  submissions := 0
  sender _ _ := none

inductive JobOp
  /-- `DJob::submit` on node `n`. -/
  | submit (n : Ip) (type : JobType) (data : Bytes) (ticks : UInt64) (localLoad : UInt32)
      (sent : Bool)
  /-- The shell's `rjob`: `Cluster::submit_job` on node `n`. -/
  | rjob (n target : Ip) (type : JobType) (data : Bytes) (sent : Bool)
  | reportLoad (n dst : Ip) (load : UInt32)
  /-- The `k`-th datagram in flight is handled; `sent` is the fate of a reply. -/
  | deliver (k : ℕ) (ticks : UInt64) (sent : Bool)
  | lose (k : ℕ)

namespace JobSystem

/-- `submit` on node `n` left it as `c` and sent `out`. -/
def afterSubmit (s : JobSystem) (n : Ip) (c : JobNode) (out : Option (Ip × Bytes)) : JobSystem where
  nodes := Function.update s.nodes n c
  inFlight := s.inFlight ++ (out.map fun (target, m) => ⟨n, target, m, some s.submissions⟩).toList
  submissions := s.submissions + 1
  sender := Function.update s.sender n
    (Function.update (s.sender n) (s.nodes n).djob.historyWrite (some s.submissions))

/-- Node `n` is now `c`, and these datagrams are in flight. -/
def setNode (s : JobSystem) (n : Ip) (c : JobNode) (inFlight : List JobPacket) : JobSystem :=
  { s with nodes := Function.update s.nodes n c, inFlight := inFlight }

def step (s : JobSystem) : JobOp → Option JobSystem
  | .submit n type data ticks localLoad sent =>
    ((s.nodes n).submit type data ticks localLoad sent).map fun (c, out) => s.afterSubmit n c out
  | .rjob n target type data sent =>
    let (c, out) := (s.nodes n).submitJob type data sent
    some (s.setNode n c (s.inFlight ++ (out.map fun m => ⟨n, target, m, none⟩).toList))
  | .reportLoad n dst load =>
    some { s with inFlight := s.inFlight ++ [⟨n, dst, loadMessage load, none⟩] }
  | .deliver k ticks sent =>
    s.inFlight[k]?.bind fun p =>
      ((s.nodes p.dst).handle p.src ticks (receive p.data)).map fun (c, reply) =>
        s.setNode p.dst c (s.inFlight.eraseIdx k ++
          if sent then (reply.map fun m => ⟨p.dst, p.src, m, p.request⟩).toList else [])
  | .lose k => some { s with inFlight := s.inFlight.eraseIdx k }

def Step (s : JobSystem) (op : JobOp) (t : JobSystem) : Prop := s.step op = some t

/-- The counters agree whenever a job goes to a peer, and neither has wrapped. -/
def CountersAgree (s : JobSystem) : JobOp → Prop
  | .submit n _ data ticks localLoad sent =>
    data.length ≤ 240 ∧ (s.nodes n).djob.nextJobId ≠ 0 ∧
      (((s.nodes n).djob.pickTarget localLoad ticks).1 ≠ 0 →
        (s.nodes n).nextJobId ≠ 0 ∧ ((s.nodes n).initialized = true → sent = true →
          (s.nodes n).djob.nextJobId = (s.nodes n).nextJobId))
  | .rjob n _ _ _ _ => (s.nodes n).nextJobId ≠ 0
  | _ => True

instance (s : JobSystem) (op : JobOp) : Decidable (s.CountersAgree op) := by
  cases op <;> unfold CountersAgree <;> infer_instance

abbrev job (s : JobSystem) (n : Ip) (i : Fin maxHistory) : Job := (s.nodes n).djob.history i

end JobSystem

/-! ## Identifiers -/

/-- One more than the largest identifier drawn so far, counting a wrapped counter as `2^32`. -/
def issued (next : UInt32) : ℕ := if next = 0 then 2 ^ 32 else next.toNat

theorem issued_of_ne {x : UInt32} (h : x ≠ 0) : issued x = x.toNat := if_neg h

theorem issued_add_one {x : UInt32} (h : x ≠ 0) : issued (x + 1) = x.toNat + 1 := by
  have hlt := x.toNat_lt
  have hpos : x.toNat ≠ 0 := fun h0 => h (UInt32.toNat_inj.mp h0)
  have hadd : (x + 1).toNat = (x.toNat + 1) % 2 ^ 32 := UInt32.toNat_add x 1
  unfold issued
  split
  · rename_i hwrap
    rw [hwrap] at hadd
    change 0 = _ at hadd
    omega
  · rename_i hwrap
    have hne : (x + 1).toNat ≠ 0 := fun h0 => hwrap (UInt32.toNat_inj.mp h0)
    omega

/-! ## What the functions of a node do -/

theorem findJob_some {d : DJob} {id : UInt32} {i : Fin maxHistory} (h : d.findJob id = some i) :
    (d.history i).id = id ∧ id ≠ 0 := by
  unfold DJob.findJob at h
  obtain ⟨hid, hne⟩ := of_decide_eq_true (Fin.find?_eq_some_iff.mp h).1
  exact ⟨hid, hid ▸ hne⟩

theorem findJob_ne_none {d : DJob} {id : UInt32} {i : Fin maxHistory} (hid : (d.history i).id = id)
    (hne : id ≠ 0) : d.findJob id ≠ none := by
  unfold DJob.findJob
  rw [Ne, Fin.find?_eq_none_iff]
  intro h
  have := h i
  simp [hid, hne] at this

/-- A job whose entry is set by a result. -/
def Job.complete (j : Job) (result : UInt32) (ticks : UInt64) : Job :=
  { j with result := result, status := .completed, completedAt := ticks }

/-- A result changes at most a running entry of its identifier. -/
theorem onRemoteResult_history (d : DJob) (id result : UInt32) (ticks : UInt64)
    (i : Fin maxHistory) :
    (d.onRemoteResult id result ticks).history i = d.history i ∨
      ((d.history i).id = id ∧ (d.history i).status = .running ∧
        (d.onRemoteResult id result ticks).history i = (d.history i).complete result ticks) := by
  unfold DJob.onRemoteResult
  cases hfind : d.findJob id with
  | none => exact .inl rfl
  | some k =>
    dsimp only
    split
    · by_cases hik : i = k
      · subst hik
        exact .inr ⟨(findJob_some hfind).1, by assumption, Function.update_self _ _ _⟩
      · exact .inl (Function.update_of_ne hik _ _)
    · exact .inl rfl

/-- Where identifiers are distinct, the running entry of the identifier is the one that is set. -/
theorem onRemoteResult_self {d : DJob} {id : UInt32} {i : Fin maxHistory} (result : UInt32)
    (ticks : UInt64)
    (hdistinct : ∀ k j, (d.history k).id ≠ 0 → (d.history k).id = (d.history j).id → k = j)
    (hid : (d.history i).id = id) (hne : id ≠ 0) (hrun : (d.history i).status = .running) :
    (d.onRemoteResult id result ticks).history =
      Function.update d.history i ((d.history i).complete result ticks) := by
  unfold DJob.onRemoteResult
  cases hfind : d.findJob id with
  | none => exact absurd hfind (findJob_ne_none hid hne)
  | some k =>
    obtain ⟨hk, -⟩ := findJob_some hfind
    obtain rfl : k = i := hdistinct k i (hk ▸ hne) (hk.trans hid.symm)
    simp only [hrun, if_true]
    rfl

theorem onRemoteResult_frame (d : DJob) (id result : UInt32) (ticks : UInt64) :
    (d.onRemoteResult id result ticks).nextJobId = d.nextJobId ∧
      (d.onRemoteResult id result ticks).initialized = d.initialized := by
  unfold DJob.onRemoteResult
  split
  · exact ⟨rfl, rfl⟩
  · split <;> exact ⟨rfl, rfl⟩

theorem updateNodeLoad_frame (d : DJob) (ip : Ip) (count : UInt32) (ticks : UInt64) :
    (d.updateNodeLoad ip count ticks).nextJobId = d.nextJobId ∧
      (d.updateNodeLoad ip count ticks).initialized = d.initialized ∧
      (d.updateNodeLoad ip count ticks).history = d.history := by
  unfold DJob.updateNodeLoad
  split
  · exact ⟨rfl, rfl, rfl⟩
  · split <;> exact ⟨rfl, rfl, rfl⟩

namespace JobNode

theorem submitJob_cases {c c' : JobNode} {type : JobType} {data : Bytes} {sent : Bool}
    {out : Option Bytes} (h : c.submitJob type data sent = (c', out)) :
    c'.djob = c.djob ∧ c'.initialized = c.initialized ∧
      ((out = none ∧ (c'.nextJobId = c.nextJobId ∨ c'.nextJobId = c.nextJobId + 1)) ∨
        (c.initialized = true ∧ sent = true ∧ data.length ≤ 240 ∧
          c'.nextJobId = c.nextJobId + 1 ∧ out = some (submitMessage c.nextJobId type data))) := by
  unfold submitJob at h
  split at h
  · obtain ⟨rfl, rfl⟩ := Prod.mk.inj h
    exact ⟨rfl, rfl, .inl ⟨rfl, .inl rfl⟩⟩
  · rename_i hguard
    obtain ⟨rfl, rfl⟩ := Prod.mk.inj h
    refine ⟨rfl, rfl, ?_⟩
    cases sent with
    | false => exact .inl ⟨rfl, .inr rfl⟩
    | true =>
      simp only [Bool.or_eq_true, Bool.not_eq_true', decide_eq_true_eq, not_or] at hguard
      exact .inr ⟨by simpa using hguard.1, rfl, by omega, rfl, rfl⟩

/-- Everything `submit` can do: run the job, fail to send it, or send it. -/
theorem submit_cases {c c' : JobNode} {type : JobType} {data : Bytes} {ticks : UInt64}
    {localLoad : UInt32} {sent : Bool} {out : Option (Ip × Bytes)}
    (h : c.submit type data ticks localLoad sent = some (c', out))
    (hready : c.djob.initialized = true) (hlen : data.length ≤ 240) :
    ∃ j : Job, c'.djob.history = Function.update c.djob.history c.djob.historyWrite j ∧
      c'.djob.nextJobId = c.djob.nextJobId + 1 ∧ c'.djob.initialized = true ∧
      j.id = c.djob.nextJobId ∧ j.type = type ∧ j.payload = data ∧ j.payloadLen = data.length ∧
      ((out = none ∧ j.status = .completed ∧ execute type data data.length = some j.result ∧
          c'.nextJobId = c.nextJobId) ∨
        ((c.djob.pickTarget localLoad ticks).1 ≠ 0 ∧ out = none ∧ j.status = .failed ∧
          (c'.nextJobId = c.nextJobId ∨ c'.nextJobId = c.nextJobId + 1)) ∨
        ((c.djob.pickTarget localLoad ticks).1 ≠ 0 ∧ c.initialized = true ∧ sent = true ∧
          j.status = .running ∧ c'.nextJobId = c.nextJobId + 1 ∧
          ∃ target, out = some (target, submitMessage c.nextJobId type data))) := by
  have hpayload : data.take maxPayload = data := List.take_of_length_le hlen
  unfold submit at h
  rw [if_neg (by simp [hready])] at h
  cases hpick : c.djob.pickTarget localLoad ticks with
  | mk target counter =>
    rw [hpick] at h
    dsimp only at h
    split at h
    · obtain ⟨result, hexec, heq⟩ := Option.map_eq_some_iff.mp h
      obtain ⟨rfl, rfl⟩ := Prod.mk.inj heq
      exact ⟨_, rfl, rfl, hready, rfl, rfl, hpayload, rfl, .inl ⟨rfl, rfl, hexec, rfl⟩⟩
    · rename_i htarget
      cases hsub : (c.drawId counter).submitJob type data sent with
      | mk d message =>
        obtain ⟨hdjob, hinit, hcases⟩ := submitJob_cases hsub
        rw [hsub] at h
        rcases hcases with ⟨rfl, hnext⟩ | ⟨hup, hsent, -, hnext, rfl⟩
        · obtain ⟨rfl, rfl⟩ := Prod.mk.inj (Option.some.inj h)
          refine ⟨c.newJob type data target ticks .failed 0, ?_, ?_, ?_, rfl, rfl, hpayload, rfl,
            .inr (.inl ⟨htarget, rfl, rfl, hnext⟩)⟩
          all_goals simp only [record, DJob.recordJob, hdjob]
          · rfl
          · rfl
          · exact hready
        · obtain ⟨rfl, rfl⟩ := Prod.mk.inj (Option.some.inj h)
          refine ⟨c.newJob type data target ticks .running 0, ?_, ?_, ?_, rfl, rfl, hpayload, rfl,
            .inr (.inr ⟨htarget, hup, hsent, rfl, hnext, target, rfl⟩)⟩
          all_goals simp only [record, DJob.recordJob, hdjob]
          · rfl
          · rfl
          · exact hready

end JobNode

/-! ## The invariant -/

namespace JobSystem

/-- A message about the request `id` of node `n`: any running entry of that identifier meets `P`,
and the entry of the `submit` call that made the request has that identifier. -/
structure Awaits (s : JobSystem) (n : Ip) (request : Option ℕ) (id : UInt32) (P : Job → Prop) :
    Prop where
  id_ne : id ≠ 0
  drawn : id.toNat < issued (s.nodes n).nextJobId
  entry : ∀ i, (s.job n i).status = .running → (s.job n i).id = id → P (s.job n i)
  own : ∀ i k, request = some k → s.sender n i = some k → (s.job n i).status = .running →
    (s.job n i).id = id

/-- The job of an entry is this one. -/
def IsJob (type : JobType) (data : Bytes) (j : Job) : Prop :=
  j.type = type ∧ j.payload = data ∧ j.payloadLen = data.length

def HasResult (result : UInt32) (j : Job) : Prop :=
  execute j.type j.payload j.payloadLen = some result

/-- The three kinds of datagram, and what each promises. -/
inductive Content (s : JobSystem) (p : JobPacket) : Prop
  | submit (id : UInt32) (type : JobType) (data : Bytes) (hlen : data.length ≤ 240)
      (hdata : p.data = submitMessage id type data)
      (h : s.Awaits p.src p.request id (IsJob type data))
  | result (id result : UInt32) (hdata : p.data = resultMessage id result)
      (h : s.Awaits p.dst p.request id (HasResult result))
  | load (count : UInt32) (hdata : p.data = loadMessage count)

structure Inv (s : JobSystem) : Prop where
  ready : ∀ n, (s.nodes n).djob.initialized = true
  correct : ∀ n i, (s.job n i).status = .completed → HasResult (s.job n i).result (s.job n i)
  ids : ∀ n i, (s.job n i).id ≠ 0 → (s.job n i).id.toNat < issued (s.nodes n).djob.nextJobId
  distinct : ∀ n i j, (s.job n i).id ≠ 0 → (s.job n i).id = (s.job n j).id → i = j
  awaited : ∀ n i, (s.job n i).status = .running →
    (s.job n i).id ≠ 0 ∧ (s.job n i).id.toNat < issued (s.nodes n).nextJobId
  senders : ∀ n i k, s.sender n i = some k → k < s.submissions
  requests : ∀ p ∈ s.inFlight, ∀ k, p.request = some k → k < s.submissions
  contents : ∀ p ∈ s.inFlight, s.Content p

theorem inv_boot (present : Ip → Bool) : (boot present).Inv where
  ready _ := rfl
  correct _ _ h := by cases h
  ids _ _ h := absurd rfl h
  distinct _ _ _ h := absurd rfl h
  awaited _ _ h := by cases h
  senders _ _ _ h := by cases h
  requests _ h := by cases h
  contents _ h := by cases h

/-- What a step may do to running entries: an entry stays, or it is new, with an identifier and a
`submit` call no earlier message can be about. -/
structure Later (s t : JobSystem) : Prop where
  drawn : ∀ n, issued (s.nodes n).nextJobId ≤ issued (t.nodes n).nextJobId
  running : ∀ n i, (t.job n i).status = .running →
    (t.job n i = s.job n i ∧ t.sender n i = s.sender n i) ∨
      (issued (s.nodes n).nextJobId ≤ (t.job n i).id.toNat ∧ t.sender n i = some s.submissions)

theorem Awaits.later {s t : JobSystem} {n : Ip} {request : Option ℕ} {id : UInt32}
    {P : Job → Prop} (h : s.Awaits n request id P)
    (hreq : ∀ k, request = some k → k < s.submissions) (hlater : s.Later t) :
    t.Awaits n request id P := by
  refine ⟨h.id_ne, h.drawn.trans_le (hlater.drawn n), fun i hrun hid => ?_,
    fun i k hk hsend hrun => ?_⟩
  · rcases hlater.running n i hrun with ⟨hjob, -⟩ | ⟨hnew, -⟩
    · rw [hjob] at hrun hid ⊢
      exact h.entry i hrun hid
    · have := h.drawn
      rw [hid] at hnew
      omega
  · rcases hlater.running n i hrun with ⟨hjob, hsender⟩ | ⟨-, hnew⟩
    · rw [hjob] at hrun ⊢
      exact h.own i k hk (hsender ▸ hsend) hrun
    · have := hreq k hk
      rw [hsend] at hnew
      have := Option.some.inj hnew
      omega

theorem Content.later {s t : JobSystem} {p : JobPacket} (h : s.Content p)
    (hreq : ∀ k, p.request = some k → k < s.submissions) (hlater : s.Later t) : t.Content p := by
  cases h with
  | submit id type data hlen hdata h => exact .submit id type data hlen hdata (h.later hreq hlater)
  | result id result hdata h => exact .result id result hdata (h.later hreq hlater)
  | load count hdata => exact .load count hdata

/-- Steps that leave histories, senders and counters alone. -/
theorem Later.of_eq {s t : JobSystem} (hnext : ∀ n, (t.nodes n).nextJobId = (s.nodes n).nextJobId)
    (hrun : ∀ n i, (t.job n i).status = .running → t.job n i = s.job n i)
    (hsender : t.sender = s.sender) : s.Later t :=
  ⟨fun n => by rw [hnext], fun n i h => .inl ⟨hrun n i h, by rw [hsender]⟩⟩

/-! ## Every step keeps it -/

/-- What `submit` on node `n` does to the nodes: slot `w` of its history now holds `j`. -/
structure Recorded (s t : JobSystem) (n : Ip) (w : Fin maxHistory) (j : Job) : Prop where
  job : t.job n w = j
  keep : ∀ i, i ≠ w → t.job n i = s.job n i
  nodes : ∀ m, m ≠ n → t.nodes m = s.nodes m
  ready : (t.nodes n).djob.initialized = true
  next : (t.nodes n).djob.nextJobId = (s.nodes n).djob.nextJobId + 1
  next_ne : (s.nodes n).djob.nextJobId ≠ 0
  id : j.id = (s.nodes n).djob.nextJobId
  drawn : issued (s.nodes n).nextJobId ≤ issued (t.nodes n).nextJobId
  running : j.status = .running → j.id = (s.nodes n).nextJobId ∧
    (t.nodes n).nextJobId = (s.nodes n).nextJobId + 1
  correct : j.status = .completed → HasResult j.result j
  sender : t.sender n w = some s.submissions
  senders : ∀ m i, ¬(m = n ∧ i = w) → t.sender m i = s.sender m i
  submissions : t.submissions = s.submissions + 1

namespace Recorded

variable {s t : JobSystem} {n : Ip} {w : Fin maxHistory} {j : Job}

/-- Every other entry is the one it was. -/
theorem job_eq (r : Recorded s t n w j) {m : Ip} {i : Fin maxHistory} (h : ¬(m = n ∧ i = w)) :
    t.job m i = s.job m i := by
  by_cases hm : m = n
  · subst hm
    exact r.keep i fun hi => h ⟨rfl, hi⟩
  · unfold JobSystem.job
    rw [r.nodes m hm]

theorem later (r : Recorded s t n w j) : s.Later t := by
  refine ⟨fun m => ?_, fun m i hrun => ?_⟩
  · by_cases hm : m = n
    · exact hm ▸ r.drawn
    · rw [r.nodes m hm]
  · by_cases h : m = n ∧ i = w
    · obtain ⟨rfl, rfl⟩ := h
      rw [r.job] at hrun
      have hid := (r.running hrun).1
      have hne : (s.nodes m).nextJobId ≠ 0 := hid ▸ r.id ▸ r.next_ne
      exact .inr ⟨by rw [r.job, hid, issued_of_ne hne], r.sender⟩
    · exact .inl ⟨r.job_eq h, r.senders m i h⟩

theorem ids (r : Recorded s t n w j) (h : s.Inv) (m : Ip) (i : Fin maxHistory)
    (hne : (t.job m i).id ≠ 0) : (t.job m i).id.toNat < issued (t.nodes m).djob.nextJobId := by
  by_cases hm : m = n
  · subst hm
    rw [r.next, issued_add_one r.next_ne]
    by_cases hi : i = w
    · rw [hi, r.job, r.id]
      omega
    · rw [r.keep i hi] at hne ⊢
      have := h.ids m i hne
      rw [issued_of_ne r.next_ne] at this
      omega
  · rw [r.job_eq fun hmn => hm hmn.1] at hne ⊢
    rw [r.nodes m hm]
    exact h.ids m i hne

/-- The new identifier is larger than those of the entries that stay. -/
theorem id_ne (r : Recorded s t n w j) (h : s.Inv) {i : Fin maxHistory} (hi : i ≠ w) :
    (t.job n i).id ≠ j.id := by
  intro heq
  rw [r.keep i hi] at heq
  have hlt := h.ids n i (by rw [heq, r.id]; exact r.next_ne)
  rw [heq, r.id, issued_of_ne r.next_ne] at hlt
  omega

theorem distinct (r : Recorded s t n w j) (h : s.Inv) (m : Ip) (i k : Fin maxHistory)
    (hne : (t.job m i).id ≠ 0) (heq : (t.job m i).id = (t.job m k).id) : i = k := by
  by_cases hm : m = n
  · subst hm
    refine unique_of_others (p := fun i => (t.job m i).id ≠ 0) (f := fun i => (t.job m i).id) w
      ?_ ?_ i k hne (heq ▸ hne) heq
    · intro i k hi hk hne _ heq
      rw [r.keep i hi] at hne heq
      rw [r.keep k hk] at heq
      exact h.distinct m i k hne heq
    · intro i hi _ _
      rw [r.job]
      exact r.id_ne h hi
  · rw [r.job_eq fun hmn => hm hmn.1] at hne heq
    rw [r.job_eq fun hmn => hm hmn.1] at heq
    exact h.distinct m i k hne heq

theorem awaited (r : Recorded s t n w j) (h : s.Inv) (m : Ip) (i : Fin maxHistory)
    (hrun : (t.job m i).status = .running) :
    (t.job m i).id ≠ 0 ∧ (t.job m i).id.toNat < issued (t.nodes m).nextJobId := by
  by_cases hmi : m = n ∧ i = w
  · obtain ⟨rfl, rfl⟩ := hmi
    rw [r.job] at hrun ⊢
    obtain ⟨hid, hnext⟩ := r.running hrun
    have hne : j.id ≠ 0 := r.id ▸ r.next_ne
    rw [hnext, ← hid, issued_add_one hne]
    exact ⟨hne, by omega⟩
  · rw [r.job_eq hmi] at hrun ⊢
    obtain ⟨hne, hlt⟩ := h.awaited m i hrun
    exact ⟨hne, hlt.trans_le (r.later.drawn m)⟩

theorem inv (r : Recorded s t n w j) (h : s.Inv)
    (hpackets : ∀ p ∈ t.inFlight, p ∈ s.inFlight ∨ p.request = some s.submissions ∧ t.Content p) :
    t.Inv where
  ready m := by
    by_cases hm : m = n
    · exact hm ▸ r.ready
    · rw [r.nodes m hm]
      exact h.ready m
  correct m i hstatus := by
    by_cases hmi : m = n ∧ i = w
    · obtain ⟨rfl, rfl⟩ := hmi
      rw [r.job] at hstatus ⊢
      exact r.correct hstatus
    · rw [r.job_eq hmi] at hstatus ⊢
      exact h.correct m i hstatus
  ids := r.ids h
  distinct := r.distinct h
  awaited := r.awaited h
  senders m i k hk := by
    rw [r.submissions]
    by_cases hmi : m = n ∧ i = w
    · obtain ⟨rfl, rfl⟩ := hmi
      rw [r.sender, Option.some_inj] at hk
      omega
    · rw [r.senders m i hmi] at hk
      have := h.senders m i k hk
      omega
  requests p hp k hk := by
    rw [r.submissions]
    rcases hpackets p hp with hp | ⟨hreq, -⟩
    · have := h.requests p hp k hk
      omega
    · rw [hreq, Option.some_inj] at hk
      omega
  contents p hp := by
    rcases hpackets p hp with hp | ⟨-, hcontent⟩
    · exact (h.contents p hp).later (h.requests p hp) r.later
    · exact hcontent

/-- The message of a job that was sent is about the new entry. -/
theorem awaits (r : Recorded s t n w j) (h : s.Inv) (hrun : j.status = .running)
    {P : Job → Prop} (hP : P j) :
    t.Awaits n (some s.submissions) (s.nodes n).nextJobId P := by
  obtain ⟨hid, hnext⟩ := r.running hrun
  have hne : (s.nodes n).nextJobId ≠ 0 := hid ▸ r.id ▸ r.next_ne
  refine ⟨hne, ?_, fun i hi heq => ?_, fun i k hk hsend hi => ?_⟩
  · rw [hnext, issued_add_one hne]
    omega
  · by_cases hiw : i = w
    · rwa [hiw, r.job]
    · exact absurd (heq.trans hid.symm) (r.id_ne h hiw)
  · by_cases hiw : i = w
    · rw [hiw, r.job, hid]
    · rw [r.senders n i fun hmi => hiw hmi.2] at hsend
      have := h.senders n i k hsend
      have := Option.some.inj hk
      omega

end Recorded

/-- The entry `submit` adds on a node whose counters agree, and the message it sends if the entry
is left running. -/
theorem recorded_submit {s : JobSystem} {n : Ip} {type : JobType} {data : Bytes} {ticks : UInt64}
    {localLoad : UInt32} {sent : Bool} {c : JobNode} {out : Option (Ip × Bytes)} (h : s.Inv)
    (hagree : s.CountersAgree (.submit n type data ticks localLoad sent))
    (hsub : (s.nodes n).submit type data ticks localLoad sent = some (c, out)) :
    ∃ j, Recorded s (s.afterSubmit n c out) n (s.nodes n).djob.historyWrite j ∧
      (j.type = type ∧ j.payload = data ∧ j.payloadLen = data.length) ∧
      (out = none ∨ j.status = .running ∧
        ∃ target, out = some (target, submitMessage (s.nodes n).nextJobId type data)) := by
  obtain ⟨hlen, hnext, hpeer⟩ := hagree
  obtain ⟨j, hhist, hdnext, hready, hid, htype, hpayload, hplen, hcases⟩ :=
    JobNode.submit_cases hsub (h.ready n) hlen
  have hdrawn : issued (s.nodes n).nextJobId ≤ issued c.nextJobId := by
    have hup : (s.nodes n).nextJobId ≠ 0 → c.nextJobId = (s.nodes n).nextJobId + 1 →
        issued (s.nodes n).nextJobId ≤ issued c.nextJobId := by
      intro hne heq
      rw [heq, issued_add_one hne, issued_of_ne hne]
      omega
    rcases hcases with ⟨-, -, -, heq⟩ | ⟨htarget, -, -, heq | heq⟩ | ⟨htarget, -, -, -, heq, -⟩
    · rw [heq]
    · rw [heq]
    · exact hup (hpeer htarget).1 heq
    · exact hup (hpeer htarget).1 heq
  -- The message carries the other counter, which agrees when it is sent.
  have hrun : j.status = .running → j.id = (s.nodes n).nextJobId ∧
      c.nextJobId = (s.nodes n).nextJobId + 1 := by
    intro hrun
    rcases hcases with ⟨-, hst, -⟩ | ⟨-, -, hst, -⟩ | ⟨htarget, hup, hsent, -, heq, -⟩
    · rw [hst] at hrun
      cases hrun
    · rw [hst] at hrun
      cases hrun
    · exact ⟨hid.trans ((hpeer htarget).2 hup hsent), heq⟩
  have hcorrect : j.status = .completed → HasResult j.result j := by
    intro hdone
    rcases hcases with ⟨-, -, hexec, -⟩ | ⟨-, -, hst, -⟩ | ⟨-, -, -, hst, -⟩
    · unfold HasResult
      rw [htype, hpayload, hplen, hexec]
    · rw [hst] at hdone
      cases hdone
    · rw [hst] at hdone
      cases hdone
  have hnode : (s.afterSubmit n c out).nodes n = c := Function.update_self _ _ _
  have hsender : (s.afterSubmit n c out).sender n =
      Function.update (s.sender n) (s.nodes n).djob.historyWrite (some s.submissions) :=
    Function.update_self _ _ _
  refine ⟨j, ?_, ⟨htype, hpayload, hplen⟩, ?_⟩
  · refine ⟨?_, fun i hi => ?_, fun m hm => Function.update_of_ne hm _ _, ?_, ?_, hnext, hid, ?_,
      ?_, hcorrect, ?_, fun m i hmi => ?_, rfl⟩
    · rw [JobSystem.job, hnode, hhist, Function.update_self]
    · rw [JobSystem.job, hnode, hhist, Function.update_of_ne hi]
    · rwa [hnode]
    · rwa [hnode]
    · rwa [hnode]
    · rwa [hnode]
    · rw [hsender, Function.update_self]
    · by_cases hm : m = n
      · rw [hm, hsender, Function.update_of_ne fun hi => hmi ⟨hm, hi⟩]
      · exact congrFun (Function.update_of_ne hm _ _) i
  · rcases hcases with ⟨hnone, -⟩ | ⟨-, hnone, -⟩ | ⟨-, -, -, hst, -, hout⟩
    · exact .inl hnone
    · exact .inl hnone
    · exact .inr ⟨hst, hout⟩

theorem inv_submit {s t : JobSystem} {n : Ip} {type : JobType} {data : Bytes} {ticks : UInt64}
    {localLoad : UInt32} {sent : Bool} (h : s.Inv)
    (hagree : s.CountersAgree (.submit n type data ticks localLoad sent))
    (hstep : s.step (.submit n type data ticks localLoad sent) = some t) : t.Inv := by
  obtain ⟨⟨c, out⟩, hsub, rfl⟩ := Option.map_eq_some_iff.mp hstep
  obtain ⟨j, hrec, hjob, hout⟩ := recorded_submit h hagree hsub
  refine hrec.inv h fun p hp => ?_
  rcases List.mem_append.mp hp with hp | hp
  · exact .inl hp
  right
  rcases hout with rfl | ⟨hst, target, rfl⟩
  · cases hp
  · obtain rfl := List.mem_singleton.mp hp
    exact ⟨rfl, .submit _ type data hagree.1 rfl (hrec.awaits h hst hjob)⟩

/-- What every other step does to the nodes: counters grow, and an entry stays as it is or is
completed with its own result. -/
structure Quiet (s t : JobSystem) : Prop where
  ready : ∀ n, (t.nodes n).djob.initialized = (s.nodes n).djob.initialized
  next : ∀ n, (t.nodes n).djob.nextJobId = (s.nodes n).djob.nextJobId
  drawn : ∀ n, issued (s.nodes n).nextJobId ≤ issued (t.nodes n).nextJobId
  job : ∀ n i, t.job n i = s.job n i ∨ ∃ result ticks,
    t.job n i = (s.job n i).complete result ticks ∧ HasResult result (s.job n i)
  sender : t.sender = s.sender
  submissions : t.submissions = s.submissions

namespace Quiet

variable {s t : JobSystem}

theorem id (q : s.Quiet t) (n : Ip) (i : Fin maxHistory) : (t.job n i).id = (s.job n i).id := by
  rcases q.job n i with h | ⟨result, ticks, h, -⟩
  · rw [h]
  · rw [h]
    rfl

theorem running (q : s.Quiet t) {n : Ip} {i : Fin maxHistory} (h : (t.job n i).status = .running) :
    t.job n i = s.job n i := by
  rcases q.job n i with heq | ⟨result, ticks, heq, -⟩
  · exact heq
  · rw [heq] at h
    cases h

theorem later (q : s.Quiet t) : s.Later t :=
  ⟨q.drawn, fun _ _ h => .inl ⟨q.running h, by rw [q.sender]⟩⟩

/-- Only node `n` changes, in one of the ways described. -/
theorem setNode {n : Ip} {c : JobNode} {inFlight : List JobPacket}
    (hready : c.djob.initialized = (s.nodes n).djob.initialized)
    (hnext : c.djob.nextJobId = (s.nodes n).djob.nextJobId)
    (hdrawn : issued (s.nodes n).nextJobId ≤ issued c.nextJobId)
    (hjob : ∀ i, c.djob.history i = s.job n i ∨ ∃ result ticks,
      c.djob.history i = (s.job n i).complete result ticks ∧ HasResult result (s.job n i)) :
    s.Quiet (s.setNode n c inFlight) := by
  have hself : (s.setNode n c inFlight).nodes n = c := Function.update_self _ _ _
  have hother : ∀ m, m ≠ n → (s.setNode n c inFlight).nodes m = s.nodes m := fun m hm =>
    Function.update_of_ne hm _ _
  refine ⟨fun m => ?_, fun m => ?_, fun m => ?_, fun m i => ?_, rfl, rfl⟩
  all_goals by_cases hm : m = n
  · rw [hm, hself, hready]
  · rw [hother m hm]
  · rw [hm, hself, hnext]
  · rw [hother m hm]
  · rw [hm, hself]
    exact hdrawn
  · rw [hother m hm]
  · rw [hm, JobSystem.job, hself]
    exact hjob i
  · rw [JobSystem.job, hother m hm]
    exact .inl rfl

theorem inv (q : s.Quiet t) (h : s.Inv)
    (hpackets : ∀ p ∈ t.inFlight, p ∈ s.inFlight ∨
      (∀ k, p.request = some k → k < s.submissions) ∧ t.Content p) : t.Inv where
  ready n := (q.ready n).trans (h.ready n)
  correct n i hdone := by
    rcases q.job n i with heq | ⟨result, ticks, heq, hresult⟩
    · rw [heq] at hdone ⊢
      exact h.correct n i hdone
    · rw [heq]
      exact hresult
  ids n i hne := by
    rw [q.id] at hne ⊢
    rw [q.next]
    exact h.ids n i hne
  distinct n i j hne heq := by
    rw [q.id] at hne heq
    rw [q.id] at heq
    exact h.distinct n i j hne heq
  awaited n i hrun := by
    have heq := q.running hrun
    rw [heq] at hrun ⊢
    obtain ⟨hne, hlt⟩ := h.awaited n i hrun
    exact ⟨hne, hlt.trans_le (q.drawn n)⟩
  senders n i k hk := by
    rw [q.sender] at hk
    exact q.submissions ▸ h.senders n i k hk
  requests p hp k hk := by
    rw [q.submissions]
    rcases hpackets p hp with hp | ⟨hreq, -⟩
    · exact h.requests p hp k hk
    · exact hreq k hk
  contents p hp := by
    rcases hpackets p hp with hp | ⟨-, hcontent⟩
    · exact (h.contents p hp).later (h.requests p hp) q.later
    · exact hcontent

end Quiet

theorem inv_rjob {s t : JobSystem} {n target : Ip} {type : JobType} {data : Bytes} {sent : Bool}
    (h : s.Inv) (hagree : s.CountersAgree (.rjob n target type data sent))
    (hstep : s.step (.rjob n target type data sent) = some t) : t.Inv := by
  have hne : (s.nodes n).nextJobId ≠ 0 := hagree
  cases hsub : (s.nodes n).submitJob type data sent with
  | mk c out =>
    obtain ⟨hdjob, -, hcases⟩ := JobNode.submitJob_cases hsub
    rw [step, hsub] at hstep
    obtain rfl := Option.some.inj hstep
    have hdrawn : issued (s.nodes n).nextJobId ≤ issued c.nextJobId := by
      have hnext : c.nextJobId = (s.nodes n).nextJobId ∨
          c.nextJobId = (s.nodes n).nextJobId + 1 := by
        rcases hcases with ⟨-, hnext⟩ | ⟨-, -, -, hnext, -⟩
        · exact hnext
        · exact .inr hnext
      rcases hnext with hnext | hnext
      · rw [hnext]
      · rw [hnext, issued_add_one hne, issued_of_ne hne]
        omega
    refine (Quiet.setNode ?_ ?_ hdrawn fun i => .inl ?_).inv h fun p hp => ?_
    · rw [hdjob]
    · rw [hdjob]
    · rw [hdjob]
    rcases List.mem_append.mp hp with hp | hp
    · exact .inl hp
    rcases hcases with ⟨rfl, -⟩ | ⟨-, -, hlen, hnext, rfl⟩
    · cases hp
    obtain rfl := List.mem_singleton.mp hp
    have hself : ∀ fl, (s.setNode n c fl).nodes n = c := fun fl => Function.update_self _ _ _
    refine .inr ⟨fun k hk => (by cases hk), .submit _ type data hlen rfl ⟨hne, ?_, ?_, ?_⟩⟩
    · rw [hself, hnext, issued_add_one hne]
      omega
    · -- No running entry has the identifier that was just drawn.
      intro i hrun hid
      rw [job, hself, hdjob] at hrun hid
      have hlt := (h.awaited n i hrun).2
      rw [hid, issued_of_ne hne] at hlt
      omega
    · intro i k hk
      cases hk

/-- A received job is executed as the entry that asked for it would be. -/
theorem executeJob_submit (id : UInt32) (type : JobType) (data : Bytes) :
    JobNode.executeJob (le32 id ++ type :: data) =
      (execute type data data.length).map fun result => some (resultMessage id result) := by
  have hlen := length_jobPayload id type data
  unfold JobNode.executeJob
  rw [if_neg (by omega), hlen, drop_four_jobPayload, drop_five_jobPayload, readLe32_append]
  rfl

theorem inv_deliver {s t : JobSystem} {k : ℕ} {ticks : UInt64} {sent : Bool} (h : s.Inv)
    (hstep : s.step (.deliver k ticks sent) = some t) : t.Inv := by
  obtain ⟨p, hp, hstep⟩ := Option.bind_eq_some_iff.mp hstep
  obtain ⟨⟨c, reply⟩, hhandle, rfl⟩ := Option.map_eq_some_iff.mp hstep
  have hmem : p ∈ s.inFlight := List.mem_of_getElem? hp
  have hreq := h.requests p hmem
  have hold : ∀ q ∈ s.inFlight.eraseIdx k, q ∈ s.inFlight := fun q hq => List.mem_of_mem_eraseIdx hq
  cases h.contents p hmem with
  | submit id type data hlen hdata hawait =>
    -- The node does not change; the reply carries the result of the job.
    rw [hdata, receive_submitMessage id type hlen, JobNode.handle, executeJob_submit] at hhandle
    obtain ⟨out, hout, heq⟩ := Option.map_eq_some_iff.mp hhandle
    obtain ⟨result, hexec, rfl⟩ := Option.map_eq_some_iff.mp hout
    obtain ⟨rfl, rfl⟩ := Prod.mk.inj heq
    have q : s.Quiet (s.setNode p.dst (s.nodes p.dst) (s.inFlight.eraseIdx k ++ if sent then
        [⟨p.dst, p.src, resultMessage id result, p.request⟩] else [])) :=
      Quiet.setNode rfl rfl le_rfl fun _ => .inl rfl
    refine q.inv h fun r hr => ?_
    rcases List.mem_append.mp hr with hr | hr
    · exact .inl (hold r hr)
    · cases sent with
      | false => cases hr
      | true =>
        obtain rfl := List.mem_singleton.mp hr
        refine .inr ⟨hreq, .result id result rfl (Awaits.later ?_ hreq q.later)⟩
        refine { hawait with entry := fun i hrun hid => ?_ }
        obtain ⟨htype, hpayload, hplen⟩ := hawait.entry i hrun hid
        unfold HasResult
        rw [htype, hpayload, hplen, hexec]
  | result id result hdata hawait =>
    rw [hdata, receive_resultMessage] at hhandle
    obtain ⟨rfl, rfl⟩ := Prod.mk.inj (Option.some.inj hhandle)
    obtain ⟨hnext, hready⟩ := onRemoteResult_frame (s.nodes p.dst).djob id result ticks
    refine Quiet.inv (Quiet.setNode hready hnext le_rfl fun i => ?_) h fun r hr => ?_
    · refine (onRemoteResult_history (s.nodes p.dst).djob id result ticks i).imp
        (fun heq => heq) ?_
      rintro ⟨hid, hrun, heq⟩
      exact ⟨result, ticks, heq, hawait.entry i hrun hid⟩
    · rcases List.mem_append.mp hr with hr | hr
      · exact .inl (hold r hr)
      · cases sent <;> cases hr
  | load count hdata =>
    rw [hdata, receive_loadMessage] at hhandle
    obtain ⟨rfl, rfl⟩ := Prod.mk.inj (Option.some.inj hhandle)
    obtain ⟨hnext, hready, hhist⟩ := updateNodeLoad_frame (s.nodes p.dst).djob p.src count ticks
    refine Quiet.inv (Quiet.setNode hready hnext le_rfl fun i => .inl ?_) h fun r hr => ?_
    · exact congrFun hhist i
    · rcases List.mem_append.mp hr with hr | hr
      · exact .inl (hold r hr)
      · cases sent <;> cases hr

theorem inv_step {s t : JobSystem} {op : JobOp} (h : s.Inv) (hagree : s.CountersAgree op)
    (hstep : s.Step op t) : t.Inv := by
  have hflight : ∀ {inFlight}, (∀ p ∈ inFlight, p ∈ s.inFlight ∨ p.request = none ∧
      s.Content p) → JobSystem.Inv { s with inFlight := inFlight } := by
    intro inFlight hin
    refine Quiet.inv (s := s) ⟨fun _ => rfl, fun _ => rfl, fun _ => le_rfl, fun _ _ => .inl rfl,
      rfl, rfl⟩ h fun p hp => (hin p hp).imp id fun ⟨hreq, hcontent⟩ => ?_
    have hnone : ∀ k, p.request = some k → k < s.submissions := by
      intro k hk
      rw [hreq] at hk
      cases hk
    exact ⟨hnone, hcontent.later hnone (Later.of_eq (fun _ => rfl) (fun _ _ _ => rfl) rfl)⟩
  cases op with
  | submit n type data ticks localLoad sent => exact inv_submit h hagree hstep
  | rjob n target type data sent => exact inv_rjob h hagree hstep
  | deliver k ticks sent => exact inv_deliver h hstep
  | reportLoad n dst load =>
    obtain rfl := Option.some.inj hstep
    refine hflight fun p hp => (List.mem_append.mp hp).imp id fun hp => ?_
    obtain rfl := List.mem_singleton.mp hp
    exact ⟨rfl, .load load rfl⟩
  | lose k =>
    obtain rfl := Option.some.inj hstep
    exact hflight fun p hp => .inl (List.mem_of_mem_eraseIdx hp)

theorem inv_of_run {present : Ip → Bool} {s : JobSystem} {ops : List JobOp}
    (h : Run (Where CountersAgree Step) (boot present) ops s) : s.Inv :=
  h.invariant Inv (inv_boot present) fun _ _ _ hinv hstep => inv_step hinv hstep.1 hstep.2

/-! ## The result -/

/-- Every completed entry holds the result of its own job. -/
def ResultsCorrect (s : JobSystem) : Prop :=
  ∀ n i, (s.job n i).status = .completed →
    execute (s.job n i).type (s.job n i).payload (s.job n i).payloadLen = some (s.job n i).result

/-- When node `n` handles the answer to the request that the running entry `i` sent, exactly that
entry becomes completed. -/
def CompletesOwn (s : JobSystem) : Prop :=
  ∀ k ticks sent t p r id result i, s.inFlight[k]? = some p → p.request = some r →
    receive p.data = .jobResult id result → s.sender p.dst i = some r →
    (s.job p.dst i).status = .running → s.Step (.deliver k ticks sent) t →
    t.job p.dst i = (s.job p.dst i).complete result ticks ∧
      ∀ m j, ¬(m = p.dst ∧ j = i) → t.job m j = s.job m j

theorem Inv.completesOwn {s : JobSystem} (h : s.Inv) : s.CompletesOwn := by
  intro k ticks sent t p r id result i hp hreq hrec hsend hrun hstep
  obtain ⟨p', hp', hstep⟩ := Option.bind_eq_some_iff.mp hstep
  obtain rfl : p = p' := Option.some.inj (hp.symm.trans hp')
  obtain ⟨⟨c, reply⟩, hhandle, rfl⟩ := Option.map_eq_some_iff.mp hstep
  rw [hrec] at hhandle
  obtain ⟨rfl, rfl⟩ := Prod.mk.inj (Option.some.inj hhandle)
  have hawait : s.Awaits p.dst p.request id (HasResult result) := by
    cases h.contents p (List.mem_of_getElem? hp) with
    | submit id' type data hlen hdata hawait =>
      rw [hdata, receive_submitMessage id' type hlen] at hrec
      cases hrec
    | result id' result' hdata hawait =>
      rw [hdata, receive_resultMessage] at hrec
      cases hrec
      exact hawait
    | load count hdata =>
      rw [hdata, receive_loadMessage] at hrec
      cases hrec
  have hid := hawait.own i r hreq hsend hrun
  have hself := onRemoteResult_self result ticks (h.distinct p.dst) hid hawait.id_ne hrun
  refine ⟨?_, fun m j hmj => ?_⟩
  · simp only [job, setNode, Function.update_self, hself]
  · by_cases hm : m = p.dst
    · subst hm
      have hj : j ≠ i := fun hj => hmj ⟨rfl, hj⟩
      simp only [job, setNode, Function.update_self, hself, Function.update_of_ne hj]
    · simp only [job, setNode, Function.update_of_ne hm]

/-- In every run in which the counters agree, completed entries hold their own results, and each
result completes the entry that asked for it. -/
theorem results_reach_their_jobs (present : Ip → Bool) (ops : List JobOp) (s : JobSystem)
    (hrun : Run (Where CountersAgree Step) (boot present) ops s) :
    s.ResultsCorrect ∧ s.CompletesOwn :=
  ⟨(inv_of_run hrun).correct, (inv_of_run hrun).completesOwn⟩

/-- Node 2 reports no load, node 1 sends it a job and gets the result. -/
def answeredOps : List JobOp :=
  [.reportLoad 2 1 0, .deliver 0 0 true, .submit 1 jobEcho [9] 0 5 true, .deliver 0 0 true,
    .deliver 0 0 true]

theorem results_reach_their_jobs_answered :
    ∃ s, Run Step (boot fun _ => true) answeredOps s ∧ s.ResultsCorrect ∧ s.CompletesOwn := by
  have hok : (exec (guarded CountersAgree step) (boot fun _ => true) answeredOps).isSome = true := by
    decide +kernel
  have hrun : Run (Where CountersAgree Step) (boot fun _ => true) answeredOps _ := run_where_get hok
  exact ⟨_, hrun.of_where, results_reach_their_jobs (fun _ => true) answeredOps _ hrun⟩

/-- A local job first: then node 1 sends its jobs 2 and 3 under the identifiers 1 and 2. Node 2 has
answered the second of them. -/
def crossedOps : List JobOp :=
  [.submit 1 jobEcho [] 0 5 true, .reportLoad 2 1 0, .deliver 0 0 true,
    .submit 1 jobEcho [9] 0 5 true, .submit 1 jobEcho [9, 9] 0 5 true, .deliver 1 0 true]

@[irreducible] def crossed : JobSystem :=
  (exec step (boot fun _ => true) crossedOps).get (by decide +kernel)

theorem crossed_run : Run Step (boot fun _ => true) crossedOps crossed := by
  unfold crossed
  exact run_get _

@[irreducible] def crossedNext : JobSystem :=
  (crossed.step (.deliver 1 0 true)).get (by decide +kernel)

theorem crossedNext_step : crossed.Step (.deliver 1 0 true) crossedNext := by
  unfold crossedNext
  exact (Option.some_get _).symm

/-- The answer to job 3 completes job 2, with a result that is not its own. -/
theorem crossed_result_completes_other_job :
    Run Step (boot fun _ => true) crossedOps crossed ∧ ¬crossed.CompletesOwn ∧
      crossed.Step (.deliver 1 0 true) crossedNext ∧ ¬crossedNext.ResultsCorrect := by
  refine ⟨crossed_run, fun hown => ?_, crossedNext_step, fun hcorrect => ?_⟩
  · obtain ⟨hself, -⟩ := hown 1 0 true crossedNext
      ⟨2, 1, resultMessage 2 2, some 2⟩ 2 2 2 2 (by decide +kernel) rfl (by decide +kernel)
      (by decide +kernel) (by decide +kernel) crossedNext_step
    have hstatus : (crossedNext.job 1 2).status = .running := by decide +kernel
    have hcompleted := congrArg Job.status hself
    rw [hstatus] at hcompleted
    cases hcompleted
  · have hdone : (crossedNext.job 1 1).status = .completed := by decide +kernel
    have hwrong : execute (crossedNext.job 1 1).type (crossedNext.job 1 1).payload
        (crossedNext.job 1 1).payloadLen ≠ some (crossedNext.job 1 1).result := by decide +kernel
    exact hwrong (hcorrect 1 1 hdone)

end JobSystem

end QuillOS.Cluster
