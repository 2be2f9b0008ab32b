import QuillOS.Cluster.Heartbeat
import QuillOS.Cluster.History

/-!
# Load reports

`update_node_load` keeps one entry for each address that ever reported. Peers expire and make room
in the peer table, while their loads stay; after eight reporters the report of a new peer is lost.
-/

namespace QuillOS.Cluster

open Lib

/-! ## The load table -/

/-- The address has an entry, or one is free. -/
abbrev DJob.HasRoom (d : DJob) (ip : Ip) : Prop :=
  Slots.HasRoom NodeLoad.valid NodeLoad.ip d.nodeLoads ip

/-- No address has two valid entries. -/
abbrev DJob.DistinctLoads (d : DJob) : Prop :=
  Slots.Distinct NodeLoad.valid NodeLoad.ip d.nodeLoads

/-- The table holds exactly one entry for the address, with this load at this time, and
`pick_target` considers it. -/
def DJob.Reported (d : DJob) (ip : Ip) (count : UInt32) (ticks : UInt64) : Prop :=
  ∃ i, d.nodeLoads i = { ip := ip, taskCount := count, lastUpdated := ticks, valid := true } ∧
    (∀ j, (d.nodeLoads j).valid = true → (d.nodeLoads j).ip = ip → j = i) ∧
    d.nodeLoads i ∈ d.candidates ticks

theorem keeps_load (ip : Ip) (count : UInt32) (ticks : UInt64) :
    Slots.Keeps NodeLoad.valid NodeLoad.ip
      (fun e => { e with taskCount := count, lastUpdated := ticks })
      (fun _ => { ip := ip, taskCount := count, lastUpdated := ticks, valid := true }) ip where
  refresh_used _ := rfl
  refresh_key _ := rfl
  fill_used _ := rfl
  fill_key _ := rfl

/-- `update_node_load` is the general operation on a table of slots. -/
theorem updateNodeLoad_table (d : DJob) (ip : Ip) (count : UInt32) (ticks : UInt64) :
    (d.updateNodeLoad ip count ticks).nodeLoads =
      Slots.store NodeLoad.valid NodeLoad.ip
        (fun e => { e with taskCount := count, lastUpdated := ticks })
        (fun _ => { ip := ip, taskCount := count, lastUpdated := ticks, valid := true })
        d.nodeLoads ip := by
  unfold DJob.updateNodeLoad Slots.store Slots.find Slots.findFree
  cases Fin.find? fun i => (d.nodeLoads i).valid && (d.nodeLoads i).ip == ip with
  | some i => rfl
  | none => cases Fin.find? fun i => !(d.nodeLoads i).valid <;> rfl

theorem updateNodeLoad_distinct {d : DJob} (h : d.DistinctLoads) (ip : Ip) (count : UInt32)
    (ticks : UInt64) : (d.updateNodeLoad ip count ticks).DistinctLoads := by
  unfold DJob.DistinctLoads
  rw [updateNodeLoad_table]
  exact h.store (keeps_load ip count ticks)

/-- A report counts exactly when there is room for it. -/
theorem reported_iff {d : DJob} (h : d.DistinctLoads) (ip : Ip) (count : UInt32) (ticks : UInt64) :
    (d.updateNodeLoad ip count ticks).Reported ip count ticks ↔ d.HasRoom ip := by
  have hdistinct := updateNodeLoad_distinct h ip count ticks
  constructor
  · rintro ⟨i, hi, -⟩
    by_contra hno
    rw [updateNodeLoad_table, Slots.store_of_not_hasRoom hno] at hi
    exact hno (.inl ⟨i, by rw [hi], by rw [hi]⟩)
  · intro hroom
    obtain ⟨i, hused, hkey, hor⟩ := Slots.store_self (keeps_load ip count ticks) hroom
    rw [← updateNodeLoad_table] at hused hkey hor
    have hi : (d.updateNodeLoad ip count ticks).nodeLoads i =
        { ip := ip, taskCount := count, lastUpdated := ticks, valid := true } := by
      generalize (d.updateNodeLoad ip count ticks).nodeLoads i = e at hused hkey hor
      rcases hor with rfl | rfl
      · dsimp only at hused hkey ⊢
        rw [hused, hkey]
      · rfl
    refine ⟨i, hi, fun j hj hjip => hdistinct j i hj hused (hjip.trans hkey.symm), ?_⟩
    unfold DJob.candidates
    rw [List.mem_filter]
    exact ⟨List.mem_map_of_mem (List.mem_finRange i), by simp [hi]⟩

/-! ## Runs -/

/-- Load reports are the messages that reach the load table. -/
theorem JobNode.handle_loads_cases {c c' : JobNode} {srcIp : Ip} {ticks : UInt64} {m : Received}
    {reply : Option Bytes} (h : c.handle srcIp ticks m = some (c', reply)) :
    (∃ count, m = .loadReport count ∧ c'.djob = c.djob.updateNodeLoad srcIp count ticks) ∨
      ((∀ count, m ≠ .loadReport count) ∧ c'.djob.nodeLoads = c.djob.nodeLoads) := by
  cases m with
  | loadReport count =>
    obtain ⟨rfl, -⟩ := Prod.mk.inj (Option.some.inj h)
    exact .inl ⟨count, rfl, rfl⟩
  | jobResult rid rval =>
    obtain ⟨rfl, -⟩ := Prod.mk.inj (Option.some.inj h)
    refine .inr ⟨fun count hm => Received.noConfusion hm, ?_⟩
    rcases onRemoteResult_cases c.djob rid rval ticks with heq | ⟨i, -, -, heq⟩
    all_goals simp only [heq]
  | jobSubmit payload =>
    obtain ⟨reply, -, heq⟩ := Option.map_eq_some_iff.mp h
    obtain ⟨rfl, -⟩ := Prod.mk.inj heq
    exact .inr ⟨fun count hm => Received.noConfusion hm, rfl⟩
  | _ =>
    obtain ⟨rfl, -⟩ := Prod.mk.inj (Option.some.inj h)
    exact .inr ⟨fun count hm => Received.noConfusion hm, rfl⟩

theorem ClusterNode.handle_loads_cases {s s' : ClusterNode} {srcIp : Ip} {ticks : UInt64}
    {m : Received} {reply : Option Bytes} (h : s.handle srcIp ticks m = some (s', reply)) :
    (∃ count, m = .loadReport count ∧
        s'.jobs.djob = s.jobs.djob.updateNodeLoad srcIp count ticks) ∨
      ((∀ count, m ≠ .loadReport count) ∧
        s'.jobs.djob.nodeLoads = s.jobs.djob.nodeLoads) := by
  unfold handle at h
  split at h
  · obtain ⟨rfl, -⟩ := Prod.mk.inj (Option.some.inj h)
    exact .inr ⟨fun count hm => Received.noConfusion hm, rfl⟩
  · obtain ⟨rfl, -⟩ := Prod.mk.inj (Option.some.inj h)
    exact .inr ⟨fun count hm => Received.noConfusion hm, rfl⟩
  · obtain ⟨⟨jobs, _⟩, hjobs, h⟩ := Option.bind_eq_some_iff.mp h
    obtain ⟨⟨procs, _⟩, -, h⟩ := Option.bind_eq_some_iff.mp h
    obtain ⟨rfl, -⟩ := Prod.mk.inj (Option.some.inj h)
    exact JobNode.handle_loads_cases hjobs

namespace NodeRun

abbrev djob (s : NodeRun) : DJob := s.node.jobs.djob

theorem distinctLoads_step {s t : NodeRun} {e : NodeEvent} (h : s.djob.DistinctLoads)
    (hstep : s.Step e t) : t.djob.DistinctLoads := by
  cases e with
  | datagram src data =>
    obtain ⟨⟨node, reply⟩, hhandle, rfl⟩ := Option.map_eq_some_iff.mp hstep
    rcases ClusterNode.handle_loads_cases hhandle with ⟨count, -, hdjob⟩ | ⟨-, hloads⟩
    · simp only [djob, hdjob]
      exact updateNodeLoad_distinct h src count s.ticks
    · simpa only [DJob.DistinctLoads, djob, hloads] using h
  | expire =>
    obtain rfl := Option.some.inj hstep
    exact h
  | pass d =>
    obtain rfl := Option.some.inj hstep
    exact h

theorem distinctLoads_of_run {node : ClusterNode} {localIp : Ip} {now : ℕ}
    {events : List NodeEvent} {s : NodeRun}
    (hrun : Run Step (boot node localIp now) events s) : s.djob.DistinctLoads :=
  hrun.invariant (fun s => s.djob.DistinctLoads) (fun _ _ hi => absurd hi Bool.false_ne_true)
    fun _ _ _ => distinctLoads_step

/-- The address is that of an active peer. -/
def IsPeer (s : NodeRun) (ip : Ip) : Prop := ∃ i, (s.peer i).active = true ∧ (s.peer i).ip = ip

/-- When a load report from an active peer is handled, there is room for it. -/
def ReportFits (s : NodeRun) : NodeEvent → Prop
  | .datagram src data => s.IsPeer src → (∃ count, receive data = .loadReport count) →
      s.djob.HasRoom src
  | _ => True

/-- A report of an active peer that is handled counts. -/
def ReportCounts (s : NodeRun) : NodeEvent → NodeRun → Prop
  | .datagram src data, t => s.IsPeer src → ∀ count, receive data = .loadReport count →
      t.djob.Reported src count s.ticks
  | _, _ => True

/-- After any run a report of an active peer counts exactly when its address has an entry in the
load table, or an entry is free. -/
theorem load_report_counts_iff (node : ClusterNode) (localIp : Ip) (now : ℕ)
    (events : List NodeEvent) (s t : NodeRun) (e : NodeEvent)
    (hrun : Run Step (boot node localIp now) events s) (hstep : s.Step e t) :
    s.ReportCounts e t ↔ s.ReportFits e := by
  have hdistinct := distinctLoads_of_run hrun
  cases e with
  | datagram src data =>
    obtain ⟨⟨n, reply⟩, hhandle, rfl⟩ := Option.map_eq_some_iff.mp hstep
    rcases ClusterNode.handle_loads_cases hhandle with ⟨count, hm, hdjob⟩ | ⟨hno, -⟩
    · have hiff := reported_iff hdistinct src count s.ticks
      rw [djob, ← hdjob] at hiff
      constructor
      · exact fun h hpeer _ => hiff.mp (h hpeer count hm)
      · intro h hpeer count' hm'
        obtain rfl : count' = count := Received.loadReport.inj (hm'.symm.trans hm)
        exact hiff.mpr (h hpeer ⟨count', hm⟩)
    · exact iff_of_true (fun _ count hm => absurd hm (hno count))
        fun _ ⟨count, hm⟩ => absurd hm (hno count)
  | expire => exact Iff.rfl
  | pass d => exact Iff.rfl

/-- A peer is discovered. -/
@[irreducible] def joined : NodeRun :=
  (exec step (boot freshNode 1 0) [.datagram 2 (discoverMessage [98])]).get (by decide +kernel)

@[irreducible] def joinedNext : NodeRun :=
  (joined.step (.datagram 2 (loadMessage 3))).get (by decide +kernel)

theorem load_report_counts_iff_joined :
    joined.ReportCounts (.datagram 2 (loadMessage 3)) joinedNext ↔
      joined.ReportFits (.datagram 2 (loadMessage 3)) := by
  have hrun : Run Step (boot freshNode 1 0) [.datagram 2 (discoverMessage [98])] joined := by
    unfold joined
    exact run_get _
  have hstep : joined.Step (.datagram 2 (loadMessage 3)) joinedNext := by
    unfold joinedNext
    exact (Option.some_get _).symm
  exact load_report_counts_iff freshNode 1 0 [.datagram 2 (discoverMessage [98])] joined joinedNext
    (.datagram 2 (loadMessage 3)) hrun hstep

/-- Eight peers report their loads and expire, then another one is discovered. -/
def crowdedEvents : List NodeEvent :=
  ((List.range 8).flatMap fun k =>
    [.datagram (UInt32.ofNat (k + 2)) (discoverMessage [98]),
      .datagram (UInt32.ofNat (k + 2)) (loadMessage 3)]) ++
    [.pass 10001, .expire, .datagram 10 (discoverMessage [99])]

@[irreducible] def crowded : NodeRun :=
  (exec step (boot freshNode 1 0) crowdedEvents).get (by decide +kernel)

theorem crowded_run : Run Step (boot freshNode 1 0) crowdedEvents crowded := by
  unfold crowded
  exact run_get _

@[irreducible] def crowdedNext : NodeRun :=
  (crowded.step (.datagram 10 (loadMessage 0))).get (by decide +kernel)

theorem crowdedNext_step : crowded.Step (.datagram 10 (loadMessage 0)) crowdedNext := by
  unfold crowdedNext
  exact (Option.some_get _).symm

/-- The only active peer reports that it is idle, and no entry says so. -/
theorem load_report_dropped :
    Run Step (boot freshNode 1 0) crowdedEvents crowded ∧
      crowded.Step (.datagram 10 (loadMessage 0)) crowdedNext ∧ crowded.IsPeer 10 ∧
      ¬crowded.ReportCounts (.datagram 10 (loadMessage 0)) crowdedNext := by
  have hpeer : crowded.IsPeer 10 := by
    unfold IsPeer
    decide +kernel
  refine ⟨crowded_run, crowdedNext_step, hpeer, fun hcounts => ?_⟩
  obtain ⟨i, hi, -⟩ := hcounts hpeer 0 (by decide +kernel)
  have hnone : ∀ i, (crowdedNext.djob.nodeLoads i).ip ≠ 10 := by decide +kernel
  exact hnone i (by rw [hi])

end NodeRun

end QuillOS.Cluster
