import QuillOS.Cluster.RemoteKill

/-!
# Agreement of process tables

The tracking entries of one node against the processes of another, when `send_udp` may say that a
datagram did not leave. An entry is made before its request is sent and changed by nothing that
happens on the other node, so the tables agree as long as every request arrives and starts a
process, and no such process is ended.
-/

namespace QuillOS.Cluster

open Lib

namespace ProcSystem

/-! ## Sends that fail -/

/-- An operation, and what `send_udp` answers to it for the datagram it sends, if any. -/
structure NetOp where
  op : ProcOp
  sent : Bool

/-- The datagrams in flight that the operation does not handle. -/
def untouched (s : ProcSystem) : ProcOp → List ProcPacket
  | .deliver k _ => s.inFlight.eraseIdx k
  | _ => s.inFlight

def netStep (s : ProcSystem) (o : NetOp) : Option ProcSystem :=
  (s.step o.op).map fun t => if o.sent then t else { t with inFlight := s.untouched o.op }

def NetStep (s : ProcSystem) (o : NetOp) (t : ProcSystem) : Prop := s.netStep o = some t

end ProcSystem

/-! ## Agreement -/

/-- Entry `i` tracks a process on node `b`. -/
def ProcNode.Tracks (c : ProcNode) (b : Ip) (i : Fin maxProcs) : Prop :=
  (c.procs i).state = .running ∧ (c.procs i).nodeIp = b

/-- Entry `j` is a process that runs here for node `a`. -/
def ProcNode.Hosts (c : ProcNode) (a : Ip) (j : Fin maxProcs) : Prop :=
  (c.procs j).state = .running ∧ (c.procs j).nodeIp = 0 ∧ (c.procs j).ownerIp = a

instance (c : ProcNode) (b : Ip) (i : Fin maxProcs) : Decidable (c.Tracks b i) :=
  inferInstanceAs (Decidable (_ ∧ _))

instance (c : ProcNode) (a : Ip) (j : Fin maxProcs) : Decidable (c.Hosts a j) :=
  inferInstanceAs (Decidable (_ ∧ _ ∧ _))

/-- The running entries of node `a` for node `b` are different processes running there for `a`, of
the types asked for, and no entry for `b` stays behind a kill. -/
def ProcSystem.TablesAgree (s : ProcSystem) (a b : Ip) : Prop :=
  (∃ f : Fin maxProcs → Fin maxProcs,
    (∀ i, (s.nodes a).Tracks b i →
      (s.nodes b).Hosts a (f i) ∧ ((s.nodes b).procs (f i)).type = ((s.nodes a).procs i).type) ∧
    ∀ i i', (s.nodes a).Tracks b i → (s.nodes a).Tracks b i' → f i = f i' → i = i') ∧
  ∀ i, ((s.nodes a).procs i).nodeIp = b → ((s.nodes a).procs i).state ≠ .exiting

/-! ## The condition on a step -/

/-- A request for this type would start a process. -/
def ProcNode.CanStart (c : ProcNode) (type : ProcType) : Prop :=
  c.findFree.isSome ∧ (∃ entry ∈ c.getEntry type, entry ≠ 0) ∧ c.sched.initialized = true ∧
    (Scheduler.findUnused c.sched 1).isSome

instance (c : ProcNode) (type : ProcType) : Decidable (c.CanStart type) :=
  inferInstanceAs (Decidable (_ ∧ _ ∧ _ ∧ _))

/-- What the handling of a message at node `b` must not run into: a request of node `a` that starts
nothing, or the end of a process that runs for `a`. -/
def ProcNode.Serves (c : ProcNode) (a src : Ip) : Received → Prop
  | .procSpawn type _ => src = a → c.CanStart type
  | .procKill pid => ∀ j ∈ c.findLocal pid, (c.procs j).ownerIp ≠ a
  | _ => True

instance (c : ProcNode) (a src : Ip) : ∀ m, Decidable (c.Serves a src m)
  | .procSpawn type _ => inferInstanceAs (Decidable (src = a → c.CanStart type))
  | .procKill pid => inferInstanceAs (Decidable (∀ j ∈ c.findLocal pid, (c.procs j).ownerIp ≠ a))
  | .ignored | .discover _ | .discoverAck _ | .jobSubmit _ | .jobResult _ _ | .loadReport _
  | .procSpawned _ => inferInstanceAs (Decidable True)

/-- Requests of `a` to `b` leave and start a process, `a` kills no entry for `b`, and `b` ends no
process of `a`. -/
def ProcSystem.Keeps (a b : Ip) (s : ProcSystem) (o : NetOp) : Prop :=
  match o.op with
  | .spawn n _ nodeIp _ => n = a → nodeIp = b → o.sent = true
  | .kill n pid =>
    (n = a → ∀ i ∈ (s.nodes a).findKillable pid, ((s.nodes a).procs i).nodeIp ≠ b) ∧
      (n = b → ∀ j ∈ (s.nodes b).findKillable pid,
        ((s.nodes b).procs j).nodeIp = 0 → ((s.nodes b).procs j).ownerIp ≠ a)
  | .deliver k _ => ∀ p ∈ s.inFlight[k]?, p.dst = b → (s.nodes b).Serves a p.src (receive p.data)
  | .cleanUp _ => True
  | .schedule _ _ => True

instance (a b : Ip) (s : ProcSystem) : ∀ o, Decidable (s.Keeps a b o)
  | ⟨.spawn n _ nodeIp _, sent⟩ => inferInstanceAs (Decidable (n = a → nodeIp = b → sent = true))
  | ⟨.kill n pid, _⟩ => inferInstanceAs (Decidable
      ((n = a → ∀ i ∈ (s.nodes a).findKillable pid, ((s.nodes a).procs i).nodeIp ≠ b) ∧
        (n = b → ∀ j ∈ (s.nodes b).findKillable pid,
          ((s.nodes b).procs j).nodeIp = 0 → ((s.nodes b).procs j).ownerIp ≠ a)))
  | ⟨.deliver k _, _⟩ => inferInstanceAs (Decidable
      (∀ p ∈ s.inFlight[k]?, p.dst = b → (s.nodes b).Serves a p.src (receive p.data)))
  | ⟨.cleanUp _, _⟩ => inferInstanceAs (Decidable True)
  | ⟨.schedule _ _, _⟩ => inferInstanceAs (Decidable True)

/-! ## What an operation does to an entry -/

namespace ProcNode

/-- Entries that run stay as they are, and what changes becomes an entry of this node. -/
structure LocalChange (c c' : ProcNode) : Prop where
  running : ∀ i, (c.procs i).state = .running → c'.procs i = c.procs i
  changed : ∀ i, c'.procs i ≠ c.procs i → (c'.procs i).nodeIp = 0

theorem LocalChange.refl (c : ProcNode) : LocalChange c c :=
  ⟨fun _ _ => rfl, fun _ h => absurd rfl h⟩

theorem LocalChange.of_update {c c' : ProcNode} {slot : Fin maxProcs} {info : ProcInfo}
    (hfree : c.findFree = some slot) (hprocs : c'.procs = Function.update c.procs slot info)
    (hlocal : info.nodeIp = 0) : LocalChange c c' := by
  refine ⟨fun i hi => ?_, fun i hi => ?_⟩
  · have hne : i ≠ slot := by
      rintro rfl
      rcases findFree_spec hfree with h | h <;> rw [h] at hi <;> cases hi
    rw [hprocs, Function.update_of_ne hne]
  · by_cases his : i = slot
    · rw [his, hprocs, Function.update_self, hlocal]
    · rw [hprocs, Function.update_of_ne his] at hi
      exact absurd rfl hi

theorem spawnLocal_change {c c' : ProcNode} {type : ProcType} {name : Bytes} {ownerIp : Ip}
    {ticks : UInt64} {pid : UInt32} (h : c.spawnLocal type name ownerIp ticks = some (c', pid)) :
    LocalChange c c' := by
  unfold spawnLocal at h
  split at h
  · obtain ⟨rfl, -⟩ := Prod.mk.inj (Option.some.inj h)
    exact .refl c
  rename_i slot hslot
  split at h
  · obtain ⟨rfl, -⟩ := Prod.mk.inj (Option.some.inj h)
    exact .refl c
  obtain ⟨full, -, h⟩ := Option.map_eq_some_iff.mp h
  dsimp only at h
  split at h
  all_goals
    obtain ⟨rfl, -⟩ := Prod.mk.inj h
    refine LocalChange.of_update hslot rfl ?_
    rfl

/-- A request that can start a process starts one in the first free slot. -/
theorem spawnLocal_starts {c c' : ProcNode} {type : ProcType} {name : Bytes} {ownerIp : Ip}
    {ticks : UInt64} {pid : UInt32} (hcan : c.CanStart type)
    (h : c.spawnLocal type name ownerIp ticks = some (c', pid)) :
    ∃ j, (c.procs j).state ≠ .running ∧ c'.Hosts ownerIp j ∧ (c'.procs j).type = type := by
  obtain ⟨hfree, ⟨entry, hentry, hne⟩, hinit, hunused⟩ := hcan
  obtain ⟨slot, hslot⟩ := Option.isSome_iff_exists.mp hfree
  obtain ⟨k, hk⟩ := Option.isSome_iff_exists.mp hunused
  unfold spawnLocal at h
  rw [hslot, Option.mem_def.mp hentry] at h
  obtain ⟨full, -, h⟩ := Option.map_eq_some_iff.mp h
  have htask : (Scheduler.createTask c.sched (some full) entry).2 = some k := by
    have hready : ¬ (!c.sched.initialized || decide (entry = 0)) = true := by simp [hinit, hne]
    unfold Scheduler.createTask Scheduler.createTaskInternal
    rw [if_neg hready, if_neg Bool.false_ne_true, hk]
  refine ⟨slot, fun hrun => ?_, ?_⟩
  · rcases findFree_spec hslot with hf | hf <;> rw [hf] at hrun <;> cases hrun
  dsimp only at h
  split at h
  next hcreate =>
    rw [hcreate] at htask
    cases htask
  next hcreate =>
    obtain ⟨rfl, -⟩ := Prod.mk.inj h
    simp [Hosts, setProc, localEntry]

/-- The tracking entry a request for node `b` leaves. -/
structure Tracked (c c' : ProcNode) (b : Ip) (slot : Fin maxProcs) (type : ProcType) : Prop where
  free : (c.procs slot).state ≠ .running
  keep : ∀ i, i ≠ slot → c'.procs i = c.procs i
  tracks : c'.Tracks b slot
  type : (c'.procs slot).type = type
  pid : (c'.procs slot).pid = c.nextPid

/-- `spawn_on` starts a process here, or makes an entry for another node together with its
request. -/
theorem spawnOn_change {c c' : ProcNode} {name : Bytes} {nodeIp : Ip} {ticks : UInt64}
    {pid : UInt32} {out : Option Bytes} (h : c.spawnOn name nodeIp ticks = some (c', pid, out)) :
    (LocalChange c c' ∧ out = none) ∨ ∃ slot, c.findFree = some slot ∧
      Tracked c c' nodeIp slot (parseType name) ∧
      out = some (spawnMessage (parseType name) c.nextPid) := by
  unfold spawnOn at h
  dsimp only at h
  split_ifs at h
  · obtain ⟨rfl, heq⟩ := Prod.mk.inj (Option.some.inj h)
    exact .inl ⟨.refl c, (Prod.mk.inj heq).2.symm⟩
  · obtain ⟨rfl, heq⟩ := Prod.mk.inj (Option.some.inj h)
    exact .inl ⟨.refl c, (Prod.mk.inj heq).2.symm⟩
  · obtain ⟨⟨d, q⟩, hlocal, heq⟩ := Option.map_eq_some_iff.mp h
    obtain ⟨rfl, -, rfl⟩ : d = c' ∧ q = pid ∧ none = out := by simpa using heq
    exact .inl ⟨spawnLocal_change hlocal, rfl⟩
  · split at h
    · obtain ⟨rfl, heq⟩ := Prod.mk.inj (Option.some.inj h)
      exact .inl ⟨.refl c, (Prod.mk.inj heq).2.symm⟩
    · rename_i slot hslot
      obtain ⟨rfl, heq⟩ := Prod.mk.inj (Option.some.inj h)
      refine .inr ⟨slot, hslot, ⟨fun hrun => ?_, fun i hi => ?_, ?_, ?_, ?_⟩, (Prod.mk.inj heq).2.symm⟩
      · rcases findFree_spec hslot with hf | hf <;> rw [hf] at hrun <;> cases hrun
      · exact Function.update_of_ne hi _ _
      · simp [Tracks, setProc, remoteEntry]
      · simp [setProc, remoteEntry]
      · simp [setProc, remoteEntry]

/-- No entry for node `b` is made or killed. -/
def KeepsEntries (b : Ip) (c c' : ProcNode) : Prop :=
  ∀ i, (c'.procs i).nodeIp = b → ((c'.procs i).state = .running ∨ (c'.procs i).state = .exiting) →
    c'.procs i = c.procs i

/-- No process of node `a` is ended. -/
def KeepsHosts (a : Ip) (c c' : ProcNode) : Prop :=
  ∀ j, c.Hosts a j → c'.procs j = c.procs j

theorem LocalChange.keepsEntries {c c' : ProcNode} (h : LocalChange c c') {b : Ip} (hb : b ≠ 0) :
    KeepsEntries b c c' := by
  intro i hnode _
  by_contra hne
  exact hb (hnode.symm.trans (h.changed i hne))

theorem LocalChange.keepsHosts {c c' : ProcNode} (h : LocalChange c c') (a : Ip) :
    KeepsHosts a c c' :=
  fun j hj => h.running j hj.1

theorem Tracked.keepsEntries {c c' : ProcNode} {nodeIp b : Ip} {slot : Fin maxProcs}
    {type : ProcType} (h : Tracked c c' nodeIp slot type) (hne : nodeIp ≠ b) :
    KeepsEntries b c c' := by
  intro i hnode _
  by_cases hi : i = slot
  · subst hi
    exact absurd (h.tracks.2.symm.trans hnode) hne
  · exact h.keep i hi

theorem Tracked.keepsHosts {c c' : ProcNode} {nodeIp : Ip} {slot : Fin maxProcs} {type : ProcType}
    (h : Tracked c c' nodeIp slot type) (a : Ip) : KeepsHosts a c c' := by
  intro j hj
  apply h.keep
  rintro rfl
  exact h.free hj.1

theorem stop_keepsEntries {c : ProcNode} {i : Fin maxProcs} (hlocal : (c.procs i).nodeIp = 0)
    (schedSlot : Option Scheduler.Slot) {b : Ip} (hb : b ≠ 0) :
    KeepsEntries b c (c.stop i schedSlot) := by
  intro k hnode _
  rw [stop_procs] at hnode ⊢
  by_cases hki : k = i
  · subst hki
    rw [Function.update_self] at hnode
    exact absurd (hnode.symm.trans hlocal) hb
  · rw [Function.update_of_ne hki]

theorem stop_keepsHosts {c : ProcNode} {i : Fin maxProcs} {a : Ip}
    (hother : (c.procs i).ownerIp ≠ a) (schedSlot : Option Scheduler.Slot) :
    KeepsHosts a c (c.stop i schedSlot) := by
  intro j hj
  rw [stop_procs, Function.update_of_ne]
  rintro rfl
  exact hother hj.2.2

theorem kill_keepsEntries {c : ProcNode} {pid : UInt32} {b : Ip} (hb : b ≠ 0)
    (h : ∀ i ∈ c.findKillable pid, (c.procs i).nodeIp ≠ b) : KeepsEntries b c (c.kill pid).1 := by
  unfold ProcNode.kill
  split
  next => exact fun _ _ _ => rfl
  next i hi =>
    split_ifs with hlocal
    · exact stop_keepsEntries hlocal none hb
    · intro k hnode _
      by_cases hki : k = i
      · subst hki
        rw [setProc_self] at hnode
        exact absurd hnode (h k hi)
      · exact setProc_of_ne c hki _

theorem kill_keepsHosts {c : ProcNode} {pid : UInt32} {a : Ip}
    (h : ∀ j ∈ c.findKillable pid, (c.procs j).nodeIp = 0 → (c.procs j).ownerIp ≠ a) :
    KeepsHosts a c (c.kill pid).1 := by
  unfold ProcNode.kill
  split
  next => exact fun _ _ => rfl
  next i hi =>
    split_ifs with hlocal
    · exact stop_keepsHosts (h i hi hlocal) none
    · intro j hj
      apply setProc_of_ne
      rintro rfl
      exact hlocal hj.2.1

theorem onRemoteKillRequest_keepsEntries (c : ProcNode) (pid : UInt32) {b : Ip} (hb : b ≠ 0) :
    KeepsEntries b c (c.onRemoteKillRequest pid) := by
  unfold ProcNode.onRemoteKillRequest
  split
  next => exact fun _ _ _ => rfl
  next i hi => exact stop_keepsEntries (findLocal_spec hi).2.2 _ hb

theorem onRemoteKillRequest_keepsHosts {c : ProcNode} {pid : UInt32} {a : Ip}
    (h : ∀ j ∈ c.findLocal pid, (c.procs j).ownerIp ≠ a) :
    KeepsHosts a c (c.onRemoteKillRequest pid) := by
  unfold ProcNode.onRemoteKillRequest
  split
  next => exact fun _ _ => rfl
  next i hi => exact stop_keepsHosts (h i hi) _

theorem cleanUp_keepsEntries (c : ProcNode) (b : Ip) : KeepsEntries b c c.cleanUp := by
  intro i _ hstate
  unfold ProcNode.cleanUp at hstate ⊢
  dsimp only at hstate ⊢
  split_ifs at hstate ⊢ with hdead
  · simp at hstate
  · rfl

theorem cleanUp_keepsHosts (c : ProcNode) (a : Ip) : KeepsHosts a c c.cleanUp := by
  intro j hj
  unfold ProcNode.cleanUp
  dsimp only
  rw [if_neg]
  rintro ⟨hdead, -⟩
  rw [hj.1] at hdead
  cases hdead

end ProcNode

/-! ## The matching -/

namespace ProcSystem

/-- Entries of `a` for `b` whose request is in flight, or that stand for a process of their own. -/
structure Matched (a b : Ip) (s : ProcSystem) (f : Fin maxProcs → Option (Fin maxProcs)) : Prop where
  waiting : ∀ i, (s.nodes a).Tracks b i → f i = none → ∃ p ∈ s.inFlight, p.src = a ∧ p.dst = b ∧
    receive p.data = .procSpawn ((s.nodes a).procs i).type ((s.nodes a).procs i).pid
  hosted : ∀ i j, (s.nodes a).Tracks b i → f i = some j →
    (s.nodes b).Hosts a j ∧ ((s.nodes b).procs j).type = ((s.nodes a).procs i).type
  inj : ∀ i i' j, (s.nodes a).Tracks b i → (s.nodes a).Tracks b i' → f i = some j → f i' = some j →
    i = i'
  pids : ∀ i i', (s.nodes a).Tracks b i → (s.nodes a).Tracks b i' →
    ((s.nodes a).procs i).pid = ((s.nodes a).procs i').pid → i = i'
  exiting : ∀ i, ((s.nodes a).procs i).nodeIp = b → ((s.nodes a).procs i).state ≠ .exiting

/-- The requests of `a` to `b` in flight. -/
def Request (a b : Ip) (p : ProcPacket) : Prop :=
  p.src = a ∧ p.dst = b ∧ ∃ type pid, receive p.data = .procSpawn type pid

/-- A step that neither makes nor handles a request of `a` to `b`. -/
structure Steady (a b : Ip) (s t : ProcSystem) : Prop where
  entries : ProcNode.KeepsEntries b (s.nodes a) (t.nodes a)
  hosts : ProcNode.KeepsHosts a (s.nodes b) (t.nodes b)
  requests : ∀ p ∈ s.inFlight, Request a b p → p ∈ t.inFlight

theorem Steady.tracks {a b : Ip} {s t : ProcSystem} (h : Steady a b s t) {i : Fin maxProcs}
    (hi : (t.nodes a).Tracks b i) :
    (s.nodes a).Tracks b i ∧ (t.nodes a).procs i = (s.nodes a).procs i := by
  have heq := h.entries i hi.2 (.inl hi.1)
  exact ⟨⟨heq ▸ hi.1, heq ▸ hi.2⟩, heq⟩

theorem Matched.steady {a b : Ip} {s t : ProcSystem} {f : Fin maxProcs → Option (Fin maxProcs)}
    (m : Matched a b s f) (h : Steady a b s t) : Matched a b t f where
  waiting i hi hf := by
    obtain ⟨hold, heq⟩ := h.tracks hi
    obtain ⟨p, hp, hsrc, hdst, hrec⟩ := m.waiting i hold hf
    refine ⟨p, h.requests p hp ⟨hsrc, hdst, _, _, hrec⟩, hsrc, hdst, ?_⟩
    rw [heq]
    exact hrec
  hosted i j hi hf := by
    obtain ⟨hold, heq⟩ := h.tracks hi
    obtain ⟨hhost, htype⟩ := m.hosted i j hold hf
    have hj := h.hosts j hhost
    rw [ProcNode.Hosts, hj, heq]
    exact ⟨hhost, htype⟩
  inj i i' j hi hi' := m.inj i i' j (h.tracks hi).1 (h.tracks hi').1
  pids i i' hi hi' hpid := by
    obtain ⟨hold, heq⟩ := h.tracks hi
    obtain ⟨hold', heq'⟩ := h.tracks hi'
    rw [heq, heq'] at hpid
    exact m.pids i i' hold hold' hpid
  exiting i hnode hexit := by
    have heq := h.entries i hnode (.inr hexit)
    rw [heq] at hnode hexit
    exact m.exiting i hnode hexit

/-- The nodes after one of them changed. -/
theorem steady_of_setNode {a b n : Ip} {s t : ProcSystem} {c : ProcNode}
    (hnodes : t.nodes = (s.setNode n c).nodes)
    (hentries : n = a → ProcNode.KeepsEntries b (s.nodes a) c)
    (hhosts : n = b → ProcNode.KeepsHosts a (s.nodes b) c)
    (hrequests : ∀ p ∈ s.inFlight, Request a b p → p ∈ t.inFlight) : Steady a b s t := by
  refine ⟨?_, ?_, hrequests⟩
  · rw [hnodes]
    by_cases hn : n = a
    · subst hn
      rw [setNode_self]
      exact hentries rfl
    · rw [setNode_of_ne s (Ne.symm hn)]
      exact fun _ _ _ => rfl
  · rw [hnodes]
    by_cases hn : n = b
    · subst hn
      rw [setNode_self]
      exact hhosts rfl
    · rw [setNode_of_ne s (Ne.symm hn)]
      exact fun _ _ => rfl

/-! ## Steps -/

/-- A datagram in flight survives the handling of another one. -/
theorem mem_eraseIdx_of_ne {s : ProcSystem} {k : ℕ} {p q : ProcPacket} (hp : s.inFlight[k]? = some p)
    (hq : q ∈ s.inFlight) (hne : q ≠ p) : q ∈ s.inFlight.eraseIdx k := by
  obtain ⟨j, hj, rfl⟩ := List.mem_iff_getElem.mp hq
  apply List.mem_eraseIdx_iff_getElem.mpr
  refine ⟨j, hj, ?_, rfl⟩
  rintro rfl
  exact hne (Option.some.inj ((List.getElem?_eq_getElem hj).symm.trans hp))

theorem step_untouched {s t : ProcSystem} {op : ProcOp} (h : s.Step op t) :
    ∀ p ∈ s.untouched op, p ∈ t.inFlight := by
  intro p hp
  cases op with
  | spawn n name nodeIp ticks =>
    obtain ⟨⟨c, pid, out⟩, -, rfl⟩ := Option.map_eq_some_iff.mp h
    dsimp only
    split
    · exact List.mem_append_left _ hp
    · exact hp
  | kill n pid =>
    unfold Step step at h
    dsimp only at h
    split at h
    · obtain rfl := Option.some.inj h
      exact List.mem_append_left _ hp
    · obtain rfl := Option.some.inj h
      exact hp
  | cleanUp n =>
    obtain rfl := Option.some.inj h
    exact hp
  | schedule n op =>
    obtain ⟨sched, -, rfl⟩ := Option.map_eq_some_iff.mp h
    exact hp
  | deliver k ticks =>
    obtain ⟨q, -, h⟩ := Option.bind_eq_some_iff.mp h
    obtain ⟨⟨c, reply, localPid⟩, -, rfl⟩ := Option.map_eq_some_iff.mp h
    exact List.mem_append_left _ hp

/-- A step is that of a network that sends everything, less its own datagram. -/
theorem netStep_spec {s t : ProcSystem} {o : NetOp} (h : s.NetStep o t) :
    ∃ u, s.Step o.op u ∧ t.nodes = u.nodes ∧ (∀ p ∈ s.untouched o.op, p ∈ t.inFlight) ∧
      (o.sent = true → t = u) := by
  obtain ⟨u, hu, rfl⟩ := Option.map_eq_some_iff.mp h
  refine ⟨u, hu, ?_, ?_, fun hsent => if_pos hsent⟩
  · split_ifs <;> rfl
  · split_ifs
    · exact step_untouched hu
    · exact fun p hp => hp

theorem inv_netStep {s t : ProcSystem} {o : NetOp} (hinv : s.Inv) (h : s.NetStep o t) : t.Inv := by
  obtain ⟨u, hu, hnodes, -⟩ := netStep_spec h
  intro n
  rw [hnodes]
  exact inv_step hinv hu n

/-- The request that goes with a new entry of `a` for `b`. -/
theorem matched_spawn {a b : Ip} {s t : ProcSystem} {f : Fin maxProcs → Option (Fin maxProcs)}
    (hab : a ≠ b) (hinv : s.Inv) (m : Matched a b s f) {c : ProcNode} {slot : Fin maxProcs}
    {type : ProcType} {p : ProcPacket} (htracked : ProcNode.Tracked (s.nodes a) c b slot type)
    (hnodes : t.nodes = (s.setNode a c).nodes) (hflight : t.inFlight = s.inFlight ++ [p])
    (hsrc : p.src = a) (hdst : p.dst = b)
    (hdata : receive p.data = .procSpawn type (s.nodes a).nextPid) :
    Matched a b t (Function.update f slot none) := by
  have ha : t.nodes a = c := by rw [hnodes, setNode_self]
  have hb : t.nodes b = s.nodes b := by rw [hnodes, setNode_of_ne s hab.symm]
  have hold : ∀ i, i ≠ slot → (t.nodes a).procs i = (s.nodes a).procs i := by
    intro i hi
    rw [ha]
    exact htracked.keep i hi
  have htracks : ∀ i, i ≠ slot → (t.nodes a).Tracks b i → (s.nodes a).Tracks b i := by
    intro i hi h
    rwa [ProcNode.Tracks, hold i hi] at h
  have hnew : ((t.nodes a).procs slot).pid = (s.nodes a).nextPid := by rw [ha, htracked.pid]
  have hfresh : ∀ i, i ≠ slot → ((t.nodes a).procs i).pid ≠ (s.nodes a).nextPid := by
    intro i hi heq
    have hlt := (hinv a).below i
    rw [← hold i hi, heq] at hlt
    exact lt_irrefl _ hlt
  have hsome : ∀ i j, Function.update f slot none i = some j → i ≠ slot ∧ f i = some j := by
    intro i j hf
    by_cases hi : i = slot
    · rw [hi, Function.update_self] at hf
      cases hf
    · rw [Function.update_of_ne hi] at hf
      exact ⟨hi, hf⟩
  -- The new entry waits for its own request; its pid is above all others.
  refine ⟨fun i hi hf => ?_, fun i j hi hf => ?_, fun i i' j hi hi' hf hf' => ?_,
    ?_, fun i hnode => ?_⟩
  · by_cases his : i = slot
    · refine ⟨p, by rw [hflight]; simp, hsrc, hdst, ?_⟩
      rw [his, hnew, ha, htracked.type]
      exact hdata
    · rw [Function.update_of_ne his] at hf
      obtain ⟨q, hq, hrest⟩ := m.waiting i (htracks i his hi) hf
      refine ⟨q, by rw [hflight]; exact List.mem_append_left _ hq, ?_⟩
      rw [hold i his]
      exact hrest
  · obtain ⟨his, hf⟩ := hsome i j hf
    rw [hb, hold i his]
    exact m.hosted i j (htracks i his hi) hf
  · obtain ⟨his, hf⟩ := hsome i j hf
    obtain ⟨his', hf'⟩ := hsome i' j hf'
    exact m.inj i i' j (htracks i his hi) (htracks i' his' hi') hf hf'
  · apply unique_of_others slot
    · intro i i' his his' hi hi' hpid
      rw [hold i his, hold i' his'] at hpid
      exact m.pids i i' (htracks i his hi) (htracks i' his' hi') hpid
    · intro i his _ _
      rw [hnew]
      exact hfresh i his
  · by_cases his : i = slot
    · rw [his, ha, htracked.tracks.1]
      simp
    · rw [hold i his] at hnode ⊢
      exact m.exiting i hnode

/-- An entry that waits for another request than the one handled still does. -/
theorem Matched.still_waiting {a b : Ip} {s t : ProcSystem}
    {f : Fin maxProcs → Option (Fin maxProcs)} (m : Matched a b s f) {k : ℕ} {p : ProcPacket}
    (hp : s.inFlight[k]? = some p) {type : ProcType} {pid : UInt32}
    (hdata : receive p.data = .procSpawn type pid)
    (hflight : ∀ q ∈ s.inFlight.eraseIdx k, q ∈ t.inFlight) {i : Fin maxProcs}
    (hi : (s.nodes a).Tracks b i) (hf : f i = none)
    (hother : ¬(((s.nodes a).procs i).pid = pid ∧ ((s.nodes a).procs i).type = type)) :
    ∃ q ∈ t.inFlight, q.src = a ∧ q.dst = b ∧
      receive q.data = .procSpawn ((s.nodes a).procs i).type ((s.nodes a).procs i).pid := by
  obtain ⟨q, hq, hrest⟩ := m.waiting i hi hf
  refine ⟨q, hflight q (mem_eraseIdx_of_ne hp hq ?_), hrest⟩
  rintro rfl
  have heq := hdata.symm.trans hrest.2.2
  simp only [Received.procSpawn.injEq] at heq
  exact hother ⟨heq.2.symm, heq.1.symm⟩

theorem Matched.still_hosted {a b : Ip} {s t : ProcSystem}
    {f : Fin maxProcs → Option (Fin maxProcs)} (m : Matched a b s f)
    (hhosts : ProcNode.KeepsHosts a (s.nodes b) (t.nodes b)) {i j : Fin maxProcs}
    (hi : (s.nodes a).Tracks b i) (hf : f i = some j) :
    (t.nodes b).Hosts a j ∧ ((t.nodes b).procs j).type = ((s.nodes a).procs i).type := by
  obtain ⟨h, htype⟩ := m.hosted i j hi hf
  rw [ProcNode.Hosts, hhosts j h]
  exact ⟨h, htype⟩

/-- The entry that waits for the request handled gets the process just started. -/
theorem matched_start_awaited {a b : Ip} {s t : ProcSystem}
    {f : Fin maxProcs → Option (Fin maxProcs)} (m : Matched a b s f) {k : ℕ} {p : ProcPacket}
    (hp : s.inFlight[k]? = some p) {type : ProcType} {pid : UInt32}
    (hdata : receive p.data = .procSpawn type pid) {j : Fin maxProcs}
    (hfresh : ((s.nodes b).procs j).state ≠ .running) (hhost : (t.nodes b).Hosts a j)
    (htype : ((t.nodes b).procs j).type = type) (hnode : t.nodes a = s.nodes a)
    (hhosts : ProcNode.KeepsHosts a (s.nodes b) (t.nodes b))
    (hflight : ∀ q ∈ s.inFlight.eraseIdx k, q ∈ t.inFlight) {i₀ : Fin maxProcs}
    (hi₀ : (s.nodes a).Tracks b i₀) (hpid₀ : ((s.nodes a).procs i₀).pid = pid)
    (htype₀ : ((s.nodes a).procs i₀).type = type) :
    Matched a b t (Function.update f i₀ (some j)) := by
  have hnone : ∀ i, (s.nodes a).Tracks b i → f i ≠ some j := fun i hi hf =>
    hfresh (m.hosted i j hi hf).1.1
  refine ⟨fun i hi hf => ?_, fun i j' hi hf => ?_, fun i i' j' hi hi' hf hf' => ?_,
    fun i i' hi hi' hpid => ?_, fun i => ?_⟩
  · rw [hnode] at hi ⊢
    by_cases his : i = i₀
    · rw [his, Function.update_self] at hf
      cases hf
    · rw [Function.update_of_ne his] at hf
      apply m.still_waiting hp hdata hflight hi hf
      rintro ⟨heq, -⟩
      exact his (m.pids i i₀ hi hi₀ (heq.trans hpid₀.symm))
  · rw [hnode] at hi ⊢
    by_cases his : i = i₀
    · rw [his, Function.update_self] at hf
      obtain rfl := Option.some.inj hf
      rw [his, htype₀]
      exact ⟨hhost, htype⟩
    · rw [Function.update_of_ne his] at hf
      exact m.still_hosted hhosts hi hf
  · rw [hnode] at hi hi'
    by_cases his : i = i₀ <;> by_cases his' : i' = i₀
    · exact his.trans his'.symm
    · rw [his, Function.update_self] at hf
      rw [Function.update_of_ne his', ← hf] at hf'
      exact absurd hf' (hnone i' hi')
    · rw [his', Function.update_self] at hf'
      rw [Function.update_of_ne his, ← hf'] at hf
      exact absurd hf (hnone i hi)
    · rw [Function.update_of_ne his] at hf
      rw [Function.update_of_ne his'] at hf'
      exact m.inj i i' j' hi hi' hf hf'
  · rw [hnode] at hi hi' hpid
    exact m.pids i i' hi hi' hpid
  · rw [hnode]
    exact m.exiting i

/-- The process a handled request of `a` starts on `b`. -/
theorem matched_start {a b : Ip} {s t : ProcSystem} {f : Fin maxProcs → Option (Fin maxProcs)}
    (m : Matched a b s f) {k : ℕ} {p : ProcPacket} (hp : s.inFlight[k]? = some p) {type : ProcType}
    {pid : UInt32} (hdata : receive p.data = .procSpawn type pid) {j : Fin maxProcs}
    (hfresh : ((s.nodes b).procs j).state ≠ .running) (hhost : (t.nodes b).Hosts a j)
    (htype : ((t.nodes b).procs j).type = type) (hnode : t.nodes a = s.nodes a)
    (hhosts : ProcNode.KeepsHosts a (s.nodes b) (t.nodes b))
    (hflight : ∀ q ∈ s.inFlight.eraseIdx k, q ∈ t.inFlight) : ∃ f', Matched a b t f' := by
  by_cases hany : ∃ i, (s.nodes a).Tracks b i ∧ f i = none ∧ ((s.nodes a).procs i).pid = pid ∧
      ((s.nodes a).procs i).type = type
  · obtain ⟨i₀, hi₀, -, hpid₀, htype₀⟩ := hany
    exact ⟨_, matched_start_awaited m hp hdata hfresh hhost htype hnode hhosts hflight hi₀ hpid₀
      htype₀⟩
  -- No entry waits for this request, so none gets the process.
  refine ⟨f, fun i hi hf => ?_, fun i j' hi hf => ?_, fun i i' j' hi hi' => ?_,
    fun i i' hi hi' hpid => ?_, fun i => ?_⟩
  · rw [hnode] at hi ⊢
    exact m.still_waiting hp hdata hflight hi hf fun heq => hany ⟨i, hi, hf, heq⟩
  · rw [hnode] at hi ⊢
    exact m.still_hosted hhosts hi hf
  · rw [hnode] at hi hi'
    exact m.inj i i' j' hi hi'
  · rw [hnode] at hi hi' hpid
    exact m.pids i i' hi hi' hpid
  · rw [hnode]
    exact m.exiting i

/-- A handled message that is no request of `a` to `b`. -/
theorem steady_deliver {a b : Ip} {s t : ProcSystem} (hb : b ≠ 0) {k : ℕ} {ticks : UInt64}
    {p : ProcPacket} {c : ProcNode} {reply : Option Bytes} {localPid : Option UInt32}
    (hp : s.inFlight[k]? = some p)
    (hserves : p.dst = b → (s.nodes b).Serves a p.src (receive p.data))
    (hhandle : handle (s.nodes p.dst) p.src ticks (receive p.data) = some (c, reply, localPid))
    (hnot : ¬ Request a b p) (hnodes : t.nodes = (s.setNode p.dst c).nodes)
    (hflight : ∀ q ∈ s.inFlight.eraseIdx k, q ∈ t.inFlight) : Steady a b s t := by
  have hrequests : ∀ q ∈ s.inFlight, Request a b q → q ∈ t.inFlight := by
    intro q hq hreq
    apply hflight q (mem_eraseIdx_of_ne hp hq ?_)
    rintro rfl
    exact hnot hreq
  have hchange : ProcNode.KeepsEntries b (s.nodes p.dst) c ∧
      (p.dst = b → ProcNode.KeepsHosts a (s.nodes p.dst) c) := by
    cases hrec : receive p.data with
    | procSpawn type pid =>
      rw [hrec] at hhandle
      obtain ⟨started, hlocal⟩ := handle_procSpawn hhandle
      have hchange := ProcNode.spawnLocal_change hlocal
      exact ⟨hchange.keepsEntries hb, fun _ => hchange.keepsHosts a⟩
    | procKill pid =>
      rw [hrec] at hhandle hserves
      obtain ⟨rfl, -⟩ := Prod.mk.inj (Option.some.inj hhandle)
      refine ⟨ProcNode.onRemoteKillRequest_keepsEntries _ pid hb, fun hdst => ?_⟩
      apply ProcNode.onRemoteKillRequest_keepsHosts
      rw [hdst]
      exact hserves hdst
    | ignored | discover _ | discoverAck _ | jobSubmit _ | jobResult _ _ | loadReport _
    | procSpawned _ =>
      rw [hrec] at hhandle
      obtain ⟨rfl, -⟩ := Prod.mk.inj (Option.some.inj hhandle)
      exact ⟨fun _ _ _ => rfl, fun _ _ _ => rfl⟩
  refine steady_of_setNode hnodes ?_ ?_ hrequests
  · rintro rfl
    exact hchange.1
  · rintro rfl
    exact hchange.2 rfl

/-- A spawn call on a node, whose request leaves if it is one of `a` to `b`. -/
theorem matched_spawnOn {a b : Ip} {s t : ProcSystem} {f : Fin maxProcs → Option (Fin maxProcs)}
    (hab : a ≠ b) (hb : b ≠ 0) (hinv : s.Inv) (m : Matched a b s f) {n nodeIp : Ip} {name : Bytes}
    {ticks : UInt64} {c : ProcNode} {pid : UInt32} {out : Option Bytes}
    (hspawn : (s.nodes n).spawnOn name nodeIp ticks = some (c, pid, out))
    (hnodes : t.nodes = (s.setNode n c).nodes) (hflight : ∀ p ∈ s.inFlight, p ∈ t.inFlight)
    (hsent : n = a → nodeIp = b → ∀ data ∈ out, ∀ slot ∈ (s.nodes n).findFree,
      t.inFlight = s.inFlight ++ [⟨n, nodeIp, data, s.requests⟩]) : ∃ f', Matched a b t f' := by
  have hsteady : (n = a → ProcNode.KeepsEntries b (s.nodes a) c) →
      (n = b → ProcNode.KeepsHosts a (s.nodes b) c) → ∃ f', Matched a b t f' :=
    fun hentries hhosts =>
      ⟨f, m.steady (steady_of_setNode hnodes hentries hhosts fun p hp _ => hflight p hp)⟩
  rcases ProcNode.spawnOn_change hspawn with ⟨hlocal, -⟩ | ⟨slot, hfree, htracked, rfl⟩
  · apply hsteady
    · rintro rfl
      exact hlocal.keepsEntries hb
    · rintro rfl
      exact hlocal.keepsHosts a
  by_cases hreq : n = a ∧ nodeIp = b
  · obtain ⟨rfl, rfl⟩ := hreq
    exact ⟨_, matched_spawn hab hinv m htracked hnodes (hsent rfl rfl _ rfl slot hfree) rfl rfl
      (receive_spawnMessage _ _)⟩
  · apply hsteady
    · rintro rfl
      exact htracked.keepsEntries fun heq => hreq ⟨rfl, heq⟩
    · rintro rfl
      exact htracked.keepsHosts a

/-- The handling of a message, which starts a process if it is a request of `a` to `b`. -/
theorem matched_deliver {a b : Ip} {s t : ProcSystem} {f : Fin maxProcs → Option (Fin maxProcs)}
    (hab : a ≠ b) (hb : b ≠ 0) (m : Matched a b s f) {k : ℕ} {ticks : UInt64} {p : ProcPacket}
    {c : ProcNode} {reply : Option Bytes} {localPid : Option UInt32} (hp : s.inFlight[k]? = some p)
    (hserves : p.dst = b → (s.nodes b).Serves a p.src (receive p.data))
    (hhandle : handle (s.nodes p.dst) p.src ticks (receive p.data) = some (c, reply, localPid))
    (hnodes : t.nodes = (s.setNode p.dst c).nodes)
    (hflight : ∀ q ∈ s.inFlight.eraseIdx k, q ∈ t.inFlight) : ∃ f', Matched a b t f' := by
  by_cases hreq : Request a b p
  · obtain ⟨hsrc, hdst, type, pid, hrec⟩ := hreq
    have hcan : (s.nodes b).CanStart type := by
      have hs := hserves hdst
      rw [hrec] at hs
      exact hs hsrc
    rw [hrec, hdst, hsrc] at hhandle
    obtain ⟨started, hlocal⟩ := handle_procSpawn hhandle
    obtain ⟨j, hfresh, hhost, htype⟩ := ProcNode.spawnLocal_starts hcan hlocal
    have hset : t.nodes b = c := by
      rw [hnodes, hdst]
      exact setNode_self s b c
    have hother : t.nodes a = s.nodes a := by
      rw [hnodes, hdst]
      exact setNode_of_ne s hab c
    apply matched_start m hp hrec hfresh
    · rw [hset]
      exact hhost
    · rw [hset]
      exact htype
    · exact hother
    · rw [hset]
      exact (ProcNode.spawnLocal_change hlocal).keepsHosts a
    · exact hflight
  · exact ⟨f, m.steady (steady_deliver hb hp hserves hhandle hreq hnodes hflight)⟩

/-- One operation of the network that meets the condition. -/
theorem matched_step {a b : Ip} {s t : ProcSystem} {f : Fin maxProcs → Option (Fin maxProcs)}
    {o : NetOp} (hab : a ≠ b) (hb : b ≠ 0) (hinv : s.Inv) (m : Matched a b s f)
    (hkeeps : s.Keeps a b o) (h : s.NetStep o t) : ∃ f', Matched a b t f' := by
  obtain ⟨u, hu, hnodes, hflight, hsent⟩ := netStep_spec h
  obtain ⟨op, sent⟩ := o
  cases op with
  | spawn n name nodeIp ticks =>
    obtain ⟨⟨c, pid, out⟩, hspawn, rfl⟩ := Option.map_eq_some_iff.mp hu
    refine matched_spawnOn hab hb hinv m hspawn (hnodes.trans ?_) hflight ?_
    · dsimp only
      split <;> rfl
    · intro hn hnode data hdata slot hslot
      obtain rfl := hsent (hkeeps hn hnode)
      simp only [Option.mem_def.mp hdata, Option.mem_def.mp hslot]
  | kill n pid =>
    refine ⟨f, m.steady ?_⟩
    have hset : u.nodes = (s.setNode n ((s.nodes n).kill pid).1).nodes := by
      unfold Step step at hu
      dsimp only at hu
      split at hu
      all_goals
        obtain rfl := Option.some.inj hu
        rfl
    refine steady_of_setNode (hnodes.trans hset) ?_ ?_ fun p hp _ => hflight p hp
    · rintro rfl
      exact ProcNode.kill_keepsEntries hb (hkeeps.1 rfl)
    · rintro rfl
      exact ProcNode.kill_keepsHosts (hkeeps.2 rfl)
  | cleanUp n =>
    obtain rfl := Option.some.inj hu
    refine ⟨f, m.steady (steady_of_setNode hnodes ?_ ?_ fun p hp _ => hflight p hp)⟩
    · rintro rfl
      exact ProcNode.cleanUp_keepsEntries _ b
    · rintro rfl
      exact ProcNode.cleanUp_keepsHosts _ a
  | schedule n op =>
    obtain ⟨sched, -, rfl⟩ := Option.map_eq_some_iff.mp hu
    refine ⟨f, m.steady (steady_of_setNode hnodes ?_ ?_ fun p hp _ => hflight p hp)⟩
    · rintro rfl
      exact fun _ _ _ => rfl
    · rintro rfl
      exact fun _ _ => rfl
  | deliver k ticks =>
    obtain ⟨p, hp, hu⟩ := Option.bind_eq_some_iff.mp hu
    obtain ⟨⟨c, reply, localPid⟩, hhandle, rfl⟩ := Option.map_eq_some_iff.mp hu
    exact matched_deliver hab hb m hp (hkeeps p hp) hhandle hnodes hflight

/-! ## Runs -/

theorem boot_matched (image : Ip → ProcNode.Image) {a b : Ip} :
    Matched a b (boot image) fun _ => none := by
  have hnone : ∀ i, ¬ ((boot image).nodes a).Tracks b i := by
    rintro i ⟨h, -⟩
    cases h
  refine ⟨fun i hi => absurd hi (hnone i), fun i j hi => absurd hi (hnone i),
    fun i i' j hi => absurd hi (hnone i), fun i i' hi => absurd hi (hnone i), fun i _ h => ?_⟩
  cases h

/-- With nothing in flight every entry has its process. -/
theorem Matched.tablesAgree {a b : Ip} {s : ProcSystem} {f : Fin maxProcs → Option (Fin maxProcs)}
    (m : Matched a b s f) (hquiet : s.inFlight = []) : s.TablesAgree a b := by
  have hsome : ∀ i, (s.nodes a).Tracks b i → f i = some ((f i).getD 0) := by
    intro i hi
    cases hf : f i with
    | some j => rfl
    | none =>
      obtain ⟨p, hp, -⟩ := m.waiting i hi hf
      rw [hquiet] at hp
      cases hp
  refine ⟨⟨fun i => (f i).getD 0, fun i hi => m.hosted i _ hi (hsome i hi), fun i i' hi hi' heq => ?_⟩,
    m.exiting⟩
  have hsame : (f i).getD 0 = (f i').getD 0 := heq
  have hi'' := hsome i' hi'
  rw [← hsame] at hi''
  exact m.inj i i' _ hi hi' (hsome i hi) hi''

/-- In every run in which the requests of one node to another leave and start a process, and no such
process is ended from either side, the tables of the two nodes agree whenever nothing is in
flight. -/
theorem tables_agree (image : Ip → ProcNode.Image) (a b : Ip) (hab : a ≠ b) (hb : b ≠ 0)
    (ops : List NetOp) (s : ProcSystem)
    (hrun : Run (Where (Keeps a b) NetStep) (boot image) ops s) (hquiet : s.inFlight = []) :
    s.TablesAgree a b := by
  have hall : s.Inv ∧ ∃ f, Matched a b s f := by
    apply hrun.invariant (fun s => s.Inv ∧ ∃ f, Matched a b s f)
      ⟨fun n => ProcNode.inv_init (image n), _, boot_matched image⟩
    rintro x o y ⟨hinv, f, m⟩ ⟨hkeeps, hstep⟩
    exact ⟨inv_netStep hinv hstep, matched_step hab hb hinv m hkeeps hstep⟩
  obtain ⟨-, f, m⟩ := hall
  exact m.tablesAgree hquiet

/-- Node 1 starts two processes on node 2. -/
def trackedOps : List NetOp :=
  [⟨.spawn 1 counterName 2 0, true⟩, ⟨.spawn 1 stressName 2 0, true⟩, ⟨.deliver 1 0, true⟩,
    ⟨.deliver 0 0, true⟩, ⟨.deliver 0 0, true⟩, ⟨.deliver 0 0, true⟩]

@[irreducible] def twoTracked : ProcSystem :=
  (exec (guarded (Keeps 1 2) netStep) (boot sampleImage) trackedOps).get (by decide +kernel)

theorem run_twoTracked : Run (Where (Keeps 1 2) NetStep) (boot sampleImage) trackedOps twoTracked := by
  unfold twoTracked
  exact run_where_get _

theorem tables_agree_tracked :
    Run (Where (Keeps 1 2) NetStep) (boot sampleImage) trackedOps twoTracked ∧
      twoTracked.TablesAgree 1 2 :=
  ⟨run_twoTracked, tables_agree sampleImage 1 2 (by decide) (by decide) _ _ run_twoTracked
    (by decide +kernel)⟩

/-! ## A request that never left -/

/-- Node 1 asks node 2 for a process before it knows its hardware address. -/
def unsentOps : List NetOp := [⟨.spawn 1 counterName 2 0, false⟩]

@[irreducible] def unsent : ProcSystem :=
  (exec netStep (boot sampleImage) unsentOps).get (by decide +kernel)

theorem unsent_disagrees : ∃ ops s, Run NetStep (boot sampleImage) ops s ∧ s.inFlight = [] ∧
    ¬ s.TablesAgree 1 2 := by
  have hrun : Run NetStep (boot sampleImage) unsentOps unsent := by
    unfold unsent
    exact run_get _
  have htracks : (unsent.nodes 1).Tracks 2 0 := by decide +kernel
  have hhosts : ∀ j, ¬ (unsent.nodes 2).Hosts 1 j := by decide +kernel
  refine ⟨unsentOps, unsent, hrun, by decide +kernel, ?_⟩
  rintro ⟨⟨f, hf, -⟩, -⟩
  exact hhosts _ (hf 0 htracks).1

end ProcSystem

end QuillOS.Cluster
