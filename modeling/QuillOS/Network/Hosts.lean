import QuillOS.E1000.Receive
import QuillOS.E1000.Transmit
import QuillOS.Network.Delivery

/-!
# Hosts with cards

Each node has the driver's two rings and a card under it. The stack gives its frames to
`E1000::send` one after the other and takes them from `E1000::poll_receive`; driver, card and wire
take their steps in any order. As long as no transmit ring runs full the hosts are nodes on a
network: a frame lies in the transmit ring or in the receive ring where it waits in a queue there.
-/

namespace QuillOS.Network

open Lib E1000

/-- A node, its driver and its card; `todo` are the frames the stack has yet to give to
`E1000::send`. -/
structure Host where
  node : Node
  tx : Tx
  rx : Rx
  todo : List Frame

/-- The hosts, and the frames on the way from one to the other. -/
structure Hosts (ι : Type*) where
  host : ι → Host
  flight : ι → ι → List Frame
  sent : ι → List Datagram
  calls : ι → List Call

inductive HostEvent (ι : Type*)
  | send (i : ι) (d : Datagram)
  | register (i : ι) (b : UdpBinding)
  | submit (i : ι) (stale : ℕ → UInt8)
  | txDriver (i : ι)
  | txCard (i : ι)
  | arrive (i j : ι) (lost : Bool)
  | poll (j : ι) (args : PollArgs)
  | rxDriver (j : ι) (stale : ℕ → UInt8)

namespace Hosts

variable {ι : Type*}

/-- Hosts after `E1000::init` and `Network::init`; the buffers hold anything. -/
def start (mac : ι → Mac) (hmac : ∀ i, (mac i).length = 6) (pages : ι → ℕ → ℕ → UInt8) : Hosts ι where
  host i :=
    { node := Node.boot (mac i) (hmac i), tx := txInit (pages i), rx := rxInit (pages i), todo := [] }
  flight _ _ := []
  sent _ := []
  calls _ := []

variable [DecidableEq ι]

def setHost (s : Hosts ι) (i : ι) (h : Host) : Hosts ι :=
  { s with host := Function.update s.host i h }

def send (s : Hosts ι) (i : ι) (d : Datagram) (r : Sending) : Hosts ι :=
  { s.setHost i { s.host i with node := r.state, todo := (s.host i).todo ++ r.sent } with
    sent := if r.datagram.isSome then Function.update s.sent i (s.sent i ++ [d]) else s.sent }

/-- The card puts the frame at `TDH` on the wire. -/
def transmit (s : Hosts ι) (i : ι) (tx : Tx) : Hosts ι :=
  let f := (s.host i).tx.frameAt (s.host i).tx.tdh
  { s.setHost i { s.host i with tx := tx } with
    flight := Function.update s.flight i fun j => s.flight i j ++ [f] }

/-- `poll_receive` has returned a frame, which `poll` gives to `process_packet`. -/
def handle (s : Hosts ι) (j : ι) (f : Frame) (stale : ℕ → UInt8) (rx : Rx) : Hosts ι :=
  let buf := bufferOf f stale
  let len := UInt16.ofNat f.length
  let out := (processPacket (s.host j).node.toState buf len).val
  { s.setHost j
      { s.host j with
        node := (s.host j).node.process buf len
        rx := rx
        todo := (s.host j).todo ++ out.sent } with
    calls := Function.update s.calls j
      (s.calls j ++ (out.delivery.map fun d => d.call buf).toList) }

/-- A frame reaches the card of `j`, which accepts it while its ring is not full. -/
def arrive (s : Hosts ι) (i j : ι) (lost : Bool) : Option (Hosts ι) :=
  match s.flight i j with
  | [] => none
  | f :: rest =>
    let s' :=
      { s with flight := Function.update s.flight i (Function.update (s.flight i) j rest) }
    if lost then some s'
    else if hlen : f.length ≤ bufSize then
      (rxStep (s.host j).rx (.card ⟨f, hlen⟩)).map fun rx => s'.setHost j { s.host j with rx := rx }
    else none

def step (s : Hosts ι) : HostEvent ι → Option (Hosts ι)
  | .send i d => ((s.host i).node.send d).map fun r => s.send i d r
  | .register i b =>
    let n := (s.host i).node
    some (s.setHost i
      { s.host i with node := { n with udpHandlers := registerUdpHandler n.udpHandlers b } })
  | .submit i stale =>
    match (s.host i).todo with
    | [] => none
    | f :: rest =>
      (txStep (s.host i).tx (.call (some (bufferOf f stale)) (UInt16.ofNat f.length))).map fun tx =>
        s.setHost i { s.host i with tx := tx, todo := rest }
  | .txDriver i =>
    (txStep (s.host i).tx .driver).map fun tx => s.setHost i { s.host i with tx := tx }
  | .txCard i => (txStep (s.host i).tx .card).map fun tx => s.transmit i tx
  | .arrive i j lost => s.arrive i j lost
  | .poll j args =>
    (rxStep (s.host j).rx (.poll args)).map fun rx => s.setHost j { s.host j with rx := rx }
  | .rxDriver j stale =>
    (rxStep (s.host j).rx .driver).map fun rx =>
      match (s.host j).rx.call with
      | some (.setTail f) => s.handle j f stale rx
      | _ => s.setHost j { s.host j with rx := rx }

/-- The driver does not fill the last free slot of a transmit ring. -/
def HasRoom (s : Hosts ι) : HostEvent ι → Prop
  | .txDriver i => Room (s.host i).tx .driver
  | _ => True

instance (s : Hosts ι) (e : HostEvent ι) : Decidable (s.HasRoom e) :=
  match e with
  | .txDriver i => inferInstanceAs (Decidable (Room (s.host i).tx .driver))
  | .send _ _ | .register _ _ | .submit _ _ | .txCard _ | .arrive _ _ _ | .poll _ _ |
    .rxDriver _ _ => .isTrue trivial

end Hosts

/-! ## What lies in the rings -/

/-- The frame a call of `E1000::send` under way was given. -/
def underway (tx : Tx) : List Frame := (tx.call.map fun c => c.1.frame).toList

/-- The frames that were accepted by the card and not returned by `poll_receive`. -/
def pending (rx : Rx) : List Frame := (arrived rx.log).drop (received rx.log).length

theorem window_of_sent {s u : Tx} {fs : List Frame} (hs : Visible s) (hu : Visible u)
    (hsent : sent u.log = sent s.log ++ fs) (htrans : transmitted u.log = transmitted s.log) :
    u.window = s.window ++ fs := by
  unfold Visible at hs hu
  rw [hsent, hs, htrans, List.append_assoc] at hu
  exact (List.append_cancel_left hu).symm

theorem window_of_transmitted {s u : Tx} {f : Frame} (hs : Visible s) (hu : Visible u)
    (hsent : sent u.log = sent s.log) (htrans : transmitted u.log = transmitted s.log ++ [f]) :
    s.window = f :: u.window := by
  unfold Visible at hs hu
  rw [hsent, hs, htrans, List.append_assoc] at hu
  exact List.append_cancel_left hu

/-- A step of a call of `send` goes on with it, or returns. -/
theorem sendStep_log (s : Tx) (a : SendArgs) (pc : SendPc) :
    ((∃ pc', (sendStep s a pc).call = some (a, pc')) ∧ (sendStep s a pc).log = s.log) ∨
      ((sendStep s a pc).call = none ∧ ((sendStep s a pc).log = s.log ++ [.failed] ∨
        (sendStep s a pc).log = s.log ++ [.sent a.frame])) := by
  cases pc with
  | wait timeout =>
    simp only [sendStep]
    split_ifs
    · exact .inl ⟨⟨_, rfl⟩, rfl⟩
    · exact .inl ⟨⟨_, rfl⟩, rfl⟩
    · exact .inr ⟨rfl, .inl rfl⟩
  | copy i =>
    simp only [sendStep]
    split_ifs
    · exact .inl ⟨⟨_, rfl⟩, rfl⟩
    · exact .inl ⟨⟨_, rfl⟩, rfl⟩
  | setLength => exact .inl ⟨⟨_, rfl⟩, rfl⟩
  | setCmd => exact .inl ⟨⟨_, rfl⟩, rfl⟩
  | setStatus => exact .inl ⟨⟨_, rfl⟩, rfl⟩
  | setTail => exact .inr ⟨rfl, .inr rfl⟩

theorem sent_failed (log : List TxEvent) :
    sent (log ++ [.failed]) = sent log ++ [] ∧
      transmitted (log ++ [.failed]) = transmitted log :=
  ⟨sent_append _ _, (transmitted_append _ _).trans (List.append_nil _)⟩

/-- A step of a call of `send` goes on with it, fails, or puts its frame into the ring. -/
theorem driver_window {s u : Tx} (hs : Visible s) (hu : Visible u) (hstep : TxStep s .driver u) :
    (underway u = underway s ∧ u.window = s.window) ∨
      ∃ f, underway s = [f] ∧ underway u = [] ∧
        (u.window = s.window ∨ u.window = s.window ++ [f]) := by
  obtain ⟨⟨a, pc⟩, hcall, rfl⟩ := Option.map_eq_some_iff.mp hstep
  have hunder : underway s = [a.frame] := by
    rw [underway, hcall]
    rfl
  dsimp only at hu ⊢
  rcases sendStep_log s a pc with ⟨⟨pc', hcall'⟩, hlog⟩ | ⟨hcall', hlog⟩
  · left
    rw [hunder, underway, hcall']
    refine ⟨rfl, ?_⟩
    rw [window_of_sent hs hu (by rw [hlog, List.append_nil]) (by rw [hlog]), List.append_nil]
  · refine .inr ⟨a.frame, hunder, by rw [underway, hcall']; rfl, hlog.imp (fun hlog => ?_) fun hlog => ?_⟩
    · obtain ⟨hsent, htrans⟩ := sent_failed s.log
      rw [window_of_sent hs hu (by rw [hlog, hsent]) (by rw [hlog, htrans]), List.append_nil]
    · apply window_of_sent hs hu
      · rw [hlog]
        exact sent_append _ _
      · rw [hlog]
        exact (transmitted_append _ _).trans (List.append_nil _)

/-- The card takes the first frame of its window. -/
theorem card_window {s u : Tx} (hs : Visible s) (hu : Visible u) (hstep : TxStep s .card u) :
    s.window = s.frameAt s.tdh :: u.window ∧ underway u = underway s := by
  unfold TxStep txStep at hstep
  dsimp only at hstep
  split_ifs at hstep
  obtain rfl := Option.some.inj hstep
  refine ⟨window_of_transmitted hs hu ?_ ?_, rfl⟩
  · exact (sent_append _ _).trans (List.append_nil _)
  · exact transmitted_append _ _

/-- A call of `send` starts, or fails at once. -/
theorem call_window {s u : Tx} {data : ℕ → UInt8} {len : UInt16} (hs : Visible s) (hu : Visible u)
    (hstep : TxStep s (.call (some data) len) u) :
    underway s = [] ∧ u.window = s.window ∧
      (underway u = [] ∨ underway u = [(List.range len.toNat).map data]) := by
  unfold TxStep txStep at hstep
  dsimp only at hstep
  split_ifs at hstep with hidle
  obtain rfl := Option.some.inj hstep
  have hcall := Option.isNone_iff_eq_none.mp hidle
  have hunder : underway s = [] := by
    rw [underway, hcall]
    rfl
  have hcases : send s (some data) len = s.finish .failed ∨
      send s (some data) len = { s with call := some (⟨data, len⟩, .wait 10000) } := by
    unfold send
    dsimp only
    split_ifs
    · exact .inl rfl
    · exact .inr rfl
  rcases hcases with heq | heq
  · rw [heq] at hu ⊢
    obtain ⟨hsent, htrans⟩ := sent_failed s.log
    have hwin := window_of_sent hs hu hsent htrans
    exact ⟨hunder, hwin.trans (List.append_nil _), .inl rfl⟩
  · rw [heq] at hu ⊢
    exact ⟨hunder, rfl, .inr rfl⟩

theorem pending_of_eq {s u : Rx} (harr : arrived u.log = arrived s.log)
    (hrec : received u.log = received s.log) : pending u = pending s := by
  unfold pending
  rw [harr, hrec]

/-- The card appends what it accepts. -/
theorem fill_pending {s u : Rx} {f : Arrival} (hs : received s.log <+: arrived s.log)
    (hstep : RxStep s (.card f) u) : pending u = pending s ++ [f.bytes] := by
  unfold RxStep rxStep at hstep
  dsimp only at hstep
  split_ifs at hstep
  obtain rfl := Option.some.inj hstep
  have harr : arrived (s.log ++ [.arrived f.bytes]) = arrived s.log ++ [f.bytes] := arrived_append _ _
  have hrec : received (s.log ++ [.arrived f.bytes]) = received s.log :=
    (received_append _ _).trans (List.append_nil _)
  unfold pending Rx.fill
  dsimp only
  rw [harr, hrec, List.drop_append_of_le_length hs.length_le]

theorem poll_pending {s u : Rx} {args : PollArgs} (hstep : RxStep s (.poll args) u) :
    pending u = pending s := by
  unfold RxStep rxStep at hstep
  dsimp only at hstep
  split_ifs at hstep
  obtain rfl := Option.some.inj hstep
  unfold pollReceive
  split_ifs
  · exact pending_of_eq ((arrived_append _ _).trans (List.append_nil _))
      ((received_append _ _).trans (List.append_nil _))
  · rfl

/-- A step of a call of `poll_receive` that does not return a frame. -/
theorem poll_driver_pending {s u : Rx} (hstep : RxStep s .driver u)
    (hcall : ∀ f, s.call ≠ some (.setTail f)) : pending u = pending s := by
  obtain ⟨pc, hpc, rfl⟩ := Option.map_eq_some_iff.mp hstep
  cases pc with
  | test =>
    simp only [pollStep]
    split_ifs
    · rfl
    · exact pending_of_eq ((arrived_append _ _).trans (List.append_nil _))
        ((received_append _ _).trans (List.append_nil _))
  | getLength => rfl
  | copy pktLen out =>
    simp only [pollStep]
    split_ifs <;> rfl
  | setStatus out => rfl
  | setTail out => exact absurd hpc (hcall out)

/-- What is returned is what was accepted first. -/
theorem returned_pending {s u : Rx} {f : Frame} (hu : received u.log <+: arrived u.log)
    (hstep : RxStep s .driver u) (hcall : s.call = some (.setTail f)) :
    pending s = f :: pending u := by
  obtain ⟨pc, hpc, rfl⟩ := Option.map_eq_some_iff.mp hstep
  obtain rfl := Option.some.inj (hpc.symm.trans hcall)
  have harr : arrived (pollStep s (.setTail f)).log = arrived s.log :=
    (arrived_append _ _).trans (List.append_nil _)
  have hrec : received (pollStep s (.setTail f)).log = received s.log ++ [f] := received_append _ _
  obtain ⟨rest, hrest⟩ := hu
  unfold pending
  rw [harr, hrec] at hrest ⊢
  rw [← hrest, List.append_assoc, List.drop_left, List.length_append, ← List.append_assoc,
    List.drop_left' (by rw [List.length_append])]
  rfl

/-! ## Refinement -/

/-- The hosts are these nodes on this network. -/
structure Represents {ι : Type*} (s : Hosts ι) (l : Lan ι) : Prop where
  node : ∀ i, l.node i = (s.host i).node
  todo : ∀ i, l.net.todo i = underway (s.host i).tx ++ (s.host i).todo
  queue : ∀ i, l.net.queue i = (s.host i).tx.window
  flight : l.net.flight = s.flight
  inbox : ∀ j, (l.net.inbox j).map Prod.snd = pending (s.host j).rx
  sent : l.sent = s.sent
  calls : l.calls = s.calls

/-- The invariants of the rings. -/
structure Hosts.RingsInv {ι : Type*} (s : Hosts ι) : Prop where
  tx : ∀ i, ∃ h t, TxInv (s.host i).tx h t
  rx : ∀ i, ∃ r a, RxInv (s.host i).rx r a

theorem Hosts.RingsInv.visible {ι : Type*} {s : Hosts ι} (h : s.RingsInv) (i : ι) :
    Visible (s.host i).tx := by
  obtain ⟨_, _, inv⟩ := h.tx i
  exact inv.visible

theorem Hosts.RingsInv.in_order {ι : Type*} {s : Hosts ι} (h : s.RingsInv) (i : ι) :
    received (s.host i).rx.log <+: arrived (s.host i).rx.log := by
  obtain ⟨_, _, inv⟩ := h.rx i
  exact inv.in_order

section Steps

variable {ι : Type*} [DecidableEq ι] {s t : Hosts ι} {l : Lan ι} {mac : ι → Mac}

/-- The rings of the host that takes a step. -/
theorem Hosts.RingsInv.setHost (h : s.RingsInv) {i : ι} {x : Host}
    (htx : ∃ h t, TxInv x.tx h t) (hrx : ∃ r a, RxInv x.rx r a) : (s.setHost i x).RingsInv where
  tx := by
    unfold Hosts.setHost
    rw [Function.forall_update_iff s.host fun _ x => ∃ h t, TxInv x.tx h t]
    exact ⟨htx, fun k _ => h.tx k⟩
  rx := by
    unfold Hosts.setHost
    rw [Function.forall_update_iff s.host fun _ x => ∃ r a, RxInv x.rx r a]
    exact ⟨hrx, fun k _ => h.rx k⟩

/-- A step that concerns one host. -/
theorem Represents.at {i : ι} {x : Host} {l' : Lan ι} (h : Represents s l)
    (hhost : t.host = Function.update s.host i x)
    (helse : ∀ k, k ≠ i → l'.node k = l.node k ∧ l'.net.todo k = l.net.todo k ∧
      l'.net.queue k = l.net.queue k ∧ l'.net.inbox k = l.net.inbox k)
    (hnode : l'.node i = x.node) (htodo : l'.net.todo i = underway x.tx ++ x.todo)
    (hqueue : l'.net.queue i = x.tx.window) (hinbox : (l'.net.inbox i).map Prod.snd = pending x.rx)
    (hflight : l'.net.flight = t.flight) (hsent : l'.sent = t.sent) (hcalls : l'.calls = t.calls) :
    Represents t l' := by
  have hall : ∀ k, l'.node k = (t.host k).node ∧
      l'.net.todo k = underway (t.host k).tx ++ (t.host k).todo ∧
      l'.net.queue k = (t.host k).tx.window ∧
      (l'.net.inbox k).map Prod.snd = pending (t.host k).rx := by
    intro k
    rw [hhost]
    by_cases hk : k = i
    · subst hk
      rw [Function.update_self]
      exact ⟨hnode, htodo, hqueue, hinbox⟩
    · rw [Function.update_of_ne hk]
      obtain ⟨h1, h2, h3, h4⟩ := helse k hk
      rw [h1, h2, h3, h4]
      exact ⟨h.node k, h.todo k, h.queue k, h.inbox k⟩
  exact ⟨fun k => (hall k).1, fun k => (hall k).2.1, fun k => (hall k).2.2.1, hflight,
    fun k => (hall k).2.2.2, hsent, hcalls⟩

/-- A step of the network, or none. -/
def LanSteps (l l' : Lan ι) : Prop := l' = l ∨ ∃ e, l.step e = some l'

theorem lanSteps_move {e : Move ι} {net : Medium ι (List UInt8)} (h : l.net.move e = some net) :
    LanSteps l { l with net := net } :=
  .inr ⟨.move e, by rw [Lan.step, h]; rfl⟩

theorem lanSteps_handle {j : ι} {p : ι × List UInt8} {net : Medium ι (List UInt8)}
    (h : l.net.take j = some (p, net)) (stale : ℕ → UInt8) :
    LanSteps l (l.handle j p.2 stale net) :=
  .inr ⟨.handle j stale, by rw [Lan.step, h]; rfl⟩

theorem represents_send {i : ι} {d : Datagram} {r : Sending} (h : Represents s l)
    (hr : (s.host i).node.send d = some r) :
    ∃ l', LanSteps l l' ∧ Represents (s.send i d r) l' := by
  rw [← h.node] at hr
  refine ⟨l.send i d r, .inr ⟨.send i d, by rw [Lan.step, hr]; rfl⟩, h.at rfl (fun k hk => ?_) ?_ ?_ ?_
    ?_ h.flight ?_ h.calls⟩
  · simp [Lan.send, Medium.give, hk]
  · simp [Lan.send]
  · simp [Lan.send, Medium.give, h.todo]
  · exact h.queue i
  · exact h.inbox i
  · simp [Lan.send, Hosts.send, Hosts.setHost, h.sent]

theorem represents_register (h : Represents s l) (i : ι) (b : UdpBinding) :
    ∃ l', LanSteps l l' ∧ Represents (s.setHost i
      { s.host i with
        node := { (s.host i).node with
          udpHandlers := registerUdpHandler (s.host i).node.udpHandlers b } }) l' := by
  refine ⟨l.register i b, .inr ⟨.register i b, rfl⟩, h.at rfl (fun k hk => ?_) ?_ ?_ ?_ ?_ h.flight
    h.sent h.calls⟩
  · simp [Lan.register, hk]
  · simp [Lan.register, h.node]
  · exact h.todo i
  · exact h.queue i
  · exact h.inbox i

/-- The frames on the network fit into the buffers. -/
theorem Lan.Inv.length_le (hl : Lan.Inv mac l) {i j : ι} {f : List UInt8}
    (hf : f ∈ l.net.path i j) : f.length ≤ sizeofSendBuf := by
  cases hl.genuine i f (hl.ordered.mem_given hf) with
  | arp hdst htarget =>
    rw [length_arpFrame hdst (hl.length i) htarget]
    decide
  | datagram hdst haddr hfits =>
    rwa [Datagram.length_frame hdst (hl.length i)]

theorem represents_submit {i : ι} {stale : ℕ → UInt8} {f : Frame} {rest : List Frame} {tx : Tx}
    (h : Represents s l) (hl : Lan.Inv mac l) (hs : Visible (s.host i).tx) (hu : Visible tx)
    (htodo : (s.host i).todo = f :: rest)
    (hstep : TxStep (s.host i).tx (.call (some (bufferOf f stale)) (UInt16.ofNat f.length)) tx) :
    ∃ l', LanSteps l l' ∧
      Represents (s.setHost i { s.host i with tx := tx, todo := rest }) l' := by
  obtain ⟨hidle, hwindow, hcall⟩ := call_window hs hu hstep
  have hlan : l.net.todo i = f :: rest := by rw [h.todo, hidle, htodo, List.nil_append]
  have hlen : f.length ≤ sizeofSendBuf := by
    refine hl.length_le (i := i) (j := i) ?_
    simp [Medium.path, hlan]
  have hnat : (UInt16.ofNat f.length).toNat = f.length := by
    unfold sizeofSendBuf at hlen
    rw [UInt16.toNat_ofNat', Nat.mod_eq_of_lt (by omega)]
  rcases hcall with hfailed | hcalled
  · -- The call has failed, and the frame is lost.
    refine ⟨_, lanSteps_move (e := .submit i true) (Medium.submit_cons hlan true),
      h.at rfl (fun k hk => ?_) (h.node i) ?_ ?_ (h.inbox i) h.flight h.sent h.calls⟩
    · simp [hk]
    · simp [hfailed]
    · simpa [hwindow] using h.queue i
  · refine ⟨l, .inl rfl, ?_⟩
    have hframe : (List.range (UInt16.ofNat f.length).toNat).map (bufferOf f stale) = f := by
      rw [hnat]
      simpa using Lan.map_range_stored (stored_bufferOf f stale)
    refine h.at rfl (fun k _ => ⟨rfl, rfl, rfl, rfl⟩) (h.node i) ?_ ?_ (h.inbox i) h.flight h.sent
      h.calls
    · simp only [hcalled, hframe, hlan, List.singleton_append]
    · simpa only [hwindow] using h.queue i

theorem represents_txDriver {i : ι} {tx : Tx} (h : Represents s l) (hs : Visible (s.host i).tx)
    (hu : Visible tx) (hstep : TxStep (s.host i).tx .driver tx) :
    ∃ l', LanSteps l l' ∧ Represents (s.setHost i { s.host i with tx := tx }) l' := by
  have hlan := h.todo i
  have hqueue := h.queue i
  rcases driver_window hs hu hstep with ⟨hunder, hwindow⟩ | ⟨f, hunder, hdone, hwindow⟩
  · refine ⟨l, .inl rfl, h.at rfl (fun k _ => ⟨rfl, rfl, rfl, rfl⟩) (h.node i) ?_ ?_ (h.inbox i)
      h.flight h.sent h.calls⟩
    · rw [hlan, hunder]
    · rw [hqueue, hwindow]
  · rw [hunder, List.singleton_append] at hlan
    rcases hwindow with hwindow | hwindow
    · refine ⟨_, lanSteps_move (e := .submit i true) (Medium.submit_cons hlan true),
        h.at rfl (fun k hk => ?_) (h.node i) ?_ ?_ (h.inbox i) h.flight h.sent h.calls⟩
      · simp [hk]
      · simp [hdone]
      · simpa [hwindow] using hqueue
    · refine ⟨_, lanSteps_move (e := .submit i false) (Medium.submit_cons hlan false),
        h.at rfl (fun k hk => ?_) (h.node i) ?_ ?_ (h.inbox i) h.flight h.sent h.calls⟩
      · simp [hk]
      · simp [hdone]
      · simp [hwindow, hqueue]

theorem represents_txCard {i : ι} {tx : Tx} (h : Represents s l) (hs : Visible (s.host i).tx)
    (hu : Visible tx) (hstep : TxStep (s.host i).tx .card tx) :
    ∃ l', LanSteps l l' ∧ Represents (s.transmit i tx) l' := by
  obtain ⟨hwindow, hunder⟩ := card_window hs hu hstep
  have hlan := h.todo i
  have hqueue := h.queue i
  rw [hwindow] at hqueue
  refine ⟨_, lanSteps_move (e := .transmit i) (Medium.transmit_cons hqueue),
    h.at rfl (fun k hk => ?_) (h.node i) ?_ ?_ (h.inbox i) ?_ h.sent h.calls⟩
  · simp [hk]
  · rw [hunder]
    exact hlan
  · simp
  · simp [Hosts.transmit, Hosts.setHost, h.flight]

theorem represents_poll {j : ι} {rx : Rx} (h : Represents s l)
    (hpending : pending rx = pending (s.host j).rx) :
    ∃ l', LanSteps l l' ∧ Represents (s.setHost j { s.host j with rx := rx }) l' := by
  refine ⟨l, .inl rfl, h.at rfl (fun k _ => ⟨rfl, rfl, rfl, rfl⟩) (h.node j) (h.todo j) (h.queue j) ?_
    h.flight h.sent h.calls⟩
  rw [hpending]
  exact h.inbox j

theorem represents_arrive {i j : ι} {lost : Bool} (h : Represents s l) (hrings : s.RingsInv)
    (hstep : s.arrive i j lost = some t) :
    ∃ l', LanSteps l l' ∧ Represents t l' := by
  unfold Hosts.arrive at hstep
  split at hstep
  · cases hstep
  · rename_i f rest hflight
    have hlan : l.net.flight i j = f :: rest := by rw [h.flight, hflight]
    dsimp only at hstep
    split_ifs at hstep with hlost hlen
    · obtain rfl := Option.some.inj hstep
      refine ⟨_, lanSteps_move (e := .arrive i j true) (Medium.arrive_cons hlan true),
        h.node, h.todo, h.queue, ?_, h.inbox, h.sent, h.calls⟩
      simp [h.flight]
    · obtain ⟨rx, hrx, rfl⟩ := Option.map_eq_some_iff.mp hstep
      have hpending := fill_pending (hrings.in_order j) hrx
      refine ⟨_, lanSteps_move (e := .arrive i j false) (Medium.arrive_cons hlan false),
        h.at rfl (fun k hk => ?_) (h.node j) (h.todo j) (h.queue j) ?_ ?_ h.sent h.calls⟩
      · simp [hk]
      · simp [hpending, h.inbox]
      · simp [Hosts.setHost, h.flight]

theorem represents_handle {j : ι} {f : Frame} {rx : Rx} (h : Represents s l)
    (hu : received rx.log <+: arrived rx.log) (hstep : RxStep (s.host j).rx .driver rx)
    (hcall : (s.host j).rx.call = some (.setTail f)) (stale : ℕ → UInt8) :
    ∃ l', LanSteps l l' ∧ Represents (s.handle j f stale rx) l' := by
  have hinbox := h.inbox j
  rw [returned_pending hu hstep hcall] at hinbox
  obtain ⟨p, rest, hp, rfl, hrest⟩ := List.map_eq_cons_iff.mp hinbox
  refine ⟨_, lanSteps_handle (Medium.take_cons hp) stale,
    h.at rfl (fun k hk => ?_) ?_ ?_ ?_ ?_ ?_ h.sent ?_⟩
  · simp [Lan.handle, Medium.give, hk]
  · simp [Lan.handle, h.node]
  · simp [Lan.handle, Medium.give, h.todo, h.node]
  · exact h.queue j
  · simp [Lan.handle, Medium.give, hrest]
  · exact h.flight
  · simp only [Lan.handle, Hosts.handle, h.node, h.calls]

theorem Hosts.RingsInv.arrive {i j : ι} {lost : Bool} (h : s.RingsInv)
    (hstep : s.arrive i j lost = some t) : t.RingsInv := by
  unfold Hosts.arrive at hstep
  split at hstep
  · cases hstep
  · dsimp only at hstep
    split_ifs at hstep with hlost hlen
    · obtain rfl := Option.some.inj hstep
      exact ⟨h.tx, h.rx⟩
    · obtain ⟨rx, hrx, rfl⟩ := Option.map_eq_some_iff.mp hstep
      obtain ⟨_, _, inv⟩ := h.rx j
      have hinv := h.setHost (i := j) (x := { s.host j with rx := rx }) (h.tx j) (inv.step hrx)
      exact ⟨hinv.tx, hinv.rx⟩

theorem Hosts.RingsInv.handle {j : ι} {rx : Rx} (h : s.RingsInv) (f : Frame) (stale : ℕ → UInt8)
    (hrx : ∃ r a, RxInv rx r a) : (s.handle j f stale rx).RingsInv := by
  let buf := bufferOf f stale
  let len := UInt16.ofNat f.length
  have hinv := h.setHost (i := j)
    (x :=
      { s.host j with
        node := (s.host j).node.process buf len
        rx := rx
        todo := (s.host j).todo ++
          (processPacket (s.host j).node.toState buf len).val.sent }) (h.tx j) hrx
  exact ⟨hinv.tx, hinv.rx⟩

/-- Every step of the hosts is a step of the network, or none. -/
theorem represents_hostStep {e : HostEvent ι} (h : Represents s l) (hl : Lan.Inv mac l)
    (hrings : s.RingsInv) (hroom : s.HasRoom e) (hstep : s.step e = some t) :
    t.RingsInv ∧ ∃ l', LanSteps l l' ∧ Represents t l' := by
  cases e with
  | send i d =>
    obtain ⟨r, hr, rfl⟩ := Option.map_eq_some_iff.mp hstep
    have hinv : (s.setHost i { s.host i with
        node := r.state, todo := (s.host i).todo ++ r.sent }).RingsInv :=
      hrings.setHost (hrings.tx i) (hrings.rx i)
    exact ⟨⟨hinv.tx, hinv.rx⟩, represents_send h hr⟩
  | register i b =>
    obtain rfl := Option.some.inj hstep
    exact ⟨hrings.setHost (hrings.tx i) (hrings.rx i), represents_register h i b⟩
  | submit i stale =>
    simp only [Hosts.step] at hstep
    split at hstep
    · cases hstep
    · rename_i f rest htodo
      obtain ⟨tx, htx, rfl⟩ := Option.map_eq_some_iff.mp hstep
      obtain ⟨_, _, inv⟩ := hrings.tx i
      have hfree : Room (s.host i).tx (.call (some (bufferOf f stale)) (UInt16.ofNat f.length)) :=
        trivial
      obtain ⟨n, n', inv'⟩ := inv.step hfree htx
      exact ⟨hrings.setHost ⟨n, n', inv'⟩ (hrings.rx i),
        represents_submit h hl inv.visible inv'.visible htodo htx⟩
  | txDriver i =>
    obtain ⟨tx, htx, rfl⟩ := Option.map_eq_some_iff.mp hstep
    obtain ⟨_, _, inv⟩ := hrings.tx i
    have hfree : Room (s.host i).tx .driver := hroom
    obtain ⟨n, n', inv'⟩ := inv.step hfree htx
    exact ⟨hrings.setHost ⟨n, n', inv'⟩ (hrings.rx i),
      represents_txDriver h inv.visible inv'.visible htx⟩
  | txCard i =>
    obtain ⟨tx, htx, rfl⟩ := Option.map_eq_some_iff.mp hstep
    obtain ⟨_, _, inv⟩ := hrings.tx i
    have hfree : Room (s.host i).tx .card := trivial
    obtain ⟨n, n', inv'⟩ := inv.step hfree htx
    have hinv : (s.setHost i { s.host i with tx := tx }).RingsInv :=
      hrings.setHost ⟨n, n', inv'⟩ (hrings.rx i)
    exact ⟨⟨hinv.tx, hinv.rx⟩, represents_txCard h inv.visible inv'.visible htx⟩
  | arrive i j lost => exact ⟨hrings.arrive hstep, represents_arrive h hrings hstep⟩
  | poll j args =>
    obtain ⟨rx, hrx, rfl⟩ := Option.map_eq_some_iff.mp hstep
    obtain ⟨_, _, inv⟩ := hrings.rx j
    exact ⟨hrings.setHost (hrings.tx j) (inv.step hrx), represents_poll h (poll_pending hrx)⟩
  | rxDriver j stale =>
    obtain ⟨rx, hrx, rfl⟩ := Option.map_eq_some_iff.mp hstep
    obtain ⟨_, _, inv⟩ := hrings.rx j
    obtain ⟨n, n', inv'⟩ := inv.step hrx
    split
    · rename_i f hcall
      exact ⟨hrings.handle f stale ⟨n, n', inv'⟩,
        represents_handle h inv'.in_order hrx hcall stale⟩
    · rename_i hcall
      refine ⟨hrings.setHost (hrings.tx j) ⟨n, n', inv'⟩, represents_poll h ?_⟩
      exact poll_driver_pending hrx fun f hf => hcall f hf

omit [DecidableEq ι] in
theorem represents_start (mac : ι → Mac) (hmac : ∀ i, (mac i).length = 6)
    (pages : ι → ℕ → ℕ → UInt8) :
    (Hosts.start mac hmac pages).RingsInv ∧
      Represents (Hosts.start mac hmac pages) (Lan.start mac hmac) := by
  refine ⟨⟨fun i => ⟨0, 0, txInit_inv (pages i)⟩, fun i => ⟨0, 0, rxInit_inv (pages i)⟩⟩,
    fun _ => rfl, fun _ => rfl, fun i => ?_, rfl, fun _ => rfl, rfl, rfl⟩
  have hvis := (txInit_inv (pages i)).visible
  unfold Visible at hvis
  exact (List.self_eq_append_right.mp hvis).symm

theorem represents_of_run {hmac : ∀ i, (mac i).length = 6} {pages : ι → ℕ → ℕ → UInt8}
    {es : List (HostEvent ι)}
    (hrun : Run (Where Hosts.HasRoom fun s e t => s.step e = some t) (Hosts.start mac hmac pages) es
      s) :
    ∃ les l, Run (fun s e t => s.step e = some t) (Lan.start mac hmac) les l ∧ Represents s l := by
  have h : s.RingsInv ∧
      ∃ les l, Run (fun s e t => s.step e = some t) (Lan.start mac hmac) les l ∧ Represents s l := by
    refine hrun.invariant (fun s => s.RingsInv ∧ ∃ les l,
      Run (fun s e t => s.step e = some t) (Lan.start mac hmac) les l ∧ Represents s l) ?_ ?_
    · obtain ⟨hrings, hrep⟩ := represents_start mac hmac pages
      exact ⟨hrings, [], _, .nil _, hrep⟩
    · rintro a e b ⟨hrings, les, l, hlan, hrep⟩ ⟨hroom, hstep⟩
      obtain ⟨hrings', l', hsteps, hrep'⟩ :=
        represents_hostStep hrep (Lan.inv_of_run hlan) hrings hroom hstep
      refine ⟨hrings', ?_⟩
      rcases hsteps with rfl | ⟨e', he'⟩
      · exact ⟨les, _, hlan, hrep'⟩
      · exact ⟨les ++ [e'], l', hlan.snoc he', hrep'⟩
  exact h.2

/-- In every interleaving of the stacks, the drivers, the cards and the wire in which no transmit
ring runs full, the hosts are the nodes of a network: each has the state of its node, a frame in
its transmit ring or its receive ring waits in the queue or the inbox there, and the same datagrams
were sent and the same calls made. -/
theorem hosts_refine_lan (mac : ι → Mac) (hmac : ∀ i, (mac i).length = 6)
    (pages : ι → ℕ → ℕ → UInt8) (es : List (HostEvent ι)) (s : Hosts ι)
    (hrun : Run (Where Hosts.HasRoom fun s e t => s.step e = some t) (Hosts.start mac hmac pages) es
      s) :
    ∃ les l, Run (fun s e t => s.step e = some t) (Lan.start mac hmac) les l ∧ Represents s l :=
  represents_of_run hrun

/-- So the handlers of a host are called for the datagrams of the others, in the order these were
sent in and at most once each. -/
theorem hosts_deliver_in_order (mac : ι → Mac) (hmac : ∀ i, (mac i).length = 6)
    (hip : Function.Injective fun i => Lan.ipOf (mac i)) (pages : ι → ℕ → ℕ → UInt8)
    (es : List (HostEvent ι)) (s : Hosts ι)
    (hrun : Run (Where Hosts.HasRoom fun s e t => s.step e = some t) (Hosts.start mac hmac pages) es
      s) (i j : ι) :
    ∃ ds, ds.Sublist (s.sent i) ∧
      List.Forall₂ (Lan.Carries (s.host j).node.toState)
        ((s.calls j).filter fun c => c.srcIp = Lan.ipOf (mac i)) ds := by
  obtain ⟨les, l, hlan, hrep⟩ := represents_of_run hrun
  rw [← hrep.sent, ← hrep.calls, ← hrep.node]
  exact (Lan.carried_of_run hip hlan).2 i j

end Steps

theorem oneByte_ne : (1 : UInt64) ≠ 0 := by decide

/-- The second host broadcasts a datagram, and the first one polls. -/
def broadcastEvents : List (HostEvent Bool) :=
  [.register false ⟨9000, 64⟩, .send true ⟨0xFFFFFFFF, 9000, 9001, [1, 2, 3]⟩,
    .submit true fun _ => 0] ++ List.replicate 51 (.txDriver true) ++
    [.txCard true, .arrive true false false, .poll false ⟨1, 1, oneByte_ne, oneByte_ne⟩] ++
    List.replicate 50 (.rxDriver false fun _ => 0)

def broadcastHosts : Hosts Bool :=
  (exec (guarded Hosts.HasRoom Hosts.step) (Hosts.start twoMacs twoMacs_length fun _ _ _ => 0)
    broadcastEvents).get (by decide +kernel)

theorem hosts_refine_lan_broadcast : ∃ les l,
    Run (fun s e t => s.step e = some t) (Lan.start twoMacs twoMacs_length) les l ∧
      Represents broadcastHosts l :=
  hosts_refine_lan twoMacs twoMacs_length _ broadcastEvents broadcastHosts (run_where_get _)

theorem hosts_deliver_in_order_broadcast :
    broadcastHosts.calls false = [⟨64, Lan.ipOf (twoMacs true), 9001, [1, 2, 3]⟩] ∧
      ∃ ds, ds.Sublist (broadcastHosts.sent true) ∧
        List.Forall₂ (Lan.Carries (broadcastHosts.host false).node.toState)
          ((broadcastHosts.calls false).filter fun c => c.srcIp = Lan.ipOf (twoMacs true)) ds :=
  ⟨by decide +kernel,
    hosts_deliver_in_order twoMacs twoMacs_length (by decide +kernel) _ broadcastEvents
      broadcastHosts (run_where_get _) true false⟩

end QuillOS.Network
