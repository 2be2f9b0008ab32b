import QuillOS.Lib.Medium
import QuillOS.Network.Frames

/-!
# Nodes on a network

Any number of nodes share a medium that may lose frames and delay them. A step is a call of
`send_udp`, a call of `register_udp_handler`, the handling of a received frame, or a step of the
medium. `poll` takes the frames one by one, so that between two of them anything may happen.
-/

namespace QuillOS.Network

open Lib Lib.Traced

/-! ## A node that receives -/

/-- The states `process_packet` may leave. -/
theorem processPacket_state (s : State) (buf : ℕ → UInt8) (len : UInt16) :
    (processPacket s buf len).val.state = s ∨ (processPacket s buf len).val.state = s.counted ∨
      ∃ ip mac, mac.length = 6 ∧ (processPacket s buf len).val.state = arpStore s.counted ip mac := by
  unfold processPacket
  split
  · exact .inl rfl
  simp only [bind_val]
  split
  · unfold handleArp
    split
    · exact .inr (.inl rfl)
    · refine .inr (.inr ⟨(read32 buf (sizeofEthHeader + 14)).val,
        (readBytes buf (sizeofEthHeader + 8) 6).val, by simp [readBytes], ?_⟩)
      simp only [bind_val]
      split
      · rfl
      · simp only [bind_val]
        split <;> rfl
  split
  · exact .inr (.inl (handleIpv4_quiet _ _ _ _).1)
  · exact .inr (.inl rfl)

theorem arpStore_mac_length {s : State} {ip : UInt32} {mac : Mac} (hmac : mac.length = 6)
    (h : ∀ i, (s.arpTable i).mac.length = 6) (i : Fin arpTableSize) :
    ((arpStore s ip mac).arpTable i).mac.length = 6 := by
  unfold arpStore
  split
  · rename_i k hk
    by_cases hi : i = k
    · subst hi
      simpa using hmac
    · simpa [Function.update_of_ne hi] using h i
  · split
    · rename_i k hk
      by_cases hi : i = k
      · subst hi
        simpa using hmac
      · simpa [Function.update_of_ne hi] using h i
    · exact h i

theorem processPacket_keeps (s : State) (buf : ℕ → UInt8) (len : UInt16) :
    (processPacket s buf len).val.state.ourMac = s.ourMac ∧
      (processPacket s buf len).val.state.ourIp = s.ourIp ∧
      (processPacket s buf len).val.state.udpHandlers = s.udpHandlers := by
  rcases processPacket_state s buf len with h | h | ⟨ip, mac, -, h⟩
  · rw [h]
    exact ⟨rfl, rfl, rfl⟩
  · rw [h]
    exact ⟨rfl, rfl, rfl⟩
  · rw [h, arpStore_eq]
    exact ⟨rfl, rfl, rfl⟩

theorem processPacket_mac_length (n : Node) (buf : ℕ → UInt8) (len : UInt16) :
    (processPacket n.toState buf len).val.state.ourMac.length = 6 := by
  rw [(processPacket_keeps n.toState buf len).1, n.mac_length]

theorem processPacket_arp_length (n : Node) (buf : ℕ → UInt8) (len : UInt16)
    (i : Fin arpTableSize) :
    ((processPacket n.toState buf len).val.state.arpTable i).mac.length = 6 := by
  rcases processPacket_state n.toState buf len with h | h | ⟨ip, mac, hmac, h⟩
  · rw [h, n.arp_length]
  · rw [h]
    exact n.arp_length i
  · rw [h]
    exact arpStore_mac_length (s := n.toState.counted) hmac n.arp_length i

/-- A node after `process_packet`. -/
def Node.process (n : Node) (buf : ℕ → UInt8) (len : UInt16) : Node :=
  { n with
    toState := (processPacket n.toState buf len).val.state
    mac_length := processPacket_mac_length n buf len
    arp_length := processPacket_arp_length n buf len }

/-- A node after `Network::init`. -/
def Node.boot (mac : Mac) (hmac : mac.length = 6) : Node :=
  { init mac with
    netReady := true
    pktsSent := 0
    ipId := 1
    mac_length := hmac
    arp_length := fun _ => rfl }

/-! ## The network -/

/-- A call of a UDP handler, with the payload. -/
structure Call where
  handler : UInt64
  srcIp : UInt32
  srcPort : UInt16
  payload : List UInt8
  deriving DecidableEq

/-- The call a delivery stands for. -/
def Delivery.call (d : Delivery) (buf : ℕ → UInt8) : Call :=
  ⟨d.handler, d.srcIp, d.srcPort, (List.range d.len.toNat).map fun k => buf (d.off + k)⟩

/-- The nodes and the medium, with the datagrams each node has sent and the calls of its
handlers. -/
structure Lan (ι : Type*) where
  node : ι → Node
  net : Medium ι (List UInt8)
  sent : ι → List Datagram
  calls : ι → List Call

inductive LanEvent (ι : Type*)
  | send (i : ι) (d : Datagram)
  | register (i : ι) (b : UdpBinding)
  | handle (i : ι) (stale : ℕ → UInt8)
  | move (e : Move ι)

namespace Lan

variable {ι : Type*}

def start (mac : ι → Mac) (hmac : ∀ i, (mac i).length = 6) : Lan ι where
  node i := Node.boot (mac i) (hmac i)
  net := Medium.idle
  sent _ := []
  calls _ := []

variable [DecidableEq ι]

def send (s : Lan ι) (i : ι) (d : Datagram) (r : Sending) : Lan ι :=
  { s with
    node := Function.update s.node i r.state
    net := s.net.give i r.sent
    sent := if r.datagram.isSome then Function.update s.sent i (s.sent i ++ [d]) else s.sent }

def register (s : Lan ι) (i : ι) (b : UdpBinding) : Lan ι :=
  { s with
    node := Function.update s.node i
      { s.node i with udpHandlers := registerUdpHandler (s.node i).udpHandlers b } }

/-- The frame lies in `recv_buf`, before what an earlier one has left there. -/
def handle (s : Lan ι) (i : ι) (f : List UInt8) (stale : ℕ → UInt8)
    (net : Medium ι (List UInt8)) : Lan ι :=
  let buf := bufferOf f stale
  let len := UInt16.ofNat f.length
  let out := (processPacket (s.node i).toState buf len).val
  { s with
    node := Function.update s.node i ((s.node i).process buf len)
    net := net.give i out.sent
    calls := Function.update s.calls i
      (s.calls i ++ (out.delivery.map fun d => d.call buf).toList) }

def step (s : Lan ι) : LanEvent ι → Option (Lan ι)
  | .send i d => ((s.node i).send d).map fun r => s.send i d r
  | .register i b => some (s.register i b)
  | .handle i stale => (s.net.take i).map fun r => s.handle i r.1.2 stale r.2
  | .move e => (s.net.move e).map fun net => { s with net := net }

/-! ## Frames on the network -/

/-- The address `Network::init` gives the node with a hardware address. -/
def ipOf (mac : Mac) : UInt32 := (init mac).ourIp

/-- The hardware address in a frame of node `i` is the broadcast address, for a broadcast, or that
of a node with the destination's address. -/
def Addressed (mac : ι → Mac) (i : ι) (dstIp : UInt32) (dst : Mac) : Prop :=
  ((dstIp = 0xFFFFFFFF ∨ dstIp = ipOf (mac i) ||| htonl 0x000000FF) ∧ dst = broadcastMac) ∨
    ∃ j, dstIp = ipOf (mac j) ∧ dst = mac j

/-- The frames that node `i` gives. -/
inductive Genuine (mac : ι → Mac) (i : ι) : List UInt8 → Prop
  | arp {oper : UInt16} {dst targetMac : Mac} {targetIp : UInt32} (hdst : dst.length = 6)
      (htarget : targetMac.length = 6) :
      Genuine mac i (arpFrame oper dst (mac i) (ipOf (mac i)) targetMac targetIp)
  | datagram {d : Datagram} {dst : Mac} {id : UInt16} (hdst : dst.length = 6)
      (haddr : Addressed mac i d.dstIp dst) (hfits : 42 + d.data.length ≤ sizeofSendBuf) :
      Genuine mac i (d.frame dst (mac i) (ipOf (mac i)) id)

/-- Node `j` has handled an ARP packet of node `i`. -/
def Heard (s : Lan ι) (i j : ι) : Prop := ∃ f ∈ Medium.sentBy i (s.net.taken j), IsArp f

instance (s : Lan ι) (i j : ι) : Decidable (s.Heard i j) :=
  inferInstanceAs (Decidable (∃ f ∈ Medium.sentBy i (s.net.taken j), IsArp f))

/-- The cache answers with nodes that were heard. -/
def Knows (mac : ι → Mac) (s : Lan ι) (j : ι) : Prop :=
  ∀ ip m, arpLookup (s.node j).toState ip = some m →
    ∃ i, ip = ipOf (mac i) ∧ m = mac i ∧ s.Heard i j

structure Inv (mac : ι → Mac) (s : Lan ι) : Prop where
  length : ∀ i, (mac i).length = 6
  ourMac : ∀ i, (s.node i).ourMac = mac i
  ourIp : ∀ i, (s.node i).ourIp = ipOf (mac i)
  bound : ∀ i, ∃ bs, (s.node i).udpHandlers = registerAll bs
  distinct : ∀ i, (s.node i).toState.Distinct
  ordered : s.net.Ordered
  genuine : ∀ i, ∀ f ∈ s.net.given i, Genuine mac i f
  sent : ∀ i, s.sent i = (s.net.given i).filterMap datagramOf
  knows : ∀ j, s.Knows mac j

variable {mac : ι → Mac} {s t : Lan ι}

omit [DecidableEq ι] in
theorem arpLookup_init (mac : Mac) (ip : UInt32) : arpLookup (init mac) ip = none := by
  unfold arpLookup
  rw [Fin.find?_eq_none_iff.mpr fun i => by simp [init]]
  rfl

theorem inv_start (hmac : ∀ i, (mac i).length = 6) : Inv mac (start mac hmac) where
  length := hmac
  ourMac _ := rfl
  ourIp _ := rfl
  bound _ := ⟨[], rfl⟩
  distinct _ := fun _ _ h => by cases h
  ordered := Medium.ordered_idle
  genuine _ _ h := by cases h
  sent _ := rfl
  knows j ip m h := by
    rw [show arpLookup ((start mac hmac).node j).toState ip = none from arpLookup_init _ _] at h
    cases h

theorem Inv.move {e : Move ι} {net : Medium ι (List UInt8)} (h : Inv mac s)
    (hstep : s.net.move e = some net) : Inv mac { s with net := net } := by
  obtain ⟨hgiven, htaken⟩ := Medium.move_given hstep
  exact
    { h with
      ordered := h.ordered.move hstep
      genuine := by
        dsimp only
        rw [hgiven]
        exact h.genuine
      sent := by
        dsimp only
        rw [hgiven]
        exact h.sent
      knows := fun j ip m hfound => by
        obtain ⟨i, hip, hm, hheard⟩ := h.knows j ip m hfound
        refine ⟨i, hip, hm, ?_⟩
        unfold Heard at hheard ⊢
        dsimp only
        rwa [htaken] }

/-- A node that keeps its identity and its cache. -/
theorem Inv.setNode {k : ι} {n : Node} (h : Inv mac s) (hmac : n.ourMac = (s.node k).ourMac)
    (hip : n.ourIp = (s.node k).ourIp) (harp : n.arpTable = (s.node k).arpTable)
    (hbound : ∃ bs, n.udpHandlers = registerAll bs) :
    Inv mac { s with node := Function.update s.node k n } where
  length := h.length
  ourMac := by
    rw [Function.forall_update_iff s.node fun i n => n.ourMac = mac i]
    exact ⟨hmac.trans (h.ourMac k), fun i _ => h.ourMac i⟩
  ourIp := by
    rw [Function.forall_update_iff s.node fun i n => n.ourIp = ipOf (mac i)]
    exact ⟨hip.trans (h.ourIp k), fun i _ => h.ourIp i⟩
  bound := by
    rw [Function.forall_update_iff s.node fun _ n => ∃ bs, n.udpHandlers = registerAll bs]
    exact ⟨hbound, fun i _ => h.bound i⟩
  distinct := by
    rw [Function.forall_update_iff s.node fun _ n => n.toState.Distinct]
    refine ⟨?_, fun i _ => h.distinct i⟩
    unfold State.Distinct
    rw [harp]
    exact h.distinct k
  ordered := h.ordered
  genuine := h.genuine
  sent := h.sent
  knows j ip m hfound := by
    refine h.knows j ip m ?_
    rw [← hfound]
    by_cases hj : j = k
    · subst hj
      simp only [arpLookup, Function.update_self, harp]
    · simp only [Function.update_of_ne hj]

/-- A node that learns the sender of an ARP packet it has handled. -/
theorem Inv.learn {i j : ι} {n : Node} (h : Inv mac s) (hheard : s.Heard i j)
    (hn : n.toState = arpStore (s.node j).toState.counted (ipOf (mac i)) (mac i)) :
    Inv mac { s with node := Function.update s.node j n } := by
  have hfields := arpStore_eq (s.node j).toState.counted (ipOf (mac i)) (mac i)
  rw [← hn] at hfields
  have hcounted : (s.node j).toState.counted.Distinct := h.distinct j
  refine ⟨h.length, ?_, ?_, ?_, ?_, h.ordered, h.genuine, h.sent, fun k ip m hfound => ?_⟩
  · rw [Function.forall_update_iff s.node fun i n => n.ourMac = mac i]
    exact ⟨by rw [hfields]; exact h.ourMac j, fun i _ => h.ourMac i⟩
  · rw [Function.forall_update_iff s.node fun i n => n.ourIp = ipOf (mac i)]
    exact ⟨by rw [hfields]; exact h.ourIp j, fun i _ => h.ourIp i⟩
  · rw [Function.forall_update_iff s.node fun _ n => ∃ bs, n.udpHandlers = registerAll bs]
    exact ⟨by rw [hfields]; exact h.bound j, fun i _ => h.bound i⟩
  · rw [Function.forall_update_iff s.node fun _ n => n.toState.Distinct]
    exact ⟨by rw [hn]; exact arpStore_distinct hcounted _ _, fun i _ => h.distinct i⟩
  · by_cases hk : k = j
    · subst hk
      simp only [Function.update_self, hn] at hfound
      by_cases hip : ip = ipOf (mac i)
      · subst hip
        have hroom : (s.node k).toState.counted.HasRoom (ipOf (mac i)) := by
          by_contra hno
          rw [arpLookup_eq, arpStore_table, Slots.get_store_of_not_hasRoom hno] at hfound
          cases hfound
        rw [(arpLookup_arpStore_self hcounted _ _).mpr hroom] at hfound
        exact ⟨i, rfl, (Option.some.inj hfound).symm, hheard⟩
      · rw [arpLookup_arpStore_of_ne hcounted _ hip] at hfound
        exact h.knows k ip m hfound
    · simp only [Function.update_of_ne hk] at hfound
      exact h.knows k ip m hfound

/-- A node that gives frames about itself. -/
theorem Inv.give {i : ι} (h : Inv mac s) (sent : ι → List Datagram) (fs : List (List UInt8))
    (hgenuine : ∀ f ∈ fs, Genuine mac i f)
    (hsent : ∀ j, sent j = if j = i then s.sent i ++ fs.filterMap datagramOf else s.sent j) :
    Inv mac { s with net := s.net.give i fs, sent := sent } :=
  { h with
    ordered := h.ordered.give i fs
    genuine := by
      dsimp only [Medium.give]
      rw [Function.forall_update_iff s.net.given fun j l => ∀ f ∈ l, Genuine mac j f]
      refine ⟨fun f hf => ?_, fun j _ => h.genuine j⟩
      rcases List.mem_append.mp hf with hold | hnew
      · exact h.genuine i f hold
      · exact hgenuine f hnew
    sent := fun j => by
      dsimp only [Medium.give]
      rw [hsent]
      split
      · rename_i hj
        subst hj
        rw [Function.update_self, List.filterMap_append, h.sent]
      · rename_i hj
        rw [Function.update_of_ne hj, h.sent]
    knows := h.knows }

/-- A node only resolves the addresses of nodes. -/
theorem Inv.addressed {i : ι} {dstIp : UInt32} {dst : Mac} (h : Inv mac s)
    (hdst : Resolves (s.node i).toState dstIp dst) : Addressed mac i dstIp dst := by
  rcases hdst with ⟨hcast, rfl⟩ | hfound
  · left
    rw [isBroadcast, h.ourIp] at hcast
    exact ⟨by simpa using hcast, rfl⟩
  · obtain ⟨j, hip, hmac, -⟩ := h.knows i dstIp dst hfound
    exact .inr ⟨j, hip, hmac⟩

theorem Inv.send {i : ι} {d : Datagram} {r : Sending} (h : Inv mac s)
    (hr : (s.node i).send d = some r) : Inv mac (s.send i d r) := by
  -- The node keeps what the invariant is about, whichever of the three happens.
  have hnode : r.state.toState = (s.node i).toState := by
    rcases Node.send_cases hr with ⟨hs, -⟩ | ⟨hs, -⟩ | ⟨_, _, _, _, hs, -⟩ <;> rw [hs]
  have hset : Inv mac { s with node := Function.update s.node i r.state } := by
    refine h.setNode ?_ ?_ ?_ ?_ <;> rw [hnode]
    exact h.bound i
  have hmac := h.length i
  rcases Node.send_cases hr with ⟨-, hsent, hd⟩ | ⟨-, hd, -, hsent⟩ | ⟨dst, hdst, hres, hfits, -, hsent, hd⟩
  · refine hset.give _ r.sent ?_ fun j => ?_
    · rw [hsent]
      simp
    · rw [hsent, hd]
      by_cases hj : j = i
      · subst hj
        simp
      · simp [hj]
  · refine hset.give _ r.sent ?_ fun j => ?_
    · intro f hf
      rw [hsent, List.mem_singleton] at hf
      rw [hf, h.ourMac, h.ourIp]
      exact .arp rfl rfl
    · have hnone : datagramOf (arpFrame 1 broadcastMac (s.node i).ourMac (s.node i).ourIp
          [0, 0, 0, 0, 0, 0] d.dstIp) = none :=
        datagramOf_arpFrame rfl (s.node i).mac_length rfl
      rw [hsent, hd]
      by_cases hj : j = i
      · subst hj
        simp [hnone]
      · simp [hj]
  · refine hset.give _ r.sent ?_ fun j => ?_
    · intro f hf
      rw [hsent, List.mem_singleton] at hf
      rw [hf, h.ourMac, h.ourIp]
      exact .datagram hdst (h.addressed hres) hfits
    · have hsome : datagramOf (d.frame dst (s.node i).ourMac (s.node i).ourIp (s.node i).ipId) =
          some d := datagramOf_frame hdst (s.node i).mac_length
      by_cases hj : j = i
      · subst hj
        simp [hsent, hd, hsome]
      · simp [hd, hj]

theorem Inv.register (h : Inv mac s) (i : ι) (b : UdpBinding) : Inv mac (s.register i b) := by
  refine h.setNode rfl rfl rfl ?_
  obtain ⟨bs, hbs⟩ := h.bound i
  exact ⟨bs ++ [b], by simp [hbs, registerAll]⟩

/-! ## A frame is handled -/

theorem Inv.take {j : ι} {p : ι × List UInt8} {net : Medium ι (List UInt8)} (h : Inv mac s)
    (hstep : s.net.take j = some (p, net)) :
    Inv mac { s with net := net } ∧ Genuine mac p.1 p.2 ∧ net.given = s.net.given ∧
      net.taken = Function.update s.net.taken j (s.net.taken j ++ [p]) := by
  obtain ⟨-, hgiven, htaken⟩ := Medium.take_eq hstep
  refine ⟨?_, h.genuine _ _ (h.ordered.take_mem hstep), hgiven, htaken⟩
  exact
    { h with
      ordered := h.ordered.take hstep
      genuine := by
        dsimp only
        rw [hgiven]
        exact h.genuine
      sent := by
        dsimp only
        rw [hgiven]
        exact h.sent
      knows := fun k ip m hfound => by
        obtain ⟨i, hip, hm, f, hf, harp⟩ := h.knows k ip m hfound
        refine ⟨i, hip, hm, f, ?_, harp⟩
        rw [Medium.mem_sentBy] at hf ⊢
        dsimp only
        rw [htaken]
        by_cases hk : k = j
        · subst hk
          rw [Function.update_self]
          exact List.mem_append_left _ hf
        · rwa [Function.update_of_ne hk] }

omit [DecidableEq ι] in
/-- What a node does with a frame. -/
theorem Genuine.processed {i : ι} {f : List UInt8} (h : Genuine mac i f) (hmac : (mac i).length = 6)
    (s : State) (stale : ℕ → UInt8) :
    (IsArp f ∧ datagramOf f = none ∧ ∃ oper targetIp,
      (processPacket s (bufferOf f stale) (UInt16.ofNat f.length)).val =
        { state := arpStore s.counted (ipOf (mac i)) (mac i)
          sent := arpAnswer (arpStore s.counted (ipOf (mac i)) (mac i)) oper (mac i) (ipOf (mac i))
            targetIp
          delivery := none }) ∨
    ∃ d, ¬ IsArp f ∧ datagramOf f = some d ∧
      (processPacket s (bufferOf f stale) (UInt16.ofNat f.length)).val =
        { state := s.counted
          sent := []
          delivery := if Accepts s d.dstIp then (s.handlerOf d.dstPort).map fun handler =>
            ⟨handler, ipOf (mac i), d.srcPort, 42, UInt16.ofNat d.data.length⟩ else none } ∧
      d.data.length < 2 ^ 16 ∧ Stored (bufferOf f stale) 42 d.data := by
  cases h with
  | @arp oper dst targetMac targetIp hdst htarget =>
    refine .inl ⟨isArp_arpFrame hdst hmac htarget, datagramOf_arpFrame hdst hmac htarget, oper,
      targetIp, ?_⟩
    rw [length_arpFrame hdst hmac htarget]
    exact processPacket_arp hdst hmac htarget (stored_bufferOf _ _)
  | @datagram d dst id hdst haddr hfits =>
    have hval := processPacket_datagram (s := s) hdst hmac hfits
      (stored_bufferOf (d.frame dst (mac i) (ipOf (mac i)) id) stale)
    rw [← Datagram.length_frame hdst hmac (ipOf (mac i)) id] at hval
    unfold sizeofSendBuf at hfits
    exact .inr ⟨d, not_isArp_frame hdst hmac, datagramOf_frame hdst hmac, hval.1, by omega, hval.2⟩

theorem Inv.setCalls (h : Inv mac s) (calls : ι → List Call) : Inv mac { s with calls := calls } :=
  { h with knows := h.knows }

omit [DecidableEq ι] in
/-- The answer to an ARP packet is a frame about the node that answers. -/
theorem genuine_arpAnswer {i j : ι} {t : State} (hi : (mac i).length = 6)
    (hj : (mac j).length = 6) (hmac : t.ourMac = mac j) (hip : t.ourIp = ipOf (mac j))
    (oper : UInt16) (targetIp : UInt32) :
    ∀ f ∈ arpAnswer t oper (mac i) (ipOf (mac i)) targetIp,
      Genuine mac j f ∧ datagramOf f = none := by
  intro f hf
  unfold arpAnswer at hf
  split at hf
  · rw [List.mem_singleton.mp hf, arpReply_eq, hmac, hip]
    exact ⟨.arp hi hi, datagramOf_arpFrame hi hj hi⟩
  · cases hf

theorem Inv.handle {j : ι} {p : ι × List UInt8} {net : Medium ι (List UInt8)} (h : Inv mac s)
    (hstep : s.net.take j = some (p, net)) (stale : ℕ → UInt8) :
    Inv mac (s.handle j p.2 stale net) := by
  obtain ⟨htake, hgenuine, -, htaken⟩ := h.take hstep
  let buf := bufferOf p.2 stale
  let len := UInt16.ofNat p.2.length
  suffices hnode : Inv mac { s with
      node := Function.update s.node j ((s.node j).process buf len)
      net := net } ∧ ∀ f ∈ (processPacket (s.node j).toState buf len).val.sent,
        Genuine mac j f ∧ datagramOf f = none by
    refine (hnode.1.give s.sent (processPacket (s.node j).toState buf len).val.sent
      (fun f hf => (hnode.2 f hf).1) fun k => ?_).setCalls _
    rw [List.filterMap_eq_nil_iff.mpr fun f hf => (hnode.2 f hf).2, List.append_nil]
    split
    · rename_i hk
      rw [hk]
    · rfl
  obtain ⟨hmac, hip, hbound⟩ := processPacket_keeps (s.node j).toState buf len
  rcases hgenuine.processed (h.length p.1) (s.node j).toState stale with
    ⟨harp, -, oper, targetIp, hval⟩ | ⟨d, -, -, hval, -⟩
  · have hheard : Heard { s with net := net } p.1 j := by
      refine ⟨p.2, ?_, harp⟩
      rw [Medium.mem_sentBy, htaken, Function.update_self]
      simp
    refine ⟨htake.learn hheard ?_, fun f hf => ?_⟩
    · exact congrArg Outcome.state hval
    · rw [hval] at hf hmac hip
      exact genuine_arpAnswer (h.length p.1) (h.length j) (hmac.trans (h.ourMac j))
        (hip.trans (h.ourIp j)) _ _ f hf
  · refine ⟨htake.setNode hmac hip ?_ ?_, fun f hf => ?_⟩
    · exact congrArg (fun o => o.state.arpTable) hval
    · obtain ⟨bs, hbs⟩ := h.bound j
      exact ⟨bs, hbound.trans hbs⟩
    · rw [hval] at hf
      cases hf

theorem Inv.step {e : LanEvent ι} (h : Inv mac s) (hstep : s.step e = some t) : Inv mac t := by
  cases e with
  | send i d =>
    obtain ⟨r, hr, rfl⟩ := Option.map_eq_some_iff.mp hstep
    exact h.send hr
  | register i b =>
    obtain rfl := Option.some.inj hstep
    exact h.register i b
  | handle j stale =>
    obtain ⟨⟨p, net⟩, hp, rfl⟩ := Option.map_eq_some_iff.mp hstep
    exact h.handle hp stale
  | move e =>
    obtain ⟨net, hnet, rfl⟩ := Option.map_eq_some_iff.mp hstep
    exact h.move hnet

theorem inv_of_run {hmac : ∀ i, (mac i).length = 6} {es : List (LanEvent ι)}
    (hrun : Run (fun s e t => s.step e = some t) (start mac hmac) es s) : Inv mac s :=
  hrun.invariant (Inv mac) (inv_start hmac) fun _ _ _ h hstep => h.step hstep

/-- Every cache answers with the hardware address of the node that has the address, and every
datagram given to a card carries that of its destination, or the broadcast address. -/
theorem unicast_names_owner (mac : ι → Mac) (hmac : ∀ i, (mac i).length = 6)
    (es : List (LanEvent ι)) (s : Lan ι)
    (hrun : Run (fun s e t => s.step e = some t) (start mac hmac) es s) :
    (∀ j ip m, arpLookup (s.node j).toState ip = some m →
      ∃ i, ip = ipOf (mac i) ∧ m = mac i ∧ s.Heard i j) ∧
    ∀ i, ∀ f ∈ s.net.given i, ∀ d, datagramOf f = some d → Addressed mac i d.dstIp (f.take 6) := by
  have h := inv_of_run hrun
  refine ⟨h.knows, fun i f hf d hd => ?_⟩
  cases h.genuine i f hf with
  | arp hdst htarget =>
    rw [datagramOf_arpFrame hdst (h.length i) htarget] at hd
    cases hd
  | @datagram d' dst id hdst haddr hfits =>
    rw [datagramOf_frame hdst (h.length i)] at hd
    obtain rfl := Option.some.inj hd
    rwa [Datagram.frame, List.take_left' hdst]

end Lan

def twoMacs (b : Bool) : Mac := if b then [2, 0, 0, 0, 0, 2] else [2, 0, 0, 0, 0, 1]

theorem twoMacs_length (b : Bool) : (twoMacs b).length = 6 := by
  cases b <;> rfl

/-- The way of a frame from one node to the other. -/
def passes (b : Bool) : List (LanEvent Bool) :=
  [.move (.submit b false), .move (.transmit b), .move (.arrive b (!b) false),
    .handle (!b) fun _ => 0]

def secondEvents : List (LanEvent Bool) :=
  let send := .send true ⟨Lan.ipOf (twoMacs false), 9000, 9001, [1, 2, 3]⟩
  [.register false ⟨9000, 64⟩, send] ++ passes true ++ passes false ++ [send] ++ passes true

/-- Two nodes of which the second asks for the address of the first and sends it a datagram. -/
def secondSends : Lan Bool :=
  (exec Lan.step (Lan.start twoMacs twoMacs_length) secondEvents).get (by decide +kernel)

theorem unicast_names_owner_second : ∃ f ∈ secondSends.net.given true,
    f.take 6 = twoMacs false ∧ ∀ d, datagramOf f = some d →
      Lan.Addressed twoMacs true d.dstIp (f.take 6) := by
  have hall := (Lan.unicast_names_owner twoMacs twoMacs_length secondEvents secondSends (run_get _)).2
  have hsome : ∃ f ∈ secondSends.net.given true, f.take 6 = twoMacs false := by decide +kernel
  obtain ⟨f, hf, hdst⟩ := hsome
  exact ⟨f, hf, hdst, hall true f hf⟩

namespace Lan

variable {ι : Type*} [DecidableEq ι] {mac : ι → Mac} {s t : Lan ι}

/-! ## Small networks -/

omit [DecidableEq ι] in
theorem arpLookup_congr {a b : State} (h : a.arpTable = b.arpTable) (ip : UInt32) :
    arpLookup a ip = arpLookup b ip := by
  unfold arpLookup
  rw [h]

/-- The nodes that were heard are in the cache. -/
def Learned (mac : ι → Mac) (s : Lan ι) : Prop :=
  ∀ i j, s.Heard i j → arpLookup (s.node j).toState (ipOf (mac i)) = some (mac i)

theorem Learned.of_same (h : s.Learned mac)
    (hnode : ∀ k, (t.node k).arpTable = (s.node k).arpTable) (htaken : t.net.taken = s.net.taken) :
    t.Learned mac := by
  intro i j hheard
  rw [arpLookup_congr (hnode j)]
  apply h i j
  unfold Heard at hheard ⊢
  rwa [htaken] at hheard

theorem send_arpTable {n : Node} {d : Datagram} {r : Sending} (h : n.send d = some r) :
    r.state.arpTable = n.arpTable := by
  rcases Node.send_cases h with ⟨hs, -⟩ | ⟨hs, -⟩ | ⟨_, _, _, _, hs, -⟩ <;> rw [hs]

theorem update_arpTable {n : Node} {k : ι} (h : n.arpTable = (s.node k).arpTable) (i : ι) :
    (Function.update s.node k n i).arpTable = (s.node i).arpTable := by
  by_cases hi : i = k
  · subst hi
    rw [Function.update_self, h]
  · rw [Function.update_of_ne hi]

/-- A cache of sixteen entries has room for each of at most sixteen nodes. -/
theorem Inv.hasRoom [Fintype ι] (h : Inv mac s) (hcard : Fintype.card ι ≤ arpTableSize) (i j : ι) :
    (s.node j).toState.HasRoom (ipOf (mac i)) := by
  refine Slots.Distinct.hasRoom (K := Finset.univ.image fun i => ipOf (mac i)) (h.distinct j)
    (fun k hk => ?_) (Finset.card_image_le.trans hcard) (Finset.mem_image_of_mem _ (Finset.mem_univ i))
  have hget := (h.distinct j).get_eq_some.mpr ⟨k, hk, rfl, rfl⟩
  obtain ⟨l, hip, -⟩ := h.knows j ((s.node j).arpTable k).ip ((s.node j).arpTable k).mac
    (by rw [arpLookup_eq, hget]; rfl)
  rw [hip]
  exact Finset.mem_image_of_mem _ (Finset.mem_univ l)

theorem heard_handle {j : ι} {p : ι × List UInt8} {net : Medium ι (List UInt8)}
    (hstep : s.net.take j = some (p, net)) (stale : ℕ → UInt8) {i k : ι}
    (h : (s.handle j p.2 stale net).Heard i k) :
    s.Heard i k ∨ (i = p.1 ∧ k = j ∧ IsArp p.2) := by
  obtain ⟨f, hf, harp⟩ := h
  rw [Medium.mem_sentBy] at hf
  change (i, f) ∈ net.taken k at hf
  rw [(Medium.take_eq hstep).2.2] at hf
  by_cases hk : k = j
  · subst hk
    rw [Function.update_self] at hf
    rcases List.mem_append.mp hf with hold | hnew
    · exact .inl ⟨f, Medium.mem_sentBy.mpr hold, harp⟩
    · obtain rfl := List.mem_singleton.mp hnew
      exact .inr ⟨rfl, rfl, harp⟩
  · rw [Function.update_of_ne hk] at hf
    exact .inl ⟨f, Medium.mem_sentBy.mpr hf, harp⟩

theorem Learned.handle [Fintype ι] {j : ι} {p : ι × List UInt8} {net : Medium ι (List UInt8)}
    (hl : s.Learned mac) (h : Inv mac s) (hcard : Fintype.card ι ≤ arpTableSize)
    (hip : Function.Injective fun i => ipOf (mac i)) (hstep : s.net.take j = some (p, net))
    (stale : ℕ → UInt8) : (s.handle j p.2 stale net).Learned mac := by
  intro i k hheard
  have hor := heard_handle hstep stale hheard
  by_cases hk : k = j
  · subst hk
    have hnode : ((s.handle k p.2 stale net).node k).toState =
        (processPacket (s.node k).toState (bufferOf p.2 stale) (UInt16.ofNat p.2.length)).val.state := by
      simp only [Lan.handle, Function.update_self]
      rfl
    rw [hnode]
    rcases (h.take hstep).2.1.processed (h.length p.1) (s.node k).toState stale with
      ⟨-, -, oper, targetIp, hval⟩ | ⟨d, hnot, -, hval, -⟩
    · rw [hval]
      have hcounted : (s.node k).toState.counted.Distinct := h.distinct k
      by_cases hi : i = p.1
      · rw [hi]
        exact (arpLookup_arpStore_self hcounted _ _).mpr (h.hasRoom hcard p.1 k)
      · rw [arpLookup_arpStore_of_ne hcounted _ (hip.ne hi)]
        exact hl i k (hor.resolve_right fun hand => hi hand.1)
    · rw [hval]
      exact hl i k (hor.resolve_right fun hand => hnot hand.2.2)
  · have hsame : (s.handle j p.2 stale net).node k = s.node k := Function.update_of_ne hk _ _
    rw [hsame]
    exact hl i k (hor.resolve_right fun hand => hk hand.2.1)

theorem Learned.step [Fintype ι] {e : LanEvent ι} (hl : s.Learned mac) (h : Inv mac s)
    (hcard : Fintype.card ι ≤ arpTableSize) (hip : Function.Injective fun i => ipOf (mac i))
    (hstep : s.step e = some t) : t.Learned mac := by
  cases e with
  | send i d =>
    obtain ⟨r, hr, rfl⟩ := Option.map_eq_some_iff.mp hstep
    exact hl.of_same (update_arpTable (send_arpTable hr)) rfl
  | register i b =>
    obtain rfl := Option.some.inj hstep
    exact hl.of_same (update_arpTable rfl) rfl
  | handle j stale =>
    obtain ⟨⟨p, net⟩, hp, rfl⟩ := Option.map_eq_some_iff.mp hstep
    exact hl.handle h hcard hip hp stale
  | move e =>
    obtain ⟨net, hnet, rfl⟩ := Option.map_eq_some_iff.mp hstep
    exact hl.of_same (fun _ => rfl) (Medium.move_given hnet).2

/-- On a network of at most sixteen nodes with different addresses a cache holds exactly the nodes
an ARP packet was handled from. -/
theorem cache_holds_heard [Fintype ι] (hcard : Fintype.card ι ≤ 16) (mac : ι → Mac)
    (hmac : ∀ i, (mac i).length = 6) (hip : Function.Injective fun i => ipOf (mac i))
    (es : List (LanEvent ι)) (s : Lan ι)
    (hrun : Run (fun s e t => s.step e = some t) (start mac hmac) es s) (j : ι) (ip : UInt32)
    (m : Mac) :
    arpLookup (s.node j).toState ip = some m ↔ ∃ i, ip = ipOf (mac i) ∧ m = mac i ∧ s.Heard i j := by
  have hboth : Inv mac s ∧ s.Learned mac := by
    refine hrun.invariant (fun s => Inv mac s ∧ s.Learned mac) ⟨inv_start hmac, ?_⟩
      fun a e b h hstep => ⟨h.1.step hstep, h.2.step h.1 hcard hip hstep⟩
    rintro i j ⟨f, hf, -⟩
    cases hf
  refine ⟨hboth.1.knows j ip m, ?_⟩
  rintro ⟨i, rfl, rfl, hheard⟩
  exact hboth.2 i j hheard

end Lan

theorem cache_holds_heard_second :
    arpLookup (secondSends.node true).toState (Lan.ipOf (twoMacs false)) = some (twoMacs false) :=
  (Lan.cache_holds_heard (by decide) twoMacs twoMacs_length (by decide +kernel) secondEvents
    secondSends (run_get _) true _ _).mpr ⟨false, rfl, rfl, by decide +kernel⟩

end QuillOS.Network
