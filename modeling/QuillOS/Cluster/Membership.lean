import QuillOS.Cluster.Heartbeat
import QuillOS.Network.Delivery
import QuillOS.Utils.Decimal

/-!
# Members of a cluster

The nodes of a network that run `cluster.cpp`. Their discovery messages and the answers travel as
datagrams over the network, which may lose and delay them; a node lists who it hears from, and drops
who it has not heard from when the heartbeat task looks.
-/

namespace QuillOS.Cluster

open Lib
open Network (Mac Lan LanEvent Call Datagram Delivery processPacket registerAll)
open Network.Lan (ipOf Carries)

/-! ## Names -/

/-- The name `Cluster::init` derives from the last octet of the address. -/
def localNameBytes (localIp : Ip) : Bytes :=
  [110, 111, 100, 101] ++ Utils.numeralOf (Network.ntohl localIp &&& 0xFF).toNat

theorem localNameBytes_length_le (localIp : Ip) : (localNameBytes localIp).length ≤ 15 := by
  have hlt : (Network.ntohl localIp &&& 0xFF).toNat < 10 ^ 3 := by
    rw [UInt32.toNat_and]
    exact (Nat.and_le_right).trans_lt (by decide)
  have hdigits : (Utils.digitsOf (Network.ntohl localIp &&& 0xFF).toNat).length ≤ 3 := by
    unfold Utils.digitsOf
    split_ifs
    · decide
    · exact (Nat.digits_length_le_iff (by decide) _).mpr hlt
  rw [localNameBytes, List.length_append, Utils.length_numeralOf]
  change 4 + _ ≤ 15
  omega

theorem localNameBytes_no_nul (localIp : Ip) : 0 ∉ localNameBytes localIp := by
  unfold localNameBytes
  rw [List.mem_append, not_or]
  refine ⟨by decide, fun hmem => ?_⟩
  have hdigit := Utils.numeralOf_digits _ 0 hmem
  exact absurd hdigit (by decide)

def localNameOf (localIp : Ip) : NodeName where
  bytes := localNameBytes localIp
  length_le := localNameBytes_length_le localIp
  no_nul := localNameBytes_no_nul localIp

/-- The buffer reads as the name. -/
def Reads (b : NameBuf) (name : Bytes) : Prop := ∀ k : Fin 16, k.val ≤ name.length → b k = name.getD k.val 0

theorem reads_nameBuf (name : Bytes) : Reads (nameBuf name) name := fun _ _ => rfl

/-- A zero written where the name ends. -/
theorem reads_end {dst : NameBuf} {name : Bytes} {i : Fin 16} (hi : i.val = name.length)
    (hdst : ∀ k : Fin 16, k.val < i.val → dst k = name.getD k.val 0) :
    Reads (Function.update dst i 0) name := by
  intro k hk
  by_cases hki : k = i
  · subst hki
    rw [Function.update_self, hi]
    simp
  · have hlt : k.val < i.val := lt_of_le_of_ne (hi ▸ hk) fun h => hki (Fin.ext h)
    rw [Function.update_of_ne hki, hdst k hlt]

theorem strCopyFrom_reads {src : NameBuf} {name : Bytes} (hsrc : Reads src name)
    (hnul : 0 ∉ name) (hlen : name.length ≤ 15) (left : ℕ) (i : Fin 16) (dst : NameBuf)
    (hleft : i.val + left = 15) (hi : i.val ≤ name.length)
    (hdst : ∀ k : Fin 16, k.val < i.val → dst k = name.getD k.val 0) :
    Reads (strCopyFrom src left i dst) name := by
  induction left generalizing i dst with
  | zero => exact reads_end (by omega) hdst
  | succ left ih =>
    unfold strCopyFrom
    have hval := hsrc i hi
    split
    · rename_i hne
      have hlt : i.val < name.length := by
        by_contra hge
        apply hne
        rw [hval]
        simp [Nat.le_antisymm hi (Nat.le_of_not_lt hge)]
      have hnext : (i + 1).val = i.val + 1 := by
        rw [Fin.val_add_one_of_lt' (by omega)]
      refine ih (i + 1) _ (by omega) (by omega) fun k hk => ?_
      by_cases hki : k = i
      · subst hki
        rw [Function.update_self, hval]
      · have hne : k.val ≠ i.val := fun h => hki (Fin.ext h)
        rw [Function.update_of_ne hki, hdst k (by omega)]
    · rename_i hzero
      refine reads_end ?_ hdst
      -- A zero of the source is past the characters of the name.
      by_contra hne
      have hmem : src i ∈ name := by
        rw [hval]
        simp [lt_of_le_of_ne hi hne]
      rw [not_not.mp hzero] at hmem
      exact hnul hmem

theorem strCopy_reads {src : NameBuf} {name : Bytes} (hsrc : Reads src name) (hnul : 0 ∉ name)
    (hlen : name.length ≤ 15) (dst : NameBuf) : Reads (strCopy dst src) name :=
  strCopyFrom_reads hsrc hnul hlen 15 0 dst rfl (Nat.zero_le _) fun _ h => absurd h (Nat.not_lt_zero _)

/-! ## The members -/

def clusterPort : UInt16 := 9000

/-- The nodes on their network. `ready` is `initialized`; `passed` is when the expiry pass of a node
last ran, for the statements only. -/
structure Members (ι : Type*) where
  lan : Lan ι
  run : ι → NodeRun
  ready : ι → Bool
  passed : ι → ℕ

inductive MemberEvent (ι : Type*)
  /-- `Cluster::init`. -/
  | init (i : ι)
  /-- `send_discover`. -/
  | discover (i : ι)
  /-- Work of the jobs and processes of a node, or its load report, with the datagram it sends. -/
  | work (i : ι) (jobs : JobNode) (procs : ProcNode) (d : Option Datagram)
  /-- `Network::poll` takes a frame. -/
  | handle (i : ι) (stale : ℕ → UInt8)
  /-- The expiry pass of the heartbeat task. -/
  | expire (i : ι)
  | pass (i : ι) (d : ℕ)
  | move (e : Move ι)

/-- A datagram from and to the cluster port. -/
def clusterDatagram (dstIp : Ip) (data : Bytes) : Datagram := ⟨dstIp, clusterPort, clusterPort, data⟩

/-- DISCOVER and DISCOVER_ACK messages. -/
def isDiscovery (data : Bytes) : Bool := (receive data).isDiscovery

namespace Members

variable {ι : Type*}

def start (mac : ι → Mac) (hmac : ∀ i, (mac i).length = 6) (node : ι → ClusterNode) : Members ι where
  lan := Lan.start mac hmac
  run i := { node := node i, now := 0, heard := fun _ => none }
  ready _ := false
  passed _ := 0

variable [DecidableEq ι]

/-- The node a `Cluster::init` leaves. -/
def initRun (r : NodeRun) (localIp : Ip) : NodeRun :=
  NodeRun.boot { r.node with localName := localNameOf localIp } localIp r.now

/-- A node that has worked on its jobs and processes. -/
def workRun (r : NodeRun) (jobs : JobNode) (procs : ProcNode) : NodeRun :=
  { r with node := { r.node with jobs := jobs, procs := procs } }

/-- The cluster handler is called, and sends its reply before `process_packet` returns. -/
def receiveCall (s : Members ι) (j : ι) (c : Call) : Option (Members ι) :=
  ((s.run j).step (.datagram c.srcIp c.payload)).bind fun run =>
    let s' := { s with run := Function.update s.run j run }
    match ((s.run j).node.handle c.srcIp (s.run j).ticks (receive c.payload)).bind Prod.snd with
    | none => some s'
    | some data => (s.lan.step (.send j (clusterDatagram c.srcIp data))).map fun lan =>
      { s' with lan := lan }

/-- `handler` is the address of `cluster_udp_handler`. -/
def step (handler : UInt64) (s : Members ι) : MemberEvent ι → Option (Members ι)
  | .init i =>
    if s.ready i then none
    else (s.lan.step (.register i ⟨clusterPort, handler⟩)).map fun lan =>
      { s with
        lan := lan
        run := Function.update s.run i (initRun (s.run i) (s.lan.node i).ourIp)
        ready := Function.update s.ready i true }
  | .discover i =>
    if s.ready i then
      let localIp := (s.run i).node.peers.localIp
      let data := discoverMessage (s.run i).node.localName.bytes
      (s.lan.step (.send i (clusterDatagram (localIp ||| Network.htonl 0x000000FF) data))).map
        fun lan => { s with lan := lan }
    else some s
  | .work i jobs procs d =>
    let s' := { s with run := Function.update s.run i (workRun (s.run i) jobs procs) }
    match d with
    | none => some s'
    | some d =>
      if isDiscovery d.data then none
      else (s.lan.step (.send i d)).map fun lan => { s' with lan := lan }
  | .handle j stale =>
    (s.lan.step (.handle j stale)).bind fun lan =>
      match (lan.calls j).drop (s.lan.calls j).length with
      | [] => some { s with lan := lan }
      | c :: _ => receiveCall { s with lan := lan } j c
  | .expire i =>
    ((s.run i).step .expire).map fun run =>
      { s with
        run := Function.update s.run i run
        passed := Function.update s.passed i (s.run i).now }
  | .pass i d =>
    ((s.run i).step (.pass d)).map fun run => { s with run := Function.update s.run i run }
  | .move e => (s.lan.step (.move e)).map fun lan => { s with lan := lan }

/-! ## What is said -/

/-- A discovery message gives the name of the node with an address. -/
def Names (ip : Ip) (data : Bytes) : Prop :=
  ∀ name, receive data = .discover name ∨ receive data = .discoverAck name → name = localNameBytes ip

theorem names_discover (ip : Ip) : Names ip (discoverMessage (localNameOf ip).bytes) := by
  have hreceive : receive (discoverMessage (localNameOf ip).bytes) =
      .discover ((localNameOf ip).bytes.take 15) :=
    (receive_nameMessage msgDiscover (localNameOf ip)).2
  rintro name (hname | hname)
  · rw [hreceive, NodeName.take_bytes] at hname
    exact (Received.discover.inj hname).symm
  · rw [hreceive] at hname
    cases hname

theorem names_discoverAck (ip : Ip) : Names ip (discoverAckMessage (localNameOf ip).bytes) := by
  have hreceive : receive (discoverAckMessage (localNameOf ip).bytes) =
      .discoverAck ((localNameOf ip).bytes.take 15) :=
    (receive_nameMessage msgDiscoverAck (localNameOf ip)).2
  rintro name (hname | hname)
  · rw [hreceive] at hname
    cases hname
  · rw [hreceive, NodeName.take_bytes] at hname
    exact (Received.discoverAck.inj hname).symm

end Members

/-! ## Replies -/

theorem isDiscovery_resultMessage (jobId result : UInt32) :
    isDiscovery (resultMessage jobId result) = false := by
  rw [isDiscovery, receive_resultMessage]
  rfl

theorem isDiscovery_spawnedMessage (remotePid localPid : UInt32) :
    isDiscovery (spawnedMessage remotePid localPid) = false := by
  rw [isDiscovery, receive_spawnedMessage]
  rfl

/-- Jobs are answered with their results. -/
theorem JobNode.handle_reply {c c' : JobNode} {src : Ip} {ticks : UInt64} {m : Received}
    {data : Bytes} (h : c.handle src ticks m = some (c', some data)) : isDiscovery data = false := by
  cases m with
  | jobSubmit payload =>
    obtain ⟨reply, hreply, heq⟩ := Option.map_eq_some_iff.mp h
    obtain ⟨-, rfl⟩ := Prod.mk.inj heq
    unfold JobNode.executeJob at hreply
    split at hreply
    · cases hreply
    · obtain ⟨result, -, hdata⟩ := Option.map_eq_some_iff.mp hreply
      rw [← Option.some.inj hdata]
      exact isDiscovery_resultMessage _ result
  | _ => simp [JobNode.handle] at h

theorem ProcSystem.handle_reply {c c' : ProcNode} {src : Ip} {ticks : UInt64} {m : Received}
    {data : Bytes} {pid : Option UInt32}
    (h : ProcSystem.handle c src ticks m = some (c', some data, pid)) : isDiscovery data = false := by
  cases m with
  | procSpawn type remotePid =>
    obtain ⟨⟨c'', localPid, reply⟩, hreply, heq⟩ := Option.map_eq_some_iff.mp h
    obtain ⟨⟨_, pid'⟩, -, heq'⟩ := Option.map_eq_some_iff.mp hreply
    simp only [Prod.mk.injEq, Option.some.injEq] at heq heq'
    rw [← heq.2.1, ← heq'.2.2]
    exact isDiscovery_spawnedMessage remotePid pid'
  | _ => simp [ProcSystem.handle] at h

/-- What a message does to the name and the peers of a node, and what is replied. -/
theorem ClusterNode.handle_spec {n n' : ClusterNode} {src : Ip} {ticks : UInt64} {m : Received}
    {reply : Option Bytes} (h : n.handle src ticks m = some (n', reply)) :
    n'.localName = n.localName ∧
      ((∃ name, (m = .discover name ∨ m = .discoverAck name) ∧
          n'.peers = n.peers.addOrUpdatePeer src (nameBuf name) ticks ∧
          ∀ data, reply = some data → data = discoverAckMessage n.localName.bytes) ∨
        (m.isDiscovery = false ∧ n'.peers = n.peers ∧
          ∀ data, reply = some data → isDiscovery data = false)) := by
  unfold handle at h
  split at h
  · rename_i name
    obtain ⟨rfl, rfl⟩ := Prod.mk.inj (Option.some.inj h)
    exact ⟨rfl, .inl ⟨name, .inl rfl, rfl, fun data hdata => (Option.some.inj hdata).symm⟩⟩
  · rename_i name
    obtain ⟨rfl, rfl⟩ := Prod.mk.inj (Option.some.inj h)
    exact ⟨rfl, .inl ⟨name, .inr rfl, rfl, fun data hdata => by cases hdata⟩⟩
  · rename_i hno hnoAck
    obtain ⟨⟨jobs, jobReply⟩, hjobs, h⟩ := Option.bind_eq_some_iff.mp h
    obtain ⟨⟨procs, procReply, pid⟩, hprocs, h⟩ := Option.bind_eq_some_iff.mp h
    obtain ⟨rfl, rfl⟩ := Prod.mk.inj (Option.some.inj h)
    refine ⟨rfl, .inr ⟨?_, rfl, fun data hdata => ?_⟩⟩
    · cases m with
      | discover name => exact absurd rfl (hno name)
      | discoverAck name => exact absurd rfl (hnoAck name)
      | _ => rfl
    · cases jobReply with
      | some reply =>
        obtain rfl := Option.some.inj hdata
        exact JobNode.handle_reply hjobs
      | none =>
        obtain rfl : procReply = some data := hdata
        exact ProcSystem.handle_reply hprocs

namespace PeerTable

/-- What a message leaves in an active entry. -/
theorem addOrUpdatePeer_entry {t : PeerTable} {ip : Ip} {name : NameBuf} {ticks : UInt64}
    {k : Fin maxNodes} (hk : ((t.addOrUpdatePeer ip name ticks).peers k).active = true) :
    (∃ dst, ((t.addOrUpdatePeer ip name ticks).peers k).ip = ip ∧
        ((t.addOrUpdatePeer ip name ticks).peers k).name = strCopy dst name) ∨
      (t.peers k).active = true ∧
        ((t.addOrUpdatePeer ip name ticks).peers k).ip = (t.peers k).ip ∧
        ((t.addOrUpdatePeer ip name ticks).peers k).name = (t.peers k).name := by
  rcases addOrUpdatePeer_cases t ip name ticks with
    ⟨i, hactive, -, -, heq⟩ | ⟨i, -, -, -, heq⟩ | ⟨-, heq⟩
  all_goals rw [heq] at hk ⊢
  · by_cases hki : k = i
    · subst hki
      simp only [Function.update_self] at hk ⊢
      exact .inr ⟨hk, trivial, trivial⟩
    · simp only [Function.update_of_ne hki] at hk ⊢
      exact .inr ⟨hk, trivial, trivial⟩
  · by_cases hki : k = i
    · subst hki
      simp only [Function.update_self]
      exact .inl ⟨_, trivial, rfl⟩
    · simp only [Function.update_of_ne hki] at hk ⊢
      exact .inr ⟨hk, trivial, trivial⟩
  · exact .inr ⟨hk, rfl, rfl⟩

theorem addOrUpdatePeer_localIp (t : PeerTable) (ip : Ip) (name : NameBuf) (ticks : UInt64) :
    (t.addOrUpdatePeer ip name ticks).localIp = t.localIp := by
  rcases addOrUpdatePeer_cases t ip name ticks with
    ⟨_, -, -, -, heq⟩ | ⟨_, -, -, -, heq⟩ | ⟨-, heq⟩ <;> rw [heq]

theorem expireStale_localIp (t : PeerTable) (ticks : UInt64) :
    (t.expireStale ticks).localIp = t.localIp := by
  unfold expireStale
  generalize List.finRange maxNodes = l
  induction l generalizing t with
  | nil => rfl
  | cons i l ih =>
    rw [List.foldl_cons, ih]
    unfold expireEntry
    split <;> rfl

end PeerTable

namespace Members

variable {ι : Type*}

/-! ## What is listed -/

/-- The entry of a member under its own name. -/
def Known (mac : ι → Mac) (ready : ι → Bool) (n : Node) : Prop :=
  ∃ i, ready i = true ∧ n.ip = ipOf (mac i) ∧ Reads n.name (localNameBytes n.ip)

/-- A member between two steps. -/
structure Sound (mac : ι → Mac) (ready : ι → Bool) (j : ι) (r : NodeRun) : Prop where
  name : r.node.localName = localNameOf (ipOf (mac j))
  localIp : r.node.peers.localIp = ipOf (mac j)
  peers : r.PeersInv
  known : ∀ k, (r.peer k).active = true → Known mac ready (r.peer k)

variable {mac : ι → Mac}

theorem Known.mono {ready ready' : ι → Bool} {n : Node} (h : Known mac ready n)
    (hready : ∀ i, ready i = true → ready' i = true) : Known mac ready' n := by
  obtain ⟨i, hi, hn⟩ := h
  exact ⟨i, hready i hi, hn⟩

theorem Sound.mono {ready ready' : ι → Bool} {j : ι} {r : NodeRun} (h : Sound mac ready j r)
    (hready : ∀ i, ready i = true → ready' i = true) : Sound mac ready' j r :=
  { h with known := fun k hk => (h.known k hk).mono hready }

theorem sound_init (ready : ι → Bool) (j : ι) (r : NodeRun) :
    Sound mac ready j (initRun r (ipOf (mac j))) where
  name := rfl
  localIp := rfl
  peers := NodeRun.peersInv_boot _ _ _
  known _ hk := absurd hk Bool.false_ne_true

/-- A message from a member that speaks of itself. -/
theorem Sound.datagram {ready : ι → Bool} {i j : ι} {r r' : NodeRun} {data : Bytes}
    (h : Sound mac ready j r)
    (hsaid : isDiscovery data = true → ready i = true ∧ Names (ipOf (mac i)) data)
    (hstep : r.Step (.datagram (ipOf (mac i)) data) r') : Sound mac ready j r' := by
  have hpeers := NodeRun.peersInv_step h.peers hstep
  obtain ⟨⟨n, reply⟩, hhandle, rfl⟩ := Option.map_eq_some_iff.mp hstep
  obtain ⟨hname, hor⟩ := ClusterNode.handle_spec hhandle
  rcases hor with ⟨name, hm, hadd, -⟩ | ⟨-, hsame, -⟩
  · have hdisc : isDiscovery data = true := by
      rcases hm with hm | hm <;> rw [isDiscovery, hm] <;> rfl
    obtain ⟨hready, hnames⟩ := hsaid hdisc
    obtain rfl := hnames name hm
    refine ⟨hname.trans h.name, ?_, hpeers, fun k hk => ?_⟩
    · simp only [hadd, PeerTable.addOrUpdatePeer_localIp, h.localIp]
    · simp only [NodeRun.peer, hadd] at hk ⊢
      rcases PeerTable.addOrUpdatePeer_entry hk with ⟨dst, hip, hcopy⟩ | ⟨hold, hip, hkept⟩
      · refine ⟨i, hready, hip, ?_⟩
        rw [hcopy, hip]
        exact strCopy_reads (reads_nameBuf _) (localNameBytes_no_nul _)
          (localNameBytes_length_le _) dst
      · obtain ⟨l, hl, hipl, hreads⟩ := h.known k hold
        refine ⟨l, hl, hip.trans hipl, ?_⟩
        rw [hkept, hip]
        exact hreads
  · refine ⟨hname.trans h.name, ?_, hpeers, fun k hk => ?_⟩
    · simp only [hsame, h.localIp]
    · simp only [NodeRun.peer, hsame] at hk ⊢
      exact h.known k hk

theorem Sound.expire {ready : ι → Bool} {j : ι} {r r' : NodeRun} (h : Sound mac ready j r)
    (hstep : r.Step .expire r') : Sound mac ready j r' := by
  have hpeers := NodeRun.peersInv_step h.peers hstep
  obtain rfl := Option.some.inj hstep
  refine ⟨h.name, (PeerTable.expireStale_localIp _ _).trans h.localIp, hpeers, fun k hk => ?_⟩
  rcases r.node.peers.expireStale_peers r.ticks k with hsame | ⟨-, hclear⟩
  · simp only [NodeRun.peer, hsame] at hk ⊢
    exact h.known k hk
  · simp only [NodeRun.peer, hclear] at hk
    exact absurd hk Bool.false_ne_true

theorem Sound.pass {ready : ι → Bool} {j : ι} {r r' : NodeRun} {d : ℕ} (h : Sound mac ready j r)
    (hstep : r.Step (.pass d) r') : Sound mac ready j r' := by
  have hpeers := NodeRun.peersInv_step h.peers hstep
  obtain rfl := Option.some.inj hstep
  exact ⟨h.name, h.localIp, hpeers, h.known⟩

theorem Sound.work {ready : ι → Bool} {j : ι} {r : NodeRun} (h : Sound mac ready j r)
    (jobs : JobNode) (procs : ProcNode) : Sound mac ready j (workRun r jobs procs) where
  name := h.name
  localIp := h.localIp
  peers := ⟨h.peers.counted, h.peers.heard⟩
  known := h.known

/-! ## Steps -/

variable [DecidableEq ι]

/-- Only members have a handler and speak of themselves. -/
structure Inv (mac : ι → Mac) (s : Members ι) : Prop where
  lan : Lan.Inv mac s.lan
  silent : ∀ i, s.ready i = false → (s.lan.node i).udpHandlers = registerAll []
  said : ∀ i, ∀ d ∈ s.lan.sent i, isDiscovery d.data = true →
    s.ready i = true ∧ Names (ipOf (mac i)) d.data
  sound : ∀ i, s.ready i = true → Sound mac s.ready i (s.run i)

variable {s t : Members ι} {handler : UInt64}

theorem inv_start (hmac : ∀ i, (mac i).length = 6) (node : ι → ClusterNode) :
    Inv mac (start mac hmac node) where
  lan := Lan.inv_start hmac
  silent _ _ := rfl
  said _ _ h := by cases h
  sound _ h := absurd h Bool.false_ne_true

theorem Inv.setRun {i : ι} {r : NodeRun} (h : Inv mac s)
    (hr : s.ready i = true → Sound mac s.ready i r) :
    Inv mac { s with run := Function.update s.run i r } :=
  { h with
    sound := by
      rw [Function.forall_update_iff s.run fun j r => s.ready j = true → Sound mac s.ready j r]
      exact ⟨hr, fun j _ => h.sound j⟩ }

/-- A step of the network under which the nodes keep their handlers. -/
theorem Inv.setLan {lan : Lan ι} (h : Inv mac s) (hlan : Lan.Inv mac lan)
    (hhandlers : ∀ i, (lan.node i).udpHandlers = (s.lan.node i).udpHandlers)
    (hsaid : ∀ i, ∀ d ∈ lan.sent i, isDiscovery d.data = true →
      s.ready i = true ∧ Names (ipOf (mac i)) d.data) :
    Inv mac { s with lan := lan } where
  lan := hlan
  silent i hi := (hhandlers i).trans (h.silent i hi)
  said := hsaid
  sound := h.sound

theorem Inv.send {i : ι} {d : Datagram} {lan : Lan ι} (h : Inv mac s)
    (hsaid : isDiscovery d.data = true → s.ready i = true ∧ Names (ipOf (mac i)) d.data)
    (hstep : s.lan.step (.send i d) = some lan) : Inv mac { s with lan := lan } := by
  have hlan := h.lan.step hstep
  obtain ⟨r, hr, rfl⟩ := Option.map_eq_some_iff.mp hstep
  refine h.setLan hlan (fun j => ?_) fun j d' hd' => ?_
  · by_cases hj : j = i
    · subst hj
      simp only [Lan.send, Function.update_self]
      rcases Network.Node.send_cases hr with ⟨hs, -⟩ | ⟨hs, -⟩ | ⟨_, _, _, _, hs, -⟩ <;> rw [hs]
    · simp only [Lan.send, Function.update_of_ne hj]
  · simp only [Lan.send] at hd'
    split at hd'
    · by_cases hj : j = i
      · subst hj
        rw [Function.update_self] at hd'
        rcases List.mem_append.mp hd' with hold | hnew
        · exact h.said j d' hold
        · rw [List.mem_singleton.mp hnew]
          exact hsaid
      · rw [Function.update_of_ne hj] at hd'
        exact h.said j d' hd'
    · exact h.said j d' hd'

theorem Inv.init {i : ι} (h : Inv mac s) (hstep : s.step handler (.init i) = some t) :
    Inv mac t := by
  unfold step at hstep
  dsimp only at hstep
  split at hstep
  · cases hstep
  obtain ⟨lan, hlan, rfl⟩ := Option.map_eq_some_iff.mp hstep
  have hnext := h.lan.step hlan
  obtain rfl := Option.some.inj hlan
  have hmono : ∀ j, s.ready j = true → Function.update s.ready i true j = true := by
    intro j hj
    by_cases hji : j = i
    · rw [hji, Function.update_self]
    · rwa [Function.update_of_ne hji]
  refine ⟨hnext, fun j hj => ?_, fun j d hd hdisc => ?_, fun j hj => ?_⟩
  · by_cases hji : j = i
    · simp only [hji, Function.update_self] at hj
      cases hj
    · simp only [Function.update_of_ne hji] at hj
      simp only [Lan.register, Function.update_of_ne hji]
      exact h.silent j hj
  · obtain ⟨hready, hnames⟩ := h.said j d hd hdisc
    exact ⟨hmono j hready, hnames⟩
  · by_cases hji : j = i
    · subst hji
      simp only [Function.update_self, h.lan.ourIp]
      exact sound_init _ _ _
    · simp only [Function.update_of_ne hji] at hj ⊢
      exact (h.sound j hj).mono hmono

/-- A call is for what a node has sent, and only members are called. -/
theorem Inv.called {j : ι} {stale : ℕ → UInt8} {lan : Lan ι} (h : Inv mac s)
    (hstep : s.lan.step (.handle j stale) = some lan) :
    Inv mac { s with lan := lan } ∧
      ((lan.calls j).drop (s.lan.calls j).length = [] ∨
        ∃ c i, (lan.calls j).drop (s.lan.calls j).length = [c] ∧ s.ready j = true ∧
          c.srcIp = ipOf (mac i) ∧ ∃ d ∈ s.lan.sent i, c.payload = d.data) := by
  have hnext := h.lan.step hstep
  obtain ⟨⟨p, net⟩, hp, rfl⟩ := Option.map_eq_some_iff.mp hstep
  refine ⟨h.setLan hnext (fun i => ?_) h.said, ?_⟩
  · by_cases hi : i = j
    · subst hi
      simp only [Lan.handle, Function.update_self]
      exact (Network.processPacket_keeps _ _ _).2.2
    · simp only [Lan.handle, Function.update_of_ne hi]
  · obtain ⟨new, hcalls, hnew⟩ := Lan.handle_calls h.lan hp stale
    have hdrop : ((s.lan.handle j p.2 stale net).calls j).drop (s.lan.calls j).length = new := by
      rw [hcalls, Function.update_self, List.drop_left]
    rw [hdrop]
    rcases hnew with rfl | ⟨c, d, rfl, hd, hsrc, hcarries⟩
    · exact .inl rfl
    · refine .inr ⟨c, p.1, rfl, ?_, hsrc, d, ?_, hcarries.2.1⟩
      · by_contra hready
        have hsilent := h.silent j (Bool.eq_false_of_not_eq_true hready)
        have hhandler := hcarries.2.2.1
        rw [Lan.handlerOf_registered hsilent] at hhandler
        cases hhandler
      · rw [h.lan.sent]
        exact List.mem_filterMap.mpr ⟨p.2, h.lan.ordered.take_mem hp, hd⟩

theorem Inv.receiveCall {i j : ι} {c : Call} {d : Datagram} (h : Inv mac s)
    (hready : s.ready j = true) (hsrc : c.srcIp = ipOf (mac i)) (hd : d ∈ s.lan.sent i)
    (hpay : c.payload = d.data) (hstep : s.receiveCall j c = some t) : Inv mac t := by
  obtain ⟨run, hrun, hstep⟩ := Option.bind_eq_some_iff.mp hstep
  have hsound : Sound mac s.ready j run := by
    rw [hsrc, hpay] at hrun
    exact (h.sound j hready).datagram (h.said i d hd) hrun
  have hset := h.setRun (fun _ => hsound)
  dsimp only at hstep
  split at hstep
  · obtain rfl := Option.some.inj hstep
    exact hset
  · rename_i data hreply
    obtain ⟨lan, hlan, rfl⟩ := Option.map_eq_some_iff.mp hstep
    refine hset.send (d := clusterDatagram c.srcIp data) (fun hdisc => ⟨hready, ?_⟩) hlan
    obtain ⟨⟨n, reply⟩, hhandle, hsome⟩ := Option.bind_eq_some_iff.mp hreply
    obtain rfl : reply = some data := hsome
    rcases (ClusterNode.handle_spec hhandle).2 with ⟨name, -, -, hack⟩ | ⟨-, -, hno⟩
    · rw [clusterDatagram, hack data rfl, (h.sound j hready).name]
      exact names_discoverAck _
    · rw [clusterDatagram, hno data rfl] at hdisc
      cases hdisc

theorem Inv.step {e : MemberEvent ι} (h : Inv mac s) (hstep : s.step handler e = some t) :
    Inv mac t := by
  cases e with
  | init i => exact h.init hstep
  | discover i =>
    unfold Members.step at hstep
    dsimp only at hstep
    split at hstep
    · rename_i hready
      obtain ⟨lan, hlan, rfl⟩ := Option.map_eq_some_iff.mp hstep
      refine h.send (fun _ => ⟨hready, ?_⟩) hlan
      rw [clusterDatagram, (h.sound i hready).name]
      exact names_discover _
    · obtain rfl := Option.some.inj hstep
      exact h
  | work i jobs procs d =>
    have hset := h.setRun fun hready => (h.sound i hready).work jobs procs
    unfold Members.step at hstep
    cases d with
    | none =>
      obtain rfl := Option.some.inj hstep
      exact hset
    | some d =>
      dsimp only at hstep
      split at hstep
      · cases hstep
      · rename_i hno
        obtain ⟨lan, hlan, rfl⟩ := Option.map_eq_some_iff.mp hstep
        exact hset.send (fun hdisc => absurd hdisc hno) hlan
  | handle j stale =>
    obtain ⟨lan, hlan, hstep⟩ := Option.bind_eq_some_iff.mp hstep
    obtain ⟨hnext, hcalled⟩ := h.called hlan
    rcases hcalled with hnone | ⟨c, i, hone, hready, hsrc, d, hd, hpay⟩
    · rw [hnone] at hstep
      obtain rfl := Option.some.inj hstep
      exact hnext
    · rw [hone] at hstep
      refine hnext.receiveCall hready hsrc ?_ hpay hstep
      obtain ⟨⟨p, net⟩, -, rfl⟩ := Option.map_eq_some_iff.mp hlan
      exact hd
  | expire i =>
    obtain rfl := Option.some.inj hstep
    have hset := h.setRun fun hready => (h.sound i hready).expire rfl
    exact ⟨hset.lan, hset.silent, hset.said, hset.sound⟩
  | pass i d =>
    obtain rfl := Option.some.inj hstep
    exact h.setRun fun hready => (h.sound i hready).pass rfl
  | move e =>
    obtain ⟨lan, hlan, rfl⟩ := Option.map_eq_some_iff.mp hstep
    have hnext := h.lan.step hlan
    obtain ⟨net, -, rfl⟩ := Option.map_eq_some_iff.mp hlan
    exact h.setLan hnext (fun _ => rfl) h.said

theorem inv_of_run {hmac : ∀ i, (mac i).length = 6} {node : ι → ClusterNode}
    {es : List (MemberEvent ι)}
    (hrun : Run (fun s e t => s.step handler e = some t) (start mac hmac node) es s) : Inv mac s :=
  hrun.invariant (Inv mac) (inv_start hmac node) fun _ _ _ h hstep => h.step hstep

/-- Whatever the network loses and delays: the peers of a member are other members under their own
names, each in one entry, and `get_peer` enumerates them. -/
theorem peers_are_members (handler : UInt64) (mac : ι → Mac) (hmac : ∀ i, (mac i).length = 6)
    (node : ι → ClusterNode) (es : List (MemberEvent ι)) (s : Members ι)
    (hrun : Run (fun s e t => s.step handler e = some t) (start mac hmac node) es s) (j : ι)
    (hj : s.ready j = true) :
    (s.run j).node.peers.Consistent ∧
      ∀ k, ((s.run j).peer k).active = true → ∃ i, i ≠ j ∧ s.ready i = true ∧
        ((s.run j).peer k).ip = ipOf (mac i) ∧
        Reads ((s.run j).peer k).name (localNameBytes (ipOf (mac i))) := by
  have hsound := (inv_of_run hrun).sound j hj
  refine ⟨hsound.peers.counted.consistent, fun k hk => ?_⟩
  obtain ⟨i, hi, hip, hreads⟩ := hsound.known k hk
  refine ⟨i, ?_, hi, hip, hip ▸ hreads⟩
  rintro rfl
  exact hsound.peers.counted.notLocal k hk (hip.trans hsound.localIp.symm)

end Members

/-! ## Who was heard from is listed -/

/-- An address the table holds it goes on to hold. -/
theorem PeerTable.holds_addOrUpdatePeer {t : PeerTable} {ip ip' : Ip} (name : NameBuf)
    (ticks : UInt64) (h : Slots.Holds Node.active Node.ip t.peers ip) :
    Slots.Holds Node.active Node.ip (t.addOrUpdatePeer ip' name ticks).peers ip := by
  obtain ⟨k, hk, hip⟩ := h
  refine ⟨k, ?_⟩
  rcases addOrUpdatePeer_cases t ip' name ticks with
    ⟨i, hactive, -, -, heq⟩ | ⟨i, hfree, -, -, heq⟩ | ⟨-, heq⟩
  all_goals rw [heq]
  · by_cases hki : k = i
    · subst hki
      simp only [Function.update_self]
      exact ⟨hk, hip⟩
    · simp only [Function.update_of_ne hki]
      exact ⟨hk, hip⟩
  · have hki : k ≠ i := fun h => by rw [h, hfree] at hk; cases hk
    simp only [Function.update_of_ne hki]
    exact ⟨hk, hip⟩
  · exact ⟨hk, hip⟩

/-- A table with room lists the address of a message. -/
theorem PeerTable.addOrUpdatePeer_holds {t : PeerTable} {ip : Ip} (name : NameBuf) (ticks : UInt64)
    (hlocal : ip ≠ t.localIp) (hroom : Slots.HasRoom Node.active Node.ip t.peers ip) :
    Slots.Holds Node.active Node.ip (t.addOrUpdatePeer ip name ticks).peers ip := by
  rcases addOrUpdatePeer_cases t ip name ticks with
    ⟨i, hactive, hip, -, -⟩ | ⟨i, -, -, -, heq⟩ | ⟨hno, -⟩
  · exact holds_addOrUpdatePeer name ticks ⟨i, hactive, hip⟩
  · refine ⟨i, ?_⟩
    rw [heq]
    simp only [Function.update_self, and_self]
  · exact absurd hroom (hno.resolve_left hlocal)

/-- The turn of a stale entry clears it. -/
theorem PeerTable.expireEntry_self {t : PeerTable} {ticks : UInt64} {k : Fin maxNodes}
    (hstale : Stale (t.peers k) ticks) : ((t.expireEntry ticks k).peers k).active = false := by
  unfold expireEntry
  split
  · simp only [Function.update_self]
  · rename_i hno
    exact Bool.eq_false_of_not_eq_true fun hactive => hno ⟨hactive, hstale⟩

/-- The loop does not bring an entry back. -/
theorem PeerTable.foldl_expireEntry_off {ticks : UInt64} {k : Fin maxNodes}
    (l : List (Fin maxNodes)) (t : PeerTable) (h : (t.peers k).active = false) :
    ((l.foldl (expireEntry ticks) t).peers k).active = false := by
  induction l generalizing t with
  | nil => exact h
  | cons i l ih =>
    apply ih
    rcases t.expireEntry_peers ticks i k with hsame | ⟨-, hclear⟩
    · rwa [hsame]
    · rw [hclear]

theorem PeerTable.foldl_expireEntry_stale {ticks : UInt64} {k : Fin maxNodes}
    (l : List (Fin maxNodes)) (t : PeerTable) (hk : k ∈ l) (hstale : Stale (t.peers k) ticks) :
    ((l.foldl (expireEntry ticks) t).peers k).active = false := by
  induction l generalizing t with
  | nil => cases hk
  | cons i l ih =>
    rw [List.foldl_cons]
    by_cases hki : k = i
    · subst hki
      exact foldl_expireEntry_off l _ (expireEntry_self hstale)
    · rcases t.expireEntry_peers ticks i k with hsame | ⟨-, hclear⟩
      · exact ih _ ((List.mem_cons.mp hk).resolve_left hki) (by rwa [hsame])
      · exact foldl_expireEntry_off l _ (by rw [hclear])

/-- What an expiry pass leaves active was not stale. -/
theorem PeerTable.not_stale_of_expireStale {t : PeerTable} {ticks : UInt64} {k : Fin maxNodes}
    (h : ((t.expireStale ticks).peers k).active = true) : ¬Stale (t.peers k) ticks := by
  intro hstale
  have hoff := foldl_expireEntry_stale (List.finRange maxNodes) t (List.mem_finRange k) hstale
  rw [expireStale, hoff] at h
  cases h

/-- An entry that is not stale was heard from in the last 10000 ticks. -/
theorem NodeRun.PeersInv.recent {r : NodeRun} (h : r.PeersInv)
    {k : Fin maxNodes} (hk : (r.peer k).active = true) (hnow : r.now < 2 ^ 64)
    (hfresh : ¬PeerTable.Stale (r.peer k) r.ticks) :
    ∃ T, r.heard (r.peer k).ip = some T ∧ r.now ≤ T + 10000 := by
  obtain ⟨T, hT, hle, hseen⟩ := h.heard k hk
  have hdiff : r.ticks - (r.peer k).lastSeen = UInt64.ofNat (r.now - T) := by
    rw [hseen, UInt64.ofNat_sub hle]
    rfl
  have hval : (UInt64.ofNat (r.now - T)).toNat = r.now - T :=
    UInt64.toNat_ofNat_of_lt' (by change r.now - T < 2 ^ 64; omega)
  unfold PeerTable.Stale at hfresh
  rw [hdiff, gt_iff_lt, UInt64.lt_iff_toNat_lt, hval] at hfresh
  refine ⟨T, hT, ?_⟩
  change ¬10000 < r.now - T at hfresh
  omega

namespace Members

variable {ι : Type*} {mac : ι → Mac}

/-- The members node `j` lists are the other ones it has heard from, unless an expiry pass ran more
than 10000 ticks later. -/
structure Kept (mac : ι → Mac) (j : ι) (passed : ℕ) (r : NodeRun) : Prop where
  passed_le : passed ≤ r.now
  listed : ∀ i, i ≠ j → ∀ T, r.heard (ipOf (mac i)) = some T → passed ≤ T + 10000 →
    Slots.Holds Node.active Node.ip r.node.peers.peers (ipOf (mac i))
  -- The difference of the counters is the time that went by before they wrap.
  recent : r.now < 2 ^ 64 → ∀ k, (r.peer k).active = true →
    ∃ T, r.heard (r.peer k).ip = some T ∧ passed ≤ T + 10000

/-- Eight entries have room for each of the other members. -/
theorem Sound.hasRoom [Fintype ι] {ready : ι → Bool} {i j : ι} {r : NodeRun}
    (h : Sound mac ready j r) (hcard : Fintype.card ι ≤ maxNodes + 1) (hij : i ≠ j) :
    Slots.HasRoom Node.active Node.ip r.node.peers.peers (ipOf (mac i)) := by
  classical
  refine Slots.Distinct.hasRoom (K := (Finset.univ.erase j).image fun i => ipOf (mac i))
    h.peers.counted.distinct (fun k hk => ?_) ?_ ?_
  · obtain ⟨l, -, hip, -⟩ := h.known k hk
    refine Finset.mem_image.mpr ⟨l, Finset.mem_erase.mpr ⟨?_, Finset.mem_univ l⟩, hip.symm⟩
    rintro rfl
    exact h.peers.counted.notLocal k hk (hip.trans h.localIp.symm)
  · refine Finset.card_image_le.trans ?_
    rw [Finset.card_erase_of_mem (Finset.mem_univ j), Finset.card_univ]
    omega
  · exact Finset.mem_image_of_mem _ (Finset.mem_erase.mpr ⟨hij, Finset.mem_univ i⟩)

theorem Kept.datagram [Fintype ι] {ready : ι → Bool} {i j : ι} {r r' : NodeRun} {data : Bytes}
    {passed : ℕ} (h : Kept mac j passed r) (hsound : Sound mac ready j r)
    (hcard : Fintype.card ι ≤ maxNodes + 1) (hip : Function.Injective fun i => ipOf (mac i))
    (hstep : r.Step (.datagram (ipOf (mac i)) data) r') : Kept mac j passed r' := by
  obtain ⟨⟨n, reply⟩, hhandle, rfl⟩ := Option.map_eq_some_iff.mp hstep
  rcases ClusterNode.handle_peers_cases hhandle with ⟨hdisc, name, hadd⟩ | ⟨hdisc, hsame⟩
  · refine ⟨h.passed_le, fun l hl T hT hle => ?_, fun hnow k hk => ?_⟩
    · simp only [hdisc, if_true] at hT
      simp only [hadd]
      by_cases hli : l = i
      · subst hli
        refine PeerTable.addOrUpdatePeer_holds name _ ?_ (hsound.hasRoom hcard hl)
        rw [hsound.localIp]
        exact hip.ne hl
      · rw [Function.update_of_ne (hip.ne hli)] at hT
        exact PeerTable.holds_addOrUpdatePeer name _ (h.listed l hl T hT hle)
    · simp only [NodeRun.peer, hadd, hdisc, if_true] at hk ⊢
      rcases hsound.peers.counted.active_addOrUpdatePeer hk with ⟨hkip, -⟩ | ⟨hne, hkept⟩
      · rw [hkip, Function.update_self]
        exact ⟨r.now, rfl, h.passed_le.trans (Nat.le_add_right _ _)⟩
      · rw [hkept] at hk ⊢
        rw [Function.update_of_ne hne]
        exact h.recent hnow k hk
  · refine ⟨h.passed_le, fun l hl T hT hle => ?_, fun hnow k hk => ?_⟩
    · simp only [hdisc, Bool.false_eq_true, if_false] at hT
      simp only [hsame]
      exact h.listed l hl T hT hle
    · simp only [NodeRun.peer, hsame, hdisc, Bool.false_eq_true, if_false] at hk ⊢
      exact h.recent hnow k hk

/-- An expiry pass leaves who was heard from in the last 10000 ticks. -/
theorem Kept.expire {j : ι} {r r' : NodeRun} {passed : ℕ} (h : Kept mac j passed r)
    (hpeers : r.PeersInv) (hstep : r.Step .expire r') : Kept mac j r.now r' := by
  obtain rfl := Option.some.inj hstep
  refine ⟨le_rfl, fun i hi T hT hle => ?_, fun hnow k hk => ?_⟩
  · obtain ⟨k, hk, hip⟩ := h.listed i hi T hT (h.passed_le.trans hle)
    refine ⟨k, ?_⟩
    have hrecent := hpeers.not_stale hk (hip ▸ hT) hle
    rcases r.node.peers.expireStale_peers r.ticks k with hsame | ⟨hstale, -⟩
    · dsimp only
      rw [hsame]
      exact ⟨hk, hip⟩
    · exact absurd hstale hrecent
  · have hfresh := PeerTable.not_stale_of_expireStale hk
    rcases r.node.peers.expireStale_peers r.ticks k with hsame | ⟨hstale, -⟩
    · simp only [NodeRun.peer, hsame] at hk ⊢
      exact hpeers.recent hk hnow hfresh
    · exact absurd hstale hfresh

theorem Kept.pass {j : ι} {r : NodeRun} {passed : ℕ} (h : Kept mac j passed r) (d : ℕ) :
    Kept mac j passed { r with now := r.now + d } where
  passed_le := h.passed_le.trans (Nat.le_add_right _ d)
  listed := h.listed
  recent hnow := h.recent (lt_of_le_of_lt (Nat.le_add_right _ d) hnow)

variable [DecidableEq ι] {s t : Members ι} {handler : UInt64}

/-- What the members list. -/
structure Listed (mac : ι → Mac) (s : Members ι) : Prop where
  passed_le : ∀ j, s.passed j ≤ (s.run j).now
  kept : ∀ j, s.ready j = true → Kept mac j (s.passed j) (s.run j)

theorem Listed.setRun {i : ι} {r : NodeRun} (h : Listed mac s) (hnow : (s.run i).now ≤ r.now)
    (hr : s.ready i = true → Kept mac i (s.passed i) r) :
    Listed mac { s with run := Function.update s.run i r } where
  passed_le := by
    rw [Function.forall_update_iff s.run fun j r => s.passed j ≤ r.now]
    exact ⟨(h.passed_le i).trans hnow, fun j _ => h.passed_le j⟩
  kept := by
    rw [Function.forall_update_iff s.run fun j r => s.ready j = true → Kept mac j (s.passed j) r]
    exact ⟨hr, fun j _ => h.kept j⟩

omit [DecidableEq ι] in
theorem Listed.setLan (h : Listed mac s) (lan : Lan ι) : Listed mac { s with lan := lan } :=
  ⟨h.passed_le, h.kept⟩

theorem Listed.receiveCall [Fintype ι] {i j : ι} {c : Call} (hl : Listed mac s) (h : Inv mac s)
    (hcard : Fintype.card ι ≤ maxNodes + 1) (hip : Function.Injective fun i => ipOf (mac i))
    (hready : s.ready j = true) (hsrc : c.srcIp = ipOf (mac i))
    (hstep : s.receiveCall j c = some t) : Listed mac t := by
  obtain ⟨run, hrun, hstep⟩ := Option.bind_eq_some_iff.mp hstep
  have hkept : Kept mac j (s.passed j) run := by
    rw [hsrc] at hrun
    exact (hl.kept j hready).datagram (h.sound j hready) hcard hip hrun
  have hnow : (s.run j).now ≤ run.now := by
    obtain ⟨_, -, rfl⟩ := Option.map_eq_some_iff.mp hrun
    exact le_rfl
  have hset := hl.setRun hnow (fun _ => hkept)
  dsimp only at hstep
  split at hstep
  · obtain rfl := Option.some.inj hstep
    exact hset
  · obtain ⟨lan, -, rfl⟩ := Option.map_eq_some_iff.mp hstep
    exact hset.setLan lan

theorem Listed.init {i : ι} (hl : Listed mac s) (hstep : s.step handler (.init i) = some t) :
    Listed mac t := by
  unfold Members.step at hstep
  dsimp only at hstep
  split at hstep
  · cases hstep
  obtain ⟨lan, -, rfl⟩ := Option.map_eq_some_iff.mp hstep
  have hpassed : ∀ j, s.passed j ≤
      (Function.update s.run i (initRun (s.run i) (s.lan.node i).ourIp) j).now := by
    rw [Function.forall_update_iff s.run fun j r => s.passed j ≤ r.now]
    exact ⟨hl.passed_le i, fun j _ => hl.passed_le j⟩
  refine ⟨hpassed, fun j hj => ?_⟩
  by_cases hji : j = i
  · subst hji
    simp only [Function.update_self]
    exact ⟨hl.passed_le j, fun _ _ _ hT => (by cases hT), fun _ _ hk => absurd hk Bool.false_ne_true⟩
  · simp only [Function.update_of_ne hji] at hj ⊢
    exact hl.kept j hj

theorem Listed.expire {i : ι} (hl : Listed mac s) (h : Inv mac s)
    (hstep : s.step handler (.expire i) = some t) : Listed mac t := by
  obtain rfl := Option.some.inj hstep
  refine ⟨fun j => ?_, fun j hj => ?_⟩
  · by_cases hji : j = i
    · subst hji
      simp only [Function.update_self]
      exact le_rfl
    · simp only [Function.update_of_ne hji]
      exact hl.passed_le j
  · by_cases hji : j = i
    · subst hji
      simp only [Function.update_self]
      exact (hl.kept j hj).expire (h.sound j hj).peers rfl
    · simp only [Function.update_of_ne hji]
      exact hl.kept j hj

theorem Listed.step [Fintype ι] {e : MemberEvent ι} (hl : Listed mac s) (h : Inv mac s)
    (hcard : Fintype.card ι ≤ maxNodes + 1) (hip : Function.Injective fun i => ipOf (mac i))
    (hstep : s.step handler e = some t) : Listed mac t := by
  cases e with
  | init i => exact hl.init hstep
  | discover i =>
    unfold Members.step at hstep
    dsimp only at hstep
    split at hstep
    · obtain ⟨lan, -, rfl⟩ := Option.map_eq_some_iff.mp hstep
      exact hl.setLan lan
    · obtain rfl := Option.some.inj hstep
      exact hl
  | work i jobs procs d =>
    have hset := hl.setRun (i := i) (r := workRun (s.run i) jobs procs) le_rfl fun hi =>
      ⟨hl.passed_le i, (hl.kept i hi).listed, (hl.kept i hi).recent⟩
    unfold Members.step at hstep
    cases d with
    | none =>
      obtain rfl := Option.some.inj hstep
      exact hset
    | some d =>
      dsimp only at hstep
      split at hstep
      · cases hstep
      · obtain ⟨lan, -, rfl⟩ := Option.map_eq_some_iff.mp hstep
        exact hset.setLan lan
  | handle j stale =>
    obtain ⟨lan, hlan, hstep⟩ := Option.bind_eq_some_iff.mp hstep
    obtain ⟨hnext, hcalled⟩ := h.called hlan
    rcases hcalled with hnone | ⟨c, i, hone, hready, hsrc, -⟩
    · rw [hnone] at hstep
      obtain rfl := Option.some.inj hstep
      exact hl.setLan lan
    · rw [hone] at hstep
      exact (hl.setLan lan).receiveCall hnext hcard hip hready hsrc hstep
  | expire i => exact hl.expire h hstep
  | pass i d =>
    obtain rfl := Option.some.inj hstep
    exact hl.setRun (Nat.le_add_right _ d) fun hi => (hl.kept i hi).pass d
  | move e =>
    obtain ⟨lan, -, rfl⟩ := Option.map_eq_some_iff.mp hstep
    exact hl.setLan lan

/-- Of at most nine nodes with different addresses, a member lists exactly the other ones it has
heard from, unless an expiry pass ran more than 10000 ticks later. -/
theorem members_heard_are_listed [Fintype ι] (hcard : Fintype.card ι ≤ 9) (handler : UInt64)
    (mac : ι → Mac) (hmac : ∀ i, (mac i).length = 6)
    (hip : Function.Injective fun i => ipOf (mac i)) (node : ι → ClusterNode)
    (es : List (MemberEvent ι)) (s : Members ι)
    (hrun : Run (fun s e t => s.step handler e = some t) (start mac hmac node) es s) (i j : ι)
    (hj : s.ready j = true) (hij : i ≠ j) (hnow : (s.run j).now < 2 ^ 64) :
    (∃! k, ((s.run j).peer k).active = true ∧ ((s.run j).peer k).ip = ipOf (mac i)) ↔
      ∃ T, (s.run j).heard (ipOf (mac i)) = some T ∧ s.passed j ≤ T + 10000 := by
  have hboth : Inv mac s ∧ Listed mac s := by
    refine hrun.invariant (fun s => Inv mac s ∧ Listed mac s) ⟨inv_start hmac node, ?_⟩
      fun a e b h hstep => ⟨h.1.step hstep, h.2.step h.1 hcard hip hstep⟩
    exact ⟨fun _ => le_rfl, fun j hj => absurd hj Bool.false_ne_true⟩
  obtain ⟨h, hl⟩ := hboth
  constructor
  · rintro ⟨k, ⟨hk, hkip⟩, -⟩
    rw [← hkip]
    exact (hl.kept j hj).recent hnow k hk
  · rintro ⟨T, hT, hpassed⟩
    obtain ⟨k, hk, hkip⟩ := (hl.kept j hj).listed i hij T hT hpassed
    refine ⟨k, ⟨hk, hkip⟩, fun k' hk' => ?_⟩
    exact (h.sound j hj).peers.counted.distinct k' k hk'.1 hk (hk'.2.trans hkip.symm)

end Members

/-- Two nodes join, and the first one hears from the second. -/
def joining : List (MemberEvent Bool) :=
  [.init false, .init true, .pass false 40, .discover true, .move (.submit true false),
    .move (.transmit true), .move (.arrive true false false), .handle false fun _ => 0,
    .pass false 3000, .expire false]

/-- The two nodes after this. -/
def joined : Members Bool :=
  (exec (Members.step 64) (Members.start Network.twoMacs Network.twoMacs_length fun _ => freshNode)
    joining).get (by decide +kernel)

theorem peers_are_members_joining : ∃ k i, ((joined.run false).peer k).active = true ∧ i ≠ false ∧
    ((joined.run false).peer k).ip = ipOf (Network.twoMacs i) ∧
    Reads ((joined.run false).peer k).name (localNameBytes (ipOf (Network.twoMacs i))) := by
  have hall := (Members.peers_are_members 64 Network.twoMacs Network.twoMacs_length
    (fun _ => freshNode) joining joined (run_get _) false (by decide +kernel)).2
  have hsome : ∃ k, ((joined.run false).peer k).active = true := by decide +kernel
  obtain ⟨k, hk⟩ := hsome
  obtain ⟨i, hi, -, hip, hreads⟩ := hall k hk
  exact ⟨k, i, hk, hi, hip, hreads⟩

theorem members_heard_are_listed_joining : ∃! k, ((joined.run false).peer k).active = true ∧
    ((joined.run false).peer k).ip = ipOf (Network.twoMacs true) :=
  (Members.members_heard_are_listed (by decide) 64 Network.twoMacs Network.twoMacs_length
    (by decide +kernel) (fun _ => freshNode) joining joined (run_get _) true false
    (by decide +kernel) (by decide) (by decide +kernel)).mpr ⟨40, by decide +kernel, by decide +kernel⟩

end QuillOS.Cluster
