import QuillOS.Lib.Slots
import QuillOS.Cluster.Peers

/-!
# Peers come and go

The peer table under discovery messages and the expiry pass of the heartbeat task. The counter that
is kept by hand stays the number of active entries, and a peer expires only after it was not heard
from for 10000 ticks.
-/

namespace QuillOS.Cluster

open Lib

namespace PeerTable

/-! ## The functions of the table -/

/-- What `Cluster::init` does to the table. -/
def init (t : PeerTable) (localIp : Ip) : PeerTable where
  peers i := { t.peers i with active := false }
  peerCount := 0
  localIp := localIp

/-- `ticks - last_seen > 10000`. -/
def Stale (n : Node) (ticks : UInt64) : Prop := ticks - n.lastSeen > 10000

instance (n : Node) (ticks : UInt64) : Decidable (Stale n ticks) := by
  unfold Stale
  infer_instance

/-- One turn of the expiry loop of `heartbeat_task_entry`. -/
def expireEntry (ticks : UInt64) (t : PeerTable) (i : Fin maxNodes) : PeerTable :=
  if (t.peers i).active = true ∧ Stale (t.peers i) ticks then
    { t with
      peers := Function.update t.peers i { t.peers i with active := false }
      peerCount := if t.peerCount > 0 then t.peerCount - 1 else t.peerCount }
  else t

/-- The expiry loop. -/
def expireStale (t : PeerTable) (ticks : UInt64) : PeerTable :=
  (List.finRange maxNodes).foldl (expireEntry ticks) t

def getPeerCount (t : PeerTable) : UInt32 := t.peerCount

/-- The loop of `get_peer`. -/
def getPeerFrom (t : PeerTable) (idx : UInt32) : List (Fin maxNodes) → UInt32 → Option Node
  | [], _ => none
  | i :: rest, count =>
    if (t.peers i).active then
      if count = idx then some (t.peers i) else getPeerFrom t idx rest (count + 1)
    else getPeerFrom t idx rest count

def getPeer (t : PeerTable) (idx : UInt32) : Option Node :=
  getPeerFrom t idx (List.finRange maxNodes) 0

/-! ## What is kept -/

/-- The counter counts the active entries, whose addresses are distinct and not the local one. -/
structure Counted (t : PeerTable) : Prop where
  count : t.peerCount.toNat = Slots.count Node.active t.peers
  distinct : Slots.Distinct Node.active Node.ip t.peers
  notLocal : ∀ i, (t.peers i).active = true → (t.peers i).ip ≠ t.localIp

theorem Counted.init (t : PeerTable) (localIp : Ip) : (t.init localIp).Counted where
  count := by
    refine Eq.symm (Finset.card_eq_zero.mpr (Finset.filter_false_of_mem fun i _ => ?_))
    exact Bool.false_ne_true
  distinct _ _ hi := absurd hi Bool.false_ne_true
  notLocal _ hi := absurd hi Bool.false_ne_true

/-- Everything `add_or_update_peer` can do. -/
theorem addOrUpdatePeer_cases (t : PeerTable) (ip : Ip) (name : NameBuf) (ticks : UInt64) :
    (∃ i, (t.peers i).active = true ∧ (t.peers i).ip = ip ∧ ip ≠ t.localIp ∧
      t.addOrUpdatePeer ip name ticks =
        { t with peers := Function.update t.peers i { t.peers i with lastSeen := ticks } }) ∨
    (∃ i, (t.peers i).active = false ∧ ¬Slots.Holds Node.active Node.ip t.peers ip ∧
      ip ≠ t.localIp ∧
      t.addOrUpdatePeer ip name ticks =
        { t with
          peers := Function.update t.peers i
            { ip := ip, name := strCopy (t.peers i).name name, lastSeen := ticks, active := true }
          peerCount := t.peerCount + 1 }) ∨
    ((ip = t.localIp ∨ ¬Slots.HasRoom Node.active Node.ip t.peers ip) ∧
      t.addOrUpdatePeer ip name ticks = t) := by
  unfold addOrUpdatePeer
  split_ifs with hlocal
  · exact .inr (.inr ⟨.inl hlocal, rfl⟩)
  cases hfind : Slots.find Node.active Node.ip t.peers ip with
  | some i =>
    obtain ⟨hused, hkey⟩ := Slots.find_some hfind
    exact .inl ⟨i, hused, hkey, hlocal, by simp only [Slots.find] at hfind; rw [hfind]⟩
  | none =>
    have hno := Slots.find_eq_none.mp hfind
    cases hfree : Slots.findFree Node.active t.peers with
    | some i =>
      refine .inr (.inl ⟨i, Slots.findFree_some hfree, hno, hlocal, ?_⟩)
      simp only [Slots.find] at hfind
      simp only [Slots.findFree] at hfree
      rw [hfind, hfree]
    | none =>
      have hall := Slots.findFree_eq_none.mp hfree
      refine .inr (.inr ⟨.inr ?_, ?_⟩)
      · rintro (hholds | ⟨i, hi⟩)
        · exact hno hholds
        · rw [hall i] at hi
          cases hi
      · simp only [Slots.find] at hfind
        simp only [Slots.findFree] at hfree
        rw [hfind, hfree]

theorem Counted.le {t : PeerTable} (h : t.Counted) : t.peerCount.toNat ≤ maxNodes :=
  h.count ▸ Slots.count_le Node.active t.peers

theorem Counted.addOrUpdatePeer {t : PeerTable} (h : t.Counted) (ip : Ip) (name : NameBuf)
    (ticks : UInt64) : (t.addOrUpdatePeer ip name ticks).Counted := by
  rcases addOrUpdatePeer_cases t ip name ticks with
    ⟨i, hactive, hip, hlocal, heq⟩ | ⟨i, hfree, hno, hlocal, heq⟩ | ⟨-, heq⟩
  · rw [heq]
    refine ⟨?_, ?_, ?_⟩
    · have hsame : Slots.count Node.active
          (Function.update t.peers i { t.peers i with lastSeen := ticks }) =
            Slots.count Node.active t.peers := Slots.count_update_of_eq rfl
      exact h.count.trans hsame.symm
    · refine h.distinct.update i _ fun j hji hj _ hkey => hji (h.distinct j i hj hactive hkey)
    · intro j hj
      rcases eq_or_ne j i with rfl | hji
      · simp only [Function.update_self]
        exact hip ▸ hlocal
      · simp only [Function.update_of_ne hji] at hj ⊢
        exact h.notLocal j hj
  · rw [heq]
    refine ⟨?_, ?_, ?_⟩
    · have hle : t.peerCount.toNat ≤ 8 := h.le
      change (t.peerCount + 1).toNat = Slots.count Node.active (Function.update t.peers i _)
      rw [Slots.count_update_of_used hfree rfl, UInt32.toNat_add, ← h.count]
      exact Nat.mod_eq_of_lt (by change _ + 1 < 2 ^ 32; omega)
    · exact h.distinct.update i _ fun j _ hj _ hkey => hno ⟨j, hj, hkey⟩
    · intro j hj
      rcases eq_or_ne j i with rfl | hji
      · simpa only [Function.update_self] using hlocal
      · simp only [Function.update_of_ne hji] at hj ⊢
        exact h.notLocal j hj
  · rwa [heq]

theorem Counted.expireEntry {t : PeerTable} (h : t.Counted) (ticks : UInt64) (i : Fin maxNodes) :
    (t.expireEntry ticks i).Counted := by
  unfold PeerTable.expireEntry
  split
  · rename_i hstale
    have hdrop := Slots.count_update_of_free (t := t.peers) (i := i)
      (a := { t.peers i with active := false }) hstale.1 rfl
    refine ⟨?_, ?_, ?_⟩
    · -- An active entry was counted, so the guard of the decrement holds.
      have hpos : t.peerCount > 0 := by
        rw [gt_iff_lt, UInt32.lt_iff_toNat_lt, h.count, ← hdrop]
        exact Nat.succ_pos _
      have hone : (1 : UInt32) ≤ t.peerCount := hpos
      simp only [if_pos hpos, UInt32.toNat_sub_of_le _ _ hone]
      rw [h.count, ← hdrop]
      rfl
    · exact h.distinct.update i _ fun _ _ _ hfalse => absurd hfalse Bool.false_ne_true
    · intro j hj
      rcases eq_or_ne j i with rfl | hji
      · simp only [Function.update_self] at hj
        exact absurd hj Bool.false_ne_true
      · simp only [Function.update_of_ne hji] at hj ⊢
        exact h.notLocal j hj
  · exact h

theorem Counted.expireStale {t : PeerTable} (h : t.Counted) (ticks : UInt64) :
    (t.expireStale ticks).Counted := by
  unfold PeerTable.expireStale
  generalize List.finRange maxNodes = l
  induction l generalizing t with
  | nil => exact h
  | cons i l ih => exact ih (h.expireEntry ticks i)

/-! ## Expiry -/

/-- A turn of the loop only ever clears `active`, and only of a stale entry. -/
theorem expireEntry_peers (t : PeerTable) (ticks : UInt64) (i j : Fin maxNodes) :
    (t.expireEntry ticks i).peers j = t.peers j ∨
      Stale (t.peers j) ticks ∧
        (t.expireEntry ticks i).peers j = { t.peers j with active := false } := by
  unfold expireEntry
  split
  · rename_i hstale
    rcases eq_or_ne j i with rfl | hji
    · exact .inr ⟨hstale.2, Function.update_self _ _ _⟩
    · exact .inl (Function.update_of_ne hji _ _)
  · exact .inl rfl

/-- The pass only ever clears `active`, and only of a stale entry. -/
theorem expireStale_peers (t : PeerTable) (ticks : UInt64) (j : Fin maxNodes) :
    (t.expireStale ticks).peers j = t.peers j ∨
      Stale (t.peers j) ticks ∧
        (t.expireStale ticks).peers j = { t.peers j with active := false } := by
  unfold expireStale
  generalize List.finRange maxNodes = l
  induction l generalizing t with
  | nil => exact .inl rfl
  | cons i l ih =>
    rw [List.foldl_cons]
    rcases expireEntry_peers t ticks i j with hsame | ⟨hstale, hclear⟩
    · have hrest := ih (t.expireEntry ticks i)
      rwa [hsame] at hrest
    · -- A cleared entry stays as it is.
      refine .inr ⟨hstale, ?_⟩
      rcases ih (t.expireEntry ticks i) with hrest | ⟨-, hrest⟩
      all_goals rw [hrest, hclear]

/-! ## Enumeration -/

/-- The loop of `get_peer` counts the active entries it passes. -/
theorem getPeerFrom_eq (t : PeerTable) {idx : UInt32} (l : List (Fin maxNodes)) {count : UInt32}
    (hle : count.toNat ≤ idx.toNat) (hlt : count.toNat + l.length < 2 ^ 32) :
    getPeerFrom t idx l count =
      ((l.filter fun i => (t.peers i).active)[idx.toNat - count.toNat]?).map t.peers := by
  induction l generalizing count with
  | nil => rfl
  | cons i l ih =>
    rw [List.length_cons] at hlt
    unfold getPeerFrom
    cases hactive : (t.peers i).active with
    | false =>
      rw [if_neg Bool.false_ne_true, List.filter_cons_of_neg (by simp [hactive])]
      exact ih hle (by omega)
    | true =>
      rw [if_pos rfl, List.filter_cons, if_pos hactive]
      split
      · rename_i heq
        rw [heq, Nat.sub_self]
        rfl
      · rename_i hne
        have hne : count.toNat ≠ idx.toNat := fun heq => hne (UInt32.toNat_inj.mp heq)
        have hnext : (count + 1).toNat = count.toNat + 1 := by
          rw [UInt32.toNat_add]
          exact Nat.mod_eq_of_lt (by change _ + 1 < 2 ^ 32; omega)
        rw [ih (by omega) (by omega), hnext,
          show idx.toNat - count.toNat = idx.toNat - (count.toNat + 1) + 1 by omega]
        rfl

/-- The active entries, in table order. -/
def activeSlots (t : PeerTable) : List (Fin maxNodes) :=
  (List.finRange maxNodes).filter fun i => (t.peers i).active

theorem mem_activeSlots {t : PeerTable} {i : Fin maxNodes} :
    i ∈ t.activeSlots ↔ (t.peers i).active = true := by
  simp [activeSlots]

theorem getPeer_eq (t : PeerTable) (idx : UInt32) :
    t.getPeer idx = (t.activeSlots[idx.toNat]?).map t.peers := by
  unfold getPeer activeSlots
  rw [getPeerFrom_eq t (List.finRange maxNodes) (Nat.zero_le _) (by decide)]
  rfl

theorem Counted.length_activeSlots {t : PeerTable} (h : t.Counted) :
    t.activeSlots.length = t.peerCount.toNat := by
  rw [h.count, Slots.count_eq_length]
  rfl

theorem Counted.getPeer_isSome {t : PeerTable} (h : t.Counted) (idx : UInt32) :
    (t.getPeer idx).isSome = true ↔ idx < t.getPeerCount := by
  rw [getPeer_eq, Option.isSome_map, isSome_getElem?, h.length_activeSlots, UInt32.lt_iff_toNat_lt]
  rfl

/-- Each active peer has one index. -/
theorem Counted.existsUnique_getPeer {t : PeerTable} (h : t.Counted) {i : Fin maxNodes}
    (hi : (t.peers i).active = true) : ∃! idx, t.getPeer idx = some (t.peers i) := by
  obtain ⟨k, hk, hget⟩ := List.mem_iff_getElem.mp (mem_activeSlots.mpr hi)
  have hlen : t.activeSlots.length ≤ 8 := h.length_activeSlots ▸ h.le
  have hval : (UInt32.ofNat k).toNat = k :=
    UInt32.toNat_ofNat_of_lt' (by change k < 2 ^ 32; omega)
  refine ⟨UInt32.ofNat k, ?_, fun idx hidx => ?_⟩
  · change t.getPeer (UInt32.ofNat k) = _
    rw [getPeer_eq, hval, List.getElem?_eq_getElem hk, hget]
    rfl
  · replace hidx : t.getPeer idx = some (t.peers i) := hidx
    rw [getPeer_eq] at hidx
    obtain ⟨j, hj, hpeer⟩ := Option.map_eq_some_iff.mp hidx
    obtain ⟨hlt, hj⟩ := List.getElem?_eq_some_iff.mp hj
    -- Distinct addresses make the slot that was found the slot `i`.
    have hji : j = i := h.distinct j i
      (mem_activeSlots.mp (hj ▸ List.getElem_mem hlt)) hi (by rw [hpeer])
    have hnodup : t.activeSlots.Nodup := (List.nodup_finRange maxNodes).filter _
    have hidx : idx.toNat = k := (hnodup.getElem_inj_iff).mp (by rw [hj, hget, hji])
    exact UInt32.toNat_inj.mp (hidx.trans hval.symm)

theorem getPeer_active {t : PeerTable} {idx : UInt32} {n : Node} (h : t.getPeer idx = some n) :
    n.active = true := by
  rw [getPeer_eq] at h
  obtain ⟨i, hi, rfl⟩ := Option.map_eq_some_iff.mp h
  exact mem_activeSlots.mp (List.mem_of_getElem? hi)

/-! ## A message -/

/-- Where keys are distinct, the entry of the sender is the only one that changes. -/
theorem Counted.active_addOrUpdatePeer {t : PeerTable} (h : t.Counted) {ip : Ip} {name : NameBuf}
    {ticks : UInt64} {j : Fin maxNodes}
    (hj : ((t.addOrUpdatePeer ip name ticks).peers j).active = true) :
    ((t.addOrUpdatePeer ip name ticks).peers j).ip = ip ∧
        ((t.addOrUpdatePeer ip name ticks).peers j).lastSeen = ticks ∨
      (t.peers j).ip ≠ ip ∧ (t.addOrUpdatePeer ip name ticks).peers j = t.peers j := by
  rcases addOrUpdatePeer_cases t ip name ticks with
    ⟨i, hactive, hip, -, heq⟩ | ⟨i, -, hno, -, heq⟩ | ⟨hno, heq⟩
  all_goals rw [heq] at hj ⊢
  · rcases eq_or_ne j i with rfl | hji
    · simp only [Function.update_self]
      exact .inl ⟨hip, trivial⟩
    · simp only [Function.update_of_ne hji] at hj ⊢
      exact .inr ⟨fun hkey => hji (h.distinct j i hj hactive (hkey.trans hip.symm)), trivial⟩
  · rcases eq_or_ne j i with rfl | hji
    · simp only [Function.update_self]
      exact .inl ⟨trivial, trivial⟩
    · simp only [Function.update_of_ne hji] at hj ⊢
      exact .inr ⟨fun hkey => hno ⟨j, hj, hkey⟩, trivial⟩
  · refine .inr ⟨fun hkey => ?_, rfl⟩
    rcases hno with rfl | hno
    · exact h.notLocal j hj hkey
    · exact hno (.inl ⟨j, hj, hkey⟩)

/-- A message from an active address writes its tick count and nothing else. -/
theorem Counted.addOrUpdatePeer_of_active {t : PeerTable} (h : t.Counted) {i : Fin maxNodes}
    (hi : (t.peers i).active = true) (name : NameBuf) (ticks : UInt64) :
    t.addOrUpdatePeer (t.peers i).ip name ticks =
      { t with peers := Function.update t.peers i { t.peers i with lastSeen := ticks } } := by
  rcases addOrUpdatePeer_cases t (t.peers i).ip name ticks with
    ⟨j, hactive, hip, -, heq⟩ | ⟨-, -, hno, -⟩ | ⟨hno, -⟩
  · obtain rfl : j = i := h.distinct j i hactive hi hip
    exact heq
  · exact absurd ⟨i, hi, rfl⟩ hno
  · rcases hno with hlocal | hno
    · exact absurd hlocal (h.notLocal i hi)
    · exact absurd (.inl ⟨i, hi, rfl⟩) hno

end PeerTable

/-! ## Runs -/

/-- DISCOVER and DISCOVER_ACK. -/
def Received.isDiscovery : Received → Bool
  | .discover _ | .discoverAck _ => true
  | _ => false

/-- Discovery messages are the ones that reach the peer table. -/
theorem ClusterNode.handle_peers_cases {s s' : ClusterNode} {srcIp : Ip} {ticks : UInt64}
    {m : Received} {reply : Option Bytes} (h : s.handle srcIp ticks m = some (s', reply)) :
    (m.isDiscovery = true ∧ ∃ name, s'.peers = s.peers.addOrUpdatePeer srcIp name ticks) ∨
      (m.isDiscovery = false ∧ s'.peers = s.peers) := by
  unfold handle at h
  split at h
  · obtain ⟨rfl, -⟩ := Prod.mk.inj (Option.some.inj h)
    exact .inl ⟨rfl, _, rfl⟩
  · obtain ⟨rfl, -⟩ := Prod.mk.inj (Option.some.inj h)
    exact .inl ⟨rfl, _, rfl⟩
  · rename_i hno hnoAck
    obtain ⟨⟨jobs, _⟩, -, h⟩ := Option.bind_eq_some_iff.mp h
    obtain ⟨⟨procs, _⟩, -, h⟩ := Option.bind_eq_some_iff.mp h
    obtain ⟨rfl, -⟩ := Prod.mk.inj (Option.some.inj h)
    refine .inr ⟨?_, rfl⟩
    cases m with
    | discover name => exact absurd rfl (hno name)
    | discoverAck name => exact absurd rfl (hnoAck name)
    | _ => rfl

/-- A node and the ticks since the machine started, of which the kernel's counter holds the low 64
bits. The times at which discovery messages were last handled are for the statements only. -/
structure NodeRun where
  node : ClusterNode
  now : ℕ
  heard : Ip → Option ℕ

inductive NodeEvent
  /-- A datagram is handled. -/
  | datagram (src : Ip) (data : Bytes)
  /-- The expiry pass of the heartbeat task. -/
  | expire
  | pass (d : ℕ)

namespace NodeRun

def ticks (s : NodeRun) : UInt64 := UInt64.ofNat s.now

/-- After `Cluster::init` and `DJob::init`. -/
def boot (node : ClusterNode) (localIp : Ip) (now : ℕ) : NodeRun where
  node := { node with peers := node.peers.init localIp, jobs := JobNode.init true }
  now := now
  heard _ := none

def step (s : NodeRun) : NodeEvent → Option NodeRun
  | .datagram src data =>
    (s.node.handle src s.ticks (receive data)).map fun (node, _) =>
      { s with
        node := node
        heard := if (receive data).isDiscovery then Function.update s.heard src (some s.now)
          else s.heard }
  | .expire =>
    some { s with node := { s.node with peers := s.node.peers.expireStale s.ticks } }
  | .pass d => some { s with now := s.now + d }

def Step (s : NodeRun) (e : NodeEvent) (t : NodeRun) : Prop := s.step e = some t

abbrev peer (s : NodeRun) (i : Fin maxNodes) : Node := s.node.peers.peers i

/-- The table counts, and each active entry says when its peer was last heard from. -/
structure PeersInv (s : NodeRun) : Prop where
  counted : s.node.peers.Counted
  heard : ∀ i, (s.peer i).active = true →
    ∃ T, s.heard (s.peer i).ip = some T ∧ T ≤ s.now ∧ (s.peer i).lastSeen = UInt64.ofNat T

theorem peersInv_boot (node : ClusterNode) (localIp : Ip) (now : ℕ) :
    (boot node localIp now).PeersInv where
  counted := PeerTable.Counted.init node.peers localIp
  heard _ hi := absurd hi Bool.false_ne_true

theorem peersInv_step {s t : NodeRun} {e : NodeEvent} (h : s.PeersInv) (hstep : s.Step e t) :
    t.PeersInv := by
  cases e with
  | datagram src data =>
    obtain ⟨⟨node, reply⟩, hhandle, rfl⟩ := Option.map_eq_some_iff.mp hstep
    rcases ClusterNode.handle_peers_cases hhandle with ⟨hdisc, name, hpeers⟩ | ⟨hdisc, hpeers⟩
    · refine ⟨?_, fun i hi => ?_⟩
      · simp only [hpeers]
        exact h.counted.addOrUpdatePeer src name s.ticks
      · simp only [peer, hpeers, hdisc, if_true] at hi ⊢
        rcases h.counted.active_addOrUpdatePeer hi with ⟨hip, hseen⟩ | ⟨hne, hsame⟩
        · rw [hip, hseen, Function.update_self]
          exact ⟨s.now, rfl, le_rfl, rfl⟩
        · rw [hsame] at hi ⊢
          rw [Function.update_of_ne hne]
          exact h.heard i hi
    · refine ⟨?_, fun i hi => ?_⟩
      · simpa only [hpeers] using h.counted
      · simp only [peer, hpeers, hdisc, Bool.false_eq_true, if_false] at hi ⊢
        exact h.heard i hi
  | expire =>
    obtain rfl := Option.some.inj hstep
    refine ⟨h.counted.expireStale s.ticks, fun i hi => ?_⟩
    rcases s.node.peers.expireStale_peers s.ticks i with hsame | ⟨-, hclear⟩
    · simp only [peer, hsame] at hi ⊢
      exact h.heard i hi
    · simp only [peer, hclear] at hi
      exact absurd hi Bool.false_ne_true
  | pass d =>
    obtain rfl := Option.some.inj hstep
    refine ⟨h.counted, fun i hi => ?_⟩
    obtain ⟨T, hT, hle, hseen⟩ := h.heard i hi
    exact ⟨T, hT, Nat.le_add_right_of_le hle, hseen⟩

theorem peersInv_of_run {node : ClusterNode} {localIp : Ip} {now : ℕ} {events : List NodeEvent}
    {s : NodeRun} (hrun : Run Step (boot node localIp now) events s) : s.PeersInv :=
  hrun.invariant PeersInv (peersInv_boot node localIp now) fun _ _ _ => peersInv_step

/-- A peer that was heard from in the last 10000 ticks is not stale. -/
theorem PeersInv.not_stale {s : NodeRun} (h : s.PeersInv) {i : Fin maxNodes} {T : ℕ}
    (hi : (s.peer i).active = true) (hT : s.heard (s.peer i).ip = some T)
    (hrecent : s.now ≤ T + 10000) : ¬PeerTable.Stale (s.peer i) s.ticks := by
  obtain ⟨T', hT', hle, hseen⟩ := h.heard i hi
  obtain rfl : T = T' := Option.some.inj (hT.symm.trans hT')
  -- The difference of the counters is the time that went by, even if they wrapped.
  have hdiff : s.ticks - (s.peer i).lastSeen = UInt64.ofNat (s.now - T) := by
    rw [hseen, UInt64.ofNat_sub hle]
    rfl
  have hval : (UInt64.ofNat (s.now - T)).toNat = s.now - T :=
    UInt64.toNat_ofNat_of_lt' (by change s.now - T < 2 ^ 64; omega)
  unfold PeerTable.Stale
  rw [hdiff, gt_iff_lt, UInt64.lt_iff_toNat_lt, hval]
  change ¬10000 < s.now - T
  omega

end NodeRun

/-- The counter is the number of active entries, which are distinct hosts and not this one, and
`get_peer` enumerates them. -/
structure PeerTable.Consistent (t : PeerTable) : Prop where
  count : t.getPeerCount.toNat = (Finset.univ.filter fun i => (t.peers i).active = true).card
  distinct : ∀ i j, (t.peers i).active = true → (t.peers j).active = true →
    (t.peers i).ip = (t.peers j).ip → i = j
  notLocal : ∀ i, (t.peers i).active = true → (t.peers i).ip ≠ t.localIp
  getPeer_isSome : ∀ idx, (t.getPeer idx).isSome = true ↔ idx < t.getPeerCount
  getPeer_active : ∀ idx n, t.getPeer idx = some n → n.active = true
  getPeer_once : ∀ i, (t.peers i).active = true → ∃! idx, t.getPeer idx = some (t.peers i)

theorem PeerTable.Counted.consistent {t : PeerTable} (h : t.Counted) : t.Consistent where
  count := h.count
  distinct := h.distinct
  notLocal := h.notLocal
  getPeer_isSome := h.getPeer_isSome
  getPeer_active _ _ := getPeer_active
  getPeer_once _ := h.existsUnique_getPeer

/-- In every state of a run the table is consistent; every active peer was heard from, and an expiry
pass leaves it as it is if that was in the last 10000 ticks; and a discovery message from an active
address writes the tick count of its entry and nothing else of the table. -/
theorem peer_table_consistent (node : ClusterNode) (localIp : Ip) (now : ℕ)
    (events : List NodeEvent) (s : NodeRun)
    (hrun : Run NodeRun.Step (NodeRun.boot node localIp now) events s) :
    s.node.peers.Consistent ∧
      (∀ i, (s.peer i).active = true → ∃ T, s.heard (s.peer i).ip = some T ∧
        (s.now ≤ T + 10000 → (s.node.peers.expireStale s.ticks).peers i = s.peer i)) ∧
      ∀ i data t, (s.peer i).active = true → (receive data).isDiscovery = true →
        s.Step (.datagram (s.peer i).ip data) t →
        t.node.peers =
          { s.node.peers with
            peers := Function.update s.node.peers.peers i { s.peer i with lastSeen := s.ticks } } := by
  have h := NodeRun.peersInv_of_run hrun
  refine ⟨h.counted.consistent, fun i hi => ?_, fun i data t hi hdisc hstep => ?_⟩
  · obtain ⟨T, hT, -, -⟩ := h.heard i hi
    refine ⟨T, hT, fun hrecent => ?_⟩
    rcases s.node.peers.expireStale_peers s.ticks i with hsame | ⟨hstale, -⟩
    · exact hsame
    · exact absurd hstale (h.not_stale hi hT hrecent)
  · obtain ⟨⟨n, reply⟩, hhandle, rfl⟩ := Option.map_eq_some_iff.mp hstep
    rcases ClusterNode.handle_peers_cases hhandle with ⟨-, name, hpeers⟩ | ⟨hno, -⟩
    · exact hpeers.trans (h.counted.addOrUpdatePeer_of_active hi name s.ticks)
    · rw [hdisc] at hno
      cases hno

/-- The node 10.0.0.1 with empty tables. -/
def freshNode : ClusterNode where
  peers :=
    { peers := fun _ => { ip := 0, name := nameBuf [], lastSeen := 0, active := false }
      peerCount := 0
      localIp := 0 }
  localName := { bytes := [110, 111, 100, 101, 49], length_le := by decide, no_nul := by decide }
  jobs := JobNode.init true
  procs := ProcNode.init (ProcSystem.sampleImage 1)

/-- Two nodes are discovered, one of them twice, and an expiry pass follows. -/
def discoveries : List NodeEvent :=
  [.datagram 2 (discoverMessage [98]), .pass 6000, .datagram 3 (discoverAckMessage [99]),
    .pass 6000, .datagram 2 (discoverMessage [98]), .expire]

theorem peer_table_consistent_discoveries :
    ∃ s, Run NodeRun.Step (NodeRun.boot freshNode 1 0) discoveries s ∧ s.node.peers.Consistent := by
  have hok : (exec NodeRun.step (NodeRun.boot freshNode 1 0) discoveries).isSome = true := by
    decide +kernel
  have hrun : Run NodeRun.Step (NodeRun.boot freshNode 1 0) discoveries _ := run_get hok
  exact ⟨_, hrun, (peer_table_consistent freshNode 1 0 discoveries _ hrun).1⟩

end QuillOS.Cluster
