import QuillOS.Network.Lan

/-!
# Datagrams on a network

What the handlers of a node are called with, from the address of another node, is what that node
has sent, in the order it was sent in; some of it may be missing.
-/

namespace QuillOS.Network

open Lib Lib.Traced

namespace Lan

variable {ι : Type*} [DecidableEq ι] {mac : ι → Mac} {s t : Lan ι}

/-- The call a node makes for a datagram that is addressed to it. -/
def Carries (n : State) (c : Call) (d : Datagram) : Prop :=
  c.srcPort = d.srcPort ∧ c.payload = d.data ∧ n.handlerOf d.dstPort = some c.handler ∧
    Accepts n d.dstIp

/-- The calls of node `j` for an address, and the datagrams handled from the node that has it. -/
def callsFrom (mac : ι → Mac) (s : Lan ι) (i j : ι) : List Call :=
  (s.calls j).filter fun c => c.srcIp = ipOf (mac i)

def handledFrom (s : Lan ι) (i j : ι) : List Datagram :=
  (Medium.sentBy i (s.net.taken j)).filterMap datagramOf

/-- Every call is for a datagram that was handled. -/
structure CallsInv (mac : ι → Mac) (s : Lan ι) : Prop where
  carried : ∀ i j, ∃ ds, ds.Sublist (s.handledFrom i j) ∧
    List.Forall₂ (Carries (s.node j).toState) (s.callsFrom mac i j) ds
  source : ∀ j, ∀ c ∈ s.calls j, ∃ i, c.srcIp = ipOf (mac i)

/-- A node that goes on with its address and its handlers. -/
def Continues (a b : State) : Prop :=
  b.ourIp = a.ourIp ∧ ∀ port handler, a.handlerOf port = some handler → b.handlerOf port = some handler

omit [DecidableEq ι] in
theorem Carries.continues {a b : State} {c : Call} {d : Datagram} (h : Carries a c d)
    (hab : Continues a b) : Carries b c d := by
  obtain ⟨hport, hpay, hhandler, hacc⟩ := h
  refine ⟨hport, hpay, hab.2 _ _ hhandler, ?_⟩
  unfold Accepts at hacc ⊢
  rwa [hab.1]

theorem CallsInv.of_same (h : s.CallsInv mac)
    (hnode : ∀ k, Continues (s.node k).toState (t.node k).toState)
    (htaken : t.net.taken = s.net.taken) (hcalls : t.calls = s.calls) : t.CallsInv mac where
  carried i j := by
    obtain ⟨ds, hsub, hall⟩ := h.carried i j
    refine ⟨ds, ?_, ?_⟩
    · unfold handledFrom at hsub ⊢
      rwa [htaken]
    · unfold callsFrom at hall ⊢
      rw [hcalls]
      exact hall.imp fun c d hc => hc.continues (hnode j)
  source := by
    rw [hcalls]
    exact h.source

omit [DecidableEq ι] in
theorem Continues.refl (a : State) : Continues a a := ⟨rfl, fun _ _ h => h⟩

omit [DecidableEq ι] in
theorem handlerOf_registered {a : State} {bs : List UdpBinding}
    (hbound : a.udpHandlers = registerAll bs) (port : UInt16) :
    a.handlerOf port = ((accepted bs).find? fun c => c.port == port).map UdpBinding.handler := by
  unfold State.handlerOf
  rw [hbound, ← find_registered, Option.map_map]
  rfl

omit [DecidableEq ι] in
/-- A later binding does not take a port over. -/
theorem continues_register {a : State} (b : UdpBinding)
    (hbound : ∃ bs, a.udpHandlers = registerAll bs) :
    Continues a { a with udpHandlers := registerUdpHandler a.udpHandlers b } := by
  obtain ⟨bs, hbs⟩ := hbound
  have hnext : registerUdpHandler a.udpHandlers b = registerAll (bs ++ [b]) := by
    simp [hbs, registerAll]
  refine ⟨rfl, fun port handler hfound => ?_⟩
  rw [handlerOf_registered hbs] at hfound
  rw [handlerOf_registered hnext]
  unfold accepted at hfound ⊢
  rw [List.filter_append, List.take_append, List.find?_append, Option.map_or, hfound]
  rfl

omit [DecidableEq ι] in
theorem continues_process (n : Node) (buf : ℕ → UInt8) (len : UInt16) :
    Continues n.toState (n.process buf len).toState := by
  obtain ⟨-, hip, hhandlers⟩ := processPacket_keeps n.toState buf len
  refine ⟨hip, fun port handler hfound => ?_⟩
  unfold State.handlerOf at hfound ⊢
  rw [← hfound]
  change (Fin.find? fun i => ((processPacket n.toState buf len).val.state.udpHandlers i).handler != 0 &&
    ((processPacket n.toState buf len).val.state.udpHandlers i).port == port).map
      (fun i => ((processPacket n.toState buf len).val.state.udpHandlers i).handler) = _
  rw [hhandlers]

theorem continues_update {n : Node} {k : ι} (h : Continues (s.node k).toState n.toState) (i : ι) :
    Continues (s.node i).toState (Function.update s.node k n i).toState := by
  by_cases hi : i = k
  · subst hi
    rwa [Function.update_self]
  · rw [Function.update_of_ne hi]
    exact Continues.refl _

theorem handledFrom_handle {j : ι} {p : ι × List UInt8} {net : Medium ι (List UInt8)}
    (hstep : s.net.take j = some (p, net)) (stale : ℕ → UInt8) (i k : ι) :
    (s.handle j p.2 stale net).handledFrom i k =
      s.handledFrom i k ++ if k = j ∧ i = p.1 then (datagramOf p.2).toList else [] := by
  have htaken : (s.handle j p.2 stale net).net.taken = net.taken := rfl
  unfold handledFrom
  rw [htaken, (Medium.take_eq hstep).2.2]
  by_cases hk : k = j
  · subst hk
    rw [Function.update_self, Medium.sentBy_append, List.filterMap_append]
    congr 1
    by_cases hi : i = p.1
    · subst hi
      rw [if_pos ⟨rfl, rfl⟩, Medium.sentBy_self]
      cases h : datagramOf p.2 <;> simp [h]
    · rw [if_neg fun hand => hi hand.2, Medium.sentBy_of_ne (Ne.symm hi)]
      rfl
  · rw [Function.update_of_ne hk, if_neg fun hand => hk hand.1, List.append_nil]

omit [DecidableEq ι] in
theorem map_range_stored {buf : ℕ → UInt8} {off : ℕ} {bs : List UInt8} (h : Stored buf off bs) :
    (List.range bs.length).map (fun k => buf (off + k)) = bs :=
  readBytes_of_stored h rfl

/-- A frame leads to no call, or to one for the datagram in it. -/
theorem handle_calls {j : ι} {p : ι × List UInt8} {net : Medium ι (List UInt8)} (h : Inv mac s)
    (hstep : s.net.take j = some (p, net)) (stale : ℕ → UInt8) :
    ∃ new, (s.handle j p.2 stale net).calls = Function.update s.calls j (s.calls j ++ new) ∧
      (new = [] ∨ ∃ c d, new = [c] ∧ datagramOf p.2 = some d ∧ c.srcIp = ipOf (mac p.1) ∧
        Carries (s.node j).toState c d) := by
  refine ⟨_, rfl, ?_⟩
  rcases (h.take hstep).2.1.processed (h.length p.1) (s.node j).toState stale with
    ⟨-, -, oper, targetIp, hval⟩ | ⟨d, -, hd, hval, hlen, hdata⟩
  · rw [hval]
    exact .inl rfl
  · rw [hval]
    by_cases hacc : Accepts (s.node j).toState d.dstIp
    · rw [if_pos hacc]
      cases hhandler : (s.node j).toState.handlerOf d.dstPort with
      | none => exact .inl rfl
      | some handler =>
        refine .inr ⟨_, d, rfl, hd, rfl, rfl, ?_, hhandler, hacc⟩
        have hnat : (UInt16.ofNat d.data.length).toNat = d.data.length := by
          rw [UInt16.toNat_ofNat', Nat.mod_eq_of_lt hlen]
        dsimp only [Delivery.call]
        rw [hnat]
        exact map_range_stored hdata
    · rw [if_neg hacc]
      exact .inl rfl

theorem CallsInv.handle {j : ι} {p : ι × List UInt8} {net : Medium ι (List UInt8)}
    (hc : s.CallsInv mac) (h : Inv mac s) (hip : Function.Injective fun i => ipOf (mac i))
    (hstep : s.net.take j = some (p, net)) (stale : ℕ → UInt8) :
    (s.handle j p.2 stale net).CallsInv mac := by
  obtain ⟨new, hcalls, hnew⟩ := handle_calls h hstep stale
  have hnode : ∀ k, Continues (s.node k).toState ((s.handle j p.2 stale net).node k).toState :=
    continues_update (continues_process (s.node j) _ _)
  refine ⟨fun i k => ?_, fun k c hmem => ?_⟩
  · obtain ⟨ds, hsub, hall⟩ := hc.carried i k
    replace hall := hall.imp fun c d hcd => hcd.continues (hnode k)
    rw [handledFrom_handle hstep]
    by_cases hand : k = j ∧ i = p.1
    · obtain ⟨rfl, rfl⟩ := hand
      rw [if_pos ⟨rfl, rfl⟩]
      have hfrom : (s.handle k p.2 stale net).callsFrom mac p.1 k =
          s.callsFrom mac p.1 k ++ new.filter fun c => c.srcIp = ipOf (mac p.1) := by
        unfold callsFrom
        rw [hcalls, Function.update_self, List.filter_append]
      rw [hfrom]
      rcases hnew with rfl | ⟨c, d, rfl, hd, hsrc, hcd⟩
      · refine ⟨ds, hsub.trans (List.sublist_append_left _ _), ?_⟩
        rw [List.filter_nil, List.append_nil]
        exact hall
      · refine ⟨ds ++ [d], ?_, ?_⟩
        · rw [hd]
          exact hsub.append_right [d]
        · rw [List.filter_singleton]
          simp only [hsrc, decide_true]
          exact List.rel_append hall (.cons (hcd.continues (hnode k)) .nil)
    · rw [if_neg hand, List.append_nil]
      refine ⟨ds, hsub, ?_⟩
      -- The call, if any, is another node's or from another address.
      have hfrom : (s.handle j p.2 stale net).callsFrom mac i k = s.callsFrom mac i k := by
        unfold callsFrom
        rw [hcalls]
        by_cases hk : k = j
        · subst hk
          rw [Function.update_self, List.filter_append]
          rcases hnew with rfl | ⟨c, d, rfl, -, hsrc, -⟩
          · rw [List.filter_nil, List.append_nil]
          · have hne : c.srcIp ≠ ipOf (mac i) := by
              rw [hsrc]
              exact hip.ne fun heq => hand ⟨rfl, heq.symm⟩
            simp [hne]
        · rw [Function.update_of_ne hk]
      rw [hfrom]
      exact hall
  · rw [hcalls] at hmem
    by_cases hk : k = j
    · subst hk
      rw [Function.update_self] at hmem
      rcases List.mem_append.mp hmem with hold | hlast
      · exact hc.source k c hold
      · rcases hnew with rfl | ⟨c', d, rfl, -, hsrc, -⟩
        · cases hlast
        · rw [List.mem_singleton.mp hlast]
          exact ⟨p.1, hsrc⟩
    · rw [Function.update_of_ne hk] at hmem
      exact hc.source k c hmem

theorem CallsInv.step {e : LanEvent ι} (hc : s.CallsInv mac) (h : Inv mac s)
    (hip : Function.Injective fun i => ipOf (mac i)) (hstep : s.step e = some t) :
    t.CallsInv mac := by
  cases e with
  | send i d =>
    obtain ⟨r, hr, rfl⟩ := Option.map_eq_some_iff.mp hstep
    have hsame : r.state.toState = (s.node i).toState := by
      rcases Node.send_cases hr with ⟨hs, -⟩ | ⟨hs, -⟩ | ⟨_, _, _, _, hs, -⟩ <;> rw [hs]
    refine hc.of_same (continues_update ?_) rfl rfl
    rw [hsame]
    exact Continues.refl _
  | register i b =>
    obtain rfl := Option.some.inj hstep
    exact hc.of_same (continues_update (continues_register b (h.bound i))) rfl rfl
  | handle j stale =>
    obtain ⟨⟨p, net⟩, hp, rfl⟩ := Option.map_eq_some_iff.mp hstep
    exact hc.handle h hip hp stale
  | move e =>
    obtain ⟨net, hnet, rfl⟩ := Option.map_eq_some_iff.mp hstep
    exact hc.of_same (fun _ => Continues.refl _) (Medium.move_given hnet).2 rfl

theorem callsInv_start (hmac : ∀ i, (mac i).length = 6) : (start mac hmac).CallsInv mac where
  carried _ _ := ⟨[], List.Sublist.slnil, .nil⟩
  source _ _ h := by cases h

theorem carried_of_run {hmac : ∀ i, (mac i).length = 6}
    (hip : Function.Injective fun i => ipOf (mac i)) {es : List (LanEvent ι)}
    (hrun : Run (fun s e t => s.step e = some t) (start mac hmac) es s) :
    (∀ j, ∀ c ∈ s.calls j, ∃ i, c.srcIp = ipOf (mac i)) ∧
    ∀ i j, ∃ ds, ds.Sublist (s.sent i) ∧
      List.Forall₂ (Carries (s.node j).toState) (s.callsFrom mac i j) ds := by
  have hboth : Inv mac s ∧ s.CallsInv mac :=
    hrun.invariant (fun s => Inv mac s ∧ s.CallsInv mac) ⟨inv_start hmac, callsInv_start hmac⟩
      fun a e b h hstep => ⟨h.1.step hstep, h.2.step h.1 hip hstep⟩
  obtain ⟨h, hc⟩ := hboth
  refine ⟨hc.source, fun i j => ?_⟩
  obtain ⟨ds, hsub, hall⟩ := hc.carried i j
  refine ⟨ds, hsub.trans ?_, hall⟩
  rw [h.sent]
  exact (h.ordered.taken i j).filterMap datagramOf

/-- Whatever the network loses or delays: the handlers of a node are only called for datagrams of
other nodes, and the calls for one node's address are for datagrams it sent here or to all, each
with the bytes, the port and the handler of its datagram, none of them twice and in the order they
were sent in. -/
theorem datagrams_in_order (mac : ι → Mac) (hmac : ∀ i, (mac i).length = 6)
    (hip : Function.Injective fun i => ipOf (mac i)) (es : List (LanEvent ι)) (s : Lan ι)
    (hrun : Run (fun s e t => s.step e = some t) (start mac hmac) es s) (j : ι) :
    (∀ c ∈ s.calls j, ∃ i, c.srcIp = ipOf (mac i)) ∧
    ∀ i, ∃ ds, ds.Sublist (s.sent i) ∧
      List.Forall₂ (Carries (s.node j).toState) ((s.calls j).filter fun c => c.srcIp = ipOf (mac i))
        ds := by
  obtain ⟨hsource, hcarried⟩ := carried_of_run hip hrun
  exact ⟨hsource j, fun i => hcarried i j⟩

end Lan

/-- The second node asks for the hardware address of the first one; after the reply its datagram
arrives. -/
theorem datagrams_in_order_second :
    (secondSends.calls false = [⟨64, Lan.ipOf (twoMacs true), 9001, [1, 2, 3]⟩]) ∧
      ∀ i, ∃ ds, ds.Sublist (secondSends.sent i) ∧
        List.Forall₂ (Lan.Carries (secondSends.node false).toState)
          ((secondSends.calls false).filter fun c => c.srcIp = Lan.ipOf (twoMacs i)) ds :=
  ⟨by decide +kernel,
    (Lan.datagrams_in_order twoMacs twoMacs_length (by decide +kernel) secondEvents secondSends
      (run_get _) false).2⟩

end QuillOS.Network
