import QuillOS.Lib.Run
import QuillOS.Lib.Slots
import QuillOS.Network.Send

/-!
# The ARP cache

`handle_arp` learns the sender of every packet. The cache is a partial map from addresses to
hardware addresses; the sender of a packet is in it afterwards unless all sixteen entries belong to
other hosts.
-/

namespace QuillOS.Network

open Lib Lib.Traced

/-! ## The cache as a table of slots -/

/-- The address is in the cache, or an entry is free. -/
abbrev State.HasRoom (s : State) (ip : UInt32) : Prop :=
  Slots.HasRoom ArpEntry.valid ArpEntry.ip s.arpTable ip

/-- No address occupies two valid entries. -/
abbrev State.Distinct (s : State) : Prop := Slots.Distinct ArpEntry.valid ArpEntry.ip s.arpTable

theorem keeps_arp (ip : UInt32) (mac : Mac) :
    Slots.Keeps ArpEntry.valid ArpEntry.ip (fun e => { e with mac := mac })
      (fun _ => { ip := ip, mac := mac, valid := true }) ip where
  refresh_used _ := rfl
  refresh_key _ := rfl
  fill_used _ := rfl
  fill_key _ := rfl

/-- `arp_store` is the general operation on a table of slots. -/
theorem arpStore_table (s : State) (ip : UInt32) (mac : Mac) :
    (arpStore s ip mac).arpTable =
      Slots.store ArpEntry.valid ArpEntry.ip (fun e => { e with mac := mac })
        (fun _ => { ip := ip, mac := mac, valid := true }) s.arpTable ip := by
  unfold arpStore Slots.store Slots.find Slots.findFree
  cases Fin.find? fun i => (s.arpTable i).valid && (s.arpTable i).ip == ip with
  | some i => rfl
  | none => cases Fin.find? fun i => !(s.arpTable i).valid <;> rfl

theorem arpLookup_eq (s : State) (ip : UInt32) :
    arpLookup s ip =
      (Slots.get ArpEntry.valid ArpEntry.ip s.arpTable ip).map ArpEntry.mac := by
  unfold arpLookup Slots.get Slots.find
  rw [Option.map_map]
  rfl

theorem arpStore_distinct {s : State} (h : s.Distinct) (ip : UInt32) (mac : Mac) :
    (arpStore s ip mac).Distinct := by
  unfold State.Distinct
  rw [arpStore_table]
  exact h.store (keeps_arp ip mac)

/-- The sender that was stored is found, exactly when there was room for it. -/
theorem arpLookup_arpStore_self {s : State} (h : s.Distinct) (ip : UInt32) (mac : Mac) :
    arpLookup (arpStore s ip mac) ip = some mac ↔ s.HasRoom ip := by
  rw [arpLookup_eq, arpStore_table]
  constructor
  · intro hfound
    by_contra hno
    rw [Slots.get_store_of_not_hasRoom hno] at hfound
    cases hfound
  · intro hroom
    obtain ⟨i, heq | heq⟩ := h.get_store_self (keeps_arp ip mac) hroom
    all_goals rw [heq]; rfl

theorem arpLookup_arpStore_of_ne {s : State} (h : s.Distinct) {ip ip' : UInt32} (mac : Mac)
    (hne : ip' ≠ ip) : arpLookup (arpStore s ip mac) ip' = arpLookup s ip' := by
  rw [arpLookup_eq, arpLookup_eq, arpStore_table, h.get_store_of_ne (keeps_arp ip mac) hne]

/-! ## Packets -/

/-- An ARP packet, wherever it lies in a buffer. -/
structure ArpPacket where
  buf : ℕ → UInt8
  data : ℕ
  len : UInt16
  complete : sizeofArpPacket ≤ len.toNat

def ArpPacket.senderIp (p : ArpPacket) : UInt32 := (read32 p.buf (p.data + 14)).val

def ArpPacket.senderMac (p : ArpPacket) : Mac := (readBytes p.buf (p.data + 8) 6).val

/-- The state after a packet was handled. -/
def State.receiveArp (s : State) (p : ArpPacket) : State :=
  (handleArp s p.buf p.data p.len).val.state

def State.ArpStep (s : State) (p : ArpPacket) (t : State) : Prop := t = s.receiveArp p

/-- Whether or not the packet is a request for this node, its sender is stored. -/
theorem receiveArp_eq (s : State) (p : ArpPacket) :
    s.receiveArp p = arpStore s p.senderIp p.senderMac := by
  have hlen : ¬p.len.toNat < sizeofArpPacket := Nat.not_lt.mpr p.complete
  unfold State.receiveArp handleArp
  rw [if_neg hlen]
  simp only [bind_val]
  split
  · rfl
  · simp only [bind_val]
    split <;> rfl

theorem distinct_of_run {mac : Mac} {packets : List ArpPacket} {s : State}
    (hrun : Run State.ArpStep (init mac) packets s) : s.Distinct := by
  refine hrun.invariant State.Distinct (fun i j hi => by cases hi) fun a p b ha hb => ?_
  rw [hb, receiveArp_eq]
  exact arpStore_distinct ha _ _

/-- There is room for the sender of the packet. -/
def SenderFits (s : State) (p : ArpPacket) : Prop := s.HasRoom p.senderIp

instance (s : State) (p : ArpPacket) : Decidable (SenderFits s p) := by
  unfold SenderFits State.HasRoom
  infer_instance

/-- The hardware address in the last packet from an address. -/
def lastHeard (packets : List ArpPacket) (ip : UInt32) : Option Mac :=
  (packets.reverse.find? fun p => p.senderIp == ip).map ArpPacket.senderMac

theorem lastHeard_snoc (packets : List ArpPacket) (p : ArpPacket) (ip : UInt32) :
    lastHeard (packets ++ [p]) ip =
      if p.senderIp = ip then some p.senderMac else lastHeard packets ip := by
  unfold lastHeard
  rw [List.reverse_append, List.reverse_singleton, List.singleton_append, List.find?_cons]
  by_cases hip : p.senderIp = ip
  · simp [hip]
  · rw [if_neg hip, beq_eq_false_iff_ne.mpr hip]

/-- While every sender finds room, the cache answers with what was heard last. -/
theorem arpLookup_eq_lastHeard {mac : Mac} {packets : List ArpPacket} {s : State}
    (hrun : Run (Where SenderFits State.ArpStep) (init mac) packets s) (ip : UInt32) :
    arpLookup s ip = lastHeard packets ip := by
  induction hrun with
  | nil =>
    rw [arpLookup_eq, Slots.get_eq_none.mpr]
    · rfl
    · rintro ⟨i, hi, -⟩
      cases hi
  | snoc hprev hstep ih =>
    obtain ⟨hroom, rfl⟩ := hstep
    have hdistinct := distinct_of_run hprev.of_where
    rw [receiveArp_eq, lastHeard_snoc]
    split
    · rename_i hip
      rw [← hip]
      exact (arpLookup_arpStore_self hdistinct _ _).mpr hroom
    · rename_i hip
      rw [arpLookup_arpStore_of_ne hdistinct _ (Ne.symm hip), ih]

/-- In every run no address occupies two entries, and a packet changes no other answer; its sender
is answered afterwards exactly if there was room for it. In a run where there always is, the cache
answers with what was heard last. -/
theorem arp_cache_is_map (mac : Mac) (packets : List ArpPacket) (s : State)
    (hrun : Run State.ArpStep (init mac) packets s) :
    s.Distinct ∧
      (∀ p t, s.ArpStep p t →
        (arpLookup t p.senderIp = some p.senderMac ↔ SenderFits s p) ∧
          ∀ ip, ip ≠ p.senderIp → arpLookup t ip = arpLookup s ip) ∧
      (Run (Where SenderFits State.ArpStep) (init mac) packets s →
        ∀ ip, arpLookup s ip = lastHeard packets ip) := by
  have hdistinct := distinct_of_run hrun
  refine ⟨hdistinct, fun p t hstep => ?_, arpLookup_eq_lastHeard⟩
  rw [hstep, receiveArp_eq]
  exact ⟨arpLookup_arpStore_self hdistinct _ _,
    fun ip hne => arpLookup_arpStore_of_ne hdistinct _ hne⟩

/-- A reply from 10.0.0.x with the hardware address 02:00:00:00:00:x. -/
def replyFrom (x : UInt8) : ArpPacket where
  buf i := [0, 1, 8, 0, 6, 4, 0, 2, 2, 0, 0, 0, 0, x, 10, 0, 0, x].getD i 0
  data := 0
  len := 28
  complete := by decide

theorem arp_cache_is_map_two :
    ([replyFrom 2, replyFrom 3].foldl State.receiveArp (init [2, 0, 0, 0, 0, 1])).Distinct :=
  (arp_cache_is_map [2, 0, 0, 0, 0, 1] [replyFrom 2, replyFrom 3] _ (run_foldl _ _ _)).1

/-- Sixteen other hosts were heard. -/
def fullCache : State :=
  ((List.range 16).map fun x => replyFrom (UInt8.ofNat (x + 2))).foldl State.receiveArp
    (init [2, 0, 0, 0, 0, 1])

/-- The packet of a seventeenth host does not make it known. -/
theorem arp_cache_drops_sender :
    Run State.ArpStep (init [2, 0, 0, 0, 0, 1])
        ((List.range 16).map fun x => replyFrom (UInt8.ofNat (x + 2))) fullCache ∧
      arpLookup (fullCache.receiveArp (replyFrom 18)) (replyFrom 18).senderIp ≠
        some (replyFrom 18).senderMac := by
  refine ⟨run_foldl _ _ _, ?_⟩
  decide +kernel

end QuillOS.Network
