import Mathlib.Data.Fintype.Basic
import QuillOS.Lib.Access

/-!
# The network stack: receiving

Frames come into `recv_buf`; a pointer into a frame is its offset, and a buffer is a function
from offsets, so that bytes past the frame are whatever lies there. `process_packet` and the
handlers below it are written in the tracing monad. A UDP handler is a code address, `0` the null
pointer, and a call of one is part of the result.
-/

namespace QuillOS.Network

open Lib Lib.Traced

def htons (x : UInt16) : UInt16 := x >>> 8 ||| x <<< 8
def ntohs (x : UInt16) : UInt16 := htons x

def htonl (x : UInt32) : UInt32 :=
  ((x >>> 24) &&& (0xFF : UInt32)) ||| ((x >>> 8) &&& (0xFF00 : UInt32)) |||
    ((x <<< 8) &&& (0xFF0000 : UInt32)) ||| ((x <<< 24) &&& (0xFF000000 : UInt32))

def ntohl (x : UInt32) : UInt32 := htonl x

def sizeofEthHeader : ℕ := 14
def sizeofArpPacket : ℕ := 28
def sizeofIpv4Header : ℕ := 20
def sizeofUdpHeader : ℕ := 8

abbrev arpTableSize : ℕ := 16
abbrev maxUdpHandlers : ℕ := 8

instance : NeZero arpTableSize := ⟨by decide⟩

/-- The six bytes of a hardware address. -/
abbrev Mac := List UInt8

structure ArpEntry where
  ip : UInt32
  mac : Mac
  valid : Bool
  deriving DecidableEq

structure UdpBinding where
  port : UInt16
  handler : UInt64
  deriving DecidableEq

structure State where
  ourMac : Mac
  ourIp : UInt32
  pktsRecv : UInt64
  arpTable : Fin arpTableSize → ArpEntry
  udpHandlers : Fin maxUdpHandlers → UdpBinding

/-- The state `Network::init` leaves for a hardware address: 10.0.0.X with X its last byte, and
empty tables. -/
def init (mac : Mac) : State where
  ourMac := mac
  ourIp := htonl (0x0A000000 ||| (mac.getLastD 0).toUInt32)
  pktsRecv := 0
  arpTable _ := { ip := 0, mac := [0, 0, 0, 0, 0, 0], valid := false }
  udpHandlers _ := { port := 0, handler := 0 }

/-- A call of a registered handler with the payload `[off, off + len)` of the frame. -/
structure Delivery where
  handler : UInt64
  srcIp : UInt32
  srcPort : UInt16
  off : ℕ
  len : UInt16
  deriving DecidableEq

/-- What handling a frame leads to. -/
structure Outcome where
  state : State
  /-- Frames given to `E1000::send`. -/
  sent : List (List UInt8)
  delivery : Option Delivery

def Outcome.quiet (s : State) : Outcome := { state := s, sent := [], delivery := none }

/-! ## ARP -/

def bytes16 (x : UInt16) : List UInt8 := [x.toUInt8, (x >>> 8).toUInt8]

def bytes32 (x : UInt32) : List UInt8 :=
  [x.toUInt8, (x >>> 8).toUInt8, (x >>> 16).toUInt8, (x >>> 24).toUInt8]

/-- The update scan comes before the insert scan; a full table drops the sender. -/
def arpStore (s : State) (ip : UInt32) (mac : Mac) : State :=
  match Fin.find? fun i => (s.arpTable i).valid && (s.arpTable i).ip == ip with
  | some i => { s with arpTable := Function.update s.arpTable i { s.arpTable i with mac := mac } }
  | none =>
    match Fin.find? fun i => !(s.arpTable i).valid with
    | some i =>
      { s with arpTable := Function.update s.arpTable i { ip := ip, mac := mac, valid := true } }
    | none => s

/-- The frame `arp_send_reply` builds. -/
def arpReply (s : State) (targetIp : UInt32) (targetMac : Mac) : List UInt8 :=
  targetMac ++ s.ourMac ++ bytes16 (htons 0x0806) ++
    bytes16 (htons 1) ++ bytes16 (htons 0x0800) ++ [6, 4] ++ bytes16 (htons 2) ++
    s.ourMac ++ bytes32 s.ourIp ++ targetMac ++ bytes32 targetIp

def handleArp (s : State) (buf : ℕ → UInt8) (data : ℕ) (len : UInt16) : Traced Outcome := do
  if len.toNat < sizeofArpPacket then return Outcome.quiet s
  let spa ← read32 buf (data + 14)
  let sha ← readBytes buf (data + 8) 6
  -- The sender is learned whatever the operation and whoever is asked.
  let s := arpStore s spa sha
  let oper ← read16 buf (data + 6)
  if ntohs oper ≠ 1 then return Outcome.quiet s
  let tpa ← read32 buf (data + 24)
  if tpa ≠ s.ourIp then return Outcome.quiet s
  return { state := s, sent := [arpReply s spa sha], delivery := none }

/-! ## IPv4 and UDP -/

/-- The first registered handler for the port is called with the payload. -/
def handleUdp (s : State) (srcIp : UInt32) (buf : ℕ → UInt8) (data : ℕ) (len : UInt16) :
    Traced Outcome := do
  if len.toNat < sizeofUdpHeader then return Outcome.quiet s
  let dstPort := ntohs (← read16 buf (data + 2))
  let srcPort := ntohs (← read16 buf data)
  let udpLen := ntohs (← read16 buf (data + 4))
  if udpLen.toNat < sizeofUdpHeader ∨ udpLen > len then return Outcome.quiet s
  let payload := data + sizeofUdpHeader
  let payloadLen ← sub16 udpLen 8
  match Fin.find? fun i =>
      (s.udpHandlers i).handler != 0 && (s.udpHandlers i).port == dstPort with
  | none => return Outcome.quiet s
  | some i =>
    touch payload payloadLen.toNat
    let call : Delivery := ⟨(s.udpHandlers i).handler, srcIp, srcPort, payload, payloadLen⟩
    return { state := s, sent := [], delivery := some call }

/-- The header length is taken from the packet and not compared with `len`. -/
def handleIpv4 (s : State) (buf : ℕ → UInt8) (data : ℕ) (len : UInt16) : Traced Outcome := do
  if len.toNat < sizeofIpv4Header then return Outcome.quiet s
  let dstIp ← read32 buf (data + 16)
  if dstIp ≠ s.ourIp ∧ dstIp ≠ 0xFFFFFFFF ∧ dstIp ≠ s.ourIp ||| htonl 0x000000FF then
    return Outcome.quiet s
  let hdrLen := ((← read8 buf data) &&& 0x0F).toUInt16 * 4
  let protocol ← read8 buf (data + 9)
  if protocol = 17 then
    let srcIp ← read32 buf (data + 12)
    -- Wraps when the header length exceeds what was received.
    let udpLen ← sub16 len hdrLen
    handleUdp s srcIp buf (data + hdrLen.toNat) udpLen
  else
    return Outcome.quiet s

/-! ## Dispatch -/

def processPacket (s : State) (buf : ℕ → UInt8) (len : UInt16) : Traced Outcome := do
  if len.toNat < sizeofEthHeader then return Outcome.quiet s
  let s := { s with pktsRecv := s.pktsRecv + 1 }
  let ethertype := ntohs (← read16 buf 12)
  let payloadLen ← sub16 len 14
  if ethertype = 0x0806 then handleArp s buf sizeofEthHeader payloadLen
  else if ethertype = 0x0800 then handleIpv4 s buf sizeofEthHeader payloadLen
  else return Outcome.quiet s

end QuillOS.Network
