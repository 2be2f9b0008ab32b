import QuillOS.Lib.Ring
import QuillOS.Lib.Run

/-!
# The E1000 driver and its rings

`send` and `poll_receive` are cut at every access the network card can see: each step is one store
or load in a ring or a buffer, or the write of a tail register, so that the card's own steps fall
anywhere between. The buffer of descriptor `i` is the page `init` put into its `addr`; pages are
known by the number of their descriptor.
-/

namespace QuillOS.E1000

def numTx : ℕ := 8
def numRx : ℕ := 8
def bufSize : ℕ := 2048

/-- The descriptor-done bit of a status byte. -/
def dd (status : UInt8) : Bool := status &&& 1 != 0

abbrev Frame := List UInt8

/-! ## Transmit -/

structure TxDesc where
  addr : ℕ
  length : UInt16
  cmd : UInt8
  status : UInt8

/-- The arguments of a call of `send` that passed the first check. -/
structure SendArgs where
  data : ℕ → UInt8
  len : UInt16

def SendArgs.frame (a : SendArgs) : Frame := (List.range a.len.toNat).map a.data

/-- Where a call of `send` stands. -/
inductive SendPc
  | wait (timeout : ℕ)
  | copy (i : ℕ)
  | setLength
  | setCmd
  | setStatus
  | setTail

/-- What is seen of the transmit side from outside: the frames `send` answered, and those the card
put on the wire. -/
inductive TxEvent
  | sent (frame : Frame)
  | failed
  | transmitted (frame : Frame)

structure Tx where
  ready : Bool
  ring : ℕ → TxDesc
  buf : ℕ → ℕ → UInt8
  txCur : ℕ
  tdh : ℕ
  tdt : ℕ
  call : Option (SendArgs × SendPc)
  log : List TxEvent

/-- The transmit side as `init` leaves it: every descriptor is marked done. -/
def txInit (pages : ℕ → ℕ → UInt8) : Tx where
  ready := true
  ring i := { addr := i, length := 0, cmd := 0, status := 1 }
  buf := pages
  txCur := 0
  tdh := 0
  tdt := 0
  call := none
  log := []

def Tx.setDesc (s : Tx) (i : ℕ) (d : TxDesc) : Tx := { s with ring := Function.update s.ring i d }

/-- Stores a byte into the buffer of descriptor `i`. -/
def Tx.setByte (s : Tx) (i off : ℕ) (b : UInt8) : Tx :=
  { s with buf := Function.update s.buf i (Function.update (s.buf i) off b) }

/-- The call returns. -/
def Tx.finish (s : Tx) (e : TxEvent) : Tx := { s with call := none, log := s.log ++ [e] }

/-- The entry of `send`; a null `data` is `none`. -/
def send (s : Tx) (data : Option (ℕ → UInt8)) (len : UInt16) : Tx :=
  match data with
  | none => s.finish .failed
  | some data =>
    if !s.ready || len == 0 || len > 1514 then s.finish .failed
    else { s with call := some (⟨data, len⟩, .wait 10000) }

/-- One access of a call of `send` under way. -/
def sendStep (s : Tx) (a : SendArgs) : SendPc → Tx
  | .wait timeout =>
    if dd (s.ring s.txCur).status then { s with call := some (a, .copy 0) }
    -- The loop ends after 10000 tests with `timeout` at 0.
    else if timeout - 1 > 0 then { s with call := some (a, .wait (timeout - 1)) }
    else s.finish .failed
  | .copy i =>
    if i < a.len.toNat then
      { s.setByte s.txCur i (a.data i) with call := some (a, .copy (i + 1)) }
    else { s with call := some (a, .setLength) }
  | .setLength =>
    { s.setDesc s.txCur { s.ring s.txCur with length := a.len } with call := some (a, .setCmd) }
  | .setCmd =>
    { s.setDesc s.txCur { s.ring s.txCur with cmd := 0x0B } with call := some (a, .setStatus) }
  | .setStatus =>
    { s.setDesc s.txCur { s.ring s.txCur with status := 0 } with call := some (a, .setTail) }
  | .setTail =>
    -- Not compared with `TDH`: where the two meet, the card sees an empty ring.
    let cur := (s.txCur + 1) % numTx
    { s with txCur := cur, tdt := cur }.finish (.sent a.frame)

/-- The frame a descriptor stands for. -/
def Tx.frameAt (s : Tx) (i : ℕ) : Frame :=
  (List.range (s.ring i).length.toNat).map (s.buf (s.ring i).addr)

/-- The frames in the window the card owns, in the order it sends them. -/
def Tx.window (s : Tx) : List Frame := Lib.Ring.window numTx s.frameAt s.tdh s.tdt

/-- The card sends the frame at `TDH`, marks the descriptor done and moves on. -/
def Tx.transmit (s : Tx) : Tx :=
  let d := s.ring s.tdh
  { s.setDesc s.tdh { d with status := d.status ||| 1 } with
    tdh := (s.tdh + 1) % numTx
    log := s.log ++ [.transmitted (s.frameAt s.tdh)] }

inductive TxLabel
  | call (data : Option (ℕ → UInt8)) (len : UInt16)
  | driver
  | card

/-- The transmit side: a call starts when none is under way, and the card works on the descriptors
from `TDH` up to `TDT`. -/
def txStep (s : Tx) : TxLabel → Option Tx
  | .call data len => if s.call.isNone then some (send s data len) else none
  | .driver => s.call.map fun c => sendStep s c.1 c.2
  | .card => if s.tdh = s.tdt then none else some s.transmit

def TxStep (s : Tx) (l : TxLabel) (t : Tx) : Prop := txStep s l = some t

/-- The frames for which `send` returned true. -/
def sent (log : List TxEvent) : List Frame :=
  log.filterMap fun | .sent f => some f | _ => none

def transmitted (log : List TxEvent) : List Frame :=
  log.filterMap fun | .transmitted f => some f | _ => none

/-! ## Receive -/

structure RxDesc where
  addr : ℕ
  length : UInt16
  status : UInt8

/-- A frame the card accepts. -/
structure Arrival where
  bytes : Frame
  length_le : bytes.length ≤ bufSize

/-- The out-parameters of `poll_receive`. -/
structure PollArgs where
  data : UInt64
  len : UInt64
  data_ne : data ≠ 0
  len_ne : len ≠ 0

/-- Where a call of `poll_receive` stands; `out` are the bytes copied to `data` so far. -/
inductive PollPc
  | test
  | getLength
  | copy (pktLen : ℕ) (out : Frame)
  | setStatus (out : Frame)
  | setTail (out : Frame)

/-- What is seen of the receive side: the frames the card accepted, and the answers of
`poll_receive`. -/
inductive RxEvent
  | arrived (frame : Frame)
  | received (frame : Frame)
  | missed

structure Rx where
  ready : Bool
  ring : ℕ → RxDesc
  buf : ℕ → ℕ → UInt8
  rxCur : ℕ
  rdh : ℕ
  rdt : ℕ
  call : Option PollPc
  log : List RxEvent

/-- The receive side as `init` leaves it: the card may fill all descriptors but the last. -/
def rxInit (pages : ℕ → ℕ → UInt8) : Rx where
  ready := true
  ring i := { addr := i, length := 0, status := 0 }
  buf := pages
  rxCur := 0
  rdh := 0
  rdt := numRx - 1
  call := none
  log := []

def Rx.setDesc (s : Rx) (i : ℕ) (d : RxDesc) : Rx := { s with ring := Function.update s.ring i d }

def Rx.finish (s : Rx) (e : RxEvent) : Rx := { s with call := none, log := s.log ++ [e] }

/-- The entry of `poll_receive`. -/
def pollReceive (s : Rx) (a : PollArgs) : Rx :=
  if !s.ready || a.data == 0 || a.len == 0 then s.finish .missed
  else { s with call := some .test }

/-- One access of a call of `poll_receive` under way. -/
def pollStep (s : Rx) : PollPc → Rx
  | .test => if dd (s.ring s.rxCur).status then { s with call := some .getLength } else s.finish .missed
  | .getLength =>
    { s with call := some (.copy (min (s.ring s.rxCur).length.toNat bufSize) []) }
  | .copy pktLen out =>
    if out.length < pktLen then
      { s with call := some (.copy pktLen (out ++ [s.buf s.rxCur out.length])) }
    else { s with call := some (.setStatus out) }
  | .setStatus out =>
    { s.setDesc s.rxCur { s.ring s.rxCur with status := 0 } with call := some (.setTail out) }
  -- The tail is moved onto the slot just read, one behind `rxCur`.
  | .setTail out =>
    { s with rxCur := (s.rxCur + 1) % numRx, rdt := s.rxCur }.finish (.received out)

/-- The card writes a frame into the buffer at `RDH`, sets its length, marks the descriptor done
and moves on. -/
def Rx.fill (s : Rx) (f : Arrival) : Rx :=
  let d := s.ring s.rdh
  let page := fun off => f.bytes.getD off (s.buf d.addr off)
  { s.setDesc s.rdh { d with length := UInt16.ofNat f.bytes.length, status := d.status ||| 1 } with
    buf := Function.update s.buf d.addr page
    rdh := (s.rdh + 1) % numRx
    log := s.log ++ [.arrived f.bytes] }

inductive RxLabel
  | poll (args : PollArgs)
  | driver
  | card (frame : Arrival)

/-- The receive side: the card fills the descriptor at `RDH` while `RDH` differs from `RDT`. -/
def rxStep (s : Rx) : RxLabel → Option Rx
  | .poll a => if s.call.isNone then some (pollReceive s a) else none
  | .driver => s.call.map fun pc => pollStep s pc
  | .card f => if s.rdh = s.rdt then none else some (s.fill f)

def RxStep (s : Rx) (l : RxLabel) (t : Rx) : Prop := rxStep s l = some t

/-- The frames the card accepted. -/
def arrived (log : List RxEvent) : List Frame :=
  log.filterMap fun | .arrived f => some f | _ => none

/-- The frames successful calls of `poll_receive` returned. -/
def received (log : List RxEvent) : List Frame :=
  log.filterMap fun | .received f => some f | _ => none

end QuillOS.E1000
