import Mathlib.Tactic
import QuillOS.Lib.Run

/-!
# The mouse

`mouse_irq` puts the bytes of the mouse together to packets of three and moves the cursor. The sign
of a movement is in the first byte of a packet; the handler takes it from the movement byte instead,
so that it decodes the movements that fit a signed byte.
-/

namespace QuillOS.Mouse

open Lib

/-! ## The handler -/

/-- The statics of `mouse.cpp` the handler uses. -/
structure State where
  mouseX : ℤ
  mouseY : ℤ
  buttons : UInt8
  packetCount : UInt64
  packet : Fin 3 → UInt8
  packetIdx : Fin 3

def start : State where
  mouseX := 512
  mouseY := 384
  buttons := 0
  packetCount := 0
  packet _ := 0
  packetIdx := 0

/-- An interrupt, with what the status port and the data port read. -/
structure Irq where
  status : UInt8
  byte : UInt8

namespace State

/-- The part of `mouse_irq` behind the third byte of a packet. -/
def handlePacket (s : State) : State :=
  let flags := s.packet 0
  if flags &&& 0xC0 ≠ 0 then s
  else
    let x := s.mouseX + (s.packet 1).toInt8.toInt
    let y := s.mouseY - (s.packet 2).toInt8.toInt
    let x := if x < 0 then 0 else x
    let y := if y < 0 then 0 else y
    let x := if x > 1023 then 1023 else x
    let y := if y > 767 then 767 else y
    { s with mouseX := x, mouseY := y, buttons := flags &&& 0x07, packetCount := s.packetCount + 1 }

/-- A byte of the mouse; the first byte of a packet is known by its bit 3. -/
def handleByte (s : State) (byte : UInt8) : State :=
  if s.packetIdx = 0 ∧ byte &&& 0x08 = 0 then s
  else
    let s := { s with packet := Function.update s.packet s.packetIdx byte }
    if h : s.packetIdx.val + 1 < 3 then { s with packetIdx := ⟨s.packetIdx.val + 1, h⟩ }
    else handlePacket { s with packetIdx := 0 }

/-- `mouse_irq`. -/
def mouseIrq (s : State) (irq : Irq) : State :=
  if irq.status &&& 0x21 ≠ 0x21 then s else s.handleByte irq.byte

def cursor (s : State) : ℤ × ℤ := (s.mouseX, s.mouseY)

end State

/-! ## Packets -/

/-- A standard packet. -/
structure Packet where
  flags : UInt8
  x : UInt8
  y : UInt8
  sync : flags &&& 0x08 ≠ 0

namespace Packet

def bytes (p : Packet) : List UInt8 := [p.flags, p.x, p.y]

def Overflows (p : Packet) : Prop := p.flags &&& 0xC0 ≠ 0

instance (p : Packet) : Decidable p.Overflows := inferInstanceAs (Decidable (_ ≠ _))

/-- The movement to the right: nine bits in two's complement, the sign in the first byte. -/
def dx (p : Packet) : ℤ := (BitVec.cons (p.flags.toBitVec.getLsbD 4) p.x.toBitVec).toInt

/-- The movement upwards. -/
def dy (p : Packet) : ℤ := (BitVec.cons (p.flags.toBitVec.getLsbD 5) p.y.toBitVec).toInt

end Packet

/-- Where a packet moves the cursor. -/
def moved (pos : ℤ × ℤ) (p : Packet) : ℤ × ℤ :=
  if p.Overflows then pos
  else (max 0 (min (pos.1 + p.dx) 1023), max 0 (min (pos.2 - p.dy) 767))

/-- The positions of the cursor. -/
def OnScreen (pos : ℤ × ℤ) : Prop := (0 ≤ pos.1 ∧ pos.1 ≤ 1023) ∧ 0 ≤ pos.2 ∧ pos.2 ≤ 767

instance (pos : ℤ × ℤ) : Decidable (OnScreen pos) := inferInstanceAs (Decidable (_ ∧ _))

/-- The bytes that came from the mouse. -/
def fromMouse (irqs : List Irq) : List UInt8 :=
  (irqs.filter fun irq => irq.status &&& 0x21 = 0x21).map Irq.byte

/-- Once the packets have come in, by whatever interrupts, the cursor is where they moved it. -/
def Tracks (s : State) (before : List Packet) (p : Packet) : Prop :=
  ∀ irqs, fromMouse irqs = (before ++ [p]).flatMap Packet.bytes →
    (irqs.foldl State.mouseIrq s).cursor = (before ++ [p]).foldl moved s.cursor

/-- The handler reads the packet as it is meant: it is ignored, or both movements fit a signed byte.
A movement by -256 is read as none, which makes no difference at the edge it leads to. -/
def Legible (pos : ℤ × ℤ) (p : Packet) : Prop :=
  p.Overflows ∨
    (-128 ≤ p.dx ∧ p.dx ≤ 127 ∨ p.dx = -256 ∧ pos.1 = 0) ∧
      (-128 ≤ p.dy ∧ p.dy ≤ 127 ∨ p.dy = -256 ∧ pos.2 = 767)

/-! ## One packet -/

variable {s : State} {p : Packet} {packets : List Packet} {irqs : List Irq} {pos : ℤ × ℤ}

theorem toInt_cons (sign : Bool) (byte : UInt8) :
    (BitVec.cons sign byte.toBitVec).toInt = byte.toNat - if sign then 256 else 0 := by
  have hbyte : byte.toBitVec.toNat < 2 ^ 8 := byte.toBitVec.isLt
  have hval : (BitVec.cons sign byte.toBitVec).toNat = 2 ^ 8 * sign.toNat + byte.toNat := by
    rw [BitVec.toNat_cons, Nat.shiftLeft_eq, Nat.mul_comm, ← Nat.two_pow_add_eq_or_of_lt hbyte]
    rfl
  rw [BitVec.toInt_eq_msb_cond, BitVec.msb_cons, hval]
  cases sign
  · simp
  · simp
    omega

/-- The movement as the handler reads it, and as it is meant. -/
theorem movement_cases (sign : Bool) (byte : UInt8) {d : ℤ}
    (hd : d = (BitVec.cons sign byte.toBitVec).toInt) :
    byte.toInt8.toInt = d ∧ -128 ≤ d ∧ d ≤ 127 ∨
      byte.toInt8.toInt = d - 256 ∧ 128 ≤ d ∧ d ≤ 255 ∨
      byte.toInt8.toInt = d + 256 ∧ -256 ≤ d ∧ d ≤ -129 := by
  have hlt := byte.toNat_lt
  have hread : byte.toInt8.toInt = byte.toNat - if 128 ≤ byte.toNat then 256 else 0 := by
    change byte.toBitVec.toInt = _
    rw [BitVec.toInt_eq_toNat_cond]
    change (if 2 * byte.toNat < 2 ^ 8 then (byte.toNat : ℤ) else byte.toNat - (2 ^ 8 : ℕ)) = _
    split_ifs
    all_goals omega
  rw [toInt_cons] at hd
  cases sign
  · split_ifs at hread hd
    all_goals omega
  · split_ifs at hread hd
    all_goals omega

theorem right_iff {x d e : ℤ} (hx : 0 ≤ x ∧ x ≤ 1023)
    (h : e = d ∧ -128 ≤ d ∧ d ≤ 127 ∨ e = d - 256 ∧ 128 ≤ d ∧ d ≤ 255 ∨
      e = d + 256 ∧ -256 ≤ d ∧ d ≤ -129) :
    max 0 (min (x + e) 1023) = max 0 (min (x + d) 1023) ↔
      (-128 ≤ d ∧ d ≤ 127 ∨ d = -256 ∧ x = 0) := by
  omega

theorem up_iff {y d e : ℤ} (hy : 0 ≤ y ∧ y ≤ 767)
    (h : e = d ∧ -128 ≤ d ∧ d ≤ 127 ∨ e = d - 256 ∧ 128 ≤ d ∧ d ≤ 255 ∨
      e = d + 256 ∧ -256 ≤ d ∧ d ≤ -129) :
    max 0 (min (y - e) 767) = max 0 (min (y - d) 767) ↔
      (-128 ≤ d ∧ d ≤ 127 ∨ d = -256 ∧ y = 767) := by
  omega

/-- The three bytes of a packet are handled together. -/
theorem handleBytes_packet (hidx : s.packetIdx = 0) (p : Packet) :
    ∃ packet : Fin 3 → UInt8, packet 0 = p.flags ∧ packet 1 = p.x ∧ packet 2 = p.y ∧
      p.bytes.foldl State.handleByte s = { s with packet := packet }.handlePacket := by
  obtain ⟨x, y, buttons, count, packet, idx⟩ := s
  obtain rfl : idx = 0 := hidx
  refine ⟨Function.update (Function.update (Function.update packet 0 p.flags) 1 p.x) 2 p.y,
    rfl, rfl, rfl, ?_⟩
  unfold Packet.bytes
  have hsync : ¬((0 : Fin 3) = 0 ∧ p.flags &&& 0x08 = 0) := fun h => p.sync h.2
  rw [List.foldl_cons, State.handleByte, if_neg hsync]
  rfl

/-- The comparisons of the handler, first with the left or upper edge. -/
theorem clamp_eq {edge : ℤ} (hedge : 0 ≤ edge) (v : ℤ) :
    (if (if v < 0 then 0 else v) > edge then edge else if v < 0 then 0 else v) =
      max 0 (min v edge) := by
  split_ifs
  all_goals omega

/-- Where the handler moves the cursor. -/
theorem handlePacket_cursor (s : State) (hp : ¬s.packet 0 &&& 0xC0 ≠ 0) :
    s.handlePacket.cursor =
      (max 0 (min (s.mouseX + (s.packet 1).toInt8.toInt) 1023),
        max 0 (min (s.mouseY - (s.packet 2).toInt8.toInt) 767)) := by
  unfold State.handlePacket
  dsimp only
  rw [if_neg hp]
  exact Prod.ext (clamp_eq (by decide) _) (clamp_eq (by decide) _)

theorem handlePacket_packetIdx (s : State) : s.handlePacket.packetIdx = s.packetIdx := by
  unfold State.handlePacket
  dsimp only
  split
  · rfl
  · rfl

theorem onScreen_moved (hpos : OnScreen pos) (p : Packet) : OnScreen (moved pos p) := by
  unfold moved
  split_ifs
  · exact hpos
  · unfold OnScreen
    dsimp only
    omega

theorem foldl_packet_packetIdx (hidx : s.packetIdx = 0) (p : Packet) :
    (p.bytes.foldl State.handleByte s).packetIdx = 0 := by
  obtain ⟨packet, -, -, -, hfold⟩ := handleBytes_packet hidx p
  rw [hfold, handlePacket_packetIdx, hidx]

/-- A packet moves the cursor as it should exactly if it is legible. -/
theorem foldl_packet_cursor_iff (hidx : s.packetIdx = 0) (hpos : OnScreen s.cursor) (p : Packet) :
    (p.bytes.foldl State.handleByte s).cursor = moved s.cursor p ↔ Legible s.cursor p := by
  obtain ⟨packet, hflags, hx, hy, hfold⟩ := handleBytes_packet hidx p
  rw [hfold, Legible, moved]
  by_cases hover : p.Overflows
  · have hignored : packet 0 &&& 0xC0 ≠ 0 := hflags ▸ hover
    rw [if_pos hover, State.handlePacket, if_pos hignored]
    exact iff_of_true rfl (.inl hover)
  · have hclear : ¬packet 0 &&& 0xC0 ≠ 0 := hflags ▸ hover
    rw [if_neg hover, handlePacket_cursor _ hclear, Prod.mk.injEq, or_iff_right hover]
    dsimp only
    rw [hx, hy]
    exact and_congr (right_iff hpos.1 (movement_cases _ _ rfl))
      (up_iff hpos.2 (movement_cases _ _ rfl))

/-! ## Runs -/

/-- Interrupts of other devices do nothing here. -/
theorem foldl_mouseIrq (s : State) (irqs : List Irq) :
    irqs.foldl State.mouseIrq s = (fromMouse irqs).foldl State.handleByte s := by
  induction irqs generalizing s with
  | nil => rfl
  | cons irq irqs ih =>
    rw [List.foldl_cons, ih]
    unfold State.mouseIrq fromMouse
    by_cases hmouse : irq.status &&& 0x21 = 0x21
    · rw [if_neg (not_not.mpr hmouse), List.filter_cons_of_pos (by simpa using hmouse)]
      rfl
    · rw [if_pos hmouse, List.filter_cons_of_neg (by simpa using hmouse)]

theorem foldl_packets_packetIdx (hidx : s.packetIdx = 0) (packets : List Packet) :
    ((packets.flatMap Packet.bytes).foldl State.handleByte s).packetIdx = 0 := by
  induction packets generalizing s with
  | nil => exact hidx
  | cons p packets ih =>
    rw [List.flatMap_cons, List.foldl_append]
    exact ih (foldl_packet_packetIdx hidx p)

theorem onScreen_foldl_moved (hpos : OnScreen pos) (packets : List Packet) :
    OnScreen (packets.foldl moved pos) := by
  induction packets generalizing pos with
  | nil => exact hpos
  | cons p packets ih => exact ih (onScreen_moved hpos p)

theorem tracks_iff (s : State) (before : List Packet) (p : Packet) :
    Tracks s before p ↔ (((before ++ [p]).flatMap Packet.bytes).foldl State.handleByte s).cursor =
      (before ++ [p]).foldl moved s.cursor := by
  constructor
  · intro h
    let irqs := ((before ++ [p]).flatMap Packet.bytes).map fun byte => (⟨0x21, byte⟩ : Irq)
    have hbytes : fromMouse irqs = (before ++ [p]).flatMap Packet.bytes := by
      unfold fromMouse
      rw [List.filter_eq_self.mpr, List.map_map]
      · exact List.map_id _
      · intro irq hirq
        obtain ⟨byte, -, rfl⟩ := List.mem_map.mp hirq
        exact decide_eq_true (show (0x21 : UInt8) &&& 0x21 = 0x21 by decide)
    rw [← hbytes, ← foldl_mouseIrq]
    exact h irqs hbytes
  · intro h irqs hirqs
    rw [foldl_mouseIrq, hirqs, h]

/-- The cursor after a stream that was followed. -/
theorem cursor_of_tracks (h : Throughout (Tracks s) packets) :
    ((packets.flatMap Packet.bytes).foldl State.handleByte s).cursor =
      packets.foldl moved s.cursor := by
  rcases List.eq_nil_or_concat packets with rfl | ⟨before, p, rfl⟩
  · rfl
  · rw [List.concat_eq_append] at h ⊢
    exact (tracks_iff s before p).mp (throughout_snoc.mp h).2

/-- The cursor follows the packets exactly as long as each is legible at the position they have led
to. -/
theorem mouse_tracks_iff (s : State) (packets : List Packet) (hidx : s.packetIdx = 0)
    (hpos : OnScreen s.cursor) :
    Throughout (Tracks s) packets ↔
      Throughout (fun before p => Legible (before.foldl moved s.cursor) p) packets := by
  induction packets using List.reverseRecOn with
  | nil => exact iff_of_true (throughout_nil _) (throughout_nil _)
  | append_singleton packets p ih =>
    rw [throughout_snoc, throughout_snoc, ← ih]
    apply and_congr_right
    intro htracks
    have hcursor := cursor_of_tracks htracks
    have hlast := foldl_packet_cursor_iff (foldl_packets_packetIdx hidx packets)
      (hcursor ▸ onScreen_foldl_moved hpos packets) p
    rw [tracks_iff, List.flatMap_append, List.flatMap_singleton, List.foldl_append,
      List.foldl_append, List.foldl_cons, List.foldl_nil, ← hcursor]
    exact hlast

/-- To the right by 56 and up by 2. -/
def slowPacket : Packet := ⟨0x08, 56, 2, by decide⟩

/-- To the right by 200. -/
def fastPacket : Packet := ⟨0x08, 200, 0, by decide⟩

theorem mouse_tracks_iff_start :
    Throughout (Tracks start) [slowPacket] ↔
      Throughout (fun before p => Legible (before.foldl moved start.cursor) p) [slowPacket] :=
  mouse_tracks_iff start [slowPacket] rfl (by decide)

/-- A quick movement to the right moves the cursor to the left, from 512 to 456 instead of 712. -/
theorem fast_packet_not_tracked : ¬Throughout (Tracks start) [fastPacket] := by
  intro h
  have htracks := (tracks_iff start [] fastPacket).mp (h [] fastPacket [] rfl)
  exact absurd htracks (by decide)

end QuillOS.Mouse
