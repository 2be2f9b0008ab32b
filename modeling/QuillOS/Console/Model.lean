import Mathlib.Tactic
import QuillOS.Console.Font

/-!
# The console

`console.cpp`: a cursor on a grid of characters and what is drawn at it. The drawing is kept as the
list of the accesses to the font and to the framebuffer, in order; the framebuffer is what they
make of the words it held. Cursor coordinates are signed numbers.
-/

namespace QuillOS.Console

abbrev screenWidth : ℕ := 1024
abbrev screenHeight : ℕ := 768
abbrev charW : ℕ := 8
abbrev charH : ℕ := 8

/-- The height of a line of text. -/
abbrev lineH : ℕ := charH + 4

/-- One access of the console: a read of the font, a pixel of `draw_rect` or `draw_char`, a pixel of
`console_clear`, and in `console_scroll` a pixel copied to row `y` from a line below, or a pixel of
the new line. -/
inductive Access
  | glyph (index row : ℕ)
  | pixel (x y : ℤ) (color : UInt32)
  | clear (x y : ℕ) (color : UInt32)
  | move (x y : ℕ)
  | blank (x y : ℕ) (color : UInt32)
  deriving DecidableEq, Repr

structure State where
  pitch : UInt32
  cursorX : ℤ
  cursorY : ℤ
  currentBgColor : UInt32
  currentFgColor : UInt32
  drawn : List Access

namespace State

def draw (s : State) (as : List Access) : State := { s with drawn := s.drawn ++ as }

def setBgColor (s : State) (color : UInt32) : State := { s with currentBgColor := color }

def drawRect (s : State) (x y : ℤ) (w h : ℕ) (color : UInt32) : State :=
  s.draw <| (List.range h).flatMap fun (i : ℕ) =>
    (List.range w).map fun (j : ℕ) => .pixel (x + j) (y + i) color

/-- A character above 127 is drawn as `'?'`. -/
def drawChar (s : State) (c : UInt8) (x y : ℤ) (color : UInt32) : State :=
  let c := if 127 < c then 63 else c
  s.draw <| (List.range 8).flatMap fun (row : ℕ) =>
    .glyph c.toNat row ::
      ((List.range 8).filter fun col => (font c.toNat row).toNat.testBit col).map fun (col : ℕ) =>
        .pixel (x + col) (y + row) color

def consoleClear (s : State) : State :=
  { s.draw ((List.range screenHeight).flatMap fun y =>
      (List.range s.pitch.toNat).map fun x => .clear x y s.currentBgColor) with
    cursorX := 10
    cursorY := 10 }

/-- The console as it is set up, on a framebuffer with rows of `fbPitch` bytes. -/
def consoleInit (fbPitch : UInt64) : State :=
  consoleClear
    { pitch := (fbPitch / 4).toUInt32
      cursorX := 10
      cursorY := 10
      currentBgColor := 0x0000FF
      currentFgColor := 0xFFFFFF
      drawn := [] }

def consoleBackspace (s : State) : State :=
  let s :=
    if s.cursorX > 10 then { s with cursorX := s.cursorX - charW }
    else if s.cursorY > 10 then
      { s with
        cursorY := s.cursorY - lineH
        cursorX := (screenWidth - 20) / charW * charW }
    else s
  s.drawRect s.cursorX s.cursorY charW charH s.currentBgColor

def consoleScroll (s : State) : State :=
  let s := s.draw <| (List.range (screenHeight - lineH)).flatMap fun y =>
    (List.range s.pitch.toNat).map fun x => .move x y
  let s := s.draw <| (List.range' (screenHeight - lineH) lineH).flatMap fun y =>
    (List.range s.pitch.toNat).map fun x => .blank x y s.currentBgColor
  let s := { s with cursorY := s.cursorY - lineH }
  if s.cursorY < 10 then { s with cursorY := 10 } else s

/-- `console_putc`, which calls itself at the end of a line. `none` when more than `depth` calls
are open. -/
def consolePutc : ℕ → State → UInt8 → Option State
  | 0, _, _ => none
  | depth + 1, s, c =>
    if c = 10 then
      let s : State := { s with cursorX := 10, cursorY := s.cursorY + lineH }
      some (if s.cursorY + charH > screenHeight - 10 then s.consoleScroll else s)
    else if c = 8 then some s.consoleBackspace
    else
      let s := s.drawChar c s.cursorX s.cursorY s.currentFgColor
      let s : State := { s with cursorX := s.cursorX + charW }
      if s.cursorX > screenWidth - 10 then consolePutc depth s 10 else some s

/-- `console_print`, up to the terminator. -/
def consolePrint (depth : ℕ) : State → List UInt8 → Option State
  | s, [] => some s
  | s, c :: str => if c = 0 then some s else (s.consolePutc depth c).bind (consolePrint depth · str)

end State

/-! ## The framebuffer -/

/-- `y * pitch`, a product of 32 bits. -/
def rowStart (pitch : UInt32) (y : ℤ) : ℕ := (y * pitch.toNat % 2 ^ 32).toNat

/-- `(y + i) * pitch + (x + j)`, in 32 bits. -/
def pixelOffset (pitch : UInt32) (x y : ℤ) : ℕ := ((y * pitch.toNat + x) % 2 ^ 32).toNat

/-- The word an access writes. -/
def Access.target (pitch : UInt32) : Access → Option ℕ
  | .glyph _ _ => none
  | .pixel x y _ => some (pixelOffset pitch x y)
  | .clear x y _ => some (y * pitch.toNat + x)
  | .move x y => some (rowStart pitch y + x)
  | .blank x y _ => some (rowStart pitch y + x)

/-- The words of the framebuffer after an access. -/
def Access.apply (pitch : UInt32) (fb : ℕ → UInt32) (a : Access) : ℕ → UInt32 :=
  match a with
  | .glyph _ _ => fb
  | .pixel x y color => Function.update fb (pixelOffset pitch x y) color
  | .clear x y color => Function.update fb (y * pitch.toNat + x) color
  | .move x y =>
    Function.update fb (rowStart pitch y + x)
      (fb (rowStart pitch (y + lineH) + x))
  | .blank x y color => Function.update fb (rowStart pitch y + x) color

/-- The framebuffer, from the words it held at first. -/
def State.framebuffer (s : State) (fb : ℕ → UInt32) : ℕ → UInt32 :=
  s.drawn.foldl (Access.apply s.pitch) fb

/-! ## Calls -/

inductive Call
  | putc (c : UInt8)
  | print (str : List UInt8)
  | backspace
  | clear
  | setBgColor (color : UInt32)

/-- A call of the console, with at most `depth` calls of `console_putc` open at a time. -/
def step (depth : ℕ) (s : State) : Call → Option State
  | .putc c => s.consolePutc depth c
  | .print str => s.consolePrint depth str
  | .backspace => some s.consoleBackspace
  | .clear => some s.consoleClear
  | .setBgColor color => some (s.setBgColor color)

end QuillOS.Console
