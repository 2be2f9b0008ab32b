import QuillOS.Lib.Run
import QuillOS.Console.Model

/-!
# Drawing on the screen

Typing moves the cursor through the columns 10, 18, .., 1010. A backspace at the start of a line
goes to column 1000 of the line above, and from there the columns are the multiples of 8, down to 8
and up to 1008 if something is typed again. A character is 8 pixels wide, so that it stays on the
screen in both families of columns.
-/

namespace QuillOS.Console

open Lib

variable {s : State} {pitch : UInt32} {depth : ℕ}

/-- A pixel of a character or rectangle lies on the screen, one of a row below the pitch, and a
character has a glyph. -/
def Access.OnScreen (pitch : UInt32) : Access → Prop
  | .glyph index row => index < 128 ∧ row < 8
  | .pixel x y _ => (0 ≤ x ∧ x < screenWidth) ∧ 0 ≤ y ∧ y < screenHeight
  | .clear x y _ | .blank x y _ => x < pitch.toNat ∧ y < screenHeight
  | .move x y => x < pitch.toNat ∧ y + lineH < screenHeight

/-- The columns the cursor can be in. -/
def Column (x : ℤ) : Prop := 10 ≤ x ∧ x ≤ 1010 ∧ x % 8 = 2 ∨ 8 ≤ x ∧ x ≤ 1008 ∧ x % 8 = 0

/-- The rows the cursor can be in. -/
def Row (y : ℤ) : Prop := 10 ≤ y ∧ y ≤ 742 ∧ y % 12 = 10

/-- Everything was drawn on the screen. -/
structure DrawsInside (pitch : UInt32) (s : State) : Prop where
  pitch_eq : s.pitch = pitch
  drawn : ∀ a ∈ s.drawn, a.OnScreen pitch

structure ConsoleInv (pitch : UInt32) (s : State) : Prop extends DrawsInside pitch s where
  column : Column s.cursorX
  row : Row s.cursorY

/-! ## Drawing -/

theorem sizes : charW = 8 ∧ charH = 8 ∧ lineH = 12 ∧ screenWidth = 1024 ∧ screenHeight = 768 := by
  decide

/-- The column of the last character of a line, to a backspace. -/
theorem lastColumn : ((screenWidth : ℤ) - 20) / charW * charW = 1000 := by decide

theorem DrawsInside.draw {as : List Access} (h : DrawsInside pitch s)
    (hinside : ∀ a ∈ as, a.OnScreen pitch) : DrawsInside pitch (s.draw as) where
  pitch_eq := h.pitch_eq
  drawn := by
    unfold State.draw
    rw [List.forall_mem_append]
    exact ⟨h.drawn, hinside⟩

/-- The loops over rows and columns. -/
theorem rows_onScreen {rows : List ℕ} {n : ℕ} {access : ℕ → ℕ → Access}
    (h : ∀ y ∈ rows, ∀ x < n, (access x y).OnScreen pitch) :
    ∀ a ∈ rows.flatMap fun y => (List.range n).map fun x => access x y, a.OnScreen pitch := by
  intro a ha
  obtain ⟨y, hy, ha⟩ := List.mem_flatMap.mp ha
  obtain ⟨x, hx, rfl⟩ := List.mem_map.mp ha
  exact h y hy x (List.mem_range.mp hx)

/-- Every pixel of a character cell. -/
theorem cell_onScreen {x y : ℤ} {i j : ℕ} (hx : Column x) (hy : Row y) (hi : i < charH)
    (hj : j < charW) (color : UInt32) : (Access.pixel (x + j) (y + i) color).OnScreen pitch := by
  have hsizes := sizes
  unfold Column at hx
  unfold Row at hy
  unfold Access.OnScreen
  omega

theorem DrawsInside.drawRect {x y : ℤ} (h : DrawsInside pitch s) (hx : Column x) (hy : Row y)
    (color : UInt32) : DrawsInside pitch (s.drawRect x y charW charH color) := by
  apply h.draw
  apply rows_onScreen
  intro i hi j hj
  exact cell_onScreen hx hy (List.mem_range.mp hi) hj color

/-- A character that is drawn has a glyph, its own or that of the question mark. -/
theorem glyph_lt (c : UInt8) : (if 127 < c then (63 : UInt8) else c).toNat < 128 := by
  split
  · decide
  · next hc => exact Nat.lt_succ_of_le (UInt8.le_iff_toNat_le.mp (UInt8.not_lt.mp hc))

theorem DrawsInside.drawChar {x y : ℤ} (h : DrawsInside pitch s) (c : UInt8) (hx : Column x)
    (hy : Row y) (color : UInt32) : DrawsInside pitch (s.drawChar c x y color) := by
  apply h.draw
  intro a ha
  obtain ⟨row, hrow, ha⟩ := List.mem_flatMap.mp ha
  rw [List.mem_range] at hrow
  rcases List.mem_cons.mp ha with rfl | ha
  · exact ⟨glyph_lt c, hrow⟩
  · obtain ⟨col, hcol, rfl⟩ := List.mem_map.mp ha
    exact cell_onScreen hx hy hrow (List.mem_range.mp (List.mem_of_mem_filter hcol)) color

/-- What `console_scroll` and `console_clear` draw, row by row. -/
theorem DrawsInside.drawRows (h : DrawsInside pitch s) (rows : List ℕ) (access : ℕ → ℕ → Access)
    (hrows : ∀ y ∈ rows, ∀ x < pitch.toNat, (access x y).OnScreen pitch) :
    DrawsInside pitch
      (s.draw (rows.flatMap fun y => (List.range s.pitch.toNat).map fun x => access x y)) := by
  apply h.draw
  apply rows_onScreen
  rw [h.pitch_eq]
  exact hrows

/-! ## The calls -/

theorem column_ten : Column 10 := .inl (by decide)

theorem row_ten : Row 10 := by unfold Row; decide

theorem ConsoleInv.start (h : DrawsInside pitch s) : ConsoleInv pitch s.consoleClear where
  toDrawsInside := by
    have hclear := h.drawRows (List.range screenHeight) (fun x y => .clear x y s.currentBgColor)
      fun y hy x hx => ⟨hx, List.mem_range.mp hy⟩
    exact ⟨hclear.pitch_eq, hclear.drawn⟩
  column := column_ten
  row := row_ten

theorem DrawsInside.consoleScroll (h : DrawsInside pitch s) :
    DrawsInside pitch s.consoleScroll := by
  have hmove := h.drawRows (List.range (screenHeight - lineH)) .move
    fun y hy x hx => ⟨hx, Nat.add_lt_of_lt_sub (List.mem_range.mp hy)⟩
  have hblank := hmove.drawRows (List.range' (screenHeight - lineH) lineH)
    (fun x y => .blank x y s.currentBgColor)
    fun y hy x hx => ⟨hx, (List.mem_range'_1.mp hy).2⟩
  unfold State.consoleScroll
  dsimp only
  split
  · exact ⟨hblank.pitch_eq, hblank.drawn⟩
  · exact ⟨hblank.pitch_eq, hblank.drawn⟩

theorem consoleScroll_cursorX (s : State) : s.consoleScroll.cursorX = s.cursorX := by
  unfold State.consoleScroll
  dsimp only
  split <;> rfl

theorem consoleScroll_cursorY (s : State) : s.consoleScroll.cursorY =
    if s.cursorY - lineH < 10 then 10 else s.cursorY - lineH := by
  unfold State.consoleScroll
  dsimp only
  split
  · next h => exact (if_pos h).symm
  · next h => exact (if_neg h).symm

/-- The cursor of a backspace: one column to the left, or at the end of the line above. -/
theorem ConsoleInv.consoleBackspace (h : ConsoleInv pitch s) :
    ConsoleInv pitch s.consoleBackspace := by
  have hcolumn := h.column
  have hrow := h.row
  have hsizes := sizes
  have hlast := lastColumn
  have hdraw : ∀ t : State, DrawsInside pitch t → Column t.cursorX → Row t.cursorY →
      ConsoleInv pitch (t.drawRect t.cursorX t.cursorY charW charH t.currentBgColor) :=
    fun t ht hx hy => ⟨ht.drawRect hx hy _, hx, hy⟩
  unfold State.consoleBackspace
  apply hdraw
  · split_ifs
    all_goals exact ⟨h.pitch_eq, h.drawn⟩
  · unfold Column at hcolumn ⊢
    split_ifs
    · dsimp only
      omega
    · dsimp only
      omega
    · exact hcolumn
  · unfold Row at hrow ⊢
    split_ifs
    · exact hrow
    · dsimp only
      omega
    · exact hrow

/-- The branch of `console_putc` for a line feed. -/
def State.newline (s : State) : State :=
  let s : State := { s with cursorX := 10, cursorY := s.cursorY + lineH }
  if s.cursorY + charH > screenHeight - 10 then s.consoleScroll else s

theorem consolePutc_newline (depth : ℕ) (s : State) :
    s.consolePutc (depth + 1) 10 = some s.newline := rfl

/-- A line feed moves to the next row, or scrolls and stays in the last one. -/
theorem ConsoleInv.newline (h : DrawsInside pitch s) (hrow : Row s.cursorY) :
    ConsoleInv pitch s.newline := by
  have hsizes := sizes
  unfold State.newline
  dsimp only
  have hmoved : DrawsInside pitch { s with cursorX := 10, cursorY := s.cursorY + lineH } :=
    ⟨h.pitch_eq, h.drawn⟩
  split
  · refine ⟨hmoved.consoleScroll, ?_, ?_⟩
    · rw [consoleScroll_cursorX]
      exact column_ten
    · rw [consoleScroll_cursorY]
      unfold Row at hrow ⊢
      dsimp only
      split_ifs
      · omega
      · omega
  · next hroom =>
    refine ⟨hmoved, column_ten, ?_⟩
    unfold Row at hrow ⊢
    dsimp only at hroom ⊢
    omega

/-- A character that `console_putc` draws. -/
def Drawn (c : UInt8) : Prop := c ≠ 10 ∧ c ≠ 8

instance (c : UInt8) : Decidable (Drawn c) := inferInstanceAs (Decidable (_ ∧ _))

/-- A character is drawn and the cursor moves behind it. -/
def State.typed (s : State) (c : UInt8) : State :=
  { s.drawChar c s.cursorX s.cursorY s.currentFgColor with cursorX := s.cursorX + charW }

/-- The cursor behind a character is past the right margin. -/
def State.Wraps (s : State) : Prop := s.cursorX + charW > screenWidth - 10

theorem consolePutc_typed {c : UInt8} (hc : Drawn c) (s : State) (hroom : ¬s.Wraps) (depth : ℕ) :
    s.consolePutc (depth + 1) c = some (s.typed c) := by
  rw [State.consolePutc, if_neg hc.1, if_neg hc.2]
  exact if_neg hroom

theorem consolePutc_wraps {c : UInt8} (hc : Drawn c) (s : State) (hwrap : s.Wraps) (depth : ℕ) :
    s.consolePutc (depth + 2) c = some (s.typed c).newline := by
  rw [State.consolePutc, if_neg hc.1, if_neg hc.2, ← consolePutc_newline depth]
  exact if_pos hwrap

/-- A character, a wrap included, needs two calls of `console_putc` at most. -/
theorem ConsoleInv.consolePutc (h : ConsoleInv pitch s) (c : UInt8) :
    ∃ t, (∀ depth, s.consolePutc (depth + 2) c = some t) ∧ ConsoleInv pitch t := by
  have hcolumn := h.column
  have hsizes := sizes
  by_cases hnewline : c = 10
  · subst hnewline
    exact ⟨_, fun depth => consolePutc_newline (depth + 1) s, .newline h.toDrawsInside h.row⟩
  by_cases hback : c = 8
  · subst hback
    exact ⟨_, fun _ => rfl, h.consoleBackspace⟩
  have hc : Drawn c := ⟨hnewline, hback⟩
  have hdrawn := h.toDrawsInside.drawChar c hcolumn h.row s.currentFgColor
  have htyped : DrawsInside pitch (s.typed c) := ⟨hdrawn.pitch_eq, hdrawn.drawn⟩
  by_cases hwrap : s.Wraps
  · exact ⟨_, consolePutc_wraps hc s hwrap, .newline htyped h.row⟩
  · refine ⟨_, fun depth => consolePutc_typed hc s hwrap (depth + 1), htyped, ?_, h.row⟩
    unfold State.Wraps at hwrap
    unfold Column at hcolumn ⊢
    unfold State.typed
    dsimp only
    omega

theorem ConsoleInv.consolePrint (h : ConsoleInv pitch s) (str : List UInt8) :
    ∃ t, (∀ depth, s.consolePrint (depth + 2) str = some t) ∧ ConsoleInv pitch t := by
  induction str generalizing s with
  | nil => exact ⟨s, fun _ => rfl, h⟩
  | cons c str ih =>
    by_cases hend : c = 0
    · exact ⟨s, fun depth => by rw [State.consolePrint, if_pos hend], h⟩
    · obtain ⟨u, hputc, hu⟩ := h.consolePutc c
      obtain ⟨t, hprint, ht⟩ := ih hu
      refine ⟨t, fun depth => ?_, ht⟩
      rw [State.consolePrint, if_neg hend, hputc, Option.bind_some, hprint]

/-- Every call returns and keeps the cursor on its grid. -/
theorem ConsoleInv.step (h : ConsoleInv pitch s) (call : Call) :
    ∃ t, (∀ depth, step (depth + 2) s call = some t) ∧ ConsoleInv pitch t := by
  cases call with
  | putc c => exact h.consolePutc c
  | print str => exact h.consolePrint str
  | backspace => exact ⟨_, fun _ => rfl, h.consoleBackspace⟩
  | clear => exact ⟨_, fun _ => rfl, .start h.toDrawsInside⟩
  | setBgColor color =>
    exact ⟨s.setBgColor color, fun _ => rfl, ⟨h.pitch_eq, h.drawn⟩, h.column, h.row⟩

theorem consoleInit_inv (fbPitch : UInt64) :
    ConsoleInv (fbPitch / 4).toUInt32 (State.consoleInit fbPitch) :=
  .start ⟨rfl, fun _ ha => absurd ha List.not_mem_nil⟩

/-! ## Runs -/

theorem exec_inv (fbPitch : UInt64) (calls : List Call) :
    ∃ s, (∀ depth, exec (step (depth + 2)) (State.consoleInit fbPitch) calls = some s) ∧
      ConsoleInv (fbPitch / 4).toUInt32 s :=
  exec_total (f := fun depth => step (depth + 2)) (ConsoleInv (fbPitch / 4).toUInt32)
    (fun _ call h => h.step call) (consoleInit_inv fbPitch) calls

theorem inv_of_exec {fbPitch : UInt64} {calls : List Call} {depth : ℕ} {s : State}
    (hrun : exec (step (depth + 2)) (State.consoleInit fbPitch) calls = some s) :
    ConsoleInv (fbPitch / 4).toUInt32 s := by
  obtain ⟨t, ht, inv⟩ := exec_inv fbPitch calls
  exact Option.some.inj ((ht depth).symm.trans hrun) ▸ inv

/-- Whatever calls are made after `console_init`, they return, with two calls of `console_putc` open
at most, and every access they make is on the screen. -/
theorem console_draws_on_screen (fbPitch : UInt64) (calls : List Call) :
    ∃ s, (∀ depth, exec (step (depth + 2)) (State.consoleInit fbPitch) calls = some s) ∧
      ∀ a ∈ s.drawn, a.OnScreen (fbPitch / 4).toUInt32 := by
  obtain ⟨s, hrun, inv⟩ := exec_inv fbPitch calls
  exact ⟨s, hrun, inv.drawn⟩

/-- At the right end of a line one call is not enough. -/
example : ({ State.consoleInit 0 with cursorX := 1010 } : State).consolePutc 1 65 = none := rfl

/-! ## The framebuffer -/

/-- A pixel of a row that is there. -/
theorem offset_lt {x y p : ℕ} (hx : x < p) (hy : y < screenHeight) :
    y * p + x < screenHeight * p :=
  calc y * p + x < y * p + p := by omega
    _ = (y + 1) * p := (Nat.succ_mul y p).symm
    _ ≤ screenHeight * p := Nat.mul_le_mul_right p hy

/-- The product of 32 bits is no further than the row itself. -/
theorem rowStart_le (pitch : UInt32) (y : ℕ) : rowStart pitch y ≤ y * pitch.toNat := by
  unfold rowStart
  norm_cast
  exact Nat.mod_le _ _

theorem pixelOffset_le (pitch : UInt32) (x y : ℕ) :
    pixelOffset pitch x y ≤ y * pitch.toNat + x := by
  unfold pixelOffset
  norm_cast
  exact Nat.mod_le _ _

/-- What is written on the screen is written in the framebuffer. -/
theorem Access.OnScreen.target_lt {a : Access} {w : ℕ} (h : a.OnScreen pitch)
    (hpitch : screenWidth ≤ pitch.toNat) (hw : a.target pitch = some w) :
    w < screenHeight * pitch.toNat := by
  cases a with
  | glyph index row => cases hw
  | pixel x y color =>
    obtain rfl := Option.some.inj hw
    obtain ⟨⟨hx, hwidth⟩, hy, hheight⟩ := h
    lift x to ℕ using hx
    lift y to ℕ using hy
    exact (pixelOffset_le pitch x y).trans_lt (offset_lt (by omega) (by omega))
  | clear x y color =>
    obtain rfl := Option.some.inj hw
    exact offset_lt h.1 h.2
  | move x y =>
    obtain rfl := Option.some.inj hw
    have hrow := rowStart_le pitch y
    have hlt := offset_lt h.1 (Nat.lt_of_add_right_lt h.2)
    omega
  | blank x y color =>
    obtain rfl := Option.some.inj hw
    have hrow := rowStart_le pitch y
    have hlt := offset_lt h.1 h.2
    omega

theorem Access.apply_of_ne {a : Access} {w : ℕ} (fb : ℕ → UInt32) (h : a.target pitch ≠ some w) :
    a.apply pitch fb w = fb w := by
  cases a with
  | glyph index row => rfl
  | pixel x y color => exact Function.update_of_ne (fun hw => h (congrArg some hw.symm)) _ _
  | clear x y color => exact Function.update_of_ne (fun hw => h (congrArg some hw.symm)) _ _
  | move x y => exact Function.update_of_ne (fun hw => h (congrArg some hw.symm)) _ _
  | blank x y color => exact Function.update_of_ne (fun hw => h (congrArg some hw.symm)) _ _

/-- No word behind the framebuffer changes. -/
theorem DrawsInside.framebuffer_eq {w : ℕ} (h : DrawsInside pitch s)
    (hpitch : screenWidth ≤ pitch.toNat) (hw : screenHeight * pitch.toNat ≤ w)
    (fb : ℕ → UInt32) : s.framebuffer fb w = fb w := by
  have hdrawn := h.drawn
  unfold State.framebuffer
  rw [h.pitch_eq]
  generalize s.drawn = drawn at hdrawn
  induction drawn generalizing fb with
  | nil => rfl
  | cons a drawn ih =>
    rw [List.forall_mem_cons] at hdrawn
    rw [List.foldl_cons, ih _ hdrawn.2]
    apply Access.apply_of_ne
    intro htarget
    have hlt := hdrawn.1.target_lt hpitch htarget
    omega

/-- With rows of at least 1024 pixels the calls write to the framebuffer alone. -/
theorem console_keeps_memory {fbPitch : UInt64} {calls : List Call} {w : ℕ}
    (hpitch : screenWidth ≤ (fbPitch / 4).toUInt32.toNat)
    (hrun : exec (step (depth + 2)) (State.consoleInit fbPitch) calls = some s)
    (hw : screenHeight * (fbPitch / 4).toUInt32.toNat ≤ w) (fb : ℕ → UInt32) :
    s.framebuffer fb w = fb w :=
  (inv_of_exec hrun).framebuffer_eq hpitch hw fb

end QuillOS.Console
