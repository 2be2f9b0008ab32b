import QuillOS.Console.Bounds

/-!
# Backspace

A backspace takes back a character that was typed inside a line. At the right margin it does not:
the character wraps at the columns 1010 and 1008, and a backspace from the next line goes to column
1000 in either case.
-/

namespace QuillOS.Console

open Lib

variable {s : State} {c : UInt8} {color pitch : UInt32} {w : ℕ}

/-- The line feed of a wrap scrolls the screen. -/
def State.Scrolls (s : State) : Prop :=
  s.Wraps ∧ s.cursorY + lineH + charH > screenHeight - 10

/-- After `console_putc` and `console_backspace` the cursor is where it was, and the cell of the
character has the color of the background, whatever the framebuffer held. -/
def BackspaceUndoes (s : State) (c : UInt8) : Prop :=
  ∃ t, (∀ depth, s.consolePutc (depth + 2) c = some t) ∧
    t.consoleBackspace.cursorX = s.cursorX ∧ t.consoleBackspace.cursorY = s.cursorY ∧
    ∀ fb, ∀ i < charH, ∀ j < charW,
      t.consoleBackspace.framebuffer fb (pixelOffset s.pitch (s.cursorX + j) (s.cursorY + i)) =
        s.currentBgColor

/-! ## The cell -/

theorem framebuffer_draw (s : State) (as : List Access) (fb : ℕ → UInt32) :
    (s.draw as).framebuffer fb = as.foldl (Access.apply s.pitch) (s.framebuffer fb) := by
  unfold State.framebuffer State.draw
  rw [List.foldl_append]

/-- Pixels of one color leave a word in that color, if it had the color or is one of theirs. -/
theorem foldl_pixels {as : List Access} {fb : ℕ → UInt32}
    (hcolor : ∀ a ∈ as, ∃ x y, a = .pixel x y color)
    (hw : fb w = color ∨ ∃ a ∈ as, a.target pitch = some w) :
    as.foldl (Access.apply pitch) fb w = color := by
  induction as generalizing fb with
  | nil => exact hw.resolve_right fun ⟨_, ha, _⟩ => List.not_mem_nil ha
  | cons a as ih =>
    rw [List.forall_mem_cons] at hcolor
    obtain ⟨⟨x, y, rfl⟩, hrest⟩ := hcolor
    apply ih hrest
    by_cases hself : pixelOffset pitch x y = w
    · left
      rw [← hself]
      exact Function.update_self _ _ _
    · rcases hw with hw | ⟨b, hb, htarget⟩
      · left
        have hother : (Access.pixel x y color).target pitch ≠ some w :=
          fun h => hself (Option.some.inj h)
        rw [Access.apply_of_ne fb hother, hw]
      · right
        rcases List.mem_cons.mp hb with rfl | hb
        · exact absurd (Option.some.inj htarget) hself
        · exact ⟨b, hb, htarget⟩

/-- A rectangle fills its cells. -/
theorem framebuffer_drawRect {x y : ℤ} {width height i j : ℕ} (s : State) (hi : i < height)
    (hj : j < width) (fb : ℕ → UInt32) :
    (s.drawRect x y width height color).framebuffer fb (pixelOffset s.pitch (x + j) (y + i)) =
      color := by
  unfold State.drawRect
  rw [framebuffer_draw]
  apply foldl_pixels
  · intro a ha
    obtain ⟨i', -, ha⟩ := List.mem_flatMap.mp ha
    obtain ⟨j', -, rfl⟩ := List.mem_map.mp ha
    exact ⟨_, _, rfl⟩
  · right
    refine ⟨.pixel (x + j) (y + i) color, ?_, rfl⟩
    exact List.mem_flatMap.mpr ⟨i, List.mem_range.mpr hi,
      List.mem_map.mpr ⟨j, List.mem_range.mpr hj, rfl⟩⟩

/-! ## The cursor -/

/-- Inside a line a backspace moves back by one character and blanks it. -/
theorem consoleBackspace_of_gt (h : s.cursorX > 10) : s.consoleBackspace =
    { s with cursorX := s.cursorX - charW }.drawRect (s.cursorX - charW) s.cursorY charW charH
      s.currentBgColor := by
  unfold State.consoleBackspace
  rw [if_pos h]

theorem consoleBackspace_cursorX_of_start (hx : s.cursorX = 10) (hy : s.cursorY > 10) :
    s.consoleBackspace.cursorX = 1000 := by
  unfold State.consoleBackspace
  rw [if_neg (by omega), if_pos hy]
  exact lastColumn

theorem newline_cursorX (s : State) : s.newline.cursorX = 10 := by
  unfold State.newline
  dsimp only
  split
  · exact consoleScroll_cursorX _
  · rfl

/-- A line feed never ends in the first row. -/
theorem newline_cursorY (hrow : Row s.cursorY) : s.newline.cursorY > 10 := by
  have hsizes := sizes
  unfold Row at hrow
  unfold State.newline
  dsimp only
  split
  · rw [consoleScroll_cursorY]
    dsimp only
    split_ifs
    all_goals omega
  · dsimp only
    omega

/-- The columns behind which a character does not fit any more. -/
theorem ConsoleInv.column_of_wraps (h : ConsoleInv pitch s) (hwrap : s.Wraps) :
    s.cursorX = 1008 ∨ s.cursorX = 1010 := by
  have hsizes := sizes
  have hcolumn := h.column
  unfold Column at hcolumn
  unfold State.Wraps at hwrap
  omega

theorem ConsoleInv.backspaceUndoes_iff (h : ConsoleInv pitch s) (hc : Drawn c) :
    BackspaceUndoes s c ↔ ¬s.Wraps := by
  constructor
  · rintro ⟨t, hputc, hx, -⟩ hwrap
    -- The backspace starts in column 10 of the next line.
    have hwrapped := hputc 0
    rw [consolePutc_wraps hc s hwrap] at hwrapped
    obtain rfl := Option.some.inj hwrapped
    rw [consoleBackspace_cursorX_of_start (newline_cursorX _)
      (newline_cursorY (s := s.typed c) h.row)] at hx
    have hcolumn := h.column_of_wraps hwrap
    omega
  · intro hroom
    have hcolumn := h.column
    have hsizes := sizes
    have hback : (s.typed c).cursorX - charW = s.cursorX := Int.add_sub_cancel _ _
    have hright : (s.typed c).cursorX > 10 := by
      unfold Column at hcolumn
      unfold State.typed
      dsimp only
      omega
    refine ⟨s.typed c, fun depth => consolePutc_typed hc s hroom (depth + 1), ?_⟩
    rw [consoleBackspace_of_gt hright, hback]
    exact ⟨rfl, rfl, fun fb i hi j hj => framebuffer_drawRect _ hi hj fb⟩

/-- In every state the console can be in, a backspace takes back the next character exactly if that
character does not wrap. One that scrolls the screen wraps too. -/
theorem backspace_undoes_iff (fbPitch : UInt64) (calls : List Call) (depth : ℕ) (s : State)
    (c : UInt8) (hrun : exec (step (depth + 2)) (State.consoleInit fbPitch) calls = some s)
    (hc : Drawn c) : BackspaceUndoes s c ↔ s.cursorX + charW ≤ screenWidth - 10 := by
  rw [(inv_of_exec hrun).backspaceUndoes_iff hc]
  exact not_lt

theorem backspace_undoes_iff_start :
    BackspaceUndoes (State.consoleInit 4096) 65 ↔
      (State.consoleInit 4096).cursorX + charW ≤ screenWidth - 10 :=
  backspace_undoes_iff 4096 [] 0 _ 65 rfl (by decide)

/-! ## The right margin -/

/-- A text that fits the line moves the cursor along it. -/
theorem exec_typed (s : State) (cs : List UInt8) (depth : ℕ) (hcs : ∀ c ∈ cs, Drawn c)
    (hroom : s.cursorX + 8 * cs.length ≤ 1014) :
    ∃ t, exec (step (depth + 2)) s (cs.map .putc) = some t ∧
      t.cursorX = s.cursorX + 8 * cs.length ∧ t.cursorY = s.cursorY := by
  have hsizes := sizes
  induction cs generalizing s with
  | nil => exact ⟨s, rfl, by simp, rfl⟩
  | cons c cs ih =>
    rw [List.forall_mem_cons] at hcs
    rw [List.length_cons] at hroom ⊢
    have hfits : ¬s.Wraps := by
      unfold State.Wraps
      omega
    have hx : (s.typed c).cursorX = s.cursorX + 8 := rfl
    obtain ⟨t, ht, htx, hty⟩ := ih (s.typed c) hcs.2 (by omega)
    refine ⟨t, ?_, ?_, hty⟩
    · change (s.consolePutc (depth + 2) c).bind _ = some t
      rw [consolePutc_typed hcs.1 s hfits (depth + 1), Option.bind_some]
      exact ht
    · omega

/-- After 125 characters the next one wraps, and a backspace takes the cursor to column 1000 instead
of 1010. -/
theorem backspace_after_wrap : ¬∀ (fbPitch : UInt64) (calls : List Call) (s : State) (c : UInt8),
    exec (step 2) (State.consoleInit fbPitch) calls = some s → Drawn c → ¬s.Scrolls →
      BackspaceUndoes s c := by
  intro hall
  have hsizes := sizes
  obtain ⟨s, hrun, hx, hy⟩ := exec_typed (State.consoleInit 4096) (List.replicate 125 65) 0
    (fun c hc => List.eq_of_mem_replicate hc ▸ by decide) (by rw [List.length_replicate]; decide)
  rw [List.length_replicate] at hx
  change s.cursorX = 1010 at hx
  change s.cursorY = 10 at hy
  have hstay : ¬s.Scrolls := by
    rintro ⟨-, hbottom⟩
    omega
  have hroom := ((inv_of_exec hrun).backspaceUndoes_iff (by decide)).mp
    (hall _ _ s 66 hrun (by decide) hstay)
  unfold State.Wraps at hroom
  omega

end QuillOS.Console
