import QuillOS.Console.Screen

/-!
# Text on the screen

What was printed since the last `console_clear` is a document: its lines end at a line feed or after
126 characters, and the first one starts at pixel (10, 10). The screen is the window on the document
that has its last line in it. A line that has left the window still shows in the pixels above the
first line.
-/

namespace QuillOS.Console

open Lib Lib.Raster

abbrev lineChars : ℕ := 126
abbrev screenLines : ℕ := 62

/-! ## Documents -/

/-- The lines that have ended and the one the cursor is in. -/
structure Text where
  full : List (List UInt8)
  last : List UInt8
  deriving DecidableEq

namespace Text

def empty : Text := ⟨[], []⟩

def endLine (t : Text) : Text := ⟨t.full ++ [t.last], []⟩

def type (t : Text) (c : UInt8) : Text := { t with last := t.last ++ [c] }

/-- A character is put at the end. `none` for a backspace at the start of a line but the first. -/
def put (t : Text) (c : UInt8) : Option Text :=
  if c = 10 then some t.endLine
  else if c = 8 then
    if t.last = [] then if t.full = [] then some t else none
    else some { t with last := t.last.dropLast }
  else if t.last.length + 1 < lineChars then some (t.type c)
  else some (t.type c).endLine

def putAll (t : Text) (cs : List UInt8) : Option Text := cs.foldlM put t

/-- The character in a line and column. -/
def cell (t : Text) (line col : ℕ) : Option UInt8 :=
  ((t.full ++ [t.last])[line]?).bind fun cs => cs[col]?

/-- The pixels of the drawn document. -/
def Ink (t : Text) (x y : ℕ) : Prop :=
  ∃ c, t.cell (y / 12) (x / 8) = some c ∧ y % 12 < 8 ∧ Inks c (y % 12) (x % 8)

/-- The lines that have left the screen. -/
def scrolled (t : Text) : ℕ := t.full.length + 1 - screenLines

/-- The pixels of the window. -/
def Shown (t : Text) (x y : ℕ) : Prop :=
  10 ≤ x ∧ 10 ≤ y + 12 * t.scrolled ∧ t.Ink (x - 10) (y + 12 * t.scrolled - 10)

def cursorX (t : Text) : ℕ := 10 + 8 * t.last.length

def cursorY (t : Text) : ℕ := 10 + 12 * (t.full.length - t.scrolled)

instance (t : Text) (x y : ℕ) : Decidable (t.Ink x y) :=
  match h : t.cell (y / 12) (x / 8) with
  | none => isFalse (by rintro ⟨c, hc, -⟩; rw [h] at hc; cases hc)
  | some c => decidable_of_iff (y % 12 < 8 ∧ Inks c (y % 12) (x % 8))
      ⟨fun hc => ⟨c, h, hc⟩, by rintro ⟨c', hc', hink⟩; rw [h] at hc'; cases hc'; exact hink⟩

instance (t : Text) (x y : ℕ) : Decidable (t.Shown x y) := inferInstanceAs (Decidable (_ ∧ _))

variable {t : Text} {x y line col : ℕ} {c : UInt8}

theorem cell_eq (t : Text) (line col : ℕ) : t.cell line col =
    if line < t.full.length then (t.full[line]?).bind fun cs => cs[col]?
    else if line = t.full.length then t.last[col]? else none := by
  unfold cell
  rw [List.getElem?_append]
  split_ifs with hlt heq
  · rfl
  · subst heq
    rw [Nat.sub_self]
    rfl
  · rw [List.getElem?_eq_none (by simp; omega)]
    rfl

/-- A character that is typed is in the next cell, where there was none. -/
theorem cell_type (t : Text) (c : UInt8) (line col : ℕ) : (t.type c).cell line col =
    if line = t.full.length ∧ col = t.last.length then some c else t.cell line col := by
  rw [cell_eq, cell_eq]
  dsimp only [type]
  by_cases hline : line = t.full.length
  · subst hline
    simp only [lt_irrefl, if_false, if_true, true_and]
    by_cases hcol : col = t.last.length
    · subst hcol
      rw [if_pos rfl, List.getElem?_concat_length]
    · rw [if_neg hcol, List.getElem?_append]
      split
      · rfl
      · rw [List.getElem?_eq_none (by simp; omega), List.getElem?_eq_none (by omega)]
  · simp only [hline, false_and, if_false]

theorem cell_next (t : Text) : t.cell t.full.length t.last.length = none := by
  rw [cell_eq, if_neg (lt_irrefl _), if_pos rfl, List.getElem?_eq_none le_rfl]

/-- The line that is begun is empty. -/
theorem cell_endLine (t : Text) (line col : ℕ) : t.endLine.cell line col = t.cell line col := by
  unfold cell endLine
  dsimp only
  rw [List.getElem?_append]
  split
  · rfl
  · rename_i hout
    rw [List.getElem?_eq_none (not_lt.mp hout)]
    cases line - (t.full ++ [t.last]).length with
    | zero => rfl
    | succ k => rfl

theorem ink_endLine (t : Text) (x y : ℕ) : t.endLine.Ink x y ↔ t.Ink x y := by
  unfold Ink
  rw [cell_endLine]

theorem scrolled_le (t : Text) : t.scrolled ≤ t.full.length := by
  unfold scrolled screenLines
  omega

/-- The cell at the cursor. -/
theorem inCell_cursor (t : Text) (x y : ℕ) : InCell t.cursorX t.cursorY x y ↔
    10 ≤ x ∧ 10 ≤ y + 12 * t.scrolled ∧ (y + 12 * t.scrolled - 10) / 12 = t.full.length ∧
      (x - 10) / 8 = t.last.length ∧ (y + 12 * t.scrolled - 10) % 12 < 8 := by
  have hscrolled := t.scrolled_le
  unfold InCell cursorX cursorY
  omega

/-- A character that is typed adds its pixels. -/
theorem shown_type (t : Text) (c : UInt8) (x y : ℕ) : (t.type c).Shown x y ↔
    t.Shown x y ∨ InCell t.cursorX t.cursorY x y ∧ Inks c (y - t.cursorY) (x - t.cursorX) := by
  have hscrolled : (t.type c).scrolled = t.scrolled := rfl
  unfold Shown Ink
  rw [hscrolled]
  simp only [cell_type]
  by_cases hcell : (y + 12 * t.scrolled - 10) / 12 = t.full.length ∧ (x - 10) / 8 = t.last.length
  · obtain ⟨hline, hcol⟩ := hcell
    simp only [hline, hcol, and_self, if_true, cell_next, Option.some_inj, reduceCtorEq,
      false_and, exists_false, and_false, false_or, exists_eq_left', inCell_cursor, true_and]
    have hrow : (y + 12 * t.scrolled - 10) % 12 = y - t.cursorY := by
      have hle := t.scrolled_le
      unfold cursorY
      omega
    have hx : (x - 10) % 8 = x - t.cursorX := by
      unfold cursorX
      omega
    rw [hrow, hx]
    tauto
  · rw [if_neg hcell, inCell_cursor]
    refine ⟨.inl, ?_⟩
    rintro (hshown | ⟨⟨-, -, hline, hcol, -⟩, -⟩)
    · exact hshown
    · exact absurd ⟨hline, hcol⟩ hcell

theorem not_shown_cursor (h : InCell t.cursorX t.cursorY x y) : ¬t.Shown x y := by
  obtain ⟨-, -, hline, hcol, -⟩ := (t.inCell_cursor x y).mp h
  rintro ⟨-, -, c, hc, -⟩
  rw [hline, hcol, cell_next] at hc
  cases hc

theorem not_shown_empty (x y : ℕ) : ¬empty.Shown x y := by
  rintro ⟨-, -, c, hc, -⟩
  rw [cell_eq] at hc
  simp [empty] at hc

/-- Below the window there is no line. -/
theorem not_shown_below (hlast : screenLines ≤ t.full.length + 1) (hy : screenHeight ≤ y) :
    ¬t.Shown x y := by
  rintro ⟨-, -, c, hc, -⟩
  unfold screenLines at hlast
  unfold screenHeight at hy
  rw [cell_eq, if_neg (by unfold scrolled screenLines; omega),
    if_neg (by unfold scrolled screenLines; omega)] at hc
  cases hc

theorem shown_endLine (hroom : t.full.length + 1 < screenLines) (x y : ℕ) :
    t.endLine.Shown x y ↔ t.Shown x y := by
  have hscrolled : t.endLine.scrolled = t.scrolled := by
    unfold scrolled endLine screenLines at *
    rw [List.length_append, List.length_singleton]
    omega
  unfold Shown
  rw [hscrolled, ink_endLine]

/-- A line that ends in the last row moves the window by one line. -/
theorem shown_endLine_scroll (hlast : screenLines ≤ t.full.length + 1) (x y : ℕ) :
    t.endLine.Shown x y ↔ t.Shown x (y + 12) := by
  have hscrolled : t.endLine.scrolled = t.scrolled + 1 := by
    unfold scrolled endLine screenLines at *
    rw [List.length_append, List.length_singleton]
    omega
  unfold Shown
  rw [hscrolled, ink_endLine, show y + 12 * (t.scrolled + 1) = y + 12 + 12 * t.scrolled by omega]

theorem endLine_room (t : Text) : t.endLine.last.length < lineChars := Nat.succ_pos 125

end Text

/-! ## The screen and the document -/

variable {s : State} {t : Text} {c : UInt8}

/-- The framebuffer has the picture of the document in the two colors. -/
def Pictures (t : Text) (s : State) : Prop :=
  ∀ fb, ∀ x < s.pitch.toNat, ∀ y < screenHeight, s.framebuffer fb (word s.pitch.toNat x y) =
    if t.Shown x y then s.currentFgColor else s.currentBgColor

/-- The screen shows the document, and the cursor is behind it. -/
structure Shows (t : Text) (s : State) : Prop where
  fits : Fits s.pitch
  chars : t.last.length ≤ lineChars
  cursorX : s.cursorX = t.cursorX
  cursorY : s.cursorY = t.cursorY
  picture : Pictures t s

theorem shows_clear (h : Fits s.pitch) : Shows .empty s.consoleClear where
  fits := h
  chars := Nat.zero_le _
  cursorX := rfl
  cursorY := rfl
  picture fb x hx y hy := by
    rw [if_neg (Text.not_shown_empty x y)]
    exact framebuffer_clear hx hy

/-- The cell at the cursor is on the screen. -/
theorem Text.cursor_le (hchars : t.last.length < lineChars) :
    t.cursorX + 8 ≤ screenWidth ∧ t.cursorY + 8 ≤ screenHeight := by
  unfold lineChars at hchars
  unfold Text.cursorX Text.cursorY Text.scrolled screenLines screenWidth screenHeight
  omega

theorem Shows.typed (h : Shows t s) (hroom : t.last.length < lineChars) (c : UInt8) :
    Shows (t.type c) (s.typed c) := by
  obtain ⟨hx₀, hy₀⟩ := Text.cursor_le hroom
  refine ⟨h.fits, ?_, ?_, h.cursorY, fun fb x hx y hy => ?_⟩
  · unfold Text.type
    rw [List.length_append]
    exact hroom
  · unfold State.typed Text.type
    dsimp only
    rw [h.cursorX]
    unfold Text.cursorX
    rw [List.length_append, List.length_singleton]
    have hsizes := sizes
    push_cast
    omega
  · change (s.drawChar c s.cursorX s.cursorY s.currentFgColor).framebuffer fb
      (word s.pitch.toNat x y) = if _ then s.currentFgColor else s.currentBgColor
    rw [h.cursorX, h.cursorY, framebuffer_drawChar h.fits c hx₀ hy₀ hx, h.picture fb x hx y hy]
    simp only [Text.shown_type]
    by_cases hcell : InCell t.cursorX t.cursorY x y ∧ Inks c (y - t.cursorY) (x - t.cursorX)
    · rw [if_pos hcell, if_pos (Or.inr hcell)]
    · rw [if_neg hcell]
      simp only [hcell, or_false]

theorem consoleScroll_fields (s : State) : s.consoleScroll.pitch = s.pitch ∧
    s.consoleScroll.currentFgColor = s.currentFgColor ∧
      s.consoleScroll.currentBgColor = s.currentBgColor := by
  unfold State.consoleScroll
  dsimp only
  split <;> exact ⟨rfl, rfl, rfl⟩

/-- A line feed in the last row moves the picture up with the window. -/
theorem Pictures.scroll (h : Pictures t s) (hfits : Fits s.pitch)
    (hlast : screenLines ≤ t.full.length + 1) : Pictures t.endLine s.consoleScroll := by
  obtain ⟨hpitch, hfg, hbg⟩ := consoleScroll_fields s
  intro fb x hx y hy
  rw [hpitch] at hx ⊢
  rw [hfg, hbg, framebuffer_scroll hfits hx hy]
  simp only [Text.shown_endLine_scroll hlast]
  split
  · rename_i hin
    exact h fb x hx (y + lineH) hin
  · rename_i hout
    rw [if_neg (Text.not_shown_below hlast (not_lt.mp hout))]

/-- A line feed ends the line; in the last row it scrolls. -/
theorem Shows.newline (h : Shows t s) : Shows t.endLine s.newline := by
  have hsizes := sizes
  have hcursorY := h.cursorY
  unfold Text.cursorY Text.scrolled screenLines at hcursorY
  have hlen : t.endLine.full.length = t.full.length + 1 := by simp [Text.endLine]
  have hend : (t.endLine.cursorY : ℤ) = 10 + 12 * (t.full.length + 1 - (t.full.length + 2 - 62 : ℕ)) := by
    unfold Text.cursorY Text.scrolled screenLines
    rw [hlen]
    omega
  unfold State.newline
  dsimp only
  split
  · rename_i hscroll
    have hlast : screenLines ≤ t.full.length + 1 := by
      unfold screenLines
      omega
    have hmoved : Pictures t { s with cursorX := 10, cursorY := s.cursorY + lineH } := h.picture
    refine ⟨?_, Nat.zero_le _, ?_, ?_, hmoved.scroll h.fits hlast⟩
    · rw [(consoleScroll_fields _).1]
      exact h.fits
    · rw [consoleScroll_cursorX]
      rfl
    · rw [consoleScroll_cursorY, hend]
      dsimp only
      unfold screenLines at hlast
      split_ifs <;> omega
  · rename_i hstay
    refine ⟨h.fits, Nat.zero_le _, rfl, ?_, fun fb x hx y hy => ?_⟩
    · rw [hend]
      dsimp only
      omega
    · have hroom : t.full.length + 1 < screenLines := by
        unfold screenLines
        omega
      simp only [Text.shown_endLine hroom]
      exact h.picture fb x hx y hy

/-- A backspace behind a character takes it back. -/
theorem Shows.backspace (h : Shows (t.type c) s) : Shows t s.consoleBackspace := by
  have hsizes := sizes
  have hchars : t.last.length < lineChars := by
    have := h.chars
    simp only [Text.type, List.length_append, List.length_singleton] at this
    exact this
  obtain ⟨hx₀, hy₀⟩ := Text.cursor_le hchars
  have hcursorX : s.cursorX - charW = t.cursorX := by
    rw [h.cursorX]
    unfold Text.cursorX Text.type
    rw [List.length_append, List.length_singleton]
    push_cast
    omega
  have hgt : s.cursorX > 10 := by
    unfold Text.cursorX at hcursorX
    omega
  rw [consoleBackspace_of_gt hgt]
  refine ⟨h.fits, hchars.le, hcursorX, h.cursorY, fun fb x hx y hy => ?_⟩
  rw [hcursorX, h.cursorY]
  change (State.drawRect { s with cursorX := t.cursorX } t.cursorX t.cursorY charW charH
    s.currentBgColor).framebuffer fb (word s.pitch.toNat x y) =
      if t.Shown x y then s.currentFgColor else s.currentBgColor
  rw [framebuffer_cell (s := { s with cursorX := t.cursorX }) h.fits hx₀ hy₀ hx]
  split
  · rename_i hcell
    rw [if_neg (Text.not_shown_cursor hcell)]
  · rename_i hcell
    have hold := h.picture fb x hx y hy
    simp only [Text.shown_type, hcell, false_and, or_false] at hold
    exact hold

/-- A backspace at the start of the document changes nothing. -/
theorem Shows.backspace_start (h : Shows .empty s) : Shows .empty s.consoleBackspace := by
  obtain ⟨hx₀, hy₀⟩ := Text.cursor_le (t := .empty) (by decide)
  have hstay : s.consoleBackspace =
      s.drawRect s.cursorX s.cursorY charW charH s.currentBgColor := by
    unfold State.consoleBackspace
    rw [if_neg, if_neg]
    · rw [h.cursorY]
      decide
    · rw [h.cursorX]
      decide
  rw [hstay]
  refine ⟨h.fits, h.chars, h.cursorX, h.cursorY, fun fb x hx y hy => ?_⟩
  rw [h.cursorX, h.cursorY]
  change (State.drawRect s Text.empty.cursorX Text.empty.cursorY charW charH
    s.currentBgColor).framebuffer fb (word s.pitch.toNat x y) =
      if Text.empty.Shown x y then s.currentFgColor else s.currentBgColor
  rw [framebuffer_cell h.fits hx₀ hy₀ hx, h.picture fb x hx y hy, if_neg (Text.not_shown_empty x y)]
  split <;> rfl

/-! ## Printing -/

/-- Between two characters the cursor has room for the next. -/
theorem Shows.put {t' : Text} (h : Shows t s) (hroom : t.last.length < lineChars)
    (hput : t.put c = some t') :
    t'.last.length < lineChars ∧
      ∃ s', (∀ depth, s.consolePutc (depth + 2) c = some s') ∧ Shows t' s' := by
  have hsizes := sizes
  have hcursorX := h.cursorX
  unfold Text.cursorX at hcursorX
  unfold Text.put at hput
  split_ifs at hput with hnewline hback hstart hfirst hfits
  · obtain rfl := Option.some.inj hput
    subst hnewline
    exact ⟨t.endLine_room, _, fun depth => consolePutc_newline (depth + 1) s, h.newline⟩
  · obtain rfl := Option.some.inj hput
    subst hback
    obtain rfl : t = .empty := by
      cases t
      exact congrArg₂ Text.mk hfirst hstart
    exact ⟨hroom, _, fun _ => rfl, h.backspace_start⟩
  · obtain rfl := Option.some.inj hput
    subst hback
    have htype : t = Text.type { t with last := t.last.dropLast } (t.last.getLast hstart) := by
      unfold Text.type
      rw [List.dropLast_append_getLast]
    rw [htype] at h
    refine ⟨?_, _, fun _ => rfl, h.backspace⟩
    rw [List.length_dropLast]
    omega
  · obtain rfl := Option.some.inj hput
    have hstay : ¬s.Wraps := by
      unfold State.Wraps
      unfold lineChars at hfits
      omega
    refine ⟨?_, _, fun depth => consolePutc_typed ⟨hnewline, hback⟩ s hstay (depth + 1),
      h.typed hroom c⟩
    unfold Text.type
    rwa [List.length_append]
  · obtain rfl := Option.some.inj hput
    have hwrap : s.Wraps := by
      unfold State.Wraps
      unfold lineChars at hfits
      omega
    exact ⟨(t.type c).endLine_room, _, consolePutc_wraps ⟨hnewline, hback⟩ s hwrap,
      (h.typed hroom c).newline⟩

theorem Shows.print {t' : Text} {str : List UInt8} (h : Shows t s)
    (hroom : t.last.length < lineChars) (hput : t.putAll (str.takeWhile (· ≠ 0)) = some t') :
    t'.last.length < lineChars ∧
      ∃ s', (∀ depth, s.consolePrint (depth + 2) str = some s') ∧ Shows t' s' := by
  induction str generalizing s t with
  | nil =>
    obtain rfl := Option.some.inj hput
    exact ⟨hroom, s, fun _ => rfl, h⟩
  | cons c str ih =>
    by_cases hend : c = 0
    · rw [List.takeWhile_cons_of_neg (by simpa using hend)] at hput
      obtain rfl := Option.some.inj hput
      exact ⟨hroom, s, fun depth => by rw [State.consolePrint, if_pos hend], h⟩
    · rw [List.takeWhile_cons_of_pos (by simpa using hend)] at hput
      obtain ⟨u, hu, hrest⟩ := Option.bind_eq_some_iff.mp hput
      obtain ⟨hnext, s₁, hputc, h₁⟩ := h.put hroom hu
      obtain ⟨hlast, s₂, hprint, h₂⟩ := ih h₁ hnext hrest
      refine ⟨hlast, s₂, fun depth => ?_, h₂⟩
      rw [State.consolePrint, if_neg hend, hputc, Option.bind_some, hprint]

/-- The calls that print. -/
def Call.isText : Call → Bool
  | .putc _ | .print _ | .backspace => true
  | .clear | .setBgColor _ => false

/-- The characters a call prints. -/
def Call.bytes : Call → List UInt8
  | .putc c => [c]
  | .print str => str.takeWhile (· ≠ 0)
  | .backspace => [8]
  | .clear | .setBgColor _ => []

theorem Shows.call {t' : Text} {call : Call} (h : Shows t s) (hroom : t.last.length < lineChars)
    (htext : call.isText = true) (hput : t.putAll call.bytes = some t') :
    t'.last.length < lineChars ∧ ∃ s', (∀ depth, step (depth + 2) s call = some s') ∧ Shows t' s' := by
  cases call with
  | putc c =>
    obtain ⟨u, hu, hrest⟩ := Option.bind_eq_some_iff.mp hput
    obtain rfl := Option.some.inj hrest
    exact h.put hroom hu
  | print str => exact h.print hroom hput
  | backspace =>
    obtain ⟨u, hu, hrest⟩ := Option.bind_eq_some_iff.mp hput
    obtain rfl := Option.some.inj hrest
    exact h.put hroom hu
  | clear => cases htext
  | setBgColor color => cases htext

theorem Shows.exec {t' : Text} {calls : List Call} (h : Shows t s)
    (hroom : t.last.length < lineChars) (htext : ∀ call ∈ calls, call.isText = true)
    (hput : t.putAll (calls.flatMap Call.bytes) = some t') :
    ∃ s', (∀ depth, Lib.exec (step (depth + 2)) s calls = some s') ∧ Shows t' s' := by
  induction calls generalizing s t with
  | nil =>
    obtain rfl := Option.some.inj hput
    exact ⟨s, fun _ => rfl, h⟩
  | cons call calls ih =>
    rw [List.forall_mem_cons] at htext
    rw [List.flatMap_cons, Text.putAll, List.foldlM_append] at hput
    obtain ⟨u, hu, hrest⟩ := Option.bind_eq_some_iff.mp hput
    obtain ⟨hnext, s₁, hstep, h₁⟩ := h.call hroom htext.1 hu
    obtain ⟨s₂, hexec, h₂⟩ := ih h₁ hnext htext.2 hrest
    refine ⟨s₂, fun depth => ?_, h₂⟩
    rw [Lib.exec, hstep, Option.bind_some, hexec]

/-- From a `console_clear` on, whatever is printed, the framebuffer holds the picture of the document
in the window on its last lines, and the cursor is behind the last character. -/
theorem screen_shows_text (fbPitch : UInt64) (before : List Call) (depth : ℕ) (s₀ : State)
    (hbefore : exec (step (depth + 2)) (State.consoleInit fbPitch) before = some s₀)
    (hwidth : 1024 ≤ (fbPitch / 4).toUInt32.toNat)
    (hwords : 768 * (fbPitch / 4).toUInt32.toNat < 2 ^ 32) (calls : List Call)
    (htext : ∀ call ∈ calls, call.isText = true) (t : Text)
    (ht : Text.empty.putAll (calls.flatMap Call.bytes) = some t) :
    ∃ s, (∀ depth, exec (step (depth + 2)) s₀.consoleClear calls = some s) ∧
      s.cursorX = t.cursorX ∧ s.cursorY = t.cursorY ∧
      ∀ fb, ∀ x < (fbPitch / 4).toUInt32.toNat, ∀ y < 768,
        s.framebuffer fb (y * (fbPitch / 4).toUInt32.toNat + x) =
          if t.Shown x y then s.currentFgColor else s.currentBgColor := by
  have hinv := inv_of_exec hbefore
  have hpitch := hinv.pitch_eq
  have hclear : Shows .empty s₀.consoleClear := shows_clear (by rw [hpitch]; exact ⟨hwidth, hwords⟩)
  obtain ⟨s, hexec, hs⟩ := hclear.exec (by decide) htext ht
  refine ⟨s, hexec, hs.cursorX, hs.cursorY, fun fb x hx y hy => ?_⟩
  have hstay : s.pitch = (fbPitch / 4).toUInt32 := by
    obtain ⟨u, hu, hkept⟩ := exec_total (f := fun depth => step (depth + 2))
      (ConsoleInv (fbPitch / 4).toUInt32) (fun _ call h => h.step call)
      (.start hinv.toDrawsInside) calls
    obtain rfl := Option.some.inj ((hu 0).symm.trans (hexec 0))
    exact hkept.pitch_eq
  have hpicture := hs.picture fb x (by rwa [hstay]) y hy
  rwa [hstay] at hpicture

/-- After `A`, a line feed, `B` and a backspace the screen has an `A` in its first line. -/
theorem screen_shows_text_lines : ∃ s,
    exec (step 2) (State.consoleInit 4096).consoleClear [.print [65, 10], .putc 66, .backspace] =
      some s ∧
      ∀ fb, ∀ x < 1024, ∀ y < 768, s.framebuffer fb (y * 1024 + x) =
        if Text.Shown ⟨[[65]], []⟩ x y then s.currentFgColor else s.currentBgColor := by
  obtain ⟨s, hexec, -, -, hpicture⟩ := screen_shows_text 4096 [] 0 (State.consoleInit 4096) rfl
    (by decide) (by decide) [.print [65, 10], .putc 66, .backspace] (by decide) ⟨[[65]], []⟩
    (by decide)
  exact ⟨s, hexec 0, hpicture⟩

/-- The top of the `A`. -/
example : Text.Shown ⟨[[65]], []⟩ 12 10 ∧ ¬Text.Shown ⟨[[65]], []⟩ 10 10 := by decide

end QuillOS.Console
