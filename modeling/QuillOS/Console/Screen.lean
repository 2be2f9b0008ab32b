import QuillOS.Lib.Raster
import QuillOS.Console.Backspace

/-!
# Pixels on the screen

What each drawing function of the console makes of the picture in the framebuffer, when the words of
the picture have indices of 32 bits.
-/

namespace QuillOS.Console

open Lib Lib.Raster

/-! ## Pixels -/

/-- A framebuffer as wide as the screen, whose words have indices of 32 bits. -/
structure Fits (pitch : UInt32) : Prop where
  width : screenWidth ≤ pitch.toNat
  words : screenHeight * pitch.toNat < 2 ^ 32

variable {pitch color : UInt32} {s : State} {fb : ℕ → UInt32} {x y x₀ y₀ : ℕ}

theorem Fits.rowStart (h : Fits pitch) (hy : y < screenHeight) :
    rowStart pitch y = y * pitch.toNat := by
  have hle : y * pitch.toNat ≤ screenHeight * pitch.toNat := Nat.mul_le_mul_right _ hy.le
  unfold Console.rowStart
  norm_cast
  exact Nat.mod_eq_of_lt (hle.trans_lt h.words)

theorem Fits.pixelOffset (h : Fits pitch) (hx : x < screenWidth) (hy : y < screenHeight) :
    pixelOffset pitch x y = word pitch.toNat x y := by
  have hlt := word_lt (lt_of_lt_of_le hx h.width) hy
  unfold Console.pixelOffset
  unfold word at hlt ⊢
  norm_cast
  exact Nat.mod_eq_of_lt (hlt.trans h.words)

/-- The access puts a color where it writes. -/
def Access.Paints (pitch color : UInt32) (a : Access) : Prop :=
  ∀ fb w, a.apply pitch fb w = if a.target pitch = some w then color else fb w

theorem paints_update {a : Access} {k : ℕ} (htarget : a.target pitch = some k)
    (happly : ∀ fb, a.apply pitch fb = Function.update fb k color) : a.Paints pitch color := by
  intro fb w
  rw [happly, htarget, Function.update_apply]
  simp only [Option.some_inj, eq_comm]

theorem paints_pixel (x y : ℤ) : (Access.pixel x y color).Paints pitch color :=
  paints_update rfl fun _ => rfl

theorem paints_glyph (i row : ℕ) : (Access.glyph i row).Paints pitch color := fun _ _ => rfl

/-- Drawing in one color leaves the color where it draws. -/
theorem foldl_paint (color : UInt32) {as : List Access} {w : ℕ}
    (hcolor : ∀ a ∈ as, a.Paints pitch color) :
    as.foldl (Access.apply pitch) fb w =
      if ∃ a ∈ as, a.target pitch = some w then color else fb w := by
  induction as generalizing fb with
  | nil => simp
  | cons a as ih =>
    rw [List.forall_mem_cons] at hcolor
    rw [List.foldl_cons, ih hcolor.2, hcolor.1 fb w]
    by_cases hrest : ∃ b ∈ as, b.target pitch = some w
    · rw [if_pos hrest, if_pos (by simpa using .inr hrest)]
    · rw [if_neg hrest]
      congr 1
      simpa [eq_iff_iff] using fun b hb htarget => absurd ⟨b, hb, htarget⟩ hrest

/-- The pixels of a character. -/
def Inks (c : UInt8) (row col : ℕ) : Prop :=
  (font (if 127 < c then (63 : UInt8) else c).toNat row).toNat.testBit col = true

instance (c : UInt8) (row col : ℕ) : Decidable (Inks c row col) :=
  inferInstanceAs (Decidable (_ = true))

/-- A pixel of the cell at `(x₀, y₀)`. -/
def InCell (x₀ y₀ x y : ℕ) : Prop := (x₀ ≤ x ∧ x < x₀ + 8) ∧ y₀ ≤ y ∧ y < y₀ + 8

instance (x₀ y₀ x y : ℕ) : Decidable (InCell x₀ y₀ x y) := inferInstanceAs (Decidable (_ ∧ _))

/-- The word of a pixel is written for that pixel alone. -/
theorem Fits.target (h : Fits pitch) {i j : ℕ} (hx₀ : x₀ + 8 ≤ screenWidth)
    (hy₀ : y₀ + 8 ≤ screenHeight) (hi : i < 8) (hj : j < 8) (hx : x < pitch.toNat) :
    (Access.pixel ((x₀ : ℤ) + j) ((y₀ : ℤ) + i) color).target pitch = some (word pitch.toNat x y) ↔
      x = x₀ + j ∧ y = y₀ + i := by
  have hoffset := h.pixelOffset (x := x₀ + j) (y := y₀ + i) (by omega) (by omega)
  push_cast at hoffset
  change some (Console.pixelOffset pitch _ _) = _ ↔ _
  rw [hoffset, Option.some_inj]
  constructor
  · intro heq
    obtain ⟨hxeq, hyeq⟩ := word_inj (lt_of_lt_of_le (by omega) h.width) hx heq
    exact ⟨hxeq.symm, hyeq.symm⟩
  · rintro ⟨rfl, rfl⟩
    rfl

theorem framebuffer_drawChar (h : Fits s.pitch) (c : UInt8) (hx₀ : x₀ + 8 ≤ screenWidth)
    (hy₀ : y₀ + 8 ≤ screenHeight) (hx : x < s.pitch.toNat) :
    (s.drawChar c x₀ y₀ color).framebuffer fb (word s.pitch.toNat x y) =
      if InCell x₀ y₀ x y ∧ Inks c (y - y₀) (x - x₀) then color
      else s.framebuffer fb (word s.pitch.toNat x y) := by
  unfold State.drawChar
  rw [framebuffer_draw, foldl_paint color]
  · congr 1
    rw [eq_iff_iff]
    constructor
    · rintro ⟨a, ha, htarget⟩
      obtain ⟨row, hrow, ha⟩ := List.mem_flatMap.mp ha
      rcases List.mem_cons.mp ha with rfl | ha
      · cases htarget
      obtain ⟨col, hcol, rfl⟩ := List.mem_map.mp ha
      obtain ⟨hcol, hbit⟩ := List.mem_filter.mp hcol
      rw [List.mem_range] at hrow hcol
      obtain ⟨rfl, rfl⟩ := (h.target hx₀ hy₀ hrow hcol hx).mp htarget
      refine ⟨⟨⟨by omega, by omega⟩, by omega, by omega⟩, ?_⟩
      rwa [Nat.add_sub_cancel_left, Nat.add_sub_cancel_left]
    · rintro ⟨⟨⟨hxlo, hxhi⟩, hylo, hyhi⟩, hbit⟩
      refine ⟨.pixel ((x₀ : ℤ) + (x - x₀ : ℕ)) ((y₀ : ℤ) + (y - y₀ : ℕ)) color, ?_, ?_⟩
      · refine List.mem_flatMap.mpr ⟨y - y₀, List.mem_range.mpr (by omega), ?_⟩
        refine List.mem_cons_of_mem _ (List.mem_map.mpr ⟨x - x₀, ?_, rfl⟩)
        exact List.mem_filter.mpr ⟨List.mem_range.mpr (by omega), hbit⟩
      · exact (h.target hx₀ hy₀ (by omega) (by omega) hx).mpr ⟨by omega, by omega⟩
  · intro a ha
    obtain ⟨row, -, ha⟩ := List.mem_flatMap.mp ha
    rcases List.mem_cons.mp ha with rfl | ha
    · exact paints_glyph _ _
    · obtain ⟨col, -, rfl⟩ := List.mem_map.mp ha
      exact paints_pixel _ _

theorem framebuffer_cell (h : Fits s.pitch) (hx₀ : x₀ + 8 ≤ screenWidth)
    (hy₀ : y₀ + 8 ≤ screenHeight) (hx : x < s.pitch.toNat) :
    (s.drawRect x₀ y₀ charW charH color).framebuffer fb (word s.pitch.toNat x y) =
      if InCell x₀ y₀ x y then color else s.framebuffer fb (word s.pitch.toNat x y) := by
  have hsizes := sizes
  unfold State.drawRect
  rw [framebuffer_draw, foldl_paint color]
  · congr 1
    rw [eq_iff_iff]
    constructor
    · rintro ⟨a, ha, htarget⟩
      obtain ⟨i, hi, ha⟩ := List.mem_flatMap.mp ha
      obtain ⟨j, hj, rfl⟩ := List.mem_map.mp ha
      rw [List.mem_range] at hi hj
      obtain ⟨rfl, rfl⟩ := (h.target hx₀ hy₀ hi hj hx).mp htarget
      exact ⟨⟨by omega, by omega⟩, by omega, by omega⟩
    · rintro ⟨⟨hxlo, hxhi⟩, hylo, hyhi⟩
      refine ⟨.pixel ((x₀ : ℤ) + (x - x₀ : ℕ)) ((y₀ : ℤ) + (y - y₀ : ℕ)) color, ?_, ?_⟩
      · exact List.mem_flatMap.mpr ⟨y - y₀, List.mem_range.mpr (by omega),
          List.mem_map.mpr ⟨x - x₀, List.mem_range.mpr (by omega), rfl⟩⟩
      · exact (h.target hx₀ hy₀ (by omega) (by omega) hx).mpr ⟨by omega, by omega⟩
  · intro a ha
    obtain ⟨i, -, ha⟩ := List.mem_flatMap.mp ha
    obtain ⟨j, -, rfl⟩ := List.mem_map.mp ha
    exact paints_pixel _ _

theorem framebuffer_clear (hx : x < s.pitch.toNat) (hy : y < screenHeight) :
    s.consoleClear.framebuffer fb (word s.pitch.toNat x y) = s.currentBgColor := by
  have hdraw : s.consoleClear.framebuffer fb =
      (s.draw ((List.range screenHeight).flatMap fun y =>
        (List.range s.pitch.toNat).map fun x => .clear x y s.currentBgColor)).framebuffer fb := rfl
  rw [hdraw, framebuffer_draw, foldl_paint s.currentBgColor]
  · refine if_pos ⟨.clear x y s.currentBgColor, ?_, rfl⟩
    exact List.mem_flatMap.mpr ⟨y, List.mem_range.mpr hy,
      List.mem_map.mpr ⟨x, List.mem_range.mpr hx, rfl⟩⟩
  · intro a ha
    obtain ⟨y', -, ha⟩ := List.mem_flatMap.mp ha
    obtain ⟨x', -, rfl⟩ := List.mem_map.mp ha
    exact paints_update rfl fun _ => rfl

/-- The copies of `console_scroll` are made word by word. -/
theorem foldl_moves (h : Fits pitch) (fb : ℕ → UInt32) :
    ((List.range (screenHeight - lineH)).flatMap fun y =>
      (List.range pitch.toNat).map fun x => Access.move x y).foldl (Access.apply pitch) fb =
    (List.range ((screenHeight - lineH) * pitch.toNat)).foldl
      (fun m k => Function.update m k (m (k + lineH * pitch.toNat))) fb := by
  have hrows := flatMap_rows id pitch.toNat (screenHeight - lineH)
  rw [List.map_id] at hrows
  rw [← hrows, List.foldl_flatMap, List.foldl_flatMap]
  apply List.foldl_ext
  intro m y hy
  rw [List.foldl_map, List.foldl_map]
  apply List.foldl_ext
  intro m x _
  rw [List.mem_range] at hy
  have hto := h.rowStart (y := y) (by omega)
  have hback := h.rowStart (y := y + lineH) (by omega)
  rw [Nat.cast_add] at hback
  unfold Access.apply
  simp only [id_eq, word]
  rw [hto, hback, Nat.add_mul, Nat.add_right_comm]

theorem framebuffer_scroll (h : Fits s.pitch) (hx : x < s.pitch.toNat) (hy : y < screenHeight) :
    s.consoleScroll.framebuffer fb (word s.pitch.toNat x y) =
      if y + lineH < screenHeight then s.framebuffer fb (word s.pitch.toNat x (y + lineH))
      else s.currentBgColor := by
  have hsizes := sizes
  have hdraw : s.consoleScroll.framebuffer fb =
      ((s.draw ((List.range (screenHeight - lineH)).flatMap fun y =>
        (List.range s.pitch.toNat).map fun x => .move x y)).draw
          ((List.range' (screenHeight - lineH) lineH).flatMap fun y =>
            (List.range s.pitch.toNat).map fun x => .blank x y s.currentBgColor)).framebuffer fb := by
    unfold State.consoleScroll
    dsimp only
    split <;> rfl
  rw [hdraw, framebuffer_draw, foldl_paint s.currentBgColor]
  · have htarget : ∀ x' < s.pitch.toNat, ∀ y' < screenHeight,
        (Access.blank x' y' s.currentBgColor).target s.pitch = some (word s.pitch.toNat x' y') := by
      intro x' _ y' hy'
      change some (Console.rowStart _ _ + x') = _
      rw [h.rowStart hy', word]
    by_cases hlast : y + lineH < screenHeight
    · rw [if_pos hlast, if_neg, framebuffer_draw, foldl_moves h,
        foldl_move (Nat.mul_pos (by decide) (Nat.zero_lt_of_lt hx)), if_pos (word_lt hx (by omega))]
      · unfold word
        rw [Nat.add_mul y, Nat.add_right_comm]
      · rintro ⟨a, ha, hw⟩
        obtain ⟨y', hy', ha⟩ := List.mem_flatMap.mp ha
        obtain ⟨x', hx', rfl⟩ := List.mem_map.mp ha
        rw [List.mem_range] at hx'
        rw [List.mem_range'_1] at hy'
        have hw := (htarget x' hx' y' (by omega)).symm.trans hw
        have := (word_inj hx' hx (Option.some.inj hw)).2
        omega
    · rw [if_neg hlast, if_pos]
      refine ⟨.blank x y s.currentBgColor, ?_, htarget x hx y hy⟩
      exact List.mem_flatMap.mpr ⟨y, List.mem_range'_1.mpr ⟨by omega, by omega⟩,
        List.mem_map.mpr ⟨x, List.mem_range.mpr hx, rfl⟩⟩
  · intro a ha
    obtain ⟨y', -, ha⟩ := List.mem_flatMap.mp ha
    obtain ⟨x', -, rfl⟩ := List.mem_map.mp ha
    exact paints_update rfl fun _ => rfl

end QuillOS.Console
