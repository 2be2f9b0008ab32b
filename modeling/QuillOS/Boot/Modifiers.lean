import QuillOS.Boot.Model

/-!
# Modifier keys

`keyboard_irq_handler` keeps one flag for the two Shift keys, set by the press of either and cleared
by the release of either. It is right as long as no Shift key is released while the other is held.
The flag of the left Ctrl key is always right.
-/

namespace QuillOS.Boot

open Lib

variable {before scs keys : List UInt8} {sc c : UInt8} {kb : Keyboard} {code : ℕ}

/-! ## Held keys -/

abbrev lShift : UInt8 := 0x2A
abbrev rShift : UInt8 := 0x36
abbrev lCtrl : UInt8 := 0x1D

/-- The key of a scancode. -/
def keyOf (sc : UInt8) : UInt8 := sc &&& 0x7F

/-- The scancode of a press. -/
def IsMake (sc : UInt8) : Prop := sc &&& 0x80 = 0

instance (sc : UInt8) : Decidable (IsMake sc) := inferInstanceAs (Decidable (_ = _))

/-- The last scancode of one of the keys. -/
def lastOf (keys scs : List UInt8) : Option UInt8 :=
  scs.reverse.find? fun sc => keyOf sc ∈ keys

/-- The last scancode of the keys is that of a press. -/
def Pressed (keys scs : List UInt8) : Prop := ∃ sc ∈ lastOf keys scs, IsMake sc

instance (keys scs : List UInt8) : Decidable (Pressed keys scs) :=
  decidable_of_iff ((lastOf keys scs).any (IsMake ·) = true)
    (by simp [Pressed, Option.any_eq_true])

def ShiftHeld (scs : List UInt8) : Prop := Pressed [lShift] scs ∨ Pressed [rShift] scs

def CtrlHeld (scs : List UInt8) : Prop := Pressed [lCtrl] scs

/-- A Shift key is held, and the other one has been released since. -/
def ShiftLost (scs : List UInt8) : Prop :=
  ShiftHeld scs ∧ ∃ sc ∈ lastOf [lShift, rShift] scs, ¬IsMake sc

instance (scs : List UInt8) : Decidable (ShiftHeld scs) := inferInstanceAs (Decidable (_ ∨ _))

instance (scs : List UInt8) : Decidable (CtrlHeld scs) := inferInstanceAs (Decidable (Pressed _ _))

theorem lastOf_snoc (keys scs : List UInt8) (sc : UInt8) :
    lastOf keys (scs ++ [sc]) = if keyOf sc ∈ keys then some sc else lastOf keys scs := by
  unfold lastOf
  rw [List.reverse_append, List.reverse_singleton, List.singleton_append, List.find?_cons]
  by_cases hkey : keyOf sc ∈ keys
  · rw [if_pos hkey, decide_eq_true hkey]
  · rw [if_neg hkey, decide_eq_false hkey]

theorem pressed_snoc (keys scs : List UInt8) (sc : UInt8) :
    Pressed keys (scs ++ [sc]) ↔ if keyOf sc ∈ keys then IsMake sc else Pressed keys scs := by
  unfold Pressed
  rw [lastOf_snoc]
  split_ifs
  · simp
  · rfl

/-- The last scancode of several keys is the last one of its own key. -/
theorem lastOf_own (h : lastOf keys scs = some sc) :
    keyOf sc ∈ keys ∧ lastOf [keyOf sc] scs = some sc := by
  induction scs using List.reverseRecOn with
  | nil => cases h
  | append_singleton scs last ih =>
    rw [lastOf_snoc] at h ⊢
    split_ifs at h with hkey
    · obtain rfl := Option.some.inj h
      exact ⟨hkey, if_pos (List.mem_singleton_self _)⟩
    · obtain ⟨hmem, hlast⟩ := ih h
      refine ⟨hmem, ?_⟩
      rw [if_neg, hlast]
      rintro hsame
      exact hkey (List.mem_singleton.mp hsame ▸ hmem)

theorem lastOf_isSome (hkeys : c ∈ keys) (h : lastOf [c] scs = some sc) :
    ∃ sc', lastOf keys scs = some sc' := by
  rw [← Option.isSome_iff_exists]
  unfold lastOf at h ⊢
  rw [List.find?_isSome]
  refine ⟨sc, List.mem_of_find?_eq_some h, ?_⟩
  have hkey := List.find?_some h
  simp only [List.mem_singleton, decide_eq_true_eq] at hkey
  simpa [hkey] using hkeys

/-- The flag of the handler is wrong exactly when the last Shift scancode is the release of one key
and the other is held. -/
theorem pressed_iff_shiftHeld_iff :
    (Pressed [lShift, rShift] scs ↔ ShiftHeld scs) ↔ ¬ShiftLost scs := by
  constructor
  · rintro hiff ⟨hheld, sc, hlast, hbreak⟩
    obtain ⟨sc', hlast', hmake⟩ := hiff.mpr hheld
    obtain rfl : sc = sc' := Option.some.inj (hlast.symm.trans hlast')
    exact hbreak hmake
  · intro hkept
    constructor
    · rintro ⟨sc, hlast, hmake⟩
      obtain ⟨hmem, hown⟩ := lastOf_own hlast
      simp only [List.mem_cons, List.not_mem_nil, or_false] at hmem
      rcases hmem with hkey | hkey
      · exact .inl ⟨sc, hkey ▸ hown, hmake⟩
      · exact .inr ⟨sc, hkey ▸ hown, hmake⟩
    · intro hheld
      obtain ⟨sc, hlast⟩ : ∃ sc, lastOf [lShift, rShift] scs = some sc := by
        rcases hheld with ⟨sc, hsc, -⟩ | ⟨sc, hsc, -⟩
        · exact lastOf_isSome (by simp) hsc
        · exact lastOf_isSome (by simp) hsc
      by_contra hreleased
      refine hkept ⟨hheld, sc, hlast, fun hmake => hreleased ⟨sc, hlast, hmake⟩⟩

/-! ## The handler -/

/-- The flags after a stream of scancodes. -/
def keyboardAfter (scs : List UInt8) : Keyboard :=
  scs.foldl (fun kb sc => (keyboardIrq kb sc).1)
    { shiftDown := false, ctrlDown := false, extPrefix := false }

/-- The character a scancode yields behind a stream. -/
def yielded (before : List UInt8) (sc : UInt8) : Option UInt8 :=
  (keyboardIrq (keyboardAfter before) sc).2

/-- What the handler does with a scancode that is no prefix and has none. -/
theorem keyboardIrq_eq (hsc : sc ≠ 0xE0) (hext : kb.extPrefix = false) : keyboardIrq kb sc =
    if keyOf sc ∈ [lShift, rShift] then ({ kb with shiftDown := decide (IsMake sc) }, none)
    else if keyOf sc ∈ [lCtrl] then ({ kb with ctrlDown := decide (IsMake sc) }, none)
    else (kb, if IsMake sc then keyChar kb (keyOf sc).toNat else none) := by
  have hkey (key : UInt8) : (sc &&& 0x7F).toNat = key.toNat ↔ keyOf sc = key := UInt8.toNat_inj
  have hshift : (sc &&& 0x7F).toNat = 0x2A ∨ (sc &&& 0x7F).toNat = 0x36 ↔
      keyOf sc ∈ [lShift, rShift] := by
    rw [List.mem_pair]
    exact or_congr (hkey lShift) (hkey rShift)
  have hctrl : (sc &&& 0x7F).toNat = 0x1D ↔ keyOf sc ∈ [lCtrl] := by
    rw [List.mem_singleton]
    exact hkey lCtrl
  have hrelease : (!decide (sc &&& 0x80 ≠ 0)) = decide (IsMake sc) := by
    by_cases hmake : sc &&& 0x80 = 0
    · simp [IsMake, hmake]
    · simp [IsMake, hmake]
  have hpress : (if sc &&& 0x80 ≠ 0 then (kb, none) else (kb, keyChar kb (sc &&& 0x7F).toNat)) =
      (kb, if IsMake sc then keyChar kb (keyOf sc).toNat else none) := by
    by_cases hmake : IsMake sc
    · rw [if_neg (show ¬sc &&& 0x80 ≠ 0 from not_not.mpr hmake), if_pos hmake]
      rfl
    · rw [if_pos (show sc &&& 0x80 ≠ 0 from hmake), if_neg hmake]
  unfold keyboardIrq
  dsimp only
  rw [if_neg hsc, hext, if_neg Bool.false_ne_true, hrelease, hpress]
  simp only [hshift, hctrl]

/-- The flags follow the last scancodes of their keys. -/
theorem keyboardAfter_eq (hscs : 0xE0 ∉ scs) : keyboardAfter scs =
    { shiftDown := decide (Pressed [lShift, rShift] scs)
      ctrlDown := decide (Pressed [lCtrl] scs)
      extPrefix := false } := by
  induction scs using List.reverseRecOn with
  | nil => rfl
  | append_singleton scs sc ih =>
    rw [List.mem_append, List.mem_singleton, not_or] at hscs
    have hlast : keyboardAfter (scs ++ [sc]) = (keyboardIrq (keyboardAfter scs) sc).1 := by
      unfold keyboardAfter
      rw [List.foldl_append]
      rfl
    rw [hlast, ih hscs.1, keyboardIrq_eq (Ne.symm hscs.2) rfl]
    simp only [pressed_snoc]
    by_cases hshift : keyOf sc ∈ [lShift, rShift]
    · have hctrl : keyOf sc ∉ [lCtrl] := by
        simp only [List.mem_cons, List.not_mem_nil, or_false] at hshift ⊢
        rcases hshift with hkey | hkey
        · rw [hkey]
          decide
        · rw [hkey]
          decide
      simp [hshift, hctrl]
    · by_cases hctrl : keyOf sc ∈ [lCtrl]
      · simp [hshift, hctrl]
      · simp [hshift, hctrl]

/-! ## The tables -/

/-- The table the handler looks a key up in. -/
def keyTable (kb : Keyboard) : List UInt8 := if kb.shiftDown then scUpper else scLower

/-- The key has a letter. -/
def IsLetter (code : ℕ) : Prop := 97 ≤ scLower.getD code 0 ∧ scLower.getD code 0 ≤ 122

instance (code : ℕ) : Decidable (IsLetter code) := inferInstanceAs (Decidable (_ ∧ _))

/-- A control character other than the one the key has by itself, as Enter has. -/
def IsControl (code : ℕ) (c : UInt8) : Prop :=
  c < 32 ∧ c ≠ scLower.getD code 0 ∧ c ≠ scUpper.getD code 0

instance (code : ℕ) (c : UInt8) : Decidable (IsControl code c) := inferInstanceAs (Decidable (_ ∧ _))

/-- A press that yields a character: of a key that has one, and with Ctrl of a letter. -/
def Types (before : List UInt8) (sc : UInt8) : Prop :=
  IsMake sc ∧ scLower.getD (keyOf sc).toNat 0 ≠ 0 ∧ (CtrlHeld before → IsLetter (keyOf sc).toNat)

theorem keyTable_eq_scUpper_iff (kb : Keyboard) : keyTable kb = scUpper ↔ kb.shiftDown = true := by
  unfold keyTable
  split_ifs with hshift
  · exact iff_of_true rfl hshift
  · exact iff_of_false (by decide) hshift

theorem keyTable_mem (kb : Keyboard) : keyTable kb ∈ [scLower, scUpper] := by
  unfold keyTable
  split_ifs
  · simp
  · simp

/-- The same keys have a character in both tables. -/
theorem table_eq_zero_iff : ∀ code < 58, ∀ table ∈ [scLower, scUpper],
    table.getD code 0 = 0 ↔ scLower.getD code 0 = 0 := by
  decide

/-- With Ctrl the letters, of either table, become control characters, and nothing else does. -/
theorem ctrlChar_table : ∀ code < 58, ∀ table ∈ [scLower, scUpper],
    ((ctrlChar (table.getD code 0)).isSome = true ↔ IsLetter code) ∧
      (ctrlChar (table.getD code 0)).all (IsControl code ·) = true := by
  decide

theorem keyChar_eq (kb : Keyboard) (code : ℕ) : keyChar kb code =
    if scLower.getD code 0 = 0 then none
    else if kb.ctrlDown then ctrlChar ((keyTable kb).getD code 0)
    else some ((keyTable kb).getD code 0) := by
  have hlen : scLower.length = 58 := by decide
  unfold keyChar
  by_cases hcode : code < 58
  · have hzero := table_eq_zero_iff code hcode _ (keyTable_mem kb)
    have hchar : (if kb.shiftDown then scUpper.getD code 0 else scLower.getD code 0) =
        (keyTable kb).getD code 0 := by
      unfold keyTable
      split_ifs
      · rfl
      · rfl
    rw [if_neg (by omega)]
    dsimp only
    rw [hchar]
    simp only [hzero]
  · have hnone : scLower.getD code 0 = 0 := by
      rw [List.getD_eq_getElem?_getD, List.getElem?_eq_none (by omega)]
      rfl
    rw [if_pos (by omega), if_pos hnone]

/-! ## The law -/

/-- What a press that yields `c` should do: it looks in the table of the Shift keys, and makes a
control character of a letter if Ctrl is held. -/
structure Obeys (before : List UInt8) (sc c : UInt8) : Prop where
  shifted : keyTable (keyboardAfter before) = scUpper ↔ ShiftHeld before
  control : IsControl (keyOf sc).toNat c ↔ CtrlHeld before ∧ IsLetter (keyOf sc).toNat

/-- No modifier key has a character. -/
theorem modifier_eq_zero {key : UInt8} (hkey : key ∈ [lShift, rShift, lCtrl]) :
    scLower.getD key.toNat 0 = 0 := by
  simp only [List.mem_cons, List.not_mem_nil, or_false] at hkey
  rcases hkey with rfl | rfl | rfl
  all_goals decide

/-- A character of a table is not a control character the key does not have by itself. -/
theorem not_isControl_own (code : ℕ) : ¬IsControl code ((keyTable kb).getD code 0) := by
  rintro ⟨-, hlower, hupper⟩
  have hmem := keyTable_mem kb
  simp only [List.mem_cons, List.not_mem_nil, or_false] at hmem
  rcases hmem with htable | htable
  · exact hlower (htable ▸ rfl)
  · exact hupper (htable ▸ rfl)

theorem yielded_eq (hbefore : 0xE0 ∉ before) (hsc : sc ≠ 0xE0) : yielded before sc =
    if IsMake sc then keyChar (keyboardAfter before) (keyOf sc).toNat else none := by
  have hext : (keyboardAfter before).extPrefix = false := by rw [keyboardAfter_eq hbefore]
  have hmodifier (hkey : keyOf sc ∈ [lShift, rShift, lCtrl]) :
      (if IsMake sc then keyChar (keyboardAfter before) (keyOf sc).toNat else none) = none := by
    rw [keyChar_eq, if_pos (modifier_eq_zero hkey), ite_self]
  unfold yielded
  rw [keyboardIrq_eq hsc hext]
  by_cases hshift : keyOf sc ∈ [lShift, rShift]
  · rw [if_pos hshift, hmodifier (List.mem_append_left [lCtrl] hshift)]
  · rw [if_neg hshift]
    by_cases hctrl : keyOf sc ∈ [lCtrl]
    · rw [if_pos hctrl, hmodifier (List.mem_append_right [lShift, rShift] hctrl)]
    · rw [if_neg hctrl]

/-- The character a scancode yields, by the flags. -/
theorem yielded_eq_some_iff (hbefore : 0xE0 ∉ before) (hsc : sc ≠ 0xE0) :
    yielded before sc = some c ↔ IsMake sc ∧ scLower.getD (keyOf sc).toNat 0 ≠ 0 ∧
      if CtrlHeld before then
        ctrlChar ((keyTable (keyboardAfter before)).getD (keyOf sc).toNat 0) = some c
      else (keyTable (keyboardAfter before)).getD (keyOf sc).toNat 0 = c := by
  have hctrl : (keyboardAfter before).ctrlDown = true ↔ CtrlHeld before := by
    rw [keyboardAfter_eq hbefore]
    exact decide_eq_true_iff
  rw [yielded_eq hbefore hsc, keyChar_eq]
  simp only [hctrl]
  by_cases hmake : IsMake sc
  · rw [if_pos hmake, and_iff_right hmake]
    by_cases hzero : scLower.getD (keyOf sc).toNat 0 = 0
    · rw [if_pos hzero]
      exact iff_of_false nofun fun h => h.1 hzero
    · rw [if_neg hzero, and_iff_right hzero]
      by_cases hheld : CtrlHeld before
      · rw [if_pos hheld, if_pos hheld]
      · rw [if_neg hheld, if_neg hheld, Option.some.injEq]
  · rw [if_neg hmake]
    exact iff_of_false nofun fun h => hmake h.1

theorem code_lt (h : scLower.getD code 0 ≠ 0) : code < 58 := by
  have hlen : scLower.length = 58 := by decide
  by_contra hcode
  rw [List.getD_eq_getElem?_getD, List.getElem?_eq_none (by omega)] at h
  exact h rfl

theorem exists_yielded_iff (hbefore : 0xE0 ∉ before) (hsc : sc ≠ 0xE0) :
    (∃ c, yielded before sc = some c) ↔ Types before sc := by
  simp only [yielded_eq_some_iff hbefore hsc, exists_and_left]
  apply and_congr_right
  intro _
  apply and_congr_right
  intro hkey
  have htable := ctrlChar_table _ (code_lt hkey) _ (keyTable_mem (keyboardAfter before))
  by_cases hheld : CtrlHeld before
  · simp only [if_pos hheld]
    rw [← Option.isSome_iff_exists, htable.1]
    exact ⟨fun hletter _ => hletter, fun hletter => hletter hheld⟩
  · simp only [if_neg hheld]
    exact iff_of_true ⟨_, rfl⟩ fun h => absurd h hheld

/-- The flag of Ctrl is always right. -/
theorem control_of_yielded (hbefore : 0xE0 ∉ before) (hsc : sc ≠ 0xE0)
    (hc : yielded before sc = some c) :
    IsControl (keyOf sc).toNat c ↔ CtrlHeld before ∧ IsLetter (keyOf sc).toNat := by
  obtain ⟨-, hkey, hchar⟩ := (yielded_eq_some_iff hbefore hsc).mp hc
  have htable := ctrlChar_table _ (code_lt hkey) _ (keyTable_mem (keyboardAfter before))
  by_cases hheld : CtrlHeld before
  · rw [if_pos hheld] at hchar
    rw [hchar] at htable
    exact iff_of_true (of_decide_eq_true htable.2) ⟨hheld, htable.1.mp rfl⟩
  · rw [if_neg hheld] at hchar
    exact iff_of_false (hchar ▸ not_isControl_own _) fun h => hheld h.1

theorem shifted_iff (hbefore : 0xE0 ∉ before) :
    (keyTable (keyboardAfter before) = scUpper ↔ ShiftHeld before) ↔ ¬ShiftLost before := by
  rw [keyTable_eq_scUpper_iff, keyboardAfter_eq hbefore, ← pressed_iff_shiftHeld_iff]
  exact iff_congr decide_eq_true_iff Iff.rfl

theorem obeys_iff (hbefore : 0xE0 ∉ before) (hsc : sc ≠ 0xE0) :
    (∀ c, yielded before sc = some c → Obeys before sc c) ↔
      (Types before sc → ¬ShiftLost before) := by
  rw [← exists_yielded_iff hbefore hsc]
  constructor
  · rintro hobeys ⟨c, hc⟩
    exact (shifted_iff hbefore).mp (hobeys c hc).shifted
  · intro hkept c hc
    exact ⟨(shifted_iff hbefore).mpr (hkept ⟨c, hc⟩), control_of_yielded hbefore hsc hc⟩

/-- In a stream without prefixes every press that yields a character obeys the modifier keys exactly
if none comes while one Shift key is held and the other was the last to be released. -/
theorem modifiers_obeyed_iff (scs : List UInt8) (hscs : 0xE0 ∉ scs) :
    Throughout (fun before sc => ∀ c, yielded before sc = some c → Obeys before sc c) scs ↔
      Throughout (fun before sc => Types before sc → ¬ShiftLost before) scs := by
  unfold Throughout
  apply forall_congr'
  intro before
  apply forall_congr'
  intro sc
  apply forall₂_congr
  intro after heq
  rw [heq, List.mem_append, List.mem_cons, not_or, not_or] at hscs
  exact obeys_iff hscs.1 (Ne.symm hscs.2.1)

/-- Left Shift and the key of the letter A. -/
theorem modifiers_obeyed_iff_capital :
    Throughout (fun before sc => ∀ c, yielded before sc = some c → Obeys before sc c)
        [0x2A, 0x1E, 0x9E, 0xAA] ↔
      Throughout (fun before sc => Types before sc → ¬ShiftLost before) [0x2A, 0x1E, 0x9E, 0xAA] :=
  modifiers_obeyed_iff [0x2A, 0x1E, 0x9E, 0xAA] (by decide)

/-- Both Shift keys are pressed, the left one is released, and the key of the letter A yields a small
letter. -/
theorem released_shift_clears_other : 0xE0 ∉ [0x2A, 0x36, 0xAA, (0x1E : UInt8)] ∧
    ¬Throughout (fun before sc => ∀ c, yielded before sc = some c → Obeys before sc c)
      [0x2A, 0x36, 0xAA, 0x1E] := by
  refine ⟨by decide, fun h => ?_⟩
  have hheld : ShiftHeld [0x2A, 0x36, 0xAA] := by decide
  have hobeys := h [0x2A, 0x36, 0xAA] 0x1E [] rfl 97 (by decide)
  exact absurd (hobeys.shifted.mpr hheld) (by decide)

end QuillOS.Boot
