import QuillOS.Boot.Accounts

/-!
# Text from the keyboard

The keys that type a text, each pressed and released with the modifier it needs, give the shell the
characters of the text and nothing else, whatever the shell does with them.
-/

namespace QuillOS.Boot

open Lib
open Filesystem (Str)
open Shell (ascii shellUpdate)

/-- The keyboard with no modifier held. -/
def atRest : Keyboard := { shiftDown := false, ctrlDown := false, extPrefix := false }

/-- The key a table has a character at. -/
def keyWith (table : List UInt8) (c : UInt8) : Option UInt8 := (table.idxOf? c).map UInt8.ofNat

/-- The keys for a character: its own, with Shift or else with Ctrl where it has none. -/
def strokes (c : UInt8) : List UInt8 :=
  match keyWith scLower c, keyWith scUpper c, keyWith scLower (c + 96) with
  | some k, _, _ => [k, k ||| 0x80]
  | none, some k, _ => [0x2A, k, k ||| 0x80, 0xAA]
  | none, none, some k => [0x1D, k, k ||| 0x80, 0x9D]
  | none, none, none => []

/-- The printable characters and the control characters of the letters, with Escape. -/
def Typeable (c : UInt8) : Prop := 0 < c ∧ c ≤ 27 ∨ 32 ≤ c ∧ c < 127

instance (c : UInt8) : Decidable (Typeable c) := inferInstanceAs (Decidable (_ ∨ _))

/-- What scancodes come to: the modifiers they leave and the characters for the shell. -/
def charsOf (kb : Keyboard) : List UInt8 → Keyboard × Str
  | [] => (kb, [])
  | sc :: scs =>
    let (kb, c) := keyboardIrq kb sc
    let (kb, cs) := charsOf kb scs
    (kb, c.toList ++ cs)

variable {κ : Type} {d : Kernel κ} {s : State κ} {kb : Keyboard} {scs : List UInt8} {text : Str}

theorem charsOf_append (kb : Keyboard) (scs scs' : List UInt8) :
    charsOf kb (scs ++ scs') = ((charsOf (charsOf kb scs).1 scs').1,
      (charsOf kb scs).2 ++ (charsOf (charsOf kb scs).1 scs').2) := by
  induction scs generalizing kb with
  | nil => rfl
  | cons sc scs ih =>
    simp only [List.cons_append, charsOf, ih, List.append_assoc]

/-- Every stroke gives its character and leaves no modifier held. -/
theorem charsOf_strokes {c : UInt8} (hc : Typeable c) :
    charsOf atRest (strokes c) = (atRest, [c]) := by
  have hall : ∀ n < 256, Typeable (UInt8.ofNat n) →
      charsOf atRest (strokes (UInt8.ofNat n)) = (atRest, [UInt8.ofNat n]) := by
    decide +kernel
  have hself := UInt8.ofNat_toNat (x := c)
  rw [← hself] at hc ⊢
  exact hall c.toNat c.toNat_lt hc

theorem charsOf_text (htext : ∀ c ∈ text, Typeable c) :
    charsOf atRest (text.flatMap strokes) = (atRest, text) := by
  induction text with
  | nil => rfl
  | cons c text ih =>
    rw [List.forall_mem_cons] at htext
    rw [List.flatMap_cons, charsOf_append, charsOf_strokes htext.1]
    dsimp only
    rw [ih htext.2, List.singleton_append]

/-- Scancodes do to the shell what their characters do. -/
theorem exec_press (d : Kernel κ) (s : State κ) (scs : List UInt8) :
    exec (press d) s scs =
      (exec (shellUpdate d.toKernel) s.shell (charsOf s.keyboard scs).2).map fun shell =>
        { s with keyboard := (charsOf s.keyboard scs).1, shell := shell } := by
  induction scs generalizing s with
  | nil => rfl
  | cons sc scs ih =>
    have hpress : press d s sc = match keyboardIrq s.keyboard sc with
      | (kb, none) => some { s with keyboard := kb }
      | (kb, some c) => (shellUpdate d.toKernel s.shell c).map fun shell =>
          { s with keyboard := kb, shell := shell } := by
      unfold press
      generalize keyboardIrq s.keyboard sc = r
      obtain ⟨kb, c⟩ := r
      cases c <;> rfl
    rw [exec, hpress, charsOf]
    generalize keyboardIrq s.keyboard sc = r
    obtain ⟨kb, c⟩ := r
    cases c with
    | none => exact ih { s with keyboard := kb }
    | some c =>
      dsimp only
      rw [Option.toList_some, List.singleton_append, exec]
      cases shellUpdate d.toKernel s.shell c with
      | none => rfl
      | some shell => exact ih { s with keyboard := kb, shell := shell }

/-- Pressing and releasing the keys of a text does what the text does: each character reaches the
shell once and in its place, and no modifier stays held. -/
theorem strokes_type_text (d : Kernel κ) (s : State κ) (hrest : s.keyboard = atRest)
    (text : Str) (htext : ∀ c ∈ text, Typeable c) :
    exec (press d) s (text.flatMap strokes) =
      (exec (shellUpdate d.toKernel) s.shell text).map fun shell => { s with shell := shell } := by
  rw [exec_press, hrest, charsOf_text htext, ← hrest]

theorem strokes_type_text_name :
    exec (press bareKernel) (start ⟨0, 0, Users.blank⟩ ()) ((ascii "Amy\n").flatMap strokes) =
      (exec (shellUpdate bareKernel.toKernel) (start ⟨0, 0, Users.blank⟩ ()).shell
        (ascii "Amy\n")).map fun shell =>
          { start ⟨0, 0, Users.blank⟩ () with shell := shell } :=
  strokes_type_text bareKernel _ rfl (ascii "Amy\n") (by decide +kernel)

end QuillOS.Boot
