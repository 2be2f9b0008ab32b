import QuillOS.Filesystem.Contents
import QuillOS.Shell.Model

/-!
# The editor

`nano` and `edit_update` of `shell.cpp`, on the buffer of 1024 bytes itself: a backspace leaves its
byte behind, and a save ends the text at `edit_len`. What a save writes is the text the keys made of
the file's contents, and the list of characters the shell's states carry is that text.
-/

namespace QuillOS.Shell

open Lib
open Filesystem (Str Entries FileHolds findPath NameFits fits slash maxFileData maxPathLen)

/-- The variables of the editor. `edit_len` is a signed number. -/
structure Editor where
  mode : Mode
  editFilename : Str
  editBuf : Vector UInt8 1024
  editLen : ℤ
  fs : Entries

namespace Editor

/-- The string in `edit_buf`. -/
def text (e : Editor) : Str := e.editBuf.toList.takeWhile (· ≠ 0)

/-- `edit_buf[edit_len] = c`; `none` outside the buffer. -/
def set (e : Editor) (c : UInt8) : Option Editor :=
  if h : 0 ≤ e.editLen ∧ e.editLen < 1024 then
    some { e with editBuf := e.editBuf.set e.editLen.toNat c (by omega) }
  else none

/-- `edit_buf[edit_len++] = c`. -/
def append (e : Editor) (c : UInt8) : Option Editor :=
  (e.set c).map fun e => { e with editLen := e.editLen + 1 }

/-- The loop of `nano` over the contents it read. -/
def load : Str → Editor → Option Editor
  | [], e => some e
  | c :: rest, e => if c ≠ 0 ∧ e.editLen < 1023 then (e.append c).bind (load rest) else some e

/-- The cleared buffer, before the file is read. -/
def cleared (fs : Entries) (filename : Str) : Editor where
  mode := .shell
  editFilename := filename
  editBuf := Vector.replicate 1024 0
  editLen := 0
  fs := fs

/-- `nano` on a path that was built. -/
def nano (fs : Entries) (path : Str) : Option Editor := do
  let filename ← fits 64 path
  let contents ← Filesystem.readFile fs path (UInt32.ofNat maxFileData)
  let e ← match contents with
    | none => some (cleared fs filename)
    | some bytes => load bytes (cleared fs filename)
  return { e with mode := .edit }

/-- The terminator and `write_file`, with its result. -/
def save (e : Editor) : Option (Editor × Bool) := do
  let e ← e.set 0
  let (fs, ok) ← Filesystem.writeFile e.fs e.editFilename e.text
  return ({ e with fs := fs }, ok)

/-- `edit_update`, with the result of `write_file` if the key saves. -/
def update (e : Editor) (c : UInt8) : Option (Editor × Option Bool) :=
  if c = 0x18 then e.save.map fun (e, ok) => ({ e with mode := .shell }, some ok)
  else if c = 0x13 then e.save.map fun (e, ok) => (e, some ok)
  else if c = 0x11 ∨ c = 0x03 then some ({ e with mode := .shell }, none)
  else if c = 8 then
    some (if e.editLen > 0 then { e with editLen := e.editLen - 1 } else e, none)
  else if c = 10 then
    if e.editLen < 1023 then (e.append 10).map fun e => (e, none) else some (e, none)
  else if 32 ≤ c ∧ c < 127 then
    if e.editLen < 1023 then (e.append c).map fun e => (e, none) else some (e, none)
  else some (e, none)

/-- A key typed in the editor. -/
def Step (e : Editor) (c : UInt8) (e' : Editor) : Prop :=
  e.mode = .edit ∧ (e.update c).map Prod.fst = some e'

/-! ## The text -/

/-- Ctrl-X and Ctrl-S. -/
def Saves (c : UInt8) : Prop := c = 0x18 ∨ c = 0x13

instance (c : UInt8) : Decidable (Saves c) := inferInstanceAs (Decidable (_ ∨ _))

/-- Ctrl-X, Ctrl-Q and Ctrl-C. -/
def Leaves (c : UInt8) : Prop := c = 0x18 ∨ c = 0x11 ∨ c = 0x03

instance (c : UInt8) : Decidable (Leaves c) := inferInstanceAs (Decidable (_ ∨ _ ∨ _))

/-- What a key does to a text. -/
def typed (text : Str) (c : UInt8) : Str :=
  if c = 8 then text.dropLast
  else if c = 10 ∨ 32 ≤ c ∧ c < 127 then if text.length < 1023 then text ++ [c] else text
  else text

/-- Ctrl-X, Ctrl-Q and Ctrl-C leave the editor. -/
def modeAfter (m : Mode) (c : UInt8) : Mode :=
  if c = 0x18 ∨ c = 0x11 ∨ c = 0x03 then .shell else m

/-- The buffer up to `edit_len` holds the text. -/
structure Shows (e : Editor) (text : Str) : Prop where
  len : e.editLen = text.length
  short : text.length ≤ 1023
  noNul : 0 ∉ text
  front : e.editBuf.toList.take text.length = text

variable {e e' : Editor} {t : Str} {c : UInt8}

theorem Shows.set (h : Shows e t) (c : UInt8) :
    ∃ buf : Vector UInt8 1024, e.set c = some { e with editBuf := buf } ∧
      ∃ rest, buf.toList = t ++ c :: rest := by
  have hlen := h.len
  have hshort := h.short
  refine ⟨e.editBuf.set e.editLen.toNat c (by omega), ?_, e.editBuf.toList.drop (t.length + 1), ?_⟩
  · unfold Editor.set
    rw [dif_pos ⟨by omega, by omega⟩]
  · have hnat : e.editLen.toNat = t.length := by omega
    rw [Vector.toList_set, hnat, List.set_eq_take_append_cons_drop,
      if_pos (by rw [Vector.length_toList]; omega), h.front]

theorem Shows.append (h : Shows e t) (hroom : t.length < 1023) (hc : c ≠ 0) :
    ∃ e', e.append c = some e' ∧ Shows e' (t ++ [c]) ∧ e'.fs = e.fs ∧
      e'.editFilename = e.editFilename ∧ e'.mode = e.mode := by
  obtain ⟨buf, hset, rest, hbuf⟩ := h.set c
  have hlen := h.len
  refine ⟨{ e with editBuf := buf, editLen := e.editLen + 1 }, ?_, ⟨?_, ?_, ?_, ?_⟩, rfl, rfl, rfl⟩
  · unfold Editor.append
    rw [hset]
    rfl
  · rw [List.length_append, List.length_singleton]
    push_cast
    omega
  · rw [List.length_append, List.length_singleton]
    omega
  · simp only [List.mem_append, List.mem_singleton, not_or]
    exact ⟨h.noNul, Ne.symm hc⟩
  · rw [hbuf, show t ++ c :: rest = t ++ [c] ++ rest by simp, List.take_left' rfl]

/-- What a save writes is the text, whatever lies behind it. -/
theorem Shows.save_eq (h : Shows e t) :
    ∃ buf : Vector UInt8 1024, Shows { e with editBuf := buf } t ∧
      e.save = (Filesystem.writeFile e.fs e.editFilename t).map fun (fs, ok) =>
        ({ e with editBuf := buf, fs := fs }, ok) := by
  obtain ⟨buf, hset, rest, hbuf⟩ := h.set 0
  have htext : ({ e with editBuf := buf } : Editor).text = t := by
    unfold Editor.text
    rw [hbuf, List.takeWhile_append_of_pos]
    · simp
    · intro a ha
      exact decide_eq_true fun h0 => h.noNul (h0 ▸ ha)
  refine ⟨buf, ⟨h.len, h.short, h.noNul, by rw [hbuf, List.take_left' rfl]⟩, ?_⟩
  unfold Editor.save
  rw [hset, Option.bind_eq_bind, Option.bind_some, htext]
  cases Filesystem.writeFile e.fs e.editFilename t <;> rfl

theorem Shows.save (h : Shows e t) {ok : Bool} (hsave : e.save = some (e', ok)) :
    Shows e' t ∧ e'.editFilename = e.editFilename ∧ e'.mode = e.mode ∧
      Filesystem.writeFile e.fs e.editFilename t = some (e'.fs, ok) := by
  obtain ⟨buf, hbuf, heq⟩ := h.save_eq
  rw [heq] at hsave
  obtain ⟨⟨fs, ok'⟩, hwrite, hpair⟩ := Option.map_eq_some_iff.mp hsave
  obtain ⟨rfl, rfl⟩ := Prod.mk.inj hpair
  exact ⟨⟨hbuf.len, hbuf.short, hbuf.noNul, hbuf.front⟩, rfl, rfl, hwrite⟩

/-- The loop of `nano` takes over contents that fit. -/
theorem Shows.load (h : Shows e t) {s : Str} (hs : 0 ∉ s) (hroom : t.length + s.length ≤ 1023) :
    ∃ e', load s e = some e' ∧ Shows e' (t ++ s) ∧ e'.fs = e.fs ∧
      e'.editFilename = e.editFilename := by
  induction s generalizing e t with
  | nil => exact ⟨e, rfl, by rwa [List.append_nil], rfl, rfl⟩
  | cons c s ih =>
    rw [List.mem_cons, not_or] at hs
    rw [List.length_cons] at hroom
    have hlen := h.len
    obtain ⟨e₁, happend, h₁, hfs, hname, -⟩ := h.append (by omega) (Ne.symm hs.1)
    obtain ⟨e₂, hload, h₂, hfs', hname'⟩ := ih h₁ hs.2 (by simp; omega)
    refine ⟨e₂, ?_, ?_, hfs'.trans hfs, hname'.trans hname⟩
    · rw [Editor.load, if_pos ⟨Ne.symm hs.1, by omega⟩, happend, Option.bind_some, hload]
    · rwa [List.append_assoc] at h₂

/-- The path is a file with this text, or it can be created and the text is empty. -/
def Original (fs : Entries) (path text : Str) : Prop :=
  FileHolds fs path text ∨
    findPath fs path = none ∧ (∃ fs', Filesystem.touch fs path = some (fs', true)) ∧ text = []

theorem Original.nameFits {fs : Entries} {path : Str} (h : Original fs path t)
    (habs : path.head? = some slash) (hlen : path.length < maxPathLen)
    (hfit : Filesystem.NamesFit fs) : NameFits path := by
  rcases h with ⟨idx, hfind, -⟩ | ⟨-, ⟨fs', htouch⟩, -⟩
  · obtain ⟨hused, hname, -⟩ := Filesystem.findEntry_spec hfind
    unfold Filesystem.NameFits
    rw [← hname]
    exact hfit idx hused
  · exact ((Filesystem.touch_ne_none habs hlen).mp (htouch ▸ Option.some_ne_none _)).1

/-- The text of a file is a C string of at most 1023 characters. -/
theorem Original.isText {fs : Entries} {path : Str} (h : Original fs path t)
    (hfiles : Filesystem.TextFiles fs) : t.length ≤ 1023 ∧ 0 ∉ t := by
  rcases h with ⟨idx, -, hholds⟩ | ⟨-, -, rfl⟩
  · obtain ⟨t', hlt, hno, hholds'⟩ := hfiles idx hholds.type
    have hsize : t.length = t'.length := hholds.size.symm.trans hholds'.size
    obtain ⟨rfl, -⟩ := List.append_inj (hholds.data.symm.trans hholds'.data) hsize
    exact ⟨Nat.le_of_lt_succ hlt, hno⟩
  · exact ⟨by decide, List.not_mem_nil⟩

/-- `nano` opens the file with its text. -/
theorem nano_opens {fs : Entries} {path : Str} (habs : path.head? = some slash)
    (hlen : path.length ≤ 63) (hname : NameFits path) (horig : Original fs path t)
    (htext : t.length ≤ 1023 ∧ 0 ∉ t) :
    ∃ e, nano fs path = some e ∧ Shows e t ∧ e.fs = fs ∧ e.editFilename = path ∧ e.mode = .edit := by
  have hpath : path.length < maxPathLen := hlen.trans_lt (by decide)
  have hempty : Shows (cleared fs path) [] := ⟨rfl, by decide, List.not_mem_nil, rfl⟩
  unfold nano
  rw [Filesystem.fits_of_lt (show path.length < 64 by omega), Option.bind_eq_bind,
    Option.bind_some]
  rcases horig with hfile | ⟨hfind, -, rfl⟩
  · have hread : Filesystem.readFile fs path (UInt32.ofNat maxFileData) = some (some t) :=
      Filesystem.readFile_of_holds habs hpath hname hfile (Nat.lt_succ_of_le htext.1)
    obtain ⟨e, hload, he, hfs, hfilename⟩ :=
      hempty.load htext.2 (by rw [List.length_nil]; omega)
    rw [hread]
    refine ⟨{ e with mode := .edit }, ?_, ⟨he.len, he.short, he.noNul, he.front⟩, hfs, hfilename,
      rfl⟩
    simp only [Option.bind_eq_bind, Option.bind_some, hload]
    rfl
  · have hread : Filesystem.readFile fs path (UInt32.ofNat maxFileData) = some none :=
      Filesystem.readFile_of_missing habs hpath hname fun i hi => by rw [hfind] at hi; cases hi
    rw [hread]
    exact ⟨_, rfl, ⟨rfl, by decide, List.not_mem_nil, rfl⟩, rfl, rfl, rfl⟩

theorem Shows.backspace (h : Shows e t) (hpos : 0 < t.length) :
    Shows { e with editLen := e.editLen - 1 } t.dropLast where
  len := by
    have hlen := h.len
    change e.editLen - 1 = _
    rw [List.length_dropLast]
    omega
  short := by
    have hshort := h.short
    rw [List.length_dropLast]
    omega
  noNul hmem := h.noNul (List.mem_of_mem_dropLast hmem)
  front := by
    change e.editBuf.toList.take t.dropLast.length = t.dropLast
    rw [List.length_dropLast, List.dropLast_eq_take]
    calc e.editBuf.toList.take (t.length - 1)
        = (e.editBuf.toList.take t.length).take (t.length - 1) := by
          rw [List.take_take, Nat.min_eq_left (Nat.sub_le _ _)]
      _ = t.take (t.length - 1) := by rw [h.front]

/-- A character that is typed is appended while there is room. -/
theorem Shows.insert (h : Shows e t) (hc : c ≠ 0) {r : Option Bool}
    (hkey : (if e.editLen < 1023 then (e.append c).map fun e => (e, none) else some (e, none)) =
      some (e', r)) :
    Shows e' (if t.length < 1023 then t ++ [c] else t) ∧ e'.editFilename = e.editFilename ∧
      e'.mode = e.mode ∧ r = none ∧ e'.fs = e.fs := by
  have hlen := h.len
  by_cases hroom : t.length < 1023
  · obtain ⟨e₁, happend, h₁, hfs, hname, hmode⟩ := h.append hroom hc
    rw [if_pos (by omega), happend] at hkey
    obtain ⟨rfl, rfl⟩ := Prod.mk.inj (Option.some.inj hkey)
    rw [if_pos hroom]
    exact ⟨h₁, hname, hmode, rfl, hfs⟩
  · rw [if_neg (by omega)] at hkey
    obtain ⟨rfl, rfl⟩ := Prod.mk.inj (Option.some.inj hkey)
    rw [if_neg hroom]
    exact ⟨h, rfl, rfl, rfl, rfl⟩

theorem typed_of_saves (hc : Saves c) (t : Str) : typed t c = t := by
  rcases hc with rfl | rfl <;> rfl

theorem not_saves {c : UInt8} (h₁ : c ≠ 0x18) (h₂ : c ≠ 0x13) : ¬Saves c := by
  rintro (rfl | rfl)
  · exact h₁ rfl
  · exact h₂ rfl

/-- A key that neither saves nor leaves changes the text and nothing else. -/
theorem Shows.edit (h : Shows e t) (hx : c ≠ 0x18) (hs : c ≠ 0x13) (hquit : ¬(c = 0x11 ∨ c = 0x03))
    {r : Option Bool} (hkey : e.update c = some (e', r)) :
    Shows e' (typed t c) ∧ e'.editFilename = e.editFilename ∧ e'.mode = e.mode ∧ r = none ∧
      e'.fs = e.fs := by
  unfold Editor.update at hkey
  rw [if_neg hx, if_neg hs, if_neg hquit] at hkey
  unfold typed
  split at hkey
  · rename_i hback
    obtain ⟨rfl, rfl⟩ := Prod.mk.inj (Option.some.inj hkey)
    have hlen := h.len
    rw [if_pos hback]
    by_cases hpos : 0 < t.length
    · rw [if_pos (by omega)]
      exact ⟨h.backspace hpos, rfl, rfl, rfl, rfl⟩
    · obtain rfl : t = [] := List.eq_nil_of_length_eq_zero (by omega)
      rw [if_neg (by omega)]
      exact ⟨h, rfl, rfl, rfl, rfl⟩
  rename_i hback
  rw [if_neg hback]
  split at hkey
  · rename_i hnewline
    rw [if_pos (.inl hnewline), hnewline]
    exact h.insert (by decide) hkey
  rename_i hnewline
  split at hkey
  · rename_i hprint
    have hne : c ≠ 0 := by
      rintro rfl
      exact absurd hprint.1 (by decide)
    rw [if_pos (.inr hprint)]
    exact h.insert hne hkey
  · rename_i hprint
    obtain ⟨rfl, rfl⟩ := Prod.mk.inj (Option.some.inj hkey)
    rw [if_neg (not_or.mpr ⟨hnewline, hprint⟩)]
    exact ⟨h, rfl, rfl, rfl, rfl⟩

/-- Everything a key can do: it saves the text, or it changes the text and leaves the files. -/
theorem Shows.update (h : Shows e t) {r : Option Bool} (hkey : e.update c = some (e', r)) :
    Shows e' (typed t c) ∧ e'.editFilename = e.editFilename ∧ e'.mode = modeAfter e.mode c ∧
      ((Saves c ∧ ∃ ok, r = some ok ∧
          Filesystem.writeFile e.fs e.editFilename t = some (e'.fs, ok)) ∨
        ¬Saves c ∧ r = none ∧ e'.fs = e.fs) := by
  by_cases hx : c = 0x18
  · unfold Editor.update at hkey
    rw [if_pos hx] at hkey
    obtain ⟨⟨e₁, ok⟩, hsaved, heq⟩ := Option.map_eq_some_iff.mp hkey
    obtain ⟨rfl, rfl⟩ := Prod.mk.inj heq
    obtain ⟨h₁, hname, -, hwrite⟩ := h.save hsaved
    rw [typed_of_saves (.inl hx)]
    exact ⟨⟨h₁.len, h₁.short, h₁.noNul, h₁.front⟩, hname, (if_pos (.inl hx)).symm,
      .inl ⟨.inl hx, ok, rfl, hwrite⟩⟩
  by_cases hs : c = 0x13
  · unfold Editor.update at hkey
    rw [if_neg hx, if_pos hs] at hkey
    obtain ⟨⟨e₁, ok⟩, hsaved, heq⟩ := Option.map_eq_some_iff.mp hkey
    obtain ⟨rfl, rfl⟩ := Prod.mk.inj heq
    obtain ⟨h₁, hname, hmode, hwrite⟩ := h.save hsaved
    rw [typed_of_saves (.inr hs)]
    refine ⟨h₁, hname, hmode.trans ?_, .inl ⟨.inr hs, ok, rfl, hwrite⟩⟩
    rw [hs]
    rfl
  have hno := not_saves hx hs
  by_cases hquit : c = 0x11 ∨ c = 0x03
  · unfold Editor.update at hkey
    rw [if_neg hx, if_neg hs, if_pos hquit] at hkey
    obtain ⟨rfl, rfl⟩ := Prod.mk.inj (Option.some.inj hkey)
    have htyped : typed t c = t := by rcases hquit with rfl | rfl <;> rfl
    rw [htyped]
    exact ⟨⟨h.len, h.short, h.noNul, h.front⟩, rfl, (if_pos (.inr hquit)).symm,
      .inr ⟨hno, rfl, rfl⟩⟩
  · obtain ⟨h', hname, hmode, hr, hfs⟩ := h.edit hx hs hquit hkey
    have hstay : modeAfter e.mode c = e.mode := if_neg (not_or.mpr ⟨hx, hquit⟩)
    exact ⟨h', hname, hmode.trans hstay.symm, .inr ⟨hno, hr, hfs⟩⟩

/-! ## The shell's view -/

/-- The shell's state carries the text of the editor. -/
structure Refines {κ : Type} (e : Editor) (s : State κ) : Prop where
  mode : e.mode = s.mode
  filename : e.editFilename = s.editFilename
  fs : e.fs = s.fs
  shows : Shows e s.editBuf

/-- `editUpdate` of the shell's states, as what it does to the text and the files. -/
theorem editUpdate_eq {κ : Type} (s : State κ) (c : UInt8) :
    editUpdate s c =
      if Saves c then (saveEdit s).map fun s => { s with mode := modeAfter s.mode c }
      else some { s with editBuf := typed s.editBuf c, mode := modeAfter s.mode c } := by
  by_cases hx : c = 0x18
  · subst hx
    rfl
  by_cases hs : c = 0x13
  · subst hs
    change saveEdit s = (saveEdit s).map fun s => s
    rw [Option.map_id']
  by_cases hquit : c = 0x11 ∨ c = 0x03
  · rcases hquit with rfl | rfl <;> rfl
  have hstay : modeAfter s.mode c = s.mode := if_neg (not_or.mpr ⟨hx, hquit⟩)
  unfold Shell.editUpdate typed
  rw [if_neg hx, if_neg hs, if_neg hquit, if_neg (not_saves hx hs), hstay]
  split
  · rfl
  · split
    · split <;> rfl
    · rfl

/-- Every key does to the buffer what it does to the shell's list of characters. -/
theorem Refines.editUpdate {κ : Type} {s : State κ} (h : Refines e s) {r : Option Bool}
    (hkey : e.update c = some (e', r)) : ∃ s', editUpdate s c = some s' ∧ Refines e' s' := by
  obtain ⟨h', hname, hmode, hcase⟩ := h.shows.update hkey
  rw [editUpdate_eq]
  rcases hcase with ⟨hsaves, ok, -, hwrite⟩ | ⟨hno, -, hfs⟩
  · rw [typed_of_saves hsaves] at h'
    rw [if_pos hsaves, saveEdit, ← h.fs, ← h.filename, hwrite]
    exact ⟨_, rfl, hmode.trans (by rw [h.mode]; rfl), hname, rfl, h'⟩
  · rw [if_neg hno]
    exact ⟨_, rfl, hmode.trans (by rw [h.mode]), hname.trans h.filename, hfs.trans h.fs, h'⟩

/-! ## Runs -/

theorem shows_of_run {e₀ : Editor} {keys : List UInt8} (h : Shows e₀ t)
    (hrun : Run Step e₀ keys e) :
    Shows e (keys.foldl typed t) ∧ e.editFilename = e₀.editFilename := by
  induction hrun with
  | nil => exact ⟨h, rfl⟩
  | snoc _ hstep ih =>
    obtain ⟨⟨e₁, r⟩, hkey, rfl⟩ := Option.map_eq_some_iff.mp hstep.2
    obtain ⟨h₁, hname, -⟩ := ih.1.update hkey
    rw [List.foldl_append]
    exact ⟨h₁, hname.trans ih.2⟩

/-- Keys that do not save leave the files alone. -/
theorem fs_of_run {keys : List UInt8} (h : Shows e t) (hrun : Run Step e keys e')
    (hno : ∀ c ∈ keys, ¬Saves c) : e'.fs = e.fs := by
  induction hrun with
  | nil => rfl
  | snoc hprev hstep ih =>
    obtain ⟨⟨e₁, r⟩, hkey, rfl⟩ := Option.map_eq_some_iff.mp hstep.2
    have hbefore := ih fun c hc => hno c (List.mem_append_left _ hc)
    obtain ⟨-, -, -, hcase⟩ := (shows_of_run h hprev).1.update hkey
    rcases hcase with ⟨hsaves, -⟩ | ⟨-, -, hfs⟩
    · exact absurd hsaves (hno _ (List.mem_append_right _ (List.mem_singleton_self _)))
    · exact hfs.trans hbefore

/-! ## Every sequence of keys -/

/-- A save of the file comes to an end, whatever the text. -/
def Savable (e : Editor) : Prop :=
  NameFits e.editFilename ∧
    (Filesystem.ParentFits e.editFilename ∨ (findPath e.fs e.editFilename).isSome)

theorem Savable.writeFile (h : Savable e) (habs : e.editFilename.head? = some slash)
    (hlen : e.editFilename.length < maxPathLen) (content : Str) :
    ∃ r, Filesystem.writeFile e.fs e.editFilename content = some r := by
  have hcall := (Filesystem.Call.fits_iff (c := .writeFile e.editFilename content) e.fs habs hlen
    trivial).mpr h
  obtain ⟨r, hr⟩ := Option.isSome_iff_exists.mp hcall
  obtain ⟨q, hq, -⟩ := Option.map_eq_some_iff.mp hr
  exact ⟨q, hq⟩

/-- A file that was saved is there, and a save that fails changes nothing. -/
theorem Savable.update (h : Savable e) (hlen : e.editFilename.length < maxPathLen)
    (hshows : Shows e t) {r : Option Bool} (hkey : e.update c = some (e', r)) : Savable e' := by
  obtain ⟨-, hname, -, hcase⟩ := hshows.update hkey
  unfold Savable at h ⊢
  rw [hname]
  rcases hcase with ⟨-, ok, -, hwrite⟩ | ⟨-, -, hfs⟩
  · cases ok with
    | true =>
      obtain ⟨idx, hfind, -⟩ := Filesystem.writeFile_holds hlen hwrite
      exact ⟨h.1, .inr (by rw [hfind, Option.isSome_some])⟩
    | false =>
      have hsame : e'.fs = e.fs :=
        (Filesystem.writeFile_atomic hwrite).resolve_right fun hok => absurd hok.1 (by decide)
      rwa [hsame]
  · rwa [hfs]

/-- No key overruns the buffer. -/
theorem Shows.update_defined (h : Shows e t) (hsave : Savable e)
    (habs : e.editFilename.head? = some slash) (hlen : e.editFilename.length < maxPathLen)
    (c : UInt8) : ∃ q, e.update c = some q := by
  have hinsert : ∀ c : UInt8, c ≠ 0 → ∃ q : Editor × Option Bool,
      (if e.editLen < 1023 then (e.append c).map fun e => (e, none) else some (e, none)) =
        some q := by
    intro c hc
    have htext := h.len
    split
    · obtain ⟨e₁, happend, -⟩ := h.append (by omega) hc
      rw [happend]
      exact ⟨_, rfl⟩
    · exact ⟨_, rfl⟩
  obtain ⟨w, hw⟩ := hsave.writeFile habs hlen t
  obtain ⟨buf, -, hsaved⟩ := h.save_eq
  rw [hw, Option.map_some] at hsaved
  unfold Editor.update
  rw [hsaved]
  split
  · exact ⟨_, rfl⟩
  split
  · exact ⟨_, rfl⟩
  split
  · exact ⟨_, rfl⟩
  split
  · exact ⟨_, rfl⟩
  split
  · exact hinsert 10 (by decide)
  split
  · rename_i hprint
    refine hinsert c ?_
    rintro rfl
    exact absurd hprint.1 (by decide)
  · exact ⟨_, rfl⟩

/-- As long as no key leaves the editor, keys can be typed on. -/
theorem exists_run {e₀ : Editor} (hshows : Shows e₀ t) (hsave : Savable e₀)
    (hmode : e₀.mode = .edit) (habs : e₀.editFilename.head? = some slash)
    (hlen : e₀.editFilename.length < maxPathLen) (keys : List UInt8) :
    (∀ c ∈ keys.dropLast, ¬Leaves c) → ∃ e, Run Step e₀ keys e ∧ Savable e ∧
      (e.mode = .edit ∨ ∃ c ∈ keys.getLast?, Leaves c) := by
  induction keys using List.reverseRecOn with
  | nil => exact fun _ => ⟨e₀, Run.nil e₀, hsave, .inl hmode⟩
  | append_singleton keys c ih =>
    rw [List.dropLast_concat]
    intro hstay
    obtain ⟨e, hrun, hsave', hnow⟩ := ih fun c hc => hstay c (List.dropLast_subset _ hc)
    have hedit : e.mode = .edit := by
      rcases hnow with hedit | ⟨c, hc, hleaves⟩
      · exact hedit
      · exact absurd hleaves (hstay c (List.mem_of_mem_getLast? hc))
    obtain ⟨h, hname⟩ := shows_of_run hshows hrun
    rw [← hname] at habs hlen
    obtain ⟨⟨e', r⟩, hkey⟩ := h.update_defined hsave' habs hlen c
    obtain ⟨-, -, hmode', -⟩ := h.update hkey
    refine ⟨e', hrun.snoc ⟨hedit, by rw [hkey]; rfl⟩, hsave'.update hlen h hkey, ?_⟩
    by_cases hc : Leaves c
    · exact .inr ⟨c, by simp, hc⟩
    · exact .inl (hmode'.trans ((if_neg hc).trans hedit))

/-- A file that was opened can be saved. -/
theorem Original.savable {e : Editor} {path : Str} (h : Original e.fs path t)
    (habs : path.head? = some slash) (hlen : path.length < maxPathLen) (hname : NameFits path)
    (hfilename : e.editFilename = path) : Savable e := by
  unfold Savable
  rw [hfilename]
  refine ⟨hname, ?_⟩
  rcases h with ⟨idx, hfind, -⟩ | ⟨-, ⟨fs', htouch⟩, -⟩
  · have hfound : findPath e.fs path = some idx := hfind
    exact .inr (by rw [hfound, Option.isSome_some])
  · exact .inl ((Filesystem.touch_ne_none habs hlen).mp (htouch ▸ Option.some_ne_none _)).2

/-- `nano` opens every file and every path that can be created, of at most 63 bytes, and any keys
can be typed until one leaves. Whatever is typed: the length stays in the buffer; a save that
succeeds leaves the file with the text the keys made of its contents; since the last save nothing is
written; and a save right away changes nothing. -/
theorem editor_saves_text (calls : List (Filesystem.Call Str)) (fs : Entries) (path t : Str)
    (hrun : Run (Where (fun _ c => c.WritesString) Filesystem.Step) Filesystem.init calls fs)
    (habs : path.head? = some slash) (hlen : path.length ≤ 63) (horig : Original fs path t) :
    ∃ e₀, nano fs path = some e₀ ∧ e₀.mode = .edit ∧
      (∀ keys, (∀ c ∈ keys.dropLast, ¬Leaves c) → ∃ e, Run Step e₀ keys e) ∧
      ∀ keys e, Run Step e₀ keys e →
      (0 ≤ e.editLen ∧ e.editLen ≤ 1023) ∧
      (∀ c e', Saves c → e.update c = some (e', some true) →
        FileHolds e'.fs path (keys.foldl typed t)) ∧
      (∀ keys' e', Run Step e keys' e' → (∀ c ∈ keys', ¬Saves c) → e'.fs = e.fs) ∧
      (keys = [] → FileHolds fs path t → ∀ c, Saves c →
        ∃ e', e.update c = some (e', some true) ∧ e'.fs = fs) := by
  have hpath : path.length < maxPathLen := hlen.trans_lt (by decide)
  have hfiles := Filesystem.textFiles_of_run hrun
  have hname := horig.nameFits habs hpath (Filesystem.namesFit_of_run hrun.of_where)
  obtain ⟨e₀, hnano, hshows, hfs, hfilename, hmode⟩ :=
    nano_opens habs hlen hname horig (horig.isText hfiles)
  refine ⟨e₀, hnano, hmode, fun keys hstay => ?_, fun keys e hkeys => ?_⟩
  · have hsave : Savable e₀ := (hfs ▸ horig).savable habs hpath hname hfilename
    obtain ⟨e, hkeys, -⟩ := exists_run hshows hsave hmode (hfilename ▸ habs) (hfilename ▸ hpath)
      keys hstay
    exact ⟨e, hkeys⟩
  obtain ⟨h, hsame⟩ := shows_of_run hshows hkeys
  have hpathname : e.editFilename = path := hsame.trans hfilename
  refine ⟨?_, ?_, fun keys' e' => fs_of_run h, ?_⟩
  · have hshort := h.short
    rw [h.len]
    omega
  · intro c e' _ hkey
    obtain ⟨-, -, -, ⟨-, ok, hok, hwrite⟩ | ⟨-, hr, -⟩⟩ := h.update hkey
    · obtain rfl : true = ok := Option.some.inj hok
      rw [hpathname] at hwrite
      have hholds := Filesystem.writeFile_holds hpath hwrite
      rwa [List.take_of_length_le (show _ ≤ maxFileData - 1 from h.short)] at hholds
    · cases hr
  · rintro rfl hholds c hsaves
    have hbefore : e.fs = fs := (fs_of_run hshows hkeys fun c hc => nomatch hc).trans hfs
    have hwrite := Filesystem.writeFile_self habs hpath hname hholds (Nat.lt_succ_of_le h.short)
    obtain ⟨buf, -, hsave⟩ := h.save_eq
    rw [hbefore, hpathname, List.foldl_nil, hwrite, Option.map_some] at hsave
    unfold Editor.update
    rcases hsaves with rfl | rfl
    · rw [if_pos rfl, hsave]
      exact ⟨_, rfl, rfl⟩
    · rw [if_neg (by decide), if_pos rfl, hsave]
      exact ⟨_, rfl, rfl⟩

/-- The keys of an execution. -/
def step (e : Editor) (c : UInt8) : Option Editor :=
  if e.mode = .edit then (e.update c).map Prod.fst else none

def newEditor : Editor := (nano Filesystem.init Filesystem.pathA).get (by decide +kernel)

def typedEditor : Editor := (exec step newEditor [104, 105]).get (by decide +kernel)

def savedEditor : Editor × Option Bool := (typedEditor.update 0x13).get (by decide +kernel)

/-- A new file is opened, two letters are typed, and Ctrl-S is pressed. -/
theorem editor_saves_text_new : nano Filesystem.init Filesystem.pathA = some newEditor ∧
    Run Step newEditor [104, 105] typedEditor ∧
    typedEditor.update 0x13 = some (savedEditor.1, some true) ∧
    FileHolds savedEditor.1.fs Filesystem.pathA [104, 105] := by
  have hcreate : ∃ fs', Filesystem.touch Filesystem.init Filesystem.pathA = some (fs', true) := by
    have htouch : (Filesystem.touch Filesystem.init Filesystem.pathA).map Prod.snd = some true := by
      decide +kernel
    obtain ⟨⟨fs', _⟩, hcall, rfl⟩ := Option.map_eq_some_iff.mp htouch
    exact ⟨fs', hcall⟩
  have hnew : nano Filesystem.init Filesystem.pathA = some newEditor := (Option.some_get _).symm
  have hkeys : Run Step newEditor [104, 105] typedEditor := by
    refine (run_get (f := step) (by decide +kernel)).mono fun e c e' h => ?_
    unfold step at h
    split at h
    · exact ⟨‹_›, h⟩
    · cases h
  have hsave : typedEditor.update 0x13 = some (savedEditor.1, some true) := by
    have hdone : typedEditor.update 0x13 = some savedEditor := (Option.some_get _).symm
    have hok : savedEditor.2 = some true := by decide +kernel
    rw [hdone, ← hok]
  obtain ⟨e₀, hnano, -, -, hall⟩ := editor_saves_text [] Filesystem.init Filesystem.pathA []
    (Run.nil _) rfl (by decide) (.inr ⟨by decide +kernel, hcreate, rfl⟩)
  obtain rfl : e₀ = newEditor := Option.some.inj (hnano.symm.trans hnew)
  exact ⟨hnew, hkeys, hsave, (hall [104, 105] _ hkeys).2.1 0x13 _ (.inr rfl) hsave⟩

end Editor

end QuillOS.Shell
