import Mathlib.Data.Fintype.Basic
import QuillOS.Filesystem.Path

/-!
# User accounts

`users.cpp`: eight accounts in memory, saved to disk sector 100 after each change. A pointer to a
user is its index in the table. Of the disk only that sector is kept, read as the header and the
accounts that `load_from_disk` takes from it; the padding of the entries is left out.
-/

namespace QuillOS.Users

open Filesystem (Str)

abbrev maxUsers : ℕ := 8

instance : NeZero maxUsers := ⟨by decide⟩

def userMagic : UInt32 := 0x53524551

inductive UseCase
  | none
  | dev
  | hosting
  | cluster
  | daily
  deriving DecidableEq, Repr

structure User where
  name : Str
  passHash : UInt64
  usecase : UseCase
  onboarded : Bool
  active : Bool
  deriving DecidableEq, Repr

abbrev Table := Fin maxUsers → User

/-- An entry as `Users::init` clears it. -/
def blankUser : User where
  name := []
  passHash := 0
  usecase := .none
  onboarded := false
  active := false

def blank : Table := fun _ => blankUser

structure Sector where
  magic : UInt32
  version : UInt32
  users : Table

/-- The disk as the driver sees it: `present` is set by `Disk::init`. -/
structure Disk where
  present : Bool
  userSector : Sector

structure State where
  users : Table
  current : Option (Fin maxUsers)
  disk : Disk

/-- `str_copy`. -/
def strCopy (src : Str) (max : ℕ) : Str := src.take (max - 1)

/-! ## Disk -/

/-- The header checks of `load_from_disk`. -/
def Sector.Valid (d : Sector) : Prop := d.magic = userMagic ∧ d.version = 1

instance (d : Sector) : Decidable d.Valid :=
  inferInstanceAs (Decidable (d.magic = userMagic ∧ d.version = 1))

/-- The table and whether one was found. -/
def loadFromDisk (s : State) : State × Bool :=
  if !s.disk.present then (s, false)
  else if s.disk.userSector.Valid then ({ s with users := s.disk.userSector.users }, true)
  else (s, false)

def saveToDisk (s : State) : State :=
  if !s.disk.present then s
  else { s with disk := { s.disk with
    userSector := { magic := userMagic, version := 1, users := s.users } } }

/-- The first part of `Users::init`. -/
def clear (s : State) : State := { s with users := blank, current := none }

def init (s : State) : State := (loadFromDisk (clear s)).1

/-! ## Accounts -/

/-- 64-bit FNV-1a. -/
def hashPassword (password : Str) : UInt64 :=
  password.foldl (fun hash c => (hash ^^^ c.toUInt64) * 0x100000001b3) 0xcbf29ce484222325

def find (s : State) (name : Str) : Option (Fin maxUsers) :=
  Fin.find? fun i => (s.users i).active && decide ((s.users i).name = name)

def freeSlot (s : State) : Option (Fin maxUsers) := Fin.find? fun i => !(s.users i).active

/-- The account `create` stores. -/
def newUser (name password : Str) : User where
  name := strCopy name 32
  passHash := hashPassword password
  usecase := .none
  onboarded := false
  active := true

def create (s : State) (name password : Str) : State × Bool :=
  if name = [] then (s, false)
  else if (find s name).isSome then (s, false)
  else match freeSlot s with
    | none => (s, false)
    | some i =>
      (saveToDisk { s with users := Function.update s.users i (newUser name password) }, true)

def verify (s : State) (name password : Str) : Bool :=
  match find s name with
  | none => false
  | some i => (s.users i).passHash == hashPassword password

def count (s : State) : ℕ := (List.finRange maxUsers).countP fun i => (s.users i).active

def setUsecase (s : State) (u : Option (Fin maxUsers)) (uc : UseCase) : State :=
  match u with
  | none => s
  | some i => saveToDisk
      { s with users := Function.update s.users i { s.users i with usecase := uc } }

def completeOnboarding (s : State) (u : Option (Fin maxUsers)) : State :=
  match u with
  | none => s
  | some i => saveToDisk
      { s with users := Function.update s.users i { s.users i with onboarded := true } }

/-! ## What a call leaves alone -/

@[simp] theorem saveToDisk_users (s : State) : (saveToDisk s).users = s.users := by
  unfold saveToDisk
  split <;> rfl

theorem freeSlot_spec {s : State} {i : Fin maxUsers} (h : freeSlot s = some i) :
    (s.users i).active = false := by
  unfold freeSlot at h
  simpa using (Fin.find?_eq_some_iff.mp h).1

theorem find_spec {s : State} {name : Str} {i : Fin maxUsers} (h : find s name = some i) :
    (s.users i).active = true ∧ (s.users i).name = name := by
  unfold find at h
  simpa using (Fin.find?_eq_some_iff.mp h).1

theorem find_eq_none {s : State} {name : Str} : find s name = none ↔
    ∀ i, (s.users i).active = true → (s.users i).name ≠ name := by
  unfold find
  rw [Fin.find?_eq_none_iff]
  exact forall_congr' fun i => by simp

/-- A call of `create` goes through. -/
def Creates (s : State) (name : Str) : Prop :=
  name ≠ [] ∧ find s name = none ∧ (freeSlot s).isSome

instance (s : State) (name : Str) : Decidable (Creates s name) :=
  inferInstanceAs (Decidable (name ≠ [] ∧ find s name = none ∧ (freeSlot s).isSome))

theorem create_eq_true_iff {s : State} {name password : Str} :
    (create s name password).2 = true ↔ Creates s name := by
  unfold create Creates
  split_ifs with hname hfind
  · simp [hname]
  · simp [Option.isSome_iff_ne_none.mp hfind]
  · have hnone : find s name = none := by simpa using hfind
    cases hfree : freeSlot s with
    | none => simp
    | some i => simp [hname, hnone]

/-- A refused `create` changes nothing. -/
theorem create_of_not {s : State} {name : Str} (h : ¬ Creates s name) (password : Str) :
    create s name password = (s, false) := by
  unfold Creates at h
  unfold create
  split_ifs with hname hfind
  · rfl
  · rfl
  · have hnone : find s name = none := by simpa using hfind
    cases hfree : freeSlot s with
    | none => rfl
    | some i => exact absurd ⟨hname, hnone, by simp [hfree]⟩ h

/-- The account goes to the free slot. -/
theorem create_users {s : State} {name : Str} {i : Fin maxUsers} (h : Creates s name)
    (hslot : freeSlot s = some i) (password : Str) :
    (create s name password).1.users = Function.update s.users i (newUser name password) := by
  obtain ⟨hname, hfind, -⟩ := h
  simp [create, hname, hfind, hslot]

/-- An account created is active in a slot that was free. -/
theorem create_users_ne {s : State} {name : Str} (h : Creates s name) (password : Str) :
    (create s name password).1.users ≠ s.users := by
  obtain ⟨i, hi⟩ := Option.isSome_iff_exists.mp h.2.2
  intro heq
  have hactive := congrArg User.active (congrFun heq i)
  rw [create_users h hi, Function.update_self, freeSlot_spec hi] at hactive
  cases hactive

end QuillOS.Users
