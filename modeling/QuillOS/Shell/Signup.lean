import QuillOS.Lib.Run
import QuillOS.Shell.Users

/-!
# Accounts that can log in

`create` stores a name cut to 31 characters and `find` compares the whole of it. As long as no name
is cut, the table holds exactly the accounts created, each under its own name.
-/

namespace QuillOS.Users

open Lib
open Filesystem (Str)

variable {s : State} {name password : Str} {i j : Fin maxUsers}

/-! ## Calls -/

inductive Call
  | create (name password : Str)
  | find (name : Str)
  | verify (name password : Str)

/-- An account as it was created: its name, its hash and the slot it was given. -/
structure Account where
  name : Str
  passHash : UInt64
  slot : Fin maxUsers
  deriving DecidableEq

/-- The users, and the accounts created so far. -/
structure Registry where
  st : State
  accounts : List Account

/-- The accounts in a table. -/
def stored (s : State) : List Account :=
  ((List.finRange maxUsers).filter fun i => (s.users i).active).map fun i =>
    ⟨(s.users i).name, (s.users i).passHash, i⟩

def start (s : State) : Registry := ⟨s, stored s⟩

/-- The account is entered when `create` returns true. -/
def Registry.step (k : Registry) : Call → Option Registry
  | .create name password =>
    let r := create k.st name password
    some ⟨r.1, if r.2 then
      ((freeSlot k.st).map fun i => ⟨name, hashPassword password, i⟩).toList ++ k.accounts
      else k.accounts⟩
  | .find _ => some k
  | .verify _ _ => some k

abbrev Registry.Step (k : Registry) (c : Call) (k' : Registry) : Prop := k.step c = some k'

/-- A call that stores no name that has to be cut. -/
def NameKept (k : Registry) : Call → Prop
  | .create name _ => Creates k.st name → name.length ≤ 31
  | _ => True

instance (k : Registry) (c : Call) : Decidable (NameKept k c) := by
  cases c <;> unfold NameKept <;> infer_instance

/-! ## The invariant -/

/-- Active users have different names. -/
def Distinct (s : State) : Prop :=
  ∀ i j, (s.users i).active = true → (s.users j).active = true →
    (s.users i).name = (s.users j).name → i = j

/-- The accounts are the active users. -/
structure RegistryInv (k : Registry) : Prop where
  distinct : Distinct k.st
  accounts : ∀ a : Account, a ∈ k.accounts ↔ (k.st.users a.slot).active = true ∧
    (k.st.users a.slot).name = a.name ∧ (k.st.users a.slot).passHash = a.passHash

/-- Where names differ, an active user is the one found under its name. -/
theorem Distinct.find (h : Distinct s) (hactive : (s.users i).active = true)
    (hname : (s.users i).name = name) : find s name = some i := by
  cases hfind : Users.find s name with
  | none => exact absurd hname (find_eq_none.mp hfind i hactive)
  | some j =>
    obtain ⟨hactive', hname'⟩ := find_spec hfind
    rw [h j i hactive' hactive (hname'.trans hname.symm)]

theorem registryInv_start (h : Distinct s) : RegistryInv (start s) := by
  refine ⟨h, fun a => ?_⟩
  simp only [start, stored, List.mem_map, List.mem_filter, List.mem_finRange, true_and]
  constructor
  · rintro ⟨i, hactive, rfl⟩
    exact ⟨hactive, rfl, rfl⟩
  · rintro ⟨hactive, hname, hhash⟩
    refine ⟨a.slot, hactive, ?_⟩
    rw [hname, hhash]

/-- An account is created under its whole name. -/
theorem RegistryInv.created {k : Registry} (inv : RegistryInv k) (hlen : name.length ≤ 31)
    (h : Creates k.st name) (hslot : freeSlot k.st = some i) (password : Str) :
    RegistryInv ⟨(create k.st name password).1,
      ⟨name, hashPassword password, i⟩ :: k.accounts⟩ := by
  have husers := create_users h hslot password
  have hfree := freeSlot_spec hslot
  have hkept : strCopy name 32 = name := List.take_of_length_le hlen
  have hnew := find_eq_none.mp h.2.1
  constructor
  · intro j l hj hl hsame
    rw [husers] at hj hl hsame
    by_cases hji : j = i
    · by_cases hli : l = i
      · rw [hji, hli]
      · rw [Function.update_of_ne hli] at hl hsame
        rw [hji, Function.update_self, newUser, hkept] at hsame
        exact absurd hsame.symm (hnew l hl)
    · rw [Function.update_of_ne hji] at hj hsame
      by_cases hli : l = i
      · rw [hli, Function.update_self, newUser, hkept] at hsame
        exact absurd hsame (hnew j hj)
      · rw [Function.update_of_ne hli] at hl hsame
        exact inv.distinct j l hj hl hsame
  · intro a
    rw [List.mem_cons, inv.accounts, husers]
    by_cases ha : a.slot = i
    · rw [ha, Function.update_self, hfree, newUser, hkept]
      constructor
      · rintro (rfl | ⟨hactive, -⟩)
        · exact ⟨rfl, rfl, rfl⟩
        · cases hactive
      · rintro ⟨-, rfl, hhash⟩
        left
        rw [← ha]
        cases a
        exact congrArg (Account.mk _ · _) hhash.symm
    · rw [Function.update_of_ne ha]
      refine or_iff_right ?_
      rintro rfl
      exact ha rfl

theorem RegistryInv.step {k k' : Registry} {c : Call} (inv : RegistryInv k) (hc : NameKept k c)
    (h : k.step c = some k') : RegistryInv k' := by
  cases c with
  | create name password =>
    obtain rfl := Option.some.inj h
    by_cases hcreates : Creates k.st name
    · obtain ⟨i, hi⟩ := Option.isSome_iff_exists.mp hcreates.2.2
      rw [if_pos (create_eq_true_iff.mpr hcreates), hi]
      exact inv.created (hc hcreates) hcreates hi password
    · rw [create_of_not hcreates]
      exact inv
  | find name =>
    obtain rfl := Option.some.inj h
    exact inv
  | verify name password =>
    obtain rfl := Option.some.inj h
    exact inv

/-! ## The laws -/

/-- What the account functions promise: each account created is found and lets its password in, its
name is taken, no two active users have the same name, and a password is accepted only if it has the
hash stored for the account of that name. -/
structure LoginSound (k : Registry) : Prop where
  login : ∀ a ∈ k.accounts, find k.st a.name = some a.slot ∧
    ∀ password, hashPassword password = a.passHash → verify k.st a.name password = true
  taken : ∀ a ∈ k.accounts, ∀ password, create k.st a.name password = (k.st, false)
  distinct : Distinct k.st
  genuine : ∀ name password, verify k.st name password = true →
    ∃ a ∈ k.accounts, a.name = name ∧ hashPassword password = a.passHash

theorem verify_of_find (h : find s name = some i) (password : Str) :
    verify s name password = true ↔ (s.users i).passHash = hashPassword password := by
  unfold verify
  rw [h]
  exact beq_iff_eq

theorem RegistryInv.login {k : Registry} (inv : RegistryInv k) {a : Account}
    (ha : a ∈ k.accounts) : find k.st a.name = some a.slot ∧
      ∀ password, hashPassword password = a.passHash → verify k.st a.name password = true := by
  obtain ⟨hactive, hname, hhash⟩ := (inv.accounts a).mp ha
  have hfind := inv.distinct.find hactive hname
  refine ⟨hfind, fun password hpass => ?_⟩
  rw [verify_of_find hfind, hhash, hpass]

theorem RegistryInv.sound {k : Registry} (inv : RegistryInv k) : LoginSound k := by
  constructor
  · exact fun a ha => inv.login ha
  · intro a ha password
    apply create_of_not
    rintro ⟨-, hnone, -⟩
    rw [(inv.login ha).1] at hnone
    cases hnone
  · exact inv.distinct
  · intro name password hverify
    cases hfind : find k.st name with
    | none =>
      rw [verify, hfind] at hverify
      cases hverify
    | some i =>
      obtain ⟨hactive, hname⟩ := find_spec hfind
      rw [verify_of_find hfind] at hverify
      exact ⟨⟨name, (k.st.users i).passHash, i⟩, (inv.accounts _).mpr ⟨hactive, hname, rfl⟩, rfl,
        hverify.symm⟩

/-- An account whose name was cut is not found under it. -/
theorem not_sound_of_cut {k k' : Registry} {c : Call} (h : k.step c = some k')
    (hcut : ¬NameKept k c) : ¬LoginSound k' := by
  intro sound
  cases c with
  | create name password =>
    obtain rfl := Option.some.inj h
    obtain ⟨hcreates, hlong⟩ := Classical.not_imp.mp hcut
    obtain ⟨i, hi⟩ := Option.isSome_iff_exists.mp hcreates.2.2
    have hin : (⟨name, hashPassword password, i⟩ : Account) ∈
        ((freeSlot k.st).map fun i => (⟨name, hashPassword password, i⟩ : Account)).toList ++
          k.accounts := by
      rw [hi]
      exact List.mem_cons_self
    have hlogin := sound.login ⟨name, hashPassword password, i⟩
      (by rwa [if_pos (create_eq_true_iff.mpr hcreates)])
    obtain ⟨-, hname⟩ := find_spec hlogin.1
    simp only at hname
    rw [create_users hcreates hi, Function.update_self] at hname
    have hlength : (strCopy name 32).length = name.length := congrArg List.length hname
    rw [strCopy, List.length_take] at hlength
    omega
  | find name => exact hcut trivial
  | verify name password => exact hcut trivial

/-- In every run in which no accepted name is cut the laws hold, in every state, and a step keeps
them exactly if it cuts no name. -/
theorem accounts_login {k : Registry} {cs : List Call} (hdistinct : Distinct s)
    (hrun : Run (Where NameKept Registry.Step) (start s) cs k) :
    LoginSound k ∧ ∀ c k', k.Step c k' → (LoginSound k' ↔ NameKept k c) := by
  have inv : RegistryInv k := by
    apply hrun.invariant RegistryInv (registryInv_start hdistinct)
    rintro k c k' inv ⟨hc, hstep⟩
    exact inv.step hc hstep
  refine ⟨inv.sound, fun c k' hstep => ⟨fun sound => ?_, fun hc => (inv.step hc hstep).sound⟩⟩
  by_contra hcut
  exact not_sound_of_cut hstep hcut sound

/-- No accounts, and no disk. -/
def noUsers : State := ⟨blank, none, ⟨false, ⟨0, 0, blank⟩⟩⟩

theorem distinct_noUsers : Distinct noUsers := by
  intro i j hi
  cases hi

/-- `"ab"` is created. -/
@[irreducible] def oneUser : Registry :=
  (exec (guarded NameKept Registry.step) (start noUsers) [.create [97, 98] [120, 121, 122]]).get
    (by decide +kernel)

theorem run_oneUser : Run (Where NameKept Registry.Step) (start noUsers)
    [.create [97, 98] [120, 121, 122]] oneUser := by
  unfold oneUser
  exact run_where_get _

theorem accounts_login_oneUser : oneUser.accounts.length = 1 ∧ LoginSound oneUser :=
  ⟨by decide +kernel, (accounts_login distinct_noUsers run_oneUser).1⟩

/-- Forty letters. -/
def longName : Str := List.replicate 40 97

@[irreducible] def cutUser : Registry :=
  ((start noUsers).step (.create longName [120, 121, 122])).get (by decide +kernel)

theorem step_cutUser : (start noUsers).Step (.create longName [120, 121, 122]) cutUser := by
  unfold cutUser
  exact (Option.some_get _).symm

/-- It is accepted, but no one can log in with it. -/
theorem long_name_locked_out : ¬∀ {s : State} {k : Registry} {cs : List Call}, Distinct s →
    Run Registry.Step (start s) cs k → LoginSound k := by
  intro h
  have hsound := h distinct_noUsers (Run.single step_cutUser)
  exact not_sound_of_cut step_cutUser (by decide +kernel) hsound

end QuillOS.Users
