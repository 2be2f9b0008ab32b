import Mathlib.Data.UInt
import QuillOS.Disk.Model
import QuillOS.Shell.Users

/-!
# Accounts on the disk

`load_from_disk`, `save_to_disk` and `Users::init` over the bytes they move: the table as the compiler
lays it out, behind a header of eight bytes in sector 100. What is saved is found again in every
field, and `Users` is this code with a sector read as what it stands for. The console output is left
out.
-/

namespace QuillOS.Persistence

open Lib
open Users (maxUsers userMagic)

def userSector : UInt32 := 100

/-! ## Layout -/

/-- An entry as it lies in memory. -/
structure User where
  name : Fin 32 → UInt8
  passHash : UInt64
  usecase : UInt8
  onboarded : Bool
  active : Bool
  /-- The bytes up to the alignment of `pass_hash`. -/
  padding : Fin 5 → UInt8

abbrev Table := Fin maxUsers → User

def sizeofUser : ℕ := 48

def boolByte (b : Bool) : UInt8 := if b then 1 else 0

/-- `pass_hash` lies at offset 32, `usecase`, `onboarded` and `active` at 40, 41 and 42. -/
def User.bytes (u : User) : List UInt8 :=
  List.ofFn u.name ++ (leBytes 8 u.passHash.toNat ++
    ([u.usecase, boolByte u.onboarded, boolByte u.active] ++ List.ofFn u.padding))

/-- The entry that lies in these bytes. -/
def userOf (bytes : List UInt8) : User where
  name k := bytes.getD k.val 0
  passHash := UInt64.ofNat (leValue ((bytes.drop 32).take 8))
  usecase := bytes.getD 40 0
  onboarded := bytes.getD 41 0 != 0
  active := bytes.getD 42 0 != 0
  padding k := bytes.getD (43 + k.val) 0

def tableBytes (t : Table) : List UInt8 := (List.ofFn fun i => (t i).bytes).flatten

/-- The memory of `users`. -/
def tableMem (t : Table) : Mem := Mem.store (fun _ => 0) 0 (tableBytes t)

def tableOf (m : Mem) : Table := fun i => userOf (m.load (sizeofUser * i.val) sizeofUser)

/-- `total_size`, cut to what fits behind the header. -/
def totalSize : ℕ := if sizeofUser * maxUsers > 512 - 8 then 512 - 8 else sizeofUser * maxUsers

/-! ## Loading and saving -/

structure State where
  users : Table
  current : Option (Fin maxUsers)
  disk : Disk.State

/-- The magic number in the first four bytes of a sector. -/
def magicOf (sector : Mem) : UInt32 := UInt32.ofNat (sector.loadNat 0 4)

def versionOf (sector : Mem) : UInt32 := UInt32.ofNat (sector.loadNat 4 4)

/-- `junk` is what lies on the stack where the sector is read to. -/
def loadFromDisk (s : State) (junk : Mem) (status : ℕ → UInt8) : State × Bool :=
  if !s.disk.drive.present then (s, false)
  else match Disk.readSector s.disk userSector junk status with
    | none => (s, false)
    | some sector =>
      if magicOf sector ≠ userMagic then (s, false)
      else if versionOf sector ≠ 1 then (s, false)
      else
        ({ s with users := tableOf ((tableMem s.users).store 0 (sector.load 8 totalSize)) }, true)

/-- The sector that `save_to_disk` builds. -/
def savedSector (t : Table) (junk : Mem) : Mem :=
  let sector := junk.fill 0 512 0
  let sector := sector.storeNat 0 4 userMagic.toNat
  let sector := sector.storeNat 4 4 1
  sector.store 8 ((tableMem t).load 0 totalSize)

def saveToDisk (s : State) (junk : Mem) (status : ℕ → UInt8) : State × Bool :=
  if !s.disk.drive.present then (s, false)
  else
    let (disk, ok) := Disk.writeSector s.disk userSector (savedSector s.users junk) status
    ({ s with disk := disk }, ok)

/-- What `Users::init` sets in an entry; the rest of the name stays. -/
def User.clear (u : User) : User :=
  { u with
    active := false, name := Function.update u.name 0 0, passHash := 0, usecase := 0,
    onboarded := false }

/-- The first part of `Users::init`. -/
def clear (s : State) : State := { s with users := fun i => (s.users i).clear, current := none }

def init (s : State) (junk : Mem) (status : ℕ → UInt8) : State :=
  (loadFromDisk (clear s) junk status).1

/-! ## Entries and their bytes -/

theorem length_bytes (u : User) : u.bytes.length = sizeofUser := by
  simp [User.bytes, sizeofUser]

theorem bool_boolByte (b : Bool) : (boolByte b != 0) = b := by
  cases b <;> rfl

/-- The bytes from place 40 on. -/
theorem getElem?_bytes (u : User) (k : ℕ) : u.bytes[40 + k]? =
    ([u.usecase, boolByte u.onboarded, boolByte u.active] ++ List.ofFn u.padding)[k]? := by
  unfold User.bytes
  rw [List.getElem?_append_right (by simp; omega), List.getElem?_append_right (by simp; omega)]
  congr 1
  simp
  omega

/-- An entry is found again in its bytes. -/
theorem userOf_bytes (u : User) : userOf u.bytes = u := by
  have hname : ∀ k : Fin 32, u.bytes.getD k.val 0 = u.name k := by
    intro k
    rw [List.getD_eq_getElem?_getD, User.bytes, List.getElem?_append_left (by simp),
      List.getElem?_ofFn, dif_pos k.isLt]
    rfl
  have hhash : UInt64.ofNat (leValue ((u.bytes.drop 32).take 8)) = u.passHash := by
    rw [User.bytes, List.drop_left' (by simp), List.take_left' (by simp), leValue_leBytes,
      Nat.mod_eq_of_lt (show u.passHash.toNat < 256 ^ 8 from u.passHash.toNat_lt)]
    exact UInt64.ofNat_toNat
  have hflag : ∀ k b, u.bytes[40 + k]? = some b → u.bytes.getD (40 + k) 0 = b := by
    intro k b h
    rw [List.getD_eq_getElem?_getD, h, Option.getD_some]
  have husecase : u.bytes.getD 40 0 = u.usecase := hflag 0 _ (getElem?_bytes u 0)
  have honboarded : u.bytes.getD 41 0 = boolByte u.onboarded := hflag 1 _ (getElem?_bytes u 1)
  have hactive : u.bytes.getD 42 0 = boolByte u.active := hflag 2 _ (getElem?_bytes u 2)
  have hpadding : ∀ k : Fin 5, u.bytes.getD (43 + k.val) 0 = u.padding k := by
    intro k
    rw [show 43 + k.val = 40 + (3 + k.val) by omega]
    refine hflag _ _ ((getElem?_bytes u _).trans ?_)
    rw [List.getElem?_append_right (by simp), List.getElem?_ofFn, dif_pos (by simp)]
    congr 1
    simp
  unfold userOf
  rw [hhash, husecase, honboarded, hactive, bool_boolByte, bool_boolByte, funext hname,
    funext hpadding]

/-! ## The table and its bytes -/

theorem length_of_mem_ofFn (t : Table) {x : List UInt8}
    (hx : x ∈ List.ofFn fun i => (t i).bytes) : x.length = sizeofUser := by
  obtain ⟨i, rfl⟩ := List.mem_ofFn.mp hx
  exact length_bytes (t i)

theorem length_tableBytes (t : Table) : (tableBytes t).length = sizeofUser * maxUsers := by
  unfold tableBytes
  rw [length_flatten_of_length fun _ => length_of_mem_ofFn t, List.length_ofFn]

/-- Entry `i` takes its own bytes of the table. -/
theorem take_drop_tableBytes (t : Table) (i : Fin maxUsers) :
    ((tableBytes t).drop (sizeofUser * i.val)).take sizeofUser = (t i).bytes := by
  have hi : i.val < (List.ofFn fun i => (t i).bytes).length := by
    rw [List.length_ofFn]
    exact i.isLt
  unfold tableBytes
  rw [take_drop_flatten (fun _ => length_of_mem_ofFn t) hi, List.getElem_ofFn]

/-! ## Sectors of accounts -/

/-- The header checks of `load_from_disk`. -/
def Valid (sector : Mem) : Prop := magicOf sector = userMagic ∧ versionOf sector = 1

instance (sector : Mem) : Decidable (Valid sector) := inferInstanceAs (Decidable (_ ∧ _))

/-- The table behind the header. -/
def storedTable (sector : Mem) : Table :=
  fun i => userOf (sector.load (8 + sizeofUser * i.val) sizeofUser)

/-- A sector is known by its 512 bytes. -/
theorem sector_congr {m m' : Mem} (h : ∀ k < 512, m k = m' k) :
    magicOf m = magicOf m' ∧ versionOf m = versionOf m' ∧ storedTable m = storedTable m' := by
  have hnat : ∀ a, a + 4 ≤ 512 → m.loadNat a 4 = m'.loadNat a 4 :=
    fun a ha => Mem.loadNat_congr fun i hi => h _ (by omega)
  refine ⟨congrArg UInt32.ofNat (hnat 0 (by omega)), congrArg UInt32.ofNat (hnat 4 (by omega)), ?_⟩
  funext i
  have hi := i.isLt
  unfold storedTable
  rw [Mem.load_congr fun j hj => h _ (by unfold sizeofUser maxUsers at *; omega)]

theorem valid_congr {m m' : Mem} (h : ∀ k < 512, m k = m' k) : Valid m ↔ Valid m' := by
  unfold Valid
  rw [(sector_congr h).1, (sector_congr h).2.1]

/-- The whole table fits behind the header, so that the copy is not cut. -/
theorem totalSize_eq : totalSize = sizeofUser * maxUsers := rfl

/-- Loading copies every entry of the sector over that of the table. -/
theorem tableOf_store (t : Table) (sector : Mem) :
    tableOf ((tableMem t).store 0 (sector.load 8 totalSize)) = storedTable sector := by
  funext i
  have hi := i.isLt
  have hend : sizeofUser * i.val + sizeofUser ≤ totalSize := by
    rw [totalSize_eq]
    unfold sizeofUser maxUsers at *
    omega
  have hinside := Mem.load_store_inside (m := tableMem t) (a := 0) (l := sector.load 8 totalSize)
    (by rwa [Mem.length_load] : sizeofUser * i.val + sizeofUser ≤ _)
  rw [Nat.zero_add, Mem.drop_load, Mem.take_load, min_eq_left (by omega)] at hinside
  unfold tableOf storedTable
  rw [hinside]

theorem load_tableMem (t : Table) : (tableMem t).load 0 totalSize = tableBytes t := by
  rw [totalSize_eq, ← length_tableBytes t]
  exact Mem.load_store _

/-- Every entry of the saved sector is that of the table. -/
theorem storedTable_savedSector (t : Table) (junk : Mem) : storedTable (savedSector t junk) = t := by
  funext i
  have hi := i.isLt
  unfold storedTable savedSector
  rw [load_tableMem, Mem.load_store_inside, take_drop_tableBytes, userOf_bytes]
  rw [length_tableBytes]
  unfold sizeofUser maxUsers at *
  omega

/-- The saved header passes its own checks. -/
theorem valid_savedSector (t : Table) (junk : Mem) : Valid (savedSector t junk) := by
  have hmagic : (savedSector t junk).loadNat 0 4 = userMagic.toNat := by
    unfold savedSector Mem.loadNat
    rw [Mem.load_store_of_disjoint (.inl (by omega))]
    exact (Mem.loadNat_storeNat_of_disjoint (by omega)).trans (Mem.loadNat_storeNat (by decide))
  have hversion : (savedSector t junk).loadNat 4 4 = 1 := by
    unfold savedSector Mem.loadNat
    rw [Mem.load_store_of_disjoint (.inl (by omega))]
    exact Mem.loadNat_storeNat (by decide)
  unfold Valid magicOf versionOf
  rw [hmagic, hversion]
  exact ⟨UInt32.ofNat_toNat, rfl⟩

/-! ## Restored tables -/

/-- What a read of the sector of the accounts finds. -/
def State.sector (s : State) : Mem := Disk.readWords (s.disk.sectors (Disk.address userSector)) 0

/-- The bytes that a read finds do not depend on where they are read to. -/
theorem readWords_eq_sector (s : State) (junk : Mem) {k : ℕ} (hk : k < 512) :
    Disk.readWords (s.disk.sectors (Disk.address userSector)) junk k = s.sector k :=
  Disk.readWords_congr _ _ _ hk

theorem loadFromDisk_of_valid {s : State} (husable : s.disk.Usable userSector) {status : ℕ → UInt8}
    (hstatus : Disk.ataWaitDrq status = true) (hvalid : Valid s.sector) (junk : Mem) :
    loadFromDisk s junk status = ({ s with users := storedTable s.sector }, true) := by
  obtain ⟨hmagic, hversion, htable⟩ := sector_congr fun _ hk => readWords_eq_sector s junk hk
  unfold loadFromDisk
  rw [if_neg (by simp [husable.1]), Disk.readSector_of_usable husable hstatus]
  dsimp only
  rw [hmagic, hversion, if_neg (not_not.mpr hvalid.1), if_neg (not_not.mpr hvalid.2), tableOf_store,
    htable]

/-- A sector with another header is not taken. -/
theorem loadFromDisk_of_not_valid {s : State} (hvalid : ¬Valid s.sector) (junk : Mem)
    (status : ℕ → UInt8) : loadFromDisk s junk status = (s, false) := by
  obtain ⟨hmagic, hversion, -⟩ := sector_congr fun _ hk => readWords_eq_sector s junk hk
  unfold loadFromDisk
  split_ifs
  · rfl
  split
  · rfl
  · rename_i sector hread
    obtain rfl := Disk.readSector_eq_some hread
    split_ifs with h1 h2
    · rfl
    · rfl
    · rw [hmagic] at h1
      rw [hversion] at h2
      exact absurd ⟨not_not.mp h1, not_not.mp h2⟩ hvalid

/-- After a save the sector holds the table under a valid header. -/
theorem saveToDisk_sector {s : State} {junk : Mem} {status : ℕ → UInt8}
    (h : (saveToDisk s junk status).2 = true) :
    (saveToDisk s junk status).1.disk.sectors (Disk.address userSector) =
      Disk.wordOf (savedSector s.users junk) := by
  unfold saveToDisk at h ⊢
  split_ifs at h ⊢
  change (Disk.writeSector s.disk userSector (savedSector s.users junk) status).2 = true at h
  change (Disk.writeSector s.disk userSector (savedSector s.users junk) status).1.sectors _ = _
  rw [Disk.writeSector_of_true h]
  exact Function.update_self (Disk.address userSector) _ s.disk.sectors

theorem saveToDisk_eq_true_iff {s : State} {junk : Mem} {status : ℕ → UInt8} :
    (saveToDisk s junk status).2 = true ↔
      s.disk.Usable userSector ∧ Disk.ataWaitDrq status = true := by
  unfold saveToDisk
  split_ifs with hpresent
  · simp only [Bool.not_eq_true'] at hpresent
    simp [Disk.State.Usable, hpresent]
  · exact Disk.writeSector_eq_true_iff

theorem saveToDisk_frame (s : State) (junk : Mem) (status : ℕ → UInt8) :
    (saveToDisk s junk status).1.users = s.users ∧
      (saveToDisk s junk status).1.current = s.current ∧
      (saveToDisk s junk status).1.disk.drive = s.disk.drive := by
  unfold saveToDisk
  split_ifs
  · exact ⟨rfl, rfl, rfl⟩
  · exact ⟨rfl, rfl, Disk.writeSector_drive _ _ _ _⟩

/-- An entry of an empty table. -/
structure User.Cleared (u : User) : Prop where
  active : u.active = false
  name : u.name 0 = 0
  passHash : u.passHash = 0
  usecase : u.usecase = 0
  onboarded : u.onboarded = false

theorem User.clear_cleared (u : User) : u.clear.Cleared where
  active := rfl
  name := Function.update_self (0 : Fin 32) 0 u.name
  passHash := rfl
  usecase := rfl
  onboarded := rfl

/-- A table whose save succeeds is the table that `Users::init` finds when the drive gives the sector
back, whatever the memory holds by then, and nobody is logged in. From a sector without the magic
number or with another version it makes an empty table. -/
theorem accounts_persist :
    (∀ (s : State) (junk : Mem) (status : ℕ → UInt8), (saveToDisk s junk status).2 = true →
      ∀ (t : State) (junk' : Mem) (status' : ℕ → UInt8), t.disk.Usable userSector →
        t.disk.sectors (Disk.address userSector) =
          (saveToDisk s junk status).1.disk.sectors (Disk.address userSector) →
        Disk.ataWaitDrq status' = true →
        (init t junk' status').users = s.users ∧ (init t junk' status').current = none) ∧
    (∀ (t : State) (junk : Mem) (status : ℕ → UInt8), ¬Valid t.sector →
      (∀ i, ((init t junk status).users i).Cleared) ∧ (init t junk status).current = none) := by
  constructor
  · intro s junk status hsave t junk' status' husable hsector hstatus
    have hbytes : ∀ k < 512, (clear t).sector k = savedSector s.users junk k := by
      intro k hk
      change Disk.readWords (t.disk.sectors (Disk.address userSector)) 0 k = _
      rw [hsector, saveToDisk_sector hsave]
      exact Disk.readWords_wordOf _ _ hk
    have hvalid : Valid (clear t).sector := (valid_congr hbytes).mpr (valid_savedSector _ _)
    have hload := loadFromDisk_of_valid (s := clear t) husable hstatus hvalid junk'
    unfold init
    rw [hload]
    refine ⟨?_, rfl⟩
    exact (sector_congr hbytes).2.2.trans (storedTable_savedSector s.users junk)
  · intro t junk status hvalid
    have hload := loadFromDisk_of_not_valid (s := clear t) hvalid junk status
    unfold init
    rw [hload]
    exact ⟨fun i => (t.users i).clear_cleared, rfl⟩

/-- Three accounts of names of one letter, on an empty disk. -/
def sampleState : State where
  users i :=
    { name := fun k => if k.val = 0 then 97 + UInt8.ofNat i.val else 0
      passHash := 0x1234567890ABCDEF
      usecase := UInt8.ofNat i.val
      onboarded := decide (i.val < 2)
      active := decide (i.val < 3)
      padding := fun _ => 0xCC }
  current := some 1
  disk := ⟨⟨true, 200, true⟩, fun _ _ => 0⟩

/-- A drive that is busy for two polls. -/
def sampleStatus (i : ℕ) : UInt8 := if i < 2 then 0x80 else 0x58

/-- The kernel after a restart: nothing in memory, the disk as it was left. -/
def restarted : State where
  users _ := userOf []
  current := none
  disk := (saveToDisk sampleState (fun _ => 0xCC) sampleStatus).1.disk

theorem accounts_persist_restarted :
    (init restarted (fun _ => 0xAA) sampleStatus).users = sampleState.users ∧
      (init restarted (fun _ => 0xAA) sampleStatus).current = none := by
  have hstatus : Disk.ataWaitDrq sampleStatus = true := by decide +kernel
  have husable : sampleState.disk.Usable userSector := by decide
  have hsave : (saveToDisk sampleState (fun _ => 0xCC) sampleStatus).2 = true :=
    saveToDisk_eq_true_iff.mpr ⟨husable, hstatus⟩
  have hdrive := (saveToDisk_frame sampleState (fun _ => 0xCC) sampleStatus).2.2
  refine accounts_persist.1 sampleState _ _ hsave restarted _ _ ?_ rfl hstatus
  unfold Disk.State.Usable restarted
  rw [hdrive]
  exact husable

/-! ## The sector as a header and accounts -/

def cString (name : Fin 32 → UInt8) : Filesystem.Str := (List.ofFn name).takeWhile (· ≠ 0)

/-- A byte that is none of the others reads as no use case, as in `usecase_name`. -/
def useCaseOf (b : UInt8) : Users.UseCase :=
  if b = 1 then .dev
  else if b = 2 then .hosting
  else if b = 3 then .cluster
  else if b = 4 then .daily
  else .none

def User.account (u : User) : Users.User where
  name := cString u.name
  passHash := u.passHash
  usecase := useCaseOf u.usecase
  onboarded := u.onboarded
  active := u.active

def accounts (t : Table) : Users.Table := fun i => (t i).account

def sectorOf (sector : Mem) : Users.Sector where
  magic := magicOf sector
  version := versionOf sector
  users := accounts (storedTable sector)

/-- The state as `Users` has it. -/
def State.view (s : State) : Users.State where
  users := accounts s.users
  current := s.current
  disk := { present := decide (s.disk.Usable userSector), userSector := sectorOf s.sector }

theorem account_clear (u : User) : u.clear.account = Users.blankUser := by
  have hname : cString u.clear.name = [] := by
    unfold cString
    rw [List.ofFn_succ, List.takeWhile_cons_of_neg]
    simp [User.clear]
  unfold User.account Users.blankUser
  rw [hname]
  rfl

theorem view_clear (s : State) : (clear s).view = Users.clear s.view := by
  have hblank : accounts (clear s).users = Users.blank := funext fun i => account_clear (s.users i)
  unfold State.view Users.clear
  rw [hblank]
  rfl

theorem loadFromDisk_of_not_usable {s : State} (h : ¬s.disk.Usable userSector) (junk : Mem)
    (status : ℕ → UInt8) : loadFromDisk s junk status = (s, false) := by
  unfold loadFromDisk
  rw [Disk.readSector_of_not_usable h]
  split_ifs <;> rfl

theorem saveToDisk_of_not_usable {s : State} (h : ¬s.disk.Usable userSector) (junk : Mem)
    (status : ℕ → UInt8) : (saveToDisk s junk status).1 = s := by
  unfold saveToDisk
  rw [Disk.writeSector_of_not_usable h]
  split_ifs <;> rfl

/-- `Users::init` on the bytes is `Users.init`, on a drive that answers. -/
theorem view_init (s : State) (junk : Mem) {status : ℕ → UInt8}
    (hstatus : Disk.ataWaitDrq status = true) :
    (init s junk status).view = Users.init s.view := by
  unfold init Users.init
  rw [← view_clear s]
  generalize clear s = t
  unfold Users.loadFromDisk
  by_cases husable : t.disk.Usable userSector
  · have hpresent : t.view.disk.present = true := decide_eq_true husable
    rw [if_neg (by simp [hpresent])]
    by_cases hvalid : Valid t.sector
    · have hview : t.view.disk.userSector.Valid := hvalid
      rw [loadFromDisk_of_valid husable hstatus hvalid, if_pos hview]
      rfl
    · have hview : ¬t.view.disk.userSector.Valid := hvalid
      rw [loadFromDisk_of_not_valid hvalid, if_neg hview]
  · have hpresent : t.view.disk.present = false := decide_eq_false husable
    rw [loadFromDisk_of_not_usable husable, if_pos (by simp [hpresent])]

/-- `save_to_disk` on the bytes is `Users.saveToDisk`. -/
theorem view_saveToDisk (s : State) (junk : Mem) {status : ℕ → UInt8}
    (hstatus : Disk.ataWaitDrq status = true) :
    (saveToDisk s junk status).1.view = Users.saveToDisk s.view := by
  unfold Users.saveToDisk
  by_cases husable : s.disk.Usable userSector
  · have hpresent : s.view.disk.present = true := decide_eq_true husable
    have hsave : (saveToDisk s junk status).2 = true :=
      saveToDisk_eq_true_iff.mpr ⟨husable, hstatus⟩
    have hbytes : ∀ k < 512,
        (saveToDisk s junk status).1.sector k = savedSector s.users junk k := by
      intro k hk
      unfold State.sector
      rw [saveToDisk_sector hsave]
      exact Disk.readWords_wordOf _ _ hk
    obtain ⟨hmagic, hversion, htable⟩ := sector_congr hbytes
    have hvalid := valid_savedSector s.users junk
    have hsector : sectorOf (saveToDisk s junk status).1.sector =
        { magic := userMagic, version := 1, users := accounts s.users } := by
      unfold sectorOf
      rw [hmagic, hversion, htable, hvalid.1, hvalid.2, storedTable_savedSector]
    obtain ⟨husers, hcurrent, hdrive⟩ := saveToDisk_frame s junk status
    have hview : (saveToDisk s junk status).1.disk.Usable userSector := by
      unfold Disk.State.Usable
      rwa [hdrive]
    rw [if_neg (by simp [hpresent])]
    unfold State.view
    rw [hsector, husers, hcurrent, decide_eq_true hview, decide_eq_true husable]
  · have hpresent : s.view.disk.present = false := decide_eq_false husable
    rw [saveToDisk_of_not_usable husable, if_pos (by simp [hpresent])]

end QuillOS.Persistence
