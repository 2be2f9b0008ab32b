import Mathlib.Data.Fintype.Card

/-!
# Tables of slots

A table of `n` slots, some of them in use, each used one under a key. `store` brings the used slot
of a key up to date, or else fills the first free slot, or else does nothing. While keys are
distinct such a table is a partial map from keys to slots.
-/

namespace Lib

/-- What tells the other slots apart, and the written one from each of them, tells all apart. -/
theorem unique_of_others {ι β : Type*} {p : ι → Prop} {f : ι → β} (a : ι)
    (hothers : ∀ i j, i ≠ a → j ≠ a → p i → p j → f i = f j → i = j)
    (hnew : ∀ i, i ≠ a → p i → p a → f i ≠ f a) (i j : ι) (hi : p i) (hj : p j)
    (heq : f i = f j) : i = j := by
  by_cases hia : i = a
  · by_cases hja : j = a
    · rw [hia, hja]
    · exact absurd (hia ▸ heq.symm) (hnew j hja hj (hia ▸ hi))
  · by_cases hja : j = a
    · exact absurd (hja ▸ heq) (hnew i hia hi (hja ▸ hj))
    · exact hothers i j hia hja hi hj heq

namespace Slots

variable {n : ℕ} {α κ : Type*} [DecidableEq κ] (used : α → Bool) (key : α → κ)

/-- The first used slot of a key. -/
def find (t : Fin n → α) (k : κ) : Option (Fin n) :=
  Fin.find? fun i => used (t i) && key (t i) == k

def findFree (t : Fin n → α) : Option (Fin n) := Fin.find? fun i => !used (t i)

def store (refresh fill : α → α) (t : Fin n → α) (k : κ) : Fin n → α :=
  match find used key t k with
  | some i => Function.update t i (refresh (t i))
  | none =>
    match findFree used t with
    | some i => Function.update t i (fill (t i))
    | none => t

/-- Some used slot has the key. -/
def Holds (t : Fin n → α) (k : κ) : Prop := ∃ i, used (t i) = true ∧ key (t i) = k

/-- The key is in the table, or a slot is free for it. -/
def HasRoom (t : Fin n → α) (k : κ) : Prop := Holds used key t k ∨ ∃ i, used (t i) = false

/-- No key has two used slots. -/
def Distinct (t : Fin n → α) : Prop :=
  ∀ i j, used (t i) = true → used (t j) = true → key (t i) = key (t j) → i = j

/-- `refresh` keeps a slot of the key `k`, and `fill` makes one. -/
structure Keeps (refresh fill : α → α) (k : κ) : Prop where
  refresh_used : ∀ a, used (refresh a) = used a
  refresh_key : ∀ a, key (refresh a) = key a
  fill_used : ∀ a, used (fill a) = true
  fill_key : ∀ a, key (fill a) = k

instance (t : Fin n → α) (k : κ) : Decidable (Holds used key t k) := by
  unfold Holds
  infer_instance

instance (t : Fin n → α) (k : κ) : Decidable (HasRoom used key t k) := by
  unfold HasRoom
  infer_instance

variable {used key}
variable {t : Fin n → α} {k : κ} {i : Fin n} {refresh fill : α → α}

theorem find_some (h : find used key t k = some i) : used (t i) = true ∧ key (t i) = k := by
  simpa [find] using (Fin.find?_eq_some_iff.mp h).1

theorem find_eq_none : find used key t k = none ↔ ¬Holds used key t k := by
  unfold find Holds
  rw [Fin.find?_eq_none_iff]
  simp

theorem Distinct.find_eq_some (h : Distinct used key t) :
    find used key t k = some i ↔ used (t i) = true ∧ key (t i) = k := by
  refine ⟨find_some, fun ⟨hused, hkey⟩ => ?_⟩
  cases hfind : find used key t k with
  | none => exact absurd ⟨i, hused, hkey⟩ (find_eq_none.mp hfind)
  | some j =>
    obtain ⟨hj, hkeyj⟩ := find_some hfind
    rw [h j i hj hused (hkeyj.trans hkey.symm)]

theorem findFree_some (h : findFree used t = some i) : used (t i) = false := by
  simpa [findFree] using (Fin.find?_eq_some_iff.mp h).1

theorem findFree_eq_none : findFree used t = none ↔ ∀ i, used (t i) = true := by
  unfold findFree
  rw [Fin.find?_eq_none_iff]
  simp

/-- Everything `store` can do. -/
theorem store_cases (used : α → Bool) (key : α → κ) (refresh fill : α → α) (t : Fin n → α) (k : κ) :
    (∃ i, used (t i) = true ∧ key (t i) = k ∧
      store used key refresh fill t k = Function.update t i (refresh (t i))) ∨
    (¬Holds used key t k ∧ ∃ i, used (t i) = false ∧
      store used key refresh fill t k = Function.update t i (fill (t i))) ∨
    (¬HasRoom used key t k ∧ store used key refresh fill t k = t) := by
  unfold store
  cases hfind : find used key t k with
  | some i =>
    obtain ⟨hused, hkey⟩ := find_some hfind
    exact .inl ⟨i, hused, hkey, rfl⟩
  | none =>
    have hno := find_eq_none.mp hfind
    cases hfree : findFree used t with
    | some i => exact .inr (.inl ⟨hno, i, findFree_some hfree, rfl⟩)
    | none =>
      have hall := findFree_eq_none.mp hfree
      refine .inr (.inr ⟨fun hroom => ?_, rfl⟩)
      rcases hroom with hholds | ⟨i, hi⟩
      · exact hno hholds
      · rw [hall i] at hi
        cases hi

omit [DecidableEq κ] in
/-- A slot that is written under a key no other slot has keeps the keys distinct. -/
theorem Distinct.update (h : Distinct used key t) (i : Fin n) (a : α)
    (hkey : ∀ j, j ≠ i → used (t j) = true → used a = true → key (t j) ≠ key a) :
    Distinct used key (Function.update t i a) := by
  unfold Distinct
  apply unique_of_others i
  · intro j l hji hli hj hl heq
    rw [Function.update_of_ne hji] at hj heq
    rw [Function.update_of_ne hli] at hl heq
    exact h j l hj hl heq
  · intro j hji hj hi
    rw [Function.update_of_ne hji] at hj ⊢
    rw [Function.update_self] at hi ⊢
    exact hkey j hji hj hi

theorem Distinct.store (h : Distinct used key t) (hkeeps : Keeps used key refresh fill k) :
    Distinct used key (store used key refresh fill t k) := by
  rcases store_cases used key refresh fill t k with
    ⟨i, hused, hkey, heq⟩ | ⟨hno, i, hfree, heq⟩ | ⟨-, heq⟩
  · rw [heq]
    refine h.update i _ fun j hji hj _ hkeyj => hji (h j i hj hused ?_)
    rw [hkeyj, hkeeps.refresh_key]
  · rw [heq]
    refine h.update i _ fun j hji hj _ hkeyj => hno ⟨j, hj, ?_⟩
    rw [hkeyj, hkeeps.fill_key]
  · rwa [heq]

/-- The slot of the key after `store`, when there was room. -/
theorem store_self (hkeeps : Keeps used key refresh fill k) (hroom : HasRoom used key t k) :
    ∃ i, used (store used key refresh fill t k i) = true ∧
      key (store used key refresh fill t k i) = k ∧
      (store used key refresh fill t k i = refresh (t i) ∨
        store used key refresh fill t k i = fill (t i)) := by
  rcases store_cases used key refresh fill t k with
    ⟨i, hused, hkey, heq⟩ | ⟨-, i, -, heq⟩ | ⟨hno, -⟩
  · refine ⟨i, ?_⟩
    rw [heq, Function.update_self, hkeeps.refresh_used, hkeeps.refresh_key]
    exact ⟨hused, hkey, .inl rfl⟩
  · refine ⟨i, ?_⟩
    rw [heq, Function.update_self, hkeeps.fill_used, hkeeps.fill_key]
    exact ⟨rfl, rfl, .inr rfl⟩
  · exact absurd hroom hno

theorem store_of_not_hasRoom (hno : ¬HasRoom used key t k) :
    store used key refresh fill t k = t := by
  rcases store_cases used key refresh fill t k with
    ⟨i, hused, hkey, -⟩ | ⟨-, i, hfree, -⟩ | ⟨-, heq⟩
  · exact absurd (.inl ⟨i, hused, hkey⟩) hno
  · exact absurd (.inr ⟨i, hfree⟩) hno
  · exact heq

/-- A used slot of another key is the same before and after. -/
theorem store_of_ne (hkeeps : Keeps used key refresh fill k) {k' : κ} (hne : k' ≠ k) (a : α) :
    (used (store used key refresh fill t k i) = true ∧
        key (store used key refresh fill t k i) = k' ∧ store used key refresh fill t k i = a) ↔
      used (t i) = true ∧ key (t i) = k' ∧ t i = a := by
  rcases store_cases used key refresh fill t k with
    ⟨j, hused, hkey, heq⟩ | ⟨-, j, hfree, heq⟩ | ⟨-, heq⟩
  · rw [heq]
    rcases eq_or_ne i j with rfl | hij
    · rw [Function.update_self, hkeeps.refresh_key, hkey]
      exact ⟨fun h => absurd h.2.1.symm hne, fun h => absurd h.2.1.symm hne⟩
    · rw [Function.update_of_ne hij]
  · rw [heq]
    rcases eq_or_ne i j with rfl | hij
    · rw [Function.update_self, hkeeps.fill_key, hfree]
      exact ⟨fun h => absurd h.2.1.symm hne, fun h => absurd h.1 Bool.false_ne_true⟩
    · rw [Function.update_of_ne hij]
  · rw [heq]

/-! ## The map -/

/-- What the table holds for a key. -/
def get (used : α → Bool) (key : α → κ) (t : Fin n → α) (k : κ) : Option α :=
  (find used key t k).map t

theorem Distinct.get_eq_some (h : Distinct used key t) {a : α} :
    get used key t k = some a ↔ ∃ i, used (t i) = true ∧ key (t i) = k ∧ t i = a := by
  unfold get
  rw [Option.map_eq_some_iff]
  simp only [h.find_eq_some, and_assoc]

theorem get_eq_none : get used key t k = none ↔ ¬Holds used key t k := by
  unfold get
  rw [Option.map_eq_none_iff, find_eq_none]

theorem Distinct.get_store_of_ne (h : Distinct used key t) (hkeeps : Keeps used key refresh fill k)
    {k' : κ} (hne : k' ≠ k) :
    get used key (Slots.store used key refresh fill t k) k' = get used key t k' := by
  ext a
  rw [(h.store hkeeps).get_eq_some, h.get_eq_some]
  simp only [store_of_ne hkeeps hne]

theorem Distinct.get_store_self (h : Distinct used key t) (hkeeps : Keeps used key refresh fill k)
    (hroom : HasRoom used key t k) :
    ∃ i, get used key (Slots.store used key refresh fill t k) k = some (refresh (t i)) ∨
      get used key (Slots.store used key refresh fill t k) k = some (fill (t i)) := by
  obtain ⟨i, hused, hkey, hor⟩ := store_self hkeeps hroom
  refine ⟨i, hor.imp ?_ ?_⟩
  all_goals exact fun heq => (h.store hkeeps).get_eq_some.mpr ⟨i, hused, hkey, heq⟩

/-- Without room the key is not in the table, before or after. -/
theorem get_store_of_not_hasRoom (hno : ¬HasRoom used key t k) :
    get used key (store used key refresh fill t k) k = none := by
  rw [store_of_not_hasRoom hno]
  exact get_eq_none.mpr fun h => hno (.inl h)

/-- A table that holds keys of a set only has room for each of them when it has as many slots. -/
theorem Distinct.hasRoom {K : Finset κ} (h : Distinct used key t)
    (hkeys : ∀ i, used (t i) = true → key (t i) ∈ K) (hcard : K.card ≤ n) (hk : k ∈ K) :
    HasRoom used key t k := by
  by_contra hno
  obtain ⟨hmiss, hfull⟩ := not_or.mp hno
  have hused : ∀ i, used (t i) = true := by
    intro i
    by_contra hfree
    exact hfull ⟨i, Bool.eq_false_of_not_eq_true hfree⟩
  -- The slots have as many keys, and none of them is `k`.
  have hsub : (Finset.univ.image fun i => key (t i)) ⊆ K.erase k := by
    intro x hx
    obtain ⟨i, -, rfl⟩ := Finset.mem_image.mp hx
    exact Finset.mem_erase.mpr ⟨fun heq => hmiss ⟨i, hused i, heq⟩, hkeys i (hused i)⟩
  have hle := Finset.card_le_card hsub
  have hinj : Function.Injective fun i => key (t i) :=
    fun i j heq => h i j (hused i) (hused j) heq
  rw [Finset.card_image_of_injective _ hinj, Finset.card_univ, Fintype.card_fin,
    Finset.card_erase_of_mem hk] at hle
  have hpos := Finset.card_pos.mpr ⟨k, hk⟩
  omega

/-! ## The number of used slots -/

def count (used : α → Bool) (t : Fin n → α) : ℕ := (Finset.univ.filter fun i => used (t i) = true).card

theorem count_le (used : α → Bool) (t : Fin n → α) : count used t ≤ n :=
  (Finset.card_filter_le _ _).trans_eq (Fintype.card_fin n)

theorem count_eq_length (used : α → Bool) (t : Fin n → α) :
    count used t = ((List.finRange n).filter fun i => used (t i)).length := by
  unfold count
  rw [← List.toFinset_card_of_nodup ((List.nodup_finRange n).filter _), List.toFinset_filter,
    List.toFinset_finRange]

theorem count_update_of_eq {a : α} (h : used a = used (t i)) :
    count used (Function.update t i a) = count used t := by
  unfold count
  congr 1
  apply Finset.filter_congr
  intro j _
  rcases eq_or_ne j i with rfl | hji
  · rw [Function.update_self, h]
  · rw [Function.update_of_ne hji]

theorem count_update_of_used {a : α} (hfree : used (t i) = false) (hused : used a = true) :
    count used (Function.update t i a) = count used t + 1 := by
  have hinsert : (Finset.univ.filter fun j => used (Function.update t i a j) = true) =
      insert i (Finset.univ.filter fun j => used (t j) = true) := by
    ext j
    rcases eq_or_ne j i with rfl | hji
    · simp [hused]
    · simp [hji]
  unfold count
  rw [hinsert, Finset.card_insert_of_notMem (by simp [hfree])]

theorem count_update_of_free {a : α} (hused : used (t i) = true) (hfree : used a = false) :
    count used (Function.update t i a) + 1 = count used t := by
  have hback := count_update_of_used (t := Function.update t i a) (i := i) (a := t i)
    (by rw [Function.update_self, hfree]) hused
  rwa [Function.update_idem, Function.update_eq_self, eq_comm] at hback

end Slots

end Lib
