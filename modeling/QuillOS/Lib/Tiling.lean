import Mathlib.Tactic

/-!
# Blocks laid out one behind the other

A list of tiles occupies an interval of addresses: each tile is a header of `h` bytes and a
payload behind it. Splitting a tile, joining neighbours and appending a tile are operations on the
list; what they do to the payloads in use is said here once, for any header size and any memory.
-/

namespace Lib

structure Tile where
  size : ℕ
  free : Bool
  deriving DecidableEq, Repr

namespace Tiling

variable (h : ℕ)

/-- The address just behind the tiles laid out from `a` on. -/
def stop : ℕ → List Tile → ℕ
  | a, [] => a
  | a, t :: ts => stop (a + h + t.size) ts

/-- The addresses of the headers. -/
def starts : ℕ → List Tile → List ℕ
  | _, [] => []
  | a, t :: ts => a :: starts (a + h + t.size) ts

/-- Address and size of every payload in use. -/
def used : ℕ → List Tile → List (ℕ × ℕ)
  | _, [] => []
  | a, t :: ts => (if t.free then [] else [(a + h, t.size)]) ++ used (a + h + t.size) ts

variable {h} {a x y n nxt : ℕ} {ts pre post : List Tile} {t u : Tile}

@[simp] theorem stop_nil : stop h a [] = a := rfl

@[simp] theorem stop_cons : stop h a (t :: ts) = stop h (a + h + t.size) ts := rfl

@[simp] theorem stop_append : stop h a (pre ++ post) = stop h (stop h a pre) post := by
  induction pre generalizing a with
  | nil => rfl
  | cons t pre ih => exact ih

theorem le_stop (h a : ℕ) (ts : List Tile) : a ≤ stop h a ts := by
  induction ts generalizing a with
  | nil => exact le_rfl
  | cons t ts ih =>
    have htail := ih (a + h + t.size)
    rw [stop_cons]
    omega

theorem used_append : used h a (pre ++ post) = used h a pre ++ used h (stop h a pre) post := by
  induction pre generalizing a with
  | nil => rfl
  | cons t pre ih => simp only [List.cons_append, used, ih, stop_cons, List.append_assoc]

theorem starts_append :
    starts h a (pre ++ post) = starts h a pre ++ starts h (stop h a pre) post := by
  induction pre generalizing a with
  | nil => rfl
  | cons t pre ih => simp only [List.cons_append, starts, ih, stop_cons]

theorem starts_bounds (hx : x ∈ starts h a ts) : a ≤ x ∧ x + h ≤ stop h a ts := by
  induction ts generalizing a with
  | nil => cases hx
  | cons t ts ih =>
    have htail := le_stop h (a + h + t.size) ts
    rcases List.mem_cons.mp hx with rfl | hx
    · rw [stop_cons]
      omega
    · have hbounds := ih hx
      rw [stop_cons]
      omega

/-- Headers follow each other at a distance. -/
theorem starts_pairwise (h a : ℕ) (ts : List Tile) :
    (starts h a ts).Pairwise fun x y => x + h ≤ y := by
  induction ts generalizing a with
  | nil => exact List.Pairwise.nil
  | cons t ts ih =>
    refine List.Pairwise.cons ?_ (ih _)
    intro y hy
    have hbounds := starts_bounds hy
    omega

theorem stop_mem_starts (h a : ℕ) (pre : List Tile) (t : Tile) (post : List Tile) :
    stop h a pre ∈ starts h a (pre ++ t :: post) := by
  rw [starts_append, List.mem_append]
  exact Or.inr List.mem_cons_self

theorem exists_of_mem_starts (hx : x ∈ starts h a ts) :
    ∃ pre t post, ts = pre ++ t :: post ∧ x = stop h a pre := by
  induction ts generalizing a with
  | nil => cases hx
  | cons t ts ih =>
    rcases List.mem_cons.mp hx with rfl | hx
    · exact ⟨[], t, ts, rfl, rfl⟩
    · obtain ⟨pre, u, post, rfl, rfl⟩ := ih hx
      exact ⟨t :: pre, u, post, rfl, rfl⟩

theorem used_bounds (hx : (x, n) ∈ used h a ts) : a + h ≤ x ∧ x + n ≤ stop h a ts := by
  induction ts generalizing a with
  | nil => cases hx
  | cons t ts ih =>
    have htail := le_stop h (a + h + t.size) ts
    rw [used, List.mem_append] at hx
    rw [stop_cons]
    rcases hx with hx | hx
    · have hxt : (x, n) = (a + h, t.size) := by grind
      obtain ⟨rfl, rfl⟩ := Prod.mk.inj hxt
      omega
    · have hbounds := ih hx
      omega

theorem used_free (ht : t.free = true) : used h a (t :: ts) = used h (a + h + t.size) ts := by
  simp [used, ht]

theorem used_taken (ht : t.free = false) :
    used h a (t :: ts) = (a + h, t.size) :: used h (a + h + t.size) ts := by
  simp [used, ht]

/-- A payload in use belongs to a tile of the list. -/
theorem mem_used_iff : (x, n) ∈ used h a ts ↔
    ∃ pre post, ts = pre ++ ⟨n, false⟩ :: post ∧ x = stop h a pre + h := by
  constructor
  · intro hx
    induction ts generalizing a with
    | nil => cases hx
    | cons t ts ih =>
      rw [used, List.mem_append] at hx
      rcases hx with hx | hx
      · obtain ⟨hfree, hxt⟩ : t.free = false ∧ (x, n) = (a + h, t.size) := by grind
        obtain ⟨rfl, rfl⟩ := Prod.mk.inj hxt
        refine ⟨[], ts, ?_, rfl⟩
        rw [List.nil_append, ← hfree]
      · obtain ⟨pre, post, rfl, rfl⟩ := ih hx
        exact ⟨t :: pre, post, rfl, rfl⟩
  · rintro ⟨pre, post, rfl, rfl⟩
    rw [used_append, used]
    simp

/-- Payloads in use, in address order, lie apart by at least a header. -/
theorem used_pairwise (h a : ℕ) (ts : List Tile) :
    (used h a ts).Pairwise fun u v => u.1 + u.2 + h ≤ v.1 := by
  induction ts generalizing a with
  | nil => exact List.Pairwise.nil
  | cons t ts ih =>
    rw [used, List.pairwise_append]
    refine ⟨?_, ih _, ?_⟩
    · split
      · exact List.Pairwise.nil
      · exact List.pairwise_singleton _ _
    · rintro u hu ⟨x, n⟩ hx
      have hbounds := used_bounds hx
      have hut : u = (a + h, t.size) := by grind
      subst hut
      exact hbounds.1

/-- No payload in use meets a header. -/
theorem used_starts (hx : (x, n) ∈ used h a ts) (hy : y ∈ starts h a ts) : y + h ≤ x ∨ x + n ≤ y := by
  obtain ⟨pre, post, rfl, rfl⟩ := mem_used_iff.mp hx
  rw [starts_append, List.mem_append, starts, List.mem_cons] at hy
  rcases hy with hy | rfl | hy
  · have hbounds := starts_bounds hy
    omega
  · omega
  · have hbounds := starts_bounds hy
    simp only at hbounds
    omega

/-- A payload in use lies before or behind a free tile. -/
theorem used_apart_free (ht : t.free = true) (hx : (x, n) ∈ used h a (pre ++ t :: post)) :
    x + n ≤ stop h a pre ∨ stop h a pre + h + t.size ≤ x := by
  rw [used_append, used_free ht, List.mem_append] at hx
  rcases hx with hx | hx
  · exact Or.inl (used_bounds hx).2
  · have hbounds := used_bounds hx
    omega

/-! ## First fit -/

/-- The tile is free and offers `need` bytes. -/
def Fits (need : ℕ) (t : Tile) : Prop := t.free = true ∧ need ≤ t.size

instance (need : ℕ) (t : Tile) : Decidable (Fits need t) := inferInstanceAs (Decidable (_ ∧ _))

/-- Either no tile fits, or there is a first one. -/
theorem fits_cases (need : ℕ) (ts : List Tile) :
    (∀ t ∈ ts, ¬Fits need t) ∨
      ∃ pre t post, ts = pre ++ t :: post ∧ Fits need t ∧ ∀ u ∈ pre, ¬Fits need u := by
  induction ts with
  | nil => exact Or.inl fun t ht => by cases ht
  | cons t ts ih =>
    by_cases ht : Fits need t
    · exact Or.inr ⟨[], t, ts, rfl, ht, fun u hu => by cases hu⟩
    · rcases ih with hnone | ⟨pre, u, post, rfl, hu, hpre⟩
      · exact Or.inl (List.forall_mem_cons.mpr ⟨ht, hnone⟩)
      · exact Or.inr ⟨t :: pre, u, post, rfl, hu, List.forall_mem_cons.mpr ⟨ht, hpre⟩⟩

/-! ## Splitting and joining -/

variable (h) in
/-- The tile a request of `need` bytes is served from: what is left is split off when it holds a
header and `least` bytes. -/
def carve (least need : ℕ) (t : Tile) : List Tile :=
  if need + h + least ≤ t.size then [⟨need, false⟩, ⟨t.size - need - h, true⟩]
  else [⟨t.size, false⟩]

variable (h) in
/-- A tile and the one behind it made into one. -/
def merge (t u : Tile) : Tile := ⟨t.size + h + u.size, t.free⟩

variable (h) in
/-- The tile `u` put behind the tiles `pre`, joined to the last one when that is free. -/
def joinLast (pre : List Tile) (u : Tile) : List Tile :=
  match pre.getLast? with
  | some t => if t.free then pre.dropLast ++ [merge h t u] else pre ++ [u]
  | none => [u]

variable (h) in
/-- The tile `t` put in front of the tiles `post`, taking over the first one when that is free. -/
def joinNext (t : Tile) (post : List Tile) : Tile × List Tile :=
  match post with
  | u :: post' => if u.free then (merge h t u, post') else (t, post)
  | [] => (t, [])

@[simp] theorem stop_carve {least need : ℕ} :
    stop h a (carve h least need t) = a + h + t.size := by
  unfold carve
  split <;> simp only [stop_cons, stop_nil]
  omega

theorem joinLast_nil : joinLast h [] u = [u] := rfl

theorem joinLast_concat : joinLast h (pre ++ [t]) u =
    if t.free then pre ++ [merge h t u] else pre ++ [t] ++ [u] := by
  simp [joinLast]

@[simp] theorem stop_joinLast : stop h a (joinLast h pre u) = stop h a pre + h + u.size := by
  rcases List.eq_nil_or_concat' pre with rfl | ⟨pre, t, rfl⟩
  · rfl
  · rw [joinLast_concat]
    split <;> simp only [stop_append, stop_cons, stop_nil, merge]
    omega

theorem joinLast_ne_nil : joinLast h pre u ≠ [] := by
  rcases List.eq_nil_or_concat' pre with rfl | ⟨pre, t, rfl⟩
  · simp [joinLast_nil]
  · rw [joinLast_concat]
    split <;> simp

theorem stop_joinNext : stop h (a + h + (joinNext h t post).1.size) (joinNext h t post).2 =
    stop h (a + h + t.size) post := by
  cases post with
  | nil => rfl
  | cons u post =>
    unfold joinNext merge
    simp only
    split <;> simp only [stop_cons]
    congr 1
    omega

@[simp] theorem joinNext_free : (joinNext h t post).1.free = t.free := by
  cases post with
  | nil => rfl
  | cons u post =>
    unfold joinNext
    simp only
    split <;> rfl

/-- Joining a free tile to the last one leaves the payloads in use. -/
theorem used_joinLast (hu : u.free = true) : used h a (joinLast h pre u) = used h a pre := by
  rcases List.eq_nil_or_concat' pre with rfl | ⟨pre, t, rfl⟩
  · rw [joinLast_nil, used_free hu]
    rfl
  · rw [joinLast_concat]
    split
    · next ht =>
      rw [used_append, used_append, used_free ht, used_free (show (merge h t u).free = true from ht)]
      rfl
    · rw [used_append, used_free hu, used, List.append_nil]

theorem used_joinNext : used h (a + h + (joinNext h t post).1.size) (joinNext h t post).2 =
    used h (a + h + t.size) post := by
  cases post with
  | nil => rfl
  | cons u post =>
    unfold joinNext
    simp only
    split
    · next hu =>
      rw [used_free hu]
      congr 1
      simp only [merge]
      omega
    · rfl

/-- The payload carved out of a free tile comes into use, and no other changes. -/
theorem used_carve {need : ℕ} (least : ℕ) (pre post : List Tile) (ht : Fits need t) :
    ∃ n, need ≤ n ∧ n ≤ t.size ∧ used h a (pre ++ carve h least need t ++ post) =
      used h a pre ++ (stop h a pre + h, n) :: used h (stop h a pre + h + t.size) post := by
  by_cases hsplit : need + h + least ≤ t.size
  · refine ⟨need, le_rfl, ht.2, ?_⟩
    rw [used_append, used_append, stop_append, stop_carve, List.append_assoc, carve, if_pos hsplit]
    rfl
  · refine ⟨t.size, ht.2, le_rfl, ?_⟩
    rw [used_append, used_append, stop_append, stop_carve, List.append_assoc, carve, if_neg hsplit]
    rfl

/-! ## No two free neighbours -/

/-- Free tiles have no free neighbours. -/
def Separated (ts : List Tile) : Prop := ts.IsChain fun t u => t.free = true → u.free = false

theorem separated_split : Separated (pre ++ t :: post) ↔
    Separated (pre ++ [t]) ∧ Separated (t :: post) :=
  List.isChain_split

/-- A tile may give way to one that is not free, or is free where it was. -/
theorem Separated.replace (hs : Separated (pre ++ t :: post))
    (hfree : u.free = true → t.free = true) : Separated (pre ++ u :: post) := by
  unfold Separated at *
  rw [List.isChain_append, List.isChain_cons] at *
  obtain ⟨hpre, ⟨hnext, hpost⟩, hlast⟩ := hs
  refine ⟨hpre, ⟨fun v hv hu => hnext v hv (hfree hu), hpost⟩, ?_⟩
  intro v hv w hw hvfree
  obtain rfl : u = w := Option.some.inj hw
  have ht := hlast v hv t rfl hvfree
  exact Bool.eq_false_iff.mpr fun hu => absurd (hfree hu) (by simp [ht])

theorem Separated.replace_head (hs : Separated (t :: post))
    (hfree : u.free = true → t.free = true) : Separated (u :: post) := by
  have hs' : Separated ([] ++ t :: post) := hs
  exact hs'.replace hfree

/-- What is split off a free tile is free and lies between the tile in use and the next one. -/
theorem Separated.carve {least need : ℕ} (hs : Separated (pre ++ t :: post))
    (ht : t.free = true) : Separated (pre ++ (carve h least need t ++ post)) := by
  unfold Tiling.carve
  split
  · have htaken : Separated (pre ++ ⟨need, false⟩ :: post) := hs.replace fun hfree => by cases hfree
    have hrest : Separated (⟨t.size - need - h, true⟩ :: post) :=
      (separated_split.mp hs).2.replace_head fun _ => ht
    apply separated_split.mpr
    exact ⟨(separated_split.mp htaken).1, List.isChain_cons_cons.mpr ⟨fun hfree => (by cases hfree),
      hrest⟩⟩
  · exact hs.replace fun hfree => by cases hfree

theorem Separated.joinNext (hs : Separated post) :
    Separated ((joinNext h t post).1 :: (joinNext h t post).2) := by
  cases post with
  | nil => exact List.isChain_singleton _
  | cons u post =>
    unfold Tiling.joinNext
    simp only
    split
    · next hu => exact hs.replace_head fun _ => hu
    · next hu => exact List.isChain_cons_cons.mpr ⟨fun _ => by simpa using hu, hs⟩

theorem Separated.joinLast (hpre : Separated pre) (hs : Separated (u :: post))
    (hu : u.free = true) : Separated (joinLast h pre u ++ post) := by
  rcases List.eq_nil_or_concat' pre with rfl | ⟨pre, t, rfl⟩
  · exact hs
  · rw [joinLast_concat]
    split
    · next ht =>
      rw [List.append_assoc]
      exact separated_split.mpr ⟨hpre.replace fun _ => ht, hs.replace_head fun _ => hu⟩
    · next ht =>
      rw [List.append_assoc, List.append_assoc]
      exact separated_split.mpr ⟨hpre, List.isChain_cons_cons.mpr ⟨fun hfree => absurd hfree ht, hs⟩⟩

/-- With no payload in use there is one tile, and it is free. -/
theorem Separated.single (hs : Separated ts) (hne : ts ≠ []) (hused : used h a ts = []) :
    ∃ n, ts = [⟨n, true⟩] := by
  have hall : ∀ t ∈ ts, t.free = true := by
    intro t ht
    by_contra hfree
    obtain ⟨pre, post, rfl⟩ := List.append_of_mem ht
    rw [used_append, used_taken (by simpa using hfree)] at hused
    simp at hused
  match ts, hne with
  | [t], _ => exact ⟨t.size, by rw [← hall t List.mem_cons_self]⟩
  | t :: u :: ts, _ =>
    have hu := (List.isChain_cons_cons.mp hs).1 (hall t (by simp))
    rw [hall u (by simp)] at hu
    cases hu

/-! ## Sizes that are multiples -/

/-- Every payload size is a multiple of `d`. -/
def Sized (d : ℕ) (ts : List Tile) : Prop := ∀ t ∈ ts, d ∣ t.size

variable {d : ℕ}

theorem sized_append : Sized d (pre ++ post) ↔ Sized d pre ∧ Sized d post :=
  List.forall_mem_append

theorem sized_cons : Sized d (t :: ts) ↔ d ∣ t.size ∧ Sized d ts := List.forall_mem_cons

theorem Sized.dvd_stop (hs : Sized d ts) (hh : d ∣ h) (ha : d ∣ a) : d ∣ stop h a ts := by
  induction ts generalizing a with
  | nil => exact ha
  | cons t ts ih =>
    obtain ⟨ht, hts⟩ := sized_cons.mp hs
    exact ih hts (dvd_add (dvd_add ha hh) ht)

/-- Headers are aligned when the first one is, and payloads and headers take up multiples. -/
theorem Sized.dvd_starts (hs : Sized d ts) (hh : d ∣ h) (ha : d ∣ a) (hx : x ∈ starts h a ts) :
    d ∣ x := by
  obtain ⟨pre, t, post, rfl, rfl⟩ := exists_of_mem_starts hx
  exact Sized.dvd_stop (sized_append.mp hs).1 hh ha

theorem Sized.merge (ht : d ∣ t.size) (hh : d ∣ h) (hu : d ∣ u.size) : d ∣ (merge h t u).size :=
  dvd_add (dvd_add ht hh) hu

theorem Sized.carve {least need : ℕ} (ht : d ∣ t.size) (hh : d ∣ h) (hneed : d ∣ need) :
    Sized d (carve h least need t) := by
  unfold Tiling.carve
  split
  · refine sized_cons.mpr ⟨hneed, sized_cons.mpr ⟨?_, fun t ht => by cases ht⟩⟩
    exact Nat.dvd_sub (Nat.dvd_sub ht hneed) hh
  · exact sized_cons.mpr ⟨ht, fun t ht => by cases ht⟩

theorem Sized.joinLast (hs : Sized d pre) (hh : d ∣ h) (hu : d ∣ u.size) :
    Sized d (joinLast h pre u) := by
  rcases List.eq_nil_or_concat' pre with rfl | ⟨pre, t, rfl⟩
  · exact sized_cons.mpr ⟨hu, fun t ht => by cases ht⟩
  · obtain ⟨hpre, hlast⟩ := sized_append.mp hs
    have ht := (sized_cons.mp hlast).1
    rw [joinLast_concat]
    split
    · exact sized_append.mpr ⟨hpre, sized_cons.mpr ⟨Sized.merge ht hh hu, fun t ht => by cases ht⟩⟩
    · exact sized_append.mpr ⟨hs, sized_cons.mpr ⟨hu, fun t ht => by cases ht⟩⟩

theorem Sized.joinNext (hs : Sized d post) (ht : d ∣ t.size) (hh : d ∣ h) :
    Sized d ((joinNext h t post).1 :: (joinNext h t post).2) := by
  cases post with
  | nil => exact sized_cons.mpr ⟨ht, hs⟩
  | cons u post =>
    obtain ⟨hu, hpost⟩ := sized_cons.mp hs
    unfold Tiling.joinNext
    simp only
    split
    · exact sized_cons.mpr ⟨Sized.merge ht hh hu, hpost⟩
    · exact sized_cons.mpr ⟨ht, hs⟩

/-- A tile put behind the others takes the header of none of them away. -/
theorem starts_joinLast (hx : x ∈ starts h a pre) : x ∈ starts h a (joinLast h pre u) := by
  rcases List.eq_nil_or_concat' pre with rfl | ⟨pre, t, rfl⟩
  · cases hx
  · rw [joinLast_concat]
    split
    · rw [starts_append] at hx ⊢
      exact hx
    · rw [starts_append]
      exact List.mem_append_left _ hx

/-! ## Room -/

/-- The bytes of the payloads in use. -/
def usedBytes (ts : List Tile) : ℕ := ((ts.filter fun t => !t.free).map Tile.size).sum

/-- The bytes of the payloads not in use. -/
def freeBytes (ts : List Tile) : ℕ := ((ts.filter fun t => t.free).map Tile.size).sum

theorem sum_used (h a : ℕ) (ts : List Tile) :
    ((used h a ts).map Prod.snd).sum = usedBytes ts := by
  induction ts generalizing a with
  | nil => rfl
  | cons t ts ih =>
    unfold usedBytes at *
    cases ht : t.free <;> simp [used, ht, ih]

theorem length_used (h a : ℕ) (ts : List Tile) :
    (used h a ts).length = (ts.filter fun t => !t.free).length := by
  induction ts generalizing a with
  | nil => rfl
  | cons t ts ih => cases ht : t.free <;> simp [used, ht, ih]

/-- Payloads and headers take up all the room. -/
theorem stop_eq (h a : ℕ) (ts : List Tile) :
    stop h a ts = a + (usedBytes ts + freeBytes ts + h * ts.length) := by
  induction ts generalizing a with
  | nil => rfl
  | cons t ts ih =>
    rw [stop_cons, ih]
    unfold usedBytes freeBytes
    cases ht : t.free <;> simp [ht, Nat.mul_succ] <;> omega

/-! ## Linked headers -/

variable (h) in
/-- Headers in memory that describe the tiles: `hdr x t n` says that the header at `x` describes `t`
and names `n` as its successor. Each tile names the next one, the last one `nxt`. -/
def Chain (hdr : ℕ → Tile → ℕ → Prop) : ℕ → List Tile → ℕ → Prop
  | _, [], _ => True
  | a, t :: ts, nxt =>
    hdr a t (if ts = [] then nxt else a + h + t.size) ∧ Chain hdr (a + h + t.size) ts nxt

variable {hdr hdr' : ℕ → Tile → ℕ → Prop}

@[simp] theorem chain_nil : Chain h hdr a [] nxt := trivial

@[simp] theorem chain_singleton : Chain h hdr a [t] nxt ↔ hdr a t nxt := by
  simp [Chain]

@[simp] theorem chain_cons_cons : Chain h hdr a (t :: u :: ts) nxt ↔
    hdr a t (a + h + t.size) ∧ Chain h hdr (a + h + t.size) (u :: ts) nxt := by
  rw [Chain, if_neg (List.cons_ne_nil _ _)]

/-- A chain splits anywhere: the first part names the first tile of the second. -/
theorem chain_append : Chain h hdr a (pre ++ post) nxt ↔
    Chain h hdr a pre (if post = [] then nxt else stop h a pre) ∧
      Chain h hdr (stop h a pre) post nxt := by
  induction pre generalizing a with
  | nil => simp
  | cons u pre ih =>
    rw [List.cons_append, Chain, ih, Chain, stop_cons, and_assoc]
    by_cases hpre : pre = []
    · simp [hpre]
    · simp [hpre]

/-- A chain survives a change that leaves its headers alone. -/
theorem Chain.mono (hc : Chain h hdr a ts nxt)
    (hm : ∀ x t n, x ∈ starts h a ts → hdr x t n → hdr' x t n) : Chain h hdr' a ts nxt := by
  induction ts generalizing a with
  | nil => trivial
  | cons t ts ih =>
    refine ⟨hm _ _ _ List.mem_cons_self hc.1, ih hc.2 ?_⟩
    intro x u n hx
    exact hm x u n (List.mem_cons_of_mem _ hx)

/-- Inside a chain, tiles can be replaced by others that take up the same room; the headers on
either side stay. -/
theorem Chain.replace {old mid : List Tile} (hc : Chain h hdr a (pre ++ (old ++ post)) nxt)
    (hold : old ≠ []) (hmid : mid ≠ [])
    (hstop : stop h (stop h a pre) mid = stop h (stop h a pre) old)
    (hm : ∀ x t n, x ∈ starts h a pre ∨ x ∈ starts h (stop h (stop h a pre) old) post →
      hdr x t n → hdr' x t n)
    (hnew : Chain h hdr' (stop h a pre) mid
      (if post = [] then nxt else stop h (stop h a pre) old)) :
    Chain h hdr' a (pre ++ (mid ++ post)) nxt := by
  rw [chain_append, chain_append] at hc ⊢
  obtain ⟨hpre, -, hpost⟩ := hc
  rw [if_neg (List.append_ne_nil_of_left_ne_nil hold post)] at hpre
  rw [if_neg (List.append_ne_nil_of_left_ne_nil hmid post), hstop]
  refine ⟨hpre.mono ?_, hnew, hpost.mono ?_⟩
  · intro x t n hx
    exact hm x t n (Or.inl hx)
  · intro x t n hx
    exact hm x t n (Or.inr hx)

/-- The headers from an address on describe one list of tiles only. -/
theorem Chain.unique {ts' : List Tile} (hc : Chain h hdr a ts nxt) (hc' : Chain h hdr a ts' nxt)
    (hfun : ∀ x t n t' n', hdr x t n → hdr x t' n' → t = t' ∧ n = n') (hnxt : nxt < a)
    (hne : ts ≠ []) (hne' : ts' ≠ []) : ts = ts' := by
  induction ts generalizing a ts' with
  | nil => exact absurd rfl hne
  | cons t ts ih =>
    cases ts' with
    | nil => exact absurd rfl hne'
    | cons t' ts' =>
      obtain ⟨rfl, hsucc⟩ := hfun _ _ _ _ _ hc.1 hc'.1
      by_cases hnil : ts = []
      · rw [if_pos hnil] at hsucc
        split at hsucc
        · next hnil' => rw [hnil, hnil']
        · omega
      · rw [if_neg hnil] at hsucc
        split at hsucc
        · omega
        · next hnil' => rw [ih hc.2 hc'.2 (by omega) hnil hnil']

theorem length_le_stop (h a : ℕ) (ts : List Tile) : a + h * ts.length ≤ stop h a ts := by
  induction ts generalizing a with
  | nil => simp
  | cons t ts ih =>
    have htail := ih (a + h + t.size)
    rw [stop_cons, List.length_cons, Nat.mul_succ]
    omega

end Tiling

end Lib
