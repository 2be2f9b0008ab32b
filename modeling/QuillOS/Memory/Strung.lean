import QuillOS.Memory.PageAllocator
import QuillOS.Memory.Requests

/-!
# The block list over pages that change hands

A page that the heap took can be given back by its holder and handed out again, and is then zeroed
with the headers in it. The list of blocks is cut short by that, but what is left of it still leads
from header to header, in order and inside the committed region: this much is what keeps the
operations of the heap away from the page bitmap.
-/

namespace QuillOS.Memory

open Lib Lib.Mem Lib.Tiling

variable {s s' : State} {ts : List Tile} {top top' lo lo' b c k n size need fuel last : ℕ}

/-! ## Chains of headers in order -/

/-- From `b` on, `next` leads through aligned headers, each behind the payload of the one before,
that end below `top`. -/
inductive Strung (s : State) (top : ℕ) : ℕ → ℕ → Prop
  | nil (lo : ℕ) : Strung s top lo 0
  | cons {lo b : ℕ} (hlo : lo ≤ b) (haligned : b % 8 = s.hhdm % 8)
      (hend : b + sizeofBlock + sizeAt s b ≤ top)
      (hnext : Strung s top (b + sizeofBlock + sizeAt s b) (nextAt s b)) : Strung s top lo b

/-- `next` leads from the block at the one address to the block at the other. -/
inductive Leads (s : State) : ℕ → ℕ → Prop
  | here (b : ℕ) : Leads s b b
  | next {c b : ℕ} (hne : nextAt s c ≠ 0) (h : Leads s (nextAt s c) b) : Leads s c b

theorem Strung.mono_lo (h : Strung s top lo b) (hle : lo' ≤ lo) : Strung s top lo' b := by
  cases h with
  | nil => exact Strung.nil lo'
  | cons hlo haligned hend hnext => exact Strung.cons (hle.trans hlo) haligned hend hnext

theorem fields_congr (s s' : State) (b : ℕ)
    (h : ∀ y, b ≤ y → y < b + sizeofBlock → s'.mem y = s.mem y) :
    sizeAt s' b = sizeAt s b ∧ nextAt s' b = nextAt s b := by
  unfold sizeofBlock at h
  constructor
  · exact loadNat_congr fun i hi => h _ (by omega) (by omega)
  · exact loadNat_congr fun i hi => h _ (by omega) (by omega)

/-- A chain depends on the memory it lies in. -/
theorem Strung.congr (h : Strung s top lo b) (hhhdm : s'.hhdm = s.hhdm) (hle : top ≤ top')
    (hmem : ∀ y, lo ≤ y → y < top → s'.mem y = s.mem y) : Strung s' top' lo b := by
  induction h with
  | nil lo => exact Strung.nil lo
  | @cons lo b hlo haligned hend hnext ih =>
    obtain ⟨hsize, hnext'⟩ := fields_congr s s' b
      fun y hy hy' => hmem y (by omega) (by omega)
    apply Strung.cons hlo (hhhdm ▸ haligned) (by omega)
    rw [hsize, hnext']
    exact ih fun y hy hy' => hmem y (by omega) hy'

/-- Zeroed fields leave an initial part of the chain. -/
theorem Strung.zeroed (h : Strung s top lo b) (hhhdm : s'.hhdm = s.hhdm)
    (hmem : ∀ x, x % 8 = s.hhdm % 8 →
      s'.mem.loadNat x 8 = s.mem.loadNat x 8 ∨ s'.mem.loadNat x 8 = 0) : Strung s' top lo b := by
  induction h with
  | nil lo => exact Strung.nil lo
  | @cons lo b hlo haligned hend hnext ih =>
    have hsize : sizeAt s' b ≤ sizeAt s b := by
      rcases hmem (b + 8) (by omega) with hsame | hzero
      · exact hsame.le
      · exact hzero.trans_le (Nat.zero_le _)
    apply Strung.cons hlo (hhhdm ▸ haligned) (by omega)
    rcases hmem (b + 16) (by omega) with hsame | hzero
    · have hnext' : nextAt s' b = nextAt s b := hsame
      rw [hnext']
      exact ih.mono_lo (by omega)
    · have hnext' : nextAt s' b = 0 := hzero
      rw [hnext']
      exact Strung.nil _

/-- The cell of a chain at one of its blocks, and how the chain goes on when memory changes from
that block on only. -/
theorem Strung.at (h : Strung s top lo c) (hpos : 0 < lo) (hc : c ≠ 0) (hl : Leads s c b) :
    lo ≤ b ∧ b % 8 = s.hhdm % 8 ∧ b + sizeofBlock + sizeAt s b ≤ top ∧
      Strung s top (b + sizeofBlock + sizeAt s b) (nextAt s b) ∧
      ∀ s' top', s'.hhdm = s.hhdm → top ≤ top' → (∀ y, lo ≤ y → y < b → s'.mem y = s.mem y) →
        Strung s' top' b b → Strung s' top' lo c ∧ Leads s' c b := by
  induction hl generalizing lo with
  | here b =>
    cases h with
    | nil => exact absurd rfl hc
    | cons hlo haligned hend hnext =>
      exact ⟨hlo, haligned, hend, hnext,
        fun s' top' _ _ _ hb => ⟨hb.mono_lo hlo, Leads.here b⟩⟩
  | @next c b hne hl ih =>
    cases h with
    | nil => exact absurd rfl hc
    | cons hlo haligned hend hnext =>
      obtain ⟨hb, hba, hbend, hbnext, hreplace⟩ := ih hnext (by omega) hne
      refine ⟨by omega, hba, hbend, hbnext, ?_⟩
      intro s' top' hhhdm hle hmem hb'
      obtain ⟨hrest, hleads⟩ := hreplace s' top' hhhdm hle
        (fun y hy hy' => hmem y (by omega) hy') hb'
      obtain ⟨hsize, hnext'⟩ := fields_congr s s' c
        fun y hy hy' => hmem y (by omega) (by omega)
      constructor
      · apply Strung.cons hlo (hhhdm ▸ haligned) (by omega)
        rw [hsize, hnext']
        exact hrest
      · apply Leads.next
        · rw [hnext']
          exact hne
        · rw [hnext']
          exact hleads

/-- Headers that describe tiles, followed by a chain, are one. -/
theorem Strung.of_blocks (hc : Blocks s.mem b ts k) (hne : ts ≠ [])
    (haligned : ∀ x ∈ starts sizeofBlock b ts, x % 8 = s.hhdm % 8)
    (htop : stop sizeofBlock b ts ≤ top) (hrest : Strung s top (stop sizeofBlock b ts) k) :
    Strung s top b b := by
  induction ts generalizing b with
  | nil => exact absurd rfl hne
  | cons t ts ih =>
    have hheader := hc.1
    have hle := le_stop sizeofBlock (b + sizeofBlock + t.size) ts
    rw [stop_cons] at htop hrest
    apply Strung.cons le_rfl (haligned b List.mem_cons_self)
    · rw [hheader.sizeAt_eq]
      omega
    · rw [hheader.sizeAt_eq, hheader.nextAt_eq]
      split
      · next hnil =>
        subst hnil
        exact hrest
      · next hcons =>
        exact ih hc.2 hcons (fun x hx => haligned x (List.mem_cons_of_mem _ hx)) htop hrest

/-! ## Walks along the chain -/

theorem search_leads (h : search s size fuel c = some (.found b)) : b ≠ 0 ∧
    magicAt s b = blockMagic ∧ freeAt s b = true ∧ size ≤ sizeAt s b ∧ Leads s c b := by
  induction fuel generalizing c with
  | zero => cases h
  | succ fuel ih =>
    unfold search at h
    split at h
    · cases h
    next hc =>
    split at h
    · cases h
    next hmagic =>
    split at h
    · next hfits =>
      obtain rfl : c = b := by simpa using h
      exact ⟨hc, not_not.mp hmagic, hfits.1, hfits.2, Leads.here c⟩
    · obtain ⟨hb, hbmagic, hfree, hsize, hl⟩ := ih h
      have hnext : nextAt s c ≠ 0 := by
        intro hzero
        rw [hzero] at h
        cases fuel with
        | zero => cases h
        | succ fuel =>
          rw [search, if_pos rfl] at h
          cases h
      exact ⟨hb, hbmagic, hfree, hsize, Leads.next hnext hl⟩

theorem lastBlock_leads (h : lastBlock s fuel c = some last) : nextAt s last = 0 ∧
    Leads s c last := by
  induction fuel generalizing c with
  | zero => cases h
  | succ fuel ih =>
    unfold lastBlock at h
    split at h
    · next hzero =>
      obtain rfl : c = last := Option.some.inj h
      exact ⟨hzero, Leads.here c⟩
    · next hne =>
      obtain ⟨hlast, hl⟩ := ih h
      exact ⟨hlast, Leads.next hne hl⟩

/-! ## Operations of the heap on a chain -/

theorem nextAt_lt (s : State) (b : ℕ) : nextAt s b < 2 ^ 64 := by
  have hlt := leValue_lt (s.mem.load (b + 16) 8)
  rw [length_load] at hlt
  exact hlt

/-- What a request leaves of a block of the chain is a chain again. -/
theorem Strung.carved {t : Tile} (hsize : t.size = sizeAt s b) (haligned : b % 8 = s.hhdm % 8)
    (hend : b + sizeofBlock + sizeAt s b ≤ top)
    (hnext : Strung s top (b + sizeofBlock + sizeAt s b) (nextAt s b)) (hneed : 8 ∣ need)
    (hfits : need ≤ t.size) (hhhdm : s'.hhdm = s.hhdm)
    (hblocks : Blocks s'.mem b (carve sizeofBlock minSplit need t) (nextAt s b))
    (hout : SameOutside s.mem s'.mem b (b + sizeofBlock + t.size)) :
    Strung s' top b b ∧ need ≤ sizeAt s' b := by
  rw [← hsize] at hend hnext
  constructor
  · apply Strung.of_blocks hblocks
    · unfold carve
      split <;> simp
    · have hblock : sizeofBlock = 24 := rfl
      intro x hx
      rw [hhhdm]
      unfold carve at hx
      split at hx
      · have hcases : x = b ∨ x = b + sizeofBlock + need := by simpa [starts] using hx
        omega
      · obtain rfl : x = b := by simpa [starts] using hx
        exact haligned
    · rw [stop_carve]
      exact hend
    · rw [stop_carve]
      exact hnext.congr hhhdm le_rfl fun y hy _ => hout y (Or.inr hy)
  · unfold carve at hblocks
    split at hblocks
    · exact hblocks.1.sizeAt_eq.ge
    · rw [hblocks.1.sizeAt_eq]
      exact hfits

/-- A block is taken: the chain goes on from it as before, with one more block in it if it was
split. -/
theorem Strung.taken (h : Strung s top lo c) (hpos : pageSize ≤ lo) (hc : c ≠ 0)
    (htop : top < 2 ^ 64) (hneed : 8 ∣ need)
    (hfound : search s need fuel c = some (.found b)) :
    Strung (takeBlock s b need) top lo c ∧ Leads (takeBlock s b need) c b ∧ lo ≤ b ∧
      need ≤ sizeAt (takeBlock s b need) b ∧ b + sizeofBlock + sizeAt s b ≤ top ∧
      SameOutside s.mem (takeBlock s b need).mem b (b + sizeofBlock + sizeAt s b) := by
  obtain ⟨-, hmagic, hfree, hfits, hl⟩ := search_leads hfound
  have hlo0 : 0 < lo := hpos.trans_lt' (by decide)
  obtain ⟨hlo, haligned, hend, hnext, hreplace⟩ := h.at hlo0 hc hl
  -- The size as a number, so that the tile does not unfold into the bytes it is read from.
  obtain ⟨n, hn⟩ : ∃ n, n = sizeAt s b := ⟨_, rfl⟩
  have hheader : Header s.mem b ⟨n, true⟩ (nextAt s b) := ⟨hmagic, hfree, hn.symm, rfl⟩
  have htile : Fits need ⟨n, true⟩ := ⟨rfl, hn ▸ hfits⟩
  obtain ⟨hblocks, hout⟩ := takeBlock_blocks hheader htile (hpos.trans hlo)
    (hn ▸ hend.trans_lt htop) (nextAt_lt s b)
  have hhhdm : (takeBlock s b need).hhdm = s.hhdm := congrArg Layout.hhdm takeBlock_layout
  obtain ⟨hchain, hsize⟩ := Strung.carved hn haligned hend hnext hneed htile.2 hhhdm hblocks hout
  obtain ⟨hall, hleads⟩ := hreplace _ top hhhdm le_rfl (fun y _ hy => hout y (Or.inl hy)) hchain
  exact ⟨hall, hleads, hlo, hsize, hend, hn ▸ hout⟩

theorem fields_setNext (hn : n < 2 ^ 64) :
    sizeAt (setNext s b n) b = sizeAt s b ∧ nextAt (setNext s b n) b = n :=
  ⟨loadNat_storeNat_of_disjoint (Or.inl (by omega)), loadNat_storeNat hn⟩

theorem fields_absorb (hlt : sizeAt s b + (sizeofBlock + sizeAt s c) < 2 ^ 64)
    (hc : b + sizeofBlock ≤ c) : sizeAt (absorb s b c) b = sizeAt s b + (sizeofBlock + sizeAt s c) ∧
      nextAt (absorb s b c) b = nextAt s c := by
  have hsame := fields_congr s
    (setSize s b (w64 (sizeAt s b + (sizeofBlock + sizeAt s c)))) c
    fun y hy _ => setSize_outside s b _ y (Or.inr (by omega))
  obtain ⟨hsize, hnext⟩ := fields_setNext
    (s := setSize s b (w64 (sizeAt s b + (sizeofBlock + sizeAt s c)))) (b := b)
    (nextAt_lt (setSize s b (w64 (sizeAt s b + (sizeofBlock + sizeAt s c)))) c)
  constructor
  · refine hsize.trans ?_
    have hread : sizeAt (setSize s b (w64 (sizeAt s b + (sizeofBlock + sizeAt s c)))) b =
        w64 (sizeAt s b + (sizeofBlock + sizeAt s c)) := loadNat_storeNat (w64_lt _)
    rw [hread, w64_eq hlt]
  · exact hnext.trans hsame.2

/-- A block is put behind the last one, where the chain may end at most. -/
theorem Strung.appended (h : Strung s b lo c) (hpos : 0 < lo) (hc : c ≠ 0) (hhead : s.heapHead = c)
    (haligned : b % 8 = s.hhdm % 8) (hlt : b + sizeofBlock + n < 2 ^ 64)
    (happend : appendBlock s b n = some s') :
    Strung s' (b + sizeofBlock + n) lo c ∧
      ∀ y, y < lo ∨ b + sizeofBlock ≤ y → s'.mem y = s.mem y := by
  have hblock : sizeofBlock = 24 := rfl
  unfold appendBlock at happend
  simp only at happend
  have hnew : Header (writeBlock s b n 0).mem b ⟨n, true⟩ 0 :=
    writeBlock_header s (by omega) (by omega)
  have hout₁ := writeBlock_outside s b n 0
  have hhhdm₁ : (writeBlock s b n 0).hhdm = s.hhdm := rfl
  have hhead₁ : (writeBlock s b n 0).heapHead = s.heapHead := rfl
  generalize writeBlock s b n 0 = s₁ at happend hnew hout₁ hhhdm₁ hhead₁
  have h₁ : Strung s₁ b lo c := h.congr hhhdm₁ le_rfl fun y _ hy => hout₁ y (Or.inl hy)
  obtain ⟨last, hlast, rfl⟩ := Option.map_eq_some_iff.mp happend
  rw [hhead₁, hhead] at hlast
  obtain ⟨hlo, hla, hend, -, hreplace⟩ := h₁.at hpos hc (lastBlock_leads hlast).2
  -- The last block names the new one.
  obtain ⟨hsize₂, hnext₂⟩ := fields_setNext (s := s₁) (b := last) (n := b) (by omega)
  have hout₂ := setNext_outside s₁ last b
  have hhhdm₂ : (setNext s₁ last b).hhdm = s₁.hhdm := rfl
  have hnew₂ : Header (setNext s₁ last b).mem b ⟨n, true⟩ 0 :=
    hnew.outside hout₂ (Or.inr (by omega))
  generalize setNext s₁ last b = s₂ at hsize₂ hnext₂ hout₂ hhhdm₂ hnew₂ ⊢
  have hkept : ∀ s', SameOutside s₂.mem s'.mem last (last + sizeofBlock) →
      s'.hhdm = s₂.hhdm → Strung s' (b + sizeofBlock + n) last last →
      Strung s' (b + sizeofBlock + n) lo c ∧
        ∀ y, y < lo ∨ b + sizeofBlock ≤ y → s'.mem y = s.mem y := by
    intro s' hout' hhhdm' hchain
    constructor
    · refine (hreplace s' _ (hhhdm'.trans hhhdm₂) (by omega) ?_ hchain).1
      intro y _ hy
      rw [hout' y (Or.inl hy), hout₂ y (Or.inl hy)]
    · intro y hy
      rw [hout' y (by omega), hout₂ y (by omega), hout₁ y (by omega)]
  split
  · next hjoin =>
    have hsize : sizeAt s₂ b = n := hnew₂.sizeAt_eq
    have hjoined : last + sizeofBlock + sizeAt s₂ last = b := by
      rw [← hjoin.2, w64_eq (by omega)]
    obtain ⟨hsize₃, hnext₃⟩ := fields_absorb (s := s₂) (b := last) (c := b) (by omega) (by omega)
    apply hkept _ (absorb_outside s₂ last b) rfl
    have hla₃ : last % 8 = (absorb s₂ last b).hhdm % 8 := hla.trans (congrArg (· % 8) hhhdm₂.symm)
    apply Strung.cons le_rfl hla₃
    · rw [hsize₃]
      omega
    · rw [hnext₃, hnew₂.nextAt_eq]
      exact Strung.nil _
  · apply hkept s₂ (fun _ _ => rfl) rfl
    apply Strung.cons le_rfl (hhhdm₂ ▸ hla)
    · omega
    · rw [hnext₂]
      apply Strung.cons (by omega)
      · rw [hhhdm₂, hhhdm₁]
        exact haligned
      · rw [hnew₂.sizeAt_eq]
      · rw [hnew₂.nextAt_eq]
        exact Strung.nil _

end QuillOS.Memory
