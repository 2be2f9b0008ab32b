import QuillOS.Memory.FirstFit

/-!
# What a failed allocation costs

A request that is refused before the heap grows leaves everything as it was. One that is refused
after a growth has used up the region: what was left of it stays committed, as free memory behind
the last block, and from then on failures cost nothing.
-/

namespace QuillOS.Memory

open Lib Lib.Mem Lib.Tiling

variable {s s' s₁ : State} {k : System} {ts ts' ts₁ : List Tile} {size need base count p n : ℕ}

/-! ## The counter of used pages under a growth -/

/-- How many of the pages are free. -/
def clearPagesIn (s : State) (base count : ℕ) : ℕ :=
  ((Finset.Ico base (base + count)).filter fun p => bmpTest s p = false).card

theorem clearPagesIn_succ : clearPagesIn s base (count + 1) =
    clearPagesIn s base count + if bmpTest s (base + count) then 0 else 1 := by
  have hinsert : Finset.Ico base (base + (count + 1)) =
      insert (base + count) (Finset.Ico base (base + count)) :=
    (Nat.Ico_succ_right_eq_insert_Ico (Nat.le_add_right _ _))
  unfold clearPagesIn
  rw [hinsert, Finset.filter_insert]
  cases bmpTest s (base + count) with
  | true => simp
  | false => simp

/-- Each page that was free is counted once. -/
theorem markPages_used :
    (markPages s base count).pmmUsed ≡ s.pmmUsed + clearPagesIn s base count [MOD 2 ^ 64] := by
  induction count with
  | zero => simp [markPages, clearPagesIn, Nat.ModEq.refl]
  | succ count ih =>
    have hlast : bmpTest (markPages s base count) (base + count) = bmpTest s (base + count) := by
      rw [bmpTest_markPages, decide_eq_false (by omega), Bool.false_or]
    rw [markPages, markPage, clearPagesIn_succ, hlast]
    split
    · exact ih
    · have hwrap : w64 ((markPages s base count).pmmUsed + 1) ≡
          (markPages s base count).pmmUsed + 1 [MOD 2 ^ 64] := by
        unfold w64
        exact Nat.mod_modEq _ _
      rw [← Nat.add_assoc]
      exact hwrap.trans (ih.add_right 1)

theorem appendBlock_used (h : appendBlock s p n = some s') : s'.pmmUsed = s.pmmUsed := by
  unfold appendBlock at h
  simp only at h
  obtain ⟨last, -, rfl⟩ := Option.map_eq_some_iff.mp h
  split <;> rfl

theorem growBy_used (h : growBy s n = some s') : s'.pmmUsed =
    (markPages s (w64 (s.heapPhysBase + s.heapCommitted) / pageSize) (n / pageSize)).pmmUsed := by
  unfold growBy at h
  simp only at h
  obtain ⟨s₁, hs₁, rfl⟩ := Option.map_eq_some_iff.mp h
  show s₁.pmmUsed = _
  exact appendBlock_used hs₁

/-! ## How a request fails -/

/-- The bytes the heap may still commit. -/
def uncommitted (s : State) : ℕ := s.heapMaxBytes - s.heapCommitted

/-- The request is refused before the heap grows. -/
def RefusedAtOnce (s : State) (size : ℕ) : Prop :=
  size = 0 ∨ uncommitted s < sizeofBlock + minSplit

instance (s : State) (size : ℕ) : Decidable (RefusedAtOnce s size) :=
  inferInstanceAs (Decidable (_ ∨ _))

/-- What is left of the region becomes part of the heap: a free block behind the others, joined to
the last one if that is free. Its pages are marked used, and those that were free are counted. -/
structure CommitsRest (s : State) (ts : List Tile) (s' : State) : Prop where
  committed : s'.heapCommitted = s.heapMaxBytes
  blocks : HeapInv s' (joinLast sizeofBlock ts ⟨uncommitted s - sizeofBlock, true⟩)
  bits : ∀ p < 8 * s.pmmBitmapBytes, bmpTest s' p =
    (decide ((s.heapPhysBase + s.heapCommitted) / pageSize ≤ p ∧
      p < (s.heapPhysBase + s.heapCommitted) / pageSize + uncommitted s / pageSize) ||
        bmpTest s p)
  used : s'.pmmUsed ≡ s.pmmUsed + clearPagesIn s ((s.heapPhysBase + s.heapCommitted) / pageSize)
    (uncommitted s / pageSize) [MOD 2 ^ 64]
  layout : s'.layout = s.layout

/-- A growth after which still nothing fits has taken all that was left. -/
theorem Grown.commitsRest (h : Grown s ts need s₁ ts₁) (inv : HeapInv s ts) (reg : RegionInv s)
    (hmax : s.heapCommitted ≤ s.heapMaxBytes) (hfit : s.heapMaxBytes + wantedGrowth need < 2 ^ 64)
    (hfull : s₁.heapCommitted = s.heapMaxBytes) : CommitsRest s ts s₁ := by
  have hgrow := growSize_le hmax hfit
  obtain ⟨inv₁, -, hlayout, hcommitted, -, -, hbits⟩ := h.inv inv reg hgrow
  have hsize : growSize s need = uncommitted s := by
    unfold uncommitted
    omega
  obtain ⟨hgrown, -, rfl⟩ := h
  rw [hsize] at inv₁ hbits
  refine ⟨hfull, inv₁, hbits, ?_, hlayout⟩
  have hphys := reg.phys_fits
  have hbase : w64 (s.heapPhysBase + s.heapCommitted) = s.heapPhysBase + s.heapCommitted :=
    w64_eq (by omega)
  rw [growBy_used hgrown, hbase, hsize]
  exact markPages_used

/-- The two ways a request fails. -/
theorem kmalloc_failed (inv : HeapInv s ts) (reg : RegionInv s)
    (hmax : s.heapCommitted ≤ s.heapMaxBytes) (hsize : size ≤ 2 ^ 63)
    (hfail : kmalloc s size = some (0, s')) :
    RefusedAtOnce s size ∧ s' = s ∨ ¬RefusedAtOnce s size ∧ CommitsRest s ts s' := by
  by_cases hzero : size = 0
  · rw [hzero, kmalloc_zero] at hfail
    exact Or.inl ⟨Or.inl hzero, (Prod.mk.inj (Option.some.inj hfail)).2.symm⟩
  have hcap : heapMaxPages * pageSize = 4194304 := rfl
  have hregion := reg.max_le
  have hneed := le_needOf hsize
  have hwanted := wantedGrowth_le hneed.2
  have hleast : 65536 ≤ wantedGrowth (needOf size) := le_max_left _ _
  have hfit : s.heapMaxBytes + wantedGrowth (needOf size) < 2 ^ 64 := by omega
  have hgrow := growSize_eq hmax hfit
  have hblock : sizeofBlock + minSplit = 56 := rfl
  obtain ⟨p, s₂, hcall, hcases⟩ := kmalloc_cases inv reg hzero hmax hfit
  obtain ⟨rfl, rfl⟩ := Prod.mk.inj (Option.some.inj (hfail.symm.trans hcall))
  rcases hcases with hserved | ⟨-, ⟨hrefused, -, rfl⟩ | ⟨s₁, ts₁, hgrown, hcases⟩⟩
  · exact absurd rfl hserved.pos
  · refine Or.inl ⟨Or.inr ?_, rfl⟩
    unfold uncommitted
    omega
  · rcases hcases with ⟨-, hserved⟩ | ⟨-, rfl, hnone | ⟨hfull, -⟩⟩
    · exact absurd rfl hserved.pos
    · omega
    · refine Or.inr ⟨?_, hgrown.commitsRest inv reg hmax hfit hfull⟩
      have hpart := hgrown.2.1
      rintro (hzero' | hleft)
      · exact hzero hzero'
      · unfold uncommitted at hleft
        omega

/-- The same bytes committed, the same blocks, the same pages marked and counted. -/
def CostsNothing (s s' : State) : Prop :=
  s'.heapCommitted = s.heapCommitted ∧ (∀ ts, HeapInv s' ts ↔ HeapInv s ts) ∧
    (∀ p, bmpTest s' p = bmpTest s p) ∧ s'.pmmUsed = s.pmmUsed

/-- In every state that any calls reach and in which the blocks tile the heap, a request that fails
changes nothing at all if less than a block is left of the region; otherwise it commits exactly
what is left, and the next request that fails changes nothing. -/
theorem failure_cost {l : Limine} {mem : Mem} {cs : List Call}
    (hinit : init l (boot mem) = some s) (hrun : Run System.Step (start s) cs k)
    (htiled : Tiled k.st) (hsize : size ≤ 2 ^ 63) (hfail : kmalloc k.st size = some (0, s')) :
    (CostsNothing k.st s' ↔ RefusedAtOnce k.st size) ∧
      (RefusedAtOnce k.st size → s' = k.st) ∧
      (¬RefusedAtOnce k.st size → ∃ ts, HeapInv k.st ts ∧ CommitsRest k.st ts s') ∧
      ∀ size' ≤ 2 ^ 63, ∀ s₂, size ≠ 0 → kmalloc s' size' = some (0, s₂) → s₂ = s' := by
  obtain ⟨⟨ts, inv⟩, hmax⟩ := htiled
  have hready := init_ready hinit
  have reg : RegionInv k.st := hready.reg.of_place (place_of_run hrun) hmax
  rcases kmalloc_failed inv reg hmax hsize hfail with ⟨hrefused, rfl⟩ | ⟨hgrew, hrest⟩
  · refine ⟨iff_of_true ⟨rfl, fun _ => Iff.rfl, fun _ => rfl, rfl⟩ hrefused, fun _ => rfl,
      fun h => absurd hrefused h, ?_⟩
    intro size' hsize' s₂ hne hfail'
    have hleft := hrefused.resolve_left hne
    rcases kmalloc_failed inv reg hmax hsize' hfail' with ⟨-, rfl⟩ | ⟨hgrew, -⟩
    · rfl
    · exact absurd (Or.inr hleft) hgrew
  · have hmax' : s'.heapMaxBytes = k.st.heapMaxBytes := congrArg Layout.heapMaxBytes hrest.layout
    have hfull := hrest.committed
    refine ⟨iff_of_false ?_ hgrew, fun h => absurd h hgrew, fun _ => ⟨ts, inv, hrest⟩, ?_⟩
    · rintro ⟨hsame, -⟩
      apply hgrew
      right
      unfold uncommitted
      rw [← hsame, hfull, Nat.sub_self]
      decide
    · intro size' hsize' s₂ _ hfail'
      have reg' : RegionInv s' := reg.update hrest.layout (Or.inr (by omega))
      rcases kmalloc_failed hrest.blocks reg' (by omega) hsize' hfail' with ⟨-, rfl⟩ | ⟨hgrew', -⟩
      · rfl
      · refine absurd (Or.inr ?_) hgrew'
        unfold uncommitted
        rw [hmax', hfull, Nat.sub_self]
        decide

theorem tiled_smallBoot : Tiled smallBoot := by
  obtain ⟨ts, inv⟩ := safe_of_run (init_ready init_smallBoot) smallBoot_bounded (Run.nil _)
  exact ⟨⟨ts, inv.heap⟩, inv.bounded⟩

/-- What is left after a request that no heap can serve. -/
@[irreducible] def afterFailure : State :=
  ((kmalloc smallBoot (2 ^ 63)).get (by decide +kernel)).2

theorem kmalloc_afterFailure : kmalloc smallBoot (2 ^ 63) = some (0, afterFailure) := by
  have hnull : ((kmalloc smallBoot (2 ^ 63)).get (by decide +kernel)).1 = 0 := by decide +kernel
  unfold afterFailure
  rw [← hnull]
  exact (Option.some_get _).symm

theorem failure_cost_small : (CostsNothing smallBoot afterFailure ↔
      RefusedAtOnce smallBoot (2 ^ 63)) ∧
    (RefusedAtOnce smallBoot (2 ^ 63) → afterFailure = smallBoot) ∧
    (¬RefusedAtOnce smallBoot (2 ^ 63) →
      ∃ ts, HeapInv smallBoot ts ∧ CommitsRest smallBoot ts afterFailure) ∧
    ∀ size' ≤ 2 ^ 63, ∀ s₂, 2 ^ 63 ≠ 0 → kmalloc afterFailure size' = some (0, s₂) →
      s₂ = afterFailure :=
  failure_cost init_smallBoot (Run.nil (start smallBoot)) tiled_smallBoot le_rfl
    kmalloc_afterFailure

/-- Right after `init`, a request of `2 ^ 63` bytes fails and leaves the heap with all of its
region committed. -/
theorem failure_not_free : ¬∀ {l : Limine} {mem : Mem} {s s' : State} {cs : List Call} {k : System}
    {size : ℕ}, init l (boot mem) = some s → s.heapCommitted ≤ s.heapMaxBytes →
    Run (Where HeapCall System.Step) (start s) cs k → size ≤ 2 ^ 63 →
    kmalloc k.st size = some (0, s') → CostsNothing k.st s' := by
  intro hclaim
  have hsame := hclaim init_smallBoot smallBoot_bounded (Run.nil (start smallBoot)) le_rfl
    kmalloc_afterFailure
  have hgrown : afterFailure.heapCommitted ≠ smallBoot.heapCommitted := by decide +kernel
  exact hgrown hsame.1

end QuillOS.Memory
