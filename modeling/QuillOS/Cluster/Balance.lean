import QuillOS.Cluster.Jobs

/-!
# Load balancing

`pick_target` computes the least load and does not use it: it takes the first peer below the local
load, and if there is none it turns around all peers, as if their loads were equal.
-/

namespace QuillOS.Cluster

/-- The table has the report, it is valid and at most 10000 ticks old. -/
def DJob.Fresh (d : DJob) (ticks : UInt64) (l : NodeLoad) : Prop :=
  (∃ i, d.nodeLoads i = l) ∧ l.valid = true ∧ ticks - l.lastUpdated ≤ 10000

/-- The local node has the local load, a peer the one of a fresh report. -/
def DJob.LoadOf (d : DJob) (localLoad : UInt32) (ticks : UInt64) (target : Ip) (load : UInt32) :
    Prop :=
  target = 0 ∧ load = localLoad ∨ ∃ l, d.Fresh ticks l ∧ l.ip = target ∧ l.taskCount = load

/-- The target is this node or a peer with a fresh report, and none of these has a smaller load. -/
def DJob.LeastLoaded (d : DJob) (localLoad : UInt32) (ticks : UInt64) (target : Ip) : Prop :=
  ∃ load, d.LoadOf localLoad ticks target load ∧ load ≤ localLoad ∧
    ∀ l, d.Fresh ticks l → load ≤ l.taskCount

/-- Whose turn it is: `0` is this node, `k + 1` the `k`-th peer with a fresh report. -/
def DJob.turn (d : DJob) (ticks : UInt64) : ℕ :=
  (d.roundRobinCounter + 1).toNat % (1 + (d.candidates ticks).length)

/-- The first peer below the local load has the least load; without such a peer it is the turn of
this node or of one with the local load. -/
def DJob.PicksLeast (d : DJob) (localLoad : UInt32) (ticks : UInt64) : Prop :=
  match (d.candidates ticks).find? fun l => l.taskCount < localLoad with
  | some l => ∃ m ∈ d.candidates ticks, m.ip = l.ip ∧
      ∀ c ∈ d.candidates ticks, m.taskCount ≤ c.taskCount
  | none => ∀ k l, d.turn ticks = k + 1 → (d.candidates ticks)[k]? = some l →
      l.ip = 0 ∨ ∃ m ∈ d.candidates ticks, m.ip = l.ip ∧ m.taskCount = localLoad

namespace DJob

variable {d : DJob} {localLoad : UInt32} {ticks : UInt64} {l : NodeLoad} {target : Ip}

theorem mem_candidates : l ∈ d.candidates ticks ↔ d.Fresh ticks l := by
  unfold candidates Fresh
  simp only [List.mem_filter, List.mem_map, List.mem_finRange, true_and, Bool.and_eq_true,
    Bool.not_eq_true', decide_eq_false_iff_not, gt_iff_lt, UInt64.not_lt]

/-- The least load in terms of the candidates. -/
theorem leastLoaded_iff : d.LeastLoaded localLoad ticks target ↔
    (target = 0 ∧ ∀ c ∈ d.candidates ticks, localLoad ≤ c.taskCount) ∨
      ∃ m ∈ d.candidates ticks, m.ip = target ∧ m.taskCount ≤ localLoad ∧
        ∀ c ∈ d.candidates ticks, m.taskCount ≤ c.taskCount := by
  constructor
  · rintro ⟨load, ⟨rfl, rfl⟩ | ⟨m, hm, rfl, rfl⟩, hlocal, hleast⟩
    · exact .inl ⟨rfl, fun c hc => hleast c (mem_candidates.mp hc)⟩
    · exact .inr ⟨m, mem_candidates.mpr hm, rfl, hlocal,
        fun c hc => hleast c (mem_candidates.mp hc)⟩
  · rintro (⟨rfl, hleast⟩ | ⟨m, hm, rfl, hlocal, hleast⟩)
    · exact ⟨localLoad, .inl ⟨rfl, rfl⟩, UInt32.le_refl _,
        fun c hc => hleast c (mem_candidates.mpr hc)⟩
    · exact ⟨m.taskCount, .inr ⟨m, mem_candidates.mp hm, rfl, rfl⟩, hlocal,
        fun c hc => hleast c (mem_candidates.mpr hc)⟩

/-- A peer below the local load is picked at once. -/
theorem pickTarget_of_some
    (h : (d.candidates ticks).find? (fun l => l.taskCount < localLoad) = some l) :
    (d.pickTarget localLoad ticks).1 = l.ip := by
  have hne : (d.candidates ticks).length ≠ 0 := by
    have hmem := List.mem_of_find?_eq_some h
    exact Nat.ne_of_gt (List.length_pos_of_mem hmem)
  unfold pickTarget
  dsimp only
  rw [if_neg hne, h]

/-- Otherwise the turn decides. -/
theorem pickTarget_of_none
    (h : (d.candidates ticks).find? (fun l => l.taskCount < localLoad) = none) :
    d.turn ticks = 0 ∧ (d.pickTarget localLoad ticks).1 = 0 ∨
      ∃ k l, d.turn ticks = k + 1 ∧ (d.candidates ticks)[k]? = some l ∧
        (d.pickTarget localLoad ticks).1 = l.ip := by
  have hlt : d.turn ticks < 1 + (d.candidates ticks).length := Nat.mod_lt _ (by omega)
  unfold pickTarget
  dsimp only
  rw [h]
  by_cases hzero : (d.candidates ticks).length = 0
  · rw [if_pos hzero]
    exact .inl ⟨by omega, rfl⟩
  rw [if_neg hzero]
  dsimp only
  change _ ∨ ∃ k l, _ ∧ _ ∧ (if d.turn ticks = 0 then _ else _ : Ip × UInt32).1 = _
  by_cases hturn : d.turn ticks = 0
  · left
    change _ ∧ (if d.turn ticks = 0 then _ else _ : Ip × UInt32).1 = _
    rw [if_pos hturn]
    exact ⟨hturn, rfl⟩
  · right
    obtain ⟨k, hk⟩ := Nat.exists_eq_succ_of_ne_zero hturn
    have hin : k < (d.candidates ticks).length := by omega
    refine ⟨k, (d.candidates ticks)[k], hk, List.getElem?_eq_getElem hin, ?_⟩
    rw [if_neg hturn]
    change (((d.candidates ticks).map NodeLoad.ip)[(d.turn ticks - 1) %
      (d.candidates ticks).length]?).getD 0 = _
    rw [hk, Nat.succ_eq_add_one, Nat.add_sub_cancel, Nat.mod_eq_of_lt hin, List.getElem?_map,
      List.getElem?_eq_getElem hin]
    rfl

/-- For every table, load, tick count and counter: the target has the least load exactly when the
first peer below the local load or the turn falls on one that has. -/
theorem pickTarget_leastLoaded_iff (d : DJob) (localLoad : UInt32) (ticks : UInt64) :
    d.LeastLoaded localLoad ticks (d.pickTarget localLoad ticks).1 ↔
      d.PicksLeast localLoad ticks := by
  rw [leastLoaded_iff]
  unfold PicksLeast
  split
  next l hfind =>
    have hbelow : l.taskCount < localLoad := by
      simpa using List.find?_some hfind
    have hmem := List.mem_of_find?_eq_some hfind
    rw [pickTarget_of_some hfind]
    constructor
    · rintro (⟨-, hleast⟩ | ⟨m, hm, hip, -, hleast⟩)
      · exact absurd hbelow (UInt32.not_lt.mpr (hleast l hmem))
      · exact ⟨m, hm, hip, hleast⟩
    · rintro ⟨m, hm, hip, hleast⟩
      exact .inr ⟨m, hm, hip, UInt32.le_of_lt (UInt32.lt_of_le_of_lt (hleast l hmem) hbelow), hleast⟩
  next hfind =>
    -- No peer is below the local load, which is therefore the least one.
    have hleast : ∀ c ∈ d.candidates ticks, localLoad ≤ c.taskCount := by
      intro c hc
      have hnot := List.find?_eq_none.mp hfind c hc
      simpa using hnot
    rcases pickTarget_of_none hfind with ⟨hturn, htarget⟩ | ⟨k, l, hturn, hk, htarget⟩
    · rw [htarget]
      refine iff_of_true (.inl ⟨rfl, hleast⟩) fun k l h => ?_
      rw [hturn] at h
      cases h
    · rw [htarget]
      constructor
      · rintro (⟨hip, -⟩ | ⟨m, hm, hip, hle, -⟩) k' l' hturn' hk'
        all_goals
          obtain rfl : k = k' := Nat.succ.inj (hturn.symm.trans hturn')
          obtain rfl := Option.some.inj (hk.symm.trans hk')
        · exact .inl hip
        · exact .inr ⟨m, hm, hip, UInt32.le_antisymm hle (hleast m hm)⟩
      · intro h
        rcases h k l hturn hk with hip | ⟨m, hm, hip, heq⟩
        · exact .inl ⟨hip, hleast⟩
        · exact .inr ⟨m, hm, hip, heq ▸ UInt32.le_refl _, fun c hc => heq ▸ hleast c hc⟩

/-- Two peers with fresh reports, the busier one first in the table. -/
def busierFirst : DJob :=
  { init with nodeLoads := fun i =>
      if i = 0 then { ip := 0x0200000A, taskCount := 3, lastUpdated := 100, valid := true }
      else if i = 1 then { ip := 0x0300000A, taskCount := 1, lastUpdated := 100, valid := true }
      else init.nodeLoads i }

/-- As it stands the promise fails: with a local load of 5 the peer with load 3 is picked, and the
one with load 1 is not. -/
theorem busierFirst_not_least :
    (busierFirst.pickTarget 5 100).1 = 0x0200000A ∧
      ¬busierFirst.LeastLoaded 5 100 (busierFirst.pickTarget 5 100).1 := by
  refine ⟨by decide +kernel, ?_⟩
  rw [leastLoaded_iff]
  decide +kernel

end DJob

end QuillOS.Cluster
