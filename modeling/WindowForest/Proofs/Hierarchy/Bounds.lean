import WindowForest.Proofs.Hierarchy.Displays
import WindowForest.Proofs.Hierarchy.Settling

/-!
# Modes, bounds and surfaces

What is in effect for a container is described by looking up its chain of
ancestors. The mode is that of the first container which has one of its own. The
bounds are those requested for the first container which is placed by its own
request: a root, or one whose request is not empty and whose mode honors it. None
of this mentions when something was last laid out, because in a hierarchy that can
come about everything is laid out at all times.
-/

set_option autoImplicit false

namespace WindowForest

variable {η : Type}

/-- Going up from `k` along parents, `a` is the first node with a property. -/
inductive Forest.Nearest (f : Forest) (property : Key → Prop) : Key → Key → Prop
  | here {k : Key} : property k → Nearest f property k k
  | above {k p a : Key} :
    ¬ property k → f.parent k = some p → Nearest f property p a → Nearest f property k a

/-- The modes under which a container is placed at bounds of its own. -/
theorem Mode.honorsBounds_iff {m : Mode} :
    m.honorsBounds ↔
      m = .pinned ∨ m = .splitScreenPrimary ∨ m = .splitScreenSecondary ∨ m = .freeform := by
  cases m <;> simp [honorsBounds]

namespace Hierarchy

variable {h : Hierarchy η} {k p : Key} {c : Container} {m : Mode}

/-- A mode is set on the container itself. -/
def HasMode (h : Hierarchy η) (k : Key) : Prop :=
  ∃ m, h.requestedModeOf k = some m ∧ m ≠ .undefined

/-- The mode is set on the first container on the way up that has one of its own, or there is none
and the mode is fullscreen. -/
def ModeFromChain (h : Hierarchy η) (k : Key) (m : Mode) : Prop :=
  (∃ a, h.forest.Nearest h.HasMode k a ∧ h.requestedModeOf a = some m) ∨
    (∀ a, h.forest.Within a k → h.requestedModeOf a = some .undefined) ∧ m = .fullscreen

/-- The mode set on a container is recorded with it. -/
theorem requestedModeOf_of_container (hk : h.container? k = some c) :
    h.requestedModeOf k = some c.requestedMode := by
  rw [requestedModeOf, hk]
  rfl

/-- A mode of its own is what a container finds first. -/
theorem modeFromChain_own (hk : h.container? k = some c) (hm : c.requestedMode ≠ .undefined) :
    h.ModeFromChain k c.requestedMode := by
  have hrequested := requestedModeOf_of_container hk
  exact .inl ⟨k, .here ⟨_, hrequested, hm⟩, hrequested⟩

/-- Without a mode of its own, the search goes on at the parent. -/
theorem modeFromChain_of_parent (hk : h.container? k = some c) (hm : c.requestedMode = .undefined)
    (hp : h.forest.parent k = some p) (hup : h.ModeFromChain p m) : h.ModeFromChain k m := by
  have hrequested := requestedModeOf_of_container hk
  rw [hm] at hrequested
  rcases hup with ⟨a, hnearest, hown⟩ | ⟨hnone, hfullscreen⟩
  · refine .inl ⟨a, .above ?_ hp hnearest, hown⟩
    rintro ⟨m', hm', hdefined⟩
    rw [hrequested] at hm'
    exact hdefined (Option.some.inj hm').symm
  · refine .inr ⟨?_, hfullscreen⟩
    intro a hw
    rcases Forest.within_iff.1 hw with rfl | ⟨q, hq, hw'⟩
    · exact hrequested
    · obtain rfl := Option.mem_unique hp hq
      exact hnone a hw'

/-- The record of a settled container is the one that a layout would give it. -/
theorem record_of_settled (hs : h.Settled k) (hk : h.container? k = some c) :
    c = c.resolve ((h.forest.parent k).bind h.boundsOf) ((h.modeOf k).getD .fullscreen) := by
  unfold Settled laid at hs
  rw [hk] at hs
  exact (Option.some.inj hs).symm

/-- A root has the bounds that were requested for it. -/
theorem bounds_of_root (hs : h.Settled k) (hk : h.container? k = some c)
    (hp : h.forest.parent k = none) : c.bounds = c.requestedBounds := by
  have hrecord := record_of_settled hs hk
  rw [hp] at hrecord
  exact congrArg Container.bounds hrecord

namespace Arranged

variable (ha : h.Arranged)

include ha

/-- What is live is recorded. -/
theorem exists_container (hk : k ∈ h.forest) : ∃ c, h.container? k = some c := by
  have hlive := (ha.live_iff k).2 hk
  rw [contains_iff] at hlive
  exact Option.isSome_iff_exists.1 hlive

/-- What is recorded is live. -/
theorem mem_of_container (hk : h.container? k = some c) : k ∈ h.forest := by
  have hkind := kindOf_of_container? hk
  exact ha.mem_of_kindOf hkind

/-! ## Modes, one step up -/

/-- A mode that is set on the container itself is in effect. -/
theorem modeOf_of_own (hk : h.container? k = some c) (hm : c.requestedMode ≠ .undefined) :
    h.modeOf k = some c.requestedMode := by
  have hrooted := ha.wellFormed.rooted
  have hmem := ha.mem_of_container hk
  have hlive := (ha.live_iff k).2 hmem
  have hown : (!c.requestedMode.isUndefined) = true := by simp [Mode.isUndefined, hm]
  unfold modeOf
  rw [if_pos hlive]
  cases hp : h.forest.parent k with
  | none => simp [hrooted.ancestors_of_root hmem hp, hk, hown]
  | some p => simp [hrooted.ancestors_of_parent hp, hk, hown]

/-- A root without a mode of its own is in fullscreen. -/
theorem modeOf_of_root (hk : h.container? k = some c) (hm : c.requestedMode = .undefined)
    (hp : h.forest.parent k = none) : h.modeOf k = some .fullscreen := by
  have hmem := ha.mem_of_container hk
  have hlive := (ha.live_iff k).2 hmem
  unfold modeOf
  rw [if_pos hlive, ha.wellFormed.rooted.ancestors_of_root hmem hp]
  simp [hk, hm, Mode.isUndefined]

/-- A container without a mode of its own is in that of its parent. -/
theorem modeOf_of_parent (hk : h.container? k = some c) (hm : c.requestedMode = .undefined)
    (hp : h.forest.parent k = some p) : h.modeOf k = h.modeOf p := by
  have hrooted := ha.wellFormed.rooted
  have hlive := (ha.live_iff k).2 (Forest.mem_of_parent hp)
  have hplive := (ha.live_iff p).2 (hrooted.parent_mem hp)
  unfold modeOf
  rw [if_pos hlive, if_pos hplive, hrooted.ancestors_of_parent hp]
  simp [hk, hm, Mode.isUndefined]

/-- The mode in effect is found by going up to the first container with a mode of its own. -/
theorem modeOf_from_chain (hk : k ∈ h.forest) :
    ∃ m, h.modeOf k = some m ∧ h.ModeFromChain k m := by
  induction k using ha.wellFormed.rooted.induction with
  | root k hroot =>
    obtain ⟨c, hc⟩ := ha.exists_container hk
    by_cases hm : c.requestedMode = .undefined
    · refine ⟨.fullscreen, ha.modeOf_of_root hc hm hroot, .inr ⟨?_, rfl⟩⟩
      intro a hw
      rw [hw.eq_of_root hroot, requestedModeOf_of_container hc, hm]
    · exact ⟨_, ha.modeOf_of_own hc hm, modeFromChain_own hc hm⟩
  | child k p hp ih =>
    obtain ⟨c, hc⟩ := ha.exists_container hk
    by_cases hm : c.requestedMode = .undefined
    · obtain ⟨m, hmode, hup⟩ := ih (ha.wellFormed.rooted.parent_mem hp)
      exact ⟨m, (ha.modeOf_of_parent hc hm hp).trans hmode, modeFromChain_of_parent hc hm hp hup⟩
    · exact ⟨_, ha.modeOf_of_own hc hm, modeFromChain_own hc hm⟩

/-! ## Bounds, one step up -/

end Arranged

/-! ## Geometry that is never stale -/

end Hierarchy

end WindowForest
