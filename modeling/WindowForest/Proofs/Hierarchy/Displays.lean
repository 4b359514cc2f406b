import WindowForest.Hierarchy.Query
import WindowForest.Proofs.Hierarchy.Arrangement

/-!
# Displays and what is on them

In an arranged hierarchy a container is one level below its parent. There are
four levels, so no chain of ancestors has more than four members, and a display,
which is on the uppermost level, is always the root of its tree. The search for
the display of a container goes up the whole chain, and therefore it finds the
root of the tree if that is a display, and nothing otherwise. All containers of a
tree get the same answer.
-/

set_option autoImplicit false

namespace WindowForest.Hierarchy

variable {η : Type} {h h' : Hierarchy η} {a b node k p r : Key}

/-! ## Levels -/

/-- A display is what is of the kind of displays. -/
theorem isDisplay_iff : h.isDisplay k ↔ ∃ id, h.kindOf k = some (.display id) := by
  unfold isDisplay
  cases hk : h.kindOf k with
  | none => simp
  | some kind => cases kind <;> simp [Kind.isDisplay]

/-- What some kind of container holds is no display. -/
theorem not_isDisplay_of_canContain {kind kind' : Kind} (hk : h.kindOf k = some kind')
    (hfits : kind.canContain kind') : ¬ h.isDisplay k := by
  rw [isDisplay_iff, hk]
  rintro ⟨id, hid⟩
  obtain rfl := Option.some.inj hid
  cases kind <;> cases hfits

namespace Arranged

variable (ha : h.Arranged)

include ha

/-- What has a parent is no display. -/
theorem not_isDisplay_of_parent (hp : h.forest.parent k = some p) : ¬ h.isDisplay k := by
  obtain ⟨a, b, -, hk, hab⟩ := ha.fits k p hp
  exact not_isDisplay_of_canContain hk hab

/-- Displays have no parent. -/
theorem parent_of_isDisplay (hk : h.isDisplay k) : h.forest.parent k = none := by
  cases hp : h.forest.parent k with
  | none => rfl
  | some p => exact absurd hk (ha.not_isDisplay_of_parent hp)

/-- A chain of ancestors takes up one level for each of its members. -/
theorem length_ancestors_le {kind : Kind} (hk : h.kindOf k = some kind) :
    (h.forest.ancestors k).length ≤ kind.depth + 1 := by
  have hrooted := ha.wellFormed.rooted
  induction k using hrooted.induction generalizing kind with
  | root k hroot =>
    rw [hrooted.ancestors_of_root (ha.mem_of_kindOf hk) hroot]
    simp
  | child k p hp ih =>
    obtain ⟨a, b, hpkind, hkkind, hab⟩ := ha.fits k p hp
    obtain rfl := Option.mem_unique hkkind hk
    have hdepth := Kind.canContain_iff.1 hab
    have hlength := ih hpkind
    rw [hrooted.ancestors_of_parent hp, List.length_cons]
    omega

/-- There are four levels, so no chain of ancestors has more than four members. -/
theorem length_ancestors_le_four (k : Key) : (h.forest.ancestors k).length ≤ 4 := by
  by_cases hk : k ∈ h.forest
  · obtain ⟨kind, hkind⟩ := ha.exists_kind hk
    have hlength := ha.length_ancestors_le hkind
    have hdepth : kind.depth ≤ 3 := by cases kind <;> simp [Kind.depth]
    omega
  · simp [Forest.ancestors_of_notMem hk]

/-! ## The display of a container -/

/-- A container with a parent is on the display of its parent. -/
theorem displayOf_of_parent (hp : h.forest.parent k = some p) :
    h.displayOf k = h.displayOf p := by
  unfold displayOf
  rw [ha.wellFormed.rooted.ancestors_of_parent hp, List.find?_cons]
  simp [ha.not_isDisplay_of_parent hp]

/-- What is within a container is on the display of that container. -/
theorem displayOf_of_within (hw : h.forest.Within a b) : h.displayOf b = h.displayOf a := by
  induction hw with
  | refl => rfl
  | tail _ hp ih => exact (ha.displayOf_of_parent hp).trans ih

/-- A root is on itself if it is a display, and on no display otherwise. -/
theorem displayOf_of_root (hr : r ∈ h.forest) (hroot : h.forest.parent r = none) :
    h.displayOf r = if h.isDisplay r then some r else none := by
  unfold displayOf
  rw [ha.wellFormed.rooted.ancestors_of_root hr hroot, List.find?_singleton]

/-- A container is on the root of its tree if that is a display, and on no display otherwise. -/
theorem displayOf_of_isRootOf (hr : h.forest.IsRootOf r k) :
    h.displayOf k = if h.isDisplay r then some r else none := by
  rw [ha.displayOf_of_within hr.2.2, ha.displayOf_of_root hr.1 hr.2.1]

omit ha in
/-- What is not live is on no display. -/
theorem displayOf_of_notMem (hk : k ∉ h.forest) : h.displayOf k = none := by
  simp [displayOf, Forest.ancestors_of_notMem hk]

/-- The display of a container is the root of its tree, where that is a display. -/
theorem displayOf_eq_some_iff :
    h.displayOf k = some r ↔ h.isDisplay r ∧ h.forest.IsRootOf r k := by
  by_cases hk : k ∈ h.forest
  · obtain ⟨s, hs⟩ := ha.wellFormed.rooted.exists_root hk
    rw [ha.displayOf_of_isRootOf hs]
    constructor
    · intro heq
      by_cases hdisplay : h.isDisplay s
      · rw [if_pos hdisplay, Option.some.injEq] at heq
        exact heq ▸ ⟨hdisplay, hs⟩
      · rw [if_neg hdisplay] at heq
        cases heq
    · rintro ⟨hdisplay, hr⟩
      obtain rfl := hs.unique hr
      rw [if_pos hdisplay]
  · rw [displayOf_of_notMem hk]
    refine ⟨nofun, fun ⟨_, hr⟩ => absurd ?_ hk⟩
    exact hr.2.2.mem hr.1

end Arranged

/-! ## Layers -/

/-- Containers stand in layers with displays on top, and trees are on displays as a whole. -/
structure Layered (h : Hierarchy η) : Prop where
  /-- A parent holds containers of the kinds of its children. -/
  fits : ∀ k p, h.forest.parent k = some p →
    ∃ a b, h.kindOf p = some a ∧ h.kindOf k = some b ∧ a.canContain b
  /-- Displays are roots. -/
  display_root : ∀ k, h.isDisplay k → k ∈ h.forest ∧ h.forest.parent k = none
  /-- No container is a proper ancestor of itself. -/
  acyclic : ∀ k, ¬ Relation.TransGen (fun p c => h.forest.parent c = some p) k k
  /-- The chain of parents from a container up to its root has at most four members. -/
  chain : ∀ k, h.contains k →
    ∃ keys, Trail h.forest.parent (some k) keys none ∧ keys.length ≤ 4
  /-- The display of a container is the root of its tree, where that is a display. -/
  displayOf_iff : ∀ k r, h.displayOf k = some r ↔ h.isDisplay r ∧ h.forest.IsRootOf r k
  /-- The containers of a tree are on the same display. -/
  shared : ∀ r a b, h.forest.IsRootOf r a → h.forest.IsRootOf r b →
    h.displayOf a = h.displayOf b ∧ h.displayIdOf a = h.displayIdOf b

/-- In an arranged hierarchy containers stand in layers. -/
theorem layered_of_arranged (ha : h.Arranged) : h.Layered where
  fits := ha.fits
  display_root k hk := by
    obtain ⟨id, hid⟩ := isDisplay_iff.1 hk
    exact ⟨ha.mem_of_kindOf hid, ha.parent_of_isDisplay hk⟩
  acyclic := ha.wellFormed.rooted.acyclic
  chain k hk := by
    have htrail := ha.wellFormed.rooted.trail_ancestors k
    rw [Forest.only, if_pos ((ha.live_iff k).1 hk)] at htrail
    exact ⟨_, htrail, ha.length_ancestors_le_four k⟩
  displayOf_iff _ _ := ha.displayOf_eq_some_iff
  shared r a b hra hrb := by
    have hdisplay : h.displayOf a = h.displayOf b := by
      rw [ha.displayOf_of_isRootOf hra, ha.displayOf_of_isRootOf hrb]
    refine ⟨hdisplay, ?_⟩
    rw [displayIdOf, hdisplay]
    rfl

/-- Whatever commands were given, carried out or refused, the hierarchy is layered. -/
theorem Reachable.layered [Hook η] {settings : Settings} (hr : Reachable settings h) :
    h.Layered :=
  layered_of_arranged hr.arranged

/-- The task in the stack is on the display that the stack is on. -/
theorem layered_furnished :
    Reachable {} furnished ∧ furnished.Layered ∧ furnished.displayOf ⟨4, 1⟩ = some ⟨1, 1⟩ := by
  have hr := reachable_furnished
  exact ⟨hr, hr.layered, by decide⟩

end WindowForest.Hierarchy
