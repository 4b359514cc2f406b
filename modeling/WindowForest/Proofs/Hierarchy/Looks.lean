import WindowForest.Proofs.Hierarchy.Bounds
import WindowForest.Proofs.Hierarchy.Settling

/-!
# How containers look

A container looks the same in two hierarchies if its mode, its bounds and its surface are
the same. The look of a settled container follows from what is asked of it and from the
look of its parent. So two hierarchies that agree on the requests and on the parents
agree on the looks (`Arranged.sameLook_of_terms`), and this can be said of any set of
containers that goes up through the same parents in both. Going up, the set may stop at a
shield, a container placed at bounds of its own in a mode of its own, because the look of
a shield does not depend on what is above it.
-/

set_option autoImplicit false

namespace WindowForest

namespace Container

variable {c c' : Container}

/-- What is asked of a container, apart from removal. -/
def terms (c : Container) : Container := { c with bounds := {}, surface := {}, pending := false }

/-- The same is asked of two containers if each of the four things that can be asked is the same. -/
theorem terms_eq_iff : c'.terms = c.terms ↔
    c'.kind = c.kind ∧ c'.requestedMode = c.requestedMode ∧
      c'.requestedBounds = c.requestedBounds ∧ c'.overrideBounds = c.overrideBounds := by
  simp [terms]

/-- The bounds that follow for a container do not depend on how it looked before. -/
theorem effectiveBounds_of_terms (hterms : c'.terms = c.terms) (parentBounds : Option Rect)
    (mode : Mode) : c'.effectiveBounds parentBounds mode = c.effectiveBounds parentBounds mode := by
  obtain ⟨hkind, -, hbounds, -⟩ := terms_eq_iff.1 hterms
  unfold effectiveBounds honorsRequest
  rw [hkind, hbounds]

/-- Under a mode that honors its bounds, a rectangle that is not empty is where a container is. -/
theorem effectiveBounds_of_honored {mode : Mode} (hmode : mode.honorsBounds)
    (hbounds : ¬ c.requestedBounds.isEmpty) (parentBounds : Option Rect) :
    c.effectiveBounds parentBounds mode = c.requestedBounds := by
  cases parentBounds with
  | none => rfl
  | some parent => simp [effectiveBounds, honorsRequest, hmode, hbounds]

end Container

namespace Hierarchy

variable {η : Type} {h h' h'' : Hierarchy η} {k s p : Key} {c : Container}

/-- What is asked of the container with a given key, apart from removal. -/
def termsOf (h : Hierarchy η) (k : Key) : Option Container := (h.container? k).map Container.terms

/-- Where the surface of a container is. -/
def surfaceOf (h : Hierarchy η) (k : Key) : Option Point :=
  (h.container? k).map Container.surface

/-- A container looks the same in both hierarchies. -/
structure SameLook (h h' : Hierarchy η) (k : Key) : Prop where
  bounds : h'.boundsOf k = h.boundsOf k
  mode : h'.modeOf k = h.modeOf k
  surface : h'.surfaceOf k = h.surfaceOf k

/-- A container is at bounds of its own, whatever is above it: a mode is set on it under which its
bounds count, and they are not empty. -/
def Shields (h : Hierarchy η) (s : Key) : Prop :=
  ∃ c, h.container? s = some c ∧
    (c.requestedMode = .pinned ∨ c.requestedMode = .splitScreenPrimary ∨
      c.requestedMode = .splitScreenSecondary ∨ c.requestedMode = .freeform) ∧
    ¬ c.requestedBounds.isEmpty

namespace SameLook

/-- A container looks the same as itself. -/
theorem refl (h : Hierarchy η) (k : Key) : SameLook h h k := ⟨rfl, rfl, rfl⟩

/-- Looking the same is handed on from one hierarchy to the next. -/
theorem trans (hl : SameLook h h' k) (hl' : SameLook h' h'' k) : SameLook h h'' k where
  bounds := hl'.bounds.trans hl.bounds
  mode := hl'.mode.trans hl.mode
  surface := hl'.surface.trans hl.surface

end SameLook

/-- What is asked of a container apart from removal is part of what is asked of it. -/
theorem termsOf_eq_map_requestOf (h : Hierarchy η) (k : Key) :
    h.termsOf k = (h.requestOf k).map Container.terms := by
  rw [requestOf, Option.map_map]
  rfl

/-- A container of which the same is asked in another hierarchy is there as well. -/
theorem exists_container_of_terms (hterms : h'.termsOf k = h.termsOf k)
    (hk : h.container? k = some c) : ∃ c', h'.container? k = some c' ∧ c'.terms = c.terms := by
  rw [termsOf, termsOf, hk] at hterms
  exact Option.map_eq_some_iff.1 hterms

/-- A container that is not there is not there in a hierarchy where the same is asked of it. -/
theorem container?_none_of_terms (hterms : h'.termsOf k = h.termsOf k)
    (hk : h.container? k = none) : h'.container? k = none := by
  rw [termsOf, termsOf, hk] at hterms
  exact Option.map_eq_none_iff.1 hterms

/-- A shield is not affected by what happens above it. -/
theorem Shields.of_terms (hs : h.Shields s) (hterms : h'.termsOf s = h.termsOf s) :
    h'.Shields s := by
  obtain ⟨c, hc, hmode, hbounds⟩ := hs
  obtain ⟨c', hc', hsame⟩ := exists_container_of_terms hterms hc
  obtain ⟨-, hmode', hbounds', -⟩ := Container.terms_eq_iff.1 hsame
  exact ⟨c', hc', hmode' ▸ hmode, hbounds' ▸ hbounds⟩

/-! ## Looks of settled containers -/

/-- Where a container is follows from where its parent is and from the mode. -/
theorem bounds_of_settled (hs : h.Settled k) (hk : h.container? k = some c) :
    c.bounds = c.effectiveBounds ((h.forest.parent k).bind h.boundsOf)
      ((h.modeOf k).getD .fullscreen) := by
  have hrecord := record_of_settled hs hk
  exact congrArg Container.bounds hrecord

/-- The surface of a settled container is at the corner of the rectangle that it is anchored to. -/
theorem surface_of_settled (hs : h.Settled k) (hk : h.container? k = some c) :
    c.surface = (c.overrideBounds.getD c.bounds).topLeft := by
  have hrecord := record_of_settled hs hk
  have hsurface := congrArg Container.surface hrecord
  rw [bounds_of_settled hs hk]
  exact hsurface

/-- The surface of a container follows from its bounds. -/
theorem sameLook_of_bounds {c' : Container} (hs : h.Settled k) (hs' : h'.Settled k)
    (hk : h.container? k = some c) (hk' : h'.container? k = some c')
    (hterms : c'.terms = c.terms) (hmode : h'.modeOf k = h.modeOf k)
    (hbounds : c'.bounds = c.bounds) : SameLook h h' k where
  bounds := by rw [boundsOf, boundsOf, hk, hk', Option.map_some, Option.map_some, hbounds]
  mode := hmode
  surface := by
    obtain ⟨-, -, -, hoverride⟩ := Container.terms_eq_iff.1 hterms
    rw [surfaceOf, surfaceOf, hk, hk', Option.map_some, Option.map_some, surface_of_settled hs hk,
      surface_of_settled hs' hk', hbounds, hoverride]

/-- What is not there looks like nothing. -/
theorem sameLook_of_missing (hk : h.container? k = none) (hk' : h'.container? k = none) :
    SameLook h h' k where
  bounds := by rw [boundsOf, boundsOf, hk, hk']
  mode := by simp [modeOf, contains_iff, hk, hk']
  surface := by rw [surfaceOf, surfaceOf, hk, hk']

namespace Arranged

variable (ha : h.Arranged) (ha' : h'.Arranged)

include ha

/-- A shield is in the mode and at the bounds that are set on it. -/
theorem look_of_shield (hs : h.Settled s) (hc : h.container? s = some c) (hshields : h.Shields s) :
    h.modeOf s = some c.requestedMode ∧ c.bounds = c.requestedBounds := by
  obtain ⟨d, hd, hmode, hbounds⟩ := hshields
  obtain rfl := Option.mem_unique hc hd
  have hhonors : c.requestedMode.honorsBounds := Mode.honorsBounds_iff.2 hmode
  have hdefined : c.requestedMode ≠ .undefined := by
    intro he
    simp [he] at hmode
  have hown := ha.modeOf_of_own hc hdefined
  refine ⟨hown, ?_⟩
  rw [bounds_of_settled hs hc, hown]
  exact Container.effectiveBounds_of_honored hhonors hbounds _

include ha'

/-- The mode of a container is the same if it asks for the same and its parent has the same
mode. -/
theorem modeOf_of_terms (hterms : h'.termsOf k = h.termsOf k)
    (hparent : h'.forest.parent k = h.forest.parent k)
    (hup : ∀ p, h.forest.parent k = some p → h'.modeOf p = h.modeOf p)
    (hk : h.container? k = some c) : h'.modeOf k = h.modeOf k := by
  obtain ⟨c', hk', hsame⟩ := exists_container_of_terms hterms hk
  obtain ⟨-, hmode, -, -⟩ := Container.terms_eq_iff.1 hsame
  by_cases hm : c.requestedMode = .undefined
  · cases hp : h.forest.parent k with
    | none =>
      rw [ha.modeOf_of_root hk hm hp, ha'.modeOf_of_root hk' (hmode.trans hm) (hparent.trans hp)]
    | some p =>
      rw [ha.modeOf_of_parent hk hm hp,
        ha'.modeOf_of_parent hk' (hmode.trans hm) (hparent.trans hp), hup p hp]
  · rw [ha.modeOf_of_own hk hm, ha'.modeOf_of_own hk' (hmode ▸ hm), hmode]

variable (hs : ∀ k, h.Settled k) (hs' : ∀ k, h'.Settled k)

include hs hs'

/-- A shield of which the same is asked looks the same. -/
theorem sameLook_of_shield (hterms : h'.termsOf s = h.termsOf s) (hshields : h.Shields s) :
    SameLook h h' s := by
  have ⟨c, hc, _⟩ := hshields
  obtain ⟨c', hc', hsame⟩ := exists_container_of_terms hterms hc
  obtain ⟨-, hmode, hbounds, -⟩ := Container.terms_eq_iff.1 hsame
  obtain ⟨hown, hplaced⟩ := ha.look_of_shield (hs s) hc hshields
  obtain ⟨hown', hplaced'⟩ := ha'.look_of_shield (hs' s) hc' (hshields.of_terms hterms)
  apply sameLook_of_bounds (hs s) (hs' s) hc hc' hsame
  · rw [hown, hown', hmode]
  · rw [hplaced, hplaced', hbounds]

/-- A container of which the same is asked looks the same under a parent that looks the same. -/
theorem sameLook_of_parent (hterms : h'.termsOf k = h.termsOf k)
    (hparent : h'.forest.parent k = h.forest.parent k)
    (hup : ∀ p, h.forest.parent k = some p → SameLook h h' p) : SameLook h h' k := by
  cases hk : h.container? k with
  | none => exact sameLook_of_missing hk (container?_none_of_terms hterms hk)
  | some c =>
    obtain ⟨c', hk', hsame⟩ := exists_container_of_terms hterms hk
    have hmode := ha.modeOf_of_terms ha' hterms hparent (fun p hp => (hup p hp).mode) hk
    have habove : (h'.forest.parent k).bind h'.boundsOf = (h.forest.parent k).bind h.boundsOf := by
      rw [hparent]
      cases hp : h.forest.parent k with
      | none => rfl
      | some p => exact (hup p hp).bounds
    apply sameLook_of_bounds (hs k) (hs' k) hk hk' hsame hmode
    rw [bounds_of_settled (hs k) hk, bounds_of_settled (hs' k) hk', habove, hmode,
      Container.effectiveBounds_of_terms hsame]

/-- Containers of which the same is asked look the same, if from each of them one gets up through
the same parents to a root or to a shield. -/
theorem sameLook_of_terms {P : Key → Prop} (hterms : ∀ k, P k → h'.termsOf k = h.termsOf k)
    (hup : ∀ k, P k → h.Shields k ∨ h'.forest.parent k = h.forest.parent k ∧
      ∀ p, h.forest.parent k = some p → P p) (hk : P k) : SameLook h h' k := by
  have step : ∀ k, P k → (∀ p, h.forest.parent k = some p → P p → SameLook h h' p) →
      SameLook h h' k := by
    intro k hk ih
    rcases hup k hk with hshields | ⟨hparent, habove⟩
    · exact ha.sameLook_of_shield ha' hs hs' (hterms k hk) hshields
    · exact ha.sameLook_of_parent ha' hs hs' (hterms k hk) hparent fun p hp => ih p hp (habove p hp)
  -- Looks are handed down from parents to children, and so is the argument.
  induction k using ha.wellFormed.rooted.induction with
  | root k hroot =>
    refine step k hk fun p hp => ?_
    rw [hroot] at hp
    cases hp
  | child k p hp ih =>
    refine step k hk fun q hq hP => ?_
    obtain rfl := Option.mem_unique hp hq
    exact ih hP

end Arranged

end Hierarchy

end WindowForest
