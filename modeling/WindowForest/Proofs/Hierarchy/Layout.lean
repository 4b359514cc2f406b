import WindowForest.Proofs.Hierarchy.Lookup

/-!
# Laying out

Laying out containers changes their bounds and surfaces and nothing else: not the
links, not the hooks, and not what was asked of any container (`requestOf`). So
kinds and the modes in effect are the same before and after.

A container is settled when laying it out would change nothing. Laying out lists
of containers in which no container stands in front of its parent settles them
all (`settled_foldl_layOne`), because the bounds that a container takes over from
its parent are final by then.
-/

set_option autoImplicit false

namespace WindowForest

variable {η : Type}

/-- What was asked of a container, without what follows from it. -/
def Container.request (c : Container) : Container := { c with bounds := {}, surface := {} }

/-- The bounds and the surface that are computed do not depend on those from before. -/
theorem Container.resolve_resolve (c : Container) (b b' : Option Rect) (m m' : Mode) :
    (c.resolve b m).resolve b' m' = c.resolve b' m' := rfl

namespace Hierarchy

variable {h h' : Hierarchy η} {node k p top : Key}

/-- What was asked of the container with a given key. -/
def requestOf (h : Hierarchy η) (k : Key) : Option Container :=
  (h.container? k).map Container.request

/-- The record of a container as it is once the container is laid out. -/
def laid (h : Hierarchy η) (node : Key) : Option Container :=
  (h.container? node).map fun c =>
    c.resolve ((h.forest.parent node).bind h.boundsOf) ((h.modeOf node).getD .fullscreen)

/-- Laying the container out would change nothing. -/
def Settled (h : Hierarchy η) (k : Key) : Prop := h.laid k = h.container? k

/-! ## What depends on requests only -/

/-- The kind of a container is part of what was asked of it. -/
theorem kindOf_eq_map_requestOf (h : Hierarchy η) (k : Key) :
    h.kindOf k = (h.requestOf k).map Container.kind := by
  rw [requestOf, Option.map_map]
  rfl

/-- Where the same was asked of a container, it has the same kind. -/
theorem kindOf_of_requestOf (hk : h'.requestOf k = h.requestOf k) : h'.kindOf k = h.kindOf k := by
  rw [kindOf_eq_map_requestOf, kindOf_eq_map_requestOf, hk]

/-- Where the same was asked of a container, it is there in both hierarchies or in none. -/
theorem contains_of_requestOf (hk : h'.requestOf k = h.requestOf k) :
    h'.contains k = h.contains k := by
  rw [Bool.eq_iff_iff, ← isSome_kindOf, ← isSome_kindOf, kindOf_of_requestOf hk]

/-- The mode set on a container. -/
def requestedModeOf (h : Hierarchy η) (k : Key) : Option Mode :=
  (h.container? k).map Container.requestedMode

/-- The mode set on a container is part of what was asked of it. -/
theorem requestedModeOf_eq_map_requestOf (h : Hierarchy η) (k : Key) :
    h.requestedModeOf k = (h.requestOf k).map Container.requestedMode := by
  rw [requestOf, Option.map_map]
  rfl

/-- Where the same was asked of a container, the same mode is set on it. -/
theorem requestedModeOf_of_requestOf (hk : h'.requestOf k = h.requestOf k) :
    h'.requestedModeOf k = h.requestedModeOf k := by
  rw [requestedModeOf_eq_map_requestOf, requestedModeOf_eq_map_requestOf, hk]

/-- The mode in effect depends on the modes set along the chain of ancestors. -/
theorem modeOf_congr (hlive : h'.contains k = h.contains k)
    (hchain : h'.forest.ancestors k = h.forest.ancestors k)
    (hmode : ∀ a ∈ h.forest.ancestors k, h'.requestedModeOf a = h.requestedModeOf a) :
    h'.modeOf k = h.modeOf k := by
  have hmodes : (h'.forest.ancestors k).filterMap h'.requestedModeOf =
      (h.forest.ancestors k).filterMap h.requestedModeOf := by
    rw [hchain]
    exact List.filterMap_congr hmode
  show (if h'.contains k then some ((((h'.forest.ancestors k).filterMap
    h'.requestedModeOf).find? _).getD _) else none) = _
  rw [hmodes, hlive]
  rfl

/-- Hierarchies with the same links, of whose containers the same was asked, have the same modes in
effect. -/
theorem modeOf_of_requestOf (hforest : h'.forest = h.forest)
    (hrequest : ∀ k, h'.requestOf k = h.requestOf k) (k : Key) : h'.modeOf k = h.modeOf k := by
  apply modeOf_congr (contains_of_requestOf (hrequest k))
  · rw [hforest]
  · intro a _
    exact requestedModeOf_of_requestOf (hrequest a)

/-- There is no record to lay out where there is no container. -/
theorem laid_of_contains_false (hk : h.container? k = none) : h.laid k = none := by
  rw [laid, hk]
  rfl

/-- What is not there is settled. -/
theorem settled_of_missing (hk : h.container? k = none) : h.Settled k := by
  unfold Settled
  rw [laid_of_contains_false hk, hk]

/-- Being settled depends on the record of a container, the bounds of its parent and its mode. -/
theorem Settled.congr (hs : h.Settled k) (hk : h'.container? k = h.container? k)
    (hparent : h'.forest.parent k = h.forest.parent k)
    (hbounds : ∀ p, h.forest.parent k = some p → h'.boundsOf p = h.boundsOf p)
    (hmode : h'.modeOf k = h.modeOf k) : h'.Settled k := by
  have hbounds' : (h'.forest.parent k).bind h'.boundsOf =
      (h.forest.parent k).bind h.boundsOf := by
    rw [hparent]
    cases hp : h.forest.parent k with
    | none => rfl
    | some p => exact hbounds p hp
  unfold Settled laid
  rw [hk, hbounds', hmode]
  exact hs

/-! ## Laying out one container -/

/-- Laying out a container changes no links. -/
@[simp] theorem forest_layOne (h : Hierarchy η) (node : Key) :
    (h.layOne node).forest = h.forest := by
  unfold layOne
  cases h.modeOf node <;> rfl

/-- Laying out a container changes no hook. -/
@[simp] theorem hooks_layOne (h : Hierarchy η) (node : Key) :
    (h.layOne node).records.hooks = h.records.hooks := by
  unfold layOne
  cases h.modeOf node <;> rfl

/-- Laying out a container changes its own record only. -/
theorem container?_layOne (h : Hierarchy η) (node k : Key) :
    (h.layOne node).container? k = if node = k then h.laid k else h.container? k := by
  unfold layOne laid
  cases hmode : h.modeOf node with
  | none =>
    have hmissing : h.container? node = none := by
      rw [← Option.not_isSome_iff_eq_none, ← contains_iff]
      intro hlive
      simp [modeOf, hlive] at hmode
    by_cases hk : node = k
    · rw [if_pos hk, ← hk, hmissing]
      rfl
    · rw [if_neg hk]
  | some mode =>
    simp only [container?_updateContainer]
    by_cases hk : node = k
    · rw [if_pos hk, if_pos hk, ← hk, hmode]
      rfl
    · rw [if_neg hk, if_neg hk]

/-- Laying out a container changes nothing that was asked of any. -/
theorem requestOf_layOne (h : Hierarchy η) (node k : Key) :
    (h.layOne node).requestOf k = h.requestOf k := by
  unfold requestOf
  rw [container?_layOne]
  split
  · unfold laid
    rw [Option.map_map]
    rfl
  · rfl

/-- Laying out a container changes no mode. -/
theorem modeOf_layOne (h : Hierarchy η) (node k : Key) :
    (h.layOne node).modeOf k = h.modeOf k := by
  have hforest := forest_layOne h node
  have hrequest := requestOf_layOne h node
  exact modeOf_of_requestOf hforest hrequest k

/-- A container that was laid out is settled, unless it is its own parent. -/
theorem settled_layOne_self (hself : h.forest.parent node ≠ some node) :
    (h.layOne node).Settled node := by
  have hbounds : ((h.layOne node).forest.parent node).bind (h.layOne node).boundsOf =
      (h.forest.parent node).bind h.boundsOf := by
    rw [forest_layOne]
    cases hp : h.forest.parent node with
    | none => rfl
    | some p =>
      have hne : node ≠ p := fun e => hself (hp.trans (congrArg some e.symm))
      apply boundsOf_congr
      rw [container?_layOne, if_neg hne]
  unfold Settled
  rw [laid, hbounds, modeOf_layOne, container?_layOne, if_pos rfl, laid, Option.map_map]
  apply Option.map_congr
  intro c _
  exact c.resolve_resolve _ _ _ _

/-- Laying out a container leaves others settled that are not its children. -/
theorem Settled.layOne (hs : h.Settled k) (hne : node ≠ k)
    (hparent : h.forest.parent k ≠ some node) : (h.layOne node).Settled k := by
  have hkept : (h.layOne node).container? k = h.container? k := by
    rw [container?_layOne, if_neg hne]
  apply hs.congr hkept
  · rw [forest_layOne]
  · intro p hp
    have hne' : node ≠ p := fun e => hparent (e ▸ hp)
    apply boundsOf_congr
    rw [container?_layOne, if_neg hne']
  · exact modeOf_layOne h node k

/-! ## Laying out lists of containers -/

/-- Laying out containers in a row changes no links. -/
@[simp] theorem forest_foldl_layOne (l : List Key) (h : Hierarchy η) :
    (l.foldl layOne h).forest = h.forest := by
  induction l generalizing h with
  | nil => rfl
  | cons j l ih => rw [List.foldl_cons, ih, forest_layOne]

/-- Laying out containers in a row changes no hook. -/
@[simp] theorem hooks_foldl_layOne (l : List Key) (h : Hierarchy η) :
    (l.foldl layOne h).records.hooks = h.records.hooks := by
  induction l generalizing h with
  | nil => rfl
  | cons j l ih => rw [List.foldl_cons, ih, hooks_layOne]

/-- Laying out containers in a row changes nothing that was asked of any. -/
theorem requestOf_foldl_layOne (l : List Key) (h : Hierarchy η) (k : Key) :
    (l.foldl layOne h).requestOf k = h.requestOf k := by
  induction l generalizing h with
  | nil => rfl
  | cons j l ih => rw [List.foldl_cons, ih, requestOf_layOne]

/-- Containers are settled by laying out a list that has, with every container, all its children
behind it, if what is not in the list is settled already. -/
theorem settled_foldl_layOne {l : List Key} (h : Hierarchy η)
    (horder : l.Pairwise fun a b => h.forest.parent a ≠ some b)
    (hself : ∀ k, h.forest.parent k ≠ some k)
    (hclosed : ∀ c p, h.forest.parent c = some p → p ∈ l → c ∈ l)
    (hs : ∀ k, k ∉ l → h.Settled k) (k : Key) : (l.foldl layOne h).Settled k := by
  induction l generalizing h with
  | nil => exact hs k (by simp)
  | cons j l ih =>
    obtain ⟨hfirst, horder⟩ := List.pairwise_cons.1 horder
    -- Laying out `j` unsettles only its children, and they are all in the rest of the list.
    refine ih (h.layOne j) (by rwa [forest_layOne]) (by rwa [forest_layOne]) ?_ ?_
    · intro c p hp hmem
      rw [forest_layOne] at hp
      refine (List.mem_cons.1 (hclosed c p hp (List.mem_cons_of_mem j hmem))).resolve_left ?_
      rintro rfl
      exact hfirst p hmem hp
    · intro i hi
      by_cases hij : j = i
      · exact hij ▸ settled_layOne_self (hself j)
      · have hout : i ∉ j :: l := by simp [hi, Ne.symm hij]
        exact (hs i hout).layOne hij fun hp => hout (hclosed i j hp (by simp))

/-! ## Laying out a tree -/

/-- Laying out a tree changes no links. -/
@[simp] theorem forest_layOut (h : Hierarchy η) (top : Key) : (h.layOut top).forest = h.forest := by
  rw [layOut, forest_foldl_layOne]

/-- Laying out a tree changes no hook. -/
@[simp] theorem hooks_layOut (h : Hierarchy η) (top : Key) :
    (h.layOut top).records.hooks = h.records.hooks := by
  rw [layOut, hooks_foldl_layOne]

/-- Laying out a tree changes nothing that was asked of any container. -/
theorem requestOf_layOut (h : Hierarchy η) (top k : Key) :
    (h.layOut top).requestOf k = h.requestOf k := by
  rw [layOut, requestOf_foldl_layOne]

/-- Laying out a tree changes no kind. -/
@[simp] theorem kindOf_layOut (h : Hierarchy η) (top k : Key) :
    (h.layOut top).kindOf k = h.kindOf k := by
  apply kindOf_of_requestOf
  rw [requestOf_layOut]

/-- Laying out a tree settles all containers, if those that are not within it are settled. -/
theorem settled_layOut (hf : h.forest.WellFormed) (htop : top ∈ h.forest)
    (hs : ∀ k, ¬ h.forest.Within top k → h.Settled k) (k : Key) : (h.layOut top).Settled k := by
  refine settled_foldl_layOne h (hf.preorder_parents_first top)
    (fun k hk => hf.rooted.parent_ne hk rfl) ?_ ?_ k
  · intro c p hp hmem
    rw [hf.mem_preorder_iff] at hmem ⊢
    exact ⟨hmem.1, hmem.2.child hp⟩
  · intro k hk
    refine hs k fun hw => hk ?_
    rw [hf.mem_preorder_iff]
    exact ⟨htop, hw⟩

/-- Laying out a settled container changes nothing. -/
theorem layOne_of_settled (hs : h.Settled node) : h.layOne node = h := by
  unfold layOne
  cases hmode : h.modeOf node with
  | none => rfl
  | some mode =>
    have hlaid : (h.container? node).map (fun c =>
        c.resolve ((h.forest.parent node).bind h.boundsOf) mode) = h.container? node := by
      unfold Settled laid at hs
      rwa [hmode] at hs
    exact updateContainer_eq_self hlaid

/-- Laying out a hierarchy in which everything is settled changes nothing. -/
theorem layOut_of_settled (hs : ∀ k, h.Settled k) (top : Key) : h.layOut top = h := by
  unfold layOut
  induction h.forest.preorder top with
  | nil => rfl
  | cons k l ih => rw [List.foldl_cons, layOne_of_settled (hs k), ih]

end Hierarchy

end WindowForest
