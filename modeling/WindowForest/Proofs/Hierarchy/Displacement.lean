import WindowForest.Proofs.Forest.Chronicle
import WindowForest.Proofs.Forest.Shifting
import WindowForest.Proofs.Hierarchy.Looks
import WindowForest.Proofs.Hierarchy.Pending
import WindowForest.Proofs.Hierarchy.Reparenting

/-!
# Where a container goes, and what stays

Four commands displace a container: it is attached, detached, moved to another parent or
moved among its siblings. All of them shift one node in the forest, ask nothing of any
container apart from ending the wait of one that is moved to another parent, and leave
the hooks alone (`Effect.displaced`). So the whole effect of such a command follows from
the laws of shifts and from what the looks of containers depend on
(`Reachable.displacement`): the container is where it was to go, the order of all others
is the same, and only what is below the container can look different.
-/

set_option autoImplicit false

namespace WindowForest

variable {η : Type}

/-- The container that a command attaches, detaches or moves. -/
def Command.displaced? : Command η → Option Key
  | attach node _ _ | detach node | reparent node _ _ _ | position node _ => some node
  | _ => none

/-- A command that displaces a container is about it. -/
theorem Command.node?_of_displaced {c : Command η} {k : Key} (hc : c.displaced? = some k) :
    c.node? = some k := by
  cases c <;> first | exact hc | cases hc

/-- Such a command asks nothing of the container, though it may end its wait. -/
theorem Command.terms_revise {c : Command η} {k : Key} (hc : c.displaced? = some k) (a : Answer)
    (r : Container) : (c.revise a r).terms = r.terms := by
  cases c <;> first | rfl | cases hc

/-- A command that displaces a container leaves it waiting as before, unless it brings it to another
parent. -/
theorem Command.pending_revise_of_displaced {c : Command η} {k : Key}
    (hc : c.displaced? = some k) (hstays : ¬ c.Reparents k) (a : Answer) (r : Container) :
    (c.revise a r).pending = r.pending := by
  rcases c.pending_revise a r with heq | ⟨node, rfl, -⟩ | ⟨node, ⟨target, pos, activate, rfl⟩, -⟩
  · exact heq
  · cases hc
  · obtain rfl : node = k := Option.some.inj hc
    exact absurd ⟨target, pos, activate, rfl⟩ hstays

namespace Hierarchy

variable {h h' : Hierarchy η} {node p k : Key} {c : Command η} {a : Answer} {pos : Nat}

/-- The place that a command takes a container to. -/
def destination (h : Hierarchy η) : Command η → Option (Key × Nat)
  | .attach _ parent pos => some (parent, pos)
  | .reparent _ target pos _ => some (target, pos)
  | .position node pos => (h.forest.parent node).map fun p => (p, pos)
  | _ => none

/-- A container has come to stand under `p`, at the position `pos` among the other children that
`p` had before, or behind all of them. -/
def ComesTo (h h' : Hierarchy η) (node p : Key) (pos : Nat) : Prop :=
  h'.forest.parent node = some p ∧
    h'.forest.indexInParent node = some (min pos (h.forest.others p node).length)

/-- What a command that displaces a container does, in the forest and to the records. -/
structure Displaced (h : Hierarchy η) (c : Command η) (node : Key) (h' : Hierarchy η) :
    Prop where
  place : h.forest.Admits node (h.destination c)
  forest : h'.forest = h.forest.shift node (h.destination c)
  hooks : h'.records.hooks = h.records.hooks
  terms : ∀ k, h'.termsOf k = h.termsOf k
  pending : ∀ k, (k = node → ¬ c.Reparents node) → h'.isPending k = h.isPending k

/-! ## The four commands -/

/-- A container that leaves its parent changes no hook. -/
theorem hooks_uproot (h : Hierarchy η) (node : Key) :
    (h.uproot node).records.hooks = h.records.hooks := by
  obtain ⟨focus, hobserver⟩ := h.tree.observer_uproot node
  unfold records uproot
  rw [hobserver]

/-- A container that comes to another parent changes no hook. -/
theorem hooks_relocated (h : Hierarchy η) (node target : Key) (pos : Nat) (activate : Bool) :
    (h.relocated node target pos activate).records.hooks = h.records.hooks := by
  rw [← hooks_place h node target pos]
  cases activate <;> rfl

/-- Where a container may be put by its kind, the forest admits it. -/
theorem Arranged.admits_of_placeable (ha : h.Arranged) (hfits : h.Placeable node p) (pos : Nat) :
    h.forest.Admits node (some (p, pos)) := by
  obtain ⟨a, b, hparent, hnode, -⟩ := hfits.fits
  rw [Forest.admits_some_iff]
  exact ⟨ha.mem_of_kindOf hnode, ha.mem_of_kindOf hparent, ha.not_within_of_placeable hfits⟩

/-- A displaced container is shifted to its destination, and no hook is touched. -/
theorem Effect.shifted [Hook η] (heffect : h.Effect c a h') (ha : h.Arranged)
    (hc : c.displaced? = some node) :
    h.forest.Admits node (h.destination c) ∧
      h'.forest = h.forest.shift node (h.destination c) ∧
      h'.records.hooks = h.records.hooks := by
  -- There are five cases, since to detach a root is an effect of its own; `hc` excludes the others.
  cases heffect with
  | created hnone _ =>
    rw [Command.node?_of_displaced hc] at hnone
    cases hnone
  | attached pos _ hfits =>
    obtain rfl := Option.some.inj hc
    refine ⟨ha.admits_of_placeable hfits pos, ?_, ?_⟩
    · exact (forest_layOut _ _).trans (forest_place h _ _ pos)
    · rw [hooks_layOut, hooks_place]
  | loose hroot =>
    obtain rfl := Option.some.inj hc
    exact ⟨Forest.admits_none _ _, (Forest.unlink_of_root hroot).symm, rfl⟩
  | detached _ _ =>
    obtain rfl := Option.some.inj hc
    refine ⟨Forest.admits_none _ _, ?_, ?_⟩
    · exact (forest_layOut _ _).trans (forest_uproot h _)
    · rw [hooks_layOut, hooks_uproot]
  | reparented pos activate _ hfits =>
    obtain rfl := Option.some.inj hc
    refine ⟨ha.admits_of_placeable hfits pos, ?_, ?_⟩
    · exact (forest_layOut _ _).trans (forest_relocated h _ _ pos activate)
    · rw [hooks_layOut, hooks_relocated]
  | @positioned node p pos hp =>
    obtain rfl := Option.some.inj hc
    have hdestination : h.destination (.position node pos) = some (p, pos) := by
      rw [destination, hp]
      rfl
    rw [hdestination]
    exact ⟨ha.wellFormed.admits_parent hp pos, forest_place h node p pos, hooks_place h node p pos⟩
  | hooked _ _ => cases hc
  | deferred _ => cases hc
  | removed _ => cases hc
  | removedNow => cases hc
  | bounded _ _ => cases hc
  | overridden _ _ => cases hc
  | moded _ _ => cases hc

/-- What is asked of the containers after one of them was displaced. -/
theorem Effect.requestOf_displaced [Hook η] (heffect : h.Effect c a h') (ha : h.Arranged)
    (ha' : h'.Arranged) (hc : c.displaced? = some node) (k : Key) :
    h'.requestOf k =
      if c.node? = some k then (h.requestOf k).map (c.revise a) else h.requestOf k := by
  obtain ⟨-, hforest, -⟩ := heffect.shifted ha hc
  by_cases hk : k ∈ h.forest
  · have hk' : k ∈ h'.forest := by rwa [hforest, Forest.mem_shift]
    exact ha.requestOf_effect heffect ((ha.live_iff k).2 hk) ((ha'.live_iff k).2 hk')
  · have hk' : k ∉ h'.forest := by rwa [hforest, Forest.mem_shift]
    rw [requestOf, requestOf, ha.container?_of_notMem hk, ha'.container?_of_notMem hk']
    exact (ite_self _).symm

/-- Containers of which nothing is asked but by commands that displace them are asked for the same
as before. -/
theorem termsOf_of_revised
    (hrequest : h'.requestOf k =
      if c.node? = some k then (h.requestOf k).map (c.revise a) else h.requestOf k)
    (hc : c.node? = some k → c.displaced? = some node) : h'.termsOf k = h.termsOf k := by
  rw [termsOf_eq_map_requestOf, termsOf_eq_map_requestOf, hrequest]
  split
  · next hk =>
    rw [Option.map_map]
    apply Option.map_congr
    intro r _
    exact c.terms_revise (hc hk) a r
  · rfl

/-- Whether a container waits to be removed is part of what was asked of it. -/
theorem isPending_eq_any_requestOf (h : Hierarchy η) (k : Key) :
    h.isPending k = (h.requestOf k).any Container.pending := by
  rw [requestOf, Option.any_map]
  rfl

/-- A command that displaces a container does what such commands do. -/
theorem Effect.displaced [Hook η] (heffect : h.Effect c a h') (ha : h.Arranged)
    (ha' : h'.Arranged) (hc : c.displaced? = some node) : h.Displaced c node h' := by
  obtain ⟨hplace, hforest, hhooks⟩ := heffect.shifted ha hc
  have hrequest := heffect.requestOf_displaced ha ha' hc
  have hnode := Command.node?_of_displaced hc
  refine ⟨hplace, hforest, hhooks, fun k => termsOf_of_revised (hrequest k) fun _ => hc, ?_⟩
  intro k hstays
  rw [isPending_eq_any_requestOf, isPending_eq_any_requestOf, hrequest, hnode]
  split
  · next hk =>
    obtain rfl := Option.some.inj hk
    have hpending : (fun r => (c.revise a r).pending) = Container.pending := by
      funext r
      exact c.pending_revise_of_displaced hc (hstays rfl) a r
    rw [Option.any_map, hpending]
  · rfl

/-- A command that displaces a container and is carried out does what such commands do. -/
theorem InOrder.displaced [Hook η] (ho : h.InOrder) (hc : c.displaced? = some node)
    (hok : (h.apply c).result = .ok a) : h.Displaced c node (h.apply c).hierarchy := by
  have heffect := effect_apply hok
  exact heffect.displaced ho.arranged (ho.apply c).arranged hc

/-! ## Looks after a shift -/

namespace Displaced

variable (hd : h.Displaced c node h') (ha : h.Arranged) (ha' : h'.Arranged)
  (hs : ∀ k, h.Settled k) (hs' : ∀ k, h'.Settled k)

include hd

/-- The displaced container gets the parent of its destination, and no other parent changes. -/
theorem parent (k : Key) :
    h'.forest.parent k =
      if k = node then (h.destination c).map Prod.fst else h.forest.parent k := by
  rw [hd.forest, Forest.parent_shift hd.place]

/-- All but the displaced container keep their parents. -/
theorem parent_of_ne (hk : k ≠ node) : h'.forest.parent k = h.forest.parent k := by
  rw [hd.parent, if_neg hk]

include ha in
/-- The displaced container comes to its destination. -/
theorem comesTo (hto : h.destination c = some (p, pos)) : h.ComesTo h' node p pos := by
  have hplace := hd.place
  have hforest := hd.forest
  rw [hto] at hplace hforest
  refine ⟨?_, ?_⟩
  · rw [hd.parent, if_pos rfl, hto]
    rfl
  · rw [hforest, ha.wellFormed.index_shift hplace]

include ha ha' in
/-- A command that displaces a container makes none and removes none. -/
theorem contains (k : Key) : h'.contains k = h.contains k := by
  rw [Bool.eq_iff_iff, ha'.live_iff, hd.forest, Forest.mem_shift, ha.live_iff]

include ha ha' hs hs'

/-- Whatever is not below the container looks as before. -/
theorem sameLook_beside (hk : ¬ h.forest.Within node k) : SameLook h h' k := by
  -- What is beside the container has its parents beside the container as well.
  refine ha.sameLook_of_terms ha' hs hs' (P := fun k => ¬ h.forest.Within node k)
    (fun k _ => hd.terms k) ?_ hk
  intro j hj
  have hne : j ≠ node := by
    rintro rfl
    exact hj (Forest.within_refl _ j)
  exact .inr ⟨hd.parent_of_ne hne, fun p hp hw => hj (hw.child hp)⟩

/-- If the container stays with its parent, all containers look as before. -/
theorem sameLook_of_parent (hparent : h'.forest.parent node = h.forest.parent node) (k : Key) :
    SameLook h h' k := by
  refine ha.sameLook_of_terms ha' hs hs' (P := fun _ => True) (fun k _ => hd.terms k) ?_ trivial
  intro j _
  refine .inr ⟨?_, fun _ _ => trivial⟩
  by_cases hj : j = node
  · rw [hj, hparent]
  · exact hd.parent_of_ne hj

end Displaced

/-! ## Repeated commands -/

/-- Nobody takes note of a node that is moved among its siblings. -/
theorem besides_place_again (hp : h.forest.parent node = some p) (pos : Nat) :
    (h.place node p pos).besides = h.besides := by
  have hobserver : (h.tree.place node p pos).observer = h.tree.observer :=
    Tree.observer_place_again hp pos
  unfold besides records place
  rw [hobserver]

/-- A container that is there and has a parent is moved among its siblings. -/
theorem apply_position [Hook η] (hlive : h.contains node) (hp : h.forest.parent node = some p)
    (pos : Nat) : h.apply (.position node pos) = (h.place node p pos).finish .done := by
  have hcheck : h.checkPosition node = .ok () :=
    checkPosition_eq_ok_iff.2 ⟨hlive, by rw [hp]; exact nofun⟩
  show (h.position node pos).map _ = _
  unfold position
  rw [hcheck, hp]
  rfl

/-- A root is detached without any effect. -/
theorem apply_detach_of_root [Hook η] (hlive : h.contains node)
    (hroot : h.forest.parent node = none) : h.apply (.detach node) = h.finish .done := by
  have hcheck : h.checkDetach node = .ok () := checkDetach_eq_ok_iff.2 ⟨hlive, .inl hroot⟩
  show (h.detach node).map _ = _
  unfold detach
  rw [hcheck, hroot]
  rfl

/-- A container that is moved among its siblings twice to the same position is there after the
first time. -/
theorem Arranged.place_place (ha : h.Arranged) (hp : h.forest.parent node = some p) (pos : Nat) :
    (h.place node p pos).place node p pos = h.place node p pos := by
  have hplace := ha.wellFormed.admits_parent hp pos
  have hforest : (h.place node p pos).forest = h.forest.shift node (some (p, pos)) :=
    forest_place h node p pos
  have hp' : (h.place node p pos).forest.parent node = some p := by
    rw [hforest, Forest.parent_shift hplace, if_pos rfl]
    rfl
  apply eq_of_parts
  · calc ((h.place node p pos).place node p pos).forest
        = (h.place node p pos).forest.shift node (some (p, pos)) := forest_place _ node p pos
      _ = (h.forest.shift node (some (p, pos))).shift node (some (p, pos)) := by rw [hforest]
      _ = (h.place node p pos).forest :=
          (ha.wellFormed.shift_shift hplace hplace).trans hforest.symm
  · exact container?_place _ node p pos
  · exact besides_place_again hp' pos

namespace InOrder

variable [Hook η] (ho : h.InOrder)

include ho

/-- Only a container with a parent is moved among its siblings, and it stays with that parent. -/
theorem destination_of_position (hok : (h.apply (.position node pos)).result = .ok a) :
    ∃ p, h.forest.parent node = some p ∧
      h.destination (.position node pos : Command η) = some (p, pos) := by
  have hright := (ho.judged_apply _).ruling.exists_ok_iff.1 ⟨a, hok⟩
  obtain ⟨p, hp⟩ := Option.ne_none_iff_exists'.1 fun hroot => hright.1 (.inr hroot)
  refine ⟨p, hp, ?_⟩
  rw [destination, hp]
  rfl

/-- A container that was detached is detached once more without any effect. -/
theorem detach_again (hok : (h.apply (.detach node)).result = .ok a) :
    (h.apply (.detach node)).hierarchy.apply (.detach node) =
      (h.apply (.detach node)).hierarchy.finish .done := by
  have hd := ho.displaced (c := .detach node) rfl hok
  apply apply_detach_of_root
  · rw [hd.contains ho.arranged (ho.apply _).arranged]
    exact ho.contains_of_ok rfl hok
  · rw [hd.parent, if_pos rfl]
    rfl

/-- A container that was moved among its siblings is moved to the same position without any effect.
-/
theorem position_again (hok : (h.apply (.position node pos)).result = .ok a) :
    (h.apply (.position node pos)).hierarchy.apply (.position node pos) =
      (h.apply (.position node pos)).hierarchy.finish .done := by
  have hd := ho.displaced (c := .position node pos) rfl hok
  have hlive := ho.contains_of_ok (c := .position node pos) rfl hok
  obtain ⟨p, hp, hto⟩ := ho.destination_of_position hok
  have hlive' : (h.apply (.position node pos)).hierarchy.contains node := by
    rwa [hd.contains ho.arranged (ho.apply _).arranged]
  have hsame : (h.apply (.position node pos)).hierarchy = h.place node p pos := by
    rw [apply_position hlive hp]
    rfl
  rw [apply_position hlive' (hd.comesTo ho.arranged hto).1, hsame, ho.arranged.place_place hp]

end InOrder

/-! ## The whole effect -/

/-- What becomes of a hierarchy when a command displaces a container. -/
structure Displacement [Hook η] (h : Hierarchy η) (c : Command η) (node : Key)
    (h' : Hierarchy η) : Prop where
  attach : ∀ p pos, c = .attach node p pos → h.ComesTo h' node p pos
  reparent : ∀ p pos activate, c = .reparent node p pos activate → h.ComesTo h' node p pos
  /-- Among its siblings, a container moves under the parent that it has. -/
  position : ∀ pos, c = .position node pos →
    ∃ p, h.forest.parent node = some p ∧ h.ComesTo h' node p pos
  detach : c = .detach node → h'.forest.parent node = none
  /-- All others keep their order, under the old parent, the new one, and anywhere else. -/
  order : ∀ p, h'.forest.others p node = h.forest.others p node
  parent : ∀ k, k ≠ node → h'.forest.parent k = h.forest.parent k
  children : ∀ p, h.forest.parent node ≠ some p → h'.forest.parent node ≠ some p →
    h'.forest.children p = h.forest.children p
  contains : ∀ k, h'.contains k = h.contains k
  /-- What is below the container stays below it, each child at its place. -/
  below : ∀ k, h.forest.Within node k →
    h'.forest.Within node k ∧ h'.forest.children k = h.forest.children k ∧
      h'.forest.preorder k = h.forest.preorder k
  /-- Kinds, requests and overriding rectangles stay the same. -/
  terms : ∀ k, h'.termsOf k = h.termsOf k
  hooks : h'.records.hooks = h.records.hooks
  /-- No container starts to wait for removal or stops waiting, except for one that comes to
  another parent. -/
  pending : ∀ k, (k = node → ¬ c.Reparents node) → h'.isPending k = h.isPending k
  cleared : c.Reparents node → ¬ h'.isPending node
  /-- Whatever is not below the container looks as before. -/
  beside : ∀ k, ¬ h.forest.Within node k → SameLook h h' k
  /-- Nothing looks different when a container moves among its siblings. -/
  same : ∀ pos, c = .position node pos → ∀ k, SameLook h h' k
  /-- To detach a container or to move it among its siblings once more changes nothing. -/
  again : (c = .detach node ∨ ∃ pos, c = .position node pos) → h'.apply c = h'.finish .done

/-- A command that is carried out and displaces a container has no further effect than that. -/
theorem Displaced.displacement_of_ok [Hook η] (hd : h.Displaced c node (h.apply c).hierarchy)
    (ho : h.InOrder) (hs : ∀ k, h.Settled k) (hs' : ∀ k, (h.apply c).hierarchy.Settled k)
    (hok : (h.apply c).result = .ok a) : h.Displacement c node (h.apply c).hierarchy := by
  have ha := ho.arranged
  have ha' := (ho.apply c).arranged
  constructor
  case attach =>
    rintro p pos rfl
    exact hd.comesTo ha rfl
  case reparent =>
    rintro p pos activate rfl
    exact hd.comesTo ha rfl
  case position =>
    rintro pos rfl
    obtain ⟨p, hp, hto⟩ := ho.destination_of_position hok
    exact ⟨p, hp, hd.comesTo ha hto⟩
  case detach =>
    rintro rfl
    rw [hd.parent, if_pos rfl]
    rfl
  case order =>
    intro p
    rw [hd.forest, ha.wellFormed.others_shift hd.place]
  case parent => exact fun k hk => hd.parent_of_ne hk
  case children =>
    intro p hold hnew
    rw [hd.forest] at hnew ⊢
    exact ha.wellFormed.children_shift_of_ne hd.place hold hnew
  case contains => exact hd.contains ha ha'
  case below =>
    intro k hk
    rw [hd.forest]
    exact ⟨(Forest.within_shift_iff hd.place).2 hk,
      ha.wellFormed.children_shift_of_within hd.place hk, ha.wellFormed.preorder_shift hd.place hk⟩
  case terms => exact hd.terms
  case hooks => exact hd.hooks
  case pending => exact hd.pending
  case cleared =>
    rintro ⟨target, pos, activate, rfl⟩
    exact ho.not_isPending_of_reparent hok
  case beside => exact fun k hk => hd.sameLook_beside ha ha' hs hs' hk
  case same =>
    rintro pos rfl k
    obtain ⟨p, hp, hto⟩ := ho.destination_of_position hok
    apply hd.sameLook_of_parent ha ha' hs hs'
    rw [(hd.comesTo ha hto).1, hp]
  case again =>
    rintro (rfl | ⟨pos, rfl⟩)
    · exact ho.detach_again hok
    · exact ho.position_again hok

/-- In every reachable hierarchy, a command that displaces a container takes it to where it was to
go, and changes nothing else than what follows from that. -/
theorem Reachable.displacement [Hook η] {settings : Settings} (hr : Reachable settings h)
    (hc : c.displaced? = some node) (hok : (h.apply c).result = .ok a) :
    h.Displacement c node (h.apply c).hierarchy := by
  have hd := hr.inOrder.displaced hc hok
  exact hd.displacement_of_ok hr.inOrder hr.settled (hr.step c).settled hok

/-- A task that waits for removal comes between two others, from a stack that is in freeform to one
that is not. -/
theorem displacement_furnished :
    ∃ h : Hierarchy Voter, Reachable {} h ∧
      h.forest.children ⟨5, 1⟩ = [⟨6, 1⟩, ⟨7, 1⟩] ∧ h.isPending ⟨4, 1⟩ ∧
      h.modeOf ⟨4, 1⟩ = some .freeform ∧
      (h.apply (.reparent ⟨4, 1⟩ ⟨5, 1⟩ 1 true)).result = .ok .done ∧
      h.Displacement (.reparent ⟨4, 1⟩ ⟨5, 1⟩ 1 true) ⟨4, 1⟩
        (h.apply (.reparent ⟨4, 1⟩ ⟨5, 1⟩ 1 true)).hierarchy ∧
      (h.apply (.reparent ⟨4, 1⟩ ⟨5, 1⟩ 1 true)).hierarchy.forest.children ⟨5, 1⟩ =
        [⟨6, 1⟩, ⟨4, 1⟩, ⟨7, 1⟩] ∧
      (h.apply (.reparent ⟨4, 1⟩ ⟨5, 1⟩ 1 true)).hierarchy.modeOf ⟨4, 1⟩ = some .fullscreen := by
  have hr := reachable_furnished.run
    [.createStack, .attach ⟨5, 1⟩ ⟨1, 1⟩ 0, .createTask ⟨8⟩ ⟨0⟩, .attach ⟨6, 1⟩ ⟨5, 1⟩ 0,
      .createTask ⟨9⟩ ⟨0⟩, .attach ⟨7, 1⟩ ⟨5, 1⟩ 1, .remove ⟨4, 1⟩]
  exact ⟨_, hr, by decide +kernel, by decide +kernel, by decide +kernel, by decide +kernel,
    hr.displacement rfl (a := .done) (by decide +kernel), by decide +kernel, by decide +kernel⟩

end Hierarchy

end WindowForest
