import WindowForest.Proofs.Hierarchy.Transition

/-!
# Arrangement

A hierarchy is arranged when its forest is well formed, its records are about the
nodes of that forest, and every container holds only containers that its kind may
hold. The kinds are kept apart from the links, so both sides have to be followed
through every change. What is said of displays then follows: a display has no
parent, so the display of a container can only be the root of its tree.
-/

set_option autoImplicit false

namespace WindowForest.Hierarchy

variable {η : Type} {h h' : Hierarchy η} {node k p r : Key}

/-- Links and records of the containers fit together. -/
structure Arranged (h : Hierarchy η) : Prop where
  wellFormed : h.forest.WellFormed
  live_iff : ∀ k, h.contains k ↔ k ∈ h.forest
  fits : ∀ k p, h.forest.parent k = some p →
    ∃ a b, h.kindOf p = some a ∧ h.kindOf k = some b ∧ a.canContain b

/-! ## Arrangement is kept -/

/-- The hierarchy without containers is arranged. -/
theorem arranged_empty (settings : Settings) : (empty settings : Hierarchy η).Arranged where
  wellFormed := Forest.wellFormed_empty
  live_iff k := by
    have hdead : k ∉ (empty settings : Hierarchy η).forest := Store.notMem_empty k
    have hnone : (empty settings : Hierarchy η).container? k = none :=
      Std.ExtTreeMap.getElem?_empty
    simp [contains_iff, hnone, hdead]
  fits k p hp := absurd (Forest.mem_of_parent hp) (Store.notMem_empty k)

namespace Arranged

/-- A hierarchy with the same links and kinds is arranged as well. -/
theorem congr (ha : h.Arranged) (hforest : h'.forest = h.forest)
    (hkind : ∀ k, h'.kindOf k = h.kindOf k) : h'.Arranged where
  wellFormed := hforest ▸ ha.wellFormed
  live_iff k := by rw [← isSome_kindOf, hkind, isSome_kindOf, ha.live_iff, hforest]
  fits k p hp := by
    rw [hkind, hkind]
    exact ha.fits k p (hforest ▸ hp)

variable (ha : h.Arranged)

include ha

/-- What is live has a kind. -/
theorem exists_kind (hk : k ∈ h.forest) : ∃ a, h.kindOf k = some a := by
  have hlive := (ha.live_iff k).2 hk
  rw [← isSome_kindOf] at hlive
  exact Option.isSome_iff_exists.1 hlive

/-- What has a kind is live. -/
theorem mem_of_kindOf {a : Kind} (hk : h.kindOf k = some a) : k ∈ h.forest := by
  rw [← ha.live_iff, ← isSome_kindOf, hk]
  rfl

/-- There is no record of what is not live. -/
theorem container?_of_notMem (hk : k ∉ h.forest) : h.container? k = none := by
  rw [← ha.live_iff, contains_iff] at hk
  simpa using hk

/-- A hierarchy stays arranged with one more container. -/
theorem insertContainer (c : Container) : (h.insertContainer c).2.Arranged := by
  have hnew := ha.wellFormed.sound.nextKey_notMem
  have hold : ∀ k, k ∈ h.forest → (h.insertContainer c).2.kindOf k = h.kindOf k := by
    intro k hk
    have hne : h.forest.nextKey ≠ k := fun e => hnew (e ▸ hk)
    exact kindOf_congr (by rw [container?_insertContainer, if_neg hne])
  refine ⟨ha.wellFormed.sprout, ?_, ?_⟩
  · intro k
    rw [forest_insertContainer, Forest.mem_sprout, contains_iff, container?_insertContainer]
    by_cases hk : h.forest.nextKey = k
    · simp [hk]
    · simp [hk, Ne.symm hk, ← contains_iff, ha.live_iff]
  · intro k p hp
    rw [forest_insertContainer, ha.wellFormed.parent_sprout] at hp
    rw [hold k (Forest.mem_of_parent hp), hold p (ha.wellFormed.rooted.parent_mem hp)]
    exact ha.fits k p hp

/-- A container stays clear of its own tree when it is put under a parent. -/
theorem not_within_of_placeable (hp : h.Placeable node p) : ¬ h.forest.Within node p := by
  obtain ⟨a, b, hkind, -⟩ := hp.fits
  have hlive := ha.mem_of_kindOf hkind
  intro hw
  exact hp.apart (ha.wellFormed.rooted.isAncestor_iff.2 ⟨hlive, hw⟩)

/-- A hierarchy stays arranged when a container comes under a parent that holds its kind and is not
below it. -/
theorem place (hbelow : ¬ h.forest.Within node p)
    (hfits : ∃ a b, h.kindOf p = some a ∧ h.kindOf node = some b ∧ a.canContain b) (pos : Nat) :
    (h.place node p pos).Arranged := by
  have hkind := kindOf_place h node p pos
  obtain ⟨a, b, hparent, hnode, hab⟩ := hfits
  have hmem := ha.mem_of_kindOf hnode
  have hlive := ha.mem_of_kindOf hparent
  refine ⟨?_, ?_, ?_⟩
  · rw [forest_place]
    exact ha.wellFormed.move (fun _ => hbelow) pos
  · intro k
    rw [← isSome_kindOf, hkind, isSome_kindOf, ha.live_iff, forest_place, Forest.mem_move]
  · intro k q hq
    rw [forest_place, Forest.parent_move hmem hlive hbelow] at hq
    rw [hkind, hkind]
    by_cases hk : k = node
    · rw [if_pos hk, Option.some.injEq] at hq
      rw [hk, ← hq]
      exact ⟨a, b, hparent, hnode, hab⟩
    · rw [if_neg hk] at hq
      exact ha.fits k q hq

/-- A hierarchy stays arranged when a container comes to where it may go. -/
theorem place_of_placeable (hfits : h.Placeable node p) (pos : Nat) :
    (h.place node p pos).Arranged := by
  have hbelow := ha.not_within_of_placeable hfits
  exact ha.place hbelow hfits.fits pos

/-- Under the parent that it has, a container may stand anywhere. -/
theorem place_again (hp : h.forest.parent node = some p) (pos : Nat) :
    (h.place node p pos).Arranged := by
  have hbelow := ha.wellFormed.rooted.not_within_parent hp
  exact ha.place hbelow (ha.fits node p hp) pos

/-- A hierarchy stays arranged when a container leaves its parent. -/
theorem uproot (node : Key) : (h.uproot node).Arranged := by
  have hkind := kindOf_uproot h node
  refine ⟨?_, ?_, ?_⟩
  · rw [forest_uproot]
    exact ha.wellFormed.unlink node
  · intro k
    rw [← isSome_kindOf, hkind, isSome_kindOf, ha.live_iff, forest_uproot, Forest.mem_unlink]
  · intro k q hq
    rw [forest_uproot, Forest.parent_unlink] at hq
    rw [hkind, hkind]
    by_cases hk : k = node
    · rw [if_pos hk] at hq
      cases hq
    · rw [if_neg hk] at hq
      exact ha.fits k q hq

/-- The records of what is left are those from before. -/
theorem container?_prune_of_mem (hk : k ∈ (h.prune node).forest) :
    (h.prune node).container? k = h.container? k := by
  rw [forest_prune, ha.wellFormed.mem_prune_iff] at hk
  exact container?_prune_of_not_within ha.wellFormed hk.2

/-- A hierarchy stays arranged when a container is removed with all below it. -/
theorem prune (node : Key) : (h.prune node).Arranged := by
  have hf := ha.wellFormed
  refine ⟨?_, ?_, ?_⟩
  · rw [forest_prune]
    exact hf.prune node
  · intro k
    rw [forest_prune, hf.mem_prune_iff, ← ha.live_iff, contains_iff, contains_iff]
    by_cases hw : h.forest.Within node k
    · by_cases hnode : node ∈ h.forest
      · simp [container?_prune_of_within hf hnode hw, hw]
      · have hdead : k ∉ h.forest := fun hk => hnode (hf.rooted.top_mem hk hw)
        have hout : k ∉ (h.forest.unlink node).preorder node := fun hmem =>
          hnode (hf.mem_pruned_iff.1 hmem).1
        rw [container?_prune, if_neg hout, ha.container?_of_notMem hdead]
        simp
    · simp [container?_prune_of_not_within hf hw, hw]
  · intro k q hq
    have hp : (h.forest.prune node).WellFormed := hf.prune node
    rw [forest_prune] at hq
    have hk := Forest.mem_of_parent hq
    have hqmem := hp.rooted.parent_mem hq
    have hparent := (hf.parent_prune_le hq).1
    have hne : k ≠ node := fun e => (hf.mem_prune_iff.1 hk).2 (e ▸ Forest.within_refl _ _)
    rw [Forest.parent_unlink_of_ne hne] at hparent
    rw [← forest_prune] at hk hqmem
    rw [kindOf_congr (ha.container?_prune_of_mem hk),
      kindOf_congr (ha.container?_prune_of_mem hqmem)]
    exact ha.fits k q hparent

omit ha in
/-- A hierarchy stays arranged when containers are removed one after the other. -/
theorem removeEach (ha : h.Arranged) (l : List Key) : (h.removeEach l).1.Arranged := by
  induction l generalizing h with
  | nil => exact ha
  | cons k l ih => exact ih (ha.prune k)

/-- What an adjustment leaves as it is suffices for being arranged. -/
theorem adjusted (hadj : h.Adjusted h') : h'.Arranged := ha.congr hadj.forest hadj.kindOf

/-- A hierarchy stays arranged when a container is changed but keeps its kind. -/
theorem updateContainer (node : Key) {g : Container → Container}
    (hg : ∀ c, (g c).kind = c.kind) : (h.updateContainer node g).Arranged := by
  have hkind := kindOf_updateContainer (h := h) hg node
  exact ha.congr rfl hkind

/-- A hierarchy stays arranged when a tree is laid out. -/
theorem layOut (top : Key) : (h.layOut top).Arranged := by
  apply ha.congr
  · exact forest_layOut h top
  · exact kindOf_layOut h top

/-- Every transition leads from arranged hierarchies to arranged hierarchies. -/
theorem transition {moved : Option Key} {calls : List Call} (ht : h.Transition moved h' calls) :
    h'.Arranged := by
  cases ht with
  | adjusted hadj _ => exact ha.adjusted hadj
  | created kind hadj => exact (ha.insertContainer _).adjusted hadj
  | displayed c hadj => exact ((ha.insertContainer c).adjusted hadj).layOut _
  | placed pos hfits _ hadj => exact ((ha.place_of_placeable hfits pos).adjusted hadj).layOut _
  | ordered pos hp => exact ha.place_again hp pos
  | uprooted hp => exact (ha.uproot _).layOut _
  | asked g _ hg => exact (ha.updateContainer _ hg).layOut _
  | removed l hadj _ => exact (ha.adjusted hadj).removeEach l

end Arranged

/-- Every hierarchy that can come about is arranged. -/
theorem Reachable.arranged [Hook η] {settings : Settings} (hr : Reachable settings h) :
    h.Arranged := by
  induction hr with
  | empty => exact arranged_empty settings
  | step c _ ih => exact ih.transition (transition_apply _ c)

/-- What more commands lead to can come about as well. -/
theorem Reachable.run [Hook η] {settings : Settings} (hr : Reachable settings h)
    (commands : List (Command η)) : Reachable settings (h.run commands) := by
  induction commands generalizing h with
  | nil => exact hr
  | cons c commands ih => exact ih (hr.step c)

/-- A hierarchy with two displays, `1` and `2`. On the first one is the freeform stack `3`, and in
it the task `4`, which has a hook. -/
def furnished : Hierarchy Voter :=
  (empty {}).run
    [.createDisplay ⟨0⟩ ⟨0, 0, 100, 50⟩, .createDisplay ⟨1⟩ ⟨0, 0, 80, 60⟩, .createStack,
      .createTask ⟨7⟩ ⟨0⟩, .setHook ⟨4, 1⟩ (.times 1), .attach ⟨4, 1⟩ ⟨3, 1⟩ 0,
      .setMode ⟨3, 1⟩ .freeform, .setBounds ⟨3, 1⟩ ⟨10, 20, 60, 40⟩, .attach ⟨3, 1⟩ ⟨1, 1⟩ 0]

/-- The furnished hierarchy can come about. -/
theorem reachable_furnished : Reachable {} furnished := Reachable.empty.run _

end WindowForest.Hierarchy
