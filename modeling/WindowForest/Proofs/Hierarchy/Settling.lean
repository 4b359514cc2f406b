import WindowForest.Proofs.Hierarchy.Chains

/-!
# Everything stays settled

Bounds and surfaces are recorded, and what they follow from may be anywhere on the
chain of ancestors. So the invariant that keeps them right is that every container
is settled. A transition may unsettle the containers whose chains it changes, and
these all lie within a single tree, which it lays out anew.
-/

set_option autoImplicit false

namespace WindowForest.Hierarchy

variable {η : Type} {h h' : Hierarchy η} {node k p : Key}

namespace Arranged

variable (ha : h.Arranged)

include ha

/-- A new container leaves all others settled. -/
theorem settled_insertContainer (hs : ∀ k, h.Settled k) (c : Container)
    (hk : h.forest.nextKey ≠ k) : (h.insertContainer c).2.Settled k := by
  have hchain := ha.sameChain_insertContainer c hk
  exact ha.settled_of_chain (ha.insertContainer c) (hs k) hchain

/-- A new container of which nothing is asked is settled as it stands. -/
theorem settled_insertContainer_blank (hs : ∀ k, h.Settled k) (kind : Kind) (k : Key) :
    (h.insertContainer { kind }).2.Settled k := by
  by_cases hk : h.forest.nextKey = k
  · subst hk
    have hroot : (h.insertContainer { kind }).2.forest.parent h.forest.nextKey = none := by
      rw [forest_insertContainer, ha.wellFormed.parent_sprout]
      exact Forest.parent_of_notMem ha.wellFormed.sound.nextKey_notMem
    unfold Settled laid
    rw [hroot, container?_insertContainer, if_pos rfl]
    rfl
  · exact ha.settled_insertContainer hs _ hk

/-- A removal leaves everything settled. -/
theorem settled_prune (hs : ∀ k, h.Settled k) (node k : Key) : (h.prune node).Settled k := by
  by_cases hk : h.forest.Within node k
  · have hdead : k ∉ (h.prune node).forest := by
      rw [forest_prune, ha.wellFormed.mem_prune_iff]
      exact fun hmem => hmem.2 hk
    exact settled_of_missing ((ha.prune node).container?_of_notMem hdead)
  · exact ha.settled_of_chain (ha.prune node) (hs k) (ha.sameChain_prune hk)

omit ha in
/-- Removing containers one after the other leaves everything settled. -/
theorem settled_removeEach (ha : h.Arranged) (hs : ∀ k, h.Settled k) (l : List Key) (k : Key) :
    (h.removeEach l).1.Settled k := by
  induction l generalizing h with
  | nil => exact hs k
  | cons j l ih => exact ih (ha.prune j) (ha.settled_prune hs j)

/-! ## Every transition settles what it unsettles -/

/-- Every transition lays out what it unsettles. -/
theorem settled_transition (hs : ∀ k, h.Settled k) {moved : Option Key} {calls : List Call}
    (ht : h.Transition moved h' calls) (k : Key) : h'.Settled k := by
  cases ht with
  | adjusted hadj _ => exact hadj.settled (hs k)
  | created kind hadj => exact hadj.settled (ha.settled_insertContainer_blank hs kind k)
  | @displayed m c hadj =>
    have hm := (ha.insertContainer c).adjusted hadj
    have hnew : h.forest.nextKey ∈ m.forest := by
      rw [hadj.forest, forest_insertContainer, Forest.mem_sprout]
      exact .inl rfl
    refine settled_layOut hm.wellFormed hnew ?_ k
    intro k hk
    refine hadj.settled (ha.settled_insertContainer hs c ?_)
    rintro rfl
    exact hk (Forest.within_refl _ _)
  | @placed m node parent pos hfits _ hadj =>
    have hplaced := ha.place_of_placeable hfits pos
    have hmem : node ∈ m.forest := by
      obtain ⟨a, b, -, hnode, -⟩ := hfits.fits
      rw [hadj.forest, forest_place, Forest.mem_move]
      exact ha.mem_of_kindOf hnode
    refine settled_layOut (hplaced.adjusted hadj).wellFormed hmem ?_ k
    intro k hk
    rw [hadj.forest, ha.within_place hfits] at hk
    exact hadj.settled (ha.settled_of_chain hplaced (hs k) (ha.sameChain_place hfits pos hk))
  | ordered pos hp =>
    exact ha.settled_of_chain (ha.place_again hp pos) (hs k) (ha.sameChain_place_again hp pos k)
  | @uprooted node parent hp =>
    have hforest := forest_uproot h node
    refine settled_layOut (ha.uproot node).wellFormed ?_ ?_ k
    · rw [hforest, Forest.mem_unlink]
      exact Forest.mem_of_parent hp
    · intro k hk
      rw [hforest, Forest.within_unlink_iff] at hk
      exact ha.settled_of_chain (ha.uproot node) (hs k) (sameChain_uproot hk)
  | @asked node g hnode hg =>
    have hasked := ha.updateContainer node hg
    refine settled_layOut hasked.wellFormed ((ha.live_iff node).1 hnode) ?_ k
    intro k hk
    exact ha.settled_of_chain hasked (hs k) (sameChain_updateContainer g hk)
  | removed l hadj _ =>
    exact (ha.adjusted hadj).settled_removeEach (fun k => hadj.settled (hs k)) l k

end Arranged

/-- In the hierarchy without containers everything is settled. -/
theorem settled_empty (settings : Settings) (k : Key) :
    (empty settings : Hierarchy η).Settled k := by
  apply settled_of_missing
  exact Std.ExtTreeMap.getElem?_empty

/-- In every hierarchy that can come about, everything is settled. -/
theorem Reachable.settled [Hook η] {settings : Settings} (hr : Reachable settings h) (k : Key) :
    h.Settled k := by
  induction hr generalizing k with
  | empty => exact settled_empty settings k
  | step c hr ih => exact hr.arranged.settled_transition ih (transition_apply _ c) k

end WindowForest.Hierarchy
