import Mathlib.Data.List.Find
import WindowForest.Proofs.Hierarchy.Arrangement

/-!
# Chains of ancestors that stay the same

The mode in effect for a container, the display that it is on, and whether it is
settled, all depend on the chain of its ancestors: on the links and the records
along it. A change of the hierarchy concerns a single tree, and for containers
outside of that tree the chain is the same before and after. Each change has its
own lemma for that, and each of the three properties one lemma that draws the
conclusion.
-/

set_option autoImplicit false

namespace WindowForest.Hierarchy

variable {η : Type} {h h' : Hierarchy η} {node k p : Key}

/-- Parent and record are the same for everything on the chain of ancestors of `k`. -/
def SameChain (h h' : Hierarchy η) (k : Key) : Prop :=
  ∀ a, h.forest.Within a k →
    h'.forest.parent a = h.forest.parent a ∧ h'.container? a = h.container? a

/-! ## What depends on the chain -/

namespace Arranged

variable (ha : h.Arranged) (ha' : h'.Arranged)

include ha ha'

/-- The ancestors themselves. -/
theorem ancestors_of_chain (hchain : h.SameChain h' k) :
    h'.forest.ancestors k = h.forest.ancestors k := by
  have hself := (hchain k (Forest.within_refl _ k)).2
  have hlive : k ∈ h'.forest ↔ k ∈ h.forest := by
    rw [← ha'.live_iff, ← ha.live_iff, contains_congr hself]
  apply ha.wellFormed.rooted.ancestors_congr ha'.wellFormed.rooted hlive
  intro a hw
  exact (hchain a hw).1

omit ha' in
/-- The records along the chain. -/
theorem container?_of_chain (hchain : h.SameChain h' k) :
    ∀ a ∈ h.forest.ancestors k, h'.container? a = h.container? a := by
  intro a hmem
  exact (hchain a (ha.wellFormed.rooted.mem_ancestors_iff.1 hmem).2).2

/-- The mode in effect. -/
theorem modeOf_of_chain (hchain : h.SameChain h' k) : h'.modeOf k = h.modeOf k := by
  have hself := (hchain k (Forest.within_refl _ k)).2
  apply modeOf_congr (contains_congr hself) (ha.ancestors_of_chain ha' hchain)
  intro a hmem
  rw [requestedModeOf, requestedModeOf, ha.container?_of_chain hchain a hmem]

/-- The display that a container is on. -/
theorem displayOf_of_chain (hchain : h.SameChain h' k) : h'.displayOf k = h.displayOf k := by
  unfold displayOf
  rw [ha.ancestors_of_chain ha' hchain]
  apply List.find?_congr
  intro a hmem
  rw [isDisplay, kindOf_congr (ha.container?_of_chain hchain a hmem)]
  rfl

/-- Being settled. -/
theorem settled_of_chain (hs : h.Settled k) (hchain : h.SameChain h' k) : h'.Settled k := by
  obtain ⟨hparent, hself⟩ := hchain k (Forest.within_refl _ k)
  refine hs.congr hself hparent ?_ (ha.modeOf_of_chain ha' hchain)
  intro p hp
  exact boundsOf_congr (hchain p (Forest.within_of_parent hp)).2

end Arranged

/-! ## What keeps a chain -/

/-- A chain that does not pass through a node does not change with its parent and its record. -/
theorem sameChain_beside (hparent : ∀ a, a ≠ node → h'.forest.parent a = h.forest.parent a)
    (hsame : ∀ a, a ≠ node → h'.container? a = h.container? a)
    (hk : ¬ h.forest.Within node k) : h.SameChain h' k := by
  intro a hw
  have hne : a ≠ node := by
    rintro rfl
    exact hk hw
  exact ⟨hparent a hne, hsame a hne⟩

/-- A container that leaves its parent is on no other chain than those of what is within it. -/
theorem sameChain_uproot (hk : ¬ h.forest.Within node k) : h.SameChain (h.uproot node) k := by
  apply sameChain_beside _ _ hk
  · intro a hne
    rw [forest_uproot, Forest.parent_unlink_of_ne hne]
  · intro a _
    exact container?_uproot h node a

/-- A container that changes is on no other chain than those of what is within it. -/
theorem sameChain_updateContainer (g : Container → Container) (hk : ¬ h.forest.Within node k) :
    h.SameChain (h.updateContainer node g) k := by
  refine sameChain_beside (fun _ _ => rfl) ?_ hk
  intro a hne
  rw [container?_updateContainer, if_neg (Ne.symm hne)]

namespace Arranged

variable (ha : h.Arranged)

include ha

/-- A new container is on no chain but its own. -/
theorem sameChain_insertContainer (c : Container) (hk : h.forest.nextKey ≠ k) :
    h.SameChain (h.insertContainer c).2 k := by
  intro a hw
  have hne : h.forest.nextKey ≠ a := by
    rintro rfl
    rcases Forest.within_iff_head.1 hw with rfl | ⟨b, hb, -⟩
    · exact hk rfl
    · exact ha.wellFormed.sound.nextKey_notMem (ha.wellFormed.rooted.parent_mem hb)
  rw [forest_insertContainer, ha.wellFormed.parent_sprout, container?_insertContainer, if_neg hne]
  exact ⟨rfl, rfl⟩

/-- A container that comes to where it may go gets the parent there, and no other parent changes. -/
theorem parent_place (hfits : h.Placeable node p) (pos : Nat) (a : Key) :
    (h.place node p pos).forest.parent a = if a = node then some p else h.forest.parent a := by
  obtain ⟨kind, kind', hparent, hnode, -⟩ := hfits.fits
  rw [forest_place, Forest.parent_move (ha.mem_of_kindOf hnode) (ha.mem_of_kindOf hparent)
    (ha.not_within_of_placeable hfits)]

/-- What lies below a container moves along with it. -/
theorem within_place (hfits : h.Placeable node p) (pos : Nat) :
    (h.place node p pos).forest.Within node k ↔ h.forest.Within node k := by
  apply Forest.within_relinked_iff
  intro c hc
  rw [ha.parent_place hfits, if_neg hc]

/-- A container that moves is on no other chain than those of what is within it. -/
theorem sameChain_place (hfits : h.Placeable node p) (pos : Nat)
    (hk : ¬ h.forest.Within node k) : h.SameChain (h.place node p pos) k := by
  apply sameChain_beside _ _ hk
  · intro a hne
    rw [ha.parent_place hfits, if_neg hne]
  · intro a _
    exact container?_place h node p pos a

/-- Under the parent that a container has already, only the order of siblings can change. -/
theorem sameChain_place_again (hp : h.forest.parent node = some p) (pos : Nat) (k : Key) :
    h.SameChain (h.place node p pos) k := by
  intro a _
  have hbelow := ha.wellFormed.rooted.not_within_parent hp
  have hplive := ha.wellFormed.rooted.parent_mem hp
  refine ⟨?_, container?_place h node p pos a⟩
  rw [forest_place, Forest.parent_move (Forest.mem_of_parent hp) hplive hbelow]
  by_cases hk : a = node
  · rw [if_pos hk, hk, hp]
  · rw [if_neg hk]

/-- With a container that stays, everything above it stays. -/
theorem sameChain_prune (hk : ¬ h.forest.Within node k) : h.SameChain (h.prune node) k := by
  intro a hw
  have hout : ¬ h.forest.Within node a := fun hw' => hk (hw'.trans hw)
  rw [forest_prune, ha.wellFormed.parent_prune hout]
  exact ⟨rfl, container?_prune_of_not_within ha.wellFormed hout⟩

end Arranged

end WindowForest.Hierarchy
