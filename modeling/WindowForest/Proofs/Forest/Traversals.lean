import Mathlib.Order.Defs.Unbundled
import WindowForest.Proofs.Forest.Postorder
import WindowForest.Proofs.Forest.Run

/-!
# Traversals

A traversal that is given by recursion says where a node stands among what the
traversals of its children list: in front of it all in the preorder, behind it
all in the postorder. In a well-formed forest such a recursion has one solution
only (`recursion_unique`), and the stackless walks are the solutions of theirs.

The main statement (`Tree.Run.traversals`) holds after any run and for every
key: each walk comes to an end by itself and not because of its bound, it lists
the nodes that the top is an ancestor of, each once and no other, and for a dead
key it lists nothing. The ancestors of a node are the chain from it to its root,
and being an ancestor is a partial order on the live nodes.
-/

set_option autoImplicit false

namespace WindowForest

namespace Forest

variable {f : Forest} {k top : Key}

/-- The recursion that puts a node among what the traversals of its children list. -/
def Recursion (f : Forest) (arrange : Key → List Key → List Key) (walk : Key → List Key) : Prop :=
  ∀ k ∈ f, walk k = arrange k ((f.children k).flatMap walk)

/-- What a walk over the tree below a top owes to the recursion that it stands for. -/
structure Recursive (f : Forest) (arrange : Key → List Key → List Key)
    (walk : Key → List Key) : Prop where
  /-- The walk solves the recursion. -/
  solves : f.Recursion arrange walk
  /-- Whatever else solves the recursion lists the same below every live node. -/
  unique : ∀ other, f.Recursion arrange other → ∀ top ∈ f, other top = walk top
  /-- Below a dead key there is nothing. -/
  dead : ∀ top, top ∉ f → walk top = []
  /-- No node is listed twice. -/
  once : ∀ top, (walk top).Nodup
  /-- A node is listed exactly when the top is the node itself or one of its ancestors. -/
  mem_iff : ∀ top k, k ∈ walk top ↔ f.isAncestor top k

/-- What the walks over a forest list. -/
structure Traversals (f : Forest) : Prop where
  /-- The walk in preorder goes through what it lists and ends there. -/
  preorder_ends : ∀ top, Trail (f.preorderNext top) (f.only top) (f.preorder top) none
  /-- The walk in postorder goes through what it lists and ends there. -/
  postorder_ends : ∀ top,
    Trail (f.postorderNext top) ((f.only top).map f.leftmostLeaf) (f.postorder top) none
  /-- First the top, then what its children list. -/
  preorder : f.Recursive (fun top below => top :: below) f.preorder
  /-- First what the children of the top list, then the top. -/
  postorder : f.Recursive (fun top below => below ++ [top]) f.postorder
  /-- The way down to the leftmost leaf goes from first child to first child and ends there. -/
  leftmost : ∀ k ∈ f, ∃ path, Trail f.first (some k) path none ∧
    path.getLast? = some (f.leftmostLeaf k)
  /-- The ancestors of a node are what the parents lead to from it on. -/
  ancestors_end : ∀ k, Trail f.parent (f.only k) (f.ancestors k) none
  /-- The last of them is the root of its tree. -/
  ancestors_root : ∀ k ∈ f, ∃ root, (f.ancestors k).getLast? = some root ∧ f.IsRootOf root k
  /-- None of them is listed twice. -/
  ancestors_once : ∀ k, (f.ancestors k).Nodup
  /-- Being an ancestor is reflexive, transitive and antisymmetric among live nodes. -/
  order : IsPartialOrder {k // k ∈ f} fun a b => f.isAncestor a b

namespace WellFormed

variable (h : f.WellFormed)

include h

/-- The walk in preorder ends by itself behind all within its top. -/
theorem preorder_ends (top : Key) :
    Trail (f.preorderNext top) (f.only top) (f.preorder top) none := by
  unfold only
  split
  · next htop =>
    have htrail := h.trail_preorder htop top (within_refl f top)
    rwa [h.climb_top htop] at htrail
  · next htop => exact (preorder_of_notMem htop).symm ▸ rfl

/-- The walk in postorder ends by itself with its top. -/
theorem postorder_ends (top : Key) :
    Trail (f.postorderNext top) ((f.only top).map f.leftmostLeaf) (f.postorder top) none := by
  unfold only
  split
  · next htop =>
    have htrail := h.trail_postorder htop top (within_refl f top)
    rwa [postorderNext_top] at htrail
  · next htop => exact (postorder_of_notMem htop).symm ▸ rfl

/-- Two solutions of one recursion agree on a node when they agree on its children. -/
theorem recursion_unique {arrange : Key → List Key → List Key} {walk other : Key → List Key}
    (hwalk : f.Recursion arrange walk) (hother : f.Recursion arrange other) (htop : top ∈ f) :
    other top = walk top := by
  induction top using h.rooted.descend with
  | node top ih =>
    have hbelow : ∀ c ∈ f.children top, other c = walk c := by
      intro c hc
      exact ih c (h.mem_children_iff.1 hc) (h.threads.mem_of_mem hc)
    rw [hother top htop, hwalk top htop, List.flatMap_congr hbelow]

/-- A walk that lists what is within its top owes nothing more to a recursion that it solves. -/
theorem recursive_of_solves {arrange : Key → List Key → List Key} {walk : Key → List Key}
    (hsolves : f.Recursion arrange walk) (honce : ∀ top, (walk top).Nodup)
    (hmem : ∀ top k, k ∈ walk top ↔ top ∈ f ∧ f.Within top k) : f.Recursive arrange walk where
  solves := hsolves
  unique _ hother _ htop := h.recursion_unique hsolves hother htop
  dead top htop := by
    rw [List.eq_nil_iff_forall_not_mem]
    exact fun k hk => htop ((hmem top k).1 hk).1
  once := honce
  mem_iff top k := by
    -- Above a live node everything is live, and so is everything below one.
    rw [hmem, h.rooted.isAncestor_iff]
    exact ⟨fun ⟨htop, hw⟩ => ⟨hw.mem htop, hw⟩, fun ⟨hk, hw⟩ => ⟨h.rooted.top_mem hk hw, hw⟩⟩

/-- The walk in preorder is the recursion that puts a node in front of what its children list. -/
theorem recursive_preorder : f.Recursive (fun top below => top :: below) f.preorder := by
  apply h.recursive_of_solves _ h.nodup_preorder
  · intro top k
    exact h.mem_preorder_iff
  · intro k hk
    exact h.preorder_eq hk

/-- The walk in postorder is the recursion that puts a node behind what its children list. -/
theorem recursive_postorder : f.Recursive (fun top below => below ++ [top]) f.postorder := by
  apply h.recursive_of_solves _ h.nodup_postorder
  · intro top k
    exact h.mem_postorder_iff
  · intro k hk
    exact h.postorder_eq hk

/-- The last ancestor of a node is the root of its tree. -/
theorem ancestors_root (hk : k ∈ f) :
    ∃ root, (f.ancestors k).getLast? = some root ∧ f.IsRootOf root k := by
  have htrail := h.rooted.trail_ancestors k
  have hself : k ∈ f.ancestors k := h.rooted.mem_ancestors_iff.2 ⟨hk, within_refl f k⟩
  obtain ⟨root, hlast⟩ := Option.ne_none_iff_exists'.1 fun hnone =>
    List.ne_nil_of_mem hself (List.getLast?_eq_none_iff.1 hnone)
  have habove := (h.rooted.mem_ancestors_iff.1 (List.mem_of_getLast? hlast)).2
  exact ⟨root, hlast, h.rooted.top_mem hk habove, htrail.step_getLast? hlast, habove⟩

/-- Nodes that are ancestors of each other are the same, because no node is above itself. -/
theorem isPartialOrder : IsPartialOrder {k // k ∈ f} fun a b => f.isAncestor a b where
  refl a := h.rooted.isAncestor_iff.2 ⟨a.2, within_refl f a⟩
  trans a b c hab hbc := by
    have hb := (h.rooted.isAncestor_iff.1 hab).2
    obtain ⟨hc, hw⟩ := h.rooted.isAncestor_iff.1 hbc
    exact h.rooted.isAncestor_iff.2 ⟨hc, hb.trans hw⟩
  antisymm a b hab hba :=
    Subtype.ext (h.rooted.within_antisymm (h.rooted.isAncestor_iff.1 hab).2
      (h.rooted.isAncestor_iff.1 hba).2)

end WellFormed

/-- In a well-formed forest the walks list what their recursions say. -/
theorem traversals_of_wellFormed (h : f.WellFormed) : f.Traversals where
  preorder_ends := h.preorder_ends
  postorder_ends := h.postorder_ends
  preorder := h.recursive_preorder
  postorder := h.recursive_postorder
  leftmost k hk := by
    obtain ⟨path, hpath, -⟩ := h.exists_leftmost_path hk
    exact ⟨path, hpath, h.getLast?_leftmost_path hk hpath⟩
  ancestors_end := h.rooted.trail_ancestors
  ancestors_root _ := h.ancestors_root
  ancestors_once := h.rooted.nodup_ancestors
  order := h.isPartialOrder

end Forest

namespace Tree

/-- After any run from the empty forest, the walks over it are the recursive traversals, end by
themselves and stay below their top, and the ancestors of a node lead from it to its root. -/
theorem Run.traversals {σ : Type} [Observer σ] {observer : σ} {edits : List Edit} {t : Tree σ}
    (run : Run { observer } edits t) : t.forest.Traversals :=
  Forest.traversals_of_wellFormed (run.wellFormed Forest.wellFormed_empty)

/-- Three nodes stand in a row under a root and a fourth under the one in the middle, whose walks
list neither its neighbours nor the root. -/
theorem traversals_middle :
    ∃ t : Tree Unit,
      Run { observer := () }
        [.create ⟨1, 1⟩, .create ⟨2, 1⟩, .create ⟨3, 1⟩, .create ⟨4, 1⟩, .create ⟨5, 1⟩,
          .place ⟨5, 1⟩ ⟨3, 1⟩ 0, .place ⟨2, 1⟩ ⟨1, 1⟩ 0, .place ⟨3, 1⟩ ⟨1, 1⟩ 1,
          .place ⟨4, 1⟩ ⟨1, 1⟩ 2] t ∧
      t.forest.Traversals ∧
      t.forest.preorder ⟨1, 1⟩ = [⟨1, 1⟩, ⟨2, 1⟩, ⟨3, 1⟩, ⟨5, 1⟩, ⟨4, 1⟩] ∧
      t.forest.preorder ⟨3, 1⟩ = [⟨3, 1⟩, ⟨5, 1⟩] ∧
      t.forest.postorder ⟨1, 1⟩ = [⟨2, 1⟩, ⟨5, 1⟩, ⟨3, 1⟩, ⟨4, 1⟩, ⟨1, 1⟩] ∧
      t.forest.postorder ⟨3, 1⟩ = [⟨5, 1⟩, ⟨3, 1⟩] ∧
      t.forest.ancestors ⟨5, 1⟩ = [⟨5, 1⟩, ⟨3, 1⟩, ⟨1, 1⟩] := by
  have first : Run ({ observer := () } : Tree Unit) [] { observer := () } := .start
  have run := first
    |>.step (.create _) |>.step (.create _) |>.step (.create _) |>.step (.create _)
    |>.step (.create _)
    |>.step (.place_root _ ⟨5, 1⟩ ⟨3, 1⟩ 0 (by decide) (by decide))
    |>.step (.place_root _ ⟨2, 1⟩ ⟨1, 1⟩ 0 (by decide) (by decide))
    |>.step (.place_root _ ⟨3, 1⟩ ⟨1, 1⟩ 1 (by decide) (by decide))
    |>.step (.place_root _ ⟨4, 1⟩ ⟨1, 1⟩ 2 (by decide) (by decide))
  exact ⟨_, run, run.traversals, by decide, by decide, by decide, by decide, by decide⟩

end Tree

end WindowForest
