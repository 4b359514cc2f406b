import WindowForest.Proofs.Forest.Preorder

/-!
# Postorder

The stackless walk in postorder visits, one after the other, what the same walk
visits from each child of a node, and then the node itself (`postorder_eq`). So
it lists the same nodes as the preorder (`postorder_perm_preorder`), but none of
them in front of one of its children (`postorder_children_first`).

The walk starts at the leftmost leaf, which is as far down as first children
lead. When it has finished with a node, it goes down from the next sibling in the
same way, or up to the parent if there is none.
-/

set_option autoImplicit false

namespace WindowForest.Forest

variable {f : Forest} {k p top x : Key}

namespace WellFormed

variable (h : f.WellFormed)

include h

/-! ## Leftmost leaves -/

/-- From a live node, first children lead through live nodes to an end. -/
theorem exists_leftmost_path (hk : k ∈ f) :
    ∃ l, Trail f.first (some k) l none ∧ ∀ x ∈ l, x ∈ f := by
  induction k using h.rooted.descend with
  | node k ih =>
    cases hfirst : f.first k with
    | none => exact ⟨[k], ⟨rfl, hfirst⟩, by simpa using hk⟩
    | some c =>
      have hchild : c ∈ f.children k := by
        rw [h.threads.first_eq] at hfirst
        exact List.mem_of_head? hfirst
      have hp := h.mem_children_iff.1 hchild
      obtain ⟨l, hl, hlive⟩ := ih c hp (mem_of_parent hp)
      exact ⟨k :: l, ⟨rfl, hfirst.symm ▸ hl⟩, by simpa using ⟨hk, hlive⟩⟩

/-- The way along first children ends at the leftmost leaf. -/
theorem getLast?_leftmost_path (hk : k ∈ f) {l : List Key} (hl : Trail f.first (some k) l none) :
    l.getLast? = some (f.leftmostLeaf k) := by
  obtain ⟨m, hm, hlive⟩ := h.exists_leftmost_path hk
  obtain rfl := hl.eq_of_end hm
  unfold leftmostLeaf
  -- A path through different nodes is not longer than there are nodes, so it is not cut short.
  rw [hl.follow_eq (Store.length_le_size hl.nodup hlive)]
  cases l with
  | nil => cases hl
  | cons j l => simp [List.getLast?_cons]

/-- A node without children is its own leftmost leaf. -/
theorem leftmostLeaf_of_childless (hk : k ∈ f) (hfirst : f.first k = none) :
    f.leftmostLeaf k = k := by
  have hlast := h.getLast?_leftmost_path hk (l := [k]) ⟨rfl, hfirst⟩
  exact (Option.some.inj hlast).symm

/-- The leftmost leaf below a node is that below its first child. -/
theorem leftmostLeaf_of_first {c : Key} (hfirst : f.first k = some c) (hk : k ∈ f) (hc : c ∈ f) :
    f.leftmostLeaf k = f.leftmostLeaf c := by
  obtain ⟨l, hl, -⟩ := h.exists_leftmost_path hc
  have hlast := h.getLast?_leftmost_path hk (l := k :: l) ⟨rfl, hfirst.symm ▸ hl⟩
  have hlast' := h.getLast?_leftmost_path hc hl
  rw [List.getLast?_cons, hlast', Option.getD_some] at hlast
  exact (Option.some.inj hlast).symm

/-- The leftmost leaf below a live node is live. -/
theorem leftmostLeaf_mem (hk : k ∈ f) : f.leftmostLeaf k ∈ f := by
  obtain ⟨l, hl, hlive⟩ := h.exists_leftmost_path hk
  exact hlive _ (List.mem_of_getLast? (h.getLast?_leftmost_path hk hl))

/-- Where the walk starts with a node: down from the first child, or else at the node itself. -/
theorem leftmostLeaf_eq (hk : k ∈ f) :
    some (f.leftmostLeaf k) = ((f.children k).head?.map f.leftmostLeaf).or (some k) := by
  rw [← h.threads.first_eq]
  cases hfirst : f.first k with
  | none => exact congrArg some (h.leftmostLeaf_of_childless hk hfirst)
  | some c =>
    have hc : c ∈ f := by
      rw [h.threads.first_eq] at hfirst
      exact h.threads.mem_of_mem (List.mem_of_head? hfirst)
    exact congrArg some (h.leftmostLeaf_of_first hfirst hk hc)

/-! ## The walk -/

omit h in
/-- The walk below a node ends with that node. -/
theorem postorderNext_top : f.postorderNext k k = none := by
  simp [postorderNext]

/-- Where the walk goes from a child. -/
theorem postorderNext_child (hk : k ≠ top) (hp : f.parent k = some p) {a b : List Key}
    (hcut : f.children p = a ++ k :: b) :
    f.postorderNext top k = (b.head?.map f.leftmostLeaf).or (some p) := by
  rw [postorderNext, if_neg hk, (h.threads.siblings hcut).2, hp]
  cases b.head? <;> rfl

/-- Leaves first, the walk arrives at live nodes only. -/
theorem postorderNext_mem (hk : f.postorderNext top k = some x) : x ∈ f := by
  unfold postorderNext at hk
  split at hk
  · cases hk
  · cases hnext : f.next k with
    | none =>
      rw [hnext] at hk
      exact h.rooted.parent_mem hk
    | some sibling =>
      rw [hnext] at hk
      exact Option.some.inj hk ▸ h.leftmostLeaf_mem (h.next_mem hnext)

/-- The walk along some of the children of `p`, up to the last one, goes through what it visits
from each of them and then arrives at `p`. -/
theorem trail_postorder_siblings (htop : f.Within top p)
    (ih : ∀ k, f.parent k = some p → ∀ top, f.Within top k →
      Trail (f.postorderNext top) (some (f.leftmostLeaf k)) (f.postorder k)
        (f.postorderNext top k))
    {a b : List Key} (hcut : f.children p = a ++ b) :
    Trail (f.postorderNext top) ((b.head?.map f.leftmostLeaf).or (some p))
      (b.flatMap f.postorder) (some p) := by
  induction b generalizing a with
  | nil => exact rfl
  | cons k b ihb =>
    have hk : f.parent k = some p := h.mem_children_iff.1 (by simp [hcut])
    have hne : k ≠ top := by
      rintro rfl
      exact h.rooted.not_within_parent hk htop
    have hfirst := ih k hk top (htop.child hk)
    rw [h.postorderNext_child hne hk hcut] at hfirst
    exact hfirst.append (ihb (a := a ++ [k]) (by simpa using hcut))

/-- The walk visits what it visits from each child of `k`, and then `k`. -/
theorem trail_postorder_node (hk : k ∈ f) (htop : f.Within top k)
    (ih : ∀ j, f.parent j = some k → ∀ top, f.Within top j →
      Trail (f.postorderNext top) (some (f.leftmostLeaf j)) (f.postorder j)
        (f.postorderNext top j)) :
    Trail (f.postorderNext top) (some (f.leftmostLeaf k))
      ((f.children k).flatMap f.postorder ++ [k]) (f.postorderNext top k) := by
  rw [h.leftmostLeaf_eq hk]
  exact (h.trail_postorder_siblings htop ih (a := []) rfl).append ⟨rfl, rfl⟩

/-- A trail from the leftmost leaf below `k` to the end of the walk is what the walk lists. -/
theorem postorder_of_trail {l : List Key} (hk : k ∈ f)
    (hl : Trail (f.postorderNext k) (some (f.leftmostLeaf k)) l none) : f.postorder k = l := by
  have hlive : ∀ x ∈ l, x ∈ f :=
    hl.forall_mem (fun x hx => Option.some.inj hx ▸ h.leftmostLeaf_mem hk)
      fun _ _ hx => h.postorderNext_mem hx
  rw [postorder, only, if_pos hk]
  exact hl.follow_eq (Store.length_le_size hl.nodup hlive)

/-- Where the walk goes from the leftmost leaf below a node, whatever its top is. -/
theorem trail_postorder (hk : k ∈ f) : ∀ top, f.Within top k →
    Trail (f.postorderNext top) (some (f.leftmostLeaf k)) (f.postorder k)
      (f.postorderNext top k) := by
  induction k using h.rooted.descend with
  | node k ih =>
    intro top htop
    have ih' := fun j hj => ih j hj (mem_of_parent hj)
    -- With `k` as its top, the walk ends after `k`. This tells what the postorder is.
    have hself := h.trail_postorder_node hk (within_refl f k) ih'
    rw [postorderNext_top] at hself
    rw [h.postorder_of_trail hk hself]
    exact h.trail_postorder_node hk htop ih'

/-- The postorder of a tree is the postorders of the trees below its top, and then the top. -/
theorem postorder_eq (hk : k ∈ f) :
    f.postorder k = (f.children k).flatMap f.postorder ++ [k] := by
  have hself := h.trail_postorder_node hk (within_refl f k) fun j hj top htop =>
    h.trail_postorder (mem_of_parent hj) top htop
  rw [postorderNext_top] at hself
  exact h.postorder_of_trail hk hself

omit h in
/-- The postorder below a key that names no node is empty. -/
theorem postorder_of_notMem (hk : k ∉ f) : f.postorder k = [] := by
  simp [postorder, only, hk]

/-- The postorder of a tree lists no node twice. -/
theorem nodup_postorder (k : Key) : (f.postorder k).Nodup := by
  by_cases hk : k ∈ f
  · have htrail := h.trail_postorder hk k (within_refl f k)
    rw [postorderNext_top] at htrail
    exact htrail.nodup
  · rw [postorder_of_notMem hk]
    exact List.nodup_nil

/-- Postorder and preorder list the same nodes. -/
theorem postorder_perm_preorder (k : Key) : (f.postorder k).Perm (f.preorder k) := by
  by_cases hk : k ∈ f
  swap
  · rw [postorder_of_notMem hk, preorder_of_notMem hk]
  induction k using h.rooted.descend with
  | node k ih =>
    rw [h.postorder_eq hk, h.preorder_eq hk]
    refine List.perm_append_singleton _ _ |>.trans (List.Perm.cons k ?_)
    exact List.Perm.flatMap_left _ fun j hj =>
      ih j (h.mem_children_iff.1 hj) (h.threads.mem_of_mem hj)

/-- The postorder of a tree lists what is within it. -/
theorem mem_postorder_iff : x ∈ f.postorder k ↔ k ∈ f ∧ f.Within k x := by
  rw [(h.postorder_perm_preorder k).mem_iff, h.mem_preorder_iff]

/-- No node stands in front of one of its children in a postorder. -/
theorem postorder_children_first (k : Key) :
    (f.postorder k).Pairwise fun a b => f.parent b ≠ some a := by
  by_cases hk : k ∈ f
  swap
  · rw [postorder_of_notMem hk]
    exact List.Pairwise.nil
  induction k using h.rooted.descend with
  | node k ih =>
    rw [h.postorder_eq hk, List.pairwise_append, List.pairwise_flatMap]
    refine ⟨⟨?_, ?_⟩, List.pairwise_singleton _ _, ?_⟩
    · intro j hj
      exact ih j (h.mem_children_iff.1 hj) (h.threads.mem_of_mem hj)
    · refine (h.nodup_children k).pairwise_of_forall_ne fun i hi j hj hij a ha b hb hab => hij ?_
      have hia := (h.mem_postorder_iff.1 ha).2
      have hjb := (h.mem_postorder_iff.1 hb).2
      exact h.rooted.eq_of_common (h.mem_children_iff.1 hi) (h.mem_children_iff.1 hj)
        (hia.child hab) hjb
    · intro a ha b hb hab
      obtain ⟨j, hj, ha⟩ := List.mem_flatMap.1 ha
      rw [List.mem_singleton.1 hb] at hab
      have hbelow := (within_of_parent (h.mem_children_iff.1 hj)).trans (h.mem_postorder_iff.1 ha).2
      exact h.rooted.not_within_parent hab hbelow

end WellFormed

end WindowForest.Forest
