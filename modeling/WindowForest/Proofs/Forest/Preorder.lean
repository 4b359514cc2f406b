import WindowForest.Proofs.Forest.Threads

/-!
# Preorder

The stackless walk in preorder visits a node and then, one after the other, what
the same walk visits from each of its children (`preorder_eq`). So it lists a
node and all below it (`mem_preorder_iff`), each of them once, and none of them
in front of its parent (`preorder_parents_first`).

The key to the recursion is where the walk goes when it has finished with a
node: to the next sibling of the node or of the closest node above it that has
one, but never out of the tree below the top (`climb`).
-/

set_option autoImplicit false

namespace WindowForest.Forest

variable {f : Forest} {k p top x : Key}

/-- Where the walk below `top` goes when it has visited all within `k`. -/
def climb (f : Forest) (top k : Key) : Option Key :=
  ((f.ancestors k).takeWhile (· ≠ top)).findSome? f.next

/-- The walk goes to the first child, or else climbs. -/
theorem preorderNext_eq : f.preorderNext top k = (f.first k).or (f.climb top k) := rfl

/-- What is within a tree is its top, or within the tree of one of the children. -/
theorem within_iff_head : f.Within top x ↔ x = top ∨ ∃ k, f.parent k = some top ∧ f.Within k x := by
  rw [Within, Relation.ReflTransGen.cases_head_iff, eq_comm]
  rfl

/-- Nodes below two different children of a node are different. -/
theorem Rooted.siblings_apart (h : f.Rooted) {a b : Key} (ha : f.parent a = some p)
    (hb : f.parent b = some p) (hab : f.Within a b) : a = b := by
  rcases within_iff.1 hab with h' | ⟨q, hq, haq⟩
  · exact h'.symm
  · obtain rfl : p = q := Option.mem_unique hb hq
    exact absurd haq (h.not_within_parent ha)

/-- Two children of one node that are above the same node are the same child. -/
theorem Rooted.eq_of_common (h : f.Rooted) {a b : Key} (ha : f.parent a = some p)
    (hb : f.parent b = some p) (hax : f.Within a x) (hbx : f.Within b x) : a = b := by
  rcases within_total hax hbx with hab | hba
  · exact h.siblings_apart ha hb hab
  · exact (h.siblings_apart hb ha hba).symm

namespace WellFormed

variable (h : f.WellFormed)

include h

/-- The walk below a node goes nowhere once it has visited all within that node. -/
theorem climb_top (hk : k ∈ f) : f.climb k k = none := by
  unfold climb
  cases hp : f.parent k with
  | none => rw [h.rooted.ancestors_of_root hk hp]; simp
  | some p => rw [h.rooted.ancestors_of_parent hp]; simp

/-- From a child the walk goes to the next sibling, or else where it goes from the parent. -/
theorem climb_child (hk : k ≠ top) (hp : f.parent k = some p) :
    f.climb top k = (f.next k).or (f.climb top p) := by
  unfold climb
  rw [h.rooted.ancestors_of_parent hp, List.takeWhile_cons_of_pos (by simpa using hk),
    List.findSome?_cons]
  cases f.next k <;> rfl

/-- What stands behind a node is live. -/
theorem next_mem (hk : f.next k = some x) : x ∈ f := by
  cases hp : f.parent k with
  | none =>
    rw [(h.threads.alone hp).2] at hk
    cases hk
  | some p =>
    obtain ⟨a, b, hcut, -⟩ := h.exists_cut hp
    rw [(h.threads.siblings hcut).2] at hk
    exact h.threads.mem_of_mem (p := p) (by simp [hcut, List.mem_of_head? hk])

/-- The walk arrives at live nodes only. -/
theorem preorderNext_mem (hk : f.preorderNext top k = some x) : x ∈ f := by
  rw [preorderNext_eq, Option.or_eq_some_iff] at hk
  rcases hk with hk | ⟨-, hk⟩
  · rw [h.threads.first_eq] at hk
    exact h.threads.mem_of_mem (List.mem_of_head? hk)
  · obtain ⟨a, -, ha⟩ := List.exists_of_findSome?_eq_some hk
    exact h.next_mem ha

/-- The walk along some of the children of `p`, up to the last one, goes through what it visits
from each of them and then leaves `p`. -/
theorem trail_siblings (htop : f.Within top p)
    (ih : ∀ k, f.parent k = some p → ∀ top, f.Within top k →
      Trail (f.preorderNext top) (some k) (f.preorder k) (f.climb top k))
    {a b : List Key} (hcut : f.children p = a ++ b) :
    Trail (f.preorderNext top) (b.head?.or (f.climb top p)) (b.flatMap f.preorder)
      (f.climb top p) := by
  induction b generalizing a with
  | nil => exact rfl
  | cons k b ihb =>
    have hk : f.parent k = some p := h.mem_children_iff.1 (by simp [hcut])
    have hne : k ≠ top := by
      rintro rfl
      exact h.rooted.not_within_parent hk htop
    have hfirst := ih k hk top (htop.child hk)
    rw [h.climb_child hne hk, (h.threads.siblings hcut).2] at hfirst
    exact hfirst.append (ihb (a := a ++ [k]) (by simpa using hcut))

/-- From `k` the walk visits `k` and what it visits from each child, and then leaves `k`. -/
theorem trail_node (htop : f.Within top k)
    (ih : ∀ j, f.parent j = some k → ∀ top, f.Within top j →
      Trail (f.preorderNext top) (some j) (f.preorder j) (f.climb top j)) :
    Trail (f.preorderNext top) (some k) (k :: (f.children k).flatMap f.preorder)
      (f.climb top k) := by
  refine ⟨rfl, ?_⟩
  rw [preorderNext_eq, h.threads.first_eq]
  exact h.trail_siblings htop ih (a := []) rfl

/-- A trail of the walk over the whole tree below `k` is what the walk lists. -/
theorem preorder_of_trail {l : List Key} (hk : k ∈ f)
    (hl : Trail (f.preorderNext k) (some k) l none) : f.preorder k = l := by
  have hlive : ∀ x ∈ l, x ∈ f :=
    hl.forall_mem (fun x hx => Option.some.inj hx ▸ hk) fun _ _ hx => h.preorderNext_mem hx
  rw [preorder, only, if_pos hk]
  exact hl.follow_eq (Store.length_le_size hl.nodup hlive)

/-- Where the walk goes from a node below its top, whatever that top is. -/
theorem trail_preorder (hk : k ∈ f) : ∀ top, f.Within top k →
    Trail (f.preorderNext top) (some k) (f.preorder k) (f.climb top k) := by
  induction k using h.rooted.descend with
  | node k ih =>
    intro top htop
    have ih' := fun j hj => ih j hj (mem_of_parent hj)
    -- With `k` itself as the top, the walk ends behind its children, so they are the preorder.
    have hself := h.trail_node (within_refl f k) ih'
    rw [h.climb_top hk] at hself
    rw [h.preorder_of_trail hk hself]
    exact h.trail_node htop ih'

/-- The preorder of a tree is its top, followed by the preorders of the trees below it. -/
theorem preorder_eq (hk : k ∈ f) : f.preorder k = k :: (f.children k).flatMap f.preorder := by
  have hself := h.trail_node (within_refl f k) fun j hj top htop =>
    h.trail_preorder (mem_of_parent hj) top htop
  rw [h.climb_top hk] at hself
  exact h.preorder_of_trail hk hself

omit h in
/-- The preorder below a key that names no node is empty. -/
theorem preorder_of_notMem (hk : k ∉ f) : f.preorder k = [] := by
  simp [preorder, only, hk]

/-- The preorder of a tree lists what is within it. -/
theorem mem_preorder_iff : x ∈ f.preorder k ↔ k ∈ f ∧ f.Within k x := by
  by_cases hk : k ∈ f
  swap
  · simp [preorder_of_notMem hk, hk]
  simp only [hk, true_and]
  induction k using h.rooted.descend with
  | node k ih =>
    rw [h.preorder_eq hk, List.mem_cons, List.mem_flatMap, within_iff_head]
    refine or_congr Iff.rfl ⟨?_, ?_⟩
    · rintro ⟨j, hj, hx⟩
      have hp := h.mem_children_iff.1 hj
      exact ⟨j, hp, (ih j hp (mem_of_parent hp)).1 hx⟩
    · rintro ⟨j, hp, hx⟩
      exact ⟨j, h.mem_children_iff.2 hp, (ih j hp (mem_of_parent hp)).2 hx⟩

/-- The preorder of a tree lists no node twice. -/
theorem nodup_preorder (k : Key) : (f.preorder k).Nodup := by
  by_cases hk : k ∈ f
  · have htrail := h.trail_preorder hk k (within_refl f k)
    rw [h.climb_top hk] at htrail
    exact htrail.nodup
  · rw [preorder_of_notMem hk]
    exact List.nodup_nil

/-- No node stands in front of its parent in a preorder. -/
theorem preorder_parents_first (k : Key) :
    (f.preorder k).Pairwise fun a b => f.parent a ≠ some b := by
  by_cases hk : k ∈ f
  swap
  · rw [preorder_of_notMem hk]
    exact List.Pairwise.nil
  induction k using h.rooted.descend with
  | node k ih =>
    rw [h.preorder_eq hk, List.pairwise_cons, List.pairwise_flatMap]
    refine ⟨?_, ?_, ?_⟩
    · intro b hb hkb
      obtain ⟨j, hj, hb⟩ := List.mem_flatMap.1 hb
      have hbelow := (within_of_parent (h.mem_children_iff.1 hj)).trans (h.mem_preorder_iff.1 hb).2
      exact h.rooted.not_within_parent hkb hbelow
    · intro j hj
      exact ih j (h.mem_children_iff.1 hj) (h.threads.mem_of_mem hj)
    · refine (h.nodup_children k).pairwise_of_forall_ne fun i hi j hj hij a ha b hb hab => hij ?_
      have hia := (h.mem_preorder_iff.1 ha).2
      have hja := (h.mem_preorder_iff.1 hb).2.child hab
      exact h.rooted.eq_of_common (h.mem_children_iff.1 hi) (h.mem_children_iff.1 hj) hia hja

/-- The preorder of a tree depends on the lists of children within it. -/
theorem preorder_congr {f' : Forest} (h' : f'.WellFormed) (htop : top ∈ f)
    (hlive : ∀ k, k ∈ f' ↔ k ∈ f)
    (hsame : ∀ k, f.Within top k → f'.children k = f.children k) :
    f'.preorder top = f.preorder top := by
  induction top using h.rooted.descend with
  | node top ih =>
    rw [h.preorder_eq htop, h'.preorder_eq ((hlive top).2 htop), hsame top (within_refl f top)]
    have hbelow : ∀ c ∈ f.children top, f'.preorder c = f.preorder c := by
      intro c hc
      have hp := h.mem_children_iff.1 hc
      exact ih c hp (mem_of_parent hp) fun k hk => hsame k ((within_of_parent hp).trans hk)
    exact congrArg (top :: ·) (List.flatMap_congr hbelow)

end WellFormed

end WindowForest.Forest
