import Mathlib.Logic.Relation
import Mathlib.Order.WellFounded
import WindowForest.Proofs.Forest.Slots
import WindowForest.Proofs.Forest.Trail

/-!
# Lineage

A node lies within a tree when parents lead from it up to the top of that tree
(`Within`). In a rooted forest every chain of parents comes to an end. Then the
list of ancestors is the whole chain, being within is a partial order under
which the nodes above any given one are linearly ordered, and there are two ways
to do induction: from parents to children (`Rooted.induction`) and from children
to parents (`Rooted.descend`).

The last section compares two forests that differ in the parent of a single
node, as they do before and after a move.
-/

set_option autoImplicit false

namespace WindowForest.Forest

variable {f : Forest} {k p top : Key}

/-! ## Being within a tree -/

/-- The node `k` is `top` or lies below it. -/
def Within (f : Forest) (top k : Key) : Prop :=
  Relation.ReflTransGen (fun p c => f.parent c = some p) top k

/-- The tree that a node belongs to has the root `r`. -/
def IsRootOf (f : Forest) (r k : Key) : Prop := r ∈ f ∧ f.parent r = none ∧ f.Within r k

/-- Parents are live, and no chain of parents goes on for ever. -/
structure Rooted (f : Forest) : Prop where
  parent_mem : ∀ {k p}, f.parent k = some p → p ∈ f
  wellFounded : WellFounded fun p c => f.parent c = some p

/-- What has a parent is live. -/
theorem mem_of_parent (h : f.parent k = some p) : k ∈ f := by
  unfold parent at h
  rw [Store.mem_iff_isSome_get?]
  cases hk : f.get? k with
  | none => simp [hk] at h
  | some n => rfl

/-- A key that names no node has no parent. -/
theorem parent_of_notMem (h : k ∉ f) : f.parent k = none := by
  simp [parent, Store.get?_eq_none h]

/-- A key that names no node has no ancestors, not even itself. -/
theorem ancestors_of_notMem (h : k ∉ f) : f.ancestors k = [] := by
  simp [ancestors, only, h]

/-- Every node is within its own tree. -/
@[simp] theorem within_refl (f : Forest) (k : Key) : f.Within k k := .refl

/-- A child is within every tree that its parent is within. -/
theorem Within.child (h : f.Within top p) (hk : f.parent k = some p) : f.Within top k :=
  h.tail hk

/-- A child is within the tree below its parent. -/
theorem within_of_parent (hk : f.parent k = some p) : f.Within p k := by
  have hself := within_refl f p
  exact hself.child hk

/-- Trees within trees are within these. -/
theorem Within.trans {a b c : Key} (h : f.Within a b) (h' : f.Within b c) : f.Within a c :=
  Relation.ReflTransGen.trans h h'

/-- A node within a tree is its top, or its parent is within the tree. -/
theorem within_iff : f.Within top k ↔ k = top ∨ ∃ p, f.parent k = some p ∧ f.Within top p := by
  constructor
  · intro h
    rcases Relation.ReflTransGen.cases_tail h with h | ⟨p, hp, hk⟩
    · exact .inl h
    · exact .inr ⟨p, hk, hp⟩
  · rintro (rfl | ⟨p, hk, hp⟩)
    · exact within_refl f k
    · exact hp.child hk

/-- Above a root there is nothing. -/
theorem Within.eq_of_root (h : f.Within top k) (hk : f.parent k = none) : top = k := by
  rcases within_iff.1 h with h | ⟨p, hp, -⟩
  · exact h.symm
  · rw [hk] at hp
    cases hp

/-- A root is below no other node. -/
theorem not_within_of_root (hk : f.parent k = none) (hne : top ≠ k) : ¬ f.Within top k := by
  intro hw
  exact hne (hw.eq_of_root hk)

/-- Of two nodes above the same node, one is above the other. -/
theorem within_total {a b : Key} (ha : f.Within a k) (hb : f.Within b k) :
    f.Within a b ∨ f.Within b a := by
  have hunique : Relator.RightUnique fun c p => f.parent c = some p := by
    intro c p q hp hq
    exact Option.mem_unique hp hq
  have ha' := Relation.reflTransGen_swap.2 ha
  have hb' := Relation.reflTransGen_swap.2 hb
  rcases Relation.ReflTransGen.total_of_right_unique hunique ha' hb' with h | h
  · exact .inr (Relation.reflTransGen_swap.2 h)
  · exact .inl (Relation.reflTransGen_swap.2 h)

/-- A live node below another one has a live node above it. -/
theorem Within.mem (h : f.Within top k) (htop : top ∈ f) : k ∈ f := by
  rcases within_iff.1 h with rfl | ⟨p, hp, -⟩
  · exact htop
  · exact mem_of_parent hp

namespace Rooted

variable (h : f.Rooted)

include h

/-- Induction from parents to children. -/
theorem induction {motive : Key → Prop} (root : ∀ k, f.parent k = none → motive k)
    (child : ∀ k p, f.parent k = some p → motive p → motive k) (k : Key) : motive k := by
  apply h.wellFounded.induction k
  intro k ih
  cases hk : f.parent k with
  | none => exact root k hk
  | some p => exact child k p hk (ih p hk)

/-- No node is a proper ancestor of itself. -/
theorem acyclic (k : Key) : ¬ Relation.TransGen (fun p c => f.parent c = some p) k k := by
  have hirrefl := h.wellFounded.transGen.irrefl
  exact hirrefl.irrefl k

/-- A parent does not lie below its child. -/
theorem not_within_parent (hk : f.parent k = some p) : ¬ f.Within k p := by
  intro hp
  -- The way down to the parent and the step to the child would close a circle.
  have hcircle : Relation.TransGen (fun p c => f.parent c = some p) k k :=
    Relation.TransGen.tail' hp hk
  exact h.acyclic k hcircle

/-- Nodes within each other are the same. -/
theorem within_antisymm {a b : Key} (hab : f.Within a b) (hba : f.Within b a) : a = b := by
  rcases within_iff.1 hab with hb | ⟨q, hq, haq⟩
  · exact hb.symm
  · exact absurd (hba.trans haq) (h.not_within_parent hq)

/-- No node is its own parent. -/
theorem parent_ne (hk : f.parent k = some p) : p ≠ k := by
  rintro rfl
  exact h.not_within_parent hk (within_refl f p)

/-- What is above a live node is live. -/
theorem top_mem (hk : k ∈ f) (htop : f.Within top k) : top ∈ f := by
  induction htop with
  | refl => exact hk
  | tail _ hp ih => exact ih (h.parent_mem hp)

/-! ## The list of ancestors -/

/-- The chain of parents from a live node up is finite, and holds the nodes that it is within. -/
theorem exists_trail (hk : k ∈ f) :
    ∃ l, Trail f.parent (some k) l none ∧ ∀ a, a ∈ l ↔ f.Within a k := by
  induction k using h.induction with
  | root k hroot =>
    refine ⟨[k], ⟨rfl, hroot⟩, ?_⟩
    intro a
    rw [List.mem_singleton]
    constructor
    · rintro rfl
      exact within_refl f a
    · intro ha
      exact ha.eq_of_root hroot
  | child k p hp ih =>
    obtain ⟨l, hl, hmem⟩ := ih (h.parent_mem hp)
    refine ⟨k :: l, ⟨rfl, hp.symm ▸ hl⟩, ?_⟩
    intro a
    rw [List.mem_cons, hmem, within_iff (k := k)]
    simp [hp, eq_comm]

/-- The ancestors of a node are all that a walk along parents visits. -/
theorem trail_ancestors (k : Key) : Trail f.parent (f.only k) (f.ancestors k) none := by
  unfold ancestors only
  by_cases hk : k ∈ f
  · obtain ⟨l, hl, hmem⟩ := h.exists_trail hk
    have hlive : ∀ a ∈ l, a ∈ f := fun a ha => h.top_mem hk ((hmem a).1 ha)
    rwa [if_pos hk, hl.follow_eq (Store.length_le_size hl.nodup hlive)]
  · simp [hk]

/-- The ancestors of a live node are the nodes whose trees it is within. -/
theorem mem_ancestors_iff {a : Key} : a ∈ f.ancestors k ↔ k ∈ f ∧ f.Within a k := by
  by_cases hk : k ∈ f
  · obtain ⟨l, hl, hmem⟩ := h.exists_trail hk
    have htrail := h.trail_ancestors k
    rw [only, if_pos hk] at htrail
    rw [htrail.eq_of_end hl, hmem]
    simp [hk]
  · simp [ancestors, only, hk]

/-- The test for ancestors tells whether a live node is within a tree. -/
theorem isAncestor_iff {a : Key} : f.isAncestor a k ↔ k ∈ f ∧ f.Within a k := by
  rw [isAncestor, List.contains_iff_mem, h.mem_ancestors_iff]

/-- No node is listed twice among the ancestors of another. -/
theorem nodup_ancestors (k : Key) : (f.ancestors k).Nodup := by
  have htrail := h.trail_ancestors k
  exact htrail.nodup

/-- The ancestors of a child are the child itself and the ancestors of its parent. -/
theorem ancestors_of_parent (hk : f.parent k = some p) :
    f.ancestors k = k :: f.ancestors p := by
  have hl := h.trail_ancestors p
  rw [only, if_pos (h.parent_mem hk)] at hl
  have hchain : Trail f.parent (f.only k) (k :: f.ancestors p) none := by
    rw [only, if_pos (mem_of_parent hk)]
    exact ⟨rfl, hk.symm ▸ hl⟩
  exact (h.trail_ancestors k).eq_of_end hchain

/-- A root has no ancestor but itself. -/
theorem ancestors_of_root (hmem : k ∈ f) (hk : f.parent k = none) : f.ancestors k = [k] := by
  have hchain : Trail f.parent (f.only k) [k] none := by
    rw [only, if_pos hmem]
    exact ⟨rfl, hk⟩
  exact (h.trail_ancestors k).eq_of_end hchain

/-- A node has no more ancestors than the forest has nodes. -/
theorem length_ancestors_le (k : Key) : (f.ancestors k).length ≤ f.size := by
  apply Store.length_le_size (h.nodup_ancestors k)
  intro a ha
  obtain ⟨hk, hwithin⟩ := h.mem_ancestors_iff.1 ha
  exact h.top_mem hk hwithin

/-- The ancestors of a node only depend on the parents along its chain. -/
theorem ancestors_congr {f' : Forest} (h' : f'.Rooted) (live : k ∈ f' ↔ k ∈ f)
    (same : ∀ a, f.Within a k → f'.parent a = f.parent a) : f'.ancestors k = f.ancestors k := by
  by_cases hk : k ∈ f
  · have htrail := h.trail_ancestors k
    have htrail' := h'.trail_ancestors k
    rw [only, if_pos hk] at htrail
    rw [only, if_pos (live.2 hk)] at htrail'
    exact htrail'.eq_of_end (htrail.congr fun a ha => same a (h.mem_ancestors_iff.1 ha).2)
  · rw [ancestors_of_notMem hk, ancestors_of_notMem fun hk' => hk (live.1 hk')]

/-- Induction from children to parents. The list of ancestors grows on the way down and is never
longer than the forest is large, so every way down ends. -/
theorem descend {motive : Key → Prop}
    (node : ∀ k, (∀ c, f.parent c = some k → motive c) → motive k) (k : Key) : motive k := by
  suffices hall : ∀ n k, f.size - (f.ancestors k).length = n → motive k from hall _ k rfl
  intro n
  induction n using Nat.strongRecOn with
  | _ n ih =>
    intro k hn
    refine node k fun c hc => ih _ ?_ c rfl
    have hlength := congrArg List.length (h.ancestors_of_parent hc)
    have hle := h.length_ancestors_le c
    simp only [List.length_cons] at hlength
    omega

/-! ## Roots -/

/-- Every live node belongs to a tree. -/
theorem exists_root (hk : k ∈ f) : ∃ r, f.IsRootOf r k := by
  induction k using h.induction with
  | root k hroot => exact ⟨k, hk, hroot, within_refl f k⟩
  | child k p hp ih =>
    obtain ⟨r, hr, hroot, hwithin⟩ := ih (h.parent_mem hp)
    exact ⟨r, hr, hroot, hwithin.child hp⟩

end Rooted

/-- A node belongs to one tree only. -/
theorem IsRootOf.unique {r s : Key} (hr : f.IsRootOf r k) (hs : f.IsRootOf s k) : r = s := by
  rcases within_total hr.2.2 hs.2.2 with h | h
  · exact h.eq_of_root hs.2.1
  · exact (h.eq_of_root hr.2.1).symm

/-! ## Forests that differ in the parent of one node -/

section Relinked

variable {f' : Forest} {node : Key}

/-- A forest with fewer edges than a rooted one is rooted. -/
theorem Rooted.of_parent_le (h : f.Rooted) (hle : ∀ c q, f'.parent c = some q → f.parent c = some q)
    (hmem : ∀ c q, f'.parent c = some q → q ∈ f') : f'.Rooted where
  parent_mem := hmem _ _
  wellFounded := Subrelation.wf (hle _ _) h.wellFounded

variable (same : ∀ c, c ≠ node → f'.parent c = f.parent c)

include same

/-- What lies below a node does not depend on its parent. -/
theorem Within.relinked_below (hk : f.Within node k) : f'.Within node k := by
  induction hk with
  | refl => exact within_refl f' node
  | @tail p c _ hp ih =>
    by_cases hc : c = node
    · rw [hc]
      exact within_refl f' node
    · exact ih.child ((same c hc).trans hp)

/-- The trees below a node are the same in two forests that differ in nothing but its parent. -/
theorem within_relinked_iff : f'.Within node k ↔ f.Within node k := by
  constructor
  · intro hk
    have back : ∀ c, c ≠ node → f.parent c = f'.parent c := fun c hc => (same c hc).symm
    exact hk.relinked_below back
  · intro hk
    exact hk.relinked_below same

/-- A rooted forest stays rooted when a node goes under one that is not below it. -/
theorem Rooted.relinked (h : f.Rooted) (hmem : ∀ c q, f'.parent c = some q → q ∈ f')
    (hnode : ∀ q, f'.parent node = some q → ¬ f.Within node q) : f'.Rooted := by
  -- First come the nodes that are not below the moved one, then that node, then all others.
  have beside : ∀ c, ¬ f.Within node c → Acc (fun q c => f'.parent c = some q) c := by
    intro c
    induction c using h.induction with
    | root c hroot =>
      intro hc
      refine ⟨c, ?_⟩
      intro q hq
      rw [same c fun e => hc (e ▸ within_refl f c), hroot] at hq
      cases hq
    | child c p hp ih =>
      intro hc
      refine ⟨c, ?_⟩
      intro q hq
      rw [same c fun e => hc (e ▸ within_refl f c), hp] at hq
      obtain rfl := Option.some.inj hq
      exact ih fun hp' => hc (hp'.child hp)
  have moved : Acc (fun q c => f'.parent c = some q) node :=
    ⟨node, fun q hq => beside q (hnode q hq)⟩
  refine ⟨hmem _ _, ⟨?_⟩⟩
  intro c
  by_cases hc : f.Within node c
  · induction hc with
    | refl => exact moved
    | @tail p c _ hp ih =>
      by_cases he : c = node
      · exact he ▸ moved
      · refine ⟨c, ?_⟩
        intro q hq
        rw [same c he, hp] at hq
        exact Option.some.inj hq ▸ ih
  · exact beside c hc

end Relinked

end WindowForest.Forest
