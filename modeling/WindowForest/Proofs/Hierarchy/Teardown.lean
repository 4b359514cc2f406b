import WindowForest.Proofs.Forest.Postorder
import WindowForest.Proofs.Hierarchy.Registry

/-!
# Taking down a tree

The nodes to be removed are listed once, before the first of them goes, and the list is
worked off while the forest shrinks. It stays right because of an invariant that relates
the rest of the list to the rest of the forest (`LeavesFirst`): what is below a listed
node is listed too, and further in front. So whichever node is next has no children any
more, is still under its parent, and takes nothing with it but itself.

What stays is described by what one removal leaves as it is (`Untouched`). Until the last
node of the list, which is the top of the tree, every parent of a removed node is listed,
so containers outside of the tree notice nothing. Then the parent of the top does.
-/

set_option autoImplicit false

namespace WindowForest

/-! ## Leaves first -/

namespace Forest

variable {f : Forest} {k x : Key} {l m : List Key}

/-- Nodes that can be removed one after the other, each of them childless by then. -/
structure LeavesFirst (f : Forest) (l : List Key) : Prop where
  nodup : l.Nodup
  live : ∀ k ∈ l, k ∈ f
  /-- With a node, its children are listed. -/
  closed : ∀ k ∈ l, ∀ c, f.parent c = some k → c ∈ l
  /-- No node stands in front of one of its children. -/
  order : l.Pairwise fun a b => f.parent b ≠ some a

/-- The first part of a list of nodes that can be removed in order is such a list itself. -/
theorem LeavesFirst.left (hl : f.LeavesFirst (l ++ m)) : f.LeavesFirst l where
  nodup := (List.nodup_append.1 hl.nodup).1
  live k hk := hl.live k (List.mem_append_left m hk)
  closed k hk c hc := by
    -- A child in the second part would stand behind its parent.
    rcases List.mem_append.1 (hl.closed k (List.mem_append_left m hk) c hc) with hmem | hmem
    · exact hmem
    · exact absurd hc ((List.pairwise_append.1 hl.order).2.2 k hk c hmem)
  order := (List.pairwise_append.1 hl.order).1

namespace WellFormed

variable (h : f.WellFormed)

include h

/-- The nodes of a tree can be removed in postorder. -/
theorem leavesFirst_postorder (top : Key) : f.LeavesFirst (f.postorder top) where
  nodup := h.nodup_postorder top
  live k hk := by
    obtain ⟨htop, hw⟩ := h.mem_postorder_iff.1 hk
    exact hw.mem htop
  closed k hk c hc := by
    obtain ⟨htop, hw⟩ := h.mem_postorder_iff.1 hk
    exact h.mem_postorder_iff.2 ⟨htop, hw.child hc⟩
  order := h.postorder_children_first top

/-- The node that is next has no children. -/
theorem children_of_leavesFirst (hl : f.LeavesFirst (k :: l)) : f.children k = [] := by
  rw [List.eq_nil_iff_forall_not_mem]
  intro c hc
  have hp := h.mem_children_iff.1 hc
  rcases List.mem_cons.1 (hl.closed k List.mem_cons_self c hp) with rfl | hmem
  · exact h.rooted.parent_ne hp rfl
  · exact (List.pairwise_cons.1 hl.order).1 c hmem hp

/-- Nothing is within a node without children but the node itself. -/
theorem within_iff_of_childless (hk : f.children k = []) : f.Within k x ↔ x = k := by
  rw [within_iff_head, or_iff_left]
  rintro ⟨c, hc, -⟩
  rw [← h.mem_children_iff, hk] at hc
  cases hc

/-- The preorder below a node without children lists that node only. -/
theorem preorder_of_childless (hlive : k ∈ f) (hk : f.children k = []) : f.preorder k = [k] := by
  rw [h.preorder_eq hlive, hk]
  rfl

/-- A node that stands in front takes no other one with it. -/
theorem not_within_of_ne (hl : f.LeavesFirst (k :: l)) (hx : x ≠ k) : ¬ f.Within k x := by
  rw [h.within_iff_of_childless (h.children_of_leavesFirst hl)]
  exact hx

/-- In particular it takes none of those that stand behind it. -/
theorem not_within_of_leavesFirst (hl : f.LeavesFirst (k :: l)) (hx : x ∈ l) :
    ¬ f.Within k x := by
  have hk : k ∉ l := (List.nodup_cons.1 hl.nodup).1
  exact h.not_within_of_ne hl (ne_of_mem_of_not_mem hx hk)

/-- When the first node is gone, the others can still be removed in their order. -/
theorem leavesFirst_prune (hl : f.LeavesFirst (k :: l)) : (f.prune k).LeavesFirst l where
  nodup := (List.nodup_cons.1 hl.nodup).2
  live x hx := h.mem_prune_iff.2
    ⟨hl.live x (List.mem_cons_of_mem k hx), h.not_within_of_leavesFirst hl hx⟩
  closed x hx c hc := by
    -- What still has a parent has not been pruned, so it is not the first node.
    have hstays := (h.mem_prune_iff.1 (mem_of_parent hc)).2
    rw [h.parent_prune hstays] at hc
    rcases List.mem_cons.1 (hl.closed x (List.mem_cons_of_mem k hx) c hc) with rfl | hmem
    · exact absurd (within_refl f c) hstays
    · exact hmem
  order := by
    refine (List.pairwise_cons.1 hl.order).2.imp_of_mem ?_
    intro a b _ hb hab
    rwa [h.parent_prune (h.not_within_of_leavesFirst hl hb)]

end WellFormed

end Forest

namespace Hierarchy

variable {η : Type} {h h' h'' : Hierarchy η} {node top k : Key} {l m : List Key}

/-! ## What one removal leaves as it is -/

/-- The container has kept its parent, its record and its hook. -/
structure Kept (h h' : Hierarchy η) (k : Key) : Prop where
  parent : h'.forest.parent k = h.forest.parent k
  container : h'.container? k = h.container? k
  hook : h'.records.hooks[k]? = h.records.hooks[k]?

/-- Besides, the container has kept its children, and which of them was last active. -/
structure Untouched (h h' : Hierarchy η) (k : Key) : Prop extends Kept h h' k where
  children : h'.forest.children k = h.forest.children k
  lastActive : h'.lastActive k = h.lastActive k

/-- What is kept by two changes is kept by both together. -/
theorem Kept.trans (hk : Kept h h' k) (hk' : Kept h' h'' k) : Kept h h'' k where
  parent := hk'.parent.trans hk.parent
  container := hk'.container.trans hk.container
  hook := hk'.hook.trans hk.hook

/-- A container that is kept has a hook afterwards if it had one before. -/
theorem Kept.mem_hooks_iff (hk : Kept h h' k) : k ∈ h'.records.hooks ↔ k ∈ h.records.hooks := by
  rw [Std.ExtTreeMap.mem_iff_isSome_getElem?, hk.hook, ← Std.ExtTreeMap.mem_iff_isSome_getElem?]

/-- What two changes do not touch is not touched by both together. -/
theorem Untouched.trans (hk : Untouched h h' k) (hk' : Untouched h' h'' k) :
    Untouched h h'' k where
  toKept := hk.toKept.trans hk'.toKept
  children := hk'.children.trans hk.children
  lastActive := hk'.lastActive.trans hk.lastActive

namespace Arranged

variable (ha : h.Arranged)

include ha

/-- What is not within a removed container is kept. -/
theorem kept_prune (hk : ¬ h.forest.Within node k) : Kept h (h.prune node) k where
  parent := by rw [forest_prune, ha.wellFormed.parent_prune hk]
  container := container?_prune_of_not_within ha.wellFormed hk
  hook := by rw [hooks_prune, if_neg fun hmem => hk (ha.wellFormed.mem_pruned_iff.1 hmem).2]

/-- When a container is removed, its parent passes its pointer on. -/
theorem lastActive_prune (hk : ¬ h.forest.Within node k) :
    (h.prune node).lastActive k =
      if h.forest.parent node = some k ∧ h.lastActive k = some node then
        (h.forest.next node).or (h.forest.prev node)
      else h.lastActive k := by
  have hout : k ∉ (h.forest.unlink node).preorder node := fun hmem =>
    hk (ha.wellFormed.mem_pruned_iff.1 hmem).2
  calc (h.prune node).lastActive k
    _ = (h.records.focus.leave h.forest node).lastActive k :=
      (h.tree.lastActive_remove node k).trans (if_neg hout)
    _ = _ := h.records.focus.lastActive_leave h.forest node k

/-- When a container is removed, its parent loses it from its list. -/
theorem children_prune (hk : ¬ h.forest.Within node k) :
    (h.prune node).forest.children k = (h.forest.children k).erase node := by
  rw [forest_prune, ha.wellFormed.children_prune hk]

/-- What is not within a removed container, and is not its parent, is not touched. -/
theorem untouched_prune (hk : ¬ h.forest.Within node k) (hp : h.forest.parent node ≠ some k) :
    Untouched h (h.prune node) k where
  toKept := ha.kept_prune hk
  children := by
    rw [ha.children_prune hk, List.erase_of_not_mem]
    rwa [ha.wellFormed.mem_children_iff]
  lastActive := by rw [ha.lastActive_prune hk, if_neg fun hboth => hp hboth.1]

end Arranged

/-! ## Working off a list -/

/-- Working off a list is working off its first part and then its second part. -/
theorem removeEach_append (h : Hierarchy η) (l m : List Key) :
    h.removeEach (l ++ m) =
      (((h.removeEach l).1.removeEach m).1,
        (h.removeEach l).2 ++ ((h.removeEach l).1.removeEach m).2) := by
  induction l generalizing h with
  | nil => rfl
  | cons k l ih =>
    show (((h.prune k).removeEach (l ++ m)).1,
      h.removalCalls k ++ ((h.prune k).removeEach (l ++ m)).2) = _
    rw [ih, ← List.append_assoc]
    rfl

namespace Arranged

/-- When the first container is gone, the others can still be removed in their order. -/
theorem leavesFirst_prune (ha : h.Arranged) (hl : h.forest.LeavesFirst (k :: l)) :
    (h.prune k).forest.LeavesFirst l := by
  rw [forest_prune]
  exact ha.wellFormed.leavesFirst_prune hl

/-- When the first part of a list is worked off, the rest can still be removed in order. -/
theorem leavesFirst_removeEach (ha : h.Arranged) (hl : h.forest.LeavesFirst (l ++ m)) :
    (h.removeEach l).1.forest.LeavesFirst m := by
  induction l generalizing h with
  | nil => exact hl
  | cons k l ih => exact ih (ha.prune k) (ha.leavesFirst_prune hl)

/-- Live after working off a list is what was so before and is not listed. -/
theorem mem_removeEach (ha : h.Arranged) (hl : h.forest.LeavesFirst l) :
    k ∈ (h.removeEach l).1.forest ↔ k ∈ h.forest ∧ k ∉ l := by
  induction l generalizing h with
  | nil => exact (and_iff_left List.not_mem_nil).symm
  | cons j l ih =>
    have hf := ha.wellFormed
    have hrest := ih (ha.prune j) (ha.leavesFirst_prune hl)
    rw [forest_prune, hf.mem_prune_iff,
      hf.within_iff_of_childless (hf.children_of_leavesFirst hl)] at hrest
    rw [List.mem_cons, not_or, ← and_assoc]
    exact hrest

/-- Working off a list makes the forest smaller by the length of the list. -/
theorem size_removeEach (ha : h.Arranged) (hl : h.forest.LeavesFirst l) :
    (h.removeEach l).1.forest.size + l.length = h.forest.size := by
  induction l generalizing h with
  | nil => rfl
  | cons j l ih =>
    have hf := ha.wellFormed
    have hrest : ((h.prune j).removeEach l).1.forest.size + l.length = (h.forest.prune j).size := by
      rw [← forest_prune]
      exact ih (ha.prune j) (ha.leavesFirst_prune hl)
    have hone : (h.forest.prune j).size + 1 = h.forest.size := by
      have hsize := hf.size_prune j
      rwa [hf.preorder_of_childless (hl.live j List.mem_cons_self)
        (hf.children_of_leavesFirst hl)] at hsize
    calc (h.removeEach (j :: l)).1.forest.size + (j :: l).length
      _ = (((h.prune j).removeEach l).1.forest.size + l.length) + 1 := rfl
      _ = h.forest.size := by rw [hrest, hone]

/-- Containers that are not listed are kept. -/
theorem kept_removeEach_of_notMem (ha : h.Arranged) (hl : h.forest.LeavesFirst l) (hk : k ∉ l) :
    Kept h (h.removeEach l).1 k := by
  induction l generalizing h with
  | nil => exact ⟨rfl, rfl, rfl⟩
  | cons j l ih =>
    have hout := ha.wellFormed.not_within_of_ne hl (List.ne_of_not_mem_cons hk)
    have hrest := ih (ha.prune j) (ha.leavesFirst_prune hl) (List.not_mem_of_not_mem_cons hk)
    exact (ha.kept_prune hout).trans hrest

/-- Containers that are not listed, and have no children that are, notice nothing. -/
theorem untouched_removeEach (ha : h.Arranged) (hl : h.forest.LeavesFirst l) (hk : k ∉ l)
    (hout : ∀ j ∈ l, h.forest.parent j ≠ some k) : Untouched h (h.removeEach l).1 k := by
  induction l generalizing h with
  | nil => exact ⟨⟨rfl, rfl, rfl⟩, rfl, rfl⟩
  | cons j l ih =>
    have hf := ha.wellFormed
    have hne := hf.not_within_of_ne hl (List.ne_of_not_mem_cons hk)
    have hfirst := ha.untouched_prune hne (hout j List.mem_cons_self)
    refine hfirst.trans (ih (ha.prune j) (ha.leavesFirst_prune hl)
      (List.not_mem_of_not_mem_cons hk) ?_)
    intro i hi
    rw [(ha.kept_prune (hf.not_within_of_leavesFirst hl hi)).parent]
    exact hout i (List.mem_cons_of_mem j hi)

end Arranged

/-! ## What the hooks get to see -/

/-- The forest as it is when, of the listed containers, it is the turn of `k` to be removed. -/
def forestAt (h : Hierarchy η) (l : List Key) (k : Key) : Forest :=
  (h.removeEach (l.takeWhile (· ≠ k))).1.forest

/-- When it is the turn of the first container, nothing has gone. -/
theorem forestAt_self (h : Hierarchy η) (k : Key) (l : List Key) :
    h.forestAt (k :: l) k = h.forest := by
  rw [forestAt, List.takeWhile_cons_of_neg (by simp)]
  rfl

/-- When it is the turn of another container, the first one has gone. -/
theorem forestAt_of_ne {j : Key} (hne : j ≠ k) (l : List Key) :
    h.forestAt (j :: l) k = (h.prune j).forestAt l k := by
  rw [forestAt, List.takeWhile_cons_of_pos (by simpa using hne)]
  rfl

/-- When it is the turn of a container, those in front of it have gone. -/
theorem forestAt_append {before after : List Key} (hk : k ∉ before) :
    h.forestAt (before ++ k :: after) k = (h.removeEach before).1.forest := by
  have hbefore : ∀ j ∈ before, decide (j ≠ k) = true := fun j hj =>
    decide_eq_true (ne_of_mem_of_not_mem hj hk)
  rw [forestAt, List.takeWhile_append_of_pos hbefore, List.takeWhile_cons_of_neg (by simp),
    List.append_nil]

/-- The hooks of the listed containers are called in the order of the list, each once. -/
theorem Arranged.calls_removeEach (ha : h.Arranged) (hl : h.forest.LeavesFirst l) :
    (h.removeEach l).2 =
      (l.filter (· ∈ h.records.hooks)).map fun k => .removed k (h.forestAt l k) := by
  induction l generalizing h with
  | nil => rfl
  | cons j l ih =>
    have hf := ha.wellFormed
    have hj : j ∉ l := (List.nodup_cons.1 hl.nodup).1
    have hrest : ((h.prune j).removeEach l).2 =
        (l.filter (· ∈ h.records.hooks)).map fun k => .removed k (h.forestAt (j :: l) k) := by
      rw [ih (ha.prune j) (ha.leavesFirst_prune hl)]
      have hhooks : l.filter (· ∈ (h.prune j).records.hooks) = l.filter (· ∈ h.records.hooks) := by
        apply filter_hooks_congr
        intro k hk
        exact (ha.kept_prune (hf.not_within_of_leavesFirst hl hk)).mem_hooks_iff
      rw [hhooks]
      apply List.map_congr_left
      intro k hk
      rw [forestAt_of_ne (ne_of_mem_of_not_mem (List.mem_of_mem_filter hk) hj).symm]
    show h.removalCalls j ++ ((h.prune j).removeEach l).2 = _
    rw [hrest, removalCalls]
    by_cases hhook : j ∈ h.records.hooks
    · rw [if_pos hhook, List.filter_cons_of_pos (by simpa using hhook), List.map_cons,
        forestAt_self]
      rfl
    · rw [if_neg hhook, List.filter_cons_of_neg (by simpa using hhook)]
      rfl

/-- What a forest shows of a container that is about to be removed, when it is the turn of that
container. -/
structure Due (h : Hierarchy η) (seen : Forest) (k : Key) (done : Nat) : Prop where
  children : seen.children k = []
  parent : seen.parent k = h.forest.parent k
  linked : ∀ p, h.forest.parent k = some p → k ∈ seen.children p
  size : seen.size + done = h.forest.size

/-- When it is the turn of a container, it has no children, and is still linked to its parent. -/
theorem Arranged.due (ha : h.Arranged) {before after : List Key}
    (hl : h.forest.LeavesFirst (before ++ k :: after)) :
    h.Due (h.forestAt (before ++ k :: after) k) k before.length := by
  have hk : k ∉ before := fun hmem =>
    (List.nodup_append.1 hl.nodup).2.2 k hmem k List.mem_cons_self rfl
  have hf := (ha.removeEach before).wellFormed
  have hparent := (ha.kept_removeEach_of_notMem hl.left hk).parent
  rw [forestAt_append hk]
  exact
    { children := hf.children_of_leavesFirst (ha.leavesFirst_removeEach hl)
      parent := hparent
      linked := fun p hp => hf.mem_children_iff.2 (hparent.trans hp)
      size := ha.size_removeEach hl.left }

/-! ## The whole tree -/

/-- What it means that a container is removed with all below it, leaves first. -/
structure Teardown (h : Hierarchy η) (top : Key) (o : Outcome η Unit) : Prop where
  result : o.result = .ok ()
  /-- The order in which the containers go: what is below a child comes before what is below the
  next one, and the container itself comes last. -/
  order : ∀ k, h.forest.Within top k →
    h.forest.postorder k = (h.forest.children k).flatMap h.forest.postorder ++ [k]
  listed : (h.forest.postorder top).Nodup ∧
    ∀ k, k ∈ h.forest.postorder top ↔ h.forest.Within top k
  /-- The hooks within the tree are called in that order, and no others are called. -/
  calls : ∃ seen : Key → Forest,
    o.calls = ((h.forest.postorder top).filter (· ∈ h.records.hooks)).map
      (fun k => .removed k (seen k)) ∧
    ∀ before k after, h.forest.postorder top = before ++ k :: after →
      h.Due (seen k) k before.length
  gone : ∀ k, o.hierarchy.contains k ↔ h.contains k ∧ ¬ h.forest.Within top k
  size : o.hierarchy.forest.size + (h.forest.postorder top).length = h.forest.size
  /-- What stays keeps its parent, its record and its hook. -/
  kept : ∀ k, o.hierarchy.contains k → h.Kept o.hierarchy k
  children : ∀ k, o.hierarchy.contains k → o.hierarchy.forest.children k =
    if h.forest.parent top = some k then (h.forest.children k).erase top
    else h.forest.children k
  /-- A pointer to the removed container goes over to the sibling behind it, or else to the one in
  front of it. -/
  lastActive : ∀ k, o.hierarchy.contains k → o.hierarchy.lastActive k =
    if h.forest.parent top = some k ∧ h.lastActive k = some top then
      (h.forest.next top).or (h.forest.prev top)
    else h.lastActive k

/-- Removing a container that is there works off the postorder of its tree. -/
theorem removeNow_of_contains (htop : h.contains top) :
    h.removeNow top =
      ⟨(h.removeEach (h.forest.postorder top)).1, .ok (),
        (h.removeEach (h.forest.postorder top)).2⟩ := by
  rw [removeNow, checkLive_of_contains htop]
  rfl

namespace Arranged

variable (ha : h.Arranged)

include ha

/-- Before a container goes itself, it has no children left. Until then nobody outside of its tree
has taken note of anything. -/
theorem exists_last (hmem : top ∈ h.forest) :
    ∃ g : Hierarchy η, g.Arranged ∧ (h.removeEach (h.forest.postorder top)).1 = g.prune top ∧
      g.forest.children top = [] ∧ g.forest.parent top = h.forest.parent top ∧
      ∀ k, ¬ h.forest.Within top k → Untouched h g k := by
  have hf := ha.wellFormed
  obtain ⟨below, horder⟩ : ∃ below, h.forest.postorder top = below ++ [top] :=
    ⟨_, hf.postorder_eq hmem⟩
  have hl : h.forest.LeavesFirst (below ++ [top]) := horder ▸ hf.leavesFirst_postorder top
  have hbelow : ∀ j ∈ below, h.forest.Within top j := fun j hj =>
    (hf.mem_postorder_iff.1 (horder ▸ List.mem_append_left [top] hj)).2
  have htop : top ∉ below := fun hin =>
    (List.nodup_append.1 hl.nodup).2.2 top hin top (List.mem_singleton_self top) rfl
  have hg := ha.removeEach below
  refine ⟨(h.removeEach below).1, hg, ?_, ?_, ?_, ?_⟩
  · rw [horder, removeEach_append]
    rfl
  · exact hg.wellFormed.children_of_leavesFirst (ha.leavesFirst_removeEach hl)
  · exact (ha.kept_removeEach_of_notMem hl.left htop).parent
  · intro k hk
    refine ha.untouched_removeEach hl.left (fun hin => hk (hbelow k hin)) ?_
    intro j hj hp
    rcases Forest.within_iff.1 (hbelow j hj) with rfl | ⟨p, hp', hw⟩
    · exact htop hj
    · exact hk (Option.mem_unique hp hp' ▸ hw)

/-- Of the containers that stay, only the parent notices that a container was removed. -/
theorem noticed_postorder (hmem : top ∈ h.forest) (hk : ¬ h.forest.Within top k) :
    (h.removeEach (h.forest.postorder top)).1.forest.children k =
        (if h.forest.parent top = some k then (h.forest.children k).erase top
          else h.forest.children k) ∧
      (h.removeEach (h.forest.postorder top)).1.lastActive k =
        if h.forest.parent top = some k ∧ h.lastActive k = some top then
          (h.forest.next top).or (h.forest.prev top)
        else h.lastActive k := by
  obtain ⟨g, hg, hlast, hbare, hparent, hsame⟩ := ha.exists_last hmem
  have hout : ¬ g.forest.Within top k := by
    rw [hg.wellFormed.within_iff_of_childless hbare]
    rintro rfl
    exact hk (Forest.within_refl _ _)
  rw [hlast, hg.children_prune hout, hg.lastActive_prune hout, hparent, (hsame k hk).children,
    (hsame k hk).lastActive]
  by_cases hp : h.forest.parent top = some k
  · -- The parent still has the children that it had, so the pointer finds the same siblings.
    obtain ⟨hprev, hnext⟩ :=
      ha.wellFormed.siblings_congr hg.wellFormed hp (hsame k hk).children
    rw [if_pos hp, hprev, hnext]
    exact ⟨rfl, rfl⟩
  · have hnot : top ∉ h.forest.children k := by rwa [ha.wellFormed.mem_children_iff]
    rw [if_neg hp, List.erase_of_not_mem hnot, if_neg fun hboth => hp hboth.1,
      if_neg fun hboth => hp hboth.1]
    exact ⟨rfl, rfl⟩

/-- In an arranged hierarchy a container that is there is removed leaves first. -/
theorem teardown_removeNow (htop : h.contains top) : h.Teardown top (h.removeNow top) := by
  have hf := ha.wellFormed
  have hmem := (ha.live_iff top).1 htop
  have hl := hf.leavesFirst_postorder top
  have hlisted : ∀ k, k ∈ h.forest.postorder top ↔ h.forest.Within top k := by
    intro k
    rw [hf.mem_postorder_iff, and_iff_right hmem]
  have hgone : ∀ k, (h.removeEach (h.forest.postorder top)).1.contains k ↔
      h.contains k ∧ ¬ h.forest.Within top k := by
    intro k
    rw [(ha.removeEach _).live_iff, ha.mem_removeEach hl, ha.live_iff, hlisted]
  have hstays : ∀ k, (h.removeEach (h.forest.postorder top)).1.contains k →
      ¬ h.forest.Within top k := fun k hk => ((hgone k).1 hk).2
  rw [removeNow_of_contains htop]
  exact
    { result := rfl
      order := fun k hk => hf.postorder_eq (hk.mem hmem)
      listed := ⟨hf.nodup_postorder top, hlisted⟩
      calls := ⟨h.forestAt (h.forest.postorder top), ha.calls_removeEach hl,
        fun before k after hsplit => hsplit ▸ ha.due (hsplit ▸ hl)⟩
      gone := hgone
      size := ha.size_removeEach hl
      kept := fun k hk =>
        ha.kept_removeEach_of_notMem hl fun hin => hstays k hk ((hlisted k).1 hin)
      children := fun k hk => (ha.noticed_postorder hmem (hstays k hk)).1
      lastActive := fun k hk => (ha.noticed_postorder hmem (hstays k hk)).2 }

end Arranged

/-- Whatever commands were given before, a container that is there is removed together with all
below it and nothing else, leaves first. -/
theorem Reachable.teardown [Hook η] {settings : Settings} (hr : Reachable settings h)
    (htop : h.contains top) : h.Teardown top (h.removeNow top) :=
  hr.arranged.teardown_removeNow htop

/-- The stack goes after the task in it, and of the two only the task has a hook. -/
theorem teardown_furnished :
    Reachable {} furnished ∧ furnished.contains ⟨3, 1⟩ ∧
      furnished.Teardown ⟨3, 1⟩ (furnished.removeNow ⟨3, 1⟩) ∧
      furnished.forest.postorder ⟨3, 1⟩ = [⟨4, 1⟩, ⟨3, 1⟩] ∧
      (furnished.removeNow ⟨3, 1⟩).calls.map Call.node = [⟨4, 1⟩] ∧
      (furnished.removeNow ⟨3, 1⟩).hierarchy.forest.children ⟨1, 1⟩ = [] := by
  have hr := reachable_furnished
  have htop : furnished.contains ⟨3, 1⟩ := by decide
  exact ⟨hr, htop, hr.teardown htop, by decide, by decide, by decide⟩

end Hierarchy

end WindowForest
