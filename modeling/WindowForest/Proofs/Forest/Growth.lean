import WindowForest.Proofs.Forest.Moving
import WindowForest.Proofs.Forest.Preorder

/-!
# Growth and pruning

What the four operations on trees make of the forest, whatever the observer. A
new node stands alone, a placed one is moved, an uprooted one is unlinked, and
with a removed one goes exactly what lies below it (`prune`). Each operation
keeps forests well-formed.
-/

set_option autoImplicit false

namespace WindowForest

namespace Forest

variable {f : Forest} {k node p : Key}

/-! ## New nodes -/

/-- The forest with one more node, which stands alone. -/
def sprout (f : Forest) : Forest := Store.insert f {}

/-- The new node is live, and otherwise the same nodes are as before. -/
theorem mem_sprout : k ∈ f.sprout ↔ k = f.nextKey ∨ k ∈ f := Store.mem_insert

/-- No link leads to or from a new node. -/
theorem bind_get?_sprout (h : Store.Sound f) (field : Links → Option Key) (hfield : field {} = none)
    (k : Key) : (f.sprout.get? k).bind field = (f.get? k).bind field := by
  rw [sprout, Store.get?_insert]
  by_cases hk : f.nextKey = k
  · rw [if_pos hk, ← hk, Store.get?_eq_none h.nextKey_notMem]
    exact hfield
  · rw [if_neg hk]

namespace WellFormed

variable (h : f.WellFormed)

include h

/-- A new node changes nobody's parent, and has none itself. -/
theorem parent_sprout (k : Key) : f.sprout.parent k = f.parent k :=
  bind_get?_sprout h.sound Links.parent rfl k

/-- A well-formed forest stays so with one more node. -/
theorem sprout : f.sprout.WellFormed := by
  have hright : ∀ q y, f.sprout.rightOf q y = f.rightOf q y := by
    intro q y
    cases y with
    | none => exact bind_get?_sprout h.sound Links.first rfl q
    | some k => exact bind_get?_sprout h.sound Links.next rfl k
  have hleft : ∀ q y, f.sprout.leftOf q y = f.leftOf q y := by
    intro q y
    cases y with
    | none => exact bind_get?_sprout h.sound Links.last rfl q
    | some k => exact bind_get?_sprout h.sound Links.prev rfl k
  have hthreads : f.sprout.Threads f.children :=
    { nodup := h.nodup_children
      mem_iff := by
        intro p k
        rw [h.parent_sprout]
        exact h.mem_children_iff
      right := fun hcut => (hright _ _).trans (h.threads.right hcut)
      left := fun hcut => (hleft _ _).trans (h.threads.left hcut)
      alone := by
        intro k hk
        rw [h.parent_sprout] at hk
        have hprev : f.sprout.prev k = f.prev k := hleft k (some k)
        have hnext : f.sprout.next k = f.next k := hright k (some k)
        rw [hprev, hnext]
        exact h.threads.alone hk }
  refine hthreads.wellFormed (h.sound.insert {}) (h.rooted.of_parent_le ?_ ?_)
  · intro c q hq
    rwa [h.parent_sprout] at hq
  · intro c q hq
    rw [h.parent_sprout] at hq
    exact mem_sprout.2 (.inr (h.rooted.parent_mem hq))

/-- A new node changes no list of children, and has none itself. -/
theorem children_sprout (p : Key) : f.sprout.children p = f.children p := by
  have hnodup := h.sprout.nodup_children p
  have hright : ∀ k, f.sprout.next k = f.next k := fun k =>
    bind_get?_sprout h.sound Links.next rfl k
  have hfirst : f.sprout.first p = f.first p := bind_get?_sprout h.sound Links.first rfl p
  have htrail := h.sprout.threads.trail_next p
  rw [hfirst] at htrail
  exact (htrail.congr fun k _ => (hright k).symm).eq_of_end (h.threads.trail_next p)

end WellFormed

/-! ## Pruning -/

/-- Erasing keys in a row leaves the values of all others. -/
theorem get?_foldl_erase {α : Type} (s : Store α) (l : List Key) (k : Key) :
    (l.foldl Store.erase s).get? k = if k ∈ l then none else s.get? k := by
  induction l generalizing s with
  | nil => simp
  | cons j l ih =>
    rw [List.foldl_cons, ih, Store.get?_erase]
    by_cases hj : j = k
    · simp [hj]
    · simp [hj, Ne.symm hj]

/-- Erasing keys in a row keeps the books of the store in order. -/
theorem sound_foldl_erase {α : Type} {s : Store α} (h : s.Sound) (l : List Key) :
    (l.foldl Store.erase s).Sound := by
  induction l generalizing s with
  | nil => exact h
  | cons j l ih => exact ih (h.erase j)

/-- A store gets smaller by as many distinct live keys as are erased. -/
theorem size_foldl_erase {α : Type} {s : Store α} {l : List Key} (hl : l.Nodup)
    (hlive : ∀ k ∈ l, k ∈ s) : (l.foldl Store.erase s).size + l.length = s.size := by
  induction l generalizing s with
  | nil => rfl
  | cons j l ih =>
    obtain ⟨hj, hl⟩ := List.nodup_cons.1 hl
    have hrest : ∀ k ∈ l, k ∈ s.erase j := fun k hk =>
      Store.mem_erase.2 ⟨ne_of_mem_of_not_mem hk hj, hlive k (List.mem_cons_of_mem j hk)⟩
    rw [List.foldl_cons, List.length_cons, ← Nat.add_assoc, ih hl hrest]
    exact Store.size_erase (hlive j List.mem_cons_self)

/-- The forest without a node and all below it. -/
def prune (f : Forest) (node : Key) : Forest :=
  ((f.unlink node).preorder node).foldl Store.erase (f.unlink node)

/-- Fields of the nodes that stay are those from before. -/
theorem bind_get?_prune (field : Links → Option Key)
    (hk : k ∉ (f.unlink node).preorder node) :
    ((f.prune node).get? k).bind field = ((f.unlink node).get? k).bind field := by
  rw [prune, get?_foldl_erase, if_neg hk]

/-- What stands right of a gap stays, unless the key that the gap is read from is pruned. -/
theorem rightOf_prune {q : Key} {y : Option Key}
    (hy : y.getD q ∉ (f.unlink node).preorder node) :
    (f.prune node).rightOf q y = (f.unlink node).rightOf q y := by
  cases y with
  | none => exact bind_get?_prune Links.first hy
  | some x => exact bind_get?_prune Links.next hy

/-- What stands left of a gap stays, unless the key that the gap is read from is pruned. -/
theorem leftOf_prune {q : Key} {y : Option Key}
    (hy : y.getD q ∉ (f.unlink node).preorder node) :
    (f.prune node).leftOf q y = (f.unlink node).leftOf q y := by
  cases y with
  | none => exact bind_get?_prune Links.last hy
  | some x => exact bind_get?_prune Links.prev hy

namespace WellFormed

variable (h : f.WellFormed)

include h

/-- Taking a node from its parent does not change the order of the tree below it. -/
theorem preorder_unlink (node : Key) :
    (f.unlink node).preorder node = f.preorder node := by
  by_cases hnode : node ∈ f
  · apply h.preorder_congr (h.unlink node) hnode fun k => mem_unlink
    intro k hk
    have hout : node ∉ f.children k := by
      intro hmem
      exact h.rooted.not_within_parent (h.mem_children_iff.1 hmem) hk
    rw [h.children_unlink, List.erase_of_not_mem hout]
  · rw [preorder_of_notMem hnode, preorder_of_notMem fun hmem => hnode (mem_unlink.1 hmem)]

/-- What goes with a node is what lies within it. -/
theorem mem_pruned_iff :
    k ∈ (f.unlink node).preorder node ↔ node ∈ f ∧ f.Within node k := by
  rw [(h.unlink node).mem_preorder_iff, mem_unlink, within_unlink_iff]

/-- Live after pruning is what was so before and is not within the pruned tree. -/
theorem mem_prune_iff : k ∈ f.prune node ↔ k ∈ f ∧ ¬ f.Within node k := by
  rw [Store.mem_iff_isSome_get?, prune, get?_foldl_erase]
  by_cases hk : k ∈ (f.unlink node).preorder node
  · simp [hk, (h.mem_pruned_iff.1 hk).2]
  · rw [if_neg hk, ← Store.mem_iff_isSome_get?, mem_unlink]
    rw [h.mem_pruned_iff] at hk
    refine ⟨fun hmem => ⟨hmem, fun hw => hk ⟨?_, hw⟩⟩, fun hmem => hmem.1⟩
    exact h.rooted.top_mem hmem hw

/-- What goes with a node is all of the tree that the node is the root of once it is unlinked. -/
theorem pruned_closed {c q : Key} (hq : (f.unlink node).parent c = some q) :
    q ∈ (f.unlink node).preorder node ↔ c ∈ (f.unlink node).preorder node := by
  have hu := h.unlink node
  rw [hu.mem_preorder_iff, hu.mem_preorder_iff]
  refine and_congr_right fun _ => ⟨fun hw => hw.child hq, ?_⟩
  intro hw
  rcases within_iff.1 hw with rfl | ⟨q', hq', hw'⟩
  · simp [parent_unlink] at hq
  · exact Option.mem_unique hq' hq ▸ hw'

/-- A node that stays keeps its parent. -/
theorem parent_prune (hk : ¬ f.Within node k) : (f.prune node).parent k = f.parent k := by
  have hout : k ∉ (f.unlink node).preorder node := fun hmem => hk (h.mem_pruned_iff.1 hmem).2
  have hne : k ≠ node := fun e => hk (e ▸ within_refl f k)
  calc (f.prune node).parent k = (f.unlink node).parent k := bind_get?_prune Links.parent hout
    _ = f.parent k := parent_unlink_of_ne hne

/-- Parents after pruning are those that the nodes left had once the top was unlinked. -/
theorem parent_prune_le {c q : Key} (hq : (f.prune node).parent c = some q) :
    (f.unlink node).parent c = some q ∧ c ∉ (f.unlink node).preorder node := by
  by_cases hc : c ∈ (f.unlink node).preorder node
  · have hdead : c ∉ f.prune node := fun hmem =>
      (h.mem_prune_iff.1 hmem).2 (h.mem_pruned_iff.1 hc).2
    rw [parent_of_notMem hdead] at hq
    cases hq
  · have hsame : (f.prune node).parent c = (f.unlink node).parent c :=
      bind_get?_prune Links.parent hc
    exact ⟨hsame ▸ hq, hc⟩

/-- No link of a pruned node is left. -/
theorem field_of_pruned (field : Links → Option Key)
    (hk : k ∈ (f.unlink node).preorder node) : ((f.prune node).get? k).bind field = none := by
  have hdead : k ∉ f.prune node := fun hmem =>
    (h.mem_prune_iff.1 hmem).2 (h.mem_pruned_iff.1 hk).2
  rw [Store.get?_eq_none hdead]
  rfl

/-- The ends of a gap in a list that stays are not pruned. -/
theorem end_not_pruned {q : Key} (hq : q ∉ (f.unlink node).preorder node) {y : Option Key}
    (hy : ∀ x, y = some x → x ∈ (f.unlink node).children q) :
    y.getD q ∉ (f.unlink node).preorder node := by
  cases y with
  | none => exact hq
  | some x =>
    have hx := (h.unlink node).mem_children_iff.1 (hy x rfl)
    exact fun hmem => hq ((h.pruned_closed hx).2 hmem)

/-- The lists of children that the links thread after pruning. -/
theorem threads_prune : (f.prune node).Threads fun q =>
    if q ∈ (f.unlink node).preorder node then [] else (f.children q).erase node := by
  have hu := h.unlink node
  -- A node that is pruned lists nothing any more, and one that stays lists what it listed before,
  -- because the tree that is pruned hangs together with the rest nowhere.
  constructor
  case nodup =>
    intro q
    split
    · exact List.nodup_nil
    · exact (h.nodup_children q).erase node
  case mem_iff =>
    intro q k
    by_cases hq : q ∈ (f.unlink node).preorder node
    · rw [if_pos hq]
      apply iff_of_false (by simp)
      intro hk
      obtain ⟨hk, hout⟩ := h.parent_prune_le hk
      exact hout ((h.pruned_closed hk).1 hq)
    · rw [if_neg hq, ← h.children_unlink, hu.mem_children_iff]
      refine ⟨?_, fun hk => (h.parent_prune_le hk).1⟩
      intro hk
      have hout : k ∉ (f.unlink node).preorder node := fun hmem =>
        hq ((h.pruned_closed hk).2 hmem)
      exact (bind_get?_prune Links.parent hout).trans hk
  case right =>
    intro q a b hcut
    by_cases hq : q ∈ (f.unlink node).preorder node
    · rw [if_pos hq] at hcut
      obtain ⟨rfl, rfl⟩ := List.append_eq_nil_iff.1 hcut.symm
      exact h.field_of_pruned Links.first hq
    · rw [if_neg hq, ← h.children_unlink] at hcut
      rw [rightOf_prune]
      · exact hu.threads.right hcut
      · exact h.end_not_pruned hq fun x hx => by simp [hcut, List.mem_of_getLast? hx]
  case left =>
    intro q a b hcut
    by_cases hq : q ∈ (f.unlink node).preorder node
    · rw [if_pos hq] at hcut
      obtain ⟨rfl, rfl⟩ := List.append_eq_nil_iff.1 hcut.symm
      exact h.field_of_pruned Links.last hq
    · rw [if_neg hq, ← h.children_unlink] at hcut
      rw [leftOf_prune]
      · exact hu.threads.left hcut
      · exact h.end_not_pruned hq fun x hx => by simp [hcut, List.mem_of_head? hx]
  case alone =>
    intro k hk
    by_cases hq : k ∈ (f.unlink node).preorder node
    · exact ⟨h.field_of_pruned Links.prev hq, h.field_of_pruned Links.next hq⟩
    · have hroot : (f.unlink node).parent k = none :=
        (bind_get?_prune Links.parent hq).symm.trans hk
      have hprev : (f.prune node).prev k = (f.unlink node).prev k :=
        bind_get?_prune Links.prev hq
      have hnext : (f.prune node).next k = (f.unlink node).next k :=
        bind_get?_prune Links.next hq
      rw [hprev, hnext]
      exact hu.threads.alone hroot

/-- A well-formed forest stays so when a tree is pruned. -/
theorem prune (node : Key) : (f.prune node).WellFormed := by
  refine h.threads_prune.wellFormed (sound_foldl_erase (sound_unlink h.sound) _)
    ((h.unlink node).rooted.of_parent_le (fun c q hq => (h.parent_prune_le hq).1) ?_)
  intro c q hq
  obtain ⟨hparent, hout⟩ := h.parent_prune_le hq
  refine h.mem_prune_iff.2 ⟨mem_unlink.1 ((h.unlink node).rooted.parent_mem hparent), ?_⟩
  intro hw
  have hclosed := (h.pruned_closed hparent).1 (h.mem_pruned_iff.2 ⟨?_, hw⟩)
  · exact hout hclosed
  · exact h.rooted.top_mem (mem_unlink.1 ((h.unlink node).rooted.parent_mem hparent)) hw

/-- Pruning takes a node out of the list that it stands in. -/
theorem children_prune {q : Key} (hq : ¬ f.Within node q) :
    (f.prune node).children q = (f.children q).erase node := by
  rw [h.threads_prune.children_eq, if_neg fun hmem => hq (h.mem_pruned_iff.1 hmem).2]

/-- With a node go as many as its preorder lists. -/
theorem size_prune (node : Key) : (f.prune node).size + (f.preorder node).length = f.size := by
  have hu := h.unlink node
  have hsize : (f.unlink node).size = f.size :=
    unlink_keeps (P := fun g => g.size = f.size) (fun g k m hg => by rwa [Store.size_modify]) rfl
  rw [← h.preorder_unlink, Forest.prune, ← hsize]
  refine size_foldl_erase (hu.nodup_preorder node) ?_
  intro k hk
  obtain ⟨hnode, hw⟩ := hu.mem_preorder_iff.1 hk
  exact hw.mem hnode

end WellFormed

end Forest

end WindowForest
