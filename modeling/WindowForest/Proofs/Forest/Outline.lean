import WindowForest.Proofs.Forest.Run

/-!
# Outlines

An outline is a forest without links: a table that keeps, for each live key, the
list of its children. What the operations on trees mean is said on outlines,
where a node is simply taken from one list and put into another.

The main statement (`Tree.Run.refines_outline`) is that the linked forest shows
the same outline as the run carried out on outlines, after any run, and that its
links are consistent in every state of the run: the children of a node are read
alike from both ends, every node is listed once by its parent and by no other,
and no node is above itself.
-/

set_option autoImplicit false

namespace WindowForest

/-- An ordered forest: the children of each node, and `none` for a key that names no node. -/
@[ext] structure Outline where
  lists : Key → Option (List Key)

namespace Outline

/-- The outline without nodes. -/
def empty : Outline := ⟨fun _ => none⟩

/-- Whether `k` is listed by `p`. -/
def Lists (o : Outline) (p k : Key) : Prop := ∃ l, o.lists p = some l ∧ k ∈ l

/-- Whether `k` is `top` or one of its descendants. -/
def Within (o : Outline) (top k : Key) : Prop := Relation.ReflTransGen o.Lists top k

/-- A new root without children. -/
def create (o : Outline) (node : Key) : Outline :=
  ⟨Function.update o.lists node (some [])⟩

/-- Makes a node a root: no list has it any more, and its own list stays. -/
def uproot (o : Outline) (node : Key) : Outline :=
  ⟨fun k => (o.lists k).map (·.erase node)⟩

/-- Takes a live node out of its list and puts it into the list of `parent`, at the position `pos`
or, if the list is shorter, at its end. Under a missing parent the node is left a root. -/
def place (o : Outline) (node parent : Key) (pos : Nat) : Outline :=
  match o.lists node, (o.uproot node).lists parent with
  | none, _ => o
  | some _, none => o.uproot node
  | some _, some l =>
    ⟨Function.update (o.uproot node).lists parent (some (l.insertIdx (min pos l.length) node))⟩

open Classical in
/-- Deletes a node and its descendants, and nothing else. -/
noncomputable def remove (o : Outline) (node : Key) : Outline :=
  ⟨fun k => if o.Within node k then none else (o.uproot node).lists k⟩

/-- What a step of a run means on outlines. -/
noncomputable def apply (o : Outline) : Edit → Outline
  | .create node => o.create node
  | .place node parent pos => o.place node parent pos
  | .uproot node => o.uproot node
  | .remove node => o.remove node

end Outline

namespace Forest

variable {f : Forest} {k node p : Key}

/-- The outline that the links of a forest show. -/
def outline (f : Forest) : Outline := ⟨fun k => if k ∈ f then some (f.children k) else none⟩

/-- The outline lists the children of a live node. -/
theorem lists_outline_of_mem (hk : k ∈ f) : f.outline.lists k = some (f.children k) := if_pos hk

/-- The outline lists nothing under a key that names no node. -/
theorem lists_outline_of_notMem (hk : k ∉ f) : f.outline.lists k = none := if_neg hk

/-- The forest without nodes shows the outline without nodes. -/
theorem outline_empty : outline ∅ = Outline.empty := by
  ext1
  funext k
  exact lists_outline_of_notMem (Store.notMem_empty k)

/-- What must hold of the links for the children of a node to be a list at all. -/
structure Consistent (f : Forest) : Prop where
  /-- From the first child on, the links lead through the children and no further. -/
  forward : ∀ p, Trail f.next (f.first p) (f.children p) none
  /-- From the last child back, the links lead through the children and no further. -/
  backward : ∀ p, Trail f.prev (f.last p) (f.childrenFromLast p) none
  /-- The children are the same from either end. -/
  both_ends : ∀ p, f.children p = (f.childrenFromLast p).reverse
  /-- A node is listed by its parent and by no other node. -/
  listed_iff : ∀ p k, k ∈ f.children p ↔ f.parent k = some p
  /-- No node is listed twice. -/
  listed_once : ∀ p, (f.children p).Nodup
  /-- Nodes and parents are live. -/
  live : ∀ p k, f.parent k = some p → k ∈ f ∧ p ∈ f
  /-- No node is a proper ancestor of itself. -/
  acyclic : ∀ k, ¬ Relation.TransGen (fun p c => f.parent c = some p) k k
  /-- A node is found at its index, and has no other. -/
  index : ∀ p k i, f.childAt p i = some k ↔ f.parent k = some p ∧ f.indexInParent k = some i

/-- In a list without repetitions, looking up a position and searching for a node are inverse. -/
theorem getElem?_eq_some_iff_idxOf? {l : List Key} (hl : l.Nodup) {i : Nat} :
    l[i]? = some k ↔ l.idxOf? k = some i := by
  induction l generalizing i with
  | nil => simp
  | cons j l ih =>
    obtain ⟨hj, hl⟩ := List.nodup_cons.1 hl
    rw [List.idxOf?_cons]
    by_cases hjk : j = k
    · subst hjk
      cases i with
      | zero => simp
      | succ i =>
        have hout : l[i]? ≠ some j := fun h => hj (List.mem_of_getElem? h)
        simp [hout]
    · cases i with
      | zero => simp [hjk]
      | succ i => simp [hjk, ih hl]

namespace WellFormed

variable (h : f.WellFormed)

include h

/-- The links of a well-formed forest are consistent. -/
theorem consistent : f.Consistent where
  forward := h.threads.trail_next
  backward p := by
    rw [h.threads.childrenFromLast_eq]
    exact h.threads.trail_prev p
  both_ends p := by rw [h.threads.childrenFromLast_eq, List.reverse_reverse]
  listed_iff p k := h.mem_children_iff
  listed_once := h.nodup_children
  live p k hp := ⟨mem_of_parent hp, h.rooted.parent_mem hp⟩
  acyclic := h.rooted.acyclic
  index p k i := by
    unfold childAt indexInParent
    rw [getElem?_eq_some_iff_idxOf? (h.nodup_children p)]
    constructor
    · intro hi
      have hmem : k ∈ f.children p :=
        List.mem_of_getElem? ((getElem?_eq_some_iff_idxOf? (h.nodup_children p)).2 hi)
      have hp := h.mem_children_iff.1 hmem
      exact ⟨hp, by rw [hp]; exact hi⟩
    · rintro ⟨hp, hi⟩
      rw [hp] at hi
      exact hi

/-! ## One step of a run -/

/-- The outline lists a node under its parent and nowhere else. -/
theorem lists_outline_iff : f.outline.Lists p k ↔ f.parent k = some p := by
  constructor
  · rintro ⟨l, hl, hk⟩
    by_cases hp : p ∈ f
    · rw [lists_outline_of_mem hp] at hl
      exact h.mem_children_iff.1 (Option.some.inj hl ▸ hk)
    · rw [lists_outline_of_notMem hp] at hl
      cases hl
  · intro hp
    exact ⟨_, lists_outline_of_mem (h.rooted.parent_mem hp), h.mem_children_iff.2 hp⟩

/-- The outline shows the same trees as the links. -/
theorem within_outline_iff {top : Key} : f.outline.Within top k ↔ f.Within top k := by
  have hlists : f.outline.Lists = fun p c => f.parent c = some p := by
    funext p c
    exact propext h.lists_outline_iff
  rw [Outline.Within, hlists]
  rfl

/-- A new node shows as a new root without children. -/
theorem outline_sprout : f.sprout.outline = f.outline.create f.nextKey := by
  ext1
  funext k
  show f.sprout.outline.lists k = Function.update f.outline.lists f.nextKey (some []) k
  by_cases hk : k = f.nextKey
  · subst hk
    rw [Function.update_self, lists_outline_of_mem (mem_sprout.2 (.inl rfl)),
      h.children_sprout, h.children_of_notMem h.sound.nextKey_notMem]
  · rw [Function.update_of_ne hk]
    simp [outline, mem_sprout, hk, h.children_sprout]

/-- Unlinking a node shows as uprooting it. -/
theorem outline_unlink (node : Key) : (f.unlink node).outline = f.outline.uproot node := by
  ext1
  funext k
  show (f.unlink node).outline.lists k = (f.outline.lists k).map (·.erase node)
  by_cases hk : k ∈ f
  · rw [lists_outline_of_mem (mem_unlink.2 hk), lists_outline_of_mem hk, h.children_unlink]
    rfl
  · rw [lists_outline_of_notMem fun hk' => hk (mem_unlink.1 hk'), lists_outline_of_notMem hk]
    rfl

/-- Moving a node shows as placing it. -/
theorem outline_move (hbelow : node ∈ f → ¬ f.Within node p) (pos : Nat) :
    (f.move node p pos).outline = f.outline.place node p pos := by
  unfold Outline.place
  rw [← h.outline_unlink]
  by_cases hmem : node ∈ f
  · rw [lists_outline_of_mem hmem]
    by_cases hp : p ∈ f
    · rw [lists_outline_of_mem (mem_unlink.2 hp)]
      ext1
      funext k
      show (f.move node p pos).outline.lists k = Function.update (f.unlink node).outline.lists p _ k
      by_cases hk : k = p
      · rw [hk, Function.update_self, lists_outline_of_mem (mem_move.2 hp),
          h.children_move hmem hp (hbelow hmem), if_pos rfl, h.children_unlink]
      · rw [Function.update_of_ne hk]
        simp only [outline, mem_move, mem_unlink, h.children_move hmem hp (hbelow hmem),
          if_neg hk, h.children_unlink]
    · rw [lists_outline_of_notMem fun hp' => hp (mem_unlink.1 hp'), move_of_missing (.inr hp)]
  · rw [lists_outline_of_notMem hmem, move_of_missing (.inl hmem),
      unlink_of_root (parent_of_notMem hmem)]

/-- Pruning a tree shows as removing its root. -/
theorem outline_prune (node : Key) : (f.prune node).outline = f.outline.remove node := by
  ext1
  funext k
  unfold Outline.remove
  rw [← h.outline_unlink]
  dsimp only
  by_cases hk : f.Within node k
  · rw [if_pos (h.within_outline_iff.2 hk)]
    exact lists_outline_of_notMem fun hmem => (h.mem_prune_iff.1 hmem).2 hk
  · rw [if_neg fun hw => hk (h.within_outline_iff.1 hw)]
    simp only [outline, h.mem_prune_iff, mem_unlink, h.children_prune hk, h.children_unlink, hk,
      not_false_eq_true, and_true]

end WellFormed

end Forest

namespace Tree

variable {σ : Type} [Observer σ] {t u : Tree σ}

/-- A step on the linked forest does on its outline what the step means. -/
theorem Step.outline {e : Edit} (step : Step t e u) (h : t.forest.WellFormed) :
    u.forest.outline = t.forest.outline.apply e := by
  cases step with
  | create =>
    rw [forest_create]
    exact h.outline_sprout
  | place node parent pos apart =>
    rw [forest_place]
    exact h.outline_move apart pos
  | uproot node =>
    rw [forest_uproot]
    exact h.outline_unlink node
  | remove node =>
    rw [forest_remove]
    exact h.outline_prune node

/-- A run on the linked forest does on its outline what its steps mean one after the other. -/
theorem Run.outline {start : Tree σ} {edits : List Edit} (run : Run start edits t)
    (h : start.forest.WellFormed) :
    t.forest.outline = edits.foldl Outline.apply start.forest.outline := by
  induction run with
  | start => rfl
  | step hrun hstep ih =>
    rw [hstep.outline (hrun.wellFormed h), ih, List.foldl_append]
    rfl

/-- After any run from the empty forest, the links show the outline that the run leads to on
outlines, the key of the next new node is not in use, and the links are consistent. -/
theorem Run.refines_outline {observer : σ} {edits : List Edit} (run : Run { observer } edits t) :
    t.forest.outline = edits.foldl Outline.apply Outline.empty ∧ t.create.1 ∉ t.forest ∧
      t.forest.Consistent := by
  have hstart : ({ observer } : Tree σ).forest.WellFormed := Forest.wellFormed_empty
  have hwell := run.wellFormed hstart
  refine ⟨?_, hwell.sound.nextKey_notMem, hwell.consistent⟩
  rw [run.outline hstart]
  exact congrArg (fun o => edits.foldl Outline.apply o) Forest.outline_empty

/-- One node goes under another, that one under a third, a dead key is placed without effect, and
the node in the middle is removed together with the one below it. -/
theorem refines_outline_removed_pair :
    ∃ t : Tree Unit,
      Run { observer := () }
        [.create ⟨1, 1⟩, .create ⟨2, 1⟩, .create ⟨3, 1⟩, .place ⟨3, 1⟩ ⟨2, 1⟩ 9,
          .place ⟨2, 1⟩ ⟨1, 1⟩ 0, .place ⟨4, 1⟩ ⟨1, 1⟩ 0, .remove ⟨2, 1⟩] t ∧
      t.forest.keys = [⟨1, 1⟩] ∧ t.forest.children ⟨1, 1⟩ = [] ∧ t.create.1 ∉ t.forest ∧
      t.forest.Consistent := by
  have first : Run ({ observer := () } : Tree Unit) [] { observer := () } := .start
  have run := first
    |>.step (.create _) |>.step (.create _) |>.step (.create _)
    |>.step (.place_root _ ⟨3, 1⟩ ⟨2, 1⟩ 9 (by decide) (by decide))
    |>.step (.place_root _ ⟨2, 1⟩ ⟨1, 1⟩ 0 (by decide) (by decide))
    |>.step (.place _ ⟨4, 1⟩ ⟨1, 1⟩ 0 fun hmem => absurd hmem (by decide))
    |>.step (.remove _ ⟨2, 1⟩)
  obtain ⟨-, hfresh, hconsistent⟩ := run.refines_outline
  exact ⟨_, run, by decide, by decide, hfresh, hconsistent⟩

end Tree

end WindowForest
