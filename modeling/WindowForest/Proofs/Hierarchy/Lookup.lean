import WindowForest.Hierarchy.Command
import WindowForest.Proofs.Forest.Run

/-!
# Look-ups after a change

The operations on a hierarchy are put together from a few changes: a container
is made, placed, uprooted or removed, what is recorded for it is updated, or a
table besides the containers is. This file says, for each of these changes, what
it makes of the links, of the records of the containers and of the hooks. Later
files look things up and do not open the records.
-/

set_option autoImplicit false

namespace WindowForest

variable {η : Type}

/-! ## Records that listen to a tree -/

namespace Records

/-- A change that removes no node concerns the last active children only. -/
theorem notice_of_ne (r : Records η) (f : Forest) (e : Event) (he : e.change ≠ .removed) :
    Observer.notice r f e = { r with focus := Observer.notice r.focus f e } := by
  obtain ⟨change, node⟩ := e
  cases change with
  | removed => exact absurd rfl he
  | added => rfl
  | attached => rfl
  | detaching => rfl

/-- Dropping a node forgets its container and no other. -/
theorem containers_drop (r : Records η) (node : Key) :
    (r.drop node).containers = r.containers.erase node := by
  unfold drop
  cases hc : r.containers[node]? with
  | none =>
    apply Std.ExtTreeMap.ext_getElem?
    intro k
    simp only [hc, Std.ExtTreeMap.getElem?_erase]
    by_cases hk : node = k
    · simp [← hk, hc]
    · simp [hk]
  | some c =>
    simp only [hc]
    unfold unlist
    cases c.kind <;> rfl

/-- Dropping a node forgets its hook and no other. -/
theorem hooks_drop (r : Records η) (node : Key) :
    (r.drop node).hooks = r.hooks.erase node := by
  unfold drop
  cases hc : r.containers[node]? with
  | none => simp only [hc]
  | some c =>
    simp only [hc]
    unfold unlist
    cases c.kind <;> rfl

/-- When a node is reported removed, its container is forgotten and no other. -/
theorem containers_notice_removed (r : Records η) (f : Forest) (node : Key) :
    (Observer.notice r f ⟨.removed, node⟩).containers = r.containers.erase node :=
  containers_drop _ node

/-- When a node is reported removed, its hook is forgotten and no other. -/
theorem hooks_notice_removed (r : Records η) (f : Forest) (node : Key) :
    (Observer.notice r f ⟨.removed, node⟩).hooks = r.hooks.erase node :=
  hooks_drop _ node

end Records

namespace Tree

variable (t : Tree (Records η)) (node parent : Key) (pos : Nat)

/-- A new node concerns the last active children only. -/
theorem observer_create :
    ∃ focus, t.create.2.observer = { t.observer with focus } := by
  have hnotice := Records.notice_of_ne t.observer t.create.2.forest ⟨.added, t.create.1⟩ (by simp)
  exact ⟨_, hnotice⟩

/-- A node that leaves its parent concerns the last active children only. -/
theorem observer_uproot : ∃ focus, (t.uproot node).observer = { t.observer with focus } := by
  unfold uproot
  cases t.forest.parent node with
  | none => exact ⟨_, rfl⟩
  | some p => exact ⟨_, Records.notice_of_ne _ _ _ (by simp)⟩

/-- A node that is placed concerns the last active children only. -/
theorem observer_place :
    ∃ focus, (t.place node parent pos).observer = { t.observer with focus } := by
  unfold place
  cases t.forest.parent node with
  | none => exact ⟨_, Records.notice_of_ne _ _ _ (by simp)⟩
  | some old =>
    by_cases hold : old = parent
    · simp only [hold, if_true]
      exact ⟨_, rfl⟩
    · simp only [hold, if_false]
      exact ⟨_, rfl⟩

/-- A table that forgets removed nodes forgets all nodes of a list that is removed. -/
theorem getElem?_foldl_erase {α : Type} (table : Records η → Table α)
    (hforget : ∀ r f node, table (Observer.notice r f ⟨.removed, node⟩) = (table r).erase node)
    (l : List Key) (k : Key) :
    (table (l.foldl erase t).observer)[k]? =
      if k ∈ l then none else (table t.observer)[k]? := by
  induction l generalizing t with
  | nil => simp
  | cons j l ih =>
    rw [List.foldl_cons, ih]
    show (if k ∈ l then none else (table (Observer.notice t.observer _ _))[k]?) = _
    rw [hforget, Std.ExtTreeMap.getElem?_erase]
    by_cases hj : j = k
    · simp [hj]
    · simp [hj, Ne.symm hj]

/-- With erased nodes go their containers, and no others. -/
theorem containers_foldl_erase (l : List Key) (k : Key) :
    (l.foldl erase t).observer.containers[k]? =
      if k ∈ l then none else t.observer.containers[k]? := by
  apply t.getElem?_foldl_erase Records.containers
  exact Records.containers_notice_removed

/-- With erased nodes go their hooks, and no others. -/
theorem hooks_foldl_erase (l : List Key) (k : Key) :
    (l.foldl erase t).observer.hooks[k]? = if k ∈ l then none else t.observer.hooks[k]? := by
  apply t.getElem?_foldl_erase Records.hooks
  exact Records.hooks_notice_removed

end Tree

/-! ## Hierarchies -/

namespace Hierarchy

variable {h h' : Hierarchy η} {node k p : Key} {pos : Nat}

/-- The containers of a hierarchy are those that are recorded. -/
theorem contains_iff : h.contains k ↔ (h.container? k).isSome := by
  unfold contains container?
  rw [decide_eq_true_iff]
  exact Std.ExtTreeMap.mem_iff_isSome_getElem?

/-- What has a kind is what the hierarchy contains. -/
theorem isSome_kindOf : (h.kindOf k).isSome ↔ h.contains k := by
  rw [contains_iff, kindOf, Option.isSome_map]

/-- The kind of a container is the one that is recorded. -/
theorem kindOf_of_container? {c : Container} (hc : h.container? k = some c) :
    h.kindOf k = some c.kind := by
  rw [kindOf, hc]
  rfl

/-- A hierarchy with the same containers has the same kinds. -/
theorem kindOf_congr (hk : h'.container? k = h.container? k) : h'.kindOf k = h.kindOf k := by
  rw [kindOf, hk]
  rfl

/-- A hierarchy with the same containers has the same bounds. -/
theorem boundsOf_congr (hk : h'.container? k = h.container? k) :
    h'.boundsOf k = h.boundsOf k := by
  rw [boundsOf, hk]
  rfl

/-- A hierarchy with the same records contains the same. -/
theorem contains_congr (hk : h'.container? k = h.container? k) :
    h'.contains k = h.contains k := by
  rw [Bool.eq_iff_iff, contains_iff, contains_iff, hk]

/-- A hierarchy with the same links and kinds has the same displays. -/
theorem displayOf_congr (hforest : h'.forest = h.forest) (hkind : ∀ k, h'.kindOf k = h.kindOf k)
    (k : Key) : h'.displayOf k = h.displayOf k := by
  have hdisplay : h'.isDisplay = h.isDisplay := by
    funext j
    rw [isDisplay, hkind]
    rfl
  rw [displayOf, hforest, hdisplay]
  rfl

/-! ### Records -/

/-- A change of the records that keeps the containers keeps every container. -/
theorem container?_updateRecords {g : Records η → Records η}
    (hg : ∀ r, (g r).containers = r.containers) (k : Key) :
    (h.updateRecords g).container? k = h.container? k := by
  show (g h.records).containers[k]? = h.records.containers[k]?
  rw [hg]

/-- A change of a container leaves the hooks alone. -/
@[simp] theorem hooks_updateContainer (h : Hierarchy η) (node : Key)
    (g : Container → Container) : (h.updateContainer node g).records.hooks = h.records.hooks := rfl

/-- A change of a container changes its record and no other. -/
theorem container?_updateContainer (h : Hierarchy η) (node k : Key) (g : Container → Container) :
    (h.updateContainer node g).container? k =
      if node = k then (h.container? k).map g else h.container? k := by
  by_cases hk : node = k
  · subst hk
    rw [if_pos rfl]
    exact Std.ExtTreeMap.getElem?_modify_self
  · rw [if_neg hk]
    unfold updateContainer container? updateRecords records
    simp [Std.ExtTreeMap.getElem?_modify, hk]

/-- A change of a container that keeps its kind keeps all kinds. -/
theorem kindOf_updateContainer {g : Container → Container} (hg : ∀ c, (g c).kind = c.kind)
    (node k : Key) : (h.updateContainer node g).kindOf k = h.kindOf k := by
  rw [kindOf, container?_updateContainer]
  split
  · rw [Option.map_map]
    apply Option.map_congr
    intro c _
    exact hg c
  · rfl

/-- A change that leaves the record of a container as it is changes nothing. -/
theorem updateContainer_eq_self {g : Container → Container}
    (hg : (h.container? node).map g = h.container? node) : h.updateContainer node g = h := by
  have hsame : h.records.containers.modify node g = h.records.containers := by
    apply Std.ExtTreeMap.ext_getElem?
    intro k
    by_cases hk : node = k
    · subst hk
      rw [Std.ExtTreeMap.getElem?_modify_self]
      exact hg
    · simp [Std.ExtTreeMap.getElem?_modify, hk]
  calc h.updateContainer node g
    _ = h.updateRecords fun r => { r with containers := h.records.containers.modify node g } := rfl
    _ = h.updateRecords fun r => { r with containers := h.records.containers } := by rw [hsame]
    _ = h := rfl

/-! ### New containers -/

/-- A new container is a new node. -/
theorem forest_insertContainer (h : Hierarchy η) (c : Container) :
    (h.insertContainer c).2.forest = h.forest.sprout := rfl

/-- A new container is recorded under the next key, and no other record changes. -/
theorem container?_insertContainer (h : Hierarchy η) (c : Container) (k : Key) :
    (h.insertContainer c).2.container? k =
      if h.forest.nextKey = k then some c else h.container? k := by
  obtain ⟨focus, hfocus⟩ := h.tree.observer_create
  have hcontainers : (h.insertContainer c).2.records.containers =
      h.records.containers.insert h.forest.nextKey c := by
    show (h.tree.create.2.observer.containers).insert h.forest.nextKey c = _
    rw [hfocus]
    rfl
  rw [container?, hcontainers, Std.ExtTreeMap.getElem?_insert]
  by_cases hk : h.forest.nextKey = k
  · simp [hk]
  · simp [hk, container?]

/-! ### Moves -/

/-- A placed container is a moved node. -/
@[simp] theorem forest_place (h : Hierarchy η) (node p : Key) (pos : Nat) :
    (h.place node p pos).forest = h.forest.move node p pos :=
  h.tree.forest_place node p pos

/-- A move changes no record of a container. -/
@[simp] theorem container?_place (h : Hierarchy η) (node p : Key) (pos : Nat) (k : Key) :
    (h.place node p pos).container? k = h.container? k := by
  obtain ⟨focus, hfocus⟩ := h.tree.observer_place node p pos
  unfold container? records place
  rw [hfocus]

/-- A move changes no kind. -/
theorem kindOf_place (h : Hierarchy η) (node p : Key) (pos : Nat) (k : Key) :
    (h.place node p pos).kindOf k = h.kindOf k := by
  apply kindOf_congr
  rw [container?_place]

/-- A move changes no hook. -/
@[simp] theorem hooks_place (h : Hierarchy η) (node p : Key) (pos : Nat) :
    (h.place node p pos).records.hooks = h.records.hooks := by
  obtain ⟨focus, hfocus⟩ := h.tree.observer_place node p pos
  unfold records place
  rw [hfocus]

/-- The same members of a list have hooks in two tables that agree on them. -/
theorem filter_hooks_congr {hooks hooks' : Table η} {l : List Key}
    (hsame : ∀ k ∈ l, k ∈ hooks' ↔ k ∈ hooks) :
    l.filter (· ∈ hooks') = l.filter (· ∈ hooks) := by
  apply List.filter_congr
  intro k hk
  exact decide_eq_decide.2 (hsame k hk)

/-- Takes a container from its parent in the tree, and does nothing else. -/
def uproot (h : Hierarchy η) (node : Key) : Hierarchy η :=
  { h with tree := h.tree.uproot node }

/-- A container that leaves its parent is an unlinked node. -/
@[simp] theorem forest_uproot (h : Hierarchy η) (node : Key) :
    (h.uproot node).forest = h.forest.unlink node :=
  h.tree.forest_uproot node

/-- A container that leaves its parent changes no record of a container. -/
@[simp] theorem container?_uproot (h : Hierarchy η) (node k : Key) :
    (h.uproot node).container? k = h.container? k := by
  obtain ⟨focus, hfocus⟩ := h.tree.observer_uproot node
  unfold container? records uproot
  rw [hfocus]

/-- A container that leaves its parent changes no kind. -/
theorem kindOf_uproot (h : Hierarchy η) (node k : Key) :
    (h.uproot node).kindOf k = h.kindOf k := by
  apply kindOf_congr
  rw [container?_uproot]

/-- Removes a container and all below it from the tree, and calls no hook. -/
def prune (h : Hierarchy η) (node : Key) : Hierarchy η :=
  { h with tree := h.tree.remove node }

/-- A removed container is a pruned tree. -/
@[simp] theorem forest_prune (h : Hierarchy η) (node : Key) :
    (h.prune node).forest = h.forest.prune node :=
  h.tree.forest_remove node

/-- With a container go the records of all that is pruned. -/
theorem container?_prune (h : Hierarchy η) (node k : Key) :
    (h.prune node).container? k =
      if k ∈ (h.forest.unlink node).preorder node then none else h.container? k := by
  obtain ⟨focus, hfocus⟩ := h.tree.observer_uproot node
  unfold container? records prune Tree.remove
  rw [Tree.containers_foldl_erase, Tree.forest_uproot, hfocus]
  rfl

/-- With a container go the hooks of all that is pruned. -/
theorem hooks_prune (h : Hierarchy η) (node k : Key) :
    (h.prune node).records.hooks[k]? =
      if k ∈ (h.forest.unlink node).preorder node then none else h.records.hooks[k]? := by
  obtain ⟨focus, hfocus⟩ := h.tree.observer_uproot node
  unfold records prune Tree.remove
  rw [Tree.hooks_foldl_erase, Tree.forest_uproot, hfocus]
  rfl

/-- With a container go the records of what is within it, and no others. -/
theorem container?_prune_of_within (hf : h.forest.WellFormed) (hnode : node ∈ h.forest)
    (hk : h.forest.Within node k) : (h.prune node).container? k = none := by
  rw [container?_prune, if_pos (hf.mem_pruned_iff.2 ⟨hnode, hk⟩)]

/-- What is not within a removed container keeps its record. -/
theorem container?_prune_of_not_within (hf : h.forest.WellFormed)
    (hk : ¬ h.forest.Within node k) : (h.prune node).container? k = h.container? k := by
  rw [container?_prune, if_neg fun hmem => hk (hf.mem_pruned_iff.1 hmem).2]

/-! ### Guards -/

/-- An operation is refused and changes nothing, or its check passes and it is carried out. -/
theorem guarded_cases {α : Type} (h : Hierarchy η) (check : Except Error Unit)
    (act : Outcome η α) :
    (∃ e, check = .error e ∧ h.guarded check act = h.refuse e) ∨
      check = .ok () ∧ h.guarded check act = act := by
  cases check with
  | error e => exact .inl ⟨e, rfl, rfl⟩
  | ok _ => exact .inr ⟨rfl, rfl⟩

/-- A container that is there passes the check that it is. -/
theorem checkLive_of_contains (hnode : h.contains node) : h.checkLive node = .ok () := by
  rw [checkLive, if_pos hnode]

/-- A container that is gone is refused for that reason. -/
theorem checkLive_of_not_contains (hnode : ¬ h.contains node) :
    h.checkLive node = .error (.gone node) := by
  rw [checkLive, if_neg hnode]

/-- The check that a container is there passes exactly if it is. -/
theorem checkLive_eq_ok_iff : h.checkLive node = .ok () ↔ h.contains node := by
  by_cases hnode : h.contains node
  · simp [checkLive_of_contains hnode, hnode]
  · simp [checkLive_of_not_contains hnode, hnode]

end Hierarchy

end WindowForest
