import WindowForest.Proofs.Forest.Determined
import WindowForest.Proofs.Hierarchy.Teardown

/-!
# Removal in one go

A container is taken down node by node, leaves first. The tree by itself knows a shorter
way: it takes the top from its parent and then erases what is below it, parents first and
without unlinking anything. On the way the two see different things, since the first one
passes pointers on within the tree that goes and the second one erases nodes that others
still point to. In the end all of this is gone, and nobody who stays can tell which of the
two it was (`Reachable.oneShot`).

The proof compares what the two leave container by container (`Untouched`), since
hierarchies that are in order have no other parts than those that belong to a container
(`InOrder.records_eq`, `InOrder.live_eq`). Only the slots that were given back are stacked
in a different order.
-/

set_option autoImplicit false

namespace WindowForest

/-! ## Slots that are given back -/

namespace Store

variable {α : Type} {s : Store α} {k : Key} {l : List Key}

/-- Erasing an entry opens no new slot. -/
theorem unused_erase (s : Store α) (k : Key) : (s.erase k).unused = s.unused := by
  unfold erase
  split <;> rfl

/-- The slot of an erased entry waits on top of the others, for its next occupant. -/
theorem freed_erase (hk : k ∈ s) : (s.erase k).freed = k.successor :: s.freed := by
  unfold erase
  rw [if_pos hk]

/-- Erasing any number of entries opens no new slot. -/
theorem unused_foldl_erase (s : Store α) (l : List Key) :
    (l.foldl erase s).unused = s.unused := by
  induction l generalizing s with
  | nil => rfl
  | cons k l ih => rw [List.foldl_cons, ih, unused_erase]

end Store

/-- The slots of the listed keys, stacked as they are given back one after the other. -/
def stacked (l : List Key) : List Key := (l.map Key.successor).reverse

/-- The slot that is given back first lies below the others of its list. -/
theorem stacked_cons (k : Key) (l : List Key) (rest : List Key) :
    stacked (k :: l) ++ rest = stacked l ++ k.successor :: rest := by
  unfold stacked
  rw [List.map_cons, List.reverse_cons, List.append_assoc]
  rfl

/-- Whatever the order in which nodes go, the same slots are stacked. -/
theorem stacked_perm {l m : List Key} (h : l.Perm m) : (stacked l).Perm (stacked m) := by
  have hslots : (l.map Key.successor).Perm (m.map Key.successor) := h.map _
  unfold stacked
  exact (List.reverse_perm _).trans (hslots.trans (List.reverse_perm _).symm)

/-- Entries that are erased one after the other give back a slot each. -/
theorem Store.freed_foldl_erase {α : Type} {s : Store α} {l : List Key} (hl : l.Nodup)
    (hlive : ∀ k ∈ l, k ∈ s) : (l.foldl erase s).freed = stacked l ++ s.freed := by
  induction l generalizing s with
  | nil => rfl
  | cons j l ih =>
    obtain ⟨hj, hl⟩ := List.nodup_cons.1 hl
    have hrest : ∀ k ∈ l, k ∈ s.erase j := fun k hk =>
      mem_erase.2 ⟨ne_of_mem_of_not_mem hk hj, hlive k (List.mem_cons_of_mem j hk)⟩
    rw [List.foldl_cons, ih hl hrest, freed_erase (hlive j List.mem_cons_self), stacked_cons]

namespace Forest

variable {f : Forest} {node : Key}

/-- Removing a tree opens no new slot. -/
theorem unused_prune (f : Forest) (node : Key) : (f.prune node).unused = f.unused := by
  rw [Forest.prune, Store.unused_foldl_erase, unused_unlink]

/-- A removed tree gives back its slots parents first. -/
theorem WellFormed.freed_prune (h : f.WellFormed) (node : Key) :
    (f.prune node).freed = stacked (f.preorder node) ++ f.freed := by
  have hlive : ∀ k ∈ f.preorder node, k ∈ f.unlink node := by
    intro k hk
    obtain ⟨hnode, hw⟩ := h.mem_preorder_iff.1 hk
    exact mem_unlink.2 (hw.mem hnode)
  rw [Forest.prune, h.preorder_unlink, Store.freed_foldl_erase (h.nodup_preorder node) hlive,
    freed_unlink]

end Forest

namespace Hierarchy

variable {η : Type} {h h' : Hierarchy η} {node top k : Key} {l : List Key}

/-- Taking a container down leaves first comes to the same as removing it in one go, but for the
order in which slots will be handed out again. -/
structure OneShot (h : Hierarchy η) (top : Key) : Prop where
  /-- The same nodes are left, with the same links. -/
  live : (h.removeSubtree top ()).hierarchy.forest.live = (h.prune top).forest.live
  /-- All tables are the same, and so are the pointers to last active children. -/
  records : (h.removeSubtree top ()).hierarchy.records = (h.prune top).records
  settings : (h.removeSubtree top ()).hierarchy.settings = (h.prune top).settings
  unused : (h.removeSubtree top ()).hierarchy.forest.unused = (h.prune top).forest.unused
  /-- The same slots wait to be handed out again. -/
  freed : (h.removeSubtree top ()).hierarchy.forest.freed.Perm (h.prune top).forest.freed
  /-- On top of those that waited before come the slots of the tree, in the one or the other
  order. -/
  order : (h.removeSubtree top ()).hierarchy.forest.freed =
      stacked (h.forest.postorder top) ++ h.forest.freed ∧
    (h.prune top).forest.freed = stacked (h.forest.preorder top) ++ h.forest.freed

/-! ## Hierarchies that agree on every container -/

/-- What is kept from one hierarchy to another is the same seen from the other one. -/
theorem Kept.symm (hk : Kept h h' k) : Kept h' h k where
  parent := hk.parent.symm
  container := hk.container.symm
  hook := hk.hook.symm

/-- An untouched container is of the same kind as before. -/
theorem Untouched.kindOf (hk : Untouched h h' k) : h'.kindOf k = h.kindOf k := by
  rw [kindOf_congr hk.container]

namespace InOrder

variable (ho : h.InOrder) (ho' : h'.InOrder)

include ho ho'

/-- Keys that name nothing in either hierarchy make no difference. -/
theorem untouched_of_notMem (hk : k ∉ h.forest) (hk' : k ∉ h'.forest) : Untouched h h' k where
  parent := by rw [Forest.parent_of_notMem hk, Forest.parent_of_notMem hk']
  container := by
    rw [ho.arranged.container?_of_notMem hk, ho'.arranged.container?_of_notMem hk']
  hook := by
    rw [Std.ExtTreeMap.getElem?_eq_none fun hmem => hk (ho.mem_of_hook hmem),
      Std.ExtTreeMap.getElem?_eq_none fun hmem => hk' (ho'.mem_of_hook hmem)]
  children := by
    rw [ho.arranged.wellFormed.children_of_notMem hk,
      ho'.arranged.wellFormed.children_of_notMem hk']
  lastActive := by
    have hnone := (ho.focused.upheld ho.arranged.wellFormed).removed k hk
    have hnone' := (ho'.focused.upheld ho'.arranged.wellFormed).removed k hk'
    exact hnone'.trans hnone.symm

section

variable (hsame : ∀ k, Untouched h h' k)

include hsame

/-- Hierarchies that agree on every container have the same nodes with the same links. -/
theorem live_eq : h'.forest.live = h.forest.live := by
  have hlive : ∀ k, k ∈ h'.forest ↔ k ∈ h.forest := by
    intro k
    rw [← ho'.arranged.live_iff, ← ho.arranged.live_iff, contains_congr (hsame k).container]
  have hget := ho.arranged.wellFormed.get?_eq ho'.arranged.wellFormed
    (fun p => (hsame p).children) hlive
  exact Std.ExtTreeMap.ext_getElem? fun {k} => hget k

/-- The tables of displays and tasks follow from the kinds of the containers. -/
theorem records_eq : h'.records = h.records := by
  have hcontainers : h'.records.containers = h.records.containers :=
    Std.ExtTreeMap.ext_getElem? fun {k} => (hsame k).container
  have hhooks : h'.records.hooks = h.records.hooks :=
    Std.ExtTreeMap.ext_getElem? fun {k} => (hsame k).hook
  have hpointers : h'.records.focus.pointers = h.records.focus.pointers :=
    Std.ExtTreeMap.ext_getElem? fun {k} => (hsame k).lastActive
  have hdisplays : h'.records.displays = h.records.displays := by
    ext id k
    have hdisplay : h.display? id = some k ↔ h'.kindOf k = some (.display id) := by
      rw [(hsame k).kindOf]
      exact ho.display?_eq_some_iff
    exact ho'.display?_eq_some_iff.trans hdisplay.symm
  have htasks : h'.records.tasks = h.records.tasks := by
    ext id k
    have htask : h.task? id = some k ↔ ∃ user, h'.kindOf k = some (.task id user) := by
      rw [(hsame k).kindOf]
      exact ho.task?_eq_some_iff
    exact ho'.task?_eq_some_iff.trans htask.symm
  have hfocus : h'.records.focus = h.records.focus := congrArg Focus.mk hpointers
  -- There are no other tables than these five.
  generalize h'.records = r' at *
  generalize h.records = r at *
  cases r
  cases r'
  simp_all

end

end InOrder

/-! ## The two ways -/

/-- Removing any number of containers opens no new slot. -/
theorem unused_removeEach (h : Hierarchy η) (l : List Key) :
    (h.removeEach l).1.forest.unused = h.forest.unused := by
  induction l generalizing h with
  | nil => rfl
  | cons k l ih =>
    have hfirst : (h.prune k).forest.unused = h.forest.unused := by
      rw [forest_prune, Forest.unused_prune]
    rw [← hfirst]
    exact ih (h.prune k)

/-- Removing any number of containers leaves the settings. -/
theorem settings_removeEach (h : Hierarchy η) (l : List Key) :
    (h.removeEach l).1.settings = h.settings := by
  induction l generalizing h with
  | nil => rfl
  | cons k l ih => exact ih (h.prune k)

/-- Nodes that go leaves first give back one slot each. -/
theorem Arranged.freed_removeEach (ha : h.Arranged) (hl : h.forest.LeavesFirst l) :
    (h.removeEach l).1.forest.freed = stacked l ++ h.forest.freed := by
  induction l generalizing h with
  | nil => rfl
  | cons j l ih =>
    have hf := ha.wellFormed
    have hone : (h.prune j).forest.freed = j.successor :: h.forest.freed := by
      rw [forest_prune, hf.freed_prune, hf.preorder_of_childless (hl.live j List.mem_cons_self)
        (hf.children_of_leavesFirst hl)]
      rfl
    rw [stacked_cons, ← hone]
    exact ih (ha.prune j) (ha.leavesFirst_prune hl)

/-- What stays cannot tell the two ways apart. -/
theorem Arranged.untouched_removeEach_prune (ha : h.Arranged) (htop : top ∈ h.forest)
    (hk : ¬ h.forest.Within top k) :
    Untouched (h.prune top) (h.removeEach (h.forest.postorder top)).1 k := by
  have hf := ha.wellFormed
  have hout : k ∉ h.forest.postorder top := fun hmem => hk (hf.mem_postorder_iff.1 hmem).2
  have hkept := ha.kept_removeEach_of_notMem (hf.leavesFirst_postorder top) hout
  obtain ⟨hchildren, hactive⟩ := ha.noticed_postorder htop hk
  refine ⟨(ha.kept_prune hk).symm.trans hkept, ?_, hactive.trans (ha.lastActive_prune hk).symm⟩
  rw [hchildren, ha.children_prune hk]
  split
  · rfl
  · next hp => rw [List.erase_of_not_mem fun hmem => hp (hf.mem_children_iff.1 hmem)]

/-- In a hierarchy that is in order, both ways to remove a tree come to the same. -/
theorem oneShot_of_inOrder (ho : h.InOrder) (htop : h.contains top) : h.OneShot top := by
  have ha := ho.arranged
  have hf := ha.wellFormed
  have hmem := (ha.live_iff top).1 htop
  have hl := hf.leavesFirst_postorder top
  have hprune : (h.prune top).InOrder := ho.alteration (.pruned h top)
  have hremove : (h.removeEach (h.forest.postorder top)).1.InOrder :=
    ho.altered (altered_removeEach h _)
  have hsame : ∀ k, Untouched (h.prune top) (h.removeEach (h.forest.postorder top)).1 k := by
    intro k
    by_cases hk : h.forest.Within top k
    · refine hprune.untouched_of_notMem hremove ?_ ?_
      · rw [forest_prune, hf.mem_prune_iff]
        exact fun hin => hin.2 hk
      · rw [ha.mem_removeEach hl, hf.mem_postorder_iff]
        exact fun hin => hin.2 ⟨hmem, hk⟩
    · exact ha.untouched_removeEach_prune hmem hk
  have hleaves := ha.freed_removeEach hl
  have honce : (h.prune top).forest.freed =
      stacked (h.forest.preorder top) ++ h.forest.freed := by
    rw [forest_prune, hf.freed_prune]
  exact
    { live := hprune.live_eq hremove hsame
      records := hprune.records_eq hremove hsame
      settings := settings_removeEach h _
      unused := by
        rw [forest_prune, Forest.unused_prune]
        exact unused_removeEach h _
      freed := by
        rw [honce]
        refine (List.Perm.of_eq hleaves).trans (List.Perm.append_right _ ?_)
        exact stacked_perm (hf.postorder_perm_preorder top)
      order := ⟨hleaves, honce⟩ }

/-- Whatever commands were given before, a container that is there may as well be removed in one
go. -/
theorem Reachable.oneShot [Hook η] {settings : Settings} (hr : Reachable settings h)
    (htop : h.contains top) : h.OneShot top :=
  oneShot_of_inOrder hr.inOrder htop

/-- When the stack is removed with the task in it, the slot that is handed out again first is that
of the stack or that of the task. -/
theorem oneShot_furnished :
    Reachable {} furnished ∧ furnished.contains ⟨3, 1⟩ ∧ furnished.OneShot ⟨3, 1⟩ ∧
      (furnished.removeSubtree ⟨3, 1⟩ ()).hierarchy.forest.freed = [⟨3, 3⟩, ⟨4, 3⟩] ∧
      (furnished.prune ⟨3, 1⟩).forest.freed = [⟨4, 3⟩, ⟨3, 3⟩] := by
  have hr := reachable_furnished
  have hlive : furnished.contains ⟨3, 1⟩ := by decide
  exact ⟨hr, hlive, hr.oneShot hlive, by decide, by decide⟩

end Hierarchy

end WindowForest
