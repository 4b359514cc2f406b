import WindowForest.Proofs.Hierarchy.Effect
import WindowForest.Proofs.Hierarchy.Signals
import WindowForest.Proofs.Hierarchy.Teardown

/-!
# Votes on a removal

Hooks are asked one after the other, and being asked changes a hook. Since no hook is
asked twice in one poll, every answer is the one that the hook would have given at the
beginning. So who is the first to defer can be said without following the poll
(`Poll.defers`), and the poll stops there (`Poll.ask_append`).

If nobody defers, the tree is taken down, with hooks that have changed since. That makes
no difference to the outcome: a hook takes no part in the removal but for being called,
and all hooks that were asked are gone afterwards.
-/

set_option autoImplicit false

namespace WindowForest

variable {η : Type}

/-! ## Hooks that have voted -/

/-- What is in the table of hooks has one. -/
theorem exists_hook_of_mem {hooks : Table η} {k : Key} (hk : k ∈ hooks) :
    ∃ hook, hooks[k]? = some hook := by
  rw [Std.ExtTreeMap.mem_iff_isSome_getElem?, Option.isSome_iff_exists] at hk
  exact hk

/-- After a vote of the listed containers, their hooks are as the vote has left them, and all other
hooks are as before. -/
def Consulted [Hook η] (hooks hooks' : Table η) (l : List Key) : Prop :=
  ∀ k, hooks'[k]? =
    if k ∈ l then (hooks[k]?).map fun hook => (Hook.vote hook k).2 else hooks[k]?

namespace Consulted

variable [Hook η] {hooks hooks' hooks'' : Table η} {hook : η} {k : Key} {l m : List Key}

/-- If nobody is asked, all hooks are as before. -/
theorem nil (hooks : Table η) : Consulted hooks hooks [] := by
  intro k
  rw [if_neg List.not_mem_nil]

/-- The hook that is asked is as its vote has left it. -/
theorem single (hk : hooks[k]? = some hook) :
    Consulted hooks (hooks.insert k (Hook.vote hook k).2) [k] := by
  intro j
  rw [Std.ExtTreeMap.getElem?_insert]
  by_cases hj : j = k
  · simp [hj, hk]
  · rw [if_neg fun heq => hj (Std.LawfulEqCmp.eq_of_compare heq).symm]
    simp [hj]

/-- Lists of different containers are consulted one after the other. -/
theorem append (hl : Consulted hooks hooks' l) (hm : Consulted hooks' hooks'' m)
    (hapart : ∀ k ∈ l, k ∉ m) : Consulted hooks hooks'' (l ++ m) := by
  intro k
  rw [hm k, hl k]
  by_cases hk : k ∈ l
  · simp [hk, hapart k hk]
  · simp [hk]

/-- Who is not asked keeps its hook as it was. -/
theorem of_notMem (hl : Consulted hooks hooks' l) (hk : k ∉ l) : hooks'[k]? = hooks[k]? := by
  rw [hl k, if_neg hk]

/-- Votes install no hook and remove none. -/
theorem mem_iff (hl : Consulted hooks hooks' l) : k ∈ hooks' ↔ k ∈ hooks := by
  rw [Std.ExtTreeMap.mem_iff_isSome_getElem?, Std.ExtTreeMap.mem_iff_isSome_getElem?, hl k]
  split
  · rw [Option.isSome_map]
  · rfl

end Consulted

/-! ## Polls -/

namespace Poll

variable [Hook η] {hooks : Table η} {hook : η} {k : Key} {l before after : List Key}

/-- Whether the hook of a container, if there is one, would put its removal off. -/
def defers (hooks : Table η) (k : Key) : Bool := (hooks[k]?).any fun hook => (Hook.vote hook k).1

/-- A container defers if its hook votes so. -/
theorem defers_of_hook (hk : hooks[k]? = some hook) :
    defers hooks k = (Hook.vote hook k).1 := by
  rw [defers, hk]
  rfl

/-- A container without a hook is passed over. -/
theorem ask_cons_of_none (hk : hooks[k]? = none) : ask hooks (k :: l) = ask hooks l := by
  rw [ask]
  simp only [hk]

/-- The poll ends with a hook that defers. -/
theorem ask_cons_of_deferred (hk : hooks[k]? = some hook) (hvote : (Hook.vote hook k).1 = true) :
    ask hooks (k :: l) = ⟨true, hooks.insert k (Hook.vote hook k).2, [.vote k true]⟩ := by
  rw [ask]
  simp only [hk, hvote, if_true]

/-- After a hook that agrees the poll goes on. -/
theorem ask_cons_of_agreed (hk : hooks[k]? = some hook) (hvote : (Hook.vote hook k).1 = false) :
    ask hooks (k :: l) =
      { ask (hooks.insert k (Hook.vote hook k).2) l with
        calls := .vote k false :: (ask (hooks.insert k (Hook.vote hook k).2) l).calls } := by
  rw [ask]
  simp only [hk, hvote, Bool.false_eq_true, if_false]

/-- Containers without a hook are passed over. -/
theorem ask_filter (hooks : Table η) (l : List Key) :
    ask hooks (l.filter (· ∈ hooks)) = ask hooks l := by
  induction l generalizing hooks with
  | nil => rfl
  | cons k l ih =>
    cases hk : hooks[k]? with
    | none =>
      have hout : k ∉ hooks := by simp [Std.ExtTreeMap.mem_iff_isSome_getElem?, hk]
      rw [List.filter_cons_of_neg (by simpa using hout), ask_cons_of_none hk, ih]
    | some hook =>
      have hmem : k ∈ hooks := by simp [Std.ExtTreeMap.mem_iff_isSome_getElem?, hk]
      rw [List.filter_cons_of_pos (by simpa using hmem)]
      cases hvote : (Hook.vote hook k).1 with
      | true => rw [ask_cons_of_deferred hk hvote, ask_cons_of_deferred hk hvote]
      | false =>
        have hsame : l.filter (· ∈ hooks.insert k (Hook.vote hook k).2) =
            l.filter (· ∈ hooks) := by
          apply Hierarchy.filter_hooks_congr
          intro j _
          exact (Consulted.single hk).mem_iff
        rw [ask_cons_of_agreed hk hvote, ask_cons_of_agreed hk hvote, ← ih, hsame]

/-- As long as nobody defers, everybody is asked and the poll goes on. -/
theorem ask_append (hnodup : before.Nodup) (hall : ∀ k ∈ before, k ∈ hooks)
    (hno : ∀ k ∈ before, defers hooks k = false) :
    ∃ hooks', Consulted hooks hooks' before ∧ ∀ rest, ask hooks (before ++ rest) =
      { ask hooks' rest with
        calls := before.map (fun k => .vote k false) ++ (ask hooks' rest).calls } := by
  induction before generalizing hooks with
  | nil => exact ⟨hooks, .nil hooks, fun rest => rfl⟩
  | cons j before ih =>
    obtain ⟨hj, hnodup⟩ := List.nodup_cons.1 hnodup
    obtain ⟨hook, hhook⟩ := exists_hook_of_mem (hall j List.mem_cons_self)
    have hvote := (defers_of_hook hhook).symm.trans (hno j List.mem_cons_self)
    have hfirst := Consulted.single hhook
    -- The hooks of the others are as they were before this one was asked.
    have hother : ∀ k ∈ before, defers (hooks.insert j (Hook.vote hook j).2) k = false := by
      intro k hk
      have hne : k ∉ [j] := by simpa using ne_of_mem_of_not_mem hk hj
      rw [defers, hfirst.of_notMem hne]
      exact hno k (List.mem_cons_of_mem j hk)
    obtain ⟨hooks', hconsulted, hrest⟩ :=
      ih hnodup (fun k hk => hfirst.mem_iff.2 (hall k (List.mem_cons_of_mem j hk))) hother
    refine ⟨hooks', hfirst.append hconsulted (by simpa using hj), ?_⟩
    intro rest
    rw [List.cons_append, ask_cons_of_agreed hhook hvote, hrest]
    rfl

/-- If nobody defers, everybody is asked, in order. -/
theorem ask_of_agreed (hnodup : l.Nodup) (hall : ∀ k ∈ l, k ∈ hooks)
    (hno : ∀ k ∈ l, defers hooks k = false) :
    ∃ hooks', Consulted hooks hooks' l ∧
      ask hooks l = ⟨false, hooks', l.map fun k => .vote k false⟩ := by
  obtain ⟨hooks', hconsulted, hrest⟩ := ask_append hnodup hall hno
  refine ⟨hooks', hconsulted, ?_⟩
  rw [← List.append_nil l, hrest]
  simp [ask]

/-- The poll ends with the first container whose hook defers. -/
theorem ask_of_deferred (hnodup : (before ++ k :: after).Nodup)
    (hall : ∀ j ∈ before ++ k :: after, j ∈ hooks) (hno : ∀ j ∈ before, defers hooks j = false)
    (hk : defers hooks k = true) :
    ∃ hooks', Consulted hooks hooks' (before ++ [k]) ∧ ask hooks (before ++ k :: after) =
      ⟨true, hooks', before.map (fun j => .vote j false) ++ [.vote k true]⟩ := by
  obtain ⟨hbefore, -, hapart⟩ := List.nodup_append.1 hnodup
  have hout : k ∉ before := fun hmem => hapart k hmem k List.mem_cons_self rfl
  obtain ⟨hooks', hconsulted, hrest⟩ :=
    ask_append hbefore (fun j hj => hall j (List.mem_append_left _ hj)) hno
  obtain ⟨hook, hhook⟩ := exists_hook_of_mem (hall k (by simp))
  have hhook' : hooks'[k]? = some hook := (hconsulted.of_notMem hout).trans hhook
  have hvote := (defers_of_hook hhook).symm.trans hk
  refine ⟨_, hconsulted.append (.single hhook') ?_, ?_⟩
  · intro j hj
    simpa using ne_of_mem_of_not_mem hj hout
  · rw [hrest, ask_cons_of_deferred hhook' hvote]

end Poll

/-! ## Removals do not look at hooks -/

namespace Records

/-- The records without any hooks. -/
def unhook (r : Records η) : Records η := { r with hooks := ∅ }

/-- What is dropped with a node does not depend on the hooks. -/
theorem unhook_drop (r : Records η) (node : Key) : (r.drop node).unhook = r.unhook.drop node := by
  have hempty : (∅ : Table η).erase node = ∅ := Std.ExtTreeMap.erase_empty
  unfold drop unhook
  rw [hempty]
  cases hc : r.containers[node]? with
  | none => simp only [hc]
  | some c =>
    simp only [hc]
    unfold unlist
    cases c.kind <;> rfl

/-- Whatever the records are told, the hooks make no difference to what becomes of the rest. -/
theorem unhook_notice (r : Records η) (f : Forest) (e : Event) :
    (Observer.notice r f e).unhook = Observer.notice r.unhook f e := by
  by_cases he : e.change = .removed
  · obtain ⟨change, node⟩ := e
    obtain rfl : change = .removed := he
    exact unhook_drop _ node
  · rw [notice_of_ne r f e he, notice_of_ne r.unhook f e he]
    rfl

end Records

namespace Hierarchy

variable {h h' : Hierarchy η} {top k : Key} {l : List Key}

/-- The hierarchy without any hooks. -/
def unhook (h : Hierarchy η) : Hierarchy η := h.updateRecords Records.unhook

/-- What is removed with containers does not depend on the hooks. -/
theorem unhook_removeEach (h : Hierarchy η) (l : List Key) :
    (h.unhook.removeEach l).1 = (h.removeEach l).1.unhook := by
  induction l generalizing h with
  | nil => rfl
  | cons k l ih =>
    have hprune : h.unhook.prune k = (h.prune k).unhook := by
      have htree := Tree.map_remove Records.unhook_notice h.tree k
      exact congrArg (fun t : Tree (Records η) => { h with tree := t }) htree
    show ((h.unhook.prune k).removeEach l).1 = ((h.prune k).removeEach l).1.unhook
    rw [hprune, ih]

/-- Apart from its hooks, a hierarchy is what is left when they are taken away. -/
theorem eq_of_unhook (hrest : h'.unhook = h.unhook)
    (hhooks : ∀ k : Key, h'.records.hooks[k]? = h.records.hooks[k]?) : h' = h := by
  obtain ⟨⟨f, containers, hooks, focus, displays, tasks⟩, settings⟩ := h
  obtain ⟨⟨f', containers', hooks', focus', displays', tasks'⟩, settings'⟩ := h'
  have htable : hooks' = hooks := Std.ExtTreeMap.ext_getElem? fun {k} => hhooks k
  unfold unhook updateRecords Records.unhook at hrest
  simp only [Hierarchy.mk.injEq, Tree.mk.injEq, Records.mk.injEq, true_and] at hrest
  obtain ⟨⟨rfl, rfl, rfl, rfl, rfl⟩, rfl⟩ := hrest
  rw [htable]

/-- Hierarchies that differ in hooks only have the same forest. -/
theorem forest_eq_of_unhook (hrest : h'.unhook = h.unhook) : h'.forest = h.forest := by
  have hforest : h'.unhook.forest = h.unhook.forest := by rw [hrest]
  exact hforest

/-- Hierarchies that differ in hooks only go on to do so. -/
theorem unhook_removeEach_eq (hrest : h'.unhook = h.unhook) (l : List Key) :
    (h'.removeEach l).1.unhook = (h.removeEach l).1.unhook := by
  rw [← unhook_removeEach, ← unhook_removeEach, hrest]

/-- With the listed containers go their hooks. -/
theorem InOrder.hook_removeEach (ho : h.InOrder) (hl : h.forest.LeavesFirst l) (hk : k ∈ l) :
    (h.removeEach l).1.records.hooks[k]? = none := by
  have ho' := ho.altered (altered_removeEach h l)
  apply Std.ExtTreeMap.getElem?_eq_none
  intro hhook
  have hlive := ho'.mem_of_hook hhook
  rw [ho.arranged.mem_removeEach hl] at hlive
  exact hlive.2 hk

/-- When containers are removed, it does not matter in which state their hooks are. -/
theorem removeEach_eq_of_unhook (ho : h.InOrder) (ho' : h'.InOrder)
    (hl : h.forest.LeavesFirst l) (hrest : h'.unhook = h.unhook)
    (hsame : ∀ k : Key, k ∉ l → h'.records.hooks[k]? = h.records.hooks[k]?)
    (hhooked : ∀ k, k ∈ h'.records.hooks ↔ k ∈ h.records.hooks) :
    h'.removeEach l = h.removeEach l := by
  have hl' : h'.forest.LeavesFirst l := forest_eq_of_unhook hrest ▸ hl
  apply Prod.ext
  · apply eq_of_unhook (unhook_removeEach_eq hrest l)
    intro k
    by_cases hk : k ∈ l
    · rw [ho'.hook_removeEach hl' hk, ho.hook_removeEach hl hk]
    · rw [(ho'.arranged.kept_removeEach_of_notMem hl' hk).hook, hsame k hk,
        (ho.arranged.kept_removeEach_of_notMem hl hk).hook]
  · have hseen : ∀ k, h'.forestAt l k = h.forestAt l k := fun k =>
      forest_eq_of_unhook (unhook_removeEach_eq hrest _)
    have horder : l.filter (· ∈ h'.records.hooks) = l.filter (· ∈ h.records.hooks) := by
      apply filter_hooks_congr
      intro k _
      exact hhooked k
    rw [ho'.arranged.calls_removeEach hl', ho.arranged.calls_removeEach hl, horder]
    apply List.map_congr_left
    intro k _
    rw [hseen]

/-! ## Removals that are voted on -/

/-- Nothing but the mark of one container and the hooks of the containers asked has changed. -/
structure OnlyMarked [Hook η] (h h' : Hierarchy η) (node : Key) (asked : List Key) : Prop where
  forest : h'.forest = h.forest
  settings : h'.settings = h.settings
  focus : h'.records.focus = h.records.focus
  displays : h'.records.displays = h.records.displays
  tasks : h'.records.tasks = h.records.tasks
  container : ∀ k, h'.container? k =
    if node = k then (h.container? k).map fun c => { c with pending := true } else h.container? k
  hooks : Consulted h.records.hooks h'.records.hooks asked

/-- What it means that the removal of a container is voted on. -/
structure Ballot [Hook η] (h : Hierarchy η) (top : Key) (o : Outcome η Removal) : Prop where
  /-- The order in which containers are asked: each of them before all below it, and what is below
  a child before what is below the next one. -/
  order : ∀ k, h.forest.Within top k →
    h.forest.preorder k = k :: (h.forest.children k).flatMap h.forest.preorder
  /-- Within the tree, and nowhere else, the containers with hooks are listed, each once. -/
  listed : h.hooked top = (h.forest.preorder top).filter (· ∈ h.records.hooks) ∧
    (h.hooked top).Nodup ∧ ∀ k, k ∈ h.hooked top ↔ h.forest.Within top k ∧ k ∈ h.records.hooks
  /-- If a hook defers, nobody behind the first such hook is asked, and nothing else happens than
  that the container is marked. -/
  deferred : (∃ k ∈ h.hooked top, Poll.defers h.records.hooks k = true) →
    ∃ before k after, h.hooked top = before ++ k :: after ∧
      (∀ j ∈ before, Poll.defers h.records.hooks j = false) ∧
      Poll.defers h.records.hooks k = true ∧ o.result = .ok .deferred ∧
      o.calls = before.map (fun j => .vote j false) ++ [.vote k true] ∧
      h.OnlyMarked o.hierarchy top (before ++ [k])
  /-- If no hook defers, all of them are asked, and then the container is removed as if nobody had
  been asked. -/
  removed : (∀ k ∈ h.hooked top, Poll.defers h.records.hooks k = false) →
    o.result = .ok .removed ∧
      o.calls = (h.hooked top).map (fun k => .vote k false) ++ (h.removeNow top).calls ∧
      o.hierarchy = (h.removeNow top).hierarchy

section

variable [Hook η]

/-- Only the containers with hooks have a say in what becomes of the hooks. -/
theorem hooks_asked (h : Hierarchy η) (top : Key) :
    (h.asked top).records.hooks = (Poll.ask h.records.hooks (h.hooked top)).hooks := by
  rw [hooked, Poll.ask_filter]
  rfl

/-- The removal of a container that is there is decided by the containers with hooks. -/
theorem remove_of_contains (htop : h.contains top) :
    h.remove top =
      if (Poll.ask h.records.hooks (h.hooked top)).deferred then
        ⟨(h.asked top).updateContainer top fun c => { c with pending := true }, .ok .deferred,
          (Poll.ask h.records.hooks (h.hooked top)).calls⟩
      else
        ⟨((h.asked top).removeEach (h.forest.postorder top)).1, .ok .removed,
          (Poll.ask h.records.hooks (h.hooked top)).calls ++
            ((h.asked top).removeEach (h.forest.postorder top)).2⟩ := by
  rw [remove, checkLive_of_contains htop, hooked, Poll.ask_filter]
  rfl

namespace InOrder

variable (ho : h.InOrder)

include ho

/-- A hierarchy stays in order when hooks are asked. -/
theorem asked (top : Key) : (h.asked top).InOrder := by
  have hkept : ∀ k ∈ (Poll.ask h.records.hooks (h.forest.preorder top)).hooks,
      k ∈ h.records.hooks ∨ h.contains k := by
    intro k hk
    exact .inl (Altered.mem_hooks_ask hk)
  exact ho.alteration (.hooked h _ hkept)

omit [Hook η] in
/-- No container in a tree is asked twice. -/
theorem nodup_hooked (top : Key) : (h.hooked top).Nodup := by
  have hnodup := ho.arranged.wellFormed.nodup_preorder top
  exact hnodup.filter _

omit [Hook η] in
/-- Who is asked has a hook. -/
theorem mem_hooks_of_hooked (hk : k ∈ h.hooked top) : k ∈ h.records.hooks := by
  rw [mem_hooked_iff ho.arranged.wellFormed] at hk
  exact hk.2

/-- If a hook defers, nobody behind it is asked, and the container is marked. -/
theorem remove_of_deferred (htop : h.contains top) {before after : List Key}
    (hsplit : h.hooked top = before ++ k :: after)
    (hno : ∀ j ∈ before, Poll.defers h.records.hooks j = false)
    (hk : Poll.defers h.records.hooks k = true) :
    (h.remove top).result = .ok .deferred ∧
      (h.remove top).calls = before.map (fun j => .vote j false) ++ [.vote k true] ∧
      h.OnlyMarked (h.remove top).hierarchy top (before ++ [k]) := by
  obtain ⟨hooks', hconsulted, hpoll⟩ := Poll.ask_of_deferred (hsplit ▸ ho.nodup_hooked top)
    (fun j hj => ho.mem_hooks_of_hooked (hsplit ▸ hj)) hno hk
  have hasked := hooks_asked h top
  rw [remove_of_contains htop, hsplit, hpoll, if_pos rfl]
  rw [hsplit, hpoll] at hasked
  refine ⟨rfl, rfl, ⟨rfl, rfl, rfl, rfl, rfl, fun j => ?_, ?_⟩⟩
  · exact container?_updateContainer (h.asked top) top j fun c => { c with pending := true }
  · rw [hooks_updateContainer, hasked]
    exact hconsulted

/-- If no hook defers, all are asked, and the container is removed as if nobody had been. -/
theorem remove_of_agreed (htop : h.contains top)
    (hno : ∀ k ∈ h.hooked top, Poll.defers h.records.hooks k = false) :
    (h.remove top).result = .ok .removed ∧
      (h.remove top).calls =
        (h.hooked top).map (fun k => .vote k false) ++ (h.removeNow top).calls ∧
      (h.remove top).hierarchy = (h.removeNow top).hierarchy := by
  have hf := ho.arranged.wellFormed
  obtain ⟨hooks', hconsulted, hpoll⟩ :=
    Poll.ask_of_agreed (ho.nodup_hooked top) (fun k hk => ho.mem_hooks_of_hooked hk) hno
  have hasked := hooks_asked h top
  rw [hpoll] at hasked
  have hsame : (h.asked top).removeEach (h.forest.postorder top) =
      h.removeEach (h.forest.postorder top) := by
    refine removeEach_eq_of_unhook ho (ho.asked top) (hf.leavesFirst_postorder top) rfl ?_ ?_
    · intro k hk
      have hout : k ∉ h.hooked top := fun hmem =>
        hk (hf.mem_postorder_iff.2 ((mem_hooked_iff hf).1 hmem).1)
      rw [hasked]
      exact hconsulted.of_notMem hout
    · intro k
      rw [hasked]
      exact hconsulted.mem_iff
  rw [remove_of_contains htop, hpoll, if_neg Bool.false_ne_true, hsame, removeNow_of_contains htop]
  exact ⟨rfl, rfl, rfl⟩

/-- In a hierarchy in order the removal of a container that is there is voted on. -/
theorem ballot_remove (htop : h.contains top) : h.Ballot top (h.remove top) := by
  have hf := ho.arranged.wellFormed
  have hmem := (ho.arranged.live_iff top).1 htop
  constructor
  case order =>
    intro k hk
    exact hf.preorder_eq (hk.mem hmem)
  case listed =>
    refine ⟨rfl, ho.nodup_hooked top, ?_⟩
    intro k
    rw [mem_hooked_iff hf, and_iff_right hmem]
  case deferred =>
    intro hsome
    obtain ⟨k, hfirst⟩ := Option.isSome_iff_exists.1 (List.find?_isSome.2 hsome)
    obtain ⟨hk, before, after, hsplit, hno⟩ := List.find?_eq_some_iff_append.1 hfirst
    have hagreed : ∀ j ∈ before, Poll.defers h.records.hooks j = false := by
      intro j hj
      simpa using hno j hj
    exact ⟨before, k, after, hsplit, hagreed, hk, ho.remove_of_deferred htop hsplit hagreed hk⟩
  case removed => exact ho.remove_of_agreed htop

end InOrder

/-- Whatever commands were given before and whatever the hooks say, a removal that is not forced is
decided by the first hook that defers, or carried out like one that is forced. -/
theorem Reachable.ballot {settings : Settings} (hr : Reachable settings h)
    (htop : h.contains top) : h.Ballot top (h.remove top) :=
  hr.inOrder.ballot_remove htop

end

/-- The removal of the stack is put off by the task in it, and only the stack is marked. The removal
of the other display is not put off. -/
theorem ballot_furnished :
    Reachable {} furnished ∧ furnished.contains ⟨3, 1⟩ ∧
      furnished.Ballot ⟨3, 1⟩ (furnished.remove ⟨3, 1⟩) ∧
      furnished.hooked ⟨3, 1⟩ = [⟨4, 1⟩] ∧
      Poll.defers furnished.records.hooks ⟨4, 1⟩ = true ∧
      (furnished.remove ⟨3, 1⟩).hierarchy.isPending ⟨3, 1⟩ ∧
      ¬ (furnished.remove ⟨3, 1⟩).hierarchy.isPending ⟨4, 1⟩ ∧
      furnished.Ballot ⟨2, 1⟩ (furnished.remove ⟨2, 1⟩) ∧
      furnished.hooked ⟨2, 1⟩ = [] ∧ ¬ (furnished.remove ⟨2, 1⟩).hierarchy.contains ⟨2, 1⟩ := by
  have hr := reachable_furnished
  have hstack : furnished.contains ⟨3, 1⟩ := by decide
  have hdisplay : furnished.contains ⟨2, 1⟩ := by decide
  exact ⟨hr, hstack, hr.ballot hstack, by decide, by decide, by decide, by decide,
    hr.ballot hdisplay, by decide, by decide⟩

end Hierarchy

end WindowForest
