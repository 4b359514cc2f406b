import WindowForest.Proofs.Forest.Lifetimes
import WindowForest.Proofs.Forest.Pointers
import WindowForest.Proofs.Hierarchy.Arrangement

/-!
# Commands as sequences of alterations

`Transition` says what a command makes of the links and of the layout. It leaves open
what becomes of the tables of hooks, displays and tasks, and of the pointers to active
children. For these a command is taken apart further, into single alterations
(`altered_apply`). An alteration makes one container together with its entry, changes
one record, or carries out one operation on the tree. What every alteration keeps, every
command keeps, and so does every history of commands.

Three things are followed through the alterations here: that the hierarchy stays
arranged, that the pointers stay valid, and that containers either stay what they are or
are gone for good (`Later`).
-/

set_option autoImplicit false

namespace WindowForest

variable {η : Type}

/-! ## Entries of new containers -/

namespace Records

/-- Enters a container of this kind under its number, if it has one. -/
def list (r : Records η) (node : Key) : Kind → Records η
  | .display id => { r with displays := r.displays.insert id node }
  | .task id _ => { r with tasks := r.tasks.insert id node }
  | .stack => r
  | .activity _ => r

/-- Nothing is listed under the number of this kind. -/
def Unlisted (r : Records η) : Kind → Prop
  | .display id => id ∉ r.displays
  | .task id _ => id ∉ r.tasks
  | .stack => True
  | .activity _ => True

/-- Listing a container under its number changes no container. -/
theorem containers_list (r : Records η) (node : Key) (kind : Kind) :
    (r.list node kind).containers = r.containers := by
  cases kind <;> rfl

/-- Listing a container under its number changes no hook. -/
theorem hooks_list (r : Records η) (node : Key) (kind : Kind) :
    (r.list node kind).hooks = r.hooks := by
  cases kind <;> rfl

/-- Listing a container under its number leaves the last active children alone. -/
theorem focus_list (r : Records η) (node : Key) (kind : Kind) :
    (r.list node kind).focus = r.focus := by
  cases kind <;> rfl

/-- Dropping a node leaves the last active children alone. -/
theorem focus_drop (r : Records η) (node : Key) : (r.drop node).focus = r.focus := by
  unfold drop
  cases hc : r.containers[node]? with
  | none => simp only [hc]
  | some c =>
    simp only [hc]
    unfold unlist
    cases c.kind <;> rfl

/-- The records hand everything that they are told on to the focus. -/
instance : KeepsFocus (Records η) where
  focus := Records.focus
  focus_notice r f e := by
    by_cases he : e.change = .removed
    · obtain ⟨change, node⟩ := e
      obtain rfl : change = .removed := he
      exact focus_drop _ node
    · rw [notice_of_ne r f e he]

end Records

namespace Hierarchy

variable {h h' h'' : Hierarchy η} {node parent target k : Key}

/-- Makes a container without parent and enters it under its number. -/
def create (h : Hierarchy η) (c : Container) : Hierarchy η :=
  (h.insertContainer c).2.updateRecords fun r => r.list h.forest.nextKey c.kind

/-- A container that is made is recorded under the next key, and no other record changes. -/
theorem container?_create (h : Hierarchy η) (c : Container) (k : Key) :
    (h.create c).container? k = if h.forest.nextKey = k then some c else h.container? k := by
  rw [create, container?_updateRecords fun r => r.containers_list _ _]
  exact container?_insertContainer h c k

/-! ## Alterations -/

/-- One of the changes that the commands are put together from. -/
inductive Alteration : Hierarchy η → Hierarchy η → Prop
  | created (h : Hierarchy η) (c : Container) :
    h.records.Unlisted c.kind → Alteration h (h.create c)
  | updated (h : Hierarchy η) (node : Key) (g : Container → Container) :
    (∀ c, (g c).kind = c.kind) → Alteration h (h.updateContainer node g)
  /-- Hooks are installed on containers that are there, or on nothing new. -/
  | hooked (h : Hierarchy η) (hooks : Table η) :
    (∀ k ∈ hooks, k ∈ h.records.hooks ∨ h.contains k) →
    Alteration h (h.updateRecords fun r => { r with hooks })
  | selected (h : Hierarchy η) (node : Key) : Alteration h (h.select node)
  | placed {h : Hierarchy η} {node parent : Key} (pos : Nat) :
    h.Placeable node parent → Alteration h (h.place node parent pos)
  | ordered {h : Hierarchy η} {node parent : Key} (pos : Nat) :
    h.forest.parent node = some parent → Alteration h (h.place node parent pos)
  | uprooted (h : Hierarchy η) (node : Key) : Alteration h (h.uproot node)
  | pruned (h : Hierarchy η) (node : Key) : Alteration h (h.prune node)

/-- The second hierarchy comes out of the first one by alterations. -/
abbrev Altered : Hierarchy η → Hierarchy η → Prop := Relation.ReflTransGen Alteration

/-- Laying out a tree updates its containers one after the other. -/
theorem altered_layOut (h : Hierarchy η) (top : Key) : h.Altered (h.layOut top) := by
  unfold layOut
  generalize h.forest.preorder top = order
  induction order generalizing h with
  | nil => exact .refl
  | cons k order ih =>
    refine Relation.ReflTransGen.trans ?_ (ih (h.layOne k))
    unfold layOne
    cases h.modeOf k with
    | none => exact .refl
    | some mode => exact .single (.updated h k _ fun _ => rfl)

/-- After an alteration, what it concerns is laid out. -/
theorem Alteration.layOut (halt : Alteration h h') (top : Key) : h.Altered (h'.layOut top) := by
  have hsettled := altered_layOut h' top
  exact .head halt hsettled

/-- Removing containers one after the other prunes one tree after the other. -/
theorem altered_removeEach (h : Hierarchy η) (l : List Key) : h.Altered (h.removeEach l).1 := by
  induction l generalizing h with
  | nil => exact .refl
  | cons k l ih =>
    have hpruned : h.Altered (h.prune k) := .single (.pruned h k)
    exact hpruned.trans (ih (h.prune k))

namespace Altered

/-- Behind a check, an operation has to be an alteration only if the check passes. -/
theorem guarded {α : Type} {check : Except Error Unit} {act : Outcome η α}
    (hact : check = .ok () → h.Altered act.hierarchy) :
    h.Altered (h.guarded check act).hierarchy := by
  obtain ⟨e, -, heq⟩ | ⟨hcheck, heq⟩ := h.guarded_cases check act
  · rw [heq]
    exact .refl
  · rw [heq]
    exact hact hcheck

/-- Creating a display makes and lays out a container under a new number, or is refused. -/
theorem createDisplay (h : Hierarchy η) (id : DisplayId) (bounds : Rect) :
    h.Altered (h.createDisplay id bounds).hierarchy := by
  unfold Hierarchy.createDisplay
  split
  · exact .refl
  · next hnew =>
    exact Alteration.layOut (.created h
      { kind := .display id, requestedMode := h.settings.defaultMode, requestedBounds := bounds }
      hnew) _

/-- Creating a task makes a container under a new number, or is refused. -/
theorem createTask (h : Hierarchy η) (id : TaskId) (user : UserId) :
    h.Altered (h.createTask id user).hierarchy := by
  unfold Hierarchy.createTask
  split
  · exact .refl
  · next hnew => exact .single (.created h { kind := .task id user } hnew)

/-- Installing a hook does so on a container that is there, or is refused. -/
theorem setHook (h : Hierarchy η) (node : Key) (hook : η) :
    h.Altered (h.setHook node hook).hierarchy := by
  apply guarded
  intro hcheck
  refine .single (.hooked h (h.records.hooks.insert node hook) ?_)
  intro k hk
  rcases Std.ExtTreeMap.mem_insert.1 hk with heq | hk
  · obtain rfl := Std.LawfulEqCmp.eq_of_compare heq
    exact .inr (checkLive_eq_ok_iff.1 hcheck)
  · exact .inl hk

/-- Setting bounds updates a container and lays it out, or is refused. -/
theorem setBounds (h : Hierarchy η) (node : Key) (bounds : Rect) :
    h.Altered (h.setBounds node bounds).hierarchy := by
  apply guarded
  intro _
  have hasked := Alteration.updated h node (fun c => { c with requestedBounds := bounds })
    fun _ => rfl
  exact hasked.layOut node

/-- Overriding the bounds of a surface updates a container, or is refused. -/
theorem setOverride (h : Hierarchy η) (node : Key) (bounds : Option Rect) :
    h.Altered (h.setOverride node bounds).hierarchy := by
  apply guarded
  intro _
  exact .single (.updated h node _ fun _ => rfl)

/-- Setting a mode updates a container and lays it out, or is refused. -/
theorem setMode (h : Hierarchy η) (node : Key) (mode : Mode) :
    h.Altered (h.setMode node mode).hierarchy := by
  apply guarded
  intro _
  have hasked := Alteration.updated h node (fun c => { c with requestedMode := mode }) fun _ => rfl
  exact hasked.layOut node

/-- Attaching places a container and lays it out, or is refused. -/
theorem attach (h : Hierarchy η) (node parent : Key) (pos : Nat) :
    h.Altered (h.attach node parent pos).hierarchy := by
  apply guarded
  intro hcheck
  obtain ⟨-, -, hfits⟩ := checkAttach_eq_ok_iff.1 hcheck
  exact (Alteration.placed pos hfits).layOut node

/-- Detaching uproots a container and lays it out, or changes nothing. -/
theorem detach (h : Hierarchy η) (node : Key) : h.Altered (h.detach node).hierarchy := by
  apply guarded
  intro _
  cases h.forest.parent node with
  | none => exact .refl
  | some parent => exact (Alteration.uprooted h node).layOut node

/-- Reparenting places a container, may select it, and lays it out, or is refused. -/
theorem reparent (h : Hierarchy η) (node target : Key) (pos : Nat) (activate : Bool) :
    h.Altered (h.reparent node target pos activate).hierarchy := by
  apply guarded
  intro hcheck
  obtain ⟨-, -, -, -, hfits⟩ := checkReparent_eq_ok_iff.1 hcheck
  have hmoved := (Relation.ReflTransGen.single (Alteration.placed pos hfits)).tail
    (.updated _ node (fun c => { c with pending := false }) fun _ => rfl)
  cases activate with
  | false => exact hmoved.trans (altered_layOut _ _)
  | true => exact (hmoved.tail (.selected _ node)).trans (altered_layOut _ _)

/-- Positioning orders a container among its siblings, or changes nothing. -/
theorem position (h : Hierarchy η) (node : Key) (pos : Nat) :
    h.Altered (h.position node pos).hierarchy := by
  apply guarded
  intro _
  cases hp : h.forest.parent node with
  | none => exact .refl
  | some parent => exact .single (.ordered pos hp)

/-- Asking hooks installs none. -/
theorem mem_hooks_ask [Hook η] {hooks : Table η} {l : List Key}
    (hk : k ∈ (Poll.ask hooks l).hooks) : k ∈ hooks := by
  induction l generalizing hooks with
  | nil => exact hk
  | cons j l ih =>
    unfold Poll.ask at hk
    cases hj : hooks[j]? with
    | none =>
      simp only [hj] at hk
      exact ih hk
    | some hook =>
      have hmem : j ∈ hooks := Std.ExtTreeMap.mem_iff_isSome_getElem?.2 (by simp [hj])
      have hkept : k ∈ hooks.insert j (Hook.vote hook j).2 → k ∈ hooks := by
        intro hk
        rcases Std.ExtTreeMap.mem_insert.1 hk with heq | hk
        · exact Std.LawfulEqCmp.eq_of_compare heq ▸ hmem
        · exact hk
      simp only [hj] at hk
      split at hk
      · exact hkept hk
      · exact hkept (ih hk)

/-- Removing asks hooks, and then either updates a container or prunes trees, or is refused. -/
theorem remove [Hook η] (h : Hierarchy η) (node : Key) :
    h.Altered (h.remove node).hierarchy := by
  apply guarded
  intro _
  have hasked := Alteration.hooked h (Poll.ask h.records.hooks (h.forest.preorder node)).hooks
    fun _ hk => .inl (mem_hooks_ask hk)
  show h.Altered (Outcome.hierarchy (if _ then _ else _))
  split
  · exact (Relation.ReflTransGen.single hasked).tail (.updated _ node _ fun _ => rfl)
  · exact (Relation.ReflTransGen.single hasked).trans (altered_removeEach _ _)

/-- Removing at once prunes trees, or is refused. -/
theorem removeNow (h : Hierarchy η) (node : Key) : h.Altered (h.removeNow node).hierarchy := by
  apply guarded
  intro _
  exact altered_removeEach h _

end Altered

/-- Every command is a sequence of alterations. -/
theorem altered_apply [Hook η] (h : Hierarchy η) (c : Command η) :
    h.Altered (h.apply c).hierarchy := by
  cases c with
  | createDisplay id bounds => exact .createDisplay h id bounds
  | createDefaultDisplay id => exact .createDisplay h id _
  | createStack => exact .single (.created h { kind := .stack } trivial)
  | createTask id user => exact .createTask h id user
  | createActivity name => exact .single (.created h { kind := .activity name } trivial)
  | setHook node hook => exact .setHook h node hook
  | attach node parent pos => exact .attach h node parent pos
  | detach node => exact .detach h node
  | reparent node target pos activate => exact .reparent h node target pos activate
  | position node pos => exact .position h node pos
  | remove node => exact .remove h node
  | removeNow node => exact .removeNow h node
  | setBounds node bounds => exact .setBounds h node bounds
  | setOverride node bounds => exact .setOverride h node bounds
  | setMode node mode => exact .setMode h node mode

/-- A history of commands is a sequence of alterations. -/
theorem altered_run [Hook η] (h : Hierarchy η) (commands : List (Command η)) :
    h.Altered (h.run commands) := by
  induction commands generalizing h with
  | nil => exact .refl
  | cons c commands ih => exact (altered_apply h c).trans (ih (h.apply c).hierarchy)

/-! ## What alterations keep -/

namespace Arranged

variable (ha : h.Arranged)

include ha

/-- A hierarchy stays arranged when a container is made. -/
theorem create (c : Container) : (h.create c).Arranged := by
  refine (ha.insertContainer c).congr rfl ?_
  intro k
  apply kindOf_congr
  rw [Hierarchy.create, container?_updateRecords fun r => r.containers_list _ _]

/-- An alteration keeps a hierarchy arranged. -/
theorem alteration (halt : Alteration h h') : h'.Arranged := by
  cases halt with
  | created c _ => exact ha.create c
  | updated node g hg => exact ha.updateContainer node hg
  | hooked hooks _ => exact ha.congr rfl fun _ => rfl
  | selected node => exact ha.congr rfl fun _ => rfl
  | placed pos hfits => exact ha.place_of_placeable hfits pos
  | ordered pos hp => exact ha.place_again hp pos
  | uprooted node => exact ha.uproot node
  | pruned node => exact ha.prune node

/-- Alterations one after the other keep a hierarchy arranged. -/
theorem altered (halt : h.Altered h') : h'.Arranged := by
  induction halt with
  | refl => exact ha
  | tail _ halt ih => exact ih.alteration halt

/-- Pointers to active children stay valid. -/
theorem valid_alteration (hv : h.records.focus.Valid h.forest) (halt : Alteration h h') :
    h'.records.focus.Valid h'.forest := by
  have hf : h.tree.forest.WellFormed := ha.wellFormed
  cases halt with
  | created c _ =>
    show ((h.insertContainer c).2.records.list h.forest.nextKey c.kind).focus.Valid _
    rw [Records.focus_list]
    exact Tree.valid_create hf hv
  | updated node g _ => exact hv
  | hooked hooks _ => exact hv
  | selected node => exact hv.select node
  | placed pos hfits => exact Tree.valid_place hf hv (fun _ => ha.not_within_of_placeable hfits) pos
  | ordered pos hp => exact Tree.valid_place hf hv (fun _ => hf.rooted.not_within_parent hp) pos
  | uprooted node => exact Tree.valid_uproot hf hv node
  | pruned node => exact Tree.valid_remove hf hv node

end Arranged

/-- Between the first hierarchy and the second, a container has stayed of the same kind, or its key
has become stale. -/
structure Later (h h' : Hierarchy η) : Prop where
  stale : ∀ k, Store.Stale h.forest k → Store.Stale h'.forest k
  fate : ∀ k, k ∈ h.forest →
    k ∈ h'.forest ∧ h'.kindOf k = h.kindOf k ∨ Store.Stale h'.forest k

namespace Later

/-- A hierarchy has the containers that it has. -/
theorem refl (h : Hierarchy η) : h.Later h := by
  refine ⟨fun _ hk => hk, ?_⟩
  intro k hk
  exact .inl ⟨hk, rfl⟩

/-- Containers that stay what they are, or go for good, do so from one hierarchy to the next. -/
theorem trans (hl : h.Later h') (hl' : h'.Later h'') : h.Later h'' where
  stale k hk := hl'.stale k (hl.stale k hk)
  fate k hk := by
    rcases hl.fate k hk with ⟨hk', hkind⟩ | hstale
    · rcases hl'.fate k hk' with ⟨hk'', hkind'⟩ | hstale'
      · exact .inl ⟨hk'', hkind'.trans hkind⟩
      · exact .inr hstale'
    · exact .inr (hl'.stale k hstale)

/-- If the forest only ages, and what stays is of the same kind, then nothing else becomes of the
containers. -/
theorem of_ages (hages : Store.Ages h.forest h'.forest)
    (hkind : ∀ k, k ∈ h.forest → k ∈ h'.forest → h'.kindOf k = h.kindOf k) : h.Later h' where
  stale _ hk := hages.stale hk
  fate k hk := by
    rcases hages.live k hk with hk' | hstale
    · exact .inl ⟨hk', hkind k hk hk'⟩
    · exact .inr hstale

/-- A container that is placed stays what it is, as do all others. -/
theorem place (h : Hierarchy η) (node parent : Key) (pos : Nat) :
    h.Later (h.place node parent pos) := by
  have hages := Forest.ages_move h.forest node parent pos
  rw [← forest_place] at hages
  apply of_ages hages
  intro k _ _
  rw [kindOf_place]

/-- An alteration leaves every container what it is, or its key becomes stale. -/
theorem alteration (ha : h.Arranged) (halt : Alteration h h') : h.Later h' := by
  cases halt with
  | created c _ =>
    refine of_ages (Forest.ages_sprout h.forest) ?_
    intro k hk _
    have hne : h.forest.nextKey ≠ k := fun e => ha.wellFormed.sound.nextKey_notMem (e ▸ hk)
    apply kindOf_congr
    rw [container?_create, if_neg hne]
  | updated node g hg => exact of_ages (.refl _) fun k _ _ => kindOf_updateContainer hg node k
  | hooked hooks _ => exact of_ages (.refl _) fun _ _ _ => rfl
  | selected node => exact of_ages (.refl _) fun _ _ _ => rfl
  | @placed node parent pos _ => exact place h node parent pos
  | @ordered node parent pos _ => exact place h node parent pos
  | uprooted node =>
    have hages := Forest.ages_unlink h.forest node
    rw [← forest_uproot] at hages
    exact of_ages hages fun k _ _ => kindOf_uproot h node k
  | pruned node =>
    have hages := Forest.ages_prune h.forest node
    rw [← forest_prune] at hages
    exact of_ages hages fun k _ hk' => kindOf_congr (ha.container?_prune_of_mem hk')

/-- Alterations one after the other leave every container what it is, or its key becomes stale. -/
theorem altered (ha : h.Arranged) (halt : h.Altered h') : h.Later h' := by
  induction halt with
  | refl => exact refl h
  | tail halts halt ih => exact ih.trans (alteration (ha.altered halts) halt)

end Later

/-- A command leaves every container what it is, or its key becomes stale. -/
theorem Arranged.later_apply [Hook η] (ha : h.Arranged) (c : Command η) :
    h.Later (h.apply c).hierarchy := by
  have halt := altered_apply h c
  exact .altered ha halt

/-- A history of commands leaves every container what it is, or its key becomes stale. -/
theorem Arranged.later_run [Hook η] (ha : h.Arranged) (commands : List (Command η)) :
    h.Later (h.run commands) := by
  have halt := altered_run h commands
  exact .altered ha halt

end Hierarchy

end WindowForest
