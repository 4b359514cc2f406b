import WindowForest.Proofs.Hierarchy.Chains
import WindowForest.Proofs.Hierarchy.Lifespan

/-!
# The effect of a command

`Transition` groups the commands by what they do to the layout, and leaves open which of
them it was. Where that matters, the commands have to be told apart, and `Effect` does so:
for every command that is carried out it names the hierarchy that results, together with
what the checks have found. A refused command has no effect at all.

Two laws follow by going through the effects. What is asked of a container changes only by
a command about that container, and only in the way that the command says
(`Arranged.requestOf_effect`). And a container that stays keeps its parent, unless it is
attached, detached or moved to another parent itself (`Arranged.parent_effect`).
-/

set_option autoImplicit false

namespace WindowForest

variable {η α β : Type}

/-- What is answered is made of what the operation gave. -/
theorem Outcome.exists_of_map {o : Outcome η α} {g : α → β} {b : β}
    (hok : (o.map g).result = .ok b) : ∃ a, o.result = .ok a ∧ g a = b := by
  obtain ⟨hierarchy, result, calls⟩ := o
  cases result with
  | error e => cases hok
  | ok a => exact ⟨a, rfl, Except.ok.inj hok⟩

/-- What a command that was answered makes of what was asked of the container that it is about. -/
def Command.revise : Command η → Answer → Container → Container
  | reparent _ _ _ _, _ => fun c => { c with pending := false }
  | remove _, .deferred => fun c => { c with pending := true }
  | setBounds _ bounds, _ => fun c => { c with requestedBounds := bounds }
  | setOverride _ bounds, _ => fun c => { c with overrideBounds := bounds }
  | setMode _ mode, _ => fun c => { c with requestedMode := mode }
  | _, _ => id

namespace Hierarchy

variable {h h' : Hierarchy η} {node p k : Key} {c : Command η} {a : Answer}

/-- An operation behind a check that is carried out has passed the check. -/
theorem guarded_of_ok {check : Except Error Unit} {act : Outcome η α} {b : α}
    (hok : (h.guarded check act).result = .ok b) :
    check = .ok () ∧ h.guarded check act = act ∧ act.result = .ok b := by
  obtain ⟨e, -, heq⟩ | ⟨hcheck, heq⟩ := h.guarded_cases check act
  · rw [heq] at hok
    cases hok
  · exact ⟨hcheck, heq, heq ▸ hok⟩

/-! ## Effects -/

/-- The hierarchy after the hooks of a container and all below it were asked about its removal. -/
def asked [Hook η] (h : Hierarchy η) (node : Key) : Hierarchy η :=
  h.updateRecords fun r =>
    { r with hooks := (Poll.ask h.records.hooks (h.forest.preorder node)).hooks }

/-- The hierarchy after a container was moved to another parent, before it is laid out. -/
def relocated (h : Hierarchy η) (node target : Key) (pos : Nat) (activate : Bool) :
    Hierarchy η :=
  let moved := (h.place node target pos).updateContainer node fun c => { c with pending := false }
  if activate then moved.select node else moved

/-- What a command that is carried out answers, and the hierarchy that it leads to. -/
inductive Effect [Hook η] (h : Hierarchy η) : Command η → Answer → Hierarchy η → Prop
  | created {c : Command η} {k : Key} {h' : Hierarchy η} :
    c.node? = none → h.Bears k h' → Effect h c (.created k) h'
  | hooked {node : Key} (hook : η) :
    h.contains node → Effect h (.setHook node hook) .done
      (h.updateRecords fun r => { r with hooks := r.hooks.insert node hook })
  | attached {node parent : Key} (pos : Nat) :
    h.forest.parent node = none → h.Placeable node parent →
    Effect h (.attach node parent pos) .done ((h.place node parent pos).layOut node)
  | loose {node : Key} :
    h.forest.parent node = none → Effect h (.detach node) .done h
  | detached {node p : Key} :
    h.forest.parent node = some p → ¬ h.isPending node →
    Effect h (.detach node) .done ((h.uproot node).layOut node)
  | reparented {node target : Key} (pos : Nat) (activate : Bool) :
    h.forest.parent node ≠ some target → h.Placeable node target →
    Effect h (.reparent node target pos activate) .done
      ((h.relocated node target pos activate).layOut node)
  | positioned {node p : Key} (pos : Nat) :
    h.forest.parent node = some p → Effect h (.position node pos) .done (h.place node p pos)
  | deferred {node : Key} :
    (Poll.ask h.records.hooks (h.forest.preorder node)).deferred →
    Effect h (.remove node) .deferred
      ((h.asked node).updateContainer node fun c => { c with pending := true })
  | removed {node : Key} :
    ¬ (Poll.ask h.records.hooks (h.forest.preorder node)).deferred →
    Effect h (.remove node) .removed ((h.asked node).removeEach (h.forest.postorder node)).1
  | removedNow {node : Key} :
    Effect h (.removeNow node) .done (h.removeEach (h.forest.postorder node)).1
  | bounded {node : Key} (bounds : Rect) :
    h.contains node → Effect h (.setBounds node bounds) .done
      ((h.updateContainer node fun c => { c with requestedBounds := bounds }).layOut node)
  | overridden {node : Key} (bounds : Option Rect) :
    h.contains node → Effect h (.setOverride node bounds) .done
      (h.updateContainer node fun c => { c with overrideBounds := bounds }.anchor)
  | moded {node : Key} (mode : Mode) :
    h.contains node → Effect h (.setMode node mode) .done
      ((h.updateContainer node fun c => { c with requestedMode := mode }).layOut node)

namespace Effect

variable [Hook η]

/-- A command that makes a container has that effect once it is carried out. -/
theorem of_created {o : Outcome η Key} (hc : c.node? = none)
    (happly : h.apply c = o.map .created) (hok : (h.apply c).result = .ok a) :
    h.Effect c a (h.apply c).hierarchy := by
  rw [happly] at hok
  obtain ⟨k, -, rfl⟩ := Outcome.exists_of_map hok
  rw [← happly] at hok
  exact .created hc (bears_of_created hok)

/-- Commands behind a check that have nothing to tell are looked at once the check has passed. -/
theorem of_guarded {check : Except Error Unit} {act : Outcome η Unit}
    (happly : h.apply c = (h.guarded check act).map .ofUnit)
    (hact : check = .ok () → h.Effect c .done act.hierarchy)
    (hok : (h.apply c).result = .ok a) : h.Effect c a (h.apply c).hierarchy := by
  rw [happly] at hok ⊢
  obtain ⟨u, hu, rfl⟩ := Outcome.exists_of_map hok
  obtain ⟨hcheck, heq, -⟩ := guarded_of_ok hu
  rw [heq]
  exact hact hcheck

/-- A removal that is carried out was put off or not. -/
theorem of_remove (hok : (h.apply (.remove node)).result = .ok a) :
    h.Effect (.remove node) a (h.apply (.remove node)).hierarchy := by
  obtain ⟨removal, hremoval, rfl⟩ := Outcome.exists_of_map
    (show ((h.remove node).map Answer.ofRemoval).result = .ok a from hok)
  show h.Effect _ _ (h.remove node).hierarchy
  unfold remove at hremoval ⊢
  obtain ⟨-, heq, hact⟩ := guarded_of_ok hremoval
  rw [heq]
  by_cases hdeferred : (Poll.ask h.records.hooks (h.forest.preorder node)).deferred
  · simp only [if_pos hdeferred] at hact ⊢
    obtain rfl : Removal.deferred = removal := Except.ok.inj hact
    exact .deferred hdeferred
  · simp only [if_neg hdeferred] at hact ⊢
    obtain rfl : Removal.removed = removal := Except.ok.inj hact
    exact .removed hdeferred

end Effect

/-- Whatever a command answers, one of the effects takes place. -/
theorem effect_apply [Hook η] (hok : (h.apply c).result = .ok a) :
    h.Effect c a (h.apply c).hierarchy := by
  cases c with
  | createDisplay id bounds => exact .of_created rfl rfl hok
  | createDefaultDisplay id => exact .of_created rfl rfl hok
  | createStack => exact .of_created rfl rfl hok
  | createTask id user => exact .of_created rfl rfl hok
  | createActivity name => exact .of_created rfl rfl hok
  | setHook node hook =>
    exact .of_guarded rfl (fun hcheck => .hooked hook (checkLive_eq_ok_iff.1 hcheck)) hok
  | attach node parent pos =>
    refine .of_guarded rfl (fun hcheck => ?_) hok
    obtain ⟨-, hroot, hfits⟩ := checkAttach_eq_ok_iff.1 hcheck
    exact .attached pos hroot hfits
  | detach node =>
    refine .of_guarded rfl (fun hcheck => ?_) hok
    obtain ⟨-, hfree⟩ := checkDetach_eq_ok_iff.1 hcheck
    cases hp : h.forest.parent node with
    | none => exact .loose hp
    | some p => exact .detached hp (hfree.resolve_left (by simp [hp]))
  | reparent node target pos activate =>
    refine .of_guarded rfl (fun hcheck => ?_) hok
    obtain ⟨-, -, hnew, -, hfits⟩ := checkReparent_eq_ok_iff.1 hcheck
    exact .reparented pos activate hnew hfits
  | position node pos =>
    refine .of_guarded rfl (fun hcheck => ?_) hok
    obtain ⟨-, hplaced⟩ := checkPosition_eq_ok_iff.1 hcheck
    cases hp : h.forest.parent node with
    | none => exact absurd hp hplaced
    | some p => exact .positioned pos hp
  | remove node => exact .of_remove hok
  | removeNow node => exact .of_guarded rfl (fun _ => .removedNow) hok
  | setBounds node bounds =>
    exact .of_guarded rfl (fun hcheck => .bounded bounds (checkLive_eq_ok_iff.1 hcheck)) hok
  | setOverride node bounds =>
    exact .of_guarded rfl (fun hcheck => .overridden bounds (checkLive_eq_ok_iff.1 hcheck)) hok
  | setMode node mode =>
    exact .of_guarded rfl (fun hcheck => .moded mode (checkMode_eq_ok_iff.1 hcheck).1) hok

namespace InOrder

variable [Hook η] (ho : h.InOrder)

include ho

/-- A command keeps a hierarchy in order. -/
theorem apply (c : Command η) : (h.apply c).hierarchy.InOrder := ho.altered (altered_apply h c)

/-- A history of commands keeps a hierarchy in order. -/
theorem run (commands : List (Command η)) : (h.run commands).InOrder :=
  ho.altered (altered_run h commands)

/-- Only containers that are there can have a command about them carried out. -/
theorem contains_of_ok (hnode : c.node? = some k) (hok : (h.apply c).result = .ok a) :
    h.contains k := by
  by_contra hdead
  have hright := (ho.judged_apply c).ruling.exists_ok_iff.1 ⟨a, hok⟩
  exact hright.1 (outOfPlace_of_dead hnode hdead)

/-- A command that is not carried out leaves everything as it was. -/
theorem effect_or_refused (c : Command η) :
    (∃ a, (h.apply c).result = .ok a ∧ h.Effect c a (h.apply c).hierarchy) ∨
      (∃ e, (h.apply c).result = .error e) ∧ (h.apply c).hierarchy = h := by
  cases hresult : (h.apply c).result with
  | error e =>
    have hrefused := (ho.judged_apply c).refused e hresult
    exact .inr ⟨⟨e, rfl⟩, by rw [hrefused]; rfl⟩
  | ok a => exact .inl ⟨a, rfl, effect_apply hresult⟩

end InOrder

/-! ## Requests after a change -/

/-- Where the record of a container is the same, the same was asked of it. -/
theorem requestOf_congr (hk : h'.container? k = h.container? k) :
    h'.requestOf k = h.requestOf k := by
  rw [requestOf, requestOf, hk]

/-- A change of a container changes what was asked of it, and nothing that was asked of others. -/
theorem requestOf_updateContainer {g : Container → Container} (g' : Container → Container)
    (hg : ∀ c, (g c).request = g' c.request) (node k : Key) :
    (h.updateContainer node g).requestOf k =
      if some node = some k then (h.requestOf k).map g' else h.requestOf k := by
  rw [requestOf, container?_updateContainer]
  by_cases hk : node = k
  · rw [if_pos hk, if_pos (congrArg some hk), requestOf, Option.map_map, Option.map_map]
    apply Option.map_congr
    intro c _
    exact hg c
  · rw [if_neg hk, if_neg fun heq => hk (Option.some.inj heq)]
    rfl

/-- The birth of a container changes nothing that was asked of others. -/
theorem Bears.requestOf {j : Key} (hb : h.Bears j h') (hne : h.forest.nextKey ≠ k) :
    h'.requestOf k = h.requestOf k := by
  have hcreate : ∀ c, (h.create c).requestOf k = h.requestOf k := by
    intro c
    apply requestOf_congr
    rw [container?_create, if_neg hne]
  cases hb with
  | created c _ _ => exact hcreate c
  | displayed c _ _ => rw [requestOf_layOut, hcreate]

/-- The birth of a container changes no parent. -/
theorem Bears.parent {j : Key} (hb : h.Bears j h') (ha : h.Arranged) (k : Key) :
    h'.forest.parent k = h.forest.parent k := by
  rw [hb.forest.2, ha.wellFormed.parent_sprout]

/-- A container that comes to another parent is a moved node. -/
theorem forest_relocated (h : Hierarchy η) (node target : Key) (pos : Nat) (activate : Bool) :
    (h.relocated node target pos activate).forest = h.forest.move node target pos := by
  rw [← forest_place]
  cases activate <;> rfl

/-- A container that comes to another parent no longer waits to be removed. -/
theorem requestOf_relocated (h : Hierarchy η) (node target : Key) (pos : Nat) (activate : Bool)
    (k : Key) :
    (h.relocated node target pos activate).requestOf k =
      if some node = some k then (h.requestOf k).map fun c => { c with pending := false }
      else h.requestOf k := by
  have hplaced : (h.place node target pos).requestOf k = h.requestOf k :=
    requestOf_congr (container?_place h node target pos k)
  have hmoved := requestOf_updateContainer (h := h.place node target pos)
    (g := fun c => { c with pending := false }) (fun c => { c with pending := false })
    (fun _ => rfl) node k
  rw [hplaced] at hmoved
  cases activate with
  | false => exact hmoved
  | true => exact hmoved

namespace Arranged

/-- Containers that a removal leaves keep their records and their parents. -/
theorem kept_removeEach (ha : h.Arranged) {l : List Key} (hk : (h.removeEach l).1.contains k) :
    h.contains k ∧ (h.removeEach l).1.container? k = h.container? k ∧
      (h.removeEach l).1.forest.parent k = h.forest.parent k := by
  induction l generalizing h with
  | nil => exact ⟨hk, rfl, rfl⟩
  | cons j l ih =>
    obtain ⟨hlive, hrecord, hparent⟩ := ih (ha.prune j) hk
    have hmem := ((ha.prune j).live_iff k).1 hlive
    have hold := hmem
    rw [forest_prune, ha.wellFormed.mem_prune_iff] at hold
    refine ⟨(ha.live_iff k).2 hold.1, ?_, ?_⟩
    · exact hrecord.trans (ha.container?_prune_of_mem hmem)
    · refine hparent.trans ?_
      rw [forest_prune, ha.wellFormed.parent_prune hold.2]

variable [Hook η] (ha : h.Arranged)

include ha

/-- A hierarchy stays arranged when hooks are asked. -/
theorem asked (node : Key) : (h.asked node).Arranged := ha.congr rfl fun _ => rfl

/-- What is asked of a container changes only by a command about that container. -/
theorem requestOf_effect (heffect : h.Effect c a h') (hk : h.contains k)
    (hk' : h'.contains k) :
    h'.requestOf k =
      if c.node? = some k then (h.requestOf k).map (c.revise a) else h.requestOf k := by
  -- Most effects ask nothing of any container.
  have hsame : h'.requestOf k = h.requestOf k → c.revise a = id → h'.requestOf k =
      if c.node? = some k then (h.requestOf k).map (c.revise a) else h.requestOf k := by
    intro heq hid
    rw [heq, hid, Option.map_id, id, ite_self]
  cases heffect with
  | created hc hb =>
    rw [if_neg (by simp [hc])]
    apply hb.requestOf
    rintro rfl
    exact ha.wellFormed.sound.nextKey_notMem ((ha.live_iff _).1 hk)
  | hooked hook _ => exact hsame rfl rfl
  | attached pos _ _ =>
    refine hsame ?_ rfl
    rw [requestOf_layOut]
    exact requestOf_congr (container?_place _ _ _ _ k)
  | loose _ => exact hsame rfl rfl
  | detached _ _ =>
    refine hsame ?_ rfl
    rw [requestOf_layOut]
    exact requestOf_congr (container?_uproot _ _ k)
  | reparented pos activate _ _ =>
    rw [requestOf_layOut]
    exact requestOf_relocated h _ _ pos activate k
  | positioned pos _ => exact hsame (requestOf_congr (container?_place _ _ _ _ k)) rfl
  | @deferred node _ =>
    exact requestOf_updateContainer (fun c => { c with pending := true }) (by intro; rfl) node k
  | @removed node _ =>
    exact hsame (requestOf_congr ((ha.asked node).kept_removeEach hk').2.1) rfl
  | removedNow => exact hsame (requestOf_congr (ha.kept_removeEach hk').2.1) rfl
  | bounded bounds _ =>
    rw [requestOf_layOut]
    exact requestOf_updateContainer (fun c => { c with requestedBounds := bounds })
      (by intro; rfl) _ k
  | overridden bounds _ =>
    exact requestOf_updateContainer (fun c => { c with overrideBounds := bounds })
      (by intro; rfl) _ k
  | moded mode _ =>
    rw [requestOf_layOut]
    exact requestOf_updateContainer (fun c => { c with requestedMode := mode })
      (by intro; rfl) _ k

/-- What is there afterwards was there before or has just been created. -/
theorem contains_of_effect (ha' : h'.Arranged) (heffect : h.Effect c a h')
    (hk' : h'.contains k) : h.contains k ∨ a = .created k := by
  -- Most effects leave the nodes of the forest as they are.
  have hsame : (k ∈ h'.forest ↔ k ∈ h.forest) → h.contains k ∨ a = .created k := fun hmem =>
    .inl ((ha.live_iff k).2 (hmem.1 ((ha'.live_iff k).1 hk')))
  cases heffect with
  | created _ hb =>
    obtain ⟨rfl, hforest⟩ := hb.forest
    have hmem := (ha'.live_iff k).1 hk'
    rw [hforest, Forest.mem_sprout] at hmem
    rcases hmem with rfl | hmem
    · exact .inr rfl
    · exact .inl ((ha.live_iff k).2 hmem)
  | hooked hook _ => exact hsame Iff.rfl
  | attached pos _ _ => exact hsame (by rw [forest_layOut, forest_place, Forest.mem_move])
  | loose _ => exact .inl hk'
  | detached _ _ => exact hsame (by rw [forest_layOut, forest_uproot, Forest.mem_unlink])
  | reparented pos activate _ _ =>
    exact hsame (by rw [forest_layOut, forest_relocated, Forest.mem_move])
  | positioned pos _ => exact hsame (by rw [forest_place, Forest.mem_move])
  | deferred _ => exact hsame Iff.rfl
  | @removed node _ => exact .inl ((ha.asked node).kept_removeEach hk').1
  | removedNow => exact .inl (ha.kept_removeEach hk').1
  | bounded bounds _ => exact hsame (by rw [forest_layOut]; rfl)
  | overridden bounds _ => exact hsame Iff.rfl
  | moded mode _ => exact hsame (by rw [forest_layOut]; rfl)

/-- Other commands than those that attach, detach or move a container leave it with its parent, if
they leave it at all. -/
theorem parent_effect (heffect : h.Effect c a h') (hk' : h'.contains k)
    (hmoved : c.moved ≠ some k) (hdetach : c ≠ .detach k) :
    h'.forest.parent k = h.forest.parent k := by
  cases heffect with
  | created _ hb => exact hb.parent ha k
  | hooked hook _ => rfl
  | @attached node parent pos _ hfits =>
    have hne : k ≠ node := fun heq => hmoved (congrArg some heq.symm)
    rw [forest_layOut, ha.parent_place hfits, if_neg hne]
  | loose _ => rfl
  | @detached node _ _ _ =>
    have hne : k ≠ node := fun heq => hdetach (congrArg Command.detach heq.symm)
    rw [forest_layOut, forest_uproot, Forest.parent_unlink_of_ne hne]
  | @reparented node target pos activate _ hfits =>
    have hne : k ≠ node := fun heq => hmoved (congrArg some heq.symm)
    rw [forest_layOut, forest_relocated, ← forest_place, ha.parent_place hfits, if_neg hne]
  | positioned pos hp => exact (ha.sameChain_place_again hp pos k k (Forest.within_refl _ k)).1
  | deferred _ => rfl
  | @removed node _ => exact ((ha.asked node).kept_removeEach hk').2.2
  | removedNow => exact (ha.kept_removeEach hk').2.2
  | bounded bounds _ => rw [forest_layOut]; rfl
  | overridden bounds _ => rfl
  | moded mode _ => rw [forest_layOut]; rfl

end Arranged

end Hierarchy

end WindowForest
