import Mathlib.Data.List.Induction
import WindowForest.Proofs.Hierarchy.Effect

/-!
# Waiting for removal

A container whose removal was put off waits. It starts to wait in no other way, and it
waits until it is removed or moved to another parent. All that time it stays with the
parent that it has, so the parent stays as well.

For a single command both facts follow from what is known of effects: what is asked of a
container changes only by a command about it, and only two commands about it touch the
mark (`Command.pending_revise`). The two commands that would take a waiting container
from its parent without moving it elsewhere are refused. By induction on the commands
the same holds over a whole period of waiting (`Spared`).
-/

set_option autoImplicit false

namespace WindowForest

variable {η : Type}

/-- The command is to move the container to another parent. -/
def Command.Reparents (c : Command η) (node : Key) : Prop :=
  ∃ target pos activate, c = .reparent node target pos activate

/-- A command that moves a container is about it. -/
theorem Command.node?_of_moved {c : Command η} {k : Key} (hc : c.moved = some k) :
    c.node? = some k := by
  cases c <;> first | exact hc | cases hc

/-- Of the commands about a container, only removals that are put off and moves to another parent
touch its mark. -/
theorem Command.pending_revise (c : Command η) (a : Answer) (r : Container) :
    (c.revise a r).pending = r.pending ∨
      (∃ node, c = .remove node ∧ a = .deferred ∧ (c.revise a r).pending = true) ∨
      (∃ node, c.Reparents node ∧ (c.revise a r).pending = false) := by
  cases c with
  | remove node =>
    cases a with
    | deferred => exact .inr (.inl ⟨node, rfl, rfl, rfl⟩)
    | created k => exact .inl rfl
    | removed => exact .inl rfl
    | done => exact .inl rfl
  | reparent node target pos activate =>
    exact .inr (.inr ⟨node, ⟨target, pos, activate, rfl⟩, rfl⟩)
  | createDisplay id bounds => exact .inl rfl
  | createDefaultDisplay id => exact .inl rfl
  | createStack => exact .inl rfl
  | createTask id user => exact .inl rfl
  | createActivity name => exact .inl rfl
  | setHook node hook => exact .inl rfl
  | attach node parent pos => exact .inl rfl
  | detach node => exact .inl rfl
  | position node pos => exact .inl rfl
  | removeNow node => exact .inl rfl
  | setBounds node bounds => exact .inl rfl
  | setOverride node bounds => exact .inl rfl
  | setMode node mode => exact .inl rfl

namespace Hierarchy

variable {h h' : Hierarchy η} {node p k : Key} {c : Command η} {a : Answer}

/-- Whether a container waits is part of what is asked of it. -/
theorem isPending_iff : h.isPending k ↔ ∃ r, h.requestOf k = some r ∧ r.pending := by
  unfold isPending requestOf
  cases h.container? k with
  | none => simp
  | some r =>
    simp only [Option.any_some, Option.map_some, Option.some.injEq, exists_eq_left']
    rfl

/-- What waits is there. -/
theorem contains_of_isPending (hk : h.isPending k) : h.contains k := by
  obtain ⟨r, hr, -⟩ := isPending_iff.1 hk
  rw [requestOf, Option.map_eq_some_iff] at hr
  obtain ⟨d, hd, -⟩ := hr
  rw [contains_iff, hd]
  rfl

/-- What was just born does not wait. -/
theorem not_isPending_of_bears (hb : h.Bears k h') : ¬ h'.isPending k := by
  obtain ⟨r, hr, hblank⟩ := hb.blank
  rw [isPending, hr, Option.any_some, hblank.pending]
  exact Bool.false_ne_true

/-! ## One command -/

variable [Hook η]

/-- Commands after each other are carried out after each other. -/
theorem run_append (h : Hierarchy η) (before after : List (Command η)) :
    h.run (before ++ after) = (h.run before).run after := by
  unfold run
  rw [List.foldl_append]

namespace InOrder

variable (ho : h.InOrder)

include ho

/-- A container starts to wait only when its own removal is put off. -/
theorem onset (hbefore : ¬ h.isPending node) (hafter : (h.apply c).hierarchy.isPending node) :
    c = .remove node ∧ (h.apply c).result = .ok .deferred := by
  rcases ho.effect_or_refused c with ⟨a, hok, heffect⟩ | ⟨-, hsame⟩
  swap
  · rw [hsame] at hafter
    exact absurd hafter hbefore
  have hlive' := contains_of_isPending hafter
  rcases ho.arranged.contains_of_effect (ho.apply c).arranged heffect hlive' with hlive | rfl
  swap
  · exact absurd hafter (not_isPending_of_bears (bears_of_created hok))
  obtain ⟨r', hr', hpending'⟩ := isPending_iff.1 hafter
  have hrequest := ho.arranged.requestOf_effect heffect hlive hlive'
  by_cases hnode : c.node? = some node
  · rw [if_pos hnode, hr'] at hrequest
    obtain ⟨r, hr, rfl⟩ := Option.map_eq_some_iff.1 hrequest.symm
    have hidle : r.pending ≠ true := fun hpending => hbefore (isPending_iff.2 ⟨r, hr, hpending⟩)
    rcases c.pending_revise a r with heq | ⟨j, rfl, rfl, -⟩ | ⟨j, -, hfalse⟩
    · exact absurd (heq ▸ hpending') hidle
    · obtain rfl : j = node := Option.some.inj hnode
      exact ⟨rfl, hok⟩
    · rw [hfalse] at hpending'
      cases hpending'
  · rw [if_neg hnode, hr'] at hrequest
    exact absurd (isPending_iff.2 ⟨r', hrequest.symm, hpending'⟩) hbefore

/-- A container whose removal is put off waits. -/
theorem isPending_of_deferred (hok : (h.apply (.remove node)).result = .ok .deferred) :
    (h.apply (.remove node)).hierarchy.isPending node := by
  have hlive := ho.contains_of_ok rfl hok
  obtain ⟨r, hr⟩ := Option.isSome_iff_exists.1 (contains_iff.1 hlive)
  have heffect := effect_apply hok
  generalize (h.apply (.remove node)).hierarchy = h' at heffect
  cases heffect with
  | deferred _ =>
    have hrecord : (h.asked node).container? node = some r := hr
    rw [isPending, container?_updateContainer, if_pos rfl, hrecord]
    rfl

/-- A container that comes to another parent does not wait. -/
theorem not_isPending_of_reparent {target : Key} {pos : Nat} {activate : Bool}
    (hok : (h.apply (.reparent node target pos activate)).result = .ok a) :
    ¬ (h.apply (.reparent node target pos activate)).hierarchy.isPending node := by
  intro hpending
  have hlive' := contains_of_isPending hpending
  have hnode : (Command.reparent node target pos activate : Command η).node? = some node := rfl
  have hlive := ho.contains_of_ok hnode hok
  have hrequest := ho.arranged.requestOf_effect (effect_apply hok) hlive hlive'
  rw [if_pos hnode] at hrequest
  obtain ⟨r, hr, hr'⟩ := isPending_iff.1 hpending
  rw [hrequest] at hr
  obtain ⟨r₀, -, rfl⟩ := Option.map_eq_some_iff.1 hr
  cases hr'

/-- A waiting container goes on waiting, unless it is moved to another parent or removed. -/
theorem isPending_apply (hpending : h.isPending node)
    (hmove : c.Reparents node → ∀ a, (h.apply c).result ≠ .ok a)
    (hlive' : (h.apply c).hierarchy.contains node) : (h.apply c).hierarchy.isPending node := by
  rcases ho.effect_or_refused c with ⟨a, hok, heffect⟩ | ⟨-, hsame⟩
  swap
  · rw [hsame]
    exact hpending
  obtain ⟨r, hr, hwaits⟩ := isPending_iff.1 hpending
  have hlive := contains_of_isPending hpending
  have hrequest := ho.arranged.requestOf_effect heffect hlive hlive'
  rw [isPending_iff, hrequest]
  by_cases hnode : c.node? = some node
  · rw [if_pos hnode, hr]
    refine ⟨_, rfl, ?_⟩
    rcases c.pending_revise a r with heq | ⟨j, -, -, htrue⟩ | ⟨j, hj, -⟩
    · exact heq.trans hwaits
    · exact htrue
    · obtain ⟨target, pos, activate, rfl⟩ := hj
      obtain rfl : j = node := Option.some.inj hnode
      exact absurd hok (hmove ⟨target, pos, activate, rfl⟩ a)
  · rw [if_neg hnode]
    exact ⟨r, hr, hwaits⟩

/-- A waiting container stays with its parent, unless it is moved to another one or removed. -/
theorem parent_apply (hpending : h.isPending node) (hp : h.forest.parent node = some p)
    (hmove : c.Reparents node → ∀ a, (h.apply c).result ≠ .ok a)
    (hlive' : (h.apply c).hierarchy.contains node) :
    (h.apply c).hierarchy.forest.parent node = some p := by
  rcases ho.effect_or_refused c with ⟨a, hok, heffect⟩ | ⟨-, hsame⟩
  swap
  · rw [hsame]
    exact hp
  have hmoved : c.moved ≠ some node := by
    intro hc
    generalize (h.apply c).hierarchy = h' at heffect
    -- Only containers without parent are attached, and no other move is carried out.
    cases heffect with
    | attached pos hroot _ =>
      obtain rfl := Option.some.inj hc
      rw [hroot] at hp
      cases hp
    | reparented pos activate _ _ =>
      obtain rfl := Option.some.inj hc
      exact hmove ⟨_, pos, activate, rfl⟩ _ hok
    | created hnode _ =>
      rw [Command.node?_of_moved hc] at hnode
      cases hnode
    | _ => cases hc
  have hdetach : c ≠ .detach node := by
    rintro rfl
    generalize (h.apply (.detach node)).hierarchy = h' at heffect
    -- A waiting container is not detached.
    cases heffect with
    | created hnode _ => cases hnode
    | loose hroot =>
      rw [hroot] at hp
      cases hp
    | detached _ hidle => exact hidle hpending
  rw [ho.arranged.parent_effect heffect hlive' hmoved hdetach, hp]

end InOrder

/-! ## Periods of waiting -/

/-- None of the commands, given one after the other, moves the container to another parent or
removes it. -/
def Spared (h : Hierarchy η) (node : Key) : List (Command η) → Prop
  | [] => True
  | c :: rest =>
    (c.Reparents node → ∀ a, (h.apply c).result ≠ .ok a) ∧
      (h.apply c).hierarchy.contains node ∧ (h.apply c).hierarchy.Spared node rest

/-- A container is spared by commands after each other if it is so by the former and then by the
latter. -/
theorem spared_append {before after : List (Command η)} :
    h.Spared node (before ++ after) ↔
      h.Spared node before ∧ (h.run before).Spared node after := by
  induction before generalizing h with
  | nil => exact (and_iff_right trivial).symm
  | cons c before ih =>
    show (_ ∧ _ ∧ (h.apply c).hierarchy.Spared node (before ++ after)) ↔
      (_ ∧ _ ∧ (h.apply c).hierarchy.Spared node before) ∧
        ((h.apply c).hierarchy.run before).Spared node after
    rw [ih, and_assoc, and_assoc]

namespace InOrder

/-- A container that waits does so as long as it is spared. -/
theorem isPending_run (ho : h.InOrder) {commands : List (Command η)}
    (hpending : h.isPending node) (hspared : h.Spared node commands) :
    (h.run commands).isPending node := by
  induction commands generalizing h with
  | nil => exact hpending
  | cons c commands ih =>
    obtain ⟨hmove, hlive, hspared⟩ := hspared
    exact ih (ho.apply c) (ho.isPending_apply hpending hmove hlive) hspared

/-- A container that waits keeps its parent as long as it is spared. -/
theorem parent_run (ho : h.InOrder) {commands : List (Command η)} (hpending : h.isPending node)
    (hspared : h.Spared node commands) (hp : h.forest.parent node = some p) :
    (h.run commands).forest.parent node = some p := by
  induction commands generalizing h with
  | nil => exact hp
  | cons c commands ih =>
    obtain ⟨hmove, hlive, hspared⟩ := hspared
    exact ih (ho.apply c) (ho.isPending_apply hpending hmove hlive) hspared
      (ho.parent_apply hpending hp hmove hlive)

/-- A container that waits has waited all along, or ever since its removal was last put off. -/
theorem origin (ho : h.InOrder) {commands : List (Command η)}
    (hpending : (h.run commands).isPending node) :
    h.isPending node ∧ h.Spared node commands ∨
      ∃ before after, commands = before ++ .remove node :: after ∧
        ((h.run before).apply (.remove node)).result = .ok .deferred ∧
        ((h.run before).apply (.remove node)).hierarchy.Spared node after := by
  -- The induction is on the commands from the last one backwards.
  induction commands using List.reverseRecOn with
  | nil => exact .inl ⟨hpending, trivial⟩
  | append_singleton commands c ih =>
    have ho' := ho.run commands
    rw [run_append] at hpending
    have hlast : (h.run commands).isPending node → (h.run commands).Spared node [c] := by
      intro _
      refine ⟨?_, contains_of_isPending hpending, trivial⟩
      rintro ⟨target, pos, activate, rfl⟩ a hok
      exact ho'.not_isPending_of_reparent hok hpending
    by_cases hbefore : (h.run commands).isPending node
    · rcases ih hbefore with ⟨hfirst, hspared⟩ | ⟨before, after, rfl, hok, hspared⟩
      · exact .inl ⟨hfirst, spared_append.2 ⟨hspared, hlast hbefore⟩⟩
      · refine .inr ⟨before, after ++ [c], by simp, hok, spared_append.2 ⟨hspared, ?_⟩⟩
        have hsplit : ((h.run before).apply (.remove node)).hierarchy.run after =
            h.run (before ++ .remove node :: after) :=
          (run_append h before (.remove node :: after)).symm
        rw [hsplit]
        exact hlast hbefore
    · obtain ⟨rfl, hok⟩ := ho'.onset hbefore hpending
      exact .inr ⟨commands, [], rfl, hok, trivial⟩

end InOrder

/-- When a container waits for its removal, and where it is meanwhile. -/
structure Waits (h : Hierarchy η) (node : Key) : Prop where
  /-- It starts to wait only when its own removal is put off. -/
  onset : ∀ c, ¬ h.isPending node → (h.apply c).hierarchy.isPending node →
    c = .remove node ∧ (h.apply c).result = .ok .deferred
  deferred : (h.apply (.remove node)).result = .ok .deferred →
    (h.apply (.remove node)).hierarchy.isPending node
  /-- A move to another parent ends the waiting. -/
  reparented : ∀ target pos activate a,
    (h.apply (.reparent node target pos activate)).result = .ok a →
      ¬ (h.apply (.reparent node target pos activate)).hierarchy.isPending node
  /-- Until it is moved to another parent or removed, it goes on waiting. -/
  stays : ∀ commands, h.isPending node → h.Spared node commands →
    (h.run commands).isPending node
  /-- If it has a parent at any time while it waits, it has that parent ever after. -/
  bound : ∀ before after p, h.isPending node → h.Spared node (before ++ after) →
    (h.run before).forest.parent node = some p →
    (h.run (before ++ after)).contains p ∧
      (h.run (before ++ after)).forest.parent node = some p ∧
      node ∈ (h.run (before ++ after)).forest.children p
  /-- Whenever it waits, it has done so all along, or ever since its removal was put off. -/
  origin : ∀ commands, (h.run commands).isPending node →
    h.isPending node ∧ h.Spared node commands ∨
      ∃ before after, commands = before ++ .remove node :: after ∧
        ((h.run before).apply (.remove node)).result = .ok .deferred ∧
        ((h.run before).apply (.remove node)).hierarchy.Spared node after

/-- In a hierarchy in order a container waits as it should. -/
theorem waits_of_inOrder (ho : h.InOrder) (node : Key) : h.Waits node where
  onset _ := ho.onset
  deferred := ho.isPending_of_deferred
  reparented _ _ _ _ := ho.not_isPending_of_reparent
  stays _ := ho.isPending_run
  bound before after p hpending hspared hp := by
    obtain ⟨hfirst, hsecond⟩ := spared_append.1 hspared
    have ho' := ho.run before
    have harranged := (ho'.run after).arranged
    have hparent := ho'.parent_run (ho.isPending_run hpending hfirst) hsecond hp
    rw [run_append]
    refine ⟨?_, hparent, harranged.wellFormed.mem_children_iff.2 hparent⟩
    exact (harranged.live_iff p).2 (harranged.wellFormed.rooted.parent_mem hparent)
  origin _ := ho.origin

/-- Whatever commands were given and will be given, a container that waits for its removal stays
with its parent. -/
theorem Reachable.waits {settings : Settings} (hr : Reachable settings h) (node : Key) :
    h.Waits node :=
  waits_of_inOrder hr.inOrder node

omit [Hook η] in
/-- The removal of the task is put off once. Then neither the task leaves the stack, nor does the
stack that is detached leave the task behind. -/
theorem waits_furnished :
    Reachable {} furnished ∧ (∀ node, furnished.Waits node) ∧
      (furnished.apply (.remove ⟨4, 1⟩)).result = .ok .deferred ∧
      (furnished.apply (.remove ⟨4, 1⟩)).hierarchy.Spared ⟨4, 1⟩ [.detach ⟨4, 1⟩, .detach ⟨3, 1⟩] ∧
      (furnished.run [.remove ⟨4, 1⟩, .detach ⟨4, 1⟩, .detach ⟨3, 1⟩]).isPending ⟨4, 1⟩ ∧
      (furnished.run [.remove ⟨4, 1⟩, .detach ⟨4, 1⟩, .detach ⟨3, 1⟩]).forest.parent ⟨4, 1⟩ =
        some ⟨3, 1⟩ := by
  have hr := reachable_furnished
  refine ⟨hr, hr.waits, by decide, ?_, by decide, by decide⟩
  exact ⟨nofun, by decide, nofun, by decide, trivial⟩

end Hierarchy

end WindowForest
