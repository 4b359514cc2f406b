import WindowForest.Proofs.Hierarchy.Determined
import WindowForest.Proofs.Hierarchy.Effect
import WindowForest.Proofs.Hierarchy.Teardown

/-!
# Which child was last active

A command that is carried out treats the pointers to last active children in one of three
ways (`Shift`). Most commands leave them alone. When a container leaves its parent, the
parent passes its pointer on, and this is all that anyone notices who stays, even if the
container is taken down leaf by leaf. And when a container is moved and made active, the
pointers above it are led to it in addition, which comes last and so prevails where the
old parent is above the new place.

From the three ways follows the law of succession (`Reachable.succession`): where every
pointer leads after a command, and that pointers inside of a moved tree travel with it.
-/

set_option autoImplicit false

namespace WindowForest

variable {η : Type}

/-! ## Making a node active -/

namespace Focus

variable {s : Focus} {f : Forest} {c k node p q : Key}

/-- Making a missing node active changes no pointer. -/
theorem select_of_notMem (hk : k ∉ f) : s.select f k = s := by
  unfold select
  rw [Forest.ancestors_of_notMem hk]
  rfl

/-- Making a root active changes no pointer. -/
theorem select_of_root (hf : f.Rooted) (hk : k ∈ f) (hroot : f.parent k = none) :
    s.select f k = s := by
  unfold select
  rw [hf.ancestors_of_root hk hroot, List.foldl_cons, hroot]
  rfl

/-- The parent is pointed to the node, and then it is made active itself. -/
theorem select_of_parent (hf : f.Rooted) (hp : f.parent k = some p) :
    s.select f k = (s.point p k).select f p := by
  unfold select
  rw [hf.ancestors_of_parent hp, List.foldl_cons, hp]

/-- Pointers of nodes that are not above the active one stay as they are. -/
theorem lastActive_select_of_not_above (hf : f.Rooted)
    (hq : ∀ c, f.parent c = some q → ¬ f.Within c node) :
    (s.select f node).lastActive q = s.lastActive q := by
  induction node using hf.induction generalizing s with
  | root k hroot =>
    by_cases hk : k ∈ f
    · rw [select_of_root hf hk hroot]
    · rw [select_of_notMem hk]
  | child k p hp ih =>
    have hne : p ≠ q := by
      rintro rfl
      exact hq k hp (Forest.within_refl f k)
    rw [select_of_parent hf hp, ih fun c hc hw => hq c hc (hw.child hp), lastActive_point,
      if_neg hne]

/-- Above the active node, every pointer leads to the child on the way to it. -/
theorem lastActive_select (hf : f.Rooted) (hc : f.parent c = some q) (hw : f.Within c node) :
    (s.select f node).lastActive q = some c := by
  induction node using hf.induction generalizing s with
  | root k hroot =>
    obtain rfl := hw.eq_of_root hroot
    rw [hroot] at hc
    cases hc
  | child k p hp ih =>
    rw [select_of_parent hf hp]
    rcases Forest.within_iff.1 hw with rfl | ⟨p', hp', hw'⟩
    · -- The pointer is set in the first step, and the steps above it concern other pointers.
      obtain rfl := Option.mem_unique hp hc
      have hstays : ∀ j, f.parent j = some p → ¬ f.Within j p := fun j => hf.not_within_parent
      rw [lastActive_select_of_not_above hf hstays, lastActive_point, if_pos rfl]
    · obtain rfl := Option.mem_unique hp hp'
      exact ih hw'

/-- A node and the child that it points to have the same active node below them. -/
theorem Valid.active_eq (hf : f.WellFormed) (h : s.Valid f) (hc : s.lastActive p = some c) :
    s.active p = s.active c := by
  obtain ⟨path, hpath, -⟩ := h.exists_path hf c
  have hlast := getLast?_path hpath
  have hlonger : Trail s.lastActive (some p) (p :: path) none := ⟨rfl, hc.symm ▸ hpath⟩
  have hlast' := getLast?_path hlonger
  rw [List.getLast?_cons, hlast, Option.getD_some] at hlast'
  exact (Option.some.inj hlast').symm

/-- Where all pointers above a node lead to it, the search for the active node passes through it. -/
theorem Valid.active_eq_of_within (hf : f.WellFormed) (h : s.Valid f)
    (hled : ∀ p c, f.parent c = some p → f.Within c node → s.lastActive p = some c)
    (hw : f.Within p node) : s.active p = s.active node := by
  induction p using hf.rooted.descend with
  | node p ih =>
    rcases Forest.within_iff_head.1 hw with rfl | ⟨c, hc, hw'⟩
    · rfl
    · exact (h.active_eq hf (hled p c hc hw')).trans (ih c hc hw')

end Focus

/-! ## The commands -/

/-- The container that leaves its parent, if it has one, by a command that was answered in this
way. -/
def Command.leaver? : Command η → Answer → Option Key
  | detach node, _ => some node
  | reparent node _ _ _, _ => some node
  | remove node, .removed => some node
  | removeNow node, _ => some node
  | _, _ => none

/-- The container that a command makes active. -/
def Command.activated? : Command η → Option Key
  | reparent node _ _ true => some node
  | _ => none

/-- What a command makes active has left its place before. -/
theorem Command.leaver?_of_activated {c : Command η} {n : Key} (hc : c.activated? = some n)
    (a : Answer) : c.leaver? a = some n := by
  cases c with
  | reparent node target pos activate =>
    cases activate with
    | false => cases hc
    | true => exact hc
  | _ => cases hc

/-- Only the container that a command is about can leave by it. -/
theorem Command.node?_of_leaver {c : Command η} {a : Answer} {n : Key}
    (hc : c.leaver? a = some n) : c.node? = some n := by
  cases c with
  | detach node => exact hc
  | reparent node target pos activate => exact hc
  | removeNow node => exact hc
  | remove node =>
    cases a with
    | removed => exact hc
    | _ => cases hc
  | _ => cases hc

namespace Hierarchy

variable {h h' : Hierarchy η} {node p k : Key} {c : Command η} {a : Answer}

/-- In this hierarchy, the container lies above the one that the command has made active. -/
def Leads (h : Hierarchy η) (c : Command η) (p : Key) : Prop :=
  ∃ n, c.activated? = some n ∧ p ≠ n ∧ h.forest.Within p n

/-- Where the pointers to last active children lead after a command that was carried out. -/
structure Succession (h : Hierarchy η) (c : Command η) (a : Answer) (h' : Hierarchy η) : Prop where
  /-- Above a container that was made active, every pointer leads to the child on the way to it,
  and so the active container is the same for both. -/
  led : ∀ n p, c.activated? = some n → p ≠ n → h'.forest.Within p n →
    ∃ child, h'.forest.parent child = some p ∧ h'.forest.Within child n ∧
      h'.lastActive p = some child ∧ h'.active p = h'.active n
  /-- The pointer to a container that has left goes over to the sibling behind it, or else to the
  one in front of it. -/
  passed_on : ∀ n p, c.leaver? a = some n → h.forest.parent n = some p →
    h.lastActive p = some n → h'.contains p → ¬ h'.Leads c p →
    h'.lastActive p = (h.forest.next n).or (h.forest.prev n)
  /-- All other pointers are what they were. -/
  kept : ∀ p, h'.contains p → ¬ h'.Leads c p →
    (∀ n, c.leaver? a = some n → h.forest.parent n = some p → h.lastActive p ≠ some n) →
    h'.lastActive p = h.lastActive p
  /-- No pointer changes where no container leaves. -/
  still : c.leaver? a = none → ∀ p, h'.contains p → h'.lastActive p = h.lastActive p
  /-- Inside of the tree that a command is about, the pointers stay the same. -/
  carried : ∀ n p, c.node? = some n → h.forest.Within n p → h'.contains p →
    h'.lastActive p = h.lastActive p

/-! ## What becomes of the pointers -/

/-- The three ways in which a command treats the pointers. -/
inductive Shift (h : Hierarchy η) (c : Command η) (a : Answer) (h' : Hierarchy η) : Prop
  /-- Nobody leaves, and all pointers stay. -/
  | still :
    c.leaver? a = none → c.activated? = none → h'.records.focus = h.records.focus → Shift h c a h'
  /-- A container leaves. -/
  | left (n : Key) :
    c.leaver? a = some n → c.activated? = none →
    (∀ p, h'.contains p → h'.lastActive p = (h.records.focus.leave h.forest n).lastActive p) →
    Shift h c a h'
  /-- A container leaves with all below it, and becomes active at its new place. -/
  | led (n : Key) :
    c.leaver? a = some n → c.activated? = some n →
    h'.records.focus = (h.records.focus.leave h.forest n).select h'.forest n →
    (∀ k, h.forest.Within n k → h'.forest.Within n k) → Shift h c a h'

/-- Laying out a tree changes no pointer. -/
theorem focus_layOut (h : Hierarchy η) (top : Key) :
    (h.layOut top).records.focus = h.records.focus := by
  apply focus_of_besides
  rw [besides_layOut]

/-- Making a container changes no pointer. -/
theorem focus_create (h : Hierarchy η) (r : Container) :
    (h.create r).records.focus = h.records.focus := by
  show ((h.insertContainer r).2.records.list h.forest.nextKey r.kind).focus = h.records.focus
  rw [Records.focus_list]
  exact h.tree.focus_create

/-- A container that comes under another parent is said to leave its own, and otherwise no pointer
changes. -/
theorem focus_place (h : Hierarchy η) (node parent : Key) (pos : Nat) :
    (h.place node parent pos).records.focus =
      if h.forest.parent node = some parent then h.records.focus
      else h.records.focus.leave h.forest node :=
  h.tree.focus_place node parent pos

/-- A container that is taken from its parent is said to leave it. -/
theorem focus_uproot (h : Hierarchy η) (node : Key) :
    (h.uproot node).records.focus = h.records.focus.leave h.forest node :=
  h.tree.focus_uproot node

/-- A birth changes no pointer. -/
theorem Bears.focus {j : Key} (hb : h.Bears j h') : h'.records.focus = h.records.focus := by
  cases hb with
  | created r _ _ => exact focus_create h r
  | displayed r _ _ => exact (focus_layOut _ _).trans (focus_create h r)

/-- Whoever stays when a tree is taken down has seen its top leave, and nothing else. -/
theorem Arranged.lastActive_removeEach (ha : h.Arranged) (hnode : h.contains node)
    (hp : (h.removeEach (h.forest.postorder node)).1.contains p) :
    (h.removeEach (h.forest.postorder node)).1.lastActive p =
      (h.records.focus.leave h.forest node).lastActive p := by
  have hmem := (ha.live_iff node).1 hnode
  have hout : ¬ h.forest.Within node p := by
    rw [(ha.removeEach _).live_iff,
      ha.mem_removeEach (ha.wellFormed.leavesFirst_postorder node),
      ha.wellFormed.mem_postorder_iff] at hp
    exact fun hw => hp.2 ⟨hmem, hw⟩
  rw [(ha.noticed_postorder hmem hout).2, Focus.lastActive_leave]
  rfl

/-- Every effect treats the pointers in one of the three ways. -/
theorem Effect.shift [Hook η] (heffect : h.Effect c a h') (ha : h.Arranged)
    (hlive : ∀ n, c.node? = some n → h.contains n) : h.Shift c a h' := by
  cases heffect with
  | @created c k _ hc hb =>
    -- Only commands about a container that is there make one leave or become active.
    have hleaver : c.leaver? (.created k) = none := by
      rw [Option.eq_none_iff_forall_ne_some]
      intro n hn
      rw [Command.node?_of_leaver hn] at hc
      cases hc
    have hactivated : c.activated? = none := by
      rw [Option.eq_none_iff_forall_ne_some]
      intro n hn
      rw [Command.leaver?_of_activated hn] at hleaver
      cases hleaver
    exact .still hleaver hactivated hb.focus
  | hooked hook _ => exact .still rfl rfl rfl
  | @attached node parent pos hroot _ =>
    have hplaced : (h.place node parent pos).records.focus = h.records.focus :=
      focus_of_besides (besides_place_of_root hroot pos)
    exact .still rfl rfl ((focus_layOut _ _).trans hplaced)
  | @loose node hroot =>
    refine .left node rfl rfl fun p _ => ?_
    unfold Focus.leave
    rw [hroot]
    rfl
  | @detached node _ _ _ =>
    refine .left node rfl rfl fun p _ => ?_
    rw [← focus_uproot, ← focus_layOut _ node]
    rfl
  | @reparented node target pos activate hnew hfits =>
    have hfocus := (focus_place h node target pos).trans (if_neg hnew)
    cases activate with
    | false =>
      have hmoved := (focus_layOut (h.relocated node target pos false) node).trans hfocus
      exact .left node rfl rfl fun p _ => congrArg (fun s => s.lastActive p) hmoved
    | true =>
      -- The pointers are led through the forest in which the container has its new place.
      have hforest : ((h.relocated node target pos true).layOut node).forest =
          (h.place node target pos).forest := forest_layOut _ node
      refine .led node rfl rfl ?_ ?_
      · rw [focus_layOut, hforest, ← hfocus]
        rfl
      · intro k hw
        rwa [hforest, ha.within_place hfits]
  | positioned pos hp => exact .still rfl rfl ((focus_place h _ _ pos).trans (if_pos hp))
  | deferred _ => exact .still rfl rfl rfl
  | @removed node _ =>
    refine .left node rfl rfl fun p hp => ?_
    exact (ha.asked node).lastActive_removeEach (hlive node rfl) hp
  | @removedNow node =>
    exact .left node rfl rfl fun p hp => ha.lastActive_removeEach (hlive node rfl) hp
  | bounded bounds _ => exact .still rfl rfl (focus_layOut _ _)
  | overridden bounds _ => exact .still rfl rfl rfl
  | moded mode _ => exact .still rfl rfl (focus_layOut _ _)

namespace Shift

variable (hshift : h.Shift c a h')

include hshift

/-- If nobody leaves, no pointer changes. -/
theorem of_still (hc : c.leaver? a = none) (p : Key) : h'.lastActive p = h.lastActive p := by
  cases hshift with
  | still _ _ hfocus =>
    rw [Hierarchy.lastActive, hfocus]
    rfl
  | left n hleaver _ _ => simp [hleaver] at hc
  | led n hleaver _ _ _ => simp [hleaver] at hc

/-- What is not led to the new place only sees a container leave. -/
theorem of_leaver (hrooted : h'.forest.Rooted) {n : Key} (hc : c.leaver? a = some n)
    (hp : h'.contains p) (hout : ¬ h'.Leads c p) :
    h'.lastActive p = (h.records.focus.leave h.forest n).lastActive p := by
  cases hshift with
  | still hleaver _ _ => simp [hleaver] at hc
  | left m hleaver _ hlast =>
    obtain rfl := Option.mem_unique hleaver hc
    exact hlast p hp
  | led m hleaver hactive hfocus _ =>
    obtain rfl := Option.mem_unique hleaver hc
    have habove : ∀ j, h'.forest.parent j = some p → ¬ h'.forest.Within j m := by
      intro j hj hw
      refine hout ⟨m, hactive, ?_, (Forest.within_of_parent hj).trans hw⟩
      rintro rfl
      exact hrooted.not_within_parent hj hw
    rw [Hierarchy.lastActive, hfocus, Focus.lastActive_select_of_not_above hrooted habove]

/-- Only the pointer to a container that leaves is passed on. -/
theorem of_not_left (hrooted : h'.forest.Rooted) (hp : h'.contains p) (hout : ¬ h'.Leads c p)
    (hstays : ∀ n, c.leaver? a = some n → h.forest.parent n = some p → h.lastActive p ≠ some n) :
    h'.lastActive p = h.lastActive p := by
  cases hc : c.leaver? a with
  | none => exact hshift.of_still hc p
  | some n =>
    rw [hshift.of_leaver hrooted hc hp hout, Focus.lastActive_leave,
      if_neg fun hboth => hstays n hc hboth.1 hboth.2]
    rfl

/-- Above a container that was made active, a pointer leads to the child on the way to it. -/
theorem of_activated (hrooted : h'.forest.Rooted) {n child : Key} (hc : c.activated? = some n)
    (hchild : h'.forest.parent child = some p) (hw : h'.forest.Within child n) :
    h'.lastActive p = some child := by
  cases hshift with
  | still _ hactive _ => simp [hactive] at hc
  | left m _ hactive _ => simp [hactive] at hc
  | led m _ hactive hfocus _ =>
    obtain rfl := Option.mem_unique hactive hc
    rw [Hierarchy.lastActive, hfocus, Focus.lastActive_select hrooted hchild hw]

/-- Nothing inside of a moved tree comes to lie above its top. -/
theorem not_leads (hrooted : h'.forest.Rooted) {n : Key} (hc : c.node? = some n)
    (hw : h.forest.Within n p) : ¬ h'.Leads c p := by
  rintro ⟨m, hm, hne, habove⟩
  cases hshift with
  | still _ hactive _ => simp [hactive] at hm
  | left j _ hactive _ => simp [hactive] at hm
  | led j hleaver hactive _ hbelow =>
    obtain rfl := Option.mem_unique hactive hm
    obtain rfl := Option.mem_unique (Command.node?_of_leaver hleaver) hc
    exact hne (hrooted.within_antisymm habove (hbelow p hw))

end Shift

/-- From each of the three ways follows the law of succession. -/
theorem succession_of_shift (hshift : h.Shift c a h') (ho : h.InOrder) (ho' : h'.InOrder) :
    h.Succession c a h' := by
  have hrooted := ho'.arranged.wellFormed.rooted
  constructor
  case led =>
    intro n p hc hne hw
    obtain rfl | ⟨child, hchild, hw'⟩ := Forest.within_iff_head.1 hw
    · exact absurd rfl hne
    · refine ⟨child, hchild, hw', hshift.of_activated hrooted hc hchild hw', ?_⟩
      refine ho'.focused.active_eq_of_within ho'.arranged.wellFormed ?_ hw
      exact fun q j hj hwj => hshift.of_activated hrooted hc hj hwj
  case passed_on =>
    intro n p hc hparent hlast hp hout
    rw [hshift.of_leaver hrooted hc hp hout, Focus.lastActive_leave, if_pos ⟨hparent, hlast⟩]
  case kept => exact fun p => hshift.of_not_left hrooted
  case still => exact fun hc p _ => hshift.of_still hc p
  case carried =>
    intro n p hnode hw hp
    refine hshift.of_not_left hrooted hp (hshift.not_leads hrooted hnode hw) ?_
    intro m hm hparent
    obtain rfl := Option.mem_unique (Command.node?_of_leaver hm) hnode
    exact absurd hw (ho.arranged.wellFormed.rooted.not_within_parent hparent)

/-- Whatever command is carried out, the pointers of all containers that stay lead where the law of
succession says. -/
theorem Reachable.succession [Hook η] {settings : Settings} (hr : Reachable settings h)
    (hok : (h.apply c).result = .ok a) : h.Succession c a (h.apply c).hierarchy := by
  have hlive : ∀ n, c.node? = some n → h.contains n := fun n hn =>
    hr.inOrder.contains_of_ok hn hok
  have hshift := (effect_apply hok).shift hr.arranged hlive
  exact succession_of_shift hshift hr.inOrder (hr.step c).inOrder

/-- A task that has been active in one stack comes to another stack of the same display and becomes
active there. The display is now led to the other stack, and the one that the task has left has no
active child any more. -/
theorem succession_furnished :
    ∃ h : Hierarchy Voter, Reachable {} h ∧
      h.lastActive ⟨1, 1⟩ = some ⟨5, 1⟩ ∧ h.lastActive ⟨5, 1⟩ = some ⟨4, 1⟩ ∧
      (h.apply (.reparent ⟨4, 1⟩ ⟨3, 1⟩ 0 true)).result = .ok .done ∧
      h.Succession (.reparent ⟨4, 1⟩ ⟨3, 1⟩ 0 true) .done
        (h.apply (.reparent ⟨4, 1⟩ ⟨3, 1⟩ 0 true)).hierarchy ∧
      (h.apply (.reparent ⟨4, 1⟩ ⟨3, 1⟩ 0 true)).hierarchy.lastActive ⟨1, 1⟩ = some ⟨3, 1⟩ ∧
      (h.apply (.reparent ⟨4, 1⟩ ⟨3, 1⟩ 0 true)).hierarchy.active ⟨1, 1⟩ = ⟨4, 1⟩ ∧
      (h.apply (.reparent ⟨4, 1⟩ ⟨3, 1⟩ 0 true)).hierarchy.lastActive ⟨5, 1⟩ = none := by
  have hr := reachable_furnished.run
    [.createStack, .attach ⟨5, 1⟩ ⟨1, 1⟩ 0, .reparent ⟨4, 1⟩ ⟨5, 1⟩ 0 true]
  exact ⟨_, hr, by decide, by decide, by rfl, hr.succession (by rfl), by decide, by decide,
    by decide⟩

end Hierarchy

end WindowForest
