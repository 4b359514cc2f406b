import WindowForest.Proofs.Hierarchy.Building

/-!
# Building in any order

Two building commands that do not conflict may be given in either order. On the way the
two orders differ: a container that is attached to a loose one shows other bounds than
one that is attached to a display. In the end they do not, because a hierarchy is
determined by its links and by what is asked of its containers, and on these the two
commands act apart from each other.

Commands that may be exchanged where they stand next to each other may be rearranged over
any distance (`Rearranged`). In particular a tree may be assembled from above or from
below, as long as the children of each container come in the same order.
-/

set_option autoImplicit false

namespace WindowForest

variable {η : Type}

/-! ## Rearrangements -/

/-- The second list comes from the first one by exchanging building commands that stand next to each
other and do not conflict. -/
inductive Rearranged : List (Command η) → List (Command η) → Prop
  | refl (l : List (Command η)) : Rearranged l l
  | cons (c : Command η) {l l' : List (Command η)} :
    Rearranged l l' → Rearranged (c :: l) (c :: l')
  | swap {c d : Command η} (l : List (Command η)) :
    c.Builds → d.Builds → ¬ c.Conflicts d → Rearranged (c :: d :: l) (d :: c :: l)
  | trans {l l' l'' : List (Command η)} :
    Rearranged l l' → Rearranged l' l'' → Rearranged l l''

namespace Rearranged

variable {l l' m m' : List (Command η)} {c : Command η}

/-- What comes in front makes no difference to a rearrangement. -/
theorem append_left (m : List (Command η)) (h : Rearranged l l') :
    Rearranged (m ++ l) (m ++ l') := by
  induction m with
  | nil => exact h
  | cons c m ih => exact ih.cons c

/-- What comes behind makes no difference to a rearrangement. -/
theorem append_right (h : Rearranged l l') (m : List (Command η)) :
    Rearranged (l ++ m) (l' ++ m) := by
  induction h with
  | refl l => exact .refl _
  | cons c _ ih => exact ih.cons c
  | swap l hc hd hfree => exact .swap (l ++ m) hc hd hfree
  | trans _ _ ih ih' => exact ih.trans ih'

/-- A command that conflicts with none of those in front of it may as well come first. -/
theorem to_front (hc : c.Builds) (hl : ∀ d ∈ l, d.Builds ∧ ¬ d.Conflicts c)
    (m : List (Command η)) : Rearranged (l ++ c :: m) (c :: (l ++ m)) := by
  induction l with
  | nil => exact .refl _
  | cons d l ih =>
    obtain ⟨hd, hfree⟩ := hl d (by simp)
    have hrest := ih fun e he => hl e (by simp [he])
    exact (hrest.cons d).trans (.swap (l ++ m) hd hc hfree)

end Rearranged

/-! ## Plans -/

/-- A plan of a tree that is to be assembled below some container: for each child in turn its key,
the position that it is attached at, and the plan of what comes below it. -/
inductive Plan where
  | done
  | part (node : Key) (pos : Nat) (below rest : Plan)
deriving Repr, Inhabited

namespace Plan

/-- The containers that are to be attached. -/
def nodes : Plan → List Key
  | done => []
  | part node _ below rest => node :: (below.nodes ++ rest.nodes)

/-- Each child is attached once the tree below it is complete. -/
def bottomUp (parent : Key) : Plan → List (Command η)
  | done => []
  | part node pos below rest =>
    below.bottomUp node ++ .attach node parent pos :: rest.bottomUp parent

/-- Each child is attached before anything comes below it. -/
def topDown (parent : Key) : Plan → List (Command η)
  | done => []
  | part node pos below rest =>
    .attach node parent pos :: (below.topDown node ++ rest.topDown parent)

/-- A plan attaches its own containers, each to another one of them or to the top. -/
theorem exists_of_mem_topDown {parent : Key} {plan : Plan} {c : Command η}
    (hc : c ∈ plan.topDown parent) : ∃ node p pos, c = .attach node p pos ∧ node ∈ plan.nodes ∧
      p ∈ parent :: plan.nodes := by
  induction plan generalizing parent with
  | done => cases hc
  | part node pos below rest ihbelow ihrest =>
    rcases List.mem_cons.1 hc with rfl | hc
    · exact ⟨node, parent, pos, rfl, by simp [nodes], by simp⟩
    rcases List.mem_append.1 hc with hc | hc
    · obtain ⟨j, p, pos', rfl, hj, hp⟩ := ihbelow hc
      refine ⟨j, p, pos', rfl, by simp [nodes, hj], ?_⟩
      rcases List.mem_cons.1 hp with rfl | hp
      · simp [nodes]
      · simp [nodes, hp]
    · obtain ⟨j, p, pos', rfl, hj, hp⟩ := ihrest hc
      refine ⟨j, p, pos', rfl, by simp [nodes, hj], ?_⟩
      rcases List.mem_cons.1 hp with rfl | hp
      · simp
      · simp [nodes, hp]

/-- Assembling from below and from above is the same up to rearrangement, if no container is
attached twice. -/
theorem rearranged {parent : Key} {plan : Plan} (hnodup : (parent :: plan.nodes).Nodup) :
    Rearranged (plan.bottomUp parent : List (Command η)) (plan.topDown parent) := by
  induction plan generalizing parent with
  | done => exact .refl []
  | part node pos below rest ihbelow ihrest =>
    obtain ⟨hparent, hnodes⟩ := List.nodup_cons.1 hnodup
    obtain ⟨hnode, hparts⟩ := List.nodup_cons.1 hnodes
    obtain ⟨hbelow, hrest, -⟩ := List.nodup_append.1 hparts
    simp only [nodes, List.mem_cons, List.mem_append, not_or] at hparent hnode
    have hinner := ihbelow (List.nodup_cons.2 ⟨hnode.1, hbelow⟩)
    have houter := ihrest (List.nodup_cons.2 ⟨hparent.2.2, hrest⟩)
    -- What comes below the child has neither that child nor the parent of the child to conflict at.
    have hfree : ∀ d ∈ (below.topDown node : List (Command η)),
        d.Builds ∧ ¬ d.Conflicts (.attach node parent pos) := by
      intro d hd
      obtain ⟨j, p, pos', rfl, hj, hp⟩ := exists_of_mem_topDown hd
      refine ⟨.attach j p pos', ?_⟩
      rintro (rfl | rfl)
      · exact hnode.1 hj
      · rcases List.mem_cons.1 hp with rfl | hp
        · exact hparent.1 rfl
        · exact hparent.2.1 hp
    have hfirst := hinner.append_right (.attach node parent pos :: rest.bottomUp parent)
    have hfront := Rearranged.to_front (.attach node parent pos) hfree (rest.bottomUp parent)
    exact (hfirst.trans hfront).trans ((houter.append_left _).cons _)

end Plan

namespace Hierarchy

variable [Hook η] {h h' : Hierarchy η} {settings : Settings} {k : Key} {c d : Command η}

/-! ## Two commands -/

/-- The calls of hooks that commands make, given one after the other. -/
def callsOf (h : Hierarchy η) : List (Command η) → List Call
  | [] => []
  | c :: rest => (h.apply c).calls ++ (h.apply c).hierarchy.callsOf rest

omit [Hook η] in
/-- Two building commands relink the forest in either order to the same effect. -/
theorem Built.relink_comm {h₁ h₂ h₁₂ h₂₁ : Hierarchy η} (ha : h.Arranged) (hfree : ¬ c.Conflicts d)
    (hc : h.Built c h₁) (hd : h.Built d h₂) (hcd : h₁.Built d h₁₂) (hdc : h₂.Built c h₂₁) :
    h₁₂.forest = h₂₁.forest := by
  rw [hcd.forest, hdc.forest, hc.forest, hd.forest]
  cases c with
  | attach node parent pos =>
    cases d with
    | attach node' parent' pos' =>
      have hparents : parent ≠ parent' := fun heq => hfree (.inr heq)
      have hafter := hcd.movable node' parent' pos' rfl
      have hafter' := hdc.movable node parent pos rfl
      rw [hc.forest] at hafter
      rw [hd.forest] at hafter'
      exact ha.wellFormed.move_comm (hc.movable node parent pos rfl)
        (hd.movable node' parent' pos' rfl) hafter hafter' hparents
    | _ => rfl
  | _ => rfl

omit [Hook η] in
/-- Two building commands ask of the containers in either order the same. -/
theorem Built.request_comm {h₁ h₂ h₁₂ h₂₁ : Hierarchy η} (hbc : c.Builds) (hbd : d.Builds)
    (hfree : ¬ c.Conflicts d) (hc : h.Built c h₁) (hd : h.Built d h₂) (hcd : h₁.Built d h₁₂)
    (hdc : h₂.Built c h₂₁) (k : Key) : h₁₂.requestOf k = h₂₁.requestOf k := by
  rw [hcd.request, hdc.request, hc.request, hd.request]
  by_cases hkc : c.node? = some k
  · by_cases hkd : d.node? = some k
    · rw [if_pos hkc, if_pos hkc, if_pos hkd, if_pos hkd, Option.map_map, Option.map_map]
      have hsame := hkc.trans hkd.symm
      apply Option.map_congr
      intro r _
      exact (Command.revise_comm hbc hbd hfree hsame .done .done r).symm
    · rw [if_pos hkc, if_pos hkc, if_neg hkd, if_neg hkd]
  · by_cases hkd : d.node? = some k
    · rw [if_neg hkc, if_neg hkc, if_pos hkd]
    · rw [if_neg hkc, if_neg hkc, if_neg hkd]

namespace Reachable

variable (hr : Reachable settings h) (hc : c.Builds) (hd : d.Builds) (hfree : ¬ c.Conflicts d)

include hr hc hd hfree

/-- Two building commands lead to the same hierarchy in either order. -/
theorem run_comm : h.run [c, d] = h.run [d, c] := by
  show ((h.apply c).hierarchy.apply d).hierarchy = ((h.apply d).hierarchy.apply c).hierarchy
  have hfault := hr.faultOf_apply hc hd hfree
  have hfault' := hr.faultOf_apply hd hc (Command.not_conflicts_symm hfree)
  rcases hr.inOrder.built_or_refused hc with ⟨hok, hbuilt⟩ | ⟨hno, hsame⟩
  swap
  · -- What is refused at first is refused afterwards as well.
    rcases (hr.step d).inOrder.built_or_refused hc with ⟨hok', -⟩ | ⟨-, hsame'⟩
    · exact absurd (hfault'.symm.trans hok') hno
    · rw [hsame, hsame']
  rcases hr.inOrder.built_or_refused hd with ⟨hok', hbuilt'⟩ | ⟨hno', hsame'⟩
  swap
  · rcases (hr.step c).inOrder.built_or_refused hd with ⟨hok', -⟩ | ⟨-, hsame⟩
    · exact absurd (hfault.symm.trans hok') hno'
    · rw [hsame, hsame']
  rcases (hr.step c).inOrder.built_or_refused hd with ⟨-, hafter⟩ | ⟨hno, -⟩
  swap
  · exact absurd (hfault.trans hok') hno
  rcases (hr.step d).inOrder.built_or_refused hc with ⟨-, hafter'⟩ | ⟨hno, -⟩
  swap
  · exact absurd (hfault'.trans hok) hno
  -- Both are carried out in both orders, and in between the layouts may differ.
  have hr₁ := (hr.step c).step d
  have hr₂ := (hr.step d).step c
  apply eq_of_requests hr₂.arranged hr₂.settled hr₁.settled
  · exact Built.relink_comm hr.arranged hfree hbuilt hbuilt' hafter hafter'
  · exact Built.request_comm hc hd hfree hbuilt hbuilt' hafter hafter'
  · rw [hafter.besides, hbuilt.besides, hafter'.besides, hbuilt'.besides]

omit hfree in
/-- What two building commands report of a container can be seen from its displays. -/
theorem arrivals_pair (k : Key) :
    (arrivals (h.callsOf [c, d])).filter (·.1 = k) =
      if k ∈ h.records.hooks then news k (h.displayOf k) ((h.run [c, d]).displayOf k)
      else [] := by
  have hcalls : h.callsOf [c, d] = (h.apply c).calls ++ ((h.apply c).hierarchy.apply d).calls := by
    simp [callsOf]
  have hhooks : (h.apply c).hierarchy.records.hooks = h.records.hooks :=
    hooks_of_besides (hr.inOrder.besides_build hc)
  rw [hcalls, arrivals_append, List.filter_append, hr.arrivals_build hc,
    (hr.step c).arrivals_build hd, hhooks]
  by_cases hhook : k ∈ h.records.hooks
  · rw [if_pos hhook, if_pos hhook, if_pos hhook]
    exact news_append (fun _ => hr.displayOf_build hc) fun _ => (hr.step c).displayOf_build hd
  · rw [if_neg hhook, if_neg hhook, if_neg hhook]
    rfl

end Reachable

/-- Two commands may be given in either order. -/
structure Commute (h : Hierarchy η) (c d : Command η) : Prop where
  /-- The verdict on each command is the same whether it comes first or last. -/
  first : faultOf ((h.apply d).hierarchy.apply c).result = faultOf (h.apply c).result
  second : faultOf ((h.apply c).hierarchy.apply d).result = faultOf (h.apply d).result
  /-- The resulting hierarchy is the same in every part. -/
  state : h.run [c, d] = h.run [d, c]
  /-- Each hook is called for the same displays, and as often. -/
  reports : ∀ k, (arrivals (h.callsOf [c, d])).filter (·.1 = k) =
    (arrivals (h.callsOf [d, c])).filter (·.1 = k)

/-- Two building commands that do not conflict may be given in either order. -/
theorem Reachable.commute_of_builds (hr : Reachable settings h) (hc : c.Builds) (hd : d.Builds)
    (hfree : ¬ c.Conflicts d) : h.Commute c d where
  first := hr.faultOf_apply hd hc (Command.not_conflicts_symm hfree)
  second := hr.faultOf_apply hc hd hfree
  state := hr.run_comm hc hd hfree
  reports k := by
    rw [hr.arrivals_pair hc hd, hr.arrivals_pair hd hc, hr.run_comm hc hd hfree]

/-! ## Many commands -/

/-- Commands that are rearranged lead to the same hierarchy and report the same of each container.
-/
theorem Reachable.run_rearranged (hr : Reachable settings h) {l l' : List (Command η)}
    (hl : Rearranged l l') :
    h.run l = h.run l' ∧ ∀ k, (arrivals (h.callsOf l)).filter (·.1 = k) =
      (arrivals (h.callsOf l')).filter (·.1 = k) := by
  induction hl generalizing h with
  | refl l => exact ⟨rfl, fun _ => rfl⟩
  | cons c _ ih =>
    obtain ⟨hrun, hreports⟩ := ih (hr.step c)
    refine ⟨hrun, ?_⟩
    intro k
    rw [callsOf, callsOf, arrivals_append, arrivals_append, List.filter_append,
      List.filter_append, hreports]
  | @swap c d l hc hd hfree =>
    have hcommute := hr.commute_of_builds hc hd hfree
    have hstate : ((h.apply c).hierarchy.apply d).hierarchy =
        ((h.apply d).hierarchy.apply c).hierarchy := hcommute.state
    have hsplit : ∀ c d, h.callsOf (c :: d :: l) =
        h.callsOf [c, d] ++ ((h.apply c).hierarchy.apply d).hierarchy.callsOf l := by
      intro c d
      simp [callsOf]
    refine ⟨congrArg (fun h => h.run l) hstate, ?_⟩
    intro k
    rw [hsplit, hsplit, arrivals_append, arrivals_append, List.filter_append,
      List.filter_append, hcommute.reports, hstate]
  | trans _ _ ih ih' =>
    obtain ⟨hrun, hreports⟩ := ih hr
    obtain ⟨hrun', hreports'⟩ := ih' hr
    exact ⟨hrun.trans hrun', fun k => (hreports k).trans (hreports' k)⟩

/-- The order of building commands makes no difference as far as they do not conflict. -/
structure AnyOrder (h : Hierarchy η) : Prop where
  pair : ∀ c d : Command η, c.Builds → d.Builds → ¬ c.Conflicts d → h.Commute c d
  rearranged : ∀ l l', Rearranged l l' → h.run l = h.run l' ∧
    ∀ k, (arrivals (h.callsOf l)).filter (·.1 = k) = (arrivals (h.callsOf l')).filter (·.1 = k)
  /-- A tree of containers may be assembled from below or from above. -/
  assembly : ∀ (plan : Plan) (parent : Key), (parent :: plan.nodes).Nodup →
    h.run (plan.bottomUp parent) = h.run (plan.topDown parent)

/-- Whatever commands were given before, building and configuring may go on in any order. -/
theorem Reachable.anyOrder (hr : Reachable settings h) : h.AnyOrder where
  pair _ _ := hr.commute_of_builds
  rearranged _ _ := hr.run_rearranged
  assembly _ _ hnodup := (hr.run_rearranged (Plan.rearranged hnodup)).1

omit [Hook η] in
/-- A stack goes onto a display and a task into the stack, in either order. The task has a hook,
which is called once. -/
theorem anyOrder_parts :
    ∃ parts : Hierarchy Voter, Reachable {} parts ∧ parts.AnyOrder ∧
      (Command.attach ⟨3, 1⟩ ⟨2, 1⟩ 0 : Command Voter).Builds ∧
      (Command.attach ⟨2, 1⟩ ⟨1, 1⟩ 0 : Command Voter).Builds ∧
      ¬ (Command.attach ⟨3, 1⟩ ⟨2, 1⟩ 0 : Command Voter).Conflicts (.attach ⟨2, 1⟩ ⟨1, 1⟩ 0) ∧
      (arrivals (parts.callsOf [.attach ⟨3, 1⟩ ⟨2, 1⟩ 0, .attach ⟨2, 1⟩ ⟨1, 1⟩ 0])) =
        [(⟨3, 1⟩, ⟨1, 1⟩)] ∧
      (arrivals (parts.callsOf [.attach ⟨2, 1⟩ ⟨1, 1⟩ 0, .attach ⟨3, 1⟩ ⟨2, 1⟩ 0])) =
        [(⟨3, 1⟩, ⟨1, 1⟩)] := by
  have hr : Reachable {} ((empty {} : Hierarchy Voter).run
      [.createDisplay ⟨0⟩ ⟨0, 0, 100, 50⟩, .createStack, .createTask ⟨7⟩ ⟨0⟩,
        .setHook ⟨3, 1⟩ .passive]) := Reachable.empty.run _
  exact ⟨_, hr, Reachable.anyOrder hr, .attach _ _ _, .attach _ _ _,
    fun hconflict => hconflict.elim (by decide) (by decide), by decide, by decide⟩

end Hierarchy

end WindowForest
