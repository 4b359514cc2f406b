import WindowForest.Forest.Journal
import WindowForest.Proofs.Forest.Run

/-!
# What a journal tells

Whoever only reads the journal of a tree knows its structure. Each line is entered into
a plain map from nodes to parents, and the map is the structure of the forest after
every operation (`Tree.Run.chronicled`).

For one operation this is shown in two halves. The lines that it writes can be read off
the forest before the operation (`Forest.lines`, `Tree.Step.entries`). And entering
these lines takes a map of the forest before the operation to a map of the forest after
it (`Mirrors.step`). The second half follows the operation part by part, since a move
writes a line before and a line after it changes the links.
-/

set_option autoImplicit false

namespace WindowForest

namespace Journal

/-- Enters into a map from nodes to parents what a line tells. -/
def Entry.enter (m : Table (Option Key)) (line : Entry) : Table (Option Key) :=
  match line.event.change with
  | .added => m.insert line.event.node none
  | .attached =>
    match line.parent with
    | some p => m.insert line.event.node (some p)
    | none => m
  | .detaching => m.modify line.event.node fun _ => none
  | .removed => m.erase line.event.node

/-- The map that comes about when the lines are entered one after the other. -/
def replay (lines : List Entry) : Table (Option Key) := lines.foldl Entry.enter ∅

end Journal

namespace Forest

variable {f f' : Forest} {node k p parent top : Key} {pos : Nat}

/-! ## The lines of an operation -/

/-- The line of a node that is about to leave its parent, if it has one. -/
def farewell (f : Forest) (node : Key) : List Journal.Entry :=
  (f.parent node).toList.map fun p => ⟨⟨.detaching, node⟩, some p, true⟩

/-- The lines of nodes that are gone already. -/
def obituaries (keys : List Key) : List Journal.Entry :=
  keys.map fun k => ⟨⟨.removed, k⟩, none, false⟩

/-- The lines that an operation writes, as they follow from the forest before it. -/
def lines (f : Forest) : Edit → List Journal.Entry
  | .create node => [⟨⟨.added, node⟩, none, true⟩]
  | .place node parent _ =>
    if f.parent node = some parent then []
    else
      f.farewell node ++
        [⟨⟨.attached, node⟩, if node ∈ f ∧ parent ∈ f then some parent else none, node ∈ f⟩]
  | .uproot node => f.farewell node
  | .remove node => f.farewell node ++ obituaries (f.preorder node)

/-- Of a root that is to leave nothing is written. -/
theorem farewell_of_root (hp : f.parent node = none) : f.farewell node = [] := by
  rw [farewell, hp]
  rfl

/-- Of a child that is to leave its parent one line is written. -/
theorem farewell_of_parent (hp : f.parent node = some p) :
    f.farewell node = [⟨⟨.detaching, node⟩, some p, true⟩] := by
  rw [farewell, hp]
  rfl

/-- A farewell names the node and the parent that it leaves. -/
theorem mem_farewell_iff {line : Journal.Entry} :
    line ∈ f.farewell node ↔
      ∃ p, f.parent node = some p ∧ line = ⟨⟨.detaching, node⟩, some p, true⟩ := by
  cases hp : f.parent node with
  | none => simp [farewell_of_root hp]
  | some p => simp [farewell_of_parent hp]

/-- Of a placement under the parent that a node has nothing is written. -/
theorem lines_place_again (hp : f.parent node = some parent) :
    f.lines (.place node parent pos) = [] := by
  rw [lines, if_pos hp]

/-- Under another parent a node takes leave of its own one first. -/
theorem lines_place (hne : f.parent node ≠ some parent) :
    f.lines (.place node parent pos) =
      f.farewell node ++
        [⟨⟨.attached, node⟩, if node ∈ f ∧ parent ∈ f then some parent else none, node ∈ f⟩] := by
  rw [lines, if_neg hne]

/-! ## Maps of a forest -/

/-- The map holds the nodes of the forest and no others, each with its parent. -/
def Mirrors (m : Table (Option Key)) (f : Forest) : Prop :=
  ∀ k, m[k]? = if k ∈ f then some (f.parent k) else none

namespace Mirrors

variable {m : Table (Option Key)}

/-- The map without nodes is one of the forest without nodes. -/
theorem empty : Mirrors ∅ ∅ := by
  intro k
  rw [if_neg (Store.notMem_empty k)]
  exact Std.ExtTreeMap.getElem?_empty

/-- A map of a forest is one of every forest with the same nodes and parents. -/
theorem congr (hm : Mirrors m f) (hlive : ∀ k, k ∈ f' ↔ k ∈ f)
    (hparent : ∀ k, k ∈ f → f'.parent k = f.parent k) : Mirrors m f' := by
  intro k
  rw [hm k]
  by_cases hk : k ∈ f
  · rw [if_pos hk, if_pos ((hlive k).2 hk), hparent k hk]
  · rw [if_neg hk, if_neg fun hk' => hk ((hlive k).1 hk')]

/-- The line of a new node enters it as a root. -/
theorem added (hm : Mirrors m f) (h : f.WellFormed) :
    Mirrors (m.insert f.nextKey none) f.sprout := by
  intro k
  rw [Std.ExtTreeMap.getElem?_insert, h.parent_sprout]
  by_cases hk : f.nextKey = k
  · subst hk
    have hroot : f.parent f.nextKey = none := parent_of_notMem h.sound.nextKey_notMem
    simp [mem_sprout, hroot]
  · have hlive : k ∈ f.sprout ↔ k ∈ f := by simp [mem_sprout, Ne.symm hk]
    simp [hk, hlive, hm k]

/-- The line of a farewell makes the node a root on the map. -/
theorem farewell (hm : Mirrors m f) (node : Key) :
    Mirrors ((f.farewell node).foldl Journal.Entry.enter m) (f.unlink node) := by
  cases hp : f.parent node with
  | none =>
    rw [farewell_of_root hp, unlink_of_root hp]
    exact hm
  | some p =>
    rw [farewell_of_parent hp]
    intro k
    show (m.modify node fun _ => none)[k]? = _
    rw [Std.ExtTreeMap.getElem?_modify, parent_unlink]
    by_cases hk : node = k
    · subst hk
      have hnode := mem_of_parent hp
      simp [hm node, hnode]
    · simp [hk, Ne.symm hk, hm k]

/-- Where one of the two is missing, the line of a move tells of no parent. -/
theorem attached (hm : Mirrors m (f.unlink node)) (hbelow : node ∈ f → ¬ f.Within node parent)
    (pos : Nat) :
    Mirrors (Journal.Entry.enter m
      ⟨⟨.attached, node⟩, if node ∈ f ∧ parent ∈ f then some parent else none, node ∈ f⟩)
      (f.move node parent pos) := by
  by_cases hboth : node ∈ f ∧ parent ∈ f
  · obtain ⟨hnode, hparent⟩ := hboth
    rw [if_pos ⟨hnode, hparent⟩]
    intro k
    show (m.insert node (some parent))[k]? = _
    rw [Std.ExtTreeMap.getElem?_insert, parent_move hnode hparent (hbelow hnode)]
    by_cases hk : node = k
    · subst hk
      simp [hnode]
    · simp [hk, Ne.symm hk, hm k, parent_unlink]
  · rw [if_neg hboth, move_of_missing (by tauto)]
    exact hm

/-- A move within the list of the parent shows on no map. -/
theorem reordered (hm : Mirrors m f) (h : f.WellFormed) (hp : f.parent node = some p)
    (pos : Nat) : Mirrors m (f.move node p pos) := by
  refine hm.congr (fun k => mem_move) ?_
  intro k _
  rw [parent_move (mem_of_parent hp) (h.rooted.parent_mem hp) (h.rooted.not_within_parent hp)]
  by_cases hk : k = node
  · rw [if_pos hk, hk, hp]
  · rw [if_neg hk]

/-- The lines of nodes that are gone strike out these and no others. -/
theorem getElem?_obituaries (keys : List Key) (k : Key) :
    ((obituaries keys).foldl Journal.Entry.enter m)[k]? = if k ∈ keys then none else m[k]? := by
  induction keys generalizing m with
  | nil => simp [obituaries]
  | cons j keys ih =>
    show ((obituaries keys).foldl Journal.Entry.enter (m.erase j))[k]? = _
    rw [ih, Std.ExtTreeMap.getElem?_erase]
    by_cases hj : j = k
    · simp [hj]
    · simp [hj, Ne.symm hj]

/-- The lines of a removal strike out the nodes that are pruned. -/
theorem removed (hm : Mirrors m (f.unlink node)) (h : f.WellFormed) :
    Mirrors ((obituaries (f.preorder node)).foldl Journal.Entry.enter m) (f.prune node) := by
  intro k
  rw [getElem?_obituaries, ← h.preorder_unlink]
  -- The tree is taken from its parent first, and what is erased is its preorder after that.
  by_cases hk : k ∈ (f.unlink node).preorder node
  · have hgone : k ∉ f.prune node := fun hmem =>
      (h.mem_prune_iff.1 hmem).2 (h.mem_pruned_iff.1 hk).2
    rw [if_pos hk, if_neg hgone]
  · have hlive : k ∈ f.prune node ↔ k ∈ f.unlink node := by
      rw [Store.mem_iff_isSome_get?, Store.mem_iff_isSome_get?, prune, get?_foldl_erase, if_neg hk]
    have hparent : (f.prune node).parent k = (f.unlink node).parent k :=
      bind_get?_prune Links.parent hk
    rw [if_neg hk, hm k, hparent]
    simp only [hlive]

end Mirrors

end Forest

namespace Tree

variable {t u : Tree Journal} {e : Edit}

/-! ## One operation -/

/-- Uprooting a node writes its farewell. -/
theorem entries_uproot (t : Tree Journal) (node : Key) :
    (t.uproot node).observer.entries = t.observer.entries ++ t.forest.farewell node := by
  unfold uproot
  cases hp : t.forest.parent node with
  | none =>
    rw [Forest.farewell_of_root hp, List.append_nil]
  | some p =>
    have hnode : node ∈ t.forest := Forest.mem_of_parent hp
    rw [Forest.farewell_of_parent hp]
    show t.observer.entries ++ [⟨_, t.forest.parent node, decide (node ∈ t.forest)⟩] = _
    rw [hp, decide_eq_true hnode]

/-- Of nodes that are erased in a row one line each is written, in that order. -/
theorem entries_foldl_erase (t : Tree Journal) (keys : List Key) :
    (keys.foldl erase t).observer.entries = t.observer.entries ++ Forest.obituaries keys := by
  induction keys generalizing t with
  | nil => exact (List.append_nil _).symm
  | cons k keys ih =>
    have hgone : k ∉ t.forest.erase k := by
      rw [Store.mem_iff_isSome_get?, Store.get?_erase]
      simp
    rw [List.foldl_cons, ih]
    show (t.observer.entries ++ [⟨_, Forest.parent (t.forest.erase k) k,
      decide (k ∈ t.forest.erase k)⟩]) ++ _ = _
    rw [Forest.parent_of_notMem hgone, decide_eq_false hgone, List.append_assoc]
    rfl

/-- A removal writes the farewell of the top, and then of each node of its preorder that it is gone.
-/
theorem entries_remove (h : t.forest.WellFormed) (node : Key) :
    (t.remove node).observer.entries =
      t.observer.entries ++ t.forest.farewell node ++
        Forest.obituaries (t.forest.preorder node) := by
  unfold remove
  rw [entries_foldl_erase, entries_uproot, forest_uproot, h.preorder_unlink]

/-- A move within the list of a parent is not told of. -/
theorem observer_place_again {σ : Type} [Observer σ] {t : Tree σ} {node parent : Key}
    (hp : t.forest.parent node = some parent) (pos : Nat) :
    (t.place node parent pos).observer = t.observer := by
  unfold place
  rw [hp]
  dsimp only
  rw [if_pos rfl]

/-- A placement under another parent writes a farewell and an arrival, which tells of no parent if
one of the two is missing. -/
theorem entries_place {node parent : Key} (hne : t.forest.parent node ≠ some parent)
    (hbelow : node ∈ t.forest → ¬ t.forest.Within node parent) (pos : Nat) :
    (t.place node parent pos).observer.entries =
      t.observer.entries ++ t.forest.farewell node ++
        [⟨⟨.attached, node⟩,
          if node ∈ t.forest ∧ parent ∈ t.forest then some parent else none,
          node ∈ t.forest⟩] := by
  have hparent : (t.forest.move node parent pos).parent node =
      if node ∈ t.forest ∧ parent ∈ t.forest then some parent else none := by
    by_cases hboth : node ∈ t.forest ∧ parent ∈ t.forest
    · rw [if_pos hboth, Forest.parent_move hboth.1 hboth.2 (hbelow hboth.1), if_pos rfl]
    · rw [if_neg hboth, Forest.move_of_missing (by tauto), Forest.parent_unlink, if_pos rfl]
  have hlive : decide (node ∈ t.forest.move node parent pos) = decide (node ∈ t.forest) :=
    decide_eq_decide.2 Forest.mem_move
  unfold place
  cases hp : t.forest.parent node with
  | none =>
    rw [Forest.farewell_of_root hp, List.append_nil]
    show t.observer.entries ++ [⟨_, (t.forest.move node parent pos).parent node,
      decide (node ∈ t.forest.move node parent pos)⟩] = _
    rw [hparent, hlive]
  | some old =>
    have hold : old ≠ parent := fun heq => hne (heq ▸ hp)
    have hnode : node ∈ t.forest := Forest.mem_of_parent hp
    dsimp only
    rw [if_neg hold, Forest.farewell_of_parent hp]
    show (t.observer.entries ++ [⟨_, t.forest.parent node, decide (node ∈ t.forest)⟩]) ++
      [⟨_, (t.forest.move node parent pos).parent node,
        decide (node ∈ t.forest.move node parent pos)⟩] = _
    rw [hparent, hlive, hp, decide_eq_true hnode]

/-- An operation writes the lines that follow from the forest before it. -/
theorem Step.entries (step : Step t e u) (h : t.forest.WellFormed) :
    u.observer.entries = t.observer.entries ++ t.forest.lines e := by
  cases step with
  | create =>
    have hroot : t.forest.sprout.parent t.forest.nextKey = none := by
      rw [h.parent_sprout]
      exact Forest.parent_of_notMem h.sound.nextKey_notMem
    have hlive : t.forest.nextKey ∈ t.forest.sprout := Forest.mem_sprout.2 (.inl rfl)
    show t.observer.entries ++ [⟨_, t.forest.sprout.parent t.forest.nextKey,
      decide (t.forest.nextKey ∈ t.forest.sprout)⟩] = _
    rw [hroot, decide_eq_true hlive]
    rfl
  | place node parent pos apart =>
    by_cases hp : t.forest.parent node = some parent
    · rw [Forest.lines_place_again hp, List.append_nil, observer_place_again hp]
    · rw [Forest.lines_place hp, entries_place hp apart, List.append_assoc]
  | uproot node => exact entries_uproot t node
  | remove node => rw [entries_remove h, List.append_assoc]; rfl

/-- The lines of an operation turn a map of the forest before it into one of the forest after
it. -/
theorem Step.mirrors (step : Step t e u) (h : t.forest.WellFormed) {m : Table (Option Key)}
    (hm : Forest.Mirrors m t.forest) :
    Forest.Mirrors ((t.forest.lines e).foldl Journal.Entry.enter m) u.forest := by
  cases step with
  | create => exact hm.added h
  | place node parent pos apart =>
    rw [forest_place]
    by_cases hp : t.forest.parent node = some parent
    · rw [Forest.lines_place_again hp]
      exact hm.reordered h hp pos
    · rw [Forest.lines_place hp, List.foldl_append]
      exact (hm.farewell node).attached apart pos
  | uproot node =>
    rw [forest_uproot]
    exact hm.farewell node
  | remove node =>
    rw [forest_remove]
    show Forest.Mirrors (List.foldl _ m (_ ++ _)) _
    rw [List.foldl_append]
    exact (hm.farewell node).removed h

/-- A node that is said to be leaving a parent is still linked to it, and no longer is after the
operation. -/
theorem Step.leaves (step : Step t e u) (h : t.forest.WellFormed) {line : Journal.Entry}
    (hline : line ∈ t.forest.lines e) (hchange : line.event.change = .detaching) :
    line.present ∧ ∃ p, line.parent = some p ∧ t.forest.parent line.event.node = some p ∧
      u.forest.parent line.event.node ≠ some p := by
  -- In all operations this is the line of a farewell, and they differ in where the node ends up.
  have hfarewell : ∀ node, line ∈ t.forest.farewell node →
      (∀ p, t.forest.parent node = some p → u.forest.parent node ≠ some p) →
      line.present ∧ ∃ p, line.parent = some p ∧ t.forest.parent line.event.node = some p ∧
        u.forest.parent line.event.node ≠ some p := by
    intro node hmem hleft
    obtain ⟨p, hp, rfl⟩ := Forest.mem_farewell_iff.1 hmem
    exact ⟨rfl, p, rfl, hp, hleft p hp⟩
  cases step with
  | create =>
    obtain rfl := List.mem_singleton.1 hline
    cases hchange
  | place node parent pos apart =>
    by_cases hp : t.forest.parent node = some parent
    · rw [Forest.lines_place_again hp] at hline
      cases hline
    · rw [Forest.lines_place hp] at hline
      rcases List.mem_append.1 hline with hmem | hmem
      · apply hfarewell node hmem
        intro q hq
        rw [forest_place]
        by_cases hlive : parent ∈ t.forest
        · have hnode := Forest.mem_of_parent hq
          rw [Forest.parent_move hnode hlive (apart hnode), if_pos rfl]
          rintro heq
          exact hp (hq.trans heq.symm)
        · rw [Forest.move_of_missing (.inr hlive), Forest.parent_unlink, if_pos rfl]
          exact nofun
      · obtain rfl := List.mem_singleton.1 hmem
        cases hchange
  | uproot node =>
    apply hfarewell node hline
    intro q _
    rw [forest_uproot, Forest.parent_unlink, if_pos rfl]
    exact nofun
  | remove node =>
    rcases List.mem_append.1 hline with hmem | hmem
    · apply hfarewell node hmem
      intro q _
      have hgone : node ∉ t.forest.prune node := fun hnode =>
        (h.mem_prune_iff.1 hnode).2 (Forest.within_refl _ node)
      rw [forest_remove, Forest.parent_of_notMem hgone]
      exact nofun
    · obtain ⟨k, -, rfl⟩ := List.mem_map.1 hmem
      cases hchange

/-! ## Runs -/

/-- What is known of a tree from its journal, and what the next operation adds to that. -/
structure Chronicled (t : Tree Journal) : Prop where
  /-- Read in order, the lines make up a map of the forest: its nodes, each with its parent. -/
  replay : ∀ k, (Journal.replay t.observer.entries)[k]? =
    if k ∈ t.forest then some (t.forest.parent k) else none
  /-- The next operation adds its own lines at the end. -/
  next : ∀ e u, Step t e u → u.observer.entries = t.observer.entries ++ t.forest.lines e
  /-- A node that is said to be leaving is in the forest and linked to the parent that it leaves,
  and it does leave that parent. -/
  leaving : ∀ e u line, Step t e u → line ∈ t.forest.lines e → line.event.change = .detaching →
    line.present ∧ ∃ p, line.parent = some p ∧ t.forest.parent line.event.node = some p ∧
      u.forest.parent line.event.node ≠ some p
  /-- Another position under the same parent is not told of. -/
  reorder : ∀ node parent pos, t.forest.parent node = some parent →
    (t.place node parent pos).observer = t.observer
  /-- A removed node leaves its parent, if it has one, and then it and all below it are gone one
  after the other, in preorder. -/
  remove : ∀ node, (t.remove node).observer.entries =
    t.observer.entries ++
      (t.forest.parent node).toList.map (fun p => ⟨⟨.detaching, node⟩, some p, true⟩) ++
      (t.forest.preorder node).map (fun k => ⟨⟨.removed, k⟩, none, false⟩)

/-- After any run the journal replays to a map of the forest. -/
theorem Run.mirrors {edits : List Edit} (run : Run { observer := {} } edits t) :
    Forest.Mirrors (Journal.replay t.observer.entries) t.forest := by
  induction run with
  | start => exact .empty
  | step run step ih =>
    have hwell := run.wellFormed Forest.wellFormed_empty
    have hafter := step.mirrors hwell ih
    unfold Journal.replay at hafter ⊢
    rwa [step.entries hwell, List.foldl_append]

/-- After any run from the empty forest, the journal tells the structure of the tree, and the next
operation is told of at the right moments. -/
theorem Run.chronicled {edits : List Edit} (run : Run { observer := {} } edits t) :
    t.Chronicled := by
  have hwell := run.wellFormed Forest.wellFormed_empty
  exact
    { replay := run.mirrors
      next := fun _ _ step => step.entries hwell
      leaving := fun _ _ _ step => step.leaves hwell
      reorder := fun _ _ pos hp => observer_place_again hp pos
      remove := entries_remove hwell }

/-- A node goes under another one and that one under a third, the latter move is repeated without a
trace, and then the node in the middle is removed with the one below it. -/
theorem chronicled_removed_pair :
    ∃ t : Tree Journal,
      Run { observer := {} }
        [.create ⟨1, 1⟩, .create ⟨2, 1⟩, .create ⟨3, 1⟩, .place ⟨3, 1⟩ ⟨2, 1⟩ 9,
          .place ⟨2, 1⟩ ⟨1, 1⟩ 0, .place ⟨2, 1⟩ ⟨1, 1⟩ 0, .remove ⟨2, 1⟩] t ∧
      t.Chronicled ∧
      t.observer.entries =
        [⟨⟨.added, ⟨1, 1⟩⟩, none, true⟩, ⟨⟨.added, ⟨2, 1⟩⟩, none, true⟩,
          ⟨⟨.added, ⟨3, 1⟩⟩, none, true⟩, ⟨⟨.attached, ⟨3, 1⟩⟩, some ⟨2, 1⟩, true⟩,
          ⟨⟨.attached, ⟨2, 1⟩⟩, some ⟨1, 1⟩, true⟩, ⟨⟨.detaching, ⟨2, 1⟩⟩, some ⟨1, 1⟩, true⟩,
          ⟨⟨.removed, ⟨2, 1⟩⟩, none, false⟩, ⟨⟨.removed, ⟨3, 1⟩⟩, none, false⟩] := by
  have first : Run ({ observer := {} } : Tree Journal) [] { observer := {} } := .start
  have run := first
    |>.step (.create _) |>.step (.create _) |>.step (.create _)
    |>.step (.place_root _ ⟨3, 1⟩ ⟨2, 1⟩ 9 (by decide) (by decide))
    |>.step (.place_root _ ⟨2, 1⟩ ⟨1, 1⟩ 0 (by decide) (by decide))
    |>.step (.place_root _ ⟨2, 1⟩ ⟨1, 1⟩ 0 (by decide) (by decide))
    |>.step (.remove _ ⟨2, 1⟩)
  exact ⟨_, run, run.chronicled, by decide⟩

end Tree

end WindowForest
