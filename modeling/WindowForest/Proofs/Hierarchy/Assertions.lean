import WindowForest.Hierarchy.Query
import WindowForest.Proofs.Forest.Assertions
import WindowForest.Proofs.Hierarchy.Registry

/-!
# No assertion is broken

The commands that move containers, and the look-up of the last active child, are given
once more, with all assertions of the operations below them. They run the same checks as
the plain ones, and what they stop at is not a refusal: it is a fault of the program.

In a hierarchy that can come about they never stop, whatever keys and positions they are
given (`Reachable.unbroken`). That no container goes below itself has three reasons,
one for each command that moves containers. An attached and a reparented one were checked
against that, and one that is only positioned stays under the parent that it has.
-/

set_option autoImplicit false

namespace WindowForest.Hierarchy

variable {η α : Type} {h : Hierarchy η} {node parent target k : Key}

/-! ## Commands with assertions -/

/-- Carries an operation out under assertions unless it is refused. -/
def guardedAsserting (h : Hierarchy η) (check : Except Error Unit)
    (act : Except Breach (Outcome η α)) : Except Breach (Outcome η α) :=
  match check with
  | .error e => .ok (h.refuse e)
  | .ok () => act

/-- Moves a container in the tree, and nothing else, under assertions. -/
def placeAsserting (h : Hierarchy η) (node parent : Key) (pos : Nat) :
    Except Breach (Hierarchy η) := do
  let tree ← h.tree.placeAsserting node parent pos
  return { h with tree }

/-- Puts a container without parent under `parent`, under assertions. -/
def attachAsserting (h : Hierarchy η) (node parent : Key) (pos : Nat) :
    Except Breach (Outcome η Unit) :=
  h.guardedAsserting (h.checkAttach node parent) do
    let placed ← h.placeAsserting node parent pos
    return placed.finishMove node (h.displayOf node)

/-- Moves a container under another parent, under assertions. -/
def reparentAsserting (h : Hierarchy η) (node target : Key) (pos : Nat) (activate : Bool) :
    Except Breach (Outcome η Unit) :=
  h.guardedAsserting (h.checkReparent node target) do
    let placed ← h.placeAsserting node target pos
    let moved := placed.updateContainer node fun c => { c with pending := false }
    return (if activate then moved.select node else moved).finishMove node (h.displayOf node)

/-- Moves a container to the position `pos` among its siblings, under assertions. -/
def positionAsserting (h : Hierarchy η) (node : Key) (pos : Nat) :
    Except Breach (Outcome η Unit) :=
  h.guardedAsserting (h.checkPosition node)
    (match h.forest.parent node with
    | none => .ok (h.finish ())
    | some parent => do
      let placed ← h.placeAsserting node parent pos
      return placed.finish ())

/-- Carries out a command under assertions. There are none in the operations that link nothing. -/
def applyAsserting [Hook η] (h : Hierarchy η) : Command η → Except Breach (Outcome η Answer)
  | .attach node parent pos => (h.attachAsserting node parent pos).map (.map .ofUnit)
  | .reparent node target pos activate =>
    (h.reparentAsserting node target pos activate).map (.map .ofUnit)
  | .position node pos => (h.positionAsserting node pos).map (.map .ofUnit)
  | c => .ok (h.apply c)

/-- Carries out one command after the other, under assertions. -/
def runAsserting [Hook η] (h : Hierarchy η) :
    List (Command η) → Except Breach (Hierarchy η)
  | [] => .ok h
  | c :: commands => do
    let outcome ← h.applyAsserting c
    outcome.hierarchy.runAsserting commands

/-- The child of a container that was last active, which has to have that container as parent. -/
def lastActiveAsserting (h : Hierarchy η) (node : Key) : Except Breach (Option Key) :=
  match h.lastActive node with
  | none => .ok none
  | some child => do
    (Breach.strayPointer node child).unless (h.forest.parent child = some node)
    return some child

/-! ## When the assertions hold -/

/-- Behind a check, the assertions of an operation have to hold only if the check passes. -/
theorem guardedAsserting_eq_ok {check : Except Error Unit} {act : Outcome η α}
    {asserting : Except Breach (Outcome η α)} (hact : check = .ok () → asserting = .ok act) :
    h.guardedAsserting check asserting = .ok (h.guarded check act) := by
  cases check with
  | error e => rfl
  | ok _ => exact hact rfl

namespace Arranged

variable (ha : h.Arranged)

include ha

/-- Placing breaks no assertion where the container does not go below itself. -/
theorem placeAsserting_eq_ok (hbelow : ¬ h.forest.isAncestor node parent) (pos : Nat) :
    h.placeAsserting node parent pos = .ok (h.place node parent pos) := by
  unfold placeAsserting
  rw [Tree.placeAsserting_eq_ok ha.wellFormed hbelow]
  rfl

/-- Attaching breaks no assertion. -/
theorem attachAsserting_eq_ok (node parent : Key) (pos : Nat) :
    h.attachAsserting node parent pos = .ok (h.attach node parent pos) := by
  apply guardedAsserting_eq_ok
  intro hcheck
  obtain ⟨-, -, hfits⟩ := checkAttach_eq_ok_iff.1 hcheck
  rw [ha.placeAsserting_eq_ok hfits.apart]
  rfl

/-- Reparenting breaks no assertion. -/
theorem reparentAsserting_eq_ok (node target : Key) (pos : Nat) (activate : Bool) :
    h.reparentAsserting node target pos activate =
      .ok (h.reparent node target pos activate) := by
  apply guardedAsserting_eq_ok
  intro hcheck
  obtain ⟨-, -, -, -, hfits⟩ := checkReparent_eq_ok_iff.1 hcheck
  rw [ha.placeAsserting_eq_ok hfits.apart]
  rfl

/-- Positioning breaks no assertion. -/
theorem positionAsserting_eq_ok (node : Key) (pos : Nat) :
    h.positionAsserting node pos = .ok (h.position node pos) := by
  apply guardedAsserting_eq_ok
  intro _
  cases hp : h.forest.parent node with
  | none => rfl
  | some parent =>
    have hapart : ¬ h.forest.isAncestor node parent := by
      rw [ha.wellFormed.rooted.isAncestor_iff]
      exact fun habove => ha.wellFormed.rooted.not_within_parent hp habove.2
    simp only
    rw [ha.placeAsserting_eq_ok hapart]
    rfl

/-- No command breaks an assertion. -/
theorem applyAsserting_eq_ok [Hook η] (c : Command η) :
    h.applyAsserting c = .ok (h.apply c) := by
  cases c with
  | attach node parent pos =>
    show (h.attachAsserting node parent pos).map _ = _
    rw [ha.attachAsserting_eq_ok]
    rfl
  | reparent node target pos activate =>
    show (h.reparentAsserting node target pos activate).map _ = _
    rw [ha.reparentAsserting_eq_ok]
    rfl
  | position node pos =>
    show (h.positionAsserting node pos).map _ = _
    rw [ha.positionAsserting_eq_ok]
    rfl
  | createDisplay id bounds => rfl
  | createDefaultDisplay id => rfl
  | createStack => rfl
  | createTask id user => rfl
  | createActivity name => rfl
  | setHook node hook => rfl
  | detach node => rfl
  | remove node => rfl
  | removeNow node => rfl
  | setBounds node bounds => rfl
  | setOverride node bounds => rfl
  | setMode node mode => rfl

omit ha in
/-- No history of commands breaks an assertion. -/
theorem runAsserting_eq_ok [Hook η] (ha : h.Arranged) (commands : List (Command η)) :
    h.runAsserting commands = .ok (h.run commands) := by
  induction commands generalizing h with
  | nil => rfl
  | cons c commands ih =>
    unfold runAsserting
    rw [ha.applyAsserting_eq_ok]
    exact ih (ha.transition (transition_apply h c))

end Arranged

/-- Looking up the last active child breaks no assertion where the pointers are valid. -/
theorem lastActiveAsserting_eq_ok (hv : h.records.focus.Valid h.forest) (k : Key) :
    h.lastActiveAsserting k = .ok (h.lastActive k) := by
  unfold lastActiveAsserting
  cases hk : h.lastActive k with
  | none => rfl
  | some child =>
    have hparent : h.forest.parent child = some k := hv k child hk
    simp only
    rw [Breach.unless_eq_ok (decide_eq_true hparent)]
    rfl

/-- Under assertions, everything is as without them. -/
structure Unbroken [Hook η] (h : Hierarchy η) : Prop where
  command : ∀ c, h.applyAsserting c = .ok (h.apply c)
  run : ∀ commands, h.runAsserting commands = .ok (h.run commands)
  lastActive : ∀ k, h.lastActiveAsserting k = .ok (h.lastActive k)

/-- Whatever commands were given before, none that comes next breaks an assertion, and no look-up
does. -/
theorem Reachable.unbroken [Hook η] {settings : Settings} (hr : Reachable settings h) :
    h.Unbroken where
  command := hr.arranged.applyAsserting_eq_ok
  run := hr.arranged.runAsserting_eq_ok
  lastActive := lastActiveAsserting_eq_ok hr.inOrder.focused

/-- The stack is not put into the task that it holds. Carried out without a check, the move would
break the assertion that is there against it. -/
theorem unbroken_furnished :
    Reachable {} furnished ∧ furnished.Unbroken ∧
      (furnished.apply (.reparent ⟨3, 1⟩ ⟨4, 1⟩ 0 false)).result =
        .error (.ownSubtree ⟨3, 1⟩) ∧
      furnished.tree.placeAsserting ⟨3, 1⟩ ⟨4, 1⟩ 0 = .error (.ownSubtree ⟨3, 1⟩ ⟨4, 1⟩) := by
  have hr := reachable_furnished
  refine ⟨hr, hr.unbroken, by decide, ?_⟩
  exact Tree.placeAsserting_eq_error (by decide) 0

end WindowForest.Hierarchy
