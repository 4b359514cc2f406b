import WindowForest.Proofs.Forest.Run

/-!
# Assertions on the links

Linking is written under assumptions that it does not handle: a node is not put below
itself, the sibling that it goes in front of is a child of its new parent, and every
node whose links are read or written is in the forest. Here these assumptions are made
explicit. The asserting operations stop at the first one that does not hold and say
which (`Breach`), and do otherwise what the plain operations do, in the same order.

In a well-formed forest they never stop (`WellFormed.moveAsserting_eq_ok`), because both
ends of every gap in a list of children are live. The one assumption that is left to
the caller is that of the first kind (`Tree.placeAsserting_eq_ok`).
-/

set_option autoImplicit false

namespace WindowForest

/-- An assumption that turned out not to hold. -/
inductive Breach where
  /-- A node was to go under itself or a node below it. -/
  | ownSubtree (node parent : Key)
  /-- A node was to go in front of another one that is no child of its new parent. -/
  | notAChild (right parent : Key)
  /-- A node was looked up that is not in the forest. -/
  | missing (k : Key)
  /-- The last active child of a node is not among its children. -/
  | strayPointer (parent child : Key)
deriving DecidableEq, Repr, Inhabited

/-- Goes on if the condition holds. -/
def Breach.unless (breach : Breach) (condition : Bool) : Except Breach Unit :=
  if condition then .ok () else .error breach

/-- Where the condition holds, things go on. -/
theorem Breach.unless_eq_ok {breach : Breach} {condition : Bool} (hcondition : condition) :
    breach.unless condition = .ok () := by
  rw [Breach.unless, if_pos hcondition]

namespace Forest

variable {f : Forest} {node parent k : Key} {left right : Option Key}

/-! ## Linking with assertions -/

/-- The links of a node, which has to be there. -/
def fetch (f : Forest) (k : Key) : Except Breach Links :=
  match f.get? k with
  | some n => .ok n
  | none => .error (.missing k)

/-- Changes the links of a node, which has to be there. -/
def amend (f : Forest) (k : Key) (g : Links → Links) : Except Breach Forest :=
  if k ∈ f then .ok (f.modify k g) else .error (.missing k)

/-- Asserts that the node to go in front of, if there is one, is a child of `parent`. -/
def assertChild (f : Forest) (parent : Key) : Option Key → Except Breach Unit
  | none => .ok ()
  | some r => do
    let n ← f.fetch r
    (Breach.notAChild r parent).unless (n.parent = some parent)

/-- What stands in front of the place before `right`, read from nodes that have to be there. -/
def fetchLeft (f : Forest) (parent : Key) : Option Key → Except Breach (Option Key)
  | some r => do
    let n ← f.fetch r
    return n.prev
  | none => do
    let n ← f.fetch parent
    return n.last

/-- Makes `k` what follows `left`, or the first child of `parent`. -/
def amendAfter (f : Forest) (parent : Key) (left k : Option Key) : Except Breach Forest :=
  match left with
  | some l => f.amend l fun n => { n with next := k }
  | none => f.amend parent fun n => { n with first := k }

/-- Makes `k` what precedes `right`, or the last child of `parent`. -/
def amendBefore (f : Forest) (parent : Key) (right k : Option Key) : Except Breach Forest :=
  match right with
  | some r => f.amend r fun n => { n with prev := k }
  | none => f.amend parent fun n => { n with last := k }

/-- Puts a node without parent under `parent`, in front of its child `right` or behind all of its
children, under assertions. -/
def linkAsserting (f : Forest) (node parent : Key) (right : Option Key) :
    Except Breach Forest :=
  if node = parent ∨ node ∉ f ∨ parent ∉ f then .ok f
  else do
    f.assertChild parent right
    let left ← f.fetchLeft parent right
    let f ← f.amend node fun n => { n with parent := some parent, prev := left, next := right }
    let f ← f.amendAfter parent left (some node)
    f.amendBefore parent right (some node)

/-- Moves a node under `parent`, to the position `pos` among its other children, under
assertions. -/
def moveAsserting (f : Forest) (node parent : Key) (pos : Nat) : Except Breach Forest :=
  (f.unlink node).linkAsserting node parent ((f.unlink node).childAt parent pos)

/-! ## When the assertions hold -/

/-- A node that is there is fetched with its links. -/
theorem fetch_of_get? {n : Links} (hk : f.get? k = some n) : f.fetch k = .ok n := by
  rw [fetch, hk]

/-- A live node has links. -/
theorem exists_links (hk : k ∈ f) : ∃ n, f.get? k = some n := by
  rw [Store.mem_iff_isSome_get?, Option.isSome_iff_exists] at hk
  exact hk

/-- A live node is changed as it would be without assertions. -/
theorem amend_of_mem (hk : k ∈ f) (g : Links → Links) : f.amend k g = .ok (f.modify k g) := by
  rw [amend, if_pos hk]

/-- The assertion on the node to go in front of passes for a child of the parent. -/
theorem assertChild_eq_ok (hright : ∀ r, right = some r → f.parent r = some parent) :
    f.assertChild parent right = .ok () := by
  cases right with
  | none => rfl
  | some r =>
    have hparent := hright r rfl
    obtain ⟨n, hn⟩ := exists_links (mem_of_parent hparent)
    have hchild : n.parent = some parent := by
      rw [Forest.parent, hn] at hparent
      exact hparent
    show (f.fetch r >>= fun n => (Breach.notAChild r parent).unless (n.parent = some parent)) = _
    rw [fetch_of_get? hn]
    exact Breach.unless_eq_ok (decide_eq_true hchild)

/-- What is read from live nodes is what the plain look-up answers. -/
theorem fetchLeft_eq_ok (hend : right.getD parent ∈ f) :
    f.fetchLeft parent right = .ok (f.leftOf parent right) := by
  cases right with
  | none =>
    obtain ⟨n, hn⟩ := exists_links (k := parent) hend
    show (f.fetch parent >>= fun n => .ok n.last) = .ok ((f.get? parent).bind Links.last)
    rw [fetch_of_get? hn, hn]
    rfl
  | some r =>
    obtain ⟨n, hn⟩ := exists_links (k := r) hend
    show (f.fetch r >>= fun n => .ok n.prev) = .ok ((f.get? r).bind Links.prev)
    rw [fetch_of_get? hn, hn]
    rfl

/-- What is written behind the left end of a gap is written as it would be without assertions. -/
theorem amendAfter_eq_ok (hend : left.getD parent ∈ f) (k : Option Key) :
    f.amendAfter parent left k = .ok (f.setAfter parent left k) := by
  cases left with
  | none => exact amend_of_mem hend _
  | some l => exact amend_of_mem hend _

/-- What is written in front of the right end of a gap is written as it would be without assertions.
-/
theorem amendBefore_eq_ok (hend : right.getD parent ∈ f) (k : Option Key) :
    f.amendBefore parent right k = .ok (f.setBefore parent right k) := by
  cases right with
  | none => exact amend_of_mem hend _
  | some r => exact amend_of_mem hend _

/-- Linking breaks no assumption where the gap is one of the list of `parent` and both ends of it
are live. -/
theorem linkAsserting_eq_ok (hright : ∀ r, right = some r → f.parent r = some parent)
    (hleft : parent ∈ f → (f.leftOf parent right).getD parent ∈ f) :
    f.linkAsserting node parent right = .ok (f.link node parent right) := by
  by_cases hmissing : node = parent ∨ node ∉ f ∨ parent ∉ f
  · rw [linkAsserting, link, if_pos hmissing, if_pos hmissing]
  · have hnode : node ∈ f := by tauto
    have hparent : parent ∈ f := by tauto
    have hend : right.getD parent ∈ f := by
      cases right with
      | none => exact hparent
      | some r => exact mem_of_parent (hright r rfl)
    rw [linkAsserting, link, if_neg hmissing, if_neg hmissing, assertChild_eq_ok hright,
      fetchLeft_eq_ok hend]
    generalize f.leftOf parent right = left at hleft ⊢
    -- No change removes a node, so whatever is live at first is live at each later access.
    have hplaced : (f.amend node fun n =>
        { n with parent := some parent, prev := left, next := right }) =
        .ok (f.setPlace node (some parent) left right) := amend_of_mem hnode _
    have hafter : (f.setPlace node (some parent) left right).amendAfter parent left (some node) =
        .ok ((f.setPlace node (some parent) left right).setAfter parent left (some node)) :=
      amendAfter_eq_ok (mem_setPlace.2 (hleft hparent)) (some node)
    show (f.amend node _ >>= fun f => f.amendAfter parent left (some node) >>= fun f =>
      f.amendBefore parent right (some node)) = _
    rw [hplaced]
    show ((f.setPlace node (some parent) left right).amendAfter parent left (some node) >>=
      fun f => f.amendBefore parent right (some node)) = _
    rw [hafter]
    exact amendBefore_eq_ok (mem_setAfter.2 (mem_setPlace.2 hend)) (some node)

namespace WellFormed

variable (h : f.WellFormed)

include h

/-- The child at a position stands right of a gap whose left end is live. -/
theorem leftOf_childAt_mem (hparent : parent ∈ f) (pos : Nat) :
    (f.leftOf parent (f.childAt parent pos)).getD parent ∈ f := by
  have hcut : f.children parent = (f.children parent).take pos ++ (f.children parent).drop pos :=
    (List.take_append_drop pos _).symm
  have hmem := h.threads.leftOf_getD_mem hparent hcut
  rwa [List.head?_drop] at hmem

/-- The node at a position of a list is a child of the node whose list it is. -/
theorem parent_of_childAt {pos : Nat} (hchild : f.childAt parent pos = some k) :
    f.parent k = some parent := by
  have hmem : k ∈ f.children parent := List.mem_of_getElem? hchild
  exact h.mem_children_iff.1 hmem

/-- Whatever is moved, live or not, a well-formed forest has the nodes that are looked up. -/
theorem moveAsserting_eq_ok (node parent : Key) (pos : Nat) :
    f.moveAsserting node parent pos = .ok (f.move node parent pos) := by
  have hunlinked := h.unlink node
  apply linkAsserting_eq_ok
  · intro r hr
    exact hunlinked.parent_of_childAt hr
  · intro hparent
    exact hunlinked.leftOf_childAt_mem hparent pos

end WellFormed

end Forest

namespace Tree

variable {σ : Type} [Observer σ] {t : Tree σ} {node parent : Key}

/-- Places a node under `parent`, at the position `pos`, and tells the observer, all of it under
assertions. -/
def placeAsserting (t : Tree σ) (node parent : Key) (pos : Nat) : Except Breach (Tree σ) := do
  (Breach.ownSubtree node parent).unless (!t.forest.isAncestor node parent)
  match t.forest.parent node with
  | none =>
    let f ← t.forest.moveAsserting node parent pos
    return { t with forest := f }.notify .attached node
  | some old =>
    if old = parent then
      let f ← t.forest.moveAsserting node parent pos
      return { t with forest := f }
    else
      let t := t.notify .detaching node
      let f ← t.forest.moveAsserting node parent pos
      return { t with forest := f }.notify .attached node

/-- In a well-formed forest, all that can be wrong with a move is that a node goes below itself. -/
theorem placeAsserting_eq_ok (h : t.forest.WellFormed)
    (hbelow : ¬ t.forest.isAncestor node parent) (pos : Nat) :
    t.placeAsserting node parent pos = .ok (t.place node parent pos) := by
  have hassert : (Breach.ownSubtree node parent).unless (!t.forest.isAncestor node parent) =
      .ok () := Breach.unless_eq_ok (by simpa using hbelow)
  have hmove := h.moveAsserting_eq_ok node parent pos
  unfold placeAsserting place
  rw [hassert]
  cases t.forest.parent node with
  | none =>
    show (t.forest.moveAsserting node parent pos >>= _) = _
    rw [hmove]
    rfl
  | some old =>
    by_cases hold : old = parent
    · simp only [if_pos hold]
      show (t.forest.moveAsserting node parent pos >>= _) = _
      rw [hmove]
      rfl
    · simp only [if_neg hold]
      show (t.forest.moveAsserting node parent pos >>= _) = _
      rw [hmove]
      rfl

/-- A move below the node itself is stopped. -/
theorem placeAsserting_eq_error (hbelow : t.forest.isAncestor node parent) (pos : Nat) :
    t.placeAsserting node parent pos = .error (.ownSubtree node parent) := by
  unfold placeAsserting Breach.unless
  rw [hbelow]
  rfl

end Tree

end WindowForest
