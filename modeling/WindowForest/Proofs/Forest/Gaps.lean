import WindowForest.Proofs.Forest.Lineage

/-!
# Gaps

Between any two neighbours in a list of children, in front of the first and
behind the last there is a gap. What stands left of a gap knows what stands
right of it (`rightOf`) and the other way round (`leftOf`), where the parent
stands in for a missing neighbour. Each setter of links changes what one end of
one gap knows, or the surroundings of one node, and the look-ups below say that
nothing else changes.
-/

set_option autoImplicit false

namespace WindowForest.Forest

variable {f : Forest} {k node p q : Key}

/-- What stands behind the place after `left` in the list of `parent`. -/
def rightOf (f : Forest) (parent : Key) (left : Option Key) : Option Key :=
  match left with
  | some l => f.next l
  | none => f.first parent

/-- A new place for a node makes no key live and none dead. -/
@[simp] theorem mem_setPlace {a l r : Option Key} : k ∈ f.setPlace node a l r ↔ k ∈ f := by
  unfold setPlace
  exact Store.mem_modify

/-- Setting what stands right of a gap makes no key live and none dead. -/
@[simp] theorem mem_setAfter {l x : Option Key} : k ∈ f.setAfter p l x ↔ k ∈ f := by
  cases l <;> exact Store.mem_modify

/-- Setting what stands left of a gap makes no key live and none dead. -/
@[simp] theorem mem_setBefore {r x : Option Key} : k ∈ f.setBefore p r x ↔ k ∈ f := by
  cases r <;> exact Store.mem_modify

section

variable {P : Forest → Prop}
  (hP : ∀ (f : Forest) (k : Key) (g : Links → Links), P f → P (f.modify k g))

include hP

/-- What is kept by every change of a single node is kept when the left end of a gap is set. -/
theorem setAfter_keeps {l x : Option Key} (h : P f) : P (f.setAfter p l x) := by
  cases l <;> exact hP _ _ _ h

/-- What is kept by every change of a single node is kept when the right end of a gap is set. -/
theorem setBefore_keeps {r x : Option Key} (h : P f) : P (f.setBefore p r x) := by
  cases r <;> exact hP _ _ _ h

end

/-- Reading a field of a changed node. -/
theorem bind_get?_modify (f : Forest) (j k : Key) (g : Links → Links)
    (field : Links → Option Key) :
    ((f.modify j g).get? k).bind field =
      if j = k then (f.get? k).bind (field ∘ g) else (f.get? k).bind field := by
  rw [Store.get?_modify]
  split
  · rw [Option.bind_map]
  · rfl

/-- Reading a field that was set to the same value for whatever was there. -/
theorem bind_get?_const (x : Option Key) (hk : k ∈ f) : (f.get? k).bind (fun _ => x) = x := by
  obtain ⟨n, hn⟩ := Option.isSome_iff_exists.1 (Store.mem_iff_isSome_get?.1 hk)
  rw [hn]
  rfl

/-- Reading a field that a new place for a node sets. -/
theorem bind_get?_setPlace {a l r x : Option Key} {field : Links → Option Key}
    (hfield : ∀ n : Links, field { n with parent := a, prev := l, next := r } = x) (h : node ∈ f) :
    ((f.setPlace node a l r).get? k).bind field = if k = node then x else (f.get? k).bind field := by
  rw [setPlace, bind_get?_modify]
  by_cases hk : node = k
  · rw [if_pos hk, if_pos hk.symm, show field ∘ _ = fun _ => x from funext hfield]
    exact bind_get?_const x (hk ▸ h)
  · rw [if_neg hk, if_neg (Ne.symm hk)]

/-- A new place gives the node its new parent and leaves all other parents alone. -/
theorem parent_setPlace {a l r : Option Key} (h : node ∈ f) :
    (f.setPlace node a l r).parent k = if k = node then a else f.parent k := by
  have hfield : ∀ n : Links, { n with parent := a, prev := l, next := r }.parent = a := fun _ => rfl
  exact bind_get?_setPlace hfield h

/-- The left end of a gap does not count among the parents. -/
@[simp] theorem parent_setAfter {l x : Option Key} :
    (f.setAfter p l x).parent k = f.parent k := by
  cases l <;> simp only [parent, setAfter, bind_get?_modify] <;> split <;> rfl

/-- The right end of a gap does not count among the parents. -/
@[simp] theorem parent_setBefore {r x : Option Key} :
    (f.setBefore p r x).parent k = f.parent k := by
  cases r <;> simp only [parent, setBefore, bind_get?_modify] <;> split <;> rfl

/-- A new place gives the node what it knows in front of it, and no other node anything. -/
theorem prev_setPlace {a l r : Option Key} (h : node ∈ f) :
    (f.setPlace node a l r).prev k = if k = node then l else f.prev k := by
  have hfield : ∀ n : Links, { n with parent := a, prev := l, next := r }.prev = l := fun _ => rfl
  exact bind_get?_setPlace hfield h

/-- A new place gives the node what it knows behind it, and no other node anything. -/
theorem next_setPlace {a l r : Option Key} (h : node ∈ f) :
    (f.setPlace node a l r).next k = if k = node then r else f.next k := by
  have hfield : ∀ n : Links, { n with parent := a, prev := l, next := r }.next = r := fun _ => rfl
  exact bind_get?_setPlace hfield h

/-- A new place for a node leaves all first children as they are. -/
@[simp] theorem first_setPlace {a l r : Option Key} :
    (f.setPlace node a l r).first k = f.first k := by
  simp only [first, setPlace, bind_get?_modify]
  split <;> rfl

/-- A new place for a node leaves all last children as they are. -/
@[simp] theorem last_setPlace {a l r : Option Key} :
    (f.setPlace node a l r).last k = f.last k := by
  simp only [last, setPlace, bind_get?_modify]
  split <;> rfl

/-- Only the left end of a gap sees what was put right of it. -/
theorem rightOf_setAfter {l x y : Option Key} (h : l.getD p ∈ f) :
    (f.setAfter p l x).rightOf q y =
      if y = l ∧ (l = none → q = p) then x else f.rightOf q y := by
  cases l with
  | none =>
    cases y with
    | none =>
      simp only [setAfter, rightOf, first, bind_get?_modify, true_and, true_implies]
      by_cases hq : q = p
      · rw [if_pos hq.symm, if_pos hq]
        exact bind_get?_const x (hq ▸ h)
      · rw [if_neg (Ne.symm hq), if_neg hq]
    | some k =>
      simp only [setAfter, rightOf, next, bind_get?_modify]
      split <;> simp
  | some j =>
    cases y with
    | none =>
      simp only [setAfter, rightOf, first, bind_get?_modify]
      split <;> simp
    | some k =>
      simp only [setAfter, rightOf, next, bind_get?_modify, Option.some.injEq, reduceCtorEq,
        false_implies, and_true]
      by_cases hk : k = j
      · rw [if_pos hk.symm, if_pos hk]
        exact bind_get?_const x (hk ▸ h)
      · rw [if_neg (Ne.symm hk), if_neg hk]

/-- Only the right end of a gap sees what was put left of it. -/
theorem leftOf_setBefore {r x y : Option Key} (h : r.getD p ∈ f) :
    (f.setBefore p r x).leftOf q y =
      if y = r ∧ (r = none → q = p) then x else f.leftOf q y := by
  cases r with
  | none =>
    cases y with
    | none =>
      simp only [setBefore, leftOf, last, bind_get?_modify, true_and, true_implies]
      by_cases hq : q = p
      · rw [if_pos hq.symm, if_pos hq]
        exact bind_get?_const x (hq ▸ h)
      · rw [if_neg (Ne.symm hq), if_neg hq]
    | some k =>
      simp only [setBefore, leftOf, prev, bind_get?_modify]
      split <;> simp
  | some j =>
    cases y with
    | none =>
      simp only [setBefore, leftOf, last, bind_get?_modify]
      split <;> simp
    | some k =>
      simp only [setBefore, leftOf, prev, bind_get?_modify, Option.some.injEq, reduceCtorEq,
        false_implies, and_true]
      by_cases hk : k = j
      · rw [if_pos hk.symm, if_pos hk]
        exact bind_get?_const x (hk ▸ h)
      · rw [if_neg (Ne.symm hk), if_neg hk]

/-- No right end of a gap sees what was put right of one. -/
@[simp] theorem leftOf_setAfter {l x y : Option Key} :
    (f.setAfter p l x).leftOf q y = f.leftOf q y := by
  cases l <;> cases y <;>
    simp only [setAfter, leftOf, prev, last, bind_get?_modify] <;> split <;> rfl

/-- No left end of a gap sees what was put left of one. -/
@[simp] theorem rightOf_setBefore {r x y : Option Key} :
    (f.setBefore p r x).rightOf q y = f.rightOf q y := by
  cases r <;> cases y <;>
    simp only [setBefore, rightOf, next, first, bind_get?_modify] <;> split <;> rfl

/-- A new place for a node shows only at the gap right behind that node. -/
theorem rightOf_setPlace {a l r y : Option Key} (h : node ∈ f) :
    (f.setPlace node a l r).rightOf q y = if y = some node then r else f.rightOf q y := by
  cases y with
  | none => simp [rightOf]
  | some k => simp [rightOf, next_setPlace h]

/-- A new place for a node shows only at the gap right in front of that node. -/
theorem leftOf_setPlace {a l r y : Option Key} (h : node ∈ f) :
    (f.setPlace node a l r).leftOf q y = if y = some node then l else f.leftOf q y := by
  cases y with
  | none => simp [leftOf]
  | some k => simp [leftOf, prev_setPlace h]

end WindowForest.Forest
