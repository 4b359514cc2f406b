import WindowForest.Proofs.Forest.Threads

/-!
# Relinking

What `unlink` and `link` make of threads. `unlink` joins what stands in front of
a node with what stands behind it (`Threads.unlink`), and `link` puts the node
between the two ends of a gap (`Threads.link`). Neither can close a ring of
parents, as long as nothing goes under a node below itself.
-/

set_option autoImplicit false

namespace WindowForest.Forest

variable {f : Forest} {c : Key → List Key} {k node p q : Key}

/-! ## Unlinking -/

/-- Taking a root out of its place changes nothing. -/
theorem unlink_of_root (h : f.parent node = none) : f.unlink node = f := by
  simp [unlink, h]

/-- A child leaves its place blank, and its two neighbours come to know each other. -/
theorem unlink_of_parent (h : f.parent node = some p) :
    f.unlink node = ((f.setPlace node none none none).setAfter p (f.prev node)
      (f.next node)).setBefore p (f.next node) (f.prev node) := by
  simp [unlink, h]

/-- Unlinking makes no key live and none dead. -/
@[simp] theorem mem_unlink : k ∈ f.unlink node ↔ k ∈ f := by
  cases hp : f.parent node with
  | none => rw [unlink_of_root hp]
  | some p => simp [unlink_of_parent hp]

/-- What every change of a single node keeps, unlinking keeps. -/
theorem unlink_keeps {P : Forest → Prop}
    (hP : ∀ (f : Forest) (k : Key) (g : Links → Links), P f → P (f.modify k g)) (h : P f) :
    P (f.unlink node) := by
  cases hp : f.parent node with
  | none => rwa [unlink_of_root hp]
  | some p =>
    rw [unlink_of_parent hp]
    exact setBefore_keeps hP (setAfter_keeps hP (hP _ _ _ h))

/-- Unlinking keeps the books of the store in order. -/
theorem sound_unlink (h : Store.Sound f) : Store.Sound (f.unlink node) := by
  apply unlink_keeps _ h
  intro g k change hg
  exact hg.modify k change

/-- Unlinking uses up no slot. -/
@[simp] theorem unused_unlink (f : Forest) (node : Key) : (f.unlink node).unused = f.unused := by
  apply unlink_keeps (P := fun g => g.unused = f.unused) _ rfl
  intro g k change hg
  exact hg

/-- Unlinking gives back no slot. -/
@[simp] theorem freed_unlink (f : Forest) (node : Key) : (f.unlink node).freed = f.freed := by
  apply unlink_keeps (P := fun g => g.freed = f.freed) _ rfl
  intro g k change hg
  exact hg

/-- Unlinking makes a node a root and changes no other parent. -/
theorem parent_unlink : (f.unlink node).parent k = if k = node then none else f.parent k := by
  cases hp : f.parent node with
  | none =>
    rw [unlink_of_root hp]
    by_cases hk : k = node
    · rw [if_pos hk, hk, hp]
    · rw [if_neg hk]
  | some p => simp [unlink_of_parent hp, parent_setPlace (mem_of_parent hp)]

/-- Unlinking a node leaves the parents of all others as they are. -/
theorem parent_unlink_of_ne (hk : k ≠ node) : (f.unlink node).parent k = f.parent k := by
  rw [parent_unlink, if_neg hk]

/-- A rooted forest stays rooted when a node is taken out. -/
theorem Rooted.unlink (h : f.Rooted) (node : Key) : (f.unlink node).Rooted := by
  have hle : ∀ c q, (f.unlink node).parent c = some q → f.parent c = some q := by
    intro c q hq
    rw [parent_unlink] at hq
    by_cases hc : c = node
    · simp [hc] at hq
    · rwa [if_neg hc] at hq
  exact h.of_parent_le hle fun c q hq => mem_unlink.2 (h.parent_mem (hle c q hq))

section

variable (hp : f.parent node = some p)

include hp

/-- What stands right of each gap after a node was taken out: behind its left neighbour now stands
its right one. -/
theorem rightOf_unlink {y : Option Key} (hlive : (f.prev node).getD p ∈ f) :
    (f.unlink node).rightOf q y =
      if y = f.prev node ∧ (f.prev node = none → q = p) then f.next node
      else if y = some node then none else f.rightOf q y := by
  rw [unlink_of_parent hp, rightOf_setBefore, rightOf_setAfter (mem_setPlace.2 hlive),
    rightOf_setPlace (mem_of_parent hp)]

/-- What stands left of each gap after a node was taken out: in front of its right neighbour now
stands its left one. -/
theorem leftOf_unlink {y : Option Key} (hlive : (f.next node).getD p ∈ f) :
    (f.unlink node).leftOf q y =
      if y = f.next node ∧ (f.next node = none → q = p) then f.prev node
      else if y = some node then none else f.leftOf q y := by
  rw [unlink_of_parent hp, leftOf_setBefore (mem_setAfter.2 (mem_setPlace.2 hlive)),
    leftOf_setAfter, leftOf_setPlace (mem_of_parent hp)]

end

/-- A node that is not the last of a list does not show in what stands last. -/
theorem getLast?_append_middle {a t : List Key} (ht : t ≠ []) (x : Key) :
    (a ++ x :: t).getLast? = (a ++ t).getLast? := by
  obtain ⟨s, y, rfl⟩ := (List.eq_nil_or_concat' t).resolve_left ht
  rw [show a ++ x :: (s ++ [y]) = (a ++ x :: s) ++ [y] by simp, ← List.append_assoc a,
    List.getLast?_concat, List.getLast?_concat]

/-- A node that is not the first of a list does not show in what stands first. -/
theorem head?_append_middle {t b : List Key} (ht : t ≠ []) (x : Key) :
    (t ++ x :: b).head? = (t ++ b).head? := by
  cases t with
  | nil => exact absurd rfl ht
  | cons y t => rfl

namespace Threads

/-- A node of a list, or else its parent, is live, whichever stands left of a gap. -/
theorem prev_getD_mem (h : f.Threads c) (hp : p ∈ f) {a : List Key} (ha : ∀ x ∈ a, x ∈ c p) :
    a.getLast?.getD p ∈ f := by
  cases hlast : a.getLast? with
  | none => exact hp
  | some x => exact h.mem_of_mem (ha x (List.mem_of_getLast? hlast))

/-- A node of a list, or else its parent, is live, whichever stands right of a gap. -/
theorem next_getD_mem (h : f.Threads c) (hp : p ∈ f) {b : List Key} (hb : ∀ x ∈ b, x ∈ c p) :
    b.head?.getD p ∈ f := by
  cases hhead : b.head? with
  | none => exact hp
  | some x => exact h.mem_of_mem (hb x (List.mem_of_head? hhead))

/-- What stands on either side of a node is live. -/
theorem siblings_live (h : f.Threads c) (hlive : p ∈ f) {a b : List Key}
    (hcut : c p = a ++ node :: b) : (f.prev node).getD p ∈ f ∧ (f.next node).getD p ∈ f := by
  obtain ⟨hprev, hnext⟩ := h.siblings hcut
  rw [hprev, hnext]
  exact ⟨h.prev_getD_mem hlive fun x hx => by simp [hcut, hx],
    h.next_getD_mem hlive fun x hx => by simp [hcut, hx]⟩

/-- The gaps of two different lists have different left ends. -/
theorem not_same_left (h : f.Threads c) (hq : q ≠ p) {a b a' b' : List Key}
    (hcut : c p = a ++ b) (hcut' : c q = a' ++ b') :
    ¬ (a'.getLast? = a.getLast? ∧ (a.getLast? = none → q = p)) := by
  rintro ⟨hsame, hnone⟩
  cases hlast : a.getLast? with
  | none => exact hq (hnone hlast)
  | some x =>
    have hx : x ∈ c p := by simp [hcut, List.mem_of_getLast? hlast]
    have hx' : x ∈ c q := by simp [hcut', List.mem_of_getLast? (hsame.trans hlast)]
    exact hq (h.eq_of_mem hx' hx)

/-- The gaps of two different lists have different right ends. -/
theorem not_same_right (h : f.Threads c) (hq : q ≠ p) {a b a' b' : List Key}
    (hcut : c p = a ++ b) (hcut' : c q = a' ++ b') :
    ¬ (b'.head? = b.head? ∧ (b.head? = none → q = p)) := by
  rintro ⟨hsame, hnone⟩
  cases hhead : b.head? with
  | none => exact hq (hnone hhead)
  | some x =>
    have hx : x ∈ c p := by simp [hcut, List.mem_of_head? hhead]
    have hx' : x ∈ c q := by simp [hcut', List.mem_of_head? (hsame.trans hhead)]
    exact hq (h.eq_of_mem hx' hx)

/-- What stands beside a gap of another list is not the node. -/
theorem ne_some_of_mem (h : f.Threads c) (hnode : node ∈ c p) (hq : q ≠ p) {y : Option Key}
    (hy : ∀ x, y = some x → x ∈ c q) : y ≠ some node := by
  intro e
  exact hq (h.eq_of_mem (hy node e) hnode)

/-- Every gap of the list that a node was taken out of has a left end that knows the right one. -/
theorem right_unlink (h : f.Threads c) (hp : f.parent node = some p) (hlive : p ∈ f)
    {a b a' b' : List Key} (hcut : c p = a ++ node :: b) (hcut' : a ++ b = a' ++ b') :
    (f.unlink node).rightOf p a'.getLast? = b'.head? := by
  obtain ⟨hprev, hnext⟩ := h.siblings hcut
  obtain ⟨hnode, hnodup⟩ := List.nodup_cons.1 (List.nodup_middle.1 (hcut ▸ h.nodup p))
  have hne : a'.getLast? ≠ some node := by
    intro e
    rw [hcut'] at hnode
    exact hnode (List.mem_append_left _ (List.mem_of_getLast? e))
  rw [rightOf_unlink hp (h.siblings_live hlive hcut).1, if_neg hne, hprev, hnext]
  -- Only the gap that the node left was mended. At any other, the node stands on one of the sides.
  by_cases hsame : a'.getLast? = a.getLast?
  · obtain rfl := eq_of_getLast?_eq hnodup hcut' hsame.symm
    rw [if_pos ⟨rfl, fun _ => rfl⟩, List.append_cancel_left hcut']
  rw [if_neg fun e => hsame e.1]
  rcases List.append_eq_append_iff.1 hcut' with ⟨t, rfl, rfl⟩ | ⟨t, rfl, rfl⟩
  · have ht : t ≠ [] := fun e => hsame (by simp [e])
    have hold := h.right (a := a ++ node :: t) (b := b') (by simpa using hcut)
    rwa [getLast?_append_middle ht] at hold
  · have ht : t ≠ [] := fun e => hsame (by simp [e])
    have hold := h.right (a := a') (b := t ++ node :: b) (by simpa using hcut)
    rwa [head?_append_middle ht] at hold

/-- Every gap of the list that a node was taken out of has a right end that knows the left one. -/
theorem left_unlink (h : f.Threads c) (hp : f.parent node = some p) (hlive : p ∈ f)
    {a b a' b' : List Key} (hcut : c p = a ++ node :: b) (hcut' : a ++ b = a' ++ b') :
    (f.unlink node).leftOf p b'.head? = a'.getLast? := by
  obtain ⟨hprev, hnext⟩ := h.siblings hcut
  obtain ⟨hnode, hnodup⟩ := List.nodup_cons.1 (List.nodup_middle.1 (hcut ▸ h.nodup p))
  have hne : b'.head? ≠ some node := by
    intro e
    rw [hcut'] at hnode
    exact hnode (List.mem_append_right _ (List.mem_of_head? e))
  rw [leftOf_unlink hp (h.siblings_live hlive hcut).2, if_neg hne, hprev, hnext]
  -- As before, with the sides exchanged.
  by_cases hsame : b'.head? = b.head?
  · obtain rfl := eq_of_head?_eq hnodup hcut' hsame.symm
    rw [if_pos ⟨rfl, fun _ => rfl⟩, List.append_cancel_right hcut']
  rw [if_neg fun e => hsame e.1]
  rcases List.append_eq_append_iff.1 hcut' with ⟨t, rfl, rfl⟩ | ⟨t, rfl, rfl⟩
  · have ht : t ≠ [] := fun e => hsame (by simp [e])
    have hold := h.left (a := a ++ node :: t) (b := b') (by simpa using hcut)
    rwa [getLast?_append_middle ht] at hold
  · have ht : t ≠ [] := fun e => hsame (by simp [e])
    have hold := h.left (a := a') (b := t ++ node :: b) (by simpa using hcut)
    rwa [head?_append_middle ht] at hold

/-- Roots have no siblings after a node was taken out, and neither has that node. -/
theorem alone_unlink (h : f.Threads c) (hlive : p ∈ f) {a b : List Key}
    (hcut : c p = a ++ node :: b) (hk : (f.unlink node).parent k = none) :
    (f.unlink node).prev k = none ∧ (f.unlink node).next k = none := by
  have hp : f.parent node = some p := h.parent_eq (by simp [hcut])
  obtain ⟨hprev, hnext⟩ := h.siblings hcut
  obtain ⟨hout, -⟩ := List.nodup_cons.1 (List.nodup_middle.1 (hcut ▸ h.nodup p))
  obtain ⟨hprevlive, hnextlive⟩ := h.siblings_live hlive hcut
  -- The ends of the gap are children of `p`, so none of them is the root `k`.
  have hapart : k ∉ a ++ b := by
    intro hmem
    by_cases hkn : k = node
    · exact hout (hkn ▸ hmem)
    · rw [parent_unlink, if_neg hkn, h.parent_eq (p := p) (by simp_all)] at hk
      cases hk
  have hleft : some k ≠ b.head? := fun e =>
    hapart (List.mem_append_right _ (List.mem_of_head? e.symm))
  have hright : some k ≠ a.getLast? := fun e =>
    hapart (List.mem_append_left _ (List.mem_of_getLast? e.symm))
  have hold : k ≠ node → f.prev k = none ∧ f.next k = none := fun hkn =>
    h.alone (by rwa [parent_unlink, if_neg hkn] at hk)
  constructor
  · have hchange := leftOf_unlink hp hnextlive (q := p) (y := some k)
    rw [hnext, if_neg fun e => hleft e.1] at hchange
    by_cases hkn : k = node
    · simpa [leftOf, hkn] using hchange
    · simpa [leftOf, hkn, (hold hkn).1] using hchange
  · have hchange := rightOf_unlink hp hprevlive (q := p) (y := some k)
    rw [hprev, if_neg fun e => hright e.1] at hchange
    by_cases hkn : k = node
    · simpa [rightOf, hkn] using hchange
    · simpa [rightOf, hkn, (hold hkn).2] using hchange

/-- Unlinking a node takes it out of the list of its parent. -/
theorem unlink (h : f.Threads c) (hlive : p ∈ f) {a b : List Key} (hcut : c p = a ++ node :: b) :
    (f.unlink node).Threads (Function.update c p (a ++ b)) := by
  have hnode : node ∈ c p := by simp [hcut]
  have hp := h.parent_eq hnode
  obtain ⟨hprev, hnext⟩ := h.siblings hcut
  obtain ⟨hout, hnodup⟩ := List.nodup_cons.1 (List.nodup_middle.1 (hcut ▸ h.nodup p))
  constructor
  case nodup =>
    intro q
    by_cases hq : q = p
    · rw [hq, Function.update_self]
      exact hnodup
    · rw [Function.update_of_ne hq]
      exact h.nodup q
  case mem_iff =>
    intro q k
    rw [parent_unlink]
    by_cases hq : q = p
    · subst hq
      rw [Function.update_self]
      by_cases hk : k = node
      · simpa [hk] using hout
      · rw [if_neg hk, ← h.mem_iff, hcut]
        simp [hk]
    · rw [Function.update_of_ne hq, h.mem_iff]
      by_cases hk : k = node
      · rw [if_pos hk, hk, hp]
        simpa using Ne.symm hq
      · rw [if_neg hk]
  case right =>
    intro q a' b' hcut'
    by_cases hq : q = p
    · subst hq
      rw [Function.update_self] at hcut'
      exact h.right_unlink hp hlive hcut hcut'
    · -- Neither of the two ends that were mended belongs to the list of another node.
      rw [Function.update_of_ne hq] at hcut'
      have hy : a'.getLast? ≠ some node := by
        refine h.ne_some_of_mem hnode hq ?_
        intro x hx
        simp [hcut', List.mem_of_getLast? hx]
      rw [rightOf_unlink hp (h.siblings_live hlive hcut).1, hprev,
        if_neg (h.not_same_left hq hcut hcut'), if_neg hy]
      exact h.right hcut'
  case left =>
    intro q a' b' hcut'
    by_cases hq : q = p
    · subst hq
      rw [Function.update_self] at hcut'
      exact h.left_unlink hp hlive hcut hcut'
    · rw [Function.update_of_ne hq] at hcut'
      have hy : b'.head? ≠ some node := by
        refine h.ne_some_of_mem hnode hq ?_
        intro x hx
        simp [hcut', List.mem_of_head? hx]
      have hbehind : c p = (a ++ [node]) ++ b := by simp [hcut]
      rw [leftOf_unlink hp (h.siblings_live hlive hcut).2, hnext,
        if_neg (h.not_same_right hq hbehind hcut'), if_neg hy]
      exact h.left hcut'
  case alone =>
    intro k hk
    exact h.alone_unlink hlive hcut hk

end Threads

/-! ## Linking -/

/-- Nothing is linked to itself, and nothing where one of the two nodes is missing. -/
theorem link_of_missing {right : Option Key} (h : node = p ∨ node ∉ f ∨ p ∉ f) :
    f.link node p right = f := by
  rw [link, if_pos h]

/-- Linking makes no key live and none dead. -/
@[simp] theorem mem_link {right : Option Key} : k ∈ f.link node p right ↔ k ∈ f := by
  unfold link
  split <;> simp

/-- What every change of a single node keeps, linking keeps. -/
theorem link_keeps {P : Forest → Prop} {right : Option Key}
    (hP : ∀ (f : Forest) (k : Key) (g : Links → Links), P f → P (f.modify k g)) (h : P f) :
    P (f.link node p right) := by
  unfold link
  split
  · exact h
  · exact setBefore_keeps hP (setAfter_keeps hP (hP _ _ _ h))

/-- Linking keeps the books of the store in order. -/
theorem sound_link {right : Option Key} (h : Store.Sound f) :
    Store.Sound (f.link node p right) := by
  apply link_keeps _ h
  intro g k change hg
  exact hg.modify k change

/-- Linking uses up no slot. -/
@[simp] theorem unused_link (f : Forest) (node p : Key) (right : Option Key) :
    (f.link node p right).unused = f.unused := by
  apply link_keeps (P := fun g => g.unused = f.unused) _ rfl
  intro g k change hg
  exact hg

/-- Linking gives back no slot. -/
@[simp] theorem freed_link (f : Forest) (node p : Key) (right : Option Key) :
    (f.link node p right).freed = f.freed := by
  apply link_keeps (P := fun g => g.freed = f.freed) _ rfl
  intro g k change hg
  exact hg

section

variable {right : Option Key} (hne : node ≠ p) (hmem : node ∈ f) (hlive : p ∈ f)

include hne hmem hlive

/-- Linking gives a node its new place and makes it known at both ends of the gap that it fills. -/
theorem link_of_live :
    f.link node p right = ((f.setPlace node (some p) (f.leftOf p right) right).setAfter p
      (f.leftOf p right) (some node)).setBefore p right (some node) := by
  rw [link, if_neg (by simp [hne, hmem, hlive])]

/-- Linking gives a node its new parent and changes no other parent. -/
theorem parent_link :
    (f.link node p right).parent k = if k = node then some p else f.parent k := by
  simp [link_of_live hne hmem hlive, parent_setPlace hmem]

/-- What stands right of each gap after a node was put in: behind its left neighbour now stands the
node. -/
theorem rightOf_link {y : Option Key} (hleft : (f.leftOf p right).getD p ∈ f) :
    (f.link node p right).rightOf q y =
      if y = f.leftOf p right ∧ (f.leftOf p right = none → q = p) then some node
      else if y = some node then right else f.rightOf q y := by
  rw [link_of_live hne hmem hlive, rightOf_setBefore, rightOf_setAfter (mem_setPlace.2 hleft),
    rightOf_setPlace hmem]

/-- What stands left of each gap after a node was put in: in front of its right neighbour now stands
the node. -/
theorem leftOf_link {y : Option Key} (hright : right.getD p ∈ f) :
    (f.link node p right).leftOf q y =
      if y = right ∧ (right = none → q = p) then some node
      else if y = some node then f.leftOf p right else f.leftOf q y := by
  rw [link_of_live hne hmem hlive,
    leftOf_setBefore (mem_setAfter.2 (mem_setPlace.2 hright)), leftOf_setAfter,
    leftOf_setPlace hmem]

end

/-- Linking keeps a forest rooted, if the new parent is not below the node. -/
theorem Rooted.link (h : f.Rooted) {right : Option Key} (hne : node ≠ p) (hmem : node ∈ f)
    (hlive : p ∈ f) (hbelow : ¬ f.Within node p) : (f.link node p right).Rooted := by
  have hparent : ∀ x, (f.link node p right).parent x = if x = node then some p else f.parent x :=
    fun _ => parent_link hne hmem hlive
  have hsame : ∀ x, x ≠ node → (f.link node p right).parent x = f.parent x := by
    intro x hx
    rw [hparent, if_neg hx]
  refine h.relinked hsame ?_ ?_
  · intro x q hq
    rw [hparent] at hq
    by_cases hx : x = node
    · rw [if_pos hx] at hq
      exact mem_link.2 (Option.some.inj hq ▸ hlive)
    · rw [if_neg hx] at hq
      exact mem_link.2 (h.parent_mem hq)
  · intro q hq
    rw [hparent, if_pos rfl] at hq
    exact Option.some.inj hq ▸ hbelow

namespace Threads

section

variable (h : f.Threads c) (hne : node ≠ p) (hmem : node ∈ f) (hlive : p ∈ f)
  (hroot : f.parent node = none) {a b : List Key} (hcut : c p = a ++ b)

include h hlive hcut

/-- What stands left of the gap that is filled is live, or else the new parent is. -/
theorem leftOf_getD_mem : (f.leftOf p b.head?).getD p ∈ f := by
  rw [h.left hcut]
  exact h.prev_getD_mem hlive fun x hx => by simp [hcut, hx]

/-- What stands right of the gap that is filled is live, or else the new parent is. -/
theorem head?_getD_mem : b.head?.getD p ∈ f := by
  apply h.next_getD_mem hlive
  intro x hx
  simp [hcut, hx]

omit hlive in
include hroot in
/-- A root stands in no list, so none has a node twice when the root is put in. -/
theorem nodup_inserted : node ∉ a ++ b ∧ (a ++ node :: b).Nodup := by
  have hout : node ∉ a ++ b := by
    intro hx
    rw [← hcut, h.mem_iff, hroot] at hx
    cases hx
  exact ⟨hout, List.nodup_middle.2 (List.nodup_cons.2 ⟨hout, hcut ▸ h.nodup p⟩)⟩

include hne hmem hroot

/-- Every gap of the list that a node was put into has a left end that knows the right one. -/
theorem right_link {a' b' : List Key} (hcut' : a ++ node :: b = a' ++ b') :
    (f.link node p b.head?).rightOf p a'.getLast? = b'.head? := by
  obtain ⟨hout, hnodup⟩ := h.nodup_inserted hroot hcut
  rw [rightOf_link hne hmem hlive (h.leftOf_getD_mem hlive hcut), h.left hcut]
  -- The gap may be right in front of the node, right behind it, or away from it.
  by_cases hsame : a'.getLast? = a.getLast?
  · obtain rfl := eq_of_getLast?_eq hnodup hcut' hsame.symm
    rw [if_pos ⟨rfl, fun _ => rfl⟩, ← List.append_cancel_left hcut', List.head?_cons]
  rw [if_neg fun e => hsame e.1]
  by_cases hself : a'.getLast? = some node
  · have hcut'' : (a ++ [node]) ++ b = a' ++ b' := by simpa using hcut'
    obtain rfl := eq_of_getLast?_eq (by simpa using hnodup) hcut'' (by simp [hself])
    rw [if_pos hself, List.append_cancel_left hcut'']
  rw [if_neg hself]
  rcases List.append_eq_append_iff.1 hcut' with ⟨t, rfl, ht⟩ | ⟨t, rfl, rfl⟩
  · cases t with
    | nil => exact absurd (by simp) hsame
    | cons x t =>
      obtain ⟨rfl, rfl⟩ := List.cons.inj ht
      have hne' : t ≠ [] := fun e => hself (by simp [e])
      rw [getLast?_append_middle hne']
      exact h.right (by simpa using hcut)
  · have hne' : t ≠ [] := fun e => hsame (by simp [e])
    rw [head?_append_middle hne']
    exact h.right (by simpa using hcut)

/-- Every gap of the list that a node was put into has a right end that knows the left one. -/
theorem left_link {a' b' : List Key} (hcut' : a ++ node :: b = a' ++ b') :
    (f.link node p b.head?).leftOf p b'.head? = a'.getLast? := by
  obtain ⟨hout, hnodup⟩ := h.nodup_inserted hroot hcut
  rw [leftOf_link hne hmem hlive (h.head?_getD_mem hlive hcut), h.left hcut]
  by_cases hsame : b'.head? = b.head?
  · have hcut'' : (a ++ [node]) ++ b = a' ++ b' := by simpa using hcut'
    obtain rfl := eq_of_head?_eq (by simpa using hnodup) hcut'' hsame.symm
    rw [if_pos ⟨rfl, fun _ => rfl⟩, ← List.append_cancel_right hcut'', List.getLast?_concat]
  rw [if_neg fun e => hsame e.1]
  by_cases hself : b'.head? = some node
  · obtain rfl := eq_of_head?_eq hnodup hcut' (by simp [hself])
    rw [if_pos hself, List.append_cancel_right hcut']
  rw [if_neg hself]
  rcases List.append_eq_append_iff.1 hcut' with ⟨t, rfl, ht⟩ | ⟨t, rfl, rfl⟩
  · cases t with
    | nil => exact absurd (congrArg List.head? ht).symm hself
    | cons x t =>
      obtain ⟨rfl, rfl⟩ := List.cons.inj ht
      have hne' : t ≠ [] := fun e => hsame (by simp [e])
      rw [getLast?_append_middle hne']
      exact h.left (by simpa using hcut)
  · have hne' : t ≠ [] := fun e => hself (by simp [e])
    rw [head?_append_middle hne']
    exact h.left (by simpa using hcut)

/-- Roots have no siblings after a node was put into a list. -/
theorem alone_link (hk : (f.link node p b.head?).parent k = none) :
    (f.link node p b.head?).prev k = none ∧ (f.link node p b.head?).next k = none := by
  rw [parent_link hne hmem hlive] at hk
  have hkn : k ≠ node := by
    rintro rfl
    simp at hk
  rw [if_neg hkn] at hk
  have hout : k ∉ c p := by
    rw [h.mem_iff, hk]
    simp
  have hright : some k ≠ b.head? := fun e =>
    hout (by simp [hcut, List.mem_of_head? e.symm])
  have hleft : some k ≠ a.getLast? := fun e =>
    hout (by simp [hcut, List.mem_of_getLast? e.symm])
  have hprev := leftOf_link hne hmem hlive (q := p) (y := some k) (h.head?_getD_mem hlive hcut)
  have hnext := rightOf_link hne hmem hlive (q := p) (y := some k)
    (h.leftOf_getD_mem hlive hcut)
  rw [if_neg fun e => hright e.1] at hprev
  rw [h.left hcut, if_neg fun e => hleft e.1] at hnext
  constructor
  · simpa [leftOf, hkn, (h.alone hk).1] using hprev
  · simpa [rightOf, hkn, (h.alone hk).2] using hnext

/-- Linking a root puts it into a gap of the list of its new parent. -/
theorem link : (f.link node p b.head?).Threads (Function.update c p (a ++ node :: b)) := by
  obtain ⟨hout, hnodup⟩ := h.nodup_inserted hroot hcut
  have hnot : ∀ q, node ∉ c q := by
    intro q hq
    rw [h.mem_iff, hroot] at hq
    cases hq
  constructor
  case nodup =>
    intro q
    by_cases hq : q = p
    · rw [hq, Function.update_self]
      exact hnodup
    · rw [Function.update_of_ne hq]
      exact h.nodup q
  case mem_iff =>
    intro q k
    rw [parent_link hne hmem hlive]
    by_cases hk : k = node
    · rw [if_pos hk, hk]
      by_cases hq : q = p
      · simp [hq]
      · rw [Function.update_of_ne hq]
        simp [hnot q, Ne.symm hq]
    · rw [if_neg hk, ← h.mem_iff]
      by_cases hq : q = p
      · rw [hq, Function.update_self, hcut]
        simp [hk]
      · rw [Function.update_of_ne hq]
  case right =>
    intro q a' b' hcut'
    by_cases hq : q = p
    · subst hq
      rw [Function.update_self] at hcut'
      exact h.right_link hne hmem hlive hroot hcut hcut'
    · rw [Function.update_of_ne hq] at hcut'
      have hy : a'.getLast? ≠ some node := fun e =>
        hnot q (by simp [hcut', List.mem_of_getLast? e])
      rw [rightOf_link hne hmem hlive (h.leftOf_getD_mem hlive hcut), h.left hcut,
        if_neg (h.not_same_left hq hcut hcut'), if_neg hy]
      exact h.right hcut'
  case left =>
    intro q a' b' hcut'
    by_cases hq : q = p
    · subst hq
      rw [Function.update_self] at hcut'
      exact h.left_link hne hmem hlive hroot hcut hcut'
    · rw [Function.update_of_ne hq] at hcut'
      have hy : b'.head? ≠ some node := fun e =>
        hnot q (by simp [hcut', List.mem_of_head? e])
      rw [leftOf_link hne hmem hlive (h.head?_getD_mem hlive hcut),
        if_neg (h.not_same_right hq hcut hcut'), if_neg hy]
      exact h.left hcut'
  case alone =>
    intro k hk
    exact h.alone_link hne hmem hlive hroot hcut hk

end

end Threads

end WindowForest.Forest
