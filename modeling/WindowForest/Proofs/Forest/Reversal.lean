import WindowForest.Proofs.Forest.Determined

/-!
# Linking and unlinking undo each other

A node that was taken out of a list and is linked in front of its old neighbour again,
and a root that was put into a list and is taken out again, leave the forest as it was
(`Reversible`). The links are written in cases, depending on whether the node stands
first, last, both or neither in its list. Instead of going through them, both ways are
compared as threads: the lists of children are the old ones in the end, and they
determine all links.

What is written on the way is confined to the node, its parent and the neighbours in the
list (`Touches`).
-/

set_option autoImplicit false

namespace WindowForest

namespace Forest

variable {f : Forest} {c : Key → List Key} {k node p : Key} {left right : Option Key}

/-- Two forests differ at most in the links of a node, of a parent and of up to two of its children,
the neighbours of the node, and the node has the same first and last child in both. -/
structure Touches (f f' : Forest) (node p : Key) (left right : Option Key) : Prop where
  neighbours : ∀ s, left = some s ∨ right = some s → s ≠ node ∧ f.parent s = some p
  others : ∀ k, k ≠ node → k ≠ p → left ≠ some k → right ≠ some k → f'.get? k = f.get? k
  first : f'.first node = f.first node
  last : f'.last node = f.last node

/-- Whatever is linked can be unlinked and linked again, and whatever can be linked can be unlinked
again, with no trace left and with no other node touched. -/
structure Reversible (f : Forest) : Prop where
  /-- A node goes back to where it was taken from. -/
  relink : ∀ node p, f.parent node = some p →
    (f.unlink node).link node p (f.next node) = f ∧
      f.Touches (f.unlink node) node p (f.prev node) (f.next node)
  /-- A root is taken out again of the list that it was put into. -/
  unlink : ∀ node p right, node ∈ f → f.parent node = none → p ∈ f → ¬ f.Within node p →
    (∀ r, right = some r → f.parent r = some p) →
      (f.link node p right).unlink node = f ∧
        f.Touches (f.link node p right) node p (f.leftOf p right) right
  /-- The ends of the list are replaced where the parent shows the node there. -/
  ends : ∀ node p, f.parent node = some p →
    (f.unlink node).first p = (if f.first p = some node then f.next node else f.first p) ∧
      (f.unlink node).last p = if f.last p = some node then f.prev node else f.last p

/-! ## What is written -/

/-- A node that is given its place changes no other one. -/
theorem get?_setPlace_of_ne {a l r : Option Key} (hk : node ≠ k) :
    (f.setPlace node a l r).get? k = f.get? k := by
  rw [setPlace, Store.get?_modify, if_neg hk]

/-- Writing behind the left end of a gap changes the left neighbour only, or else the parent. -/
theorem get?_setAfter_of_ne {l x : Option Key} (hk : l.getD p ≠ k) :
    (f.setAfter p l x).get? k = f.get? k := by
  cases l with
  | none =>
    have hp : p ≠ k := hk
    rw [setAfter, Store.get?_modify, if_neg hp]
  | some l =>
    have hl : l ≠ k := hk
    rw [setAfter, Store.get?_modify, if_neg hl]

/-- Writing in front of the right end of a gap changes the right neighbour only, or else the parent.
-/
theorem get?_setBefore_of_ne {r x : Option Key} (hk : r.getD p ≠ k) :
    (f.setBefore p r x).get? k = f.get? k := by
  cases r with
  | none =>
    have hp : p ≠ k := hk
    rw [setBefore, Store.get?_modify, if_neg hp]
  | some r =>
    have hr : r ≠ k := hk
    rw [setBefore, Store.get?_modify, if_neg hr]

/-- Neither the parent nor the neighbour at an end of a gap is some third node. -/
theorem getD_ne {l : Option Key} (hk : k ≠ p) (hl : l ≠ some k) : l.getD p ≠ k := by
  cases l with
  | none => exact hk.symm
  | some j => simpa using hl

/-- The neighbours at a gap are nodes of the list that has the gap. -/
theorem mem_of_ends {a b : List Key} (hk : a.getLast? = some k ∨ b.head? = some k) :
    k ∈ a ++ b := by
  rw [List.mem_append]
  exact hk.imp List.mem_of_getLast? List.mem_of_head?

namespace Threads

variable (h : f.Threads c) (hlive : p ∈ f)

include h hlive

/-- Unlinking touches the node, its parent and its neighbours only. -/
theorem touches_unlink {a b : List Key} (hne : node ≠ p) (hcut : c p = a ++ node :: b) :
    f.Touches (f.unlink node) node p (f.prev node) (f.next node) := by
  have hp : f.parent node = some p := h.parent_eq (by simp [hcut])
  obtain ⟨hprev, hnext⟩ := h.siblings hcut
  obtain ⟨hout, -⟩ := List.nodup_cons.1 (List.nodup_middle.1 (hcut ▸ h.nodup p))
  obtain ⟨hprevlive, hnextlive⟩ := h.siblings_live hlive hcut
  constructor
  case neighbours =>
    intro s hs
    rw [hprev, hnext] at hs
    have hmem := mem_of_ends hs
    refine ⟨ne_of_mem_of_not_mem hmem hout, h.parent_eq ?_⟩
    rw [hcut]
    simp only [List.mem_append, List.mem_cons] at hmem ⊢
    tauto
  case others =>
    intro k hk hkp hl hr
    rw [unlink_of_parent hp, get?_setBefore_of_ne (getD_ne hkp hr),
      get?_setAfter_of_ne (getD_ne hkp hl), get?_setPlace_of_ne hk.symm]
  -- The first child of the node would only be written if the node were its own parent.
  case first =>
    have hchange := rightOf_unlink hp hprevlive (q := node) (y := none)
    rwa [if_neg fun e => hne (e.2 e.1.symm), if_neg nofun] at hchange
  case last =>
    have hchange := leftOf_unlink hp hnextlive (q := node) (y := none)
    rwa [if_neg fun e => hne (e.2 e.1.symm), if_neg nofun] at hchange

/-- Linking touches the node, its parent and its neighbours only. -/
theorem touches_link {a b : List Key} (hne : node ≠ p) (hmem : node ∈ f)
    (hroot : f.parent node = none) (hcut : c p = a ++ b) :
    f.Touches (f.link node p b.head?) node p (f.leftOf p b.head?) b.head? := by
  obtain ⟨hout, -⟩ := h.nodup_inserted hroot hcut
  constructor
  case neighbours =>
    intro s hs
    rw [h.left hcut] at hs
    have hs' := mem_of_ends hs
    refine ⟨ne_of_mem_of_not_mem hs' hout, h.parent_eq ?_⟩
    rwa [hcut]
  case others =>
    intro k hk hkp hl hr
    rw [link_of_live hne hmem hlive, get?_setBefore_of_ne (getD_ne hkp hr),
      get?_setAfter_of_ne (getD_ne hkp hl), get?_setPlace_of_ne hk.symm]
  case first =>
    have hchange := rightOf_link hne hmem hlive (q := node) (y := none)
      (h.leftOf_getD_mem hlive hcut)
    rwa [if_neg fun e => hne (e.2 e.1.symm), if_neg nofun] at hchange
  case last =>
    have hchange := leftOf_link hne hmem hlive (q := node) (y := none)
      (h.head?_getD_mem hlive hcut)
    rwa [if_neg fun e => hne (e.2 e.1.symm), if_neg nofun] at hchange

omit hlive in
/-- A node stands first in its list if nothing stands in front of it, and last if nothing stands
behind it. -/
theorem ends_iff {a b : List Key} (hcut : c p = a ++ node :: b) :
    (f.prev node = none ↔ f.first p = some node) ∧
      (f.next node = none ↔ f.last p = some node) := by
  obtain ⟨hprev, hnext⟩ := h.siblings hcut
  obtain ⟨hout, -⟩ := List.nodup_cons.1 (List.nodup_middle.1 (hcut ▸ h.nodup p))
  have hlast : f.last p = (c p).getLast? := h.left (b := []) (List.append_nil _).symm
  rw [hprev, hnext, h.first_eq, hlast, hcut]
  constructor
  · cases a with
    | nil => simp
    | cons x a =>
      have hx : x ≠ node := fun e => hout (by simp [e])
      simp [hx]
  · rcases b.eq_nil_or_concat' with rfl | ⟨b, x, rfl⟩
    · simp
    · have hx : x ≠ node := fun e => hout (by simp [e])
      rw [← List.cons_append, ← List.append_assoc, List.getLast?_concat]
      simp [hx]

/-- Where the node was first or last of its list, its neighbour is so after it was taken out. -/
theorem ends_unlink {a b : List Key} (hcut : c p = a ++ node :: b) :
    (f.unlink node).first p = (if f.first p = some node then f.next node else f.first p) ∧
      (f.unlink node).last p = if f.last p = some node then f.prev node else f.last p := by
  have hp : f.parent node = some p := h.parent_eq (by simp [hcut])
  obtain ⟨hfirst, hlast⟩ := h.ends_iff hcut
  obtain ⟨hprevlive, hnextlive⟩ := h.siblings_live hlive hcut
  have hright := rightOf_unlink hp hprevlive (q := p) (y := none)
  have hleft := leftOf_unlink hp hnextlive (q := p) (y := none)
  simp only [implies_true, and_true, eq_comm (a := none), hfirst, hlast, reduceCtorEq,
    if_false] at hright hleft
  exact ⟨hright, hleft⟩

end Threads

/-! ## There and back -/

namespace WellFormed

variable (h : f.WellFormed)

include h

/-- A node that was taken out of its list is put back by linking it where it was. -/
theorem link_unlink (hp : f.parent node = some p) :
    (f.unlink node).link node p (f.next node) = f := by
  have hlive := h.rooted.parent_mem hp
  have hne : node ≠ p := (h.rooted.parent_ne hp).symm
  obtain ⟨a, b, hcut, -⟩ := h.exists_cut hp
  have hroot : (f.unlink node).parent node = none := by rw [parent_unlink, if_pos rfl]
  have hbelow : ¬ (f.unlink node).Within node p := fun hw =>
    h.rooted.not_within_parent hp ((within_relinked_iff fun _ => parent_unlink_of_ne).1 hw)
  have hthreads := (h.threads.unlink hlive hcut).link hne (mem_unlink.2 (mem_of_parent hp))
    (mem_unlink.2 hlive) hroot (Function.update_self p (a ++ b) f.children)
  rw [Function.update_idem, ← hcut, Function.update_eq_self] at hthreads
  rw [(h.threads.siblings hcut).2]
  have hrooted : ((f.unlink node).link node p b.head?).Rooted :=
    (h.unlink node).rooted.link hne (mem_unlink.2 (mem_of_parent hp)) (mem_unlink.2 hlive) hbelow
  -- The lists of children are the old ones, and they leave no choice for the links.
  apply h.eq_of_children (hthreads.wellFormed (sound_link (sound_unlink h.sound)) hrooted)
  · exact hthreads.children_eq
  · exact fun k => mem_link.trans mem_unlink
  · rw [unused_link, unused_unlink]
  · rw [freed_link, freed_unlink]

/-- A gap of a list is named by the child behind it, or lies at the end. -/
theorem exists_gap (hright : ∀ r, right = some r → f.parent r = some p) :
    ∃ a b, f.children p = a ++ b ∧ right = b.head? := by
  cases right with
  | none => exact ⟨f.children p, [], by simp, rfl⟩
  | some r =>
    obtain ⟨a, b, hcut, -⟩ := h.exists_cut (hright r rfl)
    exact ⟨a, r :: b, hcut, rfl⟩

/-- A root that was put into a list is taken out again by unlinking it. -/
theorem unlink_link (hmem : node ∈ f) (hroot : f.parent node = none) (hlive : p ∈ f)
    (hbelow : ¬ f.Within node p) {a b : List Key} (hcut : f.children p = a ++ b) :
    (f.link node p b.head?).unlink node = f := by
  have hne := ne_of_not_within hbelow
  have hlinked := h.threads.link hne hmem hlive hroot hcut
  have hthreads := hlinked.unlink (mem_link.2 hlive)
    (Function.update_self p (a ++ node :: b) f.children)
  rw [Function.update_idem, ← hcut, Function.update_eq_self] at hthreads
  have hrooted : ((f.link node p b.head?).unlink node).Rooted :=
    (h.rooted.link hne hmem hlive hbelow).unlink node
  apply h.eq_of_children (hthreads.wellFormed (sound_unlink (sound_link h.sound)) hrooted)
  · exact hthreads.children_eq
  · exact fun k => mem_unlink.trans mem_link
  · rw [unused_unlink, unused_link]
  · rw [freed_unlink, freed_link]

/-- In a well-formed forest linking and unlinking undo each other. -/
theorem toReversible : f.Reversible where
  relink node p hp := by
    obtain ⟨a, b, hcut, -⟩ := h.exists_cut hp
    exact ⟨h.link_unlink hp, h.threads.touches_unlink (h.rooted.parent_mem hp)
      (h.rooted.parent_ne hp).symm hcut⟩
  unlink node p right hmem hroot hlive hbelow hright := by
    obtain ⟨a, b, hcut, rfl⟩ := h.exists_gap hright
    exact ⟨h.unlink_link hmem hroot hlive hbelow hcut,
      h.threads.touches_link hlive (ne_of_not_within hbelow) hmem hroot hcut⟩
  ends node p hp := by
    obtain ⟨a, b, hcut, -⟩ := h.exists_cut hp
    exact h.threads.ends_unlink (h.rooted.parent_mem hp) hcut

end WellFormed

end Forest

namespace Tree

/-- In every forest that a run leads to, linking and unlinking undo each other. -/
theorem Run.reversible {σ : Type} [Observer σ] {observer : σ} {edits : List Edit} {t : Tree σ}
    (run : Run { observer } edits t) : t.forest.Reversible :=
  (run.wellFormed Forest.wellFormed_empty).toReversible

/-- Three nodes stand in a row under a root. The one in the middle can be taken out and put back,
and a fourth one can be put in front of it and taken out again. -/
theorem reversible_row :
    ∃ t : Tree Unit,
      Run { observer := () }
        [.create ⟨1, 1⟩, .create ⟨2, 1⟩, .create ⟨3, 1⟩, .create ⟨4, 1⟩, .create ⟨5, 1⟩,
          .place ⟨2, 1⟩ ⟨1, 1⟩ 0, .place ⟨3, 1⟩ ⟨1, 1⟩ 1, .place ⟨4, 1⟩ ⟨1, 1⟩ 2] t ∧
      t.forest.Reversible ∧
      t.forest.prev ⟨3, 1⟩ = some ⟨2, 1⟩ ∧ t.forest.next ⟨3, 1⟩ = some ⟨4, 1⟩ ∧
      (t.forest.unlink ⟨3, 1⟩).children ⟨1, 1⟩ = [⟨2, 1⟩, ⟨4, 1⟩] ∧
      (t.forest.unlink ⟨3, 1⟩).link ⟨3, 1⟩ ⟨1, 1⟩ (some ⟨4, 1⟩) = t.forest ∧
      (t.forest.link ⟨5, 1⟩ ⟨1, 1⟩ (some ⟨3, 1⟩)).children ⟨1, 1⟩ =
        [⟨2, 1⟩, ⟨5, 1⟩, ⟨3, 1⟩, ⟨4, 1⟩] ∧
      (t.forest.link ⟨5, 1⟩ ⟨1, 1⟩ (some ⟨3, 1⟩)).unlink ⟨5, 1⟩ = t.forest := by
  have first : Run ({ observer := () } : Tree Unit) [] { observer := () } := .start
  have run := first
    |>.step (.create _) |>.step (.create _) |>.step (.create _) |>.step (.create _)
    |>.step (.create _)
    |>.step (.place_root _ ⟨2, 1⟩ ⟨1, 1⟩ 0 (by decide) (by decide))
    |>.step (.place_root _ ⟨3, 1⟩ ⟨1, 1⟩ 1 (by decide) (by decide))
    |>.step (.place_root _ ⟨4, 1⟩ ⟨1, 1⟩ 2 (by decide) (by decide))
  have hback := (run.reversible.relink ⟨3, 1⟩ ⟨1, 1⟩ (by decide)).1
  have hout := (run.reversible.unlink ⟨5, 1⟩ ⟨1, 1⟩ (some ⟨3, 1⟩) (by decide) (by decide)
    (by decide) (Forest.not_within_of_root (by decide) (by decide))
    (fun r hr => Option.some.inj hr ▸ by decide)).1
  exact ⟨_, run, run.reversible, by decide, by decide, by decide, hback, by decide, hout⟩

end Tree

end WindowForest
