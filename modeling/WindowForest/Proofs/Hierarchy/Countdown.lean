import Mathlib.Algebra.Ring.Nat
import WindowForest.Proofs.Hierarchy.Pending
import WindowForest.Proofs.Hierarchy.Voting

/-!
# How long hooks put a removal off

A removal is tried again and again, with no other command in between. Every poll that
ends with a deferral takes one vote from the hook that deferred. The hooks asked before
that one had no votes left, and the ones behind it were not asked. So the votes that are
left within the tree, added up, go down by exactly one with every try
(`Standing.step`), and when none are left, nobody defers.

A hook that always defers keeps the tree from being removed, whatever the others do.
-/

set_option autoImplicit false

namespace WindowForest

variable {η : Type}

/-! ## Hooks that count -/

namespace Hook

variable [Hook η] {hook : η} {k : Key} {n : Nat}

/-- What a hook answers when it has been asked `n` times before. -/
def answer (hook : η) (k : Key) (n : Nat) : Bool :=
  (Hook.vote ((fun hook => (Hook.vote hook k).2)^[n] hook) k).1

/-- After one vote the answers go on from the next one. -/
theorem answer_vote (hook : η) (k : Key) (n : Nat) :
    answer (Hook.vote hook k).2 k n = answer hook k (n + 1) := by
  rw [answer, answer, Function.iterate_succ_apply]

/-- The hook defers the next `n` times that it is asked, and then no more. -/
def DefersTimes (hook : η) (k : Key) (n : Nat) : Prop := ∀ i, answer hook k i = decide (i < n)

/-- The hook defers whenever it is asked. -/
def DefersAlways (hook : η) (k : Key) : Prop := ∀ i, answer hook k i = true

/-- A hook that is asked defers once less from then on. -/
theorem DefersTimes.vote (h : DefersTimes hook k n) :
    DefersTimes (Hook.vote hook k).2 k (n - 1) := by
  intro i
  rw [answer_vote, h]
  exact decide_eq_decide.2 (by omega)

/-- A hook that always defers does so after any vote. -/
theorem DefersAlways.vote (h : DefersAlways hook k) : DefersAlways (Hook.vote hook k).2 k := by
  intro i
  rw [answer_vote, h]

end Hook

namespace Voter

/-- A hook that counts down is left with what the votes have not used up. -/
theorem iterate_vote_times (n i : Nat) (k : Key) :
    (fun v => (Hook.vote v k).2)^[i] (times n) = times (n - i) := by
  induction i generalizing n with
  | zero => rfl
  | succ i ih =>
    rw [Function.iterate_succ_apply]
    cases n with
    | zero => exact (ih 0).trans (by rw [Nat.zero_sub, Nat.zero_sub])
    | succ n => exact (ih n).trans (by rw [Nat.succ_sub_succ])

/-- A hook with so many votes remaining defers as many times. -/
theorem defersTimes_of_remaining {v : Voter} {n : Nat} (h : v.remaining = some n) (k : Key) :
    Hook.DefersTimes v k n := by
  intro i
  cases v with
  | passive =>
    obtain rfl : 0 = n := Option.some.inj h
    rw [Hook.answer, Function.iterate_fixed rfl]
    rfl
  | times m =>
    obtain rfl : m = n := Option.some.inj h
    rw [Hook.answer, iterate_vote_times]
    by_cases hi : i < m
    · obtain ⟨j, rfl⟩ := Nat.exists_eq_add_of_lt hi
      rw [decide_eq_true hi, Nat.add_assoc, Nat.add_sub_cancel_left]
      rfl
    · rw [decide_eq_false hi, Nat.sub_eq_zero_of_le (Nat.le_of_not_lt hi)]
      rfl
  | always => cases h

/-- A hook without a number of votes remaining always defers. -/
theorem defersAlways_of_remaining {v : Voter} (h : v.remaining = none) (k : Key) :
    Hook.DefersAlways v k := by
  intro i
  cases v with
  | always =>
    rw [Hook.answer, Function.iterate_fixed rfl]
    rfl
  | passive => cases h
  | times n => cases h

end Voter

/-! ## Votes that are left -/

/-- The hooks of the listed containers defer as many times as `quota` says. -/
def Counted [Hook η] (hooks : Table η) (l : List Key) (quota : Key → Nat) : Prop :=
  ∀ k ∈ l, ∀ hook, hooks[k]? = some hook → Hook.DefersTimes hook k (quota k)

namespace Counted

variable [Hook η] {hooks hooks' : Table η} {k : Key} {l m before after : List Key}
  {quota : Key → Nat}

/-- A listed container with a hook defers as long as its quota is not used up. -/
theorem defers_eq (hc : Counted hooks l quota) (hk : k ∈ l) (hhook : k ∈ hooks) :
    Poll.defers hooks k = decide (0 < quota k) := by
  obtain ⟨hook, hget⟩ := exists_hook_of_mem hhook
  rw [Poll.defers_of_hook hget]
  exact hc k hk hook hget 0

/-- Who is asked has one vote less, unless there was none left. -/
theorem consulted (hc : Counted hooks l quota) (hm : Consulted hooks hooks' m) :
    Counted hooks' l fun k => if k ∈ m then quota k - 1 else quota k := by
  intro k hk hook' hget'
  rw [hm k] at hget'
  dsimp only
  by_cases hkm : k ∈ m
  · rw [if_pos hkm] at hget' ⊢
    obtain ⟨hook, hget, rfl⟩ := Option.map_eq_some_iff.1 hget'
    exact (hc k hk hook hget).vote
  · rw [if_neg hkm] at hget' ⊢
    exact hc k hk hook' hget'

end Counted

/-- If the first ones have no votes and the next one has, a poll takes a single vote. -/
theorem sum_quota {before after : List Key} {k : Key} {quota : Key → Nat}
    (hnodup : (before ++ k :: after).Nodup) (hnone : ∀ j ∈ before, quota j = 0)
    (hsome : 0 < quota k) :
    ((before ++ k :: after).map fun j =>
      if j ∈ before ++ [k] then quota j - 1 else quota j).sum + 1 =
        ((before ++ k :: after).map quota).sum := by
  obtain ⟨-, hafter, hapart⟩ := List.nodup_append.1 hnodup
  have hbefore : before.map (fun j => if j ∈ before ++ [k] then quota j - 1 else quota j) =
      before.map quota := by
    refine List.map_congr_left fun j hj => ?_
    rw [if_pos (List.mem_append_left _ hj), hnone j hj]
  have hrest : after.map (fun j => if j ∈ before ++ [k] then quota j - 1 else quota j) =
      after.map quota := by
    refine List.map_congr_left fun j hj => if_neg ?_
    rw [List.mem_append, List.mem_singleton]
    rintro (hmem | rfl)
    · exact hapart j hmem j (List.mem_cons_of_mem k hj) rfl
    · exact (List.nodup_cons.1 hafter).1 hj
  have hk : (if k ∈ before ++ [k] then quota k - 1 else quota k) = quota k - 1 :=
    if_pos (by simp)
  rw [List.map_append, List.map_append, List.map_cons, List.map_cons, hbefore, hrest, hk]
  simp only [List.sum_append, List.sum_cons]
  omega

namespace Hierarchy

variable [Hook η] {h h' : Hierarchy η} {top k : Key} {votes n : Nat}

/-! ## One try -/

/-- The hooks in the tree of a live container have as many votes left altogether. -/
structure Standing (h : Hierarchy η) (top : Key) (votes : Nat) : Prop where
  inOrder : h.InOrder
  live : h.contains top
  quotas : ∃ quota : Key → Nat, Counted h.records.hooks (h.hooked top) quota ∧
    ((h.hooked top).map quota).sum = votes

/-- The command to remove a container is answered with what becomes of the removal. -/
theorem result_apply_remove {r : Removal} (hr : (h.remove top).result = .ok r) :
    (h.apply (.remove top)).result = .ok (.ofRemoval r) := by
  show (h.remove top).result.map Answer.ofRemoval = _
  rw [hr]
  rfl

namespace OnlyMarked

variable {asked : List Key} (hm : h.OnlyMarked h' top asked)

include hm

/-- A mark makes no container and removes none. -/
theorem contains_iff (k : Key) : h'.contains k ↔ h.contains k := by
  rw [Hierarchy.contains_iff, Hierarchy.contains_iff, hm.container]
  split
  · rw [Option.isSome_map]
  · rfl

/-- Under a mark the same containers have hooks. -/
theorem hooked_eq (node : Key) : h'.hooked node = h.hooked node := by
  rw [hooked, hooked, hm.forest]
  apply filter_hooks_congr
  intro k _
  exact hm.hooks.mem_iff

end OnlyMarked

namespace Standing

/-- As long as there are votes, a try takes one of them and changes nothing else but the mark. -/
theorem step (hs : h.Standing top (votes + 1)) :
    (h.apply (.remove top)).result = .ok .deferred ∧
      (h.apply (.remove top)).hierarchy.Standing top votes ∧
      (h.apply (.remove top)).hierarchy.forest = h.forest := by
  obtain ⟨quota, hcounted, hsum⟩ := hs.quotas
  have hdefers : ∀ k ∈ h.hooked top, Poll.defers h.records.hooks k = decide (0 < quota k) :=
    fun k hk => hcounted.defers_eq hk (hs.inOrder.mem_hooks_of_hooked hk)
  have hsome : ∃ k ∈ h.hooked top, Poll.defers h.records.hooks k = true := by
    -- If nobody deferred, nobody would have a vote left, and the sum would be zero.
    by_contra hnone
    have hzero : ((h.hooked top).map quota).sum = 0 := by
      refine List.sum_eq_zero_iff_forall_eq_nat.2 (List.forall_mem_map.2 fun k hk => ?_)
      by_contra hne
      exact hnone ⟨k, hk, (hdefers k hk).trans (decide_eq_true (Nat.pos_of_ne_zero hne))⟩
    omega
  obtain ⟨before, k, after, hsplit, hno, hk, hok, -, hm⟩ :=
    (hs.inOrder.ballot_remove hs.live).deferred hsome
  have hmem : ∀ j ∈ before ++ k :: after, j ∈ h.hooked top := fun j hj => hsplit ▸ hj
  -- Those asked before `k` have agreed, so they had no vote to give.
  have hempty : ∀ j ∈ before, quota j = 0 := by
    intro j hj
    have hspent := (hdefers j (hmem j (List.mem_append_left _ hj))).symm.trans (hno j hj)
    exact Nat.eq_zero_of_not_pos (of_decide_eq_false hspent)
  have hvote : 0 < quota k :=
    of_decide_eq_true ((hdefers k (hmem k (by simp))).symm.trans hk)
  refine ⟨result_apply_remove hok, ⟨hs.inOrder.apply _, (hm.contains_iff top).2 hs.live, ?_⟩,
    hm.forest⟩
  refine ⟨_, (hm.hooked_eq top).symm ▸ hcounted.consulted hm.hooks, ?_⟩
  have hone := sum_quota (hsplit ▸ hs.inOrder.nodup_hooked top) hempty hvote
  rw [hsplit] at hsum
  show ((((h.remove top).hierarchy.hooked top).map _).sum) = votes
  rw [hm.hooked_eq, hsplit]
  omega

/-- When no votes are left, the container is removed. -/
theorem last (hs : h.Standing top 0) :
    (h.apply (.remove top)).result = .ok .removed ∧
      (h.apply (.remove top)).hierarchy = (h.removeNow top).hierarchy := by
  obtain ⟨quota, hcounted, hsum⟩ := hs.quotas
  have hno : ∀ k ∈ h.hooked top, Poll.defers h.records.hooks k = false := by
    intro k hk
    have hzero := List.forall_mem_map.1 (List.sum_eq_zero_iff_forall_eq_nat.1 hsum) k hk
    rw [hcounted.defers_eq hk (hs.inOrder.mem_hooks_of_hooked hk), hzero]
    rfl
  obtain ⟨hok, -, hsame⟩ := hs.inOrder.remove_of_agreed hs.live hno
  exact ⟨result_apply_remove hok, hsame⟩

end Standing

/-- A container keeps its removal from being carried out if a hook in its tree always defers. -/
structure Blocked (h : Hierarchy η) (top : Key) : Prop where
  inOrder : h.InOrder
  live : h.contains top
  blocker : ∃ k ∈ h.hooked top, ∃ hook, h.records.hooks[k]? = some hook ∧
    Hook.DefersAlways hook k

/-- A removal that is blocked is put off, and is blocked from then on. -/
theorem Blocked.step (hb : h.Blocked top) :
    (h.apply (.remove top)).result = .ok .deferred ∧
      (h.apply (.remove top)).hierarchy.Blocked top ∧
      (h.apply (.remove top)).hierarchy.forest = h.forest := by
  obtain ⟨j, hj, hook, hhook, halways⟩ := hb.blocker
  obtain ⟨before, k, after, -, -, -, hok, -, hm⟩ := (hb.inOrder.ballot_remove hb.live).deferred
    ⟨j, hj, (Poll.defers_of_hook hhook).trans (halways 0)⟩
  refine ⟨result_apply_remove hok, ⟨hb.inOrder.apply _, (hm.contains_iff top).2 hb.live, ?_⟩,
    hm.forest⟩
  -- The hook may have been asked or not, it goes on to defer in either case.
  refine ⟨j, (hm.hooked_eq top).symm ▸ hj, ?_⟩
  have hhook' := hm.hooks j
  rw [hhook] at hhook'
  by_cases hasked : j ∈ before ++ [k]
  · rw [if_pos hasked] at hhook'
    exact ⟨_, hhook', halways.vote⟩
  · rw [if_neg hasked] at hhook'
    exact ⟨_, hhook', halways⟩

/-! ## Trying again and again -/

/-- The hierarchy after so many tries to remove a container, with nothing in between. -/
def attempts (h : Hierarchy η) (top : Key) (n : Nat) : Hierarchy η :=
  h.run (List.replicate n (.remove top))

/-- One more try is a try after all others. -/
theorem attempts_succ (h : Hierarchy η) (top : Key) (n : Nat) :
    h.attempts top (n + 1) = ((h.attempts top n).apply (.remove top)).hierarchy := by
  rw [attempts, List.replicate_succ', run_append]
  rfl

/-- Each try takes one vote and leaves the forest as it is. -/
theorem Standing.attempts (hs : h.Standing top (n + votes)) :
    (h.attempts top n).Standing top votes ∧ (h.attempts top n).forest = h.forest := by
  -- One more try takes one vote more, so the votes that are left vary with the tries.
  induction n generalizing votes with
  | zero => exact ⟨Nat.zero_add votes ▸ hs, rfl⟩
  | succ n ih =>
    obtain ⟨hs', hforest⟩ := ih (Nat.succ_add_eq_add_succ n votes ▸ hs)
    obtain ⟨-, hs'', hforest'⟩ := hs'.step
    rw [attempts_succ]
    exact ⟨hs'', hforest'.trans hforest⟩

/-- A removal that is blocked is so after any number of tries. -/
theorem Blocked.attempts (hb : h.Blocked top) (n : Nat) :
    (h.attempts top n).Blocked top ∧ (h.attempts top n).forest = h.forest := by
  induction n with
  | zero => exact ⟨hb, rfl⟩
  | succ n ih =>
    obtain ⟨-, hb', hforest⟩ := ih.1.step
    rw [attempts_succ]
    exact ⟨hb', hforest.trans ih.2⟩

/-- The removal of a container that is gone is refused. -/
theorem apply_remove_of_gone (hgone : ¬ h.contains top) :
    h.apply (.remove top) = h.refuse (.gone top) := by
  show (h.remove top).map Answer.ofRemoval = _
  rw [remove, checkLive_of_not_contains hgone]
  rfl

/-- Once the container is gone, nothing more happens. -/
theorem attempts_of_gone (hgone : ¬ (h.attempts top n).contains top) (m : Nat) :
    h.attempts top (n + m) = h.attempts top n := by
  induction m with
  | zero => rfl
  | succ m ih =>
    rw [← Nat.add_assoc, attempts_succ, ih, apply_remove_of_gone hgone]
    rfl

/-- After `n` tries to remove a container, the next one is put off, and the container waits for its
removal. No container has been removed by any of these tries. -/
structure PutOff (h : Hierarchy η) (top : Key) (n : Nat) : Prop where
  answer : ((h.attempts top n).apply (.remove top)).result = .ok .deferred
  pending : (h.attempts top (n + 1)).isPending top
  stays : ∀ k, (h.attempts top (n + 1)).contains k ↔ h.contains k
  forest : (h.attempts top (n + 1)).forest = h.forest

/-- A try that is put off without touching the forest removes nothing. -/
theorem putOff_of_deferred (ho : h.InOrder) (ho' : (h.attempts top n).InOrder)
    (hok : ((h.attempts top n).apply (.remove top)).result = .ok .deferred)
    (hforest : (h.attempts top (n + 1)).forest = h.forest) : h.PutOff top n where
  answer := hok
  pending := by
    rw [attempts_succ]
    exact ho'.isPending_of_deferred hok
  stays k := by
    have harranged : (h.attempts top (n + 1)).Arranged := by
      rw [attempts_succ]
      exact (ho'.apply _).arranged
    rw [harranged.live_iff, ho.arranged.live_iff, hforest]
  forest := hforest

/-- What it means that a container is removed after so many votes, when there are as many tries as
it takes. -/
structure Counts (h : Hierarchy η) (top : Key) (votes : Nat) : Prop where
  putOff : ∀ n < votes, h.PutOff top n
  removed : ((h.attempts top votes).apply (.remove top)).result = .ok .removed
  gone : ∀ k, (h.attempts top (votes + 1)).contains k ↔ h.contains k ∧ ¬ h.forest.Within top k
  /-- When the container is gone, further tries are refused. -/
  refused : ∀ n, votes < n →
    (h.attempts top n).apply (.remove top) = (h.attempts top (votes + 1)).refuse (.gone top)

/-- A container with so many votes in its tree is removed after as many tries. -/
theorem Standing.counts (hs : h.Standing top votes) : h.Counts top votes := by
  obtain ⟨hlast, hforest⟩ : (h.attempts top votes).Standing top 0 ∧ _ := Standing.attempts hs
  have hmem : ∀ k, (h.attempts top votes).contains k ↔ h.contains k := by
    intro k
    rw [hlast.inOrder.arranged.live_iff, hs.inOrder.arranged.live_iff, hforest]
  have hgone : ∀ k, (h.attempts top (votes + 1)).contains k ↔
      h.contains k ∧ ¬ h.forest.Within top k := by
    intro k
    have hteardown := hlast.inOrder.arranged.teardown_removeNow hlast.live
    rw [attempts_succ, hlast.last.2, hteardown.gone, hmem, hforest]
  refine ⟨?_, hlast.last.1, hgone, ?_⟩
  · intro n hn
    obtain ⟨left, rfl⟩ := Nat.exists_eq_add_of_lt hn
    obtain ⟨hs', hforest'⟩ : (h.attempts top n).Standing top (left + 1) ∧ _ :=
      Standing.attempts (Nat.add_assoc n left 1 ▸ hs)
    obtain ⟨hok, -, hsame⟩ := hs'.step
    refine putOff_of_deferred hs.inOrder hs'.inOrder hok ?_
    rw [attempts_succ]
    exact hsame.trans hforest'
  · intro n hn
    have htop : ¬ (h.attempts top (votes + 1)).contains top := fun hin =>
      ((hgone top).1 hin).2 (Forest.within_refl _ _)
    obtain ⟨m, rfl⟩ := Nat.exists_eq_add_of_le hn
    rw [attempts_of_gone htop, apply_remove_of_gone htop]

/-- A removal that is blocked is put off at every try. -/
theorem Blocked.putOff (hb : h.Blocked top) (n : Nat) : h.PutOff top n := by
  obtain ⟨hb', hforest⟩ := hb.attempts n
  exact putOff_of_deferred hb.inOrder hb'.inOrder hb'.step.1 (hb.attempts (n + 1)).2

/-- Whatever commands were given before, a container is removed after as many tries as the hooks in
its tree have votes altogether, and never if one of them always defers. -/
theorem Reachable.countdown {settings : Settings} (hr : Reachable settings h)
    (htop : h.contains top) :
    (∀ quota : Key → Nat,
      (∀ k hook, h.forest.Within top k → h.records.hooks[k]? = some hook →
        Hook.DefersTimes hook k (quota k)) →
      h.Counts top ((h.hooked top).map quota).sum) ∧
    ((∃ k hook, h.forest.Within top k ∧ h.records.hooks[k]? = some hook ∧
        Hook.DefersAlways hook k) →
      ∀ n, h.PutOff top n) := by
  have ho := hr.inOrder
  have hf := ho.arranged.wellFormed
  have hmem := (ho.arranged.live_iff top).1 htop
  constructor
  · intro quota hquota
    refine Standing.counts ⟨ho, htop, quota, ?_, rfl⟩
    intro k hk hook hhook
    exact hquota k hook ((mem_hooked_iff hf).1 hk).1.2 hhook
  · rintro ⟨k, hook, hk, hhook, halways⟩
    have hin : k ∈ h.records.hooks :=
      Std.ExtTreeMap.mem_iff_isSome_getElem?.2 (Option.isSome_of_eq_some hhook)
    exact Blocked.putOff
      ⟨ho, htop, k, (mem_hooked_iff hf).2 ⟨⟨hmem, hk⟩, hin⟩, hook, hhook, halways⟩

/-- The task defers once and the stack twice, so the stack goes at the fourth try. If the hook of the
task always defers, the stack stays. -/
theorem countdown_furnished :
    let counting := furnished.run [.setHook ⟨3, 1⟩ (.times 2)]
    let blocked := furnished.run [.setHook ⟨4, 1⟩ .always]
    Reachable {} counting ∧ counting.contains ⟨3, 1⟩ ∧ counting.Counts ⟨3, 1⟩ 3 ∧
      ((counting.attempts ⟨3, 1⟩ 3).apply (.remove ⟨3, 1⟩)).result = .ok .removed ∧
      Reachable {} blocked ∧ blocked.contains ⟨3, 1⟩ ∧ ∀ n, blocked.PutOff ⟨3, 1⟩ n := by
  intro counting blocked
  have hcounting : Reachable {} counting := reachable_furnished.run _
  have hblocked : Reachable {} blocked := reachable_furnished.run _
  let quota : Key → Nat := fun k => ((counting.records.hooks[k]?).bind Voter.remaining).getD 0
  have hbounded : ∀ entry ∈ counting.records.hooks.toList, entry.2.remaining ≠ none := by decide
  have hquota : ∀ k hook, counting.forest.Within ⟨3, 1⟩ k →
      counting.records.hooks[k]? = some hook → Hook.DefersTimes hook k (quota k) := by
    intro k hook _ hhook
    have hentry := Std.ExtTreeMap.mem_toList_iff_getElem?_eq_some.2 hhook
    obtain ⟨n, hn⟩ := Option.ne_none_iff_exists'.1 (hbounded _ hentry)
    have hk : quota k = n := by simp only [quota, hhook, Option.bind_some, hn, Option.getD_some]
    exact hk ▸ Voter.defersTimes_of_remaining hn k
  have hin : (⟨4, 1⟩ : Key) ∈ blocked.forest.preorder ⟨3, 1⟩ := by decide
  have hblocker : ∃ k hook, blocked.forest.Within ⟨3, 1⟩ k ∧
      blocked.records.hooks[k]? = some hook ∧ Hook.DefersAlways hook k :=
    ⟨⟨4, 1⟩, .always, (hblocked.arranged.wellFormed.mem_preorder_iff.1 hin).2, by decide,
      Voter.defersAlways_of_remaining rfl _⟩
  exact ⟨hcounting, by decide, (Reachable.countdown hcounting (by decide)).1 quota hquota,
    by decide, hblocked, by decide, (Reachable.countdown hblocked (by decide)).2 hblocker⟩

end Hierarchy

end WindowForest
