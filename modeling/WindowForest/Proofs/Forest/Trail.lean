import Mathlib.Data.List.Nodup
import WindowForest.Forest.Walk

/-!
# Trails

A walk over a forest follows a step function for at most as many steps as the
forest has nodes. A trail says without any bound which keys a step function
visits on its way from one place to another. A trail that comes to an end never
visits a key twice, because the steps behind a key depend on nothing but the key.
So a walk is cut short by its bound only if its trail has no end
(`Trail.follow_eq`), and every walk of the library is understood by giving its
trail.
-/

set_option autoImplicit false

namespace WindowForest

/-- Following `step` from `start` visits exactly the listed keys, in this order, and then arrives
at `stop`. -/
def Trail (step : Key → Option Key) (start : Option Key) : List Key → Option Key → Prop
  | [], stop => start = stop
  | k :: keys, stop => start = some k ∧ Trail step (step k) keys stop

namespace Trail

variable {step : Key → Option Key}

/-- A trail that visits nothing arrives where it starts. -/
@[simp] theorem nil_iff {start stop : Option Key} : Trail step start [] stop ↔ start = stop :=
  Iff.rfl

/-- A trail starts at the first key that it visits and goes on with the step from there. -/
@[simp] theorem cons_iff {start stop : Option Key} {k : Key} {keys : List Key} :
    Trail step start (k :: keys) stop ↔ start = some k ∧ Trail step (step k) keys stop :=
  Iff.rfl

/-- A trail over two lists in a row is a trail over the first that arrives where one over the
second starts. -/
theorem append_iff {start stop : Option Key} {l m : List Key} :
    Trail step start (l ++ m) stop ↔
      ∃ middle, Trail step start l middle ∧ Trail step middle m stop := by
  induction l generalizing start with
  | nil => simp
  | cons k l ih =>
    simp only [List.cons_append, cons_iff, ih]
    constructor
    · rintro ⟨hk, middle, hl, hm⟩
      exact ⟨middle, ⟨hk, hl⟩, hm⟩
    · rintro ⟨middle, ⟨hk, hl⟩, hm⟩
      exact ⟨hk, middle, hl, hm⟩

/-- Trails are joined end to end. -/
theorem append {start middle stop : Option Key} {l m : List Key}
    (hl : Trail step start l middle) (hm : Trail step middle m stop) :
    Trail step start (l ++ m) stop := by
  rw [append_iff]
  exact ⟨middle, hl, hm⟩

/-- A trail depends on the step function only at the keys that it visits. -/
theorem congr {other : Key → Option Key} {start stop : Option Key} {l : List Key}
    (hl : Trail step start l stop) (h : ∀ k ∈ l, other k = step k) :
    Trail other start l stop := by
  induction l generalizing start with
  | nil => exact hl
  | cons k l ih =>
    refine ⟨hl.1, ?_⟩
    rw [h k (by simp)]
    exact ih hl.2 fun j hj => h j (by simp [hj])

/-- There is only one trail from a place to the end. -/
theorem eq_of_end {start : Option Key} {l m : List Key}
    (hl : Trail step start l none) (hm : Trail step start m none) : l = m := by
  induction l generalizing start m with
  | nil =>
    cases m with
    | nil => rfl
    | cons k m =>
      have hk := hm.1
      rw [nil_iff.1 hl] at hk
      cases hk
  | cons k l ih =>
    cases m with
    | nil =>
      have hk := hl.1
      rw [nil_iff.1 hm] at hk
      cases hk
    | cons j m =>
      obtain rfl : k = j := Option.mem_unique hl.1 hm.1
      rw [ih hl.2 hm.2]

/-- A trail that comes to an end visits no key twice: from the second visit on it would have to go
the whole way from the first one again. -/
theorem nodup {start : Option Key} {l : List Key} (hl : Trail step start l none) : l.Nodup := by
  induction l generalizing start with
  | nil => exact List.nodup_nil
  | cons k l ih =>
    refine List.nodup_cons.2 ⟨?_, ih hl.2⟩
    intro hk
    obtain ⟨a, b, rfl⟩ := List.append_of_mem hk
    obtain ⟨middle, -, hb⟩ := append_iff.1 hl.2
    have hloop : a ++ k :: b = b := eq_of_end hl.2 hb.2
    have hlength := congrArg List.length hloop
    simp only [List.length_append, List.length_cons] at hlength
    omega

/-- A bound that the length of a trail keeps within does not show in the walk. -/
theorem follow_eq {start : Option Key} {l : List Key} {n : Nat}
    (hl : Trail step start l none) (hn : l.length ≤ n) : follow step n start = l := by
  induction l generalizing start n with
  | nil =>
    rw [nil_iff.1 hl]
    exact follow_none step n
  | cons k l ih =>
    cases n with
    | zero => simp at hn
    | succ n =>
      rw [hl.1, follow_succ, ih hl.2 (by simpa using hn)]

/-- What holds at the start and is kept by every step holds of everything that a trail visits. -/
theorem forall_mem {property : Key → Prop} {start stop : Option Key} {l : List Key}
    (hl : Trail step start l stop) (hstart : ∀ k, start = some k → property k)
    (hstep : ∀ k next, step k = some next → property next) : ∀ k ∈ l, property k := by
  induction l generalizing start with
  | nil => simp
  | cons j l ih =>
    intro k hk
    rcases List.mem_cons.1 hk with rfl | hk
    · exact hstart k hl.1
    · exact ih hl.2 (hstep j) k hk

/-- From everything that a trail visits, except for what it visits last, there is a step. -/
theorem isSome_of_mem_dropLast {start stop : Option Key} {l : List Key}
    (hl : Trail step start l stop) {k : Key} (hk : k ∈ l.dropLast) : (step k).isSome := by
  induction l generalizing start with
  | nil => simp at hk
  | cons j l ih =>
    cases l with
    | nil => simp at hk
    | cons i l =>
      rw [List.dropLast_cons_cons, List.mem_cons] at hk
      rcases hk with rfl | hk
      · rw [hl.2.1]
        rfl
      · exact ih hl.2 hk

/-- The step from what a trail visits last leads to where it arrives. -/
theorem step_getLast? {start stop : Option Key} {l : List Key} (hl : Trail step start l stop)
    {k : Key} (hk : l.getLast? = some k) : step k = stop := by
  obtain ⟨front, rfl⟩ := List.getLast?_eq_some_iff.1 hk
  obtain ⟨middle, -, hlast⟩ := append_iff.1 hl
  exact hlast.2

end Trail

end WindowForest
