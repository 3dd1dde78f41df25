import ProbCore.Strategy.Frontier

/-! A frontier as the collection of its branches. Whatever the traversal, adding the branches
of a choice adds exactly these, and taking the next branch takes exactly that one. The order
of a heap plays no part here: its sifts only swap entries. -/

namespace ProbCore

variable {κ R : Type}

namespace Heap

theorem swap_perm (h : Array (Entry κ R)) (i j : Nat) : (h.swapIfInBounds i j).Perm h := by
  rw [Array.swapIfInBounds_def]
  split
  · split
    · exact Array.swap_perm _ _
    · exact .refl h
  · exact .refl h

variable [Score R]

theorem rise_perm (h : Array (Entry κ R)) (i : Nat) : (rise h i).Perm h := by
  fun_induction rise h i with
  | case1 h => exact .refl h
  | case2 h i _ _ _ _ _ _ _ ih => exact ih.trans (swap_perm h _ _)
  | case3 h => exact .refl h
  | case4 h => exact .refl h

theorem settle_perm (h : Array (Entry κ R)) (fuel i : Nat) : (settle h fuel i).Perm h := by
  induction fuel generalizing h i with
  | zero => exact rise_perm h i
  | succ fuel ih =>
    rw [settle]
    split
    · exact (ih _ _).trans (swap_perm h _ _)
    · exact rise_perm h i

theorem push_perm (h : Array (Entry κ R)) (x : Entry κ R) :
    (push h x).toList.Perm (x :: h.toList) := by
  have settled := Array.perm_iff_toList_perm.mp (rise_perm (h.push x) h.size)
  rw [Array.toList_push] at settled
  exact settled.trans (List.perm_append_singleton x h.toList)

/-- The first entry comes out, and the last takes its place before it settles. -/
theorem pop?_cases {h rest : Array (Entry κ R)} {first : Entry κ R} (popped : pop? h = some (first, rest)) :
    h[0]? = some first ∧ (h.pop.size = 0 ∧ rest = h.pop ∨
      ∃ last, h.back? = some last ∧ h.pop.size ≠ 0 ∧ rest = settle (h.pop.setIfInBounds 0 last) h.pop.size 0) := by
  unfold pop? at popped
  split at popped
  next head last atHead atLast =>
    dsimp only at popped
    split at popped
    next empty =>
      cases popped
      exact ⟨atHead, .inl ⟨Array.isEmpty_iff_size_eq_zero.mp empty, rfl⟩⟩
    next more =>
      cases popped
      exact ⟨atHead, .inr ⟨last, atLast, mt Array.isEmpty_iff_size_eq_zero.mpr more, rfl⟩⟩
  next => cases popped

theorem pop?_perm {h rest : Array (Entry κ R)} {first : Entry κ R}
    (popped : pop? h = some (first, rest)) : h.toList.Perm (first :: rest.toList) := by
  obtain ⟨atHead, left⟩ := pop?_cases popped
  have present : h ≠ #[] := by
    rintro rfl
    cases atHead
  obtain ⟨init, last, rfl⟩ := Array.exists_push_of_ne_empty present
  rw [Array.pop_push, Array.back?_push] at left
  obtain ⟨items⟩ := init
  cases items with
  | nil =>
    obtain rfl : last = first := by simpa using atHead
    rcases left with ⟨_, rfl⟩ | ⟨_, _, nonempty, _⟩
    · exact .refl _
    · exact absurd rfl nonempty
  | cons head items =>
    obtain rfl : head = first := by simpa using atHead
    rcases left with ⟨empty, _⟩ | ⟨_, same, _, rfl⟩
    · cases empty
    cases same
    have settled := Array.perm_iff_toList_perm.mp
      (settle_perm ((Array.mk (head :: items)).setIfInBounds 0 last) (items.length + 1) 0)
    rw [Array.toList_setIfInBounds, List.set_cons_zero] at settled
    rw [Array.toList_push]
    exact .cons head ((List.perm_append_singleton last items).trans settled.symm)

theorem pop?_isSome {h : Array (Entry κ R)} (nonempty : h.size ≠ 0) : (pop? h).isSome := by
  have present : h ≠ #[] := fun empty => nonempty (by rw [empty]; rfl)
  obtain ⟨init, last, rfl⟩ := Array.exists_push_of_ne_empty present
  have inside : 0 < (init.push last).size := by simp
  rw [pop?, Array.getElem?_eq_getElem inside, Array.back?_push]
  dsimp only
  split <;> rfl

end Heap

namespace Frontier

/-- The branches still to explore. -/
def contents : Frontier κ R → List (Branch κ R)
  | stack branches | queue branches => branches
  | heap entries _ => entries.toList.map (·.branch)

theorem contents_empty (t : Traversal) : (empty t : Frontier κ R).contents = [] := by
  cases t <;> rfl

theorem size_eq (f : Frontier κ R) : f.size = f.contents.length := by
  cases f with
  | stack | queue => rfl
  | heap entries ticket => simp [size, contents]

variable [Score R]

theorem contents_pushRanked (f : Frontier κ R) (b : Branch κ R) :
    (pushRanked f b).contents.Perm (b :: f.contents) := by
  cases f with
  | stack bs => exact .refl _
  | queue bs => exact List.perm_append_singleton b bs
  | heap entries ticket => exact (Heap.push_perm entries _).map (·.branch)

theorem pushAll_nil (f : Frontier κ R) : f.pushAll [] = f := by
  cases f with
  | stack bs => rfl
  | queue bs => exact congrArg queue (List.append_nil bs)
  | heap entries ticket => rfl

/-- Adding the branches of a choice adds these and no others. -/
theorem contents_pushAll (f : Frontier κ R) (branches : List (Branch κ R)) :
    (f.pushAll branches).contents.Perm (branches ++ f.contents) := by
  have ranked (g : Frontier κ R) :
      (branches.foldl pushRanked g).contents.Perm (branches ++ g.contents) := by
    induction branches generalizing g with
    | nil => exact .refl _
    | cons b rest ih =>
      exact (ih _).trans (((contents_pushRanked g b).append_left rest).trans List.perm_middle)
  cases f with
  | stack bs => exact .refl _
  | queue bs => exact List.perm_append_comm
  | heap entries ticket => exact ranked _

/-- Taking the next branch takes one branch and leaves the others. -/
theorem contents_pop? {f rest : Frontier κ R} {b : Branch κ R} (popped : f.pop? = some (b, rest)) :
    f.contents.Perm (b :: rest.contents) := by
  cases f with
  | stack bs | queue bs =>
    cases bs with
    | nil => cases popped
    | cons => cases popped; exact .refl _
  | heap entries ticket =>
    obtain ⟨⟨first, others⟩, taken, same⟩ := Option.map_eq_some_iff.mp popped
    cases same
    exact (Heap.pop?_perm taken).map (·.branch)

theorem pop?_isSome {f : Frontier κ R} (nonempty : f.size ≠ 0) : f.pop?.isSome := by
  cases f with
  | stack bs | queue bs =>
    cases bs with
    | nil => exact absurd rfl nonempty
    | cons => rfl
  | heap entries ticket =>
    rw [pop?, Option.isSome_map]
    exact Heap.pop?_isSome nonempty

theorem pop?_eq_none {f : Frontier κ R} : f.pop? = none ↔ f.size = 0 := by
  constructor
  · intro none_left
    by_cases empty : f.size = 0
    · exact empty
    · have some_left := pop?_isSome empty
      rw [none_left] at some_left
      cases some_left
  · intro empty
    cases popped : f.pop? with
    | none => rfl
    | some taken =>
      have contents := (contents_pop? popped).length_eq
      rw [← size_eq, empty] at contents
      cases contents

end Frontier

end ProbCore
