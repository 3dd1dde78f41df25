import ProbCore.Proofs.FrontierContents
import ProbCore.Proofs.ScoreOrder

/-! The order of a heap. Every entry of a heap comes after the one above it, so that the first comes
before all others. Both sifts restore this when it fails at one place only. -/

namespace ProbCore

namespace Heap

open OrderedScore (rank Rank)

variable {κ R : Type} [Score R] [OrderedScore R] {h : Array (Entry κ R)} {x y : Entry κ R} {i j : Nat}

/-- What entries are ordered by: their ranks, and their tickets where the ranks are equal. -/
def key (e : Entry κ R) : Rank R ×ₗ ℕ := toLex (rank e.rank, e.ticket)

theorem before_iff (left : Score.isNaN x.rank = false) (right : Score.isNaN y.rank = false) :
    before x y = true ↔ key x < key y := by
  rw [key, key, Prod.Lex.toLex_lt_toLex]
  by_cases same : Score.same x.rank y.rank = true
  · obtain ⟨_, _, level⟩ := OrderedScore.same_iff.mp same
    simp [before, same, level]
  · have apart : rank x.rank ≠ rank y.rank := fun level => same (OrderedScore.same_iff.mpr ⟨left, right, level⟩)
    simp [before, same, apart, OrderedScore.less_iff, left, right]

/-- The key at a place of a heap, above all keys where there is no entry. -/
def keyAt (h : Array (Entry κ R)) (i : Nat) : WithTop (Rank R ×ₗ ℕ) := h[i]?.elim ⊤ fun e => key e

theorem keyAt_some (found : h[i]? = some x) : keyAt h i = key x := by
  rw [keyAt, found]
  rfl

theorem keyAt_outside (outside : h.size ≤ i) : keyAt h i = ⊤ := by
  rw [keyAt, Array.getElem?_eq_none outside]
  rfl

theorem keyAt_swap (left : i < h.size) (right : j < h.size) (n : Nat) :
    keyAt (h.swapIfInBounds i j) n = keyAt h (Equiv.swap i j n) := by
  unfold keyAt
  rw [Array.swapIfInBounds_def, dif_pos left, dif_pos right, Array.getElem?_swap, Equiv.swap_apply_def]
  by_cases atRight : j = n
  · subst atRight
    by_cases atLeft : j = i <;> simp [atLeft, left]
  · by_cases atLeft : i = n
    · simp [atLeft, atRight, right]
    · simp [atLeft, atRight, Ne.symm atLeft, Ne.symm atRight]

/-- Every rank is a number. -/
def Numbers (h : Array (Entry κ R)) : Prop := ∀ e ∈ h.toList, Score.isNaN e.rank = false

omit [OrderedScore R] in
theorem Numbers.perm {h' : Array (Entry κ R)} (numbers : Numbers h) (same : h'.Perm h) : Numbers h' :=
  fun e member => numbers e ((Array.perm_iff_toList_perm.mp same).mem_iff.mp member)

omit [OrderedScore R] in
theorem Numbers.at (numbers : Numbers h) (found : h[i]? = some x) : Score.isNaN x.rank = false :=
  numbers x (Array.mem_def.mp (Array.mem_of_getElem? found))

theorem Numbers.before_iff (numbers : Numbers h) (first : h[i]? = some x) (second : h[j]? = some y) :
    before x y = true ↔ keyAt h i < keyAt h j := by
  rw [keyAt_some first, keyAt_some second, WithTop.coe_lt_coe]
  exact Heap.before_iff (numbers.at first) (numbers.at second)

/-- No entry comes before the one above it. -/
def Ordered (h : Array (Entry κ R)) : Prop := ∀ j, 0 < j → keyAt h ((j - 1) / 2) ≤ keyAt h j

theorem Ordered.first_le (ordered : Ordered h) (j : Nat) : keyAt h 0 ≤ keyAt h j := by
  induction j using Nat.strongRecOn with
  | _ j ih =>
    rcases Nat.eq_zero_or_pos j with rfl | below
    · exact le_rfl
    · exact (ih ((j - 1) / 2) (by omega)).trans (ordered j below)

/-- The entries are in order but for the one at `i`: those under it come after the one above it. -/
structure Hollow (h : Array (Entry κ R)) (i : Nat) : Prop where
  apart {j : Nat} : 0 < j → j ≠ i → (j - 1) / 2 ≠ i → keyAt h ((j - 1) / 2) ≤ keyAt h j
  across {j : Nat} : 0 < i → 0 < j → (j - 1) / 2 = i → keyAt h ((i - 1) / 2) ≤ keyAt h j

/-- The entry at `i` comes before those under it. -/
def Leads (h : Array (Entry κ R)) (i : Nat) : Prop := ∀ j, 0 < j → (j - 1) / 2 = i → keyAt h i ≤ keyAt h j

theorem leads_of_leaf (leaf : h.size ≤ 2 * i + 1) : Leads h i := by
  intro j _ under
  rw [keyAt_outside (i := j) (by omega)]
  exact le_top

namespace Hollow

/-- The entry at `i` is in order too. -/
theorem filled (hollow : Hollow h i) (leads : Leads h i) (follows : 0 < i → keyAt h ((i - 1) / 2) ≤ keyAt h i) :
    Ordered h := by
  intro j low
  by_cases here : j = i
  · subst here
    exact follows low
  by_cases under : (j - 1) / 2 = i
  · rw [under]
    exact leads j low under
  · exact hollow.apart low here under

/-- An entry that comes before the one above it changes places with it. -/
theorem raised (hollow : Hollow h i) (low : 0 < i) (inside : i < h.size)
    (first : keyAt h i < keyAt h ((i - 1) / 2)) :
    Hollow (h.swapIfInBounds i ((i - 1) / 2)) ((i - 1) / 2) ∧
      Leads (h.swapIfInBounds i ((i - 1) / 2)) ((i - 1) / 2) := by
  obtain ⟨p, parent⟩ : ∃ p, p = (i - 1) / 2 := ⟨_, rfl⟩
  have above : p < i := by omega
  rw [← parent] at first ⊢
  have swapped (n : Nat) := keyAt_swap inside (above.trans inside) n
  have here : keyAt (h.swapIfInBounds i p) i = keyAt h p := by rw [swapped, Equiv.swap_apply_left]
  have there : keyAt (h.swapIfInBounds i p) p = keyAt h i := by rw [swapped, Equiv.swap_apply_right]
  have elsewhere {n : Nat} (apart : n ≠ i) (apart' : n ≠ p) : keyAt (h.swapIfInBounds i p) n = keyAt h n := by
    rw [swapped, Equiv.swap_apply_of_ne_of_ne apart apart']
  -- The entries under the one above, but for the one that was raised.
  have beside {j : Nat} (low' : 0 < j) (other : j ≠ i) (under : (j - 1) / 2 = p) : keyAt h p ≤ keyAt h j := by
    have kept := hollow.apart low' other (by omega)
    rwa [under] at kept
  refine ⟨⟨fun {j} low' apart under => ?_, fun {j} low' low'' under => ?_⟩, fun j low' under => ?_⟩
  · by_cases raised : j = i
    · exact absurd (by rw [raised, parent]) under
    rw [elsewhere raised apart]
    by_cases below : (j - 1) / 2 = i
    · rw [below, here]
      have kept := hollow.across low low' below
      rwa [← parent] at kept
    · rw [elsewhere below under]
      exact hollow.apart low' raised below
  · have grand : keyAt h ((p - 1) / 2) ≤ keyAt h p := hollow.apart low' (by omega) (by omega)
    rw [elsewhere (n := (p - 1) / 2) (by omega) (by omega)]
    by_cases raised : j = i
    · rw [raised, here]
      exact grand
    · rw [elsewhere raised (by omega)]
      exact grand.trans (beside low'' raised under)
  · rw [there]
    by_cases raised : j = i
    · rw [raised, here]
      exact first.le
    · rw [elsewhere raised (by omega)]
      exact first.le.trans (beside low' raised under)

/-- The first of the entries under `i` changes places with the one at `i`. -/
theorem sunk {c : Nat} (hollow : Hollow h i) (inside : c < h.size) (low : 0 < c) (under : (c - 1) / 2 = i)
    (least : ∀ j, 0 < j → (j - 1) / 2 = i → keyAt h c ≤ keyAt h j) : Hollow (h.swapIfInBounds i c) c := by
  have swapped (n : Nat) := keyAt_swap (i := i) (by omega) inside n
  have here : keyAt (h.swapIfInBounds i c) i = keyAt h c := by rw [swapped, Equiv.swap_apply_left]
  have elsewhere {n : Nat} (apart : n ≠ i) (apart' : n ≠ c) : keyAt (h.swapIfInBounds i c) n = keyAt h n := by
    rw [swapped, Equiv.swap_apply_of_ne_of_ne apart apart']
  refine ⟨fun {j} low' apart below => ?_, fun {j} _ low' below => ?_⟩
  · by_cases hole : j = i
    · subst hole
      rw [here, elsewhere (n := (j - 1) / 2) (by omega) (by omega)]
      exact hollow.across low' low under
    rw [elsewhere hole apart]
    by_cases beside : (j - 1) / 2 = i
    · rw [beside, here]
      exact least j low' beside
    · rw [elsewhere beside below]
      exact hollow.apart low' hole beside
  · rw [under, here, elsewhere (n := j) (by omega) (by omega), ← below]
    exact hollow.apart low' (by omega) (by omega)

end Hollow

theorem rise_ordered (numbers : Numbers h) (hollow : Hollow h i) (leads : Leads h i) : Ordered (rise h i) := by
  fun_induction rise h i with
  | case1 h => exact hollow.filled leads fun low => absurd low (lt_irrefl 0)
  | case2 h i low parent x p atParent atHere first ih =>
    have inside : i < h.size := (Array.getElem?_eq_some_iff.mp atHere).1
    obtain ⟨hollow, leads⟩ := hollow.raised (Nat.pos_of_ne_zero low) inside
      ((numbers.before_iff atHere atParent).mp first)
    exact ih (numbers.perm (swap_perm h _ _)) hollow leads
  | case3 h i low parent x p atParent atHere later =>
    refine hollow.filled leads fun _ => not_lt.mp fun first => later ?_
    exact (numbers.before_iff atHere atParent).mpr first
  | case4 h i low parent nowhere =>
    refine hollow.filled leads fun _ => ?_
    have outside : h.size ≤ i := by
      by_contra inside
      have inside : i < h.size := by omega
      have inside' : parent < h.size := by omega
      exact nowhere _ _ (Array.getElem?_eq_getElem inside) (Array.getElem?_eq_getElem inside')
    rw [keyAt_outside outside]
    exact le_top

/-- The child that is taken is one of the children, and neither of them comes before it. -/
theorem firstChild_least (numbers : Numbers h) (inside : 2 * i + 1 < h.size) :
    firstChild h i < h.size ∧ 0 < firstChild h i ∧ (firstChild h i - 1) / 2 = i ∧
      ∀ j, 0 < j → (j - 1) / 2 = i → keyAt h (firstChild h i) ≤ keyAt h j := by
  have children {j : Nat} (low : 0 < j) (under : (j - 1) / 2 = i) : j = 2 * i + 1 ∨ j = 2 * i + 2 := by omega
  by_cases both : 2 * i + 2 < h.size
  · have atLeft := Array.getElem?_eq_getElem inside
    have atRight := Array.getElem?_eq_getElem both
    have order := numbers.before_iff atLeft atRight
    simp only [firstChild, atLeft, atRight]
    split
    next first =>
      refine ⟨inside, by omega, by omega, fun j low under => ?_⟩
      rcases children low under with rfl | rfl
      · exact le_rfl
      · exact (order.mp first).le
    next later =>
      refine ⟨both, by omega, by omega, fun j low under => ?_⟩
      rcases children low under with rfl | rfl
      · exact not_lt.mp fun first => later (order.mpr first)
      · exact le_rfl
  · have atLeft := Array.getElem?_eq_getElem inside
    have atRight : h[2 * i + 2]? = none := Array.getElem?_eq_none (by omega)
    simp only [firstChild, atLeft, atRight]
    refine ⟨inside, by omega, by omega, fun j low under => ?_⟩
    rcases children low under with rfl | rfl
    · exact le_rfl
    · rw [keyAt_outside (i := 2 * i + 2) (by omega)]
      exact le_top

theorem settle_ordered {fuel : Nat} (numbers : Numbers h) (hollow : Hollow h i) (enough : h.size ≤ i + fuel) :
    Ordered (settle h fuel i) := by
  induction fuel generalizing h i with
  | zero => exact rise_ordered numbers hollow (leads_of_leaf (by omega))
  | succ fuel ih =>
    rw [settle]
    split
    next inside =>
      obtain ⟨inside', low, under, least⟩ := firstChild_least numbers inside
      have same := swap_perm h i (firstChild h i)
      refine ih (numbers.perm same) (hollow.sunk inside' low under least) ?_
      rw [same.size_eq]
      omega
    next leaf => exact rise_ordered numbers hollow (leads_of_leaf (by omega))

theorem push_ordered (numbers : Numbers h) (number : Score.isNaN x.rank = false) (ordered : Ordered h) :
    Ordered (push h x) := by
  have old {j : Nat} (inside : j < h.size) : keyAt (h.push x) j = keyAt h j := by
    rw [keyAt, keyAt, Array.getElem?_push, if_neg inside.ne]
  refine rise_ordered ?_ ⟨fun {j} low apart under => ?_, fun {j} _ _ under => ?_⟩ (leads_of_leaf ?_)
  · intro e member
    rw [Array.toList_push, List.mem_append, List.mem_singleton] at member
    rcases member with member | rfl
    · exact numbers e member
    · exact number
  · by_cases inside : j < h.size
    · rw [old inside, old (by omega)]
      exact ordered j low
    · rw [keyAt_outside (i := j) (by rw [Array.size_push]; omega)]
      exact le_top
  · rw [keyAt_outside (i := j) (by rw [Array.size_push]; omega)]
    exact le_top
  · rw [Array.size_push]
    omega

/-- The entry that comes out comes before all that stay, which are in order again. -/
theorem pop?_ordered {rest : Array (Entry κ R)} (numbers : Numbers h) (ordered : Ordered h)
    (popped : pop? h = some (x, rest)) : Ordered rest ∧ ∀ e ∈ h.toList, key x ≤ key e := by
  obtain ⟨atFirst, left⟩ := pop?_cases popped
  refine ⟨?_, fun e member => ?_⟩
  · rcases left with ⟨empty, rfl⟩ | ⟨last, atLast, _, rfl⟩
    · intro j _
      rw [keyAt_outside (i := j) (by omega)]
      exact le_top
    have kept {n : Nat} (other : n ≠ 0) :
        keyAt (h.pop.setIfInBounds 0 last) n = if n < h.size - 1 then keyAt h n else ⊤ := by
      rw [keyAt, Array.getElem?_setIfInBounds_ne other.symm, Array.getElem?_pop]
      split <;> rfl
    refine settle_ordered ?_ ⟨fun {j} low _ under => ?_, fun {j} none_above => ?_⟩ ?_
    · intro e member
      rw [Array.toList_setIfInBounds] at member
      rcases List.mem_or_eq_of_mem_set member with member | rfl
      · rw [Array.toList_pop] at member
        exact numbers e (List.dropLast_subset _ member)
      · exact numbers e (Array.mem_def.mp (Array.mem_of_back? atLast))
    · rw [kept low.ne', kept under]
      by_cases inside : j < h.size - 1
      · rw [if_pos inside, if_pos (by omega)]
        exact ordered j low
      · rw [if_neg inside]
        exact le_top
    · exact absurd none_above (lt_irrefl 0)
    · rw [Array.size_setIfInBounds]
      omega
  · obtain ⟨j, found⟩ := Array.mem_iff_getElem?.mp (Array.mem_def.mpr member)
    have first := ordered.first_le j
    rwa [keyAt_some atFirst, keyAt_some found, WithTop.coe_le_coe] at first

/-- A heap holds these entries, listed in the order in which they were added. -/
structure Lists (h : Array (Entry κ R)) (ticket : Nat) (es : List (Entry κ R)) : Prop where
  ordered : Ordered h
  same : h.toList.Perm es
  rising : es.Pairwise (·.ticket < ·.ticket)
  earlier : ∀ e ∈ es, e.ticket < ticket
  ranked : ∀ e ∈ es, e.rank = -e.branch.score ∧ Score.isNaN e.branch.score = false

namespace Lists

variable {ticket : Nat} {es : List (Entry κ R)}

theorem numbers (lists : Lists h ticket es) : Numbers h := by
  intro e member
  obtain ⟨scored, number⟩ := lists.ranked e (lists.same.mem_iff.mp member)
  rw [scored, OrderedScore.isNaN_neg, number]

theorem push (lists : Lists h ticket es) {b : Branch κ R} (number : Score.isNaN b.score = false) :
    Lists (push h ⟨-b.score, ticket, b⟩) (ticket + 1) (es ++ [⟨-b.score, ticket, b⟩]) where
  ordered := push_ordered lists.numbers (by rw [OrderedScore.isNaN_neg, number]) lists.ordered
  same := (push_perm h _).trans ((lists.same.cons _).trans (List.perm_append_singleton _ es).symm)
  rising := by
    refine List.pairwise_append.mpr ⟨lists.rising, List.pairwise_singleton _ _, fun e member e' last => ?_⟩
    obtain rfl := List.mem_singleton.mp last
    exact lists.earlier e member
  earlier e member := by
    rcases List.mem_append.mp member with member | last
    · exact Nat.lt_succ_of_lt (lists.earlier e member)
    · obtain rfl := List.mem_singleton.mp last
      exact Nat.lt_succ_self ticket
  ranked e member := by
    rcases List.mem_append.mp member with member | last
    · exact lists.ranked e member
    · obtain rfl := List.mem_singleton.mp last
      exact ⟨rfl, number⟩

/-- The branch that comes out has a greater score than those that were added before it, and none of those
added after it has a greater score. -/
theorem pop {rest : Array (Entry κ R)} (lists : Lists h ticket es) (popped : pop? h = some (x, rest)) :
    ∃ before after, es = before ++ x :: after ∧ Lists rest ticket (before ++ after) ∧
      (∀ e ∈ before, Score.less e.branch.score x.branch.score = true) ∧
      ∀ e ∈ after, Score.atMost e.branch.score x.branch.score = true := by
  have taken := pop?_perm popped
  obtain ⟨ordered, least⟩ := pop?_ordered lists.numbers lists.ordered popped
  have present : x ∈ es := lists.same.mem_iff.mp (taken.mem_iff.mpr List.mem_cons_self)
  obtain ⟨before, after, rfl⟩ := List.append_of_mem present
  have kept : (before ++ after).Sublist (before ++ x :: after) :=
    (List.sublist_cons_self x after).append_left before
  obtain ⟨scored, number⟩ := lists.ranked x present
  -- The rank of a branch is the negation of its score.
  have compare {e : Entry κ R} (member : e ∈ before ++ x :: after) : Score.isNaN e.branch.score = false ∧
      (rank e.branch.score < rank x.branch.score ∨
        rank e.branch.score = rank x.branch.score ∧ x.ticket ≤ e.ticket) := by
    obtain ⟨scored', number'⟩ := lists.ranked e member
    have first := least e (lists.same.mem_iff.mpr member)
    rw [key, key, Prod.Lex.toLex_le_toLex, scored, scored', OrderedScore.rank_neg_lt number number',
      OrderedScore.rank_neg_eq number number'] at first
    exact ⟨number', first.imp_right (.imp_left Eq.symm)⟩
  refine ⟨before, after, rfl, ⟨ordered, ?_, lists.rising.sublist kept, ?_, ?_⟩, fun e member => ?_,
    fun e member => ?_⟩
  · exact ((taken.symm.trans lists.same).trans List.perm_middle).cons_inv
  · exact fun e member => lists.earlier e (kept.subset member)
  · exact fun e member => lists.ranked e (kept.subset member)
  · obtain ⟨number', lower | ⟨_, later⟩⟩ := compare (List.mem_append_left _ member)
    · exact OrderedScore.less_iff.mpr ⟨number', number, lower⟩
    · exact absurd ((List.pairwise_append.mp lists.rising).2.2 e member x List.mem_cons_self) (not_lt.mpr later)
  · obtain ⟨number', below⟩ := compare (List.mem_append_right _ (List.mem_cons_of_mem x member))
    exact OrderedScore.atMost_iff.mpr ⟨number', number, below.elim le_of_lt fun level => level.1.le⟩

end Lists

end Heap

namespace Frontier

variable {κ R : Type} [Score R] [OrderedScore R] {f rest : Frontier κ R} {bs added : List (Branch κ R)}
  {b : Branch κ R}

/-- From such a frontier the likeliest branch comes first. Its branches are listed in the order in which
they were added. -/
def Ranks (f : Frontier κ R) (bs : List (Branch κ R)) : Prop :=
  ∃ entries ticket es, f = .heap entries ticket ∧ Heap.Lists entries ticket es ∧ es.map (·.branch) = bs

theorem ranks_empty : Ranks (.empty .likelyFirst : Frontier κ R) [] := by
  refine ⟨#[], 0, [], rfl, ⟨fun j _ => ?_, .refl _, .nil, nofun, nofun⟩, rfl⟩
  exact le_of_le_of_eq le_top (Heap.keyAt_outside (Nat.zero_le j)).symm

namespace Ranks

theorem size (ranks : Ranks f bs) : f.size = bs.length := by
  obtain ⟨entries, ticket, es, rfl, lists, rfl⟩ := ranks
  rw [List.length_map, ← lists.same.length_eq, Array.length_toList]
  rfl

theorem pushAll (ranks : Ranks f bs) (numbers : ∀ b ∈ added, Score.isNaN b.score = false) :
    Ranks (f.pushAll added) (bs ++ added) := by
  obtain ⟨entries, ticket, es, rfl, lists, rfl⟩ := ranks
  change Ranks (added.foldl pushRanked (.heap entries ticket)) _
  induction added generalizing entries ticket es with
  | nil => exact ⟨entries, ticket, es, rfl, lists, (List.append_nil _).symm⟩
  | cons b added ih =>
    obtain ⟨number, numbers⟩ := List.forall_mem_cons.mp numbers
    have ranked := ih numbers _ _ _ (lists.push number)
    rwa [List.map_append, List.append_assoc] at ranked

/-- The branch that comes first is the one that was added first among those with the greatest score. -/
theorem pop (ranks : Ranks f bs) (popped : f.pop? = some (b, rest)) :
    ∃ before after, bs = before ++ b :: after ∧ Ranks rest (before ++ after) ∧
      (∀ c ∈ before, Score.less c.score b.score = true) ∧ ∀ c ∈ after, Score.atMost c.score b.score = true := by
  obtain ⟨entries, ticket, es, rfl, lists, rfl⟩ := ranks
  obtain ⟨⟨first, left⟩, taken, same⟩ := Option.map_eq_some_iff.mp popped
  cases same
  obtain ⟨before, after, rfl, lists, greater, atLeast⟩ := lists.pop taken
  refine ⟨before.map (·.branch), after.map (·.branch), List.map_append, ?_, ?_, ?_⟩
  · exact ⟨left, ticket, before ++ after, rfl, lists, List.map_append⟩
  · exact List.forall_mem_map.mpr greater
  · exact List.forall_mem_map.mpr atLeast

end Ranks

end Frontier

end ProbCore
