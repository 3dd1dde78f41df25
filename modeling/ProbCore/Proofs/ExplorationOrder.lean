import ProbCore.Proofs.ExhaustiveMarginal

/-! The order in which an exhaustive search records the executions of a finite tree. A stack takes
them as the recursion over the tree lists them. A queue takes them level by level: first those with
fewer choices, and those with equally many in the order of the recursion. With a bound, any search
records the first of those that it records without. -/

namespace ProbCore

section

variable {α : Type} {xs ys : List (Nat × α)}

/-- In the order of the numbers, and as before where these are the same. -/
def byNumber (xs : List (Nat × α)) : List (Nat × α) := xs.mergeSort fun p q => p.1 ≤ q.1

theorem number_trans (a b c : Nat × α) (left : decide (a.1 ≤ b.1) = true) (right : decide (b.1 ≤ c.1) = true) :
    decide (a.1 ≤ c.1) = true := by
  rw [decide_eq_true_eq] at left right ⊢
  exact left.trans right

theorem number_total (a b : Nat × α) : (decide (a.1 ≤ b.1) || decide (b.1 ≤ a.1)) = true := by
  rw [Bool.or_eq_true, decide_eq_true_eq, decide_eq_true_eq]
  exact le_total a.1 b.1

theorem byNumber_sorted : (byNumber xs).Pairwise (·.1 ≤ ·.1) :=
  (List.pairwise_mergeSort number_trans number_total xs).imp of_decide_eq_true

/-- The sort is stable. -/
theorem byNumber_filter (n : Nat) : (byNumber xs).filter (·.1 == n) = xs.filter (·.1 == n) := by
  have equal : (xs.filter (·.1 == n)).Pairwise fun p q => decide (p.1 ≤ q.1) = true := by
    refine List.pairwise_of_forall_mem_list fun p left q right => ?_
    have left := (List.mem_filter.mp left).2
    have right := (List.mem_filter.mp right).2
    rw [beq_iff_eq] at left right
    rw [decide_eq_true_eq]
    omega
  have sub := List.sublist_mergeSort number_trans number_total equal List.filter_sublist
  have inside := sub.filter (·.1 == n)
  simp only [List.filter_filter, Bool.and_self] at inside
  refine (inside.eq_of_length ?_).symm
  exact ((List.mergeSort_perm xs _).filter _).length_eq.symm

theorem first_le {x y : Nat × α} (sorted : (y :: ys).Pairwise (·.1 ≤ ·.1)) (member : x ∈ y :: ys) : y.1 ≤ x.1 := by
  rcases List.mem_cons.mp member with rfl | later
  · exact le_rfl
  · exact (List.pairwise_cons.mp sorted).1 x later

theorem mem_iff_of_filters (same : ∀ n, xs.filter (·.1 == n) = ys.filter (·.1 == n)) (x : Nat × α) :
    x ∈ xs ↔ x ∈ ys := by
  have alike : x ∈ xs.filter (·.1 == x.1) ↔ x ∈ ys.filter (·.1 == x.1) := by rw [same x.1]
  simpa using alike

/-- Two lists in order are the same if they have the same elements, in the same order, under every
number. -/
theorem eq_of_sorted (sorted : xs.Pairwise (·.1 ≤ ·.1)) (sorted' : ys.Pairwise (·.1 ≤ ·.1))
    (same : ∀ n, xs.filter (·.1 == n) = ys.filter (·.1 == n)) : xs = ys := by
  have members := mem_iff_of_filters same
  induction xs generalizing ys with
  | nil => exact (List.eq_nil_iff_forall_not_mem.mpr fun y member => nomatch (members y).mpr member).symm
  | cons x xs ih =>
    cases ys with
    | nil => exact nomatch (members x).mp List.mem_cons_self
    | cons y ys =>
      -- Each head stands in the other list, and so is not below its head.
      have number : x.1 = y.1 :=
        le_antisymm (first_le sorted ((members y).mpr List.mem_cons_self))
          (first_le sorted' ((members x).mp List.mem_cons_self))
      have heads := same x.1
      rw [List.filter_cons_of_pos (by simp), List.filter_cons_of_pos (by simp [number])] at heads
      obtain ⟨rfl, _⟩ := List.cons.inj heads
      have rest (n : Nat) : xs.filter (·.1 == n) = ys.filter (·.1 == n) := by
        have both := same n
        by_cases here : x.1 = n
        · rw [List.filter_cons_of_pos (by simp [here]), List.filter_cons_of_pos (by simp [here])] at both
          exact (List.cons.inj both).2
        · rwa [List.filter_cons_of_neg (by simp [here]), List.filter_cons_of_neg (by simp [here])] at both
      rw [ih (List.pairwise_cons.mp sorted).2 (List.pairwise_cons.mp sorted').2 rest (mem_iff_of_filters rest)]

theorem eq_byNumber (sorted : ys.Pairwise (·.1 ≤ ·.1))
    (same : ∀ n, ys.filter (·.1 == n) = xs.filter (·.1 == n)) : ys = byNumber xs :=
  eq_of_sorted sorted byNumber_sorted fun n => (same n).trans (byNumber_filter n).symm

section

variable {n : Nat} {first : List α} {later : List (Nat × α)}

theorem number_of_mem {e : Nat × α} (member : e ∈ first.map (n, ·)) : e.1 = n := by
  obtain ⟨_, _, rfl⟩ := List.mem_map.mp member
  rfl

theorem le_of_mem_found (above : ∀ e ∈ later, n ≤ e.1) : ∀ e ∈ first.map (n, ·) ++ later, n ≤ e.1 := by
  intro e member
  rcases List.mem_append.mp member with here | there
  · exact (number_of_mem here).ge
  · exact above e there

/-- What comes with the smallest number comes first. -/
theorem found_sorted (sorted : later.Pairwise (·.1 ≤ ·.1)) (above : ∀ e ∈ later, n ≤ e.1) :
    (first.map (n, ·) ++ later).Pairwise (·.1 ≤ ·.1) := by
  refine List.pairwise_append.mpr ⟨?_, sorted, fun e member e' member' => ?_⟩
  · refine List.pairwise_of_forall_mem_list fun e member e' member' => ?_
    rw [number_of_mem member, number_of_mem member']
  · rw [number_of_mem member]
    exact above e' member'

end

end

namespace Enumeration

variable {σ κ D R : Type} [Host (EStateM Failure σ) D R] [LawfulHost σ D R] [Score R]
  {P : PlainProgram κ D R} {inside : κ → Prop} {resume : Resume (EStateM Failure σ) κ D R}
  {steps fuel : Nat} {st : Search κ R} {pending : List (Branch κ R × ExecutionTree R)}

theorem Advance.recorded_reverse {score : R} {tree : ExecutionTree R} {st' : Search κ R}
    {found : List (Value × R)} (advance : Advance σ P inside score tree st st' found pending) :
    st'.found.reverse = st.found.reverse ++ found := by
  rw [advance.recorded, List.reverse_append]
  match found, advance.sole with
  | [], _ => rfl
  | [_], _ => rfl

/-- A stack pays for its branches in order. -/
theorem explore_stack (performs : Performs resume P inside) {t : Traversal}
    (left : st.frontier = .stack (pending.map (·.1)))
    (awaits : ∀ p ∈ pending, Awaits σ P inside p.1 p.2 ∧ p.2.height ≤ steps)
    (enough : toResume pending < fuel) :
    ∃ st', Returns (explore resume ⟨t, none⟩ steps fuel st) st' ∧
      st'.found.reverse = st.found.reverse ++ owed pending := by
  induction fuel generalizing st pending with
  | zero => exact absurd enough (Nat.not_lt_zero _)
  | succ fuel ih =>
    cases pending with
    | nil =>
      refine ⟨st, explore_exhausted ?_, (List.append_nil _).symm⟩
      rw [left]
      rfl
    | cons p rest =>
      obtain ⟨b, tree⟩ := p
      have popped : st.frontier.pop? = some (b, .stack (rest.map (·.1))) := by
        rw [left]
        rfl
      obtain ⟨here, others⟩ := List.forall_mem_cons.mp awaits
      obtain ⟨middle, found, forked, advance, explored⟩ := explore_next performs popped here
      have stacked : middle.frontier = .stack ((forked ++ rest).map (·.1)) := by
        rw [advance.left, List.map_append]
        rfl
      have less : toResume (forked ++ rest) < fuel := by
        rw [toResume_cons, ← advance.resumptions] at enough
        rw [toResume_append]
        omega
      obtain ⟨last, ended, recorded⟩ := ih stacked (advance.awaits_all here.2 others) less
      refine ⟨last, explored last ended, ?_⟩
      rw [recorded, advance.recorded_reverse, owed_append, owed_cons, ← advance.executions]
      simp only [List.append_assoc]

/-- The branches of a queue: those in front, and behind them those that have made one choice more. -/
structure Queued (σ : Type) [Host (EStateM Failure σ) D R] [LawfulHost σ D R] (P : PlainProgram κ D R)
    (inside : κ → Prop) (steps : Nat) (st : Search κ R)
    (front back : List (Branch κ R × ExecutionTree R)) : Prop where
  left : st.frontier = .queue ((front ++ back).map (·.1))
  awaits : ∀ p ∈ front ++ back, Awaits σ P inside p.1 p.2 ∧ p.2.height ≤ steps

/-- What a queue owes when the branches in front have made `n` choices, in the order of the recursion:
those behind come of earlier ones. -/
def queueOwed (n : Nat) (front back : List (Branch κ R × ExecutionTree R)) : List (Nat × Value × R) :=
  pathsOwed (n + 1) back ++ pathsOwed n front

theorem le_of_mem_pathsOwed {n : Nat} {e : Nat × Value × R} (member : e ∈ pathsOwed n pending) : n ≤ e.1 := by
  obtain ⟨p, _, here⟩ := List.mem_flatMap.mp member
  exact ExecutionTree.le_of_mem_paths here

theorem pathsOwed_cons (n : Nat) (p : Branch κ R × ExecutionTree R) :
    pathsOwed n (p :: pending) = p.2.paths n p.1.score ++ pathsOwed n pending := List.flatMap_cons

theorem pathsOwed_append (n : Nat) (some others : List (Branch κ R × ExecutionTree R)) :
    pathsOwed n (some ++ others) = pathsOwed n some ++ pathsOwed n others := List.flatMap_append

/-- A queue with branches left has one of the fewest choices in front. -/
theorem Queued.next (n : Nat) {front back : List (Branch κ R × ExecutionTree R)}
    (queued : Queued σ P inside steps st front back) (some_left : front ++ back ≠ []) :
    ∃ m p rest others, n ≤ m ∧ Queued σ P inside steps st (p :: rest) others ∧
      queueOwed m (p :: rest) others = queueOwed n front back ∧ p :: rest ++ others = front ++ back := by
  cases front with
  | cons p rest => exact ⟨n, p, rest, back, le_rfl, queued, rfl, rfl⟩
  | nil =>
    cases back with
    | nil => exact absurd rfl some_left
    | cons p rest =>
      refine ⟨n + 1, p, rest, [], n.le_succ, ⟨?_, ?_⟩, ?_, List.append_nil _⟩
      · rw [List.append_nil]
        exact queued.left
      · rw [List.append_nil]
        exact queued.awaits
      · exact (List.append_nil _).symm

/-- What is found at the number of choices of the branches in front comes before what those behind
owe. -/
theorem filter_queueOwed {m : Nat} {found : List (Value × R)} (forked : List (Branch κ R × ExecutionTree R))
    {rest others : List (Branch κ R × ExecutionTree R)} (k : Nat) :
    (found.map (m, ·) ++ queueOwed m rest (others ++ forked)).filter (·.1 == k) =
      (pathsOwed (m + 1) others ++ (found.map (m, ·) ++ pathsOwed (m + 1) forked) ++
        pathsOwed m rest).filter (·.1 == k) := by
  have swap : (found.map (m, ·)).filter (·.1 == k) ++ (pathsOwed (m + 1) others).filter (·.1 == k) =
      (pathsOwed (m + 1) others).filter (·.1 == k) ++ (found.map (m, ·)).filter (·.1 == k) := by
    by_cases here : m = k
    · have none_behind : (pathsOwed (m + 1) others).filter (·.1 == k) = [] := by
        refine List.filter_eq_nil_iff.mpr fun e member same => ?_
        have above := le_of_mem_pathsOwed member
        have same := beq_iff_eq.mp same
        omega
      rw [none_behind, List.append_nil, List.nil_append]
    · have none_found : (found.map (m, ·)).filter (·.1 == k) = [] := by
        simp [List.filter_map, Function.comp_def, here]
      rw [none_found, List.append_nil, List.nil_append]
  simp only [queueOwed, pathsOwed_append, List.filter_append, List.append_assoc]
  rw [← List.append_assoc, swap, List.append_assoc]

/-- A queue pays for its branches in the order of the choices made, and otherwise in the order of the
recursion. -/
theorem explore_queue (performs : Performs resume P inside) {t : Traversal} (n : Nat)
    {front back : List (Branch κ R × ExecutionTree R)}
    (queued : Queued σ P inside steps st front back) (enough : toResume (front ++ back) < fuel) :
    ∃ (st' : Search κ R) (found : List (Nat × Value × R)),
      Returns (explore resume ⟨t, none⟩ steps fuel st) st' ∧
      st'.found.reverse = st.found.reverse ++ found.map (·.2) ∧ found.Pairwise (·.1 ≤ ·.1) ∧
      (∀ e ∈ found, n ≤ e.1) ∧
      ∀ k, found.filter (·.1 == k) = (queueOwed n front back).filter (·.1 == k) := by
  induction fuel generalizing st n front back with
  | zero => exact absurd enough (Nat.not_lt_zero _)
  | succ fuel ih =>
    by_cases none_left : front ++ back = []
    · obtain ⟨rfl, rfl⟩ := List.append_eq_nil_iff.mp none_left
      refine ⟨st, [], explore_exhausted ?_, (List.append_nil _).symm, .nil, nofun, fun k => rfl⟩
      rw [queued.left]
      rfl
    obtain ⟨m, ⟨b, tree⟩, rest, others, further, turned, same_owed, same_left⟩ := queued.next n none_left
    rw [← same_left] at enough
    have popped : st.frontier.pop? = some (b, .queue ((rest ++ others).map (·.1))) := by
      rw [turned.left]
      rfl
    obtain ⟨here, awaits⟩ := List.forall_mem_cons.mp turned.awaits
    obtain ⟨middle, first, forked, advance, explored⟩ := explore_next performs popped here
    -- What the branch forks into has made one choice more than it, as those behind have.
    have requeued : Queued σ P inside steps middle rest (others ++ forked) := by
      refine ⟨?_, fun p member => ?_⟩
      · rw [advance.left, ← List.append_assoc]
        exact congrArg Frontier.queue List.map_append.symm
      · rw [← List.append_assoc, List.mem_append, Or.comm, ← List.mem_append] at member
        exact advance.awaits_all here.2 awaits p member
    have less : toResume (rest ++ (others ++ forked)) < fuel := by
      rw [List.cons_append, toResume_cons, ← advance.resumptions, toResume_append] at enough
      rw [toResume_append, toResume_append]
      omega
    obtain ⟨last, found, ended, recorded, sorted, later, filters⟩ := ih m requeued less
    refine ⟨last, first.map (m, ·) ++ found, explored last ended, ?_, found_sorted sorted later,
      fun e member => further.trans (le_of_mem_found later e member), fun k => ?_⟩
    · rw [recorded, advance.recorded_reverse]
      simp
    · rw [← same_owed, List.filter_append, filters, ← List.filter_append, filter_queueOwed, advance.paths]
      simp only [queueOwed, pathsOwed_cons, List.append_assoc]

/-- The executions that a search records until it stops, in order. -/
def recorded (resume : Resume (EStateM Failure σ) κ D R) (fuel : Nat) (c : Config) (entry : κ) (s : Store) :
    EStateM Failure σ (List (Value × R)) := do
  return (← search resume fuel c entry s).found.reverse

section

variable {s : Store} {step : Step κ D R} {tree : ExecutionTree R}

theorem recorded_depthFirst (performs : Performs resume P inside) (begins : P.next P.entry s .absent = .ok step)
    (unfolds : Unfolds (LawfulHost.densities σ) P Score.zero step tree) (high : tree.height ≤ fuel)
    (enough : tree.resumptions Score.zero < fuel) :
    Returns (recorded resume fuel ⟨.depthFirst, none⟩ P.entry s) (tree.executions Score.zero) := by
  obtain ⟨middle, first, pending, advance, explored⟩ := search_next performs .depthFirst begins unfolds high
  have stacked : middle.frontier = .stack (pending.map (·.1)) :=
    advance.left.trans (congrArg Frontier.stack (List.append_nil _))
  have awaits := advance.awaits_all high (List.forall_mem_nil _)
  rw [List.append_nil] at awaits
  obtain ⟨last, ended, found⟩ := explore_stack performs stacked awaits (by rwa [advance.resumptions])
  have all : last.found.reverse = tree.executions Score.zero := by
    rw [found, advance.recorded_reverse, ← advance.executions]
    rfl
  exact (explored last ended).bind (all ▸ Returns.pure last.found.reverse)

theorem recorded_breadthFirst (performs : Performs resume P inside)
    (begins : P.next P.entry s .absent = .ok step)
    (unfolds : Unfolds (LawfulHost.densities σ) P Score.zero step tree) (high : tree.height ≤ fuel)
    (enough : tree.resumptions Score.zero < fuel) :
    Returns (recorded resume fuel ⟨.breadthFirst, none⟩ P.entry s)
      ((byNumber (tree.paths 0 Score.zero)).map (·.2)) := by
  obtain ⟨middle, first, pending, advance, explored⟩ := search_next performs .breadthFirst begins unfolds high
  have awaits := advance.awaits_all high (List.forall_mem_nil _)
  have queued : Queued σ P inside fuel middle pending [] := by
    refine ⟨advance.left.trans ?_, awaits⟩
    rw [List.append_nil]
    rfl
  obtain ⟨last, found, ended, recorded, sorted, later, filters⟩ :=
    explore_queue performs 1 queued (by rwa [List.append_nil, advance.resumptions])
  have numbered : first.map (0, ·) ++ found = byNumber (tree.paths 0 Score.zero) := by
    refine eq_byNumber (found_sorted sorted fun e _ => Nat.zero_le e.1) fun k => ?_
    rw [List.filter_append, filters, ← List.filter_append, ← advance.paths 0]
    rfl
  have all : last.found.reverse = (byNumber (tree.paths 0 Score.zero)).map (·.2) := by
    rw [recorded, advance.recorded_reverse, ← numbered]
    simp
  exact (explored last ended).bind (all ▸ Returns.pure last.found.reverse)

end

end Enumeration

open Enumeration

/-- A search of a program with a finite tree of executions records them, if depth comes first, in the
order of the recursion that tries the values of each choice in turn, and if breadth comes first, in this
order sorted by the number of choices made. In any order, with a bound it records the first of those
that it records without. If a search with a bound stops, of any program, it has gone as far as a search
without one after some number of rounds, and all that this finds in more rounds comes later. -/
theorem exploration_ordered {σ κ D R : Type} [Host (EStateM Failure σ) D R] [LawfulHost σ D R] [Score R]
    (resume : Resume (EStateM Failure σ) κ D R) (entry : κ) (s : Store) :
    (∀ tree, HasTree resume entry s tree →
      let paths := tree.paths 0 Score.zero
      paths.map (·.2) = tree.executions Score.zero ∧
      ∃ n, ∀ fuel ≥ n,
        Returns (recorded resume fuel ⟨.depthFirst, none⟩ entry s) (tree.executions Score.zero) ∧
        Returns (recorded resume fuel ⟨.breadthFirst, none⟩ entry s) ((byNumber paths).map (·.2)) ∧
        ∀ t, ∃ all, Returns (recorded resume fuel ⟨t, none⟩ entry s) all ∧
          ∀ m ≥ 1, ∀ w, LawfulHost.ready w →
            ∃ w', recorded resume fuel ⟨t, some m⟩ entry s w = .ok (all.take m) w') ∧
    (∀ t m fuel w st w', 1 ≤ m → search resume fuel ⟨t, some m⟩ entry s w = .ok st w' →
      ∃ n, survey resume fuel t n entry s w = .ok st w' ∧
        ∀ steps ≥ fuel, ∀ k ≥ n, ∀ last w'', survey resume steps t k entry s w = .ok last w'' →
          last.found.reverse.take m = st.found.reverse) := by
  refine ⟨fun tree has => ⟨tree.paths_executions 0 Score.zero, ?_⟩, ?_⟩
  · obtain ⟨P, inside, step, performs, rfl, begins, unfolds⟩ := has
    refine ⟨max tree.height (tree.resumptions Score.zero + 1), fun fuel enough => ?_⟩
    have high : tree.height ≤ fuel := by omega
    have enough : tree.resumptions Score.zero < fuel := by omega
    refine ⟨recorded_depthFirst performs begins unfolds high enough,
      recorded_breadthFirst performs begins unfolds high enough, fun t => ?_⟩
    obtain ⟨st, searched, _⟩ := search_returns performs t begins unfolds high enough
    refine ⟨st.found.reverse, searched.bind (Returns.pure _), fun m some_wanted w ready => ?_⟩
    obtain ⟨_, returned, _⟩ := searched w ready
    obtain ⟨last, w', bounded, first⟩ := search_take some_wanted returned
    exact ⟨w', bind_eq_ok.mpr ⟨last, w', bounded, pure_eq_ok.mpr ⟨first.symm, rfl⟩⟩⟩
  · exact fun t m fuel w st w' some_wanted searched => search_bounded some_wanted searched

section

/-- Two tosses, the second only after tails. -/
def secondChance : PlainProgram Nat Unit Exact where
  entry := 0
  next
    | 0, s, _ => .ok (.sample s 1 .root ())
    | 1, s, .bool false => .ok (.sample s 2 .root ())
    | _, s, v => .ok (.exit s (.tuple [v]))

noncomputable def faces : List (Value × Exact) :=
  [(.bool false, .real (Real.log 2⁻¹)), (.bool true, .real (Real.log 2⁻¹))]

noncomputable def secondChanceTree : ExecutionTree Exact :=
  .choice faces fun
    | .bool false => .choice faces fun v => .leaf (.tuple [v])
    | v => .leaf (.tuple [v])

theorem forall_mem_faces {holds : Value × Exact → Prop} (tails : holds (.bool false, .real (Real.log 2⁻¹)))
    (heads : holds (.bool true, .real (Real.log 2⁻¹))) : ∀ b ∈ faces, holds b :=
  List.forall_mem_cons.mpr ⟨tails, List.forall_mem_singleton.mpr heads⟩

theorem secondChance_unfolds :
    Unfolds fairCoin secondChance Score.zero (.sample .empty 1 .root ()) secondChanceTree := by
  have again (score : Exact) : Unfolds fairCoin secondChance score (.sample .empty 2 .root ())
      (.choice faces fun v => .leaf (.tuple [v])) := by
    let next (v : Value) : Step Nat Unit Exact := .exit .empty (.tuple [v])
    refine @Unfolds.choice _ _ _ _ _ _ _ _ _ _ _ _ next _ rfl ?_ (fun _ _ _ => rfl) fun _ _ _ => .exit
    exact forall_mem_faces rfl rfl
  let next : Value → Step Nat Unit Exact
    | .bool false => .sample .empty 2 .root ()
    | v => .exit .empty (.tuple [v])
  refine @Unfolds.choice _ _ _ _ _ _ _ _ _ _ _ _ next _ rfl ?_ ?_ ?_
  · exact forall_mem_faces rfl rfl
  · exact forall_mem_faces (fun _ => rfl) fun _ => rfl
  · exact forall_mem_faces (fun _ => again _) fun _ => .exit

noncomputable abbrev secondChanceRuns : Resume (EStateM Failure (Script fairCoin)) Nat Unit Exact :=
  secondChance.resume

theorem secondChance_hasTree : HasTree secondChanceRuns 0 .empty secondChanceTree :=
  ⟨secondChance, _, _, secondChance.resume_performs, rfl, rfl, secondChance_unfolds⟩

/-- The scores of an execution with one toss, and of one with two. -/
noncomputable def onceTossed : Exact := .real (0 + Real.log 2⁻¹)

noncomputable def twiceTossed : Exact := .real (0 + Real.log 2⁻¹ + Real.log 2⁻¹)

theorem secondChance_paths :
    secondChanceTree.paths 0 Score.zero =
      [(2, .tuple [.bool false], twiceTossed), (2, .tuple [.bool true], twiceTossed),
        (1, .tuple [.bool true], onceTossed)] := by
  rw [Exact.zero_eq]
  rfl

/-- Tosses until tails. -/
def untilTails : PlainProgram Unit Unit Exact where
  entry := ()
  next
    | _, s, .bool false => .ok (.exit s (.bool false))
    | _, s, _ => .ok (.sample s () .root ())

noncomputable abbrev untilTailsRuns : Resume (EStateM Failure (Script fairCoin)) Unit Unit Exact :=
  untilTails.resume

/-- The execution of one toss is the last of three with depth first, and the first with breadth first. A
search of endless tosses stops when it is bounded. -/
theorem tosses_explored :
    (∃ n, ∀ fuel ≥ n,
      Returns (recorded secondChanceRuns fuel ⟨.depthFirst, none⟩ 0 .empty)
        [(.tuple [.bool false], twiceTossed), (.tuple [.bool true], twiceTossed),
          (.tuple [.bool true], onceTossed)] ∧
      Returns (recorded secondChanceRuns fuel ⟨.breadthFirst, none⟩ 0 .empty)
        [(.tuple [.bool true], onceTossed), (.tuple [.bool false], twiceTossed),
          (.tuple [.bool true], twiceTossed)] ∧
      ∃ w w', recorded secondChanceRuns fuel ⟨.breadthFirst, some 2⟩ 0 .empty w =
        .ok [(.tuple [.bool true], onceTossed), (.tuple [.bool false], twiceTossed)] w') ∧
    ∃ w st w' n, search untilTailsRuns 9 ⟨.depthFirst, some 2⟩ () .empty w = .ok st w' ∧
      st.found.map (·.1) = [.bool false, .bool false] ∧
      survey untilTailsRuns 9 .depthFirst n () .empty w = .ok st w' ∧
      ∀ steps ≥ 9, ∀ k ≥ n, ∀ last w'', survey untilTailsRuns steps .depthFirst k () .empty w = .ok last w'' →
        last.found.reverse.take 2 = st.found.reverse := by
  constructor
  · obtain ⟨_, n, ordered⟩ := (exploration_ordered secondChanceRuns 0 .empty).1 _ secondChance_hasTree
    refine ⟨n, fun fuel enough => ?_⟩
    obtain ⟨depth, breadth, bounded⟩ := ordered fuel enough
    have sorted : (byNumber (secondChanceTree.paths 0 Score.zero)).map (·.2) =
        [(.tuple [.bool true], onceTossed), (.tuple [.bool false], twiceTossed),
          (.tuple [.bool true], twiceTossed)] := by
      rw [secondChance_paths]
      simp [byNumber, List.mergeSort, List.MergeSort.Internal.splitInTwo]
    rw [← secondChanceTree.paths_executions 0, secondChance_paths] at depth
    rw [sorted] at breadth
    refine ⟨depth, breadth, ?_⟩
    obtain ⟨all, unbounded, firsts⟩ := bounded .breadthFirst
    obtain rfl := breadth.unique unbounded.canReturn
    obtain ⟨w', returned⟩ := firsts 2 (by decide) ⟨[]⟩ trivial
    exact ⟨⟨[]⟩, w', returned⟩
  · have stops : ∃ st w', search untilTailsRuns 9 ⟨.depthFirst, some 2⟩ () .empty ⟨[]⟩ = .ok st w' ∧
        st.found.map (·.1) = [.bool false, .bool false] := ⟨_, _, rfl, rfl⟩
    obtain ⟨st, w', searched, found⟩ := stops
    obtain ⟨n, surveyed, later⟩ := (exploration_ordered untilTailsRuns () .empty).2 .depthFirst 2 9 _ st w'
      (by decide) searched
    exact ⟨⟨[]⟩, st, w', n, searched, found, surveyed, later⟩

end

end ProbCore
