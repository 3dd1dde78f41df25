import ProbCore.Proofs.BoundedSearch
import ProbCore.Proofs.ExecutionTree

/-! An exhaustive search records the executions of the program's tree, each once. Every branch
of the frontier stands for a part of the tree that is still owed; exploring a branch pays for
it with executions found and with branches of its own. -/

namespace ProbCore.Enumeration

variable {σ κ D R : Type} [Host (EStateM Failure σ) D R] [LawfulHost σ D R] [Score R]

/-- The branches that a choice puts into the frontier. -/
def forks (k : κ) (s : Store) (score : R) (branches : List (Value × R)) : List (Branch κ R) :=
  (branches.filter possible).map fun b => ⟨k, s, b.1, score + b.2⟩

theorem fork_returns (d : D) (k : κ) (s : Store) (score : R) {branches : List (Value × R)}
    (weighed : ∀ b ∈ branches, (LawfulHost.densities σ).logDensity d b.1 = .ok b.2) :
    Returns (fork d k s score (branches.map (·.1)) : EStateM Failure σ _)
      (forks k s score branches) := by
  induction branches with
  | nil => exact Returns.pure []
  | cons b rest ih =>
    have tail := ih fun other member => weighed other (List.mem_cons_of_mem _ member)
    have head : Returns (Host.logDensity d b.1 : EStateM Failure σ R) b.2 := by
      rw [LawfulHost.logDensity_eq]
      exact Returns.lift (weighed b List.mem_cons_self)
    refine head.bind (tail.bind ?_)
    cases kept : Score.isImpossible b.2 with
    | true => simpa [forks, possible, kept] using Returns.pure (forks k s score rest)
    | false =>
      simpa [forks, possible, kept] using
        Returns.pure ((⟨k, s, b.1, score + b.2⟩ : Branch κ R) :: forks k s score rest)

variable {P : PlainProgram κ D R} {inside : κ → Prop}

/-- A branch whose continuation is this tree. -/
def Awaits (σ : Type) [Host (EStateM Failure σ) D R] [LawfulHost σ D R] (P : PlainProgram κ D R)
    (inside : κ → Prop) (b : Branch κ R) (tree : ExecutionTree R) : Prop :=
  inside b.k ∧ ∃ step, P.next b.k b.store b.value = .ok step ∧
    Unfolds (LawfulHost.densities σ) P b.score step tree

/-- The executions that pending branches stand for. -/
def owed (pending : List (Branch κ R × ExecutionTree R)) : List (Value × R) :=
  pending.flatMap fun p => p.2.executions p.1.score

/-- The same executions with their numbers of choices, of which each branch has made `n`. -/
def pathsOwed (n : Nat) (pending : List (Branch κ R × ExecutionTree R)) : List (Nat × Value × R) :=
  pending.flatMap fun p => p.2.paths n p.1.score

theorem pathsOwed_owed (n : Nat) (pending : List (Branch κ R × ExecutionTree R)) :
    (pathsOwed n pending).map (·.2) = owed pending := by
  rw [pathsOwed, owed, List.map_flatMap]
  exact List.flatMap_congr fun p _ => p.2.paths_executions n p.1.score

/-- How many branches will be resumed for pending branches, themselves included. -/
def toResume (pending : List (Branch κ R × ExecutionTree R)) : Nat :=
  (pending.map fun p => p.2.resumptions p.1.score + 1).sum

theorem owed_perm {some others : List (Branch κ R × ExecutionTree R)} (same : some.Perm others) :
    (owed some).Perm (owed others) :=
  same.flatMap_right _

theorem toResume_perm {some others : List (Branch κ R × ExecutionTree R)}
    (same : some.Perm others) : toResume some = toResume others :=
  (same.map _).sum_nat

theorem owed_cons (p : Branch κ R × ExecutionTree R)
    (pending : List (Branch κ R × ExecutionTree R)) :
    owed (p :: pending) = p.2.executions p.1.score ++ owed pending := List.flatMap_cons

theorem owed_append (some others : List (Branch κ R × ExecutionTree R)) :
    owed (some ++ others) = owed some ++ owed others := List.flatMap_append

theorem toResume_cons (p : Branch κ R × ExecutionTree R)
    (pending : List (Branch κ R × ExecutionTree R)) :
    toResume (p :: pending) = p.2.resumptions p.1.score + 1 + toResume pending := by
  simp [toResume]

theorem toResume_append (some others : List (Branch κ R × ExecutionTree R)) :
    toResume (some ++ others) = toResume some + toResume others := by
  simp [toResume, List.sum_append]

/-- The trees behind the branches of a choice. -/
def forkTrees (k : κ) (s : Store) (score : R) (branches : List (Value × R))
    (rest : Value → ExecutionTree R) : List (Branch κ R × ExecutionTree R) :=
  (branches.filter possible).map fun b => (⟨k, s, b.1, score + b.2⟩, rest b.1)

theorem forkTrees_fst (k : κ) (s : Store) (score : R) (branches : List (Value × R))
    (rest : Value → ExecutionTree R) :
    (forkTrees k s score branches rest).map (·.1) = forks k s score branches := by
  simp [forkTrees, forks, Function.comp_def]

theorem pathsOwed_forkTrees (n : Nat) (k : κ) (s : Store) (score : R) (branches : List (Value × R))
    (rest : Value → ExecutionTree R) :
    pathsOwed (n + 1) (forkTrees k s score branches rest) =
      (ExecutionTree.choice branches rest).paths n score := by
  simp [pathsOwed, forkTrees, ExecutionTree.paths, List.flatMap_map]

theorem toResume_forkTrees (k : κ) (s : Store) (score : R) (branches : List (Value × R))
    (rest : Value → ExecutionTree R) :
    toResume (forkTrees k s score branches rest) =
      (ExecutionTree.choice branches rest).resumptions score := by
  simp [toResume, forkTrees, ExecutionTree.resumptions, Function.comp_def]

/-- What one execution adds to a search: an execution found at most, and branches pending, which
together are the tree that it walked into. The branches are one choice further on. -/
structure Advance (σ : Type) [Host (EStateM Failure σ) D R] [LawfulHost σ D R]
    (P : PlainProgram κ D R) (inside : κ → Prop) (score : R) (tree : ExecutionTree R)
    (st st' : Search κ R) (found : List (Value × R))
    (pending : List (Branch κ R × ExecutionTree R)) : Prop extends Finds st st' found where
  sole : found.length ≤ 1
  left : st'.frontier = st.frontier.pushAll (pending.map (·.1))
  awaits : ∀ p ∈ pending, Awaits σ P inside p.1 p.2 ∧ p.2.height ≤ tree.height
  paths : ∀ n, found.map (n, ·) ++ pathsOwed (n + 1) pending = tree.paths n score
  resumptions : toResume pending = tree.resumptions score

namespace Advance

variable {score : R} {tree : ExecutionTree R} {st st' : Search κ R} {found : List (Value × R)}
  {pending : List (Branch κ R × ExecutionTree R)}

theorem contents (advance : Advance σ P inside score tree st st' found pending) :
    st'.frontier.contents.Perm (pending.map (·.1) ++ st.frontier.contents) := by
  rw [advance.left]
  exact Frontier.contents_pushAll _ _

theorem executions (advance : Advance σ P inside score tree st st' found pending) :
    found ++ owed pending = tree.executions score := by
  rw [← tree.paths_executions 0 score, ← advance.paths 0, List.map_append, pathsOwed_owed, List.map_map]
  simp

theorem awaits_all {steps : Nat} {rest : List (Branch κ R × ExecutionTree R)}
    (advance : Advance σ P inside score tree st st' found pending) (low : tree.height ≤ steps)
    (awaits : ∀ p ∈ rest, Awaits σ P inside p.1 p.2 ∧ p.2.height ≤ steps) :
    ∀ p ∈ pending ++ rest, Awaits σ P inside p.1 p.2 ∧ p.2.height ≤ steps := by
  intro p member
  rcases List.mem_append.mp member with new | old
  · obtain ⟨awaits, lower⟩ := advance.awaits p new
    exact ⟨awaits, Nat.le_trans lower low⟩
  · exact awaits p old

end Advance

omit [Score R] in
theorem height_of_mem {branches : List (Value × R)} {rest : Value → ExecutionTree R}
    {b : Value × R} (member : b ∈ branches) :
    (rest b.1).height < (ExecutionTree.choice branches rest).height := by
  induction branches with
  | nil => cases member
  | cons first others ih =>
    simp only [ExecutionTree.height, List.map_cons, List.foldr_cons] at ih ⊢
    cases member with
    | head => omega
    | tail _ member =>
      have := ih member
      omega

/-- One execution goes on to its next choice, and forks there, or to its end. -/
theorem drive_returns {resume : Resume (EStateM Failure σ) κ D R}
    (performs : Performs resume P inside) {score : R} {step : Step κ D R}
    {tree : ExecutionTree R} (unfolds : Unfolds (LawfulHost.densities σ) P score step tree)
    (steps : Nat) (st : Search κ R) (scored : st.score = score)
    (held : ∀ k, step.rest? = some k → inside k) (enough : tree.height ≤ steps) :
    ∃ st' found pending, Returns (drive resume handler steps st step) st' ∧
      Advance σ P inside score tree st st' found pending := by
  -- A factor goes on within the step, a choice ends it with branches, and so the induction is on the tree.
  induction unfolds generalizing steps st with
  | @exit score s value =>
    obtain ⟨steps, rfl⟩ := Nat.exists_eq_add_of_le' enough
    refine ⟨_, [(value, st.score)], [], Returns.pure _, ⟨?_, le_rfl, ?_, nofun, ?_, rfl⟩⟩
    · exact ⟨rfl, Nat.add_comm st.count 1⟩
    · exact (Frontier.pushAll_nil _).symm
    · intro n
      rw [scored]
      rfl
  | @factor score s k a x next rest resumes _ ih =>
    obtain ⟨steps, rfl⟩ := Nat.exists_eq_add_of_le' (Nat.le_trans (Nat.le_add_left 1 _) enough)
    cases pruned : Score.isHopeless (score + x) with
    | true =>
      refine ⟨{ st with score := score + x }, [], [], ?_, ?_⟩
      · apply Returns.drive_factor_finish
        have stops : (Score.isImpossible (score + x) || Score.isNaN (score + x)) = true := pruned
        simp only [handler, scored, if_pos stops]
        exact Returns.pure _
      · refine ⟨⟨rfl, (Nat.zero_add _).symm⟩, Nat.zero_le 1, (Frontier.pushAll_nil _).symm, nofun, ?_, ?_⟩
        · simp [ExecutionTree.paths, pruned, pathsOwed]
        · simp [ExecutionTree.resumptions, pruned, toResume]
    | false =>
      have known := resumes pruned
      obtain ⟨st', found, pending, returned, advance⟩ :=
        ih pruned steps { st with score := score + x } rfl
          (fun _ => performs.closed (held k rfl) known)
          (by simp only [ExecutionTree.height] at enough; omega)
      refine ⟨st', found, pending, ?_, ?_⟩
      · have goes : ¬ (Score.isImpossible (score + x) || Score.isNaN (score + x)) = true :=
          Bool.eq_false_iff.mp pruned
        have reacted : Returns ((handler : Handler (EStateM Failure σ) κ D R _ _).factor st s k a x)
            (.deliver { st with score := score + x } .absent) := by
          simp only [handler, scored, if_neg goes]
          exact Returns.pure _
        exact reacted.drive_factor (performs.returns (held k rfl) known) returned
      · refine ⟨⟨advance.recorded, advance.counted⟩, advance.sole, advance.left, ?_, ?_, ?_⟩
        · intro p member
          obtain ⟨awaits, lower⟩ := advance.awaits p member
          exact ⟨awaits, Nat.le_succ_of_le lower⟩
        · simpa [ExecutionTree.paths, pruned] using advance.paths
        · simpa [ExecutionTree.resumptions, pruned] using advance.resumptions
  | @choice score s k a d branches next rest listed weighed resumes unfolds _ =>
    obtain ⟨steps, rfl⟩ := Nat.exists_eq_add_of_le' (Nat.le_trans (Nat.le_add_left 1 _) enough)
    refine ⟨{ st with frontier := st.frontier.pushAll (forks k s score branches) }, [],
      forkTrees k s score branches rest, ?_, ⟨⟨rfl, (Nat.zero_add _).symm⟩, Nat.zero_le 1, ?_, ?_, ?_, ?_⟩⟩
    · apply Returns.drive_sample_finish
      simp only [handler, scored, LawfulHost.support_eq]
      exact (Returns.lift listed).bind ((fork_returns d k s score weighed).bind (Returns.pure _))
    · rw [forkTrees_fst]
    · intro p member
      obtain ⟨b, chosen, rfl⟩ := List.mem_map.mp member
      obtain ⟨present, mass⟩ := List.mem_filter.mp chosen
      refine ⟨⟨held k rfl, next b.1, resumes b present mass, unfolds b present mass⟩, ?_⟩
      exact (height_of_mem present).le
    · exact fun n => pathsOwed_forkTrees n k s score branches rest
    · exact toResume_forkTrees k s score branches rest

/-- A search without a bound takes the next branch of its frontier, and explores what comes of it. -/
theorem explore_next {resume : Resume (EStateM Failure σ) κ D R} (performs : Performs resume P inside)
    {t : Traversal} {steps fuel : Nat} {st : Search κ R} {b : Branch κ R} {tree : ExecutionTree R}
    {frontier : Frontier κ R} (popped : st.frontier.pop? = some (b, frontier))
    (awaits : Awaits σ P inside b tree ∧ tree.height ≤ steps) :
    ∃ middle found forked,
      Advance σ P inside b.score tree { st with frontier, score := b.score } middle found forked ∧
      ∀ last, Returns (explore resume ⟨t, none⟩ steps fuel middle) last →
        Returns (explore resume ⟨t, none⟩ steps (fuel + 1) st) last := by
  obtain ⟨⟨held, step, goes, unfolds⟩, low⟩ := awaits
  obtain ⟨middle, found, forked, returned, advance⟩ :=
    drive_returns performs unfolds steps { st with frontier, score := b.score } rfl
      (fun _ => performs.closed held goes) low
  refine ⟨middle, found, forked, advance, fun last ended => ?_⟩
  have going : ¬ st.exhausted ⟨t, none⟩ = true := by
    intro exhausted
    have empty : st.frontier.size = 0 := by simpa [Search.exhausted] using exhausted
    rw [Frontier.pop?_eq_none.mpr empty] at popped
    cases popped
  simp only [explore, if_neg going, popped]
  exact (performs.returns held goes).bind (returned.bind ended)

theorem explore_exhausted {resume : Resume (EStateM Failure σ) κ D R} {t : Traversal}
    {steps fuel : Nat} {st : Search κ R} (empty : st.frontier.size = 0) :
    Returns (explore resume ⟨t, none⟩ steps (fuel + 1) st) st := by
  have exhausted : st.exhausted ⟨t, none⟩ = true := by simp [Search.exhausted, empty]
  simp only [explore, if_pos exhausted]
  exact Returns.pure st

/-- A search begins with an execution from the entry, and explores what comes of it. -/
theorem search_next {resume : Resume (EStateM Failure σ) κ D R} (performs : Performs resume P inside)
    (t : Traversal) {s : Store} {step : Step κ D R} {tree : ExecutionTree R}
    (begins : P.next P.entry s .absent = .ok step)
    (unfolds : Unfolds (LawfulHost.densities σ) P Score.zero step tree) {fuel : Nat}
    (high : tree.height ≤ fuel) :
    ∃ middle found forked,
      Advance σ P inside Score.zero tree ⟨.empty t, Score.zero, [], 0⟩ middle found forked ∧
      ∀ last, Returns (explore resume ⟨t, none⟩ fuel fuel middle) last →
        Returns (search resume fuel ⟨t, none⟩ P.entry s) last := by
  obtain ⟨middle, found, forked, returned, advance⟩ :=
    drive_returns performs unfolds fuel ⟨.empty t, Score.zero, [], 0⟩ rfl
      (fun _ => performs.closed performs.entry begins) high
  refine ⟨middle, found, forked, advance, fun last ended => ?_⟩
  exact (performs.returns performs.entry begins).bind (returned.bind ended)

omit [Score R] in
/-- The pending branch that a search takes next, apart from the others. -/
private theorem pending_split {pending : List (Branch κ R × ExecutionTree R)}
    {b : Branch κ R} {others : List (Branch κ R)}
    (same : (pending.map (·.1)).Perm (b :: others)) :
    ∃ tree rest, pending.Perm ((b, tree) :: rest) ∧ (rest.map (·.1)).Perm others := by
  have present : b ∈ pending.map (·.1) := same.mem_iff.mpr List.mem_cons_self
  obtain ⟨p, member, rfl⟩ := List.mem_map.mp present
  obtain ⟨before, after, rfl⟩ := List.append_of_mem member
  have moved : (before ++ p :: after).Perm (p :: (before ++ after)) := List.perm_middle
  exact ⟨p.2, before ++ after, moved, ((moved.map (·.1)).symm.trans same).cons_inv⟩

omit [Score R] in
private theorem pending_nil {pending : List (Branch κ R × ExecutionTree R)}
    {frontier : Frontier κ R} (left : frontier.contents.Perm (pending.map (·.1)))
    (empty : frontier.size = 0) : pending = [] := by
  have same := left.length_eq
  rw [← Frontier.size_eq, empty, List.length_map] at same
  exact List.length_eq_zero_iff.mp same.symm

/-- Exploring pays for every pending branch and leaves no branch behind. -/
theorem explore_returns {resume : Resume (EStateM Failure σ) κ D R}
    (performs : Performs resume P inside) {t : Traversal} {steps fuel : Nat} {st : Search κ R}
    {pending : List (Branch κ R × ExecutionTree R)}
    (left : st.frontier.contents.Perm (pending.map (·.1)))
    (awaits : ∀ p ∈ pending, Awaits σ P inside p.1 p.2 ∧ p.2.height ≤ steps)
    (enough : toResume pending < fuel) :
    ∃ st' found, Returns (explore resume ⟨t, none⟩ steps fuel st) st' ∧ Finds st st' found ∧
      st'.frontier.size = 0 ∧ found.Perm (owed pending) := by
  induction fuel generalizing st pending with
  | zero => exact absurd enough (Nat.not_lt_zero _)
  | succ fuel ih =>
    by_cases empty : st.frontier.size = 0
    · obtain rfl := pending_nil left empty
      exact ⟨st, [], explore_exhausted empty, .nothing, empty, .refl _⟩
    obtain ⟨⟨b, frontier⟩, popped⟩ := Option.isSome_iff_exists.mp (Frontier.pop?_isSome empty)
    obtain ⟨tree, rest, split, rest_left⟩ :=
      pending_split (left.symm.trans (Frontier.contents_pop? popped))
    have here := awaits (b, tree) (split.mem_iff.mpr List.mem_cons_self)
    obtain ⟨middle, found, forked, advance, explored⟩ := explore_next performs popped here
    have left : middle.frontier.contents.Perm ((forked ++ rest).map (·.1)) := by
      rw [List.map_append]
      exact advance.contents.trans (rest_left.symm.append_left _)
    have awaits := advance.awaits_all here.2 fun p member =>
      awaits p (split.mem_iff.mpr (List.mem_cons_of_mem _ member))
    have enough : toResume (forked ++ rest) < fuel := by
      rw [toResume_perm split, toResume_cons, ← advance.resumptions] at enough
      rw [toResume_append]
      omega
    obtain ⟨last, others, ended, finds, exhausted, paid⟩ := ih left awaits enough
    have finds_all : Finds st last (others ++ found) :=
      Finds.trans ⟨advance.recorded, advance.counted⟩ finds
    refine ⟨last, others ++ found, explored last ended, finds_all, exhausted, ?_⟩
    have debt : (found ++ (owed forked ++ owed rest)).Perm (owed pending) := by
      rw [← List.append_assoc, advance.executions, ← owed_cons (b, tree) rest]
      exact owed_perm split.symm
    rw [owed_append] at paid
    exact ((paid.append_right found).trans List.perm_append_comm).trans debt

/-- However it explores, a search finds every execution of the tree once, and no other. -/
theorem search_returns {resume : Resume (EStateM Failure σ) κ D R}
    (performs : Performs resume P inside) (t : Traversal) {s : Store} {step : Step κ D R}
    {tree : ExecutionTree R} (begins : P.next P.entry s .absent = .ok step)
    (unfolds : Unfolds (LawfulHost.densities σ) P Score.zero step tree) {fuel : Nat}
    (high : tree.height ≤ fuel) (enough : tree.resumptions Score.zero < fuel) :
    ∃ st, Returns (search resume fuel ⟨t, none⟩ P.entry s) st ∧ st.count = st.found.length ∧
      st.frontier.size = 0 ∧ st.found.Perm (tree.executions Score.zero) := by
  obtain ⟨middle, first, pending, advance, explored⟩ := search_next performs t begins unfolds high
  have left : middle.frontier.contents.Perm (pending.map (·.1)) := by
    have left := advance.contents
    rwa [Frontier.contents_empty, List.append_nil] at left
  have awaits : ∀ p ∈ pending, Awaits σ P inside p.1 p.2 ∧ p.2.height ≤ fuel := by
    simpa using advance.awaits_all high (List.forall_mem_nil _)
  obtain ⟨last, others, ended, finds, exhausted, paid⟩ :=
    explore_returns performs left awaits (by rwa [advance.resumptions])
  have all := advance.toFinds.trans finds
  refine ⟨last, explored last ended, all.count_eq rfl, exhausted, ?_⟩
  rw [all.recorded, List.append_nil, ← advance.executions]
  exact (paid.append_right first).trans List.perm_append_comm

end ProbCore.Enumeration
