import ProbCore.Proofs.FrontierContents
import ProbCore.Proofs.LawfulHost
import ProbCore.Strategy.Enumeration

/-! A search that stops after some number of executions. It goes through the same rounds as a search
without a bound and stops as soon as it has found enough, so that it finds the same executions first,
in the same order. The search without a bound may go on forever: what it has found after some number
of rounds is compared. -/

namespace ProbCore

variable {σ κ D R : Type} [Host (EStateM Failure σ) D R] [LawfulHost σ D R]
  {resume : Resume (EStateM Failure σ) κ D R}

/-- An execution that comes to its end with some fuel comes to the same end with more. -/
theorem drive_more {τ ο : Type} {h : Handler (EStateM Failure σ) κ D R τ ο} {fuel more : Nat} {state : τ}
    {step : Step κ D R} {outcome : ο} {w w' : σ} (enough : fuel ≤ more)
    (driven : drive resume h fuel state step w = .ok outcome w') :
    drive resume h more state step w = .ok outcome w' := by
  induction fuel generalizing more state step w with
  | zero => exact absurd driven fail_ne_ok
  | succ fuel ih =>
    obtain ⟨more, rfl⟩ := Nat.exists_eq_add_of_le' (Nat.le_trans (Nat.le_add_left 1 fuel) enough)
    cases step with
    | exit s value => exact driven
    | stray value => exact driven
    | sample s k a d | factor s k a x =>
      obtain ⟨reaction, middle, reacted, rest⟩ := bind_eq_ok.mp driven
      refine bind_eq_ok.mpr ⟨reaction, middle, reacted, ?_⟩
      cases reaction with
      | finish outcome => exact rest
      | deliver state value =>
        obtain ⟨next, later, resumed, driven⟩ := bind_eq_ok.mp rest
        exact bind_eq_ok.mpr ⟨next, later, resumed, ih (Nat.le_of_succ_le_succ enough) driven⟩

namespace Enumeration

variable [Score R] {t : Traversal} {steps fuel n m : Nat} {st st' next : Search κ R} {step : Step κ D R}
  {w w' later : σ}

/-- Follows `n` branches of the frontier, one after the other, or as many as there are. -/
def pursue (resume : Resume (EStateM Failure σ) κ D R) (steps : Nat) :
    Nat → Search κ R → EStateM Failure σ (Search κ R)
  | 0, st => pure st
  | n + 1, st =>
    match st.frontier.pop? with
    | none => pure st
    | some (b, frontier) => do
      let step ← resume b.k b.store b.value
      pursue resume steps n (← drive resume handler steps { st with frontier, score := b.score } step)

/-- A search without a bound, as it is after `n` rounds. -/
def survey (resume : Resume (EStateM Failure σ) κ D R) (steps : Nat) (t : Traversal) (n : Nat) (entry : κ)
    (s : Store) : EStateM Failure σ (Search κ R) := do
  let step ← resume entry s .absent
  pursue resume steps n (← drive resume handler steps ⟨.empty t, Score.zero, [], 0⟩ step)

/-- What a search has found since. -/
structure Finds (st st' : Search κ R) (found : List (Value × R)) : Prop where
  recorded : st'.found = found ++ st.found
  counted : st'.count = found.length + st.count

omit [Score R] in
theorem Finds.nothing : Finds st st [] := ⟨rfl, (Nat.zero_add _).symm⟩

omit [Score R] in
theorem Finds.trans {last : Search κ R} {found more : List (Value × R)} (first : Finds st st' found)
    (rest : Finds st' last more) : Finds st last (more ++ found) := by
  refine ⟨?_, ?_⟩
  · rw [rest.recorded, first.recorded, List.append_assoc]
  · rw [rest.counted, first.counted, List.length_append, Nat.add_assoc]

omit [Score R] in
theorem Finds.count_eq {found : List (Value × R)} (finds : Finds st st' found)
    (counted : st.count = st.found.length) : st'.count = st'.found.length := by
  rw [finds.counted, finds.recorded, counted, List.length_append]

/-- An execution is found at its end, or not at all. -/
theorem drive_finds (driven : drive resume handler steps st step w = .ok st' w') :
    ∃ found, Finds st st' found ∧ found.length ≤ 1 := by
  induction steps generalizing st step w with
  | zero => exact absurd driven fail_ne_ok
  | succ steps ih =>
    cases step with
    | exit s value =>
      obtain ⟨rfl, _⟩ := pure_eq_ok.mp driven
      exact ⟨[(value, st.score)], ⟨rfl, Nat.add_comm _ _⟩, Nat.le_refl 1⟩
    | stray value => exact absurd driven fail_ne_ok
    | sample s k a d =>
      obtain ⟨reaction, middle, reacted, rest⟩ := bind_eq_ok.mp driven
      obtain ⟨_, _, _, reacted⟩ := bind_eq_ok.mp reacted
      obtain ⟨branches, _, _, reacted⟩ := bind_eq_ok.mp reacted
      obtain ⟨rfl, _⟩ := pure_eq_ok.mp reacted
      obtain ⟨rfl, _⟩ := pure_eq_ok.mp rest
      exact ⟨[], ⟨rfl, (Nat.zero_add _).symm⟩, Nat.zero_le 1⟩
    | factor s k a x =>
      obtain ⟨reaction, middle, reacted, rest⟩ := bind_eq_ok.mp driven
      simp only [handler] at reacted
      split at reacted
      next =>
        obtain ⟨rfl, _⟩ := pure_eq_ok.mp reacted
        obtain ⟨rfl, _⟩ := pure_eq_ok.mp rest
        exact ⟨[], ⟨rfl, (Nat.zero_add _).symm⟩, Nat.zero_le 1⟩
      next =>
        obtain ⟨rfl, _⟩ := pure_eq_ok.mp reacted
        obtain ⟨_, _, _, driven⟩ := bind_eq_ok.mp rest
        obtain ⟨found, finds, sole⟩ := ih driven
        exact ⟨found, ⟨finds.recorded, finds.counted⟩, sole⟩

/-- One branch of the frontier is followed to its next choice or to its end. -/
def Round (resume : Resume (EStateM Failure σ) κ D R) (steps : Nat) (st : Search κ R) (w : σ)
    (next : Search κ R) (later : σ) : Prop :=
  ∃ b frontier step middle, st.frontier.pop? = some (b, frontier) ∧
    resume b.k b.store b.value w = .ok step middle ∧
    drive resume handler steps { st with frontier, score := b.score } step middle = .ok next later

namespace Round

omit [LawfulHost σ D R] in
theorem unique {next' : Search κ R} {later' : σ} (round : Round resume steps st w next later)
    (again : Round resume steps st w next' later') : next' = next ∧ later' = later := by
  obtain ⟨b, frontier, step, middle, popped, resumed, driven⟩ := round
  obtain ⟨_, _, _, _, popped', resumed', driven'⟩ := again
  rw [popped] at popped'
  cases popped'
  rw [resumed] at resumed'
  cases resumed'
  rw [driven] at driven'
  cases driven'
  exact ⟨rfl, rfl⟩

theorem more {more : Nat} (enough : steps ≤ more) (round : Round resume steps st w next later) :
    Round resume more st w next later := by
  obtain ⟨b, frontier, step, middle, popped, resumed, driven⟩ := round
  exact ⟨b, frontier, step, middle, popped, resumed, drive_more enough driven⟩

theorem finds (round : Round resume steps st w next later) : ∃ found, Finds st next found ∧ found.length ≤ 1 := by
  obtain ⟨_, _, _, _, _, _, driven⟩ := round
  obtain ⟨found, finds, sole⟩ := drive_finds driven
  exact ⟨found, ⟨finds.recorded, finds.counted⟩, sole⟩

omit [LawfulHost σ D R] in
theorem some_left (round : Round resume steps st w next later) : st.frontier.size ≠ 0 := by
  obtain ⟨_, _, _, _, popped, _⟩ := round
  intro empty
  rw [Frontier.pop?_eq_none.mpr empty] at popped
  cases popped

end Round

omit [LawfulHost σ D R] in
theorem pursue_eq_ok : pursue resume steps (n + 1) st w = .ok st' w' ↔
    (st.frontier.size = 0 ∧ st' = st ∧ w' = w) ∨
    ∃ next later, Round resume steps st w next later ∧ pursue resume steps n next later = .ok st' w' := by
  constructor
  · intro pursued
    cases popped : st.frontier.pop? with
    | none =>
      simp only [pursue, popped] at pursued
      exact .inl ⟨Frontier.pop?_eq_none.mp popped, pure_eq_ok.mp pursued⟩
    | some taken =>
      simp only [pursue, popped] at pursued
      obtain ⟨step, middle, resumed, pursued⟩ := bind_eq_ok.mp pursued
      obtain ⟨next, later, driven, pursued⟩ := bind_eq_ok.mp pursued
      exact .inr ⟨next, later, ⟨_, _, step, middle, popped, resumed, driven⟩, pursued⟩
  · rintro (⟨empty, rfl, rfl⟩ | ⟨next, later, round, pursued⟩)
    · simp only [pursue, Frontier.pop?_eq_none.mpr empty]
      rfl
    · obtain ⟨_, _, step, middle, popped, resumed, driven⟩ := round
      simp only [pursue, popped]
      exact bind_eq_ok.mpr ⟨step, middle, resumed, bind_eq_ok.mpr ⟨next, later, driven, pursued⟩⟩

omit [LawfulHost σ D R] in
theorem explore_eq_ok {c : Config} : explore resume c steps (fuel + 1) st w = .ok st' w' ↔
    (st.exhausted c = true ∧ st' = st ∧ w' = w) ∨
    (¬ st.exhausted c = true ∧ ∃ next later, Round resume steps st w next later ∧
      explore resume c steps fuel next later = .ok st' w') := by
  constructor
  · intro explored
    by_cases exhausted : st.exhausted c = true
    · simp only [explore, if_pos exhausted] at explored
      exact .inl ⟨exhausted, pure_eq_ok.mp explored⟩
    simp only [explore, if_neg exhausted] at explored
    cases popped : st.frontier.pop? with
    | none => exact absurd (by simp [Search.exhausted, Frontier.pop?_eq_none.mp popped]) exhausted
    | some taken =>
      rw [popped] at explored
      obtain ⟨step, middle, resumed, explored⟩ := bind_eq_ok.mp explored
      obtain ⟨next, later, driven, explored⟩ := bind_eq_ok.mp explored
      exact .inr ⟨exhausted, next, later, ⟨_, _, step, middle, popped, resumed, driven⟩, explored⟩
  · rintro (⟨exhausted, rfl, rfl⟩ | ⟨going, next, later, round, explored⟩)
    · simp only [explore, if_pos exhausted]
      rfl
    · obtain ⟨_, _, step, middle, popped, resumed, driven⟩ := round
      simp only [explore, if_neg going, popped]
      exact bind_eq_ok.mpr ⟨step, middle, resumed, bind_eq_ok.mpr ⟨next, later, driven, explored⟩⟩

omit [LawfulHost σ D R] in
theorem pursue_nothing (empty : st.frontier.size = 0) : pursue resume steps n st w = .ok st w := by
  cases n with
  | zero => rfl
  | succ n => exact pursue_eq_ok.mpr (.inl ⟨empty, rfl, rfl⟩)

theorem pursue_more {more : Nat} (enough : steps ≤ more) (pursued : pursue resume steps n st w = .ok st' w') :
    pursue resume more n st w = .ok st' w' := by
  induction n generalizing st w with
  | zero => exact pursued
  | succ n ih =>
    rcases pursue_eq_ok.mp pursued with stopped | ⟨next, later, round, rest⟩
    · exact pursue_eq_ok.mpr (.inl stopped)
    · exact pursue_eq_ok.mpr (.inr ⟨next, later, round.more enough, ih rest⟩)

omit [LawfulHost σ D R] in
/-- What more rounds lead to, they lead to from where the first ones led. -/
theorem pursue_add {k : Nat} {last : Search κ R} {w'' : σ} (first : pursue resume steps n st w = .ok st' w') :
    pursue resume steps (n + k) st w = .ok last w'' ↔ pursue resume steps k st' w' = .ok last w'' := by
  induction n generalizing st w with
  | zero =>
    obtain ⟨rfl, rfl⟩ := pure_eq_ok.mp first
    rw [Nat.zero_add]
  | succ n ih =>
    rw [Nat.succ_add]
    rcases pursue_eq_ok.mp first with ⟨empty, rfl, rfl⟩ | ⟨next, later, round, rest⟩
    · rw [pursue_nothing empty, pursue_nothing empty]
    constructor
    · intro all
      rcases pursue_eq_ok.mp all with ⟨empty, _⟩ | ⟨_, _, again, others⟩
      · exact absurd empty round.some_left
      · obtain ⟨rfl, rfl⟩ := round.unique again
        exact (ih rest).mp others
    · exact fun others => pursue_eq_ok.mpr (.inr ⟨next, later, round, (ih rest).mpr others⟩)

theorem pursue_finds (pursued : pursue resume steps n st w = .ok st' w') : ∃ found, Finds st st' found := by
  induction n generalizing st w with
  | zero =>
    obtain ⟨rfl, _⟩ := pure_eq_ok.mp pursued
    exact ⟨[], .nothing⟩
  | succ n ih =>
    rcases pursue_eq_ok.mp pursued with ⟨_, rfl, _⟩ | ⟨next, later, round, rest⟩
    · exact ⟨[], .nothing⟩
    · obtain ⟨first, finds, _⟩ := round.finds
      obtain ⟨others, more⟩ := ih rest
      exact ⟨others ++ first, finds.trans more⟩

/-- A search that stops has gone through some rounds, with no bound in the way. -/
theorem explore_pursues {c : Config} (explored : explore resume c steps fuel st w = .ok st' w') :
    ∃ n, pursue resume steps n st w = .ok st' w' ∧ st'.exhausted c = true := by
  induction fuel generalizing st w with
  | zero => exact absurd explored fail_ne_ok
  | succ fuel ih =>
    rcases explore_eq_ok.mp explored with ⟨exhausted, rfl, rfl⟩ | ⟨_, next, later, round, rest⟩
    · exact ⟨0, rfl, exhausted⟩
    · obtain ⟨n, pursued, exhausted⟩ := ih rest
      exact ⟨n + 1, pursue_eq_ok.mpr (.inr ⟨next, later, round, pursued⟩), exhausted⟩

/-- A search stops as soon as it has found enough. -/
theorem explore_within (within : st.count ≤ m)
    (explored : explore resume ⟨t, some m⟩ steps fuel st w = .ok st' w') : st'.count ≤ m := by
  induction fuel generalizing st w with
  | zero => exact absurd explored fail_ne_ok
  | succ fuel ih =>
    rcases explore_eq_ok.mp explored with ⟨_, rfl, _⟩ | ⟨going, next, later, round, rest⟩
    · exact within
    · have room : ¬ m ≤ st.count := fun full => going (by simp [Search.exhausted, full])
      obtain ⟨found, finds, sole⟩ := round.finds
      refine ih ?_ rest
      rw [finds.counted]
      omega

/-- Where a search without a bound stops, a search with one does. -/
theorem explore_stops (m : Nat) (explored : explore resume ⟨t, none⟩ steps fuel st w = .ok st' w') :
    ∃ last w'', explore resume ⟨t, some m⟩ steps fuel st w = .ok last w'' := by
  induction fuel generalizing st w with
  | zero => exact absurd explored fail_ne_ok
  | succ fuel ih =>
    by_cases exhausted : st.exhausted ⟨t, some m⟩ = true
    · exact ⟨st, w, explore_eq_ok.mpr (.inl ⟨exhausted, rfl, rfl⟩)⟩
    rcases explore_eq_ok.mp explored with ⟨empty, _⟩ | ⟨_, next, later, round, rest⟩
    · exact absurd (by simp_all [Search.exhausted]) exhausted
    · obtain ⟨last, w'', stopped⟩ := ih rest
      exact ⟨last, w'', explore_eq_ok.mpr (.inr ⟨exhausted, next, later, round, stopped⟩)⟩

/-- After a search with a bound has stopped, more rounds find nothing that comes among the first. -/
theorem pursue_take {last : Search κ R} {w'' : σ} (counted : st.count = st.found.length) (within : st.count ≤ m)
    (exhausted : st.exhausted ⟨t, some m⟩ = true) (pursued : pursue resume steps n st w = .ok last w'') :
    last.found.reverse.take m = st.found.reverse := by
  by_cases empty : st.frontier.size = 0
  · rw [pursue_nothing empty] at pursued
    cases pursued
    refine List.take_of_length_le ?_
    rwa [List.length_reverse, ← counted]
  · have full : m ≤ st.count := by simpa [Search.exhausted, empty] using exhausted
    obtain ⟨found, finds⟩ := pursue_finds pursued
    rw [finds.recorded, List.reverse_append]
    refine List.take_left' ?_
    rw [List.length_reverse, ← counted]
    exact Nat.le_antisymm within full

section

variable {entry : κ} {s : Store} {c : Config}

omit [LawfulHost σ D R] in
theorem search_eq_ok : search resume fuel c entry s w = .ok st' w' ↔
    ∃ step middle, resume entry s .absent w = .ok step middle ∧ ∃ next later,
      drive resume handler fuel ⟨.empty c.traversal, Score.zero, [], 0⟩ step middle = .ok next later ∧
      explore resume c fuel fuel next later = .ok st' w' := by
  simp only [search, bind_eq_ok]

omit [LawfulHost σ D R] in
theorem survey_eq_ok : survey resume steps t n entry s w = .ok st' w' ↔
    ∃ step middle, resume entry s .absent w = .ok step middle ∧ ∃ next later,
      drive resume handler steps ⟨.empty t, Score.zero, [], 0⟩ step middle = .ok next later ∧
      pursue resume steps n next later = .ok st' w' := by
  simp only [survey, bind_eq_ok]

theorem search_counted (searched : search resume fuel c entry s w = .ok st w') : st.count = st.found.length := by
  obtain ⟨step, middle, resumed, next, later, driven, explored⟩ := search_eq_ok.mp searched
  obtain ⟨n, pursued, _⟩ := explore_pursues explored
  obtain ⟨first, begun, _⟩ := drive_finds driven
  obtain ⟨others, finds⟩ := pursue_finds pursued
  exact finds.count_eq (begun.count_eq rfl)

theorem search_within (some_wanted : 1 ≤ m) (searched : search resume fuel ⟨t, some m⟩ entry s w = .ok st w') :
    st.count ≤ m := by
  obtain ⟨step, middle, resumed, next, later, driven, explored⟩ := search_eq_ok.mp searched
  obtain ⟨first, begun, sole⟩ := drive_finds driven
  refine explore_within ?_ explored
  rw [begun.counted]
  exact Nat.le_trans sole some_wanted

/-- A search that stops is a survey that went far enough. -/
theorem search_stops (searched : search resume fuel c entry s w = .ok st w') :
    ∃ n, survey resume fuel c.traversal n entry s w = .ok st w' ∧ st.exhausted c = true := by
  obtain ⟨step, middle, resumed, next, later, driven, explored⟩ := search_eq_ok.mp searched
  obtain ⟨n, pursued, exhausted⟩ := explore_pursues explored
  exact ⟨n, survey_eq_ok.mpr ⟨step, middle, resumed, next, later, driven, pursued⟩, exhausted⟩

/-- A search without a bound that stops is what the surveys are from some number of rounds on. -/
theorem search_surveyed (searched : search resume fuel ⟨t, none⟩ entry s w = .ok st' w') :
    ∃ n, ∀ k ≥ n, survey resume fuel t k entry s w = .ok st' w' := by
  obtain ⟨step, middle, resumed, next, later, driven, explored⟩ := search_eq_ok.mp searched
  obtain ⟨n, pursued, exhausted⟩ := explore_pursues explored
  refine ⟨n, fun k further => survey_eq_ok.mpr ⟨step, middle, resumed, next, later, driven, ?_⟩⟩
  obtain ⟨k, rfl⟩ := Nat.exists_eq_add_of_le further
  have empty : st'.frontier.size = 0 := by simpa [Search.exhausted] using exhausted
  exact (pursue_add pursued).mpr (pursue_nothing empty)

/-- A search with a bound that stops is a survey, and longer surveys find the same executions first. -/
theorem search_bounded (some_wanted : 1 ≤ m) (searched : search resume fuel ⟨t, some m⟩ entry s w = .ok st w') :
    ∃ n, survey resume fuel t n entry s w = .ok st w' ∧
      ∀ steps ≥ fuel, ∀ k ≥ n, ∀ last w'', survey resume steps t k entry s w = .ok last w'' →
        last.found.reverse.take m = st.found.reverse := by
  obtain ⟨step, middle, resumed, next, later, driven, explored⟩ := search_eq_ok.mp searched
  obtain ⟨n, pursued, exhausted⟩ := explore_pursues explored
  refine ⟨n, survey_eq_ok.mpr ⟨step, middle, resumed, next, later, driven, pursued⟩, ?_⟩
  intro steps enough k further last w'' surveyed
  obtain ⟨_, _, again, _, _, driven', others⟩ := survey_eq_ok.mp surveyed
  rw [resumed] at again
  cases again
  rw [drive_more enough driven] at driven'
  cases driven'
  obtain ⟨k, rfl⟩ := Nat.exists_eq_add_of_le further
  exact pursue_take (search_counted searched) (search_within some_wanted searched) exhausted
    ((pursue_add (pursue_more enough pursued)).mp others)

/-- A search with a bound finds the first executions that it finds without, where that stops. -/
theorem search_take (some_wanted : 1 ≤ m) (searched : search resume fuel ⟨t, none⟩ entry s w = .ok st w') :
    ∃ last w'', search resume fuel ⟨t, some m⟩ entry s w = .ok last w'' ∧
      last.found.reverse = st.found.reverse.take m := by
  obtain ⟨step, middle, resumed, next, later, driven, explored⟩ := search_eq_ok.mp searched
  obtain ⟨last, w'', stopped⟩ := explore_stops m explored
  have bounded : search resume fuel ⟨t, some m⟩ entry s w = .ok last w'' :=
    search_eq_ok.mpr ⟨step, middle, resumed, next, later, driven, stopped⟩
  obtain ⟨n, _, firsts⟩ := search_bounded some_wanted bounded
  obtain ⟨k, surveys⟩ := search_surveyed searched
  refine ⟨last, w'', bounded, ?_⟩
  exact (firsts fuel (Nat.le_refl fuel) (max n k) (Nat.le_max_left n k) st w'
    (surveys _ (Nat.le_max_right n k))).symm

end

end Enumeration

end ProbCore
