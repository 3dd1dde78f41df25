import ProbCore.Instance.Estimates
import ProbCore.Proofs.CascadeBranching

/-! The means that an instance of a cascade keeps of what arrives. However the arrivals at its factors alternate, what
it answers and remembers at a factor is the mean of the weights that came there: it matters neither what comes to other
factors nor in which order the weights came. -/

namespace ProbCore.Cascade

/-- A mean does not depend on the order of its weights. -/
theorem logMean_perm {weights others : List ℝ} (same : weights.Perm others) : logMean weights = logMean others := by
  rw [logMean, logMean, (same.map Real.exp).sum_eq, same.length_eq]

theorem logMean_singleton (w : ℝ) : logMean [w] = w := by
  simp [logMean]

theorem entryOf_perm {weights others : List ℝ} (same : weights.Perm others) : entryOf weights = entryOf others := by
  by_cases none_there : weights = []
  · subst none_there
    rw [same.nil_eq]
  · have some_other : others ≠ [] := fun empty => none_there (empty ▸ same).eq_nil
    rw [entryOf, entryOf, if_neg none_there, if_neg some_other, same.length_eq, logMean_perm same]

end ProbCore.Cascade

namespace ProbCore.Instance.Cascade

open ProbCore.Cascade (History arrivalsOf arrive_eq cameTo entryOf_perm entryOf logMean logMean_perm
  logMean_singleton lookup_arrivalsOf)

/-- The means that arrivals after a history are compared with. -/
noncomputable def meansAfter (history : History) : History → List Exact
  | [] => []
  | (j, w) :: later =>
    .real (logMean (cameTo (history ++ [(j, w)]) j)) :: meansAfter (history ++ [(j, w)]) later

/-- Each arrival is in its own mean, and no later one is. -/
theorem getElem?_meansAfter (history calls : History) (i : Nat) :
    (meansAfter history calls)[i]? =
      calls[i]?.map fun call => .real (logMean (cameTo (history ++ calls.take (i + 1)) call.1)) := by
  induction calls generalizing history i with
  | nil => rfl
  | cons call later ih =>
    cases i with
    | zero => rfl
    | succ i =>
      rw [meansAfter, List.getElem?_cons_succ, ih, List.getElem?_cons_succ, List.take_succ_cons, List.append_assoc]
      rfl

variable {σ κ D : Type}

/-- Counts arrivals one after the other; the mean that each is answered. -/
noncomputable def arriveEach (calls : History) : Act σ κ D Exact (List Exact) :=
  calls.mapM fun call => arrive call.1 (.real call.2)

theorem arriveEach_cons (call : Nat × ℝ) (later : History) :
    (arriveEach (call :: later) : Act σ κ D Exact _) = (do
      let mean ← arrive call.1 (.real call.2)
      let means ← arriveEach later
      return mean :: means) :=
  List.mapM_cons

theorem arrive_call (history : History) (j : Nat) (w : ℝ) (f : Fields κ D Exact) (v : σ) :
    arrive j (.real w) ({ f with arrivals := arrivalsOf history }, v) =
      .ok (.real (logMean (cameTo (history ++ [(j, w)]) j)))
        ({ f with arrivals := arrivalsOf (history ++ [(j, w)]) }, v) := by
  change EStateM.Result.ok (ProbCore.Cascade.arrive (arrivalsOf history) j (.real w)).1
    ({ f with arrivals := (ProbCore.Cascade.arrive (arrivalsOf history) j (.real w)).2 }, v) = _
  rw [arrive_eq]

theorem arriveEach_run (history calls : History) (f : Fields κ D Exact) (v : σ) :
    arriveEach calls ({ f with arrivals := arrivalsOf history }, v) =
      .ok (meansAfter history calls) ({ f with arrivals := arrivalsOf (history ++ calls) }, v) := by
  induction calls generalizing history with
  | nil =>
    rw [List.append_nil]
    rfl
  | cons call later ih =>
    obtain ⟨j, w⟩ := call
    rw [arriveEach_cons, bind_of_ok (arrive_call history j w f v), bind_of_ok (ih (history ++ [(j, w)])),
      List.append_assoc]
    rfl

/-- An instance that starts without arrivals answers each with the mean of the weights that came to its factor so far,
and remembers of each factor how many came there and their mean. Another sequence of arrivals, on any instance, is
answered the same at a factor, and leaves the same there, once the same weights came there in whichever order. -/
theorem arrivals_averaged (calls : History) (f : Fields κ D Exact) (v : σ) :
    ∃ answers arrivals,
      arriveEach calls ({ f with arrivals := [] }, v) = .ok answers ({ f with arrivals }, v) ∧
      (∀ i : Nat, answers[i]? =
        calls[i]?.map fun call => Exact.real (logMean (cameTo (calls.take (i + 1)) call.1))) ∧
      (∀ j, arrivals.lookup j = entryOf (cameTo calls j)) ∧
      ∀ (others : History) (f' : Fields κ D Exact) (v' : σ), ∃ answers' arrivals',
        arriveEach others ({ f' with arrivals := [] }, v') = .ok answers' ({ f' with arrivals := arrivals' }, v') ∧
        (∀ (i i' j : Nat) (w w' : ℝ), calls[i]? = some (j, w) → others[i']? = some (j, w') →
          (cameTo (calls.take (i + 1)) j).Perm (cameTo (others.take (i' + 1)) j) → answers[i]? = answers'[i']?) ∧
        ∀ j, (cameTo calls j).Perm (cameTo others j) → arrivals.lookup j = arrivals'.lookup j := by
  refine ⟨_, _, arriveEach_run [] calls f v, getElem?_meansAfter [] calls, lookup_arrivalsOf calls, ?_⟩
  intro others f' v'
  refine ⟨_, _, arriveEach_run [] others f' v', ?_, ?_⟩
  · intro i i' j w w' here there same
    rw [getElem?_meansAfter, getElem?_meansAfter, here, there]
    exact congrArg (fun mean => some (Exact.real mean)) (logMean_perm same)
  · intro j same
    rw [List.nil_append, List.nil_append, lookup_arrivalsOf, lookup_arrivalsOf, entryOf_perm same]

/-- Between weights of two and of four another factor is come to. Their mean is three, in whichever order they come. -/
theorem alternating_averaged :
    ∃ arrivals, (arriveEach [(1, Real.log 2), (2, 0), (1, Real.log 4)] : Act Unit Unit Unit Exact _) (.new, ()) =
        .ok [.real (Real.log 2), .real 0, .real (Real.log 3)] ({ Fields.new with arrivals }, ()) ∧
      arrivals.lookup 1 = some (2, .real (Real.log 3)) ∧
      ∃ answers arrivals', (arriveEach [(1, Real.log 4), (1, Real.log 2)] : Act Unit Unit Unit Exact _) (.new, ()) =
          .ok answers ({ Fields.new with arrivals := arrivals' }, ()) ∧
        answers[1]? = some (.real (Real.log 3)) ∧ arrivals'.lookup 1 = some (2, .real (Real.log 3)) := by
  have mean : logMean [Real.log 2, Real.log 4] = Real.log 3 := by
    norm_num [logMean, Real.exp_log]
  obtain ⟨answers, arrivals, ran, answered, kept, others⟩ := arrivals_averaged
    [(1, Real.log 2), (2, 0), (1, Real.log 4)] (.new : Fields Unit Unit Exact) ()
  obtain ⟨answers', arrivals', ran', answered', kept'⟩ := others [(1, Real.log 4), (1, Real.log 2)] .new ()
  have last : answers[2]? = some (.real (Real.log 3)) := by
    rw [← mean]
    exact answered 2
  have all : answers = [.real (Real.log 2), .real 0, .real (Real.log 3)] := by
    refine List.ext_getElem? fun i => ?_
    obtain _ | _ | _ | i := i
    · exact (answered 0).trans (congrArg (fun x => some (Exact.real x)) (logMean_singleton _))
    · exact (answered 1).trans (congrArg (fun x => some (Exact.real x)) (logMean_singleton _))
    · exact last
    · exact answered (i + 3)
  have entry : arrivals.lookup 1 = some (2, .real (Real.log 3)) := by
    rw [kept, ← mean]
    exact if_neg (List.cons_ne_nil _ _)
  have swapped : [Real.log 2, Real.log 4].Perm [Real.log 4, Real.log 2] := .swap _ _ _
  refine ⟨arrivals, all ▸ ran, entry, answers', arrivals', ran', ?_, ?_⟩
  · rw [← answered' 2 1 1 (Real.log 4) (Real.log 2) rfl rfl swapped, last]
  · rw [← kept' 1 swapped, entry]

end ProbCore.Instance.Cascade
