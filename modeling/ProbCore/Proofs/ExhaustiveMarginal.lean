import ProbCore.Proofs.ExhaustiveSearch
import ProbCore.Proofs.MarginalMass
import ProbCore.Proofs.Scripted

/-! The marginal of an exhaustive search. The three traversals record the same executions with
the same scores, and in exact arithmetic each value gets the mass of its executions. -/

namespace ProbCore

open Enumeration

variable {σ κ D R : Type}

/-- The executions of a program from a store on are those of this tree. -/
def HasTree [Host (EStateM Failure σ) D R] [LawfulHost σ D R] [Score R]
    (resume : Resume (EStateM Failure σ) κ D R) (entry : κ) (s : Store)
    (tree : ExecutionTree R) : Prop :=
  ∃ P inside step, Performs resume P inside ∧ P.entry = entry ∧
    P.next entry s .absent = .ok step ∧ Unfolds (LawfulHost.densities σ) P Score.zero step tree

/-- Log densities are finite or impossible, and no factor is infinitely likely. -/
def ExecutionTree.Weighable : ExecutionTree Exact → Prop
  | leaf _ => True
  | factor x rest => x ≠ .posInf ∧ rest.Weighable
  | choice branches rest =>
    (∀ b ∈ branches, b.2.IsReal ∨ b.2 = .negInf) ∧ ∀ b ∈ branches, (rest b.1).Weighable

theorem ExecutionTree.executions_real {tree : ExecutionTree Exact} (weighable : tree.Weighable)
    {score : Exact} (real : score.IsReal) : ∀ e ∈ tree.executions score, e.2.IsReal := by
  induction tree generalizing score with
  | leaf value =>
    intro e member
    obtain rfl := List.mem_singleton.mp member
    exact real
  | factor x rest ih =>
    intro e member
    obtain ⟨y, rfl⟩ := real
    rw [executions] at member
    split at member
    next => cases member
    next going =>
      refine ih weighable.2 ?_ e member
      cases x with
      | real x => exact ⟨y + x, rfl⟩
      | posInf => exact absurd rfl weighable.1
      | negInf => exact absurd rfl going
      | nan => exact absurd rfl going
  | choice branches rest ih =>
    intro e member
    obtain ⟨y, rfl⟩ := real
    rw [executions] at member
    obtain ⟨b, chosen, inside⟩ := List.mem_flatMap.mp member
    obtain ⟨present, mass⟩ := List.mem_filter.mp chosen
    refine ih b.1 (weighable.2 b present) ?_ e inside
    rcases weighable.1 b present with ⟨x, known⟩ | impossible
    · exact ⟨y + x, by rw [known]; rfl⟩
    · rw [possible, impossible] at mass
      cases mass

section

variable [Host (EStateM Failure σ) D R] [LawfulHost σ D R] [Score R]
  {resume : Resume (EStateM Failure σ) κ D R} {entry : κ} {s : Store} {tree : ExecutionTree R}

/-- With fuel enough, every traversal records the executions of the tree. -/
theorem search_records (has : HasTree resume entry s tree) :
    ∃ n, ∀ fuel ≥ n, ∀ t, ∃ st, Returns (search resume fuel ⟨t, none⟩ entry s) st ∧
      st.count = st.found.length ∧ st.frontier.size = 0 ∧
      st.found.Perm (tree.executions Score.zero) := by
  obtain ⟨P, inside, step, performs, rfl, begins, unfolds⟩ := has
  refine ⟨max tree.height (tree.resumptions Score.zero + 1), fun fuel enough t => ?_⟩
  exact search_returns performs t begins unfolds (by omega) (by omega)

/-- The marginal of a search. -/
def Enumeration.Search.marginal (st : Search κ R) : Except Failure (Marginal Value R) :=
  Marginal.ofLogWeights (st.found.reverse.map (·.1)) (st.found.reverse.map (·.2))
    (some (Score.logSumExp (st.found.reverse.map (·.2)))) [] [("executions", .count st.count)]

theorem estimate_returns {fuel : Nat} {c : Config} {st : Search κ R} {M : Marginal Value R}
    (searched : Returns (search resume fuel c entry s) st) (found : st.count ≠ 0)
    (made : st.marginal = .ok M) : Returns (estimate resume fuel c entry s) M := by
  refine searched.bind ?_
  have some_found : ¬ (st.count == 0) = true := by simpa using found
  rw [if_neg some_found]
  exact (Returns.note _).bind (Returns.lift made)

theorem estimate_can_return {fuel : Nat} {c : Config} {st : Search κ R} {M : Marginal Value R}
    (searched : Returns (search resume fuel c entry s) st)
    (returned : CanReturn (estimate resume fuel c entry s) M) :
    st.count ≠ 0 ∧ st.marginal = .ok M := by
  obtain ⟨w, w', ready, ran⟩ := returned
  obtain ⟨st', middle, first, rest⟩ := bind_eq_ok.mp ran
  obtain rfl := searched.unique ⟨w, middle, ready, first⟩
  split at rest
  next => exact absurd rest fail_ne_ok
  next found =>
    obtain ⟨_, _, _, last⟩ := bind_eq_ok.mp rest
    exact ⟨by simpa using found, (lift_eq_ok.mp last).1⟩

end

/-- In exact arithmetic a search gives every value its share of the mass, whatever the traversal. -/
theorem estimate_shares [Host (EStateM Failure σ) D Exact] [LawfulHost σ D Exact]
    {resume : Resume (EStateM Failure σ) κ D Exact} {entry : κ} {s : Store}
    {tree : ExecutionTree Exact} (has : HasTree resume entry s tree)
    (scored : ∀ e ∈ tree.executions 0, e.2.IsReal) :
    ∃ n, ∀ fuel ≥ n, ∀ t,
      let found := tree.executions 0
      let total := Exact.mass (found.map (·.2))
      (∀ M, CanReturn (estimate resume fuel ⟨t, none⟩ entry s) M →
        M.normalization = some (.real (Real.log total)) ∧
        ∀ v k, v.key = .ok k → M.prob v = .ok (.real (Marginal.massOf k found / total))) ∧
      (found ≠ [] → (∀ e ∈ found, ∃ k, e.1.key = .ok k) →
        ∃ M, Returns (estimate resume fuel ⟨t, none⟩ entry s) M) := by
  obtain ⟨n, records⟩ := search_records has
  refine ⟨n, fun fuel enough t => ?_⟩
  obtain ⟨st, searched, counted, _, same⟩ := records fuel enough t
  rw [Exact.zero_eq] at same
  have order : st.found.reverse.Perm (tree.executions 0) := (List.reverse_perm _).trans same
  have reals : ∀ p ∈ st.found.reverse, p.2.IsReal := by
    exact fun p member => scored p (order.mem_iff.mp member)
  have finite : ∀ p ∈ st.found.reverse, p.2.IsReal ∨ p.2 = .negInf := fun p member => .inl (reals p member)
  have massive (nonempty : st.found.reverse ≠ []) : 0 < Exact.mass (st.found.reverse.map (·.2)) :=
    Exact.mass_pos (by simpa using nonempty) (List.forall_mem_map.mpr reals)
  have total := Exact.mass_perm (order.map (·.2))
  constructor
  · intro M returned
    obtain ⟨some_found, made⟩ := estimate_can_return searched returned
    have nonempty : st.found.reverse ≠ [] := by
      rw [counted] at some_found
      simpa using some_found
    obtain ⟨normalization, shares⟩ := Marginal.ofLogWeights_shares finite (massive nonempty) made
    have summed := Exact.logSumExp_eq (by simpa using nonempty) (List.forall_mem_map.mpr reals)
    refine ⟨?_, fun v k known => ?_⟩
    · rw [normalization, summed, total]
    · rw [shares v k known, total, Marginal.massOf_perm k order]
  · intro some_found keyed
    have nonempty : st.found.reverse ≠ [] := by
      intro empty
      rw [empty] at order
      exact some_found order.nil_eq.symm
    obtain ⟨M, made⟩ := Marginal.ofLogWeights_succeeds finite (massive nonempty)
      fun p member => keyed p (order.mem_iff.mp member)
    refine ⟨M, estimate_returns searched ?_ made⟩
    rw [counted]
    simpa using nonempty

theorem estimate_masses [Host (EStateM Failure σ) D Exact] [LawfulHost σ D Exact]
    {resume : Resume (EStateM Failure σ) κ D Exact} {entry : κ} {s : Store}
    {tree : ExecutionTree Exact} (has : HasTree resume entry s tree) (weighable : tree.Weighable) :
    ∃ n, ∀ fuel ≥ n, ∀ t,
      let found := tree.executions 0
      let total := Exact.mass (found.map (·.2))
      (∀ M, CanReturn (estimate resume fuel ⟨t, none⟩ entry s) M →
        M.normalization = some (.real (Real.log total)) ∧
        ∀ v k, v.key = .ok k → M.prob v = .ok (.real (Marginal.massOf k found / total))) ∧
      (found ≠ [] → (∀ e ∈ found, ∃ k, e.1.key = .ok k) →
        ∃ M, Returns (estimate resume fuel ⟨t, none⟩ entry s) M) :=
  estimate_shares has (ExecutionTree.executions_real weighable ⟨0, rfl⟩)

/-- An exhaustive search of a program with a finite tree of executions records each of its
executions once, with its score, whatever the traversal and the arithmetic of scores. In exact
arithmetic its marginal gives every value the mass of the executions that return it over the
mass of all, and the logarithm of that total. -/
theorem enumeration_exhaustive {σ κ D : Type} :
    (∀ {R : Type} [Host (EStateM Failure σ) D R] [LawfulHost σ D R] [Score R]
      (resume : Resume (EStateM Failure σ) κ D R) (entry : κ) (s : Store) (tree : ExecutionTree R),
      HasTree resume entry s tree →
      ∃ n, ∀ fuel ≥ n, ∀ t, ∃ st, Returns (search resume fuel ⟨t, none⟩ entry s) st ∧
        st.count = st.found.length ∧ st.frontier.size = 0 ∧
        st.found.Perm (tree.executions Score.zero)) ∧
    (∀ [Host (EStateM Failure σ) D Exact] [LawfulHost σ D Exact]
      (resume : Resume (EStateM Failure σ) κ D Exact) (entry : κ) (s : Store)
      (tree : ExecutionTree Exact), HasTree resume entry s tree → tree.Weighable →
      ∃ n, ∀ fuel ≥ n, ∀ t,
        let found := tree.executions 0
        let total := Exact.mass (found.map (·.2))
        (∀ M, CanReturn (estimate resume fuel ⟨t, none⟩ entry s) M →
          M.normalization = some (.real (Real.log total)) ∧
          ∀ v k, v.key = .ok k → M.prob v = .ok (.real (Marginal.massOf k found / total))) ∧
        (found ≠ [] → (∀ e ∈ found, ∃ k, e.1.key = .ok k) →
          ∃ M, Returns (estimate resume fuel ⟨t, none⟩ entry s) M)) := by
  constructor
  · intro R _ _ _ resume entry s tree has
    exact search_records has
  · intro _ _ resume entry s tree has weighable
    exact estimate_masses has weighable

section

/-- One fair coin, which it weighs by a factor when it shows heads. -/
def weighedCoin : PlainProgram Nat Unit Exact where
  entry := 0
  next
    | 0, s, _ => .ok (.sample s 1 .root ())
    | 1, s, .bool true => .ok (.factor s 2 .root (.real 1))
    | 1, s, v => .ok (.exit s v)
    | _, s, _ => .ok (.exit s (.bool true))

def weighedCoinRest : Value → ExecutionTree Exact
  | .bool true => .factor (.real 1) (.leaf (.bool true))
  | v => .leaf v

noncomputable def weighedCoinTree : ExecutionTree Exact :=
  .choice [(.bool false, .real (Real.log 2⁻¹)), (.bool true, .real (Real.log 2⁻¹))] weighedCoinRest

theorem weighedCoin_unfolds :
    Unfolds fairCoin weighedCoin Score.zero (.sample .empty 1 .root ()) weighedCoinTree := by
  let next : Value → Step Nat Unit Exact
    | .bool true => .factor .empty 2 .root (.real 1)
    | v => .exit .empty v
  refine @Unfolds.choice _ _ _ _ _ _ _ _ _ _ _ _ next _ rfl ?_ ?_ ?_
  all_goals
    intro b member
    rcases List.mem_cons.mp member with rfl | member
    on_goal 2 => obtain rfl := List.mem_singleton.mp member
  · rfl
  · rfl
  · exact fun _ => rfl
  · exact fun _ => rfl
  · exact fun _ => .exit
  · exact fun _ => .factor (fun _ => rfl) fun _ => .exit

theorem weighedCoin_hasTree :
    HasTree (weighedCoin.resume : Resume (EStateM Failure (Script fairCoin)) Nat Unit Exact) 0
      .empty weighedCoinTree :=
  ⟨weighedCoin, _, _, weighedCoin.resume_performs, rfl, rfl, weighedCoin_unfolds⟩

theorem weighedCoin_weighable : weighedCoinTree.Weighable := by
  refine ⟨?_, ?_⟩
  all_goals
    intro b member
    rcases List.mem_cons.mp member with rfl | member
    on_goal 2 => obtain rfl := List.mem_singleton.mp member
  · exact .inl ⟨_, rfl⟩
  · exact .inl ⟨_, rfl⟩
  · trivial
  · exact ⟨nofun, trivial⟩

theorem weighedCoin_executions :
    weighedCoinTree.executions 0 =
      [(.bool false, .real (0 + Real.log 2⁻¹)), (.bool true, .real (0 + Real.log 2⁻¹ + 1))] := by
  rfl

theorem weighedCoin_masses :
    Marginal.massOf (.atom (.bool true)) (weighedCoinTree.executions 0) /
      Exact.mass ((weighedCoinTree.executions 0).map (·.2)) =
        Real.exp 1 / (1 + Real.exp 1) := by
  have tails : Value.identifiedBy (.atom (.bool true)) (.bool false) = false := by
    simp [Value.identifiedBy, Value.key, Value.isHashable, BEq.beq, Value.Key.beq, Value.beq]
  have heads : Value.identifiedBy (.atom (.bool true)) (.bool true) = true := by
    simp [Value.identifiedBy, Value.key, Value.isHashable, BEq.beq, Value.Key.beq, Value.beq]
  have half : (0 : ℝ) < 2⁻¹ := by positivity
  rw [weighedCoin_executions, Marginal.massOf]
  simp only [List.filter_cons, tails, heads, List.map_cons, Exact.mass_cons, Exact.weight, if_true,
    Bool.false_eq_true, if_false, List.filter_nil, List.map_nil, Exact.mass_nil, zero_add,
    Real.exp_add, Real.exp_log half, add_zero]
  field_simp

/-- Every traversal finds the mass of the factor on heads, against one on tails. -/
theorem weighedCoin_enumerated :
    ∃ n, ∀ fuel ≥ n, ∀ t,
      (∃ st : Search Nat Exact, Returns (search weighedCoin.resume fuel ⟨t, none⟩ 0 .empty :
        EStateM Failure (Script fairCoin) _) st ∧ st.found.Perm (weighedCoinTree.executions 0)) ∧
      ∃ M : Marginal Value Exact, Returns (estimate weighedCoin.resume fuel ⟨t, none⟩ 0 .empty :
        EStateM Failure (Script fairCoin) _) M ∧
        M.prob (.bool true) = .ok (.real (Real.exp 1 / (1 + Real.exp 1))) := by
  obtain ⟨n, records⟩ := (@enumeration_exhaustive (Script fairCoin) Nat Unit).1
    weighedCoin.resume 0 .empty weighedCoinTree weighedCoin_hasTree
  obtain ⟨m, exhaustive⟩ := (@enumeration_exhaustive (Script fairCoin) Nat Unit).2
    weighedCoin.resume 0 .empty weighedCoinTree weighedCoin_hasTree weighedCoin_weighable
  refine ⟨max n m, fun fuel enough t => ⟨?_, ?_⟩⟩
  · obtain ⟨st, searched, _, _, found⟩ := records fuel (by omega) t
    rw [Exact.zero_eq] at found
    exact ⟨st, searched, found⟩
  obtain ⟨shares, succeeds⟩ := exhaustive fuel (by omega) t
  obtain ⟨M, returned⟩ := succeeds (by rw [weighedCoin_executions]; exact nofun) (by
    rw [weighedCoin_executions]
    intro e member
    rcases List.mem_cons.mp member with rfl | member
    on_goal 2 => obtain rfl := List.mem_singleton.mp member
    · exact ⟨_, rfl⟩
    · exact ⟨_, rfl⟩)
  refine ⟨M, returned, ?_⟩
  rw [(shares M returned.canReturn).2 (.bool true) (.atom (.bool true)) rfl, weighedCoin_masses]

end

end ProbCore
