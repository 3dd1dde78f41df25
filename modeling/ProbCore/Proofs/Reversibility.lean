import ProbCore.Proofs.ChainState

/-! Moves of the chain run backwards. When no address comes twice in an execution, and an address
accepts the same values wherever it comes, every proposal has a proposal back that draws what it
gave up, and the acceptance ratio is that of the two states' masses and the two proposals'
densities. So a move leaves the posterior mass in balance between any two states. -/

namespace ProbCore

open Kernel

section

variable {κ D R : Type} [Score R]

/-- No execution comes to an address twice. -/
def UniqueAddresses (laws : Densities D R) (P : PlainProgram κ D R) (s : Store) : Prop :=
  ∀ t, Execution laws P s t → Distinct t.choices

/-- The values that an address accepts are the same in all executions that come to it. -/
def StableSupports (laws : Densities D R) (P : PlainProgram κ D R) (s : Store) : Prop :=
  ∀ t t', Execution laws P s t → Execution laws P s t' → ∀ c ∈ t.choices, ∀ c' ∈ t'.choices,
    (c.address == c'.address) = true → ∀ v, Drawable laws c.dist v ↔ Drawable laws c'.dist v

/-- The log density of proposing `t'` from `t` at a site with this choice: of picking the site, of
the choice, and of the later choices that `t` cannot give values to. -/
def logProposal (t t' : Trace κ D R) (i : Nat) (c' : Choice κ D R) : R :=
  proposalScore t.choices.length c'.logDensity
    (Score.sum ((absentFrom (t.after i) (t'.after i)).map (·.logDensity)))

variable {laws : Densities D R} {P : PlainProgram κ D R} {s : Store} {limit : Option Nat}
  {t t' : Trace κ D R} {i : Nat} {c c' : Choice κ D R}

theorem UniqueAddresses.of_runs {step : Step κ D R} (begins : P.next P.entry s .absent = .ok step)
    (distinct : ∀ es T s' e, Runs laws P .zero step es T s' e →
      ((Event.choices es).map (·.address)).Pairwise fun a b => (a == b) = false) :
    UniqueAddresses laws P s := by
  rintro t ⟨es, replays, _⟩
  cases replays with
  | start => exact .nil
  | run begins' runs =>
    rw [begins] at begins'
    cases begins'
    exact List.pairwise_map.mp (distinct _ _ _ _ runs)

theorem accepts_of_stable (stable : StableSupports laws P s) (execution : Execution laws P s t)
    (execution' : Execution laws P s t') :
    ∀ d ∈ t'.after i, ∀ b ∈ t.after i, (b.address == d.address) = true →
      Drawable laws d.dist b.value := by
  intro d later b member same
  have listed : b ∈ t.choices := List.mem_of_mem_drop member
  exact (stable t t' execution execution' b listed d (List.mem_of_mem_drop later) same _).mp
    (execution.drawable b listed)

theorem logRatio_eq (stable : StableSupports laws P s) (execution : Execution laws P s t)
    (execution' : Execution laws P s t') (distinct : Distinct t.choices) :
    logRatio t i c c'.logDensity ⟨t',
      ((keptFrom laws (t.after i) (t'.after i)).map (·.address)).reverse ++
        (t.choices.take (i + 1)).map (·.address),
      Score.sum ((drawnBeside laws (t.after i) (t'.after i)).map (·.logDensity))⟩ =
    t'.score - t.score + logProposal t' t i c - logProposal t t' i c' := by
  have accepts := accepts_of_stable (i := i) stable execution execution'
  have hashable : ∀ b ∈ t.after i, b.address.isHashable = true :=
    fun b member => execution.hashable b (List.mem_of_mem_drop member)
  have hashable' : ∀ d ∈ t'.after i, d.address.isHashable = true :=
    fun d member => execution'.hashable d (List.mem_of_mem_drop member)
  have kept_hashable : ∀ d ∈ keptFrom laws (t.after i) (t'.after i), d.address.isHashable = true :=
    fun d member => hashable' d (List.mem_of_mem_filter member)
  have given_up := dropped_eq (i := i) (execution.placed distinct) kept_hashable
  rw [absentFrom_kept accepts hashable' hashable] at given_up
  rw [drawnBeside_eq accepts, logRatio]
  unfold Trace.after at given_up ⊢
  rw [given_up]
  rfl

/-- A state that branches off from another with settled choices is proposed with this ratio. -/
theorem BranchesOff.proposes (stable : StableSupports laws P s)
    (unique : UniqueAddresses laws P s) (state : ChainState laws P s limit t)
    (state' : ChainState laws P s limit t') (branch : BranchesOff t t' i c c')
    (settled : ∀ d ∈ t'.after i, Settled laws (t.after i) d) :
    Proposes laws P (Drawable laws) limit t i c'.value
      ((absentFrom (t.after i) (t'.after i)).map (·.value)) t'
      (t'.score - t.score + logProposal t' t i c - logProposal t t' i c') := by
  have placed' := state'.execution.placed (unique t' state'.execution)
  have accepts := accepts_of_stable (i := i) stable state.execution state'.execution
  have decides := (branch.decides_iff placed' state.execution.hashable).mpr ⟨settled, rfl, rfl, rfl⟩
  have proposes := Proposes.joins state' branch decides
  rw [logRatio_eq stable state.execution state'.execution (unique t state.execution),
    drawnBeside_eq accepts] at proposes
  exact proposes

/-- Choices that took over values give them back. -/
theorem settled_back (stable : StableSupports laws P s) (unique : UniqueAddresses laws P s)
    (execution : Execution laws P s t) (execution' : Execution laws P s t')
    (settled : ∀ d ∈ t'.after i, Settled laws (t.after i) d) :
    ∀ b ∈ t.after i, Settled laws (t'.after i) b := by
  intro b member
  have placed := (execution.placed (unique t execution)).after i
  have placed' := (execution'.placed (unique t' execution')).after i
  have accepts := accepts_of_stable (i := i) stable execution execution'
  refine (settled_iff_all placed' (placed.hashable b member)
    (execution.drawable b (List.mem_of_mem_drop member))).mpr ?_
  intro d later same
  left
  have back := Address.beq_symm (placed'.hashable d later) (placed.hashable b member) same
  have all := (settled_iff_all placed (placed'.hashable d later)
    (execution'.drawable d (List.mem_of_mem_drop later))).mp (settled d later)
  rcases all b member back with equal | rejected
  · exact equal.symm
  · have accepted := accepts d later b member back
    rw [Drawable, rejected] at accepted
    cases accepted

theorem Kernel.Proposes.reverses (stable : StableSupports laws P s)
    (unique : UniqueAddresses laws P s) (state : ChainState laws P s limit t) {v : Value}
    {draws : List Value} {r : R}
    (proposes : Proposes laws P (Drawable laws) limit t i v draws t' r) :
    ChainState laws P s limit t' ∧ ∃ c c', BranchesOff t t' i c c' ∧ c'.value = v ∧
      draws = (absentFrom (t.after i) (t'.after i)).map (·.value) ∧
      r = t'.score - t.score + logProposal t' t i c - logProposal t t' i c' ∧
      Proposes laws P (Drawable laws) limit t' i c.value
        ((absentFrom (t'.after i) (t.after i)).map (·.value)) t
        (t.score - t'.score + logProposal t t' i c' - logProposal t' t i c) := by
  obtain ⟨state', c, c', reused, fresh, branch, drawn, decides, rfl⟩ := proposes.splits state
  refine ⟨state', c, c', branch, drawn, ?_⟩
  have placed' := state'.execution.placed (unique t' state'.execution)
  obtain ⟨settled, rfl, rfl, rfl⟩ :=
    (branch.decides_iff placed' state.execution.hashable).mp decides
  have accepts := accepts_of_stable (i := i) stable state.execution state'.execution
  have back := settled_back stable unique state.execution state'.execution settled
  refine ⟨by rw [drawnBeside_eq accepts], ?_, branch.symm.proposes stable unique state' state back⟩
  exact logRatio_eq stable state.execution state'.execution (unique t state.execution)

end

open MeasureTheory in
/-- How likely a uniform number is to accept a log ratio. -/
noncomputable def acceptance (r : Exact) : ℝ :=
  (volume {u : ℝ | u ∈ Set.Ioo 0 1 ∧ Score.less (Score.log (Exact.real u)) r = true}).toReal

theorem acceptance_real (x : ℝ) : acceptance (.real x) = min 1 (Real.exp x) := by
  have below : {u : ℝ | u ∈ Set.Ioo 0 1 ∧ Score.less (Score.log (Exact.real u)) (.real x) = true} =
      Set.Ioo 0 (min 1 (Real.exp x)) := by
    ext u
    have accepts (positive : 0 < u) :
        Score.less (Score.log (Exact.real u)) (.real x) = true ↔ u < Real.exp x := by
      have logarithm : Score.log (Exact.real u) = .real (Real.log u) := by
        change Exact.log (.real u) = _
        rw [Exact.log, if_neg positive.not_gt, if_neg positive.ne']
      rw [logarithm, ← Real.log_lt_iff_lt_exp positive]
      exact decide_eq_true_iff
    constructor
    · rintro ⟨⟨positive, lower⟩, accepted⟩
      exact ⟨positive, lt_min lower ((accepts positive).mp accepted)⟩
    · rintro ⟨positive, lower⟩
      obtain ⟨below_one, below_ratio⟩ := lt_min_iff.mp lower
      exact ⟨⟨positive, below_one⟩, (accepts positive).mpr below_ratio⟩
  have nonneg : 0 ≤ min 1 (Real.exp x) := le_min zero_le_one (Real.exp_pos x).le
  rw [acceptance, below, Real.volume_Ioo, sub_zero, ENNReal.toReal_ofReal nonneg]

/-- Whatever moves between two masses is accepted so as to balance them. -/
theorem acceptance_balances {a b : Exact} (left : a.IsReal) (right : b.IsReal) :
    a.weight * acceptance (b - a) = b.weight * acceptance (-(b - a)) := by
  obtain ⟨x, rfl⟩ := left
  obtain ⟨y, rfl⟩ := right
  have scaled (x y : ℝ) : Real.exp x * min 1 (Real.exp (y - x)) = min (Real.exp x) (Real.exp y) := by
    rw [mul_min_of_nonneg _ _ (Real.exp_pos x).le, mul_one, ← Real.exp_add, add_sub_cancel]
  rw [Exact.real_sub, Exact.neg_real, neg_sub, acceptance_real, acceptance_real]
  change Real.exp x * _ = Real.exp y * _
  rw [scaled, scaled, min_comm]

section

variable {κ D : Type} {laws : Densities D Exact} {P : PlainProgram κ D Exact} {s : Store}
  {limit : Option Nat} {t t' : Trace κ D Exact}

private theorem ratio_eq (a b c d : Exact) : a - b + c - d = (a + c) - (b + d) := by
  rw [add_sub_assoc, ← add_sub_add_comm]

/-- A proposal from one state to another has a ratio made of their scores and of the log densities
of proposing either from the other, and there is a proposal back, with the opposite ratio, that
draws what the proposal gave up. Moves accept them so as to leave the states' masses in balance. -/
theorem regenerate_reversible (unique : UniqueAddresses laws P s) (stable : StableSupports laws P s)
    (state : ChainState laws P s limit t) {r : Exact} {fuel : Nat} {w w' : Script laws}
    (returned : (regenerate P.resume fuel t limit : EStateM Failure (Script laws) _) w =
      .ok (some (t', r)) w') :
    ChainState laws P s limit t' ∧ ∃ i c c', BranchesOff t t' i c c' ∧
      let there := redraws i (c'.value :: (absentFrom (t.after i) (t'.after i)).map (·.value))
      let back := redraws i (c.value :: (absentFrom (t'.after i) (t.after i)).map (·.value))
      w.draws = there ++ w'.draws ∧
      r = (t'.score + logProposal t' t i c) - (t.score + logProposal t t' i c') ∧
      Script.Takes laws (fun fuel => regenerate P.resume fuel t' limit) back (some (t, -r)) ∧
      (∀ u, Script.Takes laws (fun fuel => move P.resume fuel t limit) (there ++ [.logUniform u])
          (if Score.less u r then (t', true) else (t, false)) ∧
        Script.Takes laws (fun fuel => move P.resume fuel t' limit) (back ++ [.logUniform u])
          (if Score.less u (-r) then (t, true) else (t', false))) ∧
      ((t.score + logProposal t t' i c').IsReal → (t'.score + logProposal t' t i c).IsReal →
        (t.score + logProposal t t' i c').weight * acceptance r =
          (t'.score + logProposal t' t i c).weight * acceptance (-r)) := by
  obtain ⟨i, v, draws, middle, picked, trailed, proposes, _⟩ := regenerate_proposes
    P.resume_performs (scripted laws P) (fun _ _ => trivial) trivial returned
  obtain ⟨state', c, c', branch, rfl, rfl, ratio, reverse⟩ := proposes.reverses stable unique state
  rw [ratio_eq] at ratio
  have negated : -r = t.score - t'.score + logProposal t t' i c' - logProposal t' t i c := by
    rw [ratio, ratio_eq, neg_sub]
  rw [← negated] at reverse
  obtain ⟨drawn, _⟩ := Script.indexBelow_eq_ok.mp picked
  refine ⟨state', i, c, c', branch, ?_, ratio, reverse.regenerate_eq, ?_, ?_⟩
  · rw [drawn, trailed]
    rfl
  · exact fun u => ⟨proposes.move_eq u, reverse.move_eq u⟩
  · rw [ratio]
    exact acceptance_balances

end

namespace SecondCoin

theorem state (coins : Option Bool) : ChainState fairCoin program .empty none (trace coins) where
  execution := ⟨events coins, .run rfl (runs coins), fines coins, drawables coins⟩
  ends := .inr rfl

theorem apart : (first == second) = false := by
  simp [first, second, Address.extend, Address.root, BEq.beq, Value.beqItems, Value.beq]

theorem second_apart : (second == first) = false := by
  simp [first, second, Address.extend, Address.root, BEq.beq, Value.beqItems, Value.beq]

theorem second_itself : (second == second) = true := by
  simp [second, Address.extend, Address.root, BEq.beq, Value.beqItems, Value.beq]

theorem unique : UniqueAddresses fairCoin program .empty := by
  refine .of_runs rfl fun es T s e runs => ?_
  rcases addresses runs with visited | visited
  · rw [visited]
    exact List.pairwise_singleton ..
  · rw [visited]
    exact List.pairwise_pair.mpr apart

theorem stable : StableSupports fairCoin program .empty :=
  fun _ _ _ _ _ _ _ _ _ _ => Iff.rfl

theorem branch : BranchesOff (trace none) (trace (some true)) 0 (firstChoice false)
    (firstChoice true) :=
  ⟨rfl, rfl, rfl, rfl⟩

theorem there_score : (trace none).score +
    logProposal (trace none) (trace (some true)) 0 (firstChoice true) =
      .real (3 * Real.log 2⁻¹ + 1) := by
  have sites : (Score.logNat 1 : Exact) = .real 0 := by
    change Exact.log (.real ((1 : ℕ) : ℝ)) = _
    norm_num [Exact.log]
  change Score.zero + half + Exact.real 1 + (-(Score.logNat 1) + half + (Score.zero + half)) = _
  rw [sites, Exact.zero_eq, zero_add, half]
  simp only [Exact.real_add, Exact.neg_real]
  congr 1
  ring

theorem back_score : (trace (some true)).score +
    logProposal (trace (some true)) (trace none) 0 (firstChoice false) =
      .real (3 * Real.log 2⁻¹ + 1 - Real.log 2) := by
  have sites : (Score.logNat 2 : Exact) = .real (Real.log 2) := by
    change Exact.log (.real ((2 : ℕ) : ℝ)) = _
    norm_num [Exact.log]
  change Score.zero + half + half + Exact.real 1 + (-(Score.logNat 2) + half + Score.zero) = _
  rw [sites, Exact.zero_eq, zero_add, add_zero, half]
  simp only [Exact.real_add, Exact.neg_real]
  congr 1
  ring

/-- After tails there is no second coin, so that it has to be thrown. -/
theorem proposed : ∃ r, Proposes fairCoin program (Drawable fairCoin) none (trace none) 0
    (.bool true) [.bool true] (trace (some true)) r := by
  have settled : ∀ d ∈ (trace (some true)).after 0, Settled fairCoin ((trace none).after 0) d := by
    intro d later
    exact .inr ⟨takenOver_nowhere rfl, drawables _ d (List.mem_of_mem_drop later)⟩
  exact ⟨_, branch.proposes stable unique (state none) (state (some true)) settled⟩

end SecondCoin

/-- From tails to heads twice the ratio is that of the numbers of sites, and back its inverse. -/
theorem headsTwice_reversible :
    Script.Takes fairCoin
      (fun fuel => regenerate SecondCoin.program.resume fuel (SecondCoin.trace (some true)) none)
      (redraws 0 [.bool false]) (some (SecondCoin.trace none, .real (Real.log 2))) := by
  obtain ⟨r, proposes⟩ := SecondCoin.proposed
  obtain ⟨n, regenerated⟩ := proposes.regenerate_eq
  obtain ⟨_, i, c, c', branch, drawn, ratio, back, _⟩ := regenerate_reversible SecondCoin.unique
    SecondCoin.stable (SecondCoin.state none) (regenerated n le_rfl [])
  have sole : i < 1 := (List.getElem?_eq_some_iff.mp branch.site).1
  obtain rfl : i = 0 := by omega
  obtain rfl : SecondCoin.firstChoice false = c := Option.some.inj branch.site
  obtain rfl : SecondCoin.firstChoice true = c' := Option.some.inj branch.site'
  rw [SecondCoin.there_score, SecondCoin.back_score, Exact.real_sub, sub_sub_cancel_left] at ratio
  rw [ratio, Exact.neg_real, neg_neg] at back
  exact back

end ProbCore
