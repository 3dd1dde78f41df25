import ProbCore.Proofs.FirstFactor
import ProbCore.Proofs.OpeningStates

/-! What a chain over openings compares. A proposal's ratio is that of a plain move, with the likelihood
taken out: the estimates of the inner filters have it again, so that the first factor counts once. This
holds of every program. Infinite scores do not cancel, however. If some come in, then an estimate is no
number, nor is the ratio, and the proposal is refused. -/

namespace ProbCore

open Kernel

namespace Exact

/-- The likelihood is what scores have beyond priors. Its difference is taken out of a ratio of scores, which
leaves that of the priors, unless what is added then is no number. -/
theorem exchange {a a' p p' q z : Exact} (known : (a - p).IsReal ∧ (a' - p').IsReal ∨ z = nan) :
    a' - a + q - ((a' - p') - (a - p)) + z = p' - p + q + z := by
  rcases known with ⟨first, second⟩ | rfl
  · obtain ⟨⟨a, rfl⟩, ⟨p, rfl⟩⟩ := real_of_sub first
    obtain ⟨⟨a', rfl⟩, ⟨p', rfl⟩⟩ := real_of_sub second
    have left : a' - a - ((a' - p') - (a - p)) = p' - p := by ring
    rw [add_sub_right_comm]
    simp only [real_sub, left]
  · rw [add_nan, add_nan]

/-- Taking out a number that the estimates have again. -/
theorem exchange_estimates {r m m' : Exact} (l l' : ℝ) :
    r - (real l' - real l) + (real l' + m' - (real l + m)) = r + (m' - m) := by
  have cancels : -real (l' - l) + real (l' - l) = 0 := by
    rw [neg_real, real_add, neg_add_cancel, real_zero]
  rw [add_sub_add_comm, real_sub, sub_eq_add_neg r, add_assoc, ← add_assoc (-real (l' - l)), cancels, zero_add]

end Exact

namespace OpeningChain

section

variable {σ κ D : Type} [Host (EStateM Failure σ) D Exact] {resume : Resume (EStateM Failure σ) κ D Exact}
  {entry : κ} {s : Store} {fuel : Nat} {c : Config} {st : State κ D Exact} {t t' : Trace κ D Exact}

/-- A move from an opening to another: the log acceptance ratio that a plain chain would compare, and the
densities of the way forth and back that it has. -/
structure Moves (resume : Resume (EStateM Failure σ) κ D Exact) [LawfulHost σ D Exact] (fuel : Nat)
    (t t' : Trace κ D Exact) (plain forth back : Exact) : Prop where
  regenerated : Yields (regenerate resume fuel t (some 1)) (some (t', plain))
  redraws : ∃ i c c' ds out w w', t.choices[i]? = some c ∧
    Redraws resume (some 1) t i w c' ds (.recorded out) w' ∧ t' = out.trace ∧
    forth = proposalScore t.choices.length c'.logDensity out.fresh ∧
    back = proposalScore t'.choices.length c.logDensity
      (Score.sum (dropped (t.choices.drop (i + 1)) out.reused))
  plain : plain = t'.score - t.score + back - forth

/-- The plain ratio of a proposal, and the ratio that a chain over openings has in its place. An opening
without choices is proposed again. -/
inductive Weighs (resume : Resume (EStateM Failure σ) κ D Exact) [LawfulHost σ D Exact] (fuel : Nat)
    (st next : State κ D Exact) : Exact → Exact → Prop where
  | again (nothing : st.opening.choices = []) (same : next.opening = st.opening) :
      Weighs resume fuel st next 0 (next.logMass - st.logMass)
  | moved {plain forth back} (moves : Moves resume fuel st.opening next.opening plain forth back) :
      Weighs resume fuel st next plain
        (next.opening.prior - st.opening.prior + back - forth + (next.logMass - st.logMass))

theorem moves_of_regenerate [LawfulHost σ D Exact] {plain : Exact}
    (yields : Yields (regenerate resume fuel t (some 1)) (some (t', plain))) :
    ∃ forth back, Moves resume fuel t t' plain forth back := by
  obtain ⟨w, w', returned⟩ := yields
  rcases regenerate_redraws returned with ⟨nothing, _⟩ | ⟨i, c, c', ds, verdict, middle, _, site, redraws, same⟩
  · cases nothing
  cases verdict with
  | atChoice d => cases same
  | atFactor x => cases same
  | recorded out =>
    cases same
    exact ⟨_, _, ⟨w, w', returned⟩, ⟨i, c, c', ds, out, middle, w', site, redraws, rfl, rfl, rfl⟩, rfl⟩

variable [SoundHost σ D Exact]

/-- How an opening goes on from its first factor in one round. -/
theorem Opened.goes_on (opened : Opened resume fuel c entry s st) {k : κ}
    (ending : st.opening.ending = .suspended k) (once : st.opening.factors = 1) :
    ∃ y : Exact, (y.IsReal ∨ y = .posInf) ∧ (st.opening.likelihood = y ∨ st.opening.likelihood = .nan) ∧
      (Still resume (Filter.Takes σ) entry s y →
        ∀ q, Yields ((⟨st.opening, 0⟩ : Particle κ D Exact).advance resume fuel) q → q.weight = .negInf ∨
          ∃ t', Yields (extend resume fuel st.opening (some (st.opening.factors + 1))) (some t') ∧
            q = ⟨t', t'.likelihood - st.opening.likelihood⟩ ∧ (t'.likelihood = y ∨ t'.likelihood = .nan)) := by
  obtain ⟨y, fine, score, settles⟩ := opened.made.settles takes_chooses ending (by omega)
  refine ⟨y, fine, ?_, fun still q yields => ?_⟩
  · rw [Trace.likelihood, score]
    exact Exact.add_sub_cases _ fine
  · rcases (⟨st.opening, 0⟩ : Particle κ D Exact).advance_cases yields with
      ⟨finished, _⟩ | ⟨_, ⟨_, rfl⟩ | ⟨t', ran, rfl⟩⟩
    · simp [Particle.finished, Particle.alive, Trace.done, ending] at finished
      cases finished
    · exact .inl rfl
    · refine .inr ⟨t', ran, by rw [zero_add], ?_⟩
      rw [Trace.likelihood, settled_score ((settles still).extend ran)]
      exact Exact.add_sub_cases _ fine

/-- The likelihood of an opening is a number, or the estimate is none. -/
theorem Opened.likelihood_known (opened : Opened resume fuel c entry s st) :
    st.opening.likelihood.IsReal ∨ st.logMass = .nan := by
  obtain ⟨out, estimated⟩ := opened.estimated
  rcases opened.made.likelihood_cases takes_chooses with real | spoilt | ⟨infinite, _⟩
  · exact .inl real
  · exact .inr (by rw [estimated.mass, spoilt, Exact.nan_add])
  rcases opened.ends.limited le_rfl with ⟨_, below⟩ | ⟨⟨k, ending⟩, once⟩
  · rcases opened.made.likelihood_factorless takes_chooses (Nat.lt_one_iff.mp below) with nothing | spoilt
    · rw [infinite] at nothing
      cases nothing
    · rw [infinite] at spoilt
      cases spoilt
  obtain ⟨y, _, likelihood, goes⟩ := opened.goes_on ending once
  obtain rfl : y = .posInf := by
    rcases likelihood with same | same
    · rw [← same, infinite]
    · rw [infinite] at same
      cases same
  -- All particles are infinitely likely too, and what they gain is no number.
  have lost : ∀ q, Yields ((⟨st.opening, 0⟩ : Particle κ D Exact).advance resume fuel) q →
      q.weight = .negInf ∨ q.weight = .nan := by
    intro q yields
    rcases goes still_posInf q yields with dead | ⟨t', _, rfl, same | same⟩
    · exact .inl dead
    · exact .inr (by rw [infinite, same]; rfl)
    · exact .inr (by rw [same, Exact.nan_sub])
  right
  rcases Filter.run_spent (fun q yields => .inr (lost q yields)) estimated.ran with
    spoilt | ⟨⟨q, yields, whole⟩, _⟩
  · rw [estimated.mass, spoilt, Exact.add_nan]
  · rcases lost q yields with dead | dead
    · rw [whole] at dead
      cases dead
    · rw [whole] at dead
      cases dead

/-- After the only factor all that is left of an execution are choices, which have no weight. -/
theorem Opened.spends (opened : Opened resume fuel c entry s st) (only : OnlyFirst resume (Filter.Takes σ) entry s)
    {l : ℝ} (likelihood : st.opening.likelihood = .real l) {q : Particle κ D Exact}
    (yields : Yields ((⟨st.opening, 0⟩ : Particle κ D Exact).advance resume fuel) q) : Filter.Spent q := by
  rcases opened.ends.limited le_rfl with ⟨⟨v, ending⟩, _⟩ | ⟨⟨k, ending⟩, once⟩
  · have done : st.opening.done = true := by rw [Trace.done, ending]
    have finished : (⟨st.opening, 0⟩ : Particle κ D Exact).finished = true := by
      rw [Particle.finished, done, Bool.true_or]
    rw [Particle.advance, if_pos finished] at yields
    rw [yields.pure]
    exact .inl ⟨rfl, done⟩
  obtain ⟨y, _, same | spoilt, goes⟩ := opened.goes_on ending once
  swap
  · rw [likelihood] at spoilt
    cases spoilt
  rcases goes (only.still y) q yields with dead | ⟨t', ran, rfl, settled | spoilt⟩
  · exact .inr (.inl dead)
  · refine .inl ⟨?_, ?_⟩
    · rw [settled, ← same, likelihood, Exact.real_sub, sub_self, Exact.real_zero]
    · rcases extend_once ending ran with ⟨⟨v, complete⟩, _⟩ | ⟨_, twice⟩
      · rw [Trace.done, complete]
      · have few := only.factors_le takes_chooses (opened.made.extend ran)
        omega
  · exact .inr (.inr (by rw [spoilt, Exact.nan_sub]))

/-- The inner filter counts who is left. -/
theorem Opened.counts (opened : Opened resume fuel c entry s st)
    (only : OnlyFirst resume (Filter.Takes σ) entry s) (number : st.logMass ≠ .nan) :
    ∃ l, st.opening.likelihood = .real l ∧ st.population.length ≠ 0 ∧
      st.logMass = .real l + .real (Real.log st.population.length - Real.log c.particles) := by
  obtain ⟨out, estimated⟩ := opened.estimated
  obtain ⟨l, likelihood⟩ := opened.likelihood_known.resolve_right number
  rcases Filter.run_spent (fun q yields => opened.spends only likelihood yields) estimated.ran with
    spoilt | ⟨_, some_left, share⟩
  · rw [estimated.mass, spoilt, Exact.add_nan] at number
    contradiction
  · refine ⟨l, likelihood, ?_, ?_⟩
    · rwa [estimated.left]
    · rw [estimated.mass, likelihood, share, estimated.left]

theorem Opened.likelihood_done (opened : Opened resume fuel c entry s st) (number : st.logMass ≠ .nan)
    (done : st.opening.done = true) : st.opening.likelihood = 0 := by
  obtain ⟨v, ending⟩ := Trace.ending_of_done done
  have none_absorbed : st.opening.factors = 0 := by
    rcases opened.ends.limited le_rfl with ⟨_, below⟩ | ⟨⟨k, suspended⟩, _⟩
    · exact Nat.lt_one_iff.mp below
    · rw [suspended] at ending
      cases ending
  rcases opened.made.likelihood_factorless takes_chooses none_absorbed with nothing | spoilt
  · exact nothing
  · obtain ⟨l, real⟩ := opened.likelihood_known.resolve_right number
    rw [spoilt] at real
    cases real

variable [LawfulHost σ D Exact] {next : State κ D Exact} {r : Exact}

/-- A proposal takes the likelihood out of the plain ratio, and the estimates have it again. -/
theorem Opened.weighs (opened : Opened resume fuel c entry s st) (opened' : Opened resume fuel c entry s next)
    (proposed : Yields (propose resume fuel st.opening) (some (next.opening, r))) :
    ∃ plain, Weighs resume fuel st next plain (r + (next.logMass - st.logMass)) ∧
      (st.opening.likelihood.IsReal → r = plain - (next.opening.likelihood - st.opening.likelihood)) := by
  rcases propose_cases proposed with ⟨nothing, same, rfl⟩ | ⟨plain, regenerated, rfl⟩
  · refine ⟨0, ?_, ?_⟩
    · rw [Exact.zero_eq, zero_add]
      exact .again nothing same
    · rintro ⟨l, likelihood⟩
      rw [same, likelihood, Exact.real_sub, sub_self, Exact.real_zero, sub_zero, Exact.zero_eq]
  · obtain ⟨forth, back, moves⟩ := moves_of_regenerate regenerated
    refine ⟨plain, ?_, fun _ => rfl⟩
    have known : st.opening.likelihood.IsReal ∧ next.opening.likelihood.IsReal ∨
        next.logMass - st.logMass = .nan := by
      rcases opened.likelihood_known with real | spoilt
      · rcases opened'.likelihood_known with real' | spoilt
        · exact .inl ⟨real, real'⟩
        · exact .inr (by rw [spoilt, Exact.nan_sub])
      · exact .inr (by rw [spoilt, Exact.sub_nan])
    have counted : plain - (next.opening.likelihood - st.opening.likelihood) + (next.logMass - st.logMass) =
        next.opening.prior - st.opening.prior + back - forth + (next.logMass - st.logMass) := by
      rw [moves.plain, add_sub_assoc _ back, add_sub_assoc _ back]
      exact Exact.exchange known
    rw [counted]
    exact .moved moves

/-- The ratio of a chain over openings, for any program. A sweep decides by it as soon as there is a proposal
whose inner filter leaves someone. It has the densities of choices, those of the proposal, and the estimates,
in which the first factor counts once. If it is a number at all, then openings that are complete have no
likelihood, and it is the plain ratio with the gain of the inner filters. If there is no other factor than
the first, that gain is just in how many particles they leave, and there is none if they leave equally many. -/
theorem ratio_counts_once (resume : Resume (EStateM Failure σ) κ D Exact) (entry : κ) (s : Store) (fuel : Nat)
    (c : Config) :
    (∀ st st' accepted, Yields (sweep resume fuel c st) (st', accepted) → Turn resume fuel c st st' accepted) ∧
    ∀ st next ratio, Visited resume fuel c entry s st → Poses resume fuel c st next ratio →
      ∃ plain out out', Estimated resume fuel c st out ∧ Estimated resume fuel c next out' ∧
        Weighs resume fuel st next plain ratio ∧
        (ratio ≠ .nan →
          (st.opening.done = true → st.opening.likelihood = 0) ∧
          (next.opening.done = true → next.opening.likelihood = 0) ∧
          ratio = plain + (out'.logMass - out.logMass) ∧
          (OnlyFirst resume (Filter.Takes σ) entry s →
            ratio = plain + (Score.logNat next.population.length - Score.logNat st.population.length) ∧
            (next.population.length = st.population.length → ratio = plain))) := by
  refine ⟨fun st st' accepted => sweep_turn, fun st next ratio visited poses => ?_⟩
  have opened := visited.opened
  have opened' := opened.posed poses
  obtain ⟨⟨r, proposed, rfl⟩, _⟩ := poses
  obtain ⟨out, estimated⟩ := opened.estimated
  obtain ⟨out', estimated'⟩ := opened'.estimated
  obtain ⟨plain, weighs, taken_out⟩ := opened.weighs opened' proposed
  refine ⟨plain, out, out', estimated, estimated', weighs, fun number => ?_⟩
  have before : st.logMass ≠ .nan := by
    intro spoilt
    rw [spoilt, Exact.sub_nan, Exact.add_nan] at number
    exact number rfl
  have after : next.logMass ≠ .nan := by
    intro spoilt
    rw [spoilt, Exact.nan_sub, Exact.add_nan] at number
    exact number rfl
  obtain ⟨l, likelihood⟩ := opened.likelihood_known.resolve_right before
  obtain ⟨l', likelihood'⟩ := opened'.likelihood_known.resolve_right after
  refine ⟨opened.likelihood_done before, opened'.likelihood_done after, ?_, fun only => ?_⟩
  · rw [taken_out ⟨l, likelihood⟩, estimated.mass, estimated'.mass, likelihood, likelihood',
      Exact.exchange_estimates]
  · obtain ⟨_, same, some_left, counted⟩ := opened.counts only before
    obtain ⟨_, same', some_left', counted'⟩ := opened'.counts only after
    rw [taken_out ⟨l, likelihood⟩, counted, counted', same, same', Exact.exchange_estimates,
      Exact.logNat_eq some_left, Exact.logNat_eq some_left', Exact.real_sub, Exact.real_sub,
      sub_sub_sub_cancel_right]
    refine ⟨rfl, fun even => ?_⟩
    rw [even, sub_self, Exact.real_zero, add_zero]

end

namespace Forked

open SecondCoin (first second hashable)

/-- A side is level with the other, sharp beyond all bounds, or the only one that comes up. -/
inductive Coin where
  | level
  | sharp
  | loaded

noncomputable def laws : Densities Coin Exact where
  enumerable _ := true
  support _ := .ok [.bool false, .bool true]
  logDensity
    | .sharp, _ => .ok .posInf
    | .loaded, .bool false => .ok .negInf
    | _, _ => .ok 0

/-- After tails there is one factor, and a coin after that. After heads there is none, and the second coin is
sharp. -/
noncomputable def program : PlainProgram Nat Coin Exact where
  entry := 0
  next
    | 0, s, _ => .ok (.sample s 1 first .level)
    | 1, s, .bool true => .ok (.sample s 3 second .sharp)
    | 1, s, _ => .ok (.sample s 2 second .level)
    | 2, s, _ => .ok (.factor s 4 .root 0)
    | 4, s, _ => .ok (.sample s 5 .root .loaded)
    | _, s, v => .ok (.exit s v)

section

variable {σ : Type} [Host (EStateM Failure σ) Coin Exact] [LawfulHost σ Coin Exact]

variable (σ) in
noncomputable abbrev resume : Resume (EStateM Failure σ) Nat Coin Exact := program.resume

noncomputable def tails : Recording Nat Coin Exact :=
  (Recording.draw ⟨[], Score.zero, Score.zero, 0, [], Score.zero⟩ 0).record .empty 1 first .level (.bool false) 0

/-- Tails twice, and the factor. -/
noncomputable def opened : Recorded Nat Coin Exact :=
  ((((tails.draw 0).record .empty 2 second .level (.bool false) 0).absorb 0).finish .empty (.suspended 4))

/-- The same, and the last coin, which is heads for sure. -/
noncomputable def ended : Recorded Nat Coin Exact :=
  (((⟨opened.trace.choices.reverse, opened.trace.score, opened.trace.prior, opened.trace.factors, [],
    Score.zero⟩ : Recording Nat Coin Exact).draw 0).record .empty 5 .root .loaded (.bool true) 0).finish .empty
      (.done (.bool true))

/-- The particle that ends with heads. -/
noncomputable def left : Particle Nat Coin Exact :=
  ⟨ended.trace, 0 + (ended.trace.likelihood - opened.trace.likelihood)⟩

theorem opens (lawful : LawfulHost.densities σ = laws) {w w₁ w₂ : σ}
    (toss : (Host.draw .level : EStateM Failure σ Value) w = .ok (.bool false) w₁)
    (again : (Host.draw .level : EStateM Failure σ Value) w₁ = .ok (.bool false) w₂) :
    simulate (resume σ) 4 0 .empty (some 1) w = .ok (some opened.trace) w₂ := by
  have weighs : (LawfulHost.densities σ).logDensity .level (.bool false) = .ok 0 := by
    rw [lawful]
    rfl
  refine bind_eq_ok.mpr ⟨.sample .empty 1 first .level, w, rfl, ?_⟩
  refine bind_eq_ok.mpr ⟨some opened, w₂, ?_, rfl⟩
  refine bind_eq_ok.mpr ⟨_, w₁, samples_drawn (hashable (.inl rfl)) rfl toss weighs, ?_⟩
  refine bind_eq_ok.mpr ⟨.sample .empty 2 second .level, w₁, rfl, ?_⟩
  refine bind_eq_ok.mpr ⟨_, w₂, samples_drawn (hashable (.inr rfl)) rfl again weighs, ?_⟩
  exact bind_eq_ok.mpr ⟨.factor .empty 4 .root 0, w₂, rfl, rfl⟩

theorem ends (lawful : LawfulHost.densities σ = laws) {w w' : σ}
    (toss : (Host.draw .loaded : EStateM Failure σ Value) w = .ok (.bool true) w') :
    (⟨opened.trace, 0⟩ : Particle Nat Coin Exact).advance (resume σ) 4 w =
      .ok left w' := by
  have weighs : (LawfulHost.densities σ).logDensity .loaded (.bool true) = .ok 0 := by
    rw [lawful]
    rfl
  refine bind_eq_ok.mpr ⟨some ended.trace, w', ?_, rfl⟩
  refine bind_eq_ok.mpr ⟨.sample .empty 5 .root .loaded, w, rfl, ?_⟩
  refine bind_eq_ok.mpr ⟨some ended, w', ?_, rfl⟩
  refine bind_eq_ok.mpr ⟨_, w', samples_drawn rfl rfl toss weighs, ?_⟩
  exact bind_eq_ok.mpr ⟨.exit .empty (.bool true), w', rfl, rfl⟩

theorem loses (lawful : LawfulHost.densities σ = laws) {w w' : σ}
    (toss : (Host.draw .loaded : EStateM Failure σ Value) w = .ok (.bool false) w') :
    (⟨opened.trace, 0⟩ : Particle Nat Coin Exact).advance (resume σ) 4 w = .ok ⟨opened.trace, .negInf⟩ w' := by
  have weighs : (LawfulHost.densities σ).logDensity .loaded (.bool false) = .ok .negInf := by
    rw [lawful]
    rfl
  refine bind_eq_ok.mpr ⟨none, w', ?_, rfl⟩
  refine bind_eq_ok.mpr ⟨.sample .empty 5 .root .loaded, w, rfl, ?_⟩
  refine bind_eq_ok.mpr ⟨none, w', ?_, rfl⟩
  exact bind_eq_ok.mpr ⟨.finish none, w', samples_drawn rfl rfl toss weighs, rfl⟩

noncomputable def site : Choice Nat Coin Exact :=
  ⟨first, .level, .bool false, 0, 1, .empty, Score.zero, Score.zero, 0⟩

noncomputable def redrawn (b : Bool) : Recording Nat Coin Exact := siteTape opened.trace 0 site (.bool b) 0

/-- Tails again at the first coin. The second one is kept. -/
noncomputable def again : Recorded Nat Coin Exact :=
  (((((redrawn false).keep second).record .empty 2 second .level (.bool false) 0).absorb 0).finish .empty
    (.suspended 4))

/-- Heads at the first coin. The side that is kept of the second one is sharp now. -/
noncomputable def sharpened : Recorded Nat Coin Exact :=
  (((redrawn true).keep second).record .empty 3 second .sharp (.bool false) .posInf).finish .empty
    (.done (.bool false))

theorem keeps (b : Bool) (d : Coin) :
    carried laws (some opened.trace) (redrawn b).reused second d = .ok (some (.bool false)) := by
  have found : opened.trace.choiceAt? second =
      some ⟨second, .level, .bool false, 0, 2, .empty, Score.zero + 0, Score.zero + 0, 0⟩ := by
    rw [Trace.choiceAt?]
    refine (List.find?_cons_of_neg ?_).trans (List.find?_cons_of_pos SecondCoin.second_itself)
    exact Bool.eq_false_iff.mp SecondCoin.apart
  have unspent : (redrawn b).reused.contains second = false := by
    change [first].contains second = false
    simp [SecondCoin.second_apart]
  have accepted : laws.accepts d (.bool false) = .ok true := congrArg Except.ok (bools_contain false)
  rw [carried, Option.bind_some, found]
  dsimp only
  rw [unspent, accepted]
  rfl

theorem none_dropped : dropped (opened.trace.choices.drop 1) [second, first] = [] := by
  change dropped [_] [second, first] = []
  simp [dropped, SecondCoin.second_itself]

theorem again_ratio : logRatio opened.trace 0 site 0 again = 0 := by
  rw [logRatio, show again.reused = [second, first] from rfl, none_dropped]
  change Score.zero + 0 + 0 + 0 - (Score.zero + 0 + 0 + 0) + (-(Score.logNat 2) + 0 + Score.zero) -
    (-(Score.logNat 2) + 0 + Score.zero) = (0 : Exact)
  rw [Exact.logNat_eq two_ne_zero, Exact.zero_eq]
  simp only [add_zero, sub_zero, zero_add, Exact.neg_real, Exact.real_sub, sub_self, Exact.real_zero]

theorem sharpened_ratio : logRatio opened.trace 0 site 0 sharpened = .posInf := by
  rw [logRatio, show sharpened.reused = [second, first] from rfl, none_dropped]
  change Score.zero + 0 + .posInf - (Score.zero + 0 + 0 + 0) + (-(Score.logNat 2) + 0 + Score.zero) -
    (-(Score.logNat 2) + 0 + Score.zero) = Exact.posInf
  rw [Exact.logNat_eq two_ne_zero]
  rfl

theorem regenerates (lawful : LawfulHost.densities σ = laws) {b : Bool} {k : Nat} {d : Coin}
    (out : Recorded Nat Coin Exact) {w w₁ w₂ : σ}
    (picked : (Host.indexBelow 2 : EStateM Failure σ Nat) w = .ok 0 w₁)
    (toss : (Host.draw .level : EStateM Failure σ Value) w₁ = .ok (.bool b) w₂)
    (goes : program.next 1 .empty (.bool b) = .ok (.sample .empty k second d))
    (driven : drive (resume σ) (handler (some 1) (some opened.trace)) 4 (redrawn b)
      (.sample .empty k second d) w₂ = .ok (some out) w₂) :
    regenerate (resume σ) 4 opened.trace (some 1) w =
      .ok (some (out.trace, logRatio opened.trace 0 site 0 out)) w₂ := by
  have weighs : (Host.logDensity Coin.level (.bool b) : EStateM Failure σ Exact) w₂ = .ok 0 w₂ := by
    rw [logDensity_eq_ok, lawful]
    exact ⟨rfl, rfl⟩
  refine bind_eq_ok.mpr ⟨0, w₁, picked, ?_⟩
  refine bind_eq_ok.mpr ⟨.bool b, w₂, toss, ?_⟩
  refine bind_eq_ok.mpr ⟨0, w₂, weighs, ?_⟩
  refine bind_eq_ok.mpr ⟨.sample .empty k second d, w₂, lift_eq_ok.mpr ⟨goes, rfl⟩, ?_⟩
  exact bind_eq_ok.mpr ⟨some out, w₂, driven, rfl⟩

theorem regenerates_again (lawful : LawfulHost.densities σ = laws) {w w₁ w₂ : σ}
    (picked : (Host.indexBelow 2 : EStateM Failure σ Nat) w = .ok 0 w₁)
    (toss : (Host.draw .level : EStateM Failure σ Value) w₁ = .ok (.bool false) w₂) :
    regenerate (resume σ) 4 opened.trace (some 1) w = .ok (some (opened.trace, 0)) w₂ := by
  rw [← again_ratio]
  refine regenerates lawful again picked toss rfl ?_
  have carries := keeps false .level
  rw [← lawful] at carries
  have weighs : (LawfulHost.densities σ).logDensity .level (.bool false) = .ok 0 := by
    rw [lawful]
    rfl
  refine bind_eq_ok.mpr ⟨_, w₂, samples_kept (hashable (.inr rfl)) carries weighs, ?_⟩
  exact bind_eq_ok.mpr ⟨.factor .empty 4 .root 0, w₂, rfl, rfl⟩

theorem regenerates_sharpened (lawful : LawfulHost.densities σ = laws) {w w₁ w₂ : σ}
    (picked : (Host.indexBelow 2 : EStateM Failure σ Nat) w = .ok 0 w₁)
    (toss : (Host.draw .level : EStateM Failure σ Value) w₁ = .ok (.bool true) w₂) :
    regenerate (resume σ) 4 opened.trace (some 1) w = .ok (some (sharpened.trace, .posInf)) w₂ := by
  rw [← sharpened_ratio]
  refine regenerates lawful sharpened picked toss rfl ?_
  have carries := keeps true .sharp
  rw [← lawful] at carries
  have weighs : (LawfulHost.densities σ).logDensity .sharp (.bool false) = .ok .posInf := by
    rw [lawful]
    rfl
  refine bind_eq_ok.mpr ⟨_, w₂, samples_kept (hashable (.inr rfl)) carries weighs, ?_⟩
  exact bind_eq_ok.mpr ⟨.exit .empty (.bool false), w₂, rfl, rfl⟩

theorem opened_likelihood : opened.trace.likelihood = 0 := by
  change Score.zero + 0 + 0 + 0 - (Score.zero + 0 + 0) = (0 : Exact)
  simp only [Exact.zero_eq, add_zero, sub_zero]

theorem left_weight : left.weight = 0 := by
  have same : ended.trace.likelihood = 0 := by
    change opened.trace.score + 0 - (opened.trace.prior + 0) = (0 : Exact)
    rw [add_zero, add_zero]
    exact opened_likelihood
  change 0 + (ended.trace.likelihood - opened.trace.likelihood) = (0 : Exact)
  rw [same, opened_likelihood, sub_zero, add_zero]

theorem left_alive : left.alive = true := by
  rw [Particle.alive, left_weight]
  rfl

def config (n : Nat) : Config := ⟨n, 1, .count 1⟩

/-- The state that a run of the inner filter leaves. -/
noncomputable def leaves (t : Trace Nat Coin Exact) (out : Filter.Outcome Nat Coin Exact) : State Nat Coin Exact :=
  ⟨t, t.likelihood + out.logMass, out.survivors⟩

/-- A run of the inner filter from an opening. -/
def Runs (n : Nat) (t : Trace Nat Coin Exact) (w : σ) (out : Filter.Outcome Nat Coin Exact) (w' : σ) : Prop :=
  Filter.run (resume σ) 4 (config n).filter (List.replicate n ⟨t, Score.zero⟩) w = .ok out w'

theorem runs {n : Nat} {t : Trace Nat Coin Exact} {qs : List (Particle Nat Coin Exact)} {mean : Exact} {w w' : σ}
    (advanced : (List.replicate n ⟨t, 0⟩).mapM (Particle.advance (resume σ) 4) w = .ok qs w')
    (finished : qs.all Particle.finished = true) (known : Particle.logMeanWeight qs = .ok mean) :
    ∃ out, Runs n t w out w' ∧ out.logMass = mean ∧ out.survivors = qs.filter Particle.alive := by
  unfold Runs
  rw [Exact.zero_eq]
  exact Filter.run_once advanced finished known

/-- A host whose coins these are, and which runs inner strategies as it is. -/
structure Serves (σ : Type) [Host (EStateM Failure σ) Coin Exact] [LawfulHost σ Coin Exact] : Prop where
  lawful : LawfulHost.densities σ = laws
  nested {α : Type} (act : EStateM Failure σ α) : Host.nested act = act
  whole {α : Type} {act : EStateM Failure σ α} {a : α} {w w' : σ} :
    act w = .ok a w' → Host.unlessDegenerate act w = .ok (some a) w'
  noted (n : Notice) (w : σ) : (Host.note n : EStateM Failure σ Unit) w = .ok () w

variable {n : Nat} {t' : Trace Nat Coin Exact} {out out' : Filter.Outcome Nat Coin Exact}

theorem completes (serves : Serves σ) {t : Trace Nat Coin Exact} {w w' : σ} (ran : Runs n t w out w') :
    complete (resume σ) 4 (config n) t w = .ok ((leaves t out).logMass, (leaves t out).population) w' := by
  unfold complete
  rw [serves.nested]
  exact bind_eq_ok.mpr ⟨out, w', ran, rfl⟩

theorem visited (serves : Serves σ) {w w₁ w₂ w₃ : σ}
    (toss : (Host.draw .level : EStateM Failure σ Value) w = .ok (.bool false) w₁)
    (again : (Host.draw .level : EStateM Failure σ Value) w₁ = .ok (.bool false) w₂)
    (ran : Runs n opened.trace w₂ out w₃) :
    Visited (resume σ) 4 (config n) 0 .empty (leaves opened.trace out) := by
  have likely : Score.less Score.impossible opened.trace.score = true := rfl
  have found : findStart (resume σ) 4 0 .empty (some 1) (.count 1) w = .ok opened.trace w₂ := by
    refine bind_eq_ok.mpr ⟨some opened.trace, w₂, opens serves.lawful toss again, ?_⟩
    dsimp only
    rw [if_pos likely]
    exact bind_eq_ok.mpr ⟨(), w₂, serves.noted _ _, rfl⟩
  refine .start ⟨w, w₃, bind_eq_ok.mpr ⟨opened.trace, w₂, found, ?_⟩⟩
  exact bind_eq_ok.mpr ⟨_, w₃, serves.whole (completes serves ran), rfl⟩

theorem poses (serves : Serves σ) {plain : Exact}
    (regenerated : Yields (regenerate (resume σ) 4 opened.trace (some 1)) (some (t', plain)))
    {w w' : σ} (ran : Runs n t' w out' w') :
    Poses (resume σ) 4 (config n) (leaves opened.trace out) (leaves t' out')
      (plain - t'.likelihood + (t'.likelihood + out'.logMass - out.logMass)) := by
  obtain ⟨v, v', returned⟩ := regenerated
  refine ⟨⟨plain - (t'.likelihood - opened.trace.likelihood), ⟨v, v', ?_⟩, ?_⟩, ⟨w, w', completes serves ran⟩⟩
  · exact bind_eq_ok.mpr ⟨some (t', plain), v', returned, rfl⟩
  · change _ = plain - (t'.likelihood - opened.trace.likelihood) +
      (t'.likelihood + out'.logMass - (opened.trace.likelihood + out.logMass))
    rw [opened_likelihood, sub_zero, zero_add]

theorem steps {k : Nat} {s : Store} {u : Value} {step : Step Nat Coin Exact}
    (goes : Yields (resume σ k s u) step) :
    (∃ s' k' a d, step = .sample s' k' a d ∧ (k' ≤ 3 → k ≤ 1)) ∨ k = 2 ∧ step = .factor s 4 .root 0 ∨
      step = .exit s u := by
  obtain ⟨w, w', returned⟩ := goes
  have known := (lift_eq_ok.mp returned).1
  unfold program at known
  dsimp only at known
  split at known
  all_goals
    cases known
    simp

theorem absorbs_nothing {chosen : Coin → Value → Prop} {cs : List (Address × Coin × Value)} {xs : List Exact}
    {k : Nat} {s : Store} {u : Value} (reaches : Reaches (resume σ) chosen 0 .empty cs xs k s u)
    (early : k ≤ 3) : xs = [] := by
  induction reaches with
  | start => rfl
  | choose before goes choice ih =>
    rcases steps goes with ⟨_, _, _, _, same, earlier⟩ | ⟨_, same⟩ | same
    · cases same
      exact ih (by have := earlier early; omega)
    · cases same
    · cases same
  | absorb before goes ih =>
    rcases steps goes with ⟨_, _, _, _, same, _⟩ | ⟨rfl, same⟩ | same
    · cases same
    · cases same
      contradiction
    · cases same

theorem only_first {chosen : Coin → Value → Prop} : OnlyFirst (resume σ) chosen 0 .empty := by
  rintro cs xs s' k a x ⟨k', s, u, reaches, goes⟩
  rcases steps goes with ⟨_, _, _, _, same, _⟩ | ⟨rfl, same⟩ | same
  · cases same
  · exact absorbs_nothing reaches (by decide)
  · cases same

end

theorem careful_serves : Serves (Careful laws) where
  lawful := rfl
  nested _ := rfl
  whole {α act a w w'} ran := by
    change Script.unlessDegenerate act w = _
    simp only [Script.unlessDegenerate, ran]
    rfl
  noted _ _ := rfl

theorem script_serves : Serves (Script laws) where
  lawful := rfl
  nested _ := rfl
  whole {α act a w w'} ran := by
    change Script.unlessDegenerate act w = _
    simp only [Script.unlessDegenerate, ran]
  noted _ _ := rfl

theorem level_listed (b : Bool) : Listed laws .level (.bool b) := ⟨_, 0, rfl, by cases b <;> simp, rfl, rfl⟩

theorem scripted {d : Coin} {b : Bool} {rest : List (Draw Exact)} :
    (Host.draw d : EStateM Failure (Script laws) Value) ⟨.value (.bool b) :: rest⟩ = .ok (.bool b) ⟨rest⟩ :=
  Script.draw_eq_ok.mpr ⟨rfl, congrArg Except.ok (bools_contain b)⟩

theorem loaded_listed : Listed laws .loaded (.bool true) := ⟨_, 0, rfl, by simp, rfl, rfl⟩

theorem runs_pair {t : Trace Nat Coin Exact} (p q : Particle Nat Coin Exact) {mean : Exact}
    {w w₁ w₂ : Script laws}
    (first : (⟨t, 0⟩ : Particle Nat Coin Exact).advance (resume (Script laws)) 4 w = .ok p w₁)
    (second : (⟨t, 0⟩ : Particle Nat Coin Exact).advance (resume (Script laws)) 4 w₁ = .ok q w₂)
    (finished : [p, q].all Particle.finished = true) (known : Particle.logMeanWeight [p, q] = .ok mean) :
    ∃ out, Runs 2 t w out w₂ ∧ out.logMass = mean ∧ out.survivors = [p, q].filter Particle.alive := by
  refine runs ?_ finished known
  rw [List.replicate_succ, List.replicate_one, List.mapM_cons, List.mapM_cons]
  exact bind_eq_ok.mpr ⟨p, w₁, first, bind_eq_ok.mpr ⟨[q], w₂, bind_eq_ok.mpr ⟨q, w₂, second, rfl⟩, rfl⟩⟩

/-- Both particles end with heads. -/
theorem runs_whole : ∃ out,
    Runs 2 opened.trace (⟨[.value (.bool true), .value (.bool true)]⟩ : Script laws) out ⟨[]⟩ ∧
      out.logMass = 0 ∧ out.survivors ≠ [] := by
  have mean : Particle.logMeanWeight [left, left] = .ok 0 :=
    Filter.logMeanWeight_same (List.cons_ne_nil left [left]) fun p member => by
      rcases List.mem_pair.mp member with rfl | rfl
      · exact left_weight
      · exact left_weight
  obtain ⟨out, ran, mass, survivors⟩ := runs_pair left left (ends rfl scripted) (ends rfl scripted) rfl mean
  refine ⟨out, ran, mass, ?_⟩
  rw [survivors, List.filter_cons_of_pos left_alive]
  exact List.cons_ne_nil left _

/-- One particle ends with heads, and the other is lost. -/
theorem runs_halved : ∃ out,
    Runs 2 opened.trace (⟨[.value (.bool true), .value (.bool false)]⟩ : Script laws) out ⟨[]⟩ ∧
      out.logMass = .real (-Real.log 2) ∧ out.survivors ≠ [] := by
  let lost : Particle Nat Coin Exact := ⟨opened.trace, .negInf⟩
  have one_left : [left, lost].filter Particle.alive = [left] := by
    rw [List.filter_cons_of_pos left_alive]
    rfl
  have mean : Particle.logMeanWeight [left, lost] = .ok (.real (-Real.log 2)) := by
    rw [Filter.logMeanWeight_spent, one_left]
    · simp
    · exact List.forall_mem_cons.mpr ⟨.inl left_weight, List.forall_mem_singleton.mpr (.inr rfl)⟩
    · rw [one_left]
      exact Nat.one_ne_zero
  obtain ⟨out, ran, mass, survivors⟩ := runs_pair left lost (ends rfl scripted) (loses rfl scripted) rfl mean
  refine ⟨out, ran, mass, ?_⟩
  rw [survivors, one_left]
  exact List.cons_ne_nil left []

/-- An opening that is complete is left as it is. -/
theorem runs_sharpened : ∃ out, Runs 2 sharpened.trace (⟨[]⟩ : Script laws) out ⟨[]⟩ ∧
    out.logMass = 0 ∧ out.survivors ≠ [] := by
  let whole : Particle Nat Coin Exact := ⟨sharpened.trace, 0⟩
  have mean : Particle.logMeanWeight [whole, whole] = .ok 0 :=
    Filter.logMeanWeight_same (List.cons_ne_nil whole [whole]) fun p member => by
      rcases List.mem_pair.mp member with rfl | rfl
      · rfl
      · rfl
  have stays (w : Script laws) : whole.advance (resume (Script laws)) 4 w = .ok whole w := rfl
  obtain ⟨out, ran, mass, survivors⟩ := runs_pair whole whole (stays ⟨[]⟩) (stays ⟨[]⟩) rfl mean
  refine ⟨out, ran, mass, ?_⟩
  rw [survivors]
  exact List.cons_ne_nil whole [whole]

end Forked

open Forked in
/-- Tails are proposed again. One particle ends with heads before and after, and the ratio is the plain one. -/
theorem tails_proposed : ∃ st next ratio plain,
    Visited (resume (Careful laws)) 4 (config 1) 0 .empty st ∧
    Poses (resume (Careful laws)) 4 (config 1) st next ratio ∧ ratio ≠ .nan ∧
    OnlyFirst (resume (Careful laws)) (Filter.Takes (Careful laws)) 0 .empty ∧
    Weighs (resume (Careful laws)) 4 st next plain ratio ∧ ratio = plain := by
  have mean : Particle.logMeanWeight [left] = .ok (.real 0) :=
    Filter.logMeanWeight_same (List.cons_ne_nil left []) fun p member => by
      rw [List.mem_singleton.mp member, left_weight, Exact.real_zero]
  have advanced : (List.replicate 1 ⟨opened.trace, 0⟩).mapM (Particle.advance (resume (Careful laws)) 4)
      ⟨[.value (.bool true)]⟩ = .ok [left] ⟨[]⟩ := by
    rw [List.replicate_one, List.mapM_cons]
    exact bind_eq_ok.mpr ⟨left, _, ends rfl (Careful.draw_eq_ok.mpr ⟨rfl, loaded_listed⟩), rfl⟩
  obtain ⟨out, ran, mass, survivors⟩ := runs advanced rfl mean
  have tossed {rest : List (Draw Exact)} : (Host.draw .level : EStateM Failure (Careful laws) Value)
      ⟨.value (.bool false) :: rest⟩ = .ok (.bool false) ⟨rest⟩ :=
    Careful.draw_eq_ok.mpr ⟨rfl, level_listed false⟩
  have begins := visited careful_serves tossed tossed ran
  have again : Yields (regenerate (resume (Careful laws)) 4 opened.trace (some 1)) (some (opened.trace, 0)) :=
    ⟨⟨[.index 0, .value (.bool false)]⟩, ⟨[]⟩, regenerates_again rfl rfl tossed⟩
  have posed : Poses (resume (Careful laws)) 4 (config 1) (leaves opened.trace out) (leaves opened.trace out) _ :=
    poses careful_serves again ran
  have number : 0 - opened.trace.likelihood + (opened.trace.likelihood + out.logMass - out.logMass) ≠ .nan := by
    rw [opened_likelihood, mass, zero_add, sub_zero, zero_add, Exact.real_sub]
    exact nofun
  obtain ⟨plain, _, _, _, _, weighs, known⟩ := (ratio_counts_once _ _ _ _ _).2 _ _ _ begins posed
  exact ⟨_, _, _, plain, begins, posed, number, only_first, weighs,
    ((known number).2.2.2 only_first).2 rfl⟩

open Forked in
/-- From one state, with two particles that both end with heads. Tails are proposed again, one particle is lost,
and the ratio is not the plain one though there is no other factor. Heads are proposed, with a sharp side. The
inner filters gain nothing, and the ratio is no number where the plain one is infinite. -/
theorem tails_and_heads_differ : OnlyFirst (resume (Script laws)) (Filter.Takes (Script laws)) 0 .empty ∧
    ∃ st out, Visited (resume (Script laws)) 4 (config 2) 0 .empty st ∧ st.population ≠ [] ∧
      Estimated (resume (Script laws)) 4 (config 2) st out ∧ out.logMass = 0 ∧
      (∃ next ratio, Poses (resume (Script laws)) 4 (config 2) st next ratio ∧ next.population ≠ [] ∧
        Yields (regenerate (resume (Script laws)) 4 st.opening (some 1)) (some (next.opening, 0)) ∧ ratio ≠ 0) ∧
      ∃ next ratio out', Poses (resume (Script laws)) 4 (config 2) st next ratio ∧ next.population ≠ [] ∧
        Yields (regenerate (resume (Script laws)) 4 st.opening (some 1)) (some (next.opening, .posInf)) ∧
        Estimated (resume (Script laws)) 4 (config 2) next out' ∧ out'.logMass = 0 ∧
        next.opening.done = true ∧ next.opening.likelihood ≠ 0 ∧
        ratio ≠ .posInf + (out'.logMass - out.logMass) := by
  obtain ⟨out, ran, mass, some_left⟩ := runs_whole
  obtain ⟨out₁, ran₁, mass₁, some_left₁⟩ := runs_halved
  obtain ⟨out₂, ran₂, mass₂, some_left₂⟩ := runs_sharpened
  have again : Yields (regenerate (resume (Script laws)) 4 opened.trace (some 1)) (some (opened.trace, 0)) :=
    ⟨⟨[.index 0, .value (.bool false)]⟩, ⟨[]⟩, regenerates_again rfl rfl scripted⟩
  have sharper : Yields (regenerate (resume (Script laws)) 4 opened.trace (some 1))
      (some (sharpened.trace, .posInf)) :=
    ⟨⟨[.index 0, .value (.bool true)]⟩, ⟨[]⟩, regenerates_sharpened rfl rfl scripted⟩
  have spoilt : sharpened.trace.likelihood = .nan := rfl
  refine ⟨only_first, leaves opened.trace out, out, visited script_serves scripted scripted ran, some_left,
    ⟨⟨_, _, ran⟩, rfl, rfl⟩, mass, ?_, ?_⟩
  · refine ⟨leaves opened.trace out₁, _, poses script_serves again ran₁, some_left₁, again, ?_⟩
    rw [opened_likelihood, mass, mass₁, sub_zero, zero_add, zero_add, sub_zero]
    intro same
    have positive := Real.log_pos one_lt_two
    have := Exact.real.inj same
    linarith
  · refine ⟨leaves sharpened.trace out₂, _, out₂, poses script_serves sharper ran₂, some_left₂, sharper,
      ⟨⟨_, _, ran₂⟩, rfl, rfl⟩, mass₂, rfl, ?_, ?_⟩
    · exact fun same => nomatch spoilt.symm.trans same
    · rw [spoilt, Exact.sub_nan, Exact.nan_add, mass, mass₂, sub_zero, add_zero]
      exact nofun

end OpeningChain

end ProbCore
