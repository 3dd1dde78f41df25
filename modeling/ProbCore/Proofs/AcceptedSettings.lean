import ProbCore.Strategy.Method

/-! The settings that options make. Whatever the options, they are refused or make settings
within the bounds that strategies rely on. -/

namespace ProbCore.Options

variable {os : Options} {st : Strategy Float}

theorem bind_ok {α β : Type} {x : Except Failure α} {f : α → Except Failure β} {b : β}
    (succeeds : (x >>= f) = .ok b) : ∃ a, x = .ok a ∧ f a = .ok b := by
  cases x with
  | error e => cases succeeds
  | ok a => exact ⟨a, rfl, succeeds⟩

theorem atLeastOne_ok {name : String} {given : Given Int} {n : Given Nat}
    (allowed : atLeastOne name given = .ok n) : 1 ≤ n.val ∧ n.val = given.val.toNat := by
  unfold atLeastOne at allowed
  split at allowed
  · cases allowed
  · cases allowed
    dsimp only
    omega

theorem enumerate_accepted (configured : os.enumerate = .ok st) : st.Accepted := by
  obtain ⟨_, _, configured⟩ := bind_ok configured
  obtain ⟨given, _, configured⟩ := bind_ok configured
  obtain ⟨_, _, configured⟩ := bind_ok configured
  obtain ⟨most, bounded, configured⟩ := bind_ok configured
  dsimp only at configured
  split at configured
  · cases configured
    intro n asked
    obtain ⟨allowed, rfl, rfl⟩ := Option.map_eq_some_iff.mp asked
    cases given with
    | none => cases bounded
    | some given =>
      obtain ⟨_, known, same⟩ := bind_ok bounded
      cases same
      exact (atLeastOne_ok known).1
  · cases configured

theorem rejection_accepted (configured : os.rejection = .ok st) : st.Accepted := by
  obtain ⟨_, _, configured⟩ := bind_ok configured
  obtain ⟨samples, _, configured⟩ := bind_ok configured
  obtain ⟨_, _, configured⟩ := bind_ok configured
  obtain ⟨_, _, configured⟩ := bind_ok configured
  obtain ⟨most, _, configured⟩ := bind_ok configured
  obtain ⟨wanted, known, configured⟩ := bind_ok configured
  obtain ⟨positive, same⟩ := atLeastOne_ok known
  by_cases fewer : most.val < samples.val
  · rw [if_pos fewer] at configured
    cases configured
  · rw [if_neg fewer] at configured
    cases configured
    refine ⟨positive, ?_⟩
    change wanted.val ≤ most.val.toNat
    omega

theorem mcmc_accepted (configured : os.mcmc = .ok st) : st.Accepted := by
  obtain ⟨_, _, configured⟩ := bind_ok configured
  obtain ⟨_, _, configured⟩ := bind_ok configured
  obtain ⟨_, _, configured⟩ := bind_ok configured
  obtain ⟨_, _, configured⟩ := bind_ok configured
  obtain ⟨_, _, configured⟩ := bind_ok configured
  obtain ⟨_, _, configured⟩ := bind_ok configured
  obtain ⟨_, samples, configured⟩ := bind_ok configured
  obtain ⟨_, _, configured⟩ := bind_ok configured
  obtain ⟨_, lag, configured⟩ := bind_ok configured
  cases configured
  exact ⟨(atLeastOne_ok samples).1, (atLeastOne_ok lag).1⟩

theorem smc_accepted (configured : os.smc = .ok st) : st.Accepted := by
  obtain ⟨_, _, configured⟩ := bind_ok configured
  obtain ⟨_, _, configured⟩ := bind_ok configured
  obtain ⟨_, _, configured⟩ := bind_ok configured
  obtain ⟨_, _, configured⟩ := bind_ok configured
  obtain ⟨_, particles, configured⟩ := bind_ok configured
  obtain ⟨_, _, configured⟩ := bind_ok configured
  split at configured
  · cases configured
    exact (atLeastOne_ok particles).1
  · cases configured

theorem pmcmc_accepted (configured : os.pmcmc = .ok st) : st.Accepted := by
  obtain ⟨_, _, configured⟩ := bind_ok configured
  obtain ⟨_, _, configured⟩ := bind_ok configured
  obtain ⟨_, _, configured⟩ := bind_ok configured
  obtain ⟨_, _, configured⟩ := bind_ok configured
  obtain ⟨_, particles, configured⟩ := bind_ok configured
  obtain ⟨_, sweeps, configured⟩ := bind_ok configured
  cases configured
  exact ⟨(atLeastOne_ok particles).1, (atLeastOne_ok sweeps).1⟩

theorem asyncpf_accepted (configured : os.asyncpf = .ok st) : st.Accepted := by
  obtain ⟨_, _, configured⟩ := bind_ok configured
  obtain ⟨_, _, configured⟩ := bind_ok configured
  obtain ⟨_, _, configured⟩ := bind_ok configured
  obtain ⟨_, _, configured⟩ := bind_ok configured
  obtain ⟨_, particles, configured⟩ := bind_ok configured
  obtain ⟨_, room, configured⟩ := bind_ok configured
  cases configured
  exact ⟨(atLeastOne_ok particles).1, (atLeastOne_ok room).1⟩

/-- Options make settings within bounds, or none. -/
theorem configure_accepted {method : Method} (configured : os.configure method = .ok st) : st.Accepted := by
  cases method with
  | enumerate => exact enumerate_accepted configured
  | rejection => exact rejection_accepted configured
  | mcmc => exact mcmc_accepted configured
  | smc => exact smc_accepted configured
  | pmcmc => exact pmcmc_accepted configured
  | asyncpf => exact asyncpf_accepted configured

end ProbCore.Options
