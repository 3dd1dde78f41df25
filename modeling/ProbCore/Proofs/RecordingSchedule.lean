import ProbCore.Proofs.ChainClosure
import ProbCore.Proofs.OpeningStates
import ProbCore.Proofs.Proportions

/-! The recording schedule of a chain, for any program. The estimate is one path of moves from the
initial state, as long as burn-in and the recorded part together, and its samples are the values of
every `lag`-th state after burn-in, a value coming again after a rejected move. Chains that differ in
their lag alone, and record the same part, go the same way: what the one with the greater lag records
is every `lag`-th sample of the one that records every state. -/

namespace ProbCore

open Kernel

variable {σ κ D R : Type} [Host (EStateM Failure σ) D R] [Score R]

/-- The states that moves lead to one after the other, each with whether its proposal was accepted. -/
def Kernel.moves (resume : Resume (EStateM Failure σ) κ D R) (fuel : Nat) :
    Nat → Trace κ D R → EStateM Failure σ (List (Trace κ D R × Bool))
  | 0, _ => pure []
  | n + 1, t => do
    let next ← move resume fuel t none
    return next :: (← moves resume fuel n next.1)

namespace Chain

variable {resume : Resume (EStateM Failure σ) κ D R} {fuel : Nat} {c : Config} {entry : κ} {s : Store}
  {t t₀ : Trace κ D R} {path : List (Trace κ D R × Bool)}

/-- The initial state and those that moves led to. -/
def states (t₀ : Trace κ D R) (path : List (Trace κ D R × Bool)) : List (Trace κ D R) :=
  t₀ :: path.map Prod.fst

/-- The values of every `lag`-th state after burn-in. -/
def recorded (c : Config) (visited : List (Trace κ D R)) : List Value :=
  (List.range c.samples).filterMap fun i => visited[c.burn + (i + 1) * c.lag]?.bind Trace.value?

/-- The part of a path's moves that were accepted. -/
def acceptance (c : Config) (path : List (Trace κ D R × Bool)) : R :=
  Score.ofNat (path.countP Prod.snd) / Score.ofNat c.steps

/-- What is said of a path that was gone, if the chain says anything. -/
def remark (c : Config) (path : List (Trace κ D R × Bool)) : EStateM Failure σ Unit :=
  if c.verbose then Host.note (.acceptance (Score.toFloat (acceptance c path : R)) c.steps) else pure ()

/-- The answer of a chain that went this way. -/
def answer (c : Config) (t₀ : Trace κ D R) (path : List (Trace κ D R × Bool)) :
    EStateM Failure σ (Marginal Value R) := do
  remark c path
  Host.lift (Marginal.ofSamples (recorded c (states t₀ path)) none
    [("acceptance_rate", .rate (acceptance c path))])

/-- The chain that goes as far and records every state after burn-in. -/
def Config.unthinned (c : Config) : Config := { c with lag := 1, samples := c.samples * c.lag }

theorem Config.unthinned_steps (c : Config) : c.unthinned.steps = c.steps := by
  unfold Config.steps Config.unthinned
  rw [Nat.mul_one]

/-- How a path of the right length follows the schedule. -/
structure OnSchedule (resume : Resume (EStateM Failure σ) κ D R) (fuel : Nat) (c : Config)
    (t₀ : Trace κ D R) (path : List (Trace κ D R × Bool)) : Prop where
  steps : path.length = c.burn + c.samples * c.lag
  moves : ∀ (n : Nat) (next : Trace κ D R × Bool), path[n]? = some next →
    ∃ before, (states t₀ path)[n]? = some before ∧ Yields (move resume fuel before none) next
  repeats : ∀ (n : Nat) (t : Trace κ D R), path[n]? = some (t, false) → (states t₀ path)[n]? = some t
  samples : (recorded c (states t₀ path)).length = c.samples
  values : ∀ i < c.samples, ∃ t v, (states t₀ path)[c.burn + (i + 1) * c.lag]? = some t ∧
    t.ending = .done v ∧ (recorded c (states t₀ path))[i]? = some v
  accepted : path.countP Prod.snd ≤ path.length
  some_steps : 1 ≤ path.length
  within [ProportionalScore R] : Score.less (acceptance c path : R) Score.zero = false ∧
    Score.less (Score.ofNat 1) (acceptance c path : R) = false

/-- An estimate that is one path of moves, recorded on schedule; and its thinned samples among those
of the unthinned chain, when both run from the same state of the host. -/
structure KeepsSchedule (resume : Resume (EStateM Failure σ) κ D R) (fuel : Nat) (c : Config) (entry : κ)
    (s : Store) : Prop where
  course : estimate resume fuel c entry s = do
    let t₀ ← findStart resume fuel entry s none c.startAttempts
    let path ← moves resume fuel c.steps t₀
    answer c t₀ path
  scheduled : ∀ t₀ path, Yields (findStart resume fuel entry s none c.startAttempts) t₀ →
    Yields (Kernel.moves resume fuel c.steps t₀) path → OnSchedule resume fuel c t₀ path
  reported : ∀ M, Yields (estimate resume fuel c entry s) M →
    ∃ t₀ path, Yields (findStart resume fuel entry s none c.startAttempts) t₀ ∧
      Yields (Kernel.moves resume fuel c.steps t₀) path ∧ M.samples = recorded c (states t₀ path) ∧
      M.diagnostics = [("acceptance_rate", .rate (acceptance c path))]
  thinned : ∀ w M M' w' w'', estimate resume fuel c entry s w = .ok M w' →
    estimate resume fuel c.unthinned entry s w = .ok M' w'' →
      w' = w'' ∧ M.diagnostics = M'.diagnostics ∧ M.samples.length = c.samples ∧
        M'.samples.length = c.samples * c.lag ∧
        ∀ i < c.samples, M.samples[i]? = M'.samples[(i + 1) * c.lag - 1]?

/-! The positions that are recorded. -/

/-- The moves after which a state is recorded, one at the end of each stretch of `lag` moves. -/
theorem recorded_positions (spaced : 1 ≤ c.lag) (n : Nat) :
    (List.range (c.burn + n * c.lag)).filter c.records =
      (List.range n).map fun i => c.burn + (i + 1) * c.lag - 1 := by
  induction n with
  | zero =>
    rw [Nat.zero_mul, Nat.add_zero, List.range_zero, List.map_nil, List.filter_eq_nil_iff]
    intro step member
    have before := List.mem_range.mp member
    simp only [Config.records, Bool.and_eq_true, decide_eq_true_eq]
    omega
  | succ n ih =>
    -- Only the last of the next stretch of moves is recorded.
    have stretch : ((List.range c.lag).map (c.burn + n * c.lag + ·)).filter c.records =
        [c.burn + (n + 1) * c.lag - 1] := by
      have position (j : Nat) : c.burn + n * c.lag + j - c.burn + 1 = j + 1 + c.lag * n := by
        rw [Nat.mul_comm c.lag n]
        omega
      obtain ⟨l, lag⟩ : ∃ l, c.lag = l + 1 := ⟨c.lag - 1, by omega⟩
      have earlier : ((List.range l).map (c.burn + n * c.lag + ·)).filter c.records = [] := by
        rw [List.filter_eq_nil_iff]
        intro step member
        obtain ⟨j, inside, rfl⟩ := List.mem_map.mp member
        have short : j + 1 < c.lag := by
          rw [lag]
          exact Nat.succ_lt_succ (List.mem_range.mp inside)
        rw [Config.records, position, Nat.add_mul_mod_self_left, Nat.mod_eq_of_lt short]
        simp
      have last : c.records (c.burn + n * c.lag + l) = true := by
        rw [Config.records, position, Nat.add_mul_mod_self_left, ← lag, Nat.mod_self]
        simp only [beq_self_eq_true, Bool.and_true, decide_eq_true_eq]
        omega
      have range : List.range c.lag = List.range l ++ [l] := by rw [lag, List.range_succ]
      rw [range, List.map_append, List.filter_append, earlier, List.nil_append, List.map_singleton,
        List.filter_singleton, last, Nat.succ_mul]
      exact congrArg (fun m => [m]) (by omega)
    rw [Nat.succ_mul, ← Nat.add_assoc, List.range_add, List.filter_append, ih, stretch, List.range_succ,
      List.map_append]
    rfl

example : (List.range 7).filter (Config.records ⟨2, 1, 3, .count 1, false⟩) = [3, 6] := by decide

/-- What is recorded of a state after the move with this number. -/
def kept (c : Config) (next : (Trace κ D R × Bool) × Nat) : Option Value :=
  if c.records next.2 then next.1.1.value? else none

omit [Score R] in
theorem filterMap_zipIdx {α β : Type} (f : α × Nat → Option β) (xs : List α) :
    xs.zipIdx.filterMap f = (List.range xs.length).filterMap fun i => xs[i]?.bind fun x => f (x, i) := by
  induction xs using List.reverseRecOn with
  | nil => rfl
  | append_singleton xs x ih =>
    have before : (List.range xs.length).filterMap (fun i => (xs ++ [x])[i]?.bind fun y => f (y, i)) =
        (List.range xs.length).filterMap fun i => xs[i]?.bind fun y => f (y, i) :=
      List.filterMap_congr fun i inside => by rw [List.getElem?_append_left (List.mem_range.mp inside)]
    rw [List.zipIdx_append, List.filterMap_append, ih, List.length_append, List.length_singleton,
      List.range_succ, List.filterMap_append, before]
    simp [List.zipIdx, List.filterMap_cons]

omit [Host (EStateM Failure σ) D R] [Score R] in
/-- What is kept of a path as long as the chain is what its states have to show on schedule. -/
theorem kept_eq_recorded (spaced : 1 ≤ c.lag) (long : path.length = c.steps) :
    path.zipIdx.filterMap (kept c) = recorded c (states t₀ path) := by
  have places (i : Nat) : (path[c.burn + (i + 1) * c.lag - 1]?.bind fun next => next.1.value?) =
      (states t₀ path)[c.burn + (i + 1) * c.lag]?.bind Trace.value? := by
    have some_moves : c.burn + (i + 1) * c.lag = c.burn + (i + 1) * c.lag - 1 + 1 := by
      have : 0 < (i + 1) * c.lag := Nat.mul_pos (Nat.succ_pos i) spaced
      omega
    rw [states]
    conv_rhs => rw [some_moves, List.getElem?_cons_succ, List.getElem?_map]
    cases path[c.burn + (i + 1) * c.lag - 1]? <;> rfl
  calc path.zipIdx.filterMap (kept c)
      = ((List.range path.length).filter c.records).filterMap
          fun i => path[i]?.bind fun next => next.1.value? := by
        rw [filterMap_zipIdx, List.filterMap_filter]
        refine List.filterMap_congr fun i _ => ?_
        cases path[i]? <;> simp [kept]
    _ = recorded c (states t₀ path) := by
        rw [long, Config.steps, recorded_positions spaced, List.filterMap_map, recorded]
        exact List.filterMap_congr fun i _ => places i

/-! Paths of moves. -/

omit [Host (EStateM Failure σ) D R] [Score R] in
theorem states_succ (n : Nat) : (states t₀ path)[n + 1]? = path[n]?.map Prod.fst := by
  rw [states, List.getElem?_cons_succ, List.getElem?_map]

/-- A path has as many moves as were asked for, each made from the state before it. -/
theorem moves_steps {n : Nat} (yields : Yields (moves resume fuel n t₀) path) : path.length = n ∧
    ∀ (i : Nat) (next : Trace κ D R × Bool), path[i]? = some next →
      ∃ before, (states t₀ path)[i]? = some before ∧ Yields (move resume fuel before none) next := by
  induction n generalizing t₀ path with
  | zero =>
    rw [Yields.pure yields]
    exact ⟨rfl, nofun⟩
  | succ n ih =>
    obtain ⟨first, went, yields⟩ := Yields.bind yields
    obtain ⟨rest, on, yields⟩ := yields.bind
    rw [yields.pure]
    obtain ⟨length, steps⟩ := ih on
    refine ⟨by rw [List.length_cons, length], fun i next found => ?_⟩
    cases i with
    | zero =>
      rw [List.getElem?_cons_zero, Option.some.injEq] at found
      exact ⟨t₀, rfl, found ▸ went⟩
    | succ i =>
      rw [List.getElem?_cons_succ] at found
      exact steps i next found

section

variable [SoundHost σ D R]

/-- Moves without a limit lead from complete traces to complete ones. -/
theorem move_complete {next : Trace κ D R × Bool} (complete : ∃ v, t.ending = .done v)
    (yields : Yields (move resume fuel t none) next) : ∃ v, next.1.ending = .done v := by
  rcases move_cases yields with ⟨same, _⟩ | ⟨_, r, _, regenerated, _⟩
  · exact same ▸ complete
  · exact (regenerate_ends (fun _ _ => .inr rfl) regenerated).1.complete

theorem findStart_complete {attempts : Given Nat}
    (yields : Yields (findStart resume fuel entry s none attempts) t) : ∃ v, t.ending = .done v :=
  (simulate_ends (findStart_yields yields).1).1.complete

/-- The walk goes along a path of moves, and collects what is kept of it. -/
theorem walk_eq_moves (complete : ∃ v, t.ending = .done v) (remaining step count : Nat) (values : List Value) :
    walk resume fuel c remaining step t values count = do
      let path ← moves resume fuel remaining t
      return (((path.zipIdx step).filterMap (kept c)).reverse ++ values, count + path.countP Prod.snd) := by
  induction remaining generalizing step t values count with
  | zero => rfl
  | succ remaining ih =>
    unfold walk moves
    rw [bind_assoc]
    refine bind_congr_yields fun next yields => ?_
    obtain ⟨t', moved⟩ := next
    have complete' := move_complete complete yields
    obtain ⟨v, ending⟩ := complete'
    have read : (exitValue t' : EStateM Failure σ Value) = pure v := by rw [exitValue, ending]
    have value : t'.value? = some v := by rw [Trace.value?, ending]
    have counted (path : List (Trace κ D R × Bool)) : (if moved then count + 1 else count) +
        path.countP Prod.snd = count + ((t', moved) :: path).countP Prod.snd := by
      rw [List.countP_cons]
      cases moved
      · simp
      · simp
        omega
    simp only [bind_assoc, pure_bind, read, ih ⟨v, ending⟩, List.zipIdx_cons, List.filterMap_cons, kept, value,
      counted]
    split <;> simp

theorem estimate_course (spaced : 1 ≤ c.lag) : estimate resume fuel c entry s = (do
    let t₀ ← findStart resume fuel entry s none c.startAttempts
    let path ← moves resume fuel c.steps t₀
    answer c t₀ path) := by
  unfold estimate
  refine bind_congr_yields fun t₀ yields => ?_
  rw [walk_eq_moves (findStart_complete yields), bind_assoc]
  refine bind_congr_yields fun path went => ?_
  simp only [pure_bind, List.append_nil, List.reverse_reverse, Nat.zero_add]
  rw [kept_eq_recorded spaced (moves_steps went).1, answer, remark]
  cases c.verbose <;> rfl

/-- All states of a path are complete. -/
theorem states_complete (complete : ∃ v, t₀.ending = .done v) {n : Nat}
    (yields : Yields (moves resume fuel n t₀) path) {i : Nat} (found : (states t₀ path)[i]? = some t) :
    ∃ v, t.ending = .done v := by
  induction i generalizing t with
  | zero =>
    rw [states, List.getElem?_cons_zero, Option.some.injEq] at found
    exact found ▸ complete
  | succ i ih =>
    rw [states_succ, Option.map_eq_some_iff] at found
    obtain ⟨next, led, rfl⟩ := found
    obtain ⟨before, was, went⟩ := (moves_steps yields).2 i next led
    exact move_complete (ih was) went

/-- Each state that the schedule names has a value, and these are what is recorded. -/
theorem recorded_values (start : ∃ v, t₀.ending = .done v)
    (yields : Yields (moves resume fuel c.steps t₀) path) : (recorded c (states t₀ path)).length = c.samples ∧
    ∀ i < c.samples, ∃ t v, (states t₀ path)[c.burn + (i + 1) * c.lag]? = some t ∧ t.ending = .done v ∧
      (recorded c (states t₀ path))[i]? = some v := by
  have stands (i : Nat) (inside : i < c.samples) :
      ∃ t v, (states t₀ path)[c.burn + (i + 1) * c.lag]? = some t ∧ t.ending = .done v := by
    have earlier : c.burn + (i + 1) * c.lag < (states t₀ path).length := by
      have before : (i + 1) * c.lag ≤ c.samples * c.lag := Nat.mul_le_mul_right c.lag inside
      rw [states, List.length_cons, List.length_map, (moves_steps yields).1, Config.steps]
      omega
    have found := List.getElem?_eq_getElem earlier
    obtain ⟨v, ending⟩ := states_complete start yields found
    exact ⟨_, v, found, ending⟩
  let value (i : Nat) : Value := ((states t₀ path)[c.burn + (i + 1) * c.lag]?.bind Trace.value?).getD .absent
  have read {i : Nat} {t : Trace κ D R} {v : Value}
      (found : (states t₀ path)[c.burn + (i + 1) * c.lag]? = some t) (ending : t.ending = .done v) :
      (states t₀ path)[c.burn + (i + 1) * c.lag]?.bind Trace.value? = some v := by
    rw [found, Option.bind_some, Trace.value?, ending]
  have shown : recorded c (states t₀ path) = (List.range c.samples).map value := by
    rw [recorded, ← List.filterMap_eq_map]
    refine List.filterMap_congr fun i member => ?_
    obtain ⟨t, v, found, ending⟩ := stands i (List.mem_range.mp member)
    have shows := read found ending
    simp only [value, shows, Function.comp_apply, Option.getD_some]
  refine ⟨by rw [shown, List.length_map, List.length_range], fun i inside => ?_⟩
  obtain ⟨t, v, found, ending⟩ := stands i inside
  refine ⟨t, v, found, ending, ?_⟩
  have shows := read found ending
  simp only [shown, List.getElem?_map, List.getElem?_range inside, Option.map_some, value, shows, Option.getD_some]

theorem moves_onSchedule (some_kept : 1 ≤ c.samples) (spaced : 1 ≤ c.lag)
    (start : Yields (findStart resume fuel entry s none c.startAttempts) t₀)
    (yields : Yields (Kernel.moves resume fuel c.steps t₀) path) : OnSchedule resume fuel c t₀ path := by
  obtain ⟨length, steps⟩ := moves_steps yields
  obtain ⟨count, values⟩ := recorded_values (findStart_complete start) yields
  have part : path.countP Prod.snd ≤ path.length := List.countP_le_length
  have some_steps : 1 ≤ c.steps := by
    have : 0 < c.samples * c.lag := Nat.mul_pos some_kept spaced
    rw [Config.steps]
    omega
  refine ⟨length, steps, fun n t rejected => ?_, count, values, part, length ▸ some_steps, ?_⟩
  · obtain ⟨before, was, went⟩ := steps n (t, false) rejected
    rcases move_cases went with ⟨same, _⟩ | ⟨accepted, _⟩
    · exact same ▸ was
    · cases accepted
  · exact ProportionalScore.ratio_within (length ▸ part) some_steps

/-- An answer's samples are what was recorded, and it reports the part of the moves that was accepted. -/
theorem answer_eq_ok {w w' : σ} {M : Marginal Value R} (returned : answer c t₀ path w = .ok M w') :
    remark c path w = .ok () w' ∧ M.samples = recorded c (states t₀ path) ∧
      M.diagnostics = [("acceptance_rate", .rate (acceptance c path))] := by
  obtain ⟨_, middle, remarked, lifted⟩ := bind_eq_ok.mp returned
  have made := Yields.lift ⟨middle, w', lifted⟩
  rw [made] at lifted
  obtain ⟨_, rfl⟩ := pure_eq_ok.mp lifted
  obtain ⟨samples, diagnostics⟩ := Marginal.ofSamples_keeps made
  exact ⟨remarked, samples, diagnostics⟩

/-- An estimate that returned went along a path of moves. -/
theorem estimate_eq_ok (spaced : 1 ≤ c.lag) {w w' : σ} {M : Marginal Value R}
    (returned : estimate resume fuel c entry s w = .ok M w') :
    ∃ t₀ path begun ended, findStart resume fuel entry s none c.startAttempts w = .ok t₀ begun ∧
      moves resume fuel c.steps t₀ begun = .ok path ended ∧ answer c t₀ path ended = .ok M w' := by
  rw [estimate_course spaced] at returned
  obtain ⟨t₀, begun, found, returned⟩ := bind_eq_ok.mp returned
  obtain ⟨path, ended, went, returned⟩ := bind_eq_ok.mp returned
  exact ⟨t₀, path, begun, ended, found, went, returned⟩

/-- From the same state of the host the thinned chain goes the same way as the one that records every
state, and its samples are found among the other's at the ends of the stretches. -/
theorem thinned_samples (spaced : 1 ≤ c.lag) {w w' w'' : σ} {M M' : Marginal Value R}
    (returned : estimate resume fuel c entry s w = .ok M w')
    (returned' : estimate resume fuel c.unthinned entry s w = .ok M' w'') :
    w' = w'' ∧ M.diagnostics = M'.diagnostics ∧ M.samples.length = c.samples ∧
      M'.samples.length = c.samples * c.lag ∧
      ∀ i < c.samples, M.samples[i]? = M'.samples[(i + 1) * c.lag - 1]? := by
  obtain ⟨t₀, path, begun, ended, found, went, answered⟩ := estimate_eq_ok spaced returned
  obtain ⟨t₁, path', begun', ended', found', went', answered'⟩ := estimate_eq_ok le_rfl returned'
  obtain ⟨rfl, rfl⟩ := EStateM.Result.ok.inj (found.symm.trans found')
  rw [c.unthinned_steps] at went'
  obtain ⟨rfl, rfl⟩ := EStateM.Result.ok.inj (went.symm.trans went')
  obtain ⟨remarked, samples, reported⟩ := answer_eq_ok answered
  obtain ⟨remarked', samples', reported'⟩ := answer_eq_ok answered'
  have same_part : (acceptance c.unthinned path : R) = acceptance c path := by
    rw [acceptance, c.unthinned_steps, acceptance]
  have same_remark : remark (σ := σ) c.unthinned path = remark c path := by
    rw [remark, same_part, c.unthinned_steps]
    rfl
  have start := findStart_complete ⟨w, begun, found⟩
  obtain ⟨count, values⟩ := recorded_values start ⟨begun, ended, went⟩
  obtain ⟨count', values'⟩ := recorded_values (c := c.unthinned) start
    ⟨begun, ended, c.unthinned_steps ▸ went⟩
  rw [same_remark] at remarked'
  refine ⟨(EStateM.Result.ok.inj (remarked.symm.trans remarked')).2, ?_, samples ▸ count, samples' ▸ count',
    fun i inside => ?_⟩
  · rw [reported, reported', same_part]
  · have stretches : (i + 1) * c.lag ≤ c.samples * c.lag := Nat.mul_le_mul_right c.lag inside
    have some_moves : 0 < (i + 1) * c.lag := Nat.mul_pos (Nat.succ_pos i) spaced
    obtain ⟨t, v, at_stretch, ending, taken⟩ := values i inside
    obtain ⟨t', v', at_move, ending', taken'⟩ := values' ((i + 1) * c.lag - 1) (by
      change _ < c.samples * c.lag
      omega)
    have place : c.unthinned.burn + ((i + 1) * c.lag - 1 + 1) * c.unthinned.lag = c.burn + (i + 1) * c.lag := by
      change c.burn + ((i + 1) * c.lag - 1 + 1) * 1 = _
      omega
    rw [place, at_stretch, Option.some.injEq] at at_move
    rw [← at_move, ending] at ending'
    rw [samples, samples', taken, taken', Ending.done.inj ending']

/-- For any program, an estimate by a chain goes from the initial state as many moves as burn-in and
the recorded part have together; its samples are the values of every `lag`-th state after burn-in, in
order, as many as were asked for; a rejected move repeats the state; the acceptance rate that it reports
is the number of accepted moves divided by that of all, which is between zero and one in scores where a
part of a count is. The samples are every `lag`-th one of those that the chain with lag one gives in as
many moves. -/
theorem recording_schedule (resume : Resume (EStateM Failure σ) κ D R) (fuel : Nat)
    (c : Config) (entry : κ) (s : Store) (some_kept : 1 ≤ c.samples) (spaced : 1 ≤ c.lag) :
    KeepsSchedule resume fuel c entry s where
  course := estimate_course spaced
  scheduled _ _ start yields := moves_onSchedule some_kept spaced start yields
  reported := by
    rintro M ⟨w, w', returned⟩
    obtain ⟨t₀, path, begun, ended, found, went, answered⟩ := estimate_eq_ok spaced returned
    obtain ⟨_, samples, reported⟩ := answer_eq_ok answered
    exact ⟨t₀, path, ⟨w, begun, found⟩, ⟨begun, ended, went⟩, samples, reported⟩
  thinned _ _ _ _ _ := thinned_samples spaced

end

/-- Two samples of the tosses of a coin, three moves apart after one that is not recorded. -/
theorem tosses_keepSchedule : 1 ≤ 2 ∧ 1 ≤ 3 ∧
    KeepsSchedule CoinTwice.resume 3 ⟨2, 1, 3, .count 1, false⟩ 0 .empty :=
  ⟨by decide, by decide, recording_schedule CoinTwice.resume 3 _ 0 .empty (by decide) (by decide)⟩

end Chain

end ProbCore
