import ProbCore.Proofs.EndlessDraws
import ProbCore.Proofs.Halting
import ProbCore.Proofs.Lockstep
import ProbCore.Proofs.MarginalMass

/-! How a particle cascade schedules its particles. Its buffer stays within bounds, whatever the
program does, and each particle that was ever put there is taken out and processed once. A program
whose executions all end cannot keep the cascade busy for ever: each particle is replaced by a
bounded number of others that have one factor less to go. -/

namespace ProbCore.Cascade

variable {σ κ D R : Type} [Host (EStateM Failure σ) D R] [Score R]

/-- What becomes of a particle that is processed: it has lost its weight, it has come to its
value, or children take its place. -/
inductive Outcome (κ D R : Type) where
  | dead
  | finished (p : Particle κ D R)
  | replaced (children : List (Particle κ D R))

namespace Outcome

def children : Outcome κ D R → List (Particle κ D R)
  | replaced born => born
  | _ => []

def survivor? : Outcome κ D R → Option (Particle κ D R)
  | finished p => some p
  | _ => none

/-- The pool after an outcome, with what has arrived by then. -/
def into (pool : Pool κ D R) (arrivals : Arrivals R) : Outcome κ D R → Pool κ D R
  | dead => pool
  | finished p => { pool with finished := p :: pool.finished, count := pool.count + 1 }
  | replaced born => { pool with buffer := born.reverse ++ pool.buffer, arrivals }

end Outcome

/-- What becomes of a particle, given the pool, and what has arrived by then. -/
def settle (resume : Resume (EStateM Failure σ) κ D R) (fuel : Nat) (c : Config) (p : Particle κ D R)
    (pool : Pool κ D R) : EStateM Failure σ (Outcome κ D R × Arrivals R) := do
  match ← run resume fuel p with
  | .lost => return (.dead, pool.arrivals)
  | .finished q => return (.finished q, pool.arrivals)
  | .arrived q =>
    let (mean, arrivals) := arrive pool.arrivals q.trace.factors q.weight
    return (.replaced (← children c q mean pool.buffer.length), arrivals)

theorem process_eq (resume : Resume (EStateM Failure σ) κ D R) (fuel : Nat) (c : Config)
    (p : Particle κ D R) (pool : Pool κ D R) :
    process resume fuel c p pool = (do
      let (o, arrivals) ← settle resume fuel c p pool
      return o.into pool arrivals) := by
  unfold process settle
  rw [bind_assoc]
  congr 1
  funext fate
  cases fate with
  | lost => rfl
  | finished q => rfl
  | arrived q =>
    dsimp only
    rw [bind_assoc]
    rfl

/-- A particle that was processed. `started` says that it is a new root, and did not wait. -/
structure Handled (κ D R : Type) where
  started : Bool
  particle : Particle κ D R
  outcome : Outcome κ D R

/-- The particles that were taken out of the buffer and processed. -/
def taken (log : List (Handled κ D R)) : List (Particle κ D R) :=
  (log.filter (!·.started)).map (·.particle)

/-- The particles that were put into the buffer. -/
def put (log : List (Handled κ D R)) : List (Particle κ D R) := log.flatMap (·.outcome.children)

/-- The pools that a cascade can have, with the number of its roots and all that was processed. -/
inductive Scheduled (resume : Resume (EStateM Failure σ) κ D R) (c : Config) (root : Particle κ D R) :
    List (Handled κ D R) → Pool κ D R → Nat → Prop where
  | start : Scheduled resume c root [] ⟨[], [], 0, []⟩ 0
  | next {log : List (Handled κ D R)} {pool : Pool κ D R} {roots fuel : Nat} {p : Particle κ D R}
      {buffer : List (Particle κ D R)} {o : Outcome κ D R} {arrivals : Arrivals R}
      (before : Scheduled resume c root log pool roots) (waiting : pool.buffer = p :: buffer)
      (settles : Yields (settle resume fuel c p { pool with buffer }) (o, arrivals)) :
      Scheduled resume c root (log ++ [⟨false, p, o⟩]) (o.into { pool with buffer } arrivals) roots
  | root {log : List (Handled κ D R)} {pool : Pool κ D R} {roots fuel : Nat} {o : Outcome κ D R}
      {arrivals : Arrivals R} (before : Scheduled resume c root log pool roots)
      (empty : pool.buffer = []) (few : pool.count < c.particles.val) (room : roots < c.mostRoots)
      (settles : Yields (settle resume fuel c root pool) (o, arrivals)) :
      Scheduled resume c root (log ++ [⟨true, root, o⟩]) (o.into pool arrivals) (roots + 1)

/-- What was recorded of a particle is what came of it when it ran up to its next factor. -/
def Handled.Explained (resume : Resume (EStateM Failure σ) κ D R) (h : Handled κ D R) : Prop :=
  ∃ fuel q, Yields (h.particle.advance resume fuel) q ∧
    match h.outcome with
    | .dead => q.alive = false
    | .finished p => p = q ∧ q.alive = true ∧ q.trace.done = true
    | .replaced born => q.alive = true ∧ q.trace.done = false ∧ ∀ child ∈ born, child.trace = q.trace

/-- The books of a cascade are in order. -/
structure Accounted (resume : Resume (EStateM Failure σ) κ D R) (c : Config) (log : List (Handled κ D R))
    (pool : Pool κ D R) (roots : Nat) : Prop where
  bounded : pool.buffer.length ≤ c.bufferSize
  once : (taken log ++ pool.buffer).Perm (put log)
  explained : ∀ h ∈ log, h.Explained resume
  finished : pool.finished.reverse = log.filterMap (·.outcome.survivor?)
  count : pool.count = pool.finished.length
  roots_eq : roots = log.countP (·.started)
  roots_le : roots ≤ c.mostRoots

section

variable [LawfulHost σ D R] {resume : Resume (EStateM Failure σ) κ D R} {c : Config}
  {root p : Particle κ D R} {log : List (Handled κ D R)} {pool : Pool κ D R} {roots fuel : Nat}
  {o : Outcome κ D R} {arrivals : Arrivals R}

omit [LawfulHost σ D R] in
theorem childCount_le {logRatio : R} {buffered n : Nat}
    (counted : childCount c logRatio buffered = .ok n) : n ≤ max 1 (c.bufferSize - buffered) := by
  unfold childCount at counted
  split at counted
  next => cases counted
  next =>
    dsimp only at counted
    split at counted
    next => cases counted
    next =>
      cases counted
      omega

/-- The children of one particle fit into the buffer, if it has room for one. -/
theorem children_fit {mean : R} {buffered : Nat} {born : List (Particle κ D R)}
    (yields : Yields (children c p mean buffered : EStateM Failure σ _) born) :
    born.length ≤ max 1 (c.bufferSize - buffered) := by
  unfold children at yields
  dsimp only at yields
  split at yields
  next =>
    obtain ⟨u, _, yields⟩ := yields.bind
    rw [yields.pure]
    split
    · simp
    · simp
  next =>
    obtain ⟨n, ⟨_, _, counted⟩, yields⟩ := yields.bind
    rw [yields.pure]
    simpa using childCount_le (lift_eq_ok.mp counted).1

theorem settle_explained (yields : Yields (settle resume fuel c p pool) (o, arrivals)) :
    (∀ started, Handled.Explained resume ⟨started, p, o⟩) ∧
      o.children.length ≤ max 1 (c.bufferSize - pool.buffer.length) := by
  obtain ⟨fate, ran, yields⟩ := Yields.bind yields
  obtain ⟨q, advanced, fated⟩ := Yields.bind ran
  split at fated
  next dead =>
    obtain rfl := fated.pure
    cases yields.pure
    exact ⟨fun _ => ⟨fuel, q, advanced, by simpa using dead⟩, Nat.zero_le _⟩
  next alive =>
    have alive : q.alive = true := by simpa using alive
    split at fated
    next done =>
      obtain rfl := fated.pure
      cases yields.pure
      exact ⟨fun _ => ⟨fuel, q, advanced, rfl, alive, done⟩, Nat.zero_le _⟩
    next running =>
      obtain rfl := fated.pure
      obtain ⟨born, drawn, yields⟩ := yields.bind
      cases yields.pure
      exact ⟨fun _ => ⟨fuel, q, advanced, alive, by simpa using running, children_share drawn⟩, children_fit drawn⟩

omit [Host (EStateM Failure σ) D R] [LawfulHost σ D R] [Score R] in
theorem into_buffer (pool : Pool κ D R) (arrivals : Arrivals R) (o : Outcome κ D R) :
    (o.into pool arrivals).buffer = o.children.reverse ++ pool.buffer := by
  cases o <;> rfl

omit [Host (EStateM Failure σ) D R] [LawfulHost σ D R] [Score R] in
theorem into_finished (pool : Pool κ D R) (arrivals : Arrivals R) (o : Outcome κ D R) :
    (o.into pool arrivals).finished = o.survivor?.toList ++ pool.finished := by
  cases o <;> rfl

omit [Host (EStateM Failure σ) D R] [LawfulHost σ D R] [Score R] in
theorem into_count (pool : Pool κ D R) (arrivals : Arrivals R) (o : Outcome κ D R) :
    (o.into pool arrivals).count = pool.count + o.survivor?.toList.length := by
  cases o <;> rfl

omit [LawfulHost σ D R] in
/-- The books stay in order when a particle that waits no longer, or a new root, is processed. -/
theorem Accounted.settled {started : Bool} {buffer : List (Particle κ D R)}
    (accounted : Accounted resume c log pool roots) (room : buffer.length < c.bufferSize)
    (out : (taken [⟨started, p, o⟩] ++ buffer).Perm pool.buffer)
    (fits : o.children.length ≤ max 1 (c.bufferSize - buffer.length))
    (explained : Handled.Explained resume ⟨started, p, o⟩)
    (few : roots + (if started then 1 else 0) ≤ c.mostRoots) :
    Accounted resume c (log ++ [⟨started, p, o⟩]) (o.into { pool with buffer } arrivals)
      (roots + if started then 1 else 0) where
  bounded := by
    rw [into_buffer, List.length_append, List.length_reverse]
    change o.children.length + buffer.length ≤ c.bufferSize
    omega
  once := by
    have taken_more : taken (log ++ [⟨started, p, o⟩]) = taken log ++ taken [⟨started, p, o⟩] := by
      simp [taken]
    have put_more : put (log ++ [⟨started, p, o⟩]) = put log ++ o.children := by simp [put]
    rw [taken_more, put_more, into_buffer]
    change ((taken log ++ taken [⟨started, p, o⟩]) ++ (o.children.reverse ++ buffer)).Perm _
    have before : (taken log ++ (taken [⟨started, p, o⟩] ++ buffer)).Perm (put log) :=
      (out.append_left _).trans accounted.once
    rw [← List.append_assoc] at before
    refine (List.perm_append_comm.append_left _).trans ?_
    rw [← List.append_assoc]
    exact before.append (List.reverse_perm _)
  explained := by
    intro h member
    rcases List.mem_append.mp member with old | new
    · exact accounted.explained h old
    · obtain rfl := List.mem_singleton.mp new
      exact explained
  finished := by
    rw [into_finished, List.reverse_append, List.filterMap_append]
    change pool.finished.reverse ++ _ = _
    rw [accounted.finished]
    cases o <;> rfl
  count := by
    rw [into_count, into_finished, List.length_append]
    change pool.count + _ = _ + pool.finished.length
    rw [accounted.count, Nat.add_comm]
  roots_eq := by
    rw [List.countP_append, ← accounted.roots_eq]
    cases started <;> rfl
  roots_le := few

theorem Scheduled.accounted (room : 1 ≤ c.bufferSize) (scheduled : Scheduled resume c root log pool roots) :
    Accounted resume c log pool roots := by
  induction scheduled with
  | start => exact ⟨Nat.zero_le _, .refl _, nofun, rfl, rfl, rfl, Nat.zero_le _⟩
  | @next log pool roots fuel p buffer o arrivals before waiting settles ih =>
    obtain ⟨explained, fits⟩ := settle_explained settles
    have bounded := ih.bounded
    rw [waiting, List.length_cons] at bounded
    refine ih.settled bounded ?_ fits (explained false) ih.roots_le
    rw [waiting]
    exact .refl _
  | @root log pool roots fuel o arrivals before empty few more settles ih =>
    obtain ⟨explained, fits⟩ := settle_explained settles
    refine ih.settled ?_ (.refl _) fits (explained true) more
    rw [empty]
    exact room

end

section

variable {σ κ D : Type} [Host (EStateM Failure σ) D Exact] [LawfulHost σ D Exact] {c : Config}
  {p root : Particle κ D Exact} {arrivals : Arrivals Exact} {pool : Pool κ D Exact}
  {resume : Resume (EStateM Failure σ) κ D Exact} {fine : Value → Prop}

/-- The means of real weights, each of some. -/
def Averages (arrivals : Arrivals Exact) : Prop :=
  ∀ j n mean, (j, n, mean) ∈ arrivals → n ≠ 0 ∧ mean.IsReal

theorem runningMean_real {seen : Option (Nat × Exact)} {weight : Exact} (real : weight.IsReal)
    (averages : ∀ n mean, seen = some (n, mean) → n ≠ 0 ∧ mean.IsReal) :
    (runningMean seen weight).1 ≠ 0 ∧ (runningMean seen weight).2.IsReal := by
  cases seen with
  | none => exact ⟨Nat.one_ne_zero, real⟩
  | some entry =>
    obtain ⟨n, mean⟩ := entry
    obtain ⟨some_there, y, rfl⟩ := averages n mean rfl
    obtain ⟨x, rfl⟩ := real
    refine ⟨Nat.succ_ne_zero n, ?_⟩
    rw [runningMean, Exact.logNat_eq some_there, Exact.real_add, Exact.logAddExp_real,
      Exact.logNat_eq (Nat.succ_ne_zero n), Exact.real_sub]
    exact ⟨_, rfl⟩

theorem mem_of_lookup {α β : Type} [BEq α] [LawfulBEq α] {entries : List (α × β)} {a : α} {b : β}
    (found : entries.lookup a = some b) : (a, b) ∈ entries := by
  induction entries with
  | nil => cases found
  | cons entry rest ih =>
    obtain ⟨a', b'⟩ := entry
    rw [List.lookup_cons] at found
    split at found
    next same =>
      cases found
      rw [eq_of_beq same]
      exact List.mem_cons_self
    next => exact List.mem_cons_of_mem _ (ih found)

theorem arrive_averages (averages : Averages arrivals) {weight : Exact} (real : weight.IsReal) (j : Nat) :
    (arrive arrivals j weight).1.IsReal ∧ Averages (arrive arrivals j weight).2 := by
  have entry := runningMean_real real fun n mean found => averages j n mean (mem_of_lookup found)
  refine ⟨entry.2, fun i n mean member => ?_⟩
  rcases List.mem_cons.mp member with same | old
  · rw [← (Prod.mk.inj same).2] at entry
    exact entry
  · exact averages i n mean (List.mem_filter.mp old).1

/-- A particle that is no lighter than the mean has a child for each whole mean that it weighs, as
far as there is room. -/
theorem childCount_eq {r : ℝ} (heavy : 0 ≤ r) (buffered : Nat) :
    childCount c (Exact.real r) buffered = .ok (min ⌊Real.exp r⌋₊ (max 1 (c.bufferSize - buffered))) := by
  have whole : ⌊Real.exp r⌋ = (⌊Real.exp r⌋₊ : Int) := (Int.natCast_floor_eq_floor (Real.exp_pos r).le).symm
  have some_there : 1 ≤ ⌊Real.exp r⌋₊ := (Nat.one_le_floor_iff _).mpr (Real.one_le_exp heavy)
  change Except.ok (min ⌊Real.exp r⌋ (max 1 ((c.bufferSize : Int) - buffered))).toNat = _
  rw [whole]
  congr 1
  omega

theorem one_le_children {r : ℝ} (heavy : 0 ≤ r) (room : Nat) : 1 ≤ min ⌊Real.exp r⌋₊ (max 1 room) :=
  le_min ((Nat.one_le_floor_iff _).mpr (Real.one_le_exp heavy)) (le_max_left 1 room)

theorem children_answer [AnsweringHost σ D] (weight : p.weight.IsReal) {mean : Exact} (real : mean.IsReal)
    (buffered : Nat) :
    Answers (fun born => ∀ q ∈ born, q.trace = p.trace ∧ q.weight.IsReal)
      (children c p mean buffered : EStateM Failure σ _) := by
  obtain ⟨r, ratio⟩ := weight.sub real
  unfold children
  dsimp only
  rw [ratio]
  by_cases light : Score.less (.real r) (Score.zero : Exact) = true
  · rw [if_pos light]
    refine AnsweringHost.logUniform_answers.bind fun u _ _ => .pure ?_
    split
    · intro q member
      obtain rfl := List.mem_singleton.mp member
      exact ⟨rfl, real⟩
    · exact nofun
  · rw [if_neg light]
    have heavy : 0 ≤ r := by
      rw [Exact.zero_eq] at light
      exact not_lt.mp fun below => light (decide_eq_true below)
    have some_there := Nat.one_le_iff_ne_zero.mp (one_le_children heavy (c.bufferSize - buffered))
    have counted := childCount_eq (c := c) heavy buffered
    have counts : Answers (· = _) (Host.lift (childCount c (Exact.real r) buffered) :
      EStateM Failure σ Nat) := .lift counted rfl
    refine counts.bind fun _ _ same => .pure ?_
    subst same
    intro q member
    obtain rfl := List.eq_of_mem_replicate member
    exact ⟨rfl, weight.sub ⟨_, Exact.logNat_eq some_there⟩⟩

variable {most roots : Nat}

/-- The first particle of every execution. -/
noncomputable def rootAt (entry : κ) (s : Store) : Particle κ D Exact := ⟨.start entry s, Score.zero⟩

/-- A particle that waits at one of at most so many factors. -/
def Ready (resume : Resume (EStateM Failure σ) κ D Exact) (fine : Value → Prop) (most : Nat)
    (p : Particle κ D Exact) : Prop :=
  ∃ left, left + p.trace.factors = most ∧ p.Waits resume fine left

theorem ready_root {entry : κ} {s : Store} (terminates : Terminates resume fine most entry s) :
    Ready resume fine most (rootAt entry s) := by
  have real_zero : (Score.zero : Exact).IsReal := ⟨0, Exact.zero_eq⟩
  exact ⟨most, rfl, ⟨real_zero, real_zero, entry, rfl, terminates⟩, real_zero⟩

/-- An outcome that leaves only particles that are done or wait at the next factor. -/
def Outcome.Fair (resume : Resume (EStateM Failure σ) κ D Exact) (fine : Value → Prop) (most factors : Nat) :
    Outcome κ D Exact → Prop
  | dead => True
  | finished q => q.Done fine
  | replaced born => ∀ q ∈ born, q.trace.factors = factors + 1 ∧ Ready resume fine most q

theorem settle_fair [AnsweringHost σ D] (ready : Ready resume fine most p)
    (averages : Averages pool.arrivals) :
    Concludes (fun r => r.1.Fair resume fine most p.trace.factors ∧ Averages r.2) (fun _ => False)
      fun fuel => settle resume fuel c p pool := by
  obtain ⟨left, same, waits⟩ := ready
  have runs : Concludes (fun fate : Fate κ D Exact =>
      match fate with
      | .lost => True
      | .finished q => q.Done fine
      | .arrived q => q.trace.factors = p.trace.factors + 1 ∧ Ready resume fine most q)
      (fun _ => False) fun fuel => run resume fuel p := by
    refine Concludes.bind (Particle.advance_moves waits) fun q moves => ?_
    obtain dead | done | ⟨n, rfl, further, waits⟩ := moves
    · have lost : (!q.alive) = true := by simp [Particle.alive, dead, Score.less, Exact.less, Score.impossible]
      simp only [if_pos lost]
      exact .pure trivial
    · have alive := Particle.alive_of_real done.weight
      obtain ⟨v, ending, _⟩ := done.completed.value
      have finished : q.trace.done = true := by simp [Trace.done, ending]
      simp only [alive, finished, Bool.not_true, Bool.false_eq_true, if_false, if_true]
      exact .pure done
    · have alive := Particle.alive_of_real waits.weight
      obtain ⟨k, ending, _⟩ := waits.paused.resumes
      have running : q.trace.done = false := by simp [Trace.done, ending]
      simp only [alive, running, Bool.not_true, Bool.false_eq_true, if_false]
      exact .pure ⟨further, n, by omega, waits⟩
  refine Concludes.bind runs fun fate fated => ?_
  cases fate with
  | lost => exact .pure ⟨trivial, averages⟩
  | finished q => exact .pure ⟨fated, averages⟩
  | arrived q =>
    obtain ⟨further, n, same, waits⟩ := fated
    obtain ⟨mean, averages⟩ := arrive_averages averages waits.weight q.trace.factors
    refine Concludes.bind (.answers (children_answer waits.weight mean pool.buffer.length)) fun born share => ?_
    refine .pure ⟨fun child member => ?_, averages⟩
    obtain ⟨trace, weight⟩ := share child member
    refine ⟨trace ▸ further, n, trace ▸ same, ?_, weight⟩
    rw [trace]
    exact waits.paused

/-- All particles of a pool are done or wait. -/
structure Fair (resume : Resume (EStateM Failure σ) κ D Exact) (fine : Value → Prop) (most : Nat)
    (pool : Pool κ D Exact) : Prop where
  buffer : ∀ p ∈ pool.buffer, Ready resume fine most p
  finished : ∀ p ∈ pool.finished, p.Done fine
  averages : Averages pool.arrivals

theorem Fair.into {o : Outcome κ D Exact} {factors : Nat} (fair : Fair resume fine most pool)
    (settled : o.Fair resume fine most factors) (averages : Averages arrivals) :
    Fair resume fine most (o.into pool arrivals) := by
  cases o with
  | dead => exact fair
  | finished q => exact ⟨fair.buffer, List.forall_mem_cons.mpr ⟨settled, fair.finished⟩, fair.averages⟩
  | replaced born =>
    refine ⟨fun q member => ?_, fair.finished, averages⟩
    rcases List.mem_append.mp member with new | old
    · exact (settled q (List.mem_reverse.mp new)).2
    · exact fair.buffer q old

/-- How many particles can come of one that has so many factors to go, itself included. -/
def progeny (c : Config) : Nat → Nat
  | 0 => 1
  | left + 1 => 1 + c.bufferSize * progeny c left

/-- How many particles may still be processed. -/
def remaining (c : Config) (most : Nat) (buffer : List (Particle κ D Exact)) (roots : Nat) : Nat :=
  (buffer.map fun p => progeny c (most - p.trace.factors)).sum + (c.mostRoots - roots) * progeny c most

theorem progeny_pos (c : Config) (left : Nat) : 1 ≤ progeny c left := by
  cases left with
  | zero => exact le_refl 1
  | succ left => exact Nat.le_add_right 1 _

omit [Host (EStateM Failure σ) D Exact] [LawfulHost σ D Exact] in
theorem remaining_cons (buffer : List (Particle κ D Exact)) :
    remaining c most (p :: buffer) roots =
      progeny c (most - p.trace.factors) + remaining c most buffer roots := by
  rw [remaining, remaining, List.map_cons, List.sum_cons, Nat.add_assoc]

omit [Host (EStateM Failure σ) D Exact] [LawfulHost σ D Exact] in
theorem remaining_nil (more : roots < c.mostRoots) :
    remaining c most ([] : List (Particle κ D Exact)) roots =
      progeny c most + remaining c most ([] : List (Particle κ D Exact)) (roots + 1) := by
  have one_less : c.mostRoots - roots = c.mostRoots - (roots + 1) + 1 := by omega
  rw [remaining, remaining, one_less, Nat.succ_mul]
  omega

/-- The children of a particle have fewer descendants than it has. -/
theorem progeny_children {o : Outcome κ D Exact} {factors : Nat} (settled : o.Fair resume fine most factors)
    (few : o.children.length ≤ c.bufferSize) :
    (o.children.map fun q => progeny c (most - q.trace.factors)).sum < progeny c (most - factors) := by
  have positive := progeny_pos c (most - factors)
  cases o with
  | dead => exact positive
  | finished q => exact positive
  | replaced born =>
    cases born with
    | nil => exact positive
    | cons first rest =>
      obtain ⟨further, left, same, _⟩ := settled first List.mem_cons_self
      have less : most - factors = left + 1 := by omega
      have equal : ((first :: rest).map fun q => progeny c (most - q.trace.factors)) =
          List.replicate (first :: rest).length (progeny c left) := by
        refine List.eq_replicate_iff.mpr ⟨List.length_map _, fun n member => ?_⟩
        obtain ⟨q, present, rfl⟩ := List.mem_map.mp member
        obtain ⟨further, _⟩ := settled q present
        rw [further, show most - (factors + 1) = left by omega]
      rw [less, progeny]
      change ((first :: rest).map fun q => progeny c (most - q.trace.factors)).sum < _
      rw [equal, List.sum_replicate, smul_eq_mul]
      have bound := Nat.mul_le_mul_right (progeny c left) few
      change (first :: rest).length * progeny c left ≤ _ at bound
      omega

/-- The cascade has finished enough particles and has none waiting. -/
def Filled (resume : Resume (EStateM Failure σ) κ D Exact) (fine : Value → Prop) (most : Nat) (c : Config)
    (root : Particle κ D Exact) (out : Pool κ D Exact × Nat) : Prop :=
  (∃ log, Scheduled resume c root log out.1 out.2) ∧ out.1.buffer = [] ∧
    c.particles.val ≤ out.1.count ∧ Fair resume fine most out.1

/-- The failure of a cascade that has started all its roots and not finished enough particles. -/
def Exhausted (resume : Resume (EStateM Failure σ) κ D Exact) (c : Config) (root : Particle κ D Exact)
    (e : Failure) : Prop :=
  ∃ log pool, Scheduled resume c root log pool c.mostRoots ∧ pool.buffer = [] ∧
    pool.count < c.particles.val ∧
    e = .inference (.rootsExhausted pool.count c.particles.shown c.mostRoots)

/-- What is true of the empty pool, and stays true whatever becomes of the particle processed next. -/
structure Invariant (resume : Resume (EStateM Failure σ) κ D Exact) (fine : Value → Prop) (most : Nat)
    (c : Config) (root : Particle κ D Exact) (kept : Pool κ D Exact → Nat → Prop) : Prop where
  start : kept ⟨[], [], 0, []⟩ 0
  next {p : Particle κ D Exact} {buffer : List (Particle κ D Exact)} {pool : Pool κ D Exact} {roots : Nat} :
    kept pool roots → Fair resume fine most pool → pool.buffer = p :: buffer →
    Concludes (fun r => kept (r.1.into { pool with buffer } r.2) roots) (fun _ => False)
      fun fuel => settle resume fuel c p { pool with buffer }
  root {pool : Pool κ D Exact} {roots : Nat} :
    kept pool roots → Fair resume fine most pool → pool.buffer = [] → pool.count < c.particles.val →
    roots < c.mostRoots →
    Concludes (fun r => kept (r.1.into pool r.2) (roots + 1)) (fun _ => False)
      fun fuel => settle resume fuel c root pool

/-- What comes of a particle leaves fewer to be processed than the particle itself did. -/
theorem remaining_into {o : Outcome κ D Exact} (settled : o.Fair resume fine most p.trace.factors)
    (few : o.children.length ≤ c.bufferSize) (pool : Pool κ D Exact) (arrivals : Arrivals Exact) (roots : Nat) :
    remaining c most (o.into pool arrivals).buffer roots <
      progeny c (most - p.trace.factors) + remaining c most pool.buffer roots := by
  have shrinks := progeny_children settled few
  rw [into_buffer, remaining, remaining, List.map_append, List.sum_append, List.map_reverse, List.sum_reverse]
  omega

/-- A turn of the loop settles one particle. The loop ends well if it does so from each pool that this
can leave. -/
theorem turn_concludes [AnsweringHost σ D] {good : Pool κ D Exact × Nat → Prop} {allowed : Failure → Prop}
    {kept : Pool κ D Exact → Nat → Prop} {before after : Pool κ D Exact} {roots roots' k : Nat}
    (keeps : Concludes (fun r => kept (r.1.into after r.2) roots') (fun _ => False)
      fun fuel => settle resume fuel c p after)
    (waits : Ready resume fine most p) (averages : Averages after.arrivals)
    (goes : ∀ fuel, schedule resume (fuel + 1 + k) c root (fuel + 1) before roots =
      process resume (fuel + 1 + k) c p after >>= fun pool =>
        schedule resume (fuel + 1 + k) c root fuel pool roots')
    (rest : ∀ (o : Outcome κ D Exact) (arrivals : Arrivals Exact),
      (∃ fuel, Yields (settle resume fuel c p after) (o, arrivals)) →
      o.Fair resume fine most p.trace.factors → Averages arrivals → kept (o.into after arrivals) roots' →
      Concludes good allowed fun fuel =>
        schedule resume (fuel + (1 + k)) c root fuel (o.into after arrivals) roots') :
    Concludes good allowed fun fuel => schedule resume (fuel + k) c root fuel before roots := by
  have settles := (((settle_fair (c := c) waits averages).and keeps).spare (1 + k)).seen
  have never : Concludes _ allowed _ := settles.imp (fun _ holds => holds) fun _ both => both.1.elim
  refine Concludes.spend (never.bind (f := fun fuel r =>
    schedule resume (fuel + (1 + k)) c root fuel (r.1.into after r.2) roots') ?_) fun fuel => ?_
  · intro (o, arrivals) ⟨⟨⟨settled, averages⟩, holds⟩, fuel, settling⟩
    exact rest o arrivals ⟨_, settling⟩ settled averages holds
  · rw [goes, process_eq, Nat.add_assoc, bind_assoc]
    rfl

/-- Every turn of the loop leaves fewer particles to be processed. -/
theorem schedule_concludes [AnsweringHost σ D] (room : 1 ≤ c.bufferSize)
    (ready : Ready resume fine most root) (start : root.trace.factors = 0)
    {kept : Pool κ D Exact → Nat → Prop} (invariant : Invariant resume fine most c root kept)
    {log : List (Handled κ D Exact)} (scheduled : Scheduled resume c root log pool roots)
    (fair : Fair resume fine most pool) (holds : kept pool roots) (k : Nat) :
    Concludes (fun out => Filled resume fine most c root out ∧ kept out.1 out.2)
      (fun e => Exhausted resume c root e ∧
        ∃ pool, pool.buffer = [] ∧ pool.count < c.particles.val ∧ kept pool c.mostRoots)
      fun fuel => schedule resume (fuel + k) c root fuel pool roots := by
  -- The induction is on how many particles may still be processed. A turn takes one unit of the fuel that
  -- the loop counts, but not of that which it runs particles with, so that `k` grows.
  induction measured : remaining c most pool.buffer roots using Nat.strong_induction_on
    generalizing log pool roots k with
  | _ n ih =>
    have few {p : Particle κ D Exact} {after : Pool κ D Exact} {o : Outcome κ D Exact}
        {arrivals : Arrivals Exact} {fuel : Nat}
        (settling : Yields (settle resume fuel c p after) (o, arrivals)) :
        o.children.length ≤ c.bufferSize := by
      have fits := (settle_explained settling).2
      omega
    cases waiting : pool.buffer with
    | cons p buffer =>
      have all := fair.buffer
      rw [waiting] at all
      obtain ⟨first, others⟩ := List.forall_mem_cons.mp all
      have left : Fair resume fine most { pool with buffer } := ⟨others, fair.finished, fair.averages⟩
      refine turn_concludes (invariant.next holds fair waiting) first fair.averages (fun fuel => ?_) ?_
      · rw [schedule, waiting]
      · intro o arrivals ⟨fuel, settling⟩ settled averages holds
        have fewer := remaining_into settled (few settling) { pool with buffer } arrivals roots
        refine ih _ ?_ (scheduled.next waiting settling) (left.into settled averages) holds (1 + k) rfl
        rw [← measured, waiting, remaining_cons]
        exact fewer
    | nil =>
      by_cases enough : c.particles.val ≤ pool.count
      · refine Concludes.spend (.pure (a := (pool, roots))
          ⟨⟨⟨log, scheduled⟩, waiting, enough, fair⟩, holds⟩) fun fuel => ?_
        rw [schedule, waiting]
        simp only [if_pos enough]
      have short := Nat.lt_of_not_le enough
      by_cases spent : c.mostRoots ≤ roots
      · have all : roots = c.mostRoots := Nat.le_antisymm (scheduled.accounted room).roots_le spent
        refine Concludes.spend (.fail (e := .inference (.rootsExhausted pool.count c.particles.shown roots))
          ?_) fun fuel => ?_
        · rw [all] at scheduled holds ⊢
          exact ⟨⟨log, pool, scheduled, waiting, short, rfl⟩, pool, waiting, short, holds⟩
        · rw [schedule, waiting]
          simp only [if_neg enough, if_pos spent]
      · have more := Nat.lt_of_not_le spent
        refine turn_concludes (invariant.root holds fair waiting short more) ready fair.averages
          (fun fuel => ?_) ?_
        · rw [schedule, waiting]
          simp only [if_neg enough, if_neg spent]
        · intro o arrivals ⟨fuel, settling⟩ settled averages holds
          have fewer := remaining_into settled (few settling) pool arrivals (roots + 1)
          refine ih _ ?_ (scheduled.root waiting short more settling) (fair.into settled averages) holds
            (1 + k) rfl
          rw [waiting, start] at fewer
          rw [← measured, waiting, remaining_nil more]
          exact fewer

/-- A program whose executions all end takes a cascade to enough finished particles, or to the last
of its roots. -/
theorem collect_concludes [AnsweringHost σ D] {entry : κ} {s : Store} (room : 1 ≤ c.bufferSize)
    (terminates : Terminates resume fine most entry s) {kept : Pool κ D Exact → Nat → Prop}
    (invariant : Invariant resume fine most c (rootAt entry s) kept) :
    Concludes (fun out => Filled resume fine most c (rootAt entry s) out ∧ kept out.1 out.2)
      (fun e => Exhausted resume c (rootAt entry s) e ∧
        ∃ pool, pool.buffer = [] ∧ pool.count < c.particles.val ∧ kept pool c.mostRoots)
      fun fuel => collect resume fuel c entry s :=
  schedule_concludes room (ready_root terminates) rfl invariant .start ⟨nofun, nofun, nofun⟩
    invariant.start 0

/-- Particles of a program whose executions all end settle, whatever else is true of the pool. -/
theorem invariant_true [AnsweringHost σ D] (ready : Ready resume fine most root) :
    Invariant resume fine most c root fun _ _ => True := by
  constructor
  case start => trivial
  case next =>
    intro p buffer pool roots _ fair waiting
    have first := fair.buffer p (waiting ▸ List.mem_cons_self)
    have settles : Concludes _ _ fun fuel => settle resume fuel c p { pool with buffer } :=
      settle_fair first fair.averages
    exact settles.imp (fun _ _ => trivial) fun _ impossible => impossible
  case root =>
    intro pool roots _ fair _ _ _
    have settles := settle_fair (c := c) ready fair.averages
    exact settles.imp (fun _ _ => trivial) fun _ impossible => impossible

omit [LawfulHost σ D Exact] in
theorem Scheduled.unstarted {log : List (Handled κ D Exact)}
    (scheduled : Scheduled resume c root log pool roots) (none : roots = 0) :
    pool.buffer = [] ∧ pool.count = 0 := by
  induction scheduled with
  | start => exact ⟨rfl, rfl⟩
  | next before waiting settles ih =>
    rw [(ih none).1] at waiting
    cases waiting
  | root => cases none

/-- The marginal of the finished particles. -/
noncomputable def marginalOf (pool : Pool κ D Exact) (roots : Nat) :
    Except Failure (Marginal Value Exact) :=
  let finished := pool.finished.reverse
  let weights := finished.map (·.weight)
  Marginal.ofLogWeights (finished.map fun p => p.trace.value?.getD .absent) weights
    (some (Score.logSumExp weights - Score.logNat roots)) []
    [("roots", .count roots), ("finished", .count finished.length)]

theorem marginalOf_succeeds (keyed : ∀ v, fine v → ∃ key, v.key = .ok key)
    (fair : Fair resume fine most pool) (some_there : pool.finished ≠ []) (roots : Nat) :
    ∃ M, marginalOf pool roots = .ok M := by
  let found := pool.finished.reverse.map fun p => (p.trace.value?.getD .absent, p.weight)
  have values : found.map (·.1) = pool.finished.reverse.map fun p => p.trace.value?.getD .absent := by
    rw [List.map_map]
    rfl
  have weights : found.map (·.2) = pool.finished.reverse.map (·.weight) := by
    rw [List.map_map]
    rfl
  have done : ∀ q ∈ found, q.2.IsReal ∧ ∃ key, q.1.key = .ok key := by
    intro q member
    obtain ⟨p, present, rfl⟩ := List.mem_map.mp member
    obtain ⟨⟨_, _, v, ending, holds⟩, real⟩ := fair.finished p (List.mem_reverse.mp present)
    obtain ⟨key, known⟩ := keyed v holds
    exact ⟨real, key, by simpa [Trace.value?, ending] using known⟩
  unfold marginalOf
  dsimp only
  rw [← values, ← weights]
  have massive : 0 < Exact.mass (found.map (·.2)) :=
    Exact.mass_pos (by simpa [found] using some_there) (List.forall_mem_map.mpr fun q member => (done q member).1)
  exact Marginal.ofLogWeights_succeeds (fun q member => .inl (done q member).1) massive
    fun q member => (done q member).2

/-- A cascade ended with enough particles, none of them waiting, from some of its roots. -/
structure Full (resume : Resume (EStateM Failure σ) κ D Exact) (c : Config) (entry : κ) (s : Store)
    (pool : Pool κ D Exact) (roots : Nat) : Prop where
  scheduled : ∃ log, Scheduled resume c (rootAt entry s) log pool roots
  drained : pool.buffer = []
  enough : c.particles.val ≤ pool.count
  started : 1 ≤ roots
  few : roots ≤ c.mostRoots

/-- Whatever the program does, the buffer of a cascade holds no more than it may, and what was ever
put into it was taken out and processed once, or still waits. With a program whose executions all
end, the cascade ends: it fails when it has started all its roots, nothing waits and too few
particles are finished, or it comes to a full pool; from there it returns the marginal, if the
values of the program can be grouped. -/
theorem cascade_scheduled [AnsweringHost σ D] {entry : κ} {s : Store}
    (some_asked : 1 ≤ c.particles.val) (room : 1 ≤ c.bufferSize)
    (terminates : Terminates resume fine most entry s) :
    (∀ log pool roots, Scheduled resume c (rootAt entry s) log pool roots →
      Accounted resume c log pool roots) ∧
    Concludes (fun out => Full resume c entry s out.1 out.2) (Exhausted resume c (rootAt entry s))
      (fun fuel => collect resume fuel c entry s) ∧
    ((∀ v, fine v → ∃ key, v.key = .ok key) →
      Concludes (fun M => ∃ pool roots, Full resume c entry s pool roots ∧ marginalOf pool roots = .ok M)
        (Exhausted resume c (rootAt entry s)) fun fuel => estimate resume fuel c entry s) := by
  have collects : Concludes (Filled resume fine most c (rootAt entry s)) (Exhausted resume c (rootAt entry s))
      fun fuel => collect resume fuel c entry s :=
    (collect_concludes room terminates (invariant_true (ready_root terminates))).imp
      (fun _ both => both.1) fun _ both => both.1
  have full {out : Pool κ D Exact × Nat} (filled : Filled resume fine most c (rootAt entry s) out) :
      Full resume c entry s out.1 out.2 := by
    obtain ⟨⟨log, scheduled⟩, drained, enough, _⟩ := filled
    refine ⟨⟨log, scheduled⟩, drained, enough, ?_, (scheduled.accounted room).roots_le⟩
    by_contra none
    have nothing := (scheduled.unstarted (by omega)).2
    omega
  refine ⟨fun log pool roots scheduled => scheduled.accounted room,
    collects.imp (fun _ filled => full filled) fun _ failed => failed, fun keyed => ?_⟩
  refine Concludes.bind collects fun (pool, roots) filled => ?_
  obtain ⟨log, scheduled⟩ := filled.1
  have finished : pool.finished ≠ [] := by
    intro none
    have counted := (scheduled.accounted room).count
    have enough := filled.2.2.1
    rw [none] at counted
    change pool.count = 0 at counted
    change c.particles.val ≤ pool.count at enough
    omega
  obtain ⟨M, made⟩ := marginalOf_succeeds keyed filled.2.2.2 finished roots
  refine Concludes.bind (.answers (Answers.note _)) fun _ _ => ?_
  exact .answers (.lift made ⟨pool, roots, full filled, made⟩)

end

section

open ProbCore.Filter (headsWeighed)

theorem plain_answers {σ κ D : Type} [Host (EStateM Failure σ) D Exact] [LawfulHost σ D Exact]
    {P : PlainProgram κ D Exact} {k : κ} {s : Store} {v : Value} {step : Step κ D Exact}
    {good : Step κ D Exact → Prop} (goes : P.next k s v = .ok step) (holds : good step) :
    Answers good (P.resume k s v : EStateM Failure σ _) := .lift goes holds

abbrev Coins : Type := Endless fairCoin

noncomputable abbrev coinResume : Resume (EStateM Failure Coins) Nat Unit Exact := headsWeighed.resume

theorem coin_answers :
    Answers (fun v => v = .bool false ∨ v = .bool true) (Host.draw () : EStateM Failure Coins Value) := by
  have listed : Endless.listed fairCoin () = [.bool false, .bool true] := rfl
  have some_listed : Endless.listed fairCoin () ≠ [] := listed ▸ List.cons_ne_nil _ _
  refine (Endless.draw_answers some_listed).imp fun v _ member => ?_
  rw [listed] at member
  simpa using member

/-- The coin is drawn, and after heads two factors are absorbed. -/
theorem headsWeighed_terminates :
    Terminates coinResume (fun v => ∃ key, v.key = .ok key) 2 0 .empty := by
  let fine : Value → Prop := fun v => ∃ key, v.key = .ok key
  have ends (n : Nat) : Halts coinResume fine n (.exit .empty .absent) := .exit ⟨_, rfl⟩
  have second : Halts coinResume fine 1 (.factor .empty 3 .root (.real 2)) :=
    .absorb (.inl ⟨2, rfl⟩) (fun _ => plain_answers rfl trivial) fun step _ returned =>
      (plain_answers rfl (ends 0)).holds returned
  have first : Halts coinResume fine 2 (.factor .empty 2 .root (.real 1)) :=
    .absorb (.inl ⟨1, rfl⟩) (fun _ => plain_answers rfl trivial) fun step _ returned =>
      (plain_answers rfl second).holds returned
  have goes (v : Value) (drawn : CanReturn (Host.draw () : EStateM Failure Coins Value) v) :
      Answers (Halts coinResume fine 2) (coinResume 1 .empty v) := by
    rcases coin_answers.holds drawn with rfl | rfl
    · exact plain_answers rfl (.exit ⟨_, rfl⟩)
    · exact plain_answers rfl first
  refine plain_answers rfl (.choose rfl (coin_answers.imp fun _ _ _ => trivial)
    (fun v _ => ⟨_, rfl, .inl ⟨_, rfl⟩⟩) (fun v _ drawn _ => ?_) fun v _ step drawn _ returned => ?_)
  · exact (goes v drawn).imp fun _ _ _ => trivial
  · exact (goes v drawn).holds returned

/-- Two particles from at most five roots, with room for three that wait. -/
theorem headsWeighed_scheduled :
    (∀ log pool roots, Scheduled coinResume ⟨.count 2, 3, 5⟩ (rootAt 0 .empty) log pool roots →
      pool.buffer.length ≤ 3) ∧
    Concludes (fun M => ∃ pool roots, Full coinResume ⟨.count 2, 3, 5⟩ 0 .empty pool roots ∧
        marginalOf pool roots = .ok M)
      (Exhausted coinResume ⟨.count 2, 3, 5⟩ (rootAt 0 .empty))
      fun fuel => estimate coinResume fuel ⟨.count 2, 3, 5⟩ 0 .empty := by
  obtain ⟨accounted, _, returns⟩ := cascade_scheduled (c := ⟨.count 2, 3, 5⟩) (by decide) (by decide)
    headsWeighed_terminates
  exact ⟨fun log pool roots scheduled => (accounted log pool roots scheduled).bounded,
    returns fun _ keyed => keyed⟩

/-- A dictionary whose entries cannot be sorted, and which therefore has no key. -/
def unsorted : Value := .dict [(.int 1, .int 0), (.text "a", .int 0)]

def endsUnsorted : PlainProgram Unit Unit Exact where
  entry := ()
  next _ s _ := .ok (.exit s unsorted)

noncomputable abbrev unsortedResume : Resume (EStateM Failure Coins) Unit Unit Exact :=
  endsUnsorted.resume

/-- The cascade of a program that ends at once, with a value without a key, finishes its particle
and then fails, without having run out of roots. -/
theorem endsUnsorted_ungrouped :
    Terminates unsortedResume (fun _ => True) 0 () .empty ∧
    ∀ (w : Coins) (fuel : Nat), 2 ≤ fuel →
      estimate unsortedResume fuel ⟨.count 1, 1, 1⟩ () .empty w = .error .illTyped w := by
  refine ⟨plain_answers (P := endsUnsorted) rfl (.exit trivial), fun w fuel enough => ?_⟩
  obtain ⟨fuel, rfl⟩ := Nat.exists_eq_add_of_le' enough
  rfl

end

end ProbCore.Cascade
