import ProbCore.Proofs.ExhaustiveMarginal
import ProbCore.Proofs.ImpossibleEvidence
import ProbCore.Proofs.Reversibility

/-! Sampling invents no values. What a sampling strategy returns is the value of an execution that
an exhaustive search finds as well, with positive probability, provided that a value which is
moved from one choice to another at the same address is a member of the support it comes to, and
not merely equal to one. -/

namespace ProbCore

open Kernel (tolerable)

/-- Log densities and factors are finite or impossible. -/
def ExecutionTree.Temperate : ExecutionTree Exact → Prop
  | leaf _ => True
  | factor x rest => (x.IsReal ∨ x = .negInf) ∧ rest.Temperate
  | choice branches rest =>
    (∀ b ∈ branches, b.2.IsReal ∨ b.2 = .negInf) ∧ ∀ b ∈ branches, (rest b.1).Temperate

theorem ExecutionTree.Temperate.weighable {tree : ExecutionTree Exact} (temperate : tree.Temperate) :
    tree.Weighable := by
  induction tree with
  | leaf value => trivial
  | factor x rest ih =>
    refine ⟨?_, ih temperate.2⟩
    rintro rfl
    rcases temperate.1 with ⟨_, same⟩ | same
    all_goals cases same
  | choice branches rest ih => exact ⟨temperate.1, fun b member => ih b.1 (temperate.2 b member)⟩

section

variable {κ D : Type} {laws : Densities D Exact} {P : PlainProgram κ D Exact}
  {tree : ExecutionTree Exact} {k k' : κ} {s s' : Store} {u v : Value}

/-- A rest of the program whose executions are all in the tree. -/
def Within (laws : Densities D Exact) (P : PlainProgram κ D Exact) (tree : ExecutionTree Exact) (k : κ)
    (s : Store) (u : Value) : Prop :=
  ∃ (score : ℝ) (subtree : ExecutionTree Exact), subtree.Temperate ∧
    (∀ step, P.next k s u = .ok step → Unfolds laws P (.real score) step subtree) ∧
    ∀ e ∈ subtree.executions (.real score), e ∈ tree.executions 0

namespace Within

theorem exit (within : Within laws P tree k s u) (goes : P.next k s u = .ok (.exit s' v)) :
    ∃ x : ℝ, (v, .real x) ∈ tree.executions 0 := by
  obtain ⟨score, subtree, _, unfolds, inside⟩ := within
  cases unfolds _ goes
  exact ⟨score, inside _ List.mem_cons_self⟩

theorem factor_temperate {a : Address} {x : Exact} (within : Within laws P tree k s u)
    (goes : P.next k s u = .ok (.factor s' k' a x)) : x.IsReal ∨ x = .negInf := by
  obtain ⟨score, subtree, temperate, unfolds, _⟩ := within
  cases unfolds _ goes
  exact temperate.1

theorem absorb {a : Address} {x : Exact} (within : Within laws P tree k s u)
    (goes : P.next k s u = .ok (.factor s' k' a x)) (fine : tolerable x = true) :
    Within laws P tree k' s' .absent := by
  obtain ⟨score, subtree, temperate, unfolds, inside⟩ := within
  cases unfolds _ goes with
  | @factor _ _ _ _ _ next rest resumes later =>
    rcases temperate.1 with ⟨y, rfl⟩ | rfl
    · have going : Score.isHopeless (.real score + .real y : Exact) = false := rfl
      refine ⟨score + y, rest, temperate.2, fun step goes => ?_, fun e member => ?_⟩
      · rw [resumes going] at goes
        cases goes
        exact later going
      · apply inside
        rw [ExecutionTree.executions, going]
        exact member
    · cases fine

theorem choose {a : Address} {d : D} (within : Within laws P tree k s u)
    (goes : P.next k s u = .ok (.sample s' k' a d)) (listed : Listed laws d v) :
    Within laws P tree k' s' v := by
  obtain ⟨score, subtree, temperate, unfolds, inside⟩ := within
  obtain ⟨vs, lp, support, member, density, mass⟩ := listed
  cases unfolds _ goes with
  | @choice _ _ _ _ _ branches next rest values weighed resumes later =>
    rw [support] at values
    cases values
    obtain ⟨b, present, rfl⟩ := List.mem_map.mp member
    have same := weighed b present
    rw [density] at same
    cases same
    have heavy : possible b = true := by rw [possible, mass]; rfl
    rcases temperate.1 b present with ⟨l, known⟩ | known
    · have total : Exact.real score + b.2 = .real (score + l) := by rw [known, Exact.real_add]
      refine ⟨score + l, rest b.1, temperate.2 b present, fun step goes => ?_, fun e found => ?_⟩
      · rw [resumes b present heavy] at goes
        cases goes
        rw [← total]
        exact later b present heavy
      · apply inside
        rw [ExecutionTree.executions]
        refine List.mem_flatMap.mpr ⟨b, List.mem_filter.mpr ⟨present, heavy⟩, ?_⟩
        rwa [total]
    · rw [known] at mass
      cases mass

end Within

end

variable {σ κ D : Type} [Host (EStateM Failure σ) D Exact] [LawfulHost σ D Exact]

/-- The values that are listed by a distribution of the host, with mass. -/
abbrev Member (σ : Type) {D : Type} [Host (EStateM Failure σ) D Exact] [LawfulHost σ D Exact] (d : D)
    (v : Value) : Prop :=
  Listed (LawfulHost.densities σ) d v

section

variable [SoundHost σ D Exact] {P : PlainProgram κ D Exact} {s : Store} {tree : ExecutionTree Exact}
  {step : Step κ D Exact} {cs : List (Address × D × Value)} {xs : List Exact} {v : Value}

/-- Executions that take listed values, and absorb what is tolerated, stay within the tree. -/
theorem reaches_within (begins : P.next P.entry s .absent = .ok step)
    (unfolds : Unfolds (LawfulHost.densities σ) P Score.zero step tree) (temperate : tree.Temperate)
    {k : κ} {s' : Store} {u : Value}
    (reaches : Reaches (P.resume : Resume (EStateM Failure σ) κ D Exact) (Member σ) P.entry s cs xs k s' u)
    (tolerated : Tolerated xs) : Within (LawfulHost.densities σ) P tree k s' u := by
  induction reaches with
  | start =>
    refine ⟨0, tree, temperate, fun next goes => ?_, fun e member => member⟩
    rw [begins] at goes
    cases goes
    rwa [Exact.zero_eq] at unfolds
  | choose before goes choice ih => exact (ih tolerated).choose goes.lift choice
  | absorb before goes ih =>
    have earlier := ih fun x member => tolerated x (List.mem_append_left _ member)
    exact earlier.absorb goes.lift (tolerated _ (List.mem_append_right _ List.mem_cons_self))

theorem executes_within (begins : P.next P.entry s .absent = .ok step)
    (unfolds : Unfolds (LawfulHost.densities σ) P Score.zero step tree) (temperate : tree.Temperate)
    (executes : Executes (P.resume : Resume (EStateM Failure σ) κ D Exact) (Member σ) P.entry s cs xs v)
    (tolerated : Tolerated xs) : ∃ x : ℝ, (v, .real x) ∈ tree.executions 0 := by
  obtain ⟨s', k, s₁, u, reaches, goes⟩ := executes
  exact (reaches_within begins unfolds temperate reaches tolerated).exit goes.lift

/-- No execution of the tree absorbs a factor that is no number. -/
theorem not_blinded (begins : P.next P.entry s .absent = .ok step)
    (unfolds : Unfolds (LawfulHost.densities σ) P Score.zero step tree) (temperate : tree.Temperate)
    (executes : Executes (P.resume : Resume (EStateM Failure σ) κ D Exact) (Member σ) P.entry s cs xs v) :
    ¬ Blinded xs := by
  rintro ⟨ys, x, zs, absorbed, tolerated, blind⟩
  obtain ⟨_, _, _, _, reaches, _⟩ := executes
  obtain ⟨_, _, _, _, _, _, _, before, goes⟩ := reaches.factor_before absorbed
  rcases (reaches_within begins unfolds temperate before tolerated).factor_temperate goes.lift with
    ⟨_, rfl⟩ | rfl
  all_goals cases blind

/-- A value that is taken where another distribution has the address, and that is accepted there,
is listed there. -/
def Separate (σ : Type) {κ D : Type} [Host (EStateM Failure σ) D Exact] [LawfulHost σ D Exact]
    (P : PlainProgram κ D Exact) (s : Store) : Prop :=
  ∀ cs xs s' k a d (c : Choice κ D Exact),
    Arrives (P.resume : Resume (EStateM Failure σ) κ D Exact) (Member σ) P.entry s cs xs (.sample s' k a d) →
    Met (P.resume : Resume (EStateM Failure σ) κ D Exact) (Member σ) P.entry s c →
    (c.address == a) = true → (LawfulHost.densities σ).accepts d c.value = .ok true →
    ∃ vs, (LawfulHost.densities σ).support d = .ok vs ∧ c.value ∈ vs

/-- Then the kernel only gives listed values to choices. -/
theorem chooses_members {moving : Prop} (separate : moving → Separate σ P s)
    (draws : ∀ d v, Yields (Host.draw d : EStateM Failure σ Value) v → Member σ d v) :
    Kernel.Chooses moving (P.resume : Resume (EStateM Failure σ) κ D Exact) (Member σ) P.entry s := by
  intro cs xs s' k a d v arrives offered massive
  rcases offered with drawn | ⟨c, ⟨moves, met⟩, same, rfl, accepted⟩
  · exact draws d v drawn
  · obtain ⟨lp, weighed, mass⟩ := massive
    rw [accepts_eq] at accepted
    rw [LawfulHost.logDensity_eq] at weighed
    obtain ⟨vs, support, member⟩ := separate moves cs xs s' k a d c arrives met same accepted.lift
    exact ⟨vs, lp, support, member, weighed.lift, mass⟩

end

/-- Whether a strategy moves its traces. -/
def Strategy.Moves {R : Type} : Strategy R → Prop
  | .enumerate _ | .rejection _ | .asyncpf _ => False
  | .mcmc _ | .pmcmc _ => True
  | .smc c => c.moves ≠ 0

/-- Whether a strategy draws its executions, and does not search for them. -/
def Strategy.Draws {R : Type} : Strategy R → Prop
  | .enumerate _ => False
  | _ => True

theorem Marginal.massOf_pos {found : List (Value × Exact)} {v : Value} {x : ℝ} {k : Value.Key}
    (member : (v, .real x) ∈ found) (known : v.key = .ok k) (itself : (k == k) = true) :
    0 < massOf k found := by
  have identified : v.identifiedBy k = true := by rw [Value.identifiedBy, known]; exact itself
  have inside : Exact.real x ∈ (found.filter (·.1.identifiedBy k)).map (·.2) :=
    List.mem_map.mpr ⟨_, List.mem_filter.mpr ⟨member, identified⟩, rfl⟩
  have least : Real.exp x ≤ massOf k found :=
    List.single_le_sum (List.forall_mem_map.mpr fun w _ => w.weight_nonneg) _
      (List.mem_map_of_mem (f := Exact.weight) inside)
  exact lt_of_lt_of_le (Real.exp_pos x) least

section

variable [SoundHost σ D Exact] {P : PlainProgram κ D Exact} {s : Store} {tree : ExecutionTree Exact}
  {step : Step κ D Exact} {c : Strategy Exact} {fuel : Nat} {M : Marginal Value Exact}

/-- What a strategy draws are values of executions in the tree. -/
theorem estimate_within (begins : P.next P.entry s .absent = .ok step)
    (unfolds : Unfolds (LawfulHost.densities σ) P Score.zero step tree) (temperate : tree.Temperate)
    (draws : ∀ d v, Yields (Host.draw d : EStateM Failure σ Value) v → Member σ d v)
    (number : ∀ x, Yields (Host.logUniform : EStateM Failure σ Exact) x → Score.isNaN x = false)
    (separate : c.Moves → Separate σ P s) (drawn : c.Draws)
    (yields : Yields (c.estimate (P.resume : Resume (EStateM Failure σ) κ D Exact) fuel P.entry s) M) :
    ∃ vs, M.Pools vs ∧ ∀ v ∈ vs, ∃ x : ℝ, (v, .real x) ∈ tree.executions 0 := by
  have returned {moving : Prop} (separate : moving → Separate σ P s)
      (supplies : Kernel.Supplies moving (P.resume : Resume (EStateM Failure σ) κ D Exact) P.entry s M) :
      ∃ vs, M.Pools vs ∧ ∀ v ∈ vs, ∃ x : ℝ, (v, .real x) ∈ tree.executions 0 := by
    obtain ⟨vs, pools, returned⟩ := supplies
    refine ⟨vs, pools, fun v member => ?_⟩
    obtain ⟨t, made, ending⟩ := returned v member
    obtain ⟨xs, executes, tolerated⟩ := made.executes (chooses_members separate draws) ending
    exact executes_within begins unfolds temperate executes tolerated
  cases c with
  | enumerate c => exact drawn.elim
  | rejection c =>
    obtain ⟨vs, pools, accepted⟩ := Rejection.estimate_accepted draws (fun _ => number) yields
    refine ⟨vs, pools, fun v member => ?_⟩
    obtain ⟨cs, xs, executes, tolerated | ⟨_, blinded⟩⟩ := accepted v member
    · exact executes_within begins unfolds temperate executes tolerated
    · exact absurd blinded (not_blinded begins unfolds temperate executes)
  | mcmc c => exact returned separate (Chain.estimate_supplies yields)
  | smc c => exact returned separate (Filter.estimate_supplies yields)
  | pmcmc c => exact returned separate (OpeningChain.estimate_supplies yields)
  | asyncpf c => exact returned separate (Cascade.estimate_supplies yields)

/-- What a sampling strategy returns are values of executions in the tree. An exhaustive search of
the same program returns a marginal as well, if every value has a key, and it gives these values
positive probability. -/
theorem sampled_values_enumerated (begins : P.next P.entry s .absent = .ok step)
    (unfolds : Unfolds (LawfulHost.densities σ) P Score.zero step tree) (temperate : tree.Temperate)
    (draws : ∀ d v, Yields (Host.draw d : EStateM Failure σ Value) v → Member σ d v)
    (number : ∀ x, Yields (Host.logUniform : EStateM Failure σ Exact) x → Score.isNaN x = false)
    (separate : c.Moves → Separate σ P s) (drawn : c.Draws)
    (yields : Yields (c.estimate (P.resume : Resume (EStateM Failure σ) κ D Exact) fuel P.entry s) M) :
    ∃ n, ∀ enough ≥ n, ∀ t v, v ∈ M.values ∨ v ∈ M.samples →
      let enumerated : EStateM Failure σ (Marginal Value Exact) :=
        Enumeration.estimate P.resume enough ⟨t, none⟩ P.entry s
      (∃ x : ℝ, (v, .real x) ∈ tree.executions 0) ∧
      ((∀ e ∈ tree.executions 0, ∃ k, e.1.key = .ok k) → ∃ N, Returns enumerated N) ∧
      ∀ N, CanReturn enumerated N → ∀ k, v.key = .ok k → (k == k) = true →
        ∃ p > 0, N.prob v = .ok (.real p) := by
  have has : HasTree (P.resume : Resume (EStateM Failure σ) κ D Exact) P.entry s tree :=
    ⟨P, _, step, P.resume_performs, rfl, begins, unfolds⟩
  obtain ⟨n, masses⟩ := estimate_masses has temperate.weighable
  obtain ⟨vs, pools, within⟩ := estimate_within begins unfolds temperate draws number separate drawn yields
  refine ⟨n, fun enough more t v member => ?_⟩
  obtain ⟨shares, succeeds⟩ := masses enough more t
  obtain ⟨x, found⟩ := within v (pools.mem member)
  refine ⟨⟨x, found⟩, fun keyed => ?_, fun N returned k known itself => ?_⟩
  · exact succeeds (List.ne_nil_of_mem found) keyed
  · have real := ExecutionTree.executions_real temperate.weighable ⟨0, rfl⟩
    have total : 0 < Exact.mass ((tree.executions 0).map (·.2)) :=
      Exact.mass_pos (by simpa using List.ne_nil_of_mem found) (List.forall_mem_map.mpr real)
    exact ⟨_, div_pos (Marginal.massOf_pos found known itself) total, (shares N returned).2 v k known⟩

end

namespace MixedCoin

open Kernel

open SecondCoin (first second)

inductive Family where
  | flip | bernoulli

noncomputable def laws : Densities Family Exact where
  enumerable _ := true
  support
    | .flip => .ok [.bool false, .bool true]
    | .bernoulli => .ok [.int 0, .int 1]
  logDensity _ _ := .ok SecondCoin.half

/-- A coin, and after it a second one, whose family depends on the first one. The second one is
returned after tails only. -/
def program (family : Family) : PlainProgram Nat Family Exact where
  entry := 0
  next
    | 0, s, _ => .ok (.sample s 1 first .flip)
    | 1, s, .bool true => .ok (.sample s 2 second .flip)
    | 1, s, _ => .ok (.sample s 3 second family)
    | 2, s, _ => .ok (.exit s (.int 0))
    | _, s, v => .ok (.exit s v)

noncomputable abbrev resume (family : Family) : Resume (EStateM Failure (Careful laws)) Nat Family Exact :=
  (program family).resume

theorem listed (b : Bool) : Listed laws .flip (.bool b) :=
  ⟨_, _, rfl, by cases b <;> simp, rfl, rfl⟩

theorem accepts (family : Family) : laws.accepts family (.bool true) = .ok true := by
  cases family with
  | flip => exact congrArg Except.ok (bools_contain true)
  | bernoulli =>
    have contained : [Value.int 0, Value.int 1].contains (.bool true) = true := by
      simp [List.contains, List.elem, BEq.beq, Value.beq, Value.Number.beq]
    exact congrArg Except.ok contained

variable {limit : Option Nat} {old : Option (Trace Nat Family Exact)} {tape : Recording Nat Family Exact}
  {k : Nat} {a : Address} {family : Family} {rest : List (Draw Exact)}

theorem sample_drawn (hashable : a.isHashable = true) (b : Bool)
    (fresh : carried laws old tape.reused a .flip = .ok none) :
    (handler limit old : Handler (EStateM Failure (Careful laws)) Nat Family Exact _ _).sample tape .empty k
      a .flip ⟨.value (.bool b) :: rest⟩ =
    .ok (.deliver ((tape.draw SecondCoin.half).record .empty k a .flip (.bool b) SecondCoin.half) (.bool b))
      ⟨rest⟩ := by
  have drew : (Host.draw .flip : EStateM Failure (Careful laws) Value) ⟨.value (.bool b) :: rest⟩ =
      .ok (.bool b) ⟨rest⟩ := Careful.draw_eq_ok.mpr ⟨rfl, listed b⟩
  exact samples_drawn hashable fresh drew rfl

noncomputable def blank : Recording Nat Family Exact := ⟨[], Score.zero, Score.zero, 0, [], Score.zero⟩

/-- Heads, and heads again. -/
noncomputable def heads : Recording Nat Family Exact :=
  (blank.draw SecondCoin.half).record .empty 1 first .flip (.bool true) SecondCoin.half

noncomputable def twice : Recorded Nat Family Exact :=
  ((heads.draw SecondCoin.half).record .empty 2 second .flip (.bool true) SecondCoin.half).finish .empty
    (.done (.int 0))

theorem simulates : simulate (resume family) 3 0 .empty none
    ⟨.value (.bool true) :: .value (.bool true) :: rest⟩ = .ok (some twice.trace) ⟨rest⟩ := by
  refine bind_eq_ok.mpr ⟨.sample .empty 1 first .flip, _, rfl, ?_⟩
  refine bind_eq_ok.mpr ⟨some twice, ⟨rest⟩, ?_, rfl⟩
  refine bind_eq_ok.mpr ⟨_, _, sample_drawn (SecondCoin.hashable (.inl rfl)) true rfl, ?_⟩
  refine bind_eq_ok.mpr ⟨.sample .empty 2 second .flip, _, rfl, ?_⟩
  refine bind_eq_ok.mpr ⟨_, _, sample_drawn (SecondCoin.hashable (.inr rfl)) true rfl, ?_⟩
  exact bind_eq_ok.mpr ⟨.exit .empty (.int 0), _, rfl, rfl⟩

/-- The first coin is redrawn. -/
noncomputable def site : Choice Nat Family Exact :=
  ⟨first, .flip, .bool true, SecondCoin.half, 1, .empty, Score.zero, Score.zero, 0⟩

noncomputable def redrawn : Recording Nat Family Exact :=
  siteTape twice.trace 0 site (.bool false) SecondCoin.half

/-- Tails, and the heads of the second coin are kept, though another coin is there now. -/
noncomputable def kept (family : Family) : Recorded Nat Family Exact :=
  ((redrawn.keep second).record .empty 3 second family (.bool true) SecondCoin.half).finish .empty
    (.done (.bool true))

theorem carries : carried laws (some twice.trace) redrawn.reused second family = .ok (some (.bool true)) := by
  have choice : twice.trace.choiceAt? second =
      some ⟨second, .flip, .bool true, SecondCoin.half, 2, .empty, heads.score, heads.prior, 0⟩ := by
    simp [Trace.choiceAt?, twice, heads, blank, Recording.finish, Recording.snapshot, Recording.record,
      Recording.draw, SecondCoin.apart, SecondCoin.second_itself]
  have unspent : redrawn.reused.contains second = false := by
    simp [redrawn, siteTape, Recording.record, twice, heads, blank, Recording.finish, Recording.snapshot,
      Recording.draw, SecondCoin.second_apart]
  rw [carried, Option.bind_some, choice]
  dsimp only
  rw [unspent, accepts]
  rfl

theorem regenerates : regenerate (resume family) 3 twice.trace none
    ⟨.index 0 :: .value (.bool false) :: rest⟩ =
      .ok (some ((kept family).trace, logRatio twice.trace 0 site SecondCoin.half (kept family))) ⟨rest⟩ := by
  refine bind_eq_ok.mpr ⟨0, ⟨.value (.bool false) :: rest⟩, rfl, ?_⟩
  refine bind_eq_ok.mpr ⟨.bool false, ⟨rest⟩, Careful.draw_eq_ok.mpr ⟨rfl, listed false⟩, ?_⟩
  refine bind_eq_ok.mpr ⟨SecondCoin.half, _, rfl, ?_⟩
  refine bind_eq_ok.mpr ⟨.sample .empty 3 second family, _, rfl, ?_⟩
  refine bind_eq_ok.mpr ⟨some (kept family), ⟨rest⟩, ?_, rfl⟩
  refine bind_eq_ok.mpr
    ⟨.deliver ((redrawn.keep second).record .empty 3 second family (.bool true) SecondCoin.half)
      (.bool true), ⟨rest⟩, ?_, ?_⟩
  · have weighs : laws.logDensity family (.bool true) = .ok SecondCoin.half := rfl
    have plain := SecondCoin.hashable (.inr rfl : second = first ∨ second = second)
    exact samples_kept (σ := Careful laws) plain carries weighs
  · exact bind_eq_ok.mpr ⟨.exit .empty (.bool true), _, rfl, rfl⟩

theorem ratio_real : (logRatio twice.trace 0 site SecondCoin.half (kept family)).IsReal := by
  have two : (Score.logNat 2 : Exact) = .real (Real.log 2) := by
    change Exact.log (.real ((2 : ℕ) : ℝ)) = _
    norm_num [Exact.log]
  have sites : (kept family).trace.choices.length = 2 := rfl
  have sites' : (twice.trace).choices.length = 2 := rfl
  have none_dropped : dropped (twice.trace.choices.drop 1) (kept family).reused = [] := by
    simp [dropped, twice, heads, blank, kept, Recording.finish, Recording.snapshot, Recording.record,
      Recording.draw, Recording.keep, SecondCoin.second_itself]
  rw [logRatio, proposalScore, sites, sites', two, none_dropped]
  exact ⟨_, rfl⟩

def oneMove : Chain.Config := ⟨1, 0, 1, .count 1, false⟩

noncomputable def onlyHeads : Marginal Value Exact where
  values := [.bool true]
  logProbs := [Score.zero - Score.zero]
  normalization := none
  samples := [.bool true]
  diagnostics := [("acceptance_rate", .rate (Score.ofNat 1 / Score.ofNat 1))]

theorem moves (family : Family) : Yields ((Strategy.mcmc oneMove).estimate (resume family) 3 0 .empty) onlyHeads := by
  refine ⟨⟨[.value (.bool true), .value (.bool true), .index 0, .value (.bool false),
    .logUniform .negInf]⟩, ⟨[]⟩, ?_⟩
  refine bind_eq_ok.mpr ⟨twice.trace, _, bind_eq_ok.mpr ⟨_, _, simulates, rfl⟩, ?_⟩
  have accepted : Score.less (.negInf : Exact) (logRatio twice.trace 0 site SecondCoin.half (kept family)) = true := by
    obtain ⟨_, known⟩ : (logRatio twice.trace 0 site SecondCoin.half (kept family)).IsReal := ratio_real
    rw [known]
    rfl
  have moved : move (resume family) 3 twice.trace none
      ⟨[.index 0, .value (.bool false), .logUniform .negInf]⟩ = .ok ((kept family).trace, true) ⟨[]⟩ := by
    refine bind_eq_ok.mpr ⟨_, _, regenerates, ?_⟩
    refine bind_eq_ok.mpr ⟨.negInf, ⟨[]⟩, rfl, ?_⟩
    rw [if_pos accepted]
    rfl
  refine bind_eq_ok.mpr ⟨([.bool true], 1), _, bind_eq_ok.mpr ⟨_, _, moved, rfl⟩, ?_⟩
  rfl

noncomputable def faces : Family → List (Value × Exact)
  | .flip => [(.bool false, SecondCoin.half), (.bool true, SecondCoin.half)]
  | .bernoulli => [(.int 0, SecondCoin.half), (.int 1, SecondCoin.half)]

noncomputable def restTree (family : Family) : Value → ExecutionTree Exact
  | .bool true => .choice (faces .flip) fun _ => .leaf (.int 0)
  | _ => .choice (faces family) .leaf

noncomputable def tree (family : Family) : ExecutionTree Exact := .choice (faces .flip) (restTree family)

theorem choice_unfolds {P : PlainProgram Nat Family Exact} {score : Exact} {k : Nat} {a : Address}
    {rest : Value → ExecutionTree Exact} (next : Value → Step Nat Family Exact)
    (resumes : ∀ b ∈ faces family, P.next k .empty b.1 = .ok (next b.1))
    (unfolds : ∀ b ∈ faces family, Unfolds laws P (score + b.2) (next b.1) (rest b.1)) :
    Unfolds laws P score (.sample .empty k a family) (.choice (faces family) rest) := by
  refine .choice ?_ ?_ (fun b member _ => resumes b member) fun b member _ => unfolds b member
  · cases family with
    | flip => rfl
    | bernoulli => rfl
  · intro b member
    cases family
    all_goals
      rcases List.mem_cons.mp member with rfl | member
      on_goal 2 => obtain rfl := List.mem_singleton.mp member
    all_goals rfl

theorem begins : (program family).next (program family).entry .empty .absent =
    .ok (.sample .empty 1 first .flip) := rfl

theorem unfolds (family : Family) :
    Unfolds laws (program family) Score.zero (.sample .empty 1 first .flip) (tree family) := by
  let next : Value → Step Nat Family Exact
    | .bool true => .sample .empty 2 second .flip
    | _ => .sample .empty 3 second family
  refine choice_unfolds next ?_ ?_
  all_goals
    intro b member
    rcases List.mem_cons.mp member with rfl | member
    on_goal 2 => obtain rfl := List.mem_singleton.mp member
  · rfl
  · rfl
  · exact choice_unfolds (.exit .empty) (fun _ _ => rfl) fun _ _ => .exit
  · exact choice_unfolds (fun _ => .exit .empty (.int 0)) (fun _ _ => rfl) fun _ _ => .exit

theorem temperate (family : Family) : (tree family).Temperate := by
  have real (family : Family) : ∀ b ∈ faces family, b.2.IsReal ∨ b.2 = .negInf := by
    intro b member
    cases family
    all_goals
      rcases List.mem_cons.mp member with rfl | member
      on_goal 2 => obtain rfl := List.mem_singleton.mp member
    all_goals exact .inl ⟨_, rfl⟩
  refine ⟨real .flip, fun b member => ?_⟩
  rcases List.mem_cons.mp member with rfl | member
  on_goal 2 => obtain rfl := List.mem_singleton.mp member
  · exact ⟨real family, fun _ _ => trivial⟩
  · exact ⟨real .flip, fun _ _ => trivial⟩

theorem executions (family : Family) : ((tree family).executions 0).map (·.1) =
    (faces family).map (·.1) ++ [.int 0, .int 0] := by
  cases family with
  | flip => rfl
  | bernoulli => rfl

/-- With two coins of one family, what is kept is listed. -/
theorem separate : Separate (Careful laws) (program .flip) .empty := by
  have flips {k : Nat} {s s' : Store} {u : Value} {k' : Nat} {a : Address} {d : Family}
      (goes : Yields (resume .flip k s u) (.sample s' k' a d)) : d = .flip := by
    have known := Yields.lift goes
    unfold program at known
    dsimp only at known
    split at known
    all_goals cases known
    all_goals rfl
  intro cs xs s' k a d c arrives met _ _
  obtain ⟨_, _, _, _, goes⟩ := arrives
  obtain ⟨⟨vs, _, support, member, _⟩, _, _, _, _, _, _, goes'⟩ := met
  rw [flips goes' ] at support
  rw [flips goes]
  exact ⟨vs, support, member⟩

end MixedCoin

/-- With two coins of one family a move returns heads, which are enumerated. -/
theorem keptHeads_enumerated :
    Yields ((Strategy.mcmc MixedCoin.oneMove).estimate (MixedCoin.resume .flip) 3 0 .empty)
      MixedCoin.onlyHeads ∧
    ∃ n, ∀ enough ≥ n, ∀ t, ∃ N, Returns (Enumeration.estimate (MixedCoin.resume .flip) enough ⟨t, none⟩ 0
      .empty) N ∧ ∃ p > 0, N.prob (.bool true) = .ok (.real p) := by
  obtain ⟨n, enumerated⟩ := sampled_values_enumerated (c := .mcmc MixedCoin.oneMove)
    MixedCoin.begins (MixedCoin.unfolds .flip) (MixedCoin.temperate .flip) (fun _ _ => Careful.draw_listed) (fun _ => Careful.logUniform_number)
    (fun _ => MixedCoin.separate) trivial (MixedCoin.moves .flip)
  refine ⟨MixedCoin.moves .flip, n, fun enough more t => ?_⟩
  obtain ⟨_, succeeds, positive⟩ := enumerated enough more t (.bool true) (.inl List.mem_cons_self)
  have keyed : ∀ e ∈ (MixedCoin.tree .flip).executions 0, ∃ k, e.1.key = .ok k := by
    intro e member
    have value := List.mem_map_of_mem (f := Prod.fst) member
    rw [MixedCoin.executions] at value
    simp only [MixedCoin.faces, List.map_cons, List.map_nil, List.cons_append, List.nil_append,
      List.mem_cons, List.not_mem_nil, or_false] at value
    rcases value with same | same | same | same
    all_goals
      rw [same]
      exact ⟨_, rfl⟩
  obtain ⟨N, returns⟩ := succeeds keyed
  have itself : (Value.Key.atom (.bool true) == .atom (.bool true)) = true := by
    simp [BEq.beq, Value.Key.beq, Value.beq]
  exact ⟨N, returns, positive N returns.canReturn _ rfl itself⟩

/-- With coins of different families a move returns heads as well, and no execution does. -/
theorem foreign_value_sampled :
    Yields ((Strategy.mcmc MixedCoin.oneMove).estimate (MixedCoin.resume .bernoulli) 3 0 .empty)
      MixedCoin.onlyHeads ∧
    Unfolds MixedCoin.laws (MixedCoin.program .bernoulli) Score.zero
      (.sample .empty 1 SecondCoin.first .flip) (MixedCoin.tree .bernoulli) ∧
    (∀ x, (.bool true, x) ∉ (MixedCoin.tree .bernoulli).executions 0) ∧
    ∃ n, ∀ enough ≥ n, ∀ t N, CanReturn (Enumeration.estimate (MixedCoin.resume .bernoulli) enough ⟨t, none⟩
      0 .empty) N → N.prob (.bool true) = .ok (.real 0) := by
  have values : ∀ e ∈ (MixedCoin.tree .bernoulli).executions 0, ∃ i, e.1 = .int i := by
    intro e member
    have value := List.mem_map_of_mem (f := Prod.fst) member
    rw [MixedCoin.executions] at value
    simp only [MixedCoin.faces, List.map_cons, List.map_nil, List.cons_append, List.nil_append,
      List.mem_cons, List.not_mem_nil, or_false] at value
    rcases value with same | same | same | same
    all_goals exact ⟨_, same⟩
  refine ⟨MixedCoin.moves .bernoulli, MixedCoin.unfolds .bernoulli, fun x member => ?_, ?_⟩
  · obtain ⟨i, same⟩ := values _ member
    cases same
  have has : HasTree (MixedCoin.resume .bernoulli) 0 .empty (MixedCoin.tree .bernoulli) :=
    ⟨_, _, _, (MixedCoin.program .bernoulli).resume_performs, rfl, MixedCoin.begins, MixedCoin.unfolds .bernoulli⟩
  obtain ⟨n, masses⟩ := estimate_masses has (MixedCoin.temperate .bernoulli).weighable
  refine ⟨n, fun enough more t N returned => ?_⟩
  have none_there : Marginal.massOf (.atom (.bool true)) ((MixedCoin.tree .bernoulli).executions 0) = 0 := by
    have others : ((MixedCoin.tree .bernoulli).executions 0).filter
        (·.1.identifiedBy (.atom (.bool true))) = [] := by
      refine List.filter_eq_nil_iff.mpr fun e member => ?_
      obtain ⟨i, same⟩ := values e member
      rw [same]
      simp [Value.identifiedBy, Value.key, Value.isHashable, Value.kind, BEq.beq, Value.Key.beq]
    rw [Marginal.massOf, others]
    rfl
  rw [((masses enough more t).1 N returned).2 (.bool true) _ rfl, none_there, zero_div]

end ProbCore
