import ProbCore.Proofs.ExactScore
import ProbCore.Proofs.LawfulHost
import ProbCore.Proofs.NumberIdentity
import ProbCore.Dist.Basic

/-! The distributions over finitely many values, with the probabilities that textbooks give them. A
distribution lists each value that may come once, and the probabilities of the values that it lists add up
to one. -/

namespace ProbCore

namespace Value

/-- The real number that a scalar stands for. A truth value counts as 0 or 1. -/
noncomputable def real? (v : Value) : Option ℝ :=
  match v.scalar.number? with
  | some (.int n) => some n
  | some (.float x) =>
    match Decimal.quantity? x with
    | some (.finite q) => some q
    | _ => none
  | none => none

/-- The natural number that a scalar stands for exactly. -/
noncomputable def natural? (v : Value) : Option ℕ :=
  match v.toInt, v.real? with
  | .ok n, some x => if 0 ≤ n ∧ x = n then some n.toNat else none
  | _, _ => none

/-- The entries of a sequence of scalars, or of an array with one axis. -/
def entries? : Value → Option (List Value)
  | list xs | tuple xs => some xs
  | tensor ⟨[n], cells⟩ =>
    if cells.length = n then
      match cells with
      | .reals xs => some (xs.map float)
      | .ints ns => some (ns.map int)
      | .flags bs => some (bs.map bool)
    else none
  | _ => none

theorem length_of_entries? {v : Value} {items : List Value} (known : v.entries? = some items) :
    v.length = .ok items.length := by
  unfold entries? at known
  split at known
  next =>
    cases known
    rfl
  next =>
    cases known
    rfl
  next n cells =>
    split at known
    next whole =>
      subst whole
      cases cells <;> cases known <;> simp [length, Cells.length]
    next => cases known
  next => cases known

theorem length_of_mapM_real? {items : List Value} {xs : List ℝ} (read : items.mapM real? = some xs) :
    xs.length = items.length := by
  induction items generalizing xs with
  | nil =>
    cases read
    rfl
  | cons item items ih =>
    rw [List.mapM_cons] at read
    obtain ⟨x, _, read⟩ := Option.bind_eq_some_iff.mp read
    obtain ⟨xs, rest, same⟩ := Option.bind_eq_some_iff.mp read
    cases same
    rw [List.length_cons, List.length_cons, ih rest]

end Value

/-- A distribution over finitely many values. -/
inductive Chance where
  | flip (p : ℝ)
  | bernoulli (p : ℝ)
  | categorical (weights : List ℝ)
  | uniform (n : ℕ)
  | binomial (n : ℕ) (p : ℝ)

namespace Chance

def Valid : Chance → Prop
  | flip p | bernoulli p | binomial _ p => 0 ≤ p ∧ p ≤ 1
  | categorical weights => (∀ w ∈ weights, 0 ≤ w) ∧ 0 < weights.sum
  | uniform n => 1 ≤ n

/-- The probability of a value, if the value is among those that may come. -/
noncomputable def probability? : Chance → Value → Option ℝ
  | flip p, .bool b => some (if b then p else 1 - p)
  | bernoulli p, .int 0 => some (1 - p)
  | bernoulli p, .int 1 => some p
  | categorical weights, .int (.ofNat k) => weights[k]?.map (· / weights.sum)
  | uniform n, .int (.ofNat k) => if k < n then some (1 / n) else none
  | binomial n p, .int (.ofNat k) => if k ≤ n then some (n.choose k * p ^ k * (1 - p) ^ (n - k)) else none
  | _, _ => none

noncomputable def probability (c : Chance) (v : Value) : ℝ := (c.probability? v).getD 0

/-- The whole numbers below a count. -/
def counting (n : ℕ) : List Value := (List.range n).map fun k => .int (Int.ofNat k)

def values : Chance → List Value
  | flip _ => [.bool true, .bool false]
  | bernoulli _ => [.int 0, .int 1]
  | categorical weights => counting weights.length
  | uniform n => counting n
  | binomial n _ => counting (n + 1)

theorem counting_distinct (n : ℕ) : (counting n).Pairwise fun v v' => (v == v') = false := by
  refine List.pairwise_map.mpr (List.nodup_range.imp fun {i j} other => ?_)
  simpa [BEq.beq, Value.beq] using other

/-- No two of the values are equal. -/
theorem values_distinct (c : Chance) : c.values.Pairwise fun v v' => (v == v') = false := by
  cases c with
  | flip | bernoulli => simp [values, BEq.beq, Value.beq]
  | categorical | uniform | binomial => exact counting_distinct _

theorem sum_counting (f : Value → ℝ) (n : ℕ) :
    ((counting n).map f).sum = ∑ k ∈ Finset.range n, f (.int (Int.ofNat k)) := by
  rw [counting, List.map_map]
  rfl

theorem mem_counting {n : ℕ} {v : Value} : v ∈ counting n ↔ ∃ k < n, v = .int (Int.ofNat k) := by
  simp [counting, eq_comm]

/-- The values are those that have a probability. -/
theorem mem_values {c : Chance} {v : Value} : v ∈ c.values ↔ (c.probability? v).isSome := by
  cases c with
  | flip p => cases v <;> simp [values, probability?]
  | bernoulli p =>
    cases v with
    | int n =>
      by_cases zero : n = 0
      · simp [values, probability?, zero]
      by_cases one : n = 1
      · simp [values, probability?, one]
      simp [values, probability?, zero, one]
    | _ => simp [values, probability?]
  | categorical weights =>
    rw [values, mem_counting]
    rcases v with _ | _ | (k | k) | _ <;> simp [probability?]
  | uniform n =>
    rw [values, mem_counting]
    rcases v with _ | _ | (k | k) | _ <;> simp [probability?]
  | binomial n p =>
    rw [values, mem_counting]
    rcases v with _ | _ | (k | k) | _ <;> simp [probability?]

theorem probability_nonneg {c : Chance} (valid : c.Valid) (v : Value) : 0 ≤ c.probability v := by
  rw [probability]
  cases known : c.probability? v with
  | none => exact le_rfl
  | some m =>
    rw [Option.getD_some]
    unfold probability? at known
    split at known
    next p b =>
      cases known
      cases b
      · exact sub_nonneg.mpr valid.2
      · exact valid.1
    next p =>
      cases known
      exact sub_nonneg.mpr valid.2
    next p =>
      cases known
      exact valid.1
    next weights k =>
      obtain ⟨w, found, rfl⟩ := Option.map_eq_some_iff.mp known
      exact div_nonneg (valid.1 w (List.mem_of_getElem? found)) valid.2.le
    next n k =>
      obtain ⟨_, same⟩ := Option.ite_none_right_eq_some.mp known
      obtain rfl := Option.some.inj same
      positivity
    next n p k =>
      obtain ⟨_, same⟩ := Option.ite_none_right_eq_some.mp known
      obtain rfl := Option.some.inj same
      have fails : 0 ≤ 1 - p := sub_nonneg.mpr valid.2
      have succeeds : 0 ≤ p := valid.1
      positivity
    next => cases known

/-- The probabilities of the values add up to one. -/
theorem sum_probability {c : Chance} (valid : c.Valid) : (c.values.map c.probability).sum = 1 := by
  cases c with
  | flip p => simp [values, probability, probability?]
  | bernoulli p => simp [values, probability, probability?]
  | categorical weights =>
    have shares : (counting weights.length).map (categorical weights).probability =
        weights.map (· * weights.sum⁻¹) := by
      refine List.ext_getElem (by simp [counting]) fun k _ inside => ?_
      rw [List.length_map] at inside
      simp [counting, probability, probability?, inside, div_eq_mul_inv]
    rw [values, shares, List.sum_map_mul_right, List.map_id', mul_inv_cancel₀ valid.2.ne']
  | uniform n =>
    rw [values, sum_counting]
    have some_there : (n : ℝ) ≠ 0 := Nat.cast_ne_zero.mpr (Nat.one_le_iff_ne_zero.mp valid)
    have each : ∀ k ∈ Finset.range n, (uniform n).probability (.int (Int.ofNat k)) = 1 / n := by
      intro k inside
      simp [probability, probability?, Finset.mem_range.mp inside]
    rw [Finset.sum_congr rfl each]
    simp [some_there]
  | binomial n p =>
    rw [values, sum_counting]
    have each : ∀ k ∈ Finset.range (n + 1), (binomial n p).probability (.int (Int.ofNat k)) =
        p ^ k * (1 - p) ^ (n - k) * n.choose k := by
      intro k inside
      have inside : k ≤ n := Nat.lt_succ_iff.mp (Finset.mem_range.mp inside)
      simp only [probability, probability?, if_pos inside, Option.getD_some]
      ring
    rw [Finset.sum_congr rfl each, ← add_pow, add_sub_cancel, one_pow]

end Chance

/-- The distribution that parameters of numbers stand for. -/
noncomputable def Dist.chance? : Dist → Option Chance
  | @standard _ .flip [] => some (.flip 2⁻¹)
  | @standard _ .flip [p] => p.real?.map .flip
  | @standard _ .bernoulli [p] => p.real?.map .bernoulli
  | @standard _ .categorical [probs] => (probs.entries?.bind (·.mapM Value.real?)).map .categorical
  | @standard _ .randomInteger [n] => n.scalar.int?.bind fun n => if 0 ≤ n then some (.uniform n.toNat) else none
  | @standard _ .binomial [n, p] => n.natural?.bind fun n => p.real?.map (.binomial n)
  | _ => none

/-- A distribution lists the values that have a probability. -/
theorem Dist.support_of_chance {d : Dist} {c : Chance} (known : d.chance? = some c) : d.support = .ok c.values := by
  unfold chance? at known
  split at known
  next =>
    cases known
    rfl
  next p =>
    obtain ⟨_, _, rfl⟩ := Option.map_eq_some_iff.mp known
    rfl
  next p =>
    obtain ⟨_, _, rfl⟩ := Option.map_eq_some_iff.mp known
    rfl
  next probs =>
    obtain ⟨weights, read, rfl⟩ := Option.map_eq_some_iff.mp known
    obtain ⟨items, listed, read⟩ := Option.bind_eq_some_iff.mp read
    rw [support, Value.length_of_entries? listed, Chance.values, Value.length_of_mapM_real? read]
    rfl
  next n =>
    obtain ⟨m, read, known⟩ := Option.bind_eq_some_iff.mp known
    obtain ⟨_, same⟩ := Option.ite_none_right_eq_some.mp known
    obtain rfl := Option.some.inj same
    rw [support, read]
    rfl
  next n p =>
    obtain ⟨m, whole, known⟩ := Option.bind_eq_some_iff.mp known
    obtain ⟨_, _, rfl⟩ := Option.map_eq_some_iff.mp known
    unfold Value.natural? at whole
    split at whole
    next k x read _ =>
      obtain ⟨⟨positive, _⟩, same⟩ := Option.ite_none_right_eq_some.mp whole
      obtain rfl := Option.some.inj same
      have counted : (k + 1).toNat = k.toNat + 1 := by omega
      rw [support, read, Chance.values, ← counted]
      rfl
    next => cases whole
  next => cases known

/-- The densities of a library that evaluates the formulas of textbooks exactly. -/
structure Textbook (laws : Densities Dist Exact) : Prop where
  support_eq (d : Dist) : laws.support d = d.support
  logDensity_eq {d : Dist} {c : Chance} {v : Value} {p : ℝ} : d.chance? = some c → c.Valid →
    c.probability? v = some p → laws.logDensity d v = .ok (Exact.ofMass p)

/-- The values with the logarithms of their probabilities. -/
noncomputable def Chance.branches (c : Chance) : List (Value × Exact) :=
  c.values.map fun v => (v, Exact.ofMass (c.probability v))

theorem Chance.branches_fst (c : Chance) : c.branches.map (·.1) = c.values := by
  rw [branches, List.map_map, Function.comp_def, List.map_id']

namespace Textbook

variable {laws : Densities Dist Exact} {d : Dist} {c : Chance} {branches : List (Value × Exact)}

theorem branch_eq (textbook : Textbook laws) (known : d.chance? = some c) (valid : c.Valid)
    (listed : laws.support d = .ok (branches.map (·.1)))
    (weighed : ∀ b ∈ branches, laws.logDensity d b.1 = .ok b.2) :
    ∀ b ∈ branches, b.2 = Exact.ofMass (c.probability b.1) := by
  intro b member
  rw [textbook.support_eq, Dist.support_of_chance known] at listed
  have present : b.1 ∈ c.values := Except.ok.inj listed ▸ List.mem_map_of_mem member
  obtain ⟨p, likely⟩ := Option.isSome_iff_exists.mp (Chance.mem_values.mp present)
  have same := (weighed b member).symm.trans (textbook.logDensity_eq known valid likely)
  rw [Except.ok.inj same, Chance.probability, likely, Option.getD_some]

/-- The probabilities of the values that a distribution lists add up to one. -/
theorem mass_eq_one (textbook : Textbook laws) (known : d.chance? = some c) (valid : c.Valid)
    (listed : laws.support d = .ok (branches.map (·.1)))
    (weighed : ∀ b ∈ branches, laws.logDensity d b.1 = .ok b.2) : Exact.mass (branches.map (·.2)) = 1 := by
  have same := textbook.branch_eq known valid listed weighed
  have weights : (branches.map (·.2)).map Exact.weight = (branches.map (·.1)).map c.probability := by
    rw [List.map_map, List.map_map]
    refine List.map_congr_left fun b member => ?_
    change b.2.weight = c.probability b.1
    rw [same b member, Exact.weight_ofMass (Chance.probability_nonneg valid b.1)]
  rw [textbook.support_eq, Dist.support_of_chance known] at listed
  rw [Exact.mass, weights, ← Except.ok.inj listed, Chance.sum_probability valid]

theorem lists (textbook : Textbook laws) (known : d.chance? = some c) :
    laws.support d = .ok (c.branches.map (·.1)) := by
  rw [textbook.support_eq, Dist.support_of_chance known, c.branches_fst]

theorem weighs (textbook : Textbook laws) (known : d.chance? = some c) (valid : c.Valid) :
    ∀ b ∈ c.branches, laws.logDensity d b.1 = .ok b.2 := by
  refine List.forall_mem_map.mpr fun v member => ?_
  obtain ⟨p, likely⟩ := Option.isSome_iff_exists.mp (Chance.mem_values.mp member)
  rw [textbook.logDensity_eq known valid likely, Chance.probability, likely]
  rfl

end Textbook

end ProbCore
