import ProbCore.Score.Weights
import Mathlib

/-! Scores in exact arithmetic: the real numbers, the two infinities, and a score that is no
number. The operations are those of floats without the rounding, and with one zero. -/

namespace ProbCore

-- One proof that all numerals of the reals share.
instance two_atLeastTwo : Nat.AtLeastTwo 2 := ⟨le_rfl⟩

inductive Exact where
  | real (x : ℝ)
  | negInf
  | posInf
  | nan

namespace Exact

noncomputable section

def ofSign : SignType → Exact
  | .pos => posInf
  | .neg => negInf
  | .zero => nan

def sign : Exact → SignType
  | real x => SignType.sign x
  | posInf => 1
  | negInf => -1
  | nan => 0

protected def add : Exact → Exact → Exact
  | real x, real y => real (x + y)
  | nan, _ | _, nan | posInf, negInf | negInf, posInf => nan
  | posInf, _ | _, posInf => posInf
  | negInf, _ | _, negInf => negInf

protected def neg : Exact → Exact
  | real x => real (-x)
  | posInf => negInf
  | negInf => posInf
  | nan => nan

protected def mul : Exact → Exact → Exact
  | real x, real y => real (x * y)
  | a, b => ofSign (a.sign * b.sign)

protected def div : Exact → Exact → Exact
  | real x, real y => if y = 0 then ofSign (SignType.sign x) else real (x / y)
  | real _, posInf | real _, negInf => real 0
  | a, real y => if y = 0 then a else ofSign (a.sign * SignType.sign y)
  | _, _ => nan

protected def exp : Exact → Exact
  | real x => real (Real.exp x)
  | negInf => real 0
  | posInf => posInf
  | nan => nan

protected def log : Exact → Exact
  | real x => if x < 0 then nan else if x = 0 then negInf else real (Real.log x)
  | posInf => posInf
  | negInf | nan => nan

open Classical in
def less : Exact → Exact → Bool
  | real x, real y => x < y
  | negInf, real _ | negInf, posInf | real _, posInf => true
  | _, _ => false

open Classical in
def same : Exact → Exact → Bool
  | real x, real y => x = y
  | negInf, negInf | posInf, posInf => true
  | _, _ => false

def isFinite : Exact → Bool
  | real _ => true
  | _ => false

def isNaN : Exact → Bool
  | nan => true
  | _ => false

def floor : Exact → Int
  | real x => ⌊x⌋
  | _ => 0

/-- The nearest float, but for a part of 2^64. -/
def toFloat : Exact → Float
  | real x => (Decimal.nearestInt ⌊x * 2 ^ 64⌋).scaleB (-64)
  | negInf => -1 / 0
  | posInf => 1 / 0
  | nan => 0 / 0

instance : Add Exact := ⟨Exact.add⟩
instance : Neg Exact := ⟨Exact.neg⟩
instance : Sub Exact := ⟨fun a b => a + -b⟩
instance : Zero Exact := ⟨real 0⟩

instance : Score Exact where
  mul := Exact.mul
  div := Exact.div
  ofNat n := real n
  impossible := negInf
  less := less
  same := same
  isNaN := isNaN
  isFinite := isFinite
  exp := Exact.exp
  log := Exact.log
  logOnePlus a := Exact.log (real 1 + a)
  floor := floor
  toFloat := toFloat

end

@[simp] theorem real_add (x y : ℝ) : real x + real y = real (x + y) := rfl
@[simp] theorem neg_real (x : ℝ) : -real x = real (-x) := rfl
@[simp] theorem real_sub (x y : ℝ) : real x - real y = real (x - y) := by
  rw [sub_eq_add_neg]
  rfl
@[simp] theorem zero_eq : (Score.zero : Exact) = 0 := congrArg real Nat.cast_zero
@[simp] theorem exp_real (x : ℝ) : Score.exp (real x) = real (Real.exp x) := rfl
theorem real_zero : real 0 = 0 := rfl

/-- Exact scores add and subtract like numbers, whatever else they are. -/
instance : SubtractionCommMonoid Exact where
  add_assoc a b c := by
    cases a <;> cases b <;> cases c <;> first | rfl | exact congrArg real (add_assoc _ _ _)
  zero_add a := by
    cases a <;> first | rfl | exact congrArg real (zero_add _)
  add_zero a := by
    cases a <;> first | rfl | exact congrArg real (add_zero _)
  add_comm a b := by
    cases a <;> cases b <;> first | rfl | exact congrArg real (add_comm _ _)
  nsmul := nsmulRec
  zsmul := zsmulRec
  sub_eq_add_neg _ _ := rfl
  neg_neg a := by
    cases a <;> first | rfl | exact congrArg real (neg_neg _)
  neg_add_rev a b := by
    cases a <;> cases b <;> first | rfl | exact congrArg real (neg_add_rev _ _)
  neg_eq_of_add a b cancels := by
    cases a <;> cases b <;> first
      | exact congrArg real (neg_eq_of_add_eq_zero_right (Exact.real.inj cancels))
      | exact Exact.noConfusion cancels

/-- The mass that a log weight stands for; nothing where it is not a real number. -/
noncomputable def weight : Exact → ℝ
  | real x => Real.exp x
  | _ => 0

noncomputable def mass (weights : List Exact) : ℝ := (weights.map weight).sum

@[simp] theorem mass_nil : mass [] = 0 := rfl

@[simp] theorem mass_cons (w : Exact) (ws : List Exact) : mass (w :: ws) = w.weight + mass ws := by
  simp [mass]

@[simp] theorem mass_append (some others : List Exact) :
    mass (some ++ others) = mass some + mass others := by
  simp [mass]

theorem mass_perm {some others : List Exact} (same : some.Perm others) :
    mass some = mass others :=
  (same.map weight).sum_eq

theorem weight_nonneg (w : Exact) : 0 ≤ w.weight := by
  cases w with
  | real x => exact (Real.exp_pos x).le
  | negInf | posInf | nan => exact le_refl 0

theorem mass_nonneg (ws : List Exact) : 0 ≤ mass ws := by
  induction ws with
  | nil => exact le_refl 0
  | cons w ws ih =>
    rw [mass_cons]
    exact add_nonneg w.weight_nonneg ih

def IsReal (w : Exact) : Prop := ∃ x, w = real x

theorem mass_pos {ws : List Exact} (nonempty : ws ≠ []) (reals : ∀ w ∈ ws, w.IsReal) :
    0 < mass ws := by
  cases ws with
  | nil => exact absurd rfl nonempty
  | cons w ws =>
    obtain ⟨x, rfl⟩ := reals w List.mem_cons_self
    rw [mass_cons]
    exact add_pos_of_pos_of_nonneg (Real.exp_pos x) (mass_nonneg ws)

theorem logOnePlus_exp (z : ℝ) :
    Score.logOnePlus (real (Real.exp z)) = real (Real.log (1 + Real.exp z)) := by
  have positive : 0 < 1 + Real.exp z := by positivity
  change Exact.log (real (1 + Real.exp z)) = _
  rw [Exact.log, if_neg positive.not_gt, if_neg positive.ne']

/-- The greater of two weights taken out of the logarithm of their sum. -/
theorem log_exp_add (x y : ℝ) :
    Real.log (Real.exp x + Real.exp y) = x + Real.log (1 + Real.exp (y - x)) := by
  have factored : Real.exp x + Real.exp y = Real.exp x * (1 + Real.exp (y - x)) := by
    rw [mul_add, mul_one, ← Real.exp_add, add_sub_cancel]
  rw [factored, Real.log_mul (Real.exp_ne_zero x) (by positivity), Real.log_exp]

theorem logNat_eq {n : Nat} (some_there : n ≠ 0) : (Score.logNat n : Exact) = real (Real.log n) := by
  have positive : (0 : ℝ) < n := Nat.cast_pos.mpr (Nat.pos_of_ne_zero some_there)
  change Exact.log (real n) = _
  rw [Exact.log, if_neg positive.not_gt, if_neg positive.ne']

theorem logAddExp_real (x y : ℝ) :
    Score.logAddExp (real x) (real y) = real (Real.log (Real.exp x + Real.exp y)) := by
  rcases lt_trichotomy x y with lower | rfl | higher
  · have different : Score.same (real x) (real y) = false := decide_eq_false lower.ne
    have below : Score.less (Score.zero : Exact) (real (x - y)) = false := by
      rw [zero_eq]
      exact decide_eq_false (sub_neg.mpr lower).not_gt
    have above : Score.atMost (real (x - y)) (Score.zero : Exact) = true := by
      rw [zero_eq, Score.atMost, Bool.or_eq_true]
      exact .inl (decide_eq_true (sub_neg.mpr lower))
    simp only [Score.logAddExp, different, real_sub, below, above, exp_real, logOnePlus_exp,
      real_add, Bool.false_eq_true, if_false, if_true]
    rw [add_comm (Real.exp x), log_exp_add y x]
  · have equal : Score.same (real x) (real x) = true := decide_eq_true rfl
    simp only [Score.logAddExp, equal, logNat_eq two_ne_zero, real_add, if_true]
    rw [log_exp_add x x, sub_self, Real.exp_zero, one_add_one_eq_two, Nat.cast_ofNat]
  · have different : Score.same (real x) (real y) = false := decide_eq_false higher.ne'
    have above : Score.less (Score.zero : Exact) (real (x - y)) = true := by
      rw [zero_eq]
      exact decide_eq_true (sub_pos.mpr higher)
    simp only [Score.logAddExp, different, real_sub, above, neg_real, exp_real, logOnePlus_exp,
      real_add, Bool.false_eq_true, if_false, if_true]
    rw [log_exp_add x y, neg_sub]

/-- The log weight of a mass. -/
noncomputable def ofMass (m : ℝ) : Exact := if m = 0 then negInf else real (Real.log m)

theorem ofMass_zero : ofMass 0 = negInf := if_pos rfl

theorem ofMass_pos {m : ℝ} (positive : 0 < m) : ofMass m = real (Real.log m) := if_neg positive.ne'

theorem ofMass_weight {w : Exact} (finite : w.IsReal ∨ w = negInf) : ofMass w.weight = w := by
  rcases finite with ⟨x, rfl⟩ | rfl
  · rw [weight, ofMass_pos (Real.exp_pos x), Real.log_exp]
  · exact ofMass_zero

theorem weight_ofMass {p : ℝ} (nonneg : 0 ≤ p) : (Exact.ofMass p).weight = p := by
  rcases nonneg.eq_or_lt with rfl | positive
  · rw [ofMass_zero]
    rfl
  · rw [ofMass_pos positive, weight, Real.exp_log positive]

theorem ofMass_finite (p : ℝ) : (Exact.ofMass p).IsReal ∨ Exact.ofMass p = .negInf := by
  unfold ofMass
  split
  · exact .inr rfl
  · exact .inl ⟨_, rfl⟩

theorem exp_ofMass {m : ℝ} (nonneg : 0 ≤ m) : Score.exp (ofMass m) = real m := by
  rcases nonneg.eq_or_lt with rfl | positive
  · rw [ofMass_zero]
    rfl
  · rw [ofMass_pos positive, exp_real, Real.exp_log positive]

theorem ofMass_div {m total : ℝ} (nonneg : 0 ≤ m) (positive : 0 < total) :
    ofMass m - real (Real.log total) = ofMass (m / total) := by
  rcases nonneg.eq_or_lt with rfl | some_there
  · rw [zero_div, ofMass_zero]
    rfl
  · rw [ofMass_pos some_there, ofMass_pos (div_pos some_there positive), real_sub,
      Real.log_div some_there.ne' positive.ne']

theorem logOnePlus_nothing : Score.logOnePlus (Score.exp negInf) = real 0 := by
  change Exact.log (real (1 + 0)) = _
  norm_num [Exact.log]

theorem logAddExp_ofMass {a b : ℝ} (left : 0 ≤ a) (right : 0 ≤ b) :
    Score.logAddExp (ofMass a) (ofMass b) = ofMass (a + b) := by
  rcases left.eq_or_lt with rfl | left
  · rcases right.eq_or_lt with rfl | right
    · rw [add_zero, ofMass_zero]
      change negInf + Score.logNat 2 = negInf
      rw [logNat_eq two_ne_zero]
      rfl
    · rw [zero_add, ofMass_zero, ofMass_pos right]
      change real (Real.log b) + Score.logOnePlus (Score.exp negInf) = _
      rw [logOnePlus_nothing, real_add, add_zero]
  · rcases right.eq_or_lt with rfl | right
    · rw [add_zero, ofMass_zero, ofMass_pos left]
      change real (Real.log a) + Score.logOnePlus (Score.exp negInf) = _
      rw [logOnePlus_nothing, real_add, add_zero]
    · rw [ofMass_pos left, ofMass_pos right, ofMass_pos (add_pos left right), logAddExp_real,
        Real.exp_log left, Real.exp_log right]

theorem foldl_logAddExp_ofMass {ws : List Exact} (finite : ∀ w ∈ ws, w.IsReal ∨ w = negInf) {a : ℝ}
    (nonneg : 0 ≤ a) : ws.foldl Score.logAddExp (ofMass a) = ofMass (a + mass ws) := by
  induction ws generalizing a with
  | nil => simp
  | cons w ws ih =>
    obtain ⟨first, rest⟩ := List.forall_mem_cons.mp finite
    have step := logAddExp_ofMass nonneg w.weight_nonneg
    rw [ofMass_weight first] at step
    rw [List.foldl_cons, step, ih rest (add_nonneg nonneg w.weight_nonneg), mass_cons, add_assoc]

/-- Log weights may be impossible. -/
theorem logSumExp_ofMass {ws : List Exact} (finite : ∀ w ∈ ws, w.IsReal ∨ w = negInf) :
    Score.logSumExp ws = ofMass (mass ws) := by
  cases ws with
  | nil => exact ofMass_zero.symm
  | cons w ws =>
    obtain ⟨first, rest⟩ := List.forall_mem_cons.mp finite
    have summed := foldl_logAddExp_ofMass rest w.weight_nonneg
    rw [ofMass_weight first] at summed
    rw [Score.logSumExp, summed, mass_cons]

/-- The logarithm of the summed weights is the logarithm of their mass. -/
theorem logSumExp_eq {ws : List Exact} (nonempty : ws ≠ []) (reals : ∀ w ∈ ws, w.IsReal) :
    Score.logSumExp ws = real (Real.log (mass ws)) := by
  rw [logSumExp_ofMass fun w member => .inl (reals w member), ofMass_pos (mass_pos nonempty reals)]

end Exact

end ProbCore
