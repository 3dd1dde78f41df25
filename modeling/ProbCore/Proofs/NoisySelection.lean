import ProbCore.Proofs.SinglePrecision
import ProbCore.Proofs.Yields

/-! Selection by noise in single precision. The member selected is the first of the greatest sums of its
weight and its noise. The noise is moderate, so that no sum is lost whose weight is not: a member without
weight is selected only where single precision leaves no weight at all. -/

namespace ProbCore.Doubles

open Float.Model Float.Model.UnpackedFloat
open Decimal (Binary isNegative quantity?)

/-- Rounded to a double, a number below zero and above another double is not below this one. -/
theorem notBelow_negative {m m₀ : Nat} {e e₀ : Int} (some_bits : 0 < m) (low : -1074 ≤ e)
    (normal : Binary.Normal ⟨true, m₀, e₀⟩) (small : e₀ < 972) (below : (m : ℚ) * 2 ^ e < m₀ * 2 ^ e₀) :
    NotBelow m₀ e₀ (stored (UnpackedFloat.round .binary64 .negative m e)) := by
  obtain ⟨m', e', positive, rounded, normal', lighter⟩ := round_lighter .negative some_bits low normal below
  have small' : ¬ 972 ≤ e' := by
    rcases lighter with lower | ⟨same, _⟩ <;> omega
  rw [rounded, stored_finite positive normal', if_neg small']
  exact lighter

theorem notBelow_positive {m m₀ : Nat} {e e₀ : Int} (some_bits : 0 < m) (low : -1074 ≤ e) :
    NotBelow m₀ e₀ (stored (UnpackedFloat.round .binary64 .positive m e)) := by
  obtain ⟨q, t, m', e', positive, rounded, near, place, _⟩ := round_between .positive some_bits low
  rw [rounded, stored_finite positive (near.normal (place true))]
  split <;> trivial

/-- A sum of two finite doubles is one integer at the exponent of the finer one. -/
theorem add_finite {s s' : Sign} {m m' : Nat} {e e' : Int} (some_bits : 0 < m) (some_bits' : 0 < m') :
    ∃ n : Int, UnpackedFloat.add .binary64 (.finite s m e some_bits) (.finite s' m' e' some_bits') =
        normalize .binary64 n (min e e') .positive ∧
      (n : ℚ) * 2 ^ min e e' =
        Binary.value ⟨isNegative s, m, e⟩ + Binary.value ⟨isNegative s', m', e'⟩ := by
  have signed (s : Sign) (m : Nat) {e f : Int} {d : Nat} (apart : f + d = e) :
      ((s.apply (m * 2 ^ d : Nat) : Int) : ℚ) * 2 ^ f = Binary.value ⟨isNegative s, m, e⟩ := by
    rw [Binary.value, at_finer m apart]
    cases s with
    | negative => simp [Sign.apply, isNegative]
    | positive => simp [Sign.apply, isNegative]
  refine ⟨s.apply (m * 2 ^ (e - min e e').toNat : Nat) + s'.apply (m' * 2 ^ (e' - min e e').toNat : Nat), ?_, ?_⟩
  · unfold UnpackedFloat.add decreaseExponent
    dsimp only
    rw [Nat.shiftLeft_eq, Nat.shiftLeft_eq]
  · rw [Int.cast_add, add_mul, signed s m (e := e) (by omega), signed s' m' (e := e') (by omega)]

/-- A rounded sum is not below a double that the exact sum is above. -/
theorem notBelow_add {s s' : Sign} {m m' m₀ : Nat} {e e' e₀ : Int} (some_bits : 0 < m) (some_bits' : 0 < m')
    (low : -1074 ≤ e) (low' : -1074 ≤ e') (normal : Binary.Normal ⟨true, m₀, e₀⟩) (small : e₀ < 972)
    (above : -(m₀ * 2 ^ e₀ : ℚ) < Binary.value ⟨isNegative s, m, e⟩ + Binary.value ⟨isNegative s', m', e'⟩) :
    NotBelow m₀ e₀ (stored (UnpackedFloat.add .binary64 (.finite s m e some_bits) (.finite s' m' e' some_bits'))) := by
  obtain ⟨n, added, total⟩ := @add_finite s s' m m' e e' some_bits some_bits'
  have lowest : -1074 ≤ min e e' := le_min low low'
  rw [added]
  unfold UnpackedFloat.normalize
  split
  next negative =>
    rw [compare_lt_iff_lt] at negative
    apply notBelow_negative (by omega) lowest normal small
    have magnitude : (((-n).toNat : Nat) : ℚ) = -n := by
      exact_mod_cast congrArg (Int.cast (R := ℚ)) (Int.toNat_of_nonneg (show 0 ≤ -n by omega))
    rw [magnitude, neg_mul, total]
    linarith
  next =>
    rw [stored_zero]
    trivial
  next positive =>
    rw [compare_gt_iff_gt] at positive
    exact notBelow_positive (by omega) lowest

theorem notBelow_finite_iff {s : Sign} {m m₀ : Nat} {e e₀ : Int} {some_bits : 0 < m}
    (normal : Binary.Normal ⟨isNegative s, m, e⟩) (normal₀ : Binary.Normal ⟨true, m₀, e₀⟩) :
    NotBelow m₀ e₀ (.finite s m e some_bits) ↔ -(m₀ * 2 ^ e₀ : ℚ) ≤ Binary.value ⟨isNegative s, m, e⟩ := by
  have least : (0 : ℚ) ≤ m₀ * 2 ^ e₀ := mul_nonneg (Nat.cast_nonneg m₀) (zpow_pos two_pos e₀).le
  have own : (0 : ℚ) ≤ m * 2 ^ e := mul_nonneg (Nat.cast_nonneg m) (zpow_pos two_pos e).le
  cases s with
  | negative =>
    change Lighter m e m₀ e₀ ↔ _ ≤ -1 * ((m : ℚ) * 2 ^ e)
    rw [lighter_iff normal normal₀, neg_one_mul, neg_le_neg_iff]
  | positive =>
    change True ↔ _ ≤ 1 * ((m : ℚ) * 2 ^ e)
    exact iff_of_true trivial (by linarith)

/-- A number that is not far below zero. -/
def Moderate (x : Float) : Prop := ∃ q, quantity? x = some (.finite q) ∧ -128 ≤ q

theorem Moderate.shape {x : Float} (moderate : Moderate x) :
    (∃ s, x.toModel.unpack = .zero s) ∨ ∃ s m e some_bits,
      x.toModel.unpack = .finite s m e some_bits ∧ -128 ≤ Binary.value ⟨isNegative s, m, e⟩ := by
  obtain ⟨q, known, least⟩ := moderate
  cases shape : x.toModel.unpack with
  | notANumber | infinity s =>
    rw [quantity?, shape] at known
    cases known
  | zero s => exact .inl ⟨s, rfl⟩
  | finite s m e some_bits =>
    rw [quantity?, shape] at known
    obtain rfl := Decimal.Quantity.finite.inj (Option.some.inj known)
    exact .inr ⟨s, m, e, some_bits, rfl, least⟩

/-- Moderate noise does not bring a number of single precision to where it would be lost. -/
theorem add_notBelow {x y : Float} (moderate : Moderate x)
    (held : NotBelow (2 ^ 53 - 2 ^ 29) 75 y.toModel.unpack) :
    NotBelow (2 ^ 53 - 3 * 2 ^ 27) 75 (x + y).toModel.unpack := by
  have largest : Binary.Normal ⟨true, 2 ^ 53 - 2 ^ 29, 75⟩ := ⟨by decide, by decide, .inr (by decide)⟩
  have verge : Binary.Normal ⟨true, 2 ^ 53 - 3 * 2 ^ 27, 75⟩ := ⟨by decide, by decide, .inr (by decide)⟩
  rw [add_unpack]
  cases shape' : y.toModel.unpack with
  | notANumber =>
    rw [shape'] at held
    cases held
  | infinity s' =>
    rw [shape'] at held
    cases s' with
    | negative => cases held
    | positive =>
      have top : UnpackedFloat.add .binary64 x.toModel.unpack (.infinity .positive) = .infinity .positive := by
        obtain ⟨s, shape⟩ | ⟨s, m, e, some_bits, shape, _⟩ := moderate.shape <;> rw [shape] <;> rfl
      rw [top, stored_infinity]
      trivial
  | zero s' =>
    obtain ⟨s, shape⟩ | ⟨s, m, e, some_bits, shape, least⟩ := moderate.shape
    · rw [shape]
      unfold UnpackedFloat.add
      dsimp only
      split
      all_goals
        rw [stored_zero]
        trivial
    · have same : UnpackedFloat.add .binary64 x.toModel.unpack (.zero s') = x.toModel.unpack := by
        rw [shape]
        rfl
      rw [same, stored_unpack, shape, notBelow_finite_iff (normal_unpack shape) verge]
      exact le_trans (by norm_num) least
  | finite s' m' e' some_bits' =>
    have normal' := normal_unpack shape'
    rw [shape', notBelow_finite_iff normal' largest] at held
    obtain ⟨s, shape⟩ | ⟨s, m, e, some_bits, shape, least⟩ := moderate.shape
    · have same : UnpackedFloat.add .binary64 x.toModel.unpack y.toModel.unpack = y.toModel.unpack := by
        rw [shape, shape']
        rfl
      rw [← shape', same, stored_unpack, shape', notBelow_finite_iff normal' verge]
      exact le_trans (by norm_num) held
    · have normal := normal_unpack shape
      rw [shape]
      refine notBelow_add some_bits some_bits' normal.exponent_ge normal'.exponent_ge verge (by decide) ?_
      exact lt_of_lt_of_le (by norm_num) (add_le_add least held)

theorem not_swallowed {u : UnpackedFloat} (held : NotBelow (2 ^ 53 - 3 * 2 ^ 27) 75 u) : ¬ Swallowed u := by
  cases u with
  | notANumber | zero => exact nofun
  | infinity s =>
    cases s with
    | negative => cases held
    | positive => exact nofun
  | finite s m e some_bits =>
    cases s with
    | negative =>
      intro beyond
      unfold NotBelow Lighter at held
      unfold Swallowed Beyond Lighter at beyond
      omega
    | positive => exact nofun

theorem add_swallowed {x y : Float} (moderate : Moderate x) (lost : y.toModel.unpack = .infinity .negative) :
    (x + y).toModel.unpack = .infinity .negative := by
  obtain ⟨q, known, _⟩ := moderate
  rw [add_unpack, lost]
  cases shape : x.toModel.unpack with
  | notANumber | infinity s =>
    rw [quantity?, shape] at known
    cases known
  | zero s | finite s m e some_bits => exact stored_infinity .negative

/-- A weight that single precision takes for the impossible one. -/
theorem swallowed_iff {w : Float} :
    Swallowed w.toModel.unpack ↔
      Score.isImpossible w = true ∨ ∃ q, quantity? w = some (.finite q) ∧ q ≤ -(2 ^ 128 - 2 ^ 103) := by
  rw [isImpossible_iff, quantity?]
  cases shape : w.toModel.unpack with
  | notANumber => simp [Swallowed, Decimal.ofUnpacked?]
  | infinity s => cases s <;> simp [Swallowed, Decimal.ofUnpacked?]
  | zero s =>
    refine iff_of_false not_false ?_
    rintro (lost | ⟨q, known, below⟩)
    · cases lost
    · obtain rfl := Decimal.Quantity.finite.inj (Option.some.inj known)
      norm_num at below
  | finite s m e some_bits =>
    have normal := normal_unpack shape
    have verge : Binary.Normal ⟨true, 2 ^ 53 - 2 ^ 28, 75⟩ := ⟨by decide, by decide, .inr (by decide)⟩
    have own : (0 : ℚ) ≤ m * 2 ^ e := mul_nonneg (Nat.cast_nonneg m) (zpow_pos two_pos e).le
    have middle : (((2 ^ 53 - 2 ^ 28 : Nat) : ℚ) * 2 ^ (75 : Int)) = 2 ^ 128 - 2 ^ 103 := by norm_num
    simp only [reduceCtorEq, false_or, Decimal.ofUnpacked?, Option.some.injEq, Decimal.Quantity.finite.injEq,
      exists_eq_left']
    cases s with
    | negative =>
      change Beyond m e ↔ -1 * ((m : ℚ) * 2 ^ e) ≤ _
      rw [Beyond, lighter_iff verge normal, middle, neg_one_mul, neg_le_neg_iff]
    | positive =>
      refine iff_of_false not_false fun below => ?_
      have below : 1 * ((m : ℚ) * 2 ^ e) ≤ -(2 ^ 128 - 2 ^ 103) := below
      norm_num at below
      linarith

end ProbCore.Doubles

namespace ProbCore.Random.Key

open Float.Model Float.Model.UnpackedFloat
open Doubles
open Decimal (quantity?)

/-- Whether a number is above the negative infinity. -/
theorem less_of_left {x y : Float} (lost : Lost x.toModel.unpack) (number : x.toModel.unpack ≠ .notANumber)
    (left : ¬ Lost y.toModel.unpack) : x < y := by
  have bottom : x.toModel.unpack = .infinity .negative := lost.resolve_right number
  have less : Score.less x y = true := by
    rw [less_unpack, bottom]
    cases shape : y.toModel.unpack with
    | notANumber => exact absurd (.inr shape) left
    | infinity s =>
      cases s with
      | negative => exact absurd (.inl shape) left
      | positive => rfl
    | zero s | finite s m e some_bits => rfl
  exact of_decide_eq_true less

theorem not_less_lost {x y : Float} (lost : Lost y.toModel.unpack) : ¬ x < y := by
  have less : Score.less x y = false := (less_unpack x y).trans (not_lt_lost lost)
  exact of_decide_eq_false less

section

variable {xs rest : List Float} {best : Float} {i place : Nat}

/-- Where some entry is left, one that is left is found. -/
theorem scan_left (numbers : ∀ x ∈ xs, x.toModel.unpack ≠ .notANumber) (there : xs[place]? = some best)
    (suffix : xs.drop i = rest) (some_left : ¬ Lost best.toModel.unpack ∨ ∃ x ∈ rest, ¬ Lost x.toModel.unpack) :
    ∃ y, xs[argmax?.scan rest i best place]? = some y ∧ ¬ Lost y.toModel.unpack := by
  induction rest generalizing i best place with
  | nil =>
    rcases some_left with left | ⟨x, member, _⟩
    · exact ⟨best, there, left⟩
    · cases member
  | cons x rest ih =>
    have here : xs[i]? = some x := by rw [← List.head?_drop, suffix, List.head?_cons]
    have later : xs.drop (i + 1) = rest := by rw [← List.tail_drop, suffix, List.tail_cons]
    have number : x.isNaN = false := isNaN_false_iff.mpr (numbers x (List.mem_of_getElem? here))
    rw [argmax?.scan]
    split
    next greater =>
      refine ih here later (.inl fun lost => ?_)
      simp only [number, Bool.false_and, Bool.or_false, decide_eq_true_eq] at greater
      exact not_less_lost lost greater
    next no_greater =>
      refine ih there later ?_
      rcases some_left with left | ⟨y, member, left⟩
      · exact .inl left
      · rcases List.mem_cons.mp member with rfl | member
        · left
          intro lost
          have less := less_of_left lost (numbers best (List.mem_of_getElem? there)) left
          exact no_greater (by simp [less])
        · exact .inr ⟨y, member, left⟩

/-- Where none is, the first is found. -/
theorem scan_lost (lost : ∀ x ∈ rest, x.toModel.unpack = .infinity .negative) :
    argmax?.scan rest i best place = place := by
  induction rest generalizing i with
  | nil => rfl
  | cons x rest ih =>
    obtain ⟨first, rest⟩ := List.forall_mem_cons.mp lost
    have number : x.isNaN = false := isNaN_false_iff.mpr (by rw [first]; exact nofun)
    rw [argmax?.scan, if_neg]
    · exact ih rest
    · simp only [number, Bool.false_and, Bool.or_false, decide_eq_true_eq]
      exact not_less_lost (.inl first)

end

variable {noise : Nat → Float} {weights : List Float}

/-- A weight with its noise is lost exactly if single precision takes the weight for the impossible one. -/
theorem noisy_cases {x l : Float} (moderate : Moderate x) (number : l.toModel.unpack ≠ .notANumber) :
    Swallowed l.toModel.unpack ∧ (single (x + single l)).toModel.unpack = .infinity .negative ∨
      ¬ Swallowed l.toModel.unpack ∧ ¬ Lost (single (x + single l)).toModel.unpack := by
  have unlost {m : Nat} {e : Int} {u : UnpackedFloat} (held : NotBelow m e u) : ¬ Lost u := by
    rintro (rfl | rfl)
    · exact held
    · exact held
  by_cases swallowed : Swallowed l.toModel.unpack
  · exact .inl ⟨swallowed, single_infinity (add_swallowed moderate (single_swallowed swallowed))⟩
  · have held := add_notBelow moderate (single_spared number swallowed)
    exact .inr ⟨swallowed, unlost (single_spared (fun same => unlost held (.inr same)) (not_swallowed held))⟩

/-- A row selects a member whose weight single precision keeps, if there is one, and else the first. -/
theorem noisiest_found (moderate : ∀ i, Moderate (noise i)) (some_there : weights ≠ [])
    (numbers : ∀ w ∈ weights, w.toModel.unpack ≠ .notANumber) (row : Nat) :
    ∃ i, noisiest? noise weights row = some i ∧
      ((∃ w ∈ weights, ¬ Swallowed w.toModel.unpack) →
        ∃ w, weights[i]? = some w ∧ ¬ Swallowed w.toModel.unpack) ∧
      ((∀ w ∈ weights, Swallowed w.toModel.unpack) → i = 0) := by
  let sum (p : Float × Nat) : Float := single (noise (row * weights.length + p.2) + single p.1)
  have cases (p : Float × Nat) (member : p ∈ weights.zipIdx) :=
    noisy_cases (moderate (row * weights.length + p.2)) (numbers p.1 (List.fst_mem_of_mem_zipIdx member))
  obtain ⟨first, others, entries⟩ : ∃ first others, weights.zipIdx.map sum = first :: others := by
    cases weights with
    | nil => exact absurd rfl some_there
    | cons w ws => exact ⟨_, _, rfl⟩
  have found : noisiest? noise weights row = some (argmax?.scan others 1 first 0) := by
    change argmax? (weights.zipIdx.map sum) = _
    rw [entries]
    rfl
  refine ⟨_, found, ?_, ?_⟩
  · rintro ⟨w, member, kept⟩
    have clean : ∀ x ∈ weights.zipIdx.map sum, x.toModel.unpack ≠ .notANumber := by
      refine List.forall_mem_map.mpr fun p member => ?_
      rcases cases p member with ⟨_, lost⟩ | ⟨_, left⟩
      · rw [lost]
        exact nofun
      · exact fun same => left (.inr same)
    have some_left : ¬ Lost first.toModel.unpack ∨ ∃ x ∈ others, ¬ Lost x.toModel.unpack := by
      obtain ⟨i, there⟩ := List.mem_iff_getElem?.mp member
      have listed : (w, i) ∈ weights.zipIdx := List.mem_zipIdx_iff_getElem?.mpr there
      have left := ((cases _ listed).resolve_left fun both => kept both.1).2
      have among : sum (w, i) ∈ first :: others := entries ▸ List.mem_map_of_mem listed
      rcases List.mem_cons.mp among with same | later
      · exact .inl (same ▸ left)
      · exact .inr ⟨_, later, left⟩
    have leading : (weights.zipIdx.map sum)[0]? = some first := by rw [entries]; rfl
    have following : (weights.zipIdx.map sum).drop 1 = others := by rw [entries]; rfl
    obtain ⟨y, there, left⟩ := scan_left clean leading following some_left
    rw [List.getElem?_map] at there
    obtain ⟨⟨l, j⟩, here, same⟩ := Option.map_eq_some_iff.mp there
    have kept := ((cases _ (List.mem_of_getElem? here)).resolve_left fun both => left (.inl (same ▸ both.2))).1
    rw [List.getElem?_zipIdx] at here
    obtain ⟨l', own, same⟩ := Option.map_eq_some_iff.mp here
    obtain rfl := congrArg Prod.fst same
    exact ⟨_, own, kept⟩
  · intro all
    apply scan_lost
    intro x later
    have among : x ∈ weights.zipIdx.map sum := entries ▸ List.mem_cons_of_mem first later
    obtain ⟨p, member, rfl⟩ := List.mem_map.mp among
    have swallowed := all p.1 (List.fst_mem_of_mem_zipIdx member)
    exact ((cases p member).resolve_right fun both => both.1 swallowed).2

/-- Every row of moderate noise selects a member. One without weight is selected only if the first is such,
and each of the others is too or is so small that single precision, where the weights are compared, rounds
it to no weight. `Key.multinomial` selects so by the noise `Key.gumbel`, which is above -5. -/
theorem dead_selected_iff (moderate : ∀ i, Moderate (noise i)) (numbers : ∀ w ∈ weights, w.isNaN = false)
    (alive : ∃ w ∈ weights, Score.isImpossible w = false) (n : Nat) :
    ∃ indices, selectNoisy noise weights n = .ok indices ∧ indices.length = n ∧
      (∀ i ∈ indices, i < weights.length) ∧
      ((∃ i ∈ indices, ∃ w, weights[i]? = some w ∧ Score.isImpossible w = true) ↔
        0 < n ∧ (∃ w, weights[0]? = some w ∧ Score.isImpossible w = true) ∧
          ∀ w ∈ weights, Score.isImpossible w = true ∨
            ∃ q, quantity? w = some (.finite q) ∧ q ≤ -(2 ^ 128 - 2 ^ 103)) := by
  obtain ⟨w₀, member₀, _⟩ := alive
  have some_there : weights ≠ [] := List.ne_nil_of_mem member₀
  have found := noisiest_found moderate some_there fun w member => isNaN_false_iff.mp (numbers w member)
  choose g drawn kept first using found
  refine ⟨(List.range n).map g, ?_, ?_, ?_, ?_⟩
  · have rows : (List.range n).mapM (noisiest? noise weights) = some ((List.range n).map g) := by
      rw [funext drawn]
      exact List.mapM_pure
    rw [selectNoisy, rows, if_neg (by simpa using some_there)]
  · rw [List.length_map, List.length_range]
  · refine List.forall_mem_map.mpr fun row _ => noisiest_bound (drawn row)
  · constructor
    · rintro ⟨i, member, w, there, dead⟩
      obtain ⟨row, asked, rfl⟩ := List.mem_map.mp member
      have all : ∀ w ∈ weights, Swallowed w.toModel.unpack := by
        by_contra some_kept
        push Not at some_kept
        obtain ⟨w', same, kept⟩ := kept row some_kept
        obtain rfl := Option.some.inj (there.symm.trans same)
        exact kept (swallowed_iff.mpr (.inl dead))
      refine ⟨Nat.zero_lt_of_lt (List.mem_range.mp asked), ⟨w, ?_, dead⟩, fun w member => swallowed_iff.mp (all w member)⟩
      rw [← first row all]
      exact there
    · rintro ⟨some_asked, ⟨w, there, dead⟩, all⟩
      have chosen := first 0 fun w member => swallowed_iff.mpr (all w member)
      refine ⟨g 0, List.mem_map_of_mem (List.mem_range.mpr some_asked), w, ?_, dead⟩
      rw [chosen]
      exact there

theorem quantity_zero : quantity? 0 = some (.finite 0) := by
  have known : Decimal.Binary.ofFloat? 0 = some ⟨false, 0, -1074⟩ := by decide +kernel
  rw [Decimal.quantity?_finite known]
  norm_num [Decimal.Binary.value]

theorem moderate_zero : Moderate 0 := ⟨0, quantity_zero, by norm_num⟩

/-- Rows that single precision leaves no weight at all select the first member. -/
theorem first_selected (moderate : ∀ i, Moderate (noise i)) (some_there : weights ≠ [])
    (lost : ∀ w ∈ weights, Swallowed w.toModel.unpack) : selectNoisy noise weights 1 = .ok [0] := by
  have numbers : ∀ w ∈ weights, w.toModel.unpack ≠ .notANumber := by
    intro w member same
    have swallowed := lost w member
    rw [same] at swallowed
    exact swallowed
  obtain ⟨i, drawn, _, first⟩ := noisiest_found moderate some_there numbers 0
  obtain rfl := first lost
  rw [selectNoisy, List.range_one, List.mapM_cons, drawn, if_neg (by simpa using some_there)]
  rfl

/-- Beside a member of weight one, a first member without weight is not selected. -/
theorem dead_passed_over :
    ∃ indices, selectNoisy (fun _ => 0) [-1 / 0, 0] 3 = .ok indices ∧ indices.length = 3 ∧ ∀ i ∈ indices, i = 1 := by
  have dead : Score.isImpossible (-1 / 0 : Float) = true := isImpossible_iff.mpr rfl
  have alive : Score.isImpossible (0 : Float) = false := by decide +kernel
  have numbers : ∀ w ∈ [(-1 / 0 : Float), 0], w.isNaN = false := by decide +kernel
  obtain ⟨indices, selected, many, inside, revived⟩ :=
    dead_selected_iff (fun _ => moderate_zero) numbers ⟨0, by simp, alive⟩ 3
  refine ⟨indices, selected, many, fun i member => ?_⟩
  have bound : i < 2 := inside i member
  by_contra other
  obtain rfl : i = 0 := by omega
  obtain ⟨_, _, all⟩ := revived.mp ⟨0, member, _, rfl, dead⟩
  rcases all 0 (by simp) with impossible | ⟨q, known, below⟩
  · rw [alive] at impossible
    cases impossible
  · obtain rfl := Decimal.Quantity.finite.inj (Option.some.inj (quantity_zero.symm.trans known))
    norm_num at below

theorem first_selected_beside {x : Float} {b : Decimal.Binary} (taken : Decimal.Binary.ofFloat? x = some b)
    (below : b.value ≤ -(2 ^ 128 - 2 ^ 103)) : selectNoisy (fun _ => 0) [-1 / 0, x] 1 = .ok [0] := by
  refine first_selected (fun _ => moderate_zero) (List.cons_ne_nil _ _) (List.forall_mem_cons.mpr ⟨?_, ?_⟩)
  · exact swallowed_iff.mpr (.inl (isImpossible_iff.mpr rfl))
  · exact List.forall_mem_singleton.mpr (swallowed_iff.mpr (.inr ⟨_, Decimal.quantity?_finite taken, below⟩))

/-- A member without weight is selected beside one that has some, of the logarithm `-1e39`. -/
theorem dead_selected :
    Score.isImpossible (-1 / 0 : Float) = true ∧ Score.isImpossible (-1e39 : Float) = false ∧
      selectNoisy (fun _ => 0) [-1 / 0, -1e39] 1 = .ok [0] := by
  have known : Decimal.Binary.ofFloat? (-1e39) = some ⟨true, 6617444900424221, 77⟩ := by decide +kernel
  refine ⟨isImpossible_iff.mpr rfl, by decide +kernel, first_selected_beside known ?_⟩
  norm_num [Decimal.Binary.value]

end ProbCore.Random.Key
