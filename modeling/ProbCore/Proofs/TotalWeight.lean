import ProbCore.Proofs.ExactScore

/-! The total of log weights of any kind. One that is no number spoils the total, and one without
bound outweighs all others. The total is finite exactly if every weight is a number or impossible
and some of them is a number. -/

namespace ProbCore.Exact

theorem nan_add (x : Exact) : nan + x = nan := by cases x <;> rfl

theorem add_nan (x : Exact) : x + nan = nan := by cases x <;> rfl

theorem nan_sub (x : Exact) : nan - x = nan := nan_add (-x)

theorem sub_nan (x : Exact) : x - nan = nan := add_nan x

theorem logAddExp_nan (x : Exact) : Score.logAddExp x nan = nan ∧ Score.logAddExp nan x = nan := by
  have right (z : Exact) : Score.logAddExp z nan = nan := by
    have unlike : Score.same z nan = false := by cases z <;> rfl
    simp only [Score.logAddExp, unlike, sub_nan]
    rfl
  refine ⟨right x, ?_⟩
  have unlike : Score.same nan x = false := by cases x <;> rfl
  simp only [Score.logAddExp, unlike, nan_sub]
  rfl

theorem logAddExp_posInf {x : Exact} (number : x ≠ nan) :
    Score.logAddExp x posInf = posInf ∧ Score.logAddExp posInf x = posInf := by
  cases x with
  | nan => exact absurd rfl number
  | posInf =>
    have doubled : posInf + Score.logNat 2 = posInf := by
      rw [logNat_eq two_ne_zero]
      rfl
    exact ⟨doubled, doubled⟩
  | real x =>
    constructor
    · change posInf + Score.logOnePlus (Score.exp negInf) = posInf
      rw [logOnePlus_nothing]
      rfl
    · change posInf + Score.logOnePlus (Score.exp negInf) = posInf
      rw [logOnePlus_nothing]
      rfl
  | negInf =>
    constructor
    · change posInf + Score.logOnePlus (Score.exp negInf) = posInf
      rw [logOnePlus_nothing]
      rfl
    · change posInf + Score.logOnePlus (Score.exp negInf) = posInf
      rw [logOnePlus_nothing]
      rfl

theorem logAddExp_number {x y : Exact} (left : x ≠ nan) (right : y ≠ nan) : Score.logAddExp x y ≠ nan := by
  have finite {z : Exact} (number : z ≠ nan) (bounded : z ≠ posInf) : z.IsReal ∨ z = negInf := by
    cases z with
    | real z => exact .inl ⟨z, rfl⟩
    | negInf => exact .inr rfl
    | posInf => exact absurd rfl bounded
    | nan => exact absurd rfl number
  by_cases above : x = posInf
  · rw [above, (logAddExp_posInf right).2]
    exact nofun
  by_cases above' : y = posInf
  · rw [above', (logAddExp_posInf left).1]
    exact nofun
  rw [← ofMass_weight (finite left above), ← ofMass_weight (finite right above'),
    logAddExp_ofMass x.weight_nonneg y.weight_nonneg, ofMass]
  split <;> exact nofun

/-- A weight that absorbs all others makes the total. -/
theorem logSumExp_absorbed {P : Exact → Prop} {z : Exact} {ws : List Exact} (among : z ∈ ws)
    (all : ∀ w ∈ ws, P w) (closed : ∀ x y, P x → P y → P (Score.logAddExp x y))
    (absorbs : ∀ x, P x → Score.logAddExp x z = z ∧ Score.logAddExp z x = z) : Score.logSumExp ws = z := by
  have stays {ws : List Exact} (all : ∀ w ∈ ws, P w) : ws.foldl Score.logAddExp z = z := by
    induction ws with
    | nil => rfl
    | cons w ws ih =>
      obtain ⟨first, rest⟩ := List.forall_mem_cons.mp all
      rw [List.foldl_cons, (absorbs w first).2, ih rest]
  have enters {ws : List Exact} (among : z ∈ ws) (all : ∀ w ∈ ws, P w) {w : Exact} (before : P w) :
      ws.foldl Score.logAddExp w = z := by
    induction ws generalizing w with
    | nil => cases among
    | cons v ws ih =>
      obtain ⟨first, rest⟩ := List.forall_mem_cons.mp all
      rw [List.foldl_cons]
      rcases List.mem_cons.mp among with rfl | among
      · rw [(absorbs w before).1, stays rest]
      · exact ih among rest (closed w v before first)
  cases ws with
  | nil => cases among
  | cons w ws =>
    obtain ⟨first, rest⟩ := List.forall_mem_cons.mp all
    rcases List.mem_cons.mp among with rfl | among
    · exact stays rest
    · exact enters among rest first

/-- A weight that is no number spoils the total. -/
theorem logSumExp_nan {ws : List Exact} (among : nan ∈ ws) : Score.logSumExp ws = nan :=
  logSumExp_absorbed (P := fun _ => True) among (fun _ _ => trivial) (fun _ _ _ _ => trivial)
    fun x _ => logAddExp_nan x

/-- A weight without bound outweighs all others. -/
theorem logSumExp_posInf {ws : List Exact} (among : posInf ∈ ws) (numbers : nan ∉ ws) :
    Score.logSumExp ws = posInf := by
  refine logSumExp_absorbed (P := (· ≠ nan)) among ?_ (fun _ _ => logAddExp_number) fun _ => logAddExp_posInf
  intro w member same
  exact numbers (same ▸ member)

/-- All that log weights can be together. -/
theorem weights_cases (ws : List Exact) :
    nan ∈ ws ∨ posInf ∈ ws ∧ nan ∉ ws ∨ ∀ w ∈ ws, w.IsReal ∨ w = negInf := by
  by_cases spoilt : nan ∈ ws
  · exact .inl spoilt
  by_cases unbounded : posInf ∈ ws
  · exact .inr (.inl ⟨unbounded, spoilt⟩)
  refine .inr (.inr fun w member => ?_)
  cases w with
  | real x => exact .inl ⟨x, rfl⟩
  | negInf => exact .inr rfl
  | posInf => exact absurd member unbounded
  | nan => exact absurd member spoilt

theorem mass_pos_of_real {ws : List Exact} (heavy : ∃ w ∈ ws, w.IsReal) : 0 < mass ws := by
  obtain ⟨w, member, x, rfl⟩ := heavy
  have least : Real.exp x ≤ mass ws :=
    List.single_le_sum (List.forall_mem_map.mpr fun w _ => w.weight_nonneg) _
      (List.mem_map_of_mem (f := weight) member)
  exact lt_of_lt_of_le (Real.exp_pos x) least

theorem mass_eq_zero {ws : List Exact} (dead : ∀ w ∈ ws, w = negInf) : mass ws = 0 := by
  rw [mass]
  refine List.sum_eq_zero fun m member => ?_
  obtain ⟨w, present, rfl⟩ := List.mem_map.mp member
  rw [dead w present]
  rfl

theorem isFinite_logSumExp_iff (ws : List Exact) :
    Score.isFinite (Score.logSumExp ws) = true ↔
      (∀ w ∈ ws, w.IsReal ∨ w = negInf) ∧ ∃ w ∈ ws, w.IsReal := by
  rcases weights_cases ws with spoilt | ⟨unbounded, numbers⟩ | finite
  · rw [logSumExp_nan spoilt]
    refine iff_of_false nofun fun both => ?_
    rcases both.1 nan spoilt with ⟨x, same⟩ | same <;> cases same
  · rw [logSumExp_posInf unbounded numbers]
    refine iff_of_false nofun fun both => ?_
    rcases both.1 posInf unbounded with ⟨x, same⟩ | same <;> cases same
  · rw [logSumExp_ofMass finite]
    by_cases heavy : ∃ w ∈ ws, w.IsReal
    · rw [ofMass_pos (mass_pos_of_real heavy)]
      exact iff_of_true rfl ⟨finite, heavy⟩
    · have dead : ∀ w ∈ ws, w = negInf := by
        intro w member
        exact (finite w member).resolve_left fun real => heavy ⟨w, member, real⟩
      rw [mass_eq_zero dead, ofMass_zero]
      exact iff_of_false nofun fun both => heavy both.2

end ProbCore.Exact
