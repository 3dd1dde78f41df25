import ProbCore.Proofs.SelectionMeans

/-! Evenly spaced points select every member about as often as its share of the weight says. Each
point falls to the first member whose running sum of shares exceeds it. So the points that fall to
the first few members are those below a running sum, their number is that sum rounded up, and the
number of points that fall to one member is the difference of two rounded sums. -/

namespace ProbCore

open Expected

/-- A point falls to one of the first `i` members exactly if it is below the sum of their shares. -/
theorem Expected.place_lt {ys : List ℝ} (nonneg : ∀ y ∈ ys, 0 ≤ y) {before x : ℝ} (from_there : before ≤ x)
    {i : Nat} (inside : i ≤ ys.length) :
    place x (runningSums before ys) < i ↔ x < before + (ys.take i).sum := by
  induction ys generalizing before i with
  | nil =>
    obtain rfl : i = 0 := Nat.le_zero.mp inside
    simpa [runningSums, place] using from_there
  | cons y ys ih =>
    obtain ⟨first, rest⟩ := List.forall_mem_cons.mp nonneg
    cases i with
    | zero => simpa using from_there
    | succ i =>
      rw [List.take_succ_cons, List.sum_cons, ← add_assoc, runningSums, place]
      split
      next here =>
        have later : 0 ≤ (ys.take i).sum := List.sum_nonneg fun z member => rest z (List.mem_of_mem_take member)
        exact iff_of_true (Nat.succ_pos i) (by linarith)
      next above =>
        rw [Nat.succ_lt_succ_iff]
        exact ih rest (not_lt.mp above) (Nat.le_of_succ_le_succ inside)

section

variable {n : Nat} {u : ℝ}

/-- As many of the points of one offset are below a bound as the bound says, rounded up. -/
theorem countP_points {c : ℝ} (within : c ≤ n) (from_zero : 0 ≤ u) :
    (List.range n).countP (fun j : Nat => (j : ℝ) + u < c) = ⌈c - u⌉₊ := by
  have below (j : Nat) : (j : ℝ) + u < c ↔ j < ⌈c - u⌉₊ := by
    rw [Nat.lt_ceil, lt_sub_iff_add_lt]
  have few : ⌈c - u⌉₊ ≤ n := by
    rw [Nat.ceil_le]
    linarith
  simp only [below]
  rw [List.countP_eq_length_filter, ← List.Ico.zero_bot, List.Ico.filter_lt, List.Ico.length, Nat.sub_zero]
  exact min_eq_right few

theorem countP_lt_succ {α : Type} (f : α → Nat) (i : Nat) (xs : List α) :
    xs.countP (fun x => f x < i + 1) = xs.countP (fun x => f x < i) + (xs.map f).count i := by
  induction xs with
  | nil => rfl
  | cons x xs ih =>
    simp only [List.countP_cons, List.map_cons, List.count_cons, ih, beq_iff_eq, decide_eq_true_eq]
    split <;> split <;> split <;> omega

theorem ceil_lt_succ {a : ℝ} (near : -1 < a) : (⌈a⌉₊ : ℝ) < a + 1 := by
  rcases le_or_gt 0 a with nonneg | negative
  · exact Nat.ceil_lt_add_one nonneg
  · rw [Nat.ceil_eq_zero.mpr negative.le, Nat.cast_zero]
    linarith

/-- A rounded sum exceeds another by the difference between them, rounded down or up. -/
theorem ceil_add_sub {a d : ℝ} (near : -1 < a) (nonneg : 0 ≤ d) :
    ⌈a + d⌉₊ - ⌈a⌉₊ = ⌊d⌋₊ ∨ ⌈a + d⌉₊ - ⌈a⌉₊ = ⌈d⌉₊ := by
  obtain ⟨k, more⟩ := Nat.exists_eq_add_of_le (Nat.ceil_mono (by linarith : a ≤ a + d))
  have sum : (⌈a + d⌉₊ : ℝ) = ⌈a⌉₊ + k := by exact_mod_cast more
  have above : d < k + 1 := by linarith [Nat.le_ceil (a + d), ceil_lt_succ near]
  have below : (k : ℝ) < d + 1 := by linarith [Nat.le_ceil a, ceil_lt_succ (by linarith : -1 < a + d)]
  rw [more, Nat.add_sub_cancel_left]
  rcases le_or_gt (k : ℝ) d with within | beyond
  · exact .inl ((Nat.floor_eq_iff nonneg).mpr ⟨within, above⟩).symm
  · refine .inr (le_antisymm ?_ (Nat.ceil_le.mpr beyond.le))
    have short : (k : ℝ) < ⌈d⌉₊ + 1 := by linarith [Nat.le_ceil d]
    exact Nat.le_of_lt_succ (by exact_mod_cast short)

end

section

variable {weights : List Exact} {n : Nat} {u : ℝ}

/-- Where the points of one offset fall to. -/
noncomputable def fallen (weights : List Exact) (u : ℝ) (n : Nat) : List Nat :=
  (List.range n).map fun j : Nat => place ((j + u) / n) (runningSums 0 (portions weights))

theorem portions_take_le (positive : 0 < Exact.mass weights) (i : Nat) : ((portions weights).take i).sum ≤ 1 := by
  have parts := List.sum_take_add_sum_drop (portions weights) i
  rw [portions_sum positive] at parts
  have rest : 0 ≤ ((portions weights).drop i).sum :=
    List.sum_nonneg fun y member => portions_nonneg weights y (List.mem_of_mem_drop member)
  linarith

/-- The points that fall to the first `i` members are those below the sum of their shares. -/
theorem countP_fallen (positive : 0 < Exact.mass weights) (some_there : n ≠ 0) (from_zero : 0 ≤ u) {i : Nat}
    (inside : i ≤ weights.length) :
    (List.range n).countP (fun j : Nat => place ((j + u) / n) (runningSums 0 (portions weights)) < i) =
      ⌈n * ((portions weights).take i).sum - u⌉₊ := by
  have long : (0 : ℝ) < n := Nat.cast_pos.mpr (Nat.pos_of_ne_zero some_there)
  have within : n * ((portions weights).take i).sum ≤ n := by
    nlinarith [portions_take_le positive i]
  rw [← countP_points within from_zero]
  apply List.countP_congr
  intro j _
  have point : 0 ≤ (j + u) / n := by positivity
  have few : i ≤ (portions weights).length := by rwa [portions, List.length_map]
  simp only [decide_eq_true_eq]
  rw [place_lt (portions_nonneg weights) point few, zero_add, div_lt_iff₀' long]

/-- So many points fall to a member as its share of them says, rounded down or up. -/
theorem count_fallen (positive : 0 < Exact.mass weights) (some_there : n ≠ 0) (from_zero : 0 ≤ u)
    (below_one : u < 1) {i : Nat} {p : ℝ} (share : (portions weights)[i]? = some p) :
    (fallen weights u n).count i = ⌊n * p⌋₊ ∨ (fallen weights u n).count i = ⌈n * p⌉₊ := by
  obtain ⟨inside, here⟩ := List.getElem?_eq_some_iff.mp share
  have few : i + 1 ≤ weights.length := by
    rw [portions, List.length_map] at inside
    exact inside
  have counted := countP_lt_succ (fun j : Nat => place ((j + u) / n) (runningSums 0 (portions weights))) i
    (List.range n)
  rw [countP_fallen positive some_there from_zero few, countP_fallen positive some_there from_zero (by omega),
    List.sum_take_succ _ i inside, here, mul_add, add_sub_right_comm] at counted
  have before : 0 ≤ n * ((portions weights).take i).sum :=
    mul_nonneg n.cast_nonneg (List.sum_nonneg fun y member =>
      portions_nonneg weights y (List.mem_of_mem_take member))
  have nonneg : 0 ≤ n * p :=
    mul_nonneg n.cast_nonneg (portions_nonneg weights p (List.mem_of_getElem? share))
  have rounded := ceil_add_sub (by linarith : -1 < n * ((portions weights).take i).sum - u) nonneg
  rwa [Nat.sub_eq_of_eq_add' counted] at rounded

theorem fallen_sorted (some_there : n ≠ 0) : (fallen weights u n).Pairwise (· ≤ ·) := by
  have long : (0 : ℝ) < n := Nat.cast_pos.mpr (Nat.pos_of_ne_zero some_there)
  refine List.pairwise_map.mpr (List.pairwise_lt_range.imp fun earlier => ?_)
  apply place_mono
  have later := Nat.cast_le (α := ℝ).mpr earlier.le
  gcongr

/-- Every point falls to a member that has weight. -/
theorem mem_fallen (positive : 0 < Exact.mass weights) (from_zero : 0 ≤ u) (below_one : u < 1) :
    ∀ i ∈ fallen weights u n, ∃ w, weights[i]? = some w ∧ w.IsReal := by
  intro i member
  obtain ⟨j, below, rfl⟩ := List.mem_map.mp member
  have above : (j : ℝ) + 1 ≤ n := by exact_mod_cast List.mem_range.mp below
  have long : (0 : ℝ) < n := by linarith [j.cast_nonneg (α := ℝ)]
  have unit : (j + u) / n ∈ Set.Ico (0 : ℝ) 1 := ⟨by positivity, (div_lt_one long).mpr (by linarith)⟩
  obtain ⟨same, found⟩ := fallsTo_found positive unit
  rwa [same] at found

end

/-- Systematic resampling is balanced. With some weight, and any offset below one, it returns as many
indices as asked for, in order and in range. A member occurs as often as its share of the indices
says, rounded down or up, and one without weight never does. No point falls beyond the last sum, so
that no index is brought back to the last position. -/
theorem systematic_balanced {weights : List Exact} {n : Nat} {u : ℝ} (heavy : ∃ w ∈ weights, w.IsReal)
    (finite : ∀ w ∈ weights, w.IsReal ∨ w = .negInf) (some_asked : 1 ≤ n) (from_zero : 0 ≤ u) (below_one : u < 1) :
    ∃ indices, Score.systematic weights (.real u) n = .ok indices ∧
      Score.unbounded weights (.real u) n = .ok indices ∧
      indices.length = n ∧ indices.Pairwise (· ≤ ·) ∧ (∀ i ∈ indices, i < weights.length) ∧
      (∀ i < weights.length, ∃ p : ℝ, (Score.shares weights)[i]? = some (.real p) ∧
        (indices.count i = ⌊n * p⌋₊ ∨ indices.count i = ⌈n * p⌉₊)) ∧
      ∀ i, weights[i]? = some .negInf → i ∉ indices := by
  have positive : 0 < Exact.mass weights := by
    obtain ⟨w, member, x, rfl⟩ := heavy
    have least : Real.exp x ≤ Exact.mass weights :=
      List.single_le_sum (List.forall_mem_map.mpr fun w _ => w.weight_nonneg) _
        (List.mem_map_of_mem (f := Exact.weight) member)
    exact lt_of_lt_of_le (Real.exp_pos x) least
  have some_there : n ≠ 0 := Nat.one_le_iff_ne_zero.mp some_asked
  have loose : Score.unbounded weights (.real u) n = .ok (fallen weights u n) :=
    unbounded_eq finite positive some_there u
  have held := mem_fallen (n := n) positive from_zero below_one
  have inside : ∀ i ∈ fallen weights u n, i < weights.length := by
    intro i member
    obtain ⟨w, found, _⟩ := held i member
    exact (List.getElem?_eq_some_iff.mp found).1
  have kept : (fallen weights u n).map (min · (weights.length - 1)) = fallen weights u n := by
    refine (List.map_congr_left fun i member => ?_).trans (List.map_id _)
    have below := inside i member
    rw [id_eq]
    omega
  refine ⟨fallen weights u n, ?_, loose, by simp [fallen], fallen_sorted some_there, inside, ?_, ?_⟩
  · rw [Score.systematic_eq_bounded, loose, Except.map, kept]
  · intro i below
    have listed : i < (portions weights).length := by rwa [portions, List.length_map]
    have share : (portions weights)[i]? = some (portions weights)[i] := List.getElem?_eq_getElem listed
    refine ⟨(portions weights)[i], ?_, count_fallen positive some_there from_zero below_one share⟩
    rw [shares_eq finite positive, List.getElem?_map, share]
    rfl
  · intro i weightless member
    obtain ⟨w, found, x, rfl⟩ := held i member
    rw [weightless] at found
    cases found

/-- The first of three members has no weight, and the second of three points falls between the others. -/
theorem halves_balanced :
    ∃ indices, Score.systematic [.negInf, .real 0, .real 0] (.real (1 / 2) : Exact) 3 = .ok indices ∧
      indices.length = 3 ∧ 0 ∉ indices ∧
      ∀ i < 3, ∃ p : ℝ, (Score.shares [Exact.negInf, .real 0, .real 0])[i]? = some (.real p) ∧
        (indices.count i = ⌊3 * p⌋₊ ∨ indices.count i = ⌈3 * p⌉₊) := by
  have finite : ∀ w ∈ [Exact.negInf, .real 0, .real 0], w.IsReal ∨ w = .negInf := by
    intro w member
    simp only [List.mem_cons, List.not_mem_nil, or_false] at member
    rcases member with rfl | rfl | rfl
    · exact .inr rfl
    · exact .inl ⟨0, rfl⟩
    · exact .inl ⟨0, rfl⟩
  obtain ⟨indices, made, _, count, _, _, spread, absent⟩ :=
    systematic_balanced (n := 3) (u := 1 / 2) ⟨.real 0, by simp, 0, rfl⟩ finite (by decide) (by norm_num)
      (by norm_num)
  exact ⟨indices, made, count, absent 0 rfl, by simpa using spread⟩

end ProbCore
