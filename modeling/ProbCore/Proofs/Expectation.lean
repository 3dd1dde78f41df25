import ProbCore.Proofs.ExactScore
import ProbCore.Proofs.LawfulHost

/-! Computations as expectations. A computation takes a function of its outcome to the mean of that
function, where every draw is an independent exact draw from what it stands for. The rules say what
the outcomes of a computation are worth on average, one rule for each way to build a computation. -/

namespace ProbCore

open MeasureTheory
open scoped ENNReal

/-- A computation that is known by the mean of every function of its outcome. -/
@[ext]
structure Expected {D : Type} (laws : Densities D Exact) (α : Type) where
  mean : (Except Failure α → ℝ≥0∞) → ℝ≥0∞

namespace Expected

variable {D : Type} {laws : Densities D Exact} {α β : Type}

def after (next : α → Expected laws β) (f : Except Failure β → ℝ≥0∞) : Except Failure α → ℝ≥0∞
  | .ok a => (next a).mean f
  | .error e => f (.error e)

instance : Monad (Expected laws) where
  pure a := ⟨fun f => f (.ok a)⟩
  bind x next := ⟨fun f => x.mean (after next f)⟩

theorem mean_pure (a : α) (f : Except Failure α → ℝ≥0∞) :
    (pure a : Expected laws α).mean f = f (.ok a) := rfl

theorem mean_bind (x : Expected laws α) (next : α → Expected laws β)
    (f : Except Failure β → ℝ≥0∞) : (x >>= next).mean f = x.mean (after next f) := rfl

@[simp] theorem after_ok (next : α → Expected laws β) (f : Except Failure β → ℝ≥0∞) (a : α) :
    after next f (.ok a) = (next a).mean f := rfl

theorem after_pure (f : Except Failure α → ℝ≥0∞) : after (pure : α → Expected laws α) f = f := by
  funext outcome
  cases outcome with
  | ok a => rfl
  | error e => rfl

theorem after_bind {γ : Type} (next : α → Expected laws β) (last : β → Expected laws γ)
    (f : Except Failure γ → ℝ≥0∞) : after next (after last f) = after (fun a => next a >>= last) f := by
  funext outcome
  cases outcome with
  | ok a => rfl
  | error e => rfl

theorem bind_pure_id (x : Expected laws α) : id <$> x = x := by
  ext f
  change x.mean (after pure f) = _
  rw [after_pure]

theorem bind_after {γ : Type} (x : Expected laws α) (next : α → Expected laws β) (last : β → Expected laws γ) :
    x >>= next >>= last = x >>= fun a => next a >>= last := by
  ext f
  rw [mean_bind, mean_bind, mean_bind, after_bind]

instance : LawfulMonad (Expected laws) := .mk' _ bind_pure_id (fun _ _ => rfl) bind_after

/-- The mass that a log weight stands for. -/
noncomputable def chance (w : Exact) : ℝ≥0∞ := ENNReal.ofReal w.weight

/-- One index, with probability in proportion to its weight. -/
noncomputable def pick (weights : List Exact) : Expected laws Nat where
  mean f := (weights.zipIdx.map fun (w, i) => chance w / ENNReal.ofReal (Exact.mass weights) * f (.ok i)).sum

/-- The result of a question that needs no draw. -/
def answer (r : Except Failure α) : Expected laws α := ⟨fun f => f r⟩

/-- What a host does when every draw is averaged over. -/
noncomputable instance : Host (Expected laws) D Exact where
  fail e := answer (.error e)
  note _ := pure ()
  unlessDegenerate act := ⟨fun f => act.mean fun
    | .ok a => f (.ok (some a))
    | .error .degenerate => f (.ok none)
    | .error e => f (.error e)⟩
  nested act := act
  enumerable := laws.enumerable
  support d := answer (laws.support d)
  logDensity d v := answer (laws.logDensity d v)
  draw d := do
    let values ← answer (laws.support d)
    let branches ← values.mapM fun v => do return (v, ← answer (laws.logDensity d v))
    ⟨fun f => (branches.map fun (v, x) => chance x * f (.ok v)).sum⟩
  logUniform := ⟨fun f => ∫⁻ u in Set.Ioc (0 : ℝ) 1, f (.ok (.real (Real.log u)))⟩
  offset := ⟨fun f => ∫⁻ u in Set.Ico (0 : ℝ) 1, f (.ok (.real u))⟩
  indexBelow n := ⟨fun f => ((List.range n).map fun i => (n : ℝ≥0∞)⁻¹ * f (.ok i)).sum⟩
  categorical weights n := (List.replicate n ()).mapM fun _ => pick weights

/-- The outcomes of a computation that does not fail, with their probabilities. -/
structure Outcomes (x : Expected laws α) where
  ι : Type
  chance : ι → ℝ≥0∞
  outcome : ι → α
  expects (f : Except Failure α → ℝ≥0∞) : x.mean f = tsum fun i => chance i * f (.ok (outcome i))
  total : tsum chance = 1

/-- The computation always returns something that `holds` allows at some worth, and `mean` is the
mean of that worth. -/
def Averages (x : Expected laws α) (holds : α → ℝ≥0∞ → Prop) (mean : ℝ≥0∞) : Prop :=
  ∃ (out : Outcomes x) (worth : out.ι → ℝ≥0∞), (∀ i, holds (out.outcome i) (worth i)) ∧
    (tsum fun i => out.chance i * worth i) = mean

/-- As many results, and what they are worth together. -/
def Together (holds : α → ℝ≥0∞ → Prop) (count : Nat) (as : List α) (v : ℝ≥0∞) : Prop :=
  ∃ items : List (α × ℝ≥0∞), as = items.map (·.1) ∧ items.length = count ∧
    (∀ a ∈ items, holds a.1 a.2) ∧ v = (items.map (·.2)).sum

theorem Together.nil {holds : α → ℝ≥0∞ → Prop} : Together holds 0 [] 0 := ⟨[], rfl, rfl, nofun, rfl⟩

theorem Together.cons {holds : α → ℝ≥0∞ → Prop} {count : Nat} {a : α} {as : List α} {u v : ℝ≥0∞}
    (together : Together holds count as v) (held : holds a u) :
    Together holds (count + 1) (a :: as) (u + v) := by
  obtain ⟨items, rfl, rfl, all, rfl⟩ := together
  exact ⟨(a, u) :: items, rfl, rfl, List.forall_mem_cons.mpr ⟨held, all⟩, rfl⟩

namespace Averages

variable {x : Expected laws α} {holds : α → ℝ≥0∞ → Prop} {mean : ℝ≥0∞}

theorem mono {holds' : α → ℝ≥0∞ → Prop} (averages : Averages x holds mean)
    (weaker : ∀ a v, holds a v → holds' a v) : Averages x holds' mean := by
  obtain ⟨out, worth, held, same⟩ := averages
  exact ⟨out, worth, fun i => weaker _ _ (held i), same⟩

theorem pure {a : α} {v : ℝ≥0∞} (held : holds a v) : Averages (pure a : Expected laws α) holds v := by
  refine ⟨⟨Unit, fun _ => 1, fun _ => a, fun f => ?_, by simp⟩, fun _ => v, fun _ => held, by simp⟩
  rw [mean_pure, tsum_fintype, Fintype.sum_unique, one_mul]

/-- A computation goes on from what came before it at the same mean. -/
theorem bind {next : α → Expected laws β} {holds' : β → ℝ≥0∞ → Prop} (first : Averages x holds mean)
    (rest : ∀ a v, holds a v → Averages (next a) holds' v) : Averages (x >>= next) holds' mean := by
  obtain ⟨out, worth, held, rfl⟩ := first
  choose outs worths later means using fun i => rest _ _ (held i)
  refine ⟨⟨Σ i, (outs i).ι, fun p => out.chance p.1 * (outs p.1).chance p.2,
    fun p => (outs p.1).outcome p.2, fun f => ?_, ?_⟩, fun p => worths p.1 p.2, fun p => later p.1 p.2, ?_⟩
  · rw [mean_bind, out.expects, ENNReal.tsum_sigma']
    refine tsum_congr fun i => ?_
    rw [after_ok, (outs i).expects, ← ENNReal.tsum_mul_left]
    exact tsum_congr fun j => (mul_assoc ..).symm
  · rw [ENNReal.tsum_sigma']
    simp only [ENNReal.tsum_mul_left, (outs _).total, mul_one, out.total]
  · rw [ENNReal.tsum_sigma']
    refine tsum_congr fun i => ?_
    rw [← means i, ← ENNReal.tsum_mul_left]
    exact tsum_congr fun j => mul_assoc ..

theorem affine (averages : Averages x holds mean) (scale shift : ℝ≥0∞) :
    Averages x (fun a v => ∃ u, holds a u ∧ v = scale * u + shift) (scale * mean + shift) := by
  obtain ⟨out, worth, held, rfl⟩ := averages
  refine ⟨out, fun i => scale * worth i + shift, fun i => ⟨worth i, held i, rfl⟩, ?_⟩
  simp only [mul_add, ENNReal.tsum_add, ENNReal.tsum_mul_right, out.total, one_mul]
  rw [← ENNReal.tsum_mul_left]
  congr 1
  exact tsum_congr fun i => mul_left_comm ..

/-- The mean of a function of the outcome that is affine in its worth. -/
theorem eval {f : Except Failure α → ℝ≥0∞} (averages : Averages x holds mean) (scale shift : ℝ≥0∞)
    (known : ∀ a v, holds a v → f (.ok a) = scale * v + shift) : x.mean f = scale * mean + shift := by
  obtain ⟨out, worth, held, same⟩ := averages.affine scale shift
  rw [out.expects, ← same]
  refine tsum_congr fun i => ?_
  obtain ⟨u, allowed, worth_eq⟩ := held i
  rw [known _ u allowed, worth_eq]

/-- Outcomes without probability may be anything. -/
theorem of_outcomes (out : Outcomes x) (worth : out.ι → ℝ≥0∞)
    (held : ∀ i, out.chance i ≠ 0 → holds (out.outcome i) (worth i)) :
    Averages x holds (tsum fun i => out.chance i * worth i) := by
  let likely : Set out.ι := {i | out.chance i ≠ 0}
  have restricted (g : out.ι → ℝ≥0∞) :
      (tsum fun i : likely => out.chance i * g i) = tsum fun i => out.chance i * g i :=
    tsum_subtype_eq_of_support_subset (f := fun i => out.chance i * g i) fun _ inside =>
      left_ne_zero_of_mul inside
  refine ⟨⟨likely, fun i => out.chance i, fun i => out.outcome i, fun f => ?_, ?_⟩, fun i => worth i,
    fun i => held i i.2, restricted worth⟩
  · rw [out.expects]
    exact (restricted fun i => f (.ok (out.outcome i))).symm
  · rw [← out.total]
    simpa using restricted fun _ => 1

/-- The outcomes of a computation may be a list. -/
theorem of_list {γ : Type} (items : List γ) (chance : γ → ℝ≥0∞) (outcome : γ → α) (worth : γ → ℝ≥0∞)
    (expects : ∀ f, x.mean f = (items.map fun c => chance c * f (.ok (outcome c))).sum)
    (total : (items.map chance).sum = 1)
    (held : ∀ c ∈ items, chance c ≠ 0 → holds (outcome c) (worth c)) :
    Averages x holds (items.map fun c => chance c * worth c).sum := by
  have summed (g : γ → ℝ≥0∞) : (tsum fun i : Fin items.length => g items[i]) = (items.map g).sum := by
    rw [tsum_fintype]
    exact Fin.sum_univ_fun_getElem items g
  let out : Outcomes x :=
    ⟨Fin items.length, fun i => chance items[i], fun i => outcome items[i],
      fun f => (expects f).trans (summed fun c => chance c * f (.ok (outcome c))).symm,
      (summed chance).trans total⟩
  rw [← summed fun c => chance c * worth c]
  exact of_outcomes out (fun i => worth items[i]) fun i likely => held _ (List.getElem_mem i.2) likely

/-- The worth of a list of computations is the sum of what each is worth. -/
theorem mapM {act : β → Expected laws α} {items : List (β × ℝ≥0∞)}
    (each : ∀ b ∈ items, Averages (act b.1) holds b.2) :
    Averages ((items.map (·.1)).mapM act) (Together holds items.length) (items.map (·.2)).sum := by
  induction items with
  | nil => exact .pure .nil
  | cons b rest ih =>
    obtain ⟨now, later⟩ := List.forall_mem_cons.mp each
    rw [List.map_cons, List.map_cons, List.mapM_cons, List.sum_cons, ← one_mul b.2]
    refine (now.affine 1 (rest.map (·.2)).sum).bind ?_
    rintro a _ ⟨v, held, rfl⟩
    rw [one_mul, add_comm, ← one_mul (rest.map (·.2)).sum]
    refine ((ih later).affine 1 v).bind ?_
    rintro as _ ⟨u, together, rfl⟩
    rw [one_mul, add_comm]
    exact .pure (together.cons held)

end Averages

theorem chance_sum (ws : List Exact) : (ws.map chance).sum = ENNReal.ofReal (Exact.mass ws) := by
  induction ws with
  | nil => simp
  | cons w ws ih =>
    rw [List.map_cons, List.sum_cons, ih, Exact.mass_cons,
      ENNReal.ofReal_add w.weight_nonneg (Exact.mass_nonneg ws), chance]

theorem chance_ne_zero {w : Exact} (likely : chance w ≠ 0) : w.IsReal := by
  cases w with
  | real x => exact ⟨x, rfl⟩
  | negInf | posInf | nan => exact absurd ENNReal.ofReal_zero likely

section

variable {d : D} {branches : List (Value × Exact)}

theorem draw_mean (listed : laws.support d = .ok (branches.map (·.1)))
    (weighed : ∀ b ∈ branches, laws.logDensity d b.1 = .ok b.2) (f : Except Failure Value → ℝ≥0∞) :
    (Host.draw d : Expected laws Value).mean f = (branches.map fun b => chance b.2 * f (.ok b.1)).sum := by
  have weighs {bs : List (Value × Exact)} (known : ∀ b ∈ bs, laws.logDensity d b.1 = .ok b.2) :
      (bs.map (·.1)).mapM (fun v => do return (v, ← answer (laws.logDensity d v))) =
        (pure bs : Expected laws _) := by
    induction bs with
    | nil => rfl
    | cons b bs ih =>
      obtain ⟨first, rest⟩ := List.forall_mem_cons.mp known
      rw [List.map_cons, List.mapM_cons, ih rest, first]
      rfl
  have listing : (Host.draw d : Expected laws Value) = (do
      let bs ← (branches.map (·.1)).mapM fun v => do return (v, ← answer (laws.logDensity d v))
      ⟨fun f => (bs.map fun (v, x) => chance x * f (.ok v)).sum⟩) := by
    simp only [Host.draw, listed]
    rfl
  rw [listing, weighs weighed]
  rfl

/-- A draw returns a listed value with mass. -/
theorem Averages.draw (listed : laws.support d = .ok (branches.map (·.1)))
    (weighed : ∀ b ∈ branches, laws.logDensity d b.1 = .ok b.2)
    (normalized : Exact.mass (branches.map (·.2)) = 1) (worth : Value × Exact → ℝ≥0∞) :
    Averages (Host.draw d : Expected laws Value)
      (fun v u => ∃ b ∈ branches, b.2.IsReal ∧ v = b.1 ∧ u = worth b)
      (branches.map fun b => chance b.2 * worth b).sum := by
  apply of_list branches (fun b => chance b.2) (fun b => b.1) worth (draw_mean listed weighed)
  · have total := chance_sum (branches.map (·.2))
    rw [normalized, ENNReal.ofReal_one, List.map_map] at total
    exact total
  · exact fun b member likely => ⟨b, member, chance_ne_zero likely, rfl, rfl⟩

end

end Expected

end ProbCore
