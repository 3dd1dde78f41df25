import ProbCore.Proofs.LawfulHost
import ProbCore.Program.World

/-! What a computation can return, from some state of its host. A strategy may ask its host
anything, and the host may be in any state when it is asked: the values that a computation
yields are a bound on all that can happen. -/

namespace ProbCore

variable {σ α β : Type}

/-- Some state of the host lets the computation return this value. -/
def Yields (x : EStateM Failure σ α) (a : α) : Prop := ∃ w w', x w = .ok a w'

namespace Yields

theorem bind {x : EStateM Failure σ α} {f : α → EStateM Failure σ β} {b : β}
    (yields : Yields (x >>= f) b) : ∃ a, Yields x a ∧ Yields (f a) b := by
  obtain ⟨w, w', returned⟩ := yields
  obtain ⟨a, middle, first, rest⟩ := bind_eq_ok.mp returned
  exact ⟨a, ⟨w, middle, first⟩, ⟨middle, w', rest⟩⟩

theorem pure {a b : α} (yields : Yields (pure a : EStateM Failure σ α) b) : b = a := by
  obtain ⟨w, w', returned⟩ := yields
  exact (pure_eq_ok.mp returned).1

/-- What a loop over a list yields comes from members of the list. -/
theorem mapM_mem {f : α → EStateM Failure σ β} {xs : List α} {ys : List β}
    (yields : Yields (xs.mapM f) ys) : ∀ y ∈ ys, ∃ x ∈ xs, Yields (f x) y := by
  induction xs generalizing ys with
  | nil =>
    rw [List.mapM_nil] at yields
    rw [yields.pure]
    exact nofun
  | cons x xs ih =>
    rw [List.mapM_cons] at yields
    obtain ⟨first, here, yields⟩ := yields.bind
    obtain ⟨rest, others, yields⟩ := yields.bind
    rw [yields.pure]
    intro y member
    rcases List.mem_cons.mp member with rfl | member
    · exact ⟨x, List.mem_cons_self, here⟩
    · obtain ⟨x', present, yields⟩ := ih others y member
      exact ⟨x', List.mem_cons_of_mem x present, yields⟩

end Yields

/-- Only what the first of two computations yields matters to the second. -/
theorem bind_congr_yields {x : EStateM Failure σ α} {f g : α → EStateM Failure σ β}
    (same : ∀ a, Yields x a → f a = g a) : x >>= f = x >>= g := by
  funext w
  change EStateM.bind x f w = EStateM.bind x g w
  cases first : x w with
  | ok a middle =>
    simp only [EStateM.bind, first]
    rw [same a ⟨w, middle, first⟩]
  | error e middle => simp only [EStateM.bind, first]

/-- A host that returns nothing from a failure, runs what it is given under an inner strategy
or against a loss of all weight, and selects only members. -/
class SoundHost (σ : Type) (D R : outParam Type) [Host (EStateM Failure σ) D R] : Prop where
  fail_sound {α : Type} {e : Failure} {a : α} : ¬ Yields (Host.fail e : EStateM Failure σ α) a
  nested_sound {α : Type} {act : EStateM Failure σ α} {a : α} :
    Yields (Host.nested act) a → Yields act a
  unlessDegenerate_sound {α : Type} {act : EStateM Failure σ α} {a : α} :
    Yields (Host.unlessDegenerate act) (some a) → Yields act a
  selection_inside {weights : List R} {n : Nat} {indices : List Nat} :
    Yields (Host.categorical weights n : EStateM Failure σ (List Nat)) indices →
      ∀ i ∈ indices, i < weights.length

section

variable {D R : Type} [Host (EStateM Failure σ) D R] [SoundHost σ D R]

theorem Yields.not_fail {P : Prop} {e : Failure} {a : α}
    (yields : Yields (Host.fail e : EStateM Failure σ α) a) : P :=
  absurd yields SoundHost.fail_sound

theorem Yields.lift {r : Except Failure α} {a : α}
    (yields : Yields (Host.lift r : EStateM Failure σ α) a) : r = .ok a := by
  cases r with
  | ok b => rw [Yields.pure yields]
  | error e => exact Yields.not_fail yields

end

namespace Run

theorem lift_eq_ok {r : Except Failure α} {a : α} {w w' : World}
    (returned : Run.lift r w = .ok a w') : r = .ok a := by
  cases r with
  | ok b => rw [(pure_eq_ok.mp returned).1]
  | error e => cases returned

theorem installed_yields {active : Active} {act : Run α} {a : α} {w w' : World}
    (returned : installed active act w = .ok a w') : Yields act a := by
  unfold installed at returned
  split at returned
  next ran =>
    cases returned
    exact ⟨_, _, ran⟩
  next => cases returned

end Run

namespace Random.Key

theorem scan_bound (xs : List Float) (i : Nat) (best : Float) (place : Nat) (before : place < i) :
    argmax?.scan xs i best place < i + xs.length := by
  induction xs generalizing i best place with
  | nil => exact before
  | cons x xs ih =>
    rw [argmax?.scan, List.length_cons]
    split
    · have := ih (i + 1) x i (Nat.lt_succ_self i)
      omega
    · have := ih (i + 1) best place (Nat.lt_succ_of_lt before)
      omega

theorem argmax_bound {xs : List Float} {i : Nat} (found : argmax? xs = some i) : i < xs.length := by
  cases xs with
  | nil => cases found
  | cons x xs =>
    obtain rfl := Option.some.inj found
    have := scan_bound xs 1 x 0 Nat.one_pos
    rw [List.length_cons]
    omega

theorem mapM_some_length {f : α → Option β} {xs : List α} {ys : List β} (found : xs.mapM f = some ys) :
    ys.length = xs.length := by
  induction xs generalizing ys with
  | nil =>
    cases found
    rfl
  | cons x xs ih =>
    rw [List.mapM_cons] at found
    obtain ⟨z, _, found⟩ := Option.bind_eq_some_iff.mp found
    obtain ⟨zs, rest, found⟩ := Option.bind_eq_some_iff.mp found
    cases found
    rw [List.length_cons, List.length_cons, ih rest]

theorem mapM_some_mem {f : α → Option β} {xs : List α} {ys : List β} (found : xs.mapM f = some ys) :
    ∀ y ∈ ys, ∃ x ∈ xs, f x = some y := by
  induction xs generalizing ys with
  | nil =>
    cases found
    exact nofun
  | cons x xs ih =>
    rw [List.mapM_cons] at found
    obtain ⟨z, first, found⟩ := Option.bind_eq_some_iff.mp found
    obtain ⟨zs, rest, found⟩ := Option.bind_eq_some_iff.mp found
    cases found
    intro y member
    rcases List.mem_cons.mp member with rfl | member
    · exact ⟨x, List.mem_cons_self, first⟩
    · obtain ⟨x', present, same⟩ := ih rest y member
      exact ⟨x', List.mem_cons_of_mem x present, same⟩

/-- A selection by noise has as many indices as were asked for, one for each row. -/
theorem selectNoisy_rows {noise : Nat → Float} {weights : List Float} {n : Nat} {indices : List Nat}
    (selected : selectNoisy noise weights n = .ok indices) :
    indices.length = n ∧ ∀ i ∈ indices, ∃ row, noisiest? noise weights row = some i := by
  unfold selectNoisy at selected
  split at selected
  next => cases selected
  next =>
    split at selected
    next drawn =>
      cases selected
      refine ⟨by rw [mapM_some_length drawn, List.length_range], fun i member => ?_⟩
      obtain ⟨row, _, found⟩ := mapM_some_mem drawn i member
      exact ⟨row, found⟩
    next => cases selected

theorem noisiest_bound {noise : Nat → Float} {weights : List Float} {row i : Nat}
    (found : noisiest? noise weights row = some i) : i < weights.length := by
  have bound := argmax_bound found
  simpa using bound

theorem multinomial_inside {key : Key} {weights : List Float} {n : Nat} {indices : List Nat}
    (selected : key.multinomial weights n = .ok indices) : ∀ i ∈ indices, i < weights.length := by
  intro i member
  obtain ⟨row, found⟩ := (selectNoisy_rows selected).2 i member
  exact noisiest_bound found

end Random.Key

/-- The world of running programs is such a host. -/
instance : SoundHost World Dist Float where
  fail_sound := by
    rintro α e a ⟨w, w', returned⟩
    cases returned
  nested_sound := by
    rintro α act a ⟨w, w', returned⟩
    obtain ⟨active, _, _, returned⟩ := bind_eq_ok.mp returned
    obtain ⟨key, _, _, returned⟩ := bind_eq_ok.mp returned
    exact Run.installed_yields returned
  unlessDegenerate_sound := by
    rintro α act a ⟨w, w', returned⟩
    change (match act w with
      | .ok x w' => .ok (some x) w'
      | .error .degenerate w' => .ok none w'
      | .error e w' => .error e w' : EStateM.Result Failure World (Option α)) = _ at returned
    split at returned
    next ran =>
      cases returned
      exact ⟨_, _, ran⟩
    next => cases returned
    next => cases returned
  selection_inside := by
    rintro weights n indices ⟨w, w', returned⟩
    obtain ⟨key, middle, _, returned⟩ := bind_eq_ok.mp returned
    exact Random.Key.multinomial_inside (Run.lift_eq_ok returned)

end ProbCore
