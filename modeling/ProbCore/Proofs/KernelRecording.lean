import ProbCore.Strategy.Kernel
import ProbCore.Proofs.PlainProgram

/-! What the kernel records of one execution, as a relation between the tape before, the values
drawn, and the recording after. The relation has one rule for each thing that the kernel's
handler does, so that the rest of the theory need not look into the host. -/

namespace ProbCore.Kernel

section

variable {κ D R : Type} [Score R]

def tolerable (x : R) : Bool := !(Score.isImpossible x || Score.isNaN x)

/-- Whether an execution that has absorbed so many factors is stopped there. -/
def stops (limit : Option Nat) (n : Nat) : Bool := limit.any (· ≤ n)

/-- The old value that a choice keeps, if any. -/
def carried (laws : Densities D R) (old : Option (Trace κ D R)) (reused : List Address)
    (a : Address) (d : D) : Except Failure (Option Value) :=
  match old.bind (·.choiceAt? a) with
  | none => .ok none
  | some c =>
    if reused.contains a then .ok none
    else do return if ← laws.accepts d c.value then some c.value else none

namespace Recording

def absorb (tape : Recording κ D R) (x : R) : Recording κ D R :=
  { tape with score := tape.score + x, factors := tape.factors + 1 }

/-- A choice that keeps its old value spends it. -/
def keep (tape : Recording κ D R) (a : Address) : Recording κ D R :=
  { tape with reused := a :: tape.reused }

def draw (tape : Recording κ D R) (lp : R) : Recording κ D R :=
  { tape with fresh := tape.fresh + lp }

end Recording

/-- The kernel's execution from a step on, with the values that it draws. -/
inductive Records (laws : Densities D R) (P : PlainProgram κ D R) (drawable : D → Value → Prop)
    (limit : Option Nat) (old : Option (Trace κ D R)) :
    Recording κ D R → Step κ D R → List Value → Recorded κ D R → Prop where
  | exit {tape s v} : Records laws P drawable limit old tape (.exit s v) [] (tape.finish s (.done v))
  | suspend {tape s k a x} (fine : tolerable x = true) (stop : stops limit (tape.factors + 1) = true) :
      Records laws P drawable limit old tape (.factor s k a x) []
        ((tape.absorb x).finish s (.suspended k))
  | factor {tape s k a x step draws out} (fine : tolerable x = true)
      (running : stops limit (tape.factors + 1) = false) (goes : P.next k s .absent = .ok step)
      (records : Records laws P drawable limit old (tape.absorb x) step draws out) :
      Records laws P drawable limit old tape (.factor s k a x) draws out
  | kept {tape s k a d v lp step draws out} (hashable : a.isHashable = true)
      (carries : carried laws old tape.reused a d = .ok (some v))
      (weighs : laws.logDensity d v = .ok lp) (possible : Score.isImpossible lp = false)
      (goes : P.next k s v = .ok step)
      (records : Records laws P drawable limit old ((tape.keep a).record s k a d v lp) step draws out) :
      Records laws P drawable limit old tape (.sample s k a d) draws out
  | drawn {tape s k a d v lp step draws out} (hashable : a.isHashable = true)
      (fresh : carried laws old tape.reused a d = .ok none) (drawn : drawable d v)
      (weighs : laws.logDensity d v = .ok lp) (possible : Score.isImpossible lp = false)
      (goes : P.next k s v = .ok step)
      (records : Records laws P drawable limit old ((tape.draw lp).record s k a d v lp) step draws out) :
      Records laws P drawable limit old tape (.sample s k a d) (v :: draws) out

def onFactor (limit : Option Nat) (tape : Recording κ D R) (s : Store) (k : κ) (x : R) :
    Reaction (Recording κ D R) (Option (Recorded κ D R)) :=
  if tolerable x then
    if stops limit (tape.factors + 1) then .finish (some ((tape.absorb x).finish s (.suspended k)))
    else .deliver (tape.absorb x) .absent
  else .finish none

theorem onFactor_stopped {limit : Option Nat} {tape : Recording κ D R} (s : Store) (k : κ) {x : R}
    (fine : tolerable x = true) (stop : stops limit (tape.factors + 1) = true) :
    onFactor limit tape s k x = .finish (some ((tape.absorb x).finish s (.suspended k))) := by
  rw [onFactor, if_pos fine, if_pos stop]

theorem onFactor_absorbed {limit : Option Nat} {tape : Recording κ D R} (s : Store) (k : κ) {x : R}
    (fine : tolerable x = true) (running : stops limit (tape.factors + 1) = false) :
    onFactor limit tape s k x = .deliver (tape.absorb x) .absent := by
  rw [onFactor, if_pos fine, running]
  rfl

theorem handler_factor {m : Type → Type} [Monad m] [Host m D R] (limit : Option Nat)
    (old : Option (Trace κ D R)) (tape : Recording κ D R) (s : Store) (k : κ) (a : Address) (x : R) :
    (handler limit old : Handler m κ D R _ _).factor tape s k a x =
      pure (onFactor limit tape s k x) := by
  simp only [handler, onFactor]
  cases fine : tolerable x with
  | false =>
    have bad : (Score.isImpossible x || Score.isNaN x) = true := (Bool.not_eq_false' _).mp fine
    simp only [bad, if_true, Bool.false_eq_true, if_false]
  | true =>
    have good : (Score.isImpossible x || Score.isNaN x) = false := by simpa [tolerable] using fine
    cases limit with
    | none => simp [good, stops, Recording.absorb]
    | some n =>
      by_cases reached : n ≤ tape.factors + 1
      · simp [good, stops, Recording.absorb, reached]
      · simp [good, stops, Recording.absorb, reached]

end

variable {σ κ D R : Type} [Host (EStateM Failure σ) D R] [LawfulHost σ D R] [Score R]

theorem carriedOver?_eq (old : Option (Trace κ D R)) (tape : Recording κ D R) (a : Address) (d : D) :
    (carriedOver? old tape a d : EStateM Failure σ _) =
      Host.lift (carried (LawfulHost.densities σ) old tape.reused a d) := by
  unfold carriedOver? carried
  cases old.bind (·.choiceAt? a) with
  | none => rfl
  | some c =>
    simp only [accepts_eq]
    split
    · rfl
    · rw [lift_bind]
      rfl

/-- What the kernel does with the outcome of a choice, given the tape for its density. -/
def weigh (laws : Densities D R) (tape : R → Recording κ D R) (s : Store) (k : κ) (a : Address)
    (d : D) (v : Value) : Except Failure (Reaction (Recording κ D R) (Option (Recorded κ D R))) := do
  let lp ← laws.logDensity d v
  if Score.isImpossible lp then return .finish none
  else return .deliver ((tape lp).record s k a d v lp) v

theorem handler_sample (limit : Option Nat) (old : Option (Trace κ D R)) (tape : Recording κ D R)
    (s : Store) (k : κ) {a : Address} (d : D) (hashable : a.isHashable = true) :
    (handler limit old : Handler (EStateM Failure σ) κ D R _ _).sample tape s k a d = (do
      match ← Host.lift (carried (LawfulHost.densities σ) old tape.reused a d) with
      | some v => Host.lift (weigh (LawfulHost.densities σ) (fun _ => tape.keep a) s k a d v)
      | none => do
        let v ← Host.draw d
        Host.lift (weigh (LawfulHost.densities σ) tape.draw s k a d v)) := by
  have weighs (f : R → Recording κ D R) (v : Value) :
      (do
        let lp ← Host.logDensity d v
        if Score.isImpossible lp then return .finish none
        else return .deliver ((f lp).record s k a d v lp) v : EStateM Failure σ _) =
      Host.lift (weigh (LawfulHost.densities σ) f s k a d v) := by
    rw [LawfulHost.logDensity_eq, weigh, lift_bind]
    congr
    funext lp
    split <;> rfl
  have plain : ¬ (!a.isHashable) = true := by simpa using hashable
  simp only [handler, carriedOver?_eq, if_neg plain, ← weighs]
  rfl

theorem weigh_of_density {laws : Densities D R} {tape : R → Recording κ D R} {s : Store} {k : κ}
    {a : Address} {d : D} {v : Value} {lp : R} (weighs : laws.logDensity d v = .ok lp) :
    weigh laws tape s k a d v = .ok (if Score.isImpossible lp then .finish none
      else .deliver ((tape lp).record s k a d v lp) v) := by
  rw [weigh, weighs]
  exact (apply_ite Except.ok ..).symm

theorem weigh_eq_ok {laws : Densities D R} {tape : R → Recording κ D R} {s : Store} {k : κ}
    {a : Address} {d : D} {v : Value} {reaction : Reaction (Recording κ D R) (Option (Recorded κ D R))}
    (weighs : weigh laws tape s k a d v = .ok reaction) :
    ∃ lp, laws.logDensity d v = .ok lp ∧
      reaction = if Score.isImpossible lp then .finish none
        else .deliver ((tape lp).record s k a d v lp) v := by
  cases known : laws.logDensity d v with
  | error e =>
    rw [weigh, known] at weighs
    cases weighs
  | ok lp =>
    rw [weigh_of_density known] at weighs
    exact ⟨lp, rfl, (Except.ok.inj weighs).symm⟩

/-- The kernel draws a value where no old one is carried over, and goes on with it if it is possible. -/
theorem samples_drawn {limit : Option Nat} {old : Option (Trace κ D R)} {tape : Recording κ D R}
    {s : Store} {k : κ} {a : Address} {d : D} {v : Value} {lp : R} {w w' : σ} (hashable : a.isHashable = true)
    (fresh : carried (LawfulHost.densities σ) old tape.reused a d = .ok none)
    (drew : (Host.draw d : EStateM Failure σ Value) w = .ok v w')
    (weighs : (LawfulHost.densities σ).logDensity d v = .ok lp) :
    (handler limit old : Handler (EStateM Failure σ) κ D R _ _).sample tape s k a d w =
      .ok (if Score.isImpossible lp then .finish none
        else .deliver ((tape.draw lp).record s k a d v lp) v) w' := by
  rw [handler_sample limit old tape s k d hashable]
  refine bind_eq_ok.mpr ⟨none, w, lift_eq_ok.mpr ⟨fresh, rfl⟩, ?_⟩
  exact bind_eq_ok.mpr ⟨v, w', drew, lift_eq_ok.mpr ⟨weigh_of_density weighs, rfl⟩⟩

/-- The kernel keeps an old value that is carried over, and goes on with it if it is possible. -/
theorem samples_kept {limit : Option Nat} {old : Option (Trace κ D R)} {tape : Recording κ D R}
    {s : Store} {k : κ} {a : Address} {d : D} {v : Value} {lp : R} {w : σ} (hashable : a.isHashable = true)
    (carries : carried (LawfulHost.densities σ) old tape.reused a d = .ok (some v))
    (weighs : (LawfulHost.densities σ).logDensity d v = .ok lp) :
    (handler limit old : Handler (EStateM Failure σ) κ D R _ _).sample tape s k a d w =
      .ok (if Score.isImpossible lp then .finish none
        else .deliver ((tape.keep a).record s k a d v lp) v) w := by
  rw [handler_sample limit old tape s k d hashable]
  refine bind_eq_ok.mpr ⟨some v, w, lift_eq_ok.mpr ⟨carries, rfl⟩, ?_⟩
  exact lift_eq_ok.mpr ⟨weigh_of_density weighs, rfl⟩

omit [LawfulHost σ D R] in
/-- At a factor the execution is abandoned, is suspended, or goes on with the factor absorbed. -/
theorem drive_factor_eq_ok {resume : Resume (EStateM Failure σ) κ D R} {limit : Option Nat}
    {old : Option (Trace κ D R)} {fuel : Nat} {tape : Recording κ D R} {s : Store} {k : κ} {a : Address}
    {x : R} {outcome : Option (Recorded κ D R)} {w w' : σ}
    (returned : drive resume (handler limit old) (fuel + 1) tape (.factor s k a x) w = .ok outcome w') :
    (tolerable x = false ∧ outcome = none ∧ w = w') ∨
      (tolerable x = true ∧ stops limit (tape.factors + 1) = true ∧
        outcome = some ((tape.absorb x).finish s (.suspended k)) ∧ w = w') ∨
      (tolerable x = true ∧ stops limit (tape.factors + 1) = false ∧
        ∃ next middle, resume k s .absent w = .ok next middle ∧
          drive resume (handler limit old) fuel (tape.absorb x) next middle = .ok outcome w') := by
  obtain ⟨reaction, middle, reacted, rest⟩ := bind_eq_ok.mp returned
  rw [handler_factor] at reacted
  obtain ⟨rfl, rfl⟩ := pure_eq_ok.mp reacted
  cases fine : tolerable x with
  | false =>
    rw [onFactor, fine] at rest
    obtain ⟨rfl, rfl⟩ := pure_eq_ok.mp rest
    exact .inl ⟨rfl, rfl, rfl⟩
  | true =>
    cases stop : stops limit (tape.factors + 1) with
    | true =>
      rw [onFactor_stopped s k fine stop] at rest
      obtain ⟨rfl, rfl⟩ := pure_eq_ok.mp rest
      exact .inr (.inl ⟨rfl, rfl, rfl, rfl⟩)
    | false =>
      rw [onFactor_absorbed s k fine stop] at rest
      exact .inr (.inr ⟨rfl, rfl, bind_eq_ok.mp rest⟩)

end ProbCore.Kernel
