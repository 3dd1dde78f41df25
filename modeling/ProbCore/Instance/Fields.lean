import ProbCore.Strategy.Method

/-! An instance of a strategy. It keeps fields, which its program's choices and factors change while it is in
charge, and which stay as they are from one call to the next, whether that call returned or failed. -/

namespace ProbCore.Instance

/-- What an instance keeps. Of all strategies that record executions: the recording, up to how many factors it
goes, the trace whose values are carried over, and the last trace made. Of an enumeration its search, of rejection
sampling the score and the threshold of the attempt and the values accepted, latest first, of a filter its last
report, and of a cascade the arrivals counted. -/
structure Fields (κ D R : Type) where
  tape : Kernel.Recording κ D R
  limit : Option Nat
  old : Option (Trace κ D R)
  result : Option (Trace κ D R)
  search : Enumeration.Search κ R
  score : R
  threshold : R
  accepted : List Value
  report : Option (Filter.Report R)
  arrivals : Cascade.Arrivals R

/-- The fields of a new instance. -/
def Fields.new {κ D R : Type} [Score R] : Fields κ D R where
  tape := ⟨[], Score.zero, Score.zero, 0, [], Score.zero⟩
  limit := none
  old := none
  result := none
  search := ⟨.empty .depthFirst, Score.zero, [], 0⟩
  score := Score.zero
  threshold := Score.zero
  accepted := []
  report := none
  arrivals := []

/-- What a method of an instance does, to its fields and to what is outside of it. -/
abbrev Act (σ κ D R : Type) := EStateM Failure (Fields κ D R × σ)

namespace Act

variable {σ κ D R α : Type}

/-- Something done outside. -/
def host (x : EStateM Failure σ α) : Act σ κ D R α := fun (f, w) =>
  match x w with
  | .ok a w' => .ok a (f, w')
  | .error e w' => .error e (f, w')

def fields : Act σ κ D R (Fields κ D R) := fun (f, w) => .ok f (f, w)

def update (g : Fields κ D R → Fields κ D R) : Act σ κ D R Unit := fun (f, w) => .ok () (g f, w)

def updateTape (g : Kernel.Recording κ D R → Kernel.Recording κ D R) : Act σ κ D R Unit :=
  update fun f => { f with tape := g f.tape }

/-- What an instance does that is made for the purpose, and given up afterwards. -/
def onNew [Score R] (x : Act σ κ D R α) : EStateM Failure σ α := fun w =>
  match x (.new, w) with
  | .ok a (_, w') => .ok a w'
  | .error e (_, w') => .error e w'

end Act

/-- How an execution ended for the instance in charge. -/
inductive Signal where
  | done | suspended | rejected

/-- What a hook does with the rest that it is given: goes on with a value, or leaves it. -/
inductive Answer where
  | goOn (value : Value)
  | signal (signal : Signal)

/-- What an instance does when its program comes to a choice, to a factor, or to its end. -/
structure Hooks (σ κ D R : Type) where
  sample : Store → κ → Address → D → Act σ κ D R Answer
  factor : Store → κ → Address → R → Act σ κ D R Answer
  exit : Store → Value → Act σ κ D R Signal

/-- Runs an execution to its end, for at most `fuel` steps. -/
def trampoline {σ κ D R : Type} [Host (EStateM Failure σ) D R] (resume : Resume (EStateM Failure σ) κ D R)
    (hooks : Hooks σ κ D R) : Nat → Step κ D R → Act σ κ D R Signal
  | 0, _ => throw .outOfFuel
  | fuel + 1, step =>
    match step with
    | .sample s k a d => do
      match ← hooks.sample s k a d with
      | .goOn value => trampoline resume hooks fuel (← Act.host (resume k s value))
      | .signal signal => return signal
    | .factor s k a score => do
      match ← hooks.factor s k a score with
      | .goOn value => trampoline resume hooks fuel (← Act.host (resume k s value))
      | .signal signal => return signal
    | .exit s value => hooks.exit s value
    | .stray value => throw (.inference (.strayResult value))

end ProbCore.Instance
