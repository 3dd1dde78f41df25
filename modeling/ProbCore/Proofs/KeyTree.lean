import ProbCore.Proofs.StackDiscipline

/-! The keys of one inference, seen as positions in the tree of splits below the key that it was
given. Every draw consumes a position of its own, and no position that was consumed stands below
another one, or below one that a strategy still holds. -/

namespace ProbCore

namespace Watch

open Machine

variable (cx : Context)

/-- An inference from outside, which holds the root of the tree. -/
def infer (f method : Value) (key : Random.Key) (options : Options) (a : Address) (s : Store) :
    Watch (Marginal Value Float) := do
  if options.any fun (name, _) => Session.settings.contains name then throw .illTyped
  let i ← quiet (prepare a f method (some key) options none)
  estimate cx Session.fuel i s

end Watch

namespace Machine

variable (a : Address) (function method : Value) (options : Options) (picks : Option (List Value))
  (key : Random.Key)

/-- An inference with a key of its own leaves the strategies alone. -/
theorem prepare_strategies (w : World) :
    (ended (prepare a function method (some key) options picks w)).strategies = w.strategies := by
  rw [prepare_eq]
  have spares : Run.Spares id (do
      let method ← Run.lift (selected function method options)
      ready a function method options picks (some key)) :=
    (Run.Spares.lift _).bind fun _ => ready_spares _ _ _ _ _ _
  have spared := (spares w).strategies
  rw [List.modifyHead_id] at spared
  exact spared

theorem prepare_key {i : Inference} {w w' : World}
    (prepared : prepare a function method (some key) options picks w = .ok i w') :
    i.active.key = some key := by
  rw [prepare_eq] at prepared
  obtain ⟨method, middle, _, prepared⟩ := bind_eq_ok.mp prepared
  have kept : keyFor (some key) middle = .ok (some key) middle := rfl
  rw [bind_of_ok kept] at prepared
  exact congrArg Active.key (ready_eq_ok prepared).1

end Machine

/-- A watched inference begins with the root of the tree in one hand, and with the strategies as
they are. -/
theorem Watch.infer_agree (cx : Machine.Context) (f method : Value) (key : Random.Key)
    (options : Options) (a : Address) (s : Store) (w : World) :
    (beside key w.strategies).Agree ([], w.strategies.map Active.identity) id
      (Watch.infer cx f method key options a s (.start w))
      (Session.infer cx f method (some key) options a s w) := by
  have started {w' : World} (same : w'.strategies = w.strategies) :
      { Watched.start w with world := w' } = .start w' := by
    rw [Watched.start, Watched.start, same]
  have in_order {w' : World} (same : w'.strategies = w.strategies) :
      (beside key w.strategies).holds ([], w.strategies.map Active.identity)
        { Watched.start w with world := w' } w' := by
    rw [started same, ← same]
    exact ⟨rfl, sound_start key w', rfl⟩
  unfold Watch.infer
  rw [Session.infer_eq]
  by_cases refused : (options.any fun (name, _) => Session.settings.contains name) = true
  · rw [if_pos refused, if_pos refused]
    exact ⟨.same _, in_order rfl⟩
  rw [if_neg refused, if_neg refused]
  have same := Machine.prepare_strategies a f method options none key w
  cases ran : Machine.prepare a f method (some key) options none w with
  | error e w' =>
    rw [ran] at same
    have watched := Watch.quiet_of_error (x := .start w) ran
    change (beside key w.strategies).Agree _ _ ((Watch.quiet _ >>= _ : Watch _) _)
      ((_ >>= _ : Run _) w)
    rw [bind_of_error watched, bind_of_error ran]
    exact ⟨.same e, in_order same⟩
  | ok i w' =>
    replace same : w'.strategies = w.strategies := by rwa [ran] at same
    have watched := Watch.quiet_of_ok (x := .start w) ran
    have agreed := Machine.estimate_agree cx Session.fuel i s key
      (fun held given => by
        rw [Machine.prepare_key _ _ _ _ _ _ ran] at given
        exact (Option.some.inj given).symm) w'
    change (beside key w.strategies).Agree _ _ ((Watch.quiet _ >>= _ : Watch _) _)
      ((_ >>= _ : Run _) w)
    rw [bind_of_ok watched, bind_of_ok ran, started same, ← same]
    exact agreed

/-- No random key is used twice. Under watch an inference does what it does, and at every moment
the positions that its draws have consumed, those of nested inferences included, and the positions
that strategies hold keys at lie apart. Unless the program passes keys itself, each draw has such
a position, and consumes the key that the tree of the given key has there. -/
theorem keys_apart (cx : Machine.Context) (f method : Value) (key : Random.Key)
    (options : Options) (a : Address) (s : Store) (w : World) :
    let seen := Watch.infer cx f method key options a s (.start w)
    unwatched seen = Session.infer cx f method (some key) options a s w ∧
      (∀ l ∈ (ended seen).ledgers, l.Disjoint) ∧
      ((ended seen).brought = [] → ∀ d ∈ (ended seen).ledger.spent,
        ∃ p, d.position = some p ∧ d.key = key.node p) := by
  have agreed := Watch.infer_agree cx f method key options a s w
  obtain ⟨sound, _⟩ := sound_of_agree agreed
  refine ⟨unwatched_eq_of_agree agreed, sound.disjoint, fun none_brought d drawn => ?_⟩
  have linked := sound.spent d drawn
  cases position : d.position with
  | none =>
    rw [position] at linked
    cases linked none_brought
  | some p =>
    rw [position] at linked
    exact ⟨p, rfl, Option.some.inj linked⟩

/-- Two functions: one asks for a sample of the other, which always fails. -/
def askThenFail : Machine.Context :=
  ⟨⟨[("ask", ⟨[], .infer none (.function "fail") (.literal (.text "rejection")) []⟩),
    ("fail", ⟨[], .raise "done"⟩)]⟩, []⟩

/-- Each of two nested samplers consumes a threshold. The outer one has split its key once before
it splits off the key of the inner one. -/
example :
    let seen := ended (Watch.infer askThenFail (.function "ask") (.text "rejection") (.ofSeed 0) []
      .root .empty (.start .start))
    seen.brought.isEmpty = true ∧
      seen.ledger.spent.map (·.position) = [some [true, true, false], some [true]] := by
  decide +kernel

end ProbCore
