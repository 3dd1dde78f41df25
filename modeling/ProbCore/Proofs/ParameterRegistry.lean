import ProbCore.Proofs.MinibatchRecord

/-! The registry of parameters. In every process, whatever runs and strategies it consists of, the
registry holds at an address the value that was delivered first there. All later requests at that
address deliver it, whatever they ask for. Only a request at an address that is not registered makes
a value, which may take a key from the strategy in charge and may fail. -/

namespace ProbCore

open Machine

namespace Moved

/-- The request for a parameter that a move makes, if its arguments can be read. -/
def asked? (m : Moved) : Option ParamCall :=
  match m.control with
  | .eval (.param t start mean sd seed) vars a s _ =>
    (ParamCall.read ⟨m.context.program, m.context.globals, vars, s, a⟩ t start mean sd seed).toOption
  | _ => none

/-- The parameter that a move delivers, if it asks for one at this address, as the strategy in
charge sees it. -/
def delivered? (r : Address) (m : Moved) : Option Value :=
  match m.asked?, m.outcome with
  | some c, .ok (.go (.give _ _ v)) _ => if m.before.seen c.place == r then some v else none
  | _, _ => none

/-- What comes of a request for a parameter. -/
inductive Answered (m : Moved) (c : ParamCall) : Prop where
  | refused : (m.before.seen c.place).isHashable = false → (∀ r, m.delivered? r = none) →
      m.after = m.before → Answered m c
  | known {v : Value} : (m.before.seen c.place).isHashable = true →
      m.before.params.get? (m.before.seen c.place) = some v →
      (∀ r, m.delivered? r = if m.before.seen c.place == r then some v else none) →
      m.after = m.before → Answered m c
  | failed {e : Failure} {w : World} : (m.before.seen c.place).isHashable = true →
      m.before.params.get? (m.before.seen c.place) = none →
      makeParam c.start c.mean c.sd c.key m.before = .error e w →
      (∀ r, m.delivered? r = none) → m.after.params = m.before.params → Answered m c
  | made {v : Value} {w : World} : (m.before.seen c.place).isHashable = true →
      m.before.params.get? (m.before.seen c.place) = none →
      makeParam c.start c.mean c.sd c.key m.before = .ok v w →
      (∀ r, m.delivered? r = if m.before.seen c.place == r then some v else none) →
      m.after.params = m.before.params.insert (m.before.seen c.place) v → Answered m c

variable {m : Moved} {c : ParamCall}

/-- Only moves that may register a parameter ask for one, once their arguments are read. -/
theorem asking (m : Moved) : m.control.registers = false ∧ m.asked? = none ∨
    ∃ (read : Except Failure ParamCall) (s : Store) (k : Rest), m.asked? = read.toOption ∧
      m.outcome = (do
        let c ← Run.lift read
        return .go (.give k s (← param c.place c.start c.mean c.sd c.key)) : Run Move) m.before := by
  obtain ⟨cx, control, w⟩ := m
  cases control with
  | eval comp vars a s k =>
    cases comp with
    | param t start mean sd seed =>
      exact .inr ⟨_, s, k, rfl, congrFun (advance_param cx t start mean sd seed vars a s k) w⟩
    | _ => exact .inl ⟨rfl, rfl⟩
  | call => exact .inl ⟨rfl, rfl⟩
  | give => exact .inl ⟨rfl, rfl⟩

theorem outcome_of_asked (asked : m.asked? = some c) : ∃ s k,
    m.outcome = (do
      return .go (.give k s (← param c.place c.start c.mean c.sd c.key)) : Run Move) m.before := by
  obtain ⟨_, unasked⟩ | ⟨read, s, k, same, outcome⟩ := m.asking
  · rw [unasked] at asked
    cases asked
  · rw [asked] at same
    cases read with
    | error e => cases same
    | ok c' =>
      obtain rfl := Option.some.inj same
      exact ⟨s, k, outcome⟩

theorem answered (asked : m.asked? = some c) : m.Answered c := by
  obtain ⟨s, k, outcome⟩ := outcome_of_asked asked
  have done := param_done c m.before
  cases ran : param c.place c.start c.mean c.sd c.key m.before with
  | error e w =>
    rw [bind_of_error ran] at outcome
    rw [ran] at done
    have undelivered (r : Address) : m.delivered? r = none := by rw [delivered?, asked, outcome]
    have after : m.after = w := by rw [Moved.after, outcome]; rfl
    cases done with
    | refused unhashable => exact .refused unhashable undelivered after
    | failed hashable absent made kept =>
      exact .failed hashable absent made undelivered (after ▸ congrArg Records.params kept)
  | ok v w =>
    rw [bind_of_ok ran] at outcome
    rw [ran] at done
    have delivered (r : Address) :
        m.delivered? r = if m.before.seen c.place == r then some v else none := by
      rw [delivered?, asked, outcome]
      rfl
    have after : m.after = w := by rw [Moved.after, outcome]; rfl
    cases done with
    | known hashable found => exact .known hashable found delivered after
    | made hashable absent made kept =>
      exact .made hashable absent made delivered (after ▸ congrArg Records.params kept)

theorem params_of_unasked (unasked : m.asked? = none) : m.after.params = m.before.params := by
  cases mapped : m.control.maps with
  | true =>
    obtain ⟨cx, control, w⟩ := m
    cases control with
    | eval comp vars a s k =>
      cases comp with
      | map t data f batch =>
        obtain ⟨_, rel, asked⟩ := map_done cx t data f batch vars a s k w
        exact asked.params
      | _ => cases mapped
    | call => cases mapped
    | give => cases mapped
  | false =>
    obtain ⟨unregistered, _⟩ | ⟨read, s, k, same, outcome⟩ := m.asking
    · exact congrArg Records.params (advance_leaves mapped unregistered m.before)
    · rw [unasked] at same
      cases read with
      | error e =>
        rw [Moved.after, outcome]
        rfl
      | ok c => cases same

theorem params_of_failed {e : Failure} {w : World} (failed : m.outcome = .error e w) :
    w.params = m.before.params := by
  have after : m.after = w := by rw [Moved.after, failed]; rfl
  cases asked : m.asked? with
  | none => exact after ▸ params_of_unasked asked
  | some c =>
    obtain ⟨s, k, outcome⟩ := outcome_of_asked asked
    have done := param_done c m.before
    cases ran : param c.place c.start c.mean c.sd c.key m.before with
    | ok v w' =>
      rw [bind_of_ok ran, failed] at outcome
      cases outcome
    | error e' w' =>
      rw [bind_of_error ran, failed] at outcome
      obtain ⟨rfl, rfl⟩ := EStateM.Result.error.inj outcome
      rw [ran] at done
      cases done with
      | refused => rfl
      | failed _ _ _ kept => exact congrArg Records.params kept

theorem undelivered_of_unasked (unasked : m.asked? = none) (r : Address) : m.delivered? r = none := by
  rw [delivered?, unasked]

/-- A request takes a key from the strategy in charge to draw a value that is not registered yet. -/
theorem strategies_of_asked (asked : m.asked? = some c) :
    m.after.strategies =
      if (m.before.seen c.place).isHashable && (m.before.params.get? (m.before.seen c.place)).isNone
        && (drawsStart c.start c.sd && c.key.isNone) then parted none m.before.strategies
      else m.before.strategies := by
  obtain ⟨s, k, outcome⟩ := outcome_of_asked asked
  have after : m.after = ended (param c.place c.start c.mean c.sd c.key m.before) := by
    rw [Moved.after, outcome]
    cases ran : param c.place c.start c.mean c.sd c.key m.before with
    | ok v w => rw [bind_of_ok ran]; rfl
    | error e w => rw [bind_of_error ran]; rfl
  have done := param_done c m.before
  rw [after]
  generalize param c.place c.start c.mean c.sd c.key m.before = result at done
  cases done with
  | refused unhashable =>
    rw [unhashable, Bool.false_and, Bool.false_and, if_neg Bool.false_ne_true]
    rfl
  | known _ found =>
    rw [found, Option.isNone_some, Bool.and_false, Bool.false_and, if_neg Bool.false_ne_true]
    rfl
  | failed hashable absent _ _ strategies =>
    rw [hashable, absent, Option.isNone_none, Bool.true_and, Bool.true_and]
    exact strategies
  | made hashable absent _ _ strategies =>
    rw [hashable, absent, Option.isNone_none, Bool.true_and, Bool.true_and]
    exact strategies

end Moved

/-- The value that was delivered first at an address, by moves with the latest first. -/
def earliest (r : Address) (moves : List Moved) : Option Value :=
  moves.reverse.findSome? (·.delivered? r)

theorem earliest_append (r : Address) (later earlier : List Moved) :
    earliest r (later ++ earlier) = (earliest r earlier).or (earliest r later) := by
  rw [earliest, List.reverse_append, List.findSome?_append]
  rfl

theorem earliest_singleton (r : Address) (m : Moved) : earliest r [m] = m.delivered? r :=
  List.findSome?_singleton

theorem earliest_cons (r : Address) (m : Moved) (earlier : List Moved) :
    earliest r (m :: earlier) = (earliest r earlier).or (m.delivered? r) := by
  rw [← List.singleton_append, earliest_append r [m], earliest_singleton]

section

variable {since : Records} {m : Moved} {moves : List Moved} {records : Records}

/-- The registry holds, at every address, what was delivered first there. -/
structure Registers (moves : List Moved) (records : Records) : Prop where
  hashable : ∀ r ∈ records.params.keys, r.isHashable = true
  first : ∀ r, r.isHashable = true → records.params.get? r = earliest r moves
  grown : ∀ m ∈ moves, m.before.params.entries <+: m.after.params.entries ∧
    m.after.params.entries <+: records.params.entries

/-- What is delivered at a place is delivered at all addresses of it, where the registry agrees. -/
theorem Registers.placed {place r : Address} {v v' : Value} (registers : Registers moves records)
    (proper : place.isHashable = true) (hashable : r.isHashable = true)
    (delivered : (if place == r then some v else none) = some v') :
    v = v' ∧ records.params.get? r = records.params.get? place := by
  split at delivered
  next same =>
    exact ⟨Option.some.inj delivered, Address.get?_congr registers.hashable proper hashable same⟩
  next => cases delivered

/-- A move that registers nothing, and at most delivers what is registered, keeps it so. -/
theorem Registers.unmade (registers : Registers moves m.before.records)
    (kept : m.after.records.params = m.before.records.params)
    (known : ∀ r v, r.isHashable = true → m.delivered? r = some v →
      m.before.records.params.get? r = some v) :
    Registers (m :: moves) m.after.records := by
  refine ⟨fun r member => registers.hashable r (kept ▸ member), fun r hashable => ?_, ?_⟩
  · rw [earliest_cons, ← registers.first r hashable, kept]
    cases delivered : m.delivered? r with
    | none => rw [Option.or_none]
    | some v =>
      rw [known r v hashable delivered]
      rfl
  · refine List.forall_mem_cons.mpr ⟨⟨?_, List.prefix_rfl⟩, fun m' member => ?_⟩
    · rw [show m.after.params = m.before.params from kept]
    · rw [kept]
      exact registers.grown m' member

/-- A move that registers a parameter at a place that had none, and delivers it, keeps the registry to
what was delivered first. -/
theorem Registers.made (registers : Registers moves m.before.records) {place : Address} {v : Value}
    (proper : place.isHashable = true) (absent : m.before.records.params.get? place = none)
    (delivered : ∀ r, m.delivered? r = if place == r then some v else none)
    (written : m.after.records.params = m.before.records.params.insert place v) :
    Registers (m :: moves) m.after.records := by
  have last : m.before.params.entries <+: m.after.params.entries := by
    rw [show m.after.params = _ from written, Table.insert_of_get?_none absent]
    exact List.prefix_append _ _
  constructor
  case hashable =>
    intro r member
    rw [written] at member
    obtain older | rfl := Table.mem_keys_insert member
    · exact registers.hashable r older
    · exact proper
  case first =>
    intro r hashable
    rw [earliest_cons, delivered, written, Address.get?_insert registers.hashable proper hashable,
      ← registers.first r hashable]
    split
    next same => rw [Address.get?_congr registers.hashable proper hashable same, absent, Option.none_or]
    next => rw [Option.or_none]
  case grown =>
    exact List.forall_mem_cons.mpr ⟨⟨last, List.prefix_rfl⟩, fun m' member =>
      ⟨(registers.grown m' member).1, (registers.grown m' member).2.trans last⟩⟩

theorem Registers.move (registers : Registers moves m.before.records) :
    Registers (m :: moves) m.after.records := by
  cases asked : m.asked? with
  | none =>
    refine registers.unmade (m.params_of_unasked asked) fun r v _ delivered => ?_
    rw [m.undelivered_of_unasked asked] at delivered
    cases delivered
  | some c =>
    cases Moved.answered asked with
    | refused _ undelivered after =>
      refine registers.unmade (congrArg World.params after) fun r v _ delivered => ?_
      rw [undelivered] at delivered
      cases delivered
    | failed _ _ _ undelivered kept =>
      refine registers.unmade kept fun r v _ delivered => ?_
      rw [undelivered] at delivered
      cases delivered
    | @known v proper found known after =>
      refine registers.unmade (congrArg World.params after) fun r v' hashable delivered => ?_
      obtain ⟨rfl, same⟩ := registers.placed proper hashable ((known r).symm.trans delivered)
      exact same.trans found
    | made proper absent _ delivered written => exact registers.made proper absent delivered written

/-- What is delivered was registered already, or the request made it. -/
theorem Registers.delivers {r : Address} {v : Value} (registers : Registers moves m.before.records)
    (hashable : r.isHashable = true) (delivered : m.delivered? r = some v) :
    earliest r moves = some v ∨ earliest r moves = none ∧
      ∀ c, m.asked? = some c → ∃ w, makeParam c.start c.mean c.sd c.key m.before = .ok v w := by
  rw [← registers.first r hashable]
  cases asked : m.asked? with
  | none =>
    rw [m.undelivered_of_unasked asked] at delivered
    cases delivered
  | some c =>
    cases Moved.answered asked with
    | refused _ undelivered => rw [undelivered] at delivered; cases delivered
    | failed _ _ _ undelivered => rw [undelivered] at delivered; cases delivered
    | known proper found known =>
      obtain ⟨rfl, same⟩ := registers.placed proper hashable ((known r).symm.trans delivered)
      exact .inl (same.trans found)
    | made proper absent made delivers =>
      obtain ⟨rfl, same⟩ := registers.placed proper hashable ((delivers r).symm.trans delivered)
      refine .inr ⟨same.trans absent, fun c' asks => ?_⟩
      obtain rfl := Option.some.inj asks
      exact ⟨_, made⟩

theorem Registers.delivers_first {r : Address} {v : Value}
    (registers : Registers moves m.before.records) (hashable : r.isHashable = true)
    (delivered : m.delivered? r = some v) (later : List Moved) :
    earliest r (later ++ m :: moves) = some v := by
  rw [earliest_append, earliest_cons]
  obtain known | ⟨absent, _⟩ := registers.delivers hashable delivered
  · rw [known]
    rfl
  · rw [absent, delivered]
    rfl

/-- Whatever moves a process makes, they leave the registry so. -/
theorem Succession.registers (succession : Succession since moves records)
    (cleared : since.params = ∅) : Registers moves records := by
  induction succession with
  | start =>
    refine ⟨?_, ?_, fun _ member => absurd member List.not_mem_nil⟩
    · rw [cleared]
      exact fun _ member => absurd member List.not_mem_nil
    · rw [cleared]
      exact fun _ _ => rfl
  | move m _ ih => exact ih.move

end

/-- The same world with no parameters registered. -/
def World.withoutParams (w : World) : World := { w with params := ∅ }

/-- How a process registers parameters, with its moves latest first. -/
structure Registered (moves : List Moved) (records : Records) : Prop where
  /-- The registry holds at an address what was delivered first there. -/
  first (r : Address) : r.isHashable = true → records.params.get? r = earliest r moves
  /-- It is so before each move. -/
  before (later : List Moved) (m : Moved) (earlier : List Moved) : moves = later ++ m :: earlier →
    ∀ r, r.isHashable = true → m.before.params.get? r = earliest r earlier
  /-- All requests that succeed at an address deliver the same. -/
  same (m : Moved) (r : Address) (v : Value) : m ∈ moves → r.isHashable = true →
    m.delivered? r = some v → earliest r moves = some v
  /-- The first of them makes it. -/
  made (later : List Moved) (m : Moved) (earlier : List Moved) (c : ParamCall) (r : Address)
    (v : Value) : moves = later ++ m :: earlier → m.asked? = some c → r.isHashable = true →
    m.delivered? r = some v → earliest r earlier = none →
    ∃ w, makeParam c.start c.mean c.sd c.key m.before = .ok v w
  /-- A move that delivers nothing at an address changes nothing there. -/
  others (m : Moved) (r : Address) : m ∈ moves → r.isHashable = true → m.delivered? r = none →
    m.after.params.get? r = m.before.params.get? r
  /-- What is registered stays registered. -/
  grown (m : Moved) : m ∈ moves → m.before.params.entries <+: m.after.params.entries ∧
    m.after.params.entries <+: records.params.entries
  /-- A move that fails leaves the registry as it is. -/
  failed (m : Moved) (e : Failure) (w : World) : m ∈ moves → m.outcome = .error e w →
    w.params = m.before.params
  /-- A request takes one key of the strategy in charge if it is the first at its address, the value
  is to be drawn and no key is given. No other request takes any. -/
  parted (later : List Moved) (m : Moved) (earlier : List Moved) (c : ParamCall) :
    moves = later ++ m :: earlier → m.asked? = some c →
    m.after.strategies =
      if (m.before.seen c.place).isHashable && (earliest (m.before.seen c.place) earlier).isNone
        && (drawsStart c.start c.sd && c.key.isNone) then parted none m.before.strategies
      else m.before.strategies

/-- In every process that begins with no parameters, all requests at an address deliver the value
that the first of them made. -/
theorem parameters_registered (w : World) (errands : List Errand) :
    let x := Chronicle.process (.start w.withoutParams) errands
    x.world = w.withoutParams.process errands ∧ Registered x.moves x.world.records := by
  intro x
  obtain ⟨same, succession⟩ := process_chronicled w.withoutParams errands
  refine ⟨same, ?_⟩
  have before (later : List Moved) (m : Moved) (earlier : List Moved)
      (split : x.moves = later ++ m :: earlier) : Registers earlier m.before.records :=
    (succession.split split).registers rfl
  exact {
    first := (succession.registers rfl).first
    before := fun later m earlier split => (before later m earlier split).first
    same := by
      intro m r v member hashable delivered
      obtain ⟨later, earlier, split⟩ := List.append_of_mem member
      rw [split]
      exact (before later m earlier split).delivers_first hashable delivered later
    made := by
      intro later m earlier c r v split asked hashable delivered absent
      obtain known | ⟨_, made⟩ := (before later m earlier split).delivers hashable delivered
      · rw [absent] at known
        cases known
      · exact made c asked
    others := by
      intro m r member hashable undelivered
      obtain ⟨later, earlier, split⟩ := List.append_of_mem member
      have registers := before later m earlier split
      refine (registers.move.first r hashable).trans ?_
      rw [earliest_cons, undelivered, Option.or_none]
      exact (registers.first r hashable).symm
    grown := (succession.registers rfl).grown
    failed := fun _ _ _ _ failed => Moved.params_of_failed failed
    parted := by
      intro later m earlier c split asked
      rw [Moved.strategies_of_asked asked]
      cases hashable : (m.before.seen c.place).isHashable with
      | false => rfl
      | true => rw [← (before later m earlier split).first _ hashable]; rfl }

end ProbCore
