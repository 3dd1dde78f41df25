import ProbCore.Proofs.Chronicle

/-! The record of minibatches. In every process, whatever runs and strategies it consists of, the
record at an address is what a strategy answered when the latest pass over data was entered there,
and this is what strategies are told as the previous selection. A pass visits what was answered, or
all elements if that is nothing: then the record is empty although all elements were visited. -/

namespace ProbCore

/-- A pass over data that was entered: where, relative to the strategy in charge, and over how many
elements, with the answer of the strategy and the positions that the pass goes on to visit. -/
structure Selection where
  relative : Address
  size : Nat
  chosen : List Int
  visited : List Int

/-- The pass that a move enters. A move enters one if the data are not empty and what the strategy
answers is valid. -/
def Moved.entered? (m : Moved) : Option Selection :=
  match m.control, m.outcome with
  | .eval (.map ..) .., .ok (.go (.call _ [_, .int i] _ _ (.visit pass _))) _ =>
    some ⟨pass.relative, pass.data.length, m.before.answer.indices, i :: pass.remaining⟩
  | _, _ => none

/-- The latest pass that was entered at an address. -/
def latest (r : Address) (moves : List Moved) : Option Selection :=
  moves.findSome? fun m => m.entered?.filter (·.relative == r)

/-- What is remembered of the latest pass at an address. -/
def remembered (r : Address) (moves : List Moved) : Option (List Int) :=
  (latest r moves).map (·.chosen)

namespace Machine

/-- What a move that may begin a pass comes to. It enters a pass and writes down what the strategy
answered, or it leaves the record as it is. -/
inductive MapDone (m : Moved) : Prop where
  | refused : m.entered? = none → m.after.minibatches = m.before.minibatches → MapDone m
  | entered {e : Selection} : m.entered? = some e → e.relative.isHashable = true → 0 < e.size →
      e.visited = visits e.size e.chosen →
      m.after.minibatches = m.before.minibatches.insert e.relative e.chosen → MapDone m

theorem nextVisit_inside {pass : Pass} {i : Int} {rest : List Int} {x : Value}
    (order : pass.remaining = i :: rest) (there : pass.data[i.toNat]? = some x) (s : Store)
    (k : Rest) :
    nextVisit pass s k = pure (.call pass.function [x, .int i] (pass.address.element i) s
      (.visit { pass with remaining := rest } k)) := by
  unfold nextVisit
  rw [order]
  dsimp only
  rw [there]

theorem map_done (cx : Context) (t : Option Expr) (data f : Expr) (batch : Option Expr) (vars : Vars)
    (a : Address) (s : Store) (k : Rest) (w : World) :
    let m : Moved := ⟨cx, .eval (.map t data f batch) vars a s k, w⟩
    MapDone m ∧ ∃ rel, Asked rel w m.after := by
  intro m
  have still {r : EStateM.Result Failure World Move} (ran : m.outcome = r) (same : ended r = w)
      (unentered : m.entered? = none) : MapDone m ∧ ∃ rel, Asked rel w m.after := by
    have ends : m.after = w := by rw [Moved.after, ran, same]
    refine ⟨.refused unentered (by rw [ends]), .root, ?_⟩
    rw [ends]
    exact ⟨rfl, .inl rfl⟩
  have failing {e : Failure} {w' : World} (failed : m.outcome = .error e w') : m.entered? = none := by
    rw [Moved.entered?, failed]
  have outcome : m.outcome = (do
      let c ← Run.lift (MapCall.read ⟨cx.program, cx.globals, vars, s, a⟩ t data f batch)
      return .go (← beginPass c.place c.data c.function c.batch s k) : Run Move) w :=
    congrFun (advance_map cx t data f batch vars a s k) w
  cases read : MapCall.read ⟨cx.program, cx.globals, vars, s, a⟩ t data f batch with
  | error e =>
    rw [read] at outcome
    exact still outcome rfl (failing outcome)
  | ok c =>
    rw [read, show Run.lift (.ok c) = pure c from rfl, pure_bind, beginPass_eq] at outcome
    cases sized : passSize c.data c.function c.batch with
    | error e =>
      rw [sized] at outcome
      exact still outcome rfl (failing outcome)
    | ok size =>
      rw [sized, show Run.lift (.ok size) = pure size from rfl, pure_bind] at outcome
      generalize elements : c.data.items?.getD [] = items at outcome
      by_cases empty : (items.length == 0) = true
      · rw [if_pos empty] at outcome
        refine still outcome rfl ?_
        rw [Moved.entered?, outcome]
        rfl
      · rw [if_neg empty, bind_assoc] at outcome
        have done := selectPass_done c.place items c.function size w
        cases selected : selectPass c.place items c.function size w with
        | error e w' =>
          rw [bind_of_error selected] at outcome
          rw [selected] at done
          cases done with
          | refused kept asked =>
            have ends : m.after = w' := by rw [Moved.after, outcome]; rfl
            exact ⟨.refused (failing outcome) (ends ▸ kept), _, ends ▸ asked⟩
        | ok pass w' =>
          rw [bind_of_ok selected] at outcome
          rw [selected] at done
          cases done with
          | begun hashable inside written asked =>
            have filled : items.length ≠ 0 := by simpa using empty
            obtain ⟨i, rest, order⟩ := List.exists_cons_of_ne_nil (visits_ne_nil filled w.answer.indices)
            obtain ⟨least, most⟩ := visits_inside inside i (order ▸ List.mem_cons_self)
            have there : items[i.toNat]? = some items[i.toNat] := List.getElem?_eq_getElem (by omega)
            rw [nextVisit_inside order there] at outcome
            have ends : m.after = w' := by rw [Moved.after, outcome]; rfl
            have entered : m.entered? =
                some ⟨w.seen c.place, items.length, w.answer.indices, i :: rest⟩ := by
              rw [Moved.entered?, outcome]
              rfl
            exact ⟨.entered entered hashable (Nat.pos_of_ne_zero filled) order.symm (ends ▸ written), _,
              ends ▸ asked⟩

end Machine

open Machine

namespace Moved

theorem entered?_of_unmapped {m : Moved} (unmapped : m.control.maps = false) : m.entered? = none := by
  unfold entered?
  split
  next mapped _ =>
    rw [mapped] at unmapped
    cases unmapped
  next => rfl

/-- A move tells strategies at most the selection that the record holds. -/
def Tells (m : Moved) : Prop :=
  m.after.records.told = m.before.records.told ∨ ∃ rel, rel.isHashable = true ∧
    m.after.records.told = (rel, m.before.minibatches.get? rel) :: m.before.records.told

theorem done (m : Moved) : MapDone m ∧ m.Tells := by
  cases mapped : m.control.maps with
  | true =>
    obtain ⟨cx, control, w⟩ := m
    cases control with
    | eval c vars a s k =>
      cases c with
      | map t data f batch =>
        obtain ⟨done, rel, _, told⟩ := map_done cx t data f batch vars a s k w
        exact ⟨done, told.imp_right fun told => ⟨rel, told⟩⟩
      | _ => cases mapped
    | call => cases mapped
    | give => cases mapped
  | false =>
    have unentered := entered?_of_unmapped mapped
    cases registers : m.control.registers with
    | true =>
      obtain ⟨minibatches, told⟩ := advance_registering registers m.before
      exact ⟨.refused unentered minibatches, .inl told⟩
    | false =>
      have kept : m.after.records = m.before.records := advance_leaves mapped registers m.before
      exact ⟨.refused unentered (congrArg Records.minibatches kept), .inl (congrArg Records.told kept)⟩

end Moved

section

variable {since : Records} {moves : List Moved} {records : Records}

theorem remembered_cons (r : Address) (m : Moved) (moves : List Moved) :
    remembered r (m :: moves) =
      match m.entered? with
      | some e => if e.relative == r then some e.chosen else remembered r moves
      | none => remembered r moves := by
  unfold remembered latest
  rw [List.findSome?_cons]
  cases m.entered? with
  | none => rfl
  | some e =>
    dsimp only
    cases same : e.relative == r with
    | true => rw [Option.filter_some, same]; rfl
    | false => rw [Option.filter_some, same]; rfl

/-- The record holds, at every address, what was answered for the latest pass there. -/
structure Holds (moves : List Moved) (records : Records) : Prop where
  hashable : ∀ r ∈ records.minibatches.keys, r.isHashable = true
  latest : ∀ r, r.isHashable = true → records.minibatches.get? r = remembered r moves

theorem Holds.move {m : Moved} (holds : Holds moves m.before.records) :
    Holds (m :: moves) m.after.records := by
  obtain ⟨done, _⟩ := m.done
  cases done with
  | refused unentered kept =>
    have same : m.after.records.minibatches = m.before.records.minibatches := kept
    refine ⟨fun r member => holds.hashable r (same ▸ member), fun r hashable => ?_⟩
    rw [remembered_cons, unentered, same]
    exact holds.latest r hashable
  | @entered e entered hashable _ _ written =>
    have written : m.after.records.minibatches =
        m.before.records.minibatches.insert e.relative e.chosen := written
    constructor
    · intro r member
      rw [written] at member
      obtain older | rfl := Table.mem_keys_insert member
      · exact holds.hashable r older
      · exact hashable
    · intro r known
      rw [remembered_cons, entered, written, Address.get?_insert holds.hashable hashable known]
      dsimp only
      rw [holds.latest r known]

/-- Whatever moves a process makes, they leave the record so. -/
theorem Succession.holds (succession : Succession since moves records)
    (cleared : since.minibatches = ∅) : Holds moves records := by
  induction succession with
  | start =>
    constructor
    · rw [cleared]
      exact fun _ member => absurd member List.not_mem_nil
    · rw [cleared]
      exact fun _ _ => rfl
  | move m _ ih => exact ih.move

end

/-- The same world with nothing recorded of minibatches. -/
def World.withoutMinibatches (w : World) : World := { w with minibatches := ∅ }

/-- How a process records the passes that it enters, with its moves latest first. -/
structure Recorded (moves : List Moved) (records : Records) : Prop where
  /-- The record at an address is what was answered for the latest pass entered there. -/
  latest (r : Address) : r.isHashable = true → records.minibatches.get? r = remembered r moves
  /-- It is so before each move. -/
  before (later : List Moved) (m : Moved) (earlier : List Moved) : moves = later ++ m :: earlier →
    ∀ r, r.isHashable = true → m.before.minibatches.get? r = remembered r earlier
  /-- What a move tells a strategy of the previous selection is that record. -/
  told (later : List Moved) (m : Moved) (earlier : List Moved) : moves = later ++ m :: earlier →
    m.after.records.told = m.before.records.told ∨
      ∃ r, m.after.records.told = (r, remembered r earlier) :: m.before.records.told
  /-- A pass visits the positions that were answered, in that order, or all if none were. -/
  visited (m : Moved) (e : Selection) : m ∈ moves → m.entered? = some e →
    0 < e.size ∧ e.visited = visits e.size e.chosen
  /-- A move that enters no pass, as it fails or has no data, leaves the record as it is. -/
  kept (m : Moved) : m ∈ moves → m.entered? = none → m.after.minibatches = m.before.minibatches

/-- In every process that begins with nothing recorded, strategies are told, and the record holds,
what was answered for the latest pass: the positions that it visits, unless it visits all because
none were answered. -/
theorem minibatches_recorded (w : World) (errands : List Errand) :
    let x := Chronicle.process (.start w.withoutMinibatches) errands
    x.world = w.withoutMinibatches.process errands ∧ Recorded x.moves x.world.records := by
  intro x
  obtain ⟨same, succession⟩ := process_chronicled w.withoutMinibatches errands
  refine ⟨same, ?_⟩
  have before (later : List Moved) (m : Moved) (earlier : List Moved)
      (split : x.moves = later ++ m :: earlier) : Holds earlier m.before.records :=
    (succession.split split).holds rfl
  exact {
    latest := (succession.holds rfl).latest
    before := fun later m earlier split => (before later m earlier split).latest
    told := by
      intro later m earlier split
      obtain told | ⟨r, hashable, told⟩ := m.done.2
      · exact .inl told
      · refine .inr ⟨r, ?_⟩
        rw [told, ← (before later m earlier split).latest r hashable]
        rfl
    visited := by
      intro m e _ entered
      obtain ⟨done, _⟩ := m.done
      cases done with
      | refused unentered => cases unentered.symm.trans entered
      | entered known _ some_there visited =>
        cases known.symm.trans entered
        exact ⟨some_there, visited⟩
    kept := by
      intro m _ unentered
      obtain ⟨done, _⟩ := m.done
      cases done with
      | refused _ kept => exact kept
      | entered known => cases unentered.symm.trans known }

/-- A strategy that visits all elements is in charge of a program that visits two numbers. -/
def visitAll : List Errand :=
  [.change (fun w => { w with strategies := [⟨"Enumerate", none, .root, none⟩] }) fun _ => rfl,
    .run ⟨⟨[("keep", ⟨["x", "i"], .ret (.var "x")⟩)]⟩, []⟩ 20
      (.eval (.map none (.literal (.list [.int 10, .int 20])) (.function "keep") none) [] .root .empty
        .halt)]

/-- Both elements are visited, and the record says that none were. -/
theorem all_visited_none_recorded :
    let x := Chronicle.process (.start .start) visitAll
    (latest .root x.moves).map (·.visited) = some [0, 1] ∧
      x.world.minibatches.get? .root = some [] := by
  decide +kernel

end ProbCore
