import ProbCore.Proofs.Continuation

/-! Passes over data under any strategy. An execution goes from one control of the machine to the
next. Where it rests a strategy may go on with it, leave it, or come back to it later and go on
from there again, as often as it likes and in whatever world it is by then. All of these
executions visit the selected elements in order, each with the results of its own past. -/

namespace ProbCore

/-- How strategies go on from a step: with some value for a choice, with nothing for a factor. -/
inductive Step.Answered : Step Rest Dist Float → Control → Prop where
  | sample {s k a d v} : Answered (.sample s k a d) (.give k s v)
  | factor {s k a x} : Answered (.factor s k a x) (.give k s .absent)

namespace Move

/-- What can come after a move. An inference inside the program may come to any marginal. -/
inductive Next : Move → Control → Prop where
  | go {c} : Next (.go c) c
  | rest {step c} (answered : step.Answered c) : Next (.rest step) c
  | infer {i s k m} : Next (.infer i s k) (.give k s (.marginal m))

variable {m : Move} {c : Control} {base : Rest}

theorem Next.onto (next : m.Next c) (base : Rest) : (m.onto base).Next (c.onto base) := by
  cases next with
  | go => exact .go
  | rest answered =>
    cases answered with
    | sample => exact .rest .sample
    | factor => exact .rest .factor
  | infer => exact .infer

theorem Next.of_onto (next : (m.onto base).Next c) : ∃ own, m.Next own ∧ c = own.onto base := by
  cases m with
  | go own =>
    cases next
    exact ⟨own, .go, rfl⟩
  | rest step =>
    cases next with
    | rest answered =>
      cases step with
      | sample s k a d =>
        cases answered
        exact ⟨_, .rest .sample, rfl⟩
      | factor s k a x =>
        cases answered
        exact ⟨_, .rest .factor, rfl⟩
      | exit => cases answered
      | stray => cases answered
  | infer i s k =>
    cases next
    exact ⟨_, .infer, rfl⟩

theorem Next.unclaimed (next : m.Next c) (held : m.unclaimed = true) : c.unclaimed = true := by
  cases next with
  | go => exact held
  | rest answered => cases answered <;> exact held
  | infer => exact held

end Move

namespace Machine

variable {cx : Context} {c c' c'' : Control} {told told' : List Address} {base : Rest}

/-- One control comes after another, in some world. -/
def Onward (cx : Context) (c c' : Control) : Prop := ∃ m, Yields (advance cx c) m ∧ m.Next c'

namespace Onward

theorem running (onward : Onward cx c c') : c.delivered? = none := by
  obtain ⟨m, yields, next⟩ := onward
  unfold Control.delivered?
  split
  · rw [yields.pure] at next
    cases next with
    | rest answered => cases answered
  · rfl

theorem unclaimed (onward : Onward cx c c') (held : c.unclaimed = true) : c'.unclaimed = true := by
  have running := onward.running
  obtain ⟨m, yields, next⟩ := onward
  exact next.unclaimed (advance_unclaimed held running yields)

theorem onto (onward : Onward cx c c') (held : c.unclaimed = true) (base : Rest) :
    Onward cx (c.onto base) (c'.onto base) := by
  have moves : advance cx (c.onto base) = _ := advance_onto held onward.running base
  obtain ⟨m, ⟨w, w', returned⟩, next⟩ := onward
  refine ⟨m.onto base, ⟨w, w', ?_⟩, next.onto base⟩
  rw [moves, map_eq_pure_bind, bind_of_ok returned]
  rfl

theorem of_onto (held : c.unclaimed = true) (running : c.delivered? = none)
    (onward : Onward cx (c.onto base) c') : ∃ own, Onward cx c own ∧ c' = own.onto base := by
  obtain ⟨m, yields, next⟩ := onward
  rw [advance_onto held running, map_eq_pure_bind] at yields
  obtain ⟨own, first, yields⟩ := yields.bind
  rw [yields.pure] at next
  obtain ⟨c, next, same⟩ := next.of_onto
  exact ⟨c, ⟨own, first, next⟩, same⟩

end Onward

theorem told_onto (running : c.delivered? = none) (base : Rest) : (c.onto base).told = c.told := by
  cases c with
  | eval => rfl
  | call => rfl
  | give k s v =>
    cases k with
    | halt => cases running
    | visit pass k =>
      obtain ⟨_, _, _, _, remaining, _⟩ := pass
      cases remaining <;> rfl
    | _ => rfl

/-- An execution from one control to another, with the passes that it completes on the way. -/
inductive Leads (cx : Context) (c : Control) : List Address → Control → Prop where
  | refl : Leads cx c [] c
  | next {told : List Address} {c' c'' : Control} (before : Leads cx c told c')
      (onward : Onward cx c' c'') :
      Leads cx c (told ++ c'.told) c''

namespace Leads

theorem trans (first : Leads cx c told c') (second : Leads cx c' told' c'') :
    Leads cx c (told ++ told') c'' := by
  induction second with
  | refl => simpa using first
  | next before onward ih => simpa using ih.next onward

theorem unclaimed (leads : Leads cx c told c') (held : c.unclaimed = true) :
    c'.unclaimed = true := by
  induction leads with
  | refl => exact held
  | next before onward ih => exact onward.unclaimed ih

/-- An execution on its own is one above any rest. -/
theorem onto (leads : Leads cx c told c') (held : c.unclaimed = true) (base : Rest) :
    Leads cx (c.onto base) told (c'.onto base) := by
  induction leads with
  | refl => exact .refl
  | @next told c' c'' before onward ih =>
    have further := ih.next (onward.onto (before.unclaimed held) base)
    rwa [told_onto onward.running] at further

end Leads

/-- A run up to the next step is such an execution. -/
theorem run_leads {fuel : Nat} {step : Step Rest Dist Float} (ran : Yields (run cx fuel c) step) :
    ∃ told c', Leads cx c told c' ∧ Yields (advance cx c') (.rest step) := by
  induction fuel generalizing c with
  | zero =>
    obtain ⟨w, w', returned⟩ := ran
    cases returned
  | succ fuel ih =>
    obtain ⟨m, moves, ran⟩ := ran.bind
    cases m with
    | go next =>
      obtain ⟨told, c', leads, rests⟩ := ih ran
      exact ⟨_, c', (Leads.refl.next ⟨_, moves, .go⟩).trans leads, rests⟩
    | rest here =>
      rw [ran.pure]
      exact ⟨[], c, .refl, moves⟩
    | infer i s k =>
      obtain ⟨m, _, ran⟩ := ran.bind
      obtain ⟨told, c', leads, rests⟩ := ih ran
      exact ⟨_, c', (Leads.refl.next ⟨_, moves, .infer⟩).trans leads, rests⟩

end Machine

/-- A pass that has these results and these elements to go. -/
def Pass.after (p : Pass) (results : List Value) (remaining : List Int) : Pass :=
  { p with remaining, results := results.reverse }

/-- The call of a function for one element of a pass. -/
def Pass.visit (p : Pass) (i : Int) (x : Value) (s : Store) (k : Rest) : Control :=
  .call p.function [x, .int i] (p.address.element i) s k

namespace Machine

section

variable (cx : Context) (p : Pass) (k : Rest) (start : Store)

/-- The elements at some positions visited in turn: each runs on its own with the store that the
one before it left. With the passes completed inside them, the values that they deliver and the
store that the last one leaves. -/
inductive Visited : List Int → List Address → List Value → Store → Prop where
  | none : Visited [] [] [] start
  | next {done : List Int} {told told' : List Address} {vs : List Value} {s s' : Store} {i : Int}
      {x v : Value} (before : Visited done told vs s)
      (present : p.data[i.toNat]? = some x)
      (delivers : Leads cx (p.visit i x s .halt) told' (.give .halt s' v)) :
      Visited (done ++ [i]) (told ++ told') (vs ++ [v]) s'

/-- Where an execution of the pass stands: inside an element, with the results of those before
it, or past the last one. There the strategy has been told once that the pass is complete, and
what remains has been given all results. -/
inductive Underway : List Address → List Value → Control → Prop where
  | inside {done rest : List Int} {i : Int} {told told' : List Address} {vs : List Value} {s : Store}
      {x : Value} {own : Control} (order : p.remaining = done ++ i :: rest)
      (visited : Visited cx p start done told vs s) (present : p.data[i.toNat]? = some x)
      (within : Leads cx (p.visit i x s .halt) told' own) :
      Underway (told ++ told') vs (own.onto (.visit (p.after vs rest) k))
  | past {told told' : List Address} {vs : List Value} {s : Store} {c : Control} (visited : Visited cx p start p.remaining told vs s)
      (beyond : Leads cx (.give k s (.tuple vs)) told' c) :
      Underway (told ++ p.relative :: told') vs c

/-- A step at which an execution of the pass rests. -/
def Captured (told : List Address) (vs : List Value) (step : Step Rest Dist Float) : Prop :=
  ∃ c, Underway cx p k start told vs c ∧ Yields (advance cx c) (.rest step)

end

variable {p : Pass} {k : Rest} {start s : Store} {vs : List Value}

theorem advance_last (p : Pass) (vs : List Value) (v : Value) (s : Store) (k : Rest) :
    advance cx (.give (.visit (p.after vs []) k) s v) = (do
      Run.finishPass p.relative
      return .go (.give k s (.tuple (vs ++ [v])))) := by
  have results : (v :: vs.reverse).reverse = vs ++ [v] := by simp
  rw [← results]
  rfl

theorem advance_more (p : Pass) (vs : List Value) (v : Value) (i : Int) (rest : List Int) (s : Store)
    (k : Rest) :
    advance cx (.give (.visit (p.after vs (i :: rest)) k) s v) =
      match p.data[i.toNat]? with
      | none => throw .noSuchPosition
      | some x => pure (.go (p.visit i x s (.visit (p.after (vs ++ [v]) rest) k))) := by
  have results : v :: vs.reverse = (vs ++ [v]).reverse := by simp
  simp only [advance, nextVisit, Pass.after, results]
  cases p.data[i.toNat]? <;> rfl

/-- After an element its result is added, and the next element runs; after the last one the
strategy is told, and what remains is given all results. -/
theorem Underway.delivered {done rest : List Int} {i : Int} {x v : Value} {s' : Store}
    (order : p.remaining = done ++ i :: rest) (visited : Visited cx p start done told vs s)
    (present : p.data[i.toNat]? = some x)
    (delivers : Leads cx (p.visit i x s .halt) told' (.give .halt s' v))
    (onward : Onward cx (.give (.visit (p.after vs rest) k) s' v) c') :
    Underway cx p k start
      (told ++ told' ++ (Control.give (.visit (p.after vs rest) k) s' v).told) (vs ++ [v]) c' := by
  have visited := visited.next present delivers
  obtain ⟨m, yields, next⟩ := onward
  cases rest with
  | nil =>
    rw [advance_last] at yields
    obtain ⟨_, _, yields⟩ := yields.bind
    obtain rfl := yields.pure
    cases next
    rw [← order] at visited
    exact .past visited .refl
  | cons j rest =>
    rw [advance_more] at yields
    split at yields
    next =>
      obtain ⟨w, w', returned⟩ := yields
      cases returned
    next y present =>
      obtain rfl := yields.pure
      cases next
      have order : p.remaining = (done ++ [i]) ++ j :: rest := by simpa using order
      exact .inside order visited present .refl

/-- The results of an execution grow only by what an element of this execution delivers. -/
theorem Underway.step (underway : Underway cx p k start told vs c) (onward : Onward cx c c') :
    Underway cx p k start (told ++ c.told) vs c' ∨
      ∃ rest s v, c = .give (.visit (p.after vs rest) k) s v ∧
        Underway cx p k start (told ++ c.told) (vs ++ [v]) c' := by
  cases underway with
  | past visited beyond =>
    apply Or.inl
    rw [List.append_assoc, List.cons_append]
    exact .past visited (beyond.next onward)
  | @inside done rest i told told' vs s x own order visited present within =>
    cases delivered : own.delivered? with
    | none =>
      have held := within.unclaimed rfl
      obtain ⟨own', further, rfl⟩ := onward.of_onto held delivered
      rw [told_onto delivered, List.append_assoc]
      exact .inl (.inside order visited present (within.next further))
    | some result =>
      obtain ⟨s', v⟩ := result
      obtain rfl := own.eq_of_delivered delivered
      exact .inr ⟨rest, s', v, rfl, .delivered order visited present within onward⟩

/-- However an execution of the pass goes on, the results that it has stay its first ones. -/
theorem Underway.leads (underway : Underway cx p k start told vs c) (leads : Leads cx c told' c') :
    ∃ more, Underway cx p k start (told ++ told') (vs ++ more) c' := by
  induction leads with
  | refl => exact ⟨[], by simpa using underway⟩
  | next before onward ih =>
    obtain ⟨more, underway⟩ := ih
    rw [← List.append_assoc]
    obtain same | ⟨_, _, v, _, added⟩ := underway.step onward
    · exact ⟨more, same⟩
    · exact ⟨more ++ [v], by simpa using added⟩

/-- A strategy that goes on from a step inside the pass, however often it has done so before,
comes to steps that have the same first results. -/
theorem Captured.resumed {step step' : Step Rest Dist Float} {fuel : Nat}
    (captured : Captured cx p k start told vs step) (answered : step.Answered c)
    (ran : Yields (run cx fuel c) step') :
    ∃ told' more, Captured cx p k start (told ++ told') (vs ++ more) step' := by
  obtain ⟨c₀, underway, rests⟩ := captured
  obtain ⟨told', c', leads, rests'⟩ := run_leads ran
  have leads := (Leads.refl.next ⟨_, rests, .rest answered⟩).trans leads
  obtain ⟨more, underway⟩ := underway.leads leads
  exact ⟨_, more, c', underway, rests'⟩

/-- Elements that can be visited in turn on their own are visited so by some execution. -/
theorem Visited.leads {first : Int} {others done : List Int} {x : Value}
    (order : p.remaining = first :: others) (present : p.data[first.toNat]? = some x)
    (visited : Visited cx p start done told vs s) {i : Int} {rest : List Int} {y : Value}
    (here : p.remaining = done ++ i :: rest) (there : p.data[i.toNat]? = some y) :
    Leads cx (p.visit first x start (.visit (p.after [] others) k)) told
      (p.visit i y s (.visit (p.after vs rest) k)) := by
  induction visited generalizing i rest y with
  | none =>
    rw [order] at here
    obtain ⟨rfl, rfl⟩ := List.cons.inj here
    rw [present] at there
    cases there
    exact .refl
  | @next done told told' vs s s' j z v before between delivers ih =>
    have led := ih (by simpa using here) between
    have ran := delivers.onto rfl (.visit (p.after vs (i :: rest)) k)
    have onward : Onward cx (.give (.visit (p.after vs (i :: rest)) k) s' v)
        (p.visit i y s' (.visit (p.after (vs ++ [v]) rest) k)) := by
      refine ⟨_, ?_, .go⟩
      rw [advance_more, there]
      exact ⟨.start, .start, rfl⟩
    have untold : ((Control.give .halt s' v).onto (.visit (p.after vs (i :: rest)) k)).told = [] := rfl
    have further := (led.trans ran).next onward
    rwa [untold, List.append_nil] at further

/-- Elements that can all be visited in turn on their own are visited so by some execution, which
then tells the strategy once and gives all results to what remains. -/
theorem Visited.ends {first : Int} {others : List Int} {x : Value}
    (order : p.remaining = first :: others) (present : p.data[first.toNat]? = some x)
    (visited : Visited cx p start p.remaining told vs s) :
    Leads cx (p.visit first x start (.visit (p.after [] others) k)) (told ++ [p.relative])
      (.give k s (.tuple vs)) := by
  generalize all : p.remaining = visits at visited
  cases visited with
  | none => simp [order] at all
  | @next done told told' vs s₁ s' i y v before there delivers =>
    have led := before.leads (k := k) order present all there
    have ran := delivers.onto rfl (.visit (p.after vs []) k)
    have onward : Onward cx (.give (.visit (p.after vs []) k) s v)
        (.give k s (.tuple (vs ++ [v]))) := by
      refine ⟨_, ?_, .go⟩
      rw [advance_last]
      exact ⟨.start, .start, rfl⟩
    exact (led.trans ran).next onward

/-- The pass over data runs the selected elements in order, whatever the strategy does. -/
structure Traverses (cx : Context) (p : Pass) (k : Rest) (s : Store) (first : Control) : Prop where
  begun : Underway cx p k s [] [] first
  step {told vs c c'} : Underway cx p k s told vs c → Onward cx c c' →
    Underway cx p k s (told ++ c.told) vs c' ∨
      ∃ rest s' v, c = .give (.visit (p.after vs rest) k) s' v ∧
        Underway cx p k s (told ++ c.told) (vs ++ [v]) c'
  leads {told vs c told' c'} : Underway cx p k s told vs c → Leads cx c told' c' →
    ∃ more, Underway cx p k s (told ++ told') (vs ++ more) c'
  resumed {told vs step step' c fuel} : Captured cx p k s told vs step → step.Answered c →
    Yields (run cx fuel c) step' →
    ∃ told' more, Captured cx p k s (told ++ told') (vs ++ more) step'
  ends {told vs s'} : Visited cx p s p.remaining told vs s' →
    Leads cx first (told ++ [p.relative]) (.give k s' (.tuple vs))
  told {c w} : w.recording = true → (ended (advance cx c w)).completed = c.told ++ w.completed

theorem mapM_reads {α β : Type} {read : α → Except Failure β} {f : α → Run β} {xs : List α}
    {ys : List β} (reads : ∀ x y, read x = .ok y → f x = pure y) (whole : xs.mapM read = .ok ys) :
    xs.mapM f = pure ys := by
  induction xs generalizing ys with
  | nil =>
    cases whole
    rfl
  | cons x xs ih =>
    rw [List.mapM_cons] at whole
    cases known : read x with
    | error e =>
      rw [known] at whole
      cases whole
    | ok y =>
      cases others : xs.mapM read with
      | error e =>
        rw [known, others] at whole
        cases whole
      | ok ys =>
        rw [known, others] at whole
        cases whole
        rw [List.mapM_cons, reads x y known, ih others]
        rfl

theorem forIn_passes {α β : Type} {f : α → β → Run (ForInStep β)} {xs : List α} {b : β}
    (passes : ∀ x ∈ xs, f x b = pure (.yield b)) : forIn xs b f = pure b := by
  induction xs with
  | nil => rfl
  | cons x xs ih =>
    rw [List.forIn_cons, passes x List.mem_cons_self]
    exact ih fun y member => passes y (List.mem_cons_of_mem x member)

/-- The answer of a strategy that lists positions inside the data is accepted as it is. -/
theorem checkIndices_eq {answer : Value} {given : List Value} {indices : List Int} {size : Nat}
    (listed : answer.items? = some given) (whole : given.mapM Value.toInt = .ok indices)
    (inside : ∀ i ∈ indices, 0 ≤ i ∧ i < (size : Int)) :
    checkIndices answer size = pure indices := by
  unfold checkIndices
  dsimp only
  rw [listed]
  dsimp only
  rw [mapM_reads ?reads whole, pure_bind, forIn_passes ?passes]
  case reads =>
    intro x n known
    rw [known]
  case passes =>
    intro n member
    obtain ⟨least, most⟩ := inside n member
    have fine : ¬ (decide (n < 0) || decide ((size : Int) ≤ n)) = true := by
      simp only [Bool.or_eq_true, decide_eq_true_eq]
      omega
    rw [if_neg fine]
  rfl

/-- The positions that a pass visits when it was asked for some of them: all of them, if none. -/
def visits (size : Nat) (indices : List Int) : List Int :=
  if indices.isEmpty then (List.range size).map Int.ofNat else indices

theorem visits_inside {size : Nat} {indices : List Int}
    (inside : ∀ i ∈ indices, 0 ≤ i ∧ i < (size : Int)) :
    ∀ i ∈ visits size indices, 0 ≤ i ∧ i < (size : Int) := by
  unfold visits
  split
  · intro i member
    obtain ⟨j, below, rfl⟩ := List.mem_map.mp member
    have := List.mem_range.mp below
    exact ⟨Int.natCast_nonneg j, Int.ofNat_lt.mpr this⟩
  · exact inside

theorem visits_ne_nil {size : Nat} (some_there : size ≠ 0) (indices : List Int) :
    visits size indices ≠ [] := by
  unfold visits
  split
  next => simpa using some_there
  next listed => simpa using listed

/-- A pass over data starts as soon as the strategy in charge lists positions inside the data. -/
theorem selectPass_begins {w w₁ : World} {head : Active} {others : List Active} {a : Address}
    {items : List Value} {size answer : Value} {given : List Value} {indices : List Int}
    (function : Value) (charged : w.strategies = head :: others)
    (hashable : (a.within head.address).isHashable = true)
    (asked : Run.fetch (w.minibatches.get? (a.within head.address)) items.length size
      (a.within head.address) w = .ok answer w₁)
    (listed : answer.items? = some given) (whole : given.mapM Value.toInt = .ok indices)
    (inside : ∀ i ∈ indices, 0 ≤ i ∧ i < (items.length : Int)) :
    ∃ w', selectPass a items function size w =
      .ok ⟨items, function, a, a.within head.address, visits items.length indices, []⟩ w' := by
  have current : Run.current w = .ok head w := by
    obtain ⟨_, _⟩ := w
    subst charged
    rfl
  have relative : Run.relative a w = .ok (a.within head.address) w := by
    obtain ⟨_, _⟩ := w
    subst charged
    rfl
  have accepted : ¬ (!(a.within head.address).isHashable) = true := by simp [hashable]
  have seen : (get : Run World) w = .ok w w := rfl
  unfold selectPass
  rw [bind_of_ok current, bind_of_ok relative, if_neg accepted, bind_of_ok seen]
  dsimp only
  rw [bind_of_ok asked, checkIndices_eq listed whole inside]
  exact ⟨_, rfl⟩

/-- For data that are not empty, and whichever positions the strategy in charge selects, a pass
starts and traverses them. -/
theorem pass_traverses {cx : Context} {w w₁ : World} {head : Active} {others : List Active}
    {a : Address} {data function size answer : Value} {batch : Option Value}
    {items given : List Value} {indices : List Int}
    (accepted : passSize data function batch = .ok size) (sequence : data.items? = some items)
    (some_there : items ≠ []) (charged : w.strategies = head :: others)
    (hashable : (a.within head.address).isHashable = true)
    (asked : Run.fetch (w.minibatches.get? (a.within head.address)) items.length size
      (a.within head.address) w = .ok answer w₁)
    (listed : answer.items? = some given) (whole : given.mapM Value.toInt = .ok indices)
    (inside : ∀ i ∈ indices, 0 ≤ i ∧ i < (items.length : Int)) (s : Store) (k : Rest) :
    ∃ first w', beginPass a data function batch s k w = .ok first w' ∧
      Traverses cx
        ⟨items, function, a, a.within head.address, visits items.length indices, []⟩ k s first := by
  obtain ⟨w', selects⟩ :=
    selectPass_begins function charged hashable asked listed whole inside
  have filled : items.length ≠ 0 := fun none => some_there (List.length_eq_zero_iff.mp none)
  obtain ⟨i, rest, order⟩ := List.exists_cons_of_ne_nil (visits_ne_nil filled indices)
  obtain ⟨least, most⟩ := visits_inside inside i (order ▸ List.mem_cons_self)
  have present : items[i.toNat]? = some items[i.toNat] := List.getElem?_eq_getElem (by omega)
  rw [order] at selects ⊢
  generalize chosen : (⟨items, function, a, a.within head.address, i :: rest, []⟩ : Pass) = p at *
  have ahead : p.remaining = i :: rest := by rw [← chosen]
  have there : p.data[i.toNat]? = some items[i.toNat] := by rw [← chosen]; exact present
  refine ⟨p.visit i items[i.toNat] s (.visit (p.after [] rest) k), w', ?_, ?_⟩
  · rw [beginPass_eq, accepted, sequence]
    have many : ¬ (items.length == 0) = true := by simpa using some_there
    simp only [Run.lift, pure_bind, Option.getD_some, if_neg many]
    rw [bind_of_ok selects, nextVisit]
    rw [← chosen]
    simp only [present]
    rfl
  · exact {
      begun := .inside ahead .none there .refl
      step := Underway.step
      leads := Underway.leads
      resumed := Captured.resumed
      ends := Visited.ends ahead there
      told := advance_tells }

/-- Draws one of two numbers for each element. -/
def drawPerElement : Context :=
  ⟨⟨[("draw", ⟨["x", "i"], .sample none (.table "T" [.int 0, .int 1] [.literal (.float 0)] true)⟩)]⟩,
    []⟩

/-- A strategy that visits the second element, then the first, then the second again. -/
def chooser : Active := ⟨"Choosy", none, .root, some [.list [.int 1, .int 0, .int 1]]⟩

def choosy : World := { World.start with strategies := [chooser] }

def twoNumbers : List Value := [.int 10, .int 20]

/-- Elements that draw values are visited as often as the strategy asks for them. -/
theorem choosy_traverses :
    ∃ first w', beginPass .root (.list twoNumbers) (.function "draw") none .empty .halt choosy =
        .ok first w' ∧
      Traverses drawPerElement ⟨twoNumbers, .function "draw", .root, .root, [1, 0, 1], []⟩ .halt .empty
        first := by
  have accepted : passSize (.list twoNumbers) (.function "draw") none = .ok (.int 2) := rfl
  have sequence : (Value.list twoNumbers).items? = some twoNumbers := rfl
  have charged : choosy.strategies = [chooser] := rfl
  let here := Address.root.within chooser.address
  have hashable : here.isHashable = true := rfl
  obtain ⟨w₁, asked⟩ : ∃ w₁, Run.fetch (choosy.minibatches.get? here) twoNumbers.length (.int 2) here
      choosy = .ok (.list [.int 1, .int 0, .int 1]) w₁ := ⟨_, rfl⟩
  have listed : (Value.list [.int 1, .int 0, .int 1]).items? = some [.int 1, .int 0, .int 1] := rfl
  have whole : [Value.int 1, .int 0, .int 1].mapM Value.toInt = .ok [1, 0, 1] := rfl
  have inside : ∀ i ∈ [(1 : Int), 0, 1], 0 ≤ i ∧ i < (twoNumbers.length : Int) := by decide
  exact pass_traverses accepted sequence (List.cons_ne_nil _ _) charged hashable asked listed whole
    inside .empty .halt

end Machine

end ProbCore
