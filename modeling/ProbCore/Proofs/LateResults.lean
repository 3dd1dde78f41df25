import ProbCore.Proofs.StandingTables

/-! Results that come late. While a function runs for some arguments its table may be filled for them, by a call inside
of it or by another execution of the program. What the function then delivers takes the place of the entry and is
handed on, in whatever order executions are resumed. It is reported if its text is not that of the entry. -/

namespace ProbCore

/-- Whether it is reported that a result is not the one that was known. -/
def Notice.warns : Notice → Bool
  | .diverged .. => true
  | _ => false

/-- An entry for the key has a text, and then the value has one as well. -/
def Memo.Comparable (m : Memo) (key : String) (v : Value) : Prop :=
  ∀ old, m.cache.peek key = .ok old → (∃ text, Data.serialize old = .ok text) ∧ ∃ text, Data.serialize v = .ok text

namespace Moved

/-- A call of a table that does not know the arguments, so that the function runs before `k` gets its value. -/
def Opens (m : Moved) (table : Nat) (key : String) (k : Rest) : Prop :=
  ∃ name args a s function w, m.control = .call (.memo table name) args a s k ∧
    Data.serialize (.tuple args) = .ok key ∧
      m.outcome = .ok (.go (.call function args a s (.remember table key k))) w

/-- What a move does that gives a value to its table, and what is reported then. -/
structure Keeps (m : Moved) (table : Nat) (key : String) (k : Rest) (s : Store) (v : Value) (memo memo' : Memo)
    (said : List Notice) : Prop where
  /-- The value goes on to the rest of the program, with the store that came with it. -/
  delivered : m.outcome = .ok (.go (.give k s v)) m.after
  kept : m.after.memos[table]? = some memo'
  latest : memo'.cache.peek key = .ok v
  put : ∃ dropped, memo.cache.put key v = .ok (memo'.cache, dropped)
  function : memo'.function = memo.function
  others (other : Nat) : other ≠ table → m.after.memos[other]? = m.before.memos[other]?
  reported : m.after.notices = said ++ m.before.notices
  /-- There is one warning if there is an entry with another text. -/
  warned {old : Value} {text text' : String} : memo.cache.peek key = .ok old → Data.serialize old = .ok text →
    Data.serialize v = .ok text' → text ≠ text' → said.filter Notice.warns = [.diverged key text text']
  /-- Else there is none. -/
  unwarned : (∀ old, memo.cache.peek key = .ok old → Data.serialize old = Data.serialize v) →
    said.filter Notice.warns = []

end Moved

section

variable {m : Memo} {key : String} {v : Value}

/-- What is said of a value that can be compared. -/
theorem Memo.Comparable.said (comparable : m.Comparable key v) : ∃ said, m.said key v = .ok said ∧
    (∀ old text text', m.cache.peek key = .ok old → Data.serialize old = .ok text → Data.serialize v = .ok text' →
      text ≠ text' → said.filter Notice.warns = [.diverged key text text']) ∧
    ((∀ old, m.cache.peek key = .ok old → Data.serialize old = Data.serialize v) → said.filter Notice.warns = []) := by
  unfold Memo.said
  cases known : m.cache.peek key with
  | error e => exact ⟨[], rfl, nofun, fun _ => rfl⟩
  | ok old =>
    obtain ⟨⟨text, written⟩, text', written'⟩ := comparable old known
    dsimp only
    rw [written, written']
    refine ⟨_, rfl, ?_, ?_⟩
    · rintro _ _ _ here same same' differ
      cases here
      cases written.symm.trans same
      cases same'
      rw [if_pos (bne_iff_ne.mpr differ)]
      rfl
    · intro alike
      obtain rfl : text = text' := Except.ok.inj (written.symm.trans (alike old rfl))
      rw [if_neg (by simp)]
      rfl

/-- A value that comes for a key is kept and handed on. -/
theorem keeps_comparable {w : World} {table : Nat} (found : w.memos[table]? = some m) (roomy : m.Roomy)
    (comparable : m.Comparable key v) (cx : Machine.Context) (k : Rest) (s : Store) :
    ∃ memo' said, Moved.Keeps ⟨cx, .give (.remember table key k) s v, w⟩ table key k s v m memo' said := by
  obtain ⟨said, compared, warned, unwarned⟩ := comparable.said
  obtain ⟨cache, dropped, added, _⟩ := Cache.put_of_room roomy key v
  let w₁ : World := { w with notices := said ++ w.notices }
  have remembered : Machine.remember table key v w = .ok () (Machine.filled w₁ table m cache dropped) := by
    rw [Machine.remember_eq found, compared]
    dsimp only
    rw [Machine.fill_eq, added]
  have outcome : Machine.advance cx (.give (.remember table key k) s v) w =
      .ok (.go (.give k s v)) (Machine.filled w₁ table m cache dropped) := bind_of_ok remembered
  obtain ⟨inside, _⟩ := Array.getElem?_eq_some_iff.mp found
  have after : Moved.after ⟨cx, .give (.remember table key k) s v, w⟩ = Machine.filled w₁ table m cache dropped :=
    congrArg ended outcome
  let others : List Notice :=
    (if m.announces cache w₁ then [.grown (Machine.newMemo.nameOf m.function) cache.size] else []) ++
      (dropped.map Notice.evicted).toList
  have silent : others.filter Notice.warns = [] := by
    dsimp only [others]
    cases dropped <;> split <;> rfl
  let kept : Memo := { m with cache, announced := m.announced || m.announces cache w₁ }
  refine ⟨kept, others ++ said, ?_, ?_, Cache.peek_put added, ⟨dropped, added⟩, rfl, ?_, ?_, ?_, ?_⟩
  · rw [after]
    exact outcome
  · rw [after]
    exact Array.getElem?_setIfInBounds_self_of_lt inside
  · intro other elsewhere
    rw [after]
    exact Array.getElem?_setIfInBounds_ne elsewhere.symm
  · rw [after]
    simp [Machine.filled, others, w₁]
  · intro old text text' known written written' differ
    rw [List.filter_append, silent, warned old text text' known written written' differ]
    rfl
  · intro alike
    rw [List.filter_append, silent, unwarned alike]
    rfl

end

/-- What is known of tables in every process: they have room, and each move finds those that were there after the moves
before it. -/
structure Housed (moves : List Moved) (w : World) : Prop where
  roomy : ∀ memo ∈ w.memos, memo.Roomy
  begun : ∀ m ∈ moves, ∀ memo ∈ m.before.memos, memo.Roomy
  since : ∀ m ∈ moves, Grows m.after.memos w.memos
  order : moves.Pairwise fun m e => Grows e.after.memos m.before.memos

theorem housed_lasting : Lasting Housed where
  install _ housed := ⟨housed.roomy, housed.begun, housed.since, housed.order⟩
  note _ housed := ⟨housed.roomy, housed.begun, housed.since, housed.order⟩
  move m housed := {
    roomy := m.grows.roomy housed.roomy
    begun := List.forall_mem_cons.mpr ⟨housed.roomy, housed.begun⟩
    since := List.forall_mem_cons.mpr ⟨.refl _, fun e member => (housed.since e member).trans m.grows⟩
    order := List.pairwise_cons.mpr ⟨housed.since, housed.order⟩ }

/-- What is done to tables from outside is to change their entries or to make new ones. -/
def Errand.Stands : Errand → Prop
  | .change f _ => ∀ w, Grows w.memos (f w).memos
  | _ => True

theorem Errand.Stands.spares {errand : Errand} (stands : errand.Stands) : errand.Spares Housed := by
  cases errand with
  | change f _ =>
    intro moves w housed
    exact ⟨(stands w).roomy housed.roomy, housed.begun, fun m member => (housed.since m member).trans (stands w),
      housed.order⟩
  | _ => trivial

theorem Moved.Opens.found {m : Moved} {table : Nat} {key : String} {k : Rest} (opens : m.Opens table key k) :
    ∃ memo, m.after.memos[table]? = some memo := by
  obtain ⟨name, args, a, s, function, w, called, keyed, opened⟩ := opens
  cases found : m.before.memos[table]? with
  | some memo =>
    obtain ⟨memo', found', _⟩ := m.grows.kept found
    exact ⟨memo', found'⟩
  | none =>
    have failed : Machine.callMemo table args a s k m.before = .error .illTyped m.before := by
      unfold Machine.callMemo
      rw [keyed]
      exact (bind_of_ok rfl).trans (bind_of_error (Machine.memoAt_none found))
    have outcome : m.outcome = .error .illTyped m.before := by
      rw [Moved.outcome, called]
      exact bind_of_error failed
    cases outcome.symm.trans opened

/-- Whenever a move gives a value to a table, for arguments that the table did not know when it was called for them, the
table is there. It keeps the value and the program goes on with it, unless there is an entry by now and it or the value
has no text. It is reported exactly if there is an entry by now and the texts differ. Moves are listed latest first. -/
def KeptLate (moves : List Moved) : Prop :=
  moves.Pairwise fun m e => ∀ table key k s v,
    e.Opens table key k → m.control = .give (.remember table key k) s v →
      ∃ memo, m.before.memos[table]? = some memo ∧
        (memo.Comparable key v → ∃ memo' said, m.Keeps table key k s v memo memo' said)

/-- In every process, in whatever order it resumes executions, what functions deliver late is kept. -/
theorem late_results_kept {w : World} (roomy : ∀ memo ∈ w.memos, memo.Roomy) {errands : List Errand}
    (stands : ∀ errand ∈ errands, errand.Stands) :
    let x := Chronicle.process (.start w) errands
    x.world = w.process errands ∧ KeptLate x.moves := by
  intro x
  obtain ⟨same, housed⟩ := process_recounted housed_lasting (w := w) ⟨roomy, nofun, nofun, .nil⟩
    fun errand member => (stands errand member).spares
  refine ⟨same, housed.order.imp_of_mem fun {m e} member _ grown table key k s v opens given => ?_⟩
  obtain ⟨_, opened⟩ := opens.found
  obtain ⟨memo, found, _⟩ := grown.kept opened
  refine ⟨memo, found, fun comparable => ?_⟩
  obtain ⟨cx, control, before⟩ := m
  obtain rfl : control = .give (.remember table key k) s v := given
  exact keeps_comparable found (housed.begun _ member memo (Array.mem_of_getElem? found)) comparable cx k s

/-- A function that calls its own table for the same arguments before it delivers. -/
def reentering (inner outer : Value) : Machine.Context where
  program := ⟨[("f", ⟨["x"], .choose (.contains (.literal (.text "in"))) (.ret (.literal inner))
    (.sequence [.set (.literal (.text "in")) (.literal (.bool true)),
      .call (some (.literal (.text "again"))) (.var "memo") [.var "x"], .ret (.literal outer)])⟩)]⟩
  globals := [("memo", .memo 0 "f")]

/-- The table is made, and called from outside. -/
def reentry (inner outer : Value) : List Errand :=
  [.run (reentering inner outer) 3 (.eval (.cache none (.function "f") none) [] .root .empty .halt),
    .run (reentering inner outer) 20 (.call (.memo 0 "f") [.text "go"] .root .empty .halt)]

/-- The inner and the outer result differ, which is reported once. -/
theorem reentry_reported :
    let x := Chronicle.process (.start .start) (reentry (.text "inner") (.text "outer"))
    (∀ memo ∈ World.start.memos, memo.Roomy) ∧
      (∀ errand ∈ reentry (.text "inner") (.text "outer"), errand.Stands) ∧
      KeptLate x.moves ∧ (x.world.notices.filter Notice.warns).map Notice.text =
        ["Cache entry for [\"go\"] differs between executions: \"inner\" and \"outer\""] := by
  have roomy : ∀ memo ∈ World.start.memos, memo.Roomy := nofun
  have stands : ∀ errand ∈ reentry (.text "inner") (.text "outer"), errand.Stands :=
    List.forall_mem_cons.mpr ⟨trivial, List.forall_mem_singleton.mpr trivial⟩
  exact ⟨roomy, stands, (late_results_kept roomy stands).2, by decide +kernel⟩

/-- What a move finds in a table for the key of the value that it gives to it, and that value. -/
def Moved.replaced? (m : Moved) : Option (Value × Value) :=
  match m.control with
  | .give (.remember table key _) _ v =>
    m.before.memos[table]?.bind fun memo => (memo.cache.peek key).toOption.map (·, v)
  | _ => none

/-- A list takes the place of a tuple with the same text, and nothing is reported of it. -/
theorem alike_texts_unreported :
    let x := Chronicle.process (.start .start) (reentry (.tuple [.int 1]) (.list [.int 1]))
    (∃ m ∈ x.moves, ∃ old v, m.replaced? = some (old, v) ∧ (old == v) = false) ∧
      ∀ n ∈ x.world.notices, n.warns = false := by
  intro x
  have unlike : (x.moves.any fun m => m.replaced?.any fun p => !(p.1 == p.2)) = true := by decide +kernel
  have silent : (x.world.notices.all fun n => !n.warns) = true := by decide +kernel
  refine ⟨?_, fun n member => by simpa using List.all_eq_true.mp silent n member⟩
  obtain ⟨m, member, unlike⟩ := List.any_eq_true.mp unlike
  cases replaced : m.replaced? with
  | none =>
    rw [replaced] at unlike
    cases unlike
  | some both =>
    rw [replaced] at unlike
    exact ⟨m, member, both.1, both.2, replaced, by simpa using unlike⟩

end ProbCore
