import ProbCore.Proofs.Chronicle
import ProbCore.Proofs.StrategyValues

/-! What strategies make of the steps that are handed to them. An execution that comes to a bare
value, having skipped its final continuation, makes its strategy fail, whichever execution it is and
whatever was found before. The values that a strategy returns are those that its executions came to
at their final continuations. -/

namespace ProbCore

/-- No execution skipped its final continuation. -/
def Clean (handed : List Handed) : Prop := ∀ h ∈ handed, ∀ v, h.step ≠ .stray v

theorem Clean.cons {handed : List Handed} {h : Handed} (clean : Clean handed)
    (complete : ∀ v, h.step ≠ .stray v) : Clean (h :: handed) :=
  List.forall_mem_cons.mpr ⟨complete, clean⟩

/-- The failure reports each execution that skipped its final continuation, unless fuel ran out. -/
def Reports (handed : List Handed) (e : Failure) : Prop :=
  ∀ h ∈ handed, ∀ v, h.step = .stray v → e = .inference (.strayResult v) ∨ e = .outOfFuel

theorem Clean.reports {handed : List Handed} (clean : Clean handed) (e : Failure) :
    Reports handed e := fun h member v stray => absurd stray (clean h member v)

/-- An execution under a strategy at this depth came to its final continuation with this value. -/
def Halted (depth : Nat) (handed : List Handed) (v : Value) : Prop :=
  ∃ s, ⟨depth, .exit s v⟩ ∈ handed

theorem Halted.later {depth : Nat} {before handed : List Handed} {v : Value}
    (halted : Halted depth before v) (more : before <:+ handed) : Halted depth handed v :=
  halted.imp fun _ member => more.subset member

/-- It did so after these steps. -/
def HaltedAfter (since : List Handed) (depth : Nat) (handed : List Handed) (v : Value) : Prop :=
  ∃ s earlier, since <:+ earlier ∧ ⟨depth, .exit s v⟩ :: earlier <:+ handed

theorem HaltedAfter.later {since before handed : List Handed} {depth : Nat} {v : Value}
    (halted : HaltedAfter since depth before v) (more : before <:+ handed) :
    HaltedAfter since depth handed v := by
  obtain ⟨s, earlier, after, inside⟩ := halted
  exact ⟨s, earlier, after, inside.trans more⟩

theorem HaltedAfter.halted {since handed : List Handed} {depth : Nat} {v : Value}
    (halted : HaltedAfter since depth handed v) : Halted depth handed v := by
  obtain ⟨s, earlier, _, inside⟩ := halted
  exact ⟨s, inside.subset List.mem_cons_self⟩

/-- What holds of the state that a reaction keeps or of the outcome that it comes to. -/
def Reaction.All {S O : Type} (keeps : S → Prop) (good : O → Prop) : Reaction S O → Prop
  | .deliver state _ => keeps state
  | .finish outcome => good outcome

namespace Chronicled

variable {α β γ : Type}

/-- How a computation may end that began after these steps. It comes to something good with all
executions complete, or it fails and reports those that were not. -/
inductive Ends (before : List Handed) (good : List Handed → α → Prop) :
    EStateM.Result Failure Chronicle α → Prop where
  | ok {a : α} {c : Chronicle} : before <:+ c.handed → Clean c.handed → good c.handed a →
      Ends before good (.ok a c)
  | error {e : Failure} {c : Chronicle} : before <:+ c.handed → Reports c.handed e →
      Ends before good (.error e c)

theorem Ends.since {before after : List Handed} {good : List Handed → α → Prop}
    {r : EStateM.Result Failure Chronicle α} (ends : Ends after good r) (since : before <:+ after) :
    Ends before good r := by
  cases ends with
  | ok grown clean holds => exact .ok (since.trans grown) clean holds
  | error grown reports => exact .error (since.trans grown) reports

/-- Once these steps were handed over, and as long as all executions were complete, the computation
ends well. -/
def Orderly (known : List Handed) (good : List Handed → α → Prop) (x : Chronicled α) : Prop :=
  ∀ c, Clean c.handed → known <:+ c.handed → Ends c.handed good (x c)

namespace Orderly

variable {known : List Handed} {good : List Handed → α → Prop} {fine : List Handed → β → Prop}
  {x : Chronicled α}

theorem later {more : List Handed} (orderly : Orderly known good x) (since : known <:+ more) :
    Orderly more good x := fun c clean present => orderly c clean (since.trans present)

theorem pure {a : α} (holds : ∀ handed, known <:+ handed → good handed a) :
    Orderly known good (Pure.pure a : Chronicled α) :=
  fun _ clean present => .ok List.suffix_rfl clean (holds _ present)

theorem throw (e : Failure) : Orderly known good (throw e : Chronicled α) :=
  fun _ clean _ => .error List.suffix_rfl (clean.reports e)

theorem bind {f : α → Chronicled β} (first : Orderly known good x)
    (rest : ∀ a handed, known <:+ handed → good handed a → Orderly handed fine (f a)) :
    Orderly known fine (x >>= f) := by
  intro c clean present
  have begins := first c clean present
  cases ran : x c with
  | ok a c' =>
    rw [ran] at begins
    rw [bind_of_ok ran]
    cases begins with
    | ok grown clean' holds =>
      have goes := rest a c'.handed (present.trans grown) holds c' clean' List.suffix_rfl
      cases ran' : f a c' with
      | ok b c'' =>
        rw [ran'] at goes
        cases goes with
        | ok more clean holds => exact .ok (grown.trans more) clean holds
      | error e c'' =>
        rw [ran'] at goes
        cases goes with
        | error more reports => exact .error (grown.trans more) reports
  | error e c' =>
    rw [ran] at begins
    rw [bind_of_error ran]
    cases begins with
    | error grown reports => exact .error grown reports

theorem ite {p : Prop} [Decidable p] {y : Chronicled α} (yes : Orderly known good x)
    (no : Orderly known good y) : Orderly known good (if p then x else y) := by
  split
  · exact yes
  · exact no

/-- What hands no step over is orderly. -/
theorem quiet {act : Run α} {known_ : α → Prop} (yields : ∀ a, Yields act a → known_ a) :
    Orderly known (fun _ a => known_ a) (quiet act) := by
  intro c clean present
  cases ran : act c.world with
  | ok a w =>
    rw [quiet_of_ok ran]
    exact .ok List.suffix_rfl clean (yields a ⟨_, _, ran⟩)
  | error e w =>
    rw [quiet_of_error ran]
    exact .error List.suffix_rfl (clean.reports e)

theorem silent (act : Run α) : Orderly known (fun _ _ => True) (Chronicled.quiet act) :=
  .quiet fun _ _ => trivial

theorem lift {r : Except Failure α} (holds : ∀ a handed, known <:+ handed → r = .ok a → good handed a) :
    Orderly known good (Host.lift r : Chronicled α) := by
  cases r with
  | ok a => exact .pure fun handed present => holds a handed present rfl
  | error e => exact .throw e

theorem mapM {f : γ → Chronicled α} {cs : List γ}
    (lasting : ∀ {before handed a}, before <:+ handed → good before a → good handed a)
    (each : ∀ c ∈ cs, Orderly known good (f c)) :
    Orderly known (fun handed as => ∀ a ∈ as, good handed a) (cs.mapM f) := by
  induction cs generalizing known with
  | nil =>
    rw [List.mapM_nil]
    exact .pure fun _ _ => nofun
  | cons c cs ih =>
    rw [List.mapM_cons]
    refine (each c List.mem_cons_self).bind fun a handed present here => ?_
    refine (ih fun c member => (each c (List.mem_cons_of_mem _ member)).later present).bind
      fun as handed' present' there => ?_
    refine .pure fun handed'' present'' => List.forall_mem_cons.mpr ⟨?_, fun b member => ?_⟩
    · exact lasting (present'.trans present'') here
    · exact lasting present'' (there b member)

theorem bracket {enter : Chronicle → Chronicle} {leave : Chronicle → Chronicle → Chronicle}
    (orderly : Orderly known good x) (enters : ∀ c, (enter c).handed = c.handed)
    (leaves : ∀ c c', (leave c c').handed = c'.handed) :
    Orderly known good (ProbCore.bracket enter leave x) := by
  intro c clean present
  have inside := orderly (enter c) ((enters c).symm ▸ clean) ((enters c).symm ▸ present)
  unfold ProbCore.bracket
  cases ran : x (enter c) with
  | ok a c' =>
    rw [ran] at inside
    cases inside with
    | ok grown clean holds =>
      rw [enters] at grown
      exact .ok ((leaves c c').symm ▸ grown) ((leaves c c').symm ▸ clean) ((leaves c c').symm ▸ holds)
  | error e c' =>
    rw [ran] at inside
    cases inside with
    | error grown reports =>
      rw [enters] at grown
      exact .error ((leaves c c').symm ▸ grown) ((leaves c c').symm ▸ reports)

theorem installed (a : Active) (orderly : Orderly known good x) :
    Orderly known good (Chronicled.installed a x) :=
  orderly.bracket (fun _ => rfl) fun _ _ => rfl

theorem nested (orderly : Orderly known good x) : Orderly known good (Host.nested x) :=
  (silent _).bind fun _ _ present _ => (silent _).bind fun _ _ present' _ =>
    installed _ (orderly.later (present.trans present'))

/-- The loss of all weight says that all executions were complete. -/
theorem unlessDegenerate (orderly : Orderly known good x) :
    Orderly known (fun handed o => ∀ a, o = some a → good handed a) (Host.unlessDegenerate x) := by
  intro c clean present
  have inside := orderly c clean present
  change Ends c.handed _ (caught x c)
  unfold caught
  cases ran : x c with
  | ok a c' =>
    rw [ran] at inside
    cases inside with
    | ok grown clean holds =>
      refine .ok grown clean fun a' same => ?_
      obtain rfl := Option.some.inj same
      exact holds
  | error e c' =>
    rw [ran] at inside
    cases inside with
    | error grown reports =>
      cases e with
      | degenerate =>
        refine .ok grown (fun h member v stray => ?_) nofun
        obtain other | other := reports h member v stray <;> cases other
      | _ => exact .error grown reports

end Orderly

/-- How a resumed execution may come to its next step. If any execution so far skipped its final
continuation, then it is this one. -/
inductive Arrives (before : List Handed) (depth : Nat) :
    EStateM.Result Failure Chronicle (Step Rest Dist Float) → Prop where
  | ok {step : Step Rest Dist Float} {c : Chronicle} {earlier : List Handed} :
      before <:+ earlier → c.handed = ⟨depth, step⟩ :: earlier →
      (∀ h ∈ c.handed, ∀ v, h.step = .stray v → step = .stray v) → Arrives before depth (.ok step c)
  | error {e : Failure} {c : Chronicle} : before <:+ c.handed → Reports c.handed e →
      Arrives before depth (.error e c)

/-- The computation hands its strategy at this depth the next step of an execution. -/
def Hands (depth : Nat) (x : Chronicled (Step Rest Dist Float)) : Prop :=
  ∀ c, Clean c.handed → Arrives c.handed depth (x c)

theorem handing_hands {depth : Nat} {x : Chronicled (Step Rest Dist Float)}
    (orderly : Orderly [] (fun _ _ => True) x) : Hands depth (handing depth x) := by
  intro c clean
  have inside := orderly c clean List.nil_suffix
  unfold handing
  cases ran : x c with
  | ok step c' =>
    rw [ran] at inside
    rw [bind_of_ok ran]
    cases inside with
    | ok grown clean' _ =>
      refine .ok grown rfl fun h member v stray => ?_
      obtain rfl | member := List.mem_cons.mp member
      · exact stray
      · exact absurd stray (clean' h member v)
  | error e c' =>
    rw [ran] at inside
    rw [bind_of_error ran]
    cases inside with
    | error grown reports => exact .error grown reports

/-- A handler that keeps something of its state, and comes to good outcomes. -/
structure Minds {S O : Type} (depth : Nat) (keeps : List Handed → S → Prop)
    (good : List Handed → O → Prop) (h : Handler Chronicled Rest Dist Float S O) : Prop where
  lasting {before handed : List Handed} {state : S} : before <:+ handed → keeps before state →
    keeps handed state
  lasts {before handed : List Handed} {outcome : O} : before <:+ handed → good before outcome →
    good handed outcome
  sample {known : List Handed} {state : S} (s : Store) (k : Rest) (a : Address) (d : Dist) :
    keeps known state →
    Orderly known (fun handed r => r.All (keeps handed) (good handed)) (h.sample state s k a d)
  factor {known : List Handed} {state : S} (s : Store) (k : Rest) (a : Address) (x : Float) :
    keeps known state →
    Orderly known (fun handed r => r.All (keeps handed) (good handed)) (h.factor state s k a x)
  exit {earlier : List Handed} {state : S} (s : Store) (v : Value) : keeps earlier state →
    Orderly (⟨depth, .exit s v⟩ :: earlier) good (h.exit state s v)

/-- What goes on with an execution has to fail if that skipped its final continuation. -/
theorem Hands.bind {depth : Nat} {known : List Handed} {good : List Handed → α → Prop}
    {x : Chronicled (Step Rest Dist Float)} {f : Step Rest Dist Float → Chronicled α}
    (hands : Hands depth x)
    (strays : ∀ v, ∃ e, f (.stray v) = throw e ∧
      (e = .inference (.strayResult v) ∨ e = .outOfFuel))
    (rest : ∀ step earlier, known <:+ earlier → Orderly (⟨depth, step⟩ :: earlier) good (f step)) :
    Orderly known good (x >>= f) := by
  intro c clean present
  have arrives := hands c clean
  cases ran : x c with
  | error e c' =>
    rw [ran] at arrives
    rw [bind_of_error ran]
    cases arrives with
    | error grown reports => exact .error grown reports
  | ok step c' =>
    rw [ran] at arrives
    rw [bind_of_ok ran]
    cases arrives with
    | ok grown latest only =>
      have grown' := grown.trans (latest ▸ List.suffix_cons _ _)
      by_cases stray : ∃ v, step = .stray v
      · obtain ⟨v, rfl⟩ := stray
        obtain ⟨e, fails, reported⟩ := strays v
        rw [fails]
        refine .error grown' fun h member v' other => ?_
        obtain rfl := Step.stray.inj (only h member v' other)
        exact reported
      · have clean' : Clean c'.handed := fun h member v other => stray ⟨v, only h member v other⟩
        exact (rest step _ (present.trans grown) c' clean' (latest ▸ List.suffix_rfl)).since grown'

/-- Whatever a handler does with an execution, one that skips its final continuation makes it
fail. -/
theorem drive_orderly {S O : Type} {depth : Nat} {keeps : List Handed → S → Prop}
    {good : List Handed → O → Prop} {h : Handler Chronicled Rest Dist Float S O}
    {resume : Resume Chronicled Rest Dist Float} (minds : Minds depth keeps good h)
    (resumes : ∀ k s v, Hands depth (resume k s v)) {fuel : Nat} {state : S} {known : List Handed}
    {x : Chronicled (Step Rest Dist Float)} (hands : Hands depth x) (kept : keeps known state) :
    Orderly known good (x >>= drive resume h fuel state) := by
  induction fuel generalizing state known x with
  | zero => exact hands.bind (fun v => ⟨_, rfl, .inr rfl⟩) fun _ _ _ => .throw _
  | succ fuel ih =>
    have reacts {act : Chronicled (Reaction S O)} {known : List Handed} (s : Store) (k : Rest)
        (orderly : Orderly known (fun handed r => r.All (keeps handed) (good handed)) act) :
        Orderly known good (do
          match ← act with
          | .deliver state value => do drive resume h fuel state (← resume k s value)
          | .finish outcome => Pure.pure outcome) := by
      refine orderly.bind fun r handed _ holds => ?_
      cases r with
      | deliver state value => exact ih (resumes k s value) holds
      | finish outcome => exact .pure fun _ more => minds.lasts more holds
    refine hands.bind (fun v => ⟨_, rfl, .inl rfl⟩) fun step earlier present => ?_
    have before := minds.lasting present kept
    have kept := minds.lasting (present.trans (List.suffix_cons ⟨depth, step⟩ earlier)) kept
    cases step with
    | sample s k a d => exact reacts s k (minds.sample s k a d kept)
    | factor s k a score => exact reacts s k (minds.factor s k a score kept)
    | exit s value => exact minds.exit s value before
    | stray value => exact .throw _

end Chronicled

end ProbCore
