import ProbCore.Proofs.Relabelling
import ProbCore.Proofs.Tracking
import ProbCore.Strategy.Method

/-! Strategies are parametric in the rests that they resume and in the host that they run on. If
hosts serve alike and corresponding rests come to corresponding steps, a strategy does the same on
both sides, with its data relabelled. It does so in the end if that is how its rests behave. -/

namespace ProbCore

variable {J ι σ τ κ κ' D R : Type} {T : Tie ι σ τ} {L : Relabelling T.place κ κ'}

/-- Corresponding rests come to corresponding steps. -/
def Resumes (L : Relabelling T.place κ κ') (resume : Resume (EStateM Failure σ) κ D R)
    (resume' : Resume (EStateM Failure τ) κ' D R) : Prop :=
  ∀ k s v, Mirrors T (Step.relabel L) (resume k s v) (resume' (L.rest k) s v)

/-- Where nothing is moved, rests may keep their names. -/
theorem Resumes.unmoved {holds : ι → σ → τ → Prop}
    {resume : Resume (EStateM Failure σ) κ D R} {resume' : Resume (EStateM Failure τ) κ D R}
    (resumes : ∀ k s v, Mirrors ⟨id, holds⟩ id (resume k s v) (resume' k s v)) :
    Resumes (T := ⟨id, holds⟩) .unmoved resume resume' := by
  intro k s v
  rw [Step.relabel_unmoved]
  exact resumes k s v

/-- Corresponding reactions in corresponding states, which `φ` and `ψ` relabel. -/
structure Handles {S S' O O' : Type} (L : Relabelling T.place κ κ') (φ : S → S') (ψ : O → O')
    (h : Handler (EStateM Failure σ) κ D R S O) (h' : Handler (EStateM Failure τ) κ' D R S' O') :
    Prop where
  sample (state : S) (s : Store) (k : κ) (a : Address) (d : D) :
    Mirrors T (Reaction.map φ ψ) (h.sample state s k a d)
      (h'.sample (φ state) s (L.rest k) (T.place a) d)
  factor (state : S) (s : Store) (k : κ) (a : Address) (x : R) :
    Mirrors T (Reaction.map φ ψ) (h.factor state s k a x)
      (h'.factor (φ state) s (L.rest k) (T.place a) x)
  exit (state : S) (s : Store) (v : Value) :
    Mirrors T ψ (h.exit state s v) (h'.exit (φ state) s v)

/-- An allowance of fuel beside a fixed amount: the same, or no less if it is giving up to run out
of fuel. -/
def Patience.Suffices (P : Patience J) (fuel : J → Nat) (fuel' : Nat) : Prop :=
  ∀ᶠ j in P.enough, fuel j = fuel' ∨ (P.lost .outOfFuel ∧ fuel' ≤ fuel j)

theorem Patience.Suffices.step {P : Patience J} {fuel : J → Nat} {fuel' : Nat}
    (suffices_ : P.Suffices fuel (fuel' + 1)) :
    ∃ less : J → Nat, P.Suffices less fuel' ∧ ∀ᶠ j in P.enough, fuel j = less j + 1 := by
  refine ⟨fun j => fuel j - 1, ?_, ?_⟩
  · filter_upwards [suffices_] with j enough
    obtain same | ⟨lost, enough⟩ := enough
    · exact .inl (by omega)
    · exact .inr ⟨lost, by omega⟩
  · filter_upwards [suffices_] with j enough
    omega

variable [Host (EStateM Failure σ) D R] [Host (EStateM Failure τ) D R]

/-- Without any fuel both sides run out of it, or the second gives up. -/
theorem Tie.Sustains.unfuelled {P : Patience J} (sustains : T.Sustains P (D := D) (R := R))
    {rounds : J → Nat} (fuelled : P.Suffices rounds 0) {α β : Type} {φ : α → β}
    {x : J → EStateM Failure σ α} (out : ∀ j, rounds j = 0 → x j = Host.fail .outOfFuel) :
    Tracks P T φ x (Host.fail .outOfFuel : EStateM Failure τ β) := by
  by_cases lost : P.lost .outOfFuel
  · exact sustains.lost lost
  · refine (sustains.serves.refuse .outOfFuel).tracks.of_eventually ?_
    filter_upwards [fuelled] with j enough
    obtain none | ⟨gone, _⟩ := enough
    · exact out j none
    · exact absurd gone lost

/-- Two hosts that serve alike, with rests that strategies resume on them and the fuel that the
strategies have. Executions driven by corresponding handlers come to the same. -/
structure Alongside (P : Patience J) (L : Relabelling T.place κ κ')
    (resume : J → Resume (EStateM Failure σ) κ D R) (resume' : Resume (EStateM Failure τ) κ' D R)
    (fuel : J → Nat) (fuel' : Nat) : Prop where
  sustains : T.Sustains P (D := D) (R := R)
  fuelled : P.Suffices fuel fuel'
  drives {S S' O O' : Type} {φ : S → S'} {ψ : O → O'} {h : Handler (EStateM Failure σ) κ D R S O}
    {h' : Handler (EStateM Failure τ) κ' D R S' O'} (handles : Handles L φ ψ h h') (state : S)
    (k : κ) (s : Store) (v : Value) :
    Tracks P T ψ (fun j => resume j k s v >>= drive (resume j) h (fuel j) state)
      (resume' (L.rest k) s v >>= drive resume' h' fuel' (φ state))

variable {P : Patience J} {resume : J → Resume (EStateM Failure σ) κ D R}
  {resume' : Resume (EStateM Failure τ) κ' D R} {fuel : J → Nat} {fuel' : Nat}

section

variable {S S' O O' : Type} {φ : S → S'} {ψ : O → O'} {h : Handler (EStateM Failure σ) κ D R S O}
  {h' : Handler (EStateM Failure τ) κ' D R S' O'}

/-- Corresponding handlers react alike to a step, and then whatever comes of its rest. -/
theorem react_tracks (serves : T.Serves (D := D) (R := R)) (handles : Handles L φ ψ h h')
    (onward : ∀ state k s v, Tracks P T ψ (fun j => resume j k s v >>= drive (resume j) h (fuel j) state)
      (resume' (L.rest k) s v >>= drive resume' h' fuel' (φ state)))
    (state : S) (step : Step κ D R) :
    Tracks P T ψ (fun j => drive (resume j) h (fuel j + 1) state step)
      (drive resume' h' (fuel' + 1) (φ state) (step.relabel L)) := by
  cases step with
  | sample s k a d =>
    refine (handles.sample state s k a d).tracks.bind fun reaction => ?_
    cases reaction with
    | deliver state v => exact onward state k s v
    | finish outcome => exact .pure outcome
  | factor s k a x =>
    refine (handles.factor state s k a x).tracks.bind fun reaction => ?_
    cases reaction with
    | deliver state v => exact onward state k s v
    | finish outcome => exact .pure outcome
  | exit s v => exact (handles.exit state s v).tracks
  | stray v => exact (serves.refuse _).tracks

theorem drive_tracks (sustains : T.Sustains P (D := D) (R := R))
    (resumes : ∀ k s v,
      Tracks P T (Step.relabel L) (fun j => resume j k s v) (resume' (L.rest k) s v))
    (fuelled : P.Suffices fuel fuel') (handles : Handles L φ ψ h h') (state : S) (step : Step κ D R) :
    Tracks P T ψ (fun j => drive (resume j) h (fuel j) state step)
      (drive resume' h' fuel' (φ state) (step.relabel L)) := by
  induction fuel' generalizing fuel state step with
  | zero => exact sustains.unfuelled fuelled fun j none => by rw [none]; rfl
  | succ fuel' ih =>
    obtain ⟨less, enough, same⟩ := fuelled.step
    refine Tracks.of_eventually (x := fun j => drive (resume j) h (less j + 1) state step) ?_
      (same.mono fun j same => by rw [same])
    exact react_tracks sustains.serves handles
      (fun state k s v => (resumes k s v).bind fun step => ih enough state step) state step

end

namespace Alongside

variable {α β : Type} {φ : α → β}

/-- Rests that come to corresponding steps are driven to the same. -/
theorem of_resumes (sustains : T.Sustains P (D := D) (R := R))
    (resumes : ∀ k s v,
      Tracks P T (Step.relabel L) (fun j => resume j k s v) (resume' (L.rest k) s v))
    (fuelled : P.Suffices fuel fuel') : Alongside P L resume resume' fuel fuel' where
  sustains := sustains
  fuelled := fuelled
  drives handles state k s v :=
    (resumes k s v).bind fun step => drive_tracks sustains resumes fuelled handles state step

/-- Where nothing is moved, rests may keep their names. -/
theorem unmoved {holds : ι → σ → τ → Prop} {resume : J → Resume (EStateM Failure σ) κ D R}
    {resume' : Resume (EStateM Failure τ) κ D R}
    (sustains : Tie.Sustains ⟨id, holds⟩ P (D := D) (R := R))
    (resumes : ∀ k s v, Tracks P ⟨id, holds⟩ id (fun j => resume j k s v) (resume' k s v))
    (fuelled : P.Suffices fuel fuel') :
    Alongside (T := ⟨id, holds⟩) P .unmoved resume resume' fuel fuel' := by
  refine of_resumes sustains (fun k s v => ?_) fuelled
  rw [Step.relabel_unmoved]
  exact resumes k s v

theorem serves (along : Alongside P L resume resume' fuel fuel') : T.Serves (D := D) (R := R) :=
  along.sustains.serves

theorem refuse (along : Alongside P L resume resume' fuel fuel') (e : Failure) :
    Tracks P T φ (fun _ => (Host.fail e : EStateM Failure σ α))
      (Host.fail e : EStateM Failure τ β) := (along.serves.refuse e).tracks

theorem lift (along : Alongside P L resume resume' fuel fuel') (r : Except Failure α) :
    Tracks P T id (fun _ => (Host.lift r : EStateM Failure σ α))
      (Host.lift r : EStateM Failure τ α) := (along.serves.lift r).tracks

theorem note (along : Alongside P L resume resume' fuel fuel') {n : Notice}
    (placeless : n.placeless = true) :
    Tracks P T id (fun _ => (Host.note n : EStateM Failure σ Unit))
      (Host.note n : EStateM Failure τ Unit) := (along.serves.note placeless).tracks

theorem logUniform (along : Alongside P L resume resume' fuel fuel') :
    Tracks P T id (fun _ => (Host.logUniform : EStateM Failure σ R))
      (Host.logUniform : EStateM Failure τ R) := along.serves.logUniform.tracks

theorem unfuelled (along : Alongside P L resume resume' fuel fuel') {rounds : J → Nat}
    (fuelled : P.Suffices rounds 0) {x : J → EStateM Failure σ α}
    (out : ∀ j, rounds j = 0 → x j = Host.fail .outOfFuel) :
    Tracks P T φ x (Host.fail .outOfFuel : EStateM Failure τ β) :=
  along.sustains.unfuelled fuelled out

/-- What becomes of the outcome of a driven execution. -/
theorem driven (along : Alongside P L resume resume' fuel fuel') {S S' O O' : Type} {χ : S → S'}
    {ψ : O → O'} {h : Handler (EStateM Failure σ) κ D R S O}
    {h' : Handler (EStateM Failure τ) κ' D R S' O'} (handles : Handles L χ ψ h h') (state : S)
    (k : κ) (s : Store) (v : Value) {f : J → O → EStateM Failure σ α} {g : O' → EStateM Failure τ β}
    (rest : ∀ o, Tracks P T φ (fun j => f j o) (g (ψ o))) :
    Tracks P T φ
      (fun j => resume j k s v >>= fun step => drive (resume j) h (fuel j) state step >>= f j)
      (resume' (L.rest k) s v >>= fun step => drive resume' h' fuel' (χ state) step >>= g) := by
  simp only [← bind_assoc]
  exact (along.drives handles state k s v).bind rest

end Alongside

/-- Rests that correspond at once do so with a single allowance, the same fuel. -/
theorem Resumes.along {resume : Resume (EStateM Failure σ) κ D R}
    (resumes : Resumes L resume resume') (serves : T.Serves (D := D) (R := R)) (fuel : Nat) :
    Alongside .single L (fun _ => resume) resume' (fun _ => fuel) fuel :=
  .of_resumes serves.sustains (fun k s v => (resumes k s v).tracks) (.of_forall fun _ => .inl rfl)

variable [Score R]

namespace Enumeration

theorem fork_mirrors (serves : T.Serves (D := D) (R := R)) (d : D) (k : κ) (s : Store) (score : R)
    (vs : List Value) :
    Mirrors T (List.map (·.relabel L)) (fork d k s score vs : EStateM Failure σ _)
      (fork d (L.rest k) s score vs) := by
  induction vs with
  | nil => exact .pure []
  | cons v vs ih =>
    refine (serves.logDensity d v).bind fun lp => ih.bind fun branches => ?_
    by_cases impossible : Score.isImpossible lp = true
    · rw [if_pos impossible, id, if_pos impossible]
      exact .pure branches
    · rw [if_neg impossible, id, if_neg impossible]
      exact .pure (_ :: branches)

theorem handles (serves : T.Serves (D := D) (R := R)) :
    Handles L (Search.relabel L) (Search.relabel L) (handler : Handler (EStateM Failure σ) κ D R _ _)
      handler where
  sample st s k _ d := by
    refine (serves.support d).bind fun vs => (fork_mirrors serves d k s st.score vs).bind
      fun branches => ?_
    have pushed := Frontier.pushAll_relabel L st.frontier branches
    rw [show (st.relabel L).frontier = st.frontier.relabel L from rfl, pushed]
    exact .pure (Reaction.finish { st with frontier := st.frontier.pushAll branches })
  factor st _ _ _ x :=
    .ite (.pure (Reaction.finish { st with score := st.score + x }))
      (.pure (Reaction.deliver { st with score := st.score + x } .absent))
  exit st _ v := .pure { st with found := (v, st.score) :: st.found, count := st.count + 1 }

theorem explore_tracks (along : Alongside P L resume resume' fuel fuel') (c : Config)
    {rounds : J → Nat} {rounds' : Nat} (fuelled : P.Suffices rounds rounds') (st : Search κ R) :
    Tracks P T (Search.relabel L) (fun j => explore (resume j) c (fuel j) (rounds j) st)
      (explore resume' c fuel' rounds' (st.relabel L)) := by
  induction rounds' generalizing rounds st with
  | zero => exact along.unfuelled fuelled fun j none => by rw [none]; rfl
  | succ rounds' ih =>
    obtain ⟨less, enough, same⟩ := fuelled.step
    refine Tracks.of_eventually (x := fun j => explore (resume j) c (fuel j) (less j + 1) st) ?_
      (same.mono fun j same => by rw [same])
    simp only [explore, Search.exhausted_relabel]
    refine .ite (.pure st) ?_
    rw [show (st.relabel L).frontier = st.frontier.relabel L from rfl, Frontier.pop?_relabel]
    cases st.frontier.pop? with
    | none => exact .pure st
    | some popped =>
      obtain ⟨b, frontier⟩ := popped
      exact along.driven (handles along.serves) { st with frontier, score := b.score } b.k b.store
        b.value fun st => ih enough st

theorem estimate_tracks (along : Alongside P L resume resume' fuel fuel') (c : Config) (entry : κ)
    (s : Store) :
    Tracks P T id (fun j => estimate (resume j) (fuel j) c entry s)
      (estimate resume' fuel' c (L.rest entry) s) := by
  have searched : Tracks P T (Search.relabel L) (fun j => search (resume j) (fuel j) c entry s)
      (search resume' fuel' c (L.rest entry) s) := by
    have begun := along.driven (handles along.serves) ⟨.empty c.traversal, Score.zero, [], 0⟩ entry s
      .absent (explore_tracks along c along.fuelled)
    rwa [Search.relabel, Frontier.empty_relabel] at begun
  refine searched.bind fun st => .ite (along.refuse _) ?_
  rw [show (st.relabel L).frontier = st.frontier.relabel L from rfl, Frontier.size_relabel]
  exact (along.note rfl).bind fun _ => along.lift _

end Enumeration

namespace Rejection

theorem handles (serves : T.Serves (D := D) (R := R)) (c : Config R) (threshold : R) :
    Handles L id id (handler c threshold : Handler (EStateM Failure σ) κ D R _ _)
      (handler c threshold) where
  sample score _ _ _ d := (serves.draw d).bind fun v => .pure (Reaction.deliver score v)
  factor score _ _ a x :=
    .ite
      (.ite (serves.fail (.positiveFactor (Score.toFloat x) a))
        (.ite (.pure (Reaction.finish none)) (.pure (Reaction.deliver (score + x) .absent))))
      (.pure (Reaction.deliver (score + x) .absent))
  exit _ _ v :=
    .ite (.pure (some v)) (.ite (serves.refuse _) (.ite (.pure (some v)) (.pure none)))

theorem collect_tracks (along : Alongside P L resume resume' fuel fuel') (c : Config R) (entry : κ)
    (s : Store) (remaining made : Nat) (accepted : List Value) (count : Nat) :
    Tracks P T id (fun j => collect (resume j) (fuel j) c entry s remaining made accepted count)
      (collect resume' fuel' c (L.rest entry) s remaining made accepted count) := by
  have attempted : Tracks P T id (fun j => attempt (resume j) (fuel j) c entry s)
      (attempt resume' fuel' c (L.rest entry) s) :=
    along.logUniform.bind fun threshold =>
      along.drives (handles along.serves c threshold) Score.zero entry s .absent
  induction remaining generalizing made accepted count with
  | zero =>
    simp only [collect]
    exact .ite (.pure _) (along.refuse _)
  | succ remaining ih =>
    simp only [collect]
    refine .ite (.pure _) (attempted.bind fun outcome => ?_)
    cases outcome with
    | none => exact ih _ _ _
    | some v => exact ih _ _ _

theorem estimate_tracks (along : Alongside P L resume resume' fuel fuel') (c : Config R) (entry : κ)
    (s : Store) :
    Tracks P T id (fun j => estimate (resume j) (fuel j) c entry s)
      (estimate resume' fuel' c (L.rest entry) s) :=
  (collect_tracks along c entry s _ _ _ _).bind fun _ => (along.note rfl).bind fun _ => along.lift _

end Rejection

namespace Kernel

theorem carriedOver_mirrors (serves : T.Serves (D := D) (R := R)) (old : Option (Trace κ D R))
    (tape : Recording κ D R) (a : Address) (d : D) :
    Mirrors T id (carriedOver? old tape a d : EStateM Failure σ _)
      (carriedOver? (old.map (·.relabel L)) (tape.relabel L) (T.place a) d) := by
  have looked : (old.map (·.relabel L)).bind (·.choiceAt? (T.place a)) =
      (old.bind (·.choiceAt? a)).map (·.relabel L) := by
    cases old with
    | none => rfl
    | some t => exact t.choiceAt?_relabel L a
  unfold carriedOver?
  rw [looked]
  cases old.bind (·.choiceAt? a) with
  | none => exact .pure none
  | some c =>
    rw [show (tape.relabel L).reused = tape.reused.map T.place from rfl]
    dsimp only [Option.map_some]
    rw [L.contains_place]
    refine .ite (.pure none) ((serves.accepts d c.value).bind fun accepted => ?_)
    exact .pure (if accepted then some c.value else none)

theorem handles (serves : T.Serves (D := D) (R := R)) (limit : Option Nat)
    (old : Option (Trace κ D R)) :
    Handles L (Recording.relabel L) (Option.map (Recorded.relabel L))
      (handler limit old : Handler (EStateM Failure σ) κ D R _ _)
      (handler limit (old.map (·.relabel L))) where
  sample tape s k a d := by
    dsimp only [handler]
    rw [L.place_hashable]
    refine .ite (serves.refuse _) ((carriedOver_mirrors serves old tape a d).bind fun carried => ?_)
    cases carried with
    | some v =>
      refine (serves.logDensity d v).bind fun lp => .ite (.pure (Reaction.finish none)) ?_
      exact .pure (Reaction.deliver ({ tape with reused := a :: tape.reused }.record s k a d v lp) v)
    | none =>
      refine (serves.draw d).bind fun v =>
        (serves.logDensity d v).bind fun lp => .ite (.pure (Reaction.finish none)) ?_
      exact .pure (Reaction.deliver ({ tape with fresh := tape.fresh + lp }.record s k a d v lp) v)
  factor tape s k a x := by
    refine .ite (.pure (Reaction.finish none)) ?_
    cases limit with
    | none =>
      exact .pure
        (Reaction.deliver { tape with score := tape.score + x, factors := tape.factors + 1 } .absent)
    | some n =>
      refine .ite (.pure_of_eq ?_)
        (.pure (Reaction.deliver
          { tape with score := tape.score + x, factors := tape.factors + 1 } .absent))
      simp only [Reaction.map, Option.map_some, Recording.finish_relabel]
      rfl
  exit tape s v := by
    refine .pure_of_eq ?_
    rw [Option.map_some, Recording.finish_relabel]
    rfl

theorem extend_tracks (along : Alongside P L resume resume' fuel fuel') (t : Trace κ D R)
    (limit : Option Nat) :
    Tracks P T (Option.map (Trace.relabel L)) (fun j => extend (resume j) (fuel j) t limit)
      (extend resume' fuel' (t.relabel L) limit) := by
  obtain ⟨choices, score, prior, factors, store, ending⟩ := t
  cases ending with
  | done v => exact .pure (some _)
  | suspended k =>
    have driven := along.drives (handles (L := L) along.serves limit none)
      ⟨choices.reverse, score, prior, factors, [], Score.zero⟩ k store .absent
    simp only [Recording.relabel, List.map_reverse, List.map_nil] at driven
    simp only [extend, Trace.relabel, ← bind_assoc]
    refine driven.bind fun result => ?_
    cases result with
    | none => exact .pure none
    | some r => exact .pure (some r.trace)

theorem findStart_tracks (along : Alongside P L resume resume' fuel fuel') (entry : κ) (s : Store)
    (limit : Option Nat) (attempts : Given Nat) :
    Tracks P T (Trace.relabel L) (fun j => findStart (resume j) (fuel j) entry s limit attempts)
      (findStart resume' fuel' (L.rest entry) s limit attempts) := by
  suffices goes : ∀ remaining attempt,
      Tracks P T (Trace.relabel L)
        (fun j => findStart.go (resume j) (fuel j) entry s limit attempts remaining attempt)
        (findStart.go resume' fuel' (L.rest entry) s limit attempts remaining attempt) from goes _ _
  intro remaining
  induction remaining with
  | zero => exact fun _ => along.refuse _
  | succ remaining ih =>
    intro attempt
    refine (extend_tracks along (.start entry s) limit).bind fun found => ?_
    cases found with
    | none => exact ih _
    | some t => exact .ite ((along.note rfl).bind fun _ => .pure t) (ih _)

theorem regenerate_tracks (along : Alongside P L resume resume' fuel fuel') (t : Trace κ D R)
    (limit : Option Nat) :
    Tracks P T (Option.map fun (new, x) => (new.relabel L, x))
      (fun j => regenerate (resume j) (fuel j) t limit)
      (regenerate resume' fuel' (t.relabel L) limit) := by
  have sites : (t.relabel L).choices.length = t.choices.length := List.length_map _
  unfold regenerate
  rw [sites]
  refine .ite (.pure none) ((along.serves.indexBelow _).tracks.bind fun i => ?_)
  rw [show (t.relabel L).choices = t.choices.map (·.relabel L) from rfl, id, List.getElem?_map]
  cases t.choices[i]? with
  | none => exact .pure none
  | some site =>
    refine (along.serves.draw site.dist).tracks.bind fun v =>
      (along.serves.logDensity site.dist v).tracks.bind fun lp =>
        .ite (.pure none) ?_
    have driven := along.drives (handles (L := L) along.serves limit (some t))
      (Recording.record ⟨(t.choices.take i).reverse, site.score, site.prior, site.factors,
        (t.choices.take (i + 1)).map (·.address), Score.zero⟩ site.store site.k site.address
        site.dist v lp) site.k site.store v
    rw [Recording.record_relabel] at driven
    simp only [Recording.relabel, List.map_reverse, List.map_take, List.map_map] at driven ⊢
    simp only [← bind_assoc]
    refine driven.bind fun result => ?_
    cases result with
    | none => exact .pure none
    | some new =>
      refine .pure_of_eq ?_
      have left := dropped_relabel L (t.choices.drop (i + 1)) new.reused
      rw [List.map_drop] at left
      simp only [Option.map_some, Recorded.relabel, Trace.relabel, List.length_map, left]
      rfl

theorem move_tracks (along : Alongside P L resume resume' fuel fuel') (t : Trace κ D R)
    (limit : Option Nat) :
    Tracks P T (fun (t, moved) => (t.relabel L, moved)) (fun j => move (resume j) (fuel j) t limit)
      (move resume' fuel' (t.relabel L) limit) := by
  refine (regenerate_tracks along t limit).bind fun proposed => ?_
  cases proposed with
  | none => exact .pure (t, false)
  | some proposed =>
    exact along.logUniform.bind fun _ => .ite (.pure (proposed.1, true)) (.pure (t, false))

omit [Score R] in
theorem exitValue_mirrors (serves : T.Serves (D := D) (R := R)) (t : Trace κ D R) :
    Mirrors T id (exitValue t : EStateM Failure σ Value) (exitValue (t.relabel L)) := by
  obtain ⟨_, _, _, _, _, ending⟩ := t
  cases ending with
  | done v => exact .pure v
  | suspended k => exact serves.refuse _

end Kernel

namespace Chain

theorem walk_tracks (along : Alongside P L resume resume' fuel fuel') (c : Config)
    (remaining step : Nat) (t : Trace κ D R) (values : List Value) (accepted : Nat) :
    Tracks P T id (fun j => walk (resume j) (fuel j) c remaining step t values accepted)
      (walk resume' fuel' c remaining step (t.relabel L) values accepted) := by
  induction remaining generalizing step t values accepted with
  | zero => exact .pure _
  | succ remaining ih =>
    simp only [walk]
    refine (Kernel.move_tracks along t none).bind fun (t, moved) => ?_
    exact .ite ((Kernel.exitValue_mirrors along.serves t).tracks.bind fun _ => ih _ _ _ _) (ih _ _ _ _)

theorem estimate_tracks (along : Alongside P L resume resume' fuel fuel') (c : Config) (entry : κ)
    (s : Store) :
    Tracks P T id (fun j => estimate (resume j) (fuel j) c entry s)
      (estimate resume' fuel' c (L.rest entry) s) := by
  refine (Kernel.findStart_tracks along entry s none c.startAttempts).bind fun t =>
    (walk_tracks along c _ _ t _ _).bind fun (values, accepted) => ?_
  exact .ite ((along.note rfl).bind fun _ => along.lift _) ((Tracks.pure ()).bind fun _ => along.lift _)

end Chain

namespace Particle

theorem advance_tracks (along : Alongside P L resume resume' fuel fuel') (p : Particle κ D R) :
    Tracks P T (relabel L) (fun j => advance (resume j) (fuel j) p)
      (advance resume' fuel' (p.relabel L)) := by
  unfold advance
  rw [finished_relabel]
  refine .ite (.pure p) ?_
  refine (Kernel.extend_tracks along p.trace (some (p.trace.factors + 1))).bind fun extended => ?_
  cases extended with
  | none => exact .pure (Particle.mk p.trace Score.impossible)
  | some t => exact .pure (Particle.mk t (p.weight + (t.likelihood - p.trace.likelihood)))

theorem select_mirrors (serves : T.Serves (D := D) (R := R)) (method : Resampling)
    (weights : List R) (n : Nat) :
    Mirrors T id (select method weights n : EStateM Failure σ _) (select method weights n) := by
  cases method with
  | multinomial => exact serves.categorical weights n
  | systematic => exact serves.offset.bind fun _ => serves.lift _

end Particle

namespace Filter

theorem resample_mirrors (serves : T.Serves (D := D) (R := R)) (c : Config)
    (ps : List (Particle κ D R)) :
    Mirrors T (List.map (Particle.relabel L)) (resample c ps : EStateM Failure σ _)
      (resample c (ps.map (Particle.relabel L))) := by
  unfold resample
  rw [Particle.weights_relabel, List.length_map]
  refine (Particle.select_mirrors serves _ _ _).bind fun indices => .pure_of_eq ?_
  simp only [id, List.map_filterMap, List.getElem?_map, Option.map_map]
  rfl

theorem moveTrace_tracks (along : Alongside P L resume resume' fuel fuel') (limit moves : Nat)
    (t : Trace κ D R) :
    Tracks P T (Trace.relabel L) (fun j => moveTrace (resume j) (fuel j) limit moves t)
      (moveTrace resume' fuel' limit moves (t.relabel L)) := by
  induction moves generalizing t with
  | zero => exact .pure t
  | succ moves ih => exact (Kernel.move_tracks along t (some limit)).bind fun (t, _) => ih t

theorem rejuvenate_tracks (along : Alongside P L resume resume' fuel fuel') (c : Config) (limit : Nat)
    (p : Particle κ D R) :
    Tracks P T (Particle.relabel L) (fun j => rejuvenate (resume j) (fuel j) c limit p)
      (rejuvenate resume' fuel' c limit (p.relabel L)) :=
  (moveTrace_tracks along limit c.moves p.trace).bind fun t => .pure (Particle.mk t p.weight)

theorem rounds_tracks (along : Alongside P L resume resume' fuel fuel') (c : Config)
    {steps : J → Nat} {steps' : Nat} (fuelled : P.Suffices steps steps') (ps : List (Particle κ D R))
    (logMass : R) (report : Report R) :
    Tracks P T (Outcome.relabel L)
      (fun j => rounds (resume j) (fuel j) c (steps j) ps logMass report)
      (rounds resume' fuel' c steps' (ps.map (Particle.relabel L)) logMass report) := by
  induction steps' generalizing steps ps logMass report with
  | zero => exact along.unfuelled fuelled fun j none => by rw [none]; rfl
  | succ steps' ih =>
    obtain ⟨less, enough, same⟩ := fuelled.step
    refine Tracks.of_eventually
      (x := fun j => rounds (resume j) (fuel j) c (less j + 1) ps logMass report) ?_
      (same.mono fun j same => by rw [same])
    simp only [rounds]
    refine (Tracks.mapM (Particle.advance_tracks along) ps).bind fun ps => ?_
    have all_finished : (ps.map (Particle.relabel L)).all Particle.finished =
        ps.all Particle.finished := by
      simp only [List.all_map, Function.comp_def, Particle.finished_relabel]
    rw [all_finished, Particle.logMeanWeight_relabel, Particle.weights_relabel, frontline_relabel]
    refine .ite ((along.lift _).bind fun _ => .pure_of_eq ?_)
      ((along.lift _).bind fun _ => (resample_mirrors along.serves c ps).tracks.bind fun ps => ?_)
    · simp only [Outcome.relabel, List.filter_map, Function.comp_def, Particle.alive_relabel, id]
    · by_cases still : (c.moves == 0) = true
      · simp only [if_pos still]
        exact (Tracks.pure (φ := List.map (Particle.relabel L)) ps).bind fun ps =>
          (along.note rfl).bind fun _ => ih enough _ _ _
      · simp only [if_neg still]
        exact (Tracks.mapM (rejuvenate_tracks along c _) ps).bind fun ps =>
          (along.note rfl).bind fun _ => ih enough _ _ _

theorem run_tracks (along : Alongside P L resume resume' fuel fuel') (c : Config)
    (ps : List (Particle κ D R)) :
    Tracks P T (Outcome.relabel L) (fun j => run (resume j) (fuel j) c ps)
      (run resume' fuel' c (ps.map (Particle.relabel L))) := by
  unfold run
  rw [List.length_map]
  exact rounds_tracks along c along.fuelled ps _ _

theorem estimate_tracks (along : Alongside P L resume resume' fuel fuel') (c : Config) (entry : κ)
    (s : Store) :
    Tracks P T id (fun j => estimate (resume j) (fuel j) c entry s)
      (estimate resume' fuel' c (L.rest entry) s) := by
  have filtered := run_tracks along c (List.replicate c.particles ⟨.start entry s, Score.zero⟩)
  rw [List.map_replicate] at filtered
  refine filtered.bind fun out => ?_
  have values : (out.relabel L).survivors.map (fun p => p.trace.value?.getD .absent) =
      out.survivors.map fun p => p.trace.value?.getD .absent := by
    simp only [Outcome.relabel, List.map_map, Function.comp_def, Particle.relabel,
      Trace.value?_relabel]
  rw [values, show (out.relabel L).survivors = out.survivors.map (Particle.relabel L) from rfl,
    Particle.weights_relabel]
  exact along.lift _

end Filter

namespace OpeningChain

theorem complete_tracks (along : Alongside P L resume resume' fuel fuel') (c : Config)
    (opening : Trace κ D R) :
    Tracks P T (fun (x, ps) => (x, ps.map (Particle.relabel L)))
      (fun j => complete (resume j) (fuel j) c opening)
      (complete resume' fuel' c (opening.relabel L)) := by
  have filtered := Filter.run_tracks along c.filter
    (List.replicate c.particles ⟨opening, Score.zero⟩)
  rw [List.map_replicate] at filtered
  exact (along.sustains.nested filtered).bind fun out =>
    .pure (opening.likelihood + out.logMass, out.survivors)

theorem drawValue_mirrors (serves : T.Serves (D := D) (R := R)) (ps : List (Particle κ D R)) :
    Mirrors T id (drawValue ps : EStateM Failure σ Value)
      (drawValue (ps.map (Particle.relabel L))) := by
  unfold drawValue
  rw [Particle.weights_relabel]
  refine (Particle.select_mirrors serves _ _ _).bind fun indices => ?_
  cases indices with
  | nil => exact serves.refuse _
  | cons i _ =>
    refine .pure_of_eq ?_
    rw [List.getElem?_map]
    cases ps[i]? with
    | none => rfl
    | some p =>
      simp only [Option.map_some, Option.bind_some, Particle.relabel, Trace.value?_relabel, id]

theorem propose_tracks (along : Alongside P L resume resume' fuel fuel') (opening : Trace κ D R) :
    Tracks P T (Option.map fun (new, x) => (new.relabel L, x))
      (fun j => propose (resume j) (fuel j) opening) (propose resume' fuel' (opening.relabel L)) := by
  have sites : (opening.relabel L).choices.isEmpty = opening.choices.isEmpty :=
    List.isEmpty_map
  unfold propose
  rw [sites]
  refine .ite (.pure (some (opening, Score.zero))) ?_
  refine (Kernel.regenerate_tracks along opening (some 1)).bind fun proposed => ?_
  cases proposed with
  | none => exact .pure none
  | some proposed =>
    exact .pure (some (proposed.1, proposed.2 - (proposed.1.likelihood - opening.likelihood)))

theorem startChain_tracks (along : Alongside P L resume resume' fuel fuel') (c : Config) (entry : κ)
    (s : Store) :
    Tracks P T (State.relabel L) (fun j => startChain (resume j) (fuel j) c entry s)
      (startChain resume' fuel' c (L.rest entry) s) := by
  suffices goes : ∀ remaining attempt,
      Tracks P T (State.relabel L)
        (fun j => startChain.go (resume j) (fuel j) c entry s remaining attempt)
        (startChain.go resume' fuel' c (L.rest entry) s remaining attempt) from goes _ _
  intro remaining
  induction remaining with
  | zero => exact fun _ => along.refuse _
  | succ remaining ih =>
    intro attempt
    refine (Kernel.findStart_tracks along entry s (some 1) c.startAttempts).bind fun opening => ?_
    refine (along.sustains.unlessDegenerate (complete_tracks along c opening)).bind
      fun completed => ?_
    cases completed with
    | none => exact (along.note rfl).bind fun _ => ih _
    | some completed => exact .pure (State.mk opening completed.1 completed.2)

theorem sweep_tracks (along : Alongside P L resume resume' fuel fuel') (c : Config)
    (st : State κ D R) :
    Tracks P T (fun (st, moved) => (st.relabel L, moved))
      (fun j => sweep (resume j) (fuel j) c st) (sweep resume' fuel' c (st.relabel L)) := by
  refine (propose_tracks along st.opening).bind fun proposed => ?_
  cases proposed with
  | none => exact .pure (st, false)
  | some proposed =>
    obtain ⟨opening, logAlpha⟩ := proposed
    refine (along.sustains.unlessDegenerate (complete_tracks along c opening)).bind
      fun completed => ?_
    have counted : ((completed.map fun (x, ps) => (x, ps.map (Particle.relabel L))).getD
          (Score.impossible, [])) =
        ((completed.getD (Score.impossible, [])).1,
          (completed.getD (Score.impossible, [])).2.map (Particle.relabel L)) := by
      cases completed <;> rfl
    dsimp only
    rw [counted]
    generalize completed.getD (Score.impossible, []) = completed
    obtain ⟨logMass, population⟩ := completed
    dsimp only
    rw [List.isEmpty_map]
    exact .ite (.pure (st, false)) (along.logUniform.bind fun _ =>
      .ite (.pure (State.mk opening logMass population, true)) (.pure (st, false)))

theorem sweeps_tracks (along : Alongside P L resume resume' fuel fuel') (c : Config)
    (remaining number : Nat) (st : State κ D R) (values : List Value) (accepted : Nat) :
    Tracks P T id (fun j => sweeps (resume j) (fuel j) c remaining number st values accepted)
      (sweeps resume' fuel' c remaining number (st.relabel L) values accepted) := by
  induction remaining generalizing number st values accepted with
  | zero => exact .pure _
  | succ remaining ih =>
    simp only [sweeps]
    exact (sweep_tracks along c st).bind fun (st, _) =>
      (drawValue_mirrors along.serves st.population).tracks.bind fun _ =>
        (along.note rfl).bind fun _ => ih _ _ _ _

theorem estimate_tracks (along : Alongside P L resume resume' fuel fuel') (c : Config) (entry : κ)
    (s : Store) :
    Tracks P T id (fun j => estimate (resume j) (fuel j) c entry s)
      (estimate resume' fuel' c (L.rest entry) s) :=
  (startChain_tracks along c entry s).bind fun st =>
    (sweeps_tracks along c _ _ st _ _).bind fun _ => along.lift _

end OpeningChain

namespace Cascade

theorem children_mirrors (serves : T.Serves (D := D) (R := R)) (c : Config) (p : Particle κ D R)
    (mean : R) (buffered : Nat) :
    Mirrors T (List.map (Particle.relabel L)) (children c p mean buffered : EStateM Failure σ _)
      (children c (p.relabel L) mean buffered) := by
  refine .ite (serves.logUniform.bind fun u => .pure_of_eq ?_)
    ((serves.lift _).bind fun count => .pure_of_eq ?_)
  · by_cases light : Score.less u (p.weight - mean) = true
    · rw [if_pos light]
      exact if_pos light
    · rw [if_neg light]
      exact if_neg light
  · rw [List.map_replicate]
    rfl

theorem run_tracks (along : Alongside P L resume resume' fuel fuel') (p : Particle κ D R) :
    Tracks P T (Fate.relabel L) (fun j => run (resume j) (fuel j) p)
      (run resume' fuel' (p.relabel L)) := by
  refine (Particle.advance_tracks along p).bind fun p => ?_
  rw [Particle.alive_relabel,
    show (p.relabel L).trace.done = p.trace.done from p.trace.done_relabel L]
  exact .ite (.pure Fate.lost) (.ite (.pure (Fate.finished p)) (.pure (Fate.arrived p)))

theorem process_tracks (along : Alongside P L resume resume' fuel fuel') (c : Config)
    (p : Particle κ D R) (pool : Pool κ D R) :
    Tracks P T (Pool.relabel L) (fun j => process (resume j) (fuel j) c p pool)
      (process resume' fuel' c (p.relabel L) (pool.relabel L)) := by
  refine (run_tracks along p).bind fun fate => ?_
  cases fate with
  | lost => exact .pure pool
  | finished p => exact .pure { pool with finished := p :: pool.finished, count := pool.count + 1 }
  | arrived p =>
    dsimp only [Fate.relabel]
    rw [show (pool.relabel L).buffer.length = pool.buffer.length from List.length_map _]
    refine (children_mirrors along.serves c p _ _).tracks.bind fun born => .pure_of_eq ?_
    simp only [Pool.relabel, List.map_append, List.map_reverse]
    rfl

theorem schedule_tracks (along : Alongside P L resume resume' fuel fuel') (c : Config)
    (root : Particle κ D R) {steps : J → Nat} {steps' : Nat} (fuelled : P.Suffices steps steps')
    (pool : Pool κ D R) (roots : Nat) :
    Tracks P T (fun (pool, roots) => (pool.relabel L, roots))
      (fun j => schedule (resume j) (fuel j) c root (steps j) pool roots)
      (schedule resume' fuel' c (root.relabel L) steps' (pool.relabel L) roots) := by
  induction steps' generalizing steps pool roots with
  | zero => exact along.unfuelled fuelled fun j none => by rw [none]; rfl
  | succ steps' ih =>
    obtain ⟨less, enough, same⟩ := fuelled.step
    refine Tracks.of_eventually
      (x := fun j => schedule (resume j) (fuel j) c root (less j + 1) pool roots) ?_
      (same.mono fun j same => by rw [same])
    obtain ⟨buffer, finished, count, arrivals⟩ := pool
    cases buffer with
    | cons p buffer =>
      exact (process_tracks along c p ⟨buffer, finished, count, arrivals⟩).bind
        fun pool => ih enough pool roots
    | nil =>
      exact .ite (.pure (Pool.mk [] finished count arrivals, roots)) (.ite (along.refuse _)
        ((process_tracks along c root ⟨[], finished, count, arrivals⟩).bind
          fun pool => ih enough pool (roots + 1)))

theorem estimate_tracks (along : Alongside P L resume resume' fuel fuel') (c : Config) (entry : κ)
    (s : Store) :
    Tracks P T id (fun j => estimate (resume j) (fuel j) c entry s)
      (estimate resume' fuel' c (L.rest entry) s) := by
  refine (schedule_tracks along c ⟨.start entry s, Score.zero⟩ along.fuelled ⟨[], [], 0, []⟩
    0).bind fun (pool, roots) => ?_
  have values : (pool.relabel L).finished.reverse.map (fun p => p.trace.value?.getD .absent) =
      pool.finished.reverse.map fun p => p.trace.value?.getD .absent := by
    simp only [Pool.relabel, ← List.map_reverse, List.map_map, Function.comp_def, Particle.relabel,
      Trace.value?_relabel]
  have weights : (pool.relabel L).finished.reverse.map (·.weight) =
      pool.finished.reverse.map (·.weight) := by
    simp only [Pool.relabel, ← List.map_reverse, Particle.weights_relabel]
  have number : (pool.relabel L).finished.reverse.length = pool.finished.reverse.length := by
    simp only [Pool.relabel, List.length_reverse, List.length_map]
  dsimp only [conclude]
  rw [values, weights, number]
  exact (along.note rfl).bind fun _ => along.lift _

end Cascade

/-- A strategy comes to the same answer on both sides. -/
theorem Strategy.estimate_tracks (along : Alongside P L resume resume' fuel fuel')
    (strategy : Strategy R) (entry : κ) (s : Store) :
    Tracks P T id (fun j => strategy.estimate (resume j) (fuel j) entry s)
      (strategy.estimate resume' fuel' (L.rest entry) s) := by
  cases strategy with
  | enumerate c => exact Enumeration.estimate_tracks along c entry s
  | rejection c => exact Rejection.estimate_tracks along c entry s
  | mcmc c => exact Chain.estimate_tracks along c entry s
  | smc c => exact Filter.estimate_tracks along c entry s
  | pmcmc c => exact OpeningChain.estimate_tracks along c entry s
  | asyncpf c => exact Cascade.estimate_tracks along c entry s

/-- It does so at once, with the same fuel, if all rests do. -/
theorem Strategy.estimate_mirrors {resume : Resume (EStateM Failure σ) κ D R}
    (serves : T.Serves (D := D) (R := R)) (resumes : Resumes L resume resume')
    (strategy : Strategy R) (fuel : Nat) (entry : κ) (s : Store) :
    Mirrors T id (strategy.estimate resume fuel entry s)
      (strategy.estimate resume' fuel (L.rest entry) s) :=
  tracks_single.mp (strategy.estimate_tracks (resumes.along serves fuel) entry s)

end ProbCore
