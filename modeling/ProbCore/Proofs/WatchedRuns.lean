import Mathlib.Data.List.Forall2
import ProbCore.Proofs.StrategyTracking
import ProbCore.Proofs.Watching

/-! What a watched run shows. It comes to the same as the run itself, in the same world. All the
while the strategies that the calls nest are those that are installed, each step goes to the
innermost of them, and the keys that were consumed and those still held stand apart in the tree
of splits. -/

namespace ProbCore

section Tree

theorem Apart.symm {p q : Position} (apart : Apart p q) : Apart q p := And.symm apart

theorem Apart.child {p q : Position} (apart : Apart p q) (turn : Bool) : Apart (turn :: p) q := by
  refine ⟨fun above => apart.1 ((List.suffix_cons _ _).trans above), fun below => ?_⟩
  rcases List.suffix_cons_iff.mp below with rfl | below
  · exact apart.1 (List.suffix_cons _ _)
  · exact apart.2 below

theorem apart_halves (p : Position) : Apart (true :: p) (false :: p) := by
  have never (turn : Bool) : ¬ turn :: p <:+ (!turn) :: p := by
    intro below
    have same := below.eq_of_length rfl
    cases turn <;> cases same
  exact ⟨never true, never false⟩

/-- The two halves of a split stand apart from all that the split key stood apart from. -/
theorem pairwise_split {p : Position} {rest : List Position} (apart : (p :: rest).Pairwise Apart) :
    ((true :: p) :: (false :: p) :: rest).Pairwise Apart := by
  obtain ⟨outside, inside⟩ := List.pairwise_cons.mp apart
  refine .cons ?_ (.cons (fun q member => (outside q member).child false) inside)
  intro q member
  rcases List.mem_cons.mp member with rfl | member
  · exact apart_halves p
  · exact (outside q member).child true

theorem reduceOption_cons (position : Option Position) (rest : List (Option Position)) :
    (position :: rest).reduceOption = position.toList ++ rest.reduceOption := by
  cases position <;> rfl

theorem Ledger.part_disjoint {l : Ledger} (disjoint : l.Disjoint) :
    (l.part.2.toList ++ l.part.1.positions).Pairwise Apart := by
  obtain ⟨held, spent⟩ := l
  match held with
  | [] => exact disjoint
  | none :: _ => exact disjoint
  | some p :: _ => exact pairwise_split disjoint

end Tree

/-- The key at a position is the one of the tree there. Keys from elsewhere are only those that
the program brought. -/
def Linked (root : Random.Key) (brought : List Random.Key) :
    Option Position → Option Random.Key → Prop
  | some p, key => key = some (root.node p)
  | none, key => brought = [] → key = none

theorem Linked.bring {root key : Random.Key} {brought : List Random.Key} {position : Option Position}
    {held : Option Random.Key} (linked : Linked root brought position held) :
    Linked root (key :: brought) position held := by
  cases position with
  | some p => exact linked
  | none => exact nofun

/-- Both halves of a key are linked to the halves of its position. -/
theorem Linked.part {root key : Random.Key} {brought : List Random.Key} {p : Option Position}
    (held : List (Option Position)) (spent : List SpentKey)
    (linked : Linked root brought p (some key)) :
    ∃ p', (Ledger.part ⟨p :: held, spent⟩).1 = ⟨p' :: held, spent⟩ ∧
      Linked root brought p' (some key.split.1) ∧
      Linked root brought (Ledger.part ⟨p :: held, spent⟩).2 (some key.split.2) := by
  cases p with
  | some p =>
    cases linked
    exact ⟨some (false :: p), rfl, rfl, rfl⟩
  | none =>
    have never : brought ≠ [] := fun empty => nomatch linked empty
    exact ⟨none, rfl, fun empty => absurd empty never, fun empty => absurd empty never⟩

/-- What holds of a watched world in which the strategies `top` were installed since the watch
began. -/
structure Sound (root : Random.Key) (enclosing top : List Active) (x : Watched) : Prop where
  strategies : x.world.strategies = top ++ enclosing
  handlers : x.world.strategies.map Active.identity = x.handlers
  held : List.Forall₂ (fun p (a : Active) => Linked root x.brought p a.key) x.ledger.held top
  spent : ∀ d ∈ x.ledger.spent, Linked root x.brought d.position (some d.key)
  disjoint : ∀ l ∈ x.ledgers, l.Disjoint
  handed : ∀ h ∈ x.handed, h.installed = h.handlers

section

variable {x : Watched} {head : Active} {rest : List Active}
  (charged : x.world.strategies = head :: rest)
include charged

theorem Watch.keyFor_keyless (keyless : head.key = none) : keyFor none x = .ok (none, none) x := by
  obtain ⟨⟨_, _⟩, _⟩ := x
  subst charged
  obtain ⟨_, _, _, _⟩ := head
  subst keyless
  rfl

theorem Watch.keyFor_keyed {key : Random.Key} (keyed : head.key = some key) :
    keyFor none x = (do
      let (position, key) ← part
      return (position, some key)) x := by
  obtain ⟨⟨_, _⟩, _⟩ := x
  subst charged
  obtain ⟨_, _, _, _⟩ := head
  subst keyed
  rfl

end

/-- A position for a key that is not yet on the ledger. -/
structure Watched.Fresh (root : Random.Key) (x : Watched) (position : Option Position)
    (key : Option Random.Key) : Prop where
  linked : Linked root x.brought position key
  apart : (position.toList ++ x.ledger.positions).Pairwise Apart

section

variable {root : Random.Key} {enclosing lower top : List Active} {head : Active} {x : Watched}

namespace Sound

theorem disjoint_now (sound : Sound root enclosing top x) : x.ledger.Disjoint :=
  sound.disjoint _ List.mem_cons_self

/-- What leaves the strategies as they are, up to picks, leaves the record in order. -/
theorem spared (sound : Sound root enclosing (head :: lower) x) {w : World}
    (spared : Spared Active.withoutPicks x.world w) :
    ∃ head', Sound root enclosing (head' :: lower) { x with world := w } := by
  have same := spared.strategies
  rw [sound.strategies, List.cons_append, List.modifyHead_cons] at same
  obtain ⟨head', charged, alike⟩ : ∃ head', w.strategies = head' :: (lower ++ enclosing) ∧
      head'.withoutPicks = head.withoutPicks := by
    cases charged : w.strategies with
    | nil =>
      rw [charged] at same
      cases same
    | cons head' rest =>
      rw [charged, List.modifyHead_cons] at same
      obtain ⟨alike, rfl⟩ := List.cons.inj same
      exact ⟨head', rfl, alike⟩
  have identity : head'.identity = head.identity := by
    have title := congrArg Active.title alike
    have address := congrArg Active.address alike
    exact congrArg₂ Identity.mk title address
  have key := congrArg Active.key alike
  refine ⟨head', charged, ?_, ?_, sound.spent, sound.disjoint, sound.handed⟩
  · rw [← sound.handlers, sound.strategies]
    simp only [charged, List.cons_append, List.map_cons, identity]
  · obtain ⟨p, ps, first, rest, held⟩ := List.forall₂_cons_right_iff.mp sound.held
    rw [show x.ledger.held = p :: ps from held]
    exact .cons (key ▸ first) rest

/-- What a strategy gives away of its key is fresh, and what it keeps is its key from then on. -/
theorem part (sound : Sound root enclosing (head :: lower) x) {key : Random.Key}
    (keyed : head.key = some key) :
    ∃ x', Watch.part x = .ok (x.ledger.part.2, key.split.2) x' ∧
      Run.splitKey x.world = .ok key.split.2 x'.world ∧
      Sound root enclosing ({ head with key := some key.split.1 } :: lower) x' ∧
      x'.Fresh root x.ledger.part.2 (some key.split.2) ∧ x'.handlers = x.handlers := by
  obtain ⟨world, ⟨held, spent⟩, past, handlers, handed, brought⟩ := x
  obtain ⟨strategies, same, linked, spends, disjoint, hands⟩ := sound
  obtain ⟨p, ps, first, rest, rfl⟩ := List.forall₂_cons_right_iff.mp linked
  have splits : Run.splitKey world = .ok key.split.2
      { world with strategies := { head with key := some key.split.1 } :: (lower ++ enclosing) } := by
    obtain ⟨_, _⟩ := world
    subst strategies
    obtain ⟨_, _, _, _⟩ := head
    subst keyed
    rfl
  have parted := Ledger.part_disjoint (disjoint _ List.mem_cons_self)
  obtain ⟨p', kept, linked', given⟩ := Linked.part ps spent (keyed ▸ first)
  dsimp only at kept given parted
  refine ⟨Watched.turn ⟨_, ⟨p :: ps, spent⟩, past, handlers, handed, brought⟩ ⟨p' :: ps, spent⟩,
    ?_, splits, ?_, ?_, rfl⟩
  · rw [Watch.part, splits, ← kept]
  · refine ⟨rfl, ?_, .cons linked' rest, spends, ?_, hands⟩
    · exact (congrArg (List.map Active.identity) strategies).symm.trans same
    · intro l member
      rcases List.mem_cons.mp member with rfl | member
      · rw [kept] at parted
        exact parted.sublist (List.sublist_append_right _ _)
      · exact disjoint l member
  · rw [kept] at parted
    exact ⟨given, parted⟩

theorem part_keyless (sound : Sound root enclosing (head :: lower) x) (keyless : head.key = none) :
    Watch.part x = .error (.configuration (.missingKey head.title)) x ∧
      Run.splitKey x.world = .error (.configuration (.missingKey head.title)) x.world := by
  obtain ⟨world, ledger, past, handlers, handed, brought⟩ := x
  have strategies := sound.strategies
  have refuses : Run.splitKey world = .error (.configuration (.missingKey head.title)) world := by
    obtain ⟨_, _⟩ := world
    subst strategies
    obtain ⟨_, _, _, _⟩ := head
    subst keyless
    rfl
  exact ⟨by rw [Watch.part, refuses], refuses⟩

theorem spend (sound : Sound root enclosing (head :: lower) x) {key : Random.Key}
    (keyed : head.key = some key) :
    ∃ x', Watch.spend x = .ok key.split.2 x' ∧
      Run.splitKey x.world = .ok key.split.2 x'.world ∧
      Sound root enclosing ({ head with key := some key.split.1 } :: lower) x' ∧
      x'.handlers = x.handlers := by
  obtain ⟨x', parts, splits, sound', fresh, same⟩ := sound.part keyed
  refine ⟨{ x' with ledger.spent := ⟨x.ledger.part.2, key.split.2⟩ :: x'.ledger.spent }, ?_, splits,
    ⟨sound'.strategies, sound'.handlers, sound'.held, ?_, ?_, sound'.handed⟩, same⟩
  · exact bind_of_ok parts
  · intro d member
    rcases List.mem_cons.mp member with rfl | member
    · exact fresh.linked
    · exact sound'.spent d member
  · intro l member
    rcases List.mem_cons.mp member with rfl | member
    · have apart := fresh.apart
      rw [Ledger.positions] at apart
      rw [Ledger.Disjoint, Ledger.positions, List.map_cons, reduceOption_cons]
      exact (List.perm_append_comm_assoc _ _ _).pairwise apart Apart.symm
    · exact sound'.disjoint l (List.mem_cons_of_mem _ member)

theorem bring (sound : Sound root enclosing top x) (key : Random.Key) :
    Sound root enclosing top { x with brought := key :: x.brought } where
  strategies := sound.strategies
  handlers := sound.handlers
  held := sound.held.imp fun _ _ linked => linked.bring
  spent d member := (sound.spent d member).bring
  disjoint := sound.disjoint
  handed := sound.handed

/-- The key of an inference is fresh, wherever it comes from. -/
theorem keyFor (sound : Sound root enclosing (head :: lower) x) (key : Option Random.Key) :
    ∃ position key' x', Watch.keyFor key x = .ok (position, key') x' ∧
      Machine.keyFor key x.world = .ok key' x'.world ∧
      (∃ head', Sound root enclosing (head' :: lower) x') ∧ x'.Fresh root position key' ∧
      x'.handlers = x.handlers := by
  have apart : (([] : List Position) ++ x.ledger.positions).Pairwise Apart := sound.disjoint_now
  cases key with
  | some key => exact ⟨none, some key, _, rfl, rfl, ⟨head, sound.bring key⟩, ⟨nofun, apart⟩, rfl⟩
  | none =>
    cases held : head.key with
    | none =>
      exact ⟨none, none, x, Watch.keyFor_keyless sound.strategies held,
        Machine.keyFor_keyless sound.strategies held, ⟨head, sound⟩, ⟨fun _ => rfl, apart⟩, rfl⟩
    | some key =>
      obtain ⟨x', parts, splits, sound', fresh, same⟩ := sound.part held
      refine ⟨_, _, x', ?_, ?_, ⟨_, sound'⟩, fresh, same⟩
      · rw [Watch.keyFor_keyed sound.strategies held]
        exact bind_of_ok parts
      · rw [Machine.keyFor_keyed sound.strategies held]
        change EStateM.map some Run.splitKey x.world = _
        rw [EStateM.map, splits]

end Sound

section

variable {α : Type} {act : Run α} {x : Watched} {w : World}

theorem Watch.quiet_of_ok {a : α} (ran : act x.world = .ok a w) :
    quiet act x = .ok a { x with world := w } := by rw [quiet, ran]

theorem Watch.quiet_of_error {e : Failure} (failed : act x.world = .error e w) :
    quiet act x = .error e { x with world := w } := by rw [quiet, failed]

end

theorem Watch.install_eq {α : Type} (position : Option Position) (a : Active) (act : Watch α) :
    install position a act = bracket (install.enter position a) install.leave act := by
  funext x
  unfold install bracket
  cases act (install.enter position a x) <;> rfl

/-- A watched world beside the world itself, while the strategies `top` of the watch are
installed. -/
def beside (root : Random.Key) (enclosing : List Active) :
    Tie (List Active × List Identity) Watched World where
  place := id
  holds := fun (top, handlers) x w =>
    x.world = w ∧ Sound root enclosing top x ∧ x.handlers = handlers

/-- The same while a strategy of the watch is in charge, whose key and picks may change. -/
def watching (root : Random.Key) (enclosing : List Active) :
    Tie (List Active × List Identity) Watched World where
  place := id
  holds := fun (lower, handlers) x w =>
    ∃ head, (beside root enclosing).holds (head :: lower, handlers) x w

variable {α β : Type} {φ : α → β}

theorem quiet_mirrors {act : Run α} (spares : Run.Spares Active.withoutPicks act) :
    Mirrors (watching root enclosing) id (Watch.quiet act) act := by
  rintro ⟨lower, handlers⟩ x _ ⟨head, rfl, sound, same⟩
  have spared := spares x.world
  cases ran : act x.world with
  | ok a w =>
    rw [ran] at spared
    obtain ⟨head', sound'⟩ := sound.spared spared
    rw [Watch.quiet_of_ok ran]
    exact ⟨rfl, head', rfl, sound', same⟩
  | error e w =>
    rw [ran] at spared
    obtain ⟨head', sound'⟩ := sound.spared spared
    rw [Watch.quiet_of_error ran]
    exact ⟨.same e, head', rfl, sound', same⟩

theorem spend_mirrors : Mirrors (watching root enclosing) id Watch.spend Run.splitKey := by
  rintro ⟨lower, handlers⟩ x _ ⟨head, rfl, sound, same⟩
  cases keyed : head.key with
  | none =>
    obtain ⟨parts, splits⟩ := sound.part_keyless keyed
    rw [show Watch.spend x = _ from bind_of_error parts, splits]
    exact ⟨.same _, head, rfl, sound, same⟩
  | some key =>
    obtain ⟨x', spends, splits, sound', same'⟩ := sound.spend keyed
    rw [spends, splits]
    exact ⟨rfl, _, rfl, sound', same'.trans same⟩

/-- While an inner strategy is in charge, those around it stay as they are. -/
theorem install_agree {position : Option Position} {a : Active} {act : Watch α} {act' : Run β}
    (mirrors : Mirrors (watching root enclosing) φ act act')
    (sound : Sound root enclosing top x) (fresh : x.Fresh root position a.key) :
    (beside root enclosing).Agree (top, x.handlers) φ (Watch.install position a act x)
      (Run.installed a act' x.world) := by
  have entered : Sound root enclosing (a :: top) (Watch.install.enter position a x) := by
    refine ⟨congrArg (a :: ·) sound.strategies, congrArg (a.identity :: ·) sound.handlers,
      .cons fresh.linked sound.held, sound.spent, ?_, sound.handed⟩
    intro l member
    rcases List.mem_cons.mp member with rfl | member
    · change ((position :: x.ledger.held).reduceOption ++ _).Pairwise Apart
      rw [reduceOption_cons, List.append_assoc]
      exact fresh.apart
    · exact sound.disjoint l member
  -- What the inner strategy still held is dropped from the ledger, what it consumed stays.
  have left {x' : Watched} {head' : Active} (sound' : Sound root enclosing (head' :: top) x') :
      Sound root enclosing top (Watch.install.leave x x') := by
    have strategies : (Watch.install.leave x x').world.strategies = top ++ enclosing :=
      congrArg List.tail sound'.strategies
    obtain ⟨p, ps, _, rest, held⟩ := List.forall₂_cons_right_iff.mp sound'.held
    refine ⟨strategies, ?_, ?_, sound'.spent, ?_, sound'.handed⟩
    · rw [strategies, ← sound.strategies]
      exact sound.handlers
    · change List.Forall₂ _ x'.ledger.held.tail top
      rw [held]
      exact rest
    · intro l member
      rcases List.mem_cons.mp member with rfl | member
      · have apart := sound'.disjoint_now
        rw [Ledger.Disjoint, Ledger.positions, held, reduceOption_cons, List.append_assoc] at apart
        change (x'.ledger.held.tail.reduceOption ++ _).Pairwise Apart
        rw [held]
        exact apart.sublist (List.sublist_append_right _ _)
      · exact sound'.disjoint l member
  rw [Run.installed_eq, Watch.install_eq]
  refine mirrors.bracket_agree (i := (top, a.identity :: x.handlers)) rfl ⟨a, rfl, entered, rfl⟩ ?_
  rintro x' _ ⟨head', rfl, sound', _⟩
  exact ⟨rfl, left sound', rfl⟩

theorem watching_of_beside {handlers : List Identity} {r : EStateM.Result Failure Watched α}
    {r' : EStateM.Result Failure World β}
    (agree : (beside root enclosing).Agree (head :: lower, handlers) φ r r') :
    (watching root enclosing).Agree (lower, handlers) φ r r' :=
  agree.imp rfl fun held => ⟨head, held⟩

/-- A strategy set up inside another one with half of its key. -/
theorem nested_mirrors {act : Watch α} {act' : Run β}
    (mirrors : Mirrors (watching root enclosing) φ act act') :
    Mirrors (watching root enclosing) φ (Host.nested act) (Host.nested act') := by
  refine (quiet_mirrors Run.current_spares).bind fun a => ?_
  rintro ⟨lower, handlers⟩ x _ ⟨head, rfl, sound, same⟩
  cases keyed : head.key with
  | none =>
    obtain ⟨parts, splits⟩ := sound.part_keyless keyed
    rw [bind_of_error parts, bind_of_error splits]
    exact ⟨.same _, head, rfl, sound, same⟩
  | some key =>
    obtain ⟨x', parts, splits, sound', fresh, same'⟩ := sound.part keyed
    rw [bind_of_ok parts, bind_of_ok splits, ← same, ← same']
    exact watching_of_beside (install_agree mirrors sound' fresh)

theorem unlessDegenerate_mirrors {act : Watch α} {act' : Run β}
    (mirrors : Mirrors (watching root enclosing) φ act act') :
    Mirrors (watching root enclosing) (Option.map φ) (Host.unlessDegenerate act)
      (Host.unlessDegenerate act') := by
  rw [Run.unlessDegenerate_eq]
  exact mirrors.caught

/-- The watch answers strategies as the world does. -/
theorem watching_serves (root : Random.Key) (enclosing : List Active) :
    (watching root enclosing).Serves (D := Dist) (R := Float) where
  fail moved := .throw moved
  note _ := quiet_mirrors (.note _)
  unlessDegenerate := unlessDegenerate_mirrors
  nested := nested_mirrors
  enumerable _ := rfl
  support _ := quiet_mirrors (.lift _)
  logDensity _ _ := quiet_mirrors (.lift _)
  draw _ := spend_mirrors.bind fun _ => quiet_mirrors (.lift _)
  logUniform := spend_mirrors.bind fun key => .pure key.logUniform
  offset := spend_mirrors.bind fun key => .pure (key.uniform 0)
  indexBelow n := spend_mirrors.bind fun key => .pure (key.below n)
  categorical _ _ := spend_mirrors.bind fun _ => quiet_mirrors (.lift _)

theorem bring_mirrors (key : Option Random.Key) :
    Mirrors (watching root enclosing) id (Watch.bring key) (pure ()) := by
  cases key with
  | none => exact .pure ()
  | some key =>
    rintro ⟨lower, handlers⟩ x _ ⟨head, rfl, sound, same⟩
    exact ⟨rfl, head, rfl, sound.bring key, same⟩

theorem get_mirrors {f : Watched → Watch α} {g : World → Run β}
    (each : ∀ x, Mirrors (watching root enclosing) φ (f x) (g x.world)) :
    Mirrors (watching root enclosing) φ (get >>= f) (get >>= g) := by
  rintro ⟨lower, handlers⟩ x _ ⟨head, rfl, sound, same⟩
  exact each x (lower, handlers) x x.world ⟨head, rfl, sound, same⟩

theorem makeParam_mirrors (c : Machine.ParamCall) :
    Mirrors (watching root enclosing) id (Watch.makeParam c)
      (Machine.makeParam c.start c.mean c.sd c.key) := by
  unfold Watch.makeParam
  by_cases draws : (Machine.drawsStart c.start c.sd && c.key.isNone) = true
  · rw [if_pos draws, Machine.makeParam_eq draws]
    exact spend_mirrors.bind fun key =>
      quiet_mirrors (Machine.makeParam_aloof (Bool.and_false _) _).spares
  · rw [if_neg draws]
    exact quiet_mirrors (Machine.makeParam_aloof ((Bool.not_eq_true _).mp draws) _).spares

theorem param_mirrors (c : Machine.ParamCall) :
    Mirrors (watching root enclosing) id (Watch.param c)
      (Machine.param c.place c.start c.mean c.sd c.key) := by
  rw [show Machine.param c.place c.start c.mean c.sd c.key =
    pure () >>= fun _ => Machine.param c.place c.start c.mean c.sd c.key from (pure_bind _ _).symm]
  refine (bring_mirrors c.key).bind fun _ => ?_
  refine (quiet_mirrors (Run.relative_spares c.place)).bind fun rel => ?_
  extract_lets looks looks'
  have looked : ∀ r, Mirrors (watching root enclosing) id (looks r) (looks' r) := by
    refine fun _ => get_mirrors fun x => ?_
    dsimp only [id]
    cases x.world.params.get? rel with
    | some v => exact .pure v
    | none =>
      refine (makeParam_mirrors c).bind fun v => (quiet_mirrors ?_).bind fun _ =>
        (quiet_mirrors (.note _)).bind fun _ => .pure v
      exact .modify (fun _ => rfl) fun _ => rfl
  exact .ite ((Mirrors.throw (φ := id) (.same _)).bind looked) (looked ())

/-- An inference inside the program, with the key that it is given or takes. -/
theorem inferring_mirrors {body : Inference → Watch α} {body' : Inference → Run β}
    (c : Machine.InferCall) (bodies : ∀ i, Mirrors (watching root enclosing) φ (body i) (body' i)) :
    Mirrors (watching root enclosing) φ (Watch.inferring c body) (do
      let i ← Machine.prepare c.place c.function c.method c.key c.options none
      Run.installed i.active (body' i)) := by
  rw [Machine.prepare_eq, bind_assoc]
  refine (quiet_mirrors (.lift _)).bind fun method => ?_
  rintro ⟨lower, handlers⟩ x _ ⟨head, rfl, sound, same⟩
  obtain ⟨position, key, x', watches, looks, ⟨head', sound'⟩, fresh, same'⟩ := sound.keyFor c.key
  rw [bind_of_ok watches, bind_assoc, bind_of_ok looks, ← same, ← same']
  have spared : Spared Active.withoutPicks x'.world _ :=
    Machine.ready_spares c.place c.function method c.options none key x'.world
  cases ran : Machine.ready c.place c.function method c.options none key x'.world with
  | error e w =>
    rw [ran] at spared
    obtain ⟨head'', sound''⟩ := sound'.spared spared
    dsimp only [id]
    rw [bind_of_error (Watch.quiet_of_error ran), bind_of_error ran]
    exact ⟨.same e, head'', rfl, sound'', rfl⟩
  | ok i w =>
    rw [ran] at spared
    obtain ⟨head'', sound''⟩ := sound'.spared spared
    dsimp only [id]
    rw [bind_of_ok (Watch.quiet_of_ok ran), bind_of_ok ran]
    have held : i.active.key = key := congrArg Active.key (Machine.ready_eq_ok ran).1
    refine watching_of_beside (install_agree (bodies i) sound'' ?_)
    exact ⟨held ▸ fresh.linked, fresh.apart⟩

theorem handing_mirrors {act : Watch (Step Rest Dist Float)} {act' : Run (Step Rest Dist Float)}
    (mirrors : Mirrors (watching root enclosing) id act act') :
    Mirrors (watching root enclosing) id (Watch.handing act) act' := by
  rw [← bind_pure act']
  refine mirrors.bind fun step => ?_
  rintro ⟨lower, handlers⟩ x _ ⟨head, rfl, sound, same⟩
  refine ⟨rfl, head, rfl, ⟨sound.strategies, sound.handlers, sound.held, sound.spent,
    sound.disjoint, ?_⟩, same⟩
  intro h member
  rcases List.mem_cons.mp member with rfl | member
  · exact sound.handlers
  · exact sound.handed h member

end

namespace Watch

open Machine

variable {root : Random.Key} {enclosing : List Active} {cx : Context}

/-- What takes no key is a move that is only watched. -/
theorem run_quiet (fuel : Nat) {control : Control} (quiet : control.takesKey = false) :
    run cx (fuel + 1) control = (do
      match ← Watch.quiet (advance cx control) with
      | .go next => run cx fuel next
      | .rest step => return step
      | .infer .. => throw .outOfFuel) := by
  cases control with
  | eval c vars a s k =>
    cases c with
    | param => cases quiet
    | infer => cases quiet
    | _ => rfl
  | call f args a s k => rfl
  | give k s v => rfl

/-- A watched run does what the run does. -/
theorem run_mirrors (fuel : Nat) (control : Control) :
    Mirrors (watching root enclosing) id (run cx fuel control) (Machine.run cx fuel control) := by
  -- An inner strategy resumes the program with less fuel, so the induction covers any nesting.
  induction fuel generalizing control with
  | zero => exact .throw (.same _)
  | succ fuel ih =>
    have quietly (quiet : control.takesKey = false) :
        Mirrors (watching root enclosing) id (run cx (fuel + 1) control)
          (Machine.run cx (fuel + 1) control) := by
      rw [run_quiet fuel quiet, Machine.run_quiet cx fuel quiet]
      refine (quiet_mirrors (advance_quiet quiet).spares).bind fun move => ?_
      cases move with
      | go next => exact ih next
      | rest step => exact .pure step
      | infer i s k => exact .throw (.same _)
    cases control with
    | eval c vars a s k =>
      cases c with
      | param t start mean sd seed =>
        rw [run_param]
        exact (quiet_mirrors (.lift _)).bind fun c => (param_mirrors c).bind fun v => ih _
      | infer t f method options =>
        rw [run_infer]
        refine (quiet_mirrors (.lift _)).bind fun c => ?_
        refine (inferring_mirrors c fun i => ?_).bind fun m => ih _
        exact i.strategy.estimate_mirrors (watching_serves root enclosing)
          (.unmoved fun k s v => handing_mirrors (ih _)) fuel i.entry s
      | _ => exact quietly rfl
    | call f args a s k => exact quietly rfl
    | give k s v => exact quietly rfl

theorem resumes (cx : Context) (root : Random.Key) (enclosing : List Active) (fuel : Nat) :
    Resumes (T := watching root enclosing) .unmoved (resume cx fuel) (Machine.resume cx fuel) :=
  .unmoved fun k s v => handing_mirrors (run_mirrors fuel (.give k s v))

end Watch

end ProbCore
