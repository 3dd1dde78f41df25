import ProbCore.Proofs.RelocatedMoves
import ProbCore.Proofs.SharedStrategies
import ProbCore.Proofs.StrategyTracking

/-! A placeless program can be run at any base that a strategy can keep among its keys. The
answer, the values that the program sees and all that it leaves behind are those of a run at the
root. -/

namespace ProbCore

/-- The same computation, which returns each result with what holds of all of them. -/
def Run.attach {α : Type} {good : α → Prop} (x : Run α) (kept : ∀ a, Yields x a → good a) :
    Run {a // good a} := fun w =>
  match ran : x w with
  | .ok a w' => .ok ⟨a, kept a ⟨w, w', ran⟩⟩ w'
  | .error e w' => .error e w'

/-- What remains to be done of a run that began at `h`. -/
abbrev Rest.At (h : Address) : Type := {k : Rest // k.Rooted h}

section

variable {ι α β : Type} {T : Tie ι World World} {φ : α → β}

theorem attach_mirrors {good : α → Prop} {x : Run α} {y : Run β} (kept : ∀ a, Yields x a → good a)
    (mirrors : Mirrors T φ x y) : Mirrors T (fun a => φ a.1) (x.attach kept) y := by
  intro i w w' held
  have agreed := mirrors i w w' held
  unfold Run.attach
  split
  next ran =>
    rw [ran] at agreed
    cases ran' : y w' <;> rwa [ran'] at agreed
  next failed =>
    rw [failed] at agreed
    cases ran' : y w' <;> rwa [ran'] at agreed

theorem confine_mirrors {h : Address} (L : Relabelling T.place (Rest.At h) Rest)
    {x : Run (Step Rest Dist Float)} {y : Run (Step Rest Dist Float)}
    (kept : ∀ step, Yields x step → step.Rooted h) {ψ : Step Rest Dist Float → Step Rest Dist Float}
    (same : ∀ step, (Step.confine step).relabel L = ψ step.1) (mirrors : Mirrors T ψ x y) :
    Mirrors T (Step.relabel L) (Step.confine <$> x.attach kept) y := by
  rw [← id_map y]
  exact (attach_mirrors kept mirrors).map fun step => (same step).symm

end

namespace Machine

variable {cx : Context} {b h : Address} {fuel : Nat}

/-- Whatever a run comes to is the same under the base. -/
def Relocatable (cx : Context) (b : Address) (fuel : Nat) : Prop :=
  ∀ (h : Address) (control : Control), control.Rooted h →
    Relocates b h (Step.Rooted h) (Step.under b) (run cx fuel control)
      (run cx fuel (control.under b))

/-- The rests of a run that began at `h` leave only such rests. -/
def confinedResume (runs : Relocatable cx b fuel) : Resume Run (Rest.At h) Dist Float :=
  fun k s v =>
    Step.confine <$> (run cx fuel (.give k.1 s v)).attach (runs h (.give k.1 s v) k.2).yields

/-- Strategies do the same at both bases. -/
theorem estimate_relocates (hashable : b.isHashable = true) (same : (b == b) = true)
    (runs : Relocatable cx b fuel) (strategy : Strategy Float) {entry : Rest}
    (rooted : entry.Rooted h) (s : Store) :
    Mirrors (relocating b h) id (strategy.estimate (resume cx fuel) fuel entry s)
      (strategy.estimate (resume cx fuel) fuel (entry.under b) s) := by
  -- A strategy may be given any rest, but only rooted ones move. Both sides are therefore compared
  -- with a run of the strategy over rooted rests.
  let free : Relabelling alone.place (Rest.At h) Rest := ⟨Subtype.val, fun _ _ => rfl, fun _ => rfl⟩
  let moved : Relabelling (relocating b h).place (Rest.At h) Rest :=
    ⟨fun k => k.1.under b, Address.under_beq same, Address.under_hashable hashable⟩
  have freed : Resumes free (confinedResume runs) (resume cx fuel) := by
    refine fun k s v => confine_mirrors free _ ?_ (alone_mirrors _)
    rintro ⟨step, _⟩
    cases step <;> rfl
  have moves : Resumes moved (confinedResume runs) (resume cx fuel) := by
    refine fun k s v => confine_mirrors moved _ ?_ (runs h (.give k.1 s v) k.2).mirrors
    rintro ⟨step, _⟩
    cases step <;> rfl
  have confined := eq_of_alone
    (strategy.estimate_mirrors alone_sharing.serves freed fuel (⟨entry, rooted⟩ : Rest.At h) s)
  rw [← show _ = strategy.estimate (resume cx fuel) fuel entry s from confined]
  exact strategy.estimate_mirrors (relocating_serves b h) moves fuel (⟨entry, rooted⟩ : Rest.At h) s

/-- Runs an inference whose method and key are settled. -/
def launch (cx : Context) (fuel : Nat) (c : InferCall) (method : Method) (key : Option Random.Key)
    (s : Store) : Run (Marginal Value Float) := do
  let i ← ready c.place c.function method c.options none key
  Run.installed i.active (i.strategy.estimate (resume cx fuel) fuel i.entry s)

theorem inferAt_eq (c : InferCall) (s : Store) :
    inferAt cx fuel c s = (do
      let method ← Run.lift (selected c.function c.method c.options)
      launch cx fuel c method (← keyFor c.key) s) := by
  simp only [inferAt, prepare_eq, bind_assoc]
  rfl

theorem launch_eq {c : InferCall} {method : Method} {key : Option Random.Key} {s : Store}
    {strategy : Strategy Float} (configured : c.options.configure method = .ok strategy) :
    launch cx fuel c method key s = (do
      Run.note (.running method.title c.place)
      Run.installed ⟨method.title, key, c.place, none⟩
        (strategy.estimate (resume cx fuel) fuel (.entry c.function c.place) s)) := by
  rw [launch, ready, configured]
  rfl

def InferCall.under (b : Address) (c : InferCall) : InferCall := { c with place := c.place.under b }

section

variable (hashable : b.isHashable = true) (same : (b == b) = true) (runs : Relocatable cx b fuel)
include hashable same runs

theorem launch_mirrors (c : InferCall) (method : Method) (key : Option Random.Key) (s : Store) :
    Mirrors (elsewhere b) id (launch cx fuel c method key s)
      (launch cx fuel (c.under b) method key s) := by
  cases configured : c.options.configure method with
  | error e =>
    rw [launch, launch, ready, ready, show (c.under b).options = c.options from rfl, configured]
    exact .throw (.same e)
  | ok strategy =>
    have moved : (c.under b).options.configure method = .ok strategy := configured
    have rooted : (Rest.entry c.function c.place).Rooted c.place := .refl c.place
    have estimates := estimate_relocates hashable same runs strategy rooted s
    have notes := note_mirrors (b := b) (.running method.title c.place)
    rw [launch_eq configured, launch_eq moved]
    exact notes.bind fun _ =>
      installed_mirrors (a := ⟨method.title, key, c.place, none⟩) estimates

theorem inferAt_mirrors (c : InferCall) (s : Store) :
    Mirrors (relocating b h) id (inferAt cx fuel c s) (inferAt cx fuel (c.under b) s) := by
  rw [inferAt_eq, inferAt_eq]
  exact (aloof_mirrors (.lift _)).relocating.bind fun method => (keyFor_mirrors c.key).bind fun key =>
    (launch_mirrors hashable same runs c method key s).relocating

end

/-- The call of an inference moves with the base. -/
theorem inferCall_relocates {α β : Type} {good : α → Prop} {φ : α → β} (sc : Scope)
    {t : Option Expr} {f method : Expr} {options : List (String × Expr)}
    (code : (Comp.infer t f method options).placeless = true) {x : InferCall → Run α}
    {y : InferCall → Run β} (extends_ : sc.address.Extends h)
    (rest : ∀ c, Relocates b h good φ (x c) (y (c.under b))) :
    Relocates b h good φ (Run.lift (InferCall.read sc t f method options) >>= x)
      (Run.lift (InferCall.read { sc with address := sc.address.under b } t f method options)
        >>= y) := by
  simp only [Comp.placeless, Bool.and_eq_true] at code
  simp only [InferCall.read, Run.lift_bind, bind_assoc]
  exact site_relocates sc extends_ code.1.1.1 fun place _ =>
    .read (f.eval_elsewhere sc _ code.1.1.2) fun f =>
      .read (method.eval_elsewhere sc _ code.1.2) fun method =>
        .read (Expr.named_elsewhere sc _ code.2) fun options => .aloof (.lift _) fun key =>
          rest ⟨place, f, method, key, options.filter (·.1 != "key")⟩

/-- Each run of a placeless program, resumed at any point, comes to the same under the base. -/
theorem run_relocates (hashable : b.isHashable = true) (same : (b == b) = true)
    (placeless : cx.program.placeless) (fuel : Nat) : Relocatable cx b fuel := by
  -- Each inference is in charge at an address of its own, hence the induction for all of them.
  induction fuel with
  | zero => exact fun _ _ _ => .throw _
  | succ fuel ih =>
    intro h control rooted
    have own (own : control.infers = false) : Relocates b h (Step.Rooted h) (Step.under b)
        (run cx (fuel + 1) control) (run cx (fuel + 1) (control.under b)) := by
      refine .bind (advance_relocates placeless own rooted) fun move good => ?_
      cases move with
      | go next => exact ih h next good
      | rest step => exact .pure rfl good
      | infer i s k => exact good.elim
    cases control with
    | eval c vars a s k =>
      cases c with
      | infer t f method options =>
        obtain ⟨code, extends_, rooted⟩ := rooted
        rw [Control.under, run_infer, run_infer]
        exact inferCall_relocates ⟨cx.program, cx.globals, vars, s, a⟩ code extends_ fun c =>
          .shared (inferAt_mirrors hashable same ih c s) fun m => ih h (.give k s (.marginal m)) rooted
      | _ => exact own rfl
    | call f args a s k => exact own rfl
    | give k s v => exact own rfl

/-- Inferences agree if they are given the same key, or find the same one. -/
theorem inferAt_agree (hashable : b.isHashable = true) (same : (b == b) = true)
    (placeless : cx.program.placeless) (fuel : Nat) (c : InferCall) (s : Store) {w w' : World}
    (alike : w.amid [] [] = w'.amid [] [])
    (keyed : keyAmong c.key w.strategies = keyAmong c.key w'.strategies) :
    (sharing b).Agree (w.notices, w'.notices) id (inferAt cx fuel c s w)
      (inferAt cx fuel (c.under b) s w') := by
  rw [inferAt_eq, inferAt_eq, show selected (c.under b).function (c.under b).method
    (c.under b).options = selected c.function c.method c.options from rfl]
  cases selected c.function c.method c.options with
  | error e => exact ⟨.same e, rfl, rfl, alike, [], rfl, rfl⟩
  | ok method =>
    change (sharing b).Agree _ id ((keyFor c.key >>= fun key => launch cx fuel c method key s) w)
      ((keyFor c.key >>= fun key => launch cx fuel (c.under b) method key s) w')
    rw [bind_of_ok (keyFor_eq c.key w), bind_of_ok (keyFor_eq c.key w'), ← keyed]
    have launches := launch_mirrors hashable same (run_relocates hashable same placeless fuel) c method
      (keyAmong c.key w.strategies) s
    have keyed : Beside b
        ⟨parted c.key w.strategies, parted c.key w'.strategies, w.notices, w'.notices⟩
        { w with strategies := parted c.key w.strategies }
        { w' with strategies := parted c.key w'.strategies } := ⟨rfl, rfl, alike, [], rfl, rfl⟩
    refine (launches _ _ _ keyed).imp rfl ?_
    rintro w₁ w₁' ⟨_, _, alike, notices⟩
    exact ⟨rfl, rfl, alike, notices⟩

/-- What a program does under the base `b`. -/
structure LocationIndependent (cx : Context) (b : Address) : Prop where
  /-- An inference at the base comes to the marginal that it comes to at the root, or fails alike,
  among whatever strategies, if it is given the same key or finds the same one. It leaves the same
  minibatches, parameters and caches, and reports and emits the same. -/
  answered (fuel : Nat) (c : InferCall) (s : Store) {w w' : World} :
    w.amid [] [] = w'.amid [] [] →
    keyAmong c.key w.strategies = keyAmong c.key w'.strategies →
    (sharing b).Agree (w.notices, w'.notices) id (inferAt cx fuel { c with place := .root } s w)
      (inferAt cx fuel { c with place := b } s w')
  /-- So does an inference from outside. -/
  outside (f method : Value) (key : Option Random.Key) (options : Options) (s : Store) (w : World) :
    (sharing b).Agree (w.notices, w.notices) id (Session.infer cx f method key options .root s w)
      (Session.infer cx f method key options b s w)
  /-- All along, the program is at the same point, and has the same values in its variables and its
  store, the relative addresses that it asked for included. -/
  lockstep (fuel : Nat) {h : Address} {control : Control} : control.Rooted h →
    Mirrors (relocating b h) (Step.under b) (run cx fuel control) (run cx fuel (control.under b))

/-- A placeless program does not depend on where it is run, if that can be a key of a table. -/
theorem location_independence {cx : Context} {b : Address} (placeless : cx.program.placeless)
    (hashable : b.isHashable = true) (same : (b == b) = true) : LocationIndependent cx b := by
  have answered (fuel : Nat) (c : InferCall) (s : Store) {w w' : World}
      (alike : w.amid [] [] = w'.amid [] [])
      (keyed : keyAmong c.key w.strategies = keyAmong c.key w'.strategies) :
      (sharing b).Agree (w.notices, w'.notices) id (inferAt cx fuel { c with place := .root } s w)
        (inferAt cx fuel { c with place := b } s w') := by
    have agreed := inferAt_agree hashable same placeless fuel { c with place := .root } s alike
      keyed
    rw [InferCall.under, Address.root_under] at agreed
    exact agreed
  refine ⟨answered, fun f method key options s w => ?_, fun fuel _ _ rooted =>
    (run_relocates hashable same placeless fuel _ _ rooted).mirrors⟩
  rw [Session.infer_eq, Session.infer_eq]
  split
  · exact ⟨.same _, rfl, rfl, rfl, [], rfl, rfl⟩
  · exact answered Session.fuel ⟨b, f, method, key, options⟩ s rfl rfl

/-- Two functions: one asks where it is, the other draws a value. -/
def askOrDraw : Context :=
  ⟨⟨[("ask", ⟨[], .relative (some (.literal (.text "x")))⟩),
    ("draw", ⟨[], .sample none (.table "T" [.int 1] [.literal (.float 0)] true)⟩)]⟩, []⟩

def outer : Address := ⟨[.text "outer"]⟩

/-- An exhaustive search with a key of its own. -/
def search (place : Address) : InferCall :=
  ⟨place, .function "ask", .text "enumerate", some (.ofSeed 0), []⟩

theorem ask_independent :
    askOrDraw.program.placeless ∧ outer.isHashable = true ∧ (outer == outer) = true ∧
      (∃ m w, inferAt askOrDraw 9 (search .root) .empty .start = .ok m w) ∧
      (sharing outer).Agree ([], []) id (inferAt askOrDraw 9 (search .root) .empty .start)
        (inferAt askOrDraw 9 (search outer) .empty
          { World.start with strategies := [⟨"MCMC", some (.ofSeed 1), .root, none⟩] }) := by
  have placeless : askOrDraw.program.placeless := Program.placeless_of_all rfl
  have same : (outer == outer) = true := by
    simp [outer, BEq.beq, Value.beqItems, Value.beq]
  have independent : LocationIndependent askOrDraw outer := location_independence placeless rfl same
  exact ⟨placeless, rfl, same, ⟨_, _, rfl⟩, independent.answered 9 (search .root) .empty rfl rfl⟩

/-- An address that cannot be a key is refused where a choice is recorded, before it is found that
a key is missing. -/
theorem unhashable_base_refused :
    askOrDraw.program.placeless ∧
      (∃ w, Session.infer askOrDraw (.function "draw") (.text "mcmc") none [] .root .empty .start =
        .error (.configuration (.missingKey "MCMC")) w) ∧
      ∃ w, Session.infer askOrDraw (.function "draw") (.text "mcmc") none [] ⟨[.list []]⟩ .empty .start =
        .error .illTyped w :=
  ⟨Program.placeless_of_all rfl, ⟨_, rfl⟩, ⟨_, rfl⟩⟩

end Machine

end ProbCore
