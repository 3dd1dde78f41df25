import ProbCore.Program.Machine
import ProbCore.Proofs.PlainProgram

/-! The machine on programs that make choices and absorb factors, read and write their store, and
call functions, and do nothing else. As long as nobody remembers results it does not see the world
then, and leaves it as it is: such programs are plain. -/

namespace ProbCore

mutual

/-- Computations that need nothing but their store, their arguments, choices and factors. -/
def Comp.plain : Comp → Bool
  | ret _ | sample .. | factor .. | observe .. | set .. | call .. | apply .. => true
  | tensor .. | raise _ | stop _ | unknown _ => true
  | bind _ first rest => first.plain && rest.plain
  | sequence steps => Comp.allPlain steps
  | choose _ yes no => yes.plain && no.plain
  | bounce body => body.plain
  | _ => false

def Comp.allPlain : List Comp → Bool
  | [] => true
  | c :: cs => c.plain && Comp.allPlain cs

end

def Rest.plain : Rest → Bool
  | halt => true
  | entry .. => true
  | bind _ body _ _ k => body.plain && k.plain
  | sequence steps _ _ k => Comp.allPlain steps && k.plain
  | replace _ k => k.plain
  | _ => false

def Control.plain : Control → Bool
  | eval c _ _ _ k => c.plain && k.plain
  | call _ _ _ _ k => k.plain
  | give k _ _ => k.plain

def Step.plain (step : Step Rest Dist Float) : Prop :=
  ∀ k, step.rest? = some k → k.plain = true

def Move.plain : Move → Prop
  | go next => next.plain = true
  | rest step => step.plain
  | infer .. => False

def Program.plain (p : Program) : Prop := ∀ name d, p.find? name = some d → d.body.plain = true

theorem Program.plain_of_all {p : Program} (all : ∀ x ∈ p.definitions, x.2.body.plain = true) : p.plain := by
  intro name d found
  obtain ⟨before, later, same, _⟩ := List.lookup_eq_some_iff.mp found
  exact all (name, d) (same ▸ List.mem_append_right before List.mem_cons_self)

/-- A strategy is in charge, and no table of results is there. -/
structure World.Ready (w : World) : Prop where
  charged : w.strategies ≠ []
  tableless : w.memos = #[]

namespace Run

variable {α β : Type} {good : α → Prop} {fine : β → Prop}

/-- Whatever the world, once it is ready, the computation ends in the same way and leaves the world
as it is. What it returns is good. -/
def Settles (good : α → Prop) (x : Run α) : Prop :=
  ∃ r : Except Failure α, (∀ a, r = .ok a → good a) ∧
    ∀ w, w.Ready → x w = match r with
      | .ok a => .ok a w
      | .error e => .error e w

theorem Settles.pure {a : α} (holds : good a) : Settles good (pure a) :=
  ⟨.ok a, fun _ same => Except.ok.inj same ▸ holds, fun _ _ => rfl⟩

theorem Settles.throw (e : Failure) : Settles good (throw e) :=
  ⟨.error e, nofun, fun _ _ => rfl⟩

theorem Settles.lift {r : Except Failure α} (holds : ∀ a, r = .ok a → good a) :
    Settles good (Run.lift r) := by
  refine ⟨r, holds, fun w _ => ?_⟩
  cases r with
  | ok a => rfl
  | error e => rfl

theorem Settles.bind {x : Run α} {f : α → Run β} (first : Settles good x)
    (rest : ∀ a, good a → Settles fine (f a)) : Settles fine (x >>= f) := by
  obtain ⟨r, holds, ends⟩ := first
  cases r with
  | error e =>
    refine ⟨.error e, nofun, fun w ready => ?_⟩
    change EStateM.bind x f w = _
    simp only [EStateM.bind, ends w ready]
  | ok a =>
    obtain ⟨r, later_holds, later_ends⟩ := rest a (holds a rfl)
    refine ⟨r, later_holds, fun w ready => ?_⟩
    change EStateM.bind x f w = _
    simp only [EStateM.bind, ends w ready]
    exact later_ends w ready

/-- All that a plain computation asks of the world is that some strategy is in charge. -/
theorem Settles.current {x : Run α} (rest : Settles good x) :
    Settles good (Run.current >>= fun _ => x) := by
  obtain ⟨r, holds, ends⟩ := rest
  refine ⟨r, holds, fun w ready => ?_⟩
  rw [← ends w ready]
  obtain ⟨active, others, some_there⟩ := List.exists_cons_of_ne_nil ready.charged
  obtain ⟨strategies, _⟩ := w
  subst some_there
  rfl

theorem Settles.lift_bind {r : Except Failure α} {f : α → Run β} (rest : ∀ a, Settles fine (f a)) :
    Settles fine (Run.lift r >>= f) :=
  have lifted : Settles (fun _ => True) (Run.lift r) := .lift fun _ _ => trivial
  lifted.bind fun a _ => rest a

end Run

namespace Machine

open Run

variable {cx : Context}

/-- Where there is no table, nothing remembered can be called. -/
theorem callMemo_settles {good : Control → Prop} (table : Nat) (args : List Value) (a : Address) (s : Store)
    (k : Rest) : Settles good (callMemo table args a s k) := by
  refine .lift_bind fun key => ⟨.error .illTyped, nofun, fun w ready => ?_⟩
  obtain ⟨_, memos⟩ := w
  obtain ⟨_, rfl⟩ := ready
  rfl

/-- A function of a plain program is entered at its body. -/
theorem enter_settles (plain_program : cx.program.plain) {f : Value} {args : List Value}
    {a : Address} {s : Store} {k : Rest} (rest : k.plain = true) :
    Settles (Control.plain · = true) (enter cx f args a s k) := by
  unfold enter
  split
  next table _ => exact callMemo_settles table args a s k
  next name =>
    cases found : cx.program.find? name with
    | none => exact .throw _
    | some d =>
      by_cases other : (d.params.length != args.length) = true
      · simp only [if_pos other]
        exact .throw _
      · simp only [if_neg other]
        apply Settles.pure
        rw [Control.plain, plain_program name d found]
        exact rest
  next => exact .throw _

theorem advanceComp_settles {c : Comp} {vars : Vars} {a : Address} {s : Store} {k : Rest}
    (plain : c.plain = true) (rest : k.plain = true) :
    Settles Move.plain (advanceComp cx c vars a s k) := by
  have goes {next : Control} (holds : next.plain = true) :
      Settles Move.plain (pure (.go next) : Run Move) := .pure holds
  have waits {step : Step Rest Dist Float} {k' : Rest} (holds : step.rest? = some k')
      (remains : k'.plain = true) : Settles Move.plain (pure (.rest step) : Run Move) := by
    refine .pure fun k'' same => ?_
    rw [holds] at same
    cases same
    exact remains
  have evals {c : Comp} (holds : c.plain = true) :
      (Control.eval c vars a s k).plain = true := by
    rw [Control.plain, holds, rest]
    rfl
  cases c with
  | ret e => exact .lift_bind fun _ => goes rest
  | bind name first body =>
    obtain ⟨begins, remains⟩ := (Bool.and_eq_true _ _).mp plain
    refine goes ?_
    simp [Control.plain, Rest.plain, begins, remains, rest]
  | sequence steps =>
    match steps, plain with
    | [], _ => exact goes rest
    | [c], plain =>
      simp only [Comp.plain, Comp.allPlain, Bool.and_true] at plain
      exact goes (evals plain)
    | c :: d :: more, plain =>
      simp only [Comp.plain, Comp.allPlain, Bool.and_eq_true] at plain
      refine goes ?_
      simp [Control.plain, Rest.plain, Comp.allPlain, plain, rest]
  | choose test yes no =>
    obtain ⟨left, right⟩ := (Bool.and_eq_true _ _).mp plain
    refine .lift_bind fun v => goes (evals ?_)
    cases v.isTrue with
    | true => exact left
    | false => exact right
  | sample t d => exact .lift_bind fun _ => .lift_bind fun _ => .current (waits rfl rest)
  | factor t e =>
    exact .lift_bind fun _ => .lift_bind fun _ => .current (.lift_bind fun _ => waits rfl rest)
  | observe t d e =>
    exact .lift_bind fun _ => .lift_bind fun _ => .lift_bind fun _ => .current
      (.lift_bind fun _ => waits rfl rest)
  | set key e => exact .lift_bind fun _ => .lift_bind fun _ => .lift_bind fun _ => goes rest
  | call t f args => exact .lift_bind fun _ => .lift_bind fun _ => .lift_bind fun _ => goes rest
  | apply t f args => exact .lift_bind fun _ => .lift_bind fun _ => .lift_bind fun _ => goes rest
  | bounce body => exact goes (evals plain)
  | tensor form t e => exact .lift_bind fun _ => .lift_bind fun _ => .lift_bind fun _ => goes rest
  | raise message => exact .throw _
  | stop e => exact .lift_bind fun _ => .pure fun _ none_waits => nomatch none_waits
  | unknown word => exact .throw _
  | _ => cases plain

theorem advance_settles (plain_program : cx.program.plain) {control : Control}
    (plain : control.plain = true) : Settles Move.plain (advance cx control) := by
  cases control with
  | eval c vars a s k =>
    obtain ⟨computes, rest⟩ := (Bool.and_eq_true _ _).mp plain
    exact advanceComp_settles computes rest
  | call f args a s k => exact (enter_settles plain_program plain).bind fun next holds => .pure holds
  | give k s v =>
    cases k with
    | halt => exact .pure fun _ none_waits => nomatch none_waits
    | entry f a => exact .pure rfl
    | bind name body vars a k => exact .pure plain
    | sequence steps vars a k => exact .pure plain
    | replace observed k => exact .pure plain
    | _ => cases plain

/-- A plain program comes to rest at a plain rest, if it comes to rest. -/
theorem run_settles (plain_program : cx.program.plain) (fuel : Nat) {control : Control}
    (plain : control.plain = true) : Settles Step.plain (run cx fuel control) := by
  induction fuel generalizing control with
  | zero => exact .throw _
  | succ fuel ih =>
    unfold run
    refine (advance_settles plain_program plain).bind fun move holds => ?_
    cases move with
    | go next => exact ih holds
    | rest step => exact .pure holds
    | infer i s k => cases holds

theorem resume_settles (plain_program : cx.program.plain) (fuel : Nat) {k : Rest}
    (plain : k.plain = true) (s : Store) (v : Value) :
    Settles Step.plain (resume cx fuel k s v) := by
  have given : (Control.give k s v).plain = true := plain
  exact run_settles plain_program fuel given

end Machine

namespace Run

theorem splitKey_ready {key : Random.Key} {w w' : World} (ready : w.Ready)
    (split : splitKey w = .ok key w') : w'.Ready := by
  obtain ⟨active, others, some_there⟩ := List.exists_cons_of_ne_nil ready.charged
  obtain ⟨strategies, _⟩ := w
  subst some_there
  unfold splitKey at split
  obtain ⟨current, middle, charged, split⟩ := bind_eq_ok.mp split
  cases charged
  cases key_there : active.key with
  | none =>
    simp only [key_there] at split
    cases split
  | some key =>
    simp only [key_there] at split
    obtain ⟨_, last, updated, returned⟩ := bind_eq_ok.mp split
    obtain ⟨_, rfl⟩ := pure_eq_ok.mp returned
    cases updated
    exact ⟨List.cons_ne_nil _ _, ready.tableless⟩

end Run

/-- The host of the machine: a strategy in charge stays in charge, and makes no tables. -/
instance : LawfulHost World Dist Float where
  densities := ⟨Dist.enumerable, Dist.support, Dist.logDensity⟩
  ready := World.Ready
  exists_ready := ⟨{ World.start with strategies := [⟨"", none, .root, none⟩] }, nofun, rfl⟩
  fail_eq _ := rfl
  enumerable_eq _ := rfl
  support_eq d := by
    simp only [Host.support]
    cases d.support <;> rfl
  logDensity_eq d v := by
    simp only [Host.logDensity]
    cases d.logDensity v <;> rfl
  note_ready n {w} ready := ⟨_, rfl, ready.charged, ready.tableless⟩
  draw_ready {d v w w'} ready drew := by
    obtain ⟨key, middle, split, drawn⟩ := bind_eq_ok.mp drew
    have charged := Run.splitKey_ready ready split
    cases answer : d.draw key with
    | ok v' =>
      rw [answer] at drawn
      cases drawn
      exact charged
    | error e =>
      rw [answer] at drawn
      cases drawn
  logUniform_ready {x w w'} ready drew := by
    obtain ⟨key, middle, split, drawn⟩ := bind_eq_ok.mp drew
    obtain ⟨_, rfl⟩ := pure_eq_ok.mp drawn
    exact Run.splitKey_ready ready split
  indexBelow_ready {n i w w'} ready drew := by
    obtain ⟨key, middle, split, drawn⟩ := bind_eq_ok.mp drew
    obtain ⟨_, rfl⟩ := pure_eq_ok.mp drawn
    exact Run.splitKey_ready ready split

namespace Machine

open Run

variable {cx : Context}

/-- What a computation gives in a world that has a strategy in charge and nothing else. -/
def outcome {α : Type} (x : Run α) : Except Failure α :=
  match x { World.start with strategies := [⟨"", none, .root, none⟩] } with
  | .ok a _ => .ok a
  | .error e _ => .error e

def program (cx : Context) (fuel : Nat) (entry : Rest) : PlainProgram Rest Dist Float where
  entry := entry
  next k s v := outcome (resume cx fuel k s v)

theorem outcome_settles {α : Type} {good : α → Prop} {x : Run α} (settles : Settles good x) :
    (∀ a, outcome x = .ok a → good a) ∧ Follows x (outcome x) := by
  obtain ⟨r, holds, ends⟩ := settles
  have known : outcome x = r := by
    unfold outcome
    rw [ends _ ⟨List.cons_ne_nil _ _, rfl⟩]
    cases r with
    | ok a => rfl
    | error e => rfl
  rw [known]
  refine ⟨holds, ?_⟩
  cases r with
  | ok a => exact fun w ready => ⟨w, ends w ready, ready⟩
  | error e => exact fun w ready => ⟨w, ends w ready⟩

/-- The machine performs plain programs. -/
theorem resume_performs (plain_program : cx.program.plain) (fuel : Nat) {entry : Rest}
    (plain : entry.plain = true) :
    Performs (resume cx fuel) (program cx fuel entry) (Rest.plain · = true) where
  entry := plain
  follows s v held := (outcome_settles (resume_settles plain_program fuel held s v)).2
  closed held goes waits :=
    (outcome_settles (resume_settles plain_program fuel held _ _)).1 _ goes _ waits

end Machine

end ProbCore
