import ProbCore.Proofs.Relocation

/-! One move of a placeless program at two bases. The moves are the same, and after them the
program is still placeless and at addresses that extend the one it began at. -/

namespace ProbCore

/-- `y` does under the base what `x` does, which returns only what is good. -/
structure Relocates {α β : Type} (b h : Address) (good : α → Prop) (φ : α → β) (x : Run α)
    (y : Run β) : Prop where
  mirrors : Mirrors (relocating b h) φ x y
  yields (a : α) : Yields x a → good a

namespace Relocates

variable {α β α' β' : Type} {b h : Address} {good : α → Prop} {good' : α' → Prop} {φ : α → β}
  {φ' : α' → β'} {x : Run α} {y : Run β}

theorem pure {a : α} {b' : β} (same : b' = φ a) (kept : good a) :
    Relocates b h good φ (pure a) (pure b') where
  mirrors := .pure_of_eq same
  yields _ yields := yields.pure ▸ kept

theorem throw (e : Failure) : Relocates b h good φ (throw e) (throw e) where
  mirrors := .throw (.same e)
  yields := by
    rintro a ⟨w, w', returned⟩
    cases returned

theorem bind {f : α → Run α'} {g : β → Run β'} (first : Relocates b h good φ x y)
    (rest : ∀ a, good a → Relocates b h good' φ' (f a) (g (φ a))) :
    Relocates b h good' φ' (x >>= f) (y >>= g) where
  mirrors := first.mirrors.bind_yields fun a yields => (rest a (first.yields a yields)).mirrors
  yields a' yields := by
    obtain ⟨a, here, there⟩ := yields.bind
    exact (rest a (first.yields a here)).yields a' there

theorem ite {c : Prop} [Decidable c] {x' : Run α} {y' : Run β} (yes : Relocates b h good φ x y)
    (no : Relocates b h good φ x' y') :
    Relocates b h good φ (if c then x else x') (if c then y else y') := by
  split
  · exact yes
  · exact no

/-- What is the same at both bases, followed by what depends on the base. -/
theorem after {f : α → Run α'} {g : β → Run β'} (first : Mirrors (relocating b h) φ x y)
    (rest : ∀ a, Relocates b h good' φ' (f a) (g (φ a))) :
    Relocates b h good' φ' (x >>= f) (y >>= g) :=
  bind ⟨first, fun _ _ => trivial⟩ fun a _ => rest a

theorem shared {f : α → Run α'} {g : α → Run β'} {x y : Run α}
    (first : Mirrors (relocating b h) id x y) (rest : ∀ a, Relocates b h good' φ' (f a) (g a)) :
    Relocates b h good' φ' (x >>= f) (y >>= g) := after first rest

theorem aloof {f : α → Run α'} {g : α → Run β'} {x : Run α} (first : x.Aloof)
    (rest : ∀ a, Relocates b h good' φ' (f a) (g a)) :
    Relocates b h good' φ' (x >>= f) (x >>= g) := shared (aloof_mirrors first).relocating rest

/-- What is read is the same at both bases. -/
theorem read {r r' : Except Failure α} {f : α → Run α'} {g : α → Run β'} (same : r' = r)
    (rest : ∀ a, Relocates b h good' φ' (f a) (g a)) :
    Relocates b h good' φ' (Run.lift r >>= f) (Run.lift r' >>= g) := by
  rw [same]
  exact aloof (.lift r) rest

theorem get {f : World → Run α} {g : World → Run β} (each : ∀ w, Relocates b h good φ (f w) (g w))
    (unseen : ∀ w strategies notices, g (w.amid strategies notices) = g w) :
    Relocates b h good φ (get >>= f) (get >>= g) where
  mirrors := get_relocating (fun w => (each w).mirrors) unseen
  yields := by
    rintro a ⟨w, w', returned⟩
    exact (each w).yields a ⟨w, w', returned⟩

end Relocates

section

variable {b h : Address} (sc : Scope) {α β : Type} {good : α → Prop} {φ : α → β}

/-- A site moves with the base. -/
theorem site_relocates (extends_ : sc.address.Extends h) {t : Option Expr}
    (placeless : t.all Expr.placeless = true) {f : Address → Run α} {g : Address → Run β}
    (rest : ∀ place, place.Extends h → Relocates b h good φ (f place) (g (place.under b))) :
    Relocates b h good φ (Run.lift (sc.site t) >>= f)
      (Run.lift ({ sc with address := sc.address.under b }.site t) >>= g) := by
  rw [sc.site_under b placeless]
  cases found : sc.site t with
  | error e =>
    have refused : Relocates b h (fun _ => False) (Address.under · b) (Run.lift (.error e))
      (Run.lift (.error e)) := .throw e
    exact refused.bind fun _ never => never.elim
  | ok place => exact rest place ((Scope.site_extends found).trans extends_)

end

namespace Machine

open Run

variable {b h : Address} {cx : Context}

theorem nextVisit_relocates {pass : Pass} {s : Store} {k : Rest}
    (extends_ : pass.address.Extends h) (rooted : k.Rooted h) :
    Relocates b h (Control.Rooted h) (Control.under b) (nextVisit pass s k)
      (nextVisit (pass.under b) s (k.under b)) := by
  obtain ⟨data, function, address, relative, remaining, results⟩ := pass
  cases remaining with
  | nil => exact .after (finishPass_mirrors relative) fun _ => .pure rfl rooted
  | cons i remaining =>
    unfold nextVisit
    dsimp only [Pass.under]
    cases data[i.toNat]? with
    | none => exact .throw _
    | some x =>
      refine .pure ?_ ⟨extends_.extend _, extends_, rooted⟩
      rw [Address.element, ← Address.extend_under]
      rfl

theorem beginPass_relocates {a : Address} (extends_ : a.Extends h)
    (data function : Value) (batch : Option Value) (s : Store) {k : Rest} (rooted : k.Rooted h) :
    Relocates b h (Control.Rooted h) (Control.under b) (beginPass a data function batch s k)
      (beginPass (a.under b) data function batch s (k.under b)) := by
  unfold beginPass
  extract_lets items n goes check goes' check'
  have visits : ∀ batch,
      Relocates b h (Control.Rooted h) (Control.under b) (goes batch) (goes' batch) := by
    intro batch
    refine .ite (.pure rfl rooted) (.after current_mirrors fun _ =>
      .shared (relative_mirrors extends_) fun rel => ?_)
    extract_lets select select'
    have selects : ∀ r, Relocates b h (Control.Rooted h) (Control.under b) (select r) (select' r) := by
      refine fun _ => .get (fun w => .shared (fetch_mirrors _ _ _ _) fun given =>
        .aloof (checkIndices_aloof given n) fun indices => ?_) fun _ _ _ => rfl
      refine .aloof (.modify fun _ _ _ => rfl) fun _ => .aloof (.note rfl) fun _ => ?_
      exact nextVisit_relocates extends_ rooted
    exact .ite (.aloof (.throw _) selects) (selects ())
  have checks : ∀ r, Relocates b h (Control.Rooted h) (Control.under b) (check r) (check' r) := by
    intro _
    dsimp only [check, check']
    split
    · exact visits none
    · exact visits none
    · split
      · exact .aloof (.throw _) visits
      · exact .ite (visits _) (.aloof (.throw _) visits)
  exact .ite (.aloof (.throw _) checks) (checks ())

theorem param_relocates {a : Address} (extends_ : a.Extends h)
    (start : Value) (mean sd : Float) (key : Option Random.Key) :
    Relocates b h (fun _ => True) id (param a start mean sd key)
      (param (a.under b) start mean sd key) := by
  unfold param
  refine .shared (relative_mirrors extends_) fun rel => ?_
  extract_lets looks
  have looked : ∀ r, Relocates b h (fun _ => True) id (looks r) (looks r) := by
    refine fun _ => .get (fun w => ?_) fun _ _ _ => rfl
    cases w.params.get? rel with
    | some v => exact .pure rfl trivial
    | none =>
      exact .shared (makeParam_relocating start mean sd key) fun v =>
        .aloof (.modify fun _ _ _ => rfl) fun _ => .aloof (.note rfl) fun _ => .pure rfl trivial
  exact .ite (.aloof (.throw _) looked) (looked ())

theorem callMemo_relocates (table : Nat) (args : List Value) {a : Address} (extends_ : a.Extends h)
    (s : Store) {k : Rest} (rooted : k.Rooted h) :
    Relocates b h (Control.Rooted h) (Control.under b) (callMemo table args a s k)
      (callMemo table args (a.under b) s (k.under b)) := by
  refine .aloof (.lift _) fun key => .aloof (memoAt_aloof table) fun m => .ite ?_ ?_
  · exact .aloof (.lift _) fun _ => .aloof (setMemo_aloof table _) fun _ => .pure rfl rooted
  · exact .pure rfl ⟨extends_, rooted⟩

theorem enter_relocates (placeless : cx.program.placeless) (function : Value) (args : List Value)
    {a : Address} (extends_ : a.Extends h) (s : Store) {k : Rest} (rooted : k.Rooted h) :
    Relocates b h (Control.Rooted h) (Control.under b) (enter cx function args a s k)
      (enter cx function args (a.under b) s (k.under b)) := by
  unfold enter
  cases function with
  | memo table name => exact callMemo_relocates table args extends_ s rooted
  | function name =>
    dsimp only
    cases found : cx.program.find? name with
    | none => exact .throw _
    | some d => exact .ite (.throw _) (.pure rfl ⟨placeless name d found, extends_, rooted⟩)
  | _ => exact .throw _

section

variable {vars : Vars} {a : Address} {s : Store} {k : Rest}

/-- A computation moves at the base as it does elsewhere. -/
def MovesUnder (b h : Address) (cx : Context) (vars : Vars) (a : Address) (s : Store) (k : Rest)
    (c : Comp) : Prop :=
  Relocates b h (Move.Rooted h) (Move.under b) (advanceComp cx c vars a s k)
    (advanceComp cx c vars (a.under b) s (k.under b))

/-- The scope that a computation's expressions are read in. -/
def scopeAt (cx : Context) (vars : Vars) (s : Store) (a : Address) : Scope :=
  ⟨cx.program, cx.globals, vars, s, a⟩

/-! ### What is run next -/

theorem sequence_relocates {steps : List Comp} (extends_ : a.Extends h) (rooted : k.Rooted h)
    (code : Comp.allPlaceless steps = true) : MovesUnder b h cx vars a s k (.sequence steps) := by
  match steps with
  | [] => exact .pure rfl rooted
  | [c] =>
    obtain ⟨first, _⟩ := (Bool.and_eq_true _ _).mp code
    exact .pure rfl ⟨first, extends_, rooted⟩
  | c :: c' :: rest =>
    obtain ⟨first, others⟩ := (Bool.and_eq_true _ _).mp code
    exact .pure rfl ⟨first, extends_, others, extends_, rooted⟩

theorem choose_relocates {test : Expr} {yes no : Comp} (extends_ : a.Extends h)
    (rooted : k.Rooted h) (code : test.placeless = true) (first : yes.placeless = true)
    (second : no.placeless = true) : MovesUnder b h cx vars a s k (.choose test yes no) := by
  refine .read (test.eval_elsewhere (scopeAt cx vars s a) _ code) fun v => ?_
  cases v.isTrue with
  | true => exact .pure rfl ⟨first, extends_, rooted⟩
  | false => exact .pure rfl ⟨second, extends_, rooted⟩

/-! ### Steps handed to the strategy in charge -/

theorem sample_relocates {t : Option Expr} {d : DistExpr} (extends_ : a.Extends h)
    (rooted : k.Rooted h) (site : t.all Expr.placeless = true) (dist : d.placeless = true) :
    MovesUnder b h cx vars a s k (.sample t d) := by
  refine site_relocates (scopeAt cx vars s a) extends_ site fun place _ =>
    .read (d.eval_elsewhere (scopeAt cx vars s a) _ dist) fun d =>
      .after current_mirrors fun _ => .pure rfl ?_
  rintro _ ⟨⟩
  exact rooted

theorem factor_relocates {t : Option Expr} {e : Expr} (extends_ : a.Extends h)
    (rooted : k.Rooted h) (site : t.all Expr.placeless = true) (score : e.placeless = true) :
    MovesUnder b h cx vars a s k (.factor t e) := by
  refine site_relocates (scopeAt cx vars s a) extends_ site fun place _ =>
    .read (e.eval_elsewhere (scopeAt cx vars s a) _ score) fun v =>
      .after current_mirrors fun _ => .aloof (.lift _) fun x => .pure rfl ?_
  rintro _ ⟨⟩
  exact rooted

theorem observe_relocates {t : Option Expr} {d : DistExpr} {e : Expr} (extends_ : a.Extends h)
    (rooted : k.Rooted h) (site : t.all Expr.placeless = true) (dist : d.placeless = true)
    (value : e.placeless = true) : MovesUnder b h cx vars a s k (.observe t d e) := by
  refine site_relocates (scopeAt cx vars s a) extends_ site fun place _ =>
    .read (d.eval_elsewhere (scopeAt cx vars s a) _ dist) fun d =>
      .read (e.eval_elsewhere (scopeAt cx vars s a) _ value) fun v =>
        .after current_mirrors fun _ => .aloof (.lift _) fun x => .pure rfl ?_
  rintro _ ⟨⟩
  exact rooted

/-! ### Calls -/

theorem call_relocates {t : Option Expr} {f : Expr} {args : List Expr} (extends_ : a.Extends h)
    (rooted : k.Rooted h) (site : t.all Expr.placeless = true) (function : f.placeless = true)
    (given : Expr.allPlaceless args = true) : MovesUnder b h cx vars a s k (.call t f args) :=
  .read (f.eval_elsewhere (scopeAt cx vars s a) _ function) fun _ =>
    site_relocates (scopeAt cx vars s a) extends_ site fun _ below =>
      .read (Expr.evalAll_elsewhere (scopeAt cx vars s a) _ args given) fun _ =>
        .pure rfl ⟨below, rooted⟩

theorem apply_relocates {t : Option Expr} {f : Expr} {args : List Expr} (extends_ : a.Extends h)
    (rooted : k.Rooted h) (site : t.all Expr.placeless = true) (function : f.placeless = true)
    (given : Expr.allPlaceless args = true) : MovesUnder b h cx vars a s k (.apply t f args) :=
  site_relocates (scopeAt cx vars s a) extends_ site fun _ below =>
    .read (f.eval_elsewhere (scopeAt cx vars s a) _ function) fun _ =>
      .read (Expr.evalAll_elsewhere (scopeAt cx vars s a) _ args given) fun _ =>
        .pure rfl ⟨below, rooted⟩

theorem map_relocates {t batch : Option Expr} {data f : Expr} (extends_ : a.Extends h)
    (rooted : k.Rooted h) (site : t.all Expr.placeless = true) (items : data.placeless = true)
    (function : f.placeless = true) (size : batch.all Expr.placeless = true) :
    MovesUnder b h cx vars a s k (.map t data f batch) :=
  site_relocates (scopeAt cx vars s a) extends_ site fun _ below =>
    .read (data.eval_elsewhere (scopeAt cx vars s a) _ items) fun _ =>
      .read (f.eval_elsewhere (scopeAt cx vars s a) _ function) fun _ =>
        .read ((scopeAt cx vars s a).optional_elsewhere _ size) fun _ =>
          .bind (beginPass_relocates below _ _ _ _ rooted) fun _ next => .pure rfl next

/-! ### What is made and kept -/

theorem cache_relocates {t bound : Option Expr} {f : Expr} (extends_ : a.Extends h)
    (rooted : k.Rooted h) (site : t.all Expr.placeless = true) (function : f.placeless = true)
    (size : bound.all Expr.placeless = true) : MovesUnder b h cx vars a s k (.cache t f bound) :=
  site_relocates (scopeAt cx vars s a) extends_ site fun _ _ =>
    .read (f.eval_elsewhere (scopeAt cx vars s a) _ function) fun _ =>
      .read ((scopeAt cx vars s a).optional_elsewhere _ size) fun _ =>
        .aloof (newMemo_aloof _ _) fun _ => .pure rfl rooted

theorem paramMove_relocates {t mean sd seed : Option Expr} {start : Expr} (extends_ : a.Extends h)
    (rooted : k.Rooted h) (site : t.all Expr.placeless = true) (first : start.placeless = true)
    (middle : mean.all Expr.placeless = true) (width : sd.all Expr.placeless = true)
    (seeded : seed.all Expr.placeless = true) :
    MovesUnder b h cx vars a s k (.param t start mean sd seed) :=
  site_relocates (scopeAt cx vars s a) extends_ site fun _ below =>
    .read (start.eval_elsewhere (scopeAt cx vars s a) _ first) fun _ =>
      .read ((scopeAt cx vars s a).optional_elsewhere _ middle) fun _ =>
        .read ((scopeAt cx vars s a).optional_elsewhere _ width) fun _ =>
          .read ((scopeAt cx vars s a).optional_elsewhere _ seeded) fun _ => .aloof (.lift _) fun _ =>
            .aloof (.lift _) fun _ => .aloof (.lift _) fun _ =>
              .bind (param_relocates below _ _ _ _) fun _ _ => .pure rfl rooted

theorem tensor_relocates {t : Option Expr} {e : Expr} (form : TensorForm) (extends_ : a.Extends h)
    (rooted : k.Rooted h) (site : t.all Expr.placeless = true) (cells : e.placeless = true) :
    MovesUnder b h cx vars a s k (.tensor form t e) :=
  site_relocates (scopeAt cx vars s a) extends_ site fun _ _ =>
    .read (e.eval_elsewhere (scopeAt cx vars s a) _ cells) fun _ =>
      .aloof (.lift _) fun _ => .pure rfl rooted

theorem advanceComp_relocates {c : Comp} (own : (Control.eval c vars a s k).infers = false)
    (rooted : (Control.eval c vars a s k).Rooted h) : MovesUnder b h cx vars a s k c := by
  obtain ⟨code, extends_, rooted⟩ := rooted
  let here := scopeAt cx vars s a
  cases c with simp only [Comp.placeless, Bool.and_eq_true] at code
  | ret e => exact .read (e.eval_elsewhere here _ code) fun v => .pure rfl rooted
  | bind name first rest => exact .pure rfl ⟨code.1, extends_, code.2, extends_, rooted⟩
  | sequence steps => exact sequence_relocates extends_ rooted code
  | choose test yes no => exact choose_relocates extends_ rooted code.1.1 code.1.2 code.2
  | bounce c => exact .pure rfl ⟨code, extends_, rooted⟩
  | sample t d => exact sample_relocates extends_ rooted code.1 code.2
  | factor t e => exact factor_relocates extends_ rooted code.1 code.2
  | observe t d e => exact observe_relocates extends_ rooted code.1.1 code.1.2 code.2
  | set key e =>
    exact .read (key.eval_elsewhere here _ code.1) fun _ =>
      .read (e.eval_elsewhere here _ code.2) fun _ => .aloof (.lift _) fun _ => .pure rfl rooted
  | call t f args => exact call_relocates extends_ rooted code.1.1 code.1.2 code.2
  | apply t f args => exact apply_relocates extends_ rooted code.1.1 code.1.2 code.2
  | relative t =>
    exact site_relocates here extends_ code fun place below =>
      .shared (relative_mirrors below) fun _ => .pure rfl rooted
  | map t data f batch =>
    exact map_relocates extends_ rooted code.1.1.1 code.1.1.2 code.1.2 code.2
  | cache t f bound => exact cache_relocates extends_ rooted code.1.1 code.1.2 code.2
  | param t start mean sd seed =>
    exact paramMove_relocates extends_ rooted code.1.1.1.1 code.1.1.1.2 code.1.1.2 code.1.2 code.2
  | tensor form t e => exact tensor_relocates form extends_ rooted code.1 code.2
  | infer t f method options => cases own
  | emit e =>
    exact .read (e.eval_elsewhere here _ code) fun v => .aloof (emit_aloof v) fun _ =>
      .pure rfl rooted
  | raise message => exact .throw _
  | stop e => exact .read (e.eval_elsewhere here _ code) fun v => .pure rfl nofun
  | unknown _ => exact .throw _

end

theorem advance_relocates (placeless : cx.program.placeless)
    {control : Control} (own : control.infers = false) (rooted : control.Rooted h) :
    Relocates b h (Move.Rooted h) (Move.under b) (advance cx control)
      (advance cx (control.under b)) := by
  cases control with
  | eval c vars a s k => exact advanceComp_relocates own rooted
  | call f args a s k =>
    exact .bind (enter_relocates placeless f args rooted.1 s rooted.2) fun _ next => .pure rfl next
  | give k s v =>
    cases k with
    | halt => exact .pure rfl nofun
    | deliver => exact .pure rfl nofun
    | entry f a => exact .pure rfl ⟨rooted, trivial⟩
    | bind name body vars a k => exact .pure rfl rooted
    | sequence steps vars a k => exact .pure rfl rooted
    | replace observed k => exact .pure rfl rooted
    | remember table key k => exact .aloof (remember_aloof table key v) fun _ => .pure rfl rooted
    | visit pass k =>
      exact .bind (nextVisit_relocates rooted.1 rooted.2) fun _ next => .pure rfl next

end Machine

end ProbCore
