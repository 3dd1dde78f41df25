import ProbCore.Proofs.Traversal
import ProbCore.Proofs.ValueIdentity

/-! What all executions of a process share of passes over data and of parameters. Only the
beginning of a pass writes down a selection, and only a parameter that is not registered yet is
registered. All else leaves these records as they are. -/

namespace ProbCore

namespace Table

variable {α β : Type} [BEq α]

theorem insert_cons (entry : α × β) (rest : List (α × β)) (key : α) (value : β) :
    (⟨entry :: rest⟩ : Table α β).insert key value =
      if entry.1 == key then ⟨(entry.1, value) :: rest⟩
      else ⟨entry :: ((⟨rest⟩ : Table α β).insert key value).entries⟩ :=
  apply_ite Table.mk ((entry.1 == key) = true) ((entry.1, value) :: rest) _

theorem get?_cons (entry : α × β) (rest : List (α × β)) (key : α) :
    (⟨entry :: rest⟩ : Table α β).get? key =
      if entry.1 == key then some entry.2 else (⟨rest⟩ : Table α β).get? key := by
  unfold get?
  rw [List.find?_cons]
  cases entry.1 == key <;> rfl

/-- A key that is found nowhere comes last. -/
theorem insert_of_get?_none {t : Table α β} {key : α} (absent : t.get? key = none) (value : β) :
    t.insert key value = ⟨t.entries ++ [(key, value)]⟩ := by
  obtain ⟨entries⟩ := t
  induction entries with
  | nil => rfl
  | cons entry rest ih =>
    rw [get?_cons] at absent
    split at absent
    next => cases absent
    next other => rw [insert_cons, if_neg other, ih absent, List.cons_append]

theorem mem_keys_insert {t : Table α β} {key k : α} {value : β}
    (member : k ∈ (t.insert key value).keys) : k ∈ t.keys ∨ k = key := by
  obtain ⟨entries⟩ := t
  induction entries with
  | nil => exact .inr (List.mem_singleton.mp member)
  | cons entry rest ih =>
    rw [insert_cons] at member
    split at member
    next => exact .inl member
    next =>
      obtain rfl | member := List.mem_cons.mp member
      · exact .inl List.mem_cons_self
      · exact (ih member).imp_left (List.mem_cons_of_mem _)

/-- What was just written is found wherever its key is, and all else where it was. -/
theorem get?_insert {t : Table α β} {key other : α} {value : β}
    (hit : (key == other) = true → ∀ k ∈ t.keys, (k == other) = (k == key))
    (miss : (key == other) = false → ∀ k ∈ t.keys, (k == key) = true → (k == other) = false) :
    (t.insert key value).get? other = if key == other then some value else t.get? other := by
  obtain ⟨entries⟩ := t
  induction entries with
  | nil => exact get?_cons (key, value) [] other
  | cons entry rest ih =>
    have later := ih (fun same k member => hit same k (List.mem_cons_of_mem _ member))
      fun apart k member => miss apart k (List.mem_cons_of_mem _ member)
    rw [insert_cons, get?_cons]
    by_cases here : (entry.1 == key) = true
    · rw [if_pos here, get?_cons]
      cases same : key == other with
      | true => rw [hit same entry.1 List.mem_cons_self, if_pos here, if_pos rfl]
      | false =>
        rw [miss same entry.1 List.mem_cons_self here, if_neg Bool.false_ne_true,
          if_neg Bool.false_ne_true]
        rfl
    · rw [if_neg here, get?_cons, later]
      cases same : key == other with
      | true =>
        rw [hit same entry.1 List.mem_cons_self, if_neg here]
        rfl
      | false => rfl

end Table

namespace Address

/-- Among addresses that can be keys, equality is symmetric and transitive, so that equal ones find
the same. -/
theorem beq_congr {k key r : Address} (proper : k.isHashable = true)
    (hashable : key.isHashable = true) (known : r.isHashable = true) (same : (key == r) = true) :
    (k == r) = (k == key) :=
  Bool.eq_iff_iff.mpr
    ⟨fun found => beq_trans proper known hashable found (beq_symm hashable known same),
      fun found => beq_trans proper hashable known found same⟩

variable {β : Type} {t : Table Address β} {key r : Address}

theorem get?_congr (keys : ∀ k ∈ t.keys, k.isHashable = true) (hashable : key.isHashable = true)
    (known : r.isHashable = true) (same : (key == r) = true) : t.get? r = t.get? key := by
  obtain ⟨entries⟩ := t
  induction entries with
  | nil => rfl
  | cons entry rest ih =>
    rw [Table.get?_cons, Table.get?_cons, ih fun k member => keys k (List.mem_cons_of_mem _ member),
      beq_congr (keys entry.1 List.mem_cons_self) hashable known same]

theorem get?_insert {value : β} (keys : ∀ k ∈ t.keys, k.isHashable = true)
    (hashable : key.isHashable = true) (known : r.isHashable = true) :
    (t.insert key value).get? r = if key == r then some value else t.get? r := by
  refine Table.get?_insert (fun same k member => beq_congr (keys k member) hashable known same)
    fun apart k member found => ?_
  have proper := keys k member
  by_contra hit
  have hit : (k == r) = true := by simpa using hit
  have same := beq_trans hashable proper known (beq_symm proper hashable found) hit
  rw [apart] at same
  cases same

end Address

/-- What a process remembers of passes and parameters: the latest selection at each address, what
strategies were told of it when they were asked for the next one, latest first, and the parameters
that are registered. -/
structure Records where
  minibatches : Table Address (List Int)
  told : List (Address × Option (List Int))
  params : Table Address Value

/-- What a strategy is told of the previous selection at an address. -/
def SelectionCall.told? : SelectionCall → Option (Address × Option (List Int))
  | .fetch previous _ _ a => some (a, previous)
  | .final _ => none

/-- The positions that a value lists. -/
def Value.indices (v : Value) : List Int := (v.items?.getD []).filterMap fun x => x.toInt.toOption

namespace World

def records (w : World) : Records := ⟨w.minibatches, w.calls.filterMap (·.told?), w.params⟩

/-- An address as the strategy in charge sees it. -/
def seen (w : World) (a : Address) : Address :=
  match w.strategies with
  | [] => a
  | s :: _ => a.within s.address

/-- What the strategy in charge will answer when it is asked which elements to visit. -/
def answer (w : World) : Value :=
  match w.strategies with
  | { picks := some (pick :: _), .. } :: _ => pick
  | _ => .list []

end World

namespace Run

variable {α β γ : Type}

/-- A computation that leaves the records as they are, whatever comes of it. -/
def Leaves (x : Run α) : Prop := ∀ w, (ended (x w)).records = w.records

namespace Leaves

variable {x : Run α}

theorem pure (a : α) : Leaves (pure a : Run α) := fun _ => rfl

theorem throw (e : Failure) : Leaves (throw e : Run α) := fun _ => rfl

theorem bind {f : α → Run β} (first : Leaves x) (rest : ∀ a, Leaves (f a)) : Leaves (x >>= f) := by
  intro w
  have kept := first w
  cases began : x w with
  | ok a middle =>
    rw [began] at kept
    rw [bind_of_ok began, rest a middle]
    exact kept
  | error e middle =>
    rw [began] at kept
    rw [bind_of_error began]
    exact kept

theorem lift (r : Except Failure α) : Leaves (Run.lift r) := by
  cases r with
  | ok a => exact .pure a
  | error e => exact .throw e

/-- What is only read leaves the records to what comes after it. -/
theorem reading {α β : Type} {r : Except Failure α} {f : α → Run β} (rest : ∀ a, Leaves (f a)) :
    Leaves (Run.lift r >>= f) := (lift r).bind rest

theorem ite {c : Prop} [Decidable c] {y : Run α} (yes : Leaves x) (no : Leaves y) :
    Leaves (if c then x else y) := by
  split
  · exact yes
  · exact no

theorem get {f : World → Run α} (rest : ∀ w, Leaves (f w)) : Leaves (get >>= f) :=
  fun w => rest w w

theorem modify {f : World → World} (kept : ∀ w, (f w).records = w.records) :
    Leaves (modify f : Run Unit) := kept

theorem note (n : Notice) : Leaves (Run.note n) := fun _ => rfl

theorem mapM {f : γ → Run α} (each : ∀ c, Leaves (f c)) (cs : List γ) : Leaves (cs.mapM f) := by
  induction cs with
  | nil =>
    rw [List.mapM_nil]
    exact .pure []
  | cons c cs ih =>
    rw [List.mapM_cons]
    exact (each c).bind fun a => ih.bind fun as => .pure (a :: as)

theorem forIn {f : γ → β → Run (ForInStep β)} (each : ∀ c b, Leaves (f c b)) (cs : List γ) (b : β) :
    Leaves (forIn cs b f) := by
  induction cs generalizing b with
  | nil =>
    rw [List.forIn_nil]
    exact .pure b
  | cons c cs ih =>
    rw [List.forIn_cons]
    refine (each c b).bind fun next => ?_
    cases next with
    | done b => exact .pure b
    | yield b => exact ih b

end Leaves

theorem current_leaves : Leaves current := by
  refine .get fun w => ?_
  split
  · exact .pure _
  · exact .throw _

theorem relative_leaves (a : Address) : Leaves (relative a) := by
  refine .get fun w => ?_
  split
  · exact .pure _
  · exact .pure _

theorem updateCurrent_leaves (f : Active → Active) : Leaves (updateCurrent f) := by
  intro w
  obtain ⟨strategies, _⟩ := w
  cases strategies <;> rfl

theorem splitKey_leaves : Leaves splitKey := by
  refine current_leaves.bind fun a => ?_
  split
  · exact .throw _
  · exact (updateCurrent_leaves _).bind fun _ => .pure _

theorem emit_leaves (v : Value) : Leaves (emit v) := by
  refine .modify fun w => ?_
  split <;> rfl

theorem finishPass_leaves (a : Address) : Leaves (finishPass a) := by
  refine .modify fun w => ?_
  split <;> rfl

theorem relative_eq (a : Address) (w : World) : relative a w = .ok (w.seen a) w := by
  obtain ⟨strategies, _⟩ := w
  cases strategies <;> rfl

/-- A strategy that records what it is told is told the previous selection, and the others are
not asked. -/
theorem fetch_eq {w : World} {head : Active} {others : List Active}
    (charged : w.strategies = head :: others) (previous : Option (List Int)) (size : Nat)
    (batch : Value) (a : Address) :
    ∃ w', fetch previous size batch a w = .ok w.answer w' ∧ w'.minibatches = w.minibatches ∧
      w'.params = w.params ∧
      w'.records.told = (if w.recording then [(a, previous)] else []) ++ w.records.told := by
  obtain ⟨strategies, _⟩ := w
  subst charged
  obtain ⟨_, _, _, picks⟩ := head
  match picks with
  | none => exact ⟨_, rfl, rfl, rfl, rfl⟩
  | some [] => exact ⟨_, rfl, rfl, rfl, rfl⟩
  | some (_ :: _) => exact ⟨_, rfl, rfl, rfl, rfl⟩

end Run

namespace Machine

open Run

theorem memoAt_leaves (table : Nat) : Leaves (memoAt table) := by
  refine .get fun w => ?_
  split
  · exact .pure _
  · exact .throw _

theorem setMemo_leaves (table : Nat) (m : Memo) : Leaves (setMemo table m) := .modify fun _ => rfl

theorem newMemo_leaves (function bound : Value) : Leaves (newMemo function bound) := by
  obtain ⟨e, refused⟩ | ⟨n, _, added⟩ := newMemo_cases function bound
  · rw [refused]
    exact .throw e
  · rw [added]
    exact fun _ => rfl

theorem callMemo_leaves (table : Nat) (args : List Value) (a : Address) (s : Store) (k : Rest) :
    Leaves (callMemo table args a s k) := by
  refine .reading fun key => (memoAt_leaves table).bind fun m => .ite ?_ (.pure _)
  exact .reading fun _ => (setMemo_leaves table _).bind fun _ => .pure _

theorem compareKnown_leaves (m : Memo) (key : String) (value : Value) : Leaves (compareKnown m key value) :=
  .ite (.bind (.note _) fun _ => .reading fun _ => .reading fun _ => .reading fun _ => .ite (.note _) (.pure _))
    (.pure _)

theorem settle_leaves (table : Nat) (m : Memo) (cache : Cache Value) : Leaves (settle table m cache) :=
  .get fun _ => .ite ((setMemo_leaves table _).bind fun _ => .note _) (setMemo_leaves table _)

theorem remember_leaves (table : Nat) (key : String) (value : Value) :
    Leaves (remember table key value) := by
  rw [remember_eq_bind]
  refine (memoAt_leaves table).bind fun m => (compareKnown_leaves m key value).bind fun _ => .reading ?_
  rintro ⟨cache, _ | dropped⟩
  · exact settle_leaves table m cache
  · exact Leaves.bind (.note _) fun _ => settle_leaves table m cache

theorem makeParam_leaves (start : Value) (mean sd : Float) (key : Option Random.Key) :
    Leaves (makeParam start mean sd key) := by
  have fills (dims : List Value) : Leaves (makeParam (.list dims) mean sd key) := by
    unfold makeParam
    refine .ite (.reading fun _ => .pure _) ?_
    cases key with
    | some key => exact .reading fun _ => .pure _
    | none => exact splitKey_leaves.bind fun _ => .reading fun _ => .pure _
  cases start with
  | list dims => exact fills dims
  | tuple dims => exact fills dims
  | _ => exact .pure _

theorem prepare_leaves (a : Address) (function method : Value) (key : Option Random.Key)
    (options : Options) (picks : Option (List Value)) :
    Leaves (prepare a function method key options picks) := by
  rw [prepare_eq]
  refine .reading fun method => ?_
  have keyed : Leaves (keyFor key) := fun w => by
    rw [keyFor_eq]
    rfl
  exact keyed.bind fun key => .reading fun _ => Leaves.bind (.note _) fun _ => .pure _

theorem nextVisit_leaves (pass : Pass) (s : Store) (k : Rest) : Leaves (nextVisit pass s k) := by
  unfold nextVisit
  split
  · exact (finishPass_leaves _).bind fun _ => .pure _
  · split
    · exact .throw _
    · exact .pure _

theorem enter_leaves (cx : Context) (function : Value) (args : List Value) (a : Address) (s : Store)
    (k : Rest) : Leaves (enter cx function args a s k) := by
  unfold enter
  split
  · exact callMemo_leaves _ _ _ _ _
  · split
    · exact .throw _
    · exact .ite (.throw _) (.pure _)
  · exact .throw _

end Machine

namespace Control

/-- The moves that may begin a pass over data. -/
def maps : Control → Bool
  | eval (.map ..) .. => true
  | _ => false

/-- The moves that may register a parameter. -/
def registers : Control → Bool
  | eval (.param ..) .. => true
  | _ => false

end Control

namespace Machine

open Run

theorem advanceComp_leaves {cx : Context} {c : Comp} {vars : Vars} {a : Address} {s : Store}
    {k : Rest} (unmapped : (Control.eval c vars a s k).maps = false)
    (unregistered : (Control.eval c vars a s k).registers = false) :
    Leaves (advanceComp cx c vars a s k) := by
  cases c with
  | ret e => exact .reading fun _ => .pure _
  | bind name first rest => exact .pure _
  | sequence steps =>
    match steps with
    | [] => exact .pure _
    | [_] => exact .pure _
    | _ :: _ :: _ => exact .pure _
  | choose test yes no => exact .reading fun _ => .pure _
  | sample t d =>
    exact .reading fun _ => .reading fun _ => current_leaves.bind fun _ => .pure _
  | factor t e =>
    exact .reading fun _ => .reading fun _ => current_leaves.bind fun _ =>
      .reading fun _ => .pure _
  | observe t d e =>
    exact .reading fun _ => .reading fun _ => .reading fun _ =>
      current_leaves.bind fun _ => .reading fun _ => .pure _
  | set key e =>
    exact .reading fun _ => .reading fun _ => .reading fun _ => .pure _
  | call t f args =>
    exact .reading fun _ => .reading fun _ => .reading fun _ => .pure _
  | apply t f args =>
    exact .reading fun _ => .reading fun _ => .reading fun _ => .pure _
  | bounce c => exact .pure _
  | relative t => exact .reading fun _ => (relative_leaves _).bind fun _ => .pure _
  | map t data f batch => cases unmapped
  | cache t f bound =>
    exact .reading fun _ => .reading fun _ => .reading fun _ =>
      (newMemo_leaves _ _).bind fun _ => .pure _
  | param t start mean sd seed => cases unregistered
  | tensor form t e =>
    exact .reading fun _ => .reading fun _ => .reading fun _ => .pure _
  | infer t f method options =>
    exact .reading fun _ => .reading fun _ => .reading fun _ =>
      (Leaves.mapM (fun _ => .reading fun _ => .pure _) _).bind fun _ =>
        .reading fun _ => (prepare_leaves _ _ _ _ _ _).bind fun _ => .pure _
  | emit e => exact .reading fun _ => (emit_leaves _).bind fun _ => .pure _
  | raise message => exact .throw _
  | stop e => exact .reading fun _ => .pure _
  | unknown _ => exact .throw _

/-- Only a move that begins a pass or asks for a parameter can change the records. -/
theorem advance_leaves {cx : Context} {control : Control} (unmapped : control.maps = false)
    (unregistered : control.registers = false) : Leaves (advance cx control) := by
  cases control with
  | eval c vars a s k => exact advanceComp_leaves unmapped unregistered
  | call f args a s k => exact (enter_leaves cx f args a s k).bind fun _ => .pure _
  | give k s v =>
    cases k with
    | remember table key k => exact (remember_leaves table key v).bind fun _ => .pure _
    | visit pass k => exact (nextVisit_leaves _ _ _).bind fun _ => .pure _
    | _ => exact .pure _

/-- What a pass over data is asked for with. -/
structure MapCall where
  place : Address
  data : Value
  function : Value
  batch : Option Value

def MapCall.read (sc : Scope) (t : Option Expr) (data f : Expr) (batch : Option Expr) :
    Except Failure MapCall := do
  let place ← sc.site t
  let data ← data.eval sc
  let f ← f.eval sc
  let batch ← sc.optional batch
  return ⟨place, data, f, batch⟩

theorem advance_map (cx : Context) (t : Option Expr) (data f : Expr) (batch : Option Expr)
    (vars : Vars) (a : Address) (s : Store) (k : Rest) :
    advance cx (.eval (.map t data f batch) vars a s k) = (do
      let c ← Run.lift (MapCall.read ⟨cx.program, cx.globals, vars, s, a⟩ t data f batch)
      return .go (← beginPass c.place c.data c.function c.batch s k)) := by
  simp only [advance, advanceComp, MapCall.read, Run.lift_bind, bind_assoc]
  rfl

theorem checkIndices_leaves (given : Value) (size : Nat) : Leaves (checkIndices given size) := by
  unfold checkIndices
  dsimp only
  split
  · exact .throw _
  · refine (Leaves.mapM (fun x => ?_) _).bind fun indices => ?_
    · split
      · exact .pure _
      · exact .throw _
      · exact .throw _
    · exact (Leaves.forIn (fun n _ => .ite ((Leaves.throw _).bind fun _ => .pure _) (.pure _)) _ _).bind
        fun _ => .pure _

theorem mapM_filterMap {α β : Type} {f : α → Run β} {read : α → Option β}
    (reads : ∀ x y, Yields (f x) y → read x = some y) {xs : List α} {ys : List β}
    (yields : Yields (xs.mapM f) ys) : ys = xs.filterMap read := by
  induction xs generalizing ys with
  | nil =>
    rw [List.mapM_nil] at yields
    exact yields.pure
  | cons x xs ih =>
    rw [List.mapM_cons] at yields
    obtain ⟨y, here, yields⟩ := yields.bind
    obtain ⟨ys, there, yields⟩ := yields.bind
    rw [yields.pure, List.filterMap_cons_some (reads x y here), ih there]

theorem forIn_yields {α : Type} {bad : α → Bool} {e : α → Failure} {xs : List α} {u : PUnit}
    (yields : Yields (forIn xs PUnit.unit fun x _ => do
      if bad x then throw (e x)
      return .yield PUnit.unit : Run PUnit) u) : ∀ x ∈ xs, bad x = false := by
  induction xs with
  | nil => exact nofun
  | cons x xs ih =>
    rw [List.forIn_cons] at yields
    obtain ⟨next, here, yields⟩ := yields.bind
    cases fine : bad x with
    | true =>
      rw [if_pos fine] at here
      obtain ⟨w, w', returned⟩ := here
      cases returned
    | false =>
      rw [if_neg (by rw [fine]; exact Bool.false_ne_true)] at here
      rw [here.pure] at yields
      exact List.forall_mem_cons.mpr ⟨fine, ih yields⟩

/-- Only positions inside the data pass the check. -/
theorem checkIndices_yields {given : Value} {size : Nat} {indices : List Int}
    (yields : Yields (checkIndices given size) indices) :
    indices = given.indices ∧ ∀ i ∈ indices, 0 ≤ i ∧ i < (size : Int) := by
  unfold checkIndices at yields
  dsimp only at yields
  split at yields
  next =>
    obtain ⟨w, w', returned⟩ := yields
    cases returned
  next xs listed =>
    obtain ⟨read, reads, yields⟩ := yields.bind
    obtain ⟨_, checks, yields⟩ := yields.bind
    obtain rfl := yields.pure
    refine ⟨?_, fun i member => ?_⟩
    · rw [Value.indices, listed]
      refine mapM_filterMap (fun x n yields => ?_) reads
      split at yields
      next known =>
        rw [yields.pure, known]
        rfl
      all_goals
        obtain ⟨w, w', returned⟩ := yields
        cases returned
    · have fine := forIn_yields checks i member
      simp only [Bool.or_eq_false_iff, decide_eq_false_iff_not] at fine
      omega

/-- What selecting the elements of a pass has told a strategy. The parameters are left as they
are. -/
structure Asked (rel : Address) (w w' : World) : Prop where
  params : w'.params = w.params
  told : w'.records.told = w.records.told ∨ rel.isHashable = true ∧
    w'.records.told = (rel, w.minibatches.get? rel) :: w.records.told

/-- What selecting the elements of a pass comes to. The selection is written down if all of its
positions lie inside the data. -/
inductive PassDone (a : Address) (items : List Value) (function : Value) (w : World) :
    EStateM.Result Failure World Pass → Prop where
  | refused {e : Failure} {w' : World} : w'.minibatches = w.minibatches →
      Asked (w.seen a) w w' → PassDone a items function w (.error e w')
  | begun {w' : World} : (w.seen a).isHashable = true →
      (∀ i ∈ w.answer.indices, 0 ≤ i ∧ i < (items.length : Int)) →
      w'.minibatches = w.minibatches.insert (w.seen a) w.answer.indices →
      Asked (w.seen a) w w' →
      PassDone a items function w
        (.ok ⟨items, function, a, w.seen a, visits items.length w.answer.indices, []⟩ w')

theorem selectPass_done (a : Address) (items : List Value) (function size : Value) (w : World) :
    PassDone a items function w (selectPass a items function size w) := by
  unfold selectPass
  cases charged : w.strategies with
  | nil =>
    have none : Run.current w = .error (.inference .noStrategy) w := by
      obtain ⟨_, _⟩ := w
      subst charged
      rfl
    rw [bind_of_error none]
    exact .refused rfl ⟨rfl, .inl rfl⟩
  | cons head others =>
    have current : Run.current w = .ok head w := by
      obtain ⟨_, _⟩ := w
      subst charged
      rfl
    rw [bind_of_ok current, bind_of_ok (relative_eq a w)]
    by_cases hashable : (w.seen a).isHashable = true
    · have accepted : ¬ (!(w.seen a).isHashable) = true := by simp [hashable]
      rw [if_neg accepted, bind_of_ok (show (get : Run World) w = .ok w w from rfl)]
      obtain ⟨w₁, asked, minibatches, params, told⟩ := fetch_eq charged
        (w.minibatches.get? (w.seen a)) items.length size (w.seen a)
      dsimp only
      rw [bind_of_ok asked]
      have told : w₁.records.told = w.records.told ∨ (w.seen a).isHashable = true ∧
          w₁.records.told = (w.seen a, w.minibatches.get? (w.seen a)) :: w.records.told := by
        cases recording : w.recording with
        | false => exact .inl (by rw [told, recording]; rfl)
        | true => exact .inr ⟨hashable, by rw [told, recording]; rfl⟩
      have kept := checkIndices_leaves w.answer items.length w₁
      cases checked : checkIndices w.answer items.length w₁ with
      | error e w₂ =>
        rw [checked] at kept
        rw [bind_of_error checked]
        exact .refused ((congrArg Records.minibatches kept).trans minibatches)
          ⟨(congrArg Records.params kept).trans params, (congrArg Records.told kept) ▸ told⟩
      | ok indices w₂ =>
        rw [checked] at kept
        rw [bind_of_ok checked]
        obtain ⟨rfl, inside⟩ := checkIndices_yields ⟨w₁, w₂, checked⟩
        refine .begun hashable inside ?_ ⟨(congrArg Records.params kept).trans params, ?_⟩
        · have same : w₂.minibatches = w.minibatches :=
            (congrArg Records.minibatches kept).trans minibatches
          exact congrArg (·.insert (w.seen a) w.answer.indices) same
        · exact (congrArg Records.told kept) ▸ told
    · rw [if_pos (by simpa using hashable)]
      exact .refused rfl ⟨rfl, .inl rfl⟩

/-- What asking for a parameter does to the records and the strategies. A registered one is only
looked up. One that is not is made, which may take a key from the strategy in charge, and then
registered, unless making it failed. -/
inductive ParamDone (c : ParamCall) (w : World) : EStateM.Result Failure World Value → Prop where
  | refused : (w.seen c.place).isHashable = false → ParamDone c w (.error .illTyped w)
  | known {v : Value} : (w.seen c.place).isHashable = true →
      w.params.get? (w.seen c.place) = some v → ParamDone c w (.ok v w)
  | failed {e : Failure} {w' : World} : (w.seen c.place).isHashable = true →
      w.params.get? (w.seen c.place) = none →
      makeParam c.start c.mean c.sd c.key w = .error e w' → w'.records = w.records →
      w'.strategies =
        (if drawsStart c.start c.sd && c.key.isNone then parted none w.strategies
          else w.strategies) →
      ParamDone c w (.error e w')
  | made {v : Value} {w' w'' : World} : (w.seen c.place).isHashable = true →
      w.params.get? (w.seen c.place) = none → makeParam c.start c.mean c.sd c.key w = .ok v w'' →
      w'.records = { w.records with params := w.params.insert (w.seen c.place) v } →
      w'.strategies =
        (if drawsStart c.start c.sd && c.key.isNone then parted none w.strategies
          else w.strategies) →
      ParamDone c w (.ok v w')

theorem splitKey_strategies (w : World) :
    (ended (splitKey w)).strategies = parted none w.strategies := by
  obtain ⟨strategies, _⟩ := w
  match strategies with
  | [] => rfl
  | ⟨_, none, _, _⟩ :: _ => rfl
  | ⟨_, some _, _, _⟩ :: _ => rfl

theorem aloof_strategies {α : Type} {x : Run α} (aloof : Aloof x) (w : World) :
    (ended (x w)).strategies = w.strategies := by
  obtain ⟨r, w', new, _, ends⟩ := aloof w
  rw [show x w = _ from ends w.strategies w.notices]
  cases r <;> rfl

theorem makeParam_strategies (c : ParamCall) (w : World) :
    (ended (makeParam c.start c.mean c.sd c.key w)).strategies =
      if drawsStart c.start c.sd && c.key.isNone then parted none w.strategies
      else w.strategies := by
  by_cases draws : (drawsStart c.start c.sd && c.key.isNone) = true
  · rw [if_pos draws, makeParam_eq draws, ← splitKey_strategies]
    cases taken : splitKey w with
    | error e w' => rw [bind_of_error taken]; rfl
    | ok key w' =>
      rw [bind_of_ok taken]
      exact aloof_strategies (makeParam_aloof (Bool.and_false _) c.mean) w'
  · rw [if_neg draws]
    exact aloof_strategies (makeParam_aloof ((Bool.not_eq_true _).mp draws) c.mean) w

theorem param_done (c : ParamCall) (w : World) :
    ParamDone c w (param c.place c.start c.mean c.sd c.key w) := by
  unfold param
  rw [bind_of_ok (relative_eq c.place w)]
  dsimp only
  by_cases hashable : (w.seen c.place).isHashable = true
  · have accepted : ¬ (!(w.seen c.place).isHashable) = true := by simp [hashable]
    rw [if_neg accepted, bind_of_ok (show (get : Run World) w = .ok w w from rfl)]
    cases found : w.params.get? (w.seen c.place) with
    | some v => exact .known hashable found
    | none =>
      have kept := makeParam_leaves c.start c.mean c.sd c.key w
      have strategies := makeParam_strategies c w
      dsimp only
      cases made : makeParam c.start c.mean c.sd c.key w with
      | error e w' =>
        rw [made] at kept strategies
        rw [bind_of_error made]
        exact .failed hashable found made kept strategies
      | ok v w' =>
        rw [made] at kept strategies
        rw [bind_of_ok made]
        have same : w'.params = w.params := congrArg Records.params kept
        refine .made hashable found made ?_ strategies
        change Records.mk w'.records.minibatches w'.records.told (w'.params.insert _ v) = _
        rw [same]
        exact congrArg (fun r : Records => { r with params := w.params.insert (w.seen c.place) v }) kept
  · rw [if_pos (by simpa using hashable)]
    exact .refused ((Bool.not_eq_true _).mp hashable)

/-- Asking for a parameter leaves all that is remembered of passes as it is. -/
theorem advance_registering {cx : Context} {control : Control} (registers : control.registers = true)
    (w : World) : (ended (advance cx control w)).minibatches = w.minibatches ∧
      (ended (advance cx control w)).records.told = w.records.told := by
  cases control with
  | eval c vars a s k =>
    cases c with
    | param t start mean sd seed =>
      rw [advance_param]
      cases ParamCall.read ⟨cx.program, cx.globals, vars, s, a⟩ t start mean sd seed with
      | error e => exact ⟨rfl, rfl⟩
      | ok c =>
        rw [show Run.lift (.ok c) = pure c from rfl, pure_bind]
        have done := param_done c w
        cases ran : param c.place c.start c.mean c.sd c.key w with
        | error e w' =>
          rw [ran] at done
          rw [bind_of_error ran]
          cases done with
          | refused => exact ⟨rfl, rfl⟩
          | failed _ _ _ kept =>
            exact ⟨congrArg Records.minibatches kept, congrArg Records.told kept⟩
        | ok v w' =>
          rw [ran] at done
          rw [bind_of_ok ran]
          cases done with
          | known => exact ⟨rfl, rfl⟩
          | made _ _ _ kept =>
            have minibatches := congrArg Records.minibatches kept
            have told := congrArg Records.told kept
            exact ⟨minibatches, told⟩
    | _ => cases registers
  | call => cases registers
  | give => cases registers

end Machine

end ProbCore
