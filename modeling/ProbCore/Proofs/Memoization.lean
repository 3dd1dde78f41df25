import Mathlib.Data.List.Nodup
import Mathlib.Order.Filter.AtTopBot.Basic
import ProbCore.Proofs.GuardedRuns
import ProbCore.Proofs.Placement
import ProbCore.Proofs.RememberedMoves

/-! Remembered results cannot be told from computed ones. A program may call functions through their
tables under any strategy, again and again from the same rest, and with entries dropped between the
calls: it comes to what it comes to when it calls the functions themselves, as long as all that
these do is to deliver what their arguments determine. -/

namespace ProbCore

/-- More and more fuel. To run out of it is to give up. -/
def Patience.unending : Patience Nat := ⟨Filter.atTop, (· = .outOfFuel)⟩

section

variable {ι α β : Type} {T : Tie ι World World} {φ : α → β} {x : Nat → Run α} {y : Run β}

theorem tracks_unending : Tracks .unending T φ x y ↔ ∀ i w' w, T.holds i w' w → GaveUp (y w) ∨
    ∃ r enough, (∀ fuel, enough ≤ fuel → x fuel w' = r) ∧ T.Agree i φ r (y w) := by
  refine forall_congr' fun i => forall_congr' fun w' => forall_congr' fun w => imp_congr_right
    fun held => or_congr ?_ ?_
  · constructor
    · rintro ⟨_, v, rfl, failed⟩
      exact ⟨v, failed⟩
    · exact fun ⟨v, failed⟩ => ⟨_, v, rfl, failed⟩
  · constructor
    · rintro ⟨r, ends, agree⟩
      obtain ⟨enough, ends⟩ := Filter.eventually_atTop.mp ends
      exact ⟨r, enough, ends, agree⟩
    · exact fun ⟨r, enough, ends, agree⟩ => ⟨r, Filter.eventually_atTop.mpr ⟨enough, ends⟩, agree⟩

end

/-- Less fuel by a fixed amount is as good. -/
theorem Tracks.later {ι σ τ α β : Type} {T : Tie ι σ τ} {φ : α → β} {x : Nat → EStateM Failure σ α}
    {y : EStateM Failure τ β} (tracks : Tracks .unending T φ x y) (spent : Nat) :
    Tracks .unending T φ (fun fuel => x (fuel - spent)) y := by
  intro i w w' held
  obtain gone | ⟨r, ends, agree⟩ := tracks i w w' held
  · exact .inl gone
  · exact .inr ⟨r, (Filter.tendsto_sub_atTop_nat spent).eventually ends, agree⟩

variable {ms : List Remembered} {m : Remembered} {w w' : World}

theorem Value.table_of_tabled {v : Value} (tabled : v.tabled ms = true) :
    ∃ m ∈ ms, ∃ name, v = .memo m.table name := by
  cases v with
  | memo table name =>
    obtain ⟨m, member, same⟩ := List.any_eq_true.mp tabled
    exact ⟨m, member, name, by rw [eq_of_beq same]⟩
  | _ => cases tabled

theorem Value.bare_table (apart : (ms.map Remembered.table).Nodup) (member : m ∈ ms)
    (name : String) : (Value.memo m.table name).bare ms = .function m.function := by
  cases found : ms.find? (·.table == m.table) with
  | none =>
    have other := List.find?_eq_none.mp found m member
    exact absurd (beq_self_eq_true m.table) other
  | some m' =>
    have same := List.find?_some found
    obtain rfl : m' = m :=
      List.inj_on_of_nodup_map apart (List.mem_of_find?_eq_some found) member (eq_of_beq same)
    simp only [bare, found]

/-- In a world that is like another one up to the tables, a computation comes to a good result, and
to a world of which the same is true. -/
def Succeeds {α : Type} (ms : List Remembered) (w : World) (good : α → Prop) (x : Run α) : Prop :=
  ∀ w', Alike ms w' w → ∃ a w₁, x w' = .ok a w₁ ∧ good a ∧ Alike ms w₁ w

namespace Succeeds

variable {α β : Type} {good : α → Prop} {fine : β → Prop} {x : Run α} {f : α → Run β}

theorem pure {a : α} (holds : good a) : Succeeds ms w good (Pure.pure a) :=
  fun w' alike => ⟨a, w', rfl, holds, alike⟩

theorem bind (first : Succeeds ms w good x) (rest : ∀ a, good a → Succeeds ms w fine (f a)) :
    Succeeds ms w fine (x >>= f) := by
  intro w' alike
  obtain ⟨a, w₁, ran, holds, alike⟩ := first w' alike
  rw [bind_of_ok ran]
  exact rest a holds w₁ alike

theorem lift {r : Except Failure α} {a : α} (known : r = .ok a)
    (rest : Succeeds ms w fine (f a)) : Succeeds ms w fine (Run.lift r >>= f) := by
  rw [known]
  exact rest

theorem get {f : World → Run β} (rest : ∀ w', Succeeds ms w fine (f w')) :
    Succeeds ms w fine (MonadState.get >>= f) := fun w' alike => rest w' w' alike

theorem ite {c : Prop} [Decidable c] {y : Run α} (yes : c → Succeeds ms w good x)
    (no : ¬ c → Succeeds ms w good y) : Succeeds ms w good (if c then x else y) := by
  by_cases holds : c
  · rw [if_pos holds]
    exact yes holds
  · rw [if_neg holds]
    exact no holds

theorem note (n : Notice) : Succeeds ms w (fun _ => True) (Run.note n) :=
  fun _ alike => ⟨(), _, rfl, trivial, alike.unchanged alike.rest rfl rfl⟩

theorem memoAt (member : m ∈ ms) {f : Memo → Run β}
    (rest : ∀ memo, m.Keeps memo → Succeeds ms w fine (f memo)) :
    Succeeds ms w fine (Machine.memoAt m.table >>= f) := by
  intro w' alike
  obtain ⟨memo, found, keeps⟩ := alike.keeps member
  rw [bind_of_ok (Machine.memoAt_eq found)]
  exact rest memo keeps w' alike

theorem setMemo (apart : (ms.map Remembered.table).Nodup) (member : m ∈ ms) {memo : Memo}
    (keeps : m.Keeps memo) : Succeeds ms w (fun _ => True) (Machine.setMemo m.table memo) := by
  intro w' alike
  refine ⟨(), _, rfl, trivial, alike.setKept ?_ fun other among same => ?_⟩
  · exact List.any_eq_true.mpr ⟨m, member, beq_self_eq_true _⟩
  · rwa [List.inj_on_of_nodup_map apart among member same]

end Succeeds

namespace Machine

variable {args : List Value} {key : String} {r : Value}

/-- A call of a table gives what the function delivers, or calls the function. -/
theorem callMemo_succeeds (apart : (ms.map Remembered.table).Nodup) (member : m ∈ ms)
    (result : m.result args = some r) (keyed : Data.serialize (.tuple args) = .ok key) (a : Address)
    (s : Store) (k : Rest) :
    Succeeds ms w (fun next => next = .give k s r ∨
      next = .call (.function m.function) args a s (.remember m.table key k))
      (callMemo m.table args a s k) := by
  refine .lift keyed (.memoAt member fun memo keeps => .ite (fun known => ?_) fun _ => .pure (.inr ?_))
  · obtain ⟨v, cache, got, answers, keeps⟩ := keeps.get known
    obtain rfl : v = r := answers args r result keyed
    exact .lift got ((Succeeds.setMemo apart member keeps).bind fun _ _ => .pure (.inl rfl))
  · rw [keeps.function]

/-- What the function delivered can be remembered. -/
theorem remember_succeeds (apart : (ms.map Remembered.table).Nodup) (member : m ∈ ms)
    (result : m.result args = some r) (keyed : Data.serialize (.tuple args) = .ok key)
    (answers : m.Answers key r) {text : String} (written : Data.serialize r = .ok text) :
    Succeeds ms w (fun _ => True) (remember m.table key r) := by
  unfold remember
  refine .memoAt member fun memo keeps => ?_
  extract_lets write
  have writes (x : PUnit) : Succeeds ms w (fun _ => True) (write x) := by
    obtain ⟨cache, dropped, added, keeps⟩ := keeps.put answers memo.announced
    have fills (announced : Bool) : Succeeds ms w (fun _ => True)
        (setMemo m.table { memo with cache, announced }) :=
      .setMemo apart member ⟨keeps.function, keeps.room, keeps.answers⟩
    refine .lift added ?_
    have sets : Succeeds ms w (fun _ => True)
        (do
          if cache.bound.isNone && !memo.announced && decide ((← get).sizeNotice ≤ cache.size) then
            setMemo m.table { memo with cache, announced := true }
            Run.note (.grown (newMemo.nameOf memo.function) cache.size)
          else setMemo m.table { memo with cache }) :=
      .get fun _ => .ite (fun _ => (fills true).bind fun _ _ => .note _) fun _ => fills memo.announced
    cases dropped with
    | none => exact sets
    | some dropped => exact (Succeeds.note _).bind fun _ _ => sets
  refine .ite (fun known => ?_) fun _ => writes ()
  obtain ⟨v, cache, got, answers', _⟩ := keeps.get known
  obtain rfl : v = r := answers' args r result keyed
  refine (Succeeds.note _).bind fun _ _ => .lift (Cache.peek_of_get got) ?_
  refine .lift written (.lift written (.ite (fun _ => ?_) fun _ => writes ()))
  exact (Succeeds.note _).bind fun _ _ => writes ()

/-- A function fit to be remembered in a program. The arguments that it is made for and its values
have texts, and arguments with one text have one value. It delivers this value wherever it is
called: it leaves the store and all that is shared as it is, up to reports, and it is as careful
with tables as the program has to be. -/
structure Steady (ms : List Remembered) (cx : Context) (m : Remembered) : Prop where
  keyed {args : List Value} {r : Value} : m.result args = some r →
    ∃ key, Data.serialize (.tuple args) = .ok key
  written {args : List Value} {r : Value} : m.result args = some r →
    ∃ text, Data.serialize r = .ok text
  same {args args' : List Value} {r r' : Value} {key : String} : m.result args = some r →
    m.result args' = some r' → Data.serialize (.tuple args) = .ok key →
      Data.serialize (.tuple args') = .ok key → r = r'
  delivers {args : List Value} {r : Value} (a : Address) (s : Store) (w : World) :
    m.result args = some r → ∃ fuel w₁,
      runWhile (cx.permits ms) (cx.bare ms) fuel (.call (.function m.function) args a s .halt) w =
        .ok (.exit s r) w₁ ∧ w₁.hushed = w.hushed ∧ w₁.memos = w.memos

theorem permits_onto {cx : Context} (c : Control) (base : Rest) (running : c.delivered? = none) :
    cx.permits ms (c.onto base) = cx.permits ms c := by
  cases c with
  | eval => rfl
  | call function => cases function <;> rfl
  | give k =>
    cases k with
    | halt => cases running
    | _ => rfl

section

variable {cx : Context} {n : Nat}

/-- Whether a program comes to the same through its tables from a control on, with enough fuel, if
the program with the functions themselves has some fuel and is careful. -/
def Transparently (ms : List Remembered) (cx : Context) (fuel : Nat) (control : Control) : Prop :=
  Tracks .unending (memoizing ms) (Step.relabel (bareness ms))
    (fun more => runWhile always cx more control)
    (runWhile (cx.permits ms) (cx.bare ms) fuel (control.bare ms))

theorem along_memoizing (onward : ∀ control, Transparently ms cx n control) (spent : Nat) :
    Alongside .unending (T := memoizing ms) (bareness ms)
      (fun fuel k s v => runWhile always cx (fuel - spent) (.give k s v))
      (fun k s v => runWhile (cx.permits ms) (cx.bare ms) n (.give k s v)) (· - spent) n := by
  refine .of_resumes ((memoizing_sharing ms).sustains nofun)
    (fun k s v => (onward (.give k s v)).later spent) ?_
  filter_upwards [Filter.eventually_ge_atTop (n + spent)] with fuel enough
  exact .inr ⟨rfl, by omega⟩

/-- One move that is no call of a table, and what comes after it. -/
theorem move_transparent (onward : ∀ control, Transparently ms cx n control) {control : Control}
    (untabled : ∀ f args a s k, control = .call f args a s k → f.tabled ms = false) :
    Transparently ms cx (n + 1) control := by
  by_cases permitted : cx.permits ms (control.bare ms) = true
  · refine Tracks.of_eventually (x := fun fuel => runWhile always cx (fuel - 1 + 1) control) ?_ ?_
    · rw [runWhile_succ permitted]
      simp only [runWhile_succ (show always control = true from rfl)]
      refine (advance_alike untabled permitted).tracks.bind fun move => ?_
      cases move with
      | go next => exact (onward next).later 1
      | rest step => exact .pure step
      | infer i s k =>
        have answers := (memoizing_sharing ms).installed i.active
          (i.strategy.estimate_tracks (along_memoizing onward 1) i.entry s)
        exact answers.bind fun m => (onward (.give k s (.marginal m))).later 1
    · filter_upwards [Filter.eventually_ge_atTop 1] with fuel enough
      rw [Nat.sub_add_cancel enough]
  · rw [Transparently, runWhile, if_neg permitted]
    exact .lost rfl

theorem always_go {control next : Control} {w₁ : World}
    (moved : advance cx control w = .ok (.go next) w₁) (fuel : Nat) :
    runWhile always cx (fuel + 1) control w = runWhile always cx fuel next w₁ := by
  rw [runWhile_succ rfl, bind_of_ok moved]
  rfl

/-- What a function delivers in a careful program it delivers among the tables as well. -/
theorem delivers_among_tables {control : Control} {s : Store} {r : Value} {w₁ : World}
    (transparent : Transparently ms cx n control)
    (exits : runWhile (cx.permits ms) (cx.bare ms) n (control.bare ms) w = .ok (.exit s r) w₁)
    (rest : w₁.hushed = w.hushed) (memos : w₁.memos = w.memos) (alike : Alike ms w' w) :
    ∃ fuel w₂, runWhile always cx fuel control w' = .ok (.exit s r) w₂ ∧ Alike ms w₂ w := by
  obtain ⟨_, gone⟩ | ⟨r', enough, comes, agree⟩ := tracks_unending.mp transparent () w' w alike
  · rw [exits] at gone
    cases gone
  · obtain ⟨step, w₂, _, rfl, same, alike⟩ | ⟨_, _, _, _, _, failed, _⟩ := agree.cases
    · rw [exits] at same
      cases step with
      | exit s r =>
        cases same
        exact ⟨enough, w₂, comes enough le_rfl, alike.unchanged (alike.rest.trans rest) rfl memos.symm⟩
      | _ => cases same
    · rw [exits] at failed
      cases failed

variable (apart : (ms.map Remembered.table).Nodup) (steady : ∀ m ∈ ms, Steady ms cx m)
include apart steady

/-- A call of a table gives the value of the function, if the function comes to it by itself. -/
theorem table_gives {m : Remembered} (member : m ∈ ms) {args : List Value} {r : Value}
    (result : m.result args = some r) {a : Address} {s : Store}
    (alone : ∀ w', Alike ms w' w → ∃ fuel w₁,
      runWhile always cx fuel (.call (.function m.function) args a s .halt) w' = .ok (.exit s r) w₁ ∧
        Alike ms w₁ w)
    (alike : Alike ms w' w) (name : String) (k : Rest) :
    ∃ spent enough w₁, Alike ms w₁ w ∧ ∀ fuel, enough ≤ fuel →
      runWhile always cx (fuel + spent) (.call (.memo m.table name) args a s k) w' =
        runWhile always cx fuel (.give k s r) w₁ := by
  obtain ⟨key, keyed⟩ := (steady m member).keyed result
  obtain ⟨text, written⟩ := (steady m member).written result
  have answers : m.Answers key r := fun _ _ other keyed' =>
    (steady m member).same result other keyed keyed'
  obtain ⟨next, w₁, called, met, alike⟩ :=
    callMemo_succeeds apart member result keyed a s k w' alike
  have begins : advance cx (.call (.memo m.table name) args a s k) w' = .ok (.go next) w₁ :=
    bind_of_ok called
  obtain rfl | rfl := met
  · exact ⟨1, 0, w₁, alike, fun fuel _ => always_go begins fuel⟩
  · obtain ⟨enough, w₂, exits, alike⟩ := alone w₁ alike
    obtain ⟨moves, _, delivers⟩ := delivers_of_exits (fun _ _ _ => rfl) rfl exits
    obtain ⟨_, w₃, kept, _, alike⟩ :=
      remember_succeeds apart member result keyed answers written w₂ alike
    have ends : advance cx (.give (.remember m.table key k) s r) w₂ = .ok (.go (.give k s r)) w₃ :=
      bind_of_ok kept
    refine ⟨moves + 2, enough, w₃, alike, fun fuel many => ?_⟩
    rw [show fuel + (moves + 2) = moves + (fuel + 1) + 1 by omega, always_go begins]
    exact (delivers.long (.remember m.table key k) (by omega)).trans (always_go ends fuel)

/-- A call of a table, and what comes after it. -/
theorem call_transparent (onward : ∀ fuel ≤ n, ∀ control, Transparently ms cx fuel control)
    (member : m ∈ ms) (name : String) (args : List Value) (a : Address) (s : Store) (k : Rest) :
    Transparently ms cx (n + 1) (.call (.memo m.table name) args a s k) := by
  rw [Transparently, Control.bare, Value.bare_table apart member]
  cases result : m.result args with
  | none =>
    have refused : cx.permits ms (.call (.function m.function) args a s (k.bare ms)) ≠ true := by
      intro permitted
      simpa [result] using List.all_eq_true.mp permitted m member
    rw [runWhile, if_neg refused]
    exact .lost rfl
  | some r =>
    refine tracks_unending.mpr fun _ w' w alike => ?_
    obtain ⟨_, w₁, exits, rest, memos⟩ := (steady m member).delivers a s w result
    obtain ⟨moves, _, delivers⟩ := delivers_of_exits permits_onto rfl exits
    have begun := delivers.begun rfl
    by_cases few : n + 1 ≤ moves
    · exact .inl (delivers.short (k.bare ms) few)
    obtain ⟨fuel, more⟩ : ∃ fuel, n + 1 = moves + (fuel + 1) := ⟨n - moves, by omega⟩
    obtain gone | same := delivers.either (fuel + 1)
    · rw [more]
      exact .inl (gone (k.bare ms))
    have above (base : Rest) : runWhile (cx.permits ms) (cx.bare ms) (n + 1)
        (.call (.function m.function) args a s base) w =
          runWhile (cx.permits ms) (cx.bare ms) (fuel + 1) (.give base s r) w₁ := by
      rw [more]
      exact same base
    -- The fuel is enough for the function by itself, without the tables and with them.
    have own : Transparently ms cx (n + 1) (.call (.function m.function) args a s .halt) :=
      move_transparent (onward n le_rfl) fun f _ _ _ _ called => by cases called; rfl
    obtain ⟨spent, enough, w₂, alike, gives⟩ := table_gives apart steady member result
      (fun w' alike => delivers_among_tables own (above .halt) rest memos alike) alike name k
    rw [above]
    obtain gone | ⟨r', enough', comes, agree⟩ := tracks_unending.mp (onward (fuel + 1) (by omega) (.give k s r))
      () w₂ w₁ (alike.unchanged (alike.rest.trans rest.symm) rfl memos)
    · exact .inl gone
    · refine .inr ⟨r', enough + enough' + spent, fun fuel many => ?_, agree⟩
      obtain ⟨less, rfl⟩ : ∃ less, fuel = less + spent := ⟨fuel - spent, by omega⟩
      rw [gives less (by omega), comes less (by omega)]

theorem transparently (n : Nat) (control : Control) : Transparently ms cx n control := by
  induction n using Nat.strong_induction_on generalizing control with
  | h n ih =>
    cases n with
    | zero => exact .lost rfl
    | succ n =>
      by_cases untabled : ∀ f args a s k, control = .call f args a s k → f.tabled ms = false
      · exact move_transparent (ih n (Nat.lt_succ_self n)) untabled
      · push Not at untabled
        obtain ⟨f, args, a, s, k, rfl, tabled⟩ := untabled
        obtain ⟨m, member, name, rfl⟩ := Value.table_of_tabled (by simpa using tabled)
        exact call_transparent apart steady (fun fuel least => ih fuel (by omega)) member name args a s k

/-- A remembered function shows nowhere but in the reports and in the tables. -/
structure Unseen (ms : List Remembered) (cx : Context) : Prop where
  /-- A new table keeps to its function, whatever its bound. -/
  made {m : Remembered} {bound : Value} {w : World} : m.table = w.memos.size →
    (bound = .absent ∨ ∃ n, bound.int? = some n ∧ 1 ≤ n) →
      ∃ w₁ memo, newMemo (.function m.function) bound w = .ok (.memo m.table m.function) w₁ ∧
        w₁.memos[m.table]? = some memo ∧ m.Keeps memo
  /-- Entries may be dropped at any time. -/
  dropped {m : Remembered} {memo : Memo} {entries : List (String × Value)} {w' w : World} : m ∈ ms →
    Alike ms w' w → w'.memos[m.table]? = some memo → entries ⊆ memo.cache.entries →
      Alike ms { w' with
        memos := w'.memos.setIfInBounds m.table { memo with cache := ⟨memo.cache.bound, entries⟩ } } w
  /-- Each call of a table gives the value of the function, with the store of the caller. -/
  called {m : Remembered} {args : List Value} {r : Value} {w' w : World} : m ∈ ms →
    m.result args = some r → Alike ms w' w → ∀ name a s k, ∃ spent enough w₁, Alike ms w₁ w ∧
      ∀ fuel, enough ≤ fuel → run cx (fuel + spent) (.call (.memo m.table name) args a s k) w' =
        run cx fuel (.give k s r) w₁
  /-- From any control on, also one that was suspended and is resumed again, the program comes with
  its tables to what it comes to with the functions themselves. -/
  resumed {w' w : World} : Alike ms w' w → ∀ fuel control,
    GaveUp (runWhile (cx.permits ms) (cx.bare ms) fuel (control.bare ms) w) ∨
      ∃ r enough, (∀ more, enough ≤ more → run cx more control w' = r) ∧
        (memoizing ms).Agree () (Step.relabel (bareness ms)) r
          (run (cx.bare ms) fuel (control.bare ms) w)
  /-- So does every inference. -/
  inferred {w' w : World} : Alike ms w' w → ∀ fuel c s,
    GaveUp (inferWhile (cx.permits ms) (cx.bare ms) fuel (c.bare ms) s w) ∨
      ∃ r enough, (∀ more, enough ≤ more → inferAt cx more c s w' = r) ∧
        (memoizing ms).Agree () id r (inferAt (cx.bare ms) fuel (c.bare ms) s w)

theorem inferWhile_transparent (fuel : Nat) (c : InferCall) (s : Store) :
    Tracks .unending (memoizing ms) id (fun more => inferWhile always cx more c s)
      (inferWhile (cx.permits ms) (cx.bare ms) fuel (c.bare ms) s) := by
  refine (prepare_alike c.place c.function c.method c.key c.options none).tracks.bind fun i => ?_
  exact (memoizing_sharing ms).installed i.active (i.strategy.estimate_tracks
    (along_memoizing (transparently apart steady fuel) 0) i.entry s)

omit steady apart in
theorem newMemo_keeps {m : Remembered} {bound : Value} (fresh : m.table = w.memos.size)
    (fine : bound = .absent ∨ ∃ n, bound.int? = some n ∧ 1 ≤ n) :
    ∃ w₁ memo, newMemo (.function m.function) bound w = .ok (.memo m.table m.function) w₁ ∧
      w₁.memos[m.table]? = some memo ∧ m.Keeps memo := by
  have adds (bound : Option Int) (room : ∀ n, bound = some n → 1 ≤ n) :
      ∃ w₁ memo, (do
        let w ← get
        set { w with memos := w.memos.push ⟨.function m.function, .empty bound, false⟩ }
        return .memo w.memos.size m.function : Run Value) w = .ok (.memo m.table m.function) w₁ ∧
        w₁.memos[m.table]? = some memo ∧ m.Keeps memo := by
    refine ⟨_, ⟨.function m.function, .empty bound, false⟩, by rw [fresh]; rfl, ?_, rfl, room, ?_⟩
    · rw [fresh]
      exact Array.getElem?_push_size
    · exact fun _ _ absent => absurd absent List.not_mem_nil
  obtain rfl | ⟨n, known, least⟩ := fine
  · exact adds none nofun
  · have given : newMemo (.function m.function) bound = (do
        let w ← get
        set { w with memos := w.memos.push ⟨.function m.function, .empty (some n), false⟩ }
        return .memo w.memos.size m.function : Run Value) := by
      unfold newMemo
      cases bound with
      | absent => cases known
      | _ =>
        simp only [known, if_neg (by omega : ¬ n < 1)]
        rfl
    rw [given]
    exact adds (some n) fun _ same => by cases same; exact least

/-- Functions that are steady may be called through tables of their own. -/
theorem tables_unseen : Unseen ms cx where
  made fresh fine := newMemo_keeps fresh fine
  dropped {m memo entries w' w} member alike found fewer := by
    obtain ⟨memo', found', keeps⟩ := alike.keeps member
    obtain rfl : memo = memo' := Option.some.inj (found.symm.trans found')
    refine alike.setKept (List.any_eq_true.mpr ⟨m, member, beq_self_eq_true _⟩) fun other among same => ?_
    obtain rfl := List.inj_on_of_nodup_map apart among member same
    exact ⟨keeps.function, keeps.room, fun key v left => keeps.answers key v (fewer left)⟩
  called {m args r w' w} member result alike name a s k := by
    obtain ⟨fuel, w₁, exits, rest, memos⟩ := (steady m member).delivers a s w result
    simp only [← runWhile_always]
    exact table_gives apart steady member result (fun w' alike => delivers_among_tables
      (transparently apart steady fuel (.call (.function m.function) args a s .halt)) exits rest memos alike)
      alike name k
  resumed {w' w} alike fuel control := by
    refine (runWhile_unguarded (cx.permits ms) (cx.bare ms) fuel (control.bare ms) w).elim .inl
      fun same => ?_
    rw [← same]
    simp only [← runWhile_always]
    exact tracks_unending.mp (transparently apart steady fuel control) () w' w alike
  inferred {w' w} alike fuel c s := by
    refine (inferWhile_unguarded (cx.permits ms) (cx.bare ms) fuel (c.bare ms) s w).elim .inl
      fun same => ?_
    rw [← same]
    simp only [← inferWhile_always]
    exact tracks_unending.mp (inferWhile_transparent apart steady fuel c s) () w' w alike

end

/-- A function that calls itself through its table. -/
def nesting : Program :=
  ⟨[("f", ⟨["deep"], .choose (.var "deep")
    (.bind "inner" (.bounce (.call none (.var "m") [.literal (.bool false)]))
      (.ret (.tuple [.var "inner"])))
    (.ret (.literal (.int 0)))⟩)]⟩

def nested : Remembered where
  table := 0
  function := "f"
  result
    | [.bool deep] => some (if deep then .tuple [.int 0] else .int 0)
    | _ => none

def nestingContext : Context := ⟨nesting, [("m", .memo 0 "f")]⟩

theorem nested_steady : Steady [nested] nestingContext nested := by
  have made {args : List Value} {r : Value} (result : nested.result args = some r) :
      ∃ deep, args = [.bool deep] ∧ r = if deep then .tuple [.int 0] else .int 0 := by
    simp only [nested] at result
    split at result
    · next deep => exact ⟨deep, rfl, (Option.some.inj result).symm⟩
    · cases result
  have key (deep : Bool) :
      Data.serialize (.tuple [.bool deep]) = .ok (if deep then "[true]" else "[false]") := by
    cases deep <;> rfl
  refine ⟨fun result => ?_, fun result => ?_, fun result result' keyed keyed' => ?_,
    fun a s w result => ?_⟩
  · obtain ⟨deep, rfl, _⟩ := made result
    exact ⟨_, key deep⟩
  · obtain ⟨deep, _, rfl⟩ := made result
    cases deep
    · exact ⟨"0", rfl⟩
    · exact ⟨"[0]", rfl⟩
  · obtain ⟨deep, rfl, rfl⟩ := made result
    obtain ⟨deep', rfl, rfl⟩ := made result'
    rw [key] at keyed keyed'
    have same := keyed.trans keyed'.symm
    cases deep <;> cases deep' <;> first | rfl | exact absurd (Except.ok.inj same) (by decide)
  · obtain ⟨deep, rfl, rfl⟩ := made result
    cases deep <;> exact ⟨20, w, rfl, rfl, rfl⟩

/-- The table is unseen, and there is a world with such a table, of bound one. -/
theorem nesting_unseen : (([nested].map Remembered.table).Nodup ∧
    ∀ m ∈ [nested], Steady [nested] nestingContext m) ∧ Unseen [nested] nestingContext ∧
      ∃ w, newMemo (.function "f") (.int 1) .start = .ok (.memo 0 "f") w ∧ Alike [nested] w w := by
  have steady : ∀ m ∈ [nested], Steady [nested] nestingContext m := by
    intro m member
    rw [List.mem_singleton.mp member]
    exact nested_steady
  have apart : ([nested].map Remembered.table).Nodup := List.nodup_singleton 0
  have unseen := tables_unseen apart steady
  refine ⟨⟨apart, steady⟩, unseen, ?_⟩
  obtain ⟨w, memo, made, found, keeps⟩ :=
    unseen.made (m := nested) (w := .start) rfl (.inr ⟨1, (rfl : (Value.int 1).int? = _), le_rfl⟩)
  refine ⟨w, made, .itself (fun m member => ?_) fun table other unknown elsewhere => ?_⟩
  · rw [List.mem_singleton.mp member]
    exact ⟨memo, found, keeps⟩
  · cases made
    obtain ⟨inside, _⟩ := Array.getElem?_eq_some_iff.mp elsewhere
    obtain rfl : table = 0 := Nat.lt_one_iff.mp inside
    cases unknown

/-- A function that registers a parameter where it is called, and a program that looks for one at
the place of its second call. -/
def registering : Program :=
  ⟨[("f", ⟨[], .bind "p" (.param none (.literal (.int 1)) none none none) (.ret (.literal (.int 5)))⟩),
    ("main", ⟨[], .bind "x" (.call (some (.literal (.text "x"))) (.var "m") [])
      (.bind "y" (.call (some (.literal (.text "y"))) (.var "m") [])
        (.bind "p" (.param (some (.literal (.text "y"))) (.literal (.int 2)) none none none)
          (.choose (.binary .equal (.var "p") (.literal (.int 1))) (.raise "registered")
            (.raise "not registered"))))⟩)]⟩

/-- An inference about the main function, without a key. -/
def mainCall : InferCall := ⟨.root, .function "main", .text "enumerate", none, []⟩

theorem within_hashable {a : Address} (hashable : a.isHashable = true) (base : Address) :
    (a.within base).isHashable = true := by
  unfold Address.within Address.relativeTo?
  split
  · have whole : Value.allHashable (a.tokens.take base.tokens.length ++
        a.tokens.drop base.tokens.length) = true := by
      rw [List.take_append_drop]
      exact hashable
    rw [allHashable_append, Bool.and_eq_true] at whole
    exact whole.2
  · exact hashable

theorem param_registers {a : Address} (hashable : a.isHashable = true) (n : Int)
    (mean sd : Float) (w : World) : ∃ v w₁, param a (.int n) mean sd none w = .ok v w₁ := by
  obtain ⟨rel, seen, hashable⟩ : ∃ rel, Run.relative a w = .ok rel w ∧ rel.isHashable = true := by
    unfold Run.relative
    rw [bind_of_ok (show (get : Run World) w = .ok w w from rfl)]
    cases w.strategies with
    | nil => exact ⟨a, rfl, hashable⟩
    | cons active _ => exact ⟨a.within active.address, rfl, within_hashable hashable active.address⟩
  unfold param
  rw [bind_of_ok seen, hashable, if_neg (by decide)]
  beta_reduce
  rw [bind_of_ok (show (get : Run World) w = .ok w w from rfl)]
  cases w.params.get? rel with
  | some v => exact ⟨v, w, rfl⟩
  | none => exact ⟨_, _, rfl⟩

theorem registering_delivers (globals : Vars) {a : Address} (hashable : a.isHashable = true) (s : Store)
    (w : World) : ∃ w₁, run ⟨registering, globals⟩ 10 (.call (.function "f") [] a s .halt) w =
      .ok (.exit s (.int 5)) w₁ := by
  obtain ⟨v, w₁, registers⟩ := param_registers hashable 1 0 0 w
  refine ⟨w₁, ?_⟩
  change run ⟨registering, globals⟩ 8 (.eval (.param none (.literal (.int 1)) none none none) [] a s
    (.bind "p" (.ret (.literal (.int 5))) [] a .halt)) w = _
  rw [run_param]
  exact bind_of_ok registers

/-- The message of a program that failed for a reason of its own. -/
def complaint {α : Type} : EStateM.Result Failure World α → Option String
  | .error (.invalid (.raised message)) _ => some message
  | _ => none

/-- A function may deliver one value wherever it can be called, with the store as it is, and still
not be the same as its table: what it registers stays away when it is not run. -/
theorem registration_seen :
    (∀ globals a s w, a.isHashable = true → ∃ w₁,
      run ⟨registering, globals⟩ 10 (.call (.function "f") [] a s .halt) w =
        .ok (.exit s (.int 5)) w₁) ∧
    Data.serialize (.tuple []) = .ok "[]" ∧ Data.serialize (.int 5) = .ok "5" ∧
    ∃ w, newMemo (.function "f") .absent .start = .ok (.memo 0 "f") w ∧
      complaint (inferAt ⟨registering, [("m", .function "f")]⟩ 30 mainCall .empty w) =
        some "registered" ∧
      complaint (inferAt ⟨registering, [("m", .memo 0 "f")]⟩ 30 mainCall .empty w) =
        some "not registered" := by
  refine ⟨fun globals a s w hashable => registering_delivers globals hashable s w, rfl, rfl, _, rfl, ?_, ?_⟩
  · decide +kernel
  · decide +kernel

end Machine

end ProbCore
