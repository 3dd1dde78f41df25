import ProbCore.Proofs.Chronicle
import ProbCore.Proofs.RecentUse
import ProbCore.Proofs.RememberedMoves

/-! Tables of results stay. Whatever programs and strategies do, a table that was made is there ever after, with its
function and its bound, and all tables have room for an entry. -/

namespace ProbCore

namespace Cache

variable {β : Type} {c c' : Cache β} {key : String} {v : β} {dropped : Option String}

theorem peek_of_contains (known : c.contains key = true) : ∃ v, c.peek key = .ok v := by
  obtain ⟨v, _, got, _⟩ := get_of_contains known
  exact ⟨v, peek_of_get got⟩

theorem contains_of_peek (known : c.peek key = .ok v) : c.contains key = true := by
  unfold peek at known
  split at known
  next found =>
    obtain ⟨before, after, same, _⟩ := List.lookup_eq_some_iff.mp found
    simp [contains, same]
  next => cases known

/-- Whatever makes room for it, an entry that was put comes last and is the only one of its key. -/
theorem put_last (added : c.put key v = .ok (c', dropped)) :
    ∃ older, c' = { c with entries := older ++ [(key, v)] } ∧ ∀ e ∈ older, e.1 ≠ key := by
  by_cases held : key ∈ c.keys
  · rw [put_held held] at added
    cases added
    exact ⟨_, rfl, fun e member => bne_iff_ne.mp (List.mem_filter.mp member).2⟩
  · have other {e : String × β} (member : e ∈ c.entries) : e.1 ≠ key :=
      fun same => held (same ▸ List.mem_map_of_mem (f := (·.1)) member)
    cases full : c.full with
    | false =>
      rw [put_room held full] at added
      cases added
      exact ⟨_, rfl, fun e member => other member⟩
    | true =>
      cases entries : c.entries with
      | nil => simp [put, contains, full, entries] at added
      | cons first rest =>
        rw [put_full held full entries] at added
        cases added
        exact ⟨rest, rfl, fun e member => other (entries ▸ List.mem_cons_of_mem _ member)⟩

theorem bound_put (added : c.put key v = .ok (c', dropped)) : c'.bound = c.bound := by
  obtain ⟨_, rfl, _⟩ := put_last added
  rfl

theorem peek_put (added : c.put key v = .ok (c', dropped)) : c'.peek key = .ok v := by
  obtain ⟨older, rfl, others⟩ := put_last added
  have unknown : older.lookup key = none :=
    List.lookup_eq_none_iff.mpr fun e member => bne_iff_ne.mpr (others e member).symm
  have last : (older ++ [(key, v)]).lookup key = some v := by simp [List.lookup_append, unknown]
  simp only [peek, last]

end Cache

/-- There is room for an entry, if need be after one was dropped. -/
def Memo.Roomy (m : Memo) : Prop := ∀ n, m.cache.bound = some n → 1 ≤ n

namespace Memo

/-- What is reported of a value that comes for a key, latest first. Nothing is where the key is new, and else both
values must have texts. -/
def said (m : Memo) (key : String) (v : Value) : Except Failure (List Notice) :=
  match m.cache.peek key with
  | .error _ => .ok []
  | .ok old => do
    let old ← Data.serialize old
    let new ← Data.serialize v
    return if old != new then [.diverged key old new, .alreadyKnown key] else [.alreadyKnown key]

/-- Whether the growth of a table to this cache is reported. -/
def announces (m : Memo) (cache : Cache Value) (w : World) : Bool :=
  cache.bound.isNone && !m.announced && decide (w.sizeNotice ≤ cache.size)

end Memo

/-- All tables are kept with their functions and bounds, and the new ones have room. -/
structure Grows (before after : Array Memo) : Prop where
  kept {table : Nat} {memo : Memo} : before[table]? = some memo →
    ∃ memo', after[table]? = some memo' ∧ memo'.function = memo.function ∧ memo'.cache.bound = memo.cache.bound
  roomy : (∀ memo ∈ before, memo.Roomy) → ∀ memo ∈ after, memo.Roomy

namespace Grows

variable {before middle after : Array Memo}

theorem refl (memos : Array Memo) : Grows memos memos := ⟨fun found => ⟨_, found, rfl, rfl⟩, fun roomy => roomy⟩

theorem trans (earlier : Grows before middle) (later : Grows middle after) : Grows before after where
  kept found := by
    obtain ⟨memo, found, function, bound⟩ := earlier.kept found
    obtain ⟨memo', found', function', bound'⟩ := later.kept found
    exact ⟨memo', found', function'.trans function, bound'.trans bound⟩
  roomy roomy := later.roomy (earlier.roomy roomy)

theorem push (memos : Array Memo) {memo : Memo} (roomy : memo.Roomy) : Grows memos (memos.push memo) where
  kept {table _} found := by
    obtain ⟨inside, _⟩ := Array.getElem?_eq_some_iff.mp found
    exact ⟨_, by rwa [Array.getElem?_push, if_neg (Nat.ne_of_lt inside)], rfl, rfl⟩
  roomy all other member := by
    obtain older | rfl := Array.mem_push.mp member
    · exact all other older
    · exact roomy

/-- A table with other entries. -/
theorem set {memos : Array Memo} {table : Nat} {memo : Memo} (found : memos[table]? = some memo) (cache : Cache Value)
    (bound : cache.bound = memo.cache.bound) (announced : Bool) :
    Grows memos (memos.setIfInBounds table { memo with cache, announced }) where
  kept {other _} known := by
    by_cases here : table = other
    · subst here
      obtain rfl := Option.some.inj (found.symm.trans known)
      obtain ⟨inside, _⟩ := Array.getElem?_eq_some_iff.mp found
      exact ⟨_, Array.getElem?_setIfInBounds_self_of_lt inside, rfl, bound⟩
    · exact ⟨_, by rwa [Array.getElem?_setIfInBounds_ne here], rfl, rfl⟩
  roomy all other member := by
    obtain older | rfl := Array.mem_or_eq_of_mem_setIfInBounds member
    · exact all other older
    · intro n same
      exact all memo (Array.mem_of_getElem? found) n (bound.symm.trans same)

end Grows

/-- A world whose tables have grown from these. -/
abbrev standing (since : Array Memo) : Tie Unit World World := knowing fun w => Grows since w.memos

namespace Machine

variable {α : Type} {since : Array Memo}

theorem standing_sharing (since : Array Memo) : (standing since).Sharing where
  same := by
    rintro _ w _ ⟨rfl, _⟩
    rfl
  install _ := by
    rintro ⟨rfl, grown⟩
    exact ⟨rfl, grown⟩
  note _ := by
    rintro ⟨rfl, grown⟩
    exact ⟨rfl, grown⟩

theorem stands_of_grows {x : Run α} (grows : ∀ w, Grows w.memos (ended (x w)).memos) :
    Mirrors (standing since) id x x := by
  rintro _ w _ ⟨rfl, grown⟩
  have more := grown.trans (grows w)
  cases ran : x w with
  | ok a w' =>
    rw [ran] at more
    exact ⟨rfl, rfl, more⟩
  | error e w' =>
    rw [ran] at more
    exact ⟨.same e, rfl, more⟩

/-- What does not touch the tables. -/
theorem modify_stands {f : World → World} (kept : ∀ w, (f w).memos = w.memos) :
    Mirrors (standing since) id (modify f : Run Unit) (modify f) := by
  rintro _ w _ ⟨rfl, grown⟩
  exact ⟨rfl, rfl, (congrArg (Grows since) (kept w)).mpr grown⟩

theorem modifying_stands {f : World → World} (kept : ∀ w, (f w).memos = w.memos) {g : Unit → Run α}
    (rest : Mirrors (standing since) id (g ()) (g ())) :
    Mirrors (standing since) id (modify f >>= g) (modify f >>= g) :=
  (modify_stands kept).bind fun _ => rest

theorem note_stands (n : Notice) : Mirrors (standing since) id (Run.note n) (Run.note n) := modify_stands fun _ => rfl

theorem get_stands {f : World → Run α} (each : ∀ w, Mirrors (standing since) id (f w) (f w)) :
    Mirrors (standing since) id (get >>= f) (get >>= f) := by
  rintro _ w _ ⟨rfl, grown⟩
  exact each w () w w ⟨rfl, grown⟩

theorem emit_stands (v : Value) : Mirrors (standing since) id (Run.emit v) (Run.emit v) := by
  refine modify_stands fun w => ?_
  split <;> rfl

theorem finishPass_stands (a : Address) : Mirrors (standing since) id (Run.finishPass a) (Run.finishPass a) := by
  refine modify_stands fun w => ?_
  split <;> rfl

theorem fetch_stands (previous : Option (List Int)) (size : Nat) (batch : Value) (a : Address) :
    Mirrors (standing since) id (Run.fetch previous size batch a) (Run.fetch previous size batch a) := by
  refine (standing_sharing since).current.bind fun active => ?_
  obtain ⟨title, key, address, picks⟩ := active
  cases picks with
  | none => exact .pure _
  | some picks =>
    refine modifying_stands (fun _ => by rfl) ?_
    cases picks with
    | nil => exact .pure _
    | cons pick rest => exact ((standing_sharing since).updateCurrent _).bind fun _ => .pure _

theorem param_stands (a : Address) (start : Value) (mean sd : Float) (key : Option Random.Key) :
    Mirrors (standing since) id (param a start mean sd key) (param a start mean sd key) := by
  refine ((standing_sharing since).relative a).bind fun rel => ?_
  extract_lets looks
  have looked : ∀ r, Mirrors (standing since) id (looks r) (looks r) := by
    refine fun _ => get_stands fun w => ?_
    cases w.params.get? rel with
    | some v => exact .pure v
    | none =>
      exact ((standing_sharing since).makeParam start mean sd key).bind fun v =>
        modifying_stands (fun _ => by rfl) ((note_stands _).bind fun _ => .pure v)
  exact .ite ((Mirrors.throw (φ := id) (.same _)).bind looked) (looked ())

/-- New tables have room. -/
theorem newMemo_stands (function bound : Value) :
    Mirrors (standing since) id (newMemo function bound) (newMemo function bound) := by
  obtain ⟨e, refused⟩ | ⟨n, roomy, added⟩ := newMemo_cases function bound
  · rw [refused]
    exact .throw (.same e)
  · rw [added]
    exact stands_of_grows fun w => .push w.memos roomy

theorem nextVisit_stands (pass : Pass) (s : Store) (k : Rest) :
    Mirrors (standing since) id (nextVisit pass s k) (nextVisit pass s k) := by
  unfold nextVisit
  split
  · exact (finishPass_stands _).bind fun _ => .pure _
  · split
    · exact .throw (.same _)
    · exact .pure _

theorem beginPass_stands (a : Address) (data function : Value) (batch : Option Value) (s : Store) (k : Rest) :
    Mirrors (standing since) id (beginPass a data function batch s k) (beginPass a data function batch s k) := by
  have sharing := standing_sharing since
  rw [beginPass_eq]
  refine (Run.lift_mirrors _).bind fun size => .ite (.pure _) (Mirrors.bind (φ := id) ?_ fun pass => nextVisit_stands pass s k)
  refine sharing.current.bind fun _ => (sharing.relative a).bind fun rel => .ite (.throw (.same _)) ?_
  exact get_stands fun w => (fetch_stands _ _ _ _).bind fun given => (checkIndices_mirrors _ _).bind fun indices =>
    modifying_stands (fun _ => by rfl) ((note_stands _).bind fun _ => .pure _)

theorem prepare_stands (a : Address) (function method : Value) (key : Option Random.Key) (options : Options)
    (picks : Option (List Value)) :
    Mirrors (standing since) id (prepare a function method key options picks)
      (prepare a function method key options picks) := by
  rw [prepare_eq]
  exact (Run.lift_mirrors _).bind fun method => ((standing_sharing since).keyFor key).bind fun key =>
    (Run.lift_mirrors _).bind fun strategy => (note_stands _).bind fun _ => .pure _

/-- The world after a table was filled. -/
def filled (w : World) (table : Nat) (m : Memo) (cache : Cache Value) (dropped : Option String) : World :=
  { w with
    memos := w.memos.setIfInBounds table { m with cache, announced := m.announced || m.announces cache w }
    notices := (if m.announces cache w then [.grown (newMemo.nameOf m.function) cache.size] else []) ++
      ((dropped.map Notice.evicted).toList ++ w.notices) }

theorem settle_eq (table : Nat) (m : Memo) (cache : Cache Value) (w : World) :
    settle table m cache w = .ok () (filled w table m cache none) := by
  rw [settle, bind_of_ok (show (get : Run World) w = .ok w w from rfl)]
  unfold filled Memo.announces
  cases cache.bound.isNone && !m.announced && decide (w.sizeNotice ≤ cache.size) with
  | true =>
    rw [Bool.or_true]
    rfl
  | false =>
    rw [Bool.or_false]
    rfl

theorem fill_eq (table : Nat) (m : Memo) (key : String) (v : Value) (w : World) :
    fill table m key v w =
      match m.cache.put key v with
      | .error e => .error e w
      | .ok (cache, dropped) => .ok () (filled w table m cache dropped) := by
  unfold fill
  cases m.cache.put key v with
  | error e => rfl
  | ok added =>
    obtain ⟨cache, _ | dropped⟩ := added
    · exact settle_eq table m cache w
    · exact settle_eq table m cache { w with notices := .evicted dropped :: w.notices }

theorem compareKnown_eq (m : Memo) (key : String) (v : Value) (w : World) :
    compareKnown m key v w =
      match m.said key v with
      | .error e => .error e { w with notices := .alreadyKnown key :: w.notices }
      | .ok said => .ok () { w with notices := said ++ w.notices } := by
  unfold compareKnown Memo.said
  cases known : m.cache.peek key with
  | error e =>
    have absent : ¬ m.cache.contains key = true := by
      intro here
      obtain ⟨_, there⟩ := Cache.peek_of_contains here
      cases known.symm.trans there
    rw [if_neg absent]
    rfl
  | ok old =>
    rw [Cache.contains_of_peek known, if_pos rfl]
    dsimp only [Run.lift]
    rw [pure_bind]
    cases Data.serialize old with
    | error e => rfl
    | ok text =>
      cases Data.serialize v with
      | error e => rfl
      | ok text' =>
        change (if text != text' then Run.note (.diverged key text text') else pure () : Run Unit)
          { w with notices := .alreadyKnown key :: w.notices } = _
        dsimp only [bind, Except.bind]
        cases text != text' <;> rfl

/-- What a table does with a value that comes for a key. -/
theorem remember_eq {w : World} {table : Nat} {m : Memo} (found : w.memos[table]? = some m) (key : String) (v : Value) :
    remember table key v w =
      match m.said key v with
      | .error e => .error e { w with notices := .alreadyKnown key :: w.notices }
      | .ok said => fill table m key v { w with notices := said ++ w.notices } := by
  have compared := compareKnown_eq m key v w
  rw [remember_eq_bind, bind_of_ok (memoAt_eq found)]
  cases said : m.said key v with
  | error e =>
    rw [said] at compared
    exact bind_of_error compared
  | ok said' =>
    rw [said] at compared
    exact bind_of_ok compared

theorem fill_grows {table : Nat} {m : Memo} {w : World} (found : w.memos[table]? = some m) (key : String) (v : Value) :
    Grows w.memos (ended (fill table m key v w)).memos := by
  rw [fill_eq]
  cases added : m.cache.put key v with
  | error e => exact .refl _
  | ok put => exact .set found put.1 (Cache.bound_put added) _

theorem remember_stands (table : Nat) (key : String) (v : Value) :
    Mirrors (standing since) id (remember table key v) (remember table key v) := by
  refine stands_of_grows fun w => ?_
  cases found : w.memos[table]? with
  | none =>
    unfold remember
    rw [bind_of_error (memoAt_none found)]
    exact .refl _
  | some m =>
    rw [remember_eq found]
    cases m.said key v with
    | error e => exact .refl _
    | ok said => exact fill_grows (w := { w with notices := said ++ w.notices }) found key v

theorem callMemo_stands (table : Nat) (args : List Value) (a : Address) (s : Store) (k : Rest) :
    Mirrors (standing since) id (callMemo table args a s k) (callMemo table args a s k) := by
  refine (Run.lift_mirrors _).bind fun key => stands_of_grows fun w => ?_
  cases found : w.memos[table]? with
  | none =>
    rw [bind_of_error (memoAt_none found)]
    exact .refl _
  | some m =>
    rw [bind_of_ok (memoAt_eq found)]
    dsimp only [id]
    split
    next known =>
      obtain ⟨v, cache, got, _, bound, _⟩ := Cache.get_of_contains known
      rw [got]
      exact .set found cache bound m.announced
    next => exact .refl _

theorem enter_stands (cx : Context) (function : Value) (args : List Value) (a : Address) (s : Store) (k : Rest) :
    Mirrors (standing since) id (enter cx function args a s k) (enter cx function args a s k) := by
  unfold enter
  split
  · exact callMemo_stands _ _ _ _ _
  · split
    · exact .throw (.same _)
    · exact .ite (.throw (.same _)) (.pure _)
  · exact .throw (.same _)

theorem advanceComp_stands (cx : Context) (c : Comp) (vars : Vars) (a : Address) (s : Store) (k : Rest) :
    Mirrors (standing since) id (advanceComp cx c vars a s k) (advanceComp cx c vars a s k) := by
  have read {α : Type} {r : Except Failure α} {f : α → Run Move}
      (rest : ∀ a, Mirrors (standing since) id (f a) (f a)) :
      Mirrors (standing since) id (Run.lift r >>= f) (Run.lift r >>= f) := (Run.lift_mirrors r).bind rest
  have sharing := standing_sharing since
  cases c with
  | ret e => exact read fun _ => .pure _
  | bind name first rest => exact .pure _
  | sequence steps =>
    match steps with
    | [] => exact .pure _
    | [_] => exact .pure _
    | _ :: _ :: _ => exact .pure _
  | choose test yes no => exact read fun _ => .pure _
  | sample t d => exact read fun _ => read fun _ => sharing.current.bind fun _ => .pure _
  | factor t e => exact read fun _ => read fun _ => sharing.current.bind fun _ => read fun _ => .pure _
  | observe t d e =>
    exact read fun _ => read fun _ => read fun _ => sharing.current.bind fun _ => read fun _ => .pure _
  | set key e => exact read fun _ => read fun _ => read fun _ => .pure _
  | call t f args => exact read fun _ => read fun _ => read fun _ => .pure _
  | apply t f args => exact read fun _ => read fun _ => read fun _ => .pure _
  | bounce c => exact .pure _
  | relative t => exact read fun _ => (sharing.relative _).bind fun _ => .pure _
  | map t data f batch =>
    exact read fun _ => read fun _ => read fun _ => read fun _ => (beginPass_stands _ _ _ _ _ _).bind fun _ => .pure _
  | cache t f bound => exact read fun _ => read fun _ => read fun _ => (newMemo_stands _ _).bind fun _ => .pure _
  | param t start mean sd seed =>
    exact read fun _ => read fun _ => read fun _ => read fun _ => read fun _ => read fun _ => read fun _ => read fun _ =>
      (param_stands _ _ _ _ _).bind fun _ => .pure _
  | tensor form t e => exact read fun _ => read fun _ => read fun _ => .pure _
  | infer t f method options =>
    refine read fun _ => read fun _ => read fun _ => Mirrors.bind (φ := id) ?_ fun _ =>
      read fun _ => (prepare_stands _ _ _ _ _ _).bind fun _ => .pure _
    refine Mirrors.mapM_same (fun option => ?_) options
    exact (Run.lift_mirrors (option.2.eval _)).bind fun v => .pure (option.1, v)
  | emit e => exact read fun _ => (emit_stands _).bind fun _ => .pure _
  | raise message => exact .throw (.same _)
  | stop e => exact read fun _ => .pure _
  | unknown _ => exact .throw (.same _)

/-- No move takes a table away or changes its function or its bound. -/
theorem advance_stands (cx : Context) (control : Control) :
    Mirrors (standing since) id (advance cx control) (advance cx control) := by
  cases control with
  | eval c vars a s k => exact advanceComp_stands cx c vars a s k
  | call f args a s k => exact (enter_stands cx f args a s k).bind fun _ => .pure _
  | give k s v =>
    cases k with
    | remember table key k => exact (remember_stands table key v).bind fun _ => .pure _
    | visit pass k => exact (nextVisit_stands _ _ _).bind fun _ => .pure _
    | _ => exact .pure _

end Machine

theorem Moved.grows (m : Moved) : Grows m.before.memos m.after.memos :=
  (Machine.advance_stands m.context m.control () m.before m.before ⟨rfl, .refl _⟩).holds.2

end ProbCore
