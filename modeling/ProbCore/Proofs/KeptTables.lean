import ProbCore.Proofs.Remembered

/-! Tables of results. A table keeps to its function as long as each of its entries is what the
function delivers for all arguments with that key. Looking an entry up, adding one and dropping
some to make room leave it so. -/

namespace ProbCore

namespace Cache

variable {β : Type} {c : Cache β} {key : String} {v : β}

theorem get_of_contains (known : c.contains key = true) :
    ∃ v c', c.get key = .ok (v, c') ∧ (key, v) ∈ c.entries ∧ c'.bound = c.bound ∧
      ∀ entry ∈ c'.entries, entry ∈ c.entries := by
  obtain ⟨bound, entries⟩ := c
  cases found : entries.lookup key with
  | none =>
    rw [List.lookup_eq_none_iff] at found
    simp only [contains, List.any_eq_true] at known
    obtain ⟨entry, member, same⟩ := known
    have other := found entry member
    simp_all
  | some v =>
    have member : (key, v) ∈ entries := by
      obtain ⟨before, after, rfl, _⟩ := List.lookup_eq_some_iff.mp found
      simp
    simp only [get, peek, found]
    refine ⟨v, _, rfl, member, rfl, fun entry among => ?_⟩
    obtain older | newest := List.mem_append.mp among
    · exact (List.mem_filter.mp older).1
    · rw [List.mem_singleton.mp newest]
      exact member

theorem peek_of_get {c' : Cache β} (got : c.get key = .ok (v, c')) : c.peek key = .ok v := by
  unfold get at got
  cases peeked : c.peek key with
  | error e =>
    rw [peeked] at got
    cases got
  | ok v' =>
    rw [peeked] at got
    cases got
    rfl

/-- There is room for an entry, if need be after one was dropped, unless the bound is not
positive. -/
theorem put_of_room (room : ∀ n, c.bound = some n → 1 ≤ n) (key : String) (v : β) :
    ∃ c' dropped, c.put key v = .ok (c', dropped) ∧ c'.bound = c.bound ∧
      ∀ entry ∈ c'.entries, entry ∈ c.entries ∨ entry = (key, v) := by
  obtain ⟨bound, entries⟩ := c
  have added {older : List (String × β)} (kept : ∀ entry ∈ older, entry ∈ entries) :
      ∀ entry ∈ older ++ [(key, v)], entry ∈ entries ∨ entry = (key, v) := by
    intro entry among
    obtain older | newest := List.mem_append.mp among
    · exact .inl (kept entry older)
    · exact .inr (List.mem_singleton.mp newest)
  unfold put
  split
  · exact ⟨_, _, rfl, rfl, added fun entry older => (List.mem_filter.mp older).1⟩
  · split
    · next full =>
      cases entries with
      | nil =>
        cases bound with
        | none => cases full
        | some n =>
          have least := room n rfl
          simp [Cache.full] at full
          omega
      | cons first rest => exact ⟨_, _, rfl, rfl, added fun entry => List.mem_cons_of_mem first⟩
    · exact ⟨_, _, rfl, rfl, added fun _ => id⟩

end Cache

namespace Remembered

/-- A value for a key that is what the function delivers. -/
def Answers (m : Remembered) (key : String) (v : Value) : Prop :=
  ∀ args r, m.result args = some r → Data.serialize (.tuple args) = .ok key → v = r

/-- A table of the function, with room for an entry, whose entries are what it delivers. -/
structure Keeps (m : Remembered) (memo : Memo) : Prop where
  function : memo.function = .function m.function
  room (n : Int) : memo.cache.bound = some n → 1 ≤ n
  answers (key : String) (v : Value) : (key, v) ∈ memo.cache.entries → m.Answers key v

variable {m : Remembered} {memo : Memo} {key : String} {v : Value}

theorem Keeps.get (keeps : m.Keeps memo) (known : memo.cache.contains key = true) :
    ∃ v cache, memo.cache.get key = .ok (v, cache) ∧ m.Answers key v ∧
      m.Keeps { memo with cache } := by
  obtain ⟨v, cache, found, member, bound, fewer⟩ := Cache.get_of_contains known
  refine ⟨v, cache, found, keeps.answers key v member, keeps.function, ?_, ?_⟩
  · rw [bound]
    exact keeps.room
  · exact fun key v among => keeps.answers key v (fewer _ among)

theorem Keeps.put (keeps : m.Keeps memo) (answers : m.Answers key v) (announced : Bool) :
    ∃ cache dropped, memo.cache.put key v = .ok (cache, dropped) ∧
      m.Keeps { memo with cache, announced } := by
  obtain ⟨cache, dropped, added, bound, entries⟩ := Cache.put_of_room keeps.room key v
  refine ⟨cache, dropped, added, keeps.function, ?_, ?_⟩
  · rw [bound]
    exact keeps.room
  · intro key' v' among
    obtain older | newest := entries _ among
    · exact keeps.answers key' v' older
    · cases newest
      exact answers

end Remembered

/-- A world up to its tables of results and up to what was reported. -/
def World.hushed (w : World) : World :=
  { w with memos := #[], notices := [], events := [], eventCount := 0 }

/-- Worlds that are the same up to reports and up to the tables of the functions, which in the first
world keep to their functions. No other table has one of these for its function. -/
structure Alike (ms : List Remembered) (w' w : World) : Prop where
  rest : w'.hushed = w.hushed
  size : w'.memos.size = w.memos.size
  others {table : Nat} : tableKnown ms table = false → w'.memos[table]? = w.memos[table]?
  plain {table : Nat} {memo : Memo} : tableKnown ms table = false → w.memos[table]? = some memo →
    memo.function.tabled ms = false
  keeps {m : Remembered} : m ∈ ms → ∃ memo, w'.memos[m.table]? = some memo ∧ m.Keeps memo

/-- The worlds of a program with tables beside those of the program with the functions
themselves. -/
def memoizing (ms : List Remembered) : Tie Unit World World := ⟨id, fun _ w' w => Alike ms w' w⟩

namespace Alike

variable {ms : List Remembered} {w' w v' v : World}

theorem strategies (alike : Alike ms w' w) : w'.strategies = w.strategies :=
  show w'.hushed.strategies = w.hushed.strategies from congrArg _ alike.rest

/-- A world is like itself if the tables of the functions keep to them. -/
theorem itself (keeps : ∀ m ∈ ms, ∃ memo, w.memos[m.table]? = some memo ∧ m.Keeps memo)
    (plain : ∀ table memo, tableKnown ms table = false → w.memos[table]? = some memo →
      memo.function.tabled ms = false) : Alike ms w w :=
  ⟨rfl, rfl, fun _ => rfl, plain _ _, keeps _⟩

/-- What leaves the tables alone and changes both worlds alike keeps them alike. -/
theorem unchanged (alike : Alike ms w' w) (rest : v'.hushed = v.hushed)
    (memos' : v'.memos = w'.memos) (memos : v.memos = w.memos) : Alike ms v' v := by
  refine ⟨rest, ?_, ?_, ?_, ?_⟩
  · rw [memos', memos]
    exact alike.size
  · rw [memos', memos]
    exact alike.others
  · rw [memos]
    exact alike.plain
  · rw [memos']
    exact alike.keeps

/-- A new table, the same in both worlds. -/
theorem push (alike : Alike ms w' w) {memo : Memo} (untabled : memo.function.tabled ms = false) :
    Alike ms { w' with memos := w'.memos.push memo } { w with memos := w.memos.push memo } := by
  refine ⟨alike.rest, ?_, ?_, ?_, ?_⟩
  · simp only [Array.size_push, alike.size]
  · intro table unknown
    simp only [Array.getElem?_push, alike.size, alike.others unknown]
  · intro table other unknown found
    rw [Array.getElem?_push] at found
    split at found
    · cases found
      exact untabled
    · exact alike.plain unknown found
  · intro m member
    obtain ⟨memo, found, keeps⟩ := alike.keeps member
    refine ⟨memo, ?_, keeps⟩
    rw [Array.getElem?_push, if_neg, found]
    obtain ⟨inside, _⟩ := Array.getElem?_eq_some_iff.mp found
    omega

/-- A table of none of the functions, changed in both worlds. -/
theorem set (alike : Alike ms w' w) {table : Nat} (unknown : tableKnown ms table = false) {memo : Memo}
    (untabled : memo.function.tabled ms = false) :
    Alike ms { w' with memos := w'.memos.setIfInBounds table memo }
      { w with memos := w.memos.setIfInBounds table memo } := by
  refine ⟨alike.rest, ?_, ?_, ?_, ?_⟩
  · simp only [Array.size_setIfInBounds, alike.size]
  · intro other unknown
    simp only [Array.getElem?_setIfInBounds, alike.size, alike.others unknown]
  · intro other memo' unknown found
    rw [Array.getElem?_setIfInBounds] at found
    split at found
    · split at found
      · cases found
        exact untabled
      · cases found
    · exact alike.plain unknown found
  · intro m member
    obtain ⟨kept, found, keeps⟩ := alike.keeps member
    refine ⟨kept, ?_, keeps⟩
    rw [Array.getElem?_setIfInBounds, if_neg, found]
    rintro rfl
    have known : tableKnown ms m.table = true := List.any_eq_true.mpr ⟨m, member, beq_self_eq_true _⟩
    rw [known] at unknown
    cases unknown

/-- The table of a function, changed in the first world to one that keeps to its functions. -/
theorem setKept (alike : Alike ms w' w) {table : Nat} (known : tableKnown ms table = true)
    {memo : Memo} (keeps : ∀ m ∈ ms, m.table = table → m.Keeps memo) :
    Alike ms { w' with memos := w'.memos.setIfInBounds table memo } w := by
  refine ⟨alike.rest, ?_, ?_, alike.plain, ?_⟩
  · simp only [Array.size_setIfInBounds, alike.size]
  · intro other unknown
    rw [Array.getElem?_setIfInBounds, if_neg, alike.others unknown]
    rintro rfl
    rw [known] at unknown
    cases unknown
  · intro m member
    obtain ⟨kept, found, keeps'⟩ := alike.keeps member
    by_cases here : table = m.table
    · obtain ⟨inside, _⟩ := Array.getElem?_eq_some_iff.mp found
      refine ⟨memo, ?_, keeps m member here.symm⟩
      simp only [Array.getElem?_setIfInBounds, here, if_pos inside, if_true]
    · refine ⟨kept, ?_, keeps'⟩
      simp only [Array.getElem?_setIfInBounds, if_neg here, found]

end Alike

theorem memoizing_sharing (ms : List Remembered) : (memoizing ms).Sharing where
  same := fun (alike : Alike ms _ _) => alike.strategies.symm
  install strategies := fun (alike : Alike ms _ _) =>
    alike.unchanged (congrArg (fun w : World => { w with strategies }) alike.rest) rfl rfl
  note _ := fun (alike : Alike ms _ _) => alike.unchanged alike.rest rfl rfl

end ProbCore
