import ProbCore.Address
import ProbCore.Value.Key
import ProbCore.Proofs.NumberIdentity

/-! What hashable values are to a container. Equality of values is not an equivalence on all
values, but on hashable ones it compares what `ident?` finds: it is symmetric and transitive,
and a value that is no number equals nothing. -/

namespace ProbCore

/-- Both are known, and they are the same. -/
def Agree {α : Type} (x y : Option α) : Prop := ∃ i, x = some i ∧ y = some i

namespace Agree

variable {α β : Type} {x y z : Option α}

theorem symm (agree : Agree x y) : Agree y x := by
  obtain ⟨i, left, right⟩ := agree
  exact ⟨i, right, left⟩

theorem trans (first : Agree x y) (second : Agree y z) : Agree x z := by
  obtain ⟨i, left, middle⟩ := first
  obtain ⟨j, middle', right⟩ := second
  obtain rfl : i = j := Option.some.inj (middle.symm.trans middle')
  exact ⟨i, left, right⟩

theorem map_iff {f : α → β} (injective : ∀ {i j}, f i = f j → i = j) :
    Agree (x.map f) (y.map f) ↔ Agree x y := by
  constructor
  · rintro ⟨_, left, right⟩
    obtain ⟨i, known, rfl⟩ := Option.map_eq_some_iff.mp left
    obtain ⟨j, known', same⟩ := Option.map_eq_some_iff.mp right
    obtain rfl := injective same
    exact ⟨j, known, known'⟩
  · rintro ⟨i, rfl, rfl⟩
    exact ⟨f i, rfl, rfl⟩

theorem cons_iff {u v : Option (List α)} :
    Agree (x.bind fun i => u.map (i :: ·)) (y.bind fun i => v.map (i :: ·)) ↔
      Agree x y ∧ Agree u v := by
  cases x <;> cases y <;> cases u <;> cases v <;> simp [Agree]

theorem not_nil_cons {u : Option (List α)} :
    ¬ Agree (some []) (x.bind fun i => u.map (i :: ·)) := by
  cases x <;> cases u <;> simp [Agree]

end Agree

namespace Value

open Decimal

/-- A hashable value up to equality. -/
inductive Ident where
  | absent
  | number (q : Quantity)
  | undefined (mark : Nat)
  | text (s : String)
  | tuple (parts : List Ident)
  | index (position : Ident)
  | address (tokens : List Ident)
  | function (name : String)

mutual

noncomputable def ident? : Value → Option Ident
  | absent => some .absent
  | bool b => some (.number (.finite (if b then 1 else 0)))
  | int n => some (.number (.finite n))
  | float x => (quantity? x).map .number
  | undefined mark => some (.undefined mark)
  | text s => some (.text s)
  | tuple xs => (idents? xs).map .tuple
  | index p => (ident? p).map .index
  | address xs => (idents? xs).map .address
  | function name => some (.function name)
  | list _ | dict _ | tensor _ | marginal _ | memo .. => none

noncomputable def idents? : List Value → Option (List Ident)
  | [] => some []
  | x :: xs => (ident? x).bind fun i => (idents? xs).map (i :: ·)

end

private theorem numbers_iff (x y : Number) :
    Number.beq x y = true ↔
      Agree (x.quantity?.map Ident.number) (y.quantity?.map Ident.number) := by
  rw [Number.beq_iff, Agree.map_iff Ident.number.inj]
  rfl

mutual

/-- Hashable values are equal when they are the same to a container. -/
theorem beq_iff (a b : Value) (left : a.isHashable = true) (right : b.isHashable = true) :
    Value.beq a b = true ↔ Agree a.ident? b.ident? := by
  -- Truth values, integers and floats are equal as numbers, whatever their types.
  cases a with
  | absent => cases b <;> simp [Value.beq, ident?, Agree]
  | bool a =>
    cases b with
    | bool b => cases a <;> cases b <;> simp [Value.beq, ident?, Agree]
    | int b =>
      have same := numbers_iff (.int (if a then 1 else 0)) (.int b)
      simpa [Value.beq, ident?, Number.quantity?] using same
    | float b =>
      have same := numbers_iff (.int (if a then 1 else 0)) (.float b)
      simpa [Value.beq, ident?, Number.quantity?] using same
    | _ => simp [Value.beq, ident?, Agree]
  | int a =>
    cases b with
    | bool b =>
      have same := numbers_iff (.int a) (.int (if b then 1 else 0))
      simpa [Value.beq, ident?, Number.quantity?] using same
    | int b =>
      have same := numbers_iff (.int a) (.int b)
      simpa [Value.beq, ident?, Number.quantity?, Number.beq] using same
    | float b =>
      have same := numbers_iff (.int a) (.float b)
      simpa [Value.beq, ident?, Number.quantity?] using same
    | _ => simp [Value.beq, ident?, Agree]
  | float a =>
    cases b with
    | bool b =>
      have same := numbers_iff (.float a) (.int (if b then 1 else 0))
      simpa [Value.beq, ident?, Number.quantity?] using same
    | int b =>
      have same := numbers_iff (.float a) (.int b)
      simpa [Value.beq, ident?, Number.quantity?] using same
    | float b =>
      have same := numbers_iff (.float a) (.float b)
      simpa [Value.beq, ident?, Number.quantity?, Number.beq] using same
    | _ => simp [Value.beq, ident?, Agree]
  | undefined a => cases b <;> simp [Value.beq, ident?, Agree, @eq_comm _ a]
  | text a => cases b <;> simp [Value.beq, ident?, Agree, @eq_comm _ a]
  | function a => cases b <;> simp [Value.beq, ident?, Agree, @eq_comm _ a]
  | tuple as =>
    cases b with
    | tuple bs =>
      rw [Value.beq, ident?, ident?, Agree.map_iff Ident.tuple.inj]
      exact beqItems_iff as bs left right
    | _ => simp [Value.beq, ident?, Agree]
  | index a =>
    cases b with
    | index b =>
      rw [Value.beq, ident?, ident?, Agree.map_iff Ident.index.inj]
      exact beq_iff a b left right
    | _ => simp [Value.beq, ident?, Agree]
  | address as =>
    cases b with
    | address bs =>
      rw [Value.beq, ident?, ident?, Agree.map_iff Ident.address.inj]
      exact beqItems_iff as bs left right
    | _ => simp [Value.beq, ident?, Agree]
  | list | dict | tensor | marginal | memo => cases left

theorem beqItems_iff (as bs : List Value) (left : allHashable as = true)
    (right : allHashable bs = true) :
    beqItems as bs = true ↔ Agree (idents? as) (idents? bs) := by
  cases as with
  | nil =>
    cases bs with
    | nil => simp [beqItems, idents?, Agree]
    | cons b bs => simpa [beqItems, idents?] using Agree.not_nil_cons
  | cons a as =>
    cases bs with
    | nil => simpa [beqItems, idents?] using fun agree => Agree.not_nil_cons (Agree.symm agree)
    | cons b bs =>
      rw [allHashable, Bool.and_eq_true] at left right
      rw [beqItems, Bool.and_eq_true, idents?, idents?, Agree.cons_iff,
        beq_iff a b left.1 right.1, beqItems_iff as bs left.2 right.2]

end

/-- A key up to equality. -/
inductive Key.Ident where
  | parts (keys : List Key.Ident)
  | atom (kind : Kind) (value : Value.Ident)
  | memo (table : Nat)
  | written (kind : Kind) (text : String)

mutual

noncomputable def Key.ident? : Key → Option Key.Ident
  | .parts ks => (Key.idents? ks).map .parts
  | .atom (.memo table _) => some (.memo table)
  | .atom v => v.ident?.map (.atom v.kind)
  | .written kind s => some (.written kind s)

noncomputable def Key.idents? : List Key → Option (List Key.Ident)
  | [] => some []
  | k :: ks => (Key.ident? k).bind fun i => (Key.idents? ks).map (i :: ·)

end

mutual

/-- The keys that values have. -/
def Key.Proper : Key → Prop
  | .parts ks => Key.AllProper ks
  | .atom (.memo ..) => True
  | .atom v => v.isHashable = true
  | .written .. => True

def Key.AllProper : List Key → Prop
  | [] => True
  | k :: ks => k.Proper ∧ Key.AllProper ks

end

private theorem atom_proper {v : Value} (hashable : v.isHashable = true) : (Key.atom v).Proper := by
  cases v <;> first | exact hashable | trivial

theorem map_eq_ok {α β : Type} {x : Except Failure α} {f : α → β} {b : β}
    (known : (do return f (← x)) = Except.ok b) : ∃ a, x = .ok a ∧ f a = b := by
  cases x with
  | error e => cases known
  | ok a => exact ⟨a, rfl, Except.ok.inj known⟩

mutual

/-- Only proper keys are keys of values. -/
theorem key_proper {v : Value} {k : Key} (known : v.key = .ok k) : k.Proper := by
  cases v with
  | tuple xs =>
    rw [key] at known
    obtain ⟨ks, parts, rfl⟩ := map_eq_ok known
    exact keys_proper parts
  | memo table name =>
    cases known
    trivial
  | _ =>
    simp only [key] at known
    split at known
    next hashable =>
      cases known
      exact atom_proper hashable
    next =>
      obtain ⟨s, _, rfl⟩ := map_eq_ok known
      trivial

theorem keys_proper {vs : List Value} {ks : List Key} (known : keys vs = .ok ks) :
    Key.AllProper ks := by
  cases vs with
  | nil =>
    cases known
    trivial
  | cons v vs =>
    rw [keys] at known
    cases first : v.key with
    | error e =>
      rw [first] at known
      cases known
    | ok k =>
      rw [first] at known
      obtain ⟨ks, rest, rfl⟩ := map_eq_ok (f := (k :: ·)) known
      exact ⟨key_proper first, keys_proper rest⟩

end

theorem atom_ident? {v : Value} (hashable : v.isHashable = true) :
    (Key.atom v).ident? = v.ident?.map (.atom v.kind) := by
  cases v <;> first | rfl | cases hashable

private theorem atom_iff {v w : Value} (left : v.isHashable = true) (right : w.isHashable = true) :
    (v.kind == w.kind && v == w) = true ↔ Agree (Key.atom v).ident? (Key.atom w).ident? := by
  rw [Bool.and_eq_true, beq_iff_eq, atom_ident? left, atom_ident? right]
  constructor
  · rintro ⟨kinds, same⟩
    rw [kinds]
    exact (Agree.map_iff fun same => (Key.Ident.atom.inj same).2).mpr
      ((beq_iff v w left right).mp same)
  · rintro ⟨_, known, known'⟩
    obtain ⟨i, here, rfl⟩ := Option.map_eq_some_iff.mp known
    obtain ⟨j, there, same⟩ := Option.map_eq_some_iff.mp known'
    obtain ⟨kinds, rfl⟩ := Key.Ident.atom.inj same
    exact ⟨kinds.symm, (beq_iff v w left right).mpr ⟨j, here, there⟩⟩

private theorem atom_cases {v : Value} (proper : (Key.atom v).Proper) :
    v.isHashable = true ∨ ∃ table name, v = .memo table name := by
  cases v <;> first | exact .inl proper | exact .inr ⟨_, _, rfl⟩

private theorem memo_apart {w : Value} (hashable : w.isHashable = true) (table : Nat)
    (name : String) :
    (Value.memo table name).kind ≠ w.kind ∧ ¬ Agree (some (.memo table)) (Key.atom w).ident? := by
  constructor
  · cases w with
    | memo => cases hashable
    | _ => simp [kind]
  · rw [atom_ident? hashable]
    rintro ⟨_, known, known'⟩
    obtain ⟨_, _, same⟩ := Option.map_eq_some_iff.mp known'
    cases known
    cases same

private theorem atoms_iff {v w : Value} (left : (Key.atom v).Proper)
    (right : (Key.atom w).Proper) :
    (v.kind == w.kind && v == w) = true ↔ Agree (Key.atom v).ident? (Key.atom w).ident? := by
  rcases atom_cases left with plain | ⟨table, name, rfl⟩
  · rcases atom_cases right with plain' | ⟨table, name, rfl⟩
    · exact atom_iff plain plain'
    · obtain ⟨kinds, disagree⟩ := memo_apart plain table name
      rw [Bool.and_eq_true, beq_iff_eq]
      exact iff_of_false (fun both => kinds both.1.symm) fun agree => disagree agree.symm
  · rcases atom_cases right with plain' | ⟨table', name', rfl⟩
    · obtain ⟨kinds, disagree⟩ := memo_apart plain' table name
      rw [Bool.and_eq_true, beq_iff_eq]
      exact iff_of_false (fun both => kinds both.1) disagree
    · change (true && Value.beq (.memo table name) (.memo table' name')) = true ↔ _
      simp [Value.beq, Key.ident?, Agree, @eq_comm _ table]

mutual

/-- Keys of values are equal when they are the same up to equality. -/
theorem Key.beq_iff (k l : Key) (left : k.Proper) (right : l.Proper) :
    Key.beq k l = true ↔ Agree k.ident? l.ident? := by
  cases k with
  | parts ks =>
    cases l with
    | parts ls => 
      rw [Key.beq, Key.ident?, Key.ident?, Agree.map_iff Key.Ident.parts.inj]
      exact Key.beqParts_iff ks ls left right
    | atom w => cases w <;> simp [Key.beq, Key.ident?, Agree]
    | written kind s => simp [Key.beq, Key.ident?, Agree]
  | atom v =>
    cases l with
    | parts ls => cases v <;> simp [Key.beq, Key.ident?, Agree]
    | atom w =>
      rw [Key.beq]
      exact atoms_iff left right
    | written kind s => cases v <;> simp [Key.beq, Key.ident?, Agree]
  | written kind s =>
    cases l with
    | parts ls => simp [Key.beq, Key.ident?, Agree]
    | atom w => cases w <;> simp [Key.beq, Key.ident?, Agree]
    | written kind' t => simp [Key.beq, Key.ident?, Agree, @eq_comm _ kind, @eq_comm _ s]

theorem Key.beqParts_iff (ks ls : List Key) (left : Key.AllProper ks) (right : Key.AllProper ls) :
    Key.beqParts ks ls = true ↔ Agree (Key.idents? ks) (Key.idents? ls) := by
  cases ks with
  | nil =>
    cases ls with
    | nil => simp [Key.beqParts, Key.idents?, Agree]
    | cons l ls => simpa [Key.beqParts, Key.idents?] using Agree.not_nil_cons
  | cons k ks =>
    cases ls with
    | nil => simpa [Key.beqParts, Key.idents?] using fun agree => Agree.not_nil_cons (Agree.symm agree)
    | cons l ls =>
      rw [Key.beqParts, Bool.and_eq_true, Key.idents?, Key.idents?, Agree.cons_iff,
        Key.beq_iff k l left.1 right.1, Key.beqParts_iff ks ls left.2 right.2]

end

theorem Key.beq_symm {k l : Key} (left : k.Proper) (right : l.Proper) (same : (k == l) = true) :
    (l == k) = true :=
  (Key.beq_iff l k right left).mpr ((Key.beq_iff k l left right).mp same).symm

theorem Key.beq_trans {k l m : Key} (first : k.Proper) (middle : l.Proper) (last : m.Proper)
    (same : (k == l) = true) (same' : (l == m) = true) : (k == m) = true :=
  (Key.beq_iff k m first last).mpr
    (((Key.beq_iff k l first middle).mp same).trans ((Key.beq_iff l m middle last).mp same'))

/-- Whether two values are grouped together. -/
def sameKey (v w : Value) : Bool :=
  match v.key, w.key with
  | .ok k, .ok l => l == k
  | _, _ => false

/-- What a value is grouped by. -/
noncomputable def identity? (v : Value) : Option Key.Ident :=
  match v.key with
  | .ok k => k.ident?
  | .error _ => none

theorem sameKey_iff (v w : Value) : v.sameKey w = true ↔ Agree v.identity? w.identity? := by
  unfold sameKey identity?
  cases here : v.key with
  | error e => simp [Agree]
  | ok k =>
    cases there : w.key with
    | error e => simp [Agree]
    | ok l => exact (Key.beq_iff l k (key_proper there) (key_proper here)).trans ⟨Agree.symm, Agree.symm⟩

theorem sameKey_comm (v w : Value) : v.sameKey w = w.sameKey v := by
  rw [Bool.eq_iff_iff, sameKey_iff, sameKey_iff]
  exact ⟨Agree.symm, Agree.symm⟩

end Value

namespace Address

variable {a b c : Address}

theorem beq_symm (left : a.isHashable = true) (right : b.isHashable = true)
    (same : (a == b) = true) : (b == a) = true :=
  (Value.beqItems_iff _ _ right left).mpr ((Value.beqItems_iff _ _ left right).mp same).symm

theorem beq_comm (left : a.isHashable = true) (right : b.isHashable = true) :
    (a == b) = (b == a) :=
  Bool.eq_iff_iff.mpr ⟨beq_symm left right, beq_symm right left⟩

theorem beq_trans (first : a.isHashable = true) (middle : b.isHashable = true)
    (last : c.isHashable = true) (same : (a == b) = true) (same' : (b == c) = true) :
    (a == c) = true :=
  (Value.beqItems_iff _ _ first last).mpr
    (((Value.beqItems_iff _ _ first middle).mp same).trans
      ((Value.beqItems_iff _ _ middle last).mp same'))

end Address

end ProbCore
