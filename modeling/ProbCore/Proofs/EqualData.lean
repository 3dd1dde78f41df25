import Mathlib.Data.List.Forall2
import Mathlib.Data.List.Perm.Basic
import ProbCore.Proofs.ValueIdentity
import ProbCore.Proofs.WrittenData

/-! Values of the same data. Leaves of the same data are the same leaf, and dictionaries of the same data have
entries that correspond, whatever their order. Data do not tell a list from a tuple nor a key from its text, so
that values of the same data are the same where they hold no tuples and their keys are texts. -/

namespace ProbCore.Value

open Data

/-- The same value with the same types at every level, but for what `leaves` lets differ in a leaf, with
dictionaries in any order of their entries. -/
inductive Same (leaves : Value → Value → Prop) : Value → Value → Prop
  | leaf {v w : Value} (same : leaves v w) : Same leaves v w
  | list {xs ys : List Value} (items : List.Forall₂ (Same leaves) xs ys) : Same leaves (.list xs) (.list ys)
  | tuple {xs ys : List Value} (items : List.Forall₂ (Same leaves) xs ys) : Same leaves (.tuple xs) (.tuple ys)
  | dict {es fs gs : List (Value × Value)} (order : gs.Perm fs)
      (keys : List.Forall₂ (fun e g => Same leaves e.1 g.1) es gs)
      (values : List.Forall₂ (fun e g => Same leaves e.2 g.2) es gs) : Same leaves (.dict es) (.dict fs)

/-- The items of a list or of a tuple. -/
def parts? : Value → Option (List Value)
  | .list xs | .tuple xs => some xs
  | _ => none

/-- Values of the same data: lists and tuples with items of the same data, and dictionaries with values of the
same data under keys of the same text, in any order of their entries. -/
inductive SameData : Value → Value → Prop
  | leaf {v : Value} (leaf : Leaf v) : SameData v v
  | items {v w : Value} {xs ys : List Value} (first : v.parts? = some xs) (second : w.parts? = some ys)
      (items : List.Forall₂ SameData xs ys) : SameData v w
  | dict {es fs gs : List (Value × Value)} (order : gs.Perm fs)
      (keys : List.Forall₂ (fun e g => ∃ s, keyText canonical e.1 = .ok s ∧ keyText canonical g.1 = .ok s) es gs)
      (values : List.Forall₂ (fun e g => SameData e.2 g.2) es gs) : SameData (.dict es) (.dict fs)

/-- Leaves in lists, and in dictionaries under texts of which no two are the same. -/
inductive Native : Value → Prop
  | leaf {v : Value} (leaf : Leaf v) : Native v
  | list {xs : List Value} (items : ∀ x ∈ xs, Native x) : Native (.list xs)
  | dict {es : List (Value × Value)} (keys : ∀ e ∈ es, ∃ s, e.1 = .text s) (distinct : (es.map (·.1)).Nodup)
      (values : ∀ e ∈ es, Native e.2) : Native (.dict es)

section

variable {α β γ : Type} {R : α → β → Prop} {S : β → γ → Prop} {T : α → γ → Prop} {xs : List α} {ys : List β} {zs : List γ}

theorem forall₂_comp (first : List.Forall₂ R xs ys) (second : List.Forall₂ S ys zs)
    (both : ∀ x ∈ xs, ∀ z ∈ zs, ∀ y, R x y → S y z → T x z) : List.Forall₂ T xs zs := by
  induction first generalizing zs with
  | nil =>
    cases second
    exact .nil
  | cons here _ ih =>
    cases second with
    | cons here' later =>
      refine .cons (both _ List.mem_cons_self _ List.mem_cons_self _ here here') (ih later ?_)
      exact fun x member z member' => both x (List.mem_cons_of_mem _ member) z (List.mem_cons_of_mem _ member')

theorem forall₂_imp {R' : α → β → Prop} (related : List.Forall₂ R xs ys) (implies : ∀ x ∈ xs, ∀ y ∈ ys, R x y → R' x y) :
    List.Forall₂ R' xs ys :=
  forall₂_comp related (List.forall₂_same.mpr fun y _ => (rfl : y = y)) fun x member _ member' _ here same =>
    implies x member _ member' (same ▸ here)

end

/-- Leaves of the same data are the same. -/
theorem Leaf.data_inj {v w : Value} (left : Leaf v) (right : Leaf w) (same : data v = data w) : v = w := by
  have word {u u' : Word} (same : (Except.ok (Datum.word u) : Except Failure Datum) = .ok (.word u')) : u = u' :=
    Datum.word.inj (Except.ok.inj same)
  cases left with
  | absent =>
    cases right with
    | absent => rfl
    | bool b => exact absurd (word same) (Word.null_ne_truth b)
    | int n => exact absurd (word same) (Word.null_ne_int n)
    | float => exact absurd (word same) (Word.null_ne_float _)
    | text => cases same
  | bool b =>
    cases right with
    | absent => exact absurd (word same).symm (Word.null_ne_truth b)
    | bool => exact congrArg Value.bool (Word.truth_inj (word same))
    | int n => exact absurd (word same) (Word.truth_ne_int b n)
    | float => exact absurd (word same) (Word.truth_ne_float b _)
    | text => cases same
  | int n =>
    cases right with
    | absent => exact absurd (word same).symm (Word.null_ne_int n)
    | bool b => exact absurd (word same).symm (Word.truth_ne_int b n)
    | int => exact congrArg Value.int (Word.int_inj (word same))
    | float => exact absurd (word same) (Word.int_ne_float n _)
    | text => cases same
  | float number =>
    cases right with
    | absent => exact absurd (word same).symm (Word.null_ne_float _)
    | bool b => exact absurd (word same).symm (Word.truth_ne_float b _)
    | int n => exact absurd (word same).symm (Word.int_ne_float n _)
    | float number' => exact congrArg Value.float (Word.float_inj number number' (word same))
    | text => cases same
  | text s =>
    cases right with
    | text => exact congrArg Value.text (Datum.text.inj (Except.ok.inj same))
    | _ => cases same

theorem Leaf.data_eq {v : Value} {d : Datum} (leaf : Leaf v) (known : data v = .ok d) :
    (∃ u, d = .word u) ∨ ∃ s, d = .text s := by
  cases leaf <;> cases known <;> first | exact .inl ⟨_, rfl⟩ | exact .inr ⟨_, rfl⟩

theorem dataItems_eq (xs : List Value) : dataItems xs = xs.mapM data := by
  induction xs with
  | nil => rfl
  | cons x xs ih => rw [dataItems, List.mapM_cons, ih]

theorem dataEntries_eq (es : List (Value × Value)) :
    dataEntries es = es.mapM fun e => do return (e.1, ← data e.2) := by
  induction es with
  | nil => rfl
  | cons e es ih =>
    rw [dataEntries, List.mapM_cons, ih]
    cases data e.2 <;> rfl

theorem mapM_known {α β : Type} {f : α → Except Failure β} {xs : List α} {ys : List β} (known : xs.mapM f = .ok ys) :
    List.Forall₂ (fun x y => f x = .ok y) xs ys := by
  induction xs generalizing ys with
  | nil =>
    cases known
    exact .nil
  | cons x xs ih =>
    rw [List.mapM_cons] at known
    cases first : f x with
    | error e =>
      rw [first] at known
      cases known
    | ok y =>
      rw [first] at known
      obtain ⟨ys, rest, rfl⟩ := map_eq_ok (f := (y :: ·)) known
      exact .cons first (ih rest)

theorem data_items {v : Value} {xs : List Value} {d : Datum} (sequence : v.parts? = some xs) (known : data v = .ok d) :
    ∃ ds, d = .items ds ∧ List.Forall₂ (fun x d => data x = .ok d) xs ds := by
  have found : (do return Datum.items (← dataItems xs)) = Except.ok d := by
    cases v <;> cases sequence <;> exact known
  obtain ⟨ds, each, rfl⟩ := map_eq_ok found
  rw [dataItems_eq] at each
  exact ⟨ds, rfl, mapM_known each⟩

theorem arrange_perm {α : Type} {style : Style} {ps qs : List (Value × α)} (arranged : arrange style ps = .ok qs) :
    qs.Perm ps := by
  unfold arrange at arranged
  split at arranged
  · exact Except.ok.inj arranged ▸ List.Perm.refl _
  · split at arranged
    · exact Except.ok.inj arranged ▸ List.mergeSort_perm _ _
    · cases arranged

/-- The entries of a dictionary's data, under the texts of its keys, in an order that these give. -/
theorem data_dict {es : List (Value × Value)} {d : Datum} (known : data (.dict es) = .ok d) :
    ∃ (ps qs : List (Value × Datum)) (rs : List (String × Datum)), d = .entries rs ∧
      List.Forall₂ (fun e p => p.1 = e.1 ∧ data e.2 = .ok p.2) es ps ∧ qs.Perm ps ∧
        List.Forall₂ (fun p r => keyText canonical p.1 = .ok r.1 ∧ r.2 = p.2) qs rs := by
  rw [data, dataEntries_eq] at known
  cases each : es.mapM fun e => do return (e.1, ← data e.2) with
  | error e =>
    rw [each] at known
    cases known
  | ok ps =>
    rw [each] at known
    change (arrange canonical ps >>= fun qs => qs.mapM keyed >>= fun rs => Except.ok (Datum.entries rs)) = .ok d at known
    cases arranged : arrange canonical ps with
    | error e =>
      rw [arranged] at known
      cases known
    | ok qs =>
      rw [arranged] at known
      obtain ⟨rs, written, rfl⟩ := map_eq_ok (f := Datum.entries) known
      refine ⟨ps, qs, rs, rfl, (mapM_known each).imp ?_, ?_, (mapM_known written).imp ?_⟩
      · intro e p found
        obtain ⟨d, here, rfl⟩ := map_eq_ok found
        exact ⟨rfl, here⟩
      · exact arrange_perm arranged
      · intro p r found
        obtain ⟨s, here, rfl⟩ := map_eq_ok found
        exact ⟨here, rfl⟩

/-- Dictionaries of the same data have entries that correspond: what the data keep of an entry is the text of
its key and the data of its value, in an order of its own for each of them. -/
theorem entries_correspond {es fs : List (Value × Value)} {d : Datum} (known : data (.dict es) = .ok d)
    (known' : data (.dict fs) = .ok d) :
    ∃ gs : List (Value × Value), gs.Perm fs ∧
      List.Forall₂ (fun e g => (∃ s, keyText canonical e.1 = .ok s ∧ keyText canonical g.1 = .ok s) ∧
        ∃ d, data e.2 = .ok d ∧ data g.2 = .ok d) es gs := by
  obtain ⟨ps, qs, rs, rfl, found, order, written⟩ := data_dict known
  obtain ⟨ps', qs', rs', same, found', order', written'⟩ := data_dict known'
  obtain rfl := Datum.entries.inj same
  obtain ⟨hs, later, onward⟩ := List.perm_comp_forall₂ order' found'.flip
  have between : List.Forall₂ (fun p g => (∃ s, keyText canonical p.1 = .ok s ∧ keyText canonical g.1 = .ok s) ∧ data g.2 = .ok p.2)
      qs hs := by
    refine forall₂_comp (forall₂_comp written written'.flip (T := fun p p' =>
      (∃ s, keyText canonical p.1 = .ok s ∧ keyText canonical p'.1 = .ok s) ∧ p.2 = p'.2) ?_) later ?_
    · rintro p _ p' _ r ⟨text, here⟩ ⟨text', here'⟩
      exact ⟨⟨r.1, text, text'⟩, here.symm.trans here'⟩
    · rintro p _ g _ p' ⟨texts, same⟩ ⟨key, here⟩
      exact ⟨key ▸ texts, same ▸ here⟩
  obtain ⟨gs, first, back⟩ := List.perm_comp_forall₂ order.symm between
  refine ⟨gs, back.trans onward, forall₂_comp found first ?_⟩
  rintro e _ g _ p ⟨key, here⟩ ⟨texts, there⟩
  exact ⟨key ▸ texts, p.2, here, there⟩

theorem Leaf.sequence {v : Value} {xs : List Value} (leaf : Leaf v) : v.parts? ≠ some xs := by
  cases leaf <;> exact nofun

/-- What has the data of a sequence is a sequence. -/
theorem Plain.parts_of_data {w : Value} {ds : List Datum} (plain : Plain w) (known : data w = .ok (.items ds)) :
    ∃ ys, w.parts? = some ys ∧ ∀ y ∈ ys, Plain y := by
  cases plain with
  | leaf leaf =>
    rcases leaf.data_eq known with ⟨u, same⟩ | ⟨s, same⟩ <;> cases same
  | list items => exact ⟨_, rfl, items⟩
  | tuple items => exact ⟨_, rfl, items⟩
  | dict keys values =>
    obtain ⟨_, _, _, same, _⟩ := data_dict known
    cases same

theorem sequences_same {v w : Value} {xs : List Value} {d : Datum} (sequence : v.parts? = some xs) (plain' : Plain w)
    (known : data v = .ok d) (known' : data w = .ok d)
    (each : ∀ x ∈ xs, ∀ {y : Value} {d : Datum}, Plain y → data x = .ok d → data y = .ok d → SameData x y) :
    SameData v w := by
  obtain ⟨ds, rfl, found⟩ := data_items sequence known
  obtain ⟨ys, sequence', plains⟩ := plain'.parts_of_data known'
  obtain ⟨ds', same, found'⟩ := data_items sequence' known'
  obtain rfl := Datum.items.inj same
  exact .items sequence sequence' (forall₂_comp found found'.flip fun x member y member' _ here there =>
    each x member (plains y member') here there)

/-- Values of the same text have the same data. -/
theorem data_same {v w : Value} {d : Datum} (plain : Plain v) (plain' : Plain w) (known : data v = .ok d)
    (known' : data w = .ok d) : SameData v w := by
  induction plain generalizing w d with
  | leaf leaf =>
    cases plain' with
    | leaf leaf' => exact leaf.data_inj leaf' (known.trans known'.symm) ▸ .leaf leaf
    | list | tuple =>
      obtain ⟨ds, rfl, _⟩ := data_items rfl known'
      rcases leaf.data_eq known with ⟨u, same⟩ | ⟨s, same⟩ <;> cases same
    | dict =>
      obtain ⟨_, _, _, rfl, _⟩ := data_dict known'
      rcases leaf.data_eq known with ⟨u, same⟩ | ⟨s, same⟩ <;> cases same
  | list items ih => exact sequences_same rfl plain' known known' fun x member => ih x member
  | tuple items ih => exact sequences_same rfl plain' known known' fun x member => ih x member
  | dict keys values _ ih =>
    cases plain' with
    | leaf leaf' =>
      obtain ⟨_, _, _, rfl, _⟩ := data_dict known
      rcases leaf'.data_eq known' with ⟨u, same⟩ | ⟨s, same⟩ <;> cases same
    | list | tuple =>
      obtain ⟨ds, rfl, _⟩ := data_items rfl known'
      obtain ⟨_, _, _, same, _⟩ := data_dict known
      cases same
    | dict keys' values' =>
      obtain ⟨gs, order, correspond⟩ := entries_correspond known known'
      refine .dict order (correspond.imp fun _ _ both => both.1) ?_
      refine forall₂_imp correspond fun e member g member' both => ?_
      obtain ⟨d, here, there⟩ := both.2
      exact ih e member (values' g (order.mem_iff.mp member')) here there

/-- Values of the same data are the same, where they hold no tuples and their keys are texts. -/
theorem SameData.same {leaves : Value → Value → Prop} (itself : ∀ v, Leaf v → leaves v v) {v w : Value}
    (same : SameData v w) (native : Native v) (native' : Native w) : Same leaves v w := by
  induction native generalizing w with
  | leaf leaf =>
    cases same with
    | leaf => exact .leaf (itself _ leaf)
    | items sequence => exact absurd sequence leaf.sequence
    | dict => cases leaf
  | list items ih =>
    cases same with
    | leaf leaf => cases leaf
    | items sequence sequence' related =>
      cases sequence
      cases native' with
      | leaf leaf' => exact absurd sequence' leaf'.sequence
      | list items' =>
        cases sequence'
        exact .list (forall₂_imp related fun x member y member' here => ih x member here (items' y member'))
      | dict => cases sequence'
  | dict keys _ _ ih =>
    cases same with
    | leaf leaf => cases leaf
    | items sequence => cases sequence
    | dict order alike related =>
      cases native' with
      | leaf leaf' => cases leaf'
      | dict keys' _ values' =>
        refine .dict order (forall₂_imp alike fun e member g member' here => ?_) ?_
        · obtain ⟨s, text⟩ := keys e member
          obtain ⟨t, text'⟩ := keys' g (order.mem_iff.mp member')
          obtain ⟨u, written, written'⟩ := here
          rw [text] at written ⊢
          rw [text'] at written' ⊢
          cases written
          cases written'
          exact .leaf (itself _ (.text _))
        · exact forall₂_imp related fun e member g member' here =>
            ih e member here (values' g (order.mem_iff.mp member'))

end ProbCore.Value
