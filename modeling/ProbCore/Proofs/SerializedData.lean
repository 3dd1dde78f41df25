import ProbCore.Proofs.EqualData

/-! The canonical text of data is the same for the same data, whatever the order in which a dictionary was filled,
and it is one text for each of them: entries are sorted by their keys, of which no two are the same, so that the
sorted entries are the same for every order in which they come. -/

namespace ProbCore.Value

open Data

section

variable {α : Type}

/-- The order of entries by the texts of their keys. -/
def keyOrder (p q : String × α) : Bool := !decide (q.1 < p.1)

theorem keyOrder_iff {p q : String × α} : keyOrder p q = true ↔ p.1 ≤ q.1 := by
  rw [keyOrder, Bool.not_eq_true', decide_eq_false_iff_not]
  rfl

theorem keyOrder_total (p q : String × α) : (keyOrder p q || keyOrder q p) = true := by
  rw [Bool.or_eq_true, keyOrder_iff, keyOrder_iff]
  exact String.le_total p.1 q.1

theorem keyOrder_trans (p q r : String × α) (first : keyOrder p q = true) (second : keyOrder q r = true) :
    keyOrder p r = true := by
  rw [keyOrder_iff] at *
  exact String.le_trans first second

/-- Texts as keys. -/
def textEntry (p : String × α) : Value × α := (.text p.1, p.2)

theorem inOrder_textEntry (p q : String × α) : inOrder (textEntry p) (textEntry q) = keyOrder p q := by
  unfold inOrder keyOrder textEntry
  rw [compareBy?]
  unfold Comparison.holds textOrdering
  by_cases below : q.1 < p.1
  · simp [below]
  · simp only [below, if_false]
    split <;> simp

theorem arrange_texts (ps : List (String × α)) :
    arrange canonical (ps.map textEntry) = .ok ((ps.mergeSort keyOrder).map textEntry) := by
  have sortable : orderable ((ps.map textEntry).map (·.1)) = true := by
    unfold orderable
    rw [Bool.or_eq_true, Bool.or_eq_true, List.map_map]
    refine .inl (.inr (List.all_eq_true.mpr fun k member => ?_))
    obtain ⟨p, _, rfl⟩ := List.mem_map.mp member
    rfl
  rw [arrange, if_neg (by decide), if_pos sortable]
  exact congrArg Except.ok (List.map_mergeSort fun p _ q _ => (inOrder_textEntry p q).symm).symm

theorem keyText_texts (style : Style) (ps : List (String × α)) :
    (ps.map textEntry).mapM (fun p => do return (← keyText style p.1, p.2)) = .ok ps := by
  induction ps with
  | nil => rfl
  | cons p ps ih =>
    rw [List.map_cons, List.mapM_cons, ih]
    rfl

theorem keyed_texts (ps : List (String × α)) : (ps.map textEntry).mapM keyed = .ok ps := keyText_texts canonical ps

/-- Entries under distinct keys are sorted into one order, whatever order they come in. -/
theorem mergeSort_keyOrder {ps qs : List (String × α)} (same : ps.Perm qs) (distinct : (ps.map (·.1)).Nodup) :
    ps.mergeSort keyOrder = qs.mergeSort keyOrder := by
  have perm := (List.mergeSort_perm ps keyOrder).trans (same.trans (List.mergeSort_perm qs keyOrder).symm)
  refine List.Perm.eq_of_pairwise ?_ (List.pairwise_mergeSort keyOrder_trans keyOrder_total ps)
    (List.pairwise_mergeSort keyOrder_trans keyOrder_total qs) perm
  intro p q member member' below above
  have here : p ∈ ps := (List.mergeSort_perm ps keyOrder).mem_iff.mp member
  have there : q ∈ ps := same.mem_iff.mpr ((List.mergeSort_perm qs keyOrder).mem_iff.mp member')
  exact List.inj_on_of_nodup_map distinct here there (String.le_antisymm (keyOrder_iff.mp below) (keyOrder_iff.mp above))

end

/-- An entry under a text, with the data of its value. -/
def EntryData (e : Value × Value) (r : String × Datum) : Prop := e.1 = .text r.1 ∧ data e.2 = .ok r.2

theorem dataEntries_texts {es : List (Value × Value)} {rs : List (String × Datum)}
    (found : List.Forall₂ EntryData es rs) : dataEntries es = .ok (rs.map textEntry) := by
  induction found with
  | nil => rfl
  | @cons e r es rs here _ ih =>
    obtain ⟨k, v⟩ := e
    obtain ⟨rfl, known⟩ := here
    rw [dataEntries, known, ih]
    rfl

/-- The data of a dictionary under texts are its entries in the order of its keys. -/
theorem data_dict_texts {es : List (Value × Value)} {rs : List (String × Datum)}
    (found : List.Forall₂ EntryData es rs) : data (.dict es) = .ok (.entries (rs.mergeSort keyOrder)) := by
  rw [data, dataEntries_texts found]
  change (arrange canonical (rs.map textEntry) >>= fun qs => qs.mapM keyed >>= fun rs => Except.ok (Datum.entries rs)) = _
  rw [arrange_texts]
  change (((rs.mergeSort keyOrder).map textEntry).mapM keyed >>= fun rs => Except.ok (Datum.entries rs)) = _
  rw [keyed_texts]
  rfl

theorem exists_forall₂ {α β : Type} {R : α → β → Prop} {xs : List α} (each : ∀ x ∈ xs, ∃ y, R x y) :
    ∃ ys, List.Forall₂ R xs ys := by
  induction xs with
  | nil => exact ⟨[], .nil⟩
  | cons x xs ih =>
    obtain ⟨y, here⟩ := each x List.mem_cons_self
    obtain ⟨ys, rest⟩ := ih fun x member => each x (List.mem_cons_of_mem _ member)
    exact ⟨y :: ys, .cons here rest⟩

theorem Native.plain {v : Value} (native : Native v) : Plain v := by
  induction native with
  | leaf leaf => exact .leaf leaf
  | list _ ih => exact .list ih
  | dict keys _ _ ih =>
    refine .dict (fun e member => ?_) ih
    obtain ⟨s, text⟩ := keys e member
    exact text ▸ .leaf (.text s)

theorem dataItems_known {xs : List Value} {ds : List Datum} (found : List.Forall₂ (fun x d => data x = .ok d) xs ds) :
    dataItems xs = .ok ds := by
  induction found with
  | nil => rfl
  | cons here _ ih =>
    rw [dataItems, here, ih]
    rfl

theorem exists_entryData {es : List (Value × Value)} (keys : ∀ e ∈ es, ∃ s, e.1 = .text s)
    (values : ∀ e ∈ es, ∃ d, data e.2 = .ok d) : ∃ rs, List.Forall₂ EntryData es rs := by
  refine exists_forall₂ fun e member => ?_
  obtain ⟨s, text⟩ := keys e member
  obtain ⟨d, known⟩ := values e member
  exact ⟨(s, d), text, known⟩

theorem Native.exists_data {v : Value} (native : Native v) : ∃ d, data v = .ok d := by
  induction native with
  | leaf leaf => cases leaf <;> exact ⟨_, rfl⟩
  | list _ ih =>
    obtain ⟨ds, found⟩ := exists_forall₂ ih
    rw [data, dataItems_known found]
    exact ⟨_, rfl⟩
  | dict keys _ _ ih =>
    obtain ⟨rs, found⟩ := exists_entryData keys ih
    exact ⟨_, data_dict_texts found⟩

theorem dataItems_congr {xs ys : List Value} (related : List.Forall₂ (fun x y => data x = data y) xs ys) :
    dataItems xs = dataItems ys := by
  induction related with
  | nil => rfl
  | cons here _ ih => rw [dataItems, dataItems, here, ih]

/-- The entries keep the texts of their keys. -/
theorem EntryData.texts {es : List (Value × Value)} {rs : List (String × Datum)} (found : List.Forall₂ EntryData es rs) :
    es.map (·.1) = (rs.map (·.1)).map Value.text := by
  induction found with
  | nil => rfl
  | cons here _ ih => rw [List.map_cons, List.map_cons, List.map_cons, here.1, ih]

/-- The same values have the same data. -/
theorem Same.data {v w : Value} (same : Same Eq v w) (native : Native v) (native' : Native w) :
    Data.data v = Data.data w := by
  induction native generalizing w with
  | leaf leaf =>
    cases same with
    | leaf same => rw [same]
    | list | tuple | dict => cases leaf
  | list items ih =>
    cases same with
    | leaf same => rw [same]
    | list related =>
      cases native' with
      | leaf leaf' => cases leaf'
      | list items' =>
        rw [Data.data, Data.data, dataItems_congr (forall₂_imp related fun x member y member' here =>
          ih x member here (items' y member'))]
  | @dict es keys distinct values ih =>
    cases same with
    | leaf same => rw [same]
    | @dict _ fs gs order alike related =>
      cases native' with
      | leaf leaf' => cases leaf'
      | dict keys' _ values' =>
        obtain ⟨rs, found⟩ := exists_entryData keys' fun e member => (values' e member).exists_data
        obtain ⟨ps, found', order'⟩ := List.perm_comp_forall₂ order found
        -- The entries of the first dictionary, in its own order, have the data of the second one's.
        have found'' : List.Forall₂ EntryData es ps := by
          have both : List.Forall₂ (fun e g => Same Eq e.1 g.1 ∧ Data.data e.2 = Data.data g.2) es gs := by
            refine List.forall₂_iff_get.mpr ⟨alike.length_eq, fun i here there => ⟨alike.get here there, ?_⟩⟩
            exact ih _ (List.getElem_mem _) (related.get here there) (values' _ (order.mem_iff.mp (List.getElem_mem _)))
          refine forall₂_comp both found' fun e member p _ g here there => ⟨?_, here.2.trans there.2⟩
          obtain ⟨s, text⟩ := keys e member
          have same := here.1
          rw [text, there.1] at same
          cases same with
          | leaf same => exact text.trans same
        have distinct' : (ps.map (·.1)).Nodup := by
          rw [EntryData.texts found''] at distinct
          exact List.Nodup.of_map _ distinct
        rw [data_dict_texts found'', data_dict_texts found, mergeSort_keyOrder order' distinct']

end ProbCore.Value

namespace ProbCore.Data

open Value (Native Same)

/-- Leaves in lists and in dictionaries under distinct texts have a canonical text, and two of them have the same
text exactly if they are the same at every level, zeros by their signs too, and dictionaries in any order of their
entries. -/
theorem serialize_canonical {v w : Value} (native : Native v) (native' : Native w) :
    ∃ s t, serialize v = .ok s ∧ serialize w = .ok t ∧ (s = t ↔ Same Eq v w) := by
  obtain ⟨d, known⟩ := native.exists_data
  obtain ⟨d', known'⟩ := native'.exists_data
  refine ⟨d.print, d'.print, ?_, ?_, ?_⟩
  · rw [serialize, write_data native.plain, known]
    rfl
  · rw [serialize, write_data native'.plain, known']
    rfl
  · constructor
    · intro same
      obtain rfl := Datum.print_inj same
      exact (Value.data_same native.plain native'.plain known known').same (fun _ _ => rfl) native native'
    · intro same
      have data := same.data native native'
      rw [known, known'] at data
      rw [Except.ok.inj data]

/-- Two orders of entries have one text, and zeros of either sign have two. -/
theorem zeros_told_apart :
    let one : Value := .dict [(.text "b", .int 1), (.text "a", .list [.absent])]
    let reordered : Value := .dict [(.text "a", .list [.absent]), (.text "b", .int 1)]
    let zero : Value := .list [.float 0]
    let negative : Value := .list [.float (-0)]
    (one.Native ∧ reordered.Native ∧ ∃ s, serialize one = .ok s ∧ serialize reordered = .ok s) ∧
      zero.Native ∧ negative.Native ∧ ∃ s t, serialize zero = .ok s ∧ serialize negative = .ok t ∧ s ≠ t := by
  intro one reordered zero negative
  have one_there : (Value.int 1).Native := .leaf (.int 1)
  have items : (Value.list [.absent]).Native := .list (List.forall_mem_singleton.mpr (.leaf .absent))
  have native : one.Native := by
    refine .dict ?_ ?_ (List.forall_mem_cons.mpr ⟨one_there, List.forall_mem_singleton.mpr items⟩) <;> simp
  have native' : reordered.Native := by
    refine .dict ?_ ?_ (List.forall_mem_cons.mpr ⟨items, List.forall_mem_singleton.mpr one_there⟩) <;> simp
  have float {x : Float} (number : x.isNaN = false) : (Value.list [.float x]).Native :=
    .list (List.forall_mem_singleton.mpr (.leaf (.float number)))
  have positive : zero.Native := float (by decide)
  have negated : negative.Native := float (by decide)
  refine ⟨⟨native, native', ?_⟩, positive, negated, ?_⟩
  · obtain ⟨s, t, text, text', same⟩ := serialize_canonical native native'
    have moved : Same Eq one reordered :=
      .dict (.swap _ _ _) (List.forall₂_same.mpr fun _ _ => .leaf rfl) (List.forall₂_same.mpr fun _ _ => .leaf rfl)
    exact ⟨s, text, same.mpr moved ▸ text'⟩
  · obtain ⟨s, t, text, text', same⟩ := serialize_canonical positive negated
    have apart : (0 : Float) ≠ -0 := fun equal => absurd (congrArg Float.toBits equal) (by decide)
    refine ⟨s, t, text, text', fun texts => ?_⟩
    have equal : Same Eq (.list [.float 0]) (.list [.float (-0)]) := same.mp texts
    cases equal with
    | leaf same => exact apart (Value.float.inj (List.cons.inj (Value.list.inj same)).1)
    | list items =>
      cases items with
      | cons first => cases first with | leaf same => exact apart (Value.float.inj same)

end ProbCore.Data
