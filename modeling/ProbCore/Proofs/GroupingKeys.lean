import ProbCore.Proofs.EqualData
import ProbCore.Proofs.GroupedMarginal

/-! Values that share a grouping key are the same, with the same types at every level, as far as lists and
dictionaries keep to what data can tell: no tuple and no key but a text inside of them. A tuple is keyed part by
part, a leaf by its type and itself. A list or a dictionary is keyed by its canonical text, which tells its data,
but not a list from a tuple in it nor a key from its text. So a marginal merges values only where they differ in
these. -/

namespace ProbCore

namespace Value

open Data

/-- Equal leaves of one type. -/
structure SameLeaf (v w : Value) : Prop where
  left : Leaf v
  right : Leaf w
  kinds : v.kind = w.kind
  equal : (v == w) = true

/-- What grouping tells apart: leaves of one type, tuples part by part, and lists and dictionaries by their
data. -/
inductive Alike : Value → Value → Prop
  | leaf {v w : Value} (same : SameLeaf v w) : Alike v w
  | tuple {xs ys : List Value} (parts : List.Forall₂ Alike xs ys) : Alike (.tuple xs) (.tuple ys)
  | list {xs ys : List Value} (same : SameData (.list xs) (.list ys)) : Alike (.list xs) (.list ys)
  | dict {es fs : List (Value × Value)} (same : SameData (.dict es) (.dict fs)) : Alike (.dict es) (.dict fs)

/-- Tuples of values whose data tell them. -/
inductive Faithful : Value → Prop
  | native {v : Value} (native : Native v) : Faithful v
  | tuple {xs : List Value} (parts : ∀ x ∈ xs, Faithful x) : Faithful (.tuple xs)

theorem Leaf.hashable {v : Value} (leaf : Leaf v) : v.isHashable = true := by
  cases leaf <;> rfl

theorem Leaf.numeric {v : Value} (leaf : Leaf v) : v.numeric = true := by
  cases leaf with
  | float number => rw [Value.numeric, number, Bool.not_false]
  | _ => rfl

theorem Leaf.key {v : Value} (leaf : Leaf v) : v.key = .ok (.atom v) := by
  cases leaf <;> rfl

theorem Leaf.itself {v : Value} (leaf : Leaf v) : SameLeaf v v := by
  obtain ⟨i, known⟩ := Option.isSome_iff_exists.mp (ident_known leaf.hashable leaf.numeric)
  exact ⟨leaf, leaf, rfl, (beq_iff v v leaf.hashable leaf.hashable).mpr ⟨i, known, known⟩⟩

theorem allNumeric_of {xs : List Value} (each : ∀ x ∈ xs, x.numeric = true) : allNumeric xs = true := by
  induction xs with
  | nil => rfl
  | cons x xs ih =>
    rw [allNumeric, each x List.mem_cons_self, ih fun y member => each y (List.mem_cons_of_mem x member)]
    rfl

theorem Plain.numeric {v : Value} (plain : Plain v) : v.numeric = true := by
  induction plain with
  | leaf leaf => exact leaf.numeric
  | list | dict => rfl
  | tuple _ ih =>
    rw [Value.numeric]
    exact allNumeric_of ih

theorem keys_eq (xs : List Value) : keys xs = xs.mapM key := by
  induction xs with
  | nil => rfl
  | cons x xs ih => rw [keys, List.mapM_cons, ih]

/-- A leaf is keyed by itself, a tuple by its parts, and all else by its text. -/
theorem Plain.key_cases {v : Value} {k : Key} (plain : Plain v) (known : v.key = .ok k) :
    Leaf v ∧ k = .atom v ∨ (∃ xs ks, v = .tuple xs ∧ xs.mapM Value.key = .ok ks ∧ k = .parts ks) ∨
      ∃ s, serialize v = .ok s ∧ k = .written v.kind s := by
  cases plain with
  | leaf leaf =>
    rw [leaf.key] at known
    cases known
    exact .inl ⟨leaf, rfl⟩
  | list | dict =>
    obtain ⟨s, text, rfl⟩ := map_eq_ok known
    exact .inr (.inr ⟨s, text, rfl⟩)
  | tuple =>
    rw [key] at known
    obtain ⟨ks, parts, rfl⟩ := map_eq_ok known
    rw [keys_eq] at parts
    exact .inr (.inl ⟨_, ks, rfl, parts, rfl⟩)

theorem sameKey_known {v w : Value} (same : v.sameKey w = true) :
    ∃ k l, v.key = .ok k ∧ w.key = .ok l ∧ (k == l) = true := by
  rw [sameKey_comm] at same
  unfold sameKey at same
  cases there : w.key with
  | error e =>
    rw [there] at same
    cases same
  | ok l =>
    cases here : v.key with
    | error e =>
      rw [here, there] at same
      cases same
    | ok k =>
      rw [here, there] at same
      exact ⟨k, l, rfl, rfl, same⟩

theorem beqParts_forall₂ {ks ls : List Key} (same : Key.beqParts ks ls = true) :
    List.Forall₂ (fun k l => (k == l) = true) ks ls := by
  induction ks generalizing ls with
  | nil =>
    cases ls with
    | nil => exact .nil
    | cons => cases same
  | cons k ks ih =>
    cases ls with
    | nil => cases same
    | cons l ls =>
      rw [Key.beqParts, Bool.and_eq_true] at same
      exact .cons same.1 (ih same.2)

theorem same_text {v w : Value} {s : String} (plain : Plain v) (plain' : Plain w) (text : serialize v = .ok s)
    (text' : serialize w = .ok s) : SameData v w := by
  rw [serialize, write_data plain] at text
  rw [serialize, write_data plain'] at text'
  obtain ⟨d, known, rfl⟩ := map_eq_ok (f := Datum.print) text
  obtain ⟨d', known', same⟩ := map_eq_ok (f := Datum.print) text'
  obtain rfl := Datum.print_inj same
  exact data_same plain plain' known known'

/-- What is keyed by its text shares the key only with values of its type and data. -/
theorem written_same {v w : Value} {s : String} {l : Key} (plain : Plain v) (plain' : Plain w)
    (text : serialize v = .ok s) (known' : w.key = .ok l) (same : (Key.written v.kind s == l) = true) :
    v.kind = w.kind ∧ SameData v w := by
  rcases plain'.key_cases known' with ⟨leaf', rfl⟩ | ⟨ys, ls, rfl, _, rfl⟩ | ⟨t, text', rfl⟩
  · cases same
  · cases same
  · obtain ⟨kinds, texts⟩ := Bool.and_eq_true_iff.mp same
    obtain rfl := eq_of_beq texts
    exact ⟨eq_of_beq kinds, same_text plain plain' text text'⟩

theorem key_alike {v w : Value} {k l : Key} (plain : Plain v) (plain' : Plain w) (known : v.key = .ok k)
    (known' : w.key = .ok l) (same : (k == l) = true) : Alike v w := by
  induction plain generalizing w k l with
  | leaf leaf =>
    rw [leaf.key] at known
    cases known
    rcases plain'.key_cases known' with ⟨leaf', rfl⟩ | ⟨ys, ls, rfl, _, rfl⟩ | ⟨t, _, rfl⟩
    · obtain ⟨kinds, equal⟩ := Bool.and_eq_true_iff.mp same
      exact .leaf ⟨leaf, leaf', eq_of_beq kinds, equal⟩
    · cases same
    · cases same
  | tuple parts ih =>
    rw [key, keys_eq] at known
    obtain ⟨ks, each, rfl⟩ := map_eq_ok known
    rcases plain'.key_cases known' with ⟨leaf', rfl⟩ | ⟨ys, ls, rfl, each', rfl⟩ | ⟨t, _, rfl⟩
    · cases same
    · cases plain' with
      | leaf leaf' => cases leaf'
      | tuple parts' =>
        have between := forall₂_comp (T := fun k y => ∃ l, y.key = .ok l ∧ (k == l) = true) (beqParts_forall₂ same)
          (mapM_known each').flip fun k _ y _ l same known => ⟨l, known, same⟩
        exact .tuple (forall₂_comp (mapM_known each) between fun x member y member' k known there =>
          ih x member (parts' y member') known there.choose_spec.1 there.choose_spec.2)
    · cases same
  | list items =>
    obtain ⟨s, text, rfl⟩ := map_eq_ok known
    obtain ⟨kinds, data⟩ := written_same (.list items) plain' text known' same
    cases plain' with
    | leaf leaf' => cases leaf' <;> cases kinds
    | list => exact .list data
    | tuple | dict => cases kinds
  | dict keys values =>
    obtain ⟨s, text, rfl⟩ := map_eq_ok known
    obtain ⟨kinds, data⟩ := written_same (.dict keys values) plain' text known' same
    cases plain' with
    | leaf leaf' => cases leaf' <;> cases kinds
    | dict => exact .dict data
    | list | tuple => cases kinds

theorem sameKey_alike {v w : Value} (plain : Plain v) (plain' : Plain w) (same : v.sameKey w = true) : Alike v w := by
  obtain ⟨k, l, known, known', keys⟩ := sameKey_known same
  exact key_alike plain plain' known known' keys

/-- What grouping tells apart is all there is, where data tell it. -/
theorem Alike.same {v w : Value} (alike : Alike v w) (faithful : Faithful v) (faithful' : Faithful w) :
    Same SameLeaf v w := by
  have itself (v : Value) (leaf : Leaf v) : SameLeaf v v := leaf.itself
  induction faithful generalizing w with
  | native native =>
    cases alike with
    | leaf same => exact .leaf same
    | tuple => cases native with | leaf leaf => cases leaf
    | list same | dict same =>
      cases faithful' with
      | native native' => exact same.same itself native native'
  | tuple parts ih =>
    cases alike with
    | leaf same => cases same.left
    | tuple related =>
      cases faithful' with
      | native native' => cases native' with | leaf leaf' => cases leaf'
      | tuple parts' =>
        exact .tuple (forall₂_imp related fun x member y member' here => ih x member here (parts' y member'))

end Value

namespace Marginal

open Value (Key Plain Alike Same SameLeaf Faithful)

variable {R : Type}

/-- Both are counted under one of the values listed. -/
def Merges (M : Marginal Value R) (v w : Value) : Prop := ∃ u ∈ M.values, v.sameKey u = true ∧ w.sameKey u = true

/-- Each value that was found is listed as one with its key, and nothing else is listed. -/
structure Listed (listed : List (Key × Value)) (found : List Value) : Prop where
  keyed : ∀ p ∈ listed, p.2.key = .ok p.1
  given : ∀ p ∈ listed, p.2 ∈ found
  all : ∀ v ∈ found, ∃ p ∈ listed, v.sameKey p.2 = true

theorem sameKey_of_key {v w : Value} {k l : Key} (known : v.key = .ok k) (known' : w.key = .ok l)
    (same : (l == k) = true) : v.sameKey w = true := by
  rw [Value.sameKey, known, known']
  exact same

theorem Listed.insert {gs : List (Group R)} {found : List Value} (listed : Listed (gs.map Group.head) found) {v : Value}
    {k : Key} (plain : Plain v) (known : v.key = .ok k) (w : R) :
    Listed ((Group.insert k v w gs).map Group.head) (found ++ [v]) := by
  have itself : v.sameKey v = true := Value.Groupable.sameKey_self ⟨⟨k, known⟩, plain.numeric⟩
  have earlier {p : Key × Value} (member : p ∈ gs.map Group.head) : p.2 ∈ found ++ [v] :=
    List.mem_append_left _ (listed.given p member)
  rcases heads_insert k v w gs with ⟨⟨g, present, same⟩, kept⟩ | ⟨_, added⟩
  · rw [kept]
    refine ⟨listed.keyed, fun p member => earlier member, fun u member => ?_⟩
    rcases List.mem_append.mp member with old | new
    · exact listed.all u old
    · obtain rfl := List.mem_singleton.mp new
      have head := List.mem_map_of_mem (f := Group.head) present
      exact ⟨_, head, sameKey_of_key known (listed.keyed _ head) same⟩
  · rw [added]
    refine ⟨?_, ?_, fun u member => ?_⟩
    · intro p member
      rcases List.mem_append.mp member with old | new
      · exact listed.keyed p old
      · obtain rfl := List.mem_singleton.mp new
        exact known
    · intro p member
      rcases List.mem_append.mp member with old | new
      · exact earlier old
      · obtain rfl := List.mem_singleton.mp new
        exact List.mem_append_right _ List.mem_cons_self
    · rcases List.mem_append.mp member with old | new
      · obtain ⟨p, member, same⟩ := listed.all u old
        exact ⟨p, List.mem_append_left _ member, same⟩
      · obtain rfl := List.mem_singleton.mp new
        exact ⟨(k, u), List.mem_append_right _ List.mem_cons_self, itself⟩

theorem Merges.sameKey {M : Marginal Value R} {v w : Value} (merges : M.Merges v w) : v.sameKey w = true := by
  obtain ⟨u, _, same, same'⟩ := merges
  rw [Value.sameKey_iff] at same same' ⊢
  exact same.trans same'.symm

theorem listed_foldlM {rest : List (Value × R)} {before : List Value} {gs gs' : List (Group R)}
    (listed : Listed (gs.map Group.head) before) (plain : ∀ p ∈ rest, Plain p.1)
    (built : rest.foldlM (fun gs (p : Value × R) => do return Group.insert (← p.1.key) p.1 p.2 gs) gs = Except.ok gs') :
    Listed (gs'.map Group.head) (before ++ rest.map (·.1)) := by
  induction rest generalizing before gs with
  | nil =>
    cases built
    rwa [List.map_nil, List.append_nil]
  | cons p rest ih =>
    rw [List.foldlM_cons] at built
    cases known : p.1.key with
    | error e =>
      rw [known] at built
      cases built
    | ok k =>
      rw [known] at built
      have next := listed.insert (plain p List.mem_cons_self) known p.2
      have last := ih next (fun q member => plain q (List.mem_cons_of_mem _ member)) built
      rwa [List.append_assoc] at last

variable [Score R]

/-- A marginal lists what its weighted values were grouped as. -/
theorem ofLogWeights_groups {values : List Value} {weights : List R} {normalization : Option R} {samples : List Value}
    {diagnostics : List (String × Measure R)} {M : Marginal Value R}
    (made : ofLogWeights values weights normalization samples diagnostics = .ok M) :
    values.length = weights.length ∧ ∃ gs, groups values weights = .ok gs ∧ M.values = gs.map (·.value) := by
  unfold ofLogWeights at made
  split at made
  next => cases made
  next matched =>
    have lengths : values.length = weights.length := by simpa using matched
    cases built : groups values weights with
    | error e =>
      rw [built] at made
      cases made
    | ok gs =>
      rw [built] at made
      refine ⟨lengths, gs, rfl, ?_⟩
      dsimp only [bind, Except.bind, pure, Except.pure] at made
      split at made
      next => cases made
      next =>
        cases made
        rfl

theorem ofLogWeights_listed {values : List Value} {weights : List R} {normalization : Option R} {samples : List Value}
    {diagnostics : List (String × Measure R)} {M : Marginal Value R} (plain : ∀ v ∈ values, Plain v)
    (made : ofLogWeights values weights normalization samples diagnostics = .ok M) :
    (∀ v ∈ values, ∃ u ∈ M.values, v.sameKey u = true) ∧ ∀ u ∈ M.values, u ∈ values := by
  obtain ⟨lengths, gs, built, heads⟩ := ofLogWeights_groups made
  have begun : Listed (([] : List (Group R)).map Group.head) [] := ⟨nofun, nofun, nofun⟩
  have listed := listed_foldlM begun (fun p member => plain p.1 (List.of_mem_zip member).1) built
  rw [List.nil_append, List.map_fst_zip lengths.le] at listed
  rw [heads]
  refine ⟨fun v member => ?_, fun u member => ?_⟩
  · obtain ⟨_, present, same⟩ := listed.all v member
    obtain ⟨g, there, rfl⟩ := List.mem_map.mp present
    exact ⟨g.value, List.mem_map_of_mem there, same⟩
  · obtain ⟨g, there, rfl⟩ := List.mem_map.mp member
    exact listed.given g.head (List.mem_map_of_mem there)

end Marginal

/-- Values in any nesting of nothing, truth values, numbers, texts, tuples, lists and dictionaries that share a
grouping key are alike: in a list or a dictionary a tuple may stand for a list, and a key for its text, and nothing
else differs, so that without such tuples and keys they are the same with the same types at every level. A marginal
counts each of its values under one of them, and two under the same one only if they are so alike. -/
theorem keys_tell_apart {R : Type} [Score R] :
    (∀ v w : Value, v.Plain → w.Plain → v.sameKey w = true →
      v.Alike w ∧ (v.Faithful → w.Faithful → Value.Same Value.SameLeaf v w)) ∧
    ∀ (values : List Value) (weights : List R) (normalization : Option R) (samples : List Value)
      (diagnostics : List (String × Measure R)) (M : Marginal Value R), (∀ v ∈ values, v.Plain) →
      Marginal.ofLogWeights values weights normalization samples diagnostics = .ok M →
      (∀ u ∈ M.values, u ∈ values) ∧ (∀ v ∈ values, M.Merges v v) ∧
        ∀ v ∈ values, ∀ w ∈ values, M.Merges v w →
          v.Alike w ∧ (v.Faithful → w.Faithful → Value.Same Value.SameLeaf v w) := by
  have apart (v w : Value) (plain : v.Plain) (plain' : w.Plain) (same : v.sameKey w = true) :
      v.Alike w ∧ (v.Faithful → w.Faithful → Value.Same Value.SameLeaf v w) :=
    have alike := Value.sameKey_alike plain plain' same
    ⟨alike, alike.same⟩
  refine ⟨apart, fun values weights normalization samples diagnostics M plain made => ?_⟩
  obtain ⟨all, given⟩ := Marginal.ofLogWeights_listed plain made
  refine ⟨given, fun v member => ?_, fun v member w member' merges => ?_⟩
  · obtain ⟨u, listed, same⟩ := all v member
    exact ⟨u, listed, same, same⟩
  · exact apart v w (plain v member) (plain w member') merges.sameKey

/-- A tuple of a dictionary and a list, with the entries of the dictionary in another order. -/
theorem reordered_kept_together :
    let one : Value := .tuple [.dict [(.text "a", .int 1), (.text "b", .bool true)], .list [.text "c"]]
    let other : Value := .tuple [.dict [(.text "b", .bool true), (.text "a", .int 1)], .list [.text "c"]]
    one.Plain ∧ other.Plain ∧ one.Faithful ∧ other.Faithful ∧ one.sameKey other = true ∧
      Value.Same Value.SameLeaf one other ∧
      ∃ M, Marginal.ofLogWeights [one, other] [Exact.real 0, Exact.real 0] none [] [] = .ok M ∧
        M.Merges one one ∧ (M.Merges one other → one.Alike other) := by
  intro one other
  obtain ⟨apart, merged⟩ := keys_tell_apart (R := Exact)
  have both {α : Type} {p : α → Prop} {x y : α} (first : p x) (second : p y) : ∀ z ∈ [x, y], p z :=
    List.forall_mem_cons.mpr ⟨first, List.forall_mem_singleton.mpr second⟩
  have leaf {v : Value} (leaf : v.Leaf) : v.Plain ∧ v.Native := ⟨.leaf leaf, .leaf leaf⟩
  have number := leaf (.int 1)
  have truth := leaf (.bool true)
  have text (s : String) := leaf (.text s)
  have plain : one.Plain ∧ other.Plain := by
    constructor <;> refine .tuple (both (.dict ?_ ?_) (.list (List.forall_mem_singleton.mpr (text "c").1)))
    all_goals simp [number.1, truth.1, (text _).1]
  have faithful : one.Faithful ∧ other.Faithful := by
    constructor <;> refine .tuple
      (both (.native (.dict ?_ ?_ ?_)) (.native (.list (List.forall_mem_singleton.mpr (text "c").2))))
    all_goals simp [number.2, truth.2]
  have shared : one.sameKey other = true := by cbv
  obtain ⟨k, l, known, known', _⟩ := Value.sameKey_known shared
  have keyed : ∀ p ∈ [(one, Exact.real 0), (other, Exact.real 0)], p.1.Groupable :=
    both ⟨⟨k, known⟩, plain.1.numeric⟩ ⟨⟨l, known'⟩, plain.2.numeric⟩
  obtain ⟨M, made, _⟩ := @Marginal.ofLogWeights_normalizes [(one, .real 0), (other, .real 0)] none [] [] keyed
    (by simp [Exact.IsReal]) ⟨(one, Exact.real 0), List.mem_cons_self, 0, rfl⟩
  obtain ⟨_, counted, alike⟩ := merged [one, other] _ none [] [] M (both plain.1 plain.2) made
  have same := (apart one other plain.1 plain.2 shared).2 faithful.1 faithful.2
  exact ⟨plain.1, plain.2, faithful.1, faithful.2, shared, same, M, made, counted one (by simp),
    fun merges => (alike one (by simp) other (by simp) merges).1⟩

/-- A list of a tuple shares its key with a list of a list, and a dictionary under a number shares it with one under
the text of the number. -/
theorem nested_kinds_merged :
    let pair : Value := .list [.tuple [.int 1]]
    let nest : Value := .list [.list [.int 1]]
    let counted : Value := .dict [(.int 1, .absent)]
    let named : Value := .dict [(.text "1", .absent)]
    (pair.Plain ∧ nest.Plain ∧ pair.sameKey nest = true ∧ ¬ Value.Same Value.SameLeaf pair nest) ∧
      counted.Plain ∧ named.Plain ∧ counted.sameKey named = true ∧ ¬ Value.Same Value.SameLeaf counted named := by
  have one : (Value.int 1).Plain := .leaf (.int 1)
  have none_there : Value.absent.Plain := .leaf .absent
  have text : (Value.text "1").Plain := .leaf (.text "1")
  refine ⟨⟨?_, ?_, by cbv, ?_⟩, ?_, ?_, by cbv, ?_⟩
  · exact .list (List.forall_mem_singleton.mpr (.tuple (List.forall_mem_singleton.mpr one)))
  · exact .list (List.forall_mem_singleton.mpr (.list (List.forall_mem_singleton.mpr one)))
  · intro same
    cases same with
    | leaf same => cases same.left
    | list items =>
      cases items with
      | cons first => cases first with | leaf same => cases same.left
  · exact .dict (List.forall_mem_singleton.mpr one) (List.forall_mem_singleton.mpr none_there)
  · exact .dict (List.forall_mem_singleton.mpr text) (List.forall_mem_singleton.mpr none_there)
  · intro same
    cases same with
    | leaf same => cases same.left
    | dict order keys =>
      obtain rfl := List.perm_singleton.mp order
      cases keys with
      | cons first => cases first with | leaf same => cases same.kinds

end ProbCore
