import ProbCore.Proofs.GroupingKeys
import ProbCore.Proofs.SharedRecords

/-! What a histogram shows of a marginal. Values that share a label share an entry, and the last of them leaves its
probability there in place of what was written before. So the entries fall short of one by the probability of the
values that come before another of their label, and they add up to one only if these have none. -/

namespace ProbCore

namespace Value

mutual

/-- A value that has a key has a canonical text. -/
theorem exists_text {v : Value} {k : Key} (known : v.key = .ok k) : ∃ s, Data.serialize v = .ok s := by
  cases v with
  | list | dict =>
    obtain ⟨s, text, _⟩ := map_eq_ok known
    exact ⟨s, text⟩
  | tuple xs =>
    rw [key] at known
    obtain ⟨ks, parts, _⟩ := map_eq_ok known
    obtain ⟨ss, texts⟩ := exists_texts parts
    rw [Data.serialize, Data.write, texts]
    exact ⟨_, rfl⟩
  | _ => exact ⟨_, rfl⟩

theorem exists_texts {vs : List Value} {ks : List Key} (known : keys vs = .ok ks) :
    ∃ ss, Data.writeItems Data.canonical vs = .ok ss := by
  cases vs with
  | nil => exact ⟨[], rfl⟩
  | cons v vs =>
    rw [keys] at known
    cases first : v.key with
    | error e =>
      rw [first] at known
      cases known
    | ok k =>
      rw [first] at known
      obtain ⟨ks, rest, _⟩ := map_eq_ok (f := (k :: ·)) known
      obtain ⟨s, text⟩ := exists_text first
      obtain ⟨ss, texts⟩ := exists_texts rest
      rw [Data.serialize] at text
      rw [Data.writeItems, text, texts]
      exact ⟨_, rfl⟩

end

theorem exists_label {v : Value} {k : Key} (known : v.key = .ok k) : ∃ l, v.label = .ok l := by
  unfold label
  split
  · exact ⟨v, rfl⟩
  · obtain ⟨s, text⟩ := exists_text known
    rw [text]
    exact ⟨.text s, rfl⟩

theorem hashable_label {v l : Value} (known : v.label = .ok l) : l.isHashable = true := by
  unfold label at known
  split at known
  next hashable =>
    cases known
    exact hashable
  next =>
    obtain ⟨s, _, rfl⟩ := map_eq_ok known
    rfl

section

variable {a b c : Value}

/-- Among values that can be keys, equal ones equal the same. -/
theorem beq_right (first : a.isHashable = true) (second : b.isHashable = true) (third : c.isHashable = true)
    (same : (a == b) = true) : (a == c) = (b == c) := by
  have agree := (beq_iff a b first second).mp same
  rw [Bool.eq_iff_iff]
  exact ⟨fun here => (beq_iff b c second third).mpr (agree.symm.trans ((beq_iff a c first third).mp here)),
    fun here => (beq_iff a c first third).mpr (agree.trans ((beq_iff b c second third).mp here))⟩

theorem beq_comm_hashable (first : a.isHashable = true) (second : b.isHashable = true) : (a == b) = (b == a) := by
  rw [Bool.eq_iff_iff]
  exact ⟨fun here => (beq_iff b a second first).mpr ((beq_iff a b first second).mp here).symm,
    fun here => (beq_iff a b first second).mpr ((beq_iff b a second first).mp here).symm⟩

end

end Value

namespace Table

variable {α β γ : Type} [BEq α]

theorem map_insert (f : β → γ) (t : Table α β) (key : α) (value : β) :
    (⟨t.entries.map (Prod.map id f)⟩ : Table α γ).insert key (f value) =
      ⟨(t.insert key value).entries.map (Prod.map id f)⟩ := by
  obtain ⟨entries⟩ := t
  induction entries with
  | nil => rfl
  | cons entry rest ih =>
    rw [List.map_cons, insert_cons, insert_cons, ih]
    cases same : entry.1 == key <;> simp [same]

/-- What is written replaces what was there under its key. -/
theorem sum_insert (t : Table α ℝ) (key : α) (x : ℝ) :
    ((t.insert key x).entries.map (·.2)).sum = (t.entries.map (·.2)).sum - (t.get? key).getD 0 + x := by
  obtain ⟨entries⟩ := t
  induction entries with
  | nil => simp [insert_of_get?_none (t := ⟨([] : List (α × ℝ))⟩) rfl, get?]
  | cons entry rest ih =>
    rw [insert_cons, get?_cons]
    split
    next => simp [add_comm]
    next =>
      rw [List.map_cons, List.sum_cons, ih, List.map_cons, List.sum_cons]
      ring

theorem keys_insert (t : Table α β) (key : α) (value : β) :
    (t.insert key value).keys = t.keys ∨ t.get? key = none ∧ (t.insert key value).keys = t.keys ++ [key] := by
  obtain ⟨entries⟩ := t
  induction entries with
  | nil => exact .inr ⟨rfl, rfl⟩
  | cons entry rest ih =>
    rw [insert_cons, get?_cons]
    split
    next => exact .inl rfl
    next => exact ih.imp (congrArg (entry.1 :: ·)) fun new => ⟨new.1, congrArg (entry.1 :: ·) new.2⟩

/-- No two keys become equal. -/
theorem apart_insert {t : Table α β} (apart : t.keys.Pairwise fun k l => (k == l) = false) (key : α) (value : β) :
    (t.insert key value).keys.Pairwise fun k l => (k == l) = false := by
  rcases keys_insert t key value with kept | ⟨absent, added⟩
  · rwa [kept]
  · rw [added]
    refine List.pairwise_append.mpr ⟨apart, List.pairwise_singleton _ _, fun k member l new => ?_⟩
    obtain rfl := List.mem_singleton.mp new
    obtain ⟨e, there, rfl⟩ := List.mem_map.mp member
    exact Bool.eq_false_iff.mpr (List.find?_eq_none.mp (Option.map_eq_none_iff.mp absent) e there)

end Table

namespace Marginal

open Value (Key)

section

variable {ρ : Type}

/-- The labelled values before another of the same label. -/
def hidden : List (Value × ρ) → List (Value × ρ)
  | [] => []
  | e :: rest => if rest.any (·.1 == e.1) then e :: hidden rest else hidden rest

/-- The labelled values that are the last of their label. -/
def shown : List (Value × ρ) → List (Value × ρ)
  | [] => []
  | e :: rest => if rest.any (·.1 == e.1) then shown rest else e :: shown rest

theorem shown_hidden (ls : List (Value × ρ)) : (shown ls ++ hidden ls).Perm ls := by
  induction ls with
  | nil => exact .refl _
  | cons e ls ih =>
    rw [shown, hidden]
    split
    · exact List.perm_middle.trans (ih.cons e)
    · exact ih.cons e

theorem shown_concat (ls : List (Value × ρ)) (e : Value × ρ) :
    shown (ls ++ [e]) = (shown ls).filter (fun p => !(e.1 == p.1)) ++ [e] := by
  induction ls with
  | nil => rfl
  | cons p ls ih =>
    rw [List.cons_append, shown, shown, List.any_append, ih]
    cases earlier : ls.any (·.1 == p.1) with
    | true => rfl
    | false => cases here : e.1 == p.1 <;> simp [here]

theorem mem_of_mem_shown {ls : List (Value × ρ)} {e : Value × ρ} (member : e ∈ shown ls) : e ∈ ls :=
  (shown_hidden ls).mem_iff.mp (List.mem_append_left _ member)

end

/-- What the values of a label add up to. -/
noncomputable def total (l : Value) (ls : List (Value × ℝ)) : ℝ := ((ls.filter (·.1 == l)).map (·.2)).sum

noncomputable def sum (ls : List (Value × ℝ)) : ℝ := (ls.map (·.2)).sum

theorem total_shown (l : Value) (ls : List (Value × ℝ)) : total l (shown ls) + total l (hidden ls) = total l ls := by
  rw [total, total, total, ← List.sum_append, ← List.map_append, ← List.filter_append]
  exact (((shown_hidden ls).filter _).map _).sum_eq

theorem sum_shown (ls : List (Value × ℝ)) : sum (shown ls) + sum (hidden ls) = sum ls := by
  rw [sum, sum, sum, ← List.sum_append, ← List.map_append]
  exact ((shown_hidden ls).map _).sum_eq

/-- Labels can be keys. -/
def Labels {ρ : Type} (ls : List (Value × ρ)) : Prop := ∀ e ∈ ls, e.1.isHashable = true

theorem Labels.concat {ρ : Type} {ls : List (Value × ρ)} {e : Value × ρ} (labels : Labels (ls ++ [e])) :
    Labels ls ∧ e.1.isHashable = true :=
  ⟨fun e member => labels e (List.mem_append_left _ member), labels e (List.mem_append_right _ List.mem_cons_self)⟩

theorem ofList_concat {β : Type} (ls : List (Value × β)) (e : Value × β) :
    Table.ofList (ls ++ [e]) = (Table.ofList ls).insert e.1 e.2 := by
  rw [Table.ofList, List.foldl_append]
  rfl

theorem hashable_ofList {β : Type} {ls : List (Value × β)} (labels : Labels ls) :
    ∀ k ∈ (Table.ofList ls).keys, k.isHashable = true := by
  induction ls using List.reverseRecOn with
  | nil => exact nofun
  | append_singleton ls e ih =>
    obtain ⟨earlier, last⟩ := labels.concat
    rw [ofList_concat]
    intro k member
    rcases Table.mem_keys_insert member with older | rfl
    · exact ih earlier k older
    · exact last

/-- Without the values of one label the others are as they were. -/
theorem total_without {ls : List (Value × ℝ)} (labels : Labels ls) {k l : Value} (hashable : k.isHashable = true)
    (hashable' : l.isHashable = true) :
    total l (ls.filter fun p => !(k == p.1)) = if k == l then 0 else total l ls := by
  have alike {p : Value × ℝ} (member : p ∈ ls) (same : (p.1 == l) = true) : (k == p.1) = (k == l) := by
    rw [Value.beq_comm_hashable hashable (labels p member), Value.beq_comm_hashable hashable hashable',
      Value.beq_right (labels p member) hashable' hashable same]
  unfold total
  rw [List.filter_filter]
  split
  next same =>
    rw [List.filter_eq_nil_iff.mpr]
    · rfl
    · intro p member both
      obtain ⟨here, other⟩ := Bool.and_eq_true_iff.mp both
      rw [alike member here, same] at other
      cases other
  next other =>
    congr 2
    refine List.filter_congr fun p member => ?_
    cases here : p.1 == l with
    | false => rfl
    | true => rw [alike member here, Bool.eq_false_iff.mpr other]; rfl

theorem get?_concat {ls : List (Value × ℝ)} (labels : Labels ls) {e : Value × ℝ} (last : e.1.isHashable = true) {l : Value}
    (hashable : l.isHashable = true) :
    ((Table.ofList ls).insert e.1 e.2).get? l = if e.1 == l then some e.2 else (Table.ofList ls).get? l := by
  have keys := hashable_ofList labels
  apply Table.get?_insert
  · intro same k member
    rw [Value.beq_comm_hashable (keys k member) hashable, Value.beq_comm_hashable (keys k member) last,
      Value.beq_right last hashable (keys k member) same]
  · intro apart k member same
    rw [Value.beq_right (keys k member) last hashable same, apart]

theorem total_absent {ls : List (Value × ℝ)} {l : Value} (absent : ls.any (·.1 == l) = false) : total l ls = 0 := by
  rw [total, List.filter_eq_nil_iff.mpr]
  · rfl
  · intro e member same
    exact Bool.false_ne_true (absent.symm.trans (List.any_eq_true.mpr ⟨e, member, same⟩))

/-- The entry of a label is the last of its values. -/
theorem get?_ofList {ls : List (Value × ℝ)} (labels : Labels ls) {l : Value} (hashable : l.isHashable = true) :
    (Table.ofList ls).get? l = if ls.any (·.1 == l) then some (total l (shown ls)) else none := by
  induction ls using List.reverseRecOn with
  | nil => rfl
  | append_singleton ls e ih =>
    obtain ⟨earlier, last⟩ := labels.concat
    have tail : total l (shown (ls ++ [e])) = (if e.1 == l then 0 else total l (shown ls)) + total l [e] := by
      rw [← total_without (fun p member => earlier p (mem_of_mem_shown member)) last hashable, shown_concat, total,
        List.filter_append, List.map_append, List.sum_append]
      rfl
    have carried : (ls ++ [e]).any (·.1 == l) = (ls.any (·.1 == l) || e.1 == l) := by
      rw [List.any_append, List.any_cons, List.any_nil, Bool.or_false]
    rw [ofList_concat, get?_concat earlier last hashable, ih earlier, carried, tail]
    cases same : e.1 == l with
    | true => simp [total, same]
    | false =>
      rw [if_neg Bool.false_ne_true, if_neg Bool.false_ne_true, Bool.or_false,
        total_absent (show [e].any (·.1 == l) = false by simp [same]), add_zero]

theorem getD_ofList {ls : List (Value × ℝ)} (labels : Labels ls) {l : Value} (hashable : l.isHashable = true) :
    ((Table.ofList ls).get? l).getD 0 = total l (shown ls) := by
  rw [get?_ofList labels hashable]
  cases there : ls.any (·.1 == l) with
  | true => rfl
  | false =>
    refine (total_absent (Bool.eq_false_iff.mpr fun member => ?_)).symm
    obtain ⟨e, member, same⟩ := List.any_eq_true.mp member
    exact Bool.false_ne_true (there.symm.trans (List.any_eq_true.mpr ⟨e, mem_of_mem_shown member, same⟩))

/-- The entries add up to the last values of all labels. -/
theorem sum_ofList {ls : List (Value × ℝ)} (labels : Labels ls) : sum (Table.ofList ls).entries = sum (shown ls) := by
  induction ls using List.reverseRecOn with
  | nil => rfl
  | append_singleton ls e ih =>
    obtain ⟨earlier, last⟩ := labels.concat
    have kept : sum ((shown ls).filter fun p => !(e.1 == p.1)) = sum (shown ls) - total e.1 (shown ls) := by
      have alike : (shown ls).filter (·.1 == e.1) = (shown ls).filter fun p => e.1 == p.1 :=
        List.filter_congr fun p member => Value.beq_comm_hashable (earlier p (mem_of_mem_shown member)) last
      have parts := ((List.filter_append_perm (fun p => e.1 == p.1) (shown ls)).map (·.2)).sum_eq
      rw [List.map_append, List.sum_append] at parts
      rw [total, alike, sum, sum]
      linarith
    have split : sum (shown (ls ++ [e])) = sum ((shown ls).filter fun p => !(e.1 == p.1)) + e.2 := by
      rw [shown_concat, sum, List.map_append, List.sum_append]
      simp [sum]
    rw [split, kept, ofList_concat, sum, Table.sum_insert, getD_ofList earlier last, ← ih earlier]
    rfl

theorem keys_apart_ofList {ls : List (Value × ℝ)} (labels : Labels ls) :
    (Table.ofList ls).keys.Pairwise fun k l => (k == l) = false := by
  induction ls using List.reverseRecOn with
  | nil => exact .nil
  | append_singleton ls e ih =>
    rw [ofList_concat]
    exact Table.apart_insert (ih labels.concat.1) e.1 e.2

/-- A table that shows of each label the last probability among those of its values. -/
structure Shows (M : Marginal Value Exact) (ls : List (Value × ℝ)) (t : Table Value ℝ) : Prop where
  listed : ls.length = M.values.length
  labelled : List.Forall₂ (fun q e => q.1.label = .ok e.1 ∧ Score.exp q.2 = .real e.2) (M.values.zip M.logProbs) ls
  nonneg : ∀ e ∈ ls, 0 ≤ e.2
  whole : sum ls = 1
  histogram : M.histogram = .ok ⟨t.entries.map (Prod.map id Exact.real)⟩
  apart : t.keys.Pairwise fun k l => (k == l) = false
  entry : ∀ l : Value, l.isHashable = true →
    t.get? l = if ls.any (·.1 == l) then some (total l ls - total l (hidden ls)) else none
  missing : sum t.entries = 1 - sum (hidden ls)

/-- Labelled values are written one after the other. -/
theorem foldlM_labelled {qs : List (Value × Exact)} {ls : List (Value × ℝ)}
    (labelled : List.Forall₂ (fun q e => q.1.label = .ok e.1 ∧ Score.exp q.2 = .real e.2) qs ls) (t : Table Value ℝ) :
    qs.foldlM (fun (t : Table Value Exact) q => do return t.insert (← q.1.label) (Score.exp q.2))
        (⟨t.entries.map (Prod.map id Exact.real)⟩ : Table Value Exact) =
      Except.ok ⟨(ls.foldl (fun t e => t.insert e.1 e.2) t).entries.map (Prod.map id Exact.real)⟩ := by
  induction labelled generalizing t with
  | nil => rfl
  | @cons q e qs ls here _ ih =>
    rw [List.foldlM_cons, here.1, here.2]
    change qs.foldlM _ ((⟨t.entries.map (Prod.map id Exact.real)⟩ : Table Value Exact).insert e.1 (.real e.2)) = _
    rw [Table.map_insert Exact.real]
    exact ih (t.insert e.1 e.2)

theorem histogram_eq {M : Marginal Value Exact} {ls : List (Value × ℝ)}
    (labelled : List.Forall₂ (fun q e => q.1.label = .ok e.1 ∧ Score.exp q.2 = .real e.2)
      (M.values.zip M.logProbs) ls) :
    M.histogram = .ok ⟨(Table.ofList ls).entries.map (Prod.map id Exact.real)⟩ :=
  foldlM_labelled labelled ∅

/-- The label of a value that has one. -/
def labelOf (v : Value) : Value := v.label.toOption.getD v

theorem label_eq {v : Value} {k : Key} (known : v.key = .ok k) : v.label = .ok (labelOf v) := by
  obtain ⟨l, label⟩ := Value.exists_label known
  rw [labelOf, label]
  rfl

theorem ofLogWeights_finite {found : List (Value × Exact)} {normalization : Option Exact} {samples : List Value}
    {diagnostics : List (String × Measure Exact)} {M : Marginal Value Exact}
    (made : ofLogWeights (found.map (·.1)) (found.map (·.2)) normalization samples diagnostics = .ok M) :
    (∀ p ∈ found, p.2.IsReal ∨ p.2 = .negInf) ∧ 0 < Exact.mass (found.map (·.2)) := by
  cases built : groups (found.map (·.1)) (found.map (·.2)) with
  | error e => simp [ofLogWeights, built, bind, Except.bind] at made
  | ok gs =>
    rw [ofLogWeights_eq built, (groups_grouped built).logSumExp_flat] at made
    dsimp only at made
    split at made
    next finite =>
      obtain ⟨finite, heavy⟩ := (Exact.isFinite_logSumExp_iff _).mp finite
      exact ⟨List.forall_mem_map.mp finite, Exact.mass_pos_of_real heavy⟩
    next => cases made

/-- The histogram of a marginal shows what its last values of each label leave. -/
theorem exists_shows {values : List Value} {weights : List Exact} {normalization : Option Exact} {samples : List Value}
    {diagnostics : List (String × Measure Exact)} {M : Marginal Value Exact}
    (made : ofLogWeights values weights normalization samples diagnostics = .ok M) : ∃ ls t, Shows M ls t := by
  obtain ⟨lengths, _⟩ := ofLogWeights_groups made
  obtain ⟨found, _, rfl, rfl⟩ := zip_pairs values weights lengths
  obtain ⟨finite, massive⟩ := ofLogWeights_finite made
  obtain ⟨gs, grouped, rfl⟩ := ofLogWeights_made finite massive made
  let share (g : Group Exact) : ℝ := Exact.mass g.weights / Exact.mass (found.map (·.2))
  have positive (g : Group Exact) : 0 ≤ share g := div_nonneg (Exact.mass_nonneg _) massive.le
  have label {g : Group Exact} (member : g ∈ gs) : g.value.label = .ok (labelOf g.value) :=
    label_eq (grouped.key_eq member)
  let ls := gs.map fun g => (labelOf g.value, share g)
  have labels : Labels ls := List.forall_mem_map.mpr fun g member => Value.hashable_label (label member)
  have labelled : List.Forall₂ (fun (q : Value × Exact) e => q.1.label = .ok e.1 ∧ Score.exp q.2 = .real e.2)
      ((gs.map (·.value)).zip (gs.map fun g => Exact.ofMass (share g))) ls := by
    rw [List.zip_map', List.forall₂_map_left_iff, List.forall₂_map_right_iff]
    exact List.forall₂_same.mpr fun g member => ⟨label member, Exact.exp_ofMass (positive g)⟩
  have whole : sum ls = 1 := by
    rw [sum, List.map_map]
    exact grouped.sum_shares massive
  refine ⟨ls, Table.ofList ls, by simp [ls], labelled, ?_, whole, histogram_eq labelled, keys_apart_ofList labels, ?_, ?_⟩
  · exact List.forall_mem_map.mpr fun g _ => positive g
  · intro l hashable
    rw [get?_ofList labels hashable, ← total_shown l ls, add_sub_cancel_right]
  · rw [sum_ofList labels, ← whole, ← sum_shown ls, add_sub_cancel_right]

/-- With nothing hidden nothing is lost, and what is hidden of a label is what its entry lacks. -/
theorem sum_hidden_eq_zero_iff {ls : List (Value × ℝ)} (nonneg : ∀ e ∈ ls, 0 ≤ e.2) (p : Value × ℝ → Bool) :
    sum ((hidden ls).filter p) = 0 ↔ ∀ e ∈ hidden ls, p e = true → e.2 = 0 := by
  have weights : ∀ x ∈ ((hidden ls).filter p).map (·.2), 0 ≤ x := by
    refine List.forall_mem_map.mpr fun e member => nonneg e ((shown_hidden ls).mem_iff.mp ?_)
    exact List.mem_append_right _ (List.mem_of_mem_filter member)
  rw [sum]
  constructor
  · intro none e member here
    have below := List.single_le_sum weights e.2 (List.mem_map_of_mem (List.mem_filter.mpr ⟨member, here⟩))
    exact le_antisymm (below.trans none.le) (weights _ (List.mem_map_of_mem (List.mem_filter.mpr ⟨member, here⟩)))
  · intro none
    refine List.sum_eq_zero (List.forall_mem_map.mpr fun e member => ?_)
    exact none e (List.mem_of_mem_filter member) (List.mem_filter.mp member).2

/-- The histogram of every marginal keeps of each label the probability of the last value that carries it. So the
entries add up to one exactly if no value with a probability comes before another of its label, and the entry of a
label is the total of its values exactly if none of them does. -/
theorem histogram_overwrites {values : List Value} {weights : List Exact} {normalization : Option Exact}
    {samples : List Value} {diagnostics : List (String × Measure Exact)} {M : Marginal Value Exact}
    (made : ofLogWeights values weights normalization samples diagnostics = .ok M) :
    ∃ ls t, Shows M ls t ∧ (sum t.entries = 1 ↔ ∀ e ∈ hidden ls, e.2 = 0) ∧
      ∀ l : Value, l.isHashable = true → ls.any (·.1 == l) = true →
        (t.get? l = some (total l ls) ↔ ∀ e ∈ hidden ls, (e.1 == l) = true → e.2 = 0) := by
  obtain ⟨ls, t, shows⟩ := exists_shows made
  refine ⟨ls, t, shows, ?_, fun l hashable carried => ?_⟩
  · have all := sum_hidden_eq_zero_iff shows.nonneg fun _ => true
    rw [List.filter_true] at all
    rw [shows.missing, sub_eq_self, all]
    exact forall₂_congr fun e _ => ⟨fun none => none rfl, fun none _ => none⟩
  · rw [shows.entry l hashable, if_pos carried, Option.some_inj, sub_eq_self]
    exact sum_hidden_eq_zero_iff shows.nonneg (·.1 == l)

/-- Two values told apart and weighed alike have the same probability. -/
theorem even_marginal {v w : Value} {k l : Key}
    (built : groups [v, w] [Exact.real 0, .real 0] = .ok [⟨k, v, [.real 0]⟩, ⟨l, w, [.real 0]⟩]) :
    ofLogWeights [v, w] [Exact.real 0, .real 0] none [] [] =
      .ok ⟨[v, w], [Exact.ofMass (1 / 2), .ofMass (1 / 2)], none, [], []⟩ := by
  have one : Exact.mass [.real 0] = 1 := by
    simp [Exact.weight]
  have two : Exact.mass [.real 0, .real 0] = 2 := by
    rw [Exact.mass_cons, one, Exact.weight, Real.exp_zero]
    norm_num
  have made := @ofLogWeights_built [(v, .real 0), (w, .real 0)] none [] [] (by simp [Exact.IsReal]) (by simp [two])
    _ built
  simp only [List.map_cons, List.map_nil, one, two] at made
  exact made

/-- The text of a list shares its label with the list. -/
theorem text_under_list :
    let values : List Value := [.text "[1]", .list [.int 1]]
    ∃ M, ofLogWeights values [Exact.real 0, .real 0] none [] [] = .ok M ∧
      ∃ ls t, Shows M ls t ∧ (sum t.entries = 1 ↔ ∀ e ∈ hidden ls, e.2 = 0) :=
  have made := even_marginal (v := .text "[1]") (w := .list [.int 1]) rfl
  have ⟨ls, t, shows, whole, _⟩ := histogram_overwrites made
  ⟨_, made, ls, t, shows, whole⟩

/-- Of true and one, equally likely, the histogram shows half. -/
theorem histogram_halved :
    ∃ M, ofLogWeights [.bool true, .int 1] [Exact.real 0, .real 0] none [] [] = .ok M ∧
      M.histogram = .ok ⟨[(.bool true, .real (1 / 2))]⟩ := by
  refine ⟨_, even_marginal rfl, ?_⟩
  have half : Score.exp (Exact.ofMass (1 / 2)) = .real (1 / 2) := Exact.exp_ofMass (by norm_num)
  have labelled : List.Forall₂ (fun (q : Value × Exact) (e : Value × ℝ) => q.1.label = .ok e.1 ∧ Score.exp q.2 = .real e.2)
      [(.bool true, Exact.ofMass (1 / 2)), (.int 1, Exact.ofMass (1 / 2))] [(.bool true, 1 / 2), (.int 1, 1 / 2)] :=
    .cons ⟨rfl, half⟩ (.cons ⟨rfl, half⟩ .nil)
  have last : Table.ofList [(.bool true, 1 / 2), (.int 1, 1 / 2)] = (⟨[(.bool true, 1 / 2)]⟩ : Table Value ℝ) := by
    have same : (Value.bool true == Value.int 1) = true := by cbv
    change (⟨[(.bool true, 1 / 2)]⟩ : Table Value ℝ).insert (.int 1) (1 / 2) = _
    rw [Table.insert_cons, if_pos same]
  rw [histogram_eq (M := ⟨[.bool true, .int 1], [Exact.ofMass (1 / 2), .ofMass (1 / 2)], none, [], []⟩) labelled, last]
  rfl

end Marginal

end ProbCore
