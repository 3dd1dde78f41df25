import ProbCore.Marginal.Queries
import ProbCore.Proofs.ExactScore
import ProbCore.Proofs.ValueIdentity

/-! In exact arithmetic a marginal gives every value its share of the mass. Grouping neither
loses nor invents weights, and no two groups stand for the same value, so that asking for a
value finds all of its weights at once. -/

namespace ProbCore

open Value (Key)

/-- Whether a value has this key. -/
def Value.identifiedBy (k : Key) (v : Value) : Bool :=
  match v.key with
  | .ok l => l == k
  | .error _ => false

namespace Marginal

/-- The mass of the weighted values that have this key. -/
noncomputable def massOf (k : Key) (found : List (Value × Exact)) : ℝ :=
  Exact.mass ((found.filter (·.1.identifiedBy k)).map (·.2))

theorem massOf_perm (k : Key) {some others : List (Value × Exact)} (same : some.Perm others) :
    massOf k some = massOf k others :=
  Exact.mass_perm ((same.filter _).map _)

/-- The weights of the groups whose keys are like this. -/
def weightsOf (like : Key → Bool) (gs : List (Group Exact)) : List Exact :=
  (gs.filter (like ·.key)).flatMap (·.weights)

theorem weightsOf_cons (like : Key → Bool) (g : Group Exact) (gs : List (Group Exact)) :
    weightsOf like (g :: gs) = (if like g.key then g.weights else []) ++ weightsOf like gs := by
  cases held : like g.key <;> simp [weightsOf, held]

/-- A new weight goes to the groups whose keys are like its own, and nothing else changes. -/
theorem weightsOf_insert {like : Key → Bool} {k : Key} {gs : List (Group Exact)} (v : Value)
    (w : Exact) (respects : ∀ g ∈ gs, (g.key == k) = true → like g.key = like k) :
    (weightsOf like (Group.insert k v w gs)).Perm
      (weightsOf like gs ++ if like k then [w] else []) := by
  induction gs with
  | nil => cases held : like k <;> simp [Group.insert, weightsOf, held]
  | cons g rest ih =>
    rw [Group.insert]
    split
    next same =>
      have alike := respects g List.mem_cons_self same
      rw [weightsOf_cons, weightsOf_cons]
      dsimp only
      rw [alike]
      split
      next =>
        rw [List.append_assoc, List.append_assoc]
        exact List.perm_append_comm.append_left g.weights
      next => simp
    next =>
      rw [weightsOf_cons, weightsOf_cons, List.append_assoc]
      exact (ih fun g member => respects g (List.mem_cons_of_mem _ member)).append_left _

/-- The key and the value that stand for a group. -/
def Group.head {R : Type} (g : Group R) : Key × Value := (g.key, g.value)

theorem heads_insert {R : Type} (k : Key) (v : Value) (w : R) (gs : List (Group R)) :
    (∃ g ∈ gs, (g.key == k) = true) ∧ (Group.insert k v w gs).map Group.head = gs.map Group.head ∨
      (∀ g ∈ gs, (g.key == k) = false) ∧
        (Group.insert k v w gs).map Group.head = gs.map Group.head ++ [(k, v)] := by
  induction gs with
  | nil => exact .inr ⟨fun g member => (nomatch member), rfl⟩
  | cons g rest ih =>
    rw [Group.insert]
    split
    next same => exact .inl ⟨⟨g, List.mem_cons_self, same⟩, rfl⟩
    next apart =>
      rcases ih with ⟨⟨h, present, same⟩, kept⟩ | ⟨new, added⟩
      · refine .inl ⟨⟨h, List.mem_cons_of_mem g present, same⟩, ?_⟩
        rw [List.map_cons, kept, List.map_cons]
      · refine .inr ⟨?_, by rw [List.map_cons, added, List.map_cons, List.cons_append]⟩
        intro h member
        cases member with
        | head => exact Bool.eq_false_iff.mpr apart
        | tail _ member => exact new h member

theorem eraseDupsBy_concat {α : Type} (r : α → α → Bool) (xs : List α) (x : α) :
    (xs ++ [x]).eraseDupsBy r =
      if (xs.eraseDupsBy r).any (r x) then xs.eraseDupsBy r else xs.eraseDupsBy r ++ [x] := by
  have loops (seen : List α) : List.eraseDupsBy.loop r (xs ++ [x]) seen =
      if (List.eraseDupsBy.loop r xs seen).any (r x) then List.eraseDupsBy.loop r xs seen
      else List.eraseDupsBy.loop r xs seen ++ [x] := by
    induction xs generalizing seen with
    | nil =>
      rw [List.nil_append, List.eraseDupsBy.loop, List.eraseDupsBy.loop, List.any_reverse]
      cases seen.any (r x) <;> simp [List.eraseDupsBy.loop]
    | cons y ys ih =>
      rw [List.cons_append, List.eraseDupsBy.loop, List.eraseDupsBy.loop]
      split
      · exact ih seen
      · exact ih (y :: seen)
  exact loops []

/-- The groups of weighted values found so far. -/
structure Grouped (gs : List (Group Exact)) (found : List (Value × Exact)) : Prop where
  keyed : ∀ p ∈ gs.map Group.head, p.2.key = .ok p.1
  distinct : (gs.map Group.head).Pairwise fun p q => (p.1 == q.1) = false
  firsts : gs.map (·.value) = (found.map (·.1)).eraseDupsBy Value.sameKey
  filled : ∀ g ∈ gs, g.weights ≠ []
  weights : (gs.flatMap (·.weights)).Perm (found.map (·.2))
  masses : ∀ k : Key, k.Proper → Exact.mass (weightsOf (· == k) gs) = massOf k found

theorem filled_insert {k : Key} {v : Value} {w : Exact} {gs : List (Group Exact)}
    (filled : ∀ g ∈ gs, g.weights ≠ []) : ∀ g ∈ Group.insert k v w gs, g.weights ≠ [] := by
  induction gs with
  | nil => simp [Group.insert]
  | cons g rest ih =>
    rw [Group.insert]
    split
    next =>
      intro h member
      cases member with
      | head => simp
      | tail _ member => exact filled h (List.mem_cons_of_mem _ member)
    next =>
      intro h member
      cases member with
      | head => exact filled _ List.mem_cons_self
      | tail _ member =>
        exact ih (fun g member => filled g (List.mem_cons_of_mem _ member)) h member

namespace Grouped

variable {gs : List (Group Exact)} {found : List (Value × Exact)} {k : Key} {v : Value}

theorem key_eq (grouped : Grouped gs found) {g : Group Exact} (member : g ∈ gs) :
    g.value.key = .ok g.key :=
  grouped.keyed g.head (List.mem_map_of_mem member)

/-- The values found so far know of a value's key just when a group has it. -/
theorem any_sameKey (grouped : Grouped gs found) (known : v.key = .ok k) :
    ((found.map (·.1)).eraseDupsBy Value.sameKey).any (v.sameKey ·) = gs.any (·.key == k) := by
  have own (g : Group Exact) (member : g ∈ gs) : v.sameKey g.value = (g.key == k) := by
    rw [Value.sameKey, known, grouped.key_eq member]
  rw [← grouped.firsts, Bool.eq_iff_iff, List.any_eq_true, List.any_eq_true]
  constructor
  · rintro ⟨_, member, same⟩
    obtain ⟨g, present, rfl⟩ := List.mem_map.mp member
    exact ⟨g, present, (own g present).symm.trans same⟩
  · rintro ⟨g, present, same⟩
    exact ⟨g.value, List.mem_map_of_mem present, (own g present).trans same⟩

theorem firsts_insert (grouped : Grouped gs found) (known : v.key = .ok k) (w : Exact) :
    (Group.insert k v w gs).map (·.value) =
      ((found ++ [(v, w)]).map (·.1)).eraseDupsBy Value.sameKey := by
  have values (gs : List (Group Exact)) : gs.map (·.value) = (gs.map Group.head).map (·.2) := by
    rw [List.map_map]
    rfl
  rw [values, List.map_append, List.map_singleton, eraseDupsBy_concat, grouped.any_sameKey known,
    ← grouped.firsts]
  rcases heads_insert k v w gs with ⟨present, kept⟩ | ⟨apart, added⟩
  · rw [kept, if_pos (List.any_eq_true.mpr present), ← values]
  · rw [added, List.map_append, ← values, if_neg]
    · rfl
    · simpa using apart

theorem masses_insert (grouped : Grouped gs found) (known : v.key = .ok k) (w : Exact) {l : Key}
    (plain : l.Proper) :
    Exact.mass (weightsOf (· == l) (Group.insert k v w gs)) = massOf l (found ++ [(v, w)]) := by
  have respects : ∀ g ∈ gs, (g.key == k) = true → (g.key == l) = (k == l) := by
    intro g member same
    have fromGroup := Value.key_proper (grouped.key_eq member)
    have fromValue := Value.key_proper known
    rw [Bool.eq_iff_iff]
    exact ⟨Key.beq_trans fromValue fromGroup plain (Key.beq_symm fromGroup fromValue same),
      Key.beq_trans fromGroup fromValue plain same⟩
  rw [Exact.mass_perm (weightsOf_insert v w respects), Exact.mass_append, grouped.masses l plain,
    massOf, massOf, List.filter_append, List.map_append, Exact.mass_append]
  congr 1
  have identified : v.identifiedBy l = (k == l) := by rw [Value.identifiedBy, known]
  cases same : k == l <;> simp [identified, same]

theorem insert (grouped : Grouped gs found) (known : v.key = .ok k) (w : Exact) :
    Grouped (Group.insert k v w gs) (found ++ [(v, w)]) where
  keyed := by
    rcases heads_insert k v w gs with ⟨_, kept⟩ | ⟨_, added⟩
    · rw [kept]
      exact grouped.keyed
    · rw [added]
      intro p member
      rcases List.mem_append.mp member with old | new
      · exact grouped.keyed p old
      · obtain rfl := List.mem_singleton.mp new
        exact known
  distinct := by
    rcases heads_insert k v w gs with ⟨_, kept⟩ | ⟨apart, added⟩
    · rw [kept]
      exact grouped.distinct
    · rw [added]
      refine List.pairwise_append.mpr ⟨grouped.distinct, List.pairwise_singleton _ _, ?_⟩
      intro p member q new
      obtain rfl := List.mem_singleton.mp new
      obtain ⟨g, present, rfl⟩ := List.mem_map.mp member
      exact apart g present
  firsts := grouped.firsts_insert known w
  filled := filled_insert grouped.filled
  weights := by
    have all (gs : List (Group Exact)) : weightsOf (fun _ => true) gs = gs.flatMap (·.weights) := by
      rw [weightsOf, List.filter_eq_self.mpr fun _ _ => rfl]
    have added := @weightsOf_insert (fun _ => true) k gs v w fun _ _ _ => rfl
    rw [all, all] at added
    rw [List.map_append]
    exact added.trans (grouped.weights.append_right _)
  masses _ plain := grouped.masses_insert known w plain

end Grouped

private theorem grouped_foldlM {rest before : List (Value × Exact)} {gs : List (Group Exact)}
    (grouped : Grouped gs before) :
    (∀ gs', rest.foldlM (fun gs (p : Value × Exact) => do
        return Group.insert (← p.1.key) p.1 p.2 gs) gs = Except.ok gs' →
      Grouped gs' (before ++ rest)) ∧
    ((∀ p ∈ rest, ∃ k, p.1.key = .ok k) → ∃ gs', rest.foldlM (fun gs (p : Value × Exact) => do
        return Group.insert (← p.1.key) p.1 p.2 gs) gs = Except.ok gs') := by
  induction rest generalizing before gs with
  | nil =>
    refine ⟨?_, fun _ => ⟨gs, rfl⟩⟩
    rintro _ ⟨⟩
    rwa [List.append_nil]
  | cons p rest ih =>
    rw [List.foldlM_cons]
    cases known : p.1.key with
    | error e =>
      refine ⟨nofun, fun keyed => ?_⟩
      obtain ⟨k, present⟩ := keyed p List.mem_cons_self
      rw [known] at present
      cases present
    | ok k =>
      have next := @ih _ _ (grouped.insert known p.2)
      rw [List.append_assoc] at next
      exact ⟨next.1, fun keyed => next.2 fun q member => keyed q (List.mem_cons_of_mem _ member)⟩

private theorem zip_halves (found : List (Value × Exact)) :
    (found.map (·.1)).zip (found.map (·.2)) = found := by
  simp [List.zip_map']

private theorem grouped_nil : Grouped [] [] :=
  ⟨nofun, .nil, rfl, nofun, .refl _, fun _ _ => rfl⟩

theorem groups_grouped {found : List (Value × Exact)} {gs : List (Group Exact)}
    (built : groups (found.map (·.1)) (found.map (·.2)) = .ok gs) : Grouped gs found := by
  rw [groups, zip_halves] at built
  exact (grouped_foldlM grouped_nil).1 gs built

theorem groups_succeed {found : List (Value × Exact)} (keyed : ∀ p ∈ found, ∃ k, p.1.key = .ok k) :
    ∃ gs, groups (found.map (·.1)) (found.map (·.2)) = .ok gs := by
  rw [groups, zip_halves]
  exact (grouped_foldlM grouped_nil).2 keyed

private theorem filter_eq_find? {α : Type} {q : α → Bool} {xs : List α}
    (once : xs.Pairwise fun x y => ¬ (q x = true ∧ q y = true)) :
    xs.filter q = (xs.find? q).toList := by
  induction once with
  | nil => rfl
  | @cons x xs apart _ ih =>
    cases held : q x with
    | true =>
      have others : xs.filter q = [] := by
        rw [List.filter_eq_nil_iff]
        exact fun y member both => apart y member ⟨held, both⟩
      simp [held, others]
    | false => simp [held, ih]

/-- The weights of a value are those of the first group that has its key. -/
theorem Grouped.weightsOf_eq {gs : List (Group Exact)} {found : List (Value × Exact)}
    (grouped : Grouped gs found) {k : Key} (plain : k.Proper) :
    weightsOf (· == k) gs = ((gs.find? (·.key == k)).map (·.weights)).getD [] := by
  have proper (g : Group Exact) (member : g ∈ gs) : g.key.Proper :=
    Value.key_proper (grouped.key_eq member)
  have once : gs.Pairwise fun g h => ¬ ((g.key == k) = true ∧ (h.key == k) = true) := by
    refine (List.pairwise_map.mp grouped.distinct).imp_of_mem ?_
    intro g h here there apart both
    have linked := Key.beq_trans (proper g here) plain (proper h there) both.1
      (Key.beq_symm (proper h there) plain both.2)
    exact Bool.eq_false_iff.mp apart linked
  rw [weightsOf, filter_eq_find? once]
  cases gs.find? (·.key == k) <;> simp

theorem scoreOf_eq {gs : List (Group Exact)} (f : Group Exact → Exact) (k : Key)
    (keyed : ∀ g ∈ gs, g.value.key = .ok g.key) :
    scoreOf k (gs.map fun g => (g.value, f g)) =
      .ok (((gs.find? (·.key == k)).map f).getD Score.impossible) := by
  induction gs with
  | nil => rfl
  | cons g rest ih =>
    have tail := ih fun h member => keyed h (List.mem_cons_of_mem _ member)
    rw [List.map_cons, scoreOf, keyed g List.mem_cons_self]
    cases found : g.key == k with
    | true => simp [bind, Except.bind, pure, Except.pure, found]
    | false => simpa [bind, Except.bind, found] using tail

/-- The log weight of a group. -/
noncomputable def Group.total (g : Group Exact) : Exact := Score.logSumExp g.weights

theorem ofLogWeights_eq {found : List (Value × Exact)} {gs : List (Group Exact)}
    (built : groups (found.map (·.1)) (found.map (·.2)) = .ok gs) (normalization : Option Exact)
    (samples : List Value) (diagnostics : List (String × Measure Exact)) :
    ofLogWeights (found.map (·.1)) (found.map (·.2)) normalization samples diagnostics =
      let total := Score.logSumExp (gs.map Group.total)
      if Score.isFinite total then
        .ok ⟨gs.map (·.value), (gs.map Group.total).map (· - total), normalization, samples,
          diagnostics⟩
      else .error (.inference .noMass) := by
  unfold ofLogWeights
  rw [built]
  simp only [List.length_map, bne_self_eq_false, Bool.false_eq_true, if_false]
  change (if (!Score.isFinite (Score.logSumExp (gs.map Group.total))) = true then _ else _) = _
  cases Score.isFinite (Score.logSumExp (gs.map Group.total)) with
  | true => rfl
  | false => rfl

private theorem mass_totals {gs : List (Group Exact)}
    (faithful : ∀ g ∈ gs, g.total.weight = Exact.mass g.weights) :
    Exact.mass (gs.map Group.total) = Exact.mass (gs.flatMap (·.weights)) := by
  induction gs with
  | nil => rfl
  | cons g rest ih =>
    rw [List.map_cons, List.flatMap_cons, Exact.mass_cons, Exact.mass_append,
      faithful g List.mem_cons_self, ih fun h member => faithful h (List.mem_cons_of_mem _ member)]

theorem Grouped.mem_weights {gs : List (Group Exact)} {found : List (Value × Exact)}
    (grouped : Grouped gs found) {w : Exact} :
    w ∈ found.map (·.2) ↔ ∃ g ∈ gs, w ∈ g.weights :=
  grouped.weights.mem_iff.symm.trans List.mem_flatMap

/-- The log weight of a group is the logarithm of its mass. -/
theorem Grouped.total_eq {gs : List (Group Exact)} {found : List (Value × Exact)}
    (grouped : Grouped gs found) (finite : ∀ p ∈ found, p.2.IsReal ∨ p.2 = .negInf) {g : Group Exact}
    (member : g ∈ gs) : g.total = Exact.ofMass (Exact.mass g.weights) := by
  refine Exact.logSumExp_ofMass fun w inside => ?_
  obtain ⟨p, known, rfl⟩ := List.mem_map.mp (grouped.mem_weights.mpr ⟨g, member, inside⟩)
  exact finite p known

/-- The log weights of groups add up to those of all values. -/
theorem Grouped.logSumExp_eq {gs : List (Group Exact)} {found : List (Value × Exact)}
    (grouped : Grouped gs found) (finite : ∀ p ∈ found, p.2.IsReal ∨ p.2 = .negInf) :
    Score.logSumExp (gs.map Group.total) = Exact.ofMass (Exact.mass (found.map (·.2))) := by
  have totals : ∀ w ∈ gs.map Group.total, w.IsReal ∨ w = .negInf := by
    refine List.forall_mem_map.mpr fun g member => ?_
    rw [grouped.total_eq finite member]
    exact Exact.ofMass_finite _
  have masses : Exact.mass (gs.map Group.total) = Exact.mass (gs.flatMap (·.weights)) := by
    refine mass_totals fun g member => ?_
    rw [grouped.total_eq finite member, Exact.weight_ofMass (Exact.mass_nonneg _)]
  rw [Exact.logSumExp_ofMass totals, masses, Exact.mass_perm grouped.weights]

section

variable {found : List (Value × Exact)} {normalization : Option Exact} {samples : List Value}
  {diagnostics : List (String × Measure Exact)}

/-- Grouped values whose log weights have some mass make a marginal of their shares. -/
theorem ofLogWeights_built (finite : ∀ p ∈ found, p.2.IsReal ∨ p.2 = .negInf)
    (massive : 0 < Exact.mass (found.map (·.2))) {gs : List (Group Exact)}
    (built : groups (found.map (·.1)) (found.map (·.2)) = .ok gs) :
    ofLogWeights (found.map (·.1)) (found.map (·.2)) normalization samples diagnostics = .ok ⟨gs.map (·.value),
      gs.map fun g => Exact.ofMass (Exact.mass g.weights / Exact.mass (found.map (·.2))), normalization, samples,
      diagnostics⟩ := by
  have grouped := groups_grouped built
  rw [ofLogWeights_eq built, grouped.logSumExp_eq finite, Exact.ofMass_pos massive]
  refine congrArg (fun shares => Except.ok (Marginal.mk _ shares _ _ _)) ?_
  rw [List.map_map]
  refine List.map_congr_left fun g member => ?_
  rw [Function.comp_apply, grouped.total_eq finite member, Exact.ofMass_div (Exact.mass_nonneg g.weights) massive]

/-- Log weights with some mass, of values that have keys, make a marginal. -/
theorem ofLogWeights_succeeds (finite : ∀ p ∈ found, p.2.IsReal ∨ p.2 = .negInf)
    (massive : 0 < Exact.mass (found.map (·.2))) (keyed : ∀ p ∈ found, ∃ k, p.1.key = .ok k) :
    ∃ M, ofLogWeights (found.map (·.1)) (found.map (·.2)) normalization samples diagnostics =
      .ok M := by
  obtain ⟨gs, built⟩ := groups_succeed keyed
  exact ⟨_, ofLogWeights_built finite massive built⟩

/-- What such a marginal is built of. -/
theorem ofLogWeights_made (finite : ∀ p ∈ found, p.2.IsReal ∨ p.2 = .negInf)
    (massive : 0 < Exact.mass (found.map (·.2))) {M : Marginal Value Exact}
    (made : ofLogWeights (found.map (·.1)) (found.map (·.2)) normalization samples diagnostics = .ok M) :
    ∃ gs, Grouped gs found ∧ M = ⟨gs.map (·.value),
      gs.map fun g => Exact.ofMass (Exact.mass g.weights / Exact.mass (found.map (·.2))), normalization, samples,
      diagnostics⟩ := by
  cases built : groups (found.map (·.1)) (found.map (·.2)) with
  | error e =>
    simp [ofLogWeights, built, bind, Except.bind] at made
  | ok gs =>
    rw [ofLogWeights_built finite massive built] at made
    exact ⟨gs, groups_grouped built, (Except.ok.inj made).symm⟩

/-- The score of a value is its share of the mass. -/
theorem Grouped.score_eq {gs : List (Group Exact)} (grouped : Grouped gs found) {total : ℝ} {v : Value} {k : Key}
    (known : v.key = .ok k) :
    (⟨gs.map (·.value), gs.map fun g => Exact.ofMass (Exact.mass g.weights / total), normalization, samples,
      diagnostics⟩ : Marginal Value Exact).score v = .ok (Exact.ofMass (massOf k found / total)) := by
  have keyed : ∀ g ∈ gs, g.value.key = .ok g.key := fun g => grouped.key_eq
  have masses := grouped.masses k (Value.key_proper known)
  rw [grouped.weightsOf_eq (Value.key_proper known)] at masses
  simp only [score, known, List.zip_map', bind, Except.bind,
    scoreOf_eq (fun g => Exact.ofMass (Exact.mass g.weights / total)) k keyed]
  rw [← masses]
  cases gs.find? (·.key == k) with
  | none =>
    rw [Option.map_none, Option.map_none, Option.getD_none, Option.getD_none, Exact.mass_nil, zero_div,
      Exact.ofMass_zero]
    rfl
  | some g => rfl

/-- A marginal keeps its normalization and gives every value its share of the mass. -/
theorem ofLogWeights_shares (finite : ∀ p ∈ found, p.2.IsReal ∨ p.2 = .negInf)
    (massive : 0 < Exact.mass (found.map (·.2))) {M : Marginal Value Exact}
    (made : ofLogWeights (found.map (·.1)) (found.map (·.2)) normalization samples diagnostics = .ok M) :
    M.normalization = normalization ∧ ∀ v k, v.key = .ok k →
      M.prob v = .ok (.real (massOf k found / Exact.mass (found.map (·.2)))) := by
  obtain ⟨gs, grouped, rfl⟩ := ofLogWeights_made finite massive made
  refine ⟨rfl, fun v k known => ?_⟩
  rw [prob, grouped.score_eq known]
  exact congrArg Except.ok (Exact.exp_ofMass (div_nonneg (Exact.mass_nonneg _) massive.le))

end

end Marginal

end ProbCore
