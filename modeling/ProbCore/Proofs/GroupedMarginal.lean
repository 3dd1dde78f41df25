import ProbCore.Proofs.Likelihood
import ProbCore.Proofs.MarginalMass
import ProbCore.Proofs.TotalWeight

/-! What a marginal makes of weighted values. It lists each value once, where it first came, and gives it
its share of the mass. In another order the same weighted values make the same marginal, but for the order
of its values and which one stands for those that are grouped together. -/

namespace ProbCore

namespace Value

mutual

/-- No float that is no number is part of what a value is grouped by. -/
def numeric : Value → Bool
  | float x => !x.isNaN
  | tuple xs | address xs => allNumeric xs
  | index p => numeric p
  | _ => true

def allNumeric : List Value → Bool
  | [] => true
  | x :: xs => numeric x && allNumeric xs

end

theorem quantity_known {x : Float} (number : x.isNaN = false) : (Decimal.quantity? x).isSome = true := by
  have number : x.toModel.unpack.isNaN = false := number
  unfold Decimal.quantity?
  cases shape : x.toModel.unpack with
  | notANumber =>
    rw [shape] at number
    cases number
  | infinity s | zero s | finite s m e positive => rfl

mutual

theorem ident_known {v : Value} (hashable : v.isHashable = true) (numeric : v.numeric = true) :
    v.ident?.isSome = true := by
  cases v with
  | absent | bool | int | undefined | text | function => rfl
  | float x =>
    rw [Value.numeric, Bool.not_eq_true'] at numeric
    rw [ident?, Option.isSome_map]
    exact quantity_known numeric
  | tuple xs | address xs =>
    rw [ident?, Option.isSome_map]
    exact idents_known hashable numeric
  | index p =>
    rw [ident?, Option.isSome_map]
    exact ident_known hashable numeric
  | list | dict | tensor | marginal | memo => cases hashable

theorem idents_known {vs : List Value} (hashable : allHashable vs = true) (numeric : allNumeric vs = true) :
    (idents? vs).isSome = true := by
  cases vs with
  | nil => rfl
  | cons v vs =>
    rw [allHashable, Bool.and_eq_true] at hashable
    rw [allNumeric, Bool.and_eq_true] at numeric
    obtain ⟨i, first⟩ := Option.isSome_iff_exists.mp (ident_known hashable.1 numeric.1)
    rw [idents?, first, Option.bind_some, Option.isSome_map]
    exact idents_known hashable.2 numeric.2

end

mutual

theorem key_known {v : Value} {k : Key} (known : v.key = .ok k) (numeric : v.numeric = true) :
    k.ident?.isSome = true := by
  cases v with
  | tuple xs =>
    rw [key] at known
    obtain ⟨ks, parts, rfl⟩ := map_eq_ok known
    rw [Key.ident?, Option.isSome_map]
    exact keys_known parts numeric
  | memo table name =>
    cases known
    rfl
  | _ =>
    simp only [key] at known
    split at known
    next hashable =>
      cases known
      rw [atom_ident? hashable, Option.isSome_map]
      exact ident_known hashable numeric
    next =>
      obtain ⟨s, _, rfl⟩ := map_eq_ok known
      rfl

theorem keys_known {vs : List Value} {ks : List Key} (known : keys vs = .ok ks)
    (numeric : allNumeric vs = true) : (Key.idents? ks).isSome = true := by
  cases vs with
  | nil =>
    cases known
    rfl
  | cons v vs =>
    rw [keys] at known
    rw [allNumeric, Bool.and_eq_true] at numeric
    cases first : v.key with
    | error e =>
      rw [first] at known
      cases known
    | ok k =>
      rw [first] at known
      obtain ⟨ks, rest, rfl⟩ := map_eq_ok (f := (k :: ·)) known
      obtain ⟨i, same⟩ := Option.isSome_iff_exists.mp (key_known first numeric.1)
      rw [Key.idents?, same, Option.bind_some, Option.isSome_map]
      exact keys_known rest numeric.2

end

/-- A value that can be grouped. -/
def Groupable (v : Value) : Prop := (∃ k, v.key = .ok k) ∧ v.numeric = true

theorem Groupable.known {v : Value} (groupable : v.Groupable) : ∃ i, v.identity? = some i := by
  obtain ⟨⟨k, known⟩, numeric⟩ := groupable
  rw [identity?, known]
  exact Option.isSome_iff_exists.mp (key_known known numeric)

theorem Groupable.sameKey_self {v : Value} (groupable : v.Groupable) : v.sameKey v = true := by
  obtain ⟨i, known⟩ := groupable.known
  exact (sameKey_iff v v).mpr ⟨i, known, known⟩

theorem sameKey_iff_identity {v w : Value} (groupable : v.Groupable) :
    v.sameKey w = true ↔ v.identity? = w.identity? := by
  obtain ⟨i, known⟩ := groupable.known
  rw [sameKey_iff]
  constructor
  · rintro ⟨j, here, there⟩
    exact here.trans there.symm
  · intro same
    exact ⟨i, known, same ▸ known⟩

end Value

section

variable {α : Type} {r : α → α → Bool} {xs : List α} {x : α}

theorem mem_of_mem_eraseDupsBy (listed : x ∈ xs.eraseDupsBy r) : x ∈ xs := by
  induction xs using List.reverseRecOn with
  | nil => exact listed
  | append_singleton xs y ih =>
    rw [Marginal.eraseDupsBy_concat] at listed
    split at listed
    next => exact List.mem_append_left _ (ih listed)
    next =>
      rcases List.mem_append.mp listed with earlier | last
      · exact List.mem_append_left _ (ih earlier)
      · exact List.mem_append_right _ last

theorem exists_eraseDupsBy (member : x ∈ xs) (itself : r x x = true) : ∃ y ∈ xs.eraseDupsBy r, r x y = true := by
  induction xs using List.reverseRecOn with
  | nil => cases member
  | append_singleton xs y ih =>
    rw [Marginal.eraseDupsBy_concat]
    rcases List.mem_append.mp member with earlier | last
    · obtain ⟨z, listed, same⟩ := ih earlier
      split
      next => exact ⟨z, listed, same⟩
      next => exact ⟨z, List.mem_append_left _ listed, same⟩
    · obtain rfl := List.mem_singleton.mp last
      split
      next known => exact List.any_eq_true.mp known
      next => exact ⟨x, List.mem_append_right _ last, itself⟩

end

namespace Marginal

open Value (Key)

/-- Each value once, where it first came, with its share of the mass. -/
structure Normalizes (M : Marginal Value Exact) (found : List (Value × Exact)) : Prop where
  values : M.values = (found.map (·.1)).eraseDupsBy Value.sameKey
  distinct : M.values.Pairwise fun v w => v.sameKey w = false
  aligned : M.logProbs.length = M.values.length
  prob : ∀ v k, v.key = .ok k →
    M.prob v = .ok (.real (massOf k found / Exact.mass (found.map (·.2))))
  score : ∀ (i : Nat) v lp, M.values[i]? = some v → M.logProbs[i]? = some lp → M.score v = .ok lp
  whole : Score.sum (M.logProbs.map Score.exp) = .real 1

/-- The same values with the same log probabilities, but for their order and for which value stands for
those that are grouped together. -/
def Reorders (M' M : Marginal Value Exact) : Prop :=
  ∃ listed, listed.Perm (M.values.zip M.logProbs) ∧
    List.Forall₂ (fun p q => p.1.sameKey q.1 = true ∧ p.2 = q.2) (M'.values.zip M'.logProbs) listed

section

variable {found others : List (Value × Exact)} {gs : List (Group Exact)}

/-- Grouping the weights does not change their total, whatever they are. -/
theorem Grouped.logSumExp_flat (grouped : Grouped gs found) :
    Score.logSumExp (gs.map Group.total) = Score.logSumExp (found.map (·.2)) := by
  rcases Exact.weights_cases (found.map (·.2)) with spoilt | ⟨unbounded, numbers⟩ | finite
  · obtain ⟨g, member, inside⟩ := grouped.mem_weights.mp spoilt
    rw [Exact.logSumExp_nan spoilt]
    exact Exact.logSumExp_nan (List.mem_map.mpr ⟨g, member, Exact.logSumExp_nan inside⟩)
  · have clean {g : Group Exact} (member : g ∈ gs) : .nan ∉ g.weights :=
      fun inside => numbers (grouped.mem_weights.mpr ⟨g, member, inside⟩)
    obtain ⟨g, member, inside⟩ := grouped.mem_weights.mp unbounded
    rw [Exact.logSumExp_posInf unbounded numbers]
    apply Exact.logSumExp_posInf
    · exact List.mem_map.mpr ⟨g, member, Exact.logSumExp_posInf inside (clean member)⟩
    · intro spoilt
      obtain ⟨h, present, total⟩ := List.mem_map.mp spoilt
      unfold Group.total at total
      rcases Exact.weights_cases h.weights with spoilt | ⟨unbounded, numbers⟩ | finite
      · exact clean present spoilt
      · rw [Exact.logSumExp_posInf unbounded numbers] at total
        cases total
      · rw [Exact.logSumExp_ofMass finite] at total
        rcases Exact.ofMass_finite (Exact.mass h.weights) with ⟨x, known⟩ | known
        all_goals
          rw [known] at total
          cases total
  · rw [grouped.logSumExp_eq (List.forall_mem_map.mp finite), Exact.logSumExp_ofMass finite]

theorem not_finite_iff (ws : List Exact) :
    Score.isFinite (Score.logSumExp ws) = false ↔ (∀ w ∈ ws, w = .negInf) ∨ .posInf ∈ ws ∨ .nan ∈ ws := by
  rw [← Bool.not_eq_true, Exact.isFinite_logSumExp_iff]
  constructor
  · intro fails
    rcases Exact.weights_cases ws with spoilt | ⟨unbounded, _⟩ | finite
    · exact .inr (.inr spoilt)
    · exact .inr (.inl unbounded)
    · refine .inl fun w member => (finite w member).resolve_left fun real => ?_
      exact fails ⟨finite, w, member, real⟩
  · rintro (dead | unbounded | spoilt) ⟨finite, w, member, x, rfl⟩
    · cases dead _ member
    · rcases finite _ unbounded with ⟨y, same⟩ | same <;> cases same
    · rcases finite _ spoilt with ⟨y, same⟩ | same <;> cases same

variable {normalization : Option Exact} {samples : List Value} {diagnostics : List (String × Measure Exact)}

/-- There is no marginal exactly if nothing has weight, or a weight is no number or without bound. -/
theorem noMass_iff (keyed : ∀ p ∈ found, p.1.Groupable) :
    ofLogWeights (found.map (·.1)) (found.map (·.2)) normalization samples diagnostics =
        .error (.inference .noMass) ↔
      (∀ w ∈ found.map (·.2), w = .negInf) ∨ .posInf ∈ found.map (·.2) ∨ .nan ∈ found.map (·.2) := by
  obtain ⟨gs, built⟩ := groups_succeed fun p member => (keyed p member).1
  rw [ofLogWeights_eq built, (groups_grouped built).logSumExp_flat, ← not_finite_iff]
  dsimp only
  split
  next finite =>
    rw [finite]
    exact iff_of_false nofun nofun
  next spent => exact iff_of_true rfl (Bool.eq_false_iff.mpr spent)

theorem find?_self (distinct : (gs.map Group.head).Pairwise fun p q => (p.1 == q.1) = false) {g : Group Exact}
    (member : g ∈ gs) (itself : (g.key == g.key) = true) : gs.find? (·.key == g.key) = some g := by
  induction gs with
  | nil => cases member
  | cons h gs ih =>
    obtain ⟨apart, distinct⟩ := List.pairwise_cons.mp distinct
    rcases List.mem_cons.mp member with rfl | later
    · exact List.find?_cons_of_pos itself
    · rw [List.find?_cons_of_neg]
      · exact ih distinct later
      · have other : (h.key == g.key) = false := apart g.head (List.mem_map_of_mem later)
        rw [other]
        exact Bool.false_ne_true

theorem sum_masses (gs : List (Group Exact)) :
    (gs.map fun g => Exact.mass g.weights).sum = Exact.mass (gs.flatMap (·.weights)) := by
  induction gs with
  | nil => rfl
  | cons g gs ih => rw [List.map_cons, List.sum_cons, ih, List.flatMap_cons, Exact.mass_append]

theorem Grouped.sum_shares (grouped : Grouped gs found) (massive : 0 < Exact.mass (found.map (·.2))) :
    (gs.map fun g => Exact.mass g.weights / Exact.mass (found.map (·.2))).sum = 1 := by
  simp only [div_eq_mul_inv]
  rw [List.sum_map_mul_right, sum_masses, Exact.mass_perm grouped.weights, mul_inv_cancel₀ massive.ne']

theorem Grouped.normalizes (grouped : Grouped gs found) (keyed : ∀ p ∈ found, p.1.Groupable)
    (massive : 0 < Exact.mass (found.map (·.2))) :
    Normalizes ⟨gs.map (·.value), gs.map fun g => Exact.ofMass (Exact.mass g.weights / Exact.mass (found.map (·.2))),
      normalization, samples, diagnostics⟩ found := by
  constructor
  case values => exact grouped.firsts
  case distinct =>
    refine List.pairwise_map.mpr ((List.pairwise_map.mp grouped.distinct).imp_of_mem ?_)
    intro g h here there apart
    rw [Value.sameKey_comm, Value.sameKey, grouped.key_eq here, grouped.key_eq there]
    exact apart
  case aligned => rw [List.length_map, List.length_map]
  case prob =>
    intro v k known
    rw [prob, grouped.score_eq known]
    exact congrArg Except.ok (Exact.exp_ofMass (div_nonneg (Exact.mass_nonneg _) massive.le))
  case score =>
    intro i v lp here there
    obtain ⟨g, present, rfl⟩ := Option.map_eq_some_iff.mp ((List.getElem?_map ..).symm.trans here)
    have member : g ∈ gs := List.mem_of_getElem? present
    rw [List.getElem?_map, present] at there
    obtain rfl := Option.some.inj there
    have listed : g.value ∈ (found.map (·.1)).eraseDupsBy Value.sameKey :=
      grouped.firsts ▸ List.mem_map_of_mem member
    obtain ⟨p, given, same⟩ := List.mem_map.mp (mem_of_mem_eraseDupsBy listed)
    have own := grouped.key_eq member
    have itself := (same ▸ keyed p given).sameKey_self
    rw [Value.sameKey, own] at itself
    have masses := grouped.masses g.key (Value.key_proper own)
    rw [grouped.weightsOf_eq (Value.key_proper own), find?_self grouped.distinct member itself] at masses
    rw [grouped.score_eq own, ← masses]
    rfl
  case whole =>
    have shares : (gs.map fun g => Exact.ofMass (Exact.mass g.weights / Exact.mass (found.map (·.2)))).map Score.exp =
        (gs.map fun g => Exact.mass g.weights / Exact.mass (found.map (·.2))).map Exact.real := by
      rw [List.map_map, List.map_map]
      refine List.map_congr_left fun g _ => ?_
      exact Exact.exp_ofMass (div_nonneg (Exact.mass_nonneg _) massive.le)
    rw [shares, Exact.sum_eq, Exact.sum_reals, grouped.sum_shares massive]

theorem massOf_congr {k l : Key} (left : k.Proper) (right : l.Proper) (same : (k == l) = true)
    (found : List (Value × Exact)) : massOf k found = massOf l found := by
  have alike (v : Value) : v.identifiedBy k = v.identifiedBy l := by
    unfold Value.identifiedBy
    cases known : v.key with
    | error e => rfl
    | ok m =>
      have proper := Value.key_proper known
      rw [Bool.eq_iff_iff]
      exact ⟨fun here => Key.beq_trans proper left right here same,
        fun here => Key.beq_trans proper right left here (Key.beq_symm left right same)⟩
  simp only [massOf, alike]

variable {M M' : Marginal Value Exact}

/-- What a marginal scores a value at. -/
def Scores (M : Marginal Value Exact) (found : List (Value × Exact)) : Prop :=
  ∀ v, M.score v = do
    let k ← v.key
    return Exact.ofMass (massOf k found / Exact.mass (found.map (·.2)))

theorem Scores.perm (scores : M.Scores found) (scores' : M'.Scores others) (same : others.Perm found) (v : Value) :
    M'.score v = M.score v := by
  rw [scores v, scores' v, Exact.mass_perm (same.map (·.2))]
  simp only [massOf_perm _ same]

theorem Scores.congr (scores : M.Scores found) {v w : Value} (same : v.sameKey w = true) : M.score v = M.score w := by
  rw [scores v, scores w]
  unfold Value.sameKey at same
  cases here : v.key with
  | error e =>
    rw [here] at same
    cases same
  | ok k =>
    cases there : w.key with
    | error e =>
      rw [here, there] at same
      cases same
    | ok l =>
      rw [here, there] at same
      change Except.ok _ = Except.ok _
      rw [massOf_congr (Value.key_proper there) (Value.key_proper here) same]

/-- What is listed of a value: what it is grouped by, and its log probability. -/
noncomputable def entry (p : Value × Exact) : Option Key.Ident × Exact := (p.1.identity?, p.2)

theorem Normalizes.mem_values (normalizes : M.Normalizes found) {v : Value} (listed : v ∈ M.values) :
    v ∈ found.map (·.1) :=
  mem_of_mem_eraseDupsBy (normalizes.values ▸ listed)

theorem Normalizes.entries_nodup (normalizes : M.Normalizes found) (keyed : ∀ p ∈ found, p.1.Groupable) :
    ((M.values.zip M.logProbs).map entry).Nodup := by
  have firsts : ((M.values.zip M.logProbs).map entry).map Prod.fst = M.values.map Value.identity? := by
    have values : (M.values.zip M.logProbs).map Prod.fst = M.values := List.map_fst_zip normalizes.aligned.ge
    conv_rhs => rw [← values, List.map_map]
    rw [List.map_map]
    rfl
  refine List.Nodup.of_map Prod.fst ?_
  rw [firsts]
  refine List.pairwise_map.mpr (normalizes.distinct.imp_of_mem ?_)
  intro v w here _ apart same
  obtain ⟨p, given, rfl⟩ := List.mem_map.mp (normalizes.mem_values here)
  rw [(Value.sameKey_iff_identity (keyed p given)).mpr same] at apart
  cases apart

/-- What is listed is there for some value that was found, with its score. -/
theorem Normalizes.mem_entries (normalizes : M.Normalizes found) (scores : M.Scores found)
    (keyed : ∀ p ∈ found, p.1.Groupable) {e : Option Key.Ident × Exact} :
    e ∈ (M.values.zip M.logProbs).map entry ↔
      ∃ v ∈ found.map (·.1), v.identity? = e.1 ∧ M.score v = .ok e.2 := by
  constructor
  · intro listed
    obtain ⟨⟨v, lp⟩, present, rfl⟩ := List.mem_map.mp listed
    obtain ⟨i, place⟩ := List.mem_iff_getElem?.mp present
    obtain ⟨here, there⟩ := List.getElem?_zip_eq_some.mp place
    exact ⟨v, normalizes.mem_values (List.mem_of_getElem? here), rfl, normalizes.score i v lp here there⟩
  · rintro ⟨v, given, same, score⟩
    obtain ⟨p, member, rfl⟩ := List.mem_map.mp given
    obtain ⟨w, listed, alike⟩ := exists_eraseDupsBy given (keyed p member).sameKey_self
    rw [← normalizes.values] at listed
    obtain ⟨i, here⟩ := List.mem_iff_getElem?.mp listed
    have inside : i < M.logProbs.length := normalizes.aligned ▸ (List.getElem?_eq_some_iff.mp here).1
    have there := List.getElem?_eq_getElem inside
    have scored := normalizes.score i w _ here there
    rw [← scores.congr alike, score] at scored
    refine List.mem_map.mpr ⟨(w, M.logProbs[i]), List.mem_of_getElem? (List.getElem?_zip_eq_some.mpr ⟨here, there⟩), ?_⟩
    rw [entry, ← Except.ok.inj scored, ← (Value.sameKey_iff_identity (keyed p member)).mp alike, same]

theorem Normalizes.reorders (normalizes : M.Normalizes found) (scores : M.Scores found)
    (normalizes' : M'.Normalizes others) (scores' : M'.Scores others) (same : others.Perm found)
    (keyed : ∀ p ∈ found, p.1.Groupable) : M'.Reorders M := by
  have keyed' : ∀ p ∈ others, p.1.Groupable := fun p member => keyed p (same.mem_iff.mp member)
  have entries : ((M'.values.zip M'.logProbs).map entry).Perm ((M.values.zip M.logProbs).map entry) := by
    refine (List.perm_ext_iff_of_nodup (normalizes'.entries_nodup keyed') (normalizes.entries_nodup keyed)).mpr
      fun e => ?_
    rw [normalizes.mem_entries scores keyed, normalizes'.mem_entries scores' keyed']
    simp only [(same.map (·.1)).mem_iff, scores.perm scores' same]
  have itself : List.Forall₂ (fun e p => e = entry p) ((M.values.zip M.logProbs).map entry)
      (M.values.zip M.logProbs) :=
    List.forall₂_map_left_iff.mpr (List.forall₂_same.mpr fun _ _ => rfl)
  obtain ⟨listed, held, order⟩ := List.perm_comp_forall₂ entries itself
  refine ⟨listed, order, ?_⟩
  have groupable : ∀ q ∈ M'.values.zip M'.logProbs, q.1.Groupable := by
    rintro ⟨v, lp⟩ present
    obtain ⟨p, given, rfl⟩ := List.mem_map.mp (normalizes'.mem_values (List.of_mem_zip present).1)
    exact keyed' p given
  refine ((List.forall₂_and_left _ _).mpr ⟨groupable, List.forall₂_map_left_iff.mp held⟩).imp ?_
  rintro q p ⟨groupable, alike⟩
  obtain ⟨same, equal⟩ := Prod.mk.inj alike
  exact ⟨(Value.sameKey_iff_identity groupable).mpr same, equal⟩

theorem ofLogWeights_normalizes (keyed : ∀ p ∈ found, p.1.Groupable)
    (finite : ∀ p ∈ found, p.2.IsReal ∨ p.2 = .negInf) (heavy : ∃ p ∈ found, p.2.IsReal) :
    ∃ M, ofLogWeights (found.map (·.1)) (found.map (·.2)) normalization samples diagnostics = .ok M ∧
      M.Normalizes found ∧ M.Scores found := by
  obtain ⟨p, member, real⟩ := heavy
  have massive : 0 < Exact.mass (found.map (·.2)) :=
    Exact.mass_pos_of_real ⟨p.2, List.mem_map_of_mem member, real⟩
  obtain ⟨M, made⟩ := ofLogWeights_succeeds finite massive fun p member => (keyed p member).1
  obtain ⟨gs, grouped, rfl⟩ := ofLogWeights_made finite massive made
  refine ⟨_, made, grouped.normalizes keyed massive, fun v => ?_⟩
  cases known : v.key with
  | error e =>
    rw [score, known]
    rfl
  | ok k => exact grouped.score_eq known

end

theorem zip_pairs (values : List Value) (weights : List Exact) (same_length : values.length = weights.length) :
    ∃ found : List (Value × Exact), values.zip weights = found ∧ values = found.map (·.1) ∧
      weights = found.map (·.2) :=
  ⟨_, rfl, (List.map_fst_zip same_length.le).symm, (List.map_snd_zip same_length.ge).symm⟩

/-- The marginal of weighted values that can be grouped, in exact arithmetic. If no weight is without bound
or no number, and some is above the impossible, it lists each value where it first came, no two of them
grouped together, and gives every value the weights found for it over all weights; what is listed adds up to
one. Another order of the same pairs changes the order of the values and which of them stand for those that
are grouped together, but no score. Without a number of weights that matches there is no marginal, nor where
the total weight is zero or not finite. -/
theorem weights_normalized (normalization : Option Exact) (samples : List Value)
    (diagnostics : List (String × Measure Exact)) :
    (∀ values weights, values.length = weights.length → (∀ v ∈ values, v.Groupable) →
      (∀ w ∈ weights, w.IsReal ∨ w = .negInf) → (∃ w ∈ weights, w.IsReal) →
      ∃ M, ofLogWeights values weights normalization samples diagnostics = .ok M ∧
        M.Normalizes (values.zip weights) ∧
        ∀ values' weights', values'.length = weights'.length →
          (values'.zip weights').Perm (values.zip weights) →
          ∃ M', ofLogWeights values' weights' normalization samples diagnostics = .ok M' ∧
            M'.Reorders M ∧ ∀ v, M'.score v = M.score v) ∧
    (∀ values weights, values.length ≠ weights.length →
      ofLogWeights values weights normalization samples diagnostics = .error (.invalid .lengthMismatch)) ∧
    ∀ values weights, values.length = weights.length → (∀ v ∈ values, v.Groupable) →
      (ofLogWeights values weights normalization samples diagnostics = .error (.inference .noMass) ↔
        (∀ w ∈ weights, w = .negInf) ∨ .posInf ∈ weights ∨ .nan ∈ weights) := by
  refine ⟨?_, ?_, ?_⟩
  · intro values weights same_length keyed finite heavy
    obtain ⟨found, pairs, rfl, rfl⟩ := zip_pairs values weights same_length
    have keyed : ∀ p ∈ found, p.1.Groupable := List.forall_mem_map.mp keyed
    have finite : ∀ p ∈ found, p.2.IsReal ∨ p.2 = .negInf := List.forall_mem_map.mp finite
    obtain ⟨_, present, real⟩ := heavy
    obtain ⟨p, member, rfl⟩ := List.mem_map.mp present
    rw [pairs]
    obtain ⟨M, made, normalizes, scores⟩ := ofLogWeights_normalizes keyed finite ⟨p, member, real⟩
    refine ⟨M, made, normalizes, ?_⟩
    intro values' weights' same_length' order
    obtain ⟨others, pairs', rfl, rfl⟩ := zip_pairs values' weights' same_length'
    rw [pairs'] at order
    obtain ⟨M', made', normalizes', scores'⟩ := ofLogWeights_normalizes
      (fun p member => keyed p (order.mem_iff.mp member)) (fun p member => finite p (order.mem_iff.mp member))
      ⟨p, order.mem_iff.mpr member, real⟩
    exact ⟨M', made', normalizes.reorders scores normalizes' scores' order keyed, scores.perm scores' order⟩
  · intro values weights unlike
    unfold ofLogWeights
    rw [if_pos (bne_iff_ne.mpr unlike)]
    rfl
  · intro values weights same_length keyed
    obtain ⟨found, _, rfl, rfl⟩ := zip_pairs values weights same_length
    exact noMass_iff (List.forall_mem_map.mp keyed)

/-- Lists of one and of true stay apart, and the latter has no mass; without weight there is no marginal. -/
theorem one_beside_true :
    let one : Value := .list [.int 1]
    let truth : Value := .list [.bool true]
    (∃ M, ofLogWeights [one, truth, one] [.real 0, Exact.negInf, .real 0] none [] [] = .ok M ∧
      M.values = [one, truth] ∧ M.prob truth = .ok (.real 0) ∧
      ∃ M', ofLogWeights [truth, one, one] [Exact.negInf, .real 0, .real 0] none [] [] = .ok M' ∧
        M'.score one = M.score one) ∧
    ofLogWeights [one] [Exact.negInf, .negInf] none [] [] = .error (.invalid .lengthMismatch) ∧
    ofLogWeights [one] [Exact.negInf] none [] [] = .error (.inference .noMass) := by
  intro one truth
  obtain ⟨makes, unlike, fails⟩ := weights_normalized none [] []
  have keyed : one.Groupable ∧ truth.Groupable := ⟨⟨⟨_, rfl⟩, rfl⟩, ⟨_, rfl⟩, rfl⟩
  refine ⟨?_, unlike _ _ (by decide), (fails _ _ rfl ?_).mpr (.inl (by simp))⟩
  · obtain ⟨M, made, normalizes, moves⟩ := makes [one, truth, one] [.real 0, .negInf, .real 0] rfl
      (by simp [keyed]) (by simp [Exact.IsReal]) ⟨.real 0, List.mem_cons_self, 0, rfl⟩
    obtain ⟨M', made', _, scores⟩ := moves [truth, one, one] [.negInf, .real 0, .real 0] rfl (.swap ..)
    refine ⟨M, made, normalizes.values, ?_, M', made', scores _⟩
    have share := normalizes.prob truth (.written .list "[true]") rfl
    have nothing : massOf (.written .list "[true]")
        ([one, truth, one].zip [Exact.real 0, .negInf, .real 0]) = 0 := by
      change Exact.mass [.negInf] = 0
      rw [Exact.mass_cons, Exact.mass_nil, add_zero]
      rfl
    rw [share, nothing, zero_div]
  · simp [keyed]

/-- A list of a list and a list of a tuple are grouped together, and the first of them stands for both. -/
theorem representative_by_order :
    ∃ M M', ofLogWeights [.list [.tuple [.int 1]], .list [.list [.int 1]]] [Exact.real 0, Exact.real 0] none [] [] = .ok M ∧
      ofLogWeights [.list [.list [.int 1]], .list [.tuple [.int 1]]] [Exact.real 0, Exact.real 0] none [] [] = .ok M' ∧
      ¬ M'.values.Perm M.values := by
  have keyed : (Value.list [.tuple [.int 1]]).Groupable ∧ (Value.list [.list [.int 1]]).Groupable :=
    ⟨⟨⟨_, rfl⟩, rfl⟩, ⟨_, rfl⟩, rfl⟩
  have built (v w : Value) (left : v.Groupable) (right : w.Groupable) :=
    @ofLogWeights_normalizes [(v, Exact.real 0), (w, Exact.real 0)] none [] [] (by simp [left, right])
      (by simp [Exact.IsReal]) ⟨(v, Exact.real 0), List.mem_cons_self, 0, rfl⟩
  obtain ⟨M, made, normalizes, _⟩ := built _ _ keyed.1 keyed.2
  obtain ⟨M', made', normalizes', _⟩ := built _ _ keyed.2 keyed.1
  have first : M.values = [.list [.tuple [.int 1]]] := normalizes.values
  have first' : M'.values = [.list [.list [.int 1]]] := normalizes'.values
  refine ⟨M, M', made, made', ?_⟩
  rw [first, first', List.singleton_perm_singleton]
  exact nofun

end Marginal

end ProbCore
