import ProbCore.Proofs.Chances
import ProbCore.Proofs.Prospects
import ProbCore.Proofs.ScoreLaws

/-! Exhaustive search loses no mass. Where a program chooses by the distributions over finitely many values,
the executions that come of a choice have together the mass that the execution had before it: branches that
are pruned had none. Without factors, all executions have the mass one. -/

namespace ProbCore

open Enumeration

variable {κ : Type} {laws : Densities Dist Exact} {P : PlainProgram κ Dist Exact} {s : Store}

/-- The program makes all its choices by such distributions, with parameters that suit them. -/
def ByChance (laws : Densities Dist Exact) (P : PlainProgram κ Dist Exact) (s : Store) : Prop :=
  ∀ s' k a d, Comes laws P s (.sample s' k a d) → ∃ c, d.chance? = some c ∧ c.Valid

/-- No factor raises the score. -/
def Lowered (laws : Densities Dist Exact) (P : PlainProgram κ Dist Exact) (s : Store) : Prop :=
  ∀ s' k a x, Comes laws P s (.factor s' k a x) → Score.Sunk x

def Factorless (laws : Densities Dist Exact) (P : PlainProgram κ Dist Exact) (s : Store) : Prop :=
  ∀ s' k a x, ¬ Comes laws P s (.factor s' k a x)

theorem mass_flatMap (branches : List (Value × Exact)) (f : Value × Exact → List (Value × Exact)) :
    Exact.mass (((branches.filter possible).flatMap f).map (·.2)) =
      (branches.map fun b => if possible b then Exact.mass ((f b).map (·.2)) else 0).sum := by
  induction branches with
  | nil => rfl
  | cons b branches ih =>
    cases light : possible b with
    | true =>
      rw [List.filter_cons_of_pos light, List.flatMap_cons, List.map_append, Exact.mass_append, ih, List.map_cons,
        List.sum_cons, if_pos light]
    | false =>
      rw [List.filter_cons_of_neg (by simp [light]), ih, List.map_cons, List.sum_cons, light,
        if_neg Bool.false_ne_true, zero_add]

/-- The mass of the executions from a running score on. -/
structure Conserves (lossless : Prop) (found : List (Value × Exact)) (x : ℝ) : Prop where
  scored : ∀ e ∈ found, e.2.IsReal
  bounded : Exact.mass (found.map (·.2)) ≤ Real.exp x
  exact : lossless → Exact.mass (found.map (·.2)) = Real.exp x

theorem Conserves.choice {lossless : Prop} {branches : List (Value × Exact)} {x : ℝ}
    {f : Value × Exact → List (Value × Exact)} (finite : ∀ b ∈ branches, b.2.IsReal ∨ b.2 = .negInf)
    (whole : Exact.mass (branches.map (·.2)) = 1)
    (each : ∀ b ∈ branches, ∀ l, b.2 = .real l → Conserves lossless (f b) (x + l)) :
    Conserves lossless ((branches.filter possible).flatMap f) x := by
  have shared : (branches.map fun b => Real.exp x * b.2.weight).sum = Real.exp x := by
    have total : (branches.map fun b => b.2.weight).sum = 1 := by
      rw [← whole, Exact.mass, List.map_map]
      rfl
    rw [List.sum_map_mul_left, total, mul_one]
  have cases_on {b : Value × Exact} (member : b ∈ branches) :
      (∃ l, b.2 = .real l ∧ possible b = true ∧ Real.exp x * b.2.weight = Real.exp (x + l)) ∨
        possible b = false ∧ Real.exp x * b.2.weight = 0 := by
    rcases finite b member with ⟨l, known⟩ | known
    · refine .inl ⟨l, known, by rw [possible, known]; rfl, ?_⟩
      rw [known, Exact.weight, Real.exp_add]
    · refine .inr ⟨by rw [possible, known]; rfl, ?_⟩
      rw [known]
      exact mul_zero _
  refine ⟨fun e inside => ?_, ?_, fun kept => ?_⟩
  · obtain ⟨b, chosen, inside⟩ := List.mem_flatMap.mp inside
    obtain ⟨member, heavy⟩ := List.mem_filter.mp chosen
    rcases cases_on member with ⟨l, known, _⟩ | ⟨light, _⟩
    · exact (each b member l known).scored e inside
    · exact absurd (heavy.symm.trans light) Bool.false_ne_true.symm
  · rw [mass_flatMap, ← shared]
    refine List.sum_le_sum fun b member => ?_
    rcases cases_on member with ⟨l, known, heavy, share⟩ | ⟨light, share⟩
    · rw [if_pos heavy, share]
      exact (each b member l known).bounded
    · rw [light, if_neg Bool.false_ne_true, share]
  · rw [mass_flatMap, ← shared]
    refine congrArg List.sum (List.map_congr_left fun b member => ?_)
    rcases cases_on member with ⟨l, known, heavy, share⟩ | ⟨light, share⟩
    · rw [if_pos heavy, share]
      exact (each b member l known).exact kept
    · rw [light, if_neg Bool.false_ne_true, share]

/-- What unfolds from a step keeps the mass that the execution has there, but for what factors take. -/
theorem executions_conserve (textbook : Textbook laws) (byChance : ByChance laws P s) (lowered : Lowered laws P s)
    {score : Exact} {step : Step κ Dist Exact} {tree : ExecutionTree Exact}
    (unfolds : Unfolds laws P score step tree) {x : ℝ} (scored : score = .real x) (comes : Comes laws P s step) :
    Conserves (Factorless laws P s) (tree.executions score) x := by
  induction unfolds generalizing x with
  | @exit score s' v =>
    subst scored
    have mass : Exact.mass [Exact.real x] = Real.exp x := by simp [Exact.weight]
    exact ⟨List.forall_mem_singleton.mpr ⟨x, rfl⟩, mass.le, fun _ => mass⟩
  | @factor score s' k a y next rest resumes _ ih =>
    subst scored
    obtain ⟨low, number⟩ := lowered s' k a y comes
    rw [Exact.zero_eq] at low
    cases y with
    | real y =>
      have below : y ≤ 0 := not_lt.mp (of_decide_eq_false low)
      have going : Score.isHopeless (Exact.real x + .real y) = false := rfl
      have kept := ih going rfl (comes.absorb rfl (resumes going))
      rw [ExecutionTree.executions, going]
      refine ⟨kept.scored, kept.bounded.trans (Real.exp_le_exp.mpr (by linarith)), fun none_there => ?_⟩
      exact absurd comes (none_there s' k a _)
    | negInf =>
      have stuck : Score.isHopeless (Exact.real x + .negInf) = true := rfl
      rw [ExecutionTree.executions, stuck]
      exact ⟨List.forall_mem_nil _, (Real.exp_pos x).le, fun none_there => absurd comes (none_there s' k a _)⟩
    | posInf => cases low
    | nan => cases number
  | @choice score s' k a d branches next rest listed weighed resumes _ ih =>
    subst scored
    obtain ⟨c, known, valid⟩ := byChance s' k a d comes
    have branch := textbook.branch_eq known valid listed weighed
    have finite : ∀ b ∈ branches, b.2.IsReal ∨ b.2 = .negInf := by
      intro b member
      rw [branch b member]
      exact Exact.ofMass_finite _
    refine .choice finite (textbook.mass_eq_one known valid listed weighed) fun b member l real => ?_
    have heavy : possible b = true := by rw [possible, real]; rfl
    have found : Listed laws d b.1 :=
      ⟨_, _, listed, List.mem_map_of_mem member, weighed b member, by rw [real]; rfl⟩
    exact ih b member heavy (by rw [real, Exact.real_add]) (comes.choose found (resumes b member heavy))

/-- With densities as textbooks have them, each distribution lists the values that may come without repeating
one, and their probabilities add up to one. If a program with a finite tree of executions makes all its choices
by such distributions, and no factor raises the score, the executions that an exhaustive search records have
together a mass of at most one, and of one if there are no factors. The logarithm of this mass is the constant
that the search reports. -/
theorem mass_conserved {σ κ : Type} [Host (EStateM Failure σ) Dist Exact] [LawfulHost σ Dist Exact]
    (textbook : Textbook (LawfulHost.densities σ)) :
    let laws := LawfulHost.densities σ
    (∀ d c, d.chance? = some c → c.Valid →
      ∃ branches : List (Value × Exact), d.support = .ok (branches.map (·.1)) ∧
        (∀ b ∈ branches, laws.logDensity d b.1 = .ok b.2) ∧
        (branches.map (·.1)).Pairwise (fun v v' => (v == v') = false) ∧ Exact.mass (branches.map (·.2)) = 1) ∧
    ∀ (resume : Resume (EStateM Failure σ) κ Dist Exact) (P : PlainProgram κ Dist Exact) inside s step tree,
      Performs resume P inside → P.next P.entry s .absent = .ok step → Unfolds laws P Score.zero step tree →
      ByChance laws P s → Lowered laws P s →
      ∃ n, ∀ fuel ≥ n, ∀ t, ∃ st, Returns (search resume fuel ⟨t, none⟩ P.entry s) st ∧
        st.found.Perm (tree.executions 0) ∧
        let total := Exact.mass (st.found.map (·.2))
        total ≤ 1 ∧ (Factorless laws P s → total = 1) ∧
        (∀ M, CanReturn (estimate resume fuel ⟨t, none⟩ P.entry s) M →
          ∃ z ≤ 0, M.normalization = some (.real z) ∧ (Factorless laws P s → z = 0)) ∧
        (st.found ≠ [] → (∀ e ∈ st.found, ∃ k, e.1.key = .ok k) →
          ∃ M, Returns (estimate resume fuel ⟨t, none⟩ P.entry s) M) := by
  refine ⟨fun d c known valid => ?_, fun resume P inside s step tree performs begins unfolds byChance lowered => ?_⟩
  · have listed := textbook.lists known
    have weighed := textbook.weighs known valid
    refine ⟨c.branches, ?_, weighed, ?_, textbook.mass_eq_one known valid listed weighed⟩
    · rw [← textbook.support_eq, listed]
    · rw [c.branches_fst]
      exact c.values_distinct
  have has : HasTree resume P.entry s tree := ⟨P, inside, step, performs, rfl, begins, unfolds⟩
  have kept := executions_conserve textbook byChance lowered unfolds Exact.zero_eq (.start begins)
  rw [Exact.zero_eq] at kept
  obtain ⟨scored, bounded, exact⟩ := kept
  rw [Real.exp_zero] at bounded exact
  obtain ⟨n, records⟩ := search_records has
  obtain ⟨m, shares⟩ := estimate_shares has scored
  refine ⟨max n m, fun fuel enough t => ?_⟩
  obtain ⟨st, searched, counted, _, same⟩ := records fuel (le_trans (le_max_left n m) enough) t
  obtain ⟨reported, succeeds⟩ := shares fuel (le_trans (le_max_right n m) enough) t
  rw [Exact.zero_eq] at same
  have total : Exact.mass (st.found.map (·.2)) = Exact.mass ((tree.executions 0).map (·.2)) :=
    Exact.mass_perm (same.map (·.2))
  refine ⟨st, searched, same, total.trans_le bounded, fun none_there => total.trans (exact none_there), ?_, ?_⟩
  · intro M returned
    obtain ⟨constant, _⟩ := reported M returned
    refine ⟨_, Real.log_nonpos (Exact.mass_nonneg _) bounded, constant, fun none_there => ?_⟩
    rw [exact none_there, Real.log_one]
  · intro some_found keyed
    refine succeeds (fun empty => some_found ?_) fun e member => keyed e (same.mem_iff.mpr member)
    exact (empty ▸ same).eq_nil

section

/-- The densities of textbooks. -/
noncomputable def textbookDensities : Densities Dist Exact where
  enumerable := Dist.enumerable
  support := Dist.support
  logDensity d v :=
    match d.chance?.bind (·.probability? v) with
    | some p => .ok (Exact.ofMass p)
    | none => .error .illTyped

theorem textbookDensities_textbook : Textbook textbookDensities where
  support_eq _ := rfl
  logDensity_eq {d c v p} known _ likely := by
    rw [textbookDensities]
    dsimp only
    rw [known, Option.bind_some, likely]

/-- One of three, the second of which has no weight. -/
def unevenDie : Dist := .standard .categorical [.list [.int 1, .int 0, .int 3]]

noncomputable def unevenChance : Chance := .categorical [(1 : Int), (0 : Int), (3 : Int)]

theorem unevenChance_valid : unevenChance.Valid := by
  simp [unevenChance, Chance.Valid]
  norm_num

def coin : Dist := .standard .flip []

noncomputable def coinChance : Chance := .flip 2⁻¹

theorem coinChance_valid : coinChance.Valid := by
  norm_num [coinChance, Chance.Valid]

/-- What follows the die: a coin is tossed if the last of three came. -/
def dieRest (v : Value) (s : Store) : Step Nat Dist Exact :=
  if v == .int 2 then .sample s 2 .root coin else .exit s v

def dieThenCoin : PlainProgram Nat Dist Exact where
  entry := 0
  next
    | 0, s, _ => .ok (.sample s 1 .root unevenDie)
    | 1, s, v => .ok (dieRest v s)
    | _, s, v => .ok (.exit s v)

noncomputable abbrev dieThenCoinRuns : Resume (EStateM Failure (Script textbookDensities)) Nat Dist Exact :=
  dieThenCoin.resume

noncomputable def dieRestTree (v : Value) : ExecutionTree Exact :=
  if v == .int 2 then .choice coinChance.branches .leaf else .leaf v

noncomputable def dieThenCoinTree : ExecutionTree Exact := .choice unevenChance.branches dieRestTree

theorem dieThenCoin_next {k : Nat} {s : Store} {v : Value} {step : Step Nat Dist Exact}
    (goes : dieThenCoin.next k s v = .ok step) :
    step = .sample s 1 .root unevenDie ∨ step = .sample s 2 .root coin ∨ step = .exit s v := by
  unfold dieThenCoin at goes
  dsimp only at goes
  split at goes
  · exact .inl (Except.ok.inj goes).symm
  · obtain rfl := Except.ok.inj goes
    unfold dieRest
    split
    · exact .inr (.inl rfl)
    · exact .inr (.inr rfl)
  · exact .inr (.inr (Except.ok.inj goes).symm)

theorem dieThenCoin_unfolds :
    Unfolds textbookDensities dieThenCoin Score.zero (.sample .empty 1 .root unevenDie) dieThenCoinTree := by
  have lists {d : Dist} {c : Chance} (known : d.chance? = some c) := textbookDensities_textbook.lists known
  have weighs {d : Dist} {c : Chance} (known : d.chance? = some c) (valid : c.Valid) :=
    textbookDensities_textbook.weighs known valid
  have tossed (score : Exact) : Unfolds textbookDensities dieThenCoin score (.sample .empty 2 .root coin)
      (.choice coinChance.branches .leaf) := by
    let next (v : Value) : Step Nat Dist Exact := .exit .empty v
    exact @Unfolds.choice _ _ _ _ _ _ _ _ _ _ _ _ next _ (lists rfl) (weighs rfl coinChance_valid)
      (fun _ _ _ => rfl) fun _ _ _ => .exit
  refine @Unfolds.choice _ _ _ _ _ _ _ _ _ _ _ _ (dieRest · .empty) _ (lists rfl) (weighs rfl unevenChance_valid)
    (fun _ _ _ => rfl) fun b _ _ => ?_
  unfold dieRest dieRestTree
  split
  · exact tossed _
  · exact .exit

theorem dieThenCoin_byChance : ByChance textbookDensities dieThenCoin .empty := by
  intro s k a d comes
  obtain ⟨_, _, _, goes⟩ := comes.next
  rcases dieThenCoin_next goes with same | same | same
  · cases same
    exact ⟨unevenChance, rfl, unevenChance_valid⟩
  · cases same
    exact ⟨coinChance, rfl, coinChance_valid⟩
  · cases same

theorem dieThenCoin_factorless : Factorless textbookDensities dieThenCoin .empty := by
  intro s k a x comes
  obtain ⟨_, _, _, goes⟩ := comes.next
  rcases dieThenCoin_next goes with same | same | same <;> cases same

theorem dieThenCoin_keyed : ∀ e ∈ dieThenCoinTree.executions 0, ∃ k, e.1.key = .ok k := by
  intro e member
  obtain ⟨b, chosen, inside⟩ := List.mem_flatMap.mp member
  obtain ⟨v, came, rfl⟩ := List.mem_map.mp (List.mem_filter.mp chosen).1
  obtain ⟨k, _, rfl⟩ := Chance.mem_counting.mp came
  unfold dieRestTree at inside
  split at inside
  next =>
    obtain ⟨b, chosen, inside⟩ := List.mem_flatMap.mp inside
    obtain ⟨v, came, rfl⟩ := List.mem_map.mp (List.mem_filter.mp chosen).1
    obtain rfl := List.mem_singleton.mp inside
    rcases List.mem_cons.mp came with rfl | came
    · exact ⟨_, rfl⟩
    · obtain rfl := List.mem_singleton.mp came
      exact ⟨_, rfl⟩
  next =>
    obtain rfl := List.mem_singleton.mp inside
    exact ⟨_, rfl⟩

/-- The three executions of the die and the coin have together the mass one, though a face without weight is
pruned. -/
theorem dieThenCoin_conserved :
    Textbook textbookDensities ∧ ∃ n, ∀ fuel ≥ n, ∀ t,
      (∃ st, Returns (search dieThenCoinRuns fuel ⟨t, none⟩ 0 .empty) st ∧ Exact.mass (st.found.map (·.2)) = 1) ∧
      ∃ M, Returns (estimate dieThenCoinRuns fuel ⟨t, none⟩ 0 .empty) M ∧ M.normalization = some (.real 0) := by
  refine ⟨textbookDensities_textbook, ?_⟩
  have lowered : Lowered textbookDensities dieThenCoin .empty :=
    fun s k a x comes => absurd comes (dieThenCoin_factorless s k a x)
  obtain ⟨n, conserved⟩ := (mass_conserved (σ := Script textbookDensities) textbookDensities_textbook).2
    dieThenCoinRuns dieThenCoin _ .empty _ _ dieThenCoin.resume_performs rfl dieThenCoin_unfolds
    dieThenCoin_byChance lowered
  refine ⟨n, fun fuel enough t => ?_⟩
  obtain ⟨st, searched, same, _, whole, reported, succeeds⟩ := conserved fuel enough t
  have whole := whole dieThenCoin_factorless
  have some_found : st.found ≠ [] := by
    intro empty
    rw [empty] at whole
    exact zero_ne_one whole
  obtain ⟨M, returned⟩ := succeeds some_found fun e member => dieThenCoin_keyed e (same.mem_iff.mp member)
  obtain ⟨z, _, constant, none_lost⟩ := reported M returned.canReturn
  rw [none_lost dieThenCoin_factorless] at constant
  exact ⟨⟨st, searched, whole⟩, M, returned, constant⟩

end

end ProbCore
