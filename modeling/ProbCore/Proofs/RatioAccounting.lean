import ProbCore.Proofs.Redrawing
import ProbCore.Proofs.CarefulScript

/-! What the acceptance ratio of a proposal accounts for. Forward, it counts every value drawn
after the site. Backward, it counts the later choices of the old trace that give nothing to the
new one, except those at an address whose old value is spent anyhow: where an earlier choice of
the old trace is not redone, or gave its value. Such choices come with repeated addresses only. -/

namespace ProbCore

open Kernel

/-- Elements relate as they do to those before them. -/
theorem pairwise_of_parts {α : Type} {r : α → α → Prop} {xs : List α}
    (related : ∀ before x after, xs = before ++ x :: after → ∀ b ∈ before, r b x) : xs.Pairwise r := by
  induction xs using List.reverseRecOn with
  | nil => exact .nil
  | append_singleton xs x ih =>
    refine List.pairwise_append.mpr ⟨?_, List.pairwise_singleton .., ?_⟩
    · apply ih
      rintro before y after rfl
      exact related before y (after ++ [x]) (by simp)
    · intro b member y last
      obtain rfl := List.mem_singleton.mp last
      exact related xs y [] rfl b member

section

variable {κ D R : Type}

/-- The choices after a site with their places. -/
def Trace.places (t : Trace κ D R) (i : Nat) : List (Choice κ D R × Nat) := (t.after i).zipIdx (i + 1)

theorem Trace.mem_places {t : Trace κ D R} {i j : Nat} {c : Choice κ D R} :
    (c, j) ∈ t.places i ↔ i < j ∧ t.choices[j]? = some c := by
  rw [Trace.places, List.mk_mem_zipIdx_iff_le_and_getElem?_sub, Trace.after, List.getElem?_drop]
  refine and_congr_right fun later => ?_
  rw [Nat.add_sub_cancel' later]

namespace Kernel

def takes (ds : List (Decision κ D R)) (j : Nat) : Bool := ds.any (·.source == some j)

/-- The choices after the site of a trace whose values are not carried over. -/
def released (t : Trace κ D R) (i : Nat) (ds : List (Decision κ D R)) : List (Choice κ D R) :=
  ((t.places i).filter fun p => !takes ds p.2).map (·.1)

/-- Whether the old value at the address of a choice is spent: an earlier choice there is not
redone, or a value is carried over to there. -/
def shadowed (t : Trace κ D R) (i : Nat) (ds : List (Decision κ D R)) (c : Choice κ D R) : Bool :=
  (t.choices.take (i + 1)).any (·.address == c.address) ||
    ds.any fun d => d.source.isSome && d.choice.address == c.address

end Kernel

end

section

variable {σ κ D R : Type} [Host (EStateM Failure σ) D R] [Score R]

/-- How a ratio is made up. Each choice after the site has a value drawn, or carried over from
another place of the old trace after the site, with the same address. -/
structure Accounted (σ : Type) [Host (EStateM Failure σ) D R] (t t' : Trace κ D R) (i : Nat)
    (ds : List (Decision κ D R)) (r : R) : Prop where
  later : t'.after i = ds.map (·.choice)
  drawn : ∀ d ∈ ds, d.source = none →
    Yields (Host.draw d.choice.dist : EStateM Failure σ Value) d.choice.value
  carried : ∀ d ∈ ds, ∀ j, d.source = some j → i < j ∧ ∃ b, t.choices[j]? = some b ∧
    (b.address == d.choice.address) = true ∧ b.value = d.choice.value
  once : (ds.filterMap (·.source)).Nodup
  ratio : ∃ c c', BranchesOff t t' i c c' ∧
    r = t'.score - t.score
      + (-(Score.logNat t'.choices.length) + c.logDensity
        + Score.sum (((released t i ds).filter fun b => !shadowed t i ds b).map (·.logDensity)))
      - (-(Score.logNat t.choices.length) + c'.logDensity + Score.sum (drawnDensities ds))

variable [LawfulHost σ D R] {resume : Resume (EStateM Failure σ) κ D R} {limit : Option Nat}
  {t : Trace κ D R} {i : Nat} {w w' : σ} {c' : Choice κ D R} {ds : List (Decision κ D R)}
  {out : Recorded κ D R}

namespace Kernel

namespace Redraws

/-- A value is carried over from the first place at its address, which is after the site. -/
theorem carried_from (redraws : Redraws resume limit t i w c' ds (.recorded out) w')
    (hashable : ∀ b ∈ t.choices, b.address.isHashable = true) {d : Decision κ D R} (member : d ∈ ds)
    {j : Nat} (kept : d.source = some j) :
    i < j ∧ ∃ b, t.choices[j]? = some b ∧ (b.address == d.choice.address) = true ∧
      b.value = d.choice.value := by
  obtain ⟨before, after, parts⟩ := List.append_of_mem member
  obtain ⟨plain, ⟨_, _, obtains⟩, _⟩ := redraws.decided parts
  rw [kept] at obtains
  exact obtains.after_site plain hashable

/-- No value is carried over twice. -/
theorem carried_once (redraws : Redraws resume limit t i w c' ds (.recorded out) w')
    (hashable : ∀ b ∈ t.choices, b.address.isHashable = true) :
    (ds.filterMap (·.source)).Nodup := by
  have apart : ds.Pairwise fun e d => ∀ j, e.source = some j → d.source ≠ some j := by
    refine pairwise_of_parts fun before d after parts e earlier j taken again => ?_
    have member : d ∈ ds := by simp [parts]
    have before_member : e ∈ ds := by simp [parts, earlier]
    have plain' := redraws.hashable e before_member
    obtain ⟨_, b, place, here, _⟩ := redraws.carried_from hashable member again
    obtain ⟨_, b', place', there, _⟩ := redraws.carried_from hashable before_member taken
    obtain rfl := Option.some.inj (place.symm.trans place')
    obtain ⟨plain, ⟨_, _, obtains⟩, _⟩ := redraws.decided parts
    have b_plain := hashable b (List.mem_of_getElem? place)
    have same := Address.beq_trans plain b_plain plain' (Address.beq_symm b_plain plain here) there
    rw [again] at obtains
    obtain ⟨_, _, _, _, _, unspent, _⟩ := obtains.from_place
    rw [List.contains_eq_any_beq, List.any_append, Bool.or_eq_false_iff] at unspent
    refine List.any_eq_false.mp unspent.1 e.choice.address ?_ same
    exact mem_spent.mpr ⟨e, earlier, by rw [taken, Option.isSome_some], rfl⟩
  refine List.pairwise_filterMap.mpr (apart.imp fun different j taken k again => ?_)
  rintro rfl
  exact different j taken again

/-- An old choice is given up, and counted, if its value is not carried over and its address not
shadowed. -/
theorem dropped_eq (redraws : Redraws resume limit t i w c' ds (.recorded out) w')
    (hashable : ∀ b ∈ t.choices, b.address.isHashable = true) :
    dropped (t.choices.drop (i + 1)) out.reused =
      ((released t i ds).filter fun b => !shadowed t i ds b).map (·.logDensity) := by
  have spent_iff : ∀ b ∈ t.after i, out.reused.contains b.address = shadowed t i ds b := by
    intro b later
    have plain := hashable b (List.mem_of_mem_drop later)
    rw [redraws.reused_eq, List.contains_eq_any_beq, List.any_append, shadowed, Bool.or_comm,
      List.any_map]
    congr 1
    · rw [Bool.eq_iff_iff, List.any_eq_true, List.any_eq_true]
      refine exists_congr fun e => and_congr_right fun earlier => ?_
      rw [Function.comp_apply, Address.beq_comm plain (hashable e (List.mem_of_mem_take earlier))]
    · rw [spent, List.any_reverse, List.any_map, List.any_filter, Bool.eq_iff_iff, List.any_eq_true,
        List.any_eq_true]
      refine exists_congr fun d => and_congr_right fun member => ?_
      rw [Function.comp_apply, Address.beq_comm plain (redraws.hashable d member)]
  have carried_shadowed : ∀ p ∈ t.places i, takes ds p.2 = true → shadowed t i ds p.1 = true := by
    rintro ⟨b, j⟩ member taken
    obtain ⟨d, decided, kept⟩ := List.any_eq_true.mp taken
    obtain ⟨_, b', place, same, _⟩ := redraws.carried_from hashable decided (beq_iff_eq.mp kept)
    obtain rfl := Option.some.inj (place.symm.trans (Trace.mem_places.mp member).2)
    refine Bool.or_eq_true_iff.mpr (.inr (List.any_eq_true.mpr ⟨d, decided, ?_⟩))
    have back := Address.beq_symm (hashable _ (List.mem_of_getElem? place)) (redraws.hashable d decided) same
    simp [beq_iff_eq.mp kept, back]
  have later : t.choices.drop (i + 1) = (t.places i).map (·.1) := by
    rw [Trace.places, List.zipIdx_map_fst]
    rfl
  rw [dropped, released, List.filter_map, List.filter_filter, later, List.filter_map]
  congr 2
  refine List.filter_congr fun p member => ?_
  have listed : p.1 ∈ t.after i := by
    rw [Trace.after, later]
    exact List.mem_map_of_mem member
  rw [Function.comp_apply, Function.comp_apply, spent_iff p.1 listed]
  cases taken : takes ds p.2 with
  | false => rw [Bool.not_false, Bool.and_true]
  | true => rw [carried_shadowed p member taken, Bool.not_true, Bool.false_and]

theorem accounted {c : Choice κ D R} (redraws : Redraws resume limit t i w c' ds (.recorded out) w')
    (hashable : ∀ b ∈ t.choices, b.address.isHashable = true) (site : t.choices[i]? = some c) :
    Accounted σ t out.trace i ds (logRatio t i c c'.logDensity out) := by
  obtain ⟨branch, later⟩ := redraws.branchesOff site
  refine ⟨later, ?_, fun d member j kept => redraws.carried_from hashable member kept,
    redraws.carried_once hashable, c, c', branch, ?_⟩
  · intro d member fresh
    obtain ⟨before, after, parts⟩ := List.append_of_mem member
    obtain ⟨_, ⟨_, _, obtains⟩, _⟩ := redraws.decided parts
    rw [fresh] at obtains
    cases obtains with
    | drawn other drew => exact ⟨_, _, drew⟩
  · rw [logRatio, redraws.dropped_eq hashable, proposalScore, redraws.fresh_eq]
    rfl

end Redraws

/-- Where nothing was absorbed, the score is that of the choices. -/
def unfactored (moving : Prop) (resume : Resume (EStateM Failure σ) κ D R) : Invariant moving resume where
  holds cs T _ _ _ := T.factors = 0 → T.score = Score.sum (cs.map (·.logDensity))
  fair _ := True
  choose {cs T k k' s s' u v a d lp} held goes offered weighs possible := by
    refine ⟨trivial, fun none_absorbed => ?_⟩
    rw [Score.sum, List.map_append, List.foldl_append]
    exact congrArg (· + lp) (held none_absorbed)
  absorb held goes fine none_absorbed := absurd none_absorbed (Nat.succ_ne_zero _)

omit [LawfulHost σ D R] in
theorem Made.score_eq [SoundHost σ D R] {moving : Prop} {entry : κ} {s : Store}
    (made : Made moving resume entry s t) (none_absorbed : t.factors = 0) :
    t.score = Score.sum (t.choices.map (·.logDensity)) := by
  have upholds := (unfactored moving resume).upholds_made (fun _ => rfl) made
  cases ending : t.ending with
  | done v =>
    obtain ⟨_, _, _, held, _⟩ := upholds.closes.leads ending
    exact held none_absorbed
  | suspended k => exact upholds.closes.holds ending none_absorbed

end Kernel

end

section

variable {σ κ D R : Type} [Host (EStateM Failure σ) D R] [Score R] {t t' : Trace κ D R} {i : Nat}
  {ds : List (Decision κ D R)} {r : R}

omit [Score R] in
theorem Kernel.Placed.place_eq {cs : List (Choice κ D R)} {b e : Choice κ D R} {j k : Nat}
    (placed : Placed cs) (there : cs[j]? = some b) (here : cs[k]? = some e)
    (same : (e.address == b.address) = true) : k = j := by
  obtain ⟨j_inside, rfl⟩ := List.getElem?_eq_some_iff.mp there
  obtain ⟨k_inside, rfl⟩ := List.getElem?_eq_some_iff.mp here
  have apart := List.pairwise_iff_getElem.mp placed.distinct
  rcases Nat.lt_trichotomy k j with before | equal | after
  · rw [apart k j k_inside j_inside before] at same
    cases same
  · exact equal
  · have back := Address.beq_symm (placed.hashable _ (List.getElem_mem _))
      (placed.hashable _ (List.getElem_mem _)) same
    rw [apart j k j_inside k_inside after] at back
    cases back

namespace Accounted

/-- In a trace that comes to no address twice nothing is shadowed but what is carried over. -/
theorem unshadowed (accounted : Accounted σ t t' i ds r) (placed : Placed t.choices)
    (hashable' : ∀ c ∈ t'.choices, c.address.isHashable = true) :
    ∀ b ∈ released t i ds, shadowed t i ds b = false := by
  intro b member
  obtain ⟨⟨b, j⟩, inside, rfl⟩ := List.mem_map.mp member
  obtain ⟨listed, untaken⟩ := List.mem_filter.mp inside
  obtain ⟨after, place⟩ := Trace.mem_places.mp listed
  have later : b ∈ t.after i := by
    apply List.mem_of_getElem? (i := j - (i + 1))
    rw [Trace.after, List.getElem?_drop, Nat.add_sub_cancel' after]
    exact place
  rw [shadowed, Bool.or_eq_false_iff, List.any_eq_false, List.any_eq_false]
  constructor
  · intro e earlier
    rw [placed.apart earlier later]
    exact Bool.false_ne_true
  · intro d decided both
    obtain ⟨kept, same⟩ := Bool.and_eq_true_iff.mp both
    obtain ⟨k, from_place⟩ := Option.isSome_iff_exists.mp kept
    obtain ⟨_, e, place', at_address, _⟩ := accounted.carried d decided k from_place
    have plain : d.choice.address.isHashable = true := by
      apply hashable'
      apply List.mem_of_mem_drop (i := i + 1)
      change d.choice ∈ t'.after i
      rw [accounted.later]
      exact List.mem_map_of_mem decided
    have between := Address.beq_trans (placed.hashable e (List.mem_of_getElem? place')) plain
      (placed.hashable b (List.mem_of_getElem? place)) at_address same
    obtain rfl := placed.place_eq place place' between
    have taken : takes ds k = true :=
      List.any_eq_true.mpr ⟨d, decided, beq_iff_eq.mpr from_place⟩
    rw [taken] at untaken
    cases untaken

end Accounted

end

namespace Exact

theorem sum_eq (xs : List Exact) : Score.sum xs = xs.sum := by
  rw [Score.sum, List.sum_eq_foldl, zero_eq]

theorem sum_isReal {xs : List Exact} (reals : ∀ x ∈ xs, x.IsReal) : xs.sum.IsReal := by
  induction xs with
  | nil => exact ⟨0, rfl⟩
  | cons x xs ih =>
    obtain ⟨first, others⟩ := List.forall_mem_cons.mp reals
    obtain ⟨y, rfl⟩ := first
    obtain ⟨z, same⟩ := ih others
    exact ⟨y + z, by rw [List.sum_cons, same, real_add]⟩

end Exact

section

variable {κ D R : Type} {ds : List (Decision κ D R)} (all_drawn : ∀ d ∈ ds, d.source = none)

include all_drawn

theorem Kernel.released_of_drawn (t : Trace κ D R) (i : Nat) : released t i ds = t.after i := by
  have untaken : ∀ p ∈ t.places i, (!takes ds p.2) = true := by
    intro p _
    rw [Bool.not_eq_true', takes, List.any_eq_false]
    intro d member
    simp [all_drawn d member]
  rw [released, List.filter_eq_self.mpr untaken, Trace.places, List.zipIdx_map_fst]

theorem Kernel.drawnDensities_of_drawn : drawnDensities ds = ds.map (·.choice.logDensity) := by
  have kept : ∀ d ∈ ds, d.source.isNone = true := fun d member => by rw [all_drawn d member]; rfl
  rw [drawnDensities, List.filter_eq_self.mpr kept]

end

/-- A proposal that carries nothing over, in exact arithmetic and without factors. The numbers of
choices make up its ratio, and with them the densities that are not counted backward. -/
theorem Accounted.ratio_all_drawn {σ κ D : Type} [Host (EStateM Failure σ) D Exact]
    {t t' : Trace κ D Exact} {i : Nat} {ds : List (Decision κ D Exact)} {r : Exact}
    (accounted : Accounted σ t t' i ds r) (all_drawn : ∀ d ∈ ds, d.source = none)
    (score : t.score = Score.sum (t.choices.map (·.logDensity)))
    (score' : t'.score = Score.sum (t'.choices.map (·.logDensity)))
    (reals : ∀ c ∈ t.choices, c.logDensity.IsReal) (reals' : ∀ c ∈ t'.choices, c.logDensity.IsReal) :
    r = Score.logNat t.choices.length - Score.logNat t'.choices.length -
      Score.sum (((released t i ds).filter (shadowed t i ds)).map (·.logDensity)) := by
  obtain ⟨c, c', branch, ratio⟩ := accounted.ratio
  have parts := parts_at branch.site
  have parts' := parts_at branch.site'
  have drawn_eq : drawnDensities ds = (t'.after i).map (·.logDensity) := by
    rw [drawnDensities_of_drawn all_drawn, accounted.later, List.map_map]
    rfl
  have sum_real {cs : List (Choice κ D Exact)} (real : ∀ c ∈ cs, c.logDensity.IsReal) :
      (cs.map Choice.logDensity).sum.IsReal := Exact.sum_isReal (List.forall_mem_map.mpr real)
  have later_real : ∀ b ∈ t.after i, b.logDensity.IsReal :=
    fun b member => reals b (List.mem_of_mem_drop member)
  obtain ⟨p, before_eq⟩ := sum_real fun b (member : b ∈ t.choices.take i) =>
    reals b (List.mem_of_mem_take member)
  obtain ⟨x, site_eq⟩ := reals c (List.mem_of_getElem? branch.site)
  obtain ⟨x', site_eq'⟩ := reals' c' (List.mem_of_getElem? branch.site')
  obtain ⟨m, missed_eq⟩ := sum_real fun b (member : b ∈ (t.after i).filter (shadowed t i ds)) =>
    later_real b (List.mem_of_mem_filter member)
  obtain ⟨q, counted_eq⟩ := sum_real fun b (member : b ∈ (t.after i).filter (!shadowed t i ds ·)) =>
    later_real b (List.mem_of_mem_filter member)
  obtain ⟨n, later_eq'⟩ := sum_real fun b (member : b ∈ t'.after i) =>
    reals' b (List.mem_of_mem_drop member)
  have later_eq : ((t.after i).map (·.logDensity)).sum = .real (m + q) := by
    have split := (List.filter_append_perm (shadowed t i ds) (t.after i)).map (·.logDensity)
    rw [← split.sum_eq, List.map_append, List.sum_append, missed_eq, counted_eq, Exact.real_add]
  -- What comes before the site is common to both scores.
  have total : t.score = .real (p + (x + (m + q))) := by
    rw [score, Exact.sum_eq, parts, List.map_append, List.map_cons, List.sum_append, List.sum_cons,
      before_eq, site_eq, ← Trace.after, later_eq, Exact.real_add, Exact.real_add]
  have total' : t'.score = .real (p + (x' + n)) := by
    rw [score', Exact.sum_eq, parts', List.map_append, List.map_cons, List.sum_append, List.sum_cons,
      ← branch.before, before_eq, site_eq', ← Trace.after, later_eq', Exact.real_add, Exact.real_add]
  have sites : t.choices.length ≠ 0 := by
    rw [parts]
    simp
  have sites' : t'.choices.length ≠ 0 := by
    rw [parts']
    simp
  rw [ratio, released_of_drawn all_drawn, drawn_eq, total, total', site_eq, site_eq', Exact.sum_eq, Exact.sum_eq,
    Exact.sum_eq, missed_eq, counted_eq, later_eq', Exact.logNat_eq sites, Exact.logNat_eq sites']
  simp only [Exact.real_add, Exact.real_sub, Exact.neg_real]
  congr 1
  ring

/-- The log acceptance ratio of a proposal, for any program. Forward it counts each value drawn after
the site, and no other. Backward it counts each later choice of the old trace whose value is not
carried over, unless its address is shadowed, which needs an address that comes twice. A proposal
that carries nothing over, without factors, has in exact arithmetic the ratio of the numbers of
choices, less the choices that are not counted. -/
theorem ratio_accounted {σ κ D : Type} :
    (∀ {R : Type} [Host (EStateM Failure σ) D R] [LawfulHost σ D R] [Score R]
      (resume : Resume (EStateM Failure σ) κ D R) (entry : κ) (s : Store) (fuel : Nat)
      (limit : Option Nat) (t t' : Trace κ D R) (r : R) (w w' : σ), Made True resume entry s t →
      regenerate resume fuel t limit w = .ok (some (t', r)) w' →
      ∃ i c' ds out middle,
        (Host.indexBelow t.choices.length : EStateM Failure σ Nat) w = .ok i middle ∧
        Redraws resume limit t i middle c' ds (.recorded out) w' ∧ t' = out.trace ∧
        Accounted σ t t' i ds r ∧
        (Distinct t.choices → ∀ b ∈ released t i ds, shadowed t i ds b = false)) ∧
    (∀ [Host (EStateM Failure σ) D Exact] [LawfulHost σ D Exact] [SoundHost σ D Exact]
      (resume : Resume (EStateM Failure σ) κ D Exact) (entry : κ) (s : Store) (fuel : Nat)
      (limit : Option Nat) (t t' : Trace κ D Exact) (r : Exact) (w w' : σ),
      Made True resume entry s t → regenerate resume fuel t limit w = .ok (some (t', r)) w' →
      t.factors = 0 → t'.factors = 0 →
      (∀ c ∈ t.choices, c.logDensity.IsReal) → (∀ c ∈ t'.choices, c.logDensity.IsReal) →
      ∀ i ds, Accounted σ t t' i ds r → (∀ d ∈ ds, d.source = none) →
        r = Score.logNat t.choices.length - Score.logNat t'.choices.length -
          Score.sum (((released t i ds).filter (shadowed t i ds)).map (·.logDensity))) := by
  constructor
  · intro R _ _ _ resume entry s fuel limit t t' r w w' made returned
    have made' := made.regenerate trivial ⟨w, w', returned⟩
    rcases regenerate_redraws returned with ⟨nothing, _⟩ |
      ⟨i, c, c', ds, verdict, middle, picked, site, redraws, same⟩
    · cases nothing
    cases verdict with
    | atChoice d => cases same
    | atFactor x => cases same
    | recorded out =>
      cases same
      have accounted := redraws.accounted made.hashable site
      refine ⟨i, c', ds, out, middle, picked, redraws, rfl, accounted, fun distinct => ?_⟩
      exact accounted.unshadowed ⟨distinct, made.hashable⟩ made'.hashable
  · intro _ _ _ resume entry s fuel limit t t' r w w' made returned factors factors' reals reals' i ds
      accounted all_drawn
    have made' := made.regenerate trivial ⟨w, w', returned⟩
    exact accounted.ratio_all_drawn all_drawn (made.score_eq factors) (made'.score_eq factors') reals reals'

/-- The kernel draws what is scripted, where no old value is carried over. -/
theorem Careful.samples {κ D R : Type} [Score R] {laws : Densities D R} {limit : Option Nat}
    {old : Option (Trace κ D R)} {tape : Recording κ D R} {s : Store} {k : κ} {a : Address} {d : D}
    {v : Value} {lp : R} {rest : List (Draw R)} (hashable : a.isHashable = true)
    (fresh : Kernel.carried laws old tape.reused a d = .ok none) (listed : Listed laws d v)
    (weighs : laws.logDensity d v = .ok lp) (possible : Score.isImpossible lp = false) :
    (handler limit old : Handler (EStateM Failure (Careful laws)) κ D R _ _).sample tape s k a d
        ⟨.value v :: rest⟩ =
      .ok (.deliver ((tape.draw lp).record s k a d v lp) v) ⟨rest⟩ := by
  have drew : (Host.draw d : EStateM Failure (Careful laws) Value) ⟨.value v :: rest⟩ = .ok v ⟨rest⟩ :=
    Careful.draw_eq_ok.mpr ⟨rfl, listed⟩
  refine (samples_drawn hashable fresh drew weighs).trans ?_
  rw [if_neg (Bool.eq_false_iff.mp possible)]

namespace CoinTwice

open SecondCoin (first half)

/-- The same coin, tossed twice at one address. -/
def program : PlainProgram Nat Unit Exact where
  entry := 0
  next
    | 0, s, _ => .ok (.sample s 1 first ())
    | 1, s, _ => .ok (.sample s 2 first ())
    | _, s, v => .ok (.exit s v)

noncomputable abbrev resume : Resume (EStateM Failure (Careful fairCoin)) Nat Unit Exact := program.resume

theorem listed (b : Bool) : Listed fairCoin () (.bool b) :=
  ⟨_, _, rfl, by cases b <;> simp, rfl, rfl⟩

theorem hashable : first.isHashable = true := SecondCoin.hashable (.inl rfl)

noncomputable def begun : Recording Nat Unit Exact :=
  Recording.record ⟨[], Score.zero, Score.zero, 0, [], Score.zero + half⟩ .empty 1 first () (.bool true) half

/-- Heads, then tails. -/
noncomputable def tossedBoth : Recorded Nat Unit Exact :=
  ((begun.draw half).record .empty 2 first () (.bool false) half).finish .empty (.done (.bool false))

theorem simulates : simulate resume 3 0 .empty none
    ⟨[.value (.bool true), .value (.bool false)]⟩ = .ok (some tossedBoth.trace) ⟨[]⟩ := by
  refine bind_eq_ok.mpr ⟨.sample .empty 1 first (), _, rfl, ?_⟩
  refine bind_eq_ok.mpr ⟨some tossedBoth, ⟨[]⟩, ?_, rfl⟩
  refine bind_eq_ok.mpr ⟨_, _, Careful.samples hashable rfl (listed true) rfl rfl, ?_⟩
  refine bind_eq_ok.mpr ⟨.sample .empty 2 first (), _, rfl, ?_⟩
  refine bind_eq_ok.mpr ⟨_, _, Careful.samples hashable rfl (listed false) rfl rfl, ?_⟩
  exact bind_eq_ok.mpr ⟨.exit .empty (.bool false), _, rfl, rfl⟩

/-- Heads again at the site, and heads the second time. -/
noncomputable def tossedAgain : Recorded Nat Unit Exact :=
  (((siteTape tossedBoth.trace 0 (SecondCoin.firstChoice true) (.bool true) half).draw half).record .empty 2
    first () (.bool true) half).finish .empty (.done (.bool true))

theorem at_first : (first == first) = true := by
  simp [first, Address.extend, Address.root, BEq.beq, Value.beqItems, Value.beq]

theorem regenerates : regenerate resume 3 tossedBoth.trace none
    ⟨[.index 0, .value (.bool true), .value (.bool true)]⟩ =
      .ok (some (tossedAgain.trace, .real (Real.log 2))) ⟨[]⟩ := by
  have spent : carried fairCoin (some tossedBoth.trace)
      (siteTape tossedBoth.trace 0 (SecondCoin.firstChoice true) (.bool true) half).reused first () = .ok none := by
    have found : tossedBoth.trace.choiceAt? first = some (SecondCoin.firstChoice true) := by
      rw [Trace.choiceAt?]
      exact List.find?_cons_of_pos at_first
    have listed : (siteTape tossedBoth.trace 0 (SecondCoin.firstChoice true) (.bool true) half).reused.contains
        first = true := by
      change [first].contains first = true
      simp [at_first]
    rw [carried, Option.bind_some, found]
    exact if_pos listed
  have ratio : logRatio tossedBoth.trace 0 (SecondCoin.firstChoice true) half tossedAgain = .real (Real.log 2) := by
    have none_counted : dropped (tossedBoth.trace.choices.drop 1) tossedAgain.reused = [] := by
      change dropped [_] [first] = []
      simp [dropped, at_first]
    rw [logRatio, none_counted]
    change Score.zero + half + half - (Score.zero + half + half) + (-(Score.logNat 2) + half + Score.zero) -
      (-(Score.logNat 2) + half + (Score.zero + half)) = _
    rw [Exact.logNat_eq two_ne_zero, Exact.zero_eq, zero_add, add_zero, half]
    simp only [Exact.real_add, Exact.real_sub, Exact.neg_real]
    congr 1
    rw [Real.log_inv]
    push_cast
    ring
  rw [← ratio]
  refine bind_eq_ok.mpr ⟨0, ⟨[.value (.bool true), .value (.bool true)]⟩, rfl, ?_⟩
  refine bind_eq_ok.mpr ⟨.bool true, ⟨[.value (.bool true)]⟩, Careful.draw_eq_ok.mpr ⟨rfl, listed true⟩, ?_⟩
  refine bind_eq_ok.mpr ⟨half, _, rfl, ?_⟩
  refine bind_eq_ok.mpr ⟨.sample .empty 2 first (), _, rfl, ?_⟩
  refine bind_eq_ok.mpr ⟨some tossedAgain, ⟨[]⟩, ?_, rfl⟩
  refine bind_eq_ok.mpr ⟨_, _, Careful.samples hashable spent (listed true) rfl rfl, ?_⟩
  exact bind_eq_ok.mpr ⟨.exit .empty (.bool true), _, rfl, rfl⟩

theorem made : Made True resume 0 .empty tossedBoth.trace := .simulate ⟨_, _, simulates⟩

/-- The two traces differ in the value of the second toss, so that it is not carried over. -/
theorem all_drawn {ds : List (Decision Nat Unit Exact)} {r : Exact}
    (accounted : Accounted (Careful fairCoin) tossedBoth.trace tossedAgain.trace 0 ds r) :
    ∀ d ∈ ds, d.source = none := by
  intro d member
  by_contra kept
  obtain ⟨j, from_place⟩ := Option.ne_none_iff_exists'.mp kept
  obtain ⟨later, b, place, _, same⟩ := accounted.carried d member j from_place
  have heads : d.choice.value = .bool true := by
    have listed : d.choice ∈ tossedAgain.trace.after 0 := by
      rw [accounted.later]
      exact List.mem_map_of_mem member
    rw [List.mem_singleton.mp listed]
  match j, later, place with
  | 1, _, place =>
    cases place
    rw [heads] at same
    cases same
  | _ + 2, _, place => cases place

end CoinTwice

open CoinTwice in
/-- A coin tossed twice at one address. Tossing both again leaves nothing carried over, and the ratio
is less by the density of the second toss, which is not counted backward. -/
theorem second_toss_not_counted :
    ∃ i ds, Accounted (Careful fairCoin) tossedBoth.trace tossedAgain.trace i ds (.real (Real.log 2)) ∧
      (Exact.real (Real.log 2)) = Score.logNat 2 - Score.logNat 2 -
        Score.sum (((released tossedBoth.trace i ds).filter (shadowed tossedBoth.trace i ds)).map
          (·.logDensity)) := by
  obtain ⟨i, c', ds, out, middle, picked, _, _, accounted, _⟩ := ratio_accounted.1 resume 0 .empty 3 none
    _ _ _ _ _ made regenerates
  have first_site : EStateM.Result.ok 0 _ = EStateM.Result.ok i middle := picked
  cases first_site
  have tossed_real : ∀ c ∈ tossedBoth.trace.choices, c.logDensity.IsReal :=
    List.forall_mem_cons.mpr ⟨⟨_, rfl⟩, List.forall_mem_singleton.mpr ⟨_, rfl⟩⟩
  have again_real : ∀ c ∈ tossedAgain.trace.choices, c.logDensity.IsReal :=
    List.forall_mem_cons.mpr ⟨⟨_, rfl⟩, List.forall_mem_singleton.mpr ⟨_, rfl⟩⟩
  exact ⟨0, ds, accounted, ratio_accounted.2 resume 0 .empty 3 none _ _ _ _ _ made regenerates rfl rfl
    tossed_real again_real 0 ds accounted (all_drawn accounted)⟩

open CoinTwice in
/-- A proposal that carries nothing over, without factors, whose ratio is not that of the numbers of
choices. -/
theorem nothing_carried_ratio_differs :
    Made True resume 0 .empty tossedBoth.trace ∧
      (∃ w w', regenerate resume 3 tossedBoth.trace none w =
        .ok (some (tossedAgain.trace, .real (Real.log 2))) w') ∧
      (∀ ds, Accounted (Careful fairCoin) tossedBoth.trace tossedAgain.trace 0 ds (.real (Real.log 2)) →
        ∀ d ∈ ds, d.source = none) ∧
      tossedBoth.trace.factors = 0 ∧ tossedAgain.trace.factors = 0 ∧
      Exact.real (Real.log 2) ≠
        Score.logNat tossedBoth.trace.choices.length - Score.logNat tossedAgain.trace.choices.length := by
  refine ⟨made, ⟨_, _, regenerates⟩, fun ds => all_drawn, rfl, rfl, fun same => ?_⟩
  change Exact.real (Real.log 2) = Score.logNat 2 - Score.logNat 2 at same
  rw [Exact.logNat_eq two_ne_zero, Exact.real_sub, sub_self] at same
  exact (Real.log_pos one_lt_two).ne' (Exact.real.inj same)

end ProbCore
