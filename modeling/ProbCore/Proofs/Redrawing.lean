import ProbCore.Proofs.Course
import ProbCore.Proofs.Executions
import ProbCore.Proofs.ChainState

/-! Proposals of any program. A choice of a trace is redrawn, and the execution takes its course
from there. The trace that comes out keeps what was before the site, and its later choices are
those that the course decides. -/

namespace ProbCore.Kernel

theorem siteTape_reused {κ D R : Type} [Score R] (t : Trace κ D R) (i : Nat) (c : Choice κ D R)
    (v : Value) (lp : R) :
    (siteTape t i c v lp).reused = (t.choices.take (i + 1)).map (·.address) := rfl

variable {σ κ D R : Type} [Host (EStateM Failure σ) D R] [LawfulHost σ D R] [Score R]
  {resume : Resume (EStateM Failure σ) κ D R} {limit : Option Nat} {fuel : Nat}
  {t t' : Trace κ D R} {i : Nat} {w w' : σ} {c' : Choice κ D R} {ds : List (Decision κ D R)}
  {verdict : Verdict κ D R} {out : Recorded κ D R}

/-- A value is carried over from a place after the site, while all old values up to it are spent. -/
theorem Obtains.after_site {others : List Address} {a : Address} {d : D} {v : Value} {j : Nat}
    (obtains : Obtains (some t) (others ++ (t.choices.take (i + 1)).map (·.address)) a d w (some j) v w')
    (plain : a.isHashable = true) (hashable : ∀ b ∈ t.choices, b.address.isHashable = true) :
    i < j ∧ ∃ b, t.choices[j]? = some b ∧ (b.address == a) = true ∧ b.value = v := by
  obtain ⟨b, place, _, same, value, unspent, _⟩ := obtains.from_place
  refine ⟨?_, b, place, same, value⟩
  by_contra early
  rw [List.contains_eq_any_beq, List.any_append, Bool.or_eq_false_iff, List.any_map] at unspent
  have listed : b ∈ t.choices.take (i + 1) := by
    apply List.mem_of_getElem?
    rw [List.getElem?_take_of_lt (by omega : j < i + 1)]
    exact place
  have apart := List.any_eq_false.mp unspent.2 b listed
  exact apart (Address.beq_symm (hashable b (List.mem_of_mem_take listed)) plain same)

/-- A trace that is made suspended or complete from a suspended one has its choices, and then those
of a course without old values. -/
theorem extend_course (returned : extend resume fuel t limit w = .ok (some t') w') :
    t' = t ∨ ∃ tape step middle ds out, tape.choices = t.choices.reverse ∧
      Course resume limit none tape step middle ds (.recorded out) w' ∧ t' = out.trace := by
  unfold extend at returned
  cases ending : t.ending with
  | done v =>
    simp only [ending] at returned
    exact .inl (Option.some.inj (pure_eq_ok.mp returned).1)
  | suspended k =>
    simp only [ending] at returned
    obtain ⟨step, middle, _, returned⟩ := bind_eq_ok.mp returned
    obtain ⟨result, last, driven, returned⟩ := bind_eq_ok.mp returned
    obtain ⟨same, rfl⟩ := pure_eq_ok.mp returned
    obtain ⟨out, rfl, rfl⟩ := Option.map_eq_some_iff.mp same.symm
    obtain ⟨ds, verdict, course, recorded⟩ := drive_course driven
    cases verdict with
    | recorded out' =>
      obtain rfl := Option.some.inj recorded
      exact .inr ⟨_, step, middle, ds, out, rfl, course, rfl⟩
    | atChoice d => cases recorded
    | atFactor x => cases recorded

namespace Redraws

/-- The choices of a proposal: those before the site, the site redrawn, and those decided. -/
theorem choices_eq {c : Choice κ D R} (redraws : Redraws resume limit t i w c' ds (.recorded out) w')
    (site : t.choices[i]? = some c) :
    c' = c.redrawn c'.value c'.logDensity ∧
      out.trace.choices = t.choices.take i ++ c' :: ds.map (·.choice) := by
  cases redraws with
  | goes site' drew weighs possible goes course =>
    obtain rfl := Option.some.inj (site'.symm.trans site)
    refine ⟨rfl, ?_⟩
    rw [course.recorded_eq.1, siteTape_choices]

theorem branchesOff {c : Choice κ D R} (redraws : Redraws resume limit t i w c' ds (.recorded out) w')
    (site : t.choices[i]? = some c) :
    BranchesOff t out.trace i c c' ∧ out.trace.after i = ds.map (·.choice) := by
  obtain ⟨redrawn, parts⟩ := redraws.choices_eq site
  rw [redrawn] at parts ⊢
  exact BranchesOff.of_parts site parts

theorem reused_eq (redraws : Redraws resume limit t i w c' ds (.recorded out) w') :
    out.reused = spent ds ++ (t.choices.take (i + 1)).map (·.address) := by
  cases redraws with
  | goes site drew weighs possible goes course => exact course.recorded_eq.2.1

theorem fresh_eq (redraws : Redraws resume limit t i w c' ds (.recorded out) w') :
    out.fresh = Score.sum (drawnDensities ds) := by
  cases redraws with
  | goes site drew weighs possible goes course => exact course.recorded_eq.2.2

/-- Each decision after the site was made with the old values up to the site spent, and those that
were carried over before it. -/
theorem decided (redraws : Redraws resume limit t i w c' ds (.recorded out) w')
    {before after : List (Decision κ D R)} {d : Decision κ D R} (parts : ds = before ++ d :: after) :
    d.choice.address.isHashable = true ∧
      (∃ w w' : σ, Obtains (some t) (spent before ++ (t.choices.take (i + 1)).map (·.address))
        d.choice.address d.choice.dist w d.source d.choice.value w') ∧
      (LawfulHost.densities σ).logDensity d.choice.dist d.choice.value = .ok d.choice.logDensity := by
  cases redraws with
  | goes site drew weighs possible goes course =>
    have parts' : ds ++ (Verdict.recorded out).refused = before ++ d :: after := by
      rw [Verdict.refused, List.append_nil]
      exact parts
    exact course.decided parts'

theorem hashable (redraws : Redraws resume limit t i w c' ds (.recorded out) w') :
    ∀ d ∈ ds, d.choice.address.isHashable = true := by
  intro d member
  obtain ⟨before, after, parts⟩ := List.append_of_mem member
  exact (redraws.decided parts).1

end Redraws

/-- The kernel makes no choice at an address that cannot be compared with others. -/
theorem Made.hashable {moving : Prop} {entry : κ} {s : Store} (made : Made moving resume entry s t) :
    ∀ c ∈ t.choices, c.address.isHashable = true := by
  induction made with
  | start => exact nofun
  | extend _ yields ih =>
    obtain ⟨w, w', returned⟩ := yields
    rcases extend_course returned with rfl | ⟨tape, step, middle, ds, out, same, course, rfl⟩
    · exact ih
    · rw [course.recorded_eq.1, same, List.reverse_reverse, List.forall_mem_append, List.forall_mem_map]
      exact ⟨ih, course.hashable⟩
  | regenerate _ _ yields ih =>
    obtain ⟨w, w', returned⟩ := yields
    rcases regenerate_redraws returned with ⟨nothing, _⟩ |
      ⟨i, c, c', ds, verdict, middle, _, site, redraws, same⟩
    · cases nothing
    cases verdict with
    | atChoice d => cases same
    | atFactor x => cases same
    | recorded out =>
      cases same
      obtain ⟨redrawn, parts⟩ := redraws.choices_eq site
      rw [parts, List.forall_mem_append, List.forall_mem_cons, List.forall_mem_map]
      refine ⟨fun b member => ih b (List.mem_of_mem_take member), ?_, ?_⟩
      · rw [redrawn]
        exact ih c (List.mem_of_getElem? site)
      · exact redraws.hashable

end ProbCore.Kernel
