import ProbCore.Proofs.Recurrence
import ProbCore.Proofs.TraceReplay

/-! The states of a chain of moves: executions of the program that could be drawn, each complete
or suspended at the factor that reaches the limit. A proposal goes from one state to another
that branches off from it at the site. -/

namespace ProbCore

open Kernel

section

variable {κ D R : Type}

def Trace.after (t : Trace κ D R) (i : Nat) : List (Choice κ D R) := t.choices.drop (i + 1)

theorem Kernel.Placed.after {t : Trace κ D R} (placed : Placed t.choices) (i : Nat) :
    Placed (t.after i) :=
  placed.sublist (List.drop_sublist (i + 1) t.choices)

theorem Kernel.Placed.apart {t : Trace κ D R} (placed : Placed t.choices) {i : Nat}
    {b c : Choice κ D R} (earlier : b ∈ t.choices.take (i + 1)) (later : c ∈ t.after i) :
    (b.address == c.address) = false := by
  have parts : t.choices.take (i + 1) ++ t.after i = t.choices := List.take_append_drop ..
  have distinct := placed.distinct
  rw [← parts] at distinct
  exact (List.pairwise_append.mp distinct).2.2 b earlier c later

/-- One trace branches off from the other at the choice at `i`. -/
structure BranchesOff (t t' : Trace κ D R) (i : Nat) (c c' : Choice κ D R) : Prop where
  site : t.choices[i]? = some c
  site' : t'.choices[i]? = some c'
  before : t.choices.take i = t'.choices.take i
  redrawn : c' = c.redrawn c'.value c'.logDensity

namespace BranchesOff

variable {t t' : Trace κ D R} {i : Nat} {c c' : Choice κ D R}

theorem symm (branch : BranchesOff t t' i c c') : BranchesOff t' t i c' c where
  site := branch.site'
  site' := branch.site
  before := branch.before.symm
  redrawn := by
    rw [branch.redrawn]
    rfl

theorem address_eq (branch : BranchesOff t t' i c c') : c'.address = c.address := by
  rw [branch.redrawn]
  rfl

theorem addresses_eq (branch : BranchesOff t t' i c c') :
    (t.choices.take (i + 1)).map (·.address) = (t'.choices.take (i + 1)).map (·.address) := by
  have parts {u : Trace κ D R} {b : Choice κ D R} (site : u.choices[i]? = some b) :
      u.choices.take (i + 1) = u.choices.take i ++ [b] := by
    rw [List.take_add_one, site, Option.toList_some]
  rw [parts branch.site, parts branch.site', branch.before, List.map_append, List.map_append,
    List.map_singleton, List.map_singleton, branch.address_eq]

theorem of_parts {v : Value} {lp : R} {cs : List (Choice κ D R)} (site : t.choices[i]? = some c)
    (parts : t'.choices = t.choices.take i ++ c.redrawn v lp :: cs) :
    BranchesOff t t' i c (c.redrawn v lp) ∧ t'.after i = cs := by
  have inside : i < t.choices.length := (List.getElem?_eq_some_iff.mp site).1
  have length : (t.choices.take i).length = i := List.length_take_of_le inside.le
  refine ⟨⟨site, ?_, ?_, rfl⟩, ?_⟩
  · rw [parts, List.getElem?_append_right length.le, length, Nat.sub_self]
    rfl
  · rw [parts, List.take_left' length]
  · rw [Trace.after, parts, List.drop_append, length, Nat.add_sub_cancel_left, List.drop_one, List.tail_cons,
      List.drop_of_length_le (by omega), List.nil_append]

theorem new (branch : BranchesOff t t' i c c')
    (placed' : Placed t'.choices) :
    ∀ d ∈ t'.after i, ∀ b ∈ t.choices.take (i + 1), (b.address == d.address) = false := by
  intro d member b earlier
  have listed : b.address ∈ (t.choices.take (i + 1)).map (·.address) := List.mem_map_of_mem earlier
  rw [branch.addresses_eq] at listed
  obtain ⟨b', earlier', same⟩ := List.mem_map.mp listed
  rw [← same]
  exact placed'.apart earlier' member

end BranchesOff

/-- Values are given up at the addresses where none are taken over. -/
theorem dropped_eq {t : Trace κ D R} {i : Nat} {kept : List (Choice κ D R)}
    (placed : Placed t.choices) (hashable : ∀ b ∈ kept, b.address.isHashable = true) :
    dropped (t.after i) ((kept.map (·.address)).reverse ++ (t.choices.take (i + 1)).map (·.address)) =
      (absentFrom kept (t.after i)).map (·.logDensity) := by
  have before : (t.choices.take (i + 1)).Sublist t.choices := List.take_sublist ..
  have later : (t.after i).Sublist t.choices := List.drop_sublist ..
  rw [dropped, absentFrom]
  congr 1
  refine List.filter_congr fun c member => ?_
  have c_hashable := placed.hashable c (later.subset member)
  rw [List.contains_eq_any_beq, List.any_append, List.any_reverse, List.any_map, List.any_map]
  have none_before : (t.choices.take (i + 1)).any ((c.address == ·) ∘ (·.address)) = false := by
    refine List.any_eq_false.mpr fun b earlier => ?_
    rw [Function.comp_apply, Address.beq_comm c_hashable (placed.hashable b (before.subset earlier)),
      placed.apart earlier member]
    exact Bool.false_ne_true
  have same : kept.any ((c.address == ·) ∘ (·.address)) = kept.any (·.address == c.address) := by
    rw [Bool.eq_iff_iff, List.any_eq_true, List.any_eq_true]
    refine exists_congr fun b => and_congr_right fun listed => ?_
    rw [Function.comp_apply, Address.beq_comm c_hashable (hashable b listed)]
  rw [none_before, same, Bool.or_false]

end

section

variable {κ D R : Type} [Score R]

/-- An execution of the program that could be drawn, complete or suspended anywhere. -/
def Execution (laws : Densities D R) (P : PlainProgram κ D R) (s : Store) (t : Trace κ D R) : Prop :=
  ∃ es, Replays laws P s es t ∧ (∀ e ∈ es, fine e = true) ∧
    ∀ c ∈ t.choices, Drawable laws c.dist c.value

structure ChainState (laws : Densities D R) (P : PlainProgram κ D R) (s : Store)
    (limit : Option Nat) (t : Trace κ D R) : Prop where
  execution : Execution laws P s t
  ends : Ends limit t.factors t.ending

variable {laws : Densities D R} {P : PlainProgram κ D R} {s : Store} {limit : Option Nat}
  {t t' : Trace κ D R} {i : Nat}

theorem Execution.fine_choices (execution : Execution laws P s t) :
    ∀ c ∈ t.choices, fine (.choice c) = true := by
  obtain ⟨es, replays, fines, _⟩ := execution
  intro c member
  rw [replays.choices_eq] at member
  exact fines _ (Event.mem_choices.mp member)

theorem Execution.hashable (execution : Execution laws P s t) :
    ∀ c ∈ t.choices, c.address.isHashable = true :=
  fun c member => (fine_choice.mp (execution.fine_choices c member)).1

theorem Execution.drawable (execution : Execution laws P s t) :
    ∀ c ∈ t.choices, Drawable laws c.dist c.value := by
  obtain ⟨_, _, _, drawables⟩ := execution
  exact drawables

theorem Execution.placed (execution : Execution laws P s t) (distinct : Distinct t.choices) :
    Placed t.choices :=
  ⟨distinct, execution.hashable⟩

theorem Execution.goes_on (execution : Execution laws P s t) {c : Choice κ D R}
    (site : t.choices[i]? = some c) :
    ∃ step es T s' e, P.next c.k c.store c.value = .ok step ∧
      laws.logDensity c.dist c.value = .ok c.logDensity ∧
      Runs laws P (c.totals.choose c.logDensity) step es T s' e ∧ (∀ v ∈ es, fine v = true) ∧
      Event.choices es = t.after i ∧
      t = T.trace (t.choices.take i ++ c :: Event.choices es) s' e := by
  obtain ⟨es, replays, fines, _⟩ := execution
  obtain ⟨_, before, after, T, s', e, _, runs, rfl, same, taken, dropped⟩ := replays.around site
  obtain ⟨weighs, step, goes, later⟩ := runs.after_choice
  refine ⟨step, after, T, s', e, goes, weighs, later, ?_, dropped, ?_⟩
  · exact fun v member => fines v (List.mem_append_right _ (List.mem_cons_of_mem _ member))
  · rw [← taken, ← Event.choices_choice, ← Event.choices_append]
    exact same

/-- A state of the chain has not been stopped by the limit before any of its choices. -/
theorem ChainState.running (state : ChainState laws P s limit t) {c : Choice κ D R}
    (site : t.choices[i]? = some c) : Running limit c.factors := by
  obtain ⟨step, es, T, s', e, _, _, later, _, _, same⟩ := state.execution.goes_on site
  have ends := state.ends
  rw [same] at ends
  rcases Nat.eq_zero_or_pos c.factors with none_before | some_before
  · exact .inl none_before
  · exact .inr (not_stopped later ends some_before)

/-- Redrawing a choice of a state proposes a state that branches off from it there. -/
theorem Kernel.Proposes.splits {v : Value} {draws : List Value} {r : R}
    (state : ChainState laws P s limit t)
    (proposes : Proposes laws P (Drawable laws) limit t i v draws t' r) :
    ChainState laws P s limit t' ∧ ∃ c c' reused fresh, BranchesOff t t' i c c' ∧ c'.value = v ∧
      Decides laws (Drawable laws) (some t) ((t.choices.take (i + 1)).map (·.address)) Score.zero
        (t'.after i) draws reused fresh ∧
      r = logRatio t i c c'.logDensity ⟨t', reused, fresh⟩ := by
  obtain ⟨site, drawn, weighs, possible, goes, records⟩ := proposes
  next c lp step out =>
  have running := state.running site
  have hashable := state.execution.hashable c (List.mem_of_getElem? site)
  obtain ⟨⟨es, replays, fines, drawables⟩, _⟩ := state
  obtain ⟨fs, T, s', e, runs, later_fine, decides, made, ended⟩ := records.runs
  rw [siteTape_choices] at made
  obtain ⟨before, after, split, taken, whole⟩ := replays.redraw site weighs goes runs
  rw [← made] at whole
  have parts : out.trace.choices = t.choices.take i ++ c.redrawn v lp :: Event.choices fs :=
    congrArg Trace.choices made
  obtain ⟨branch, later⟩ := BranchesOff.of_parts site parts
  refine ⟨⟨⟨_, whole, ?_, ?_⟩, ?_⟩, c, c.redrawn v lp, out.reused, out.fresh, branch, rfl, ?_, rfl⟩
  · rw [List.forall_mem_append, List.forall_mem_cons]
    refine ⟨fun e member => fines e ?_, fine_choice.mpr ⟨hashable, possible⟩, later_fine⟩
    rw [split]
    exact List.mem_append_left _ member
  · rw [parts, List.forall_mem_append, List.forall_mem_cons]
    exact ⟨fun b member => drawables b (List.mem_of_mem_take member), drawn, decides.all_drawable⟩
  · rw [made]
    exact ended running
  · rw [later]
    exact decides

/-- A state that branches off from another, with decisions that lead to it, is proposed. -/
theorem Kernel.Proposes.joins {c c' : Choice κ D R} {draws : List Value} {reused : List Address}
    {fresh : R} (state' : ChainState laws P s limit t') (branch : BranchesOff t t' i c c')
    (decides : Decides laws (Drawable laws) (some t) ((t.choices.take (i + 1)).map (·.address))
      Score.zero (t'.after i) draws reused fresh) :
    Proposes laws P (Drawable laws) limit t i c'.value draws t'
      (logRatio t i c c'.logDensity ⟨t', reused, fresh⟩) := by
  have member' := List.mem_of_getElem? branch.site'
  obtain ⟨_, possible⟩ := fine_choice.mp (state'.execution.fine_choices c' member')
  obtain ⟨step, fs, T, s', e, goes, weighs, runs, fines, later, same⟩ :=
    state'.execution.goes_on branch.site'
  have drawn := state'.execution.drawable c' member'
  have ends := state'.ends
  rw [← later] at decides
  rw [same] at ends
  rw [branch.redrawn] at goes weighs runs drawn
  have begins : (siteTape t i c c'.value c'.logDensity).totals = c.totals.choose c'.logDensity := rfl
  have records := Records.of_runs runs fines begins decides ends
  rw [siteTape_choices, ← branch.redrawn, branch.before, ← same] at records
  exact .redraw branch.site drawn weighs possible goes records

theorem BranchesOff.decides_iff {c c' : Choice κ D R} (branch : BranchesOff t t' i c c')
    (placed' : Placed t'.choices) (hashable : ∀ b ∈ t.choices, b.address.isHashable = true)
    {draws : List Value} {reused : List Address} {fresh : R} :
    Decides laws (Drawable laws) (some t) ((t.choices.take (i + 1)).map (·.address)) Score.zero
        (t'.after i) draws reused fresh ↔
      (∀ d ∈ t'.after i, Settled laws (t.after i) d) ∧
        draws = (drawnBeside laws (t.after i) (t'.after i)).map (·.value) ∧
        reused = ((keptFrom laws (t.after i) (t'.after i)).map (·.address)).reverse ++
          (t.choices.take (i + 1)).map (·.address) ∧
        fresh = Score.sum ((drawnBeside laws (t.after i) (t'.after i)).map (·.logDensity)) := by
  have parts : t.choices = t.choices.take (i + 1) ++ t.after i := (List.take_append_drop ..).symm
  have later := placed'.after i
  refine Kernel.decides_iff parts (branch.new placed') ?_ later.backwards
  intro d member
  rw [List.contains_eq_any_beq, List.any_map, List.any_eq_false]
  intro b earlier
  rw [Function.comp_apply, Address.beq_comm (later.hashable d member)
    (hashable b (List.mem_of_mem_take earlier)), branch.new placed' d member b earlier]
  exact Bool.false_ne_true

/-- A move stays among the states of its chain. -/
theorem ChainState.move (state : ChainState laws P s limit t) {fuel : Nat} {w w' : Script laws}
    {accepted : Bool} (moved : (Kernel.move P.resume fuel t limit : EStateM Failure (Script laws) _) w =
      .ok (t', accepted) w') : ChainState laws P s limit t' := by
  obtain ⟨proposed, middle, regenerated, rest⟩ := bind_eq_ok.mp moved
  cases proposed with
  | none =>
    obtain ⟨same, _⟩ := pure_eq_ok.mp rest
    cases same
    exact state
  | some new =>
    obtain ⟨new, ratio⟩ := new
    obtain ⟨u, last, _, rest⟩ := bind_eq_ok.mp rest
    obtain ⟨i, v, draws, _, _, _, proposes, _⟩ := regenerate_proposes P.resume_performs
      (scripted laws P) (fun _ _ => trivial) trivial regenerated
    cases below : Score.less u ratio with
    | true =>
      simp only [below] at rest
      cases (pure_eq_ok.mp rest).1
      exact (proposes.splits state).1
    | false =>
      simp only [below] at rest
      cases (pure_eq_ok.mp rest).1
      exact state

end

end ProbCore
