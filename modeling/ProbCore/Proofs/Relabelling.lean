import ProbCore.Proofs.PlainProgram
import ProbCore.Strategy.Cascade
import ProbCore.Strategy.Enumeration
import ProbCore.Strategy.OpeningChain

/-! The same data with its suspended rests renamed and its addresses moved. Strategies never look
into a rest, and of addresses they only ask which are equal and which can be keys, so all that
they do with their data commutes with a relabelling. -/

namespace ProbCore

/-- New names for suspended rests, and a new place for every address that keeps what can be asked
of addresses. -/
structure Relabelling (place : Address → Address) (κ κ' : Type) where
  rest : κ → κ'
  place_beq : ∀ a a', (place a == place a') = (a == a')
  place_hashable : ∀ a, (place a).isHashable = a.isHashable

/-- Everything as it is. -/
def Relabelling.unmoved {κ : Type} : Relabelling id κ κ := ⟨id, fun _ _ => rfl, fun _ => rfl⟩

/-- Other rests at the same places. -/
def Relabelling.renaming {κ κ' : Type} (rest : κ → κ') : Relabelling id κ κ' :=
  ⟨rest, fun _ _ => rfl, fun _ => rfl⟩

variable {place : Address → Address} {κ κ' D R : Type}

def Step.relabel (L : Relabelling place κ κ') : Step κ D R → Step κ' D R
  | .sample s k a d => .sample s (L.rest k) (place a) d
  | .factor s k a x => .factor s (L.rest k) (place a) x
  | .exit s v => .exit s v
  | .stray v => .stray v

theorem Step.relabel_unmoved : (Step.relabel .unmoved : Step κ D R → Step κ D R) = id := by
  funext step
  cases step <;> rfl

/-- A step that waits only with rests inside, as a step over these. -/
def Step.confine {inside : κ → Prop} :
    {step : Step κ D R // ∀ k, step.rest? = some k → inside k} → Step {k // inside k} D R
  | ⟨.sample s k a d, waits⟩ => .sample s ⟨k, waits k rfl⟩ a d
  | ⟨.factor s k a x, waits⟩ => .factor s ⟨k, waits k rfl⟩ a x
  | ⟨.exit s v, _⟩ => .exit s v
  | ⟨.stray v, _⟩ => .stray v

def Reaction.map {σ σ' ο ο' : Type} (φ : σ → σ') (ψ : ο → ο') : Reaction σ ο → Reaction σ' ο'
  | .deliver state v => .deliver (φ state) v
  | .finish outcome => .finish (ψ outcome)

section

variable (L : Relabelling place κ κ')

def Branch.relabel (b : Branch κ R) : Branch κ' R := ⟨L.rest b.k, b.store, b.value, b.score⟩

def Heap.Entry.relabel (x : Heap.Entry κ R) : Heap.Entry κ' R :=
  ⟨x.rank, x.ticket, x.branch.relabel L⟩

def Frontier.relabel : Frontier κ R → Frontier κ' R
  | .stack bs => .stack (bs.map (·.relabel L))
  | .queue bs => .queue (bs.map (·.relabel L))
  | .heap es ticket => .heap (es.map (·.relabel L)) ticket

def Enumeration.Search.relabel (st : Enumeration.Search κ R) : Enumeration.Search κ' R :=
  ⟨st.frontier.relabel L, st.score, st.found, st.count⟩

def Choice.relabel (c : Choice κ D R) : Choice κ' D R :=
  ⟨place c.address, c.dist, c.value, c.logDensity, L.rest c.k, c.store, c.score, c.prior, c.factors⟩

def Ending.relabel : Ending κ → Ending κ'
  | .done v => .done v
  | .suspended k => .suspended (L.rest k)

def Trace.relabel (t : Trace κ D R) : Trace κ' D R :=
  ⟨t.choices.map (·.relabel L), t.score, t.prior, t.factors, t.store, t.ending.relabel L⟩

def Kernel.Recording.relabel (tape : Kernel.Recording κ D R) : Kernel.Recording κ' D R :=
  ⟨tape.choices.map (·.relabel L), tape.score, tape.prior, tape.factors, tape.reused.map place,
    tape.fresh⟩

def Kernel.Recorded.relabel (r : Kernel.Recorded κ D R) : Kernel.Recorded κ' D R :=
  ⟨r.trace.relabel L, r.reused.map place, r.fresh⟩

def Particle.relabel (p : Particle κ D R) : Particle κ' D R := ⟨p.trace.relabel L, p.weight⟩

def Filter.Outcome.relabel (out : Filter.Outcome κ D R) : Filter.Outcome κ' D R :=
  ⟨out.logMass, out.survivors.map (·.relabel L), out.report⟩

def OpeningChain.State.relabel (st : OpeningChain.State κ D R) : OpeningChain.State κ' D R :=
  ⟨st.opening.relabel L, st.logMass, st.population.map (·.relabel L)⟩

def Cascade.Pool.relabel (pool : Cascade.Pool κ D R) : Cascade.Pool κ' D R :=
  ⟨pool.buffer.map (·.relabel L), pool.finished.map (·.relabel L), pool.count, pool.arrivals⟩

def Cascade.Fate.relabel : Cascade.Fate κ D R → Cascade.Fate κ' D R
  | .lost => .lost
  | .finished p => .finished (p.relabel L)
  | .arrived p => .arrived (p.relabel L)

end

namespace Heap

variable (L : Relabelling place κ κ')

private theorem swap_relabel (h : Array (Entry κ R)) (i j : Nat) :
    (h.map (·.relabel L)).swapIfInBounds i j = (h.swapIfInBounds i j).map (·.relabel L) := by
  simp only [Array.swapIfInBounds_def, Array.size_map]
  split
  · split
    · refine Array.ext (by simp) fun k _ _ => ?_
      simp only [Array.getElem_swap, Array.getElem_map]
      split
      · rfl
      · split <;> rfl
    · rfl
  · rfl

variable [Score R]

theorem rise_relabel (h : Array (Entry κ R)) (i : Nat) :
    rise (h.map (·.relabel L)) i = (rise h i).map (·.relabel L) := by
  rw [rise, rise]
  by_cases top : i = 0
  · rw [if_pos top, if_pos top]
  rw [if_neg top, if_neg top]
  dsimp only
  rw [Array.getElem?_map, Array.getElem?_map]
  cases h[i]? with
  | none => rfl
  | some x =>
    cases h[(i - 1) / 2]? with
    | none => rfl
    | some p =>
      dsimp only [Option.map_some]
      rw [swap_relabel, rise_relabel (h.swapIfInBounds i ((i - 1) / 2)) ((i - 1) / 2)]
      exact (apply_ite (Array.map (Entry.relabel L)) (before x p = true) _ _).symm
termination_by i
decreasing_by omega

theorem firstChild_relabel (h : Array (Entry κ R)) (i : Nat) :
    firstChild (h.map (·.relabel L)) i = firstChild h i := by
  unfold firstChild
  rw [Array.getElem?_map, Array.getElem?_map]
  cases h[2 * i + 1]? with
  | none => rfl
  | some left =>
    cases h[2 * i + 2]? with
    | none => rfl
    | some right => rfl

theorem settle_relabel (h : Array (Entry κ R)) (fuel i : Nat) :
    settle (h.map (·.relabel L)) fuel i = (settle h fuel i).map (·.relabel L) := by
  induction fuel generalizing h i with
  | zero => exact rise_relabel L h i
  | succ fuel ih =>
    rw [settle, settle, Array.size_map]
    split
    · dsimp only
      rw [firstChild_relabel, swap_relabel, ih]
    · exact rise_relabel L h i

theorem push_relabel (h : Array (Entry κ R)) (x : Entry κ R) :
    push (h.map (·.relabel L)) (x.relabel L) = (push h x).map (·.relabel L) := by
  unfold push
  rw [← Array.map_push, Array.size_map, rise_relabel]

theorem pop?_relabel (h : Array (Entry κ R)) :
    pop? (h.map (·.relabel L)) =
      (pop? h).map fun (first, rest) => (first.relabel L, rest.map (·.relabel L)) := by
  unfold pop?
  rw [Array.getElem?_map, Array.back?_map]
  cases h[0]? with
  | none => rfl
  | some first =>
    cases h.back? with
    | none => rfl
    | some last =>
      dsimp only [Option.map_some]
      have same : ((h.pop).map (·.relabel L)).isEmpty = h.pop.isEmpty := by
        rw [Array.isEmpty, Array.size_map, Array.isEmpty]
      rw [← Array.map_pop, ← Array.map_setIfInBounds, settle_relabel, Array.size_map]
      simp only [same]
      split <;> rfl

end Heap

namespace Frontier

variable (L : Relabelling place κ κ')

theorem empty_relabel (t : Traversal) : (empty t : Frontier κ R).relabel L = empty t := by
  cases t <;> simp [empty, relabel]

theorem size_relabel (f : Frontier κ R) : (f.relabel L).size = f.size := by
  cases f <;> simp [relabel, size]

variable [Score R]

theorem pushRanked_relabel (f : Frontier κ R) (b : Branch κ R) :
    (f.relabel L).pushRanked (b.relabel L) = (f.pushRanked b).relabel L := by
  cases f with
  | stack bs => rfl
  | queue bs => simp [relabel, pushRanked]
  | heap es ticket =>
    simp only [relabel, pushRanked, ← Heap.push_relabel]
    rfl

theorem pushAll_relabel (f : Frontier κ R) (bs : List (Branch κ R)) :
    (f.relabel L).pushAll (bs.map (·.relabel L)) = (f.pushAll bs).relabel L := by
  cases f with
  | stack waiting => simp [relabel, pushAll]
  | queue waiting => simp [relabel, pushAll]
  | heap es ticket =>
    have pushed : ∀ f : Frontier κ R,
        (bs.map (·.relabel L)).foldl pushRanked (f.relabel L) = (bs.foldl pushRanked f).relabel L := by
      induction bs with
      | nil => exact fun _ => rfl
      | cons b bs ih =>
        intro f
        rw [List.map_cons, List.foldl_cons, List.foldl_cons, pushRanked_relabel, ih]
    exact pushed (.heap es ticket)

theorem pop?_relabel (f : Frontier κ R) :
    (f.relabel L).pop? = f.pop?.map fun (b, rest) => (b.relabel L, rest.relabel L) := by
  cases f with
  | stack bs => cases bs <;> rfl
  | queue bs => cases bs <;> rfl
  | heap es ticket =>
    simp only [relabel, pop?, Heap.pop?_relabel, Option.map_map]
    rfl

end Frontier

theorem Enumeration.Search.exhausted_relabel (L : Relabelling place κ κ') (c : Enumeration.Config)
    (st : Enumeration.Search κ R) : (st.relabel L).exhausted c = st.exhausted c := by
  rw [Search.exhausted, Search.relabel, Frontier.size_relabel]
  rfl

namespace Trace

variable (L : Relabelling place κ κ')

@[simp]
theorem done_relabel (t : Trace κ D R) : (t.relabel L).done = t.done := by
  obtain ⟨_, _, _, _, _, ending⟩ := t
  cases ending <;> rfl

@[simp]
theorem value?_relabel (t : Trace κ D R) : (t.relabel L).value? = t.value? := by
  obtain ⟨_, _, _, _, _, ending⟩ := t
  cases ending <;> rfl

theorem relabel_unmoved (t : Trace κ D R) : t.relabel .unmoved = t := by
  obtain ⟨choices, _, _, _, _, ending⟩ := t
  have same : choices.map (Choice.relabel .unmoved) = choices := List.map_id choices
  cases ending <;> rw [relabel, same] <;> rfl

theorem choiceAt?_relabel (t : Trace κ D R) (a : Address) :
    (t.relabel L).choiceAt? (place a) = (t.choiceAt? a).map (·.relabel L) := by
  simp only [choiceAt?, relabel, List.find?_map, Function.comp_def, Choice.relabel, L.place_beq]

end Trace

theorem Relabelling.contains_place (L : Relabelling place κ κ') (reused : List Address)
    (a : Address) : (reused.map place).contains (place a) = reused.contains a := by
  simp only [List.contains_eq_any_beq, List.any_map, Function.comp_def, L.place_beq]

namespace Kernel

variable (L : Relabelling place κ κ')

theorem Recording.record_relabel [Score R] (tape : Recording κ D R) (s : Store) (k : κ)
    (a : Address) (d : D) (v : Value) (lp : R) :
    (tape.record s k a d v lp).relabel L =
      (tape.relabel L).record s (L.rest k) (place a) d v lp := rfl

theorem Recording.finish_relabel (tape : Recording κ D R) (s : Store) (ending : Ending κ) :
    (tape.finish s ending).relabel L = (tape.relabel L).finish s (ending.relabel L) := by
  simp only [Recording.finish, Recorded.relabel, Recording.snapshot, Trace.relabel,
    Recording.relabel, List.map_reverse]

theorem dropped_relabel (later : List (Choice κ D R)) (reused : List Address) :
    dropped (later.map (·.relabel L)) (reused.map place) = dropped later reused := by
  simp only [dropped, List.filter_map, Function.comp_def, Choice.relabel, L.contains_place,
    List.map_map]

end Kernel

namespace Particle

variable (L : Relabelling place κ κ')

theorem weights_relabel (ps : List (Particle κ D R)) :
    (ps.map (·.relabel L)).map (·.weight) = ps.map (·.weight) := by
  rw [List.map_map]
  rfl

variable [Score R]

@[simp]
theorem alive_relabel (p : Particle κ D R) : (p.relabel L).alive = p.alive := rfl

@[simp]
theorem finished_relabel (p : Particle κ D R) : (p.relabel L).finished = p.finished := by
  rw [finished, alive_relabel, relabel, Trace.done_relabel]
  rfl

theorem logMeanWeight_relabel (ps : List (Particle κ D R)) :
    logMeanWeight (ps.map (·.relabel L)) = logMeanWeight ps := by
  simp only [logMeanWeight, weights_relabel, List.length_map]

end Particle

theorem Filter.frontline_relabel [Score R] (L : Relabelling place κ κ')
    (ps : List (Particle κ D R)) : frontline (ps.map (·.relabel L)) = frontline ps := by
  simp only [frontline, List.filter_map, Function.comp_def, Particle.finished_relabel, List.map_map]
  rfl

end ProbCore
