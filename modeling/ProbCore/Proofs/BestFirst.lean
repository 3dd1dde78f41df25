import ProbCore.Proofs.HeapOrder
import ProbCore.Proofs.ExplorationOrder

/-! The search that takes the likeliest branch first. Where choices and factors only ever lower a score,
no execution is likelier than a branch that it goes through. Every execution not yet recorded goes through
a pending branch, and the likeliest of these comes next. So executions are recorded in the order of their
scores, and a search that stops early has recorded the likeliest ones, of finitely many or infinitely many. -/

namespace ProbCore.Enumeration

section

variable {κ D R : Type} [Score R]

/-- From a step on, the execution that takes the values at these places of the supports ends with this
value and this score. -/
inductive Completes (laws : Densities D R) (P : PlainProgram κ D R) :
    R → Step κ D R → List Nat → Value → R → Prop
  | exit {score s v} : Completes laws P score (.exit s v) [] v score
  | factor {score s k a x next path v total} (goes : P.next k s .absent = .ok next)
      (rest : Completes laws P (score + x) next path v total) :
      Completes laws P score (.factor s k a x) path v total
  | choice {score s k a d values i value x next path v total} (listed : laws.support d = .ok values)
      (chosen : values[i]? = some value) (weighed : laws.logDensity d value = .ok x)
      (goes : P.next k s value = .ok next) (rest : Completes laws P (score + x) next path v total) :
      Completes laws P score (.sample s k a d) (i :: path) v total

/-- A complete execution of the program. -/
def IsExecution (laws : Densities D R) (P : PlainProgram κ D R) (s : Store) (path : List Nat) (v : Value)
    (total : R) : Prop :=
  ∃ step, P.next P.entry s .absent = .ok step ∧ Completes laws P Score.zero step path v total

/-- The program can come to this step. -/
inductive Reached (laws : Densities D R) (P : PlainProgram κ D R) (s : Store) : Step κ D R → Prop
  | start {step} (begins : P.next P.entry s .absent = .ok step) : Reached laws P s step
  | factor {s' k a x next} (reached : Reached laws P s (.factor s' k a x))
      (goes : P.next k s' .absent = .ok next) : Reached laws P s next
  | choice {s' k a d values value x next} (reached : Reached laws P s (.sample s' k a d))
      (listed : laws.support d = .ok values) (chosen : value ∈ values)
      (weighed : laws.logDensity d value = .ok x) (goes : P.next k s' value = .ok next) : Reached laws P s next

/-- No choice and no factor raises a score, and after its last choice the program absorbs no factor. -/
structure Descending (laws : Densities D R) (P : PlainProgram κ D R) (s : Store) : Prop where
  choices {s' k a d values value x} : Reached laws P s (.sample s' k a d) → laws.support d = .ok values →
    value ∈ values → laws.logDensity d value = .ok x → Score.Sunk x
  factors {s' k a x} : Reached laws P s (.factor s' k a x) → Score.Sunk x
  last {s' k a d values value x next score v total} : Reached laws P s (.sample s' k a d) →
    laws.support d = .ok values → value ∈ values → laws.logDensity d value = .ok x →
    P.next k s' value = .ok next → Completes laws P score next [] v total → ∃ s'', next = .exit s'' v

/-- A branch with the places of the values that lead to it. -/
structure Thread (κ R : Type) where
  path : List Nat
  branch : Branch κ R

/-- How an execution comes to rest: it ends, or it has no mass left, or it comes to its next choice. -/
inductive Landing (κ R : Type) where
  | ends (value : Value) (score : R)
  | stops
  | forks (k : κ) (s : Store) (score : R) (branches : List (Value × R))

namespace Landing

def found : Landing κ R → List (Value × R)
  | ends value score => [(value, score)]
  | stops | forks .. => []

def threads (path : List Nat) : Landing κ R → List (Thread κ R)
  | forks k s score branches =>
    (branches.zipIdx.filter fun b => possible b.1).map fun b => ⟨path ++ [b.2], k, s, b.1.1, score + b.1.2⟩
  | ends .. | stops => []

/-- The branches without the places of their values. -/
def branches : Landing κ R → List (Branch κ R)
  | forks k s score branches => Enumeration.forks k s score branches
  | ends .. | stops => []

theorem threads_branch (landing : Landing κ R) (path : List Nat) :
    (landing.threads path).map (·.branch) = landing.branches := by
  cases landing with
  | ends | stops => rfl
  | forks k s score branches =>
    have plain : branches.filter possible = (branches.zipIdx.filter fun b => possible b.1).map (·.1) := by
      conv_lhs => rw [← List.zipIdx_map_fst 0 branches, List.filter_map]
      rfl
    rw [threads, Landing.branches, Enumeration.forks, plain, List.map_map, List.map_map]
    rfl

end Landing

inductive Lands (laws : Densities D R) (P : PlainProgram κ D R) : R → Step κ D R → Landing κ R → Prop
  | exit {score s v} : Lands laws P score (.exit s v) (.ends v score)
  | stops {score s k a x} (hopeless : Score.isHopeless (score + x) = true) :
      Lands laws P score (.factor s k a x) .stops
  | factor {score s k a x next landing} (goes : P.next k s .absent = .ok next)
      (lands : Lands laws P (score + x) next landing) : Lands laws P score (.factor s k a x) landing
  | choice {score s k a d branches} (listed : laws.support d = .ok (branches.map (·.1)))
      (weighed : ∀ b ∈ branches, laws.logDensity d b.1 = .ok b.2) :
      Lands laws P score (.sample s k a d) (.forks k s score branches)

/-- The branches left to explore, in the order in which they were found, and the executions recorded, in
order. -/
structure Horizon (κ R : Type) where
  pending : List (Thread κ R)
  recorded : List (List Nat × Value × R)

/-- What is left and recorded after an execution has come to rest. -/
def Horizon.after (left : Horizon κ R) (path : List Nat) (landing : Landing κ R) : Horizon κ R :=
  ⟨left.pending ++ landing.threads path, left.recorded ++ landing.found.map (path, ·)⟩

/-- A search from the entry that always takes a branch of the greatest score, and of several with this
score the one that it found first. -/
inductive Explored (laws : Densities D R) (P : PlainProgram κ D R) (s : Store) : Horizon κ R → Prop
  | start : Explored laws P s ⟨[⟨[], P.entry, s, .absent, Score.zero⟩], []⟩
  | round {before after recorded path} {b : Branch κ R} {step landing}
      (explored : Explored laws P s ⟨before ++ ⟨path, b⟩ :: after, recorded⟩)
      (greater : ∀ t ∈ before, Score.less t.branch.score b.score = true)
      (atLeast : ∀ t ∈ after, Score.atMost t.branch.score b.score = true)
      (goes : P.next b.k b.store b.value = .ok step) (lands : Lands laws P b.score step landing) :
      Explored laws P s (Horizon.after ⟨before ++ after, recorded⟩ path landing)

theorem mem_threads {path : List Nat} {k : κ} {s : Store} {score : R} {branches : List (Value × R)}
    {t : Thread κ R} (member : t ∈ (Landing.forks k s score branches).threads path) :
    ∃ (i : Nat) (b : Value × R), branches[i]? = some b ∧ possible b = true ∧
      t = ⟨path ++ [i], k, s, b.1, score + b.2⟩ := by
  obtain ⟨⟨b, i⟩, chosen, rfl⟩ := List.mem_map.mp member
  obtain ⟨present, mass⟩ := List.mem_filter.mp chosen
  exact ⟨i, b, List.mem_zipIdx_iff_getElem?.mp present, mass, rfl⟩

theorem threads_mem {path : List Nat} {k : κ} {s : Store} {score : R} {branches : List (Value × R)} {i : Nat}
    {b : Value × R} (present : branches[i]? = some b) (mass : possible b = true) :
    ⟨path ++ [i], k, s, b.1, score + b.2⟩ ∈ (Landing.forks k s score branches).threads path :=
  List.mem_map.mpr ⟨(b, i), List.mem_filter.mpr ⟨List.mem_zipIdx_iff_getElem?.mpr present, mass⟩, rfl⟩

end

section

variable {κ D R : Type} [Score R] [OrderedScore R] {laws : Densities D R} {P : PlainProgram κ D R} {s : Store}
  {score total : R} {step : Step κ D R} {path : List Nat} {v : Value} {landing : Landing κ R}

/-- A score that is at most any number. -/
def Least (x : R) : Prop := ∀ y : R, Score.isNaN y = false → Score.atMost x y = true

theorem least_of_impossible (impossible : Score.isImpossible total = true) (sunk : Score.Sunk total) :
    Least total :=
  fun _ number => OrderedScore.atMost_iff.mpr ⟨sunk.2, number, OrderedScore.rank_impossible_le impossible number⟩

theorem Least.mono {x y : R} (least : Least y) (below : Score.atMost x y = true) : Least x :=
  fun z number => OrderedScore.atMost_trans below (least z number)

omit [OrderedScore R] in
theorem impossible_of_hopeless (hopeless : Score.isHopeless total = true) (sunk : Score.Sunk total) :
    Score.isImpossible total = true := by
  rwa [Score.isHopeless, sunk.2, Bool.or_false] at hopeless

/-- An execution ends with a score that is at most any that it has on its way. -/
theorem Completes.bounded (descending : Descending laws P s) (completes : Completes laws P score step path v total)
    (reached : Reached laws P s step) (sunk : Score.Sunk score) :
    Score.Sunk total ∧ Score.atMost total score = true := by
  induction completes with
  | exit => exact ⟨sunk, OrderedScore.atMost_refl sunk.2⟩
  | @factor score s' k a x next path v total goes rest ih =>
    have low := descending.factors reached
    obtain ⟨sunk', below⟩ := ih (reached.factor goes) (LawfulScore.sunk_add sunk low)
    exact ⟨sunk', OrderedScore.atMost_trans below (OrderedScore.add_atMost sunk low)⟩
  | @choice score s' k a d values i value x next path v total listed chosen weighed goes rest ih =>
    have member := List.mem_of_getElem? chosen
    have low := descending.choices reached listed member weighed
    obtain ⟨sunk', below⟩ := ih (reached.choice listed member weighed goes) (LawfulScore.sunk_add sunk low)
    exact ⟨sunk', OrderedScore.atMost_trans below (OrderedScore.add_atMost sunk low)⟩

/-- The branch comes of a choice that the program can come to. -/
def Chosen (laws : Densities D R) (P : PlainProgram κ D R) (s : Store) (b : Branch κ R) : Prop :=
  ∃ a d values x, Reached laws P s (.sample b.store b.k a d) ∧ laws.support d = .ok values ∧ b.value ∈ values ∧
    laws.logDensity d b.value = .ok x

omit [Score R] [OrderedScore R] in
theorem Chosen.reached {b : Branch κ R} (chosen : Chosen laws P s b)
    (goes : P.next b.k b.store b.value = .ok step) : Reached laws P s step := by
  obtain ⟨a, d, values, x, reached, listed, member, weighed⟩ := chosen
  exact reached.choice listed member weighed goes

omit [OrderedScore R] in
/-- An execution that ends without a further choice ends with the score that it had after the last. -/
theorem Chosen.last {b : Branch κ R} (descending : Descending laws P s) (chosen : Chosen laws P s b)
    (goes : P.next b.k b.store b.value = .ok step) (completes : Completes laws P score step [] v total) :
    total = score := by
  obtain ⟨a, d, values, x, reached, listed, member, weighed⟩ := chosen
  obtain ⟨s', rfl⟩ := descending.last reached listed member weighed goes completes
  cases completes
  rfl

namespace Lands

omit [OrderedScore R] in
theorem completes (lands : Lands laws P score step landing) (found : (v, total) ∈ landing.found) :
    Completes laws P score step [] v total := by
  induction lands with
  | exit =>
    cases List.mem_singleton.mp found
    exact .exit
  | stops => cases found
  | factor goes _ ih => exact .factor goes (ih found)
  | choice => cases found

/-- Where an execution comes to rest, it has some score that it may still lower. -/
theorem bounded (descending : Descending laws P s) (lands : Lands laws P score step landing)
    (reached : Reached laws P s step) (sunk : Score.Sunk score) (path : List Nat) :
    ∀ t ∈ landing.threads path, Chosen laws P s t.branch ∧ Score.Sunk t.branch.score ∧
      Score.atMost t.branch.score score = true := by
  induction lands with
  | exit | stops => exact nofun
  | @factor score s' k a x next landing goes lands ih =>
    have low := descending.factors reached
    intro t member
    obtain ⟨chosen, sunk', below⟩ := ih (reached.factor goes) (LawfulScore.sunk_add sunk low) t member
    exact ⟨chosen, sunk', OrderedScore.atMost_trans below (OrderedScore.add_atMost sunk low)⟩
  | @choice score s' k a d branches listed weighed =>
    intro t member
    obtain ⟨i, b, present, _, rfl⟩ := mem_threads member
    have member := List.mem_of_getElem? present
    have value := List.mem_map_of_mem (f := Prod.fst) member
    have low := descending.choices reached listed value (weighed b member)
    exact ⟨⟨a, d, _, b.2, reached, listed, value, weighed b member⟩, LawfulScore.sunk_add sunk low,
      OrderedScore.add_atMost sunk low⟩

omit [OrderedScore R] in
/-- What completes from a branch completes from where the execution came to rest. -/
theorem completes_thread (lands : Lands laws P score step landing) {t : Thread κ R}
    (member : t ∈ landing.threads path) {next : Step κ D R} {rest : List Nat}
    (goes : P.next t.branch.k t.branch.store t.branch.value = .ok next)
    (completes : Completes laws P t.branch.score next rest v total) :
    ∃ more, t.path ++ rest = path ++ more ∧ Completes laws P score step more v total := by
  induction lands with
  | exit | stops => cases member
  | factor here _ ih =>
    obtain ⟨more, same, completes⟩ := ih member
    exact ⟨more, same, .factor here completes⟩
  | choice listed weighed =>
    obtain ⟨i, b, present, _, rfl⟩ := mem_threads member
    have known := weighed b (List.mem_of_getElem? present)
    refine ⟨i :: rest, List.append_assoc _ _ _, .choice listed ?_ known goes completes⟩
    rw [List.getElem?_map, present]
    rfl

/-- An execution that completes from there is found, or goes through one of the branches, or has no mass. -/
theorem covers (descending : Descending laws P s) (lands : Lands laws P score step landing)
    (reached : Reached laws P s step) (sunk : Score.Sunk score) (path : List Nat) {more : List Nat}
    (completes : Completes laws P score step more v total) :
    (more = [] ∧ (v, total) ∈ landing.found) ∨
    (∃ t ∈ landing.threads path, ∃ rest next, path ++ more = t.path ++ rest ∧
      P.next t.branch.k t.branch.store t.branch.value = .ok next ∧
      Completes laws P t.branch.score next rest v total) ∨ Least total := by
  induction lands generalizing more with
  | exit =>
    cases completes
    exact .inl ⟨rfl, List.mem_singleton_self _⟩
  | @stops score s' k a x hopeless =>
    cases completes with
    | @factor _ _ _ _ _ next _ _ _ goes rest =>
      have sunk' := LawfulScore.sunk_add sunk (descending.factors reached)
      obtain ⟨_, below⟩ := rest.bounded descending (reached.factor goes) sunk'
      exact .inr (.inr ((least_of_impossible (impossible_of_hopeless hopeless sunk') sunk').mono below))
  | @factor score s' k a x next landing goes lands ih =>
    cases completes with
    | factor goes' rest =>
      obtain rfl := Except.ok.inj (goes.symm.trans goes')
      exact ih (reached.factor goes) (LawfulScore.sunk_add sunk (descending.factors reached)) rest
  | @choice score s' k a d branches listed weighed =>
    cases completes with
    | @choice _ _ _ _ _ values i value x next rest _ _ listed' chosen weighed' goes completes =>
      obtain rfl := Except.ok.inj (listed.symm.trans listed')
      rw [List.getElem?_map, Option.map_eq_some_iff] at chosen
      obtain ⟨b, present, rfl⟩ := chosen
      have member := List.mem_of_getElem? present
      obtain rfl := Except.ok.inj ((weighed b member).symm.trans weighed')
      cases mass : possible b with
      | true =>
        refine .inr (.inl ⟨_, threads_mem present mass, rest, next, ?_, goes, completes⟩)
        exact (List.append_assoc path [i] rest).symm
      | false =>
        have value := List.mem_map_of_mem (f := Prod.fst) member
        have low := descending.choices reached listed value weighed'
        obtain ⟨_, below⟩ := completes.bounded descending (reached.choice listed value weighed' goes)
          (LawfulScore.sunk_add sunk low)
        have impossible : Score.isImpossible b.2 = true := by simpa [possible] using mass
        exact .inr (.inr (Least.mono (fun y => LawfulScore.impossible_atMost sunk impossible) below))

end Lands

/-- Neither is the other or goes on from it. -/
def Apart (p q : List Nat) : Prop := ¬ p <+: q ∧ ¬ q <+: p

theorem apart_comm {p q : List Nat} : Apart p q ↔ Apart q p := And.comm

theorem Apart.concat {p q : List Nat} (apart : Apart p q) (i : Nat) : Apart (p ++ [i]) q := by
  refine ⟨fun further => apart.1 ((List.prefix_append p [i]).trans further), fun earlier => ?_⟩
  rcases List.prefix_concat_iff.mp earlier with rfl | earlier
  · exact apart.1 (List.prefix_append p [i])
  · exact apart.2 earlier

theorem concat_apart (p : List Nat) {i j : Nat} (other : i ≠ j) : Apart (p ++ [i]) (p ++ [j]) := by
  constructor <;> intro further <;> simp_all [List.prefix_append_right_inj]

/-- Where the branches and the recorded executions of a horizon stand. -/
def Horizon.paths (h : Horizon κ R) : List (List Nat) := h.pending.map (·.path) ++ h.recorded.map (·.1)

omit [OrderedScore R] in
theorem threads_apart (path : List Nat) (k : κ) (s : Store) (score : R) (branches : List (Value × R)) :
    (((Landing.forks k s score branches).threads path).map (·.path)).Pairwise Apart := by
  rw [Landing.threads, List.map_map]
  refine List.pairwise_map.mpr (List.Pairwise.filter _ ?_)
  have distinct : (branches.zipIdx.map (·.2)).Nodup := by
    rw [List.zipIdx_map_snd]
    exact List.nodup_range'
  exact (List.pairwise_map.mp distinct).imp fun other => concat_apart path other

omit [OrderedScore R] in
/-- The branches of a choice stand apart where the branch that came to it did. -/
theorem Horizon.after_apart {left : Horizon κ R} (apart : (path :: left.paths).Pairwise Apart) :
    (left.after path landing).paths.Pairwise Apart := by
  obtain ⟨here, apart⟩ := List.pairwise_cons.mp apart
  have regroup : (left.after path landing).paths.Perm
      (((landing.threads path).map (·.path) ++ landing.found.map fun _ => path) ++ left.paths) := by
    simp only [paths, after, List.map_append, List.map_map, Function.comp_def, List.perm_iff_count,
      List.count_append]
    omega
  refine (List.Perm.pairwise_iff (fun {_ _} => apart_comm.mp) regroup).mpr ?_
  refine List.pairwise_append.mpr ⟨?_, apart, fun p member q old => ?_⟩
  · cases landing with
    | ends => exact List.pairwise_singleton _ _
    | stops => exact .nil
    | forks k s score branches =>
      rw [Landing.found, List.map_nil, List.append_nil]
      exact threads_apart path k s score branches
  · cases landing with
    | ends =>
      obtain rfl := List.mem_singleton.mp member
      exact here q old
    | stops => cases member
    | forks k s score branches =>
      rw [Landing.found, List.map_nil, List.append_nil] at member
      obtain ⟨t, forked, rfl⟩ := List.mem_map.mp member
      obtain ⟨i, b, _, _, rfl⟩ := mem_threads forked
      exact (here q old).concat i

/-- A search from the entry begins here. -/
def origin (P : PlainProgram κ D R) (s : Store) : Thread κ R := ⟨[], P.entry, s, .absent, Score.zero⟩

/-- What is left and recorded accounts for every execution of the program. -/
structure Account (laws : Densities D R) (P : PlainProgram κ D R) (s : Store) (h : Horizon κ R) : Prop where
  chosen : h = ⟨[origin P s], []⟩ ∨ ∀ t ∈ h.pending, Chosen laws P s t.branch
  low : ∀ t ∈ h.pending, Score.Sunk t.branch.score
  below : ∀ t ∈ h.pending, ∀ r ∈ h.recorded, Score.atMost t.branch.score r.2.2 = true
  sorted : h.recorded.Pairwise fun r r' => Score.atMost r'.2.2 r.2.2 = true
  apart : h.paths.Pairwise Apart
  executions : ∀ r ∈ h.recorded, IsExecution laws P s r.1 r.2.1 r.2.2
  follows : ∀ t ∈ h.pending, ∀ next rest v total, P.next t.branch.k t.branch.store t.branch.value = .ok next →
    Completes laws P t.branch.score next rest v total → IsExecution laws P s (t.path ++ rest) v total
  covers : ∀ path v total, IsExecution laws P s path v total → (path, v, total) ∈ h.recorded ∨
    (∃ t ∈ h.pending, ∃ rest next, path = t.path ++ rest ∧
      P.next t.branch.k t.branch.store t.branch.value = .ok next ∧
      Completes laws P t.branch.score next rest v total) ∨ Least total

namespace Account

theorem start : Account laws P s (⟨[origin P s], []⟩ : Horizon κ R) where
  chosen := .inl rfl
  low := List.forall_mem_singleton.mpr LawfulScore.zero_sunk
  below _ _ := nofun
  sorted := .nil
  apart := List.pairwise_singleton _ _
  executions := nofun
  follows := by
    refine List.forall_mem_singleton.mpr fun next rest v total goes completes => ?_
    exact ⟨next, goes, completes⟩
  covers := by
    rintro path v total ⟨next, goes, completes⟩
    exact .inr (.inl ⟨origin P s, List.mem_singleton_self _, path, next, rfl, goes, completes⟩)

variable {before after : List (Thread κ R)} {recorded : List (List Nat × Value × R)} {b : Branch κ R}

omit [OrderedScore R] in
theorem reached (account : Account laws P s ⟨before ++ ⟨path, b⟩ :: after, recorded⟩)
    (goes : P.next b.k b.store b.value = .ok step) : Reached laws P s step := by
  rcases account.chosen with first | chosen
  · have only : before ++ ⟨path, b⟩ :: after = [origin P s] := congrArg Horizon.pending first
    have here : (⟨path, b⟩ : Thread κ R) ∈ [origin P s] := only ▸ List.mem_append_cons_self
    obtain rfl : b = (origin P s).branch := congrArg Thread.branch (List.mem_singleton.mp here)
    exact .start goes
  · exact (chosen ⟨path, b⟩ List.mem_append_cons_self).reached goes

omit [OrderedScore R] in
theorem chosen_or_alone (account : Account laws P s ⟨before ++ ⟨path, b⟩ :: after, recorded⟩) :
    (∀ t ∈ before ++ ⟨path, b⟩ :: after, Chosen laws P s t.branch) ∨ before ++ after = [] := by
  refine account.chosen.symm.imp_right fun first => ?_
  have only : (before ++ ⟨path, b⟩ :: after).length = 1 := congrArg (fun h => h.pending.length) first
  rw [List.length_append, List.length_cons] at only
  refine List.eq_nil_of_length_eq_zero ?_
  rw [List.length_append]
  omega

omit [OrderedScore R] in
/-- No branch that is left is likelier than an execution found at the end of the likeliest. -/
theorem level (account : Account laws P s ⟨before ++ ⟨path, b⟩ :: after, recorded⟩)
    (descending : Descending laws P s) (goes : P.next b.k b.store b.value = .ok step)
    (lands : Lands laws P b.score step landing)
    (greatest : ∀ t ∈ before ++ after, Score.atMost t.branch.score b.score = true) :
    ∀ t ∈ before ++ after, ∀ e ∈ landing.found, Score.atMost t.branch.score e.2 = true := by
  rcases account.chosen_or_alone with chosen | none_left
  · intro t member e found
    have same := (chosen ⟨path, b⟩ List.mem_append_cons_self).last descending goes (lands.completes found)
    rw [same]
    exact greatest t member
  · rw [none_left]
    exact nofun

/-- Taking a likeliest branch keeps the account. -/
theorem round (account : Account laws P s ⟨before ++ ⟨path, b⟩ :: after, recorded⟩)
    (descending : Descending laws P s) (goes : P.next b.k b.store b.value = .ok step)
    (lands : Lands laws P b.score step landing)
    (greatest : ∀ t ∈ before ++ after, Score.atMost t.branch.score b.score = true) :
    Account laws P s (Horizon.after ⟨before ++ after, recorded⟩ path landing) := by
  have split : (before ++ ⟨path, b⟩ :: after).Perm (⟨path, b⟩ :: (before ++ after)) := List.perm_middle
  have here : (⟨path, b⟩ : Thread κ R) ∈ before ++ ⟨path, b⟩ :: after := List.mem_append_cons_self
  have there {t : Thread κ R} (member : t ∈ before ++ after) : t ∈ before ++ ⟨path, b⟩ :: after :=
    split.mem_iff.mpr (List.mem_cons_of_mem _ member)
  have reached := account.reached goes
  have sunk := account.low _ here
  have forked := lands.bounded descending reached sunk path
  have found {e : Value × R} (member : e ∈ landing.found) :=
    (lands.completes member).bounded descending reached sunk
  have level := account.level descending goes lands greatest
  exact {
    chosen := by
      refine .inr (List.forall_mem_append.mpr ⟨fun t old => ?_, fun t new => (forked t new).1⟩)
      rcases account.chosen_or_alone with chosen | none_left
      · exact chosen t (there old)
      · exact absurd old (none_left ▸ List.not_mem_nil)
    low := List.forall_mem_append.mpr ⟨fun t old => account.low t (there old), fun t new => (forked t new).2.1⟩
    below := by
      refine List.forall_mem_append.mpr ⟨fun t old => List.forall_mem_append.mpr ⟨?_, ?_⟩,
        fun t new => List.forall_mem_append.mpr ⟨?_, ?_⟩⟩
      · exact account.below t (there old)
      · exact List.forall_mem_map.mpr (level t old)
      · exact fun r member => OrderedScore.atMost_trans (forked t new).2.2 (account.below _ here r member)
      · cases landing with
        | ends | stops => cases new
        | forks => exact nofun
    sorted := by
      refine List.pairwise_append.mpr ⟨account.sorted, ?_, fun r old => List.forall_mem_map.mpr fun e new => ?_⟩
      · cases landing with
        | ends => exact List.pairwise_singleton _ _
        | stops | forks => exact .nil
      · exact OrderedScore.atMost_trans (found new).2 (account.below _ here r old)
    apart := by
      refine Horizon.after_apart ?_
      have moved := (split.map (·.path)).append_right (recorded.map (·.1))
      exact (List.Perm.pairwise_iff (fun {_ _} => apart_comm.mp) moved).mp account.apart
    executions := by
      refine List.forall_mem_append.mpr ⟨account.executions, List.forall_mem_map.mpr fun e new => ?_⟩
      have whole := account.follows _ here _ _ _ _ goes (lands.completes new)
      rwa [List.append_nil] at whole
    follows := by
      refine List.forall_mem_append.mpr ⟨fun t old => account.follows t (there old), ?_⟩
      intro t new next rest v total goes' completes
      obtain ⟨more, same, completes⟩ := lands.completes_thread new goes' completes
      rw [same]
      exact account.follows _ here _ _ _ _ goes completes
    covers := by
      intro place v total execution
      rcases account.covers place v total execution with
        old | ⟨t, member, more, next, rfl, goes', completes⟩ | least
      · exact .inl (List.mem_append_left _ old)
      · rcases List.mem_cons.mp (split.mem_iff.mp member) with rfl | old
        · obtain rfl := Except.ok.inj (goes.symm.trans goes')
          rcases lands.covers descending reached sunk path completes with
            ⟨rfl, new⟩ | ⟨t, new, rest, later, same, goes', completes⟩ | least
          · rw [List.append_nil]
            exact .inl (List.mem_append_right _ (List.mem_map_of_mem new))
          · exact .inr (.inl ⟨t, List.mem_append_right _ new, rest, later, same, goes', completes⟩)
          · exact .inr (.inr least)
        · exact .inr (.inl ⟨t, List.mem_append_left _ old, more, next, rfl, goes', completes⟩)
      · exact .inr (.inr least) }

end Account

/-- These executions, each recorded once, come in the order of their scores, and no other has a greater
score. -/
structure Likeliest (laws : Densities D R) (P : PlainProgram κ D R) (s : Store)
    (recorded : List (List Nat × Value × R)) : Prop where
  executions : ∀ r ∈ recorded, IsExecution laws P s r.1 r.2.1 r.2.2
  once : (recorded.map (·.1)).Nodup
  sorted : recorded.Pairwise fun r r' => Score.atMost r'.2.2 r.2.2 = true
  greatest : ∀ path v total, IsExecution laws P s path v total → (path, v, total) ∉ recorded →
    ∀ r ∈ recorded, Score.atMost total r.2.2 = true

variable {h : Horizon κ R}

theorem Account.likeliest (account : Account laws P s h) (descending : Descending laws P s) :
    Likeliest laws P s h.recorded where
  executions := account.executions
  once := by
    have apart := (List.pairwise_append.mp account.apart).2.1
    refine apart.imp fun apart same => ?_
    subst same
    exact apart.1 (List.prefix_refl _)
  sorted := account.sorted
  greatest := by
    intro path v total execution missing r member
    obtain ⟨step, begins, completes⟩ := account.executions r member
    have number := (completes.bounded descending (.start begins) LawfulScore.zero_sunk).1.2
    rcases account.covers path v total execution with present | ⟨t, left, rest, next, rfl, goes, completes⟩ | least
    · exact absurd present missing
    · obtain ⟨before, after, split⟩ := List.append_of_mem left
      obtain ⟨pending, recorded⟩ := h
      obtain rfl : pending = before ++ t :: after := split
      obtain ⟨_, bound⟩ := completes.bounded descending (account.reached goes) (account.low t left)
      exact OrderedScore.atMost_trans bound (account.below t left r member)
    · exact least r.2.2 number

theorem Explored.account (explored : Explored laws P s h) (descending : Descending laws P s) :
    Account laws P s h := by
  induction explored with
  | start => exact .start
  | round explored greater atLeast goes lands ih =>
    refine ih.round descending goes lands (List.forall_mem_append.mpr ⟨fun t member => ?_, atLeast⟩)
    exact Bool.or_eq_true_iff.mpr (.inl (greater t member))

end

section

variable {σ κ D R : Type} [Host (EStateM Failure σ) D R] [LawfulHost σ D R] [Score R] [OrderedScore R]
  {P : PlainProgram κ D R} {inside : κ → Prop} {resume : Resume (EStateM Failure σ) κ D R} {s : Store}
  {steps n fuel : Nat} {st st' : Search κ R} {step : Step κ D R} {w w' : σ}

omit [OrderedScore R] in
theorem fork_eq_ok {d : D} {k : κ} {score : R} {values : List Value} {branches : List (Branch κ R)}
    (forked : (fork d k s score values : EStateM Failure σ _) w = .ok branches w') :
    w' = w ∧ ∃ weighed : List (Value × R), values = weighed.map (·.1) ∧
      (∀ b ∈ weighed, (LawfulHost.densities σ).logDensity d b.1 = .ok b.2) ∧
      branches = forks k s score weighed := by
  induction values generalizing branches w' with
  | nil =>
    obtain ⟨rfl, rfl⟩ := pure_eq_ok.mp forked
    exact ⟨rfl, [], rfl, nofun, rfl⟩
  | cons v values ih =>
    obtain ⟨x, _, density, rest⟩ := bind_eq_ok.mp forked
    obtain ⟨known, rfl⟩ := logDensity_eq_ok.mp density
    obtain ⟨others, _, later, returned⟩ := bind_eq_ok.mp rest
    obtain ⟨rfl, weighed, rfl, all, rfl⟩ := ih later
    obtain ⟨rfl, rfl⟩ := pure_eq_ok.mp returned
    refine ⟨rfl, (v, x) :: weighed, rfl, List.forall_mem_cons.mpr ⟨known, all⟩, ?_⟩
    cases mass : Score.isImpossible x <;> simp [forks, possible, mass]

omit [OrderedScore R] in
/-- An execution comes to rest as the program has it, and the search keeps what comes of it. -/
theorem drive_lands (performs : Performs resume P inside) (held : ∀ k, step.rest? = some k → inside k)
    (ready : LawfulHost.ready w) (driven : drive resume handler steps st step w = .ok st' w') :
    LawfulHost.ready w' ∧ ∃ landing, Lands (LawfulHost.densities σ) P st.score step landing ∧
      st'.found = landing.found ++ st.found ∧ st'.frontier = st.frontier.pushAll landing.branches ∧
      ∀ b ∈ landing.branches, inside b.k := by
  induction steps generalizing st step w with
  | zero => exact absurd driven fail_ne_ok
  | succ steps ih =>
    cases step with
    | exit s v =>
      obtain ⟨rfl, rfl⟩ := pure_eq_ok.mp driven
      exact ⟨ready, .ends v st.score, .exit, rfl, (Frontier.pushAll_nil _).symm, List.forall_mem_nil _⟩
    | stray v => exact absurd driven fail_ne_ok
    | sample s k a d =>
      obtain ⟨reaction, _, reacted, rest⟩ := bind_eq_ok.mp driven
      obtain ⟨values, _, supported, forking⟩ := bind_eq_ok.mp reacted
      rw [LawfulHost.support_eq] at supported
      obtain ⟨listed, rfl⟩ := lift_eq_ok.mp supported
      obtain ⟨branches, _, forked, returned⟩ := bind_eq_ok.mp forking
      obtain ⟨rfl, weighed, rfl, all, rfl⟩ := fork_eq_ok forked
      obtain ⟨rfl, rfl⟩ := pure_eq_ok.mp returned
      obtain ⟨rfl, rfl⟩ := pure_eq_ok.mp rest
      refine ⟨ready, .forks k s st.score weighed, .choice listed all, rfl, rfl, fun b member => ?_⟩
      obtain ⟨_, _, rfl⟩ := List.mem_map.mp member
      exact held k rfl
    | factor s k a x =>
      obtain ⟨reaction, _, reacted, rest⟩ := bind_eq_ok.mp driven
      simp only [handler] at reacted
      split at reacted
      next hopeless =>
        obtain ⟨rfl, rfl⟩ := pure_eq_ok.mp reacted
        obtain ⟨rfl, rfl⟩ := pure_eq_ok.mp rest
        exact ⟨ready, .stops, .stops hopeless, rfl, (Frontier.pushAll_nil _).symm, List.forall_mem_nil _⟩
      next =>
        obtain ⟨rfl, rfl⟩ := pure_eq_ok.mp reacted
        obtain ⟨next, _, resumed, driven⟩ := bind_eq_ok.mp rest
        obtain ⟨goes, ready⟩ := performs.next_eq (held k rfl) ready resumed
        obtain ⟨ready, landing, lands, kept⟩ := ih (fun _ => performs.closed (held k rfl) goes) ready driven
        exact ⟨ready, landing, .factor goes lands, kept⟩

/-- A state of the search has come of the likeliest branches, taken in order. -/
structure Realizes (σ : Type) [Host (EStateM Failure σ) D R] [LawfulHost σ D R] (P : PlainProgram κ D R)
    (inside : κ → Prop) (s : Store) (st : Search κ R) (h : Horizon κ R) : Prop where
  explored : Explored (LawfulHost.densities σ) P s h
  ranks : st.frontier.Ranks (h.pending.map (·.branch))
  recorded : st.found.reverse = h.recorded.map (·.2)
  held : ∀ t ∈ h.pending, inside t.branch.k

namespace Realizes

variable {h : Horizon κ R} {before after : List (Thread κ R)} {recorded : List (List Nat × Value × R)}
  {path : List Nat} {b : Branch κ R} {later : σ}

/-- What comes of the likeliest branch is kept in order too. -/
theorem taken (performs : Performs resume P inside) (descending : Descending (LawfulHost.densities σ) P s)
    (explored : Explored (LawfulHost.densities σ) P s ⟨before ++ ⟨path, b⟩ :: after, recorded⟩)
    (greater : ∀ t ∈ before, Score.less t.branch.score b.score = true)
    (atLeast : ∀ t ∈ after, Score.atMost t.branch.score b.score = true)
    (held : ∀ t ∈ before ++ ⟨path, b⟩ :: after, inside t.branch.k)
    (ready : LawfulHost.ready w) (resumed : resume b.k b.store b.value w = .ok step w')
    (driven : drive resume handler steps st step w' = .ok st' later)
    (ranks : st.frontier.Ranks ((before ++ after).map (·.branch)))
    (same : st.found.reverse = recorded.map (·.2)) (scored : st.score = b.score) :
    LawfulHost.ready later ∧ ∃ h, Realizes σ P inside s st' h := by
  have here := held ⟨path, b⟩ List.mem_append_cons_self
  obtain ⟨goes, ready⟩ := performs.next_eq here ready resumed
  obtain ⟨ready, landing, lands, found, left, kept⟩ :=
    drive_lands performs (fun _ => performs.closed here goes) ready driven
  rw [scored] at lands
  have next := explored.round greater atLeast goes lands
  have branch {t : Thread κ R} (member : t ∈ landing.threads path) : t.branch ∈ landing.branches := by
    rw [← landing.threads_branch path]
    exact List.mem_map_of_mem member
  refine ⟨ready, _, next, ?_, ?_, List.forall_mem_append.mpr ⟨fun t old => ?_, fun t new => kept _ (branch new)⟩⟩
  · rw [left, Horizon.after, List.map_append, landing.threads_branch]
    refine ranks.pushAll ?_
    rw [← landing.threads_branch path]
    refine List.forall_mem_map.mpr fun t new => ?_
    exact ((next.account descending).low t (List.mem_append_right _ new)).2
  · rw [found, List.reverse_append, same, Horizon.after, List.map_append, List.map_map]
    congr 1
    cases landing <;> rfl
  · exact held t (List.perm_middle.mem_iff.mpr (List.mem_cons_of_mem _ old))

theorem start (performs : Performs resume P inside) (descending : Descending (LawfulHost.densities σ) P s)
    (ready : LawfulHost.ready w) (resumed : resume P.entry s .absent w = .ok step w')
    (driven : drive resume handler steps ⟨.empty .likelyFirst, Score.zero, [], 0⟩ step w' = .ok st later) :
    LawfulHost.ready later ∧ ∃ h, Realizes σ P inside s st h := by
  have first : Explored (LawfulHost.densities σ) P s ⟨[] ++ origin P s :: [], []⟩ := .start
  exact taken performs descending first nofun nofun (List.forall_mem_singleton.mpr performs.entry) ready resumed
    driven Frontier.ranks_empty rfl rfl

theorem round (realizes : Realizes σ P inside s st h) (performs : Performs resume P inside)
    (descending : Descending (LawfulHost.densities σ) P s) (ready : LawfulHost.ready w)
    (round : Round resume steps st w st' w') : LawfulHost.ready w' ∧ ∃ h, Realizes σ P inside s st' h := by
  obtain ⟨b, frontier, step, middle, popped, resumed, driven⟩ := round
  obtain ⟨before, after, split, ranks, greater, atLeast⟩ := realizes.ranks.pop popped
  obtain ⟨pending, recorded⟩ := h
  obtain ⟨first, others, rfl, rfl, cut⟩ := List.map_eq_append_iff.mp split
  obtain ⟨⟨path, b⟩, rest, rfl, rfl, rfl⟩ := List.map_eq_cons_iff.mp cut
  refine taken performs descending realizes.explored ?_ ?_ realizes.held ready resumed driven ?_ realizes.recorded rfl
  · exact fun t member => greater _ (List.mem_map_of_mem member)
  · exact fun t member => atLeast _ (List.mem_map_of_mem member)
  · rwa [List.map_append]

theorem pursue (realizes : Realizes σ P inside s st h) (performs : Performs resume P inside)
    (descending : Descending (LawfulHost.densities σ) P s) (ready : LawfulHost.ready w)
    (pursued : pursue resume steps n st w = .ok st' w') : ∃ h, Realizes σ P inside s st' h := by
  induction n generalizing st h w with
  | zero =>
    obtain ⟨rfl, _⟩ := pure_eq_ok.mp pursued
    exact ⟨h, realizes⟩
  | succ n ih =>
    rcases pursue_eq_ok.mp pursued with ⟨_, rfl, _⟩ | ⟨next, later, round, rest⟩
    · exact ⟨h, realizes⟩
    · obtain ⟨ready, h', realizes'⟩ := realizes.round performs descending ready round
      exact ih realizes' ready rest

theorem length_eq (realizes : Realizes σ P inside s st h) : st.found.length = h.recorded.length := by
  rw [← List.length_reverse, realizes.recorded, List.length_map]

end Realizes

theorem survey_realizes (performs : Performs resume P inside) (descending : Descending (LawfulHost.densities σ) P s)
    (ready : LawfulHost.ready w) (surveyed : survey resume steps .likelyFirst n P.entry s w = .ok st w') :
    ∃ h, Realizes σ P inside s st h := by
  obtain ⟨step, middle, resumed, next, later, driven, pursued⟩ := survey_eq_ok.mp surveyed
  obtain ⟨ready, h, realizes⟩ := Realizes.start performs descending ready resumed driven
  exact realizes.pursue performs descending ready pursued

end

end Enumeration

open Enumeration

/-- Where no choice and no factor raises a score, and the program absorbs no factor after its last choice,
the search that takes the likeliest branch first, and of equally likely ones the one found first, records the
executions in the order of their scores. Whenever it stops, and after any number of rounds if it does not, no
execution of the program that it has not recorded has a greater score than one that it has. -/
theorem likeliest_recorded {σ κ D R : Type} [Host (EStateM Failure σ) D R] [LawfulHost σ D R] [Score R]
    [OrderedScore R] {P : PlainProgram κ D R} {inside : κ → Prop} {resume : Resume (EStateM Failure σ) κ D R}
    (performs : Performs resume P inside) {s : Store} (descending : Descending (LawfulHost.densities σ) P s) :
    let laws := LawfulHost.densities σ
    (∀ steps n w st w', LawfulHost.ready w → survey resume steps .likelyFirst n P.entry s w = .ok st w' →
      ∃ h, Explored laws P s h ∧ st.found.reverse = h.recorded.map (·.2) ∧ Likeliest laws P s h.recorded) ∧
    ∀ fuel most w st w', (∀ m ∈ most, 1 ≤ m) → LawfulHost.ready w →
      search resume fuel ⟨.likelyFirst, most⟩ P.entry s w = .ok st w' →
      ∃ h, Explored laws P s h ∧ st.found.reverse = h.recorded.map (·.2) ∧ Likeliest laws P s h.recorded ∧
        (h.pending = [] ∨ most = some h.recorded.length) := by
  refine ⟨fun steps n w st w' ready surveyed => ?_, fun fuel most w st w' wanted ready searched => ?_⟩
  · obtain ⟨h, realizes⟩ := survey_realizes performs descending ready surveyed
    exact ⟨h, realizes.explored, realizes.recorded, (realizes.explored.account descending).likeliest descending⟩
  · obtain ⟨n, surveyed, exhausted⟩ := search_stops searched
    obtain ⟨h, realizes⟩ := survey_realizes performs descending ready surveyed
    refine ⟨h, realizes.explored, realizes.recorded, (realizes.explored.account descending).likeliest descending, ?_⟩
    by_cases empty : st.frontier.size = 0
    · rw [realizes.ranks.size, List.length_map] at empty
      exact .inl (List.eq_nil_of_length_eq_zero empty)
    cases most with
    | none => exact absurd (by simpa [Search.exhausted] using exhausted) empty
    | some m =>
      have full : m ≤ st.count := by simpa [Search.exhausted, empty] using exhausted
      have within := search_within (wanted m rfl) searched
      rw [← realizes.length_eq, ← search_counted searched, Nat.le_antisymm full within]
      exact .inr rfl

section

variable {κ : Type} {b c : Branch κ Exact} {ticket : Nat}

theorem pushAll_level (number : Score.isNaN b.score = false) (level : c.score = b.score) :
    (Frontier.heap #[] ticket).pushAll [b, c] =
      .heap #[⟨-b.score, ticket, b⟩, ⟨-c.score, ticket + 1, c⟩] (ticket + 2) := by
  have same : Score.same (-b.score) (-b.score) = true :=
    OrderedScore.same_iff.mpr ⟨OrderedScore.isNaN_neg.trans number, OrderedScore.isNaN_neg.trans number, rfl⟩
  simp [Frontier.pushAll, Frontier.pushRanked, Heap.push, Heap.rise, Heap.before, level, same]

theorem pop_pair (x y : Heap.Entry κ Exact) :
    (Frontier.heap #[x, y] ticket).pop? = some (x.branch, .heap #[y] ticket) := by
  simp [Frontier.pop?, Heap.pop?, Heap.settle, Heap.rise]

theorem pop_single (x : Heap.Entry κ Exact) :
    (Frontier.heap #[x] ticket).pop? = some (x.branch, .heap #[] ticket) := by
  simp [Frontier.pop?, Heap.pop?]

/-- The next toss of the coin. -/
noncomputable def tossed (heads : Bool) (score : Exact) : Branch Unit Exact :=
  ⟨(), .empty, .bool heads, score + .real (Real.log 2⁻¹)⟩

theorem untilTails_forks (ticket : Nat) (score : Exact) (number : Score.isNaN (tossed false score).score = false) :
    (Frontier.heap #[] ticket).pushAll (forks () .empty score faces) =
      .heap #[⟨-(tossed false score).score, ticket, tossed false score⟩,
        ⟨-(tossed true score).score, ticket + 1, tossed true score⟩] (ticket + 2) :=
  pushAll_level number rfl

theorem untilTails_tails {st : Search Unit Exact} {x : Exact} {rest : Frontier Unit Exact} (w : Script fairCoin)
    (popped : st.frontier.pop? = some (tossed false x, rest)) :
    Round untilTailsRuns 9 st w
      ⟨rest, (tossed false x).score, (.bool false, (tossed false x).score) :: st.found, st.count + 1⟩ w :=
  ⟨_, _, .exit .empty (.bool false), w, popped, rfl, rfl⟩

theorem untilTails_heads {st : Search Unit Exact} {x : Exact} {rest : Frontier Unit Exact} (w : Script fairCoin)
    (popped : st.frontier.pop? = some (tossed true x, rest)) :
    Round untilTailsRuns 9 st w
      ⟨rest.pushAll (forks () .empty (tossed true x).score faces), (tossed true x).score, st.found, st.count⟩ w :=
  ⟨_, _, .sample .empty () .root (), w, popped, rfl, rfl⟩

theorem explore_round {c : Config} {fuel : Nat} {st next : Search Unit Exact} {w : Script fairCoin}
    {good : Search Unit Exact → Prop} (going : ¬ st.exhausted c = true) (round : Round untilTailsRuns 9 st w next w)
    (rest : ∃ last, explore untilTailsRuns c 9 fuel next w = .ok last w ∧ good last) :
    ∃ last, explore untilTailsRuns c 9 (fuel + 1) st w = .ok last w ∧ good last := by
  obtain ⟨last, explored, holds⟩ := rest
  exact ⟨last, explore_eq_ok.mpr (.inr ⟨going, next, w, round, explored⟩), holds⟩

theorem untilTails_searched : ∃ st, search untilTailsRuns 9 ⟨.likelyFirst, some 2⟩ () .empty ⟨[]⟩ = .ok st ⟨[]⟩ ∧
    st.found.map (·.1) = [.bool false, .bool false] := by
  have first := untilTails_forks 0 Score.zero (by rw [Exact.zero_eq]; rfl)
  have second := untilTails_forks 2 (tossed true Score.zero).score (by rw [Exact.zero_eq]; rfl)
  have explored : ∃ last, explore untilTailsRuns ⟨.likelyFirst, some 2⟩ 9 9
      ⟨(Frontier.heap #[] 0).pushAll (forks () .empty Score.zero faces), Score.zero, [], 0⟩ ⟨[]⟩ = .ok last ⟨[]⟩ ∧
      last.found.map (·.1) = [.bool false, .bool false] := by
    rw [first]
    refine explore_round ?_ (untilTails_tails _ (pop_pair _ _)) ?_
    · simp [Search.exhausted, Frontier.size]
    refine explore_round ?_ (untilTails_heads _ (pop_single _)) ?_
    · simp [Search.exhausted, Frontier.size]
    rw [second]
    refine explore_round ?_ (untilTails_tails _ (pop_pair _ _)) ?_
    · simp [Search.exhausted, Frontier.size]
    exact ⟨_, explore_eq_ok.mpr (.inl ⟨rfl, rfl, rfl⟩), rfl⟩
  obtain ⟨last, explored, holds⟩ := explored
  exact ⟨last, search_eq_ok.mpr ⟨.sample .empty () .root (), ⟨[]⟩, rfl, _, ⟨[]⟩, rfl, explored⟩, holds⟩

theorem untilTails_next {k : Unit} {s : Store} {v : Value} {step : Step Unit Unit Exact}
    (goes : untilTails.next k s v = .ok step) :
    step = .exit s (.bool false) ∨ step = .sample s () .root () := by
  unfold untilTails at goes
  dsimp only at goes
  split at goes
  · exact .inl (Except.ok.inj goes).symm
  · exact .inr (Except.ok.inj goes).symm

/-- Tosses of a coin only lower the score, and nothing else does. -/
theorem untilTails_descending : Descending fairCoin untilTails .empty := by
  have absorbs_nothing {s : Store} {k : Unit} {a : Address} {x : Exact} :
      ¬ Reached fairCoin untilTails .empty (.factor s k a x) := by
    intro reached
    cases reached with
    | start goes | factor _ goes | choice _ _ _ _ goes =>
      rcases untilTails_next goes with same | same <;> cases same
  refine ⟨fun _ _ _ weighed => ?_, fun reached => absurd reached absorbs_nothing,
    fun _ _ _ _ goes completes => ?_⟩
  · obtain rfl := Except.ok.inj weighed
    have low : Real.log 2⁻¹ ≤ 0 := Real.log_nonpos (by norm_num) (by norm_num)
    rw [Score.Sunk, Exact.zero_eq]
    exact ⟨decide_eq_false (not_lt.mpr low), rfl⟩
  · rcases untilTails_next goes with rfl | rfl
    · cases completes
      exact ⟨_, rfl⟩
    · cases completes

/-- Of the endless tosses, the search that stops after two executions records the two likeliest. -/
theorem untilTails_likeliest :
    Performs untilTailsRuns untilTails (fun _ => True) ∧ Descending fairCoin untilTails .empty ∧
    ∃ st h, search untilTailsRuns 9 ⟨.likelyFirst, some 2⟩ () .empty ⟨[]⟩ = .ok st ⟨[]⟩ ∧
      st.found.map (·.1) = [.bool false, .bool false] ∧ Explored fairCoin untilTails .empty h ∧
      st.found.reverse = h.recorded.map (·.2) ∧ Likeliest fairCoin untilTails .empty h.recorded := by
  obtain ⟨st, searched, tails⟩ := untilTails_searched
  have performs := untilTails.resume_performs (σ := Script fairCoin)
  obtain ⟨h, explored, recorded, likeliest, _⟩ :=
    (likeliest_recorded performs untilTails_descending).2 9 (some 2) _ st _ (by simp) trivial searched
  exact ⟨performs, untilTails_descending, st, h, searched, tails, explored, recorded, likeliest⟩

end

end ProbCore
