import ProbCore.Proofs.KernelRuns
import ProbCore.Proofs.ValueIdentity

/-! Addresses that come again. When no address comes twice in an execution, what a later choice
does in a proposal depends on one thing only: the choice that the old trace makes at its address
after the site. -/

namespace ProbCore.Kernel

section

variable {κ D R : Type} [Score R]

def Distinct (cs : List (Choice κ D R)) : Prop :=
  cs.Pairwise fun b c => (b.address == c.address) = false

/-- Choices that addresses can tell apart. -/
structure Placed (cs : List (Choice κ D R)) : Prop where
  distinct : Distinct cs
  hashable : ∀ c ∈ cs, c.address.isHashable = true

/-- The value that a choice takes over from others. -/
def takenOver (laws : Densities D R) (others : List (Choice κ D R)) (c : Choice κ D R) :
    Except Failure (Option Value) :=
  match others.find? (·.address == c.address) with
  | none => .ok none
  | some b => do return if ← laws.accepts c.dist b.value then some b.value else none

def keeps (laws : Densities D R) (others : List (Choice κ D R)) (c : Choice κ D R) : Bool :=
  match takenOver laws others c with
  | .ok (some _) => true
  | _ => false

/-- A choice has the value that it takes over, or else one that it could draw. -/
def Settled (laws : Densities D R) (others : List (Choice κ D R)) (c : Choice κ D R) : Prop :=
  takenOver laws others c = .ok (some c.value) ∨
    takenOver laws others c = .ok none ∧ Drawable laws c.dist c.value

def keptFrom (laws : Densities D R) (others cs : List (Choice κ D R)) : List (Choice κ D R) :=
  cs.filter (keeps laws others)

def drawnBeside (laws : Densities D R) (others cs : List (Choice κ D R)) : List (Choice κ D R) :=
  cs.filter fun c => !keeps laws others c

/-- The choices at addresses where others are not made. -/
def absentFrom (others cs : List (Choice κ D R)) : List (Choice κ D R) :=
  cs.filter fun c => !others.any (·.address == c.address)

variable {laws : Densities D R} {others cs : List (Choice κ D R)} {b c : Choice κ D R}

namespace Placed

omit [Score R]

theorem sublist {some : List (Choice κ D R)} (placed : Placed cs) (part : some.Sublist cs) :
    Placed some where
  distinct := placed.distinct.sublist part
  hashable c member := placed.hashable c (part.subset member)

theorem backwards (placed : Placed cs) : cs.Pairwise fun b c => (c.address == b.address) = false :=
  List.Pairwise.imp_of_mem (fun left right apart =>
    (Address.beq_comm (placed.hashable _ right) (placed.hashable _ left)).trans apart) placed.distinct

/-- There is one choice at most at an address. -/
theorem same (placed : Placed cs) (left : b ∈ cs) (right : c ∈ cs)
    (same : (b.address == c.address) = true) : b = c := by
  let Sole (b c : Choice κ D R) : Prop := (b.address == c.address) = true → b = c
  have forwards : cs.Pairwise Sole :=
    placed.distinct.imp fun apart same => absurd same (Bool.eq_false_iff.mp apart)
  have backwards : cs.Pairwise (flip Sole) :=
    placed.backwards.imp fun apart same => absurd same (Bool.eq_false_iff.mp apart)
  exact List.Pairwise.forall_of_forall_of_flip (fun _ _ _ => rfl) forwards backwards left right same

end Placed

theorem keeps_taken {v : Value} (taken : takenOver laws others c = .ok (some v)) :
    keeps laws others c = true := by
  rw [keeps, taken]

theorem keeps_not_taken (taken : takenOver laws others c = .ok none) :
    keeps laws others c = false := by
  rw [keeps, taken]

theorem takenOver_nowhere (nowhere : others.find? (·.address == c.address) = none) :
    takenOver laws others c = .ok none := by
  rw [takenOver, nowhere]

theorem takenOver_accepted (found : others.find? (·.address == c.address) = some b)
    (accepted : laws.accepts c.dist b.value = .ok true) :
    takenOver laws others c = .ok (some b.value) := by
  rw [takenOver, found]
  simp only [accepted]
  rfl

theorem takenOver_rejected (found : others.find? (·.address == c.address) = some b)
    (rejected : laws.accepts c.dist b.value = .ok false) : takenOver laws others c = .ok none := by
  rw [takenOver, found]
  simp only [rejected]
  rfl

/-- A choice at the address of another is settled if it has the other's value, or could not have
it. -/
theorem settled_iff (drawable : Drawable laws c.dist c.value)
    (found : others.find? (·.address == c.address) = some b) :
    Settled laws others c ↔ b.value = c.value ∨ laws.accepts c.dist b.value = .ok false := by
  constructor
  · intro settled
    cases answer : laws.accepts c.dist b.value with
    | error e =>
      have unknown : takenOver laws others c = .error e := by
        rw [takenOver, found]
        simp only [answer]
        rfl
      rw [Settled, unknown] at settled
      rcases settled with known | ⟨known, _⟩
      all_goals cases known
    | ok accepted =>
      cases accepted with
      | false => exact .inr rfl
      | true =>
        rw [Settled, takenOver_accepted found answer] at settled
        rcases settled with known | ⟨known, _⟩
        · exact .inl (Option.some.inj (Except.ok.inj known))
        · cases known
  · rintro (same | rejected)
    · have accepted : laws.accepts c.dist b.value = .ok true := by
        rw [same]
        exact drawable
      exact .inl (by rw [takenOver_accepted found accepted, same])
    · exact .inr ⟨takenOver_rejected found rejected, drawable⟩

/-- A choice is settled beside others if the one at its address, if any, has its value or a value
that it could not have. -/
theorem settled_iff_all (placed : Placed others) (hashable : c.address.isHashable = true)
    (drawable : Drawable laws c.dist c.value) :
    Settled laws others c ↔ ∀ b ∈ others, (b.address == c.address) = true →
      b.value = c.value ∨ laws.accepts c.dist b.value = .ok false := by
  cases found : others.find? (·.address == c.address) with
  | none =>
    constructor
    · intro _ b member same
      exact absurd same (List.find?_eq_none.mp found b member)
    · exact fun _ => .inr ⟨takenOver_nowhere found, drawable⟩
  | some b =>
    have member := List.mem_of_find?_eq_some found
    have at_address := List.find?_some found
    beta_reduce at at_address
    rw [settled_iff drawable found]
    constructor
    · intro settled d other same
      have between := Address.beq_trans (placed.hashable d other) hashable
        (placed.hashable b member) same
        (Address.beq_symm (placed.hashable b member) hashable at_address)
      rw [placed.same other member between]
      exact settled
    · exact fun all => all b member at_address

theorem keeps_eq (accepts : ∀ b ∈ others, (b.address == c.address) = true →
    Drawable laws c.dist b.value) : keeps laws others c = others.any (·.address == c.address) := by
  cases found : others.find? (·.address == c.address) with
  | none =>
    rw [keeps_not_taken (takenOver_nowhere found), eq_comm, List.any_eq_false]
    exact List.find?_eq_none.mp found
  | some b =>
    have member := List.mem_of_find?_eq_some found
    have at_address := List.find?_some found
    beta_reduce at at_address
    rw [keeps_taken (takenOver_accepted found (accepts b member at_address)), eq_comm,
      List.any_eq_true]
    exact ⟨b, member, at_address⟩

section

variable (accepts : ∀ c ∈ cs, ∀ b ∈ others, (b.address == c.address) = true →
  Drawable laws c.dist b.value)

include accepts

theorem drawnBeside_eq : drawnBeside laws others cs = absentFrom others cs :=
  List.filter_congr fun c member => congrArg (! ·) (keeps_eq (accepts c member))

/-- Others give up their values where none of these choices is at their address. -/
theorem absentFrom_kept (hashable : ∀ c ∈ cs, c.address.isHashable = true)
    (others_hashable : ∀ b ∈ others, b.address.isHashable = true) :
    absentFrom (keptFrom laws others cs) others = absentFrom cs others := by
  refine List.filter_congr fun b member => congrArg (! ·) ?_
  rw [Bool.eq_iff_iff, List.any_eq_true, List.any_eq_true]
  constructor
  · rintro ⟨c, kept, same⟩
    exact ⟨c, List.mem_of_mem_filter kept, same⟩
  · rintro ⟨c, listed, same⟩
    refine ⟨c, List.mem_filter.mpr ⟨listed, ?_⟩, same⟩
    rw [keeps_eq (accepts c listed)]
    have back := Address.beq_symm (hashable c listed) (others_hashable b member) same
    exact List.any_eq_true.mpr ⟨b, member, back⟩

end

variable {t : Trace κ D R} {before : List (Choice κ D R)} {reused : List Address} {fresh : R}

theorem carried_eq (parts : t.choices = before ++ others)
    (new : ∀ b ∈ before, (b.address == c.address) = false)
    (unspent : reused.contains c.address = false) :
    carried laws (some t) reused c.address c.dist = takenOver laws others c := by
  have found : t.choiceAt? c.address = others.find? (·.address == c.address) := by
    have none_before : before.find? (·.address == c.address) = none := by
      refine List.find?_eq_none.mpr fun b member => ?_
      rw [new b member]
      exact Bool.false_ne_true
    rw [Trace.choiceAt?, parts, List.find?_append, none_before, Option.none_or]
  rw [carried, takenOver, Option.bind_some, found]
  cases others.find? (·.address == c.address) with
  | none => rfl
  | some b =>
    dsimp only
    rw [if_neg (Bool.eq_false_iff.mp unspent)]

theorem decides_iff {draws : List Value} {reused' : List Address} {fresh' : R}
    (parts : t.choices = before ++ others)
    (new : ∀ c ∈ cs, ∀ b ∈ before, (b.address == c.address) = false)
    (unspent : ∀ c ∈ cs, reused.contains c.address = false)
    (distinct : cs.Pairwise fun b c => (c.address == b.address) = false) :
    Decides laws (Drawable laws) (some t) reused fresh cs draws reused' fresh' ↔
      (∀ c ∈ cs, Settled laws others c) ∧ draws = (drawnBeside laws others cs).map (·.value) ∧
        reused' = ((keptFrom laws others cs).map (·.address)).reverse ++ reused ∧
        fresh' = ((drawnBeside laws others cs).map (·.logDensity)).foldl (· + ·) fresh := by
  -- A kept value spends its address and a drawn one adds to the total, which both change along the list.
  induction cs generalizing reused fresh draws reused' fresh' with
  | nil =>
    constructor
    · intro decides
      cases decides
      exact ⟨nofun, rfl, rfl, rfl⟩
    · rintro ⟨_, rfl, rfl, rfl⟩
      exact .nil
  | cons c cs ih =>
    obtain ⟨first_new, others_new⟩ := List.forall_mem_cons.mp new
    obtain ⟨first_unspent, others_unspent⟩ := List.forall_mem_cons.mp unspent
    obtain ⟨apart, others_distinct⟩ := List.pairwise_cons.mp distinct
    have carries := @carried_eq _ _ _ _ laws _ c _ _ _ parts first_new first_unspent
    have spent : ∀ b ∈ cs, (c.address :: reused).contains b.address = false := by
      intro b member
      rw [List.contains_cons, apart b member, others_unspent b member, Bool.or_false]
    constructor
    · intro decides
      cases decides with
      | kept carried decides =>
        rw [carries] at carried
        obtain ⟨settled, rfl, rfl, rfl⟩ := (ih others_new spent others_distinct).mp decides
        refine ⟨List.forall_mem_cons.mpr ⟨.inl carried, settled⟩, ?_⟩
        simp [keptFrom, drawnBeside, keeps_taken carried]
      | drawn carried drawable decides =>
        rw [carries] at carried
        obtain ⟨settled, rfl, rfl, rfl⟩ := (ih others_new others_unspent others_distinct).mp decides
        refine ⟨List.forall_mem_cons.mpr ⟨.inr ⟨carried, drawable⟩, settled⟩, ?_⟩
        simp [keptFrom, drawnBeside, keeps_not_taken carried]
    · rintro ⟨settled, rfl, rfl, rfl⟩
      obtain ⟨taken | ⟨taken, drawable⟩, settled⟩ := List.forall_mem_cons.mp settled
      · have decides := (@ih (c.address :: reused) fresh _ _ _ others_new spent
          others_distinct).mpr ⟨settled, rfl, rfl, rfl⟩
        have kept := Decides.kept (carries.trans taken) decides
        simpa [keptFrom, drawnBeside, keeps_taken taken] using kept
      · have decides := (@ih reused (fresh + c.logDensity) _ _ _ others_new
          others_unspent others_distinct).mpr ⟨settled, rfl, rfl, rfl⟩
        have drawn := Decides.drawn (carries.trans taken) drawable decides
        simpa [keptFrom, drawnBeside, keeps_not_taken taken] using drawn

end

end ProbCore.Kernel
