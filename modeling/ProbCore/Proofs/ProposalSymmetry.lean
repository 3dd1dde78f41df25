import ProbCore.Proofs.Reversibility

/-! When a proposal can be taken back. Whether a later choice keeps its value is decided by its
new distribution on the way there, and by its old distribution on the way back. Where the two
accept different values, the ways may differ, and there are proposals that nothing takes back. -/

namespace ProbCore

open Kernel

section

variable {κ D R : Type} [Score R]

/-- Redrawing the choice at `i` of `t` can propose `t'`. -/
def CanPropose (laws : Densities D R) (P : PlainProgram κ D R) (limit : Option Nat) (i : Nat)
    (t t' : Trace κ D R) : Prop :=
  ∃ (fuel : Nat) (draws : List (Draw R)) (r : R) (w' : Script laws),
    (regenerate P.resume fuel t limit : EStateM Failure (Script laws) _) ⟨.index i :: draws⟩ =
      .ok (some (t', r)) w'

variable {laws : Densities D R} {P : PlainProgram κ D R} {s : Store} {limit : Option Nat}
  {t t' : Trace κ D R} {i : Nat}

theorem canPropose_iff : CanPropose laws P limit i t t' ↔
    ∃ v draws r, Proposes laws P (Drawable laws) limit t i v draws t' r := by
  constructor
  · rintro ⟨fuel, draws, r, w', returned⟩
    obtain ⟨j, v, values, middle, picked, _, proposes, _⟩ := regenerate_proposes
      P.resume_performs (scripted laws P) (fun _ _ => trivial) trivial returned
    obtain ⟨same, _⟩ := Script.indexBelow_eq_ok.mp picked
    cases same
    exact ⟨v, values, r, proposes⟩
  · rintro ⟨v, draws, r, proposes⟩
    obtain ⟨n, regenerated⟩ := proposes.regenerate_eq
    exact ⟨n, _, r, _, regenerated n le_rfl []⟩

/-- Where addresses accept the same values in all executions, every proposal can be taken back. -/
theorem CanPropose.symm (stable : StableSupports laws P s) (unique : UniqueAddresses laws P s)
    (state : ChainState laws P s limit t) (forth : CanPropose laws P limit i t t') :
    CanPropose laws P limit i t' t := by
  obtain ⟨v, draws, r, proposes⟩ := canPropose_iff.mp forth
  obtain ⟨_, c, c', _, _, _, _, back⟩ := proposes.reverses stable unique state
  exact canPropose_iff.mpr ⟨_, _, _, back⟩

/-- Between states, proposals are those that settle all later choices. -/
theorem BranchesOff.canPropose_iff {c c' : Choice κ D R} (branch : BranchesOff t t' i c c')
    (unique : UniqueAddresses laws P s) (state : ChainState laws P s limit t)
    (state' : ChainState laws P s limit t') :
    CanPropose laws P limit i t t' ↔ ∀ d ∈ t'.after i, Settled laws (t.after i) d := by
  have placed' := state'.execution.placed (unique t' state'.execution)
  rw [ProbCore.canPropose_iff]
  constructor
  · rintro ⟨v, draws, r, proposes⟩
    obtain ⟨_, b, b', reused, fresh, other, _, decides, _⟩ := proposes.splits state
    exact ((other.decides_iff placed' state.execution.hashable).mp decides).1
  · intro settled
    have decides := (branch.decides_iff placed' state.execution.hashable).mpr
      ⟨settled, rfl, rfl, rfl⟩
    exact ⟨_, _, _, Proposes.joins state' branch decides⟩

theorem CanPropose.branches (state : ChainState laws P s limit t)
    (forth : CanPropose laws P limit i t t') :
    ChainState laws P s limit t' ∧ ∃ c c', BranchesOff t t' i c c' := by
  obtain ⟨v, draws, r, proposes⟩ := canPropose_iff.mp forth
  obtain ⟨state', c, c', _, _, branch, _⟩ := proposes.splits state
  exact ⟨state', c, c', branch⟩

/-- A trace has settled choices beside those of another if, wherever their addresses agree, it has
the other's value or could not have it. -/
theorem settled_after_iff (execution : Execution laws P s t) (placed' : Placed t'.choices) :
    (∀ b ∈ t.after i, Settled laws (t'.after i) b) ↔
      ∀ b ∈ t.after i, ∀ d ∈ t'.after i, (d.address == b.address) = true →
        d.value = b.value ∨ laws.accepts b.dist d.value = .ok false := by
  refine forall₂_congr fun b member => ?_
  have listed : b ∈ t.choices := List.mem_of_mem_drop member
  exact settled_iff_all (placed'.after i) (execution.hashable b listed) (execution.drawable b listed)

/-- A proposal can be taken back, by redrawing the same choice, if and only if no later choice of
the proposed trace has a value that the old trace has not at its address, and that its
distribution there accepts. -/
theorem canPropose_back_iff (unique : UniqueAddresses laws P s) (state : ChainState laws P s limit t)
    (forth : CanPropose laws P limit i t t') :
    CanPropose laws P limit i t' t ↔
      ∀ b ∈ t.after i, ∀ d ∈ t'.after i, (d.address == b.address) = true →
        d.value = b.value ∨ laws.accepts b.dist d.value = .ok false := by
  obtain ⟨state', c, c', branch⟩ := forth.branches state
  have placed' := state'.execution.placed (unique t' state'.execution)
  rw [branch.symm.canPropose_iff unique state' state]
  exact settled_after_iff state.execution placed'

end

namespace NarrowCoin

inductive Coin where
  | fair
  | heads

noncomputable def laws : Densities Coin Exact where
  enumerable _ := true
  support
    | .fair => .ok [.bool false, .bool true]
    | .heads => .ok [.bool true]
  logDensity
    | .fair, _ => .ok (.real (Real.log 2⁻¹))
    | .heads, _ => .ok (.real 0)

/-- A fair coin, and a second one, which after heads can only show heads again. -/
def program : PlainProgram Nat Coin Exact where
  entry := 0
  next
    | 0, s, _ => .ok (.sample s 1 SecondCoin.first .fair)
    | 1, s, .bool true => .ok (.sample s 2 SecondCoin.second .heads)
    | 1, s, _ => .ok (.sample s 2 SecondCoin.second .fair)
    | _, s, v => .ok (.exit s v)

def second : Bool → Coin
  | true => .heads
  | false => .fair

noncomputable def density : Coin → Exact
  | .fair => .real (Real.log 2⁻¹)
  | .heads => .real 0

noncomputable def firstChoice (b : Bool) : Choice Nat Coin Exact :=
  ⟨SecondCoin.first, .fair, .bool b, density .fair, 1, .empty, Score.zero, Score.zero, 0⟩

noncomputable def secondChoice (b b' : Bool) : Choice Nat Coin Exact :=
  ⟨SecondCoin.second, second b, .bool b', density (second b), 2, .empty,
    Score.zero + density .fair, Score.zero + density .fair, 0⟩

noncomputable def trace (b b' : Bool) : Trace Nat Coin Exact :=
  ((Totals.zero.choose (density .fair)).choose (density (second b))).trace
    [firstChoice b, secondChoice b b'] .empty (.done (.bool b'))

theorem accepts_fair (b : Bool) : laws.accepts .fair (.bool b) = .ok true :=
  congrArg Except.ok (bools_contain b)

theorem accepts_heads (b : Bool) : laws.accepts .heads (.bool b) = .ok b := by
  have listed : [Value.bool true].contains (.bool b) = b := by
    cases b <;> simp [List.contains, List.elem, BEq.beq, Value.beq]
  exact congrArg Except.ok listed

theorem runs (b b' : Bool) : Runs laws program .zero (.sample .empty 1 SecondCoin.first .fair)
    [.choice (firstChoice b), .choice (secondChoice b b')]
    ((Totals.zero.choose (density .fair)).choose (density (second b))) .empty (.done (.bool b')) := by
  cases b with
  | true => exact .choice rfl rfl (.choice rfl rfl .exit)
  | false => exact .choice rfl rfl (.choice rfl rfl .exit)

theorem state {b b' : Bool} (drawable : Drawable laws (second b) (.bool b')) :
    ChainState laws program .empty none (trace b b') := by
  have possible (coin : Coin) : Score.isImpossible (density coin) = false := by
    cases coin
    all_goals rfl
  refine ⟨⟨_, .run rfl (runs b b'), ?_, ?_⟩, .inr rfl⟩
  · exact List.forall_mem_cons.mpr ⟨fine_choice.mpr ⟨SecondCoin.hashable (.inl rfl), possible .fair⟩,
      List.forall_mem_singleton.mpr (fine_choice.mpr ⟨SecondCoin.hashable (.inr rfl), possible (second b)⟩)⟩
  · exact List.forall_mem_cons.mpr ⟨accepts_fair b, List.forall_mem_singleton.mpr drawable⟩

theorem unique : UniqueAddresses laws program .empty := by
  refine .of_runs rfl fun es T s e runs => ?_
  have visited : (Event.choices es).map (·.address) = [SecondCoin.first, SecondCoin.second] := by
    cases runs with
    | @choice _ _ _ _ _ _ _ v lp step es _ _ goes runs =>
      have next : ∃ coin, step = .sample .empty 2 SecondCoin.second coin := by
        cases v with
        | bool b =>
          cases b
          all_goals
            cases goes
            exact ⟨_, rfl⟩
        | _ =>
          cases goes
          exact ⟨_, rfl⟩
      obtain ⟨coin, rfl⟩ := next
      cases runs with
      | choice _ goes runs =>
        cases goes
        cases runs
        rfl
  rw [visited]
  exact List.pairwise_pair.mpr SecondCoin.apart

/-- Redrawing the first coin keeps the second one, or changes what the first coin now forbids. -/
theorem canPropose_iff {b b' x x' : Bool} (before : Drawable laws (second b) (.bool b'))
    (after : Drawable laws (second x) (.bool x')) :
    CanPropose laws program none 0 (trace b b') (trace x x') ↔
      b' = x' ∨ laws.accepts (second x) (.bool b') = .ok false := by
  have branch : BranchesOff (trace b b') (trace x x') 0 (firstChoice b) (firstChoice x) :=
    ⟨rfl, rfl, rfl, rfl⟩
  have same : (SecondCoin.second == SecondCoin.second) = true := by
    simp [SecondCoin.second, Address.extend, Address.root, BEq.beq, Value.beqItems, Value.beq]
  have placed := (state before).execution.placed (unique _ (state before).execution)
  rw [branch.canPropose_iff unique (state before) (state after),
    settled_after_iff (state after).execution placed]
  constructor
  · intro all
    rcases all _ List.mem_cons_self _ List.mem_cons_self same with equal | rejected
    · exact .inl (Value.bool.inj equal)
    · exact .inr rejected
  · intro kept c member d listed _
    obtain rfl := List.mem_singleton.mp member
    obtain rfl := List.mem_singleton.mp listed
    exact kept.imp_left (congrArg Value.bool)

end NarrowCoin

/-- After tails twice, redrawing the first coin to heads makes the second coin show heads too. Then
heads are kept when the first coin is redrawn to tails. -/
theorem canPropose_not_symmetric :
    ¬ ∀ (κ D : Type) (laws : Densities D Exact) (P : PlainProgram κ D Exact) (s : Store)
      (limit : Option Nat), UniqueAddresses laws P s → ∀ (t t' : Trace κ D Exact) (i : Nat),
        ChainState laws P s limit t → CanPropose laws P limit i t t' →
          CanPropose laws P limit i t' t := by
  intro symmetric
  have tails : Drawable NarrowCoin.laws (NarrowCoin.second false) (.bool false) :=
    NarrowCoin.accepts_fair false
  have heads : Drawable NarrowCoin.laws (NarrowCoin.second true) (.bool true) :=
    NarrowCoin.accepts_heads true
  have forth := (NarrowCoin.canPropose_iff tails heads).mpr (.inr (NarrowCoin.accepts_heads false))
  have back := symmetric _ _ _ _ _ _ NarrowCoin.unique _ _ _ (NarrowCoin.state tails) forth
  rcases (NarrowCoin.canPropose_iff heads tails).mp back with same | rejected
  · cases same
  · rw [NarrowCoin.second, NarrowCoin.accepts_fair] at rejected
    cases rejected

/-- Heads after tails are kept when the first coin is redrawn, there and back. -/
theorem keptHeads_back : CanPropose NarrowCoin.laws NarrowCoin.program none 0
    (NarrowCoin.trace true true) (NarrowCoin.trace false true) := by
  have after_tails : Drawable NarrowCoin.laws (NarrowCoin.second false) (.bool true) :=
    NarrowCoin.accepts_fair true
  have after_heads : Drawable NarrowCoin.laws (NarrowCoin.second true) (.bool true) :=
    NarrowCoin.accepts_heads true
  have forth := (NarrowCoin.canPropose_iff after_tails after_heads).mpr (.inl rfl)
  refine (canPropose_back_iff NarrowCoin.unique (NarrowCoin.state after_tails) forth).mpr ?_
  intro b member d later _
  obtain rfl := List.mem_singleton.mp member
  obtain rfl := List.mem_singleton.mp later
  exact .inl rfl

end ProbCore
