import ProbCore.Program.Machine
import ProbCore.Proofs.PlainProgram

/-! Programs that know their address only as the address that they extend. Such a program can be
put under any base: whatever it evaluates stays the same, and all the addresses that it builds
move with it. -/

namespace ProbCore

namespace Address

/-- The address with a base put in front of it. -/
def under (a b : Address) : Address := ⟨b.tokens ++ a.tokens⟩

theorem root_under (b : Address) : root.under b = b := by
  rw [under, root, List.append_nil]

theorem extend_under (a b : Address) (token : Value) :
    (a.extend token).under b = (a.under b).extend token := by
  simp only [under, extend, List.append_assoc]

def Extends (a h : Address) : Prop := h.tokens <+: a.tokens

theorem Extends.refl (a : Address) : a.Extends a := List.prefix_rfl

theorem Extends.trans {a h h' : Address} (first : a.Extends h) (second : h.Extends h') :
    a.Extends h' := List.IsPrefix.trans second first

theorem Extends.extend {a h : Address} (extends_ : a.Extends h) (token : Value) :
    (a.extend token).Extends h := List.IsPrefix.trans extends_ (List.prefix_append _ _)

end Address

section

open Value

theorem beqItems_append_left {xs : List Value} (same : beqItems xs xs = true)
    (ys zs : List Value) : beqItems (xs ++ ys) (xs ++ zs) = beqItems ys zs := by
  induction xs with
  | nil => rfl
  | cons x xs ih =>
    rw [beqItems, Bool.and_eq_true] at same
    rw [List.cons_append, List.cons_append, beqItems, same.1, Bool.true_and, ih same.2]

theorem allHashable_append (xs ys : List Value) :
    allHashable (xs ++ ys) = (allHashable xs && allHashable ys) := by
  induction xs with
  | nil => rfl
  | cons x xs ih => rw [List.cons_append, allHashable, allHashable, ih, Bool.and_assoc]

end

namespace Address

variable {b : Address}

theorem under_beq (same : (b == b) = true) (a a' : Address) :
    (a.under b == a'.under b) = (a == a') := beqItems_append_left same a.tokens a'.tokens

theorem under_hashable (hashable : b.isHashable = true) (a : Address) :
    (a.under b).isHashable = a.isHashable := by
  rw [isHashable, under, allHashable_append, show Value.allHashable b.tokens = true from hashable,
    Bool.true_and]
  rfl

theorem sameTokens_self (tokens : List Value) : sameTokens tokens tokens = true := by
  induction tokens with
  | nil => rfl
  | cons token tokens ih =>
    have same : sameToken token token = true := by
      rw [sameToken, Bool.and_self]
      exact Bool.or_not_self (token == token)
    rw [sameTokens, same, Bool.true_and, ih]

/-- What is seen of an address below another one is its rest. -/
theorem within_eq_drop {a h : Address} (extends_ : a.Extends h) :
    a.within h = ⟨a.tokens.drop h.tokens.length⟩ := by
  have starts : a.startsWith h = true := by
    rw [startsWith, ← List.prefix_iff_eq_take.mp extends_]
    exact sameTokens_self h.tokens
  rw [within, relativeTo?, if_pos starts]
  rfl

theorem within_under {a h : Address} (extends_ : a.Extends h) :
    (a.under b).within (h.under b) = a.within h := by
  have moved : (a.under b).Extends (h.under b) := (List.prefix_append_right_inj b.tokens).mpr extends_
  rw [within_eq_drop moved, within_eq_drop extends_]
  simp only [under, List.length_append, List.drop_append, Nat.add_sub_cancel_left,
    List.drop_eq_nil_of_le (Nat.le_add_right _ _), List.nil_append]

end Address

mutual

/-- Expressions that do not mention the address. -/
def Expr.placeless : Expr → Bool
  | address => false
  | literal _ | var _ | function _ | size | unknown _ => true
  | item e | contains e | not e | unary _ e => e.placeless
  | lookup e e' | and e e' | or e e' | binary _ e e' => e.placeless && e'.placeless
  | cond test yes no => test.placeless && yes.placeless && no.placeless
  | tuple es | list es => Expr.allPlaceless es
  | dict entries => Expr.entriesPlaceless entries

def Expr.allPlaceless : List Expr → Bool
  | [] => true
  | e :: es => e.placeless && Expr.allPlaceless es

def Expr.entriesPlaceless : List (Expr × Expr) → Bool
  | [] => true
  | (k, e) :: rest => k.placeless && e.placeless && Expr.entriesPlaceless rest

end

def DistExpr.placeless : DistExpr → Bool
  | family _ params => Expr.allPlaceless params
  | table _ _ densities _ => Expr.allPlaceless densities

mutual

/-- Computations that use the address only to extend it. -/
def Comp.placeless : Comp → Bool
  | ret e | emit e | stop e => e.placeless
  | bind _ first rest => first.placeless && rest.placeless
  | sequence steps => Comp.allPlaceless steps
  | choose test yes no => test.placeless && yes.placeless && no.placeless
  | sample t d => t.all Expr.placeless && d.placeless
  | factor t e | tensor _ t e => t.all Expr.placeless && e.placeless
  | observe t d e => t.all Expr.placeless && d.placeless && e.placeless
  | set key e => key.placeless && e.placeless
  | call t f args | apply t f args =>
    t.all Expr.placeless && f.placeless && Expr.allPlaceless args
  | bounce body => body.placeless
  | relative t => t.all Expr.placeless
  | map t data f batch =>
    t.all Expr.placeless && data.placeless && f.placeless && batch.all Expr.placeless
  | cache t f bound => t.all Expr.placeless && f.placeless && bound.all Expr.placeless
  | param t start mean sd seed =>
    t.all Expr.placeless && start.placeless && mean.all Expr.placeless && sd.all Expr.placeless
      && seed.all Expr.placeless
  | infer t f method options =>
    t.all Expr.placeless && f.placeless && method.placeless
      && Expr.allPlaceless (options.map (·.2))
  | raise _ | unknown _ => true

def Comp.allPlaceless : List Comp → Bool
  | [] => true
  | c :: cs => c.placeless && Comp.allPlaceless cs

end

def Program.placeless (p : Program) : Prop :=
  ∀ name d, p.find? name = some d → d.body.placeless = true

theorem Program.placeless_of_all {p : Program}
    (all : p.definitions.all (fun (_, d) => d.body.placeless) = true) : p.placeless := by
  obtain ⟨definitions⟩ := p
  intro name d found
  replace found : definitions.lookup name = some d := found
  induction definitions with
  | nil => cases found
  | cons entry rest ih =>
    obtain ⟨here, others⟩ := (Bool.and_eq_true _ _).mp all
    rw [List.lookup_cons] at found
    split at found
    · cases found
      exact here
    · exact ih others found

def Pass.under (b : Address) (pass : Pass) : Pass := { pass with address := pass.address.under b }

def Rest.under (b : Address) : Rest → Rest
  | halt => halt
  | deliver => deliver
  | entry f a => entry f (a.under b)
  | bind name body vars a k => bind name body vars (a.under b) (k.under b)
  | sequence steps vars a k => sequence steps vars (a.under b) (k.under b)
  | replace v k => replace v (k.under b)
  | remember table key k => remember table key (k.under b)
  | visit pass k => visit (pass.under b) (k.under b)

def Control.under (b : Address) : Control → Control
  | eval c vars a s k => eval c vars (a.under b) s (k.under b)
  | call f args a s k => call f args (a.under b) s (k.under b)
  | give k s v => give (k.under b) s v

def Step.under (b : Address) : Step Rest Dist Float → Step Rest Dist Float
  | .sample s k a d => .sample s (k.under b) (a.under b) d
  | .factor s k a x => .factor s (k.under b) (a.under b) x
  | .exit s v => .exit s v
  | .stray v => .stray v

def Active.under (b : Address) (a : Active) : Active := { a with address := a.address.under b }

def Notice.under (b : Address) : Notice → Notice
  | .running strategy a => .running strategy (a.under b)
  | n => n

def Inference.under (b : Address) (i : Inference) : Inference :=
  ⟨i.active.under b, i.strategy, i.entry.under b⟩

def Move.under (b : Address) : Move → Move
  | go next => go (next.under b)
  | rest step => rest (step.under b)
  | infer i s k => infer (i.under b) s (k.under b)

def Control.infers : Control → Bool
  | eval (.infer ..) .. => true
  | _ => false

/-- All that remains to be done is placeless, at addresses that extend `h`. -/
def Rest.Rooted (h : Address) : Rest → Prop
  | halt | deliver => True
  | entry _ a => a.Extends h
  | bind _ body _ a k => body.placeless = true ∧ a.Extends h ∧ k.Rooted h
  | sequence steps _ a k => Comp.allPlaceless steps = true ∧ a.Extends h ∧ k.Rooted h
  | replace _ k | remember _ _ k => k.Rooted h
  | visit pass k => pass.address.Extends h ∧ k.Rooted h

def Control.Rooted (h : Address) : Control → Prop
  | eval c _ a _ k => c.placeless = true ∧ a.Extends h ∧ k.Rooted h
  | call _ _ a _ k => a.Extends h ∧ k.Rooted h
  | give k _ _ => k.Rooted h

def Step.Rooted (h : Address) (step : Step Rest Dist Float) : Prop :=
  ∀ k, step.rest? = some k → k.Rooted h

/-- A move that is no inference. -/
def Move.Rooted (h : Address) : Move → Prop
  | go next => next.Rooted h
  | rest step => step.Rooted h
  | infer .. => False

section

variable (sc : Scope) (a : Address)

mutual

/-- The value of a placeless expression does not depend on the address. -/
theorem Expr.eval_elsewhere : ∀ e : Expr, e.placeless = true →
    e.eval { sc with address := a } = e.eval sc
  | .literal _, _ | .var _, _ | .function _, _ | .size, _ | .unknown _, _ => by
    simp only [Expr.eval, Scope.lookup]
  | .item e, placeless | .contains e, placeless | .not e, placeless | .unary _ e, placeless => by
    simp only [Expr.eval, Expr.eval_elsewhere e placeless]
  | .lookup e e', placeless | .and e e', placeless | .or e e', placeless
  | .binary _ e e', placeless => by
    obtain ⟨left, right⟩ := (Bool.and_eq_true _ _).mp placeless
    simp only [Expr.eval, Expr.eval_elsewhere e left, Expr.eval_elsewhere e' right]
  | .cond test yes no, placeless => by
    simp only [Expr.placeless, Bool.and_eq_true] at placeless
    obtain ⟨⟨first, second⟩, third⟩ := placeless
    simp only [Expr.eval, Expr.eval_elsewhere test first, Expr.eval_elsewhere yes second,
      Expr.eval_elsewhere no third]
  | .tuple es, placeless | .list es, placeless => by
    simp only [Expr.eval, Expr.evalAll_elsewhere es placeless]
  | .dict entries, placeless => by
    simp only [Expr.eval, Expr.evalEntries_elsewhere entries placeless]

theorem Expr.evalAll_elsewhere : ∀ es : List Expr, Expr.allPlaceless es = true →
    Expr.evalAll { sc with address := a } es = Expr.evalAll sc es
  | [], _ => rfl
  | e :: es, placeless => by
    obtain ⟨first, rest⟩ := (Bool.and_eq_true _ _).mp placeless
    simp only [Expr.evalAll, Expr.eval_elsewhere e first, Expr.evalAll_elsewhere es rest]

theorem Expr.evalEntries_elsewhere : ∀ entries : List (Expr × Expr),
    Expr.entriesPlaceless entries = true →
    Expr.evalEntries { sc with address := a } entries = Expr.evalEntries sc entries
  | [], _ => rfl
  | (k, e) :: rest, placeless => by
    simp only [Expr.entriesPlaceless, Bool.and_eq_true] at placeless
    obtain ⟨⟨key, value⟩, others⟩ := placeless
    simp only [Expr.evalEntries, Expr.eval_elsewhere k key, Expr.eval_elsewhere e value,
      Expr.evalEntries_elsewhere rest others]

end

theorem Expr.named_elsewhere {named : List (String × Expr)}
    (placeless : Expr.allPlaceless (named.map (·.2)) = true) :
    (named.mapM fun (name, e) => do return (name, ← e.eval { sc with address := a }) :
        Except Failure (List (String × Value))) =
      named.mapM fun (name, e) => do return (name, ← e.eval sc) := by
  induction named with
  | nil => rfl
  | cons entry rest ih =>
    obtain ⟨here, others⟩ := (Bool.and_eq_true _ _).mp placeless
    rw [List.mapM_cons, List.mapM_cons, ih others]
    dsimp only
    rw [Expr.eval_elsewhere sc a entry.2 here]

theorem DistExpr.eval_elsewhere {d : DistExpr} (placeless : d.placeless = true) :
    d.eval { sc with address := a } = d.eval sc := by
  cases d with
  | family word params => simp only [DistExpr.eval, Expr.evalAll_elsewhere sc a params placeless]
  | table name values densities enumerable =>
    rw [DistExpr.eval, DistExpr.eval]
    congr 1
    replace placeless : Expr.allPlaceless densities = true := placeless
    induction densities with
    | nil => rfl
    | cons e es ih =>
      obtain ⟨first, rest⟩ := (Bool.and_eq_true _ _).mp placeless
      rw [List.mapM_cons, List.mapM_cons, Expr.eval_elsewhere sc a e first, ih rest]

theorem Scope.optional_elsewhere {part : Option Expr} (placeless : part.all Expr.placeless = true) :
    { sc with address := a }.optional part = sc.optional part := by
  cases part with
  | none => rfl
  | some e => rw [Scope.optional, Scope.optional, Expr.eval_elsewhere sc a e placeless]

/-- The address at a site moves with the address that it extends. -/
theorem Scope.site_under (b : Address) {t : Option Expr} (placeless : t.all Expr.placeless = true) :
    { sc with address := sc.address.under b }.site t = (·.under b) <$> sc.site t := by
  cases t with
  | none => rfl
  | some e =>
    rw [Scope.site, Scope.site, Expr.eval_elsewhere sc _ e placeless]
    cases e.eval sc with
    | error e => rfl
    | ok v => exact congrArg Except.ok (sc.address.extend_under b v).symm

end

theorem Scope.site_extends {sc : Scope} {t : Option Expr} {place : Address}
    (found : sc.site t = .ok place) : place.Extends sc.address := by
  cases t with
  | none =>
    cases found
    exact .refl _
  | some e =>
    rw [Scope.site] at found
    cases value : e.eval sc with
    | error e =>
      rw [value] at found
      cases found
    | ok v =>
      rw [value] at found
      cases found
      exact (Address.Extends.refl _).extend v

end ProbCore
