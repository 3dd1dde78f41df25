import ProbCore.Proofs.MachineMoves
import ProbCore.Proofs.Placement

/-! The world at another base. While a strategy is in charge at `h` in one world, and the same
strategy at `h` put under `b` in the other, all that the machine asks of the two worlds is answered
alike, relative addresses included. -/

namespace ProbCore

theorem Notice.under_of_placeless {n : Notice} (placeless : n.placeless = true) (b : Address) :
    n.under b = n := by
  cases n with
  | running strategy a => cases placeless
  | _ => rfl

/-- The strategies of two worlds, and what was reported in them before. -/
structure Setting where
  strategies : List Active
  strategies' : List Active
  notices : List Notice
  notices' : List Notice

/-- Two worlds that differ in their strategies and in earlier reports only. What was reported
since was reported in both, in the second under the base. -/
structure Beside (b : Address) (i : Setting) (w w' : World) : Prop where
  strategies : w.strategies = i.strategies
  strategies' : w'.strategies = i.strategies'
  alike : w.amid [] [] = w'.amid [] []
  notices : ∃ new, w.notices = new ++ i.notices ∧ w'.notices = new.map (·.under b) ++ i.notices'

/-- Two worlds beside each other. -/
def elsewhere (b : Address) : Tie Setting World World := ⟨(·.under b), Beside b⟩

/-- The same while a strategy is in charge, which is at `h` in the first world. -/
def relocating (b h : Address) : Tie Setting World World where
  place := (·.under b)
  holds i w w' := ∃ head : Active, head.address = h ∧
    Beside b { i with
      strategies := head :: i.strategies
      strategies' := head.under b :: i.strategies' } w w'

/-- The same, whatever strategies there are. -/
def sharing (b : Address) : Tie (List Notice × List Notice) World World where
  place := (·.under b)
  holds := fun (notices, notices') w w' =>
    Beside b ⟨w.strategies, w'.strategies, notices, notices'⟩ w w'

namespace Beside

variable {b : Address} {i : Setting} {w w' : World}

theorem eq_amid (beside : Beside b i w w') : w' = w.amid w'.strategies w'.notices :=
  congrArg (·.amid w'.strategies w'.notices) beside.alike.symm

/-- Both worlds go on to the same, with the same reports. -/
theorem amid (beside : Beside b i w w') (w₁ : World) {new : List Notice}
    (placeless : ∀ n ∈ new, n.placeless = true) :
    Beside b i (w₁.amid w.strategies (new ++ w.notices))
      (w₁.amid w'.strategies (new ++ w'.notices)) := by
  refine ⟨beside.strategies, beside.strategies', rfl, ?_⟩
  obtain ⟨since, left, right⟩ := beside.notices
  have still : new.map (·.under b) = new :=
    (List.map_congr_left fun n member => Notice.under_of_placeless (placeless n member) b).trans
      (List.map_id' new)
  refine ⟨new ++ since, ?_, ?_⟩
  · rw [List.append_assoc, ← left]
    rfl
  · rw [List.map_append, still, List.append_assoc, ← right]
    rfl

end Beside

theorem Run.current_eq {w : World} {head : Active} {rest : List Active}
    (charged : w.strategies = head :: rest) : Run.current w = .ok head w := by
  obtain ⟨_, _⟩ := w
  subst charged
  rfl

section

variable {b h : Address} {α β γ : Type} {φ : α → β}

/-- What leaves all strategies as they are may run under one of them. -/
theorem Mirrors.relocating {x : Run α} {y : Run β} (mirrors : Mirrors (elsewhere b) φ x y) :
    Mirrors (relocating b h) φ x y := by
  rintro i w w' ⟨head, at_h, beside⟩
  exact (mirrors _ w w' beside).imp rfl fun beside => ⟨head, at_h, beside⟩

theorem aloof_mirrors {x : Run α} (aloof : x.Aloof) : Mirrors (elsewhere b) id x x := by
  intro i w w' beside
  obtain ⟨r, w₁, new, placeless, ends⟩ := aloof w
  have goes := beside.amid w₁ placeless
  rw [beside.eq_amid, show x w = _ from ends w.strategies w.notices, ends]
  cases r with
  | ok a => exact ⟨rfl, goes⟩
  | error e => exact ⟨.same e, goes⟩

theorem note_mirrors (n : Notice) : Mirrors (elsewhere b) id (Run.note n) (Run.note (n.under b)) := by
  intro i w w' beside
  obtain ⟨since, left, right⟩ := beside.notices
  refine ⟨rfl, beside.strategies, beside.strategies', beside.alike, n :: since, ?_, ?_⟩
  · exact congrArg (n :: ·) left
  · exact congrArg (n.under b :: ·) right

/-- Only what is not about strategies or reports may be looked up. -/
theorem get_relocating {f : World → Run α} {g : World → Run β}
    (each : ∀ w, Mirrors (relocating b h) φ (f w) (g w))
    (unseen : ∀ w strategies notices, g (w.amid strategies notices) = g w) :
    Mirrors (relocating b h) φ (get >>= f) (get >>= g) := by
  rintro i w w' ⟨head, at_h, beside⟩
  have agreed := each w i w w' ⟨head, at_h, beside⟩
  rw [← unseen w w'.strategies w'.notices, ← beside.eq_amid] at agreed
  exact agreed

theorem current_mirrors : Mirrors (relocating b h) (Active.under b) Run.current Run.current := by
  rintro i w w' ⟨head, at_h, beside⟩
  rw [Run.current_eq beside.strategies, Run.current_eq beside.strategies']
  exact ⟨rfl, head, at_h, beside⟩

/-- What changes about the strategy in charge is not its address. -/
theorem updateCurrent_mirrors {f : Active → Active} (stays : ∀ a, (f a).address = a.address)
    (moves : ∀ a, f (a.under b) = (f a).under b) :
    Mirrors (relocating b h) id (Run.updateCurrent f) (Run.updateCurrent f) := by
  have updates {w : World} {head : Active} {rest : List Active}
      (charged : w.strategies = head :: rest) :
      Run.updateCurrent f w = .ok () { w with strategies := f head :: rest } := by
    obtain ⟨_, _⟩ := w
    subst charged
    rfl
  rintro i w w' ⟨head, at_h, beside⟩
  rw [updates beside.strategies, updates beside.strategies', moves]
  exact ⟨rfl, f head, (stays head).trans at_h, rfl, rfl, beside.alike, beside.notices⟩

theorem splitKey_mirrors : Mirrors (relocating b h) id Run.splitKey Run.splitKey := by
  refine current_mirrors.bind fun active => ?_
  obtain ⟨title, key, address, picks⟩ := active
  cases key with
  | none => exact .throw (.same _)
  | some key =>
    refine Mirrors.bind (updateCurrent_mirrors ?_ ?_) fun _ => .pure _
    · exact fun _ => rfl
    · exact fun _ => rfl

theorem keyFor_mirrors (key : Option Random.Key) :
    Mirrors (relocating b h) id (Machine.keyFor key) (Machine.keyFor key) := by
  rintro i w w' ⟨head, at_h, beside⟩
  rw [Machine.keyFor_eq, Machine.keyFor_eq, beside.strategies, beside.strategies']
  refine ⟨by cases key <;> rfl, ?_⟩
  obtain ⟨title, held, address, picks⟩ := head
  cases key with
  | some key => exact ⟨_, at_h, rfl, rfl, beside.alike, beside.notices⟩
  | none =>
    cases held with
    | none => exact ⟨_, at_h, rfl, rfl, beside.alike, beside.notices⟩
    | some held =>
      exact ⟨⟨title, some held.split.1, address, picks⟩, at_h, rfl, rfl, beside.alike, beside.notices⟩

/-- Whatever the base, a strategy sees the same of an address that extends its own. -/
theorem relative_mirrors {a : Address} (extends_ : a.Extends h) :
    Mirrors (relocating b h) id (Run.relative a) (Run.relative (a.under b)) := by
  have sees {w : World} {head : Active} {rest : List Active} (a : Address)
      (charged : w.strategies = head :: rest) :
      Run.relative a w = .ok (a.within head.address) w := by
    obtain ⟨_, _⟩ := w
    subst charged
    rfl
  rintro i w w' ⟨head, rfl, beside⟩
  rw [sees a beside.strategies, sees (a.under b) beside.strategies']
  exact ⟨Address.within_under extends_, head, rfl, beside⟩

theorem makeParam_relocating (start : Value) (mean sd : Float) (key : Option Random.Key) :
    Mirrors (relocating b h) id (Machine.makeParam start mean sd key)
      (Machine.makeParam start mean sd key) := by
  by_cases draws : (Machine.drawsStart start sd && key.isNone) = true
  · rw [Machine.makeParam_eq draws]
    exact splitKey_mirrors.bind fun key =>
      (aloof_mirrors (Machine.makeParam_aloof (Bool.and_false _) mean)).relocating
  · exact (aloof_mirrors (Machine.makeParam_aloof ((Bool.not_eq_true _).mp draws) mean)).relocating

theorem fetch_mirrors (previous : Option (List Int)) (size : Nat) (batch : Value) (a : Address) :
    Mirrors (relocating b h) id (Run.fetch previous size batch a)
      (Run.fetch previous size batch a) := by
  refine current_mirrors.bind fun active => ?_
  obtain ⟨title, key, address, picks⟩ := active
  cases picks with
  | none => exact .pure _
  | some picks =>
    refine (aloof_mirrors (.modify fun _ _ _ => rfl)).relocating.bind fun _ => ?_
    cases picks with
    | nil => exact .pure _
    | cons pick rest =>
      refine Mirrors.bind (updateCurrent_mirrors ?_ ?_) fun _ => .pure _
      · exact fun _ => rfl
      · exact fun _ => rfl

theorem finishPass_mirrors (a : Address) :
    Mirrors (relocating b h) id (Run.finishPass a) (Run.finishPass a) := by
  have ends {w : World} {head : Active} {rest : List Active} (charged : w.strategies = head :: rest) :
      Run.finishPass a w = .ok ()
        (if head.picks.isSome then { w with calls := .final a :: w.calls } else w) := by
    obtain ⟨_, _⟩ := w
    subst charged
    obtain ⟨_, _, _, picks⟩ := head
    cases picks <;> rfl
  rintro i w w' ⟨head, at_h, beside⟩
  rw [ends beside.strategies, ends beside.strategies']
  refine ⟨rfl, head, at_h, ?_⟩
  change Beside _ _ _ (if head.picks.isSome then _ else _)
  split
  · refine ⟨beside.strategies, beside.strategies', ?_, beside.notices⟩
    exact congrArg (fun w : World => { w with calls := .final a :: w.calls }) beside.alike
  · exact beside

/-- A strategy put in charge at an address, and at that address under the base. -/
theorem installed_mirrors {a : Active} {x : Run α} {y : Run β}
    (mirrors : Mirrors (relocating b a.address) φ x y) :
    Mirrors (elsewhere b) φ (Run.installed a x) (Run.installed (a.under b) y) := by
  intro i w w' beside
  rw [Run.installed_eq, Run.installed_eq]
  refine mirrors.bracket_agree (i := i) rfl ⟨a, rfl, ?_⟩ ?_
  · refine ⟨?_, ?_, beside.alike, beside.notices⟩
    · exact congrArg (a :: ·) beside.strategies
    · exact congrArg (a.under b :: ·) beside.strategies'
  · rintro w₁ w₁' ⟨head, _, beside⟩
    refine ⟨?_, ?_, beside.alike, beside.notices⟩
    · exact congrArg List.tail beside.strategies
    · exact congrArg List.tail beside.strategies'

theorem nested_relocating {x : Run α} {y : Run β} (mirrors : Mirrors (relocating b h) φ x y) :
    Mirrors (relocating b h) φ (Run.nested x) (Run.nested y) := by
  rintro i w w' ⟨head, rfl, beside⟩
  unfold Run.nested
  rw [bind_of_ok (Run.current_eq beside.strategies), bind_of_ok (Run.current_eq beside.strategies')]
  have installs (key : Random.Key) := (installed_mirrors
    (a := ⟨"SMC", some key, head.address, none⟩) mirrors).relocating (h := head.address)
  exact splitKey_mirrors.bind installs i w w' ⟨head, rfl, beside⟩

/-- Strategies are answered alike at both bases. -/
theorem relocating_serves (b h : Address) :
    (relocating b h).Serves (D := Dist) (R := Float) where
  fail moved := .throw moved
  note placeless := (aloof_mirrors (.note placeless)).relocating
  unlessDegenerate mirrors := by
    rw [Run.unlessDegenerate_eq, Run.unlessDegenerate_eq]
    exact mirrors.caught
  nested := nested_relocating
  enumerable _ := rfl
  support _ := (aloof_mirrors (.lift _)).relocating
  logDensity _ _ := (aloof_mirrors (.lift _)).relocating
  draw _ := splitKey_mirrors.bind fun _ => (aloof_mirrors (.lift _)).relocating
  logUniform := splitKey_mirrors.bind fun key => .pure key.logUniform
  offset := splitKey_mirrors.bind fun key => .pure (key.uniform 0)
  indexBelow n := splitKey_mirrors.bind fun key => .pure (key.below n)
  categorical _ _ := splitKey_mirrors.bind fun _ => (aloof_mirrors (.lift _)).relocating

end

end ProbCore
