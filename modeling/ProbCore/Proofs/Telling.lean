import ProbCore.Proofs.Chronicle
import ProbCore.Proofs.SharedStrategies

/-! Chronicles beside each other. Two runs that come to the same world have been told the same if
the same steps were handed over in both, up to what the rests in them look like. What is known of all
steps so far may be part of it, as no answer of the host hands anything over. -/

namespace ProbCore

def Handed.map (ψ : Step Rest Dist Float → Step Rest Dist Float) (h : Handed) : Handed :=
  { h with step := ψ h.step }

/-- Two chronicles that have come to the same world, with the same steps handed over up to `ψ`, and
with all so far as it should be. -/
def tellingWhile (fair : List Handed → Prop) (ψ : Step Rest Dist Float → Step Rest Dist Float) :
    Tie Unit Chronicle Chronicle where
  place := id
  holds := fun _ x x' => x.world = x'.world ∧ x'.handed = x.handed.map (·.map ψ) ∧ fair x.handed

abbrev telling (ψ : Step Rest Dist Float → Step Rest Dist Float) : Tie Unit Chronicle Chronicle :=
  tellingWhile (fun _ => True) ψ

variable {J α β : Type} {φ : α → β} {ψ : Step Rest Dist Float → Step Rest Dist Float}
  {fair : List Handed → Prop} {P : Patience J}

theorem quiet_telling {act : Run α} {act' : Run β} (mirrors : Mirrors alone φ act act') :
    Mirrors (tellingWhile fair ψ) φ (Chronicled.quiet act) (Chronicled.quiet act') := by
  rintro i x x' ⟨same, handed⟩
  obtain ⟨a, w, w', ran, ran', held⟩ | ⟨e, e', w, w', failed, failed', moved, held⟩ :=
    (mirrors () x.world x'.world same).cases
  · rw [Chronicled.quiet_of_ok ran, Chronicled.quiet_of_ok ran']
    exact ⟨rfl, held, handed⟩
  · rw [Chronicled.quiet_of_error failed, Chronicled.quiet_of_error failed']
    exact ⟨moved, held, handed⟩

theorem installed_telling {x : J → Chronicled α} {y : Chronicled β} (a : Active)
    (tracks : Tracks P (tellingWhile fair ψ) φ x y) :
    Tracks P (tellingWhile fair ψ) φ (fun j => Chronicled.installed a (x j))
      (Chronicled.installed a y) := by
  refine tracks.bracket rfl fun i x x' held => ⟨i, ⟨?_, held.2⟩, fun held => ⟨?_, held.2⟩⟩
  · exact congrArg (fun w : World => { w with strategies := a :: w.strategies }) held.1
  · exact congrArg (fun w : World => { w with strategies := w.strategies.tail }) held.1

theorem nested_telling {x : J → Chronicled α} {y : Chronicled β}
    (tracks : Tracks P (tellingWhile fair ψ) φ x y) :
    Tracks P (tellingWhile fair ψ) φ (fun j => Host.nested (x j)) (Host.nested y) :=
  (quiet_telling (alone_mirrors _)).tracks.bind fun _ =>
    (quiet_telling (alone_mirrors _)).tracks.bind fun _ => installed_telling _ tracks

/-- Strategies are answered alike. -/
theorem telling_serves : (tellingWhile fair ψ).Serves (D := Dist) (R := Float) where
  fail moved := .throw moved
  note _ := quiet_telling (alone_mirrors _)
  unlessDegenerate mirrors := mirrors.caught
  nested mirrors := tracks_single.mp (nested_telling mirrors.tracks)
  enumerable _ := rfl
  support _ := quiet_telling (alone_mirrors _)
  logDensity _ _ := quiet_telling (alone_mirrors _)
  draw _ := (quiet_telling (alone_mirrors _)).bind fun _ => quiet_telling (alone_mirrors _)
  logUniform := (quiet_telling (alone_mirrors _)).bind fun _ => .pure _
  offset := (quiet_telling (alone_mirrors _)).bind fun _ => .pure _
  indexBelow _ := (quiet_telling (alone_mirrors _)).bind fun _ => .pure _
  categorical _ _ := quiet_telling (alone_mirrors _)

theorem telling_sustains (kept : ¬ P.lost .degenerate) :
    (tellingWhile fair ψ).Sustains P (D := Dist) (R := Float) where
  serves := telling_serves
  lost gone := .lost gone
  unlessDegenerate := Tracks.caught kept
  nested := nested_telling

/-- A step may be handed over if that leaves all as it should be. -/
theorem tell_telling {h : Handed} (kept : ∀ handed, fair handed → fair (h :: handed)) :
    Mirrors (tellingWhile fair ψ) id (Chronicled.tell h) (Chronicled.tell (h.map ψ)) := by
  rintro i x x' ⟨same, handed, held⟩
  exact ⟨rfl, same, congrArg (h.map ψ :: ·) handed, kept x.handed held⟩

theorem handing_telling {x : J → Chronicled (Step Rest Dist Float)}
    {y : Chronicled (Step Rest Dist Float)} (depth : Nat) (tracks : Tracks P (telling ψ) ψ x y) :
    Tracks P (telling ψ) ψ (fun j => Chronicled.handing depth (x j)) (Chronicled.handing depth y) :=
  tracks.bind fun step => (tell_telling fun _ _ => trivial).tracks.bind fun _ => .pure step

theorem moving_telling {cx : Machine.Context} {control : Control} {act : Run α} {φ : α → Move}
    (mirrors : Mirrors alone φ act (Machine.advance cx control)) :
    Mirrors (tellingWhile fair ψ) φ (Chronicled.quiet act) (Chronicled.moving cx control) :=
  fun i x x' held =>
    quiet_telling mirrors i x { x' with moves := ⟨cx, control, x'.world⟩ :: x'.moves } held

/-- Moves that are written down on one side may be written down on the other or not. -/
theorem moved_telling {cx : Machine.Context} {control : Control} {act : Chronicled β}
    {φ : Move → β} (mirrors : Mirrors (tellingWhile fair ψ) φ
      (Chronicled.quiet (Machine.advance cx control)) act) :
    Mirrors (tellingWhile fair ψ) φ (Chronicled.moving cx control) act := fun i x x' held =>
  mirrors i { x with moves := ⟨cx, control, x.world⟩ :: x.moves } x' held

variable {resume : J → Resume Chronicled Rest Dist Float} {resume' : Resume Chronicled Rest Dist Float}
  {fuel : J → Nat} {fuel' : Nat}

theorem along_telling (kept : ¬ P.lost .degenerate)
    (resumes : ∀ k s v, Tracks P (tellingWhile fair id) id (fun j => resume j k s v) (resume' k s v))
    (fuelled : P.Suffices fuel fuel') :
    Alongside P (T := tellingWhile fair id) .unmoved resume resume' fuel fuel' :=
  .unmoved (telling_sustains kept) resumes fuelled

/-- The answers of a strategy are the same on both sides if it works alike on them. -/
theorem answers_telling
    (along : Alongside P (T := tellingWhile fair id) .unmoved resume resume' fuel fuel')
    (i : Inference) (s : Store) :
    Tracks P (tellingWhile fair id) id
      (fun j => Chronicled.installed i.active
        (i.strategy.estimate (resume j) (fuel j) i.entry s))
      (Chronicled.installed i.active (i.strategy.estimate resume' fuel' i.entry s)) :=
  installed_telling i.active (i.strategy.estimate_tracks along i.entry s)

end ProbCore
