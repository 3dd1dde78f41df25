import ProbCore.Instance.Estimates
import ProbCore.Program.Session

/-! Instances of strategies with their programs, used step by step. An instance is in charge while one of its methods
runs. -/

namespace ProbCore

abbrev ProgramTrace := Trace Rest Dist Float

abbrev ProgramParticle := Particle Rest Dist Float

/-- What the methods of an instance do. -/
abbrev Work := Instance.Act World Rest Dist Float

/-- What an instance keeps: its key and its fields. -/
structure Kept where
  key : Option Random.Key
  fields : Instance.Fields Rest Dist Float

def Kept.new (key : Option Random.Key) : Kept := ⟨key, .new⟩

/-- What is done with an instance. -/
abbrev Use := EStateM Failure (Kept × World)

/-- A strategy with its name, its program, the address that it is installed at, and the store that executions start
from. -/
structure Workbench where
  context : Machine.Context
  title : String
  address : Address
  strategy : Strategy Float
  entry : Rest
  store : Store

namespace Workbench

/-- Sets up a strategy by its method; its key may be missing. -/
def make (cx : Machine.Context) (f : Value) (method : Method) (options : Options) (a : Address) (s : Store) :
    Except Failure Workbench := do
  let strategy ← options.configure method
  return ⟨cx, method.title, a, strategy, .entry f a, s⟩

def active (b : Workbench) (key : Option Random.Key) : Active := ⟨b.title, key, b.address, none⟩

/-- What an instance keeps that was in charge, and the world without it. -/
def released (f : Instance.Fields Rest Dist Float) (w : World) : Kept × World :=
  (⟨w.strategies.head?.bind (·.key), f⟩, { w with strategies := w.strategies.tail })

/-- Puts the instance in charge while something is done, whatever comes of it. -/
def during {α : Type} (b : Workbench) (x : Work α) : Use α := fun (kept, w) =>
  match x (kept.fields, { w with strategies := b.active kept.key :: w.strategies }) with
  | .ok a (f, w') => .ok a (released f w')
  | .error e (f, w') => .error e (released f w')

def resume (b : Workbench) : Resume Run Rest Dist Float := Machine.resume b.context Session.fuel

def estimate (b : Workbench) : Work (Marginal Value Float) :=
  Instance.estimate b.resume Session.fuel b.entry b.store b.strategy

/-- Only some strategies record executions. -/
def records : Strategy Float → Bool
  | .enumerate _ | .rejection _ => false
  | .mcmc _ | .smc _ | .pmcmc _ | .asyncpf _ => true

/-- What only a strategy that records executions can do. -/
def recording {α : Type} (b : Workbench) (x : Work α) : Work α :=
  if records b.strategy then x else throw .noSuchQuery

def start (b : Workbench) : Work ProgramTrace := b.recording (return .start b.entry b.store)

def extend (b : Workbench) (t : ProgramTrace) (limit : Option Nat) : Work (Option ProgramTrace) :=
  b.recording (Instance.extend b.resume Session.fuel t limit)

def simulate (b : Workbench) (limit : Option Nat) : Work (Option ProgramTrace) :=
  b.recording (Instance.simulate b.resume Session.fuel b.entry b.store limit)

def findStart (b : Workbench) (limit : Option Nat) (attempts : Given Nat) : Work ProgramTrace :=
  b.recording (Instance.findStart b.resume Session.fuel b.entry b.store limit attempts)

def regenerate (b : Workbench) (t : ProgramTrace) (limit : Option Nat) : Work (Option (ProgramTrace × Float)) :=
  b.recording (Instance.regenerate b.resume Session.fuel t limit)

def move (b : Workbench) (t : ProgramTrace) (limit : Option Nat) : Work (ProgramTrace × Bool) :=
  b.recording (Instance.move b.resume Session.fuel t limit)

def exitValue (b : Workbench) (t : ProgramTrace) : Work Value := b.recording (Instance.exitValue t)

def advance (b : Workbench) (p : ProgramParticle) : Work ProgramParticle :=
  b.recording (Instance.advance b.resume Session.fuel p)

section

variable {α : Type}

def filtering (b : Workbench) (x : Filter.Config → Work α) : Work α :=
  match b.strategy with
  | .smc c => x c
  | _ => throw .noSuchQuery

def opening (b : Workbench) (x : OpeningChain.Config → Work α) : Work α :=
  match b.strategy with
  | .pmcmc c => x c
  | _ => throw .noSuchQuery

def cascading (b : Workbench) (x : Cascade.Config → Work α) : Work α :=
  match b.strategy with
  | .asyncpf c => x c
  | _ => throw .noSuchQuery

end

def resample (b : Workbench) (ps : List ProgramParticle) : Work (List ProgramParticle) :=
  b.filtering fun c => Instance.Act.host (Filter.resample c ps)

def rejuvenate (b : Workbench) (p : ProgramParticle) (limit : Nat) : Work ProgramParticle :=
  b.filtering fun c => Instance.Filter.rejuvenate b.resume Session.fuel c limit p

def filter (b : Workbench) (ps : List ProgramParticle) : Work (Filter.Outcome Rest Dist Float) :=
  b.filtering fun c => Instance.Filter.outcome b.resume Session.fuel c ps

def startChain (b : Workbench) : Work (OpeningChain.State Rest Dist Float) :=
  b.opening fun c => Instance.OpeningChain.startChain b.resume Session.fuel c b.entry b.store

def propose (b : Workbench) (t : ProgramTrace) : Work (Option (ProgramTrace × Float)) :=
  b.opening fun _ => Instance.OpeningChain.propose b.resume Session.fuel t

def complete (b : Workbench) (t : ProgramTrace) : Work (Float × List ProgramParticle) :=
  b.opening fun c => Instance.Act.host (Instance.OpeningChain.complete b.resume Session.fuel c t)

def drawValue (b : Workbench) (ps : List ProgramParticle) : Work Value :=
  b.opening fun _ => Instance.Act.host (OpeningChain.drawValue ps)

/-- Counts an arrival; the mean weight at its factor. -/
def arrive (b : Workbench) (j : Nat) (weight : Float) : Work Float :=
  b.cascading fun _ => Instance.Cascade.arrive j weight

/-- Counts the arrival of a particle at its factor, and gives its children. -/
def children (b : Workbench) (p : ProgramParticle) (buffered : Nat) : Work (List ProgramParticle) :=
  b.cascading fun c => Instance.Cascade.children c p buffered

/-- Runs one particle, with what waits before it, next first. -/
def process (b : Workbench) (p : ProgramParticle) (waiting : List ProgramParticle) :
    Work (Instance.Cascade.Queue Rest Dist Float) :=
  b.cascading fun c => Instance.Cascade.process b.resume Session.fuel c p ⟨waiting, []⟩

end Workbench

end ProbCore
