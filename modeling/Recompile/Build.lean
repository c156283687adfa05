import Recompile.Diff
import Recompile.Store

/-!
# Building a task

A build loads the snapshot of its task, computes what has to be done, tells the surrounding build
what to watch, hands the work to the compiler, and saves the new snapshot once the compiler has done
it. If the compiler fails the old snapshot stays, and the next build asks for the same work again.
-/

namespace Recompile

structure TaskSpec where
  task : String
  sources : List Path
  /-- The include roots, in search order. -/
  roots : List Path
  incremental : Bool
  /-- Whether `#import` counts as `#include`. -/
  imports : Bool
  deriving BEq

structure Request where
  sources : PathSet
  removed : PathSet
  cleanOutputs : Bool
  /-- The directives of each source to be compiled. -/
  directives : Table Path Directives
  deriving BEq

namespace Request

def hasWork (r : Request) : Bool := !r.sources.isEmpty || !r.removed.isEmpty

/-- The request to compile the given sources of a compilation. A source without a state has no
directives to hand over. -/
def make (c : Compilation) (sources : PathSet) (cleanOutputs : Bool) : Request :=
  { sources
    removed := c.removed
    cleanOutputs
    directives := .ofList <| sources.keys.filterMap fun p =>
      (c.state.file? p).map fun f => (p, f.directives) }

/-- The request of a build: what changed, or everything over clean outputs. -/
def ofCompilation (incremental : Bool) (c : Compilation) : Request :=
  if incremental then make c c.recompile false else make c c.state.sources true

end Request

inductive BuildError where
  | unreadable (path : Path) (cause : FileError)
  /-- The search for headers did not end within the names that the disk can offer. -/
  | endless (limit : Nat)
  | notSaved (task : String) (cause : StoreError)
  | compiler (reason : String)
  deriving BEq

namespace BuildError

def message : BuildError → String
  | unreadable path cause => "cannot read source file " ++ path.text ++ ": " ++ cause.message
  | endless limit => "header search met more than " ++ toString limit ++ " names"
  | notSaved task cause =>
    "failed to persist compilation state for " ++ task ++ ": " ++ cause.message
  | compiler reason => "compilation failed: " ++ reason

def chain (e : BuildError) : List String :=
  e.message ::
    match e with
    | unreadable _ cause => [cause.message]
    | endless _ => []
    | notSaved _ cause => cause.chain
    | compiler reason => [reason]

def ofSurvey : SurveyError → BuildError
  | .unreadable path cause => unreadable path cause
  | .endless limit => endless limit

end BuildError

/-- What a compiler does with a request: it fails with a reason, or says whether it did any work. -/
abbrev Compiler := Request → Except String Bool

structure BuildResult where
  didWork : Bool
  compilation : Compilation

structure Build (σ : Type) where
  outcome : Except BuildError BuildResult
  store : σ
  /-- What the surrounding build has to watch, as far as this build came to say so. -/
  inputs : PathSet
  /-- What the compiler was asked to do, if it was asked. -/
  request : Option Request

namespace Build

variable {σ : Type} [SnapshotStore σ]

/-- Hands a compilation to the compiler and saves its snapshot. -/
def finish (store : σ) (spec : TaskSpec) (compile : Compiler) (inputs : PathSet)
    (c : Compilation) : Logged (Build σ) := do
  if !spec.incremental then Logged.report .cleanCompile
  let request := Request.ofCompilation spec.incremental c
  match compile request with
  | .error reason => pure ⟨.error (.compiler reason), store, inputs, some request⟩
  | .ok didWork =>
    match ← SnapshotStore.save store spec.task c.state with
    | (store, .error e) => pure ⟨.error (.notSaved spec.task e), store, inputs, some request⟩
    | (store, .ok ()) => do
      Logged.report (.taskFinished request.sources.size request.removed.size didWork)
      pure ⟨.ok ⟨didWork, c⟩, store, inputs, some request⟩

/-- Builds a task. The inputs to watch are added to `watched`. -/
def execute (disk : Disk) (limit : Nat) (store : σ) (spec : TaskSpec) (compile : Compiler)
    (watched : PathSet) : Logged (Build σ) := do
  Logged.report (.taskBegins spec.task)
  let previous := (← SnapshotStore.load store spec.task).getD .empty
  match ← Compilation.compute disk limit previous (.new spec.imports (.ofRoots spec.roots))
      spec.sources with
  | .error e => pure ⟨.error (.ofSurvey e), store, watched, none⟩
  | .ok c => do
    let inputs ← c.inputs spec.roots
    finish store spec compile (watched.addAll inputs.keys) c

/-- A compiler that never fails and did work if there was any to do. -/
def recording : Compiler := fun request => .ok request.hasWork

end Build

end Recompile
