import Recompile.Site

/-!
# Project fixtures

A project is a directory in which files are written, removed and configured by their names, for
builds to be tried on. What goes wrong with the fixture itself is told by what was being done.
-/

namespace Recompile

inductive FixtureError where
  | createParent
  | writeFile
  | removeFile
  | loadConfig
  deriving DecidableEq, Repr

def FixtureError.message : FixtureError → String
  | createParent => "create parent directory"
  | writeFile => "write project file"
  | removeFile => "remove project file"
  | loadConfig => "load cinder.toml"

structure Project where
  root : Path
  tree : FileTree

namespace Project

def path (p : Project) (name : String) : Path := p.root.joinText name

/-- The set of the paths of some files of the project, each as it was spelled last. -/
def paths (p : Project) (names : List String) : PathSet := .setOfLast (names.map p.path)

/-- Writes a file and makes the directories it lies in. -/
def write (p : Project) (name : String) (content : Bytes) :
    Project × Except FixtureError Path :=
  let path := p.path name
  match p.tree.makeParents path with
  | (tree, .error _) => ({ p with tree }, .error .createParent)
  | (tree, .ok ()) =>
    match tree.write path content with
    | .error _ => ({ p with tree }, .error .writeFile)
    | .ok tree => ({ p with tree }, .ok path)

def remove (p : Project) (name : String) : Except FixtureError Project :=
  match p.tree.remove (p.path name) with
  | .error _ => .error .removeFile
  | .ok tree => .ok { p with tree }

/-- Writes the configuration file; the settings it comes to. -/
def configure (p : Project) (text : String) : Project × Except FixtureError Settings :=
  match p.write configFile (Utf8.ofString text) with
  | (p, .error e) => (p, .error e)
  | (p, .ok _) =>
    match Config.load p.tree p.root with
    | .error _ => (p, .error .loadConfig)
    | .ok c => (p, .ok (Settings.resolve c p.root))

/-- The plain task of building some sources: only what changed, and with `#import` counted. -/
def spec (task : String) (sources roots : List Path) : TaskSpec :=
  ⟨task, sources, roots, true, true⟩

/-- Compares the sources as they are with a snapshot, counting `#import`. -/
def process (p : Project) (previous : Snapshot) (sources roots : List Path) :
    Logged (Except SurveyError Compilation) :=
  Compilation.compute p.tree.disk p.tree.nameCount previous (.new true (.ofRoots roots)) sources

end Project

end Recompile
