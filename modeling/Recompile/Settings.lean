import Recompile.Build
import Recompile.Config

/-!
# Settings

What a configuration comes to for the project in a directory: its paths are taken from there and
normalized, and the toolchain decides on `#import` where the configuration does not.
-/

namespace Recompile

structure Settings where
  task : String
  incremental : Bool
  toolchain : Toolchain
  imports : Bool
  roots : List Path
  sources : List Path
  cacheDir : Path

namespace Settings

/-- The settings that a configuration gives to the project in `projectDir`. -/
def resolve (c : Config) (projectDir : Path) : Settings :=
  let anchor (s : String) : Path := (projectDir.joinText s).normalize
  { task := c.taskPath
    incremental := c.incremental
    toolchain := c.toolchain
    imports := c.importsAreIncludes.getD c.toolchain.importsAreIncludes
    roots := c.roots.map anchor
    sources := c.sources.map anchor
    cacheDir := anchor c.cacheDir }

def spec (s : Settings) : TaskSpec := ⟨s.task, s.sources, s.roots, s.incremental, s.imports⟩

end Settings

end Recompile
