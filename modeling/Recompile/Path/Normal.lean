import Recompile.Path

/-!
# Normal forms of paths

`Path.normalize` removes every `.` and folds every `..` into the name before it, by the text alone.
A `..` that has no name before it stays if the path is relative and is dropped right under the root,
as the root is its own parent. What remains is written with single slashes; nothing is written `.`.
`Path.IsNormal` says the same without the fold.
-/

namespace Recompile

namespace Step

/-- Adds one step to the steps kept so far, which stand in reverse. -/
def fold (kept : List Step) : Step → List Step
  | here => kept
  | up =>
    match kept with
    | name _ :: before => before
    | root :: _ => kept
    | _ => up :: kept
  | step => step :: kept

/-- The steps that remain of a path. -/
def normalize (steps : List Step) : List Step := (steps.foldl fold []).reverse

/-- The text of a list of steps: single slashes between them, and a leading one for the root. -/
def render : List Step → String
  | [] => "."
  | root :: rest => String.ofList ('/' :: joinSlashes (rest.map (·.text.toList)))
  | rest => String.ofList (joinSlashes (rest.map (·.text.toList)))

/-- No `.`, and no `..` below the root or after a name. -/
def Folded (steps : List Step) : Prop :=
  ∃ (ups : Nat) (names : List String),
    steps = List.replicate ups up ++ names.map name ∨ steps = root :: names.map name

end Step

namespace Path

/-- The same name with every `.` and every `..` that can be folded away removed. -/
def normalize (p : Path) : Path := ofText (Step.render (Step.normalize p.steps))

/-- A path is normal when it is `.` alone or is written from folded steps. -/
def IsNormal (p : Path) : Prop :=
  p.text = "." ∨ (Step.Folded p.steps ∧ p.steps ≠ [] ∧ p.text = Step.render p.steps)

end Path

end Recompile
