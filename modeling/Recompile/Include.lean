import Recompile.Digest
import Recompile.Directive
import Recompile.Path

/-!
# Outcomes of directives

An `Include` is a directive with what became of it: the header it led to and that header's digest,
no header at all, or an outcome that cannot be known.
-/

namespace Recompile

inductive Outcome where
  /-- It names this file, which had this content. -/
  | resolved (path : Path) (digest : Digest)
  /-- No search directory holds such a file. -/
  | unresolved
  /-- Its header cannot be known, or cannot be read. -/
  | unknown
  deriving BEq

structure Include where
  directive : Directive
  outcome : Outcome
  deriving BEq

namespace Include

def path? (i : Include) : Option Path :=
  match i.outcome with
  | .resolved path _ => some path
  | _ => none

def isUnknown (i : Include) : Bool :=
  match i.outcome with
  | .unknown => true
  | _ => false

end Include

end Recompile
