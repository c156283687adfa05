import Recompile.Snapshot
import Recompile.Wire

/-!
# Snapshots on the wire

The fields of each value stand in the order of their declaration, and a case is its number. A set is
the list of its members and a table the list of its entries, which need not be sorted or distinct
when they are read: of equal members the first counts, of entries under equal keys the first key and
the last value.
-/

namespace Recompile

namespace Wire

def path (p : Path) : Bytes := text p.text

def digest (d : Digest) : Bytes := d.toBytes

def form : Form → Bytes
  | .quoted => number 0
  | .system => number 1
  | .expression => number 2

def keyword : Keyword → Bytes
  | .includes => number 0
  | .imports => number 1

def directive (d : Directive) : Bytes := text d.value ++ form d.form ++ keyword d.keyword

def directives (ds : Directives) : Bytes := list directive ds.all ++ bool ds.unreadable

def outcome : Outcome → Bytes
  | .resolved p d => number 0 ++ path p ++ digest d
  | .unresolved => number 1
  | .unknown => number 2

def inclusion (i : Include) : Bytes := directive i.directive ++ outcome i.outcome

def fileState (f : FileState) : Bytes :=
  path f.path ++ digest f.digest ++ directives f.directives ++ list inclusion f.includes

def entry (e : Path × FileState) : Bytes := path e.1 ++ fileState e.2

def snapshot (s : Snapshot) : Bytes := list path s.sources.keys ++ list entry s.files.entries

namespace Reader

def path : Reader Path := Path.ofText <$> text

/-- A digest is sixteen bytes, each claimed for itself. -/
def digest : Reader Digest := do
  let bs ← times byte 16
  if h : bs.length = 16 then pure ⟨⟨bs.toArray, by simpa using h⟩⟩ else failure

def form : Reader Form := do
  match ← number shortWidth with
  | 0 => pure .quoted
  | 1 => pure .system
  | 2 => pure .expression
  | _ => failure

def keyword : Reader Keyword := do
  match ← number shortWidth with
  | 0 => pure .includes
  | 1 => pure .imports
  | _ => failure

def directive : Reader Directive := do
  let value ← text
  let form ← form
  let keyword ← keyword
  pure ⟨value, form, keyword⟩

def directives : Reader Directives := do
  let all ← list directive
  let unreadable ← bool
  pure ⟨all, unreadable⟩

def outcome : Reader Outcome := do
  match ← number shortWidth with
  | 0 => do
    let p ← path
    let d ← digest
    pure (.resolved p d)
  | 1 => pure .unresolved
  | 2 => pure .unknown
  | _ => failure

def inclusion : Reader Include := do
  let d ← directive
  let o ← outcome
  pure ⟨d, o⟩

def fileState : Reader FileState := do
  let p ← path
  let d ← digest
  let ds ← directives
  let is ← list inclusion
  pure ⟨p, d, ds, is⟩

def entry : Reader (Path × FileState) := do
  let p ← path
  let f ← fileState
  pure (p, f)

def snapshot : Reader Snapshot := do
  let sources ← list path
  let files ← list entry
  pure ⟨.setOf sources, .ofList files⟩

end Reader

end Wire

end Recompile
