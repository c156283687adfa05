import Recompile.Snapshot
import Recompile.Text.Json

/-!
# Snapshots as JSON

A snapshot as a JSON document, for people who want to look into it.
-/

namespace Recompile

namespace Report

def digest (d : Digest) : Json := .array (d.toBytes.map fun b => .number b.toNat)

def form : Form → Json
  | .quoted => .text "Quoted"
  | .system => .text "System"
  | .expression => .text "MacroExpression"

def keyword : Keyword → Json
  | .includes => .text "Include"
  | .imports => .text "Import"

def directive (d : Directive) : Json :=
  .object [("value", .text d.value), ("kind", form d.form), ("include_type", keyword d.keyword)]

def directives (ds : Directives) : Json :=
  .object [("directives", .array (ds.all.map directive)), ("parse_failed", .bool ds.unreadable)]

def outcome : Outcome → Json
  | .resolved p d =>
    .object [("Resolved", .object [("path", .text p.text), ("content_hash", digest d)])]
  | .unresolved => .text "Unresolved"
  | .unknown => .text "Unknown"

def inclusion (i : Include) : Json :=
  .object [("directive", directive i.directive), ("resolution", outcome i.outcome)]

def fileState (f : FileState) : Json :=
  .object [("path", .text f.path.text), ("content_hash", digest f.digest),
    ("include_directives", directives f.directives),
    ("resolved_includes", .array (f.includes.map inclusion))]

end Report

namespace Snapshot

def report (s : Snapshot) : Json :=
  .object [("sources", .array (s.sources.keys.map fun p => .text p.text)),
    ("files", .object (s.files.entries.map fun (p, f) => (p.text, Report.fileState f)))]

def toPrettyText (s : Snapshot) : String := s.report.pretty

end Snapshot

end Recompile
