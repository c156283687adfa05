import Recompile.FileTree
import Recompile.Text.Blank
import Recompile.Toml.Document

/-!
# Configuration

What a project says about its task in `cinder.toml`: the identity of the task, the toolchain, the
include roots, the root sources and the place of the snapshots. All but the task may be left out.

A section is a table of its fields, or an array of them in the order of their declaration; what it
says beyond them does not count. A configuration that has the right shape is then checked for
values that cannot be meant.
-/

namespace Recompile

inductive Toolchain where
  | gcc
  | clang
  | visualCpp
  | swift
  deriving DecidableEq, Repr

namespace Toolchain

def name : Toolchain → String
  | gcc => "gcc"
  | clang => "clang"
  | visualCpp => "visual-cpp"
  | swift => "swift"

def ofName? (s : String) : Option Toolchain :=
  [gcc, clang, visualCpp, swift].find? fun t => t.name = s

/-- Whether the family reads `#import` as an include of the header. -/
def importsAreIncludes : Toolchain → Bool
  | gcc | clang => true
  | visualCpp | swift => false

end Toolchain

def configFile : String := "cinder.toml"

/-- Where snapshots are kept if the configuration does not say. -/
def defaultCacheDir : String := ".cinder-cache"

inductive ConfigError where
  | unreadable (path : Path) (cause : FileError)
  /-- The text is no document, or the document has another shape. -/
  | malformed (reason : String)
  /-- A required field is missing or blank. -/
  | missingField (field : String)
  /-- A field has a value that cannot be meant. -/
  | invalid (reason : String)
  deriving BEq

namespace ConfigError

def message : ConfigError → String
  | unreadable path cause => "cannot read " ++ path.text ++ ": " ++ cause.message
  | malformed reason => "invalid cinder.toml: " ++ reason
  | missingField field => "cinder.toml is missing required field `" ++ field ++ "`"
  | invalid reason => "invalid value in cinder.toml: " ++ reason

def chain (e : ConfigError) : List String :=
  match e with
  | unreadable _ cause => [e.message, cause.message]
  | _ => [e.message]

end ConfigError

structure Config where
  taskPath : String
  incremental : Bool
  toolchain : Toolchain
  /-- Whether `#import` counts as `#include`, if that is said. -/
  importsAreIncludes : Option Bool
  roots : List String
  sources : List String
  cacheDir : String
  deriving DecidableEq, Repr

/-! ## Reading values -/

namespace Toml.Value

def text? : Value → Option String
  | text s => some s
  | _ => none

def bool? : Value → Option Bool
  | bool b => some b
  | _ => none

/-- A text by itself, or an array of texts. -/
def texts? : Value → Option (List String)
  | text s => some [s]
  | array items => items.mapM text?
  | tables items => items.mapM text?
  | _ => none

/-- Whether a value holds nothing. -/
def isHollow : Value → Bool
  | array items => items.isEmpty
  | tables items => items.isEmpty
  | table _ entries => entries.isEmpty
  | _ => false

/-- A toolchain by its name, or as a table with the name as its one key and nothing under it. -/
def toolchain? : Value → Option Toolchain
  | text s => Toolchain.ofName? s
  | table _ [(name, value)] => if value.isHollow then Toolchain.ofName? name else none
  | _ => none

/-- The fields of a section, each found by its place and its name. A date is a section that says
nothing. -/
def fields? : Value → Option (Nat → String → Option Value)
  | table _ entries => some fun _ name => Toml.Entries.find? entries name
  | array items => some fun place _ => items[place]?
  | tables items => some fun place _ => items[place]?
  | date _ => some fun _ _ => none
  | _ => none

end Toml.Value

/-- Reads a field that may be missing. -/
def optionalField {α : Type} (read : Toml.Value → Option α) (default : α) :
    Option Toml.Value → Option α
  | none => some default
  | some value => read value

namespace Config

/-- The fields of a section that may be missing. -/
def optionalSection (document : Toml.Entries) (name : String) :
    Option (Nat → String → Option Toml.Value) :=
  optionalField Toml.Value.fields? (fun _ _ => none) (Toml.Entries.find? document name)

def ofDocument? (document : Toml.Entries) : Option Config := do
  let task ← (← Toml.Entries.find? document "task").fields?
  let taskPath ← (← task 0 "path").text?
  let incremental ← optionalField Toml.Value.bool? true (task 1 "incremental")
  let toolchain ← optionalSection document "toolchain"
  let kind ← optionalField Toml.Value.toolchain? .gcc (toolchain 0 "kind")
  let imports ← optionalField (fun v => v.bool?.map some) none (toolchain 1 "imports_are_includes")
  let includes ← optionalSection document "includes"
  let roots ← optionalField Toml.Value.texts? [] (includes 0 "roots")
  let sources ← optionalSection document "sources"
  let files ← optionalField Toml.Value.texts? [] (sources 0 "files")
  let cache ← optionalSection document "cache"
  let cacheDir ← optionalField Toml.Value.text? defaultCacheDir (cache 0 "dir")
  some ⟨taskPath, incremental, kind, imports, roots, files, cacheDir⟩

/-- Whether a text holds nothing but blanks. -/
def isBlankText (s : String) : Bool := s.toList.all isBlank

/-- Checks the values, in the order in which their errors are told. -/
def validate (c : Config) : Except ConfigError Config :=
  if isBlankText c.taskPath then .error (.missingField "task.path")
  else if c.roots.any isBlankText then
    .error (.invalid "include roots must not be empty strings")
  else if c.sources.any isBlankText then
    .error (.invalid "source files must not be empty strings")
  else if isBlankText c.cacheDir then .error (.missingField "cache.dir")
  else .ok c

def ofText (text : String) : Except ConfigError Config :=
  match Toml.parse? text with
  | none => .error (.malformed "not a TOML document")
  | some document =>
    match ofDocument? document with
    | none => .error (.malformed "a section or a field is missing or of the wrong type")
    | some c => c.validate

def load (t : FileTree) (projectDir : Path) : Except ConfigError Config :=
  let path := projectDir.joinText configFile
  match t.readText path with
  | .error e => .error (.unreadable path e)
  | .ok text => ofText text

end Config

end Recompile
