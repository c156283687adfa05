import Recompile.FileTree

/-!
# Diagnostics

What a build reports while it runs is part of its result: a list of events, in order. An `Event`
says what happened, `Event.record` how that is written down. `Logged` pairs a value with the events
that led to it, so that functions that report are composed with `do` and what they compute does not
depend on the reports.
-/

namespace Recompile

inductive Level where
  | trace
  | debug
  | info
  | warn
  deriving DecidableEq, Repr

def Level.text : Level → String
  | trace => "TRACE"
  | debug => "DEBUG"
  | info => "INFO"
  | warn => "WARN"

inductive Reporter where
  | searchPath
  | survey
  | diff
  | inputs
  | build
  | store
  deriving DecidableEq, Repr

inductive FieldValue where
  | number (n : Nat)
  | flag (b : Bool)
  | text (s : String)
  deriving DecidableEq, Repr

structure Record where
  level : Level
  reporter : Reporter
  /-- The name of the activity that begins, or else the message. -/
  text : String
  /-- Whether an activity begins. -/
  isSpan : Bool
  fields : List (String × FieldValue)
  deriving DecidableEq, Repr

inductive Event where
  | taskBegins (task : String)
  /-- The comparison with the previous build begins, for so many source paths. -/
  | diffBegins (sources : Nat)
  | scanned (path : Path) (includes : Nat)
  | includedUnreadable (path : Path) (error : FileError)
  /-- A header was found and cannot be read, while a single directive is resolved. -/
  | headerUnreadable (path : Path) (error : FileError)
  | diffComputed (added removed seeds recompile headers : Nat)
  /-- Some header cannot be known, so that many include roots become inputs. -/
  | rootsAreInputs (roots : Nat)
  | cleanCompile
  | taskFinished (compiled removed : Nat) (didWork : Bool)
  | noSnapshot (task : String)
  | snapshotDiscarded (task : String)
  | snapshotStored (task : String) (files : Nat)
  | snapshotsCollected (removed : Nat)

def Event.record : Event → Record
  | taskBegins task => ⟨.debug, .build, "execute", true, [("task", .text task)]⟩
  | diffBegins sources =>
    ⟨.debug, .diff, "process_source_files", true, [("sources", .number sources)]⟩
  | scanned path includes =>
    ⟨.trace, .survey, "scanned file", false,
      [("path", .text path.text), ("includes", .number includes)]⟩
  | includedUnreadable path error =>
    ⟨.debug, .survey, "included header is unreadable", false,
      [("path", .text path.text), ("err", .text error.message)]⟩
  | headerUnreadable path error =>
    ⟨.debug, .searchPath, "header is unreadable", false,
      [("path", .text path.text), ("err", .text error.message)]⟩
  | diffComputed added removed seeds recompile headers =>
    ⟨.debug, .diff, "incremental compilation computed", false,
      [("added", .number added), ("removed", .number removed), ("seeds", .number seeds),
        ("recompile", .number recompile), ("headers", .number headers)]⟩
  | rootsAreInputs roots =>
    ⟨.info, .inputs,
      "cannot determine changed state of included files; treating include roots as inputs", false,
      [("roots", .number roots)]⟩
  | cleanCompile => ⟨.info, .build, "performing a clean compile of all sources", false, []⟩
  | taskFinished compiled removed didWork =>
    ⟨.debug, .build, "compile task finished", false,
      [("compiled", .number compiled), ("removed", .number removed), ("did_work", .flag didWork)]⟩
  | noSnapshot task =>
    ⟨.debug, .store, "no previous compilation state", false, [("task", .text task)]⟩
  | snapshotDiscarded task =>
    ⟨.warn, .store, "discarding unusable compilation state", false, [("task", .text task)]⟩
  | snapshotStored task files =>
    ⟨.debug, .store, "stored compilation state", false,
      [("task", .text task), ("files", .number files)]⟩
  | snapshotsCollected removed =>
    ⟨.debug, .store, "collected stale snapshots", false, [("removed", .number removed)]⟩

/-- A value with the events reported on the way to it. -/
structure Logged (α : Type) where
  value : α
  log : List Event

namespace Logged

instance : Monad Logged where
  pure a := ⟨a, []⟩
  bind x f := ⟨(f x.value).value, x.log ++ (f x.value).log⟩

instance : LawfulMonad Logged :=
  LawfulMonad.mk' Logged (fun _ => by simp [Functor.map]) (fun _ _ => by simp [bind, pure])
    (fun _ _ _ => by simp [bind])

@[simp] theorem value_pure {α : Type} (a : α) : (pure a : Logged α).value = a := rfl

@[simp] theorem value_bind {α β : Type} (x : Logged α) (f : α → Logged β) :
    (x >>= f).value = (f x.value).value := rfl

def report (e : Event) : Logged Unit := ⟨(), [e]⟩

end Logged

end Recompile
