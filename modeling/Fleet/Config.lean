import Fleet.Duration
import Fleet.Toml.Document
import Fleet.Json.Record
import Fleet.Text.Quoted

/-!
# Configuration

The daemon is configured by a TOML document with three sections, each of which and each entry of
which may be missing. Entries are texts; the durations among them are kept as they are written and
checked when the document is read, so that a configuration in use answers every question about it.
What the document says beyond these entries is ignored. A section may be written without keys, as an
array that starts with its entries in their order.

`Config.parse` reads a document; the functions behind it answer the questions, with defaults where
the document is silent.
-/

set_option autoImplicit false

namespace Fleet

/-! ## Sections -/

structure StoreSection where
  path : Option String := none
deriving DecidableEq, Repr

structure ProcessSection where
  keepalivePeriod : Option String := none
  keepaliveTimeout : Option String := none
  reaperPeriod : Option String := none
  resource : Option String := none
deriving DecidableEq, Repr

structure WorkersSection where
  listenerPeriod : Option String := none
  retryInitialBackoff : Option String := none
deriving DecidableEq, Repr

structure Config where
  store : Option StoreSection := none
  process : Option ProcessSection := none
  workers : Option WorkersSection := none
deriving DecidableEq, Repr

/-! ## Errors -/

inductive ConfigError where
  /-- The file at a path cannot be read. -/
  | unreadable (path : String)
  /-- The text is not TOML, or an entry is not a text. -/
  | malformed
  | invalidDuration (written : String)
  /-- The default timeout of this keepalive period is beyond the longest duration. -/
  | periodTooLarge (period : Duration)
deriving DecidableEq, Repr

def ConfigError.message : ConfigError → String
  | .unreadable path => "reading config " ++ path
  | .malformed => "malformed config"
  | .invalidDuration written =>
    "invalid duration " ++ Text.quoted written ++ " (expected e.g. 500ms, 5s, 2m)"
  | .periodTooLarge period => "keepalive period " ++ period.text ++ " is too large"

namespace Config

/-! ## Reading the document -/

open Toml (Value)

def lookup? (key : String) (entries : List (String × Value)) : Option Value :=
  (entries.find? (·.1 == key)).map (·.2)

/-- An entry that is a text or missing. -/
def textEntry? : Option Value → Option (Option String)
  | none => some none
  | some (.text s) => some (some s)
  | some _ => none

/-- The entries of a section under their names, in the order of the names. -/
def section? (names : List String) (v : Value) : Option (List (Option String)) :=
  match v with
  | .table entries => names.mapM fun name => textEntry? (lookup? name entries)
  | .array items =>
    if names.length ≤ items.length then (items.take names.length).mapM fun v => textEntry? (some v)
    else none
  -- a moment passes for a table without any of the names
  | .moment _ => some (names.map fun _ => none)
  | _ => none

def storeSection? (v : Value) : Option StoreSection :=
  match section? ["path"] v with
  | some [path] => some ⟨path⟩
  | _ => none

def processSection? (v : Value) : Option ProcessSection :=
  match section? ["keepalive-period", "keepalive-timeout", "reaper-period", "resource"] v with
  | some [period, timeout, reaper, resource] => some ⟨period, timeout, reaper, resource⟩
  | _ => none

def workersSection? (v : Value) : Option WorkersSection :=
  match section? ["listener-period", "retry-initial-backoff"] v with
  | some [listener, backoff] => some ⟨listener, backoff⟩
  | _ => none

/-- A section that may be missing. -/
def optional? {α : Type} (read : Value → Option α) : Option Value → Option (Option α)
  | none => some none
  | some v => (read v).map some

def ofToml? (entries : List (String × Value)) : Option Config := do
  return {
    store := ← optional? storeSection? (lookup? "store" entries)
    process := ← optional? processSection? (lookup? "process" entries)
    workers := ← optional? workersSection? (lookup? "workers" entries) }

/-! ## Questions -/

/-- How many keepalive periods a process may miss. -/
def timeoutFactor : Nat := 5

/-- The duration that an entry writes, or the default for a missing entry. -/
def durationOr (default : Duration) : Option String → Except ConfigError Duration
  | none => .ok default
  | some s =>
    match Duration.parse? s with
    | some d => .ok d
    | none => .error (.invalidDuration s)

def keepalivePeriod (c : Config) : Except ConfigError Duration :=
  durationOr (.ofSeconds 5) (c.process.bind (·.keepalivePeriod))

/-- How old the last keepalive of a process may get, by default five keepalive periods. -/
def keepaliveTimeout (c : Config) : Except ConfigError Duration := do
  let period ← c.keepalivePeriod
  -- the default has to fit, also where a timeout is written
  match period.times? timeoutFactor with
  | none => .error (.periodTooLarge period)
  | some default => durationOr default (c.process.bind (·.keepaliveTimeout))

/-- The time between two looks for dead processes, by default the keepalive period. -/
def reaperPeriod (c : Config) : Except ConfigError Duration := do
  durationOr (← c.keepalivePeriod) (c.process.bind (·.reaperPeriod))

/-- The time between two looks for jobs and tasks to settle. -/
def listenerPeriod (c : Config) : Except ConfigError Duration :=
  durationOr (.ofSeconds 1) (c.workers.bind (·.listenerPeriod))

/-- The first delay of a retry. -/
def retryInitialBackoff (c : Config) : Except ConfigError Duration :=
  durationOr (.ofSeconds 1) (c.workers.bind (·.retryInitialBackoff))

/-- The computing resource that processes advertise. -/
def resource (c : Config) : String := (c.process.bind (·.resource)).getD "cpu"

/-- The path of an entry of a directory. -/
def within (dir name : String) : String :=
  if dir = "" || dir.toList.getLast? = some '/' then dir ++ name else dir ++ "/" ++ name

/-- The file of the store, by default in the data directory. -/
def storePath (dataDir : String) (c : Config) : String :=
  (c.store.bind (·.path)).getD (within dataDir "jobgrid.redb")

/-! ## Checked configurations -/

/-- The durations of a configuration. -/
structure Timing where
  keepalivePeriod : Duration
  keepaliveTimeout : Duration
  reaperPeriod : Duration
  listenerPeriod : Duration
  retryInitialBackoff : Duration
deriving DecidableEq, Repr

/-- All durations of a configuration, or what is wrong with the first one that is wrong. -/
def timing (c : Config) : Except ConfigError Timing := do
  return {
    keepalivePeriod := ← c.keepalivePeriod
    keepaliveTimeout := ← c.keepaliveTimeout
    reaperPeriod := ← c.reaperPeriod
    listenerPeriod := ← c.listenerPeriod
    retryInitialBackoff := ← c.retryInitialBackoff }

/-- The configuration that a text writes. -/
def parse (s : String) : Except ConfigError Config := do
  match (Toml.read? s).bind ofToml? with
  | none => .error .malformed
  | some c =>
    let _ ← c.timing
    return c

/-- The configuration in the file at a path, given what the file holds if it can be read. -/
def ofFile (path : String) : (content : Option String) → Except ConfigError Config
  | some content => parse content
  | none => .error (.unreadable path)

/-! ## As JSON -/

open Json (ofText? ofOption)

def toJson (c : Config) : Json.Value := .object [
  ("store", ofOption (fun s : StoreSection => .object [("path", ofText? s.path)]) c.store),
  ("process", ofOption (fun p : ProcessSection => .object [
    ("keepalive-period", ofText? p.keepalivePeriod),
    ("keepalive-timeout", ofText? p.keepaliveTimeout),
    ("reaper-period", ofText? p.reaperPeriod),
    ("resource", ofText? p.resource)]) c.process),
  ("workers", ofOption (fun w : WorkersSection => .object [
    ("listener-period", ofText? w.listenerPeriod),
    ("retry-initial-backoff", ofText? w.retryInitialBackoff)]) c.workers)]

end Config

end Fleet
