import Fleet.Text.Numeral

/-!
# Options of the command line

The daemon has one command, `standalone`, with a configuration file, a directory for the store and a
number of workers, each of which may be left out. The last one of several values counts.
-/

set_option autoImplicit false

namespace Fleet

structure Options where
  config : Option String := none
  dataDir : String := "/var/lib/jobgrid"
  workers : Nat := 1
deriving DecidableEq, Repr

namespace Options

/-- Reads the options behind the command. -/
def readFrom (o : Options) : List String → Option Options
  | [] => some o
  | "--config" :: path :: rest => readFrom { o with config := some path } rest
  | "--data-dir" :: dir :: rest => readFrom { o with dataDir := dir } rest
  | "--workers" :: n :: rest =>
    match Text.natural? (2 ^ 64 - 1) n.toList with
    | some workers => readFrom { o with workers } rest
    | none => none
  | _ => none

/-- Reads a command line. -/
def read : List String → Option Options
  | "standalone" :: rest => readFrom {} rest
  | _ => none

def usage : String := "usage: standalone [--config FILE] [--data-dir DIR] [--workers N]"

end Options

end Fleet
