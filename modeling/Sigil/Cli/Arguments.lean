/-!
# Command line arguments

A readtable may be named by an option, and a script by a bare argument; of several the last
one counts. Any other argument that starts with a hyphen is refused.
-/

namespace Sigil.Cli

structure Arguments where
  readtable : Option String
  script : Option String
  deriving DecidableEq

namespace Arguments

def usage : String := "usage: readmac.py [--readtable TABLE.yaml] [SCRIPT]"

/-- Take arguments from left to right; nothing comes of a command line that is refused. -/
def parseFrom (a : Arguments) : List String → Option Arguments
  | [] => some a
  | ["--readtable"] => none
  | "--readtable" :: path :: rest => parseFrom { a with readtable := some path } rest
  | arg :: rest =>
    if arg.toList.head? = some '-' then none else parseFrom { a with script := some arg } rest

def parse? (argv : List String) : Option Arguments := parseFrom ⟨none, none⟩ argv

def given (name : Option String) : Option String :=
  match name with
  | some s => if s.isEmpty then none else some s
  | none => none

end Arguments

end Sigil.Cli
