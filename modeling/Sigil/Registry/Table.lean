import Sigil.Plain.Yaml
import Sigil.Registry.Readtable

/-!
# Readtable files

A readtable comes from a file named by a path, and a message about it may name that path.
`Table.ofDocument` takes the rows from the data of the file, `Table.ofText` from its text.
-/

namespace Sigil

/-- Why the readtable at a path cannot be used. -/
inductive TableFault where
  | missingFile (path : String)
  | notUnderstood (path : String) (place : Location)
  | malformed (path : String) (f : ReadtableFault)
  | refused (f : RegistryFault)

def TableFault.message : TableFault → String
  | missingFile path => "[Errno 2] No such file or directory: " ++ Text.quoted path
  | notUnderstood path place =>
    path ++ ": not understood at line " ++ toString place.line ++ ", column "
      ++ toString place.col
  | malformed path f => f.message path
  | refused f => f.message

namespace Table

def ofDocument (path : String) (document : Plain) : Except TableFault (List Row) :=
  (Readtable.ofPlain document).mapError (.malformed path)

def ofText (path text : String) : Except TableFault (List Row) :=
  match Yaml.parse text with
  | .ok document => ofDocument path document
  | .error place => .error (.notUnderstood path place)

end Table

end Sigil
