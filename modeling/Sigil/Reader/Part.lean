import Sigil.Reader.Basic

/-!
# Reading parts of a form

Each kind of handler starts the machine at the state that its trigger leads to, so what follows
a trigger can be read by itself. `opened` is where the form is reported to start, by default
at the cursor.
-/

namespace Sigil.Reader

def readVector (reg : Registry) (trigger : Trigger) (opened : Option Location) (cur : Cursor) :
    Reading :=
  runAt reg (.starting (.opener .vector trigger (opened.getD cur.loc))) cur

def readMap (reg : Registry) (trigger : Trigger) (opened : Option Location) (cur : Cursor) :
    Reading :=
  runAt reg
    (.starting (.opener (.map false (mapLabel trigger)) trigger (opened.getD cur.loc))) cur

def readDelimited (reg : Registry) (shape : Shape) (closer : List Char) (opened : Option Location)
    (cur : Cursor) : Reading :=
  runAt reg (.inside (.delimited shape closer (opened.getD cur.loc) [])) cur

def readFixedMap (reg : Registry) (opened : Option Location) (cur : Cursor) : Reading :=
  readDelimited reg (.map true fixedMapLabel) ['}'] opened cur

def readRawString (reg : Registry) (cur : Cursor) : Reading :=
  runAt reg (.starting (.rawString cur.loc [] false)) cur

def readPositional (reg : Registry) (cur : Cursor) : Reading := runAt reg (.inside .positional) cur

def readPath (reg : Registry) (trigger : Trigger) (cur : Cursor) : Reading :=
  runAt reg (.starting (.path trigger cur.loc [])) cur

def readRequired (reg : Registry) (cur : Cursor) : Reading :=
  let r := read reg cur
  match r.found with
  | .nothing => { r with found := .failure .endOfText r.rest.loc }
  | _ => r

end Sigil.Reader
