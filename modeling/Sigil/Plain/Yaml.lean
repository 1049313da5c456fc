import Sigil.Location
import Sigil.Plain
import Sigil.Text.DecimalDigit
import Sigil.Text.Lines

/-!
# Block documents

Readtable files are written in the block notation of YAML: mappings and sequences are laid out
by indentation, and their leaves are plain or quoted scalars on one line. Every line is first
cut into pieces, each with the place where it stands; `parse` then builds the data of the
pieces. Flow collections with elements, anchors, tags and scalars of several lines are no part
of the notation and are refused at their place.
-/

namespace Sigil.Yaml

/-! ## Scalars -/

def hexValue? (cs : List Char) : Option Nat :=
  cs.foldlM (fun n c =>
    let d := c.toNat
    if Text.isAsciiDigit c then some (16 * n + (d - 0x30))
    else if 0x61 ≤ d ∧ d ≤ 0x66 then some (16 * n + (d - 0x57))
    else if 0x41 ≤ d ∧ d ≤ 0x46 then some (16 * n + (d - 0x37))
    else none) 0

def escape? (c : Char) : Option Char :=
  match c with
  | 'n' => some '\n'
  | 't' => some '\t'
  | 'r' => some '\r'
  | '0' => some (Char.ofNat 0)
  | '"' | '\\' | '/' | ' ' => some c
  | _ => none

/-- The contents of a text in double quotes and what follows it; `text` holds, last character
first, what was read. -/
def doubleQuoted? (text : List Char) : List Char → Option (List Char × List Char)
  | '"' :: cs => some (text.reverse, cs)
  | '\\' :: 'x' :: a :: b :: cs =>
    (hexValue? [a, b]).bind fun n => doubleQuoted? (Char.ofNat n :: text) cs
  | '\\' :: 'u' :: a :: b :: c :: d :: cs =>
    (hexValue? [a, b, c, d]).bind fun n => doubleQuoted? (Char.ofNat n :: text) cs
  | '\\' :: c :: cs => (escape? c).bind fun e => doubleQuoted? (e :: text) cs
  | c :: cs => doubleQuoted? (c :: text) cs
  | [] => none

/-- The contents of a text in single quotes, in which a quote is written twice, and what
follows it. -/
def singleQuoted? (text : List Char) : List Char → Option (List Char × List Char)
  | '\'' :: '\'' :: cs => singleQuoted? ('\'' :: text) cs
  | '\'' :: cs => some (text.reverse, cs)
  | c :: cs => singleQuoted? (c :: text) cs
  | [] => none

/-- A scalar without quotes and what follows it. It ends before a colon that ends a key and
before a comment. -/
def bare (text : List Char) : List Char → List Char × List Char
  | [] => (text.reverse, [])
  | ':' :: cs =>
    if cs.isEmpty || cs.head? == some ' ' then (text.reverse, ':' :: cs)
    else bare (':' :: text) cs
  | ' ' :: '#' :: _ => (text.reverse, [])
  | c :: cs => bare (c :: text) cs

/-- The characters with which no scalar without quotes starts. -/
def indicators : List Char := "[]\x7b\x7d&*!|>%@,".toList ++ [Char.ofNat 0x60]

def value? (cs : List Char) : Option Plain :=
  let s := String.ofList cs
  let digits := if cs.head? = some '-' ∨ cs.head? = some '+' then cs.tail else cs
  if ["", "~", "null", "Null", "NULL"].contains s then some .null
  else if ["true", "True", "TRUE", "yes", "Yes", "YES", "on", "On", "ON"].contains s then
    some (.bool true)
  else if ["false", "False", "FALSE", "no", "No", "NO", "off", "Off", "OFF"].contains s then
    some (.bool false)
  else if s = "[]" then some (.list [])
  else if s = "\x7b\x7d" then some (.mapping [])
  else if cs.head?.any indicators.contains then none
  else if !digits.isEmpty && digits.all Text.isAsciiDigit then
    let n : Int := Text.digitsValue digits
    some (.int (if cs.head? = some '-' then -n else n))
  else some (.text s)

/-! ## Pieces of lines -/

inductive Token where
  /-- An element of a sequence follows. -/
  | dash
  | key (name : String)
  | scalar (value : Plain)

structure Piece where
  place : Location
  token : Token

def isSpace (c : Char) : Bool := c == ' '

def scalar? (cs : List Char) : Option (String × Option Plain × List Char) :=
  match cs with
  | '"' :: cs => (doubleQuoted? [] cs).map fun (t, rest) =>
    (String.ofList t, some (.text (String.ofList t)), rest)
  | '\'' :: cs => (singleQuoted? [] cs).map fun (t, rest) =>
    (String.ofList t, some (.text (String.ofList t)), rest)
  | cs =>
    let (t, rest) := bare [] cs
    let t := (t.reverse.dropWhile isSpace).reverse
    some (String.ofList t, value? t, rest)

/-- Cut the rest of a line into at most `most` pieces. The place of the first unreadable piece
is the error. -/
def cut (most : Nat) (place : Location) (cs : List Char) : Except Location (List Piece) :=
  match most with
  | 0 => .error place
  | most + 1 =>
    let blanks := (cs.takeWhile isSpace).length
    let here : Location := ⟨place.line, place.col + blanks⟩
    match cs.drop blanks with
    | [] | '#' :: _ => .ok []
    | ['-'] => .ok [⟨here, .dash⟩]
    | '-' :: ' ' :: rest => do
      return ⟨here, .dash⟩ :: (← cut most ⟨here.line, here.col + 1⟩ (' ' :: rest))
    | text => match scalar? text with
      | none => .error here
      | some (t, value, rest) =>
        let after : Location := ⟨here.line, here.col + (text.length - rest.length)⟩
        match rest.dropWhile isSpace, value with
        | ':' :: rest, some _ => do
          return ⟨here, .key t⟩ :: (← cut most ⟨after.line, after.col + 1⟩ rest)
        | [], some v | '#' :: _, some v => .ok [⟨here, .scalar v⟩]
        | _, _ => .error here

def cutAll (line : Nat) : List (List Char) → Except Location (List Piece)
  | [] => .ok []
  | cs :: rest => do
    let ps ← if cs = ['-', '-', '-'] then pure [] else cut (cs.length + 1) ⟨line, 1⟩ cs
    return ps ++ (← cutAll (line + 1) rest)

/-! ## Data -/

/-- Add an entry before the others, unless its key is among them: the last entry of a key
counts. -/
def addEntry (k : String) (v : Plain) (entries : List (String × Plain)) :
    List (String × Plain) :=
  if entries.any (·.1 == k) then entries else (k, v) :: entries

mutual

/-- The data that stands in column `least` or further right, and the pieces after it. -/
def dataFrom (depth least : Nat) (pieces : List Piece) : Plain × List Piece :=
  match depth, pieces with
  | 0, ps => (.null, ps)
  | _, [] => (.null, [])
  | depth + 1, p :: ps =>
    if p.place.col < least then (.null, p :: ps)
    else match p.token with
      | .scalar v => (v, ps)
      | .dash =>
        let (items, rest) := itemsFrom depth p.place.col (p :: ps)
        (.list items, rest)
      | .key _ =>
        let (entries, rest) := entriesFrom depth p.place.col (p :: ps)
        (.mapping entries, rest)

/-- The elements of a sequence whose dashes stand in column `col`. -/
def itemsFrom (depth col : Nat) (pieces : List Piece) : List Plain × List Piece :=
  match depth, pieces with
  | depth + 1, ⟨place, .dash⟩ :: ps =>
    if place.col = col then
      let (item, rest) := dataFrom depth (col + 1) ps
      let (items, rest) := itemsFrom depth col rest
      (item :: items, rest)
    else ([], ⟨place, .dash⟩ :: ps)
  | _, ps => ([], ps)

/-- The entries of a mapping whose keys stand in column `col`. A sequence may stand in the
column of its key. -/
def entriesFrom (depth col : Nat) (pieces : List Piece) : List (String × Plain) × List Piece :=
  match depth, pieces with
  | depth + 1, ⟨place, .key k⟩ :: ps =>
    if place.col = col then
      let (v, rest) := match ps with
        | ⟨_, .dash⟩ :: _ => dataFrom depth col ps
        | _ => dataFrom depth (col + 1) ps
      let (entries, rest) := entriesFrom depth col rest
      (addEntry k v entries, rest)
    else ([], ⟨place, .key k⟩ :: ps)
  | _, ps => ([], ps)

end

/-- The data of a document, or the place where it is not understood. -/
def parse (text : String) : Except Location Plain := do
  let lines := (Text.unifyNewlines text.toList).splitOn '\n'
  let pieces ← cutAll 1 lines
  match dataFrom (2 * pieces.length + 1) 1 pieces with
  | (v, []) => return v
  | (_, p :: _) => .error p.place

end Sigil.Yaml
