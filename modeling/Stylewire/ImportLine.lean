import Stylewire.Bracket
import Stylewire.Text.Scan
import Stylewire.Text.Word

set_option autoImplicit false

/-! # Imports at the start of a line

Two patterns recognise imports, both at the start of a line only:

* an *import line*, `import`, blanks and all that follows up to the end of the line. Line
  breaks are blanks too, so the line that ends the match may be a later one;
* an *import binding*, `import clause from 'specifier'`, with single or double quotes. The
  clause is as short as possible and holds no quotes; both parts may span lines.

`ensureImport` adds the import of a stylesheet after the last import of a text, unless a
binding of that stylesheet already has the marker in its clause.
-/

namespace Stylewire

/-- The word `import`. -/
def importWord : Text := ['i', 'm', 'p', 'o', 'r', 't']

/-- The word `from`. -/
def fromWord : Text := ['f', 'r', 'o', 'm']

/-- Whether a line starts after the given character. -/
def atLineStart (prev : Option Char) : Bool := prev == none || prev == some '\n'

/-- The text after `import` and the blanks behind it, and the number of these blanks. -/
def afterImport? (t : Text) : Option (Text × Nat) := do
  let r ← stripWord importWord t
  if 0 < r.blanks then some (r.drop r.blanks, r.blanks) else none

/-- The pattern of an import line. -/
def importLine : Recognizer := fun prev t =>
  if atLineStart prev then
    (afterImport? t).map fun (r, n) => 6 + n + (r.takeWhile (· != '\n')).length
  else none

/-! ## Bindings -/

/-- An import binding: the names bound, the module they come from, and the length of the
text that says so. -/
structure ImportBinding where
  clause : Text
  specifier : Text
  length : Nat
deriving Repr, DecidableEq

/-- Whether `c` is a quote. -/
def isQuote (c : Char) : Bool := c == '\'' || c == '"'

/-- Reads `from`, blanks and a quoted specifier that is not empty; gives the specifier and
the length read. -/
def fromClause? (t : Text) : Option (Text × Nat) := do
  let r ← stripWord fromWord t
  match r.drop r.blanks with
  | q :: u =>
      let specifier := u.takeWhile (!isQuote ·)
      if isQuote q && !specifier.isEmpty && specifier.length < u.length then
        some (specifier, 4 + r.blanks + 1 + specifier.length + 1)
      else none
  | [] => none

/-- Whether a word boundary lies before `from` if `prev` is the character before it. -/
def wordBoundary (prev : Option Char) : Bool :=
  match prev with
  | some c => !isWordChar c
  | none => true

/-- Reads the rest of a binding, of which `read` has been read so far, in reverse, and which
starts at the distance `pos` from the start of the binding. The first `from` that stands as
a word of its own and has a specifier ends the clause, together with the blanks before
it. -/
def bindingFrom (read : Text) (pos : Nat) : Text → Option ImportBinding
  | [] => none
  | c :: t =>
      match (fromClause? (c :: t)).filter fun _ => wordBoundary read.head? with
      | some (specifier, n) => some ⟨(read.dropWhile isBlank).reverse, specifier, pos + n⟩
      | none => if isQuote c then none else bindingFrom (c :: read) (pos + 1) t

/-- The binding at the start of a text. -/
def importBinding? (t : Text) : Option ImportBinding := do
  let (r, n) ← afterImport? t
  bindingFrom [] (6 + n) r

/-- The pattern of an import binding. -/
def importBinding : Recognizer := fun prev t =>
  if atLineStart prev then (importBinding? t).map ImportBinding.length else none

/-- The import bindings of a text, in order. -/
def importBindings (t : Text) : List ImportBinding :=
  (importBinding.findAll t).filterMap fun m => importBinding? (t.drop m.start)

/-! ## The import of a stylesheet -/

/-- The statement that imports a module under the marker:
`import * as marker from 'module'`. -/
def importStatement (module marker : Text) : Text :=
  importWord ++ [' ', '*', ' ', 'a', 's', ' '] ++ marker ++ [' '] ++ fromWord ++ [' ', '\''] ++
    module ++ ['\'']

/-- Whether a binding of exactly this module has the marker in its clause. -/
def hasImport (t module marker : Text) : Bool :=
  (importBindings t).any fun b => b.specifier == module && b.clause.containsToken marker

/-- The position where the last import of the text ends. A brace opened on the import line
may close on a later line; the import then ends with that line. -/
def lastImportEnd? (t : Text) : Option Nat := do
  let line ← (importLine.findAll t).getLast?
  let matched := t.slice line.start line.stop
  if '{' ∈ matched then
    let brace := line.start + (matched.takeWhile (· != '{')).length
    match Brackets.all.closing? t brace with
    | some last =>
        if line.stop ≤ last then
          return last + ((t.drop last).takeWhile (· != '\n')).length
        else return line.stop
    | none => return line.stop
  else return line.stop

/-- The text with an import of the module under the marker, or nothing if it has one. -/
def addImport? (t module marker : Text) : Option Text :=
  if hasImport t module marker then none
  else
    let statement := importStatement module marker
    match lastImportEnd? t with
    | none => some (statement ++ ['\n'] ++ t)
    | some i => some (t.take i ++ ['\n'] ++ statement ++ t.drop i)

/-- The text with an import of the module under the marker. -/
def ensureImport (t module marker : Text) : Text := (addImport? t module marker).getD t

end Stylewire
