import Stylewire.SourceFilter
import Stylewire.Stylesheet.Registry
import Stylewire.Stylesheet.Sibling
import Stylewire.Wiring

set_option autoImplicit false

/-! # Build sessions

In a build session modules come one after the other. A module is wired if it is *eligible*:
it is a script outside of installed packages, it calls the function, its path passes the
source filter, and it has a stylesheet. The session remembers the stylesheets of all
eligible modules, whether their text changed or not.
-/

namespace Stylewire

/-- The extensions of scripts. -/
def scriptExtensions : List Text := ["ts".toList, "js".toList, "tsx".toList, "jsx".toList]

/-- Whether the path is that of a script. -/
def isScript (p : Path) : Bool :=
  match Path.extension? p with
  | some e => scriptExtensions.contains e
  | none => false

/-- Whether the path may be that of a module to wire: a script with no mention of
`node_modules`. -/
def isCandidate (id : Path) : Bool := isScript id && !Text.contains "node_modules".toList id

/-- What a session wires, and how. -/
structure Rules where
  autoStyles : Bool
  sources : SourceFilter
  wiring : Wiring

/-- The rules for the given patterns and names. -/
def Rules.ofNames (sources : List Text) (autoStyles : Bool) (directive marker : Text) :
    Except Error Rules := do
  let sources ← SourceFilter.ofPatterns sources
  let wiring ← Wiring.ofNames directive marker
  return { autoStyles, sources, wiring }

/-- A module that has been wired to its stylesheet. -/
structure WiredModule where
  outcome : Outcome
  stylesheet : Stylesheet
deriving Repr, DecidableEq

namespace Rules

/-- The stylesheet of an eligible module, found by `resolve`. -/
def eligible? (r : Rules) (resolve : Path → Option Stylesheet) (code : Text) (id : Path) :
    Option Stylesheet :=
  if r.autoStyles && isCandidate id && r.wiring.hasCall code && r.sources.isMatch id then
    resolve id
  else none

theorem eligible?_eq_some_iff {rules : Rules} {resolve : Path → Option Stylesheet} {code : Text}
    {id : Path} {s : Stylesheet} :
    rules.eligible? resolve code id = some s ↔
      (rules.autoStyles = true ∧ isCandidate id = true ∧ rules.wiring.hasCall code = true ∧
        rules.sources.isMatch id = true) ∧ resolve id = some s := by
  unfold eligible?
  rw [Option.ite_none_right_eq_some]
  simp only [Bool.and_eq_true, and_assoc]

/-- The module wired to its stylesheet, if it is eligible. -/
def wire? (r : Rules) (resolve : Path → Option Stylesheet) (code : Text) (id : Path) :
    Option WiredModule :=
  (r.eligible? resolve code id).map fun s => ⟨r.wiring.wire code s.specifier, s⟩

end Rules

/-- A build session: its rules and the stylesheets met so far. -/
structure Session where
  rules : Rules
  styles : Registry := {}

namespace Session

/-- Forgets all stylesheets. -/
def restart (s : Session) : Session := { s with styles := {} }

/-- Handles a module: wires it if it is eligible, and remembers its stylesheet. -/
def handle (s : Session) (resolve : Path → Option Stylesheet) (code : Text) (id : Path) :
    Session × Option WiredModule :=
  match s.rules.wire? resolve code id with
  | some m => ({ s with styles := s.styles.add m.stylesheet.path }, some m)
  | none => (s, none)

/-- Handles a module, and gives the result only if the text changed. -/
def handleChanged (s : Session) (resolve : Path → Option Stylesheet) (code : Text)
    (id : Path) : Session × Option WiredModule :=
  let (s', m) := s.handle resolve code id
  (s', m.filter fun m => m.outcome.isChanged)

end Session

end Stylewire
