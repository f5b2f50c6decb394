import Stylewire.CallSite
import Stylewire.ImportLine
import Stylewire.OptionsObject

set_option autoImplicit false

/-! # Wiring a module to its stylesheet

A wiring names the function whose calls are marked and the marker. Wiring a source text to a
stylesheet module makes sure that the text imports the module under the marker, and then
marks every call of the function. The calls are handled from the last to the first: each
edit lies behind its own call site, so the positions of the calls still to come stay valid.
-/

namespace Stylewire

/-- The function whose calls are marked, and the marker. -/
structure Wiring where
  directive : Identifier := .directive
  marker : Identifier := .styles

/-- Why a call site is left as it is. -/
inductive SkipReason
  /-- Its argument list is never closed. -/
  | malformed
  /-- It has the marker already. -/
  | marked
deriving Repr, DecidableEq

/-- A call site that is left as it is. -/
structure SkippedSite where
  /-- The byte offset of the call, with the import in place and before any call is edited. -/
  offset : Nat
  reason : SkipReason
deriving Repr, DecidableEq

/-- What wiring a text leads to. -/
structure Outcome where
  /-- The new text. -/
  code : Text
  /-- Whether the import was added. -/
  importAdded : Bool
  /-- The number of calls that received the marker. -/
  injected : Nat
  /-- The calls left as they are, in ascending order. -/
  skipped : List SkippedSite
deriving Repr, DecidableEq

namespace Outcome

/-- Whether anything was added. -/
def isChanged (o : Outcome) : Bool := o.importAdded || 0 < o.injected

/-- The new text, if anything was added. -/
def changed? (o : Outcome) : Option Text := if o.isChanged then some o.code else none

/-- The number of calls whose argument list is never closed. -/
def malformedCount (o : Outcome) : Nat := o.skipped.countP fun s => s.reason == .malformed

/-- Whether some argument list is never closed. -/
def hasMalformed (o : Outcome) : Bool := o.skipped.any fun s => s.reason == .malformed

end Outcome

namespace Wiring

/-- The wiring of two names. The marker is checked first. -/
def ofNames (directive marker : Text) : Except Error Wiring := do
  let marker ← Identifier.ofText .marker marker
  let directive ← Identifier.ofText .directive directive
  return { directive, marker }

/-- Whether the text has a call to mark. -/
def hasCall (w : Wiring) (t : Text) : Bool := Stylewire.hasCall w.directive t

/-- What is known after some of the call sites: the text so far, the number of calls marked
and the positions left. -/
structure Progress where
  code : Text
  injected : Nat
  skipped : List (Nat × SkipReason)

/-- Handles the call site at a position. -/
def visit (w : Wiring) (site : Nat) (p : Progress) : Progress :=
  match ArgumentList.read? p.code site with
  | none => { p with skipped := (site, .malformed) :: p.skipped }
  | some a =>
      if isMarked p.code a w.marker.text then
        { p with skipped := (site, .marked) :: p.skipped }
      else
        { p with
          code := (injection p.code a w.marker.text).apply p.code
          injected := p.injected + 1 }

/-- Marks all calls of the text, the last one first. -/
def markCalls (w : Wiring) (t : Text) : Progress :=
  (callSites w.directive t).foldr w.visit ⟨t, 0, []⟩

/-- Wires a source text to a stylesheet module. -/
def wire (w : Wiring) (source module : Text) : Outcome :=
  let added := addImport? source module w.marker.text
  let t := added.getD source
  let p := w.markCalls t
  { code := p.code
    importAdded := added.isSome
    injected := p.injected
    skipped := p.skipped.map fun (i, reason) => ⟨t.byteOffset i, reason⟩ }

end Wiring

end Stylewire
