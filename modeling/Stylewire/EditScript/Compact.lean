import Stylewire.EditScript.Basic

set_option autoImplicit false

/-! # Compact edit scripts

A script can often be written in several ways: an inserted stretch that starts like the
lines behind it, or ends like the lines before it, can be moved. Moving every insertion first
up and then down as far as it goes brings stretches together that can be joined. At last the
deletions between two kept stretches are put before the insertions.
-/

namespace Stylewire

/-- A script with one of its stretches in focus. The stretches before it come in reverse. -/
structure Focus where
  before : List Edit
  here : Edit
  after : List Edit

/-- Puts kept lines before a list of stretches. -/
def keepBefore (lines : List Text) : List Edit → List Edit
  | .keep ls :: es => .keep (lines ++ ls) :: es
  | es => .keep lines :: es

/-- Puts kept lines behind a list of stretches, which comes in reverse. -/
def keepBehind (lines : List Text) : List Edit → List Edit
  | .keep ls :: es => .keep (ls ++ lines) :: es
  | es => .keep lines :: es

/-- Kept lines, if there are any, and further stretches. -/
def keepSome (lines : List Text) (es : List Edit) : List Edit := stretch .keep lines ++ es

theorem weight_keepSome_take_lt (ls : List Text) (es : List Edit) {n : Nat} (hn : 0 < n)
    (hl : n ≤ ls.length) :
    EditScript.weight (keepSome (ls.take (ls.length - n)) es) <
      EditScript.weight (.keep ls :: es) := by
  unfold keepSome stretch
  split
  · rw [List.nil_append]
    simp only [EditScript.weight, Edit.weight]
    omega
  · rw [List.singleton_append]
    simp only [EditScript.weight, Edit.weight, Edit.lines,
      List.length_take]
    omega

theorem weight_keepSome_drop_lt (ls : List Text) (es : List Edit) {n : Nat} (hn : 0 < n)
    (hl : n ≤ ls.length) :
    EditScript.weight (keepSome (ls.drop n) es) < EditScript.weight (.keep ls :: es) := by
  unfold keepSome stretch
  split
  · rw [List.nil_append]
    simp only [EditScript.weight, Edit.weight]
    omega
  · rw [List.singleton_append]
    simp only [EditScript.weight, Edit.weight, Edit.lines,
      List.length_drop]
    omega

theorem weight_lt_cons (e : Edit) (es : List Edit) :
    EditScript.weight es < EditScript.weight (e :: es) := by
  simp only [EditScript.weight, Edit.weight]
  omega

/-! ## Moving a stretch -/

/-- Moves an insertion or deletion up: over lines that it ends with, over stretches of the
other kind, and into stretches of its own kind. -/
def moveUp (before : List Edit) (here : Edit) (after : List Edit) : Focus :=
  match here, before with
  | .insert ls, .keep ks :: rest =>
      let n := commonEnd ks ls
      if h : 0 < n then
        have := weight_keepSome_take_lt ks rest h (commonEnd_le_left ks ls)
        let moved := ks.drop (ks.length - n)
        moveUp (keepSome (ks.take (ks.length - n)) rest)
          (.insert (moved ++ ls.take (ls.length - n))) (keepBefore moved after)
      else if ks.isEmpty then
        have := weight_lt_cons (.keep ks) rest
        moveUp rest here after
      else ⟨before, here, after⟩
  | .delete ls, .keep ks :: rest =>
      if ks.isEmpty then
        have := weight_lt_cons (.keep ks) rest
        moveUp rest (.delete ls) after
      else ⟨before, here, after⟩
  | .insert ls, .delete ds :: rest =>
      have := weight_lt_cons (.delete ds) rest
      moveUp rest (.insert ls) (.delete ds :: after)
  | .delete ls, .insert is :: rest =>
      have := weight_lt_cons (.insert is) rest
      moveUp rest (.delete ls) (.insert is :: after)
  | .insert ls, .insert is :: rest =>
      have := weight_lt_cons (.insert is) rest
      moveUp rest (.insert (is ++ ls)) after
  | .delete ls, .delete ds :: rest =>
      have := weight_lt_cons (.delete ds) rest
      moveUp rest (.delete (ds ++ ls)) after
  | _, _ => ⟨before, here, after⟩
termination_by EditScript.weight before

/-- Moves an insertion or deletion down, in the same way. -/
def moveDown (before : List Edit) (here : Edit) (after : List Edit) : Focus :=
  match here, after with
  | .insert ls, .keep ks :: rest =>
      let n := commonStart ks ls
      if h : 0 < n then
        have := weight_keepSome_drop_lt ks rest h (commonStart_le_left ks ls)
        let moved := ks.take n
        moveDown (keepBehind moved before) (.insert (ls.drop n ++ moved))
          (keepSome (ks.drop n) rest)
      else if ks.isEmpty then
        have := weight_lt_cons (.keep ks) rest
        moveDown before here rest
      else ⟨before, here, after⟩
  | .delete ls, .keep ks :: rest =>
      if ks.isEmpty then
        have := weight_lt_cons (.keep ks) rest
        moveDown before (.delete ls) rest
      else ⟨before, here, after⟩
  | .insert ls, .delete ds :: rest =>
      have := weight_lt_cons (.delete ds) rest
      moveDown (.delete ds :: before) (.insert ls) rest
  | .delete ls, .insert is :: rest =>
      have := weight_lt_cons (.insert is) rest
      moveDown (.insert is :: before) (.delete ls) rest
  | .insert ls, .insert is :: rest =>
      have := weight_lt_cons (.insert is) rest
      moveDown before (.insert (ls ++ is)) rest
  | .delete ls, .delete ds :: rest =>
      have := weight_lt_cons (.delete ds) rest
      moveDown before (.delete (ls ++ ds)) rest
  | _, _ => ⟨before, here, after⟩
termination_by EditScript.weight after

/-! ## Compacting a script -/

/-- Moves the chosen stretches up and down, one after the other. A stretch that has moved up
leaves others behind it, so the fuel is more than the number of stretches. -/
def settle (chosen : Edit → Bool) : (fuel : Nat) → (before after : List Edit) → EditScript
  | 0, before, after => before.reverse ++ after
  | _ + 1, before, [] => before.reverse
  | fuel + 1, before, e :: after =>
      if chosen e then
        let up := moveUp before e after
        let down := moveDown up.before up.here up.after
        settle chosen fuel (down.here :: down.before) down.after
      else settle chosen fuel (e :: before) after

/-- Puts the deletions between two kept stretches before the insertions. `deleted` and
`inserted` are the lines deleted and inserted since the last kept stretch. -/
def deletionsFirst (deleted inserted : List Text) : EditScript → EditScript
  | [] => stretch .delete deleted ++ stretch .insert inserted
  | .keep ls :: es =>
      stretch .delete deleted ++ stretch .insert inserted ++ .keep ls :: deletionsFirst [] [] es
  | .delete ls :: es => deletionsFirst (deleted ++ ls) inserted es
  | .insert ls :: es => deletionsFirst deleted (inserted ++ ls) es

/-- The script with deletions and then insertions moved together. -/
def compact (s : EditScript) : EditScript :=
  let fuel := (s.weight + 1) * (s.weight + 1)
  let isDelete : Edit → Bool
    | .delete _ => true
    | _ => false
  let isInsert : Edit → Bool
    | .insert _ => true
    | _ => false
  deletionsFirst [] [] (settle isInsert fuel [] (settle isDelete fuel [] s))

end Stylewire
