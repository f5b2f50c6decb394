import Stylewire.EditScript.Basic

set_option autoImplicit false

/-! # A shortest edit script

The script is found by cutting the problem in two. After the lines in common at both ends
are set aside, two searches run towards each other, one from the start and one from the end
of both lists. After `d` rounds each of them knows, for every diagonal (difference of the
positions in the two lists), how far `d` deletions and insertions can lead. Where the two
meet the lists are cut, and the halves are handled in the same way.
-/

namespace Stylewire

/-! ## The two searches -/

/-- How far a search has come, by diagonal: the position in the old list. -/
structure Frontier where
  /-- The place of diagonal zero. -/
  origin : Nat
  reached : Array Nat

namespace Frontier

/-- A frontier with room for the diagonals up to `size` in both directions. -/
def start (size : Nat) : Frontier := ⟨size, Array.replicate (2 * size + 1) 0⟩

/-- The position reached on a diagonal. -/
def get (f : Frontier) (k : Int) : Nat := (f.reached[(f.origin + k).toNat]?).getD 0

/-- The frontier with another position on a diagonal. -/
def set (f : Frontier) (k : Int) (x : Nat) : Frontier :=
  { f with reached := f.reached.setIfInBounds (f.origin + k).toNat x }

/-- The position where round `d` starts on diagonal `k`: one insertion or one deletion after
the round before, whichever leads further. -/
def next (f : Frontier) (d : Nat) (k : Int) : Nat :=
  if k = -d ∨ (k ≠ d ∧ f.get (k - 1) < f.get (k + 1)) then f.get (k + 1) else f.get (k - 1) + 1

end Frontier

/-- The diagonals of round `d`, the highest first. -/
def diagonals (d : Nat) : List Int := (List.range (d + 1)).map fun i : Nat => (d : Int) - 2 * i

/-- The number of lines two lists have in common behind the positions `x` and `y`. -/
def commonBehind (old new : List Text) (x : Nat) (y : Int) : Nat :=
  if 0 ≤ y then commonStart (old.drop x) (new.drop y.toNat) else 0

/-- One round of the search from the start, on diagonal `k`. Throws the place of the cut if
the other search has been met. -/
def forwardRound (old new : List Text) (delta : Int) (d : Nat) (backward : Frontier)
    (f : Frontier) (k : Int) : Except (Nat × Nat) Frontier :=
  let x := f.next d k
  let y := (x : Int) - k
  let x' := x + commonBehind old new x y
  if delta % 2 = 1 ∧ (k - delta).natAbs + 1 ≤ d ∧
      old.length ≤ x' + backward.get (delta - k) then
    .error (x, y.toNat)
  else .ok (f.set k x')

/-- One round of the search from the end, on diagonal `k`; the lists come in reverse. -/
def backwardRound (old new : List Text) (delta : Int) (d : Nat) (forward : Frontier)
    (f : Frontier) (k : Int) : Except (Nat × Nat) Frontier :=
  let x := f.next d k
  let y := (x : Int) - k
  let run := commonBehind old new x y
  if delta % 2 = 0 ∧ (k - delta).natAbs ≤ d ∧
      old.length ≤ x + run + forward.get (delta - k) then
    .error (old.length - (x + run), new.length - (y.toNat + run))
  else .ok (f.set k (x + run))

/-- The place where two lists are cut. -/
def cut? (old new : List Text) : Option (Nat × Nat) :=
  let rounds := (old.length + new.length + 1) / 2 + 1
  let delta := (old.length : Int) - new.length
  let searches := (List.range rounds).foldlM (fun (forward, backward) d => do
    let forward ← (diagonals d).foldlM (forwardRound old new delta d backward) forward
    let backward ←
      (diagonals d).foldlM (backwardRound old.reverse new.reverse delta d forward) backward
    return (forward, backward)) (Frontier.start (rounds + 1), Frontier.start (rounds + 1))
  match searches with
  | .error place => some place
  | .ok _ => none

/-! ## Cutting -/

/-- A shortest edit script. The fuel bounds the number of cuts within one another; each cut
leaves shorter lists, so their lengths together are fuel enough. -/
def shortestFrom : (fuel : Nat) → (old new : List Text) → EditScript
  | 0, old, new => stretch .delete old ++ stretch .insert new
  | fuel + 1, old, new =>
      let start := commonStart old new
      let old' := old.drop start
      let new' := new.drop start
      let ending := commonEnd old' new'
      let oldCore := old'.take (old'.length - ending)
      let newCore := new'.take (new'.length - ending)
      let middle :=
        if oldCore.isEmpty || newCore.isEmpty then
          stretch .delete oldCore ++ stretch .insert newCore
        else match cut? oldCore newCore with
          | some (x, y) =>
              shortestFrom fuel (oldCore.take x) (newCore.take y) ++
                shortestFrom fuel (oldCore.drop x) (newCore.drop y)
          | none => stretch .delete oldCore ++ stretch .insert newCore
      stretch .keep (old.take start) ++ middle ++
        stretch .keep (old'.drop (old'.length - ending))

/-- A shortest edit script. -/
def shortest (old new : List Text) : EditScript :=
  shortestFrom (old.length + new.length + 1) old new

end Stylewire
