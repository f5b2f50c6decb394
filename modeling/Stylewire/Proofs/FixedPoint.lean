import Mathlib.Data.List.Forall2
import Stylewire.Proofs.Piecewise

set_option autoImplicit false

/-! # A second run changes nothing

Marking the calls of a text leaves a text with the same calls in the same order. A call that was
malformed still is, and every other call is marked (`verdicts_markFrom`), provided that every
options object ends with a brace: an object that a bracket of another kind closes may have no
place for the marker. So there is nothing left to do for a second run.

A call is judged by its argument list (`verdicts_eq`), and an edit of an argument list leaves the
lists of the calls inside as they are, so the verdicts on them stay the same
(`verdicts_injected`).
-/

namespace Stylewire

open Brackets

namespace Wiring

/-! ## The verdicts on the calls of a text -/

/-- The verdicts on the calls of a text, in the order of the text. The character before the text
is `prev`. -/
def verdicts (w : Wiring) (prev : Option Char) (t : Text) : List (Option SkipReason) :=
  (sitesFrom w.directive 0 prev t).map (w.verdict t)

variable {w : Wiring}

theorem verdicts_callSites (t : Text) :
    (callSites w.directive t).map (w.verdict t) = w.verdicts none t := by
  rw [callSites_eq, verdicts]

/-- The verdict on a call by its list. -/
def judge (w : Wiring) : Option Text → Option SkipReason
  | none => some .malformed
  | some x => w.verdict ('(' :: (x ++ [')'])) 0

theorem verdict_eq_judge (p s : Text) :
    w.verdict (p ++ s) p.length = w.judge (listAt (p ++ s) p.length) := by
  obtain ⟨v, s', hv⟩ := w.exists_handled s
  rw [hv.verdict_eq p]
  -- A call with the same list and nothing around it is judged alike.
  have halone : ∀ {h x r : Text} {c : Char}, Calls s h x c r →
      Calls ('(' :: (x ++ [')'])) [] x ')' [] :=
    fun hs => ⟨rfl, List.not_mem_nil, hs.balanced, by decide⟩
  cases hv with
  | malformed hno => rw [listAt_eq_none p hno, judge]
  | marked hs hm =>
      rw [listAt_of_calls p hs, judge]
      exact ((Handled.marked (halone hs) hm).verdict_eq []).symm
  | injected hs hm =>
      rw [listAt_of_calls p hs, judge]
      exact ((Handled.injected (halone hs) hm).verdict_eq []).symm

/-- The verdicts on the calls of a text are those on their lists. -/
theorem verdicts_eq (prev : Option Char) (t : Text) :
    w.verdicts prev t = (lists w.directive prev t).map w.judge := by
  rw [verdicts, lists, List.map_map]
  refine List.map_congr_left fun i hi => ?_
  obtain ⟨u, v, rfl, rfl, -⟩ := mem_sitesFrom.1 hi
  rw [Nat.zero_add]
  exact verdict_eq_judge u v

theorem verdicts_other {prev : Option Char} {c : Char} {t : Text}
    (hno : isCall w.directive prev (c :: t) = false) :
    w.verdicts prev (c :: t) = w.verdicts (some c) t := by
  rw [verdicts_eq, verdicts_eq, lists_other hno]

theorem verdicts_call {prev : Option Char} {h : Text} (hclear : isClear prev = true)
    (hh : IsHead w.directive h) (k : Text) :
    w.verdicts prev (h ++ '(' :: k) =
      w.verdict (h ++ '(' :: k) 0 :: w.verdicts (some '(') k := by
  have hfirst : w.verdict (h ++ '(' :: k) 0 = w.judge (listAt (h ++ '(' :: k) 0) :=
    verdict_eq_judge [] (h ++ '(' :: k)
  rw [verdicts_eq, verdicts_eq, lists_call hclear hh, List.map_cons, hfirst]

theorem verdicts_list {x : Text} {c : Char} (hx : all.Balanced x) (hc : all.isClosing c = true)
    (prev : Option Char) (r : Text) :
    w.verdicts prev (x ++ c :: r) = w.verdicts prev x ++ w.verdicts (some c) r := by
  rw [verdicts_eq, verdicts_eq, verdicts_eq, (piecewise_lists w.directive).list hx hc,
    List.nil_append, List.map_append]

/-- **Marking a call keeps the verdicts on the calls inside its list.** -/
theorem verdicts_injected {x x' : Text} (h : Injected w.marker.text x x')
    (hx : all.Balanced x)
    (hend : ∀ y b c z, ObjectArgument x y b c z → separators 0 y = 2 → c = '}')
    (prev : Option Char) : w.verdicts prev x' = w.verdicts prev x := by
  rw [verdicts_eq, verdicts_eq, lists_injected h hx hend]

/-! ## The text after a run -/

/-- The verdict on a call once the calls have been marked. -/
def settled : Option SkipReason → Option SkipReason
  | some .malformed => some .malformed
  | _ => some .marked

/-- Every options object of a call in the text ends with a brace. -/
def Braced (w : Wiring) (prev : Option Char) (t : Text) : Prop :=
  ∀ u v, t = u ++ v → isCall w.directive (Text.lastFrom prev u) v = true →
    ∀ h x c r, Calls v h x c r → ∀ y b e z, ObjectArgument x y b e z →
      separators 0 y = 2 → e = '}'

theorem Braced.suffix {prev : Option Char} {a t : Text} (h : w.Braced prev (a ++ t)) :
    w.Braced (Text.lastFrom prev a) t := by
  intro u v ht hcall
  refine h (a ++ u) v (by rw [ht, List.append_assoc]) ?_
  rw [Text.lastFrom_append]
  exact hcall

theorem Braced.start {prev : Option Char} {a t : Text} (h : w.Braced prev (a ++ t))
    (ht : Apart t) : w.Braced prev a := by
  intro u v ha hcall g x c r hs
  have hv : v ≠ [] := by
    rintro rfl
    rw [isCall_nil] at hcall
    cases hcall
  refine h u (v ++ t) (by rw [ha, List.append_assoc]) ?_ g x c (r ++ t) (hs.append t)
  rw [isCall_append ht hv]
  exact hcall

/-- **The verdicts after a run.** The calls are the same, malformed ones are still malformed, and
all others are marked. -/
theorem verdicts_markFrom (prev : Option Char) (s : Text) (hs : w.Braced prev s) :
    w.verdicts prev (w.markFrom prev s) = (w.verdicts prev s).map settled := by
  -- From call to call. The text in the list of a call that is marked is followed on its own,
  -- since the marker is put in only when the calls inside have been handled.
  induction prev, s using call_strong_induction w.directive with
  | nil prev => rfl
  | other prev c t hno ih =>
      have hagree := agree_markFrom (w := w) prev (c :: t)
      have hcall := hagree.isCall_eq w.directive prev
      rw [hno, markFrom, hno] at hcall
      have hrest := ih (hs.suffix (a := [c]))
      rw [verdicts_other hno, ← hrest, markFrom, hno]
      exact verdicts_other hcall.symm
  | call prev h k hclear hh ih =>
      have htext : h ++ '(' :: k = h ++ ['('] ++ k := by simp
      have hk : w.Braced (some '(') k := by
        rw [htext] at hs
        have := hs.suffix
        rwa [Text.lastFrom_concat] at this
      obtain ⟨v, s', hv⟩ := w.exists_handled (h ++ '(' :: k)
      have hverdict : w.verdict (h ++ '(' :: k) 0 = v := hv.verdict_eq []
      rw [verdicts_call hclear hh, List.map_cons, hverdict]
      cases v with
      | some reason =>
          have hskip := markFrom_skipped (w := w) hclear hh (k := k) (by rw [hverdict]; simp)
          rw [hskip, verdicts_call hclear hh,
            ← verdict_agree hh.not_mem (agree_markFrom (some '(') k), hverdict,
            ih (some '(') k (Nat.le_refl _) hk]
          cases reason <;> rfl
      | none =>
          cases hv with
          | @injected g x r c hcalls hm =>
              obtain ⟨rfl, rfl⟩ := hcalls.cut hh.not_mem
              have hx : w.Braced (some '(') x := hk.start (apart_of_isClosing hcalls.closing)
              have hr : w.Braced (some c) r := by
                have heq : x ++ c :: r = x ++ [c] ++ r := by simp
                rw [heq] at hk
                have := hk.suffix
                rwa [Text.lastFrom_concat] at this
              have hown := hs [] _ rfl (isCall_iff.2 ⟨hclear, g, _, hh, rfl⟩) g x c r hcalls
              have hagree := agree_markFrom (w := w) (some '(') x
              have hbal := hagree.balanced hcalls.balanced
              have hown' : ∀ y b e z, ObjectArgument (w.markFrom (some '(') x) y b e z →
                  separators 0 y = 2 → e = '}' := by
                intro y b e z hobj hsep
                obtain ⟨y', b', z', hobj', -, hsep'⟩ := hagree.symm.objectArgument hobj
                exact hown y' b' e z' hobj' (by rw [← hsep', hsep])
              have hinj := (markArguments_spec hbal w.marker.text).1
              have hbal' := hinj.inserted.balanced hbal
              have hmarked := hinj.marked hbal hown'
              have hcalls' : Calls (g ++ '(' :: (markArguments (w.markFrom (some '(') x)
                  w.marker.text ++ c :: w.markFrom (some c) r)) g
                  (markArguments (w.markFrom (some '(') x) w.marker.text) c
                  (w.markFrom (some c) r) := ⟨rfl, hh.not_mem, hbal', hcalls.closing⟩
              have hafter := (Handled.marked hcalls' hmarked).verdict_eq []
              rw [List.nil_append, List.length_nil] at hafter
              rw [markFrom_injected hclear hh hcalls.balanced hcalls.closing hm,
                verdicts_call hclear hh, hafter, verdicts_list hbal' hcalls.closing,
                verdicts_injected hinj hbal hown', verdicts_list hcalls.balanced hcalls.closing,
                ih (some '(') x (by simp) hx, ih (some c) r (by simp; omega) hr,
                List.map_append]
              rfl

/-- The options objects that are read end with a brace if their text does. -/
theorem braced_of_options {t : Text}
    (h : ∀ i ∈ callSites w.directive t, ∀ a ∈ ArgumentList.read? t i, ∀ o ∈ a.options,
      (o.body t).getLast? = some '}') : w.Braced none t := by
  rintro u v rfl hcall g x c r hs y b e z hobj hsep
  have hmem : u.length ∈ callSites w.directive (u ++ v) := by
    rw [callSites_eq]
    exact mem_sitesFrom.2 ⟨u, v, rfl, (Nat.zero_add _).symm, hcall⟩
  obtain ⟨o, hread, hopt⟩ := ArgumentList.read?_of_calls u hs
  have ho : o = some (objectSpan (u.length + g.length + 1) y b) :=
    (hopt _).2 ⟨y, b, e, z, hobj, hsep, rfl⟩
  have hlast := h u.length hmem _ hread (objectSpan (u.length + g.length + 1) y b) ho
  have hlen : u.length + g.length + 1 = (u ++ g ++ ['(']).length := by
    simp only [List.length_append, List.length_cons, List.length_nil]
  have htext : u ++ v = u ++ g ++ ['('] ++ (y ++ '{' :: (b ++ e :: (z ++ c :: r))) := by
    rw [hs.eq, hobj.eq]
    simp
  rw [htext, hlen, body_objectSpan] at hlast
  simpa [List.getLast?_cons] using hlast

/-- A text whose calls are all left as they are stays as it is. -/
theorem markFrom_eq_self (prev : Option Char) (s : Text)
    (h : none ∉ w.verdicts prev s) : w.markFrom prev s = s := by
  induction prev, s using call_induction w.directive with
  | nil prev => rfl
  | other prev c t hno ih =>
      rw [verdicts_other hno] at h
      rw [markFrom, hno, ih h]
      rfl
  | call prev g k hclear hg ih =>
      rw [verdicts_call hclear hg, List.mem_cons, not_or] at h
      rw [markFrom_skipped hclear hg (Ne.symm h.1), ih h.2]

theorem settled_ne_none (v : Option SkipReason) : settled v ≠ none := by
  rcases v with _ | (_ | _) <;> simp [settled]

theorem settled_eq_malformed {v : Option SkipReason} :
    settled v = some .malformed ↔ v = some .malformed := by
  rcases v with _ | (_ | _) <;> simp [settled]

/-- What a settled verdict says about the two calls. -/
theorem verdict_settled {t r : Text} {i j : Nat}
    (h : w.verdict r j = settled (w.verdict t i)) :
    (ArgumentList.read? r j = none ↔ ArgumentList.read? t i = none) ∧
      ∀ a ∈ ArgumentList.read? r j, isMarked r a w.marker.text = true := by
  constructor
  · rw [← verdict_eq_malformed_iff (w := w), h, settled_eq_malformed, verdict_eq_malformed_iff]
  · intro a ha
    have hne := settled_ne_none (w.verdict t i)
    rw [← h, verdict, Option.mem_def.1 ha] at hne
    refine Classical.byContradiction fun hm => hne ?_
    exact if_neg hm

/-- Two lists with the same images correspond to each other. -/
theorem forall₂_of_map_eq {α β γ : Type} {f : α → γ} {g : β → γ} {l : List α} {m : List β} :
    l.map f = m.map g ↔ List.Forall₂ (fun a b => f a = g b) l m := by
  rw [← List.forall₂_eq_eq_eq, List.forall₂_map_left_iff, List.forall₂_map_right_iff]

/-- The report on a text whose calls are all left as they are. -/
theorem filterMap_verdict {r : Text} {sites : List Nat}
    (h : ∀ j ∈ sites, w.verdict r j ≠ none) :
    sites.filterMap (fun j => (w.verdict r j).map (SkippedSite.mk (r.byteOffset j) ·)) =
      sites.map fun j => ⟨r.byteOffset j,
        if ArgumentList.read? r j = none then .malformed else .marked⟩ := by
  induction sites with
  | nil => rfl
  | cons j sites ih =>
      have hrest := ih fun i hi => h i (by simp [hi])
      have hj := h j (by simp)
      rw [List.filterMap_cons, List.map_cons, hrest]
      unfold verdict at hj ⊢
      cases hr : ArgumentList.read? r j with
      | none => rfl
      | some a =>
          rw [hr] at hj
          by_cases hm : isMarked r a w.marker.text = true
          · simp [hm]
          · exact absurd (if_neg hm) hj

/-- After wiring every call is settled, in the order of the calls before. -/
theorem map_verdict_wire {source module : Text}
    (h : w.Braced none (ensureImport source module w.marker.text)) :
    (callSites w.directive (ensureImport source module w.marker.text)).map
        (fun i => settled (w.verdict (ensureImport source module w.marker.text) i)) =
      (callSites w.directive (w.wire source module).code).map
        (w.verdict (w.wire source module).code) := by
  rw [verdicts_callSites, wire_code, verdicts_markFrom none _ h, ← verdicts_callSites,
    List.map_map]
  rfl

theorem verdict_wire_ne_none {source module : Text}
    (h : w.Braced none (ensureImport source module w.marker.text)) :
    ∀ j ∈ callSites w.directive (w.wire source module).code,
      w.verdict (w.wire source module).code j ≠ none := by
  intro j hj hnone
  have hmem : w.verdict (w.wire source module).code j ∈ _ :=
    List.mem_map_of_mem (f := w.verdict (w.wire source module).code) hj
  rw [← map_verdict_wire h, hnone, List.mem_map] at hmem
  obtain ⟨i, -, hi⟩ := hmem
  exact settled_ne_none _ hi

/-- A text that has the import and whose calls are all settled is given back, with a report
on every call. -/
theorem wire_eq_self {r module : Text} (himport : hasImport r module w.marker.text = true)
    (hskip : ∀ j ∈ callSites w.directive r, w.verdict r j ≠ none) :
    w.wire r module =
      { code := r
        importAdded := false
        injected := 0
        skipped := (callSites w.directive r).map fun j => ⟨r.byteOffset j,
          if ArgumentList.read? r j = none then .malformed else .marked⟩ } := by
  have hensure := ensureImport_eq_self himport
  have hcode : (w.wire r module).code = r := by
    rw [wire_code, hensure]
    refine markFrom_eq_self none r fun hmem => ?_
    rw [← verdicts_callSites, List.mem_map] at hmem
    obtain ⟨j, hj, hnone⟩ := hmem
    exact hskip j hj hnone
  have hadded : (w.wire r module).importAdded = false := by
    rw [wire_importAdded, himport]
    rfl
  have hinjected : (w.wire r module).injected = 0 := by
    rw [wire_injected, hensure, List.countP_eq_zero]
    intro j hj
    rw [Option.isNone_iff_eq_none]
    exact hskip j hj
  have hskipped := wire_skipped (w := w) r module
  rw [hensure, filterMap_verdict hskip] at hskipped
  have heta : ∀ o : Outcome, o = ⟨o.code, o.importAdded, o.injected, o.skipped⟩ :=
    fun _ => rfl
  rw [heta (w.wire r module), hcode, hadded, hinjected, hskipped]

/-- **A second run changes nothing.** Let `t` be the source with its import and `r` the text that
wiring returns, and let every options object of a call in `t` end with a brace. Then the calls of
`r` correspond to those of `t` in order; a call is malformed in `r` exactly if it was in `t`, and
every other call of `r` is marked. So, if `r` is seen to have the import, wiring `r` once more
gives `r` back, adds nothing, and reports every call: the malformed ones at the places where the
first run met them, and all others as marked. -/
theorem wire_fixed_point (w : Wiring) (source module : Text) :
    let t := ensureImport source module w.marker.text
    let r := (w.wire source module).code
    (∀ i ∈ callSites w.directive t, ∀ a ∈ ArgumentList.read? t i, ∀ o ∈ a.options,
      (o.body t).getLast? = some '}') →
    List.Forall₂
      (fun i j => (ArgumentList.read? r j = none ↔ ArgumentList.read? t i = none) ∧
        ∀ a ∈ ArgumentList.read? r j, isMarked r a w.marker.text = true)
      (callSites w.directive t) (callSites w.directive r) ∧
    (hasImport r module w.marker.text = true →
      w.wire r module =
        { code := r
          importAdded := false
          injected := 0
          skipped := (callSites w.directive r).map fun j => ⟨r.byteOffset j,
            if ArgumentList.read? r j = none then .malformed else .marked⟩ } ∧
      (w.wire r module).skipped.map SkippedSite.reason = (callSites w.directive t).map fun i =>
        if ArgumentList.read? t i = none then .malformed else .marked) := by
  intro t r hoptions
  have hbraced : w.Braced none t := braced_of_options hoptions
  have hpairs := (forall₂_of_map_eq.1 (map_verdict_wire hbraced)).imp
    fun i j h => verdict_settled h.symm
  refine ⟨hpairs, fun himport => ?_⟩
  have hwire := wire_eq_self himport (verdict_wire_ne_none hbraced)
  refine ⟨hwire, ?_⟩
  rw [hwire, List.map_map, eq_comm, forall₂_of_map_eq]
  refine hpairs.imp fun i j h => ?_
  have hread : ArgumentList.read? r j = none ↔ ArgumentList.read? t i = none := h.1
  simp only [Function.comp_apply, hread]

/-- A call whose options hold another call, followed by a call that is never closed. -/
def nestedCalls : Text :=
  Identifier.directive.text ++ ['(', 'a', ',', 'b', ',', '{', 'c', ':'] ++
    Identifier.directive.text ++ ['(', ')', '}', ')', '\n'] ++ Identifier.directive.text ++ ['(']

theorem wire_fixed_point_nestedCalls :
    let w : Wiring := {}
    let module : Text := ['.', '/', 'a', '.', 'c', 's', 's']
    let r := (w.wire nestedCalls module).code
    (callSites w.directive (ensureImport nestedCalls module w.marker.text)).length = 3 ∧
      hasImport r module w.marker.text = true ∧
      (w.wire r module).code = r ∧
      (w.wire r module).skipped.map SkippedSite.reason = [.marked, .marked, .malformed] := by
  intro w module r
  have hoptions : ∀ i ∈ callSites w.directive (ensureImport nestedCalls module w.marker.text),
      ∀ a ∈ ArgumentList.read? (ensureImport nestedCalls module w.marker.text) i,
      ∀ o ∈ a.options,
        (o.body (ensureImport nestedCalls module w.marker.text)).getLast? = some '}' := by
    decide +kernel
  have himport : hasImport r module w.marker.text = true := by decide +kernel
  obtain ⟨hwire, hreasons⟩ := (wire_fixed_point w nestedCalls module hoptions).2 himport
  refine ⟨by decide +kernel, himport, ?_, ?_⟩
  · rw [hwire]
  · rw [hreasons]
    decide +kernel

end Wiring

end Stylewire
