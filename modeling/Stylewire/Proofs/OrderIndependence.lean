import Stylewire.Proofs.Commutation

set_option autoImplicit false

/-! # The order of the injections does not matter

The loop of `markCalls` looks the call sites up once and handles them from the last to the first.
Here the calls are marked one at a time in any order, and the sites are looked up again after each
step (`Wiring.Step`). As long as the options objects end with a brace, every step keeps the text
that the loop arrives at and leaves one call less to be marked (`Advance`). So all sequences of
steps that cannot go on have the same length and the same end, and the end is the text of the loop
(`wire_unique_normal_form`).

A step changes the text at one call. The text before the call is read from the left up to the
call (`site_induction`): characters that start no call, and calls whose list is still open there or
has been closed before.
-/

namespace Stylewire

open Brackets

/-! ## From the start of a text to a call -/

/-- A call behind the text `p` is behind the parenthesis of a call that `p` starts with. -/
theorem exists_append_of_isCall {name : Identifier} {prev : Option Char} {p s h k : Text}
    (hp : p ≠ []) (heq : p ++ s = h ++ '(' :: k) (hh : IsHead name h)
    (hs : isCall name (Text.lastFrom prev p) s = true) :
    ∃ q, p = h ++ '(' :: q ∧ k = q ++ s := by
  rcases List.append_eq_append_iff.1 heq with ⟨v, rfl, rfl⟩ | ⟨v, rfl, hv⟩
  · -- No call starts inside a head.
    rw [hh.isCall_inside hp prev k] at hs
    cases hs
  · cases v with
    | nil =>
        have hs' : s = '(' :: k := hv.symm
        rw [hs', isCall_cons_eq_false (by decide)] at hs
        cases hs
    | cons c q =>
        obtain ⟨rfl, rfl⟩ : '(' = c ∧ k = q ++ s := by simpa using hv
        exact ⟨q, rfl, rfl⟩

/-- Reading a text up to the call that its rest `s` starts with. -/
@[elab_as_elim]
theorem site_induction (name : Identifier) {s : Text} {motive : Option Char → Text → Prop}
    (here : ∀ prev, isCall name prev s = true → motive prev [])
    (other : ∀ prev c p, isCall name prev (c :: (p ++ s)) = false → motive (some c) p →
      motive prev (c :: p))
    (call : ∀ prev h p, isClear prev = true → IsHead name h → motive (some '(') p →
      motive prev (h ++ '(' :: p))
    (prev : Option Char) (p : Text) (hs : isCall name (Text.lastFrom prev p) s = true) :
    motive prev p := by
  induction hn : p.length using Nat.strongRecOn generalizing prev p with
  | ind n ih =>
      cases p with
      | nil => exact here prev hs
      | cons c p =>
          by_cases hcall : isCall name prev (c :: (p ++ s)) = true
          · obtain ⟨hclear, h, k, hh, heq⟩ := isCall_iff.1 hcall
            obtain ⟨q, hq, rfl⟩ := exists_append_of_isCall (p := c :: p) (by simp) heq hh hs
            rw [hq] at hs hn ⊢
            refine call prev h q hclear hh (ih q.length ?_ (some '(') q ?_ rfl)
            · rw [List.length_append, List.length_cons] at hn
              omega
            · rw [Text.lastFrom_append, Text.lastFrom_cons] at hs
              exact hs
          · refine other prev c p (by simpa using hcall) (ih p.length ?_ (some c) p hs rfl)
            rw [List.length_cons] at hn
            omega

/-- A list is read off a call. -/
theorem exists_calls_of_listAt {s x : Text} (h : listAt s 0 = some x) :
    ∃ g c r, Calls s g x c r := by
  refine Classical.byContradiction fun hno => ?_
  have hnone : listAt ([] ++ s) ([] : Text).length = none := by
    refine listAt_eq_none [] fun g y c r hs => ?_
    have hy : listAt s 0 = some y := listAt_of_calls [] hs
    rw [h] at hy
    obtain rfl := Option.some.inj hy
    exact hno ⟨g, c, r, hs⟩
  rw [List.nil_append, List.length_nil, h] at hnone
  cases hnone

namespace Wiring

/-! ## Steps -/

/-- One **step**: some call of the text that is closed and not marked receives the marker. -/
def Step (w : Wiring) (t t' : Text) : Prop :=
  ∃ i ∈ callSites w.directive t, ∃ a, ArgumentList.read? t i = some a ∧
    isMarked t a w.marker.text = false ∧ t' = (injection t a w.marker.text).apply t

/-- A number of steps, one after the other. -/
inductive Steps (w : Wiring) : (n : Nat) → Text → Text → Prop
  | refl (t : Text) : Steps w 0 t t
  | head {n : Nat} {t u v : Text} : w.Step t u → Steps w n u v → Steps w (n + 1) t v

/-- The options objects of the calls that are still to be marked end with a brace. -/
def Ready (w : Wiring) (prev : Option Char) (t : Text) : Prop :=
  ∀ x, some x ∈ lists w.directive prev t → ¬ Marked x w.marker.text →
    ∀ y b e z, ObjectArgument x y b e z → separators 0 y = 2 → e = '}'

/-- The number of calls that are still to be marked. -/
def pending (w : Wiring) (prev : Option Char) (t : Text) : Nat := (w.verdicts prev t).count none

variable {w : Wiring}

theorem Steps.eq_of_zero {t u : Text} (h : w.Steps 0 t u) : t = u := by
  cases h
  rfl

/-- What a step does, by how the text is cut at the call. -/
theorem Step.exists_cut {t t' : Text} (h : w.Step t t') :
    ∃ p g x c r, t = p ++ (g ++ '(' :: (x ++ c :: r)) ∧
      t' = p ++ (g ++ '(' :: (markArguments x w.marker.text ++ c :: r)) ∧
      IsHead w.directive g ∧ isClear (Text.lastFrom none p) = true ∧ all.Balanced x ∧
      all.isClosing c = true ∧ ¬ Marked x w.marker.text := by
  obtain ⟨i, hi, a, ha, hm, rfl⟩ := h
  rw [callSites_eq] at hi
  obtain ⟨p, s, rfl, rfl, hcall⟩ := mem_sitesFrom.1 hi
  rw [Nat.zero_add] at ha
  obtain ⟨hclear, g, k, hg, rfl⟩ := isCall_iff.1 hcall
  have hcalls : ∃ x c r, Calls (g ++ '(' :: k) g x c r := by
    refine Classical.byContradiction fun hno => ?_
    have hnone : ArgumentList.read? (p ++ (g ++ '(' :: k)) p.length = none := by
      refine ArgumentList.read?_eq_none_iff.2 fun g' x c r hs => ?_
      obtain ⟨rfl, -⟩ := hs.cut hg.not_mem
      exact hno ⟨x, c, r, hs⟩
    rw [ha] at hnone
    cases hnone
  obtain ⟨x, c, r, hs⟩ := hcalls
  obtain ⟨-, rfl⟩ := hs.cut hg.not_mem
  have hmarked : ¬ Marked x w.marker.text := by
    intro hmarked
    obtain ⟨o, hread, -⟩ := ArgumentList.read?_of_calls p hs
    rw [ha] at hread
    obtain rfl := Option.some.inj hread
    rw [(isMarked_iff w.marker p hs rfl rfl).2 hmarked] at hm
    cases hm
  exact ⟨p, g, x, c, r, rfl, (markArguments_spec hs.balanced w.marker.text).2 hs ha, hg, hclear,
    hs.balanced, hs.closing, hmarked⟩

/-- A call that is still to be marked allows a step. -/
theorem exists_step {t : Text} (h : none ∈ w.verdicts none t) : ∃ t', w.Step t t' := by
  rw [← verdicts_callSites, List.mem_map] at h
  obtain ⟨i, hi, hv⟩ := h
  obtain ⟨a, ha, hm⟩ := verdict_eq_none_iff.1 hv
  exact ⟨_, i, hi, a, ha, hm, rfl⟩

/-! ## What a step keeps -/

/-- The call at `s` is **one step ahead** in `s'`: handling the calls of both leads to the same
text, one call less is to be marked, and the options objects still end with braces. The character
before both texts is `prev`. -/
structure Advance (w : Wiring) (prev : Option Char) (s s' : Text) : Prop where
  agree : Agree s s'
  code : w.markFrom prev s' = w.markFrom prev s
  pending : w.pending prev s' + 1 = w.pending prev s
  ready : w.Ready prev s'

/-- The call itself. -/
theorem Advance.here {prev : Option Char} {g x r : Text} {c : Char} (hclear : isClear prev = true)
    (hg : IsHead w.directive g) (hx : all.Balanced x) (hc : all.isClosing c = true)
    (hm : ¬ Marked x w.marker.text) (hready : w.Ready prev (g ++ '(' :: (x ++ c :: r))) :
    Advance w prev (g ++ '(' :: (x ++ c :: r))
      (g ++ '(' :: (markArguments x w.marker.text ++ c :: r)) := by
  have hs : Calls (g ++ '(' :: (x ++ c :: r)) g x c r := ⟨rfl, hg.not_mem, hx, hc⟩
  have hlist : listAt (g ++ '(' :: (x ++ c :: r)) 0 = some x := listAt_of_calls [] hs
  have hend : ∀ y b e z, ObjectArgument x y b e z → separators 0 y = 2 → e = '}' := by
    refine hready x ?_ hm
    rw [lists_call hclear hg, hlist]
    exact List.mem_cons_self
  have hinj := (markArguments_spec hx w.marker.text).1
  have hx' := hinj.inserted.balanced hx
  have hm' : Marked (markArguments x w.marker.text) w.marker.text := hinj.marked hx hend
  have hs' : Calls (g ++ '(' :: (markArguments x w.marker.text ++ c :: r)) g
      (markArguments x w.marker.text) c r := ⟨rfl, hg.not_mem, hx', hc⟩
  have hverdict : w.verdict (g ++ '(' :: (x ++ c :: r)) 0 = none :=
    (Handled.injected hs hm).verdict_eq []
  have hverdict' : w.verdict (g ++ '(' :: (markArguments x w.marker.text ++ c :: r)) 0 =
      some .marked := (Handled.marked hs' hm').verdict_eq []
  refine ⟨(Agree.paren hx hx' hc (Agree.refl r)).prepend g, ?_, ?_, ?_⟩
  · -- The call is left as it is now, and the calls inside have been there before.
    rw [markFrom_skipped hclear hg (by rw [hverdict']; simp), markFrom_list hx' hc,
      markFrom_injected hclear hg hx hc hm, markFrom_markArguments hx hend]
  · rw [Wiring.pending, Wiring.pending, verdicts_call hclear hg, verdicts_call hclear hg, hverdict,
      hverdict', verdicts_list hx' hc, verdicts_list hx hc, verdicts_injected hinj hx hend,
      List.count_cons_self, List.count_cons_of_ne (by simp)]
  · intro y hy hym
    have hlist' : listAt (g ++ '(' :: (markArguments x w.marker.text ++ c :: r)) 0 =
        some (markArguments x w.marker.text) := listAt_of_calls [] hs'
    have hF := piecewise_lists w.directive
    rw [lists_call hclear hg, hlist', hF.list hx' hc, lists_injected hinj hx hend] at hy
    refine hready y ?_ hym
    rw [lists_call hclear hg, hF.list hx hc]
    rcases List.mem_cons.1 hy with heq | hin
    · rw [Option.some.inj heq] at hym
      exact absurd hm' hym
    · exact List.mem_cons_of_mem _ hin

/-- A character before the call that starts no call. -/
theorem Advance.other {prev : Option Char} {c : Char} {t t' : Text}
    (hno : isCall w.directive prev (c :: t) = false) (h : Advance w (some c) t t') :
    Advance w prev (c :: t) (c :: t') := by
  have hagree : Agree (c :: t) (c :: t') := .cons c h.agree
  have hno' : isCall w.directive prev (c :: t') = false := by
    rw [← hagree.isCall_eq w.directive prev, hno]
  refine ⟨hagree, ?_, ?_, ?_⟩
  · rw [markFrom, markFrom, hno, hno', h.code]
  · have hpending := h.pending
    rw [Wiring.pending, Wiring.pending] at hpending ⊢
    rw [verdicts_other hno, verdicts_other hno', hpending]
  · have hready := h.ready
    unfold Ready at hready ⊢
    rw [lists_other hno']
    exact hready

/-- A call before the call, which may be inside the list of the former. -/
theorem Advance.call {prev : Option Char} {g k k' : Text} (hclear : isClear prev = true)
    (hg : IsHead w.directive g) (hready : w.Ready prev (g ++ '(' :: k))
    (h : Advance w (some '(') k k') :
    Advance w prev (g ++ '(' :: k) (g ++ '(' :: k') := by
  refine ⟨(Agree.cons _ h.agree).prepend g, ?_, ?_, ?_⟩
  · rw [markFrom_call hclear hg, markFrom_call hclear hg, h.code]
  · have hpending := h.pending
    rw [Wiring.pending, Wiring.pending] at hpending ⊢
    rw [verdicts_call hclear hg, verdicts_call hclear hg, ← verdict_agree hg.not_mem h.agree,
      List.count_cons, List.count_cons]
    omega
  · intro x' hx' hm' y b e z hobj hsep
    rw [lists_call hclear hg] at hx'
    rcases List.mem_cons.1 hx' with hown | hin
    · -- The list of the outer call has the same objects, up to what is in parentheses.
      obtain ⟨g', c, r', hs'⟩ := exists_calls_of_listAt hown.symm
      obtain ⟨rfl, -⟩ := hs'.cut hg.not_mem
      obtain ⟨x, r, hs, hx, -⟩ := h.agree.symm.calls hs'
      have hlist : listAt (g' ++ '(' :: k) 0 = some x := listAt_of_calls [] hs
      obtain ⟨y', b', z', hobj', -, hsep'⟩ := hx.objectArgument hobj
      refine hready x ?_ (mt (hx.marked_iff w.marker).2 hm') y' b' e z' hobj'
        (by rw [← hsep', hsep])
      rw [lists_call hclear hg, hlist]
      exact List.mem_cons_self
    · exact h.ready x' hin hm' y b e z hobj hsep

theorem Ready.of_other {prev : Option Char} {c : Char} {t : Text} (h : w.Ready prev (c :: t))
    (hno : isCall w.directive prev (c :: t) = false) : w.Ready (some c) t := by
  unfold Ready at h ⊢
  rwa [lists_other hno] at h

theorem Ready.of_call {prev : Option Char} {g k : Text} (h : w.Ready prev (g ++ '(' :: k))
    (hclear : isClear prev = true) (hg : IsHead w.directive g) : w.Ready (some '(') k := by
  intro x hx
  refine h x ?_
  rw [lists_call hclear hg]
  exact List.mem_cons_of_mem _ hx

/-- The call behind a text `p`. -/
theorem Advance.behind {g x r : Text} {c : Char} (hg : IsHead w.directive g)
    (hx : all.Balanced x) (hc : all.isClosing c = true) (hm : ¬ Marked x w.marker.text)
    (prev : Option Char) (p : Text) (hclear : isClear (Text.lastFrom prev p) = true)
    (hready : w.Ready prev (p ++ (g ++ '(' :: (x ++ c :: r)))) :
    Advance w prev (p ++ (g ++ '(' :: (x ++ c :: r)))
      (p ++ (g ++ '(' :: (markArguments x w.marker.text ++ c :: r))) := by
  have hs : isCall w.directive (Text.lastFrom prev p) (g ++ '(' :: (x ++ c :: r)) = true :=
    isCall_iff.2 ⟨hclear, g, _, hg, rfl⟩
  revert hready
  refine site_induction w.directive ?here ?other ?call prev p hs
  case here =>
    intro prev hcall hready
    exact .here (isCall_iff.1 hcall).1 hg hx hc hm hready
  case other =>
    intro prev a q hno ih hready
    exact .other hno (ih (hready.of_other hno))
  case call =>
    intro prev f q hclear' hf ih hready
    rw [List.append_assoc, List.cons_append] at hready
    have hadvance := Advance.call hclear' hf hready (ih (hready.of_call hclear' hf))
    simpa using hadvance

/-- **What a step keeps.** -/
theorem Step.advance {t t' : Text} (h : w.Step t t') (hready : w.Ready none t) :
    Advance w none t t' := by
  obtain ⟨p, g, x, c, r, rfl, rfl, hg, hclear, hx, hc, hm⟩ := h.exists_cut
  exact .behind hg hx hc hm none p hclear hready

/-! ## Runs -/

/-- A run lowers the number of calls to be marked by its length, and it keeps the text that
handling all calls leads to. -/
theorem Steps.advance {n : Nat} {t u : Text} (h : w.Steps n t u) (hready : w.Ready none t) :
    w.markFrom none u = w.markFrom none t ∧ w.pending none u + n = w.pending none t ∧
      w.Ready none u := by
  induction h with
  | refl t => exact ⟨rfl, rfl, hready⟩
  | @head n t u v hstep hsteps ih =>
      have hadvance := hstep.advance hready
      obtain ⟨hcode, hpending, hready'⟩ := ih hadvance.ready
      have hone := hadvance.pending
      exact ⟨hcode.trans hadvance.code, by omega, hready'⟩

theorem markFrom_eq_self_of_pending {t : Text} (h : w.pending none t = 0) :
    w.markFrom none t = t :=
  markFrom_eq_self none t (List.count_eq_zero.1 h)

/-- From every text there is a run to the text that handling all calls leads to. -/
theorem exists_steps {t : Text} (hready : w.Ready none t) :
    w.Steps (w.pending none t) t (w.markFrom none t) := by
  induction hn : w.pending none t generalizing t with
  | zero =>
      rw [markFrom_eq_self_of_pending hn]
      exact .refl t
  | succ n ih =>
      have hmem : none ∈ w.verdicts none t := List.count_pos_iff.1 (by rw [← pending]; omega)
      obtain ⟨t', hstep⟩ := exists_step hmem
      have hadvance := hstep.advance hready
      have hpending := hadvance.pending
      have hrest := ih hadvance.ready (by omega)
      rw [hadvance.code] at hrest
      exact .head hstep hrest

/-- No sequence of steps goes on for ever. -/
theorem not_exists_run {t : Text} (hready : w.Ready none t) :
    ¬ ∃ run : Nat → Text, run 0 = t ∧ ∀ n, w.Step (run n) (run (n + 1)) := by
  induction hn : w.pending none t using Nat.strongRecOn generalizing t with
  | ind n ih =>
      rintro ⟨run, rfl, hrun⟩
      have hadvance := (hrun 0).advance hready
      have hpending := hadvance.pending
      exact ih _ (by omega) hadvance.ready rfl ⟨fun n => run (n + 1), rfl, fun n => hrun (n + 1)⟩

/-- In a text that allows no step, no call is to be marked. -/
theorem pending_eq_zero {u : Text} (hmax : ∀ u', ¬ w.Step u u') : w.pending none u = 0 := by
  refine List.count_eq_zero.2 fun hmem => ?_
  obtain ⟨u', hstep⟩ := exists_step hmem
  exact hmax u' hstep

theorem Braced.ready {t : Text} (h : w.Braced none t) : w.Ready none t := by
  intro x hx _
  obtain ⟨i, hi, hlist⟩ := List.mem_map.1 hx
  obtain ⟨u, v, rfl, rfl, hcall⟩ := mem_sitesFrom.1 hi
  rw [Nat.zero_add, listAt_append] at hlist
  obtain ⟨g, c, r, hs⟩ := exists_calls_of_listAt hlist
  exact h u v rfl hcall g x c r hs

theorem wire_injected_eq_pending (source module : Text) :
    (w.wire source module).injected =
      w.pending none (ensureImport source module w.marker.text) := by
  rw [wire_injected, pending, ← verdicts_callSites, List.count, List.countP_map]
  congr 1
  funext i
  rw [Function.comp_apply]
  cases w.verdict (ensureImport source module w.marker.text) i <;> rfl

/-- **The order of the injections does not matter.** Let `t` be the source with its import, and let
every options object of a call in `t` end with a brace. Then every sequence of steps from `t` is
finite, each one that cannot go on has exactly as many steps as wiring marks calls, and it ends in
the text that wiring returns; every other one can be continued to such a sequence. So the loop,
which looks the call sites up only once, finds the only text that the steps lead to in the end. -/
theorem wire_unique_normal_form (w : Wiring) (source module : Text) :
    let t := ensureImport source module w.marker.text
    let outcome := w.wire source module
    (∀ i ∈ callSites w.directive t, ∀ a ∈ ArgumentList.read? t i, ∀ o ∈ a.options,
      (o.body t).getLast? = some '}') →
    (¬ ∃ run : Nat → Text, run 0 = t ∧ ∀ n, w.Step (run n) (run (n + 1))) ∧
    (∀ n u, w.Steps n t u → (∀ u', ¬ w.Step u u') → n = outcome.injected ∧ u = outcome.code) ∧
    (∀ n u, w.Steps n t u → ∃ m, n + m = outcome.injected ∧ w.Steps m u outcome.code) ∧
    ∀ u', ¬ w.Step outcome.code u' := by
  intro t outcome hoptions
  have hready : w.Ready none t := (braced_of_options hoptions).ready
  have hcode : outcome.code = w.markFrom none t := wire_code source module
  have hinjected : outcome.injected = w.pending none t := wire_injected_eq_pending source module
  rw [hcode, hinjected]
  refine ⟨not_exists_run hready, ?_, ?_, ?_⟩
  · intro n u hsteps hmax
    obtain ⟨hsame, hpending, -⟩ := hsteps.advance hready
    have hzero := pending_eq_zero hmax
    refine ⟨by omega, ?_⟩
    calc u = w.markFrom none u := (markFrom_eq_self_of_pending hzero).symm
      _ = w.markFrom none t := hsame
  · intro n u hsteps
    obtain ⟨hsame, hpending, hready'⟩ := hsteps.advance hready
    have hrest := exists_steps hready'
    rw [hsame] at hrest
    exact ⟨w.pending none u, by omega, hrest⟩
  · -- The run of the loop has used up all the calls.
    obtain ⟨-, hpending, hready'⟩ := (exists_steps hready).advance hready
    intro u' hstep
    have hone := (hstep.advance hready').pending
    omega

/-- The loop marks the inner call of `nestedCalls` first; here the outer one comes first. -/
theorem wire_unique_normal_form_nestedCalls :
    let w : Wiring := {}
    let module : Text := ['.', '/', 'a', '.', 'c', 's', 's']
    let t := ensureImport nestedCalls module w.marker.text
    let u := (injection t ⟨44, 64, some ⟨49, 63⟩⟩ w.marker.text).apply t
    let v := (injection u ⟨61, 62, none⟩ w.marker.text).apply u
    callSites w.directive t = [35, 52, 66] ∧ w.Steps 2 t v ∧ (∀ v', ¬ w.Step v v') ∧
      v = (w.wire nestedCalls module).code := by
  intro w module t u v
  have hoptions : ∀ i ∈ callSites w.directive t, ∀ a ∈ ArgumentList.read? t i, ∀ o ∈ a.options,
      (o.body t).getLast? = some '}' := by decide +kernel
  have houter : w.Step t u :=
    ⟨35, by decide +kernel, ⟨44, 64, some ⟨49, 63⟩⟩, by decide +kernel, by decide +kernel, rfl⟩
  have hinner : w.Step u v :=
    ⟨52, by decide +kernel, ⟨61, 62, none⟩, by decide +kernel, by decide +kernel, rfl⟩
  have hsteps : w.Steps 2 t v := .head houter (.head hinner (.refl v))
  obtain ⟨-, -, hextend, hend⟩ := wire_unique_normal_form w nestedCalls module hoptions
  have hinjected : (w.wire nestedCalls module).injected = 2 := by decide +kernel
  obtain ⟨m, hm, hrest⟩ := hextend 2 v hsteps
  obtain rfl : m = 0 := by omega
  have hv : v = (w.wire nestedCalls module).code := hrest.eq_of_zero
  refine ⟨by decide +kernel, hsteps, ?_, hv⟩
  rw [hv]
  exact hend

end Wiring

end Stylewire
