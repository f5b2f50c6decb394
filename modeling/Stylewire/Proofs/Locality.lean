import Mathlib.Data.List.Basic
import Stylewire.Proofs.Wiring

set_option autoImplicit false

/-! # Where marking the calls changes a text

Two things are said about the text that wiring returns. Nothing is lost: up to blanks, every
call that is marked adds one chunk to the text and takes nothing away (`insertions_foldr`). And
nothing changes elsewhere: outside of the argument lists of the calls that are marked, the text
stays as it is (`filled_markFrom`). The lists can lie in one another, so only the outermost ones
are taken into account: the text is cut along these lists, and `fill` puts it together again
with other texts between their brackets.
-/

namespace Stylewire

open Brackets

/-! ## Successive insertions -/

/-- The second text arises from the first one by `n` successive insertions of a chunk. -/
inductive Insertions (marker : Text) : (n : Nat) → Text → Text → Prop
  | refl (t : Text) : Insertions marker 0 t t
  | step {n : Nat} {t u v chunk : Text} : Insertions marker n t (u ++ v) →
      chunk ∈ chunks marker → Insertions marker (n + 1) t (u ++ (chunk ++ v))

theorem Insertions.sublist {marker t t' : Text} {n : Nat} (h : Insertions marker n t t') :
    t.Sublist t' := by
  induction h with
  | refl t => exact List.Sublist.refl t
  | @step n t u v chunk _ _ ih =>
      exact ih.trans ((List.Sublist.refl u).append (List.sublist_append_right chunk v))

/-- Adding an import takes nothing away. -/
theorem sublist_ensureImport (source module marker : Text) :
    source.Sublist (ensureImport source module marker) := by
  unfold ensureImport addImport?
  split
  · exact List.Sublist.refl source
  · cases lastImportEnd? source with
    | none => exact List.sublist_append_right _ source
    | some i =>
        have hcut : (source.take i ++ source.drop i).Sublist
            (source.take i ++ ['\n'] ++ importStatement module marker ++ source.drop i) :=
          (((List.sublist_append_left _ _).trans (List.sublist_append_left _ _))).append
            (List.Sublist.refl _)
        rw [List.take_append_drop] at hcut
        exact hcut

namespace Wiring

variable {w : Wiring}

/-- Handling one call adds one chunk at most. -/
theorem inserted_markAt (t : Text) (i : Nat) : Inserted w.marker.text t (w.markAt t i) := by
  cases hr : ArgumentList.read? t i with
  | none =>
      left
      rw [markAt, hr]
  | some a =>
      obtain ⟨p, s, h, x, c, r, rfl, rfl, hs, -, -⟩ := ArgumentList.exists_calls_of_read? hr
      obtain ⟨v, s', hv⟩ := w.exists_handled s
      rw [hv.markAt_eq p]
      cases hv with
      | malformed _ => exact Or.inl rfl
      | marked _ _ => exact Or.inl rfl
      | @injected g y q e hs' _ =>
          have hinj := (markArguments_spec hs'.balanced w.marker.text).1
          have hctx := hinj.inserted.context (p ++ (g ++ ['('])) (e :: q)
          rw [hs'.eq]
          simpa using hctx

/-- One step of the loop adds one chunk at most, and none unless it counts the call. -/
theorem insertions_visit {t : Text} {n : Nat} (i : Nat) (q : Progress)
    (hn : n ≤ q.injected) (hq : Insertions w.marker.text n t q.code.withoutBlanks) :
    ∃ m ≤ (w.visit i q).injected,
      Insertions w.marker.text m t (w.visit i q).code.withoutBlanks := by
  rw [visit_eq]
  by_cases hv : w.verdict q.code i = none
  · rcases inserted_markAt (w := w) q.code i with heq | ⟨u, v, chunk, hchunk, hcode, hcode'⟩
    · refine ⟨n, by simp [hv]; omega, ?_⟩
      rw [heq]
      exact hq
    · refine ⟨n + 1, by simp [hv, hn], ?_⟩
      rw [hcode] at hq
      rw [hcode']
      exact .step hq hchunk
  · refine ⟨n, by simp; omega, ?_⟩
    rw [w.markAt_eq_self hv]
    exact hq

/-- **Nothing is lost**, whatever sites the loop is run on. -/
theorem insertions_foldr (t : Text) (sites : List Nat) :
    ∃ n ≤ (sites.foldr w.visit ⟨t, 0, []⟩).injected,
      Insertions w.marker.text n t.withoutBlanks
        (sites.foldr w.visit ⟨t, 0, []⟩).code.withoutBlanks := by
  induction sites with
  | nil => exact ⟨0, Nat.le_refl 0, .refl _⟩
  | cons i sites ih =>
      obtain ⟨n, hn, hq⟩ := ih
      exact insertions_visit i _ hn hq

end Wiring

/-! ## Cutting a text along argument lists -/

/-- The text from position `start` on, with the given texts between the brackets of the given
argument lists. -/
def fill (t : Text) : (start : Nat) → List (ArgumentList × Text) → Text
  | start, [] => t.drop start
  | start, (a, s) :: rest => t.slice start (a.opening + 1) ++ s ++ fill t a.closing rest

/-- The argument lists that do not lie in another one. -/
def outermost (lists : List ArgumentList) : List ArgumentList :=
  lists.filter fun a => !lists.any fun b => b.opening < a.opening && a.closing < b.closing

/-- What stands before the first list stays as it is. -/
theorem fill_append {t p q r : Text} (ht : t = p ++ (q ++ r))
    (parts : List (ArgumentList × Text))
    (h : ∀ a ∈ parts.map Prod.fst, p.length + q.length ≤ a.opening + 1) :
    fill t p.length parts = q ++ fill t (p.length + q.length) parts := by
  have hdrop : t.drop p.length = q ++ r := by
    rw [ht]
    exact List.drop_left
  have hdrop' : t.drop (p.length + q.length) = r := by
    rw [← List.drop_drop, hdrop]
    exact List.drop_left
  cases parts with
  | nil => rw [fill, fill, hdrop, hdrop']
  | cons part parts =>
      have hle := h part.1 (by simp)
      have hslice : t.slice p.length (part.1.opening + 1) =
          q ++ t.slice (p.length + q.length) (part.1.opening + 1) := by
        rw [Text.slice, Text.slice, hdrop, hdrop', List.take_append,
          List.take_of_length_le (by omega), Nat.sub_sub]
      rw [fill, fill, hslice]
      simp

/-- Another text in the first list. -/
theorem fill_list {t p h x r : Text} {c : Char} {a : ArgumentList}
    (ht : t = p ++ (h ++ '(' :: (x ++ c :: r))) (ho : a.opening = p.length + h.length)
    (hc : a.closing = p.length + h.length + 1 + x.length) (x' : Text)
    (parts : List (ArgumentList × Text))
    (hparts : ∀ b ∈ parts.map Prod.fst, a.closing < b.opening) :
    fill t p.length ((a, x') :: parts) =
      h ++ '(' :: (x' ++ c :: fill t (a.closing + 1) parts) := by
  have hslice : t.slice p.length (a.opening + 1) = h ++ ['('] := by
    have heq : h ++ '(' :: (x ++ c :: r) = h ++ ['('] ++ (x ++ c :: r) := by simp
    rw [Text.slice, ht, List.drop_left, heq]
    refine List.take_left' ?_
    rw [List.length_append, List.length_singleton]
    omega
  have hlen : (p ++ (h ++ '(' :: x)).length = a.closing := by
    simp only [List.length_append, List.length_cons]
    omega
  have htext : t = p ++ (h ++ '(' :: x) ++ ([c] ++ r) := by
    rw [ht]
    simp
  have hrest := fill_append htext parts ?_
  · rw [hlen, List.length_singleton, List.singleton_append] at hrest
    rw [fill, hslice, hrest]
    simp
  · intro b hb
    have := hparts b hb
    rw [hlen, List.length_singleton]
    omega

/-- Filling in what stands there gives the text. -/
theorem fill_arguments {t : Text} {start : Nat} {lists : List ArgumentList}
    (hstart : ∀ a ∈ lists, start ≤ a.opening + 1)
    (hpos : ∀ a ∈ lists, a.opening < a.closing)
    (hsorted : lists.Pairwise fun a b => a.closing < b.opening) :
    fill t start (lists.map fun a => (a, a.arguments t)) = t.drop start := by
  induction lists generalizing start with
  | nil => rfl
  | cons a lists ih =>
      have hstart' : ∀ b ∈ lists, a.closing ≤ b.opening + 1 := by
        intro b hb
        have := List.rel_of_pairwise_cons hsorted hb
        omega
      have hrest := ih hstart' (fun b hb => hpos b (by simp [hb])) hsorted.of_cons
      have h1 := hstart a (by simp)
      have h2 := hpos a (by simp)
      have hcut : ∀ {i j : Nat}, i ≤ j → t.slice i j ++ t.drop j = t.drop i := by
        intro i j hij
        have hj : t.drop j = (t.drop i).drop (j - i) := by
          rw [List.drop_drop, Nat.add_sub_cancel' hij]
        rw [Text.slice, hj, List.take_append_drop]
      rw [List.map_cons, fill, hrest, ArgumentList.arguments, List.append_assoc, hcut (by omega),
        hcut h1]

/-- The outermost ones of an argument list, the lists in it and the lists behind it. -/
theorem outermost_cons {a : ArgumentList} {inner behind : List ArgumentList}
    (hinner : ∀ b ∈ inner, a.opening < b.opening ∧ b.closing < a.closing)
    (hbehind : ∀ b ∈ behind, a.closing < b.opening ∧ b.opening < b.closing)
    (ha : a.opening < a.closing) :
    outermost (a :: (inner ++ behind)) = a :: outermost behind := by
  have hself : ((a :: (inner ++ behind)).any fun b =>
      b.opening < a.opening && a.closing < b.closing) = false := by
    rw [List.any_eq_false]
    intro b hb
    rw [List.mem_cons, List.mem_append] at hb
    simp only [Bool.and_eq_true, decide_eq_true_eq]
    rcases hb with rfl | hb | hb
    · omega
    · have := hinner b hb
      omega
    · have := hbehind b hb
      omega
  have hdrop : ∀ b ∈ inner, ((a :: (inner ++ behind)).any fun e =>
      e.opening < b.opening && b.closing < e.closing) = true := by
    intro b hb
    have := hinner b hb
    rw [List.any_cons]
    simp [this]
  have hkeep : ∀ b ∈ behind, ((a :: (inner ++ behind)).any fun e =>
      e.opening < b.opening && b.closing < e.closing) = behind.any fun e =>
        e.opening < b.opening && b.closing < e.closing := by
    intro b hb
    have hb' := hbehind b hb
    have hout : (decide (a.opening < b.opening) && decide (b.closing < a.closing)) = false := by
      simp only [Bool.and_eq_false_iff, decide_eq_false_iff_not]
      omega
    have hin : (inner.any fun e =>
        decide (e.opening < b.opening) && decide (b.closing < e.closing)) = false := by
      rw [List.any_eq_false]
      intro e he
      have := hinner e he
      simp only [Bool.and_eq_true, decide_eq_true_eq]
      omega
    rw [List.any_cons, List.any_append, hout, hin, Bool.false_or, Bool.false_or]
  have hnone : inner.filter (fun b => !(a :: (inner ++ behind)).any fun e =>
      e.opening < b.opening && b.closing < e.closing) = [] := by
    rw [List.filter_eq_nil_iff]
    intro b hb
    rw [hdrop b hb]
    simp
  rw [outermost, List.filter_cons, hself, List.filter_append, hnone]
  simp only [Bool.not_false, if_true, List.nil_append, List.cons.injEq, true_and]
  refine List.filter_congr fun b hb => ?_
  rw [hkeep b hb]

/-- The text `u` is `t` from position `start` on, but for what stands in the outermost ones of
the given lists, which follow one another. -/
def Filled (t : Text) (start : Nat) (lists : List ArgumentList) (u : Text) : Prop :=
  ∃ parts : List (ArgumentList × Text), parts.map Prod.fst = outermost lists ∧
    (outermost lists).Pairwise (fun a b => a.closing < b.opening) ∧ fill t start parts = u

/-- A stretch of the text before all the lists. -/
theorem Filled.before {t p q r u : Text} {lists : List ArgumentList}
    (h : Filled t (p.length + q.length) lists u) (ht : t = p ++ (q ++ r))
    (hlists : ∀ a ∈ lists, p.length + q.length ≤ a.opening) :
    Filled t p.length lists (q ++ u) := by
  obtain ⟨parts, houter, hsorted, rfl⟩ := h
  refine ⟨parts, houter, hsorted, fill_append ht parts fun a ha => ?_⟩
  rw [houter] at ha
  have := hlists a (List.mem_filter.1 ha).1
  omega

/-- One more list, with the lists in it and another text `x'` between its brackets, before all
the other ones. -/
theorem Filled.list {t p h x r u : Text} {c : Char} {a : ArgumentList}
    {inner behind : List ArgumentList} (hu : Filled t (a.closing + 1) behind u)
    (ht : t = p ++ (h ++ '(' :: (x ++ c :: r))) (ho : a.opening = p.length + h.length)
    (hc : a.closing = p.length + h.length + 1 + x.length)
    (hinner : ∀ b ∈ inner, a.opening < b.opening ∧ b.closing < a.closing)
    (hbehind : ∀ b ∈ behind, a.closing < b.opening ∧ b.opening < b.closing) (x' : Text) :
    Filled t p.length (a :: (inner ++ behind)) (h ++ '(' :: (x' ++ c :: u)) := by
  obtain ⟨parts, houter, hsorted, rfl⟩ := hu
  have hcons := outermost_cons hinner hbehind (by omega)
  have hlt : ∀ b ∈ outermost behind, a.closing < b.opening :=
    fun b hb => (hbehind b (List.mem_filter.1 hb).1).1
  refine ⟨(a, x') :: parts, ?_, ?_, fill_list ht ho hc x' parts (houter ▸ hlt)⟩
  · rw [hcons, List.map_cons, houter]
  · rw [hcons]
    exact List.Pairwise.cons hlt hsorted

namespace Wiring

variable {w : Wiring}

/-! ## The lists of the calls that are marked -/

/-- The argument list of a call that is marked. -/
def injectedList (w : Wiring) (t : Text) (i : Nat) : Option ArgumentList :=
  if (w.verdict t i).isNone then ArgumentList.read? t i else none

theorem extent_of_injectedList {t : Text} {pos : Nat} {prev : Option Char} {s : Text}
    {a : ArgumentList}
    (h : a ∈ (sitesFrom w.directive pos prev s).filterMap (w.injectedList t)) :
    pos ≤ a.opening ∧ a.opening < a.closing := by
  obtain ⟨i, hi, ha⟩ := List.mem_filterMap.1 h
  have hpos := le_of_mem_sitesFrom hi
  unfold injectedList at ha
  split at ha
  · obtain ⟨p, v, g, x, c, r, -, rfl, -, ho, hc⟩ := ArgumentList.exists_calls_of_read? ha
    omega
  · cases ha

/-- The list of a call inside a balanced text lies in this text. -/
theorem extent_inside {p x q : Text} {prev : Option Char} (hx : all.Balanced x)
    {a : ArgumentList}
    (h : a ∈ (sitesFrom w.directive p.length prev x).filterMap
      (w.injectedList (p ++ (x ++ q)))) :
    p.length ≤ a.opening ∧ a.closing < p.length + x.length := by
  refine ⟨(extent_of_injectedList h).1, ?_⟩
  obtain ⟨i, hi, ha⟩ := List.mem_filterMap.1 h
  obtain ⟨u, v, rfl, rfl, hcall⟩ := mem_sitesFrom.1 hi
  obtain ⟨g, y, e, z, -, hs⟩ := exists_calls hx.closed.of_append_right hcall
  unfold injectedList at ha
  split at ha
  · obtain ⟨o, hread, -⟩ := ArgumentList.read?_of_calls (p ++ u) (hs.append q)
    have htext : p ++ (u ++ v ++ q) = p ++ u ++ (v ++ q) := by simp
    rw [htext, ← List.length_append, hread] at ha
    rw [← Option.some.inj ha]
    rw [hs.eq]
    simp only [List.length_append, List.length_cons]
    omega
  · cases ha

/-- **Nothing changes outside of the lists of the calls that are marked.** The text before the
suffix `s` is `p`. -/
theorem filled_markFrom (t : Text) (prev : Option Char) (s : Text) :
    ∀ p, p ++ s = t →
      Filled t p.length
        ((sitesFrom w.directive p.length prev s).filterMap (w.injectedList t))
        (w.markFrom prev s) := by
  -- From call to call: a call that is skipped is followed by the text in its list, a call that
  -- is marked by the text behind it, as the lists in its own one are not outermost.
  induction prev, s using call_strong_induction w.directive with
  | nil prev =>
      rintro p rfl
      refine ⟨[], rfl, List.Pairwise.nil, ?_⟩
      rw [fill, List.append_nil, List.drop_length]
      rfl
  | other prev c s hno ih =>
      rintro p rfl
      have hrest := ih (p ++ [c]) (by simp)
      rw [List.length_append] at hrest
      have hsites : sitesFrom w.directive p.length prev (c :: s) =
          sitesFrom w.directive (p.length + 1) (some c) s := by
        rw [sitesFrom, hno]
        rfl
      have hcode : w.markFrom prev (c :: s) = [c] ++ w.markFrom (some c) s := by
        rw [markFrom, hno]
        rfl
      rw [hsites, hcode]
      exact hrest.before rfl fun a ha => (extent_of_injectedList ha).1
  | call prev h k hclear hh ih =>
      rintro p rfl
      have hlen : (p ++ (h ++ ['('])).length = p.length + h.length + 1 := by
        simp only [List.length_append, List.length_cons, List.length_nil]
        omega
      have htext : p ++ (h ++ '(' :: k) = p ++ (h ++ ['(']) ++ k := by simp
      rw [sitesFrom_call hclear hh, List.filterMap_cons]
      obtain ⟨v, s', hv⟩ := w.exists_handled (h ++ '(' :: k)
      have hverdict := hv.verdict_eq p
      cases v with
      | some reason =>
          have hnone : w.injectedList (p ++ (h ++ '(' :: k)) p.length = none := by
            rw [injectedList, hverdict]
            rfl
          have hskip := markFrom_skipped (w := w) hclear hh (k := k)
            (by rw [← verdict_append p, hverdict]; simp)
          have hrest := ih (some '(') k (Nat.le_refl _) (p ++ (h ++ ['('])) htext.symm
          have hsplit : h ++ '(' :: w.markFrom (some '(') k =
              h ++ ['('] ++ w.markFrom (some '(') k := by simp
          rw [hnone, hskip, hsplit, ← hlen]
          rw [List.length_append] at hrest ⊢
          exact hrest.before (htext.trans (List.append_assoc _ _ _))
            fun a ha => (extent_of_injectedList ha).1
      | none =>
          cases hv with
          | @injected g x r c hs hm =>
              obtain ⟨rfl, rfl⟩ := hs.cut hh.not_mem
              obtain ⟨o, hread, -⟩ := ArgumentList.read?_of_calls p hs
              have hsome : w.injectedList (p ++ (g ++ '(' :: (x ++ c :: r))) p.length =
                  some ⟨p.length + g.length, p.length + g.length + 1 + x.length, o⟩ := by
                rw [injectedList, hverdict]
                exact hread
              rw [hsome, sitesFrom_list hs.closing, List.filterMap_append,
                markFrom_injected hclear hh hs.balanced hs.closing hm]
              have hrest := ih (some c) r (by simp; omega) (p ++ (g ++ '(' :: (x ++ [c])))
                (by simp)
              have hend : (p ++ (g ++ '(' :: (x ++ [c]))).length =
                  p.length + g.length + 1 + x.length + 1 := by
                simp only [List.length_append, List.length_cons, List.length_nil]
                omega
              rw [hend] at hrest
              refine Filled.list hrest rfl rfl rfl (fun b hb => ?_) (fun b hb => ?_) _
              · rw [← hlen, htext] at hb
                have hin := extent_inside hs.balanced hb
                rw [hlen] at hin
                exact ⟨by simp only; omega, by simp only; omega⟩
              · have hextent := extent_of_injectedList hb
                exact ⟨by simp only; omega, hextent.2⟩

/-- The lists of the sites that are not reported are the lists of the calls that are marked. -/
theorem filterMap_read?_eq {t : Text} {skipped : List SkippedSite}
    (hskipped : skipped = (callSites w.directive t).filterMap fun i =>
      (w.verdict t i).map (⟨t.byteOffset i, ·⟩)) :
    ((callSites w.directive t).filter fun i =>
        decide (t.byteOffset i ∉ skipped.map SkippedSite.offset)).filterMap
      (ArgumentList.read? t) =
    (callSites w.directive t).filterMap (w.injectedList t) := by
  rw [List.filterMap_filter]
  refine List.filterMap_congr fun i hi => ?_
  have hiff : t.byteOffset i ∈ skipped.map SkippedSite.offset ↔ w.verdict t i ≠ none := by
    rw [hskipped, List.mem_map]
    constructor
    · rintro ⟨⟨_, reason⟩, hmem, rfl⟩
      rw [(mem_skipped_iff hi reason).1 hmem]
      exact Option.some_ne_none reason
    · intro hv
      obtain ⟨reason, hreason⟩ := Option.ne_none_iff_exists'.1 hv
      exact ⟨_, (mem_skipped_iff hi reason).2 hreason, rfl⟩
  rw [injectedList]
  simp only [hiff]
  cases w.verdict t i with
  | none => rfl
  | some reason => rfl

/-- A call that is marked has an argument list. -/
theorem isSome_injectedList (t : Text) (i : Nat) :
    (w.injectedList t i).isSome = (w.verdict t i).isNone := by
  unfold injectedList verdict
  cases ArgumentList.read? t i with
  | none => rfl
  | some a => by_cases hm : isMarked t a w.marker.text = true <;> simp [hm]

/-- **Nothing is lost and nothing changes elsewhere.** Let `t` be the text with its import, and
take the argument lists, as read in `t`, of the call sites that are not reported as skipped.
Cut along the outermost ones of these lists, which follow one another in `t`, the new text
differs from `t` between their brackets only. Up to blanks, it arises from `t` by successive
insertions of a chunk, not more than one for each call that is marked; so no character of the
source but blanks is removed, changed or moved. -/
theorem wire_local_and_lossless (w : Wiring) (source module : Text) :
    let t := ensureImport source module w.marker.text
    let outcome := w.wire source module
    let lists := ((callSites w.directive t).filter fun i =>
      decide (t.byteOffset i ∉ outcome.skipped.map SkippedSite.offset)).filterMap
        (ArgumentList.read? t)
    lists.length = outcome.injected ∧
    (outermost lists).Pairwise (fun a b => a.closing < b.opening) ∧
    t = fill t 0 ((outermost lists).map fun a => (a, a.arguments t)) ∧
    (∃ parts : List (ArgumentList × Text),
      parts.map Prod.fst = outermost lists ∧ outcome.code = fill t 0 parts) ∧
    (∃ n ≤ outcome.injected,
      Insertions w.marker.text n t.withoutBlanks outcome.code.withoutBlanks) ∧
    source.withoutBlanks.Sublist outcome.code.withoutBlanks := by
  intro t outcome lists
  have hlists : lists = (callSites w.directive t).filterMap (w.injectedList t) :=
    filterMap_read?_eq (wire_skipped source module)
  have hfilled : Filled t 0 lists (w.markFrom none t) := by
    rw [hlists, callSites_eq]
    exact filled_markFrom t none t [] rfl
  obtain ⟨parts, houter, hsorted, hfill⟩ := hfilled
  obtain ⟨n, hn, hins⟩ := insertions_foldr (w := w) t (callSites w.directive t)
  have hinjected : n ≤ outcome.injected := hn
  have hinsertions : Insertions w.marker.text n t.withoutBlanks outcome.code.withoutBlanks := hins
  refine ⟨?_, hsorted, ?_, ⟨parts, houter, ?_⟩, ⟨n, hinjected, hinsertions⟩, ?_⟩
  · rw [hlists, List.length_filterMap_eq_countP]
    simp only [isSome_injectedList]
    exact (wire_injected source module).symm
  · have hextent : ∀ a ∈ outermost lists, a.opening < a.closing := by
      intro a ha
      have ha' := (List.mem_filter.1 ha).1
      rw [hlists, callSites_eq] at ha'
      exact (extent_of_injectedList ha').2
    exact (fill_arguments (fun a _ => Nat.zero_le _) hextent hsorted).symm
  · rw [show outcome.code = w.markFrom none t from wire_code source module]
    exact hfill.symm
  · have hsource : source.withoutBlanks.Sublist t.withoutBlanks :=
      (sublist_ensureImport source module w.marker.text).filter _
    exact hsource.trans hinsertions.sublist

end Wiring

end Stylewire
