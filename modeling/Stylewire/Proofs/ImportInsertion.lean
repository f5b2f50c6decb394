import Stylewire.Proofs.Commutation
import Stylewire.Proofs.FileTree
import Stylewire.Proofs.ImportPattern

set_option autoImplicit false

/-! # Adding an import

`ensureImport` adds the import of a stylesheet on a line of its own, behind the last import line.
The scan for bindings then finds it once. It may find it in two ways: at the new line itself, or,
if an import before it is unfinished, as the end of that import. In both cases the scans of the old
and of the new text run in step up to there (`countP_bindingsFrom_insert`), and behind the new line
no import starts.
-/

namespace Stylewire

/-! ## The statement -/

/-- Whether a binding is of exactly this module and has the marker in its clause. -/
def ImportBinding.binds (module marker : Text) (b : ImportBinding) : Bool :=
  b.specifier == module && b.clause.containsToken marker

/-- A token has no identifier character at either end. -/
theorem containsToken_iff (marker : Identifier) {t : Text} :
    t.containsToken marker.text = true ↔
      ∃ u v, t = u ++ (marker.text ++ v) ∧ isClear u.getLast? = true ∧
        isClear v.head? = true := by
  have hmem : t.containsToken marker.text = true ↔ ∃ i, i ∈ t.tokenStarts marker.text := by
    rw [Text.containsToken, Bool.not_eq_true', List.isEmpty_eq_false_iff_exists_mem]
  rw [hmem]
  simp only [Text.mem_tokenStarts marker.text_ne_nil fun _ hc => marker.isIdentChar_of_mem hc]
  constructor
  · rintro ⟨_, u, v, ht, -, hu, hv⟩
    exact ⟨u, v, ht, hu, hv⟩
  · rintro ⟨u, v, ht, hu, hv⟩
    exact ⟨_, u, v, ht, rfl, hu, hv⟩

/-- A marker at the end of a clause, behind a space. -/
theorem containsToken_concat (g : Text) (marker : Identifier) :
    (g ++ ' ' :: marker.text).containsToken marker.text = true := by
  refine (containsToken_iff marker).2 ⟨g ++ [' '], [], by simp, ?_, rfl⟩
  rw [List.getLast?_concat]
  rfl

theorem isBlank_of_isIdentChar {c : Char} (h : isIdentChar c = true) : isBlank c = false := by
  cases hb : isBlank c with
  | false => rfl
  | true =>
      rw [isIdentChar_eq_false_of_isBlank hb] at h
      cases h

/-- A binding whose clause ends with the marker. -/
theorem bindingFrom_marker {module g k : Text} (marker : Identifier) (pos : Nat) (r : Text)
    (hg : ∀ c ∈ g, isQuote c = false) (hk : FromClause k module) :
    ∃ b, bindingFrom [] pos (g ++ ' ' :: (marker.text ++ ' ' :: (k ++ r))) = some b ∧
      b.length = pos + (g ++ ' ' :: (marker.text ++ ' ' :: k)).length ∧
      b.binds module marker.text = true := by
  have hplain : ∀ c ∈ g ++ ' ' :: marker.text ++ [' '], isQuote c = false := by
    intro c hc
    simp only [List.append_assoc, List.cons_append, List.mem_append, List.mem_cons,
      List.not_mem_nil, or_false] at hc
    rcases hc with hc | rfl | hc | rfl
    · exact hg c hc
    · decide
    · exact isQuote_of_isIdentChar (marker.isIdentChar_of_mem hc)
    · decide
  have hclause : Text.trimEnd (g ++ ' ' :: marker.text ++ [' ']) = g ++ ' ' :: marker.text := by
    refine Text.trimEnd_append_blanks (fun c hc => ?_) (List.all_eq_true.1 (by decide))
    obtain ⟨w, e, hw⟩ := (List.eq_nil_or_concat marker.text).resolve_left marker.text_ne_nil
    have hlast : (g ++ ' ' :: marker.text).getLast? = some e := by
      rw [hw, List.concat_eq_append, ← List.cons_append, ← List.append_assoc, List.getLast?_concat]
    obtain rfl := Option.some.inj (hlast.symm.trans hc)
    exact isBlank_of_isIdentChar (marker.isIdentChar_of_mem (by rw [hw]; simp))
  have hword : wordBoundary ((g ++ ' ' :: marker.text ++ [' ']).reverse ++ []).head? = true := by
    rw [List.reverse_concat]
    rfl
  have hread : bindingFrom [] pos (g ++ ' ' :: marker.text ++ [' '] ++ (k ++ r)) =
      some ⟨g ++ ' ' :: marker.text, module,
        pos + (g ++ ' ' :: marker.text ++ [' ']).length + k.length⟩ := by
    rw [bindingFrom_fromClause r hplain hword hk, List.append_nil, ← Text.trimEnd, hclause]
  have hcut : g ++ ' ' :: marker.text ++ [' '] ++ (k ++ r) =
      g ++ ' ' :: (marker.text ++ ' ' :: (k ++ r)) := by simp
  rw [hcut] at hread
  refine ⟨_, hread, ?_, ?_⟩
  · simp only [List.length_append, List.length_cons, List.length_nil]
    omega
  · rw [ImportBinding.binds, containsToken_concat, beq_self_eq_true]
    rfl

section Statement

variable {module : Text} (marker : Identifier) (hne : module ≠ [])
  (hplain : ∀ c ∈ module, isQuote c = false)

include hne hplain

/-- The statement ends with the marker and a from clause of the module. -/
theorem importStatement_eq : ∃ k, FromClause k module ∧
    importStatement module marker.text =
      importWord ++ ([' '] ++ (['*', ' ', 'a', 's'] ++ ' ' :: (marker.text ++ ' ' :: k))) := by
  refine ⟨fromWord ++ ([' '] ++ '\'' :: (module ++ ['\''])), ?_, ?_⟩
  · exact FromClause.mk (List.all_eq_true.1 (by decide)) (by decide) hne hplain (by decide)
  · simp [importStatement]

/-- The statement is a binding, whatever follows it. -/
theorem importBinding?_statement (r : Text) :
    ∃ b, importBinding? (importStatement module marker.text ++ r) = some b ∧
      b.length = (importStatement module marker.text).length ∧
      b.binds module marker.text = true := by
  obtain ⟨k, hk, heq⟩ := importStatement_eq marker hne hplain
  obtain ⟨b, hread, hlen, hbinds⟩ :=
    bindingFrom_marker marker 7 r
      (not_isQuote_of_any (t := ['*', ' ', 'a', 's']) (by decide)) hk
  refine ⟨b, ?_, ?_, hbinds⟩
  · have hcut : importStatement module marker.text ++ r = importWord ++ ([' '] ++
        (['*', ' ', 'a', 's'] ++ ' ' :: (marker.text ++ ' ' :: (k ++ r)))) := by
      rw [heq]
      simp
    have hhead : ∀ c ∈ (['*', ' ', 'a', 's'] ++ ' ' :: (marker.text ++ ' ' :: (k ++ r))).head?,
        isBlank c = false := by
      intro c hc
      obtain rfl := Option.some.inj hc
      decide
    rw [hcut, importBinding?_importWord (List.all_eq_true.1 (by decide)) hhead, if_neg (by simp)]
    exact hread
  · have hsix : importWord.length = 6 := rfl
    rw [hlen, heq]
    simp only [List.length_append, List.length_cons, List.length_nil]
    omega

/-- **An unfinished import takes in the statement** on the next line. -/
theorem importBinding?_unfinished {u : Text} (hu : Unfinished u) (r : Text) :
    ∃ b, importBinding? (u ++ '\n' :: (importStatement module marker.text ++ r)) = some b ∧
      b.length = u.length + 1 + (importStatement module marker.text).length ∧
      b.binds module marker.text = true := by
  obtain ⟨b, w, hcut, hbne, hb, hw, hquote⟩ := hu.exists_cut
  obtain ⟨k, hk, heq⟩ := importStatement_eq marker hne hplain
  have hplain' : ∀ c ∈ w ++ (importWord ++ [' ', '*', ' ', 'a', 's']), isQuote c = false := by
    intro c hc
    rcases List.mem_append.1 hc with hc | hc
    · exact hquote c hc
    · exact not_isQuote_of_any (by decide) c hc
  obtain ⟨x, hread, hlen, hbinds⟩ := bindingFrom_marker marker (6 + b.length) r hplain' hk
  refine ⟨x, ?_, ?_, hbinds⟩
  · have htext : u ++ '\n' :: (importStatement module marker.text ++ r) =
        importWord ++ (b ++ (w ++ (importWord ++ [' ', '*', ' ', 'a', 's']) ++
          ' ' :: (marker.text ++ ' ' :: (k ++ r)))) := by
      calc u ++ '\n' :: (importStatement module marker.text ++ r)
          = u ++ ['\n'] ++ (importStatement module marker.text ++ r) := by simp
        _ = _ := by rw [hcut, heq]; simp
    have hhead : ∀ c ∈ (w ++ (importWord ++ [' ', '*', ' ', 'a', 's']) ++
        ' ' :: (marker.text ++ ' ' :: (k ++ r))).head?, isBlank c = false := by
      cases w with
      | nil =>
          intro c hc
          obtain rfl := Option.some.inj hc
          decide
      | cons a w => exact hw
    rw [htext, importBinding?_importWord hb hhead, if_neg hbne]
    exact hread
  · have hsize := congrArg List.length hcut
    have hsix : importWord.length = 6 := rfl
    rw [hlen, heq]
    simp only [List.length_append, List.length_cons, List.length_nil] at hsize ⊢
    omega

end Statement

/-! ## The scan for bindings -/

/-- The bindings in the rest of a text. The character before it is `prev`, and its first `skip`
characters belong to the binding found last. -/
def bindingsFrom : (skip : Nat) → (prev : Option Char) → Text → List ImportBinding
  | _, _, [] => []
  | skip + 1, _, c :: t => bindingsFrom skip (some c) t
  | 0, prev, c :: t =>
      match if atLineStart prev then importBinding? (c :: t) else none with
      | some b => b :: bindingsFrom (b.length - 1) (some c) t
      | none => bindingsFrom 0 (some c) t

theorem filterMap_findFrom (w t : Text) (skip : Nat) (prev : Option Char) :
    (importBinding.findFrom skip w.length prev t).filterMap
      (fun m => importBinding? ((w ++ t).drop m.start)) = bindingsFrom skip prev t := by
  induction t generalizing w skip prev with
  | nil =>
      cases skip with
      | zero =>
          rw [Recognizer.findFrom, importBinding]
          cases atLineStart prev <;> rfl
      | succ skip => rfl
  | cons c t ih =>
      have hrest := ih (w ++ [c])
      simp only [List.length_append, List.length_cons, List.length_nil, Nat.zero_add,
        List.append_assoc, List.cons_append, List.nil_append] at hrest
      cases skip with
      | succ skip => exact hrest skip (some c)
      | zero =>
          rw [Recognizer.findFrom, bindingsFrom, importBinding]
          cases atLineStart prev with
          | false => exact hrest 0 (some c)
          | true =>
              cases hb : importBinding? (c :: t) with
              | none => exact hrest 0 (some c)
              | some b =>
                  simp [hb, hrest]

theorem importBindings_eq (t : Text) : importBindings t = bindingsFrom 0 none t :=
  filterMap_findFrom [] t 0 none

theorem bindingsFrom_skip (w t : Text) (prev : Option Char) :
    bindingsFrom w.length prev (w ++ t) = bindingsFrom 0 (Text.lastFrom prev w) t := by
  induction w generalizing prev with
  | nil => rfl
  | cons c w ih => exact ih (some c)

theorem bindingsFrom_cons_some {prev : Option Char} {c : Char} {t : Text} {x : ImportBinding}
    (hprev : atLineStart prev = true) (hx : importBinding? (c :: t) = some x) :
    bindingsFrom 0 prev (c :: t) = x :: bindingsFrom (x.length - 1) (some c) t := by
  rw [bindingsFrom, hprev, if_pos rfl, hx]

theorem bindingsFrom_cons_none {prev : Option Char} {c : Char} {t : Text}
    (h : atLineStart prev = true → importBinding? (c :: t) = none) :
    bindingsFrom 0 prev (c :: t) = bindingsFrom 0 (some c) t := by
  rw [bindingsFrom]
  cases hprev : atLineStart prev with
  | false => rfl
  | true =>
      rw [if_pos rfl, h hprev]

section Insertion

variable {module : Text} (marker : Identifier) {b : Text}
  (hfree : ∀ prev, bindingsFrom 0 prev b = [])

include hfree

/-- A binding with no import behind it is the only one. -/
theorem countP_bindingsFrom_last {prev : Option Char} {w : Text} {x : ImportBinding}
    (hprev : atLineStart prev = true) (hw : w ≠ []) (hx : importBinding? (w ++ b) = some x)
    (hlen : x.length = w.length) (hbinds : x.binds module marker.text = true) :
    (bindingsFrom 0 prev (w ++ b)).countP (·.binds module marker.text) = 1 := by
  obtain ⟨c, w, rfl⟩ := List.exists_cons_of_ne_nil hw
  rw [List.cons_append] at hx ⊢
  rw [bindingsFrom_cons_some hprev hx, hlen, List.length_cons, Nat.add_sub_cancel,
    bindingsFrom_skip, hfree, List.countP_singleton, if_pos hbinds]

variable (hne : module ≠ []) (hplain : ∀ c ∈ module, isQuote c = false)

include hne hplain

/-- The statement at the start of a line is found. -/
theorem countP_bindingsFrom_statement {prev : Option Char} (hprev : atLineStart prev = true) :
    (bindingsFrom 0 prev (importStatement module marker.text ++ b)).countP
      (·.binds module marker.text) = 1 := by
  obtain ⟨x, hx, hlen, hbinds⟩ := importBinding?_statement marker hne hplain b
  have hstatement : importStatement module marker.text ≠ [] := by simp [importStatement]
  exact countP_bindingsFrom_last marker hfree hprev hstatement hx hlen hbinds

/-- The statement on the line behind an unfinished import is found as a part of it. -/
theorem countP_bindingsFrom_unfinished {u : Text} (hu : Unfinished u) {prev : Option Char}
    (hprev : atLineStart prev = true) :
    (bindingsFrom 0 prev (u ++ '\n' :: (importStatement module marker.text ++ b))).countP
      (·.binds module marker.text) = 1 := by
  obtain ⟨x, hx, hlen, hbinds⟩ := importBinding?_unfinished marker hne hplain hu b
  have hcut : u ++ '\n' :: (importStatement module marker.text ++ b) =
      u ++ '\n' :: importStatement module marker.text ++ b := by simp
  have hlen' : x.length = (u ++ '\n' :: importStatement module marker.text).length := by
    rw [hlen, List.length_append, List.length_cons]
    omega
  rw [hcut] at hx ⊢
  exact countP_bindingsFrom_last marker hfree hprev (by simp) hx hlen' hbinds

/-- **The statement is found once.** Up to the import that ends with the statement, the bindings of
the new text are those of the old one. -/
theorem countP_bindingsFrom_insert {u : Text} (hclosed : QuotesClosed u) (hb : LineEnd b)
    {skip : Nat} (hskip : skip ≤ u.length) {prev : Option Char}
    (hno : ∀ x ∈ bindingsFrom skip prev (u ++ b), x.binds module marker.text = false) :
    (bindingsFrom skip prev (u ++ '\n' :: (importStatement module marker.text ++ b))).countP
      (·.binds module marker.text) = 1 := by
  induction u generalizing skip prev with
  | nil =>
      obtain rfl : skip = 0 := by simpa using hskip
      have hbreak : importBinding? ('\n' :: (importStatement module marker.text ++ b)) = none := rfl
      rw [List.nil_append, bindingsFrom_cons_none fun _ => hbreak]
      exact countP_bindingsFrom_statement marker hfree hne hplain rfl
  | cons c u ih =>
      have hclosed' : QuotesClosed u := QuotesClosed.of_append_left (u := [c]) hclosed
      cases skip with
      | succ skip => exact ih hclosed' (Nat.le_of_succ_le_succ hskip) hno
      | zero =>
          by_cases hprev : atLineStart prev = true
          · by_cases hu : Unfinished (c :: u)
            · exact countP_bindingsFrom_unfinished marker hfree hne hplain hu hprev
            · -- The import, if there is one, ends on the lines before the statement.
              have hnew := importBinding?_append hclosed
                (lineEnd_newline (importStatement module marker.text ++ b)) hu
              have hold := importBinding?_append hclosed hb hu
              rw [List.cons_append] at hnew hold hno ⊢
              cases hx : importBinding? (c :: u) with
              | none =>
                  rw [hx] at hnew hold
                  rw [bindingsFrom_cons_none fun _ => hold] at hno
                  rw [bindingsFrom_cons_none fun _ => hnew]
                  exact ih hclosed' (Nat.zero_le _) hno
              | some x =>
                  have hle := length_le_of_importBinding? hx
                  rw [hx] at hnew hold
                  rw [bindingsFrom_cons_some hprev hold] at hno
                  rw [bindingsFrom_cons_some hprev hnew,
                    List.countP_cons_of_neg (by rw [hno x (by simp)]; simp)]
                  refine ih hclosed' ?_ fun y hy => hno y (by simp [hy])
                  rw [List.length_cons] at hle
                  omega
          · have hskipped : ∀ t : Text, bindingsFrom 0 prev (c :: t) = bindingsFrom 0 (some c) t :=
              fun t => bindingsFrom_cons_none fun h => absurd h hprev
            rw [List.cons_append, hskipped] at hno ⊢
            exact ih hclosed' (Nat.zero_le _) hno

end Insertion

/-! ## Import lines -/

/-- A place where a pattern matches does not lie behind all matches that are found. -/
theorem exists_mem_findFrom {r : Recognizer} {skip n : Nat} {prev : Option Char} {t u v : Text}
    (pos : Nat) (ht : t = u ++ v) (hr : r (Text.lastFrom prev u) v = some n)
    (hskip : skip ≤ u.length) :
    ∃ m ∈ r.findFrom skip pos prev t, pos + u.length ≤ m.stop := by
  induction t generalizing skip pos prev u with
  | nil =>
      obtain ⟨rfl, rfl⟩ := List.append_eq_nil_iff.1 ht.symm
      obtain rfl : skip = 0 := by simpa using hskip
      rw [Text.lastFrom_nil] at hr
      refine ⟨⟨pos, pos + n⟩, ?_, Nat.le_add_right pos n⟩
      rw [Recognizer.findFrom, hr]
      exact List.mem_singleton.2 rfl
  | cons c t ih =>
      -- The place is the first one, or a place of the rest.
      cases u with
      | nil =>
          obtain rfl : skip = 0 := by simpa using hskip
          obtain rfl : c :: t = v := ht
          rw [Text.lastFrom_nil] at hr
          refine ⟨⟨pos, pos + n⟩, ?_, Nat.le_add_right pos n⟩
          rw [Recognizer.findFrom, hr]
          exact List.mem_cons_self
      | cons a u =>
          obtain ⟨rfl, htail⟩ := List.cons.inj ht
          rw [Text.lastFrom_cons] at hr
          have hrest : ∀ k, k ≤ u.length → ∃ m ∈ r.findFrom k (pos + 1) (some c) t,
              pos + (c :: u).length ≤ m.stop := by
            intro k hk
            obtain ⟨m, hm, hle⟩ := ih (pos + 1) htail hr hk
            refine ⟨m, hm, ?_⟩
            rw [List.length_cons]
            omega
          cases skip with
          | succ skip => exact hrest skip (Nat.le_of_succ_le_succ hskip)
          | zero =>
              rw [Recognizer.findFrom]
              cases hfirst : r prev (c :: t) with
              | none => exact hrest 0 (Nat.zero_le _)
              | some k =>
                  by_cases hk : k - 1 ≤ u.length
                  · obtain ⟨m, hm, hle⟩ := hrest (k - 1) hk
                    exact ⟨m, List.mem_cons_of_mem _ hm, hle⟩
                  · refine ⟨⟨pos, pos + k⟩, List.mem_cons_self, ?_⟩
                    show pos + (u.length + 1) ≤ pos + k
                    omega

theorem exists_lineEnd_cut (t : Text) :
    ∃ l r, t = l ++ r ∧ l = t.takeWhile (· != '\n') ∧ LineEnd r := by
  refine ⟨_, t.dropWhile (· != '\n'), List.takeWhile_append_dropWhile.symm, rfl, ?_⟩
  intro c hc
  have hhead := List.head?_dropWhile_not (· != '\n') t
  rw [Option.mem_def.1 hc] at hhead
  simpa using hhead

/-- An import line is the word, blanks, and the rest of a line. -/
theorem exists_cut_of_importLine {prev : Option Char} {v : Text} {n : Nat}
    (h : importLine prev v = some n) :
    atLineStart prev = true ∧ ∃ b w, v = importWord ++ (b ++ w) ∧ b ≠ [] ∧
      (∀ c ∈ b, isBlank c = true) ∧ (∀ c ∈ w.head?, isBlank c = false) ∧
      n = 6 + b.length + (w.takeWhile (· != '\n')).length := by
  unfold importLine at h
  obtain ⟨hprev, h⟩ := Option.ite_none_right_eq_some.1 h
  obtain ⟨⟨w, k⟩, hafter, rfl⟩ := Option.map_eq_some_iff.1 h
  refine ⟨hprev, ?_⟩
  by_cases hword : ∃ r, v = importWord ++ r
  · obtain ⟨r, rfl⟩ := hword
    obtain ⟨b, w', rfl, hb, hw⟩ := exists_blanks_cut r
    rw [afterImport?_importWord hb hw] at hafter
    obtain ⟨hne, hsome⟩ := Option.ite_none_left_eq_some.1 hafter
    obtain ⟨rfl, rfl⟩ := Prod.mk.inj (Option.some.inj hsome)
    exact ⟨b, _, rfl, hne, hb, hw, rfl⟩
  · rw [afterImport?_eq_none fun r hr => hword ⟨r, hr⟩] at hafter
    cases hafter

/-- An import line ends where a line does. -/
theorem exists_lineEnd_of_importLine {prev : Option Char} {v : Text} {n : Nat}
    (h : importLine prev v = some n) : ∃ l r, v = l ++ r ∧ n = l.length ∧ LineEnd r := by
  obtain ⟨-, b, w, rfl, -, -, -, rfl⟩ := exists_cut_of_importLine h
  obtain ⟨l, r, hcut, hl, hr⟩ := exists_lineEnd_cut w
  refine ⟨importWord ++ (b ++ l), r, ?_, ?_, hr⟩
  · conv => lhs; rw [hcut]
    simp
  · have hsix : importWord.length = 6 := rfl
    rw [List.length_append, List.length_append, hsix, hl]
    omega

/-- The match found last ends last. -/
theorem stop_le_of_getLast? {r : Recognizer} {t : Text} {line : Match}
    (hline : (r.findAll t).getLast? = some line) (hle : line.start ≤ line.stop) :
    ∀ m ∈ r.findAll t, m.stop ≤ line.stop := by
  obtain ⟨init, hinit⟩ := List.getLast?_eq_some_iff.1 hline
  have hpair := r.pairwise_findFrom 0 0 none t
  intro m hm
  rw [hinit] at hm
  rw [← Recognizer.findAll, hinit] at hpair
  rcases List.mem_append.1 hm with hm | hm
  · exact Nat.le_trans ((List.pairwise_append.1 hpair).2.2 m hm line (by simp)) hle
  · obtain rfl := List.mem_singleton.1 hm
    exact Nat.le_refl _

theorem le_length_of_closing? {t : Text} {i j : Nat} (h : Brackets.all.closing? t i = some j) :
    j ≤ t.length := by
  obtain ⟨p, o, x, c, r, rfl, rfl, rfl, -, -, -⟩ := Brackets.closing?_eq_some_iff.1 h
  simp only [List.length_append, List.length_cons]
  omega

/-- **The last import ends at the end of a line**, and no import line goes beyond it. -/
theorem lastImportEnd?_eq_some {t : Text} {i : Nat} (h : lastImportEnd? t = some i) :
    ∃ a b, t = a ++ b ∧ i = a.length ∧ LineEnd b ∧
      ∀ m ∈ importLine.findAll t, m.stop ≤ a.length := by
  unfold lastImportEnd? at h
  obtain ⟨line, hline, h⟩ := Option.bind_eq_some_iff.1 h
  obtain ⟨u, v, n, ht, rfl, hn⟩ := Recognizer.exists_of_mem_findFrom (List.mem_of_getLast? hline)
  obtain ⟨l, r, rfl, rfl, hr⟩ := exists_lineEnd_of_importLine hn
  have hstops := stop_le_of_getLast? hline (Nat.le_add_right _ _)
  rw [Nat.zero_add] at h hstops
  have hstay : some (u.length + l.length) = some i → ∃ a b, t = a ++ b ∧ i = a.length ∧
      LineEnd b ∧ ∀ m ∈ importLine.findAll t, m.stop ≤ a.length := by
    intro hi
    refine ⟨u ++ l, r, by rw [ht]; simp, ?_, hr, fun m hm => ?_⟩
    · rw [← Option.some.inj hi, List.length_append]
    · rw [List.length_append]
      exact hstops m hm
  dsimp only at h
  split at h
  · split at h
    · rename_i last hlast
      split at h
      · rename_i hlate
        -- The import goes on to the line where its brace is closed.
        have hle : last ≤ t.length := le_length_of_closing? hlast
        obtain ⟨l', r', hcut, hl', hr'⟩ := exists_lineEnd_cut (t.drop last)
        have hlen : (t.take last ++ l').length = last + l'.length := by
          rw [List.length_append, List.length_take_of_le hle]
        refine ⟨t.take last ++ l', r', ?_, ?_, hr', fun m hm => ?_⟩
        · rw [List.append_assoc, ← hcut, List.take_append_drop]
        · rw [hlen, hl']
          exact (Option.some.inj h).symm
        · have hstop := hstops m hm
          rw [hlen]
          dsimp only at hstop
          omega
      · exact hstay h
    · exact hstay h
  · exact hstay h

theorem lastImportEnd?_eq_none {t : Text} (h : lastImportEnd? t = none) :
    importLine.findAll t = [] := by
  cases hline : (importLine.findAll t).getLast? with
  | none => exact List.getLast?_eq_none_iff.1 hline
  | some line =>
      unfold lastImportEnd? at h
      rw [hline] at h
      simp only [Option.bind_eq_bind, Option.bind_some] at h
      split at h
      · split at h
        · split at h <;> cases h
        · cases h
      · cases h

/-- A text has no bindings if it has no import lines. -/
theorem bindingsFrom_eq_nil {prev : Option Char} {t : Text}
    (h : ∀ u v, t = u ++ v → importLine (Text.lastFrom prev u) v = none) :
    bindingsFrom 0 prev t = [] := by
  induction t generalizing prev with
  | nil => rfl
  | cons c t ih =>
      have hfirst : atLineStart prev = true → importBinding? (c :: t) = none := by
        intro hprev
        have hline := h [] (c :: t) rfl
        rw [Text.lastFrom_nil, importLine, hprev, if_pos rfl, Option.map_eq_none_iff] at hline
        exact importBinding?_eq_none hline
      rw [bindingsFrom_cons_none hfirst]
      exact ih fun u v ht => h (c :: u) v (by rw [ht]; rfl)

theorem importLine_of_lineEnd {prev : Option Char} {t : Text} (ht : LineEnd t) :
    importLine prev t = none := by
  have hafter : afterImport? t = none := by
    refine afterImport?_eq_none fun r hr => ?_
    obtain ⟨r', hr'⟩ := exists_importWord_of_append (u := []) ht hr
    simp [importWord] at hr'
  rw [importLine, hafter]
  split <;> rfl

/-- Behind all import lines there are no bindings. -/
theorem bindingsFrom_behind {a b : Text} (hb : LineEnd b)
    (hstops : ∀ m ∈ importLine.findAll (a ++ b), m.stop ≤ a.length) (prev : Option Char) :
    bindingsFrom 0 prev b = [] := by
  refine bindingsFrom_eq_nil fun u v hcut => ?_
  cases u with
  | nil =>
      obtain rfl : b = v := hcut
      exact importLine_of_lineEnd hb
  | cons c u =>
      cases hline : importLine (Text.lastFrom prev (c :: u)) v with
      | none => rfl
      | some n =>
          have hplace : importLine (Text.lastFrom none (a ++ c :: u)) v = some n := by
            rw [Text.lastFrom_append]
            exact hline
          have ht : a ++ b = a ++ c :: u ++ v := by rw [hcut]; simp
          obtain ⟨m, hm, hle⟩ := exists_mem_findFrom 0 ht hplace (Nat.zero_le _)
          have hstop := hstops m hm
          simp only [List.length_append, List.length_cons] at hle
          omega

/-- A text without import lines has no bindings, on the lines behind another one either. -/
theorem bindingsFrom_newline {t : Text} (h : importLine.findAll t = []) (prev : Option Char) :
    bindingsFrom 0 prev ('\n' :: t) = [] := by
  refine bindingsFrom_eq_nil fun u v hcut => ?_
  cases u with
  | nil =>
      obtain rfl : '\n' :: t = v := hcut
      exact importLine_of_lineEnd (lineEnd_newline t)
  | cons c u =>
      obtain ⟨rfl, htail⟩ := List.cons.inj hcut
      -- The start of a text and the place behind a line break are both starts of lines.
      have hstart : importLine (Text.lastFrom (some '\n') u) v =
          importLine (Text.lastFrom none u) v := by
        cases u with
        | nil => rfl
        | cons e u => rfl
      rw [Text.lastFrom_cons, hstart]
      cases hline : importLine (Text.lastFrom none u) v with
      | none => rfl
      | some n =>
          obtain ⟨m, hm, -⟩ := exists_mem_findFrom 0 htail hline (Nat.zero_le _)
          rw [← Recognizer.findAll, h] at hm
          cases hm

/-! ## Lines -/

theorem join_split (t : Text) : Text.join ['\n'] (Text.split '\n' t) = t := by
  induction t with
  | nil => rfl
  | cons c t ih =>
      obtain ⟨w, ws, hsplit⟩ := List.exists_cons_of_ne_nil (split_ne_nil '\n' t)
      rw [hsplit] at ih
      rw [Text.split, hsplit]
      by_cases hc : c = '\n'
      · rw [if_pos hc, hc, Text.join, ih]
        rfl
      · rw [if_neg hc, ← ih]
        cases ws <;> rfl

/-- A line put in at the end of another one. -/
theorem split_insert {a b s : Text} (hb : LineEnd b) (hs : '\n' ∉ s) :
    ∃ after, Text.split '\n' (a ++ b) = Text.split '\n' a ++ after ∧
      Text.split '\n' (a ++ '\n' :: (s ++ b)) = Text.split '\n' a ++ s :: after := by
  cases b with
  | nil =>
      refine ⟨[], by simp, ?_⟩
      rw [List.append_nil, split_append, split_of_not_mem hs]
  | cons c b =>
      obtain rfl := hb c rfl
      refine ⟨Text.split '\n' b, split_append _ a b, ?_⟩
      rw [split_append, split_append, split_of_not_mem hs]
      rfl

theorem not_mem_importStatement {module : Text} (marker : Identifier) (h : '\n' ∉ module) :
    '\n' ∉ importStatement module marker.text := by
  have hmarker : '\n' ∉ marker.text := marker.not_mem_text (by decide)
  simp [importStatement, importWord, fromWord, hmarker, h]

/-! ## The text with the import -/

theorem ensureImport_of_lastImportEnd? {t module marker : Text}
    (hno : hasImport t module marker = false) :
    ensureImport t module marker = match lastImportEnd? t with
      | none => importStatement module marker ++ '\n' :: t
      | some i => t.take i ++ '\n' :: (importStatement module marker ++ t.drop i) := by
  rw [ensureImport, addImport?, if_neg (by rw [hno]; exact Bool.false_ne_true)]
  cases lastImportEnd? t with
  | none => simp
  | some i => simp

/-- An import that is not found is put in as one line, and is found once. -/
theorem exists_inserted_line {t module : Text} (marker : Identifier) (hclosed : QuotesClosed t)
    (hne : module ≠ []) (hplain : ∀ c ∈ module, isQuote c = false) (hline : '\n' ∉ module)
    (hno : hasImport t module marker.text = false) :
    ∃ before after, Text.split '\n' t = before ++ after ∧
      Text.split '\n' (ensureImport t module marker.text) =
        before ++ importStatement module marker.text :: after ∧
      (∀ m ∈ importLine.findAll t, m.stop ≤ (Text.join ['\n'] before).length) ∧
      (importBindings (ensureImport t module marker.text)).countP
        (·.binds module marker.text) = 1 := by
  have hstatement := not_mem_importStatement marker hline
  rw [ensureImport_of_lastImportEnd? hno, importBindings_eq]
  cases hlast : lastImportEnd? t with
  | none =>
      have hlines := lastImportEnd?_eq_none hlast
      refine ⟨[], Text.split '\n' t, rfl, ?_, ?_, ?_⟩
      · calc Text.split '\n' (importStatement module marker.text ++ '\n' :: t)
            = Text.split '\n' (importStatement module marker.text) ++ Text.split '\n' t :=
              split_append _ _ _
          _ = importStatement module marker.text :: Text.split '\n' t := by
              rw [split_of_not_mem hstatement, List.singleton_append]
      · intro m hm
        rw [hlines] at hm
        cases hm
      · exact countP_bindingsFrom_statement marker (bindingsFrom_newline hlines) hne hplain rfl
  | some i =>
      obtain ⟨a, b, rfl, rfl, hb, hstops⟩ := lastImportEnd?_eq_some hlast
      obtain ⟨after, hold, hnew⟩ := @split_insert a b _ hb hstatement
      have hno' : ∀ x ∈ bindingsFrom 0 none (a ++ b), x.binds module marker.text = false := by
        intro x hx
        rw [← importBindings_eq] at hx
        exact Bool.eq_false_iff.2 (List.any_eq_false.1 hno x hx)
      simp only [List.take_left, List.drop_left]
      refine ⟨Text.split '\n' a, after, hold, hnew, ?_, ?_⟩
      · rw [join_split]
        exact hstops
      · exact countP_bindingsFrom_insert marker (bindingsFrom_behind hb hstops) hne hplain
          (hclosed.of_append_right hb) hb (Nat.zero_le _) hno'

/-- **The import is there, and once.** Let all quotes behind `from` be closed on their line. Then a
text in which the import is found stays as it is. Otherwise one line is put in, the import of the
module under the marker, no import line ends behind it, and exactly one binding of the new text is
of the module and has the marker. To do the same again changes nothing. -/
theorem ensureImport_binds_once {t module : Text} (marker : Identifier) (hclosed : QuotesClosed t)
    (hne : module ≠ []) (hplain : ∀ c ∈ module, isQuote c = false) (hline : '\n' ∉ module) :
    let t' := ensureImport t module marker.text
    (hasImport t module marker.text = true → t' = t) ∧
      (hasImport t module marker.text = false → ∃ before after,
        Text.split '\n' t = before ++ after ∧
        Text.split '\n' t' = before ++ importStatement module marker.text :: after ∧
        (∀ m ∈ importLine.findAll t, m.stop ≤ (Text.join ['\n'] before).length) ∧
        (importBindings t').countP (·.binds module marker.text) = 1) ∧
      ensureImport t' module marker.text = t' := by
  intro t'
  have hsame : hasImport t module marker.text = true → t' = t := Wiring.ensureImport_eq_self
  have hadded := exists_inserted_line marker hclosed hne hplain hline
  refine ⟨hsame, hadded, Wiring.ensureImport_eq_self ?_⟩
  -- Whether the import was there or has been added, it is found now.
  cases hno : hasImport t module marker.text with
  | true =>
      rw [hsame hno]
      exact hno
  | false =>
      obtain ⟨-, -, -, -, -, hcount⟩ := hadded hno
      have hpos : 0 < (importBindings t').countP (·.binds module marker.text) := by
        rw [hcount]
        exact Nat.one_pos
      exact List.any_eq_true.2 (List.countP_pos_iff.1 hpos)

/-- An import without a quote, and one whose brace is closed on a later line. -/
def scatteredImports : Text :=
  "import a\nimport \x7b\n  b, c\n\x7d from \"./x\"\nuse('from', 'b')\n".toList

theorem ensureImport_binds_once_scatteredImports :
    let module := "./d.css".toList
    let t' := ensureImport scatteredImports module Identifier.styles.text
    QuotesClosed scatteredImports ∧ module ≠ [] ∧ (∀ c ∈ module, isQuote c = false) ∧
      '\n' ∉ module ∧ hasImport scatteredImports module Identifier.styles.text = false ∧
      (importBindings t').countP (·.binds module Identifier.styles.text) = 1 ∧
      ensureImport t' module Identifier.styles.text = t' := by
  intro module t'
  have hclosed : QuotesClosed scatteredImports := by decide +kernel
  have hne : module ≠ [] := by decide
  have hplain : ∀ c ∈ module, isQuote c = false := not_isQuote_of_any (by decide)
  have hline : '\n' ∉ module := by decide
  have hno : hasImport scatteredImports module Identifier.styles.text = false := by decide +kernel
  obtain ⟨-, hadded, hagain⟩ := ensureImport_binds_once .styles hclosed hne hplain hline
  obtain ⟨-, -, -, -, -, hcount⟩ := hadded hno
  exact ⟨hclosed, hne, hplain, hline, hno, hcount, hagain⟩

end Stylewire
