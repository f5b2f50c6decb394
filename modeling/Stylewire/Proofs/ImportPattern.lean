import Stylewire.ImportLine
import Stylewire.Proofs.CallSite

set_option autoImplicit false

/-! # The two import patterns

What the patterns of imports match, told by ways to cut a text. A binding ends with a from clause,
`from 'specifier'` (`FromClause`), and no quote stands before that clause. So a text is scanned up
to its first quote only: if nothing but blanks stands between `from` and that quote, the binding
ends there, and otherwise there is none.

This makes a scan depend on little of what follows it. If all quotes behind `from` are closed on
their line (`QuotesClosed`), the text behind a line is read only if the line starts an import and
has no quote (`Unfinished`, `importBinding?_append`). Such an import goes on to the next from clause
(`bindingFrom_fromClause`).
-/

namespace Stylewire

/-! ## The first quote -/

/-- A text is cut at its first character of a kind in one way. -/
theorem Text.cut_first {p : Char → Bool} {a a' b b' : Text} {x x' : Char}
    (ha : ∀ c ∈ a, p c = false) (hx : p x = true) (ha' : ∀ c ∈ a', p c = false)
    (hx' : p x' = true) (h : a ++ x :: b = a' ++ x' :: b') : a = a' ∧ x = x' ∧ b = b' := by
  induction a generalizing a' with
  | nil =>
      cases a' with
      | nil =>
          obtain ⟨rfl, rfl⟩ := List.cons.inj h
          exact ⟨rfl, rfl, rfl⟩
      | cons c a' =>
          obtain ⟨rfl, -⟩ := List.cons.inj h
          rw [ha' x (by simp)] at hx
          cases hx
  | cons c a ih =>
      cases a' with
      | nil =>
          obtain ⟨rfl, -⟩ := List.cons.inj h
          rw [ha c (by simp)] at hx'
          cases hx'
      | cons c' a' =>
          obtain ⟨rfl, hrest⟩ := List.cons.inj h
          obtain ⟨rfl, rfl, rfl⟩ := ih (fun e he => ha e (by simp [he]))
            (fun e he => ha' e (by simp [he])) hrest
          exact ⟨rfl, rfl, rfl⟩

/-- A text that holds a quote is cut at the first one. -/
theorem exists_first_quote {t : Text} (h : ∃ c ∈ t, isQuote c = true) :
    ∃ g q r, t = g ++ q :: r ∧ (∀ c ∈ g, isQuote c = false) ∧ isQuote q = true := by
  obtain ⟨q, hfind⟩ := Option.isSome_iff_exists.1 (List.find?_isSome.2 h)
  obtain ⟨hq, g, r, rfl, hg⟩ := List.find?_eq_some_iff_append.1 hfind
  refine ⟨g, q, r, rfl, fun c hc => ?_, hq⟩
  have := hg c hc
  simpa using this

theorem isBlank_of_isQuote {q : Char} (h : isQuote q = true) : isBlank q = false := by
  simp only [isQuote, Bool.or_eq_true, beq_iff_eq] at h
  rcases h with rfl | rfl <;> decide

theorem isQuote_of_isBlank {c : Char} (h : isBlank c = true) : isQuote c = false := by
  cases hq : isQuote c with
  | false => rfl
  | true =>
      rw [isBlank_of_isQuote hq] at h
      cases h

theorem isQuote_of_isIdentChar {c : Char} (h : isIdentChar c = true) : isQuote c = false := by
  cases hq : isQuote c with
  | false => rfl
  | true =>
      simp only [isQuote, Bool.or_eq_true, beq_iff_eq] at hq
      rcases hq with rfl | rfl <;> revert h <;> decide

/-- The check that a text has no quotes. -/
theorem not_isQuote_of_any {t : Text} (h : t.any isQuote = false) : ∀ c ∈ t, isQuote c = false :=
  fun c hc => Bool.eq_false_iff.2 (List.any_eq_false.1 h c hc)

/-! ## From clauses -/

/-- The texts `from 'specifier'`, with any number of blanks before the quotes. -/
inductive FromClause : (k specifier : Text) → Prop
  | mk {b s : Text} {q e : Char} (hb : ∀ c ∈ b, isBlank c = true) (hq : isQuote q = true)
      (hs : s ≠ []) (hplain : ∀ c ∈ s, isQuote c = false) (he : isQuote e = true) :
      FromClause (fromWord ++ (b ++ q :: (s ++ [e]))) s

/-- Up to its first quote, a from clause is `from` and blanks. -/
theorem forall_not_isQuote_fromWord {b : Text} (hb : ∀ c ∈ b, isBlank c = true) :
    ∀ c ∈ fromWord ++ b, isQuote c = false := by
  intro c hc
  rcases List.mem_append.1 hc with hc | hc
  · exact not_isQuote_of_any (by decide) c hc
  · exact isQuote_of_isBlank (hb c hc)

theorem takeWhile_not_isQuote {s r : Text} {e : Char} (hs : ∀ c ∈ s, isQuote c = false)
    (he : isQuote e = true) : (s ++ e :: r).takeWhile (!isQuote ·) = s := by
  rw [List.takeWhile_append_of_pos fun c hc => by simp [hs c hc]]
  simp [he]

/-- A specifier that ends before its text does is followed by a quote. -/
theorem exists_quote_behind {u : Text} (h : (u.takeWhile (!isQuote ·)).length < u.length) :
    ∃ s e v, u = s ++ e :: v ∧ (∀ c ∈ s, isQuote c = false) ∧ isQuote e = true := by
  apply exists_first_quote
  refine Classical.byContradiction fun hno => ?_
  have hall : ∀ c ∈ u, (!isQuote c) = true := by
    intro c hc
    cases hq : isQuote c with
    | false => rfl
    | true => exact absurd ⟨c, hc, hq⟩ hno
  have hself : (u ++ []).takeWhile (!isQuote ·) = u ++ [].takeWhile (!isQuote ·) :=
    List.takeWhile_append_of_pos hall
  rw [List.takeWhile_nil, List.append_nil] at hself
  rw [hself] at h
  exact Nat.lt_irrefl _ h

/-- A from clause is read wherever it stands, and nothing else is. -/
theorem fromClause?_eq_some_iff {t s : Text} {n : Nat} :
    fromClause? t = some (s, n) ↔ ∃ k r, t = k ++ r ∧ FromClause k s ∧ n = k.length := by
  constructor
  · intro h
    obtain ⟨r, hr, hread⟩ := Option.bind_eq_some_iff.1 h
    obtain rfl := stripWord_eq_some_iff.1 hr
    obtain ⟨b, hcut, hlen, hb⟩ := Text.eq_blanks_append r
    split at hread
    · rename_i q u hdrop
      obtain ⟨hcond, hsome⟩ := Option.ite_none_right_eq_some.1 hread
      simp only [Bool.and_eq_true, Bool.not_eq_true', List.isEmpty_eq_false_iff,
        decide_eq_true_eq] at hcond
      obtain ⟨⟨hq, hne⟩, hlt⟩ := hcond
      obtain ⟨s', e, v, rfl, hplain, he⟩ := exists_quote_behind hlt
      rw [takeWhile_not_isQuote hplain he] at hsome hne
      obtain ⟨rfl, rfl⟩ := Prod.mk.inj (Option.some.inj hsome)
      refine ⟨_, v, ?_, FromClause.mk hb hq hne hplain he, ?_⟩
      · rw [hcut, hdrop]
        simp
      · simp only [List.length_append, List.length_cons, List.length_nil, fromWord, hlen]
        omega
    · cases hread
  · rintro ⟨_, r, rfl, ⟨hb, hq, hs, hplain, he⟩, rfl⟩
    rename_i b q e
    have hstrip : stripWord fromWord (fromWord ++ (b ++ q :: (s ++ [e])) ++ r) =
        some (b ++ q :: (s ++ e :: r)) := by
      rw [stripWord_eq_some_iff]
      simp
    have hlt : s.length < (s ++ e :: r).length := by simp
    simp only [fromClause?, hstrip, Option.bind_eq_bind, Option.bind_some,
      Text.blanks_append_cons hb (isBlank_of_isQuote hq), List.drop_left,
      takeWhile_not_isQuote hplain he, hq, List.isEmpty_eq_false_iff.2 hs, hlt, Bool.not_false,
      Bool.and_true, decide_true, if_true]
    simp only [Option.some.injEq, Prod.mk.injEq, true_and, List.length_append, List.length_cons,
      List.length_nil, fromWord]
    omega

/-- The first quote of a from clause is that of every text which starts with the clause. -/
theorem FromClause.first_quote {k s g v r : Text} {q : Char} (hk : FromClause k s)
    (hg : ∀ c ∈ g, isQuote c = false) (hq : isQuote q = true) (h : g ++ q :: v = k ++ r) :
    ∃ b e, g = fromWord ++ b ∧ (∀ c ∈ b, isBlank c = true) ∧ s ≠ [] ∧
      (∀ c ∈ s, isQuote c = false) ∧ isQuote e = true ∧ k = g ++ q :: (s ++ [e]) ∧
      v = s ++ e :: r := by
  obtain ⟨hb, hq', hs, hplain, he⟩ := hk
  rename_i b q' e
  have heq : g ++ q :: v = (fromWord ++ b) ++ q' :: (s ++ e :: r) := by
    rw [h]
    simp
  obtain ⟨rfl, rfl, rfl⟩ := Text.cut_first hg hq (forall_not_isQuote_fromWord hb) hq' heq
  exact ⟨b, e, rfl, hb, hs, hplain, he, by simp, rfl⟩

/-- No from clause starts before another one without a quote in between. -/
theorem fromClause?_before {v k s r : Text} (hv : v ≠ []) (hplain : ∀ c ∈ v, isQuote c = false)
    (hk : FromClause k s) : fromClause? (v ++ (k ++ r)) = none := by
  cases hread : fromClause? (v ++ (k ++ r)) with
  | none => rfl
  | some x =>
      obtain ⟨k', r', heq, hk', -⟩ := fromClause?_eq_some_iff.1 hread
      obtain ⟨hb, hq, -, -, -⟩ := hk
      rename_i b q e
      have hg : ∀ c ∈ v ++ (fromWord ++ b), isQuote c = false := by
        intro c hc
        rcases List.mem_append.1 hc with hc | hc
        · exact hplain c hc
        · exact forall_not_isQuote_fromWord hb c hc
      have heq' : v ++ (fromWord ++ b) ++ q :: (s ++ e :: r) = k' ++ r' := by
        rw [← heq]
        simp
      obtain ⟨b', -, hcut, hblanks, -⟩ := hk'.first_quote hg hq heq'
      -- The `m` of the later `from` would be one of the blanks behind the earlier one.
      have hlen : 4 ≤ (v ++ ['f', 'r', 'o']).length := by
        have := List.length_pos_iff.2 hv
        simp only [List.length_append, List.length_cons, List.length_nil]
        omega
      have hm : 'm' ∈ b' := by
        have hdrop : b' = ((v ++ ['f', 'r', 'o']) ++ 'm' :: b).drop 4 := by
          calc b' = (fromWord ++ b').drop 4 := rfl
            _ = (v ++ (fromWord ++ b)).drop 4 := by rw [hcut]
            _ = ((v ++ ['f', 'r', 'o']) ++ 'm' :: b).drop 4 := by simp [fromWord]
        rw [hdrop, List.drop_append_of_le_length hlen]
        simp
      have hblank : isBlank 'm' = false := by decide
      rw [hblanks 'm' hm] at hblank
      cases hblank

/-! ## Quotes closed on their line -/

/-- Every quote behind `from`, blanks in between allowed, is followed by another quote on the same
line. -/
def QuotesClosed (t : Text) : Prop :=
  ∀ u b v q, t = u ++ (fromWord ++ (b ++ q :: v)) → (∀ c ∈ b, isBlank c = true) →
    isQuote q = true → ∃ c ∈ v.takeWhile (· != '\n'), isQuote c = true

/-- The test of `QuotesClosed` at the start of a text. -/
def closedHere (t : Text) : Bool :=
  match stripWord fromWord t with
  | none => true
  | some r => match r.drop r.blanks with
    | [] => true
    | q :: v => !isQuote q || (v.takeWhile (· != '\n')).any isQuote

theorem closedHere_iff {t : Text} : closedHere t = true ↔
    ∀ b v q, t = fromWord ++ (b ++ q :: v) → (∀ c ∈ b, isBlank c = true) → isQuote q = true →
      ∃ c ∈ v.takeWhile (· != '\n'), isQuote c = true := by
  unfold closedHere
  constructor
  · rintro h b v q rfl hb hq
    rw [stripWord_eq_some_iff.2 rfl] at h
    simp only [Text.blanks_append_cons hb (isBlank_of_isQuote hq), List.drop_left, hq,
      Bool.not_true, Bool.false_or, List.any_eq_true] at h
    exact h
  · intro h
    split
    · rfl
    · rename_i r hr
      obtain rfl := stripWord_eq_some_iff.1 hr
      obtain ⟨b, hcut, -, hb⟩ := Text.eq_blanks_append r
      split
      · rfl
      · rename_i q v hdrop
        rw [hdrop] at hcut
        cases hq : isQuote q with
        | false => rfl
        | true =>
            rw [Bool.not_true, Bool.false_or, List.any_eq_true]
            exact h b v q (by rw [← hcut]) hb hq

/-- The test of `QuotesClosed` at all places of a text. -/
def closedEverywhere : Text → Bool
  | [] => true
  | c :: t => closedHere (c :: t) && closedEverywhere t

theorem closedEverywhere_iff {t : Text} : closedEverywhere t = true ↔ QuotesClosed t := by
  induction t with
  | nil =>
      refine iff_of_true rfl fun u b v q h => ?_
      have := congrArg List.length h
      simp [fromWord] at this
  | cons c t ih =>
      rw [closedEverywhere, Bool.and_eq_true, closedHere_iff, ih]
      constructor
      · rintro ⟨hhere, hrest⟩ u b v q h hb hq
        cases u with
        | nil => exact hhere b v q h hb hq
        | cons a u =>
            obtain ⟨-, htail⟩ := List.cons.inj h
            exact hrest u b v q htail hb hq
      · intro h
        refine ⟨fun b v q ht hb hq => h [] b v q ht hb hq, fun u b v q ht hb hq => ?_⟩
        exact h (c :: u) b v q (by rw [ht]; rfl) hb hq

instance (t : Text) : Decidable (QuotesClosed t) := decidable_of_iff _ closedEverywhere_iff

/-- The texts that may stand behind a line: nothing, or a line break and more. -/
def LineEnd (t : Text) : Prop := ∀ c ∈ t.head?, c = '\n'

theorem lineEnd_newline (t : Text) : LineEnd ('\n' :: t) :=
  fun _ hc => (Option.some.inj hc).symm

theorem takeWhile_append_lineEnd (u : Text) {v : Text} (hv : LineEnd v) :
    (u ++ v).takeWhile (· != '\n') = u.takeWhile (· != '\n') := by
  induction u with
  | nil =>
      cases v with
      | nil => rfl
      | cons a v =>
          obtain rfl := hv a rfl
          rfl
  | cons a u ih => rw [List.cons_append, List.takeWhile_cons, List.takeWhile_cons, ih]

theorem QuotesClosed.of_append_left {u v : Text} (h : QuotesClosed (u ++ v)) : QuotesClosed v := by
  intro w b r q hv hb hq
  exact h (u ++ w) b r q (by rw [hv]; simp) hb hq

/-- The closing quotes of a line do not stand behind it. -/
theorem QuotesClosed.of_append_right {u v : Text} (h : QuotesClosed (u ++ v)) (hv : LineEnd v) :
    QuotesClosed u := by
  rintro w b r q rfl hb hq
  obtain ⟨c, hc, hquote⟩ := h w b (r ++ v) q (by simp) hb hq
  refine ⟨c, ?_, hquote⟩
  rw [← takeWhile_append_lineEnd r hv]
  exact hc

/-- The text behind a quote whose partner is on the line is not read. -/
theorem fromClause?_append {v x : Text} (hclosed : QuotesClosed v)
    (hv : ∃ c ∈ v, isQuote c = true) : fromClause? (v ++ x) = fromClause? v := by
  obtain ⟨g, q, v', rfl, hg, hq⟩ := exists_first_quote hv
  apply Option.ext
  rintro ⟨s, n⟩
  rw [fromClause?_eq_some_iff, fromClause?_eq_some_iff]
  constructor
  · rintro ⟨k, r, heq, hk, hn⟩
    have heq' : g ++ q :: (v' ++ x) = k ++ r := by
      rw [← heq]
      simp
    obtain ⟨b, e, rfl, hb, -, hplain, he, hcut, hrest⟩ := hk.first_quote hg hq heq'
    obtain ⟨c, hc, hquote⟩ := hclosed [] b v' q (by simp) hb hq
    obtain ⟨s', e', w, rfl, hplain', he'⟩ :=
      exists_first_quote ⟨c, (List.takeWhile_sublist _).subset hc, hquote⟩
    rw [List.append_assoc, List.cons_append] at hrest
    obtain ⟨rfl, rfl, -⟩ := Text.cut_first hplain' he' hplain he hrest
    exact ⟨k, w, by rw [hcut]; simp, hk, hn⟩
  · rintro ⟨k, r, heq, hk, hn⟩
    exact ⟨k, r ++ x, by rw [heq]; simp, hk, hn⟩

/-! ## Bindings -/

theorem FromClause.ne_nil {k s : Text} (hk : FromClause k s) : k ≠ [] := by
  obtain ⟨-, -, -, -, -⟩ := hk
  simp [fromWord]

/-- Without a quote in between, a binding goes on to the next from clause. -/
theorem bindingFrom_fromClause {read g k s : Text} {pos : Nat} (r : Text)
    (hg : ∀ c ∈ g, isQuote c = false) (hword : wordBoundary (g.reverse ++ read).head? = true)
    (hk : FromClause k s) :
    bindingFrom read pos (g ++ (k ++ r)) =
      some ⟨((g.reverse ++ read).dropWhile isBlank).reverse, s, pos + g.length + k.length⟩ := by
  induction g generalizing read pos with
  | nil =>
      have hread : fromClause? (k ++ r) = some (s, k.length) :=
        fromClause?_eq_some_iff.2 ⟨k, r, rfl, hk, rfl⟩
      rw [List.reverse_nil, List.nil_append] at hword
      cases hcut : k ++ r with
      | nil => exact absurd (List.append_eq_nil_iff.1 hcut).1 hk.ne_nil
      | cons c t =>
          rw [hcut] at hread
          rw [List.nil_append, bindingFrom, hread, hword]
          rfl
  | cons c g ih =>
      have hnone : fromClause? (c :: (g ++ (k ++ r))) = none :=
        fromClause?_before (List.cons_ne_nil c g) hg hk
      rw [List.reverse_cons, List.append_assoc] at hword
      have hrest := @ih (c :: read) (pos + 1) (fun e he => hg e (by simp [he])) hword
      have hlen : pos + (c :: g).length + k.length = pos + 1 + g.length + k.length := by
        rw [List.length_cons]
        omega
      rw [List.cons_append, bindingFrom, hnone, Option.filter_none, hg c (by simp), hlen,
        List.reverse_cons, List.append_assoc]
      exact hrest

/-- The text behind a quote is not read. -/
theorem bindingFrom_append {v x : Text} (read : Text) (pos : Nat) (hclosed : QuotesClosed v)
    (hv : ∃ c ∈ v, isQuote c = true) : bindingFrom read pos (v ++ x) = bindingFrom read pos v := by
  induction v generalizing read pos with
  | nil =>
      obtain ⟨c, hc, -⟩ := hv
      cases hc
  | cons c v ih =>
      have hfrom : fromClause? (c :: (v ++ x)) = fromClause? (c :: v) :=
        fromClause?_append hclosed hv
      rw [List.cons_append, bindingFrom, bindingFrom, hfrom]
      split
      · rfl
      · cases hc : isQuote c with
        | true => rfl
        | false =>
            have hv' : ∃ e ∈ v, isQuote e = true := by
              obtain ⟨e, he, hquote⟩ := hv
              rcases List.mem_cons.1 he with rfl | he
              · rw [hc] at hquote
                cases hquote
              · exact ⟨e, he, hquote⟩
            have hclosed' : QuotesClosed v := QuotesClosed.of_append_left (u := [c]) hclosed
            exact ih (c :: read) (pos + 1) hclosed' hv'

/-- A binding lies in the text it is read from. -/
theorem length_le_of_bindingFrom {read t : Text} {pos : Nat} {b : ImportBinding}
    (h : bindingFrom read pos t = some b) : b.length ≤ pos + t.length := by
  induction t generalizing read pos with
  | nil => cases h
  | cons c t ih =>
      rw [bindingFrom] at h
      split at h
      · rename_i s n hfilter
        obtain ⟨hread, -⟩ := Option.filter_eq_some_iff.1 hfilter
        obtain ⟨k, r, heq, -, rfl⟩ := fromClause?_eq_some_iff.1 hread
        obtain rfl := Option.some.inj h
        rw [heq, List.length_append]
        show pos + k.length ≤ pos + (k.length + r.length)
        omega
      · split at h
        · cases h
        · have hle := ih h
          rw [List.length_cons]
          omega

/-! ## Imports at the start of a text -/

/-- A text is cut behind the blanks at its start. -/
theorem exists_blanks_cut (r : Text) :
    ∃ b w, r = b ++ w ∧ (∀ c ∈ b, isBlank c = true) ∧ ∀ c ∈ w.head?, isBlank c = false := by
  refine ⟨r.takeWhile isBlank, r.dropWhile isBlank, ?_, ?_, ?_⟩
  · exact (List.takeWhile_append_dropWhile).symm
  · exact List.all_eq_true.1 List.all_takeWhile
  · intro c hc
    have hhead := List.head?_dropWhile_not isBlank r
    rw [Option.mem_def.1 hc] at hhead
    exact hhead

theorem blanks_append {b t : Text} (hb : ∀ c ∈ b, isBlank c = true)
    (ht : ∀ c ∈ t.head?, isBlank c = false) : (b ++ t).blanks = b.length := by
  cases t with
  | nil =>
      have hall : (b ++ []).takeWhile isBlank = b ++ [].takeWhile isBlank :=
        List.takeWhile_append_of_pos hb
      rw [Text.blanks, hall]
      simp
  | cons a t => exact Text.blanks_append_cons hb (ht a rfl)

/-- What stands behind `import` is read if blanks come first. -/
theorem afterImport?_importWord {b w : Text} (hb : ∀ c ∈ b, isBlank c = true)
    (hw : ∀ c ∈ w.head?, isBlank c = false) :
    afterImport? (importWord ++ (b ++ w)) = if b = [] then none else some (w, b.length) := by
  have hstrip : stripWord importWord (importWord ++ (b ++ w)) = some (b ++ w) :=
    stripWord_eq_some_iff.2 rfl
  unfold afterImport?
  rw [hstrip]
  simp only [Option.bind_eq_bind, Option.bind_some, blanks_append hb hw, List.drop_left]
  by_cases hnil : b = []
  · rw [if_pos hnil, hnil]
    rfl
  · rw [if_neg hnil, if_pos (List.length_pos_iff.2 hnil)]

theorem importBinding?_importWord {b w : Text} (hb : ∀ c ∈ b, isBlank c = true)
    (hw : ∀ c ∈ w.head?, isBlank c = false) :
    importBinding? (importWord ++ (b ++ w)) =
      if b = [] then none else bindingFrom [] (6 + b.length) w := by
  rw [importBinding?, afterImport?_importWord hb hw]
  split
  · rfl
  · rfl

theorem afterImport?_eq_none {t : Text} (h : ∀ r, t ≠ importWord ++ r) : afterImport? t = none := by
  unfold afterImport?
  cases hstrip : stripWord importWord t with
  | none => rfl
  | some r => exact absurd (stripWord_eq_some_iff.1 hstrip) (h r)

theorem importBinding?_eq_none {t : Text} (h : afterImport? t = none) :
    importBinding? t = none := by
  rw [importBinding?, h]
  rfl

/-- A binding lies in the text it is read from. -/
theorem length_le_of_importBinding? {t : Text} {b : ImportBinding}
    (h : importBinding? t = some b) : b.length ≤ t.length := by
  by_cases hword : ∃ r, t = importWord ++ r
  · obtain ⟨r, rfl⟩ := hword
    obtain ⟨b, w, rfl, hb, hw⟩ := exists_blanks_cut r
    rw [importBinding?_importWord hb hw] at h
    obtain ⟨-, hread⟩ := Option.ite_none_left_eq_some.1 h
    have hle := length_le_of_bindingFrom hread
    have hlen : importWord.length = 6 := rfl
    rw [List.length_append, List.length_append, hlen]
    omega
  · rw [importBinding?_eq_none (afterImport?_eq_none fun r hr => hword ⟨r, hr⟩)] at h
    cases h

/-- The word `import` does not go on behind the line. -/
theorem exists_importWord_of_append {u x r : Text} (hx : LineEnd x) (h : u ++ x = importWord ++ r) :
    ∃ r', u = importWord ++ r' := by
  rcases List.append_eq_append_iff.1 h with ⟨w, hw, hx'⟩ | ⟨w, hw, -⟩
  · cases w with
    | nil => exact ⟨[], by rw [hw]; simp⟩
    | cons c w =>
        have hc : c = '\n' := hx c (by rw [hx']; rfl)
        have hmem : '\n' ∈ importWord := by rw [hw, hc]; simp
        exact absurd hmem (by decide)
  · exact ⟨w, hw⟩

/-- A line that starts with an import and has no quote behind it. -/
def Unfinished (u : Text) : Prop :=
  ∃ r, u = importWord ++ r ∧ (∀ c ∈ r.head?, isBlank c = true) ∧ ∀ c ∈ r, isQuote c = false

/-- The line break behind an unfinished import is one of the blanks behind `import`, or it is part
of the clause. -/
theorem Unfinished.exists_cut {u : Text} (hu : Unfinished u) :
    ∃ b w, u ++ ['\n'] = importWord ++ (b ++ w) ∧ b ≠ [] ∧ (∀ c ∈ b, isBlank c = true) ∧
      (∀ c ∈ w.head?, isBlank c = false) ∧ ∀ c ∈ w, isQuote c = false := by
  obtain ⟨r, rfl, hfirst, hquote⟩ := hu
  obtain ⟨b, w, hcut, hb, hw⟩ := exists_blanks_cut (r ++ ['\n'])
  have hhead : ∃ e, (r ++ ['\n']).head? = some e ∧ isBlank e = true := by
    cases r with
    | nil => exact ⟨'\n', rfl, by decide⟩
    | cons e r => exact ⟨e, rfl, hfirst e rfl⟩
  refine ⟨b, w, by rw [List.append_assoc, hcut], ?_, hb, hw, ?_⟩
  · rintro rfl
    obtain ⟨e, he, hblank⟩ := hhead
    rw [hcut, List.nil_append] at he
    rw [hw e he] at hblank
    cases hblank
  · intro c hc
    have hmem : c ∈ r ++ ['\n'] := by rw [hcut]; simp [hc]
    rcases List.mem_append.1 hmem with hmem | hmem
    · exact hquote c hmem
    · obtain rfl := List.mem_singleton.1 hmem
      decide

/-- **Only an unfinished import reads on behind its line.** -/
theorem importBinding?_append {u x : Text} (hclosed : QuotesClosed u) (hx : LineEnd x)
    (hu : ¬ Unfinished u) : importBinding? (u ++ x) = importBinding? u := by
  by_cases hword : ∃ r, u = importWord ++ r
  · obtain ⟨r, rfl⟩ := hword
    obtain ⟨b, w, rfl, hb, hw⟩ := exists_blanks_cut r
    cases w with
    | nil =>
        -- Blanks only: the import is unfinished.
        refine absurd ⟨b, by rw [List.append_nil], ?_, ?_⟩ hu
        · exact fun c hc => hb c (List.mem_of_mem_head? hc)
        · exact fun c hc => isQuote_of_isBlank (hb c hc)
    | cons a w =>
        have hsame : importWord ++ (b ++ a :: w) ++ x = importWord ++ (b ++ (a :: w ++ x)) := by
          simp
        have hw' : ∀ c ∈ (a :: w ++ x).head?, isBlank c = false := hw
        rw [hsame, importBinding?_importWord hb hw', importBinding?_importWord hb hw]
        by_cases hnil : b = []
        · rw [if_pos hnil, if_pos hnil]
        · have hquote : ∃ c ∈ a :: w, isQuote c = true := by
            refine Classical.byContradiction fun hno => hu ⟨b ++ a :: w, rfl, ?_, ?_⟩
            · intro c hc
              obtain ⟨e, b', rfl⟩ := List.exists_cons_of_ne_nil hnil
              obtain rfl := Option.some.inj hc
              exact hb e (by simp)
            · intro c hc
              rcases List.mem_append.1 hc with hc | hc
              · exact isQuote_of_isBlank (hb c hc)
              · exact Bool.eq_false_iff.2 fun hq => hno ⟨c, hc, hq⟩
          have hclosed' : QuotesClosed (a :: w) := by
            rw [← List.append_assoc] at hclosed
            exact hclosed.of_append_left
          rw [if_neg hnil, if_neg hnil, bindingFrom_append _ _ hclosed' hquote]
  · have hword' : ∀ r, u ++ x ≠ importWord ++ r := fun r hr =>
      hword (exists_importWord_of_append hx hr)
    rw [importBinding?_eq_none (afterImport?_eq_none hword'),
      importBinding?_eq_none (afterImport?_eq_none fun r hr => hword ⟨r, hr⟩)]

end Stylewire
