import Stylewire.Proofs.ByteText
import Stylewire.Proofs.ImportInsertion
import Stylewire.Proofs.SingleEntry

set_option autoImplicit false

/-! # The names in an import clause

A statement `import clause from 'module'` binds the names in its clause: a default name, a name for
the whole module (`* as name`), and names in braces, which may be renamed (`name as local`). Here
the statements are given with all the layouts they can have (`ImportForm`), and their texts are
compared with what is found in them. The names are identifiers: a name in quotes
(`{ "name" as local }`) is none of the forms.

The scan reads every such statement as one binding (`ImportForm.importBindings_eq`). It then looks
for the marker among all the words of the clause (`ImportClause.containsToken_eq`), and does not
tell the names that are bound from the names they have in the module. So in a clause of names
without quotes a marker that is bound is found, and so is one that is only renamed to something else
(`hasImport_form_iff`). A clause with a name in quotes is not read to its end, and a marker that it
binds is not found.
-/

namespace Stylewire

/-! ## Tokens of a text -/

section Tokens

variable (marker : Identifier)

theorem containsToken_nil : Text.containsToken [] marker.text = false := by
  rw [← Bool.not_eq_true, containsToken_iff]
  rintro ⟨u, v, h, -, -⟩
  obtain ⟨-, h⟩ := List.append_eq_nil_iff.1 h.symm
  exact marker.text_ne_nil (List.append_eq_nil_iff.1 h).1

/-- **A token does not go across a separator.** -/
theorem containsToken_append_cons {c : Char} (hc : isIdentChar c = false) (u v : Text) :
    (u ++ c :: v).containsToken marker.text =
      (u.containsToken marker.text || v.containsToken marker.text) := by
  have hclear : isClear (some c) = true := by simp [isClear, hc]
  rw [Bool.eq_iff_iff, Bool.or_eq_true, containsToken_iff, containsToken_iff, containsToken_iff]
  constructor
  · rintro ⟨q, r, h, hq, hr⟩
    rcases token_append (fun _ hm => marker.isIdentChar_of_mem hm) h (Or.inr hclear) with
      ⟨r', hu, rfl⟩ | ⟨q', hv, rfl⟩
    · refine Or.inl ⟨q, r', hu, hq, ?_⟩
      cases r' with
      | nil => rfl
      | cons e r' => exact hr
    · -- The separator is not the first character of the marker.
      cases q' with
      | nil =>
          obtain ⟨e, m, hm⟩ := List.exists_cons_of_ne_nil marker.text_ne_nil
          rw [List.nil_append, hm, List.cons_append] at hv
          obtain ⟨rfl, -⟩ := List.cons.inj hv
          rw [marker.isIdentChar_of_mem (by rw [hm]; simp)] at hc
          cases hc
      | cons e q' =>
          obtain ⟨rfl, hrest⟩ : c = e ∧ v = q' ++ (marker.text ++ r) := by simpa using hv
          rw [isClear_getLast?_append_cons hclear] at hq
          exact Or.inr ⟨q', r, hrest, hq, hr⟩
  · rintro (⟨q, r, rfl, hq, hr⟩ | ⟨q, r, rfl, hq, hr⟩)
    · refine ⟨q, r ++ c :: v, by simp, hq, ?_⟩
      cases r with
      | nil => exact hclear
      | cons e r => exact hr
    · refine ⟨u ++ c :: q, r, by simp, ?_, hr⟩
      rw [isClear_getLast?_append_cons hclear]
      exact hq

theorem containsToken_cons {c : Char} (hc : isIdentChar c = false) (v : Text) :
    Text.containsToken (c :: v) marker.text = v.containsToken marker.text := by
  have h := containsToken_append_cons marker hc [] v
  rwa [containsToken_nil, Bool.false_or] at h

theorem containsToken_self : marker.text.containsToken marker.text = true :=
  (containsToken_iff marker).2 ⟨[], [], by simp, rfl, rfl⟩

/-- A word of identifier characters has no token but itself. -/
theorem containsToken_iff_eq {w : Text} (hw : ∀ c ∈ w, isIdentChar c = true) :
    w.containsToken marker.text = true ↔ w = marker.text := by
  constructor
  · intro h
    obtain ⟨u, v, rfl, hu, hv⟩ := (containsToken_iff marker).1 h
    obtain rfl : u = [] := by
      rcases List.eq_nil_or_concat u with rfl | ⟨u, c, rfl⟩
      · rfl
      · have hc := hw c (by simp)
        simp [isClear, hc] at hu
    obtain rfl : v = [] := by
      cases v with
      | nil => rfl
      | cons c v =>
          have hc := hw c (by simp)
          simp [isClear, hc] at hv
    simp
  · rintro rfl
    exact containsToken_self marker

end Tokens

/-! ## Blanks and names -/

/-- Blanks between two parts of a statement. -/
structure Gap where
  text : Text
  blank : ∀ c ∈ text, isBlank c = true

/-- Blanks that keep two words apart. -/
structure Space extends Gap where
  ne_nil : text ≠ []

/-- The characters of names: those of identifiers, and all beyond ASCII but blanks. -/
def isNameChar (c : Char) : Bool := isIdentChar c || (!isAscii c && !isBlank c)

/-- A name in a clause. -/
structure Name where
  text : Text
  ne_nil : text ≠ []
  valid : ∀ c ∈ text, isNameChar c = true

theorem isBlank_of_isNameChar {c : Char} (h : isNameChar c = true) : isBlank c = false := by
  rw [isNameChar, Bool.or_eq_true, Bool.and_eq_true, Bool.not_eq_true', Bool.not_eq_true'] at h
  rcases h with h | ⟨-, h⟩
  · exact isBlank_of_isIdentChar h
  · exact h

theorem isQuote_of_isNameChar {c : Char} (h : isNameChar c = true) : isQuote c = false := by
  rw [← Bool.not_eq_true]
  intro hq
  simp only [isQuote, Bool.or_eq_true, beq_iff_eq] at hq
  rcases hq with rfl | rfl
  · exact absurd h (by decide)
  · exact absurd h (by decide)

namespace Gap

variable (g : Gap) (marker : Identifier)

theorem containsToken_append (v : Text) :
    (g.text ++ v).containsToken marker.text = v.containsToken marker.text := by
  obtain ⟨b, hb⟩ := g
  induction b with
  | nil => rfl
  | cons c b ih =>
      have hc := isIdentChar_eq_false_of_isBlank (hb c (by simp))
      rw [List.cons_append, containsToken_cons marker hc]
      exact ih fun e he => hb e (by simp [he])

theorem append_containsToken (u : Text) :
    (u ++ g.text).containsToken marker.text = u.containsToken marker.text := by
  obtain ⟨b, hb⟩ := g
  cases b with
  | nil => simp
  | cons c b =>
      have hc := isIdentChar_eq_false_of_isBlank (hb c (by simp))
      have hrest := containsToken_append ⟨b, fun e he => hb e (by simp [he])⟩ marker []
      rw [List.append_nil, containsToken_nil] at hrest
      rw [containsToken_append_cons marker hc, hrest, Bool.or_false]

theorem any_isQuote : g.text.any isQuote = false :=
  List.any_eq_false.2 fun c hc => by rw [isQuote_of_isBlank (g.blank c hc)]; simp

end Gap

/-- Two words with blanks between them. -/
theorem Space.containsToken_append (s : Space) (marker : Identifier) (u v : Text) :
    (u ++ (s.text ++ v)).containsToken marker.text =
      (u.containsToken marker.text || v.containsToken marker.text) := by
  obtain ⟨⟨b, hb⟩, hne⟩ := s
  obtain ⟨c, b, rfl⟩ := List.exists_cons_of_ne_nil hne
  have hc := isIdentChar_eq_false_of_isBlank (hb c (by simp))
  rw [List.cons_append, containsToken_append_cons marker hc,
    Gap.containsToken_append ⟨b, fun e he => hb e (by simp [he])⟩]

theorem Name.any_isQuote (n : Name) : n.text.any isQuote = false :=
  List.any_eq_false.2 fun c hc => by rw [isQuote_of_isNameChar (n.valid c hc)]; simp

/-- A name starts and ends with other characters than blanks. -/
theorem Name.exists_ends (n : Name) :
    ∃ a e, n.text.head? = some a ∧ n.text.getLast? = some e ∧ isBlank a = false ∧
      isBlank e = false := by
  obtain ⟨a, ha⟩ := Option.isSome_iff_exists.1 (List.isSome_head?.2 n.ne_nil)
  obtain ⟨e, he⟩ := Option.isSome_iff_exists.1 (List.getLast?_isSome.2 n.ne_nil)
  exact ⟨a, e, ha, he, isBlank_of_isNameChar (n.valid a (List.mem_of_mem_head? ha)),
    isBlank_of_isNameChar (n.valid e (List.mem_of_getLast? he))⟩

/-! ## Clauses -/

/-- The word `as`. -/
def asWord : Text := ['a', 's']

/-- One name in braces: `name` or `imported as name`. -/
inductive ImportSpec
  | plain (name : Name)
  | renamed (imported : Name) (before after : Space) (name : Name)

namespace ImportSpec

def text : ImportSpec → Text
  | plain n => n.text
  | renamed m b a n => m.text ++ (b.text ++ (asWord ++ (a.text ++ n.text)))

/-- The name that is bound. -/
def localName : ImportSpec → Text
  | plain n => n.text
  | renamed _ _ _ n => n.text

/-- The name in the module, if it is given apart from the one that is bound. -/
def imported : ImportSpec → List Text
  | plain _ => []
  | renamed m _ _ _ => [m.text]

def hasAs : ImportSpec → Bool
  | plain _ => false
  | renamed _ _ _ _ => true

def words : ImportSpec → List Text
  | plain n => [n.text]
  | renamed m _ _ n => [m.text, asWord, n.text]

theorem containsToken_eq (s : ImportSpec) (marker : Identifier) :
    s.text.containsToken marker.text = s.words.any (·.containsToken marker.text) := by
  cases s with
  | plain n => simp [text, words]
  | renamed m b a n => simp [text, words, Space.containsToken_append]

theorem any_isQuote (s : ImportSpec) : s.text.any isQuote = false := by
  have has : asWord.any isQuote = false := by decide
  cases s with
  | plain n => exact n.any_isQuote
  | renamed m b a n =>
      simp only [text, List.any_append, m.any_isQuote, b.any_isQuote, has, a.any_isQuote,
        n.any_isQuote, Bool.or_false]

theorem mem_words_iff (s : ImportSpec) {w : Text} :
    w ∈ s.words ↔ w = s.localName ∨ w ∈ s.imported ∨ (w = asWord ∧ s.hasAs = true) := by
  cases s with
  | plain n => simp [words, localName, imported, hasAs]
  | renamed m b a n =>
      simp only [words, localName, imported, hasAs, List.mem_cons, List.not_mem_nil, or_false,
        and_true]
      tauto

end ImportSpec

/-- A name in braces, with the blanks around it. -/
structure ImportItem where
  before : Gap
  spec : ImportSpec
  after : Gap

namespace ImportItem

def text (i : ImportItem) : Text := i.before.text ++ (i.spec.text ++ i.after.text)

theorem containsToken_eq (i : ImportItem) (marker : Identifier) :
    i.text.containsToken marker.text = i.spec.words.any (·.containsToken marker.text) := by
  rw [text, Gap.containsToken_append, Gap.append_containsToken, i.spec.containsToken_eq]

theorem any_isQuote (i : ImportItem) : i.text.any isQuote = false := by
  simp only [text, List.any_append, i.before.any_isQuote, i.spec.any_isQuote, i.after.any_isQuote,
    Bool.or_false]

end ImportItem

/-- What may stand behind the default name: `* as name`, or names in braces. Each of `items` is
followed by a comma, and `last` is not. -/
inductive ImportGroup
  | star (before : Gap) (after : Space) (name : Name)
  | named (items : List ImportItem) (last : Option ImportItem) (gap : Gap)

namespace ImportGroup

def text : ImportGroup → Text
  | star b a n => '*' :: (b.text ++ (asWord ++ (a.text ++ n.text)))
  | named items last g =>
      '{' :: (items.flatMap (fun i => i.text ++ [',']) ++
        (last.toList.flatMap ImportItem.text ++ (g.text ++ ['}'])))

def locals : ImportGroup → List Text
  | star _ _ n => [n.text]
  | named items last _ => (items ++ last.toList).map (·.spec.localName)

def imported : ImportGroup → List Text
  | star _ _ _ => []
  | named items last _ => (items ++ last.toList).flatMap (·.spec.imported)

def hasAs : ImportGroup → Bool
  | star _ _ _ => true
  | named items last _ => (items ++ last.toList).any (·.spec.hasAs)

def words : ImportGroup → List Text
  | star _ _ n => [asWord, n.text]
  | named items last _ => (items ++ last.toList).flatMap (·.spec.words)

theorem containsToken_eq (g : ImportGroup) (marker : Identifier) :
    g.text.containsToken marker.text = g.words.any (·.containsToken marker.text) := by
  have hstar : isIdentChar '*' = false := by decide
  have hopening : isIdentChar '{' = false := by decide
  have hclosing : isIdentChar '}' = false := by decide
  have hcomma : isIdentChar ',' = false := by decide
  cases g with
  | star b a n =>
      simp [text, words, containsToken_cons marker hstar, Gap.containsToken_append,
        Space.containsToken_append]
  | named items last g =>
      rw [text, words, containsToken_cons marker hopening]
      -- The list is cut at its commas, and the last item at the brace.
      induction items with
      | nil =>
          have hend : Text.containsToken ['}'] marker.text = false := by
            rw [containsToken_cons marker hclosing, containsToken_nil]
          cases last with
          | none => simp [Gap.containsToken_append, hend]
          | some i =>
              have hcut := containsToken_append_cons marker hclosing (i.text ++ g.text) []
              rw [Gap.append_containsToken, containsToken_nil, Bool.or_false,
                i.containsToken_eq] at hcut
              simpa using hcut
      | cons i items ih =>
          have hcut := fun v => containsToken_append_cons marker hcomma i.text v
          simp only [List.flatMap_cons, List.append_assoc, List.cons_append, List.nil_append,
            hcut, ih, i.containsToken_eq, List.any_append]

theorem any_isQuote (g : ImportGroup) : g.text.any isQuote = false := by
  have has : asWord.any isQuote = false := by decide
  have hstar : isQuote '*' = false := by decide
  have hopening : isQuote '{' = false := by decide
  have hclosing : isQuote '}' = false := by decide
  have hcomma : isQuote ',' = false := by decide
  cases g with
  | star b a n =>
      simp only [text, List.any_cons, List.any_append, hstar, b.any_isQuote, has, a.any_isQuote,
        n.any_isQuote, Bool.or_false]
  | named items last g =>
      simp [text, List.any_flatMap, ImportItem.any_isQuote, g.any_isQuote, hopening, hclosing,
        hcomma]

theorem mem_words_iff (g : ImportGroup) {w : Text} :
    w ∈ g.words ↔ w ∈ g.locals ∨ w ∈ g.imported ∨ (w = asWord ∧ g.hasAs = true) := by
  cases g with
  | star b a n =>
      simp only [words, locals, imported, hasAs, List.mem_cons, List.not_mem_nil, or_false,
        false_or, and_true]
      exact or_comm
  | named items last g =>
      simp only [words, locals, imported, hasAs, List.mem_flatMap, List.mem_map, List.any_eq_true,
        ImportSpec.mem_words_iff]
      constructor
      · rintro ⟨i, hi, rfl | hw | ⟨rfl, has⟩⟩
        · exact Or.inl ⟨i, hi, rfl⟩
        · exact Or.inr (Or.inl ⟨i, hi, hw⟩)
        · exact Or.inr (Or.inr ⟨rfl, i, hi, has⟩)
      · rintro (⟨i, hi, rfl⟩ | ⟨i, hi, hw⟩ | ⟨rfl, i, hi, has⟩)
        · exact ⟨i, hi, Or.inl rfl⟩
        · exact ⟨i, hi, Or.inr (Or.inl hw)⟩
        · exact ⟨i, hi, Or.inr (Or.inr ⟨rfl, has⟩)⟩

/-- Whether the text ends with a brace, so that a word may follow without a blank. -/
def isBraced : ImportGroup → Bool
  | star _ _ _ => false
  | named _ _ _ => true

/-- A group starts and ends with other characters than blanks. -/
theorem exists_ends (g : ImportGroup) :
    ∃ a e, g.text.head? = some a ∧ g.text.getLast? = some e ∧ isBlank a = false ∧
      isBlank e = false ∧ (g.isBraced = true → e = '}') := by
  cases g with
  | star b a n =>
      obtain ⟨-, e, -, he, -, hbe⟩ := n.exists_ends
      refine ⟨'*', e, rfl, ?_, by decide, hbe, fun h => by cases h⟩
      rw [text, List.getLast?_cons, List.getLast?_append, List.getLast?_append,
        List.getLast?_append, he]
      rfl
  | named items last g =>
      refine ⟨'{', '}', rfl, ?_, by decide, by decide, fun _ => rfl⟩
      rw [text, List.getLast?_cons, List.getLast?_append, List.getLast?_append,
        List.getLast?_concat]
      rfl

end ImportGroup

/-- What an import binds: a default name, a group, or both. -/
inductive ImportClause
  | default (name : Name)
  | group (g : ImportGroup)
  | both (name : Name) (before after : Gap) (g : ImportGroup)

namespace ImportClause

def text : ImportClause → Text
  | default n => n.text
  | group g => g.text
  | both n b a g => n.text ++ (b.text ++ ',' :: (a.text ++ g.text))

/-- The names that are bound. -/
def locals : ImportClause → List Text
  | default n => [n.text]
  | group g => g.locals
  | both n _ _ g => n.text :: g.locals

/-- The names in the module that are bound under other names. -/
def imported : ImportClause → List Text
  | default _ => []
  | group g => g.imported
  | both _ _ _ g => g.imported

def hasAs : ImportClause → Bool
  | default _ => false
  | group g => g.hasAs
  | both _ _ _ g => g.hasAs

def words : ImportClause → List Text
  | default n => [n.text]
  | group g => g.words
  | both n _ _ g => n.text :: g.words

def isBraced : ImportClause → Bool
  | default _ => false
  | group g => g.isBraced
  | both _ _ _ g => g.isBraced

/-- **The tokens of a clause** are those of its words. -/
theorem containsToken_eq (c : ImportClause) (marker : Identifier) :
    c.text.containsToken marker.text = c.words.any (·.containsToken marker.text) := by
  have hcomma : isIdentChar ',' = false := by decide
  cases c with
  | default n => simp [text, words]
  | group g => exact g.containsToken_eq marker
  | both n b a g =>
      rw [text, ← List.append_assoc, containsToken_append_cons marker hcomma,
        Gap.append_containsToken, Gap.containsToken_append, g.containsToken_eq]
      rfl

theorem any_isQuote (c : ImportClause) : c.text.any isQuote = false := by
  have hcomma : isQuote ',' = false := by decide
  cases c with
  | default n => exact n.any_isQuote
  | group g => exact g.any_isQuote
  | both n b a g =>
      simp only [text, List.any_cons, List.any_append, n.any_isQuote, b.any_isQuote, hcomma,
        a.any_isQuote, g.any_isQuote, Bool.or_false]

/-- **The words of a clause**: the names that are bound, the names they have in the module, and
`as`. -/
theorem mem_words_iff (c : ImportClause) {w : Text} :
    w ∈ c.words ↔ w ∈ c.locals ∨ w ∈ c.imported ∨ (w = asWord ∧ c.hasAs = true) := by
  cases c with
  | default n => simp [words, locals, imported, hasAs]
  | group g => exact g.mem_words_iff
  | both n b a g =>
      rw [words, locals, imported, hasAs, List.mem_cons, List.mem_cons, g.mem_words_iff, or_assoc]

/-- A clause starts and ends with other characters than blanks. -/
theorem exists_ends (c : ImportClause) :
    ∃ a e, c.text.head? = some a ∧ c.text.getLast? = some e ∧ isBlank a = false ∧
      isBlank e = false ∧ (c.isBraced = true → e = '}') := by
  cases c with
  | default n =>
      obtain ⟨a, e, ha, he, hba, hbe⟩ := n.exists_ends
      exact ⟨a, e, ha, he, hba, hbe, fun h => by cases h⟩
  | group g => exact g.exists_ends
  | both n b a g =>
      obtain ⟨x, -, hx, -, hbx, -⟩ := n.exists_ends
      obtain ⟨-, e, -, he, -, hbe, hbraced⟩ := g.exists_ends
      refine ⟨x, e, ?_, ?_, hbx, hbe, hbraced⟩
      · rw [text, List.head?_append, hx]
        rfl
      · rw [text, List.getLast?_append, List.getLast?_append, List.getLast?_cons,
          List.getLast?_append, he]
        rfl

end ImportClause

/-! ## Statements -/

/-- A statement `import clause from 'module'` with its layout. A clause that does not end with a
brace is kept apart from `from`. -/
structure ImportForm where
  space : Space
  clause : ImportClause
  before : Gap
  apart : clause.isBraced = false → before.text ≠ []
  after : Gap
  quote : Char
  isQuote_quote : isQuote quote = true
  module : Text
  module_ne_nil : module ≠ []
  module_plain : ∀ c ∈ module, isQuote c = false

/-- No blank is a word character. -/
theorem isWordChar_of_isBlank {c : Char} (h : isBlank c = true) : isWordChar c = false := by
  have hident := isIdentChar_eq_false_of_isBlank h
  unfold isWordChar
  split
  · rw [isIdentChar, Bool.or_eq_false_iff] at hident
    exact hident.1
  · -- The blanks beyond ASCII, one by one.
    rename_i hhigh
    have hruns : ∀ n ∈ [0x85, 0xA0, 0x1680, 0x2000, 0x2001, 0x2002, 0x2003, 0x2004, 0x2005, 0x2006,
        0x2007, 0x2008, 0x2009, 0x200A, 0x2028, 0x2029, 0x202F, 0x205F, 0x3000],
        (wordRuns.any fun run => run.1 ≤ n && n ≤ run.2) = false := by decide +kernel
    apply hruns
    simp only [isBlank, Bool.or_eq_true, Bool.and_eq_true, decide_eq_true_eq, beq_iff_eq] at h
    simp only [List.mem_cons, List.not_mem_nil, or_false]
    omega

namespace ImportForm

def text (s : ImportForm) : Text :=
  importWord ++ (s.space.text ++ (s.clause.text ++ (s.before.text ++
    (fromWord ++ (s.after.text ++ s.quote :: (s.module ++ [s.quote]))))))

/-- A word boundary lies before `from`. -/
theorem wordBoundary_before (s : ImportForm) :
    wordBoundary (s.clause.text ++ s.before.text).getLast? = true := by
  obtain ⟨-, e, -, he, -, -, hbraced⟩ := s.clause.exists_ends
  rw [List.getLast?_append, he]
  cases hlast : s.before.text.getLast? with
  | some c =>
      have hc := isWordChar_of_isBlank (s.before.blank c (List.mem_of_getLast? hlast))
      simp [wordBoundary, hc]
  | none =>
      have hnil := List.getLast?_eq_none_iff.1 hlast
      cases hb : s.clause.isBraced with
      | false => exact absurd hnil (s.apart hb)
      | true =>
          rw [hbraced hb]
          decide

/-- **Every such statement is read as one binding.** -/
theorem importBindings_eq (s : ImportForm) :
    importBindings s.text = [⟨s.clause.text, s.module, s.text.length⟩] := by
  obtain ⟨a, e, ha, he, hba, hbe, -⟩ := s.clause.exists_ends
  have hk : FromClause (fromWord ++ (s.after.text ++ s.quote :: (s.module ++ [s.quote]))) s.module :=
    FromClause.mk s.after.blank s.isQuote_quote s.module_ne_nil s.module_plain s.isQuote_quote
  generalize hfrom : fromWord ++ (s.after.text ++ s.quote :: (s.module ++ [s.quote])) = k at hk
  have htext : s.text =
      importWord ++ (s.space.text ++ (s.clause.text ++ s.before.text ++ (k ++ []))) := by
    rw [text, hfrom]
    simp
  have hplain : ∀ c ∈ s.clause.text ++ s.before.text, isQuote c = false := by
    refine not_isQuote_of_any ?_
    rw [List.any_append, s.clause.any_isQuote, s.before.any_isQuote]
    rfl
  have hword : wordBoundary ((s.clause.text ++ s.before.text).reverse ++ []).head? = true := by
    rw [List.append_nil, List.head?_reverse]
    exact s.wordBoundary_before
  -- What is read up to `from` is the clause and blanks, and these are taken off.
  have hclause : Text.trimEnd (s.clause.text ++ s.before.text) = s.clause.text := by
    refine Text.trimEnd_append_blanks (fun c hc => ?_) s.before.blank
    rw [he] at hc
    obtain rfl := Option.some.inj hc
    exact hbe
  have hhead : ∀ c ∈ (s.clause.text ++ s.before.text ++ (k ++ [])).head?, isBlank c = false := by
    intro c hc
    rw [List.append_assoc, List.head?_append, ha] at hc
    obtain rfl := Option.some.inj hc
    exact hba
  have hread : importBinding? s.text = some ⟨s.clause.text, s.module, s.text.length⟩ := by
    have hlen : 6 + s.space.text.length + (s.clause.text ++ s.before.text).length + k.length =
        s.text.length := by
      have hsix : importWord.length = 6 := rfl
      rw [htext]
      simp only [List.length_append, List.length_nil]
      omega
    rw [htext, importBinding?_importWord s.space.blank hhead, if_neg s.space.ne_nil, ← htext,
      bindingFrom_fromClause [] hplain hword hk, List.append_nil, ← Text.trimEnd, hclause, hlen]
  -- Behind the binding nothing is left to read.
  obtain ⟨c, t, hct⟩ : ∃ c t, s.text = c :: t := ⟨_, _, htext⟩
  have hskip := bindingsFrom_skip t [] (some c)
  rw [List.append_nil] at hskip
  rw [Stylewire.importBindings_eq]
  rw [hct] at hread ⊢
  rw [bindingsFrom_cons_some rfl hread]
  simp only [List.length_cons, Nat.add_sub_cancel]
  rw [hskip]
  rfl

theorem hasImport_eq (s : ImportForm) (module : Text) (marker : Identifier) :
    hasImport s.text module marker.text =
      (s.module == module && s.clause.words.any (·.containsToken marker.text)) := by
  rw [hasImport, s.importBindings_eq, ← s.clause.containsToken_eq]
  simp

end ImportForm

/-- **What counts as an import of the marker.** A statement counts if its specifier is the module
and the marker is a token of one of the words in its clause. Every marker that the statement binds
is found that way, the names of a statement here being without quotes. Among names of identifier
characters, a marker is found if it is bound, and also if it is the name in the module of something
bound under another name, or the word `as`. -/
theorem hasImport_form_iff (s : ImportForm) (module : Text) (marker : Identifier) :
    (hasImport s.text module marker.text = true ↔
      s.module = module ∧ ∃ w ∈ s.clause.words, w.containsToken marker.text = true) ∧
    (marker.text ∈ s.clause.locals → hasImport s.text s.module marker.text = true) ∧
    ((∀ w ∈ s.clause.words, ∀ c ∈ w, isIdentChar c = true) →
      (hasImport s.text s.module marker.text = true ↔
        marker.text ∈ s.clause.locals ∨ marker.text ∈ s.clause.imported ∨
          (marker.text = asWord ∧ s.clause.hasAs = true))) := by
  have hiff : ∀ m, hasImport s.text m marker.text = true ↔
      s.module = m ∧ ∃ w ∈ s.clause.words, w.containsToken marker.text = true := by
    intro m
    rw [s.hasImport_eq, Bool.and_eq_true, beq_iff_eq, List.any_eq_true]
  refine ⟨hiff module, fun hbound => ?_, fun hident => ?_⟩
  · exact (hiff s.module).2 ⟨rfl, marker.text, s.clause.mem_words_iff.2 (Or.inl hbound),
      containsToken_self marker⟩
  · rw [hiff, ← s.clause.mem_words_iff]
    constructor
    · rintro ⟨-, w, hw, htoken⟩
      rwa [← (containsToken_iff_eq marker (hident w hw)).1 htoken]
    · intro hw
      exact ⟨rfl, marker.text, hw, containsToken_self marker⟩

def Space.one : Space := ⟨⟨[' '], forall_mem_of_all (by decide)⟩, by decide⟩

/-- A default name, and one name in braces over three lines. -/
def listedImport : ImportForm where
  space := .one
  clause := .both ⟨['d'], by decide, forall_mem_of_all (by decide)⟩ ⟨[], by simp⟩ Space.one.toGap
    (.named [⟨⟨['\n', ' '], forall_mem_of_all (by decide)⟩,
      .renamed ⟨['a'], by decide, forall_mem_of_all (by decide)⟩ .one .one
        ⟨Identifier.styles.text, by decide, forall_mem_of_all (by decide)⟩, ⟨[], by simp⟩⟩]
      none ⟨['\n'], forall_mem_of_all (by decide)⟩)
  before := ⟨[], by simp⟩
  apart := by decide
  after := Space.one.toGap
  quote := '\''
  isQuote_quote := by decide
  module := "./m.css".toList
  module_ne_nil := by decide
  module_plain := forall_mem_of_all (by decide)

theorem hasImport_form_iff_listedImport :
    listedImport.text = "import d, \x7b\n a as $styles,\n\x7dfrom './m.css'".toList ∧
      Identifier.styles.text ∈ listedImport.clause.locals ∧
      hasImport listedImport.text listedImport.module Identifier.styles.text = true := by
  have hbound : Identifier.styles.text ∈ listedImport.clause.locals := by decide
  exact ⟨by decide, hbound, (hasImport_form_iff listedImport [] .styles).2.1 hbound⟩

-- A name in quotes is where the clause is cut off, so the marker it is bound to is missed.
example : hasImport "import \x7b \"s\" as $styles \x7d from './m.css'".toList "./m.css".toList
    Identifier.styles.text = false := by
  decide +kernel

/-- One name in braces, bound under another name. -/
def renamedImport : ImportForm where
  space := .one
  clause := .group (.named [] (some ⟨Space.one.toGap,
    .renamed ⟨Identifier.styles.text, by decide, forall_mem_of_all (by decide)⟩ .one .one
      ⟨['x'], by decide, forall_mem_of_all (by decide)⟩, Space.one.toGap⟩) ⟨[], by simp⟩)
  before := Space.one.toGap
  apart := by decide
  after := Space.one.toGap
  quote := '\''
  isQuote_quote := by decide
  module := "./m.css".toList
  module_ne_nil := by decide
  module_plain := forall_mem_of_all (by decide)

/-- A marker counts as imported if the import renames it. -/
theorem hasImport_renamedImport :
    renamedImport.text = "import \x7b $styles as x \x7d from './m.css'".toList ∧
      renamedImport.clause.locals = [['x']] ∧
      hasImport renamedImport.text renamedImport.module Identifier.styles.text = true := by
  decide +kernel

end Stylewire
