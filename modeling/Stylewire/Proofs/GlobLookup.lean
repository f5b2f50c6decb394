import Stylewire.Glob.Lookup
import Stylewire.Proofs.GlobMatch
import Stylewire.Proofs.Occurrence

set_option autoImplicit false

/-! # Looking for a glob behind leading directories

A glob with leading directories in front accepts the paths that its own tokens match from the start
of a segment on (`AtSegment`). How paths are looked up for a glob is meant to be a matter of speed,
and it is but for one case: a path whose last segment is `..` has no file name, and where the file
name or its extension is asked for, such a path is not found. Among the globs that match such a path
these are the ones that end in a dot, other than texts with a separator (`FoundByName`).
`accepts_dirs_iff` says both, and `matchesWhole_dirs_iff` says where the two ways to look at a glob
agree.
-/

namespace Stylewire

namespace Text

/-! ## Cuts in front of a segment -/

/-- The text is empty or ends in a separator: a segment starts behind it. -/
def IsDirs (dirs : Text) : Prop := dirs = [] ∨ ∃ above, dirs = above ++ ['/']

/-- The last segment of the text is `..`. -/
def EndsInParent (t : Text) : Prop := ∃ dirs, t = dirs ++ ['.', '.'] ∧ IsDirs dirs

theorem IsDirs.append {d : Text} (h : IsDirs d) (above : Text) : IsDirs (above ++ '/' :: d) := by
  rcases h with rfl | ⟨e, rfl⟩
  · exact Or.inr ⟨above, rfl⟩
  · exact Or.inr ⟨above ++ '/' :: e, by simp⟩

/-- A text is cut at a separator wherever its bytes are. -/
theorem exists_cut_of_bytes {t : Text} {u v : List UInt8} (h : t.bytes = u ++ Glob.slash :: v) :
    ∃ u' v' : Text, t = u' ++ '/' :: v' ∧ u'.bytes = u ∧ v'.bytes = v := by
  have hinj : ∀ a b : UInt8, Char.ofUInt8 a = Char.ofUInt8 b → a = b := by
    intro a b hab
    have := congrArg Char.toNat hab
    rwa [toNat_ofUInt8, toNat_ofUInt8, UInt8.toNat_inj] at this
  have hchars : byteChars t = u.map Char.ofUInt8 ++ '/' :: v.map Char.ofUInt8 := by
    rw [byteChars, h, List.map_append, List.map_cons]
    rfl
  obtain ⟨u', v', ht, hu, hv⟩ := exists_cut_of_byteChars rfl hchars
  exact ⟨u', v', ht, (List.map_inj_right hinj).1 hu, (List.map_inj_right hinj).1 hv⟩

/-- The pieces that leading directories can match are those in front of a segment. -/
theorem cut_bytes_iff {t : Text} {P : List UInt8 → Prop} :
    (∃ u v, t.bytes = u ++ v ∧ Glob.TokenMatches .leadingDirs u ∧ P v) ↔
      ∃ dirs rest, t = dirs ++ rest ∧ IsDirs dirs ∧ P rest.bytes := by
  constructor
  · rintro ⟨u, v, ht, hu, hv⟩
    rw [Glob.TokenMatches] at hu
    rcases hu with rfl | ⟨above, rfl⟩
    · refine ⟨[], t, rfl, Or.inl rfl, ?_⟩
      rwa [ht]
    · rw [List.append_assoc, List.singleton_append] at ht
      obtain ⟨u', v', rfl, -, rfl⟩ := exists_cut_of_bytes ht
      exact ⟨u' ++ ['/'], v', by simp, Or.inr ⟨u', rfl⟩, hv⟩
  · rintro ⟨dirs, rest, rfl, hdirs, hrest⟩
    refine ⟨dirs.bytes, rest.bytes, bytes_append dirs rest, ?_, hrest⟩
    rw [Glob.TokenMatches]
    rcases hdirs with rfl | ⟨above, rfl⟩
    · exact Or.inl rfl
    · exact Or.inr ⟨above.bytes, bytes_append above ['/']⟩

end Text

open Text

namespace Glob

/-- The tokens match the text from the start of one of its segments on. -/
def AtSegment (g : Glob) (t : Text) : Prop :=
  ∃ dirs rest, t = dirs ++ rest ∧ IsDirs dirs ∧ Matches g rest.bytes

/-- Leading directories in front of the tokens leave the rest of the text to them. -/
theorem matches_dirs_iff {g : Glob} {t : Text} :
    Matches (.leadingDirs :: g) t.bytes ↔ AtSegment g t := by
  rw [Matches]
  exact cut_bytes_iff

theorem AtSegment.append {g : Glob} {t : Text} (h : AtSegment g t) (dir : Text) :
    AtSegment g (dir ++ '/' :: t) := by
  obtain ⟨dirs, rest, rfl, hdirs, hrest⟩ := h
  exact ⟨dir ++ '/' :: dirs, rest, by simp, hdirs.append dir, hrest⟩

/-! ## Paths without a file name -/

theorem lacksFileName_iff_bytes {bs : List UInt8} :
    lacksFileName bs = true ↔
      ∃ u v, bs = u ++ v ∧ TokenMatches .leadingDirs u ∧ v = [0x2E, 0x2E] := by
  rw [lacksFileName, beq_iff_eq]
  constructor
  · intro h
    have hrev := List.takeWhile_append_dropWhile (p := (· != slash)) (l := bs.reverse)
    have hhead := List.head?_dropWhile_not (· != slash) bs.reverse
    rw [h] at hrev
    refine ⟨(bs.reverse.dropWhile (· != slash)).reverse, [0x2E, 0x2E], ?_, ?_, rfl⟩
    · calc bs = bs.reverse.reverse := (List.reverse_reverse bs).symm
        _ = ([0x2E, 0x2E] ++ bs.reverse.dropWhile (· != slash)).reverse := by rw [hrev]
        _ = (bs.reverse.dropWhile (· != slash)).reverse ++ [0x2E, 0x2E] := by
          rw [List.reverse_append]
          rfl
    · rw [TokenMatches]
      -- The last segment ends at the start of the path or at a separator.
      cases hdrop : bs.reverse.dropWhile (· != slash) with
      | nil => exact Or.inl rfl
      | cons b rest =>
          rw [hdrop] at hhead
          have hb : b = slash := by simpa using hhead
          exact Or.inr ⟨rest.reverse, by rw [hb, List.reverse_cons]⟩
  · rintro ⟨u, v, rfl, hu, rfl⟩
    rw [TokenMatches] at hu
    rcases hu with rfl | ⟨above, rfl⟩
    · decide
    · rw [List.reverse_append, List.reverse_append]
      show (([0x2E, 0x2E, slash] : List UInt8) ++ above.reverse).takeWhile _ = _
      rfl

/-- Directories in front of a path leave its last segment as it is. -/
theorem lacksFileName_append (u v : List UInt8) :
    lacksFileName (u ++ slash :: v) = lacksFileName v := by
  have hrev : (u ++ slash :: v).reverse = v.reverse ++ slash :: u.reverse := by simp
  rw [lacksFileName, lacksFileName, hrev, List.takeWhile_append]
  have hslash : (slash :: u.reverse).takeWhile (· != slash) = [] :=
    List.takeWhile_cons_of_neg (by simp)
  -- The search goes through all of `v` and stops at the separator, or it stops earlier.
  split
  · rename_i hlen
    rw [hslash, List.append_nil, (List.takeWhile_prefix _).eq_of_length hlen]
  · rfl

theorem lacksFileName_iff {t : Text} : lacksFileName t.bytes = true ↔ t.EndsInParent := by
  rw [lacksFileName_iff_bytes, cut_bytes_iff]
  constructor
  · rintro ⟨dirs, rest, rfl, hdirs, hrest⟩
    have hdots : rest = ['.', '.'] := by
      refine eq_of_byteChars_ascii (List.all_eq_true.1 rfl) ?_
      rw [byteChars, hrest]
      rfl
    exact ⟨dirs, by rw [hdots], hdirs⟩
  · rintro ⟨dirs, rfl, hdirs⟩
    exact ⟨dirs, ['.', '.'], rfl, hdirs, rfl⟩

theorem endsInParent_of_below {dir t : Text} (h : (dir ++ '/' :: t).EndsInParent) :
    t.EndsInParent := by
  rw [← lacksFileName_iff, bytes_append] at h
  rw [← lacksFileName_iff, ← lacksFileName_append dir.bytes]
  exact h

/-! ## Globs that look at the file name -/

/-- The glob is a text with a separator in it. -/
def IsSlashedText (g : Glob) : Prop :=
  (∀ t ∈ g, ∃ c, t = .literal c) ∧ GlobToken.literal '/' ∈ g

/-- The glob ends in a dot, and it is not a text with a separator. Paths that end in a dot are
looked up for it by their file name or its extension. -/
def FoundByName (g : Glob) : Prop := g.getLast? = some (.literal '.') ∧ ¬ g.IsSlashedText

theorem isLiteralBut_iff {others : List Char} {t : GlobToken} :
    isLiteralBut others t = true ↔ ∃ c, t = .literal c ∧ c ∉ others := by
  cases t <;> simp [isLiteralBut]

theorem exists_getLast?_of_all {others : List Char} {g : Glob} (hne : g ≠ [])
    (h : g.all (isLiteralBut others) = true) : ∃ c, g.getLast? = some (.literal c) := by
  rw [List.all_eq_true] at h
  obtain ⟨c, hc, -⟩ := isLiteralBut_iff.1 (h _ (List.getLast_mem hne))
  exact ⟨c, by rw [List.getLast?_eq_some_getLast hne, hc]⟩

/-- A glob that ends in an extension ends in a literal. -/
theorem exists_getLast?_of_endsInExtension {g : Glob}
    (h : endsInExtension (.leadingDirs :: g) = true) : ∃ c, g.getLast? = some (.literal c) := by
  rcases List.eq_nil_or_concat g with rfl | ⟨init, t, rfl⟩
  · cases h
  · have hrev : (GlobToken.leadingDirs :: (init ++ [t])).reverse =
        t :: (GlobToken.leadingDirs :: init).reverse := by simp
    rw [endsInExtension, List.concat_eq_append, hrev, List.dropWhile_cons] at h
    rw [List.concat_eq_append, List.getLast?_concat]
    -- The last token is one of the extension, or the dot in front of an empty one.
    by_cases ht : isLiteralBut ['.', '/'] t = true
    · obtain ⟨c, rfl, -⟩ := isLiteralBut_iff.1 ht
      exact ⟨c, rfl⟩
    · rw [if_neg ht] at h
      split at h
      · rename_i heq
        exact ⟨'.', by rw [(List.cons.inj heq).1]⟩
      · cases h

theorem endsInExtension_of_getLast? {g : Glob} {t : GlobToken}
    (h : g.getLast? = some (.literal '.')) : endsInExtension (t :: g) = true := by
  obtain ⟨init, rfl⟩ := List.getLast?_eq_some_iff.1 h
  have hrev : (t :: (init ++ [GlobToken.literal '.'])).reverse =
      .literal '.' :: (t :: init).reverse := by simp
  rw [endsInExtension, hrev]
  rfl

theorem isPathText_dirs_iff {g : Glob} :
    isPathText (.leadingDirs :: g) = true ↔ g ≠ [] ∧ ∀ t ∈ g, ∃ c, t = .literal c := by
  simp [isPathText, isLiteralBut_iff]

theorem looksAtFileName_star (ts : List GlobToken) :
    looksAtFileName (.leadingDirs :: .anyRun :: .literal '.' :: ts) =
      (ts.all (isLiteralBut ['.', '/']) ||
        endsInExtension (.leadingDirs :: .anyRun :: .literal '.' :: ts)) := by
  rw [looksAtFileName, lookup]
  cases ts.all (isLiteralBut ['.', '/']) <;>
    cases endsInExtension (.leadingDirs :: .anyRun :: .literal '.' :: ts) <;> rfl

theorem looksAtFileName_dirs {g : Glob} (hne : g ≠ [])
    (hstar : ¬ ∃ ts, g = .anyRun :: .literal '.' :: ts) :
    looksAtFileName (.leadingDirs :: g) =
      (g.all (isLiteralBut ['/']) ||
        (!isPathText (.leadingDirs :: g) && endsInExtension (.leadingDirs :: g))) := by
  obtain ⟨t, ts, rfl⟩ := List.exists_cons_of_ne_nil hne
  rw [looksAtFileName, lookup]
  · cases (t :: ts).all (isLiteralBut ['/']) <;> cases isPathText (.leadingDirs :: t :: ts) <;>
      cases endsInExtension (.leadingDirs :: t :: ts) <;> rfl
  · rintro us rfl rfl
    exact hstar ⟨us, rfl⟩

/-- The file name decides for every glob behind leading directories that ends in a dot, but for a
text with a separator. -/
theorem looksAtFileName_of_foundByName {g : Glob} (h : FoundByName g) :
    looksAtFileName (.leadingDirs :: g) = true := by
  obtain ⟨hlast, hplain⟩ := h
  have hext := endsInExtension_of_getLast? (t := .leadingDirs) hlast
  have hne : g ≠ [] := by
    rintro rfl
    cases hlast
  by_cases hstar : ∃ ts, g = .anyRun :: .literal '.' :: ts
  · obtain ⟨ts, rfl⟩ := hstar
    rw [looksAtFileName_star, hext, Bool.or_true]
  · rw [looksAtFileName_dirs hne hstar, hext, Bool.and_true, Bool.or_eq_true, Bool.not_eq_true']
    by_cases htext : isPathText (.leadingDirs :: g) = true
    · -- A text without a separator is a name.
      have hliterals := (isPathText_dirs_iff.1 htext).2
      refine Or.inl (List.all_eq_true.2 fun t ht => ?_)
      obtain ⟨c, rfl⟩ := hliterals t ht
      refine isLiteralBut_iff.2 ⟨c, rfl, fun hc => ?_⟩
      rw [List.mem_singleton] at hc
      subst hc
      exact hplain ⟨hliterals, ht⟩
    · exact Or.inr (Bool.not_eq_true _ ▸ htext)

/-- The file name decides only for globs that end in a literal and are no text with a separator. -/
theorem of_looksAtFileName {g : Glob} (h : looksAtFileName (.leadingDirs :: g) = true) :
    (∃ c, g.getLast? = some (.literal c)) ∧ ¬ g.IsSlashedText := by
  have hne : g ≠ [] := by
    rintro rfl
    cases h
  by_cases hstar : ∃ ts, g = .anyRun :: .literal '.' :: ts
  · obtain ⟨ts, rfl⟩ := hstar
    rw [looksAtFileName_star, Bool.or_eq_true] at h
    constructor
    · rcases h with hts | hext
      · cases ts with
        | nil => exact ⟨'.', rfl⟩
        | cons t ts =>
            rw [List.getLast?_cons_cons, List.getLast?_cons_cons]
            exact exists_getLast?_of_all (by simp) hts
      · exact exists_getLast?_of_endsInExtension hext
    · -- The star is no literal.
      rintro ⟨hliterals, -⟩
      obtain ⟨c, hc⟩ := hliterals .anyRun List.mem_cons_self
      cases hc
  · rw [looksAtFileName_dirs hne hstar, Bool.or_eq_true, Bool.and_eq_true] at h
    rcases h with hname | ⟨htext, hext⟩
    · refine ⟨exists_getLast?_of_all hne hname, ?_⟩
      rintro ⟨-, hslash⟩
      obtain ⟨c, hc, hother⟩ := isLiteralBut_iff.1 (List.all_eq_true.1 hname _ hslash)
      cases hc
      exact hother List.mem_cons_self
    · refine ⟨exists_getLast?_of_endsInExtension hext, ?_⟩
      rintro ⟨hliterals, -⟩
      rw [isPathText_dirs_iff.2 ⟨hne, hliterals⟩] at htext
      cases htext

/-- What a glob matches ends in the character the glob ends in. -/
theorem encode_isSuffix_of_matches {g : Glob} {bs : List UInt8} {c : Char} (h : Matches g bs)
    (hlast : g.getLast? = some (.literal c)) : String.utf8EncodeChar c <:+ bs := by
  obtain ⟨init, rfl⟩ := List.getLast?_eq_some_iff.1 hlast
  obtain ⟨u, v, rfl, -, w, x, rfl, hw, hx⟩ := matches_append.1 h
  rw [TokenMatches] at hw
  rw [Matches] at hx
  rw [hw, hx, List.append_nil]
  exact List.suffix_append u _

/-- A character whose last byte is that of a dot is a dot. -/
theorem eq_dot_of_encode_isSuffix {c : Char} {bs : List UInt8}
    (h : String.utf8EncodeChar c <:+ bs ++ [0x2E]) : c = '.' := by
  have hne : String.utf8EncodeChar c ≠ [] := by
    rw [← List.length_pos_iff, String.length_utf8EncodeChar]
    exact Char.utf8Size_pos c
  have hmem : (0x2E : UInt8) ∈ String.utf8EncodeChar c := by
    obtain ⟨u, hu⟩ := h
    apply List.mem_of_getLast?
    rw [← List.getLast?_append_of_ne_nil u hne, hu, List.getLast?_concat]
  have hdot : '.' ∈ byteChars [c] := by
    rw [byteChars, bytes, List.flatMap_singleton]
    exact List.mem_map.2 ⟨0x2E, hmem, rfl⟩
  rw [mem_byteChars_iff rfl, List.mem_singleton] at hdot
  exact hdot.symm

/-- Among the globs that match a path without a file name, those that end in a dot look for it. -/
theorem looksAtFileName_iff_foundByName {g : Glob} {t : Text} (hseg : AtSegment g t)
    (hparent : t.EndsInParent) :
    looksAtFileName (.leadingDirs :: g) = true ↔ FoundByName g := by
  refine ⟨fun h => ?_, looksAtFileName_of_foundByName⟩
  obtain ⟨⟨c, hlast⟩, hplain⟩ := of_looksAtFileName h
  obtain ⟨dirs, rest, rfl, -, hrest⟩ := hseg
  obtain ⟨above, hdots, -⟩ := hparent
  have hbytes : dirs.bytes ++ rest.bytes = above.bytes ++ [0x2E] ++ [0x2E] := by
    calc dirs.bytes ++ rest.bytes = (above ++ ['.', '.']).bytes := by rw [← bytes_append, hdots]
      _ = above.bytes ++ [0x2E] ++ [0x2E] := by
          rw [bytes_append, List.append_assoc]
          rfl
  -- What the last token matches is the end of the path, and that is a dot.
  have hsuffix := (encode_isSuffix_of_matches hrest hlast).trans (List.suffix_append dirs.bytes _)
  rw [hbytes] at hsuffix
  exact ⟨by rw [hlast, eq_dot_of_encode_isSuffix hsuffix], hplain⟩

/-- **What a glob behind leading directories accepts.** -/
theorem accepts_dirs_iff {g : Glob} (hne : g ≠ []) {t : Text} :
    accepts (.leadingDirs :: g) t.bytes = true ↔
      AtSegment g t ∧ ¬ (t.EndsInParent ∧ FoundByName g) := by
  have hmatch : isMatch (.leadingDirs :: g) t.bytes = true ↔ AtSegment g t := by
    rw [isMatch_iff, matches_dirs_iff]
    simp [hne]
  rw [accepts, Bool.and_eq_true, hmatch, and_comm, Bool.not_eq_true', ← Bool.not_eq_true,
    Bool.and_eq_true, lacksFileName_iff]
  refine and_congr_right fun hseg => not_congr ?_
  constructor
  · rintro ⟨hlooks, hparent⟩
    exact ⟨hparent, (looksAtFileName_iff_foundByName hseg hparent).1 hlooks⟩
  · rintro ⟨hparent, hfound⟩
    exact ⟨(looksAtFileName_iff_foundByName hseg hparent).2 hfound, hparent⟩

/-! ## Looking up and matching -/

/-- Looking the path up for the glob comes to matching the whole path by the tokens. -/
def MatchesWhole (g : Glob) (path : List UInt8) : Prop := g.accepts path = true ↔ Matches g path

/-- No token at all matches from the end of the path on, and a segment has to start there. -/
theorem atSegment_nil_iff {t : Text} : AtSegment [] t ↔ t.IsDirs := by
  constructor
  · rintro ⟨dirs, rest, rfl, hdirs, hrest⟩
    have hnil : rest = [] := by
      apply eq_of_byteChars_ascii (by simp)
      rw [byteChars, hrest]
      rfl
    rwa [hnil, List.append_nil]
  · intro h
    exact ⟨t, [], (List.append_nil t).symm, h, rfl⟩

/-- **Where a path is looked up as the tokens say**: everywhere for most globs. Leading directories
alone are taken to stand for everything, and a path without a file name is missed. -/
theorem matchesWhole_dirs_iff {g : Glob} {t : Text} :
    MatchesWhole (.leadingDirs :: g) t.bytes ↔
      (g = [] → t.IsDirs) ∧ ¬ (AtSegment g t ∧ t.EndsInParent ∧ FoundByName g) := by
  rw [MatchesWhole, matches_dirs_iff]
  by_cases hne : g = []
  · subst hne
    have haccepts : accepts [.leadingDirs] t.bytes = true := rfl
    have hname : ¬ FoundByName [] := fun h => nomatch h.1
    rw [haccepts, atSegment_nil_iff]
    simp [hname]
  · rw [accepts_dirs_iff hne]
    constructor
    · intro h
      refine ⟨fun hnil => absurd hnil hne, ?_⟩
      rintro ⟨hseg, hmissed⟩
      exact (h.2 hseg).2 hmissed
    · rintro ⟨-, hfound⟩
      refine ⟨And.left, fun hseg => ⟨hseg, ?_⟩⟩
      intro hmissed
      exact hfound ⟨hseg, hmissed⟩

/-! ## Sets of globs -/

/-- The expression that is needed to look paths up for the glob, if any, does not nest too deep. -/
def Shallow (g : Glob) : Prop :=
  g.lookup = .extensionAndExpression ∨ g.lookup = .expression →
    Expression.isTooDeep (Expression.ofGlob g) = false

theorem checkAll_eq_ok_iff {globs : List Glob} :
    checkAll globs = .ok () ↔ ∀ g ∈ globs, g.Shallow := by
  have hnone : (∀ g ∈ globs, g.Shallow) ↔
      ∀ l, l = .extensionAndExpression ∨ l = .expression →
        ∀ es ∈ (globs.filter fun g => g.lookup = l).map Expression.ofGlob,
          Expression.isTooDeep es = false := by
    constructor
    · intro h l hl es hes
      obtain ⟨g, hg, rfl⟩ := List.mem_map.1 hes
      obtain ⟨hmem, hlookup⟩ := List.mem_filter.1 hg
      rw [decide_eq_true_eq] at hlookup
      exact h g hmem (hlookup ▸ hl)
    · intro h g hmem hl
      refine h g.lookup hl _ (List.mem_map.2 ⟨g, List.mem_filter.2 ⟨hmem, ?_⟩, rfl⟩)
      exact decide_eq_true rfl
  rw [hnone]
  unfold checkAll
  simp only
  constructor
  · intro h
    split at h
    · cases h
    · rename_i halone
      split at h
      · cases h
      · rename_i htogether
        rintro l (rfl | rfl) es hes
        · simpa using List.find?_eq_none.1 halone es hes
        · exact List.findIdx?_eq_none_iff.1 htogether es hes
  · intro h
    rw [List.find?_eq_none.2 fun es hes => by simp [h _ (Or.inl rfl) es hes]]
    simp only
    rw [List.findIdx?_eq_none_iff.2 fun es hes => h _ (Or.inr rfl) es hes]

end Glob

end Stylewire
