import Stylewire.Proofs.Nesting
import Stylewire.Proofs.SingleEntry

set_option autoImplicit false

/-! # The entries of an options object

The entries of an object `{ … }` are the parts of the text between its braces, cut like the
arguments of a call (`splitArguments`). An entry has the key `assign` (`hasAssignKey`), and it has
an assign block if the value starts with a brace (`hasAssignBlock`).

Adding the marker edits the entry with the block and no other one (`EditsBlock`). Without such an
entry it adds one (`AddsArgument`), whatever other entries there are: an entry `assign: value`
whose value is no block stays, and the object then has the key twice. So the number of blocks is
one afterwards, and the number of keys is one more than the number of entries of this sort
(`injectMarker_one_block`).

The block is found by its pattern, and the pattern is not bound to the start of an entry. All
this is therefore said of objects in which it stands at the start of entries only (`KeyLeads`).
-/

namespace Stylewire

open Brackets

/-! ## Entries with the key `assign` -/

/-- The value of an entry with the key `assign`. -/
def assignValue? (e : Text) : Option Text := do
  let r ← stripWord assignWord e.trimStart
  match Text.trimStart r with
  | ':' :: v => some (Text.trimStart v)
  | _ => none

/-- Whether the entry is `assign: value`. -/
def hasAssignKey (e : Text) : Bool := (assignValue? e).isSome

/-- Whether the entry is `assign: value`, and the value starts with a brace. -/
def hasAssignBlock (e : Text) : Bool := (assignValue? e).any fun v => v.head? == some '{'

/-- The key and the value, with blanks before them. -/
theorem assignValue?_eq_some_iff {e v : Text} :
    assignValue? e = some v ↔
      ∃ lead k, (∀ c ∈ lead, isBlank c = true) ∧ IsAssignKey k ∧ e = lead ++ (k ++ v) ∧
        ∀ c, v.head? = some c → isBlank c = false := by
  have hcolon : isBlank ':' = false := by decide
  have hletter : isBlank 'a' = false := by decide
  constructor
  · intro h
    obtain ⟨r, hr, hm⟩ := Option.bind_eq_some_iff.1 h
    obtain ⟨lead, hlead, hblank, -⟩ := Text.trimStart_spec e
    obtain ⟨b, hb, hbblank, -⟩ := Text.trimStart_spec r
    split at hm
    · rename_i w hw
      obtain ⟨b', hb', hblank', hfirst⟩ := Text.trimStart_spec w
      obtain rfl := Option.some.inj hm
      refine ⟨lead, assignWord ++ (b ++ ':' :: b'), hblank, ⟨b, b', rfl, hbblank, hblank'⟩, ?_,
        hfirst⟩
      rw [hw] at hb
      rw [stripWord_eq_some_iff.1 hr, hb] at hlead
      rw [hlead]
      nth_rewrite 1 [hb']
      simp
    · cases hm
  · rintro ⟨lead, k, hlead, ⟨b, b', rfl, hb, hb'⟩, rfl, hfirst⟩
    have hstart : Text.trimStart (lead ++ (assignWord ++ (b ++ ':' :: b') ++ v)) =
        assignWord ++ (b ++ ':' :: (b' ++ v)) := by
      rw [Text.trimStart_blanks_append _ hlead]
      · simp
      · intro c hc
        obtain rfl : 'a' = c := by simpa [assignWord] using hc
        exact hletter
    have hkey : Text.trimStart (b ++ ':' :: (b' ++ v)) = ':' :: (b' ++ v) :=
      Text.trimStart_blanks_append (fun c hc => by cases hc; exact hcolon) hb
    have hvalue : Text.trimStart (b' ++ v) = v := Text.trimStart_blanks_append hfirst hb'
    have hstrip : stripWord assignWord (assignWord ++ (b ++ ':' :: (b' ++ v))) =
        some (b ++ ':' :: (b' ++ v)) := stripWord_eq_some_iff.2 rfl
    rw [assignValue?, hstart, hstrip]
    simp only [Option.bind_eq_bind, Option.bind_some, hkey, hvalue]

/-- The word, blanks and a colon make the key. -/
theorem hasAssignKey_iff {e : Text} :
    hasAssignKey e = true ↔
      ∃ lead b v, (∀ c ∈ lead, isBlank c = true) ∧ (∀ c ∈ b, isBlank c = true) ∧
        e = lead ++ (assignWord ++ b) ++ ':' :: v := by
  rw [hasAssignKey, Option.isSome_iff_exists]
  constructor
  · rintro ⟨v, hv⟩
    obtain ⟨lead, k, hlead, ⟨b, b', rfl, hb, -⟩, he, -⟩ := assignValue?_eq_some_iff.1 hv
    exact ⟨lead, b, b' ++ v, hlead, hb, by rw [he]; simp⟩
  · rintro ⟨lead, b, v, hlead, hb, rfl⟩
    obtain ⟨b', hb', hblank, hfirst⟩ := Text.trimStart_spec v
    refine ⟨Text.trimStart v, assignValue?_eq_some_iff.2
      ⟨lead, assignWord ++ (b ++ ':' :: b'), hlead, ⟨b, b', rfl, hb, hblank⟩, ?_, hfirst⟩⟩
    nth_rewrite 1 [hb']
    simp

theorem hasAssignBlock_iff {e : Text} :
    hasAssignBlock e = true ↔
      ∃ lead k v, (∀ c ∈ lead, isBlank c = true) ∧ IsAssignKey k ∧ e = lead ++ k ++ '{' :: v := by
  have hbrace : isBlank '{' = false := by decide
  rw [hasAssignBlock, Option.any_eq_true]
  constructor
  · rintro ⟨v, hv, hhead⟩
    obtain ⟨lead, k, hlead, hk, he, -⟩ := assignValue?_eq_some_iff.1 hv
    obtain ⟨w, rfl⟩ := List.head?_eq_some_iff.1 (beq_iff_eq.1 hhead)
    exact ⟨lead, k, w, hlead, hk, by rw [he]; simp⟩
  · rintro ⟨lead, k, v, hlead, hk, rfl⟩
    refine ⟨'{' :: v, assignValue?_eq_some_iff.2 ⟨lead, k, hlead, hk, by simp, ?_⟩, by simp⟩
    intro c hc
    cases hc
    exact hbrace

theorem hasAssignKey_of_hasAssignBlock {e : Text} (h : hasAssignBlock e = true) :
    hasAssignKey e = true := by
  obtain ⟨lead, k, v, hlead, ⟨b, b', rfl, hb, -⟩, rfl⟩ := hasAssignBlock_iff.1 h
  exact hasAssignKey_iff.2 ⟨lead, b, b' ++ '{' :: v, hlead, hb, by simp⟩

theorem hasAssignKey_of_blank {e : Text} (h : ∀ c ∈ e, isBlank c = true) :
    hasAssignKey e = false := by
  have hcolon : isBlank ':' = false := by decide
  rw [← Bool.not_eq_true]
  intro hkey
  obtain ⟨lead, b, v, -, -, rfl⟩ := hasAssignKey_iff.1 hkey
  exact ne_of_isBlank (h ':' (by simp)) hcolon rfl

theorem hasAssignBlock_of_blank {e : Text} (h : ∀ c ∈ e, isBlank c = true) :
    hasAssignBlock e = false := by
  rw [← Bool.not_eq_true]
  intro hblock
  have hkey := hasAssignKey_of_hasAssignBlock hblock
  rw [hasAssignKey_of_blank h] at hkey
  cases hkey

/-- Blanks at the end make no difference to how a text starts, up to a character that is none. -/
theorem Text.trimEnd_eq_append_cons_iff {e p : Text} {c : Char} (hc : isBlank c = false) :
    (∃ v, e.trimEnd = p ++ c :: v) ↔ ∃ v, e = p ++ c :: v := by
  constructor
  · rintro ⟨v, hv⟩
    obtain ⟨b, hb, -, -⟩ := Text.trimEnd_spec e
    exact ⟨v ++ b, by rw [hb, hv]; simp⟩
  · rintro ⟨v, rfl⟩
    obtain ⟨b, hb, hblank, hlast⟩ := Text.trimEnd_spec (c :: v)
    rw [Text.trimEnd_cons hc] at hb hlast
    refine ⟨Text.trimEnd v, ?_⟩
    rw [hb, ← List.append_assoc]
    refine Text.trimEnd_append_blanks (fun a ha => hlast a ?_) hblank
    rwa [List.getLast?_append_of_ne_nil _ (by simp)] at ha

theorem hasAssignKey_trimEnd (e : Text) : hasAssignKey e.trimEnd = hasAssignKey e := by
  have hcolon : isBlank ':' = false := by decide
  rw [Bool.eq_iff_iff, hasAssignKey_iff, hasAssignKey_iff]
  simp only [exists_and_left, Text.trimEnd_eq_append_cons_iff hcolon]

theorem hasAssignBlock_trimEnd (e : Text) : hasAssignBlock e.trimEnd = hasAssignBlock e := by
  have hbrace : isBlank '{' = false := by decide
  rw [Bool.eq_iff_iff, hasAssignBlock_iff, hasAssignBlock_iff]
  simp only [exists_and_left, Text.trimEnd_eq_append_cons_iff hbrace]

/-! ## Where the entries stand -/

/-- A part stands at the start of the text or behind a separating comma. -/
theorem exists_part {d : Int} {t e : Text} {init rest : List Text}
    (h : splitFrom d t = init ++ e :: rest) :
    ∃ y z, t = y ++ (e ++ z) ∧ (rest = [] → z = []) ∧
      ((init = [] ∧ y = []) ∨ (init ≠ [] ∧ d + all.depth y = 0 ∧ y.getLast? = some ',')) := by
  have hw : all.weight ',' = 0 := by decide
  induction t generalizing d init e with
  | nil =>
      have hone : [[]] = init ++ e :: rest := h
      cases init with
      | nil =>
          obtain ⟨rfl, -⟩ := List.cons.inj hone
          exact ⟨[], [], rfl, fun _ => rfl, Or.inl ⟨rfl, rfl⟩⟩
      | cons p init => simp at hone
  | cons c t ih =>
      rw [splitFrom] at h
      split at h
      · -- The comma ends the first part, which is empty.
        rename_i hcomma
        obtain ⟨rfl, rfl⟩ := hcomma
        cases init with
        | nil =>
            obtain ⟨rfl, hrest⟩ := List.cons.inj h
            refine ⟨[], ',' :: t, rfl, fun hnil => ?_, Or.inl ⟨rfl, rfl⟩⟩
            exact absurd (hrest.trans hnil) (splitFrom_ne_nil _ _)
        | cons p init =>
            obtain ⟨y, z, rfl, hz, hy⟩ := ih (List.cons.inj h).2
            refine ⟨',' :: y, z, rfl, hz, Or.inr ⟨by simp, ?_⟩⟩
            rcases hy with ⟨-, rfl⟩ | ⟨-, hdepth, hlast⟩
            · exact ⟨by decide, rfl⟩
            · rw [depth_cons, List.getLast?_cons, hlast]
              exact ⟨by omega, rfl⟩
      · -- The character belongs to the first part of what follows.
        obtain ⟨p, parts, hparts⟩ := List.exists_cons_of_ne_nil (splitFrom_ne_nil (d + all.weight c) t)
        rw [hparts, List.modifyHead_cons] at h
        cases init with
        | nil =>
            obtain ⟨rfl, rfl⟩ := List.cons.inj h
            have hfirst : splitFrom (d + all.weight c) t = [] ++ p :: parts := hparts
            obtain ⟨y, z, ht, hz, hy⟩ := ih hfirst
            obtain rfl : y = [] := by simpa using hy
            exact ⟨[], z, by rw [ht]; rfl, hz, Or.inl ⟨rfl, rfl⟩⟩
        | cons q init =>
            obtain ⟨-, rfl⟩ := List.cons.inj h
            have hlater : splitFrom (d + all.weight c) t = (p :: init) ++ e :: rest := hparts
            obtain ⟨y, z, rfl, hz, hy⟩ := ih hlater
            obtain ⟨-, hdepth, hlast⟩ : p :: init ≠ [] ∧ _ := hy.resolve_left (by simp)
            refine ⟨c :: y, z, rfl, hz, Or.inr ⟨by simp, ?_, ?_⟩⟩
            · rw [depth_cons]
              omega
            · rw [List.getLast?_cons, hlast]
              rfl

/-- An entry stands at the start of the object or behind a comma of depth zero. -/
theorem exists_entry {b e : Text} {init rest : List Text}
    (h : splitArguments b = init ++ e :: rest) :
    ∃ y z, b = y ++ (e ++ z) ∧ (rest = [] → z = []) ∧ all.depth y = 0 ∧
      (y = [] ∨ y.getLast? = some ',') := by
  obtain ⟨y, z, hb, hz, ⟨-, rfl⟩ | ⟨-, hdepth, hlast⟩⟩ := exists_part h
  · exact ⟨[], z, hb, hz, rfl, Or.inl rfl⟩
  · exact ⟨y, z, hb, hz, by omega, Or.inr hlast⟩

/-- The last entry before a place of depth zero has depth zero, and an identifier ends there
only if one ends at the place. -/
theorem depth_last_part {u last : Text} {init : List Text} (hu : all.depth u = 0)
    (h : splitArguments u = init ++ [last]) :
    all.depth last = 0 ∧ (isClear u.getLast? = true → isClear last.getLast? = true) := by
  obtain ⟨y, z, rfl, hz, hdepth, -⟩ := exists_entry h
  obtain rfl := hz rfl
  rw [List.append_nil, depth_append, hdepth] at hu
  refine ⟨by omega, fun hclear => ?_⟩
  cases hlast : last with
  | nil => rfl
  | cons c t =>
      rw [List.append_nil, hlast, List.getLast?_append_of_ne_nil _ (by simp)] at hclear
      exact hclear

/-- A key with a block at the start of an entry is one of the object. -/
theorem exists_mem_assignBlocks {b e : Text} (he : e ∈ splitArguments b)
    (hblock : hasAssignBlock e = true) : ∃ i, i ∈ assignBlocks ('{' :: (b ++ ['}'])) := by
  obtain ⟨init, rest, hsplit⟩ := List.append_of_mem he
  obtain ⟨y, z, rfl, -, hdepth, hy⟩ := exists_entry hsplit
  obtain ⟨lead, k, v, hlead, hk, rfl⟩ := hasAssignBlock_iff.1 hblock
  have hclear : isClear (y ++ lead).getLast? = true := by
    have hblank : isClear lead.getLast? = true := isClear_of_forall fun c hc =>
      isIdentChar_eq_false_of_isBlank (hlead c (List.mem_of_getLast? hc))
    rcases hy with rfl | hlast
    · exact hblank
    · obtain ⟨y, rfl⟩ := List.getLast?_eq_some_iff.1 hlast
      rw [List.append_assoc, List.singleton_append, isClear_getLast?_append_cons (by decide)]
      exact hblank
  refine ⟨_, mem_assignBlocks.2 ⟨'{' :: (y ++ lead), k, v ++ z ++ ['}'], by simp, hk, ?_, ?_, rfl⟩⟩
  · rw [isClear_getLast?_brace]
    exact hclear
  · have hw : all.weight '{' = 1 := by decide
    rw [depth_cons, depth_append, hw, hdepth, (balanced_blanks hlead).depth_eq]
    rfl

/-! ## The pattern at the start of an entry -/

/-- Nothing but blanks stands before the pattern of a key with a block, where the pattern is not
part of a longer identifier or inside of brackets. So the entry is no `a: b ? assign : {}`, and
it has no string with the pattern in it. -/
def KeyLeads (e : Text) : Prop :=
  ∀ n < e.length, (assignKey none (e.drop n)).isSome = true →
    isClear (e.take n).getLast? = true → all.depth (e.take n) = 0 → (e.take n).all isBlank = true

instance : DecidablePred KeyLeads := fun e =>
  inferInstanceAs (Decidable (∀ n < e.length, _))

theorem KeyLeads.isBlank_of_mem {u k v : Text} (h : KeyLeads (u ++ (k ++ '{' :: v)))
    (hk : IsAssignKey k) (hclear : isClear u.getLast? = true) (hu : all.depth u = 0) :
    ∀ c ∈ u, isBlank c = true := by
  have hkey : (assignKey none (k ++ '{' :: v)).isSome = true :=
    Option.isSome_iff_exists.2 ⟨_, assignKey_eq_some_iff.2 ⟨k, v, hk, rfl, rfl⟩⟩
  have hlen : u.length < (u ++ (k ++ '{' :: v)).length := by
    simp only [List.length_append, List.length_cons]
    omega
  have hall := h u.length hlen (by rwa [List.drop_left]) (by rwa [List.take_left])
    (by rwa [List.take_left])
  rw [List.take_left] at hall
  exact List.all_eq_true.1 hall

/-! ## The entry with the block -/

/-- The marker is added to the assign block of one entry, and the other entries stay. -/
def EditsBlock (marker : Text) (entries entries' : List Text) : Prop :=
  ∃ init lead k v tail rest, (∀ c ∈ lead, isBlank c = true) ∧ IsAssignKey k ∧ Nested v ∧
    entries = init ++ (lead ++ (k ++ '{' :: (v ++ '}' :: tail))) :: rest ∧
    entries' = init ++ (lead ++ (k ++ '{' :: (withEntry v marker ++ '}' :: tail))) :: rest

/-- An assign block belongs to one entry. What stands around it does not depend on what is
inside. -/
theorem AssignBlock.splitArguments_eq {b u k v w last first : Text} {c : Char}
    {init rest : List Text} (h : AssignBlock b u k v c w)
    (hu : splitArguments u = init ++ [last]) (hw : splitArguments w = first :: rest) :
    splitArguments b = init ++ (last ++ (k ++ '{' :: (v ++ c :: first))) :: rest := by
  have hkey : ',' ∉ k := by
    obtain ⟨p, p', rfl, hp, hp'⟩ := h.key
    have hblank : isBlank ',' = false := by decide
    simp only [List.mem_append, List.mem_cons, not_or]
    exact ⟨by decide, fun hm => ne_of_isBlank (hp _ hm) hblank rfl, by decide,
      fun hm => ne_of_isBlank (hp' _ hm) hblank rfl⟩
  have hdepth : all.depth k = 0 := depth_eq_zero_of_weight fun _ hc => h.key.weight_eq_zero hc
  -- Key and block hold no separating comma. They go on the last entry before them.
  have hone : splitFrom 0 (k ++ '{' :: (v ++ [c])) = [] ++ [k ++ '{' :: (v ++ [c])] := by
    refine splitFrom_eq_singleton ?_
    rw [separators_append, separators_of_not_mem hkey, hdepth, Int.add_zero,
      separators_object h.balanced h.closing]
  have hgroup : all.depth (k ++ '{' :: (v ++ [c])) = 0 := by
    rw [depth_append, hdepth, (h.balanced.group (by decide) h.closing).depth_eq]
    rfl
  have hrest : splitFrom 0 (k ++ '{' :: (v ++ [c]) ++ w) =
      (k ++ '{' :: (v ++ [c]) ++ first) :: rest := by
    refine splitFrom_append hone ?_
    rw [hgroup]
    exact hw
  have heq : b = u ++ (k ++ '{' :: (v ++ [c]) ++ w) := by
    rw [h.eq]
    simp
  have hsplit := splitFrom_append hu (v := k ++ '{' :: (v ++ [c]) ++ w) (by
    rw [h.before.depth_eq]
    exact hrest)
  rw [heq, splitArguments, hsplit]
  simp

/-- The brackets around a block, and those inside of it. -/
theorem AssignBlock.nested {b u k v w : Text} {c : Char} (h : AssignBlock b u k v c w)
    (hb : Nested b) :
    c = '}' ∧ Nested v ∧ ∀ v', Nested v' → Nested (u ++ (k ++ '{' :: (v' ++ c :: w))) := by
  have hdepth : all.depth k = 0 := depth_eq_zero_of_weight fun _ hc => h.key.weight_eq_zero hc
  rw [h.eq] at hb
  obtain ⟨hu, hrest⟩ := hb.of_append h.before.depth_eq
  obtain ⟨hk, hblock⟩ := hrest.of_append hdepth
  obtain ⟨hpartner, hv, hw⟩ := hblock.of_group (by decide) h.balanced h.closing
  obtain rfl : '}' = c := Option.some.inj hpartner
  exact ⟨rfl, hv, fun v' hv' => hu.append (hk.append (hv'.group rfl hw))⟩

theorem nested_identifier (name : Identifier) : Nested name.text :=
  Nested.of_weight fun _ hc => weight_of_isIdentChar (name.isIdentChar_of_mem hc)

theorem nested_withEntry {v : Text} (hv : Nested v) (marker : Identifier) :
    Nested (withEntry v marker.text) := by
  have hspace : Nested [' '] := Nested.of_all (by decide)
  have hsep : Nested
      (if v.trim.isEmpty || v.trim.endsWith ',' then [] else [',', ' '] : Text) := by
    split
    · exact Nested.nil
    · exact Nested.of_all (by decide)
  exact (((hspace.append hv.trim).append hsep).append (nested_identifier marker)).append hspace

/-- The first assign block of an object belongs to an entry with a block. -/
theorem AssignBlock.editsBlock {b u k v w : Text} (h : AssignBlock b u k v '}' w) (hv : Nested v)
    (marker : Identifier) (hlead : ∀ e ∈ splitArguments b, KeyLeads e) :
    EditsBlock marker.text (splitArguments b)
      (splitArguments (u ++ (k ++ '{' :: (withEntry v marker.text ++ '}' :: w)))) := by
  obtain ⟨init, last, hu⟩ := exists_splitFrom_concat 0 u
  obtain ⟨first, rest, hw⟩ := List.exists_cons_of_ne_nil (splitFrom_ne_nil 0 w)
  obtain ⟨hdepth, hclear⟩ := depth_last_part h.before.depth_eq hu
  have hsplit := h.splitArguments_eq hu hw
  have hblank : ∀ c ∈ last, isBlank c = true := by
    have hentry := hlead (last ++ (k ++ '{' :: (v ++ '}' :: first))) (by rw [hsplit]; simp)
    exact hentry.isBlank_of_mem h.key (hclear h.clear) hdepth
  have hnew : AssignBlock (u ++ (k ++ '{' :: (withEntry v marker.text ++ '}' :: w))) u k
      (withEntry v marker.text) '}' w :=
    ⟨rfl, h.before, h.clear, h.key, (nested_withEntry hv marker).balanced, h.closing⟩
  exact ⟨init, last, k, v, first, rest, hblank, h.key, hv, hsplit, hnew.splitArguments_eq hu hw⟩

/-- The edited entry has the key and the block before and afterwards. -/
theorem EditsBlock.countP_eq {marker : Text} {entries entries' : List Text}
    (h : EditsBlock marker entries entries') {p : Text → Bool}
    (hp : ∀ e, hasAssignBlock e = true → p e = true) :
    entries'.countP p = entries.countP p ∧ 0 < entries.countP p := by
  obtain ⟨init, lead, k, v, tail, rest, hlead, hk, -, rfl, rfl⟩ := h
  have hentry : ∀ x, p (lead ++ (k ++ '{' :: x)) = true := fun x =>
    hp _ (hasAssignBlock_iff.2 ⟨lead, k, x, hlead, hk, by simp⟩)
  simp only [List.countP_append, List.countP_cons, hentry, if_true]
  exact ⟨trivial, by omega⟩

/-! ## A new entry -/

theorem assignClause_eq (marker : Text) :
    assignClause marker = assignWord ++ ([] ++ ':' :: [' ']) ++
      '{' :: ([' '] ++ (marker ++ [' ']) ++ ['}']) := by
  simp [assignClause, assignWord]

theorem isAssignKey_clause : IsAssignKey (assignWord ++ ([] ++ ':' :: [' '])) :=
  ⟨[], [' '], rfl, by simp, forall_mem_of_all (by decide)⟩

theorem nested_assignClause (marker : Identifier) : Nested (assignClause marker.text) := by
  have hspace : Nested [' '] := Nested.of_all (by decide)
  have hkey : Nested (assignWord ++ ([] ++ ':' :: [' '])) := Nested.of_all (by decide)
  rw [assignClause_eq]
  exact hkey.append
    ((hspace.append ((nested_identifier marker).append hspace)).group rfl Nested.nil)

theorem isArgument_assignClause (marker : Identifier) :
    IsArgument (assignClause marker.text) := by
  have hspace : all.Balanced [' '] := Balanced.of_all (by decide)
  constructor
  · have hkey : separators 0 (assignWord ++ ([] ++ ':' :: [' '])) = 0 :=
      separators_of_not_mem (by decide)
    have hdepth : all.depth (assignWord ++ ([] ++ ':' :: [' '])) = 0 := by decide
    have hclosing : all.isClosing '}' = true := by decide
    rw [assignClause_eq, separators_append, hkey, hdepth, Int.add_zero,
      separators_object (hspace.append ((balanced_identifier marker).append hspace)) hclosing]
  · intro c hc
    obtain rfl : 'a' = c := by simpa [assignClause] using hc
    decide
  · intro c hc
    rw [assignClause_eq, ← List.cons_append, ← List.append_assoc, List.getLast?_concat] at hc
    obtain rfl := Option.some.inj hc
    decide

/-- The clause that is added is an entry with a block. -/
theorem hasAssignBlock_of_trim {e : Text} {marker : Text} (h : e.trim = assignClause marker) :
    hasAssignBlock e = true := by
  obtain ⟨lead, tail, he, hlead, -, -, -⟩ := Text.trim_spec e
  rw [h, assignClause_eq] at he
  exact hasAssignBlock_iff.2 ⟨lead, _, _, hlead, isAssignKey_clause, by simpa using he⟩

/-- An added entry is one more of its sort. -/
theorem AddsArgument.countP_eq {new : Text} {entries entries' : List Text}
    (h : AddsArgument new entries entries') {p : Text → Bool}
    (hblank : ∀ e : Text, (∀ c ∈ e, isBlank c = true) → p e = false)
    (htrim : ∀ e : Text, p e.trimEnd = p e) (hnew : ∀ e : Text, e.trim = new → p e = true) :
    entries'.countP p = entries.countP p + 1 := by
  obtain ⟨init, last, added, rfl, hadded, rfl⟩ := h
  have hone := hnew added hadded
  split
  · rename_i hall
    have hlast := hblank last (List.all_eq_true.1 hall)
    simp [List.countP_append, hlast, hone]
  · simp only [List.countP_append, List.countP_cons, List.countP_nil, htrim, hone, if_true]
    omega

/-- Without an assign block, the clause is added as an entry. -/
theorem addsArgument_clause {b : Text} (hb : all.Balanced b) (marker : Identifier) :
    AddsArgument (assignClause marker.text) (splitArguments b) (splitArguments
      (b.trimEnd ++ (clauseSeparator ('{' :: b) ++ (assignClause marker.text ++ [' '])))) := by
  have hspace : ∀ c ∈ [' '], isBlank c = true := forall_mem_of_all (by decide)
  have hadd := addsArgument_trimEnd (isArgument_assignClause marker) hspace hspace hb
  rw [Wiring.clauseSeparator_brace]
  split at hadd
  · rename_i hcomma
    rw [if_pos hcomma]
    simpa using hadd
  · rename_i hcomma
    rw [if_neg hcomma]
    simpa using hadd

theorem nested_clause {b : Text} (hb : Nested b) (marker : Identifier) :
    Nested (b.trimEnd ++ (clauseSeparator ('{' :: b) ++ (assignClause marker.text ++ [' ']))) := by
  have hsep : Nested (clauseSeparator ('{' :: b)) := by
    rcases clauseSeparator_cases ('{' :: b) with h | h
    · rw [h]
      exact Nested.of_all (by decide)
    · rw [h]
      exact Nested.of_all (by decide)
  exact hb.trimEnd.append
    (hsep.append ((nested_assignClause marker).append (Nested.of_all (by decide))))

/-! ## One block -/

/-- **Adding the marker to an object** edits the entry with a block, or adds one. -/
theorem exists_injectMarker_entries {b : Text} (marker : Identifier) (hb : Nested b)
    (hlead : ∀ e ∈ splitArguments b, KeyLeads e) :
    ∃ b', injectMarker ('{' :: (b ++ ['}'])) marker.text = '{' :: (b' ++ ['}']) ∧ Nested b' ∧
      if (splitArguments b).any hasAssignBlock then
        EditsBlock marker.text (splitArguments b) (splitArguments b')
      else AddsArgument (assignClause marker.text) (splitArguments b) (splitArguments b') := by
  cases hfirst : (assignBlocks ('{' :: (b ++ ['}']))).head? with
  | none =>
      -- A block at the start of an entry would have been found.
      have hnone : ¬ (splitArguments b).any hasAssignBlock = true := by
        intro hany
        obtain ⟨e, he, hblock⟩ := List.any_eq_true.1 hany
        obtain ⟨i, hi⟩ := exists_mem_assignBlocks he hblock
        rw [List.head?_eq_none_iff.1 hfirst] at hi
        cases hi
      refine ⟨_, ?_, nested_clause hb marker, ?_⟩
      · rw [injectMarker, hfirst]
        exact (appendAssign_object marker hb.balanced).1
      · rw [if_neg hnone]
        exact addsArgument_clause hb.balanced marker
  | some i =>
      obtain ⟨u, k, v, c, w, hblock, rfl⟩ :=
        (mem_assignBlocks_object hb.balanced (by decide)).1 (List.mem_of_head? hfirst)
      obtain ⟨rfl, hv, hnested⟩ := hblock.nested hb
      have hedit := hblock.editsBlock hv marker hlead
      have hany : (splitArguments b).any hasAssignBlock = true := by
        obtain ⟨e, he, hentry⟩ := List.countP_pos_iff.1 (hedit.countP_eq fun _ h => h).2
        exact List.any_eq_true.2 ⟨e, he, hentry⟩
      refine ⟨_, injectMarker_block hblock hfirst, hnested _ (nested_withEntry hv marker), ?_⟩
      rw [if_pos hany]
      exact hedit

/-- Whether the entry is `assign: value`, and the value is no block. -/
def hasOtherAssign (e : Text) : Bool := hasAssignKey e && !hasAssignBlock e

theorem countP_hasAssignKey (entries : List Text) :
    entries.countP hasAssignKey =
      entries.countP hasAssignBlock + entries.countP hasOtherAssign := by
  induction entries with
  | nil => rfl
  | cons e entries ih =>
      rw [List.countP_cons, List.countP_cons, List.countP_cons, ih, hasOtherAssign]
      cases hblock : hasAssignBlock e with
      | true =>
          simp only [hasAssignKey_of_hasAssignBlock hblock, Bool.not_true, Bool.and_false, if_true]
          simp only [Bool.false_eq_true, if_false]
          omega
      | false =>
          simp only [Bool.not_false, Bool.and_true, Bool.false_eq_true, if_false]
          omega

/-- **One assign block.** An object whose brackets are nested by kind, and that has the key
`assign` at most once, is again nested with the marker, and it has one assign block. All entries
but the one with the block keep their text. The key stands in the object once, and once more if
there was an entry `assign: value` without a block. -/
theorem injectMarker_one_block {b : Text} (marker : Identifier) (hb : Nested b)
    (hone : (splitArguments b).countP hasAssignKey ≤ 1)
    (hlead : ∀ e ∈ splitArguments b, KeyLeads e) :
    ∃ b', injectMarker ('{' :: (b ++ ['}'])) marker.text = '{' :: (b' ++ ['}']) ∧ Nested b' ∧
      (splitArguments b').countP hasAssignBlock = 1 ∧
      (splitArguments b').countP hasAssignKey = 1 + (splitArguments b).countP hasOtherAssign ∧
      if (splitArguments b).any hasAssignBlock then
        EditsBlock marker.text (splitArguments b) (splitArguments b')
      else AddsArgument (assignClause marker.text) (splitArguments b) (splitArguments b') := by
  obtain ⟨b', hinject, hnested, hentries⟩ := exists_injectMarker_entries marker hb hlead
  have hsum := countP_hasAssignKey (splitArguments b)
  refine ⟨b', hinject, hnested, ?_⟩
  split at hentries
  · -- The entry with the block is the only one with the key, before and afterwards.
    rename_i hany
    obtain ⟨hkeys, -⟩ := hentries.countP_eq (p := hasAssignKey)
      fun _ h => hasAssignKey_of_hasAssignBlock h
    obtain ⟨hblocks, hpos⟩ := hentries.countP_eq (p := hasAssignBlock) fun _ h => h
    rw [if_pos hany]
    exact ⟨by omega, by omega, hentries⟩
  · -- The new entry is the only one with a block, and one more with the key.
    rename_i hany
    have hzero : (splitArguments b).countP hasAssignBlock = 0 :=
      List.countP_eq_zero.2 fun e he hblock => hany (List.any_eq_true.2 ⟨e, he, hblock⟩)
    have hkeys := hentries.countP_eq (fun _ => hasAssignKey_of_blank) hasAssignKey_trimEnd
      fun _ h => hasAssignKey_of_hasAssignBlock (hasAssignBlock_of_trim h)
    have hblocks := hentries.countP_eq (fun _ => hasAssignBlock_of_blank) hasAssignBlock_trimEnd
      fun _ h => hasAssignBlock_of_trim h
    rw [if_neg hany]
    exact ⟨by omega, by omega, hentries⟩

/-- Three entries. The first one has the key in an object of its own. -/
def layeredEntries : Text :=
  " v: \x7b assign: w \x7d, assign : \x7b a: [b, c] \x7d, f(x, y) \x7b\x7d, ".toList

theorem injectMarker_one_block_layeredEntries :
    Nested layeredEntries ∧ (splitArguments layeredEntries).countP hasAssignKey = 1 ∧
      (∀ e ∈ splitArguments layeredEntries, KeyLeads e) ∧
      ∃ b', injectMarker ('{' :: (layeredEntries ++ ['}'])) Identifier.styles.text =
          '{' :: (b' ++ ['}']) ∧
        (splitArguments b').countP hasAssignKey = 1 ∧
        EditsBlock Identifier.styles.text (splitArguments layeredEntries) (splitArguments b') := by
  have hb : Nested layeredEntries := by decide +kernel
  have hone : (splitArguments layeredEntries).countP hasAssignKey = 1 := by decide +kernel
  have hlead : ∀ e ∈ splitArguments layeredEntries, KeyLeads e := by decide +kernel
  have hany : (splitArguments layeredEntries).any hasAssignBlock = true := by decide +kernel
  have hother : (splitArguments layeredEntries).countP hasOtherAssign = 0 := by decide +kernel
  obtain ⟨b', hinject, -, -, hkeys, hedit⟩ := injectMarker_one_block .styles hb (Nat.le_of_eq hone) hlead
  rw [if_pos hany] at hedit
  rw [hother] at hkeys
  exact ⟨hb, hone, hlead, b', hinject, hkeys, hedit⟩

-- The key has to lead its entry: here the pattern stands in the value of another key, the marker
-- goes there, and the object has no assign block afterwards.
example :
    let b := " a: c ? assign : \x7b x \x7d ".toList
    let b' := " a: c ? assign : \x7b x, $styles \x7d ".toList
    Nested b ∧ (splitArguments b).countP hasAssignKey = 0 ∧
      (¬ ∀ e ∈ splitArguments b, KeyLeads e) ∧
      injectMarker ('{' :: (b ++ ['}'])) Identifier.styles.text = '{' :: (b' ++ ['}']) ∧
      (splitArguments b').countP hasAssignBlock = 0 := by
  decide +kernel

/-- An object has the key twice afterwards if its value is no block. -/
theorem injectMarker_repeats_key :
    let b := " assign: shared ".toList
    let b' := " assign: shared, assign: \x7b $styles \x7d ".toList
    Nested b ∧ (splitArguments b).countP hasAssignKey = 1 ∧
      injectMarker ('{' :: (b ++ ['}'])) Identifier.styles.text = '{' :: (b' ++ ['}']) ∧
      (splitArguments b').countP hasAssignKey = 2 := by
  decide +kernel

end Stylewire
