import Stylewire.OptionsObject
import Stylewire.Proofs.ArgumentList
import Stylewire.Proofs.CallSite

set_option autoImplicit false

/-! # Which calls are marked

`isMarked` searches the objects of an argument list for assign blocks, and these for the
marker. Here the outcome is told by how the text of the list is cut (`isMarked_iff`): an object
argument holds, outside all inner brackets, a key `assign` with a block (`AssignBlock`), and the
block holds, outside all inner brackets, the marker as a token of its own (`HasEntry`). All
pieces between are balanced, so what happens inside of other brackets does not matter.

The same search tells where the marker stands: `markerEntries` lists all its places in the
assign blocks of a call, and `mem_markerEntries` tells them by the same cuts.
-/

namespace Stylewire

open Brackets

/-! ## Keys -/

/-- The word `assign`. -/
def assignWord : Text := ['a', 's', 's', 'i', 'g', 'n']

/-- The text of a key `assign`, up to the value: the word and a colon, with blanks around the
colon. -/
def IsAssignKey (k : Text) : Prop :=
  ∃ b b', k = assignWord ++ (b ++ ':' :: b') ∧ (∀ c ∈ b, isBlank c = true) ∧
    ∀ c ∈ b', isBlank c = true

theorem assignKey_eq_some_iff {prev : Option Char} {t : Text} {n : Nat} :
    assignKey prev t = some n ↔
      ∃ k r, IsAssignKey k ∧ t = k ++ '{' :: r ∧ n = k.length + 1 := by
  have hcolon : isBlank ':' = false := by decide
  have hbrace : isBlank '{' = false := by decide
  unfold assignKey
  constructor
  · intro h
    obtain ⟨r, hr, hm⟩ := Option.bind_eq_some_iff.1 h
    obtain ⟨b, hb, hlen, hblank⟩ := Text.eq_blanks_append r
    split at hm
    · rename_i u hu
      obtain ⟨b', hb', hlen', hblank'⟩ := Text.eq_blanks_append u
      split at hm
      · rename_i v hv
        refine ⟨assignWord ++ (b ++ ':' :: b'), v, ⟨b, b', rfl, hblank, hblank'⟩, ?_, ?_⟩
        · rw [stripWord_eq_some_iff.1 hr, hb, hu, hb', hv]
          simp [assignWord]
        · rw [← hlen, ← hlen'] at hm
          have hn := Option.some.inj hm
          simp only [assignWord, List.length_append, List.length_cons, List.length_nil]
          omega
      · cases hm
    · cases hm
  · rintro ⟨k, r, ⟨b, b', rfl, hb, hb'⟩, rfl, rfl⟩
    have heq : assignWord ++ (b ++ ':' :: b') ++ '{' :: r =
        assignWord ++ (b ++ ':' :: (b' ++ '{' :: r)) := by simp
    have hstrip : stripWord ['a', 's', 's', 'i', 'g', 'n']
        (assignWord ++ (b ++ ':' :: (b' ++ '{' :: r))) = some (b ++ ':' :: (b' ++ '{' :: r)) :=
      stripWord_eq_some_iff.2 rfl
    rw [heq, hstrip]
    simp only [Option.bind_eq_bind, Option.bind_some, Text.blanks_append_cons hb hcolon,
      Text.blanks_append_cons hb' hbrace, List.drop_left]
    simp only [assignWord, List.length_append, List.length_cons, List.length_nil]
    congr 1
    omega

/-- A key starts with the only `a` in it. -/
theorem IsAssignKey.eq_cons {k : Text} (hk : IsAssignKey k) : ∃ q, k = 'a' :: q ∧ 'a' ∉ q := by
  obtain ⟨b, b', rfl, hb, hb'⟩ := hk
  refine ⟨['s', 's', 'i', 'g', 'n'] ++ (b ++ ':' :: b'), rfl, ?_⟩
  have hblank : isBlank 'a' = false := by decide
  simp only [List.mem_append, List.mem_cons, not_or]
  refine ⟨by decide, fun h => ?_, by decide, fun h => ?_⟩
  · exact ne_of_isBlank (hb _ h) hblank rfl
  · exact ne_of_isBlank (hb' _ h) hblank rfl

/-- The characters of a key have no weight. -/
theorem IsAssignKey.weight_eq_zero {k : Text} (hk : IsAssignKey k) {c : Char} (hc : c ∈ k) :
    all.weight c = 0 := by
  obtain ⟨b, b', rfl, hb, hb'⟩ := hk
  have hword : ∀ a ∈ assignWord, all.weight a = 0 := forall_mem_of_all (by decide)
  have hcolon : all.weight ':' = 0 := by decide
  simp only [List.mem_append, List.mem_cons] at hc
  rcases hc with hc | hc | rfl | hc
  · exact hword c hc
  · exact weight_of_isBlank (hb c hc)
  · exact hcolon
  · exact weight_of_isBlank (hb' c hc)

theorem separate_assignKey : assignKey.Separate := by
  intro prev t n ht u v huv hu hlt _
  obtain ⟨k, r, hk, rfl, rfl⟩ := assignKey_eq_some_iff.1 ht
  rw [← Option.not_isSome_iff_eq_none, Option.isSome_iff_exists]
  rintro ⟨m, hm⟩
  obtain ⟨k', r', hk', rfl, -⟩ := assignKey_eq_some_iff.1 hm
  obtain ⟨q, rfl, hq⟩ := hk.eq_cons
  obtain ⟨q', rfl, -⟩ := hk'.eq_cons
  -- The second key would start with an `a` behind the first character of the first key.
  cases u with
  | nil => exact hu rfl
  | cons a u =>
      obtain ⟨rfl, huv'⟩ : 'a' = a ∧ q ++ '{' :: r = u ++ 'a' :: (q' ++ '{' :: r') := by
        simpa using huv
      have hpre : u ++ ['a'] <+: q ++ ['{'] := by
        refine List.prefix_of_prefix_length_le ⟨q' ++ '{' :: r', ?_⟩ ⟨r, rfl⟩ ?_
        · rw [List.append_assoc, List.append_assoc, List.singleton_append,
            List.singleton_append, ← huv']
        · simp only [List.length_cons, List.length_append, List.length_nil] at hlt ⊢
          omega
      have hmem : 'a' ∈ q ++ ['{'] := hpre.subset (by simp)
      rcases List.mem_append.1 hmem with h | h
      · exact hq h
      · exact absurd h (by decide)

/-- **The assign blocks of a text** open behind the keys of depth one that are clear of
identifiers. -/
theorem mem_assignBlocks {body : Text} {i : Nat} :
    i ∈ assignBlocks body ↔
      ∃ u k v, body = u ++ (k ++ '{' :: v) ∧ IsAssignKey k ∧ isClear u.getLast? = true ∧
        all.depth u = 1 ∧ i = u.length + k.length := by
  have hn : ∀ prev, assignKey prev [] = none := fun _ => rfl
  have hfind := Recognizer.filter_findAll separate_assignKey hn body
  have hmem : ∀ m, (m ∈ assignKey.findAll body ∧ body.clearBefore m.start = true) ↔
      m ∈ assignKey.clearFrom 0 none body := by
    intro m
    rw [← hfind, List.mem_filter]
  simp only [assignBlocks, List.mem_map, List.mem_filter, Bool.and_eq_true, beq_iff_eq]
  constructor
  · rintro ⟨m, ⟨hm, hclear, hdepth⟩, rfl⟩
    obtain ⟨u, v, n, rfl, rfl, hu, hkey⟩ :=
      (Recognizer.mem_clearFrom hn).1 ((hmem m).1 ⟨hm, hclear⟩)
    obtain ⟨k, r, hk, rfl, rfl⟩ := assignKey_eq_some_iff.1 hkey
    rw [Text.lastFrom_none] at hu
    rw [Nat.zero_add, List.take_left] at hdepth
    exact ⟨u, k, r, rfl, hk, hu, hdepth, by simp only [Nat.zero_add]; omega⟩
  · rintro ⟨u, k, v, rfl, hk, hu, hdepth, rfl⟩
    rw [← Text.lastFrom_none] at hu
    obtain ⟨hm, hclear⟩ := (hmem ⟨0 + u.length, 0 + u.length + (k.length + 1)⟩).2
      ((Recognizer.mem_clearFrom hn).2 ⟨u, k ++ '{' :: v, k.length + 1, rfl, rfl, hu,
        assignKey_eq_some_iff.2 ⟨k, v, hk, rfl, rfl⟩⟩)
    refine ⟨_, ⟨hm, hclear, ?_⟩, by simp only [Nat.zero_add]; omega⟩
    rw [Nat.zero_add, List.take_left]
    exact hdepth

/-- The assign blocks come in ascending order. -/
theorem pairwise_assignBlocks (body : Text) : (assignBlocks body).Pairwise (· < ·) := by
  rw [assignBlocks, List.pairwise_map]
  refine List.Pairwise.filter _ ?_
  refine (assignKey.pairwise_findFrom 0 0 none body).imp_of_mem fun {m m'} _ hm' hle => ?_
  obtain ⟨u, v, n, -, rfl, hr⟩ := Recognizer.exists_of_mem_findFrom hm'
  obtain ⟨k, r, hk, -, rfl⟩ := assignKey_eq_some_iff.1 hr
  obtain ⟨q, rfl, -⟩ := hk.eq_cons
  rw [List.length_cons]
  simp only at hle ⊢
  omega

/-- The positions at which the marker stands in the block as a token of its own, at depth
one. -/
def directEntries (block marker : Text) : List Nat :=
  (block.tokenStarts marker).filter fun i => all.depth (block.take i) == 1

theorem hasDirectEntry_iff {block marker : Text} :
    hasDirectEntry block marker = true ↔ ∃ i, i ∈ directEntries block marker := by
  simp only [hasDirectEntry, directEntries, List.any_eq_true, List.mem_filter]

theorem mem_directEntries {block : Text} (marker : Identifier) {i : Nat} :
    i ∈ directEntries block marker.text ↔
      ∃ u v, block = u ++ (marker.text ++ v) ∧ isClear u.getLast? = true ∧
        isClear v.head? = true ∧ all.depth u = 1 ∧ i = u.length := by
  rw [directEntries, List.mem_filter, Text.mem_tokenStarts marker.text_ne_nil
    fun _ hc => marker.isIdentChar_of_mem hc, beq_iff_eq]
  constructor
  · rintro ⟨⟨u, v, rfl, rfl, hu, hv⟩, hdepth⟩
    rw [List.take_left] at hdepth
    exact ⟨u, v, rfl, hu, hv, hdepth, rfl⟩
  · rintro ⟨u, v, rfl, hu, hv, hdepth, rfl⟩
    refine ⟨⟨u, v, rfl, rfl, hu, hv⟩, ?_⟩
    rw [List.take_left]
    exact hdepth

/-! ## Objects -/

/-- In the text `b` inside an object, a key `k` of the object itself has a block: before the
key stands `u`, inside the block up to its closing bracket `c` stands `x`, and behind it
`w`. -/
structure AssignBlock (b u k x : Text) (c : Char) (w : Text) : Prop where
  eq : b = u ++ (k ++ '{' :: (x ++ c :: w))
  before : all.Balanced u
  clear : isClear u.getLast? = true
  key : IsAssignKey k
  balanced : all.Balanced x
  closing : all.isClosing c = true

/-- The text `x` inside a block has the marker as a token of its own, outside all brackets. -/
def HasEntry (x : Text) (marker : Text) : Prop :=
  ∃ y z, x = y ++ (marker ++ z) ∧ all.Balanced y ∧ isClear y.getLast? = true ∧
    isClear z.head? = true

/-- The text `b` inside an object has the marker in an assign block of the object itself. -/
def Assigns (b : Text) (marker : Text) : Prop :=
  ∃ u k x c w, AssignBlock b u k x c w ∧ HasEntry x marker

/-- The text `x` between the parentheses has the marker in one of its object arguments. -/
def Marked (x : Text) (marker : Text) : Prop :=
  ∃ y b c z, ObjectArgument x y b c z ∧ Assigns b marker

/-- The marker stands `n` characters behind the start of the text `x` inside a block, as a
token of its own, outside all brackets. -/
def EntryAt (x marker : Text) (n : Nat) : Prop :=
  ∃ y z, x = y ++ (marker ++ z) ∧ all.Balanced y ∧ isClear y.getLast? = true ∧
    isClear z.head? = true ∧ n = y.length

/-- The marker stands `n` characters behind the start of the text `b` inside an object, in an
assign block of the object itself. -/
def AssignsAt (b marker : Text) (n : Nat) : Prop :=
  ∃ u k x c w m, AssignBlock b u k x c w ∧ EntryAt x marker m ∧ n = u.length + k.length + 1 + m

/-- The marker stands `n` characters behind the parenthesis, in one of the object arguments of
the text `x` between the parentheses. -/
def MarkedAt (x marker : Text) (n : Nat) : Prop :=
  ∃ y b c z m, ObjectArgument x y b c z ∧ AssignsAt b marker m ∧ n = y.length + 1 + m

theorem hasEntry_iff_exists {x marker : Text} : HasEntry x marker ↔ ∃ n, EntryAt x marker n := by
  constructor
  · rintro ⟨y, z, hx, hy, hclear, hz⟩
    exact ⟨y.length, y, z, hx, hy, hclear, hz, rfl⟩
  · rintro ⟨_, y, z, hx, hy, hclear, hz, rfl⟩
    exact ⟨y, z, hx, hy, hclear, hz⟩

theorem assigns_iff_exists {b marker : Text} : Assigns b marker ↔ ∃ n, AssignsAt b marker n := by
  constructor
  · rintro ⟨u, k, x, c, w, hblock, hentry⟩
    obtain ⟨m, hm⟩ := hasEntry_iff_exists.1 hentry
    exact ⟨_, u, k, x, c, w, m, hblock, hm, rfl⟩
  · rintro ⟨_, u, k, x, c, w, m, hblock, hm, rfl⟩
    exact ⟨u, k, x, c, w, hblock, hasEntry_iff_exists.2 ⟨m, hm⟩⟩

theorem marked_iff_exists {x marker : Text} : Marked x marker ↔ ∃ n, MarkedAt x marker n := by
  constructor
  · rintro ⟨y, b, c, z, hobj, hassigns⟩
    obtain ⟨m, hm⟩ := assigns_iff_exists.1 hassigns
    exact ⟨_, y, b, c, z, m, hobj, hm, rfl⟩
  · rintro ⟨_, y, b, c, z, m, hobj, hm, rfl⟩
    exact ⟨y, b, c, z, hobj, assigns_iff_exists.2 ⟨m, hm⟩⟩

theorem isClear_of_isClosing {c : Char} (hc : all.isClosing c = true) :
    isClear (some c) = true := by
  simp only [isClosing, Bool.or_eq_true, beq_iff_eq] at hc
  rcases hc with (rfl | rfl) | rfl <;> decide

/-- A brace before a text makes no difference to whether an identifier ends there. -/
theorem isClear_getLast?_brace (u : Text) :
    isClear ('{' :: u).getLast? = isClear u.getLast? := by
  cases u with
  | nil => rfl
  | cons a u => rw [List.getLast?_cons_cons]

/-- A text of depth one in an object starts with the brace of the object. -/
theorem exists_cons_of_depth {b u v : Text} {c : Char} (h : '{' :: (b ++ [c]) = u ++ v)
    (hu : all.depth u = 1) : ∃ q, u = '{' :: q ∧ b ++ [c] = q ++ v ∧ all.depth q = 0 := by
  cases u with
  | nil => cases hu
  | cons a q =>
      obtain ⟨rfl, h'⟩ : '{' = a ∧ b ++ [c] = q ++ v := by simpa using h
      have hw : all.weight '{' = 1 := by decide
      rw [depth_cons, hw] at hu
      exact ⟨q, rfl, h', by omega⟩

/-- The blocks found in an object are its assign blocks. -/
theorem mem_assignBlocks_object {b : Text} {c : Char} (hb : all.Balanced b)
    (hc : all.isClosing c = true) {i : Nat} :
    i ∈ assignBlocks ('{' :: (b ++ [c])) ↔
      ∃ u k x e w, AssignBlock b u k x e w ∧ i = 1 + u.length + k.length := by
  rw [mem_assignBlocks]
  constructor
  · rintro ⟨u, k, v, heq, hk, hclear, hdepth, rfl⟩
    obtain ⟨u, rfl, hbc, hd⟩ := exists_cons_of_depth heq hdepth
    -- The brace of the block is not the closing bracket of the object, so it lies in `b`.
    rcases List.eq_nil_or_concat v with rfl | ⟨v, e, rfl⟩
    · have hlast : c = '{' := by
        have := congrArg List.getLast? hbc
        simpa [← List.append_assoc] using this
      rw [hlast] at hc
      cases hc
    · rw [List.concat_eq_append, ← List.cons_append, ← List.append_assoc,
        ← List.append_assoc] at hbc
      obtain ⟨rfl, -⟩ := List.append_inj' hbc rfl
      have hclosed : all.Closed ('{' :: v) := hb.closed.of_append_right
      obtain ⟨x, e', w, rfl, hx, he'⟩ := hclosed.exists_closing (by decide)
      rw [isClear_getLast?_brace] at hclear
      rw [List.append_assoc] at hb ⊢
      exact ⟨u, k, x, e', w, ⟨rfl, hb.of_append_left hd, hclear, hk, hx, he'⟩,
        by rw [List.length_cons]; omega⟩
  · rintro ⟨u, k, x, e, w, ⟨rfl, hu, hclear, hk, -, -⟩, rfl⟩
    refine ⟨'{' :: u, k, x ++ e :: w ++ [c], by simp, hk, ?_, ?_, ?_⟩
    · rw [isClear_getLast?_brace]
      exact hclear
    · have hw : all.weight '{' = 1 := by decide
      rw [depth_cons, hw, hu.depth_eq]
      rfl
    · rw [List.length_cons]
      omega

/-- The closing bracket of an assign block in an object. -/
theorem AssignBlock.closing?_eq {b u k x w : Text} {c e : Char} (h : AssignBlock b u k x e w) :
    all.closing? ('{' :: (b ++ [c])) (1 + u.length + k.length) =
      some (1 + u.length + k.length + 1 + x.length) := by
  refine closing?_eq_some_iff.2 ⟨'{' :: (u ++ k), '{', x, e, w ++ [c], ?_, ?_, rfl, by decide,
    h.balanced, h.closing⟩
  · rw [h.eq]
    simp
  · rw [List.length_cons, List.length_append]
    omega

/-- The places of the marker among the entries of a block. -/
theorem mem_directEntries_block {x : Text} {c : Char} (marker : Identifier)
    (hx : all.Balanced x) (hc : all.isClosing c = true) {i : Nat} :
    i ∈ directEntries ('{' :: (x ++ [c])) marker.text ↔
      ∃ n, EntryAt x marker.text n ∧ i = 1 + n := by
  rw [mem_directEntries]
  constructor
  · rintro ⟨u, v, heq, hu, hv, hdepth, rfl⟩
    obtain ⟨y, rfl, hxc, hd⟩ := exists_cons_of_depth heq hdepth
    -- The marker does not hold the closing bracket, so it lies in `x`.
    rcases List.eq_nil_or_concat v with rfl | ⟨z, e, rfl⟩
    · exfalso
      obtain ⟨m, a, hma⟩ := (List.eq_nil_or_concat marker.text).resolve_left marker.text_ne_nil
      have hlast : c = a := by
        have := congrArg List.getLast? hxc
        simpa [hma, ← List.append_assoc] using this
      have hident := marker.isIdentChar_of_mem (c := a) (by rw [hma]; simp)
      have hclear := isClear_of_isClosing hc
      rw [hlast] at hclear
      simp [isClear, hident] at hclear
    · rw [List.concat_eq_append, ← List.append_assoc, ← List.append_assoc] at hxc
      obtain ⟨rfl, -⟩ := List.append_inj' hxc rfl
      rw [isClear_getLast?_brace] at hu
      refine ⟨y.length, ⟨y, z, by simp, ?_, hu, ?_, rfl⟩, by rw [List.length_cons]; omega⟩
      · rw [List.append_assoc] at hx
        exact hx.of_append_left hd
      · cases z with
        | nil => rfl
        | cons a z => simpa using hv
  · rintro ⟨_, ⟨y, z, rfl, hy, hclear, hz, rfl⟩, rfl⟩
    refine ⟨'{' :: y, z ++ [c], by simp, ?_, ?_, ?_, by rw [List.length_cons]; omega⟩
    · rw [isClear_getLast?_brace]
      exact hclear
    · cases z with
      | nil => exact isClear_of_isClosing hc
      | cons a z => exact hz
    · have hw : all.weight '{' = 1 := by decide
      rw [depth_cons, hw, hy.depth_eq]
      rfl

/-- The positions at which the marker stands directly in the block of `body` that opens at
`first`. -/
def blockEntries (body marker : Text) (first : Nat) : List Nat :=
  match all.closing? body first with
  | some last => (directEntries (body.slice first (last + 1)) marker).map (first + ·)
  | none => []

/-- The positions at which the marker stands directly in an assign block of the object `body`
itself. -/
def assignEntries (body marker : Text) : List Nat :=
  (assignBlocks body).flatMap (blockEntries body marker)

theorem assignsMarker_iff {body marker : Text} :
    assignsMarker body marker = true ↔ ∃ i, i ∈ assignEntries body marker := by
  simp only [assignsMarker, assignEntries, List.any_eq_true, List.mem_flatMap]
  rw [exists_comm]
  refine exists_congr fun first => ?_
  rw [exists_and_left]
  refine and_congr_right fun _ => ?_
  rw [blockEntries]
  cases all.closing? body first with
  | none => simp
  | some last =>
      simp only [hasDirectEntry_iff, List.mem_map]
      exact ⟨fun ⟨i, hi⟩ => ⟨_, i, hi, rfl⟩, fun ⟨_, i, hi, _⟩ => ⟨i, hi⟩⟩

theorem AssignBlock.blockEntries_eq {b u k x w : Text} {c e : Char} (h : AssignBlock b u k x e w)
    (marker : Text) :
    blockEntries ('{' :: (b ++ [c])) marker (1 + u.length + k.length) =
      (directEntries ('{' :: (x ++ [e])) marker).map (1 + u.length + k.length + ·) := by
  have heq : '{' :: (b ++ [c]) = '{' :: (u ++ k) ++ ('{' :: (x ++ [e]) ++ (w ++ [c])) := by
    rw [h.eq]
    simp
  have hslice : Text.slice ('{' :: (b ++ [c])) (1 + u.length + k.length)
      (1 + u.length + k.length + 1 + x.length + 1) = '{' :: (x ++ [e]) := by
    rw [heq, Text.slice, List.drop_left' (by rw [List.length_cons, List.length_append]; omega)]
    exact List.take_left'
      (by simp only [List.length_cons, List.length_append, List.length_nil]; omega)
  rw [blockEntries, h.closing?_eq]
  simp only [hslice]

/-- The places of the marker in one assign block of an object. -/
theorem AssignBlock.mem_blockEntries {b u k x w : Text} {c e : Char} (h : AssignBlock b u k x e w)
    (marker : Identifier) {i : Nat} :
    i ∈ blockEntries ('{' :: (b ++ [c])) marker.text (1 + u.length + k.length) ↔
      ∃ n, EntryAt x marker.text n ∧ i = 1 + (u.length + k.length + 1 + n) := by
  rw [h.blockEntries_eq, List.mem_map]
  constructor
  · rintro ⟨j, hj, rfl⟩
    obtain ⟨n, hn, rfl⟩ := (mem_directEntries_block marker h.balanced h.closing).1 hj
    exact ⟨n, hn, by omega⟩
  · rintro ⟨n, hn, rfl⟩
    exact ⟨1 + n, (mem_directEntries_block marker h.balanced h.closing).2 ⟨n, hn, rfl⟩, by omega⟩

/-- The places of the marker in the assign blocks of an object. -/
theorem mem_assignEntries_object {b : Text} {c : Char} (marker : Identifier)
    (hb : all.Balanced b) (hc : all.isClosing c = true) {i : Nat} :
    i ∈ assignEntries ('{' :: (b ++ [c])) marker.text ↔
      ∃ n, AssignsAt b marker.text n ∧ i = 1 + n := by
  simp only [assignEntries, List.mem_flatMap, mem_assignBlocks_object hb hc]
  constructor
  · rintro ⟨_, ⟨u, k, x, e, w, hblock, rfl⟩, hi⟩
    obtain ⟨m, hm, rfl⟩ := (hblock.mem_blockEntries marker).1 hi
    exact ⟨_, ⟨u, k, x, e, w, m, hblock, hm, rfl⟩, rfl⟩
  · rintro ⟨_, ⟨u, k, x, e, w, m, hblock, hm, rfl⟩, rfl⟩
    exact ⟨_, ⟨u, k, x, e, w, hblock, rfl⟩, (hblock.mem_blockEntries marker).2 ⟨m, hm, rfl⟩⟩

/-- The text of an object. -/
theorem body_objectSpan {p y b z : Text} {c : Char} :
    (objectSpan p.length y b).body (p ++ (y ++ '{' :: (b ++ c :: z))) = '{' :: (b ++ [c]) := by
  have heq : p ++ (y ++ '{' :: (b ++ c :: z)) = p ++ y ++ ('{' :: (b ++ [c]) ++ z) := by simp
  rw [BracketSpan.body, Text.slice, objectSpan, heq,
    List.drop_left' (by rw [List.length_append])]
  exact List.take_left'
      (by simp only [List.length_cons, List.length_append, List.length_nil]; omega)

/-- The text of an object argument. -/
theorem ObjectArgument.body_eq {s h x r y b z : Text} {c e : Char} (p : Text)
    (hs : Calls s h x c r) (hobj : ObjectArgument x y b e z) :
    (objectSpan (p.length + h.length + 1) y b).body (p ++ s) = '{' :: (b ++ [e]) := by
  have hlen : (p ++ h ++ ['(']).length = p.length + h.length + 1 := by simp; omega
  have heq : p ++ s = p ++ h ++ ['('] ++ (y ++ '{' :: (b ++ e :: (z ++ c :: r))) := by
    rw [hs.eq, hobj.eq]
    simp
  rw [heq, ← hlen]
  exact body_objectSpan

/-- The positions at which the marker stands directly in an assign block of one of the object
arguments. -/
def markerEntries (t : Text) (a : ArgumentList) (marker : Text) : List Nat :=
  (a.objects t).flatMap fun o => (assignEntries (o.body t) marker).map (o.first + ·)

theorem isMarked_iff_exists_mem {t : Text} {a : ArgumentList} {marker : Text} :
    isMarked t a marker = true ↔ ∃ i, i ∈ markerEntries t a marker := by
  simp only [isMarked, markerEntries, List.any_eq_true, List.mem_flatMap, List.mem_map,
    assignsMarker_iff]
  constructor
  · rintro ⟨o, ho, i, hi⟩
    exact ⟨_, o, ho, i, hi, rfl⟩
  · rintro ⟨_, o, ho, i, hi, -⟩
    exact ⟨o, ho, i, hi⟩

/-- **Where a call is marked.** -/
theorem mem_markerEntries {s h x r : Text} {c : Char} (marker : Identifier) (p : Text)
    (hs : Calls s h x c r) {a : ArgumentList} (ho : a.opening = p.length + h.length)
    (hc : a.closing = p.length + h.length + 1 + x.length) {i : Nat} :
    i ∈ markerEntries (p ++ s) a marker.text ↔
      ∃ n, MarkedAt x marker.text n ∧ i = p.length + h.length + 1 + n := by
  simp only [markerEntries, List.mem_flatMap, List.mem_map,
    ArgumentList.mem_objects_iff p hs ho hc]
  constructor
  · rintro ⟨_, ⟨y, b, e, z, hobj, rfl⟩, j, hj, rfl⟩
    rw [hobj.body_eq p hs, mem_assignEntries_object marker hobj.balanced hobj.closing] at hj
    obtain ⟨m, hm, rfl⟩ := hj
    exact ⟨_, ⟨y, b, e, z, m, hobj, hm, rfl⟩, by simp only [objectSpan]; omega⟩
  · rintro ⟨_, ⟨y, b, e, z, m, hobj, hm, rfl⟩, rfl⟩
    refine ⟨_, ⟨y, b, e, z, hobj, rfl⟩, 1 + m, ?_, by simp only [objectSpan]; omega⟩
    rw [hobj.body_eq p hs]
    exact (mem_assignEntries_object marker hobj.balanced hobj.closing).2 ⟨m, hm, rfl⟩

/-- **Which calls are marked.** -/
theorem isMarked_iff {s h x r : Text} {c : Char} (marker : Identifier) (p : Text)
    (hs : Calls s h x c r) {a : ArgumentList} (ho : a.opening = p.length + h.length)
    (hc : a.closing = p.length + h.length + 1 + x.length) :
    isMarked (p ++ s) a marker.text = true ↔ Marked x marker.text := by
  simp only [isMarked_iff_exists_mem, mem_markerEntries marker p hs ho hc, marked_iff_exists]
  exact ⟨fun ⟨_, n, hn, _⟩ => ⟨n, hn⟩, fun ⟨n, hn⟩ => ⟨_, n, hn, rfl⟩⟩

end Stylewire
