import Stylewire.Text.Scan

set_option autoImplicit false

/-! # Searches that miss nothing

A search for matches that do not overlap may pass over a match that starts inside an earlier
one. None of the searches for identifiers does so where it counts: a match that starts inside
another one goes on an identifier, and such matches are left out anyway. `Separate` states
this for a recogniser, and `filter_findAll` draws the conclusion: the matches found that are
clear of identifiers on the left are all such matches there are (`clearFrom`).

Below, the character before a place is followed along a text by `lastFrom`, and the two ends
of a token are checked by `isClear` on the neighbouring characters.
-/

namespace Stylewire

/-- Whether the neighbouring character, if there is one, is no identifier character. -/
def isClear (c : Option Char) : Bool := c.all (!isIdentChar ·)

namespace Text

/-- The last character read after the text, if `prev` is the one read before it. -/
def lastFrom : (prev : Option Char) → Text → Option Char
  | prev, [] => prev
  | _, c :: t => lastFrom (some c) t

@[simp] theorem lastFrom_nil (prev : Option Char) : lastFrom prev [] = prev := rfl

@[simp] theorem lastFrom_cons (prev : Option Char) (c : Char) (t : Text) :
    lastFrom prev (c :: t) = lastFrom (some c) t := rfl

theorem lastFrom_append (prev : Option Char) (t u : Text) :
    lastFrom prev (t ++ u) = lastFrom (lastFrom prev t) u := by
  induction t generalizing prev with
  | nil => rfl
  | cons c t ih => exact ih (some c)

@[simp] theorem lastFrom_concat (prev : Option Char) (t : Text) (c : Char) :
    lastFrom prev (t ++ [c]) = some c := by
  rw [lastFrom_append]
  rfl

theorem lastFrom_eq (prev : Option Char) (t : Text) :
    lastFrom prev t = t.getLast?.or prev := by
  induction t generalizing prev with
  | nil => simp
  | cons c t ih => rw [lastFrom_cons, ih, List.getLast?_cons]; cases t.getLast? <;> simp

theorem lastFrom_none (t : Text) : lastFrom none t = t.getLast? := by
  rw [lastFrom_eq, Option.or_none]

theorem clearBefore_append (u v : Text) :
    clearBefore (u ++ v) u.length = isClear (lastFrom none u) := by
  rw [lastFrom_none]
  rcases List.eq_nil_or_concat u with rfl | ⟨w, c, rfl⟩
  · rfl
  · simp [clearBefore, isClear]

theorem clearAfter_append (u v : Text) : clearAfter (u ++ v) u.length = isClear v.head? := by
  cases v with
  | nil => simp [clearAfter, isClear]
  | cons c v => simp [clearAfter, isClear]

/-- A later position has a greater byte offset. -/
theorem byteOffset_lt {t : Text} {i j : Nat} (hij : i < j) (hi : i < t.length) :
    t.byteOffset i < t.byteOffset j := by
  induction t generalizing i j with
  | nil => cases hi
  | cons c t ih =>
      obtain ⟨j, rfl⟩ := Nat.exists_eq_succ_of_ne_zero (Nat.ne_zero_of_lt hij)
      rw [Nat.succ_eq_add_one] at hij ⊢
      have hc : 0 < c.utf8Size := Char.utf8Size_pos c
      cases i with
      | zero =>
          rw [byteOffset_zero, byteOffset_cons_succ]
          omega
      | succ i =>
          rw [List.length_cons] at hi
          have := ih (i := i) (j := j) (by omega) (by omega)
          rw [byteOffset_cons_succ, byteOffset_cons_succ]
          omega

end Text

namespace Recognizer

/-- The matches in the rest of a text that are clear of identifiers on the left, whether they
overlap or not. -/
def clearFrom (r : Recognizer) : (pos : Nat) → (prev : Option Char) → Text → List Match
  | _, _, [] => []
  | pos, prev, c :: t =>
      match if isClear prev then r prev (c :: t) else none with
      | some n => ⟨pos, pos + n⟩ :: clearFrom r (pos + 1) (some c) t
      | none => clearFrom r (pos + 1) (some c) t

/-- No match starts inside another match, unless it goes on an identifier there. -/
def Separate (r : Recognizer) : Prop :=
  ∀ prev t n, r prev t = some n → ∀ u v, t = u ++ v → u ≠ [] → u.length < n →
    isClear (Text.lastFrom prev u) = true → r (Text.lastFrom prev u) v = none

/-- What is left of a search when the matches that go on an identifier are dropped. The text
before the rest is `p`, and in the first `skip` characters of the rest no match starts that is
clear of identifiers. -/
theorem filter_findFrom {r : Recognizer} (hs : r.Separate) (hn : ∀ prev, r prev [] = none)
    (p t : Text) (skip : Nat)
    (hq : ∀ u v, t = u ++ v → u.length < skip →
      isClear (Text.lastFrom (Text.lastFrom none p) u) = true →
      r (Text.lastFrom (Text.lastFrom none p) u) v = none) :
    (r.findFrom skip p.length (Text.lastFrom none p) t).filter
        (fun m => Text.clearBefore (p ++ t) m.start) =
      r.clearFrom p.length (Text.lastFrom none p) t := by
  induction t generalizing p skip with
  | nil =>
      cases skip with
      | zero => simp [findFrom, clearFrom, hn]
      | succ skip => simp [findFrom, clearFrom]
  | cons c t ih =>
      have hlen : (p ++ [c]).length = p.length + 1 := by simp
      have happ : p ++ [c] ++ t = p ++ c :: t := by simp
      -- The search in the rest behind `c`, with `p ++ [c]` for `p`.
      have step : ∀ k, (∀ u v, t = u ++ v → u.length < k →
          isClear (Text.lastFrom (some c) u) = true → r (Text.lastFrom (some c) u) v = none) →
          (r.findFrom k (p.length + 1) (some c) t).filter
              (fun m => Text.clearBefore (p ++ c :: t) m.start) =
            r.clearFrom (p.length + 1) (some c) t := by
        intro k hk
        have h := ih (p ++ [c]) k (by rw [Text.lastFrom_concat]; exact hk)
        rwa [Text.lastFrom_concat, hlen, happ] at h
      cases skip with
      | succ skip =>
          have hc : (if isClear (Text.lastFrom none p) then r (Text.lastFrom none p) (c :: t)
              else none) = none := by
            split
            · rename_i hclear
              exact hq [] (c :: t) rfl (by simp) hclear
            · rfl
          rw [findFrom, clearFrom, hc]
          refine step skip fun u v ht hu => ?_
          exact hq (c :: u) v (by rw [ht]; rfl) (by simpa using hu)
      | zero =>
          have hclear : Text.clearBefore (p ++ c :: t) p.length = isClear (Text.lastFrom none p) :=
            Text.clearBefore_append p (c :: t)
          rw [findFrom, clearFrom]
          cases hr : r (Text.lastFrom none p) (c :: t) with
          | none =>
              rw [ite_self]
              exact step 0 fun u v _ hu => absurd hu (Nat.not_lt_zero _)
          | some n =>
              have hrest := step (n - 1) fun u v ht hu hcl =>
                hs _ _ n hr (c :: u) v (by rw [ht]; rfl) (by simp)
                  (by rw [List.length_cons]; omega) hcl
              by_cases hcl : isClear (Text.lastFrom none p) = true
              · simp [hclear, hcl, hrest]
              · simp [hclear, hcl, hrest]

/-- **The matches that are clear of identifiers on the left are all found.** -/
theorem filter_findAll {r : Recognizer} (hs : r.Separate) (hn : ∀ prev, r prev [] = none)
    (t : Text) :
    (r.findAll t).filter (fun m => t.clearBefore m.start) = r.clearFrom 0 none t :=
  filter_findFrom hs hn [] t 0 fun _ _ _ hu => absurd hu (Nat.not_lt_zero _)

/-- What the list of all clear matches holds. -/
theorem mem_clearFrom {r : Recognizer} (hn : ∀ prev, r prev [] = none) {pos : Nat}
    {prev : Option Char} {t : Text} {m : Match} :
    m ∈ r.clearFrom pos prev t ↔
      ∃ u v n, t = u ++ v ∧ m = ⟨pos + u.length, pos + u.length + n⟩ ∧
        isClear (Text.lastFrom prev u) = true ∧ r (Text.lastFrom prev u) v = some n := by
  induction t generalizing pos prev with
  | nil =>
      simp only [clearFrom, List.not_mem_nil, false_iff]
      rintro ⟨u, v, n, ht, -, -, hr⟩
      obtain ⟨rfl, rfl⟩ := List.append_eq_nil_iff.1 ht.symm
      rw [hn] at hr
      cases hr
  | cons c t ih =>
      -- A clear match of `c :: t` starts at `c`, or it is one of `t`.
      have hsplit : (∃ u v n, c :: t = u ++ v ∧ m = ⟨pos + u.length, pos + u.length + n⟩ ∧
          isClear (Text.lastFrom prev u) = true ∧ r (Text.lastFrom prev u) v = some n) ↔
          (∃ n, m = ⟨pos, pos + n⟩ ∧ isClear prev = true ∧ r prev (c :: t) = some n) ∨
          m ∈ r.clearFrom (pos + 1) (some c) t := by
        rw [ih]
        constructor
        · rintro ⟨u, v, n, ht, hm, hcl, hr⟩
          cases u with
          | nil =>
              obtain rfl : c :: t = v := ht
              exact Or.inl ⟨n, hm, hcl, hr⟩
          | cons a u =>
              obtain ⟨rfl, rfl⟩ : c = a ∧ t = u ++ v := by simpa using ht
              refine Or.inr ⟨u, v, n, rfl, ?_, hcl, hr⟩
              rw [hm, List.length_cons, show pos + (u.length + 1) = pos + 1 + u.length by omega]
        · rintro (⟨n, hm, hcl, hr⟩ | ⟨u, v, n, ht, hm, hcl, hr⟩)
          · exact ⟨[], c :: t, n, rfl, hm, hcl, hr⟩
          · refine ⟨c :: u, v, n, by rw [ht]; rfl, ?_, hcl, hr⟩
            rw [hm, List.length_cons, show pos + (u.length + 1) = pos + 1 + u.length by omega]
      rw [hsplit, clearFrom]
      by_cases hcl : isClear prev = true
      · cases hr : r prev (c :: t) with
        | none => simp [hcl]
        | some n => simp [hcl]
      · simp [hcl]

/-- What is found in the rest of a text starts behind the characters that are skipped. -/
theorem le_start_of_mem_findFrom {r : Recognizer} {skip pos : Nat} {prev : Option Char} {t : Text}
    {m : Match} (h : m ∈ r.findFrom skip pos prev t) : pos + skip ≤ m.start := by
  fun_induction findFrom r skip pos prev t with
  | case1 skip pos prev c t ih =>
      have := ih h
      omega
  | case2 => cases h
  | case3 pos prev n hr =>
      rw [List.mem_singleton] at h
      rw [h]
      exact Nat.le_refl pos
  | case4 => cases h
  | case5 pos prev c t n hr ih =>
      rcases List.mem_cons.1 h with rfl | h
      · exact Nat.le_refl pos
      · have := ih h
        omega
  | case6 pos prev c t hr ih =>
      have := ih h
      omega

/-- The matches found do not overlap, and they come in the order of the text. -/
theorem pairwise_findFrom (r : Recognizer) (skip pos : Nat) (prev : Option Char) (t : Text) :
    (r.findFrom skip pos prev t).Pairwise fun m m' => m.stop ≤ m'.start := by
  fun_induction findFrom r skip pos prev t with
  | case1 skip pos prev c t ih => exact ih
  | case2 => exact List.Pairwise.nil
  | case3 pos prev n hr => exact List.pairwise_singleton _ _
  | case4 => exact List.Pairwise.nil
  | case5 pos prev c t n hr ih =>
      refine List.Pairwise.cons (fun m hm => ?_) ih
      have := le_start_of_mem_findFrom hm
      show pos + n ≤ m.start
      omega
  | case6 pos prev c t hr ih => exact ih

/-- A match is where the recogniser says that there is one. -/
theorem exists_of_mem_findFrom {r : Recognizer} {skip pos : Nat} {prev : Option Char} {t : Text}
    {m : Match} (h : m ∈ r.findFrom skip pos prev t) :
    ∃ u v n, t = u ++ v ∧ m = ⟨pos + u.length, pos + u.length + n⟩ ∧
      r (Text.lastFrom prev u) v = some n := by
  have hstep : ∀ {c : Char} {t : Text} {pos : Nat} {prev : Option Char},
      (∃ u v n, t = u ++ v ∧ m = ⟨pos + 1 + u.length, pos + 1 + u.length + n⟩ ∧
        r (Text.lastFrom (some c) u) v = some n) →
      ∃ u v n, c :: t = u ++ v ∧ m = ⟨pos + u.length, pos + u.length + n⟩ ∧
        r (Text.lastFrom prev u) v = some n := by
    rintro c t pos prev ⟨u, v, n, rfl, rfl, hr⟩
    refine ⟨c :: u, v, n, rfl, ?_, hr⟩
    rw [List.length_cons, show pos + (u.length + 1) = pos + 1 + u.length by omega]
  fun_induction findFrom r skip pos prev t with
  | case1 skip pos prev c t ih => exact hstep (ih h)
  | case2 => cases h
  | case3 pos prev n hr =>
      rw [List.mem_singleton] at h
      exact ⟨[], [], n, rfl, h, hr⟩
  | case4 => cases h
  | case5 pos prev c t n hr ih =>
      rcases List.mem_cons.1 h with h | h
      · exact ⟨[], c :: t, n, rfl, h, hr⟩
      · exact hstep (ih h)
  | case6 pos prev c t hr ih => exact hstep (ih h)

end Recognizer

/-! ## The searches for a word -/

theorem word_eq_some_iff {w t : Text} {prev : Option Char} {n : Nat} :
    word w prev t = some n ↔ ∃ r, t = w ++ r ∧ n = w.length := by
  unfold word
  constructor
  · intro h
    obtain ⟨r, hr, rfl⟩ := Option.map_eq_some_iff.1 h
    exact ⟨r, stripWord_eq_some_iff.1 hr, rfl⟩
  · rintro ⟨r, rfl, rfl⟩
    rw [stripWord_eq_some_iff.2 rfl]
    rfl

/-- Behind the start of a word of identifier characters nothing is clear of them. -/
theorem isClear_lastFrom_of_all {u : Text} (hu : u ≠ [])
    (h : ∀ c ∈ u, isIdentChar c = true) (prev : Option Char) :
    isClear (Text.lastFrom prev u) = false := by
  rcases List.eq_nil_or_concat u with rfl | ⟨w, c, rfl⟩
  · exact absurd rfl hu
  · rw [List.concat_eq_append] at h ⊢
    rw [Text.lastFrom_concat]
    simp [isClear, h c (by simp)]

/-- A word of identifier characters. -/
theorem separate_word {w : Text} (h : ∀ c ∈ w, isIdentChar c = true) : (word w).Separate := by
  intro prev t n hw u v ht hu hlt hcl
  obtain ⟨r, rfl, rfl⟩ := word_eq_some_iff.1 hw
  -- `u` is a start of `w`, so the last character of `u` goes on an identifier.
  have huw : ∀ c ∈ u, isIdentChar c = true := by
    intro c hc
    have hpre : u <+: w := List.prefix_of_prefix_length_le ⟨v, ht.symm⟩ ⟨r, rfl⟩ (by omega)
    exact h c (hpre.subset hc)
  rw [isClear_lastFrom_of_all hu huw] at hcl
  cases hcl

/-- **Where a token stands**: `w` is there, with no identifier character at either end. -/
theorem Text.mem_tokenStarts {t w : Text} (hw : w ≠ []) (h : ∀ c ∈ w, isIdentChar c = true)
    {i : Nat} :
    i ∈ t.tokenStarts w ↔ ∃ u v, t = u ++ (w ++ v) ∧ i = u.length ∧
      isClear u.getLast? = true ∧ isClear v.head? = true := by
  have hn : ∀ prev, word w prev [] = none := by
    intro prev
    cases hr : word w prev [] with
    | none => rfl
    | some n =>
        obtain ⟨r, hr, -⟩ := word_eq_some_iff.1 hr
        exact absurd (List.append_eq_nil_iff.1 hr.symm).1 hw
  have hfind := Recognizer.filter_findAll (separate_word h) hn t
  have hmem : i ∈ t.tokenStarts w ↔
      (∃ m ∈ (word w).clearFrom 0 none t, m.start = i) ∧ t.clearAfter (i + w.length) = true := by
    rw [← hfind]
    simp only [tokenStarts, List.mem_filter, List.mem_map, Bool.and_eq_true]
    constructor
    · rintro ⟨⟨m, hm, rfl⟩, h1, h2⟩
      exact ⟨⟨m, ⟨hm, h1⟩, rfl⟩, h2⟩
    · rintro ⟨⟨m, ⟨hm, h1⟩, rfl⟩, h2⟩
      exact ⟨⟨m, hm, rfl⟩, h1, h2⟩
  rw [hmem]
  have hafter : ∀ u v : Text, clearAfter (u ++ (w ++ v)) (u.length + w.length) =
      isClear v.head? := by
    intro u v
    rw [← List.append_assoc, ← List.length_append, clearAfter_append]
  constructor
  · rintro ⟨⟨m, hm, rfl⟩, h2⟩
    obtain ⟨u, v, n, rfl, rfl, hcl, hr⟩ := (Recognizer.mem_clearFrom hn).1 hm
    obtain ⟨q, rfl, -⟩ := word_eq_some_iff.1 hr
    rw [lastFrom_none] at hcl
    simp only [Nat.zero_add, hafter] at h2
    exact ⟨u, q, rfl, by simp, hcl, h2⟩
  · rintro ⟨u, v, rfl, rfl, hcl, h2⟩
    rw [← lastFrom_none] at hcl
    refine ⟨⟨_, (Recognizer.mem_clearFrom hn).2 ⟨u, w ++ v, w.length, rfl, rfl, hcl, ?_⟩, by simp⟩,
      by rw [hafter, h2]⟩
    exact word_eq_some_iff.2 ⟨v, rfl, rfl⟩

end Stylewire
