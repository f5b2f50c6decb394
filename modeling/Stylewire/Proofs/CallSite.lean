import Stylewire.CallSite
import Stylewire.Proofs.Scan

set_option autoImplicit false

/-! # The call sites of a text, from the left

`callSites` filters a search for matches that do not overlap. Here the same list is read off
the text character by character (`sitesFrom`, `callSites_eq`): a call starts wherever a call
head stands that is clear of identifiers on the left. With this form the call sites of a text
are those of its parts, as long as no call head runs across the cut (`sitesFrom_append`).
-/

namespace Stylewire

/-! ## Identifiers -/

theorem isIdentChar_of_isIdentStart {c : Char} (h : isIdentStart c = true) :
    isIdentChar c = true := by
  simp only [isIdentStart, Bool.or_eq_true] at h
  simp only [isIdentChar, Char.isAlphanum, Bool.or_eq_true]
  rcases h with (h | h) | h
  · exact Or.inl (Or.inl (Or.inl h))
  · exact Or.inl (Or.inr h)
  · exact Or.inr h

theorem Identifier.isIdentChar_of_mem (name : Identifier) {c : Char} (h : c ∈ name.text) :
    isIdentChar c = true := by
  obtain ⟨t, ht⟩ := name
  cases t with
  | nil => cases h
  | cons a t =>
      simp only [isIdentifier, Bool.and_eq_true, List.all_eq_true] at ht
      rcases List.mem_cons.1 h with rfl | h
      · exact isIdentChar_of_isIdentStart ht.1
      · exact ht.2 c h

theorem Identifier.text_ne_nil (name : Identifier) : name.text ≠ [] := by
  intro h
  have hv := name.valid
  rw [h] at hv
  cases hv

/-- A character that no identifier holds is in no identifier. -/
theorem Identifier.not_mem_text (name : Identifier) {c : Char} (h : isIdentChar c = false) :
    c ∉ name.text := by
  intro hc
  rw [name.isIdentChar_of_mem hc] at h
  cases h

/-- A blank is no identifier character, and neither is a character that is equal to one that
is none. -/
theorem ne_of_isBlank {c a : Char} (hc : isBlank c = true) (ha : isBlank a = false) : c ≠ a := by
  rintro rfl
  rw [hc] at ha
  cases ha

/-! ## Blanks before a character -/

/-- The blanks at the start of a text are all there are before its first other character. -/
theorem Text.drop_blanks_append {b t : Text} (hb : ∀ c ∈ b, isBlank c = true) :
    (b ++ t).drop (b ++ t).blanks = t.drop t.blanks := by
  induction b with
  | nil => rfl
  | cons a b ih =>
      have ha : isBlank a = true := hb a (by simp)
      have hrest := ih fun c hc => hb c (by simp [hc])
      simpa [blanks, ha] using hrest

theorem Text.blanks_append_cons {b t : Text} {a : Char} (hb : ∀ c ∈ b, isBlank c = true)
    (ha : isBlank a = false) : (b ++ a :: t).blanks = b.length := by
  induction b with
  | nil => simp [blanks, ha]
  | cons e b ih =>
      have he : isBlank e = true := hb e (by simp)
      have hrest := ih fun c hc => hb c (by simp [hc])
      simpa [blanks, he] using hrest

theorem Text.drop_blanks_cons {t : Text} {a : Char} (ha : isBlank a = false) :
    (a :: t).drop (blanks (a :: t)) = a :: t := by
  simp [blanks, ha]

/-- A text is the blanks at its start and what follows them. -/
theorem Text.eq_blanks_append (t : Text) :
    ∃ b, t = b ++ t.drop t.blanks ∧ b.length = t.blanks ∧ ∀ c ∈ b, isBlank c = true := by
  refine ⟨t.takeWhile isBlank, ?_, rfl, ?_⟩
  · have h : t.drop t.blanks = t.dropWhile isBlank := by
      unfold blanks
      conv =>
        lhs
        arg 2
        rw [← List.takeWhile_append_dropWhile (p := isBlank) (l := t)]
      rw [List.drop_left]
    rw [h, List.takeWhile_append_dropWhile]
  · exact List.all_eq_true.1 List.all_takeWhile

/-! ## Call heads -/

/-- The text of a call before its parenthesis: the name and blanks. -/
def IsHead (name : Identifier) (h : Text) : Prop :=
  ∃ b, h = name.text ++ b ∧ ∀ c ∈ b, isBlank c = true

theorem callHead_eq_some_iff {w t : Text} {prev : Option Char} {n : Nat} :
    callHead w prev t = some n ↔
      ∃ b k, t = w ++ (b ++ '(' :: k) ∧ (∀ c ∈ b, isBlank c = true) ∧
        n = w.length + b.length + 1 := by
  unfold callHead
  constructor
  · intro h
    obtain ⟨r, hr, hm⟩ := Option.bind_eq_some_iff.1 h
    obtain ⟨b, hb, hlen, hblank⟩ := Text.eq_blanks_append r
    split at hm
    · rename_i k hk
      refine ⟨b, k, ?_, hblank, ?_⟩
      · rw [stripWord_eq_some_iff.1 hr, ← hk, ← hb]
      · rw [hlen]
        exact (Option.some.inj hm).symm
    · cases hm
  · rintro ⟨b, k, rfl, hblank, rfl⟩
    have hp : isBlank '(' = false := by decide
    rw [stripWord_eq_some_iff.2 rfl]
    simp only [bind, Option.bind, Text.blanks_append_cons hblank hp, List.drop_left]

/-- Whether a call of `name` starts at a text, `prev` being the character before it. -/
def isCall (name : Identifier) (prev : Option Char) (t : Text) : Bool :=
  isClear prev && (callHead name.text prev t).isSome

theorem isCall_iff {name : Identifier} {prev : Option Char} {t : Text} :
    isCall name prev t = true ↔
      isClear prev = true ∧ ∃ h k, IsHead name h ∧ t = h ++ '(' :: k := by
  simp only [isCall, Bool.and_eq_true, Option.isSome_iff_exists, callHead_eq_some_iff]
  constructor
  · rintro ⟨hc, n, b, k, rfl, hb, -⟩
    exact ⟨hc, name.text ++ b, k, ⟨b, rfl, hb⟩, by simp⟩
  · rintro ⟨hc, h, k, ⟨b, rfl, hb⟩, rfl⟩
    exact ⟨hc, _, b, k, by simp, hb, rfl⟩

/-- A head holds no parenthesis. -/
theorem IsHead.not_mem {name : Identifier} {h : Text} (hh : IsHead name h) : '(' ∉ h := by
  obtain ⟨b, rfl, hb⟩ := hh
  rw [List.mem_append]
  rintro (hm | hm)
  · exact name.not_mem_text (by decide) hm
  · exact ne_of_isBlank (hb _ hm) (by decide) rfl

theorem IsHead.ne_nil {name : Identifier} {h : Text} (hh : IsHead name h) : h ≠ [] := by
  obtain ⟨b, rfl, -⟩ := hh
  simp [name.text_ne_nil]

/-- No call starts at a text whose first character is no identifier character. -/
theorem isCall_cons_eq_false {name : Identifier} {prev : Option Char} {c : Char} {t : Text}
    (hc : isIdentChar c = false) : isCall name prev (c :: t) = false := by
  rw [Bool.eq_false_iff]
  intro h
  obtain ⟨-, h, k, ⟨b, rfl, -⟩, ht⟩ := isCall_iff.1 h
  obtain ⟨a, w, hw⟩ := List.exists_cons_of_ne_nil name.text_ne_nil
  rw [hw] at ht
  obtain ⟨rfl, -⟩ : c = a ∧ t = w ++ b ++ '(' :: k := by simpa using ht
  rw [name.isIdentChar_of_mem (by rw [hw]; simp)] at hc
  cases hc

theorem isCall_nil (name : Identifier) (prev : Option Char) : isCall name prev [] = false := by
  rw [Bool.eq_false_iff]
  intro h
  obtain ⟨-, h, k, -, ht⟩ := isCall_iff.1 h
  simp at ht

/-- No call starts inside the head of a call, or at its parenthesis. -/
theorem IsHead.isCall_inside {name : Identifier} {u v : Text} (hh : IsHead name (u ++ v))
    (hu : u ≠ []) (prev : Option Char) (k : Text) :
    isCall name (Text.lastFrom prev u) (v ++ '(' :: k) = false := by
  obtain ⟨b, hb, hblank⟩ := hh
  rcases List.append_eq_append_iff.1 hb with ⟨w, hw, -⟩ | ⟨w, rfl, hv⟩
  · -- The cut lies in the name, so the character before it goes on an identifier.
    have hall : ∀ c ∈ u, isIdentChar c = true := fun c hc =>
      name.isIdentChar_of_mem (by rw [hw]; simp [hc])
    simp [isCall, isClear_lastFrom_of_all hu hall]
  · cases v with
    | nil => exact isCall_cons_eq_false (by decide)
    | cons a v =>
        exact isCall_cons_eq_false (isIdentChar_eq_false_of_isBlank (hblank a (by simp [hv])))

/-! ## Reading the call sites off a text -/

/-- The positions, counted from `pos`, of the calls that start in the text. -/
def sitesFrom (name : Identifier) : (pos : Nat) → (prev : Option Char) → Text → List Nat
  | _, _, [] => []
  | pos, prev, c :: t =>
      if isCall name prev (c :: t) then pos :: sitesFrom name (pos + 1) (some c) t
      else sitesFrom name (pos + 1) (some c) t

theorem separate_callHead (name : Identifier) : (callHead name.text).Separate := by
  intro prev t n ht u v huv hu hlt hclear
  obtain ⟨b, k, rfl, hb, rfl⟩ := callHead_eq_some_iff.1 ht
  have hsplit : ∃ v', name.text ++ b = u ++ v' ∧ v = v' ++ '(' :: k := by
    rw [← List.append_assoc] at huv
    rcases List.append_eq_append_iff.1 huv with ⟨w, hw, hv⟩ | ⟨w, hw, hv⟩
    · -- A cut behind the head lies behind the parenthesis, too.
      obtain rfl : w = [] := by
        have hl := congrArg List.length hw
        rw [List.length_append, List.length_append] at hl
        exact List.eq_nil_of_length_eq_zero (by omega)
      exact ⟨[], by simpa using hw.symm, by simpa using hv.symm⟩
    · exact ⟨w, hw, hv⟩
  obtain ⟨v', hv', rfl⟩ := hsplit
  have hh : IsHead name (u ++ v') := ⟨b, hv'.symm, hb⟩
  have hin := hh.isCall_inside hu prev k
  rw [isCall, hclear, Bool.true_and, Option.isSome_eq_false_iff, Option.isNone_iff_eq_none] at hin
  exact hin

theorem map_start_clearFrom (name : Identifier) (pos : Nat) (prev : Option Char) (t : Text) :
    ((callHead name.text).clearFrom pos prev t).map Match.start = sitesFrom name pos prev t := by
  induction t generalizing pos prev with
  | nil => rfl
  | cons c t ih =>
      rw [Recognizer.clearFrom, sitesFrom, isCall]
      by_cases hc : isClear prev = true
      · cases hr : callHead name.text prev (c :: t) <;> simp [hc, ih]
      · simp [hc, ih]

theorem callSites_eq (name : Identifier) (t : Text) :
    callSites name t = sitesFrom name 0 none t := by
  have hn : ∀ prev, callHead name.text prev [] = none := by
    intro prev
    have h := isCall_nil name none
    rw [isCall] at h
    show callHead name.text none [] = none
    simpa [isClear] using h
  rw [← map_start_clearFrom, ← Recognizer.filter_findAll (separate_callHead name) hn,
    callSites, List.filter_map]
  rfl

/-- **What the list of call sites holds.** -/
theorem mem_sitesFrom {name : Identifier} {pos : Nat} {prev : Option Char} {t : Text} {i : Nat} :
    i ∈ sitesFrom name pos prev t ↔
      ∃ u v, t = u ++ v ∧ i = pos + u.length ∧ isCall name (Text.lastFrom prev u) v = true := by
  induction t generalizing pos prev with
  | nil =>
      simp only [sitesFrom, List.not_mem_nil, false_iff]
      rintro ⟨u, v, ht, -, hc⟩
      obtain ⟨rfl, rfl⟩ := List.append_eq_nil_iff.1 ht.symm
      rw [isCall_nil] at hc
      cases hc
  | cons c t ih =>
      have hsplit : i ∈ sitesFrom name pos prev (c :: t) ↔
          (i = pos ∧ isCall name prev (c :: t) = true) ∨
          i ∈ sitesFrom name (pos + 1) (some c) t := by
        rw [sitesFrom]
        split
        · rename_i h
          simp [h]
        · rename_i h
          simp [h]
      rw [hsplit, ih]
      constructor
      · rintro (⟨rfl, hc⟩ | ⟨u, v, rfl, rfl, hc⟩)
        · exact ⟨[], c :: t, rfl, rfl, hc⟩
        · exact ⟨c :: u, v, rfl, by rw [List.length_cons]; omega, hc⟩
      · rintro ⟨u, v, ht, rfl, hc⟩
        cases u with
        | nil =>
            obtain rfl : c :: t = v := ht
            exact Or.inl ⟨rfl, hc⟩
        | cons a u =>
            obtain ⟨rfl, rfl⟩ : c = a ∧ t = u ++ v := by simpa using ht
            exact Or.inr ⟨u, v, rfl, by rw [List.length_cons]; omega, hc⟩

theorem le_of_mem_sitesFrom {name : Identifier} {pos : Nat} {prev : Option Char} {t : Text}
    {i : Nat} (h : i ∈ sitesFrom name pos prev t) : pos ≤ i := by
  obtain ⟨u, v, -, rfl, -⟩ := mem_sitesFrom.1 h
  omega

/-- Call sites lie in the text. -/
theorem lt_length_of_mem_callSites {name : Identifier} {t : Text} {i : Nat}
    (h : i ∈ callSites name t) : i < t.length := by
  rw [callSites_eq] at h
  obtain ⟨u, v, rfl, rfl, hcall⟩ := mem_sitesFrom.1 h
  have hv : v ≠ [] := by
    rintro rfl
    rw [isCall_nil] at hcall
    cases hcall
  have := List.length_pos_iff.2 hv
  rw [List.length_append]
  omega

/-- The call sites come in ascending order. -/
theorem pairwise_sitesFrom (name : Identifier) (pos : Nat) (prev : Option Char) (t : Text) :
    (sitesFrom name pos prev t).Pairwise (· < ·) := by
  induction t generalizing pos prev with
  | nil => exact List.Pairwise.nil
  | cons c t ih =>
      rw [sitesFrom]
      split
      · refine List.Pairwise.cons (fun i hi => ?_) (ih (pos + 1) (some c))
        have := le_of_mem_sitesFrom hi
        omega
      · exact ih (pos + 1) (some c)

/-- The byte offsets of the call sites come in ascending order. -/
theorem pairwise_byteOffset (name : Identifier) (t : Text) :
    (callSites name t).Pairwise fun i j => t.byteOffset i < t.byteOffset j := by
  have hsorted := pairwise_sitesFrom name 0 none t
  rw [← callSites_eq] at hsorted
  exact hsorted.imp_of_mem fun hi _ hij =>
    Text.byteOffset_lt hij (lt_length_of_mem_callSites hi)

/-! ## From call to call -/

/-- Reading a text from call to call: behind the parenthesis of a call the reading goes on, since
no call starts inside the head. What is known of all texts that are not longer than what
follows the parenthesis can be used for the call. -/
theorem call_strong_induction (name : Identifier) {motive : Option Char → Text → Prop}
    (nil : ∀ prev, motive prev [])
    (other : ∀ prev c t, isCall name prev (c :: t) = false → motive (some c) t →
      motive prev (c :: t))
    (call : ∀ prev h k, isClear prev = true → IsHead name h →
      (∀ prev' t, t.length ≤ k.length → motive prev' t) → motive prev (h ++ '(' :: k))
    (prev : Option Char) (t : Text) : motive prev t := by
  induction hn : t.length using Nat.strongRecOn generalizing prev t with
  | ind n ih =>
      cases t with
      | nil => exact nil prev
      | cons c t =>
          by_cases hcall : isCall name prev (c :: t) = true
          · obtain ⟨hclear, h, k, hh, heq⟩ := isCall_iff.1 hcall
            rw [heq] at hn ⊢
            refine call prev h k hclear hh fun prev' t' hle => ih t'.length ?_ prev' t' rfl
            rw [List.length_append, List.length_cons] at hn
            omega
          · refine other prev c t (by simpa using hcall) (ih t.length ?_ (some c) t rfl)
            rw [List.length_cons] at hn
            omega

theorem call_induction (name : Identifier) {motive : Option Char → Text → Prop}
    (nil : ∀ prev, motive prev [])
    (other : ∀ prev c t, isCall name prev (c :: t) = false → motive (some c) t →
      motive prev (c :: t))
    (call : ∀ prev h k, isClear prev = true → IsHead name h → motive (some '(') k →
      motive prev (h ++ '(' :: k))
    (prev : Option Char) (t : Text) : motive prev t :=
  call_strong_induction name nil other
    (fun prev h k hclear hh ih => call prev h k hclear hh (ih (some '(') k (Nat.le_refl _)))
    prev t

theorem IsHead.sitesFrom_inside {name : Identifier} {u v : Text} (hh : IsHead name (u ++ v))
    (hu : u ≠ []) (pos : Nat) (prev : Option Char) (k : Text) :
    sitesFrom name pos (Text.lastFrom prev u) (v ++ '(' :: k) =
      sitesFrom name (pos + v.length + 1) (some '(') k := by
  induction v generalizing u pos with
  | nil =>
      have hno := hh.isCall_inside hu prev k
      rw [List.nil_append] at hno ⊢
      rw [sitesFrom, hno]
      rfl
  | cons c v ih =>
      have hno := hh.isCall_inside hu prev k
      have hh' : IsHead name (u ++ [c] ++ v) := by simpa using hh
      have hrest := ih hh' (by simp) (pos + 1)
      rw [Text.lastFrom_concat] at hrest
      rw [List.cons_append] at hno ⊢
      rw [sitesFrom, hno, List.length_cons, ← Nat.add_assoc, Nat.add_right_comm pos v.length 1]
      exact hrest

/-- The call sites of a text that starts with a call. -/
theorem sitesFrom_call {name : Identifier} {h : Text} {prev : Option Char}
    (hclear : isClear prev = true) (hh : IsHead name h) (pos : Nat) (k : Text) :
    sitesFrom name pos prev (h ++ '(' :: k) =
      pos :: sitesFrom name (pos + h.length + 1) (some '(') k := by
  have hcall := isCall_iff.2 ⟨hclear, h, k, hh, rfl⟩
  obtain ⟨c, v, rfl⟩ := List.exists_cons_of_ne_nil hh.ne_nil
  have hrest := IsHead.sitesFrom_inside (u := [c]) hh (by simp) (pos + 1) prev k
  rw [List.cons_append] at hcall ⊢
  rw [sitesFrom, hcall, List.length_cons, ← Nat.add_assoc, Nat.add_right_comm pos v.length 1]
  exact congrArg (pos :: ·) hrest

/-- Counting the positions from another start. -/
theorem sitesFrom_add (name : Identifier) (n pos : Nat) (prev : Option Char) (t : Text) :
    sitesFrom name (n + pos) prev t = (sitesFrom name pos prev t).map (n + ·) := by
  induction t generalizing pos prev with
  | nil => rfl
  | cons c t ih =>
      rw [sitesFrom, sitesFrom, Nat.add_assoc, ih]
      split <;> rfl

/-- A text without parentheses has no call sites. -/
theorem sitesFrom_eq_nil {name : Identifier} {t : Text} (ht : '(' ∉ t) (pos : Nat)
    (prev : Option Char) : sitesFrom name pos prev t = [] := by
  refine List.eq_nil_iff_forall_not_mem.2 fun i hi => ?_
  obtain ⟨u, v, rfl, -, hcall⟩ := mem_sitesFrom.1 hi
  obtain ⟨-, h, k, -, rfl⟩ := isCall_iff.1 hcall
  exact ht (by simp)

/-- The call sites behind one of them. -/
theorem sitesFrom_eq_append_cons {name : Identifier} {pos i : Nat} {prev : Option Char}
    {t : Text} {before after : List Nat} (h : sitesFrom name pos prev t = before ++ i :: after) :
    ∃ u g k, t = u ++ (g ++ '(' :: k) ∧ i = pos + u.length ∧ IsHead name g ∧
      after = sitesFrom name (i + g.length + 1) (some '(') k := by
  induction t generalizing pos prev before with
  | nil =>
      rw [sitesFrom] at h
      simp at h
  | cons c t ih =>
      -- Both when `c` starts no call and when it starts an earlier one, the site is in `t`.
      have hstep : ∀ before', sitesFrom name (pos + 1) (some c) t = before' ++ i :: after →
          ∃ u g k, c :: t = u ++ (g ++ '(' :: k) ∧ i = pos + u.length ∧ IsHead name g ∧
            after = sitesFrom name (i + g.length + 1) (some '(') k := by
        intro before' h'
        obtain ⟨u, g, k, rfl, hi, hg, hafter⟩ := ih h'
        exact ⟨c :: u, g, k, rfl, by rw [hi, List.length_cons]; omega, hg, hafter⟩
      by_cases hcall : isCall name prev (c :: t) = true
      · cases before with
        | nil =>
            obtain ⟨hclear, g, k, hg, heq⟩ := isCall_iff.1 hcall
            rw [heq, sitesFrom_call hclear hg] at h
            obtain ⟨rfl, rfl⟩ := List.cons.inj h
            exact ⟨[], g, k, heq, rfl, hg, rfl⟩
        | cons j before =>
            rw [sitesFrom, if_pos hcall] at h
            exact hstep before (List.cons.inj h).2
      · rw [sitesFrom, if_neg hcall] at h
        exact hstep before h

/-! ## Cutting a text -/

/-- No call head that starts before the text runs into it: its first character goes on no
identifier, and its first character that is no blank is no parenthesis. -/
structure Apart (t : Text) : Prop where
  clear : isClear t.head? = true
  no_paren : (t.drop t.blanks).head? ≠ some '('

theorem apart_nil : Apart [] := ⟨rfl, by simp⟩

/-- A text that starts with a character which is neither blank, parenthesis nor identifier
character. -/
theorem apart_cons {c : Char} {t : Text} (hi : isIdentChar c = false) (hb : isBlank c = false)
    (hp : c ≠ '(') : Apart (c :: t) := by
  refine ⟨by simp [isClear, hi], ?_⟩
  rw [Text.drop_blanks_cons hb]
  simpa using hp

/-- Blanks before such a text. -/
theorem Apart.blanks_append {b t : Text} (ht : Apart t) (hb : ∀ c ∈ b, isBlank c = true) :
    Apart (b ++ t) := by
  refine ⟨?_, by rw [Text.drop_blanks_append hb]; exact ht.no_paren⟩
  cases b with
  | nil => exact ht.clear
  | cons a b =>
      have ha := isIdentChar_eq_false_of_isBlank (hb a (by simp))
      simp [isClear, ha]

/-- Such a text has no part in a call head that starts before it. -/
theorem isCall_append {name : Identifier} {prev : Option Char} {a t : Text} (ht : Apart t)
    (ha : a ≠ []) : isCall name prev (a ++ t) = isCall name prev a := by
  rw [Bool.eq_iff_iff, isCall_iff, isCall_iff]
  refine and_congr_right fun _ => ⟨?_, ?_⟩
  · rintro ⟨h, k, hh, heq⟩
    -- The parenthesis lies in `a`: otherwise `t` would go on the head.
    rcases List.append_eq_append_iff.1 heq with ⟨w, rfl, hw⟩ | ⟨w, rfl, hw⟩
    · exfalso
      obtain ⟨b, hb, hblank⟩ := hh
      rcases List.append_eq_append_iff.1 hb with ⟨x, hx, rfl⟩ | ⟨x, rfl, hx⟩
      · -- `a` ends in the name or right behind it.
        cases x with
        | nil =>
            apply ht.no_paren
            rw [hw, List.nil_append, Text.drop_blanks_append hblank,
              Text.drop_blanks_cons (by decide)]
            rfl
        | cons e x =>
            have hcl := ht.clear
            have he := name.isIdentChar_of_mem (c := e) (by rw [hx]; simp)
            rw [hw] at hcl
            simp [isClear, he] at hcl
      · apply ht.no_paren
        have hwb : ∀ c ∈ w, isBlank c = true := fun c hc => hblank c (by rw [hx]; simp [hc])
        rw [hw, Text.drop_blanks_append hwb, Text.drop_blanks_cons (by decide)]
        rfl
    · cases w with
      | nil =>
          exfalso
          apply ht.no_paren
          rw [← List.nil_append t, ← hw, Text.drop_blanks_cons (by decide)]
          rfl
      | cons e w =>
          obtain ⟨rfl, rfl⟩ : '(' = e ∧ k = w ++ t := by simpa using hw
          exact ⟨h, w, hh, rfl⟩
  · rintro ⟨h, k, hh, rfl⟩
    exact ⟨h, k ++ t, hh, by simp⟩

/-- **The call sites of a text cut in two.** -/
theorem sitesFrom_append {name : Identifier} {pos : Nat} {prev : Option Char} {a t : Text}
    (ht : Apart t) :
    sitesFrom name pos prev (a ++ t) =
      sitesFrom name pos prev a ++
        sitesFrom name (pos + a.length) (Text.lastFrom prev a) t := by
  induction a generalizing pos prev with
  | nil => rfl
  | cons c a ih =>
      have hc : isCall name prev (c :: (a ++ t)) = isCall name prev (c :: a) :=
        isCall_append (a := c :: a) ht (by simp)
      have hlen : pos + (c :: a).length = pos + 1 + a.length := by
        rw [List.length_cons]
        omega
      rw [List.cons_append, sitesFrom, sitesFrom, hc, ih, hlen, Text.lastFrom_cons]
      split <;> rfl

end Stylewire
