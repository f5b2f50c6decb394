import Stylewire.Proofs.ArgumentList

set_option autoImplicit false

/-! # Texts, byte by byte

A text can be read byte by byte: `Text.byteChars` has a character for every byte of its UTF-8
form, and a position in it is a byte offset in the text. Nothing that the scans look for is longer
than one byte, and every byte of a longer character stands for a character that no scan looks for.
So a text can be cut at such a character in the one form exactly if it can in the other
(`exists_cut_of_byteChars`).

The offsets of positions are the *boundaries* of a text (`isBoundary_iff`). Between two of them
lies a text of its own.
-/

namespace Stylewire

open Brackets

/-! ## One character -/

/-- Whether the character has one byte. -/
def isAscii (c : Char) : Bool := decide (c.toNat < 0x80)

theorem isAscii_iff {c : Char} : isAscii c = true ↔ c.toNat < 0x80 := by
  rw [isAscii, decide_eq_true_eq]

theorem isAscii_of_isOpening {s : Brackets} {c : Char} (h : s.isOpening c = true) :
    isAscii c = true := by
  cases s with
  | all =>
      simp only [isOpening, Bool.or_eq_true, beq_iff_eq] at h
      rcases h with (rfl | rfl) | rfl <;> decide
  | braces =>
      simp only [isOpening, beq_iff_eq] at h
      subst h
      decide

theorem isAscii_of_isClosing {s : Brackets} {c : Char} (h : s.isClosing c = true) :
    isAscii c = true := by
  cases s with
  | all =>
      simp only [isClosing, Bool.or_eq_true, beq_iff_eq] at h
      rcases h with (rfl | rfl) | rfl <;> decide
  | braces =>
      simp only [isClosing, beq_iff_eq] at h
      subst h
      decide

theorem isAscii_of_isAsciiBlank {c : Char} (h : isAsciiBlank c = true) : isAscii c = true := by
  simp only [isAsciiBlank, Bool.or_eq_true, beq_iff_eq] at h
  rcases h with (((rfl | rfl) | rfl) | rfl) | rfl <;> decide

theorem isAscii_of_isIdentChar {c : Char} (h : isIdentChar c = true) : isAscii c = true := by
  rw [isAscii_iff, Char.toNat]
  have hZ : 'Z'.val.toNat = 90 := rfl
  have hz : 'z'.val.toNat = 122 := rfl
  have h9 : '9'.val.toNat = 57 := rfl
  delta isIdentChar Char.isAlphanum Char.isAlpha Char.isUpper Char.isLower Char.isDigit at h
  simp only [Bool.or_eq_true, Bool.and_eq_true, decide_eq_true_eq, beq_iff_eq, ge_iff_le,
    UInt32.le_iff_toNat_le] at h
  rcases h with (h | rfl) | rfl
  · omega
  · decide
  · decide

/-- A character of more than one byte is no bracket. -/
theorem weight_of_not_isAscii {s : Brackets} {c : Char} (h : isAscii c = false) :
    s.weight c = 0 := by
  have ho : s.isOpening c = false := by
    rw [Bool.eq_false_iff]
    intro ho
    rw [isAscii_of_isOpening ho] at h
    cases h
  have hc : s.isClosing c = false := by
    rw [Bool.eq_false_iff]
    intro hc
    rw [isAscii_of_isClosing hc] at h
    cases h
  rw [weight, ho, hc]
  rfl

theorem toNat_ofUInt8 (b : UInt8) : (Char.ofUInt8 b).toNat = b.toNat := by
  rfl

theorem encode_of_isAscii {c : Char} (h : isAscii c = true) :
    (String.utf8EncodeChar c).map Char.ofUInt8 = [c] := by
  rw [isAscii_iff, Char.toNat] at h
  have hle : c.val.toNat ≤ 127 := by omega
  have hchar : Char.ofUInt8 (UInt8.ofNat c.val.toNat) = c := by
    refine Char.ext (UInt32.toNat_inj.1 ?_)
    show (UInt8.ofNat c.val.toNat).toNat = c.val.toNat
    rw [UInt8.toNat_ofNat']
    omega
  simp only [String.utf8EncodeChar, if_pos hle, List.map_cons, List.map_nil, hchar]

/-- A longer character starts with a byte that no other byte of it looks like. -/
theorem encode_of_not_isAscii {c : Char} (h : isAscii c = false) :
    ∃ b bs, String.utf8EncodeChar c = b :: bs ∧ 0xC0 ≤ b.toNat ∧
      ∀ b' ∈ bs, 0x80 ≤ b'.toNat ∧ b'.toNat < 0xC0 := by
  rw [isAscii, decide_eq_false_iff_not, Char.toNat] at h
  have hgt : ¬ c.val.toNat ≤ 127 := by omega
  simp only [String.utf8EncodeChar, if_neg hgt]
  split
  · refine ⟨_, _, rfl, ?_, ?_⟩
    · rw [UInt8.toNat_ofNat']
      omega
    · intro b' hb'
      simp only [List.mem_cons, List.not_mem_nil, or_false] at hb'
      subst hb'
      rw [UInt8.toNat_ofNat']
      omega
  · split
    · refine ⟨_, _, rfl, ?_, ?_⟩
      · rw [UInt8.toNat_ofNat']
        omega
      · intro b' hb'
        simp only [List.mem_cons, List.not_mem_nil, or_false] at hb'
        rcases hb' with rfl | rfl
        all_goals
          rw [UInt8.toNat_ofNat']
          omega
    · refine ⟨_, _, rfl, ?_, ?_⟩
      · rw [UInt8.toNat_ofNat']
        omega
      · intro b' hb'
        simp only [List.mem_cons, List.not_mem_nil, or_false] at hb'
        rcases hb' with rfl | rfl | rfl
        all_goals
          rw [UInt8.toNat_ofNat']
          omega

namespace Text

/-! ## All characters -/

/-- The bytes of a text, each as the character with its number. -/
def byteChars (t : Text) : Text := t.bytes.map Char.ofUInt8

theorem byteChars_append (t u : Text) : byteChars (t ++ u) = byteChars t ++ byteChars u := by
  rw [byteChars, bytes, List.flatMap_append, List.map_append]
  rfl

theorem byteChars_cons (c : Char) (t : Text) :
    byteChars (c :: t) = (String.utf8EncodeChar c).map Char.ofUInt8 ++ byteChars t := by
  rw [byteChars, bytes, List.flatMap_cons, List.map_append]
  rfl

theorem byteChars_ascii {c : Char} (h : isAscii c = true) (t : Text) :
    byteChars (c :: t) = c :: byteChars t := by
  rw [byteChars_cons, encode_of_isAscii h]
  rfl

/-- A character of more than one byte becomes characters that no scan looks for. -/
theorem byteChars_high {c : Char} (h : isAscii c = false) :
    ∃ hs, (∀ d ∈ hs, isAscii d = false) ∧ ∀ t, byteChars (c :: t) = hs ++ byteChars t := by
  obtain ⟨b, bs, henc, hb, hbs⟩ := encode_of_not_isAscii h
  refine ⟨(b :: bs).map Char.ofUInt8, ?_, fun t => by rw [byteChars_cons, henc]⟩
  intro d hd
  obtain ⟨b', hb', rfl⟩ := List.mem_map.1 hd
  rw [isAscii, decide_eq_false_iff_not, toNat_ofUInt8]
  rcases List.mem_cons.1 hb' with rfl | hb'
  · omega
  · have := hbs b' hb'
    omega

theorem length_byteChars (t : Text) : (byteChars t).length = t.byteSize := by
  induction t with
  | nil => rfl
  | cons c t ih =>
      rw [byteChars_cons, List.length_append, List.length_map, String.length_utf8EncodeChar, ih]
      rfl

theorem length_bytes (t : Text) : t.bytes.length = t.byteSize := by
  rw [← length_byteChars, byteChars, List.length_map]

theorem byteSize_append (t u : Text) : byteSize (t ++ u) = byteSize t + byteSize u := by
  rw [← length_byteChars, byteChars_append, List.length_append, length_byteChars,
    length_byteChars]

theorem byteSize_ascii {c : Char} (h : isAscii c = true) (t : Text) :
    byteSize (c :: t) = 1 + byteSize t := by
  rw [← length_byteChars, byteChars_ascii h, List.length_cons, length_byteChars, Nat.add_comm]

theorem byteOffset_append (t u : Text) : byteOffset (t ++ u) t.length = byteSize t := by
  rw [byteOffset_eq, List.take_left]

theorem byteOffset_length (t : Text) : byteOffset t t.length = byteSize t := by
  rw [byteOffset_eq, List.take_length]

theorem byteOffset_append_append (p u q : Text) :
    byteOffset (p ++ (u ++ q)) (p.length + u.length) = byteSize p + byteSize u := by
  rw [← List.append_assoc, ← List.length_append, byteOffset_append, byteSize_append]

/-- The offset behind a character of one byte and the text that follows it. -/
theorem byteOffset_append_cons {o : Char} (ho : isAscii o = true) (p x r : Text) :
    byteOffset (p ++ o :: (x ++ r)) (p.length + 1 + x.length) = byteSize p + 1 + byteSize x := by
  have hlen : p.length + 1 + x.length = p.length + (o :: x).length := by
    rw [List.length_cons]
    omega
  rw [hlen, ← List.cons_append, byteOffset_append_append, byteSize_ascii ho]
  omega

theorem exists_cut {t : Text} {i : Nat} (hi : i ≤ t.length) : ∃ u v, t = u ++ v ∧ i = u.length :=
  ⟨t.take i, t.drop i, (List.take_append_drop i t).symm, (List.length_take_of_le hi).symm⟩

/-- **A text is cut at a character of one byte** wherever its bytes are. -/
theorem exists_cut_of_byteChars {t u v : Text} {a : Char} (ha : isAscii a = true)
    (h : byteChars t = u ++ a :: v) :
    ∃ u' v', t = u' ++ a :: v' ∧ byteChars u' = u ∧ byteChars v' = v := by
  induction t generalizing u with
  | nil =>
      have := congrArg List.length h
      simp [byteChars, bytes] at this
  | cons c t ih =>
      cases hc : isAscii c with
      | true =>
          rw [byteChars_ascii hc] at h
          cases u with
          | nil =>
              obtain ⟨rfl, rfl⟩ : c = a ∧ byteChars t = v := by simpa using h
              exact ⟨[], t, rfl, rfl, rfl⟩
          | cons d u =>
              obtain ⟨rfl, hrest⟩ : c = d ∧ byteChars t = u ++ a :: v := by simpa using h
              obtain ⟨u', v', rfl, rfl, rfl⟩ := ih hrest
              exact ⟨c :: u', v', rfl, byteChars_ascii hc u', rfl⟩
      | false =>
          -- The character `a` is none of those that `c` becomes, so it lies behind them.
          obtain ⟨hs, hhigh, heq⟩ := byteChars_high hc
          rw [heq] at h
          have hrest : ∃ w, u = hs ++ w ∧ byteChars t = w ++ a :: v := by
            rcases List.append_eq_append_iff.1 h with ⟨w, rfl, hw⟩ | ⟨w, rfl, hw⟩
            · exact ⟨w, rfl, hw⟩
            · cases w with
              | nil => exact ⟨[], by simp, by simpa using hw.symm⟩
              | cons d w =>
                  obtain ⟨rfl, -⟩ : a = d ∧ v = w ++ byteChars t := by simpa using hw
                  have hfalse := hhigh a (by simp)
                  rw [ha] at hfalse
                  cases hfalse
          obtain ⟨w, rfl, hrest⟩ := hrest
          obtain ⟨u', v', rfl, rfl, rfl⟩ := ih hrest
          exact ⟨c :: u', v', rfl, heq u', rfl⟩

/-- A text of characters of one byte is its own sequence of bytes. -/
theorem byteChars_eq_self {t : Text} (h : ∀ c ∈ t, isAscii c = true) : byteChars t = t := by
  induction t with
  | nil => rfl
  | cons c t ih =>
      rw [byteChars_ascii (h c List.mem_cons_self),
        ih fun d hd => h d (List.mem_cons_of_mem c hd)]

theorem eq_of_byteChars_ascii {t u : Text} (hu : ∀ c ∈ u, isAscii c = true)
    (h : byteChars t = u) : t = u := by
  induction u generalizing t with
  | nil =>
      cases t with
      | nil => rfl
      | cons c t =>
          have hlen := congrArg List.length h
          rw [length_byteChars, byteSize, List.length_nil] at hlen
          have := Char.utf8Size_pos c
          omega
  | cons a u ih =>
      obtain ⟨p, q, rfl, hp, hq⟩ :=
        exists_cut_of_byteChars (u := []) (hu a List.mem_cons_self) h
      have hnil : p = [] := by
        cases p with
        | nil => rfl
        | cons c p =>
            have hlen := congrArg List.length hp
            rw [length_byteChars, byteSize, List.length_nil] at hlen
            have := Char.utf8Size_pos c
            omega
      rw [hnil, List.nil_append, ih (fun c hc => hu c (List.mem_cons_of_mem a hc)) hq]

/-- An ASCII character is in a text exactly if it is among the bytes. -/
theorem mem_byteChars_iff {t : Text} {a : Char} (ha : isAscii a = true) :
    a ∈ byteChars t ↔ a ∈ t := by
  constructor
  · intro h
    obtain ⟨u, v, huv⟩ := List.append_of_mem h
    obtain ⟨u', v', rfl, -, -⟩ := exists_cut_of_byteChars ha huv
    simp
  · intro h
    obtain ⟨u, v, rfl⟩ := List.append_of_mem h
    rw [byteChars_append, byteChars_ascii ha]
    simp

/-! ## Boundaries -/

/-- Whether the offset is the end of the text or that of a byte that starts a character. -/
def isBoundary (t : Text) (n : Nat) : Bool :=
  n == t.byteSize || (t.bytes[n]?).any fun b => !(0x80 ≤ b.toNat && b.toNat < 0xC0)

/-- Only the first byte of a character starts one. -/
theorem startsChar_encode (c : Char) (n : Nat) :
    ((String.utf8EncodeChar c)[n]?).any (fun b => !(0x80 ≤ b.toNat && b.toNat < 0xC0)) =
      decide (n = 0) := by
  cases hc : isAscii c with
  | true =>
      have hone : String.utf8EncodeChar c = [UInt8.ofNat c.val.toNat] := by
        rw [isAscii_iff, Char.toNat] at hc
        simp only [String.utf8EncodeChar, if_pos (by omega : c.val.toNat ≤ 127)]
      rw [isAscii_iff, Char.toNat] at hc
      rw [hone]
      cases n with
      | zero =>
          have hlt : (UInt8.ofNat c.val.toNat).toNat < 0x80 := by
            rw [UInt8.toNat_ofNat']
            omega
          generalize UInt8.ofNat c.val.toNat = b at hlt
          simp
          omega
      | succ n => simp
  | false =>
      obtain ⟨b, bs, henc, hb, hbs⟩ := encode_of_not_isAscii hc
      rw [henc]
      cases n with
      | zero =>
          simp
          omega
      | succ n =>
          rw [List.getElem?_cons_succ]
          cases hget : bs[n]? with
          | none => simp
          | some b' =>
              have := hbs b' (List.mem_of_getElem? hget)
              simp
              omega

theorem isBoundary_cons (c : Char) (t : Text) (n : Nat) :
    isBoundary (c :: t) n = true ↔
      n = 0 ∨ (c.utf8Size ≤ n ∧ isBoundary t (n - c.utf8Size) = true) := by
  have hpos := Char.utf8Size_pos c
  have hlen := String.length_utf8EncodeChar c
  unfold isBoundary
  rw [bytes, List.flatMap_cons, byteSize, Bool.or_eq_true, Bool.or_eq_true, beq_iff_eq,
    beq_iff_eq]
  by_cases hn : n < c.utf8Size
  · -- Inside the first character, only its start counts.
    rw [List.getElem?_append_left (by omega), startsChar_encode, decide_eq_true_eq]
    omega
  · rw [List.getElem?_append_right (by omega), hlen]
    have hsize : n = c.utf8Size + byteSize t ↔ n - c.utf8Size = byteSize t := by omega
    rw [hsize]
    constructor
    · intro h
      exact Or.inr ⟨by omega, h⟩
    · rintro (rfl | h)
      · omega
      · exact h.2

/-- **The boundaries of a text** are the offsets of its positions. -/
theorem isBoundary_iff {t : Text} {n : Nat} :
    isBoundary t n = true ↔ ∃ i ≤ t.length, byteOffset t i = n := by
  induction t generalizing n with
  | nil =>
      have hnil : ∀ i, byteOffset [] i = 0 := fun i => by rw [byteOffset_eq, List.take_nil]; rfl
      have hboundary : isBoundary [] n = decide (n = 0) := by
        rw [isBoundary, bytes, byteSize, List.flatMap_nil, List.getElem?_nil, Option.any_none,
          Bool.or_false]
        rfl
      rw [hboundary, decide_eq_true_eq]
      constructor
      · rintro rfl
        exact ⟨0, Nat.le_refl 0, hnil 0⟩
      · rintro ⟨i, -, hi⟩
        rw [← hi, hnil]
  | cons c t ih =>
      rw [isBoundary_cons, ih]
      constructor
      · rintro (rfl | ⟨hle, i, hi, hoff⟩)
        · exact ⟨0, Nat.zero_le _, byteOffset_zero _⟩
        · refine ⟨i + 1, by rw [List.length_cons]; omega, ?_⟩
          rw [byteOffset_cons_succ, hoff]
          omega
      · rintro ⟨i, hi, rfl⟩
        cases i with
        | zero => exact Or.inl (byteOffset_zero _)
        | succ i =>
            rw [byteOffset_cons_succ]
            exact Or.inr ⟨Nat.le_add_right _ _, i, by simpa using hi, by omega⟩

end Text

end Stylewire
