import Stylewire.Proofs.ByteScan

set_option autoImplicit false

/-! # Cuts and bytes that are checked

Whoever cuts a text by byte offsets has to take care: the two offsets have to lie in the text, in
this order, and none of them inside a character. Here a cut is only made if they do, and is a
`Panic` otherwise; so is a byte that is read behind the end of a text, and a difference that is
negative.

The offsets of two positions, in order, always make a cut, and it gives the characters between the
positions (`slice_byteOffset`). Conversely, every cut that is made is of this kind
(`exists_of_slice`).
-/

namespace Stylewire

open Brackets Text

/-- Why a cut, a byte or a difference is refused. -/
inductive Panic
  /-- The stretch does not lie in the text, or one of its ends lies inside a character. -/
  | slice (start stop : Nat)
  /-- There is no such byte. -/
  | index (i : Nat)
  /-- The second number is greater than the first. -/
  | difference (m n : Nat)
deriving Repr, DecidableEq

namespace Checked

/-! ## Lists of checked steps -/

section

variable {α β γ : Type} {l : List γ} {f : γ → α}

theorem ok_bind (a : α) (g : α → Except Panic β) : (Except.ok a >>= g) = g a := rfl

theorem mapM_map_eq {g : α → Except Panic β} {h : γ → β} (hg : ∀ a ∈ l, g (f a) = .ok (h a)) :
    (l.map f).mapM g = .ok (l.map h) := by
  induction l with
  | nil => rfl
  | cons a l ih =>
      rw [List.map_cons, List.mapM_cons, hg a List.mem_cons_self, ok_bind,
        ih fun b hb => hg b (List.mem_cons_of_mem a hb)]
      rfl

theorem anyM_map_eq {p : α → Except Panic Bool} {q : γ → Bool}
    (hp : ∀ a ∈ l, p (f a) = .ok (q a)) : (l.map f).anyM p = .ok (l.any q) := by
  induction l with
  | nil => rfl
  | cons a l ih =>
      rw [List.map_cons, List.anyM, hp a List.mem_cons_self, ok_bind, List.any_cons,
        ih fun b hb => hp b (List.mem_cons_of_mem a hb)]
      cases q a <;> rfl

theorem filterM_map_eq {p : α → Except Panic Bool} {q : γ → Bool}
    (hp : ∀ a ∈ l, p (f a) = .ok (q a)) : (l.map f).filterM p = .ok ((l.filter q).map f) := by
  have haux : ∀ acc, List.filterAuxM p (l.map f) acc =
      .ok (((l.filter q).map f).reverse ++ acc) := by
    induction l with
    | nil => exact fun acc => rfl
    | cons a l ih =>
        intro acc
        rw [List.map_cons, List.filterAuxM, hp a List.mem_cons_self, ok_bind,
          ih fun b hb => hp b (List.mem_cons_of_mem a hb), List.filter_cons]
        cases q a <;> simp
  rw [List.filterM, haux, ok_bind, List.append_nil, List.reverse_reverse]
  rfl

end

/-! ## Cuts -/

/-- The text between two byte offsets. -/
def slice (t : Text) (i j : Nat) : Except Panic Text :=
  if i ≤ j ∧ j ≤ t.byteSize ∧ t.isBoundary i = true ∧ t.isBoundary j = true then
    .ok (t.slice ((t.position? i).getD 0) ((t.position? j).getD 0))
  else .error (.slice i j)

/-- **When a cut is made.** -/
theorem exists_slice_iff {t : Text} {i j : Nat} :
    (∃ u, slice t i j = .ok u) ↔
      i ≤ j ∧ j ≤ t.byteSize ∧ t.isBoundary i = true ∧ t.isBoundary j = true := by
  unfold slice
  constructor
  · rintro ⟨u, hu⟩
    split at hu
    · assumption
    · cases hu
  · intro h
    rw [if_pos h]
    exact ⟨_, rfl⟩

-- The first of the two bytes of a character is no text.
example : slice ['é', 'a'] 0 1 = .error (.slice 0 1) ∧ slice ['é', 'a'] 0 2 = .ok ['é'] :=
  ⟨rfl, rfl⟩

section

variable {t : Text} {i j : Nat}

theorem byteOffset_le (hij : i ≤ j) (hj : j ≤ t.length) : t.byteOffset i ≤ t.byteOffset j := by
  rcases Nat.eq_or_lt_of_le hij with rfl | hlt
  · exact Nat.le_refl _
  · exact Nat.le_of_lt (byteOffset_lt hlt (by omega))

theorem byteOffset_le_byteSize (hi : i ≤ t.length) : t.byteOffset i ≤ t.byteSize := by
  rw [← byteOffset_length]
  exact byteOffset_le hi (Nat.le_refl _)

/-- **The cut at two positions.** -/
theorem slice_byteOffset (hij : i ≤ j) (hj : j ≤ t.length) :
    slice t (t.byteOffset i) (t.byteOffset j) = .ok (t.slice i j) := by
  have hi : i ≤ t.length := Nat.le_trans hij hj
  have hcond : t.byteOffset i ≤ t.byteOffset j ∧ t.byteOffset j ≤ t.byteSize ∧
      t.isBoundary (t.byteOffset i) = true ∧ t.isBoundary (t.byteOffset j) = true :=
    ⟨byteOffset_le hij hj, byteOffset_le_byteSize hj, isBoundary_iff.2 ⟨i, hi, rfl⟩,
      isBoundary_iff.2 ⟨j, hj, rfl⟩⟩
  rw [slice, if_pos hcond, position?_byteOffset t i hi, position?_byteOffset t j hj]
  rfl

theorem slice_take (hj : j ≤ t.length) : slice t 0 (t.byteOffset j) = .ok (t.take j) := by
  have h := slice_byteOffset (Nat.zero_le j) hj
  rw [byteOffset_zero] at h
  rw [h, Text.slice, List.drop_zero, Nat.sub_zero]

theorem slice_drop (hi : i ≤ t.length) : slice t (t.byteOffset i) t.byteSize = .ok (t.drop i) := by
  have h := slice_byteOffset hi (Nat.le_refl t.length)
  rw [byteOffset_length] at h
  rw [h, Text.slice, List.take_of_length_le (Nat.le_of_eq List.length_drop)]

/-- Every cut that is made has positions at its ends. -/
theorem exists_of_slice {u : Text} {m n : Nat} (h : slice t m n = .ok u) :
    ∃ p q, t = p ++ (u ++ q) ∧ m = p.byteSize ∧ n = p.byteSize + u.byteSize := by
  obtain ⟨hle, -, hm, hn⟩ := exists_slice_iff.1 ⟨u, h⟩
  obtain ⟨i, hi, rfl⟩ := isBoundary_iff.1 hm
  obtain ⟨j, hj, rfl⟩ := isBoundary_iff.1 hn
  have hij : i ≤ j := by
    refine Nat.le_of_not_lt fun hlt => ?_
    have := byteOffset_lt hlt (Nat.lt_of_lt_of_le hlt hi)
    omega
  rw [slice_byteOffset hij hj] at h
  obtain rfl : t.slice i j = u := Except.ok.inj h
  have hcut : t.take j = t.take i ++ t.slice i j := by
    rw [Text.slice, ← List.take_add, Nat.add_sub_cancel' hij]
  refine ⟨t.take i, t.drop j, ?_, byteOffset_eq t i, ?_⟩
  · rw [← List.append_assoc, ← hcut, List.take_append_drop]
  · rw [byteOffset_eq, hcut, byteSize_append]

/-- The bytes of a cut are those between its two offsets. -/
theorem bytes_of_slice {u : Text} {m n : Nat} (h : slice t m n = .ok u) :
    u.bytes = (t.bytes.drop m).take (n - m) := by
  obtain ⟨p, q, rfl, rfl, rfl⟩ := exists_of_slice h
  have hbytes : bytes (p ++ (u ++ q)) = bytes p ++ (bytes u ++ bytes q) := by
    simp only [bytes, List.flatMap_append]
  rw [hbytes, ← length_bytes p, List.drop_left, Nat.add_sub_cancel_left, ← length_bytes u,
    List.take_left]

end

/-! ## Bytes -/

/-- The byte at an offset, as the character with its number. -/
def byte (t : Text) (i : Nat) : Except Panic Char :=
  match t.byteChars[i]? with
  | some c => .ok c
  | none => .error (.index i)

/-- The difference of two numbers. -/
def sub (m n : Nat) : Except Panic Nat :=
  if n ≤ m then .ok (m - n) else .error (.difference m n)

theorem sub_eq {m n : Nat} (h : n ≤ m) : sub m n = .ok (m - n) := if_pos h

/-- The depth after the first bytes. -/
def depthAt (t : Text) (i : Nat) : Except Panic Int :=
  if i ≤ t.byteSize then .ok (all.depth (t.byteChars.take i)) else .error (.slice 0 i)

/-- Whether the byte before the offset does not continue an identifier. -/
def clearBefore (t : Text) (i : Nat) : Except Panic Bool :=
  if i = 0 then .ok true
  else do
    let c ← byte t (← sub i 1)
    return !isIdentChar c

/-- Whether the byte at the offset does not continue an identifier. -/
def clearAfter (t : Text) (i : Nat) : Except Panic Bool :=
  if t.byteSize ≤ i then .ok true
  else do
    let c ← byte t i
    return !isIdentChar c

theorem isIdentChar_of_not_isAscii {c : Char} (h : isAscii c = false) : isIdentChar c = false := by
  rw [Bool.eq_false_iff]
  intro hc
  rw [isAscii_of_isIdentChar hc] at h
  cases h

/-- The bytes of one character: the character itself, or bytes that continue no identifier. -/
theorem isClear_of_mem_byteChars {c d : Char} (hd : d ∈ byteChars [c]) :
    isIdentChar d = isIdentChar c := by
  cases hc : isAscii c with
  | true =>
      rw [byteChars_ascii hc] at hd
      rw [List.mem_singleton.1 hd]
  | false =>
      obtain ⟨hs, hhigh, heq⟩ := byteChars_high hc
      have hmem : d ∈ hs := by
        rw [heq] at hd
        simpa [byteChars, bytes] using hd
      rw [isIdentChar_of_not_isAscii hc, isIdentChar_of_not_isAscii (hhigh d hmem)]

theorem byteChars_singleton_ne_nil (c : Char) : byteChars [c] ≠ [] := by
  intro h
  have hlen := length_byteChars [c]
  rw [h, byteSize, byteSize, List.length_nil] at hlen
  have := Char.utf8Size_pos c
  omega

theorem isClear_getLast?_byteChars (u : Text) :
    isClear u.byteChars.getLast? = isClear u.getLast? := by
  rcases List.eq_nil_or_concat u with rfl | ⟨u, c, rfl⟩
  · rfl
  · rw [List.concat_eq_append, byteChars_append, List.getLast?_concat, List.getLast?_append,
      List.getLast?_eq_some_getLast (byteChars_singleton_ne_nil c), Option.some_or]
    simp only [isClear, Option.all_some,
      isClear_of_mem_byteChars (List.getLast_mem (byteChars_singleton_ne_nil c))]

theorem isClear_head?_byteChars (v : Text) : isClear v.byteChars.head? = isClear v.head? := by
  cases v with
  | nil => rfl
  | cons c v =>
      have hcut : byteChars (c :: v) = byteChars [c] ++ byteChars v := byteChars_append [c] v
      rw [hcut, List.head?_append, List.head?_eq_some_head (byteChars_singleton_ne_nil c),
        Option.some_or]
      simp only [isClear, List.head?_cons, Option.all_some,
        isClear_of_mem_byteChars (List.head_mem (byteChars_singleton_ne_nil c))]

section

variable {t : Text} {i : Nat}

theorem depthAt_byteOffset (hi : i ≤ t.length) :
    depthAt t (t.byteOffset i) = .ok (all.depth (t.take i)) := by
  rw [depthAt, if_pos (byteOffset_le_byteSize hi)]
  obtain ⟨u, v, rfl, rfl⟩ := exists_cut hi
  rw [byteOffset_append, byteChars_append, ← length_byteChars, List.take_left, List.take_left,
    depth_byteChars]

theorem clearBefore_byteOffset (hi : i ≤ t.length) :
    clearBefore t (t.byteOffset i) = .ok (t.clearBefore i) := by
  obtain ⟨u, v, rfl, rfl⟩ := exists_cut hi
  rw [Text.clearBefore_append, lastFrom_none, ← isClear_getLast?_byteChars, byteOffset_append,
    clearBefore]
  rcases List.eq_nil_or_concat u.byteChars with hnil | ⟨w, d, hd⟩
  · have hzero : u.byteSize = 0 := by
      rw [← length_byteChars, hnil]
      rfl
    rw [if_pos hzero, hnil]
    rfl
  · rw [List.concat_eq_append] at hd
    have hsize : u.byteSize = w.length + 1 := by
      rw [← length_byteChars, hd, List.length_append, List.length_singleton]
    have hget : (u ++ v).byteChars[w.length]? = some d := by
      rw [byteChars_append, hd, List.append_assoc, List.getElem?_append_right (Nat.le_refl _)]
      simp
    rw [hsize, if_neg (Nat.succ_ne_zero _), sub_eq (by omega), ok_bind, Nat.add_sub_cancel, byte,
      hget, hd, List.getLast?_concat]
    rfl

theorem clearAfter_byteOffset (hi : i ≤ t.length) :
    clearAfter t (t.byteOffset i) = .ok (t.clearAfter i) := by
  obtain ⟨u, v, rfl, rfl⟩ := exists_cut hi
  rw [Text.clearAfter_append, ← isClear_head?_byteChars, byteOffset_append, clearAfter,
    byteSize_append]
  cases hv : v.byteChars with
  | nil =>
      have hzero : v.byteSize = 0 := by
        rw [← length_byteChars, hv]
        rfl
      rw [if_pos (by omega)]
      rfl
  | cons d w =>
      have hpos : v.byteSize = w.length + 1 := by rw [← length_byteChars, hv, List.length_cons]
      have hget : (u ++ v).byteChars[u.byteSize]? = some d := by
        rw [byteChars_append, ← length_byteChars, List.getElem?_append_right (Nat.le_refl _), hv]
        simp
      rw [if_neg (by omega), byte, hget]
      rfl

end

end Checked

end Stylewire
