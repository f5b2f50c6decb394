import Stylewire.Proofs.FileTree

set_option autoImplicit false

/-! # Paths below a directory, and their order

`Path.descend dir names` is the path from `dir` down along some names. Its components are those
of `dir` with the names behind them (`components_descend`), so different names lead to different
paths, and two such paths with the same components are the same text.

Paths are sorted by their components (`Path.le`). This order is total, and paths that come
before each other have the same components (`components_eq_of_le`). So a list of paths below
one directory has one sorted form, in whatever order its paths are found (`mergeSort_congr`).
-/

namespace Stylewire

namespace Path

/-! ## Going down from a directory -/

/-- The path from `dir` down along the names. -/
def descend (dir : Path) (names : List Text) : Path := names.foldl join dir

@[simp] theorem descend_nil (dir : Path) : descend dir [] = dir := rfl

@[simp] theorem descend_cons (dir : Path) (n : Text) (names : List Text) :
    descend dir (n :: names) = descend (join dir n) names := rfl

theorem descend_append (dir : Path) (names names' : List Text) :
    descend dir (names ++ names') = descend (descend dir names) names' :=
  List.foldl_append

/-- Only the empty text has one part that is empty. -/
theorem eq_nil_of_split {t : Text} (h : Text.split '/' t = [[]]) : t = [] := by
  cases t with
  | nil => rfl
  | cons c t =>
      rw [Text.split] at h
      split at h
      · exact absurd (List.cons.inj h).2 (split_ne_nil '/' t)
      · split at h
        · cases h
        · cases (List.cons.inj h).1

/-- A proper name is one component. -/
theorem components_name {n : Text} (hn : ProperName n) : components n = [.name n] := by
  have hrel : isAbsolute n = false := by
    cases n with
    | nil => rfl
    | cons c n =>
        have hc : c ≠ '/' := fun e => hn.no_separator (by simp [e])
        simpa [isAbsolute] using hc
  have hdot : n ≠ ['.'] := by
    intro e
    have hvoid := hn.not_void
    rw [e] at hvoid
    cases hvoid
  have hname : partComponent n = .name n := if_neg hn.not_parent
  rw [components, leading, split_of_not_mem hn.no_separator]
  simp [hrel, hdot, hn.not_void, hname]

/-- **The components of an entry** are those of its directory and its name. -/
theorem components_join {n : Text} (hn : ProperName n) (dir : Path) :
    components (join dir n) = components dir ++ [.name n] := by
  by_cases hnil : dir = []
  · have hjoin : join [] n = n := by simp [join]
    rw [hnil, hjoin, components_name hn]
    rfl
  · obtain ⟨parts, hjoin, hdir⟩ := split_join hn dir
    obtain ⟨habs, hparts⟩ := hdir hnil
    have hvoid : isVoidPart [] = true := rfl
    have hname : partComponent n = .name n := if_neg hn.not_parent
    -- An empty part behind the last separator is no component.
    have hfilter : (Text.split '/' dir).filter (!isVoidPart ·) = parts.filter (!isVoidPart ·) := by
      rcases hparts with h | h
      · rw [h]
      · rw [h, List.filter_append, List.filter_cons_of_neg (by simp [hvoid]), List.filter_nil,
          List.append_nil]
    have hne : parts ≠ [] := by
      rintro rfl
      rcases hparts with h | h
      · exact split_ne_nil '/' dir h
      · exact hnil (eq_nil_of_split h)
    have hhead : (Text.split '/' (join dir n)).head? = (Text.split '/' dir).head? := by
      obtain ⟨part, rest, rfl⟩ := List.exists_cons_of_ne_nil hne
      rcases hparts with h | h
      · rw [hjoin, h]
        rfl
      · rw [hjoin, h]
        rfl
    have hlead : leading (join dir n) = leading dir := by
      rw [leading, leading, habs, hhead]
    rw [components, components, hlead, hfilter, hjoin, List.filter_append,
      List.filter_cons_of_pos (by rw [hn.not_void]; rfl), List.filter_nil, List.map_append,
      List.map_singleton, hname, List.append_assoc]

theorem components_descend {names : List Text} (h : ∀ n ∈ names, ProperName n) (dir : Path) :
    components (descend dir names) = components dir ++ names.map .name := by
  induction names generalizing dir with
  | nil => simp
  | cons n names ih =>
      rw [descend_cons, ih (fun m hm => h m (by simp [hm])), components_join (h n (by simp)),
        List.map_cons, List.append_assoc]
      rfl

/-- Different names lead to different components. -/
theorem eq_of_components_descend {names names' : List Text} (h : ∀ n ∈ names, ProperName n)
    (h' : ∀ n ∈ names', ProperName n) {dir : Path}
    (heq : components (descend dir names) = components (descend dir names')) :
    names = names' := by
  rw [components_descend h, components_descend h'] at heq
  exact (List.map_inj_right fun _ _ => Component.name.inj).1 (List.append_cancel_left heq)

/-! ## The order -/

/-- The key of a component tells it from all others. -/
theorem key_injective {c c' : Component} (h : c.key = c'.key) : c = c' := by
  have hchars : ∀ {n n' : Text}, n.map Char.toNat = n'.map Char.toNat → n = n' :=
    fun h => (List.map_inj_right fun _ _ => Char.toNat_inj.1).1 h
  cases c with
  | root => cases c' <;> simp_all [Component.key]
  | current => cases c' <;> simp_all [Component.key]
  | parent => cases c' <;> simp_all [Component.key]
  | name n =>
      cases c' with
      | name n' =>
          obtain rfl : n = n' := hchars (by simpa [Component.key] using h)
          rfl
      | root => simp [Component.key] at h
      | current => simp [Component.key] at h
      | parent => simp [Component.key] at h

/-- The order of paths is the lexical order of the keys of their components. The instances are
named, as a list of lists may have others. -/
theorem le_iff {p q : Path} :
    le p q = true ↔ @LE.le _ (@List.instLE (List Nat) List.instLT)
      ((components p).map Component.key) ((components q).map Component.key) := by
  have hkey : (fun k l : List Nat => k.lex l Nat.blt) =
      fun k l => decide (@LT.lt _ List.instLT k l) := by
    funext k l
    have hblt : Nat.blt = fun a b => decide (a < b) := by
      funext a b
      rw [Bool.eq_iff_iff, Nat.blt_eq, decide_eq_true_eq]
    rw [Bool.eq_iff_iff, hblt, List.lex_eq_true_iff_lt, decide_eq_true_eq]
  rw [le, hkey, Bool.not_eq_true', ← Bool.not_eq_true, List.lex_eq_true_iff_lt, List.not_lt]

theorem le_trans {p q r : Path} (h : le p q = true) (h' : le q r = true) : le p r = true :=
  le_iff.2 (List.le_trans (le_iff.1 h) (le_iff.1 h'))

theorem le_total (p q : Path) : (le p q || le q p) = true := by
  rw [Bool.or_eq_true, le_iff, le_iff]
  exact List.le_total _ _

/-- Paths that come before each other have the same components. -/
theorem components_eq_of_le {p q : Path} (h : le p q = true) (h' : le q p = true) :
    components p = components q :=
  (List.map_inj_right fun _ _ => key_injective).1
    (List.le_antisymm (le_iff.1 h) (le_iff.1 h'))

theorem pairwise_mergeSort (l : List Path) :
    (l.mergeSort le).Pairwise fun p q => le p q = true := by
  apply List.pairwise_mergeSort
  · intro p q r hpq hqr
    exact le_trans hpq hqr
  · exact le_total

/-- **One sorted form**: if the components tell the paths apart, the order in which they are
found does not matter. -/
theorem mergeSort_congr {l l' : List Path} (hperm : l.Perm l')
    (hsame : ∀ p ∈ l, ∀ q ∈ l, components p = components q → p = q) :
    l.mergeSort le = l'.mergeSort le := by
  refine List.Perm.eq_of_pairwise (fun p q hp hq hpq hqp => ?_) (pairwise_mergeSort l)
    (pairwise_mergeSort l') ?_
  · exact hsame p (List.mem_mergeSort.1 hp) q (hperm.mem_iff.2 (List.mem_mergeSort.1 hq))
      (components_eq_of_le hpq hqp)
  · exact (List.mergeSort_perm l le).trans (hperm.trans (List.mergeSort_perm l' le).symm)

end Path

end Stylewire
