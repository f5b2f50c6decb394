import Stylewire.Session

set_option autoImplicit false

/-! # Runs of a build session

A session is asked to restart, or to handle a module, any number of times. Two things are said
about such a run. The stylesheets it remembers are the *first uses* among the stylesheets of the
eligible modules since the last restart (`Registry.Holds`, kept by every request). And every
answer is the answer to its own request, whatever came before (`answers_run`).

The registry has a list of paths and a set of the components of these paths. It looks a path up in
the set and never in the list, so the two have to stay in step.
-/

namespace Stylewire

/-! ## First uses -/

namespace Path

theorem same_iff {p q : Path} : same p q = true ↔ components p = components q := by
  rw [same, beq_iff_eq]

theorem same_comm (p q : Path) : same p q = same q p := by
  rw [Bool.eq_iff_iff, same_iff, same_iff, eq_comm]

/-- Equal paths have the same equals. -/
theorem any_same_congr {p q : Path} (h : same p q = true) (ps : List Path) :
    ps.any (same p) = ps.any (same q) := by
  have heq : same p = same q := by
    funext x
    rw [same, same, same_iff.1 h]
  rw [heq]

end Path

/-- The paths of a list that have no equal before them. The list comes after the paths
`before`. -/
def firstUsesAfter (before : List Path) : List Path → List Path
  | [] => []
  | p :: ps =>
      if before.any (Path.same p) then firstUsesAfter (before ++ [p]) ps
      else p :: firstUsesAfter (before ++ [p]) ps

/-- The **first uses** in a list of paths: each path that has no equal before it. -/
def firstUses (ps : List Path) : List Path := firstUsesAfter [] ps

example : firstUses ["a/b.css".toList, "c.css".toList, "a//b.css".toList] =
    ["a/b.css".toList, "c.css".toList] := by decide

theorem firstUsesAfter_concat (before ps : List Path) (p : Path) :
    firstUsesAfter before (ps ++ [p]) =
      firstUsesAfter before ps ++ if (before ++ ps).any (Path.same p) then [] else [p] := by
  induction ps generalizing before with
  | nil =>
      rw [List.append_nil]
      by_cases h : before.any (Path.same p) = true
      · simp [firstUsesAfter, h]
      · simp [firstUsesAfter, h]
  | cons q ps ih =>
      have hrest := ih (before ++ [q])
      rw [List.append_assoc, List.singleton_append] at hrest
      rw [List.cons_append, firstUsesAfter, firstUsesAfter, hrest]
      by_cases h : before.any (Path.same q) = true
      · rw [if_pos h, if_pos h]
      · rw [if_neg h, if_neg h, List.cons_append]

/-- A path has an equal among the first uses exactly if it has one among all uses. -/
theorem any_firstUsesAfter (before ps : List Path) (p : Path) :
    (before ++ firstUsesAfter before ps).any (Path.same p) =
      (before ++ ps).any (Path.same p) := by
  induction ps generalizing before with
  | nil => rfl
  | cons q ps ih =>
      have hrest := ih (before ++ [q])
      simp only [List.any_append, List.any_cons, List.any_nil, Bool.or_false] at hrest ⊢
      rw [firstUsesAfter]
      by_cases h : before.any (Path.same q) = true
      · -- The path `q` is left out, and what equals it equals a path before.
        rw [if_pos h]
        by_cases hpq : Path.same p q = true
        · have hbefore : before.any (Path.same p) = true := by rw [Path.any_same_congr hpq, h]
          rw [hbefore, Bool.true_or, Bool.true_or]
        · have hfalse : Path.same p q = false := by simpa using hpq
          rw [hfalse, Bool.or_false] at hrest
          rw [hrest, hfalse, Bool.false_or]
      · rw [if_neg h, List.any_cons, ← Bool.or_assoc, hrest, Bool.or_assoc]

/-- No two first uses are equal, nor is one equal to a path before. -/
theorem distinct_firstUsesAfter (before ps : List Path) :
    (firstUsesAfter before ps).Pairwise (fun p q => Path.same p q = false) ∧
      ∀ p ∈ firstUsesAfter before ps, before.any (Path.same p) = false := by
  induction ps generalizing before with
  | nil => exact ⟨List.Pairwise.nil, by simp [firstUsesAfter]⟩
  | cons q ps ih =>
      obtain ⟨hpairs, hbefore⟩ := ih (before ++ [q])
      simp only [List.any_append, List.any_cons, List.any_nil, Bool.or_false,
        Bool.or_eq_false_iff] at hbefore
      rw [firstUsesAfter]
      by_cases h : before.any (Path.same q) = true
      · rw [if_pos h]
        exact ⟨hpairs, fun p hp => (hbefore p hp).1⟩
      · rw [if_neg h]
        refine ⟨List.Pairwise.cons (fun p hp => ?_) hpairs, fun p hp => ?_⟩
        · rw [Path.same_comm]
          exact (hbefore p hp).2
        · rcases List.mem_cons.1 hp with rfl | hp
          · simpa using h
          · exact (hbefore p hp).1

/-! ## The registry -/

namespace Registry

/-- The registry **holds** the stylesheets of the given uses: its list has the first uses, and its
set is in step with the list. -/
structure Holds (r : Registry) (uses : List Path) : Prop where
  paths_eq : r.paths = firstUses uses
  seen_eq : r.seen = (r.paths.map Path.components).reverse

variable {r : Registry} {uses : List Path}

theorem holds_nil : Holds {} [] := ⟨rfl, rfl⟩

/-- The set tells of the list. -/
theorem Holds.contains_eq (h : r.Holds uses) (p : Path) :
    r.contains p = r.paths.any (Path.same p) := by
  rw [contains, h.seen_eq, Bool.eq_iff_iff, List.contains_iff_mem, List.mem_reverse, List.mem_map,
    List.any_eq_true]
  constructor
  · rintro ⟨q, hq, heq⟩
    exact ⟨q, hq, Path.same_iff.2 heq.symm⟩
  · rintro ⟨q, hq, hsame⟩
    exact ⟨q, hq, (Path.same_iff.1 hsame).symm⟩

/-- One more use. -/
theorem Holds.add (h : r.Holds uses) (p : Path) : (r.add p).Holds (uses ++ [p]) := by
  have hany : r.contains p = uses.any (Path.same p) := by
    rw [h.contains_eq, h.paths_eq]
    exact any_firstUsesAfter [] uses p
  have hfirst : firstUses (uses ++ [p]) =
      r.paths ++ if r.contains p then [] else [p] := by
    rw [hany, h.paths_eq]
    exact firstUsesAfter_concat [] uses p
  rw [Registry.add]
  by_cases hp : r.contains p = true
  · rw [if_pos hp] at hfirst ⊢
    exact ⟨by rw [hfirst, List.append_nil], h.seen_eq⟩
  · rw [if_neg hp] at hfirst ⊢
    refine ⟨hfirst.symm, ?_⟩
    show Path.components p :: r.seen = _
    rw [h.seen_eq]
    simp

end Registry

/-! ## Requests -/

namespace Session

/-- What a session is asked for. -/
inductive Request
  /-- To forget all stylesheets. -/
  | restart
  /-- To handle a module. -/
  | handle (code : Text) (id : Path)
  /-- To handle a module, and to answer only if its text changes. -/
  | handleChanged (code : Text) (id : Path)

namespace Request

/-- Whether it is a restart. -/
def isRestart : Request → Bool
  | restart => true
  | _ => false

/-- The stylesheet of the module to handle, if the module is eligible. -/
def use? (rules : Rules) (resolve : Path → Option Stylesheet) : Request → Option Path
  | restart => none
  | handle code id => (rules.eligible? resolve code id).map Stylesheet.path
  | handleChanged code id => (rules.eligible? resolve code id).map Stylesheet.path

/-- The answer to the request alone. -/
def answer (rules : Rules) (resolve : Path → Option Stylesheet) : Request → Option WiredModule
  | restart => none
  | handle code id => rules.wire? resolve code id
  | handleChanged code id =>
      (rules.wire? resolve code id).filter fun m => m.outcome.isChanged

/-- The requests after the last restart. -/
def sinceRestart : List Request → List Request
  | [] => []
  | r :: rs => if (r :: rs).any isRestart then sinceRestart rs else r :: rs

theorem sinceRestart_eq_self {rs : List Request} (h : rs.any isRestart = false) :
    sinceRestart rs = rs := by
  cases rs with
  | nil => rfl
  | cons r rs => rw [sinceRestart, h]; rfl

end Request

/-- Serves a request. -/
def serve (s : Session) (resolve : Path → Option Stylesheet) : Request →
    Session × Option WiredModule
  | .restart => (s.restart, none)
  | .handle code id => s.handle resolve code id
  | .handleChanged code id => s.handleChanged resolve code id

/-- Serves requests one after the other; gives the session in the end and all answers. -/
def run (s : Session) (resolve : Path → Option Stylesheet) : List Request →
    Session × List (Option WiredModule)
  | [] => (s, [])
  | r :: rs =>
      let (s', answer) := s.serve resolve r
      let (final, answers) := s'.run resolve rs
      (final, answer :: answers)

variable {s : Session} (resolve : Path → Option Stylesheet)

/-- What handling a module does. -/
theorem handle_eq (code : Text) (id : Path) :
    s.handle resolve code id =
      ({ s with styles := match s.rules.eligible? resolve code id with
          | some stylesheet => s.styles.add stylesheet.path
          | none => s.styles }, s.rules.wire? resolve code id) := by
  rw [handle, Rules.wire?]
  cases s.rules.eligible? resolve code id <;> rfl

/-- The uses that count after a request. -/
def usesAfter (rules : Rules) (resolve : Path → Option Stylesheet) (uses : List Path)
    (r : Request) : List Path :=
  if r.isRestart then [] else uses ++ (r.use? rules resolve).toList

/-- **One request**: the rules stay, the registry holds the uses that count, and the answer is the
answer to the request alone. -/
theorem serve_spec {uses : List Path} (h : s.styles.Holds uses) (r : Request) :
    (s.serve resolve r).1.rules = s.rules ∧
      (s.serve resolve r).1.styles.Holds (usesAfter s.rules resolve uses r) ∧
      (s.serve resolve r).2 = r.answer s.rules resolve := by
  have hadd : ∀ found : Option Stylesheet,
      (match found with
        | some stylesheet => s.styles.add stylesheet.path
        | none => s.styles).Holds (uses ++ (found.map Stylesheet.path).toList) := by
    intro found
    cases found with
    | none => simpa using h
    | some stylesheet => exact h.add stylesheet.path
  cases r with
  | restart => exact ⟨rfl, Registry.holds_nil, rfl⟩
  | handle code id =>
      rw [serve, handle_eq]
      exact ⟨rfl, hadd _, rfl⟩
  | handleChanged code id =>
      rw [serve, handleChanged, handle_eq]
      exact ⟨rfl, hadd _, rfl⟩

/-- **A run of requests.** -/
theorem run_spec {uses : List Path} (h : s.styles.Holds uses) (rs : List Request) :
    (s.run resolve rs).1.styles.Holds (rs.foldl (usesAfter s.rules resolve) uses) ∧
      (s.run resolve rs).2 = rs.map (Request.answer s.rules resolve) := by
  induction rs generalizing s uses with
  | nil => exact ⟨h, rfl⟩
  | cons r rs ih =>
      obtain ⟨hrules, hholds, hanswer⟩ := serve_spec resolve h r
      obtain ⟨hholds', hanswers⟩ := ih hholds
      rw [hrules] at hholds' hanswers
      exact ⟨hholds', by rw [run, List.map_cons, ← hanswer, ← hanswers]⟩

/-- The uses that count in the end are those since the last restart. -/
theorem foldl_usesAfter (rules : Rules) (uses : List Path) (rs : List Request) :
    rs.foldl (usesAfter rules resolve) uses =
      if rs.any Request.isRestart then
        (Request.sinceRestart rs).filterMap (Request.use? rules resolve)
      else uses ++ rs.filterMap (Request.use? rules resolve) := by
  induction rs generalizing uses with
  | nil => simp
  | cons r rs ih =>
      rw [List.foldl_cons, ih, Request.sinceRestart]
      cases hrest : rs.any Request.isRestart with
      | true => simp [List.any_cons, hrest]
      | false =>
          cases hr : r.isRestart with
          | true =>
              simp [List.any_cons, hrest, hr, usesAfter, Request.sinceRestart_eq_self hrest]
          | false =>
              simp only [List.any_cons, hrest, hr, usesAfter, Bool.or_false,
                Bool.false_eq_true, if_false, List.append_assoc]
              rw [List.filterMap_cons]
              cases r.use? rules resolve <;> rfl

end Session

/-! ## Eligible modules -/

theorem Text.contains_iff {w t : Text} : Text.contains w t = true ↔ w <:+: t := by
  induction t with
  | nil => rw [Text.contains, List.isEmpty_iff, List.infix_nil]
  | cons c t ih =>
      rw [Text.contains, Bool.or_eq_true, List.isPrefixOf_iff_prefix, ih, List.infix_cons_iff]

theorem hasCall_iff {name : Identifier} {t : Text} :
    hasCall name t = true ↔ callSites name t ≠ [] := by
  rw [hasCall, List.any_eq_true, callSites, List.filter_map, Ne, List.map_eq_nil_iff,
    List.filter_eq_nil_iff]
  simp

/-- A module is **eligible** under some rules and has the stylesheet `s`. -/
structure Eligible (rules : Rules) (resolve : Path → Option Stylesheet) (code : Text) (id : Path)
    (s : Stylesheet) : Prop where
  /-- The rules ask for stylesheets. -/
  autoStyles : rules.autoStyles = true
  /-- The module is a script. -/
  script : ∃ e ∈ scriptExtensions, Path.extension? id = some e
  /-- It is not in an installed package. -/
  outside : ¬ "node_modules".toList <:+: id
  /-- It has a call. -/
  calls : callSites rules.wiring.directive code ≠ []
  /-- Its path passes the source filter. -/
  matched : rules.sources.isMatch id = true
  /-- The stylesheet is found. -/
  resolved : resolve id = some s

theorem isCandidate_iff {id : Path} :
    isCandidate id = true ↔
      (∃ e ∈ scriptExtensions, Path.extension? id = some e) ∧ ¬ "node_modules".toList <:+: id := by
  have hscript : isScript id = true ↔ ∃ e ∈ scriptExtensions, Path.extension? id = some e := by
    unfold isScript
    cases Path.extension? id with
    | none => simp
    | some e => simp
  rw [isCandidate, Bool.and_eq_true, hscript, Bool.not_eq_true', ← Text.contains_iff,
    Bool.not_eq_true]

theorem Rules.eligible?_iff {rules : Rules} {resolve : Path → Option Stylesheet} {code : Text}
    {id : Path} {s : Stylesheet} :
    rules.eligible? resolve code id = some s ↔ Eligible rules resolve code id s := by
  rw [Rules.eligible?_eq_some_iff, isCandidate_iff, Wiring.hasCall, hasCall_iff]
  constructor
  · rintro ⟨⟨hauto, ⟨hscript, houtside⟩, hcalls, hmatch⟩, hresolve⟩
    exact ⟨hauto, hscript, houtside, hcalls, hmatch, hresolve⟩
  · intro h
    exact ⟨⟨h.autoStyles, ⟨h.script, h.outside⟩, h.calls, h.matched⟩, h.resolved⟩

/-- **What a session remembers and answers.** After any requests to a new session, its stylesheets
are the first uses among the stylesheets of the eligible modules since the last restart, whether
their texts changed or not. No two of them are equal, the set of the registry is in step with the
list, and each answer is that to its own request: nothing if the module is not eligible, and else
the module wired to its stylesheet, which is held back if only changes are asked for and there is
none. -/
theorem Session.run_collects_first_uses (rules : Rules) (resolve : Path → Option Stylesheet)
    (requests : List Request) :
    let styles := (Session.run { rules } resolve requests).1.styles
    let answers := (Session.run { rules } resolve requests).2
    styles.paths =
        firstUses ((Request.sinceRestart requests).filterMap (Request.use? rules resolve)) ∧
      styles.paths.Pairwise (fun p q => Path.same p q = false) ∧
      styles.seen.length = styles.paths.length ∧
      (∀ p, styles.contains p = true ↔ ∃ q ∈ styles.paths, Path.same p q = true) ∧
      answers = requests.map (Request.answer rules resolve) ∧
      ∀ code id,
        (∀ s, Eligible rules resolve code id s →
          (Request.handle code id).use? rules resolve = some s.path ∧
          (Request.handleChanged code id).use? rules resolve = some s.path ∧
          (Request.handle code id).answer rules resolve =
            some ⟨rules.wiring.wire code s.specifier, s⟩ ∧
          (Request.handleChanged code id).answer rules resolve =
            if (rules.wiring.wire code s.specifier).isChanged then
              some ⟨rules.wiring.wire code s.specifier, s⟩
            else none) ∧
        ((∀ s, ¬ Eligible rules resolve code id s) →
          (Request.handle code id).use? rules resolve = none ∧
          (Request.handleChanged code id).use? rules resolve = none ∧
          (Request.handle code id).answer rules resolve = none ∧
          (Request.handleChanged code id).answer rules resolve = none) := by
  intro styles answers
  obtain ⟨hholds, hanswers⟩ :=
    Session.run_spec (s := { rules }) resolve Registry.holds_nil requests
  have huses : requests.foldl (Session.usesAfter rules resolve) [] =
      (Request.sinceRestart requests).filterMap (Request.use? rules resolve) := by
    rw [Session.foldl_usesAfter]
    cases hany : requests.any Request.isRestart with
    | true => rfl
    | false =>
        rw [Request.sinceRestart_eq_self hany]
        rfl
  rw [huses] at hholds
  refine ⟨hholds.paths_eq, ?_, ?_, ?_, hanswers, fun code id => ⟨fun s hs => ?_, fun hno => ?_⟩⟩
  · rw [hholds.paths_eq]
    exact (distinct_firstUsesAfter [] _).1
  · rw [hholds.seen_eq, List.length_reverse, List.length_map]
  · intro p
    rw [hholds.contains_eq, List.any_eq_true]
  · have hsome := Rules.eligible?_iff.2 hs
    simp only [Request.use?, Request.answer, Rules.wire?, hsome, Option.map_some,
      Option.filter_some, and_self]
  · have hnone : rules.eligible? resolve code id = none :=
      Option.eq_none_iff_forall_ne_some.2 fun s hs => hno s (Rules.eligible?_iff.1 hs)
    simp only [Request.use?, Request.answer, Rules.wire?, hnone, Option.map_none,
      Option.filter_none, and_self]

end Stylewire
