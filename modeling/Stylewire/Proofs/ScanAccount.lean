import Stylewire.Proofs.Convergence
import Stylewire.Proofs.SessionRun
import Stylewire.Proofs.WalkWays

set_option autoImplicit false

/-! # The accounts of a scan

A scan goes over the scripts once and keeps its accounts as it goes: the changes, the scripts with
calls that are never closed, those above the size limit, and how many scripts were read and how many
calls were left as they are. A script can leave the pass at four points, and each of them enters it
in some of the accounts only.

`record` says what a visit adds to all accounts at once, from what is known about the script alone,
and `Tallies` what they hold after some scripts. From this the accounts of a whole scan are
*consistent* with each other (`run_accounts`): each names its scripts in ascending order, the sites
looked up by path are those of the change at that path, and every script is read, or above the size
limit, or within it and cannot be read as text, be it that it is not text or that it may not be
read. A script that is above the limit and not text is counted as above the limit only
(`binary_above_limit`).
-/

namespace Stylewire

open FileTree

namespace Scan

/-! ## One script -/

section Script

variable (fs : FileTree) (settings : Settings) (rules : Rules) (p : Path)

/-- Whether what a path leads to cannot be read as text. -/
def isUnreadable : Bool := !(fs.readText p).isOk

/-- What wiring a script leads to, if it is eligible. -/
def outcome? : Option Outcome := (module? fs settings rules p).map fun m => m.2.outcome

/-- The number of calls of a script that are left as they are. -/
def skippedAt : Nat := (outcome? fs settings rules p).elim 0 fun o => o.skipped.length

/-- The number of calls of a script whose argument list is never closed. -/
def malformedAt : Nat := (outcome? fs settings rules p).elim 0 Outcome.malformedCount

/-- What is told about the calls of a script whose argument list is never closed, if there are
any. -/
def malformed? : Option MalformedSource :=
  if 0 < malformedAt fs settings rules p then some ⟨p, malformedAt fs settings rules p⟩ else none

/-- The accounts with those of one more script. -/
def record (s : Scan) : Scan :=
  { s with
    files := s.files ++ (change? fs settings rules p).toList
    scanned := s.scanned + if (source? fs settings p).isSome then 1 else 0
    oversized := s.oversized ++ if isOversized fs settings p then [p] else []
    skippedSites := s.skippedSites + skippedAt fs settings rules p
    malformed := s.malformed ++ (malformed? fs settings rules p).toList }

end Script

variable {fs : FileTree} {settings : Settings} {rules : Rules} {p : Path}

/-- A script is read if it is within the size limit and can be read as text. -/
theorem isSome_source? :
    (source? fs settings p).isSome = (!isOversized fs settings p && !isUnreadable fs p) := by
  rw [source?, isUnreadable, Bool.not_not]
  cases isOversized fs settings p with
  | true => rfl
  | false => cases fs.readText p <;> rfl

theorem malformed?_eq_some_iff {m : MalformedSource} :
    malformed? fs settings rules p = some m ↔
      0 < m.sites ∧ m = ⟨p, malformedAt fs settings rules p⟩ := by
  rw [malformed?, Option.ite_none_right_eq_some]
  constructor
  · rintro ⟨hpos, heq⟩
    obtain rfl := Option.some.inj heq
    exact ⟨hpos, rfl⟩
  · rintro ⟨hpos, rfl⟩
    exact ⟨hpos, rfl⟩

theorem malformedAt_le_skippedAt :
    malformedAt fs settings rules p ≤ skippedAt fs settings rules p := by
  unfold malformedAt skippedAt
  cases outcome? fs settings rules p with
  | none => exact Nat.le_refl 0
  | some o => exact List.countP_le_length

theorem outcome?_of_change? {f : FileChange} (h : change? fs settings rules p = some f) :
    outcome? fs settings rules p = some f.outcome := by
  obtain ⟨m, hm, rfl⟩ := Option.map_eq_some_iff.1 h
  rw [outcome?, (Option.filter_eq_some_iff.1 hm).1]
  rfl

/-- A script with an outcome is within the size limit. -/
theorem isOversized_of_outcome? {o : Outcome} (h : outcome? fs settings rules p = some o) :
    isOversized fs settings p = false := by
  obtain ⟨m, hm, -⟩ := Option.map_eq_some_iff.1 h
  obtain ⟨code, hsource, -⟩ := Option.bind_eq_some_iff.1 hm
  exact (readText_of_source? hsource).1

/-! ## A visit -/

/-- Of a script that is not read, only its size is recorded. -/
theorem record_of_source?_eq_none (h : source? fs settings p = none) (s : Scan) :
    record fs settings rules p s =
      { s with oversized := s.oversized ++ if isOversized fs settings p then [p] else [] } := by
  have hmodule : module? fs settings rules p = none := by
    rw [module?, h]
    rfl
  simp [record, change?, malformed?, malformedAt, skippedAt, outcome?, hmodule, h]

/-- Of a script that is read, the module is recorded if there is one. -/
theorem record_of_source?_eq_some {code : Text} (h : source? fs settings p = some code)
    (s : Scan) :
    record fs settings rules p s =
      (rules.wire? (Stylesheet.sibling? settings.extensions fs.isFile) code p).elim
        { s with scanned := s.scanned + 1 }
        (addModule { s with scanned := s.scanned + 1 } p code) := by
  have hsize := (readText_of_source? h).1
  have hmodule : module? fs settings rules p =
      (rules.wire? (Stylesheet.sibling? settings.extensions fs.isFile) code p).map
        (code, ·) := by
    rw [module?, h]
    rfl
  cases hwire : rules.wire? (Stylesheet.sibling? settings.extensions fs.isFile) code p with
  | none =>
      rw [hwire] at hmodule
      simp [record, change?, malformed?, malformedAt, skippedAt, outcome?, hmodule, h, hsize]
  | some m =>
      rw [hwire] at hmodule
      have houtcome : outcome? fs settings rules p = some m.outcome := by
        rw [outcome?, hmodule]
        rfl
      have hfiles : s.files ++ (change? fs settings rules p).toList =
          if m.outcome.isChanged then s.files ++ [⟨p, code, m.outcome⟩] else s.files := by
        rw [change?, hmodule]
        cases hchanged : m.outcome.isChanged <;> simp [Option.filter, hchanged]
      have hmalformed : s.malformed ++ (malformed? fs settings rules p).toList =
          if 0 < m.outcome.malformedCount then s.malformed ++ [⟨p, m.outcome.malformedCount⟩]
          else s.malformed := by
        rw [malformed?, malformedAt, houtcome]
        by_cases hpos : 0 < m.outcome.malformedCount <;> simp [hpos]
      simp [record, addModule, skippedAt, houtcome, hfiles, hmalformed, h, hsize]

/-- **A visit records the script** and keeps the rules of the session. -/
theorem visit_eq_record (h : fs.isFile p = true) (settings : Settings) (session : Session)
    (s : Scan) :
    ∃ session', session'.rules = session.rules ∧
      visit fs settings (session, s) p =
        .ok (session', record fs settings session.rules p s) := by
  rw [visit_eq h]
  cases hsource : source? fs settings p with
  | none =>
      rw [record_of_source?_eq_none hsource]
      exact ⟨session, rfl, rfl⟩
  | some code =>
      rw [record_of_source?_eq_some hsource]
      dsimp only
      cases session.rules.wire? (Stylesheet.sibling? settings.extensions fs.isFile) code p with
      | none => exact ⟨session, rfl, rfl⟩
      | some m =>
          exact ⟨{ session with styles := session.styles.add m.stylesheet.path }, rfl, rfl⟩

/-! ## What the accounts hold -/

/-- The sum of a number over a list. -/
def total {α : Type} (f : α → Nat) (l : List α) : Nat := l.foldr (fun a n => f a + n) 0

theorem total_concat {α : Type} (f : α → Nat) (l : List α) (a : α) :
    total f (l ++ [a]) = total f l + f a := by
  induction l with
  | nil => simp [total]
  | cons b l ih =>
      show f b + total f (l ++ [a]) = f b + total f l + f a
      omega

/-- A sum over what comes of some members is at most a sum over all of them. -/
theorem total_filterMap_le {α β : Type} {g : α → Option β} {f : β → Nat} {k : α → Nat}
    (h : ∀ a b, g a = some b → f b ≤ k a) (l : List α) :
    total f (l.filterMap g) ≤ total k l := by
  induction l with
  | nil => exact Nat.le_refl 0
  | cons a l ih =>
      have hcons : total k (a :: l) = k a + total k l := rfl
      cases hg : g a with
      | none =>
          rw [List.filterMap_cons_none hg, hcons]
          omega
      | some b =>
          have hcons' : total f (b :: l.filterMap g) = f b + total f (l.filterMap g) := rfl
          have hb := h a b hg
          rw [List.filterMap_cons_some hg, hcons, hcons']
          omega

/-- What the accounts hold after the scripts `seen`. -/
structure Tallies (fs : FileTree) (settings : Settings) (rules : Rules) (seen : List Path)
    (s : Scan) : Prop where
  files_eq : s.files = seen.filterMap (change? fs settings rules)
  malformed_eq : s.malformed = seen.filterMap (malformed? fs settings rules)
  oversized_eq : s.oversized = seen.filter (isOversized fs settings)
  scanned_eq : s.scanned = seen.countP fun p => (source? fs settings p).isSome
  skippedSites_eq : s.skippedSites = total (skippedAt fs settings rules) seen

theorem Tallies.record {seen : List Path} {s : Scan} (h : Tallies fs settings rules seen s)
    (p : Path) : Tallies fs settings rules (seen ++ [p]) (s.record fs settings rules p) where
  files_eq := by
    rw [List.filterMap_append, ← h.files_eq]
    cases hp : change? fs settings rules p <;> simp [Scan.record, hp]
  malformed_eq := by
    rw [List.filterMap_append, ← h.malformed_eq]
    cases hp : malformed? fs settings rules p <;> simp [Scan.record, hp]
  oversized_eq := by
    rw [List.filter_append, ← h.oversized_eq]
    simp [Scan.record, List.filter_cons]
  scanned_eq := by
    rw [List.countP_append, ← h.scanned_eq]
    simp [Scan.record, List.countP_cons]
  skippedSites_eq := by
    rw [total_concat, ← h.skippedSites_eq]
    rfl

/-- The visits of scripts that are files record them all. -/
theorem Tallies.foldlM_visit {seen scripts : List Path} {session : Session} {s : Scan}
    (h : Tallies fs settings session.rules seen s) (hfile : ∀ p ∈ scripts, fs.isFile p = true) :
    ∃ r, scripts.foldlM (visit fs settings) (session, s) = .ok r ∧
      Tallies fs settings session.rules (seen ++ scripts) r.2 := by
  induction scripts generalizing seen session s with
  | nil =>
      rw [List.append_nil]
      exact ⟨(session, s), rfl, h⟩
  | cons p scripts ih =>
      obtain ⟨session', hrules, hvisit⟩ :=
        visit_eq_record (hfile p List.mem_cons_self) settings session s
      have hnext := h.record p
      rw [← hrules] at hnext
      obtain ⟨r, hrest, htallies⟩ := ih hnext fun q hq => hfile q (List.mem_cons_of_mem p hq)
      rw [hrules, List.append_assoc] at htallies
      refine ⟨r, ?_, htallies⟩
      rw [List.foldlM_cons, hvisit, ← hrules]
      exact hrest

/-- **What the accounts of a scan hold.** -/
theorem exists_tallies {root : Path} {s : Scan} (h : run fs root settings = .ok s) :
    ∃ rules scripts, settings.rules = .ok rules ∧
      collectScripts fs root settings = .ok scripts ∧ Tallies fs settings rules scripts s := by
  obtain ⟨rules, scripts, hrules, hscripts, hfile⟩ := exists_of_run h
  have hstart : Tallies fs settings (Session.mk rules {}).rules [] {} := ⟨rfl, rfl, rfl, rfl, rfl⟩
  obtain ⟨r, hfold, htallies⟩ := hstart.foldlM_visit hfile
  unfold run at h
  rw [hrules, hscripts] at h
  simp only [bind, Except.bind, hfold] at h
  obtain rfl := Except.ok.inj h
  exact ⟨rules, scripts, hrules, hscripts,
    ⟨htallies.files_eq, htallies.malformed_eq, htallies.oversized_eq, htallies.scanned_eq,
      htallies.skippedSites_eq⟩⟩

/-! ## The accounts agree -/

/-- What comes of scripts in ascending order is in ascending order. -/
theorem pairwise_filterMap {β : Type} {g : Path → Option β} {path : β → Path}
    (hpath : ∀ p b, g p = some b → path b = p) {scripts : List Path}
    (h : scripts.Pairwise Path.Precedes) :
    ((scripts.filterMap g).map path).Pairwise Path.Precedes := by
  rw [List.pairwise_map, List.pairwise_filterMap]
  refine h.imp fun hpq b hb b' hb' => ?_
  rw [hpath _ b hb, hpath _ b' hb']
  exact hpq

/-- Scripts in ascending order have different components. -/
theorem eq_of_components {scripts : List Path} (h : scripts.Pairwise Path.Precedes) {p q : Path}
    (hp : p ∈ scripts) (hq : q ∈ scripts) (heq : Path.components p = Path.components q) :
    p = q := by
  induction h with
  | nil => cases hp
  | cons hfirst _ ih =>
      rcases List.mem_cons.1 hp with rfl | hp'
      · rcases List.mem_cons.1 hq with rfl | hq'
        · rfl
        · exact absurd heq (hfirst q hq').components_ne
      · rcases List.mem_cons.1 hq with rfl | hq'
        · exact absurd heq.symm (hfirst p hp').components_ne
        · exact ih hp' hq'

/-- Every script is read, or above the size limit, or within it and unreadable. -/
theorem countP_add_countP_add_countP (scripts : List Path) :
    scripts.countP (fun p => (source? fs settings p).isSome) +
      scripts.countP (isOversized fs settings) +
        scripts.countP (fun p => isUnreadable fs p && !isOversized fs settings p) =
      scripts.length := by
  induction scripts with
  | nil => rfl
  | cons p scripts ih =>
      rw [List.countP_cons, List.countP_cons, List.countP_cons, isSome_source?, List.length_cons,
        ← ih]
      cases isOversized fs settings p <;> cases isUnreadable fs p <;> simp <;> omega

namespace Tallies

variable {scripts : List Path} {s : Scan}

/-- The sites looked up by path are those of the script. -/
theorem malformedSites_eq (h : Tallies fs settings rules scripts s)
    (hascending : scripts.Pairwise Path.Precedes) (hp : p ∈ scripts) :
    s.malformedSites p = malformedAt fs settings rules p := by
  unfold malformedSites
  rw [h.malformed_eq]
  split
  · -- The entry found is that of a script with the same components, which is this one.
    rename_i m hfind
    obtain ⟨q, hq, hm⟩ := List.mem_filterMap.1 (List.mem_of_find?_eq_some hfind)
    have hsame := List.find?_some hfind
    obtain ⟨-, rfl⟩ := malformed?_eq_some_iff.1 hm
    obtain rfl := eq_of_components hascending hq hp (Path.same_iff.1 hsame)
    rfl
  · -- Without an entry there are no such calls: otherwise the script's own entry would be found.
    rename_i hfind
    by_contra hne
    have hpos : 0 < malformedAt fs settings rules p := Nat.pos_of_ne_zero (Ne.symm hne)
    have hmem : (⟨p, malformedAt fs settings rules p⟩ : MalformedSource) ∈
        scripts.filterMap (malformed? fs settings rules) :=
      List.mem_filterMap.2 ⟨p, hp, malformed?_eq_some_iff.2 ⟨hpos, rfl⟩⟩
    exact List.find?_eq_none.1 hfind _ hmem (Path.same_iff.2 rfl)

/-- The scripts that change or have calls that are never closed are within the size limit. -/
theorem isOversized_eq_false (h : Tallies fs settings rules scripts s)
    (hp : p ∈ s.files.map FileChange.path ++ s.malformed.map MalformedSource.path) :
    p ∈ scripts ∧ isOversized fs settings p = false := by
  rw [h.files_eq, h.malformed_eq] at hp
  rcases List.mem_append.1 hp with hp | hp
  · obtain ⟨f, hf, rfl⟩ := List.mem_map.1 hp
    obtain ⟨hmem, hchange⟩ := mem_changes.1 hf
    exact ⟨hmem, isOversized_of_outcome? (outcome?_of_change? hchange)⟩
  · obtain ⟨m, hm, rfl⟩ := List.mem_map.1 hp
    obtain ⟨q, hq, hmalformed⟩ := List.mem_filterMap.1 hm
    obtain ⟨hpos, rfl⟩ := malformed?_eq_some_iff.1 hmalformed
    refine ⟨hq, ?_⟩
    cases houtcome : outcome? fs settings rules q with
    | none =>
        rw [malformedAt, houtcome] at hpos
        exact absurd hpos (Nat.lt_irrefl 0)
    | some o => exact isOversized_of_outcome? houtcome

end Tallies

/-- The accounts of a scan over the scripts are **consistent**. -/
structure Consistent (fs : FileTree) (settings : Settings) (scripts : List Path) (s : Scan) :
    Prop where
  files_ascending : (s.files.map FileChange.path).Pairwise Path.Precedes
  malformed_ascending : (s.malformed.map MalformedSource.path).Pairwise Path.Precedes
  oversized_ascending : s.oversized.Pairwise Path.Precedes
  /-- No script above the size limit is in another account. -/
  oversized_apart : ∀ p ∈ s.oversized,
    ∀ q ∈ s.files.map FileChange.path ++ s.malformed.map MalformedSource.path,
      Path.same p q = false
  sites_pos : ∀ m ∈ s.malformed, 1 ≤ m.sites
  /-- The sites looked up by the path of a change are those of its outcome. -/
  malformedSites_eq : ∀ f ∈ s.files, s.malformedSites f.path = f.outcome.malformedCount
  malformedCount_le : s.malformedCount ≤ s.skippedSites
  skipped_le : total (fun f => f.outcome.skipped.length) s.files ≤ s.skippedSites
  /-- Every script is read, or above the size limit, or within it and unreadable. -/
  length_eq : s.scanned + s.oversized.length +
    scripts.countP (fun p => isUnreadable fs p && !isOversized fs settings p) = scripts.length

theorem Tallies.consistent {scripts : List Path} {s : Scan}
    (h : Tallies fs settings rules scripts s) (hascending : scripts.Pairwise Path.Precedes) :
    Consistent fs settings scripts s where
  files_ascending := by
    rw [h.files_eq]
    exact pairwise_filterMap (fun _ _ => path_of_change?) hascending
  malformed_ascending := by
    rw [h.malformed_eq]
    refine pairwise_filterMap (fun p m hm => ?_) hascending
    rw [(malformed?_eq_some_iff.1 hm).2]
  oversized_ascending := by
    rw [h.oversized_eq]
    exact hascending.filter _
  oversized_apart := by
    intro p hp q hq
    rw [h.oversized_eq] at hp
    obtain ⟨hmem, hover⟩ := List.mem_filter.1 hp
    obtain ⟨hmem', hwithin⟩ := h.isOversized_eq_false hq
    rw [← Bool.not_eq_true, Path.same_iff]
    intro heq
    obtain rfl := eq_of_components hascending hmem hmem' heq
    rw [hover] at hwithin
    cases hwithin
  sites_pos := by
    rw [h.malformed_eq]
    intro m hm
    obtain ⟨p, -, hp⟩ := List.mem_filterMap.1 hm
    exact (malformed?_eq_some_iff.1 hp).1
  malformedSites_eq := by
    rw [h.files_eq]
    intro f hf
    obtain ⟨hp, hchange⟩ := mem_changes.1 hf
    rw [h.malformedSites_eq hascending hp, malformedAt, outcome?_of_change? hchange]
    rfl
  malformedCount_le := by
    show total MalformedSource.sites s.malformed ≤ s.skippedSites
    rw [h.malformed_eq, h.skippedSites_eq]
    refine total_filterMap_le (fun p m hm => ?_) scripts
    rw [(malformed?_eq_some_iff.1 hm).2]
    exact malformedAt_le_skippedAt
  skipped_le := by
    rw [h.files_eq, h.skippedSites_eq]
    refine total_filterMap_le (fun p f hf => ?_) scripts
    rw [skippedAt, outcome?_of_change? hf]
    exact Nat.le_refl _
  length_eq := by
    rw [h.scanned_eq, h.oversized_eq, ← List.countP_eq_length_filter]
    exact countP_add_countP_add_countP scripts

/-- **The accounts of a scan.** A scan that succeeds has gone over the scripts of the project, in
ascending order. Each account holds what is told about each of them, and the accounts are
consistent with each other. -/
theorem run_accounts (horderly : fs.Orderly) {root : Path} {s : Scan}
    (h : run fs root settings = .ok s) :
    ∃ rules scripts, settings.rules = .ok rules ∧
      collectScripts fs root settings = .ok scripts ∧
      Tallies fs settings rules scripts s ∧ Consistent fs settings scripts s := by
  obtain ⟨rules, scripts, hrules, hscripts, htallies⟩ := exists_tallies h
  exact ⟨rules, scripts, hrules, hscripts, htallies,
    htallies.consistent (pairwise_collectScripts horderly hscripts)⟩

/-- Scripts of every kind: one that changes and has a call that is never closed, one that is no
text, one above the size limit, one that is not eligible, and one that may not be read. -/
def mixedEntries : List (Text × Node) :=
  [("a.css".toList, .file (.text [])),
    ("a.js".toList, .file (.text "directive(x, y)\ndirective(".toList)),
    ("b.js".toList, .file { content := .binary [0xff] }),
    ("c.js".toList, .file (.text (List.replicate 71 ' '))),
    ("d.js".toList, .file (.text [])),
    ("e.js".toList, .file { content := .text [], readable := false })]

/-- The project with these scripts. -/
def mixedProject : FileTree := flatProject mixedEntries

/-- The paths of its scripts. -/
def mixedScripts : List Path :=
  ["p/a.js".toList, "p/b.js".toList, "p/c.js".toList, "p/d.js".toList, "p/e.js".toList]

theorem orderly_mixedProject : mixedProject.Orderly := by
  constructor
  · simp only [mixedProject, flatProject, mixedEntries, Node.Proper, ProperEntries]
    decide
  · simp only [mixedProject, flatProject, mixedEntries, Node.Distinct, DistinctEntries]
    decide

theorem collectScripts_mixedProject :
    collectScripts mixedProject ['p'] smallFiles = .ok mixedScripts := by
  have hres : mixedProject.resolve (⟨['p'], true⟩ : Pending).path = _ := resolve_flatProject _
  unfold collectScripts
  simp only [walkFrom_directory hres List.contains_nil]
  cbv

/-- The first script changes, and one of its calls is never closed. -/
theorem change?_mixedProject {rules : Rules} (hrules : smallFiles.rules = .ok rules)
    (hauto : rules.autoStyles = true) (hmatch : rules.sources.isMatch "p/a.js".toList = true) :
    ∃ f, change? mixedProject smallFiles rules "p/a.js".toList = some f ∧
      f.outcome.malformedCount = 1 := by
  have hw : rules.wiring = {} := wiring_of_rules hrules rfl
  have hread : mixedProject.readText "p/a.js".toList =
      .ok "directive(x, y)\ndirective(".toList := by cbv
  have hsheet : mixedProject.resolve "p/a.css".toList =
      .ok ([['p'], "a.css".toList], .file (.text [])) := by cbv
  have hsibling : Stylesheet.sibling? smallFiles.extensions mixedProject.isFile "p/a.js".toList =
      some ⟨"p/a.css".toList, "./a.css".toList⟩ :=
    sibling?_cons (by decide +kernel : Path.parent? _ = some ['p'])
      (by decide +kernel : Stylesheet.baseName? _ = some ['a']) [] hsheet
  have hcall : rules.wiring.hasCall "directive(x, y)\ndirective(".toList = true := by
    rw [hw]
    decide +kernel
  have hchange := change?_of_read hread (by decide)
    (Rules.eligible?_eq_some_iff.2 ⟨⟨hauto, by decide +kernel, hcall, hmatch⟩, hsibling⟩)
  rw [hw] at hchange
  exact ⟨_, hchange (by decide +kernel), by decide +kernel⟩

theorem run_accounts_mixedProject :
    mixedProject.Orderly ∧ ∃ s, run mixedProject ['p'] smallFiles = .ok s ∧
      Consistent mixedProject smallFiles mixedScripts s ∧
      s.scanned = 2 ∧ s.oversized = ["p/c.js".toList] ∧
      mixedScripts.filter (isUnreadable mixedProject) = ["p/b.js".toList, "p/e.js".toList] ∧
      ∃ f ∈ s.files, s.malformedSites f.path = 1 := by
  have heval : (smallFiles.rules.map fun r =>
      r.autoStyles && ["p/a.js".toList].all r.sources.isMatch) = .ok true := by cbv
  obtain ⟨rules, hrules, hauto, hmatch⟩ := exists_rules heval
  have hfile : mixedScripts.all mixedProject.isFile = true := by cbv
  obtain ⟨s, hrun, -⟩ := run_spec hrules collectScripts_mixedProject (List.all_eq_true.1 hfile)
  obtain ⟨rules', scripts, hrules', hscripts, htallies, hconsistent⟩ :=
    run_accounts orderly_mixedProject hrun
  obtain rfl : rules = rules' := Except.ok.inj (hrules.symm.trans hrules')
  obtain rfl : mixedScripts = scripts :=
    Except.ok.inj (collectScripts_mixedProject.symm.trans hscripts)
  obtain ⟨f, hf, hone⟩ := change?_mixedProject hrules hauto (hmatch _ (by simp))
  have hmem : f ∈ s.files := by
    rw [htallies.files_eq]
    exact List.mem_filterMap.2 ⟨_, List.mem_cons_self, hf⟩
  refine ⟨orderly_mixedProject, s, hrun, hconsistent, ?_, ?_, by cbv, f, hmem, ?_⟩
  · rw [htallies.scanned_eq]
    cbv
  · rw [htallies.oversized_eq]
    cbv
  · rw [hconsistent.malformedSites_eq f hmem, hone]

/-- Whether the file at a path is no text. -/
def isBinary (fs : FileTree) (p : Path) : Bool :=
  match fs.file p with
  | .ok f =>
      match f.content with
      | .text _ => false
      | .binary _ => true
  | .error _ => false

/-- One script, of two bytes that are no text. -/
def binaryProject : FileTree :=
  flatProject [("a.js".toList, .file { content := .binary [0xff, 0x00] })]

/-- Settings with a size limit of one byte. -/
def oneByte : Settings := { allSources with maxFileSize := 1 }

theorem collectScripts_binaryProject :
    collectScripts binaryProject ['p'] oneByte = .ok ["p/a.js".toList] := by
  have hres : binaryProject.resolve (⟨['p'], true⟩ : Pending).path = _ := resolve_flatProject _
  unfold collectScripts
  simp only [walkFrom_directory hres List.contains_nil]
  cbv

/-- **A script above the size limit is not looked into.** If it is no text either, then the scripts
read, those above the limit and those that are no text are together more than all scripts. -/
theorem binary_above_limit :
    binaryProject.Orderly ∧ ∃ s scripts, run binaryProject ['p'] oneByte = .ok s ∧
      collectScripts binaryProject ['p'] oneByte = .ok scripts ∧
      s.scanned + s.oversized.length + scripts.countP (isBinary binaryProject) ≠
        scripts.length := by
  have horderly : binaryProject.Orderly := by
    constructor
    · simp only [binaryProject, flatProject, Node.Proper, ProperEntries]
      decide
    · simp only [binaryProject, flatProject, Node.Distinct, DistinctEntries]
      decide
  have heval : (oneByte.rules.map fun r =>
      r.autoStyles && ([] : List Path).all r.sources.isMatch) = .ok true := by cbv
  obtain ⟨rules, hrules, -⟩ := exists_rules heval
  obtain ⟨s, hrun, -⟩ := run_spec hrules collectScripts_binaryProject
    (List.forall_mem_singleton.2 (by cbv))
  obtain ⟨rules', scripts, -, hscripts, htallies⟩ := exists_tallies hrun
  obtain rfl : ["p/a.js".toList] = scripts :=
    Except.ok.inj (collectScripts_binaryProject.symm.trans hscripts)
  refine ⟨horderly, s, _, hrun, collectScripts_binaryProject, ?_⟩
  rw [htallies.scanned_eq, htallies.oversized_eq]
  cbv

end Scan

end Stylewire
