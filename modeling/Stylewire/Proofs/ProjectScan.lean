import Stylewire.Project.Scan
import Stylewire.Proofs.Walk

set_option autoImplicit false

/-! # A scan, script by script

What a scan tells about a script depends on that script alone: `module?` is the text of the
script and what wiring it leads to, if the script is within the size limit, can be read as text
and is eligible. A visit does one of four things (`visit_eq`). The files of a scan are the changes
of the scripts, one after the other, and its stylesheets are those of their modules in the order
of first use (`run_spec`). A scan succeeds if and only if the settings are in order, the walk ends
well and every script is a file (`exists_of_run`); it need not be readable.

Writing the files of a scan leaves every other file as it is. If it succeeds, each of the files has
its new text (`writeAll_spec`), and it succeeds if all of them may be written (`writeAll_succeeds`).
-/

namespace Stylewire

open FileTree

namespace Scan

/-! ## One script -/

section Script

variable (fs : FileTree) (settings : Settings) (rules : Rules)

/-- Whether the file at a path is above the size limit. -/
def isOversized (p : Path) : Bool :=
  match fs.size p with
  | .ok n => settings.maxFileSize < n
  | .error _ => false

/-- The text of a script that is within the size limit and can be read as text. -/
def source? (p : Path) : Option Text :=
  if isOversized fs settings p then none else (fs.readText p).toOption

/-- The text of a script and the module it is wired to be, if it is eligible. -/
def module? (p : Path) : Option (Text × WiredModule) :=
  (source? fs settings p).bind fun code =>
    (rules.wire? (Stylesheet.sibling? settings.extensions fs.isFile) code p).map (code, ·)

/-- The change of a script, if there is one. -/
def change? (p : Path) : Option FileChange :=
  ((module? fs settings rules p).filter fun m => m.2.outcome.isChanged).map fun m =>
    ⟨p, m.1, m.2.outcome⟩

/-- The stylesheet of a script, if it is eligible. -/
def style? (p : Path) : Option Path :=
  (module? fs settings rules p).map fun m => m.2.stylesheet.path

end Script

variable {fs : FileTree} {settings : Settings}

theorem isOversized_of_size {p : Path} {n : Nat} (h : fs.size p = .ok n) :
    isOversized fs settings p = decide (settings.maxFileSize < n) := by
  rw [isOversized, h]

theorem source?_text {p : Path} {code : Text} (h : fs.readText p = .ok code) :
    source? fs settings p = if settings.maxFileSize < code.byteSize then none else some code := by
  rw [source?, isOversized_of_size (size_of_readText h), h]
  by_cases hsize : settings.maxFileSize < code.byteSize
  · rw [if_pos (decide_eq_true hsize), if_pos hsize]
  · rw [if_neg (by simpa using hsize), if_neg hsize]
    rfl

theorem readText_of_source? {p : Path} {code : Text} (h : source? fs settings p = some code) :
    isOversized fs settings p = false ∧ fs.readText p = .ok code := by
  rw [source?, Option.ite_none_left_eq_some, Bool.not_eq_true] at h
  refine ⟨h.1, ?_⟩
  cases hread : fs.readText p with
  | error e =>
      rw [hread] at h
      cases h.2
  | ok t =>
      rw [hread] at h
      rw [Option.some.inj h.2]

/-- What a change says about its script. -/
theorem exists_of_change? {rules : Rules} {p : Path} {f : FileChange}
    (h : change? fs settings rules p = some f) :
    fs.readText p = .ok f.before ∧ f.outcome.isChanged = true ∧
      ∃ s, rules.eligible? (Stylesheet.sibling? settings.extensions fs.isFile) f.before p = some s ∧
        f.outcome = rules.wiring.wire f.before s.specifier ∧
        style? fs settings rules p = some s.path := by
  obtain ⟨⟨code, m⟩, hm, rfl⟩ := Option.map_eq_some_iff.1 h
  obtain ⟨hmodule, hchanged⟩ := Option.filter_eq_some_iff.1 hm
  obtain ⟨t, hsource, hwire⟩ := Option.bind_eq_some_iff.1 hmodule
  obtain ⟨m', hm', heq⟩ := Option.map_eq_some_iff.1 hwire
  obtain ⟨rfl, rfl⟩ : t = code ∧ m' = m := by simpa using heq
  obtain ⟨s, hs, rfl⟩ := Option.map_eq_some_iff.1 hm'
  refine ⟨(readText_of_source? hsource).2, hchanged, s, hs, rfl, ?_⟩
  rw [style?, hmodule]
  rfl

theorem path_of_change? {rules : Rules} {p : Path} {f : FileChange}
    (h : change? fs settings rules p = some f) : f.path = p := by
  obtain ⟨m, -, rfl⟩ := Option.map_eq_some_iff.1 h
  rfl

/-- **What a visit does**: a file above the size limit is noted and one that is no text is passed
over; of the others that are eligible the module is taken into account. -/
theorem visit_eq {p : Path} (h : fs.isFile p = true) (settings : Settings) (session : Session)
    (s : Scan) :
    visit fs settings (session, s) p = .ok (
      match source? fs settings p with
      | none =>
          (session, { s with
            oversized := s.oversized ++ if isOversized fs settings p then [p] else [] })
      | some code =>
          match session.rules.wire? (Stylesheet.sibling? settings.extensions fs.isFile) code p with
          | none => (session, { s with scanned := s.scanned + 1 })
          | some m => ({ session with styles := session.styles.add m.stylesheet.path },
              addModule { s with scanned := s.scanned + 1 } p code m)) := by
  obtain ⟨f, hf⟩ := isFile_iff_exists_file.1 h
  have hsize := size_of_file hf
  unfold visit
  rw [source?, isOversized_of_size hsize]
  simp only [hsize]
  by_cases hlarge : settings.maxFileSize < f.content.byteSize
  · rw [if_pos hlarge, if_pos (decide_eq_true hlarge), if_pos (decide_eq_true hlarge)]
  · rw [if_neg hlarge, if_neg (by simpa using hlarge), if_neg (by simpa using hlarge)]
    cases fs.readText p with
    | error e => simp [Except.toOption]
    | ok code =>
        simp only [Except.toOption, Session.handle]
        cases session.rules.wire? (Stylesheet.sibling? settings.extensions fs.isFile) code p with
        | none => rfl
        | some m => rfl

/-- Only a file can be visited. -/
theorem isFile_of_visit {state r : Session × Scan} {p : Path}
    (h : visit fs settings state p = .ok r) : fs.isFile p = true := by
  rw [isFile_iff_exists_file]
  cases hf : fs.file p with
  | error e =>
      have hsize : fs.size p = .error e := by
        rw [size, hf]
        rfl
      unfold visit at h
      simp only [hsize] at h
      cases h
  | ok f => exact ⟨f, rfl⟩

/-- What a visit adds to what is known. -/
theorem visit_spec {p : Path} (h : fs.isFile p = true) (settings : Settings)
    (session : Session) (s : Scan) :
    ∃ session' s', visit fs settings (session, s) p = .ok (session', s') ∧
      session'.rules = session.rules ∧
      session'.styles =
        (style? fs settings session.rules p).toList.foldl Registry.add session.styles ∧
      s'.files = s.files ++ (change? fs settings session.rules p).toList := by
  rw [visit_eq h, style?, change?, module?]
  cases source? fs settings p with
  | none => exact ⟨_, _, rfl, rfl, rfl, by simp⟩
  | some code =>
      simp only [Option.bind_some]
      cases session.rules.wire? (Stylesheet.sibling? settings.extensions fs.isFile) code p with
      | none => exact ⟨_, _, rfl, rfl, rfl, by simp⟩
      | some m =>
          refine ⟨_, _, rfl, rfl, rfl, ?_⟩
          cases hchanged : m.outcome.isChanged <;> simp [addModule, Option.filter, hchanged]

/-! ## All scripts -/

theorem mem_changes {rules : Rules} {scripts : List Path} {f : FileChange} :
    f ∈ scripts.filterMap (change? fs settings rules) ↔
      f.path ∈ scripts ∧ change? fs settings rules f.path = some f := by
  rw [List.mem_filterMap]
  constructor
  · rintro ⟨p, hp, hf⟩
    obtain rfl := path_of_change? hf
    exact ⟨hp, hf⟩
  · rintro ⟨hp, hf⟩
    exact ⟨f.path, hp, hf⟩

/-- What the visits of all scripts lead to. -/
theorem foldlM_visit_spec {scripts : List Path} (h : ∀ p ∈ scripts, fs.isFile p = true)
    (settings : Settings) (session : Session) (s : Scan) :
    ∃ session' s', scripts.foldlM (visit fs settings) (session, s) = .ok (session', s') ∧
      session'.styles =
        (scripts.filterMap (style? fs settings session.rules)).foldl Registry.add
          session.styles ∧
      s'.files = s.files ++ scripts.filterMap (change? fs settings session.rules) := by
  induction scripts generalizing session s with
  | nil => exact ⟨session, s, rfl, rfl, by simp⟩
  | cons p scripts ih =>
      obtain ⟨session₁, s₁, hvisit, hrules, hstyles, hfiles⟩ :=
        visit_spec (h p (by simp)) settings session s
      obtain ⟨session₂, s₂, hrest, hstyles', hfiles'⟩ :=
        ih (fun q hq => h q (by simp [hq])) session₁ s₁
      refine ⟨session₂, s₂, ?_, ?_, ?_⟩
      · rw [List.foldlM_cons, hvisit]
        exact hrest
      · rw [hstyles', hstyles, hrules, List.filterMap_cons]
        cases style? fs settings session.rules p <;> rfl
      · rw [hfiles', hfiles, hrules, List.filterMap_cons]
        cases change? fs settings session.rules p <;> simp

/-- If the visits succeed, all scripts are files. -/
theorem isFile_of_foldlM_visit {scripts : List Path} {state r : Session × Scan}
    (h : scripts.foldlM (visit fs settings) state = .ok r) :
    ∀ p ∈ scripts, fs.isFile p = true := by
  induction scripts generalizing state with
  | nil => simp
  | cons p scripts ih =>
      rw [List.foldlM_cons] at h
      cases hvisit : visit fs settings state p with
      | error e =>
          rw [hvisit] at h
          cases h
      | ok state₁ =>
          rw [hvisit] at h
          intro q hq
          rcases List.mem_cons.1 hq with rfl | hq
          · exact isFile_of_visit hvisit
          · exact ih h q hq

/-- **What a scan tells**, from what is told about each script. -/
theorem run_spec {root : Path} {rules : Rules} {scripts : List Path}
    (hrules : settings.rules = .ok rules)
    (hscripts : collectScripts fs root settings = .ok scripts)
    (hfile : ∀ p ∈ scripts, fs.isFile p = true) :
    ∃ s, run fs root settings = .ok s ∧
      s.files = scripts.filterMap (change? fs settings rules) ∧
      s.styles = ((scripts.filterMap (style? fs settings rules)).foldl Registry.add {}).paths := by
  obtain ⟨session, s, hfold, hstyles, hfiles⟩ :=
    foldlM_visit_spec hfile settings { rules } {}
  refine ⟨{ s with styles := session.styles.paths }, ?_, by simpa using hfiles, ?_⟩
  · unfold run
    rw [hrules, hscripts]
    simp only [bind, Except.bind, hfold]
    rfl
  · rw [hstyles]

/-- A scan that succeeds has rules, and scripts that are files. -/
theorem exists_of_run {root : Path} {s : Scan} (h : run fs root settings = .ok s) :
    ∃ rules scripts, settings.rules = .ok rules ∧
      collectScripts fs root settings = .ok scripts ∧
      ∀ p ∈ scripts, fs.isFile p = true := by
  unfold run at h
  cases hrules : settings.rules with
  | error e =>
      rw [hrules] at h
      cases h
  | ok rules =>
      rw [hrules] at h
      cases hscripts : collectScripts fs root settings with
      | error e =>
          rw [hscripts] at h
          cases h
      | ok scripts =>
          rw [hscripts] at h
          refine ⟨rules, scripts, rfl, rfl, ?_⟩
          simp only [bind, Except.bind] at h
          split at h
          · cases h
          · rename_i r hfold
            exact isFile_of_foldlM_visit hfold

/-! ## Writing -/

/-- **Writing files that are there** keeps the shape of the tree and leaves every place alone that
no file leads to. If it succeeds, it puts the new text at the place of a file that shares it with
no other. -/
theorem writeAll_spec {files : List FileChange} (fs : FileTree)
    (h : ∀ f ∈ files, fs.isFile f.path = true) :
    SameShape fs (writeAll fs files).1 ∧
      ∀ q, ((∀ f ∈ files, fs.target f.path ≠ .ok q) →
          (writeAll fs files).1.fileAt? q = fs.fileAt? q) ∧
        ((writeAll fs files).2 = none → ∀ f ∈ files, fs.target f.path = .ok q →
          (∀ g ∈ files, fs.target g.path = .ok q → g = f) →
            (writeAll fs files).1.fileAt? q =
              (fs.fileAt? q).map fun file => { file with content := .text f.outcome.code }) := by
  -- On the files that are still to be written. A write keeps the shape, so they still lead to
  -- the same places, and they are still files.
  induction files generalizing fs with
  | nil => exact ⟨SameShape.refl fs, fun q => ⟨fun _ => rfl, by simp⟩⟩
  | cons f files ih =>
      obtain ⟨place, file, htarget, hplace⟩ := isFile_iff.1 (h f (by simp))
      have hplace := fileAt?_eq_some_iff.2 hplace
      obtain ⟨hdenied, hdone⟩ := write_spec htarget hplace f.outcome.code
      cases hw : file.writable with
      | false =>
          rw [writeAll, hdenied hw]
          exact ⟨SameShape.refl fs, fun q => ⟨fun _ => rfl, by simp⟩⟩
      | true =>
          obtain ⟨fs₁, hwrite, hshape, hcontent⟩ := hdone hw
          have hfile : ∀ g ∈ files, fs₁.isFile g.path = true := by
            intro g hg
            rw [← hshape.isFile_congr]
            exact h g (by simp [hg])
          have hrest : writeAll fs (f :: files) = writeAll fs₁ files := by rw [writeAll, hwrite]
          obtain ⟨hshape', hspec⟩ := ih fs₁ hfile
          rw [hrest]
          refine ⟨hshape.trans hshape', fun q => ⟨fun hno => ?_, ?_⟩⟩
          · have hne : q ≠ place := by
              rintro rfl
              exact hno f (by simp) htarget
            rw [(hspec q).1 fun g hg => by rw [← hshape.target_congr]; exact hno g (by simp [hg]),
              hcontent, if_neg hne]
          · intro hnone g hg hq hunique
            by_cases hlater : g ∈ files
            · rw [(hspec q).2 hnone g hlater (by rw [← hshape.target_congr, hq]) fun k hk hkq => ?_,
                hcontent]
              · by_cases hqp : q = place
                · rw [if_pos hqp, hqp, hplace]
                  rfl
                · rw [if_neg hqp]
              · rw [← hshape.target_congr] at hkq
                exact hunique k (by simp [hk]) hkq
            · -- The file is the first one, and no later one leads to the same place.
              obtain rfl : g = f := (List.mem_cons.1 hg).resolve_right hlater
              rw [htarget] at hq
              obtain rfl := Except.ok.inj hq
              rw [(hspec place).1 ?_, hcontent, if_pos rfl, hplace]
              · rfl
              · intro k hk hkq
                rw [← hshape.target_congr] at hkq
                exact hlater (hunique k (by simp [hk]) hkq ▸ hk)

/-- Writing succeeds if all the files may be written. -/
theorem writeAll_succeeds (files : List FileChange) (fs : FileTree)
    (h : ∀ f ∈ files, ∃ file, fs.file f.path = .ok file ∧ file.writable = true) :
    ∃ fs', writeAll fs files = (fs', none) := by
  induction files generalizing fs with
  | nil => exact ⟨fs, rfl⟩
  | cons f files ih =>
      obtain ⟨file, hfile, hw⟩ := h f (by simp)
      obtain ⟨place, htarget, hplace⟩ := file_eq_ok_iff.1 hfile
      obtain ⟨fs₁, hwrite, hshape, hcontent⟩ := (write_spec htarget hplace f.outcome.code).2 hw
      rw [writeAll, hwrite]
      refine ih fs₁ fun g hg => ?_
      obtain ⟨file', hfile', hw'⟩ := h g (by simp [hg])
      obtain ⟨q, hq, hat⟩ := file_eq_ok_iff.1 hfile'
      rw [hshape.target_congr] at hq
      by_cases hqp : q = place
      · exact ⟨{ file with content := .text f.outcome.code },
          file_eq_ok_iff.2 ⟨q, hq, by rw [hcontent, if_pos hqp]⟩, hw⟩
      · exact ⟨file', file_eq_ok_iff.2 ⟨q, hq, by rw [hcontent, if_neg hqp, hat]⟩, hw'⟩

end Scan

end Stylewire
