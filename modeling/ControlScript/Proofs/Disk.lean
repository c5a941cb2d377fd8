import ControlScript.Command
import ControlScript.Disk.Tree
import ControlScript.Proofs.Visits

/-!
# Files on disk that are open

While a control script is read from disk, an included file is open under its name, which is the same
for all paths to it, and the script itself under the path that it was asked for by.  So no included
file is read inside itself, and neither is the script, if the path that it was asked for by is its
name.  By any other path, the script can include itself once before it is seen to be open.
-/

namespace ControlScript

open Reading

/-! ## 1. Names of files -/

namespace Disk

/-- The name of what is found at a path; where nothing is found, the path. -/
def nameAt (disk : Disk) (path : String) : String :=
  match disk path with
  | .ok entry => entry.name
  | .error _ => path

/-- An included text is that of a file at one of the candidates, and has the name of this file. -/
theorem exists_candidate {disk : Disk} {directories : List String} {path : String}
    {text : IncludedText} (h : disk.texts directories path = .ok text) :
    ∃ candidate ∈ candidates directories path,
      disk candidate = .ok ⟨text.name, .file (.text text.text)⟩ := by
  simp only [texts] at h
  split at h
  · cases h
  case h_2 candidate name content hfound =>
    -- the candidate that was found is a file, and what was read is its content
    obtain ⟨candidate', hmem, hentry⟩ := List.exists_of_findSome?_eq_some hfound
    refine ⟨candidate', hmem, ?_⟩
    split at hentry
    case h_2 => cases hentry
    case h_1 name' content' hdisk =>
      cases hentry
      cases content with
      | binary size => cases h
      | text t =>
        obtain rfl := Except.ok.inj h
        exact hdisk

end Disk

/-! ## 2. Places in files -/

namespace Command

/-- What the script of a request is read against. -/
abbrev contextOf (disk : Disk) (request : Request) (workspace : Workspace) : Context :=
  ⟨workspace, disk.texts request.directories, request.settings⟩

/-- The script of a request is read from disk, and reading comes to a place in it or in a file that
    it includes. -/
structure ReadsAt (disk : Disk) (request : Request) (workspace : Workspace) (source : String)
    (terminator : Terminator) (s : Progress) : Prop where
  workspace_eq : loadWorkspace disk request.manifest = .ok workspace
  source_eq : loadSource disk request.file = .ok source
  visits : Visits (contextOf disk request workspace) request.file source terminator s

/-- The files that are open at a place: the script, under the path that it was asked for by, and
    included files, under their names.  The last of them is read. -/
structure OpenFiles (disk : Disk) (request : Request) (s : Progress) (names : List String) :
    Prop where
  files_eq : s.nesting.files = request.file :: names
  innermost : (request.file :: names).getLast? = some s.cursor.file
  named : ∀ name ∈ names, ∃ path text, disk path = .ok ⟨name, .file (.text text)⟩
  nodup : (request.file :: names).Nodup

section Places

variable {disk : Disk} {request : Request} {workspace : Workspace} {source : String}
  {terminator : Terminator} {s u : Progress}

/-- Reading comes to the beginning of a text whose directive is the first thing in the script. -/
theorem readsAt_included (hworkspace : loadWorkspace disk request.manifest = .ok workspace)
    (hsource : loadSource disk request.file = .ok source) (hdepth : 1 < request.settings.maxDepth)
    (hplace : (inside? (contextOf disk request workspace)
        ⟨.start request.file source.toList, ⟨0, [request.file]⟩⟩).bind
      (included? (contextOf disk request workspace)) = some u) :
    ReadsAt disk request workspace source .endOfText u := by
  obtain ⟨v, hinside, hincluded⟩ := Option.bind_eq_some_iff.1 hplace
  have hlevel : 0 < request.settings.maxDepth := by omega
  have hdeeper : v.nesting.depth < request.settings.maxDepth := by
    rw [nesting_of_inside? hinside]
    exact hdepth
  have houtermost : Visits (contextOf disk request workspace) request.file source .brace v :=
    .outermost hlevel hinside
  exact ⟨hworkspace, hsource, houtermost.included hdeeper hincluded⟩

theorem ReadsAt.openFiles (h : ReadsAt disk request workspace source terminator s) :
    ∃ names, OpenFiles disk request s names := by
  obtain ⟨hnodup, names, hfiles, hnames⟩ := h.visits.opened
  have hlast := h.visits.innermost
  rw [hfiles] at hnodup hlast
  refine ⟨names, hfiles, hlast, fun name hname => ?_, hnodup⟩
  obtain ⟨path, text, htext, rfl⟩ := hnames name hname
  obtain ⟨candidate, -, hcandidate⟩ := Disk.exists_candidate htext
  exact ⟨candidate, text.text, hcandidate⟩

/-- A directive for a file that is open is reported as a cycle, where it stands. -/
theorem ReadsAt.compile_of_cycle (h : ReadsAt disk request workspace source terminator s)
    {path : String} {text : IncludedText} (hdirective : directive? workspace s = some path)
    (htext : disk.texts request.directories path = .ok text) (hopen : text.name ∈ s.nesting.files) :
    let fault : Fault := ⟨.includeCycle text.name (s.nesting.files ++ [text.name]),
      s.cursor.pastBlanks.position⟩
    compile disk request = .error (.faulty fault (faultSource disk request.file source fault)) := by
  have hparse := h.visits.parse_of_cycle hdirective htext hopen
  rw [compile, h.workspace_eq, h.source_eq]
  simp only [bind, Except.bind, hparse]
  rfl

/-! ## 3. No file inside itself -/

/-- A directive at a place for a file with one of some names is reported as a cycle. -/
def ReportsCycles (disk : Disk) (request : Request) (workspace : Workspace) (source : String)
    (s : Progress) (names : List String) : Prop :=
  ∀ path text, directive? workspace s = some path →
    disk.texts request.directories path = .ok text → text.name ∈ names →
    let fault : Fault := ⟨.includeCycle text.name (s.nesting.files ++ [text.name]),
      s.cursor.pastBlanks.position⟩
    compile disk request = .error (.faulty fault (faultSource disk request.file source fault))

/-- No file is read inside itself at a place: the files that are open, which are the script and
    included files with some names, are different ones, and a directive for any of them is reported
    as a cycle. -/
structure NoneInItself (disk : Disk) (request : Request) (workspace : Workspace) (source : String)
    (s : Progress) (names : List String) : Prop where
  distinct : (disk.nameAt request.file :: names).Nodup
  reported : ReportsCycles disk request workspace source s (disk.nameAt request.file :: names)

/-- Wherever reading comes to, no included file is read inside itself.  If the path that the script
    was asked for by is its name, then no file at all is. -/
theorem noneInItself_of_named (h : ReadsAt disk request workspace source terminator s) :
    ∃ names, OpenFiles disk request s names ∧ names.Nodup ∧
      ReportsCycles disk request workspace source s names ∧
      (disk.nameAt request.file = request.file →
        NoneInItself disk request workspace source s names) := by
  obtain ⟨names, hopen⟩ := h.openFiles
  -- the names of open files are compared, and for the script that is the path
  have hreported : ReportsCycles disk request workspace source s (request.file :: names) := by
    intro path text hdirective htext hname
    rw [← hopen.files_eq] at hname
    exact h.compile_of_cycle hdirective htext hname
  refine ⟨names, hopen, hopen.nodup.of_cons, ?_, fun hmain => ?_⟩
  · intro path text hdirective htext hname
    exact hreported path text hdirective htext (List.mem_cons_of_mem _ hname)
  · rw [← hmain] at hreported
    refine ⟨?_, hreported⟩
    rw [hmain]
    exact hopen.nodup

end Places

/-- A manifest with an entry method, and two scripts: one includes itself, the other includes a file
    that includes the script. -/
def circular : FileTree := .directory [("work", .directory [
  ("manifest.json", .file (.text "\x7b\"methods\": [\x7b\"name\": \"Arts\", \"agenda\": true\x7d]\x7d")),
  ("self.arts", .file (.text "Arts \x7b INCLUDE \"self.arts\" \x7d")),
  ("main.arts", .file (.text "Arts \x7b INCLUDE \"part.arts\" \x7d")),
  ("part.arts", .file (.text "INCLUDE \"../work/main.arts\""))])]

/-- The workspace of the manifest. -/
def circularWorkspace : Workspace := ⟨⟨[⟨Workspace.arts, none⟩]⟩, {}⟩

/-- A script that was asked for by its name is not read inside itself: in a file that it includes, a
    directive for the script is a cycle. -/
theorem noneInItself_main :
    let disk := circular.disk "/work"
    let request : Request := { file := "/work/main.arts", manifest := "manifest.json" }
    let start : Progress := ⟨.start "/work/part.arts" "INCLUDE \"../work/main.arts\"".toList,
      ⟨2, ["/work/main.arts", "/work/part.arts"]⟩⟩
    ReadsAt disk request circularWorkspace "Arts \x7b INCLUDE \"part.arts\" \x7d" .endOfText start ∧
    disk.nameAt request.file = request.file ∧
    compile disk request = .error (.faulty
      ⟨.includeCycle "/work/main.arts" ["/work/main.arts", "/work/part.arts", "/work/main.arts"],
        ⟨"/work/part.arts", 1, 1⟩⟩ (some "INCLUDE \"../work/main.arts\"")) := by
  intro disk request start
  have hreads : ReadsAt disk request circularWorkspace "Arts \x7b INCLUDE \"part.arts\" \x7d" .endOfText
      start := by
    apply readsAt_included
    · decide +kernel
    · decide +kernel
    · decide
    · decide +kernel
  have hnamed : disk.nameAt request.file = request.file := by decide +kernel
  obtain ⟨names, hopen, -, -, hnone⟩ := noneInItself_of_named hreads
  have hdirective : directive? circularWorkspace start = some "../work/main.arts" := by decide +kernel
  have htext : disk.texts request.directories "../work/main.arts"
      = .ok ⟨"/work/main.arts", "Arts \x7b INCLUDE \"part.arts\" \x7d"⟩ := by decide +kernel
  have hcycle := (hnone hnamed).reported _ _ hdirective htext (by rw [hnamed]; exact List.mem_cons_self)
  refine ⟨hreads, hnamed, hcycle.trans (congrArg Except.error ?_)⟩
  decide +kernel

/-- A script that includes itself, asked for by a path that is not its name, is read inside itself;
    the cycle is reported only in the text that is read the second time. -/
theorem script_in_itself :
    (¬ ∀ root working request workspace source terminator s,
      ReadsAt (FileTree.disk root working) request workspace source terminator s →
      ∃ names, OpenFiles (FileTree.disk root working) request s names ∧
        NoneInItself (FileTree.disk root working) request workspace source s names) ∧
    run (circular.disk "/work") .check { file := "self.arts", manifest := "manifest.json" }
      = .error (.faulty ⟨.includeCycle "/work/self.arts"
          ["self.arts", "/work/self.arts", "/work/self.arts"], ⟨"/work/self.arts", 1, 8⟩⟩
        (some "Arts \x7b INCLUDE \"self.arts\" \x7d")) := by
  let disk := circular.disk "/work"
  let request : Request := { file := "self.arts", manifest := "manifest.json" }
  let again : Progress := ⟨.start "/work/self.arts" "Arts \x7b INCLUDE \"self.arts\" \x7d".toList,
    ⟨2, ["self.arts", "/work/self.arts"]⟩⟩
  have hreads : ReadsAt disk request circularWorkspace "Arts \x7b INCLUDE \"self.arts\" \x7d" .endOfText
      again := by
    apply readsAt_included
    · decide +kernel
    · decide +kernel
    · decide
    · decide +kernel
  refine ⟨fun hclaim => ?_, by decide +kernel⟩
  -- the script is open twice, and only one of its two names is its own
  obtain ⟨names, hopen, hnone⟩ := hclaim _ _ _ _ _ _ _ hreads
  obtain rfl : ["/work/self.arts"] = names := (List.cons.inj hopen.files_eq).2
  have hname : disk.nameAt request.file = "/work/self.arts" := by decide +kernel
  have hdistinct := hnone.distinct
  rw [hname] at hdistinct
  exact absurd hdistinct (by decide)

end Command

end ControlScript
