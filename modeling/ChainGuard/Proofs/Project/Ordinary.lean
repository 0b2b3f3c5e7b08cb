import ChainGuard.Proofs.Project.Failure

/-!
# Requests that fail only for the user

A dry run that finds nothing out of the ordinary gives a result or a failure that the user is told.
What is out of the ordinary can be read off the request and the host before the run.

1. `Path.Within`: paths that take few bytes.
2. `FixRequest.Ordinary`: requests and hosts with nothing out of the ordinary.
   `FixRequest.Ordinary.not_stray`: nothing but a failure for the user comes up in a run on them.
3. Main statement: `FixRequest.dry_run_fails_for_a_reason`. The strays are no theory:
   `FixRequest.runIn_of_unusable_command`, `FixRequest.runIn_of_wrong_kind`.
-/

namespace ChainGuard

/-! ## 1. Short paths -/

namespace Path

/-- The parts are within the limit, and with a slash for each they take at most so many bytes. -/
structure Within (size : Nat) (parts : List String) : Prop where
  names : ∀ s ∈ parts, s.utf8ByteSize ≤ Disk.maxPartBytes
  size : (parts.map (·.utf8ByteSize + 1)).sum ≤ size

namespace Within

variable {m n : Nat} {a b : List String}

theorem append (ha : Within m a) (hb : Within n b) : Within (m + n) (a ++ b) where
  names s hs := by
    rcases List.mem_append.mp hs with hs | hs
    · exact ha.names s hs
    · exact hb.names s hs
  size := by
    rw [List.map_append, List.sum_append]
    exact Nat.add_le_add ha.size hb.size

theorem of_sublist (hb : Within n b) (h : a.Sublist b) : Within n a where
  names s hs := hb.names s (h.subset hs)
  size := Nat.le_trans ((h.map _).sum_le_sum fun _ _ => Nat.zero_le _) hb.size

theorem singleton {s : String} (h : s.utf8ByteSize ≤ Disk.maxPartBytes) :
    Within (s.utf8ByteSize + 1) [s] where
  names t ht := by rwa [List.mem_singleton.mp ht]
  size := by simp

theorem not_tooLong (ha : Within n a) (hn : n ≤ Disk.maxNameBytes) (hdown : Descends a) :
    ¬Disk.TooLong (render ⟨.root, a⟩) := by
  rintro (hlong | ⟨s, hs, hlong⟩)
  · by_cases hne : a = []
    · rw [hne] at hlong
      exact absurd hlong (by decide)
    · rw [size_render hne] at hlong
      have hsize := ha.size
      omega
  · rw [Disk.steps_render hdown] at hs
    exact absurd (ha.names s hs) (Nat.not_le.mpr hlong)

end Within

end Path

namespace Action

/-- The names of temporary directories are short on a disk with few entries. -/
theorem size_freeName {disk : Disk} (hdisk : disk.length < 10 ^ 8) (directory : Location)
    {start : String} (hstart : start.toList.all (·.val ≤ 127) = true) :
    (freeName disk directory start).utf8ByteSize = start.toList.length + 8 := by
  obtain ⟨-, n, hn, hname⟩ := isFree_freeName disk directory start
  have hdigits : (toString n).toList.length ≤ 8 :=
    Nat.toList_repr ▸ Nat.toDigits_length 10 n 8 (by decide) (Nat.lt_of_le_of_lt hn hdisk)
  have hascii : ∀ c ∈ (temporaryName start n).toList, c.val ≤ 127 := by
    intro c hc
    rw [toList_temporaryName, List.mem_append, List.mem_append] at hc
    rcases hc with hc | hc | hc
    · exact of_decide_eq_true (List.all_eq_true.mp hstart c hc)
    · rw [List.eq_of_mem_replicate hc]
      decide
    · have hdigit := Nat.isDigit_of_mem_toDigits (by decide) (by decide) (Nat.toList_repr ▸ hc)
      unfold Char.isDigit at hdigit
      rw [Bool.and_eq_true, decide_eq_true_eq, decide_eq_true_eq] at hdigit
      exact UInt32.le_trans hdigit.2 (by decide)
  rw [hname, Path.size_of_ascii _ hascii, toList_temporaryName, List.length_append,
    List.length_append, List.length_replicate, ← String.length_toList]
  omega

end Action

/-! ## 2. Ordinary requests -/

/-- The value is an object that lists no files, or names without a null character. -/
inductive JsonValue.ListsFiles : JsonValue → Prop
  | absent {members : List (String × JsonValue)} : Dict.get? members "files" = none →
      ListsFiles (.object members)
  | names {members : List (String × JsonValue)} {names : List String} :
      Dict.get? members "files" = some (.array (names.map .text)) →
      (∀ name ∈ names, '\x00' ∉ name.toList) → ListsFiles (.object members)

/-- A text that is no JSON, or one that lists files. -/
inductive Project.Showable (levels : Nat) (output : Text) : Prop
  | malformed {e : JsonError} : JsonValue.read levels output = .error e → e.isSyntax = true →
      Showable levels output
  | listed {value : JsonValue} : JsonValue.read levels output = .ok value → value.ListsFiles →
      Showable levels output

namespace Project

theorem rootsOf_of_listsFiles {value : JsonValue} (h : value.ListsFiles) (directory : Path) :
    ∃ names : List String, (∀ name ∈ names, '\x00' ∉ name.toList) ∧ rootsOf directory value =
      .ok (names.map fun name => (Path.absolute directory (Path.ofString name)).render) := by
  cases h with
  | absent hnone =>
    refine ⟨[], List.forall_mem_nil _, ?_⟩
    rw [rootsOf, hnone]
    rfl
  | @names members names hfiles hnull =>
    refine ⟨names, hnull, ?_⟩
    rw [rootsOf, hfiles]
    show (names.map JsonValue.text).mapM (rootPath directory) = _
    clear hfiles hnull
    induction names with
    | nil => rfl
    | cons name rest ih =>
      rw [List.map_cons, List.mapM_cons, ih]
      rfl

end Project

namespace FixRequest

/-- Nothing about the request and the host is out of the ordinary. The compiler is given by a
command that can be split, or looked for. Names are short, and they have no null characters. No
directory has the name of a configuration. The compiler is launched, or the system says why not.
When it is asked for the configuration, it shows one; and later on it writes no null characters and
no numbers with thousands of digits. -/
structure Ordinary (r : FixRequest) (w : Host) : Prop where
  command : ∃ command, r.choice.command? = .ok command
  config : Path.NoNull r.config.parts
  directory : ∀ p, r.directory = some p → Path.NoNull p.parts
  place : Path.Within 2000 (Path.absolute ⟨.root, w.cwd⟩ r.config).parts
  places : ∀ entry ∈ w.disk, Path.Within 2000 entry.1
  few : w.disk.length < 10 ^ 8
  settings : ∀ above, w.disk.get? (above ++ ["tsconfig.json"]) ≠ some .directory
  launches : ∀ next ∈ w.replies, ∀ l e, next l ≠ .failed e
  shown : ∀ next, w.replies.head? = some next → ∀ l output errors,
    next l = .finished output errors 0 → Project.Showable w.levels output
  written : ∀ next ∈ w.replies.tail, ∀ l output errors status,
    next l = .finished output errors status → ∀ e, ¬CompilerOutput.Unreadable (output ++ errors) e

namespace Ordinary

variable {r : FixRequest} {w v : Host}

theorem not_failed (h : r.Ordinary w) {i : Nat} {e : Failure} : ¬w.Answered v i (.failed e) := by
  rintro ⟨l, -, hreply⟩
  unfold Host.replyTo at hreply
  split at hreply
  · next next hnext => exact h.launches next (List.mem_of_getElem? hnext) l e hreply
  · cases hreply

theorem showable (h : r.Ordinary w) {output errors : Text}
    (hanswered : w.Answered v 0 (.finished output errors 0)) :
    Project.Showable w.levels output := by
  obtain ⟨l, -, hreply⟩ := hanswered
  unfold Host.replyTo at hreply
  split at hreply
  · next next hnext =>
    exact h.shown next (List.head?_eq_getElem? ▸ hnext) l output errors hreply
  · cases hreply
    have hread : JsonValue.read w.levels [] = .error (.malformed .expectedValue 1 1 0) := rfl
    exact .malformed hread rfl

theorem readable (h : r.Ordinary w) {i : Nat} {output errors : Text} {status : Int} {e : Failure}
    (hanswered : w.Answered v (i + 1) (.finished output errors status)) :
    ¬CompilerOutput.Unreadable (output ++ errors) e := by
  obtain ⟨l, -, hreply⟩ := hanswered
  unfold Host.replyTo at hreply
  split at hreply
  · next next hnext =>
    rw [← List.getElem?_tail] at hnext
    exact h.written next (List.mem_of_getElem? hnext) l output errors status hreply e
  · cases hreply
    rintro (⟨⟨hstands, hnumeral, -⟩⟩ | hnull)
    · exact hnumeral.ne_nil (List.eq_nil_of_infix_nil hstands)
    · exact nomatch hnull

/-- The compiler shows a configuration that lists files. -/
theorem listsFiles (h : r.Ordinary w) {value : JsonValue} (hshows : w.Shows v value) :
    value.ListsFiles := by
  obtain ⟨output, errors, hanswered, hread⟩ := hshows
  cases h.showable hanswered with
  | malformed herror => exact nomatch hread.symm.trans herror
  | listed hvalue hlists => exact Except.ok.inj (hvalue.symm.trans hread) ▸ hlists

/-- The root files of a project have no null characters in their names. -/
theorem noNull_roots (h : r.Ordinary w) {parts : Location} {project : Project}
    (hloaded : project.IsLoaded r w v parts) {name : String} (hname : name ∈ project.roots) :
    '\x00' ∉ name.toList := by
  obtain ⟨value, hshows, hroots⟩ := hloaded.shown
  obtain ⟨names, hnull, hnames⟩ := Project.rootsOf_of_listsFiles (h.listsFiles hshows)
    ⟨.root, parts.dropLast⟩
  rw [hnames] at hroots
  rw [← Except.ok.inj hroots] at hname
  obtain ⟨given, hgiven, rfl⟩ := List.mem_map.mp hname
  intro hmem
  obtain ⟨s, hs, hc⟩ := Path.mem_of_mem_render (by decide) (by decide) hmem
  have hparts : s ∈ parts.dropLast ∨ s ∈ (Path.ofString given).parts := by
    have hjoin := Path.mem_of_mem_collapse hs
    unfold Path.join at hjoin
    split at hjoin
    · exact .inr hjoin
    · exact List.mem_append.mp hjoin
  rcases hparts with hs | hs
  · exact hloaded.noNull s (List.mem_of_mem_dropLast hs) hc
  · exact hnull given hgiven (Path.mem_of_mem_ofString hs hc)

end Ordinary

/-! ### Names of a run -/

/-- What a run comes to work on are files of the project, each at a place on the disk. -/
theorem Opens.sources {r : FixRequest} {w : Host} {project : Project} {roots : List String}
    {files : Files} (h : r.Opens w project roots files) (hw : w.WellFormed)
    (hconfig : r.config.IsRead) : ∃ parts w₁, project.IsLoaded r w w₁ parts ∧
      w.Sources files.keys := by
  obtain ⟨hload, hselect, hread⟩ := h
  obtain ⟨⟨parts, hloaded⟩, -⟩ := (Project.ends_load hw hconfig).ok hload
  have hsame := ((Project.leads_load r.config r.choice).of_run hload).toSameDisk
  have hroots : ∀ name ∈ roots, name ∈ project.roots := fun name hname => by
    rw [Project.select_eq_ok hselect] at hname
    exact List.mem_of_mem_filter hname
  have hlater := ((Project.leads_select _ _).of_run hselect).toSameDisk
  exact ⟨parts, _, hloaded, hloaded.sources hroots (hsame.trans hlater) hread⟩

namespace Ordinary

variable {r : FixRequest} {w v : Host}

theorem within_of_get? (h : r.Ordinary w) {at_ : Location} {entry : Entry}
    (hget : w.disk.get? at_ = some entry) : Path.Within 2000 at_ := by
  by_cases hroot : at_ = []
  · rw [hroot]
    exact ⟨List.forall_mem_nil _, Nat.zero_le _⟩
  · obtain ⟨⟨_, _⟩, hentry, rfl⟩ :=
      List.mem_map.mp (Disk.mem_places_of_has (Disk.has_of_get? hget) hroot)
    exact h.places _ hentry

theorem not_tooLong_installed {parts : Location} (hparts : Path.Descends parts)
    (hwithin : Path.Within 2000 parts) {up : Path} (hup : up ∈ Path.upwards ⟨.root, parts⟩) :
    ¬Disk.TooLong (Compiler.installedIn up).render := by
  obtain ⟨k, -, rfl⟩ := List.mem_map.mp hup
  have htake := List.take_prefix (parts.length - k) parts
  have hnames : ∀ s ∈ ["node_modules", ".bin", "tsc"], Path.IsName s := by decide
  have hshort : Path.Within 22 ["node_modules", ".bin", "tsc"] := ⟨by decide, by decide⟩
  have hbelow := (hwithin.of_sublist htake.sublist).append hshort
  have hdown := (hparts.of_isPrefix htake).append fun s hs =>
    ⟨(hnames s hs).part, (hnames s hs).ne_up⟩
  unfold Compiler.installedIn Path.child
  dsimp only
  rw [List.append_assoc, List.append_assoc]
  exact hbelow.not_tooLong (by decide) hdown

/-- The names that filling an overlay asks the disk about are short. -/
theorem not_tooLong_overlay (h : r.Ordinary w) (hw : w.WellFormed) {parts : Location}
    (hparts : Path.Descends parts) (hwithin : Path.Within 2000 parts) {files : Files}
    (hfiles : w.Sources files.keys) {roots : List String} {c : Compiler} {name : String}
    (hasks : c.Asks (Compiler.overlayIn w ⟨.root, parts⟩ roots files.keys) files.keys name) :
    ¬Disk.TooLong name := by
  have hsize : (Action.freeName w.disk parts Compiler.overlayStart).utf8ByteSize = 26 :=
    Action.size_freeName h.few parts (by decide +kernel)
  have hname : Path.Descends [Action.freeName w.disk parts Compiler.overlayStart] :=
    Action.descends_freeName w.disk parts (by decide) (by decide)
  have hplace := hparts.append hname
  have hshort := hwithin.append (.singleton (by rw [hsize]; decide))
  rw [hsize] at hshort
  cases hasks with
  | directory => exact hshort.not_tooLong (by decide) hplace
  | settings =>
    exact (hshort.append (.singleton (by decide))).not_tooLong (by decide)
      (hplace.append Compiler.descends_settingsName)
  | @way file at_ hfile hat =>
    obtain ⟨content, hget⟩ := hfiles.file file hfile
    have hdrop := List.drop_sublist
      (Compiler.overlayIn w ⟨.root, parts⟩ roots files.keys).base.parts.length (w.placeOf file)
    have hbelow := hshort.append ((h.within_of_get? hget).of_sublist hdrop)
    have hdown := hplace.append fun s hs =>
      Path.descends_absolute hw.cwd (Path.isRead_ofString file) s (hdrop.subset hs)
    have hpaths : Path.ofString file ∈ (roots ++ files.keys).map Path.ofString :=
      List.mem_map_of_mem (List.mem_append_right roots hfile)
    have htarget := Overlay.target_eq_drop hw.cwd hpaths
      (parts ++ [Action.freeName w.disk parts Compiler.overlayStart])
    replace hat : at_ <+: _ := htarget ▸ hat
    exact (hbelow.of_sublist hat.sublist).not_tooLong (by decide) (hdown.of_isPrefix hat)
  | installed hchoice hup =>
    have hparent : (Compiler.overlayIn w ⟨.root, parts⟩ roots files.keys).directory.parent =
        ⟨.root, parts⟩ := congrArg (Path.mk .root) List.dropLast_concat
    exact not_tooLong_installed hparts hwithin (hparent ▸ hup)

/-- The names that a run asks the disk about are short. -/
theorem not_tooLong (h : r.Ordinary w) (hw : w.WellFormed) (hconfig : r.config.IsRead)
    {name : String} (hasks : r.Asks w name) : ¬Disk.TooLong name := by
  have hdown := Path.descends_absolute hw.cwd hconfig
  cases hasks with
  | config => exact h.place.not_tooLong (by decide) hdown
  | inside =>
    exact (h.place.append (.singleton (by decide))).not_tooLong (by decide)
      (hdown.append Compiler.descends_settingsName)
  | installed hlocated hchoice hup =>
    obtain ⟨-, parts, rfl, hparts, -, -, content, hget⟩ :=
      (Project.ends_locateConfig hw hconfig).ok hlocated
    have hdropLast := List.dropLast_prefix parts
    exact not_tooLong_installed (hparts.of_isPrefix hdropLast)
      ((h.within_of_get? hget).of_sublist hdropLast.sublist) hup
  | @overlay project roots files c name hopens hc hasks =>
    obtain ⟨parts, w₁, hloaded, hfiles⟩ := hopens.sources hw hconfig
    obtain ⟨-, content, hget⟩ := hloaded.file
    have hup := List.dropLast_prefix parts
    rw [Project.directory, hloaded.config] at hasks
    exact h.not_tooLong_overlay hw (hloaded.descends.of_isPrefix hup)
      ((h.within_of_get? hget).of_sublist hup.sublist) hfiles hasks

/-- Nothing out of the ordinary comes up. -/
theorem not_stray (h : r.Ordinary w) (hw : w.WellFormed) (hconfig : r.config.IsRead) {e : Failure} :
    ¬r.Stray w v e := by
  rintro hstray
  cases hstray with
  | command hcommand =>
    obtain ⟨command, hok⟩ := h.command
    exact nomatch hok.symm.trans hcommand
  | launch hanswered => exact h.not_failed hanswered
  | shown hanswered hread hsyntax =>
    cases h.showable hanswered with
    | malformed herror htrue =>
      cases herror.symm.trans hread
      exact nomatch hsyntax.symm.trans htrue
    | listed hvalue => exact nomatch hvalue.symm.trans hread
  | @kind p value e hlocated hshows hroots =>
    obtain ⟨names, -, hok⟩ := Project.rootsOf_of_listsFiles (h.listsFiles hshows) p.parent
    exact nomatch hok.symm.trans hroots
  | output hanswered hunreadable => exact h.readable hanswered hunreadable
  | nullGiven hp hnull =>
    rcases hp with rfl | hp
    · exact hnull h.config
    · exact hnull (h.directory _ hp)
  | nullShown hload hname hnull =>
    obtain ⟨⟨parts, hloaded⟩, -⟩ := (Project.ends_load hw hconfig).ok hload
    exact h.noNull_roots hloaded hname hnull
  | long hasks hlong => exact h.not_tooLong hw hconfig hasks hlong
  | settings _ _ _ _ hthere => exact h.settings _ hthere

end Ordinary

/-! ## 3. Dry runs -/

variable {r : FixRequest} {w w' : Host} {e : Failure}

/-- Where the configuration is found, a choice that is no command always is a stray. -/
theorem runIn_of_unusable_command {p : Path} {v : Host}
    (hlocate : (Project.locateConfig r.config).runIn w = (.ok p, v))
    (h : r.choice.command? = .error e) :
    r.run.runIn w = (.error e, v) ∧ e.isForUser = false := by
  have hcommand : (Compiler.resolveCommand r.choice (some p.parent)).runIn v = (.error e, v) := by
    unfold Compiler.resolveCommand
    rw [h]
    rfl
  have hload : (Project.load r.config r.choice).runIn w = (.error e, v) := by
    unfold Project.load Project.showConfig
    rw [Action.runIn_bind_of_ok hlocate]
    exact Action.runIn_bind_of_error (Action.runIn_bind_of_error hcommand)
  constructor
  · unfold run analyse
    exact Action.runIn_bind_of_error (Action.runIn_bind_of_error hload)
  · unfold CompilerChoice.command? at h
    split at h
    · cases h
    · split at h <;> cases h
      rfl
    · cases h
    · cases h
      rfl

theorem exists_of_mapM_eq_error {α β : Type} {f : α → Except Failure β} {items : List α}
    (h : items.mapM f = .error e) : ∃ item ∈ items, f item = .error e := by
  induction items with
  | nil => cases h
  | cons item rest ih =>
    rw [List.mapM_cons] at h
    cases hfirst : f item with
    | error other =>
      rw [hfirst] at h
      cases h
      exact ⟨item, List.mem_cons_self, hfirst⟩
    | ok first =>
      rw [hfirst] at h
      cases hrest : rest.mapM f with
      | error other =>
        rw [hrest] at h
        cases h
        obtain ⟨last, hmem, hlast⟩ := ih hrest
        exact ⟨last, List.mem_cons_of_mem item hmem, hlast⟩
      | ok others =>
        rw [hrest] at h
        cases h

theorem not_isForUser_of_rootsOf {directory : Path} {value : JsonValue}
    (h : Project.rootsOf directory value = .error e) : e.isForUser = false := by
  unfold Project.rootsOf at h
  split at h
  · split at h
    · cases h
    · next files _ =>
      cases hitems : Project.items files with
      | ok items =>
        rw [hitems] at h
        obtain ⟨item, -, hitem⟩ := exists_of_mapM_eq_error h
        cases item <;> cases hitem <;> rfl
      | error other =>
        rw [hitems] at h
        cases h
        cases files <;> cases hitems <;> rfl
  · cases h
    rfl

/-- Where the compiler shows a value that lists no files, or lists them in another form, this always
is a stray. -/
theorem runIn_of_wrong_kind {p : Path} {command : List String} {output errors : Text}
    {value : JsonValue} (hlocate : (Project.locateConfig r.config).runIn w = (.ok p, w))
    (hcommand : (Compiler.resolveCommand r.choice (some p.parent)).runIn w = (.ok command, w))
    (hreply : ∀ l, w.replyTo 0 l = .finished output errors 0)
    (hread : JsonValue.read w.levels output = .ok value)
    (hroots : Project.rootsOf p.parent value = .error e) :
    (r.run.runIn w).1 = .error e ∧ e.isForUser = false := by
  obtain ⟨u, hlaunch, hlevels⟩ : ∃ u, (Compiler.run command ["-p", p.render, "--showConfig"]
      p.parent).runIn w = (.ok ⟨output, errors, 0⟩, u) ∧ u.levels = w.levels := by
    unfold Compiler.run
    rw [Action.runIn_bind_of_ok (Compiler.runIn_launch _ _ w), hreply]
    exact ⟨_, rfl, rfl⟩
  have hshow : (Project.showConfig r.choice p).runIn w = (.ok value, u) := by
    unfold Project.showConfig
    rw [Action.runIn_bind_of_ok hcommand, Action.runIn_bind_of_ok hlaunch,
      if_neg (not_not_intro rfl), Action.runIn_bind_of_ok (Action.runIn_readJson _ u), hlevels,
      hread]
    rfl
  have hload : (Project.load r.config r.choice).runIn w = (.error e, u) := by
    unfold Project.load
    rw [Action.runIn_bind_of_ok hlocate, Action.runIn_bind_of_ok hshow, hroots]
    rfl
  unfold run analyse
  rw [Action.runIn_bind_of_error (Action.runIn_bind_of_error hload)]
  exact ⟨rfl, not_isForUser_of_rootsOf hroots⟩

/-- A dry run with the compiler gives a result, or fails as the user is told, or as a stray: for a
reason in the request, in what a launch of this run wrote, in a name that this run asked the disk
about, or on the disk. Where nothing about the request and the host is out of the ordinary, the user
is told. Of what can go wrong this leaves out what the disk here never does: it has no links, it has
room, and it permits everything. -/
theorem dry_run_fails_for_a_reason (hw : w.WellFormed) (hconfig : r.config.IsRead)
    (hanalysis : r.analysis = .compiler) (hdry : r.dry = true)
    (h : r.run.runIn w = (.error e, w')) :
    (e.isForUser = true ∨ r.Stray w w' e) ∧ (r.Ordinary w → e.isForUser = true) := by
  have hrun : Action.Ends (fun _ _ => True) (r.Fails w) r.run w := by
    refine .bind (ends_analyse hw hconfig hanalysis) fun a v _ _ => ?_
    rw [commit_of_dry hdry]
    exact trivial
  have hfails := hrun.error h
  exact ⟨hfails, fun hordinary => hfails.resolve_right (hordinary.not_stray hw hconfig)⟩

def dryRequest : FixRequest :=
  { accessRequest with dry := true }

/-- A dry request whose command line is one quotation mark. -/
def quotedRequest : FixRequest :=
  { dryRequest with choice := .line "'" }

/-- A host whose compiler only says no. -/
def grumblingHost : Host :=
  { accessHost with replies := [fun _ => .finished "no".toList [] 1] }

theorem ordinary_dryRequest : dryRequest.Ordinary grumblingHost where
  command := ⟨some ["tsc"], rfl⟩
  config := by
    intro s hs
    obtain rfl := List.mem_singleton.mp hs
    decide
  directory _ h := nomatch h
  place := ⟨by decide +kernel, by decide +kernel⟩
  places entry hentry := by
    refine ⟨?_, ?_⟩ <;> revert entry <;> decide +kernel
  few := by decide
  settings above h := by
    have hplaces : ∀ at_ ∈ grumblingHost.disk.map Prod.fst, at_.getLast? = some "tsconfig.json" →
        grumblingHost.disk.get? at_ ≠ some .directory := by
      decide +kernel
    exact hplaces _ (Disk.mem_places_of_has (Disk.has_of_get? h) (by simp)) List.getLast?_concat h
  launches next hnext l e h := by
    cases List.mem_singleton.mp hnext
    cases h
  shown next hnext l output errors h := by
    cases hnext
    cases h
  written next hnext := nomatch hnext

theorem exists_run_dryRequest : ∃ e w', dryRequest.run.runIn grumblingHost = (.error e, w') := by
  have hfails : (dryRequest.run.runIn grumblingHost).1.map FixResult.changed =
      .error (.projectConfig "no") := by
    decide +kernel
  rcases hrun : dryRequest.run.runIn grumblingHost with ⟨result, w'⟩
  rw [hrun] at hfails
  cases result with
  | ok x => cases hfails
  | error e => exact ⟨e, w', rfl⟩

theorem exists_run_quotedRequest :
    ∃ w', quotedRequest.run.runIn accessHost = (.error (.words .unclosedQuotation), w') := by
  have hcommand : quotedRequest.choice.command? = .error (.words .unclosedQuotation) := by
    decide +kernel
  have hfound : ((Project.locateConfig quotedRequest.config).runIn accessHost).1 =
      .ok (Path.ofString "/p/tsconfig.json") := by
    decide +kernel
  rcases hlocate : (Project.locateConfig quotedRequest.config).runIn accessHost with ⟨result, v⟩
  rw [hlocate] at hfound
  dsimp only at hfound
  rw [hfound] at hlocate
  exact ⟨v, (runIn_of_unusable_command hlocate hcommand).1⟩

/-- The one command line cannot be split, and the user is not told so. The other request is
ordinary, and the user is told what the compiler says. -/
theorem dry_runs_that_fail :
    accessHost.WellFormed ∧ grumblingHost.WellFormed ∧ dryRequest.config.IsRead ∧
    (∃ w', quotedRequest.run.runIn accessHost = (.error (.words .unclosedQuotation), w') ∧
      quotedRequest.Stray accessHost w' (.words .unclosedQuotation)) ∧
    ∃ e w', dryRequest.run.runIn grumblingHost = (.error e, w') ∧
      dryRequest.Ordinary grumblingHost ∧ e.isForUser = true := by
  have hw : accessHost.WellFormed := ⟨by decide, fun _ h => nomatch h⟩
  have hgrumbling : grumblingHost.WellFormed := ⟨by decide, fun _ h => nomatch h⟩
  have hconfig : dryRequest.config.IsRead := Path.isRead_ofString "/p"
  obtain ⟨w', hrun⟩ := exists_run_quotedRequest
  obtain ⟨hstray, -⟩ := dry_run_fails_for_a_reason hw (Path.isRead_ofString "/p") rfl rfl hrun
  obtain ⟨e, v, hrunDry⟩ := exists_run_dryRequest
  obtain ⟨-, huser⟩ := dry_run_fails_for_a_reason hgrumbling hconfig rfl rfl hrunDry
  exact ⟨hw, hgrumbling, hconfig, ⟨w', hrun, hstray.resolve_left (by decide)⟩, e, v, hrunDry,
    ordinary_dryRequest, huser ordinary_dryRequest⟩

end FixRequest

end ChainGuard
