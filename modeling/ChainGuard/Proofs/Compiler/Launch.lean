import ChainGuard.Proofs.Compiler.Overlay
import ChainGuard.Proofs.Name

/-!
# What the compiler finds

An overlay is filled file by file, and then the compiler is launched. Files with different places in
the project have different places in the overlay, and no directory is made where a file is. So each
text stays until the launch. Only the settings of the compiler, which are written last, can take the
place of a text.

1. `Host.KeepsFile`: a file stays while others are written.
2. `Action.Launches`: one program is launched. `Host.SameLaunches`: none is.
3. `Compiler.get?_of_writeTexts`: the texts in an overlay.
4. `Overlay.Presents`, `Compiler.launches_collectIn`: the overlay when the compiler is launched.
5. Main statement: `Compiler.collect_presents_working_texts`.
-/

namespace ChainGuard

open ChainGuard.Action (IsFrame Leads MakesAt WritesAt)

/-! ## 1. Files that stay -/

namespace Host

/-- A file at the place is there afterwards, with the same content. -/
def KeepsFile (place : Location) (w w' : Host) : Prop :=
  ∀ content, w.disk.get? place = some (.file content) → w'.disk.get? place = some (.file content)

variable {place at_ : Location}

theorem isFrame_keepsFile (place : Location) : IsFrame (KeepsFile place) where
  quiet h := by
    intro content hfile
    rw [h.disk, hfile]
  trans hab hbc := fun content hfile => hbc content (hab content hfile)

theorem Spares.keepsFile {w w' : Host} (h : w.Spares (· = place) w') : KeepsFile place w w' := by
  intro content hfile
  rw [h.get? rfl, hfile]

theorem makesAt_keepsFile (place at_ : Location) : MakesAt (KeepsFile place) at_ := by
  intro w w' hhas hperforms content hfile
  have hne : ¬at_ = place := by
    rintro rfl
    rw [Disk.has_of_get? hfile] at hhas
    cases hhas
  have hspares : MakesAt (Spares (· = place)) at_ := makesAt_spares hne
  exact (hspares w w' hhas hperforms).keepsFile content hfile

theorem writesAt_keepsFile (h : at_ ≠ place) : WritesAt (KeepsFile place) at_ :=
  fun _ _ _ _ hperforms => (hperforms.spares_write h).keepsFile

end Host

/-! ## 2. Launches -/

/-- Nothing was launched in between. -/
def Host.SameLaunches (w w' : Host) : Prop :=
  w'.launches = w.launches

namespace Action

variable {α β : Type}

/-- One program is launched, as described, or the action fails before. -/
def Launches (P : Launch → Prop) (x : Action α) (w : Host) : Prop :=
  (∃ l, (x.runIn w).2.launches = w.launches ++ [l] ∧ P l) ∨
    w.SameLaunches (x.runIn w).2 ∧ ∃ e, (x.runIn w).1 = .error e

theorem sameLaunches_of_host {x : Action α} (h : ∀ w, (x.runIn w).2 = w) :
    Leads Host.SameLaunches x :=
  fun w => congrArg Host.launches (h w)

theorem sameLaunches_bind {x : Action α} {f : α → Action β} (hx : Leads Host.SameLaunches x)
    (hf : ∀ a, Leads Host.SameLaunches (f a)) : Leads Host.SameLaunches (x >>= f) := by
  intro w
  have hw := hx w
  rw [runIn_bind]
  split
  · next a v hrun =>
    rw [hrun] at hw
    exact (hf a v).trans hw
  · next e v hrun =>
    rw [hrun] at hw
    exact hw

theorem sameLaunches_perform (m : Mutation) : Leads Host.SameLaunches (perform m) :=
  fun _ => rfl

theorem sameLaunches_ask (name : String) (question : Disk → Location → Except DiskFault α) :
    Leads Host.SameLaunches (ask name question) :=
  sameLaunches_of_host fun w => by rw [runIn_ask]

theorem sameLaunches_writeText (name : String) (t : Text) :
    Leads Host.SameLaunches (writeText name t) :=
  sameLaunches_bind (sameLaunches_ask name _) fun _ =>
    sameLaunches_bind (sameLaunches_perform _) fun _ => sameLaunches_perform _

theorem sameLaunches_makeDirectory (p : Path) : Leads Host.SameLaunches (makeDirectory p) :=
  sameLaunches_bind (sameLaunches_ask _ _) sameLaunches_perform

/-- A failure is forgiven where there is a directory, or it is passed on. -/
theorem sameLaunches_unlessDirectory (p : Path) (e : Failure) :
    Leads Host.SameLaunches (do if ← isDirectory p then pure () else throw e) := by
  refine sameLaunches_bind (sameLaunches_bind (sameLaunches_of_host (runIn_lookup p)) ?_) ?_
  · exact fun _ _ => rfl
  · exact fun _ => .ite (fun _ => rfl) fun _ => rfl

theorem sameLaunches_ensureDirectory (p : Path) : Leads Host.SameLaunches (ensureDirectory p) := by
  refine sameLaunches_bind (.attempt (sameLaunches_makeDirectory p)) fun result => ?_
  cases result with
  | ok => exact fun _ => rfl
  | error e => exact sameLaunches_unlessDirectory p e

theorem sameLaunches_ensureDirectories (n : Nat) (p : Path) :
    Leads Host.SameLaunches (ensureDirectories n p) := by
  induction n generalizing p with
  | zero => exact sameLaunches_ensureDirectory p
  | succ n ih =>
    refine sameLaunches_bind (.attempt (sameLaunches_makeDirectory p)) fun result => ?_
    cases result with
    | ok => exact fun _ => rfl
    | error e =>
      refine .ite (sameLaunches_bind (ih p.parent) fun _ => ?_) (sameLaunches_unlessDirectory p e)
      exact sameLaunches_ensureDirectory p

theorem sameLaunches_resolve (p : Path) : Leads Host.SameLaunches (resolve p) := by
  unfold resolve
  split
  · exact fun _ => rfl
  · exact fun _ => rfl

namespace Launches

variable {P Q : Launch → Prop} {x : Action α} {f : α → Action β} {w : Host}

theorem mono (h : Launches P x w) (hPQ : ∀ l, P l → Q l) : Launches Q x w :=
  h.imp_left fun ⟨l, hlaunches, hl⟩ => ⟨l, hlaunches, hPQ l hl⟩

/-- A launch after a step that launches nothing. -/
theorem bind_after (hx : Leads Host.SameLaunches x)
    (hf : ∀ a v, x.runIn w = (.ok a, v) → Launches P (f a) v) : Launches P (x >>= f) w := by
  have hw := hx w
  rw [Launches, runIn_bind]
  rcases hrun : x.runIn w with ⟨result, v⟩
  rw [hrun] at hw
  cases result with
  | error e => exact .inr ⟨hw, e, rfl⟩
  | ok a =>
    have hlaunches := hf a v hrun
    rw [Launches, Host.SameLaunches, show v.launches = w.launches from hw] at hlaunches
    exact hlaunches

/-- A launch before steps that launch nothing. -/
theorem bind_before (hx : Launches P x w) (hf : ∀ a, Leads Host.SameLaunches (f a)) :
    Launches P (x >>= f) w := by
  rw [Launches, runIn_bind]
  rcases hrun : x.runIn w with ⟨result, v⟩
  rw [Launches, hrun] at hx
  rcases hx with ⟨l, hlaunches, hl⟩ | ⟨hsame, e, he⟩
  · refine .inl ⟨l, ?_, hl⟩
    cases result with
    | error e => exact hlaunches
    | ok a => exact (hf a v).trans hlaunches
  · obtain rfl : result = .error e := he
    exact .inr ⟨hsame, e, rfl⟩

/-- The directory of the action is one that can be written down. What the action launches is
launched, whatever becomes of the directory. -/
theorem withDirectory {above : Path} (habove : above.IsRead) {start : String}
    (hlength : 2 < start.toList.length) (hslash : '/' ∉ start.toList)
    (hcwd : Path.IsRead ⟨.root, w.cwd⟩) {action : Path → Action α}
    (haction : ∀ place, Path.Descends place → ∀ v, Launches P (action ⟨.root, place⟩) v) :
    Launches P (withDirectory above start action) w := by
  have hname := descends_freeName w.disk (Path.resolve ⟨.root, w.cwd⟩ above).parts hlength hslash
  rw [Launches, Action.withDirectory, runIn_bind_of_ok (runIn_get w)]
  dsimp only
  generalize freeName w.disk _ start = name at hname ⊢
  have hread : (above.child name).IsRead := by
    intro part hpart
    rcases List.mem_append.mp hpart with hpart | hpart
    · exact habove part hpart
    · exact (hname part hpart).1
  refine bind_after (sameLaunches_makeDirectory _) fun _ v _ => ?_
  have hrun := haction _ (Path.descends_absolute hcwd hread) v
  rw [Launches, runIn_bind_of_ok (runIn_attempt _ v), runIn_bind_of_ok (runIn_perform _ _),
    runIn_lift]
  exact hrun

end Launches

end Action

namespace Compiler

open ChainGuard.Action (Launches sameLaunches_bind sameLaunches_of_host)

theorem sameLaunches_writeTexts (overlay : Overlay) (files : Files) :
    Leads Host.SameLaunches (writeTexts overlay files) := by
  induction files with
  | nil => exact fun _ => rfl
  | cons entry rest ih =>
    refine sameLaunches_bind (Action.sameLaunches_ensureDirectories _ _) fun _ => ?_
    exact sameLaunches_bind (Action.sameLaunches_writeText _ _) fun _ => ih

theorem sameLaunches_firstExisting (paths : List Path) :
    Leads Host.SameLaunches (firstExisting paths) := by
  induction paths with
  | nil => exact fun _ => rfl
  | cons p rest ih =>
    refine sameLaunches_bind (fun w => ?_) fun _ => .ite (fun _ => rfl) ih
    exact congrArg Host.launches (Action.host_of_exists? rfl)

theorem sameLaunches_locate (start : Option Path) : Leads Host.SameLaunches (locate start) := by
  refine sameLaunches_bind (fun _ => rfl) fun cwd => ?_
  refine sameLaunches_bind (Action.sameLaunches_resolve _) fun here => ?_
  refine sameLaunches_bind (sameLaunches_firstExisting _) fun found => ?_
  cases found with
  | some p => exact fun _ => rfl
  | none =>
    refine sameLaunches_bind (fun _ => rfl) fun w => ?_
    cases w.onPath with
    | none => exact fun _ => rfl
    | some path => exact .ite (fun _ => rfl) fun _ => rfl

theorem launches_run {P : Launch → Prop} {command arguments : List String} {directory : Path}
    {w : Host} (h : P ⟨command ++ arguments, directory.render, w.disk⟩) :
    Launches P (run command arguments directory) w := by
  refine Launches.bind_before (.inl ⟨_, rfl, h⟩) fun reply => ?_
  cases reply <;> exact fun _ => rfl

theorem sameLaunches_outcome (outcome : List Diagnostic × Option Failure) :
    Leads Host.SameLaunches (match outcome with
      | (diagnostics, none) => pure diagnostics
      | (_, some failure) => throw failure) := by
  obtain ⟨diagnostics, failure⟩ := outcome
  cases failure <;> exact fun _ => rfl

/-! ## 3. The texts in an overlay -/

section

variable {overlay : Overlay} (hdirectory : Path.Descends overlay.directory.parts)
include hdirectory

/-- A file outside the places of the texts stays. -/
theorem keepsFile_writeTexts {place : Location} {files : Files}
    (hmirrors : ∀ name ∈ files.keys, ∃ rest, overlay.Mirrors name rest)
    (hne : ∀ name ∈ files.keys, (overlay.target name).parts ≠ place) :
    Leads (Host.KeepsFile place) (writeTexts overlay files) := by
  have hR := Host.isFrame_keepsFile place
  induction files with
  | nil => exact .pure hR _
  | cons entry rest ih =>
    obtain ⟨name, text⟩ := entry
    obtain ⟨below, hbelow⟩ := hmirrors name List.mem_cons_self
    have hother := hne name List.mem_cons_self
    have hparts := hdirectory.append hbelow.descends
    unfold writeTexts
    dsimp only
    rw [hbelow.target] at hother ⊢
    refine .bind hR ?_ fun _ => .bind hR ?_ fun _ => ?_
    · exact Action.leads_ensureDirectories hR (hparts.of_isPrefix (List.dropLast_prefix _))
        (fun at_ _ => Host.makesAt_keepsFile place at_) _
    · exact Action.leads_writeText hR hparts (Host.writesAt_keepsFile hother) _
    · exact ih (fun other hmem => hmirrors other (List.mem_cons_of_mem _ hmem))
        fun other hmem => hne other (List.mem_cons_of_mem _ hmem)

theorem get?_of_writeTexts {files : Files}
    (hmirrors : ∀ name ∈ files.keys, ∃ rest, overlay.Mirrors name rest)
    (hapart : files.keys.Pairwise fun a b => (overlay.target a).parts ≠ (overlay.target b).parts)
    {w w' : Host}
    (h : (writeTexts overlay files).runIn w = (.ok (), w')) :
    ∀ file ∈ files, w'.disk.get? (overlay.target file.1).parts =
      some (.file (Utf8.encode file.2)) := by
  induction files generalizing w with
  | nil => exact fun file hfile => nomatch hfile
  | cons entry rest ih =>
    obtain ⟨name, text⟩ := entry
    obtain ⟨hnew, hrest⟩ := List.pairwise_cons.mp hapart
    have hmirrorsRest : ∀ other ∈ Dict.keys rest, ∃ below, overlay.Mirrors other below :=
      fun other hother => hmirrors other (List.mem_cons_of_mem name hother)
    obtain ⟨_, v, -, h⟩ := Action.runIn_bind_eq_ok h
    obtain ⟨_, u, hwrite, h⟩ := Action.runIn_bind_eq_ok h
    intro file hfile
    rcases List.mem_cons.mp hfile with rfl | hfile
    · obtain ⟨below, hbelow⟩ := hmirrors name List.mem_cons_self
      have hkeeps := keepsFile_writeTexts hdirectory hmirrorsRest fun other hother =>
        (hnew other hother).symm
      refine hkeeps.of_run h _ ?_
      rw [hbelow.target] at hwrite ⊢
      obtain ⟨-, -, hperforms⟩ :=
        Action.writeText_render_eq_ok (hdirectory.append hbelow.descends) hwrite
      rw [hperforms.disk]
      exact Disk.get?_set_self _ (List.append_ne_nil_of_right_ne_nil _ hbelow.ne_nil)
    · exact ih hmirrorsRest hrest h file hfile

end

end Compiler

/-! ## 4. The launch -/

namespace Overlay

def settingsPath (overlay : Overlay) : Path :=
  overlay.directory.child "tsconfig.json"

/-- What the compiler finds when it is launched over the working texts: the settings, and every text
that is not the file `tsconfig.json` of the base. -/
structure Presents (overlay : Overlay) (files : Files) (roots : List String)
    (config : CompilerConfig) (l : Launch) : Prop where
  directory : l.directory = overlay.directory.render
  command : ∃ words, l.command =
    words ++ ["-p", overlay.settingsPath.render, "--pretty", "false"]
  settings : ∃ settings, overlay.config (overlay.roots files roots) config = .ok settings ∧
    l.disk.get? overlay.settingsPath.parts = some (.file (Utf8.encode settings.render))
  texts : ∀ name text, files.get? name = some text →
    placeOf overlay.cwd name ≠ overlay.base.parts ++ ["tsconfig.json"] →
    l.disk.get? (overlay.target name).parts = some (.file (Utf8.encode text))

section

variable {overlay : Overlay} {name : String} {rest : List String}

/-- Texts with different places in the project have different places in the overlay. -/
theorem pairwise_target_ne {files : Files}
    (hmirrors : ∀ name ∈ files.keys, ∃ rest, overlay.Mirrors name rest)
    (hdistinct : (files.keys.map (placeOf overlay.cwd)).Nodup) :
    files.keys.Pairwise fun a b => (overlay.target a).parts ≠ (overlay.target b).parts := by
  refine (List.pairwise_map.mp hdistinct).imp_of_mem fun {a b} ha hb hne heq => hne ?_
  obtain ⟨_, hmirrorsA⟩ := hmirrors a ha
  obtain ⟨_, hmirrorsB⟩ := hmirrors b hb
  refine hmirrorsA.placeOf_eq hmirrorsB ?_
  rw [hmirrorsA.target, hmirrorsB.target] at heq ⊢
  exact congrArg (Path.mk .root) heq

/-- A text has the place of the settings if it is the file `tsconfig.json` of the base. -/
theorem Mirrors.target_eq_settingsPath_iff (h : overlay.Mirrors name rest) :
    (overlay.target name).parts = overlay.settingsPath.parts ↔
      placeOf overlay.cwd name = overlay.base.parts ++ ["tsconfig.json"] := by
  have hplace : placeOf overlay.cwd name = overlay.base.parts ++ rest := by
    rw [← h.base, h.relative]
    rfl
  have hsettings : overlay.settingsPath.parts = overlay.directory.parts ++ ["tsconfig.json"] := rfl
  rw [hplace, h.target, hsettings, List.append_cancel_left_eq, List.append_cancel_left_eq]

end

end Overlay

namespace Compiler

open ChainGuard.Action (Launches sameLaunches_bind sameLaunches_of_host)

section

variable {cwd base : Path} {place : Location} (hplace : Path.Descends place) {files : Files}
  (hmirrors : ∀ name ∈ files.keys, ∃ rest, Overlay.Mirrors ⟨cwd, ⟨.root, place⟩, base⟩ name rest)
  (hdistinct : (files.keys.map (Overlay.placeOf cwd)).Nodup) {roots : List String}
  {config : CompilerConfig}
include hplace hmirrors hdistinct

/-- When the texts and then the settings are written, they are all there. -/
theorem presents_of_written {settings : JsonValue} {w v u : Host}
    (htexts : (writeTexts ⟨cwd, ⟨.root, place⟩, base⟩ files).runIn w = (.ok (), v))
    (hsettings : Overlay.config ⟨cwd, ⟨.root, place⟩, base⟩
      (Overlay.roots ⟨cwd, ⟨.root, place⟩, base⟩ files roots) config = .ok settings)
    (hwrite : (Action.writeText (Path.render ⟨.root, place ++ ["tsconfig.json"]⟩)
      settings.render).runIn v = (.ok (), u)) (words : List String) :
    Overlay.Presents ⟨cwd, ⟨.root, place⟩, base⟩ files roots config
      ⟨words ++ ["-p", Path.render ⟨.root, place ++ ["tsconfig.json"]⟩, "--pretty", "false"],
        Path.render ⟨.root, place⟩, u.disk⟩ := by
  have hparts : Path.Descends (place ++ ["tsconfig.json"]) :=
    hplace.append (Path.descends_singleton (by decide) (by decide))
  refine ⟨rfl, ⟨words, rfl⟩, ⟨settings, hsettings, ?_⟩, fun name text htext hname => ?_⟩
  · obtain ⟨-, -, hperforms⟩ := Action.writeText_render_eq_ok hparts hwrite
    show u.disk.get? (place ++ ["tsconfig.json"]) = _
    rw [hperforms.disk]
    exact Disk.get?_set_self _ (List.append_ne_nil_of_right_ne_nil _ (List.cons_ne_nil _ _))
  · have hthere := get?_of_writeTexts hplace hmirrors
      (Overlay.pairwise_target_ne hmirrors hdistinct) htexts (name, text) (Dict.mem_of_get? htext)
    obtain ⟨rest, hrest⟩ := hmirrors name (Dict.mem_keys_of_get? htext)
    have hother := mt hrest.target_eq_settingsPath_iff.mp hname
    have hkeeps := Action.leads_writeText (Host.isFrame_keepsFile _) hparts
      (Host.writesAt_keepsFile (Ne.symm hother)) settings.render
    exact hkeeps.of_run hwrite _ hthere

/-- The compiler is launched once the texts and the settings are there. -/
theorem launches_collectIn (c : Compiler) (w : Host) :
    Launches (Overlay.Presents ⟨cwd, ⟨.root, place⟩, base⟩ files roots config)
      (c.collectIn ⟨cwd, ⟨.root, place⟩, base⟩ files roots config) w := by
  unfold collectIn
  refine .bind_after (sameLaunches_writeTexts _ _) fun _ v htexts => ?_
  refine .bind_after (sameLaunches_of_host fun w => by rw [Action.runIn_lift])
    fun settings v' h => ?_
  rw [Action.runIn_lift] at h
  obtain ⟨hsettings, rfl⟩ := Prod.mk.inj h
  refine .bind_after (Action.sameLaunches_writeText _ _) fun _ u hwrite => ?_
  have hpresents := presents_of_written hplace hmirrors hdistinct htexts hsettings hwrite
  dsimp only
  cases c.command with
  | some command =>
    refine .bind_after (fun _ => rfl) fun words t hwords => ?_
    cases hwords
    refine .bind_before (launches_run (hpresents _)) fun finished => ?_
    exact .ite (fun _ => rfl) (sameLaunches_outcome _)
  | none =>
    refine .bind_after (sameLaunches_locate _) fun words t hlocate => ?_
    have hsame := (leads_locate _).of_run hlocate
    refine .bind_before (launches_run ?_) fun finished => ?_
    · rw [hsame.disk]
      exact hpresents words
    · exact .ite (fun _ => rfl) (sameLaunches_outcome _)

end

/-! ## 5. Asking for diagnostics -/

/-- When the compiler is launched, the overlay has the settings and every working text but one that
has the place of the settings, if no text is the root and all have different places. -/
theorem collect_presents_working_texts {c : Compiler} {files : Files} {w : Host}
    (hcwd : Path.IsRead ⟨.root, w.cwd⟩) (hdirectory : ∀ directory ∈ c.directory, directory.IsRead)
    (hroot : ∀ name ∈ files.keys, Overlay.placeOf ⟨.root, w.cwd⟩ name ≠ [])
    (hdistinct : (files.keys.map (Overlay.placeOf ⟨.root, w.cwd⟩)).Nodup) (roots : List String)
    (config : CompilerConfig) :
    Launches (fun l => ∃ place, Path.Descends place ∧
        (Overlay.covering ⟨.root, w.cwd⟩ ⟨.root, place⟩ (roots ++ files.keys)).Presents
          files roots config l)
      (c.collect files roots config) w := by
  have habove : (c.directory.getD (Path.ofString w.temporary)).IsRead := by
    cases hgiven : c.directory with
    | none => exact Path.isRead_ofString w.temporary
    | some directory => exact hdirectory directory hgiven
  rw [Overlay.collect_eq, Launches, Action.runIn_bind_of_ok (Action.runIn_workingDirectory w),
    Action.runIn_bind_of_ok (Action.runIn_get w)]
  refine Launches.bind_before ?_ fun diagnostics => ?_
  · refine Launches.withDirectory habove (by decide) (by decide) hcwd fun place hplace v => ?_
    have hmirrors : ∀ name ∈ files.keys, ∃ rest, Overlay.Mirrors
        (Overlay.covering ⟨.root, w.cwd⟩ ⟨.root, place⟩ (roots ++ files.keys)) name rest :=
      fun name hname => Overlay.mirrors_covering hcwd hplace (List.mem_append_right roots hname)
        (hroot name hname)
    exact (launches_collectIn hplace hmirrors hdistinct c v).mono fun l hl => ⟨place, hplace, hl⟩
  · exact sameLaunches_bind (fun _ => rfl) fun _ _ => rfl

/-- Working texts in the directory `/w`, one of them with the name of the settings. -/
def overlaidFiles : Files :=
  [("a.ts", "a".toList), ("b/c.ts", "c".toList), ("tsconfig.json", "[]".toList)]

def overlaidHost : Host where
  disk := [(["w"], .directory)]
  cwd := ["w"]
  temporary := "/tmp"
  clock := ⟨2024, 1, 1, 0, 0, 0⟩
  parser _ _ _ := .node ⟨.other "program", 0, 0, true, none⟩ []

def overlaidCompiler : Compiler where
  command := some ["tsc"]
  directory := some (Path.ofString "/w")

/-- The run for the diagnostics of these texts. -/
def overlaidRun : Except Failure (List Diagnostic) × Host :=
  (overlaidCompiler.collect overlaidFiles ["a.ts"] {}).runIn overlaidHost

/-- The compiler is launched once. It finds the text `c`. The text with the name of the settings is
nowhere on the disk. -/
theorem overlaid_texts_are_presented :
    ∃ l place, overlaidRun.2.launches = [l] ∧ l.directory = Path.render ⟨.root, place⟩ ∧
      l.disk.get? (place ++ ["b", "c.ts"]) = some (.file (Utf8.encode "c".toList)) ∧
      ∀ entry ∈ l.disk, entry.2 ≠ .file (Utf8.encode "[]".toList) := by
  have hread : Path.IsRead ⟨.root, ["w"]⟩ := Path.isRead_ofString "/w"
  have hdirectory : ∀ directory ∈ overlaidCompiler.directory, directory.IsRead := by
    intro directory hmem
    cases hmem
    exact hread
  have hlaunches : Launches _ (overlaidCompiler.collect overlaidFiles ["a.ts"] {}) overlaidHost :=
    collect_presents_working_texts hread hdirectory (by decide) (by decide) ["a.ts"] {}
  obtain ⟨hends, hlost⟩ : overlaidRun.1.isOk = true ∧ ∀ l ∈ overlaidRun.2.launches,
      ∀ entry ∈ l.disk, entry.2 ≠ .file (Utf8.encode "[]".toList) := by
    decide +kernel
  rcases hlaunches with ⟨l, hrun, place, -, hpresents⟩ | ⟨-, e, hfails⟩
  · have hone : overlaidRun.2.launches = [l] := by
      rw [overlaidRun, hrun]
      rfl
    have hrelative : Path.relativeTo ⟨.root, ["w"]⟩ (Path.ofString "b/c.ts")
        (Path.commonBase ⟨.root, ["w"]⟩ ((["a.ts"] ++ overlaidFiles.keys).map Path.ofString)) =
          ⟨.relative, ["b", "c.ts"]⟩ := by
      decide
    have hname : Overlay.placeOf ⟨.root, ["w"]⟩ "b/c.ts" ≠ (Path.commonBase ⟨.root, ["w"]⟩
        ((["a.ts"] ++ overlaidFiles.keys).map Path.ofString)).parts ++ ["tsconfig.json"] := by
      decide
    have hplaced := congrArg (fun p => l.disk.get? (Path.join ⟨.root, place⟩ p).parts) hrelative
    exact ⟨l, place, hone, hpresents.directory,
      hplaced.symm.trans (hpresents.texts "b/c.ts" "c".toList rfl hname),
      hlost l (hone ▸ List.mem_cons_self)⟩
  · rw [overlaidRun, hfails] at hends
    cases hends

end Compiler

end ChainGuard
