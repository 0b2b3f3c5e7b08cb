import ChainGuard.Proofs.Compiler.Line
import ChainGuard.Proofs.Compiler.Overlay
import ChainGuard.Proofs.Host.Failure
import ChainGuard.Proofs.Text.Lines

/-!
# How the compiler fails

Failures of the compiler are told to the user. A few others come up all the same, and for each of
them there is a reason in what a launch wrote, in a name that the disk was asked about, or on the
disk.

1. `Compiler.Asks`, `Compiler.Stray`: the failures that the user is not told, with their reasons.
2. `CompilerOutput.read_eq_error`: the failures of reading what the compiler writes.
3. `Compiler.ends_locate`, `Compiler.ends_run`: finding the compiler and launching it.
4. `Overlay.Filling`, `Compiler.ends_writeTexts`: the files of an overlay are not in each other's
   way, since they are not in the project.
5. `Compiler.ends_collect`: asking for diagnostics.
-/

namespace ChainGuard

/-! ## 1. Strays -/

namespace CompilerOutput

open Text (IsNumeral)

/-- The text has a numeral with more digits than are read. -/
inductive HasLongNumeral (t : Text) : Nat → Prop
  | intro {digits : Text} : digits <:+: t → digits.IsNumeral →
      IntegerError.maxDigits < digits.length → HasLongNumeral t digits.length

theorem HasLongNumeral.of_isInfix {line t : Text} {n : Nat} (h : HasLongNumeral line n)
    (hline : line <:+: t) : HasLongNumeral t n := by
  obtain ⟨hdigits, hnumeral, hlong⟩ := h
  exact ⟨hdigits.trans hline, hnumeral, hlong⟩

/-- The failures of reading a text in which a numeral is too long or which has a null character. -/
inductive Unreadable (t : Text) : Failure → Prop
  | number {n : Nat} : HasLongNumeral t n → Unreadable t (.integer (.tooLong n))
  | null : '\x00' ∈ t → Unreadable t .nullInName

end CompilerOutput

/-- The place that a name denotes. -/
def Host.placeOf (w : Host) (name : String) : Location :=
  Overlay.placeOf ⟨.root, w.cwd⟩ name

namespace Compiler

/-- The overlay for files with the given names, in a new directory. -/
def overlayIn (w : Host) (above : Path) (roots names : List String) : Overlay :=
  .covering ⟨.root, w.cwd⟩ (above.child (Action.freeName w.disk above.parts overlayStart))
    (roots ++ names)

/-- The names that asking for diagnostics asks the disk about. -/
inductive Asks (c : Compiler) (overlay : Overlay) (names : List String) : String → Prop
  | directory : Asks c overlay names overlay.directory.render
  | settings : Asks c overlay names (overlay.directory.child "tsconfig.json").render
  /-- The place of a file in the overlay, or one above it. -/
  | way {name : String} {at_ : Location} : name ∈ names → at_ <+: (overlay.target name).parts →
      Asks c overlay names (Path.render ⟨.root, at_⟩)
  /-- Where a compiler may be installed. -/
  | installed {up : Path} : c.command = none → up ∈ overlay.directory.parent.upwards →
      Asks c overlay names (installedIn up).render

/-- The failures of asking for diagnostics that the user is not told, and where each comes from. The
first host is one before, and the second one that at the failure. -/
inductive Stray (c : Compiler) (overlay : Overlay) (names : List String) (w v : Host) :
    Failure → Prop
  /-- A launch that was made failed in another way than by a refusal of the system. -/
  | launch {i : Nat} {e : Failure} : w.Answered v i (.failed e) → Stray c overlay names w v e
  /-- What a launch wrote cannot be read. -/
  | output {i : Nat} {output errors : Text} {status : Int} {e : Failure} :
      w.Answered v i (.finished output errors status) →
      CompilerOutput.Unreadable (output ++ errors) e → Stray c overlay names w v e
  /-- A name that the disk was asked about is too long for it. -/
  | long {name : String} : c.Asks overlay names name → Disk.TooLong name →
      Stray c overlay names w v (.disk { fault := .nameTooLong, name })
  /-- A file lies below a directory that has the place of the configuration. -/
  | settings {name : String} : name ∈ names →
      overlay.base.parts ++ ["tsconfig.json"] <+: w.placeOf name →
      w.disk.get? (overlay.base.parts ++ ["tsconfig.json"]) = some .directory →
      Stray c overlay names w v
        (.disk { fault := .isADirectory, name := (overlay.directory.child "tsconfig.json").render })

theorem Stray.mono {c : Compiler} {overlay : Overlay} {names : List String} {w u v : Host}
    {e : Failure} (h : c.Stray overlay names w u e) (huv : u.Proceeds v) :
    c.Stray overlay names w v e := by
  cases h with
  | launch hanswered => exact .launch (hanswered.mono huv)
  | output hanswered hunreadable => exact .output (hanswered.mono huv) hunreadable
  | long hasks hlong => exact .long hasks hlong
  | settings hname hbelow hthere => exact .settings hname hbelow hthere

/-- The user is told the failure, or it is a stray. -/
def Fails (c : Compiler) (overlay : Overlay) (names : List String) (w : Host) (e : Failure)
    (v : Host) : Prop :=
  e.isForUser = true ∨ c.Stray overlay names w v e

end Compiler

/-! ## 2. Reading the output -/

namespace CompilerOutput

open Text (IsNumeral)

variable {context : Context}

theorem Unreadable.of_isInfix {line t : Text} {e : Failure} (h : Unreadable line e)
    (hline : line <:+: t) : Unreadable t e := by
  cases h with
  | number hlong => exact .number (hlong.of_isInfix hline)
  | null hnull => exact .null (hline.subset hnull)

theorem number_eq_error {digits t : Text} {e : Failure} (hdigits : digits.IsNumeral)
    (ht : digits <:+: t) (h : number digits = .error e) : Unreadable t e := by
  rw [number, Text.toInteger_of_isNumeral hdigits] at h
  split at h
  · next hlong =>
    cases h
    exact .number ⟨ht, hdigits, hlong⟩
  · cases h

theorem Place.isInfix_text (p : Place) :
    p.line <:+: p.text ∧ p.column <:+: p.text ∧ p.code <:+: p.text := by
  refine ⟨⟨"(".toList, ',' :: (p.column ++ ("): error TS".toList ++ (p.code ++ ": ".toList))) ++
      p.message, ?_⟩,
    ⟨'(' :: (p.line ++ ",".toList), "): error TS".toList ++ (p.code ++ ": ".toList) ++
      p.message, ?_⟩,
    ⟨'(' :: (p.line ++ (',' :: (p.column ++ "): error TS".toList))), ": ".toList ++
      p.message, ?_⟩⟩ <;> simp [Place.text, Place.head]

theorem name?_eq_error {file : Text} {e : Failure} (h : context.name? file = .error e) :
    e = .nullInName ∧ '\x00' ∈ file := by
  unfold Context.name? at h
  split at h
  · next hnull =>
    cases h
    exact ⟨rfl, List.contains_iff_mem.mp hnull⟩
  · cases h

/-- Every name that stands for a file of the compiler has a text. -/
def Context.Knows (context : Context) : Prop :=
  ∀ path name, context.names.get? path = some name → ∃ text, context.files.get? name = some text

theorem ofPlace_eq_error {p : Place} {code : Int} {name : String} {text t : Text} {e : Failure}
    (hp : p.IsWritten) (ht : p.text <:+: t) (htext : context.files.get? name = some text)
    (h : ofPlace context p code name = .error e) : Unreadable t e := by
  obtain ⟨hline, hcolumn, -⟩ := p.isInfix_text
  unfold ofPlace at h
  rw [htext] at h
  dsimp only at h
  cases hfirst : number p.line with
  | error e' =>
    rw [hfirst] at h
    cases h
    exact number_eq_error hp.line (hline.trans ht) hfirst
  | ok line =>
    cases hsecond : number p.column with
    | error e' =>
      rw [hfirst, hsecond] at h
      cases h
      exact number_eq_error hp.column (hcolumn.trans ht) hsecond
    | ok column =>
      rw [hfirst, hsecond] at h
      cases h

theorem exists_text_of_name? (hknows : context.Knows) {file : Text} {name : String}
    (h : context.name? file = .ok (some name)) : ∃ text, context.files.get? name = some text := by
  unfold Context.name? at h
  split at h
  · cases h
  · exact hknows _ name (Except.ok.inj h)

theorem readLine_eq_error_of_located (hknows : context.Knows) {line : Text} {found : Located}
    {e : Failure} (hlocated : located? line = some found)
    (h : readLine context line = .error e) : Unreadable line e := by
  have hfits := (located?_eq_some_iff.mp hlocated).fits
  have hplace : found.place.text <:+: line := by
    rw [hfits.text_eq]
    exact (List.suffix_append _ _).isInfix
  rw [readLine, hlocated] at h
  dsimp only at h
  cases hcode : number found.place.code with
  | error e' =>
    rw [hcode] at h
    cases h
    exact number_eq_error hfits.written.code (found.place.isInfix_text.2.2.trans hplace) hcode
  | ok code =>
    rw [hcode] at h
    dsimp only [bind, Except.bind] at h
    cases hname : context.name? found.file with
    | error e' =>
      rw [hname] at h
      cases h
      obtain ⟨rfl, hnull⟩ := name?_eq_error hname
      refine .null ?_
      rw [hfits.text_eq]
      exact List.mem_append_left _ hnull
    | ok name =>
      rw [hname] at h
      cases name with
      | none =>
        dsimp only at h
        split at h <;> cases h
      | some name =>
        obtain ⟨text, htext⟩ := exists_text_of_name? hknows hname
        dsimp only at h
        cases hplaced : ofPlace context found.place code name with
        | ok d =>
          rw [hplaced] at h
          cases h
        | error e' =>
          rw [hplaced] at h
          cases h
          exact ofPlace_eq_error hfits.written hplace htext hplaced

theorem readLine_eq_error_of_not_located {line : Text} {e : Failure}
    (hlocated : located? line = none) (h : readLine context line = .error e) :
    Unreadable line e := by
  rw [readLine, hlocated] at h
  dsimp only at h
  cases herror : errorPart? line with
  | none =>
    rw [herror] at h
    cases h
  | some found =>
    obtain ⟨code, message⟩ := found
    rw [herror] at h
    dsimp only at h
    obtain ⟨hnumeral, htext⟩ := errorPart?_eq_some_iff.mp herror
    have hstands : code <:+: line :=
      ⟨"error TS".toList, ": ".toList ++ message, by rw [htext, List.append_assoc]⟩
    cases hcode : number code with
    | error e' =>
      rw [hcode] at h
      cases h
      exact number_eq_error hnumeral hstands hcode
    | ok n =>
      rw [hcode] at h
      cases h

/-- A line is read, unless a numeral in it is too long or there is a null character in it. -/
theorem readLine_eq_error (hknows : context.Knows) {line : Text} {e : Failure}
    (h : readLine context line = .error e) : Unreadable line e := by
  cases hlocated : located? line with
  | some found => exact readLine_eq_error_of_located hknows hlocated h
  | none => exact readLine_eq_error_of_not_located hlocated h

/-- Where reading lines fails, the user is told of errors in the configuration, or one of the lines
cannot be read. -/
theorem readLines_eq_error (hknows : context.Knows) {errors lines : List Text} {e : Failure}
    (h : (readLines context errors lines).2 = some e) :
    e.isForUser = true ∨ ∃ line ∈ lines, Unreadable line e := by
  induction lines generalizing errors with
  | nil =>
    unfold readLines configFailure? at h
    split at h
    · cases h
    · cases h
      exact .inl rfl
  | cons line rest ih =>
    have hrest : ∀ {more}, (readLines context more rest).2 = some e →
        e.isForUser = true ∨ ∃ other ∈ line :: rest, Unreadable other e := fun hmore =>
      (ih hmore).imp_right fun ⟨other, hother, hunreadable⟩ =>
        ⟨other, List.mem_cons_of_mem line hother, hunreadable⟩
    rw [readLines] at h
    split at h
    · next hline =>
      cases h
      exact .inr ⟨line, List.mem_cons_self, readLine_eq_error hknows hline⟩
    · exact hrest h
    · exact hrest h
    · exact hrest h

/-- Where reading an output fails, the user is told of errors in the configuration, or a numeral in
the output is too long or there is a null character in it. -/
theorem read_eq_error (hknows : context.Knows) {output : Text} {e : Failure}
    (h : (read context output).2 = some e) : e.isForUser = true ∨ Unreadable output e :=
  (readLines_eq_error hknows h).imp_right fun ⟨_, hline, hunreadable⟩ =>
    hunreadable.of_isInfix (Text.isInfix_of_mem_lines hline)

end CompilerOutput

/-! ## 3. Finding and launching -/

namespace Compiler

open ChainGuard.Action (Ends Refuses)

theorem ends_firstExisting {bad : Failure → Host → Prop} {paths : List Path}
    (hlong : ∀ p ∈ paths, Refuses bad p.render) (w : Host) :
    Ends (fun _ v => v = w) bad (firstExisting paths) w := by
  induction paths with
  | nil => exact .pure rfl
  | cons p rest ih =>
    refine .bind (Action.ends_exists? (hlong p List.mem_cons_self) w) fun there v _ hv => ?_
    cases hv
    exact .ite (fun _ => .pure rfl) fun _ => ih fun q hq => hlong q (List.mem_cons_of_mem p hq)

/-- The compiler is found, or the user is told that there is none. -/
theorem ends_locate {bad : Failure → Host → Prop} {start : Location}
    (hstart : Path.Descends start) (hnull : Path.NoNull start)
    (hlong : ∀ up ∈ Path.upwards ⟨.root, start⟩, Refuses bad (installedIn up).render)
    (hnone : ∀ v, bad notFound v) (w : Host) :
    Ends (fun _ v => v = w) bad (locate (some ⟨.root, start⟩)) w := by
  unfold locate
  rw [Ends, Action.runIn_bind_of_ok (Action.runIn_workingDirectory w)]
  refine Ends.bind (Action.ends_resolve _ fun h => absurd hnull h) ?_
  rintro here v - ⟨hhere, rfl⟩
  replace hhere := hhere.trans (Path.resolve_of_descends _ hstart)
  have hpaths : ∀ p ∈ here.upwards.map installedIn, Refuses bad p.render := by
    intro p hp
    obtain ⟨up, hup, rfl⟩ := List.mem_map.mp hp
    exact hlong up (hhere ▸ hup)
  refine .bind (ends_firstExisting hpaths v) fun found u _ hu => ?_
  cases hu
  cases found with
  | some p => exact .pure rfl
  | none =>
    dsimp only
    rw [Ends, Action.runIn_bind_of_ok (Action.runIn_get v)]
    cases v.onPath with
    | none => exact hnone v
    | some path => exact Ends.ite (fun _ => .throw (hnone v)) fun _ => .pure rfl

theorem runIn_launch (command : List String) (directory : Path) (w : Host) :
    (Action.launch command directory).runIn w =
      (.ok (w.replyTo 0 ⟨command, directory.render, w.disk⟩),
        { w with
          launches := w.launches ++ [⟨command, directory.render, w.disk⟩]
          replies := w.replies.drop 1 }) := by
  unfold Action.launch Host.replyTo
  rw [Action.runIn_bind_of_ok (Action.runIn_get w)]
  dsimp only
  rw [Action.runIn_bind_of_ok (Action.runIn_set w _)]
  cases w.replies <;> rfl

/-- A launch is the next one, and it ends as it is answered. -/
theorem answered_of_launch {command : List String} {directory : Path} {reply : Reply} {w v : Host}
    (h : (Action.launch command directory).runIn w = (.ok reply, v)) :
    w.Answered v 0 reply ∧ w.Launches v 1 := by
  rw [runIn_launch] at h
  cases h
  exact ⟨⟨_, List.getElem?_concat_length .., rfl⟩, rfl, rfl, _, rfl, rfl⟩

/-- A launch fails as the user is told, or as it is answered. -/
theorem ends_run {bad : Failure → Host → Prop} (huser : ∀ e v, e.isForUser = true → bad e v)
    {w : Host} (hfailed : ∀ e v, w.Answered v 0 (.failed e) → bad e v)
    (command arguments : List String) (directory : Path) :
    Ends (fun finished v => w.Launches v 1 ∧
        w.Answered v 0 (.finished finished.output finished.errors finished.status)) bad
      (run command arguments directory) w := by
  unfold run
  refine .bind (.of_runIn (fun reply v h => answered_of_launch h) fun e v h => nomatch h) ?_
  rintro reply v - ⟨hanswered, hlaunches⟩
  cases reply with
  | finished output errors status => exact .pure ⟨hlaunches, hanswered⟩
  | notFound => exact .throw (huser _ v rfl)
  | refused reason => exact .throw (huser _ v rfl)
  | failed failure => exact .throw (hfailed _ v hanswered)

end Compiler

/-! ## 4. Filling an overlay -/

namespace Overlay

/-- Places below the directory of an overlay that can be named, none of them below another. -/
structure Laid (place : Location) (targets : List Location) : Prop where
  below : ∀ t ∈ targets, place <+: t ∧ t ≠ place
  apart : ∀ t ∈ targets, ∀ u ∈ targets, t <+: u → t = u
  descends : ∀ t ∈ targets, Path.Descends t
  noNull : ∀ t ∈ targets, Path.NoNull t

/-- The disk while the files of an overlay are written to their places. The directory of the overlay
is there. On the way to a place there is no file, at a place no directory, and every directory is on
the way to a place. -/
structure Filling (place : Location) (targets : List Location) (disk : Disk) : Prop where
  holds : disk.Holds place
  way : ∀ t ∈ targets, ∀ above, above <+: t → above ≠ t → ∀ content,
    disk.get? above ≠ some (.file content)
  clear : ∀ t ∈ targets, disk.get? t ≠ some .directory
  made : ∀ at_, place <+: at_ → at_ ≠ place → disk.get? at_ = some .directory →
    ∃ t ∈ targets, at_ <+: t ∧ at_ ≠ t

variable {place : Location} {targets : List Location} {disk : Disk}

/-- An overlay starts with a directory that is new. -/
theorem Laid.filling (h : Laid place targets) (hfree : disk.isFree place = true)
    (hopens : disk.OpensTo place) (hne : place ≠ []) :
    Filling place targets (disk.set place .directory) := by
  have hholds := hopens.holds_set hne
  have hnothing : ∀ at_, place <+: at_ → at_ ≠ place →
      (disk.set place .directory).get? at_ = none := by
    intro at_ hunder hother
    rw [Disk.get?_set_of_ne _ hother]
    exact Disk.get?_eq_none (Disk.has_of_isFree hfree hunder fun hroot => by
      rw [hroot] at hunder
      exact hne (List.prefix_nil.mp hunder))
  refine ⟨hholds, fun t ht above habove hother content hget => ?_, fun t ht hget => ?_,
    fun at_ hunder hother hget => ?_⟩
  · rcases List.prefix_or_prefix_of_prefix habove (h.below t ht).1 with hup | hunder
    · exact nomatch (hholds above hup).symm.trans hget
    · by_cases heq : above = place
      · rw [heq, hholds place List.prefix_rfl] at hget
        cases hget
      · exact nomatch (hnothing above hunder heq).symm.trans hget
  · exact nomatch (hnothing t (h.below t ht).1 (h.below t ht).2).symm.trans hget
  · exact nomatch (hnothing at_ hunder hother).symm.trans hget

/-- Directories may be put on the way to a place, and files at a place. -/
theorem Filling.set (h : Filling place targets disk) (hlaid : Laid place targets)
    {t at_ : Location} (ht : t ∈ targets) (hat : at_ <+: t) (hroot : at_ ≠ []) {entry : Entry}
    (hkind : entry = .directory ↔ at_ ≠ t) : Filling place targets (disk.set at_ entry) := by
  have hself : (disk.set at_ entry).get? at_ = some entry := Disk.get?_set_self entry hroot
  refine ⟨fun above habove => ?_, fun u hu above habove hother content hget => ?_,
    fun u hu hget => ?_, fun other hunder hother hget => ?_⟩
  · by_cases heq : above = at_
    · have hway : at_ ≠ t := fun hend => h.clear t ht (h.holds t (hend ▸ heq ▸ habove))
      rw [heq, hself, hkind.mpr hway]
    · rw [Disk.get?_set_of_ne _ heq, h.holds above habove]
  · by_cases heq : above = at_
    · rw [heq, hself] at hget
      cases hget
      have hend : at_ = t := Decidable.not_not.mp fun hway => nomatch hkind.mpr hway
      exact hother (heq.trans (hend.trans (hlaid.apart t ht u hu (hend ▸ heq ▸ habove))))
    · rw [Disk.get?_set_of_ne _ heq] at hget
      exact h.way u hu above habove hother content hget
  · by_cases heq : u = at_
    · rw [heq, hself] at hget
      cases hget
      exact hkind.mp rfl (heq ▸ hlaid.apart u hu t ht (heq ▸ hat))
    · rw [Disk.get?_set_of_ne _ heq] at hget
      exact h.clear u hu hget
  · by_cases heq : other = at_
    · rw [heq, hself] at hget
      cases hget
      exact ⟨t, ht, heq ▸ hat, heq ▸ hkind.mp rfl⟩
    · rw [Disk.get?_set_of_ne _ heq] at hget
      exact h.made other hunder hother hget

theorem Laid.ne_root (h : Laid place targets) {t : Location} (ht : t ∈ targets) : t ≠ [] := by
  rintro rfl
  exact (h.below [] ht).2 (List.prefix_nil.mp (h.below [] ht).1).symm

end Overlay

namespace Compiler

open ChainGuard.Action (Ends Refuses Clears)

section

variable {place : Location} {targets : List Location} {w₀ : Host}

/-- What holds while an overlay is filled: the disk is as it should be. -/
def Fills (place : Location) (targets : List Location) (w₀ w : Host) : Prop :=
  Overlay.Filling place targets w.disk ∧ w₀.Proceeds w

theorem clears_dropLast (hlaid : Overlay.Laid place targets) {t : Location} (ht : t ∈ targets)
    (hne : t ≠ []) : Clears (Fills place targets w₀) t.dropLast where
  no_file _ hw at_ hat :=
    hw.1.way t ht at_ (hat.trans (List.dropLast_prefix t)) (Disk.ne_of_isPrefix_dropLast hat hne)
  make _ at_ hw hat hhas := by
    have hroot : at_ ≠ [] := by
      rintro rfl
      cases hhas
    have hway := Disk.ne_of_isPrefix_dropLast hat hne
    exact ⟨hw.1.set hlaid ht (hat.trans (List.dropLast_prefix t)) hroot (by simp [hway]), hw.2⟩

/-- The files of an overlay are written, unless a name is too long. -/
theorem ends_writeTexts {bad : Failure → Host → Prop} (hlaid : Overlay.Laid place targets)
    {overlay : Overlay} {files : Files}
    (hlong : ∀ name ∈ files.keys, ∀ at_, at_ <+: (overlay.target name).parts →
      Refuses bad (Path.render ⟨.root, at_⟩))
    (htargets : ∀ name ∈ files.keys, ∃ t ∈ targets, overlay.target name = ⟨.root, t⟩) {w : Host}
    (hw : Fills place targets w₀ w) :
    Ends (fun _ v => Fills place targets w₀ v) bad (writeTexts overlay files) w := by
  induction files generalizing w with
  | nil => exact .pure hw
  | cons entry rest ih =>
    obtain ⟨name, text⟩ := entry
    obtain ⟨t, ht, htarget⟩ := htargets name List.mem_cons_self
    have hrest : ∀ other ∈ Dict.keys rest, ∃ t ∈ targets, overlay.target other = ⟨.root, t⟩ :=
      fun other hother => htargets other (List.mem_cons_of_mem name hother)
    have hshort := hlong name List.mem_cons_self
    rw [htarget] at hshort
    have hne := hlaid.ne_root ht
    have hup := List.dropLast_prefix t
    have hdescends := hlaid.descends t ht
    have hnull := hlaid.noNull t ht
    unfold writeTexts
    dsimp only
    rw [htarget]
    refine .bind ((clears_dropLast hlaid ht hne).ends_ensureDirectories (hdescends.of_isPrefix hup)
      (hnull.of_isPrefix hup) (fun at_ hat => hshort at_ (hat.trans hup)) (Nat.le_refl _) hw) ?_
    rintro - v - ⟨hv, hholds⟩
    refine .bind (Action.ends_writeText (hshort t List.prefix_rfl) hdescends hnull hne
      hholds.opensTo_of_dropLast (fun hget => absurd hget (hv.1.clear t ht)) text) ?_
    rintro - u - ⟨-, rfl⟩
    refine ih (fun other hother => hlong other (List.mem_cons_of_mem name hother)) hrest ⟨?_, hv.2⟩
    show Overlay.Filling place targets ((v.disk.set t _).set t _)
    rw [Disk.set_set]
    exact hv.1.set hlaid ht List.prefix_rfl hne (by simp)

end

theorem config_eq_ok (overlay : Overlay) {config : CompilerConfig}
    (hdirectory : overlay.directory.isAbsolute = overlay.base.isAbsolute)
    (hproject : ∀ project, config.base = some project → project.toList.contains '\x00' = false)
    (roots : List String) : ∃ value, overlay.config roots config = .ok value := by
  unfold Overlay.config Path.commonText?
  rw [if_pos hdirectory]
  dsimp only
  cases hbase : config.base with
  | none => exact ⟨_, rfl⟩
  | some project =>
    dsimp only
    rw [hproject project hbase, if_neg Bool.false_ne_true]
    exact ⟨_, rfl⟩

/-- Every file of the compiler stands for a file that was given. -/
theorem knows_overlay (overlay : Overlay) (files : Files) :
    CompilerOutput.Context.Knows ⟨overlay.cwd, overlay.directory, overlay.names files, files⟩ := by
  intro path name hname
  obtain ⟨entry, hentry, heq⟩ := List.mem_map.mp (Dict.mem_of_get?_ofPairs hname)
  cases heq
  exact Dict.exists_get?_of_mem_keys (List.mem_map_of_mem hentry)

section

variable {c : Compiler} {overlay : Overlay} {names : List String} {w₀ w : Host}

theorem refuses_fails {name : String} (h : c.Asks overlay names name) :
    Refuses (c.Fails overlay names w₀) name :=
  fun hlong _ => .inr (.long h hlong)

/-- What the compiler wrote gives diagnostics, or the user is told why not, or it cannot be read. -/
theorem ends_outcome {files : Files} {finished : Finished} {message : String} {i : Nat}
    (hanswered : w₀.Answered w i (.finished finished.output finished.errors finished.status)) :
    Ends (fun _ v => v = w) (c.Fails overlay names w₀)
      (if finished.status ≠ 0 ∧ (finished.output ++ finished.errors).trim = [] then
        throw (.compiler message)
      else
        match CompilerOutput.read ⟨overlay.cwd, overlay.directory, overlay.names files, files⟩
          (finished.output ++ finished.errors) with
        | (diagnostics, none) => pure diagnostics
        | (_, some failure) => throw failure) w := by
  refine .ite (fun _ => .throw (.inl rfl)) fun _ => ?_
  rcases hread : CompilerOutput.read ⟨overlay.cwd, overlay.directory, overlay.names files, files⟩
    (finished.output ++ finished.errors) with ⟨diagnostics, failure⟩
  cases failure with
  | none => exact .pure rfl
  | some e =>
    have herror := CompilerOutput.read_eq_error (knows_overlay overlay files)
      (congrArg Prod.snd hread)
    exact .throw (herror.imp_right (.output hanswered))

/-- The compiler is launched, and what it writes is read. -/
theorem ends_diagnose (hw : w₀.Proceeds w) (overlay : Overlay) (names : List String) (files : Files)
    (message : Finished → String) (command arguments : List String) (directory : Path) :
    Ends (fun _ v => w₀.Proceeds v) (c.Fails overlay names w₀)
      (do
        let finished ← run command arguments directory
        if finished.status ≠ 0 ∧ (finished.output ++ finished.errors).trim = [] then
          throw (.compiler (message finished))
        else
          match CompilerOutput.read ⟨overlay.cwd, overlay.directory, overlay.names files, files⟩
            (finished.output ++ finished.errors) with
          | (diagnostics, none) => pure diagnostics
          | (_, some failure) => throw failure) w := by
  obtain ⟨count, hcount⟩ := hw
  refine .bind (ends_run (fun _ _ => .inl) (fun e v h => .inr (.launch (hcount.answered h))) command
    arguments directory) ?_
  rintro finished v - ⟨hlaunches, hanswered⟩
  refine (ends_outcome (hcount.answered hanswered)).mono ?_
  rintro - _ - rfl
  exact ⟨_, hcount.trans hlaunches⟩

end

theorem descends_settingsName : Path.Descends ["tsconfig.json"] :=
  Path.descends_singleton (by decide) (by decide)

theorem noNull_settingsName : Path.NoNull ["tsconfig.json"] := by
  intro s hs
  rw [List.mem_singleton.mp hs]
  decide

theorem ends_collectIn {w₀ w : Host} {c : Compiler} {cwd base : Path} {place : Location}
    {targets : List Location} (hlaid : Overlay.Laid place targets) (hplace : Path.Descends place)
    (hnull : Path.NoNull place) {files : Files}
    (htargets : ∀ name ∈ files.keys, ∃ t ∈ targets,
      Overlay.target ⟨cwd, ⟨.root, place⟩, base⟩ name = ⟨.root, t⟩)
    (hbase : base.isAbsolute = true) (roots : List String) {config : CompilerConfig}
    (hproject : ∀ project, config.base = some project → project.toList.contains '\x00' = false)
    (hdirectory : c.directory = some ⟨.root, place.dropLast⟩)
    (hsettings : ∀ t ∈ targets, place ++ ["tsconfig.json"] <+: t → place ++ ["tsconfig.json"] ≠ t →
      ∃ name ∈ files.keys, base.parts ++ ["tsconfig.json"] <+: w₀.placeOf name ∧
        w₀.disk.get? (base.parts ++ ["tsconfig.json"]) = some .directory)
    (hw : Fills place targets w₀ w) :
    Ends (fun _ v => w₀.Proceeds v) (c.Fails ⟨cwd, ⟨.root, place⟩, base⟩ files.keys w₀)
      (c.collectIn ⟨cwd, ⟨.root, place⟩, base⟩ files roots config) w := by
  unfold collectIn
  refine .bind (ends_writeTexts hlaid (fun name hname at_ hat => refuses_fails (.way hname hat))
    htargets hw) ?_
  rintro - v - ⟨hv, hproceeds⟩
  obtain ⟨settings, hvalue⟩ := config_eq_ok ⟨cwd, ⟨.root, place⟩, base⟩ hbase.symm
    hproject (Overlay.roots ⟨cwd, ⟨.root, place⟩, base⟩ files roots)
  rw [hvalue, Ends, Action.runIn_bind_of_ok (Action.runIn_lift _ v)]
  refine Ends.bind (Action.ends_writeText (refuses_fails .settings)
    (hplace.append descends_settingsName) (hnull.append noNull_settingsName) (by simp)
    (hv.holds.opensTo _) (fun hget => ?_) _) ?_
  · obtain ⟨t, ht, hunder, hne⟩ := hv.made _ (List.prefix_append _ _) (by simp) hget
    obtain ⟨name, hname, hbelow, hthere⟩ := hsettings t ht hunder hne
    exact .inr (.settings hname hbelow hthere)
  rintro - u - ⟨-, hu⟩
  have hdiagnose := ends_diagnose (c := c) (hu ▸ hproceeds.trans (v.proceeds_after _))
    ⟨cwd, ⟨.root, place⟩, base⟩ files.keys files
  dsimp only
  cases hcommand : c.command with
  | some command =>
    rw [Ends, Action.runIn_bind_of_ok (Action.runIn_pure command _)]
    exact hdiagnose _ command _ _
  | none =>
    have hup := List.dropLast_prefix place
    have hsearch : ∀ up ∈ Path.upwards ⟨.root, place.dropLast⟩,
        Refuses (c.Fails ⟨cwd, ⟨.root, place⟩, base⟩ files.keys w₀) (installedIn up).render :=
      fun up hmem => refuses_fails (.installed hcommand hmem)
    rw [hdirectory]
    refine .bind (ends_locate (hplace.of_isPrefix hup) (hnull.of_isPrefix hup) hsearch
      (fun _ => .inl rfl) _) ?_
    rintro command _ - rfl
    exact hdiagnose _ command _ _

end Compiler

/-! ## 5. Asking for diagnostics -/

namespace Host

/-- Names of files that are there, with no null characters on the way. -/
structure Sources (w : Host) (names : List String) : Prop where
  noNull : ∀ name ∈ names, Path.NoNull (w.placeOf name)
  file : ∀ name ∈ names, ∃ content, w.disk.get? (w.placeOf name) = some (.file content)

namespace Sources

variable {w : Host} {names : List String} {place base : Location}

theorem of_sameDisk {v : Host} (h : w.Sources names) (hsame : w.SameDisk v) : v.Sources names := by
  obtain ⟨hnull, hfile⟩ := h
  unfold placeOf at hnull hfile
  rw [← hsame.cwd, ← hsame.disk] at *
  exact ⟨hnull, hfile⟩

theorem exists_rest (h : w.Sources names)
    (hbase : ∀ name ∈ names, base <+: (w.placeOf name).dropLast) {name : String}
    (hname : name ∈ names) : ∃ rest, rest ≠ [] ∧ w.placeOf name = base ++ rest := by
  obtain ⟨content, hfile⟩ := h.file name hname
  obtain ⟨rest, hrest⟩ := (hbase name hname).trans (List.dropLast_prefix _)
  refine ⟨rest, ?_, hrest.symm⟩
  rintro rfl
  have hlength := (hbase name hname).length_le
  rw [List.append_nil] at hrest
  rw [hrest, List.length_dropLast] at hlength
  have hroot : w.placeOf name = [] := List.length_eq_zero_iff.mp (by omega)
  rw [hroot] at hfile
  cases hfile

/-- The files have places in an overlay that are not in each other's way, since they are files of
one tree. Otherwise one file would be a directory above another one. -/
theorem laid (hw : w.WellFormed) (h : w.Sources names)
    (hbase : ∀ name ∈ names, base <+: (w.placeOf name).dropLast) (hplace : Path.Descends place)
    (hnull : Path.NoNull place) :
    Overlay.Laid place (names.map fun name => place ++ (w.placeOf name).drop base.length) where
  below t ht := by
    obtain ⟨name, hname, rfl⟩ := List.mem_map.mp ht
    obtain ⟨rest, hne, heq⟩ := h.exists_rest hbase hname
    rw [heq, List.drop_left]
    exact ⟨List.prefix_append _ _, fun hself => hne (List.self_eq_append_right.mp hself.symm)⟩
  apart t ht u hu hprefix := by
    obtain ⟨a, ha, rfl⟩ := List.mem_map.mp ht
    obtain ⟨b, hb, rfl⟩ := List.mem_map.mp hu
    obtain ⟨restA, -, hA⟩ := h.exists_rest hbase ha
    obtain ⟨restB, -, hB⟩ := h.exists_rest hbase hb
    rw [hA, hB, List.drop_left, List.drop_left] at hprefix ⊢
    have hrest := (List.prefix_append_right_inj place).mp hprefix
    by_cases heq : restA = restB
    · rw [heq]
    · exfalso
      obtain ⟨content, hfile⟩ := h.file a ha
      obtain ⟨other, hother⟩ := h.file b hb
      have hup : w.placeOf a <+: w.placeOf b := by
        rw [hA, hB]
        exact (List.prefix_append_right_inj base).mpr hrest
      have hne : w.placeOf a ≠ w.placeOf b := by
        rw [hA, hB]
        exact fun hsame => heq (List.append_cancel_left hsame)
      have hdir := hw.tree.get?_isPrefix (Disk.has_of_get? hother) hup hne
      exact nomatch hdir.symm.trans hfile
  descends t ht := by
    obtain ⟨name, -, rfl⟩ := List.mem_map.mp ht
    have hdown := Path.descends_absolute hw.cwd (Path.isRead_ofString name)
    exact hplace.append fun s hs => hdown s (List.mem_of_mem_drop hs)
  noNull t ht := by
    obtain ⟨name, hname, rfl⟩ := List.mem_map.mp ht
    exact hnull.append fun s hs => h.noNull name hname s (List.mem_of_mem_drop hs)

/-- Where the place of a file in an overlay lies below another one, the file lies below a directory
of that name. -/
theorem exists_below (hw : w.WellFormed) (h : w.Sources names)
    (hbase : ∀ name ∈ names, base <+: (w.placeOf name).dropLast) {last : String} {t : Location}
    (ht : t ∈ names.map fun name => place ++ (w.placeOf name).drop base.length)
    (hunder : place ++ [last] <+: t) (hne : place ++ [last] ≠ t) :
    ∃ name ∈ names, base ++ [last] <+: w.placeOf name ∧
      w.disk.get? (base ++ [last]) = some .directory := by
  obtain ⟨name, hname, rfl⟩ := List.mem_map.mp ht
  obtain ⟨rest, -, heq⟩ := h.exists_rest hbase hname
  obtain ⟨content, hfile⟩ := h.file name hname
  rw [heq, List.drop_left] at hunder hne
  have hrest := (List.prefix_append_right_inj place).mp hunder
  have hbelow : base ++ [last] <+: w.placeOf name := by
    rw [heq]
    exact (List.prefix_append_right_inj base).mpr hrest
  refine ⟨name, hname, hbelow, hw.tree.get?_isPrefix (Disk.has_of_get? hfile) hbelow ?_⟩
  rw [heq]
  exact fun hsame => hne (congrArg (place ++ ·) (List.append_cancel_left hsame))

end Sources

end Host

namespace Compiler

open ChainGuard.Action (Ends)

section

variable {w₀ w : Host} (hw : w₀.WellFormed) (hfollows : w₀.Follows w) {c : Compiler}
  {parts : Location}
  (hdirectory : c.directory = some ⟨.root, parts⟩) (hparts : Path.Descends parts)
  (hnull : Path.NoNull parts) (hholds : w₀.disk.Holds parts) {files : Files}
  (hfiles : w₀.Sources files.keys) (roots : List String) {config : CompilerConfig}
  (hproject : ∀ project, config.base = some project → project.toList.contains '\x00' = false)
include hw hfollows hdirectory hparts hnull hholds hfiles hproject

/-- In a new directory the files of an overlay are not in each other's way. -/
theorem ends_collectIn_new {name : String} (hname : Path.Descends [name])
    (hclean : Path.NoNull [name]) (hfree : w.disk.isFree (parts ++ [name]) = true) :
    Ends (fun _ v => w₀.Proceeds v)
      (c.Fails ⟨⟨.root, w₀.cwd⟩, ⟨.root, parts ++ [name]⟩,
        Path.commonBase ⟨.root, w₀.cwd⟩ ((roots ++ files.keys).map Path.ofString)⟩ files.keys w₀)
      (c.collectIn ⟨⟨.root, w₀.cwd⟩, ⟨.root, parts ++ [name]⟩,
          Path.commonBase ⟨.root, w₀.cwd⟩ ((roots ++ files.keys).map Path.ofString)⟩
        files roots config)
      (w.after [.makeDirectory (parts ++ [name])]) := by
  have hpaths : ∀ file ∈ files.keys, Path.ofString file ∈ (roots ++ files.keys).map Path.ofString :=
    fun file hfile => List.mem_map_of_mem (List.mem_append_right roots hfile)
  have hbase : ∀ file ∈ files.keys,
      (Path.commonBase ⟨.root, w₀.cwd⟩ ((roots ++ files.keys).map Path.ofString)).parts <+:
        (w₀.placeOf file).dropLast :=
    fun file hfile => Path.commonBase_isPrefix (hpaths file hfile)
  have habsolute :
      (Path.commonBase ⟨.root, w₀.cwd⟩ ((roots ++ files.keys).map Path.ofString)).isAbsolute =
        true := by
    cases (roots ++ files.keys).map Path.ofString <;> rfl
  have hplace := hparts.append hname
  have hlaid := hfiles.laid hw hbase hplace (hnull.append hclean)
  have hopens : w.disk.OpensTo (parts ++ [name]) := by
    rw [hfollows.disk]
    exact hholds.opensTo name
  have hparent : (parts ++ [name]).dropLast = parts := List.dropLast_concat
  rw [← hparent] at hdirectory
  refine ends_collectIn hlaid hplace (hnull.append hclean) (fun file hfile => ?_) habsolute roots
    hproject hdirectory (fun t ht hunder hne => ?_)
    ⟨hlaid.filling hfree hopens (by simp), hfollows.launches⟩
  · exact ⟨_, List.mem_map_of_mem hfile, Overlay.target_eq_drop hw.cwd (hpaths file hfile) _⟩
  · exact hfiles.exists_below hw hbase ht hunder hne

/-- Asking for the diagnostics of files that are there gives them, and the disk is then as it was,
or it fails as `Compiler.Fails` says. -/
theorem ends_collect :
    Ends (fun _ v => w₀.Follows v)
      (c.Fails (overlayIn w₀ ⟨.root, parts⟩ roots files.keys) files.keys w₀)
      (c.collect files roots config) w := by
  have hthere : w.disk.Holds parts := by
    rw [hfollows.disk]
    exact hholds
  have hafter : ∀ e (v : Host) m,
      c.Fails (overlayIn w₀ ⟨.root, parts⟩ roots files.keys) files.keys w₀ e v →
      c.Fails (overlayIn w₀ ⟨.root, parts⟩ roots files.keys) files.keys w₀ e (v.after [m]) := by
    exact fun e v m h => h.imp_right (·.mono (v.proceeds_after [m]))
  have hinside : Ends (fun _ v => ∃ u : Host, ∃ m, w₀.Proceeds u ∧ v = u.after [m])
      (c.Fails (overlayIn w₀ ⟨.root, parts⟩ roots files.keys) files.keys w₀)
      (Action.withDirectory ⟨.root, parts⟩ overlayStart fun directory => c.collectIn
        ⟨⟨.root, w₀.cwd⟩, directory,
          Path.commonBase ⟨.root, w₀.cwd⟩ ((roots ++ files.keys).map Path.ofString)⟩
        files roots config) w :=
    Action.ends_withDirectory hparts hnull (show 2 < overlayStart.toList.length by decide)
      (by decide) (by decide) hthere (by rw [hfollows.disk]) (refuses_fails .directory) hafter
      (ends_collectIn_new hw hfollows hdirectory hparts hnull hholds hfiles roots hproject)
  have hfails : Ends (fun _ v => w₀.Proceeds v)
      (c.Fails (overlayIn w₀ ⟨.root, parts⟩ roots files.keys) files.keys w₀)
      (c.collect files roots config) w := by
    unfold collect
    rw [Ends, Action.runIn_bind_of_ok (Action.runIn_workingDirectory w),
      Action.runIn_bind_of_ok (Action.runIn_get w), hdirectory, hfollows.cwd]
    refine Ends.bind hinside ?_
    rintro diagnostics v - ⟨u, m, hu, rfl⟩
    refine .bind (Action.ends_note _ _ _ _) fun _ v _ hv => .pure ?_
    exact hu.trans ⟨0, hv.2⟩
  have hrestores := leads_collect hdirectory hparts files roots config
  exact hfails.mono fun _ v hrun hv => ⟨hfollows.toSameDisk.trans
    (hrestores.of_run hrun (hw.of_sameDisk hfollows.toSameDisk)).1, hv⟩

end

end Compiler

end ChainGuard
