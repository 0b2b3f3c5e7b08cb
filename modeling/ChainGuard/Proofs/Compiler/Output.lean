import ChainGuard.Proofs.Compiler.Line
import ChainGuard.Proofs.Path
import ChainGuard.Proofs.Position
import ChainGuard.Proofs.Text.Lines

/-!
# Reading the compiler's output

Reading an output inverts how the compiler writes one. A line is a diagnostic at a position of a
file that it was given, an error in the configuration, or something else (`CompilerOutput.Line`).
However these come in turn, reading gives exactly the diagnostics, each with its file and position,
and then the errors in the configuration as one failure.

1. `CompilerOutput.Line`: what a line is made of, and how it is written.
2. `CompilerOutput.readLine_eq`: one line, and `CompilerOutput.readLines_eq` for any number.
   Main statement: `CompilerOutput.read_inverts_writing`.
-/

namespace ChainGuard.CompilerOutput

open Diagnostic (isConfigCode)
open IntegerError (maxDigits)

/-! ## 1. Lines -/

/-- The path under which the name of a file of the compiler is kept. -/
def Context.keyOf (context : Context) (file : Path) : String :=
  (Path.resolve context.cwd (context.directory.join file)).render

/-- The caller's name of the file that a located line names, if it is one of the given files. -/
def Context.nameOf? (context : Context) (file : Text) : Option String :=
  context.names.get? (context.keyOf (Path.ofString (String.ofList file)))

/-- A diagnostic at a position of a file that the compiler was given. -/
structure Reported where
  /-- The way to the file from the directory that the compiler runs in. -/
  path : List String
  name : String
  source : Text
  offset : Nat
  code : Nat
  message : Text

namespace Reported

def file (r : Reported) : Text :=
  (Path.mk .relative r.path).render.toList

def place (r : Reported) : Place where
  line := (toString (Position.lineColumn r.source r.offset).1).toList
  column := (toString (Position.lineColumn r.source r.offset).2).toList
  code := (toString r.code).toList
  message := r.message

def diagnostic (r : Reported) : Diagnostic where
  code := r.code
  file := some r.name
  offset := some r.offset
  message := r.message

/-- The path is normalized, so that it has no empty parts and no dots, though it may lead up. It
holds nothing that looks like a place, and leads to a given file, in which the position lies. -/
structure IsFrom (r : Reported) (context : Context) : Prop where
  normalized : ∀ part ∈ r.path, Path.IsPart part
  no_place : HasNoPlace r.file
  name : context.names.get? (context.keyOf ⟨.relative, r.path⟩) = some r.name
  source : context.files.get? r.name = some r.source
  inside : r.offset ≤ r.source.length

end Reported

/-- The line is an error in the configuration: a located one in no given file, or a global one. -/
inductive IsConfigError (context : Context) (line : Text) : Prop
  | located {f : Located} (first : f.IsFirst line)
      (code : isConfigCode (Text.decimal f.place.code) = true)
      (name : context.nameOf? f.file = none)
  | global {code message : Text} (not_located : ∀ f : Located, ¬f.Fits line)
      (error : IsGlobal line code message) (code : isConfigCode (Text.decimal code) = true)

/-- The line is neither located nor a global error in the configuration. -/
structure IsOther (line : Text) : Prop where
  not_located : ∀ f : Located, ¬f.Fits line
  not_config : ∀ code message, IsGlobal line code message →
    isConfigCode (Text.decimal code) = false

/-- A line of the output, by what it says. -/
inductive Line where
  | reported (r : Reported)
  | configError (line : Text)
  | other (line : Text)

namespace Line

def text : Line → Text
  | reported r => r.file ++ r.place.text
  | configError line => line
  | other line => line

def diagnostic? : Line → Option Diagnostic
  | reported r => some r.diagnostic
  | _ => none

def configError? : Line → Option Text
  | configError line => some line
  | _ => none

/-- The line says what it is meant to say. -/
def IsFrom (context : Context) : Line → Prop
  | reported r => r.IsFrom context
  | configError line => IsConfigError context line
  | other line => IsOther line

end Line

/-- The numerals that are read of a line have at most `maxDigits` digits, and the path has no null
character. -/
structure Legible (context : Context) (line : Text) : Prop where
  no_null : ∀ f : Located, f.IsFirst line → '\x00' ∉ f.file
  code : ∀ f : Located, f.IsFirst line → f.place.code.length ≤ maxDigits
  position : ∀ f : Located, f.IsFirst line → context.nameOf? f.file ≠ none →
    f.place.line.length ≤ maxDigits ∧ f.place.column.length ≤ maxDigits
  global : (∀ f : Located, ¬f.Fits line) → ∀ code message, IsGlobal line code message →
    code.length ≤ maxDigits

section

variable {context : Context} {line : Text}

theorem isConfigError_iff : IsConfigError context line ↔
    (∃ f ∈ located? line, isConfigCode (Text.decimal f.place.code) = true ∧
      context.nameOf? f.file = none) ∨
    (located? line = none ∧ ∃ e ∈ errorPart? line, isConfigCode (Text.decimal e.1) = true) := by
  constructor
  · rintro (⟨first, code, name⟩ | ⟨not_located, error, code⟩)
    · exact .inl ⟨_, located?_eq_some_iff.mpr first, code, name⟩
    · exact .inr ⟨located?_eq_none_iff.mpr not_located, _, errorPart?_eq_some_iff.mpr error, code⟩
  · rintro (⟨f, hf, code, name⟩ | ⟨hnone, ⟨c, m⟩, he, code⟩)
    · exact .located (located?_eq_some_iff.mp hf) code name
    · exact .global (located?_eq_none_iff.mp hnone) (errorPart?_eq_some_iff.mp he) code

theorem isOther_iff : IsOther line ↔ located? line = none ∧
    ∀ e ∈ errorPart? line, isConfigCode (Text.decimal e.1) = false := by
  constructor
  · rintro ⟨not_located, not_config⟩
    exact ⟨located?_eq_none_iff.mpr not_located, fun e he =>
      not_config e.1 e.2 (errorPart?_eq_some_iff.mp he)⟩
  · rintro ⟨hnone, hconfig⟩
    exact ⟨located?_eq_none_iff.mp hnone, fun code message h =>
      hconfig (code, message) (errorPart?_eq_some_iff.mpr h)⟩

theorem legible_iff : Legible context line ↔
    (∀ f ∈ located? line, '\x00' ∉ f.file ∧ f.place.code.length ≤ maxDigits ∧
      (context.nameOf? f.file ≠ none →
        f.place.line.length ≤ maxDigits ∧ f.place.column.length ≤ maxDigits)) ∧
    (located? line = none → ∀ e ∈ errorPart? line, e.1.length ≤ maxDigits) := by
  constructor
  · rintro ⟨no_null, code, position, global⟩
    refine ⟨fun f hf => ?_, fun hnone e he => ?_⟩
    · have first := located?_eq_some_iff.mp hf
      exact ⟨no_null f first, code f first, position f first⟩
    · exact global (located?_eq_none_iff.mp hnone) e.1 e.2 (errorPart?_eq_some_iff.mp he)
  · rintro ⟨hlocated, hglobal⟩
    have h := fun (f : Located) (first : f.IsFirst line) =>
      hlocated f (located?_eq_some_iff.mpr first)
    exact ⟨fun f first => (h f first).1, fun f first => (h f first).2.1,
      fun f first => (h f first).2.2, fun hnone code message error =>
        hglobal (located?_eq_none_iff.mpr hnone) (code, message) (errorPart?_eq_some_iff.mpr error)⟩

instance : Decidable (IsConfigError context line) :=
  decidable_of_iff _ isConfigError_iff.symm

instance : Decidable (IsOther line) :=
  decidable_of_iff _ isOther_iff.symm

instance : Decidable (Legible context line) :=
  decidable_of_iff _ legible_iff.symm

end

/-! ## 2. Reading -/

theorem number_of_isNumeral {t : Text} (h : t.IsNumeral) (hlength : t.length ≤ maxDigits) :
    number t = .ok (Text.decimal t) := by
  rw [number, Text.toInteger_of_isNumeral h, if_neg (Nat.not_lt.mpr hlength)]
  rfl

theorem name?_of_no_null {context : Context} {file : Text} (h : '\x00' ∉ file) :
    context.name? file = .ok (context.nameOf? file) := by
  have hcontains : file.contains '\x00' = false := by
    rw [Bool.eq_false_iff]
    exact fun hmem => h (List.contains_iff_mem.mp hmem)
  rw [Context.name?, hcontains]
  rfl

theorem readLine_of_isFirst {context : Context} {line : Text} {f : Located}
    (hfirst : f.IsFirst line) (hlegible : Legible context line) :
    readLine context line =
      match context.nameOf? f.file with
      | some name => .diagnostic <$> ofPlace context f.place (Text.decimal f.place.code) name
      | none =>
        if isConfigCode (Text.decimal f.place.code) then .ok .configError
        else .ok (.diagnostic ⟨Text.decimal f.place.code, none, none, f.place.message⟩) := by
  have hcode := number_of_isNumeral hfirst.fits.written.code (hlegible.code f hfirst)
  have hname : context.name? f.file = .ok (context.nameOf? f.file) :=
    name?_of_no_null (hlegible.no_null f hfirst)
  rw [readLine, located?_eq_some_iff.mpr hfirst]
  dsimp only
  rw [hcode, hname]
  cases context.nameOf? f.file with
  | some name => rfl
  | none =>
    show (if _ then _ else _) = (if _ then _ else _)
    split <;> rfl

theorem isConfigError_eq {context : Context} {line : Text} (h : IsConfigError context line)
    (hlegible : Legible context line) : readLine context line = .ok .configError := by
  cases h with
  | located first code name =>
    rw [readLine_of_isFirst first hlegible, name]
    exact if_pos code
  | @global code message not_located error config =>
    have hcode := number_of_isNumeral error.numeral (hlegible.global not_located _ _ error)
    rw [readLine, located?_eq_none_iff.mpr not_located]
    dsimp only
    rw [errorPart?_eq_some_iff.mpr error]
    dsimp only
    rw [hcode]
    show Except.ok (if _ then _ else _) = _
    rw [if_pos config]

theorem isOther_eq {context : Context} {line : Text} (h : IsOther line)
    (hlegible : Legible context line) : readLine context line = .ok .nothing := by
  rw [readLine, located?_eq_none_iff.mpr h.not_located]
  dsimp only
  cases herror : errorPart? line with
  | none => rfl
  | some fields =>
    obtain ⟨code, message⟩ := fields
    have hglobal := errorPart?_eq_some_iff.mp herror
    have hcode := number_of_isNumeral hglobal.numeral
      (hlegible.global h.not_located _ _ hglobal)
    dsimp only
    rw [hcode]
    show Except.ok (if _ then _ else _) = _
    rw [if_neg (by rw [h.not_config _ _ hglobal]; decide)]

namespace Reported

variable {r : Reported} {context : Context}

theorem isWritten_place (r : Reported) : r.place.IsWritten :=
  ⟨Text.isNumeral_toString _, Text.isNumeral_toString _, Text.isNumeral_toString _⟩

theorem ofString_file (h : ∀ part ∈ r.path, Path.IsPart part) :
    Path.ofString (String.ofList r.file) = ⟨.relative, r.path⟩ := by
  rw [file, String.ofList_toList]
  exact Path.ofString_render h

/-- No path is written as the empty text. -/
theorem file_ne_nil (h : ∀ part ∈ r.path, Path.IsPart part) : r.file ≠ [] := by
  intro hnil
  have hread := ofString_file h
  rw [hnil] at hread
  have hpath : [] = r.path := congrArg Path.parts hread
  rw [file, ← hpath] at hnil
  exact absurd hnil (by decide)

/-- The place of the line starts where the file ends. -/
theorem isFirst (h : r.IsFrom context) :
    Located.IsFirst ⟨r.file, r.place⟩ (r.file ++ r.place.text) :=
  located?_eq_some_iff.mp (located?_append (file_ne_nil h.normalized) h.no_place r.isWritten_place)

theorem nameOf?_file (h : r.IsFrom context) : context.nameOf? r.file = some r.name := by
  rw [Context.nameOf?, ofString_file h.normalized, h.name]

/-- The position comes back from the line and the column. -/
theorem readLine_eq (h : r.IsFrom context) (hlegible : Legible context (r.file ++ r.place.text)) :
    readLine context (r.file ++ r.place.text) = .ok (.diagnostic r.diagnostic) := by
  have hfirst := isFirst h
  have hname := nameOf?_file h
  obtain ⟨hline, hcolumn⟩ := hlegible.position _ hfirst (by rw [hname]; exact Option.some_ne_none _)
  have hline := number_of_isNumeral r.isWritten_place.line hline
  have hcolumn := number_of_isNumeral r.isWritten_place.column hcolumn
  have hvalue : ∀ n : Nat, Text.decimal (toString n).toList = n := Text.decimal_toString
  have hplace : ofPlace context r.place r.code r.name = .ok r.diagnostic := by
    rw [ofPlace, h.source]
    dsimp only
    rw [hline, hcolumn]
    show Except.ok (Diagnostic.mk _ _ ((Position.offset? r.source
      (Text.decimal (toString _).toList : Nat) (Text.decimal (toString _).toList : Nat)).map
        Int.ofNat) _) = _
    rw [hvalue, hvalue, Position.offset?_lineColumn h.inside]
    rfl
  rw [readLine_of_isFirst hfirst hlegible, hname]
  dsimp only
  have hcode : Text.decimal r.place.code = r.code := hvalue r.code
  rw [hcode, hplace]
  rfl

end Reported

/-- What reading makes of the line. -/
def Line.reading : Line → Reading
  | reported r => .diagnostic r.diagnostic
  | configError _ => .configError
  | other _ => .nothing

theorem readLine_eq {context : Context} {l : Line} (h : l.IsFrom context)
    (hlegible : Legible context l.text) : readLine context l.text = .ok l.reading := by
  cases l with
  | reported r => exact Reported.readLine_eq h hlegible
  | configError line => exact isConfigError_eq h hlegible
  | other line => exact isOther_eq h hlegible

/-- The lines are read one after the other. The errors in the configuration are kept until the
end. -/
theorem readLines_eq {context : Context} {ls : List Line} (h : ∀ l ∈ ls, l.IsFrom context)
    (hlegible : ∀ l ∈ ls, Legible context l.text) (errors : List Text) :
    readLines context errors (ls.map Line.text) =
      (ls.filterMap Line.diagnostic?,
        configFailure? (errors ++ ls.filterMap Line.configError?)) := by
  induction ls generalizing errors with
  | nil => rw [List.map_nil, readLines, List.filterMap_nil, List.filterMap_nil, List.append_nil]
  | cons l ls ih =>
    have hrest := ih (fun l hl => h l (List.mem_cons_of_mem _ hl))
      fun l hl => hlegible l (List.mem_cons_of_mem _ hl)
    rw [List.map_cons, readLines,
      readLine_eq (h l List.mem_cons_self) (hlegible l List.mem_cons_self)]
    cases l with
    | reported r =>
      show (r.diagnostic :: (readLines context errors _).1, (readLines context errors _).2) = _
      rw [hrest]
      rfl
    | configError line =>
      show readLines context (errors ++ [line]) _ = _
      rw [hrest, List.append_assoc]
      rfl
    | other line => exact hrest errors

/-- An empty line at the end is not seen, but would say nothing. -/
theorem readLines_lines {ts : List Text} (h : ∀ t ∈ ts, t.InLine) (context : Context)
    (errors : List Text) :
    readLines context errors (Text.lines (['\n'].intercalate ts)) =
      readLines context errors ts := by
  induction ts generalizing errors with
  | nil => rfl
  | cons t ts ih =>
    have ht := h t List.mem_cons_self
    cases ts with
    | nil =>
      rw [List.intercalate_singleton]
      cases t with
      | nil => rfl
      | cons c t => rw [Text.lines_of_inLine ht (List.cons_ne_nil c t)]
    | cons t' ts =>
      have hrest := ih fun t ht => h t (List.mem_cons_of_mem _ ht)
      rw [List.intercalate_cons_cons, List.append_assoc, List.singleton_append,
        Text.lines_append ht, readLines, readLines]
      simp only [hrest]

/-- Reading inverts writing: each diagnostic at a position of a file comes back, in order, with its
code, its message, the caller's name of the file and that very position. The errors in the
configuration make the whole output a failure, which shows after the last line. -/
theorem read_inverts_writing {context : Context} {ls : List Line}
    (h : ∀ l ∈ ls, l.IsFrom context) (hline : ∀ l ∈ ls, l.text.InLine)
    (hlegible : ∀ l ∈ ls, Legible context l.text) :
    let errors := ls.filterMap Line.configError?
    read context (['\n'].intercalate (ls.map Line.text)) =
      (ls.filterMap Line.diagnostic?,
        if errors = [] then none
        else some (.projectConfig (String.intercalate "\n" (errors.map String.ofList)))) := by
  intro errors
  have hlines : ∀ t ∈ ls.map Line.text, t.InLine := by
    intro t ht
    obtain ⟨l, hl, rfl⟩ := List.mem_map.mp ht
    exact hline l hl
  rw [read, readLines_lines hlines, readLines_eq h hlegible, List.nil_append, configFailure?]
  simp only [List.isEmpty_iff, errors]

/-- A compiler that runs in `/o` and was given the file `/o/a(1,2).ts`. -/
def nestedContext : Context where
  cwd := ⟨.root, []⟩
  directory := ⟨.root, ["o"]⟩
  names := [("/o/a(1,2).ts", "m.ts")]
  files := [("m.ts", "x;\r\n😀a.b;".toList)]

/-- A diagnostic behind the emoji, two errors in the configuration, and what else is printed. -/
def nestedLines : List Line :=
  [.configError "error TS5023: No.".toList,
    .reported ⟨["a(1,2).ts"], "m.ts", "x;\r\n😀a.b;".toList, 5, 18048, "a?".toList⟩,
    .other "  in".toList, .configError "c(3,5): error TS5024: Bad.".toList,
    .other []]

theorem isFrom_nestedLines : ∀ l ∈ nestedLines, l.IsFrom nestedContext := by
  have hparts : ∀ part ∈ ["a(1,2).ts"], Path.IsPart part := by
    intro part hpart
    obtain rfl := List.mem_singleton.mp hpart
    exact ⟨by decide, by decide, by decide⟩
  simp only [nestedLines, List.forall_mem_cons, List.not_mem_nil, false_imp_iff, implies_true,
    and_true]
  refine ⟨?_, ⟨hparts, ?_, ?_, ?_, ?_⟩, ?_, ?_, ?_⟩
  · show IsConfigError _ _
    decide +kernel
  · decide +kernel
  · decide +kernel
  · decide +kernel
  · decide +kernel
  · show IsOther _
    decide +kernel
  · show IsConfigError _ _
    decide +kernel
  · show IsOther _
    decide +kernel

theorem text_nestedLines : nestedLines.map Line.text =
    ["error TS5023: No.".toList, "a(1,2).ts(2,3): error TS18048: a?".toList, "  in".toList,
      "c(3,5): error TS5024: Bad.".toList, []] := by
  decide +kernel

/-- The emoji has two units and one character, and the path looks like a place up to its end. -/
theorem nested_lines_are_read :
    ['\n'].intercalate (nestedLines.map Line.text) =
      ("error TS5023: No.\na(1,2).ts(2,3): error TS18048: a?\n" ++
        "  in\nc(3,5): error TS5024: Bad.\n").toList ∧
    read nestedContext (['\n'].intercalate (nestedLines.map Line.text)) =
      ([⟨18048, some "m.ts", some 5, "a?".toList⟩],
        some (.projectConfig "error TS5023: No.\nc(3,5): error TS5024: Bad.")) := by
  have hlegible : ∀ l ∈ nestedLines, Legible nestedContext l.text := by
    rw [← List.forall_mem_map, text_nestedLines]
    decide +kernel
  have hline : ∀ l ∈ nestedLines, l.text.InLine := by
    rw [← List.forall_mem_map, text_nestedLines]
    decide +kernel
  constructor
  · rw [text_nestedLines]
    decide +kernel
  · rw [read_inverts_writing isFrom_nestedLines hline hlegible]
    rfl

end ChainGuard.CompilerOutput
