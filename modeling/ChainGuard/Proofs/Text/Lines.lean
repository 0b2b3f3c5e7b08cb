import ChainGuard.Text.Lines
import ChainGuard.Proofs.Text.Integer

/-!
# Joined lines

Lines that are joined by line feeds fall apart into themselves, if none of them has a separator.
Every line of a text stands in the text. Lines that were cut from texts can be joined in another
order, as long as all but the last of them have their ends: then the whole has just these lines.
A text that has no other separators can be cut at line feeds alone.
-/

namespace ChainGuard.Text

/-- The text is part of one line. -/
def InLine (t : Text) : Prop :=
  ∀ c ∈ t, isLineSeparator c = false

instance (t : Text) : Decidable t.InLine :=
  decidable_of_iff (t.all fun c => !isLineSeparator c) (by simp [InLine])

theorem InLine.append {t u : Text} (ht : InLine t) (hu : InLine u) : InLine (t ++ u) :=
  List.forall_mem_append.mpr ⟨ht, hu⟩

/-- A digit of any script stands within a line. -/
theorem isLineSeparator_of_isDigit {c : Char} (h : isDigit c = true) :
    isLineSeparator c = false := by
  have hblank := isBlank_of_isDigit h
  simp only [isBlank, isLineSeparator, Bool.or_eq_false_iff, Bool.and_eq_false_iff,
    decide_eq_false_iff_not, beq_eq_false_iff_ne] at hblank ⊢
  omega

theorem chomp_append {line : Text} (h : line.InLine) {ends : Text}
    (hends : ∀ c ∈ ends, isLineSeparator c = true) : chomp (line ++ ends) = line := by
  have hstop : line.reverse.dropWhile isLineSeparator = line.reverse := by
    cases hrev : line.reverse with
    | nil => rfl
    | cons c rest =>
      have hc : c ∈ line := by
        rw [← List.mem_reverse, hrev]
        exact List.mem_cons_self
      exact List.dropWhile_cons_of_neg (by rw [h c hc]; decide)
  rw [chomp, List.reverse_append,
    List.dropWhile_append_of_pos fun c hc => hends c (List.mem_reverse.mp hc), hstop,
    List.reverse_reverse]

theorem linesWithEnds_cons {c : Char} (h : isLineSeparator c = false) (t : Text) :
    linesWithEnds (c :: t) = consFirst c (linesWithEnds t) := by
  rw [linesWithEnds, if_neg (by rw [h]; decide)]
  rintro rest rfl
  cases h

/-- A line without line feed is the last one. -/
theorem linesWithEnds_of_inLine {line : Text} (h : line.InLine) (hne : line ≠ []) :
    linesWithEnds line = [line] := by
  induction line with
  | nil => exact absurd rfl hne
  | cons c line ih =>
    have hline : InLine line := fun d hd => h d (List.mem_cons_of_mem c hd)
    rw [linesWithEnds_cons (h c List.mem_cons_self)]
    cases line with
    | nil => rfl
    | cons d line =>
      rw [ih hline (List.cons_ne_nil d line)]
      rfl

theorem linesWithEnds_append {line : Text} (h : line.InLine) (rest : Text) :
    linesWithEnds (line ++ '\n' :: rest) = (line ++ ['\n']) :: linesWithEnds rest := by
  induction line with
  | nil =>
    rw [List.nil_append, linesWithEnds]
    · rfl
    · intro _ h
      exact absurd h (by decide)
  | cons c line ih =>
    have hc := h c List.mem_cons_self
    have hline : InLine line := fun d hd => h d (List.mem_cons_of_mem c hd)
    rw [List.cons_append, linesWithEnds_cons hc, ih hline]
    rfl

theorem lines_append {line : Text} (h : line.InLine) (rest : Text) :
    lines (line ++ '\n' :: rest) = line :: lines rest := by
  rw [lines, linesWithEnds_append h, List.map_cons, lines,
    chomp_append h (fun c hc => by rw [List.mem_singleton.mp hc]; rfl)]

theorem lines_of_inLine {line : Text} (h : line.InLine) (hne : line ≠ []) :
    lines line = [line] := by
  have hchomp : chomp (line ++ []) = line := chomp_append h nofun
  rw [List.append_nil] at hchomp
  rw [lines, linesWithEnds_of_inLine h hne, List.map_singleton, hchomp]

/-! ## Lines of a text -/

theorem flatten_consFirst (c : Char) (lines : List Text) :
    (consFirst c lines).flatten = c :: lines.flatten := by
  cases lines <;> rfl

/-- The lines with their separators join to the text again. -/
theorem flatten_linesWithEnds (t : Text) : (linesWithEnds t).flatten = t := by
  induction t using linesWithEnds.induct with
  | case1 => rfl
  | case2 rest ih =>
    rw [linesWithEnds, List.flatten_cons, ih]
    rfl
  | case3 c rest hne hsep ih =>
    rw [linesWithEnds, if_pos hsep, List.flatten_cons, ih, List.singleton_append]
    exact hne
  | case4 c rest hne hsep ih =>
    rw [linesWithEnds, if_neg hsep, flatten_consFirst, ih]
    exact hne

theorem chomp_isPrefix (line : Text) : chomp line <+: line := by
  have hsuffix :=
    List.reverse_prefix.mpr (List.dropWhile_suffix (l := line.reverse) isLineSeparator)
  rwa [List.reverse_reverse] at hsuffix

theorem isInfix_of_mem_lines {line t : Text} (h : line ∈ t.lines) : line <:+: t := by
  obtain ⟨whole, hwhole, rfl⟩ := List.mem_map.mp h
  have hinfix := List.infix_of_mem_flatten hwhole
  rw [flatten_linesWithEnds] at hinfix
  exact (chomp_isPrefix whole).isInfix.trans hinfix

/-! ## Single lines -/

/-- The text is one line. -/
def IsLine (t : Text) : Prop :=
  linesWithEnds t = [t]

def isEnded (t : Text) : Bool :=
  t.getLast?.any isLineSeparator

theorem isEnded_append {rest : Text} (hne : rest ≠ []) (t : Text) :
    isEnded (t ++ rest) = isEnded rest := by
  rw [isEnded, List.getLast?_append, List.getLast?_eq_some_getLast hne, Option.some_or, isEnded,
    List.getLast?_eq_some_getLast hne]

theorem IsLine.ne_nil {t : Text} (h : IsLine t) : t ≠ [] := by
  rintro rfl
  cases h

theorem IsLine.cons {t : Text} (h : IsLine t) {c : Char} (hc : isLineSeparator c = false) :
    IsLine (c :: t) := by
  rw [IsLine, linesWithEnds_cons hc, h]
  rfl

theorem linesWithEnds_eq_nil {t : Text} (h : linesWithEnds t = []) : t = [] := by
  rw [← flatten_linesWithEnds t, h]
  rfl

/-- What a single line is, character by character. -/
theorem IsLine.cases {c : Char} {t : Text} (h : IsLine (c :: t)) :
    c = '\r' ∧ t = ['\n'] ∨ isLineSeparator c = true ∧ t = [] ∨
      isLineSeparator c = false ∧ (t = [] ∨ IsLine t) := by
  by_cases hc : isLineSeparator c = true
  · by_cases hboth : c = '\r' ∧ ∃ rest, t = '\n' :: rest
    · obtain ⟨rfl, rest, rfl⟩ := hboth
      rw [IsLine, linesWithEnds] at h
      have hrest := (List.cons.inj h).1
      exact Or.inl ⟨rfl, by rw [← (List.cons.inj (List.cons.inj hrest).2).2]⟩
    · have hlines : linesWithEnds (c :: t) = [c] :: linesWithEnds t := by
        rw [linesWithEnds, if_pos hc]
        rintro rest rfl rfl
        exact hboth ⟨rfl, rest, rfl⟩
      rw [IsLine, hlines] at h
      exact Or.inr (Or.inl ⟨hc, (List.cons.inj (List.cons.inj h).1).2.symm⟩)
  · rw [Bool.not_eq_true] at hc
    refine Or.inr (Or.inr ⟨hc, ?_⟩)
    rw [IsLine, linesWithEnds_cons hc] at h
    cases hrest : linesWithEnds t with
    | nil => exact Or.inl (linesWithEnds_eq_nil hrest)
    | cons first others =>
      rw [hrest] at h
      obtain ⟨hfirst, rfl⟩ := List.cons.inj h
      rw [(List.cons.inj hfirst).2] at hrest
      exact Or.inr hrest

/-- A line without its end has no separator at all. -/
theorem IsLine.inLine {t : Text} (h : IsLine t) (hend : isEnded t = false) : InLine t := by
  induction t with
  | nil => exact fun c hc => nomatch hc
  | cons c t ih =>
    rcases h.cases with ⟨rfl, rfl⟩ | ⟨hc, rfl⟩ | ⟨hc, rfl | ht⟩
    · exact absurd hend (by decide)
    · rw [isEnded, List.getLast?_singleton, Option.any_some, hc] at hend
      cases hend
    · intro d hd
      rwa [List.mem_singleton.mp hd]
    · have hrest := isEnded_append ht.ne_nil [c]
      rw [List.singleton_append, hend] at hrest
      intro d hd
      rcases List.mem_cons.mp hd with rfl | hd
      · exact hc
      · exact ih ht hrest.symm d hd

/-- A line with its end is the first line of a text that starts with it, unless the end goes on. -/
theorem linesWithEnds_append_of_isEnded {line : Text} (h : IsLine line)
    (hend : isEnded line = true) {rest : Text} (hrest : rest.head? ≠ some '\n') :
    linesWithEnds (line ++ rest) = line :: linesWithEnds rest := by
  induction line with
  | nil => exact absurd rfl h.ne_nil
  | cons c line ih =>
    rcases h.cases with ⟨rfl, rfl⟩ | ⟨hc, rfl⟩ | ⟨hc, rfl | hline⟩
    · rfl
    · rw [List.singleton_append, linesWithEnds, if_pos hc]
      rintro others rfl rfl
      exact hrest rfl
    · rw [isEnded, List.getLast?_singleton, Option.any_some, hc] at hend
      cases hend
    · have hsame := isEnded_append hline.ne_nil [c]
      rw [List.singleton_append, hend] at hsame
      rw [List.cons_append, linesWithEnds_cons hc, ih hline hsame.symm]
      rfl

/-- A text without a separator becomes part of the line behind it. -/
theorem linesWithEnds_append_of_inLine {t : Text} (h : InLine t) {rest first : Text}
    {others : List Text} (hrest : linesWithEnds rest = first :: others) :
    linesWithEnds (t ++ rest) = (t ++ first) :: others := by
  induction t with
  | nil => exact hrest
  | cons c t ih =>
    rw [List.cons_append, linesWithEnds_cons (h c List.mem_cons_self),
      ih fun d hd => h d (List.mem_cons_of_mem c hd)]
    rfl

theorem eq_or_mem_dropLast {first line : Text} {others : List Text}
    (h : line ∈ (first :: others).dropLast) : line = first ∨ line ∈ others.dropLast := by
  cases others with
  | nil => cases h
  | cons second others => exact List.mem_cons.mp h

/-- The lines of a text are single lines, and all but the last have their ends. -/
theorem isLine_linesWithEnds (t : Text) : (∀ line ∈ linesWithEnds t, IsLine line) ∧
    ∀ line ∈ (linesWithEnds t).dropLast, isEnded line = true := by
  induction t using linesWithEnds.induct with
  | case1 => exact ⟨fun _ h => (List.not_mem_nil h).elim, fun _ h => (List.not_mem_nil h).elim⟩
  | case2 rest ih =>
    have hfirst : IsLine ['\r', '\n'] := rfl
    rw [linesWithEnds]
    refine ⟨List.forall_mem_cons.mpr ⟨hfirst, ih.1⟩, fun line hline => ?_⟩
    rcases eq_or_mem_dropLast hline with rfl | hline
    · rfl
    · exact ih.2 line hline
  | case3 c rest hne hsep ih =>
    have hfirst : IsLine [c] := by
      rw [IsLine, linesWithEnds, if_pos hsep]
      · rfl
      · rintro others rfl ⟨⟩
    rw [linesWithEnds, if_pos hsep]
    · refine ⟨List.forall_mem_cons.mpr ⟨hfirst, ih.1⟩, fun line hline => ?_⟩
      rcases eq_or_mem_dropLast hline with rfl | hline
      · exact hsep
      · exact ih.2 line hline
    · exact hne
  | case4 c rest hne hsep ih =>
    rw [Bool.not_eq_true] at hsep
    rw [linesWithEnds_cons hsep]
    cases hrest : linesWithEnds rest with
    | nil =>
      refine ⟨fun line hline => ?_, fun _ h => (List.not_mem_nil h).elim⟩
      rw [List.mem_singleton.mp hline, IsLine, linesWithEnds_cons hsep]
      rfl
    | cons first others =>
      rw [hrest] at ih
      refine ⟨List.forall_mem_cons.mpr
        ⟨(ih.1 first List.mem_cons_self).cons hsep, (List.forall_mem_cons.mp ih.1).2⟩, ?_⟩
      intro line hline
      cases others with
      | nil => cases hline
      | cons second others =>
        rcases List.mem_cons.mp hline with rfl | hline
        · have hfirst := ih.1 first List.mem_cons_self
          have hend := isEnded_append hfirst.ne_nil [c]
          rw [ih.2 first List.mem_cons_self] at hend
          exact hend
        · exact ih.2 line (List.mem_cons_of_mem _ hline)

/-- Lines with their ends are the first lines of any text that starts with them. -/
theorem linesWithEnds_flatten_append {front : List Text} (hfront : ∀ line ∈ front, IsLine line)
    (hends : ∀ line ∈ front, isEnded line = true)
    (hstarts : ∀ line ∈ front, line.head? ≠ some '\n') {rest : Text}
    (hrest : rest.head? ≠ some '\n') :
    linesWithEnds (front.flatten ++ rest) = front ++ linesWithEnds rest := by
  induction front with
  | nil => rfl
  | cons line front ih =>
    obtain ⟨hline, hfront⟩ := List.forall_mem_cons.mp hfront
    obtain ⟨hend, hends⟩ := List.forall_mem_cons.mp hends
    obtain ⟨-, hstarts⟩ := List.forall_mem_cons.mp hstarts
    have hnext : (front.flatten ++ rest).head? ≠ some '\n' := by
      cases front with
      | nil => exact hrest
      | cons second front =>
        have hsecond := hfront second List.mem_cons_self
        have hstart := hstarts second List.mem_cons_self
        cases second with
        | nil => exact absurd rfl hsecond.ne_nil
        | cons c second => exact hstart
    rw [List.flatten_cons, List.append_assoc, linesWithEnds_append_of_isEnded hline hend hnext,
      ih hfront hends hstarts]
    rfl

/-! ## Line feeds -/

/-- The lines of a text that is cut at line feeds alone, each with its line feed. -/
def feedLines : Text → List Text
  | [] => []
  | c :: rest => if c = '\n' then [c] :: feedLines rest else consFirst c (feedLines rest)

/-- A line feed is the only separator of the text. -/
def HasOnlyFeeds (t : Text) : Prop :=
  ∀ c ∈ t, isLineSeparator c = true → c = '\n'

theorem hasOnlyFeeds_append {t u : Text} :
    HasOnlyFeeds (t ++ u) ↔ HasOnlyFeeds t ∧ HasOnlyFeeds u :=
  List.forall_mem_append

theorem InLine.hasOnlyFeeds {t : Text} (h : InLine t) : HasOnlyFeeds t := by
  intro c hc hsep
  rw [h c hc] at hsep
  cases hsep

theorem hasOnlyFeeds_feed : HasOnlyFeeds ['\n'] :=
  fun _ hc _ => List.mem_singleton.mp hc

theorem HasOnlyFeeds.of_mem_linesWithEnds {t line : Text} (h : HasOnlyFeeds t)
    (hline : line ∈ linesWithEnds t) : HasOnlyFeeds line := by
  have hpart := List.infix_of_mem_flatten hline
  rw [flatten_linesWithEnds] at hpart
  exact fun c hc => h c (hpart.subset hc)

theorem HasOnlyFeeds.linesWithEnds_eq {t : Text} (h : HasOnlyFeeds t) :
    linesWithEnds t = feedLines t := by
  induction t with
  | nil => rfl
  | cons c t ih =>
    have ht : HasOnlyFeeds t := fun d hd => h d (List.mem_cons_of_mem c hd)
    by_cases hfeed : c = '\n'
    · have hempty : InLine [] := fun _ hd => nomatch hd
      have hlines := linesWithEnds_append hempty t
      rw [List.nil_append, ih ht] at hlines
      rw [hfeed, hlines, feedLines, if_pos rfl, List.nil_append]
    · have hsep := Bool.eq_false_iff.mpr fun hsep => hfeed (h c List.mem_cons_self hsep)
      rw [linesWithEnds_cons hsep, ih ht, feedLines, if_neg hfeed]

end ChainGuard.Text
