import ChainGuard.Proofs.Path
import ChainGuard.Proofs.Text.Integer
import ChainGuard.Settings
import Mathlib.Data.List.TakeWhile

/-!
# Lists of codes

A list of codes stands for the set of its codes: it is read part by part, and neither the order of
the parts nor repetitions nor blank parts matter.

1. `Text.trim_surrounded`: blanks around a text.
2. `mem_distinct`, `ascends_distinct`: ascending lists without repetition stand for sets.
3. `Text.WritesPart`: the ways to write a part. `codeOfPart_of_writesPart`: each of them is read.
4. `partsOf_comma`: what a comma divides is read on its own. Main statement: `codes_are_read_back`.
-/

namespace ChainGuard

/-! ## 1. Blanks -/

namespace Text

/-- A text without blanks is what remains when blanks around it are dropped. -/
theorem trim_surrounded {before core after : Text} (hbefore : ∀ c ∈ before, isBlank c = true)
    (hcore : ∀ c ∈ core, isBlank c = false) (hafter : ∀ c ∈ after, isBlank c = true) :
    trim (before ++ (core ++ after)) = core := by
  have hstop : ∀ t : Text, (∀ c ∈ t, isBlank c = false) → t.dropWhile isBlank = t := by
    intro t ht
    refine List.dropWhile_eq_self_iff.mpr fun hpos => ?_
    rw [ht _ (List.getElem_mem hpos)]
    exact Bool.false_ne_true
  unfold trim trimWhile dropEndWhile
  rw [List.dropWhile_append_of_pos hbefore]
  cases core with
  | nil =>
    have hnone : after.dropWhile isBlank = [] := List.dropWhile_eq_nil_iff.mpr hafter
    rw [List.nil_append, hnone]
    rfl
  | cons c rest =>
    have hfirst : ¬isBlank c = true := by
      rw [hcore c List.mem_cons_self]
      exact Bool.false_ne_true
    rw [List.cons_append, List.dropWhile_cons_of_neg hfirst, ← List.cons_append,
      List.reverse_append,
      List.dropWhile_append_of_pos fun c hc => hafter c (List.mem_reverse.mp hc),
      hstop _ fun c hc => hcore c (List.mem_reverse.mp hc), List.reverse_reverse]

end Text

/-! ## 2. Sets as lists -/

theorem mem_insertDistinct {n m : Int} {codes : List Int} :
    m ∈ insertDistinct n codes ↔ m = n ∨ m ∈ codes := by
  induction codes with
  | nil => simp [insertDistinct]
  | cons k rest ih =>
    unfold insertDistinct
    split
    · exact List.mem_cons
    · split
      · next heq => simp [heq]
      · rw [List.mem_cons, ih, List.mem_cons]
        exact or_left_comm

theorem ascends_insertDistinct {n : Int} {codes : List Int} (h : codes.Pairwise (· < ·)) :
    (insertDistinct n codes).Pairwise (· < ·) := by
  induction codes with
  | nil => exact List.pairwise_singleton _ _
  | cons k rest ih =>
    obtain ⟨hfirst, hrest⟩ := List.pairwise_cons.mp h
    unfold insertDistinct
    split
    · next hlt =>
      refine List.pairwise_cons.mpr ⟨fun m hm => ?_, h⟩
      rcases List.mem_cons.mp hm with rfl | hm
      · exact hlt
      · exact Int.lt_trans hlt (hfirst m hm)
    · split
      · exact h
      · refine List.pairwise_cons.mpr ⟨fun m hm => ?_, ih hrest⟩
        rcases mem_insertDistinct.mp hm with rfl | hm
        · omega
        · exact hfirst m hm

/-- The codes of parts that were read, in ascending order and without repetition. -/
def distinct (found : List (Option Int)) : List Int :=
  (found.filterMap id).foldr insertDistinct []

theorem mem_distinct {n : Int} {found : List (Option Int)} :
    n ∈ distinct found ↔ some n ∈ found := by
  have hset : ∀ codes : List Int, n ∈ codes.foldr insertDistinct [] ↔ n ∈ codes := by
    intro codes
    induction codes with
    | nil => rfl
    | cons m rest ih => rw [List.foldr_cons, mem_insertDistinct, ih, List.mem_cons]
  rw [distinct, hset, List.mem_filterMap]
  exact ⟨fun ⟨part, hpart, heq⟩ => heq ▸ hpart, fun h => ⟨some n, h, rfl⟩⟩

theorem ascends_distinct (found : List (Option Int)) : (distinct found).Pairwise (· < ·) := by
  unfold distinct
  induction found.filterMap id with
  | nil => exact .nil
  | cons m rest ih => exact ascends_insertDistinct ih

/-! ## 3. Parts -/

namespace Text

/-- The marks in front of a code: none, or `TS` in letters of either case. -/
def codeMarks : List Text :=
  [[], ['T', 'S'], ['T', 's'], ['t', 'S'], ['t', 's']]

/-- The ways to write a part of a list of codes, and the code that they stand for, if any. -/
inductive WritesPart : Text → Option Int → Prop
  /-- Nothing but blanks. -/
  | blank {t : Text} (h : ∀ c ∈ t, isBlank c = true) : WritesPart t none
  /-- A decimal number that is not too long, with a mark in front or none, and blanks around
  both. -/
  | code {before mark numeral after : Text} (before_blank : ∀ c ∈ before, isBlank c = true)
      (isMark : mark ∈ codeMarks) (isNumeral : numeral.IsNumeral)
      (short : numeral.length ≤ IntegerError.maxDigits)
      (after_blank : ∀ c ∈ after, isBlank c = true) :
      WritesPart (before ++ ((mark ++ numeral) ++ after)) (some (decimal numeral))

/-- The usual notation of a number is a way to write it, with a mark in front or none, and blanks
around both. -/
theorem writesPart_toString {before mark after : Text} {n : Nat}
    (hbefore : ∀ c ∈ before, isBlank c = true) (hmark : mark ∈ codeMarks)
    (hshort : (toString n).length ≤ IntegerError.maxDigits)
    (hafter : ∀ c ∈ after, isBlank c = true) :
    WritesPart (before ++ ((mark ++ (toString n).toList) ++ after)) (some n) := by
  rw [← String.length_toList] at hshort
  have hwrites := WritesPart.code hbefore hmark (isNumeral_toString n) hshort hafter
  rwa [decimal_toString] at hwrites

/-- Mark and number are without blanks and commas. -/
theorem of_mem_marked {mark numeral : Text} (hmark : mark ∈ codeMarks)
    (hnumeral : numeral.IsNumeral) {c : Char} (hc : c ∈ mark ++ numeral) :
    isBlank c = false ∧ c ≠ ',' := by
  rcases List.mem_append.mp hc with hc | hc
  · have hletters : ∀ mark ∈ codeMarks, (mark.all fun c => !isBlank c && c != ',') = true := by
      decide
    have hletter := List.all_eq_true.mp (hletters mark hmark) c hc
    rwa [Bool.and_eq_true, Bool.not_eq_true', bne_iff_ne] at hletter
  · have hdigit := hnumeral.digits c hc
    exact ⟨isBlank_of_isDigit hdigit, ne_of_isDigit hdigit (by decide)⟩

theorem WritesPart.no_comma {t : Text} {value : Option Int} (h : WritesPart t value) : ',' ∉ t := by
  have hblanks : ∀ t : Text, (∀ c ∈ t, isBlank c = true) → ',' ∉ t := by
    intro t ht hc
    exact absurd (ht ',' hc) (by decide)
  cases h with
  | blank h => exact hblanks t h
  | code before_blank isMark isNumeral short after_blank =>
    rw [List.mem_append, List.mem_append, not_or, not_or]
    exact ⟨hblanks _ before_blank, fun hc => (of_mem_marked isMark isNumeral hc).2 rfl,
      hblanks _ after_blank⟩

/-- The mark in front of a number is dropped, and nothing else. -/
theorem dropCodeMark_append {mark numeral : Text} (hmark : mark ∈ codeMarks)
    (hnumeral : numeral.IsNumeral) : dropCodeMark (mark ++ numeral) = numeral := by
  simp only [codeMarks, List.mem_cons, List.not_mem_nil, or_false] at hmark
  rcases hmark with rfl | rfl | rfl | rfl | rfl
  · unfold dropCodeMark
    rw [List.nil_append]
    split
    · next a b rest =>
      have hdigit := hnumeral.digits a List.mem_cons_self
      have hlower := ne_of_isDigit hdigit (d := 't') (by decide)
      have hupper := ne_of_isDigit hdigit (d := 'T') (by decide)
      rw [if_neg (by simp [hlower, hupper])]
    · rfl
  all_goals rfl

end Text

/-- Every way to write a part is read as the code that it stands for. -/
theorem codeOfPart_of_writesPart {part : Text} {value : Option Int} (h : part.WritesPart value) :
    codeOfPart part = .ok value := by
  unfold codeOfPart
  dsimp only
  cases h with
  | blank h =>
    have hnone : part.trim = [] := by
      have htrim : Text.trim (part ++ ([] ++ [])) = [] := Text.trim_surrounded h nofun nofun
      rwa [List.append_nil, List.append_nil] at htrim
    rw [hnone]
    rfl
  | @code before mark numeral after before_blank isMark isNumeral short after_blank =>
    have hcore := fun c hc => (Text.of_mem_marked isMark isNumeral (c := c) hc).1
    have hne : (mark ++ numeral).isEmpty = false :=
      List.isEmpty_eq_false_iff.mpr (List.append_ne_nil_of_right_ne_nil _ isNumeral.ne_nil)
    rw [Text.trim_surrounded before_blank hcore after_blank, hne, if_neg Bool.false_ne_true,
      Text.dropCodeMark_append isMark isNumeral, Text.toInteger_of_isNumeral isNumeral,
      if_neg (Nat.not_lt.mpr short)]
    rfl

/-! ## 4. Lists -/

theorem Text.splitOnChar_append_sep (sep : Char) (u v : Text) :
    splitOnChar sep (u ++ sep :: v) = splitOnChar sep u ++ splitOnChar sep v := by
  induction u with
  | nil =>
    rw [List.nil_append]
    exact if_pos rfl
  | cons c rest ih =>
    rw [List.cons_append, splitOnChar, splitOnChar, ih]
    split
    · rfl
    · cases hrest : splitOnChar sep rest with
      | nil => exact absurd hrest (splitOnChar_ne_nil sep rest)
      | cons first others => rfl

/-- What the parts of a list stand for, one after the other. -/
def partsOf (t : Text) : Except IntegerError (List (Option Int)) :=
  (Text.splitOnChar ',' t).mapM codeOfPart

theorem parseCodes_eq (t : Text) : parseCodes t = (partsOf t).map distinct := by
  unfold parseCodes partsOf
  cases (Text.splitOnChar ',' t).mapM codeOfPart <;> rfl

theorem parseCodes_eq_ok_iff {t : Text} {codes : List Int} :
    parseCodes t = .ok codes ↔ ∃ found, partsOf t = .ok found ∧ distinct found = codes := by
  rw [parseCodes_eq]
  cases partsOf t with
  | error e => simp [Except.map]
  | ok found => simp [Except.map]

/-- What stands on the sides of a comma is read on its own. -/
theorem partsOf_comma (u v : Text) :
    partsOf (u ++ ',' :: v) =
      (do
        let before ← partsOf u
        let after ← partsOf v
        pure (before ++ after)) := by
  unfold partsOf
  rw [Text.splitOnChar_append_sep, List.mapM_append]

theorem partsOf_comma_eq_ok_iff {u v : Text} {found : List (Option Int)} :
    partsOf (u ++ ',' :: v) = .ok found ↔
      ∃ before after, partsOf u = .ok before ∧ partsOf v = .ok after ∧ before ++ after = found := by
  rw [partsOf_comma]
  cases partsOf u with
  | error e => simp [bind, Except.bind]
  | ok before =>
    cases partsOf v with
    | error e => simp [bind, Except.bind]
    | ok after => simp [bind, Except.bind, pure, Except.pure]

/-- A list of parts that are written as they should be is read part by part. By induction on the
parts: the first comma divides the first part from the others. -/
theorem partsOf_intercalate {parts : List Text}
    (h : ∀ part ∈ parts, ∃ value, part.WritesPart value) :
    ∃ found, partsOf ([','].intercalate parts) = .ok found ∧
      ∀ n, some n ∈ found ↔ ∃ part ∈ parts, part.WritesPart (some n) := by
  induction parts with
  | nil => exact ⟨[none], rfl, fun n => by simp⟩
  | cons part rest ih =>
    obtain ⟨value, hvalue⟩ := h part List.mem_cons_self
    have hfirst : partsOf part = .ok [value] := by
      unfold partsOf
      rw [Text.splitOnChar_of_not_mem hvalue.no_comma, List.mapM_cons,
        codeOfPart_of_writesPart hvalue]
      rfl
    have hmem : ∀ n, some n ∈ [value] ↔ part.WritesPart (some n) := by
      intro n
      rw [List.mem_singleton]
      refine ⟨fun heq => heq ▸ hvalue, fun hn => ?_⟩
      exact Except.ok.inj
        ((codeOfPart_of_writesPart hn).symm.trans (codeOfPart_of_writesPart hvalue))
    cases rest with
    | nil =>
      refine ⟨[value], ?_, fun n => by rw [hmem]; simp⟩
      rw [← hfirst]
      simp [List.intercalate]
    | cons next others =>
      obtain ⟨found, hfound, hrest⟩ := ih fun part hpart => h part (List.mem_cons_of_mem _ hpart)
      have hjoin : [','].intercalate (part :: next :: others) =
          part ++ ',' :: [','].intercalate (next :: others) := rfl
      refine ⟨[value] ++ found, ?_, fun n => ?_⟩
      · rw [hjoin]
        exact partsOf_comma_eq_ok_iff.mpr ⟨_, _, hfirst, hfound, rfl⟩
      · rw [List.mem_append, hmem, hrest]
        simp

/-- Lists of codes are read as sets, which stand in ascending order. A list of parts that are
written as they should be is read as the codes of its parts, and so a number of at most
`IntegerError.maxDigits` digits may be written, with a mark in front or none and blanks around.
Lists that are divided by a comma are read exactly if both of them are read, and then as the codes
of both. -/
theorem codes_are_read_back :
    (∀ t codes, parseCodes t = .ok codes → codes.Pairwise (· < ·)) ∧
    (∀ (before mark after : Text) (n : Nat), (∀ c ∈ before, Text.isBlank c = true) →
      mark ∈ Text.codeMarks → (toString n).length ≤ IntegerError.maxDigits →
      (∀ c ∈ after, Text.isBlank c = true) →
      Text.WritesPart (before ++ ((mark ++ (toString n).toList) ++ after)) (some n)) ∧
    (∀ parts : List Text, (∀ part ∈ parts, ∃ value, part.WritesPart value) →
      ∃ codes, parseCodes ([','].intercalate parts) = .ok codes ∧
        ∀ n, n ∈ codes ↔ ∃ part ∈ parts, part.WritesPart (some n)) ∧
    ∀ u v : Text,
      ((∃ codes, parseCodes (u ++ ',' :: v) = .ok codes) ↔
        (∃ codes, parseCodes u = .ok codes) ∧ ∃ codes, parseCodes v = .ok codes) ∧
      ∀ a b codes, parseCodes u = .ok a → parseCodes v = .ok b →
        parseCodes (u ++ ',' :: v) = .ok codes → ∀ n, n ∈ codes ↔ n ∈ a ∨ n ∈ b := by
  simp only [parseCodes_eq_ok_iff]
  refine ⟨?_, fun before mark after n => Text.writesPart_toString, fun parts h => ?_,
    fun u v => ⟨⟨?_, ?_⟩, ?_⟩⟩
  · rintro t codes ⟨found, -, rfl⟩
    exact ascends_distinct found
  · obtain ⟨found, hfound, hmem⟩ := partsOf_intercalate h
    exact ⟨_, ⟨found, hfound, rfl⟩, fun n => mem_distinct.trans (hmem n)⟩
  · rintro ⟨codes, found, hfound, -⟩
    obtain ⟨before, after, hbefore, hafter, -⟩ := partsOf_comma_eq_ok_iff.mp hfound
    exact ⟨⟨_, before, hbefore, rfl⟩, ⟨_, after, hafter, rfl⟩⟩
  · rintro ⟨⟨_, before, hbefore, rfl⟩, ⟨_, after, hafter, rfl⟩⟩
    exact ⟨_, _, partsOf_comma_eq_ok_iff.mpr ⟨before, after, hbefore, hafter, rfl⟩, rfl⟩
  · rintro a b codes ⟨before, hbefore, rfl⟩ ⟨after, hafter, rfl⟩ ⟨found, hfound, rfl⟩ n
    obtain ⟨_, _, hbefore', hafter', rfl⟩ := partsOf_comma_eq_ok_iff.mp hfound
    cases hbefore.symm.trans hbefore'
    cases hafter.symm.trans hafter'
    rw [mem_distinct, List.mem_append, mem_distinct, mem_distinct]

/-- A part with a mark in front of the code and blanks on both sides. -/
theorem writesPart_marked : Text.WritesPart " TS2532 ".toList (some 2532) :=
  @Text.WritesPart.code [' '] ['T', 'S'] "2532".toList [' '] (List.forall_mem_singleton.mpr rfl)
    (by decide) (by decide) (by decide) (List.forall_mem_singleton.mpr rfl)

theorem writesPart_smallMark : Text.WritesPart "ts2722".toList (some 2722) :=
  @Text.WritesPart.code [] ['t', 's'] "2722".toList []
    nofun (by decide) (by decide) (by decide) nofun

/-- Both codes of a list with marks, blanks and an empty part are read. -/
theorem marked_codes_are_read :
    let parts : List Text := [" TS2532 ".toList, "ts2722".toList, []]
    (∀ part ∈ parts, ∃ value, part.WritesPart value) ∧
    ∃ codes, parseCodes ([','].intercalate parts) = .ok codes ∧ 2532 ∈ codes ∧ 2722 ∈ codes := by
  intro parts
  have hparts : ∀ part ∈ parts, ∃ value, part.WritesPart value := by
    intro part hpart
    simp only [parts, List.mem_cons, List.not_mem_nil, or_false] at hpart
    rcases hpart with rfl | rfl | rfl
    · exact ⟨_, writesPart_marked⟩
    · exact ⟨_, writesPart_smallMark⟩
    · exact ⟨none, .blank nofun⟩
  obtain ⟨codes, hcodes, hmem⟩ := codes_are_read_back.2.2.1 parts hparts
  exact ⟨hparts, codes, hcodes, (hmem _).mpr ⟨_, List.mem_cons_self, writesPart_marked⟩,
    (hmem _).mpr ⟨_, List.mem_cons_of_mem _ List.mem_cons_self, writesPart_smallMark⟩⟩

end ChainGuard
