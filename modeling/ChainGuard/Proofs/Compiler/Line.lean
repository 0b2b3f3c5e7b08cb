import ChainGuard.Compiler.Output
import ChainGuard.Proofs.Text.Integer

/-!
# The lines of the compiler

What the patterns for the compiler's lines stand for, in terms of how a line is put together.

1. `CompilerOutput.Place.text`: the written form of a place and of a global error.
   `place?_eq_some_iff`, `errorPart?_eq_some_iff`: the patterns read exactly that.
2. `CompilerOutput.Located.Fits`: ways to split a line into a file and a place. `located?` finds the
   way with the shortest file (`located?_eq_some_iff`), if there is one (`located?_eq_none_iff`).
3. `CompilerOutput.located?_append`: behind a file that has no place within, a place is found where
   it starts, whatever parentheses and digits the file has.
-/

namespace ChainGuard.CompilerOutput

open Text (IsNumeral)

/-! ## 1. Written forms -/

def Place.head (p : Place) : Text :=
  '(' :: (p.line ++ (',' :: (p.column ++ ("): error TS".toList ++ (p.code ++ ": ".toList)))))

def Place.text (p : Place) : Text :=
  p.head ++ p.message

/-- The numbers of the place are numerals. -/
structure Place.IsWritten (p : Place) : Prop where
  line : p.line.IsNumeral
  column : p.column.IsNumeral
  code : p.code.IsNumeral

/-- The line is a global error with the given code and message. -/
structure IsGlobal (line code message : Text) : Prop where
  numeral : code.IsNumeral
  text_eq : line = "error TS".toList ++ (code ++ (": ".toList ++ message))

theorem after?_eq_some_iff {front t rest : Text} :
    after? front t = some rest ↔ t = front ++ rest := by
  unfold after?
  constructor
  · intro h
    split at h
    · next hprefix =>
      obtain ⟨back, rfl⟩ := List.isPrefixOf_iff_prefix.mp hprefix
      rw [List.drop_left] at h
      rw [Option.some.inj h]
    · cases h
  · rintro rfl
    rw [if_pos (List.isPrefixOf_iff_prefix.mpr (List.prefix_append front rest)), List.drop_left]

theorem digits?_eq_some {t front rest : Text} (h : digits? t = some (front, rest)) :
    front.IsNumeral ∧ t = front ++ rest := by
  unfold digits? at h
  dsimp only at h
  split at h
  · cases h
  · next hne =>
    cases h
    refine ⟨⟨fun hnil => hne (List.isEmpty_iff.mpr hnil), fun c hc => ?_⟩, ?_⟩
    · exact List.all_eq_true.mp List.all_takeWhile c hc
    · exact List.takeWhile_append_dropWhile.symm

theorem digits?_append {front : Text} (h : front.IsNumeral) {c : Char}
    (hc : Text.isDigit c = false) (rest : Text) :
    digits? (front ++ c :: rest) = some (front, c :: rest) := by
  have htake : (front ++ c :: rest).takeWhile Text.isDigit = front := by
    rw [List.takeWhile_append_of_pos h.digits, List.takeWhile_cons_of_neg (by rw [hc]; decide),
      List.append_nil]
  have hdrop : (front ++ c :: rest).dropWhile Text.isDigit = c :: rest := by
    rw [List.dropWhile_append_of_pos h.digits, List.dropWhile_cons_of_neg (by rw [hc]; decide)]
  have hne : front.isEmpty = false := List.isEmpty_eq_false_iff.mpr h.ne_nil
  unfold digits?
  dsimp only
  rw [htake, hdrop, hne]
  rfl

theorem errorPart?_eq_some_iff {t code message : Text} :
    errorPart? t = some (code, message) ↔ IsGlobal t code message := by
  constructor
  · intro h
    obtain ⟨t₁, h₁, h⟩ := Option.bind_eq_some_iff.mp h
    obtain ⟨⟨digits, t₂⟩, h₂, h⟩ := Option.bind_eq_some_iff.mp h
    obtain ⟨t₃, h₃, h⟩ := Option.bind_eq_some_iff.mp h
    cases h
    obtain ⟨hcode, rfl⟩ := digits?_eq_some h₂
    rw [after?_eq_some_iff] at h₁ h₃
    exact ⟨hcode, by rw [h₁, h₃]⟩
  · rintro ⟨hcode, rfl⟩
    have hdigits : digits? (code ++ (": ".toList ++ message)) =
        some (code, ": ".toList ++ message) := digits?_append hcode (by decide) _
    rw [errorPart?, after?_eq_some_iff.mpr rfl, Option.bind_eq_bind, Option.bind_some, hdigits]
    show (after? ": ".toList (": ".toList ++ message) >>= fun m => pure (code, m)) = _
    rw [after?_eq_some_iff.mpr rfl]
    rfl

/-- A place is read from its written form, and from nothing else. -/
theorem place?_eq_some_iff {t : Text} {p : Place} :
    place? t = some p ↔ p.IsWritten ∧ t = p.text := by
  constructor
  · intro h
    obtain ⟨t₁, h₁, h⟩ := Option.bind_eq_some_iff.mp h
    obtain ⟨⟨line, t₂⟩, h₂, h⟩ := Option.bind_eq_some_iff.mp h
    obtain ⟨t₃, h₃, h⟩ := Option.bind_eq_some_iff.mp h
    obtain ⟨⟨column, t₄⟩, h₄, h⟩ := Option.bind_eq_some_iff.mp h
    obtain ⟨t₅, h₅, h⟩ := Option.bind_eq_some_iff.mp h
    obtain ⟨⟨code, message⟩, h₆, h⟩ := Option.bind_eq_some_iff.mp h
    cases h
    obtain ⟨hline, rfl⟩ := digits?_eq_some h₂
    obtain ⟨hcolumn, rfl⟩ := digits?_eq_some h₄
    obtain ⟨hcode, rfl⟩ := errorPart?_eq_some_iff.mp h₆
    rw [after?_eq_some_iff] at h₁ h₃ h₅
    refine ⟨⟨hline, hcolumn, hcode⟩, ?_⟩
    rw [h₁, h₃, h₅]
    simp [Place.text, Place.head]
  · rintro ⟨⟨hline, hcolumn, hcode⟩, rfl⟩
    obtain ⟨line, column, code, message⟩ := p
    have herror : errorPart? ("error TS".toList ++ (code ++ (": ".toList ++ message))) =
        some (code, message) := errorPart?_eq_some_iff.mpr ⟨hcode, rfl⟩
    have hplace : after? "): ".toList (')' :: (": error TS".toList ++
        (code ++ (": ".toList ++ message)))) =
          some ("error TS".toList ++ (code ++ (": ".toList ++ message))) :=
      after?_eq_some_iff.mpr rfl
    have hcolumn := digits?_append hcolumn (c := ')') (by decide)
      (": error TS".toList ++ (code ++ (": ".toList ++ message)))
    have hline := digits?_append hline (c := ',') (by decide)
      (column ++ ')' :: (": error TS".toList ++ (code ++ (": ".toList ++ message))))
    have hwritten : Place.text ⟨line, column, code, message⟩ = "(".toList ++ (line ++ ',' ::
        (column ++ ')' :: (": error TS".toList ++ (code ++ (": ".toList ++ message))))) := by
      simp [Place.text, Place.head]
    have hcomma : ∀ rest : Text, after? ",".toList (',' :: rest) = some rest := fun rest =>
      after?_eq_some_iff.mpr rfl
    rw [hwritten, place?]
    simp only [after?_eq_some_iff.mpr rfl, hline, hcomma, hcolumn, hplace, herror,
      Option.bind_eq_bind, Option.bind_some, Option.pure_def]

/-! ## 2. Located lines -/

theorem place?_nil : place? [] = none := rfl

theorem firstPlace?_eq_some_iff {t : Text} {n : Nat} {p : Place} :
    firstPlace? t = some (n, p) ↔
      place? (t.drop n) = some p ∧ ∀ m < n, place? (t.drop m) = none := by
  induction t generalizing n with
  | nil =>
    rw [List.drop_nil, place?_nil]
    exact iff_of_false nofun fun h => nomatch h.1
  | cons c rest ih =>
    rw [firstPlace?]
    cases hhere : place? (c :: rest) with
    | some found =>
      dsimp only
      constructor
      · intro h
        cases h
        exact ⟨hhere, nofun⟩
      · rintro ⟨hn, hbefore⟩
        cases n with
        | zero =>
          cases hhere.symm.trans hn
          rfl
        | succ n => exact nomatch hhere.symm.trans (hbefore 0 (Nat.succ_pos n))
    | none =>
      dsimp only
      constructor
      · intro h
        obtain ⟨⟨k, q⟩, hk, h⟩ := Option.map_eq_some_iff.mp h
        cases h
        obtain ⟨hfound, hbefore⟩ := ih.mp hk
        refine ⟨hfound, fun m hm => ?_⟩
        cases m with
        | zero => exact hhere
        | succ m => exact hbefore m (Nat.lt_of_succ_lt_succ hm)
      · rintro ⟨hn, hbefore⟩
        cases n with
        | zero => exact nomatch hhere.symm.trans hn
        | succ n =>
          rw [ih.mpr ⟨hn, fun m hm => hbefore (m + 1) (Nat.succ_lt_succ hm)⟩]
          rfl

theorem firstPlace?_eq_none {t : Text} (h : firstPlace? t = none) (n : Nat) :
    place? (t.drop n) = none := by
  induction t generalizing n with
  | nil => rw [List.drop_nil, place?_nil]
  | cons c rest ih =>
    rw [firstPlace?] at h
    cases hhere : place? (c :: rest) with
    | some found =>
      rw [hhere] at h
      cases h
    | none =>
      rw [hhere] at h
      cases n with
      | zero => exact hhere
      | succ n => exact ih (Option.map_eq_none_iff.mp h) n

/-- The line consists of a file, which is not empty, and a place. -/
structure Located.Fits (f : Located) (line : Text) : Prop where
  file_ne_nil : f.file ≠ []
  written : f.place.IsWritten
  text_eq : line = f.file ++ f.place.text

/-- Of all ways to split the line, this one has the shortest file. -/
structure Located.IsFirst (f : Located) (line : Text) : Prop where
  fits : f.Fits line
  shortest : ∀ g : Located, g.Fits line → f.file.length ≤ g.file.length

/-- A way to split a line is a position behind its first character at which there is a place. -/
theorem fits_cons_iff {c : Char} {rest : Text} {f : Located} :
    f.Fits (c :: rest) ↔
      ∃ n ≤ rest.length, f.file = c :: rest.take n ∧ place? (rest.drop n) = some f.place := by
  obtain ⟨file, place⟩ := f
  constructor
  · rintro ⟨hne, hwritten, htext⟩
    dsimp only at hne hwritten htext
    obtain ⟨d, file, rfl⟩ := List.exists_cons_of_ne_nil hne
    rw [List.cons_append] at htext
    obtain ⟨rfl, rfl⟩ := List.cons.inj htext
    refine ⟨file.length, ?_, ?_, ?_⟩
    · rw [List.length_append]
      exact Nat.le_add_right _ _
    · rw [List.take_left]
    · rw [List.drop_left]
      exact place?_eq_some_iff.mpr ⟨hwritten, rfl⟩
  · rintro ⟨n, -, rfl, hplace⟩
    obtain ⟨hwritten, htext⟩ := place?_eq_some_iff.mp hplace
    refine ⟨List.cons_ne_nil _ _, hwritten, ?_⟩
    dsimp only
    rw [List.cons_append, ← htext, List.take_append_drop]

theorem le_length_of_place? {t : Text} {n : Nat} {p : Place} (h : place? (t.drop n) = some p) :
    n ≤ t.length := by
  refine Nat.le_of_not_lt fun hlt => ?_
  rw [List.drop_eq_nil_of_le (Nat.le_of_lt hlt), place?_nil] at h
  cases h

theorem length_cons_take (c : Char) {t : Text} {n : Nat} (h : n ≤ t.length) :
    (c :: t.take n).length = n + 1 := by
  rw [List.length_cons, List.length_take, Nat.min_eq_left h]

/-- The way with the shortest file is found. -/
theorem located?_eq_some_iff {line : Text} {f : Located} :
    located? line = some f ↔ f.IsFirst line := by
  cases line with
  | nil =>
    refine iff_of_false nofun fun h => h.fits.file_ne_nil ?_
    exact (List.append_eq_nil_iff.mp h.fits.text_eq.symm).1
  | cons c rest =>
    rw [located?]
    constructor
    · intro h
      obtain ⟨⟨n, p⟩, hfirst, rfl⟩ := Option.map_eq_some_iff.mp h
      obtain ⟨hplace, hbefore⟩ := firstPlace?_eq_some_iff.mp hfirst
      have hn := le_length_of_place? hplace
      refine ⟨fits_cons_iff.mpr ⟨n, hn, rfl, hplace⟩, fun g hg => ?_⟩
      obtain ⟨m, hm, hfile, hother⟩ := fits_cons_iff.mp hg
      rw [hfile, length_cons_take c hm]
      dsimp only
      rw [length_cons_take c hn]
      refine Nat.succ_le_succ (Nat.le_of_not_lt fun hlt => ?_)
      exact nomatch (hbefore m hlt).symm.trans hother
    · rintro ⟨hfits, hshortest⟩
      obtain ⟨n, hn, hfile, hplace⟩ := fits_cons_iff.mp hfits
      have hfirst : firstPlace? rest = some (n, f.place) := by
        refine firstPlace?_eq_some_iff.mpr ⟨hplace, fun m hm => ?_⟩
        cases hother : place? (rest.drop m) with
        | none => rfl
        | some q =>
          exfalso
          have hmlen := le_length_of_place? hother
          have hle := hshortest ⟨c :: rest.take m, q⟩ (fits_cons_iff.mpr ⟨m, hmlen, rfl, hother⟩)
          dsimp only at hle
          rw [hfile, length_cons_take c hn, length_cons_take c hmlen] at hle
          exact Nat.not_succ_le_self m (Nat.le_trans (Nat.succ_le_of_lt hm)
            (Nat.le_of_succ_le_succ hle))
      obtain ⟨file, place⟩ := f
      obtain rfl : file = c :: rest.take n := hfile
      rw [hfirst]
      rfl

theorem located?_eq_none_iff {line : Text} :
    located? line = none ↔ ∀ f : Located, ¬f.Fits line := by
  constructor
  · intro h f hf
    cases line with
    | nil => exact hf.file_ne_nil (List.append_eq_nil_iff.mp hf.text_eq.symm).1
    | cons c rest =>
      obtain ⟨n, -, -, hplace⟩ := fits_cons_iff.mp hf
      have hnone := firstPlace?_eq_none (Option.map_eq_none_iff.mp h) n
      exact nomatch hnone.symm.trans hplace
  · intro h
    rw [Option.eq_none_iff_forall_ne_some]
    intro f hf
    exact h f (located?_eq_some_iff.mp hf).fits

/-! ## 3. Files -/

/-- Nowhere in the text does a place start. -/
def HasNoPlace (t : Text) : Prop :=
  ∀ (front : Text) (p : Place), p.IsWritten → t ≠ front ++ p.text

theorem hasNoPlace_iff {t : Text} : HasNoPlace t ↔ firstPlace? t = none := by
  constructor
  · intro h
    rw [Option.eq_none_iff_forall_ne_some]
    rintro ⟨n, p⟩ hfirst
    obtain ⟨hwritten, htext⟩ := place?_eq_some_iff.mp (firstPlace?_eq_some_iff.mp hfirst).1
    exact h (t.take n) p hwritten (by rw [← htext, List.take_append_drop])
  · rintro h front p hwritten rfl
    have hnone := firstPlace?_eq_none h front.length
    rw [List.drop_left] at hnone
    exact nomatch hnone.symm.trans (place?_eq_some_iff.mpr ⟨hwritten, rfl⟩)

instance (t : Text) : Decidable (HasNoPlace t) :=
  decidable_of_iff _ hasNoPlace_iff.symm

/-- A place starts with a parenthesis, and its numbers and other signs have none. -/
theorem not_mem_tail_head {p : Place} (h : p.IsWritten) : '(' ∉ p.head.tail := by
  have hnumeral : ∀ {t : Text}, t.IsNumeral → '(' ∉ t := fun ht hmem =>
    absurd (ht.digits _ hmem) (by decide)
  have hline := hnumeral h.line
  have hcolumn := hnumeral h.column
  have hcode := hnumeral h.code
  simp [Place.head, hline, hcolumn, hcode]

/-- Behind a file with no place in it, the place is found where it starts. A place that starts
earlier would end within the file, or have a further parenthesis. -/
theorem located?_append {file : Text} {p : Place} (hfile : file ≠ []) (hnone : HasNoPlace file)
    (hp : p.IsWritten) : located? (file ++ p.text) = some ⟨file, p⟩ := by
  rw [located?_eq_some_iff]
  refine ⟨⟨hfile, hp, rfl⟩, fun g hg => Nat.le_of_not_lt fun hlt => ?_⟩
  obtain ⟨mid, hmid, htext⟩ : ∃ mid, file = g.file ++ mid ∧ g.place.text = mid ++ p.text := by
    rcases List.append_eq_append_iff.mp hg.text_eq with ⟨mid, hlonger, -⟩ | ⟨mid, hmid, htext⟩
    · have hlength := congrArg List.length hlonger
      rw [List.length_append] at hlength
      dsimp only at hlt
      omega
    · exact ⟨mid, hmid, htext⟩
  have hends : ∀ back, mid ≠ g.place.head ++ back := by
    rintro back rfl
    exact hnone g.file { g.place with message := back }
      ⟨hg.written.line, hg.written.column, hg.written.code⟩ hmid
  rw [Place.text] at htext
  rcases List.append_eq_append_iff.mp htext with ⟨back, hback, -⟩ | ⟨back, hhead, hback⟩
  · exact hends back hback
  · cases back with
    | nil => exact hends [] (by rw [hhead, List.append_nil, List.append_nil])
    | cons c back =>
      obtain rfl : '(' = c := (List.cons.inj hback).1
      cases mid with
      | nil =>
        rw [hmid, List.append_nil] at hlt
        exact Nat.lt_irrefl _ hlt
      | cons d mid =>
        refine not_mem_tail_head hg.written ?_
        rw [hhead]
        exact List.mem_append_right mid List.mem_cons_self

end ChainGuard.CompilerOutput
