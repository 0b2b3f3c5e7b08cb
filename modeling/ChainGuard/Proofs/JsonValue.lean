import ChainGuard.JsonValue.Reader
import ChainGuard.JsonValue.Writer
import ChainGuard.Proofs.Dict
import ChainGuard.Text.Lines

/-!
# Reading what was written

A JSON value that is written and read again is the same value. This holds of every value without
numbers in which no object names a member twice, if it has no more levels than are read.

1. `readString_renderText`: strings, with every character escaped or not.
2. `IsPlain`, `IsPlain.readsBack`: values, at any level and before any rest of the text.
3. `read_render`: whole texts. `unifyLineEnds_render`: they hold no carriage return, so nothing is
   lost where line ends are unified.
-/

namespace ChainGuard.JsonValue

/-! ## 1. Strings -/

theorem hexValue?_digitChar : ∀ d < 16, hexValue? (Nat.digitChar d) = some d := by
  decide

/-- A UTF-16 unit in four hexadecimal digits. -/
theorem hex_four {n : Nat} (h : n < 0x10000) :
    Text.hex 4 n = [Nat.digitChar (n / 0x1000), Nat.digitChar (n / 0x100 % 0x10),
      Nat.digitChar (n / 0x10 % 0x10), Nat.digitChar (n % 0x10)] := by
  have hstep : ∀ k, 16 ≤ k →
      Nat.toDigits 16 k = Nat.toDigits 16 (k / 16) ++ [Nat.digitChar (k % 16)] :=
    fun k => Nat.toDigits_of_base_le (by decide)
  have hlast : ∀ k, k < 16 → Nat.toDigits 16 k = [Nat.digitChar k] :=
    fun k => Nat.toDigits_of_lt_base
  have hzeros : ∀ k, k = 0 → Nat.digitChar k = '0' := by
    rintro k rfl
    rfl
  have htwo : n / 16 / 16 = n / 0x100 := Nat.div_div_eq_div_mul n 16 16
  have hthree : n / 16 / 16 / 16 = n / 0x1000 := by
    rw [htwo]
    exact Nat.div_div_eq_div_mul n 0x100 16
  unfold Text.hex
  by_cases h₁ : n < 0x10
  · rw [hlast n h₁, hzeros (n / 0x1000) (by omega), hzeros (n / 0x100 % 0x10) (by omega),
      hzeros (n / 0x10 % 0x10) (by omega), Nat.mod_eq_of_lt h₁]
    rfl
  by_cases h₂ : n < 0x100
  · rw [hstep n (by omega), hlast (n / 16) (by omega), hzeros (n / 0x1000) (by omega),
      hzeros (n / 0x100 % 0x10) (by omega), Nat.mod_eq_of_lt (a := n / 0x10) (by omega)]
    rfl
  by_cases h₃ : n < 0x1000
  · rw [hstep n (by omega), hstep (n / 16) (by omega), hlast (n / 16 / 16) (by omega), htwo,
      hzeros (n / 0x1000) (by omega), Nat.mod_eq_of_lt (a := n / 0x100) (by omega)]
    rfl
  · rw [hstep n (by omega), hstep (n / 16) (by omega), hstep (n / 16 / 16) (by omega),
      hlast (n / 16 / 16 / 16) (by omega), hthree, htwo]
    rfl

theorem unit?_hex {n : Nat} (h : n < 0x10000) (rest : Text) :
    unit? (Text.hex 4 n ++ rest) = some n := by
  rw [hex_four h]
  simp only [List.cons_append, unit?, hexValue?_digitChar _ (show n / 0x1000 < 16 by omega),
    hexValue?_digitChar _ (Nat.mod_lt (n / 0x100) (show 16 > 0 by decide)),
    hexValue?_digitChar _ (Nat.mod_lt (n / 0x10) (show 16 > 0 by decide)),
    hexValue?_digitChar _ (Nat.mod_lt n (show 16 > 0 by decide)), Option.bind_eq_bind,
    Option.bind_some, Option.pure_def, Option.some.injEq]
  omega

theorem length_hex {n : Nat} (h : n < 0x10000) : (Text.hex 4 n).length = 4 := by
  rw [hex_four h]
  rfl

theorem drop_hex {n : Nat} (h : n < 0x10000) (rest : Text) :
    (Text.hex 4 n ++ rest).drop 4 = rest := by
  rw [hex_four h]
  rfl

/-- A character that is one unit is read from its escape. The string goes on after it. -/
theorem unitEscape?_unit {c : Char} (hc : c.toNat < 0x10000) {rest : Text} (hrest : rest ≠ []) :
    unitEscape? (Text.hex 4 c.toNat ++ rest) = .ok (c, rest) := by
  have hlength : ¬(Text.hex 4 c.toNat ++ rest).length ≤ 4 := by
    have hpos := List.length_pos_iff.mpr hrest
    rw [List.length_append, length_hex hc]
    omega
  have hhigh : isHighSurrogate c.toNat = false := by
    have hvalid : c.toNat < 0xd800 ∨ 0xdfff < c.toNat ∧ c.toNat < 0x110000 := c.valid
    simp only [isHighSurrogate, Bool.and_eq_false_iff, decide_eq_false_iff_not]
    omega
  have hlow : isLowSurrogate c.toNat = false := by
    have hvalid : c.toNat < 0xd800 ∨ 0xdfff < c.toNat ∧ c.toNat < 0x110000 := c.valid
    simp only [isLowSurrogate, Bool.and_eq_false_iff, decide_eq_false_iff_not]
    omega
  unfold unitEscape?
  rw [if_neg hlength, unit?_hex hc]
  dsimp only
  rw [drop_hex hc, hhigh, Bool.false_and]
  dsimp only
  rw [unitChar, hhigh, hlow, Bool.or_false, if_neg Bool.false_ne_true, Char.ofNat_toNat]

/-- Two units that belong together are read from the escapes of both. -/
theorem unitEscape?_surrogates {high low : Nat} (hhigh : isHighSurrogate high = true)
    (hlow : isLowSurrogate low = true) {rest : Text} (hrest : rest ≠ []) :
    unitEscape? (Text.hex 4 high ++ unitEscape low ++ rest) =
      .ok (Char.ofNat (0x10000 + (high - 0xd800) * 0x400 + (low - 0xdc00)), rest) := by
  have hhighUnit : high < 0x10000 := by
    simp only [isHighSurrogate, Bool.and_eq_true, decide_eq_true_eq] at hhigh
    omega
  have hlowUnit : low < 0x10000 := by
    simp only [isLowSurrogate, Bool.and_eq_true, decide_eq_true_eq] at hlow
    omega
  have hpos := List.length_pos_iff.mpr hrest
  have hlength : ¬(Text.hex 4 high ++ unitEscape low ++ rest).length ≤ 4 := by
    rw [List.length_append, List.length_append, length_hex hhighUnit]
    omega
  have hescape : unitEscape low ++ rest = '\\' :: 'u' :: (Text.hex 4 low ++ rest) := rfl
  have hlong : 6 < ('\\' :: 'u' :: (Text.hex 4 low ++ rest)).length := by
    rw [List.length_cons, List.length_cons, List.length_append, length_hex hlowUnit]
    omega
  unfold unitEscape?
  rw [if_neg hlength, List.append_assoc, unit?_hex hhighUnit]
  dsimp only
  rw [drop_hex hhighUnit, hescape, hhigh, decide_eq_true hlong, Bool.and_self]
  simp only [unit?_hex hlowUnit, hlow, if_true, drop_hex hlowUnit]

/-- A character that is two units is read from the escapes of both. -/
theorem unitEscape?_pair {c : Char} (hc : ¬c.toNat < 0x10000) {rest : Text} (hrest : rest ≠ []) :
    unitEscape? (Text.hex 4 (0xd800 + (c.toNat - 0x10000) / 0x400) ++
      unitEscape (0xdc00 + (c.toNat - 0x10000) % 0x400) ++ rest) = .ok (c, rest) := by
  have hvalid : c.toNat < 0xd800 ∨ 0xdfff < c.toNat ∧ c.toNat < 0x110000 := c.valid
  have hsum := Nat.div_add_mod (c.toNat - 0x10000) 0x400
  have hhigh : isHighSurrogate (0xd800 + (c.toNat - 0x10000) / 0x400) = true := by
    simp only [isHighSurrogate, Bool.and_eq_true, decide_eq_true_eq]
    omega
  have hlow : isLowSurrogate (0xdc00 + (c.toNat - 0x10000) % 0x400) = true := by
    simp only [isLowSurrogate, Bool.and_eq_true, decide_eq_true_eq]
    omega
  rw [unitEscape?_surrogates hhigh hlow hrest, Nat.add_sub_cancel_left, Nat.add_sub_cancel_left,
    Nat.add_assoc, Nat.mul_comm, hsum, Nat.add_sub_cancel' (by omega), Char.ofNat_toNat]

theorem bind_cons (x : Char) (read : Except Stop (Text × Text)) :
    (do
      let (xs, tail) ← read
      pure (x :: xs, tail)) = read.map fun found => (x :: found.1, found.2) := by
  cases read <;> rfl

theorem readChars_simple {e x : Char} (hu : e ≠ 'u') (he : simpleEscape? e = some x)
    (opened fuel : Nat) (rest : Text) :
    readChars opened (fuel + 1) ('\\' :: e :: rest) =
      (readChars opened fuel rest).map fun found => (x :: found.1, found.2) := by
  rw [readChars, if_neg (by decide), if_pos rfl]
  dsimp only
  rw [if_neg hu, he]
  exact bind_cons x _

theorem readChars_unit {c : Char} {digits rest : Text} (h : unitEscape? digits = .ok (c, rest))
    (opened fuel : Nat) :
    readChars opened (fuel + 1) ('\\' :: 'u' :: digits) =
      (readChars opened fuel rest).map fun found => (c :: found.1, found.2) := by
  rw [readChars, if_neg (by decide), if_pos rfl]
  dsimp only
  rw [if_pos rfl, h]
  exact bind_cons c _

theorem readChars_plain {c : Char} (hquote : c ≠ '"') (hback : c ≠ '\\') (hc : ¬c.toNat ≤ 0x1f)
    (opened fuel : Nat) (rest : Text) :
    readChars opened (fuel + 1) (c :: rest) =
      (readChars opened fuel rest).map fun found => (c :: found.1, found.2) := by
  rw [readChars.eq_def]
  dsimp only
  rw [if_neg hquote, if_neg hback, if_neg hc]
  exact bind_cons c _

/-- A character is read from the way it is written in a string. -/
theorem readChars_escapeChar (opened fuel : Nat) (c : Char) {rest : Text} (hrest : rest ≠ []) :
    readChars opened (fuel + 1) (escapeChar c ++ rest) =
      (readChars opened fuel rest).map fun found => (c :: found.1, found.2) := by
  unfold escapeChar
  split
  · next h =>
    subst h
    exact readChars_simple (by decide) (by decide) opened fuel rest
  split
  · next h =>
    subst h
    exact readChars_simple (by decide) (by decide) opened fuel rest
  split
  · next h =>
    subst h
    exact readChars_simple (by decide) (by decide) opened fuel rest
  split
  · next h =>
    subst h
    exact readChars_simple (by decide) (by decide) opened fuel rest
  split
  · next h =>
    subst h
    exact readChars_simple (by decide) (by decide) opened fuel rest
  split
  · next h =>
    subst h
    exact readChars_simple (by decide) (by decide) opened fuel rest
  split
  · next h =>
    subst h
    exact readChars_simple (by decide) (by decide) opened fuel rest
  split
  · next hquote hback _ _ _ _ _ hplain =>
    exact readChars_plain hquote hback (by omega) opened fuel rest
  split
  · next hc =>
    rw [unitEscape, List.cons_append, List.cons_append]
    exact readChars_unit (unitEscape?_unit hc hrest) opened fuel
  · next hc =>
    have hpair := unitEscape?_pair hc hrest
    dsimp only
    generalize unitEscape (0xdc00 + (c.toNat - 0x10000) % 0x400) = second at hpair ⊢
    rw [unitEscape, List.cons_append, List.cons_append, List.cons_append, List.cons_append]
    exact readChars_unit hpair opened fuel

theorem escapeChar_ne_nil (c : Char) : escapeChar c ≠ [] := by
  unfold escapeChar unitEscape
  repeat' split
  all_goals exact List.cons_ne_nil _ _

theorem readChars_flatMap {s : Text} {fuel : Nat} (h : s.length < fuel) (opened : Nat)
    (tail : Text) :
    readChars opened fuel (s.flatMap escapeChar ++ '"' :: tail) = .ok (s, tail) := by
  induction s generalizing fuel with
  | nil =>
    obtain ⟨fuel, rfl⟩ : ∃ k, fuel = k + 1 := ⟨fuel - 1, by rw [List.length_nil] at h; omega⟩
    rfl
  | cons c rest ih =>
    obtain ⟨fuel, rfl⟩ : ∃ k, fuel = k + 1 := ⟨fuel - 1, by rw [List.length_cons] at h; omega⟩
    rw [List.flatMap_cons, List.append_assoc, readChars_escapeChar opened fuel c
      (List.append_ne_nil_of_right_ne_nil _ (List.cons_ne_nil _ _)), ih (Nat.lt_of_succ_lt_succ h)]
    rfl

theorem length_le_length_flatMap (s : Text) : s.length ≤ (s.flatMap escapeChar).length := by
  induction s with
  | nil => exact Nat.le_refl 0
  | cons c rest ih =>
    have hpos := List.length_pos_iff.mpr (escapeChar_ne_nil c)
    rw [List.flatMap_cons, List.length_append, List.length_cons]
    omega

/-- A string is read from its text, up to the closing quote and no further. -/
theorem readString_renderText (s : String) (tail : Text) :
    readString (s.toList.flatMap escapeChar ++ '"' :: tail) = .ok (s, tail) := by
  have hlength := length_le_length_flatMap s.toList
  unfold readString
  rw [readChars_flatMap (by rw [List.length_append]; omega)]
  exact congrArg (fun text => Except.ok (text, tail)) String.ofList_toList

/-! ## 2. Values -/

theorem readValue_of_ne {c : Char} (harray : c ≠ '[') (hobject : c ≠ '{') (levels : Nat)
    (rest : Text) : readValue levels (c :: rest) = readScalar (c :: rest) := by
  cases levels
  all_goals
    unfold readValue
    split
    · next heq => exact absurd (List.cons.inj heq).1 harray
    · next heq => exact absurd (List.cons.inj heq).1 hobject
    · rfl

/-- A value of at most so many levels without numbers, in which no object names a member twice. -/
inductive IsPlain : (levels : Nat) → JsonValue → Prop where
  | null (levels : Nat) : IsPlain levels .null
  | bool (levels : Nat) (b : Bool) : IsPlain levels (.bool b)
  | text (levels : Nat) (s : String) : IsPlain levels (.text s)
  | array {levels : Nat} {items : List JsonValue} (h : ∀ item ∈ items, IsPlain levels item) :
      IsPlain (levels + 1) (.array items)
  | object {levels : Nat} {members : List (String × JsonValue)}
      (hkeys : (Dict.keys members).Nodup) (h : ∀ member ∈ members, IsPlain levels member.2) :
      IsPlain (levels + 1) (.object members)

def isBlank (c : Char) : Bool :=
  c == ' ' || c == '\t' || c == '\n' || c == '\r'

theorem skipBlanks_cons {c : Char} (hc : isBlank c = false) (rest : Text) :
    skipBlanks (c :: rest) = c :: rest :=
  List.dropWhile_cons_of_neg (Bool.eq_false_iff.mp hc)

theorem skipBlanks_newLine (level : Nat) (rest : Text) :
    skipBlanks (newLine level ++ rest) = skipBlanks rest := by
  have hblanks : ∀ n, skipBlanks (List.replicate n ' ' ++ rest) = skipBlanks rest := by
    intro n
    induction n with
    | zero => rfl
    | succ n ih => exact ih
  exact hblanks (2 * level)

/-- The text of a value starts with no blank and with no closing bracket. -/
theorem IsPlain.renderAt_eq_cons {levels : Nat} {v : JsonValue} (h : IsPlain levels v)
    (level : Nat) :
    ∃ c rest, renderAt level v = c :: rest ∧ isBlank c = false ∧ c ≠ ']' := by
  cases h with
  | null => exact ⟨'n', _, rfl, by decide, by decide⟩
  | bool levels b => cases b <;> exact ⟨_, _, rfl, by decide, by decide⟩
  | text levels s => exact ⟨'"', _, rfl, by decide, by decide⟩
  | @array levels items h => cases items <;> exact ⟨'[', _, rfl, by decide, by decide⟩
  | @object levels members hkeys h => cases members <;> exact ⟨'{', _, rfl, by decide, by decide⟩

theorem IsPlain.skipBlanks_renderAt {levels : Nat} {v : JsonValue} (h : IsPlain levels v)
    (level : Nat) (tail : Text) :
    skipBlanks (renderAt level v ++ tail) = renderAt level v ++ tail := by
  obtain ⟨c, rest, hrender, hc, -⟩ := h.renderAt_eq_cons level
  rw [hrender]
  exact skipBlanks_cons hc _

/-- The value is read from its text, at any level and before any rest. -/
def ReadsBack (levels : Nat) (v : JsonValue) : Prop :=
  ∀ level tail, readValue levels (renderAt level v ++ tail) = .ok (v, tail)

theorem renderText_append (s : String) (tail : Text) :
    renderText s ++ tail = '"' :: (s.toList.flatMap escapeChar ++ '"' :: tail) := by
  rw [renderText, List.append_assoc]
  rfl

theorem readsBack_text (levels : Nat) (s : String) : ReadsBack levels (.text s) := by
  intro level tail
  rw [renderAt, renderText_append, readValue_of_ne (by decide) (by decide), readScalar,
    readString_renderText]
  rfl

section

variable {value : Text → Except Stop (JsonValue × Text)} {fuel : Nat}

theorem readItems_last {t tail rest : Text} {item : JsonValue} (hitem : value t = .ok (item, tail))
    (htail : skipBlanks tail = ']' :: rest) :
    readItems value (fuel + 1) t = .ok ([item], rest) := by
  rw [readItems, hitem]
  simp only [bind, Except.bind, htail]
  rfl

theorem readItems_more {t tail more rest : Text} {item : JsonValue} {items : List JsonValue}
    (hitem : value t = .ok (item, tail)) (htail : skipBlanks tail = ',' :: more)
    (hmore : readItems value fuel (skipBlanks more) = .ok (items, rest)) :
    readItems value (fuel + 1) t = .ok (item :: items, rest) := by
  rw [readItems, hitem]
  simp only [bind, Except.bind, htail, hmore]
  rfl

theorem readMembers_last {t named valued tail rest : Text} {key : String} {found : JsonValue}
    (hkey : readString t = .ok (key, named)) (hnamed : skipBlanks named = ':' :: valued)
    (hvalue : value (skipBlanks valued) = .ok (found, tail))
    (htail : skipBlanks tail = '}' :: rest) :
    readMembers value (fuel + 1) ('"' :: t) = .ok ([(key, found)], rest) := by
  rw [readMembers, hkey]
  simp only [bind, Except.bind, hnamed, hvalue, htail]
  rfl

theorem readMembers_more {t named valued tail more rest : Text} {key : String} {found : JsonValue}
    {members : List (String × JsonValue)} (hkey : readString t = .ok (key, named))
    (hnamed : skipBlanks named = ':' :: valued)
    (hvalue : value (skipBlanks valued) = .ok (found, tail))
    (htail : skipBlanks tail = ',' :: more)
    (hmore : readMembers value fuel (skipBlanks more) = .ok (members, rest)) :
    readMembers value (fuel + 1) ('"' :: t) = .ok ((key, found) :: members, rest) := by
  rw [readMembers, hkey]
  simp only [bind, Except.bind, hnamed, hvalue, htail, hmore]
  rfl

end

variable {levels : Nat}

theorem readItems_render {first : JsonValue} {items : List JsonValue}
    (hplain : ∀ item ∈ first :: items, IsPlain levels item)
    (hback : ∀ item ∈ first :: items, ReadsBack levels item) (inner outer : Nat) (tail : Text)
    {fuel : Nat} (hfuel : items.length < fuel) :
    readItems (readValue levels) fuel (renderAt inner first ++ (renderItems inner items ++
      (newLine outer ++ ']' :: tail))) = .ok (first :: items, tail) := by
  induction items generalizing first fuel with
  | nil =>
    obtain ⟨fuel, rfl⟩ : ∃ k, fuel = k + 1 := ⟨fuel - 1, by omega⟩
    refine readItems_last (hback first List.mem_cons_self inner _) ?_
    rw [renderItems, List.nil_append, skipBlanks_newLine]
    exact skipBlanks_cons (by decide) _
  | cons second rest ih =>
    obtain ⟨fuel, rfl⟩ : ∃ k, fuel = k + 1 := ⟨fuel - 1, by omega⟩
    rw [renderItems]
    refine readItems_more (hback first List.mem_cons_self inner _)
      (skipBlanks_cons (by decide) _) ?_
    show readItems (readValue levels) fuel (skipBlanks (newLine inner ++ renderAt inner second ++
      renderItems inner rest ++ _)) = _
    rw [List.append_assoc, List.append_assoc, skipBlanks_newLine,
      (hplain second (by simp)).skipBlanks_renderAt]
    exact ih (fun item h => hplain item (List.mem_cons_of_mem _ h))
      (fun item h => hback item (List.mem_cons_of_mem _ h)) (Nat.lt_of_succ_lt_succ hfuel)

theorem ReadsBack.after_blank {v : JsonValue} (hback : ReadsBack levels v)
    (hplain : IsPlain levels v) (level : Nat) (tail : Text) :
    readValue levels (skipBlanks (' ' :: (renderAt level v ++ tail))) = .ok (v, tail) := by
  show readValue levels (skipBlanks (renderAt level v ++ tail)) = _
  rw [hplain.skipBlanks_renderAt]
  exact hback level tail

theorem readMembers_render {key : String} {v : JsonValue} {members : List (String × JsonValue)}
    (hplain : ∀ member ∈ (key, v) :: members, IsPlain levels member.2)
    (hback : ∀ member ∈ (key, v) :: members, ReadsBack levels member.2) (inner outer : Nat)
    (tail : Text) {fuel : Nat} (hfuel : members.length < fuel) :
    readMembers (readValue levels) fuel (renderText key ++ (": ".toList ++ (renderAt inner v ++
      (renderMembers inner members ++ (newLine outer ++ '}' :: tail))))) =
        .ok ((key, v) :: members, tail) := by
  have hcolon : ∀ rest, skipBlanks (": ".toList ++ rest) = ':' :: ' ' :: rest := fun _ => rfl
  induction members generalizing key v fuel with
  | nil =>
    obtain ⟨fuel, rfl⟩ : ∃ k, fuel = k + 1 := ⟨fuel - 1, by omega⟩
    have hvalue := (hback (key, v) List.mem_cons_self).after_blank
      (hplain (key, v) List.mem_cons_self) inner
    rw [renderText_append, renderMembers, List.nil_append]
    refine readMembers_last (readString_renderText key _) (hcolon _) (hvalue _) ?_
    rw [skipBlanks_newLine]
    exact skipBlanks_cons (by decide) _
  | cons second rest ih =>
    obtain ⟨name, next⟩ := second
    obtain ⟨fuel, rfl⟩ : ∃ k, fuel = k + 1 := ⟨fuel - 1, by omega⟩
    have hvalue := (hback (key, v) List.mem_cons_self).after_blank
      (hplain (key, v) List.mem_cons_self) inner
    rw [renderMembers, renderText_append]
    refine readMembers_more (readString_renderText key _) (hcolon _) (hvalue _)
      (skipBlanks_cons (by decide) _) ?_
    show readMembers (readValue levels) fuel (skipBlanks (newLine inner ++ renderText name ++
      ": ".toList ++ renderAt inner next ++ renderMembers inner rest ++ _)) = _
    simp only [List.append_assoc]
    rw [skipBlanks_newLine, renderText_append, skipBlanks_cons (by decide), ← renderText_append]
    exact ih (fun member h => hplain member (List.mem_cons_of_mem _ h))
      (fun member h => hback member (List.mem_cons_of_mem _ h)) (Nat.lt_of_succ_lt_succ hfuel)

theorem length_le_length_renderItems (level : Nat) (items : List JsonValue) :
    items.length ≤ (renderItems level items).length := by
  induction items with
  | nil => exact Nat.le_refl 0
  | cons item rest ih =>
    rw [renderItems]
    simp only [List.length_append, List.length_cons]
    omega

theorem length_le_length_renderMembers (level : Nat) (members : List (String × JsonValue)) :
    members.length ≤ (renderMembers level members).length := by
  induction members with
  | nil => exact Nat.le_refl 0
  | cons member rest ih =>
    obtain ⟨key, v⟩ := member
    rw [renderMembers]
    simp only [List.length_append, List.length_cons]
    omega

theorem readsBack_array {items : List JsonValue} (hplain : ∀ item ∈ items, IsPlain levels item)
    (hback : ∀ item ∈ items, ReadsBack levels item) : ReadsBack (levels + 1) (.array items) := by
  intro level tail
  cases items with
  | nil => rfl
  | cons first rest =>
    obtain ⟨c, chars, hfirst, -, hc⟩ :=
      (hplain first List.mem_cons_self).renderAt_eq_cons (level + 1)
    have hskip := (hplain first List.mem_cons_self).skipBlanks_renderAt (level + 1)
    have hlength := length_le_length_renderItems (level + 1) rest
    rw [renderAt]
    simp only [List.cons_append, List.append_assoc, List.nil_append]
    show readArray (readValue levels) _ = _
    rw [readArray, skipBlanks_newLine, hskip]
    split
    · next heq =>
      rw [hfirst] at heq
      cases heq
      exact absurd rfl hc
    · rw [readItems_render hplain hback (level + 1) level tail
        (by simp only [List.length_append]; omega)]
      rfl

theorem readsBack_object {members : List (String × JsonValue)} (hkeys : (Dict.keys members).Nodup)
    (hplain : ∀ member ∈ members, IsPlain levels member.2)
    (hback : ∀ member ∈ members, ReadsBack levels member.2) :
    ReadsBack (levels + 1) (.object members) := by
  intro level tail
  cases members with
  | nil => rfl
  | cons first rest =>
    obtain ⟨key, v⟩ := first
    have hmembers := fun fuel (hfuel : rest.length < fuel) =>
      readMembers_render hplain hback (level + 1) level tail hfuel
    have hlength := length_le_length_renderMembers (level + 1) rest
    rw [renderAt]
    simp only [List.cons_append, List.append_assoc, List.nil_append]
    show readObject (readValue levels) _ = _
    rw [readObject, skipBlanks_newLine, renderText_append, skipBlanks_cons (by decide),
      ← renderText_append]
    split
    · next heq => exact absurd (List.cons.inj heq).1 (by decide)
    · rw [hmembers _ (by simp only [List.length_append]; omega)]
      show Except.ok (JsonValue.object (Dict.ofPairs _), tail) = _
      rw [Dict.ofPairs_of_nodup hkeys]

theorem IsPlain.readsBack {v : JsonValue} (h : IsPlain levels v) : ReadsBack levels v := by
  induction h with
  | null levels => intro level tail; cases levels <;> rfl
  | bool levels b => intro level tail; cases levels <;> cases b <;> rfl
  | text levels s => exact readsBack_text levels s
  | array h ih => exact readsBack_array h ih
  | object hkeys h ih => exact readsBack_object hkeys h ih

/-! ## 3. Texts -/

/-- A character that a plain value is written with: printable ASCII, or a line feed. -/
def isWritten (c : Char) : Bool :=
  c == '\n' || (0x20 ≤ c.toNat && c.toNat ≤ 0x7e)

theorem isWritten_digitChar : ∀ d < 16, isWritten (Nat.digitChar d) = true := by
  decide

theorem isWritten_unitEscape {n : Nat} (h : n < 0x10000) : (unitEscape n).all isWritten = true := by
  rw [unitEscape, hex_four h]
  simp only [List.all_cons, isWritten_digitChar _ (show n / 0x1000 < 16 by omega),
    isWritten_digitChar _ (Nat.mod_lt (n / 0x100) (show 16 > 0 by decide)),
    isWritten_digitChar _ (Nat.mod_lt (n / 0x10) (show 16 > 0 by decide)),
    isWritten_digitChar _ (Nat.mod_lt n (show 16 > 0 by decide))]
  decide

theorem isWritten_escapeChar (c : Char) : (escapeChar c).all isWritten = true := by
  unfold escapeChar
  split; · decide
  split; · decide
  split; · decide
  split; · decide
  split; · decide
  split; · decide
  split; · decide
  split
  · next hc =>
    simp only [List.all_cons, List.all_nil, isWritten, hc.1, hc.2, decide_true,
      Bool.and_self, Bool.or_true]
  split
  · next hc => exact isWritten_unitEscape hc
  · have hvalid : c.toNat < 0xd800 ∨ 0xdfff < c.toNat ∧ c.toNat < 0x110000 := c.valid
    dsimp only
    rw [List.all_append, isWritten_unitEscape (by omega), isWritten_unitEscape (by omega)]
    rfl

theorem isWritten_renderText (s : String) : (renderText s).all isWritten = true := by
  have hchars : (s.toList.flatMap escapeChar).all isWritten = true := by
    rw [List.all_flatMap]
    exact List.all_eq_true.mpr fun c _ => isWritten_escapeChar c
  rw [renderText, List.all_append, List.all_cons, hchars]
  decide

theorem isWritten_newLine (level : Nat) : (newLine level).all isWritten = true := by
  rw [newLine, List.all_cons, List.all_replicate]
  split <;> decide

theorem isWritten_renderItems {items : List JsonValue} (level : Nat)
    (h : ∀ item ∈ items, (renderAt level item).all isWritten = true) :
    (renderItems level items).all isWritten = true := by
  induction items with
  | nil => rfl
  | cons item rest ih =>
    rw [renderItems, List.all_append, List.all_append, List.all_cons, isWritten_newLine,
      h item List.mem_cons_self, ih fun other hother => h other (List.mem_cons_of_mem _ hother)]
    decide

theorem isWritten_renderMembers {members : List (String × JsonValue)} (level : Nat)
    (h : ∀ member ∈ members, (renderAt level member.2).all isWritten = true) :
    (renderMembers level members).all isWritten = true := by
  induction members with
  | nil => rfl
  | cons member rest ih =>
    obtain ⟨key, value⟩ := member
    rw [renderMembers]
    simp only [List.all_append, List.all_cons]
    rw [isWritten_newLine, isWritten_renderText, h _ List.mem_cons_self,
      ih fun other hother => h other (List.mem_cons_of_mem _ hother)]
    decide

theorem IsPlain.isWritten_renderAt {v : JsonValue} (h : IsPlain levels v) (level : Nat) :
    (renderAt level v).all isWritten = true := by
  induction h generalizing level with
  | null => rfl
  | bool levels b => cases b <;> rfl
  | text levels s => exact isWritten_renderText s
  | @array levels items h ih =>
    cases items with
    | nil => rfl
    | cons first rest =>
      have hrest := isWritten_renderItems (level + 1) fun item hitem =>
        ih item (List.mem_cons_of_mem first hitem) (level + 1)
      rw [renderAt]
      simp only [List.all_append, List.all_cons]
      rw [isWritten_newLine, isWritten_newLine, ih first List.mem_cons_self, hrest]
      decide
  | @object levels members hkeys h ih =>
    cases members with
    | nil => rfl
    | cons first rest =>
      obtain ⟨key, value⟩ := first
      have hrest := isWritten_renderMembers (level + 1) fun member hmember =>
        ih member (List.mem_cons_of_mem _ hmember) (level + 1)
      rw [renderAt]
      simp only [List.all_append, List.all_cons]
      rw [isWritten_newLine, isWritten_newLine, isWritten_renderText,
        ih _ List.mem_cons_self, hrest]
      decide

/-- A plain value is written and read without loss. -/
theorem IsPlain.read_render {v : JsonValue} (h : IsPlain levels v) :
    read levels v.render = .ok v := by
  have hvalue := h.readsBack 0 []
  have hskip := h.skipBlanks_renderAt 0 []
  have hwritten := h.isWritten_renderAt 0
  rw [List.append_nil] at hvalue hskip
  have hall : readAll levels v.render = .ok v := by
    unfold readAll
    split
    · next heq =>
      rw [show renderAt 0 v = _ from heq] at hwritten
      exact absurd (List.all_eq_true.mp hwritten _ List.mem_cons_self) (by decide)
    · rw [show skipBlanks v.render = renderAt 0 v from hskip, hvalue]
      rfl
  rw [read, hall]

/-- A plain value is written without a carriage return. -/
theorem IsPlain.unifyLineEnds_render {v : JsonValue} (h : IsPlain levels v) :
    Text.unifyLineEnds v.render = v.render := by
  have hwritten := h.isWritten_renderAt 0
  unfold render
  generalize renderAt 0 v = t at hwritten ⊢
  induction t with
  | nil => rfl
  | cons c rest ih =>
    rw [List.all_cons, Bool.and_eq_true] at hwritten
    have hc : c ≠ '\r' := by
      rintro rfl
      exact absurd hwritten.1 (by decide)
    rw [Text.unifyLineEnds.eq_3 c rest (fun _ h _ => hc h) hc, ih hwritten.2]

end ChainGuard.JsonValue
