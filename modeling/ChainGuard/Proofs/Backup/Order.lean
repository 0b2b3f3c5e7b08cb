import ChainGuard.Proofs.Backup.Session
import Mathlib

/-!
# Names of backups in the order of time

The name of a backup is a time, and a number where that name is taken. Names are compared as texts.
As long as every part of a time has its usual number of digits and the number has one, a later
backup has the greater name.

1. `Clock.digits`: numbers of the same number of digits are compared like their digits.
2. `Clock.stamp_lt`: times are compared like their names.
3. `Backup.sessionName_lt`: names with numbers. `Backup.sessionName_ten_lt`: it ends at ten.
4. `Backup.HasRoom`: names within the limits.
-/

namespace ChainGuard

namespace Text

/-- Texts of one length decide, whatever follows them. -/
theorem append_lt_append {a b : Text} (hlength : a.length = b.length) (h : a < b) (x y : Text) :
    a ++ x < b ++ y := by
  induction a generalizing b with
  | nil =>
    rw [List.eq_nil_of_length_eq_zero hlength.symm] at h
    exact absurd h (List.lt_irrefl _)
  | cons c a ih =>
    cases b with
    | nil => cases hlength
    | cons d b =>
      rw [List.cons_append, List.cons_append, List.cons_lt_cons_iff]
      rcases List.cons_lt_cons_iff.mp h with hlt | ⟨heq, hlt⟩
      · exact Or.inl hlt
      · exact Or.inr ⟨heq, ih (Nat.succ.inj hlength) hlt⟩

end Text

namespace Clock

/-! ## 1. Digits -/

def digits : (count : Nat) → Nat → Text
  | 0, _ => []
  | count + 1, n => digits count (n / 10) ++ [Nat.digitChar (n % 10)]

theorem length_digits (count n : Nat) : (digits count n).length = count := by
  induction count generalizing n with
  | zero => rfl
  | succ count ih => rw [digits, List.length_append, ih, List.length_singleton]

theorem isDigit_of_mem_digits {count n : Nat} {c : Char} (h : c ∈ digits count n) :
    c.isDigit = true := by
  induction count generalizing n with
  | zero => cases h
  | succ count ih =>
    rcases List.mem_append.mp h with h | h
    · exact ih h
    · rw [List.mem_singleton.mp h]
      have hlt : n % 10 < 10 := Nat.mod_lt n (by decide)
      have hmem : Nat.digitChar (n % 10) ∈ Nat.toDigits 10 (n % 10) := by
        rw [Nat.toDigits_of_lt_base hlt]
        exact List.mem_singleton.mpr rfl
      exact Nat.isDigit_of_mem_toDigits (by decide) (by decide) hmem

theorem digitChar_lt {m n : Nat} (h : m < n) (hn : n < 10) :
    Nat.digitChar m < Nat.digitChar n := by
  have hm := Nat.toNat_digitChar_of_lt_ten (Nat.lt_trans h hn)
  have hn' := Nat.toNat_digitChar_of_lt_ten hn
  rw [Char.lt_def, UInt32.lt_iff_toNat_lt]
  show (Nat.digitChar m).toNat < (Nat.digitChar n).toNat
  omega

/-- Numbers of the same number of digits are compared from the first digit on. -/
theorem digits_lt {count m n : Nat} (h : m < n) (hn : n < 10 ^ count) :
    digits count m < digits count n := by
  induction count generalizing m n with
  | zero => omega
  | succ count ih =>
    rw [Nat.pow_succ] at hn
    rw [digits, digits]
    by_cases hfront : m / 10 < n / 10
    · exact Text.append_lt_append (by rw [length_digits, length_digits]) (ih hfront (by omega)) _ _
    · have heq : m / 10 = n / 10 := by omega
      rw [heq]
      refine List.append_left_lt (List.cons_lt_cons_iff.mpr (Or.inl ?_))
      exact digitChar_lt (by omega) (Nat.mod_lt n (by decide))

/-- A number is written with its own digits. -/
theorem toDigits_eq_digits (count : Nat) {n : Nat} (hlow : 10 ^ count ≤ n)
    (hhigh : n < 10 ^ (count + 1)) :
    Nat.toDigits 10 n = digits (count + 1) n := by
  induction count generalizing n with
  | zero =>
    have hlt : n < 10 := hhigh
    rw [Nat.toDigits_of_lt_base hlt, digits, Nat.mod_eq_of_lt hlt]
    rfl
  | succ count ih =>
    rw [Nat.pow_succ] at hlow hhigh
    have hten : 10 ≤ n := by
      have hpos : 0 < 10 ^ count := Nat.pow_pos (by decide)
      omega
    rw [Nat.toDigits_of_base_le (by decide) hten, ih (by omega) (by omega)]
    rfl

theorem toList_twoDigits {n : Nat} (h : n < 100) : (twoDigits n).toList = digits 2 n := by
  unfold twoDigits
  split
  · next hsmall =>
    have hzero : n / 10 = 0 := by omega
    show ("0" ++ Nat.repr n).toList = _
    rw [String.toList_append, Nat.toList_repr, Nat.toDigits_of_lt_base hsmall, digits, digits,
      hzero, Nat.mod_eq_of_lt hsmall]
    rfl
  · next hlarge =>
    show (Nat.repr n).toList = _
    rw [Nat.toList_repr]
    exact toDigits_eq_digits 1 (by omega) h

/-! ## 2. Times -/

/-- The year has four digits, and the other parts have at most two. -/
structure Regular (c : Clock) : Prop where
  year_ge : 1000 ≤ c.year
  year_lt : c.year < 10000
  month : c.month < 100
  day : c.day < 100
  hour : c.hour < 100
  minute : c.minute < 100
  second : c.second < 100

/-- The reading as one number, with two digits for all parts after the year. -/
def reading (c : Clock) : Nat :=
  ((((c.year * 100 + c.month) * 100 + c.day) * 100 + c.hour) * 100 + c.minute) * 100 + c.second

theorem Regular.eq_of_reading {c d : Clock} (hc : c.Regular) (hd : d.Regular)
    (h : c.reading = d.reading) : c = d := by
  obtain ⟨year, month, day, hour, minute, second⟩ := c
  obtain ⟨year', month', day', hour', minute', second'⟩ := d
  obtain ⟨-, -, hmonth, hday, hhour, hminute, hsecond⟩ := hc
  obtain ⟨-, -, hmonth', hday', hhour', hminute', hsecond'⟩ := hd
  simp only [reading] at h hmonth hday hhour hminute hsecond hmonth' hday' hhour' hminute' hsecond'
  simp only [Clock.mk.injEq]
  omega

theorem toList_stamp {c : Clock} (h : c.Regular) : c.stamp.toList =
    digits 4 c.year ++ '-' :: (digits 2 c.month ++ '-' :: (digits 2 c.day ++ 'T' ::
      (digits 2 c.hour ++ '-' :: (digits 2 c.minute ++ '-' :: digits 2 c.second)))) := by
  have hyear : (Nat.repr c.year).toList = digits 4 c.year := by
    rw [Nat.toList_repr]
    exact toDigits_eq_digits 3 h.year_ge h.year_lt
  have hdash : "-".toList = ['-'] := by decide
  have htee : "T".toList = ['T'] := by decide
  show (Nat.repr c.year ++ "-" ++ twoDigits c.month ++ "-" ++ twoDigits c.day ++ "T" ++
    (twoDigits c.hour ++ "-" ++ twoDigits c.minute ++ "-" ++ twoDigits c.second)).toList = _
  simp only [String.toList_append, hyear, hdash, htee, toList_twoDigits h.month,
    toList_twoDigits h.day, toList_twoDigits h.hour, toList_twoDigits h.minute,
    toList_twoDigits h.second, List.append_assoc, List.cons_append, List.nil_append]

theorem length_stamp_of_regular {c : Clock} (h : c.Regular) : c.stamp.toList.length = 19 := by
  rw [toList_stamp h]
  simp only [List.length_append, List.length_cons, length_digits]

/-- The first part that differs decides. -/
theorem digits_append_lt {count m n : Nat} {x y : Text} (hn : n < 10 ^ count)
    (h : m < n ∨ m = n ∧ x < y) : digits count m ++ x < digits count n ++ y := by
  rcases h with hlt | ⟨rfl, hlt⟩
  · exact Text.append_lt_append (by rw [length_digits, length_digits]) (digits_lt hlt hn) _ _
  · exact List.append_left_lt hlt

/-- A later time has the greater name. -/
theorem stamp_lt {c d : Clock} (hc : c.Regular) (hd : d.Regular) (h : c.reading < d.reading) :
    c.stamp.toList < d.stamp.toList := by
  have hparts : c.year < d.year ∨ c.year = d.year ∧ (c.month < d.month ∨ c.month = d.month ∧
      (c.day < d.day ∨ c.day = d.day ∧ (c.hour < d.hour ∨ c.hour = d.hour ∧
        (c.minute < d.minute ∨ c.minute = d.minute ∧ c.second < d.second)))) := by
    obtain ⟨-, -, hmonth, hday, hhour, hminute, hsecond⟩ := hc
    obtain ⟨-, -, hmonth', hday', hhour', hminute', hsecond'⟩ := hd
    unfold reading at h
    omega
  have hsame : ∀ {sep : Char} {x y : Text}, x < y → sep :: x < sep :: y :=
    fun h => List.cons_lt_cons_iff.mpr (Or.inr ⟨rfl, h⟩)
  rw [toList_stamp hc, toList_stamp hd]
  refine digits_append_lt hd.year_lt (hparts.imp_right (And.imp_right fun h => hsame ?_))
  refine digits_append_lt hd.month (h.imp_right (And.imp_right fun h => hsame ?_))
  refine digits_append_lt hd.day (h.imp_right (And.imp_right fun h => hsame ?_))
  refine digits_append_lt hd.hour (h.imp_right (And.imp_right fun h => hsame ?_))
  refine digits_append_lt hd.minute (h.imp_right (And.imp_right fun h => hsame ?_))
  exact digits_lt h hd.second

end Clock

namespace Backup

/-! ## 3. Names with numbers -/

def suffix : Nat → Text
  | 0 => []
  | n + 1 => '.' :: Nat.toDigits 10 (n + 1)

theorem toList_sessionName (stamp : String) (k : Nat) :
    (sessionName stamp k).toList = stamp.toList ++ suffix k := by
  cases k with
  | zero => exact (List.append_nil _).symm
  | succ n =>
    have hdot : ".".toList = ['.'] := by decide
    show (stamp ++ "." ++ Nat.repr (n + 1)).toList = _
    rw [String.toList_append, String.toList_append, Nat.toList_repr, hdot, List.append_assoc]
    rfl

theorem suffix_lt {j k : Nat} (h : j < k) (hk : k < 10) : suffix j < suffix k := by
  cases k with
  | zero => omega
  | succ k =>
    cases j with
    | zero => exact List.nil_lt_cons _ _
    | succ j =>
      refine List.cons_lt_cons_iff.mpr (Or.inr ⟨rfl, ?_⟩)
      rw [Nat.toDigits_of_lt_base hk, Nat.toDigits_of_lt_base (Nat.lt_trans h hk)]
      exact List.cons_lt_cons_iff.mpr (Or.inl (Clock.digitChar_lt h hk))

/-- Of two backups the one of the later time has the greater name. At one time it is the one with
the greater number, if that has one digit. -/
theorem sessionName_lt {c d : Clock} {j k : Nat} (hc : c.Regular) (hd : d.Regular)
    (h : c.reading < d.reading ∨ c = d ∧ j < k ∧ k < 10) :
    sessionName c.stamp j < sessionName d.stamp k := by
  rw [String.lt_iff, toList_sessionName, toList_sessionName]
  rcases h with hlt | ⟨rfl, hlt, hk⟩
  · refine Text.append_lt_append ?_ (Clock.stamp_lt hc hd hlt) _ _
    rw [Clock.length_stamp_of_regular hc, Clock.length_stamp_of_regular hd]
  · exact List.append_left_lt (suffix_lt hlt hk)

/-- Names with numbers of one digit tell the time and the number. -/
theorem sessionName_inj {c d : Clock} {j k : Nat} (hc : c.Regular) (hd : d.Regular) (hj : j < 10)
    (hk : k < 10) (h : sessionName c.stamp j = sessionName d.stamp k) : c = d ∧ j = k := by
  rcases Nat.lt_trichotomy c.reading d.reading with hlt | heq | hlt
  · exact absurd (h ▸ sessionName_lt hc hd (Or.inl hlt)) (String.lt_irrefl _)
  · obtain rfl := hc.eq_of_reading hd heq
    refine ⟨rfl, ?_⟩
    rcases Nat.lt_trichotomy j k with hlt | heq | hlt
    · exact absurd (h ▸ sessionName_lt hc hc (Or.inr ⟨rfl, hlt, hk⟩)) (String.lt_irrefl _)
    · exact heq
    · exact absurd (h ▸ sessionName_lt hc hc (Or.inr ⟨rfl, hlt, hj⟩)) (String.lt_irrefl _)
  · exact absurd (h ▸ sessionName_lt hd hc (Or.inl hlt)) (String.lt_irrefl _)

/-- The number ten has two digits: the eleventh backup of one time comes before the third. -/
theorem sessionName_ten_lt (stamp : String) : sessionName stamp 10 < sessionName stamp 2 := by
  rw [String.lt_iff, toList_sessionName, toList_sessionName]
  exact List.append_left_lt (by decide)

/-! ## 4. Sizes of names -/

theorem mem_sessionName {c : Clock} (h : c.Regular) {k : Nat} {x : Char}
    (hx : x ∈ (sessionName c.stamp k).toList) : x.isDigit = true ∨ x ∈ ['-', 'T', '.'] := by
  have hsuffix : ∀ x ∈ suffix k, x.isDigit = true ∨ x ∈ ['-', 'T', '.'] := by
    intro x hx
    cases k with
    | zero => cases hx
    | succ k =>
      rcases List.mem_cons.mp hx with rfl | hx
      · exact Or.inr (by decide)
      · exact Or.inl (Nat.isDigit_of_mem_toDigits (by decide) (by decide) hx)
  rw [toList_sessionName, Clock.toList_stamp h] at hx
  simp only [List.mem_append, List.mem_cons] at hx
  rcases hx with (hx | rfl | hx | rfl | hx | rfl | hx | rfl | hx | rfl | hx) | hx
  all_goals first
    | exact Or.inl (Clock.isDigit_of_mem_digits hx)
    | exact Or.inr (by decide)
    | exact hsuffix _ hx

theorem ascii_of_mem_sessionName {c : Clock} (h : c.Regular) {k : Nat} {x : Char}
    (hx : x ∈ (sessionName c.stamp k).toList) : x.val ≤ 127 ∧ x ≠ '\x00' := by
  rcases mem_sessionName h hx with hdigit | hx
  · unfold Char.isDigit at hdigit
    rw [Bool.and_eq_true, decide_eq_true_eq, decide_eq_true_eq] at hdigit
    refine ⟨UInt32.le_trans hdigit.2 (by decide), ?_⟩
    rintro rfl
    exact absurd hdigit.1 (by decide)
  · simp only [List.mem_cons, List.not_mem_nil, or_false] at hx
    rcases hx with rfl | rfl | rfl <;> decide

theorem size_sessionName_le {c : Clock} (h : c.Regular) {k : Nat} (hk : k < 10) :
    (sessionName c.stamp k).utf8ByteSize ≤ 21 := by
  have hsuffix : (suffix k).length ≤ 2 := by
    cases k with
    | zero => exact Nat.zero_le _
    | succ k =>
      rw [suffix, Nat.toDigits_of_lt_base hk]
      exact Nat.le_refl _
  rw [Path.size_of_ascii _ fun x hx => (ascii_of_mem_sessionName h hx).1, toList_sessionName,
    List.length_append, Clock.length_stamp_of_regular h]
  omega

theorem isName_sessionName {c : Clock} (h : c.Regular) {k : Nat} (hk : k < 10) :
    Path.IsName (sessionName c.stamp k) := by
  have hsize : (sessionName c.stamp k).utf8ByteSize ≤ Disk.maxPartBytes :=
    Nat.le_trans (size_sessionName_le h hk) (by decide)
  obtain ⟨hpart, hup⟩ := descends_sessionName c k _ (List.mem_singleton.mpr rfl)
  exact ⟨hpart, hup, fun hnull => (ascii_of_mem_sessionName h hnull).2 rfl, hsize⟩

/-- The longest names of a project's backups are within the limits. -/
def HasRoom (project : Location) : Prop :=
  Path.Fits (storeAt project ++ ["YYYY-MM-DDThh-mm-ss.n"] ++ ["manifest.restored.json"])

/-- All names of backups are then within the limits. -/
theorem HasRoom.fits {project : Location} (hroom : HasRoom project) {c : Clock} (h : c.Regular)
    {k : Nat} (hk : k < 10) {last : String} (hname : Path.IsName last)
    (hsize : last.utf8ByteSize ≤ 22) :
    Path.Fits (storeAt project ++ [sessionName c.stamp k] ++ [last]) where
  names s hs := by
    rcases List.mem_append.mp hs with hs | hs
    · rcases List.mem_append.mp hs with hs | hs
      · exact hroom.names s (by simp [hs])
      · cases List.mem_singleton.mp hs
        exact isName_sessionName h hk
    · cases List.mem_singleton.mp hs
      exact hname
  size := by
    have hlong := hroom.size
    have hsession := size_sessionName_le h hk
    have hplace : "YYYY-MM-DDThh-mm-ss.n".utf8ByteSize = 21 := by decide
    have hrestored : "manifest.restored.json".utf8ByteSize = 22 := by decide
    rw [Path.size_render (by simp)] at hlong ⊢
    simp only [List.map_append, List.map_singleton, List.sum_append, List.sum_singleton, hplace,
      hrestored] at hlong ⊢
    omega

end Backup

end ChainGuard
