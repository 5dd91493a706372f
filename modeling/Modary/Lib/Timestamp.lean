import Mathlib.Data.Int.Basic
import Mathlib.Data.List.DropRight
import Mathlib.Tactic.Ring
import Modary.Lib.Codec

/-! # Timestamps

The civil date of a day of the proleptic Gregorian calendar, and the text of an instant in UTC as
`time.RFC3339Nano` writes it. Years are counted from March, so that the leap day comes last. -/

namespace Modary.Lib.Timestamp


/-- A civil date. -/
structure Date where
  year : ℤ
  month : ℤ
  day : ℤ
  deriving DecidableEq, Repr

/-- The 400-year era of a day, counted from 1 March of year 0. -/
def eraOf (days : ℤ) : ℤ := (days + 719468) / 146097

/-- The day within its era. -/
def dayOfEra (days : ℤ) : ℤ := (days + 719468) % 146097

/-- The century within the era: the last one has a day more. -/
def century (doe : ℤ) : ℤ := min (doe / 36524) 3

/-- The four years within the century. -/
def cycle (doe : ℤ) : ℤ := (doe - 36524 * century doe) / 1461

/-- The year within the four: the last one has a day more. -/
def yearOfCycle (doe : ℤ) : ℤ := min ((doe - 36524 * century doe - 1461 * cycle doe) / 365) 3

/-- The day within the year that starts in March. -/
def dayOfYear (doe : ℤ) : ℤ :=
  doe - 36524 * century doe - 1461 * cycle doe - 365 * yearOfCycle doe

/-- The month within the year that starts in March. -/
def monthOfYear (doy : ℤ) : ℤ := (5 * doy + 2) / 153

/-- The date of a day of a year that starts in March. -/
def dateOf (year doy : ℤ) : Date :=
  let mp := monthOfYear doy
  let month := if mp < 10 then mp + 3 else mp - 9
  { year := year + if month ≤ 2 then 1 else 0
    month := month
    day := doy - (153 * mp + 2) / 5 + 1 }

/-- The date of a day counted from 1 January 1970. -/
def civil (days : ℤ) : Date :=
  let doe := dayOfEra days
  dateOf (400 * eraOf days + 100 * century doe + 4 * cycle doe + yearOfCycle doe) (dayOfYear doe)

/-- The day of a date. -/
def daysOf (date : Date) : ℤ :=
  let y := date.year - if date.month ≤ 2 then 1 else 0
  let mp := if date.month ≤ 2 then date.month + 9 else date.month - 3
  146097 * (y / 400) + 36524 * (y % 400 / 100) + 1461 * (y % 100 / 4) + 365 * (y % 4) +
    ((153 * mp + 2) / 5 + date.day - 1) - 719468

theorem century_bounds {doe : ℤ} (h0 : 0 ≤ doe) (h1 : doe < 146097) :
    0 ≤ century doe ∧ century doe ≤ 3 ∧ 0 ≤ doe - 36524 * century doe ∧
      doe - 36524 * century doe ≤ 36524 := by
  unfold century
  omega

theorem cycle_bounds {doe : ℤ} (h0 : 0 ≤ doe) (h1 : doe < 146097) :
    0 ≤ cycle doe ∧ cycle doe ≤ 24 ∧ 0 ≤ doe - 36524 * century doe - 1461 * cycle doe ∧
      doe - 36524 * century doe - 1461 * cycle doe ≤ 1460 := by
  have := century_bounds h0 h1
  unfold cycle
  omega

theorem dayOfYear_bounds {doe : ℤ} (h0 : 0 ≤ doe) (h1 : doe < 146097) :
    0 ≤ yearOfCycle doe ∧ yearOfCycle doe ≤ 3 ∧ 0 ≤ dayOfYear doe ∧ dayOfYear doe ≤ 365 := by
  have := cycle_bounds h0 h1
  unfold dayOfYear yearOfCycle
  omega

/-- The year and the day within it can be told whether or not January has come. -/
theorem daysOf_dateOf {year doy : ℤ} (h0 : 0 ≤ doy) (h1 : doy ≤ 365) :
    daysOf (dateOf year doy) =
      146097 * (year / 400) + 36524 * (year % 400 / 100) + 1461 * (year % 100 / 4) +
        365 * (year % 4) + doy - 719468 := by
  simp only [daysOf, dateOf, monthOfYear]
  by_cases hm : (5 * doy + 2) / 153 < 10
  · have hn : ¬ (5 * doy + 2) / 153 + 3 ≤ 2 := by omega
    simp only [hm, hn, if_true, if_false]
    omega
  · have hn : (5 * doy + 2) / 153 - 9 ≤ 2 := by omega
    simp only [hm, hn, if_true, if_false, add_sub_cancel_right]
    omega

/-- A day can be read back from its date. -/
theorem daysOf_civil (days : ℤ) : daysOf (civil days) = days := by
  have h0 : 0 ≤ dayOfEra days := Int.emod_nonneg _ (by decide)
  have h1 : dayOfEra days < 146097 := Int.emod_lt_of_pos _ (by decide)
  have he : 146097 * eraOf days + dayOfEra days = days + 719468 := Int.mul_ediv_add_emod _ _
  have hc := century_bounds h0 h1
  have hq := cycle_bounds h0 h1
  obtain ⟨k0, k1, d0, d1⟩ := dayOfYear_bounds h0 h1
  have hd : dayOfYear (dayOfEra days) = dayOfEra days - 36524 * century (dayOfEra days) -
      1461 * cycle (dayOfEra days) - 365 * yearOfCycle (dayOfEra days) := rfl
  rw [civil, daysOf_dateOf d0 d1]
  generalize century (dayOfEra days) = c, cycle (dayOfEra days) = q,
    yearOfCycle (dayOfEra days) = k, eraOf days = era at *
  have e1 : (400 * era + 100 * c + 4 * q + k) / 400 = era := by omega
  have e2 : (400 * era + 100 * c + 4 * q + k) % 400 / 100 = c := by omega
  have e5 : (400 * era + 100 * c + 4 * q + k) % 100 = 4 * q + k := by
    rw [show 400 * era + 100 * c + 4 * q + k = 4 * q + k + 100 * (4 * era + c) by ring,
      Int.add_mul_emod_self_left]
    omega
  have e3 : (400 * era + 100 * c + 4 * q + k) % 100 / 4 = q := by omega
  have e4 : (400 * era + 100 * c + 4 * q + k) % 4 = k := by omega
  omega

/-! ### Texts -/

/-- The last `width` decimal digits of a number. -/
def pad : ℕ → ℕ → List Char
  | 0, _ => []
  | width + 1, n => pad width (n / 10) ++ [Nat.digitChar (n % 10)]

/-- The fraction of a second, without trailing zeros. -/
def encodeFraction (nanos : ℕ) : List Char :=
  if nanos = 0 then [] else '.' :: (pad 9 nanos).rdropWhile (· == '0')

/-- Nanoseconds in a second and seconds in a day. -/
def nanosPerSecond : ℤ := 1000000000
def secondsPerDay : ℤ := 86400

/-- `time.Time.MarshalJSON` of an instant in UTC, given in nanoseconds since the Unix epoch. -/
def encodeInstant (nanos : ℤ) : List Char :=
  let seconds := nanos / nanosPerSecond
  let date := civil (seconds / secondsPerDay)
  let clock := (seconds % secondsPerDay).toNat
  '"' :: (pad 4 date.year.toNat ++ '-' :: (pad 2 date.month.toNat ++ '-' ::
    (pad 2 date.day.toNat ++ 'T' :: (pad 2 (clock / 3600) ++ ':' :: (pad 2 (clock / 60 % 60) ++ ':' ::
      (pad 2 (clock % 60) ++ (encodeFraction (nanos % nanosPerSecond).toNat ++ ['Z', '"'])))))))

/-- The years that `MarshalJSON` accepts, as instants: 0000 to 9999. -/
def marshalable (nanos : ℤ) : Bool :=
  -62167219200000000000 ≤ nanos && nanos < 253402300800000000000

example : String.ofList (encodeInstant 1700000000120000000) = "\"2023-11-14T22:13:20.12Z\"" := by
  decide

/-- `time.Time.Format` with `time.RFC3339Nano`, of an instant in UTC. -/
def formatInstant (nanos : ℤ) : List Char :=
  let seconds := nanos / nanosPerSecond
  let date := civil (seconds / secondsPerDay)
  let clock := (seconds % secondsPerDay).toNat
  pad 4 date.year.toNat ++ '-' :: (pad 2 date.month.toNat ++ '-' ::
    (pad 2 date.day.toNat ++ 'T' :: (pad 2 (clock / 3600) ++ ':' :: (pad 2 (clock / 60 % 60) ++ ':' ::
      (pad 2 (clock % 60) ++ (encodeFraction (nanos % nanosPerSecond).toNat ++ ['Z']))))))

/-! ### Reading texts -/

/-- A number of `width` decimal digits, and what follows it. -/
def readDigits : ℕ → List Char → Option (ℕ × List Char)
  | 0, s => some (0, s)
  | width + 1, s => do
    let (n, s) ← readDigits width s
    match s with
    | c :: s => if c.isDigit then some (10 * n + (c.toNat - 48), s) else none
    | [] => none

/-- What follows a character. -/
def expect (c : Char) : List Char → Option (List Char)
  | d :: s => if d = c then some s else none
  | [] => none

/-- The nanoseconds of a fraction of a second: nine digits count. -/
def readFraction : List Char → Option (ℕ × List Char)
  | '.' :: s =>
    let digits := s.takeWhile Char.isDigit
    if digits = [] then none
    else (readDigits 9 (digits ++ List.replicate 9 '0')).map fun r =>
      (r.1, s.dropWhile Char.isDigit)
  | s => some (0, s)

/-- The instant of a text in UTC. A day that its month does not have is not told here. -/
def parseInstant (s : List Char) : Option ℤ := do
  let (year, s) ← readDigits 4 s
  let (month, s) ← readDigits 2 (← expect '-' s)
  let (day, s) ← readDigits 2 (← expect '-' s)
  let (hour, s) ← readDigits 2 (← expect 'T' s)
  let (minute, s) ← readDigits 2 (← expect ':' s)
  let (second, s) ← readDigits 2 (← expect ':' s)
  let (fraction, s) ← readFraction s
  if s ≠ ['Z'] ∨ 23 < hour ∨ 59 < minute ∨ 59 < second then none
  else
    let days := daysOf { year := year, month := month, day := day }
    some ((days * secondsPerDay + (3600 * hour + 60 * minute + second : ℕ)) * nanosPerSecond +
      fraction)

theorem bind_of_eq_some {α β : Type} {x : Option α} {f : α → Option β} {a : α} {b : Option β}
    (h : x = some a) (hf : f a = b) : x >>= f = b := by
  rw [h]
  exact hf

theorem expect_cons (c : Char) (s : List Char) : expect c (c :: s) = some s := by
  simp [expect]

theorem isDigit_digitChar {d : ℕ} (h : d < 10) :
    (Nat.digitChar d).isDigit = true ∧ (Nat.digitChar d).toNat - 48 = d := by
  interval_cases d <;> exact ⟨by decide, by decide⟩

theorem readDigits_pad (width : ℕ) : ∀ (n : ℕ) (r : List Char),
    readDigits width (pad width n ++ r) = some (n % 10 ^ width, r) := by
  induction width with
  | zero =>
    intro n r
    simp [readDigits, pad, Nat.mod_one]
  | succ width ih =>
    intro n r
    obtain ⟨hdigit, hvalue⟩ := isDigit_digitChar (Nat.mod_lt n (by decide : 0 < 10))
    have hmod : 10 * (n / 10 % 10 ^ width) + n % 10 = n % 10 ^ (width + 1) := by
      rw [Nat.pow_succ', Nat.mod_mul]
      omega
    simp only [pad, readDigits, List.append_assoc, List.singleton_append, ih, Option.bind_eq_bind,
      Option.bind_some, hdigit, if_true, hvalue, hmod]

theorem isDigit_of_mem_pad {width n : ℕ} {c : Char} (h : c ∈ pad width n) : c.isDigit = true := by
  induction width generalizing n with
  | zero => cases h
  | succ width ih =>
    rcases List.mem_append.mp h with h | h
    · exact ih h
    · obtain rfl := List.mem_singleton.mp h
      exact (isDigit_digitChar (Nat.mod_lt n (by decide))).1

theorem length_pad (width n : ℕ) : (pad width n).length = width := by
  induction width generalizing n with
  | zero => rfl
  | succ width ih => simp [pad, ih]

/-- Trailing zeros can be put back. -/
theorem rdropWhile_append_zeros (s : List Char) :
    s.rdropWhile (· == '0') ++ List.replicate (s.length - (s.rdropWhile (· == '0')).length) '0' =
      s := by
  induction s using List.reverseRecOn with
  | nil => rfl
  | append_singleton s c ih =>
    by_cases hc : (c == '0') = true
    · rw [List.rdropWhile_concat_pos (· == '0') s c hc]
      have hle : (s.rdropWhile (· == '0')).length ≤ s.length :=
        (List.rdropWhile_prefix (· == '0') s).length_le
      rw [List.length_append, List.length_singleton, Nat.sub_add_comm hle, List.replicate_succ',
        ← List.append_assoc, ih]
      simp at hc
      rw [hc]
    · rw [List.rdropWhile_concat_neg (· == '0') s c hc]
      simp

theorem readFraction_encodeFraction {nanos : ℕ} (h : nanos < 10 ^ 9) (r : List Char) :
    readFraction (encodeFraction nanos ++ 'Z' :: r) = some (nanos, 'Z' :: r) := by
  unfold encodeFraction
  by_cases h0 : nanos = 0
  · simp [h0, readFraction]
  · rw [if_neg h0]
    set digits := (pad 9 nanos).rdropWhile (· == '0') with hd
    have hzeros := rdropWhile_append_zeros (pad 9 nanos)
    rw [← hd, length_pad] at hzeros
    have hdigits : ∀ c ∈ digits, c.isDigit = true := by
      intro c hc
      exact isDigit_of_mem_pad ((List.rdropWhile_prefix (· == '0') (pad 9 nanos)).subset hc)
    have hlen : digits.length ≤ 9 := by
      have := (List.rdropWhile_prefix (· == '0') (pad 9 nanos)).length_le
      rwa [length_pad] at this
    have htake : (digits ++ 'Z' :: r).takeWhile Char.isDigit = digits := by
      rw [List.takeWhile_append_of_pos hdigits]
      simp
    have hdrop : (digits ++ 'Z' :: r).dropWhile Char.isDigit = 'Z' :: r := by
      rw [List.dropWhile_append_of_pos hdigits]
      simp
    have hread : readDigits 9 (digits ++ List.replicate 9 '0') =
        some (nanos, List.replicate digits.length '0') := by
      have hsplit : List.replicate 9 '0' =
          List.replicate (9 - digits.length) '0' ++ List.replicate digits.length '0' := by
        rw [List.replicate_append_replicate, Nat.sub_add_cancel hlen]
      rw [hsplit, ← List.append_assoc, hzeros, readDigits_pad, Nat.mod_eq_of_lt h]
    have hne : digits ≠ [] := by
      intro hnil
      rw [hnil] at hread
      have : readDigits 9 ([] ++ List.replicate 9 '0') = some (0, []) := by decide
      exact h0 (congrArg Prod.fst (Option.some.inj (this.symm.trans hread))).symm
    simp only [List.cons_append, readFraction, htake, if_neg hne, hread, hdrop, Option.map_some]

/-- The date of a day between 1600 and 2400 fits its fields. -/
theorem civil_bounds {days : ℤ} (h0 : -135081 ≤ days) (h1 : days < 157054) :
    (0 ≤ (civil days).year ∧ (civil days).year < 10000) ∧
      (0 ≤ (civil days).month ∧ (civil days).month < 100) ∧
      0 ≤ (civil days).day ∧ (civil days).day < 100 := by
  have hd0 : 0 ≤ dayOfEra days := Int.emod_nonneg _ (by decide)
  have hd1 : dayOfEra days < 146097 := Int.emod_lt_of_pos _ (by decide)
  have hc := century_bounds hd0 hd1
  have hq := cycle_bounds hd0 hd1
  obtain ⟨k0, k1, d0, d1⟩ := dayOfYear_bounds hd0 hd1
  have he : 0 ≤ eraOf days ∧ eraOf days ≤ 6 := by
    unfold eraOf
    omega
  simp only [civil, dateOf]
  generalize century (dayOfEra days) = c, cycle (dayOfEra days) = q,
    yearOfCycle (dayOfEra days) = k, eraOf days = era, dayOfYear (dayOfEra days) = doy at *
  have hm : monthOfYear doy = (5 * doy + 2) / 153 := rfl
  generalize monthOfYear doy = mp at *
  refine ⟨?_, ?_, by omega⟩
  · have hnext : 0 ≤ (if (if mp < 10 then mp + 3 else mp - 9) ≤ 2 then (1 : ℤ) else 0) ∧
        (if (if mp < 10 then mp + 3 else mp - 9) ≤ 2 then (1 : ℤ) else 0) ≤ 1 := by
      by_cases hp : (if mp < 10 then mp + 3 else mp - 9) ≤ 2 <;> simp [hp]
    omega
  · by_cases h10 : mp < 10
    · rw [if_pos h10]
      omega
    · rw [if_neg h10]
      omega

/-- **An instant can be read back from its text.** -/
theorem parseInstant_formatInstant {nanos : ℤ} (h0 : -11670998400000000000 ≤ nanos)
    (h1 : nanos < 13569000000000000000) : parseInstant (formatInstant nanos) = some nanos := by
  unfold formatInstant parseInstant
  dsimp only
  have hn0 : 0 ≤ nanos % nanosPerSecond := Int.emod_nonneg _ (by decide)
  have hn1 : nanos % nanosPerSecond < 10 ^ 9 := Int.emod_lt_of_pos _ (by decide)
  have hs0 : 0 ≤ nanos / nanosPerSecond % secondsPerDay := Int.emod_nonneg _ (by decide)
  have hs1 : nanos / nanosPerSecond % secondsPerDay < 86400 := Int.emod_lt_of_pos _ (by decide)
  have hnanos : nanos / nanosPerSecond * nanosPerSecond + nanos % nanosPerSecond = nanos :=
    Int.ediv_mul_add_emod _ _
  have hseconds := Int.ediv_mul_add_emod (nanos / nanosPerSecond) secondsPerDay
  obtain ⟨hyear, hmonth, hday⟩ := @civil_bounds (nanos / nanosPerSecond / secondsPerDay)
    (by unfold nanosPerSecond secondsPerDay; omega) (by unfold nanosPerSecond secondsPerDay; omega)
  have hcivil := daysOf_civil (nanos / nanosPerSecond / secondsPerDay)
  obtain ⟨clock, hclock⟩ := Int.eq_ofNat_of_zero_le hs0
  obtain ⟨fraction, hfraction⟩ := Int.eq_ofNat_of_zero_le hn0
  have hf : fraction < 10 ^ 9 := by omega
  have hvalid : ¬ (['Z'] ≠ ['Z'] ∨ 23 < clock / 3600 ∨ 59 < clock / 60 % 60 ∨ 59 < clock % 60) := by
    rintro (h | h)
    · exact h rfl
    · omega
  rw [hclock, hfraction]
  rw [Int.toNat_natCast, Int.toNat_natCast]
  refine bind_of_eq_some (readDigits_pad 4 _ _) (bind_of_eq_some (expect_cons _ _)
    (bind_of_eq_some (readDigits_pad 2 _ _) (bind_of_eq_some (expect_cons _ _)
    (bind_of_eq_some (readDigits_pad 2 _ _) (bind_of_eq_some (expect_cons _ _)
    (bind_of_eq_some (readDigits_pad 2 _ _) (bind_of_eq_some (expect_cons _ _)
    (bind_of_eq_some (readDigits_pad 2 _ _) (bind_of_eq_some (expect_cons _ _)
    (bind_of_eq_some (readDigits_pad 2 _ _)
    (bind_of_eq_some (readFraction_encodeFraction hf []) ?_)))))))))))
  dsimp only
  rw [Nat.mod_eq_of_lt (by omega : (civil _).year.toNat < 10 ^ 4),
    Nat.mod_eq_of_lt (by omega : (civil _).month.toNat < 10 ^ 2),
    Nat.mod_eq_of_lt (by omega : (civil _).day.toNat < 10 ^ 2),
    Nat.mod_eq_of_lt (by omega : clock / 3600 < 10 ^ 2),
    Nat.mod_eq_of_lt (by omega : clock / 60 % 60 < 10 ^ 2),
    Nat.mod_eq_of_lt (by omega : clock % 60 < 10 ^ 2), if_neg hvalid]
  rw [Int.toNat_of_nonneg hyear.1, Int.toNat_of_nonneg hmonth.1, Int.toNat_of_nonneg hday.1]
  have hclockSum : 3600 * (clock / 3600) + 60 * (clock / 60 % 60) + clock % 60 = clock := by omega
  rw [hclockSum, hcivil, ← hclock, hseconds, ← hfraction, hnanos]

/-! ### What texts are made of -/

theorem ascii_of_isDigit {c : Char} (h : c.isDigit = true) : c.toNat < 128 := by
  simp only [Char.isDigit, Bool.and_eq_true, decide_eq_true_eq, ge_iff_le] at h
  have hle : c.val.toNat ≤ (57 : UInt32).toNat := UInt32.le_iff_toNat_le.mp h.2
  have : c.toNat ≤ 57 := hle
  omega

/-- A text is in ASCII. -/
theorem ascii_formatInstant {nanos : ℤ} {c : Char} (h : c ∈ formatInstant nanos) :
    c.toNat < 128 := by
  have hpad : ∀ {width n : ℕ}, c ∈ pad width n → c.toNat < 128 := fun hc =>
    ascii_of_isDigit (isDigit_of_mem_pad hc)
  have hfraction : ∀ {n : ℕ}, c ∈ encodeFraction n → c.toNat < 128 := by
    intro n hc
    unfold encodeFraction at hc
    split at hc
    · cases hc
    rcases List.mem_cons.mp hc with rfl | hc
    · decide
    · exact hpad ((List.rdropWhile_prefix (· == '0') (pad 9 n)).subset hc)
  simp only [formatInstant, List.mem_append, List.mem_cons, List.not_mem_nil, or_false] at h
  rcases h with h | rfl | h | rfl | h | rfl | h | rfl | h | rfl | h | h | rfl
  all_goals first | exact hpad h | exact hfraction h | decide

/-- A text has between 20 and 30 characters. -/
theorem length_formatInstant (nanos : ℤ) :
    20 ≤ (formatInstant nanos).length ∧ (formatInstant nanos).length ≤ 30 := by
  have hfraction : ∀ n : ℕ, (encodeFraction n).length ≤ 10 := by
    intro n
    unfold encodeFraction
    split
    · simp
    · have := (List.rdropWhile_prefix (· == '0') (pad 9 n)).length_le
      rw [length_pad] at this
      simp only [List.length_cons]
      omega
  have := hfraction (nanos % nanosPerSecond).toNat
  simp only [formatInstant, List.length_append, List.length_cons, length_pad, List.length_nil]
  omega

end Modary.Lib.Timestamp
