import MicroOS.Calendar

/-! The conversions between Unix time and civil time (`unix_time.c`, the same text in the kernel and in the C library). -/

namespace MicroOS.UnixTime
open Calendar

/-- The arithmetic of the 32-bit types `unsigned long` and `int` and of `long long`: exact for a result of the type, anything
otherwise. -/
structure Machine where
  word : Int → Option Int
  int : Int → Option Int
  long : Int → Option Int
  word_exact {x : Int} : 0 ≤ x → x < 4294967296 → word x = some x
  int_exact {x : Int} : -2147483648 ≤ x → x < 2147483648 → int x = some x
  long_exact {x : Int} : -9223372036854775808 ≤ x → x < 9223372036854775808 → long x = some x

/-- The machine of the C standard: unsigned arithmetic wraps, an overflow of a signed type is undefined. -/
def c_machine : Machine where
  word x := some (x % 4294967296)
  int x := if -2147483648 ≤ x ∧ x < 2147483648 then some x else none
  long x := if -9223372036854775808 ≤ x ∧ x < 9223372036854775808 then some x else none
  word_exact low high := by rw [Int.emod_eq_of_lt low high]
  int_exact low high := if_pos ⟨low,high⟩
  long_exact low high := if_pos ⟨low,high⟩

section
variable (a : Machine) {β : Type} {f : Int → Option β} {r : Option β} {x : Int}

theorem Machine.word_bind (low : 0 ≤ x) (high : x < 4294967296) (next : f x = r) : (a.word x >>= f) = r := by
  rw [a.word_exact low high]
  exact next

theorem Machine.int_bind (low : -2147483648 ≤ x) (high : x < 2147483648) (next : f x = r) : (a.int x >>= f) = r := by
  rw [a.int_exact low high]
  exact next

theorem Machine.long_bind (low : -9223372036854775808 ≤ x) (high : x < 9223372036854775808) (next : f x = r) :
    (a.long x >>= f) = r := by
  rw [a.long_exact low high]
  exact next

end

def days_since_newyear (i : Int) : Option Int :=
  if 0 ≤ i then [0,31,59,90,120,151,181,212,243,273,304,334][i.toNat]? else none

def to_unix_time (a : Machine) (c : Civil) : Option Int := do
  let year ← a.int (c.year - 1)
  let fourth ← a.int (year - 1968)
  let hundredth ← a.int (year - 1900)
  let four_hundredth ← a.int (year - 1600)
  let leap_years ← a.int (fourth.tdiv 4 - hundredth.tdiv 100)
  let leap_years ← a.int (leap_years + four_hundredth.tdiv 400)
  let years ← a.int (c.year - 1970)
  let days ← a.int (years * 365)
  let days ← a.int (days + leap_years)
  let newyear ← days_since_newyear (← a.int (c.month - 1))
  let days ← a.int (days + newyear)
  let days ← a.int (days + c.day)
  let days_since_1970 ← a.int (days - 1)
  let days_since_1970 ←
    (if c.month > 2 ∧ (c.year.tmod 4 = 0 ∧ (c.year.tmod 100 ≠ 0 ∨ c.year.tmod 400 = 0)) then a.long (days_since_1970 + 1)
    else some days_since_1970 : Option Int)
  let hours ← a.long (c.hour + (← a.long (24 * days_since_1970)))
  let minutes ← a.long (c.minute + (← a.long (60 * hours)))
  a.long (c.second + (← a.long (60 * minutes)))

def from_unix_time (a : Machine) (unixtime : BitVec 32) : Option Civil := do
  let day_n ← a.word (719468 + (unixtime.toNat : Int) / 86400)
  let seconds_since_0 := (unixtime.toNat : Int) % 86400
  let temp ← a.word ((← a.word (4 * (← a.word ((← a.word (day_n + 36524)) + 1)))) / 146097 - 1)
  let year ← a.int (← a.word (100 * temp))
  let day_n ← a.word (day_n - (← a.word ((← a.word (36524 * temp)) + temp / 4)))
  let temp ← a.word ((← a.word (4 * (← a.word ((← a.word (day_n + 365)) + 1)))) / 1461 - 1)
  let year ← a.int (← a.word ((← a.word year) + temp))
  let day_n ← a.word (day_n - (← a.word ((← a.word (365 * temp)) + temp / 4)))
  let month ← a.int ((← a.word ((← a.word (5 * day_n)) + 2)) / 153)
  let before ← a.word ((← a.int ((← a.int (month * 153)) + 2)).tdiv 5)
  let day ← a.int (← a.word ((← a.word (day_n - before)) + 1))
  let month ← a.int (month + 3)
  let date ← (if month > 12 then a.int (month - 12) >>= fun month => a.int (year + 1) >>= fun year => some ⟨year,month,day⟩
    else some ⟨year,month,day⟩ : Option Date)
  let hour ← a.int (seconds_since_0 / 3600)
  let minute ← a.int (seconds_since_0 % 3600 / 60)
  let second ← a.int (seconds_since_0 % 60)
  some ⟨date,hour,minute,second⟩

/-- 1 January 1970, in days from 1 January of year 1. -/
def epoch : Int := 719162

/-- The civil time `t` seconds after the beginning of 1970. -/
def civil_of (t : Int) : Civil :=
  ⟨date_of (719468 + t / 86400),t % 86400 / 3600,t % 86400 % 3600 / 60,t % 86400 % 60⟩

theorem civil_of_valid {t : Int} (start : 0 ≤ t) : (civil_of t).Valid where
  date := date_of_valid (by omega)
  hour := by simp only [civil_of]; omega
  minute := by simp only [civil_of]; omega
  second := by simp only [civil_of]; omega

theorem civil_of_seconds {t : Int} (start : 0 ≤ t) : (civil_of t).seconds = 86400 * epoch + t := by
  have days : (civil_of t).toDate.number = 719468 + t / 86400 - 306 := date_of_number (by omega)
  simp only [Civil.seconds,days]
  simp only [civil_of,epoch]
  omega

/-- Every step of the inversion stays inside its type. -/
theorem from_unix_time_exact (a : Machine) (t : BitVec 32) : from_unix_time a t = some (civil_of t.toNat) := by
  have small := t.isLt
  obtain ⟨n,counted⟩ : ∃ n : Int, 719468 + (t.toNat : Int) / 86400 = n := ⟨_,rfl⟩
  have start : 719468 ≤ n := by omega
  have last : n ≤ 769178 := by omega
  obtain ⟨-,century_low,century_high⟩ := @century_bounds n (by omega)
  obtain ⟨year_low,year_high,day_low,day_high⟩ := @year_bounds n (by omega)
  obtain ⟨month_low,month_high,day_first⟩ := @month_bounds n (by omega)
  have positive : 0 ≤ century n := by unfold century; omega
  have bounded : century n ≤ 21 := by unfold century; omega
  have days : (year_month n * 153 + 2).tdiv 5 = (year_month n * 153 + 2) / 5 := Int.tdiv_eq_ediv_of_nonneg (by omega)
  unfold from_unix_time
  rw [counted]
  refine a.word_bind (by omega) (by omega) ?_
  refine a.word_bind (by omega) (by omega) (a.word_bind (by omega) (by omega) (a.word_bind (by omega) (by omega) ?_))
  change (a.word (century n) >>= _) = _
  refine a.word_bind (by omega) (by omega) ?_
  refine a.word_bind (by omega) (by omega) (a.int_bind (by omega) (by omega) ?_)
  refine a.word_bind (by omega) (by omega) (a.word_bind (by omega) (by omega) ?_)
  change (a.word (century_day n) >>= _) = _
  refine a.word_bind (by omega) (by omega) ?_
  refine a.word_bind (by omega) (by omega) (a.word_bind (by omega) (by omega) (a.word_bind (by omega) (by omega) ?_))
  change (a.word (year_of_century n) >>= _) = _
  refine a.word_bind (by omega) (by omega) ?_
  refine a.word_bind (by omega) (by omega) (a.word_bind (by omega) (by omega) (a.int_bind (by omega) (by omega) ?_))
  refine a.word_bind (by omega) (by omega) (a.word_bind (by omega) (by omega) ?_)
  change (a.word (year_day n) >>= _) = _
  refine a.word_bind (by omega) (by omega) ?_
  refine a.word_bind (by omega) (by omega) (a.word_bind (by omega) (by omega) ?_)
  change (a.int (year_month n) >>= _) = _
  refine a.int_bind (by omega) (by omega) ?_
  refine a.int_bind (by omega) (by omega) (a.int_bind (by omega) (by omega) ?_)
  rw [days]
  refine a.word_bind (by omega) (by omega) ?_
  have day : year_day n - (year_month n * 153 + 2) / 5 + 1 = month_day n := rfl
  have day_last : month_day n ≤ 31 := by
    have month : year_month n = (5 * year_day n + 2) / 153 := rfl
    omega
  refine a.word_bind (by omega) (by omega) (a.word_bind (by omega) (by omega) ?_)
  change (a.int (month_day n) >>= _) = _
  refine a.int_bind (by omega) (by omega) (a.int_bind (by omega) (by omega) ?_)
  have of_day (date : Date) (same : date_of n = date) : (do
      let hour ← a.int ((t.toNat : Int) % 86400 / 3600)
      let minute ← a.int ((t.toNat : Int) % 86400 % 3600 / 60)
      let second ← a.int ((t.toNat : Int) % 86400 % 60)
      some (⟨date,hour,minute,second⟩ : Civil)) = some (civil_of t.toNat) := by
    refine a.int_bind (by omega) (by omega) (a.int_bind (by omega) (by omega) (a.int_bind (by omega) (by omega) ?_))
    rw [civil_of,counted,same]
  by_cases before : year_month n < 10
  · rw [if_neg (by omega)]
    exact of_day _ (by rw [date_of,march_date,if_pos before])
  · rw [if_pos (by omega),a.int_exact (by omega) (by omega)]
    simp only [Option.bind_eq_bind,Option.bind_some]
    rw [a.int_exact (by omega) (by omega),Option.bind_some,Option.bind_some]
    refine of_day _ ?_
    rw [date_of,march_date,if_neg before]
    congr 1
    omega

theorem days_since_newyear_exact {month : Int} (first : 1 ≤ month) (last : month ≤ 12) :
    days_since_newyear (month - 1) = some ((367 * month - 362) / 12 - if month ≤ 2 then 0 else 2) := by
  interval_cases month <;> rfl

theorem leap_test {year : Int} (first : 0 ≤ year) :
    (year.tmod 4 = 0 ∧ (year.tmod 100 ≠ 0 ∨ year.tmod 400 = 0)) ↔ Leap year := by
  simp only [Leap,Int.tmod_eq_emod_of_nonneg first]

/-- The sum of the code is the number of the day. -/
theorem days_counted {d : Date} :
    (d.year - 1970) * 365 + ((d.year - 1 - 1968) / 4 - (d.year - 1 - 1900) / 100 + (d.year - 1 - 1600) / 400) +
      ((367 * d.month - 362) / 12 - if d.month ≤ 2 then 0 else 2) + d.day - 1 +
        (if d.month > 2 ∧ Leap d.year then 1 else 0) = d.number - epoch := by
  have leaps : (d.year - 1 - 1968) / 4 - (d.year - 1 - 1900) / 100 + (d.year - 1 - 1600) / 400 =
      (d.year - 1) / 4 - (d.year - 1) / 100 + (d.year - 1) / 400 - 477 := by omega
  rw [leaps,Date.number,days_before,epoch]
  by_cases early : d.month ≤ 2
  · have late : ¬ (d.month > 2 ∧ Leap d.year) := fun late => absurd late.1 (Int.not_lt.mpr early)
    rw [if_pos early,if_pos early,if_neg late]
    omega
  · rw [if_neg early,if_neg early]
    by_cases leap : Leap d.year
    · rw [if_pos leap,if_pos ⟨Int.not_le.mp early,leap⟩]
      omega
    · rw [if_neg leap,if_neg fun late => leap late.2]
      omega

/-- In the years from 1970 on the counting of days stays inside its types and counts the seconds of the calendar. -/
theorem to_unix_time_exact (a : Machine) {c : Civil} (valid : c.Valid) (first : 1970 ≤ c.year) (last : c.year ≤ 5000000) :
    to_unix_time a c = some (c.seconds - 86400 * epoch) := by
  have month_low := valid.date.first_month
  have month_high := valid.date.last_month
  have day_low := valid.date.first_day
  have day_high : c.day ≤ 31 := le_trans valid.date.last_day (by unfold month_length; split_ifs <;> omega)
  obtain ⟨hour,minute,second⟩ := And.intro valid.hour (And.intro valid.minute valid.second)
  have fourth : (c.year - 1 - 1968).tdiv 4 = (c.year - 1 - 1968) / 4 := Int.tdiv_eq_ediv_of_nonneg (by omega)
  have hundredth : (c.year - 1 - 1900).tdiv 100 = (c.year - 1 - 1900) / 100 := Int.tdiv_eq_ediv_of_nonneg (by omega)
  have four_hundredth : (c.year - 1 - 1600).tdiv 400 = (c.year - 1 - 1600) / 400 := Int.tdiv_eq_ediv_of_nonneg (by omega)
  unfold to_unix_time
  refine a.int_bind (by omega) (by omega) (a.int_bind (by omega) (by omega) (a.int_bind (by omega) (by omega) ?_))
  refine a.int_bind (by omega) (by omega) ?_
  rw [fourth,hundredth,four_hundredth]
  refine a.int_bind (by omega) (by omega) (a.int_bind (by omega) (by omega) (a.int_bind (by omega) (by omega) ?_))
  refine a.int_bind (by omega) (by omega) (a.int_bind (by omega) (by omega) (a.int_bind (by omega) (by omega) ?_))
  obtain ⟨newyear,before⟩ : ∃ newyear : Int, (367 * c.month - 362) / 12 - (if c.month ≤ 2 then 0 else 2) = newyear :=
    ⟨_,rfl⟩
  have low : 0 ≤ newyear := by split_ifs at before <;> omega
  have high : newyear ≤ 334 := by split_ifs at before <;> omega
  have counted := @days_counted c.toDate
  rw [days_since_newyear_exact month_low month_high,before]
  rw [before] at counted
  refine a.int_bind (by omega) (by omega) (a.int_bind (by omega) (by omega) (a.int_bind (by omega) (by omega) ?_))
  simp only [leap_test (show 0 ≤ c.year by omega)]
  obtain ⟨days,sum⟩ : ∃ days : Int, (c.year - 1970) * 365 +
      ((c.year - 1 - 1968) / 4 - (c.year - 1 - 1900) / 100 + (c.year - 1 - 1600) / 400) + newyear + c.day - 1 = days := ⟨_,rfl⟩
  have days_low : 0 ≤ days := by omega
  have days_high : days ≤ 2000000000 := by omega
  rw [sum] at counted ⊢
  have leap_day : (if c.month > 2 ∧ Leap c.year then a.long (days + 1) else some days) = some (c.toDate.number - epoch) := by
    rw [← counted]
    split_ifs
    · exact a.long_exact (by omega) (by omega)
    · rw [Int.add_zero]
  have days_counted : days ≤ c.toDate.number - epoch ∧ c.toDate.number - epoch ≤ days + 1 := by
    rw [← counted]
    split_ifs <;> omega
  rw [leap_day]
  refine a.long_bind (by omega) (by omega) (a.long_bind (by omega) (by omega) (a.long_bind (by omega) (by omega) ?_))
  refine a.long_bind (by omega) (by omega) (a.long_bind (by omega) (by omega) ?_)
  rw [a.long_exact (by omega) (by omega),Civil.seconds]
  congr 1
  omega

def first_day : Date := ⟨1970,1,1⟩
def last_second : Civil := ⟨⟨2106,2,7⟩,6,28,15⟩

theorem first_day_valid : first_day.Valid := ⟨by decide,by decide,by decide,by decide⟩

theorem first_day_number : first_day.number = epoch := by decide

theorem last_second_valid : last_second.Valid where
  date := ⟨by decide,by decide,by decide,by decide⟩
  hour := by decide
  minute := by decide
  second := by decide

theorem last_second_seconds : last_second.seconds = 86400 * epoch + 4294967295 := by decide

theorem from_epoch_iff {d : Date} (valid : d.Valid) : epoch ≤ d.number ↔ 1970 ≤ d.year := by
  have first := valid.first_month
  have day := valid.first_day
  rw [← first_day_number]
  constructor
  · intro later
    by_contra before
    have earlier : d.Earlier first_day := .inl (Int.not_le.mp before)
    exact absurd (earlier.number_lt valid first_day_valid) (Int.not_lt.mpr later)
  · intro year
    obtain earlier | equal | later := Date.earlier_trichotomy first_day d
    · exact Int.le_of_lt (earlier.number_lt first_day_valid valid)
    · rw [equal]
    · simp only [Date.Earlier,first_day] at later
      omega

theorem civil_of_year (t : BitVec 32) : 1970 ≤ (civil_of t.toNat).year ∧ (civil_of t.toNat).year ≤ 2106 := by
  have small := t.isLt
  have valid := civil_of_valid (Int.natCast_nonneg t.toNat)
  have seconds := civil_of_seconds (Int.natCast_nonneg t.toNat)
  have number : (civil_of t.toNat).toDate.number = 719468 + (t.toNat : Int) / 86400 - 306 := date_of_number (by omega)
  refine ⟨(from_epoch_iff valid.date).mp (by rw [number,epoch]; omega),?_⟩
  by_contra beyond
  have later : last_second.Earlier (civil_of t.toNat) := .inl (.inl (Int.not_le.mp beyond))
  have := later.seconds_lt last_second_valid valid
  rw [last_second_seconds,seconds] at this
  omega

/-- A civil time from 1970 up to the last 32-bit second. -/
theorem seconds_range {c : Civil} (valid : c.Valid) (first : 1970 ≤ c.year) (inside : ¬ last_second.Earlier c) :
    86400 * epoch ≤ c.seconds ∧ c.seconds ≤ 86400 * epoch + 4294967295 := by
  have day := (from_epoch_iff valid.date).mpr first
  obtain ⟨hour,minute,second⟩ := And.intro valid.hour (And.intro valid.minute valid.second)
  refine ⟨by unfold Civil.seconds; omega,?_⟩
  rw [← last_second_seconds]
  obtain earlier | equal | later := Civil.earlier_trichotomy c last_second
  · exact Int.le_of_lt (earlier.seconds_lt valid last_second_valid)
  · rw [equal]
  · exact absurd later inside

theorem round_trip (a : Machine) (t : BitVec 32) : to_unix_time a (civil_of t.toNat) = some t.toNat := by
  have start : (0 : Int) ≤ t.toNat := Int.natCast_nonneg _
  obtain ⟨first,last⟩ := civil_of_year t
  rw [to_unix_time_exact a (civil_of_valid start) first (by omega),civil_of_seconds start]
  congr 1
  omega

/-- Every 32-bit time is a valid civil time that converts back to it, and every civil time from 1970 up to the last
    32-bit second converts to a 32-bit time and back, on every machine that is exact inside the ranges of its types. -/
theorem calendar_conversion (a : Machine) :
    (∀ t : BitVec 32, ∃ c, from_unix_time a t = some c ∧ c.Valid ∧ to_unix_time a c = some t.toNat) ∧
    ∀ c : Civil, c.Valid → 1970 ≤ c.year → ¬ last_second.Earlier c →
      ∃ t : BitVec 32, to_unix_time a c = some t.toNat ∧ from_unix_time a t = some c := by
  refine ⟨fun t => ⟨_,from_unix_time_exact a t,civil_of_valid (Int.natCast_nonneg _),round_trip a t⟩,?_⟩
  intro c valid first inside
  obtain ⟨low,high⟩ := seconds_range valid first inside
  obtain ⟨t,counted⟩ : ∃ t : BitVec 32, (t.toNat : Int) = c.seconds - 86400 * epoch := by
    refine ⟨BitVec.ofNat 32 (c.seconds - 86400 * epoch).toNat,?_⟩
    rw [BitVec.toNat_ofNat]
    omega
  have same : civil_of t.toNat = c := by
    refine Civil.seconds_injective (civil_of_valid (Int.natCast_nonneg _)) valid ?_
    rw [civil_of_seconds (Int.natCast_nonneg _),counted]
    omega
  exact ⟨t,same ▸ round_trip a t,same ▸ from_unix_time_exact a t⟩

/-- The leap day of the year 2000 in the arithmetic of C. -/
theorem calendar_conversion_leap_day :
    from_unix_time c_machine 951782400#32 = some ⟨⟨2000,2,29⟩,0,0,0⟩ ∧
    ∃ t : BitVec 32, to_unix_time c_machine ⟨⟨2000,2,29⟩,0,0,0⟩ = some t.toNat ∧
      from_unix_time c_machine t = some ⟨⟨2000,2,29⟩,0,0,0⟩ := by
  have valid : (⟨⟨2000,2,29⟩,0,0,0⟩ : Civil).Valid :=
    ⟨⟨by decide,by decide,by decide,by decide⟩,by decide,by decide,by decide⟩
  have before : ¬ last_second.Earlier ⟨⟨2000,2,29⟩,0,0,0⟩ := by simp [Civil.Earlier,Date.Earlier,last_second]
  exact ⟨by decide,(calendar_conversion c_machine).2 _ valid (by decide) before⟩

end MicroOS.UnixTime
