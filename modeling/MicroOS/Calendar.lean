import Mathlib.Order.Basic
import Mathlib.Tactic.IntervalCases
import Mathlib.Algebra.Order.Ring.Int

/-! The Gregorian calendar: the lengths of months, the numbers of days and the order they keep. -/

namespace MicroOS.Calendar

def Leap (year : Int) : Prop := year % 4 = 0 ∧ (year % 100 ≠ 0 ∨ year % 400 = 0)

instance (year : Int) : Decidable (Leap year) := inferInstanceAs (Decidable (_ ∧ _))

def month_length (year month : Int) : Int :=
  if month = 2 then if Leap year then 29 else 28
  else if month = 4 ∨ month = 6 ∨ month = 9 ∨ month = 11 then 30
  else 31

structure Date where
  year : Int
  month : Int
  day : Int
  deriving DecidableEq

structure Date.Valid (d : Date) : Prop where
  first_month : 1 ≤ d.month
  last_month : d.month ≤ 12
  first_day : 1 ≤ d.day
  last_day : d.day ≤ month_length d.year d.month

/-- The days from 1 January of year 1 to the first of a month. -/
def days_before (year month : Int) : Int :=
  365 * (year - 1) + (year - 1) / 4 - (year - 1) / 100 + (year - 1) / 400 + (367 * month - 362) / 12 -
    if month ≤ 2 then 0 else if Leap year then 1 else 2

def Date.number (d : Date) : Int := days_before d.year d.month + (d.day - 1)

theorem month_length_pos (year month : Int) : 0 < month_length year month := by
  unfold month_length
  split_ifs <;> omega

theorem days_before_next_month {year month : Int} (first : 1 ≤ month) (last : month < 12) :
    days_before year (month + 1) = days_before year month + month_length year month := by
  interval_cases month <;> simp [days_before,month_length] <;> split_ifs <;> omega

theorem days_before_next_year (year : Int) :
    days_before (year + 1) 1 = days_before year 12 + month_length year 12 := by
  have common : (year + 1 - 1) = year := by omega
  simp only [days_before,month_length,common]
  by_cases leap : Leap year
  · simp [leap]
    unfold Leap at leap
    omega
  · simp [leap]
    unfold Leap at leap
    omega

def month_start (k : Int) : Int := days_before (k / 12) (k % 12 + 1)

theorem month_start_next (k : Int) :
    month_start (k + 1) = month_start k + month_length (k / 12) (k % 12 + 1) := by
  unfold month_start
  by_cases last : k % 12 = 11
  · have year : (k + 1) / 12 = k / 12 + 1 := by omega
    have month : (k + 1) % 12 + 1 = 1 := by omega
    rw [year,month,last]
    exact days_before_next_year _
  · have year : (k + 1) / 12 = k / 12 := by omega
    have month : (k + 1) % 12 + 1 = k % 12 + 1 + 1 := by omega
    rw [year,month]
    exact days_before_next_month (by omega) (by omega)

theorem month_start_later {k k' : Int} (later : k + 1 ≤ k') :
    month_start k + month_length (k / 12) (k % 12 + 1) ≤ month_start k' := by
  induction k',later using Int.leInduction with
  | base => rw [month_start_next]
  | succ k' later ih =>
    have next := month_start_next k'
    have positive := month_length_pos (k' / 12) (k' % 12 + 1)
    omega

theorem Date.number_month {d : Date} (valid : d.Valid) : d.number = month_start (12 * d.year + (d.month - 1)) + (d.day - 1) ∧
    month_length ((12 * d.year + (d.month - 1)) / 12) ((12 * d.year + (d.month - 1)) % 12 + 1) = month_length d.year d.month := by
  have first := valid.first_month
  have last := valid.last_month
  have year : (12 * d.year + (d.month - 1)) / 12 = d.year := by omega
  have month : (12 * d.year + (d.month - 1)) % 12 + 1 = d.month := by omega
  simp only [Date.number,month_start,year,month,and_self]

/-- The order of dates: by year, month and day. -/
def Date.Earlier (d e : Date) : Prop :=
  d.year < e.year ∨ d.year = e.year ∧ (d.month < e.month ∨ d.month = e.month ∧ d.day < e.day)

theorem Date.Earlier.number_lt {d e : Date} (earlier : d.Earlier e) (valid : d.Valid) (valid' : e.Valid) :
    d.number < e.number := by
  obtain ⟨counted,length⟩ := Date.number_month valid
  obtain ⟨counted',-⟩ := Date.number_month valid'
  have := valid.first_month
  have := valid.last_month
  have := valid'.first_month
  have := valid'.last_month
  have := valid.last_day
  have := valid'.first_day
  by_cases same : 12 * d.year + (d.month - 1) = 12 * e.year + (e.month - 1)
  · rw [counted,counted',same]
    unfold Date.Earlier at earlier
    omega
  · have later := @month_start_later (12 * d.year + (d.month - 1)) (12 * e.year + (e.month - 1))
      (by unfold Date.Earlier at earlier; omega)
    omega

theorem Date.earlier_trichotomy (d e : Date) : d.Earlier e ∨ d = e ∨ e.Earlier d := by
  obtain ⟨year,month,day⟩ := d
  obtain ⟨year',month',day'⟩ := e
  simp only [Date.Earlier,Date.mk.injEq]
  omega

/-- The date of a day of the month `month`, counted from 0 for March, in the year that begins in March of `year`. -/
def march_date (year month day : Int) : Date :=
  if month < 10 then ⟨year,month + 3,day⟩ else ⟨year + 1,month - 9,day⟩

/-- The first of a month, in days from 1 March of the year 0. -/
theorem days_before_march {year month : Int} (first : 0 ≤ month) (last : month < 10) :
    days_before year (month + 3) = 365 * year + year / 4 - year / 100 + year / 400 + (153 * month + 2) / 5 - 306 := by
  have months : (367 * (month + 3) - 362) / 12 = (153 * month + 2) / 5 + 61 := by omega
  have leaps : (year - 1) / 4 - (year - 1) / 100 + (year - 1) / 400 + (if Leap year then 1 else 0) =
      year / 4 - year / 100 + year / 400 := by
    unfold Leap
    split_ifs <;> omega
  rw [days_before,months]
  split_ifs at leaps ⊢ <;> omega

theorem days_before_january {year month : Int} (first : 10 ≤ month) (last : month ≤ 11) :
    days_before (year + 1) (month - 9) = 365 * year + year / 4 - year / 100 + year / 400 + (153 * month + 2) / 5 - 306 := by
  have months : (367 * (month - 9) - 362) / 12 = (153 * month + 2) / 5 - 306 := by omega
  have common : year + 1 - 1 = year := by omega
  have early : month - 9 ≤ 2 := by omega
  rw [days_before,months,common,if_pos early]
  omega

theorem march_date_number {year month : Int} (first : 0 ≤ month) (last : month ≤ 11) (day : Int) :
    (march_date year month day).number =
      365 * year + year / 4 - year / 100 + year / 400 + (153 * month + 2) / 5 - 306 + (day - 1) := by
  by_cases before : month < 10
  · simp only [march_date,if_pos before,Date.number,days_before_march first before]
  · simp only [march_date,if_neg before,Date.number,days_before_january (Int.not_lt.mp before) last]

/-- The parts of a day number counted from 1 March of the year 0: the century, the year in it, the month and the day of
    the month. -/
def century (n : Int) : Int := 4 * (n + 36524 + 1) / 146097 - 1
def century_day (n : Int) : Int := n - (36524 * century n + century n / 4)
def year_of_century (n : Int) : Int := 4 * (century_day n + 365 + 1) / 1461 - 1
def year_day (n : Int) : Int := century_day n - (365 * year_of_century n + year_of_century n / 4)
def year_month (n : Int) : Int := (5 * year_day n + 2) / 153
def month_day (n : Int) : Int := year_day n - (year_month n * 153 + 2) / 5 + 1

def date_of (n : Int) : Date := march_date (100 * century n + year_of_century n) (year_month n) (month_day n)

section
variable {n : Int} (start : 0 ≤ n)
include start

theorem century_bounds : 0 ≤ century n ∧ 0 ≤ century_day n ∧
    (century_day n ≤ 36523 ∨ century_day n = 36524 ∧ (century n + 1) % 4 = 0) := by
  have low : 146097 * century n ≤ 4 * n + 3 := by unfold century; omega
  have high : 4 * n ≤ 146097 * century n + 146093 := by unfold century; omega
  have positive : 0 ≤ century n := by unfold century; omega
  unfold century_day
  generalize century n = c at *
  obtain ⟨k,rem⟩ : ∃ k, c = 4 * k ∨ c = 4 * k + 1 ∨ c = 4 * k + 2 ∨ c = 4 * k + 3 := ⟨c / 4,by omega⟩
  rcases rem with rfl | rfl | rfl | rfl <;> omega

theorem year_bounds : 0 ≤ year_of_century n ∧ year_of_century n ≤ 99 ∧ 0 ≤ year_day n ∧
    (year_day n ≤ 364 ∨ year_day n = 365 ∧ (year_of_century n + 1) % 4 = 0 ∧
      (year_of_century n = 99 → (century n + 1) % 4 = 0)) := by
  obtain ⟨-,inside,ends⟩ := century_bounds start
  have low : 1461 * year_of_century n ≤ 4 * century_day n + 3 := by unfold year_of_century; omega
  have high : 4 * century_day n ≤ 1461 * year_of_century n + 1457 := by unfold year_of_century; omega
  have positive : 0 ≤ year_of_century n := by unfold year_of_century; omega
  unfold year_day
  generalize year_of_century n = y at *
  obtain ⟨k,rem⟩ : ∃ k, y = 4 * k ∨ y = 4 * k + 1 ∨ y = 4 * k + 2 ∨ y = 4 * k + 3 := ⟨y / 4,by omega⟩
  rcases rem with rfl | rfl | rfl | rfl <;> omega

theorem month_bounds : 0 ≤ year_month n ∧ year_month n ≤ 11 ∧ 1 ≤ month_day n := by
  obtain ⟨-,-,inside,ends⟩ := year_bounds start
  unfold month_day year_month
  omega

theorem date_of_number : (date_of n).number = n - 306 := by
  obtain ⟨first,last,-⟩ := month_bounds start
  obtain ⟨low,high,-⟩ := year_bounds start
  rw [date_of,march_date_number first last]
  have fourth : (100 * century n + year_of_century n) / 4 = 25 * century n + year_of_century n / 4 := by omega
  have hundredth : (100 * century n + year_of_century n) / 100 = century n := by omega
  have four_hundredth : (100 * century n + year_of_century n) / 400 = century n / 4 := by omega
  rw [fourth,hundredth,four_hundredth,month_day,year_day,century_day]
  omega

theorem date_of_valid : (date_of n).Valid := by
  obtain ⟨first,last,day⟩ := month_bounds start
  obtain ⟨low,high,inside,ends⟩ := year_bounds start
  have leap : year_day n = 365 → Leap (100 * century n + year_of_century n + 1) := by
    unfold Leap
    omega
  have month : year_month n = (5 * year_day n + 2) / 153 := rfl
  have dated : month_day n = year_day n - (year_month n * 153 + 2) / 5 + 1 := rfl
  by_cases before : year_month n < 10
  · rw [date_of,march_date,if_pos before]
    refine ⟨by simp; omega,by simp; omega,day,?_⟩
    simp only [month_length]
    split_ifs <;> omega
  · rw [date_of,march_date,if_neg before]
    refine ⟨by simp; omega,by simp; omega,day,?_⟩
    simp only [month_length]
    split_ifs with second leaped
    · omega
    · have common : year_day n ≠ 365 := fun ends => leaped (leap ends)
      omega
    · omega
    · omega

end

structure Civil extends Date where
  hour : Int
  minute : Int
  second : Int
  deriving DecidableEq

structure Civil.Valid (c : Civil) : Prop where
  date : c.toDate.Valid
  hour : 0 ≤ c.hour ∧ c.hour < 24
  minute : 0 ≤ c.minute ∧ c.minute < 60
  second : 0 ≤ c.second ∧ c.second < 60

/-- The seconds from the first second of year 1. -/
def Civil.seconds (c : Civil) : Int := 86400 * c.toDate.number + 3600 * c.hour + 60 * c.minute + c.second

/-- The order of times: by date, hour, minute and second. -/
def Civil.Earlier (c e : Civil) : Prop :=
  c.toDate.Earlier e.toDate ∨ c.toDate = e.toDate ∧ (c.hour < e.hour ∨ c.hour = e.hour ∧
    (c.minute < e.minute ∨ c.minute = e.minute ∧ c.second < e.second))

theorem Civil.Earlier.seconds_lt {c e : Civil} (earlier : c.Earlier e) (valid : c.Valid) (valid' : e.Valid) :
    c.seconds < e.seconds := by
  have := valid.hour
  have := valid'.hour
  have := valid.minute
  have := valid'.minute
  have := valid.second
  have := valid'.second
  unfold Civil.seconds
  obtain day | ⟨day,within⟩ := earlier
  · have := day.number_lt valid.date valid'.date
    omega
  · rw [day]
    omega

theorem Civil.earlier_trichotomy (c e : Civil) : c.Earlier e ∨ c = e ∨ e.Earlier c := by
  obtain ⟨date,hour,minute,second⟩ := c
  obtain ⟨date',hour',minute',second'⟩ := e
  obtain earlier | equal | later := Date.earlier_trichotomy date date'
  · exact .inl (.inl earlier)
  · subst equal
    simp only [Civil.Earlier,true_and,Civil.mk.injEq]
    omega
  · exact .inr (.inr (.inl later))

theorem Civil.seconds_injective {c e : Civil} (valid : c.Valid) (valid' : e.Valid) (same : c.seconds = e.seconds) : c = e := by
  obtain earlier | equal | later := Civil.earlier_trichotomy c e
  · have := earlier.seconds_lt valid valid'
    omega
  · exact equal
  · have := later.seconds_lt valid' valid
    omega

end MicroOS.Calendar
