import Mathlib

/-!
# The clock

`get_time`, `time` and `localtime` of `drivers/time/clock.c`. The arithmetic of `time` leaves the
range of `int`, since the year it starts from has two digits, but over the whole century it wraps
alike; what breaks its order are its months of thirty days. `localtime` divides by the same weights
without the wrap, and its year is never that of the clock.

## Main results

* `order_iff` — `time` keeps the order of two readings except from a thirty-first to the first of
  the next month.
* `localtime_year` — the year that `localtime` gives is not the year read.
-/

namespace AthenX.Clock

/-! ### The source -/

/-- `TIME`. -/
structure Time where
  h : ℕ
  m : ℕ
  s : ℕ
  y : ℕ
  mo : ℕ
  d : ℕ
deriving DecidableEq

/-- A register of the clock, decoded as `get_time` decodes all but the hour. -/
def decode (b : UInt8) : ℕ := b.toNat % 16 + b.toNat / 16 * 10

/-- `get_time` on the registers of the clock. -/
def getTime (rtc : ℕ → UInt8) : Time :=
  let hour := rtc 0x04
  { h := (hour.toNat % 16 + (hour &&& 0x70).toNat / 16 * 10 ||| (hour &&& 0x80).toNat) + 2
    m := decode (rtc 0x02)
    s := decode (rtc 0x00)
    y := decode (rtc 0x09)
    mo := decode (rtc 0x08)
    d := decode (rtc 0x07) }

/-- `time`: the sum wraps to a signed word. -/
def time (rtc : ℕ → UInt8) : ℤ :=
  let t := getTime rtc
  (((t.y : ℤ) - 1970) * 31536000 + ((t.mo : ℤ) - 1) * 2592000 + ((t.d : ℤ) - 1) * 86400 +
    t.h * 3600 + t.m * 60 + t.s).bmod (2 ^ 32)

/-- `struct tm`. -/
structure Tm where
  sec : ℤ
  min : ℤ
  hour : ℤ
  mday : ℤ
  mon : ℤ
  year : ℤ
  wday : ℤ
  yday : ℤ
  isdst : ℤ
deriving DecidableEq

/-- `localtime`; the division of C rounds to zero. -/
def localtime (t : ℤ) : Tm where
  sec := t.tmod 60
  min := (t.tdiv 60).tmod 60
  hour := (t.tdiv 3600).tmod 24
  mday := (t.tdiv 86400).tmod 31 + 1
  mon := (t.tdiv 2592000).tmod 12 + 1
  year := 1970 + t.tdiv 31536000
  wday := 0
  yday := 0
  isdst := 0

/-! ### Readings -/

/-- The days of a month. -/
def monthLength (year month : ℕ) : ℕ :=
  if month = 2 then if year % 4 = 0 ∧ (year % 100 ≠ 0 ∨ year % 400 = 0) then 29 else 28
  else if month = 4 ∨ month = 6 ∨ month = 9 ∨ month = 11 then 30 else 31

/-- A second of the century that the clock counts. -/
structure Instant where
  year : ℕ
  month : ℕ
  day : ℕ
  hour : ℕ
  minute : ℕ
  second : ℕ
  year_mem : 2000 ≤ year ∧ year < 2100
  month_mem : 1 ≤ month ∧ month ≤ 12
  day_mem : 1 ≤ day ∧ day ≤ monthLength year month
  hour_lt : hour < 24
  minute_lt : minute < 60
  second_lt : second < 60

/-- A number of two digits in a register. -/
def bcd (n : ℕ) : UInt8 := UInt8.ofNat (n / 10 * 16 + n % 10)

/-- Registers that show an instant. -/
structure Reading extends Instant where
  rtc : ℕ → UInt8
  shows : rtc 0x00 = bcd second ∧ rtc 0x02 = bcd minute ∧ rtc 0x04 = bcd hour ∧
    rtc 0x07 = bcd day ∧ rtc 0x08 = bcd month ∧ rtc 0x09 = bcd (year - 2000)

/-- The instant comes first. -/
def Instant.Earlier (i j : Instant) : Prop :=
  [i.year, i.month, i.day, i.hour, i.minute, i.second] <
    [j.year, j.month, j.day, j.hour, j.minute, j.second]

/-- The seconds since midnight. -/
def Instant.daytime (i : Instant) : ℕ := i.hour * 3600 + i.minute * 60 + i.second

/-- The registers of an instant. -/
def Instant.reading (i : Instant) : Reading where
  toInstant := i
  rtc k :=
    if k = 0x00 then bcd i.second else if k = 0x02 then bcd i.minute
    else if k = 0x04 then bcd i.hour else if k = 0x07 then bcd i.day
    else if k = 0x08 then bcd i.month else bcd (i.year - 2000)
  shows := ⟨rfl, rfl, rfl, rfl, rfl, rfl⟩

theorem monthLength_le (year month : ℕ) : monthLength year month ≤ 31 := by
  unfold monthLength
  split_ifs <;> omega

theorem Instant.bounds (i : Instant) :
    (2000 ≤ i.year ∧ i.year < 2100) ∧ (1 ≤ i.month ∧ i.month ≤ 12) ∧ (1 ≤ i.day ∧ i.day ≤ 31) ∧
      i.hour < 24 ∧ i.minute < 60 ∧ i.second < 60 :=
  ⟨i.year_mem, i.month_mem, ⟨i.day_mem.1, i.day_mem.2.trans (monthLength_le _ _)⟩, i.hour_lt,
    i.minute_lt, i.second_lt⟩

theorem decode_bcd {n : ℕ} (hn : n < 100) : decode (bcd n) = n := by
  have h : (bcd n).toNat = n / 10 * 16 + n % 10 := by
    rw [bcd, UInt8.toNat_ofNat']
    omega
  rw [decode, h]
  omega

theorem getTime_reading (r : Reading) :
    getTime r.rtc = ⟨r.hour + 2, r.minute, r.second, r.year - 2000, r.month, r.day⟩ := by
  obtain ⟨hs, hm, hh, hd, hmo, hy⟩ := r.shows
  have := r.bounds
  have hhour : ∀ n < 24, ((bcd n).toNat % 16 + (bcd n &&& 0x70).toNat / 16 * 10 |||
      (bcd n &&& 0x80).toNat) + 2 = n + 2 := by decide
  simp only [getTime, hs, hm, hh, hd, hmo, hy, hhour _ r.hour_lt]
  rw [decode_bcd (by omega), decode_bcd (by omega), decode_bcd (by omega), decode_bcd (by omega),
    decode_bcd (by omega)]

/-- The whole century lies in one wrap of the sum. -/
theorem time_reading (r : Reading) :
    time r.rtc = (r.year : ℤ) * 31536000 + r.month * 2592000 + r.day * 86400 + r.daytime -
      65071049056 := by
  have := r.bounds
  simp only [time, getTime_reading, Instant.daytime, Int.bmod]
  push_cast [Nat.cast_sub r.year_mem.1]
  split <;> omega

/-! ### The order of `time` -/

/-- The first of the month follows, no later in the day, a thirty-first. -/
def Instant.Collides (i j : Instant) : Prop :=
  i.year = j.year ∧ j.month = i.month + 1 ∧ i.day = 31 ∧ j.day = 1 ∧ j.daytime ≤ i.daytime

/-- The values keep the order of two readings exactly if the later is not the first of the month
after a thirty-first, no later in the day. -/
theorem order_iff (r s : Reading) :
    (r.Earlier s.toInstant → time r.rtc < time s.rtc) ↔ ¬ r.Collides s.toInstant := by
  have hr := r.bounds
  have hs := s.bounds
  simp only [time_reading, Instant.Earlier, Instant.Collides, Instant.daytime,
    List.cons_lt_cons_iff, List.lt_irrefl, and_false, or_false]
  omega

/-- Midnight of a day. -/
def midnight (month day : ℕ) (hm : 1 ≤ month ∧ month ≤ 12)
    (hd : 1 ≤ day ∧ day ≤ monthLength 2000 month) : Instant where
  year := 2000
  month := month
  day := day
  hour := 0
  minute := 0
  second := 0
  year_mem := by decide
  month_mem := hm
  day_mem := hd
  hour_lt := by decide
  minute_lt := by decide
  second_lt := by decide

/-- The last day of January and the first of February have one value. -/
theorem february_first_eq :
    (midnight 1 31 (by decide) (by decide)).Earlier (midnight 2 1 (by decide) (by decide)) ∧
      time (midnight 1 31 (by decide) (by decide)).reading.rtc =
        time (midnight 2 1 (by decide) (by decide)).reading.rtc :=
  ⟨by unfold Instant.Earlier; decide, by decide⟩

/-! ### The way back -/

/-- `localtime` gives back what `get_time` decoded. -/
def GivesBack (t : Time) (l : Tm) : Prop :=
  l.sec = t.s ∧ l.min = t.m ∧ l.hour = t.h ∧ l.mday = t.d ∧ l.mon = t.mo ∧ l.year = t.y

theorem localtime_nonpos {t : ℤ} (ht : t ≤ 0) :
    (localtime t).sec ≤ 0 ∧ (localtime t).min ≤ 0 ∧ (localtime t).hour ≤ 0 := by
  obtain ⟨n, rfl⟩ := Int.exists_eq_neg_ofNat ht
  simp only [localtime, Int.neg_tdiv, Int.neg_tmod, Int.neg_nonpos_iff]
  exact ⟨Int.tmod_nonneg _ (by omega), Int.tmod_nonneg _ (Int.tdiv_nonneg (by omega) (by omega)),
    Int.tmod_nonneg _ (Int.tdiv_nonneg (by omega) (by omega))⟩

/-- No reading comes back: the year is off by nineteen centuries, and up to the year 2062 the time
of the day is not positive. -/
theorem localtime_year (r : Reading) :
    let l := localtime (time r.rtc)
    (1906 + (getTime r.rtc).y ≤ l.year ∧ l.year ≤ 1908 + (getTime r.rtc).y) ∧
      (r.year < 2063 → l.sec ≤ 0 ∧ l.min ≤ 0 ∧ l.hour ≤ 0) ∧ ¬ GivesBack (getTime r.rtc) l := by
  have hb := r.bounds
  have ht := time_reading r
  rw [Instant.daytime] at ht
  have hyear : 1906 + ((r.year - 2000 : ℕ) : ℤ) ≤ (localtime (time r.rtc)).year ∧
      (localtime (time r.rtc)).year ≤ 1908 + ((r.year - 2000 : ℕ) : ℤ) := by
    have := Int.tmod_add_mul_tdiv (time r.rtc) 31536000
    have := Int.tmod_lt_of_pos (time r.rtc) (show (0 : ℤ) < 31536000 by decide)
    have := Int.lt_tmod_of_pos (time r.rtc) (show (0 : ℤ) < 31536000 by decide)
    simp only [localtime]
    omega
  rw [getTime_reading]
  refine ⟨hyear, fun h => localtime_nonpos (by omega), fun ⟨_, _, _, _, _, h⟩ => ?_⟩
  have h : (localtime (time r.rtc)).year = ((r.year - 2000 : ℕ) : ℤ) := h
  omega

/-- At the start of the century the clock shows the year 0 and `localtime` the year 1907. -/
theorem localtime_midnight :
    (getTime (midnight 1 1 (by decide) (by decide)).reading.rtc).y = 0 ∧
      localtime (time (midnight 1 1 (by decide) (by decide)).reading.rtc) =
        ⟨-16, -24, -3, -10, -1, 1907, 0, 0, 0⟩ := by
  decide

end AthenX.Clock
