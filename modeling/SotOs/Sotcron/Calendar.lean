import SotOs.Lib.Machine

/-! The calendar timers: the next instant that matches a spec, searched second by second. -/

namespace SotOs.Sotcron
open Machine

/-- `g_boot_tsc` and `g_tsc_per_second`. -/
structure Clock where
  boot : ℕ
  perSecond : ℕ
  pos : 0 < perSecond

structure CalendarSpec where
  hour : ℤ
  minute : ℤ
  second : ℤ
  deriving DecidableEq

def fieldFits (field : ℤ) (value : ℕ) : Bool := decide (field < 0) || field == value

def CalendarSpec.fits (spec : CalendarSpec) (sec : ℕ) : Bool :=
  fieldFits spec.hour (sec / 3600 % 24) && fieldFits spec.minute (sec / 60 % 60) &&
    fieldFits spec.second (sec % 60)

def daySeconds : ℕ := 86400

/-- `sotcron_compute_next_calendar` at `elapsed` ticks after boot. -/
def computeNextCalendar (clock : Clock) (spec : CalendarSpec) (elapsed : ℕ) : ℕ :=
  let nowSec := elapsed / clock.perSecond
  match (List.range' 1 (daySeconds - 1)).find? fun delta => spec.fits (nowSec + delta) with
  | some delta => clock.boot + (nowSec + delta) * clock.perSecond
  | none => clock.boot + elapsed + daySeconds * clock.perSecond

/-- The instant is that of the first whole second after the current one that matches. -/
def FirstMatch (clock : Clock) (spec : CalendarSpec) (elapsed tsc : ℕ) : Prop :=
  ∃ k, tsc = clock.boot + k * clock.perSecond ∧ elapsed / clock.perSecond < k ∧ spec.fits k = true ∧
    ∀ j, elapsed / clock.perSecond < j → j < k → spec.fits j = false

variable {clock : Clock} {spec : CalendarSpec} {elapsed n k : ℕ}

theorem fits_mod : spec.fits (n % daySeconds) = spec.fits n := by
  have hhour : n % daySeconds / 3600 % 24 = n / 3600 % 24 := by simp only [daySeconds]; omega
  have hminute : n % daySeconds / 60 % 60 = n / 60 % 60 := by simp only [daySeconds]; omega
  have hsecond : n % daySeconds % 60 = n % 60 := by simp only [daySeconds]; omega
  simp only [CalendarSpec.fits, hhour, hminute, hsecond]

theorem found_iff : (∃ delta, 1 ≤ delta ∧ delta < daySeconds ∧ spec.fits (n + delta) = true) ↔
    ∃ d < daySeconds, d ≠ n % daySeconds ∧ spec.fits d = true := by
  simp only [daySeconds]
  constructor
  · rintro ⟨delta, hpos, hlt, hfits⟩
    refine ⟨(n + delta) % 86400, Nat.mod_lt _ (by decide), by omega, ?_⟩
    exact fits_mod.trans hfits
  · rintro ⟨d, hlt, hne, hfits⟩
    refine ⟨(d + 86400 - n % 86400) % 86400, by omega, by omega, ?_⟩
    rw [← fits_mod, daySeconds, show (n + (d + 86400 - n % 86400) % 86400) % 86400 = d by omega]
    exact hfits

/-- `k` is the first second after `now` that matches. -/
def FirstAfter (spec : CalendarSpec) (now k : ℕ) : Prop :=
  now < k ∧ spec.fits k = true ∧ ∀ j, now < j → j < k → spec.fits j = false

theorem fits_none
    (h : ¬∃ delta, 1 ≤ delta ∧ delta < daySeconds ∧ spec.fits (n + delta) = true) (delta : ℕ)
    (hpos : 1 ≤ delta) (hlt : delta < daySeconds) : spec.fits (n + delta) = false :=
  Bool.eq_false_iff.mpr fun hfits => h ⟨delta, hpos, hlt, hfits⟩

theorem computeNextCalendar_none (h : ∀ delta, 1 ≤ delta → delta < daySeconds →
      spec.fits (elapsed / clock.perSecond + delta) = false) :
    computeNextCalendar clock spec elapsed =
      clock.boot + elapsed + daySeconds * clock.perSecond := by
  have hnone : ((List.range' 1 (daySeconds - 1)).find? fun delta =>
      spec.fits (elapsed / clock.perSecond + delta)) = none := by
    refine List.find?_eq_none.mpr fun delta hmem => ?_
    have hrange := List.mem_range'_1.mp hmem
    rw [h delta hrange.1 (by simp only [daySeconds] at hrange ⊢; omega)]
    exact Bool.false_ne_true
  simp only [computeNextCalendar, hnone]

theorem computeNextCalendar_some {delta : ℕ} (hpos : 1 ≤ delta) (hlt : delta < daySeconds)
    (hfits : spec.fits (elapsed / clock.perSecond + delta) = true) :
    ∃ k, FirstAfter spec (elapsed / clock.perSecond) k ∧
      computeNextCalendar clock spec elapsed = clock.boot + k * clock.perSecond := by
  unfold computeNextCalendar
  generalize elapsed / clock.perSecond = now at hfits ⊢
  cases hfind : (List.range' 1 (daySeconds - 1)).find? fun delta => spec.fits (now + delta) with
  | none =>
    have hend : delta < 1 + (daySeconds - 1) := by simp only [daySeconds] at *; omega
    have hnot := List.find?_range'_eq_none.mp hfind delta hpos hend
    exact absurd hfits (by simpa using hnot)
  | some first =>
    obtain ⟨hfirst, hmem, hmin⟩ := List.find?_range'_eq_some.mp hfind
    have hone := (List.mem_range'_1.mp hmem).1
    refine ⟨now + first, ⟨by omega, hfirst, fun j hnow hj => ?_⟩, by simp only [hfind]⟩
    have hj' := hmin (j - now) (by omega) (by omega)
    rw [Nat.add_sub_cancel' hnow.le] at hj'
    simpa using hj'

theorem fits_nextDay : spec.fits (n + daySeconds) = spec.fits n := by
  rw [← fits_mod, Nat.add_mod_right, fits_mod]

theorem firstAfter_nextDay (hfits : spec.fits n = true)
    (h : ∀ delta, 1 ≤ delta → delta < daySeconds → spec.fits (n + delta) = false) :
    FirstAfter spec n (n + daySeconds) := by
  refine ⟨by simp [daySeconds], fits_nextDay.trans hfits, fun j hnow hj => ?_⟩
  have hj' := h (j - n) (by omega) (by omega)
  rwa [Nat.add_sub_cancel' hnow.le] at hj'

/-- The search is right, unless the current second is the only one of the day that matches and it
has begun before this instant. -/
theorem computeNextCalendar_firstMatch_iff (clock : Clock) (spec : CalendarSpec) (elapsed : ℕ) :
    FirstMatch clock spec elapsed (computeNextCalendar clock spec elapsed) ↔
      (∃ d < daySeconds, d ≠ elapsed / clock.perSecond % daySeconds ∧ spec.fits d = true) ∨
        spec.fits (elapsed / clock.perSecond) = true ∧ elapsed % clock.perSecond = 0 := by
  rw [← found_iff]
  by_cases hfound : ∃ delta, 1 ≤ delta ∧ delta < daySeconds ∧
      spec.fits (elapsed / clock.perSecond + delta) = true
  · obtain ⟨delta, hpos, hlt, hfits⟩ := hfound
    obtain ⟨k, hk, htsc⟩ := computeNextCalendar_some hpos hlt hfits
    exact iff_of_true ⟨k, htsc, hk⟩ (.inl ⟨delta, hpos, hlt, hfits⟩)
  have hnone := fits_none hfound
  rw [computeNextCalendar_none hnone, or_iff_right hfound]
  have hsplit := Nat.div_add_mod' elapsed clock.perSecond
  have hrem := Nat.mod_lt elapsed clock.pos
  unfold FirstMatch
  generalize elapsed / clock.perSecond = now at hnone hsplit ⊢
  generalize elapsed % clock.perSecond = rem at hsplit hrem ⊢
  constructor
  · rintro ⟨k, htsc, -, hfits, -⟩
    have hk : k * clock.perSecond = (now + daySeconds) * clock.perSecond + rem := by
      rw [Nat.add_mul]
      omega
    have hzero : rem = 0 := by
      have hmod := congrArg (· % clock.perSecond) hk
      simpa [Nat.mod_eq_of_lt hrem] using hmod.symm
    have hsame : k = now + daySeconds := by
      rw [hzero, Nat.add_zero] at hk
      exact Nat.eq_of_mul_eq_mul_right clock.pos hk
    exact ⟨by rw [← fits_nextDay, ← hsame, hfits], hzero⟩
  · rintro ⟨hfits, rfl⟩
    refine ⟨now + daySeconds, ?_, firstAfter_nextDay hfits hnone⟩
    rw [Nat.add_mul]
    omega

theorem noon_drifts : ¬ FirstMatch ⟨0, 2000000000, by decide⟩ ⟨12, 0, 0⟩ 86400000000001
    (computeNextCalendar ⟨0, 2000000000, by decide⟩ ⟨12, 0, 0⟩ 86400000000001) := by
  rw [computeNextCalendar_none]
  · rintro ⟨k, htsc, -⟩
    simp only [daySeconds] at htsc
    omega
  · intro delta hpos hlt
    simp only [daySeconds] at hlt
    simp [CalendarSpec.fits, fieldFits]
    omega

theorem computeNextCalendar_second (hsome : ∃ d < daySeconds, spec.fits d = true) :
    FirstAfter spec (elapsed / clock.perSecond)
      ((computeNextCalendar clock spec elapsed - clock.boot) / clock.perSecond) := by
  by_cases hfound : ∃ delta, 1 ≤ delta ∧ delta < daySeconds ∧
      spec.fits (elapsed / clock.perSecond + delta) = true
  · obtain ⟨delta, hpos, hlt, hfits⟩ := hfound
    obtain ⟨k, hk, htsc⟩ := computeNextCalendar_some hpos hlt hfits
    rwa [htsc, Nat.add_sub_cancel_left, Nat.mul_div_cancel k clock.pos]
  have hnone := fits_none hfound
  have hnow : spec.fits (elapsed / clock.perSecond) = true := by
    obtain ⟨d, hlt, hfits⟩ := hsome
    obtain rfl : d = elapsed / clock.perSecond % daySeconds := by
      by_contra hne
      exact hfound (found_iff.mpr ⟨d, hlt, hne, hfits⟩)
    exact fits_mod.symm.trans hfits
  rw [computeNextCalendar_none hnone, Nat.add_assoc, Nat.add_sub_cancel_left,
    Nat.add_mul_div_right _ _ clock.pos]
  exact firstAfter_nextDay hnow hnone

inductive TimerKind
  | calendar (spec : CalendarSpec)
  | interval (tsc : ℕ)

structure Timer where
  kind : TimerKind
  nextFire : ℕ
  lastFire : ℕ
  fireCount : ℕ

def Timer.fire (clock : Clock) (now : ℕ) (t : Timer) : Timer where
  kind := t.kind
  nextFire := match t.kind with
    | .calendar spec => computeNextCalendar clock spec (now - clock.boot)
    | .interval tsc => now + tsc
  lastFire := now
  fireCount := t.fireCount + 1

/-- `sotcron_process_timers`, without the message to the service manager. -/
def processTimers (clock : Clock) (timers : List Timer) (now : ℕ) : List Timer × Unit :=
  (timers.map fun t => if now < t.nextFire then t else t.fire clock now, ())

def Timer.Rearmed (clock : Clock) (t : Timer) : Prop := ∀ spec, t.kind = .calendar spec →
  (∃ d < daySeconds, spec.fits d = true) →
    FirstAfter spec ((t.lastFire - clock.boot) / clock.perSecond)
      ((t.nextFire - clock.boot) / clock.perSecond)

theorem fire_rearmed (clock : Clock) (now : ℕ) (t : Timer) : (t.fire clock now).Rearmed clock := by
  intro spec hkind hsome
  have hnext : (t.fire clock now).nextFire = computeNextCalendar clock spec (now - clock.boot) := by
    simp only [Timer.fire] at hkind ⊢
    rw [hkind]
  rw [hnext]
  exact computeNextCalendar_second hsome

/-- A place of the registry after some polls: as it was, or fired at one of them. -/
inductive Since (clock : Clock) (polls : List ℕ) : Option Timer → Option Timer → Prop
  | same (t : Option Timer) : Since clock polls t t
  | fired {t t' : Timer} (kind : t'.kind = t.kind) (counted : t.fireCount < t'.fireCount)
    (last : t'.lastFire ∈ polls) (rearmed : t'.Rearmed clock) :
    Since clock polls (some t) (some t')

theorem Since.poll {polls : List ℕ} {before after : Option Timer}
    (h : Since clock polls before after) (now : ℕ) (hnow : now ∈ polls) :
    Since clock polls before
      (after.map fun t => if now < t.nextFire then t else t.fire clock now) := by
  cases after with
  | none => exact h
  | some t =>
    by_cases hwait : now < t.nextFire
    · simpa [hwait] using h
    · rw [Option.map_some, if_neg hwait]
      cases h with
      | same => exact .fired rfl (Nat.lt_succ_self _) hnow (fire_rearmed clock now t)
      | fired hkind hcount =>
        exact .fired hkind (Nat.lt_succ_of_lt hcount) hnow (fire_rearmed clock now t)

end SotOs.Sotcron
