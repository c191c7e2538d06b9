import Mathlib.Data.List.Induction
import SchemaMigration.Proofs.Basic
import SchemaMigration.Proofs.Calendar
import SchemaMigration.Proofs.Decimal

/-!
This module contains how the two written forms of a moment are read back. Both have a fixed shape,
and two texts of one shape compare as the numbers that their digits denote. Hence the written forms
of moments are ordered as the moments are.
-/

namespace SchemaMigration

namespace Text

variable {t t' picture picture' : Text} {n width : Nat}

def number (t : Text) : Nat := digitsValue (t.filter Byte.isDigit)

def digitCount (t : Text) : Nat := (t.filter Byte.isDigit).length

def fields (widths : List Nat) (t : Text) : List Nat :=
  cut widths (t.filter Byte.isDigit)
where
  cut : List Nat → Text → List Nat
    | [], _ => []
    | width :: widths, t => digitsValue (t.take width) :: cut widths (t.drop width)

/-- A text has the shape of a picture: a digit for every zero of it, and all else as it stands. -/
def Like (picture t : Text) : Prop :=
  List.Forall₂ (fun p b => if p = byte '0' then Byte.isDigit b = true else b = p) picture t

theorem digitsValue_append (t t' : Text) :
    digitsValue (t ++ t') = digitsValue t * 10 ^ t'.length + digitsValue t' := by
  induction t' using List.reverseRecOn with
  | nil => simp [digitsValue]
  | append_singleton t' b ih =>
    rw [← List.append_assoc, digitsValue_append_singleton, digitsValue_append_singleton, ih,
      List.length_append, List.length_singleton, Nat.pow_succ]
    ring

theorem digitsValue_lt (h : ∀ b ∈ t, Byte.isDigit b = true) : digitsValue t < 10 ^ t.length := by
  induction t using List.reverseRecOn with
  | nil => decide
  | append_singleton t b ih =>
    have hb := Byte.isDigit_iff.mp (h b (List.mem_append_right t (List.mem_singleton_self b)))
    have ht := ih fun c hc => h c (List.mem_append_left [b] hc)
    rw [digitsValue_append_singleton, List.length_append, List.length_singleton, Nat.pow_succ]
    omega

theorem number_append (t t' : Text) :
    number (t ++ t') = number t * 10 ^ digitCount t' + number t' := by
  rw [number, List.filter_append, digitsValue_append]
  rfl

theorem number_cons (b : UInt8) (t : Text) :
    number (b :: t) = number [b] * 10 ^ digitCount t + number t :=
  number_append [b] t

theorem number_digit {b : UInt8} (h : Byte.isDigit b = true) : number [b] = b.toNat - 48 := by
  rw [number, List.filter_cons_of_pos h]
  exact Nat.zero_add _

theorem number_lt (t : Text) : number t < 10 ^ digitCount t :=
  digitsValue_lt fun _ hb => List.of_mem_filter hb

theorem Like.cons {b : UInt8} (hb : b ≠ byte '0') (h : Like picture t) :
    Like (b :: picture) (b :: t) := by
  refine List.Forall₂.cons ?_ h
  rw [if_neg hb]

theorem Like.append (h : Like picture t) (h' : Like picture' t') :
    Like (picture ++ picture') (t ++ t') :=
  List.rel_append h h'

theorem Like.digitCount_eq (h : Like picture t) : digitCount t = digitCount picture := by
  induction h with
  | nil => rfl
  | @cons p b picture t hb _ ih =>
    have hsame : Byte.isDigit b = Byte.isDigit p := by
      split at hb
      . next hp =>
        rw [hb, hp]
        rfl
      . rw [hb]
    unfold digitCount at ih ⊢
    rw [List.filter_cons, List.filter_cons, hsame]
    split
    . exact congrArg Nat.succ ih
    . exact ih

theorem mul_add_lt_mul_add_iff {a a' v v' : Nat} (h : v < n) (h' : v' < n) :
    a * n + v < a' * n + v' ↔ a < a' ∨ a = a' ∧ v < v' := by
  obtain hless | rfl | hmore := Nat.lt_trichotomy a a'
  . have hnext := Nat.mul_le_mul_right n (Nat.succ_le_of_lt hless)
    rw [Nat.succ_mul] at hnext
    omega
  . omega
  . have hnext := Nat.mul_le_mul_right n (Nat.succ_le_of_lt hmore)
    rw [Nat.succ_mul] at hnext
    omega

/-- Two texts of one shape compare as the numbers that their digits denote. -/
theorem Like.lt_iff (h : Like picture t) (h' : Like picture t') :
    t < t' ↔ number t < number t' := by
  induction picture generalizing t t' with
  | nil =>
    cases h
    cases h'
    simp
  | cons p picture ih =>
    obtain ⟨b, t, hb, ht, rfl⟩ := List.forall₂_cons_left_iff.mp h
    obtain ⟨b', t', hb', ht', rfl⟩ := List.forall₂_cons_left_iff.mp h'
    have hlt := number_lt t
    have hlt' := number_lt t'
    rw [Like.digitCount_eq ht] at hlt
    rw [Like.digitCount_eq ht'] at hlt'
    rw [List.cons_lt_cons_iff, ih ht ht', number_cons b t, number_cons b' t',
      Like.digitCount_eq ht, Like.digitCount_eq ht', mul_add_lt_mul_add_iff hlt hlt']
    -- The first bytes are two digits, or they are the same.
    by_cases hp : p = byte '0'
    . rw [if_pos hp] at hb hb'
      rw [number_digit hb, number_digit hb', ← UInt8.toNat_inj, UInt8.lt_iff_toNat_lt]
      rw [Byte.isDigit_iff] at hb hb'
      omega
    . rw [if_neg hp] at hb hb'
      rw [hb, hb']
      simp

structure Numeral (width n : Nat) (t : Text) : Prop where
  length : t.length = width
  digits : ∀ b ∈ t, Byte.isDigit b = true
  value : digitsValue t = n

namespace Numeral

theorem filter_eq (h : Numeral width n t) : t.filter Byte.isDigit = t :=
  List.filter_eq_self.mpr h.digits

theorem digitCount_eq (h : Numeral width n t) : digitCount t = width := by
  rw [digitCount, h.filter_eq, h.length]

theorem number_eq (h : Numeral width n t) : number t = n := by
  rw [number, h.filter_eq, h.value]

theorem fields_append (h : Numeral width n t) (widths : List Nat) (rest : Text) :
    fields (width :: widths) (t ++ rest) = n :: fields widths rest := by
  rw [fields, List.filter_append, h.filter_eq, fields.cut, List.take_left' h.length,
    List.drop_left' h.length, h.value]
  rfl

theorem fields_eq (h : Numeral width n t) : fields [width] t = [n] := by
  rw [← List.append_nil t]
  exact h.fields_append [] []

theorem like (h : Numeral width n t) : Like (List.replicate width (byte '0')) t := by
  rw [← h.length]
  have hdigits := h.digits
  clear h
  induction t with
  | nil => exact .nil
  | cons b t ih =>
    obtain ⟨hb, ht⟩ := List.forall_mem_cons.mp hdigits
    refine List.Forall₂.cons ?_ (ih ht)
    rw [if_pos rfl]
    exact hb

end Numeral

theorem length_ofNat_le (h : n < 10 ^ width) (hwidth : 0 < width) : (ofNat n).length ≤ width := by
  induction width generalizing n with
  | zero => cases hwidth
  | succ width ih =>
    by_cases hsmall : n < 10
    . rw [ofNat_of_lt hsmall]
      exact Nat.succ_le_succ (Nat.zero_le _)
    . rw [ofNat_of_le (Nat.le_of_not_lt hsmall), List.length_append]
      rw [Nat.pow_succ] at h
      have hpos : 0 < width := by
        apply Nat.pos_of_ne_zero
        rintro rfl
        omega
      exact Nat.succ_le_succ (ih (by omega) hpos)

theorem digitsValue_replicate_append (k : Nat) (t : Text) :
    digitsValue (List.replicate k (byte '0') ++ t) = digitsValue t := by
  induction k with
  | zero => rfl
  | succ k ih => exact ih

theorem numeral_padZeros (h : n < 10 ^ width) (hwidth : 0 < width) :
    Numeral width n (padZeros width (ofNat n)) where
  length := by
    have hlength := length_ofNat_le h hwidth
    rw [padZeros, List.length_append, List.length_replicate]
    omega
  digits b hb := by
    cases List.mem_append.mp hb with
    | inl hzero =>
      rw [List.eq_of_mem_replicate hzero]
      rfl
    | inr hdigit => exact isDigit_of_mem_ofNat b hdigit
  value := by
    rw [padZeros, digitsValue_replicate_append, digitsValue_ofNat]

/-- A number of full length needs no zeros before it. -/
theorem numeral_ofNat (hlow : 10 ^ width ≤ n) (h : n < 10 ^ (width + 1)) :
    Numeral (width + 1) n (ofNat n) := by
  have hlength : width + 1 ≤ (ofNat n).length := by
    have hvalue := digitsValue_lt (isDigit_of_mem_ofNat (n := n))
    rw [digitsValue_ofNat] at hvalue
    exact (Nat.pow_lt_pow_iff_right (by decide)).mp (Nat.lt_of_le_of_lt hlow hvalue)
  have hpadded := numeral_padZeros h (Nat.succ_pos width)
  rw [padZeros, Nat.sub_eq_zero_of_le hlength] at hpadded
  exact hpadded

end Text

namespace Calendar

structure Reading where
  year : Nat
  month : Nat
  day : Nat
  hour : Nat
  minute : Nat
  second : Nat
  deriving DecidableEq, Repr

namespace Reading

structure Valid (r : Reading) : Prop where
  date : IsDate r.year r.month r.day
  hour : r.hour < 24
  minute : r.minute < 60
  second : r.second < 60

def seconds (r : Reading) : Nat :=
  86400 * daysBefore r.year r.month r.day + 3600 * r.hour + 60 * r.minute + r.second

def fields (r : Reading) : List Nat := [r.year, r.month, r.day, r.hour, r.minute, r.second]

def packed (r : Reading) : Nat :=
  ((((r.year * 100 + r.month) * 100 + r.day) * 100 + r.hour) * 100 + r.minute) * 100 + r.second

variable {r r' : Reading}

theorem Valid.day_lt (h : r.Valid) : r.day < 100 := by
  have := h.date.day_le
  have := monthLength_le r.year r.month
  omega

theorem Valid.seconds_lt (h : r.Valid) (h' : r'.Valid) (hlt : r.packed < r'.packed) :
    r.seconds < r'.seconds := by
  have hday := h.day_lt
  have hday' := h'.day_lt
  obtain ⟨hdate, hhour, hminute, hsecond⟩ := h
  obtain ⟨hdate', hhour', hminute', hsecond'⟩ := h'
  have hmonth := hdate.month_le
  have hmonth' := hdate'.month_le
  unfold packed at hlt
  unfold seconds
  by_cases hsame : r.year = r'.year ∧ r.month = r'.month ∧ r.day = r'.day
  . obtain ⟨hyear, hmonth, hday⟩ := hsame
    rw [hyear, hmonth, hday] at hlt ⊢
    omega
  . have hdays := hdate.daysBefore_lt hdate' (by omega)
    omega

theorem Valid.eq_of_packed_eq (h : r.Valid) (h' : r'.Valid) (heq : r.packed = r'.packed) :
    r = r' := by
  have hday := h.day_lt
  have hday' := h'.day_lt
  obtain ⟨hdate, hhour, hminute, hsecond⟩ := h
  obtain ⟨hdate', hhour', hminute', hsecond'⟩ := h'
  have hmonth := hdate.month_le
  have hmonth' := hdate'.month_le
  unfold packed at heq
  rw [Reading.mk.injEq]
  omega

theorem Valid.packed_lt_iff (h : r.Valid) (h' : r'.Valid) :
    r.packed < r'.packed ↔ r.seconds < r'.seconds := by
  refine ⟨h.seconds_lt h', fun hlt => ?_⟩
  obtain hpacked | hpacked | hpacked := Nat.lt_trichotomy r.packed r'.packed
  . exact hpacked
  . rw [h.eq_of_packed_eq h' hpacked] at hlt
    exact absurd hlt (Nat.lt_irrefl _)
  . exact absurd (h'.seconds_lt h hpacked) (Nat.lt_asymm hlt)

theorem exists_of_seconds (n : Nat) :
    ∃ r : Reading, r.Valid ∧ r.seconds = n ∧
      Date.ofDays (n / 86400 : Nat) = ⟨r.year, r.month, r.day⟩ ∧ r.hour = n % 86400 / 3600 ∧
      r.minute = n % 86400 / 60 % 60 ∧ r.second = n % 86400 % 60 := by
  obtain ⟨year, month, day, hofDays, hdate, hdays⟩ := ofDays_eq (n / 86400)
  refine ⟨⟨year, month, day, n % 86400 / 3600, n % 86400 / 60 % 60, n % 86400 % 60⟩,
    ⟨hdate, ?_, ?_, ?_⟩, ?_, hofDays, rfl, rfl, rfl⟩
  . dsimp only
    omega
  . dsimp only
    omega
  . dsimp only
    omega
  . rw [seconds, hdays]
    dsimp only
    omega

theorem year_lt_of_seconds_lt (hlt : r.seconds < 86400 * daysBeforeYear 10000) :
    r.year < 10000 := by
  by_contra hlate
  have hyears := daysBeforeYear_le (by decide : 1970 ≤ 10000) (Nat.le_of_not_lt hlate)
  unfold seconds daysBefore at hlt
  omega

end Reading

end Calendar

namespace Moment

open Calendar (Reading)

structure Reads (now : Moment) (r : Reading) (millis : Nat) : Prop where
  valid : r.Valid
  year_lt : r.year < 10000
  millis_lt : millis < 1000
  date_eq : now.date = ⟨r.year, r.month, r.day⟩
  hour_eq : now.secondOfDay / 3600 = r.hour
  minute_eq : now.secondOfDay / 60 % 60 = r.minute
  second_eq : now.secondOfDay % 60 = r.second
  fraction_eq : now.fraction = millis

/-- A clock that has counted nanoseconds up to the end of the year 9999 can be read. -/
theorem exists_reads {t : Nat} (h : t < 10 ^ 9 * (86400 * Calendar.daysBeforeYear 10000)) :
    ∃ r millis, Reads (.ofNanos t) r millis ∧ r.seconds = t / 10 ^ 9 ∧
      1000 * r.seconds + millis = t / 10 ^ 6 := by
  obtain ⟨r, hvalid, hseconds, hdate, hhour, hminute, hsecond⟩ :=
    Reading.exists_of_seconds (t / 10 ^ 9)
  have hmillis : (ofNanos t).millis = (t / 10 ^ 6 : Nat) := rfl
  have hnow : (ofNanos t).seconds = (t / 10 ^ 9 : Nat) := by
    rw [Moment.seconds, hmillis]
    change ((t / 10 ^ 6 / 1000 : Nat) : Int) = _
    rw [Nat.div_div_eq_div_mul]
    rfl
  have hday : (ofNanos t).secondOfDay = (t / 10 ^ 9 % 86400 : Nat) := by
    rw [secondOfDay, hnow]
    rfl
  refine ⟨r, t / 10 ^ 6 % 1000, ⟨hvalid, ?_, ?_, ?_, ?_, ?_, ?_, ?_⟩, hseconds, ?_⟩
  . apply Reading.year_lt_of_seconds_lt
    rw [hseconds]
    exact Nat.div_lt_of_lt_mul h
  . exact Nat.mod_lt _ (by decide)
  . rw [date, hnow]
    exact hdate
  . rw [hday, hhour]
    rfl
  . rw [hday, hminute]
    rfl
  . rw [hday, hsecond]
    rfl
  . rw [fraction, hmillis, hnow]
    omega
  . rw [hseconds]
    omega

namespace Reads

variable {now now' : Moment} {r r' : Reading} {millis millis' : Nat}

theorem numerals (h : Reads now r millis) :
    Text.Numeral 4 r.year (Text.ofInt now.date.year) ∧
      Text.Numeral 2 r.month (Calendar.twoDigits now.date.month) ∧
      Text.Numeral 2 r.day (Calendar.twoDigits now.date.day) ∧
      Text.Numeral 2 r.hour (Calendar.twoDigits (now.secondOfDay / 3600)) ∧
      Text.Numeral 2 r.minute (Calendar.twoDigits (now.secondOfDay / 60 % 60)) ∧
      Text.Numeral 2 r.second (Calendar.twoDigits (now.secondOfDay % 60)) ∧
      Text.Numeral 3 millis (Text.padZeros 3 (Text.ofInt now.fraction)) := by
  have hday := h.valid.day_lt
  obtain ⟨⟨hdate, hhour, hminute, hsecond⟩, hyear, hmillis, hdateEq, hhourEq, hminuteEq,
    hsecondEq, hfraction⟩ := h
  have hyear' := hdate.le_year
  have hmonth := hdate.month_le
  rw [hdateEq, hhourEq, hminuteEq, hsecondEq, hfraction]
  exact ⟨Text.numeral_ofNat (by omega) hyear, Text.numeral_padZeros (by omega) (by decide),
    Text.numeral_padZeros hday (by decide), Text.numeral_padZeros (by omega) (by decide),
    Text.numeral_padZeros (by omega) (by decide), Text.numeral_padZeros (by omega) (by decide),
    Text.numeral_padZeros hmillis (by decide)⟩

theorem like_stamp (h : Reads now r millis) : Text.Like (ascii "00000000000000") now.stamp := by
  obtain ⟨hyear, hmonth, hday, hhour, hminute, hsecond, _⟩ := h.numerals
  exact ((((hyear.like.append hmonth.like).append hday.like).append hhour.like).append
    hminute.like).append hsecond.like

theorem number_stamp (h : Reads now r millis) : now.stamp.number = r.packed := by
  obtain ⟨hyear, hmonth, hday, hhour, hminute, hsecond, _⟩ := h.numerals
  simp only [stamp, Text.number_append, hyear.number_eq, hmonth.number_eq, hday.number_eq,
    hhour.number_eq, hminute.number_eq, hsecond.number_eq, hmonth.digitCount_eq,
    hday.digitCount_eq, hhour.digitCount_eq, hminute.digitCount_eq, hsecond.digitCount_eq]
  rfl

theorem fields_stamp (h : Reads now r millis) :
    now.stamp.fields [4, 2, 2, 2, 2, 2] = r.fields := by
  obtain ⟨hyear, hmonth, hday, hhour, hminute, hsecond, _⟩ := h.numerals
  simp only [stamp, List.append_assoc, hyear.fields_append, hmonth.fields_append,
    hday.fields_append, hhour.fields_append, hminute.fields_append, hsecond.fields_eq]
  rfl

theorem like_iso8601 (h : Reads now r millis) :
    Text.Like (ascii "0000-00-00T00:00:00.000Z") now.iso8601 := by
  obtain ⟨hyear, hmonth, hday, hhour, hminute, hsecond, hmillis⟩ := h.numerals
  have hend : Text.Like (ascii "Z") [byte 'Z'] := .cons (by decide) .nil
  exact ((((((hyear.like.append (hmonth.like.cons (b := byte '-') (by decide))).append
    (hday.like.cons (b := byte '-') (by decide))).append
    (hhour.like.cons (b := byte 'T') (by decide))).append
    (hminute.like.cons (b := byte ':') (by decide))).append
    (hsecond.like.cons (b := byte ':') (by decide))).append
    (hmillis.like.cons (b := byte '.') (by decide))).append hend

/-- A timestamp has the digits of a stamp, and behind these the ones of its milliseconds. -/
theorem filter_iso8601 (now : Moment) :
    now.iso8601.filter Byte.isDigit =
      (now.stamp ++ Text.padZeros 3 (Text.ofInt now.fraction)).filter Byte.isDigit := by
  have hhyphen : Byte.isDigit (byte '-') = false := rfl
  have hcolon : Byte.isDigit (byte ':') = false := rfl
  have hpoint : Byte.isDigit (byte '.') = false := rfl
  have htee : Byte.isDigit (byte 'T') = false := rfl
  have hzulu : Byte.isDigit (byte 'Z') = false := rfl
  simp [iso8601, stamp, hhyphen, hcolon, hpoint, htee, hzulu]

theorem fields_iso8601 (h : Reads now r millis) :
    now.iso8601.fields [4, 2, 2, 2, 2, 2, 3] = r.fields ++ [millis] := by
  obtain ⟨hyear, hmonth, hday, hhour, hminute, hsecond, hmillis⟩ := h.numerals
  rw [Text.fields, filter_iso8601, ← Text.fields]
  simp only [stamp, List.append_assoc, hyear.fields_append, hmonth.fields_append,
    hday.fields_append, hhour.fields_append, hminute.fields_append, hsecond.fields_append,
    hmillis.fields_eq]
  rfl

theorem number_iso8601 (h : Reads now r millis) :
    now.iso8601.number = r.packed * 10 ^ 3 + millis := by
  obtain ⟨_, _, _, _, _, _, hmillis⟩ := h.numerals
  rw [Text.number, filter_iso8601, ← Text.number, Text.number_append, h.number_stamp,
    hmillis.number_eq, hmillis.digitCount_eq]

theorem stamp_lt_iff (h : Reads now r millis) (h' : Reads now' r' millis') :
    now.stamp < now'.stamp ↔ r.seconds < r'.seconds := by
  rw [h.like_stamp.lt_iff h'.like_stamp, h.number_stamp, h'.number_stamp,
    h.valid.packed_lt_iff h'.valid]

theorem iso8601_lt_iff (h : Reads now r millis) (h' : Reads now' r' millis') :
    now.iso8601 < now'.iso8601 ↔ 1000 * r.seconds + millis < 1000 * r'.seconds + millis' := by
  have hlt := h.millis_lt
  have hlt' := h'.millis_lt
  have hpacked := h.valid.packed_lt_iff h'.valid
  have hpacked' := h'.valid.packed_lt_iff h.valid
  rw [h.like_iso8601.lt_iff h'.like_iso8601, h.number_iso8601, h'.number_iso8601]
  omega

end Reads

end Moment

end SchemaMigration
