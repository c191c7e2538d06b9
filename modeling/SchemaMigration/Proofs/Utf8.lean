import SchemaMigration.Calendar
import SchemaMigration.Proofs.Decimal
import SchemaMigration.Utf8

/-!
This module contains that the texts which are accepted as UTF-8 are those that consist of encodings
of code points.
-/

namespace SchemaMigration

namespace Utf8

/-- A code point that can be encoded: it is not too large, and no surrogate. -/
structure IsScalar (code : Nat) : Prop where
  lt : code < 0x110000
  not_surrogate : code < 0xD800 ∨ 0xE000 ≤ code

def IsTail (b : UInt8) : Prop := 0x80 ≤ b.toNat ∧ b.toNat ≤ 0xBF

inductive Char : Text → Prop
  | one {a : UInt8} (ha : a.toNat < 0x80) : Char [a]
  | two {a b : UInt8} (hlow : 0xC2 ≤ a.toNat) (hhigh : a.toNat ≤ 0xDF) (hb : IsTail b) : Char [a, b]
  | three {a b c : UInt8} (hlow : 0xE0 ≤ a.toNat) (hhigh : a.toNat ≤ 0xEF) (hb : IsTail b)
    (hc : IsTail c) (hshort : a.toNat = 0xE0 → 0xA0 ≤ b.toNat)
    (hsurrogate : a.toNat = 0xED → b.toNat ≤ 0x9F) : Char [a, b, c]
  | four {a b c d : UInt8} (hlow : 0xF0 ≤ a.toNat) (hhigh : a.toNat ≤ 0xF4) (hb : IsTail b)
    (hc : IsTail c) (hd : IsTail d) (hshort : a.toNat = 0xF0 → 0x90 ≤ b.toNat)
    (hlarge : a.toNat = 0xF4 → b.toNat ≤ 0x8F) : Char [a, b, c, d]

variable {a b c d : UInt8} {t u : Text} {s s' : State}

theorem Char.length_pos (h : Char t) : 0 < t.length := by
  cases h <;> exact Nat.succ_pos _

theorem ofNat_eq_iff {n : Nat} : UInt8.ofNat n = b ↔ n % 256 = b.toNat := by
  rw [← UInt8.toNat_inj, UInt8.toNat_ofNat']

theorem exists_encode_of_char (h : Char t) : ∃ code, IsScalar code ∧ encode code = t := by
  cases h with
  | @one a ha =>
    refine ⟨a.toNat, ⟨by omega, by omega⟩, ?_⟩
    rw [encode, if_pos ha, UInt8.ofNat_toNat]
  | @two a b hlow hhigh hb =>
    unfold IsTail at hb
    refine ⟨64 * (a.toNat - 0xC0) + (b.toNat - 0x80), ⟨by omega, by omega⟩, ?_⟩
    rw [encode, if_neg (by omega), if_pos (by omega), List.cons.injEq, List.cons.injEq,
      ofNat_eq_iff, ofNat_eq_iff]
    exact ⟨by omega, by omega, rfl⟩
  | @three a b c hlow hhigh hb hc hshort hsurrogate =>
    unfold IsTail at hb hc
    refine ⟨4096 * (a.toNat - 0xE0) + 64 * (b.toNat - 0x80) + (c.toNat - 0x80),
      ⟨by omega, by omega⟩, ?_⟩
    rw [encode, if_neg (by omega), if_neg (by omega), if_pos (by omega), List.cons.injEq,
      List.cons.injEq, List.cons.injEq, ofNat_eq_iff, ofNat_eq_iff, ofNat_eq_iff]
    exact ⟨by omega, by omega, by omega, rfl⟩
  | @four a b c d hlow hhigh hb hc hd hshort hlarge =>
    unfold IsTail at hb hc hd
    refine ⟨262144 * (a.toNat - 0xF0) + 4096 * (b.toNat - 0x80) + 64 * (c.toNat - 0x80) +
      (d.toNat - 0x80), ⟨by omega, by omega⟩, ?_⟩
    rw [encode, if_neg (by omega), if_neg (by omega), if_neg (by omega), List.cons.injEq,
      List.cons.injEq, List.cons.injEq, List.cons.injEq, ofNat_eq_iff, ofNat_eq_iff, ofNat_eq_iff,
      ofNat_eq_iff]
    exact ⟨by omega, by omega, by omega, by omega, rfl⟩

theorem char_encode {code : Nat} (h : IsScalar code) : Char (encode code) := by
  have hlt := h.lt
  have hsurrogate := h.not_surrogate
  have hbyte : ∀ n : Nat, n < 256 → (UInt8.ofNat n).toNat = n := by
    intro n hn
    rw [UInt8.toNat_ofNat']
    omega
  have htail : ∀ n : Nat, IsTail (UInt8.ofNat (0x80 + n % 64)) := by
    intro n
    unfold IsTail
    rw [hbyte _ (by omega)]
    omega
  unfold encode
  split
  . exact .one (by rw [hbyte _ (by omega)]; omega)
  split
  . refine .two ?_ ?_ (htail _)
    . rw [hbyte _ (by omega)]
      omega
    . rw [hbyte _ (by omega)]
      omega
  split
  . have ha := hbyte (0xE0 + code / 4096) (by omega)
    have hb := hbyte (0x80 + code / 64 % 64) (by omega)
    exact .three (by omega) (by omega) (htail _) (htail _) (by omega) (by omega)
  . have ha := hbyte (0xF0 + code / 262144) (by omega)
    have hb := hbyte (0x80 + code / 4096 % 64) (by omega)
    exact .four (by omega) (by omega) (htail _) (htail _) (htail _) (by omega) (by omega)

theorem scan?_append (s : State) (t u : Text) :
    scan? s (t ++ u) = (scan? s t).bind (scan? · u) := by
  induction t generalizing s with
  | nil => rfl
  | cons b t ih =>
    rw [List.cons_append, scan?, scan?]
    cases step? s b with
    | none => rfl
    | some s' => exact ih s'

theorem scan?_cons : scan? s (b :: t) = some s' ↔
    ∃ next, step? s b = some next ∧ scan? next t = some s' := by
  rw [scan?]
  cases step? s b with
  | none => simp
  | some next => simp

theorem within?_eq_some {low high : UInt8} {next : State} :
    within? low high b next = some s ↔ (low.toNat ≤ b.toNat ∧ b.toNat ≤ high.toNat) ∧ next = s := by
  unfold within?
  rw [← UInt8.le_iff_toNat_le, ← UInt8.le_iff_toNat_le]
  split
  . next h => simpa using fun _ => by simpa using h
  . next h =>
    simp only [Bool.and_eq_true, decide_eq_true_eq] at h
    simp [h]

inductive Opens (a : UInt8) : State → Prop
  | start (h : a.toNat < 0x80) : Opens a .start
  | oneLeft (hlow : 0xC2 ≤ a.toNat) (hhigh : a.toNat ≤ 0xDF) : Opens a .oneLeft
  | afterE0 (h : a.toNat = 0xE0) : Opens a .afterE0
  | afterED (h : a.toNat = 0xED) : Opens a .afterED
  | twoLeft (hlow : 0xE0 < a.toNat) (hhigh : a.toNat ≤ 0xEF) (h : a.toNat ≠ 0xED) : Opens a .twoLeft
  | afterF0 (h : a.toNat = 0xF0) : Opens a .afterF0
  | threeLeft (hlow : 0xF0 < a.toNat) (hhigh : a.toNat < 0xF4) : Opens a .threeLeft
  | afterF4 (h : a.toNat = 0xF4) : Opens a .afterF4

theorem first?_eq_some : first? a = some s ↔ Opens a s := by
  have hfirst : first? a =
      if a.toNat < 0x80 then some .start
      else if a.toNat < 0xC2 then none
      else if a.toNat < 0xE0 then some .oneLeft
      else if a.toNat = 0xE0 then some .afterE0
      else if a.toNat = 0xED then some .afterED
      else if a.toNat < 0xF0 then some .twoLeft
      else if a.toNat = 0xF0 then some .afterF0
      else if a.toNat < 0xF4 then some .threeLeft
      else if a.toNat = 0xF4 then some .afterF4
      else none := by
    unfold first?
    simp only [UInt8.lt_iff_toNat_lt, beq_iff_eq, ← UInt8.toNat_inj]
    rfl
  rw [hfirst]
  constructor
  . grind [Opens]
  . intro h
    cases h <;> grind

theorem scan?_char (h : Char t) : scan? .start t = some .start := by
  have hopens : ∀ {a s t}, Opens a s → scan? s t = some .start →
      scan? .start (a :: t) = some .start :=
    fun hopens hrest => scan?_cons.mpr ⟨_, first?_eq_some.mpr hopens, hrest⟩
  have htail : ∀ {s low high b next t}, (∀ b, step? s b = within? low high b next) →
      low.toNat ≤ b.toNat ∧ b.toNat ≤ high.toNat → scan? next t = some .start →
        scan? s (b :: t) = some .start :=
    fun hstep hb hrest => scan?_cons.mpr ⟨_, (hstep _).trans (within?_eq_some.mpr ⟨hb, rfl⟩), hrest⟩
  have hone : ∀ {b}, IsTail b → scan? .oneLeft [b] = some .start :=
    fun hb => htail (fun _ => rfl) hb rfl
  have htwo : ∀ {b c}, IsTail b → IsTail c → scan? .twoLeft [b, c] = some .start :=
    fun hb hc => htail (fun _ => rfl) hb (hone hc)
  cases h with
  | one ha => exact hopens (.start ha) rfl
  | two hlow hhigh hb => exact hopens (.oneLeft hlow hhigh) (hone hb)
  | @three a b c hlow hhigh hb hc hshort hsurrogate =>
    by_cases hE0 : a.toNat = 0xE0
    . exact hopens (.afterE0 hE0) (htail (fun _ => rfl) ⟨hshort hE0, hb.2⟩ (hone hc))
    by_cases hED : a.toNat = 0xED
    . exact hopens (.afterED hED) (htail (fun _ => rfl) ⟨hb.1, hsurrogate hED⟩ (hone hc))
    . exact hopens (.twoLeft (by omega) hhigh hED) (htwo hb hc)
  | @four a b c d hlow hhigh hb hc hd hshort hlarge =>
    by_cases hF0 : a.toNat = 0xF0
    . exact hopens (.afterF0 hF0) (htail (fun _ => rfl) ⟨hshort hF0, hb.2⟩ (htwo hc hd))
    by_cases hF4 : a.toNat = 0xF4
    . exact hopens (.afterF4 hF4) (htail (fun _ => rfl) ⟨hb.1, hlarge hF4⟩ (htwo hc hd))
    . exact hopens (.threeLeft (by omega) (by omega)) (htail (fun _ => rfl) hb (htwo hc hd))

theorem exists_tail {low high : UInt8} {next : State} (h : scan? s t = some .start)
    (hstep : ∀ b, step? s b = within? low high b next) (hs : s ≠ .start) :
    ∃ b rest, t = b :: rest ∧ (low.toNat ≤ b.toNat ∧ b.toNat ≤ high.toNat) ∧
      scan? next rest = some .start := by
  cases t with
  | nil => exact absurd (Option.some.inj h) hs
  | cons b rest =>
    obtain ⟨_, hb, hrest⟩ := scan?_cons.mp h
    rw [hstep, within?_eq_some] at hb
    obtain ⟨hb, rfl⟩ := hb
    exact ⟨b, rest, rfl, hb, hrest⟩

theorem exists_tails (h : scan? .twoLeft t = some .start) :
    ∃ b c rest, t = b :: c :: rest ∧ IsTail b ∧ IsTail c ∧ scan? .start rest = some .start := by
  obtain ⟨b, _, rfl, hb, hrest⟩ := exists_tail h (fun _ => rfl) nofun
  obtain ⟨c, rest, rfl, hc, hrest⟩ := exists_tail hrest (fun _ => rfl) nofun
  exact ⟨b, c, rest, rfl, hb, hc, hrest⟩

/-- A text that is accepted begins with an encoding, and the rest of it is accepted again. -/
theorem exists_char (h : scan? .start (a :: t) = some .start) :
    ∃ char rest, Char char ∧ a :: t = char ++ rest ∧ scan? .start rest = some .start := by
  obtain ⟨s, hopens, hrest⟩ := scan?_cons.mp h
  cases first?_eq_some.mp hopens with
  | start ha => exact ⟨[a], t, .one ha, rfl, hrest⟩
  | oneLeft hlow hhigh =>
    obtain ⟨b, rest, rfl, hb, hrest⟩ := exists_tail hrest (fun _ => rfl) nofun
    exact ⟨[a, b], rest, .two hlow hhigh hb, rfl, hrest⟩
  | afterE0 ha =>
    obtain ⟨b, _, rfl, hb, hrest⟩ := exists_tail hrest (fun _ => rfl) nofun
    obtain ⟨c, rest, rfl, hc, hrest⟩ := exists_tail hrest (fun _ => rfl) nofun
    have hb' : 0xA0 ≤ b.toNat ∧ b.toNat ≤ 0xBF := hb
    exact ⟨[a, b, c], rest, .three (by omega) (by omega) ⟨by omega, hb'.2⟩ hc (fun _ => hb'.1)
      (by omega), rfl, hrest⟩
  | afterED ha =>
    obtain ⟨b, _, rfl, hb, hrest⟩ := exists_tail hrest (fun _ => rfl) nofun
    obtain ⟨c, rest, rfl, hc, hrest⟩ := exists_tail hrest (fun _ => rfl) nofun
    have hb' : 0x80 ≤ b.toNat ∧ b.toNat ≤ 0x9F := hb
    exact ⟨[a, b, c], rest, .three (by omega) (by omega) ⟨hb'.1, by omega⟩ hc (by omega)
      (fun _ => hb'.2), rfl, hrest⟩
  | twoLeft hlow hhigh ha =>
    obtain ⟨b, c, rest, rfl, hb, hc, hrest⟩ := exists_tails hrest
    exact ⟨[a, b, c], rest, .three (by omega) hhigh hb hc (by omega) (by omega), rfl, hrest⟩
  | afterF0 ha =>
    obtain ⟨b, _, rfl, hb, hrest⟩ := exists_tail hrest (fun _ => rfl) nofun
    obtain ⟨c, d, rest, rfl, hc, hd, hrest⟩ := exists_tails hrest
    have hb' : 0x90 ≤ b.toNat ∧ b.toNat ≤ 0xBF := hb
    exact ⟨[a, b, c, d], rest, .four (by omega) (by omega) ⟨by omega, hb'.2⟩ hc hd (fun _ => hb'.1)
      (by omega), rfl, hrest⟩
  | threeLeft hlow hhigh =>
    obtain ⟨b, _, rfl, hb, hrest⟩ := exists_tail hrest (fun _ => rfl) nofun
    obtain ⟨c, d, rest, rfl, hc, hd, hrest⟩ := exists_tails hrest
    exact ⟨[a, b, c, d], rest, .four (by omega) (by omega) hb hc hd (by omega) (by omega), rfl,
      hrest⟩
  | afterF4 ha =>
    obtain ⟨b, _, rfl, hb, hrest⟩ := exists_tail hrest (fun _ => rfl) nofun
    obtain ⟨c, d, rest, rfl, hc, hd, hrest⟩ := exists_tails hrest
    have hb' : 0x80 ≤ b.toNat ∧ b.toNat ≤ 0x8F := hb
    exact ⟨[a, b, c, d], rest, .four (by omega) (by omega) ⟨hb'.1, by omega⟩ hc hd (by omega)
      (fun _ => hb'.2), rfl, hrest⟩

/-- Within an encoding there is no byte that stands for itself. -/
theorem eq_start_of_ascii (hb : b.toNat < 0x80) (h : scan? s (b :: t) = some s') :
    s = .start ∧ scan? .start t = some s' := by
  obtain ⟨next, hstep, hrest⟩ := scan?_cons.mp h
  cases s with
  | start =>
    rw [show step? .start b = some .start from first?_eq_some.mpr (.start hb)] at hstep
    cases hstep
    exact ⟨rfl, hrest⟩
  | _ =>
    obtain ⟨⟨hlow, _⟩, _⟩ := within?_eq_some.mp hstep
    exact absurd hb (Nat.not_lt.mpr (Nat.le_trans (by decide) hlow))

end Utf8

namespace Text

open Utf8

variable {t u : Text}

theorem isUtf8_iff : t.isUtf8 = true ↔ scan? .start t = some .start := beq_iff_eq

theorem isUtf8_append (h : t.isUtf8 = true) : (t ++ u).isUtf8 = u.isUtf8 := by
  unfold isUtf8
  rw [scan?_append, isUtf8_iff.mp h]
  rfl

theorem append_isUtf8 (ht : t.isUtf8 = true) (hu : u.isUtf8 = true) : (t ++ u).isUtf8 = true := by
  rw [isUtf8_append ht, hu]

theorem isUtf8_of_ascii (h : ∀ b ∈ t, b.toNat < 0x80) : t.isUtf8 = true := by
  rw [isUtf8_iff]
  induction t with
  | nil => rfl
  | cons b t ih =>
    obtain ⟨hb, ht⟩ := List.forall_mem_cons.mp h
    exact scan?_cons.mpr ⟨.start, first?_eq_some.mpr (.start hb), ih ht⟩

theorem cons_isUtf8 {b : UInt8} (hb : b.toNat < 0x80) (h : t.isUtf8 = true) :
    isUtf8 (b :: t) = true :=
  append_isUtf8 (isUtf8_of_ascii (List.forall_mem_singleton.mpr hb)) h

theorem isUtf8_ofNat (n : Nat) : (ofNat n).isUtf8 = true := by
  apply isUtf8_of_ascii
  intro b hb
  obtain ⟨_, hhigh⟩ := Byte.isDigit_iff.mp (isDigit_of_mem_ofNat b hb)
  omega

theorem isUtf8_ofInt (n : Int) : (ofInt n).isUtf8 = true := by
  cases n with
  | ofNat n => exact isUtf8_ofNat n
  | negSucc n => exact cons_isUtf8 (by decide) (isUtf8_ofNat _)

theorem isUtf8_padZeros (width : Nat) (h : t.isUtf8 = true) : (padZeros width t).isUtf8 = true := by
  apply append_isUtf8 _ h
  apply isUtf8_of_ascii
  intro b hb
  rw [List.eq_of_mem_replicate hb]
  decide

theorem isUtf8_encode {code : Nat} (h : IsScalar code) : (encode code).isUtf8 = true :=
  isUtf8_iff.mpr (scan?_char (char_encode h))

/-- A text is UTF-8 if and only if it consists of the encodings of code points. -/
theorem isUtf8_iff_exists_encode :
    t.isUtf8 = true ↔ ∃ codes : List Nat, (∀ code ∈ codes, IsScalar code) ∧
      t = codes.flatMap encode := by
  constructor
  . intro h
    induction hlength : t.length using Nat.strongRecOn generalizing t with
    | ind n ih =>
      cases t with
      | nil => exact ⟨[], nofun, rfl⟩
      | cons a t =>
        obtain ⟨char, rest, hchar, heq, hrest⟩ := exists_char (isUtf8_iff.mp h)
        obtain ⟨code, hcode, rfl⟩ := exists_encode_of_char hchar
        have hshorter : rest.length < n := by
          have hpositive := hchar.length_pos
          rw [← hlength, heq, List.length_append]
          omega
        obtain ⟨codes, hcodes, rfl⟩ := ih _ hshorter (isUtf8_iff.mpr hrest) rfl
        exact ⟨code :: codes, List.forall_mem_cons.mpr ⟨hcode, hcodes⟩, heq⟩
  . rintro ⟨codes, hcodes, rfl⟩
    induction codes with
    | nil => rfl
    | cons code codes ih =>
      obtain ⟨hcode, hrest⟩ := List.forall_mem_cons.mp hcodes
      rw [List.flatMap_cons, isUtf8_append (isUtf8_encode hcode)]
      exact ih hrest

end Text

theorem Moment.isUtf8_iso8601 (m : Moment) : m.iso8601.isUtf8 = true := by
  have hnext {t : Text} (ht : t.isUtf8 = true) (mark : UInt8) (hmark : mark.toNat < 0x80)
      (n : Int) : Text.isUtf8 (t ++ mark :: Calendar.twoDigits n) = true :=
    Text.append_isUtf8 ht (Text.cons_isUtf8 hmark (Text.isUtf8_padZeros 2 (Text.isUtf8_ofInt n)))
  have hmonth := hnext (Text.isUtf8_ofInt m.date.year) (byte '-') (by decide) m.date.month
  have hday := hnext hmonth (byte '-') (by decide) m.date.day
  have hhour := hnext hday (byte 'T') (by decide) (m.secondOfDay / 3600)
  have hminute := hnext hhour (byte ':') (by decide) (m.secondOfDay / 60 % 60)
  have hsecond := hnext hminute (byte ':') (by decide) (m.secondOfDay % 60)
  have hfraction := Text.isUtf8_padZeros 3 (Text.isUtf8_ofInt m.fraction)
  exact Text.append_isUtf8 (Text.append_isUtf8 hsecond (Text.cons_isUtf8 (by decide) hfraction)) rfl

end SchemaMigration
