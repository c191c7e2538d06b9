import SchemaMigration.Json
import SchemaMigration.Proofs.Decimal

/-!
This module contains that a document can be read back from its text.
-/

namespace SchemaMigration.Json

theorem hexValue?_hexDigit {n : Nat} (h : n < 16) : hexValue? (Text.hexDigit n) = some n := by
  have hall : ∀ m : Fin 16, hexValue? (Text.hexDigit m.val) = some m.val := by decide
  exact hall ⟨n, h⟩

theorem unit?_hexByte (b : UInt8) :
    unit? (byte '0') (byte '0') (Text.hexDigit (b.toNat / 16)) (Text.hexDigit (b.toNat % 16)) =
      some b.toNat := by
  have hb := b.toNat_lt
  unfold unit?
  rw [hexValue?_hexDigit (by omega), hexValue?_hexDigit (by omega)]
  have : hexValue? (byte '0') = some 0 := rfl
  rw [this]
  simp only [Option.bind_eq_bind, Option.bind_some, Option.pure_def, Option.some.injEq]
  omega

theorem encode_toNat {b : UInt8} (h : b.toNat < 32) : Utf8.encode b.toNat = [b] := by
  unfold Utf8.encode
  rw [if_pos (by omega), UInt8.ofNat_toNat]

theorem stringBody?_control {b : UInt8} (h : b.toNat < 32) (rest : Text) :
    stringBody? (ascii "\\u00" ++ Text.hexByte b ++ rest) =
      (stringBody? rest).map fun (value, rest) => (b :: value, rest) := by
  have hshape : ascii "\\u00" ++ Text.hexByte b ++ rest =
      byte '\\' :: byte 'u' :: byte '0' :: byte '0' :: Text.hexDigit (b.toNat / 16) ::
        Text.hexDigit (b.toNat % 16) :: rest := rfl
  have hquote : (byte '\\' == byte '"') = false := rfl
  have hrange : (decide (b.toNat < 0xD800) || decide (0xE000 ≤ b.toNat)) = true := by
    rw [decide_eq_true (by omega)]
    rfl
  rw [hshape, stringBody?.eq_def]
  simp only [hquote, beq_self_eq_true, unit?_hexByte, hrange, encode_toNat h, if_true, if_false,
    Bool.false_eq_true, List.singleton_append]

theorem stringBody?_escape (b : UInt8) (rest : Text) :
    stringBody? (escape b ++ rest) =
      (stringBody? rest).map fun (value, rest) => (b :: value, rest) := by
  unfold escape
  split
  . next h =>
    rw [beq_iff_eq.mp h, stringBody?.eq_def]
    rfl
  . next hquote =>
    split
    . next h =>
      rw [beq_iff_eq.mp h, stringBody?.eq_def]
      rfl
    . next hbackslash =>
      split
      . next h => exact stringBody?_control (UInt8.lt_iff_toNat_lt.mp h) rest
      . next h =>
        rw [List.singleton_append, stringBody?.eq_def]
        simp only [hquote, hbackslash, h, if_false, Bool.false_eq_true]

theorem stringBody?_quote (t rest : Text) :
    stringBody? (t.flatMap escape ++ byte '"' :: rest) = some (t, rest) := by
  induction t with
  | nil =>
    rw [List.flatMap_nil, List.nil_append, stringBody?.eq_def]
    rfl
  | cons b t ih =>
    rw [List.flatMap_cons, List.append_assoc, stringBody?_escape, ih]
    rfl

def continuesNumber (b : UInt8) : Bool :=
  Byte.isDigit b || b == byte '.' || b == byte 'e' || b == byte 'E'

theorem stops_isDigit {rest : Text} (h : Text.Stops continuesNumber rest) :
    Text.Stops Byte.isDigit rest := by
  cases rest with
  | nil => trivial
  | cons b rest =>
    have hb : continuesNumber b = false := h
    simp only [continuesNumber, Bool.or_eq_false_iff] at hb
    exact hb.1.1.1

theorem fraction?_of_stops {rest : Text} (h : Text.Stops continuesNumber rest) :
    fraction? rest = some ([], rest) := by
  cases rest with
  | nil => rfl
  | cons b rest =>
    have hb : continuesNumber b = false := h
    simp only [continuesNumber, Bool.or_eq_false_iff] at hb
    simp [fraction?, hb]

theorem exponent?_of_stops {rest : Text} (h : Text.Stops continuesNumber rest) :
    exponent? rest = some (0, rest) := by
  cases rest with
  | nil => rfl
  | cons b rest =>
    have hb : continuesNumber b = false := h
    simp only [continuesNumber, Bool.or_eq_false_iff] at hb
    simp [exponent?, hb]

theorem ofNat_append {rest : Text} (h : Text.Stops Byte.isDigit rest) (n : Nat) :
    ∃ first others, Text.ofNat n = first :: others ∧ Byte.isDigit first = true ∧
      (first = byte '0' → others = []) ∧
      (first :: (others ++ rest)).takeWhile Byte.isDigit = first :: others ∧
      (first :: (others ++ rest)).dropWhile Byte.isDigit = rest ∧
      Text.digitsValue (first :: others) = n := by
  obtain ⟨first, others, hn, hzero⟩ := Text.ofNat_eq_cons n
  have hdigits : ∀ b ∈ first :: others, Byte.isDigit b = true := by
    rw [← hn]
    exact Text.isDigit_of_mem_ofNat
  refine ⟨first, others, hn, hdigits first List.mem_cons_self, hzero, ?_, ?_, ?_⟩
  . exact Text.takeWhile_append_of_stops hdigits h
  . exact Text.dropWhile_append_of_stops hdigits h
  . rw [← hn]
    exact Text.digitsValue_ofNat n

theorem exponent?_ofInt {rest : Text} (h : Text.Stops Byte.isDigit rest) (e : Int) :
    exponent? (byte 'e' :: (Text.ofInt e ++ rest)) = some (e, rest) := by
  unfold exponent?
  cases e with
  | ofNat n =>
    obtain ⟨first, others, hn, hfirst, _, htake, hdrop, hvalue⟩ := ofNat_append h n
    have hminus : (first == byte '-') = false := beq_false_of_class hfirst rfl
    have hplus : (first == byte '+') = false := beq_false_of_class hfirst rfl
    simp only [Text.ofInt, hn, List.cons_append, hminus, hplus, if_false, Bool.false_eq_true]
    rw [htake, hdrop]
    change some ((Text.digitsValue (first :: others) : Int), rest) = _
    rw [hvalue]
    rfl
  | negSucc n =>
    obtain ⟨first, others, hn, _, _, htake, hdrop, hvalue⟩ := ofNat_append h (n + 1)
    simp only [Text.ofInt, hn, List.cons_append, beq_self_eq_true, if_true]
    rw [htake, hdrop]
    change some (-(Text.digitsValue (first :: others) : Int), rest) = _
    rw [hvalue]
    rfl

/-- A numeral is read as its number, together with the exponent behind it. -/
theorem number?_ofInt {rest rest' : Text} {e : Int} (hstops : Text.Stops Byte.isDigit rest)
    (hfraction : fraction? rest = some ([], rest)) (hexponent : exponent? rest = some (e, rest'))
    (m : Int) : number? (Text.ofInt m ++ rest) = some ((m, e), rest') := by
  unfold number?
  cases m with
  | ofNat n =>
    obtain ⟨first, others, hn, hfirst, hzero, htake, hdrop, hvalue⟩ := ofNat_append hstops n
    have hminus : (first == byte '-') = false := beq_false_of_class hfirst rfl
    have hlead : (first == byte '0' && !others.isEmpty) = false := by
      simpa using hzero
    simp only [Text.ofInt, hn, List.cons_append, hminus, if_false, Bool.false_eq_true, htake, hdrop,
      hlead, hfraction, hexponent, Option.bind_eq_bind, Option.bind_some, List.append_nil, hvalue]
    simp
  | negSucc n =>
    obtain ⟨first, others, hn, _, hzero, htake, hdrop, hvalue⟩ := ofNat_append hstops (n + 1)
    have hlead : (first == byte '0' && !others.isEmpty) = false := by
      simpa using hzero
    simp only [Text.ofInt, hn, List.cons_append, beq_self_eq_true, if_true, htake, hdrop,
      hlead, hfraction, hexponent, Option.bind_eq_bind, Option.bind_some, List.append_nil, hvalue]
    simp [Int.negSucc_eq]

theorem skipBlanks_line (depth : Nat) (t : Text) : skipBlanks (line depth ++ t) = skipBlanks t := by
  have hblank : ∀ b ∈ line depth, isBlank b = true := by
    intro b hb
    cases List.mem_cons.mp hb with
    | inl heq => exact heq ▸ rfl
    | inr hmem => exact List.eq_of_mem_replicate hmem ▸ rfl
  unfold skipBlanks
  rw [List.dropWhile_append_of_pos hblank]

theorem skipBlanks_skipBlanks (t : Text) : skipBlanks (skipBlanks t) = skipBlanks t := by
  induction t with
  | nil => rfl
  | cons b t ih =>
    unfold skipBlanks at ih ⊢
    rw [List.dropWhile_cons]
    split
    . exact ih
    . next h => rw [List.dropWhile_cons_of_neg h]

theorem value?_skipBlanks (fuel : Nat) (t : Text) : value? fuel (skipBlanks t) = value? fuel t := by
  cases fuel with
  | zero => rw [value?, value?]
  | succ fuel => rw [value?, value?, skipBlanks_skipBlanks]

theorem value?_line (fuel depth : Nat) (t : Text) :
    value? fuel (line depth ++ t) = value? fuel t := by
  rw [← value?_skipBlanks, skipBlanks_line, value?_skipBlanks]

theorem elements?_skipBlanks (fuel : Nat) (t : Text) :
    elements? fuel (skipBlanks t) = elements? fuel t := by
  cases fuel with
  | zero => rw [elements?, elements?]
  | succ fuel => rw [elements?, elements?, value?_skipBlanks]

theorem members?_skipBlanks (fuel : Nat) (t : Text) :
    members? fuel (skipBlanks t) = members? fuel t := by
  cases fuel with
  | zero => rw [members?, members?]
  | succ fuel => rw [members?, members?, skipBlanks_skipBlanks]

theorem skipBlanks_cons {b : UInt8} (h : isBlank b = false) (t : Text) :
    skipBlanks (b :: t) = b :: t :=
  List.dropWhile_cons_of_neg (by rw [h]; exact Bool.false_ne_true)

def beginsNumber (b : UInt8) : Bool := Byte.isDigit b || b == byte '-'

theorem ofInt_eq_cons (m : Int) : ∃ b t, Text.ofInt m = b :: t ∧ beginsNumber b = true := by
  cases m with
  | ofNat n =>
    have hstops : Text.Stops Byte.isDigit [] := trivial
    obtain ⟨first, others, hn, hfirst, _⟩ := ofNat_append hstops n
    exact ⟨first, others, hn, by rw [beginsNumber, hfirst]; rfl⟩
  | negSucc n => exact ⟨byte '-', Text.ofNat (n + 1), rfl, rfl⟩

theorem isBlank_of_beginsNumber {b : UInt8} (h : beginsNumber b = true) : isBlank b = false := by
  unfold isBlank
  rw [beq_false_of_class h rfl, beq_false_of_class h rfl, beq_false_of_class h rfl,
    beq_false_of_class h rfl]
  rfl

theorem value?_of_beginsNumber {b : UInt8} (h : beginsNumber b = true) (fuel : Nat) (t : Text) :
    value? (fuel + 1) (b :: t) =
      (number? (b :: t)).map fun (n, rest) => (.number n.1 n.2, rest) := by
  have hne : ∀ c : UInt8, beginsNumber c = false → (b == c) = false := by
    intro c hc
    exact beq_false_of_class h hc
  rw [value?, skipBlanks_cons (isBlank_of_beginsNumber h)]
  simp only [hne (byte '\x7b') rfl, hne (byte '[') rfl, hne (byte '"') rfl, hne (byte 't') rfl,
    hne (byte 'f') rfl, hne (byte 'n') rfl, if_false, Bool.false_eq_true]

theorem value?_ofInt {rest rest' : Text} {e : Int} (hstops : Text.Stops Byte.isDigit rest)
    (hfraction : fraction? rest = some ([], rest)) (hexponent : exponent? rest = some (e, rest'))
    (fuel : Nat) (m : Int) :
    value? (fuel + 1) (Text.ofInt m ++ rest) = some (.number m e, rest') := by
  obtain ⟨b, t, hm, hb⟩ := ofInt_eq_cons m
  have hnumber := number?_ofInt hstops hfraction hexponent m
  rw [hm, List.cons_append] at hnumber ⊢
  rw [value?_of_beginsNumber hb, hnumber]
  rfl

theorem value?_number {rest : Text} (h : Text.Stops continuesNumber rest) (fuel : Nat)
    (depth : Nat) (m e : Int) :
    value? (fuel + 1) (renderAt depth (.number m e) ++ rest) = some (.number m e, rest) := by
  unfold renderAt
  split
  . next hzero =>
    rw [hzero]
    exact value?_ofInt (stops_isDigit h) (fraction?_of_stops h) (exponent?_of_stops h) fuel m
  . have hstops : Text.Stops Byte.isDigit (byte 'e' :: (Text.ofInt e ++ rest)) := rfl
    rw [List.append_assoc]
    exact value?_ofInt hstops rfl (exponent?_ofInt (stops_isDigit h) e) fuel m

theorem renderAt_eq_cons (depth : Nat) (j : Json) :
    ∃ b t, renderAt depth j = b :: t ∧ isBlank b = false ∧ (b == byte ']') = false := by
  cases j with
  | null => exact ⟨_, _, by rw [renderAt]; rfl, rfl, rfl⟩
  | bool value =>
    cases value with
    | true => exact ⟨_, _, by rw [renderAt]; rfl, rfl, rfl⟩
    | false => exact ⟨_, _, by rw [renderAt]; rfl, rfl, rfl⟩
  | number m e =>
    obtain ⟨b, t, hm, hb⟩ := ofInt_eq_cons m
    unfold renderAt
    rw [hm]
    split
    . exact ⟨_, _, rfl, isBlank_of_beginsNumber hb, beq_false_of_class hb rfl⟩
    . exact ⟨_, _, rfl, isBlank_of_beginsNumber hb, beq_false_of_class hb rfl⟩
  | string value => exact ⟨_, _, by rw [renderAt, quote, Text.inQuotes]; rfl, rfl, rfl⟩
  | array elements =>
    cases elements with
    | nil => exact ⟨_, _, by rw [renderAt]; rfl, rfl, rfl⟩
    | cons => exact ⟨_, _, by rw [renderAt]; rfl, rfl, rfl⟩
  | object members =>
    cases members with
    | nil => exact ⟨_, _, by rw [renderAt]; rfl, rfl, rfl⟩
    | cons => exact ⟨_, _, by rw [renderAt]; rfl, rfl, rfl⟩

theorem quote_append (key rest : Text) :
    quote key ++ rest = byte '"' :: (key.flatMap escape ++ byte '"' :: rest) := by
  simp [quote, Text.inQuotes]

/-- The first byte of an element is not a closing bracket, whatever white space comes before. -/
theorem skipBlanks_renderElements (depth : Nat) (element : Json) (elements : List Json)
    (rest : Text) :
    ∃ b t, skipBlanks (renderElements depth (element :: elements) ++ rest) = b :: t ∧
      (b == byte ']') = false := by
  obtain ⟨b, t, hrender, hblank, hclose⟩ := renderAt_eq_cons depth element
  cases elements with
  | nil =>
    rw [renderElements, List.append_assoc, skipBlanks_line, hrender, List.cons_append,
      skipBlanks_cons hblank]
    exact ⟨b, _, rfl, hclose⟩
  | cons next elements =>
    rw [renderElements, List.append_assoc, List.append_assoc, skipBlanks_line, hrender,
      List.cons_append, skipBlanks_cons hblank]
    exact ⟨b, _, rfl, hclose⟩

theorem skipBlanks_renderMembers (depth : Nat) (member : Text × Json)
    (members : List (Text × Json)) (rest : Text) :
    ∃ t, skipBlanks (renderMembers depth (member :: members) ++ rest) = byte '"' :: t := by
  obtain ⟨key, value⟩ := member
  cases members with
  | nil =>
    rw [renderMembers, List.append_assoc, List.append_assoc, List.append_assoc, skipBlanks_line,
      quote_append, skipBlanks_cons rfl]
    exact ⟨_, rfl⟩
  | cons next members =>
    rw [renderMembers, List.append_assoc, List.append_assoc, List.append_assoc, List.append_assoc,
      skipBlanks_line, quote_append, skipBlanks_cons rfl]
    exact ⟨_, rfl⟩

theorem length_renderAt_pos (depth : Nat) (j : Json) : 0 < (renderAt depth j).length := by
  obtain ⟨b, t, hj, _⟩ := renderAt_eq_cons depth j
  rw [hj]
  exact Nat.succ_pos _

theorem length_quote (key : Text) : 2 ≤ (quote key).length := by
  simp [quote, Text.inQuotes]

theorem value?_quote (fuel : Nat) (value rest : Text) :
    value? (fuel + 1) (quote value ++ rest) = some (.string value, rest) := by
  rw [quote_append, value?, skipBlanks_cons rfl]
  change (stringBody? _).map _ = _
  rw [stringBody?_quote]
  rfl

theorem value?_array {b : UInt8} {t t' : Text} (ht : skipBlanks t = b :: t')
    (hclose : (b == byte ']') = false) (fuel : Nat) :
    value? (fuel + 1) (byte '[' :: t) =
      (elements? fuel t).map fun (elements, rest) => (.array elements, rest) := by
  have hbrace : (byte '[' == byte '\x7b') = false := rfl
  rw [value?, skipBlanks_cons rfl]
  simp only [hbrace, beq_self_eq_true, ht, hclose, if_true, if_false, Bool.false_eq_true]
  rw [← ht, elements?_skipBlanks]

theorem value?_object {t t' : Text} (ht : skipBlanks t = byte '"' :: t') (fuel : Nat) :
    value? (fuel + 1) (byte '\x7b' :: t) =
      (members? fuel t).map fun (members, rest) => (.object members, rest) := by
  have hclose : (byte '"' == byte '\x7d') = false := rfl
  rw [value?, skipBlanks_cons rfl]
  simp only [beq_self_eq_true, ht, hclose, if_true, if_false, Bool.false_eq_true]
  rw [← ht, members?_skipBlanks]

theorem elements?_last {fuel depth : Nat} {t rest : Text} {element : Json}
    (h : value? fuel t = some (element, line depth ++ byte ']' :: rest)) :
    elements? (fuel + 1) t = some ([element], rest) := by
  rw [elements?, h]
  simp only [skipBlanks_line]
  rfl

theorem elements?_next {fuel : Nat} {t rest : Text} {element : Json}
    (h : value? fuel t = some (element, byte ',' :: rest)) :
    elements? (fuel + 1) t =
      (elements? fuel rest).map fun (elements, rest) => (element :: elements, rest) := by
  rw [elements?, h]
  rfl

/-- A member up to its value. -/
theorem members?_quote {fuel depth : Nat} {key t : Text} :
    members? (fuel + 1) (line depth ++ (quote key ++ (ascii ": " ++ t))) =
      match value? fuel t with
      | none => none
      | some (value, rest) =>
        match skipBlanks rest with
        | [] => none
        | b :: rest =>
          if b == byte ',' then
            (members? fuel rest).map fun (members, rest) => ((key, value) :: members, rest)
          else if b == byte '\x7d' then some ([(key, value)], rest)
          else none := by
  have hcolon : isBlank (byte ':') = false := rfl
  have hspace : value? fuel (byte ' ' :: t) = value? fuel t := by
    rw [← value?_skipBlanks fuel t, ← value?_skipBlanks]
    rfl
  have hshape : ascii ": " ++ t = byte ':' :: byte ' ' :: t := rfl
  rw [hshape, quote_append, members?, skipBlanks_line, skipBlanks_cons rfl]
  simp only [beq_self_eq_true, if_true, stringBody?_quote, skipBlanks_cons hcolon]
  exact hspace ▸ rfl

theorem members?_last {fuel depth depth' : Nat} {key t rest : Text} {value : Json}
    (h : value? fuel t = some (value, line depth' ++ byte '\x7d' :: rest)) :
    members? (fuel + 1) (line depth ++ (quote key ++ (ascii ": " ++ t))) =
      some ([(key, value)], rest) := by
  rw [members?_quote, h]
  simp only [skipBlanks_line]
  rfl

theorem members?_next {fuel depth : Nat} {key t rest : Text} {value : Json}
    (h : value? fuel t = some (value, byte ',' :: rest)) :
    members? (fuel + 1) (line depth ++ (quote key ++ (ascii ": " ++ t))) =
      (members? fuel rest).map fun (members, rest) => ((key, value) :: members, rest) := by
  rw [members?_quote, h]
  rfl

-- The fuel that a text gets is twice its length, and every element or member uses up two at most.
mutual

theorem value?_renderAt (depth : Nat) (j : Json) (fuel : Nat) (rest : Text)
    (hfuel : 2 * (renderAt depth j).length ≤ fuel) (hrest : Text.Stops continuesNumber rest) :
    value? fuel (renderAt depth j ++ rest) = some (j, rest) := by
  have hpos := length_renderAt_pos depth j
  obtain ⟨fuel, rfl⟩ := Nat.exists_eq_add_one_of_ne_zero (show fuel ≠ 0 by omega)
  cases j with
  | null =>
    rw [renderAt, value?.eq_def]
    rfl
  | bool value =>
    cases value with
    | true =>
      rw [renderAt, value?.eq_def]
      rfl
    | false =>
      rw [renderAt, value?.eq_def]
      rfl
  | number m e => exact value?_number hrest fuel depth m e
  | string value =>
    rw [renderAt]
    exact value?_quote fuel value rest
  | array elements =>
    cases elements with
    | nil =>
      rw [renderAt, value?.eq_def]
      rfl
    | cons element elements =>
      rw [renderAt] at hfuel ⊢
      simp only [List.length_cons, List.length_append, List.length_nil] at hfuel
      have ih := elements?_render (depth + 1) depth (element :: elements) fuel rest
        (List.cons_ne_nil _ _) (by omega)
      obtain ⟨b, t, hskip, hclose⟩ := skipBlanks_renderElements (depth + 1) element elements
        (line depth ++ byte ']' :: rest)
      rw [List.append_assoc, List.append_assoc, List.cons_append, List.singleton_append,
        value?_array hskip hclose, ih]
      rfl
  | object members =>
    cases members with
    | nil =>
      rw [renderAt, value?.eq_def]
      rfl
    | cons member members =>
      rw [renderAt] at hfuel ⊢
      simp only [List.length_cons, List.length_append, List.length_nil] at hfuel
      have ih := members?_render (depth + 1) depth (member :: members) fuel rest
        (List.cons_ne_nil _ _) (by omega)
      obtain ⟨t, hskip⟩ := skipBlanks_renderMembers (depth + 1) member members
        (line depth ++ byte '\x7d' :: rest)
      rw [List.append_assoc, List.append_assoc, List.cons_append, List.singleton_append,
        value?_object hskip, ih]
      rfl

theorem elements?_render (depth depth' : Nat) (elements : List Json) (fuel : Nat) (rest : Text)
    (hne : elements ≠ []) (hfuel : 2 * (renderElements depth elements).length + 1 ≤ fuel) :
    elements? fuel (renderElements depth elements ++ (line depth' ++ byte ']' :: rest)) =
      some (elements, rest) := by
  obtain ⟨fuel, rfl⟩ := Nat.exists_eq_add_one_of_ne_zero (show fuel ≠ 0 by omega)
  cases elements with
  | nil => exact absurd rfl hne
  | cons element elements =>
    cases elements with
    | nil =>
      rw [renderElements] at hfuel ⊢
      simp only [List.length_append] at hfuel
      have hvalue := value?_renderAt depth element fuel (line depth' ++ byte ']' :: rest) (by omega)
        rfl
      rw [← value?_line fuel depth] at hvalue
      rw [List.append_assoc]
      exact elements?_last hvalue
    | cons next elements =>
      rw [renderElements] at hfuel ⊢
      simp only [List.length_cons, List.length_append] at hfuel
      have ih := elements?_render depth depth' (next :: elements) fuel rest (List.cons_ne_nil _ _)
        (by omega)
      have hvalue := value?_renderAt depth element fuel
        (byte ',' :: (renderElements depth (next :: elements) ++ (line depth' ++ byte ']' :: rest)))
        (by omega) rfl
      rw [← value?_line fuel depth] at hvalue
      rw [List.append_assoc, List.append_assoc, List.cons_append, elements?_next hvalue, ih]
      rfl

theorem members?_render (depth depth' : Nat) (members : List (Text × Json)) (fuel : Nat)
    (rest : Text) (hne : members ≠ []) (hfuel : 2 * (renderMembers depth members).length ≤ fuel) :
    members? fuel (renderMembers depth members ++ (line depth' ++ byte '\x7d' :: rest)) =
      some (members, rest) := by
  cases members with
  | nil => exact absurd rfl hne
  | cons member members =>
    obtain ⟨key, value⟩ := member
    have hkey := length_quote key
    cases members with
    | nil =>
      rw [renderMembers] at hfuel ⊢
      simp only [List.length_append] at hfuel
      obtain ⟨fuel, rfl⟩ := Nat.exists_eq_add_one_of_ne_zero (show fuel ≠ 0 by omega)
      rw [List.append_assoc, List.append_assoc, List.append_assoc]
      exact members?_last (value?_renderAt depth value fuel _ (by omega) rfl)
    | cons next members =>
      rw [renderMembers] at hfuel ⊢
      simp only [List.length_cons, List.length_append] at hfuel
      obtain ⟨fuel, rfl⟩ := Nat.exists_eq_add_one_of_ne_zero (show fuel ≠ 0 by omega)
      have ih := members?_render depth depth' (next :: members) fuel rest (List.cons_ne_nil _ _)
        (by omega)
      rw [List.append_assoc, List.append_assoc, List.append_assoc, List.append_assoc,
        List.cons_append, members?_next (value?_renderAt depth value fuel _ (by omega) rfl), ih]
      rfl

end

theorem value?_render (j : Json) :
    value? (2 * (render j).length + 2) (render j) = some (j, [byte '\n']) := by
  apply value?_renderAt
  . rw [render, List.length_append]
    omega
  . rfl

theorem render_injective {j j' : Json} (h : j.render = j'.render) : j = j' := by
  have hread := value?_render j
  rw [h, value?_render] at hread
  cases hread
  rfl

theorem integer?_zero (m : Int) : integer? m 0 = some m := by
  unfold integer?
  split
  . next h => rw [h]
  . simp

theorem toInt?_ofInt (bits : Nat) (n : Int) :
    toInt? bits (.ofInt n) = if inRange bits n = true then some n else none := by
  rw [ofInt, toInt?, integer?_zero]
  rfl

theorem toInt?_string_ofInt (bits : Nat) (n : Int) :
    toInt? bits (.string (Text.ofInt n)) = if inRange bits n = true then some n else none := by
  have h : number? (Text.ofInt n) = some ((n, 0), []) := by
    have hstops : Text.Stops Byte.isDigit [] := trivial
    have := number?_ofInt hstops rfl rfl n
    rwa [List.append_nil] at this
  rw [toInt?, h]
  change (integer? n 0).filter (inRange bits) = _
  rw [integer?_zero]
  rfl

end SchemaMigration.Json
