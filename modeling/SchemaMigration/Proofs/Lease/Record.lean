import Mathlib.Algebra.Order.Ring.Int
import SchemaMigration.Lease.Lease
import SchemaMigration.Proofs.JsonUtf8

/-!
This module contains what is read back from the record of a lock.
-/

namespace SchemaMigration.Lease

namespace Record

/-- A record can be written and read back: its texts are UTF-8, its numbers not too large. -/
structure Fits (r : Record) : Prop where
  pid : Json.inRange 32 r.pid = true
  millis : Json.inRange 64 r.acquiredAtMillis = true
  utf8 : r.toJson.isUtf8 = true

theorem isUtf8_toJson {r : Record} : r.toJson.isUtf8 = true ↔
    r.hostName.isUtf8 = true ∧ r.token.isUtf8 = true ∧ r.acquiredAt.isUtf8 = true := by
  have hfields : r.toJson.isUtf8 = (r.hostName.isUtf8 && (r.token.isUtf8 &&
      (r.acquiredAt.isUtf8 && ((Text.ofInt r.acquiredAtMillis).isUtf8 && true)))) := by
    simp only [toJson, Json.ofInt, Json.isUtf8, Json.haveUtf8]
    rfl
  rw [hfields, Text.isUtf8_ofInt]
  simp only [Bool.and_eq_true, Bool.and_self, and_true]

theorem ofJson?_toJson (r : Record) :
    ofJson? r.toJson =
      if Json.inRange 32 r.pid = true ∧ Json.inRange 64 r.acquiredAtMillis = true then some r
      else none := by
  have hpid : ∀ s : Record, withMember? s (ascii "pid", .ofInt r.pid) =
      (Json.toInt? 32 (.ofInt r.pid)).map fun pid => { s with pid } := fun _ => rfl
  have hhostName : ∀ s : Record, withMember? s (ascii "hostname", .string r.hostName) =
      some { s with hostName := r.hostName } := fun _ => rfl
  have htoken : ∀ s : Record, withMember? s (ascii "token", .string r.token) =
      some { s with token := r.token } := fun _ => rfl
  have hacquiredAt : ∀ s : Record, withMember? s (ascii "acquiredAt", .string r.acquiredAt) =
      some { s with acquiredAt := r.acquiredAt } := fun _ => rfl
  have hmillis : ∀ s : Record,
      withMember? s (ascii "acquiredAtMs", .string (Text.ofInt r.acquiredAtMillis)) =
        (Json.toInt? 64 (.string (Text.ofInt r.acquiredAtMillis))).map
          fun acquiredAtMillis => { s with acquiredAtMillis } := fun _ => rfl
  simp only [ofJson?, toJson, List.foldlM_cons, List.foldlM_nil, hpid, hhostName, htoken,
    hacquiredAt, hmillis, Json.toInt?_ofInt, Json.toInt?_string_ofInt, Option.bind_eq_bind,
    Option.bind_some]
  by_cases hrange : Json.inRange 32 r.pid = true
  . by_cases hrange' : Json.inRange 64 r.acquiredAtMillis = true
    . simp [hrange, hrange']
    . simp [hrange, hrange']
  . simp [hrange]

theorem decode_encode_of_fits {r : Record} (h : r.Fits) : decode r.encode = r := by
  unfold decode encode
  rw [Json.parse?_render h.utf8, Option.bind_some, ofJson?_toJson, if_pos ⟨h.pid, h.millis⟩]
  rfl

/--
A record is read back, unless one of its numbers is too large or a text is not UTF-8; then nothing
is.
-/
theorem decode_encode (r : Record) : decode r.encode = r ∨ decode r.encode = empty := by
  by_cases hutf8 : r.toJson.isUtf8 = true
  . by_cases h : Json.inRange 32 r.pid = true ∧ Json.inRange 64 r.acquiredAtMillis = true
    . exact .inl (decode_encode_of_fits ⟨h.1, h.2, hutf8⟩)
    . unfold decode encode
      rw [Json.parse?_render hutf8, Option.bind_some, ofJson?_toJson, if_neg h]
      exact .inr rfl
  . unfold decode encode
    rw [Json.parse?_render_of_not_utf8 hutf8]
    exact .inr rfl

theorem token_eq_of_encode_eq {r r' : Record} (h : r.encode = r'.encode) : r.token = r'.token := by
  have hjson : r.toJson = r'.toJson := Json.render_injective h
  simp only [toJson, Json.object.injEq, List.cons.injEq, Prod.mk.injEq, Json.string.injEq,
    true_and] at hjson
  exact hjson.2.2.1

end Record

theorem signed64_eq (n : Int) : signed64 n =
    if n % 18446744073709551616 < 9223372036854775808 then n % 18446744073709551616
    else n % 18446744073709551616 - 18446744073709551616 :=
  Int.bmod_def n (1 <<< 64)

theorem signed64_bounds (n : Int) : -2 ^ 63 ≤ signed64 n ∧ signed64 n < 2 ^ 63 := by
  rw [signed64_eq]
  omega

theorem inRange_signed64 (n : Int) : Json.inRange 64 (signed64 n) = true := by
  obtain ⟨hle, hlt⟩ := signed64_bounds n
  simp only [Json.inRange, Bool.and_eq_true, decide_eq_true_eq]
  omega

/-- The record of a lock can be written and read back wherever the process has a proper name. -/
theorem Record.fits_of_utf8 {pid : Int} {hostName token : Text} (now : Moment)
    (hpid : Json.inRange 32 pid = true) (hhostName : hostName.isUtf8 = true)
    (htoken : token.isUtf8 = true) :
    Record.Fits ⟨pid, hostName, token, now.iso8601, signed64 now.millis⟩ where
  pid := hpid
  millis := inRange_signed64 _
  utf8 := Record.isUtf8_toJson.mpr ⟨hhostName, htoken, now.isUtf8_iso8601⟩

theorem serialize_eq_ok_iff {r : Record} {content : Text} :
    serialize r = .ok content ↔ r.toJson.isUtf8 = true ∧ content = r.encode := by
  unfold serialize Json.print?
  by_cases h : r.toJson.isUtf8 = true
  . rw [if_pos h, and_iff_right h]
    exact ⟨fun heq => (Except.ok.inj heq).symm, fun heq => heq ▸ rfl⟩
  . rw [if_neg h]
    exact ⟨nofun, fun heq => absurd heq.1 h⟩

end SchemaMigration.Lease
