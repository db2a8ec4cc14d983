import Shrimpd.Api.Server

/-!
# What the ingest endpoint reports

The body is decoded entry by entry, and a batch that is full is written while
the decoding goes on.  An error of such a write is returned through the decoder,
so that the handler takes it for an error of the body.  Only the write of the
last batch, which comes after the decoding, is reported as an error of the
server.
-/

namespace Shrimpd.Api

open Shrimpd.Types

namespace Ingest

variable {writes : Nat → Bool} {st : Ingest}

/-! ## Which writes fail -/

/-- A failure is recorded just when one of the writes made so far has failed. -/
def Tracks (writes : Nat → Bool) (st : Ingest) : Prop :=
  st.failed = true ↔ ∃ i < st.written.length, writes i = false

theorem Tracks.flush (h : Tracks writes st) : Tracks writes (st.flush writes) := by
  unfold Ingest.flush
  split_ifs with hskip hwrites
  · exact h
  · have hgoes : st.failed = false := by
      rw [Bool.or_eq_true, not_or] at hskip
      exact Bool.eq_false_iff.mpr hskip.1
    constructor
    · intro hfailed
      change st.failed = true at hfailed
      rw [hgoes] at hfailed
      cases hfailed
    · rintro ⟨i, hi, hwrite⟩
      change i < (st.written ++ [st.batch]).length at hi
      rw [List.length_append, List.length_singleton] at hi
      rcases Nat.lt_succ_iff_lt_or_eq.mp hi with hi | rfl
      · exact h.mpr ⟨i, hi, hwrite⟩
      · rw [hwrites] at hwrite
        cases hwrite
  · refine ⟨fun _ => ⟨st.written.length, ?_, Bool.eq_false_iff.mpr hwrites⟩, fun _ => rfl⟩
    change st.written.length < (st.written ++ [st.batch]).length
    rw [List.length_append]
    exact Nat.lt_succ_self _

theorem Tracks.emit (h : Tracks writes st) (e : Entry) : Tracks writes (st.emit writes e) := by
  unfold Ingest.emit
  split_ifs
  · exact h
  · have hbatch : Tracks writes { st with batch := st.batch ++ [e] } := h
    simp only
    split_ifs
    · exact hbatch.flush
    · exact hbatch

theorem Tracks.decode (h : Tracks writes st) (entries : List Entry) :
    Tracks writes (st.decode writes entries) := by
  induction entries generalizing st with
  | nil => exact h
  | cons e es ih =>
      rw [Ingest.decode]
      split_ifs
      · exact h.emit e
      · exact ih (h.emit e)

/-! ## Writes during the decoding -/

end Ingest

/-! ## The response -/

/-- The response says what happened: success just when the whole body was decoded, had an entry,
and was handed to the store by writes that all succeeded; an error of the client only for a
malformed or empty body; and an error of the server for a body that is well-formed when a write
failed. -/
structure Faithful (writes : Nat → Bool) (entries : List Entry) (complete : Bool) : Prop where
  noContent : (handleIngest writes entries complete).1 = .noContent ↔
    complete = true ∧ entries ≠ [] ∧ (handleIngest writes entries complete).2.flatten = entries ∧
      ∀ i < (handleIngest writes entries complete).2.length, writes i = true
  badRequest : (handleIngest writes entries complete).1 = .badRequest →
    complete = false ∨ entries = []
  internalError : complete = true →
    (∃ i < (handleIngest writes entries complete).2.length, writes i = false) →
      (handleIngest writes entries complete).1 = .internalError

section Response

variable {writes : Nat → Bool} {entries : List Entry} {complete : Bool}

end Response

end Shrimpd.Api
