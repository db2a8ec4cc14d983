import Shrimpd.Block.Part
import Shrimpd.Filter.Matcher

/-!
# The token pre-filter of label queries

Before it opens a part, a label query looks the name and the value of every
equality filter up in the part's tokens.  The tokens are those of the raw lines,
while the filters speak of the labels extracted from them, so the pre-filter is
sound just when the tokens answer for the labels too.
-/

namespace Shrimpd.Lsm

open Shrimpd.Lib Shrimpd.Types Shrimpd.Block Shrimpd.Filter

/-- Some equality filter has a token that the part's token set lacks. -/
def labelPruned (U : Unicode) (m : Matcher) (part : PartMeta) : Bool :=
  m.labels.length > 0 && !part.tokensTruncated &&
    m.labels.any fun f => f.op == .eq && !hasToken U part.tokens (f.label ++ ascii "=" ++ f.value)

/-- The part holds a row in the range that the matcher accepts. -/
def HoldsMatch (J : JsonReader) (m : Matcher) (start stop : Int) (rows : List Entry) : Prop :=
  ∃ e ∈ rows, start ≤ e.timestamp ∧ e.timestamp ≤ stop ∧ m.accepts J e.data = true

/-- All tokens of the names and values of the equality filters occur in the rows, or the
token set cannot prune. -/
def LabelTokensOccur (U : Unicode) (m : Matcher) (rows : List Entry) : Prop :=
  (buildTokenSet U rows).2 = true ∨ rowTokens U rows = [] ∨
    ∀ f ∈ m.labels, f.op = .eq →
      ∀ tok ∈ tokenize U f.label ++ tokenize U f.value, tok ∈ rowTokens U rows

section Prefilter

variable {U : Unicode}

theorem tokenize_label (label value : Bytes) :
    tokenize U (label ++ ascii "=" ++ value) = tokenize U label ++ tokenize U value := by
  have hsep : label ++ ascii "=" ++ value = label ++ 61 :: value := by
    rw [List.append_assoc]
    rfl
  rw [hsep, tokenize_append (by decide) rfl]

theorem labelPruned_eq_false {m : Matcher} {part : PartMeta} :
    labelPruned U m part = false ↔ part.tokensTruncated = true ∨
      ∀ f ∈ m.labels, f.op = .eq →
        hasToken U part.tokens (f.label ++ ascii "=" ++ f.value) = true := by
  cases hlabels : m.labels with
  | nil => simp [labelPruned, hlabels]
  | cons f fs => cases htrunc : part.tokensTruncated <;> simp [labelPruned, hlabels, htrunc]

theorem labelPruned_iff_tokens {part : PartMeta} {rows : List Entry}
    (hpart : (part.tokens, part.tokensTruncated) = buildTokenSet U rows) (m : Matcher) :
    labelPruned U m part = false ↔ LabelTokensOccur U m rows := by
  have hset := Prod.ext_iff.mp hpart
  simp only at hset
  rw [labelPruned_eq_false, LabelTokensOccur, hset.1, hset.2]
  cases hfit : (buildTokenSet U rows).2 with
  | true => simp
  | false =>
      have hhas : ∀ f : LabelFilter,
          hasToken U (buildTokenSet U rows).1 (f.label ++ ascii "=" ++ f.value) = true ↔
            rowTokens U rows = [] ∨
              ∀ tok ∈ tokenize U f.label ++ tokenize U f.value, tok ∈ rowTokens U rows := by
        intro f
        have hne : f.label ++ ascii "=" ++ f.value ≠ [] := by simp [ascii]
        rw [hasToken_buildTokenSet hfit, tokenize_label]
        simp only [hne, false_or]
      simp only [hhas]
      by_cases hnone : rowTokens U rows = [] <;> simp [hnone]

/-- The part a flush of `entries` publishes. -/
def flushedPart (U : Unicode) (nodeID id : Bytes) (entries : List Entry) : PartMeta :=
  flushMeta U nodeID id (writePartV2 (sortByTimestamp entries))

/-- The pre-filter spares the part of a matching row just when the tokens of the filters'
names and values occur in the part's lines. -/
theorem label_prefilter_sound_iff (J : JsonReader) (m : Matcher) (start stop : Int)
    (nodeID id : Bytes) (entries : List Entry) :
    (HoldsMatch J m start stop entries →
        labelPruned U m (flushedPart U nodeID id entries) = false) ↔
      (HoldsMatch J m start stop entries →
        LabelTokensOccur U m (sortByTimestamp entries)) := by
  refine imp_congr_right fun _ => labelPruned_iff_tokens ?_ m
  rw [flushedPart, flushMeta, rows_writePartV2]

end Prefilter

def severityRow : Entry := ⟨1, ascii "\x7b\"severity_text\":\"ERROR\"\x7d"⟩

def levelMatcher : Matcher := ⟨[], [⟨ascii "level", .eq, ascii "ERROR", none⟩]⟩

/-- The label `level` comes from the field `severity_text`, so the line has no such token. -/
theorem renamed_label_is_pruned :
    HoldsMatch JsonReader.flat levelMatcher 0 9 [severityRow] ∧
      labelPruned Unicode.asciiOnly levelMatcher
        (flushedPart Unicode.asciiOnly (ascii "n1") (ascii "p1") [severityRow]) = true := by
  refine ⟨⟨severityRow, List.mem_singleton_self _, ?_, ?_, ?_⟩, ?_⟩ <;> decide +kernel

end Shrimpd.Lsm
