import Shrimpd.Lsm.IndexEngine

/-!
# What a part's origin and its replicas derive

The node that writes a part takes its tokens and index entries from the rows in
memory, a compaction takes the tokens block by block, and a replica reads both
back from the file.  The loops go over maps in any order and sort at the end, and
the order they have met leaves no trace.
-/

namespace Shrimpd.Lsm

open Shrimpd.Lib Shrimpd.Types Shrimpd.Block Shrimpd.Filter

/-! ## Token sets at the cap -/

section Cap

variable {U : Unicode}

theorem nodup_concat {α : Type} {l : List α} {a : α} (h : l.Nodup) (ha : a ∉ l) :
    (l ++ [a]).Nodup := by
  rw [← List.concat_eq_append]
  exact h.concat ha

theorem nodup_collectTokens {toks out : List Bytes} (h : out.Nodup) :
    (collectTokens out toks).1.Nodup := by
  induction toks generalizing out with
  | nil => exact h
  | cons tok toks ih =>
      rw [collectTokens]
      split_ifs with hmem hcap
      · exact ih h
      · exact h
      · exact ih (nodup_concat h hmem)

theorem truncated_collectTokens {toks out : List Bytes} (h : out.Nodup)
    (hlen : out.length ≤ maxTokenSetSize) :
    (collectTokens out toks).2 = true ↔ maxTokenSetSize < (out ++ toks).toFinset.card := by
  induction toks generalizing out with
  | nil =>
      rw [collectTokens, List.append_nil, List.toFinset_card_of_nodup h]
      simpa using hlen
  | cons tok toks ih =>
      rw [collectTokens]
      split_ifs with hmem hcap
      · have hsame : (out ++ tok :: toks).toFinset = (out ++ toks).toFinset := by
          ext t
          have htok : t = tok → t ∈ out := fun heq => heq ▸ hmem
          simp only [List.mem_toFinset, List.mem_append, List.mem_cons]
          tauto
        rw [hsame]
        exact ih h hlen
      · have hnew := nodup_concat h hmem
        have hsub : (out ++ [tok]).toFinset ⊆ (out ++ tok :: toks).toFinset := by
          intro t
          simp only [List.mem_toFinset, List.mem_append, List.mem_cons]
          tauto
        have hcard := Finset.card_le_card hsub
        rw [List.toFinset_card_of_nodup hnew, List.length_append, hcap] at hcard
        simpa using hcard
      · have hnew := ih (nodup_concat h hmem)
          (by rw [List.length_append, List.length_singleton]; omega)
        rwa [List.append_assoc] at hnew

/-- The flag says whether the rows have more tokens than the cap allows. -/
theorem truncated_buildTokenSet (entries : List Entry) :
    (buildTokenSet U entries).2 = true ↔
      maxTokenSetSize < (rowTokens U entries).toFinset.card :=
  truncated_collectTokens List.nodup_nil (Nat.zero_le _)

theorem strict_sortTokens {toks : List Bytes} (h : toks.Nodup) :
    (sortTokens toks).Pairwise (· < ·) := by
  have hnodup : (sortTokens toks).Nodup := (List.perm_insertionSort _ toks).nodup_iff.mpr h
  exact (sorted_sortTokens toks).imp₂ (fun a b hle hne => lt_of_le_of_ne hle hne) hnodup

/-- The keys of a map, sorted: the order in which they are met does not matter. -/
theorem sortTokens_perm {order toks : List Bytes} (h : order.Perm toks) :
    sortTokens order = sortTokens toks := by
  have hperm : (sortTokens order).Perm (sortTokens toks) :=
    (List.perm_insertionSort _ order).trans (h.trans (List.perm_insertionSort _ toks).symm)
  exact hperm.eq_of_pairwise' (sorted_sortTokens order) (sorted_sortTokens toks)

theorem strict_buildTokenSet (entries : List Entry) :
    (buildTokenSet U entries).1.Pairwise (· < ·) :=
  strict_sortTokens (nodup_collectTokens List.nodup_nil)

/-- The keys that a compaction has gathered over the blocks it writes, sorted. -/
theorem sortTokens_mergeStats (rows : List Entry) (blockSize : Int) {order : List Bytes}
    (h : order.Perm (mergeStats U (writePartV2Seq rows blockSize)).tokenSet) :
    (sortTokens order, (mergeStats U (writePartV2Seq rows blockSize)).truncated) =
      buildTokenSet U rows := by
  have htokens := (describes_mergedMeta (U := U) [] 0 [] (writePartV2Seq rows blockSize)).tokens
  rw [rows_writePartV2Seq] at htokens
  rw [sortTokens_perm h]
  exact htokens

end Cap

/-! ## Index entries -/

section Index

variable (J : JsonReader)

/-- The pairs of a row's label map, in some order. -/
def Iterates (e : Entry) (order : List (Bytes × Bytes)) : Prop :=
  order.Perm ((extractLabels J e.data).entries.map fun kv => (kv.1, kv.2))

/-- `add`, over the tokens in the order they are met. -/
def addTokens (dataID : Bytes) (out : List IndexEntry) : List Bytes → List IndexEntry
  | [] => out
  | tok :: toks =>
      if tok ∈ out.map IndexEntry.token then addTokens dataID out toks
      else addTokens dataID (out ++ [⟨tok, dataID⟩]) toks

def orderTokens (orders : List (List (Bytes × Bytes))) : List Bytes :=
  orders.flatMap fun order => order.map fun kv => labelToken kv.1 kv.2

/-- `out` is sorted as `slices.SortFunc` leaves it. -/
def SortedFrom (es out : List IndexEntry) : Prop :=
  out.Perm es ∧ out.Pairwise fun a b => toLex (a.token, a.dataID) ≤ toLex (b.token, b.dataID)

/-- What `BuildIndexEntries` may return. -/
def IndexEntriesOf (dataID : Bytes) (entries : List Entry) (out : List IndexEntry) : Prop :=
  ∃ orders, List.Forall₂ (Iterates J) entries orders ∧
    SortedFrom (addTokens dataID [] (orderTokens orders)) out

/-- What `BuildIndexEntriesFromPart` may return. -/
def IndexEntriesOfPart (dataID : Bytes) (file : PartFile) (out : List IndexEntry) : Prop :=
  ∃ orders, List.Forall₂ (fun b os => List.Forall₂ (Iterates J) b.rows os) file.blocks orders ∧
    SortedFrom (addTokens dataID [] (orders.flatMap orderTokens)) out

variable {J}

theorem indexEntry_ext {x y : IndexEntry} (htoken : x.token = y.token)
    (hid : x.dataID = y.dataID) : x = y := by
  cases x
  cases y
  rw [IndexEntry.mk.injEq]
  exact ⟨htoken, hid⟩

theorem mem_addTokens {dataID : Bytes} {toks : List Bytes} {out : List IndexEntry}
    {x : IndexEntry} (hout : ∀ y ∈ out, y.dataID = dataID) :
    x ∈ addTokens dataID out toks ↔ x ∈ out ∨ x.token ∈ toks ∧ x.dataID = dataID := by
  induction toks generalizing out with
  | nil => simp [addTokens]
  | cons tok toks ih =>
      rw [addTokens]
      split_ifs with hmem
      · obtain ⟨y, hy, rfl⟩ := List.mem_map.mp hmem
        have hsame : x.token = y.token ∧ x.dataID = dataID → x ∈ out := by
          rintro ⟨htoken, hid⟩
          rw [indexEntry_ext htoken (hid.trans (hout y hy).symm)]
          exact hy
        rw [ih hout, List.mem_cons]
        tauto
      · have hnew : ∀ y : IndexEntry, y ∈ out ++ [⟨tok, dataID⟩] → y.dataID = dataID := by
          intro y hy
          rcases List.mem_append.mp hy with hy | hy
          · exact hout y hy
          · rw [List.mem_singleton.mp hy]
        have hlast : x = ⟨tok, dataID⟩ ↔ x.token = tok ∧ x.dataID = dataID :=
          ⟨fun heq => heq ▸ ⟨rfl, rfl⟩, fun h => indexEntry_ext h.1 h.2⟩
        rw [ih hnew, List.mem_append, List.mem_singleton, List.mem_cons, hlast]
        tauto

theorem nodup_addTokens {dataID : Bytes} {toks : List Bytes} {out : List IndexEntry}
    (h : (out.map IndexEntry.token).Nodup) :
    ((addTokens dataID out toks).map IndexEntry.token).Nodup := by
  induction toks generalizing out with
  | nil => exact h
  | cons tok toks ih =>
      rw [addTokens]
      split_ifs with hmem
      · exact ih h
      · refine ih ?_
        rw [List.map_append]
        exact nodup_concat h hmem

/-- Whatever the order, the tokens are those of the rows. -/
theorem mem_orderTokens {rows : List Entry} {orders : List (List (Bytes × Bytes))}
    (h : List.Forall₂ (Iterates J) rows orders) {tok : Bytes} :
    tok ∈ orderTokens orders ↔ tok ∈ rowLabelTokens J rows := by
  induction h with
  | nil => rfl
  | @cons e order rows orders he _ ih =>
      have hrow : tok ∈ order.map (fun kv => labelToken kv.1 kv.2) ↔
          tok ∈ (extractLabels J e.data).entries.map fun kv => labelToken kv.1 kv.2 := by
        rw [(he.map _).mem_iff, List.map_map]
        rfl
      rw [orderTokens, rowLabelTokens, List.flatMap_cons, List.flatMap_cons, List.mem_append,
        List.mem_append, hrow]
      exact or_congr_right ih

/-- The builder's result depends on the set of tokens only. -/
theorem SortedFrom.eq_buildIndexEntries {dataID : Bytes} {toks : List Bytes} {rows : List Entry}
    {out : List IndexEntry} (h : SortedFrom (addTokens dataID [] toks) out)
    (htoks : ∀ tok, tok ∈ toks ↔ tok ∈ rowLabelTokens J rows) :
    out = buildIndexEntries J dataID rows := by
  obtain ⟨hperm, hsorted⟩ := h
  have htokens : ((addTokens dataID [] toks).map IndexEntry.token).Nodup :=
    nodup_addTokens List.nodup_nil
  have hnodup := List.Nodup.of_map _ htokens
  have hset : (addTokens dataID [] toks).Perm
      ((rowLabelTokens J rows).dedup.map fun tok => ⟨tok, dataID⟩) := by
    refine (List.perm_ext_iff_of_nodup hnodup ?_).mpr fun x => ?_
    · exact (List.nodup_dedup _).map fun a b heq => congrArg IndexEntry.token heq
    · rw [mem_addTokens (by simp), List.mem_map]
      simp only [List.mem_dedup, htoks, List.not_mem_nil, false_or]
      constructor
      · rintro ⟨htok, rfl⟩
        exact ⟨x.token, htok, rfl⟩
      · rintro ⟨tok, htok, rfl⟩
        exact ⟨htok, rfl⟩
  have hout : out.Perm (buildIndexEntries J dataID rows) :=
    hperm.trans (hset.trans (List.perm_insertionSort _ _).symm)
  refine hout.eq_of_pairwise ?_ hsorted (List.pairwise_insertionSort _ _)
  intro a b _ _ hab hba
  have heq := Prod.ext_iff.mp (toLex.injective (le_antisymm hab hba))
  exact indexEntry_ext heq.1 heq.2

theorem IndexEntriesOf.eq {dataID : Bytes} {rows : List Entry} {out : List IndexEntry}
    (h : IndexEntriesOf J dataID rows out) : out = buildIndexEntries J dataID rows := by
  obtain ⟨orders, horders, hsorted⟩ := h
  exact hsorted.eq_buildIndexEntries fun tok => mem_orderTokens horders

theorem IndexEntriesOfPart.eq {dataID : Bytes} {file : PartFile} {out : List IndexEntry}
    (h : IndexEntriesOfPart J dataID file out) : out = buildIndexEntries J dataID file.rows := by
  obtain ⟨orders, horders, hsorted⟩ := h
  refine hsorted.eq_buildIndexEntries fun tok => ?_
  rw [PartFile.rows]
  clear hsorted
  generalize file.blocks = blocks at horders ⊢
  induction horders with
  | nil => rfl
  | @cons b os blocks orders hb _ ih =>
      have hsplit : rowLabelTokens J ((b :: blocks).flatMap RowBlock.rows) =
          rowLabelTokens J b.rows ++ rowLabelTokens J (blocks.flatMap RowBlock.rows) := by
        rw [List.flatMap_cons, rowLabelTokens, List.flatMap_append]
        rfl
      rw [hsplit, List.flatMap_cons, List.mem_append, List.mem_append, mem_orderTokens hb]
      exact or_congr_right ih

end Index

theorem mem_rowTokens {U : Unicode} {entries : List Entry} {tok : Bytes} :
    tok ∈ rowTokens U entries ↔ ∃ e ∈ entries, tok ∈ tokenize U e.data := List.mem_flatMap

/-- For every list of rows and every order in which maps are met: a replica reads back from the
file the tokens, the flag and the index entries that the origin has taken from the rows, and a
compaction gathers the same tokens block by block.  The tokens are in order without repetition,
the flag says whether there are more than the cap, and without it they are exactly those of the
rows. -/
theorem part_metadata_agrees (U : Unicode) (J : JsonReader) (entries : List Entry) :
    buildTokenSetFromPart U (writePartV2 entries) = buildTokenSet U entries ∧
    (∀ blockSize order, order.Perm (mergeStats U (writePartV2Seq entries blockSize)).tokenSet →
      (sortTokens order, (mergeStats U (writePartV2Seq entries blockSize)).truncated) =
        buildTokenSet U entries) ∧
    (∀ dataID out out', IndexEntriesOfPart J dataID (writePartV2 entries) out →
      IndexEntriesOf J dataID entries out' → out = out') ∧
    (buildTokenSet U entries).1.Pairwise (· < ·) ∧
    ((buildTokenSet U entries).2 = true ↔
      maxTokenSetSize < (rowTokens U entries).toFinset.card) ∧
    ((buildTokenSet U entries).2 = false →
      (∀ tok, tok ∈ (buildTokenSet U entries).1 ↔ ∃ e ∈ entries, tok ∈ tokenize U e.data) ∧
      ((buildTokenSet U entries).1 ≠ [] → ∀ term,
        hasToken U (buildTokenSet U entries).1 term = true ↔
          ∀ tok ∈ tokenize U term, ∃ e ∈ entries, tok ∈ tokenize U e.data)) := by
  refine ⟨?_, fun blockSize order horder => sortTokens_mergeStats entries blockSize horder, ?_,
    strict_buildTokenSet entries, truncated_buildTokenSet entries, fun hfit => ⟨fun tok => ?_, ?_⟩⟩
  · rw [buildTokenSetFromPart_eq, rows_writePartV2]
  · intro dataID out out' hpart hrows
    rw [hpart.eq, hrows.eq, rows_writePartV2]
  · rw [mem_buildTokenSet hfit, mem_rowTokens]
  · intro hne term
    have hnil : tokenize U [] = [] := rfl
    rw [hasToken_iff (sorted_buildTokenSet entries)]
    simp only [mem_buildTokenSet hfit, mem_rowTokens, hne, false_or]
    refine ⟨fun h => ?_, Or.inr⟩
    rcases h with rfl | h
    · rw [hnil]
      exact nofun
    · exact h

def twoRows : List Entry := [⟨1, ascii "Hello World"⟩, ⟨2, ascii "hello foo"⟩]

theorem part_metadata_agrees_twoRows :
    buildTokenSet Unicode.asciiOnly twoRows =
      ([ascii "foo", ascii "hello", ascii "world"], false) ∧
    hasToken Unicode.asciiOnly (buildTokenSet Unicode.asciiOnly twoRows).1 (ascii "HELLO") = true ∧
    ∀ tok ∈ tokenize Unicode.asciiOnly (ascii "HELLO"),
      ∃ e ∈ twoRows, tok ∈ tokenize Unicode.asciiOnly e.data := by
  have hset : buildTokenSet Unicode.asciiOnly twoRows =
      ([ascii "foo", ascii "hello", ascii "world"], false) := by decide +kernel
  have hfit : (buildTokenSet Unicode.asciiOnly twoRows).2 = false := by rw [hset]
  have hne : (buildTokenSet Unicode.asciiOnly twoRows).1 ≠ [] := by rw [hset]; decide
  obtain ⟨-, -, -, -, -, h⟩ := part_metadata_agrees Unicode.asciiOnly JsonReader.flat twoRows
  have hhas : hasToken Unicode.asciiOnly (buildTokenSet Unicode.asciiOnly twoRows).1
      (ascii "HELLO") = true := by
    rw [hset]
    decide +kernel
  exact ⟨hset, hhas, ((h hfit).2 hne (ascii "HELLO")).mp hhas⟩

end Shrimpd.Lsm
