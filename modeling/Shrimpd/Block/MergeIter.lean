import Shrimpd.Lib.Heap
import Shrimpd.Block.RoundTrip
import Mathlib.Data.Prod.Lex

/-!
# The merge iterator

The iterator keeps one cursor for each part in a heap, ordered by timestamp, then
by part and place.  It yields the row of the first cursor, moves that cursor to
the next row or block, and puts it back in order or drops it.  What is left of
each part is a list of rows, and the first cursor is at the least of their heads.
-/

namespace Shrimpd.Block.Format

open Shrimpd.Lib Shrimpd.Types

/-! ## Cursors -/

structure BlockCursor where
  pf : PartFileV2
  part : Nat
  block : Nat
  idx : Nat
  bb : BinBlock
  ts : Int

/-- `mergeHeap.Less`. -/
def BlockCursor.less (a b : BlockCursor) : Bool :=
  if a.ts ≠ b.ts then a.ts < b.ts
  else if a.part ≠ b.part then a.part < b.part
  else if a.block ≠ b.block then a.block < b.block
  else a.idx < b.idx

inductive MergeErr where
  | load (part : Nat) (err : ReadErr)
  | advance (part block : Nat) (err : ReadErr)

section Model

variable (z : Zstd)

/-- A block without rows has no cursor. -/
def nextCursor (pf : PartFileV2) (part block : Nat) : Except ReadErr (Option BlockCursor) :=
  match readBinBlock z pf block with
  | .error err => .error err
  | .ok bb =>
      match bb.ts with
      | [] => .ok none
      | ts :: _ => .ok (some ⟨pf, part, block, 0, bb, ts⟩)

def advanceCursor (c : BlockCursor) : Except ReadErr (Option BlockCursor) :=
  match c.bb.ts[c.idx + 1]? with
  | some ts => .ok (some { c with idx := c.idx + 1, ts := ts })
  | none =>
      if c.block + 1 ≥ c.pf.headers.length then .ok none
      else nextCursor z c.pf c.part (c.block + 1)

/-- A cursor at the start of each part from number `i` on; nil parts and parts without blocks
have none. -/
def startCursors : Nat → List (Option PartFileV2) → Except MergeErr (List BlockCursor)
  | _, [] => .ok []
  | i, none :: parts => startCursors (i + 1) parts
  | i, some pf :: parts =>
      if pf.headers.length = 0 then startCursors (i + 1) parts
      else
        match nextCursor z pf i 0 with
        | .error err => .error (.load i err)
        | .ok c =>
            match startCursors (i + 1) parts with
            | .error err => .error err
            | .ok cs => .ok (c.toList ++ cs)

variable (H : HeapOps BlockCursor.less)

/-- The loop over the heap, at most `fuel` rows of it. -/
def mergeLoop : Nat → List BlockCursor → List (Except MergeErr Entry)
  | 0, _ => []
  | _, [] => []
  | fuel + 1, c :: cs =>
      .ok ⟨c.ts, c.bb.dataBytes c.idx⟩ ::
        match advanceCursor z c with
        | .error err => [.error (.advance c.part (c.block + 1) err)]
        | .ok (some next) => mergeLoop fuel (H.fix (next :: cs))
        | .ok none => mergeLoop fuel (H.pop (c :: cs))

/-- What the iterator yields: rows, and an error at the end if there is one. -/
def mergeParts (fuel : Nat) (parts : List (Option PartFileV2)) : List (Except MergeErr Entry) :=
  match startCursors z 0 parts with
  | .error err => [.error err]
  | .ok h => mergeLoop z H fuel (H.init h)

end Model

/-! ## The order of cursors -/

def BlockCursor.key (c : BlockCursor) : Int ×ₗ Nat ×ₗ Nat ×ₗ Nat :=
  toLex (c.ts, toLex (c.part, toLex (c.block, c.idx)))

theorem less_iff (a b : BlockCursor) : a.less b = true ↔ a.key < b.key := by
  unfold BlockCursor.less BlockCursor.key
  rw [Prod.Lex.toLex_lt_toLex, Prod.Lex.toLex_lt_toLex, Prod.Lex.toLex_lt_toLex]
  split_ifs with hts hpart hblock
  · simp [hts]
  · simp_all
  · simp_all
  · simp_all

/-- A cursor that is not above another has a lower timestamp, or the same and no higher part. -/
theorem le_of_key_le {a b : BlockCursor} (h : a.key ≤ b.key) :
    a.ts < b.ts ∨ a.ts = b.ts ∧ a.part ≤ b.part := by
  rcases Prod.Lex.toLex_le_toLex.mp h with hlt | ⟨heq, hle⟩
  · exact Or.inl hlt
  · rcases Prod.Lex.toLex_le_toLex.mp hle with hlt | ⟨hpart, -⟩
    · exact Or.inr ⟨heq, hlt.le⟩
    · exact Or.inr ⟨heq, hpart.le⟩

/-! ## What a cursor has left -/

/-- The part is open and its blocks are read as these. -/
structure Reads (z : Zstd) (pf : PartFileV2) (bs : List RowBlock) : Prop where
  length : pf.headers.length = bs.length
  block : ∀ i b, bs[i]? = some b → readBinBlock z pf (i : Nat) = .ok (BinBlock.ofRows b.rows)

/-- The cursor is at the first of the rows `rest`, which are left of its part. -/
structure CursorAt (z : Zstd) (c : BlockCursor) (rest : List Entry) : Prop where
  blocks : ∃ bs b, Reads z c.pf bs ∧ bs[c.block]? = some b ∧ c.bb = BinBlock.ofRows b.rows ∧
    rest = b.rows.drop c.idx ++ (bs.drop (c.block + 1)).flatMap RowBlock.rows ∧
    (b.rows[c.idx]?).map Entry.timestamp = some c.ts

section Cursor

variable {z : Zstd} {c : BlockCursor} {a : Entry} {rest : List Entry}

theorem cursorAt_next {pf : PartFileV2} {bs : List RowBlock} (h : Reads z pf bs) (part : Nat)
    {block : Nat} (hblock : block < bs.length) :
    ∃ c, nextCursor z pf part block = .ok (some c) ∧ c.part = part ∧
      CursorAt z c ((bs.drop block).flatMap RowBlock.rows) := by
  have hb := List.getElem?_eq_getElem hblock
  generalize bs[block] = b at hb
  obtain ⟨e, rows, hrows⟩ := List.exists_cons_of_ne_nil b.ne
  have hnext : nextCursor z pf part block =
      .ok (some ⟨pf, part, block, 0, BinBlock.ofRows b.rows, e.timestamp⟩) := by
    have hts : (BinBlock.ofRows b.rows).ts = e.timestamp :: rows.map Entry.timestamp := by
      rw [BinBlock.ofRows, hrows, List.map_cons]
    rw [nextCursor, h.block block b hb]
    simp only [hts]
  refine ⟨_, hnext, rfl, bs, b, h, hb, rfl, ?_, ?_⟩
  · obtain ⟨_, rfl⟩ := List.getElem?_eq_some_iff.mp hb
    rw [List.drop_eq_getElem_cons hblock, List.flatMap_cons, List.drop_zero]
  · rw [hrows]
    rfl

/-- The cursor yields the first row and moves to the next one, if there is any. -/
theorem CursorAt.advance (h : CursorAt z c (a :: rest)) :
    a = ⟨c.ts, c.bb.dataBytes c.idx⟩ ∧
      ((∃ c', advanceCursor z c = .ok (some c') ∧ c'.part = c.part ∧ CursorAt z c' rest) ∨
        advanceCursor z c = .ok none ∧ rest = []) := by
  obtain ⟨bs, b, hreads, hb, hbb, hrest, hts⟩ := h.blocks
  obtain ⟨e, he, hets⟩ := Option.map_eq_some_iff.mp hts
  obtain ⟨hidx, rfl⟩ := List.getElem?_eq_some_iff.mp he
  rw [List.drop_eq_getElem_cons hidx, List.cons_append, List.cons.injEq] at hrest
  obtain ⟨rfl, rfl⟩ := hrest
  refine ⟨?_, ?_⟩
  · rw [hbb, dataBytes_ofRows hidx, ← hets]
  · have hnext : c.bb.ts[c.idx + 1]? = (b.rows[c.idx + 1]?).map Entry.timestamp := by
      rw [hbb]
      exact List.getElem?_map
    unfold advanceCursor
    rw [hnext]
    by_cases hmore : c.idx + 1 < b.rows.length
    · -- the next row is in the same block
      rw [List.getElem?_eq_getElem hmore]
      refine Or.inl ⟨_, rfl, rfl, bs, b, hreads, hb, hbb, rfl, ?_⟩
      rw [List.getElem?_eq_getElem hmore]
      rfl
    · rw [List.getElem?_eq_none (by omega), List.drop_eq_nil_of_le (by omega), List.nil_append]
      by_cases hlast : c.block + 1 < bs.length
      · have hge : ¬c.block + 1 ≥ c.pf.headers.length := by rw [hreads.length]; omega
        obtain ⟨c', hc', hpart, hat⟩ := cursorAt_next hreads c.part hlast
        exact Or.inl ⟨c', (if_neg hge).trans hc', hpart, hat⟩
      · have hge : c.block + 1 ≥ c.pf.headers.length := by rw [hreads.length]; omega
        refine Or.inr ⟨if_pos hge, ?_⟩
        rw [List.drop_eq_nil_of_le (by omega)]
        rfl

theorem CursorAt.ne_nil (h : CursorAt z c rest) : rest ≠ [] := by
  obtain ⟨bs, b, -, -, -, rfl, hts⟩ := h.blocks
  obtain ⟨e, he, -⟩ := Option.map_eq_some_iff.mp hts
  have hidx := (List.getElem?_eq_some_iff.mp he).1
  rw [List.drop_eq_getElem_cons hidx]
  exact List.cons_ne_nil _ _

end Cursor

/-! ## The heap and what is left of each part -/

/-- The cursors are those of the parts from number `i` on of which `rests` are left. -/
structure Tracks (z : Zstd) (i : Nat) (h : List BlockCursor) (rests : List (List Entry)) :
    Prop where
  cursor : ∀ c ∈ h, ∃ k rest, c.part = i + k ∧ rests[k]? = some rest ∧ CursorAt z c rest
  covered : ∀ k rest, rests[k]? = some rest → rest ≠ [] → ∃ c ∈ h, c.part = i + k
  distinct : (h.map BlockCursor.part).Nodup

section Loop

variable {z : Zstd} {i : Nat} {h h' : List BlockCursor} {rests : List (List Entry)}

theorem Tracks.perm (ht : Tracks z i h rests) (hperm : h'.Perm h) : Tracks z i h' rests where
  cursor c hc := ht.cursor c (hperm.mem_iff.mp hc)
  covered k rest hrest hne := by
    obtain ⟨c, hc, hpart⟩ := ht.covered k rest hrest hne
    exact ⟨c, hperm.mem_iff.mpr hc, hpart⟩
  distinct := (hperm.map _).nodup_iff.mpr ht.distinct

/-- The first cursor moves on, or its part is exhausted and the cursor dropped. -/
theorem Tracks.advance {c : BlockCursor} {cs : List BlockCursor} (ht : Tracks z 0 (c :: cs) rests)
    {rest : List Entry} {new : Option BlockCursor}
    (hnew : (∃ c', new = some c' ∧ c'.part = c.part ∧ CursorAt z c' rest) ∨
      new = none ∧ rest = []) :
    Tracks z 0 (new.toList ++ cs) (rests.set c.part rest) := by
  obtain ⟨k, old, hk, hold, -⟩ := ht.cursor c List.mem_cons_self
  rw [Nat.zero_add] at hk
  have hlt : c.part < rests.length := by rw [hk]; exact (List.getElem?_eq_some_iff.mp hold).1
  obtain ⟨hother, hdistinct⟩ := List.nodup_cons.mp ht.distinct
  have hpart : ∀ c' ∈ new, c'.part = c.part ∧ CursorAt z c' rest := by
    rintro c' hc'
    rcases hnew with ⟨d, rfl, hd⟩ | ⟨rfl, -⟩
    · obtain rfl := Option.some.inj hc'
      exact hd
    · cases hc'
  refine ⟨fun d hd => ?_, fun j l hl hne => ?_, ?_⟩
  · rcases List.mem_append.mp hd with hd | hd
    · obtain ⟨hd, hat⟩ := hpart d (Option.mem_toList.mp hd)
      exact ⟨c.part, rest, by omega, List.getElem?_set_self hlt, hat⟩
    · obtain ⟨j, l, hj, hl, hat⟩ := ht.cursor d (List.mem_cons_of_mem _ hd)
      have hne : c.part ≠ j := by
        intro heq
        exact hother (List.mem_map.mpr ⟨d, hd, by omega⟩)
      exact ⟨j, l, hj, by rw [List.getElem?_set_ne hne]; exact hl, hat⟩
  · by_cases hj : c.part = j
    · subst hj
      rw [List.getElem?_set_self hlt, Option.some.injEq] at hl
      subst hl
      obtain ⟨c', rfl, hc', -⟩ := hnew.resolve_right fun h => hne h.2
      exact ⟨c', by simp, by omega⟩
    · rw [List.getElem?_set_ne hj] at hl
      obtain ⟨d, hd, hdj⟩ := ht.covered j l hl hne
      rcases List.mem_cons.mp hd with rfl | hd
      · omega
      · exact ⟨d, List.mem_append_right _ hd, hdj⟩
  · rcases hnew with ⟨c', rfl, hc', -⟩ | ⟨rfl, -⟩
    · rw [Option.toList_some, List.singleton_append, List.map_cons, hc']
      exact ht.distinct
    · exact hdistinct

/-- The first cursor of the heap is at the head that the merge removes. -/
theorem Tracks.popMin_eq {c : BlockCursor} {cs : List BlockCursor} (ht : Tracks z 0 (c :: cs) rests)
    (hheap : IsHeap BlockCursor.less (c :: cs)) {rest : List Entry}
    (hrest : rests[c.part]? = some (⟨c.ts, c.bb.dataBytes c.idx⟩ :: rest)) :
    popMin Entry.timestamp rests =
      some (⟨c.ts, c.bb.dataBytes c.idx⟩, rests.set c.part rest) := by
  have hle : ∀ j b bs, rests[j]? = some (b :: bs) →
      c.ts < b.timestamp ∨ c.ts = b.timestamp ∧ c.part ≤ j := by
    intro j b bs hj
    obtain ⟨d, hd, hdj⟩ := ht.covered j (b :: bs) hj (List.cons_ne_nil b bs)
    obtain ⟨k, l, hk, hl, hat⟩ := ht.cursor d hd
    obtain rfl : k = j := by omega
    obtain rfl : b :: bs = l := Option.some.inj (hj.symm.trans hl)
    have hts : b.timestamp = d.ts := by rw [hat.advance.1]
    rw [hts, show k = d.part by omega]
    exact le_of_key_le (hheap.first_le less_iff hd)
  refine popMin_eq_some hrest (fun j b bs hlt hj => ?_) fun j b bs _ hj => ?_
  · rcases hle j b bs hj with h | ⟨-, h⟩
    · exact h
    · omega
  · rcases hle j b bs hj with h | ⟨h, -⟩
    · exact h.le
    · exact h.le

theorem mergeLoop_eq (H : HeapOps BlockCursor.less) (fuel : Nat)
    (hheap : IsHeap BlockCursor.less h) (ht : Tracks z 0 h rests) :
    mergeLoop z H fuel h = (mergeFuel Entry.timestamp fuel rests).map .ok := by
  induction fuel generalizing h rests with
  | zero => rfl
  | succ fuel ih =>
      cases h with
      | nil =>
          have hnil : popMin Entry.timestamp rests = none := by
            refine popMin_eq_none fun l hl => by_contra fun hne => ?_
            obtain ⟨k, hk⟩ := List.mem_iff_getElem?.mp hl
            obtain ⟨c, hc, -⟩ := ht.covered k l hk hne
            exact List.not_mem_nil hc
          rw [mergeFuel, hnil]
          rfl
      | cons c cs =>
          obtain ⟨k, l, hk, hl, hat⟩ := ht.cursor c List.mem_cons_self
          obtain rfl : c.part = k := by omega
          obtain ⟨a, rest, rfl⟩ := List.exists_cons_of_ne_nil hat.ne_nil
          obtain ⟨rfl, hadvance⟩ := hat.advance
          rw [mergeLoop, mergeFuel, ht.popMin_eq hheap hl, List.map_cons]
          refine congrArg _ ?_
          rcases hadvance with ⟨c', hc', hpart, hat'⟩ | ⟨hnone, rfl⟩
          · rw [hc']
            have hnext := ht.advance (Or.inl ⟨c', rfl, hpart, hat'⟩)
            exact ih (H.fix_heap c c' cs hheap) (hnext.perm (H.fix_perm _))
          · rw [hnone]
            have hnext := ht.advance (Or.inr ⟨rfl, rfl⟩)
            exact ih (H.pop_heap c c cs hheap) (hnext.perm (H.pop_perm c cs))

end Loop

/-! ## Starting the cursors -/

/-- A part of the merge: none, or an open one whose blocks are read as these. -/
inductive Input (z : Zstd) : Option PartFileV2 → PartFile → Prop where
  | nil : Input z none ⟨[]⟩
  | part {pf f} (h : Reads z pf f.blocks) : Input z (some pf) f

section Start

variable {z : Zstd}

/-- A part without rows is passed over. -/
theorem Tracks.skip {i : Nat} {h : List BlockCursor} {rests : List (List Entry)}
    (ht : Tracks z (i + 1) h rests) : Tracks z i h ([] :: rests) where
  cursor c hc := by
    obtain ⟨k, rest, hk, hrest, hat⟩ := ht.cursor c hc
    exact ⟨k + 1, rest, by omega, hrest, hat⟩
  covered k rest hrest hne := by
    cases k with
    | zero => exact absurd (Option.some.inj hrest).symm hne
    | succ k =>
        obtain ⟨c, hc, hpart⟩ := ht.covered k rest hrest hne
        exact ⟨c, hc, by omega⟩
  distinct := ht.distinct

theorem Tracks.cons {i : Nat} {h : List BlockCursor} {rests : List (List Entry)}
    (ht : Tracks z (i + 1) h rests) {c : BlockCursor} (hpart : c.part = i) {rest : List Entry}
    (hat : CursorAt z c rest) : Tracks z i (c :: h) (rest :: rests) where
  cursor d hd := by
    rcases List.mem_cons.mp hd with rfl | hd
    · exact ⟨0, rest, hpart, rfl, hat⟩
    · obtain ⟨k, l, hk, hl, hat'⟩ := ht.cursor d hd
      exact ⟨k + 1, l, by omega, hl, hat'⟩
  covered k l hl hne := by
    cases k with
    | zero => exact ⟨c, List.mem_cons_self, hpart⟩
    | succ k =>
        obtain ⟨d, hd, hdk⟩ := ht.covered k l hl hne
        exact ⟨d, List.mem_cons_of_mem _ hd, by omega⟩
  distinct := by
    refine List.nodup_cons.mpr ⟨fun hmem => ?_, ht.distinct⟩
    obtain ⟨d, hd, heq⟩ := List.mem_map.mp hmem
    obtain ⟨k, l, hk, -⟩ := ht.cursor d hd
    omega

theorem tracks_startCursors {parts : List (Option PartFileV2)} {files : List PartFile}
    (hinputs : List.Forall₂ (Input z) parts files) (i : Nat) :
    ∃ h, startCursors z i parts = .ok h ∧ Tracks z i h (files.map PartFile.rows) := by
  induction hinputs generalizing i with
  | nil => exact ⟨[], rfl, nofun, by simp, List.nodup_nil⟩
  | @cons part f parts files hpart _ ih =>
      obtain ⟨h, hstart, ht⟩ := ih (i + 1)
      cases hpart with
      | nil => exact ⟨h, hstart, ht.skip⟩
      | @part pf _ hreads =>
          rw [List.map_cons, startCursors]
          by_cases hzero : pf.headers.length = 0
          · have hnil : f.rows = [] := by
              rw [PartFile.rows, List.length_eq_zero_iff.mp (hreads.length.symm.trans hzero)]
              rfl
            rw [if_pos hzero, hnil]
            exact ⟨h, hstart, ht.skip⟩
          · have hpos : 0 < f.blocks.length := by have := hreads.length; omega
            obtain ⟨c, hc, hpart, hat⟩ := cursorAt_next hreads i hpos
            rw [if_neg hzero, hc, hstart]
            exact ⟨c :: h, rfl, ht.cons hpart hat⟩

/-- The iterator yields the merge of the parts' rows. -/
theorem mergeParts_eq (H : HeapOps BlockCursor.less) {parts : List (Option PartFileV2)}
    {files : List PartFile} (hinputs : List.Forall₂ (Input z) parts files) {fuel : Nat}
    (hfuel : (files.flatMap PartFile.rows).length ≤ fuel) :
    mergeParts z H fuel parts = (Block.mergeParts files).map .ok := by
  obtain ⟨h, hstart, ht⟩ := tracks_startCursors hinputs 0
  rw [List.flatMap_def] at hfuel
  rw [mergeParts, hstart, Block.mergeParts, ← mergeFuel_eq hfuel]
  exact mergeLoop_eq H fuel (H.init_heap h) (ht.perm (H.init_perm h))

end Start

/-! ## Merging written parts -/

/-- The rows and the block size of a part, or none for a nil part. -/
abbrev Source := Option (List Entry × Int)

def Source.rows : Source → List Entry
  | none => []
  | some src => src.1

/-- A part that is opened after it was written from sorted rows. -/
inductive Written (env : Env) : Source → Option PartFileV2 → Prop where
  | nil : Written env none none
  | part {rows blockSize pf} (hsorted : SortedRows rows)
      (hfits : Fits env (Block.writePartV2Seq rows blockSize).blocks)
      (hopens : openPartV2 (some (writePartV2Seq env rows blockSize)) = .ok (some pf)) :
      Written env (some (rows, blockSize)) (some pf)

/-- In timestamp order, and rows of one timestamp as they were. -/
structure StableSorted (rows out : List Entry) : Prop where
  sorted : SortedRows out
  perm : out.Perm rows
  ties : ∀ t, out.filter (fun e => e.timestamp = t) = rows.filter fun e => e.timestamp = t

section Written

variable {env : Env}

theorem reads_opened (hz : ∀ x, env.zstd.decode (env.zstd.encode x) = some x) {bs : List RowBlock}
    (hfits : Fits env bs) : Reads env.zstd (opened env bs) bs :=
  ⟨length_opened env bs, fun _ _ hb => hfits.readBinBlock_eq hz hb⟩

theorem written_opened {rows : List Entry} {blockSize : Int} (hsorted : SortedRows rows)
    (hfits : Fits env (Block.writePartV2Seq rows blockSize).blocks) :
    Written env (some (rows, blockSize))
      (some (opened env (Block.writePartV2Seq rows blockSize).blocks)) :=
  .part hsorted hfits (by rw [writePartV2Seq_eq]; exact hfits.openPartV2_eq)

theorem Written.input (hz : ∀ x, env.zstd.decode (env.zstd.encode x) = some x) {src : Source}
    {part : Option PartFileV2} (h : Written env src part) :
    ∃ f : PartFile, Input env.zstd part f ∧ f.rows = src.rows ∧ SortedRows f.rows := by
  cases h with
  | nil => exact ⟨⟨[]⟩, .nil, rfl, List.Pairwise.nil⟩
  | @part rows blockSize pf hsorted hfits hopens =>
      have hrows := rows_writePartV2Seq rows blockSize
      rw [writePartV2Seq_eq, hfits.openPartV2_eq, Except.ok.injEq, Option.some.injEq] at hopens
      subst hopens
      refine ⟨Block.writePartV2Seq rows blockSize, .part (reads_opened hz hfits), hrows, ?_⟩
      rw [hrows]
      exact hsorted

theorem exists_files (hz : ∀ x, env.zstd.decode (env.zstd.encode x) = some x)
    {srcs : List Source} {parts : List (Option PartFileV2)}
    (h : List.Forall₂ (Written env) srcs parts) :
    ∃ files, List.Forall₂ (Input env.zstd) parts files ∧
      files.map PartFile.rows = srcs.map Source.rows ∧ ∀ f ∈ files, SortedRows f.rows := by
  induction h with
  | nil => exact ⟨[], .nil, rfl, nofun⟩
  | cons hpart _ ih =>
      obtain ⟨f, hinput, hrows, hsorted⟩ := hpart.input hz
      obtain ⟨files, hinputs, hmap, hall⟩ := ih
      exact ⟨f :: files, .cons hinput hinputs, by rw [List.map_cons, List.map_cons, hrows, hmap],
        List.forall_mem_cons.mpr ⟨hsorted, hall⟩⟩

end Written

/-- For every list of written parts and every heap library: what the iterator yields is the stable
sort by timestamp of the parts' rows, in the order of the parts, and it ends there. -/
theorem mergeParts_stable (env : Env) (hz : ∀ x, env.zstd.decode (env.zstd.encode x) = some x)
    (H : HeapOps BlockCursor.less) {srcs : List Source} {parts : List (Option PartFileV2)}
    (h : List.Forall₂ (Written env) srcs parts) :
    ∃ out, StableSorted (srcs.flatMap Source.rows) out ∧
      ∀ fuel, (srcs.flatMap Source.rows).length ≤ fuel →
        mergeParts env.zstd H fuel parts = out.map .ok := by
  obtain ⟨files, hinputs, hmap, hsorted⟩ := exists_files hz h
  have hrows : files.flatMap PartFile.rows = srcs.flatMap Source.rows := by
    rw [List.flatMap_def, List.flatMap_def, hmap]
  have hlists : ∀ l ∈ files.map PartFile.rows, SortedRows l := by
    simpa only [List.forall_mem_map] using hsorted
  refine ⟨Block.mergeParts files, ⟨Block.mergeParts_sorted hsorted, ?_, fun t => ?_⟩,
    fun fuel hfuel => mergeParts_eq H hinputs (by rw [hrows]; exact hfuel)⟩
  · rw [← hrows]
    exact Block.mergeParts_perm files
  · rw [← hrows, List.flatMap_def]
    exact mergeAll_filter hlists t

/-- Two parts with the same timestamps, a nil one and one without blocks. -/
def demoSources : List Source := [some (threeRows, 2), none, some ([], 5), some (threeRows, 2)]

theorem mergeParts_stable_demo : ∃ parts, List.Forall₂ (Written plainEnv) demoSources parts ∧
    ∃ out, StableSorted (demoSources.flatMap Source.rows) out ∧ ∀ fuel, 6 ≤ fuel →
      mergeParts plainEnv.zstd (.sorting BlockCursor.key less_iff) fuel parts = out.map .ok := by
  have hthree : Written plainEnv (some (threeRows, 2)) _ :=
    written_opened (by unfold SortedRows; decide) fits_threeRows
  have hempty : Written plainEnv (some ([], 5)) _ :=
    written_opened List.Pairwise.nil ⟨nofun, nofun, nofun, nofun, by decide +kernel⟩
  have hparts := List.Forall₂.cons hthree (.cons .nil (.cons hempty (.cons hthree .nil)))
  exact ⟨_, hparts, mergeParts_stable plainEnv (fun _ => rfl) _ hparts⟩

end Shrimpd.Block.Format
