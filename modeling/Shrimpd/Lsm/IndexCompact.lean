import Shrimpd.Block.IndexFst
import Shrimpd.Lsm.IndexEngine
import Shrimpd.Lib.Exec

/-!
# Compaction of the index

Index parts are files of keys with a table of data IDs and the bounds that a
lookup tests first.  Compaction merges the parts of level 0: it drops the keys of
data IDs that are no longer active, renumbers the others in one table, and takes
the bounds of the new part from its first and last key.  A key is longer than
its token, so the lower bound lies above the smallest token.
-/

namespace Shrimpd.Lsm.IndexCompact

open Shrimpd.Lib Shrimpd.Lib.Exec Shrimpd.Types Shrimpd.Block

/-! ## The engine over files of keys -/

/-- `vellum.Merge`: iterators in order are merged into the file of all their keys. -/
structure Vellum where
  merge : List (List Bytes) → Option (List Bytes)
  merge_sorted : ∀ itrs : List (List Bytes), (∀ itr ∈ itrs, itr.Pairwise (· < ·)) →
    ∃ keys, merge itrs = some keys ∧ keys.Pairwise (· < ·) ∧ ∀ k, k ∈ keys ↔ ∃ itr ∈ itrs, k ∈ itr

structure FstPart where
  level : Nat
  minToken : Bytes
  maxToken : Bytes
  dataIDs : List Bytes
  keys : List Bytes
  deriving DecidableEq, Repr

structure State where
  mem : List IndexEntry
  parts : List FstPart
  covered : List Bytes
  deriving DecidableEq, Repr

/-- Whether sealing the log and writing the two files work. -/
structure FlushIO where
  sealed : Bool
  writesFst : Bool
  writesMeta : Bool
  deriving DecidableEq, Repr

def flushOk : FlushIO := ⟨true, true, true⟩

structure CompactIO where
  opens : Bool
  creates : Bool
  merges : Bool
  reopens : Bool
  renames : Bool
  writesMeta : Bool
  savesCovered : Bool
  deriving DecidableEq, Repr

inductive CompactErr where
  | tooManyIDs (n : Nat)
  | openFst
  | createTemp
  | merge
  | rename
  | writeMeta
  | saveCovered
  deriving DecidableEq, Repr

namespace State

def empty : State := ⟨[], [], []⟩

/-- The memtable has the entries whether or not the log acknowledges them. -/
def write (en : State) (entries : List IndexEntry) : State := { en with mem := en.mem ++ entries }

def markCovered (en : State) (ids : List Bytes) : State := { en with covered := en.covered ++ ids }

/-- A flush that fails puts the entries back. -/
def flush (en : State) (io : FlushIO) : State :=
  if hmem : en.mem = [] then en
  else if !io.sealed then en
  else
    let part := Lsm.Engine.indexPart en.mem hmem
    let back := { en with mem := part.entries }
    match buildIndexFST part.entries with
    | .error _ => back
    | .ok (keys, dataIDs) =>
        if !io.writesFst then back
        else if !io.writesMeta then back
        else
          { en with
            mem := []
            parts := en.parts ++ [⟨0, part.minToken, part.maxToken, dataIDs, keys⟩] }

def l0 (en : State) : List FstPart := en.parts.filter fun p => p.level = 0

end State

section Compact

variable (V : Vellum) (active : Bytes → Bool)

/-- The active data IDs of the parts, in order. -/
def unifiedIDs (l0 : List FstPart) : List Bytes :=
  ((l0.flatMap FstPart.dataIDs).filter active).dedup.insertionSort (· ≤ ·)

/-- The new number of an old one; a number that is not in the map reads as zero. -/
def partOrdMap (unified dataIDs : List Bytes) (oldOrd : Nat) : Nat :=
  match dataIDs[oldOrd]? with
  | some did => if did ∈ unified then ordinal unified did else 0
  | none => 0

/-- The key with its new number, unless its data ID is not active. -/
def compactKey (oldDataIDs : List Bytes) (ordMap : Nat → Nat) (k : Bytes) : Option Bytes :=
  match keyOrdinal k with
  | none => none
  | some oldOrd =>
      match oldDataIDs[oldOrd]? with
      | none => none
      | some dataID =>
          if active dataID then some (k.take (k.idxOf 0 + 1) ++ bigEndian16 (ordMap oldOrd))
          else none

def compactIterator (unified : List Bytes) (p : FstPart) : List Bytes :=
  p.keys.filterMap (compactKey active p.dataIDs (partOrdMap unified p.dataIDs))

/-- The bounds are read from the merged file, and stay empty when it cannot be opened. -/
def compactedPart (reopens : Bool) (unified keys : List Bytes) : FstPart where
  level := 1
  minToken := if reopens then keys.head?.getD [] else []
  maxToken := if reopens then keys.getLast?.getD [] else []
  dataIDs := unified
  keys := keys

/-- Files without keys have no iterator. -/
def State.compact (en : State) (io : CompactIO) : State × Option CompactErr :=
  if en.l0.length < 2 then (en, none)
  else
    let unified := unifiedIDs active en.l0
    if unified.length > 65536 then (en, some (.tooManyIDs unified.length))
    else if !io.opens then (en, some .openFst)
    else
      let itrs := (en.l0.filter fun p => p.keys ≠ []).map (compactIterator active unified)
      if itrs.length = 0 then (en, none)
      else if !io.creates then (en, some .createTemp)
      else
        match if io.merges then V.merge itrs else none with
        | none => (en, some .merge)
        | some keys =>
            if !io.renames then (en, some .rename)
            else if !io.writesMeta then (en, some .writeMeta)
            else
              let next := { en with
                parts := (en.parts.filter fun p => p.level ≠ 0) ++
                  [compactedPart io.reopens unified keys]
                covered := en.covered.filter active }
              (next, if io.savesCovered then none else some .saveCovered)

end Compact

def FstPart.lookup (p : FstPart) (tok : Bytes) : List Bytes :=
  if tok < p.minToken ∨ tok > p.maxToken then [] else scanToken p.keys p.dataIDs tok

def State.lookupToken (en : State) (tok : Bytes) : List Bytes :=
  (en.mem.filter fun x => x.token = tok).map IndexEntry.dataID ++
    en.parts.flatMap fun p => p.lookup tok

inductive Label where
  | write (entries : List IndexEntry)
  | markCovered (ids : List Bytes)
  | flush (io : FlushIO)
  | compact (active : List Bytes) (io : CompactIO)
  deriving DecidableEq, Repr

def step (V : Vellum) (en : State) : Label → Option State
  | .write entries => some (en.write entries)
  | .markCovered ids => some (en.markCovered ids)
  | .flush io => some (en.flush io)
  | .compact active io => some (en.compact V (· ∈ active) io).1

/-! ## Parts that were flushed -/

/-- The file holds the entries, and the bounds are bounds of their tokens. -/
structure Flushed (p : FstPart) (entries : List IndexEntry) : Prop where
  built : Built entries p.keys p.dataIDs
  bounds : ∀ e ∈ entries, p.minToken ≤ e.token ∧ e.token ≤ p.maxToken

/-- All parts of level 0 were flushed. -/
def WellBuilt (en : State) : Prop :=
  ∀ p ∈ en.parts, p.level = 0 → ∃ entries, Flushed p entries

section Flushed

variable {p : FstPart} {entries : List IndexEntry} {tok id : Bytes}

theorem Flushed.mem_lookup (h : Flushed p entries) (htok : 0 ∉ tok) :
    id ∈ p.lookup tok ↔ ⟨tok, id⟩ ∈ entries := by
  rw [FstPart.lookup, ← h.built.mem_scanToken_of_notMem htok]
  split_ifs with hout
  · refine ⟨fun hid => absurd hid List.not_mem_nil, fun hid => ?_⟩
    obtain ⟨hmin, hmax⟩ := h.bounds _ ((h.built.mem_scanToken_of_notMem htok id).mp hid)
    rcases hout with hlt | hgt
    · exact absurd hlt (not_lt.mpr hmin)
    · exact absurd hgt (not_lt.mpr hmax)
  · exact Iff.rfl

theorem wellBuilt_flush {en : State} (h : WellBuilt en) (io : FlushIO) : WellBuilt (en.flush io) := by
  rw [State.flush]
  by_cases hmem : en.mem = []
  · rw [dif_pos hmem]
    exact h
  rw [dif_neg hmem]
  cases hbuild : buildIndexFST (Lsm.Engine.indexPart en.mem hmem).entries with
  | error err =>
      simp only [hbuild]
      split_ifs
      · exact h
      · exact h
  | ok out =>
      simp only [hbuild]
      split_ifs
      · exact h
      · exact h
      · exact h
      · intro p hp hlevel
        rcases List.mem_append.mp hp with hp | hp
        · exact h p hp hlevel
        · rw [List.mem_singleton.mp hp]
          exact ⟨_, (built_of_buildIndexFST hbuild).2.1, fun e he => Lsm.Engine.bounds_of_mem he⟩

/-- A compaction leaves the state, without an error only if there is nothing to merge, or it
replaces the parts of level 0. -/
inductive Compacted (V : Vellum) (active : Bytes → Bool) (io : CompactIO) (en : State) :
    State × Option CompactErr → Prop where
  | unchanged {err : Option CompactErr}
      (h : err = none → en.l0.length < 2 ∨ ∀ p ∈ en.l0, p.keys = []) :
      Compacted V active io en (en, err)
  | merged {err : Option CompactErr} {keys : List Bytes} (hlen : ¬en.l0.length < 2)
      (hids : ¬(unifiedIDs active en.l0).length > 65536)
      (hmerge : V.merge ((en.l0.filter fun p => p.keys ≠ []).map
        (compactIterator active (unifiedIDs active en.l0))) = some keys) :
      Compacted V active io en ({ en with
        parts := (en.parts.filter fun p => p.level ≠ 0) ++
          [compactedPart io.reopens (unifiedIDs active en.l0) keys]
        covered := en.covered.filter active }, err)

theorem compacted_compact (V : Vellum) (active : Bytes → Bool) (io : CompactIO) (en : State) :
    Compacted V active io en (en.compact V active io) := by
  rw [State.compact]
  by_cases hlen : en.l0.length < 2
  · rw [if_pos hlen]
    exact .unchanged fun _ => Or.inl hlen
  rw [if_neg hlen]
  by_cases hids : (unifiedIDs active en.l0).length > 65536
  · rw [if_pos hids]
    exact .unchanged nofun
  rw [if_neg hids]
  by_cases hitrs : ((en.l0.filter fun p => p.keys ≠ []).map
      (compactIterator active (unifiedIDs active en.l0))).length = 0
  · have hempty : ∀ p ∈ en.l0, p.keys = [] := by
      rw [List.length_map, List.length_eq_zero_iff, List.filter_eq_nil_iff] at hitrs
      intro p hp
      simpa using hitrs p hp
    simp only [if_pos hitrs]
    split_ifs
    · exact .unchanged nofun
    · exact .unchanged fun _ => Or.inr hempty
  simp only [if_neg hitrs]
  cases hmerge : V.merge ((en.l0.filter fun p => p.keys ≠ []).map
      (compactIterator active (unifiedIDs active en.l0))) with
  | none =>
      simp only [ite_self]
      split_ifs
      · exact .unchanged nofun
      · exact .unchanged nofun
      · exact .unchanged nofun
  | some keys =>
      cases hmerges : io.merges with
      | false =>
          simp only [Bool.false_eq_true, if_false]
          split_ifs
          · exact .unchanged nofun
          · exact .unchanged nofun
          · exact .unchanged nofun
      | true =>
          simp only [if_true]
          split_ifs
          · exact .unchanged nofun
          · exact .unchanged nofun
          · exact .unchanged nofun
          · exact .unchanged nofun
          · exact .merged hlen hids hmerge
          · exact .merged hlen hids hmerge

theorem wellBuilt_step {V : Vellum} {en en' : State} {l : Label} (h : WellBuilt en)
    (hstep : step V en l = some en') : WellBuilt en' := by
  cases l with
  | write entries =>
      obtain rfl := Option.some.inj hstep
      exact h
  | markCovered ids =>
      obtain rfl := Option.some.inj hstep
      exact h
  | flush io =>
      obtain rfl := Option.some.inj hstep
      exact wellBuilt_flush h io
  | compact active io =>
      obtain rfl := Option.some.inj hstep
      generalize hresult : en.compact V (· ∈ active) io = result
      have hcompacted := compacted_compact V (· ∈ active) io en
      rw [hresult] at hcompacted
      cases hcompacted with
      | unchanged => exact h
      | merged =>
          intro p hp hlevel
          rcases List.mem_append.mp hp with hp | hp
          · exact h p (List.mem_filter.mp hp).1 hlevel
          · rw [List.mem_singleton.mp hp] at hlevel
            exact absurd hlevel Nat.one_ne_zero

theorem wellBuilt_run {V : Vellum} {ls : List Label} {en : State}
    (hrun : exec (step V) State.empty ls = some en) : WellBuilt en :=
  invariant (fun _ _ _ => wellBuilt_step) (fun _ hp => absurd hp List.not_mem_nil) hrun

end Flushed

/-! ## Parts as exact sets -/

/-- The files hold the entries of the parts of an engine whose parts are sets of entries. -/
structure Represents (st : State) (en : Lsm.Engine) : Prop where
  mem : st.mem = en.mem
  parts : List.Forall₂ (fun p (ip : IndexPart) => Flushed p ip.entries) st.parts en.parts

section Represents

variable {st : State} {en en' : Lsm.Engine}

theorem mem_lookup_indexPart {ip : IndexPart} {tok id : Bytes} :
    (id ∈ if tok < ip.minToken ∨ tok > ip.maxToken then []
      else (ip.entries.filter fun x => x.token = tok).map IndexEntry.dataID) ↔
        ⟨tok, id⟩ ∈ ip.entries := by
  constructor
  · intro hid
    split_ifs at hid
    · exact absurd hid List.not_mem_nil
    · obtain ⟨x, hx, rfl⟩ := List.mem_map.mp hid
      obtain ⟨hx, htok⟩ := List.mem_filter.mp hx
      rw [← of_decide_eq_true htok]
      exact hx
  · intro hx
    obtain ⟨hmin, hmax⟩ := Lsm.Engine.bounds_of_mem hx
    rw [if_neg (not_or.mpr ⟨not_lt.mpr hmin, not_lt.mpr hmax⟩)]
    exact List.mem_map.mpr ⟨_, List.mem_filter.mpr ⟨hx, decide_eq_true rfl⟩, rfl⟩

/-- For tokens without a zero byte lookups in the files are those in the sets. -/
theorem Represents.mem_lookupToken_iff (h : Represents st en) {tok : Bytes} (htok : 0 ∉ tok)
    (id : Bytes) : id ∈ st.lookupToken tok ↔ id ∈ en.lookupToken tok := by
  obtain ⟨hmem, hparts⟩ := h
  rw [State.lookupToken, Lsm.Engine.lookupToken, hmem, List.mem_append, List.mem_append]
  refine or_congr_right ?_
  generalize st.parts = ps at hparts
  generalize en.parts = ips at hparts
  induction hparts with
  | nil => exact Iff.rfl
  | cons hflushed _ ih =>
      rw [List.flatMap_cons, List.flatMap_cons, List.mem_append, List.mem_append, ih,
        hflushed.mem_lookup htok, mem_lookup_indexPart]

/-- What the engine of sets does between two starts. -/
inductive SetOp where
  | write (answer : Lsm.Engine.CommitAnswer) (entries : List IndexEntry)
  | markCovered (saved : Bool) (ids : List Bytes)
  | flush (io : Lsm.Engine.FlushIO)

def setStep (en : Lsm.Engine) : SetOp → Option Lsm.Engine
  | .write answer entries => some (en.write answer entries).1
  | .markCovered saved ids => some (en.markCovered saved ids)
  | .flush io => en.flush io

/-- A flush gets past the builder only with keys that the builder accepts. -/
def Builds (en : Lsm.Engine) : SetOp → Prop
  | .flush io => io.built = true → ∃ out, buildIndexFST (sortedEntries en.mem) = .ok out
  | _ => True

def fileAnswers (io : Lsm.Engine.FlushIO) : FlushIO :=
  ⟨io.sealed.isSome, io.built, io.writeMeta = .ok⟩

/-- The same call on files. -/
def SetOp.onFiles : SetOp → Label
  | .write _ entries => .write entries
  | .markCovered _ ids => .markCovered ids
  | .flush io => .flush (fileAnswers io)

theorem Represents.flush (h : Represents st en) {io : Lsm.Engine.FlushIO}
    (hflush : en.flush io = some en')
    (hbuild : io.built = true → ∃ out, buildIndexFST (sortedEntries en.mem) = .ok out) :
    Represents (st.flush (fileAnswers io)) en' := by
  obtain ⟨mem, parts, covered⟩ := st
  obtain ⟨rfl, hparts⟩ := h
  obtain ⟨seal?, built, writeMeta, removes, discarded⟩ := io
  unfold Lsm.Engine.flush at hflush
  unfold State.flush fileAnswers
  by_cases hmem : en.mem = []
  · simp only [dif_pos hmem, Option.some.injEq] at hflush ⊢
    exact hflush ▸ ⟨rfl, hparts⟩
  simp only [dif_neg hmem] at hflush ⊢
  cases seal? with
  | none =>
      cases hflush
      exact ⟨rfl, hparts⟩
  | some seq =>
      obtain ⟨wal, -, hflush⟩ := Option.bind_eq_some_iff.mp hflush
      cases built with
      | false =>
          cases hflush
          simp only [Option.isSome_some, Bool.not_true, Bool.false_eq_true, if_false]
          split <;> exact ⟨rfl, hparts⟩
      | true =>
          obtain ⟨⟨keys, dataIDs⟩, hkeys⟩ := hbuild rfl
          have hkeys : buildIndexFST (Lsm.Engine.indexPart en.mem hmem).entries =
            .ok (keys, dataIDs) := hkeys
          simp only [hkeys]
          cases writeMeta with
          | failed | failedAfterRename =>
              cases hflush
              exact ⟨rfl, hparts⟩
          | ok =>
              simp only [Bool.not_true, Bool.false_eq_true, if_false, Option.map_eq_some_iff]
                at hflush
              obtain ⟨wal', -, rfl⟩ := hflush
              refine ⟨rfl, List.rel_append hparts (List.Forall₂.cons ?_ List.Forall₂.nil)⟩
              exact ⟨(built_of_buildIndexFST hkeys).2.1, fun e he => Lsm.Engine.bounds_of_mem he⟩

theorem Represents.setStep (V : Vellum) {op : SetOp} (h : Represents st en) (hop : Builds en op)
    (hstep : setStep en op = some en') :
    ∃ st', step V st op.onFiles = some st' ∧ Represents st' en' := by
  cases op with
  | write answer entries =>
      cases hstep
      have hwrite : (en.write answer entries).1.mem = en.mem ++ entries ∧
          (en.write answer entries).1.parts = en.parts := by
        unfold Lsm.Engine.write
        split_ifs with hnil
        · simp [hnil]
        · cases answer <;> exact ⟨rfl, rfl⟩
      exact ⟨_, rfl, by rw [hwrite.1, ← h.mem]; rfl, hwrite.2 ▸ h.parts⟩
  | markCovered saved ids =>
      cases hstep
      exact ⟨_, rfl, h.mem, h.parts⟩
  | flush io => exact ⟨_, rfl, h.flush hstep hop⟩

/-- The engine of files follows every run of the engine of sets, and then lookups of tokens without
a zero byte find the same data IDs. -/
theorem files_refine_sets (V : Vellum) {ops : List SetOp}
    (hops : Along setStep Builds Lsm.Engine.empty ops)
    (hrun : exec setStep Lsm.Engine.empty ops = some en) :
    ∃ st, exec (step V) State.empty (ops.map SetOp.onFiles) = some st ∧
      ∀ tok, 0 ∉ tok → ∀ id, id ∈ st.lookupToken tok ↔ id ∈ en.lookupToken tok := by
  have hempty : Represents State.empty Lsm.Engine.empty := ⟨rfl, .nil⟩
  obtain ⟨st, hexec, h⟩ := simulate (R := fun en st => Represents st en)
    (fun _ _ _ _ h hop hstep => h.setStep V hop hstep) hempty hops hrun
  exact ⟨st, hexec, fun _ htok => h.mem_lookupToken_iff htok⟩

end Represents

/-! ## The merged part -/

section Iterator

variable {active : Bytes → Bool} {p : FstPart} {entries : List IndexEntry} {unified : List Bytes}

/-- What compaction keeps. -/
def Survives (active : Bytes → Bool) (e : IndexEntry) : Prop :=
  active e.dataID = true ∧ 0 ∉ e.token

theorem mem_unifiedIDs {l0 : List FstPart} {did : Bytes} :
    did ∈ unifiedIDs active l0 ↔ active did = true ∧ ∃ p ∈ l0, did ∈ p.dataIDs := by
  rw [unifiedIDs, List.mem_insertionSort, List.mem_dedup, List.mem_filter, List.mem_flatMap, and_comm]

theorem take_separator {t : Bytes} (ht : 0 ∉ t) (o : Nat) :
    (compositeKey t o).take ((compositeKey t o).idxOf 0 + 1) = t ++ [0] := by
  rw [compositeKey, idxOf_separator ht, List.append_cons]
  exact List.take_left' (by simp)

/-- A key is kept if it has a number and the data ID of that number is active. -/
theorem compactKey_eq_some_iff {oldDataIDs : List Bytes} {ordMap : Nat → Nat} {k k' : Bytes} :
    compactKey active oldDataIDs ordMap k = some k' ↔
      ∃ t o id, 0 ∉ t ∧ o < 65536 ∧ k = compositeKey t o ∧ oldDataIDs[o]? = some id ∧
        active id = true ∧ k' = compositeKey t (ordMap o) := by
  rw [compactKey]
  constructor
  · intro h
    cases hord : keyOrdinal k with
    | none =>
        rw [hord] at h
        cases h
    | some o =>
        obtain ⟨t, ht, ho, rfl⟩ := keyOrdinal_eq_some_iff.mp hord
        simp only [hord] at h
        cases hid : oldDataIDs[o]? with
        | none =>
            rw [hid] at h
            cases h
        | some id =>
            simp only [hid] at h
            split_ifs at h with hactive
            rw [take_separator ht, List.append_assoc, Option.some.injEq] at h
            exact ⟨t, o, id, ht, ho, rfl, hid, hactive, h.symm⟩
  · rintro ⟨t, o, id, ht, ho, rfl, hid, hactive, rfl⟩
    have hord := keyOrdinal_eq_some_iff.mpr ⟨t, ht, ho, rfl⟩
    simp only [hord, hid, if_pos hactive, take_separator ht, List.append_assoc]
    rfl

theorem partOrdMap_eq {dataIDs : List Bytes} {o : Nat} {id : Bytes} (hid : dataIDs[o]? = some id)
    (hunified : id ∈ unified) : partOrdMap unified dataIDs o = ordinal unified id := by
  rw [partOrdMap, hid]
  exact if_pos hunified

/-- The keys of a part that are kept, with the numbers of their data IDs in the new table. -/
theorem mem_compactIterator_iff
    (hunified : ∀ id ∈ p.dataIDs, active id = true → id ∈ unified) (k : Bytes) :
    k ∈ compactIterator active unified p ↔
      ∃ t o id, 0 ∉ t ∧ o < 65536 ∧ compositeKey t o ∈ p.keys ∧ p.dataIDs[o]? = some id ∧
        active id = true ∧ k = compositeKey t (ordinal unified id) := by
  rw [compactIterator, List.mem_filterMap]
  constructor
  · rintro ⟨old, hold, hk⟩
    obtain ⟨t, o, id, ht, ho, rfl, hid, hactive, rfl⟩ := compactKey_eq_some_iff.mp hk
    refine ⟨t, o, id, ht, ho, hold, hid, hactive, ?_⟩
    rw [partOrdMap_eq hid (hunified id (List.mem_of_getElem? hid) hactive)]
  · rintro ⟨t, o, id, ht, ho, hold, hid, hactive, rfl⟩
    refine ⟨_, hold, compactKey_eq_some_iff.mpr ⟨t, o, id, ht, ho, rfl, hid, hactive, ?_⟩⟩
    rw [partOrdMap_eq hid (hunified id (List.mem_of_getElem? hid) hactive)]

/-- Of a part that was flushed the entries that survive are kept. -/
theorem mem_compactIterator (h : Flushed p entries)
    (hunified : ∀ id ∈ p.dataIDs, active id = true → id ∈ unified) (k : Bytes) :
    k ∈ compactIterator active unified p ↔
      ∃ e ∈ entries, Survives active e ∧ entryKey unified e = k := by
  rw [mem_compactIterator_iff hunified]
  constructor
  · rintro ⟨t, o, id, ht, ho, hold, hid, hactive, rfl⟩
    obtain ⟨e, he, hkey⟩ := (h.built.mem _).mp hold
    have hfound := keyOrdinal_eq_some_iff.mpr ⟨t, ht, ho, rfl⟩
    rw [← hkey, entryKey, keyOrdinal_compositeKey (ordinal_lt _ _)] at hfound
    split_ifs at hfound with hzero
    obtain ⟨rfl, -⟩ := separated_inj hzero ht hkey
    have hsame := getElem?_ordinal h.built.length (h.built.dataID_mem e he)
    rw [Option.some.inj hfound, hid, Option.some.injEq] at hsame
    exact ⟨e, he, ⟨hsame ▸ hactive, hzero⟩, by rw [entryKey, hsame]⟩
  · rintro ⟨e, he, ⟨hactive, hzero⟩, rfl⟩
    exact ⟨e.token, _, e.dataID, hzero, ordinal_lt _ _, (h.built.mem _).mpr ⟨e, he, rfl⟩,
      getElem?_ordinal h.built.length (h.built.dataID_mem e he), hactive, rfl⟩

/-- The new numbers keep the order of the keys. -/
theorem sorted_compactIterator (htable : p.dataIDs.Pairwise (· < ·))
    (hkeys : p.keys.Pairwise (· < ·)) (hsorted : unified.Pairwise (· < ·))
    (hlen : unified.length ≤ 65536)
    (hunified : ∀ id ∈ p.dataIDs, active id = true → id ∈ unified) :
    (compactIterator active unified p).Pairwise (· < ·) := by
  rw [compactIterator, List.pairwise_filterMap]
  refine hkeys.imp fun {old old'} hlt k hk k' hk' => ?_
  obtain ⟨t, o, id, ht, ho, rfl, hid, hactive, rfl⟩ := compactKey_eq_some_iff.mp hk
  obtain ⟨t', o', id', ht', ho', rfl, hid', hactive', rfl⟩ := compactKey_eq_some_iff.mp hk'
  have hmem := hunified id (List.mem_of_getElem? hid) hactive
  have hmem' := hunified id' (List.mem_of_getElem? hid') hactive'
  rw [partOrdMap_eq hid hmem, partOrdMap_eq hid' hmem',
    compositeKey_lt_iff ht ht' (ordinal_lt _ _) (ordinal_lt _ _)]
  refine ((compositeKey_lt_iff ht ht' ho ho').mp hlt).imp_right (And.imp_right fun hord => ?_)
  -- the old table is in order, so the data IDs are ordered as their numbers
  obtain ⟨hpos, rfl⟩ := List.getElem?_eq_some_iff.mp hid
  obtain ⟨hpos', rfl⟩ := List.getElem?_eq_some_iff.mp hid'
  exact ordinal_lt_ordinal hsorted hlen hmem hmem'
    (List.pairwise_iff_getElem.mp htable o o' hpos hpos' hord)

end Iterator

section Merged

variable {V : Vellum} {active : Bytes → Bool} {en : State} {keys : List Bytes}

/-- The merged file holds the entries of all parts that survive. -/
theorem built_merged (contents : FstPart → List IndexEntry)
    (hcontents : ∀ p ∈ en.l0, Flushed p (contents p))
    (hids : ¬(unifiedIDs active en.l0).length > 65536)
    (hmerge : V.merge ((en.l0.filter fun p => p.keys ≠ []).map
      (compactIterator active (unifiedIDs active en.l0))) = some keys)
    {merged : List IndexEntry}
    (hmerged : ∀ e, e ∈ merged ↔ ∃ p ∈ en.l0, e ∈ contents p ∧ Survives active e) :
    Built merged keys (unifiedIDs active en.l0) := by
  have hsorted : (unifiedIDs active en.l0).Pairwise (· < ·) := sorted_insertionSort_dedup _
  have hunified : ∀ p ∈ en.l0, ∀ id ∈ p.dataIDs, active id = true →
      id ∈ unifiedIDs active en.l0 := fun p hp id hid hactive =>
    mem_unifiedIDs.mpr ⟨hactive, p, hp, hid⟩
  obtain ⟨keys', hkeys', hkeysSorted, hmem⟩ := V.merge_sorted ((en.l0.filter fun p => p.keys ≠ []).map
    (compactIterator active (unifiedIDs active en.l0))) (by
      intro itr hitr
      obtain ⟨p, hp, rfl⟩ := List.mem_map.mp hitr
      have hp := (List.mem_filter.mp hp).1
      have hbuilt := (hcontents p hp).built
      exact sorted_compactIterator hbuilt.table hbuilt.sorted hsorted (not_lt.mp hids)
        (hunified p hp))
  rw [hmerge] at hkeys'
  obtain rfl := Option.some.inj hkeys'
  refine ⟨hsorted, not_lt.mp hids, fun e he => ?_, hkeysSorted, fun k => ?_⟩
  · obtain ⟨p, hp, he, hactive, -⟩ := (hmerged e).mp he
    exact hunified p hp _ ((hcontents p hp).built.dataID_mem e he) hactive
  · rw [hmem]
    constructor
    · rintro ⟨itr, hitr, hk⟩
      obtain ⟨p, hp, rfl⟩ := List.mem_map.mp hitr
      have hp := (List.mem_filter.mp hp).1
      obtain ⟨e, he, hsurvives, rfl⟩ := (mem_compactIterator (hcontents p hp) (hunified p hp) k).mp hk
      exact ⟨e, (hmerged e).mpr ⟨p, hp, he, hsurvives⟩, rfl⟩
    · rintro ⟨e, he, rfl⟩
      obtain ⟨p, hp, he, hsurvives⟩ := (hmerged e).mp he
      have hk := (mem_compactIterator (hcontents p hp) (hunified p hp) _).mpr ⟨e, he, hsurvives, rfl⟩
      have hne : p.keys ≠ [] := fun hnil =>
        List.not_mem_nil (hnil ▸ ((hcontents p hp).built.mem _).mpr ⟨e, he, rfl⟩)
      refine ⟨_, List.mem_map_of_mem (List.mem_filter.mpr ⟨hp, ?_⟩), hk⟩
      exact decide_eq_true hne

theorem head?_le {k : Bytes} (hsorted : keys.Pairwise (· < ·)) (hk : k ∈ keys) :
    keys.head?.getD [] ≤ k := by
  rw [List.head?_eq_some_head (List.ne_nil_of_mem hk), Option.getD_some]
  exact (hsorted.imp le_of_lt).rel_head hk

theorem le_getLast? {k : Bytes} (hsorted : keys.Pairwise (· < ·)) (hk : k ∈ keys) :
    k ≤ keys.getLast?.getD [] := by
  rw [List.getLast?_eq_some_getLast (List.ne_nil_of_mem hk), Option.getD_some]
  exact (hsorted.imp le_of_lt).rel_getLast hk

/-- Of the tokens in the merged file all but the smallest lie within the bounds. -/
theorem mem_lookup_compactedPart {merged : List IndexEntry} {unified : List Bytes}
    (hbuilt : Built merged keys unified) (reopens : Bool) {tok id : Bytes} (htok : 0 ∉ tok) :
    id ∈ (compactedPart reopens unified keys).lookup tok ↔
      ⟨tok, id⟩ ∈ merged ∧ if reopens then ∃ e ∈ merged, e.token < tok else tok = [] := by
  rw [FstPart.lookup, ← hbuilt.mem_scanToken_of_notMem htok]
  cases reopens with
  | false =>
      have hbounds : (tok < ([] : Bytes) ∨ tok > []) ↔ tok ≠ [] := by
        cases tok with
        | nil => simp
        | cons b tok => simp
      simp only [compactedPart, Bool.false_eq_true, if_false, hbounds]
      split_ifs with hne
      · exact ⟨fun h => absurd h List.not_mem_nil, fun h => absurd h.2 hne⟩
      · exact ⟨fun h => ⟨h, not_not.mp hne⟩, And.left⟩
  | true =>
      simp only [compactedPart, if_true]
      by_cases hfound : id ∈ scanToken keys unified tok
      · have hentry := (hbuilt.mem_scanToken_of_notMem htok id).mp hfound
        have hkey := (hbuilt.mem _).mpr ⟨_, hentry, rfl⟩
        have hmax : ¬tok > keys.getLast?.getD [] :=
          not_lt.mpr ((lt_separated tok _).le.trans (le_getLast? hbuilt.sorted hkey))
        have hmin : ¬tok < keys.head?.getD [] ↔ ∃ e ∈ merged, e.token < tok := by
          rw [not_lt]
          constructor
          · intro hle
            obtain ⟨first, keys', rfl⟩ := List.exists_cons_of_ne_nil (List.ne_nil_of_mem hkey)
            obtain ⟨e, he, hfirst⟩ := (hbuilt.mem first).mp List.mem_cons_self
            have hbelow : e.token < entryKey unified e := lt_separated _ _
            exact ⟨e, he, hbelow.trans_le (hfirst.le.trans hle)⟩
          · rintro ⟨e, he, hlt⟩
            have hle := head?_le hbuilt.sorted ((hbuilt.mem _).mpr ⟨e, he, rfl⟩)
            have hsep := separated_lt htok hlt (bigEndian16 (ordinal unified e.dataID)) []
            rw [List.append_nil] at hsep
            exact hle.trans hsep.le
        rw [← hmin]
        split_ifs with hout
        · refine ⟨fun h => absurd h List.not_mem_nil, fun h => ?_⟩
          exact (hout.elim h.2 hmax).elim
        · exact ⟨fun h => ⟨h, fun hlt => hout (Or.inl hlt)⟩, And.left⟩
      · split_ifs
        · exact ⟨fun h => absurd h List.not_mem_nil, fun h => absurd h.1 hfound⟩
        · exact ⟨fun h => absurd h hfound, fun h => absurd h.1 hfound⟩

end Merged

/-! ## What lookups find -/

/-- The memtable or a part of a higher level has the data ID for the token. -/
def Elsewhere (en : State) (tok id : Bytes) : Prop :=
  ⟨tok, id⟩ ∈ en.mem ∨ ∃ p ∈ en.parts, p.level ≠ 0 ∧ id ∈ p.lookup tok

/-- A part of level 0 pairs the token with the data ID. -/
def InL0 (en : State) (tok id : Bytes) : Prop :=
  ∃ p ∈ en.l0, id ∈ scanToken p.keys p.dataIDs tok

/-- There is nothing to merge, or the lookup does not depend on what is merged, or the token
lies above the smallest one in the merged file. -/
def KeepsLookup (active : Bytes → Bool) (io : CompactIO) (en : State) (tok id : Bytes) : Prop :=
  en.l0.length < 2 ∨ Elsewhere en tok id ∨ ¬InL0 en tok id ∨
    if io.reopens then
      ∃ tok' id', active id' = true ∧ 0 ∉ tok' ∧ InL0 en tok' id' ∧ tok' < tok
    else tok = []

section Lookup

variable {V : Vellum} {active : Bytes → Bool} {io : CompactIO} {en : State} {tok id : Bytes}

theorem mem_lookupToken : id ∈ en.lookupToken tok ↔
    ⟨tok, id⟩ ∈ en.mem ∨ ∃ p ∈ en.parts, id ∈ p.lookup tok := by
  rw [State.lookupToken, List.mem_append, List.mem_flatMap]
  refine or_congr_left ?_
  rw [List.mem_map]
  constructor
  · rintro ⟨x, hx, rfl⟩
    obtain ⟨hx, htok⟩ := List.mem_filter.mp hx
    rw [← of_decide_eq_true htok]
    exact hx
  · intro hx
    exact ⟨_, List.mem_filter.mpr ⟨hx, decide_eq_true rfl⟩, rfl⟩

theorem mem_l0 {p : FstPart} : p ∈ en.l0 ↔ p ∈ en.parts ∧ p.level = 0 := by
  rw [State.l0, List.mem_filter, decide_eq_true_eq]

theorem inL0_iff {contents : FstPart → List IndexEntry}
    (hcontents : ∀ p ∈ en.l0, Flushed p (contents p)) (htok : 0 ∉ tok) :
    InL0 en tok id ↔ ∃ p ∈ en.l0, ⟨tok, id⟩ ∈ contents p := by
  refine exists_congr fun p => and_congr_right fun hp => ?_
  exact (hcontents p hp).built.mem_scanToken_of_notMem htok id

theorem mem_lookupToken_iff (h : WellBuilt en) (htok : 0 ∉ tok) :
    id ∈ en.lookupToken tok ↔ Elsewhere en tok id ∨ InL0 en tok id := by
  rw [mem_lookupToken, Elsewhere, or_assoc]
  refine or_congr_right ?_
  constructor
  · rintro ⟨p, hp, hid⟩
    by_cases hlevel : p.level = 0
    · obtain ⟨entries, hflushed⟩ := h p hp hlevel
      refine Or.inr ⟨p, mem_l0.mpr ⟨hp, hlevel⟩, ?_⟩
      rw [hflushed.built.mem_scanToken_of_notMem htok]
      exact (hflushed.mem_lookup htok).mp hid
    · exact Or.inl ⟨p, hp, hlevel, hid⟩
  · rintro (⟨p, hp, -, hid⟩ | ⟨p, hp, hid⟩)
    · exact ⟨p, hp, hid⟩
    · obtain ⟨hp, hlevel⟩ := mem_l0.mp hp
      obtain ⟨entries, hflushed⟩ := h p hp hlevel
      refine ⟨p, hp, (hflushed.mem_lookup htok).mpr ?_⟩
      exact (hflushed.built.mem_scanToken_of_notMem htok id).mp hid

/-- After a merge a lookup finds what is elsewhere, and what the bounds let it find. -/
theorem mem_lookupToken_merged (h : WellBuilt en) (htok : 0 ∉ tok) (hid : active id = true)
    (hids : ¬(unifiedIDs active en.l0).length > 65536) {keys : List Bytes}
    (hmerge : V.merge ((en.l0.filter fun p => p.keys ≠ []).map
      (compactIterator active (unifiedIDs active en.l0))) = some keys) (covered : List Bytes) :
    id ∈ State.lookupToken { en with
        parts := (en.parts.filter fun p => p.level ≠ 0) ++
          [compactedPart io.reopens (unifiedIDs active en.l0) keys]
        covered := covered } tok ↔
      Elsewhere en tok id ∨ InL0 en tok id ∧
        if io.reopens then
          ∃ tok' id', active id' = true ∧ 0 ∉ tok' ∧ InL0 en tok' id' ∧ tok' < tok
        else tok = [] := by
  have hflushed : ∀ p ∈ en.l0, ∃ entries, Flushed p entries := fun p hp =>
    h p (mem_l0.mp hp).1 (mem_l0.mp hp).2
  choose! contents hcontents using hflushed
  classical
  have hmerged : ∀ e, e ∈ (en.l0.flatMap contents).filter (fun e => Survives active e) ↔
      ∃ p ∈ en.l0, e ∈ contents p ∧ Survives active e := by
    intro e
    rw [List.mem_filter, List.mem_flatMap, decide_eq_true_eq]
    constructor
    · exact fun ⟨⟨p, hp, he⟩, hsurvives⟩ => ⟨p, hp, he, hsurvives⟩
    · exact fun ⟨p, hp, he, hsurvives⟩ => ⟨⟨p, hp, he⟩, hsurvives⟩
  have hbuilt := built_merged contents hcontents hids hmerge hmerged
  have hentry : ∀ {t i : Bytes}, active i = true → 0 ∉ t →
      (⟨t, i⟩ ∈ (en.l0.flatMap contents).filter (fun e => Survives active e) ↔ InL0 en t i) := by
    intro t i hi ht
    rw [hmerged, inL0_iff hcontents ht]
    exact exists_congr fun p => and_congr_right fun _ => and_iff_left ⟨hi, ht⟩
  have hbelow : (∃ e ∈ (en.l0.flatMap contents).filter (fun e => Survives active e), e.token < tok) ↔
      ∃ tok' id', active id' = true ∧ 0 ∉ tok' ∧ InL0 en tok' id' ∧ tok' < tok := by
    constructor
    · rintro ⟨e, he, hlt⟩
      obtain ⟨-, -, -, hactive, hzero⟩ := (hmerged e).mp he
      exact ⟨e.token, e.dataID, hactive, hzero, (hentry hactive hzero).mp he, hlt⟩
    · rintro ⟨tok', id', hactive, hzero, hin, hlt⟩
      exact ⟨⟨tok', id'⟩, (hentry hactive hzero).mpr hin, hlt⟩
  have hpart : id ∈ (compactedPart io.reopens (unifiedIDs active en.l0) keys).lookup tok ↔ _ :=
    mem_lookup_compactedPart hbuilt io.reopens htok
  rw [hentry hid htok, hbelow] at hpart
  rw [mem_lookupToken, ← hpart, Elsewhere, or_assoc]
  refine or_congr_right ?_
  constructor
  · rintro ⟨p, hp, hfound⟩
    rcases List.mem_append.mp hp with hp | hp
    · obtain ⟨hp, hlevel⟩ := List.mem_filter.mp hp
      exact Or.inl ⟨p, hp, of_decide_eq_true hlevel, hfound⟩
    · rw [List.mem_singleton.mp hp] at hfound
      exact Or.inr hfound
  · rintro (⟨p, hp, hlevel, hfound⟩ | hfound)
    · exact ⟨p, List.mem_append_left _ (List.mem_filter.mpr ⟨hp, decide_eq_true hlevel⟩), hfound⟩
    · exact ⟨_, List.mem_append_right _ (List.mem_singleton_self _), hfound⟩

end Lookup

/-- After every run, a compaction that reports no error keeps what a lookup tells of an active
data ID just when the token is not the smallest one it merges, or the lookup does not need the
merged part. -/
theorem compact_keeps_lookup_iff (V : Vellum) {ls : List Label} {en en' : State}
    (hrun : exec (step V) State.empty ls = some en) {active : Bytes → Bool} {io : CompactIO}
    (hcompact : en.compact V active io = (en', none)) {tok id : Bytes} (htok : 0 ∉ tok)
    (hid : active id = true) :
    (id ∈ en'.lookupToken tok ↔ id ∈ en.lookupToken tok) ↔ KeepsLookup active io en tok id := by
  have hbuilt := wellBuilt_run hrun
  have hcompacted := compacted_compact V active io en
  rw [hcompact] at hcompacted
  rw [KeepsLookup]
  cases hcompacted with
  | unchanged hnil =>
      refine ⟨fun _ => ?_, fun _ => Iff.rfl⟩
      rcases hnil rfl with hfew | hempty
      · exact Or.inl hfew
      · refine Or.inr (Or.inr (Or.inl ?_))
        rintro ⟨p, hp, hfound⟩
        rw [hempty p hp] at hfound
        exact absurd hfound List.not_mem_nil
  | merged hlen hids hmerge =>
      rw [mem_lookupToken_merged hbuilt htok hid hids hmerge, mem_lookupToken_iff hbuilt htok]
      constructor
      · intro hsame
        right
        by_cases helse : Elsewhere en tok id
        · exact Or.inl helse
        · by_cases hin : InL0 en tok id
          · exact Or.inr (Or.inr ((hsame.mpr (Or.inr hin)).resolve_left helse).2)
          · exact Or.inr (Or.inl hin)
      · rintro (hfew | helse | hnot | habove)
        · exact absurd hfew hlen
        · exact ⟨fun _ => Or.inl helse, fun _ => Or.inl helse⟩
        · exact or_congr_right ⟨fun h => absurd h.1 hnot, fun h => absurd h hnot⟩
        · exact or_congr_right (and_iff_left habove)

/-- A merge that sorts all keys. -/
def sortedMerge : Vellum where
  merge itrs := some (itrs.flatten.dedup.insertionSort (· ≤ ·))
  merge_sorted itrs _ := ⟨_, rfl, sorted_insertionSort_dedup _, fun k => by
    rw [List.mem_insertionSort, List.mem_dedup, List.mem_flatten]⟩

def compactOk : CompactIO := ⟨true, true, true, true, true, true, true⟩

/-- Two flushed parts; the first token of both is the same. -/
def twoParts : List Label :=
  [.write [⟨ascii "lbl:k=hello", ascii "part-1"⟩, ⟨ascii "lbl:k=world", ascii "part-2"⟩],
    .flush flushOk,
    .write [⟨ascii "lbl:k=hello", ascii "part-2"⟩, ⟨ascii "lbl:k=test", ascii "part-3"⟩],
    .flush flushOk]

def twoPartsState : State := (exec (step sortedMerge) State.empty twoParts).getD State.empty

def activeParts : Bytes → Bool := fun id => id ∈ [ascii "part-1", ascii "part-2"]

def writeAndFlush : List SetOp :=
  [.write .acked [⟨ascii "lbl:k=hello", ascii "part-1"⟩], .flush ⟨some 1, true, .ok, true, 1⟩]

theorem files_refine_sets_writeAndFlush :
    ∃ st, exec (step sortedMerge) State.empty (writeAndFlush.map SetOp.onFiles) = some st ∧
      ascii "part-1" ∈ st.lookupToken (ascii "lbl:k=hello") := by
  have hops : Along setStep Builds Lsm.Engine.empty writeAndFlush :=
    along_cons trivial rfl (along_cons (fun _ => ⟨_, rfl⟩) rfl trivial)
  obtain ⟨st, hexec, hlookup⟩ := files_refine_sets sortedMerge hops rfl
  exact ⟨st, hexec, (hlookup _ (by decide) _).mpr (by decide +kernel)⟩

theorem compact_keeps_lookup_world :
    ascii "part-2" ∈ (twoPartsState.compact sortedMerge activeParts compactOk).1.lookupToken
        (ascii "lbl:k=world") ↔
      ascii "part-2" ∈ twoPartsState.lookupToken (ascii "lbl:k=world") := by
  have hrun : exec (step sortedMerge) State.empty twoParts = some twoPartsState :=
    exec_eq_getD (by decide +kernel)
  have hnone : (twoPartsState.compact sortedMerge activeParts compactOk).2 = none := by
    decide +kernel
  refine (compact_keeps_lookup_iff sortedMerge hrun (Prod.ext rfl hnone) (by decide)
    (by decide)).mpr (Or.inr (Or.inr (Or.inr ?_)))
  refine ⟨ascii "lbl:k=hello", ascii "part-1", by decide, by decide, ?_, by decide⟩
  exact ⟨twoPartsState.parts.head?.getD ⟨0, [], [], [], []⟩, by decide +kernel, by decide +kernel⟩

/-- The smallest token of the merged parts is no longer found. -/
theorem smallest_token_lost :
    exec (step sortedMerge) State.empty twoParts = some twoPartsState ∧
      (twoPartsState.compact sortedMerge activeParts compactOk).2 = none ∧
      twoPartsState.lookupToken (ascii "lbl:k=hello") = [ascii "part-1", ascii "part-2"] ∧
      (twoPartsState.compact sortedMerge activeParts compactOk).1.lookupToken
        (ascii "lbl:k=hello") = [] := by
  refine ⟨exec_eq_getD (by decide +kernel), ?_⟩
  decide +kernel

end Shrimpd.Lsm.IndexCompact
