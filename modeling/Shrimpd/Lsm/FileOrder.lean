import Shrimpd.Lib.CrashFs
import Shrimpd.Lib.Exec
import Shrimpd.Types.Entry

/-!
# The order in which a downloaded part reaches the disk

A download writes the part file and then its metadata, each to a temporary file
that is renamed into place before the directory is synced.  The metadata file is
synced before its rename, the part file is not.  A start takes a part whose
metadata is there for complete and does not download it again.
-/

namespace Shrimpd.Lsm.FileOrder

open Shrimpd.Lib Shrimpd.Lib.Exec Shrimpd.Lib.CrashFs Shrimpd.Types

/-! ## File operations of a download -/

/-- The files of the directory of parts: `<id>.json`, `<id>.meta` and temporary ones. -/
inductive Name where
  | part (id : Bytes)
  | metadata (id : Bytes)
  | tmp (k : Nat)
  deriving DecidableEq

abbrev Disk := Fs Name UInt8

abbrev FileOp := Op Name UInt8

/-- Which calls succeed when a file is written, how much a failing write has written, and the name
that `CreateTemp` has found. -/
structure FileIO where
  tmp : Nat
  creates : Bool
  writes : Bool
  written : Nat
  syncs : Bool
  closes : Bool
  renames : Bool
  syncsDir : Bool
  removes : Bool

def FileIO.good (tmp : Nat) : FileIO := ⟨tmp, true, true, 0, true, true, true, true, true⟩

/-- `_ = os.Remove(name)`. -/
def tryRemove (removes : Bool) (n : Name) : List FileOp := if removes then [.remove n] else []

/-- The operations on the disk, and whether no error is returned. -/
def writeRawPart (io : FileIO) (path : Name) (raw : Bytes) : List FileOp × Bool :=
  if !io.creates then ([], false)
  else if !io.writes then
    ([.create (.tmp io.tmp), .write (.tmp io.tmp) (raw.take io.written)] ++
      tryRemove io.removes (.tmp io.tmp), false)
  else if !io.closes then
    ([.create (.tmp io.tmp), .write (.tmp io.tmp) raw] ++ tryRemove io.removes (.tmp io.tmp), false)
  else if !io.renames then ([.create (.tmp io.tmp), .write (.tmp io.tmp) raw], false)
  else if !io.syncsDir then
    ([.create (.tmp io.tmp), .write (.tmp io.tmp) raw, .rename (.tmp io.tmp) path], false)
  else
    ([.create (.tmp io.tmp), .write (.tmp io.tmp) raw, .rename (.tmp io.tmp) path, .syncDir], true)

/-- `text` is what the encoder writes for the metadata. -/
def writeMeta (io : FileIO) (path : Name) (text : Bytes) : List FileOp × Bool :=
  if !io.creates then ([], false)
  else if !io.writes then
    ([.create (.tmp io.tmp), .write (.tmp io.tmp) (text.take io.written)] ++
      tryRemove io.removes (.tmp io.tmp), false)
  else if !io.syncs then
    ([.create (.tmp io.tmp), .write (.tmp io.tmp) text] ++ tryRemove io.removes (.tmp io.tmp), false)
  else if !(io.closes && io.renames) then
    ([.create (.tmp io.tmp), .write (.tmp io.tmp) text, .sync (.tmp io.tmp)], false)
  else if !io.syncsDir then
    ([.create (.tmp io.tmp), .write (.tmp io.tmp) text, .sync (.tmp io.tmp),
      .rename (.tmp io.tmp) path], false)
  else
    ([.create (.tmp io.tmp), .write (.tmp io.tmp) text, .sync (.tmp io.tmp),
      .rename (.tmp io.tmp) path, .syncDir], true)

/-- Whether a peer returns the bytes of the part, and how the disk behaves. -/
structure FetchIO where
  fetched : Bool
  part : FileIO
  rebuilds : Bool
  metadata : FileIO
  removes : Bool

def FetchIO.good : FetchIO := ⟨true, .good 0, true, .good 1, true⟩

section Model

variable (content text : Bytes → Bytes)

/-- What `applyLogEntry`, `retryPendingParts`, `startup` and `bootstrapFromParts` do with the bytes
of a part. -/
def storePart (io : FetchIO) (id : Bytes) : List FileOp × Bool :=
  match writeRawPart io.part (.part id) (content id) with
  | (ops, false) => (ops, false)
  | (ops, true) =>
      if !io.rebuilds then (ops ++ tryRemove io.removes (.part id), false)
      else
        match writeMeta io.metadata (.metadata id) (text id) with
        | (metaOps, false) => (ops ++ metaOps ++ tryRemove io.removes (.part id), false)
        | (metaOps, true) => (ops ++ metaOps, true)

/-- An entry of the node itself downloads nothing. -/
def applyLogEntry (own : Bool) (io : FetchIO) (id : Bytes) : List FileOp :=
  if own || !io.fetched then [] else (storePart content text io id).1

/-- The parts that are due, with etcd's answer that a part is gone; a failure does not end the
pass. -/
def retryPendingParts (due : List (Bytes × Bool × FetchIO)) : List FileOp :=
  due.flatMap fun w => if w.2.1 || !w.2.2.fetched then [] else (storePart content text w.2.2 w.1).1

/-- The loop of `startup` and `bootstrapFromParts` over the snapshot: a part with metadata on disk
is not downloaded, an unreachable part is deferred, and any other failure ends the loop. -/
def loadParts (fs : Disk) : List (Bytes × FetchIO) → List FileOp
  | [] => []
  | (id, io) :: snap =>
      if (fs.dir (.metadata id)).isSome || !io.fetched then loadParts fs snap
      else
        match storePart content text io id with
        | (ops, false) => ops
        | (ops, true) => ops ++ loadParts (fs.run ops) snap

inductive Call where
  | applyLogEntry (own : Bool) (io : FetchIO) (id : Bytes)
  | retryPendingParts (due : List (Bytes × Bool × FetchIO))
  | startup (snap : List (Bytes × FetchIO))
  | bootstrapFromParts (snap : List (Bytes × FetchIO))

def Call.ops (fs : Disk) : Call → List FileOp
  | .applyLogEntry own io id => FileOrder.applyLogEntry content text own io id
  | .retryPendingParts due => FileOrder.retryPendingParts content text due
  | .startup snap => loadParts content text fs snap
  | .bootstrapFromParts snap => loadParts content text fs snap

/-- A call returns, or the machine crashes after some of its operations. -/
inductive Label where
  | returns (c : Call)
  | crashes (c : Call) (k : Nat) (loss : Loss Name UInt8)

def Label.ops (fs : Disk) : Label → List FileOp
  | .returns c => c.ops content text fs
  | .crashes c k _ => (c.ops content text fs).take k

def step (fs : Disk) (l : Label) : Option Disk :=
  match l with
  | .returns _ => some (fs.run (l.ops content text fs))
  | .crashes _ _ loss => some ((fs.run (l.ops content text fs)).crash loss)

end Model

/-! ## The invariant -/

/-- Metadata on disk stands beside the data that was fetched. -/
def Intact (content : Bytes → Bytes) (fs : Disk) : Prop :=
  ∀ id, fs.dir (.metadata id) ≠ none →
    ∃ i, fs.dir (.part id) = some i ∧ fs.data i = content id

/-- Whichever entries survive a crash, there is no metadata, or a file to which the fetched bytes
were written. -/
structure Ordered (content : Bytes → Bytes) (fs : Disk) : Prop where
  sound : fs.Sound
  written : ∀ id, fs.Absent (.metadata id) ∨ fs.Shows (.part id) (content id)
  absent : ∀ id, fs.dir (.metadata id) = none → fs.Absent (.metadata id)

/-- The data file of a part is removed only where its metadata is not in the directory. -/
def Allowed (fs : Disk) : FileOp → Prop
  | .remove (.part id) => fs.dir (.metadata id) = none
  | _ => True

instance (fs : Disk) : ∀ op, Decidable (Allowed fs op)
  | .remove (.part _) => inferInstanceAs (Decidable (_ = _))
  | .remove (.metadata _) => .isTrue trivial
  | .remove (.tmp _) => .isTrue trivial
  | .create _ => .isTrue trivial
  | .write _ _ => .isTrue trivial
  | .sync _ => .isTrue trivial
  | .rename _ _ => .isTrue trivial
  | .syncDir => .isTrue trivial

def Guarded : Disk → List FileOp → Prop
  | _, [] => True
  | fs, op :: ops => Allowed fs op ∧ Guarded (fs.step op) ops

instance decidableGuarded : ∀ fs ops, Decidable (Guarded fs ops)
  | _, [] => .isTrue trivial
  | fs, op :: ops =>
      have : Decidable (Guarded (fs.step op) ops) := decidableGuarded _ _
      inferInstanceAs (Decidable (Allowed fs op ∧ Guarded (fs.step op) ops))

/-- The crash has kept what was written to the data file of each part whose metadata it kept. -/
def Keeps (fs : Disk) (loss : Loss Name UInt8) : Prop :=
  ∀ id i, (fs.crash loss).dir (.metadata id) ≠ none → (fs.crash loss).dir (.part id) = some i →
    (fs.crash loss).data i = fs.data i

section Invariant

variable {content text : Bytes → Bytes} {fs fs' : Disk}

theorem Ordered.of_same (h : Ordered content fs) (hsound : fs'.Sound)
    (hpart : ∀ id, fs.Same fs' (.part id)) (hmeta : ∀ id, fs.Same fs' (.metadata id)) :
    Ordered content fs' := by
  refine ⟨hsound, ?_, ?_⟩
  · exact fun id => (h.written id).imp (hmeta id).absent (hpart id).shows
  · intro id hnone
    rw [(hmeta id).dir_eq] at hnone
    exact (hmeta id).absent (h.absent id hnone)

theorem Ordered.create (h : Ordered content fs) (k : Nat) :
    Ordered content (fs.step (.create (.tmp k))) :=
  h.of_same (h.sound.step _) (fun _ => Fs.same_create h.sound (by simp))
    (fun _ => Fs.same_create h.sound (by simp))

theorem Ordered.write (h : Ordered content fs) {k : Nat} {xs : Bytes} (ho : fs.Owns (.tmp k) xs)
    (ys : Bytes) : Ordered content (fs.step (.write (.tmp k) ys)) :=
  h.of_same (h.sound.step _) (fun _ => Fs.same_write ho (by simp))
    (fun _ => Fs.same_write ho (by simp))

theorem Ordered.sync (h : Ordered content fs) (k : Nat) :
    Ordered content (fs.step (.sync (.tmp k))) :=
  h.of_same (h.sound.step _) (fun _ => Fs.same_sync _ _ _) (fun _ => Fs.same_sync _ _ _)

theorem Ordered.removeTmp (h : Ordered content fs) (k : Nat) :
    Ordered content (fs.step (.remove (.tmp k))) :=
  h.of_same (h.sound.step _) (fun _ => Fs.same_remove (by simp)) (fun _ => Fs.same_remove (by simp))

theorem Ordered.syncDir (h : Ordered content fs) : Ordered content (fs.step .syncDir) := by
  refine ⟨h.sound.step _, ?_, ?_⟩
  · intro id
    exact (h.written id).imp (fun ha => ha.syncDir h.sound) (fun hs => hs.syncDir h.sound)
  · exact fun id hnone => (h.absent id hnone).syncDir h.sound

theorem Ordered.renamePart (h : Ordered content fs) {k : Nat} {id : Bytes}
    (ho : fs.Owns (.tmp k) (content id)) :
    Ordered content (fs.step (.rename (.tmp k) (.part id))) := by
  have hmeta : ∀ other, fs.Same (fs.step (.rename (.tmp k) (.part id))) (.metadata other) :=
    fun other => Fs.same_rename (by simp) (by simp)
  refine ⟨h.sound.step _, ?_, ?_⟩
  · intro other
    refine (h.written other).imp (hmeta other).absent ?_
    intro hs
    by_cases hid : other = id
    · subst hid
      exact hs.rename ho (by simp)
    · exact (Fs.same_rename (by simp) (by simpa using hid)).shows hs
  · intro other hnone
    rw [(hmeta other).dir_eq] at hnone
    exact (hmeta other).absent (h.absent other hnone)

theorem Ordered.renameMeta (h : Ordered content fs) {k : Nat} {id xs : Bytes}
    (ho : fs.Owns (.tmp k) xs) (hs : fs.Shows (.part id) (content id)) :
    Ordered content (fs.step (.rename (.tmp k) (.metadata id))) := by
  have hpart : ∀ other, fs.Same (fs.step (.rename (.tmp k) (.metadata id))) (.part other) :=
    fun other => Fs.same_rename (by simp) (by simp)
  have hmeta : ∀ other, other ≠ id →
      fs.Same (fs.step (.rename (.tmp k) (.metadata id))) (.metadata other) :=
    fun other hid => Fs.same_rename (by simp) (by simpa using hid)
  refine ⟨h.sound.step _, ?_, ?_⟩
  · intro other
    by_cases hid : other = id
    · subst hid
      exact .inr ((hpart other).shows hs)
    · exact (h.written other).imp (hmeta other hid).absent (hpart other).shows
  · intro other hnone
    by_cases hid : other = id
    · subst hid
      exact absurd hnone (Fs.dir_rename ho)
    · rw [(hmeta other hid).dir_eq] at hnone
      exact (hmeta other hid).absent (h.absent other hnone)

theorem Ordered.removePart (h : Ordered content fs) {id : Bytes}
    (hnone : fs.dir (.metadata id) = none) : Ordered content (fs.step (.remove (.part id))) := by
  have hmeta : ∀ other, fs.Same (fs.step (.remove (.part id))) (.metadata other) :=
    fun other => Fs.same_remove (by simp)
  refine ⟨h.sound.step _, ?_, ?_⟩
  · intro other
    by_cases hid : other = id
    · subst hid
      exact .inl ((hmeta other).absent (h.absent other hnone))
    · exact (h.written other).imp (hmeta other).absent
        (Fs.same_remove (by simpa using hid)).shows
  · intro other hother
    rw [(hmeta other).dir_eq] at hother
    exact (hmeta other).absent (h.absent other hother)

/-- The metadata that a crash keeps was written after the data. -/
theorem Ordered.intact_iff (h : Ordered content fs) (loss : Loss Name UInt8) :
    Intact content (fs.crash loss) ↔ Keeps fs loss := by
  have hshown : ∀ id, (fs.crash loss).dir (.metadata id) ≠ none →
      ∃ i, (fs.crash loss).dir (.part id) = some i ∧ fs.data i = content id := by
    intro id hmeta
    rcases h.written id with ha | hs
    · exact absurd (ha _ (h.sound.kept_mem loss _)) hmeta
    · exact hs _ (h.sound.kept_mem loss _)
  constructor
  · intro hintact id i hmeta hpart
    obtain ⟨j, hj, hdata⟩ := hintact id hmeta
    obtain ⟨i', hi', hcontent⟩ := hshown id hmeta
    rw [hpart] at hj hi'
    cases hj
    cases hi'
    exact hdata.trans hcontent.symm
  · intro hkeeps id hmeta
    obtain ⟨i, hi, hcontent⟩ := hshown id hmeta
    exact ⟨i, hi, (hkeeps id i hmeta hi).trans hcontent⟩

/-- The crash that keeps these two entries and overwrites the file. -/
def spoils (fs : Disk) (id : Bytes) (i : Nat) (m : Option Nat) (xs : Bytes) : Loss Name UInt8 where
  pick n := if n = .metadata id then (fs.disk n).idxOf m else (fs.disk n).idxOf (some i)
  contents _ := some xs

theorem kept_of_idxOf {e : Option Nat} {n : Name} {loss : Loss Name UInt8}
    (hpick : loss.pick n = (fs.disk n).idxOf e) (he : e ∈ fs.disk n) : fs.kept loss n = e := by
  have hlt := List.idxOf_lt_length_of_mem he
  rw [Fs.kept, hpick, List.getD_eq_getElem?_getD, List.getElem?_eq_getElem hlt,
    List.getElem_idxOf hlt, Option.getD_some]

/-- No crash can do harm if the data files that stand beside metadata are synced, and only then. -/
theorem Ordered.intact_all_iff (h : Ordered content fs) :
    (∀ loss, Intact content (fs.crash loss)) ↔
      ∀ id, ¬ fs.Absent (.metadata id) → ∀ i, some i ∈ fs.disk (.part id) → fs.synced i = true := by
  constructor
  · intro hall id habsent i hi
    by_contra hunsynced
    obtain ⟨m, hm, hsome⟩ : ∃ m ∈ fs.disk (.metadata id), m ≠ none := by
      simpa [Fs.Absent] using habsent
    have hmeta : (fs.crash (spoils fs id i m (0 :: content id))).dir (.metadata id) = m :=
      kept_of_idxOf (if_pos rfl) hm
    have hpart : (fs.crash (spoils fs id i m (0 :: content id))).dir (.part id) = some i :=
      kept_of_idxOf (by simp [spoils]) hi
    have hdata : (fs.crash (spoils fs id i m (0 :: content id))).data i = 0 :: content id :=
      if_neg hunsynced
    obtain ⟨j, hj, hcontent⟩ := hall (spoils fs id i m (0 :: content id)) id (by rwa [hmeta])
    rw [hpart] at hj
    cases hj
    rw [hdata] at hcontent
    exact List.cons_ne_self _ _ hcontent
  · intro hsynced loss
    refine (h.intact_iff loss).mpr ?_
    intro id i hmeta hpart
    have habsent : ¬ fs.Absent (.metadata id) :=
      fun ha => hmeta (ha _ (h.sound.kept_mem loss _))
    have hi : some i ∈ fs.disk (.part id) := hpart ▸ h.sound.kept_mem loss (.part id)
    exact if_pos (hsynced id habsent i hi)

theorem Ordered.of_intact (hsound : fs.Sound) (hsettled : ∀ n, fs.disk n = [fs.dir n])
    (h : Intact content fs) : Ordered content fs := by
  have habsent : ∀ id, fs.dir (.metadata id) = none → fs.Absent (.metadata id) := by
    intro id hnone e he
    rw [hsettled, List.mem_singleton] at he
    exact he.trans hnone
  refine ⟨hsound, ?_, habsent⟩
  intro id
  by_cases hnone : fs.dir (.metadata id) = none
  · exact .inl (habsent id hnone)
  · obtain ⟨i, hi, hdata⟩ := h id hnone
    refine .inr ?_
    intro e he
    rw [hsettled, List.mem_singleton] at he
    exact ⟨i, he.trans hi, hdata⟩

/-! ## Crashes in the middle of a call -/

/-- The invariant holds after each operation of a guarded sequence. -/
def Safe (content : Bytes → Bytes) : Disk → List FileOp → Prop
  | fs, [] => Ordered content fs
  | fs, op :: ops => Ordered content fs ∧ (Allowed fs op → Safe content (fs.step op) ops)

theorem Safe.take {ops : List FileOp} (h : Safe content fs ops) {k : Nat}
    (hg : Guarded fs (ops.take k)) : Ordered content (fs.run (ops.take k)) := by
  induction ops generalizing fs k with
  | nil =>
      rw [List.take_nil]
      exact h
  | cons op ops ih =>
      cases k with
      | zero => exact h.1
      | succ k => exact ih (h.2 hg.1) hg.2

theorem Safe.run {ops : List FileOp} (h : Safe content fs ops) (hg : Guarded fs ops) :
    Ordered content (fs.run ops) := by
  have htake := @Safe.take content fs ops h ops.length
  rw [List.take_length] at htake
  exact htake hg

theorem Safe.append {ops ops' : List FileOp} (h : Safe content fs ops)
    (h' : Guarded fs ops → Safe content (fs.run ops) ops') : Safe content fs (ops ++ ops') := by
  induction ops generalizing fs with
  | nil => exact h' trivial
  | cons op ops ih =>
      exact ⟨h.1, fun hop => ih (h.2 hop) fun hg => h' ⟨hop, hg⟩⟩

theorem safe_tryRemove (h : Ordered content fs) (removes : Bool) (id : Bytes) :
    Safe content fs (tryRemove removes (.part id)) := by
  unfold tryRemove
  split
  · exact ⟨h, fun hnone => h.removePart hnone⟩
  · exact h

theorem safe_tryRemoveTmp (h : Ordered content fs) (removes : Bool) (k : Nat) :
    Safe content fs (tryRemove removes (.tmp k)) := by
  unfold tryRemove
  split
  · exact ⟨h, fun _ => h.removeTmp k⟩
  · exact h

/-- A temporary file is created and written. -/
theorem safe_written (h : Ordered content fs) (k : Nat) (xs : Bytes) {ops : List FileOp}
    (hrest : ∀ fs' : Disk, Ordered content fs' → fs'.Owns (.tmp k) xs →
      (∀ id ys, fs.Shows (.part id) ys → fs'.Shows (.part id) ys) → Safe content fs' ops) :
    Safe content fs (.create (.tmp k) :: .write (.tmp k) xs :: ops) := by
  have howns := Fs.owns_create h.sound (.tmp k)
  refine ⟨h, fun _ => ⟨h.create k, fun _ => ?_⟩⟩
  refine hrest _ ((h.create k).write howns xs) (howns.write xs) ?_
  intro id ys hs
  exact (Fs.same_write howns (by simp)).shows ((Fs.same_create h.sound (by simp)).shows hs)

theorem safe_writeRawPart (h : Ordered content fs) (io : FileIO) (id : Bytes) :
    Safe content fs (writeRawPart io (.part id) (content id)).1 := by
  unfold writeRawPart
  split_ifs
  · exact h
  · exact safe_written h _ _ fun _ h' _ _ => safe_tryRemoveTmp h' _ _
  · exact safe_written h _ _ fun _ h' _ _ => safe_tryRemoveTmp h' _ _
  · exact safe_written h _ _ fun _ h' _ _ => h'
  · exact safe_written h _ _ fun _ h' ho _ => ⟨h', fun _ => h'.renamePart ho⟩
  · exact safe_written h _ _ fun _ h' ho _ =>
      ⟨h', fun _ => ⟨h'.renamePart ho, fun _ => (h'.renamePart ho).syncDir⟩⟩

theorem shows_writeRawPart (hsound : fs.Sound) {io : FileIO} {id raw : Bytes}
    (hok : (writeRawPart io (.part id) raw).2 = true) :
    (fs.run (writeRawPart io (.part id) raw).1).Shows (.part id) raw := by
  have howns := (Fs.owns_create hsound (.tmp io.tmp)).write raw
  unfold writeRawPart at hok ⊢
  split_ifs at hok ⊢
  exact Fs.shows_replace howns

/-- The metadata is put in place beside a file that survives with its entry. -/
theorem safe_writeMeta (h : Ordered content fs) (io : FileIO) {id : Bytes} (xs : Bytes)
    (hs : fs.Shows (.part id) (content id)) :
    Safe content fs (writeMeta io (.metadata id) xs).1 := by
  have hrename : ∀ fs' : Disk, Ordered content fs' → fs'.Owns (.tmp io.tmp) xs →
      fs'.Shows (.part id) (content id) →
      Ordered content ((fs'.step (.sync (.tmp io.tmp))).step (.rename (.tmp io.tmp) (.metadata id))) :=
    fun fs' h' ho hs' => (h'.sync io.tmp).renameMeta ho.sync ((Fs.same_sync fs' _ _).shows hs')
  unfold writeMeta
  split_ifs
  · exact h
  · exact safe_written h _ _ fun _ h' _ _ => safe_tryRemoveTmp h' _ _
  · exact safe_written h _ _ fun _ h' _ _ => safe_tryRemoveTmp h' _ _
  · exact safe_written h _ _ fun _ h' _ _ => ⟨h', fun _ => h'.sync io.tmp⟩
  · exact safe_written h _ _ fun fs' h' ho hkeep =>
      ⟨h', fun _ => ⟨h'.sync io.tmp, fun _ => hrename fs' h' ho (hkeep _ _ hs)⟩⟩
  · exact safe_written h _ _ fun fs' h' ho hkeep =>
      ⟨h', fun _ => ⟨h'.sync io.tmp, fun _ => ⟨hrename fs' h' ho (hkeep _ _ hs),
        fun _ => (hrename fs' h' ho (hkeep _ _ hs)).syncDir⟩⟩⟩

theorem safe_storePart (h : Ordered content fs) (io : FetchIO) (id : Bytes) :
    Safe content fs (storePart content text io id).1 := by
  have hraw := safe_writeRawPart h io.part id
  unfold storePart
  cases hwrite : writeRawPart io.part (.part id) (content id) with
  | mk ops ok =>
      have hshows := @shows_writeRawPart fs h.sound io.part id (content id)
      rw [hwrite] at hraw hshows
      cases ok with
      | false => exact hraw
      | true =>
          have hmeta := fun hg => safe_writeMeta (hraw.run hg) io.metadata (text id) (hshows rfl)
          simp only
          split
          · exact hraw.append fun hg => safe_tryRemove (hraw.run hg) _ _
          · split
            · rename_i metaOps hmetaOps
              rw [hmetaOps] at hmeta
              have hboth := hraw.append hmeta
              exact hboth.append fun hg => safe_tryRemove (hboth.run hg) _ _
            · rename_i metaOps hmetaOps
              rw [hmetaOps] at hmeta
              exact hraw.append hmeta

theorem safe_retryPendingParts (h : Ordered content fs) (due : List (Bytes × Bool × FetchIO)) :
    Safe content fs (retryPendingParts content text due) := by
  induction due generalizing fs with
  | nil => exact h
  | cons w due ih =>
      have hone : Safe content fs
          (if w.2.1 || !w.2.2.fetched then [] else (storePart content text w.2.2 w.1).1) := by
        split
        · exact h
        · exact safe_storePart h _ _
      exact hone.append fun hg => ih (hone.run hg)

theorem safe_loadParts (h : Ordered content fs) (snap : List (Bytes × FetchIO)) :
    Safe content fs (loadParts content text fs snap) := by
  induction snap generalizing fs with
  | nil => exact h
  | cons w snap ih =>
      have hone := @safe_storePart content text fs h w.2 w.1
      rw [loadParts]
      split
      · exact ih h
      · split
        · rename_i ops hops
          rw [hops] at hone
          exact hone
        · rename_i ops hops
          rw [hops] at hone
          exact hone.append fun hg => ih (hone.run hg)

theorem safe_call (h : Ordered content fs) (c : Call) : Safe content fs (c.ops content text fs) := by
  cases c with
  | applyLogEntry own io id =>
      unfold Call.ops applyLogEntry
      simp only
      split
      · exact h
      · exact safe_storePart h io id
  | retryPendingParts due => exact safe_retryPendingParts h due
  | startup snap => exact safe_loadParts h snap
  | bootstrapFromParts snap => exact safe_loadParts h snap

theorem Ordered.ops (h : Ordered content fs) {l : Label}
    (hg : Guarded fs (l.ops content text fs)) : Ordered content (fs.run (l.ops content text fs)) := by
  cases l with
  | returns c => exact (safe_call h c).run hg
  | crashes c k loss => exact (safe_call h c).take hg

end Invariant

/-! ## Runs -/

/-- The label meets the condition: its removals are allowed, and a crash keeps what it must. -/
def Meets (content text : Bytes → Bytes) (fs : Disk) (l : Label) : Prop :=
  Guarded fs (l.ops content text fs) ∧
    match l with
    | .returns _ => True
    | .crashes _ _ loss => Keeps (fs.run (l.ops content text fs)) loss

/-- A disk as it is found at a start: all of it is what has survived. -/
structure Settled (fs : Disk) : Prop where
  sound : fs.Sound
  disk_eq : ∀ n, fs.disk n = [fs.dir n]

theorem settled_crash {fs : Disk} (hs : fs.Sound) (loss : Loss Name UInt8) :
    Settled (fs.crash loss) :=
  ⟨hs.crash loss, fun _ => rfl⟩

theorem ordered_step {content text : Bytes → Bytes} {fs fs' : Disk} {l : Label}
    (h : Ordered content fs) (hmeets : Meets content text fs l)
    (hstep : step content text fs l = some fs') : Ordered content fs' := by
  have hops := h.ops hmeets.1
  cases l with
  | returns c =>
      cases hstep
      exact hops
  | crashes c k loss =>
      cases hstep
      have hsettled := settled_crash hops.sound loss
      exact .of_intact hsettled.sound hsettled.disk_eq ((hops.intact_iff loss).mpr hmeets.2)

/-- In every run from an intact disk in which no data file is removed beside metadata and each
earlier crash has kept the data written beside metadata, a crash at any point of a call leaves
metadata only beside the fetched bytes exactly if it keeps them too.  Every crash at that point
does so exactly if the data files that stand beside metadata have been synced. -/
theorem intact_after_crash_iff (content text : Bytes → Bytes) {fs₀ fs : Disk} {ls : List Label}
    (hsettled : Settled fs₀) (hintact : Intact content fs₀)
    (hmeets : Along (step content text) (Meets content text) fs₀ ls)
    (hrun : exec (step content text) fs₀ ls = some fs) (c : Call) (k : Nat)
    (hguarded : Guarded fs ((c.ops content text fs).take k)) :
    (∀ loss, Intact content ((fs.run ((c.ops content text fs).take k)).crash loss) ↔
      Keeps (fs.run ((c.ops content text fs).take k)) loss) ∧
    ((∀ loss, Intact content ((fs.run ((c.ops content text fs).take k)).crash loss)) ↔
      ∀ id, ¬ (fs.run ((c.ops content text fs).take k)).Absent (.metadata id) →
        ∀ i, some i ∈ (fs.run ((c.ops content text fs).take k)).disk (.part id) →
          (fs.run ((c.ops content text fs).take k)).synced i = true) := by
  have hinit := Ordered.of_intact hsettled.sound hsettled.disk_eq hintact
  have hordered : Ordered content fs :=
    invariant_along (fun _ _ _ h hok hstep => ordered_step h hok hstep) hinit hmeets hrun
  have hcut := (safe_call hordered c).take hguarded
  exact ⟨hcut.intact_iff, hcut.intact_all_iff⟩

def demoPart : Bytes := ascii "a"

def demoContent : Bytes → Bytes := fun _ => ascii "rows"

def demoText : Bytes → Bytes := fun _ => ascii "meta"

/-- The download has returned, and the machine crashes when the part file has not been written
back. -/
def demoCrash : Label := .crashes (.applyLogEntry false .good demoPart) 9 ⟨fun _ => 0, fun _ => some []⟩

theorem metadata_without_data :
    ∃ fs', step demoContent demoText Fs.empty demoCrash = some fs' ∧
      ¬ Intact demoContent fs' ∧ fs'.dir (.metadata demoPart) = some 1 ∧
      fs'.dir (.part demoPart) = some 0 ∧ fs'.data 0 = [] := by
  refine ⟨_, rfl, ?_, by decide, by decide, by decide⟩
  intro hintact
  obtain ⟨i, hi, hdata⟩ := hintact demoPart (by decide)
  have hzero : i = 0 := (Option.some.inj hi).symm
  rw [hzero] at hdata
  exact absurd hdata (by decide)

/-- A part is downloaded; a crash in the next start keeps what was written. -/
theorem intact_after_crash_iff_keptAll :
    ∃ fs, exec (step demoContent demoText) Fs.empty
        [.returns (.applyLogEntry false .good demoPart)] = some fs ∧
      fs.dir (.metadata demoPart) = some 1 ∧
      Intact demoContent
        ((fs.run ((Call.ops demoContent demoText fs (.startup [(ascii "b", .good)])).take 6)).crash
          ⟨fun _ => 0, fun _ => none⟩) := by
  have hsettled : Settled Fs.empty := by
    refine ⟨⟨fun _ => List.mem_singleton.mpr rfl, ?_⟩, fun _ => rfl⟩
    intro n i hi
    cases List.mem_singleton.mp hi
  have hintact : Intact demoContent Fs.empty := fun _ hmeta => absurd rfl hmeta
  have hmeets : Meets demoContent demoText Fs.empty
      (.returns (.applyLogEntry false .good demoPart)) := ⟨by decide, trivial⟩
  have halong : Along (step demoContent demoText) (Meets demoContent demoText) Fs.empty
      [.returns (.applyLogEntry false .good demoPart)] := along_cons hmeets rfl trivial
  refine ⟨_, rfl, by decide, ?_⟩
  refine ((intact_after_crash_iff demoContent demoText hsettled hintact halong rfl _ _
    (by decide)).1 _).mpr ?_
  intro id i _ _
  exact ite_self _

end Shrimpd.Lsm.FileOrder
