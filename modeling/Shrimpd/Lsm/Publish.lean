import Shrimpd.Block.RoundTrip
import Shrimpd.Lsm.Bootstrap

/-!
# Publishing downloaded bytes

A replica stores whatever bytes a peer returns for a part, and lists the part
when its tokens could be rebuilt from the file.  The rebuild reads the directory
and walks over the blocks, but it skips those it cannot read.  A query opens
the part only if every block can be read.  So the replica lists a part that no
query can read, when the directory of its bytes is fine and a block is not.
-/

namespace Shrimpd.Lsm.Publish

open Shrimpd.Lib Shrimpd.Lib.Exec Shrimpd.Types Shrimpd.Block Shrimpd.Block.Format
open Shrimpd.Lsm.Replication (LogEntry LogOp PendingEntry setPending dropPending)

/-! ## Reading all of a part -/

/-- How a call ends: with a result, with an error, or not at all. -/
inductive Outcome (α : Type) where
  | done (a : α)
  | failed
  | panics
  deriving DecidableEq

/-- The error stands for a run-time panic. -/
def ReadErr.isPanic : ReadErr → Bool
  | .panics => true
  | .decode .panics => true
  | _ => false

section Reading

variable (env : Env)

def verifyBlocks (pf : PartFileV2) : List Nat → Except ReadErr Unit
  | [] => .ok ()
  | i :: is =>
      match readBinBlock env.zstd pf i with
      | .error err => .error err
      | .ok _ => verifyBlocks pf is

def verifyPartV2 (pf : PartFileV2) : Except ReadErr Unit :=
  verifyBlocks env pf (List.range pf.headers.length)

/-- The walk of `BuildTokenSetFromPart`: a block that cannot be read is skipped, and a full token
set ends the walk. -/
def walkTokens (pf : PartFileV2) : List Nat → List Bytes → Outcome (List Bytes × Bool)
  | [], out => .done (out, false)
  | i :: is, out =>
      match readBinBlock env.zstd pf i with
      | .error err => if ReadErr.isPanic err then .panics else walkTokens pf is out
      | .ok bb =>
          match collectTokens out (rowTokens env.unicode bb.rows) with
          | (out, true) => .done (out, true)
          | (out, false) => walkTokens pf is out

def rebuildPartTokens (file : Option Bytes) (part : PartMeta) : Outcome PartMeta :=
  match openPartV2 file with
  | .error .panics => .panics
  | .error _ => .failed
  | .ok none => .failed
  | .ok (some pf) =>
      match walkTokens env pf (List.range pf.headers.length) [] with
      | .panics => .panics
      | .failed => .failed
      | .done (tokens, truncated) =>
          .done { part with
            tokens := sortTokens tokens
            tokensTruncated := truncated
            blockCount := pf.headers.length }

end Reading

/-! ## The replica -/

/-- Files are bytes here; `fds` are the parts that are open. -/
structure Replica where
  nodeID : Bytes
  parts : List PartMeta
  files : Bytes → Option Bytes
  metas : Bytes → Option PartMeta
  fds : Bytes → Option PartFileV2
  pending : List PendingEntry

namespace Replica

def listed (r : Replica) : List Bytes := r.parts.map PartMeta.id

def setFile (r : Replica) (id : Bytes) (file : Option Bytes) : Replica :=
  { r with files := Function.update r.files id file }

def setMeta (r : Replica) (id : Bytes) (part : PartMeta) : Replica :=
  { r with metas := Function.update r.metas id (some part) }

/-- `_ = os.Remove(path)`. -/
def removeFile (r : Replica) (removes : Bool) (id : Bytes) : Replica :=
  if removes then r.setFile id none else r

/-- `PartManager.Get`; a part that is open is not read again. -/
def get (env : Env) (r : Replica) (id : Bytes) : Replica × Outcome (Option PartFileV2) :=
  match r.fds id with
  | some pf => (r, .done (some pf))
  | none =>
      match openPartV2 (r.files id) with
      | .error .panics => (r, .panics)
      | .error _ => (r, .failed)
      | .ok none => (r, .done none)
      | .ok (some pf) =>
          match verifyPartV2 env pf with
          | .error err => (r, if ReadErr.isPanic err then .panics else .failed)
          | .ok () => ({ r with fds := Function.update r.fds id (some pf) }, .done (some pf))

@[simp] theorem metas_removeFile (r : Replica) (removes : Bool) (id : Bytes) :
    (r.removeFile removes id).metas = r.metas := by
  unfold removeFile
  split <;> rfl

@[simp] theorem files_setFile (r : Replica) (id : Bytes) (file : Option Bytes) :
    (r.setFile id file).files id = file :=
  Function.update_self _ _ _

@[simp] theorem metas_setMeta (r : Replica) (id : Bytes) (part : PartMeta) :
    (r.setMeta id part).metas id = some part :=
  Function.update_self _ _ _

@[simp] theorem metas_setFile (r : Replica) (id : Bytes) (file : Option Bytes) :
    (r.setFile id file).metas = r.metas :=
  rfl

@[simp] theorem files_setMeta (r : Replica) (id : Bytes) (part : PartMeta) :
    (r.setMeta id part).files = r.files :=
  rfl

end Replica

/-! ## Downloads -/

/-- The bytes a peer returns, if one answers, and how the disk behaves. -/
structure FetchIO where
  raw : Option Bytes
  writePart : WriteAnswer
  writeMeta : WriteAnswer
  removes : Bool

/-- Nothing fails. -/
def FetchIO.clean (raw : Bytes) : FetchIO := ⟨some raw, .ok, .ok, true⟩

section Model

variable (env : Env)

/-- Write the bytes, rebuild the tokens from the file, and write the metadata. -/
def storePart (r : Replica) (io : FetchIO) (raw : Bytes) (part : PartMeta) :
    Replica × Outcome PartMeta :=
  match io.writePart with
  | .failed => (r, .failed)
  | .failedAfterRename => (r.setFile part.id (some raw), .failed)
  | .ok =>
      let r := r.setFile part.id (some raw)
      match rebuildPartTokens env (r.files part.id) part with
      | .panics => (r, .panics)
      | .failed => (r.removeFile io.removes part.id, .failed)
      | .done full =>
          match io.writeMeta with
          | .failed => (r.removeFile io.removes part.id, .failed)
          | .failedAfterRename =>
              ((r.setMeta part.id full).removeFile io.removes part.id, .failed)
          | .ok => (r.setMeta part.id full, .done full)

/-- List the part, unless it is listed, in place of the old ones. -/
def publish (r : Replica) (part : PartMeta) (oldParts : List Bytes) : Replica :=
  let next := r.parts.filter fun p => !oldParts.contains p.id
  { r with
    parts := if (next.map PartMeta.id).contains part.id then next else next ++ [part] }

/-- The published part is opened for the index; an error there is only logged. -/
def reindex (r : Replica) (id : Bytes) : Replica × Outcome Unit :=
  match r.get env id with
  | (r, .panics) => (r, .panics)
  | (r, _) => (r, .done ())

/-- One log entry; the loop defers the part when this fails. -/
def applyLogEntry (r : Replica) (io : FetchIO) (e : LogEntry) : Replica × Outcome Unit :=
  if e.nodeID = r.nodeID then (r, .done ())
  else
    match io.raw with
    | none => ({ r with pending := setPending r.pending ⟨e.part, e.oldParts⟩ }, .failed)
    | some raw =>
        match storePart env r io raw e.part with
        | (r, .panics) => (r, .panics)
        | (r, .failed) => ({ r with pending := setPending r.pending ⟨e.part, e.oldParts⟩ }, .failed)
        | (r, .done part) =>
            match e.op with
            | .put => reindex env (publish r part []) part.id
            | .merge =>
                reindex env
                  { publish r part e.oldParts with pending := dropPending r.pending e.oldParts }
                  part.id

/-- One part of a retry pass; `gone` is etcd's answer that the part does not exist. -/
def retryPendingPart (r : Replica) (gone : Bool) (io : FetchIO) (p : PendingEntry) :
    Replica × Outcome Unit :=
  if gone then ({ r with pending := dropPending r.pending [p.part.id] }, .done ())
  else
    match io.raw with
    | none => (r, .done ())
    | some raw =>
        match storePart env r io raw p.part with
        | (r, .panics) => (r, .panics)
        | (r, .failed) => (r, .done ())
        | (r, .done part) =>
            reindex env
              { r with
                parts := (r.parts.filter fun q => !p.oldParts.contains q.id) ++ [part]
                pending := dropPending r.pending [p.part.id] }
              part.id

/-- Whether metadata on disk can be read, how downloads go, and which parts the index covers. -/
structure LoadIO where
  readsMeta : Bytes → Bool
  fetch : Bytes → FetchIO
  covered : Bytes → Bool

/-- The loop over the snapshot; a part with metadata on disk is not downloaded. -/
def loadParts (io : LoadIO) : List PartMeta → Replica → List PartMeta →
    Replica × Outcome (List PartMeta)
  | [], r, loaded => (r, .done loaded)
  | part :: parts, r, loaded =>
      match r.metas part.id with
      | some disk =>
          loadParts io parts r (loaded ++ [if io.readsMeta part.id then disk else part])
      | none =>
          match (io.fetch part.id).raw with
          | none =>
              loadParts io parts { r with pending := setPending r.pending ⟨part, []⟩ } loaded
          | some raw =>
              match storePart env r (io.fetch part.id) raw part with
              | (r, .panics) => (r, .panics)
              | (r, .failed) => (r, .failed)
              | (r, .done part) => loadParts io parts r (loaded ++ [part])

def reindexAll (io : LoadIO) : List PartMeta → Replica → Replica × Outcome Unit
  | [], r => (r, .done ())
  | p :: ps, r =>
      if io.covered p.id then reindexAll io ps r
      else
        match reindex env r p.id with
        | (r, .done ()) => reindexAll io ps r
        | res => res

def bootstrapFromParts (r : Replica) (io : LoadIO) (snap : List PartMeta) :
    Replica × Outcome Unit :=
  match loadParts env io snap r [] with
  | (r, .panics) => (r, .panics)
  | (r, .failed) => (r, .failed)
  | (r, .done loaded) =>
      reindexAll env io loaded
        { r with
          parts := loaded
          pending := r.pending.filter fun d => (snap.map PartMeta.id).contains d.part.id }

/-! ## Calls -/

inductive Call where
  | apply (io : FetchIO) (e : LogEntry)
  | retry (gone : Bool) (io : FetchIO) (p : PendingEntry)
  | bootstrap (io : LoadIO) (snap : List PartMeta)

def call (r : Replica) : Call → Replica × Outcome Unit
  | .apply io e => applyLogEntry env r io e
  | .retry gone io p => retryPendingPart env r gone io p
  | .bootstrap io snap => bootstrapFromParts env r io snap

end Model

/-- A pending part is retried, and a snapshot has each part once. -/
def Enabled (r : Replica) : Call → Prop
  | .apply _ _ => True
  | .retry _ _ p => p.part.id ∈ r.pending.map fun d => d.part.id
  | .bootstrap _ snap => (snap.map PartMeta.id).Nodup

instance (r : Replica) : ∀ c, Decidable (Enabled r c)
  | .apply _ _ => inferInstanceAs (Decidable True)
  | .retry _ _ _ => inferInstanceAs (Decidable (_ ∈ _))
  | .bootstrap _ _ => inferInstanceAs (Decidable (List.Nodup _))

/-- A panic ends the run. -/
def step (env : Env) (r : Replica) (c : Call) : Option Replica :=
  if Enabled r c then
    match call env r c with
    | (_, .panics) => none
    | (r, _) => some r
  else none

/-! ## What is published -/

section Specs

variable (env : Env)

/-- The file opens, and each of its blocks can be read. -/
def verifies (file : Option Bytes) : Bool :=
  match openPartV2 file with
  | .ok (some pf) => (verifyPartV2 env pf).isOk
  | _ => false

/-- The bytes are refused when the file is opened, or all their blocks can be read. -/
def sound (raw : Bytes) : Bool :=
  match openPartV2 (some raw) with
  | .error .panics => false
  | .error _ => true
  | .ok none => true
  | .ok (some pf) => (verifyPartV2 env pf).isOk

/-- These bytes are downloaded for the part. -/
def Fetches (r : Replica) (id raw : Bytes) : Call → Prop
  | .apply io e => e.nodeID ≠ r.nodeID ∧ e.part.id = id ∧ io.raw = some raw
  | .retry gone io p => gone = false ∧ p.part.id = id ∧ io.raw = some raw
  | .bootstrap io snap =>
      id ∈ snap.map PartMeta.id ∧ r.metas id = none ∧ (io.fetch id).raw = some raw

/-- What a call has to guarantee: it ends, the parts that it lists can be read and opened, and
bytes that cannot be read change nothing that is listed and are pending or reported. -/
structure Published (r : Replica) (c : Call) : Prop where
  ends : (call env r c).2 ≠ .panics
  readable : ∀ p ∈ (call env r c).1.parts, p.id ∉ r.listed →
    verifies env ((call env r c).1.files p.id) = true ∧
      ∃ pf, ((call env r c).1.get env p.id).2 = .done (some pf)
  refused : ∀ id raw, Fetches r id raw c → verifies env (some raw) = false →
    (call env r c).1.parts = r.parts ∧ ((call env r c).2 = .failed ∨
      id ∈ (call env r c).1.pending.map fun d => d.part.id)

/-- Every metadata file is that of its part and stands beside a data file that can be read. -/
def Trusted (r : Replica) : Prop :=
  ∀ id part, r.metas id = some part → part.id = id ∧ verifies env (r.files id) = true

/-- A download of readable or refused bytes, which leaves no metadata file without its data: bytes
that cannot be read are not fetched for a part with metadata on disk, and a failing metadata write
does not remove the data file of such a part, nor that of its own. -/
structure FetchMeets (r : Replica) (io : FetchIO) (id raw : Bytes) : Prop where
  sound : sound env raw = true
  known : r.metas id ≠ none → verifies env (some raw) = true
  removed : io.removes = true → io.writeMeta ≠ .ok → io.writeMeta = .failed ∧ r.metas id = none

/-- Each download of the call meets the condition. -/
def Meets (r : Replica) : Call → Prop
  | .apply io e =>
      e.nodeID ≠ r.nodeID → ∀ raw, io.raw = some raw → FetchMeets env r io e.part.id raw
  | .retry gone io p =>
      gone = false → ∀ raw, io.raw = some raw → FetchMeets env r io p.part.id raw
  | .bootstrap io snap => ∀ part ∈ snap, r.metas part.id = none →
      ∀ raw, (io.fetch part.id).raw = some raw → FetchMeets env r (io.fetch part.id) part.id raw

end Specs

section Reads

variable {env : Env} {pf : PartFileV2} {raw : Bytes} {part : PartMeta}

theorem walkTokens_of_verifyBlocks {is : List Nat} (h : verifyBlocks env pf is = .ok ())
    (out : List Bytes) : ∃ tokens, walkTokens env pf is out = .done tokens := by
  induction is generalizing out with
  | nil => exact ⟨_, rfl⟩
  | cons i is ih =>
      rw [verifyBlocks] at h
      rw [walkTokens]
      cases hread : readBinBlock env.zstd pf i with
      | error err =>
          rw [hread] at h
          cases h
      | ok bb =>
          rw [hread] at h
          simp only
          split
          · exact ⟨_, rfl⟩
          · exact ih h _

theorem verifies_iff {file : Option Bytes} :
    verifies env file = true ↔
      ∃ pf, openPartV2 file = .ok (some pf) ∧ verifyPartV2 env pf = .ok () := by
  unfold verifies
  constructor
  · intro h
    split at h
    · rename_i pf hopen
      cases hverify : verifyPartV2 env pf with
      | ok u => exact ⟨pf, hopen, hverify⟩
      | error err =>
          rw [hverify] at h
          cases h
    · cases h
  · rintro ⟨pf, hopen, hverify⟩
    simp only [hopen, hverify]
    rfl

theorem rebuild_of_verifies (h : verifies env (some raw) = true) (part : PartMeta) :
    ∃ full, rebuildPartTokens env (some raw) part = .done full := by
  obtain ⟨pf, hopen, hverify⟩ := verifies_iff.mp h
  obtain ⟨tokens, htokens⟩ := walkTokens_of_verifyBlocks hverify []
  unfold rebuildPartTokens
  simp only [hopen, htokens]
  exact ⟨_, rfl⟩

theorem rebuild_of_refused (hsound : sound env raw = true) (h : verifies env (some raw) = false)
    (part : PartMeta) : rebuildPartTokens env (some raw) part = .failed := by
  unfold sound at hsound
  unfold rebuildPartTokens
  cases hopen : openPartV2 (some raw) with
  | error err =>
      rw [hopen] at hsound
      cases err <;> first | rfl | cases hsound
  | ok opened =>
      cases opened with
      | none => rfl
      | some pf =>
          rw [hopen] at hsound
          simp only [verifies, hopen] at h
          exact absurd (hsound.symm.trans h) (by decide)

theorem sound_of_verifies (h : verifies env (some raw) = true) : sound env raw = true := by
  obtain ⟨pf, hopen, hverify⟩ := verifies_iff.mp h
  simp only [sound, hopen, hverify]
  rfl

theorem walkTokens_ne_failed (env : Env) (pf : PartFileV2) (is : List Nat) (out : List Bytes) :
    walkTokens env pf is out ≠ .failed := by
  induction is generalizing out with
  | nil => simp [walkTokens]
  | cons i is ih =>
      rw [walkTokens]
      split
      · split
        · simp
        · exact ih out
      · split
        · simp
        · exact ih _

/-- Only bytes that do not open are refused. -/
theorem sound_of_refused (h : rebuildPartTokens env (some raw) part = .failed) :
    sound env raw = true := by
  unfold rebuildPartTokens at h
  unfold sound
  split at h
  · cases h
  · rfl
  · rfl
  · rename_i pf hopen
    cases hwalk : walkTokens env pf (List.range pf.headers.length) [] with
    | failed => exact absurd hwalk (walkTokens_ne_failed env pf _ _)
    | panics =>
        rw [hwalk] at h
        cases h
    | done res =>
        rw [hwalk] at h
        cases h

theorem id_of_rebuild {file : Option Bytes} {full : PartMeta}
    (h : rebuildPartTokens env file part = .done full) : full.id = part.id := by
  unfold rebuildPartTokens at h
  split at h <;> try cases h
  split at h <;> try cases h
  rfl

theorem get_of_verifies {r : Replica} {id : Bytes} (h : verifies env (r.files id) = true) :
    ∃ pf, (r.get env id).2 = .done (some pf) := by
  unfold Replica.get
  cases r.fds id with
  | some pf => exact ⟨pf, rfl⟩
  | none =>
      obtain ⟨pf, hopen, hverify⟩ := verifies_iff.mp h
      exact ⟨pf, by simp only [hopen, hverify]⟩

end Reads

/-! ## One download -/

/-- Only the files of one part differ. -/
structure Touches (r r' : Replica) (id : Bytes) : Prop where
  nodeID_eq : r'.nodeID = r.nodeID
  parts_eq : r'.parts = r.parts
  fds_eq : r'.fds = r.fds
  pending_eq : r'.pending = r.pending
  files_eq : ∀ other, other ≠ id → r'.files other = r.files other
  metas_eq : ∀ other, other ≠ id → r'.metas other = r.metas other

namespace Touches

variable {r r' r'' : Replica} {id : Bytes}

theorem refl (r : Replica) (id : Bytes) : Touches r r id :=
  ⟨rfl, rfl, rfl, rfl, fun _ _ => rfl, fun _ _ => rfl⟩

theorem setFile (h : Touches r r' id) (file : Option Bytes) : Touches r (r'.setFile id file) id :=
  { h with
    files_eq := fun other hne => (Function.update_of_ne hne _ _).trans (h.files_eq other hne) }

theorem setMeta (h : Touches r r' id) (part : PartMeta) : Touches r (r'.setMeta id part) id :=
  { h with
    metas_eq := fun other hne => (Function.update_of_ne hne _ _).trans (h.metas_eq other hne) }

theorem removeFile (h : Touches r r' id) (removes : Bool) :
    Touches r (r'.removeFile removes id) id := by
  unfold Replica.removeFile
  split
  · exact h.setFile none
  · exact h

/-- What is trusted about the other parts stays. -/
theorem trusted {env : Env} (h : Touches r r' id) (ht : Trusted env r)
    (hid : ∀ part, r'.metas id = some part → part.id = id ∧ verifies env (r'.files id) = true) :
    Trusted env r' := by
  intro other part hmeta
  by_cases hother : other = id
  · subst hother
    exact hid part hmeta
  · rw [h.metas_eq other hother] at hmeta
    rw [h.files_eq other hother]
    exact ht other part hmeta

end Touches

section Downloads

variable {env : Env} {r r' : Replica} {io : FetchIO} {raw : Bytes} {part : PartMeta}
variable {res : Outcome PartMeta}

/-- The ways in which storing downloaded bytes can end. -/
inductive Stored (env : Env) (r : Replica) (io : FetchIO) (raw : Bytes) (part : PartMeta) :
    Replica → Outcome PartMeta → Prop
  | unwritten (hwrite : io.writePart = .failed) : Stored env r io raw part r .failed
  | unsynced (hwrite : io.writePart = .failedAfterRename) :
      Stored env r io raw part (r.setFile part.id (some raw)) .failed
  | panics (hrebuild : rebuildPartTokens env (some raw) part = .panics) :
      Stored env r io raw part (r.setFile part.id (some raw)) .panics
  | refused (hrebuild : rebuildPartTokens env (some raw) part = .failed) :
      Stored env r io raw part
        ((r.setFile part.id (some raw)).removeFile io.removes part.id) .failed
  | noMeta {full : PartMeta} (hrebuild : rebuildPartTokens env (some raw) part = .done full)
      (hmeta : io.writeMeta = .failed) :
      Stored env r io raw part
        ((r.setFile part.id (some raw)).removeFile io.removes part.id) .failed
  | metaOnly {full : PartMeta} (hrebuild : rebuildPartTokens env (some raw) part = .done full)
      (hmeta : io.writeMeta = .failedAfterRename) :
      Stored env r io raw part
        (((r.setFile part.id (some raw)).setMeta part.id full).removeFile io.removes part.id)
        .failed
  | stored {full : PartMeta} (hrebuild : rebuildPartTokens env (some raw) part = .done full) :
      Stored env r io raw part ((r.setFile part.id (some raw)).setMeta part.id full) (.done full)

theorem stored_of_storePart (h : storePart env r io raw part = (r', res)) :
    Stored env r io raw part r' res := by
  have hfile : (r.setFile part.id (some raw)).files part.id = some raw := Function.update_self _ _ _
  unfold storePart at h
  cases hwrite : io.writePart with
  | failed =>
      simp only [hwrite] at h
      cases h
      exact .unwritten hwrite
  | failedAfterRename =>
      simp only [hwrite] at h
      cases h
      exact .unsynced hwrite
  | ok =>
      simp only [hwrite, hfile] at h
      cases hrebuild : rebuildPartTokens env (some raw) part with
      | panics =>
          simp only [hrebuild] at h
          cases h
          exact .panics hrebuild
      | failed =>
          simp only [hrebuild] at h
          cases h
          exact .refused hrebuild
      | done full =>
          simp only [hrebuild] at h
          cases hmeta : io.writeMeta with
          | failed =>
              simp only [hmeta] at h
              cases h
              exact .noMeta hrebuild hmeta
          | failedAfterRename =>
              simp only [hmeta] at h
              cases h
              exact .metaOnly hrebuild hmeta
          | ok =>
              simp only [hmeta] at h
              cases h
              exact .stored hrebuild

namespace Stored

theorem touches (h : Stored env r io raw part r' res) : Touches r r' part.id := by
  have hfile := (Touches.refl r part.id).setFile (some raw)
  cases h with
  | unwritten => exact Touches.refl r part.id
  | unsynced => exact hfile
  | panics => exact hfile
  | refused => exact hfile.removeFile io.removes
  | noMeta => exact hfile.removeFile io.removes
  | metaOnly => exact (hfile.setMeta _).removeFile io.removes
  | stored => exact hfile.setMeta _

theorem not_panics (h : Stored env r io raw part r' res) (hsound : sound env raw = true) :
    res ≠ .panics := by
  intro hpanics
  subst hpanics
  cases h with
  | panics hrebuild =>
      cases hverifies : verifies env (some raw) with
      | true =>
          obtain ⟨full, hdone⟩ := rebuild_of_verifies hverifies part
          rw [hrebuild] at hdone
          cases hdone
      | false =>
          rw [rebuild_of_refused hsound hverifies part] at hrebuild
          cases hrebuild

theorem verifies_of_rebuild {full : PartMeta} (hsound : sound env raw = true)
    (hrebuild : rebuildPartTokens env (some raw) part = .done full) :
    verifies env (some raw) = true ∧ full.id = part.id := by
  cases hverifies : verifies env (some raw) with
  | true => exact ⟨rfl, id_of_rebuild hrebuild⟩
  | false =>
      rw [rebuild_of_refused hsound hverifies part] at hrebuild
      cases hrebuild

/-- A part that is stored can be read, and both its files are on disk. -/
theorem of_done {full : PartMeta} (h : Stored env r io raw part r' (.done full))
    (hsound : sound env raw = true) :
    verifies env (some raw) = true ∧ r'.files full.id = some raw ∧ r'.metas full.id ≠ none := by
  cases h with
  | stored hrebuild =>
      obtain ⟨hverifies, hid⟩ := verifies_of_rebuild hsound hrebuild
      rw [hid]
      exact ⟨hverifies, by simp, by simp⟩

theorem trusted (h : Stored env r io raw part r' res) (ht : Trusted env r)
    (hmeets : FetchMeets env r io part.id raw) : Trusted env r' := by
  refine h.touches.trusted ht ?_
  intro disk hdisk
  have hold : r.metas part.id = some disk →
      disk.id = part.id ∧ verifies env (some raw) = true := fun hmeta =>
    ⟨(ht part.id disk hmeta).1, hmeets.known (by simp [hmeta])⟩
  cases h with
  | unwritten => exact ht part.id disk hdisk
  | unsynced => simpa using hold hdisk
  | panics => simpa using hold hdisk
  | refused hrebuild =>
      -- Bytes without tokens cannot be read, so that the part has no metadata on disk.
      rw [Replica.metas_removeFile] at hdisk
      obtain ⟨full, hdone⟩ := rebuild_of_verifies (hold hdisk).2 part
      rw [hrebuild] at hdone
      cases hdone
  | noMeta hrebuild hmeta =>
      rw [Replica.metas_removeFile] at hdisk
      cases hremoves : io.removes with
      | true =>
          obtain ⟨-, hnone⟩ := hmeets.removed hremoves (by simp [hmeta])
          rw [show r.metas part.id = some disk from hdisk] at hnone
          cases hnone
      | false => simpa [Replica.removeFile] using hold hdisk
  | metaOnly hrebuild hmeta =>
      obtain ⟨hverifies, hid⟩ := verifies_of_rebuild hmeets.sound hrebuild
      rw [Replica.metas_removeFile, Replica.metas_setMeta] at hdisk
      cases hdisk
      cases hremoves : io.removes with
      | true =>
          obtain ⟨hfailed, -⟩ := hmeets.removed hremoves (by simp [hmeta])
          rw [hmeta] at hfailed
          cases hfailed
      | false => simpa [Replica.removeFile] using ⟨hid, hverifies⟩
  | stored hrebuild =>
      obtain ⟨hverifies, hid⟩ := verifies_of_rebuild hmeets.sound hrebuild
      rw [Replica.metas_setMeta] at hdisk
      cases hdisk
      simpa using ⟨hid, hverifies⟩

/-- Metadata on disk is never taken away. -/
theorem metas_ne_none (h : Stored env r io raw part r' res) {id : Bytes}
    (hid : r.metas id ≠ none) : r'.metas id ≠ none := by
  have hset : ∀ full, ((r.setFile part.id (some raw)).setMeta part.id full).metas id ≠ none := by
    intro full
    by_cases hpart : id = part.id
    · subst hpart
      simp
    · rw [(((Touches.refl r part.id).setFile (some raw)).setMeta full).metas_eq id hpart]
      exact hid
  cases h with
  | unwritten => exact hid
  | unsynced => exact hid
  | panics => exact hid
  | refused => simpa using hid
  | noMeta => simpa using hid
  | metaOnly =>
      rw [Replica.metas_removeFile]
      exact hset _
  | stored => exact hset _

end Stored

end Downloads

/-! ## Loading a snapshot -/

section Loading

variable {env : Env} {io : LoadIO}

theorem FetchMeets.congr {r r' : Replica} {io : FetchIO} {id raw : Bytes}
    (h : FetchMeets env r io id raw) (hmetas : r'.metas id = r.metas id) :
    FetchMeets env r' io id raw := by
  refine ⟨h.sound, ?_, ?_⟩
  · rw [hmetas]
    exact h.known
  · rw [hmetas]
    exact h.removed

/-- Parts that are not on disk later were not on disk before. -/
theorem meets_of_metas {r r' : Replica} {parts : List PartMeta}
    (h : Meets env r (.bootstrap io parts))
    (hmetas : ∀ id, r.metas id ≠ none → r'.metas id ≠ none) :
    Meets env r' (.bootstrap io parts) := by
  intro part hpart hnone raw hraw
  have hnone₀ : r.metas part.id = none := by
    by_contra hsome
    exact hmetas part.id hsome hnone
  exact (h part hpart hnone₀ raw hraw).congr (hnone.trans hnone₀.symm)

/-- What the loop over the snapshot has done: the disk is trusted still, what is loaded has its
metadata on disk, and what was downloaded can be read. -/
structure Loaded (env : Env) (io : LoadIO) (parts : List PartMeta) (r r' : Replica)
    (res : Outcome (List PartMeta)) : Prop where
  trusted : Trusted env r'
  parts_eq : r'.parts = r.parts
  not_panics : res ≠ .panics
  onDisk : ∀ loaded, res = .done loaded → ∀ p ∈ loaded, r'.metas p.id ≠ none
  read : ∀ loaded, res = .done loaded → ∀ p ∈ parts, r.metas p.id = none →
    ∀ raw, (io.fetch p.id).raw = some raw → verifies env (some raw) = true

theorem loaded_of_loadParts {parts : List PartMeta} {r r' : Replica} {loaded : List PartMeta}
    {res : Outcome (List PartMeta)} (h : loadParts env io parts r loaded = (r', res))
    (hnodup : (parts.map PartMeta.id).Nodup) (ht : Trusted env r)
    (hmeets : Meets env r (.bootstrap io parts))
    (hdisk : ∀ p ∈ loaded, r.metas p.id ≠ none) : Loaded env io parts r r' res := by
  induction parts generalizing r loaded with
  | nil =>
      cases h
      refine ⟨ht, rfl, by simp, ?_, by simp⟩
      intro all hall
      cases hall
      exact hdisk
  | cons part parts ih =>
      rw [loadParts] at h
      rw [List.map_cons, List.nodup_cons] at hnodup
      have hrest : Meets env r (.bootstrap io parts) := fun p hp => hmeets p (.tail _ hp)
      cases hmeta : r.metas part.id with
      | some disk =>
          have hid : (if io.readsMeta part.id then disk else part).id = part.id := by
            split
            · exact (ht part.id disk hmeta).1
            · rfl
          simp only [hmeta] at h
          have hload := ih h hnodup.2 ht hrest (by
            intro p hp
            rcases List.mem_append.mp hp with hp | hp
            · exact hdisk p hp
            · rw [List.mem_singleton.mp hp, hid, hmeta]
              exact Option.some_ne_none disk)
          refine { hload with read := ?_ }
          intro all hall p hp hnone
          rcases List.mem_cons.mp hp with rfl | hp
          · rw [hmeta] at hnone
            cases hnone
          · exact hload.read all hall p hp hnone
      | none =>
          simp only [hmeta] at h
          cases hraw : (io.fetch part.id).raw with
          | none =>
              simp only [hraw] at h
              have hload := ih h hnodup.2 ht (meets_of_metas hrest fun _ hid => hid) hdisk
              refine { hload with read := ?_ }
              intro all hall p hp hnone raw hp'
              rcases List.mem_cons.mp hp with rfl | hp
              · rw [hraw] at hp'
                cases hp'
              · exact hload.read all hall p hp hnone raw hp'
          | some raw =>
              simp only [hraw] at h
              have hfetch := hmeets part (.head _) hmeta raw hraw
              cases hstore : storePart env r (io.fetch part.id) raw part with
              | mk r₁ out =>
                  have hstored := stored_of_storePart hstore
                  have htouch := hstored.touches
                  have ht₁ := hstored.trusted ht hfetch
                  simp only [hstore] at h
                  cases out with
                  | panics => exact absurd rfl (hstored.not_panics hfetch.sound)
                  | failed =>
                      cases h
                      exact ⟨ht₁, htouch.parts_eq, by simp, by simp, by simp⟩
                  | done full =>
                      obtain ⟨hverifies, -, hfull⟩ := hstored.of_done hfetch.sound
                      have hmono : ∀ id, r.metas id ≠ none → r₁.metas id ≠ none :=
                        fun _ => hstored.metas_ne_none
                      have hload := ih h hnodup.2 ht₁ (meets_of_metas hrest hmono) (by
                        intro p hp
                        rcases List.mem_append.mp hp with hp | hp
                        · exact hmono p.id (hdisk p hp)
                        · rw [List.mem_singleton.mp hp]
                          exact hfull)
                      refine { hload with
                        parts_eq := hload.parts_eq.trans htouch.parts_eq
                        read := ?_ }
                      intro all hall p hp hnone bytes hbytes
                      rcases List.mem_cons.mp hp with rfl | hp
                      · rw [hraw] at hbytes
                        cases hbytes
                        exact hverifies
                      · have hne : p.id ≠ part.id := fun heq =>
                          hnodup.1 (heq ▸ List.mem_map_of_mem hp)
                        rw [← htouch.metas_eq p.id hne] at hnone
                        exact hload.read all hall p hp hnone bytes hbytes

theorem reindex_fds {r r' : Replica} {id : Bytes} {out : Outcome Unit}
    (h : reindex env r id = (r', out)) : ∃ fds, r' = { r with fds := fds } := by
  have hget : ∃ fds, (r.get env id).1 = { r with fds := fds } := by
    unfold Replica.get
    split
    · exact ⟨_, rfl⟩
    · split <;> try exact ⟨_, rfl⟩
      split <;> exact ⟨_, rfl⟩
  obtain ⟨fds, hfds⟩ := hget
  unfold reindex at h
  split at h <;>
  · rename_i heq
    cases h
    rw [heq] at hfds
    exact ⟨fds, hfds⟩

theorem reindex_of_verifies {r r' : Replica} {id : Bytes} {out : Outcome Unit}
    (h : reindex env r id = (r', out)) (hread : verifies env (r.files id) = true) :
    out = .done () := by
  obtain ⟨pf, hget⟩ := get_of_verifies hread
  unfold reindex at h
  split at h
  · rename_i heq
    rw [heq] at hget
    cases hget
  · cases h
    rfl

theorem reindexAll_of_verifies {ps : List PartMeta} {r r' : Replica} {out : Outcome Unit}
    (h : reindexAll env io ps r = (r', out))
    (hread : ∀ p ∈ ps, verifies env (r.files p.id) = true) :
    (∃ fds, r' = { r with fds := fds }) ∧ out = .done () := by
  induction ps generalizing r with
  | nil =>
      cases h
      exact ⟨⟨_, rfl⟩, rfl⟩
  | cons p ps ih =>
      have hrest : ∀ q ∈ ps, verifies env (r.files q.id) = true := fun q hq => hread q (.tail _ hq)
      rw [reindexAll] at h
      split at h
      · exact ih h hrest
      · cases hone : reindex env r p.id with
        | mk r₁ res =>
            obtain rfl := reindex_of_verifies hone (hread p (.head _))
            obtain ⟨fds, rfl⟩ := reindex_fds hone
            rw [hone] at h
            obtain ⟨⟨fds', rfl⟩, hout⟩ := ih h hrest
            exact ⟨⟨fds', rfl⟩, hout⟩

theorem Trusted.verifies_of_metas {r : Replica} {id : Bytes} (ht : Trusted env r)
    (h : r.metas id ≠ none) : verifies env (r.files id) = true := by
  obtain ⟨part, hpart⟩ := Option.ne_none_iff_exists'.mp h
  exact (ht id part hpart).2

end Loading

/-! ## Calls that publish only what can be read -/

section Calls

variable {env : Env} {r : Replica}

/-- The download of a call for one part. -/
inductive Downloads (r : Replica) : Call → FetchIO → PartMeta → Bytes → Prop
  | apply {io : FetchIO} {e : LogEntry} {raw : Bytes} (hforeign : e.nodeID ≠ r.nodeID)
      (hraw : io.raw = some raw) : Downloads r (.apply io e) io e.part raw
  | retry {io : FetchIO} {p : PendingEntry} {raw : Bytes} (hraw : io.raw = some raw) :
      Downloads r (.retry false io p) io p.part raw

/-- The part joins the list, of which others may go. -/
structure Lists (r₁ r₂ : Replica) (full : PartMeta) : Prop where
  files_eq : r₂.files = r₁.files
  metas_eq : r₂.metas = r₁.metas
  parts_subset : ∀ p ∈ r₂.parts, p ∈ r₁.parts ∨ p = full
  mem_parts : full.id ∉ r₁.listed → full ∈ r₂.parts

/-- The ways in which a call can end. -/
inductive Called (env : Env) (r : Replica) : Call → Replica → Outcome Unit → Prop
  | idle {c : Call} {pending : List PendingEntry} {out : Outcome Unit} (hends : out ≠ .panics)
      (hnone : ∀ id raw, ¬ Fetches r id raw c) : Called env r c { r with pending := pending } out
  | panics {c : Call} {io : FetchIO} {part : PartMeta} {raw : Bytes} {r₁ : Replica}
      (hdown : Downloads r c io part raw) (hstored : Stored env r io raw part r₁ .panics) :
      Called env r c r₁ .panics
  | deferred {c : Call} {io : FetchIO} {part : PartMeta} {raw : Bytes} {r₁ : Replica}
      {pending : List PendingEntry} {out : Outcome Unit} (hdown : Downloads r c io part raw)
      (hstored : Stored env r io raw part r₁ .failed) (hends : out ≠ .panics)
      (hkept : out = .failed ∨ part.id ∈ pending.map fun d => d.part.id) :
      Called env r c { r₁ with pending := pending } out
  | listed {c : Call} {io : FetchIO} {part full : PartMeta} {raw : Bytes} {r₁ r₂ r₃ : Replica}
      {out : Outcome Unit} (hdown : Downloads r c io part raw)
      (hstored : Stored env r io raw part r₁ (.done full)) (hlists : Lists r₁ r₂ full)
      (hindex : reindex env r₂ full.id = (r₃, out)) : Called env r c r₃ out
  | unloaded {io : LoadIO} {snap : List PartMeta} {r₁ : Replica} {res : Outcome (List PartMeta)}
      {out : Outcome Unit} (hload : loadParts env io snap r [] = (r₁, res))
      (hout : out = .failed ∨ res = .panics) : Called env r (.bootstrap io snap) r₁ out
  | loaded {io : LoadIO} {snap loaded : List PartMeta} {r₁ r₂ : Replica}
      {pending : List PendingEntry} {out : Outcome Unit}
      (hload : loadParts env io snap r [] = (r₁, .done loaded))
      (hindex : reindexAll env io loaded { r₁ with parts := loaded, pending := pending } = (r₂, out)) :
      Called env r (.bootstrap io snap) r₂ out

theorem lists_publish (r₁ : Replica) (full : PartMeta) (oldParts : List Bytes)
    (pending : List PendingEntry) :
    Lists r₁ { publish r₁ full oldParts with pending := pending } full := by
  have hsub : ∀ p ∈ r₁.parts.filter fun p => !oldParts.contains p.id, p ∈ r₁.parts :=
    fun p hp => List.mem_of_mem_filter hp
  refine ⟨rfl, rfl, ?_, ?_⟩
  · intro p hp
    simp only [publish] at hp
    split at hp
    · exact .inl (hsub p hp)
    · exact (List.mem_append.mp hp).imp (hsub p) List.mem_singleton.mp
  · intro hnew
    have hfresh : ((r₁.parts.filter fun p => !oldParts.contains p.id).map PartMeta.id).contains
        full.id = false := by
      rw [List.contains_eq_mem, decide_eq_false_iff_not]
      exact fun hmem => hnew (List.map_subset _ hsub hmem)
    simp only [publish, hfresh]
    exact List.mem_append_right _ (.head _)

theorem called_applyLogEntry {io : FetchIO} {e : LogEntry} {r' : Replica} {out : Outcome Unit}
    (h : applyLogEntry env r io e = (r', out)) : Called env r (.apply io e) r' out := by
  unfold applyLogEntry at h
  split at h
  · rename_i hown
    cases h
    exact .idle (by simp) fun _ _ hfetch => hfetch.1 hown
  · rename_i hforeign
    cases hraw : io.raw with
    | none =>
        simp only [hraw] at h
        cases h
        exact .idle (by simp) fun _ _ hfetch => by simp [hfetch.2.2] at hraw
    | some raw =>
        have hdown : Downloads r (.apply io e) io e.part raw := .apply hforeign hraw
        simp only [hraw] at h
        cases hstore : storePart env r io raw e.part with
        | mk r₁ res =>
            have hstored := stored_of_storePart hstore
            simp only [hstore] at h
            cases res with
            | panics =>
                cases h
                exact .panics hdown hstored
            | failed =>
                cases h
                exact .deferred hdown hstored (by simp) (.inl rfl)
            | done full =>
                cases hop : e.op with
                | put =>
                    simp only [hop] at h
                    exact .listed hdown hstored (lists_publish r₁ full [] r₁.pending) h
                | merge =>
                    simp only [hop] at h
                    exact .listed hdown hstored (lists_publish r₁ full e.oldParts _) h

theorem called_retryPendingPart {gone : Bool} {io : FetchIO} {p : PendingEntry} {r' : Replica}
    {out : Outcome Unit} (h : retryPendingPart env r gone io p = (r', out))
    (hpending : p.part.id ∈ r.pending.map fun d => d.part.id) :
    Called env r (.retry gone io p) r' out := by
  unfold retryPendingPart at h
  split at h
  · rename_i hgone
    cases h
    exact .idle (by simp) fun _ _ hfetch => by simp [hfetch.1] at hgone
  · rename_i hgone
    obtain rfl : gone = false := by simpa using hgone
    cases hraw : io.raw with
    | none =>
        simp only [hraw] at h
        cases h
        exact .idle (by simp) fun _ _ hfetch => by simp [hfetch.2.2] at hraw
    | some raw =>
        have hdown : Downloads r (.retry false io p) io p.part raw := .retry hraw
        simp only [hraw] at h
        cases hstore : storePart env r io raw p.part with
        | mk r₁ res =>
            have hstored := stored_of_storePart hstore
            simp only [hstore] at h
            cases res with
            | panics =>
                cases h
                exact .panics hdown hstored
            | failed =>
                cases h
                exact .deferred hdown hstored (by simp)
                  (.inr (by rwa [hstored.touches.pending_eq]))
            | done full =>
                have hlists : Lists r₁
                    { r₁ with
                      parts := (r₁.parts.filter fun q => !p.oldParts.contains q.id) ++ [full]
                      pending := dropPending r₁.pending [p.part.id] } full :=
                  ⟨rfl, rfl,
                    fun q hq =>
                      (List.mem_append.mp hq).imp List.mem_of_mem_filter List.mem_singleton.mp,
                    fun _ => List.mem_append_right _ (.head _)⟩
                exact .listed hdown hstored hlists h

theorem called_bootstrapFromParts {io : LoadIO} {snap : List PartMeta} {r' : Replica}
    {out : Outcome Unit} (h : bootstrapFromParts env r io snap = (r', out)) :
    Called env r (.bootstrap io snap) r' out := by
  unfold bootstrapFromParts at h
  cases hload : loadParts env io snap r [] with
  | mk r₁ res =>
      simp only [hload] at h
      cases res with
      | panics =>
          cases h
          exact .unloaded hload (.inr rfl)
      | failed =>
          cases h
          exact .unloaded hload (.inl rfl)
      | done loaded => exact .loaded hload h

theorem called_of_call {c : Call} {r' : Replica} {out : Outcome Unit}
    (h : call env r c = (r', out)) (hc : Enabled r c) : Called env r c r' out := by
  cases c with
  | apply io e => exact called_applyLogEntry h
  | retry gone io p => exact called_retryPendingPart h hc
  | bootstrap io snap => exact called_bootstrapFromParts h

theorem Fetches.downloads {c : Call} {io : FetchIO} {part : PartMeta} {id raw bytes : Bytes}
    (h : Fetches r id bytes c) (hdown : Downloads r c io part raw) : id = part.id ∧ bytes = raw := by
  cases hdown with
  | apply hforeign hraw =>
      obtain ⟨-, rfl, hbytes⟩ := h
      exact ⟨rfl, Option.some.inj (hbytes.symm.trans hraw)⟩
  | retry hraw =>
      obtain ⟨-, rfl, hbytes⟩ := h
      exact ⟨rfl, Option.some.inj (hbytes.symm.trans hraw)⟩

theorem Meets.downloads {c : Call} {io : FetchIO} {part : PartMeta} {raw : Bytes}
    (h : Meets env r c) (hdown : Downloads r c io part raw) : FetchMeets env r io part.id raw := by
  cases hdown with
  | apply hforeign hraw => exact h hforeign _ hraw
  | retry hraw => exact h rfl _ hraw

/-- Nothing is new in an unchanged list. -/
theorem verifies_of_parts_eq {r' : Replica} (hparts : r'.parts = r.parts) :
    ∀ p ∈ r'.parts, p.id ∉ r.listed → verifies env (r'.files p.id) = true := by
  intro p hp hnew
  rw [hparts] at hp
  exact absurd (List.mem_map_of_mem hp) hnew

theorem Published.of_verifies {c : Call} {r' : Replica} {out : Outcome Unit}
    (h : call env r c = (r', out)) (hends : out ≠ .panics)
    (hread : ∀ p ∈ r'.parts, p.id ∉ r.listed → verifies env (r'.files p.id) = true)
    (hrefused : ∀ id raw, Fetches r id raw c → verifies env (some raw) = false →
      r'.parts = r.parts ∧ (out = .failed ∨ id ∈ r'.pending.map fun d => d.part.id)) :
    Published env r c := by
  refine ⟨?_, ?_, ?_⟩
  · rw [h]
    exact hends
  · rw [h]
    exact fun p hp hnew => ⟨hread p hp hnew, get_of_verifies (hread p hp hnew)⟩
  · rw [h]
    exact hrefused

/-- A call for one part publishes what can be read, if the bytes are sound. -/
theorem published_of_sound {c : Call} (hc : Enabled r c)
    (hsound : ∀ io part raw, Downloads r c io part raw → sound env raw = true)
    (hboot : ∀ io snap, c ≠ .bootstrap io snap) : Published env r c := by
  cases hcall : call env r c with
  | mk r' out =>
      cases called_of_call hcall hc with
      | idle hends hnone =>
          exact .of_verifies hcall hends (verifies_of_parts_eq rfl)
            fun id raw hfetch => absurd hfetch (hnone id raw)
      | panics hdown hstored => exact absurd rfl (hstored.not_panics (hsound _ _ _ hdown))
      | deferred hdown hstored hends hkept =>
          refine .of_verifies hcall hends (verifies_of_parts_eq hstored.touches.parts_eq) ?_
          intro id raw hfetch _
          obtain ⟨rfl, -⟩ := hfetch.downloads hdown
          exact ⟨hstored.touches.parts_eq, hkept⟩
      | listed hdown hstored hlists hindex =>
          obtain ⟨hverifies, hfile, -⟩ := hstored.of_done (hsound _ _ _ hdown)
          rw [← hlists.files_eq] at hfile
          obtain rfl := reindex_of_verifies hindex (hfile ▸ hverifies)
          obtain ⟨fds, rfl⟩ := reindex_fds hindex
          refine .of_verifies hcall (by simp) ?_ ?_
          · intro p hp hnew
            rcases hlists.parts_subset p hp with hp | rfl
            · rw [hstored.touches.parts_eq] at hp
              exact absurd (List.mem_map_of_mem hp) hnew
            · exact hfile ▸ hverifies
          · intro id raw hfetch hbad
            obtain ⟨-, rfl⟩ := hfetch.downloads hdown
            rw [hverifies] at hbad
            cases hbad
      | unloaded => exact absurd rfl (hboot _ _)
      | loaded => exact absurd rfl (hboot _ _)

theorem published_bootstrap {io : LoadIO} {snap : List PartMeta}
    (hc : Enabled r (.bootstrap io snap)) (ht : Trusted env r)
    (hmeets : Meets env r (.bootstrap io snap)) : Published env r (.bootstrap io snap) := by
  cases hcall : call env r (.bootstrap io snap) with
  | mk r' out =>
      cases called_of_call hcall hc with
      | idle hends hnone =>
          exact .of_verifies hcall hends (verifies_of_parts_eq rfl)
            fun id raw hfetch => absurd hfetch (hnone id raw)
      | panics hdown => cases hdown
      | deferred hdown => cases hdown
      | listed hdown => cases hdown
      | unloaded hload hout =>
          have hloaded := loaded_of_loadParts hload hc ht hmeets (by simp)
          obtain rfl := hout.resolve_right hloaded.not_panics
          exact .of_verifies hcall (by simp) (verifies_of_parts_eq hloaded.parts_eq)
            fun _ _ _ _ => ⟨hloaded.parts_eq, .inl rfl⟩
      | loaded hload hindex =>
          have hloaded := loaded_of_loadParts hload hc ht hmeets (by simp)
          have hread := fun p hp => hloaded.trusted.verifies_of_metas (hloaded.onDisk _ rfl p hp)
          obtain ⟨⟨fds, rfl⟩, rfl⟩ := reindexAll_of_verifies hindex hread
          refine .of_verifies hcall (by simp) (fun p hp _ => hread p hp) ?_
          intro id raw hfetch hbad
          obtain ⟨hid, hnone, hraw⟩ := hfetch
          obtain ⟨part, hpart, rfl⟩ := List.mem_map.mp hid
          rw [hloaded.read _ rfl part hpart hnone raw hraw] at hbad
          cases hbad

/-- The disk stays trusted. -/
theorem trusted_call {c : Call} {r' : Replica} {out : Outcome Unit}
    (hcall : call env r c = (r', out)) (hc : Enabled r c) (ht : Trusted env r)
    (hmeets : Meets env r c) : Trusted env r' := by
  cases called_of_call hcall hc with
  | idle => exact ht
  | panics hdown hstored => exact hstored.trusted ht (hmeets.downloads hdown)
  | deferred hdown hstored => exact hstored.trusted ht (hmeets.downloads hdown)
  | listed hdown hstored hlists hindex =>
      have ht₁ := hstored.trusted ht (hmeets.downloads hdown)
      obtain ⟨fds, rfl⟩ := reindex_fds hindex
      intro id part hmeta
      have htrust := ht₁ id part (hlists.metas_eq ▸ hmeta)
      rw [← hlists.files_eq] at htrust
      exact htrust
  | unloaded hload hout => exact (loaded_of_loadParts hload hc ht hmeets (by simp)).trusted
  | loaded hload hindex =>
      have hloaded := loaded_of_loadParts hload hc ht hmeets (by simp)
      have hread := fun p hp => hloaded.trusted.verifies_of_metas (hloaded.onDisk _ rfl p hp)
      obtain ⟨⟨fds, rfl⟩, rfl⟩ := reindexAll_of_verifies hindex hread
      exact hloaded.trusted

theorem published_of_meets {c : Call} (hc : Enabled r c) (ht : Trusted env r)
    (hmeets : Meets env r c) : Published env r c := by
  have hsound : ∀ io part raw, Downloads r c io part raw → sound env raw = true :=
    fun _ _ _ hdown => (hmeets.downloads hdown).sound
  cases c with
  | apply io e => exact published_of_sound hc hsound (by simp)
  | retry gone io p => exact published_of_sound hc hsound (by simp)
  | bootstrap io snap => exact published_bootstrap hc ht hmeets

theorem trusted_step {c : Call} {r' : Replica} (h : step env r c = some r') (ht : Trusted env r)
    (hmeets : Meets env r c) : Trusted env r' := by
  unfold step at h
  split at h
  · rename_i hc
    cases hcall : call env r c with
    | mk r₁ out =>
        have ht₁ := trusted_call hcall hc ht hmeets
        rw [hcall] at h
        cases out <;> cases h <;> exact ht₁
  · cases h

/-- The bytes of a foreign entry are stored without a fault: the call does what it has to exactly
for sound bytes. -/
theorem published_clean_iff {e : LogEntry} {raw : Bytes} (hforeign : e.nodeID ≠ r.nodeID)
    (hnew : e.part.id ∉ r.listed) :
    Published env r (.apply (.clean raw) e) ↔ sound env raw = true := by
  constructor
  · intro h
    cases hcall : call env r (.apply (.clean raw) e) with
    | mk r' out =>
        have hends := h.ends
        have hreadable := h.readable
        rw [hcall] at hends hreadable
        cases called_of_call hcall trivial with
        | idle _ hnone => exact absurd ⟨hforeign, rfl, rfl⟩ (hnone e.part.id raw)
        | panics => exact absurd rfl hends
        | deferred hdown hstored =>
            cases hdown with
            | apply _ hraw =>
                cases hraw
                cases hstored with
                | unwritten hwrite => cases hwrite
                | unsynced hwrite => cases hwrite
                | refused hrebuild => exact sound_of_refused hrebuild
                | noMeta _ hmeta => cases hmeta
                | metaOnly _ hmeta => cases hmeta
        | listed hdown hstored hlists hindex =>
            cases hdown with
            | apply _ hraw =>
                cases hraw
                obtain ⟨fds, rfl⟩ := reindex_fds hindex
                cases hstored with
                | stored hrebuild =>
                    have hid := id_of_rebuild hrebuild
                    have hfresh := hid ▸ hnew
                    have hread := (hreadable _ (hlists.mem_parts hfresh) hfresh).1
                    simp only [hlists.files_eq, hid, Replica.files_setMeta,
                      Replica.files_setFile] at hread
                    exact sound_of_verifies hread
  · intro hsound
    refine published_of_sound trivial ?_ (by simp)
    intro io part bytes hdown
    cases hdown with
    | apply _ hraw =>
        cases hraw
        exact hsound

theorem step_of_published {c : Call} (hc : Enabled r c) (h : Published env r c) :
    ∃ r', step env r c = some r' := by
  have hends := h.ends
  unfold step
  rw [if_pos hc]
  cases hcall : call env r c with
  | mk r' out =>
      rw [hcall] at hends
      cases out with
      | panics => exact absurd rfl hends
      | failed => exact ⟨r', rfl⟩
      | done u => exact ⟨r', rfl⟩

end Calls

/-! ## What a peer writes can be read -/

section Honest

variable {env : Env} {bs : List RowBlock}

theorem verifyBlocks_opened (h : Fits env bs)
    (hz : ∀ x, env.zstd.decode (env.zstd.encode x) = some x) {is : List Nat}
    (his : ∀ i ∈ is, i < bs.length) : verifyBlocks env (opened env bs) is = .ok () := by
  induction is with
  | nil => rfl
  | cons i is ih =>
      have hb := List.getElem?_eq_getElem (his i (.head _))
      rw [verifyBlocks, h.readBinBlock_eq hz hb]
      exact ih fun j hj => his j (.tail _ hj)

theorem verifies_writePartV2Seq (hz : ∀ x, env.zstd.decode (env.zstd.encode x) = some x)
    {rows : List Entry} {blockSize : Int}
    (h : Fits env (Block.writePartV2Seq rows blockSize).blocks) :
    verifies env (some (Format.writePartV2Seq env rows blockSize)) = true := by
  refine verifies_iff.mpr ⟨_, ?_, verifyBlocks_opened h hz ?_⟩
  · rw [writePartV2Seq_eq]
    exact h.openPartV2_eq
  · intro i hi
    rwa [List.mem_range, length_opened] at hi

end Honest

/-! ## Runs -/

/-- A node that has nothing yet. -/
def fresh (nodeID : Bytes) : Replica :=
  ⟨nodeID, [], fun _ => none, fun _ => none, fun _ => none, []⟩

/-- In every run from a trusted disk in which the bytes of each download can be read or are refused
when they are opened, and no failed download takes the data file away from metadata on disk, each
call publishes only what can be read.  Without a fault, the bytes of a new part are published as
they should be exactly when they are of that kind. -/
theorem published_along (env : Env) :
    (∀ r₀ cs r c, Trusted env r₀ → Along (step env) (Meets env) r₀ cs →
      exec (step env) r₀ cs = some r → Enabled r c → Meets env r c → Published env r c) ∧
    ∀ (r : Replica) (e : LogEntry) (raw : Bytes), e.nodeID ≠ r.nodeID → e.part.id ∉ r.listed →
      (Published env r (.apply (.clean raw) e) ↔ sound env raw = true) := by
  constructor
  · intro r₀ cs r c ht₀ hmeets hrun hc hc'
    have ht : Trusted env r :=
      invariant_along (fun _ _ _ ht hok hstep => trusted_step hstep ht hok) ht₀ hmeets hrun
    exact published_of_meets hc ht hc'
  · exact fun r e raw hforeign hnew => published_clean_iff hforeign hnew

def demoPart (id : Bytes) : PartMeta := ⟨id, ascii "n1", 0, -5, 7, 3, [], false, 0⟩

def demoPut (id : Bytes) : LogEntry := ⟨.put, demoPart id, [], ascii "n1"⟩

/-- A directory of one block, whose bytes are cut off. -/
def cutOff : Bytes := fixedHeader 1 ++ dirRow 56 ⟨0, 20, 1, 5, 5, []⟩

/-- The replica that has applied the entry with these bytes. -/
def afterCutOff : Replica :=
  (call plainEnv (fresh (ascii "n2")) (.apply (.clean cutOff) (demoPut (ascii "a")))).1

theorem unreadable_part_published :
    ¬ Published plainEnv (fresh (ascii "n2")) (.apply (.clean cutOff) (demoPut (ascii "a"))) ∧
    (call plainEnv (fresh (ascii "n2")) (.apply (.clean cutOff) (demoPut (ascii "a")))).2 =
      .done () ∧
    afterCutOff.listed = [ascii "a"] ∧ afterCutOff.pending.length = 0 ∧
    verifies plainEnv (afterCutOff.files (ascii "a")) = false ∧
    (afterCutOff.get plainEnv (ascii "a")).2 = .failed := by
  refine ⟨?_, by decide +kernel, by decide +kernel, by decide +kernel, by decide +kernel, rfl⟩
  rw [published_clean_iff (by decide) (by decide)]
  decide +kernel

def demoRaw : Bytes := Format.writePartV2Seq plainEnv threeRows 2

theorem meets_demoRaw (r : Replica) (id : Bytes) :
    FetchMeets plainEnv r (.clean demoRaw) id demoRaw := by
  have hread : verifies plainEnv (some demoRaw) = true :=
    verifies_writePartV2Seq (fun _ => rfl) fits_threeRows
  exact ⟨sound_of_verifies hread, fun _ => hread, fun _ hok => absurd rfl hok⟩

/-- A node applies an entry of its peer and is bootstrapped with a snapshot of two parts then. -/
theorem published_along_bootstrap :
    ∃ r, exec (step plainEnv) (fresh (ascii "n2"))
        [.apply (.clean demoRaw) (demoPut (ascii "a"))] = some r ∧
      Published plainEnv r (.bootstrap ⟨fun _ => true, fun _ => .clean demoRaw, fun _ => false⟩
        [demoPart (ascii "a"), demoPart (ascii "b")]) := by
  have htrusted : Trusted plainEnv (fresh (ascii "n2")) := fun _ _ hmeta => by cases hmeta
  have hmeets : Meets plainEnv (fresh (ascii "n2"))
      (.apply (.clean demoRaw) (demoPut (ascii "a"))) := by
    intro _ raw hraw
    cases hraw
    exact meets_demoRaw _ _
  have hc : Enabled (fresh (ascii "n2")) (.apply (.clean demoRaw) (demoPut (ascii "a"))) := trivial
  obtain ⟨r, hr⟩ := step_of_published hc (published_of_meets hc htrusted hmeets)
  have hrun := exec_cons.mpr ⟨r, hr, exec_nil r⟩
  have halong : Along (step plainEnv) (Meets plainEnv) (fresh (ascii "n2"))
      [.apply (.clean demoRaw) (demoPut (ascii "a"))] := along_cons hmeets hr trivial
  have hids : ([demoPart (ascii "a"), demoPart (ascii "b")].map PartMeta.id).Nodup := by decide
  refine ⟨r, hrun, (published_along plainEnv).1 _ _ r _ htrusted halong hrun hids ?_⟩
  intro part _ _ raw hraw
  cases hraw
  exact meets_demoRaw _ _

end Shrimpd.Lsm.Publish
