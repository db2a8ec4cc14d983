import Shrimpd.Lsm.Node

/-!
# Compaction of one level

A compaction selects parts of one level, merges them into a new part file,
commits the replacement in etcd and publishes it in the node's part list.
The answers of the disk and of etcd are inputs of the call.
-/

namespace Shrimpd.Lsm

open Shrimpd.Lib Shrimpd.Types Shrimpd.Block

/-! ## The call, section by section -/

def compactTrigger : Nat := 4

/-- The node's own parts of one level. -/
def Node.levelParts (n : Node) (level : Int) : List PartMeta :=
  n.parts.filter fun p => p.level == level && p.nodeID == n.nodeID

def sortByMinTimestamp (ms : List PartMeta) : List PartMeta :=
  ms.insertionSort fun a b => a.minTimestamp ≤ b.minTimestamp

/-- The parts a call merges; none means that it has nothing to do. -/
def Node.selectParts (n : Node) (level : Int) (force : Bool) : List PartMeta :=
  let levelParts := n.levelParts level
  if !force && levelParts.length < compactTrigger then []
  else (sortByMinTimestamp levelParts).take compactTrigger

inductive CompactErr where
  | openPart (id : Bytes)
  | notAvailable (id : Bytes)
  | writePart
  | writeMeta
  | appendLog
  deriving DecidableEq, Repr

/-- Open the selected parts one after the other. -/
def Node.getParts (n : Node) (opens : Bytes → Bool) :
    List PartMeta → Node × Except CompactErr (List PartFile)
  | [] => (n, .ok [])
  | m :: ms =>
      match n.getPart opens m.id with
      | (n, .failed) => (n, .error (.openPart m.id))
      | (n, .missing) => (n, .error (.notAvailable m.id))
      | (n, .found f) =>
          match n.getParts opens ms with
          | (n, .ok fs) => (n, .ok (f :: fs))
          | (n, .error err) => (n, .error err)

/-- A file is written to a temporary name, renamed, and its directory synced. -/
inductive WriteAnswer where
  | ok
  | failed
  | failedAfterRename
  deriving DecidableEq, Repr

/-- What became of the transaction, and what the caller is told. -/
inductive AppendOutcome where
  | committed
  | notCommitted
  | committedError
  deriving DecidableEq, Repr

structure CompactIO where
  opens : Bytes → Bool
  writePart : WriteAnswer
  writeMeta : WriteAnswer
  append : AppendOutcome
  removes : Bool
  removesMeta : Bool

def CompactIO.good : CompactIO := ⟨fun _ => true, .ok, .ok, .committed, true, true⟩

/-- `_ = os.Remove(path)`. -/
def Node.removeFile (n : Node) (removes : Bool) (id : Bytes) : Node :=
  if removes then n.setFile id none else n

def Node.removeMeta (n : Node) (removes : Bool) (id : Bytes) : Node :=
  if removes then n.setMeta id none else n

/-- A call either ends before it reaches etcd or has a merged part to commit. -/
inductive Prepared where
  | done (n : Node) (err : Option CompactErr)
  | ready (n : Node) (merged : PartMeta) (oldIDs : List Bytes)

/-- Merge the selected parts into the files of part `id`. -/
def Node.prepareMerge (U : Unicode) (n : Node) (io : CompactIO) (level : Int) (id : Bytes)
    (selected : List PartMeta) : Prepared :=
  if selected = [] then .done n none
  else
    match n.getParts io.opens selected with
    | (n, .error err) => .done n (some err)
    | (n, .ok pfs) =>
        let file := writePartV2Seq (mergeParts pfs) v2BlockRows
        match io.writePart with
        | .failed => .done n (some .writePart)
        | .failedAfterRename => .done (n.setFile id (some file)) (some .writePart)
        | .ok =>
            let n := n.setFile id (some file)
            let merged := mergedMeta U n.nodeID level id file
            if merged.count = 0 then .done (n.removeFile io.removes id) none
            else
              match io.writeMeta with
              | .failed => .done (n.removeFile io.removes id) (some .writeMeta)
              | .failedAfterRename =>
                  .done ((n.setMeta id (some merged)).removeFile io.removes id)
                    (some .writeMeta)
              | .ok => .ready (n.setMeta id (some merged)) merged (selected.map PartMeta.id)

/-- The transaction: the part's key is put, the old parts' keys are deleted. -/
def commitPart (active : List Bytes) (id : Bytes) (oldIDs : List Bytes) : List Bytes :=
  active.filter (fun a => !oldIDs.contains a && a != id) ++ [id]

/-- Replace the old parts by the merged one in the node's list. -/
def Node.publish (n : Node) (merged : PartMeta) (oldIDs : List Bytes) : Node :=
  let next := n.parts.filter fun p => !oldIDs.contains p.id
  { n with parts := if next.any fun p => p.id == merged.id then next else next ++ [merged] }

/-- After a failed `AppendLog` the merged part's files are removed. -/
def Node.abandon (n : Node) (io : CompactIO) (id : Bytes) : Node :=
  (n.removeFile io.removes id).removeMeta io.removesMeta id

/-- `id` is the new part's, from `newPartID`. -/
structure CompactCall where
  level : Int
  force : Bool
  id : Bytes
  io : CompactIO

def World.compactLevel (U : Unicode) (w : World) (call : CompactCall) :
    World × Option CompactErr :=
  match w.node.prepareMerge U call.io call.level call.id
      (w.node.selectParts call.level call.force) with
  | .done n err => ({ w with node := n }, err)
  | .ready n merged oldIDs =>
      match call.io.append with
      | .committed => (⟨n.publish merged oldIDs, commitPart w.active merged.id oldIDs⟩, none)
      | .notCommitted => ({ w with node := n.abandon call.io merged.id }, some .appendLog)
      | .committedError =>
          (⟨n.abandon call.io merged.id, commitPart w.active merged.id oldIDs⟩,
            some .appendLog)

/-- Nothing of this name exists yet, as for every ID of `newPartID`. -/
def World.Fresh (w : World) (id : Bytes) : Prop :=
  id ∉ w.active ∧ w.node.files id = none ∧ w.node.fds id = none ∧
    id ∉ w.node.parts.map PartMeta.id

instance (w : World) (id : Bytes) : Decidable (w.Fresh id) :=
  inferInstanceAs (Decidable (_ ∧ _ ∧ _ ∧ _))

/-! ## What the sections do -/

theorem mem_commitPart {active oldIDs : List Bytes} {id a : Bytes} :
    a ∈ commitPart active id oldIDs ↔ a ∈ active ∧ a ∉ oldIDs ∧ a ≠ id ∨ a = id := by
  simp [commitPart]

theorem mem_selectParts {n : Node} {level : Int} {force : Bool} {p : PartMeta}
    (h : p ∈ n.selectParts level force) :
    p ∈ n.parts ∧ p.level = level ∧ p.nodeID = n.nodeID := by
  unfold Node.selectParts at h
  simp only at h
  split_ifs at h
  · simp at h
  · have hsort := (List.perm_insertionSort _ _).mem_iff.mp (List.mem_of_mem_take h)
    simpa [Node.levelParts] using hsort

theorem nodup_selectParts {n : Node} (hparts : (n.parts.map PartMeta.id).Nodup) (level : Int)
    (force : Bool) : ((n.selectParts level force).map PartMeta.id).Nodup := by
  unfold Node.selectParts
  simp only
  split_ifs
  · exact List.nodup_nil
  · have hlevel : ((n.levelParts level).map PartMeta.id).Nodup :=
      hparts.sublist (List.filter_sublist.map _)
    have hperm : (sortByMinTimestamp (n.levelParts level)).Perm (n.levelParts level) :=
      List.perm_insertionSort _ _
    have hsort := (hperm.map PartMeta.id).nodup_iff.mpr hlevel
    exact hsort.sublist ((List.take_sublist _ _).map _)

/-- Two nodes that list and read the same; their open files may differ. -/
structure Node.Same (n n' : Node) : Prop where
  nodeID : n'.nodeID = n.nodeID
  parts : n'.parts = n.parts
  files : n'.files = n.files
  content : n'.content = n.content

theorem Node.Same.refl (n : Node) : n.Same n := ⟨rfl, rfl, rfl, rfl⟩

theorem Node.Same.trans {a b c : Node} (hab : a.Same b) (hbc : b.Same c) : a.Same c :=
  ⟨hbc.nodeID.trans hab.nodeID, hbc.parts.trans hab.parts, hbc.files.trans hab.files,
    hbc.content.trans hab.content⟩

theorem same_getPart (n : Node) (opens : Bytes → Bool) (id : Bytes) :
    n.Same (n.getPart opens id).1 := by
  unfold Node.getPart
  cases hfd : n.fds id with
  | some f => exact Node.Same.refl n
  | none =>
      cases hfile : n.files id with
      | none => exact Node.Same.refl n
      | some f =>
          by_cases hopen : opens id = true
          · simp only [hopen, if_true]
            refine ⟨rfl, rfl, rfl, ?_⟩
            funext a
            by_cases ha : a = id
            · subst ha
              simp [Node.content, hfd, hfile]
            · simp [Node.content, ha]
          · simp only [hopen]
            exact Node.Same.refl n

theorem content_of_found {n : Node} {opens : Bytes → Bool} {id : Bytes} {f : PartFile}
    (h : (n.getPart opens id).2 = .found f) : n.content id = some f := by
  unfold Node.getPart at h
  cases hfd : n.fds id with
  | some g =>
      simp only [hfd, Opened.found.injEq] at h
      simp [Node.content, hfd, h]
  | none =>
      cases hfile : n.files id with
      | none => simp [hfd, hfile] at h
      | some g =>
          simp only [hfd, hfile] at h
          split_ifs at h
          rw [Opened.found.injEq] at h
          simp [Node.content, hfd, hfile, h]

theorem fds_getPart {n : Node} {opens : Bytes → Bool} {id a : Bytes} (ha : a ≠ id) :
    (n.getPart opens id).1.fds a = n.fds a := by
  unfold Node.getPart
  cases n.fds id with
  | some f => rfl
  | none =>
      cases n.files id with
      | none => rfl
      | some f => by_cases hopen : opens id = true <;> simp [hopen, ha]

/-- What opening the selected parts leaves and yields. -/
structure GotParts (n n' : Node) (ms : List PartMeta)
    (r : Except CompactErr (List PartFile)) : Prop where
  same : n.Same n'
  fds : ∀ a ∉ ms.map PartMeta.id, n'.fds a = n.fds a
  found : ∀ pfs, r = .ok pfs → List.Forall₂ (fun m f => n.content m.id = some f) ms pfs

theorem gotParts_getParts (n : Node) (opens : Bytes → Bool) (ms : List PartMeta) :
    GotParts n (n.getParts opens ms).1 ms (n.getParts opens ms).2 := by
  induction ms generalizing n with
  | nil =>
      refine ⟨Node.Same.refl n, fun _ _ => rfl, ?_⟩
      intro pfs hpfs
      obtain rfl := Except.ok.inj hpfs
      exact List.Forall₂.nil
  | cons m ms ih =>
      have hsame := same_getPart n opens m.id
      have hfound := @content_of_found n opens m.id
      have hfds := @fds_getPart n opens m.id
      rw [Node.getParts]
      rcases hget : n.getPart opens m.id with ⟨n₁, f | _ | _⟩
      all_goals simp only [hget] at hsame hfound hfds
      · have hrest := ih n₁
        have hcontent := hfound rfl
        rcases hmore : n₁.getParts opens ms with ⟨n₂, err | fs⟩
        all_goals
          simp only [hmore] at hrest ⊢
          refine ⟨hsame.trans hrest.same, ?_, ?_⟩
          · intro a ha
            rw [List.map_cons, List.mem_cons, not_or] at ha
            rw [hrest.fds a ha.2, hfds ha.1]
        · intro pfs hpfs
          simp at hpfs
        · intro pfs hpfs
          obtain rfl := Except.ok.inj hpfs
          refine List.Forall₂.cons hcontent ?_
          have htail := hrest.found fs rfl
          rwa [hsame.content] at htail
      all_goals
        refine ⟨hsame, ?_, by simp⟩
        intro a ha
        rw [List.map_cons, List.mem_cons, not_or] at ha
        exact hfds ha.1

/-- Only the files of part `id` differ. -/
structure Node.SameBut (n n' : Node) (id : Bytes) : Prop where
  nodeID : n'.nodeID = n.nodeID
  parts : n'.parts = n.parts
  files : ∀ a, a ≠ id → n'.files a = n.files a
  content : ∀ a, a ≠ id → n'.content a = n.content a

theorem Node.Same.but {n n' : Node} (h : n.Same n') (id : Bytes) : n.SameBut n' id :=
  ⟨h.nodeID, h.parts, fun a _ => by rw [h.files], fun a _ => by rw [h.content]⟩

theorem Node.SameBut.setFile {n n' : Node} {id : Bytes} (h : n.SameBut n' id)
    (f : Option PartFile) : n.SameBut (n'.setFile id f) id := by
  refine ⟨h.nodeID, h.parts, ?_, ?_⟩
  · intro a ha
    rw [← h.files a ha]
    simp [Node.setFile, ha]
  · intro a ha
    rw [← h.content a ha]
    simp [Node.content, Node.setFile, ha]

theorem Node.SameBut.setMeta {n n' : Node} {id : Bytes} (h : n.SameBut n' id)
    (m : Option PartMeta) : n.SameBut (n'.setMeta id m) id :=
  ⟨h.nodeID, h.parts, h.files, h.content⟩

theorem Node.SameBut.removeFile {n n' : Node} {id : Bytes} (h : n.SameBut n' id)
    (removes : Bool) : n.SameBut (n'.removeFile removes id) id := by
  unfold Node.removeFile
  split_ifs
  · exact h.setFile none
  · exact h

theorem Node.SameBut.removeMeta {n n' : Node} {id : Bytes} (h : n.SameBut n' id)
    (removes : Bool) : n.SameBut (n'.removeMeta removes id) id := by
  unfold Node.removeMeta
  split_ifs
  · exact h.setMeta none
  · exact h

theorem Node.SameBut.rows {n n' : Node} {id a : Bytes} (h : n.SameBut n' id) (ha : a ≠ id) :
    n'.rows a = n.rows a := by
  rw [Node.rows, Node.rows, h.content a ha]

theorem Node.SameBut.onDisk {n n' : Node} {id a : Bytes} (h : n.SameBut n' id) (ha : a ≠ id) :
    n'.onDisk a = n.onDisk a := by
  rw [Node.onDisk, Node.onDisk, h.files a ha, h.rows ha]

/-- What a call that reaches etcd has done: the merged part's files hold the rows of
the selected parts. -/
structure Merged (U : Unicode) (n n' : Node) (level : Int) (id : Bytes)
    (selected : List PartMeta) (merged : PartMeta) (oldIDs : List Bytes) : Prop where
  same : n.SameBut n' id
  oldIDs : oldIDs = selected.map PartMeta.id
  count : merged.count ≠ 0
  fds : id ∉ selected.map PartMeta.id → n'.fds id = n.fds id
  file : ∃ pfs, List.Forall₂ (fun m f => n.content m.id = some f) selected pfs ∧
    n'.files id = some (writePartV2Seq (mergeParts pfs) v2BlockRows) ∧
    merged = mergedMeta U n.nodeID level id (writePartV2Seq (mergeParts pfs) v2BlockRows)

theorem prepareMerge_cases (U : Unicode) (n : Node) (io : CompactIO) (level : Int) (id : Bytes)
    (selected : List PartMeta) :
    (∃ n' err, n.prepareMerge U io level id selected = .done n' err ∧ n.SameBut n' id) ∨
      ∃ n' merged oldIDs, n.prepareMerge U io level id selected = .ready n' merged oldIDs ∧
        Merged U n n' level id selected merged oldIDs := by
  unfold Node.prepareMerge
  by_cases hnil : selected = []
  · rw [if_pos hnil]
    exact Or.inl ⟨n, none, rfl, (Node.Same.refl n).but id⟩
  rw [if_neg hnil]
  have hgot := gotParts_getParts n io.opens selected
  rcases hparts : n.getParts io.opens selected with ⟨n₁, err | pfs⟩
  all_goals rw [hparts] at hgot
  · exact Or.inl ⟨n₁, some err, rfl, hgot.same.but id⟩
  have hput := (hgot.same.but id).setFile
    (some (writePartV2Seq (mergeParts pfs) v2BlockRows))
  simp only
  cases io.writePart with
  | failed => exact Or.inl ⟨n₁, _, rfl, hgot.same.but id⟩
  | failedAfterRename => exact Or.inl ⟨_, _, rfl, hput⟩
  | ok =>
      simp only
      split_ifs with hcount
      · exact Or.inl ⟨_, _, rfl, hput.removeFile _⟩
      · cases io.writeMeta with
        | failed => exact Or.inl ⟨_, _, rfl, hput.removeFile _⟩
        | failedAfterRename => exact Or.inl ⟨_, _, rfl, (hput.setMeta _).removeFile _⟩
        | ok =>
            refine Or.inr ⟨_, _, _, rfl, hput.setMeta _, rfl, hcount, ?_, pfs, ?_, ?_, ?_⟩
            · exact hgot.fds id
            · exact hgot.found pfs rfl
            · simp [Node.setMeta, Node.setFile]
            · rw [← hgot.same.nodeID]
              rfl

/-- The metadata files are the same, except that part `id` of a node may have got one. -/
def Node.GainsMeta (n n' : Node) (id nodeID : Bytes) : Prop :=
  n'.metas = n.metas ∨ ∃ m : PartMeta, m.id = id ∧ m.nodeID = nodeID ∧
    n'.metas = Function.update n.metas id (some m)

theorem Node.GainsMeta.isSome {n n' : Node} {id owner a : Bytes} (h : n.GainsMeta n' id owner)
    (ha : (n.metas a).isSome = true) : (n'.metas a).isSome = true := by
  rcases h with hsame | ⟨m, -, -, hnew⟩
  · rwa [hsame]
  · rw [hnew]
    by_cases heq : a = id
    · rw [heq, Function.update_self]
      rfl
    · rwa [Function.update_of_ne heq]

/-- A property of the metadata files that the new one has too. -/
theorem Node.GainsMeta.all {n n' : Node} {id owner : Bytes} (h : n.GainsMeta n' id owner)
    {P : Bytes → PartMeta → Prop} (hP : ∀ a m, n.metas a = some m → P a m)
    (hnew : ∀ m : PartMeta, m.id = id → m.nodeID = owner → P id m) :
    ∀ a m, n'.metas a = some m → P a m := by
  intro a m hm
  rcases h with hsame | ⟨x, hid, howner, hupdate⟩
  · rw [hsame] at hm
    exact hP a m hm
  · rw [hupdate] at hm
    by_cases heq : a = id
    · subst heq
      rw [Function.update_self, Option.some.injEq] at hm
      exact hnew m (hm ▸ hid) (hm ▸ howner)
    · rw [Function.update_of_ne heq] at hm
      exact hP a m hm

theorem metas_getPart (n : Node) (opens : Bytes → Bool) (id : Bytes) :
    (n.getPart opens id).1.metas = n.metas := by
  unfold Node.getPart
  cases n.fds id with
  | some f => rfl
  | none =>
      cases n.files id with
      | none => rfl
      | some f => by_cases hopen : opens id = true <;> simp [hopen]

theorem metas_getParts (n : Node) (opens : Bytes → Bool) (ms : List PartMeta) :
    (n.getParts opens ms).1.metas = n.metas := by
  induction ms generalizing n with
  | nil => rfl
  | cons m ms ih =>
      have hmetas := metas_getPart n opens m.id
      rw [Node.getParts]
      rcases hget : n.getPart opens m.id with ⟨n₁, f | _ | _⟩
      all_goals simp only [hget] at hmetas ⊢
      · have hrest := ih n₁
        rcases hmore : n₁.getParts opens ms with ⟨n₂, err | fs⟩
        all_goals
          simp only [hmore] at hrest ⊢
          exact hrest.trans hmetas
      all_goals exact hmetas

section MergedPart

variable {U : Unicode} {n n' : Node} {level : Int} {id : Bytes} {selected : List PartMeta}
  {merged : PartMeta} {oldIDs : List Bytes}

theorem Merged.id_eq (h : Merged U n n' level id selected merged oldIDs) : merged.id = id := by
  obtain ⟨pfs, -, -, hmeta⟩ := h.file
  rw [hmeta]
  rfl

theorem flatMap_rows_of_content {ms : List PartMeta} {pfs : List PartFile}
    (h : List.Forall₂ (fun m f => n.content m.id = some f) ms pfs) :
    pfs.flatMap PartFile.rows = (ms.map PartMeta.id).flatMap n.rows := by
  induction h with
  | nil => rfl
  | cons hf _ ih =>
      rw [List.map_cons, List.flatMap_cons, List.flatMap_cons, ih, Node.rows, hf]
      rfl

/-- The merged part holds the rows of the selected parts. -/
theorem Merged.rows (h : Merged U n n' level id selected merged oldIDs)
    (hfds : n.fds id = none) (hid : id ∉ selected.map PartMeta.id) :
    (n'.rows id).Perm ((selected.map PartMeta.id).flatMap n.rows) := by
  obtain ⟨pfs, hcontents, hfile, -⟩ := h.file
  have hcontent : n'.content id = some (writePartV2Seq (mergeParts pfs) v2BlockRows) := by
    rw [Node.content, h.fds hid, hfds, hfile]
    rfl
  have hrows : n'.rows id = mergeParts pfs := by
    rw [Node.rows, hcontent, Option.map_some, rows_writePartV2Seq]
    rfl
  rw [hrows, ← flatMap_rows_of_content hcontents]
  exact mergeParts_perm pfs

end MergedPart

/-- How a call can end. -/
inductive CompactEnds (U : Unicode) (w : World) (call : CompactCall) :
    World × Option CompactErr → Prop where
  | done {n err}
      (hprep : w.node.prepareMerge U call.io call.level call.id
        (w.node.selectParts call.level call.force) = .done n err)
      (hsame : w.node.SameBut n call.id) : CompactEnds U w call (⟨n, w.active⟩, err)
  | committed {n part oldIDs}
      (hprep : w.node.prepareMerge U call.io call.level call.id
        (w.node.selectParts call.level call.force) = .ready n part oldIDs)
      (hmerged : Merged U w.node n call.level call.id
        (w.node.selectParts call.level call.force) part oldIDs)
      (happend : call.io.append = .committed) :
      CompactEnds U w call
        (⟨n.publish part oldIDs, commitPart w.active part.id oldIDs⟩, none)
  | notCommitted {n part oldIDs}
      (hprep : w.node.prepareMerge U call.io call.level call.id
        (w.node.selectParts call.level call.force) = .ready n part oldIDs)
      (hmerged : Merged U w.node n call.level call.id
        (w.node.selectParts call.level call.force) part oldIDs)
      (happend : call.io.append = .notCommitted) :
      CompactEnds U w call (⟨n.abandon call.io part.id, w.active⟩, some .appendLog)
  | committedError {n part oldIDs}
      (hprep : w.node.prepareMerge U call.io call.level call.id
        (w.node.selectParts call.level call.force) = .ready n part oldIDs)
      (hmerged : Merged U w.node n call.level call.id
        (w.node.selectParts call.level call.force) part oldIDs)
      (happend : call.io.append = .committedError) :
      CompactEnds U w call
        (⟨n.abandon call.io part.id, commitPart w.active part.id oldIDs⟩, some .appendLog)

theorem compactEnds (U : Unicode) (w : World) (call : CompactCall) :
    CompactEnds U w call (w.compactLevel U call) := by
  unfold World.compactLevel
  rcases prepareMerge_cases U w.node call.io call.level call.id
    (w.node.selectParts call.level call.force) with
    ⟨n, err, hprep, hsame⟩ | ⟨n, part, oldIDs, hprep, hmerged⟩
  · rw [hprep]
    exact .done hprep hsame
  · rw [hprep]
    cases happend : call.io.append with
    | committed => exact .committed hprep hmerged happend
    | notCommitted => exact .notCommitted hprep hmerged happend
    | committedError => exact .committedError hprep hmerged happend

theorem Merged.abandon {U : Unicode} {n n' : Node} {level : Int} {id : Bytes}
    {selected : List PartMeta} {part : PartMeta} {oldIDs : List Bytes}
    (h : Merged U n n' level id selected part oldIDs) (io : CompactIO) :
    n.SameBut (n'.abandon io part.id) id := by
  rw [h.id_eq]
  exact (h.same.removeFile _).removeMeta _

/-! ## Entries of a world -/

def listed (w : World) : List Bytes := w.node.parts.map PartMeta.id

/-- The entries over the parts in the node's list. -/
def partEntries (w : World) : List Entry := (listed w).flatMap w.node.rows

/-- The entries over the parts active in etcd. -/
def activeEntries (w : World) : List Entry := w.active.flatMap w.node.rows

/-- Taking a sublist of distinct members out and putting its image back. -/
theorem flatMap_filter_append {α β : Type} [BEq α] [LawfulBEq α] {ids old : List α}
    (hids : ids.Nodup) (hold : old.Nodup) (hsub : ∀ a ∈ old, a ∈ ids) (g : α → List β) :
    ((ids.filter fun a => !old.contains a).flatMap g ++ old.flatMap g).Perm
      (ids.flatMap g) := by
  have hin : (ids.filter fun a => old.contains a).Perm old := by
    rw [List.perm_ext_iff_of_nodup (hids.filter _) hold]
    intro a
    rw [List.mem_filter, List.contains_iff_mem]
    exact ⟨And.right, fun ha => ⟨hsub a ha, ha⟩⟩
  have hsplit := List.filter_append_perm (fun a => old.contains a) ids
  have hback := (List.perm_append_comm.trans (hin.symm.append_right _)).trans hsplit
  rw [← List.flatMap_append]
  exact hback.flatMap_right g

theorem commitPart_of_not_mem {active oldIDs : List Bytes} {id : Bytes} (hid : id ∉ active) :
    commitPart active id oldIDs = (active.filter fun a => !oldIDs.contains a) ++ [id] := by
  have hfilter : active.filter (fun a => !oldIDs.contains a && a != id) =
      active.filter fun a => !oldIDs.contains a := by
    apply List.filter_congr
    intro a ha
    have hne : a ≠ id := fun heq => hid (heq ▸ ha)
    simp [hne]
  rw [commitPart, hfilter]

theorem parts_publish {n : Node} {part : PartMeta} {oldIDs : List Bytes}
    (hnew : part.id ∉ n.parts.map PartMeta.id) :
    (n.publish part oldIDs).parts =
      (n.parts.filter fun p => !oldIDs.contains p.id) ++ [part] := by
  have hany : ¬ (n.parts.filter fun p => !oldIDs.contains p.id).any
      (fun p => p.id == part.id) = true := by
    rw [List.any_eq_true]
    intro h
    obtain ⟨p, hp, heq⟩ := h
    exact hnew (List.mem_map.mpr ⟨p, (List.mem_filter.mp hp).1, beq_iff_eq.mp heq⟩)
  simp only [Node.publish, if_neg hany]

theorem listed_publish {n : Node} {part : PartMeta} {oldIDs : List Bytes}
    (hnew : part.id ∉ n.parts.map PartMeta.id) :
    (n.publish part oldIDs).parts.map PartMeta.id =
      ((n.parts.map PartMeta.id).filter fun a => !oldIDs.contains a) ++ [part.id] := by
  rw [parts_publish hnew, List.map_append, List.filter_map]
  rfl

end Shrimpd.Lsm
