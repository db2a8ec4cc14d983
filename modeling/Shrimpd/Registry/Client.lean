import Shrimpd.Registry.Keys
import Shrimpd.Lib.Etcd
import Shrimpd.Lsm.Converge

/-!
# The registry's calls

Each call of the registry is a sequence of reads and transactions on etcd, with
anything in between.  An append reads the last log key, or the base key when the
log is empty, and then commits under a comparison of the base key's revision; it
is tried again when the comparison fails.  Log cleanup reads the active nodes,
then their pointers, and then deletes a range of log keys.
-/

namespace Shrimpd.Registry

open Shrimpd.Lib Shrimpd.Lib.Etcd Shrimpd.Types Shrimpd.Lsm.Replication

/-! ## What is stored -/

/-- A log entry with its index. -/
structure LogRecord where
  index : Int
  entry : LogEntry

inductive Value where
  | record (r : LogRecord)
  | part (m : PartMeta)
  | text (b : Bytes)
  | node (id : Bytes)

abbrev Data := Contents Bytes Value

def Value.part? : Value → Option PartMeta
  | .part m => some m
  | _ => none

def Value.record? : Value → Option LogRecord
  | .record r => some r
  | _ => none

/-- A decimal number; none for any other value. -/
def Value.number? : Value → Option Int
  | .text b => parseInt64 b
  | _ => none

/-! ## Appending -/

def maxMergeTxnDeletes : Nat := 64

/-- Tokens are not stored in etcd. -/
def etcdPart (m : PartMeta) : PartMeta := { m with tokens := [] }

def etcdEntry (e : LogEntry) : LogEntry := { e with part := etcdPart e.part }

/-- The old parts that the transaction itself deletes. -/
def firstBatch (e : LogEntry) : List Bytes :=
  match e.op with
  | .put => []
  | .merge => e.oldParts.take maxMergeTxnDeletes

def remaining (e : LogEntry) : List Bytes :=
  match e.op with
  | .put => []
  | .merge => e.oldParts.drop maxMergeTxnDeletes

def deletePart (id : Bytes) : Op Bytes Value := .delete (· == partKey id)

def appendOps (index : Int) (e : LogEntry) : List (Op Bytes Value) :=
  [.put baseKey (.text (format16 index)), .put (logKey index) (.record ⟨index, etcdEntry e⟩),
    .put (partKey e.part.id) (.part (etcdPart e.part))] ++ (firstBatch e).map deletePart

/-- `r.cli.Get(ctx, logPrefix+"/", clientv3.WithLastKey()...)`. -/
def lastLog (c : Data) : Option (KV Bytes Value) := c.last logDir.isPrefixOf

def keyIndex (kv : KV Bytes Value) : Option Int := parseInt64 (pathBase kv.key)

/-- The next index according to the base key; none if it cannot be parsed. -/
def baseNext (c : Data) : Option Int :=
  match c.find baseKey with
  | none => some 1
  | some kv =>
      match kv.value with
      | .text [] => some 1
      | v => v.number?.map (· + 1)

/-- The old parts that still have a key. -/
def aliveParts (c : Data) (oldIDs : List Bytes) : List Bytes :=
  ((c.range partsPrefix.isPrefixOf).map fun kv => kv.key.drop partsPrefix.length).filter
    fun id => oldIDs.contains id

/-! ## Reading the log, parts and nodes -/

/-- `decodes` says under which keys the value can be decoded. -/
def getLogs (c : Data) (fromIndex limit : Int) (decodes : Bytes → Bool) : List LogRecord :=
  ((c.range fun key => logKey fromIndex ≤ key ∧ key < logKey 9999999999999999).take
    (if limit ≤ 0 then 1 else limit).toNat).filterMap
    fun kv => if decodes kv.key then kv.value.record? else none

def logEntryExists (c : Data) (index : Int) : Bool := (c.find (logKey index)).isSome

/-- Zero if none is stored; none for a value that is not a number. -/
def getQueuePointer (c : Data) (nodeID : Bytes) : Option Int :=
  match c.find (pointerKey nodeID) with
  | none => some 0
  | some kv => kv.value.number?

def activeParts (c : Data) : List PartMeta :=
  (c.range partsPrefix.isPrefixOf).filterMap fun kv => kv.value.part?

/-- The highest log index, or zero. -/
def latestIndex (c : Data) : Int := ((lastLog c).bind keyIndex).getD 0

def getActiveNodes (c : Data) : List Bytes :=
  ((c.range nodePrefix.isPrefixOf).filter fun kv => !pointerSuffix.isSuffixOf kv.key).map
    fun kv => kv.key.drop nodePrefix.length

/-- A key that ends like a pointer's and has no room for a node panics. -/
def getNodeQueuePointers (c : Data) : Option (Bytes → Option Int) :=
  ((c.range nodePrefix.isPrefixOf).filter fun kv => pointerSuffix.isSuffixOf kv.key).foldlM
    (fun ptrs kv =>
      (pointerNode kv.key).map fun id =>
        match kv.value.number? with
        | none => ptrs
        | some p => Function.update ptrs id (some p))
    fun _ => none

/-- The lowest pointer of the active nodes, and the node that has it. -/
def minPointer (ptrs : Bytes → Option Int) (active : List Bytes) : Int × Bytes :=
  active.foldl
    (fun m id =>
      let p := (ptrs id).getD 0
      if m.1 < 0 ∨ p < m.1 ∨ p = m.1 ∧ id < m.2 then (p, id) else m)
    (-1, [])

def deleteLogs (minPtr : Int) : Op Bytes Value :=
  .delete fun key => logKey 0 ≤ key ∧ key < logKey minPtr

/-! ## Calls -/

/-- Where a call stands; `tries` is how often its loop may still run. -/
inductive Call where
  | appendLog (e : LogEntry) (tries : Nat)
  | logEmpty (e : LogEntry) (tries : Nat)
  | nextIndex (e : LogEntry) (tries : Nat) (index : Int) (revision : Nat)
  | deleteOldParts (index : Int) (oldIDs : List Bytes) (tries : Nat)
  | deleteBatch (index : Int) (oldIDs batch : List Bytes) (tries : Nat)
  | appended (index : Int)
  | getSnapshot
  | snapshotIndex (index : Int) (revision : Nat)
  | gotSnapshot (index : Int) (parts : List PartMeta)
  | logCleanup (nodeID : Bytes)
  | activeNodes (nodeID : Bytes) (active : List Bytes)
  | deleteBelow (active : List Bytes) (minPtr : Int)
  | cleaned
  | failed
  deriving DecidableEq

/-- The call has not begun. -/
def Call.Idle : Call → Prop
  | .appendLog _ _ | .getSnapshot | .logCleanup _ => True
  | _ => False

instance : ∀ c : Call, Decidable c.Idle
  | .appendLog _ _ | .getSnapshot | .logCleanup _ => inferInstanceAs (Decidable True)
  | .logEmpty _ _ | .nextIndex _ _ _ _ | .deleteOldParts _ _ _ | .deleteBatch _ _ _ _
  | .appended _ | .snapshotIndex _ _ | .gotSnapshot _ _ | .activeNodes _ _ | .deleteBelow _ _
  | .cleaned | .failed => inferInstanceAs (Decidable False)

/-- A request is answered, or fails, or takes effect although the caller gets an error. -/
inductive Answer where
  | ok
  | failed
  | failedAfter
  deriving DecidableEq, Repr

/-- A committed append: who made it, what it wrote and at which revision. -/
structure Commit (ι : Type) where
  caller : ι
  record : LogRecord
  revision : Nat

/-- `commits` is a ghost: all committed appends in the order of their transactions. -/
structure State (ι : Type) where
  etcd : Store Bytes Value
  calls : ι → Call
  commits : List (Commit ι)

inductive Label (ι : Type) where
  | advance (i : ι) (answer : Answer)
  | setQueuePointer (nodeID : Bytes) (index : Int)
  | registerNode (nodeID : Bytes)
  | expireNode (nodeID : Bytes)

section Step

variable {ι : Type}

def State.start (calls : ι → Call) : State ι := ⟨.empty, calls, []⟩

def State.write (s : State ι) (ops : List (Op Bytes Value)) : State ι :=
  { s with etcd := s.etcd.commit ops }

/-- The transaction of an append takes effect. -/
def State.append (s : State ι) (i : ι) (index : Int) (e : LogEntry) : State ι :=
  { s.write (appendOps index e) with
    commits := s.commits ++ [⟨i, ⟨index, etcdEntry e⟩, s.etcd.revision + 1⟩] }

variable [DecidableEq ι]

def State.move (s : State ι) (i : ι) (c : Call) : State ι :=
  { s with calls := Function.update s.calls i c }

/-- A read that is answered goes on as `f` says. -/
def State.reads (s : State ι) (i : ι) (answer : Answer) (f : Data → Call) : State ι :=
  match answer with
  | .ok => s.move i (f s.etcd.now)
  | _ => s.move i .failed

/-- After the commit, the old parts that are left are deleted; a failure is only logged. -/
def afterAppend (index : Int) (e : LogEntry) : Call :=
  if remaining e = [] then .appended index else .deleteOldParts index (remaining e) 100

/-- The transaction of an append, under the comparison of the base key's revision. -/
def State.tryAppend (s : State ι) (i : ι) (answer : Answer) (e : LogEntry) (tries : Nat)
    (index : Int) (revision : Nat) : State ι :=
  if valid (appendOps index e) = false then s.move i .failed
  else if s.etcd.now.modRev baseKey < revision + 1 then
    match answer with
    | .ok => (s.append i index e).move i (afterAppend index e)
    | .failed => s.move i .failed
    | .failedAfter => (s.append i index e).move i .failed
  else
    match answer with
    | .ok => s.move i (.appendLog e (tries - 1))
    | _ => s.move i .failed

def advance (s : State ι) (i : ι) (answer : Answer) : Option (State ι) :=
  match s.calls i with
  | .appendLog e tries =>
      if tries = 0 then some (s.move i .failed)
      else
        some (s.reads i answer fun c =>
          match lastLog c with
          | none => .logEmpty e tries
          | some kv =>
              match keyIndex kv with
              | none => .failed
              | some n => .nextIndex e tries (n + 1) s.etcd.revision)
  | .logEmpty e tries =>
      some (s.reads i answer fun c =>
        match baseNext c with
        | none => .failed
        | some n => .nextIndex e tries n s.etcd.revision)
  | .nextIndex e tries index revision => some (s.tryAppend i answer e tries index revision)
  | .deleteOldParts index oldIDs tries =>
      if tries = 0 ∨ answer ≠ .ok ∨ aliveParts s.etcd.now oldIDs = [] then
        some (s.move i (.appended index))
      else
        some (s.move i (.deleteBatch index oldIDs
          ((aliveParts s.etcd.now oldIDs).take maxMergeTxnDeletes) tries))
  | .deleteBatch index oldIDs batch tries =>
      match answer with
      | .ok => some ((s.write (batch.map deletePart)).move i
          (.deleteOldParts index oldIDs (tries - 1)))
      | .failed => some (s.move i (.appended index))
      | .failedAfter => some ((s.write (batch.map deletePart)).move i (.appended index))
  | .getSnapshot =>
      some (s.reads i answer fun c => .snapshotIndex (latestIndex c) s.etcd.revision)
  | .snapshotIndex index revision =>
      some (s.reads i answer fun _ =>
        match s.etcd.version revision with
        | none => .failed
        | some c => .gotSnapshot index (activeParts c))
  | .logCleanup nodeID =>
      some (s.reads i answer fun c => .activeNodes nodeID (getActiveNodes c))
  | .activeNodes nodeID active =>
      some (s.reads i answer fun c =>
        match getNodeQueuePointers c with
        | none => .failed
        | some ptrs =>
            match minPointer ptrs active with
            | (minPtr, coordinator) =>
                if coordinator ≠ nodeID ∨ minPtr ≤ 0 then .cleaned
                else .deleteBelow active minPtr)
  | .deleteBelow _ minPtr =>
      match answer with
      | .ok => some ((s.write [deleteLogs minPtr]).move i .cleaned)
      | .failed => some (s.move i .failed)
      | .failedAfter => some ((s.write [deleteLogs minPtr]).move i .failed)
  | .appended _ | .gotSnapshot _ _ | .cleaned | .failed => none

def step (s : State ι) : Label ι → Option (State ι)
  | .advance i answer => advance s i answer
  | .setQueuePointer nodeID index =>
      some (s.write [.put (pointerKey nodeID) (.text (printInt index))])
  | .registerNode nodeID => some (s.write [.put (nodeKey nodeID) (.node nodeID)])
  | .expireNode nodeID => some (s.write [.delete (· == nodeKey nodeID)])

end Step

end Shrimpd.Registry
