import Shrimpd.Lsm.Compact

/-!
# A compaction whose commit is not acknowledged

Whether the entries of the merged parts survive a compaction and the garbage
collection after it, for every answer of the disk and of etcd.  They do unless
the transaction commits, its acknowledgement is lost, and the clean-up removes
the merged file that etcd now points to.
-/

namespace Shrimpd.Lsm

open Shrimpd.Lib Shrimpd.Types Shrimpd.Block

variable {U : Unicode} {w : World} {call : CompactCall}

/-- The entry is in a listed part that is active in etcd and has its data file. -/
def World.Held (w : World) (e : Entry) : Prop :=
  ∃ p ∈ w.node.parts, p.id ∈ w.active ∧ e ∈ w.node.onDisk p.id

/-- The call gets as far as `AppendLog`. -/
def CompactCall.Reaches (U : Unicode) (w : World) (call : CompactCall) : Prop :=
  ∃ n merged oldIDs, w.node.prepareMerge U call.io call.level call.id
    (w.node.selectParts call.level call.force) = .ready n merged oldIDs

/-- The transaction commits, `AppendLog` reports an error, and the merged file is removed. -/
def CompactCall.Lost (U : Unicode) (w : World) (call : CompactCall) : Prop :=
  call.Reaches U w ∧ call.io.append = .committedError ∧ call.io.removes = true

def CompactCall.selected (w : World) (call : CompactCall) : List PartMeta :=
  w.node.selectParts call.level call.force

def soloRow : Entry := ⟨7, ascii "disk full"⟩

def soloFile : PartFile := writePartV2 [soloRow]

/-- A node whose only part is active and on disk. -/
def soloWorld : World where
  node :=
    { nodeID := ascii "n1"
      parts := [flushMeta Unicode.asciiOnly (ascii "n1") (ascii "1-1-n1") soloFile]
      files := fun id => if id = ascii "1-1-n1" then some soloFile else none
      metas := fun id => if id = ascii "1-1-n1" then
        some (flushMeta Unicode.asciiOnly (ascii "n1") (ascii "1-1-n1") soloFile) else none
      fds := fun _ => none }
  active := [ascii "1-1-n1"]

/-- A forced compaction of level 0 with a given fate of its transaction. -/
def soloCall (append : AppendOutcome) : CompactCall :=
  ⟨0, true, ascii "2-2-n1", { CompactIO.good with append := append }⟩

end Shrimpd.Lsm
