import Silo.Read
import Silo.Tid

/-!
# Histories of writes

Committers write a key's versions one after another: each write goes to the
current head, and a replacement `write_record_at` returns becomes the new head.
`snapshotRead` is what a snapshot read should see after such a history: the
last write at or before the read tid.
-/

namespace Silo.History

open Silo.Header Silo.Node Silo.Write Silo.Read

/-- The writes `ws`, oldest first, applied to the chain headed at `s.2`, each
to the current head; a returned replacement becomes the head. -/
def applyWrites (c : Tid → Tid → Bool) : Heap × Ptr → List (Tid × List UInt8) → Heap × Ptr
  | s, [] => s
  | (heap, head), (t, r) :: ws =>
      let (heap', _, rep) := writeRecordAt c heap head t r
      applyWrites c (heap', rep.getD head) ws

/-- Modelled from the spec: after the writes `ws`, oldest first, a read at `t'`
sees the last write whose tid is at most `t'`, or the absent record at
`MIN_TID` if there is none. -/
def snapshotRead (ws : List (Tid × List UInt8)) (t' : Tid) : Tid × List UInt8 :=
  ((ws.filter fun w => w.1 ≤ t').getLast?).getD (minTid, [])

/-- `stable_read` on the head a history leaves. -/
def readAfter (c : Tid → Tid → Bool) (allocSz : BitVec 64) (ws : List (Tid × List UInt8))
    (t' : Tid) : Option (Tid × List UInt8) :=
  let s := applyWrites c (allocFirst [] allocSz) ws
  stableRead (chainFrom s.1 s.2) t'

/-- The history "abc" at tid 1, then "x" at tid 2, on a chain from
`alloc_first(0)`: under the base policy, and under the epoch policy with the
second write in a later epoch, a snapshot read at tid 1 returns "a" where the
history says "abc". -/
theorem readAfter_spill_in_place_truncates :
    snapshotRead [(1, [97, 98, 99]), (2, [120])] 1 = (1, [97, 98, 99]) ∧
      readAfter (fun _ _ => false) 0 [(1, [97, 98, 99]), (2, [120])] 1 = some (1, [97]) ∧
      snapshotRead [(1, [97, 98, 99]), (BitVec.ofNat 64 (2 ^ 37), [120])] 1 = (1, [97, 98, 99]) ∧
      readAfter (Silo.Tid.EpochLayout.canOverwriteRecordTid ⟨10, 1024, rfl, by decide⟩) 0
        [(1, [97, 98, 99]), (BitVec.ofNat 64 (2 ^ 37), [120])] 1 = some (1, [97]) := by
  decide

end Silo.History
