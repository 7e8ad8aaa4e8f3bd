import Silo.Latest
import Silo.Versions

/-!
# Commits serialize

A committer runs `write_record_at` on the key's head while it holds the head's
lock, and swaps a replacement into the slot before it unlocks, so the next
committer locks the head the previous one left. Seen without the bits that only
the lock discipline uses (LOCKED, and the unlock count in VERSION), every state
of `Silo.Slot` that an interleaving reaches is the state its writes reach run
one after another: its heap is the heap `applyWrites` leaves for the ghost log of
the writes made, in the order they ran, their tids increase, and its newest
version is the head of that replay.

`stripLock` forgets those bits. `Serialized s` relates a state of the slot system
to the replay of its log, and it is a forward simulation: `lock()`, the swap,
`unlock()` and every step of the reader keep the log and the replay, and
`write_record_at(t, r)` appends `(t, r)` to the log and takes one write of the
replay. Through `Silo.Versions`, the chain from the newest version then keeps,
in every reachable state, every logged commit under the base policy and the last
logged commit of each epoch under the epoch policy.
-/

namespace Silo.Serial

open Silo.Header Silo.Node Silo.Write Silo.History Silo.Versions Silo.Slot Silo.Latest Silo.Tid

/-- A node whose header is reduced to its LATEST bit, as a history of writes run
one after another, with no lock taken, leaves it. -/
def stripLock (n : LogicalNode) : LogicalNode := { n with hdr := initHdr (isLatest n.hdr) }

/-! ## Writes commute with forgetting the lock bits -/

section Strip

@[simp] theorem stripLock_next (n : LogicalNode) : (stripLock n).next = n.next := rfl

@[simp] theorem stripLock_version (n : LogicalNode) : (stripLock n).version = n.version := rfl

@[simp] theorem stripLock_allocSize (n : LogicalNode) : (stripLock n).allocSize = n.allocSize := rfl

theorem setLatest_false_initHdr (latest : Bool) : setLatest false (initHdr latest) = initHdr false := by
  cases latest <;> decide

theorem stripLock_clearLatest (n : LogicalNode) : stripLock n.clearLatest = (stripLock n).clearLatest := by
  have h : isLatest (setLatest false n.hdr) = false := by simp
  simp only [stripLock, LogicalNode.clearLatest, h, setLatest_false_initHdr]

theorem stripLock_ofRecord (version : Tid) (value : List UInt8) (sz a : BitVec 64) (next : Option Ptr)
    (latest : Bool) :
    stripLock (LogicalNode.ofRecord version value sz a next latest) =
      LogicalNode.ofRecord version value sz a next latest := by
  rw [stripLock, LogicalNode.isLatest_ofRecord]
  rfl

theorem stripLock_first (a : BitVec 64) : stripLock (LogicalNode.first a) = LogicalNode.first a := by
  simp [stripLock, LogicalNode.first]

/-- `write_record_at` reads no lock bit: on the stripped heap it makes the
stripped cells and the same replacement. -/
theorem writeRecordAt_stripLock (c : Tid → Tid → Bool) (heap : Heap) (self : Ptr) (t : Tid)
    (r : List UInt8) :
    writeRecordAt c (heap.map stripLock) self t r =
      ((writeRecordAt c heap self t r).1.map stripLock, (writeRecordAt c heap self t r).2) := by
  unfold writeRecordAt
  rw [List.getElem?_map]
  cases heap[self]? with
  | none => rfl
  | some n =>
      dsimp only [Option.map_some', stripLock_version, stripLock_allocSize]
      split_ifs <;>
        simp only [alloc, List.map_set, List.map_append, List.map_cons, List.map_nil, List.length_map,
          List.length_set, stripLock_next, stripLock_clearLatest, stripLock_ofRecord] <;> rfl

/-- A header that keeps its LATEST bit leaves the stripped heap as it was. -/
theorem map_stripLock_set_hdr {heap : Heap} {q : Ptr} {n : LogicalNode} (hn : heap[q]? = some n)
    {w : BitVec 64} (hw : isLatest w = isLatest n.hdr) :
    (heap.set q { n with hdr := w }).map stripLock = heap.map stripLock := by
  refine List.ext_getElem? fun x => ?_
  rw [List.getElem?_map, List.getElem?_map, List.getElem?_set]
  split_ifs with hx hlt
  · subst hx
    simp only [hn, Option.map_some', stripLock, hw]
  · subst hx
    exact absurd (List.getElem?_eq_some_iff.1 hn).1 hlt
  · rfl

theorem walk_map_stripLock (heap : Heap) (fuel : Nat) (p : Option Ptr) :
    walk (heap.map stripLock) fuel p = (walk heap fuel p).map stripLock := by
  induction fuel generalizing p with
  | zero => rfl
  | succ fuel ih =>
      cases p with
      | none => rfl
      | some p => cases h : heap[p]? <;> simp [walk, h, ih, stripLock]

theorem chainFrom_map_stripLock (heap : Heap) (p : Ptr) :
    chainFrom (heap.map stripLock) p = (chainFrom heap p).map stripLock := by
  rw [chainFrom, List.length_map]
  exact walk_map_stripLock heap _ _

end Strip

/-! ## The simulation -/

section System

variable {τ : Type} [DecidableEq τ] {c : Tid → Tid → Bool} {t' : Tid} {allocSz : BitVec 64}
  {s s' : Sys τ}

/-- Up to lock bits and unlock counts, `s` is the state its logged writes, with
increasing tids, leave when run one after another on a chain from
`alloc_first(allocSz)`: the same cells, and its newest version at the head. -/
structure Serialized (c : Tid → Tid → Bool) (allocSz : BitVec 64) (s : Sys τ) : Prop where
  increasing : (minTid :: s.log.map (·.1)).Chain' (· < ·)
  heap_eq : s.heap.map stripLock = (applyWrites c (allocFirst [] allocSz) s.log).1
  newest_iff : ∀ q, Newest s q ↔ q = (applyWrites c (allocFirst [] allocSz) s.log).2

omit [DecidableEq τ] in
theorem serialized_init : Serialized c allocSz (init allocSz : Sys τ) :=
  ⟨List.chain'_singleton _, by simp [init, allocFirst, stripLock_first, applyWrites],
    fun _ => newest_of_none (s := (init allocSz : Sys τ)) fun _ => rfl⟩

omit [DecidableEq τ] in
/-- A step that keeps the log, the stripped heap and the newest version keeps
the replay. -/
theorem Serialized.of_heap (hser : Serialized c allocSz s) (hlog : s'.log = s.log)
    (hheap : s'.heap.map stripLock = s.heap.map stripLock) (hnewest : ∀ q, Newest s' q ↔ Newest s q) :
    Serialized c allocSz s' := by
  refine ⟨?_, ?_, fun q => ?_⟩ <;> rw [hlog]
  exacts [hser.increasing, hheap.trans hser.heap_eq, (hnewest q).trans (hser.newest_iff q)]

omit [DecidableEq τ] in
/-- The chain from the replay's head carries the abstract versions of the log. -/
theorem Serialized.versions (hser : Serialized c allocSz s) :
    (chainFrom s.heap (applyWrites c (allocFirst [] allocSz) s.log).2).map (·.version) =
      (s.log.map (·.1)).foldl (pushTid c) [minTid] := by
  rw [← versions_history c allocSz s.log, ← hser.heap_eq, chainFrom_map_stripLock, List.map_map]
  rfl

/-- `write_record_at(t, r)` on the locked head is the replay's next write. -/
theorem Serialized.write (hinv : Inv s) (hser : Serialized c allocSz s) {i : τ} {p : Ptr} {t : Tid}
    (r : List UInt8) (hlocked : s.committer i = .locked p)
    (hnewer : ∀ m ∈ chainFrom s.heap p, m.version < t) :
    Serialized c allocSz { s with
      heap := (writeRecordAt c s.heap p t r).1
      committer := Function.update s.committer i (.written p (writeRecordAt c s.heap p t r).2.2)
      log := s.log ++ [(t, r)] } := by
  have hinv' := hinv.write (c := c) r hlocked hnewer
  have hslot := hinv.locked_slot i p hlocked
  -- the head the committer writes is the replay's head
  have hp : p = (applyWrites c (allocFirst [] allocSz) s.log).2 := by
    refine (hser.newest_iff p).1 ((newest_of_owner hinv (i := i) (by simp [hlocked, hslot]) p).2 ?_)
    rw [hlocked, pendingRep_locked, Option.getD_none, hslot]
  subst hp
  have hstrip := writeRecordAt_stripLock c s.heap (applyWrites c (allocFirst [] allocSz) s.log).2 t r
  rw [hser.heap_eq] at hstrip
  refine ⟨?_, ?_, fun q => ?_⟩
  · -- `t` is newer than the log's last write, the head's tid
    rw [List.map_append, List.map_singleton, ← List.cons_append]
    refine hser.increasing.append (List.chain'_singleton _) fun x hx y hy => ?_
    rw [← head?_foldl_pushTid, ← hser.versions] at hx
    obtain ⟨m, hm, rfl⟩ := List.mem_map.1 (List.mem_of_mem_head? hx)
    obtain rfl : y = t := (List.mem_singleton.1 (List.mem_of_mem_head? hy))
    exact hnewer m hm
  · rw [applyWrites_append_singleton, hstrip]
  · rw [newest_of_owner hinv' (i := i) (by simp [hslot]) q, applyWrites_append_singleton, hstrip]
    simp [hslot]

/-- Each step of the slot system keeps the replay: a write is the next write of
the log it extends, and every other step leaves the log, the stripped heap and
the newest version as they were. -/
theorem Serialized.step (hinv : Inv s) (hser : Serialized c allocSz s) (hstep : Step c t' s s') :
    Serialized c allocSz s' := by
  cases hstep with
  | lock i hidle hn _ =>
      exact hser.of_heap rfl (map_stripLock_set_hdr hn (by simp))
        (newest_congr rfl (pendingRep_update_of_none rfl (by simp [hidle])))
  | write i t r hlocked hnewer => exact hser.write hinv r hlocked hnewer
  | swap i hwritten => exact hser.of_heap rfl rfl (newest_swap hinv hwritten)
  | unlock i hswapped hn =>
      exact hser.of_heap rfl (map_stripLock_set_hdr hn (by simp))
        (newest_congr rfl (pendingRep_update_of_none rfl (by simp [hswapped])))
  | read => exact hser.of_heap rfl rfl fun _ => Iff.rfl

theorem serialized_of_reachable (hreach : Reachable c t' allocSz s) : Serialized c allocSz s := by
  induction hreach with
  | init => exact serialized_init
  | step hreach hstep ih => exact ih.step hreach.inv hstep

/-- Every state an interleaving of the committers and the reader reaches is, up
to lock bits and unlock counts, the state that the writes it has logged, in the
order they ran, reach run one after another: their tids increase, the heap is
the same, and the newest version is the replay's head; and the chain from the
newest version carries the abstract versions of the log. -/
theorem reachable_serial (hreach : Reachable c t' allocSz s) :
    Serialized c allocSz s ∧
      ∀ q, Newest s q → (chainFrom s.heap q).map (·.version) = (s.log.map (·.1)).foldl (pushTid c) [minTid] := by
  have hser := serialized_of_reachable hreach
  exact ⟨hser, fun q hq => (hser.newest_iff q).1 hq ▸ hser.versions⟩

/-- Two commits on the chain from `alloc_first(0)` under the base policy: the
first writes a replacement and swaps it in, the second writes in place and
spills. -/
theorem reachable_two_commits :
    ∃ s : Sys Unit, Reachable (fun _ _ => false) 5 0 s ∧ s.log = [(1, [97]), (2, [98])] :=
  ⟨_, ((((((.init : Reachable (fun _ _ => false) 5 0 (init 0 : Sys Unit)).step
    (.lock () rfl rfl (by decide))).step
    (.write (p := 0) () 1 [97] rfl (by decide))).step (.swap () rfl)).step (.unlock () rfl rfl)).step
      (.lock () rfl rfl (by decide))).step (.write (p := 1) () 2 [98] rfl (by decide)), rfl⟩

/-- After the two commits of `reachable_two_commits`, the log holds both writes
in order, and the state is their replay. -/
theorem reachable_serial_two_commits :
    ∃ s : Sys Unit, Reachable (fun _ _ => false) 5 0 s ∧ s.log = [(1, [97]), (2, [98])] ∧
      Serialized (fun _ _ => false) 0 s ∧ ∀ q, Newest s q →
        (chainFrom s.heap q).map (·.version) = (s.log.map (·.1)).foldl (pushTid fun _ _ => false) [minTid] :=
  have ⟨s, hreach, hlog⟩ := reachable_two_commits
  ⟨s, hreach, hlog, reachable_serial hreach⟩

/-- In every state an interleaving reaches, the chain from the key's newest
version holds, under the base policy, every write logged so far and the version
of `alloc_first`, newest first; and under `transaction_proto2`'s policy exactly
the last of each epoch among them, epochs strictly decreasing. -/
theorem reachable_versions_by_policy (L : EpochLayout) :
    (∀ s : Sys τ, Reachable (fun _ _ => false) t' allocSz s → Serialized (fun _ _ => false) allocSz s ∧
        ∀ q, Newest s q → (chainFrom s.heap q).map (·.version) = (minTid :: s.log.map (·.1)).reverse) ∧
      ∀ s : Sys τ, Reachable L.canOverwriteRecordTid t' allocSz s →
        Serialized L.canOverwriteRecordTid allocSz s ∧
          ∀ q, Newest s q → Survivors L (minTid :: s.log.map (·.1)) ((chainFrom s.heap q).map (·.version)) := by
  refine ⟨fun s hreach => ?_, fun s hreach => ?_⟩
  · have hser := serialized_of_reachable hreach
    refine ⟨hser, fun q hq => ?_⟩
    rw [(hser.newest_iff q).1 hq, hser.versions, foldl_pushTid_never, List.reverse_cons]
  · have hser := serialized_of_reachable hreach
    refine ⟨hser, fun q hq => ?_⟩
    rw [(hser.newest_iff q).1 hq, hser.versions]
    exact (survivors_nil L).foldl _ (increasing_pairwise hser.increasing)

/-- Two commits on the chain from `alloc_first(0)`, with ten core bits. Under the
base policy, tids 1 and 2 leave every version on the newest chain. Under the
epoch policy, tid 1 drops the version of `alloc_first` of its own epoch, and tid
`2^37`, an epoch later, spills tid 1, which the chain keeps. -/
theorem reachable_versions_by_policy_two_commits :
    (∃ s : Sys Unit, Reachable (fun _ _ => false) 5 0 s ∧ s.log = [(1, [97]), (2, [98])] ∧
      Serialized (fun _ _ => false) 0 s ∧
        ∀ q, Newest s q → (chainFrom s.heap q).map (·.version) = (minTid :: s.log.map (·.1)).reverse) ∧
    ∃ s : Sys Unit, Reachable (EpochLayout.canOverwriteRecordTid ⟨10, 1024, rfl, by decide⟩) 5 0 s ∧
      s.log = [(1, [97]), (2 ^ 37, [98])] ∧ Serialized (EpochLayout.canOverwriteRecordTid ⟨10, 1024, rfl, by decide⟩) 0 s ∧
        ∀ q, Newest s q → Survivors ⟨10, 1024, rfl, by decide⟩ (minTid :: s.log.map (·.1))
          ((chainFrom s.heap q).map (·.version)) :=
  have ⟨s, hbase, hlog⟩ := reachable_two_commits
  -- a term proof of the layout's bound, so that the steps' equations can compute
  -- the policy while the run is elaborated
  have hepoch := ((((((.init : Reachable (EpochLayout.canOverwriteRecordTid
      ⟨10, 1024, rfl, Nat.le_of_ble_eq_true rfl⟩) 5 0 (init 0 : Sys Unit)).step
    (.lock () rfl rfl (by decide))).step
    (.write (p := 0) () 1 [97] rfl (by decide))).step (.swap () rfl)).step (.unlock () rfl rfl)).step
      (.lock () rfl rfl (by decide))).step (.write (p := 1) () (2 ^ 37) [98] rfl (by decide))
  ⟨⟨s, hbase, hlog, (reachable_versions_by_policy ⟨10, 1024, rfl, by decide⟩).1 _ hbase⟩,
    ⟨_, hepoch, rfl, (reachable_versions_by_policy ⟨10, 1024, rfl, by decide⟩).2 _ hepoch⟩⟩

end System

end Silo.Serial
