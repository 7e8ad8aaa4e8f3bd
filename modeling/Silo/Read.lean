import Silo.Write

/-!
# Reads after a write

`record_at` with no concurrent writer answers from the first node whose tid is
not behind the read tid. On the chain `write_record_at` leaves, a read at or
after the new tid sees the new record, and a read below the old head's tid sees
what it saw before. Between the two, the answer depends on the path the write
took: after an overwrite the old tail answers; after a spill behind a larger
head the old head still answers with its record; after a spill in place the
spilled node answers, with the bytes `alloc` copied into it, which are the
first `|r|` bytes of the old buffer and not the old record.
-/

namespace Silo.Read

open Silo.Header Silo.Node Silo.Write

/-! ## One node at a time -/

section Step

variable {m : LogicalNode} {ns : List LogicalNode} {t' : Tid}

/-- A node not behind the read tid answers with its tid and record. -/
theorem recordAt_cons_of_le (h : m.version ≤ t') :
    recordAt (m :: ns) t' false = some (m.version, m.record) := by
  simp [recordAt, LogicalNode.isNotBehind, h]

/-- A node newer than the read tid passes the read on to the next one. -/
theorem recordAt_cons_of_lt (requireLatest : Bool) (h : t' < m.version) :
    recordAt (m :: ns) t' requireLatest = recordAt ns t' false := by
  have hnot : ¬ m.version ≤ t' := by
    rw [BitVec.le_def]
    rw [BitVec.lt_def] at h
    omega
  simp [recordAt, LogicalNode.isNotBehind, hnot]

/-- Nodes newer than the read tid at the front of a chain pass the read on. -/
theorem recordAt_append_of_lt {ms rest : List LogicalNode} (hne : ms ≠ [])
    (hlt : ∀ m ∈ ms, t' < m.version) (requireLatest : Bool) :
    recordAt (ms ++ rest) t' requireLatest = recordAt rest t' false := by
  induction ms generalizing requireLatest with
  | nil => exact absurd rfl hne
  | cons m ms ih =>
      rw [List.cons_append, recordAt_cons_of_lt requireLatest (hlt m (List.mem_cons_self _ _))]
      cases ms with
      | nil => rfl
      | cons m' ms' => exact ih (List.cons_ne_nil _ _) (fun x hx => hlt x (List.mem_cons_of_mem _ hx)) false

/-- Clearing LATEST changes no read that does not require it. -/
theorem recordAt_clearLatest (m : LogicalNode) (ns : List LogicalNode) (t' : Tid) :
    recordAt (m.clearLatest :: ns) t' false = recordAt (m :: ns) t' false := by
  simp [recordAt, LogicalNode.isNotBehind]

end Step

/-! ## The chain a write leaves -/

section Prefix

variable {c : Tid → Tid → Bool} {self fresh : Ptr} {n : LogicalNode} {tail : List LogicalNode}
  {t t' : Tid} {r : List UInt8}

/-- The node a write puts in front carries the new tid and the new record. -/
theorem writePrefix_head (hr : r.length < 2 ^ 32 - 16) :
    ∃ h rest, writePrefix c self fresh n t r = h :: rest ∧ h.version = t ∧ h.record = r := by
  unfold writePrefix
  dsimp only
  split_ifs
  · exact ⟨_, _, rfl, rfl, LogicalNode.writeInPlace_record n hr⟩
  · exact ⟨_, _, rfl, rfl, by simpa using LogicalNode.ofRecord_record hr le_rfl⟩
  · exact ⟨_, _, rfl, rfl, LogicalNode.writeInPlace_record (t := t) n hr⟩
  · exact ⟨_, _, rfl, rfl, by simpa using LogicalNode.ofRecord_record hr le_rfl⟩

theorem recordAt_writePrefix_of_le (hr : r.length < 2 ^ 32 - 16) (h : t ≤ t') :
    recordAt (writePrefix c self fresh n t r ++ tail) t' false = some (t, r) := by
  obtain ⟨hd, rest, heq, hversion, hrecord⟩ := @writePrefix_head c self fresh n t r hr
  rw [heq, List.cons_append, recordAt_cons_of_le (hversion ▸ h), hversion, hrecord]

/-- Below the new tid the read goes past the new head: to the old tail after an
overwrite, to the spilled node after a spill in place, and to the old head
after a spill behind a larger head. -/
theorem recordAt_writePrefix_of_lt (h : t' < t) :
    recordAt (writePrefix c self fresh n t r ++ tail) t' false =
      if c n.version t then recordAt tail t' false
      else if BitVec.ofNat 64 r.length ≤ n.allocSize.setWidth 64 then
        recordAt (LogicalNode.ofRecord n.version n.valueStart (BitVec.ofNat 64 r.length)
          (allocCapacity (BitVec.ofNat 64 r.length)) n.next false :: tail) t' false
      else recordAt (n :: tail) t' false := by
  unfold writePrefix
  dsimp only
  split_ifs <;> simp only [List.cons_append, List.nil_append, recordAt_cons_of_lt, h,
    LogicalNode.writeInPlace_version, LogicalNode.ofRecord_version, recordAt_clearLatest]

end Prefix

/-! ## Reads on the heap -/

section Heap

variable {c : Tid → Tid → Bool} {heap heap' : Heap} {self : Ptr} {ps : List Ptr}
  {n : LogicalNode} {t : Tid} {r : List UInt8} {grew : Bool} {rep : Option Ptr}

/-- The chains before and after a write, as lists of nodes. -/
theorem chainFrom_writeRecordAt (hchain : ChainRep heap (some self) ps) (hn : heap[self]? = some n)
    (hwrite : writeRecordAt c heap self t r = (heap', grew, rep)) :
    ∃ tail, chainFrom heap self = n :: tail ∧
      chainFrom heap' (rep.getD self) = writePrefix c self heap.length n t r ++ tail := by
  obtain ⟨rest, rfl⟩ : ∃ rest, ps = self :: rest := by cases hchain; exact ⟨_, rfl⟩
  obtain ⟨hchain', hnodes⟩ := writeRecordAt_chain (c := c) hchain hn t r
  rw [hwrite] at hchain' hnodes
  exact ⟨_, by rw [hchain.chainFrom_eq, nodesAt_cons _ hn], by rw [hchain'.chainFrom_eq, hnodes]⟩

/-- What `record_at` (with no concurrent writer) reads after `write_record_at`,
for every read tid: the new record from `t` on; what it read before below the
old head's tid; the old tail's answer below `t` after an overwrite; what it read
before below `t` after a spill behind a larger head; and after a spill in place,
between the old head's tid and `t`, the old tid with the first `|r|` bytes of
the old buffer. -/
theorem writeRecordAt_reads (hchain : ChainRep heap (some self) ps) (hn : heap[self]? = some n)
    (ht : n.version < t) (hr : r.length < 2 ^ 32 - 16)
    (hwrite : writeRecordAt c heap self t r = (heap', grew, rep)) :
    (∀ t', t ≤ t' → recordAt (chainFrom heap' (rep.getD self)) t' false = some (t, r)) ∧
    (∀ t', t' < n.version →
      recordAt (chainFrom heap' (rep.getD self)) t' false = recordAt (chainFrom heap self) t' false) ∧
    (c n.version t = true → ∀ t', t' < t →
      recordAt (chainFrom heap' (rep.getD self)) t' false =
        recordAt (chainFrom heap self).tail t' false) ∧
    (c n.version t = false → rep.isSome → ∀ t', t' < t →
      recordAt (chainFrom heap' (rep.getD self)) t' false = recordAt (chainFrom heap self) t' false) ∧
    (c n.version t = false → rep = none → r.length ≤ n.valueStart.length →
      ∀ t', n.version ≤ t' → t' < t →
        recordAt (chainFrom heap' (rep.getD self)) t' false =
          some (n.version, n.valueStart.take r.length)) := by
  obtain ⟨tail, hold, hnew⟩ := chainFrom_writeRecordAt hchain hn hwrite
  have hrep := writeRecordAt_rep (c := c) hn t r
  rw [hwrite] at hrep
  dsimp only at hrep
  have hlt : ∀ {t'}, t' < n.version → t' < t := fun h => by
    rw [BitVec.lt_def] at h ht ⊢
    omega
  rw [hold, hnew]
  refine ⟨fun t' h => recordAt_writePrefix_of_le hr h, fun t' h => ?_, fun hc t' h => ?_,
    fun hc hsome t' h => ?_, fun hc hnone hbuf t' hle h => ?_⟩
  · rw [recordAt_writePrefix_of_lt (hlt h), recordAt_cons_of_lt false h]
    split_ifs <;> simp only [recordAt_cons_of_lt, h, LogicalNode.ofRecord_version]
  · rw [recordAt_writePrefix_of_lt h, if_pos hc]
    rfl
  · have hs : ¬ BitVec.ofNat 64 r.length ≤ n.allocSize.setWidth 64 := by
      intro hs
      simp [hrep, hs] at hsome
    rw [recordAt_writePrefix_of_lt h, hc, if_neg (by decide), if_neg hs]
  · have hs : BitVec.ofNat 64 r.length ≤ n.allocSize.setWidth 64 := by
      by_contra hs
      simp [hrep, hs] at hnone
    rw [recordAt_writePrefix_of_lt h, hc, if_neg (by decide), if_pos hs,
      recordAt_cons_of_le (by simpa using hle), LogicalNode.ofRecord_version,
      LogicalNode.ofRecord_record hr hbuf]

theorem writeRecordAt_reads_first_write :
    recordAt (chainFrom (writeRecordAt (fun _ _ => false) (allocFirst [] 0).1 0 1 [97, 98, 99]).1 1)
      5 false = some (1, [97, 98, 99]) :=
  (writeRecordAt_reads (c := fun _ _ => false) (t := 1) (r := [97, 98, 99])
    (allocFirst_wellFormed [] 0).chain rfl (by decide) (by decide) rfl).1 5 (by decide)

/-- Under the base policy, tid 1 writes "abc" on a chain from `alloc_first(0)`,
then tid 2 writes "x" on the resulting head. The second write spills in place,
and the version of tid 1, which read "abc" before it, now reads "a". -/
theorem writeRecordAt_spill_in_place_truncates :
    recordAt (chainFrom (writeRecordAt (fun _ _ => false) (allocFirst [] 0).1 0 1 [97, 98, 99]).1 1)
        1 false = some (1, [97, 98, 99]) ∧
      (writeRecordAt (fun _ _ => false)
        (writeRecordAt (fun _ _ => false) (allocFirst [] 0).1 0 1 [97, 98, 99]).1 1 2 [120]).2 =
        (true, none) ∧
      recordAt (chainFrom (writeRecordAt (fun _ _ => false)
        (writeRecordAt (fun _ _ => false) (allocFirst [] 0).1 0 1 [97, 98, 99]).1 1 2 [120]).1 1)
        1 false = some (1, [97]) := by
  decide

end Heap

end Silo.Read
