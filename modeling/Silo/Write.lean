import Silo.Node
import Silo.Tid

/-!
# Writing a version

`write_record_at` overwrites the head in place, replaces it by a larger node, or
spills: it keeps the old version in a node of its own, either in place (a new
node for the old version goes below the head) or by putting a larger new head in
front. `writePrefix` says, on the list of versions, which nodes end up in front
of the head's old tail; `writeRecordAt_chain` shows that the heap-level write
yields exactly that list. Well-formedness and reads are then about lists.
-/

namespace Silo.Write

open Silo.Header Silo.Node

/-! ## Sizes of a fresh node -/

/-- The capacity `alloc` gives a record of `sz` bytes. -/
def allocCapacity (sz : BitVec 64) : BitVec 64 := roundUp16 (sizeofLogicalNode + sz) - sizeofLogicalNode

/-- Unless `sizeof(logical_node) + sz + 15` wraps, the capacity is `sz` rounded
up to a multiple of 16. -/
theorem allocCapacity_toNat_of_le {sz : BitVec 64} (h : sz.toNat ≤ 2 ^ 64 - 48) :
    (allocCapacity sz).toNat = (sz.toNat + 15) / 16 * 16 := by
  have h32 : (32 : BitVec 64).toNat = 32 := rfl
  have h15 : (15 : BitVec 64).toNat = 15 := rfl
  simp only [allocCapacity, roundUp16, sizeofLogicalNode, BitVec.toNat_sub, BitVec.toNat_add,
    BitVec.toNat_ofNat, h32, h15]
  omega

/-- Below `2^32 - 16` bytes the capacity is the size rounded up to 16. -/
theorem allocCapacity_toNat {sz : Nat} (h : sz < 2 ^ 32 - 16) :
    (allocCapacity (BitVec.ofNat 64 sz)).toNat = (sz + 15) / 16 * 16 := by
  have hsz : (BitVec.ofNat 64 sz).toNat = sz := by
    rw [BitVec.toNat_ofNat]
    omega
  rw [allocCapacity_toNat_of_le (by omega), hsz]

theorem toNat_setWidth_of_small {sz : Nat} (h : sz < 2 ^ 32 - 16) :
    ((BitVec.ofNat 64 sz).setWidth 32).toNat = sz := by
  simp only [BitVec.toNat_setWidth, BitVec.toNat_ofNat]
  omega

theorem le_allocSize_iff {sz : Nat} (h : sz < 2 ^ 32 - 16) (a : BitVec 32) :
    BitVec.ofNat 64 sz ≤ a.setWidth 64 ↔ sz ≤ a.toNat := by
  rw [BitVec.le_def]
  simp only [BitVec.toNat_ofNat, BitVec.toNat_setWidth]
  have := a.isLt
  omega

namespace LogicalNode

open Silo.Node.LogicalNode

variable {r : List UInt8} {t version : Tid} {next : Option Ptr} {latest : Bool}

theorem writeInPlace_record (n : LogicalNode) (h : r.length < 2 ^ 32 - 16) :
    (n.writeInPlace t r).record = r := by
  simp [writeInPlace, record, memcpy, toNat_setWidth_of_small h]
  rw [Nat.mod_eq_of_lt (by omega)]
  simp

theorem writeInPlace_size (n : LogicalNode) (h : r.length < 2 ^ 32 - 16) :
    (n.writeInPlace t r).size.toNat = r.length := by
  simp [writeInPlace]
  omega

/-- A node `alloc` makes for `sz` bytes holds `sz` bytes and room for them. -/
theorem ofRecord_sizes (version : Tid) (value : List UInt8) (next : Option Ptr) (latest : Bool)
    {sz : Nat} (h : sz < 2 ^ 32 - 16) :
    (ofRecord version value (BitVec.ofNat 64 sz) (allocCapacity (BitVec.ofNat 64 sz)) next
        latest).size.toNat = sz ∧
      (ofRecord version value (BitVec.ofNat 64 sz) (allocCapacity (BitVec.ofNat 64 sz)) next
        latest).allocSize.toNat = (sz + 15) / 16 * 16 := by
  simp only [ofRecord, BitVec.toNat_setWidth, allocCapacity_toNat h, BitVec.toNat_ofNat]
  omega

theorem ofRecord_record {value : List UInt8} {sz : Nat} (h : sz < 2 ^ 32 - 16)
    (hvalue : sz ≤ value.length) :
    (ofRecord version value (BitVec.ofNat 64 sz) (allocCapacity (BitVec.ofNat 64 sz)) next
        latest).record = value.take sz := by
  have hsz := (ofRecord_sizes version value next latest h).1
  simp only [record, hsz]
  simp only [ofRecord, memcpy, BitVec.toNat_ofNat, Nat.mod_eq_of_lt (by omega : sz < 2 ^ 64)]
  rw [List.take_append_of_le_length (by simp; omega)]
  simp

end LogicalNode

theorem alloc_eq (heap : Heap) (version : Tid) (value : List UInt8) (sz : BitVec 64)
    (next : Option Ptr) (latest : Bool) :
    alloc heap version value sz next latest =
      (heap ++ [LogicalNode.ofRecord version value sz (allocCapacity sz) next latest],
        heap.length) := rfl

/-! ## What a write does to the chain -/

section Prefix

variable (c : Tid → Tid → Bool) (self fresh : Ptr) (n : LogicalNode) (t : Tid) (r : List UInt8)

/-- The nodes `write_record_at` leaves in front of the old head's tail, newest
first, when the head `n` is at `self` and `alloc` places its node at `fresh`. -/
def writePrefix : List LogicalNode :=
  let sz : BitVec 64 := BitVec.ofNat 64 r.length
  if c n.version t then
    if sz ≤ n.allocSize.setWidth 64 then [n.writeInPlace t r]
    else [LogicalNode.ofRecord t r sz (allocCapacity sz) n.next true]
  else if sz ≤ n.allocSize.setWidth 64 then
    [{ n.writeInPlace t r with next := some fresh },
      LogicalNode.ofRecord n.version n.valueStart sz (allocCapacity sz) n.next false]
  else [LogicalNode.ofRecord t r sz (allocCapacity sz) (some self) true, n.clearLatest]

/-- The nodes a write puts in front are no older than the head they replace. -/
theorem version_le_of_mem_writePrefix {c : Tid → Tid → Bool} {self fresh : Ptr} {n : LogicalNode}
    {t : Tid} {r : List UInt8} (ht : n.version < t) {m : LogicalNode}
    (hm : m ∈ writePrefix c self fresh n t r) : n.version ≤ m.version := by
  have hle : n.version ≤ t := by
    rw [BitVec.le_def]
    rw [BitVec.lt_def] at ht
    omega
  unfold writePrefix at hm
  dsimp only at hm
  split_ifs at hm
  · simp only [List.mem_singleton] at hm
    subst hm
    exact hle
  · simp only [List.mem_singleton] at hm
    subst hm
    exact hle
  · simp only [List.mem_cons, List.mem_singleton, List.not_mem_nil, or_false] at hm
    rcases hm with rfl | rfl
    · exact hle
    · exact BitVec.le_def.2 (Nat.le_refl _)
  · simp only [List.mem_cons, List.mem_singleton, List.not_mem_nil, or_false] at hm
    rcases hm with rfl | rfl
    · exact hle
    · exact BitVec.le_def.2 (Nat.le_refl _)

/-- Where those nodes are. -/
def writePtrs : List Ptr :=
  let sz : BitVec 64 := BitVec.ofNat 64 r.length
  if c n.version t then
    if sz ≤ n.allocSize.setWidth 64 then [self] else [fresh]
  else if sz ≤ n.allocSize.setWidth 64 then [self, fresh] else [fresh, self]

end Prefix

section Chain

variable {c : Tid → Tid → Bool} {heap : Heap} {self : Ptr} {rest : List Ptr} {n : LogicalNode}

/-- The heap-level write leaves, from the new head, the chain `writePrefix` says:
its new nodes, then the old head's tail, untouched. -/
theorem writeRecordAt_chain (hchain : ChainRep heap (some self) (self :: rest))
    (hn : heap[self]? = some n) (t : Tid) (r : List UInt8) :
    ChainRep (writeRecordAt c heap self t r).1
        (some ((writeRecordAt c heap self t r).2.2.getD self))
        (writePtrs c self heap.length n t r ++ rest) ∧
      nodesAt (writeRecordAt c heap self t r).1 (writePtrs c self heap.length n t r ++ rest) =
        writePrefix c self heap.length n t r ++ nodesAt heap rest := by
  obtain ⟨hself, hnot, hrest⟩ := hchain.head_facts hn
  have hlt := hrest.lt_length
  unfold writeRecordAt writePtrs writePrefix
  simp only [hn, alloc_eq]
  split_ifs with hc hs hs
  · -- overwrite in place
    have hread : (heap.set self (n.writeInPlace t r))[self]? = some (n.writeInPlace t r) :=
      List.getElem?_set_self hself
    refine ⟨.cons hread (hrest.set_of_not_mem hnot _), ?_⟩
    rw [List.singleton_append, nodesAt_cons _ hread, nodesAt_set_of_not_mem hnot]
    rfl
  · -- overwrite with a larger replacement
    simp only [List.length_set, Option.getD_some, List.singleton_append]
    generalize hrep : LogicalNode.ofRecord _ _ _ _ _ _ = rep
    have hnext : rep.next = n.next := by rw [← hrep]; rfl
    have hread : (heap.set self n.clearLatest ++ [rep])[heap.length]? = some rep := by simp
    refine ⟨.cons hread (hnext ▸ (hrest.set_of_not_mem hnot _).append _), ?_⟩
    rw [nodesAt_cons _ hread, nodesAt_append_of_lt (by simpa using hlt),
      nodesAt_set_of_not_mem hnot]
  · -- spill the old version into a node below the head
    simp only [Option.getD_none, List.cons_append, List.nil_append]
    generalize hspill' : LogicalNode.ofRecord _ _ _ _ _ _ = spill
    have hnext : spill.next = n.next := by rw [← hspill']; rfl
    have hne : heap.length ≠ self := Nat.ne_of_gt hself
    have hread : ((heap ++ [spill]).set self { n.writeInPlace t r with next := some heap.length })[self]? =
        some { n.writeInPlace t r with next := some heap.length } :=
      List.getElem?_set_self (by simpa using Nat.lt_succ_of_lt hself)
    have hspill : ((heap ++ [spill]).set self
        { n.writeInPlace t r with next := some heap.length })[heap.length]? = some spill := by
      rw [List.getElem?_set_ne hne.symm]
      exact List.getElem?_concat_length heap spill
    refine ⟨.cons hread (.cons hspill (hnext ▸ (hrest.append _).set_of_not_mem hnot _)), ?_⟩
    rw [nodesAt_cons _ hread, nodesAt_cons _ hspill, nodesAt_set_of_not_mem hnot,
      nodesAt_append_of_lt hlt]
  · -- spill behind a larger new head
    simp only [List.length_set, Option.getD_some, List.cons_append, List.nil_append]
    generalize hrep : LogicalNode.ofRecord _ _ _ _ _ _ = rep
    have hnext : rep.next = some self := by rw [← hrep]; rfl
    have hread : (heap.set self n.clearLatest ++ [rep])[heap.length]? = some rep := by simp
    have hold : (heap.set self n.clearLatest ++ [rep])[self]? = some n.clearLatest := by
      rw [List.getElem?_append_left (by simpa using hself)]
      exact List.getElem?_set_self hself
    refine ⟨.cons hread (hnext ▸ .cons hold ((hrest.set_of_not_mem hnot _).append _)), ?_⟩
    rw [nodesAt_cons _ hread, nodesAt_cons _ hold,
      nodesAt_append_of_lt (by simpa using hlt), nodesAt_set_of_not_mem hnot]

/-- A write adds a version exactly when it cannot overwrite. -/
theorem writeRecordAt_grew (hn : heap[self]? = some n) (t : Tid) (r : List UInt8) :
    (writeRecordAt c heap self t r).2.1 = !c n.version t := by
  unfold writeRecordAt
  simp only [hn, alloc_eq]
  split_ifs <;> simp_all

/-- A write returns a replacement exactly when the record does not fit the head. -/
theorem writeRecordAt_rep (hn : heap[self]? = some n) (t : Tid) (r : List UInt8) :
    (writeRecordAt c heap self t r).2.2 =
      if BitVec.ofNat 64 r.length ≤ n.allocSize.setWidth 64 then none else some heap.length := by
  unfold writeRecordAt
  simp only [hn, alloc_eq]
  split_ifs <;> simp_all

/-- A write touches no allocated cell but the head. -/
theorem writeRecordAt_frame (hn : heap[self]? = some n) (t : Tid) (r : List UInt8) {q : Ptr}
    (hq : q ≠ self) (hlt : q < heap.length) :
    (writeRecordAt c heap self t r).1[q]? = heap[q]? := by
  unfold writeRecordAt
  simp only [hn, alloc_eq]
  split_ifs <;> simp [List.getElem?_set_ne hq.symm, List.getElem?_append_left, hlt]

/-- A replaced head is left without LATEST. -/
theorem writeRecordAt_self_of_rep (hn : heap[self]? = some n) (t : Tid) (r : List UInt8)
    (hself : self < heap.length) (hs : ¬ BitVec.ofNat 64 r.length ≤ n.allocSize.setWidth 64) :
    (writeRecordAt c heap self t r).1[self]? = some n.clearLatest := by
  unfold writeRecordAt
  simp only [hn, alloc_eq, hs, ite_false]
  split_ifs <;> simp [List.getElem?_append_left, hself]

/-- The replacement a write returns is the new cell: the new record, LATEST,
followed by the old head's tail after an overwrite and by the old head after a
spill. -/
theorem writeRecordAt_rep_node (hn : heap[self]? = some n) (t : Tid) (r : List UInt8)
    (hs : ¬ BitVec.ofNat 64 r.length ≤ n.allocSize.setWidth 64) :
    (writeRecordAt c heap self t r).1[heap.length]? =
      some (LogicalNode.ofRecord t r (BitVec.ofNat 64 r.length)
        (allocCapacity (BitVec.ofNat 64 r.length)) (if c n.version t then n.next else some self) true) := by
  unfold writeRecordAt
  simp only [hn, alloc_eq, hs, ite_false]
  split_ifs <;> simp

/-- The cells a write leaves: the head keeps its header but for LATEST, and at
most one cell is added, with the header of a fresh node. -/
theorem writeRecordAt_cells (hn : heap[self]? = some n) (t : Tid) (r : List UInt8) :
    heap.length ≤ (writeRecordAt c heap self t r).1.length ∧
    (writeRecordAt c heap self t r).1.length ≤ heap.length + 1 ∧
    (∃ n', (writeRecordAt c heap self t r).1[self]? = some n' ∧
      (n'.hdr = n.hdr ∨ n'.hdr = Header.setLatest false n.hdr)) ∧
    (∀ m, (writeRecordAt c heap self t r).1[heap.length]? = some m → ∃ b, m.hdr = initHdr b) := by
  have hself := (List.getElem?_eq_some_iff.1 hn).1
  unfold writeRecordAt
  simp only [hn, alloc_eq]
  split_ifs
  · refine ⟨by simp, by simp, ⟨_, List.getElem?_set_self hself, .inl rfl⟩, fun m hm => ?_⟩
    simp [List.getElem?_set_ne (Nat.ne_of_lt hself)] at hm
  · refine ⟨by simp, by simp, ⟨n.clearLatest, ?_, .inr rfl⟩, fun m hm => ?_⟩
    · rw [List.getElem?_append_left (by simpa using hself)]
      exact List.getElem?_set_self hself
    · simp at hm
      exact ⟨true, hm ▸ rfl⟩
  · refine ⟨by simp, by simp, ⟨_, List.getElem?_set_self (by simpa using Nat.lt_succ_of_lt hself),
      .inl rfl⟩, fun m hm => ?_⟩
    rw [List.getElem?_set_ne (Nat.ne_of_lt hself)] at hm
    simp at hm
    exact ⟨false, hm ▸ rfl⟩
  · refine ⟨by simp, by simp, ⟨n.clearLatest, ?_, .inr rfl⟩, fun m hm => ?_⟩
    · rw [List.getElem?_append_left (by simpa using hself)]
      exact List.getElem?_set_self hself
    · simp at hm
      exact ⟨true, hm ▸ rfl⟩

/-- Where a cell after a write comes from: the written head, which keeps its
header but for LATEST; a cell the write did not touch; or the one new cell. -/
theorem writeRecordAt_cell_cases (hn : heap[self]? = some n) (t : Tid) (r : List UInt8) {q : Ptr}
    {m : LogicalNode} (hm : (writeRecordAt c heap self t r).1[q]? = some m) :
    (q = self ∧ (m.hdr = n.hdr ∨ m.hdr = Header.setLatest false n.hdr)) ∨
      (q ≠ self ∧ q < heap.length ∧ heap[q]? = some m) ∨ (q = heap.length ∧ ∃ b, m.hdr = initHdr b) := by
  obtain ⟨-, hle, ⟨n', hself', hhdr⟩, hfresh⟩ := writeRecordAt_cells (c := c) hn t r
  by_cases hq : q = self
  · subst hq
    rw [hself'] at hm
    cases hm
    exact .inl ⟨rfl, hhdr⟩
  · by_cases hlt : q < heap.length
    · rw [writeRecordAt_frame hn t r hq hlt] at hm
      exact .inr (.inl ⟨hq, hlt, hm⟩)
    · have hq' : q = heap.length :=
        Nat.le_antisymm (Nat.le_of_lt_succ (lt_of_lt_of_le (List.getElem?_eq_some_iff.1 hm).1 hle))
          (Nat.le_of_not_lt hlt)
      subst hq'
      exact .inr (.inr ⟨rfl, hfresh m hm⟩)

theorem length_writePtrs (c : Tid → Tid → Bool) (self fresh : Ptr) (n : LogicalNode) (t : Tid)
    (r : List UInt8) : (writePtrs c self fresh n t r).length = if c n.version t then 1 else 2 := by
  unfold writePtrs
  dsimp only
  split_ifs <;> rfl

end Chain

/-! ## Well-formed chains -/

/-- The representation invariant of a version chain, on its nodes newest first:
tids strictly decrease along `next`, the head and only the head is LATEST, and
every record fits its node. -/
structure ChainOk (ns : List LogicalNode) : Prop where
  decreasing : ns.Chain' (fun n m => m.version < n.version)
  head_latest : ∀ n ∈ ns.head?, isLatest n.hdr = true
  tail_not_latest : ∀ n ∈ ns.tail, isLatest n.hdr = false
  size_le : ∀ n ∈ ns, n.size ≤ n.allocSize

/-- A well-formed chain from `head`: finite and acyclic, through the cells `ps`. -/
structure WellFormed (heap : Heap) (head : Ptr) (ps : List Ptr) : Prop where
  chain : ChainRep heap (some head) ps
  ok : ChainOk (nodesAt heap ps)

section Ok

variable {c : Tid → Tid → Bool} {self fresh : Ptr} {n : LogicalNode} {tail : List LogicalNode}
  {t : Tid} {r : List UInt8}

theorem ChainOk.cons_iff {m : LogicalNode} :
    ChainOk (m :: tail) ↔ (∀ y ∈ tail.head?, y.version < m.version) ∧ tail.Chain' (fun n m => m.version < n.version) ∧
      isLatest m.hdr = true ∧ (∀ y ∈ tail, isLatest y.hdr = false) ∧ m.size ≤ m.allocSize ∧
      (∀ y ∈ tail, y.size ≤ y.allocSize) := by
  constructor
  · rintro ⟨hdec, hhead, htail, hsize⟩
    exact ⟨(List.chain'_cons'.1 hdec).1, (List.chain'_cons'.1 hdec).2, hhead m rfl, htail,
      hsize m (List.mem_cons_self _ _), fun y hy => hsize y (List.mem_cons_of_mem _ hy)⟩
  · rintro ⟨hfirst, hdec, hhead, htail, hsize, hsizes⟩
    refine ⟨List.chain'_cons'.2 ⟨hfirst, hdec⟩, by simpa using hhead, htail, ?_⟩
    intro y hy
    rcases List.mem_cons.1 hy with rfl | hy
    · exact hsize
    · exact hsizes y hy

/-- A chain of one LATEST node whose record fits. -/
theorem ChainOk.singleton {m : LogicalNode} (hlatest : isLatest m.hdr = true)
    (hsize : m.size ≤ m.allocSize) : ChainOk [m] :=
  ChainOk.cons_iff.2 ⟨by simp, List.chain'_nil, hlatest, by simp, hsize, by simp⟩

/-- `alloc_first` starts a well-formed chain of one node. -/
theorem allocFirst_wellFormed (heap : Heap) (allocSz : BitVec 64) :
    WellFormed (allocFirst heap allocSz).1 heap.length [heap.length] := by
  have hread : (allocFirst heap allocSz).1[heap.length]? = some (LogicalNode.first _) :=
    List.getElem?_concat_length _ _
  refine ⟨.cons hread .null, ?_⟩
  rw [nodesAt_cons _ hread, nodesAt_nil]
  exact ChainOk.singleton (by simp [LogicalNode.first]) (BitVec.le_def.2 (Nat.zero_le _))

/-- A write keeps the representation invariant of the chain. -/
theorem chainOk_write (hok : ChainOk (n :: tail)) (ht : n.version < t) (hr : r.length < 2 ^ 32 - 16) :
    ChainOk (writePrefix c self fresh n t r ++ tail) := by
  obtain ⟨hfirst, hdec, hlatest, htail, hsize, hsizes⟩ := ChainOk.cons_iff.1 hok
  have hbelow : ∀ y ∈ tail.head?, y.version < t := fun y hy => by
    have h := hfirst y hy
    rw [BitVec.lt_def] at h ht ⊢
    omega
  have hfresh : ∀ version value next latest,
      (LogicalNode.ofRecord version value (BitVec.ofNat 64 r.length)
        (allocCapacity (BitVec.ofNat 64 r.length)) next latest).size ≤
      (LogicalNode.ofRecord version value (BitVec.ofNat 64 r.length)
        (allocCapacity (BitVec.ofNat 64 r.length)) next latest).allocSize := by
    intro version value next latest
    obtain ⟨hsz, hcap⟩ := LogicalNode.ofRecord_sizes version value next latest hr
    rw [BitVec.le_def, hsz, hcap]
    omega
  have hfit (hs : BitVec.ofNat 64 r.length ≤ n.allocSize.setWidth 64) :
      (n.writeInPlace t r).size ≤ (n.writeInPlace t r).allocSize := by
    rw [BitVec.le_def, LogicalNode.writeInPlace_size n hr, LogicalNode.writeInPlace_allocSize]
    exact (le_allocSize_iff hr _).1 hs
  unfold writePrefix
  dsimp only
  split_ifs with hc hs hs
  · -- overwrite in place
    exact ChainOk.cons_iff.2 ⟨hbelow, hdec, by simpa using hlatest, htail, hfit hs, hsizes⟩
  · -- overwrite with a larger replacement
    exact ChainOk.cons_iff.2 ⟨hbelow, hdec, LogicalNode.isLatest_ofRecord .., htail, hfresh .., hsizes⟩
  · -- spill the old version below the head
    exact ChainOk.cons_iff.2 ⟨by simpa using ht, List.chain'_cons'.2 ⟨by simpa using hfirst, hdec⟩,
      by simpa using hlatest, List.forall_mem_cons.2 ⟨LogicalNode.isLatest_ofRecord .., htail⟩, hfit hs,
      List.forall_mem_cons.2 ⟨hfresh .., hsizes⟩⟩
  · -- spill behind a larger new head
    exact ChainOk.cons_iff.2 ⟨by simpa using ht, List.chain'_cons'.2 ⟨by simpa using hfirst, hdec⟩,
      LogicalNode.isLatest_ofRecord .., List.forall_mem_cons.2 ⟨LogicalNode.isLatest_clearLatest n, htail⟩,
      hfresh ..,
      List.forall_mem_cons.2 ⟨by simpa using hsize, hsizes⟩⟩

end Ok

/-! ## The write on a well-formed chain -/

section Effect

variable {c : Tid → Tid → Bool} {heap heap' : Heap} {self : Ptr} {ps : List Ptr}
  {n : LogicalNode} {t : Tid} {r : List UInt8} {grew : Bool} {rep : Option Ptr}

/-- `write_record_at` on the head of a well-formed chain, for a newer tid and a
record below `2^32 - 16` bytes, leaves a well-formed chain from the replacement
(or the old head); the old head's tail is untouched and ends the new chain; the
chain grows by one node exactly when `grew`; a replacement comes exactly when the
record does not fit, and then the old head has lost LATEST. -/
theorem writeRecordAt_wellFormed (hwf : WellFormed heap self ps) (hn : heap[self]? = some n)
    (ht : n.version < t) (hr : r.length < 2 ^ 32 - 16)
    (hwrite : writeRecordAt c heap self t r = (heap', grew, rep)) :
    ∃ ps', WellFormed heap' (rep.getD self) ps' ∧ ps.tail <:+ ps' ∧
      (∀ q ∈ ps.tail, heap'[q]? = heap[q]?) ∧
      ps'.length = ps.length + (if grew then 1 else 0) ∧
      (rep.isSome ↔ n.allocSize.toNat < r.length) ∧
      (rep.isSome → ∃ m, heap'[self]? = some m ∧ isLatest m.hdr = false) := by
  obtain ⟨hchain, hok⟩ := hwf
  obtain ⟨rest, rfl⟩ : ∃ rest, ps = self :: rest := by cases hchain; exact ⟨_, rfl⟩
  obtain ⟨hself, hnot, hrest⟩ := hchain.head_facts hn
  have hgrew := writeRecordAt_grew (c := c) hn t r
  have hrep := writeRecordAt_rep (c := c) hn t r
  obtain ⟨hchain', hnodes⟩ := writeRecordAt_chain (c := c) hchain hn t r
  rw [hwrite] at hgrew hrep hchain' hnodes
  dsimp only at hgrew hrep hchain' hnodes
  subst hgrew
  have hfits := le_allocSize_iff hr n.allocSize
  refine ⟨_, ⟨hchain', ?_⟩, List.suffix_append _ _, fun q hq => ?_, ?_, ?_, fun hsome => ?_⟩
  · rw [hnodes]
    exact chainOk_write (by rwa [nodesAt_cons _ hn] at hok) ht hr
  · have hframe := writeRecordAt_frame (c := c) hn t r (fun h => hnot (h ▸ hq)) (hrest.lt_length q hq)
    rwa [hwrite] at hframe
  · simp only [List.length_append, length_writePtrs, List.length_cons]
    cases c n.version t <;> simp <;> omega
  · rw [hrep, ← not_le, ← hfits]
    split_ifs with hs <;> simp [hs]
  · have hs : ¬ BitVec.ofNat 64 r.length ≤ n.allocSize.setWidth 64 := by
      intro hs
      simp [hrep, hs] at hsome
    have hold := writeRecordAt_self_of_rep (c := c) hn t r hself hs
    rw [hwrite] at hold
    exact ⟨_, hold, LogicalNode.isLatest_clearLatest n⟩

/-- The first write on a chain from `alloc_first(0)` under the base policy: the
record does not fit, so a replacement goes in front and the chain has two nodes. -/
theorem writeRecordAt_wellFormed_first_write :
    WellFormed (allocFirst [] 0).1 0 [0] ∧
      ∃ ps', WellFormed (writeRecordAt (fun _ _ => false) (allocFirst [] 0).1 0 1 [97, 98, 99]).1
        1 ps' ∧ ps'.length = 2 := by
  have hwf := allocFirst_wellFormed [] 0
  obtain ⟨ps', hwf', -, -, hlen, -, -⟩ := writeRecordAt_wellFormed (c := fun _ _ => false)
    (t := 1) (r := [97, 98, 99]) hwf rfl (by decide) (by decide) rfl
  exact ⟨hwf, ps', hwf', hlen⟩

end Effect

end Silo.Write
