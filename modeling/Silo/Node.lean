import Silo.Header

/-!
# Logical nodes and version chains

A `logical_node` holds one version of a record: the header word, the pointer to
the next older version, the commit tid of this version, its 32-bit size and
capacity, and the payload buffer allocated right after the node. The versions of
one key form a chain along `next`, newest first.

Nodes live in a heap of cells addressed by position; allocation appends. The
payload buffer is modelled with its full capacity; bytes `malloc` leaves
uninitialised are zero here. `size_t` arithmetic is `BitVec 64` and the two
`uint32_t` fields are `BitVec 32`, so the narrowing stores of the constructors
are explicit.
-/

namespace Silo.Node

open Silo.Header

/-- `transaction::tid_t`. -/
abbrev Tid := BitVec 64

/-- `transaction::MIN_TID`. -/
def minTid : Tid := 0

/-- The address of a node in the heap. -/
abbrev Ptr := Nat

/-- `transaction::logical_node`. `valueStart` is the payload buffer that follows
the node in its allocation. -/
structure LogicalNode where
  hdr : BitVec 64
  next : Option Ptr
  version : Tid
  size : BitVec 32
  allocSize : BitVec 32
  valueStart : List UInt8
  deriving DecidableEq, Repr

/-- `sizeof(logical_node)` for the packed struct: three 64-bit words and two
32-bit ones. -/
def sizeofLogicalNode : BitVec 64 := 32

/-- Modelled from the spec: `util::round_up<size_t, 16>` is in `util.h`, not
under src/; the spec rounds an allocation up to a multiple of 16 bytes, here in
`size_t` arithmetic. -/
def roundUp16 (n : BitVec 64) : BitVec 64 := BitVec.ofNat 64 ((n + 15).toNat / 16 * 16)

/-- `memcpy(dst, src, n)` into a buffer: the first `n` bytes of `dst` become those of `src`. -/
def memcpy (dst src : List UInt8) (n : Nat) : List UInt8 := src.take n ++ dst.drop n

namespace LogicalNode

/-- `logical_node(size_type alloc_size)`: the absent record at `MIN_TID` that
starts every chain, LATEST. -/
def first (allocSize : BitVec 64) : LogicalNode where
  hdr := initHdr true
  next := none
  version := minTid
  size := 0
  allocSize := allocSize.setWidth 32
  valueStart := List.replicate allocSize.toNat 0

/-- `logical_node(version, r, size, alloc_size, next, set_latest)`: copies `size`
bytes of `r` into a buffer of `alloc_size` bytes. -/
def ofRecord (version : Tid) (r : List UInt8) (size allocSize : BitVec 64) (next : Option Ptr)
    (setLatest : Bool) : LogicalNode where
  hdr := initHdr setLatest
  next := next
  version := version
  size := size.setWidth 32
  allocSize := allocSize.setWidth 32
  valueStart := memcpy (List.replicate allocSize.toNat 0) r size.toNat

def isNotBehind (n : LogicalNode) (t : Tid) : Bool := n.version ≤ t

/-- The record a node holds: its `size` first payload bytes. -/
def record (n : LogicalNode) : List UInt8 := n.valueStart.take n.size.toNat

/-- `version = t; size = sz; memcpy(&value_start[0], r, sz)`. -/
def writeInPlace (n : LogicalNode) (t : Tid) (r : List UInt8) : LogicalNode :=
  { n with
    version := t
    size := (BitVec.ofNat 64 r.length).setWidth 32
    valueStart := memcpy n.valueStart r r.length }

/-- `set_latest(false)`. -/
def clearLatest (n : LogicalNode) : LogicalNode := { n with hdr := setLatest false n.hdr }

section Fields

variable {r : List UInt8} {t version : Tid} {next : Option Ptr} {latest : Bool}

@[simp] theorem writeInPlace_version (n : LogicalNode) : (n.writeInPlace t r).version = t := rfl
@[simp] theorem writeInPlace_hdr (n : LogicalNode) : (n.writeInPlace t r).hdr = n.hdr := rfl
@[simp] theorem writeInPlace_next (n : LogicalNode) : (n.writeInPlace t r).next = n.next := rfl
@[simp] theorem writeInPlace_allocSize (n : LogicalNode) :
    (n.writeInPlace t r).allocSize = n.allocSize := rfl
@[simp] theorem clearLatest_version (n : LogicalNode) : n.clearLatest.version = n.version := rfl
@[simp] theorem clearLatest_next (n : LogicalNode) : n.clearLatest.next = n.next := rfl
@[simp] theorem clearLatest_record (n : LogicalNode) : n.clearLatest.record = n.record := rfl
@[simp] theorem clearLatest_size (n : LogicalNode) : n.clearLatest.size = n.size := rfl
@[simp] theorem clearLatest_allocSize (n : LogicalNode) : n.clearLatest.allocSize = n.allocSize := rfl
@[simp] theorem isLatest_clearLatest (n : LogicalNode) : isLatest n.clearLatest.hdr = false := by
  simp [clearLatest]

@[simp] theorem ofRecord_version (value : List UInt8) (sz a : BitVec 64) :
    (ofRecord version value sz a next latest).version = version := rfl
@[simp] theorem ofRecord_next (value : List UInt8) (sz a : BitVec 64) :
    (ofRecord version value sz a next latest).next = next := rfl
@[simp] theorem ofRecord_size (value : List UInt8) (sz a : BitVec 64) :
    (ofRecord version value sz a next latest).size = sz.setWidth 32 := rfl
@[simp] theorem ofRecord_allocSize (value : List UInt8) (sz a : BitVec 64) :
    (ofRecord version value sz a next latest).allocSize = a.setWidth 32 := rfl
@[simp] theorem first_allocSize (a : BitVec 64) : (first a).allocSize = a.setWidth 32 := rfl
@[simp] theorem isLatest_ofRecord (value : List UInt8) (sz a : BitVec 64) :
    isLatest (ofRecord version value sz a next latest).hdr = latest := by
  simp [ofRecord]

end Fields

end LogicalNode

/-! ## The heap -/

/-- The heap of logical nodes; a node's pointer is its position. -/
abbrev Heap := List LogicalNode

/-- `logical_node::alloc_first`: the first node of a new chain and its pointer. -/
def allocFirst (heap : Heap) (allocSz : BitVec 64) : Heap × Ptr :=
  let actualAllocSz := roundUp16 (sizeofLogicalNode + allocSz)
  (heap ++ [LogicalNode.first (actualAllocSz - sizeofLogicalNode)], heap.length)

/-- `logical_node::alloc`: a node holding `sz` bytes of `value`, and its pointer. -/
def alloc (heap : Heap) (version : Tid) (value : List UInt8) (sz : BitVec 64) (next : Option Ptr)
    (setLatest : Bool) : Heap × Ptr :=
  let allocSz := roundUp16 (sizeofLogicalNode + sz)
  (heap ++ [LogicalNode.ofRecord version value sz (allocSz - sizeofLogicalNode) next setLatest],
    heap.length)

/-- `logical_node::write_record_at` on the node at `self`, for a transaction whose
`can_overwrite_record_tid` is `canOverwriteRecordTid`: the heap after the write,
whether the number of versions grew, and the replacement node if one was made. -/
def writeRecordAt (canOverwriteRecordTid : Tid → Tid → Bool) (heap : Heap) (self : Ptr) (t : Tid)
    (r : List UInt8) : Heap × Bool × Option Ptr :=
  match heap[self]? with
  | none => (heap, false, none)
  | some n =>
      let sz : BitVec 64 := BitVec.ofNat 64 r.length
      if canOverwriteRecordTid n.version t then
        if sz ≤ n.allocSize.setWidth 64 then
          (heap.set self (n.writeInPlace t r), false, none)
        else
          let (heap, rep) := alloc (heap.set self n.clearLatest) t r sz n.next true
          (heap, false, some rep)
      else if sz ≤ n.allocSize.setWidth 64 then
        let (heap, spill) := alloc heap n.version n.valueStart sz n.next false
        (heap.set self { n.writeInPlace t r with next := some spill }, true, none)
      else
        let (heap, rep) := alloc (heap.set self n.clearLatest) t r sz (some self) true
        (heap, true, some rep)

/-! ## Chains and reads -/

/-- Following `next` from `p` visits the nodes at `ps`, then reaches a null pointer. -/
inductive ChainRep (heap : Heap) : Option Ptr → List Ptr → Prop
  | null : ChainRep heap none []
  | cons {p : Ptr} {n : LogicalNode} {ps : List Ptr} (read : heap[p]? = some n)
      (rest : ChainRep heap n.next ps) : ChainRep heap (some p) (p :: ps)

/-- The nodes at a list of pointers. -/
def nodesAt (heap : Heap) (ps : List Ptr) : List LogicalNode := ps.filterMap (heap[·]?)

/-- `logical_node::record_at` along the nodes of a chain, with no concurrent
writer, so that every `check_version` succeeds: the first node not behind `t`
answers with its tid and record, and when `requireLatest` is set the entry node
must carry LATEST. -/
def recordAt : List LogicalNode → Tid → Bool → Option (Tid × List UInt8)
  | [], _, _ => none
  | n :: rest, t, requireLatest =>
      if n.isNotBehind t then
        if requireLatest && !isLatest n.hdr then none else some (n.version, n.record)
      else recordAt rest t false

/-- `logical_node::stable_read`. -/
def stableRead (ns : List LogicalNode) (t : Tid) : Option (Tid × List UInt8) := recordAt ns t true

/-- `logical_node::record_at` on the node at `p`, with no concurrent writer, as
the code recurses: each call reads its node and answers, or, when the node is
newer than `t`, returns false at a null `next` and calls itself on `next`
otherwise. At most `calls` calls are made; `none` means that the recursion goes
deeper, or reaches a pointer to no node. -/
def recordAtFrom (heap : Heap) : Nat → Ptr → Tid → Bool → Option (Option (Tid × List UInt8))
  | 0, _, _, _ => none
  | calls + 1, p, t, requireLatest =>
      match heap[p]? with
      | none => none
      | some n =>
          if n.isNotBehind t then
            some (if requireLatest && !isLatest n.hdr then none else some (n.version, n.record))
          else
            match n.next with
            | none => some none
            | some q => recordAtFrom heap calls q t false

/-- The nodes met following `next` from `p`, for at most `fuel` steps. -/
def walk (heap : Heap) : Nat → Option Ptr → List LogicalNode
  | 0, _ => []
  | _ + 1, none => []
  | fuel + 1, some p =>
      match heap[p]? with
      | none => []
      | some n => n :: walk heap fuel n.next

/-- The chain from `p`; a chain visits each cell at most once. -/
def chainFrom (heap : Heap) (p : Ptr) : List LogicalNode := walk heap heap.length (some p)

/-! ## Chains in a changing heap -/

namespace ChainRep

variable {heap : Heap}

theorem lt_length {p : Option Ptr} {ps : List Ptr} (h : ChainRep heap p ps) :
    ∀ q ∈ ps, q < heap.length := by
  induction h with
  | null => simp
  | cons read _ ih =>
      intro q hq
      rcases List.mem_cons.1 hq with rfl | hq
      · exact (List.getElem?_eq_some_iff.1 read).1
      · exact ih q hq

/-- Allocation leaves every chain in place. -/
theorem append {p : Option Ptr} {ps : List Ptr} (h : ChainRep heap p ps) (extra : List LogicalNode) :
    ChainRep (heap ++ extra) p ps := by
  induction h with
  | null => exact .null
  | cons read _ ih =>
      exact .cons (by rw [List.getElem?_append_left (List.getElem?_eq_some_iff.1 read).1, read]) ih

/-- A write to a cell off the chain leaves the chain in place. -/
theorem set_of_not_mem {p : Option Ptr} {ps : List Ptr} (h : ChainRep heap p ps) {q : Ptr}
    (hq : q ∉ ps) (m : LogicalNode) : ChainRep (heap.set q m) p ps := by
  induction h with
  | null => exact .null
  | @cons p' n ps read _ ih =>
      have hne : q ≠ p' := fun heq => hq (heq ▸ List.mem_cons_self _ _)
      exact .cons (by rw [List.getElem?_set_ne hne, read])
        (ih fun hmem => hq (List.mem_cons_of_mem _ hmem))

/-- A chain stays in place in another heap whose cells on it keep their `next`. -/
theorem congr_next {p : Option Ptr} {ps : List Ptr} (h : ChainRep heap p ps) {heap' : Heap}
    (hsame : ∀ q ∈ ps, ∀ n, heap[q]? = some n → ∃ n', heap'[q]? = some n' ∧ n'.next = n.next) :
    ChainRep heap' p ps := by
  induction h with
  | null => exact .null
  | @cons q n ps read _ ih =>
      obtain ⟨n', read', hnext⟩ := hsame q (List.mem_cons_self _ _) n read
      exact .cons read' (hnext ▸ ih fun x hx => hsame x (List.mem_cons_of_mem _ hx))

theorem head_eq {p x : Ptr} {xs : List Ptr} (h : ChainRep heap (some p) (x :: xs)) : x = p := by
  cases h
  rfl

theorem unique {p : Option Ptr} {ps ps' : List Ptr} (h : ChainRep heap p ps)
    (h' : ChainRep heap p ps') : ps = ps' := by
  induction h generalizing ps' with
  | null => cases h'; rfl
  | cons read _ ih =>
      cases h' with
      | cons read' rest' =>
          rw [read] at read'
          cases read'
          rw [ih rest']

/-- The chain from a node met along a chain is the rest of that chain. -/
theorem from_mem {p : Option Ptr} {as bs : List Ptr} {q : Ptr} (h : ChainRep heap p (as ++ q :: bs)) :
    ChainRep heap (some q) (q :: bs) := by
  induction as generalizing p with
  | nil => cases h with | cons read rest => exact .cons read rest
  | cons a as ih =>
      cases h with
      | cons _ rest => exact ih rest

/-- Chains are acyclic: they visit each cell at most once. -/
theorem nodup {p : Option Ptr} {ps : List Ptr} (h : ChainRep heap p ps) : ps.Nodup := by
  induction h with
  | null => exact List.nodup_nil
  | @cons p n ps read rest ih =>
      refine List.nodup_cons.2 ⟨fun hp => ?_, ih⟩
      obtain ⟨as, bs, rfl⟩ := List.append_of_mem hp
      have hsame := unique (from_mem rest) (ChainRep.cons read rest)
      have := congrArg List.length hsame
      simp at this
      omega

theorem length_le {p : Option Ptr} {ps : List Ptr} (h : ChainRep heap p ps) :
    ps.length ≤ heap.length := by
  have hsub : ps ⊆ List.range heap.length := fun q hq => List.mem_range.2 (h.lt_length q hq)
  simpa using (List.subperm_of_subset h.nodup hsub).length_le

end ChainRep

@[simp] theorem nodesAt_nil (heap : Heap) : nodesAt heap [] = [] := rfl

theorem nodesAt_cons {heap : Heap} {p : Ptr} {n : LogicalNode} (ps : List Ptr)
    (h : heap[p]? = some n) : nodesAt heap (p :: ps) = n :: nodesAt heap ps := by
  simp [nodesAt, h]

theorem nodesAt_append (heap : Heap) (ps qs : List Ptr) :
    nodesAt heap (ps ++ qs) = nodesAt heap ps ++ nodesAt heap qs :=
  List.filterMap_append _ _ _

theorem mem_nodesAt {heap : Heap} {ps : List Ptr} {x : Ptr} {m : LogicalNode} (hx : x ∈ ps)
    (hm : heap[x]? = some m) : m ∈ nodesAt heap ps :=
  List.mem_filterMap.2 ⟨x, hx, hm⟩

theorem nodesAt_append_of_lt {heap : Heap} {ps : List Ptr} (h : ∀ q ∈ ps, q < heap.length)
    (extra : List LogicalNode) : nodesAt (heap ++ extra) ps = nodesAt heap ps := by
  unfold nodesAt
  exact List.filterMap_congr fun q hq => List.getElem?_append_left (h q hq)

theorem nodesAt_set_of_not_mem {heap : Heap} {ps : List Ptr} {q : Ptr} (hq : q ∉ ps)
    (m : LogicalNode) : nodesAt (heap.set q m) ps = nodesAt heap ps := by
  unfold nodesAt
  exact List.filterMap_congr fun p hp =>
    List.getElem?_set_ne fun heq => by subst heq; exact hq hp

/-- What a chain says of its head: it is allocated, off its tail, and its `next`
starts the tail. -/
theorem ChainRep.head_facts {heap : Heap} {self : Ptr} {rest : List Ptr} {n : LogicalNode} (hchain : ChainRep heap (some self) (self :: rest))
    (hn : heap[self]? = some n) :
    self < heap.length ∧ self ∉ rest ∧ ChainRep heap n.next rest := by
  refine ⟨hchain.lt_length self (List.mem_cons_self _ _), (List.nodup_cons.1 hchain.nodup).1, ?_⟩
  cases hchain with
  | cons read rest' => rw [hn] at read; cases read; exact rest'

/-- Walking a chain with enough fuel visits exactly its nodes. -/
theorem ChainRep.walk_eq {heap : Heap} {p : Option Ptr} {ps : List Ptr} (h : ChainRep heap p ps)
    {fuel : Nat} (hfuel : ps.length ≤ fuel) : walk heap fuel p = nodesAt heap ps := by
  induction h generalizing fuel with
  | null => cases fuel <;> rfl
  | cons read _ ih =>
      cases fuel with
      | zero => simp at hfuel
      | succ fuel =>
          simp only [walk, read, nodesAt_cons _ read]
          rw [ih (by simpa using hfuel)]

theorem ChainRep.chainFrom_eq {heap : Heap} {p : Ptr} {ps : List Ptr}
    (h : ChainRep heap (some p) ps) : chainFrom heap p = nodesAt heap ps :=
  h.walk_eq h.length_le

end Silo.Node
