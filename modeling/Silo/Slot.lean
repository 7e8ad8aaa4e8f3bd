import Silo.Read
import Silo.Bracket

/-!
# A key's slot, its committers and a reader

The index holds, for each key, a slot pointing to the head of the key's version
chain. A committer takes the head's lock, runs `write_record_at` with a tid newer
than the chain, swaps the slot to the replacement if the write returned one, and
unlocks. A reader takes a node from the slot and later runs `stable_read` on it,
with the optimistic bracket of `record_at` on each node it visits.

`Step` interleaves the atomic steps of any number of committers with those of
one reader. The compare-and-swap of `lock()`, the whole of `write_record_at`, the
swap of the slot and the read-modify-store of `unlock()` are atomic steps of a
committer (`Silo.Lock` shows that no other thread writes a locked header, so the
read and the store of `unlock()` may be taken together). Every read of a shared
word by the reader is a step of its own, but for the copy of the record (`size`
and the payload), which is one step, as in `Silo.Bracket`. The reader also keeps
ghost data: the unlock count of its node at the header read that opened the
bracket, and the unlock counts at the start of its call. The state keeps a ghost
log of the `(t, r)` each `write_record_at` commits, which `Silo.Serial` replays.

This module states the invariants of the committers: the slot always heads a
chain; a node is locked exactly when one committer holds it; the node a
committer has locked is the head until it swaps the slot; a pending replacement
is a LATEST node one step ahead of the head. Steps change no node but through
the lock discipline of `Silo.Bracket`, and keep the tail of any displaced head
a suffix of the chain from the slot.
-/

namespace Silo.Slot

open Silo.Header Silo.Node Silo.Write Silo.Read Silo.Bracket

/-- Where a committer is in its commit on the key. -/
inductive CommitPhase where
  | idle
  /-- After `lock()` on the head `p`. -/
  | locked (p : Ptr)
  /-- After `write_record_at` on `p`, which returned the replacement `rep`, if any. -/
  | written (p : Ptr) (rep : Option Ptr)
  /-- After swapping the slot; `unlock()` on `p` is next. -/
  | swapped (p : Ptr)
  deriving DecidableEq, Repr

/-- The node a committer holds locked. -/
def CommitPhase.owns : CommitPhase → Option Ptr
  | .idle => none
  | .locked p => some p
  | .written p _ => some p
  | .swapped p => some p

@[simp] theorem CommitPhase.owns_idle : CommitPhase.idle.owns = none := rfl

@[simp] theorem CommitPhase.owns_locked (p : Ptr) : (CommitPhase.locked p).owns = some p := rfl

@[simp] theorem CommitPhase.owns_written (p : Ptr) (rep : Option Ptr) :
    (CommitPhase.written p rep).owns = some p := rfl

@[simp] theorem CommitPhase.owns_swapped (p : Ptr) : (CommitPhase.swapped p).owns = some p := rfl

/-- Where the reader is: before taking a node from the slot, holding it before
its call, or at one of the reads of `record_at` on its current node. -/
inductive ReadPhase where
  | take
  | start
  | stable
  | readNext
  | readVersion
  | readStart
  | readRecord
  | check
  | done
  deriving DecidableEq, Repr

/-- The reader's locals: those of `record_at` on its current node (`v`, `p`,
`found`, `start_t`, `r`), the result once it returns, and ghost data. -/
structure Reader where
  pc : ReadPhase
  node : Ptr
  requireLatest : Bool
  v : BitVec 64
  next : Option Ptr
  found : Bool
  startT : Tid
  r : List UInt8
  result : Option (Tid × List UInt8)
  /-- Ghost: the unlock count of `node` when `v` was read. -/
  u0 : Nat
  /-- Ghost: the unlock counts when the call started. -/
  callStart : Ptr → Nat

/-- The shared state: the nodes, the slot, and a ghost count of the unlocks of
each node; where the committers and the reader are; and a ghost log of the
commits. -/
structure Sys (τ : Type) where
  heap : Heap
  slot : Ptr
  unlocks : Ptr → Nat
  committer : τ → CommitPhase
  reader : Reader
  /-- Ghost: the tid and record of each `write_record_at` so far, in the order the
  writes ran. -/
  log : List (Tid × List UInt8)

/-- One step of the reader running `stable_read(t', start_t, r)`. -/
def readerStep (t' : Tid) (heap : Heap) (slot : Ptr) (unlocks : Ptr → Nat) (rd : Reader) : Reader :=
  match rd.pc, heap[rd.node]? with
  | .take, _ => { rd with pc := .start, node := slot, requireLatest := true }
  | .start, _ => { rd with pc := .stable, callStart := unlocks }
  | .done, _ => rd
  | _, none => rd
  | .stable, some n =>
      if isLocked n.hdr then rd else { rd with pc := .readNext, v := n.hdr, u0 := unlocks rd.node }
  | .readNext, some n => { rd with pc := .readVersion, next := n.next }
  | .readVersion, some n =>
      if n.isNotBehind t' then
        if rd.requireLatest && !isLatest rd.v then { rd with pc := .done, result := none }
        else { rd with pc := .readStart, found := true }
      else { rd with pc := .check, found := false }
  | .readStart, some n => { rd with pc := .readRecord, startT := n.version }
  | .readRecord, some n => { rd with pc := .check, r := n.record }
  | .check, some n =>
      if n.hdr = rd.v then
        if rd.found then { rd with pc := .done, result := some (rd.startT, rd.r) }
        else
          match rd.next with
          | some q => { rd with pc := .stable, node := q, requireLatest := false }
          | none => { rd with pc := .done, result := none }
      else { rd with pc := .stable }

section System

variable {τ : Type} [DecidableEq τ]

/-- The system after one step of the reader. -/
def Sys.readStep (t' : Tid) (s : Sys τ) : Sys τ :=
  { s with reader := readerStep t' s.heap s.slot s.unlocks s.reader }

/-- The atomic steps, for the overwrite policy `c` and the reader's tid `t'`. -/
inductive Step (c : Tid → Tid → Bool) (t' : Tid) : Sys τ → Sys τ → Prop
  /-- `lock()` on the node in the slot: the compare-and-swap on its unlocked header. -/
  | lock {s : Sys τ} (i : τ) {n : LogicalNode} (hidle : s.committer i = .idle)
      (hn : s.heap[s.slot]? = some n) (hunlocked : isLocked n.hdr = false) :
      Step c t' s { s with
        heap := s.heap.set s.slot { n with hdr := Header.lock n.hdr }
        committer := Function.update s.committer i (.locked s.slot) }
  /-- `write_record_at(txn, t, r)` on the locked head, for a tid newer than every
  tid of its chain. -/
  | write {s : Sys τ} (i : τ) {p : Ptr} (t : Tid) (r : List UInt8)
      (hlocked : s.committer i = .locked p) (hnewer : ∀ m ∈ chainFrom s.heap p, m.version < t) :
      Step c t' s { s with
        heap := (writeRecordAt c s.heap p t r).1
        committer := Function.update s.committer i (.written p (writeRecordAt c s.heap p t r).2.2)
        log := s.log ++ [(t, r)] }
  /-- The slot takes the replacement, if there is one. -/
  | swap {s : Sys τ} (i : τ) {p : Ptr} {rep : Option Ptr} (hwritten : s.committer i = .written p rep) :
      Step c t' s { s with
        slot := rep.getD p
        committer := Function.update s.committer i (.swapped p) }
  /-- `unlock()`: VERSION advances and LOCKED clears. -/
  | unlock {s : Sys τ} (i : τ) {p : Ptr} {n : LogicalNode} (hswapped : s.committer i = .swapped p)
      (hn : s.heap[p]? = some n) :
      Step c t' s { s with
        heap := s.heap.set p { n with hdr := Header.unlock n.hdr }
        unlocks := Function.update s.unlocks p (s.unlocks p + 1)
        committer := Function.update s.committer i .idle }
  /-- A step of the reader. -/
  | read {s : Sys τ} : Step c t' s (s.readStep t')

/-- The key's chain from `alloc_first`, no committer busy, and the reader about to
take a node from the slot. -/
def init (allocSz : BitVec 64) : Sys τ where
  heap := (allocFirst [] allocSz).1
  slot := 0
  unlocks := fun _ => 0
  committer := fun _ => .idle
  reader :=
    { pc := .take, node := 0, requireLatest := true, v := 0, next := none, found := false,
      startT := 0, r := [], result := none, u0 := 0, callStart := fun _ => 0 }
  log := []

/-- The states some interleaving reaches. -/
inductive Reachable (c : Tid → Tid → Bool) (t' : Tid) (allocSz : BitVec 64) : Sys τ → Prop
  | init : Reachable c t' allocSz (init allocSz)
  | step {s s' : Sys τ} : Reachable c t' allocSz s → Step c t' s s' → Reachable c t' allocSz s'

end System

/-! ## Heaps that keep the links -/

/-- Every cell of `heap` is in `heap'` with the same `next` and tid. -/
def SameLinks (heap heap' : Heap) : Prop :=
  ∀ (x : Ptr) (m : LogicalNode), heap[x]? = some m →
    ∃ m', heap'[x]? = some m' ∧ m'.next = m.next ∧ m'.version = m.version

theorem sameLinks_set_hdr {heap : Heap} {q : Ptr} {n : LogicalNode} (hn : heap[q]? = some n)
    (w : BitVec 64) : SameLinks heap (heap.set q { n with hdr := w }) := by
  intro x m hm
  by_cases hx : x = q
  · subst hx
    rw [hn] at hm
    cases hm
    exact ⟨_, List.getElem?_set_self (List.getElem?_eq_some_iff.1 hn).1, rfl, rfl⟩
  · exact ⟨m, by rw [List.getElem?_set_ne (Ne.symm hx), hm], rfl, rfl⟩

theorem SameLinks.chainRep {heap heap' : Heap} (h : SameLinks heap heap') {p : Option Ptr}
    {ps : List Ptr} (hchain : ChainRep heap p ps) : ChainRep heap' p ps :=
  hchain.congr_next fun q _ n hn => (h q n hn).imp fun _ h' => ⟨h'.1, h'.2.1⟩

/-- A cell of a heap after one cell was set: the new cell, or an old one. -/
theorem eq_or_of_getElem?_set {heap : Heap} {p q : Ptr} {x m : LogicalNode} (hp : p < heap.length)
    (hm : (heap.set p x)[q]? = some m) : (q = p ∧ m = x) ∨ (q ≠ p ∧ heap[q]? = some m) := by
  by_cases hq : q = p
  · subst hq
    rw [List.getElem?_set_self hp] at hm
    exact .inl ⟨rfl, (Option.some_inj.1 hm).symm⟩
  · rw [List.getElem?_set_ne (Ne.symm hq)] at hm
    exact .inr ⟨hq, hm⟩

/-! ## Suffixes of the live chain -/

/-- The chain from `y` is the end of the chain from the slot, below a nonempty
part whose tids are all at least `lo`. -/
def SuffixAbove (heap : Heap) (slot y : Ptr) (lo : Nat) : Prop :=
  ∃ above ys, above ≠ [] ∧ ChainRep heap (some slot) (above ++ ys) ∧ ChainRep heap (some y) ys ∧
    ∀ x ∈ above, ∀ m : LogicalNode, heap[x]? = some m → lo ≤ m.version.toNat

theorem SuffixAbove.mono {heap : Heap} {slot y : Ptr} {lo lo' : Nat} (h : SuffixAbove heap slot y lo)
    (hle : lo' ≤ lo) : SuffixAbove heap slot y lo' := by
  obtain ⟨above, ys, hne, hlive, hys, hver⟩ := h
  exact ⟨above, ys, hne, hlive, hys, fun x hx m hm => hle.trans (hver x hx m hm)⟩

theorem SuffixAbove.sameLinks {heap heap' : Heap} {slot y : Ptr} {lo : Nat}
    (h : SuffixAbove heap slot y lo) (hsame : SameLinks heap heap') : SuffixAbove heap' slot y lo := by
  obtain ⟨above, ys, hne, hlive, hys, hver⟩ := h
  refine ⟨above, ys, hne, hsame.chainRep hlive, hsame.chainRep hys, fun x hx m' hm' => ?_⟩
  have hlt := hlive.lt_length x (List.mem_append_left _ hx)
  obtain ⟨m, hm⟩ : ∃ m, heap[x]? = some m := ⟨_, List.getElem?_eq_getElem hlt⟩
  obtain ⟨m'', hm'', -, hversion⟩ := hsame x m hm
  rw [hm'] at hm''
  cases hm''
  rw [hversion]
  exact hver x hx m hm

/-! ## The committers' invariant -/

/-- A pending replacement `q` of the head `p`: `p` has lost LATEST, and `q` is an
unlocked LATEST node with a newer tid, followed by `p`'s tail or by `p`. -/
def Pending (heap : Heap) (p q : Ptr) : Prop :=
  ∃ n m, heap[p]? = some n ∧ heap[q]? = some m ∧ isLatest n.hdr = false ∧ isLatest m.hdr = true ∧
    isLocked m.hdr = false ∧ n.version < m.version ∧ (m.next = n.next ∨ m.next = some p)

section Invariant

variable {τ : Type}

/-- What holds of the heap and the committers in every reachable state. -/
structure Inv (s : Sys τ) : Prop where
  /-- The slot heads a chain. -/
  live : ∃ ps, ChainRep s.heap (some s.slot) ps
  /-- Committers hold allocated nodes, and no two the same one. -/
  owns_lt : ∀ i p, (s.committer i).owns = some p → p < s.heap.length
  owns_unique : ∀ i j p, (s.committer i).owns = some p → (s.committer j).owns = some p → i = j
  /-- LOCKED is set exactly on the nodes a committer holds. -/
  locked_iff : ∀ q n, s.heap[q]? = some n →
    (isLocked n.hdr = true ↔ ∃ i, (s.committer i).owns = some q)
  /-- The node a committer locked is the head until it swaps the slot. -/
  locked_slot : ∀ i p, s.committer i = .locked p → p = s.slot
  written_slot : ∀ i p rep, s.committer i = .written p rep →
    p = s.slot ∧ ∀ q, rep = some q → Pending s.heap p q
  /-- VERSION counts the unlocks of each node; cells yet to be made have none. -/
  version_eq : ∀ q n, s.heap[q]? = some n → (decode n.hdr).version = BitVec.ofNat 60 (s.unlocks q)
  fresh : ∀ q, s.heap.length ≤ q → s.unlocks q = 0

variable {s : Sys τ}

theorem Inv.slot_node (hinv : Inv s) : ∃ n, s.heap[s.slot]? = some n := by
  obtain ⟨ps, hlive⟩ := hinv.live
  cases hlive with
  | cons read _ => exact ⟨_, read⟩

theorem Inv.not_owned (hinv : Inv s) {q : Ptr} {n : LogicalNode} (hn : s.heap[q]? = some n)
    (hunlocked : isLocked n.hdr = false) (i : τ) : (s.committer i).owns ≠ some q := fun h => by
  have := (hinv.locked_iff q n hn).2 ⟨i, h⟩
  simp_all

theorem Inv.owner_locked (hinv : Inv s) {i : τ} {q : Ptr} (h : (s.committer i).owns = some q) :
    ∃ n, s.heap[q]? = some n ∧ isLocked n.hdr = true := by
  obtain ⟨n, hn⟩ : ∃ n, s.heap[q]? = some n := ⟨_, List.getElem?_eq_getElem (hinv.owns_lt i q h)⟩
  exact ⟨n, hn, (hinv.locked_iff q n hn).2 ⟨i, h⟩⟩

/-- Only the committer that locked the head may write it or swap the slot. -/
theorem Inv.slot_owner (hinv : Inv s) {i j : τ} {p : Ptr} (hi : (s.committer i).owns = some s.slot)
    (hj : s.committer j = .locked p ∨ ∃ rep, s.committer j = .written p rep) : j = i := by
  have hp : p = s.slot := by
    rcases hj with hj | ⟨rep, hj⟩
    · exact hinv.locked_slot j p hj
    · exact (hinv.written_slot j p rep hj).1
  refine hinv.owns_unique j i s.slot ?_ hi
  rcases hj with hj | ⟨rep, hj⟩ <;> simp [hj, hp]

end Invariant

/-! ## Each step keeps the invariant -/

section Preservation

variable {τ : Type} [DecidableEq τ] {s : Sys τ}

theorem owns_update (f : τ → CommitPhase) (i : τ) (ph : CommitPhase) (j : τ) :
    (Function.update f i ph j).owns = if j = i then ph.owns else (f j).owns := by
  by_cases hj : j = i
  · subst hj; simp
  · simp [hj]

theorem owns_update_of_eq {f : τ → CommitPhase} {i : τ} {ph : CommitPhase} (h : ph.owns = (f i).owns)
    (j : τ) : (Function.update f i ph j).owns = (f j).owns := by
  rw [owns_update]
  split_ifs with hj
  · rw [hj, h]
  · rfl

theorem Inv.lock (hinv : Inv s) {i : τ} {n : LogicalNode} (hidle : s.committer i = .idle)
    (hn : s.heap[s.slot]? = some n) (hunlocked : isLocked n.hdr = false) :
    Inv { s with
      heap := s.heap.set s.slot { n with hdr := Header.lock n.hdr }
      committer := Function.update s.committer i (.locked s.slot) } := by
  have hslot := (List.getElem?_eq_some_iff.1 hn).1
  have hfree := hinv.not_owned hn hunlocked
  obtain ⟨ps, hlive⟩ := hinv.live
  refine ⟨⟨ps, (sameLinks_set_hdr hn _).chainRep hlive⟩, fun j p hj => ?_, fun j k p hj hk => ?_,
    fun q m hm => ?_, fun j p hj => ?_, fun j p rep hj => ?_, fun q m hm => ?_, fun q hq => ?_⟩
  · rw [owns_update] at hj
    split_ifs at hj
    · cases hj; simpa using hslot
    · simpa using hinv.owns_lt j p hj
  · rw [owns_update] at hj hk
    split_ifs at hj hk with hji hki hki
    · rw [hji, hki]
    · cases hj; exact absurd hk (hfree k)
    · cases hk; exact absurd hj (hfree j)
    · exact hinv.owns_unique j k p hj hk
  · simp only [owns_update]
    rcases eq_or_of_getElem?_set hslot hm with ⟨rfl, rfl⟩ | ⟨hq, hm⟩
    · simp only [isLocked_eq, decode_lock, true_iff]
      exact ⟨i, by simp⟩
    · rw [hinv.locked_iff q m hm]
      refine exists_congr fun j => ?_
      by_cases hj : j = i
      · subst hj; simp [hidle, Ne.symm hq]
      · simp [hj]
  · by_cases hji : j = i
    · subst hji; simpa using hj.symm
    · simp only [Function.update_noteq hji] at hj
      exact hinv.locked_slot j p hj
  · have hji : j ≠ i := by rintro rfl; simp at hj
    simp only [Function.update_noteq hji] at hj
    obtain ⟨rfl, -⟩ := hinv.written_slot j p rep hj
    exact absurd (by simp [hj]) (hfree j)
  · rcases eq_or_of_getElem?_set hslot hm with ⟨rfl, rfl⟩ | ⟨-, hm⟩
    · simpa using hinv.version_eq _ n hn
    · exact hinv.version_eq q m hm
  · exact hinv.fresh q (by simpa using hq)

theorem Inv.write (hinv : Inv s) {c : Tid → Tid → Bool} {i : τ} {p : Ptr} {t : Tid} (r : List UInt8)
    (hlocked : s.committer i = .locked p) (hnewer : ∀ m ∈ chainFrom s.heap p, m.version < t) :
    Inv { s with
      heap := (writeRecordAt c s.heap p t r).1
      committer := Function.update s.committer i (.written p (writeRecordAt c s.heap p t r).2.2)
      log := s.log ++ [(t, r)] } := by
  have hp := hinv.locked_slot i p hlocked
  obtain ⟨ps, hlive⟩ := hinv.live
  rw [← hp] at hlive
  obtain ⟨n, hn⟩ : ∃ n, s.heap[p]? = some n := by cases hlive with | cons read _ => exact ⟨_, read⟩
  obtain ⟨rest, rfl⟩ : ∃ rest, ps = p :: rest := by cases hlive; exact ⟨_, rfl⟩
  obtain ⟨hself, hnot, hrest⟩ := hlive.head_facts hn
  have hip : (s.committer i).owns = some p := by simp [hlocked]
  have ht : n.version < t :=
    hnewer n (by rw [hlive.chainFrom_eq, nodesAt_cons _ hn]; exact List.mem_cons_self _ _)
  obtain ⟨hge, -, -, -⟩ := writeRecordAt_cells (c := c) hn t r
  have hrep := writeRecordAt_rep (c := c) hn t r
  have howns : ∀ j, (Function.update s.committer i
      (.written p (writeRecordAt c s.heap p t r).2.2) j).owns = (s.committer j).owns :=
    owns_update_of_eq (by rw [hip]; rfl)
  refine ⟨?_, fun j q hj => ?_, fun j k q hj hk => ?_, fun q m hm => ?_, fun j q hj => ?_,
    fun j q rep hj => ?_, fun q m hm => ?_, fun q hq => ?_⟩
  · -- the slot still heads a chain
    simp only [← hp]
    by_cases hs : BitVec.ofNat 64 r.length ≤ n.allocSize.setWidth 64
    · have hchain := (writeRecordAt_chain (c := c) hlive hn t r).1
      rw [hrep, if_pos hs] at hchain
      exact ⟨_, hchain⟩
    · refine ⟨p :: rest, .cons (writeRecordAt_self_of_rep hn t r hself hs) ?_⟩
      exact hrest.congr_next fun q hq m hm =>
        ⟨m, by rw [writeRecordAt_frame hn t r (fun h => hnot (h ▸ hq)) (hrest.lt_length q hq), hm],
          rfl⟩
  · rw [howns] at hj
    exact lt_of_lt_of_le (hinv.owns_lt j q hj) hge
  · rw [howns] at hj hk
    exact hinv.owns_unique j k q hj hk
  · simp only [howns]
    rcases writeRecordAt_cell_cases hn t r hm with ⟨rfl, hhdr⟩ | ⟨-, -, hm⟩ | ⟨rfl, b, hhdr⟩
    · rw [← hinv.locked_iff q n hn]
      rcases hhdr with hhdr | hhdr <;> simp [hhdr]
    · exact hinv.locked_iff q m hm
    · simp only [hhdr, isLocked_eq, decode_initHdr, Bool.false_eq_true, false_iff, not_exists]
      exact fun j hj => absurd (hinv.owns_lt j _ hj) (lt_irrefl _)
  · have hji : j ≠ i := by rintro rfl; simp at hj
    simp only [Function.update_noteq hji] at hj
    exact hinv.locked_slot j q hj
  · by_cases hji : j = i
    · subst hji
      simp only [Function.update_same, CommitPhase.written.injEq] at hj
      obtain ⟨rfl, rfl⟩ := hj
      refine ⟨hp, fun q hq => ?_⟩
      have hs : ¬ BitVec.ofNat 64 r.length ≤ n.allocSize.setWidth 64 := by
        intro hs
        simp [hrep, hs] at hq
      rw [hrep, if_neg hs] at hq
      cases hq
      refine ⟨_, _, writeRecordAt_self_of_rep hn t r hself hs, writeRecordAt_rep_node hn t r hs,
        LogicalNode.isLatest_clearLatest n, LogicalNode.isLatest_ofRecord .., by simp [LogicalNode.ofRecord],
        ?_, ?_⟩
      · simpa using ht
      · by_cases hc : c n.version t <;> simp [hc]
    · simp only [Function.update_noteq hji] at hj
      obtain ⟨rfl, -⟩ := hinv.written_slot j q rep hj
      exact absurd (hinv.owns_unique j i _ (by simp [hj]) (hp ▸ hip)) hji
  · rcases writeRecordAt_cell_cases hn t r hm with ⟨rfl, hhdr⟩ | ⟨-, -, hm⟩ | ⟨rfl, b, hhdr⟩
    · rw [← hinv.version_eq q n hn]
      rcases hhdr with hhdr | hhdr <;> simp [hhdr]
    · exact hinv.version_eq q m hm
    · simp [hhdr, hinv.fresh _ le_rfl]
  · exact hinv.fresh q (le_trans hge hq)

theorem Inv.swap (hinv : Inv s) {i : τ} {p : Ptr} {rep : Option Ptr}
    (hwritten : s.committer i = .written p rep) :
    Inv { s with slot := rep.getD p, committer := Function.update s.committer i (.swapped p) } := by
  obtain ⟨hp, hpending⟩ := hinv.written_slot i p rep hwritten
  have hip : (s.committer i).owns = some s.slot := by simp [hwritten, hp]
  have howns : ∀ j, (Function.update s.committer i (.swapped p) j).owns = (s.committer j).owns :=
    owns_update_of_eq (by rw [hwritten]; rfl)
  refine ⟨?_, fun j q hj => ?_, fun j k q hj hk => ?_, fun q m hm => ?_, fun j q hj => ?_,
    fun j q rep' hj => ?_, hinv.version_eq, hinv.fresh⟩
  · -- the slot heads the replacement's chain
    obtain ⟨ps, hlive⟩ := hinv.live
    cases rep with
    | none => exact ⟨ps, by simpa [hp] using hlive⟩
    | some q =>
        obtain ⟨n, m, hn, hm, -, -, -, -, hnext⟩ := hpending q rfl
        rw [← hp] at hlive
        obtain ⟨rest, rfl⟩ : ∃ rest, ps = p :: rest := by cases hlive; exact ⟨_, rfl⟩
        obtain ⟨-, -, hrest⟩ := hlive.head_facts hn
        rcases hnext with hnext | hnext
        · exact ⟨q :: rest, .cons hm (hnext ▸ hrest)⟩
        · exact ⟨q :: p :: rest, .cons hm (hnext ▸ hlive)⟩
  · rw [howns] at hj
    exact hinv.owns_lt j q hj
  · rw [howns] at hj hk
    exact hinv.owns_unique j k q hj hk
  · simp only [howns]
    exact hinv.locked_iff q m hm
  · have hji : j ≠ i := by rintro rfl; simp at hj
    simp only [Function.update_noteq hji] at hj
    exact absurd (hinv.slot_owner hip (.inl hj)) hji
  · have hji : j ≠ i := by rintro rfl; simp at hj
    simp only [Function.update_noteq hji] at hj
    exact absurd (hinv.slot_owner hip (.inr ⟨rep', hj⟩)) hji

theorem Inv.unlock (hinv : Inv s) {i : τ} {p : Ptr} {n : LogicalNode}
    (hswapped : s.committer i = .swapped p) (hn : s.heap[p]? = some n) :
    Inv { s with
      heap := s.heap.set p { n with hdr := Header.unlock n.hdr }
      unlocks := Function.update s.unlocks p (s.unlocks p + 1)
      committer := Function.update s.committer i .idle } := by
  have hself := (List.getElem?_eq_some_iff.1 hn).1
  have hip : (s.committer i).owns = some p := by simp [hswapped]
  have hsame : ∀ q, q ≠ p → (s.heap.set p { n with hdr := Header.unlock n.hdr })[q]? = s.heap[q]? :=
    fun q hq => List.getElem?_set_ne (Ne.symm hq)
  have hother : ∀ j q, (s.committer j).owns = some q → j ≠ i → q ≠ p := fun j q hj hji hq =>
    hji (hinv.owns_unique j i p (hq ▸ hj) hip)
  obtain ⟨ps, hlive⟩ := hinv.live
  refine ⟨⟨ps, (sameLinks_set_hdr hn _).chainRep hlive⟩, fun j q hj => ?_, fun j k q hj hk => ?_,
    fun q m hm => ?_, fun j q hj => ?_, fun j q rep hj => ?_, fun q m hm => ?_, fun q hq => ?_⟩
  · rw [owns_update] at hj
    split_ifs at hj
    · cases hj
    · simpa using hinv.owns_lt j q hj
  · rw [owns_update] at hj hk
    split_ifs at hj hk
    · cases hj
    · cases hj
    · cases hk
    · exact hinv.owns_unique j k q hj hk
  · simp only [owns_update]
    rcases eq_or_of_getElem?_set hself hm with ⟨rfl, rfl⟩ | ⟨hq, hm⟩
    · simp only [isLocked_eq, decode_unlock, Bool.false_eq_true, false_iff, not_exists]
      intro j hj
      split_ifs at hj with hji
      · cases hj
      · exact hother j q hj hji rfl
    · rw [hinv.locked_iff q m hm]
      refine exists_congr fun j => ?_
      by_cases hji : j = i
      · subst hji; simp [hip, Ne.symm hq]
      · simp [hji]
  · have hji : j ≠ i := by rintro rfl; simp at hj
    simp only [Function.update_noteq hji] at hj
    exact hinv.locked_slot j q hj
  · have hji : j ≠ i := by rintro rfl; simp at hj
    simp only [Function.update_noteq hji] at hj
    obtain ⟨hq, hpending⟩ := hinv.written_slot j q rep hj
    refine ⟨hq, fun q' hq' => ?_⟩
    obtain ⟨n₁, m₁, hn₁, hm₁, h₁, h₂, hfree, h₄⟩ := hpending q' hq'
    have hqp : q ≠ p := hother j q (by simp [hj]) hji
    have hq'p : q' ≠ p := by
      intro heq
      rw [heq, hn] at hm₁
      cases hm₁
      exact absurd ((hinv.locked_iff p n hn).2 ⟨i, hip⟩) (by simp_all)
    exact ⟨n₁, m₁, by rw [hsame q hqp, hn₁], by rw [hsame q' hq'p, hm₁], h₁, h₂, hfree, h₄⟩
  · rcases eq_or_of_getElem?_set hself hm with ⟨rfl, rfl⟩ | ⟨hq, hm⟩
    · have := hinv.version_eq q n hn
      simp only [decode_unlock, Function.update_same, this]
      apply BitVec.eq_of_toNat_eq
      have hone : (1 : BitVec 60).toNat = 1 := rfl
      simp only [BitVec.toNat_add, BitVec.toNat_ofNat, hone]
      omega
    · simpa [Function.update_noteq hq] using hinv.version_eq q m hm
  · have hq' : q ≠ p := fun h => by simp [h] at hq; omega
    simpa [Function.update_noteq hq'] using hinv.fresh q (by simpa using hq)

omit [DecidableEq τ] in
theorem Inv.read (hinv : Inv s) (rd : Reader) : Inv { s with reader := rd } :=
  ⟨hinv.live, hinv.owns_lt, hinv.owns_unique, hinv.locked_iff, hinv.locked_slot, hinv.written_slot,
    hinv.version_eq, hinv.fresh⟩

omit [DecidableEq τ] in
theorem init_inv (allocSz : BitVec 64) : Inv (init allocSz : Sys τ) := by
  have hcell : ∀ q m, (init allocSz : Sys τ).heap[q]? = some m →
      q = 0 ∧ m = LogicalNode.first (roundUp16 (sizeofLogicalNode + allocSz) - sizeofLogicalNode) := by
    intro q m hm
    have hq : q = 0 := by simpa [init, allocFirst] using (List.getElem?_eq_some_iff.1 hm).1
    subst hq
    have hread : (init allocSz : Sys τ).heap[0]? =
        some (LogicalNode.first (roundUp16 (sizeofLogicalNode + allocSz) - sizeofLogicalNode)) := rfl
    exact ⟨rfl, (Option.some_inj.1 (hread.symm.trans hm)).symm⟩
  refine ⟨⟨_, (allocFirst_wellFormed [] allocSz).chain⟩, fun _ _ h => by simp [init] at h,
    fun _ _ _ h => by simp [init] at h, fun q m hm => ?_,
    fun _ _ h => by simp [init] at h, fun _ _ _ h => by simp [init] at h, fun q m hm => ?_,
    fun _ _ => rfl⟩
  · obtain ⟨rfl, rfl⟩ := hcell q m hm
    simp [init, LogicalNode.first]
  · obtain ⟨rfl, rfl⟩ := hcell q m hm
    simp [init, LogicalNode.first]

/-- Every step keeps the committers' invariant. -/
theorem Inv.step {c : Tid → Tid → Bool} {t' : Tid} {s' : Sys τ} (hinv : Inv s)
    (hstep : Step c t' s s') : Inv s' := by
  cases hstep with
  | lock i hidle hn hunlocked => exact hinv.lock hidle hn hunlocked
  | write i t r hlocked hnewer => exact hinv.write r hlocked hnewer
  | swap i hwritten => exact hinv.swap hwritten
  | unlock i hswapped hn => exact hinv.unlock hswapped hn
  | read => exact hinv.read _

theorem Reachable.inv {c : Tid → Tid → Bool} {t' : Tid} {allocSz : BitVec 64}
    (h : Reachable c t' allocSz s) : Inv s := by
  induction h with
  | init => exact init_inv allocSz
  | step _ hstep ih => exact ih.step hstep

end Preservation

/-! ## Nodes follow the lock discipline -/

section Discipline

variable {τ : Type} [DecidableEq τ] {s s' : Sys τ} {c : Tid → Tid → Bool} {t' : Tid}

/-- Seen from one allocated node, every step is a step of the lock discipline of
`Silo.Bracket`: the compare-and-swap of `lock()` on it, the write of the committer
holding it, its `unlock()`, or a step that leaves it alone. -/
theorem Inv.envStep (hinv : Inv s) (hstep : Step c t' s s') {q : Ptr} {n : LogicalNode}
    (hn : s.heap[q]? = some n) : ∃ n', s'.heap[q]? = some n' ∧ EnvStep ⟨n, s.unlocks q⟩ ⟨n', s'.unlocks q⟩ := by
  have hq := (List.getElem?_eq_some_iff.1 hn).1
  cases hstep with
  | @lock i n₀ hidle hn₀ hunlocked =>
      by_cases hqs : q = s.slot
      · subst hqs
        rw [hn₀] at hn
        cases hn
        exact ⟨_, List.getElem?_set_self hq, .inl (.lock hunlocked)⟩
      · exact ⟨n, by rw [List.getElem?_set_ne (Ne.symm hqs), hn], .inr rfl⟩
  | @write i p t r hlocked hnewer =>
      obtain ⟨np, hnp, -⟩ := hinv.owner_locked (i := i) (q := p) (by simp [hlocked])
      by_cases hqp : q = p
      · subst hqp
        have hlockedq := (hinv.locked_iff q n hn).2 ⟨i, by simp [hlocked]⟩
        obtain ⟨-, -, ⟨n', hn', hhdr⟩, -⟩ := writeRecordAt_cells (c := c) hn t r
        refine ⟨n', hn', .inl (.write n' hlockedq ?_ ?_)⟩
        · rcases hhdr with hhdr | hhdr <;> simp_all
        · rcases hhdr with hhdr | hhdr <;> simp [hhdr]
      · exact ⟨n, by rw [writeRecordAt_frame hnp t r hqp hq, hn], .inr rfl⟩
  | swap i hwritten => exact ⟨n, hn, .inr rfl⟩
  | @unlock i p n₀ hswapped hn₀ =>
      by_cases hqp : q = p
      · subst hqp
        have hnn : n₀ = n := Option.some_inj.1 (hn₀.symm.trans hn)
        subst hnn
        have hlockedq := (hinv.locked_iff q n₀ hn₀).2 ⟨i, by simp [hswapped]⟩
        refine ⟨_, List.getElem?_set_self hq, ?_⟩
        simp only [Function.update_same]
        exact .inl (.unlock hlockedq)
      · exact ⟨n, by rw [List.getElem?_set_ne (Ne.symm hqp), hn], by
          simp only [Function.update_noteq hqp]; exact .inr rfl⟩
  | read => exact ⟨n, hn, .inr rfl⟩

/-- In every interleaving of committers and the reader, every step, seen from an
allocated node, is a step of the lock discipline of `Silo.Bracket`. -/
theorem reachable_step_follows_discipline {allocSz : BitVec 64} (hreach : Reachable c t' allocSz s)
    (hstep : Step c t' s s') {q : Ptr} {n : LogicalNode} (hn : s.heap[q]? = some n) :
    ∃ n', s'.heap[q]? = some n' ∧ EnvStep ⟨n, s.unlocks q⟩ ⟨n', s'.unlocks q⟩ :=
  hreach.inv.envStep hstep hn

/-- The first committer's `lock()` on the chain from `alloc_first(0)`. -/
theorem reachable_step_follows_discipline_first_lock :
    ∃ s' : Sys Unit, Step (fun _ _ => false) 5 (init 0) s' ∧
      ∃ n', s'.heap[0]? = some n' ∧ EnvStep ⟨LogicalNode.first 0, 0⟩ ⟨n', s'.unlocks 0⟩ :=
  have hstep : Step (fun _ _ => false) 5 (init 0 : Sys Unit) _ := .lock () rfl rfl (by decide)
  ⟨_, hstep, reachable_step_follows_discipline .init hstep rfl⟩

/-- Only the reader's own step moves the reader. -/
theorem Step.reader_cases (hstep : Step c t' s s') : s'.reader = s.reader ∨ s' = s.readStep t' := by
  cases hstep with
  | read => exact .inr rfl
  | lock | write | swap | unlock => exact .inl rfl

theorem Step.unlocks_le (hstep : Step c t' s s') (q : Ptr) : s.unlocks q ≤ s'.unlocks q := by
  cases hstep with
  | @unlock i p n hswapped hn =>
      by_cases hq : q = p
      · subst hq; simp
      · simp [Function.update_noteq hq]
  | lock | write | swap | read => exact le_rfl

theorem Step.length_le (hinv : Inv s) (hstep : Step c t' s s') : s.heap.length ≤ s'.heap.length := by
  cases hstep with
  | @write i p t r hlocked hnewer =>
      obtain ⟨n, hn, -⟩ := hinv.owner_locked (i := i) (q := p) (by simp [hlocked])
      exact (writeRecordAt_cells hn t r).1
  | lock | unlock => simp
  | swap | read => exact le_rfl

end Discipline

/-! ## Displaced heads keep their tails in the live chain -/

/-- A write on the head keeps every suffix of the chain below it, under nodes no
older than the head. -/
theorem SuffixAbove.write {heap : Heap} {p y : Ptr} {lo : Nat} {n : LogicalNode}
    (h : SuffixAbove heap p y lo) (hn : heap[p]? = some n) {t : Tid} (ht : n.version < t)
    (c : Tid → Tid → Bool) (r : List UInt8) : SuffixAbove (writeRecordAt c heap p t r).1 p y lo := by
  obtain ⟨above, ys, hne, hlive, hys, hver⟩ := h
  obtain ⟨x, above', rfl⟩ := List.exists_cons_of_ne_nil hne
  obtain rfl := hlive.head_eq
  rw [List.cons_append] at hlive
  obtain ⟨hself, hnot, hrest⟩ := hlive.head_facts hn
  have hnlo : lo ≤ n.version.toNat := hver x (List.mem_cons_self _ _) n hn
  have hframe : ∀ q ∈ above' ++ ys, (writeRecordAt c heap x t r).1[q]? = heap[q]? := fun q hq =>
    writeRecordAt_frame hn t r (fun h => hnot (h ▸ hq)) (hrest.lt_length q hq)
  have hys' : ChainRep (writeRecordAt c heap x t r).1 (some y) ys :=
    hys.congr_next fun q hq m hm => ⟨m, by rw [hframe q (List.mem_append_right _ hq), hm], rfl⟩
  by_cases hs : BitVec.ofNat 64 r.length ≤ n.allocSize.setWidth 64
  · -- the head changes in place, with a spilled node below it if the chain grew
    obtain ⟨hchain, hnodes⟩ := writeRecordAt_chain (c := c) hlive hn t r
    rw [writeRecordAt_rep hn t r, if_pos hs] at hchain
    have hsame : nodesAt (writeRecordAt c heap x t r).1 (above' ++ ys) = nodesAt heap (above' ++ ys) :=
      List.filterMap_congr fun q hq => hframe q hq
    rw [nodesAt_append, hsame] at hnodes
    have hprefix := List.append_cancel_right hnodes
    refine ⟨writePtrs c x heap.length n t r ++ above', ys, by simp [writePtrs]; split_ifs <;> simp,
      by simpa [List.append_assoc] using hchain, hys', fun q hq m hm => ?_⟩
    rcases List.mem_append.1 hq with hq | hq
    · have hmem := hprefix ▸ mem_nodesAt hq hm
      exact hnlo.trans (BitVec.le_def.1 (version_le_of_mem_writePrefix ht hmem))
    · rw [hframe q (List.mem_append_left _ hq)] at hm
      exact hver q (List.mem_cons_of_mem _ hq) m hm
  · -- the head only loses LATEST: links and tids stay
    refine SuffixAbove.sameLinks ⟨x :: above', ys, hne, by simpa using hlive, hys, hver⟩ ?_
    intro q m hm
    by_cases hq : q = x
    · subst hq
      rw [hn] at hm
      cases hm
      exact ⟨_, writeRecordAt_self_of_rep hn t r hself hs, rfl, rfl⟩
    · exact ⟨m, by rw [writeRecordAt_frame hn t r hq (List.getElem?_eq_some_iff.1 hm).1, hm], rfl, rfl⟩

/-- Swapping the slot to a pending replacement keeps every suffix of the chain,
under the replacement. -/
theorem SuffixAbove.swap {heap : Heap} {p q y : Ptr} {lo : Nat} (h : SuffixAbove heap p y lo)
    (hpending : Pending heap p q) : SuffixAbove heap q y lo := by
  obtain ⟨above, ys, hne, hlive, hys, hver⟩ := h
  obtain ⟨x, above', rfl⟩ := List.exists_cons_of_ne_nil hne
  obtain rfl := hlive.head_eq
  obtain ⟨n, m, hn, hm, -, -, -, hnewer, hnext⟩ := hpending
  rw [List.cons_append] at hlive
  obtain ⟨-, -, hrest⟩ := hlive.head_facts hn
  have hlo : lo ≤ m.version.toNat :=
    (hver x (List.mem_cons_self _ _) n hn).trans (Nat.le_of_lt (BitVec.lt_def.1 hnewer))
  rcases hnext with hnext | hnext
  · refine ⟨q :: above', ys, List.cons_ne_nil _ _, .cons hm (hnext ▸ hrest), hys, fun z hz m' hm' => ?_⟩
    rcases List.mem_cons.1 hz with rfl | hz
    · rw [hm] at hm'
      cases hm'
      exact hlo
    · exact hver z (List.mem_cons_of_mem _ hz) m' hm'
  · refine ⟨q :: x :: above', ys, List.cons_ne_nil _ _, .cons hm (hnext ▸ hlive), hys,
      fun z hz m' hm' => ?_⟩
    rcases List.mem_cons.1 hz with rfl | hz
    · rw [hm] at hm'
      cases hm'
      exact hlo
    · exact hver z hz m' hm'

section Suffix

variable {τ : Type} [DecidableEq τ] {s s' : Sys τ} {c : Tid → Tid → Bool} {t' : Tid}

/-- Every step keeps every suffix of the live chain below nodes with tids at
least `lo`. -/
theorem Inv.suffixAbove (hinv : Inv s) (hstep : Step c t' s s') {y : Ptr} {lo : Nat}
    (h : SuffixAbove s.heap s.slot y lo) : SuffixAbove s'.heap s'.slot y lo := by
  cases hstep with
  | lock i hidle hn hunlocked => exact h.sameLinks (sameLinks_set_hdr hn _)
  | @write i p t r hlocked hnewer =>
      have hp := hinv.locked_slot i p hlocked
      subst hp
      obtain ⟨n, hn⟩ := hinv.slot_node
      obtain ⟨ps, hlive⟩ := hinv.live
      have hnt : n.version < t := hnewer n (by
        rw [hlive.chainFrom_eq]
        cases hlive with
        | cons read _ => rw [hn] at read; cases read; rw [nodesAt_cons _ hn]; exact List.mem_cons_self _ _)
      exact h.write hn hnt c r
  | @swap i p rep hwritten =>
      obtain ⟨hp, hpending⟩ := hinv.written_slot i p rep hwritten
      cases rep with
      | none => simpa [hp] using h
      | some q => exact (hp ▸ h).swap (hpending q rfl)
  | unlock i hswapped hn => exact h.sameLinks (sameLinks_set_hdr hn _)
  | read => exact h

/-- A node the slot no longer points to: it has lost LATEST, and the chain after
it ends the live chain, below nodes no older than it. -/
def Displaced (heap : Heap) (slot q : Ptr) : Prop :=
  q ≠ slot ∧ ∃ n, heap[q]? = some n ∧ isLatest n.hdr = false ∧
    ∀ y, n.next = some y → SuffixAbove heap slot y n.version.toNat

/-- Where a node taken from the slot stands: still the head, or displaced. -/
def AtHead (s : Sys τ) (q : Ptr) : Prop := q = s.slot ∨ Displaced s.heap s.slot q

theorem Inv.displaced (hinv : Inv s) (hstep : Step c t' s s') {q : Ptr}
    (h : Displaced s.heap s.slot q) : Displaced s'.heap s'.slot q := by
  obtain ⟨hqs, n, hn, hlatest, hsuffix⟩ := h
  have hsuffix' := fun y hy => hinv.suffixAbove hstep (hsuffix y hy)
  have hq := (List.getElem?_eq_some_iff.1 hn).1
  cases hstep with
  | lock i hidle hn₀ hunlocked =>
      exact ⟨hqs, n, by rw [List.getElem?_set_ne (Ne.symm hqs), hn], hlatest, hsuffix'⟩
  | @write i p t r hlocked hnewer =>
      obtain ⟨np, hnp, -⟩ := hinv.owner_locked (i := i) (q := p) (by simp [hlocked])
      have hqp : q ≠ p := hinv.locked_slot i p hlocked ▸ hqs
      exact ⟨hqs, n, by rw [writeRecordAt_frame hnp t r hqp hq, hn], hlatest, hsuffix'⟩
  | @swap i p rep hwritten =>
      refine ⟨?_, n, hn, hlatest, hsuffix'⟩
      obtain ⟨hp, hpending⟩ := hinv.written_slot i p rep hwritten
      cases rep with
      | none => simpa [hp] using hqs
      | some r =>
          obtain ⟨-, m, -, hm, -, hlatest', -⟩ := hpending r rfl
          rintro rfl
          rw [hn] at hm
          cases hm
          simp_all
  | @unlock i p n₀ hswapped hn₀ =>
      by_cases hqp : q = p
      · subst hqp
        have hnn : n₀ = n := Option.some_inj.1 (hn₀.symm.trans hn)
        subst hnn
        refine ⟨hqs, _, List.getElem?_set_self hq, by simpa using hlatest, hsuffix'⟩
      · exact ⟨hqs, n, by rw [List.getElem?_set_ne (Ne.symm hqp), hn], hlatest, hsuffix'⟩
  | read => exact ⟨hqs, n, hn, hlatest, hsuffix'⟩

omit [DecidableEq τ] in
/-- The head a swap displaces keeps its tail at the end of the live chain. -/
theorem Inv.displaced_of_swap (hinv : Inv s) {i : τ} {p q : Ptr}
    (hwritten : s.committer i = .written p (some q)) : Displaced s.heap q p := by
  obtain ⟨hp, hpending⟩ := hinv.written_slot i p (some q) hwritten
  have hpend := hpending q rfl
  obtain ⟨n, m, hn, hm, hlatest, hlatest', -, -, -⟩ := hpend
  have hqp : p ≠ q := by
    rintro rfl
    rw [hn] at hm
    cases hm
    simp_all
  refine ⟨hqp, n, hn, hlatest, fun y hy => ?_⟩
  obtain ⟨ps, hlive⟩ := hinv.live
  rw [← hp] at hlive
  obtain ⟨rest, rfl⟩ : ∃ rest, ps = p :: rest := by cases hlive; exact ⟨_, rfl⟩
  obtain ⟨-, -, hrest⟩ := hlive.head_facts hn
  rw [hy] at hrest
  have hself : SuffixAbove s.heap p y n.version.toNat :=
    ⟨[p], rest, List.cons_ne_nil _ _, hlive, hrest, fun z hz m' hm' => by
      rw [List.mem_singleton.1 hz, hn] at hm'
      cases hm'
      exact le_rfl⟩
  exact hself.swap (hpending q rfl)

/-- A node taken from the slot stays the head or displaced, whatever the steps. -/
theorem Inv.atHead (hinv : Inv s) (hstep : Step c t' s s') {q : Ptr} (h : AtHead s q) :
    AtHead s' q := by
  rcases h with rfl | h
  · cases hstep with
    | @swap i p rep hwritten =>
        obtain ⟨hp, -⟩ := hinv.written_slot i p rep hwritten
        cases rep with
        | none => exact .inl (by simp [hp])
        | some r => exact .inr (hp ▸ hinv.displaced_of_swap hwritten)
    | lock => exact .inl rfl
    | write => exact .inl rfl
    | unlock => exact .inl rfl
    | read => exact .inl rfl
  · exact .inr (hinv.displaced hstep h)

end Suffix

end Silo.Slot
