import Silo.Read

/-!
# `record_at` is a floor lookup

On a chain whose tids strictly decrease along `next`, `record_at(t, ...)` with no
concurrent writer answers with the node of greatest tid at most `t`, and returns
false when every node is newer than `t`. With `require_latest` it also returns
false when that node is the head and the head lacks LATEST; the nodes below the
head are read without it. The recursion makes at most one call per node.

`recordAtFrom` follows the code's recursion on pointers; `recordAtFrom_eq` shows
that, on a chain, it is the list-level `recordAt` on the chain's nodes.
-/

namespace Silo.Floor

open Silo.Header Silo.Node Silo.Read

/-- Modelled from the spec: `m` is the node of `ns` with the greatest tid at most `t`. -/
def IsFloor (ns : List LogicalNode) (t : Tid) (m : LogicalNode) : Prop :=
  m ∈ ns ∧ m.version ≤ t ∧ ∀ m' ∈ ns, m'.version ≤ t → m'.version ≤ m.version

instance (ns : List LogicalNode) (t : Tid) (m : LogicalNode) : Decidable (IsFloor ns t m) :=
  inferInstanceAs (Decidable (m ∈ ns ∧ m.version ≤ t ∧ ∀ m' ∈ ns, m'.version ≤ t → m'.version ≤ m.version))

/-! ## The recursion on pointers -/

section Calls

variable {heap : Heap} {t : Tid}

/-- On a chain, the recursion of `record_at` ends within one call per node, with
the answer `recordAt` gives on the chain's nodes. -/
theorem recordAtFrom_eq {p : Ptr} {ps : List Ptr} (hchain : ChainRep heap (some p) ps) {calls : Nat}
    (hcalls : ps.length ≤ calls) (requireLatest : Bool) :
    recordAtFrom heap calls p t requireLatest = some (recordAt (nodesAt heap ps) t requireLatest) := by
  induction ps generalizing p calls requireLatest with
  | nil => cases hchain
  | cons x xs ih =>
      cases hchain with
      | @cons _ n _ read rest =>
          obtain ⟨calls, rfl⟩ : ∃ k, calls = k + 1 := ⟨calls - 1, by simp at hcalls; omega⟩
          rw [nodesAt_cons _ read, recordAtFrom, read]
          simp only [recordAt]
          split_ifs with hnb
          · -- the node answers, refused or not
            rfl
          · rfl
          · split
            · -- a null `next`: false
              rename_i hnext
              rw [hnext] at rest
              cases rest
              rfl
            · rename_i q hnext
              rw [hnext] at rest
              exact ih rest (by simpa using hcalls) false

end Calls

/-! ## The first node at or below `t` -/

section Lookup

variable {ns : List LogicalNode} {t : Tid}

/-- Tids that decrease along the chain decrease between any two of its nodes. -/
theorem decreasing_pairwise (hdec : ns.Chain' (fun n m => m.version < n.version)) :
    ns.Pairwise (fun n m => m.version < n.version) :=
  haveI : IsTrans LogicalNode (fun n m => m.version < n.version) :=
    ⟨fun _ _ _ h₁ h₂ => BitVec.lt_trans h₂ h₁⟩
  List.chain'_iff_pairwise.1 hdec

/-- Every node newer than `t`: the lookup finds nothing. -/
theorem recordAt_of_lt (h : ∀ m ∈ ns, t < m.version) (requireLatest : Bool) :
    recordAt ns t requireLatest = none := by
  induction ns generalizing requireLatest with
  | nil => rfl
  | cons n ns ih =>
      rw [recordAt_cons_of_lt requireLatest (h n (List.mem_cons_self _ _))]
      exact ih (fun m hm => h m (List.mem_cons_of_mem _ hm)) false

/-- On strictly decreasing tids, the floor node answers; only as the head may it
need LATEST. -/
theorem recordAt_of_isFloor (hdec : ns.Chain' (fun n m => m.version < n.version)) {m : LogicalNode}
    (hm : IsFloor ns t m) (requireLatest : Bool) :
    recordAt ns t requireLatest =
      if requireLatest = true ∧ ns.head? = some m ∧ isLatest m.hdr = false then none
      else some (m.version, m.record) := by
  induction ns generalizing requireLatest with
  | nil => exact absurd hm.1 (List.not_mem_nil _)
  | cons n ns ih =>
      obtain ⟨hmem, hle, hmax⟩ := hm
      have hbelow : ∀ y ∈ ns, y.version < n.version := (List.pairwise_cons.1 (decreasing_pairwise hdec)).1
      by_cases hnb : n.version ≤ t
      · -- the head answers, and it is the floor
        have hn : m = n := by
          rcases List.mem_cons.1 hmem with rfl | hmem
          · rfl
          · exact absurd (hmax n (List.mem_cons_self _ _) hnb) (BitVec.not_le.2 (hbelow m hmem))
        subst hn
        simp [recordAt, LogicalNode.isNotBehind, hnb]
      · -- the read goes past the head, without LATEST
        have hlt : t < n.version := BitVec.not_le.1 hnb
        have hmn : m ≠ n := fun h => hnb (h ▸ hle)
        have hmem' : m ∈ ns := (List.mem_cons.1 hmem).resolve_left hmn
        rw [recordAt_cons_of_lt requireLatest hlt,
          ih hdec.tail ⟨hmem', hle, fun y hy => hmax y (List.mem_cons_of_mem _ hy)⟩ false]
        simp [Ne.symm hmn]

/-- A node at or below `t` in a chain of decreasing tids has a floor: the first one. -/
theorem exists_isFloor (hdec : ns.Chain' (fun n m => m.version < n.version))
    (h : ∃ m ∈ ns, m.version ≤ t) : ∃ m, IsFloor ns t m := by
  induction ns with
  | nil => simp at h
  | cons n ns ih =>
      by_cases hnb : n.version ≤ t
      · refine ⟨n, List.mem_cons_self _ _, hnb, fun y hy _ => ?_⟩
        rcases List.mem_cons.1 hy with rfl | hy
        · exact BitVec.le_refl _
        · exact BitVec.not_lt.1 (BitVec.lt_asymm ((List.pairwise_cons.1 (decreasing_pairwise hdec)).1 y hy))
      · obtain ⟨m, hm, hmt⟩ := h
        have hmem : m ∈ ns := (List.mem_cons.1 hm).resolve_left fun h => hnb (h ▸ hmt)
        obtain ⟨f, hf, hft, hmax⟩ := ih hdec.tail ⟨m, hmem, hmt⟩
        refine ⟨f, List.mem_cons_of_mem _ hf, hft, fun y hy hyt => ?_⟩
        rcases List.mem_cons.1 hy with rfl | hy
        · exact absurd hyt hnb
        · exact hmax y hy hyt

end Lookup

/-! ## `record_at` on a chain -/

/-- The first of a chain's nodes is the one its head pointer names. -/
theorem head?_nodesAt {heap : Heap} {p : Ptr} {ps : List Ptr} (h : ChainRep heap (some p) ps) :
    (nodesAt heap ps).head? = heap[p]? := by
  cases h with
  | cons read _ => rw [nodesAt_cons _ read, read]; rfl

/-- `record_at(t, ..., require_latest)` from the head of a chain of strictly
decreasing tids, with no concurrent writer, within one call per node: false when
every node is newer than `t`; otherwise a floor node exists, and the answer is
its tid and record, unless `require_latest` is set and it is a head without
LATEST. -/
theorem recordAt_floor {heap : Heap} {p : Ptr} {ps : List Ptr} (hchain : ChainRep heap (some p) ps)
    (hdec : (nodesAt heap ps).Chain' (fun n m => m.version < n.version)) (t : Tid) (requireLatest : Bool) :
    ((∀ m ∈ nodesAt heap ps, t < m.version) →
        recordAtFrom heap ps.length p t requireLatest = some none) ∧
    ((∃ m ∈ nodesAt heap ps, m.version ≤ t) → ∃ m, IsFloor (nodesAt heap ps) t m) ∧
    (∀ m, IsFloor (nodesAt heap ps) t m → recordAtFrom heap ps.length p t requireLatest =
        some (if requireLatest = true ∧ heap[p]? = some m ∧ isLatest m.hdr = false then none
          else some (m.version, m.record))) := by
  rw [recordAtFrom_eq hchain le_rfl, ← head?_nodesAt hchain]
  exact ⟨fun h => by rw [recordAt_of_lt h], exists_isFloor hdec,
    fun m hm => by rw [recordAt_of_isFloor hdec hm]⟩

/-- Three versions allocated on `alloc_first(0)`: tid 2 holding "a" without
LATEST, then tid 5 holding "b" as the LATEST head. A read at tid 3 that requires
LATEST answers from the middle node, which is not LATEST, in three calls. -/
theorem recordAt_floor_below_head :
    recordAtFrom (alloc (alloc (allocFirst [] 0).1 2 [97] 1 (some 0) false).1 5 [98] 1 (some 1) true).1
      3 2 3 true = some (some (2, [97])) :=
  ((@recordAt_floor (alloc (alloc (allocFirst [] 0).1 2 [97] 1 (some 0) false).1 5 [98] 1 (some 1) true).1
      2 [2, 1, 0] (.cons rfl (.cons rfl (.cons rfl .null)))
      (List.chain'_cons.2 ⟨by decide, List.chain'_cons.2 ⟨by decide, List.chain'_singleton _⟩⟩) 3 true).2.2
    (LogicalNode.ofRecord 2 [97] 1 (Write.allocCapacity 1) (some 0) false) (by decide)).trans (by decide)

end Silo.Floor
