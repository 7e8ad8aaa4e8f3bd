import Silo.Slot

/-!
# LATEST marks the newest version

`write_record_at` asserts that the head it writes is locked and LATEST, and
`stable_is_latest_version` and `stable_latest_value_is_nil` take LATEST to mean
that the node is the key's newest version. Across every interleaving of the
committers and the reader of `Silo.Slot`, LATEST is set on exactly one node of
the heap: the replacement a committer's `write_record_at` returned and that it
has not yet swapped into the slot, or else the node in the slot. Displaced heads
and spilled versions never carry it.

`LatestInv` is that statement; the committers' invariant `Inv` of `Silo.Slot`
is what makes it inductive. From it, each committer finds its head locked and
LATEST when it writes and locked when it unlocks, and over any execution a node
on which `stable_is_latest_version(t)` or `stable_latest_value_is_nil()`
answers true was the key's newest version at the header read that opened the
bracket.
-/

namespace Silo.Latest

open Silo.Header Silo.Node Silo.Write Silo.Bracket Silo.Slot

/-! ## What a write does to LATEST -/

section Write

variable {c : Tid → Tid → Bool} {heap : Heap} {self : Ptr} {n : LogicalNode}

/-- Where the record fits, the head keeps its header and the cell a spill adds
lacks LATEST. -/
theorem writeRecordAt_hdr_of_fits (hn : heap[self]? = some n) (t : Tid) (r : List UInt8)
    (hs : BitVec.ofNat 64 r.length ≤ n.allocSize.setWidth 64) :
    (∀ n', (writeRecordAt c heap self t r).1[self]? = some n' → n'.hdr = n.hdr) ∧
      ∀ m, (writeRecordAt c heap self t r).1[heap.length]? = some m → isLatest m.hdr = false := by
  have hself := (List.getElem?_eq_some_iff.1 hn).1
  unfold writeRecordAt
  simp only [hn, alloc_eq, hs, if_true]
  split_ifs
  · -- overwrite in place: no new cell
    refine ⟨fun n' h => ?_, fun m h => ?_⟩
    · rw [List.getElem?_set_self hself] at h
      cases h
      rfl
    · simp [List.getElem?_set_ne (Nat.ne_of_lt hself)] at h
  · -- spill in place: the spilled version is made without LATEST
    refine ⟨fun n' h => ?_, fun m h => ?_⟩
    · rw [List.getElem?_set_self (by simpa using Nat.lt_succ_of_lt hself)] at h
      cases h
      rfl
    · rw [List.getElem?_set_ne (Nat.ne_of_lt hself)] at h
      simp only [List.length_append, List.getElem?_append_right (Nat.le_refl _), Nat.sub_self,
        List.getElem?_cons_zero, Option.some.injEq] at h
      subst h
      exact LogicalNode.isLatest_ofRecord _ _ _

/-- After a write, a cell is LATEST exactly when it is the head, LATEST before,
and no replacement was made; or an untouched LATEST cell; or the replacement. -/
theorem isLatest_writeRecordAt (hn : heap[self]? = some n) (t : Tid) (r : List UInt8) {q : Ptr}
    {m : LogicalNode} (hm : (writeRecordAt c heap self t r).1[q]? = some m) :
    isLatest m.hdr = true ↔
      (q = self ∧ isLatest n.hdr = true ∧ (writeRecordAt c heap self t r).2.2 = none) ∨
        (q ≠ self ∧ heap[q]? = some m ∧ isLatest m.hdr = true) ∨
          (writeRecordAt c heap self t r).2.2 = some q := by
  have hself := (List.getElem?_eq_some_iff.1 hn).1
  rw [writeRecordAt_rep hn]
  by_cases hs : BitVec.ofNat 64 r.length ≤ n.allocSize.setWidth 64
  · obtain ⟨hhead, hfresh⟩ := writeRecordAt_hdr_of_fits (c := c) hn t r hs
    rcases writeRecordAt_cell_cases hn t r hm with ⟨rfl, -⟩ | ⟨hq, -, hold⟩ | ⟨rfl, -⟩
    · simp [hs, hhead m hm]
    · simp [hs, hq, hold]
    · simpa [hs, Nat.ne_of_gt hself] using hfresh m hm
  · rcases writeRecordAt_cell_cases hn t r hm with ⟨rfl, -⟩ | ⟨hq, hlt, hold⟩ | ⟨rfl, -⟩
    · rw [writeRecordAt_self_of_rep hn t r hself hs] at hm
      cases hm
      simp [hs, LogicalNode.clearLatest, Nat.ne_of_gt hself]
    · simp [hs, hq, hold, Nat.ne_of_gt hlt]
    · rw [writeRecordAt_rep_node hn t r hs] at hm
      cases hm
      simp [hs, LogicalNode.ofRecord]

end Write

/-! ## The newest version -/

/-- The replacement a committer holds between `write_record_at` and the swap. -/
def pendingRep : CommitPhase → Option Ptr
  | .written _ rep => rep
  | _ => none

@[simp] theorem pendingRep_idle : pendingRep .idle = none := rfl

@[simp] theorem pendingRep_locked (p : Ptr) : pendingRep (.locked p) = none := rfl

@[simp] theorem pendingRep_written (p : Ptr) (rep : Option Ptr) : pendingRep (.written p rep) = rep := rfl

@[simp] theorem pendingRep_swapped (p : Ptr) : pendingRep (.swapped p) = none := rfl

section Newest

variable {τ : Type} {s s' : Sys τ}

/-- The key's newest version: the replacement a committer has not yet swapped
into the slot, or else the node in the slot. -/
def Newest (s : Sys τ) (q : Ptr) : Prop :=
  (∃ i, pendingRep (s.committer i) = some q) ∨ (q = s.slot ∧ ∀ i, pendingRep (s.committer i) = none)

/-- LATEST is set exactly on the newest version. -/
def LatestInv (s : Sys τ) : Prop :=
  ∀ q n, s.heap[q]? = some n → (isLatest n.hdr = true ↔ Newest s q)

theorem newest_of_none (h : ∀ i, pendingRep (s.committer i) = none) {q : Ptr} :
    Newest s q ↔ q = s.slot := by
  simp [Newest, h]

theorem newest_congr (hslot : s'.slot = s.slot)
    (hpending : ∀ i, pendingRep (s'.committer i) = pendingRep (s.committer i)) (q : Ptr) :
    Newest s' q ↔ Newest s q := by
  simp only [Newest, hslot, hpending]

/-- A committer with a pending replacement holds the slot's node. -/
theorem owns_of_pending (hinv : Inv s) {j : τ} {x : Ptr} (hj : pendingRep (s.committer j) = some x) :
    (s.committer j).owns = some s.slot := by
  cases hphase : s.committer j with
  | written p rep => simp [(hinv.written_slot j p rep hphase).1]
  | idle | locked | swapped => simp [hphase] at hj

/-- While committer `i` holds the slot's node, the newest version is the
replacement `i` has written, if any, and the slot's node otherwise. -/
theorem newest_of_owner (hinv : Inv s) {i : τ} (hi : (s.committer i).owns = some s.slot)
    (q : Ptr) : Newest s q ↔ q = (pendingRep (s.committer i)).getD s.slot := by
  have honly : ∀ j x, pendingRep (s.committer j) = some x → j = i := fun j x hj =>
    hinv.owns_unique j i s.slot (owns_of_pending hinv hj) hi
  cases hrep : pendingRep (s.committer i) with
  | none =>
      rw [newest_of_none fun j => ?_]
      · rfl
      · cases hj : pendingRep (s.committer j) with
        | none => rfl
        | some x => exact absurd (honly j x hj ▸ hrep) (by simp [hj])
  | some x =>
      constructor
      · rintro (⟨j, hj⟩ | ⟨-, hnone⟩)
        · rw [honly j q hj, hrep] at hj
          exact (Option.some_inj.1 hj).symm
        · simp [hnone i] at hrep
      · rintro rfl
        exact .inl ⟨i, hrep⟩

/-- A step whose cells keep their LATEST bit and whose newest version does not
move keeps `LatestInv`. -/
theorem LatestInv.of_cells (hl : LatestInv s) (hnewest : ∀ q, Newest s' q ↔ Newest s q)
    (hcells : ∀ (q : Ptr) (m' : LogicalNode), s'.heap[q]? = some m' →
      ∃ m, s.heap[q]? = some m ∧ isLatest m'.hdr = isLatest m.hdr) :
    LatestInv s' := fun q m' hm' => by
  obtain ⟨m, hm, hlatest⟩ := hcells q m' hm'
  rw [hlatest, hnewest]
  exact hl q m hm

/-- Setting a cell's header to a word with the same LATEST bit keeps every cell's bit. -/
theorem cells_set_hdr {heap : Heap} {p : Ptr} {n : LogicalNode} (hn : heap[p]? = some n)
    {w : BitVec 64} (hw : isLatest w = isLatest n.hdr) (q : Ptr) (m' : LogicalNode)
    (hm' : (heap.set p { n with hdr := w })[q]? = some m') :
    ∃ m, heap[q]? = some m ∧ isLatest m'.hdr = isLatest m.hdr := by
  rcases eq_or_of_getElem?_set (List.getElem?_eq_some_iff.1 hn).1 hm' with ⟨rfl, rfl⟩ | ⟨-, hq⟩
  · exact ⟨n, hn, hw⟩
  · exact ⟨m', hq, rfl⟩

/-- The newest version is one allocated node. -/
theorem exists_newest (hinv : Inv s) : ∃ q₀ n₀, s.heap[q₀]? = some n₀ ∧ ∀ q, Newest s q ↔ q = q₀ := by
  by_cases hpending : ∃ i x, pendingRep (s.committer i) = some x
  · obtain ⟨i, x, hx⟩ := hpending
    have hi := owns_of_pending hinv hx
    obtain ⟨p, hphase⟩ : ∃ p, s.committer i = .written p (some x) := by
      cases hphase : s.committer i <;> simp_all
    obtain ⟨-, m, -, hm, -⟩ := (hinv.written_slot i p _ hphase).2 x rfl
    exact ⟨x, m, hm, fun q => by rw [newest_of_owner hinv hi, hx]; rfl⟩
  · push_neg at hpending
    obtain ⟨n, hn⟩ := hinv.slot_node
    exact ⟨s.slot, n, hn, fun q => newest_of_none fun i => Option.eq_none_iff_forall_not_mem.2 (hpending i)⟩

end Newest

/-! ## Each step keeps LATEST on the newest version -/

section Preservation

variable {τ : Type} [DecidableEq τ] {s s' : Sys τ}

theorem pendingRep_update_of_none {f : τ → CommitPhase} {i : τ} {ph : CommitPhase}
    (hph : pendingRep ph = none) (hi : pendingRep (f i) = none) (j : τ) :
    pendingRep (Function.update f i ph j) = pendingRep (f j) := by
  by_cases hj : j = i
  · subst hj
    simp [hph, hi]
  · simp [hj]

omit [DecidableEq τ] in
/-- Other committers hold no replacement while `i` holds the slot's node. -/
theorem pending_none_of_owner (hinv : Inv s) {i : τ} (hi : (s.committer i).owns = some s.slot)
    {j : τ} (hj : j ≠ i) : pendingRep (s.committer j) = none := by
  cases hx : pendingRep (s.committer j) with
  | none => rfl
  | some x => exact absurd (hinv.owns_unique j i s.slot (owns_of_pending hinv hx) hi) hj

theorem LatestInv.lock (hl : LatestInv s) {i : τ} {n : LogicalNode} (hidle : s.committer i = .idle)
    (hn : s.heap[s.slot]? = some n) :
    LatestInv { s with
      heap := s.heap.set s.slot { n with hdr := Header.lock n.hdr }
      committer := Function.update s.committer i (.locked s.slot) } :=
  hl.of_cells (newest_congr rfl (pendingRep_update_of_none rfl (by simp [hidle])))
    (cells_set_hdr hn (by simp))

/-- `write_record_at` on the head moves LATEST to the replacement, if it makes one. -/
theorem LatestInv.write (hinv : Inv s) (hl : LatestInv s) {c : Tid → Tid → Bool} {i : τ} {p : Ptr}
    {t : Tid} (r : List UInt8) (hlocked : s.committer i = .locked p)
    (hnewer : ∀ m ∈ chainFrom s.heap p, m.version < t) :
    LatestInv { s with
      heap := (writeRecordAt c s.heap p t r).1
      committer := Function.update s.committer i (.written p (writeRecordAt c s.heap p t r).2.2)
      log := s.log ++ [(t, r)] } := by
  have hinv' := hinv.write (c := c) r hlocked hnewer
  have hp := hinv.locked_slot i p hlocked
  subst hp
  have hown : (s.committer i).owns = some s.slot := by simp [hlocked]
  obtain ⟨n, hn, -⟩ := hinv.owner_locked hown
  have hbefore : ∀ q, Newest s q ↔ q = s.slot := fun q => by
    rw [newest_of_owner hinv hown, hlocked]
    rfl
  have hhead : isLatest n.hdr = true := (hl _ n hn).2 ((hbefore _).2 rfl)
  intro q m hm
  rw [newest_of_owner hinv' (i := i) (by simp) q, isLatest_writeRecordAt hn t r hm]
  -- an untouched LATEST cell would be a second newest version
  have hold : ¬ (q ≠ s.slot ∧ s.heap[q]? = some m ∧ isLatest m.hdr = true) := fun ⟨hq, hm₀, hlatest⟩ =>
    hq ((hbefore q).1 ((hl q m hm₀).1 hlatest))
  simp only [Function.update_same, pendingRep_written, iff_false_intro hold, false_or]
  cases (writeRecordAt c s.heap s.slot t r).2.2 with
  | none => exact ⟨fun h => h.elim (·.1) (nomatch ·), fun h => .inl ⟨h, hhead, rfl⟩⟩
  | some x => exact ⟨fun h => h.elim (nomatch ·.2.2) (Option.some_inj.1 · |>.symm), fun h => .inr (h ▸ rfl)⟩

/-- The swap installs the newest version in the slot: the newest version stays
where it is. -/
theorem newest_swap (hinv : Inv s) {i : τ} {p : Ptr} {rep : Option Ptr}
    (hwritten : s.committer i = .written p rep) (q : Ptr) :
    Newest { s with slot := rep.getD p, committer := Function.update s.committer i (.swapped p) } q ↔
      Newest s q := by
  obtain ⟨hp, -⟩ := hinv.written_slot i p rep hwritten
  have hown : (s.committer i).owns = some s.slot := by simp [hwritten, hp]
  rw [newest_of_owner hinv hown, hwritten, pendingRep_written, ← hp]
  refine newest_of_none fun j => ?_
  by_cases hj : j = i
  · subst hj
    simp
  · simpa [Function.update_noteq hj] using pending_none_of_owner hinv hown hj

theorem LatestInv.swap (hinv : Inv s) (hl : LatestInv s) {i : τ} {p : Ptr} {rep : Option Ptr}
    (hwritten : s.committer i = .written p rep) :
    LatestInv { s with slot := rep.getD p, committer := Function.update s.committer i (.swapped p) } :=
  hl.of_cells (newest_swap hinv hwritten) fun _ m' hm' => ⟨m', hm', rfl⟩

theorem LatestInv.unlock (hl : LatestInv s) {i : τ} {p : Ptr} {n : LogicalNode}
    (hswapped : s.committer i = .swapped p) (hn : s.heap[p]? = some n) :
    LatestInv { s with
      heap := s.heap.set p { n with hdr := Header.unlock n.hdr }
      unlocks := Function.update s.unlocks p (s.unlocks p + 1)
      committer := Function.update s.committer i .idle } :=
  hl.of_cells (newest_congr rfl (pendingRep_update_of_none rfl (by simp [hswapped])))
    (cells_set_hdr hn (by simp))

omit [DecidableEq τ] in
theorem init_latestInv (allocSz : BitVec 64) : LatestInv (init allocSz : Sys τ) := by
  intro q n hn
  have hq : q = 0 := by simpa [init, allocFirst] using (List.getElem?_eq_some_iff.1 hn).1
  subst hq
  have hread : (init allocSz : Sys τ).heap[0]? =
      some (LogicalNode.first (roundUp16 (sizeofLogicalNode + allocSz) - sizeofLogicalNode)) := rfl
  rw [hread] at hn
  cases hn
  rw [newest_of_none (s := (init allocSz : Sys τ)) fun _ => rfl]
  simp [init, LogicalNode.first]

theorem LatestInv.step {c : Tid → Tid → Bool} {t' : Tid} (hinv : Inv s) (hl : LatestInv s)
    (hstep : Step c t' s s') : LatestInv s' := by
  cases hstep with
  | lock i hidle hn _ => exact hl.lock hidle hn
  | write i t r hlocked hnewer => exact hl.write hinv r hlocked hnewer
  | swap i hwritten => exact hl.swap hinv hwritten
  | unlock i hswapped hn => exact hl.unlock hswapped hn
  | read => exact hl

theorem latestInv_of_reachable {c : Tid → Tid → Bool} {t' : Tid} {allocSz : BitVec 64}
    (h : Reachable c t' allocSz s) : LatestInv s := by
  induction h with
  | init => exact init_latestInv allocSz
  | step hreach hstep ih => exact ih.step hreach.inv hstep

end Preservation

/-! ## Exactly one LATEST node, and the committers' assertions -/

section Reachable

variable {τ : Type} [DecidableEq τ] {s : Sys τ} {c : Tid → Tid → Bool} {t' : Tid} {allocSz : BitVec 64}

/-- In every reachable state, LATEST is set exactly on the key's newest version,
the replacement a committer has written and not yet swapped in, or else the node
in the slot: exactly one node of the heap carries it. -/
theorem reachable_latest_newest (hreach : Reachable c t' allocSz s) :
    (∀ q n, s.heap[q]? = some n → (isLatest n.hdr = true ↔ Newest s q)) ∧
      ∃! q : Ptr, ∃ n : LogicalNode, s.heap[q]? = some n ∧ isLatest n.hdr = true := by
  have hl := latestInv_of_reachable hreach
  obtain ⟨q₀, n₀, hn₀, hq₀⟩ := exists_newest hreach.inv
  exact ⟨hl, q₀, ⟨n₀, hn₀, (hl q₀ n₀ hn₀).2 ((hq₀ q₀).2 rfl)⟩,
    fun q ⟨n, hn, hlatest⟩ => (hq₀ q).1 ((hl q n hn).1 hlatest)⟩

/-- The first committer locks the chain from `alloc_first(0)` and writes a record
that does not fit: until it swaps the slot, the replacement at cell 1 is the one
LATEST node, and the slot still names cell 0. -/
theorem reachable_latest_newest_pending :
    ∃ s : Sys Unit, Reachable (fun _ _ => false) 5 0 s ∧ s.slot = 0 ∧
      (∃ n, s.heap[1]? = some n ∧ isLatest n.hdr = true) ∧
        ∃! q : Ptr, ∃ n : LogicalNode, s.heap[q]? = some n ∧ isLatest n.hdr = true :=
  have hlock : Step (fun _ _ => false) 5 (init 0 : Sys Unit) _ := .lock () rfl rfl (by decide)
  have hreach := Reachable.step (Reachable.step .init hlock) (Step.write (p := 0) () 1 [97] rfl (by decide))
  ⟨_, hreach, rfl, ⟨_, rfl, by decide⟩, (reachable_latest_newest hreach).2⟩

end Reachable

/-! ## The readers' LATEST checks -/

section Checks

variable {τ : Type} [DecidableEq τ] {c : Tid → Tid → Bool} {t' : Tid} {allocSz : BitVec 64}

/-- The cells of node `q` along an execution, `n₀` standing in where it is not allocated. -/
def cellsOf (exec : Nat → Sys τ) (q : Ptr) (n₀ : LogicalNode) (i : Nat) : Cell :=
  ⟨((exec i).heap[q]?).getD n₀, (exec i).unlocks q⟩

/-- Along an execution from a reachable state, the cells of a node allocated at
the start take steps of the lock discipline of `Silo.Bracket`. -/
theorem steps_cellsOf (exec : Nat → Sys τ) {a b : Nat} (hreach : Reachable c t' allocSz (exec a))
    (hexec : ∀ i, a ≤ i → i < b → Step c t' (exec i) (exec (i + 1))) {q : Ptr} {n₀ : LogicalNode}
    (hq : (exec a).heap[q]? = some n₀) : Steps (cellsOf exec q n₀) a b := by
  have hrun : ∀ i, a ≤ i → i ≤ b → Reachable c t' allocSz (exec i) ∧ ∃ n, (exec i).heap[q]? = some n := by
    intro i hai hib
    induction i, hai using Nat.le_induction with
    | base => exact ⟨hreach, n₀, hq⟩
    | succ i hai ih =>
        obtain ⟨hri, n, hn⟩ := ih (by omega)
        have hstep := hexec i hai (by omega)
        obtain ⟨n', hn', -⟩ := hri.inv.envStep hstep hn
        exact ⟨hri.step hstep, n', hn'⟩
  intro i hai hib
  obtain ⟨hri, n, hn⟩ := hrun i hai hib.le
  obtain ⟨n', hn', henv⟩ := hri.inv.envStep (hexec i hai hib) hn
  simpa only [cellsOf, hn, hn', Option.getD_some] using henv

/-- Over any execution of the committers and the reader from a reachable state,
with fewer than `2^60` unlocks of node `q` during the bracket: when
`stable_is_latest_version(t)` answers true on `q`, then at the header read that
opened the bracket `q` was the key's newest version, with tid at most `t`; when
`stable_latest_value_is_nil()` answers true, `q` was the newest version and held
the empty record. -/
theorem latestChecks_newest (exec : Nat → Sys τ) (a b : Nat) (hreach : Reachable c t' allocSz (exec a))
    (hexec : ∀ i, a ≤ i → i < b → Step c t' (exec i) (exec (i + 1))) {q : Ptr} {n₀ : LogicalNode}
    (hq : (exec a).heap[q]? = some n₀) (hwrap : (exec b).unlocks q - (exec a).unlocks q < 2 ^ 60)
    {i : Nat} (hai : a ≤ i) (hib : i ≤ b) :
    (∀ t, stableIsLatestVersion (cellsOf exec q n₀) t a i b = true →
        Newest (exec a) q ∧ n₀.version ≤ t) ∧
      (stableLatestValueIsNil (cellsOf exec q n₀) a i b = true → Newest (exec a) q ∧ n₀.size = 0) := by
  have ha : cellsOf exec q n₀ a = ⟨n₀, (exec a).unlocks q⟩ := by simp [cellsOf, hq]
  -- a bracket that passes sees `n₀` throughout
  have hconst : isLocked n₀.hdr = false → (cellsOf exec q n₀ b).node.hdr = n₀.hdr →
      (cellsOf exec q n₀ i).node = n₀ := fun hunlocked hcheck =>
    ((steps_cellsOf exec hreach hexec hq).constant (by omega) (by rw [ha]; exact hunlocked)
      (by rw [ha]; exact hcheck) (by simpa [cellsOf] using hwrap) hai hib).trans (by rw [ha])
  have hnewest := (latestInv_of_reachable hreach q n₀ hq).1
  refine ⟨fun t hret => ?_, fun hret => ?_⟩
  · simp only [stableIsLatestVersion, ha, Bool.and_eq_true, Bool.not_eq_true', beq_iff_eq] at hret
    obtain ⟨⟨hunlocked, hlatest, hbehind⟩, hcheck⟩ := hret
    rw [hconst hunlocked hcheck] at hbehind
    exact ⟨hnewest hlatest, by simpa [LogicalNode.isNotBehind] using hbehind⟩
  · simp only [stableLatestValueIsNil, ha, Bool.and_eq_true, Bool.not_eq_true', beq_iff_eq] at hret
    obtain ⟨⟨hunlocked, hlatest, hsize⟩, hcheck⟩ := hret
    rw [hconst hunlocked hcheck] at hsize
    exact ⟨hnewest hlatest, hsize⟩

/-- The first committer on the chain from `alloc_first(0)` has written a record
that does not fit, and its replacement at cell 1 is pending. A
`stable_is_latest_version(5)` on cell 1 that opens before the swap and checks
after the unlock answers true, and the replacement was the newest version when
the bracket opened. -/
theorem latestChecks_newest_across_swap :
    ∃ s₀ s₁ s₂ : Sys Unit, Reachable (fun _ _ => false) 5 0 s₀ ∧ Step (fun _ _ => false) 5 s₀ s₁ ∧
      Step (fun _ _ => false) 5 s₁ s₂ ∧ s₀.committer () = .written 0 (some 1) ∧ s₀.slot = 0 ∧
      s₂.committer () = .idle ∧ s₂.slot = 1 ∧ ∃ n₀, s₀.heap[1]? = some n₀ ∧
        stableIsLatestVersion (cellsOf (fun i => if i = 0 then s₀ else if i = 1 then s₁ else s₂) 1 n₀)
          5 0 1 2 = true ∧ Newest s₀ 1 ∧ n₀.version ≤ 5 := by
  have hlock : Step (fun _ _ => false) 5 (init 0 : Sys Unit) _ := .lock () rfl rfl (by decide)
  have hreach := Reachable.step (Reachable.step .init hlock) (Step.write (p := 0) () 1 [97] rfl (by decide))
  -- the check over any two steps from a reachable state, with the states named
  have hchecks : ∀ s₀ s₁ s₂ : Sys Unit, Reachable (fun _ _ => false) 5 0 s₀ →
      Step (fun _ _ => false) 5 s₀ s₁ → Step (fun _ _ => false) 5 s₁ s₂ → ∀ n₀, s₀.heap[1]? = some n₀ →
      s₂.unlocks 1 - s₀.unlocks 1 < 2 ^ 60 →
      stableIsLatestVersion (cellsOf (fun i => if i = 0 then s₀ else if i = 1 then s₁ else s₂) 1 n₀)
        5 0 1 2 = true → Newest s₀ 1 ∧ n₀.version ≤ 5 :=
    fun s₀ s₁ s₂ h₀ h₁ h₂ n₀ hq hwrap hret =>
      (latestChecks_newest (fun i => if i = 0 then s₀ else if i = 1 then s₁ else s₂) 0 2 h₀
        (fun i _ hi => by interval_cases i; exacts [h₁, h₂]) hq hwrap (Nat.zero_le 1) (by decide)).1 5 hret
  exact ⟨_, _, _, hreach, .swap () rfl, .unlock () rfl rfl, rfl, rfl, rfl, rfl, _, rfl, by decide,
    hchecks _ _ _ hreach (.swap () rfl) (.unlock () rfl rfl) _ rfl (by decide) (by decide)⟩

end Checks

/-! ## LATEST, once lost, stays lost -/

section Stale

variable {τ : Type} [DecidableEq τ] {s s' : Sys τ} {c : Tid → Tid → Bool} {t' : Tid}

/-- A cell without LATEST keeps lacking it when a header is set to a word with the
same LATEST bit. -/
theorem stale_set_hdr {heap : Heap} {p q : Ptr} {n m : LogicalNode} (hn : heap[p]? = some n)
    {w : BitVec 64} (hw : isLatest w = isLatest n.hdr) (hm : heap[q]? = some m)
    (hstale : isLatest m.hdr = false) :
    ∃ m', (heap.set p { n with hdr := w })[q]? = some m' ∧ isLatest m'.hdr = false := by
  have hq : q < (heap.set p { n with hdr := w }).length := by
    simpa using (List.getElem?_eq_some_iff.1 hm).1
  obtain ⟨m₀, hm₀, hsame⟩ := cells_set_hdr hn hw q _ (List.getElem?_eq_getElem hq)
  rw [hm] at hm₀
  cases hm₀
  exact ⟨_, List.getElem?_eq_getElem hq, hsame.trans hstale⟩

/-- A cell without LATEST keeps lacking it: the only cell a step may give LATEST
is a new replacement. -/
theorem not_latest_step (hinv : Inv s) (hl : LatestInv s) (hstep : Step c t' s s') {q : Ptr}
    {m : LogicalNode} (hm : s.heap[q]? = some m) (hstale : isLatest m.hdr = false) :
    ∃ m', s'.heap[q]? = some m' ∧ isLatest m'.hdr = false := by
  cases hstep with
  | lock i hidle hn _ => exact stale_set_hdr hn (by simp) hm hstale
  | @write i p t r hlocked hnewer =>
      have hp := hinv.locked_slot i p hlocked
      subst hp
      have hown : (s.committer i).owns = some s.slot := by simp [hlocked]
      obtain ⟨n, hn, -⟩ := hinv.owner_locked hown
      -- the written head is the newest version, so it is not `q`
      have hqp : q ≠ s.slot := by
        rintro rfl
        have hnew : Newest s s.slot := by
          rw [newest_of_owner hinv hown, hlocked]
          rfl
        rw [(hl _ m hm).2 hnew] at hstale
        exact Bool.noConfusion hstale
      exact ⟨m, by rw [writeRecordAt_frame hn t r hqp (List.getElem?_eq_some_iff.1 hm).1, hm], hstale⟩
  | swap | read => exact ⟨m, hm, hstale⟩
  | unlock i hswapped hn => exact stale_set_hdr hn (by simp) hm hstale

/-- The phases of `record_at` after the header read that opens a bracket. -/
def afterHeaderRead : ReadPhase → Bool
  | .readNext | .readVersion | .readStart | .readRecord | .check => true
  | _ => false

/-- Inside a bracket whose opening header lacks LATEST, the reader's node is
allocated and no longer the newest version. -/
def StaleHeader (s : Sys τ) : Prop :=
  afterHeaderRead s.reader.pc = true → isLatest s.reader.v = false →
    s.reader.node < s.heap.length ∧ ¬ Newest s s.reader.node

omit [DecidableEq τ] in
/-- Inside a bracket a reader step keeps the node and the header it read, unless
it is the header read of `stable_version` that opens the bracket. -/
theorem readerStep_bracket {heap : Heap} {slot : Ptr} {unlocks : Ptr → Nat} {rd : Reader}
    (h : afterHeaderRead (readerStep t' heap slot unlocks rd).pc = true) :
    ((readerStep t' heap slot unlocks rd).node = rd.node ∧ (readerStep t' heap slot unlocks rd).v = rd.v ∧
        afterHeaderRead rd.pc = true) ∨
      (rd.pc = .stable ∧ ∃ n, heap[rd.node]? = some n ∧ (readerStep t' heap slot unlocks rd).node = rd.node ∧
        (readerStep t' heap slot unlocks rd).v = n.hdr) := by
  generalize hR : readerStep t' heap slot unlocks rd = R at h ⊢
  unfold readerStep at hR
  split at hR <;> (try split_ifs at hR) <;> (try split at hR) <;> subst hR <;> simp_all [afterHeaderRead]

omit [DecidableEq τ] in
/-- The reader leaves `record_at` from its LATEST test only on a node that would
have answered, under a header without LATEST. -/
theorem readerStep_refuses {heap : Heap} {slot : Ptr} {unlocks : Ptr → Nat} {rd : Reader}
    (hpc : rd.pc = .readVersion) (hret : (readerStep t' heap slot unlocks rd).pc = .done) :
    ∃ n, heap[rd.node]? = some n ∧ n.version ≤ t' ∧ isLatest rd.v = false := by
  unfold readerStep at hret
  rw [hpc] at hret
  cases hn : heap[rd.node]? with
  | none => simp [hn, hpc] at hret
  | some n =>
      simp only [hn] at hret
      split_ifs at hret with hnb hrl
      · simp only [Bool.and_eq_true, Bool.not_eq_true'] at hrl
        exact ⟨n, rfl, by simpa [LogicalNode.isNotBehind] using hnb, hrl.2⟩

theorem StaleHeader.step (hinv : Inv s) (hl : LatestInv s) (hstale : StaleHeader s)
    (hstep : Step c t' s s') : StaleHeader s' := by
  have hl' := hl.step hinv hstep
  intro hpc hv
  rcases hstep.reader_cases with hrd | rfl
  · -- another thread's step: the node stays allocated and without LATEST
    rw [hrd] at hpc hv ⊢
    obtain ⟨hlt, hnot⟩ := hstale hpc hv
    obtain ⟨m, hm⟩ : ∃ m, s.heap[s.reader.node]? = some m := ⟨_, List.getElem?_eq_getElem hlt⟩
    have hm_stale : isLatest m.hdr = false := Bool.eq_false_iff.2 fun h => hnot ((hl _ m hm).1 h)
    obtain ⟨m', hm', hstale'⟩ := not_latest_step hinv hl hstep hm hm_stale
    exact ⟨(List.getElem?_eq_some_iff.1 hm').1, fun hnew => Bool.eq_false_iff.1 hstale' ((hl' _ m' hm').2 hnew)⟩
  · rcases readerStep_bracket hpc with ⟨hnode, hvv, hpc₀⟩ | ⟨-, n, hn, hnode, hvv⟩
    · -- the bracket goes on
      have := hstale hpc₀ (hvv ▸ hv)
      simp only [Sys.readStep, hnode] at this ⊢
      exact this
    · -- the header read that opens the bracket lacked LATEST
      refine ⟨hnode ▸ (List.getElem?_eq_some_iff.1 hn).1, fun hnew => ?_⟩
      change isLatest (readerStep t' s.heap s.slot s.unlocks s.reader).v = false at hv
      rw [hvv] at hv
      exact Bool.eq_false_iff.1 hv ((hl _ n hn).2 (by simpa [Sys.readStep, hnode] using hnew))

theorem staleHeader_of_reachable {allocSz : BitVec 64} (h : Reachable c t' allocSz s) :
    StaleHeader s := by
  induction h with
  | init => intro hpc; simp [init, afterHeaderRead] at hpc
  | step hreach hstep ih => exact ih.step hreach.inv (latestInv_of_reachable hreach) hstep

/-- `stable_read` refuses for want of LATEST only on a superseded node: when the
reader gives up at the LATEST test, its node, whose tid would have answered the
read, is no longer the key's newest version. -/
theorem stableRead_refusal_superseded {allocSz : BitVec 64} (hreach : Reachable c t' allocSz s)
    (hpc : s.reader.pc = .readVersion) (hret : (s.readStep t').reader.pc = .done) :
    ∃ n, s.heap[s.reader.node]? = some n ∧ n.version ≤ t' ∧ ¬ Newest s s.reader.node := by
  obtain ⟨n, hn, hle, hv⟩ := readerStep_refuses hpc hret
  exact ⟨n, hn, hle, (staleHeader_of_reachable hreach (by simp [hpc, afterHeaderRead]) hv).2⟩

/-- A reader takes cell 0 from the slot of the chain from `alloc_first(0)`; a
committer then writes tid 1, which does not fit, swaps the replacement in and
unlocks; the reader's bracket on cell 0 opens on a header without LATEST, and
its LATEST test gives up on cell 0, which is no longer the newest version. -/
theorem stableRead_refusal_superseded_after_swap :
    ∃ s : Sys Unit, Reachable (fun _ _ => false) 5 0 s ∧ s.reader.pc = .readVersion ∧
      (s.readStep 5).reader.pc = .done ∧ s.reader.node = 0 ∧ s.slot = 1 ∧
        ∃ n, s.heap[s.reader.node]? = some n ∧ n.version ≤ 5 ∧ ¬ Newest s s.reader.node :=
  have hreach : Reachable (fun _ _ => false) 5 0 _ :=
    .step (.step (.step (.step (.step (.step (.step (.step .init .read) .read)
      (.lock () rfl rfl (by decide))) (.write (p := 0) () 1 [97] rfl (by decide))) (.swap () rfl))
      (.unlock () rfl rfl)) .read) .read
  ⟨_, hreach, rfl, by decide, rfl, rfl, stableRead_refusal_superseded hreach rfl (by decide)⟩

end Stale

end Silo.Latest
