import Silo.Bracket

/-!
# The per-node spin lock

Threads take a node's lock with `lock()`: read the header, and while it is
locked or the compare-and-swap from the word read to that word with LOCKED set
fails, pause and read it again. Holding the lock, a thread stores to the node's
fields and calls the header setters, each a read-modify-write of `hdr`. Then
`unlock()` reads the header and stores it back with VERSION advanced and LOCKED
clear: a plain store, which would lose a concurrent update if another thread
could write the header in between.

`step` is one atomic step of one thread, and a schedule (a list of thread ids)
is one interleaving. Under every schedule at most one thread holds the lock,
and the header is the sequential header of `Silo.Header` after the header
operations in the order they took effect: no lock, setter or unlock is lost.
Every step is a step of the lock discipline of `Silo.Bracket`.
-/

namespace Silo.Lock

open Silo.Header Silo.Node Silo.Bracket

/-- A call a thread makes while it holds the lock: a store to one of the node's
fields, or `set_latest`, `set_enqueued` or `mark_deleting`. -/
inductive Call where
  | setNext (next : Option Ptr)
  | setVersion (version : Tid)
  | setSize (size : BitVec 32)
  | setValue (value : List UInt8)
  | setLatest (latest : Bool)
  | setEnqueued (enqueued : Bool)
  | markDeleting
  deriving DecidableEq, Repr

namespace Call

/-- The call's effect on the node; the setters rewrite `hdr` in one atomic step. -/
def apply : Call → LogicalNode → LogicalNode
  | .setNext next, n => { n with next := next }
  | .setVersion version, n => { n with version := version }
  | .setSize size, n => { n with size := size }
  | .setValue value, n => { n with valueStart := value }
  | .setLatest latest, n => { n with hdr := Header.setLatest latest n.hdr }
  | .setEnqueued enqueued, n => { n with hdr := Header.setEnqueued enqueued n.hdr }
  | .markDeleting, n => { n with hdr := Header.markDeleting n.hdr }

/-- The header operation of a call, if it has one. -/
def hdrOp : Call → Option HdrOp
  | .setLatest latest => some (.setLatest latest)
  | .setEnqueued enqueued => some (.setEnqueued enqueued)
  | .markDeleting => some .markDeleting
  | _ => none

theorem hdr_apply (c : Call) (n : LogicalNode) : (c.apply n).hdr = run n.hdr c.hdrOp.toList := by
  cases c <;> rfl

/-- A call keeps LOCKED and VERSION. -/
theorem decode_hdr_apply (c : Call) (n : LogicalNode) :
    (decode (c.apply n).hdr).locked = (decode n.hdr).locked ∧
      (decode (c.apply n).hdr).version = (decode n.hdr).version := by
  cases c <;> simp [apply]

end Call

/-- Where a thread is in `lock()`, its calls, and `unlock()`. -/
inductive Phase where
  /-- `v = hdr` in `lock()`, first or after a pause. -/
  | lockRead
  /-- The loop test of `lock()` on the word `v` it read. -/
  | lockCas (v : BitVec 64)
  /-- Holding the lock, with these calls left. -/
  | inside (calls : List Call)
  /-- `unlock()` read `v`; its store is next. -/
  | unlockStore (v : BitVec 64)
  | done
  deriving DecidableEq, Repr

/-- The thread is between its successful compare-and-swap and its unlock store. -/
def Phase.holds : Phase → Bool
  | .inside _ => true
  | .unlockStore _ => true
  | _ => false

/-- The node and where each thread is. -/
structure State (τ : Type) where
  node : LogicalNode
  phase : τ → Phase

section Step

variable {τ : Type} [DecidableEq τ] (prog : τ → List Call)

/-- One atomic step of thread `i`, whose calls are `prog i`. -/
def step (s : State τ) (i : τ) : State τ :=
  match s.phase i with
  | .lockRead => { s with phase := Function.update s.phase i (.lockCas s.node.hdr) }
  | .lockCas v =>
      if isLocked v then { s with phase := Function.update s.phase i .lockRead }
      else if s.node.hdr = v then
        ⟨{ s.node with hdr := lock v }, Function.update s.phase i (.inside (prog i))⟩
      else { s with phase := Function.update s.phase i .lockRead }
  | .inside (c :: cs) => ⟨c.apply s.node, Function.update s.phase i (.inside cs)⟩
  | .inside [] => { s with phase := Function.update s.phase i (.unlockStore s.node.hdr) }
  | .unlockStore v => ⟨{ s.node with hdr := unlock v }, Function.update s.phase i .done⟩
  | .done => s

/-- The header operation that thread `i`'s step performs, if any. -/
def stepOp (s : State τ) (i : τ) : Option HdrOp :=
  match s.phase i with
  | .lockCas v => if !isLocked v && s.node.hdr == v then some .lock else none
  | .inside (c :: _) => c.hdrOp
  | .unlockStore _ => some .unlock
  | _ => none

/-- The interleaving `sched`: the final state, and the header operations in the
order they took effect. -/
def runSched : State τ → List τ → State τ × List HdrOp
  | s, [] => (s, [])
  | s, i :: sched =>
      let r := runSched (step prog s i) sched
      (r.1, (stepOp s i).toList ++ r.2)

/-- Every thread before its `lock()`, on a node whose header is `node.hdr`. -/
def init (node : LogicalNode) : State τ := ⟨node, fun _ => .lockRead⟩

end Step

/-! ## The invariant -/

section Invariant

variable {τ : Type} [DecidableEq τ] {prog : τ → List Call}

/-- At most one thread holds the lock; LOCKED is set exactly when one does; and
a thread about to store its unlock read the header as it is. -/
structure Inv (s : State τ) : Prop where
  exclusive : ∀ i j, (s.phase i).holds = true → (s.phase j).holds = true → i = j
  locked_iff : isLocked s.node.hdr = true ↔ ∃ i, (s.phase i).holds = true
  unlock_read : ∀ i v, s.phase i = .unlockStore v → v = s.node.hdr

omit [DecidableEq τ] in
theorem init_inv (node : LogicalNode) (hunlocked : isLocked node.hdr = false) :
    Inv (init node : State τ) :=
  ⟨fun _ _ h => by simp [init, Phase.holds] at h, by simpa [init, Phase.holds] using hunlocked,
    fun _ _ h => by simp [init] at h⟩

variable {s : State τ} {i : τ}

omit [DecidableEq τ] in
theorem Inv.not_holds (hinv : Inv s) (hunlocked : isLocked s.node.hdr = false) (j : τ) :
    (s.phase j).holds = false := by
  by_contra h
  have := hinv.locked_iff.2 ⟨j, by simpa using h⟩
  simp_all

omit [DecidableEq τ] in
theorem Inv.other_not_unlockStore (hinv : Inv s) (hi : (s.phase i).holds = true) {j : τ}
    (hj : j ≠ i) (v : BitVec 64) : s.phase j ≠ .unlockStore v := fun h =>
  hj (hinv.exclusive j i (by simp [h, Phase.holds]) hi)

theorem holds_update {f : τ → Phase} {p : Phase} (h : p.holds = (f i).holds)
    (j : τ) : (Function.update f i p j).holds = (f j).holds := by
  by_cases hj : j = i
  · subst hj; simp [h]
  · simp [hj]

/-- A step that moves a thread between phases without the lock keeps the invariant. -/
theorem Inv.update_not_holds (hinv : Inv s) (hi : (s.phase i).holds = false) {p : Phase}
    (hp : p.holds = false) (hnotStore : ∀ v, p ≠ .unlockStore v) :
    Inv { s with phase := Function.update s.phase i p } := by
  have hsame := holds_update (hp.trans hi.symm)
  refine ⟨fun j k hj hk => ?_, ?_, fun j v h => ?_⟩
  · rw [hsame] at hj hk
    exact hinv.exclusive j k hj hk
  · simp only [hsame]
    exact hinv.locked_iff
  · by_cases hj : j = i
    · subst hj; simp at h; exact absurd h (hnotStore v)
    · simp [hj] at h; exact hinv.unlock_read j v h

/-- A step of the thread holding the lock that keeps it keeps the invariant, if
LOCKED stays as it was and an unlock store it is about to make is of the new header. -/
theorem Inv.update_holds (hinv : Inv s) (hi : (s.phase i).holds = true) {p : Phase}
    (hp : p.holds = true) {node : LogicalNode} (hlocked : isLocked node.hdr = isLocked s.node.hdr)
    (hstore : ∀ v, p = .unlockStore v → v = node.hdr) :
    Inv ⟨node, Function.update s.phase i p⟩ := by
  have hsame := holds_update (hp.trans hi.symm)
  refine ⟨fun j k hj hk => ?_, ?_, fun j v h => ?_⟩
  · rw [hsame] at hj hk
    exact hinv.exclusive j k hj hk
  · simp only [hsame, hlocked]
    exact hinv.locked_iff
  · by_cases hj : j = i
    · subst hj; exact hstore v (by simpa using h)
    · simp only [Function.update_noteq hj] at h
      exact absurd h (hinv.other_not_unlockStore hi hj v)

variable (prog) in
/-- One step keeps the invariant, and changes the header exactly by the header
operation it performs. -/
theorem Inv.after_step (hinv : Inv s) (i : τ) :
    Inv (step prog s i) ∧ (step prog s i).node.hdr = run s.node.hdr (stepOp s i).toList := by
  cases hphase : s.phase i with
  | lockRead =>
      -- `v = hdr` in `lock()`
      simp only [step, stepOp, hphase]
      exact ⟨hinv.update_not_holds (by simp [hphase, Phase.holds]) rfl (by simp), rfl⟩
  | lockCas v =>
      -- the loop test and compare-and-swap of `lock()`
      have hi : (s.phase i).holds = false := by simp [hphase, Phase.holds]
      by_cases hcas : isLocked v = false ∧ s.node.hdr = v
      · obtain ⟨hv, rfl⟩ := hcas
        simp only [step, stepOp, hphase, hv, Bool.false_eq_true, if_false, if_true, Bool.not_false,
          beq_self_eq_true, Bool.and_self]
        have hfree := hinv.not_holds hv
        refine ⟨⟨fun j k hj hk => ?_, ?_, fun j w h => ?_⟩, rfl⟩
        · by_cases hji : j = i <;> by_cases hki : k = i <;> simp_all [Phase.holds]
        · simp only [isLocked_eq, decode_lock, true_iff]
          exact ⟨i, by simp [Phase.holds]⟩
        · by_cases hji : j = i
          · subst hji; simp at h
          · simp only [Function.update_noteq hji] at h
            have hj := hfree j
            rw [h] at hj
            simp [Phase.holds] at hj
      · have hstep : step prog s i = { s with phase := Function.update s.phase i .lockRead } := by
          simp only [step, hphase]
          split_ifs <;> simp_all
        have hop : stepOp s i = none := by
          simp only [stepOp, hphase]
          split_ifs with h <;> simp_all
        rw [hstep, hop]
        exact ⟨hinv.update_not_holds hi rfl (by simp), rfl⟩
  | inside calls =>
      have hi : (s.phase i).holds = true := by simp [hphase, Phase.holds]
      cases calls with
      | cons c cs =>
          -- a call inside the critical section
          simp only [step, stepOp, hphase]
          exact ⟨hinv.update_holds (p := .inside cs) hi rfl (by simp [(Call.decode_hdr_apply c s.node).1])
            (by simp),
            Call.hdr_apply c s.node⟩
      | nil =>
          -- the read of `unlock()`
          simp only [step, stepOp, hphase]
          exact ⟨hinv.update_holds (p := .unlockStore s.node.hdr) hi rfl rfl fun v h => by cases h; rfl, rfl⟩
  | unlockStore v =>
      -- the store of `unlock()`
      have hi : (s.phase i).holds = true := by simp [hphase, Phase.holds]
      obtain rfl := hinv.unlock_read i v hphase
      simp only [step, stepOp, hphase]
      have hnone : ∀ j, (Function.update s.phase i .done j).holds = false := by
        intro j
        by_cases hj : j = i
        · subst hj; simp [Phase.holds]
        · simp only [Function.update_noteq hj]
          by_contra h
          exact hj (hinv.exclusive j i (by simpa using h) hi)
      refine ⟨⟨fun j k hj hk => ?_, ?_, fun j w h => ?_⟩, rfl⟩
      · simp [hnone] at hj
      · simp [hnone]
      · by_cases hj : j = i
        · subst hj; simp at h
        · simp only [Function.update_noteq hj] at h
          exact absurd h (hinv.other_not_unlockStore hi hj w)
  | done =>
      simp only [step, stepOp, hphase]
      exact ⟨hinv, rfl⟩

variable (prog) in
/-- A whole interleaving keeps the invariant, and the header is the sequential
header after the operations in the order they took effect. -/
theorem Inv.after_runSched (hinv : Inv s) (sched : List τ) :
    Inv (runSched prog s sched).1 ∧
      (runSched prog s sched).1.node.hdr = run s.node.hdr (runSched prog s sched).2 := by
  induction sched generalizing s with
  | nil => exact ⟨hinv, rfl⟩
  | cons i sched ih =>
      obtain ⟨hinv', hhdr⟩ := hinv.after_step prog i
      obtain ⟨hinv'', hrun⟩ := ih hinv'
      refine ⟨hinv'', ?_⟩
      simp only [Silo.Lock.runSched, hrun, hhdr]
      cases stepOp s i <;> rfl

end Invariant

/-! ## Mutual exclusion and no lost update -/

section Result

variable {τ : Type} [DecidableEq τ]

/-- The per-node spin lock under any number of threads and every interleaving of
their atomic steps: at most one thread is between its successful compare-and-swap
and its unlock store; LOCKED is set exactly when one is; and the header is the
header the operations give in the order they took effect, so VERSION has advanced
by the number of completed critical sections (modulo `2^60`), and LATEST,
ENQUEUED and DELETING hold the values last given to them. -/
theorem lock_exclusive_no_lost_update (prog : τ → List Call) (node : LogicalNode)
    (hunlocked : isLocked node.hdr = false) (sched : List τ) :
    let r := runSched prog (init node) sched
    (∀ i j, (r.1.phase i).holds = true → (r.1.phase j).holds = true → i = j) ∧
    (isLocked r.1.node.hdr = true ↔ ∃ i, (r.1.phase i).holds = true) ∧
    decode r.1.node.hdr =
      { locked := lastGiven HdrOp.lockGiven false r.2
        deleting := (decode node.hdr).deleting || decide (HdrOp.markDeleting ∈ r.2)
        enqueued := lastGiven HdrOp.enqueuedGiven (decode node.hdr).enqueued r.2
        latest := lastGiven HdrOp.latestGiven (decode node.hdr).latest r.2
        version := (decode node.hdr).version + BitVec.ofNat 60 (r.2.count .unlock) } := by
  dsimp only
  obtain ⟨hinv, hhdr⟩ := (init_inv (τ := τ) node hunlocked).after_runSched prog sched
  refine ⟨hinv.exclusive, hinv.locked_iff, ?_⟩
  rw [hhdr, decode_run]
  simp only [isLocked_eq] at hunlocked
  simp [init, hunlocked]

/-- Two threads, one clearing LATEST and one marking the node deleting, with
their steps interleaved: VERSION has advanced by the two unlocks. -/
theorem lock_exclusive_no_lost_update_two_threads :
    isLocked (LogicalNode.first 16).hdr = false ∧
      (decode (runSched (fun b => if b then [Call.setLatest false] else [Call.markDeleting])
        (init (LogicalNode.first 16)) [true, false, true, false, true, false, true, true, false,
          false, false, false, false, false]).1.node.hdr).version = 2 := by
  refine ⟨by decide, ?_⟩
  rw [(lock_exclusive_no_lost_update (fun b => if b then [Call.setLatest false] else [Call.markDeleting])
    (LogicalNode.first 16) (by decide) [true, false, true, false, true, false, true, true, false,
      false, false, false, false, false]).2.2]
  decide

end Result

/-! ## The lock obeys the discipline of the bracket -/

section Discipline

variable {τ : Type} [DecidableEq τ] {prog : τ → List Call} {s : State τ}

variable (prog) in
/-- Each step of the lock protocol is, on the node, a step of the writer
discipline, with the unlock count advanced by the unlock store it makes. -/
theorem Inv.envStep (hinv : Inv s) (i : τ) (k : Nat) :
    EnvStep ⟨s.node, k⟩ ⟨(step prog s i).node, k + (stepOp s i).toList.count .unlock⟩ := by
  cases hphase : s.phase i with
  | lockCas v =>
      by_cases hcas : isLocked v = false ∧ s.node.hdr = v
      · obtain ⟨hv, rfl⟩ := hcas
        simp only [step, stepOp, hphase, hv, Bool.false_eq_true, if_false, if_true, Bool.not_false,
          beq_self_eq_true, Bool.and_self]
        exact .inl (.lock hv)
      · right
        simp only [step, stepOp, hphase]
        split_ifs <;> simp_all
  | inside calls =>
      cases calls with
      | cons c cs =>
          have hlocked := hinv.locked_iff.2 ⟨i, by simp [hphase, Phase.holds]⟩
          simp only [step, stepOp, hphase]
          cases hc : c.hdrOp with
          | none =>
              exact .inl (.write _ hlocked (by simpa [(Call.decode_hdr_apply c s.node).1] using hlocked)
                (Call.decode_hdr_apply c s.node).2)
          | some op =>
              have hop : op ≠ .unlock := by cases c <;> simp [Call.hdrOp] at hc <;> subst hc <;> simp
              simp only [Option.toList_some, List.count_singleton', hop, if_false, add_zero]
              exact .inl (.write _ hlocked (by simpa [(Call.decode_hdr_apply c s.node).1] using hlocked)
                (Call.decode_hdr_apply c s.node).2)
      | nil => exact .inr (by simp [step, stepOp, hphase])
  | unlockStore v =>
      have hlocked := hinv.locked_iff.2 ⟨i, by simp [hphase, Phase.holds]⟩
      obtain rfl := hinv.unlock_read i v hphase
      simp only [step, stepOp, hphase, Option.toList_some, List.count_singleton_self]
      exact .inl (.unlock hlocked)
  | lockRead => exact .inr (by simp [step, stepOp, hphase])
  | done => exact .inr (by simp [step, stepOp, hphase])

theorem runSched_append (prog : τ → List Call) (s : State τ) (l₁ l₂ : List τ) :
    runSched prog s (l₁ ++ l₂) =
      ((runSched prog (runSched prog s l₁).1 l₂).1,
        (runSched prog s l₁).2 ++ (runSched prog (runSched prog s l₁).1 l₂).2) := by
  induction l₁ generalizing s with
  | nil => rfl
  | cons i l₁ ih => simp [runSched, ih]

/-- The node and its unlock count after the first `j` steps of a schedule. -/
def cellAfter (prog : τ → List Call) (s : State τ) (sched : List τ) (j : Nat) : Cell :=
  let r := runSched prog s (sched.take j)
  ⟨r.1.node, r.2.count .unlock⟩

/-- Every interleaving of the lock protocol, seen from the node, is an execution
whose steps follow the writer discipline of the bracket. -/
theorem runSched_steps (prog : τ → List Call) (node : LogicalNode)
    (hunlocked : isLocked node.hdr = false) (sched : List τ) :
    Steps (cellAfter prog (init node) sched) 0 sched.length := by
  intro j _ hj
  have hinv := ((init_inv (τ := τ) node hunlocked).after_runSched prog (sched.take j)).1
  have htake : sched.take (j + 1) = sched.take j ++ [sched[j]] := by
    rw [List.take_succ, List.getElem?_eq_getElem hj]
    rfl
  have hstep := hinv.envStep prog sched[j] ((runSched prog (init node) (sched.take j)).2.count .unlock)
  simp only [cellAfter, htake, runSched_append, List.count_append]
  simpa [runSched] using hstep

theorem runSched_steps_two_threads :
    isLocked (LogicalNode.first 16).hdr = false ∧
      Steps (cellAfter (fun b => if b then [Call.setLatest false] else [Call.markDeleting])
        (init (LogicalNode.first 16)) [true, false, true, true, true, false, false, false, false]) 0 9 :=
  ⟨by decide, runSched_steps _ _ (by decide) [true, false, true, true, true, false, false, false, false]⟩

end Discipline

end Silo.Lock
