import Silo.Node

/-!
# The optimistic version bracket

Readers of a `logical_node` take no lock. They read the header until LOCKED is
clear (`stable_version`, `try_stable_version`), read the fields they need, and
accept what they read only if the header is still the word they started from
(`check_version`). Writers follow a discipline: they change the fields and the
header flags only between the compare-and-swap of `lock()` and the store of
`unlock()`, and `unlock()` advances the 60-bit VERSION.

A `Cell` is one node as shared state, with a ghost count of the unlock stores it
has seen. An execution is a sequence of cells, each step a `WriterStep` or a step
of some other thread that leaves the node alone. If the header read at the start
of a bracket is unlocked, the header read at its end is the same word, and fewer
than `2^60` unlocks happened in between, then no writer held the lock at any
instant of the bracket and the node did not change: every field the reader read
is the field at the instant of its first header read.
-/

namespace Silo.Bracket

open Silo.Header Silo.Node

/-- One node as shared state, and the number of unlock stores it has seen (ghost). -/
structure Cell where
  node : LogicalNode
  unlocks : Nat
  deriving DecidableEq, Repr

/-- The atomic steps a writer that follows the lock discipline may take on the
node: the compare-and-swap of `lock()` on an unlocked header; while holding the
lock, any change of the fields and of the header flags that keeps LOCKED and
VERSION; and the store of `unlock()`. -/
inductive WriterStep : Cell → Cell → Prop
  | lock {node : LogicalNode} {unlocks : Nat} (hunlocked : isLocked node.hdr = false) :
      WriterStep ⟨node, unlocks⟩ ⟨{ node with hdr := lock node.hdr }, unlocks⟩
  | write {node : LogicalNode} {unlocks : Nat} (node' : LogicalNode)
      (hlocked : isLocked node.hdr = true) (hheld : isLocked node'.hdr = true)
      (hversion : (decode node'.hdr).version = (decode node.hdr).version) :
      WriterStep ⟨node, unlocks⟩ ⟨node', unlocks⟩
  | unlock {node : LogicalNode} {unlocks : Nat} (hlocked : isLocked node.hdr = true) :
      WriterStep ⟨node, unlocks⟩ ⟨{ node with hdr := unlock node.hdr }, unlocks + 1⟩

/-- A step of the interleaving as the node sees it: a writer's step, or a step
of another thread (a reader's read, a step on another node) that leaves it alone. -/
def EnvStep (c c' : Cell) : Prop := WriterStep c c' ∨ c' = c

/-! ## One step -/

namespace EnvStep

variable {c c' : Cell}

theorem unlocks_le (h : EnvStep c c') : c.unlocks ≤ c'.unlocks := by
  rcases h with h | rfl
  · cases h <;> simp
  · exact le_rfl

/-- VERSION and the unlock count advance together. -/
theorem version_sub_unlocks (h : EnvStep c c') :
    (decode c'.node.hdr).version - BitVec.ofNat 60 c'.unlocks =
      (decode c.node.hdr).version - BitVec.ofNat 60 c.unlocks := by
  rcases h with h | rfl
  · cases h with
    | lock => simp
    | write _ _ _ hversion => exact congrArg (· - _) hversion
    | unlock =>
        have hone : (1 : BitVec 60).toNat = 1 := rfl
        simp only [decode_unlock]
        apply BitVec.eq_of_toNat_eq
        simp only [BitVec.toNat_sub, BitVec.toNat_add, BitVec.toNat_ofNat, hone]
        omega
  · rfl

/-- A step that ends on the unlocked word `v` without adding an unlock changed
nothing: a lock or a locked write ends locked, and an unlock adds one. -/
theorem eq_of_clean {v : BitVec 64} (h : EnvStep c c') (hv : isLocked v = false)
    (hhdr : c'.node.hdr = v) (hle : c'.unlocks ≤ c.unlocks) : c' = c := by
  rcases h with h | h
  · cases h with
    | lock => subst hhdr; simp at hv
    | write _ _ hheld => simp_all
    | unlock => simp at hle
  · exact h

end EnvStep

/-! ## Executions -/

section Execution

variable (σ : Nat → Cell) {a b : Nat}

/-- The steps of `σ` from instant `a` to instant `b` are steps of the interleaving. -/
def Steps (a b : Nat) : Prop := ∀ i, a ≤ i → i < b → EnvStep (σ i) (σ (i + 1))

variable {σ}

theorem Steps.unlocks_mono (h : Steps σ a b) {i j : Nat} (hai : a ≤ i) (hij : i ≤ j)
    (hjb : j ≤ b) : (σ i).unlocks ≤ (σ j).unlocks := by
  induction j, hij using Nat.le_induction with
  | base => exact le_rfl
  | succ j hij ih => exact (ih (by omega)).trans (h j (by omega) (by omega)).unlocks_le

theorem Steps.version_sub_unlocks (h : Steps σ a b) {j : Nat} (haj : a ≤ j) (hjb : j ≤ b) :
    (decode (σ j).node.hdr).version - BitVec.ofNat 60 (σ j).unlocks =
      (decode (σ a).node.hdr).version - BitVec.ofNat 60 (σ a).unlocks := by
  induction j, haj using Nat.le_induction with
  | base => rfl
  | succ j haj ih => rw [(h j haj (by omega)).version_sub_unlocks, ih (by omega)]

/-- The ABA guard: a header that comes back to the same word after fewer than
`2^60` unlocks saw no unlock at all. -/
theorem Steps.unlocks_eq (h : Steps σ a b) (hab : a ≤ b)
    (hcheck : (σ b).node.hdr = (σ a).node.hdr) (haba : (σ b).unlocks - (σ a).unlocks < 2 ^ 60) :
    (σ b).unlocks = (σ a).unlocks := by
  have hmono := h.unlocks_mono le_rfl hab le_rfl
  have hgap := h.version_sub_unlocks hab le_rfl
  rw [hcheck] at hgap
  have hmod := congrArg BitVec.toNat (sub_right_injective hgap)
  simp only [BitVec.toNat_ofNat] at hmod
  omega

/-- Going back from an instant where the node is as the reader left it, every
earlier step of the bracket changed nothing. -/
theorem Steps.eq_of_clean (h : Steps σ a b) (hab : a ≤ b)
    (hunlocked : isLocked (σ a).node.hdr = false) (hcheck : (σ b).node.hdr = (σ a).node.hdr)
    (hsame : (σ b).unlocks = (σ a).unlocks) : ∀ k, k ≤ b - a → σ (b - k) = σ b := by
  intro k hk
  induction k with
  | zero => rfl
  | succ k ih =>
      have hprev := h (b - (k + 1)) (by omega) (by omega)
      rw [show b - (k + 1) + 1 = b - k by omega, ih (by omega)] at hprev
      refine (hprev.eq_of_clean hunlocked hcheck ?_).symm
      rw [hsame]
      exact h.unlocks_mono le_rfl (by omega) (by omega)

/-- Between the two header reads of a successful bracket the node is what it
was at the first one, and unlocked throughout. -/
theorem Steps.constant (h : Steps σ a b) (hab : a ≤ b)
    (hunlocked : isLocked (σ a).node.hdr = false) (hcheck : (σ b).node.hdr = (σ a).node.hdr)
    (haba : (σ b).unlocks - (σ a).unlocks < 2 ^ 60) {i : Nat} (hai : a ≤ i) (hib : i ≤ b) :
    (σ i).node = (σ a).node := by
  have hclean := h.eq_of_clean hab hunlocked hcheck (h.unlocks_eq hab hcheck haba)
  have hi := hclean (b - i) (by omega)
  have ha := hclean (b - a) le_rfl
  rw [show b - (b - i) = i by omega] at hi
  rw [show b - (b - a) = a by omega] at ha
  rw [hi, ← ha]

end Execution

/-! ## The readers

Each reader is written as a function of the execution and of the instants of
its reads. A read of a field at instant `i` returns the field of `σ i`. -/

/-- What one pass through the body of `record_at` on a node does: retry, return
false because LATEST is required and missing, return the version found, or go
on to the next node. -/
inductive PassResult where
  | retry
  | notLatest
  | found (startT : Tid) (r : List UInt8)
  | behind (next : Option Ptr)
  deriving DecidableEq, Repr

section Readers

variable (σ : Nat → Cell) (t : Tid)

/-- One pass through the body of `logical_node::record_at`: `stable_version`
returns the unlocked header read at `a`; `next` is read at `i₁`; `version` is
read at `i₂` for `is_not_behind`; when found, `version` is read again at `i₃` for
`start_t`, and `size` with the payload bytes at `i₄` for `r.assign`;
`check_version` reads the header at `b`. -/
def recordAtPass (requireLatest : Bool) (a i₁ i₂ i₃ i₄ b : Nat) : PassResult :=
  let v := (σ a).node.hdr
  let p := (σ i₁).node.next
  if (σ i₂).node.isNotBehind t then
    if requireLatest && !isLatest v then .notLatest
    else
      let startT := (σ i₃).node.version
      let r := (σ i₄).node.valueStart.take (σ i₄).node.size.toNat
      if (σ b).node.hdr == v then .found startT r else .retry
  else if (σ b).node.hdr == v then .behind p else .retry

/-- `logical_node::stable_is_latest_version(t)`: `try_stable_version` ends with the
header read at `a`, `version` is read at `i`, and `check_version` reads the
header at `b` (only when the answer would be true). -/
def stableIsLatestVersion (a i b : Nat) : Bool :=
  let v := (σ a).node.hdr
  !isLocked v && (isLatest v && (σ i).node.isNotBehind t) && (σ b).node.hdr == v

/-- `logical_node::stable_latest_value_is_nil()`, with the same instants, `size`
read at `i`. -/
def stableLatestValueIsNil (a i b : Nat) : Bool :=
  let v := (σ a).node.hdr
  !isLocked v && (isLatest v && (σ i).node.size == 0) && (σ b).node.hdr == v

end Readers

/-- The optimistic bracket detects every writer. In an execution whose steps
from `a` to `b` follow the lock discipline, with fewer than `2^60` unlocks in
between: if the header read at `a` is unlocked and the one at `b` is the same
word, no writer holds the lock at any instant from `a` to `b` and the node is
constant. So `stable_is_latest_version(t)` answers true only if the node was
LATEST with tid at most `t` at `a`; `stable_latest_value_is_nil` only if it was
LATEST and empty at `a`; and a pass of `record_at` that accepts its reads
returns the tid and record of the node at `a`, or its `next` if it is newer than `t`. -/
theorem bracket_detects_writers (σ : Nat → Cell) {a b : Nat} (hab : a ≤ b) (hsteps : Steps σ a b)
    (haba : (σ b).unlocks - (σ a).unlocks < 2 ^ 60) :
    (isLocked (σ a).node.hdr = false → (σ b).node.hdr = (σ a).node.hdr →
      ∀ i, a ≤ i → i ≤ b → isLocked (σ i).node.hdr = false ∧ (σ i).node = (σ a).node) ∧
    (∀ t i, a ≤ i → i ≤ b → stableIsLatestVersion σ t a i b = true →
      isLatest (σ a).node.hdr = true ∧ (σ a).node.version ≤ t) ∧
    (∀ i, a ≤ i → i ≤ b → stableLatestValueIsNil σ a i b = true →
      isLatest (σ a).node.hdr = true ∧ (σ a).node.size = 0) ∧
    (∀ t requireLatest i₁ i₂ i₃ i₄, a ≤ i₁ → a ≤ i₂ → a ≤ i₃ → a ≤ i₄ →
      i₁ ≤ b → i₂ ≤ b → i₃ ≤ b → i₄ ≤ b → isLocked (σ a).node.hdr = false →
      (∀ startT r, recordAtPass σ t requireLatest a i₁ i₂ i₃ i₄ b = .found startT r →
        (σ a).node.isNotBehind t = true ∧ startT = (σ a).node.version ∧ r = (σ a).node.record) ∧
      (∀ p, recordAtPass σ t requireLatest a i₁ i₂ i₃ i₄ b = .behind p →
        (σ a).node.isNotBehind t = false ∧ p = (σ a).node.next)) := by
  have hconst := @Steps.constant σ a b hsteps hab
  have hcore : isLocked (σ a).node.hdr = false → (σ b).node.hdr = (σ a).node.hdr →
      ∀ i, a ≤ i → i ≤ b → isLocked (σ i).node.hdr = false ∧ (σ i).node = (σ a).node :=
    fun hunlocked hcheck i hai hib => by
      have hi := hconst hunlocked hcheck haba hai hib
      exact ⟨by rw [hi]; exact hunlocked, hi⟩
  refine ⟨hcore, fun t i hai hib hret => ?_, fun i hai hib hret => ?_, ?_⟩
  · simp only [stableIsLatestVersion, Bool.and_eq_true, Bool.not_eq_true', beq_iff_eq] at hret
    obtain ⟨⟨hunlocked, hlatest, hbehind⟩, hcheck⟩ := hret
    rw [(hcore hunlocked hcheck i hai hib).2] at hbehind
    exact ⟨hlatest, by simpa [LogicalNode.isNotBehind] using hbehind⟩
  · simp only [stableLatestValueIsNil, Bool.and_eq_true, Bool.not_eq_true', beq_iff_eq] at hret
    obtain ⟨⟨hunlocked, hlatest, hsize⟩, hcheck⟩ := hret
    rw [(hcore hunlocked hcheck i hai hib).2] at hsize
    exact ⟨hlatest, hsize⟩
  · intro t requireLatest i₁ i₂ i₃ i₄ h₁ h₂ h₃ h₄ h₁' h₂' h₃' h₄' hunlocked
    have hsame := fun hcheck i hai hib => (hcore hunlocked hcheck i hai hib).2
    constructor
    · intro startT r hret
      simp only [recordAtPass] at hret
      split_ifs at hret
      cases hret
      rename_i hfound _ hcheck
      have hcheck : (σ b).node.hdr = (σ a).node.hdr := by simpa using hcheck
      rw [hsame hcheck _ h₂ h₂'] at hfound
      rw [hsame hcheck _ h₃ h₃', hsame hcheck _ h₄ h₄']
      exact ⟨hfound, rfl, rfl⟩
    · intro p hret
      simp only [recordAtPass] at hret
      split_ifs at hret
      cases hret
      rename_i hfound hcheck
      have hcheck : (σ b).node.hdr = (σ a).node.hdr := by simpa using hcheck
      rw [hsame hcheck _ h₂ h₂'] at hfound
      rw [hsame hcheck _ h₁ h₁']
      exact ⟨by simpa using hfound, rfl⟩

/-- A bracket over instants `0` to `2` on a node no writer touches. -/
theorem bracket_detects_writers_quiet :
    stableIsLatestVersion (fun _ => ⟨LogicalNode.first 16, 0⟩) 5 0 1 2 = true ∧
      isLatest (LogicalNode.first 16).hdr = true ∧ (LogicalNode.first 16).version ≤ 5 :=
  ⟨by decide, (bracket_detects_writers (fun _ => ⟨LogicalNode.first 16, 0⟩) (a := 0) (b := 2) (by decide)
    (fun _ _ _ => .inr rfl) (by decide)).2.1 5 1 (by decide) (by decide) (by decide)⟩

end Silo.Bracket
