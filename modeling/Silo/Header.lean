import Mathlib

/-!
# The header word of a logical node

`logical_node::hdr` packs the lock bit, three flags and a 60-bit optimistic
counter into one 64-bit word:

    [ locked | deleting | enqueued | latest | version ]
    [  0..1  |  1..2    |   2..3   |  3..4  |  4..64  ]

The masks and the word updates below are those of `txn.h`. `HdrState` is the
record the word stands for. Every update acts on that record alone, so a whole
sequence of header operations is described by what it does to the record.
-/

namespace Silo.Header

/-! ## Masks and word operations -/

def hdrLockedMask : BitVec 64 := 1#64

def hdrDeletingShift : Nat := 1
def hdrDeletingMask : BitVec 64 := 1#64 <<< hdrDeletingShift

def hdrEnqueuedShift : Nat := 2
def hdrEnqueuedMask : BitVec 64 := 1#64 <<< hdrEnqueuedShift

def hdrLatestShift : Nat := 3
def hdrLatestMask : BitVec 64 := 1#64 <<< hdrLatestShift

def hdrVersionShift : Nat := 4
def hdrVersionMask : BitVec 64 := BitVec.allOnes 64 <<< hdrVersionShift

def isLocked (v : BitVec 64) : Bool := v &&& hdrLockedMask != 0

def isDeleting (v : BitVec 64) : Bool := v &&& hdrDeletingMask != 0

def isEnqueued (v : BitVec 64) : Bool := v &&& hdrEnqueuedMask != 0

def isLatest (v : BitVec 64) : Bool := v &&& hdrLatestMask != 0

/-- `logical_node::Version`: the 60-bit counter, as a 64-bit word. -/
def version (v : BitVec 64) : BitVec 64 := (v &&& hdrVersionMask) >>> hdrVersionShift

/-- The word the compare-and-swap of `lock()` installs over an unlocked `v`. -/
def lock (v : BitVec 64) : BitVec 64 := v ||| hdrLockedMask

def unlock (v : BitVec 64) : BitVec 64 :=
  let n := version v
  let v := v &&& ~~~hdrVersionMask
  let v := v ||| (((n + 1) <<< hdrVersionShift) &&& hdrVersionMask)
  v &&& ~~~hdrLockedMask

def markDeleting (v : BitVec 64) : BitVec 64 := v ||| hdrDeletingMask

def setEnqueued (enqueued : Bool) (v : BitVec 64) : BitVec 64 :=
  if enqueued then v ||| hdrEnqueuedMask else v &&& ~~~hdrEnqueuedMask

def setLatest (latest : Bool) (v : BitVec 64) : BitVec 64 :=
  if latest then v ||| hdrLatestMask else v &&& ~~~hdrLatestMask

/-- The header both constructors of `logical_node` start from: LATEST alone, or
nothing at all when the second constructor is asked for a non-latest node. -/
def initHdr (setLatest : Bool) : BitVec 64 := if setLatest then hdrLatestMask else 0

/-! ## The bits of the masks -/

theorem getLsbD_one_shiftLeft (k i : Nat) (hk : k < 64) :
    (1#64 <<< k).getLsbD i = decide (i = k) := by
  simp only [BitVec.getLsbD_shiftLeft, BitVec.getLsbD_one]
  by_cases h : i = k
  · simp [h, hk]
  · simp [h]; omega

@[simp] theorem getLsbD_hdrLockedMask (i : Nat) : hdrLockedMask.getLsbD i = decide (i = 0) := by
  simp [hdrLockedMask]

@[simp] theorem getLsbD_hdrDeletingMask (i : Nat) :
    hdrDeletingMask.getLsbD i = decide (i = 1) :=
  getLsbD_one_shiftLeft 1 i (by decide)

@[simp] theorem getLsbD_hdrEnqueuedMask (i : Nat) :
    hdrEnqueuedMask.getLsbD i = decide (i = 2) :=
  getLsbD_one_shiftLeft 2 i (by decide)

@[simp] theorem getLsbD_hdrLatestMask (i : Nat) : hdrLatestMask.getLsbD i = decide (i = 3) :=
  getLsbD_one_shiftLeft 3 i (by decide)

@[simp] theorem getLsbD_hdrVersionMask (i : Nat) :
    hdrVersionMask.getLsbD i = (decide (4 ≤ i) && decide (i < 64)) := by
  simp only [hdrVersionMask, hdrVersionShift, BitVec.getLsbD_shiftLeft, BitVec.getLsbD_allOnes]
  by_cases h : 4 ≤ i <;> by_cases h' : i < 64 <;> simp [h, h']
  omega

/-- Testing a word against a one-bit mask reads that bit. -/
theorem and_single_ne_zero (v m : BitVec 64) (k : Nat)
    (hm : ∀ i, m.getLsbD i = decide (i = k)) : (v &&& m != 0) = v.getLsbD k := by
  by_cases h : v.getLsbD k
  · have hne : v &&& m ≠ 0 := fun h0 => by
      simpa [h, hm] using congrArg (fun x => x.getLsbD k) h0
    simpa [h] using hne
  · have heq : v &&& m = 0 := by
      ext i
      by_cases hi : (i : Nat) = k
      · simp [hi, h, hm]
      · simp [hm, hi]
    simp [heq, h]

/-! ## The record a header word stands for -/

@[ext]
structure HdrState where
  locked : Bool
  deleting : Bool
  enqueued : Bool
  latest : Bool
  version : BitVec 60
  deriving DecidableEq, Repr

def decode (v : BitVec 64) : HdrState where
  locked := v.getLsbD 0
  deleting := v.getLsbD 1
  enqueued := v.getLsbD 2
  latest := v.getLsbD 3
  version := v.extractLsb' 4 60

def encode (s : HdrState) : BitVec 64 :=
  s.version.setWidth 64 <<< hdrVersionShift |||
    (BitVec.ofBool s.latest).setWidth 64 <<< hdrLatestShift |||
    (BitVec.ofBool s.enqueued).setWidth 64 <<< hdrEnqueuedShift |||
    (BitVec.ofBool s.deleting).setWidth 64 <<< hdrDeletingShift |||
    (BitVec.ofBool s.locked).setWidth 64

theorem getLsbD_encode (s : HdrState) (i : Nat) :
    (encode s).getLsbD i =
      if i = 0 then s.locked else if i = 1 then s.deleting else if i = 2 then s.enqueued
      else if i = 3 then s.latest else decide (i < 64) && s.version.getLsbD (i - 4) := by
  simp only [encode, hdrVersionShift, hdrLatestShift, hdrEnqueuedShift, hdrDeletingShift,
    BitVec.getLsbD_or, BitVec.getLsbD_shiftLeft, BitVec.getLsbD_setWidth, BitVec.getLsbD_ofBool]
  rcases Nat.lt_or_ge i 4 with h | h
  · interval_cases i <;> simp
  · have h0 : i ≠ 0 := by omega
    have h1 : i ≠ 1 := by omega
    have h2 : i ≠ 2 := by omega
    have h3 : i ≠ 3 := by omega
    by_cases h64 : i < 64
    · simp [h0, h1, h2, h3, h64, show ¬ i < 4 by omega, show i - 3 ≠ 0 by omega,
        show i - 2 ≠ 0 by omega, show i - 1 ≠ 0 by omega, show i - 4 < 64 by omega]
    · simp [h0, h1, h2, h3, h64]

@[simp] theorem decode_encode (s : HdrState) : decode (encode s) = s := by
  ext <;> try simp [decode, getLsbD_encode]
  rename_i i
  obtain ⟨i, hi⟩ := i
  simp [show 4 + i ≠ 1 by omega, show 4 + i ≠ 2 by omega, show 4 + i ≠ 3 by omega,
    show 4 + i < 64 by omega]

@[simp] theorem encode_decode (v : BitVec 64) : encode (decode v) = v := by
  ext i
  rw [getLsbD_encode]
  rcases Nat.lt_or_ge (i : Nat) 4 with h | h
  · obtain ⟨i, hi⟩ := i
    simp only at h ⊢
    interval_cases i <;> rfl
  · simp [decode, show (i : Nat) ≠ 0 by omega, show (i : Nat) ≠ 1 by omega,
      show (i : Nat) ≠ 2 by omega, show (i : Nat) ≠ 3 by omega, show (i : Nat) - 4 < 60 by omega,
      show 4 + ((i : Nat) - 4) = i by omega]

theorem encode_injective {s t : HdrState} (h : encode s = encode t) : s = t := by
  simpa using congrArg decode h

/-! ## The word operations act on the record -/

@[simp] theorem isLocked_eq (v : BitVec 64) : isLocked v = (decode v).locked :=
  and_single_ne_zero v _ 0 getLsbD_hdrLockedMask

@[simp] theorem isDeleting_eq (v : BitVec 64) : isDeleting v = (decode v).deleting :=
  and_single_ne_zero v _ 1 getLsbD_hdrDeletingMask

@[simp] theorem isEnqueued_eq (v : BitVec 64) : isEnqueued v = (decode v).enqueued :=
  and_single_ne_zero v _ 2 getLsbD_hdrEnqueuedMask

@[simp] theorem isLatest_eq (v : BitVec 64) : isLatest v = (decode v).latest :=
  and_single_ne_zero v _ 3 getLsbD_hdrLatestMask

theorem version_eq (v : BitVec 64) : version v = (decode v).version.setWidth 64 := by
  ext i
  have hi : 4 + (i : Nat) < 64 ↔ (i : Nat) < 60 := by omega
  simp [version, hdrVersionShift, decode, hi, Bool.and_comm]

@[simp] theorem decode_initHdr (latest : Bool) :
    decode (initHdr latest) = ⟨false, false, false, latest, 0⟩ := by
  cases latest <;> rfl

/-- A word that keeps the counter bits of `v` decodes to its own flags and
`v`'s counter. -/
theorem decode_eq_of_high (v w : BitVec 64) (h : ∀ i, 4 ≤ i → i < 64 → w.getLsbD i = v.getLsbD i) :
    decode w = ⟨w.getLsbD 0, w.getLsbD 1, w.getLsbD 2, w.getLsbD 3, (decode v).version⟩ := by
  ext i
  · rfl
  · rfl
  · rfl
  · rfl
  · simp only [decode, BitVec.getLsbD_extractLsb']
    rw [h _ (Nat.le_add_right 4 i) (by omega)]

@[simp] theorem decode_lock (v : BitVec 64) : decode (lock v) = { decode v with locked := true } := by
  rw [decode_eq_of_high v (lock v) fun i _ _ => by simp [lock, show i ≠ 0 by omega]]
  simp [decode, lock]

@[simp] theorem decode_markDeleting (v : BitVec 64) :
    decode (markDeleting v) = { decode v with deleting := true } := by
  rw [decode_eq_of_high v (markDeleting v) fun i _ _ => by simp [markDeleting, show i ≠ 1 by omega]]
  simp [decode, markDeleting]

@[simp] theorem decode_setEnqueued (enqueued : Bool) (v : BitVec 64) :
    decode (setEnqueued enqueued v) = { decode v with enqueued := enqueued } := by
  rw [decode_eq_of_high v (setEnqueued enqueued v) fun i _ hi => by
    cases enqueued <;> simp [setEnqueued, hi, show i ≠ 2 by omega]]
  cases enqueued <;> simp [decode, setEnqueued]

@[simp] theorem decode_setLatest (latest : Bool) (v : BitVec 64) :
    decode (setLatest latest v) = { decode v with latest := latest } := by
  rw [decode_eq_of_high v (setLatest latest v) fun i _ hi => by
    cases latest <;> simp [setLatest, hi, show i ≠ 3 by omega]]
  cases latest <;> simp [decode, setLatest]

/-- The counter bits of `unlock v` are those of `Version v + 1`. -/
theorem extractLsb_unlock (v : BitVec 64) :
    (unlock v).extractLsb' 4 60 = (version v + 1).setWidth 60 := by
  ext i
  have hi : 4 + (i : Nat) < 64 := by omega
  simp only [unlock, hdrVersionShift, BitVec.getLsbD_extractLsb', BitVec.getLsbD_and,
    BitVec.getLsbD_or, BitVec.getLsbD_not, BitVec.getLsbD_shiftLeft, getLsbD_hdrVersionMask,
    getLsbD_hdrLockedMask, BitVec.getLsbD_setWidth]
  simp [hi]

/-- `unlock` clears LOCKED and keeps the other flags. -/
theorem getLsbD_unlock_low (v : BitVec 64) {i : Nat} (hi : i < 4) :
    (unlock v).getLsbD i = (v.getLsbD i && !decide (i = 0)) := by
  simp only [unlock, hdrVersionShift, BitVec.getLsbD_and, BitVec.getLsbD_or, BitVec.getLsbD_not,
    BitVec.getLsbD_shiftLeft, getLsbD_hdrVersionMask, getLsbD_hdrLockedMask]
  simp [show ¬ 4 ≤ i by omega, show i < 64 by omega]

@[simp] theorem decode_unlock (v : BitVec 64) :
    decode (unlock v) =
      { decode v with locked := false, version := (decode v).version + 1 } := by
  have hversion : (unlock v).extractLsb' 4 60 = (decode v).version + 1 := by
    rw [extractLsb_unlock, version_eq]
    apply BitVec.eq_of_toNat_eq
    have := (decode v).version.isLt
    simp
    omega
  rw [HdrState.ext_iff]
  refine ⟨?_, ?_, ?_, ?_, hversion⟩ <;> simp [decode, getLsbD_unlock_low]

/-- `Version` moves only by one step of the 60-bit counter: `unlock` adds one and
every other write keeps it. -/
theorem version_toNat_unlock (v : BitVec 64) :
    (version (unlock v)).toNat = ((version v).toNat + 1) % 2 ^ 60 := by
  have := (decode v).version.isLt
  simp [version_eq]
  omega

/-! ## Sequences of header operations -/

/-- The operations of `logical_node` that write `hdr`. -/
inductive HdrOp where
  | lock
  | unlock
  | setLatest (latest : Bool)
  | setEnqueued (enqueued : Bool)
  | markDeleting
  deriving DecidableEq, Repr

namespace HdrOp

def apply : HdrOp → BitVec 64 → BitVec 64
  | .lock => Header.lock
  | .unlock => Header.unlock
  | .setLatest latest => Header.setLatest latest
  | .setEnqueued enqueued => Header.setEnqueued enqueued
  | .markDeleting => Header.markDeleting

/-- When an operation may run: the `INVARIANT`s of `unlock` and of the setters, and
for `lock` the unlocked word its compare-and-swap succeeds on. -/
def Pre : HdrOp → BitVec 64 → Prop
  | .lock, v => isLocked v = false
  | .unlock, v => isLocked v = true
  | .setLatest _, v => isLocked v = true
  | .setEnqueued _, v => isLocked v = true ∧ isDeleting v = false
  | .markDeleting, v => isLocked v = true ∧ isEnqueued v = false ∧ isDeleting v = false

/-- What an operation does to the record. -/
def step : HdrOp → HdrState → HdrState
  | .lock, s => { s with locked := true }
  | .unlock, s => { s with locked := false, version := s.version + 1 }
  | .setLatest latest, s => { s with latest := latest }
  | .setEnqueued enqueued, s => { s with enqueued := enqueued }
  | .markDeleting, s => { s with deleting := true }

@[simp] theorem decode_apply (op : HdrOp) (v : BitVec 64) :
    decode (op.apply v) = op.step (decode v) := by
  cases op <;> simp [apply, step]

/-- The flag value an operation gives: LOCKED by `lock` and `unlock`, LATEST and
ENQUEUED by their setters. -/
def lockGiven : HdrOp → Option Bool
  | .lock => some true
  | .unlock => some false
  | _ => none

def latestGiven : HdrOp → Option Bool
  | .setLatest latest => some latest
  | _ => none

def enqueuedGiven : HdrOp → Option Bool
  | .setEnqueued enqueued => some enqueued
  | _ => none

end HdrOp

instance HdrOp.decidablePre : ∀ (op : HdrOp) (v : BitVec 64), Decidable (op.Pre v)
  | .lock, v => inferInstanceAs (Decidable (isLocked v = false))
  | .unlock, v => inferInstanceAs (Decidable (isLocked v = true))
  | .setLatest _, v => inferInstanceAs (Decidable (isLocked v = true))
  | .setEnqueued _, v => inferInstanceAs (Decidable (isLocked v = true ∧ isDeleting v = false))
  | .markDeleting, v =>
      inferInstanceAs (Decidable (isLocked v = true ∧ isEnqueued v = false ∧ isDeleting v = false))

def run (v : BitVec 64) (ops : List HdrOp) : BitVec 64 :=
  ops.foldl (fun v op => op.apply v) v

def Valid : BitVec 64 → List HdrOp → Prop
  | _, [] => True
  | v, op :: ops => op.Pre v ∧ Valid (op.apply v) ops

instance decidableValid : ∀ (v : BitVec 64) (ops : List HdrOp), Decidable (Valid v ops)
  | _, [] => isTrue trivial
  | v, op :: ops =>
      haveI := decidableValid (op.apply v) ops
      inferInstanceAs (Decidable (op.Pre v ∧ Valid (op.apply v) ops))

/-- The value the last operation of `ops` that gives a flag gave it, or `init`. -/
def lastGiven (given : HdrOp → Option Bool) (init : Bool) (ops : List HdrOp) : Bool :=
  ops.foldl (fun b op => (given op).getD b) init

@[simp] theorem run_nil (v : BitVec 64) : run v [] = v := rfl

@[simp] theorem run_cons (v : BitVec 64) (op : HdrOp) (ops : List HdrOp) :
    run v (op :: ops) = run (op.apply v) ops := rfl

theorem run_take_succ (v : BitVec 64) (ops : List HdrOp) {i : Nat} (hi : i < ops.length) :
    run v (ops.take (i + 1)) = ops[i].apply (run v (ops.take i)) := by
  rw [List.take_succ, List.getElem?_eq_getElem hi]
  simp only [run, List.foldl_append, Option.toList_some, List.foldl_cons, List.foldl_nil]

/-- The record after a sequence: each flag is what the last operation to give it
gave, DELETING is sticky, and the counter has moved once per `unlock`. -/
theorem decode_run (v : BitVec 64) (ops : List HdrOp) :
    decode (run v ops) =
      { locked := lastGiven HdrOp.lockGiven (decode v).locked ops
        deleting := (decode v).deleting || decide (HdrOp.markDeleting ∈ ops)
        enqueued := lastGiven HdrOp.enqueuedGiven (decode v).enqueued ops
        latest := lastGiven HdrOp.latestGiven (decode v).latest ops
        version := (decode v).version + BitVec.ofNat 60 (ops.count .unlock) } := by
  induction ops generalizing v with
  | nil => simp [lastGiven]
  | cons op ops ih =>
      rw [run_cons, ih]
      cases op <;>
        simp [HdrOp.step, lastGiven, HdrOp.lockGiven, HdrOp.latestGiven, HdrOp.enqueuedGiven]
      apply BitVec.eq_of_toNat_eq
      simp
      omega

/-- ENQUEUED and DELETING are never set together. -/
def Exclusive (v : BitVec 64) : Prop := ¬ (isEnqueued v = true ∧ isDeleting v = true)

theorem exclusive_apply {op : HdrOp} {v : BitVec 64} (hpre : op.Pre v) (hv : Exclusive v) :
    Exclusive (op.apply v) := by
  cases op <;> simp_all [Exclusive, HdrOp.Pre, HdrOp.step]

theorem exclusive_run {v : BitVec 64} {ops : List HdrOp} (hvalid : Valid v ops)
    (hv : Exclusive v) : Exclusive (run v ops) := by
  induction ops generalizing v with
  | nil => exact hv
  | cons op ops ih => exact ih hvalid.2 (exclusive_apply hvalid.1 hv)

theorem version_apply (op : HdrOp) (v : BitVec 64) :
    (version (op.apply v)).toNat = (version v).toNat ∨
      (version (op.apply v)).toNat = ((version v).toNat + 1) % 2 ^ 60 := by
  cases op
  case unlock => exact .inr (version_toNat_unlock v)
  all_goals simp [version_eq, HdrOp.step]

/-- Starting from either constructor's header, a sequence of header operations
that respects their preconditions leaves the word that encodes the record its
operations describe; ENQUEUED and DELETING are never both set; and `Version`
only ever stays or moves one step of the 60-bit counter. -/
theorem run_refines_record (latest : Bool) (ops : List HdrOp)
    (hvalid : Valid (initHdr latest) ops) :
    run (initHdr latest) ops =
        encode
          { locked := lastGiven HdrOp.lockGiven false ops
            deleting := decide (HdrOp.markDeleting ∈ ops)
            enqueued := lastGiven HdrOp.enqueuedGiven false ops
            latest := lastGiven HdrOp.latestGiven latest ops
            version := BitVec.ofNat 60 (ops.count .unlock) } ∧
      ¬ (isEnqueued (run (initHdr latest) ops) = true ∧
          isDeleting (run (initHdr latest) ops) = true) ∧
      ∀ i, i < ops.length →
        (version (run (initHdr latest) (ops.take (i + 1)))).toNat =
            (version (run (initHdr latest) (ops.take i))).toNat ∨
          (version (run (initHdr latest) (ops.take (i + 1)))).toNat =
            ((version (run (initHdr latest) (ops.take i))).toNat + 1) % 2 ^ 60 := by
  refine ⟨?_, exclusive_run hvalid (by simp [Exclusive]), fun i hi => ?_⟩
  · rw [← encode_decode (run (initHdr latest) ops), decode_run]
    simp
  · rw [run_take_succ _ _ hi]
    exact version_apply _ _

/-- A locked cell that is enqueued, dequeued and then marked for deletion ends
unlocked, deleting, latest, at counter one. -/
theorem run_refines_record_delete_cycle :
    Valid (initHdr true) [.lock, .setEnqueued true, .setEnqueued false, .markDeleting, .unlock] ∧
      run (initHdr true) [.lock, .setEnqueued true, .setEnqueued false, .markDeleting, .unlock] =
        encode ⟨false, true, false, true, 1⟩ :=
  have hvalid : Valid (initHdr true)
      [.lock, .setEnqueued true, .setEnqueued false, .markDeleting, .unlock] := by decide
  ⟨hvalid, (run_refines_record true _ hvalid).1.trans (by decide)⟩

/-! ## What `check_version` can see -/

/-- After header operations `ops` on the word `v`, the header is the word `v`
again, so that a `check_version(v)` spanning them succeeds, exactly when they leave
LOCKED, DELETING, ENQUEUED and LATEST as they were and unlock the node a multiple
of `2^60` times: any `1` to `2^60 - 1` completed critical sections are seen, and
`2^60` lock and unlock cycles are not. -/
theorem run_eq_self_iff (v : BitVec 64) (ops : List HdrOp) :
    run v ops = v ↔
      { decode (run v ops) with version := 0 } = { decode v with version := 0 } ∧
        ops.count .unlock % 2 ^ 60 = 0 := by
  -- the counter comes back exactly after a multiple of `2^60` unlocks
  have hver : (decode (run v ops)).version = (decode v).version ↔ ops.count .unlock % 2 ^ 60 = 0 := by
    rw [decode_run, add_right_eq_self, BitVec.toNat_eq, BitVec.toNat_ofNat]
    exact Iff.rfl
  constructor
  · intro h
    exact ⟨by rw [h], hver.1 (by rw [h])⟩
  · rintro ⟨hflags, hcount⟩
    obtain ⟨hlocked, hdeleting, henqueued, hlatest, -⟩ := HdrState.ext_iff.1 hflags
    have hdecode : decode (run v ops) = decode v :=
      HdrState.ext hlocked hdeleting henqueued hlatest (hver.2 hcount)
    rw [← encode_decode (run v ops), hdecode, encode_decode]

example : run (initHdr true) [.lock, .setLatest false, .setLatest true, .unlock] ≠ initHdr true := by
  decide

end Silo.Header
