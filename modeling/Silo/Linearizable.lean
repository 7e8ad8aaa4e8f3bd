import Silo.Slot

/-!
# `stable_read` is linearizable

A reader takes a node from the slot and later runs `stable_read(t', start_t, r)`
on it, while committers lock, write, swap and unlock as in `Silo.Slot`. When the
call returns a record, the chain from the slot answers a read at `t'` with the
same tid and record at the reader's last header read, the one that validated the
`record_at` that returned. This needs one assumption the code cannot check: no
node was unlocked `2^60` times during the call, so that no VERSION wrapped.

The reader's invariant says, phase by phase, where its node stands (`Placed`): a
node taken from the slot is the head or a displaced head, and a node reached
through `next` ends the live chain below nodes newer than `t'`; and what its
locals hold inside the bracket (`Agrees`): if the node's header and unlock count
are back to what they were at the bracket's first read, every field the reader
read is the node's.
-/

namespace Silo.Linearizable

open Silo.Header Silo.Node Silo.Read Silo.Bracket Silo.Slot

/-! ## The reader's invariant -/

section Definitions

variable {τ : Type}

/-- No node was unlocked `2^60` times since the reader's call started. -/
def NoWrap (s : Sys τ) : Prop := ∀ q, s.unlocks q - s.reader.callStart q < 2 ^ 60

/-- Where the reader's node stands: taken from the slot, it is the head or a
displaced head; reached through `next`, it ends the live chain below nodes newer
than `t'`. -/
def Placed (t' : Tid) (s : Sys τ) : Prop :=
  if s.reader.requireLatest then AtHead s s.reader.node
  else SuffixAbove s.heap s.slot s.reader.node (t'.toNat + 1)

/-- Inside a call: no unlock count is below its value at the start, and unless a
VERSION wrapped the node is placed. -/
def InCall (t' : Tid) (s : Sys τ) : Prop :=
  (∀ q, s.reader.callStart q ≤ s.unlocks q) ∧ (NoWrap s → Placed t' s)

/-- The bracket on the reader's node is open: `v` is an unlocked header of the
node, read when the node had `u0` unlocks, none of them before the call. -/
def Opened (s : Sys τ) : Prop :=
  s.reader.node < s.heap.length ∧ isLocked s.reader.v = false ∧
    (decode s.reader.v).version = BitVec.ofNat 60 s.reader.u0 ∧
    s.reader.callStart s.reader.node ≤ s.reader.u0 ∧ s.reader.u0 ≤ s.unlocks s.reader.node

/-- What the reads of `record_at` so far took from the node `n`, phase by phase. -/
def Agrees (t' : Tid) (rd : Reader) (n : LogicalNode) : Prop :=
  match rd.pc with
  | .readVersion => rd.next = n.next
  | .readStart => rd.next = n.next ∧ rd.found = true ∧ n.isNotBehind t' = true ∧
      (rd.requireLatest = true → isLatest rd.v = true)
  | .readRecord => rd.next = n.next ∧ rd.found = true ∧ n.isNotBehind t' = true ∧
      (rd.requireLatest = true → isLatest rd.v = true) ∧ rd.startT = n.version
  | .check => rd.next = n.next ∧ rd.found = n.isNotBehind t' ∧
      (rd.found = true → (rd.requireLatest = true → isLatest rd.v = true) ∧
        rd.startT = n.version ∧ rd.r = n.record)
  | _ => True

/-- Inside the bracket: it is open, and if the node's header and unlock count are
back to what they were at its first read, the reader's locals are the node's. -/
def InBracket (t' : Tid) (s : Sys τ) : Prop :=
  Opened s ∧ ∀ n, s.heap[s.reader.node]? = some n → n.hdr = s.reader.v →
    s.unlocks s.reader.node = s.reader.u0 → Agrees t' s.reader n

/-- The reader's invariant, phase by phase. -/
def ReaderInv (t' : Tid) (s : Sys τ) : Prop :=
  match s.reader.pc with
  | .take | .done => True
  | .start => s.reader.requireLatest = true ∧ AtHead s s.reader.node
  | .stable => InCall t' s
  | .readNext | .readVersion | .readStart | .readRecord | .check => InCall t' s ∧ InBracket t' s

end Definitions

/-! ## The live chain as the reader walks it -/

section Walk

variable {τ : Type} {s : Sys τ} {heap : Heap} {slot x q : Ptr} {n : LogicalNode} {t' : Tid}

/-- Past a node newer than `t'` at the end of the live chain, its tail ends the
live chain too. -/
theorem suffixAbove_next {lo : Nat} (h : SuffixAbove heap slot x lo) (hn : heap[x]? = some n)
    (hnext : n.next = some q) (hlo : lo ≤ n.version.toNat) : SuffixAbove heap slot q lo := by
  obtain ⟨above, ys, hne, hlive, hys, hver⟩ := h
  obtain ⟨ys', rfl⟩ : ∃ ys', ys = x :: ys' := by cases hys; exact ⟨_, rfl⟩
  obtain ⟨-, -, hrest⟩ := hys.head_facts hn
  refine ⟨above ++ [x], ys', by simp, by simpa using hlive, hnext ▸ hrest, fun z hz m hm => ?_⟩
  rcases List.mem_append.1 hz with hz | hz
  · exact hver z hz m hm
  · rw [List.mem_singleton.1 hz, hn] at hm
    cases hm
    exact hlo

/-- Past a node taken from the slot and newer than `t'`, the tail ends the live
chain below nodes newer than `t'`. -/
theorem atHead_next (hinv : Inv s) (h : AtHead s x) (hn : s.heap[x]? = some n)
    (hnext : n.next = some q) (hbehind : t' < n.version) :
    SuffixAbove s.heap s.slot q (t'.toNat + 1) := by
  rcases h with rfl | ⟨-, m, hm, -, hsuffix⟩
  · obtain ⟨ps, hlive⟩ := hinv.live
    obtain ⟨rest, rfl⟩ : ∃ rest, ps = s.slot :: rest := by cases hlive; exact ⟨_, rfl⟩
    obtain ⟨-, -, hrest⟩ := hlive.head_facts hn
    refine ⟨[s.slot], rest, List.cons_ne_nil _ _, hlive, hnext ▸ hrest, fun z hz m hm => ?_⟩
    rw [List.mem_singleton.1 hz, hn] at hm
    cases hm
    exact hbehind
  · rw [hn] at hm
    cases hm
    exact (hsuffix q hnext).mono hbehind

/-- A node at the end of the live chain, below nodes newer than `t'`, answers the
read at `t'` on the chain from the slot. -/
theorem suffixAbove_answers (h : SuffixAbove heap slot x (t'.toNat + 1)) (hn : heap[x]? = some n)
    (hnb : n.version ≤ t') : stableRead (chainFrom heap slot) t' = some (n.version, n.record) := by
  obtain ⟨above, ys, hne, hlive, hys, hver⟩ := h
  obtain ⟨ys', rfl⟩ : ∃ ys', ys = x :: ys' := by cases hys; exact ⟨_, rfl⟩
  obtain ⟨a, above', rfl⟩ := List.exists_cons_of_ne_nil hne
  obtain ⟨ma, hma⟩ : ∃ m, heap[a]? = some m :=
    ⟨_, List.getElem?_eq_getElem (hlive.lt_length a (List.mem_cons_self _ _))⟩
  have hnewer : ∀ m ∈ nodesAt heap (a :: above'), t' < m.version := fun m hm => by
    obtain ⟨z, hz, hzm⟩ := List.mem_filterMap.1 hm
    exact BitVec.lt_def.2 (hver z hz m hzm)
  rw [hlive.chainFrom_eq, nodesAt_append, nodesAt_cons _ hn, stableRead,
    recordAt_append_of_lt (by rw [nodesAt_cons _ hma]; exact List.cons_ne_nil _ _) hnewer,
    recordAt_cons_of_le hnb]

/-- A LATEST node taken from the slot is the head, and answers the read at `t'`. -/
theorem atHead_answers (hinv : Inv s) (h : AtHead s x) (hn : s.heap[x]? = some n)
    (hlatest : isLatest n.hdr = true) (hnb : n.version ≤ t') :
    stableRead (chainFrom s.heap s.slot) t' = some (n.version, n.record) := by
  rw [isLatest_eq] at hlatest
  rcases h with rfl | ⟨-, m, hm, hstale, -⟩
  · obtain ⟨ps, hlive⟩ := hinv.live
    obtain ⟨rest, rfl⟩ : ∃ rest, ps = s.slot :: rest := by cases hlive; exact ⟨_, rfl⟩
    rw [hlive.chainFrom_eq, nodesAt_cons _ hn]
    simp [stableRead, recordAt, LogicalNode.isNotBehind, hnb, hlatest]
  · rw [hn] at hm
    cases hm
    simp [hlatest] at hstale

end Walk

/-! ## Each step keeps the reader's invariant -/

section Preservation

variable {τ : Type} [DecidableEq τ] {s s' : Sys τ} {c : Tid → Tid → Bool} {t' : Tid}

omit [DecidableEq τ] in
/-- Under `NoWrap`, a node whose header is back to the word that opened the
bracket saw no unlock since: VERSION counts the unlocks modulo `2^60`. -/
theorem Opened.clean (hinv : Inv s) (ho : Opened s) (hwrap : NoWrap s) {n : LogicalNode}
    (hn : s.heap[s.reader.node]? = some n) (hhdr : n.hdr = s.reader.v) :
    s.unlocks s.reader.node = s.reader.u0 := by
  obtain ⟨-, -, hversion, hstart, hu0⟩ := ho
  have hv := hinv.version_eq _ n hn
  rw [hhdr, hversion] at hv
  have hmod := congrArg BitVec.toNat hv
  simp only [BitVec.toNat_ofNat] at hmod
  have := hwrap s.reader.node
  omega

theorem NoWrap.of_step (hstep : Step c t' s s') (hrd : s'.reader.callStart = s.reader.callStart)
    (h : NoWrap s') : NoWrap s := fun q =>
  lt_of_le_of_lt (Nat.sub_le_sub_right (hstep.unlocks_le q) _) (hrd ▸ h q)

theorem InCall.other (hinv : Inv s) (hstep : Step c t' s s') (hrd : s'.reader = s.reader)
    (h : InCall t' s) : InCall t' s' := by
  obtain ⟨hle, hplaced⟩ := h
  refine ⟨fun q => hrd ▸ (hle q).trans (hstep.unlocks_le q), fun hwrap => ?_⟩
  have hp := hplaced (hwrap.of_step hstep (by rw [hrd]))
  unfold Placed at hp ⊢
  rw [hrd]
  split_ifs at hp ⊢
  · exact hinv.atHead hstep hp
  · exact hinv.suffixAbove hstep hp

/-- A committer's step changes the reader's node, if at all, so that the
bracket's last read fails: it leaves a locked header or one more unlock. -/
theorem InBracket.other (hinv : Inv s) (hstep : Step c t' s s') (hrd : s'.reader = s.reader)
    (h : InBracket t' s) : InBracket t' s' := by
  obtain ⟨⟨hlt, hunlocked, hversion, hstart, hu0⟩, hagrees⟩ := h
  obtain ⟨n, hn⟩ : ∃ n, s.heap[s.reader.node]? = some n := ⟨_, List.getElem?_eq_getElem hlt⟩
  obtain ⟨n', hn', henv⟩ := hinv.envStep hstep hn
  unfold InBracket Opened
  rw [hrd]
  refine ⟨⟨lt_of_lt_of_le hlt (hstep.length_le hinv), hunlocked, hversion, hstart,
    hu0.trans (hstep.unlocks_le _)⟩, fun m hm hhdr hu => ?_⟩
  rw [hn'] at hm
  cases hm
  have hcell := henv.eq_of_clean hunlocked hhdr (hu.le.trans hu0)
  obtain ⟨rfl, hsame⟩ := Cell.mk.inj hcell
  exact hagrees _ hn hhdr (hsame.symm.trans hu)

theorem ReaderInv.other (hinv : Inv s) (hr : ReaderInv t' s) (hstep : Step c t' s s')
    (hrd : s'.reader = s.reader) : ReaderInv t' s' := by
  unfold ReaderInv at hr ⊢
  rw [hrd]
  revert hr
  cases s.reader.pc with
  | take | done => exact fun _ => trivial
  | start => exact fun h => ⟨h.1, hinv.atHead hstep h.2⟩
  | stable => exact fun h => h.other hinv hstep hrd
  | readNext | readVersion | readStart | readRecord | check =>
      exact fun h => ⟨h.1.other hinv hstep hrd, h.2.other hinv hstep hrd⟩

omit [DecidableEq τ] in
/-- Each step of the reader keeps its invariant: the reads of a bracket take the
fields of the node that opened it, and a check that passes on a node newer than
`t'` moves to a node that still ends the live chain below nodes newer than `t'`. -/
theorem ReaderInv.read (hinv : Inv s) (hr : ReaderInv t' s) : ReaderInv t' (s.readStep t') := by
  have hstay : ReaderInv t' { s with reader := s.reader } := hr
  unfold ReaderInv at hr
  unfold Sys.readStep
  generalize hR : readerStep t' s.heap s.slot s.unlocks s.reader = R
  cases hpc : s.reader.pc <;> simp only [hpc] at hr
  case take =>
    simp only [readerStep, hpc] at hR
    subst hR
    exact ⟨rfl, .inl rfl⟩
  case start =>
    simp only [readerStep, hpc] at hR
    subst hR
    exact ⟨fun _ => le_rfl, fun _ => by simpa [Placed, hr.1] using hr.2⟩
  case done =>
    simp only [readerStep, hpc] at hR
    subst hR
    exact hstay
  all_goals
    cases hn : s.heap[s.reader.node]? with
    | none => simp only [readerStep, hpc, hn] at hR; subst hR; exact hstay
    | some n => ?_
    have hnode : ∀ m, s.heap[s.reader.node]? = some m → m = n := fun m hm =>
      Option.some_inj.1 (hm.symm.trans hn)
    simp only [readerStep, hpc, hn] at hR
  case stable =>
    split_ifs at hR with hlocked
    · subst hR
      exact hstay
    · subst hR
      exact ⟨hr, ⟨(List.getElem?_eq_some_iff.1 hn).1, Bool.eq_false_iff.2 hlocked,
        hinv.version_eq _ n hn, hr.1 _, le_rfl⟩, fun _ _ _ _ => trivial⟩
  all_goals
    obtain ⟨hcall, hopened, hagrees⟩ := hr
    unfold Agrees at hagrees
    simp only [hpc] at hagrees
  case readNext =>
    subst hR
    refine ⟨hcall, hopened, fun m hm _ _ => ?_⟩
    obtain rfl := hnode m hm
    rfl
  case readVersion =>
    split_ifs at hR with hnb hrl <;> subst hR
    · trivial
    · have hlatest : s.reader.requireLatest = true → isLatest s.reader.v = true := by simpa using hrl
      refine ⟨hcall, hopened, fun m hm hhdr hu => ?_⟩
      obtain rfl := hnode m hm
      exact ⟨hagrees _ hn hhdr hu, rfl, hnb, hlatest⟩
    · refine ⟨hcall, hopened, fun m hm hhdr hu => ?_⟩
      obtain rfl := hnode m hm
      exact ⟨hagrees _ hn hhdr hu, (Bool.eq_false_iff.2 hnb).symm, fun h => absurd h Bool.false_ne_true⟩
  case readStart =>
    subst hR
    refine ⟨hcall, hopened, fun m hm hhdr hu => ?_⟩
    obtain rfl := hnode m hm
    obtain ⟨h₁, h₂, h₃, h₄⟩ := hagrees _ hn hhdr hu
    exact ⟨h₁, h₂, h₃, h₄, rfl⟩
  case readRecord =>
    subst hR
    refine ⟨hcall, hopened, fun m hm hhdr hu => ?_⟩
    obtain rfl := hnode m hm
    obtain ⟨h₁, h₂, h₃, h₄, h₅⟩ := hagrees _ hn hhdr hu
    exact ⟨h₁, h₂.trans h₃.symm, fun _ => ⟨h₄, h₅, rfl⟩⟩
  case check =>
    split_ifs at hR with hhdr hfound
    · subst hR
      trivial
    · cases hq : s.reader.next <;> simp only [hq] at hR <;> subst hR
      · trivial
      · refine ⟨hcall.1, fun hwrap => ?_⟩
        show SuffixAbove s.heap s.slot _ (t'.toNat + 1)
        obtain ⟨hnext, hfound', -⟩ := hagrees n hn hhdr (Opened.clean hinv hopened hwrap hn hhdr)
        have hbehind : t' < n.version := by
          rw [hfound'] at hfound
          simpa [LogicalNode.isNotBehind] using hfound
        have hp := hcall.2 hwrap
        unfold Placed at hp
        split_ifs at hp
        · exact atHead_next hinv hp hn (hnext ▸ hq) hbehind
        · exact suffixAbove_next hp hn (hnext ▸ hq) hbehind
    · subst hR
      exact hcall


theorem ReaderInv.step (hinv : Inv s) (hr : ReaderInv t' s) (hstep : Step c t' s s') :
    ReaderInv t' s' := by
  rcases hstep.reader_cases with hrd | rfl
  · exact hr.other hinv hstep hrd
  · exact hr.read hinv

theorem readerInv_of_reachable {allocSz : BitVec 64} (h : Reachable c t' allocSz s) :
    ReaderInv t' s := by
  induction h with
  | init => trivial
  | step hreach hstep ih => exact ih.step hreach.inv hstep

end Preservation

/-! ## The instant a read returns -/

section Linearizability

variable {τ : Type} [DecidableEq τ] {s s' : Sys τ} {c : Tid → Tid → Bool} {t' : Tid}

omit [DecidableEq τ] in
/-- The reader returns a record only from the check that closes a bracket which
found it. -/
theorem readerStep_returns {heap : Heap} {slot : Ptr} {unlocks : Ptr → Nat} {rd : Reader}
    {startT : Tid} {r : List UInt8} (hcall : rd.pc ≠ .done)
    (hret : (readerStep t' heap slot unlocks rd).pc = .done)
    (hresult : (readerStep t' heap slot unlocks rd).result = some (startT, r)) :
    rd.pc = .check ∧ ∃ n, heap[rd.node]? = some n ∧ n.hdr = rd.v ∧ rd.found = true ∧
      startT = rd.startT ∧ r = rd.r := by
  generalize hR : readerStep t' heap slot unlocks rd = R at hret hresult
  unfold readerStep at hR
  split at hR <;> (try split_ifs at hR) <;> (try split at hR) <;> subst hR <;> simp_all

/-- A call of `stable_read(t', start_t, r)` that returns a record returns what the
chain from the slot answers at `t'` at its last header read, as long as no node
was unlocked `2^60` times during the call. -/
theorem stableRead_linearizable {allocSz : BitVec 64} {startT : Tid} {r : List UInt8}
    (hreach : Reachable c t' allocSz s) (hstep : Step c t' s s')
    (hcall : s.reader.pc ≠ .done) (hret : s'.reader.pc = .done)
    (hresult : s'.reader.result = some (startT, r))
    (hwrap : ∀ q, s.unlocks q - s.reader.callStart q < 2 ^ 60) :
    stableRead (chainFrom s.heap s.slot) t' = some (startT, r) := by
  have hinv := hreach.inv
  have hr := readerInv_of_reachable hreach
  rcases hstep.reader_cases with hrd | rfl
  · exact absurd (hrd ▸ hret) hcall
  obtain ⟨hpc, n, hn, hhdr, hfound, rfl, rfl⟩ := readerStep_returns hcall hret hresult
  unfold ReaderInv at hr
  simp only [hpc] at hr
  obtain ⟨⟨-, hplaced⟩, hopened, hagrees⟩ := hr
  have ha := hagrees n hn hhdr (Opened.clean hinv hopened hwrap hn hhdr)
  unfold Agrees at ha
  simp only [hpc] at ha
  obtain ⟨-, hnb, hdata⟩ := ha
  obtain ⟨hlatest, hstart, hrecord⟩ := hdata hfound
  have hnb' : n.version ≤ t' := by simpa [LogicalNode.isNotBehind, hfound] using hnb.symm
  have hp := hplaced hwrap
  unfold Placed at hp
  rw [hstart, hrecord]
  split_ifs at hp with hrl
  · exact atHead_answers hinv hp hn (hhdr ▸ hlatest hrl) hnb'
  · exact suffixAbove_answers hp hn hnb'

/-- The reader alone can take any number of steps. -/
theorem reachable_readStep_iterate {allocSz : BitVec 64} (h : Reachable c t' allocSz s) (k : Nat) :
    Reachable c t' allocSz ((Sys.readStep t')^[k] s) := by
  induction k with
  | zero => exact h
  | succ k ih => rw [Function.iterate_succ_apply']; exact ih.step .read

/-- The reader takes the head of the chain from `alloc_first(16)` and opens its
bracket; a committer then locks it, writes `(1, [97])` in place, spilling the old
version, and unlocks. The reader's check sees the new header and retries, and the
call returns the committed record, which the chain from the slot answers. -/
theorem stableRead_linearizable_after_commit :
    ∃ s : Sys Unit, Reachable (fun _ _ => false) 5 16 s ∧ s.log = [(1, [97])] ∧
      s.reader.callStart 0 = 0 ∧ s.unlocks 0 = 1 ∧ (s.readStep 5).reader.result = some (1, [97]) ∧
      stableRead (chainFrom s.heap s.slot) 5 = some (1, [97]) :=
  have hopen := reachable_readStep_iterate (.init : Reachable (fun _ _ => false) 5 16 (init 16 : Sys Unit)) 3
  have hcommit := (((hopen.step (.lock () rfl rfl (by decide))).step
    (.write (p := 0) () 1 [97] rfl (by decide))).step (.swap () rfl)).step (.unlock () rfl rfl)
  have hreach := reachable_readStep_iterate hcommit 10
  ⟨_, hreach, rfl, rfl, rfl, by decide, stableRead_linearizable hreach .read (by decide) (by decide) (by decide)
    fun q => show Function.update (fun _ => 0) 0 1 q - 0 < 2 ^ 60 by
      rw [Function.update_apply]; split <;> decide⟩

end Linearizability

end Silo.Linearizable
