import Silo.Floor
import Silo.History

/-!
# The versions a chain keeps

Seen through its tids, a key's chain is a list of versions, newest first, and a
write at `t` does one of two things to it: when `can_overwrite_record_tid(head,
t)` holds it replaces the newest version, and otherwise it pushes a new one. The
four paths of `write_record_at` (overwrite in place, overwrite by a replacement,
spill in place, spill behind a replacement) and the allocation sizes do not show
at this level. `pushTid` is that abstract write, and `versions_history` shows
that the chain any history of writes leaves refines the fold of `pushTid` over
the history, for every policy and every sequence of tids.

For the policies of the code this gives the versions outright. The base
`transaction`, which never overwrites (and `transaction_proto1`, which keeps it),
keeps every version. `transaction_proto2` overwrites within an epoch, so for
writes with increasing tids it keeps exactly the last version of each epoch,
and the epochs strictly decrease along the chain.

Reads follow. After a history of writes with increasing tids whose records fit,
`stable_read(t')` on the head returns the tid of the last write at or below `t'`:
always under the base policy, and under the epoch policy when no later write
shares the epoch of `t'`, in particular at the last tid of any epoch. Only the
record it returns can differ from the history's (`Silo.History`).
-/

namespace Silo.Versions

open Silo.Header Silo.Node Silo.Write Silo.Read Silo.Floor Silo.History Silo.Tid

/-- The abstract write on the key's tids, newest first: replace the newest when
the policy lets `t` overwrite it, push `t` otherwise. -/
def pushTid (c : Tid → Tid → Bool) : List Tid → Tid → List Tid
  | [], t => [t]
  | v :: vs, t => if c v t then t :: vs else t :: v :: vs

/-! ## The chain refines the abstract versions -/

section Refinement

variable (c : Tid → Tid → Bool)

/-- The tids `write_record_at` leaves in front of the old head's tail are those of
the abstract write. -/
theorem map_version_writePrefix (self fresh : Ptr) (n : LogicalNode) (t : Tid) (r : List UInt8)
    (vs : List Tid) :
    (writePrefix c self fresh n t r).map (·.version) ++ vs = pushTid c (n.version :: vs) t := by
  dsimp only [writePrefix, pushTid]
  split_ifs <;> rfl

theorem applyWrites_cons (heap : Heap) (head : Ptr) (t : Tid) (r : List UInt8)
    (ws : List (Tid × List UInt8)) :
    applyWrites c (heap, head) ((t, r) :: ws) =
      applyWrites c ((writeRecordAt c heap head t r).1, (writeRecordAt c heap head t r).2.2.getD head) ws :=
  rfl

/-- A history of writes applied to the head of any chain leaves a chain whose
tids are the abstract writes applied to the old tids. -/
theorem versions_applyWrites {heap : Heap} {head : Ptr} {ps : List Ptr}
    (hchain : ChainRep heap (some head) ps) (ws : List (Tid × List UInt8)) :
    ∃ ps', ChainRep (applyWrites c (heap, head) ws).1 (some (applyWrites c (heap, head) ws).2) ps' ∧
      (nodesAt (applyWrites c (heap, head) ws).1 ps').map (·.version) =
        (ws.map (·.1)).foldl (pushTid c) ((nodesAt heap ps).map (·.version)) := by
  induction ws generalizing heap head ps with
  | nil => exact ⟨ps, hchain, rfl⟩
  | cons w ws ih =>
      obtain ⟨t, r⟩ := w
      obtain ⟨rest, rfl⟩ : ∃ rest, ps = head :: rest := by cases hchain; exact ⟨_, rfl⟩
      obtain ⟨n, hn⟩ : ∃ n, heap[head]? = some n := by cases hchain with | cons read _ => exact ⟨_, read⟩
      obtain ⟨hchain', hnodes⟩ := writeRecordAt_chain (c := c) hchain hn t r
      rw [applyWrites_cons, List.map_cons, List.foldl_cons, nodesAt_cons _ hn, List.map_cons,
        ← map_version_writePrefix c head heap.length n t r, ← List.map_append, ← hnodes]
      exact ih hchain'

theorem applyWrites_append_singleton (x : Heap × Ptr) (ws : List (Tid × List UInt8)) (t : Tid)
    (r : List UInt8) :
    applyWrites c x (ws ++ [(t, r)]) =
      ((writeRecordAt c (applyWrites c x ws).1 (applyWrites c x ws).2 t r).1,
        (writeRecordAt c (applyWrites c x ws).1 (applyWrites c x ws).2 t r).2.2.getD (applyWrites c x ws).2) := by
  induction ws generalizing x with
  | nil => rfl
  | cons w ws ih => exact ih _

theorem head?_pushTid (vs : List Tid) (t : Tid) : (pushTid c vs t).head? = some t := by
  cases vs with
  | nil => rfl
  | cons v vs =>
      dsimp only [pushTid]
      split_ifs <;> rfl

/-- The newest abstract version is the last write's tid. -/
theorem head?_foldl_pushTid (h : Tid) (ts : List Tid) :
    (ts.foldl (pushTid c) [h]).head? = (h :: ts).getLast? := by
  induction ts using List.reverseRecOn with
  | nil => rfl
  | append_singleton ts t _ =>
      rw [List.foldl_append, List.foldl_cons, List.foldl_nil, head?_pushTid, ← List.cons_append,
        List.getLast?_concat]

/-- The chain a history of writes leaves on a chain from `alloc_first` has, newest
first, the tids of the abstract writes applied to `MIN_TID`: whatever the policy,
the tids, the record sizes and the path each write takes. -/
theorem versions_history (allocSz : BitVec 64) (ws : List (Tid × List UInt8)) :
    (chainFrom (applyWrites c (allocFirst [] allocSz) ws).1 (applyWrites c (allocFirst [] allocSz) ws).2).map
        (·.version) = (ws.map (·.1)).foldl (pushTid c) [minTid] := by
  obtain ⟨ps', hchain', hvers⟩ := versions_applyWrites c (allocFirst_wellFormed [] allocSz).chain ws
  change List.map _ (chainFrom (applyWrites c ((allocFirst [] allocSz).1, [].length) ws).1
    (applyWrites c ((allocFirst [] allocSz).1, [].length) ws).2) = _
  rw [hchain'.chainFrom_eq, hvers]
  rfl

end Refinement

/-! ## The base policy keeps every version -/

section Base

/-- Under the base policy the abstract write always pushes. -/
@[simp] theorem pushTid_never (vs : List Tid) (t : Tid) : pushTid (fun _ _ => false) vs t = t :: vs := by
  cases vs <;> rfl

theorem foldl_pushTid_never (ts vs : List Tid) :
    ts.foldl (pushTid fun _ _ => false) vs = ts.reverse ++ vs := by
  induction ts generalizing vs with
  | nil => rfl
  | cons t ts ih => simp [ih]

/-- Under the base `can_overwrite_record_tid`, which never allows an overwrite,
the chain any history of writes leaves holds one version per write and the
version of `alloc_first`, newest first, whatever the tids. -/
theorem history_keeps_every_version (allocSz : BitVec 64) (ws : List (Tid × List UInt8)) :
    (chainFrom (applyWrites (fun _ _ => false) (allocFirst [] allocSz) ws).1
        (applyWrites (fun _ _ => false) (allocFirst [] allocSz) ws).2).map (·.version) =
      (minTid :: ws.map (·.1)).reverse := by
  rw [versions_history, foldl_pushTid_never, List.reverse_cons]

end Base

/-! ## The epoch policy keeps the last version of each epoch -/

section Epochs

open Silo.Tid

variable (L : EpochLayout)

theorem le_of_tid_lt {a b : Tid} (h : a < b) : a ≤ b := BitVec.not_lt.1 (BitVec.lt_asymm h)

/-- Tids that increase from one commit to the next increase between any two. -/
theorem increasing_pairwise {ts : List Tid} (h : ts.Chain' (· < ·)) : ts.Pairwise (· < ·) :=
  haveI : IsTrans Tid (· < ·) := ⟨fun _ _ _ => BitVec.lt_trans⟩
  List.chain'_iff_pairwise.1 h

/-- The tids `vs`, newest first, are what `transaction_proto2` should keep of the
commits `hs`, oldest first: their epochs strictly decrease, and a commit survives
exactly when no later commit shares its epoch. -/
structure Survivors (hs vs : List Tid) : Prop where
  decreasing : vs.Pairwise fun v u => L.epochId u < L.epochId v
  mem_iff : ∀ v, v ∈ vs ↔ v ∈ hs ∧ ∀ u ∈ hs, v < u → L.epochId u ≠ L.epochId v

theorem survivors_nil : Survivors L [] [] :=
  ⟨List.Pairwise.nil, by simp⟩

section Step

variable {L} {hs vs : List Tid} {t : Tid}

/-- What survives of `hs ++ [t]`, for `t` newer than every commit of `hs`: `t`,
and those survivors of `hs` outside the epoch of `t`. -/
theorem Survivors.mem_append_iff (hsv : Survivors L hs vs) (ht : ∀ u ∈ hs, u < t) (x : Tid) :
    (x ∈ hs ++ [t] ∧ ∀ u ∈ hs ++ [t], x < u → L.epochId u ≠ L.epochId x) ↔
      x = t ∨ (x ∈ vs ∧ L.epochId t ≠ L.epochId x) := by
  simp only [List.mem_append, List.mem_singleton, hsv.mem_iff]
  constructor
  · rintro ⟨hx | rfl, hnewer⟩
    · exact .inr ⟨⟨hx, fun u hu => hnewer u (.inl hu)⟩, hnewer t (.inr rfl) (ht x hx)⟩
    · exact .inl rfl
  · rintro (rfl | ⟨⟨hx, hnewer⟩, hne⟩)
    · refine ⟨.inr rfl, fun u hu hlt => ?_⟩
      rcases hu with hu | rfl
      · exact absurd (ht u hu) (BitVec.lt_asymm hlt)
      · exact absurd hlt (BitVec.lt_irrefl _)
    · refine ⟨.inl hx, fun u hu => ?_⟩
      rcases hu with hu | rfl
      · exact hnewer u hu
      · exact fun _ => hne

/-- Pushing `t` in front of a tail of older epochs that holds exactly the
survivors outside the epoch of `t` gives the survivors of `hs ++ [t]`. -/
theorem Survivors.cons (hsv : Survivors L hs vs) (ht : ∀ u ∈ hs, u < t) {tail : List Tid}
    (htail : tail.Pairwise fun v u => L.epochId u < L.epochId v)
    (holder : ∀ y ∈ tail, L.epochId y < L.epochId t)
    (hmem : ∀ x, x ∈ tail ↔ x ∈ vs ∧ L.epochId t ≠ L.epochId x) :
    Survivors L (hs ++ [t]) (t :: tail) :=
  ⟨List.pairwise_cons.2 ⟨holder, htail⟩, fun x => by
    rw [hsv.mem_append_iff ht, List.mem_cons, hmem]⟩

/-- One commit of `transaction_proto2`, newer than all before it, keeps the
survivors: in its own epoch it replaces the newest version, in a later one it
pushes. -/
theorem Survivors.push (hsv : Survivors L hs vs) (ht : ∀ u ∈ hs, u < t) :
    Survivors L (hs ++ [t]) (pushTid L.canOverwriteRecordTid vs t) := by
  have hbelow : ∀ x ∈ vs, L.epochId x ≤ L.epochId t :=
    fun x hx => L.epochId_mono (le_of_tid_lt (ht x ((hsv.mem_iff x).1 hx).1))
  cases vs with
  | nil => exact hsv.cons ht List.Pairwise.nil (by simp) (by simp)
  | cons v vs =>
      obtain ⟨hv, hvs⟩ := List.pairwise_cons.1 hsv.decreasing
      by_cases hc : L.canOverwriteRecordTid v t
      · -- the commit overwrites the newest version, of its own epoch
        have heq : L.epochId v = L.epochId t := beq_iff_eq.1 hc
        rw [pushTid, if_pos hc]
        refine hsv.cons ht hvs (fun y hy => heq ▸ hv y hy) fun x => ?_
        rw [List.mem_cons]
        constructor
        · exact fun hx => ⟨.inr hx, BitVec.ne_of_lt (heq ▸ hv x hx) |>.symm⟩
        · rintro ⟨rfl | hx, hne⟩
          · exact absurd heq.symm hne
          · exact hx
      · -- the commit opens a newer epoch and pushes
        have hlt : L.epochId v < L.epochId t :=
          BitVec.lt_of_le_ne (hbelow v (List.mem_cons_self _ _)) (by simpa [EpochLayout.canOverwriteRecordTid] using hc)
        have holder : ∀ y ∈ v :: vs, L.epochId y < L.epochId t := by
          rintro y (_ | ⟨_, hy⟩)
          exacts [hlt, BitVec.lt_trans (hv y hy) hlt]
        rw [pushTid, if_neg hc]
        exact hsv.cons ht hsv.decreasing holder fun x =>
          ⟨fun hx => ⟨hx, (BitVec.ne_of_lt (holder x hx)).symm⟩, And.left⟩

/-- A run of commits with increasing tids keeps the survivors. -/
theorem Survivors.foldl (hsv : Survivors L hs vs) (ts : List Tid) (hinc : (hs ++ ts).Pairwise (· < ·)) :
    Survivors L (hs ++ ts) (ts.foldl (pushTid L.canOverwriteRecordTid) vs) := by
  induction ts generalizing hs vs with
  | nil => simpa using hsv
  | cons t ts ih =>
      rw [List.append_cons] at hinc ⊢
      have ht : ∀ u ∈ hs, u < t := fun u hu =>
        (List.pairwise_append.1 (List.pairwise_append.1 hinc).1).2.2 u hu t (List.mem_singleton_self _)
      exact ih (hsv.push ht) hinc

end Step

/-- Under `transaction_proto2`'s `can_overwrite_record_tid`, for commits with
increasing tids, as its `INVARIANT(prev < cur)` requires, the chain a history of
writes leaves keeps exactly the last version of each epoch, among the version of
`alloc_first` and the writes, with epochs strictly decreasing along the chain. -/
theorem history_keeps_last_of_each_epoch (allocSz : BitVec 64) (ws : List (Tid × List UInt8))
    (hinc : (minTid :: ws.map (·.1)).Chain' (· < ·)) :
    Survivors L (minTid :: ws.map (·.1))
      ((chainFrom (applyWrites L.canOverwriteRecordTid (allocFirst [] allocSz) ws).1
        (applyWrites L.canOverwriteRecordTid (allocFirst [] allocSz) ws).2).map (·.version)) := by
  rw [versions_history]
  exact (survivors_nil L).foldl _ (increasing_pairwise hinc)

/-- The commits the scenarios below run: tids 1 and 2, in epoch 0, and `2^37`, in
epoch 1 with `NMAXCOREBITS = 10`, each of one byte, in increasing order. -/
theorem threeCommits_increasing :
    (minTid :: ([(1, [97]), (2, [98]), (BitVec.ofNat 64 (2 ^ 37), [99])] : List (Tid × List UInt8)).map
      (·.1)).Chain' (· < ·) :=
  List.chain'_cons.2 ⟨by decide, List.chain'_cons.2 ⟨by decide, List.chain'_cons.2 ⟨by decide,
    List.chain'_singleton _⟩⟩⟩

theorem threeCommits_fit :
    ∀ w ∈ ([(1, [97]), (2, [98]), (BitVec.ofNat 64 (2 ^ 37), [99])] : List (Tid × List UInt8)),
      w.2.length < 2 ^ 32 - 16 := by
  decide

/-- Writes at tids 1 and 2 in epoch 0 and at `2^37` in epoch 1 (with
`NMAXCOREBITS = 10`): the chain keeps the commit at 2, the last of epoch 0, and
the one at `2^37`. -/
theorem history_keeps_last_of_each_epoch_two_epochs :
    (minTid :: ([(1, [97]), (2, [98]), (BitVec.ofNat 64 (2 ^ 37), [99])] : List (Tid × List UInt8)).map
        (·.1)).Chain' (· < ·) ∧
      Survivors ⟨10, 1024, rfl, by decide⟩
        (minTid :: ([(1, [97]), (2, [98]), (BitVec.ofNat 64 (2 ^ 37), [99])] : List (Tid × List UInt8)).map (·.1))
        ((chainFrom (applyWrites (EpochLayout.canOverwriteRecordTid ⟨10, 1024, rfl, by decide⟩)
            (allocFirst [] 0) [(1, [97]), (2, [98]), (BitVec.ofNat 64 (2 ^ 37), [99])]).1
          (applyWrites (EpochLayout.canOverwriteRecordTid ⟨10, 1024, rfl, by decide⟩)
            (allocFirst [] 0) [(1, [97]), (2, [98]), (BitVec.ofNat 64 (2 ^ 37), [99])]).2).map (·.version)) :=
  ⟨threeCommits_increasing, history_keeps_last_of_each_epoch _ 0 _ threeCommits_increasing⟩

example :
    (chainFrom (applyWrites (EpochLayout.canOverwriteRecordTid ⟨10, 1024, rfl, by decide⟩)
        (allocFirst [] 0) [(1, [97]), (2, [98]), (BitVec.ofNat 64 (2 ^ 37), [99])]).1
      (applyWrites (EpochLayout.canOverwriteRecordTid ⟨10, 1024, rfl, by decide⟩)
        (allocFirst [] 0) [(1, [97]), (2, [98]), (BitVec.ofNat 64 (2 ^ 37), [99])]).2).map (·.version) =
      [BitVec.ofNat 64 (2 ^ 37), 2] := by
  decide

end Epochs

/-! ## The tid a read after a history returns -/

section Reads

variable (c : Tid → Tid → Bool)

/-- A history of newer writes whose records fit keeps the representation
invariant of the chain it is applied to. -/
theorem chainOk_applyWrites {heap : Heap} {head : Ptr} {ps : List Ptr} {n : LogicalNode}
    (hchain : ChainRep heap (some head) ps) (hn : heap[head]? = some n) (hok : ChainOk (nodesAt heap ps))
    (ws : List (Tid × List UInt8)) (hinc : (n.version :: ws.map (·.1)).Chain' (· < ·))
    (hr : ∀ w ∈ ws, w.2.length < 2 ^ 32 - 16) :
    ∃ ps', ChainRep (applyWrites c (heap, head) ws).1 (some (applyWrites c (heap, head) ws).2) ps' ∧
      ChainOk (nodesAt (applyWrites c (heap, head) ws).1 ps') := by
  induction ws generalizing heap head ps n with
  | nil => exact ⟨ps, hchain, hok⟩
  | cons w ws ih =>
      obtain ⟨t, r⟩ := w
      obtain ⟨rest, rfl⟩ : ∃ rest, ps = head :: rest := by cases hchain; exact ⟨_, rfl⟩
      obtain ⟨ht, hinc⟩ := List.chain_cons.1 hinc
      have hr₀ : r.length < 2 ^ 32 - 16 := hr _ (List.mem_cons_self _ _)
      obtain ⟨hchain', hnodes⟩ := writeRecordAt_chain (c := c) hchain hn t r
      have hok' : ChainOk (writePrefix c head heap.length n t r ++ nodesAt heap rest) :=
        chainOk_write (by rwa [nodesAt_cons _ hn] at hok) ht hr₀
      -- the new head carries the new tid
      obtain ⟨m, _, hpre, hm, -⟩ := @writePrefix_head c head heap.length n t r hr₀
      have hread : (writeRecordAt c heap head t r).1[(writeRecordAt c heap head t r).2.2.getD head]? = some m := by
        rw [← head?_nodesAt hchain', hnodes, hpre]
        rfl
      rw [applyWrites_cons]
      exact ih hchain' hread (hnodes ▸ hok') (hm ▸ hinc) fun w hw => hr w (List.mem_cons_of_mem _ hw)

theorem chainOk_history (allocSz : BitVec 64) (ws : List (Tid × List UInt8))
    (hinc : (minTid :: ws.map (·.1)).Chain' (· < ·)) (hr : ∀ w ∈ ws, w.2.length < 2 ^ 32 - 16) :
    ChainOk (chainFrom (applyWrites c (allocFirst [] allocSz) ws).1 (applyWrites c (allocFirst [] allocSz) ws).2) := by
  have hwf := allocFirst_wellFormed [] allocSz
  obtain ⟨ps', hchain', hok⟩ :=
    chainOk_applyWrites c hwf.chain (List.getElem?_concat_length _ _) hwf.ok ws hinc hr
  change ChainOk (chainFrom (applyWrites c ((allocFirst [] allocSz).1, [].length) ws).1
    (applyWrites c ((allocFirst [] allocSz).1, [].length) ws).2)
  rwa [hchain'.chainFrom_eq]

/-- After a history of writes with increasing tids whose records fit,
`stable_read(t')` on the head answers, with the greatest kept tid at most `t'`. -/
theorem readAfter_tid_of_floor {allocSz : BitVec 64} {ws : List (Tid × List UInt8)}
    (hinc : (minTid :: ws.map (·.1)).Chain' (· < ·)) (hr : ∀ w ∈ ws, w.2.length < 2 ^ 32 - 16)
    {f t' : Tid} (hf : f ∈ (ws.map (·.1)).foldl (pushTid c) [minTid]) (hle : f ≤ t')
    (hmax : ∀ v ∈ (ws.map (·.1)).foldl (pushTid c) [minTid], v ≤ t' → v ≤ f) :
    (readAfter c allocSz ws t').map Prod.fst = some f := by
  have hok := chainOk_history c allocSz ws hinc hr
  rw [← versions_history c allocSz ws] at hf hmax
  obtain ⟨m, hm, rfl⟩ := List.mem_map.1 hf
  have hfloor : IsFloor _ t' m := ⟨hm, hle, fun m' hm' => hmax _ (List.mem_map_of_mem _ hm')⟩
  dsimp only [readAfter, stableRead]
  rw [recordAt_of_isFloor hok.decreasing hfloor, if_neg]
  · rfl
  · -- the head of the chain carries LATEST
    rintro ⟨-, hhead, hlatest⟩
    exact Bool.eq_false_iff.1 hlatest (hok.head_latest m hhead)

theorem snapshotRead_append_of_le {ws : List (Tid × List UInt8)} {w : Tid × List UInt8} {t' : Tid}
    (h : w.1 ≤ t') : snapshotRead (ws ++ [w]) t' = w := by
  simp [snapshotRead, List.filter_append, h]

theorem snapshotRead_append_of_not_le {ws : List (Tid × List UInt8)} {w : Tid × List UInt8} {t' : Tid}
    (h : ¬ w.1 ≤ t') : snapshotRead (ws ++ [w]) t' = snapshotRead ws t' := by
  simp [snapshotRead, List.filter_append, h]

/-- For increasing tids, the snapshot a history specifies at `t'` is the write
with the greatest tid at most `t'`, or `MIN_TID`. -/
theorem snapshotRead_floor (ws : List (Tid × List UInt8)) (t' : Tid)
    (hinc : (minTid :: ws.map (·.1)).Pairwise (· < ·)) :
    (snapshotRead ws t').1 ∈ minTid :: ws.map (·.1) ∧ (snapshotRead ws t').1 ≤ t' ∧
      ∀ u ∈ minTid :: ws.map (·.1), u ≤ t' → u ≤ (snapshotRead ws t').1 := by
  induction ws using List.reverseRecOn with
  | nil =>
      refine ⟨List.mem_singleton_self _, BitVec.le_def.2 (Nat.zero_le _), fun u hu _ => ?_⟩
      rw [List.mem_singleton.1 hu]
      exact BitVec.le_refl _
  | append_singleton ws w ih =>
      rw [List.map_append, List.map_singleton, ← List.cons_append] at hinc ⊢
      obtain ⟨hpre, -, hlast⟩ := List.pairwise_append.1 hinc
      simp only [List.mem_append, List.mem_singleton]
      by_cases hw : w.1 ≤ t'
      · -- the last write is the floor
        rw [snapshotRead_append_of_le hw]
        refine ⟨.inr rfl, hw, fun u hu _ => ?_⟩
        rcases hu with hu | rfl
        · exact le_of_tid_lt (hlast u hu _ (List.mem_singleton_self _))
        · exact BitVec.le_refl _
      · -- the last write is newer than the read
        rw [snapshotRead_append_of_not_le hw]
        obtain ⟨hmem, hle, hmax⟩ := ih hpre
        refine ⟨.inl hmem, hle, fun u hu hut => ?_⟩
        rcases hu with hu | rfl
        · exact hmax u hu hut
        · exact absurd hut hw

section Policies

variable {allocSz : BitVec 64} {ws : List (Tid × List UInt8)}

/-- Under the base policy the read finds the snapshot's tid. -/
theorem readAfter_never_tid (hinc : (minTid :: ws.map (·.1)).Chain' (· < ·))
    (hr : ∀ w ∈ ws, w.2.length < 2 ^ 32 - 16) (t' : Tid) :
    (readAfter (fun _ _ => false) allocSz ws t').map Prod.fst = some (snapshotRead ws t').1 := by
  obtain ⟨hmem, hle, hmax⟩ := snapshotRead_floor ws t' (increasing_pairwise hinc)
  -- the base policy keeps every tid
  have hkept : ∀ v, v ∈ (ws.map (·.1)).foldl (pushTid fun _ _ => false) [minTid] ↔ v ∈ minTid :: ws.map (·.1) :=
    fun v => by simp [foldl_pushTid_never, or_comm]
  exact readAfter_tid_of_floor _ hinc hr ((hkept _).2 hmem) hle fun v hv => hmax v ((hkept v).1 hv)

/-- Under the epoch policy the read finds the snapshot's tid when every later
commit is in a later epoch. -/
theorem readAfter_epoch_tid (L : EpochLayout) (hinc : (minTid :: ws.map (·.1)).Chain' (· < ·))
    (hr : ∀ w ∈ ws, w.2.length < 2 ^ 32 - 16) {t' : Tid}
    (hclosed : ∀ u ∈ ws.map (·.1), t' < u → L.epochId t' < L.epochId u) :
    (readAfter L.canOverwriteRecordTid allocSz ws t').map Prod.fst = some (snapshotRead ws t').1 := by
  have hpw := increasing_pairwise hinc
  obtain ⟨hmem, hle, hmax⟩ := snapshotRead_floor ws t' hpw
  -- the floor survives: it is the last commit of its epoch
  have hsv := (survivors_nil L).foldl _ hpw
  refine readAfter_tid_of_floor _ hinc hr ((hsv.mem_iff _).2 ⟨hmem, fun u hu hlt heq => ?_⟩) hle
    fun v hv => hmax v ((hsv.mem_iff v).1 hv).1
  have hut : t' < u := BitVec.not_le.1 fun hut => BitVec.not_le.2 hlt (hmax u hu hut)
  rcases List.mem_cons.1 hu with rfl | hu
  · exact BitVec.not_le.2 hut (BitVec.le_def.2 (Nat.zero_le _))
  · exact BitVec.not_le.2 (hclosed u hu hut) (heq ▸ L.epochId_mono hle)

end Policies

/-- After any history of writes with increasing tids whose records fit,
`stable_read(t')` on the key's head returns the tid of the snapshot the history
specifies at `t'`: under the base policy for every `t'`, and under
`transaction_proto2`'s for every `t'` after which only later epochs commit. -/
theorem readAfter_snapshot_tid (L : EpochLayout) (allocSz : BitVec 64) (ws : List (Tid × List UInt8))
    (t' : Tid) (hinc : (minTid :: ws.map (·.1)).Chain' (· < ·)) (hr : ∀ w ∈ ws, w.2.length < 2 ^ 32 - 16) :
    (readAfter (fun _ _ => false) allocSz ws t').map Prod.fst = some (snapshotRead ws t').1 ∧
      ((∀ u ∈ ws.map (·.1), t' < u → L.epochId t' < L.epochId u) →
        (readAfter L.canOverwriteRecordTid allocSz ws t').map Prod.fst = some (snapshotRead ws t').1) :=
  ⟨readAfter_never_tid hinc hr t', readAfter_epoch_tid L hinc hr⟩

/-- Two commits in epoch 0 and one in epoch 1 (with `NMAXCOREBITS = 10`): after
a read at the second only epoch 1 commits, and the read returns the second's tid
under both policies. -/
theorem readAfter_snapshot_tid_epochs :
    (minTid :: ([(1, [97]), (2, [98]), (BitVec.ofNat 64 (2 ^ 37), [99])] : List (Tid × List UInt8)).map
        (·.1)).Chain' (· < ·) ∧
      (∀ w ∈ ([(1, [97]), (2, [98]), (BitVec.ofNat 64 (2 ^ 37), [99])] : List (Tid × List UInt8)),
        w.2.length < 2 ^ 32 - 16) ∧
      (∀ u ∈ ([(1, [97]), (2, [98]), (BitVec.ofNat 64 (2 ^ 37), [99])] : List (Tid × List UInt8)).map
          (·.1), 2 < u →
            EpochLayout.epochId ⟨10, 1024, rfl, by decide⟩ 2 < EpochLayout.epochId ⟨10, 1024, rfl, by decide⟩ u) ∧
      (readAfter (fun _ _ => false) 0 [(1, [97]), (2, [98]), (BitVec.ofNat 64 (2 ^ 37), [99])] 2).map
          Prod.fst = some (snapshotRead [(1, [97]), (2, [98]), (BitVec.ofNat 64 (2 ^ 37), [99])] 2).1 ∧
      (readAfter (EpochLayout.canOverwriteRecordTid ⟨10, 1024, rfl, by decide⟩) 0
          [(1, [97]), (2, [98]), (BitVec.ofNat 64 (2 ^ 37), [99])] 2).map Prod.fst =
        some (snapshotRead [(1, [97]), (2, [98]), (BitVec.ofNat 64 (2 ^ 37), [99])] 2).1 := by
  obtain ⟨hbase, hepoch⟩ :=
    readAfter_snapshot_tid ⟨10, 1024, rfl, by decide⟩ 0 _ 2 threeCommits_increasing threeCommits_fit
  refine ⟨threeCommits_increasing, threeCommits_fit, ?later, hbase, hepoch ?later⟩
  exact List.forall_mem_cons.2 ⟨by decide, List.forall_mem_cons.2 ⟨by decide,
    List.forall_mem_cons.2 ⟨by decide, List.forall_mem_nil _⟩⟩⟩

/-- Under `transaction_proto2`'s policy, after any history of writes with
increasing tids whose records fit, `stable_read` at the last tid of any epoch,
`MakeTid(CoreMask, 2^27 - 1, e)`, returns the tid of the snapshot the history
specifies there. -/
theorem readAfter_epochEnd_tid (L : EpochLayout) (allocSz : BitVec 64) (ws : List (Tid × List UInt8))
    {e : BitVec 64} (he : e.toNat < 2 ^ (64 - L.coreBits - 27))
    (hinc : (minTid :: ws.map (·.1)).Chain' (· < ·)) (hr : ∀ w ∈ ws, w.2.length < 2 ^ 32 - 16) :
    (readAfter L.canOverwriteRecordTid allocSz ws (L.makeTid L.coreMask (BitVec.ofNat 64 (2 ^ 27 - 1)) e)).map
        Prod.fst = some (snapshotRead ws (L.makeTid L.coreMask (BitVec.ofNat 64 (2 ^ 27 - 1)) e)).1 :=
  -- every later commit is in a later epoch
  readAfter_epoch_tid L hinc hr fun u _ hlt => by
    rw [EpochLayout.epochId_epochEnd he]
    exact BitVec.not_le.1 fun hle => BitVec.not_le.2 hlt ((EpochLayout.le_epochEnd_iff he u).2 hle)

/-- Commits at tids 1 and 2 in epoch 0 and at `2^37` in epoch 1 (with
`NMAXCOREBITS = 10`): a read at the last tid of epoch 0 finds the commit at 2. -/
theorem readAfter_epochEnd_tid_zero :
    (0#64).toNat < 2 ^ (64 - 10 - 27) ∧
      (minTid :: ([(1, [97]), (2, [98]), (BitVec.ofNat 64 (2 ^ 37), [99])] : List (Tid × List UInt8)).map
        (·.1)).Chain' (· < ·) ∧
      (∀ w ∈ ([(1, [97]), (2, [98]), (BitVec.ofNat 64 (2 ^ 37), [99])] : List (Tid × List UInt8)),
        w.2.length < 2 ^ 32 - 16) ∧
      (readAfter (EpochLayout.canOverwriteRecordTid ⟨10, 1024, rfl, by decide⟩) 0
          [(1, [97]), (2, [98]), (BitVec.ofNat 64 (2 ^ 37), [99])]
          ((⟨10, 1024, rfl, by decide⟩ : EpochLayout).makeTid (EpochLayout.coreMask ⟨10, 1024, rfl, by decide⟩)
            (BitVec.ofNat 64 (2 ^ 27 - 1)) 0#64)).map Prod.fst =
        some (snapshotRead [(1, [97]), (2, [98]), (BitVec.ofNat 64 (2 ^ 37), [99])]
          ((⟨10, 1024, rfl, by decide⟩ : EpochLayout).makeTid (EpochLayout.coreMask ⟨10, 1024, rfl, by decide⟩)
            (BitVec.ofNat 64 (2 ^ 27 - 1)) 0#64)).1 :=
  ⟨by decide, threeCommits_increasing, threeCommits_fit,
    readAfter_epochEnd_tid ⟨10, 1024, rfl, by decide⟩ 0 _ (by decide) threeCommits_increasing threeCommits_fit⟩

end Reads

end Silo.Versions
