import Mathlib

/-!
# Absent key ranges

A transaction that scans without the low-level protocol remembers the key
ranges it saw empty, as a vector of `key_range_t` kept sorted and disjoint, and
finds the range that may cover a key with `std::upper_bound` and
`key_range_search_less_cmp`. Keys are byte strings; `varkey` and `std::string`
both order them lexicographically by unsigned byte, so one order serves both.
-/

namespace Silo.AbsentRange

/-- A key: a byte string, each byte compared as an unsigned char. -/
abbrev Key := List (Fin 256)

/-- `transaction::key_range_t`: the half-open range `[a, b)`, or `[a, ∞)` when
`hasB` is false. -/
structure KeyRange where
  a : Key
  hasB : Bool
  b : Key
  deriving DecidableEq, Repr

namespace KeyRange

def isEmptyRange (r : KeyRange) : Bool := r.hasB && decide (r.a ≥ r.b)

def contains (r that : KeyRange) : Bool :=
  if r.a > that.a then false
  else if !r.hasB then true
  else if !that.hasB then false
  else decide (r.b ≥ that.b)

def keyInRange (r : KeyRange) (k : Key) : Bool := decide (r.a ≤ k) && (!r.hasB || decide (k < r.b))

/-- The keys a range denotes. -/
def keys (r : KeyRange) : Set Key := {k | r.keyInRange k = true}

@[simp] theorem mem_keys (r : KeyRange) (k : Key) :
    k ∈ r.keys ↔ r.a ≤ k ∧ (r.hasB = true → k < r.b) := by
  cases h : r.hasB <;> simp [keys, keyInRange, h]

/-- A range that is not empty holds its own lower bound. -/
theorem a_mem_keys {r : KeyRange} (h : r.isEmptyRange = false) : r.a ∈ r.keys := by
  cases hb : r.hasB <;> simp_all [isEmptyRange]

theorem isEmptyRange_iff (r : KeyRange) : r.isEmptyRange = true ↔ r.keys = ∅ := by
  constructor
  · intro h
    simp only [isEmptyRange, Bool.and_eq_true, decide_eq_true_eq] at h
    ext k
    simp only [mem_keys, Set.mem_empty_iff_false, iff_false, not_and]
    intro hk hlt
    exact absurd (lt_of_lt_of_le (hlt h.1) (h.2.trans hk)) (lt_irrefl k)
  · intro h
    cases hr : r.isEmptyRange
    · simpa [h] using a_mem_keys hr
    · rfl

theorem contains_eq_true_iff (x y : KeyRange) :
    x.contains y = true ↔ x.a ≤ y.a ∧ (x.hasB = true → y.hasB = true ∧ y.b ≤ x.b) := by
  unfold contains
  by_cases hxa : y.a < x.a
  · simp [hxa]
  · cases hxb : x.hasB <;> cases hyb : y.hasB <;> simp [hxa, hxb, hyb, not_lt.mp hxa]

/-- A non-empty range lies inside `x` exactly when it starts no earlier and, if `x`
is bounded, is bounded too and ends no later. -/
theorem keys_subset_iff {x y : KeyRange} (hy : y.isEmptyRange = false) :
    y.keys ⊆ x.keys ↔ x.a ≤ y.a ∧ (x.hasB = true → y.hasB = true ∧ y.b ≤ x.b) := by
  constructor
  · intro hsub
    refine ⟨((mem_keys x y.a).1 (hsub (a_mem_keys hy))).1, fun hxb => ?_⟩
    by_contra hnot
    -- the first key of `y` at or past the end of `x`
    have hm : max y.a x.b ∈ y.keys := by
      refine (mem_keys y _).2 ⟨le_max_left _ _, fun hyb => max_lt ?_ ?_⟩
      · simpa [isEmptyRange, hyb] using hy
      · exact lt_of_not_le fun hle => hnot ⟨hyb, hle⟩
    exact absurd ((mem_keys x _).1 (hsub hm)).2 (by simp [hxb])
  · rintro ⟨hxa, hxb⟩ k hk
    rw [mem_keys] at hk ⊢
    exact ⟨hxa.trans hk.1, fun hx => lt_of_lt_of_le (hk.2 (hxb hx).1) (hxb hx).2⟩

/-- `key_range_t`'s predicates agree with the key sets they denote: a range is
empty exactly when it holds no key, and a non-empty range is contained in another
exactly when its keys are, whichever of the two ranges are bounded. -/
theorem predicates_exact (x y : KeyRange) :
    (y.isEmptyRange = true ↔ y.keys = ∅) ∧
      (y.isEmptyRange = false → (x.contains y = true ↔ y.keys ⊆ x.keys)) :=
  ⟨isEmptyRange_iff y, fun hy => (contains_eq_true_iff x y).trans (keys_subset_iff hy).symm⟩

theorem predicates_exact_nested :
    (⟨[2], true, [3]⟩ : KeyRange).isEmptyRange = false ∧
      ((⟨[1], true, [5]⟩ : KeyRange).contains ⟨[2], true, [3]⟩ = true ↔
        (⟨[2], true, [3]⟩ : KeyRange).keys ⊆ (⟨[1], true, [5]⟩ : KeyRange).keys) :=
  ⟨by decide, (predicates_exact ⟨[1], true, [5]⟩ ⟨[2], true, [3]⟩).2 (by decide)⟩

end KeyRange

/-! ## Finding the range that may hold a key -/

/-- `transaction::key_range_search_less_cmp`: whether `k` lies below the end of
`range`. As its comment warns, the first range it holds for need not start at or
below `k`. -/
def keyRangeSearchLessCmp (k : Key) (range : KeyRange) : Bool := !range.hasB || decide (k < range.b)

/-- The shape the absent-range set keeps: every range non-empty, and every range
but the last bounded and ending at or before the next one starts (so the ranges
are also sorted by their start and pairwise disjoint). -/
def ValidRangeSet : List KeyRange → Prop
  | [] => True
  | [r] => r.isEmptyRange = false
  | r :: s :: rest =>
      r.isEmptyRange = false ∧ (r.hasB = true ∧ r.b ≤ s.a) ∧ ValidRangeSet (s :: rest)

instance decidableValidRangeSet : DecidablePred ValidRangeSet
  | [] => isTrue trivial
  | [r] => inferInstanceAs (Decidable (r.isEmptyRange = false))
  | r :: s :: rest =>
      haveI := decidableValidRangeSet (s :: rest)
      inferInstanceAs
        (Decidable (r.isEmptyRange = false ∧ (r.hasB = true ∧ r.b ≤ s.a) ∧ ValidRangeSet (s :: rest)))

/-- `std::upper_bound(first, last, val, comp)` as libstdc++ runs it, on positions
`first .. first + len` of `xs`: halve the window, keep the left half when
`comp val middle` holds and the part right of `middle` otherwise. -/
def upperBoundFrom {α β : Type} (comp : α → β → Bool) (val : α) (xs : List β)
    (first len : Nat) : Nat :=
  if len = 0 then first
  else
    let half := len / 2
    let middle := first + half
    match xs[middle]? with
    | some x =>
        if comp val x then upperBoundFrom comp val xs first half
        else upperBoundFrom comp val xs (middle + 1) (len - half - 1)
    | none => first
termination_by len
decreasing_by all_goals omega

def upperBound {α β : Type} (comp : α → β → Bool) (val : α) (xs : List β) : Nat :=
  upperBoundFrom comp val xs 0 xs.length

section UpperBound

variable {α β : Type} {comp : α → β → Bool} {val : α} {xs : List β} {p : Nat}

/-- On a predicate that is false before `p` and true from `p` on, the search keeps
`p` inside its window and ends on it. -/
theorem upperBoundFrom_eq (hpart : ∀ j (hj : j < xs.length), comp val xs[j] = decide (p ≤ j))
    (first len : Nat) (hlo : first ≤ p) (hhi : p ≤ first + len) (hlen : first + len ≤ xs.length) :
    upperBoundFrom comp val xs first len = p := by
  induction len using Nat.strong_induction_on generalizing first with
  | _ len ih =>
      rw [upperBoundFrom]
      by_cases h0 : len = 0
      · simp only [h0, ite_true]
        omega
      · have hmid : first + len / 2 < xs.length := by omega
        simp only [h0, ite_false, List.getElem?_eq_getElem hmid, hpart _ hmid]
        by_cases hp : p ≤ first + len / 2
        · simp only [hp, decide_True, ite_true]
          exact ih _ (by omega) _ hlo hp (by omega)
        · simp only [hp, decide_False, Bool.false_eq_true, ite_false]
          exact ih _ (by omega) _ (by omega) (by omega) (by omega)

theorem upperBound_eq (hp : p ≤ xs.length)
    (hpart : ∀ j (hj : j < xs.length), comp val xs[j] = decide (p ≤ j)) :
    upperBound comp val xs = p :=
  upperBoundFrom_eq hpart 0 xs.length (Nat.zero_le _) (by simpa using hp) (by simp)

end UpperBound

namespace ValidRangeSet

theorem head {r : KeyRange} {rest : List KeyRange} (h : ValidRangeSet (r :: rest)) :
    r.isEmptyRange = false := by
  cases rest with
  | nil => exact h
  | cons _ _ => exact h.1

theorem tail {r : KeyRange} {rest : List KeyRange} (h : ValidRangeSet (r :: rest)) :
    ValidRangeSet rest := by
  cases rest with
  | nil => trivial
  | cons _ _ => exact h.2.2

theorem nonempty {rs : List KeyRange} (h : ValidRangeSet rs) : ∀ r ∈ rs, r.isEmptyRange = false := by
  induction rs with
  | nil => simp
  | cons r rest ih =>
      intro s hs
      rcases List.mem_cons.1 hs with rfl | hs
      · exact h.head
      · exact ih h.tail s hs

/-- In a valid set a range is bounded and ends at or before every later range starts. -/
theorem before_later {r : KeyRange} {rest : List KeyRange} (h : ValidRangeSet (r :: rest)) :
    ∀ s ∈ rest, r.hasB = true ∧ r.b ≤ s.a := by
  induction rest generalizing r with
  | nil => simp
  | cons s rest ih =>
      have hrs : r.hasB = true ∧ r.b ≤ s.a := h.2.1
      intro t ht
      rcases List.mem_cons.1 ht with rfl | ht
      · exact hrs
      · have hst := ih h.tail t ht
        have hs : s.a < s.b := by simpa [KeyRange.isEmptyRange, hst.1] using h.tail.head
        exact ⟨hrs.1, hrs.2.trans (hs.le.trans hst.2)⟩

theorem pairwise {rs : List KeyRange} (h : ValidRangeSet rs) :
    rs.Pairwise (fun r s => r.hasB = true ∧ r.b ≤ s.a) := by
  induction rs with
  | nil => exact .nil
  | cons r rest ih => exact .cons h.before_later (ih h.tail)

/-- The comparator is false on a prefix of a valid set and true on the rest. -/
theorem partitioned {rs : List KeyRange} (h : ValidRangeSet rs) (k : Key) :
    ∃ p ≤ rs.length, ∀ j (hj : j < rs.length), keyRangeSearchLessCmp k rs[j] = decide (p ≤ j) := by
  induction rs with
  | nil => exact ⟨0, le_refl _, fun j hj => absurd hj (Nat.not_lt_zero _)⟩
  | cons r rest ih =>
      by_cases hc : keyRangeSearchLessCmp k r = true
      · refine ⟨0, Nat.zero_le _, fun j hj => ?_⟩
        cases j with
        | zero => simpa using hc
        | succ j =>
            have hj' : j < rest.length := by simpa using hj
            have hrs := h.before_later _ (List.getElem_mem hj')
            have hs := h.tail.nonempty _ (List.getElem_mem hj')
            have hk : k < r.b := by simpa [keyRangeSearchLessCmp, hrs.1] using hc
            cases hb : rest[j].hasB <;>
              simp_all [keyRangeSearchLessCmp, KeyRange.isEmptyRange]
            exact lt_of_lt_of_le (lt_of_lt_of_le hk hrs.2) (le_of_lt hs)
      · obtain ⟨p, hp, hpart⟩ := ih h.tail
        refine ⟨p + 1, by simpa using hp, fun j hj => ?_⟩
        cases j with
        | zero => simpa using hc
        | succ j => simpa using hpart j (Nat.lt_of_succ_lt_succ hj)

end ValidRangeSet

/-- Searching a valid absent-range set with `key_range_search_less_cmp` decides
membership: the comparator is false on a prefix of the set and true on the rest,
`upper_bound` returns where the rest begins, and a key lies in some range of the
set exactly when that range exists and starts at or below the key. -/
theorem keyRangeSearch_exact (rs : List KeyRange) (hvalid : ValidRangeSet rs) (k : Key) :
    upperBound keyRangeSearchLessCmp k rs ≤ rs.length ∧
      (∀ j (hj : j < rs.length),
        keyRangeSearchLessCmp k rs[j] = decide (upperBound keyRangeSearchLessCmp k rs ≤ j)) ∧
      ((∃ r ∈ rs, r.keyInRange k = true) ↔
        ∃ R, rs[upperBound keyRangeSearchLessCmp k rs]? = some R ∧ R.a ≤ k) := by
  obtain ⟨p, hp, hpart⟩ := hvalid.partitioned k
  rw [upperBound_eq hp hpart]
  refine ⟨hp, hpart, ⟨?_, ?_⟩⟩
  · rintro ⟨r, hr, hk⟩
    obtain ⟨j, hj, rfl⟩ := List.mem_iff_getElem.1 hr
    have hin : keyRangeSearchLessCmp k rs[j] = true := by
      simp only [KeyRange.keyInRange, Bool.and_eq_true] at hk
      exact hk.2
    have hpj : p ≤ j := by simpa [hpart j hj] using hin
    have hja : rs[j].a ≤ k := by
      simp only [KeyRange.keyInRange, Bool.and_eq_true, decide_eq_true_eq] at hk
      exact hk.1
    rcases Nat.lt_or_eq_of_le hpj with hlt | rfl
    · have hbefore := List.pairwise_iff_getElem.1 hvalid.pairwise p j (by omega) hj hlt
      have hkp : k < rs[p].b := by
        simpa [keyRangeSearchLessCmp, hbefore.1] using hpart p (by omega)
      exact absurd (lt_of_lt_of_le hkp (hbefore.2.trans hja)) (lt_irrefl k)
    · exact ⟨rs[p], List.getElem?_eq_getElem hj, hja⟩
  · rintro ⟨R, hR, hRa⟩
    have hpl : p < rs.length := by
      by_contra hge
      simp [List.getElem?_eq_none (Nat.le_of_not_lt hge)] at hR
    rw [List.getElem?_eq_getElem hpl, Option.some.injEq] at hR
    subst hR
    refine ⟨rs[p], List.getElem_mem hpl, ?_⟩
    have hcmp := hpart p hpl
    simp only [le_refl, decide_True] at hcmp
    simpa [KeyRange.keyInRange, hRa, keyRangeSearchLessCmp] using hcmp

/-- In the set `[1, 3), [5, ∞)` the search for the key `2` stops at the first
range, which holds it; the search for `4`, which lies in no range, stops at
`[5, ∞)`, which starts above it. -/
theorem keyRangeSearch_exact_two_ranges :
    ValidRangeSet [⟨[1], true, [3]⟩, ⟨[5], false, []⟩] ∧
      upperBound keyRangeSearchLessCmp [2] [⟨[1], true, [3]⟩, ⟨[5], false, []⟩] ≤ 2 ∧
      (∃ R, ([⟨[1], true, [3]⟩, ⟨[5], false, []⟩] : List KeyRange)[upperBound keyRangeSearchLessCmp [2]
        [⟨[1], true, [3]⟩, ⟨[5], false, []⟩]]? = some R ∧ R.a ≤ [2]) ∧
      ¬ ∃ R, ([⟨[1], true, [3]⟩, ⟨[5], false, []⟩] : List KeyRange)[upperBound keyRangeSearchLessCmp [4]
        [⟨[1], true, [3]⟩, ⟨[5], false, []⟩]]? = some R ∧ R.a ≤ [4] :=
  have hvalid : ValidRangeSet [⟨[1], true, [3]⟩, ⟨[5], false, []⟩] := by decide
  have htwo := keyRangeSearch_exact _ hvalid [2]
  ⟨hvalid, htwo.1, htwo.2.2.1 ⟨_, List.mem_cons_self _ _, by decide⟩,
    fun hfound => absurd ((keyRangeSearch_exact _ hvalid [4]).2.2.2 hfound) (by decide)⟩

end Silo.AbsentRange
