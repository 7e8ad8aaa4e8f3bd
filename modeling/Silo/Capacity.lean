import Silo.Write

/-!
# Cell sizes

`alloc(version, r, sz, next, set_latest)` allocates
`round_up<16>(sizeof(logical_node) + sz)` bytes in `size_t`, and the constructor
stores `sz` and the payload capacity into the `uint32_t` fields `size` and
`alloc_size` with no check. The stores keep the sizes exactly when
`sz ≤ 2^32 - 16`: then `size = sz` and `sz ≤ alloc_size ≤ sz + 15`, and
`alloc_first(sz)` likewise gets `alloc_size ≥ sz`. At `sz = 2^32 - 15` the capacity
is `2^32`, so `alloc_size` wraps to 0 while `size` is still `sz`; at `sz = 2^32`
`size` wraps to 0 too, and the node reads back an empty record.
-/

namespace Silo.Capacity

open Silo.Node Silo.Write

/-- Modelled from the spec: the sizes a node holding an `sz`-byte record should
carry, a `size` of `sz` and a capacity of `sz` rounded up by less than 16. -/
def SizesHold (sz : BitVec 64) (n : LogicalNode) : Prop :=
  n.size.toNat = sz.toNat ∧ sz.toNat ≤ n.allocSize.toNat ∧ n.allocSize.toNat ≤ sz.toNat + 15

instance (sz : BitVec 64) (n : LogicalNode) : Decidable (SizesHold sz n) :=
  inferInstanceAs (Decidable (n.size.toNat = sz.toNat ∧ sz.toNat ≤ n.allocSize.toNat ∧
    n.allocSize.toNat ≤ sz.toNat + 15))

/-! ## The narrowing stores -/

section Stores

variable (sz : BitVec 64)

/-- The stored capacity covers the request exactly up to `2^32 - 16` bytes. -/
theorem le_allocCapacity_setWidth_iff :
    sz.toNat ≤ ((allocCapacity sz).setWidth 32).toNat ↔ sz.toNat ≤ 2 ^ 32 - 16 := by
  rw [BitVec.toNat_setWidth]
  by_cases h : sz.toNat ≤ 2 ^ 64 - 48
  · rw [allocCapacity_toNat_of_le h]
    omega
  · -- the stored field is below `2^32`, far below the request
    have := Nat.mod_lt (allocCapacity sz).toNat (by decide : 0 < 2 ^ 32)
    omega

/-- A request that fits leaves less than 16 bytes of slack. -/
theorem allocCapacity_setWidth_le (h : sz.toNat ≤ 2 ^ 32 - 16) :
    ((allocCapacity sz).setWidth 32).toNat ≤ sz.toNat + 15 := by
  rw [BitVec.toNat_setWidth, allocCapacity_toNat_of_le (by omega)]
  omega

/-- The stored `size` is the request exactly below `2^32`. -/
theorem setWidth_toNat_eq_iff : (sz.setWidth 32).toNat = sz.toNat ↔ sz.toNat < 2 ^ 32 := by
  rw [BitVec.toNat_setWidth]
  exact ⟨fun h => h ▸ Nat.mod_lt _ (by decide), Nat.mod_eq_of_lt⟩

end Stores

/-! ## What `alloc` and `alloc_first` store -/

/-- The node `alloc` appends carries the sizes of its request exactly when the
request is at most `2^32 - 16` bytes. -/
theorem alloc_sizes_iff (heap : Heap) (version : Tid) (value : List UInt8) (sz : BitVec 64)
    (next : Option Ptr) (latest : Bool) :
    ∃ m, (alloc heap version value sz next latest).1 = heap ++ [m] ∧
      (SizesHold sz m ↔ sz.toNat ≤ 2 ^ 32 - 16) := by
  refine ⟨LogicalNode.ofRecord version value sz (allocCapacity sz) next latest, by rw [alloc_eq], ?_⟩
  rw [SizesHold, LogicalNode.ofRecord_size, LogicalNode.ofRecord_allocSize, setWidth_toNat_eq_iff,
    le_allocCapacity_setWidth_iff]
  constructor
  · exact fun h => h.2.1
  · intro h
    exact ⟨by omega, h, allocCapacity_setWidth_le sz h⟩

/-- The first node of a chain gets a capacity of at least its request exactly when
the request is at most `2^32 - 16` bytes. -/
theorem allocFirst_capacity_iff (heap : Heap) (sz : BitVec 64) :
    ∃ m, (allocFirst heap sz).1 = heap ++ [m] ∧
      (sz.toNat ≤ m.allocSize.toNat ↔ sz.toNat ≤ 2 ^ 32 - 16) :=
  ⟨_, rfl, by rw [LogicalNode.first_allocSize]; exact le_allocCapacity_setWidth_iff sz⟩

/-- Past `2^32 - 16` bytes the stores wrap: a request of `2^32 - 15` bytes gets a
`size` of `2^32 - 15` and an `alloc_size` of 0, and one of `2^32` bytes gets a
`size` of 0, so its node reads back an empty record. -/
theorem alloc_sizes_wrap (heap : Heap) (version : Tid) (value : List UInt8) (next : Option Ptr)
    (latest : Bool) :
    (∃ m, (alloc heap version value (BitVec.ofNat 64 (2 ^ 32 - 15)) next latest).1 = heap ++ [m] ∧
        m.size.toNat = 2 ^ 32 - 15 ∧ m.allocSize.toNat = 0) ∧
      (∃ m, (alloc heap version value (BitVec.ofNat 64 (2 ^ 32)) next latest).1 = heap ++ [m] ∧
        m.size.toNat = 0 ∧ m.record = []) :=
  ⟨⟨_, rfl, rfl, rfl⟩, ⟨_, rfl, rfl, rfl⟩⟩

end Silo.Capacity
