import Aster.Broker.Committee
import Aster.Clpa.Populations

/-!
# The shard of an address

`Addr2Shard` reads the last sixteen digits of an address as a `uint64`, converts it to an `int` and
takes the remainder of Go, which has the sign of the dividend.  From 2^63 on the `int` is negative,
and so is its remainder unless it is zero; as a `uint64` this is a number near 2^64.

**`default_shard_iff`**: what `Addr2Shard`, `Get_PartitionMap`, `fetchModifiedMap` and `AddVertex`
make of an address, by the sign of its last digits.
-/

namespace Aster.Clpa

open Aster.Core Aster.Chain Aster.Broker Aster.Lib.Containers

/-- The last sixteen digits of an address, as the `int` of which the remainder is taken. -/
def lastDigits (addr : Address) : Option ℤ :=
  (parseUint (addr.toList.drop (addr.length - 16))).map toInt

/-- The digits give a shard: they are not negative as an `int`, or they leave no remainder. -/
def GivesShard (shardNum : ℕ) (num : ℤ) : Prop := 0 ≤ num ∨ (shardNum : ℤ) ∣ num

variable {shardNum : ℕ} {addr : Address}

theorem addr2Shard_of_lastDigits (hpos : 1 ≤ shardNum) {num : ℤ}
    (hnum : lastDigits addr = some num) : addr2Shard shardNum addr = some (num.tmod shardNum) := by
  obtain ⟨n, hn, rfl⟩ := Option.map_eq_some_iff.mp hnum
  rw [addr2Shard, hn, Option.bind_eq_bind, Option.bind_some, if_neg (by omega)]

/-- The remainder of Go is in range when it is not negative. -/
theorem tmod_inRange_iff (hpos : 1 ≤ shardNum) (num : ℤ) :
    (0 ≤ num.tmod shardNum ∧ num.tmod shardNum < shardNum) ↔ GivesShard shardNum num := by
  have hlt : num.tmod shardNum < shardNum := Int.tmod_lt_of_pos num (by omega)
  rw [and_iff_left hlt, GivesShard]
  rcases Int.le_total 0 num with hnum | hnum
  · exact iff_of_true (Int.tmod_nonneg _ hnum) (.inl hnum)
  · -- the remainder of a negative number is that of its opposite, with a minus
    have hneg : num.tmod shardNum = -((-num).tmod shardNum) := by rw [Int.neg_tmod, neg_neg]
    have hrem : 0 ≤ (-num).tmod shardNum := Int.tmod_nonneg _ (by omega)
    rw [Int.dvd_iff_tmod_eq_zero]
    constructor
    · exact fun h => .inr (by omega)
    · rintro (h | h)
      · exact Int.tmod_nonneg _ h
      · exact h.ge

/-- A negative remainder is not the number of a shard as a `uint64` either. -/
theorem toNat_ofInt_lt_iff (hint : shardNum < 2 ^ 63) {k : ℤ} (hlow : -(shardNum : ℤ) < k)
    (hlt : k < shardNum) : (UInt64.ofInt k).toNat < shardNum ↔ 0 ≤ k ∧ k < shardNum := by
  have htoNat : (UInt64.ofInt k).toNat = (k % 2 ^ 64).toNat := by
    rw [UInt64.ofInt]
    refine UInt64.toNat_ofNat_of_lt' ?_
    show (k % 2 ^ 64).toNat < 2 ^ 64
    omega
  rw [htoNat]
  constructor
  · intro h
    refine ⟨?_, hlt⟩
    by_contra hneg
    have hmod : k % 2 ^ 64 = k + 2 ^ 64 := by omega
    omega
  · intro h
    have hmod : k % 2 ^ 64 = k := Int.emod_eq_of_lt h.1 (by omega)
    omega

theorem getPartitionMap_default (hpos : 1 ≤ shardNum) (hint : shardNum < 2 ^ 63) {num : ℤ}
    (hnum : lastDigits addr = some num) {pm : PartitionMap} (hpm : addr ∉ pm) :
    ∃ w, getPartitionMap shardNum pm addr = some w ∧
      (w.toNat < shardNum ↔ GivesShard shardNum num) := by
  refine ⟨UInt64.ofInt (num.tmod shardNum), ?_, ?_⟩
  · rw [getPartitionMap, Finmap.lookup_eq_none.mpr hpm]
    show (addr2Shard shardNum addr).map _ = _
    rw [addr2Shard_of_lastDigits hpos hnum]
    rfl
  · rw [toNat_ofInt_lt_iff hint (Int.lt_tmod_of_pos num (by omega))
      (Int.tmod_lt_of_pos num (by omega)), tmod_inRange_iff hpos]

/-- `AddVertex` counts the vertex in the shard of its address. -/
theorem addVertex_default (hpos : 1 ≤ shardNum) {num : ℤ} (hnum : lastDigits addr = some num)
    {cs : CLPAState} (hlen : cs.vertexsNumInShard.length = shardNum)
    (hcs : addr ∉ cs.partitionMap) :
    (cs.addVertex shardNum addr).isSome ↔ GivesShard shardNum num := by
  rw [← tmod_inRange_iff hpos, ← hlen, ← modifyAt_isSome_iff (· + 1), CLPAState.addVertex,
    CLPAState.initialShard, Finmap.lookup_eq_none.mpr hcs, hlen]
  show ((addr2Shard shardNum addr).bind _).isSome ↔ _
  rw [addr2Shard_of_lastDigits hpos hnum, Option.bind_some]
  cases modifyAt (· + 1) cs.vertexsNumInShard (num.tmod shardNum) <;> simp

/-- **The default shard of an address.**  Every hexadecimal address that is not empty gets one
from `Addr2Shard`.  It is below `ShardNum`, in `Get_PartitionMap` and `fetchModifiedMap` as well,
and `AddVertex` can count the vertex, exactly when the last sixteen digits are below 2^63 or are a
multiple of `ShardNum` as a negative `int`. -/
theorem default_shard_iff (hne : addr ≠ "") (hhex : ∀ c ∈ addr.toList, (hexVal c).isSome)
    (hpos : 1 ≤ shardNum) (hint : shardNum < 2 ^ 63) :
    ∃ num shard, lastDigits addr = some num ∧ addr2Shard shardNum addr = some shard ∧
      (0 ≤ shard ∧ shard < shardNum ↔ GivesShard shardNum num) ∧
      (∀ pm, addr ∉ pm → ∃ w, getPartitionMap shardNum pm addr = some w ∧
        (w.toNat < shardNum ↔ GivesShard shardNum num)) ∧
      (∀ (cfg : Config) modifiedMap, cfg.shardNum = shardNum → addr ∉ modifiedMap →
        ∃ w, fetchModifiedMap cfg modifiedMap addr = some w ∧
          (w.toNat < shardNum ↔ GivesShard shardNum num)) ∧
      ∀ cs : CLPAState, cs.vertexsNumInShard.length = shardNum → addr ∉ cs.partitionMap →
        ((cs.addVertex shardNum addr).isSome ↔ GivesShard shardNum num) := by
  have hdigits : addr.toList.drop (addr.length - 16) ≠ [] := by
    have hlen : 0 < addr.toList.length := by
      rw [List.length_pos_iff]
      exact fun h => hne (String.toList_eq_nil_iff.mp h)
    rw [← List.length_pos_iff, List.length_drop]
    rw [String.length_toList] at hlen ⊢
    omega
  obtain ⟨n, hn⟩ := Option.isSome_iff_exists.mp
    (parseUint_isSome hdigits fun c hc => hhex c (List.mem_of_mem_drop hc))
  have hnum : lastDigits addr = some (toInt n) := by
    rw [lastDigits, hn]
    rfl
  refine ⟨toInt n, _, hnum, addr2Shard_of_lastDigits hpos hnum, tmod_inRange_iff hpos _,
    fun pm hpm => getPartitionMap_default hpos hint hnum hpm, ?_,
    fun cs hlen hcs => addVertex_default hpos hnum hlen hcs⟩
  intro cfg modifiedMap hcfg hmap
  rw [fetchModifiedMap, hcfg]
  exact getPartitionMap_default hpos hint hnum hmap

/-- An address whose last digits are just below 2^63. -/
theorem default_shard_iff_short :
    ∃ shard, addr2Shard 4 "c7fffffffffffffff" = some shard ∧ 0 ≤ shard ∧ shard < 4 := by
  have hhex : ∀ c ∈ "c7fffffffffffffff".toList, (hexVal c).isSome := by
    rw [← List.all_eq_true]
    decide +kernel
  have hne : "c7fffffffffffffff" ≠ "" := by decide +kernel
  obtain ⟨num, shard, hnum, hshard, hiff, -⟩ :=
    default_shard_iff hne hhex (show 1 ≤ 4 by decide) (by decide)
  have hdigits : lastDigits "c7fffffffffffffff" = some (2 ^ 63 - 1) := by decide +kernel
  rw [hdigits] at hnum
  obtain rfl := Option.some.inj hnum
  exact ⟨shard, hshard, hiff.mpr (.inl (by decide))⟩

/-- Sixteen digits that start with `8`: the remainder is negative, the `uint64` is near 2^64, and
`AddVertex` panics. -/
theorem default_shard_negative :
    addr2Shard 3 "8000000000000000" = some (-2) ∧
      getPartitionMap 3 ∅ "8000000000000000" = some 18446744073709551614 ∧
      (initCLPAState 3).addVertex 3 "8000000000000000" = none := by
  refine ⟨by decide +kernel, by decide +kernel, ?_⟩
  rw [← Option.not_isSome_iff_eq_none]
  decide +kernel

end Aster.Clpa
