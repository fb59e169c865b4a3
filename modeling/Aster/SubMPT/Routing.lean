import Aster.Core.Transaction

/-!
# Routing transactions to followers

`SchedulingTxs` of the proposer sends a transaction to the followers that own its sender and
its recipient, where the owner of an address is its first hexadecimal digit modulo the number
of followers.  One goroutine per transaction appends it to `allocMap` under a lock, so the
lists come out in the order in which the goroutines take the lock.

`allocTxs_eq` says what the map holds: each follower's list is the subsequence, in that order,
of the transactions routed to it.
-/

namespace Aster.SubMPT

open Aster.Core

/-- `strconv.ParseInt` in base 16 on a one-character string. -/
def hexDigit (c : Char) : Option ℕ :=
  if '0' ≤ c ∧ c ≤ '9' then some (c.toNat - '0'.toNat)
  else if 'a' ≤ c ∧ c ≤ 'f' then some (c.toNat - 'a'.toNat + 10)
  else if 'A' ≤ c ∧ c ≤ 'F' then some (c.toNat - 'A'.toNat + 10)
  else none

/-- The first character of an address, parsed as a hexadecimal digit. -/
def leadingDigit (a : Address) : Option ℕ := a.toList.head?.bind hexDigit

/-- What parsing the one-character prefixes of a transaction's two addresses can give. -/
inductive Prefixes where
  /-- An address is empty, so slicing off its first character panics. -/
  | outOfRange
  /-- A prefix is not a hexadecimal digit. -/
  | syntaxError
  | digits (dec1 dec2 : ℕ)
  deriving DecidableEq

/-- Both slices are taken before the first parse. -/
def prefixes (tx : Transaction) : Prefixes :=
  if tx.sender = "" ∨ tx.recipient = "" then .outOfRange
  else
    match leadingDigit tx.sender, leadingDigit tx.recipient with
    | some dec1, some dec2 => .digits dec1 dec2
    | _, _ => .syntaxError

/-- Both addresses start with a hexadecimal digit. -/
def HexLeading (tx : Transaction) : Prop :=
  (leadingDigit tx.sender).isSome ∧ (leadingDigit tx.recipient).isSome

instance (tx : Transaction) : Decidable (HexLeading tx) := inferInstanceAs (Decidable (_ ∧ _))

theorem leadingDigit_empty : leadingDigit "" = none := rfl

theorem prefixes_of_hexLeading (tx : Transaction) (h : HexLeading tx) :
    ∃ dec1 dec2, leadingDigit tx.sender = some dec1 ∧ leadingDigit tx.recipient = some dec2 ∧
      prefixes tx = .digits dec1 dec2 := by
  obtain ⟨dec1, h1⟩ := Option.isSome_iff_exists.mp h.1
  obtain ⟨dec2, h2⟩ := Option.isSome_iff_exists.mp h.2
  refine ⟨dec1, dec2, h1, h2, ?_⟩
  have hne : ¬ (tx.sender = "" ∨ tx.recipient = "") := by
    rintro (he | he)
    · rw [he, leadingDigit_empty] at h1
      cases h1
    · rw [he, leadingDigit_empty] at h2
      cases h2
  rw [prefixes, if_neg hne, h1, h2]

theorem prefixes_eq_digits (tx : Transaction) (dec1 dec2 : ℕ)
    (h : prefixes tx = .digits dec1 dec2) :
    leadingDigit tx.sender = some dec1 ∧ leadingDigit tx.recipient = some dec2 := by
  unfold prefixes at h
  split_ifs at h
  split at h
  · rename_i h1 h2
    simp only [Prefixes.digits.injEq] at h
    exact ⟨by rw [h1, h.1], by rw [h2, h.2]⟩
  · cases h

/-- The follower that owns an address when there are `num` of them. -/
def owner (num : ℕ) (a : Address) : Option ℕ := (leadingDigit a).map (· % num)

theorem owner_lt {num : ℕ} (hnum : 0 < num) {a : Address} {i : ℕ} (h : owner num a = some i) :
    i < num := by
  obtain ⟨d, _, rfl⟩ := Option.map_eq_some_iff.mp h
  exact Nat.mod_lt d hnum

/-! ### The allocation map -/

abbrev AllocMap := ℕ → List Transaction

/-- The body of the goroutine that sorts one transaction, with `num` the length of
`FollowerIDs`.  The result is `none` when the process panics. -/
def allocStep (num : ℕ) (allocMap : AllocMap) (tx : Transaction) : Option AllocMap :=
  match prefixes tx with
  | .outOfRange => none
  | .syntaxError => some allocMap
  | .digits dec1 dec2 =>
    if num = 0 then none
    else
      let destId1 := dec1 % num
      let destId2 := dec2 % num
      if destId1 = destId2 then
        some (Function.update allocMap destId1 (allocMap destId1 ++ [tx]))
      else
        let once := Function.update allocMap destId1 (allocMap destId1 ++ [tx])
        some (Function.update once destId2 (once destId2 ++ [tx]))

/-- All goroutines, in the order in which they take `allocMapLock`. -/
def allocTxs (num : ℕ) (order : List Transaction) : Option AllocMap :=
  order.foldlM (allocStep num) fun _ => []

/-- Whether the proposer puts `tx` into the list of follower `fid`. -/
def routedTo (num fid : ℕ) (tx : Transaction) : Bool :=
  match prefixes tx with
  | .digits dec1 dec2 => decide (dec1 % num = fid ∨ dec2 % num = fid)
  | _ => false

theorem allocStep_eq (num : ℕ) (hnum : num ≠ 0) (allocMap : AllocMap) (tx : Transaction)
    (htx : prefixes tx ≠ .outOfRange) :
    allocStep num allocMap tx =
      some fun fid => allocMap fid ++ if routedTo num fid tx then [tx] else [] := by
  unfold allocStep routedTo
  cases hp : prefixes tx with
  | outOfRange => exact absurd hp htx
  | syntaxError => simp
  | digits dec1 dec2 =>
    simp only [if_neg hnum, decide_eq_true_eq]
    split_ifs with he
    · congr 1
      funext fid
      by_cases hf : fid = dec1 % num
      · subst hf
        simp
      · have h1 : dec1 % num ≠ fid := fun h => hf h.symm
        have h2 : dec2 % num ≠ fid := fun h => h1 (he.trans h)
        simp [Function.update_of_ne hf, h1, h2]
    · congr 1
      funext fid
      by_cases hf2 : fid = dec2 % num
      · subst hf2
        simp [Function.update_of_ne (Ne.symm he)]
      · by_cases hf1 : fid = dec1 % num
        · subst hf1
          simp [Function.update_of_ne hf2]
        · have h1 : dec1 % num ≠ fid := fun h => hf1 h.symm
          have h2 : dec2 % num ≠ fid := fun h => hf2 h.symm
          simp [Function.update_of_ne hf1, Function.update_of_ne hf2, h1, h2]

theorem allocTxs_from (num : ℕ) (hnum : num ≠ 0) (order : List Transaction)
    (horder : ∀ tx ∈ order, prefixes tx ≠ .outOfRange) (allocMap : AllocMap) :
    order.foldlM (allocStep num) allocMap =
      some fun fid => allocMap fid ++ order.filter (routedTo num fid) := by
  induction order generalizing allocMap with
  | nil => simp
  | cons tx txs ih =>
    have htx := horder tx List.mem_cons_self
    have htxs : ∀ u ∈ txs, prefixes u ≠ .outOfRange :=
      fun u hu => horder u (List.mem_cons_of_mem tx hu)
    rw [List.foldlM_cons, allocStep_eq num hnum allocMap tx htx, Option.bind_eq_bind,
      Option.bind_some, ih htxs]
    congr 1
    funext fid
    rw [List.append_assoc]
    congr 1
    cases h : routedTo num fid tx <;> simp [h]

/-- **The allocation map.**  Each follower gets the transactions routed to it, in the order of
the goroutines. -/
theorem allocTxs_eq (num : ℕ) (hnum : num ≠ 0) (order : List Transaction)
    (horder : ∀ tx ∈ order, prefixes tx ≠ .outOfRange) :
    allocTxs num order = some fun fid => order.filter (routedTo num fid) := by
  rw [allocTxs, allocTxs_from num hnum order horder]
  rfl

/-- The goroutines only run through when no prefix panics, so a map that came out is that
map. -/
theorem allocTxs_some {num : ℕ} (hnum : num ≠ 0) {order : List Transaction}
    {allocMap : AllocMap} (h : allocTxs num order = some allocMap) :
    allocMap = fun fid => order.filter (routedTo num fid) := by
  have hall : ∀ tx ∈ order, prefixes tx ≠ .outOfRange := by
    intro tx htx hp
    obtain ⟨pre, post, rfl⟩ := List.append_of_mem htx
    rw [allocTxs, List.foldlM_append] at h
    obtain ⟨m, -, hm⟩ := Option.bind_eq_some_iff.mp h
    rw [List.foldlM_cons, allocStep, hp] at hm
    cases hm
  rw [allocTxs_eq num hnum order hall] at h
  exact (Option.some.inj h).symm

theorem hexLeading_of_routedTo {num fid : ℕ} {tx : Transaction}
    (h : routedTo num fid tx = true) : HexLeading tx := by
  unfold routedTo at h
  split at h
  · rename_i dec1 dec2 hp
    obtain ⟨h1, h2⟩ := prefixes_eq_digits tx dec1 dec2 hp
    exact ⟨by rw [h1]; rfl, by rw [h2]; rfl⟩
  · cases h

theorem prefixes_ne_outOfRange {tx : Transaction} (h : HexLeading tx) :
    prefixes tx ≠ .outOfRange := by
  obtain ⟨dec1, dec2, -, -, hp⟩ := prefixes_of_hexLeading tx h
  rw [hp]
  exact nofun

/-- Routing and ownership agree: a transaction goes to the owners of its two addresses. -/
theorem routedTo_iff (num fid : ℕ) (tx : Transaction) (h : HexLeading tx) :
    routedTo num fid tx = true ↔
      owner num tx.sender = some fid ∨ owner num tx.recipient = some fid := by
  obtain ⟨dec1, dec2, h1, h2, hp⟩ := prefixes_of_hexLeading tx h
  simp [routedTo, hp, owner, h1, h2]

end Aster.SubMPT
