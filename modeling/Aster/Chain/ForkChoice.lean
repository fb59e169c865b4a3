import Aster.Chain.ForkJudges

/-!
# Fork choice

Blocks over one head `P` that reach a node are given to `AddBlock`, and to
`JudgeForkValid_RollBack` if that refuses them.  The first one is appended; each later one replaces
the block over `P` or is refused.

* `Chosen.deliver`: the block over `P` after one more delivery is the one with the smaller hash;
* **`fork_choice_iff`**: in all orders the block with the smallest hash is chosen and the chain up
  to `P` stays, exactly if all hashes are accepted by the store and none of them is the hash of a
  block up to `P`.
-/

namespace Aster.Chain

open Aster.Core Aster.Lib.ParentChain

/-- A block from another node. -/
def deliver (bc : BlockChain) (b : Block) : Option BlockChain := do
  let (bc, ok) ← addBlock bc b
  if ok then some bc else (judgeForkValidRollBack bc b).map (·.1)

def deliverAll (bc : BlockChain) (order : List Block) : Option BlockChain :=
  order.foldlM deliver bc

variable {bc bc' : BlockChain} {g P b : Block} {bs order : List Block}

/-- The block competes for the place over `P`. -/
def Over (P b : Block) : Prop :=
  height b = height P + 1 ∧ b.header.parentBlockHash = P.hash

/-- The store accepts the hash, and no block up to `P` has it. -/
def Harmless (bs : List Block) (b : Block) : Prop :=
  validKey b.hash = true ∧ ∀ c ∈ bs, c.hash ≠ b.hash

/-- The chain has the block `m` over the chain `bs` up to `P`. -/
def Chosen (g : Block) (bs : List Block) (bc : BlockChain) (m : Block) : Prop :=
  bc.currentBlock = m ∧ IsChain bc g (m :: bs)

theorem Over.number_ne_zero (h : Over P b) : b.header.number ≠ 0 := by
  intro hzero
  have hb : height b = 0 := congrArg UInt64.toNat hzero
  have := h.1
  omega

/-- The first block is appended. -/
theorem deliver_first (hchain : IsChain bc g bs) (hover : Over bc.currentBlock b)
    (hharm : Harmless bs b) : ∃ bc', deliver bc b = some bc' ∧ Chosen g bs bc' b := by
  have hnum := number_eq_succ hover.1
  refine ⟨⟨b, bc.storage.addBlock b⟩, ?_, rfl,
    hchain.push hnum hover.2 hharm.2 hover.number_ne_zero⟩
  rw [deliver, addBlock_of_fits hnum hover.2, if_pos hharm.1]
  rfl

theorem addBlock_refused (h : b.header.number ≠ bc.currentBlock.header.number + 1) :
    addBlock bc b = some (bc, false) := by
  simp only [addBlock, BlockChain.addBlock, ne_eq, h, not_false_eq_true, if_true,
    Bool.false_eq_true, false_and, if_false]

/-- A later block replaces the chosen one if its hash is smaller, and is refused otherwise. -/
theorem Chosen.deliver {m : Block} (h : Chosen g bs bc m) (hP : bs.head? = some P)
    (hm : Over P m) (hover : Over P b) (hharm : Harmless bs b) :
    ∃ bc', deliver bc b = some bc' ∧ Chosen g bs bc' (if m.hash ≤ b.hash then m else b) := by
  obtain ⟨hcur, hchain⟩ := h
  have hsame : height b = height bc.currentBlock := by rw [hcur, hover.1, hm.1]
  have hnum : b.header.number ≠ bc.currentBlock.header.number + 1 := by
    rw [UInt64.toNat_inj.mp hsame]
    intro heq
    have hwrap := congrArg UInt64.toNat heq
    have hlt := bc.currentBlock.header.number.toNat_lt
    rw [UInt64.toNat_add, UInt64.toNat_one] at hwrap
    omega
  have hanc : ancestor bc (height bc.currentBlock - height b) = some m := by
    rw [hsame, Nat.sub_self]
    exact hchain.ancestor_eq rfl
  have htakes : Takes bc b ↔ b.hash < m.hash := by
    constructor
    · rintro ⟨-, -, c, hc, -, hlt⟩
      cases hanc.symm.trans hc
      exact hlt
    · intro hlt
      exact ⟨hover.number_ne_zero, hsame.le, m, hanc, hover.2.trans hm.2.symm, hlt⟩
  have hjudge := judge_of_ancestor hover.number_ne_zero hsame.le hanc
  have hdeliver : Chain.deliver bc b = (judgeForkValidRollBack bc b).map (·.1) := by
    rw [Chain.deliver, addBlock_refused hnum]
    rfl
  rw [hdeliver, hjudge]
  rcases hchain.rollBack_eq hover.number_ne_zero hsame.le hanc with ⟨htaken, hroll⟩ | ⟨hno, hroll⟩
  · rw [hroll, if_pos hharm.1, if_neg (List.not_le.mpr (htakes.mp htaken))]
    have hbelow : IsChain ⟨P, bc.storage⟩ g bs := by
      have hget : (m :: bs)[1]? = some P := by
        rw [List.getElem?_cons_succ, ← List.head?_eq_getElem?]
        exact hP
      exact hchain.drop hget
    exact ⟨_, rfl, rfl, hbelow.push (number_eq_succ hover.1) hover.2 hharm.2 hover.number_ne_zero⟩
  · rw [hroll, if_pos (List.not_lt.mp (mt htakes.mpr hno))]
    exact ⟨bc, rfl, hcur, hchain⟩

/-- **All later blocks**: the chosen block has the smallest hash. -/
theorem Chosen.deliverAll {m : Block} (h : Chosen g bs bc m) (hP : bs.head? = some P)
    (hm : Over P m) (hall : ∀ b ∈ order, Over P b ∧ Harmless bs b) :
    ∃ bc' m', deliverAll bc order = some bc' ∧ Chosen g bs bc' m' ∧ m' ∈ m :: order ∧
      ∀ x ∈ m :: order, m'.hash ≤ x.hash := by
  induction order generalizing bc m with
  | nil =>
    refine ⟨bc, m, rfl, h, List.mem_cons_self, fun x hx => ?_⟩
    rw [List.mem_singleton.mp hx]
    exact List.le_refl _
  | cons b order ih =>
    rw [List.forall_mem_cons] at hall
    obtain ⟨⟨hover, hharm⟩, hrest⟩ := hall
    obtain ⟨bc₁, hbc₁, hchosen⟩ := h.deliver hP hm hover hharm
    have hnext : Over P (if m.hash ≤ b.hash then m else b) := by
      split_ifs
      · exact hm
      · exact hover
    obtain ⟨bc', m', hdeliver, hchosen', hmem, hmin⟩ := ih hchosen hnext hrest
    have hle : m'.hash ≤ (if m.hash ≤ b.hash then m else b).hash := hmin _ List.mem_cons_self
    refine ⟨bc', m', ?_, hchosen', ?_, ?_⟩
    · rw [Chain.deliverAll, List.foldlM_cons, hbc₁]
      exact hdeliver
    · split_ifs at hmem with hsmaller
      · rcases List.mem_cons.mp hmem with rfl | hmem
        · exact List.mem_cons_self
        · exact List.mem_cons_of_mem _ (List.mem_cons_of_mem _ hmem)
      · exact List.mem_cons_of_mem _ hmem
    · intro x hx
      rcases List.mem_cons.mp hx with rfl | hx
      · split_ifs at hle with hsmaller
        · exact hle
        · exact List.le_trans hle (List.le_of_lt (List.not_le.mp hsmaller))
      · rcases List.mem_cons.mp hx with rfl | hx
        · split_ifs at hle with hsmaller
          · exact List.le_trans hle hsmaller
          · exact hle
        · exact hmin x (List.mem_cons_of_mem _ hx)

/-! ### Hashes that do harm -/

theorem judge_storage {ok : Bool} (h : judgeForkValidRollBack bc b = some (bc', ok)) :
    bc'.storage = bc.storage ∨ bc'.storage = bc.storage.addBlock b := by
  rcases judge_cases h with ⟨rfl, -⟩ | ⟨-, -, c, p, ok', -, -, -, hadd⟩
  · exact .inl rfl
  · rcases addBlock_cases hadd with ⟨rfl, -⟩ | ⟨-, rfl, -⟩
    · exact .inl rfl
    · exact .inr rfl

/-- A delivery writes under the hash of its block only. -/
theorem deliver_getBlock (h : deliver bc b = some bc') {k : Hash} (hk : k ≠ b.hash) :
    getBlock bc'.storage k = getBlock bc.storage k := by
  have hstorage : bc'.storage = bc.storage ∨ bc'.storage = bc.storage.addBlock b := by
    obtain ⟨⟨bc₁, ok⟩, hadd, h⟩ := Option.bind_eq_some_iff.mp h
    rcases addBlock_cases hadd with ⟨rfl, rfl, -⟩ | ⟨rfl, rfl, -⟩
    · obtain ⟨⟨bc₂, ok'⟩, hjudge, rfl⟩ := Option.map_eq_some_iff.mp h
      exact judge_storage hjudge
    · cases h
      exact .inr rfl
  rcases hstorage with heq | heq
  · rw [heq]
  · rw [heq, getBlock_addBlock_of_ne _ b hk]

theorem deliverAll_getBlock (h : deliverAll bc order = some bc') {k : Hash}
    (hk : ∀ b ∈ order, k ≠ b.hash) : getBlock bc'.storage k = getBlock bc.storage k := by
  induction order generalizing bc with
  | nil =>
    cases h
    rfl
  | cons b order ih =>
    rw [List.forall_mem_cons] at hk
    rw [deliverAll, List.foldlM_cons] at h
    obtain ⟨bc₁, hbc₁, hrest⟩ := Option.bind_eq_some_iff.mp h
    rw [ih hrest hk.2, deliver_getBlock hbc₁ hk.1]

theorem exists_smallest (b : Block) (order : List Block) :
    ∃ m ∈ b :: order, ∀ x ∈ b :: order, m.hash ≤ x.hash := by
  induction order generalizing b with
  | nil =>
    refine ⟨b, List.mem_cons_self, fun x hx => ?_⟩
    rw [List.mem_singleton.mp hx]
    exact List.le_refl _
  | cons c order ih =>
    obtain ⟨m, hm, hmin⟩ := ih c
    rcases List.le_total b.hash m.hash with hle | hle
    · refine ⟨b, List.mem_cons_self, fun x hx => ?_⟩
      rcases List.mem_cons.mp hx with rfl | hx
      · exact List.le_refl _
      · exact List.le_trans hle (hmin x hx)
    · refine ⟨m, List.mem_cons_of_mem b hm, fun x hx => ?_⟩
      rcases List.mem_cons.mp hx with rfl | hx
      · exact hle
      · exact hmin x hx

/-! ### Every order -/

/-- The deliveries end, with the block of smallest hash over the chain `bs`. -/
def EndsWithSmallest (g : Block) (bs : List Block) (bc : BlockChain) (order : List Block) : Prop :=
  ∃ bc', deliverAll bc order = some bc' ∧
    ∀ m ∈ order, (∀ x ∈ order, m.hash ≤ x.hash) → Chosen g bs bc' m

theorem endsWithSmallest_of_harmless (hchain : IsChain bc g bs)
    (hover : ∀ b ∈ order, Over bc.currentBlock b)
    (hdistinct : (order.map Block.hash).Nodup) (hharm : ∀ b ∈ order, Harmless bs b) :
    EndsWithSmallest g bs bc order := by
  cases order with
  | nil => exact ⟨bc, rfl, fun m hm => absurd hm List.not_mem_nil⟩
  | cons b order =>
    rw [List.forall_mem_cons] at hover hharm
    obtain ⟨bc₁, hbc₁, hchosen⟩ := deliver_first hchain hover.1 hharm.1
    obtain ⟨bc', m', hdeliver, hchosen', hmem, hmin⟩ := hchosen.deliverAll hchain.head hover.1
      fun x hx => ⟨hover.2 x hx, hharm.2 x hx⟩
    refine ⟨bc', ?_, fun m hm hsmallest => ?_⟩
    · rw [deliverAll, List.foldlM_cons, hbc₁]
      exact hdeliver
    · have hhash : m.hash = m'.hash := List.le_antisymm (hsmallest m' hmem) (hmin m hm)
      rw [List.inj_on_of_nodup_map hdistinct hm hmem hhash]
      exact hchosen'

theorem harmless_of_endsWithSmallest (hchain : IsChain bc g bs)
    (hover : Over bc.currentBlock b) (hdistinct : ((b :: order).map Block.hash).Nodup)
    (hends : EndsWithSmallest g bs bc (b :: order)) : Harmless bs b := by
  obtain ⟨bc', hdeliver, hall⟩ := hends
  rw [deliverAll, List.foldlM_cons] at hdeliver
  obtain ⟨bc₁, hbc₁, hrest⟩ := Option.bind_eq_some_iff.mp hdeliver
  rw [deliver, addBlock_of_fits (number_eq_succ hover.1) hover.2] at hbc₁
  by_cases hkey : validKey b.hash = true
  · rw [if_pos hkey] at hbc₁
    cases hbc₁
    refine ⟨hkey, fun c hc heq => ?_⟩
    -- `b` lies in the place of `c` from the first delivery on
    have hplace : getBlock bc'.storage c.hash = some b := by
      rw [List.map_cons, List.nodup_cons] at hdistinct
      rw [deliverAll_getBlock hrest, heq]
      · exact getBlock_addBlock_self _ b
      · intro x hx hxc
        exact hdistinct.1 (List.mem_map.mpr ⟨x, hx, hxc.symm.trans heq⟩)
    obtain ⟨m, hm, hmin⟩ := exists_smallest b order
    have hstored := (hall m hm hmin).2.stored.stored c (List.mem_cons_of_mem m hc)
    have hcb : b = c := Option.some.inj (hplace.symm.trans hstored)
    obtain ⟨i, hi⟩ := List.mem_iff_getElem?.mp (hcb ▸ hc : b ∈ bs)
    have hnum := hchain.numbered.getElem? hi
    have hlen := hchain.length_eq
    have := hover.1
    omega
  · rw [if_neg hkey] at hbc₁
    cases hbc₁

/-- **Fork choice**, for a chain with head `P` and blocks with the next number, the parent `P` and
distinct hashes.  Every order of delivery ends with the block of smallest hash over the chain up to
`P`, exactly if the store accepts all hashes and no block up to `P` has one of them. -/
theorem fork_choice_iff (hchain : IsChain bc g bs) {blocks : List Block}
    (hover : ∀ b ∈ blocks, Over bc.currentBlock b)
    (hdistinct : (blocks.map Block.hash).Nodup) :
    (∀ order, order.Perm blocks → EndsWithSmallest g bs bc order) ↔
      ∀ b ∈ blocks, Harmless bs b := by
  constructor
  · intro hall b hb
    have hperm : (b :: blocks.erase b).Perm blocks := (List.perm_cons_erase hb).symm
    exact harmless_of_endsWithSmallest hchain (hover b hb)
      ((hperm.map Block.hash).nodup_iff.mpr hdistinct) (hall _ hperm)
  · intro hharm order hperm
    exact endsWithSmallest_of_harmless hchain (fun b hb => hover b (hperm.mem_iff.mp hb))
      ((hperm.map Block.hash).nodup_iff.mpr hdistinct) fun b hb => hharm b (hperm.mem_iff.mp hb)

/-- Two blocks over genesis. -/
theorem fork_choice_two :
    IsChain shortLedger.chain (newGenisisBlock shortConfig) [newGenisisBlock shortConfig] ∧
      ∀ order, order.Perm [forkBlock 9, forkBlock 7] →
        EndsWithSmallest (newGenisisBlock shortConfig) [newGenisisBlock shortConfig]
          shortLedger.chain order := by
  refine ⟨isChain_new shortConfig, (fork_choice_iff (isChain_new shortConfig) ?_ ?_).mpr ?_⟩
  · simp only [List.forall_mem_cons]
    exact ⟨⟨rfl, rfl⟩, ⟨rfl, rfl⟩, fun b hb => absurd hb List.not_mem_nil⟩
  · decide
  · simp only [List.forall_mem_cons]
    refine ⟨⟨by decide, ?_⟩, ⟨by decide, ?_⟩, fun b hb => absurd hb List.not_mem_nil⟩ <;>
    · intro c hc
      rw [List.mem_singleton.mp hc]
      decide

/-- **A single block** with the hash of its parent: it is appended, and the chain up to the parent
is gone. -/
theorem fork_choice_overwrite :
    IsChain shortLedger.chain (newGenisisBlock shortConfig) [newGenisisBlock shortConfig] ∧
      Over shortLedger.chain.currentBlock (forkBlock 1) ∧
      ¬ EndsWithSmallest (newGenisisBlock shortConfig) [newGenisisBlock shortConfig]
        shortLedger.chain [forkBlock 1] := by
  refine ⟨isChain_new shortConfig, ⟨rfl, rfl⟩, fun hends => ?_⟩
  have hharm := harmless_of_endsWithSmallest (isChain_new shortConfig) ⟨rfl, rfl⟩ (by decide) hends
  exact hharm.2 (newGenisisBlock shortConfig) (List.mem_singleton_self _) rfl

end Aster.Chain
