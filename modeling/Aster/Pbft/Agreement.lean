import Aster.Pbft.Cluster
import Aster.Lib.Quorum
import Mathlib.Data.List.ReduceOption

/-!
# Agreement of the correct replicas

Two correct replicas that execute requests for one `SeqID` execute the same request, as long as
the correct replicas handle votes the way `Careful` says.  The source has none of these checks: a
vote table counts deliveries and not senders, `2f` includes the vote of the replica itself, and
neither a `Prepare` nor a `Commit` is tied to one digest for each `SeqID`.

* `commits_sound`: what a commit that was sent says, in every run.
* `Backed`: what a correct replica has counted and executed has commits behind it.
* **`executed_digest_unique`**: agreement.
-/

namespace Aster.Pbft

open Aster.Core Aster.Chain Aster.Lib.Transition Aster.Lib.Quorum Node

variable {cfg : PbftConfig} {faulty : Finset ℕ} {s s' : Cluster} {l : ClusterMove}

/-! ### What a move does to the commits -/

section Moves

variable {n n' : Node} {mv : Move} {out : List Packet}

/-- A move sends no commit, or the first one of the node for a digest. -/
theorem BallotMove.commitVotes_cases (h : BallotMove cfg n mv n' out) (sent : List Packet) :
    (commitVotes (sent ++ out) = commitVotes sent ∧ n'.isCommitBordcast = n.isCommitBordcast) ∨
    ∃ v, mv = .handle (.prepare v) ∧ v.digest ∉ n.isCommitBordcast ∧
      n'.isCommitBordcast = insert v.digest n.isCommitBordcast ∧
      commitVotes (sent ++ out) = commitVotes sent ++ [⟨v.digest, v.seqID, some n.nodeID⟩] := by
  cases h with
  | same hsame hout =>
    exact .inl ⟨commitVotes_of_noCommit hout, congrArg Ballots.committed hsame.ballots⟩
  | prepare hnew hreply =>
    exact .inl ⟨commitVotes_of_noCommit noCommit_nil, congrArg Ballots.committed hnew⟩
  | @commit v _ henough hfirst hnew hreply =>
    exact .inr ⟨v, rfl, hfirst, congrArg Ballots.committed hnew, commitVotes_snoc _ _⟩
  | count hsender hnew hreply hout =>
    exact .inl ⟨commitVotes_of_noCommit hout, congrArg Ballots.committed hnew⟩
  | execute hsender henough hfirst hnew hreply =>
    exact .inl ⟨commitVotes_of_noCommit noCommit_nil, congrArg Ballots.committed hnew⟩

end Moves

theorem commitVotes_subset (sent out : List Packet) :
    commitVotes sent ⊆ commitVotes (sent ++ out) := by
  rw [commitVotes, commitVotes, List.filterMap_append]
  exact List.subset_append_left _ _

/-! ### The commits that were sent -/

/-- Every commit that was sent carries the id of its sender, which sends one for each digest. -/
structure CommitsSound (cfg : PbftConfig) (s : Cluster) : Prop where
  ids : ∀ i, (s.nodes i).nodeID = i
  sender : ∀ c ∈ commitVotes s.sent, ∃ j < cfg.nodeNums,
    c.sender = some j ∧ c.digest ∈ (s.nodes j).isCommitBordcast
  once : ∀ c ∈ commitVotes s.sent, ∀ c' ∈ commitVotes s.sent,
    c.sender = c'.sender → c.digest = c'.digest → c = c'

theorem commitsSound_start (h : ClusterStart s) : CommitsSound cfg s := by
  obtain ⟨hsent, hnodes⟩ := h
  constructor
  case ids =>
    intro i
    obtain ⟨curChain, hi⟩ := hnodes i
    rw [hi]
    rfl
  case sender =>
    intro c hc
    rw [hsent] at hc
    cases hc
  case once =>
    intro c hc
    rw [hsent] at hc
    cases hc

theorem commitsSound_step (h : CommitsSound cfg s) (hstep : clusterStep cfg faulty s l = some s') :
    CommitsSound cfg s' := by
  obtain ⟨n', out, hmove, hl, -, rfl⟩ := clusterStep_cases hstep
  have hballots := move_ballots hmove
  have hid : (s.nodes l.node).nodeID = l.node := h.ids l.node
  have hids : ∀ i, (Function.update s.nodes l.node n' i).nodeID = i := by
    intro i
    by_cases hi : i = l.node
    · rw [hi, Function.update_self, hballots.nodeID_eq, hid]
    · rw [Function.update_of_ne hi, h.ids i]
  have hgrow : (s.nodes l.node).isCommitBordcast ⊆ n'.isCommitBordcast := by
    rcases hballots.commitVotes_cases s.sent with ⟨-, heq⟩ | ⟨v, -, -, heq, -⟩
    · exact heq.symm.subset
    · rw [heq]
      exact Finset.subset_insert _ _
  -- a digest that a node has committed stays so
  have hkeep : ∀ j d, d ∈ (s.nodes j).isCommitBordcast →
      d ∈ (Function.update s.nodes l.node n' j).isCommitBordcast := by
    intro j d hd
    by_cases hj : j = l.node
    · subst hj
      rw [Function.update_self]
      exact hgrow hd
    · rwa [Function.update_of_ne hj]
  rcases hballots.commitVotes_cases s.sent with ⟨hsame, -⟩ | ⟨v, -, hfirst, hins, hnew⟩
  · refine ⟨hids, ?_, ?_⟩
    · intro c hc
      obtain ⟨j, hj, hsender, hd⟩ := h.sender c (hsame ▸ hc)
      exact ⟨j, hj, hsender, hkeep j _ hd⟩
    · intro c hc c' hc'
      exact h.once c (hsame ▸ hc) c' (hsame ▸ hc')
  · -- an earlier commit of this node for the digest would be marked in `isCommitBordcast`
    have hfresh : ∀ c ∈ commitVotes s.sent, c.sender = some (s.nodes l.node).nodeID →
        c.digest ≠ v.digest := by
      intro c hc hsender hd
      obtain ⟨j, -, hj, hmem⟩ := h.sender c hc
      have hjl : j = l.node := by
        rw [hsender, hid] at hj
        exact (Option.some.inj hj).symm
      rw [hjl, hd] at hmem
      exact hfirst hmem
    refine ⟨hids, ?_, ?_⟩
    · intro c hc
      rcases List.mem_append.mp (hnew ▸ hc) with hold | hlast
      · obtain ⟨j, hj, hsender, hd⟩ := h.sender c hold
        exact ⟨j, hj, hsender, hkeep j _ hd⟩
      · obtain rfl := List.mem_singleton.mp hlast
        refine ⟨l.node, hl, congrArg some hid, ?_⟩
        show v.digest ∈ (Function.update s.nodes l.node n' l.node).isCommitBordcast
        rw [Function.update_self, hins]
        exact Finset.mem_insert_self _ _
    · intro c hc c' hc' hsender hd
      rcases List.mem_append.mp (hnew ▸ hc) with hold | hlast
      · rcases List.mem_append.mp (hnew ▸ hc') with hold' | hlast'
        · exact h.once c hold c' hold' hsender hd
        · obtain rfl := List.mem_singleton.mp hlast'
          exact absurd hd (hfresh c hold hsender)
      · obtain rfl := List.mem_singleton.mp hlast
        rcases List.mem_append.mp (hnew ▸ hc') with hold' | hlast'
        · exact absurd hd.symm (hfresh c' hold' hsender.symm)
        · exact (List.mem_singleton.mp hlast').symm

/-! ### What correct replicas have to check -/

/-- A correct replica handles a prepare only when it has not committed another digest for the
`SeqID`.  It handles a commit only when it has committed the same digest for the same `SeqID`,
the sender is known to have sent it or is faulty, the sender is not yet counted, and its own
commit only after the request is replied. -/
def Careful (faulty : Finset ℕ) (s : Cluster) (l : ClusterMove) : Prop :=
  l.node ∉ faulty →
    match l.move with
    | .handle (.prepare v) => ∀ c ∈ commitVotes s.sent,
        c.sender = some l.node → c.seqID = v.seqID → c.digest = v.digest
    | .handle (.commit v) =>
        v.sender ∉ (s.nodes l.node).cntCommitConfirm v.digest ∧
        (v.sender = some l.node → v.digest ∈ (s.nodes l.node).isReply) ∧
        ((∃ j ∈ faulty, v.sender = some j) ∨ v ∈ commitVotes s.sent) ∧
        ⟨v.digest, v.seqID, some l.node⟩ ∈ commitVotes s.sent
    | _ => True

/-- A correct replica commits one digest for each `SeqID`. -/
def OneDigest (faulty : Finset ℕ) (s : Cluster) : Prop :=
  ∀ j ∉ faulty, ∀ c ∈ commitVotes s.sent, ∀ c' ∈ commitVotes s.sent,
    c.sender = some j → c'.sender = some j → c.seqID = c'.seqID → c.digest = c'.digest

theorem oneDigest_step (hsound : CommitsSound cfg s) (h : OneDigest faulty s)
    (hg : Careful faulty s l) (hstep : clusterStep cfg faulty s l = some s') :
    OneDigest faulty s' := by
  obtain ⟨n', out, hmove, -, -, rfl⟩ := clusterStep_cases hstep
  rcases (move_ballots hmove).commitVotes_cases s.sent with ⟨hsame, -⟩ | ⟨v, hmv, -, -, hnew⟩
  · intro j hj c hc c' hc'
    exact h j hj c (hsame ▸ hc) c' (hsame ▸ hc')
  · -- the guard compares the new commit with those the replica has sent
    have hagree : ∀ j ∉ faulty, some (s.nodes l.node).nodeID = some j →
        ∀ c ∈ commitVotes s.sent, c.sender = some j → c.seqID = v.seqID →
          c.digest = v.digest := by
      intro j hj hjl c hc hsender hseq
      rw [hsound.ids, Option.some.injEq] at hjl
      subst hjl
      have hguard := hg hj
      rw [hmv] at hguard
      exact hguard c hc hsender hseq
    intro j hj c hc c' hc' hsender hsender' hseq
    rcases List.mem_append.mp (hnew ▸ hc) with hold | hlast
    · rcases List.mem_append.mp (hnew ▸ hc') with hold' | hlast'
      · exact h j hj c hold c' hold' hsender hsender' hseq
      · obtain rfl := List.mem_singleton.mp hlast'
        exact hagree j hj hsender' c hold hsender hseq
    · obtain rfl := List.mem_singleton.mp hlast
      rcases List.mem_append.mp (hnew ▸ hc') with hold' | hlast'
      · exact (hagree j hj hsender c' hold' hsender' hseq.symm).symm
      · obtain rfl := List.mem_singleton.mp hlast'
        rfl

/-! ### What a correct replica has counted -/

/-- A vote for `d` that replica `i` has counted: `i` has committed `d`, and the sender has sent
the same commit or is faulty.  The vote of `i` itself comes after the reply. -/
def Supports (faulty : Finset ℕ) (commits : List Vote) (i : ℕ) (replied : Finset Digest)
    (d : Digest) (x : Option ℕ) : Prop :=
  ∃ j, x = some j ∧ (j = i → d ∈ replied) ∧
    ∃ q, ⟨d, q, some i⟩ ∈ commits ∧ (j ∈ faulty ∨ ⟨d, q, some j⟩ ∈ commits)

theorem Supports.mono {commits commits' : List Vote} {i : ℕ} {replied replied' : Finset Digest}
    {d : Digest} {x : Option ℕ} (h : Supports faulty commits i replied d x)
    (hsub : commits ⊆ commits') (hreply : replied ⊆ replied') :
    Supports faulty commits' i replied' d x := by
  obtain ⟨j, hj, hown, q, hself, hback⟩ := h
  exact ⟨j, hj, fun hji => hreply (hown hji), q, hsub hself, hback.imp_right (@hsub _)⟩

/-- The commits behind the votes and the executions of replica `i`. -/
structure Backed (cfg : PbftConfig) (faulty : Finset ℕ) (commits : List Vote) (i : ℕ)
    (n : Node) : Prop where
  nodup : ∀ d, (n.cntCommitConfirm d).Nodup
  counted : ∀ d, ∀ x ∈ n.cntCommitConfirm d, Supports faulty commits i n.isReply d x
  executed : ∀ e ∈ n.executed, ∃ Q : Finset ℕ, 2 * cfg.f + 1 ≤ Q.card ∧
    ∀ j ∈ Q, j ∈ faulty ∨ ⟨e.digest, e.seqID, some j⟩ ∈ commits

theorem backed_start (i : ℕ) (curChain : Ledger) :
    Backed cfg faulty [] i (newPbftNode i curChain) :=
  ⟨fun _ => List.nodup_nil, fun _ _ hx => absurd hx List.not_mem_nil,
    fun _ he => absurd he List.not_mem_nil⟩

theorem Backed.mono {commits commits' : List Vote} {i : ℕ} {n n' : Node}
    (h : Backed cfg faulty commits i n) (hsub : commits ⊆ commits')
    (hcount : n'.cntCommitConfirm = n.cntCommitConfirm) (hexec : n'.executed = n.executed)
    (hreply : n.isReply ⊆ n'.isReply) : Backed cfg faulty commits' i n' := by
  constructor
  case nodup =>
    rw [hcount]
    exact h.nodup
  case counted =>
    rw [hcount]
    intro d x hx
    exact (h.counted d x hx).mono hsub hreply
  case executed =>
    rw [hexec]
    intro e he
    obtain ⟨Q, hcard, hQ⟩ := h.executed e he
    exact ⟨Q, hcard, fun j hj => (hQ j hj).imp_right (@hsub _)⟩

/-- What the guard says of a commit that is handled. -/
structure Admitted (faulty : Finset ℕ) (commits : List Vote) (i : ℕ) (n : Node) (v : Vote) :
    Prop where
  fresh : v.sender ∉ n.cntCommitConfirm v.digest
  own : v.sender = some i → v.digest ∈ n.isReply
  genuine : (∃ j ∈ faulty, v.sender = some j) ∨ v ∈ commits
  committed : ⟨v.digest, v.seqID, some i⟩ ∈ commits

theorem Careful.admitted (hg : Careful faulty s l) (hl : l.node ∉ faulty) {v : Vote}
    (hmv : l.move = .handle (.commit v)) :
    Admitted faulty (commitVotes s.sent) l.node (s.nodes l.node) v := by
  have hguard := hg hl
  rw [hmv] at hguard
  obtain ⟨hfresh, hown, hgenuine, hcommitted⟩ := hguard
  exact ⟨hfresh, hown, hgenuine, hcommitted⟩

section Counting

variable {commits : List Vote} {i : ℕ} {n n' : Node} {v : Vote}

theorem Admitted.supports (ha : Admitted faulty commits i n v) (hsender : v.sender ≠ none) :
    Supports faulty commits i n.isReply v.digest v.sender := by
  obtain ⟨j, hj⟩ := Option.ne_none_iff_exists'.mp hsender
  refine ⟨j, hj, fun hji => ha.own (hji ▸ hj), v.seqID, ha.committed, ?_⟩
  rcases ha.genuine with ⟨k, hk, hvk⟩ | hsent
  · left
    rw [hj, Option.some.injEq] at hvk
    exact hvk ▸ hk
  · right
    rw [← hj]
    exact hsent

/-- The table after an admitted commit. -/
theorem Backed.table_step (h : Backed cfg faulty commits i n)
    (ha : Admitted faulty commits i n v) (hsender : v.sender ≠ none) (d : Digest) :
    (Function.update n.cntCommitConfirm v.digest
        (addKey (n.cntCommitConfirm v.digest) v.sender) d).Nodup ∧
      ∀ x ∈ Function.update n.cntCommitConfirm v.digest
        (addKey (n.cntCommitConfirm v.digest) v.sender) d,
        Supports faulty commits i n.isReply d x := by
  by_cases hd : d = v.digest
  · subst hd
    obtain ⟨j, hj⟩ := Option.ne_none_iff_exists'.mp hsender
    rw [Function.update_self, hj, addKey_some]
    have hfresh : some j ∉ n.cntCommitConfirm v.digest := hj ▸ ha.fresh
    constructor
    · exact List.nodup_append_comm.mp (List.nodup_cons.mpr ⟨hfresh, h.nodup _⟩)
    · intro x hx
      rcases List.mem_append.mp hx with hold | hlast
      · exact h.counted _ x hold
      · rw [List.mem_singleton.mp hlast, ← hj]
        exact ha.supports hsender
  · rw [Function.update_of_ne hd]
    exact ⟨h.nodup d, h.counted d⟩

/-- Before the reply the votes of a table are those of other replicas, so that with the replica
itself they are one more. -/
theorem exists_quorum {table : List (Option ℕ)} {d : Digest} {q : UInt64}
    (hnodup : table.Nodup) (hvotes : ∀ x ∈ table, Supports faulty commits i n.isReply d x)
    (hfirst : d ∉ n.isReply) (hself : ⟨d, q, some i⟩ ∈ commits)
    (honce : ∀ q', ⟨d, q', some i⟩ ∈ commits → q' = q) (henough : 2 * cfg.f ≤ table.length) :
    ∃ Q : Finset ℕ, 2 * cfg.f + 1 ≤ Q.card ∧
      ∀ j ∈ Q, j ∈ faulty ∨ ⟨d, q, some j⟩ ∈ commits := by
  have hmem : ∀ j, j ∈ table.reduceOption.toFinset ↔ some j ∈ table := by
    intro j
    rw [List.mem_toFinset, List.reduceOption_mem_iff]
  have hcounted : Counted table table.reduceOption.toFinset := by
    refine ⟨hnodup, ?_⟩
    intro x hx
    obtain ⟨j, rfl, -⟩ := hvotes x hx
    exact ⟨j, (hmem j).mpr hx, rfl⟩
  have hother : i ∉ table.reduceOption.toFinset := by
    intro hi
    obtain ⟨j, hj, hown, -⟩ := hvotes _ ((hmem i).mp hi)
    exact hfirst (hown (Option.some.inj hj).symm)
  refine ⟨insert i table.reduceOption.toFinset, ?_, ?_⟩
  · rw [Finset.card_insert_of_notMem hother]
    exact Nat.succ_le_succ (henough.trans hcounted.length_le)
  · intro j hj
    rcases Finset.mem_insert.mp hj with rfl | hvoter
    · exact .inr hself
    · obtain ⟨k, hk, -, q', hself', hback⟩ := hvotes _ ((hmem j).mp hvoter)
      rw [Option.some.injEq] at hk
      rw [hk, ← honce q' hself']
      exact hback

end Counting

/-- One move of a correct replica. -/
theorem backed_move {n' : Node} {out : List Packet} (hsound : CommitsSound cfg s)
    (hl : l.node ∉ faulty)
    (h : Backed cfg faulty (commitVotes s.sent) l.node (s.nodes l.node))
    (hg : Careful faulty s l) (hmove : (s.nodes l.node).move cfg l.move = some (n', out)) :
    Backed cfg faulty (commitVotes (s.sent ++ out)) l.node n' := by
  have hsub := commitVotes_subset s.sent out
  have hballots := move_ballots hmove
  generalize hmv : l.move = mv at hballots
  cases hballots with
  | same hsame hout =>
    exact h.mono hsub (congrArg Ballots.commits hsame.ballots)
      (congrArg Ballots.executed hsame.ballots) hsame.replied
  | prepare hnew hreply =>
    exact h.mono hsub (congrArg Ballots.commits hnew) (congrArg Ballots.executed hnew) hreply
  | commit henough hfirst hnew hreply =>
    exact h.mono hsub (congrArg Ballots.commits hnew) (congrArg Ballots.executed hnew) hreply
  | @count v _ _ hsender hnew hreply hout =>
    have htable := h.table_step (hg.admitted hl hmv) hsender
    have hcommits : n'.cntCommitConfirm = _ := congrArg Ballots.commits hnew
    have hexecuted : n'.executed = (s.nodes l.node).executed := congrArg Ballots.executed hnew
    constructor
    case nodup =>
      rw [hcommits]
      exact fun d => (htable d).1
    case counted =>
      rw [hcommits]
      exact fun d x hx => ((htable d).2 x hx).mono hsub hreply
    case executed =>
      rw [hexecuted]
      exact (h.mono hsub rfl rfl (Finset.Subset.refl _)).executed
  | @execute v _ hsender henough hfirst hnew hreply =>
    have hadmitted := hg.admitted hl hmv
    have htable := h.table_step hadmitted hsender
    have hcommits : n'.cntCommitConfirm = _ := congrArg Ballots.commits hnew
    have hexecuted : n'.executed = (s.nodes l.node).executed ++ [⟨v.digest, v.seqID⟩] :=
      congrArg Ballots.executed hnew
    constructor
    case nodup =>
      rw [hcommits]
      exact fun d => (htable d).1
    case counted =>
      rw [hcommits]
      exact fun d x hx => ((htable d).2 x hx).mono hsub hreply
    case executed =>
      rw [hexecuted]
      intro e he
      rcases List.mem_append.mp he with hold | hlast
      · exact (h.mono hsub rfl rfl (Finset.Subset.refl _)).executed e hold
      · obtain rfl := List.mem_singleton.mp hlast
        have honce : ∀ q', ⟨v.digest, q', some l.node⟩ ∈ commitVotes s.sent → q' = v.seqID := by
          intro q' hq'
          exact congrArg Vote.seqID (hsound.once _ hq' _ hadmitted.committed rfl rfl)
        obtain ⟨hnodup, hvotes⟩ := htable v.digest
        rw [Function.update_self] at hnodup hvotes
        obtain ⟨Q, hcard, hQ⟩ :=
          exists_quorum hnodup hvotes hfirst hadmitted.committed honce henough
        exact ⟨Q, hcard, fun j hj => (hQ j hj).imp_right (@hsub _)⟩

/-! ### Runs -/

/-- What holds in every state of a careful run. -/
structure Agreeing (cfg : PbftConfig) (faulty : Finset ℕ) (s : Cluster) : Prop where
  sound : CommitsSound cfg s
  oneDigest : OneDigest faulty s
  backed : ∀ i ∉ faulty, Backed cfg faulty (commitVotes s.sent) i (s.nodes i)

theorem agreeing_of_run (h : Reach (clusterStep cfg faulty) (Careful faulty) ClusterStart s) :
    Agreeing cfg faulty s := by
  induction h with
  | @start s hs =>
    obtain ⟨hsent, hnodes⟩ := hs
    constructor
    case sound => exact commitsSound_start ⟨hsent, hnodes⟩
    case oneDigest =>
      intro j hj c hc
      rw [hsent] at hc
      cases hc
    case backed =>
      intro i hi
      obtain ⟨curChain, hnode⟩ := hnodes i
      rw [hnode, hsent]
      exact backed_start i curChain
  | @next s s' l _ hg hstep ih =>
    constructor
    case sound => exact commitsSound_step ih.sound hstep
    case oneDigest => exact oneDigest_step ih.sound ih.oneDigest hg hstep
    case backed =>
      obtain ⟨n', out, hmove, -, -, rfl⟩ := clusterStep_cases hstep
      intro i hi
      by_cases hil : i = l.node
      · subst hil
        show Backed cfg faulty _ l.node (Function.update s.nodes l.node n' l.node)
        rw [Function.update_self]
        exact backed_move ih.sound hi (ih.backed _ hi) hg hmove
      · show Backed cfg faulty _ i (Function.update s.nodes l.node n' i)
        rw [Function.update_of_ne hil]
        exact (ih.backed i hi).mono (commitVotes_subset _ _) rfl rfl (Finset.Subset.refl _)

/-- **Agreement.**  In every careful run of `3f + 1` replicas of which at most `f` are faulty, two
correct replicas that execute requests for one `SeqID` execute the same one. -/
theorem executed_digest_unique (hnodes : cfg.nodeNums = 3 * cfg.f + 1)
    (hfaulty : faulty ⊆ Finset.range cfg.nodeNums) (hcard : faulty.card ≤ cfg.f)
    (h : Reach (clusterStep cfg faulty) (Careful faulty) ClusterStart s)
    {i k : ℕ} (hi : i ∉ faulty) (hk : k ∉ faulty) {e e' : Execution}
    (he : e ∈ (s.nodes i).executed) (he' : e' ∈ (s.nodes k).executed)
    (hseq : e.seqID = e'.seqID) : e.digest = e'.digest := by
  have hinv := agreeing_of_run h
  obtain ⟨Q, hQcard, hQ⟩ := (hinv.backed i hi).executed e he
  obtain ⟨Q', hQcard', hQ'⟩ := (hinv.backed k hk).executed e' he'
  have hmember : ∀ (d : Digest) (q : UInt64) (j : ℕ),
      j ∈ faulty ∨ ⟨d, q, some j⟩ ∈ commitVotes s.sent → j ∈ Finset.range cfg.nodeNums := by
    rintro d q j (hj | hsent)
    · exact hfaulty hj
    · obtain ⟨j', hj', hsender, -⟩ := hinv.sound.sender _ hsent
      exact Finset.mem_range.mpr (Option.some.inj hsender ▸ hj')
  have hsum : (Finset.range cfg.nodeNums).card + faulty.card < Q.card + Q'.card := by
    rw [Finset.card_range]
    omega
  obtain ⟨j, hjQ, hjQ', hcorrect⟩ := exists_correct_inter
    (fun j hj => hmember _ _ j (hQ j hj)) (fun j hj => hmember _ _ j (hQ' j hj)) hsum
  have hvote := (hQ j hjQ).resolve_left hcorrect
  have hvote' := (hQ' j hjQ').resolve_left hcorrect
  exact hinv.oneDigest j hcorrect _ hvote _ hvote' rfl rfl hseq

instance (faulty : Finset ℕ) (s : Cluster) : (l : ClusterMove) → Decidable (Careful faulty s l)
  | ⟨i, .handle (.prepare v)⟩ => inferInstanceAs (Decidable (i ∉ faulty →
      ∀ c ∈ commitVotes s.sent, c.sender = some i → c.seqID = v.seqID → c.digest = v.digest))
  | ⟨i, .handle (.commit v)⟩ => inferInstanceAs (Decidable (i ∉ faulty →
      v.sender ∉ (s.nodes i).cntCommitConfirm v.digest ∧
      (v.sender = some i → v.digest ∈ (s.nodes i).isReply) ∧
      ((∃ j ∈ faulty, v.sender = some j) ∨ v ∈ commitVotes s.sent) ∧
      ⟨v.digest, v.seqID, some i⟩ ∈ commitVotes s.sent))
  | ⟨i, .handle (.prePrepare _)⟩ | ⟨i, .handle (.requestOld _)⟩ | ⟨i, .handle (.sendOld _)⟩
  | ⟨i, .handle .stop⟩ | ⟨i, .handle (.outside _)⟩ | ⟨i, .resume⟩ | ⟨i, .propose _⟩
  | ⟨i, .fill _⟩ => inferInstanceAs (Decidable (i ∉ faulty → True))

theorem executed_digest_unique_round :
    ∃ s, Reach (clusterStep (shortShard false) { 3 }) (Careful { 3 }) ClusterStart s ∧
      ⟨[1, 1, 1], 1⟩ ∈ (s.nodes 1).executed ∧ ⟨[1, 1, 1], 1⟩ ∈ (s.nodes 2).executed ∧
      ∀ e ∈ (s.nodes 1).executed, ∀ e' ∈ (s.nodes 2).executed,
        e.seqID = e'.seqID → e.digest = e'.digest := by
  have hstart : Reach (clusterStep (shortShard false) { 3 }) (Careful { 3 }) ClusterStart
      shortCluster := .start clusterStart_short
  obtain ⟨s, hreach, hone, htwo⟩ := exists_reach_of_run quorumRound
    (fun s => ⟨[1, 1, 1], 1⟩ ∈ (s.nodes 1).executed ∧ ⟨[1, 1, 1], 1⟩ ∈ (s.nodes 2).executed)
    hstart (by decide +kernel)
  refine ⟨s, hreach, hone, htwo, ?_⟩
  intro e he e' he' hseq
  exact executed_digest_unique (by decide) (by decide) (by decide) hreach (i := 1) (k := 2)
    (by decide) (by decide) he he' hseq

/-- A block that only its hash tells from others. -/
def blockOf (tag : UInt8) : Block := ⟨⟨[], [], [], ∅, 1, 0, 0⟩, [], [tag]⟩

/-- A faulty main node proposes a block to one replica, with two copies of its commit. -/
def equivocate (i : ℕ) (tag : UInt8) : List ClusterMove :=
  [⟨i, .handle (.prePrepare ⟨some ⟨.block, some (blockOf tag), 0⟩, [1, tag], 1⟩)⟩,
    ⟨i, .handle (.commit ⟨[1, tag], 1, some 0⟩)⟩, ⟨i, .handle (.commit ⟨[1, tag], 1, some 0⟩)⟩]

/-- Two correct replicas execute different requests for `SeqID` 1. -/
theorem executed_digest_differs :
    (shortShard false).nodeNums = 3 * (shortShard false).f + 1 ∧
    ∃ s, Reach (clusterStep (shortShard false) { 0 }) anyStep ClusterStart s ∧
      ⟨[1, 7], 1⟩ ∈ (s.nodes 1).executed ∧ ⟨[1, 8], 1⟩ ∈ (s.nodes 2).executed := by
  refine ⟨by decide, ?_⟩
  have hstart : Reach (clusterStep (shortShard false) { 0 }) anyStep ClusterStart shortCluster :=
    .start clusterStart_short
  exact exists_reach_of_run (equivocate 1 7 ++ equivocate 2 8) _ hstart (by decide +kernel)

end Aster.Pbft
