import Devote.Checkpoint
import Devote.Pipeline

/-!
# Chains of blocks

A chain processes its blocks one after another. The first block's manager is the one of
`NewDevoteProtocol`; a block calls `Register`, `Unregister`, `Delegate`, `UnDelegate`,
`Rolling` and `SetWitnesses` on its manager, then `Commit` writes the tries and returns
the checkpoint from which `NewDevoteProtocolFromAtomic` opens the next block's manager
over the written disk. The driver that does this is not part of the source; `ChainReachable`
is every manager that some interleaving of these steps reaches, with the calls made so far.

`Sound` is what every call needs of a manager: the invariant `Inv` and eight-byte rolling
counters. Each step of a chain keeps it, reopening included, since a reopened manager
holds exactly the committed tries. So in every block of every chain the cache is the
reverse index of the votes, every vote is for a registered masternode, no run of calls
panics, a `Commit` over a disk whose writes succeed can be reopened, and `Snapshot` and
`RevertToSnapShot` around any run give the manager back. A call reads nothing of a sound
manager but its five tries, so commits and reopenings are invisible: every manager of a
chain holds the tries that the chain's calls leave when run in one block. In every block,
then, `GetWitnesses` returns the last list set on the chain, the rolling trie counts the
blocks of the whole chain, and `Root` is the same for every node that made the same calls,
wherever each committed.
-/

namespace Devote

open DevoteProtocol

variable {d d' : DevoteProtocol} {calls : List Call}

/-- What every call needs of a manager: the invariant, and eight-byte rolling counters. -/
structure Sound (d : DevoteProtocol) : Prop where
  inv : Inv d
  counts : ∃ T, d.minerRollingTrie = some T ∧ CountsAreWords T

theorem Sound.of_reachable (h : Reachable d) : Sound d :=
  ⟨inv_of_reachable h, reachable_counts_are_words h⟩

/-- From a sound manager every call returns, and leaves a sound manager. -/
theorem Sound.apply (h : Sound d) (call : Call) : ∃ d', call.apply d = some d' ∧ Sound d' := by
  obtain ⟨T, hT, h8⟩ := h.counts
  cases hrol : call.isRolling with
  | false =>
    obtain ⟨d', h', hr, -⟩ := apply_frame h.inv call hrol
    exact ⟨d', h', inv_call h.inv call h', T, hr.trans hT, h8⟩
  | true =>
    obtain ⟨p, t, w, rfl⟩ := Call.eq_rolling_of_isRolling hrol
    have h' := rolling_eq_directCnt hT h8 p t w
    exact ⟨_, h', inv_call h.inv (.rolling p t w) h', _, rfl, h8.tryUpdate_directCnt _⟩

theorem Sound.of_apply (h : Sound d) {call : Call} (happ : call.apply d = some d') : Sound d' :=
  let ⟨_, h', hs⟩ := h.apply call
  Option.some.inj (h'.symm.trans happ) ▸ hs

/-- From a sound manager every run of calls returns, and leaves a sound manager. -/
theorem Sound.runCalls (h : Sound d) (calls : List Call) :
    ∃ d', runCalls calls d = some d' ∧ Sound d' := by
  induction calls generalizing d with
  | nil => exact ⟨d, rfl, h⟩
  | cons call calls ih =>
    obtain ⟨d₁, h₁, hs₁⟩ := h.apply call
    obtain ⟨d', h', hs'⟩ := ih hs₁
    exact ⟨d', by rw [runCalls, h₁]; exact h', hs'⟩

/-- The manager reopened from the checkpoint of a sound manager's `Commit` is sound: it
holds the same five tries, an empty `voteCnt` trie and fresh node caches. -/
theorem Sound.reopen (h : Sound d) {d₁ : DevoteProtocol} {db disk : Database}
    {a : DevoteProtocolAtomic} (hc : d.commit db = some (d₁, .ok (some a)))
    (hopen : newDevoteProtocolFromAtomic disk a = some (.ok d')) : Sound d' := by
  obtain ⟨cy, ca, v, mt, r, -, hca, hv, hmt, hr, rfl⟩ := commit_reopen_eq hc hopen
  obtain ⟨-, -, -, mt', c', v', hm', hc', hv', hri, hreg⟩ := h.inv
  obtain ⟨T, hT, h8⟩ := h.counts
  cases hmt.symm.trans hm'
  cases hca.symm.trans hc'
  cases hv.symm.trans hv'
  cases hr.symm.trans hT
  exact ⟨⟨rfl, rfl, ⟨disk, rfl, rfl, rfl, rfl, rfl, rfl⟩, _, _, _, rfl, rfl, rfl, hri,
    hreg⟩, _, rfl, h8⟩

/-! ## Chains -/

/-- The managers of the blocks of a chain, each with the calls made on the chain so far:
the manager of `NewDevoteProtocol`, the manager a call leaves, and the manager
`NewDevoteProtocolFromAtomic` opens over the written disk from the checkpoint `Commit`
returned. -/
inductive ChainReachable : List Call → DevoteProtocol → Prop where
  | genesis {db : Database} {d : DevoteProtocol} :
      newDevoteProtocol db = some (.ok d) → ChainReachable [] d
  | call {calls : List Call} {d d' : DevoteProtocol} (call : Call) :
      ChainReachable calls d → call.apply d = some d' → ChainReachable (calls ++ [call]) d'
  | reopen {calls : List Call} {d d₁ d' : DevoteProtocol} {db disk : Database}
      {a : DevoteProtocolAtomic} :
      ChainReachable calls d → d.commit db = some (d₁, .ok (some a)) →
      d₁.diskdb = some disk → newDevoteProtocolFromAtomic disk a = some (.ok d') →
      ChainReachable calls d'

theorem ChainReachable.sound (h : ChainReachable calls d) : Sound d := by
  induction h with
  | genesis h => exact .of_reachable (.new h)
  | call _ _ hstep ih => exact ih.of_apply hstep
  | reopen _ hc _ hopen ih => exact ih.reopen hc hopen

/-! ## A chain that reopens

The witnesses below run on the second block of a chain, after a commit and a reopening. -/

/-- The manager of a chain's second block, when the first registers the zero address under
its own bytes: `NewDevoteProtocolFromAtomic` opens it from the first block's checkpoint,
over the disk that holds the written masternode trie. -/
def secondBlock : DevoteProtocol :=
  .withTries ⟨[(masternodePrefix, Trie.empty.tryUpdate Address.zero.bytes Address.zero.bytes)],
    []⟩ .empty .empty .empty (Trie.empty.tryUpdate Address.zero.bytes Address.zero.bytes) .empty
    .empty

theorem chainReachable_secondBlock :
    ChainReachable [.register ⟨Address.zero.bytes, Address.zero⟩] secondBlock := by
  have hc : registeredZero.commit ⟨[], []⟩ = some (_, .ok (some ⟨emptyRoot, emptyRoot,
      (Trie.empty.tryUpdate Address.zero.bytes Address.zero.bytes).hash, emptyRoot, emptyRoot,
      .zero⟩)) := rfl
  exact .reopen (.call _ (.genesis rfl) rfl) hc rfl rfl

/-- The rolling trie after the blocks of times 3600 and 3700, both of cycle 1, minted by the
zero address. -/
def mintedTwice : Trie := mintedOnce.tryUpdate (putUint64 1 ++ Address.zero.bytes) (putUint64 2)

/-- The manager of a chain's second block, when the first block carries `Rolling` for the
blocks of times 3600 and 3700 and the second `Rolling` for the block of time 7200, all minted
by the zero address: the second block's manager was reopened over the disk that holds the
first block's rolling trie. -/
def cycleTwoBlock : DevoteProtocol :=
  { DevoteProtocol.withTries ⟨[(minerRollingPrefix, mintedTwice)], []⟩ .empty .empty .empty
      .empty mintedTwice .empty with
    minerRollingTrie :=
      some (mintedTwice.tryUpdate (putUint64 2 ++ Address.zero.bytes) (putUint64 1)) }

theorem chainReachable_cycleTwoBlock :
    ChainReachable [.rolling 0 3600 Address.zero, .rolling 3600 3700 Address.zero,
      .rolling 3700 7200 Address.zero] cycleTwoBlock :=
  .call (.rolling 3700 7200 Address.zero) (@ChainReachable.reopen _ _ _ _ ⟨[], []⟩ _ _
    (.call (.rolling 3600 3700 Address.zero)
      (.call (.rolling 0 3600 Address.zero) (@ChainReachable.genesis ⟨[], []⟩ _ rfl) rfl) rfl)
    rfl rfl rfl) rfl

/-! ## What every block of every chain keeps -/

/-- In every manager of every block of every chain, every finite run of calls returns
without a panic; and when no table of the disk fails its writes, `Commit` returns a
checkpoint from which `NewDevoteProtocolFromAtomic` over the written disk opens the
manager's five tries, so the chain can go on with its next block. -/
theorem chainReachable_live (h : ChainReachable calls d) :
    (∀ calls', ∃ d', runCalls calls' d = some d') ∧
      ∃ cy ca v mt r disk, Committable d cy ca v mt r disk ∧ (disk.failing = [] → ∀ db,
        ∃ d₁ a disk', d.commit db = some (d₁, .ok (some a)) ∧ d₁.diskdb = some disk' ∧
          newDevoteProtocolFromAtomic disk' a =
            some (.ok (.withTries disk' cy ca v mt r .empty))) := by
  obtain ⟨⟨hcy, hro, ⟨disk, hcdb, hcadb, hvdb, hmdb, hrdb, hdisk⟩, mt, ca, v, hm, hca, hv,
    -, -⟩, -⟩ := h.sound
  obtain ⟨cy, hcy⟩ := Option.isSome_iff_exists.1 hcy
  obtain ⟨r, hr⟩ := Option.isSome_iff_exists.1 hro
  have hd : Committable d cy ca v mt r disk := ⟨hcy, hca, hv, hm, hr, ⟨_, hcdb, rfl⟩,
    ⟨_, hcadb, rfl⟩, ⟨_, hvdb, rfl⟩, ⟨_, hmdb, rfl⟩, ⟨_, hrdb, rfl⟩, hdisk⟩
  exact ⟨fun calls' => (h.sound.runCalls calls').imp fun _ h => h.1, _, _, _, _, _, _, hd,
    fun hfail db => commit_reopens hd hfail db⟩

theorem chainReachable_live_secondBlock :
    ChainReachable [.register ⟨Address.zero.bytes, Address.zero⟩] secondBlock ∧
      (∀ calls', ∃ d', runCalls calls' secondBlock = some d') ∧
      ∃ cy ca v mt r disk, Committable secondBlock cy ca v mt r disk ∧ (disk.failing = [] →
        ∀ db, ∃ d₁ a disk', secondBlock.commit db = some (d₁, .ok (some a)) ∧
          d₁.diskdb = some disk' ∧
          newDevoteProtocolFromAtomic disk' a =
            some (.ok (.withTries disk' cy ca v mt r .empty))) :=
  ⟨chainReachable_secondBlock, chainReachable_live chainReachable_secondBlock⟩

/-! ## Snapshots across a run -/

/-- A call writes no field of the manager but its five tries. -/
theorem apply_keeps_storage (hi : Inv d) {call : Call} (h : call.apply d = some d') :
    d' = { d with
      cycleTrie := d'.cycleTrie, cacheTrie := d'.cacheTrie, voteTrie := d'.voteTrie
      masternodeTrie := d'.masternodeTrie, minerRollingTrie := d'.minerRollingTrie } := by
  obtain ⟨hcy, hro, -, mt, c, v, hm, hc, hv, hri, -⟩ := hi
  cases call with
  | register mn =>
    rw [Call.apply, register_eq hm] at h
    cases h; rfl
  | unregister m =>
    rw [Call.apply, unregister_spec hm hc hv hri] at h
    cases h; rfl
  | delegate x m =>
    rw [Call.apply, delegate_eq hm hc hv] at h
    split_ifs at h <;> cases h <;> rfl
  | unDelegate x m =>
    rw [Call.apply, unDelegate_eq hm hc hv] at h
    split_ifs at h <;> cases h <;> rfl
  | rolling p t w =>
    obtain ⟨r, hr⟩ := Option.isSome_iff_exists.1 hro
    rw [Call.apply, rolling_eq hr, Option.map_eq_some'] at h
    obtain ⟨_, -, rfl⟩ := h
    rfl
  | setWitnesses ws =>
    obtain ⟨cy, hcy⟩ := Option.isSome_iff_exists.1 hcy
    rw [Call.apply, setWitnesses_eq hcy] at h
    cases h; rfl

/-- A run from a sound manager writes no field of the manager but its five tries. -/
theorem runCalls_keeps_storage (h : Sound d) {calls' : List Call}
    (hrun : runCalls calls' d = some d') :
    d' = { d with
      cycleTrie := d'.cycleTrie, cacheTrie := d'.cacheTrie, voteTrie := d'.voteTrie
      masternodeTrie := d'.masternodeTrie, minerRollingTrie := d'.minerRollingTrie } := by
  induction calls' generalizing d with
  | nil => cases hrun; rfl
  | cons call calls' ih =>
    obtain ⟨d₁, h₁, hrun'⟩ := Option.bind_eq_some.1 hrun
    obtain ⟨d₂, h₂, hs₂⟩ := h.apply call
    obtain rfl := Option.some.inj (h₂.symm.trans h₁)
    rw [ih hs₂ hrun', apply_keeps_storage h.inv h₁]

/-- In every block of every chain, `Snapshot`, then any run of calls, then
`RevertToSnapShot` gives back exactly the manager of the snapshot time: the calls write
only the five tries a snapshot holds, never the `voteCnt` trie, the node caches or the
disk. -/
theorem snapshot_run_revert (h : ChainReachable calls d) (calls' : List Call) :
    ∃ s d', d.snapshot = some s ∧ runCalls calls' d = some d' ∧
      d'.revertToSnapShot s = d := by
  obtain ⟨⟨hcy, hro, -, mt, c, v, hm, hc, hv, -, -⟩, -⟩ := h.sound
  obtain ⟨cy, hcy⟩ := Option.isSome_iff_exists.1 hcy
  obtain ⟨r, hr⟩ := Option.isSome_iff_exists.1 hro
  obtain ⟨d', hrun, -⟩ := h.sound.runCalls calls'
  refine ⟨_, d', by simp only [snapshot, copy, hcy, hc, hv, hm, hr]; rfl, hrun, ?_⟩
  rw [runCalls_keeps_storage h.sound hrun]
  simp only [revertToSnapShot, ← hcy, ← hc, ← hv, ← hm, ← hr]

theorem snapshot_run_revert_secondBlock :
    ChainReachable [.register ⟨Address.zero.bytes, Address.zero⟩] secondBlock ∧
      ∃ s d', secondBlock.snapshot = some s ∧
        runCalls [.unregister Address.zero, .setWitnesses []] secondBlock = some d' ∧
        d'.revertToSnapShot s = secondBlock :=
  ⟨chainReachable_secondBlock, snapshot_run_revert chainReachable_secondBlock _⟩

/-! ## Commits and reopenings are invisible -/

/-- Two managers hold the same five tries, the state that the calls read and write. -/
structure SameTries (d₁ d₂ : DevoteProtocol) : Prop where
  /-- The witness lists. -/
  cycle : d₁.cycleTrie = d₂.cycleTrie
  /-- The reverse index of the votes. -/
  cache : d₁.cacheTrie = d₂.cacheTrie
  /-- The delegators' votes. -/
  vote : d₁.voteTrie = d₂.voteTrie
  /-- The registered masternodes. -/
  masternode : d₁.masternodeTrie = d₂.masternodeTrie
  /-- The blocks each witness minted in each cycle. -/
  rolling : d₁.minerRollingTrie = d₂.minerRollingTrie

/-- A call reads nothing of a sound manager but its five tries: from two sound managers with
the same tries it leaves two managers with the same tries. -/
theorem SameTries.apply {d₁ d₂ : DevoteProtocol} (h₁ : Sound d₁) (hs : SameTries d₁ d₂)
    (call : Call) :
    ∃ e₁ e₂, call.apply d₁ = some e₁ ∧ call.apply d₂ = some e₂ ∧
      SameTries e₁ e₂ := by
  obtain ⟨hcy, -, -, mt, c, v, hm, hc, hv, hri, -⟩ := h₁.inv
  have hm₂ : d₂.masternodeTrie = some mt := hs.masternode ▸ hm
  have hc₂ : d₂.cacheTrie = some c := hs.cache ▸ hc
  have hv₂ : d₂.voteTrie = some v := hs.vote ▸ hv
  cases call with
  | register mn =>
    refine ⟨_, _, congrArg (returned d₁) (register_eq hm mn),
      congrArg (returned d₂) (register_eq hm₂ mn), ?_⟩
    exact ⟨hs.cycle, hs.cache, hs.vote, rfl, hs.rolling⟩
  | unregister m =>
    refine ⟨_, _, congrArg (returned d₁) (unregister_spec hm hc hv hri m),
      congrArg (returned d₂) (unregister_spec hm₂ hc₂ hv₂ hri m), ?_⟩
    exact ⟨hs.cycle, rfl, rfl, rfl, hs.rolling⟩
  | delegate x m =>
    simp only [Call.apply, delegate_eq hm hc hv, delegate_eq hm₂ hc₂ hv₂]
    split_ifs
    · exact ⟨_, _, rfl, rfl, hs⟩
    · exact ⟨_, _, rfl, rfl, ⟨hs.cycle, rfl, rfl, hs.masternode, hs.rolling⟩⟩
  | unDelegate x m =>
    simp only [Call.apply, unDelegate_eq hm hc hv, unDelegate_eq hm₂ hc₂ hv₂]
    split_ifs
    · exact ⟨_, _, rfl, rfl, hs⟩
    · exact ⟨_, _, rfl, rfl, hs⟩
    · exact ⟨_, _, rfl, rfl, ⟨hs.cycle, rfl, rfl, hs.masternode, hs.rolling⟩⟩
  | rolling p t w =>
    obtain ⟨T, hT, h8⟩ := h₁.counts
    refine ⟨_, _, rolling_eq_directCnt hT h8 p t w,
      rolling_eq_directCnt (hs.rolling ▸ hT) h8 p t w, ?_⟩
    exact ⟨hs.cycle, hs.cache, hs.vote, hs.masternode, rfl⟩
  | setWitnesses ws =>
    obtain ⟨cy, hcy⟩ := Option.isSome_iff_exists.1 hcy
    refine ⟨_, _, congrArg (returned d₁) (setWitnesses_eq hcy ws),
      congrArg (returned d₂) (setWitnesses_eq (hs.cycle ▸ hcy) ws), ?_⟩
    exact ⟨rfl, hs.cache, hs.vote, hs.masternode, hs.rolling⟩

theorem runCalls_append (calls : List Call) (call : Call) (d : DevoteProtocol) :
    runCalls (calls ++ [call]) d = (runCalls calls d).bind call.apply := by
  induction calls generalizing d with
  | nil => simp [runCalls]
  | cons c calls ih =>
    show (c.apply d).bind (runCalls (calls ++ [call])) =
      ((c.apply d).bind (runCalls calls)).bind call.apply
    rw [Option.bind_assoc]
    exact congrArg _ (funext ih)

/-- A manager of a chain holds the tries of the one-block run of the chain's calls. -/
theorem ChainReachable.sameTries (h : ChainReachable calls d) (db : Database) :
    ∃ e, runCalls calls (initial db) = some e ∧ SameTries d e := by
  induction h with
  | genesis h =>
    rw [newDevoteProtocol_eq, Option.some.injEq, Except.ok.injEq] at h
    exact ⟨_, rfl, h ▸ ⟨rfl, rfl, rfl, rfl, rfl⟩⟩
  | call call hd hstep ih =>
    obtain ⟨e, he, hs⟩ := ih
    obtain ⟨e₁, e₂, h₁, h₂, hs'⟩ := hs.apply hd.sound call
    exact ⟨e₂, by rw [runCalls_append, he]; exact h₂,
      Option.some.inj (h₁.symm.trans hstep) ▸ hs'⟩
  | reopen _ hc _ hopen ih =>
    obtain ⟨e, he, hs⟩ := ih
    obtain ⟨cy, ca, v, mt, r, hcy, hca, hv, hmt, hr, rfl⟩ := commit_reopen_eq hc hopen
    exact ⟨e, he, ⟨hcy.symm.trans hs.cycle, hca.symm.trans hs.cache, hv.symm.trans hs.vote,
      hmt.symm.trans hs.masternode, hr.symm.trans hs.rolling⟩⟩

/-- Commits and reopenings are invisible to the state: every manager of every chain holds the
five tries that the chain's calls leave when they run in one block from the manager of
`NewDevoteProtocol`, over any disk. -/
theorem chainReachable_sameTries (h : ChainReachable calls d) (db : Database) :
    ∃ e, runCalls calls (initial db) = some e ∧ SameTries d e :=
  h.sameTries db

theorem chainReachable_sameTries_secondBlock :
    ChainReachable [.register ⟨Address.zero.bytes, Address.zero⟩] secondBlock ∧
      ∃ e, runCalls [.register ⟨Address.zero.bytes, Address.zero⟩] (initial ⟨[], []⟩) =
        some e ∧ SameTries secondBlock e :=
  ⟨chainReachable_secondBlock, chainReachable_sameTries chainReachable_secondBlock _⟩

/-- In every block of every chain whose `Rolling` calls have block times that start from a
non-negative parent time and never decrease, the rolling trie holds, for each cycle and
witness, the number of the chain's blocks of the cycle that the witness minted, however many
commits and reopenings came between them, and no other key. -/
theorem chainReachable_rolling_counts (h : ChainReachable calls d) (t0 : BitVec 64)
    (blocks : List (BitVec 64 × Address)) (ht0 : 0 ≤ t0.toInt)
    (hchain : List.Chain (fun a b : BitVec 64 => a.toInt ≤ b.toInt) t0 (blocks.map Prod.fst))
    (hcalls : calls.filter Call.isRolling = rollingCalls t0 blocks) :
    ∃ r, d.minerRollingTrie = some r ∧
      (∀ c w, r.tryGet (putUint64 c ++ w.bytes) = countValue (mintCount blocks c w)) ∧
      ∀ k x, r.tryGet k = some x →
        ∃ (c : BitVec 64) (w : Address), k = putUint64 c ++ w.bytes := by
  obtain ⟨e, hrun, hs⟩ := h.sameTries ⟨[], []⟩
  obtain ⟨e', r, _, hrun', hr, hcounts⟩ :=
    runCalls_counts (inv_initial ⟨[], []⟩) rfl (Counts.empty t0) ht0 hchain hcalls
  obtain rfl := Option.some.inj (hrun'.symm.trans hrun)
  exact ⟨r, hs.rolling.trans hr, fun c w => by simpa using hcounts.get c w, hcounts.keys⟩

theorem chainReachable_rolling_counts_cycleTwo :
    ChainReachable [.rolling 0 3600 Address.zero, .rolling 3600 3700 Address.zero,
        .rolling 3700 7200 Address.zero] cycleTwoBlock ∧
      0 ≤ (0 : BitVec 64).toInt ∧
      List.Chain (fun a b : BitVec 64 => a.toInt ≤ b.toInt) 0
        ([(3600, Address.zero), (3700, Address.zero), (7200, Address.zero)].map Prod.fst) ∧
      [Call.rolling 0 3600 Address.zero, .rolling 3600 3700 Address.zero,
          .rolling 3700 7200 Address.zero].filter Call.isRolling =
        rollingCalls 0 [(3600, Address.zero), (3700, Address.zero), (7200, Address.zero)] ∧
      mintCount [(3600, Address.zero), (3700, Address.zero), (7200, Address.zero)] 1
        Address.zero = 2 ∧
      mintCount [(3600, Address.zero), (3700, Address.zero), (7200, Address.zero)] 2
        Address.zero = 1 ∧
      ∃ r, cycleTwoBlock.minerRollingTrie = some r ∧
        (∀ c w, r.tryGet (putUint64 c ++ w.bytes) = countValue (mintCount
          [(3600, Address.zero), (3700, Address.zero), (7200, Address.zero)] c w)) ∧
        ∀ k x, r.tryGet k = some x →
          ∃ (c : BitVec 64) (w : Address), k = putUint64 c ++ w.bytes :=
  have hchain : List.Chain (fun a b : BitVec 64 => a.toInt ≤ b.toInt) 0
      ([(3600, Address.zero), (3700, Address.zero), (7200, Address.zero)].map Prod.fst) :=
    .cons (by decide) (.cons (by decide) (.cons (by decide) .nil))
  ⟨chainReachable_cycleTwoBlock, by decide, hchain, rfl, by decide, by decide,
    chainReachable_rolling_counts chainReachable_cycleTwoBlock 0
      [(3600, Address.zero), (3700, Address.zero), (7200, Address.zero)] (by decide) hchain rfl⟩

/-! ## Every node computes the same `Root` -/

/-- `Root` reads only the five tries. -/
theorem SameTries.root_eq {d₁ d₂ : DevoteProtocol} (hs : SameTries d₁ d₂) :
    d₁.root = d₂.root := by
  simp only [root, hs.cycle, hs.cache, hs.masternode, hs.vote, hs.rolling]

/-- `Root` of a manager whose five tries are loaded does not dereference nil. -/
theorem Inv.root_isSome (hi : Inv d) : d.root.isSome := by
  obtain ⟨hcy, hro, -, mt, c, v, hm, hc, hv, -, -⟩ := hi
  obtain ⟨cy, hcy⟩ := Option.isSome_iff_exists.1 hcy
  obtain ⟨r, hro⟩ := Option.isSome_iff_exists.1 hro
  simp [root, hcy, hro, hm, hc, hv]

/-- Nodes agree on `Root` whatever blocks they commit at: two managers of chains that made
the same calls, each committed and reopened at any points over any disks, have the same
`Root`, and it is defined. -/
theorem chainReachable_root_agrees {d₁ d₂ : DevoteProtocol} (h₁ : ChainReachable calls d₁)
    (h₂ : ChainReachable calls d₂) : ∃ hash, d₁.root = some hash ∧ d₂.root = some hash := by
  obtain ⟨e, he, hs₁⟩ := h₁.sameTries ⟨[], []⟩
  obtain ⟨e₂, he₂, hs₂⟩ := h₂.sameTries ⟨[], []⟩
  obtain rfl := Option.some.inj (he.symm.trans he₂)
  obtain ⟨hash, hh⟩ := Option.isSome_iff_exists.1 h₁.sound.inv.root_isSome
  exact ⟨hash, hh, hs₂.root_eq.trans (hs₁.root_eq.symm.trans hh)⟩

theorem chainReachable_root_agrees_secondBlock :
    ChainReachable [.register ⟨Address.zero.bytes, Address.zero⟩] secondBlock ∧
      ChainReachable [.register ⟨Address.zero.bytes, Address.zero⟩] registeredZero ∧
      ∃ hash, secondBlock.root = some hash ∧ registeredZero.root = some hash :=
  have h₂ : ChainReachable [.register ⟨Address.zero.bytes, Address.zero⟩] registeredZero :=
    .call _ (.genesis rfl) rfl
  ⟨chainReachable_secondBlock, h₂, chainReachable_root_agrees chainReachable_secondBlock h₂⟩

end Devote
