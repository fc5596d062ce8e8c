import Devote.Delegation

/-!
# Roots, checkpoints, snapshots and reloading

The six roots of a manager are its checkpoint, `DevoteProtocolAtomic`. `ProtocolAtomic`
reads all six, but `Root` hashes only five of them while `DevoteProtocolAtomic.Root`
hashes six; `Commit` writes five tries and leaves `VoteCntHash` zero; `Copy` and
`RevertToSnapShot` carry five tries; `FromAtomic` reloads five and assigns each trie
before it tests the error of its load. This module states what each of these does on
every manager, evaluates the places where the `voteCnt` trie is left out, and shows that
from every reachable manager, when no disk write fails, the checkpoint of `Commit`
reopens the five tries it wrote.
-/

namespace Devote

open DevoteProtocol

variable {d d' d₁ s : DevoteProtocol} {p a : DevoteProtocolAtomic} {db : Database}

/-- A trie holding one entry, `[0] ↦ [1]`. -/
def oneEntry : Trie := Trie.empty.tryUpdate [0] [1]

/-! ## Roots -/

theorem protocolAtomic_eq_some (h : d.protocolAtomic = some p) :
    ∃ cy ca mt v r vc, d.cycleTrie = some cy ∧ d.cacheTrie = some ca ∧
      d.masternodeTrie = some mt ∧ d.voteTrie = some v ∧ d.minerRollingTrie = some r ∧
      d.voteCntTrie = some vc ∧ p = ⟨cy.hash, ca.hash, mt.hash, v.hash, r.hash, vc.hash⟩ := by
  simp only [protocolAtomic, Option.bind_eq_bind, Option.bind_eq_some, Option.pure_def,
    Option.some.injEq] at h
  obtain ⟨cy, hcy, ca, hca, mt, hmt, v, hv, r, hr, vc, hvc, rfl⟩ := h
  exact ⟨cy, ca, mt, v, r, vc, hcy, hca, hmt, hv, hr, hvc, rfl⟩

/-- `Root` hashes the first five of the roots `ProtocolAtomic` reports. -/
theorem root_eq_of_protocolAtomic (h : d.protocolAtomic = some p) :
    d.root = some (.rlpHash [p.cycleHash, p.cacheHash, p.masternodeHash, p.voteHash,
      p.minerRollingHash]) := by
  obtain ⟨cy, ca, mt, v, r, vc, hcy, hca, hmt, hv, hr, -, rfl⟩ := protocolAtomic_eq_some h
  simp [root, hcy, hca, hmt, hv, hr]

/-- `Root` never agrees with the root of `ProtocolAtomic`: five roots are hashed
against six. -/
theorem root_ne_atomic_root (h : d.protocolAtomic = some p) : d.root ≠ some p.root := by
  rw [root_eq_of_protocolAtomic h]
  simp [DevoteProtocolAtomic.root]

/-! ## The checkpoint of `Commit` -/

/-- One table's step of `Commit` returns the root of its trie. -/
@[simp] theorem commitDropping_fst (t : Trie) (triedb : TrieDatabase) (disk : Database) :
    (commitDropping t triedb disk).1 = t.hash := by
  simp only [commitDropping, Trie.commitTo]
  split <;> rfl

/-- A checkpoint that `Commit` returns has the current roots of five tries and the zero
`VoteCntHash`. -/
theorem commit_checkpoint (h : d.commit db = some (d', .ok (some a))) :
    ∃ cy ca mt v r, d.cycleTrie = some cy ∧ d.cacheTrie = some ca ∧
      d.masternodeTrie = some mt ∧ d.voteTrie = some v ∧ d.minerRollingTrie = some r ∧
      a = ⟨cy.hash, ca.hash, mt.hash, v.hash, r.hash, .zero⟩ := by
  simp only [commit, Option.bind_eq_bind, Option.bind_eq_some] at h
  obtain ⟨cy, hcy, cdb, -, disk, -, h⟩ := h
  split at h
  · cases h
  · rw [commit.commitRest] at h
    obtain ⟨ca, hca, h⟩ := Option.bind_eq_some.1 h
    obtain ⟨_, -, h⟩ := Option.bind_eq_some.1 h
    obtain ⟨v, hv, h⟩ := Option.bind_eq_some.1 h
    obtain ⟨_, -, h⟩ := Option.bind_eq_some.1 h
    obtain ⟨mt, hmt, h⟩ := Option.bind_eq_some.1 h
    obtain ⟨_, -, h⟩ := Option.bind_eq_some.1 h
    obtain ⟨r, hr, h⟩ := Option.bind_eq_some.1 h
    obtain ⟨_, -, h⟩ := Option.bind_eq_some.1 h
    cases h
    exact ⟨cy, ca, mt, v, r, hcy, hca, hmt, hv, hr, by simp only [commitDropping_fst]; rfl⟩

/-- A checkpoint that `Commit` returns is never the one `ProtocolAtomic` reports before
it, and its root is never `Root`. -/
theorem commit_checkpoint_ne (h : d.commit db = some (d', .ok (some a)))
    (hp : d.protocolAtomic = some p) : a ≠ p ∧ some a.root ≠ d.root := by
  obtain ⟨cy, ca, mt, v, r, hcy, hca, hmt, hv, hr, rfl⟩ := commit_checkpoint h
  obtain ⟨_, _, _, _, _, vc, -, -, -, -, -, -, rfl⟩ := protocolAtomic_eq_some hp
  refine ⟨fun h' => Trie.hash_ne_zero vc (congrArg DevoteProtocolAtomic.voteCntHash h').symm, ?_⟩
  rw [root_eq_of_protocolAtomic hp]
  simp [DevoteProtocolAtomic.root]

/-- On the manager of `NewDevoteProtocol`, `Root` differs from the root of
`ProtocolAtomic`, and the checkpoint `Commit` returns differs from `ProtocolAtomic` and
has a root other than `Root`. -/
theorem roots_disagree_initial :
    (initial ⟨[], []⟩).root ≠ (initial ⟨[], []⟩).protocolAtomic.map DevoteProtocolAtomic.root ∧
    ∃ d' a, (initial ⟨[], []⟩).commit ⟨[], []⟩ = some (d', .ok (some a)) ∧
      (initial ⟨[], []⟩).protocolAtomic ≠ some a ∧ some a.root ≠ (initial ⟨[], []⟩).root := by
  obtain ⟨d', a, hc⟩ : ∃ d' a, (initial ⟨[], []⟩).commit ⟨[], []⟩ = some (d', .ok (some a)) :=
    ⟨_, _, rfl⟩
  obtain ⟨hne, hroot⟩ := commit_checkpoint_ne hc rfl
  exact ⟨root_ne_atomic_root rfl, d', a, hc, fun h => hne (Option.some.inj h).symm, hroot⟩

/-- `Commit` of the manager of `NewDevoteProtocol` after `SetWitnesses([])`, over a disk
whose cycle table fails its writes, returns the nil checkpoint with the nil error; and
`Commit` of a manager with a `voteCnt` trie of one entry returns a checkpoint from which
`NewDevoteProtocolFromAtomic` opens an empty `voteCnt` trie. -/
theorem commit_loses_state :
    (∃ d₁ d', (initial ⟨[], [cyclePrefix]⟩).setWitnesses [] = some (.ok d₁) ∧
      d₁.commit ⟨[], [cyclePrefix]⟩ = some (d', .ok none)) ∧
    ∃ d' a disk n,
      ((initial ⟨[], []⟩).setVoteCnt (some oneEntry)).commit ⟨[], []⟩ = some (d', .ok (some a)) ∧
      d'.diskdb = some disk ∧ newDevoteProtocolFromAtomic disk a = some (.ok n) ∧
      n.voteCntTrie ≠ some oneEntry :=
  ⟨⟨_, _, rfl, rfl⟩, _, _, _, _, rfl, rfl, rfl, by decide⟩

/-! ## Snapshots -/

/-- Whatever became of the manager since `Snapshot`, `RevertToSnapShot` takes back its
five tries and with them `Root`; the `voteCnt` trie stays the current one. -/
theorem revertToSnapShot_snapshot (hs : d.snapshot = some s) (d₁ : DevoteProtocol) :
    let d₂ := d₁.revertToSnapShot s
    d₂.cycleTrie = d.cycleTrie ∧ d₂.cacheTrie = d.cacheTrie ∧
      d₂.masternodeTrie = d.masternodeTrie ∧ d₂.voteTrie = d.voteTrie ∧
      d₂.minerRollingTrie = d.minerRollingTrie ∧ d₂.voteCntTrie = d₁.voteCntTrie ∧
      d₂.root = d.root := by
  simp only [snapshot, copy, Option.bind_eq_bind, Option.bind_eq_some, Option.pure_def,
    Option.some.injEq] at hs
  obtain ⟨cy, hcy, ca, hca, v, hv, mt, hmt, r, hr, rfl⟩ := hs
  simp [revertToSnapShot, root, hcy, hca, hv, hmt, hr]

/-- `Snapshot` of the manager of `NewDevoteProtocol`, then `SetVoteCnt` of a trie with
one entry, then `RevertToSnapShot`: the `voteCnt` trie and `ProtocolAtomic` are not
those of the snapshot time. -/
theorem revert_keeps_voteCnt :
    ∃ s, (initial ⟨[], []⟩).snapshot = some s ∧
      (((initial ⟨[], []⟩).setVoteCnt (some oneEntry)).revertToSnapShot s).voteCntTrie ≠
        (initial ⟨[], []⟩).voteCntTrie ∧
      (((initial ⟨[], []⟩).setVoteCnt (some oneEntry)).revertToSnapShot s).protocolAtomic ≠
        (initial ⟨[], []⟩).protocolAtomic := by
  obtain ⟨s, hs⟩ : ∃ s, (initial ⟨[], []⟩).snapshot = some s := ⟨_, rfl⟩
  obtain ⟨-, -, -, -, -, hvc, -⟩ :=
    revertToSnapShot_snapshot hs ((initial ⟨[], []⟩).setVoteCnt (some oneEntry))
  refine ⟨s, hs, by rw [hvc]; decide, ?_⟩
  cases hs
  decide

/-! ## Reloading a checkpoint -/

/-- The checkpoint of six empty tries, which `ProtocolAtomic` reports for the manager of
`NewDevoteProtocol`. -/
def emptyAtomic : DevoteProtocolAtomic :=
  ⟨emptyRoot, emptyRoot, emptyRoot, emptyRoot, emptyRoot, emptyRoot⟩

/-- The six loads of `NewDevoteProtocolFromAtomic` all succeed: the manager over `db`
with the loaded tries. -/
theorem newDevoteProtocolFromAtomic_of_ok {cy ca v mt r vc : Trie}
    (h₁ : newCycleTrie a.cycleHash (some db) = some (.ok cy))
    (h₂ : newCacheTrie a.cacheHash (some db) = some (.ok ca))
    (h₃ : newVoteTrie a.voteHash (some db) = some (.ok v))
    (h₄ : newMasternodeTrie a.masternodeHash (some db) = some (.ok mt))
    (h₅ : newMinerRollingTrie a.minerRollingHash (some db) = some (.ok r))
    (h₆ : newVoteCntTrie a.voteCntHash (some db) = some (.ok vc)) :
    newDevoteProtocolFromAtomic db a = some (.ok (.withTries db cy ca v mt r vc)) := by
  simp [newDevoteProtocolFromAtomic, openDevoteProtocol, h₁, h₂, h₃, h₄, h₅, h₆, ExceptT.run,
    ExceptT.mk, bind, ExceptT.bind, ExceptT.bindCont, pure, ExceptT.pure]

/-- One step of a do block in `ExceptT DevoteError Option` that ends in a value: the step
returned a value, and the rest of the block ended in it. -/
theorem exceptT_bind_eq_ok {α β : Type} {x : ExceptT DevoteError Option α}
    {f : α → ExceptT DevoteError Option β} {y : β} (h : (x >>= f).run = some (.ok y)) :
    ∃ a, x.run = some (.ok a) ∧ (f a).run = some (.ok y) := by
  simp only [ExceptT.run, bind, ExceptT.bind, ExceptT.bindCont, ExceptT.mk] at h
  obtain ⟨_ | a, hx, h⟩ := Option.bind_eq_some.1 h
  · cases h
  · exact ⟨a, hx, h⟩

/-- The manager that the six loads of `NewDevoteProtocol` or `NewDevoteProtocolFromAtomic`
return, when none fails. -/
theorem openDevoteProtocol_eq_ok {h₁ h₂ h₃ h₄ h₅ h₆ : Hash}
    (h : openDevoteProtocol db h₁ h₂ h₃ h₄ h₅ h₆ = some (.ok d)) :
    ∃ cy ca v mt r vc, newCycleTrie h₁ (some db) = some (.ok cy) ∧
      newCacheTrie h₂ (some db) = some (.ok ca) ∧ newVoteTrie h₃ (some db) = some (.ok v) ∧
      newMasternodeTrie h₄ (some db) = some (.ok mt) ∧
      newMinerRollingTrie h₅ (some db) = some (.ok r) ∧
      newVoteCntTrie h₆ (some db) = some (.ok vc) ∧ d = .withTries db cy ca v mt r vc := by
  obtain ⟨cy, he₁, h⟩ := exceptT_bind_eq_ok h
  obtain ⟨ca, he₂, h⟩ := exceptT_bind_eq_ok h
  obtain ⟨v, he₃, h⟩ := exceptT_bind_eq_ok h
  obtain ⟨mt, he₄, h⟩ := exceptT_bind_eq_ok h
  obtain ⟨r, he₅, h⟩ := exceptT_bind_eq_ok h
  obtain ⟨vc, he₆, h⟩ := exceptT_bind_eq_ok h
  exact ⟨cy, ca, v, mt, r, vc, he₁, he₂, he₃, he₄, he₅, he₆,
    (Except.ok.inj (Option.some.inj h)).symm⟩

/-- What `FromAtomic` leaves: the `voteCnt` trie as it was; after an error one of the
five tries nil; after nil the five tries that the checkpoint's roots open. -/
theorem fromAtomic_spec {e : Option DevoteError} (h : d.fromAtomic a = some (d', e)) :
    d'.voteCntTrie = d.voteCntTrie ∧
    (e ≠ none → d'.cycleTrie = none ∨ d'.cacheTrie = none ∨ d'.masternodeTrie = none ∨
      d'.voteTrie = none ∨ d'.minerRollingTrie = none) ∧
    (e = none → ∃ cy ca mt v r, newCycleTrie a.cycleHash d.diskdb = some (.ok cy) ∧
      newCacheTrie a.cacheHash d.diskdb = some (.ok ca) ∧
      newMasternodeTrie a.masternodeHash d.diskdb = some (.ok mt) ∧
      newVoteTrie a.voteHash d.diskdb = some (.ok v) ∧
      newMinerRollingTrie a.minerRollingHash d.diskdb = some (.ok r) ∧
      d' = { d with
        cycleTrie := some cy, cacheTrie := some ca, masternodeTrie := some mt,
        voteTrie := some v, minerRollingTrie := some r }) := by
  simp only [fromAtomic, Option.bind_eq_bind, Option.pure_def, Option.some_bind] at h
  rcases h₁ : newCycleTrie a.cycleHash d.diskdb with _ | _ | cy <;>
    simp only [h₁, Option.none_bind, Option.some_bind, reduceCtorEq, Option.some.injEq,
      Prod.mk.injEq] at h
  · obtain ⟨rfl, rfl⟩ := h
    exact ⟨rfl, fun _ => .inl rfl, nofun⟩
  rcases h₂ : newCacheTrie a.cacheHash d.diskdb with _ | _ | ca <;>
    simp only [h₂, Option.none_bind, Option.some_bind, reduceCtorEq, Option.some.injEq,
      Prod.mk.injEq] at h
  · obtain ⟨rfl, rfl⟩ := h
    exact ⟨rfl, fun _ => .inr (.inl rfl), nofun⟩
  rcases h₃ : newMasternodeTrie a.masternodeHash d.diskdb with _ | _ | mt <;>
    simp only [h₃, Option.none_bind, Option.some_bind, reduceCtorEq, Option.some.injEq,
      Prod.mk.injEq] at h
  · obtain ⟨rfl, rfl⟩ := h
    exact ⟨rfl, fun _ => .inr (.inr (.inl rfl)), nofun⟩
  rcases h₄ : newVoteTrie a.voteHash d.diskdb with _ | _ | v <;>
    simp only [h₄, Option.none_bind, Option.some_bind, reduceCtorEq, Option.some.injEq,
      Prod.mk.injEq] at h
  · obtain ⟨rfl, rfl⟩ := h
    exact ⟨rfl, fun _ => .inr (.inr (.inr (.inl rfl))), nofun⟩
  rcases h₅ : newMinerRollingTrie a.minerRollingHash d.diskdb with _ | _ | r <;>
    simp only [h₅, Option.none_bind, Option.some_bind, reduceCtorEq, Option.some.injEq,
      Prod.mk.injEq] at h
  · obtain ⟨rfl, rfl⟩ := h
    exact ⟨rfl, fun _ => .inr (.inr (.inr (.inr rfl))), nofun⟩
  · obtain ⟨rfl, rfl⟩ := h
    exact ⟨rfl, nofun, fun _ => ⟨cy, ca, mt, v, r, rfl, rfl, rfl, rfl, rfl, rfl⟩⟩

/-- `FromAtomic` that returns nil agrees with `NewDevoteProtocolFromAtomic` over the same
disk on five tries; the `voteCnt` trie is the one before the call, whatever the
checkpoint's `VoteCntHash` opens. -/
theorem fromAtomic_agrees {vc : Trie} (hdb : d.diskdb = some db)
    (h : d.fromAtomic a = some (d', none))
    (hvc : newVoteCntTrie a.voteCntHash (some db) = some (.ok vc)) :
    ∃ n, newDevoteProtocolFromAtomic db a = some (.ok n) ∧ n.cycleTrie = d'.cycleTrie ∧
      n.cacheTrie = d'.cacheTrie ∧ n.masternodeTrie = d'.masternodeTrie ∧
      n.voteTrie = d'.voteTrie ∧ n.minerRollingTrie = d'.minerRollingTrie ∧
      n.voteCntTrie = some vc ∧ d'.voteCntTrie = d.voteCntTrie := by
  obtain ⟨hkeep, -, hok⟩ := fromAtomic_spec h
  obtain ⟨cy, ca, mt, v, r, h₁, h₂, h₃, h₄, h₅, rfl⟩ := hok rfl
  rw [hdb] at h₁ h₂ h₃ h₄ h₅
  exact ⟨_, newDevoteProtocolFromAtomic_of_ok h₁ h₂ h₄ h₃ h₅ hvc, rfl, rfl, rfl, rfl, rfl, rfl,
    hkeep⟩

/-- `FromAtomic` of the empty checkpoint on the manager of `NewDevoteProtocol` with a
`voteCnt` trie of one entry returns nil but keeps that trie, where
`NewDevoteProtocolFromAtomic` opens an empty one; and `FromAtomic` of a checkpoint whose
cycle root is not on the disk returns an error and leaves the cycle trie nil. -/
theorem fromAtomic_keeps_voteCnt_and_drops_cycle :
    (∃ d', ((initial ⟨[], []⟩).setVoteCnt (some oneEntry)).fromAtomic emptyAtomic =
        some (d', none) ∧
      newDevoteProtocolFromAtomic ⟨[], []⟩ emptyAtomic = some (.ok (initial ⟨[], []⟩)) ∧
      d'.voteCntTrie ≠ (initial ⟨[], []⟩).voteCntTrie) ∧
    ∃ d' e, (initial ⟨[], []⟩).fromAtomic { emptyAtomic with cycleHash := oneEntry.hash } =
        some (d', some e) ∧ d'.cycleTrie ≠ (initial ⟨[], []⟩).cycleTrie := by
  obtain ⟨d', hd'⟩ : ∃ d', ((initial ⟨[], []⟩).setVoteCnt (some oneEntry)).fromAtomic
      emptyAtomic = some (d', none) := ⟨_, rfl⟩
  obtain ⟨-, -, -, -, -, -, -, -, hkeep⟩ := fromAtomic_agrees rfl hd' rfl
  exact ⟨⟨d', hd', rfl, by rw [hkeep]; decide⟩, _, _, rfl, by decide⟩

/-! ## Writing a checkpoint and reading it back -/

/-- One table's step of `Commit` on a disk where no write fails: the trie is stored, and
the disk keeps what it held. -/
theorem commitDropping_stored (t : Trie) (triedb : TrieDatabase) {disk : Database}
    (hfail : disk.failing = []) :
    Stored triedb.table t (commitDropping t triedb disk).2.2 ∧
      disk.tables ⊆ (commitDropping t triedb disk).2.2.tables ∧
      (commitDropping t triedb disk).2.2.failing = [] := by
  simp only [commitDropping]
  split
  · rename_i h
    obtain ⟨hsub, hf⟩ := commit_disk h
    exact ⟨by simpa using commit_stored h, hsub, hf.trans hfail⟩
  · rename_i h
    exact absurd h (commit_ne_error (by simp [hfail]))

/-- A manager ready for `Commit`: five loaded tries, each node cache over the table of
its trie, and a disk. -/
structure Committable (d : DevoteProtocol) (cy ca v mt r : Trie) (disk : Database) :
    Prop where
  cycle : d.cycleTrie = some cy
  cache : d.cacheTrie = some ca
  vote : d.voteTrie = some v
  masternode : d.masternodeTrie = some mt
  minerRolling : d.minerRollingTrie = some r
  cycleTriedb : ∃ triedb, d.cycleTriedb = some triedb ∧ triedb.table = cyclePrefix
  cacheTriedb : ∃ triedb, d.cacheTriedb = some triedb ∧ triedb.table = cachePrefix
  voteTriedb : ∃ triedb, d.voteTriedb = some triedb ∧ triedb.table = votePrefix
  masternodeTriedb : ∃ triedb, d.masternodeTriedb = some triedb ∧
    triedb.table = masternodePrefix
  minerRollingTriedb : ∃ triedb, d.minerRollingTriedb = some triedb ∧
    triedb.table = minerRollingPrefix
  diskdb : d.diskdb = some disk

/-- When no table of the disk fails its writes, `Commit` returns a checkpoint from which
`NewDevoteProtocolFromAtomic` over the written disk opens the five committed tries and
an empty `voteCnt` trie. -/
theorem commit_reopens {cy ca v mt r : Trie} {disk : Database}
    (hd : Committable d cy ca v mt r disk) (hfail : disk.failing = []) (db : Database) :
    ∃ d' a disk', d.commit db = some (d', .ok (some a)) ∧ d'.diskdb = some disk' ∧
      newDevoteProtocolFromAtomic disk' a = some (.ok (.withTries disk' cy ca v mt r .empty)) := by
  obtain ⟨hcy, hca, hv, hmt, hr, ⟨⟨_, cdb⟩, hcdb, rfl⟩, ⟨⟨_, cadb⟩, hcadb, rfl⟩,
    ⟨⟨_, vdb⟩, hvdb, rfl⟩, ⟨⟨_, mdb⟩, hmdb, rfl⟩, ⟨⟨_, rdb⟩, hrdb, rfl⟩, hdisk⟩ := hd
  obtain ⟨⟨cdb', disk₁⟩, h₁⟩ :
      ∃ w, (cy.commitTo ⟨cyclePrefix, cdb⟩).2.commit cy.hash disk = .ok w := by
    cases h : (cy.commitTo ⟨cyclePrefix, cdb⟩).2.commit cy.hash disk with
    | error e => exact absurd h (commit_ne_error (by simp [hfail]))
    | ok w => exact ⟨w, rfl⟩
  obtain ⟨hsub₁, hf₁⟩ := commit_disk h₁
  have hs₁ := commit_stored h₁
  obtain ⟨hs₂, hsub₂, hf₂⟩ := commitDropping_stored ca ⟨cachePrefix, cadb⟩ (hf₁.trans hfail)
  obtain ⟨hs₃, hsub₃, hf₃⟩ := commitDropping_stored v ⟨votePrefix, vdb⟩ hf₂
  obtain ⟨hs₄, hsub₄, hf₄⟩ := commitDropping_stored mt ⟨masternodePrefix, mdb⟩ hf₃
  obtain ⟨hs₅, hsub₅, -⟩ := commitDropping_stored r ⟨minerRollingPrefix, rdb⟩ hf₄
  refine ⟨_, _, _, by
      simp only [commit, hcy, hcdb, hdisk, Option.bind_eq_bind, Option.some_bind, commitTo_fst, h₁,
        commit.commitRest, hca, hcadb, hv, hvdb, hmt, hmdb, hr, hrdb, Option.pure_def]; rfl,
    by rfl, newDevoteProtocolFromAtomic_of_ok ?_ ?_ ?_ ?_ ?_ (by rfl)⟩
  · simpa using openTrie_of_stored (hs₁.mono fun _ hx => hsub₅ (hsub₄ (hsub₃ (hsub₂ hx))))
  · simpa using openTrie_of_stored (hs₂.mono fun _ hx => hsub₅ (hsub₄ (hsub₃ hx)))
  · simpa using openTrie_of_stored (hs₃.mono fun _ hx => hsub₅ (hsub₄ hx))
  · simpa using openTrie_of_stored (hs₄.mono fun _ hx => hsub₅ hx)
  · simpa using openTrie_of_stored hs₅

/-- Every reachable manager is ready for `Commit`. -/
theorem committable_of_reachable (h : Reachable d) :
    ∃ cy ca v mt r disk, Committable d cy ca v mt r disk := by
  obtain ⟨hcy, hro, ⟨disk, hcdb, hcadb, hvdb, hmdb, hrdb, hdisk⟩, mt, ca, v, hm, hca, hv, -, -⟩ :=
    inv_of_reachable h
  obtain ⟨cy, hcy⟩ := Option.isSome_iff_exists.1 hcy
  obtain ⟨r, hr⟩ := Option.isSome_iff_exists.1 hro
  exact ⟨cy, ca, v, mt, r, disk, hcy, hca, hv, hm, hr, ⟨_, hcdb, rfl⟩, ⟨_, hcadb, rfl⟩,
    ⟨_, hvdb, rfl⟩, ⟨_, hmdb, rfl⟩, ⟨_, hrdb, rfl⟩, hdisk⟩

/-- From every reachable manager over a disk where no write fails, `Commit` returns a
checkpoint that `NewDevoteProtocolFromAtomic` reopens to the manager's five tries and an
empty `voteCnt` trie. -/
theorem reachable_commit_reopens (h : Reachable d) (db : Database) :
    ∃ cy ca v mt r disk, Committable d cy ca v mt r disk ∧ (disk.failing = [] →
      ∃ d' a disk', d.commit db = some (d', .ok (some a)) ∧ d'.diskdb = some disk' ∧
        newDevoteProtocolFromAtomic disk' a =
          some (.ok (.withTries disk' cy ca v mt r .empty))) := by
  obtain ⟨cy, ca, v, mt, r, disk, hd⟩ := committable_of_reachable h
  exact ⟨cy, ca, v, mt, r, disk, hd, fun hfail => commit_reopens hd hfail db⟩

theorem reachable_commit_reopens_delegated :
    Reachable delegatedZero ∧
      ∃ cy ca v mt r disk, Committable delegatedZero cy ca v mt r disk ∧
        (disk.failing = [] → ∃ d' a disk', delegatedZero.commit ⟨[], []⟩ =
          some (d', .ok (some a)) ∧ d'.diskdb = some disk' ∧
          newDevoteProtocolFromAtomic disk' a = some (.ok (.withTries disk' cy ca v mt r .empty))) :=
  ⟨reachable_delegatedZero, reachable_commit_reopens reachable_delegatedZero ⟨[], []⟩⟩

/-- On every disk, a manager that `NewDevoteProtocolFromAtomic` opens from a checkpoint
`Commit` returned holds exactly the five tries `Commit` wrote and an empty `voteCnt` trie,
over fresh node caches: a reopening that succeeds never yields a stale or partial state,
whichever writes of `Commit` failed. -/
theorem commit_reopen_eq (hc : d.commit db = some (d₁, .ok (some a)))
    {disk : Database} (hopen : newDevoteProtocolFromAtomic disk a = some (.ok d')) :
    ∃ cy ca v mt r, d.cycleTrie = some cy ∧ d.cacheTrie = some ca ∧ d.voteTrie = some v ∧
      d.masternodeTrie = some mt ∧ d.minerRollingTrie = some r ∧
      d' = .withTries disk cy ca v mt r .empty := by
  obtain ⟨cy, ca, mt, v, r, hcy, hca, hmt, hv, hr, rfl⟩ := commit_checkpoint hc
  obtain ⟨cy', ca', v', mt', r', vc, h₁, h₂, h₃, h₄, h₅, h₆, rfl⟩ := openDevoteProtocol_eq_ok hopen
  obtain rfl := openTrie_hash h₁
  obtain rfl := openTrie_hash h₂
  obtain rfl := openTrie_hash h₃
  obtain rfl := openTrie_hash h₄
  obtain rfl := openTrie_hash h₅
  obtain rfl : vc = .empty := by simpa [newVoteCntTrie, openTrie] using h₆.symm
  exact ⟨_, _, _, _, _, hcy, hca, hv, hmt, hr, rfl⟩

end Devote
