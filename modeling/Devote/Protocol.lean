import Devote.Storage
import Devote.Rlp

/-!
# The consensus state manager `DevoteProtocol`

The manager holds pointers to six tries, to a node cache per trie and to the disk
database. Each pointer may be nil (`none`): `Copy` leaves most of them nil, and a
failed `FromAtomic` nils the trie it was loading. A method that dereferences a nil
pointer, or reads a counter shorter than eight bytes, panics, and its result is then
`none`. A method whose errors all come before its first write returns the new manager
or the error; `FromAtomic`, which writes before it can fail, returns both.
-/

namespace Devote

/-- `cyclePrefix`; the five constants below are the prefixes of the other tables. -/
def cyclePrefix : String := "cycle-"
def cachePrefix : String := "cache-"
def votePrefix : String := "vote-"
def masternodePrefix : String := "masternode-"
def minerRollingPrefix : String := "mintCnt-"
def voteCntPrefix : String := "voteCnt-"

/-- `NewCycleTrie`; its five siblings below differ only in the table they open. -/
def newCycleTrie (root : Hash) (db : Option Database) := openTrie cyclePrefix root db
def newCacheTrie (root : Hash) (db : Option Database) := openTrie cachePrefix root db
def newVoteTrie (root : Hash) (db : Option Database) := openTrie votePrefix root db
def newMasternodeTrie (root : Hash) (db : Option Database) := openTrie masternodePrefix root db
def newMinerRollingTrie (root : Hash) (db : Option Database) :=
  openTrie minerRollingPrefix root db
def newVoteCntTrie (root : Hash) (db : Option Database) := openTrie voteCntPrefix root db

/-- `DevoteProtocolAtomic`, the checkpoint of six roots kept in a block header. -/
structure DevoteProtocolAtomic where
  cycleHash : Hash
  cacheHash : Hash
  masternodeHash : Hash
  voteHash : Hash
  minerRollingHash : Hash
  voteCntHash : Hash
  deriving DecidableEq

/-- `DevoteProtocol`; every field is a Go pointer or interface and may be nil. -/
structure DevoteProtocol where
  cycleTrie : Option Trie
  cacheTrie : Option Trie
  voteTrie : Option Trie
  masternodeTrie : Option Trie
  minerRollingTrie : Option Trie
  voteCntTrie : Option Trie
  cycleTriedb : Option TrieDatabase
  cacheTriedb : Option TrieDatabase
  voteTriedb : Option TrieDatabase
  masternodeTriedb : Option TrieDatabase
  minerRollingTriedb : Option TrieDatabase
  voteCntTriedb : Option TrieDatabase
  diskdb : Option Database
  deriving DecidableEq

/-- The fields of `masternode.Masternode` that `Register` reads. -/
structure Masternode where
  /-- `ID`, a Go string. -/
  id : Bytes
  account : Address

/-! ## Construction -/

/-- The manager over `db` with six given tries and fresh node caches, as both
constructors build it. -/
def DevoteProtocol.withTries (db : Database)
    (cycle cache vote masternode minerRolling voteCnt : Trie) : DevoteProtocol where
  cycleTrie := some cycle
  cacheTrie := some cache
  voteTrie := some vote
  masternodeTrie := some masternode
  minerRollingTrie := some minerRolling
  voteCntTrie := some voteCnt
  cycleTriedb := some (.new cyclePrefix)
  cacheTriedb := some (.new cachePrefix)
  voteTriedb := some (.new votePrefix)
  masternodeTriedb := some (.new masternodePrefix)
  minerRollingTriedb := some (.new minerRollingPrefix)
  voteCntTriedb := some (.new voteCntPrefix)
  diskdb := some db

/-- The body shared by `NewDevoteProtocol` and `NewDevoteProtocolFromAtomic`: open the
six tries of `db` at the given roots in turn and return the first error. -/
def openDevoteProtocol (db : Database) (cycle cache vote masternode minerRolling voteCnt : Hash) :
    Option (Except DevoteError DevoteProtocol) := ExceptT.run do
  let cycleTrie ← ExceptT.mk (newCycleTrie cycle (some db))
  let cacheTrie ← ExceptT.mk (newCacheTrie cache (some db))
  let voteTrie ← ExceptT.mk (newVoteTrie vote (some db))
  let masternodeTrie ← ExceptT.mk (newMasternodeTrie masternode (some db))
  let minerRollingTrie ← ExceptT.mk (newMinerRollingTrie minerRolling (some db))
  let voteCntTrie ← ExceptT.mk (newVoteCntTrie voteCnt (some db))
  return .withTries db cycleTrie cacheTrie voteTrie masternodeTrie minerRollingTrie voteCntTrie

/-- `NewDevoteProtocol`: six empty tries over `db`. -/
def newDevoteProtocol (db : Database) : Option (Except DevoteError DevoteProtocol) :=
  openDevoteProtocol db .zero .zero .zero .zero .zero .zero

/-- `NewDevoteProtocolFromAtomic`: the six tries of `db` at the roots of a checkpoint. -/
def newDevoteProtocolFromAtomic (db : Database) (ctxAtomic : DevoteProtocolAtomic) :
    Option (Except DevoteError DevoteProtocol) :=
  openDevoteProtocol db ctxAtomic.cycleHash ctxAtomic.cacheHash ctxAtomic.voteHash
    ctxAtomic.masternodeHash ctxAtomic.minerRollingHash ctxAtomic.voteCntHash

namespace DevoteProtocol

/-! ## Registration and delegation -/

/-- `Register`: bind the masternode's id to its account address. -/
def register (d : DevoteProtocol) (masternode : Masternode) :
    Option (Except DevoteError DevoteProtocol) := do
  let masternodeTrie ← d.masternodeTrie
  return .ok { d with
    masternodeTrie := masternodeTrie.tryUpdate masternode.id masternode.account.bytes }

/-- The loop of `Unregister` over the cache entries its iterator yields: delete the
cache key `masternode ‖ delegator`, and the delegator's vote if it is for `masternode`.
`bytes.Equal` treats the nil slice of a missing vote as empty. -/
def unregisterLoop (masternode : Bytes) :
    List (Bytes × Bytes) → DevoteProtocol → Option DevoteProtocol
  | [], d => some d
  | (_, delegator) :: iter, d => do
    let key := masternode ++ delegator
    let d := { d with cacheTrie := (← d.cacheTrie).tryDelete key }
    let voteTrie ← d.voteTrie
    let v := voteTrie.tryGet delegator
    let d := if v.getD [] = masternode then { d with voteTrie := voteTrie.tryDelete delegator }
      else d
    unregisterLoop masternode iter d

/-- `Unregister`: delete the masternode, then scan the cache from the key
`masternode` on. The errors it tests for are all `MissingNodeError`s it swallows. -/
def unregister (d : DevoteProtocol) (masternodeAddr : Address) :
    Option (Except DevoteError DevoteProtocol) := do
  let masternode := masternodeAddr.bytes
  let d := { d with masternodeTrie := (← d.masternodeTrie).tryDelete masternode }
  let iter := (← d.cacheTrie).nodeIterator masternode
  return .ok (← unregisterLoop masternode iter d)

/-- `Delegate`: the target must be a registered masternode; the cache entry of the
delegator's old vote is dropped before the new cache entry and vote are written. -/
def delegate (d : DevoteProtocol) (delegatorAddr masternodeAddr : Address) :
    Option (Except DevoteError DevoteProtocol) := do
  let delegator := delegatorAddr.bytes
  let masternode := masternodeAddr.bytes
  let masternodeInTrie := (← d.masternodeTrie).tryGet masternode
  if masternodeInTrie.isNone then
    return .error (.new "invalid masternode to delegate")
  let oldMasternode := (← d.voteTrie).tryGet delegator
  let cacheTrie ← d.cacheTrie
  let cacheTrie := match oldMasternode with
    | some old => cacheTrie.tryDelete (old ++ delegator)
    | none => cacheTrie
  let cacheTrie := cacheTrie.tryUpdate (masternode ++ delegator) delegator
  let voteTrie := (← d.voteTrie).tryUpdate delegator masternode
  return .ok { d with cacheTrie := cacheTrie, voteTrie := voteTrie }

/-- `UnDelegate`: the target must be registered and be the delegator's current vote. -/
def unDelegate (d : DevoteProtocol) (delegatorAddr masternodeAddr : Address) :
    Option (Except DevoteError DevoteProtocol) := do
  let delegator := delegatorAddr.bytes
  let masternode := masternodeAddr.bytes
  let masternodeInTrie := (← d.masternodeTrie).tryGet masternode
  if masternodeInTrie.isNone then
    return .error (.new "invalid masternode to undelegate")
  let oldMasternode := (← d.voteTrie).tryGet delegator
  if masternode ≠ oldMasternode.getD [] then
    return .error (.new "mismatch masternode to undelegate")
  let cacheTrie := (← d.cacheTrie).tryDelete (masternode ++ delegator)
  let voteTrie := (← d.voteTrie).tryDelete delegator
  return .ok { d with cacheTrie := cacheTrie, voteTrie := voteTrie }

/-! ## Rotation accounting and the witness list -/

/-- `CycleInterval`, an `int64`. -/
def cycleInterval : BitVec 64 := 3600

/-- The count `Rolling` stores for `witness`: one more than the stored count of the
parent's cycle when the block stays in that cycle and the iterator from the cycle's
prefix yields a key, else 1. `none` is the panic on a stored count shorter than eight
bytes. -/
def rollingCnt (t : Trie) (currentCycle newCycle : BitVec 64) (witness : Address) :
    Option (BitVec 64) :=
  let currentCycleBytes := putUint64 currentCycle
  if currentCycle = newCycle ∧ (t.nodeIterator currentCycleBytes).isEmpty = false then
    match t.tryGet (currentCycleBytes ++ witness.bytes) with
    | some cntBytes => (· + 1) <$> uint64 cntBytes
    | none => some 1
  else some 1

/-- `Rolling`: count one more block for `witness` in the cycle of `currentBlockTime`.
Timestamps are `int64`s, divided with truncation (`sdiv`); the `uint64` and `int64`
conversions keep the bits. -/
def rolling (self : DevoteProtocol) (parentBlockTime currentBlockTime : BitVec 64)
    (witness : Address) : Option DevoteProtocol := do
  let currentMinerRollingTrie ← self.minerRollingTrie
  let currentCycle := parentBlockTime.sdiv cycleInterval
  let newCycle := currentBlockTime.sdiv cycleInterval
  let cnt ← rollingCnt currentMinerRollingTrie currentCycle newCycle witness
  let newCntBytes := putUint64 cnt
  let newCycleBytes := putUint64 newCycle
  return { self with
    minerRollingTrie := currentMinerRollingTrie.tryUpdate (newCycleBytes ++ witness.bytes)
      newCntBytes }

/-- `[]byte("witness")`, the key of the witness list in the cycle trie. -/
def witnessKey : Bytes := [0x77, 0x69, 0x74, 0x6e, 0x65, 0x73, 0x73]

/-- `SetWitnesses`, for the `[]common.Address` its callers pass; encoding such a list
cannot fail. -/
def setWitnesses (self : DevoteProtocol) (witnesses : List Address) :
    Option (Except DevoteError DevoteProtocol) := do
  let witnessesRLP := Rlp.encodeToBytes witnesses
  return .ok { self with cycleTrie := (← self.cycleTrie).tryUpdate witnessKey witnessesRLP }

/-- `GetWitnesses`: the list decoded from the `witness` key of the cycle trie, which reads
as the empty string when it is missing. `fmt.Errorf` makes an error from its text. -/
def getWitnesses (self : DevoteProtocol) : Option (Except DevoteError (List Address)) := do
  let witnessRLP := ((← self.cycleTrie).tryGet witnessKey).getD []
  return match Rlp.decodeBytes witnessRLP with
    | .error err => .error (.new ("failed to decode witnesses: " ++ err.text))
    | .ok witnesses => .ok witnesses

/-! ## Roots, checkpoints and snapshots -/

/-- `DevoteProtocol.Root`: the hash of five of the six roots. -/
def root (d : DevoteProtocol) : Option Hash := do
  return .rlpHash [(← d.cycleTrie).hash, (← d.cacheTrie).hash, (← d.masternodeTrie).hash,
    (← d.voteTrie).hash, (← d.minerRollingTrie).hash]

/-- `ProtocolAtomic`: the six current roots. -/
def protocolAtomic (d : DevoteProtocol) : Option DevoteProtocolAtomic := do
  return {
    cycleHash := (← d.cycleTrie).hash, cacheHash := (← d.cacheTrie).hash,
    masternodeHash := (← d.masternodeTrie).hash, voteHash := (← d.voteTrie).hash,
    minerRollingHash := (← d.minerRollingTrie).hash, voteCntHash := (← d.voteCntTrie).hash }

/-- `Copy`: the five tries other than `voteCntTrie`, copied by value; every other
field of the copy is nil. -/
def copy (d : DevoteProtocol) : Option DevoteProtocol := do
  return {
    cycleTrie := some (← d.cycleTrie), cacheTrie := some (← d.cacheTrie),
    voteTrie := some (← d.voteTrie), masternodeTrie := some (← d.masternodeTrie),
    minerRollingTrie := some (← d.minerRollingTrie), voteCntTrie := none,
    cycleTriedb := none, cacheTriedb := none, voteTriedb := none, masternodeTriedb := none,
    minerRollingTriedb := none, voteCntTriedb := none, diskdb := none }

/-- `Snapshot`. -/
def snapshot (d : DevoteProtocol) : Option DevoteProtocol := d.copy

/-- `RevertToSnapShot`: take back the five trie pointers of the snapshot. -/
def revertToSnapShot (d snapshot : DevoteProtocol) : DevoteProtocol :=
  { d with
    cycleTrie := snapshot.cycleTrie, cacheTrie := snapshot.cacheTrie,
    masternodeTrie := snapshot.masternodeTrie, voteTrie := snapshot.voteTrie,
    minerRollingTrie := snapshot.minerRollingTrie }

/-- `FromAtomic`: reload five tries from the disk in turn. Each trie pointer is
assigned before its error is tested, so the failing one is left nil. -/
def fromAtomic (d : DevoteProtocol) (dcp : DevoteProtocolAtomic) :
    Option (DevoteProtocol × Option DevoteError) := do
  let r ← newCycleTrie dcp.cycleHash d.diskdb
  let d := { d with cycleTrie := r.toOption }
  if let .error err := r then return (d, some err)
  let r ← newCacheTrie dcp.cacheHash d.diskdb
  let d := { d with cacheTrie := r.toOption }
  if let .error err := r then return (d, some err)
  let r ← newMasternodeTrie dcp.masternodeHash d.diskdb
  let d := { d with masternodeTrie := r.toOption }
  if let .error err := r then return (d, some err)
  let r ← newVoteTrie dcp.voteHash d.diskdb
  let d := { d with voteTrie := r.toOption }
  if let .error err := r then return (d, some err)
  let r ← newMinerRollingTrie dcp.minerRollingHash d.diskdb
  let d := { d with minerRollingTrie := r.toOption }
  return (d, match r with | .error err => some err | .ok _ => none)

/-- `SetCycle`; the five setters below assign the other trie pointers. -/
def setCycle (dc : DevoteProtocol) (cycle : Option Trie) := { dc with cycleTrie := cycle }
def setCache (dc : DevoteProtocol) (cache : Option Trie) := { dc with cacheTrie := cache }
def setVote (dc : DevoteProtocol) (vote : Option Trie) := { dc with voteTrie := vote }
def setMasternode (dc : DevoteProtocol) (masternode : Option Trie) :=
  { dc with masternodeTrie := masternode }
def setMinerRollingTrie (dc : DevoteProtocol) (rolling : Option Trie) :=
  { dc with minerRollingTrie := rolling }
def setVoteCnt (dc : DevoteProtocol) (voteCnt : Option Trie) := { dc with voteCntTrie := voteCnt }

/-- One table's step of `Commit` after the first: commit the trie to its node cache and
write the cache out, dropping the error of the write as `Commit` does. -/
def commitDropping (t : Trie) (triedb : TrieDatabase) (disk : Database) :
    Hash × TrieDatabase × Database :=
  let (root, triedb) := t.commitTo triedb
  match triedb.commit root disk with
  | .ok (triedb, disk) => (root, triedb, disk)
  | .error _ => (root, triedb, disk)

/-- `Commit`. `CommitTo` into a node cache cannot fail. A failed write of the cycle
table returns the nil checkpoint with `err`, the nil error of `CommitTo`; the writes
of the other tables have their errors dropped; the `voteCnt` trie is not committed and
its root is left zero. The `db` argument is unused. -/
def commit (d : DevoteProtocol) (_db : Database) :
    Option (DevoteProtocol × Except DevoteError (Option DevoteProtocolAtomic)) := do
  let cycle := (← d.cycleTrie).commitTo (← d.cycleTriedb)
  let d := { d with cycleTriedb := cycle.2 }
  match cycle.2.commit cycle.1 (← d.diskdb) with
  | .error _ => return (d, .ok none)
  | .ok written => commitRest d cycle.1 written.1 written.2
where
  /-- `Commit` after the cycle table is written. -/
  commitRest (d : DevoteProtocol) (cycleRoot : Hash) (cycleTriedb : TrieDatabase)
      (disk : Database) :
      Option (DevoteProtocol × Except DevoteError (Option DevoteProtocolAtomic)) := do
    let cache := commitDropping (← d.cacheTrie) (← d.cacheTriedb) disk
    let vote := commitDropping (← d.voteTrie) (← d.voteTriedb) cache.2.2
    let masternode := commitDropping (← d.masternodeTrie) (← d.masternodeTriedb) vote.2.2
    let minerRolling :=
      commitDropping (← d.minerRollingTrie) (← d.minerRollingTriedb) masternode.2.2
    let d := { d with
      cycleTriedb := cycleTriedb, cacheTriedb := cache.2.1, voteTriedb := vote.2.1,
      masternodeTriedb := masternode.2.1, minerRollingTriedb := minerRolling.2.1,
      diskdb := minerRolling.2.2 }
    return (d, .ok (some {
      cycleHash := cycleRoot, cacheHash := cache.1, voteHash := vote.1,
      masternodeHash := masternode.1, minerRollingHash := minerRolling.1,
      voteCntHash := .zero }))

end DevoteProtocol

/-- `DevoteProtocolAtomic.Root`: the hash of all six roots. -/
def DevoteProtocolAtomic.root (p : DevoteProtocolAtomic) : Hash :=
  .rlpHash [p.cycleHash, p.cacheHash, p.masternodeHash, p.voteHash, p.minerRollingHash,
    p.voteCntHash]

end Devote
