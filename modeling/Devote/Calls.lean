import Devote.Protocol

/-!
# The calls of the block pipeline

Block processing opens a manager and then calls `Register`, `Unregister`, `Delegate`,
`UnDelegate`, `Rolling` and `SetWitnesses` on it in any order. A call that returns an
error has written nothing, so the manager after it is the one before. This module
states what each call does on a manager whose tries are loaded, and defines the
managers reachable from `NewDevoteProtocol`.
-/

namespace Devote

open DevoteProtocol

/-- The empty manager `NewDevoteProtocol` builds over `db`. -/
def initial (db : Database) : DevoteProtocol :=
  .withTries db .empty .empty .empty .empty .empty .empty

theorem newDevoteProtocol_eq (db : Database) :
    newDevoteProtocol db = some (.ok (initial db)) :=
  rfl

/-- The node caches that `NewDevoteProtocol` makes, over the disk `db`; no call of the
block pipeline replaces them. -/
def FreshStorage (d : DevoteProtocol) (db : Database) : Prop :=
  d.cycleTriedb = some (.new cyclePrefix) ∧ d.cacheTriedb = some (.new cachePrefix) ∧
    d.voteTriedb = some (.new votePrefix) ∧ d.masternodeTriedb = some (.new masternodePrefix) ∧
    d.minerRollingTriedb = some (.new minerRollingPrefix) ∧ d.diskdb = some db

namespace DevoteProtocol

variable {d : DevoteProtocol} {mt c v r : Trie}

theorem register_eq (hm : d.masternodeTrie = some mt) (mn : Masternode) :
    d.register mn =
      some (.ok { d with masternodeTrie := mt.tryUpdate mn.id mn.account.bytes }) := by
  simp [register, hm]

/-- The cache after `Delegate`: the entry of the old vote dropped, the new one written. -/
def delegateCache (c v : Trie) (delegator masternode : Address) : Trie :=
  ((v.tryGet delegator.bytes).elim c fun old => c.tryDelete (old ++ delegator.bytes)).tryUpdate
    (masternode.bytes ++ delegator.bytes) delegator.bytes

theorem delegate_eq (hm : d.masternodeTrie = some mt) (hc : d.cacheTrie = some c)
    (hv : d.voteTrie = some v) (delegator masternode : Address) :
    d.delegate delegator masternode =
      some (if (mt.tryGet masternode.bytes).isNone then
          .error (.new "invalid masternode to delegate")
        else .ok { d with
          cacheTrie := delegateCache c v delegator masternode
          voteTrie := v.tryUpdate delegator.bytes masternode.bytes }) := by
  simp only [delegate, hm, hc, hv, delegateCache]
  split_ifs
  · simp_all
  · rcases hvd : v.tryGet delegator.bytes with _ | old <;> simp_all

theorem unDelegate_eq (hm : d.masternodeTrie = some mt) (hc : d.cacheTrie = some c)
    (hv : d.voteTrie = some v) (delegator masternode : Address) :
    d.unDelegate delegator masternode =
      some (if (mt.tryGet masternode.bytes).isNone then
          .error (.new "invalid masternode to undelegate")
        else if masternode.bytes ≠ (v.tryGet delegator.bytes).getD [] then
          .error (.new "mismatch masternode to undelegate")
        else .ok { d with
          cacheTrie := c.tryDelete (masternode.bytes ++ delegator.bytes)
          voteTrie := v.tryDelete delegator.bytes }) := by
  simp only [unDelegate, hm, hc, hv]
  split_ifs <;> simp_all

/-- One pass of the `Unregister` loop on loaded cache and vote tries. -/
theorem unregisterLoop_cons (hc : d.cacheTrie = some c) (hv : d.voteTrie = some v)
    (masternode k x : Bytes) (iter : List (Bytes × Bytes)) :
    unregisterLoop masternode ((k, x) :: iter) d =
      unregisterLoop masternode iter { d with
        cacheTrie := some (c.tryDelete (masternode ++ x))
        voteTrie := some (if (v.tryGet x).getD [] = masternode then v.tryDelete x else v) } := by
  simp only [unregisterLoop, hc, hv, Option.bind_eq_bind, Option.some_bind]
  split_ifs <;> rfl

/-- The `Unregister` loop rewrites only the cache and vote tries, and does not panic
when they are loaded. -/
theorem unregisterLoop_frame (hc : d.cacheTrie = some c) (hv : d.voteTrie = some v)
    (masternode : Bytes) (iter : List (Bytes × Bytes)) :
    ∃ c' v', unregisterLoop masternode iter d =
      some { d with cacheTrie := some c', voteTrie := some v' } := by
  induction iter generalizing d c v with
  | nil => exact ⟨c, v, by simp [unregisterLoop, ← hc, ← hv]⟩
  | cons e iter ih =>
    obtain ⟨c', v', h⟩ := ih (d := { d with
      cacheTrie := some (c.tryDelete (masternode ++ e.2))
      voteTrie := some (if (v.tryGet e.2).getD [] = masternode then v.tryDelete e.2 else v) })
      rfl rfl
    exact ⟨c', v', (unregisterLoop_cons hc hv masternode e.1 e.2 iter).trans h⟩

theorem unregister_eq (hm : d.masternodeTrie = some mt) (hc : d.cacheTrie = some c)
    (masternodeAddr : Address) :
    d.unregister masternodeAddr =
      (unregisterLoop masternodeAddr.bytes (c.nodeIterator masternodeAddr.bytes)
        { d with masternodeTrie := mt.tryDelete masternodeAddr.bytes }).map .ok := by
  simp only [unregister, hm, hc]
  simp [Option.map_eq_bind]

theorem rolling_eq (hr : d.minerRollingTrie = some r)
    (parentBlockTime currentBlockTime : BitVec 64) (witness : Address) :
    d.rolling parentBlockTime currentBlockTime witness =
      (rollingCnt r (parentBlockTime.sdiv cycleInterval) (currentBlockTime.sdiv cycleInterval)
        witness).map fun cnt => { d with
          minerRollingTrie := r.tryUpdate
            (putUint64 (currentBlockTime.sdiv cycleInterval) ++ witness.bytes)
            (putUint64 cnt) } := by
  simp only [rolling, hr]
  simp [Option.map_eq_bind]

theorem setWitnesses_eq (hcy : d.cycleTrie = some c) (witnesses : List Address) :
    d.setWitnesses witnesses =
      some (.ok { d with
        cycleTrie := c.tryUpdate witnessKey (Rlp.encodeToBytes witnesses) }) := by
  simp [setWitnesses, hcy]

end DevoteProtocol

/-! ## Runs of calls -/

/-- A call of the block pipeline into the manager, with the arguments its callers pass: a
non-nil masternode record for `Register` (`Register(nil)` dereferences nil, and is not a
call of the pipeline) and a `[]common.Address` for `SetWitnesses`. -/
inductive Call where
  | register (masternode : Masternode)
  | unregister (masternodeAddr : Address)
  | delegate (delegatorAddr masternodeAddr : Address)
  | unDelegate (delegatorAddr masternodeAddr : Address)
  | rolling (parentBlockTime currentBlockTime : BitVec 64) (witness : Address)
  | setWitnesses (witnesses : List Address)

/-- The manager a call leaves: its result, or the manager before it when it returns an
error; `none` when it panics. -/
def returned (d : DevoteProtocol) :
    Option (Except DevoteError DevoteProtocol) → Option DevoteProtocol
  | some (.ok d') => some d'
  | some (.error _) => some d
  | none => none

/-- The manager after one call. -/
def Call.apply : Call → DevoteProtocol → Option DevoteProtocol
  | .register masternode, d => returned d (d.register masternode)
  | .unregister masternodeAddr, d => returned d (d.unregister masternodeAddr)
  | .delegate delegatorAddr masternodeAddr, d =>
    returned d (d.delegate delegatorAddr masternodeAddr)
  | .unDelegate delegatorAddr masternodeAddr, d =>
    returned d (d.unDelegate delegatorAddr masternodeAddr)
  | .rolling parentBlockTime currentBlockTime witness, d =>
    d.rolling parentBlockTime currentBlockTime witness
  | .setWitnesses witnesses, d => returned d (d.setWitnesses witnesses)

/-- What one call returns: its error, or the manager it leaves; `none` when it panics.
`Rolling` returns nothing, so it never fails. -/
def Call.result : Call → DevoteProtocol → Option (Except DevoteError DevoteProtocol)
  | .register masternode, d => d.register masternode
  | .unregister masternodeAddr, d => d.unregister masternodeAddr
  | .delegate delegatorAddr masternodeAddr, d => d.delegate delegatorAddr masternodeAddr
  | .unDelegate delegatorAddr masternodeAddr, d => d.unDelegate delegatorAddr masternodeAddr
  | .rolling parentBlockTime currentBlockTime witness, d =>
    (d.rolling parentBlockTime currentBlockTime witness).map .ok
  | .setWitnesses witnesses, d => d.setWitnesses witnesses

theorem Call.apply_eq_returned (call : Call) (d : DevoteProtocol) :
    call.apply d = returned d (call.result d) := by
  cases call with
  | rolling p c w =>
    simp only [Call.apply, Call.result]
    cases d.rolling p c w <;> rfl
  | _ => rfl

/-- The manager after a list of calls, `none` if one of them panics. -/
def runCalls : List Call → DevoteProtocol → Option DevoteProtocol
  | [], d => some d
  | call :: calls, d => (call.apply d).bind (runCalls calls)

/-- The managers that `NewDevoteProtocol` and any finite sequence of calls reach. -/
inductive Reachable : DevoteProtocol → Prop where
  | new {db : Database} {d : DevoteProtocol} :
      newDevoteProtocol db = some (.ok d) → Reachable d
  | call {d d' : DevoteProtocol} (call : Call) :
      Reachable d → call.apply d = some d' → Reachable d'

end Devote
