import Devote.Calls

/-!
# Delegation: the cache is the reverse index of the votes

The vote trie maps a delegator to the masternode it votes for; the cache trie holds
`m ‖ d ↦ d` for every such vote, so that `Unregister` can find the delegators of a
masternode by scanning the cache from the key `m`. `ReverseIndex` states that the cache
is exactly this index. Each call keeps it, and with it no vote outlives the
registration of its masternode.
-/

namespace Devote

open DevoteProtocol

/-- Every vote maps a delegator address to a masternode address. -/
def VotesAreAddresses (vote : Trie) : Prop :=
  ∀ k v, vote.tryGet k = some v → ∃ d m : Address, k = d.bytes ∧ v = m.bytes

/-- The cache trie is the reverse index of the vote trie: it holds `m ‖ d ↦ d` exactly
when `d` votes for `m`, and no other key. The field `votes` is not part of the index: it is
the data model of the vote trie, a delegator address mapped to a masternode address, which
every call keeps and without which the index could not be stated on addresses. -/
structure ReverseIndex (cache vote : Trie) : Prop where
  votes : VotesAreAddresses vote
  keys : ∀ k v, cache.tryGet k = some v → ∃ m d : Address, k = m.bytes ++ d.bytes
  entry : ∀ m d : Address, cache.tryGet (m.bytes ++ d.bytes) =
    if vote.tryGet d.bytes = some m.bytes then some d.bytes else none

/-- Every vote is for a key of the masternode trie. -/
def VotesRegistered (masternode vote : Trie) : Prop :=
  ∀ k m, vote.tryGet k = some m → (masternode.tryGet m).isSome

theorem Address.isPrefixOf_append (m m' d : Address) :
    m.bytes.isPrefixOf (m'.bytes ++ d.bytes) = decide (m = m') := by
  rw [Bool.eq_iff_iff, List.isPrefixOf_iff_prefix, decide_eq_true_iff, List.prefix_iff_eq_take,
    m.length_bytes, Address.take_append]
  exact ⟨Address.bytes_injective, fun h => h ▸ rfl⟩

theorem getD_eq_bytes {o : Option Bytes} {m : Address} :
    o.getD [] = m.bytes ↔ o = some m.bytes := by
  cases o <;> simp [eq_comm, Address.bytes_ne_nil]

variable {c c' v : Trie}

namespace ReverseIndex

theorem empty : ReverseIndex .empty .empty :=
  ⟨by simp [VotesAreAddresses], by simp, by simp⟩

/-- The reverse index of a vote trie is unique. -/
theorem unique (h : ReverseIndex c v) (h' : ReverseIndex c' v) : c = c' := by
  refine Trie.ext_tryGet fun k => ?_
  by_cases hk : ∃ m d : Address, k = m.bytes ++ d.bytes
  · obtain ⟨m, d, rfl⟩ := hk
    rw [h.entry, h'.entry]
  · cases hc : c.tryGet k with
    | some x => exact absurd (h.keys k x hc) hk
    | none =>
      cases hc' : c'.tryGet k with
      | none => rfl
      | some x => exact absurd (h'.keys k x hc') hk

/-- `UnDelegate` of the delegator's current vote keeps the index. -/
theorem unDelegate (h : ReverseIndex c v) {delegator masternode : Address}
    (hvote : v.tryGet delegator.bytes = some masternode.bytes) :
    ReverseIndex (c.tryDelete (masternode.bytes ++ delegator.bytes))
      (v.tryDelete delegator.bytes) := by
  refine ⟨fun k x hx => ?_, fun k x hx => ?_, fun m d => ?_⟩
  · rw [Trie.tryGet_tryDelete] at hx
    split_ifs at hx
    exact h.votes k x hx
  · rw [Trie.tryGet_tryDelete] at hx
    split_ifs at hx
    exact h.keys k x hx
  · rw [Trie.tryGet_tryDelete, Trie.tryGet_tryDelete, h.entry]
    simp only [Address.append_inj, Address.bytes_inj]
    by_cases hdd : d = delegator
    · subst hdd
      by_cases hmm : m = masternode
      · subst hmm; simp
      · simp [hvote, hmm, Ne.symm hmm]
    · simp [hdd]

/-- Dropping the delegator's vote, and its cache entry if any, keeps the index. -/
theorem dropVote (h : ReverseIndex c v) (delegator : Address) :
    ReverseIndex ((v.tryGet delegator.bytes).elim c fun old => c.tryDelete (old ++ delegator.bytes))
      (v.tryDelete delegator.bytes) := by
  rcases hold : v.tryGet delegator.bytes with _ | old
  · rwa [Option.elim, Trie.tryDelete_of_tryGet_eq_none hold]
  · obtain ⟨d₀, o, hd₀, rfl⟩ := h.votes _ _ hold
    obtain rfl : delegator = d₀ := Address.bytes_injective hd₀
    exact h.unDelegate hold

/-- A vote of a delegator that had none, with its cache entry, keeps the index. -/
theorem addVote (h : ReverseIndex c v) {delegator : Address}
    (hnone : v.tryGet delegator.bytes = none) (masternode : Address) :
    ReverseIndex (c.tryUpdate (masternode.bytes ++ delegator.bytes) delegator.bytes)
      (v.tryUpdate delegator.bytes masternode.bytes) := by
  have hd := Address.bytes_ne_nil delegator
  have hm := Address.bytes_ne_nil masternode
  refine ⟨fun k x hx => ?_, fun k x hx => ?_, fun m d => ?_⟩
  · rw [Trie.tryGet_tryUpdate _ _ _ hm] at hx
    split_ifs at hx with hk
    · exact ⟨delegator, masternode, hk, (Option.some.inj hx).symm⟩
    · exact h.votes k x hx
  · rw [Trie.tryGet_tryUpdate _ _ _ hd] at hx
    split_ifs at hx with hk
    · exact ⟨masternode, delegator, hk⟩
    · exact h.keys k x hx
  · rw [Trie.tryGet_tryUpdate _ _ _ hd, Trie.tryGet_tryUpdate _ _ _ hm, h.entry]
    simp only [Address.append_inj]
    by_cases hdd : d = delegator
    · subst hdd
      simp [hnone, eq_comm]
    · simp [hdd]

/-- `Delegate` keeps the index: it drops the old vote, then adds the new one. -/
theorem delegate (h : ReverseIndex c v) (delegator masternode : Address) :
    ReverseIndex (delegateCache c v delegator masternode)
      (v.tryUpdate delegator.bytes masternode.bytes) := by
  rw [delegateCache, ← Trie.tryUpdate_tryDelete v _ (Address.bytes_ne_nil masternode)]
  refine (h.dropVote delegator).addVote ?_ masternode
  simp

/-- One pass of the `Unregister` loop for the delegator bytes `x`: the cache key
`masternode ‖ x` is deleted, and the vote of `x` if it is for `masternode`. -/
theorem drop (h : ReverseIndex c v) (masternode : Address) (x : Bytes) :
    ReverseIndex (c.tryDelete (masternode.bytes ++ x))
      (if (v.tryGet x).getD [] = masternode.bytes then v.tryDelete x else v) := by
  by_cases hx : v.tryGet x = some masternode.bytes
  · obtain ⟨d, _, rfl, -⟩ := h.votes _ _ hx
    rw [if_pos (getD_eq_bytes.2 hx)]
    exact h.unDelegate hx
  · rw [if_neg (mt getD_eq_bytes.1 hx)]
    suffices hc : c.tryGet (masternode.bytes ++ x) = none by
      rwa [Trie.tryDelete_of_tryGet_eq_none hc]
    cases hc : c.tryGet (masternode.bytes ++ x) with
    | none => rfl
    | some y =>
      obtain ⟨m, d, hk⟩ := h.keys _ _ hc
      obtain ⟨rfl, rfl⟩ := Address.append_eq hk
      rw [h.entry] at hc
      split_ifs at hc

/-- What is left of the index once the votes for `masternode` are gone. -/
theorem filter (h : ReverseIndex c v) (masternode : Address) :
    ReverseIndex (c.filter fun k _ => !masternode.bytes.isPrefixOf k)
      (v.filter fun _ m => m != masternode.bytes) := by
  refine ⟨fun k x hx => ?_, fun k x hx => ?_, fun m d => ?_⟩
  · rw [Trie.tryGet_filter] at hx
    exact h.votes k x (Option.filter_eq_some.1 hx).1
  · rw [Trie.tryGet_filter] at hx
    exact h.keys k x (Option.filter_eq_some.1 hx).1
  · rw [Trie.tryGet_filter, Trie.tryGet_filter, h.entry, Address.isPrefixOf_append]
    cases hv : v.tryGet d.bytes with
    | none => simp
    | some x =>
      by_cases hx : x = m.bytes
      · subst hx
        by_cases hmm : masternode = m
        · simp [Option.filter_some, hmm]
        · simp [Option.filter_some, hmm, Ne.symm hmm]
      · simp [Option.filter_some, hx]

end ReverseIndex

/-! ## Two managers for the witnesses -/

/-- The manager of `NewDevoteProtocol` with the zero address registered under itself. -/
def registeredZero : DevoteProtocol :=
  { initial ⟨[], []⟩ with
    masternodeTrie := some (Trie.empty.tryUpdate Address.zero.bytes Address.zero.bytes) }

/-- The address of twenty bytes `0x01`, a delegator distinct from the zero address. -/
def Address.ones : Address := ⟨List.replicate 20 1, List.length_replicate _ _⟩

/-- `[]byte("7ec780bcd5488bcf")`, a masternode id of sixteen hex digits as the network writes
them. -/
def hexNodeId : Bytes := "7ec780bcd5488bcf".toList.map (UInt8.ofNat ·.toNat)

/-- The manager of `NewDevoteProtocol` after `Register` of the zero address under itself and
`Delegate(ones, zero)`: one masternode with one delegator. -/
def delegatedZero : DevoteProtocol :=
  { registeredZero with
    cacheTrie := some (delegateCache .empty .empty Address.ones Address.zero)
    voteTrie := some (Trie.empty.tryUpdate Address.ones.bytes Address.zero.bytes) }

/-! ## `Unregister` -/

variable {d : DevoteProtocol}

/-- On an indexed manager, the `Unregister` loop keeps the index and removes the votes
for `masternode` of exactly the delegators it visits. -/
theorem unregisterLoop_spec (hc : d.cacheTrie = some c) (hv : d.voteTrie = some v)
    (h : ReverseIndex c v) (masternode : Address) (iter : List (Bytes × Bytes)) :
    ∃ c' v', unregisterLoop masternode.bytes iter d =
        some { d with cacheTrie := some c', voteTrie := some v' } ∧
      ReverseIndex c' v' ∧ ∀ x, v'.tryGet x = if x ∈ iter.map Prod.snd then
        (v.tryGet x).filter (· != masternode.bytes) else v.tryGet x := by
  induction iter generalizing d c v with
  | nil => exact ⟨c, v, by simp [unregisterLoop, ← hc, ← hv], h, by simp⟩
  | cons e iter ih =>
    set v₁ := if (v.tryGet e.2).getD [] = masternode.bytes then v.tryDelete e.2 else v
    have hv₁ : ∀ y, v₁.tryGet y =
        if y = e.2 then (v.tryGet y).filter (· != masternode.bytes) else v.tryGet y := by
      intro y
      by_cases he : v.tryGet e.2 = some masternode.bytes
      · simp only [v₁, getD_eq_bytes.2 he, if_true, Trie.tryGet_tryDelete]
        split_ifs with hy <;> simp [hy, he, Option.filter_some]
      · simp only [v₁, if_neg (mt getD_eq_bytes.1 he)]
        split_ifs with hy
        · subst hy
          cases hx : v.tryGet e.2 <;> simp_all [Option.filter_some]
        · rfl
    obtain ⟨c', v', hrun, hri, hv'⟩ := ih (d := { d with
      cacheTrie := some (c.tryDelete (masternode.bytes ++ e.2)), voteTrie := some v₁ })
      rfl rfl (h.drop masternode e.2)
    refine ⟨c', v', (unregisterLoop_cons hc hv _ e.1 e.2 iter).trans hrun, hri, fun x => ?_⟩
    rw [hv', hv₁]
    by_cases hx : x = e.2
    · subst hx
      rcases v.tryGet e.2 with _ | m
      · simp
      · by_cases hm : m = masternode.bytes <;> simp [Option.filter_some, hm]
    · have hmem : x ∈ (e :: iter).map Prod.snd ↔ x ∈ iter.map Prod.snd := by simp [hx]
      by_cases hm : x ∈ iter.map Prod.snd
      · rw [if_pos hm, if_pos (hmem.2 hm), if_neg hx]
      · rw [if_neg hm, if_neg (mt hmem.1 hm), if_neg hx]

/-- On an indexed manager, `Unregister` deletes the masternode, the cache entries of its
delegators and their votes, and changes nothing else. -/
theorem unregister_spec {mt : Trie} (hm : d.masternodeTrie = some mt)
    (hc : d.cacheTrie = some c) (hv : d.voteTrie = some v) (h : ReverseIndex c v)
    (masternode : Address) :
    d.unregister masternode = some (.ok { d with
      masternodeTrie := some (mt.tryDelete masternode.bytes)
      cacheTrie := some (c.filter fun k _ => !masternode.bytes.isPrefixOf k)
      voteTrie := some (v.filter fun _ m => m != masternode.bytes) }) := by
  obtain ⟨c', v', hrun, hri, hv'⟩ :=
    unregisterLoop_spec (d := { d with masternodeTrie := mt.tryDelete masternode.bytes }) hc hv h
      masternode (c.nodeIterator masternode.bytes)
  have hvote : v' = v.filter fun _ m => m != masternode.bytes := by
    refine Trie.ext_tryGet fun x => ?_
    rw [hv', Trie.tryGet_filter]
    split_ifs with hmem
    · rfl
    · cases hx : v.tryGet x with
      | none => rfl
      | some m =>
        have hm : m ≠ masternode.bytes := by
          rintro rfl
          obtain ⟨x, _, rfl, -⟩ := h.votes _ _ hx
          refine hmem (List.mem_map.2
            ⟨(masternode.bytes ++ x.bytes, x.bytes), Trie.mem_nodeIterator.2 ?_, rfl⟩)
          exact ⟨by simp [h.entry, hx], Bytes.append_lt_self _ _⟩
        simp [Option.filter_some, hm]
  subst hvote
  rw [unregister_eq hm hc, hrun, hri.unique (h.filter masternode)]
  rfl

/-- On an indexed manager, `Unregister(m)` returns nil and leaves exactly the manager
without the key `m` in the masternode trie, without the cache keys beginning with `m`
and without the votes for `m`; a second `Unregister(m)` changes nothing. -/
theorem unregister_removes_delegations {mt : Trie} (hm : d.masternodeTrie = some mt)
    (hc : d.cacheTrie = some c) (hv : d.voteTrie = some v) (h : ReverseIndex c v)
    (masternode : Address) :
    let d' := { d with
      masternodeTrie := some (mt.tryDelete masternode.bytes)
      cacheTrie := some (c.filter fun k _ => !masternode.bytes.isPrefixOf k)
      voteTrie := some (v.filter fun _ m => m != masternode.bytes) }
    d.unregister masternode = some (.ok d') ∧ d'.unregister masternode = some (.ok d') := by
  refine ⟨unregister_spec hm hc hv h masternode, ?_⟩
  rw [unregister_spec rfl rfl rfl (h.filter masternode), Trie.tryDelete_tryDelete,
    Trie.filter_filter_self, Trie.filter_filter_self]

theorem unregister_removes_delegations_delegated :
    ReverseIndex (delegateCache .empty .empty Address.ones Address.zero)
        (Trie.empty.tryUpdate Address.ones.bytes Address.zero.bytes) ∧
      ∃ d', delegatedZero.unregister Address.zero = some (.ok d') ∧
        d'.unregister Address.zero = some (.ok d') ∧ d' = initial ⟨[], []⟩ :=
  have hri := ReverseIndex.empty.delegate Address.ones Address.zero
  have h := unregister_removes_delegations (d := delegatedZero) rfl rfl rfl hri Address.zero
  ⟨hri, _, h.1, h.2, rfl⟩


/-- `Delegate(d, m)` then `UnDelegate(d, m)` on an indexed manager with `m` registered:
both return nil, and together they drop `d`'s vote and its cache entry. -/
theorem delegate_then_unDelegate {mt : Trie} (hm : d.masternodeTrie = some mt)
    (hc : d.cacheTrie = some c) (hv : d.voteTrie = some v) (h : ReverseIndex c v)
    (delegator masternode : Address) (hreg : (mt.tryGet masternode.bytes).isSome) :
    let d' := { d with
      cacheTrie := some ((v.tryGet delegator.bytes).elim c fun old =>
        c.tryDelete (old ++ delegator.bytes))
      voteTrie := some (v.tryDelete delegator.bytes) }
    (∃ d₁, d.delegate delegator masternode = some (.ok d₁) ∧
      d₁.unDelegate delegator masternode = some (.ok d')) ∧
    (v.tryGet delegator.bytes = none → d' = d) := by
  have hnone : ¬(mt.tryGet masternode.bytes).isNone := by
    cases h' : mt.tryGet masternode.bytes <;> simp_all
  have hfree : ((v.tryGet delegator.bytes).elim c fun old =>
      c.tryDelete (old ++ delegator.bytes)).tryGet (masternode.bytes ++ delegator.bytes) =
        none := by
    rw [(h.dropVote delegator).entry]
    simp
  let d₁ : DevoteProtocol := { d with
    cacheTrie := some (delegateCache c v delegator masternode)
    voteTrie := some (v.tryUpdate delegator.bytes masternode.bytes) }
  refine ⟨⟨d₁, by rw [delegate_eq hm hc hv, if_neg hnone], ?_⟩, fun hnil => ?_⟩
  · rw [unDelegate_eq (d := d₁) hm rfl rfl, if_neg hnone,
      Trie.tryGet_tryUpdate _ _ _ (Address.bytes_ne_nil _), if_pos rfl, if_neg (by simp)]
    simp only [d₁, delegateCache, Trie.tryDelete_tryUpdate _ _ (Address.bytes_ne_nil _),
      Trie.tryDelete_of_tryGet_eq_none hfree]
  · simp only [hnil, Option.elim, Trie.tryDelete_of_tryGet_eq_none hnil, ← hc, ← hv]

theorem delegate_then_unDelegate_registeredZero :
    (Trie.empty.tryUpdate Address.zero.bytes Address.zero.bytes).tryGet
        Address.zero.bytes = some Address.zero.bytes ∧
      ∃ d₁, registeredZero.delegate Address.zero Address.zero = some (.ok d₁) ∧
        d₁.unDelegate Address.zero Address.zero = some (.ok registeredZero) := by
  obtain ⟨⟨d₁, h₁, h₂⟩, hsame⟩ := delegate_then_unDelegate (d := registeredZero) rfl rfl rfl
    .empty Address.zero Address.zero (by simp [Address.bytes_ne_nil])
  exact ⟨by simp [Address.bytes_ne_nil], d₁, h₁, h₂.trans (by rw [hsame rfl])⟩

/-! ## Every reachable manager is indexed -/

/-- What holds of every manager the block pipeline reaches: the tries the calls use are
loaded, the node caches and the disk are those of the constructor, the cache is the
reverse index of the votes, and every vote is for a registered masternode. -/
structure Inv (d : DevoteProtocol) : Prop where
  cycle : d.cycleTrie.isSome
  rolling : d.minerRollingTrie.isSome
  storage : ∃ db, FreshStorage d db
  tries : ∃ mt c v, d.masternodeTrie = some mt ∧ d.cacheTrie = some c ∧ d.voteTrie = some v ∧
    ReverseIndex c v ∧ VotesRegistered mt v

theorem inv_initial (db : Database) : Inv (initial db) :=
  ⟨rfl, rfl, ⟨db, rfl, rfl, rfl, rfl, rfl, rfl⟩, _, _, _, rfl, rfl, rfl, .empty,
    by simp [VotesRegistered]⟩

/-- Every call keeps the invariant, whether it returns nil or an error. -/
theorem inv_call (hi : Inv d) (call : Call) {d' : DevoteProtocol} (h : call.apply d = some d') :
    Inv d' := by
  obtain ⟨hcy, hro, hst, mt, c, v, hm, hc, hv, hri, hreg⟩ := hi
  cases call with
  | register mn =>
    simp only [Call.apply, register_eq hm, returned, Option.some.injEq] at h
    subst h
    refine ⟨hcy, hro, hst, _, c, v, rfl, hc, hv, hri, fun k m hk => ?_⟩
    rw [Trie.tryGet_tryUpdate _ _ _ (Address.bytes_ne_nil _)]
    split_ifs <;> simp [hreg k m hk]
  | unregister masternode =>
    simp only [Call.apply, unregister_spec hm hc hv hri, returned, Option.some.injEq] at h
    subst h
    refine ⟨hcy, hro, hst, _, _, _, rfl, rfl, rfl, hri.filter masternode, fun k m hk => ?_⟩
    rw [Trie.tryGet_filter, Option.filter_eq_some] at hk
    have hne : m ≠ masternode.bytes := by simpa using hk.2
    simp [hne, hreg k m hk.1]
  | delegate delegator masternode =>
    simp only [Call.apply, delegate_eq hm hc hv] at h
    split_ifs at h with hnone
    · cases h; exact ⟨hcy, hro, hst, mt, c, v, hm, hc, hv, hri, hreg⟩
    · cases h
      refine ⟨hcy, hro, hst, mt, _, _, hm, rfl, rfl, hri.delegate delegator masternode,
        fun k m hk => ?_⟩
      rw [Trie.tryGet_tryUpdate _ _ _ (Address.bytes_ne_nil _)] at hk
      split_ifs at hk
      · cases hk; simpa [Option.isSome_iff_ne_none] using hnone
      · exact hreg k m hk
  | unDelegate delegator masternode =>
    simp only [Call.apply, unDelegate_eq hm hc hv] at h
    split_ifs at h with hnone hmis
    · cases h; exact ⟨hcy, hro, hst, mt, c, v, hm, hc, hv, hri, hreg⟩
    · cases h; exact ⟨hcy, hro, hst, mt, c, v, hm, hc, hv, hri, hreg⟩
    · cases h
      have hvote : v.tryGet delegator.bytes = some masternode.bytes :=
        getD_eq_bytes.1 (not_not.1 hmis).symm
      refine ⟨hcy, hro, hst, mt, _, _, hm, rfl, rfl, hri.unDelegate hvote, fun k m hk => ?_⟩
      rw [Trie.tryGet_tryDelete] at hk
      split_ifs at hk
      exact hreg k m hk
  | rolling parentBlockTime currentBlockTime witness =>
    obtain ⟨r, hr⟩ := Option.isSome_iff_exists.1 hro
    simp only [Call.apply, rolling_eq hr, Option.map_eq_some'] at h
    obtain ⟨_, -, rfl⟩ := h
    exact ⟨hcy, rfl, hst, mt, c, v, hm, hc, hv, hri, hreg⟩
  | setWitnesses witnesses =>
    obtain ⟨cy, hcy'⟩ := Option.isSome_iff_exists.1 hcy
    simp only [Call.apply, setWitnesses_eq hcy', returned, Option.some.injEq] at h
    subst h
    exact ⟨rfl, hro, hst, mt, c, v, hm, hc, hv, hri, hreg⟩

theorem inv_of_reachable (h : Reachable d) : Inv d := by
  induction h with
  | new h =>
    rw [newDevoteProtocol_eq, Option.some.injEq, Except.ok.injEq] at h
    exact h ▸ inv_initial _
  | call call _ hstep ih => exact inv_call ih call hstep

theorem reachable_delegatedZero : Reachable delegatedZero :=
  .call (.delegate Address.ones Address.zero)
    (.call (.register ⟨Address.zero.bytes, Address.zero⟩) (.new rfl) rfl) rfl

/-- In every reachable manager the cache trie is exactly the reverse index of the vote
trie: its keys are `m ‖ d` for addresses `m`, `d`, holding `d`, and it holds `m ‖ d`
exactly when `d` votes for `m`. -/
theorem reachable_cache_is_reverse_index (h : Reachable d) :
    ∃ c v, d.cacheTrie = some c ∧ d.voteTrie = some v ∧
      (∀ k x, c.tryGet k = some x → ∃ m dl : Address, k = m.bytes ++ dl.bytes ∧ x = dl.bytes) ∧
      ∀ m dl : Address, (c.tryGet (m.bytes ++ dl.bytes)).isSome ↔
        v.tryGet dl.bytes = some m.bytes := by
  obtain ⟨-, -, -, _, c, v, -, hc, hv, hri, -⟩ := inv_of_reachable h
  refine ⟨c, v, hc, hv, fun k x hk => ?_, fun m dl => ?_⟩
  · obtain ⟨m, dl, rfl⟩ := hri.keys k x hk
    rw [hri.entry] at hk
    split_ifs at hk
    exact ⟨m, dl, rfl, (Option.some.inj hk).symm⟩
  · rw [hri.entry]
    split_ifs <;> simpa

theorem reachable_cache_is_reverse_index_delegated :
    Reachable delegatedZero ∧
      delegatedZero.cacheTrie.bind (·.tryGet (Address.zero.bytes ++ Address.ones.bytes)) =
        some Address.ones.bytes ∧
      ∃ c v, delegatedZero.cacheTrie = some c ∧ delegatedZero.voteTrie = some v ∧
        (∀ k x, c.tryGet k = some x →
          ∃ m dl : Address, k = m.bytes ++ dl.bytes ∧ x = dl.bytes) ∧
        ∀ m dl : Address, (c.tryGet (m.bytes ++ dl.bytes)).isSome ↔
          v.tryGet dl.bytes = some m.bytes :=
  ⟨reachable_delegatedZero, rfl, reachable_cache_is_reverse_index reachable_delegatedZero⟩

/-- In every reachable manager every vote is for a key of the masternode trie. -/
theorem reachable_votes_registered (h : Reachable d) :
    ∃ mt v, d.masternodeTrie = some mt ∧ d.voteTrie = some v ∧
      ∀ k m, v.tryGet k = some m → (mt.tryGet m).isSome := by
  obtain ⟨-, -, -, mt, -, v, hm, -, hv, -, hreg⟩ := inv_of_reachable h
  exact ⟨mt, v, hm, hv, hreg⟩

theorem reachable_votes_registered_delegated :
    Reachable delegatedZero ∧
      delegatedZero.voteTrie.bind (·.tryGet Address.ones.bytes) = some Address.zero.bytes ∧
      ∃ mt v, delegatedZero.masternodeTrie = some mt ∧ delegatedZero.voteTrie = some v ∧
        ∀ k m, v.tryGet k = some m → (mt.tryGet m).isSome :=
  ⟨reachable_delegatedZero, rfl, reachable_votes_registered reachable_delegatedZero⟩

/-! ## Registration keys

`Register` keys the masternode trie on the bytes of the record's `ID`, while `Delegate`,
`UnDelegate` and `Unregister` look a masternode up by its address. -/

/-- Deleting the address after writing it under an id that was not a key gives the trie
back exactly when the id is the address. -/
theorem tryUpdate_tryDelete_eq_self_iff {mt : Trie} {id : Bytes} {m : Address}
    (hid : mt.tryGet id = none) :
    (mt.tryUpdate id m.bytes).tryDelete m.bytes = mt ↔ id = m.bytes := by
  constructor
  · intro h
    by_contra hne
    have := congrArg (·.tryGet id) h
    simp [hne, hid, Address.bytes_ne_nil] at this
  · rintro rfl
    exact Trie.ext_tryGet fun k => by
      by_cases hk : k = m.bytes <;> simp [hk, hid, Address.bytes_ne_nil]

/-- In a reachable manager, after `Register(mn)` the call `Delegate(d, mn.Account)` is
rejected exactly when the id is not the address and the address was not registered
before; and when the id was not registered, `Unregister(mn.Account)` then succeeds and
gives the masternode trie back exactly when the id is the address. -/
theorem register_keys_on_id {s : DevoteProtocol} (hs : Reachable s) (mn : Masternode)
    (delegator : Address) :
    ∃ mt s₁, s.masternodeTrie = some mt ∧ s.register mn = some (.ok s₁) ∧
      (s₁.delegate delegator mn.account =
          some (.error (.new "invalid masternode to delegate")) ↔
        mn.id ≠ mn.account.bytes ∧ mt.tryGet mn.account.bytes = none) ∧
      (mt.tryGet mn.id = none → ∃ s₂, s₁.unregister mn.account = some (.ok s₂) ∧
        (s₂.masternodeTrie = some mt ↔ mn.id = mn.account.bytes)) := by
  obtain ⟨-, -, -, mt, c, v, hm, hc, hv, -, -⟩ := inv_of_reachable hs
  let s₁ := { s with masternodeTrie := some (mt.tryUpdate mn.id mn.account.bytes) }
  refine ⟨mt, s₁, hm, register_eq hm mn, ?_, fun hid => ?_⟩
  · rw [delegate_eq (d := s₁) rfl hc hv, Option.some.injEq,
      Trie.tryGet_tryUpdate _ _ _ (Address.bytes_ne_nil _)]
    by_cases hid : mn.account.bytes = mn.id
    · simp [hid]
    · simp [hid, Ne.symm hid]
  · obtain ⟨c', v', hloop⟩ := unregisterLoop_frame (d := { s₁ with
      masternodeTrie := some ((mt.tryUpdate mn.id mn.account.bytes).tryDelete mn.account.bytes) })
      hc hv mn.account.bytes (c.nodeIterator mn.account.bytes)
    refine ⟨_, by rw [unregister_eq (d := s₁) rfl hc, hloop]; rfl, ?_⟩
    rw [Option.some.injEq]
    exact tryUpdate_tryDelete_eq_self_iff hid

theorem register_keys_on_id_delegated :
    Reachable delegatedZero ∧ ∃ mt s₁, delegatedZero.masternodeTrie = some mt ∧
      delegatedZero.register ⟨hexNodeId, Address.ones⟩ = some (.ok s₁) ∧
      (s₁.delegate Address.zero Address.ones =
          some (.error (.new "invalid masternode to delegate")) ↔
        hexNodeId ≠ Address.ones.bytes ∧ mt.tryGet Address.ones.bytes = none) ∧
      (mt.tryGet hexNodeId = none → ∃ s₂, s₁.unregister Address.ones = some (.ok s₂) ∧
        (s₂.masternodeTrie = some mt ↔ hexNodeId = Address.ones.bytes)) :=
  ⟨reachable_delegatedZero,
    register_keys_on_id reachable_delegatedZero ⟨hexNodeId, Address.ones⟩ Address.zero⟩

/-- `Register` of the masternode of id `7ec780bcd5488bcf` and account `ones`, from the
manager of `NewDevoteProtocol`: `Delegate` to the account is rejected, and `Unregister` of the
account returns nil but leaves the id's entry in the masternode trie. -/
theorem register_then_delegate_rejected :
    Reachable (initial ⟨[], []⟩) ∧ ∃ s₁,
      (initial ⟨[], []⟩).register ⟨hexNodeId, Address.ones⟩ = some (.ok s₁) ∧
      s₁.delegate Address.zero Address.ones =
        some (.error (.new "invalid masternode to delegate")) ∧
      ∃ s₂, s₁.unregister Address.ones = some (.ok s₂) ∧
        s₂.masternodeTrie.bind (·.tryGet hexNodeId) = some Address.ones.bytes :=
  ⟨.new rfl, _, rfl, rfl, _, rfl, rfl⟩

end Devote
