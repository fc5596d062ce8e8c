import Devote.Chain
import Mathlib.Logic.Function.Basic

/-!
# The registry the tries implement

The masternode, vote and cache tries keep one registry: the account registered under
each masternode key, and for each delegator the masternode it votes for. The cache is
how `Unregister` finds the delegators of a masternode without a scan of every vote; it
holds nothing the votes do not. `Registry` states the registry's operations on two maps,
with the errors the code returns, and `Implements` relates a sound manager to the registry
its masternode and vote tries hold. Every call returns what the registry operation returns
and leaves a manager that implements the registry after it, and a reopening from the
checkpoint of `Commit` keeps the registry; so every manager of every chain of blocks
implements the registry of all the calls made on the chain. The registry says nothing of
the cycle and rolling tries, which no registry operation reads, and the registry calls and
the other calls of a run do not interfere. Conversely the registry fixes the three tries
that implement it, so a run leaves a manager that depends on its calls only through the
registry they build and the other calls among them. In particular the `Delegate` and
`UnDelegate` calls of distinct delegators do not interfere: of a run of them, only the order
of each delegator's own calls matters.
-/

namespace Devote

/-- The state of the delegation registry. -/
structure Registry where
  /-- The account registered under each masternode key. -/
  masternodes : Bytes → Option Address
  /-- The masternode each delegator votes for. -/
  votes : Address → Option Address

namespace Registry

/-- The registry of `NewDevoteProtocol`: no masternode, no vote. -/
def empty : Registry := ⟨fun _ => none, fun _ => none⟩

/-- `Register`: the account under the masternode's id. -/
def register (r : Registry) (masternode : Masternode) : Registry :=
  { r with masternodes := Function.update r.masternodes masternode.id (some masternode.account) }

/-- `Unregister`: the key of the address is dropped, and every vote for the address. -/
def unregister (r : Registry) (masternodeAddr : Address) : Registry where
  masternodes := Function.update r.masternodes masternodeAddr.bytes none
  votes delegator := (r.votes delegator).filter (· != masternodeAddr)

/-- `Delegate`: the delegator's vote moves to a registered masternode. -/
def delegate (r : Registry) (delegatorAddr masternodeAddr : Address) :
    Except DevoteError Registry :=
  if r.masternodes masternodeAddr.bytes = none then .error (.new "invalid masternode to delegate")
  else .ok { r with votes := Function.update r.votes delegatorAddr (some masternodeAddr) }

/-- `UnDelegate`: the delegator's vote for a registered masternode is withdrawn. -/
def unDelegate (r : Registry) (delegatorAddr masternodeAddr : Address) :
    Except DevoteError Registry :=
  if r.masternodes masternodeAddr.bytes = none then
    .error (.new "invalid masternode to undelegate")
  else if r.votes delegatorAddr ≠ some masternodeAddr then
    .error (.new "mismatch masternode to undelegate")
  else .ok { r with votes := Function.update r.votes delegatorAddr none }

/-- What a call does to the registry; `Rolling` and `SetWitnesses` leave it alone. -/
def step : Call → Registry → Except DevoteError Registry
  | .register masternode, r => .ok (r.register masternode)
  | .unregister masternodeAddr, r => .ok (r.unregister masternodeAddr)
  | .delegate delegatorAddr masternodeAddr, r => r.delegate delegatorAddr masternodeAddr
  | .unDelegate delegatorAddr masternodeAddr, r => r.unDelegate delegatorAddr masternodeAddr
  | .rolling .., r => .ok r
  | .setWitnesses _, r => .ok r

/-- The registry after one call; a call that fails leaves it as it was. -/
def apply (call : Call) (r : Registry) : Registry :=
  match step call r with
  | .ok r' => r'
  | .error _ => r

/-- The registry after a list of calls. -/
def run : List Call → Registry → Registry
  | [], r => r
  | call :: calls, r => run calls (apply call r)

end Registry

open DevoteProtocol

/-- The sound manager `d` implements the registry `r`: its masternode trie holds the
registry's accounts and its vote trie the registry's votes, as bytes. -/
structure Implements (d : DevoteProtocol) (r : Registry) : Prop where
  sound : Sound d
  masternodes : ∀ k, d.masternodeTrie.bind (·.tryGet k) = (r.masternodes k).map Address.bytes
  votes : ∀ a : Address, d.voteTrie.bind (·.tryGet a.bytes) = (r.votes a).map Address.bytes

/-- A call's result implements the registry operation's: the same error, or a manager
that implements the registry after the operation. -/
def ImplementsResult : Except DevoteError DevoteProtocol → Except DevoteError Registry → Prop
  | .ok d, .ok r => Implements d r
  | .error e, .error e' => e = e'
  | _, _ => False

theorem implements_initial (db : Database) : Implements (initial db) .empty :=
  ⟨.of_reachable (.new (newDevoteProtocol_eq db)), fun _ => rfl, fun _ => rfl⟩

theorem map_bytes_filter (o : Option Address) (m : Address) :
    (o.filter (· != m)).map Address.bytes = (o.map Address.bytes).filter (· != m.bytes) := by
  cases o with
  | none => rfl
  | some a => by_cases h : a = m <;> simp [Option.filter, h]

variable {d : DevoteProtocol} {r : Registry}

theorem Sound.of_result (h : Sound d) (call : Call) {d' : DevoteProtocol}
    (hres : call.result d = some (.ok d')) : Sound d' :=
  h.of_apply (by rw [Call.apply_eq_returned, hres]; rfl)

/-- From a manager that implements a registry, every call returns, with the error of the
registry operation or with a manager that implements the registry after it. -/
theorem Implements.result (h : Implements d r) (call : Call) :
    ∃ res, call.result d = some res ∧ ImplementsResult res (r.step call) := by
  obtain ⟨-, -, -, mt, c, v, hm, hc, hv, hri, -⟩ := h.sound.inv
  have hM : ∀ k, mt.tryGet k = (r.masternodes k).map Address.bytes := fun k => by
    simpa [hm] using h.masternodes k
  have hV : ∀ a : Address, v.tryGet a.bytes = (r.votes a).map Address.bytes := fun a => by
    simpa [hv] using h.votes a
  have hreg : ∀ k, (mt.tryGet k).isNone ↔ r.masternodes k = none := fun k => by simp [hM]
  /- A manager that leaves the masternode and vote tries as they were implements `r`. -/
  have keep : ∀ {d'}, call.result d = some (.ok d') → d'.masternodeTrie = d.masternodeTrie →
      d'.voteTrie = d.voteTrie → Implements d' r := fun hres hm' hv' =>
    ⟨h.sound.of_result call hres, hm' ▸ h.masternodes, hv' ▸ h.votes⟩
  cases call with
  | register mn =>
    refine ⟨_, register_eq hm mn, h.sound.of_result (.register mn)
      (register_eq hm mn), fun k => ?_, h.votes⟩
    simp only [Option.some_bind, Trie.tryGet_tryUpdate _ _ _ (Address.bytes_ne_nil _), hM,
      Registry.register, Function.update_apply]
    split_ifs <;> rfl
  | unregister m =>
    refine ⟨_, unregister_spec hm hc hv hri m, h.sound.of_result (.unregister m)
      (unregister_spec hm hc hv hri m), fun k => ?_, fun a => ?_⟩
    · simp only [Option.some_bind, Trie.tryGet_tryDelete, hM, Registry.unregister,
        Function.update_apply]
      split_ifs <;> rfl
    · simp only [Option.some_bind, Trie.tryGet_filter, hV, Registry.unregister,
        map_bytes_filter]
  | delegate x m =>
    refine ⟨_, delegate_eq hm hc hv x m, ?_⟩
    simp only [Registry.step, Registry.delegate, hreg]
    split_ifs with h₁
    · rfl
    refine ⟨h.sound.of_result (.delegate x m)
      (by rw [Call.result, delegate_eq hm hc hv, if_neg ((hreg _).not.2 h₁)]), h.masternodes,
      fun a => ?_⟩
    simp only [Option.some_bind, Trie.tryGet_tryUpdate _ _ _ (Address.bytes_ne_nil _), hV,
      Function.update_apply, Address.bytes_inj]
    split_ifs <;> rfl
  | unDelegate x m =>
    refine ⟨_, unDelegate_eq hm hc hv x m, ?_⟩
    have hmis : m.bytes ≠ (v.tryGet x.bytes).getD [] ↔ r.votes x ≠ some m := by
      rw [ne_eq, eq_comm, getD_eq_bytes, hV]
      simp
    simp only [Registry.step, Registry.unDelegate, hreg, hmis]
    split_ifs with h₁ h₂
    · rfl
    · rfl
    refine ⟨h.sound.of_result (.unDelegate x m) (by rw [Call.result, unDelegate_eq hm hc hv,
      if_neg ((hreg _).not.2 h₁), if_neg (hmis.not.2 h₂)]), h.masternodes, fun a => ?_⟩
    simp only [Option.some_bind, Trie.tryGet_tryDelete, hV, Function.update_apply,
      Address.bytes_inj]
    split_ifs <;> rfl
  | rolling p t w =>
    obtain ⟨T, hT, h8⟩ := h.sound.counts
    have hres := congrArg (Option.map (Except.ok : DevoteProtocol → Except DevoteError _))
      (rolling_eq_directCnt hT h8 p t w)
    exact ⟨_, hres, keep hres rfl rfl⟩
  | setWitnesses ws =>
    obtain ⟨cy, hcy⟩ := Option.isSome_iff_exists.1 h.sound.inv.cycle
    exact ⟨_, setWitnesses_eq hcy ws, keep (setWitnesses_eq hcy ws) rfl rfl⟩

/-- The manager a call leaves implements the registry the call leaves. -/
theorem Implements.apply (h : Implements d r) (call : Call) :
    ∃ d', call.apply d = some d' ∧ Implements d' (r.apply call) := by
  obtain ⟨res, hres, himpl⟩ := h.result call
  rw [Call.apply_eq_returned, hres, Registry.apply]
  cases res with
  | error e =>
    cases hs : r.step call with
    | error _ => exact ⟨d, rfl, h⟩
    | ok _ => rw [hs] at himpl; exact himpl.elim
  | ok d₁ =>
    cases hs : r.step call with
    | error _ => rw [hs] at himpl; exact himpl.elim
    | ok r₁ => rw [hs] at himpl; exact ⟨d₁, rfl, himpl⟩

/-- A reopening from the checkpoint of `Commit` keeps the registry: the reopened manager
holds the committed masternode and vote tries. -/
theorem Implements.reopen (h : Implements d r) {d₁ d' : DevoteProtocol} {db disk : Database}
    {a : DevoteProtocolAtomic} (hc : d.commit db = some (d₁, .ok (some a)))
    (hopen : newDevoteProtocolFromAtomic disk a = some (.ok d')) : Implements d' r := by
  obtain ⟨cy, ca, v, mt, r', -, -, hv, hmt, -, rfl⟩ := commit_reopen_eq hc hopen
  exact ⟨h.sound.reopen hc hopen, fun k => by rw [← h.masternodes k, hmt]; rfl,
    fun a => by rw [← h.votes a, hv]; rfl⟩

theorem Registry.run_append (calls : List Call) (call : Call) (r : Registry) :
    r.run (calls ++ [call]) = (r.run calls).apply call := by
  induction calls generalizing r with
  | nil => rfl
  | cons c calls ih => exact ih _

theorem ChainReachable.implements {calls : List Call} (h : ChainReachable calls d) :
    Implements d (Registry.empty.run calls) := by
  induction h with
  | genesis h =>
    rw [newDevoteProtocol_eq, Option.some.injEq, Except.ok.injEq] at h
    exact h ▸ implements_initial _
  | call call _ hstep ih =>
    obtain ⟨d₂, h₂, himpl⟩ := ih.apply call
    rw [Registry.run_append, ← Option.some.inj (h₂.symm.trans hstep)]
    exact himpl
  | reopen _ hc _ hopen ih => exact ih.reopen hc hopen

/-- In every manager of every block of every chain, the masternode trie holds exactly the
accounts, and the vote trie exactly the votes, of the registry that all the calls made on
the chain build from the empty one, commits and reopenings changing nothing of it; and
every call returns what the registry operation returns there: the same error, or a
manager that implements the registry after the operation. -/
theorem chainReachable_call_refines {calls : List Call} (h : ChainReachable calls d)
    (call : Call) :
    Implements d (Registry.empty.run calls) ∧ ∃ res, call.result d = some res ∧
      ImplementsResult res ((Registry.empty.run calls).step call) :=
  ⟨h.implements, h.implements.result call⟩

theorem chainReachable_call_refines_secondBlock :
    ChainReachable [.register ⟨Address.zero.bytes, Address.zero⟩] secondBlock ∧
      Implements secondBlock
        (Registry.empty.run [.register ⟨Address.zero.bytes, Address.zero⟩]) ∧
      ∃ res, (Call.delegate Address.zero Address.zero).result secondBlock = some res ∧
        ImplementsResult res
          ((Registry.empty.run [.register ⟨Address.zero.bytes, Address.zero⟩]).step
            (.delegate Address.zero Address.zero)) :=
  ⟨chainReachable_secondBlock, chainReachable_call_refines chainReachable_secondBlock _⟩

/-! ## Re-delegation -/

/-- Whether a call is one of the registry's: `Register`, `Unregister`, `Delegate` or
`UnDelegate`. -/
def Call.isRegistry : Call → Bool
  | .rolling .. | .setWitnesses _ => false
  | _ => true

/-- A registry call neither reads nor writes the cycle and rolling tries. -/
theorem apply_with_cycle_rolling (hi : Inv d) {call : Call} (hreg : call.isRegistry = true)
    (cy ro : Option Trie) :
    call.apply { d with cycleTrie := cy, minerRollingTrie := ro } =
      (call.apply d).map fun d' => { d' with cycleTrie := cy, minerRollingTrie := ro } := by
  obtain ⟨-, -, -, mt, c, v, hm, hc, hv, hri, -⟩ := hi
  set e : DevoteProtocol := { d with cycleTrie := cy, minerRollingTrie := ro }
  have hm' : e.masternodeTrie = some mt := hm
  have hc' : e.cacheTrie = some c := hc
  have hv' : e.voteTrie = some v := hv
  cases call with
  | register mn => rw [Call.apply, Call.apply, register_eq hm, register_eq hm']; rfl
  | unregister m =>
    rw [Call.apply, Call.apply, unregister_spec hm hc hv hri, unregister_spec hm' hc' hv' hri]
    rfl
  | delegate x m =>
    rw [Call.apply, Call.apply, delegate_eq hm hc hv, delegate_eq hm' hc' hv']
    split_ifs <;> rfl
  | unDelegate x m =>
    rw [Call.apply, Call.apply, unDelegate_eq hm hc hv, unDelegate_eq hm' hc' hv']
    split_ifs <;> rfl
  | rolling => cases hreg
  | setWitnesses => cases hreg

/-- `Rolling` and `SetWitnesses` write only the rolling and the cycle trie, and what they
write depends on nothing else. -/
theorem apply_local {d₁ d₂ : DevoteProtocol} (h₁ : Sound d₁)
    (hcy : d₁.cycleTrie = d₂.cycleTrie) (hro : d₁.minerRollingTrie = d₂.minerRollingTrie)
    {call : Call} (hreg : call.isRegistry = false) :
    ∃ e₁ e₂, call.apply d₁ = some e₁ ∧ call.apply d₂ = some e₂ ∧
      e₁ =
        { d₁ with cycleTrie := e₂.cycleTrie, minerRollingTrie := e₂.minerRollingTrie } := by
  cases call with
  | rolling p t w =>
    obtain ⟨T, hT, h8⟩ := h₁.counts
    refine ⟨_, _, rolling_eq_directCnt hT h8 p t w, rolling_eq_directCnt (hro ▸ hT) h8 p t w,
      ?_⟩
    simp only [← hcy]
  | setWitnesses ws =>
    obtain ⟨c, hc⟩ := Option.isSome_iff_exists.1 h₁.inv.cycle
    refine ⟨_, _, by rw [Call.apply, setWitnesses_eq hc]; rfl,
      by rw [Call.apply, setWitnesses_eq (hcy ▸ hc)]; rfl, ?_⟩
    simp only [hro]
  | _ => cases hreg

theorem runCalls_split_of {d₁ d₂ d₃ : DevoteProtocol} (h₁ : Sound d₁) (h₂ : Sound d₂)
    (hsplit :
      d₁ = { d₂ with cycleTrie := d₃.cycleTrie, minerRollingTrie := d₃.minerRollingTrie })
    (calls : List Call) :
    ∃ e₁ e₂ e₃, runCalls calls d₁ = some e₁ ∧
      runCalls (calls.filter Call.isRegistry) d₂ = some e₂ ∧
      runCalls (calls.filter fun call => !call.isRegistry) d₃ = some e₃ ∧
      e₁ =
        { e₂ with cycleTrie := e₃.cycleTrie, minerRollingTrie := e₃.minerRollingTrie } := by
  induction calls generalizing d₁ d₂ d₃ with
  | nil => exact ⟨d₁, d₂, d₃, rfl, rfl, rfl, hsplit⟩
  | cons call calls ih =>
    cases hreg : call.isRegistry with
    | true =>
      obtain ⟨e₂, he₂, hs₂⟩ := h₂.apply call
      have he₁ : call.apply d₁ = some
          { e₂ with cycleTrie := d₃.cycleTrie, minerRollingTrie := d₃.minerRollingTrie } := by
        rw [hsplit, apply_with_cycle_rolling h₂.inv hreg, he₂]
        rfl
      obtain ⟨f₁, f₂, f₃, hf₁, hf₂, hf₃, hf⟩ :=
        ih (h₁.of_apply he₁) hs₂ rfl
      refine ⟨f₁, f₂, f₃, by rw [runCalls, he₁]; exact hf₁, ?_, ?_, hf⟩
      · rw [List.filter_cons_of_pos hreg, runCalls, he₂]
        exact hf₂
      · rw [List.filter_cons_of_neg (by simp [hreg])]
        exact hf₃
    | false =>
      obtain ⟨e₁, e₃, he₁, he₃, he⟩ :=
        apply_local h₁ (show d₁.cycleTrie = d₃.cycleTrie by rw [hsplit])
          (show d₁.minerRollingTrie = d₃.minerRollingTrie by rw [hsplit]) hreg
      obtain ⟨f₁, f₂, f₃, hf₁, hf₂, hf₃, hf⟩ :=
        ih (h₁.of_apply he₁) h₂ (by rw [he, hsplit])
      refine ⟨f₁, f₂, f₃, by rw [runCalls, he₁]; exact hf₁, ?_, ?_, hf⟩
      · rw [List.filter_cons_of_neg (by simp [hreg])]
        exact hf₂
      · rw [List.filter_cons_of_pos (by simp [hreg]), runCalls, he₃]
        exact hf₃

/-- The registry calls and the other calls of a run do not interfere: in every block of
every chain, a run leaves the manager that its registry calls alone leave, with the cycle
and rolling tries that its other calls alone leave. So all interleavings of the same two
sequences of calls leave the same manager. -/
theorem runCalls_split {calls₀ : List Call} (h : ChainReachable calls₀ d) (calls : List Call) :
    ∃ d₁ d₂ d₃, runCalls calls d = some d₁ ∧
      runCalls (calls.filter Call.isRegistry) d = some d₂ ∧
      runCalls (calls.filter fun call => !call.isRegistry) d = some d₃ ∧
      d₁ = { d₂ with cycleTrie := d₃.cycleTrie, minerRollingTrie := d₃.minerRollingTrie } :=
  runCalls_split_of h.sound h.sound rfl calls

theorem runCalls_split_secondBlock :
    ChainReachable [.register ⟨Address.zero.bytes, Address.zero⟩] secondBlock ∧
      ∃ d₁ d₂ d₃,
        runCalls [.setWitnesses [], .unregister Address.zero] secondBlock = some d₁ ∧
        runCalls ([.setWitnesses [], .unregister Address.zero].filter Call.isRegistry)
          secondBlock = some d₂ ∧
        runCalls ([.setWitnesses [], .unregister Address.zero].filter fun call =>
          !call.isRegistry) secondBlock = some d₃ ∧
        d₁ =
          { d₂ with cycleTrie := d₃.cycleTrie, minerRollingTrie := d₃.minerRollingTrie } :=
  ⟨chainReachable_secondBlock, runCalls_split chainReachable_secondBlock _⟩

/-! ## The manager is determined by its registry -/

/-- From a manager that implements a registry, every run of calls leaves a manager that
implements the registry after the run. -/
theorem Implements.runCalls (h : Implements d r) (cs : List Call) :
    ∃ d', runCalls cs d = some d' ∧ Implements d' (r.run cs) := by
  induction cs generalizing d r with
  | nil => exact ⟨d, rfl, h⟩
  | cons call cs ih =>
    obtain ⟨d₁, h₁, himpl₁⟩ := h.apply call
    obtain ⟨d', h', himpl'⟩ := ih himpl₁
    exact ⟨d', by rw [runCalls, h₁]; exact h', himpl'⟩

/-- Only the registry calls of a run change the registry. -/
theorem Registry.run_filter_isRegistry (r : Registry) (cs : List Call) :
    r.run (cs.filter Call.isRegistry) = r.run cs := by
  induction cs generalizing r with
  | nil => rfl
  | cons call cs ih =>
    cases call with
    | rolling => exact ih r
    | setWitnesses => exact ih r
    | _ => exact ih _

/-- Two managers that implement the same registry hold the same masternode, vote and cache
tries: the registry fixes the first two, and the cache is the reverse index of the votes. -/
theorem Implements.tries_eq {d' : DevoteProtocol} (h : Implements d r) (h' : Implements d' r) :
    d.masternodeTrie = d'.masternodeTrie ∧ d.voteTrie = d'.voteTrie ∧
      d.cacheTrie = d'.cacheTrie := by
  obtain ⟨-, -, -, mt, c, v, hm, hc, hv, hri, -⟩ := h.sound.inv
  obtain ⟨-, -, -, mt', c', v', hm', hc', hv', hri', -⟩ := h'.sound.inv
  have hmt : mt = mt' := Trie.ext_tryGet fun k => by
    simpa [hm, hm'] using (h.masternodes k).trans (h'.masternodes k).symm
  have hvt : v = v' := Trie.ext_tryGet fun k => by
    by_cases hk : ∃ a : Address, k = a.bytes
    · obtain ⟨a, rfl⟩ := hk
      simpa [hv, hv'] using (h.votes a).trans (h'.votes a).symm
    · have hnone : ∀ w, VotesAreAddresses w → w.tryGet k = none := fun w hw => by
        cases hx : w.tryGet k with
        | none => rfl
        | some x =>
          obtain ⟨a, -, rfl, -⟩ := hw k x hx
          exact absurd ⟨a, rfl⟩ hk
      rw [hnone v hri.votes, hnone v' hri'.votes]
  subst hmt hvt
  exact ⟨hm.trans hm'.symm, hv.trans hv'.symm,
    hc.trans ((congrArg some (hri.unique hri')).trans hc'.symm)⟩

/-- A registry call leaves the cycle and rolling tries as they were. -/
theorem apply_keeps_cycle_rolling (hi : Inv d) {call : Call} (hreg : call.isRegistry = true)
    {d' : DevoteProtocol} (h : call.apply d = some d') :
    d'.cycleTrie = d.cycleTrie ∧ d'.minerRollingTrie = d.minerRollingTrie := by
  have hw := apply_with_cycle_rolling hi hreg d.cycleTrie d.minerRollingTrie
  change call.apply d = _ at hw
  rw [h, Option.map_some'] at hw
  have hd := Option.some.inj hw
  exact ⟨by rw [hd], by rw [hd]⟩

/-- A run of registry calls from a sound manager leaves the cycle and rolling tries as they
were. -/
theorem runCalls_keeps_cycle_rolling (h : Sound d) {cs : List Call}
    (hall : ∀ call ∈ cs, call.isRegistry = true) {d' : DevoteProtocol}
    (hrun : runCalls cs d = some d') :
    d'.cycleTrie = d.cycleTrie ∧ d'.minerRollingTrie = d.minerRollingTrie := by
  induction cs generalizing d with
  | nil =>
    cases hrun
    exact ⟨rfl, rfl⟩
  | cons call cs ih =>
    obtain ⟨d₁, h₁, hrun'⟩ := Option.bind_eq_some.1 hrun
    obtain ⟨hcy₁, hro₁⟩ := apply_keeps_cycle_rolling h.inv (hall call (.head _)) h₁
    obtain ⟨hcy, hro⟩ := ih (h.of_apply h₁) (fun c hc => hall c (.tail _ hc)) hrun'
    exact ⟨hcy.trans hcy₁, hro.trans hro₁⟩

/-- From a manager of a chain, two runs that leave the same registry and make the same other
calls in the same order leave the same manager. -/
theorem ChainReachable.runCalls_congr {calls₀ : List Call} (h : ChainReachable calls₀ d)
    {cs cs' : List Call}
    (hreg : (Registry.empty.run calls₀).run cs = (Registry.empty.run calls₀).run cs')
    (hother :
      cs.filter (fun call => !call.isRegistry) = cs'.filter fun call => !call.isRegistry) :
    runCalls cs d = runCalls cs' d := by
  obtain ⟨e₁, e₂, e₃, h₁, h₂, h₃, he⟩ := runCalls_split_of h.sound h.sound rfl cs
  obtain ⟨e₁', e₂', e₃', h₁', h₂', h₃', he'⟩ :=
    runCalls_split_of h.sound h.sound rfl cs'
  obtain rfl : e₃ = e₃' := Option.some.inj (h₃.symm.trans (hother ▸ h₃'))
  /- The registry calls alone leave managers that implement the same registry. -/
  obtain ⟨f₂, hf₂, himpl₂⟩ := h.implements.runCalls (cs.filter Call.isRegistry)
  obtain ⟨f₂', hf₂', himpl₂'⟩ := h.implements.runCalls (cs'.filter Call.isRegistry)
  obtain rfl := Option.some.inj (hf₂.symm.trans h₂)
  obtain rfl := Option.some.inj (hf₂'.symm.trans h₂')
  rw [Registry.run_filter_isRegistry, hreg, ← Registry.run_filter_isRegistry] at himpl₂
  obtain ⟨hm, hv, hc⟩ := himpl₂.tries_eq himpl₂'
  have hall : ∀ cs : List Call, ∀ call ∈ cs.filter Call.isRegistry, call.isRegistry = true :=
    fun _ _ hc => (List.mem_filter.1 hc).2
  obtain ⟨hcy, hro⟩ := runCalls_keeps_cycle_rolling h.sound (hall cs) h₂
  obtain ⟨hcy', hro'⟩ := runCalls_keeps_cycle_rolling h.sound (hall cs') h₂'
  have he₂ : f₂ = f₂' := by
    rw [runCalls_keeps_storage h.sound h₂, runCalls_keeps_storage h.sound h₂', hm, hv, hc, hcy,
      hro, hcy', hro']
  rw [h₁, h₁', he, he', he₂]

/-- A manager of a chain depends on the calls made on it only through the registry they
build and through the `Rolling` and `SetWitnesses` calls among them: from every manager of
every chain, two runs that leave the same registry and make the same other calls in the
same order leave the same manager. So registry calls that build the same registry, such
as the calls of two distinct delegators in either order, or a `Delegate` that an
`UnDelegate` withdraws, are indistinguishable afterwards. -/
theorem runCalls_eq_of_registry {calls₀ : List Call} (h : ChainReachable calls₀ d)
    {cs cs' : List Call}
    (hreg : (Registry.empty.run calls₀).run cs = (Registry.empty.run calls₀).run cs')
    (hother :
      cs.filter (fun call => !call.isRegistry) = cs'.filter fun call => !call.isRegistry) :
    runCalls cs d = runCalls cs' d :=
  h.runCalls_congr hreg hother

theorem runCalls_eq_of_registry_undo :
    ChainReachable [.register ⟨Address.zero.bytes, Address.zero⟩] secondBlock ∧
      (Registry.empty.run [.register ⟨Address.zero.bytes, Address.zero⟩]).run [] =
        (Registry.empty.run [.register ⟨Address.zero.bytes, Address.zero⟩]).run
          [.delegate Address.zero Address.zero, .unDelegate Address.zero Address.zero] ∧
      ([] : List Call).filter (fun call => !call.isRegistry) =
        [Call.delegate Address.zero Address.zero, .unDelegate Address.zero Address.zero].filter
          (fun call => !call.isRegistry) ∧
      runCalls [] secondBlock = runCalls
        [.delegate Address.zero Address.zero, .unDelegate Address.zero Address.zero] secondBlock :=
  have hreg : (Registry.empty.run [.register ⟨Address.zero.bytes, Address.zero⟩]).run [] =
      (Registry.empty.run [.register ⟨Address.zero.bytes, Address.zero⟩]).run
        [.delegate Address.zero Address.zero, .unDelegate Address.zero Address.zero] := by
    simp [Registry.run, Registry.apply, Registry.step, Registry.register, Registry.delegate,
      Registry.unDelegate, Registry.empty]
  ⟨chainReachable_secondBlock, hreg, rfl,
    runCalls_eq_of_registry chainReachable_secondBlock hreg rfl⟩

/-! ## The delegators do not interfere -/

/-- The delegator whose vote a `Delegate` or `UnDelegate` call changes. -/
def Call.delegatorAddr : Call → Option Address
  | .delegate delegatorAddr _ => some delegatorAddr
  | .unDelegate delegatorAddr _ => some delegatorAddr
  | _ => none

theorem Call.isRegistry_of_delegatorAddr {call : Call} (h : call.delegatorAddr.isSome) :
    call.isRegistry = true := by
  cases call <;> simp_all [Call.delegatorAddr, Call.isRegistry]

attribute [ext] Registry

namespace Registry

variable {call : Call} {a : Address}

/-- A vote call keeps the masternodes and every other delegator's vote. -/
theorem apply_of_delegatorAddr (hc : call.delegatorAddr = some a) (r : Registry) :
    (apply call r).masternodes = r.masternodes ∧ ∀ x ≠ a, (apply call r).votes x = r.votes x := by
  cases call with
  | delegate x m =>
    obtain rfl := Option.some.inj hc
    simp only [apply, step, delegate]
    split_ifs <;> simp +contextual [Function.update_noteq]
  | unDelegate x m =>
    obtain rfl := Option.some.inj hc
    simp only [apply, step, unDelegate]
    split_ifs <;> simp +contextual [Function.update_noteq]
  | _ => cases hc

/-- What a vote call leaves as its delegator's vote reads only the masternodes and that
vote. -/
theorem votes_apply_congr (hc : call.delegatorAddr = some a) {r r' : Registry}
    (hm : r.masternodes = r'.masternodes) (hv : r.votes a = r'.votes a) :
    (apply call r).votes a = (apply call r').votes a := by
  cases call with
  | delegate x m =>
    obtain rfl := Option.some.inj hc
    simp only [apply, step, delegate, hm]
    split_ifs <;> simp [hv]
  | unDelegate x m =>
    obtain rfl := Option.some.inj hc
    simp only [apply, step, unDelegate, hm, hv]
    split_ifs <;> simp [hv]
  | _ => cases hc

/-- What a run of one delegator's calls leaves as the delegator's vote reads only the
masternodes and that vote. -/
theorem votes_run_congr {cs : List Call} (hcs : ∀ call ∈ cs, call.delegatorAddr = some a)
    {r r' : Registry} (hm : r.masternodes = r'.masternodes) (hv : r.votes a = r'.votes a) :
    (r.run cs).votes a = (r'.run cs).votes a := by
  induction cs generalizing r r' with
  | nil => exact hv
  | cons call cs ih =>
    have hc := hcs call (.head _)
    exact ih (fun c h => hcs c (.tail _ h))
      (by rw [(apply_of_delegatorAddr hc r).1, (apply_of_delegatorAddr hc r').1, hm])
      (votes_apply_congr hc hm hv)

/-- A run of vote calls keeps the masternodes, and leaves each delegator the vote that the
delegator's own calls leave when they run alone. -/
theorem run_of_delegatorAddr {cs : List Call} (hcs : ∀ call ∈ cs, call.delegatorAddr.isSome)
    (r : Registry) :
    (r.run cs).masternodes = r.masternodes ∧ ∀ a, (r.run cs).votes a =
      (r.run (cs.filter fun call => call.delegatorAddr = some a)).votes a := by
  induction cs generalizing r with
  | nil => exact ⟨rfl, fun _ => rfl⟩
  | cons call cs ih =>
    obtain ⟨b, hb⟩ := Option.isSome_iff_exists.1 (hcs call (.head _))
    obtain ⟨hm, hv⟩ := ih (fun c h => hcs c (.tail _ h)) (apply call r)
    obtain ⟨hm₁, hv₁⟩ := apply_of_delegatorAddr hb r
    refine ⟨hm.trans hm₁, fun a => ?_⟩
    rw [run, hv a, List.filter_cons, hb]
    by_cases hab : b = a
    · subst hab
      simp [run]
    · rw [if_neg (by simpa using hab)]
      exact votes_run_congr (fun c h => of_decide_eq_true (List.mem_filter.1 h).2) hm₁
        (hv₁ a (Ne.symm hab))

/-- Two runs of vote calls that make, for each delegator, the same calls in the same order
leave the same registry. -/
theorem run_eq_of_delegatorAddr {cs cs' : List Call}
    (hcs : ∀ call ∈ cs, call.delegatorAddr.isSome) (hcs' : ∀ call ∈ cs', call.delegatorAddr.isSome)
    (hproj : ∀ a, cs.filter (fun call => call.delegatorAddr = some a) =
      cs'.filter fun call => call.delegatorAddr = some a) (r : Registry) :
    r.run cs = r.run cs' := by
  obtain ⟨hm, hv⟩ := run_of_delegatorAddr hcs r
  obtain ⟨hm', hv'⟩ := run_of_delegatorAddr hcs' r
  exact Registry.ext (hm.trans hm'.symm) (funext fun a => by rw [hv, hv', hproj])

end Registry

/-- Within a block, the votes of distinct delegators do not interfere: from every manager of
every chain, two runs of `Delegate` and `UnDelegate` calls that make, for each delegator, the
same calls in the same order leave the same manager, however the delegators' calls are
interleaved. -/
theorem runCalls_eq_of_delegator_calls {calls₀ : List Call} (h : ChainReachable calls₀ d)
    {cs cs' : List Call} (hcs : ∀ call ∈ cs, call.delegatorAddr.isSome)
    (hcs' : ∀ call ∈ cs', call.delegatorAddr.isSome)
    (hproj : ∀ a, cs.filter (fun call => call.delegatorAddr = some a) =
      cs'.filter fun call => call.delegatorAddr = some a) :
    runCalls cs d = runCalls cs' d := by
  have hother : ∀ {cs : List Call}, (∀ call ∈ cs, call.delegatorAddr.isSome) →
      cs.filter (fun call => !call.isRegistry) = [] := fun hcs =>
    List.filter_eq_nil_iff.2 fun call hc => by
      simp [Call.isRegistry_of_delegatorAddr (hcs call hc)]
  exact h.runCalls_congr (Registry.run_eq_of_delegatorAddr hcs hcs' hproj _)
    ((hother hcs).trans (hother hcs').symm)

theorem runCalls_eq_of_delegator_calls_swap :
    ChainReachable [.register ⟨Address.zero.bytes, Address.zero⟩] secondBlock ∧
      (∀ call ∈ [Call.delegate Address.zero Address.zero,
        .delegate ⟨List.replicate 20 1, List.length_replicate _ _⟩ Address.zero],
        call.delegatorAddr.isSome) ∧
      (∀ call ∈ [Call.delegate ⟨List.replicate 20 1, List.length_replicate _ _⟩ Address.zero,
        .delegate Address.zero Address.zero], call.delegatorAddr.isSome) ∧
      (∀ a, [Call.delegate Address.zero Address.zero,
          .delegate ⟨List.replicate 20 1, List.length_replicate _ _⟩ Address.zero].filter
            (fun call => call.delegatorAddr = some a) =
        [Call.delegate ⟨List.replicate 20 1, List.length_replicate _ _⟩ Address.zero,
          .delegate Address.zero Address.zero].filter
            fun call => call.delegatorAddr = some a) ∧
      runCalls [.delegate Address.zero Address.zero,
          .delegate ⟨List.replicate 20 1, List.length_replicate _ _⟩ Address.zero] secondBlock =
        runCalls [.delegate ⟨List.replicate 20 1, List.length_replicate _ _⟩ Address.zero,
          .delegate Address.zero Address.zero] secondBlock :=
  have hcs : ∀ call ∈ [Call.delegate Address.zero Address.zero,
      .delegate ⟨List.replicate 20 1, List.length_replicate _ _⟩ Address.zero],
      call.delegatorAddr.isSome := by simp [Call.delegatorAddr]
  have hcs' : ∀ call ∈ [Call.delegate ⟨List.replicate 20 1, List.length_replicate _ _⟩ Address.zero,
      .delegate Address.zero Address.zero], call.delegatorAddr.isSome := by
    simp [Call.delegatorAddr]
  have hproj : ∀ a, [Call.delegate Address.zero Address.zero,
        .delegate ⟨List.replicate 20 1, List.length_replicate _ _⟩ Address.zero].filter
          (fun call => call.delegatorAddr = some a) =
      [Call.delegate ⟨List.replicate 20 1, List.length_replicate _ _⟩ Address.zero,
        .delegate Address.zero Address.zero].filter
          fun call => call.delegatorAddr = some a := fun a => by
    by_cases h₀ : Address.zero = a
    · subst h₀
      simp [Call.delegatorAddr, Address.zero]
    · by_cases h₁ : ⟨List.replicate 20 1, List.length_replicate _ _⟩ = a <;>
        simp [List.filter, Call.delegatorAddr, h₀, h₁]
  ⟨chainReachable_secondBlock, hcs, hcs', hproj,
    runCalls_eq_of_delegator_calls chainReachable_secondBlock hcs hcs' hproj⟩

end Devote
