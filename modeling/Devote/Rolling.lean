import Devote.Delegation

/-!
# Rotation counts

`Rolling(parent, current, witness)` counts one more block for `witness` under the key
`BE8(cycle) ‖ witness` of the rolling trie, where the cycle is `current / CycleInterval`.
It reads the old count only when the parent block lies in the same cycle and the trie
holds a key at or after `BE8(cycle)`. Along a chain of non-negative, non-decreasing block
times, every key of a cycle later than the parent's is fresh, and every count of the
parent's cycle is seen by that scan; so the trie holds, for each cycle and witness, the
number of blocks of the cycle the witness minted, and nothing else. The calls of the
other operations in between leave the trie alone.
-/

namespace Devote

open DevoteProtocol

/-! ## Timestamps -/

section Timestamps

variable {t t' : BitVec 64}

theorem msb_eq_false_of_nonneg (ht : 0 ≤ t.toInt) : t.msb = false := by
  rw [BitVec.toInt_eq_msb_cond] at ht
  have := t.isLt
  split_ifs at ht with h
  · omega
  · simpa using h

theorem toInt_eq_toNat_of_nonneg (ht : 0 ≤ t.toInt) : t.toInt = t.toNat := by
  rw [BitVec.toInt_eq_msb_cond, msb_eq_false_of_nonneg ht]
  rfl

theorem toNat_le_of_toInt_le (ht : 0 ≤ t.toInt) (h : t.toInt ≤ t'.toInt) :
    t.toNat ≤ t'.toNat := by
  have ht' := Int.le_trans ht h
  rw [toInt_eq_toNat_of_nonneg ht, toInt_eq_toNat_of_nonneg ht'] at h
  exact_mod_cast h

/-- Go's truncating division of a non-negative timestamp is the division of naturals. -/
theorem toNat_sdiv_cycleInterval (ht : 0 ≤ t.toInt) :
    (t.sdiv cycleInterval).toNat = t.toNat / 3600 := by
  rw [BitVec.sdiv_eq, msb_eq_false_of_nonneg ht, show cycleInterval.msb = false by decide]
  simp only [BitVec.udiv_eq, BitVec.toNat_udiv]
  rfl

end Timestamps

/-! ## Keys and counts -/

/-- A cycle word at the front of a key determines the cycle and the address after it. -/
theorem putUint64_append_inj {c c' : BitVec 64} {w w' : Address} :
    putUint64 c ++ w.bytes = putUint64 c' ++ w'.bytes ↔ c = c' ∧ w = w' := by
  constructor
  · intro h
    obtain ⟨hc, hw⟩ := List.append_inj h (by simp)
    exact ⟨putUint64_injective hc, Address.bytes_injective hw⟩
  · rintro ⟨rfl, rfl⟩
    rfl

theorem putUint64_ofNat (n : Nat) : putUint64 (BitVec.ofNat 64 n) = bigEndian 8 (n % 2 ^ 64) := by
  simp [putUint64]

/-- The number of the blocks of cycle `c` minted by `w`. -/
def mintCount (blocks : List (BitVec 64 × Address)) (c : BitVec 64) (w : Address) : Nat :=
  blocks.countP fun b => b.1.toNat / 3600 = c.toNat ∧ b.2 = w

/-- What the rolling trie holds for a count: nothing for zero, else its eight
big-endian bytes modulo `2 ^ 64`. -/
def countValue (n : Nat) : Option Bytes :=
  if n = 0 then none else some (bigEndian 8 (n % 2 ^ 64))

theorem mintCount_append_singleton (blocks : List (BitVec 64 × Address)) (t c : BitVec 64)
    (w w' : Address) :
    mintCount (blocks ++ [(t, w)]) c w' =
      mintCount blocks c w' + if t.toNat / 3600 = c.toNat ∧ w = w' then 1 else 0 := by
  simp [mintCount, List.countP_append, List.countP_cons]

/-- The rolling trie `r` counts the blocks `blocks`, none of them later than `parent`. -/
structure Counts (parent : BitVec 64) (blocks : List (BitVec 64 × Address)) (r : Trie) :
    Prop where
  before : ∀ b ∈ blocks, b.1.toNat ≤ parent.toNat
  get : ∀ c w, r.tryGet (putUint64 c ++ w.bytes) = countValue (mintCount blocks c w)
  keys : ∀ k x, r.tryGet k = some x → ∃ (c : BitVec 64) (w : Address), k = putUint64 c ++ w.bytes

namespace Counts

variable {parent t : BitVec 64} {blocks : List (BitVec 64 × Address)} {r : Trie}

theorem empty (parent : BitVec 64) : Counts parent [] .empty :=
  ⟨by simp, by simp [mintCount, countValue], by simp⟩

/-- No block counted so far lies in a cycle after the parent's. -/
theorem mintCount_eq_zero (h : Counts parent blocks r) {c : BitVec 64}
    (hc : parent.toNat / 3600 < c.toNat) (w : Address) : mintCount blocks c w = 0 := by
  refine List.countP_eq_zero.2 fun b hb hbc => ?_
  have := Nat.div_le_div_right (c := 3600) (h.before b hb)
  simp only [decide_eq_true_eq] at hbc
  omega

/-- A counted block is seen by the iterator from its cycle's first key. -/
theorem nodeIterator_ne_nil (h : Counts parent blocks r) {c : BitVec 64} {w : Address}
    (hn : mintCount blocks c w ≠ 0) : r.nodeIterator (putUint64 c) ≠ [] :=
  Trie.nodeIterator_ne_nil_of_tryGet (by rw [h.get c w, countValue, if_neg hn])

end Counts

/-! ## One `Rolling` call -/

section Step

variable {parent t : BitVec 64} {blocks : List (BitVec 64 × Address)} {r : Trie}

/-- On a counting trie, `Rolling` stores one more than the count of the block's cycle
and witness, whichever branch it takes. -/
theorem rollingCnt_of_counts (h : Counts parent blocks r) (hp : 0 ≤ parent.toInt)
    (hle : parent.toInt ≤ t.toInt) (w : Address) :
    rollingCnt r (parent.sdiv cycleInterval) (t.sdiv cycleInterval) w =
      some (BitVec.ofNat 64 (mintCount blocks (t.sdiv cycleInterval) w + 1)) := by
  have ht := Int.le_trans hp hle
  rw [← BitVec.ofNat_add_ofNat]
  by_cases hc : parent.sdiv cycleInterval = t.sdiv cycleInterval
  · rw [rollingCnt, hc]
    by_cases hn : mintCount blocks (t.sdiv cycleInterval) w = 0
    · simp [h.get, countValue, hn]
    · have hiter : (r.nodeIterator (putUint64 (t.sdiv cycleInterval))).isEmpty = false := by
        simpa [List.isEmpty_iff] using h.nodeIterator_ne_nil hn
      rw [if_pos ⟨rfl, hiter⟩, h.get, countValue, if_neg hn, ← putUint64_ofNat]
      simp only [uint64_putUint64]
      rfl
  · have hlt : parent.toNat / 3600 < (t.sdiv cycleInterval).toNat := by
      have hne : (parent.sdiv cycleInterval).toNat ≠ (t.sdiv cycleInterval).toNat :=
        fun h' => hc (BitVec.eq_of_toNat_eq h')
      rw [toNat_sdiv_cycleInterval hp] at hne
      rw [toNat_sdiv_cycleInterval ht] at hne ⊢
      have := Nat.div_le_div_right (c := 3600) (toNat_le_of_toInt_le hp hle)
      omega
    rw [h.mintCount_eq_zero hlt, rollingCnt, if_neg fun h' => hc h'.1]
    rfl

/-- After `Rolling(parent, t, w)` the trie counts one more block `(t, w)`. -/
theorem Counts.rolling (h : Counts parent blocks r) (hp : 0 ≤ parent.toInt)
    (hle : parent.toInt ≤ t.toInt) (w : Address) :
    Counts t (blocks ++ [(t, w)]) (r.tryUpdate (putUint64 (t.sdiv cycleInterval) ++ w.bytes)
      (putUint64 (BitVec.ofNat 64 (mintCount blocks (t.sdiv cycleInterval) w + 1)))) := by
  have ht := Int.le_trans hp hle
  have hne : putUint64 (BitVec.ofNat 64 (mintCount blocks (t.sdiv cycleInterval) w + 1)) ≠ [] :=
    List.ne_nil_of_length_pos (by simp)
  refine ⟨fun b hb => ?_, fun c w' => ?_, fun k x hk => ?_⟩
  · rcases List.mem_append.1 hb with hb | hb
    · exact (h.before b hb).trans (toNat_le_of_toInt_le hp hle)
    · simp [List.mem_singleton.1 hb]
  · rw [Trie.tryGet_tryUpdate _ _ _ hne, mintCount_append_singleton, h.get]
    split_ifs with hk hb hb
    · obtain ⟨rfl, rfl⟩ := putUint64_append_inj.1 hk
      simp [countValue, putUint64_ofNat]
    · obtain ⟨rfl, rfl⟩ := putUint64_append_inj.1 hk
      exact absurd ⟨(toNat_sdiv_cycleInterval ht).symm, rfl⟩ hb
    · refine absurd (putUint64_append_inj.2 ⟨BitVec.eq_of_toNat_eq ?_, hb.2.symm⟩) hk
      rw [toNat_sdiv_cycleInterval ht, hb.1]
    · rfl
  · rw [Trie.tryGet_tryUpdate _ _ _ hne] at hk
    split_ifs at hk with hkey
    · exact ⟨_, _, hkey⟩
    · exact h.keys k x hk

/-- `Rolling` on a manager whose rolling trie counts the blocks so far: it does not
panic, and it leaves a trie that counts the new block too. -/
theorem rolling_of_counts {d : DevoteProtocol} (hr : d.minerRollingTrie = some r)
    (h : Counts parent blocks r) (hp : 0 ≤ parent.toInt) (hle : parent.toInt ≤ t.toInt)
    (w : Address) :
    ∃ r', d.rolling parent t w = some { d with minerRollingTrie := some r' } ∧
      Counts t (blocks ++ [(t, w)]) r' :=
  ⟨_, by rw [rolling_eq hr, rollingCnt_of_counts h hp hle]; rfl, h.rolling hp hle w⟩

end Step

/-! ## The iterator check is a direct lookup

On a trie of eight-byte counters, the iterator from the parent cycle's first key is
non-empty whenever the witness's own counter of that cycle is stored, and the count is 1
whenever it is not, so `Rolling` writes what a direct lookup of the counter gives. -/

section Direct

/-- Every value of the trie is eight bytes long, as `PutUint64` writes them. -/
def CountsAreWords (t : Trie) : Prop := ∀ k v, t.tryGet k = some v → v.length = 8

/-- The count of a direct lookup: `v + 1` modulo `2 ^ 64` when the block stays in the
parent's cycle and the trie holds `v` at the parent cycle's key of the witness, else 1. -/
def directCnt (t : Trie) (currentCycle newCycle : BitVec 64) (witness : Address) : Bytes :=
  if currentCycle = newCycle then
    match t.tryGet (putUint64 currentCycle ++ witness.bytes) with
    | some v => bigEndian 8 ((ofBigEndian v + 1) % 2 ^ 64)
    | none => bigEndian 8 1
  else bigEndian 8 1

variable {t : Trie} {currentCycle newCycle : BitVec 64} {witness : Address}

theorem directCnt_ne_nil : directCnt t currentCycle newCycle witness ≠ [] := by
  unfold directCnt
  split <;> [split; skip] <;> exact List.ne_nil_of_length_pos (by simp)

theorem rollingCnt_eq_directCnt (h8 : CountsAreWords t) :
    (rollingCnt t currentCycle newCycle witness).map putUint64 =
      some (directCnt t currentCycle newCycle witness) := by
  by_cases hc : currentCycle = newCycle
  · subst hc
    cases hv : t.tryGet (putUint64 currentCycle ++ witness.bytes) with
    | none => simp only [rollingCnt, directCnt, hv, true_and, if_true]; split <;> rfl
    | some v =>
      have hiter : (t.nodeIterator (putUint64 currentCycle)).isEmpty = false := by
        simpa [List.isEmpty_iff] using Trie.nodeIterator_ne_nil_of_tryGet hv
      rw [rollingCnt, if_pos ⟨rfl, hiter⟩, hv, directCnt, if_pos rfl, hv]
      have hlen := h8 _ _ hv
      simp [uint64, hlen, List.take_of_length_le hlen.le, BitVec.ofNat_add_ofNat, putUint64_ofNat]
  · simp only [rollingCnt, directCnt, hc, false_and, if_false]
    rfl

/-- `Rolling` on a trie of eight-byte counters does not panic and writes the count of
the direct lookup. -/
theorem rolling_eq_directCnt {d : DevoteProtocol} (hT : d.minerRollingTrie = some t)
    (h8 : CountsAreWords t) (p c : BitVec 64) (w : Address) :
    d.rolling p c w = some { d with
      minerRollingTrie := t.tryUpdate (putUint64 (c.sdiv cycleInterval) ++ w.bytes)
        (directCnt t (p.sdiv cycleInterval) (c.sdiv cycleInterval) w) } := by
  have hdirect : (rollingCnt t (p.sdiv cycleInterval) (c.sdiv cycleInterval) w).map putUint64 =
      some (directCnt t (p.sdiv cycleInterval) (c.sdiv cycleInterval) w) :=
    rollingCnt_eq_directCnt h8
  obtain ⟨cnt, hcnt, hput⟩ := Option.map_eq_some'.1 hdirect
  rw [rolling_eq hT, hcnt, ← hput]
  rfl

/-- `Rolling` on a trie of eight-byte counters changes the trie only at the key
`BE8(c / 3600) ‖ w`, which it sets to the count of the direct lookup. -/
theorem rolling_sets_direct_count {d : DevoteProtocol} {T : Trie}
    (hT : d.minerRollingTrie = some T) (h8 : CountsAreWords T) (p c : BitVec 64) (w : Address) :
    ∃ T', d.rolling p c w = some { d with minerRollingTrie := some T' } ∧
      ∀ k, T'.tryGet k = if k = putUint64 (c.sdiv cycleInterval) ++ w.bytes then
        some (directCnt T (p.sdiv cycleInterval) (c.sdiv cycleInterval) w) else T.tryGet k :=
  ⟨_, rolling_eq_directCnt hT h8 p c w, fun _ => Trie.tryGet_tryUpdate _ _ _ directCnt_ne_nil⟩

/-- The rolling trie after `Rolling(0, 3600, zero)` from `NewDevoteProtocol`: the zero
address has minted one block of cycle 1. -/
def mintedOnce : Trie := Trie.empty.tryUpdate (putUint64 1 ++ Address.zero.bytes) (putUint64 1)

theorem rolling_sets_direct_count_stored :
    (initial ⟨[], []⟩).rolling 0 3600 Address.zero =
        some ((initial ⟨[], []⟩).setMinerRollingTrie (some mintedOnce)) ∧
      CountsAreWords mintedOnce ∧
      directCnt mintedOnce ((3600 : BitVec 64).sdiv cycleInterval)
        ((3700 : BitVec 64).sdiv cycleInterval) Address.zero = putUint64 2 ∧
      ∃ T', ((initial ⟨[], []⟩).setMinerRollingTrie (some mintedOnce)).rolling 3600 3700
          Address.zero = some { (initial ⟨[], []⟩).setMinerRollingTrie (some mintedOnce) with
            minerRollingTrie := some T' } ∧
        ∀ k, T'.tryGet k =
          if k = putUint64 ((3700 : BitVec 64).sdiv cycleInterval) ++ Address.zero.bytes then
            some (directCnt mintedOnce ((3600 : BitVec 64).sdiv cycleInterval)
              ((3700 : BitVec 64).sdiv cycleInterval) Address.zero)
          else mintedOnce.tryGet k :=
  have h8 : CountsAreWords mintedOnce := fun k v hv => by
    rw [mintedOnce, Trie.tryGet_tryUpdate _ _ _ (by simp [putUint64, bigEndian])] at hv
    split_ifs at hv
    · rw [← Option.some.inj hv, length_putUint64]
    · simp at hv
  ⟨rfl, h8, by decide, rolling_sets_direct_count rfl h8 3600 3700 Address.zero⟩

/-- `Rolling` keeps the counters eight bytes long. -/
theorem CountsAreWords.tryUpdate_directCnt (h8 : CountsAreWords t) (k : Bytes) :
    CountsAreWords (t.tryUpdate k (directCnt t currentCycle newCycle witness)) := by
  intro k' v hv
  rw [Trie.tryGet_tryUpdate _ _ _ directCnt_ne_nil] at hv
  split_ifs at hv
  · rw [← Option.some.inj hv, directCnt]
    split <;> [split; skip] <;> simp
  · exact h8 k' v hv

end Direct

/-! ## Runs -/

/-- Whether a call is `Rolling`. -/
def Call.isRolling : Call → Bool
  | .rolling .. => true
  | _ => false

theorem Call.eq_rolling_of_isRolling {call : Call} (h : call.isRolling = true) :
    ∃ p t w, call = .rolling p t w := by
  cases call <;> first | exact ⟨_, _, _, rfl⟩ | cases h

/-- `Rolling(t(i-1), ti, wi)` for the blocks `(ti, wi)`, `i = 1..n`, after a block of
time `t0`. -/
def rollingCalls : BitVec 64 → List (BitVec 64 × Address) → List Call
  | _, [] => []
  | parent, (time, witness) :: blocks => .rolling parent time witness :: rollingCalls time blocks

/-- On an indexed manager every call other than `Rolling` returns, and leaves the rolling
trie as it was; so does the cycle trie, unless the call is `SetWitnesses`. -/
theorem apply_frame {d : DevoteProtocol} (hi : Inv d) (call : Call)
    (hrol : call.isRolling = false) :
    ∃ d', call.apply d = some d' ∧ d'.minerRollingTrie = d.minerRollingTrie ∧
      ((∀ ws, call ≠ .setWitnesses ws) → d'.cycleTrie = d.cycleTrie) := by
  obtain ⟨hcy, -, -, mt, c, v, hm, hc, hv, hri, -⟩ := hi
  cases call with
  | register mn => exact ⟨_, by rw [Call.apply, register_eq hm]; rfl, by rfl, fun _ => by rfl⟩
  | unregister m =>
    exact ⟨_, by rw [Call.apply, unregister_spec hm hc hv hri]; rfl, by rfl, fun _ => by rfl⟩
  | delegate dl m =>
    rw [Call.apply, delegate_eq hm hc hv]
    split_ifs <;> exact ⟨_, rfl, rfl, fun _ => rfl⟩
  | unDelegate dl m =>
    rw [Call.apply, unDelegate_eq hm hc hv]
    split_ifs <;> exact ⟨_, rfl, rfl, fun _ => rfl⟩
  | rolling => cases hrol
  | setWitnesses ws =>
    obtain ⟨cy, hcy⟩ := Option.isSome_iff_exists.1 hcy
    exact ⟨_, by rw [Call.apply, setWitnesses_eq hcy]; rfl, by rfl, fun h => absurd rfl (h ws)⟩

/-- In every reachable manager the rolling trie holds eight-byte counters, so no `Rolling`
call panics there. -/
theorem reachable_counts_are_words {d : DevoteProtocol} (h : Reachable d) :
    ∃ T, d.minerRollingTrie = some T ∧ CountsAreWords T := by
  induction h with
  | new h =>
    rw [newDevoteProtocol_eq, Option.some.injEq, Except.ok.injEq] at h
    subst h
    exact ⟨_, rfl, fun k v hv => by simp at hv⟩
  | call call hd hstep ih =>
    obtain ⟨T, hT, h8⟩ := ih
    cases hrol : call.isRolling with
    | false =>
      obtain ⟨d₁, happly, hr₁, -⟩ := apply_frame (inv_of_reachable hd) call hrol
      obtain rfl := Option.some.inj (happly.symm.trans hstep)
      exact ⟨T, hr₁.trans hT, h8⟩
    | true =>
      obtain ⟨p, t, w, rfl⟩ := Call.eq_rolling_of_isRolling hrol
      rw [Call.apply, rolling_eq_directCnt hT h8, Option.some.injEq] at hstep
      subst hstep
      exact ⟨_, rfl, h8.tryUpdate_directCnt _⟩

/-- A run whose `Rolling` calls chain from `parent` through `blocks`, on an indexed manager
whose rolling trie counts `done`: it does not panic, and its rolling trie counts
`done ++ blocks`. -/
theorem runCalls_counts {calls : List Call} {d : DevoteProtocol} {parent : BitVec 64}
    {done blocks : List (BitVec 64 × Address)} {r : Trie} (hi : Inv d)
    (hr : d.minerRollingTrie = some r) (h : Counts parent done r) (hp : 0 ≤ parent.toInt)
    (hchain : List.Chain (fun a b : BitVec 64 => a.toInt ≤ b.toInt) parent (blocks.map Prod.fst))
    (hcalls : calls.filter Call.isRolling = rollingCalls parent blocks) :
    ∃ d' r' parent', runCalls calls d = some d' ∧ d'.minerRollingTrie = some r' ∧
      Counts parent' (done ++ blocks) r' := by
  induction calls generalizing d parent done blocks r with
  | nil =>
    match blocks, hcalls with
    | [], _ => exact ⟨d, r, parent, rfl, hr, by simpa using h⟩
  | cons call calls ih =>
    cases hrol : call.isRolling with
    | false =>
      obtain ⟨d₁, happly, hr₁, -⟩ := apply_frame hi call hrol
      rw [List.filter_cons_of_neg (by simp [hrol])] at hcalls
      obtain ⟨d', r', parent', hrun, hr', h'⟩ :=
        ih (inv_call hi call happly) (hr₁.trans hr) h hp hchain hcalls
      exact ⟨d', r', parent', by rw [runCalls, happly]; exact hrun, hr', h'⟩
    | true =>
      obtain ⟨p, t, w, rfl⟩ := Call.eq_rolling_of_isRolling hrol
      rw [List.filter_cons_of_pos (by rfl)] at hcalls
      match blocks, hcalls, hchain with
      | (t', w') :: bs, hcalls, hchain =>
        simp only [rollingCalls, List.cons.injEq, Call.rolling.injEq] at hcalls
        obtain ⟨⟨rfl, rfl, rfl⟩, hcalls⟩ := hcalls
        obtain ⟨hle, hchain⟩ := List.chain_cons.1 hchain
        obtain ⟨r₁, hroll, h₁⟩ := rolling_of_counts hr h hp hle w
        obtain ⟨d', r', parent', hrun, hr', h'⟩ :=
          ih (inv_call hi (.rolling p t w) hroll) rfl h₁ (Int.le_trans hp hle) hchain hcalls
        refine ⟨d', r', parent', by rw [runCalls, Call.apply, hroll]; exact hrun, hr', ?_⟩
        rwa [List.append_assoc, List.singleton_append] at h'

/-- Along a chain `0 ≤ t0 ≤ t1 ≤ ... ≤ tn` of block times, a run from `NewDevoteProtocol`
whose `Rolling` calls are `Rolling(t(i-1), ti, wi)`, with any other calls in between,
does not panic, and leaves in the rolling trie at `BE8(c) ‖ w` the number of blocks `i`
with `ti / 3600 = c` and `wi = w` modulo `2 ^ 64`, nothing when there is none, and no
key of another form. -/
theorem rolling_counts_blocks (db : Database) (t0 : BitVec 64)
    (blocks : List (BitVec 64 × Address)) (calls : List Call) (ht0 : 0 ≤ t0.toInt)
    (hchain : List.Chain (fun a b : BitVec 64 => a.toInt ≤ b.toInt) t0 (blocks.map Prod.fst))
    (hcalls : calls.filter Call.isRolling = rollingCalls t0 blocks) :
    ∃ d r, runCalls calls (initial db) = some d ∧ d.minerRollingTrie = some r ∧
      (∀ c w, r.tryGet (putUint64 c ++ w.bytes) =
        let n := blocks.countP fun b => b.1.toNat / 3600 = c.toNat ∧ b.2 = w
        if n = 0 then none else some (bigEndian 8 (n % 2 ^ 64))) ∧
      ∀ k x, r.tryGet k = some x → ∃ (c : BitVec 64) (w : Address), k = putUint64 c ++ w.bytes := by
  obtain ⟨d, r, _, hrun, hr, h⟩ :=
    runCalls_counts (inv_initial db) rfl (Counts.empty t0) ht0 hchain hcalls
  exact ⟨d, r, hrun, hr, h.get, h.keys⟩

theorem rolling_counts_two_cycles :
    ∃ d r, runCalls [.rolling 0 3600 Address.zero,
        .register ⟨Address.zero.bytes, Address.zero⟩, .rolling 3600 3700 Address.zero,
        .rolling 3700 7200 Address.zero] (initial ⟨[], []⟩) = some d ∧
      d.minerRollingTrie = some r ∧
      r.tryGet (putUint64 1 ++ Address.zero.bytes) = some (bigEndian 8 2) ∧
      r.tryGet (putUint64 2 ++ Address.zero.bytes) = some (bigEndian 8 1) := by
  obtain ⟨d, r, hrun, hr, hget, -⟩ := rolling_counts_blocks ⟨[], []⟩ 0
    [(3600, Address.zero), (3700, Address.zero), (7200, Address.zero)]
    [.rolling 0 3600 Address.zero, .register ⟨Address.zero.bytes, Address.zero⟩,
      .rolling 3600 3700 Address.zero, .rolling 3700 7200 Address.zero] (by decide)
    (.cons (by decide) (.cons (by decide) (.cons (by decide) .nil))) rfl
  exact ⟨d, r, hrun, hr, by rw [hget]; decide, by rw [hget]; decide⟩

end Devote
