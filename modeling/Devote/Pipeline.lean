import Devote.Rolling
import Devote.Witnesses

/-!
# Runs of the block pipeline

From `NewDevoteProtocol`, every finite sequence of the pipeline's calls runs to its end
without a panic: every call other than `Rolling` returns on an indexed manager, and the
rolling trie only ever holds eight-byte counters. The cycle trie is written only by
`SetWitnesses`, so `GetWitnesses` after a run returns the list of the run's last
`SetWitnesses` call, and fails with the decoder's `EOF` when there was none.
-/

namespace Devote

open DevoteProtocol

/-- From a reachable manager every call returns. -/
theorem apply_isSome {d : DevoteProtocol} (h : Reachable d) (call : Call) :
    ∃ d', call.apply d = some d' := by
  cases hrol : call.isRolling with
  | false =>
    obtain ⟨d', h', -⟩ := apply_frame (inv_of_reachable h) call hrol
    exact ⟨d', h'⟩
  | true =>
    obtain ⟨p, t, w, rfl⟩ := Call.eq_rolling_of_isRolling hrol
    obtain ⟨T, hT, h8⟩ := reachable_counts_are_words h
    exact ⟨_, rolling_eq_directCnt hT h8 p t w⟩

theorem runCalls_isSome {d : DevoteProtocol} (h : Reachable d) (calls : List Call) :
    ∃ d', runCalls calls d = some d' ∧ Reachable d' := by
  induction calls generalizing d with
  | nil => exact ⟨d, rfl, h⟩
  | cons call calls ih =>
    obtain ⟨d₁, h₁⟩ := apply_isSome h call
    obtain ⟨d', h', hr⟩ := ih (h.call call h₁)
    exact ⟨d', by rw [runCalls, h₁]; exact h', hr⟩

/-- No finite sequence of the pipeline's calls from `NewDevoteProtocol` panics, for every
argument a `Call` can hold: any non-nil masternode record, addresses, `int64` block times and
`[]common.Address` list. -/
theorem runCalls_never_panics (db : Database) (calls : List Call) :
    ∃ d, runCalls calls (initial db) = some d :=
  (runCalls_isSome (.new (newDevoteProtocol_eq db)) calls).imp fun _ h => h.1

/-! ## The witness list along a run -/

/-- The list of the last `SetWitnesses` call among `calls`. -/
def lastWitnesses : List Call → Option (List Address)
  | [] => none
  | .setWitnesses ws :: calls => some ((lastWitnesses calls).getD ws)
  | _ :: calls => lastWitnesses calls

theorem mem_of_lastWitnesses {calls : List Call} {ws : List Address}
    (h : lastWitnesses calls = some ws) : Call.setWitnesses ws ∈ calls := by
  induction calls with
  | nil => cases h
  | cons call calls ih =>
    cases call with
    | setWitnesses ws' =>
      rw [lastWitnesses, Option.some.injEq] at h
      cases hl : lastWitnesses calls with
      | none => rw [hl, Option.getD_none] at h; exact h ▸ List.mem_cons_self _ _
      | some ws'' => rw [hl, Option.getD_some] at h; exact List.mem_cons_of_mem _ (ih (h ▸ hl))
    | _ => exact List.mem_cons_of_mem _ (ih h)

/-- Along a run from a reachable manager, the `witness` key of the cycle trie holds the
encoding of the last list set, or what it held before when no list was set. -/
theorem runCalls_witnessKey {calls : List Call} {d d' : DevoteProtocol} {c : Trie}
    (h : Reachable d) (hc : d.cycleTrie = some c) (hrun : runCalls calls d = some d') :
    ∃ c', d'.cycleTrie = some c' ∧ c'.tryGet witnessKey =
      ((lastWitnesses calls).map Rlp.encodeToBytes).or (c.tryGet witnessKey) := by
  induction calls generalizing d c with
  | nil => exact ⟨c, by cases hrun; exact hc, by simp [lastWitnesses]⟩
  | cons call calls ih =>
    obtain ⟨d₁, h₁, hrun'⟩ := Option.bind_eq_some.1 hrun
    have hr₁ := h.call call h₁
    cases hrol : call.isRolling with
    | true =>
      obtain ⟨p, t, w, rfl⟩ := Call.eq_rolling_of_isRolling hrol
      obtain ⟨T, hT, h8⟩ := reachable_counts_are_words h
      rw [Call.apply, rolling_eq_directCnt hT h8, Option.some.injEq] at h₁
      subst h₁
      exact ih hr₁ hc hrun'
    | false =>
      obtain ⟨d₂, h₂, -, hcy⟩ := apply_frame (inv_of_reachable h) call hrol
      obtain rfl := Option.some.inj (h₂.symm.trans h₁)
      cases call with
      | setWitnesses ws =>
        rw [Call.apply, setWitnesses_eq hc] at h₁
        cases h₁
        obtain ⟨c', hc', hget⟩ := ih hr₁ rfl hrun'
        refine ⟨c', hc', ?_⟩
        rw [hget, Trie.tryGet_tryUpdate _ _ _ (Rlp.encodeToBytes_ne_nil ws), if_pos rfl,
          lastWitnesses]
        cases lastWitnesses calls <;> rfl
      | _ => exact ih hr₁ (hcy (fun _ => nofun) ▸ hc) hrun'

/-- After every run of the pipeline's calls from `NewDevoteProtocol`, `GetWitnesses`
returns the list of the run's last `SetWitnesses` call with a nil error, and fails with
`EOF` when no call set a list. -/
theorem runCalls_getWitnesses (db : Database) (calls : List Call)
    (hlen : ∀ ws, Call.setWitnesses ws ∈ calls → 21 * ws.length < 2 ^ 64) :
    ∃ d, runCalls calls (initial db) = some d ∧
      d.getWitnesses = some (match lastWitnesses calls with
        | some ws => .ok ws
        | none => .error (.new "failed to decode witnesses: EOF")) := by
  obtain ⟨d, hrun, -⟩ := runCalls_isSome (.new (newDevoteProtocol_eq db)) calls
  obtain ⟨c', hc', hget⟩ := runCalls_witnessKey (.new (newDevoteProtocol_eq db)) rfl hrun
  refine ⟨d, hrun, ?_⟩
  cases hl : lastWitnesses calls with
  | none => rw [hl, Trie.tryGet_empty] at hget; exact getWitnesses_missing hc' hget
  | some ws =>
    rw [hl] at hget
    rw [getWitnesses_eq hc', hget]
    simp only [Option.map_some', Option.or_some, Option.getD_some,
      Rlp.decodeBytes_encodeToBytes ws (hlen ws (mem_of_lastWitnesses hl))]

theorem runCalls_getWitnesses_two :
    (∀ ws, Call.setWitnesses ws ∈
        [.setWitnesses [Address.zero], .rolling 0 0 Address.zero, .setWitnesses []] →
      21 * ws.length < 2 ^ 64) ∧
    ∃ d, runCalls [.setWitnesses [Address.zero], .rolling 0 0 Address.zero, .setWitnesses []]
        (initial ⟨[], []⟩) = some d ∧ d.getWitnesses = some (.ok []) :=
  have hlen : ∀ ws, Call.setWitnesses ws ∈
      [.setWitnesses [Address.zero], .rolling 0 0 Address.zero, .setWitnesses []] →
      21 * ws.length < 2 ^ 64 := fun ws hws => by
    simp only [List.mem_cons, Call.setWitnesses.injEq, List.mem_singleton, reduceCtorEq,
      false_or, List.not_mem_nil, or_false] at hws
    rcases hws with rfl | rfl <;> decide
  ⟨hlen, runCalls_getWitnesses ⟨[], []⟩ _ hlen⟩

end Devote
