import Devote.Calls

/-!
# The witness list

`SetWitnesses` stores the RLP encoding of the list under the `witness` key of the cycle
trie and touches nothing else; `GetWitnesses` decodes what that key holds. So the list
reads back in order from every manager whose cycle trie is loaded, for every list whose
encoding a Go slice can hold; before any list is stored, `GetWitnesses` fails with the
decoder's `EOF`.
-/

namespace Devote

open DevoteProtocol

variable {d : DevoteProtocol} {c : Trie}

namespace DevoteProtocol

theorem getWitnesses_eq (hc : d.cycleTrie = some c) :
    d.getWitnesses = some (match Rlp.decodeBytes ((c.tryGet witnessKey).getD []) with
      | .error err => .error (.new ("failed to decode witnesses: " ++ err.text))
      | .ok witnesses => .ok witnesses) := by
  simp only [getWitnesses, hc]
  rfl

/-- With no list stored, `GetWitnesses` fails: the empty input is `io.EOF`. -/
theorem getWitnesses_missing (hc : d.cycleTrie = some c) (hk : c.tryGet witnessKey = none) :
    d.getWitnesses = some (.error (.new "failed to decode witnesses: EOF")) := by
  rw [getWitnesses_eq hc, hk]
  rfl

end DevoteProtocol

/-- On a manager whose cycle trie is loaded, `SetWitnesses(ws)` returns nil and changes the
cycle trie only at the `witness` key, and no other field; `GetWitnesses()` then returns
`ws` with a nil error. The list's encoded payload, 21 bytes an address, must fit the
`uint64` size of the RLP header, as every list does whose encoding is a Go slice. -/
theorem setWitnesses_then_getWitnesses (hc : d.cycleTrie = some c) (witnesses : List Address)
    (hlen : 21 * witnesses.length < 2 ^ 64) :
    ∃ c', d.setWitnesses witnesses = some (.ok { d with cycleTrie := some c' }) ∧
      (∀ k, k ≠ witnessKey → c'.tryGet k = c.tryGet k) ∧
      DevoteProtocol.getWitnesses { d with cycleTrie := some c' } = some (.ok witnesses) := by
  have hne := Rlp.encodeToBytes_ne_nil witnesses
  refine ⟨_, setWitnesses_eq hc witnesses, fun k hk => by simp [hne, hk], ?_⟩
  rw [getWitnesses_eq rfl, Trie.tryGet_tryUpdate _ _ _ hne, if_pos rfl, Option.getD_some,
    Rlp.decodeBytes_encodeToBytes witnesses hlen]

theorem setWitnesses_then_getWitnesses_three :
    (initial ⟨[], []⟩).cycleTrie = some .empty ∧
      21 * [Address.zero, Address.zero, Address.zero].length < 2 ^ 64 ∧
      ∃ c', (initial ⟨[], []⟩).setWitnesses [Address.zero, Address.zero, Address.zero] =
          some (.ok { initial ⟨[], []⟩ with cycleTrie := some c' }) ∧
        (∀ k, k ≠ witnessKey → c'.tryGet k = Trie.empty.tryGet k) ∧
        DevoteProtocol.getWitnesses { initial ⟨[], []⟩ with cycleTrie := some c' } =
          some (.ok [Address.zero, Address.zero, Address.zero]) :=
  ⟨rfl, by decide, setWitnesses_then_getWitnesses rfl _ (by decide)⟩

end Devote
