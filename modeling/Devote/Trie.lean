import Devote.Bytes
import Mathlib.Data.List.Sort

/-!
# Tries seen through their contents

The consensus state keeps six Merkle Patricia tries (`trie.Trie`). The trie engine
itself is outside this development: a trie is modelled by its key-value contents,
kept strictly sorted by key, with no empty value (`TryUpdate` with an empty value
deletes). Nodes are persistent in the engine, so a trie value never changes under a
holder of an older copy. Digests are symbolic, which makes Keccak-256 collision-free.
-/

namespace Devote

/-- A Keccak-256 digest `common.Hash`, kept symbolic: a digest is the term it was
computed from, so two digests are equal only when their inputs are. -/
inductive Hash where
  /-- `common.Hash{}`, the all-zero hash. -/
  | zero
  /-- The root hash of a trie holding exactly these entries. -/
  | trieRoot (entries : List (Bytes × Bytes))
  /-- Keccak-256 of the RLP encodings of `hashes`, written one after another. -/
  | rlpHash (hashes : List Hash)

mutual

/-- Equality of digests is decidable, by structural recursion on both terms. -/
def Hash.decEq : (a b : Hash) → Decidable (a = b)
  | .zero, .zero => isTrue rfl
  | .trieRoot a, .trieRoot b =>
    if h : a = b then isTrue (h ▸ rfl) else isFalse fun e => h (Hash.trieRoot.inj e)
  | .rlpHash a, .rlpHash b =>
    match Hash.decEqList a b with
    | isTrue h => isTrue (h ▸ rfl)
    | isFalse h => isFalse fun e => h (Hash.rlpHash.inj e)
  | .zero, .trieRoot _ | .zero, .rlpHash _ | .trieRoot _, .zero | .trieRoot _, .rlpHash _
  | .rlpHash _, .zero | .rlpHash _, .trieRoot _ => isFalse nofun

/-- Equality of lists of digests, alongside `Hash.decEq`. -/
def Hash.decEqList : (a b : List Hash) → Decidable (a = b)
  | [], [] => isTrue rfl
  | a :: as, b :: bs =>
    match Hash.decEq a b, Hash.decEqList as bs with
    | isTrue h, isTrue hs => isTrue (h ▸ hs ▸ rfl)
    | isFalse h, _ => isFalse fun e => h (List.cons.inj e).1
    | _, isFalse hs => isFalse fun e => hs (List.cons.inj e).2
  | [], _ :: _ | _ :: _, [] => isFalse nofun

end

instance : DecidableEq Hash := Hash.decEq

/-- `emptyRoot`, the root hash of the empty trie. -/
def emptyRoot : Hash := .trieRoot []

/-! ## Sorted association lists -/

section Lookup

variable {k k' : Bytes} {v : Bytes} {l : List (Bytes × Bytes)}

theorem lookup_cons_eq (k k' v : Bytes) (l : List (Bytes × Bytes)) :
    ((k, v) :: l).lookup k' = if k' = k then some v else l.lookup k' := by
  by_cases h : k' = k
  · simp [h]
  · rw [List.lookup_cons, show (k' == k) = false by simpa using h, if_neg h]

/-- A key below every key of the list is absent from it. -/
theorem lookup_eq_none_of_lt (h : ∀ e ∈ l, Bytes.lt k e.1) : l.lookup k = none := by
  induction l with
  | nil => rfl
  | cons e l ih =>
    have hk : k ≠ e.1 := fun he => by simpa [he, Bytes.lt_irrefl] using h e (.head _)
    rw [lookup_cons_eq, if_neg hk, ih fun e' he' => h e' (.tail _ he')]

/-- In a key-sorted list, membership is lookup. -/
theorem mem_iff_lookup (hs : l.Pairwise fun a b => Bytes.lt a.1 b.1) {e : Bytes × Bytes} :
    e ∈ l ↔ l.lookup e.1 = some e.2 := by
  induction l with
  | nil => simp
  | cons a l ih =>
    rw [List.pairwise_cons] at hs
    rw [List.mem_cons, lookup_cons_eq, ih hs.2]
    by_cases hk : e.1 = a.1
    · have hn : l.lookup e.1 = none := lookup_eq_none_of_lt (hk ▸ hs.1)
      simp only [hk, if_true, hn, Option.some.injEq]
      constructor
      · rintro (rfl | h) <;> simp_all
      · intro h; exact .inl (Prod.ext hk h.symm)
    · simp only [hk, if_false, or_iff_right_iff_imp]
      rintro rfl; exact absurd rfl hk

/-- Insert or overwrite a key of a key-sorted list. -/
def insertSorted (key value : Bytes) : List (Bytes × Bytes) → List (Bytes × Bytes)
  | [] => [(key, value)]
  | (k, v) :: rest =>
    if Bytes.lt key k then (key, value) :: (k, v) :: rest
    else if key = k then (key, value) :: rest
    else (k, v) :: insertSorted key value rest

theorem lookup_insertSorted (key value k' : Bytes) (l : List (Bytes × Bytes)) :
    (insertSorted key value l).lookup k' = if k' = key then some value else l.lookup k' := by
  induction l with
  | nil => simp [insertSorted, lookup_cons_eq]
  | cons e l ih =>
    obtain ⟨k, v⟩ := e
    simp only [insertSorted]
    split_ifs with h1 h2 h3 <;> simp_all [lookup_cons_eq]

theorem mem_insertSorted {key value : Bytes} {e : Bytes × Bytes} {l : List (Bytes × Bytes)}
    (h : e ∈ insertSorted key value l) : e = (key, value) ∨ e ∈ l := by
  induction l with
  | nil => simpa [insertSorted] using h
  | cons a l ih =>
    obtain ⟨k, v⟩ := a
    simp only [insertSorted] at h
    split_ifs at h <;> simp only [List.mem_cons] at h ⊢ <;> aesop

theorem pairwise_insertSorted (key value : Bytes) {l : List (Bytes × Bytes)}
    (hs : l.Pairwise fun a b => Bytes.lt a.1 b.1) :
    (insertSorted key value l).Pairwise fun a b => Bytes.lt a.1 b.1 := by
  induction l with
  | nil => simp [insertSorted]
  | cons a l ih =>
    obtain ⟨k, v⟩ := a
    rw [List.pairwise_cons] at hs
    simp only [insertSorted]
    split_ifs with h1 h2
    · exact .cons (fun e he => by
        rcases List.mem_cons.1 he with rfl | he
        · exact h1
        · exact Bytes.lt_trans h1 (hs.1 e he)) (.cons hs.1 hs.2)
    · subst h2; exact .cons hs.1 hs.2
    · have hk : Bytes.lt k key := (Bytes.lt_or_lt_of_ne h2).resolve_left (by simpa using h1)
      refine .cons (fun e he => ?_) (ih hs.2)
      rcases mem_insertSorted he with rfl | he
      · exact hk
      · exact hs.1 e he

end Lookup

/-! ## Tries -/

/-- The contents of a trie: entries strictly sorted by key, none with an empty value. -/
structure Trie where
  entries : List (Bytes × Bytes)
  sorted : entries.Pairwise fun a b => Bytes.lt a.1 b.1
  nonempty : ∀ e ∈ entries, e.2 ≠ []
  deriving DecidableEq

namespace Trie

/-- The trie `trie.New` opens at the zero hash or at `emptyRoot`. -/
def empty : Trie := ⟨[], .nil, by simp⟩

/-- `Trie.TryGet`, also `Trie.Get`: the value at `key`, `none` being Go's nil slice. -/
def tryGet (t : Trie) (key : Bytes) : Option Bytes := t.entries.lookup key

/-- `Trie.TryDelete`, also `Trie.Delete`; deleting a missing key is not an error. -/
def tryDelete (t : Trie) (key : Bytes) : Trie :=
  ⟨t.entries.filter (·.1 != key), t.sorted.filter _,
    fun e he => t.nonempty e (List.mem_filter.1 he).1⟩

/-- `Trie.TryUpdate`, also `Trie.Update`: an empty value deletes the key. -/
def tryUpdate (t : Trie) (key value : Bytes) : Trie :=
  if h : value = [] then t.tryDelete key
  else ⟨insertSorted key value t.entries, pairwise_insertSorted key value t.sorted,
    fun e he => (mem_insertSorted he).elim (fun he => he ▸ h) (t.nonempty e)⟩

/-- `trie.NewIterator(t.NodeIterator(start))`: the entries whose key is at least
`start`, in key order. The iterator of the trie package also yields a key that is a proper
prefix of `start`, and yields a key after the keys that extend it. No trie that a call
iterates holds such keys: every key of the cache trie is 40 bytes long and every key of the
rolling trie 28, against starts of 20 and 8 bytes, so no key is a prefix of another or of the
start. -/
def nodeIterator (t : Trie) (start : Bytes) : List (Bytes × Bytes) :=
  t.entries.filter fun e => !Bytes.lt e.1 start

/-- `Trie.Hash`, the root hash of the contents. -/
def hash (t : Trie) : Hash := .trieRoot t.entries

/-- The entries satisfying `p`; a specification device, not a trie operation. -/
def filter (t : Trie) (p : Bytes → Bytes → Bool) : Trie :=
  ⟨t.entries.filter (fun e => p e.1 e.2), t.sorted.filter _,
    fun e he => t.nonempty e (List.mem_filter.1 he).1⟩

variable {t t' : Trie} {k k' v : Bytes}

@[simp] theorem tryGet_empty (k : Bytes) : empty.tryGet k = none := rfl

@[simp] theorem entries_empty : empty.entries = [] := rfl

theorem mem_entries : (k, v) ∈ t.entries ↔ t.tryGet k = some v :=
  mem_iff_lookup t.sorted

@[simp] theorem tryGet_tryDelete (t : Trie) (k k' : Bytes) :
    (t.tryDelete k).tryGet k' = if k' = k then none else t.tryGet k' := by
  simp only [tryDelete, tryGet]
  induction t.entries with
  | nil => simp
  | cons e l ih =>
    obtain ⟨k₀, v₀⟩ := e
    by_cases h : k₀ = k
    · subst h
      simp only [List.filter_cons, bne_self_eq_false, Bool.false_eq_true, if_false, ih,
        lookup_cons_eq]
      split_ifs <;> rfl
    · simp only [List.filter_cons, bne_iff_ne, ne_eq, h, not_false_eq_true, if_true,
        lookup_cons_eq, ih]
      split_ifs <;> simp_all

@[simp] theorem tryGet_tryUpdate (t : Trie) (k k' : Bytes) {v : Bytes} (hv : v ≠ []) :
    (t.tryUpdate k v).tryGet k' = if k' = k then some v else t.tryGet k' := by
  simp only [tryUpdate, hv, dite_false, tryGet]
  exact lookup_insertSorted k v k' t.entries

@[simp] theorem tryGet_filter (t : Trie) (p : Bytes → Bytes → Bool) (k : Bytes) :
    (t.filter p).tryGet k = (t.tryGet k).filter (p k) := by
  cases h : (t.filter p).tryGet k with
  | none =>
    cases h' : t.tryGet k with
    | none => rfl
    | some v =>
      have hm := mem_entries.2 h'
      by_cases hp : p k v
      · have : (k, v) ∈ (t.filter p).entries := List.mem_filter.2 ⟨hm, hp⟩
        simp [mem_entries.1 this] at h
      · simp [Option.filter, hp]
  | some v =>
    have hm := List.mem_filter.1 (mem_entries.2 h)
    simp [mem_entries.1 hm.1, Option.filter, hm.2]

/-- Two tries with the same contents are equal: the sorted representation is canonical. -/
theorem ext_tryGet (h : ∀ k, t.tryGet k = t'.tryGet k) : t = t' := by
  obtain ⟨l, hs, hn⟩ := t
  obtain ⟨l', hs', hn'⟩ := t'
  have hnodup : ∀ {l : List (Bytes × Bytes)}, l.Pairwise (fun a b => Bytes.lt a.1 b.1) → l.Nodup :=
    fun hs => hs.imp fun hab he => by simp [he, Bytes.lt_irrefl] at hab
  have : IsAntisymm (Bytes × Bytes) fun a b => Bytes.lt a.1 b.1 :=
    ⟨fun a b hab hba => absurd (Bytes.lt_trans hab hba) (by simp [Bytes.lt_irrefl])⟩
  have hperm : l.Perm l' := (List.perm_ext_iff_of_nodup (hnodup hs) (hnodup hs')).2 fun e => by
    rw [mem_iff_lookup hs, mem_iff_lookup hs']
    exact Eq.congr_left (h e.1)
  obtain rfl := List.eq_of_perm_of_sorted hperm hs hs'
  rfl

theorem tryDelete_of_tryGet_eq_none (h : t.tryGet k = none) : t.tryDelete k = t :=
  ext_tryGet fun k' => by by_cases hk : k' = k <;> simp [hk, h]

@[simp] theorem tryDelete_empty (k : Bytes) : empty.tryDelete k = empty :=
  tryDelete_of_tryGet_eq_none rfl

theorem filter_filter_self (t : Trie) (p : Bytes → Bytes → Bool) :
    (t.filter p).filter p = t.filter p :=
  ext_tryGet fun k => by
    cases h : t.tryGet k with
    | none => simp [h]
    | some v => by_cases hp : p k v <;> simp [h, hp, Option.filter_some]

theorem tryDelete_tryDelete (t : Trie) (k : Bytes) : (t.tryDelete k).tryDelete k = t.tryDelete k :=
  tryDelete_of_tryGet_eq_none (by simp)

theorem tryDelete_tryUpdate (t : Trie) (k : Bytes) {v : Bytes} (hv : v ≠ []) :
    (t.tryUpdate k v).tryDelete k = t.tryDelete k :=
  ext_tryGet fun k' => by by_cases hk : k' = k <;> simp [hk, hv]

theorem tryUpdate_tryDelete (t : Trie) (k : Bytes) {v : Bytes} (hv : v ≠ []) :
    (t.tryDelete k).tryUpdate k v = t.tryUpdate k v :=
  ext_tryGet fun k' => by by_cases hk : k' = k <;> simp [hk, hv]

theorem mem_nodeIterator {start : Bytes} {e : Bytes × Bytes} :
    e ∈ t.nodeIterator start ↔ t.tryGet e.1 = some e.2 ∧ Bytes.lt e.1 start = false := by
  simp [nodeIterator, List.mem_filter, ← mem_entries]

/-- A stored key that extends `start` lies at or after it, so the iterator from `start`
yields an entry. -/
theorem nodeIterator_ne_nil_of_tryGet {start x v : Bytes} (h : t.tryGet (start ++ x) = some v) :
    t.nodeIterator start ≠ [] :=
  List.ne_nil_of_mem (mem_nodeIterator (e := (start ++ x, v)) |>.2 ⟨h, Bytes.append_lt_self _ _⟩)

theorem hash_injective (h : t.hash = t'.hash) : t = t' := by
  cases t; cases t'
  simp only [hash, Hash.trieRoot.injEq] at h
  subst h; rfl

@[simp] theorem hash_ne_zero (t : Trie) : t.hash ≠ .zero := nofun

@[simp] theorem hash_eq_emptyRoot : t.hash = emptyRoot ↔ t = empty :=
  ⟨fun h => hash_injective h, fun h => h ▸ rfl⟩

end Trie

end Devote
