import Devote.Trie

/-!
# The node store under the tries

The six tries share one disk database (`ethdb.Database`), each through a table of
its own prefix (`ethdb.NewTable`) and an in-memory node cache over that table
(`trie.NewDatabase`). A table is modelled by the trie versions whose nodes it holds,
and a cache by the versions committed to it but not yet written out. A disk write
can fail; the disk records which tables fail.
-/

namespace Devote

/-- The errors the manager returns. -/
inductive DevoteError where
  /-- `trie.MissingNodeError`: no trie with this root is stored in the table. -/
  | missingNode (root : Hash)
  /-- An I/O error of a disk write to the table of this prefix. -/
  | writeFailed (table : String)
  /-- An error made by `errors.New`, with its text. -/
  | new (text : String)
  deriving DecidableEq

/-- The disk database `ethdb.Database`, seen through its prefixed tables. -/
structure Database where
  /-- The persisted trie versions, each with the prefix of its table. -/
  tables : List (String × Trie)
  /-- The prefixes of the tables whose writes fail. -/
  failing : List String
  deriving DecidableEq

/-- The persisted trie of table `table` with root `root`. -/
def Database.lookupRoot (db : Database) (table : String) (root : Hash) : Option Trie :=
  (db.tables.find? fun e => e.1 == table && e.2.hash == root).map Prod.snd

/-- `trie.New(root, trie.NewDatabase(ethdb.NewTable(db, table)))`. The zero hash and
`emptyRoot` open the empty trie without a read; any other root is read from the table,
and a read through a nil database panics (`none`). -/
def openTrie (table : String) (root : Hash) (db : Option Database) :
    Option (Except DevoteError Trie) :=
  if root = .zero ∨ root = emptyRoot then some (.ok .empty)
  else db.map fun db =>
    match db.lookupRoot table root with
    | some t => .ok t
    | none => .error (.missingNode root)

/-- A `trie.Database` over the table of prefix `table`: the trie versions committed
to it and not yet written to disk. -/
structure TrieDatabase where
  table : String
  dirties : List Trie
  deriving DecidableEq

/-- `trie.NewDatabase(ethdb.NewTable(db, table))`, holding nothing yet. -/
def TrieDatabase.new (table : String) : TrieDatabase := ⟨table, []⟩

/-- `Trie.CommitTo(triedb)`: the root of `t`, with its nodes stored in the cache. The
empty trie has no node to store. -/
def Trie.commitTo (t : Trie) (triedb : TrieDatabase) : Hash × TrieDatabase :=
  (t.hash, if t.entries = [] then triedb else { triedb with dirties := t :: triedb.dirties })

/-- `Database.Commit(root, false)`: write the cached trie with this root to the disk
table and drop it from the cache. A root with nothing cached writes nothing; a failed
write changes nothing. -/
def TrieDatabase.commit (triedb : TrieDatabase) (root : Hash) (disk : Database) :
    Except DevoteError (TrieDatabase × Database) :=
  match triedb.dirties.find? (·.hash == root) with
  | none => .ok (triedb, disk)
  | some t =>
    if triedb.table ∈ disk.failing then .error (.writeFailed triedb.table)
    else .ok ({ triedb with dirties := triedb.dirties.filter (·.hash != root) },
      { disk with tables := (triedb.table, t) :: disk.tables })

/-! ## Reading back what was written -/

/-- `t` opens from the table `table` of `disk` at its root: it is empty, or the table
holds it. -/
def Stored (table : String) (t : Trie) (disk : Database) : Prop :=
  t = .empty ∨ (table, t) ∈ disk.tables

variable {table : String} {t : Trie} {triedb triedb' : TrieDatabase} {disk disk' : Database}

theorem lookupRoot_of_mem (h : (table, t) ∈ disk.tables) :
    disk.lookupRoot table t.hash = some t := by
  unfold Database.lookupRoot
  cases hf : disk.tables.find? (fun e => e.1 == table && e.2.hash == t.hash) with
  | none => exact absurd (List.find?_eq_none.1 hf _ h) (by simp)
  | some e =>
    have he := List.find?_some hf
    simp only [Bool.and_eq_true, beq_iff_eq] at he
    simp [Trie.hash_injective he.2]

theorem openTrie_of_stored (h : Stored table t disk) :
    openTrie table t.hash (some disk) = some (.ok t) := by
  by_cases he : t = .empty
  · subst he
    simp [openTrie]
  · simp [openTrie, he, lookupRoot_of_mem (h.resolve_left he)]

theorem lookupRoot_hash {root : Hash} (h : disk.lookupRoot table root = some t) :
    t.hash = root := by
  obtain ⟨e, he, rfl⟩ := Option.map_eq_some'.1 h
  have := List.find?_some he
  simp only [Bool.and_eq_true, beq_iff_eq] at this
  exact this.2

/-- A trie that opens at the root of `T` is `T`: the roots are collision-free. -/
theorem openTrie_hash {db : Option Database} {T : Trie}
    (h : openTrie table T.hash db = some (.ok t)) : t = T := by
  unfold openTrie at h
  split_ifs at h with h0
  · cases h
    exact (Trie.hash_eq_emptyRoot.1 (h0.resolve_left (Trie.hash_ne_zero T))).symm
  · obtain ⟨db, -, h⟩ := Option.map_eq_some'.1 h
    split at h
    · cases h
      exact Trie.hash_injective (lookupRoot_hash ‹_›)
    · cases h

theorem Stored.mono (h : Stored table t disk) (hsub : disk.tables ⊆ disk'.tables) :
    Stored table t disk' :=
  h.imp_right (hsub ·)

@[simp] theorem commitTo_fst : (t.commitTo triedb).1 = t.hash := rfl

@[simp] theorem commitTo_table : (t.commitTo triedb).2.table = triedb.table := by
  unfold Trie.commitTo
  split_ifs <;> rfl

/-- Only a table that fails its writes makes a write fail. -/
theorem commit_ne_error {root : Hash} {e : DevoteError} (h : triedb.table ∉ disk.failing) :
    triedb.commit root disk ≠ .error e := by
  unfold TrieDatabase.commit
  split
  · nofun
  · rw [if_neg h]
    nofun

/-- A write keeps what the disk held and which tables fail. -/
theorem commit_disk {root : Hash} (h : triedb.commit root disk = .ok (triedb', disk')) :
    disk.tables ⊆ disk'.tables ∧ disk'.failing = disk.failing := by
  unfold TrieDatabase.commit at h
  split at h
  · cases h
    exact ⟨List.Subset.refl _, rfl⟩
  · split_ifs at h
    cases h
    exact ⟨List.subset_cons_self _ _, rfl⟩

/-- A trie committed to its node cache and written out is stored in its table. -/
theorem commit_stored (h : (t.commitTo triedb).2.commit t.hash disk = .ok (triedb', disk')) :
    Stored triedb.table t disk' := by
  by_cases he : t = .empty
  · exact .inl he
  · have hne : t.entries ≠ [] := fun h => he (Trie.ext_tryGet fun k => by simp [Trie.tryGet, h])
    simp only [Trie.commitTo, hne, if_false, TrieDatabase.commit, List.find?_cons,
      beq_self_eq_true] at h
    split_ifs at h
    cases h
    exact .inr (List.mem_cons_self _ _)

end Devote
