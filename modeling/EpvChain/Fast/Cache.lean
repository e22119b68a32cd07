import EpvChain.Fast.Walk

/-!
# Cached hashes never go stale (`fast/trie.go`, `fast/hasher.go`)

A trie caches a hash in every node the hasher stored, and the hasher answers from that cache.
Along every run of calls on a trie opened over a database, the cache answers what hashing from
scratch would:

* `Fresh` — a well-formed root whose cached hashes fit (`CachesHold`), over a database holding
  collapsed well-formed nodes under their hashes (`StoredNode`); `Fresh.step` keeps it.
* `hashRoot_fst_eq` — the hasher's root reference is fixed by the root's collapsed form,
  whatever the database or cache (`sameRef_clear`).
* `hash_commit_fresh` — for every reachable trie, `Hash` returns a root, the trie with its cache
  cleared hashes to it, and `Commit` returns it too.

The run starts from `New` over a database of node encodings under their hashes, with a hash
keeping encodings below 32 bytes apart from longer ones (`SizeSeparating`); otherwise the
database can hand the trie a node under another node's hash.
-/

namespace EpvChain.Trie

open Rlp

/-! ### The calls on a trie -/

section Keccak

variable (keccak : List UInt8 → Hash)

/-- One call on a trie that succeeds, and the trie after it. An update's value is a Go slice,
shorter than `2 ^ 63`. -/
inductive Step : Trie → Trie → Prop where
  | tryGet {t t' : Trie} {fuel : Nat} {key : List UInt8} {value : Option (List UInt8)} :
      t.TryGet fuel key = .ok (value, t') → Step t t'
  | tryUpdate {t t' : Trie} {fuel : Nat} {key value : List UInt8} :
      value.length < 2 ^ 63 → t.TryUpdate fuel key value = .ok t' → Step t t'
  | tryDelete {t t' : Trie} {fuel : Nat} {key : List UInt8} :
      t.TryDelete fuel key = .ok t' → Step t t'
  | hash {t t' : Trie} {root : Hash} : t.hash keccak = some (root, t') → Step t t'
  | commit {t t' : Trie} {root : Hash} : t.commit keccak = some (root, t') → Step t t'
  | setCacheLimit (t : Trie) (l : UInt16) : Step t (t.setCacheLimit l)

/-- The tries a run of calls reaches from one that `New` opened over `db`. -/
inductive Reachable (db : Database) : Trie → Prop where
  | new {root : Hash} {t : Trie} : Trie.new root db = .ok t → Reachable db t
  | step {t t' : Trie} : Reachable db t → Step keccak t t' → Reachable db t'

/-- What every reachable trie keeps: a well-formed root whose cached hashes fit, over a
database that holds node encodings under their hashes. -/
structure Fresh (t : Trie) : Prop where
  wf : t.root.WellFormed
  holds : CachesHold keccak true t.root
  db : BlobsHold (StoredNode keccak) (some t.db)

variable {keccak}

/-! ### The root reference -/

/-- A node with its cached hashes cleared is one its parent cannot tell from it. -/
theorem sameRef_clear (n : Node) (force : Bool) : SameRef keccak force n.clear n where
  stored := by rw [collapsed_clear, storedValue_clear]
  empty := isEmpty_clear n
  value w := clear_eq_value_iff n w

/-- The root reference `hashRoot` gives is always a hash node: the empty root, or the root
hashed by force. -/
theorem hashRoot_isHash (t : Trie) (db : Option Database) :
    ∃ y, (t.hashRoot keccak db).1 = .hash y := by
  unfold Trie.hashRoot
  split
  · exact ⟨emptyRoot, rfl⟩
  · rename_i he
    exact hash_force_isHash keccak _ (Bool.eq_false_iff.mpr he) db

/-- Two hash nodes of one value are one hash. -/
theorem hash_eq_of_toValue {x y : Hash} (h : (Node.hash x).toValue = (Node.hash y).toValue) :
    x = y := by
  simp only [Node.toValue, Value.bytes.injEq] at h
  rw [← bytesToHash_toBytes x, h, bytesToHash_toBytes]

/-- Two roots with fitting hashes that a parent cannot tell apart get one root reference, with
any database and any hasher. -/
theorem hashRoot_fst_eq {t u : Trie} (hct : CachesHold keccak true t.root)
    (hcu : CachesHold keccak true u.root) (hsame : SameRef keccak true t.root u.root)
    (dt du : Option Database) : (t.hashRoot keccak dt).1 = (u.hashRoot keccak du).1 := by
  obtain ⟨y, hy⟩ := hashRoot_isHash t dt
  obtain ⟨y', hy'⟩ := hashRoot_isHash u du
  rw [hy, hy']
  by_cases he : t.root.isEmpty
  · have he' : u.root.isEmpty := hsame.empty ▸ he
    simp only [Trie.hashRoot, he, he', if_true] at hy hy'
    rw [← hy, ← hy']
  · have he' : u.root.isEmpty = false := by rw [← hsame.empty]; simpa using he
    simp only [Trie.hashRoot, he, he', if_false, Bool.false_eq_true] at hy hy'
    -- both references are what the hasher computes from scratch, by force
    have ht := (hash_ref keccak ⟨t.cachegen, t.cachelimit⟩ t.root dt true hct).ref_eq
    have hu := (hash_ref keccak ⟨u.cachegen, u.cachelimit⟩ u.root du true hcu).ref_eq
    rw [hy] at ht
    rw [hy'] at hu
    rw [hash_eq_of_toValue (ht.trans (hsame.stored.trans hu.symm))]

/-- The root `Hash` returns is that of `hashRoot` without a database. -/
theorem hash_fst (t : Trie) :
    (t.hash keccak).map Prod.fst = (t.hashRoot keccak none).1.asHash := by
  simp only [Trie.hash, Option.map_map]
  cases (t.hashRoot keccak none).1.asHash <;> rfl

/-- The root `Commit` returns is that of `hashRoot` into the trie's database. -/
theorem commit_fst (t : Trie) :
    (t.commit keccak).map Prod.fst = (t.hashRoot keccak (some t.db)).1.asHash := by
  simp only [Trie.commit, Option.map_map]
  cases (t.hashRoot keccak (some t.db)).1.asHash <;> rfl

/-! ### Each call keeps the trie fresh -/

/-- The root the hasher keeps is well-formed with fitting hashes. -/
theorem hashRoot_holds {t : Trie} (hf : Fresh keccak t) (db : Option Database) :
    (t.hashRoot keccak db).2.1.WellFormed ∧ CachesHold keccak true (t.hashRoot keccak db).2.1 := by
  unfold Trie.hashRoot
  split
  · exact ⟨trivial, trivial⟩
  · exact ⟨hash_wellFormed keccak _ t.root db true hf.wf hf.holds,
      (hash_ref keccak _ t.root db true hf.holds).holds⟩

/-- A commit's database holds what it held, and the collapsed forms it stored under their
hashes. -/
theorem hashRoot_stores {t : Trie} (hf : Fresh keccak t) :
    BlobsHold (StoredNode keccak) (some ((t.hashRoot keccak (some t.db)).2.2.getD t.db)) := by
  have hgood : ∀ (m : Node) (force : Bool), m.isEmpty = false → m.asHash = none →
      m.WellFormed → CachesHold keccak force m →
      StoredNode keccak (keccak (m.collapsed keccak).encode) (m.collapsed keccak).encode :=
    fun m _ _ _ hwf hc => .inr ⟨m, hwf, childrenHold_of_cachesHold hc, rfl, rfl⟩
  have hs : BlobsHold (StoredNode keccak) (t.hashRoot keccak (some t.db)).2.2 := by
    unfold Trie.hashRoot
    split
    · exact hf.db
    · exact hash_stores keccak _ _ hgood t.root (some t.db) true hf.wf hf.holds hf.db
  cases hd : (t.hashRoot keccak (some t.db)).2.2 with
  | none =>
    rw [Option.getD_none]
    exact hf.db
  | some d =>
    rw [hd] at hs
    rw [Option.getD_some]
    exact hs

/-- `Hash` keeps a trie fresh. -/
theorem Fresh.hash {t t' : Trie} (hf : Fresh keccak t) {root : Hash}
    (h : t.hash keccak = some (root, t')) : Fresh keccak t' := by
  obtain ⟨y, -, hy⟩ := Option.map_eq_some_iff.mp h
  cases hy
  exact ⟨(hashRoot_holds hf none).1, (hashRoot_holds hf none).2, hf.db⟩

/-- `Commit` keeps a trie fresh. -/
theorem Fresh.commit {t t' : Trie} (hf : Fresh keccak t) {root : Hash}
    (h : t.commit keccak = some (root, t')) : Fresh keccak t' := by
  obtain ⟨y, -, hy⟩ := Option.map_eq_some_iff.mp h
  cases hy
  exact ⟨(hashRoot_holds hf _).1, (hashRoot_holds hf _).2, hashRoot_stores hf⟩

section Walks

variable (hsep : SizeSeparating keccak)
include hsep

/-- A trie opened on a database of stored nodes is fresh. -/
theorem fresh_new {db : Database} (hdb : BlobsHold (StoredNode keccak) (some db)) {root : Hash}
    {t : Trie} (h : Trie.new root db = .ok t) : Fresh keccak t := by
  unfold Trie.new at h
  split at h
  · -- the root is read from the database under the root hash
    obtain ⟨n, hres, rfl⟩ := map_eq_ok h
    obtain ⟨hwf, hc, -, -⟩ :=
      resolveHash_holds hsep hdb hres (show CachesHold keccak true (.hash root) from trivial)
    exact ⟨hwf, hc, hdb⟩
  · cases h
    exact ⟨trivial, trivial, hdb⟩

/-- `TryGet` keeps a trie fresh. -/
theorem Fresh.tryGet {t t' : Trie} (hf : Fresh keccak t) {fuel : Nat} {key : List UInt8}
    {value : Option (List UInt8)} (h : t.TryGet fuel key = .ok (value, t')) : Fresh keccak t' := by
  unfold Trie.TryGet at h
  split at h
  · cases h
  · rename_i k _
    split at h
    · cases h
    · rename_i value' newroot didResolve hrec
      cases h
      split
      · obtain ⟨hwf, hc, -⟩ := tryGet_holds hsep hf.db fuel t.root k 0 true hf.wf hf.holds hrec
        exact ⟨hwf, hc, hf.db⟩
      · exact hf

/-- `TryUpdate` of a value of fewer than `2^63` bytes keeps a trie fresh. -/
theorem Fresh.tryUpdate {t t' : Trie} (hf : Fresh keccak t) {fuel : Nat} {key value : List UInt8}
    (hval : value.length < 2 ^ 63) (h : t.TryUpdate fuel key value = .ok t') : Fresh keccak t' := by
  unfold Trie.TryUpdate at h
  split at h
  · cases h
  · rename_i k hk
    obtain ⟨hhex, hterm, hlen⟩ := hexKey_ok hk
    split at h
    · -- the hex key is terminated, and the value it leads to is a value
      obtain ⟨⟨_, n⟩, hrec, rfl⟩ := map_eq_ok h
      have hfits : KeyFits keccak k (.value value) :=
        ⟨hhex, hlen, fun _ => ⟨fun _ => ⟨value, rfl⟩, fun _ => hterm⟩, hval, trivial⟩
      have hn := insert_holds hsep hf.db fuel t.root [] k (.value value) true hf.wf hf.holds hfits hrec
      exact ⟨hn.wf, hn.holds, hf.db⟩
    · obtain ⟨⟨_, n⟩, hrec, rfl⟩ := map_eq_ok h
      have hn := delete_holds hsep hf.db fuel t.root [] k true hf.wf hf.holds hhex hrec
      exact ⟨hn.wf, hn.holds, hf.db⟩

/-- `TryDelete` keeps a trie fresh. -/
theorem Fresh.tryDelete {t t' : Trie} (hf : Fresh keccak t) {fuel : Nat} {key : List UInt8}
    (h : t.TryDelete fuel key = .ok t') : Fresh keccak t' := by
  unfold Trie.TryDelete at h
  split at h
  · cases h
  · rename_i k hk
    obtain ⟨⟨_, n⟩, hrec, rfl⟩ := map_eq_ok h
    have hn := delete_holds hsep hf.db fuel t.root [] k true hf.wf hf.holds (hexKey_ok hk).1 hrec
    exact ⟨hn.wf, hn.holds, hf.db⟩

/-- Every call keeps the trie fresh. -/
theorem Fresh.step {t t' : Trie} (hf : Fresh keccak t) (h : Step keccak t t') : Fresh keccak t' := by
  cases h with
  | tryGet h => exact hf.tryGet hsep h
  | tryUpdate hval h => exact hf.tryUpdate hsep hval h
  | tryDelete h => exact hf.tryDelete hsep h
  | hash h => exact hf.hash h
  | commit h => exact hf.commit h
  | setCacheLimit l => exact ⟨hf.wf, hf.holds, hf.db⟩

/-- Every trie a run reaches from a database of node encodings is fresh. -/
theorem fresh_of_reachable {db : Database} (hdb : BlobsHold (StoredNode keccak) (some db))
    {t : Trie} (ht : Reachable keccak db t) : Fresh keccak t := by
  induction ht with
  | new h => exact fresh_new hsep hdb h
  | step _ hs ih => exact ih.step hsep hs

end Walks

/-! ### Hash and Commit answer what hashing from scratch would -/

/-- For every trie a run of calls reaches, `Hash` returns a root, the trie with every cached
hash cleared hashes to that root, and `Commit` returns it too. -/
theorem hash_commit_fresh (hsep : SizeSeparating keccak) {db : Database}
    (hdb : BlobsHold (StoredNode keccak) (some db)) {t : Trie} (ht : Reachable keccak db t) :
    ∃ root, (t.hash keccak).map Prod.fst = some root ∧
      ({ t with root := t.root.clear }.hash keccak).map Prod.fst = some root ∧
      (t.commit keccak).map Prod.fst = some root := by
  have hf := fresh_of_reachable hsep hdb ht
  have hclear : CachesHold keccak true t.root.clear := cachesHold_clear keccak hf.holds
  obtain ⟨y, hy⟩ := hashRoot_isHash t none
  refine ⟨y, ?_, ?_, ?_⟩
  · rw [hash_fst, hy]
    rfl
  · -- the cleared root is one the hasher cannot tell from the root
    rw [hash_fst, hashRoot_fst_eq (t := { t with root := t.root.clear }) (u := t) hclear hf.holds
      (sameRef_clear t.root true) none none, hy]
    rfl
  · -- the database changes what the hasher stores, not the reference it gives
    rw [commit_fst, hashRoot_fst_eq hf.holds hf.holds (.refl true t.root) (some t.db) none, hy]
    rfl

end Keccak

/-- A hash that tells encodings below 32 bytes from longer ones, and nothing else. -/
def sizeKeccak (b : List UInt8) : Hash := if b.length < 32 then 0 else 1

/-- The hash by length separates hashes from shorter values. -/
theorem sizeKeccak_separating : SizeSeparating sizeKeccak := by
  intro a b h
  have h01 : (0 : Hash) ≠ 1 := by decide
  by_cases ha : a.length < 32 <;> by_cases hb : b.length < 32
  · exact iff_of_true ha hb
  · simp only [sizeKeccak, ha, hb, if_true, if_false] at h
    exact absurd h h01
  · simp only [sizeKeccak, ha, hb, if_true, if_false] at h
    exact absurd h.symm h01
  · exact iff_of_false ha hb

/-- A new database holds only the meta-root's empty encoding. -/
theorem blobsHold_new (keccak : List UInt8 → Hash) :
    BlobsHold (StoredNode keccak) (some (Database.new ∅)) := by
  intro d hd x b hb
  cases hd
  by_cases hx : x = Hash.zero
  · subst hx
    simp [Database.node, Database.new] at hb
    exact .inl hb
  · have hnone : (Database.new ∅).nodes.lookup x = none :=
      Finmap.lookup_eq_none.mpr (by simpa [Database.new] using hx)
    unfold Database.node at hb
    rw [hnone] at hb
    simp [Database.new] at hb

set_option maxRecDepth 100000 in
/-- A trie opened over an empty database, after two updates of values of 40 bytes, `Hash`,
`Commit` and a read: its root is a node of 32 bytes or more, hashed to `1`. -/
theorem run_two_updates :
    ∃ t, Reachable sizeKeccak (Database.new ∅) t ∧ (t.hash sizeKeccak).map Prod.fst = some 1 := by
  have h0 : Reachable sizeKeccak (Database.new ∅)
      { db := Database.new ∅, root := .empty, cachegen := 0, cachelimit := 0 } :=
    @Reachable.new sizeKeccak _ Hash.zero _ (by simp [Trie.new])
  have h1 := h0.step (@Step.tryUpdate sizeKeccak _ _ 8 [1] (List.replicate 40 7) (by decide) rfl)
  have h2 := h1.step (@Step.tryUpdate sizeKeccak _ _ 8 [2] (List.replicate 40 8) (by decide) rfl)
  have h3 := h2.step (.hash rfl)
  have h4 := h3.step (.commit rfl)
  have h5 := h4.step (@Step.tryGet sizeKeccak _ _ 8 [1] _ rfl)
  exact ⟨_, h5, by decide +kernel⟩

/-- Under the hash by length, a trie updated from empty hashes to one root with its cache
cleared or not, and commits to it. -/
theorem hash_commit_fresh_updates :
    SizeSeparating sizeKeccak ∧ BlobsHold (StoredNode sizeKeccak) (some (Database.new ∅)) ∧
      ∃ t, Reachable sizeKeccak (Database.new ∅) t ∧ (t.hash sizeKeccak).map Prod.fst = some 1 ∧
        ∃ root, (t.hash sizeKeccak).map Prod.fst = some root ∧
          ({ t with root := t.root.clear }.hash sizeKeccak).map Prod.fst = some root ∧
          (t.commit sizeKeccak).map Prod.fst = some root := by
  obtain ⟨t, ht, hroot⟩ := run_two_updates
  exact ⟨sizeKeccak_separating, blobsHold_new sizeKeccak, t, ht, hroot,
    hash_commit_fresh sizeKeccak_separating (blobsHold_new sizeKeccak) ht⟩

end EpvChain.Trie
