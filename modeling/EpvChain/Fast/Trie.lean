import EpvChain.Fast.Codec

/-!
# The trie (`fast/trie.go`)

A `Trie` is a root node over a node database. `TryGet` walks down the hex key, resolving hash
nodes from the database and keeping them; `TryUpdate` inserts a value (deletes on an empty one)
and `TryDelete` deletes. Every node built or copied gets a fresh flag (`newFlag`). `Hash` and
`Commit` run the hasher on the root by force; `Commit` stores the hashed nodes and starts the
next generation. The walks take fuel, one unit a call.

The source's panics (indexing past a key or a full node's children, an oversized slice, a node
of the wrong kind, `mustDecodeNode` on a bad encoding) are errors here. The root's reference is
always a hash node (`hash_force_isHash`), so `Hash` and `Commit` return `some`. The leaf
callback, the cache-miss counters and `originalRoot` are left out.
-/

set_option linter.dupNamespace false

namespace EpvChain.Trie

/-- What a trie operation fails with.
Source: `fast/errors.go` `MissingNodeError`; `fast/trie.go` -/
inductive TrieError where
  /-- `MissingNodeError`: no encoding under the hash, at the key path so far. -/
  | missingNode (hash : Hash) (path : List UInt8)
  /-- `mustDecodeNode` of an encoding that does not decode: the source panics. -/
  | decode (e : DecodeError)
  /-- An index past a key or past the children, a slice longer than an `int` allows, or a node
  of a kind the source does not expect there: the source panics. -/
  | panicked
  /-- The fuel ran out. -/
  | outOfFuel
  deriving DecidableEq, Repr

/-- `emptyRoot`: the root hash of the empty trie, the hash of the encoding of the empty string.
Source: `fast/trie.go` -/
def emptyRoot : Hash := 0x56e81f171bcc55a6ff8345e692c0f86e5b48e01b996cadc001622fb5e363b421

/-- `Trie`: the node database, the root, and the commit generation with the number of commits
a clean node may go unused.
Source: `fast/trie.go` `type Trie struct` -/
structure Trie where
  db : Database
  root : Node
  cachegen : UInt16
  cachelimit : UInt16

/-- `keybytesToHex` as the source allocates it: twice the key and the terminator, an `int`
that must not pass `2 ^ 63 - 1`.
Source: `fast/encoding.go` `keybytesToHex` -/
def hexKey (key : List UInt8) : Except TrieError (List UInt8) :=
  if 2 * key.length + 1 < 2 ^ 63 then .ok (keybytesToHex key) else .error .panicked

/-- `concat`: a slice of the summed length, with the two slices copied in.
Source: `fast/trie.go` `concat` -/
def concat (s1 s2 : List UInt8) : Except TrieError (List UInt8) :=
  if s1.length + s2.length < 2 ^ 63 then .ok (s1 ++ s2) else .error .panicked

/-- `n.Children[key[pos]]`'s index: `none` where the source indexes past the key or past the
seventeen children. -/
def childIndex (key : List UInt8) (pos : Nat) : Option (Fin 17) :=
  match key[pos]? with
  | some b => if h : b.toNat < 17 then some ⟨b.toNat, h⟩ else none
  | none => none

/-- The loop of `delete` over a full node's children: the position of the only child, `-1`
when there is none and `-2` when there are two or more.
Source: `fast/trie.go` `Trie.delete` -/
def onlyChildPos (cs : Fin 17 → Node) : Int :=
  (List.finRange 17).foldl
    (fun pos i => if (cs i).isEmpty then pos else if pos = -1 then (i.val : Int) else -2) (-1)

/-! ### Keys and child positions -/

theorem nibble_div (b : UInt8) : b / 16 < 16 := by
  have := b.toNat_lt
  rw [UInt8.lt_iff_toNat_lt, UInt8.toNat_div]
  simp only [UInt8.reduceToNat]
  omega

theorem nibble_mod (b : UInt8) : b % 16 < 16 := by
  rw [UInt8.lt_iff_toNat_lt, UInt8.toNat_mod]
  simp only [UInt8.reduceToNat]
  omega

/-- The hex key of a key is a terminated hex key shorter than `2 ^ 63`. -/
theorem hexKey_ok {key k : List UInt8} (h : hexKey key = .ok k) :
    ValidHex k ∧ hasTerm k = true ∧ k.length < 2 ^ 63 := by
  unfold hexKey at h
  split at h
  · rename_i hlen
    cases h
    have hnib : ∀ x ∈ key.flatMap (fun b => [b / 16, b % 16]), x < 16 := by
      simp only [List.mem_flatMap, List.mem_cons, List.not_mem_nil, or_false]
      rintro x ⟨b, -, rfl | rfl⟩
      · exact nibble_div b
      · exact nibble_mod b
    refine ⟨validHex_append hnib (by simp [ValidHex, hasTerm]),
      by rw [keybytesToHex, hasTerm_append _ (List.cons_ne_nil _ _)]; rfl, ?_⟩
    rw [length_keybytesToHex]
    omega
  · cases h

theorem concat_ok {s1 s2 k : List UInt8} (h : concat s1 s2 = .ok k) :
    k = s1 ++ s2 ∧ k.length < 2 ^ 63 := by
  unfold concat at h
  split at h
  · cases h
    exact ⟨rfl, by simpa⟩
  · cases h

theorem childIndex_some {key : List UInt8} {pos : Nat} {i : Fin 17}
    (h : childIndex key pos = some i) : ∃ hp : pos < key.length, i.val = key[pos].toNat := by
  unfold childIndex at h
  split at h
  · rename_i b hb
    split at h
    · cases h
      obtain ⟨hp, rfl⟩ := List.getElem?_eq_some_iff.mp hb
      exact ⟨hp, rfl⟩
    · cases h
  · cases h

/-- Before the last place of a hex key the child is a nibble child. -/
theorem childIndex_ne_last {key : List UInt8} (hk : ValidHex key) {pos : Nat} {i : Fin 17}
    (h : childIndex key pos = some i) (hp : pos + 1 < key.length) : i ≠ Fin.last 16 := by
  obtain ⟨hpos, hi⟩ := childIndex_some h
  have hnib := nibbles_take hk hp key[pos] (List.mem_take_iff_getElem.mpr ⟨pos, by omega, rfl⟩)
  rw [UInt8.lt_iff_toNat_lt] at hnib
  intro hlast
  rw [hlast] at hi
  simp only [Fin.val_last, UInt8.reduceToNat] at hi hnib
  omega

/-- At the last place of a key the child is the value slot exactly when the key is terminated. -/
theorem childIndex_last_iff {key : List UInt8} {pos : Nat} {i : Fin 17}
    (h : childIndex key pos = some i) (hp : pos + 1 = key.length) :
    i = Fin.last 16 ↔ hasTerm key = true := by
  obtain ⟨hpos, hi⟩ := childIndex_some h
  have hlast : key.getLast? = some key[pos] := by
    rw [List.getLast?_eq_getElem?, List.getElem?_eq_some_iff]
    exact ⟨by omega, by simp only [show key.length - 1 = pos by omega]⟩
  simp only [hasTerm, hlast, beq_iff_eq, Option.some.injEq, Fin.ext_iff, Fin.val_last, hi]
  constructor
  · intro h16
    exact UInt8.toNat_inj.mp (by simpa using h16)
  · intro h16
    rw [h16]
    rfl

theorem prefixLen_le_left (a b : List UInt8) : prefixLen a b ≤ a.length := by
  induction a generalizing b with
  | nil => simp [prefixLen]
  | cons x a ih =>
    cases b with
    | nil => simp [prefixLen]
    | cons y b =>
      simp only [prefixLen, List.length_cons]
      split
      · exact Nat.succ_le_succ (ih b)
      · omega

theorem prefixLen_le_right (a b : List UInt8) : prefixLen a b ≤ b.length := by
  induction a generalizing b with
  | nil => simp [prefixLen]
  | cons x a ih =>
    cases b with
    | nil => simp [prefixLen]
    | cons y b =>
      simp only [prefixLen, List.length_cons]
      split
      · exact Nat.succ_le_succ (ih b)
      · omega

/-- The two keys agree up to their common prefix. -/
theorem take_prefixLen (a b : List UInt8) : a.take (prefixLen a b) = b.take (prefixLen a b) := by
  induction a generalizing b with
  | nil => simp [prefixLen]
  | cons x a ih =>
    cases b with
    | nil => simp [prefixLen]
    | cons y b =>
      simp only [prefixLen]
      split
      · rename_i hxy
        simp only [List.take_succ_cons, hxy, ih b]
      · simp

/-- A node's whole key as the common prefix of the key looked up: the key starts with it. -/
theorem take_of_prefixLen_eq {key k : List UInt8} (h : prefixLen key k = k.length) :
    key.take k.length = k := by
  have := take_prefixLen key k
  rw [h, List.take_length] at this
  exact this

/-- The position `onlyChildPos` finds holds a child. -/
theorem onlyChildPos_spec (cs : Fin 17 → Node) (h : 0 ≤ onlyChildPos cs) :
    ∃ p : Fin 17, onlyChildPos cs = p ∧ (cs p).isEmpty = false := by
  -- the loop keeps `-1`, `-2`, or a position that holds a child
  have hloop : ∀ (l : List (Fin 17)) (pos : Int),
      (pos = -1 ∨ pos = -2 ∨ ∃ p : Fin 17, pos = p ∧ (cs p).isEmpty = false) →
      let r := l.foldl (fun pos i => if (cs i).isEmpty then pos
        else if pos = -1 then (i.val : Int) else -2) pos
      r = -1 ∨ r = -2 ∨ ∃ p : Fin 17, r = p ∧ (cs p).isEmpty = false := by
    intro l
    induction l with
    | nil => exact fun pos hpos => hpos
    | cons i l ih =>
      intro pos hpos
      apply ih
      dsimp only
      split
      · exact hpos
      · rename_i hi
        split
        · exact .inr (.inr ⟨i, rfl, by simpa using hi⟩)
        · exact .inr (.inl rfl)
  rcases hloop (List.finRange 17) (-1) (.inl rfl) with h1 | h2 | hp
  · unfold onlyChildPos at h
    rw [h1] at h
    omega
  · unfold onlyChildPos at h
    rw [h2] at h
    omega
  · exact hp

namespace Trie

/-- `Trie.newFlag`: no hash, dirty, this commit generation.
Source: `fast/trie.go` `Trie.newFlag` -/
def newFlag (t : Trie) : NodeFlag := { hash := none, gen := t.cachegen, dirty := true }

/-- `Trie.resolveHash`: the node stored under a hash, decoded with that hash and this commit
generation. A missing or empty encoding is a `MissingNodeError`.
Source: `fast/trie.go` `Trie.resolveHash`; `fast/node.go` `mustDecodeNode` -/
def resolveHash (t : Trie) (n : Hash) (pfx : List UInt8) : Except TrieError Node :=
  match t.db.node n with
  | some enc =>
    if enc = [] then .error (.missingNode n pfx)
    else (decodeNode (enc.length + 1) (some n) enc t.cachegen).mapError .decode
  | none => .error (.missingNode n pfx)

/-- `Trie.resolve`: a hash node resolved, any other node as it is.
Source: `fast/trie.go` `Trie.resolve` -/
def resolve (t : Trie) (n : Node) (pfx : List UInt8) : Except TrieError Node :=
  match n with
  | .hash h => t.resolveHash h pfx
  | n => .ok n

/-- `Trie.tryGet`: the value at `key` from position `pos`, the node to keep in `n`'s place, and
whether a node was resolved on the way. A copy on the way keeps its hash and takes this commit
generation.
Source: `fast/trie.go` `Trie.tryGet` -/
def tryGet (t : Trie) : Nat → Node → List UInt8 → Nat →
    Except TrieError (Option (List UInt8) × Node × Bool)
  | 0, _, _, _ => .error .outOfFuel
  | fuel + 1, n, key, pos =>
    match n with
    | .empty => .ok (none, .empty, false)
    | .value v => .ok (some v, .value v, false)
    | .short k v flags =>
      if key.length - pos < k.length ∨ k ≠ (key.drop pos).take k.length then .ok (none, n, false)
      else
        match tryGet t fuel v key (pos + k.length) with
        | .error e => .error e
        | .ok (value, newnode, didResolve) =>
          if didResolve then .ok (value, .short k newnode { flags with gen := t.cachegen }, true)
          else .ok (value, n, false)
    | .full cs flags =>
      match childIndex key pos with
      | none => .error .panicked
      | some i =>
        match tryGet t fuel (cs i) key (pos + 1) with
        | .error e => .error e
        | .ok (value, newnode, didResolve) =>
          if didResolve then
            .ok (value, .full (Function.update cs i newnode) { flags with gen := t.cachegen }, true)
          else .ok (value, n, false)
    | .hash x =>
      match t.resolveHash x (key.take pos) with
      | .error e => .error e
      | .ok child => (tryGet t fuel child key pos).map fun (value, newnode, _) => (value, newnode, true)

/-- `Trie.insert`: put `value` at `key` below `n`; whether anything changed, and the node to
keep in `n`'s place.
Source: `fast/trie.go` `Trie.insert` -/
def insert (t : Trie) : Nat → Node → List UInt8 → List UInt8 → Node → Except TrieError (Bool × Node)
  | 0, _, _, _, _ => .error .outOfFuel
  | fuel + 1, n, pfx, key, value =>
    if key = [] then
      match n with
      | .value v =>
        -- the source asserts that the new value is a value node
        match value with
        | .value w => .ok (v != w, value)
        | _ => .error .panicked
      | _ => .ok (true, value)
    else
      match n with
      | .short k v _ =>
        let matchlen := prefixLen key k
        if matchlen = k.length then
          match insert t fuel v (pfx ++ key.take matchlen) (key.drop matchlen) value with
          | .error e => .error e
          | .ok (dirty, nn) => if dirty then .ok (true, .short k nn t.newFlag) else .ok (false, n)
        else
          -- the keys part at `matchlen`: a branch with the old child and the new value
          match childIndex k matchlen, childIndex key matchlen with
          | some i, some j =>
            match insert t fuel .empty (pfx ++ k.take (matchlen + 1)) (k.drop (matchlen + 1)) v with
            | .error e => .error e
            | .ok (_, c1) =>
              match insert t fuel .empty (pfx ++ key.take (matchlen + 1))
                  (key.drop (matchlen + 1)) value with
              | .error e => .error e
              | .ok (_, c2) =>
                let branch : Node :=
                  .full (Function.update (Function.update (fun _ => .empty) i c1) j c2) t.newFlag
                if matchlen = 0 then .ok (true, branch)
                else .ok (true, .short (key.take matchlen) branch t.newFlag)
          | _, _ => .error .panicked
      | .full cs _ =>
        match childIndex key 0 with
        | none => .error .panicked
        | some i =>
          match insert t fuel (cs i) (pfx ++ key.take 1) (key.drop 1) value with
          | .error e => .error e
          | .ok (dirty, nn) =>
            if dirty then .ok (true, .full (Function.update cs i nn) t.newFlag) else .ok (false, n)
      | .empty => .ok (true, .short key value t.newFlag)
      | .hash x =>
        match t.resolveHash x pfx with
        | .error e => .error e
        | .ok rn =>
          match insert t fuel rn pfx key value with
          | .error e => .error e
          | .ok (dirty, nn) => if dirty then .ok (true, nn) else .ok (false, rn)
      | .value _ => .error .panicked

/-- `Trie.delete`: remove `key` below `n`; whether anything changed, and the node to keep in
`n`'s place. A short node left above a short node is merged with it, and a full node left with
one child becomes a short node, merged with that child when it is a short node.
Source: `fast/trie.go` `Trie.delete` -/
def delete (t : Trie) : Nat → Node → List UInt8 → List UInt8 → Except TrieError (Bool × Node)
  | 0, _, _, _ => .error .outOfFuel
  | fuel + 1, n, pfx, key =>
    match n with
    | .short k v _ =>
      let matchlen := prefixLen key k
      if matchlen < k.length then .ok (false, n)
      else if matchlen = key.length then .ok (true, .empty)
      else
        match delete t fuel v (pfx ++ key.take k.length) (key.drop k.length) with
        | .error e => .error e
        | .ok (dirty, child) =>
          if !dirty then .ok (false, n)
          else
            match child with
            | .short ck cv _ => (concat k ck).map fun key => (true, .short key cv t.newFlag)
            | child => .ok (true, .short k child t.newFlag)
    | .full cs _ =>
      match childIndex key 0 with
      | none => .error .panicked
      | some i =>
        match delete t fuel (cs i) (pfx ++ key.take 1) (key.drop 1) with
        | .error e => .error e
        | .ok (dirty, nn) =>
          if !dirty then .ok (false, n)
          else
            let cs := Function.update cs i nn
            let pos := onlyChildPos cs
            -- a position found is always below 17
            if h : 0 ≤ pos ∧ pos < 17 then
              let p : Fin 17 := ⟨pos.toNat, by omega⟩
              if p ≠ 16 then
                match t.resolve (cs p) pfx with
                | .error e => .error e
                | .ok (.short ck cv _) =>
                  (concat [p.val.toUInt8] ck).map fun key => (true, .short key cv t.newFlag)
                | .ok _ => .ok (true, .short [p.val.toUInt8] (cs p) t.newFlag)
              else .ok (true, .short [p.val.toUInt8] (cs p) t.newFlag)
            else .ok (true, .full cs t.newFlag)
    | .value _ => .ok (true, .empty)
    | .empty => .ok (false, .empty)
    | .hash x =>
      match t.resolveHash x pfx with
      | .error e => .error e
      | .ok rn =>
        match delete t fuel rn pfx key with
        | .error e => .error e
        | .ok (dirty, nn) => if dirty then .ok (true, nn) else .ok (false, rn)

/-- `Trie.TryGet`: the value under a key; the trie keeps the nodes resolved on the way.
Source: `fast/trie.go` `Trie.TryGet` -/
def TryGet (t : Trie) (fuel : Nat) (key : List UInt8) :
    Except TrieError (Option (List UInt8) × Trie) :=
  match hexKey key with
  | .error e => .error e
  | .ok k =>
    match t.tryGet fuel t.root k 0 with
    | .error e => .error e
    | .ok (value, newroot, didResolve) =>
      .ok (value, if didResolve then { t with root := newroot } else t)

/-- `Trie.TryUpdate`: insert a value, or delete the key when the value is empty.
Source: `fast/trie.go` `Trie.TryUpdate` -/
def TryUpdate (t : Trie) (fuel : Nat) (key value : List UInt8) : Except TrieError Trie :=
  match hexKey key with
  | .error e => .error e
  | .ok k =>
    if value.length ≠ 0 then
      (t.insert fuel t.root [] k (.value value)).map fun (_, n) => { t with root := n }
    else (t.delete fuel t.root [] k).map fun (_, n) => { t with root := n }

/-- `Trie.TryDelete`: delete a key.
Source: `fast/trie.go` `Trie.TryDelete` -/
def TryDelete (t : Trie) (fuel : Nat) (key : List UInt8) : Except TrieError Trie :=
  match hexKey key with
  | .error e => .error e
  | .ok k => (t.delete fuel t.root [] k).map fun (_, n) => { t with root := n }

/-- `Trie.SetCacheLimit`.
Source: `fast/trie.go` `Trie.SetCacheLimit` -/
def setCacheLimit (t : Trie) (l : UInt16) : Trie := { t with cachelimit := l }

/-- `New`: a trie over a database, its root resolved unless the root hash is zero or the empty
root.
Source: `fast/trie.go` `New` -/
def new (root : Hash) (db : Database) : Except TrieError Trie :=
  let t : Trie := { db := db, root := .empty, cachegen := 0, cachelimit := 0 }
  if root ≠ Hash.zero ∧ root ≠ emptyRoot then (t.resolveHash root []).map fun n => { t with root := n }
  else .ok t

section Keccak

variable (keccak : List UInt8 → Hash)

/-- `Trie.hashRoot`: the empty root for an empty trie, else the hasher on the root by force.
Source: `fast/trie.go` `Trie.hashRoot` -/
def hashRoot (t : Trie) (db : Option Database) : Node × Node × Option Database :=
  if t.root.isEmpty then (.hash emptyRoot, .empty, db)
  else (Hasher.mk t.cachegen t.cachelimit).hash keccak t.root db true

/-- `Trie.Hash`: the root hash, and the trie with the nodes the hasher keeps. `none` where the
source's assertion that the root's reference is a hash node fails.
Source: `fast/trie.go` `Trie.Hash` -/
def hash (t : Trie) : Option (Hash × Trie) :=
  let r := t.hashRoot keccak none
  r.1.asHash.map fun h => (h, { t with root := r.2.1 })

/-- `Trie.Commit`: the root hash, and the trie with the nodes the hasher keeps, the hashed nodes
in its database and the next commit generation.
Source: `fast/trie.go` `Trie.Commit` -/
def commit (t : Trie) : Option (Hash × Trie) :=
  let r := t.hashRoot keccak (some t.db)
  r.1.asHash.map fun h =>
    (h, { t with root := r.2.1, db := r.2.2.getD t.db, cachegen := t.cachegen + 1 })

end Keccak

end Trie

end EpvChain.Trie
