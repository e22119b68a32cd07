import EpvChain.Fast.Node
import EpvChain.Fast.Database

/-!
# The hasher and its cache of node hashes (`fast/hasher.go`)

`hasher.hash` computes a node's reference: its collapsed form (short keys compact, children
replaced by their references) when that encodes below 32 bytes, else the hash of the encoding;
the root is always hashed (`force`). It returns the node to keep, with the hash cached in its
flags, and with a database stores every hashed node and counts references to hash children. A
node with a cached hash is not hashed again: without a database the hash is returned; with one,
a clean node unused for `cachelimit` commits is unloaded to its hash, another clean node kept,
and only a dirty node rehashed. `keccak` is a parameter; the leaf callback, and with it the only
errors, is left out.

`Node.collapsed` is what the hasher computes with nothing cached. `CachesHold` says every cached
hash is that one, and a hash node stands for a node encoding to 32 bytes or more.

* `hash_ref` — under `CachesHold` the reference is the one computed from scratch, and the node
  kept again satisfies `CachesHold`.
* `hash_stores` — every encoding stored is a node's collapsed form under its hash.
-/

namespace EpvChain.Trie

open Rlp

/-- `hasher`: the commit generation and the number of commits a clean node may go unused before
it is unloaded.
Source: `fast/hasher.go` `type hasher struct` -/
structure Hasher where
  cachegen : UInt16
  cachelimit : UInt16

namespace Node

/-- Go's `n == nil`. -/
def isEmpty : Node → Bool
  | empty => true
  | _ => false

/-- `_, ok := n.(valueNode)`. -/
def isValue : Node → Bool
  | value _ => true
  | _ => false

/-- `hashed.(hashNode)`: the hash of a hash node, `nil` for any other node. -/
def asHash : Node → Option Hash
  | hash h => some h
  | _ => none

end Node

section
-- The equation lemmas of these tests are made once here, before the proofs below unfold them.
attribute [local simp] Node.isEmpty Node.isValue Node.asHash
end

/-- The flags the hasher leaves on a node it hashed: the hash when the node was stored by hash,
and clean once the node is in the database. -/
def NodeFlag.hashed (f : NodeFlag) (hashed : Node) (db : Option Database) : NodeFlag :=
  { f with hash := hashed.asHash, dirty := if db.isSome then false else f.dirty }

section Keccak

variable (keccak : List UInt8 → Hash)

/-- The hash nodes among a collapsed node's children, which `store` references from it: a short
node's child and a full node's sixteen nibble children. -/
def childHashes : Node → List Hash
  | .short _ (.hash h) _ => [h]
  | .full cs _ => (List.finRange 16).filterMap fun i => (cs i.castSucc).asHash
  | _ => []

/-- `hasher.store`: a collapsed node's reference. With a database, a hashed node is cached in it
under its hash, and its references to its hash children are counted.
Source: `fast/hasher.go` `hasher.store` -/
def store (n : Node) (db : Option Database) (force : Bool) : Node × Option Database :=
  match n with
  | .empty | .hash _ => (n, db)
  | _ =>
    if n.encode.length < 32 && !force then (n, db)
    else
      let hash := n.cache.1.getD (keccak n.encode)
      (.hash hash, db.map fun db =>
        -- the node was cached just before, so none of its references fails
        (childHashes n).foldl (fun db child => (db.reference child hash).getD db)
          (db.insert hash n.encode))

namespace Hasher

/-- The start of `hasher.hash`: a node that has a cached hash. Without a database the hash is
returned; with one, an old clean node is unloaded to its hash, any other clean node is kept, and
a dirty node is hashed again (`none`).
Source: `fast/hasher.go` `hasher.hash` -/
def cached (h : Hasher) (n : Node) (db : Option Database) :
    Option (Node × Node × Option Database) :=
  match n.cache with
  | (some hash, dirty) =>
    match db with
    | none => some (.hash hash, n, none)
    | some _ =>
      if n.canUnload h.cachegen h.cachelimit then some (.hash hash, .hash hash, db)
      else if !dirty then some (.hash hash, n, db)
      else none
  | (none, _) => none

/-- One turn of `hashChildren`'s loop over a full node's nibble children: a missing child is an
empty value in the collapsed node, any other is hashed (`child`) with the database so far. -/
def childrenStep (child : Fin 16 → Option Database → Node × Node × Option Database)
    (missing : Fin 16 → Bool) (acc : (Fin 17 → Node) × (Fin 17 → Node) × Option Database)
    (i : Fin 16) : (Fin 17 → Node) × (Fin 17 → Node) × Option Database :=
  if missing i then (Function.update acc.1 i.castSucc (.value []), acc.2)
  else
    let c := child i acc.2.2
    (Function.update acc.1 i.castSucc c.1, Function.update acc.2.1 i.castSucc c.2.1, c.2.2)

/-- `hasher.hash`, with `hashChildren` inlined: the node's reference, the node to keep with its
hash cached, and the database. A full node's nibble children are hashed in order, each with the
database the previous one left.
Source: `fast/hasher.go` `hasher.hash`, `hasher.hashChildren` -/
def hash (h : Hasher) (n : Node) (db : Option Database) (force : Bool) :
    Node × Node × Option Database :=
  match h.cached n db with
  | some r => r
  | none =>
    match n with
    | .full cs flags =>
      let r := (List.finRange 16).foldl
        (childrenStep (fun i db => h.hash (cs i.castSucc) db false) (fun i => (cs i.castSucc).isEmpty))
        (cs, cs, db)
      -- the value slot is copied as it is
      let collapsed := Function.update r.1 16 (if (cs 16).isEmpty then .value [] else cs 16)
      let s := store keccak (.full collapsed flags) r.2.2 force
      (s.1, .full r.2.1 (flags.hashed s.1 s.2), s.2)
    | .short key val flags =>
      -- a value is not hashed
      let c := if val.isValue then (val, val, db) else h.hash val db false
      let cval := if c.1.isEmpty then .value [] else c.1
      let s := store keccak (.short (hexToCompact key) cval flags) c.2.2 force
      (s.1, .short key c.2.1 (flags.hashed s.1 s.2), s.2)
    | n =>
      let s := store keccak n db force
      (s.1, n, s.2)

/-! ### The loop over a full node's children -/

section Loop

variable {child : Fin 16 → Option Database → Node × Node × Option Database}
  {missing : Fin 16 → Bool}

theorem childrenStep_fst (acc : (Fin 17 → Node) × (Fin 17 → Node) × Option Database) (i : Fin 16) :
    (childrenStep child missing acc i).1 = Function.update acc.1 i.castSucc
      (if missing i then .value [] else (child i acc.2.2).1) := by
  unfold childrenStep
  split <;> rfl

theorem childrenStep_kept (acc : (Fin 17 → Node) × (Fin 17 → Node) × Option Database)
    (i : Fin 16) :
    (childrenStep child missing acc i).2.1 =
      if missing i then acc.2.1 else Function.update acc.2.1 i.castSucc (child i acc.2.2).2.1 := by
  unfold childrenStep
  split <;> rfl

theorem childrenStep_db (acc : (Fin 17 → Node) × (Fin 17 → Node) × Option Database)
    (i : Fin 16) :
    (childrenStep child missing acc i).2.2 =
      if missing i then acc.2.2 else (child i acc.2.2).2.2 := by
  unfold childrenStep
  split <;> rfl

/-- What the loop leaves in each slot: a missing child as an empty value with the kept node
unchanged, any other child as hashed with the database of its turn, and the slots it does not
visit (the value slot among them) untouched. -/
theorem foldl_childrenStep (l : List (Fin 16)) (hl : l.Nodup)
    (acc : (Fin 17 → Node) × (Fin 17 → Node) × Option Database) :
    let r := l.foldl (childrenStep child missing) acc
    (∀ j, j ∉ l → r.1 j.castSucc = acc.1 j.castSucc ∧ r.2.1 j.castSucc = acc.2.1 j.castSucc) ∧
    (∀ j ∈ l, missing j = true →
      r.1 j.castSucc = .value [] ∧ r.2.1 j.castSucc = acc.2.1 j.castSucc) ∧
    (∀ j ∈ l, missing j = false →
      ∃ d, r.1 j.castSucc = (child j d).1 ∧ r.2.1 j.castSucc = (child j d).2.1) ∧
    r.1 (Fin.last 16) = acc.1 (Fin.last 16) ∧ r.2.1 (Fin.last 16) = acc.2.1 (Fin.last 16) := by
  induction l generalizing acc with
  | nil => simp
  | cons i l ih =>
    obtain ⟨hi, hl⟩ := List.nodup_cons.mp hl
    obtain ⟨hframe, hmiss, hhit, hlast, hlast'⟩ := ih hl (childrenStep child missing acc i)
    -- one turn changes slot `i` only
    have hfst : ∀ j, j ≠ i → (childrenStep child missing acc i).1 j.castSucc = acc.1 j.castSucc :=
      fun j hj => by
        rw [childrenStep_fst, Function.update_of_ne (Fin.castSucc_injective _ |>.ne hj)]
    have hkept : ∀ j, j ≠ i →
        (childrenStep child missing acc i).2.1 j.castSucc = acc.2.1 j.castSucc := fun j hj => by
      rw [childrenStep_kept]
      split
      · rfl
      · rw [Function.update_of_ne (Fin.castSucc_injective _ |>.ne hj)]
    simp only [List.foldl_cons, List.mem_cons, forall_eq_or_imp]
    refine ⟨fun j hj => ?_, ⟨fun hm => ?_, fun j hj hm => ?_⟩, ⟨fun hm => ?_, hhit⟩, ?_, ?_⟩
    · -- a slot the loop never visits
      have hji : j ≠ i := fun h => hj (.inl h)
      rw [(hframe j fun h => hj (.inr h)).1, (hframe j fun h => hj (.inr h)).2, hfst j hji,
        hkept j hji]
      exact ⟨rfl, rfl⟩
    · -- the missing child of this turn
      rw [(hframe i hi).1, (hframe i hi).2, childrenStep_fst, childrenStep_kept, if_pos hm,
        if_pos hm, Function.update_self]
      exact ⟨rfl, rfl⟩
    · -- a missing child of a later turn
      have hji : j ≠ i := fun h => hi (h ▸ hj)
      rw [(hmiss j hj hm).1, (hmiss j hj hm).2, hkept j hji]
      exact ⟨rfl, rfl⟩
    · -- the child hashed in this turn
      refine ⟨acc.2.2, ?_, ?_⟩
      · rw [(hframe i hi).1, childrenStep_fst, if_neg (by simp [hm]), Function.update_self]
      · rw [(hframe i hi).2, childrenStep_kept, if_neg (by simp [hm]), Function.update_self]
    · rw [hlast, childrenStep_fst, Function.update_of_ne (Fin.castSucc_ne_last i).symm]
    · rw [hlast', childrenStep_kept]
      split
      · rfl
      · rw [Function.update_of_ne (Fin.castSucc_ne_last i).symm]

/-- The loop keeps any property of the database that each hashed child keeps. -/
theorem foldl_childrenStep_db (P : Option Database → Prop)
    (hchild : ∀ j d, missing j = false → P d → P (child j d).2.2) (l : List (Fin 16))
    (acc : (Fin 17 → Node) × (Fin 17 → Node) × Option Database) (h : P acc.2.2) :
    P (l.foldl (childrenStep child missing) acc).2.2 := by
  induction l generalizing acc with
  | nil => exact h
  | cons i l ih =>
    apply ih
    rw [childrenStep_db]
    split
    · exact h
    · rename_i hm
      exact hchild i _ (by simpa using hm) h

end Loop

end Hasher

/-! ### What the hasher computes from scratch -/

/-- The value `store` leaves for a node whose collapsed form is `e`: `e` itself when it encodes
below 32 bytes and the store is not forced, else the bytes of its hash. `nil` and a hash node
are not stored. -/
def storedValue (n : Node) (e : Value) (force : Bool) : Value :=
  match n with
  | .empty | .hash _ => e
  | _ => if e.encode.length < 32 && !force then e else .bytes (keccak e.encode).toBytes

/-- What a short node's collapsed form holds for its child, given the child's reference: a value
as it is, and an empty value for a missing child. -/
def shortChild (v : Node) (r : Value) : Value :=
  match v with
  | .value w => .bytes w
  | .empty => .bytes []
  | _ => r

/-- The collapsed form of a node as the hasher computes it when nothing is cached, as the value
`rlp.Encode` writes: a full node's nibble children by their references and its value slot as it
is, a short node's key in compact form and its child by its reference. -/
def Node.collapsed : Node → Value
  | .full cs _ => .list (List.ofFn fun i =>
      if (cs i).isEmpty then .bytes []
      else if i = Fin.last 16 then (cs i).toValue
      else storedValue keccak (cs i) (cs i).collapsed false)
  | .short k v _ =>
    .list [.bytes (hexToCompact k), shortChild v (storedValue keccak v v.collapsed false)]
  | n => n.toValue

/-- A hash in a child's place stands for a node that encodes to 32 bytes or more: a smaller
node is embedded in its parent, never referenced by hash. -/
def BigRef (x : Hash) : Prop := ∃ e : List UInt8, keccak e = x ∧ 32 ≤ e.length

/-- A hash that fits a node whose collapsed form is `e`: the hash of `e`'s encoding, which is 32
bytes or more unless the node is hashed by force. -/
def HashFits (e : Value) (force : Bool) (x : Hash) : Prop :=
  x = keccak e.encode ∧ (force = true ∨ 32 ≤ e.encode.length)

/-- Every hash cached in the node and below it fits: the root's (`force`) of any size, a child's
at least 32 bytes, and a hash node in a child's place stands for a node that large. -/
def CachesHold : Bool → Node → Prop
  | force, .full cs f =>
    (∀ x, f.hash = some x → HashFits keccak ((Node.full cs f).collapsed keccak) force x) ∧
      ∀ i : Fin 16, CachesHold false (cs i.castSucc)
  | force, .short k v f =>
    (∀ x, f.hash = some x → HashFits keccak ((Node.short k v f).collapsed keccak) force x) ∧
      CachesHold false v
  | false, .hash x => BigRef keccak x
  | _, _ => True

/-! ### The hasher computes the references from scratch -/

theorem storedValue_of_fits {n : Node} (hn : n.isEmpty = false ∧ n.asHash = none) {e : Value}
    {force : Bool} {x : Hash} (hx : HashFits keccak e force x) :
    storedValue keccak n e force = .bytes x.toBytes := by
  obtain ⟨rfl, hsize⟩ := hx
  have hbig : ¬ (e.encode.length < 32 && !force) = true := by
    rcases hsize with rfl | h32 <;> simp [*]
  cases n with
  | empty => simp [Node.isEmpty] at hn
  | hash h => simp [Node.asHash] at hn
  | _ => simp only [storedValue, if_neg hbig]

/-- A node with a cached hash is a full or a short node. -/
theorem kind_of_cache {n : Node} {x : Hash} (hx : n.cache.1 = some x) :
    n.isEmpty = false ∧ n.asHash = none := by
  cases n <;> simp_all [Node.cache, Node.isEmpty, Node.asHash]

/-- What `store` returns for a collapsed node `c` that is neither `nil` nor a hash, when a hash
cached in it fits its encoding `e`. -/
theorem store_ref {c : Node} (hkind : c.isEmpty = false ∧ c.asHash = none) {e : Value}
    (hc : c.toValue = e) (force : Bool) (hfit : ∀ x, c.cache.1 = some x → HashFits keccak e force x)
    (db : Option Database) :
    (store keccak c db force).1.toValue = storedValue keccak c e force ∧
      (∀ x, (store keccak c db force).1.asHash = some x → HashFits keccak e force x) ∧
      (store keccak c db force).1.isEmpty = false ∧
      (store keccak c db force).2.isSome = db.isSome := by
  have henc : c.encode = e.encode := by rw [Node.encode, hc]
  -- the hash `store` writes is the cached one, or the hash of the encoding
  have hhash : c.cache.1.getD (keccak e.encode) = keccak e.encode := by
    cases hcache : c.cache.1 with
    | none => rfl
    | some x => exact (hfit x hcache).1
  cases c with
  | empty => simp [Node.isEmpty] at hkind
  | hash h => simp [Node.asHash] at hkind
  | _ =>
    simp only [store, storedValue, henc]
    split_ifs with hsmall
    · exact ⟨hc, by simp [Node.asHash], rfl, rfl⟩
    · refine ⟨by rw [hhash]; rfl, fun x hx => ?_, rfl, by cases db <;> rfl⟩
      simp only [Node.asHash, Option.some.injEq] at hx
      subst hx
      refine ⟨hhash, ?_⟩
      cases force <;> simp_all

theorem cached_of_no_cache {h : Hasher} {n : Node} (hn : n.cache.1 = none) (db : Option Database) :
    h.cached n db = none := by
  unfold Hasher.cached
  split
  · rename_i x dirty hcache
    rw [hcache] at hn
    cases hn
  · rfl

theorem cached_eq_some {h : Hasher} {n : Node} {db : Option Database}
    {r : Node × Node × Option Database} (hr : h.cached n db = some r) :
    ∃ x, n.cache.1 = some x ∧ r.1 = .hash x ∧ r.2.2 = db ∧ (r.2.1 = n ∨ r.2.1 = .hash x) := by
  unfold Hasher.cached at hr
  split at hr
  · rename_i x dirty hcache
    refine ⟨x, by rw [hcache], ?_⟩
    split at hr
    · cases hr; exact ⟨rfl, rfl, .inl rfl⟩
    · split_ifs at hr
      · cases hr; exact ⟨rfl, rfl, .inr rfl⟩
      · cases hr; exact ⟨rfl, rfl, .inl rfl⟩
  · cases hr

/-- Two full nodes collapse alike when their nibble children have the same references and they
have the same value slot. -/
theorem collapsed_full_congr {cs cs' : Fin 17 → Node} (f f' : NodeFlag)
    (hempty : ∀ j : Fin 16, (cs' j.castSucc).isEmpty = (cs j.castSucc).isEmpty)
    (href : ∀ j : Fin 16,
      storedValue keccak (cs' j.castSucc) ((cs' j.castSucc).collapsed keccak) false =
        storedValue keccak (cs j.castSucc) ((cs j.castSucc).collapsed keccak) false)
    (hlast : cs' (Fin.last 16) = cs (Fin.last 16)) :
    (Node.full cs' f').collapsed keccak = (Node.full cs f).collapsed keccak := by
  simp only [Node.collapsed]
  congr 1
  congr 1
  funext i
  refine Fin.lastCases ?_ (fun j => ?_) i
  · rw [hlast]
  · have hj : j.castSucc ≠ (16 : Fin 17) := Fin.castSucc_ne_last j
    rw [hempty j, href j]
    simp [hj]

/-- The full node the hasher stores writes the collapsed form of the node it came from. -/
theorem toValue_full_eq_collapsed {cs c : Fin 17 → Node} (f f' : NodeFlag)
    (hchild : ∀ j : Fin 16, (c j.castSucc).toValue =
      if (cs j.castSucc).isEmpty then .bytes []
      else storedValue keccak (cs j.castSucc) ((cs j.castSucc).collapsed keccak) false)
    (hlast : c (Fin.last 16) =
      if (cs (Fin.last 16)).isEmpty then .value [] else cs (Fin.last 16)) :
    (Node.full c f').toValue = (Node.full cs f).collapsed keccak := by
  simp only [Node.toValue, Node.collapsed]
  congr 1
  congr 1
  funext i
  refine Fin.lastCases ?_ (fun j => ?_) i
  · rw [hlast]
    split <;> simp_all [Node.toValue]
  · have hj : j.castSucc ≠ (16 : Fin 17) := Fin.castSucc_ne_last j
    rw [hchild j]
    simp [hj]

theorem shortChild_of_not_value {v : Node} (hv : ∀ w, v ≠ .value w) (r : Value) :
    shortChild v r = if v.isEmpty then .bytes [] else r := by
  cases v with
  | value w => exact absurd rfl (hv w)
  | _ => rfl

theorem shortChild_congr {a b : Node} (hval : ∀ w, a = .value w ↔ b = .value w)
    (hempty : a.isEmpty = b.isEmpty) {ra rb : Value} (hr : ra = rb) :
    shortChild a ra = shortChild b rb := by
  subst hr
  cases a <;> cases b <;> simp_all [shortChild, Node.isEmpty]

/-- What `hash` returns for a node `n` in a place hashed with `force`: `n`'s reference computed
from scratch, and a node to keep in `n`'s place with the same reference, of the same kind, for
which the caches hold; and a database exactly when it was given one. -/
structure Refines (force : Bool) (n : Node) (db : Option Database)
    (r : Node × Node × Option Database) : Prop where
  ref_eq : r.1.toValue = storedValue keccak n (n.collapsed keccak) force
  ref_empty : r.1.isEmpty = n.isEmpty
  holds : CachesHold keccak force r.2.1
  kept_ref : storedValue keccak r.2.1 (r.2.1.collapsed keccak) force =
    storedValue keccak n (n.collapsed keccak) force
  kept_empty : r.2.1.isEmpty = n.isEmpty
  kept_value : ∀ w, r.2.1 = .value w ↔ n = .value w
  db_isSome : r.2.2.isSome = db.isSome

/-- A node whose cached hash fits is answered from the cache, unloaded or kept. -/
theorem refines_of_cached {h : Hasher} {n : Node} {db : Option Database} {force : Bool}
    (hn : CachesHold keccak force n)
    (hown : ∀ x, n.cache.1 = some x → HashFits keccak (n.collapsed keccak) force x)
    {r : Node × Node × Option Database} (hr : h.cached n db = some r) :
    Refines keccak force n db r := by
  obtain ⟨x, hx, h1, h2, h3⟩ := cached_eq_some hr
  have hkind := kind_of_cache hx
  have hfit := hown x hx
  have hstored := storedValue_of_fits keccak hkind hfit
  have hnv : ∀ w, n ≠ .value w := fun w hw => by simp [hw, Node.cache] at hx
  refine ⟨by rw [h1, hstored]; rfl, by rw [h1, hkind.1]; rfl, ?_, ?_, ?_, ?_, by rw [h2]⟩
  · rcases h3 with h3 | h3 <;> rw [h3]
    · exact hn
    · -- an unloaded child stands for a node of 32 bytes or more
      cases force with
      | true => trivial
      | false => exact ⟨_, hfit.1.symm, hfit.2.resolve_left Bool.false_ne_true⟩
  · rcases h3 with h3 | h3 <;> rw [h3]
    rw [hstored]
    rfl
  · rcases h3 with h3 | h3 <;> rw [h3, hkind.1]
    rfl
  · intro w
    rcases h3 with h3 | h3 <;> rw [h3]
    simp [hnv w]

/-- The loop over a full node's nibble children, when hashing each child refines: the collapsed
node writes the full node's collapsed form, the kept children keep their references and their
caches, and a database stays a database. -/
theorem full_loop {h : Hasher} {cs : Fin 17 → Node} (f : NodeFlag) (db : Option Database)
    (hchild : ∀ (j : Fin 16) d,
      Refines keccak false (cs j.castSucc) d (h.hash keccak (cs j.castSucc) d false))
    (hcs : ∀ j : Fin 16, CachesHold keccak false (cs j.castSucc)) :
    let r := (List.finRange 16).foldl (Hasher.childrenStep
      (fun i db => h.hash keccak (cs i.castSucc) db false) fun i => (cs i.castSucc).isEmpty)
      (cs, cs, db)
    (Node.full (Function.update r.1 16 (if (cs 16).isEmpty then .value [] else cs 16)) f).toValue =
        (Node.full cs f).collapsed keccak ∧
      (∀ f', (Node.full r.2.1 f').collapsed keccak = (Node.full cs f).collapsed keccak) ∧
      (∀ j : Fin 16, CachesHold keccak false (r.2.1 j.castSucc)) ∧
      r.2.2.isSome = db.isSome := by
  obtain ⟨-, hmiss, hhit, -, hlast'⟩ := @Hasher.foldl_childrenStep
    (fun i db => h.hash keccak (cs i.castSucc) db false)
    (fun i => (cs i.castSucc).isEmpty) (List.finRange 16)
    (List.nodup_finRange 16) (cs, cs, db)
  have hdb := @Hasher.foldl_childrenStep_db
    (fun i db => h.hash keccak (cs i.castSucc) db false)
    (fun i => (cs i.castSucc).isEmpty) (fun d => d.isSome = db.isSome)
    (fun j d _ hd => ((hchild j d).db_isSome).trans hd) (List.finRange 16) (cs, cs, db) rfl
  generalize (List.finRange 16).foldl (Hasher.childrenStep
    (fun i db => h.hash keccak (cs i.castSucc) db false) fun i => (cs i.castSucc).isEmpty)
    (cs, cs, db) = r at hmiss hhit hlast' hdb ⊢
  -- each nibble child is missing, or hashed with the database of its turn
  have hj : ∀ j : Fin 16,
      (r.1 j.castSucc).toValue = (if (cs j.castSucc).isEmpty then .bytes []
        else storedValue keccak (cs j.castSucc) ((cs j.castSucc).collapsed keccak) false) ∧
      (r.2.1 j.castSucc).isEmpty = (cs j.castSucc).isEmpty ∧
      storedValue keccak (r.2.1 j.castSucc) ((r.2.1 j.castSucc).collapsed keccak) false =
        storedValue keccak (cs j.castSucc) ((cs j.castSucc).collapsed keccak) false ∧
      CachesHold keccak false (r.2.1 j.castSucc) := by
    intro j
    cases hm : (cs j.castSucc).isEmpty with
    | true =>
      obtain ⟨h1, h2⟩ := hmiss j (List.mem_finRange j) hm
      rw [h1, h2, hm]
      exact ⟨rfl, rfl, rfl, hcs j⟩
    | false =>
      obtain ⟨d, h1, h2⟩ := hhit j (List.mem_finRange j) hm
      have R := hchild j d
      rw [h1, h2, R.ref_eq, R.kept_empty, R.kept_ref, hm]
      exact ⟨rfl, rfl, rfl, R.holds⟩
  refine ⟨?_, fun f' => collapsed_full_congr keccak f f' (fun j => (hj j).2.1)
    (fun j => (hj j).2.2.1) (hlast'.trans rfl), fun j => (hj j).2.2.2, hdb⟩
  refine toValue_full_eq_collapsed keccak f f (fun j => ?_) (Function.update_self _ _ _)
  have hj16 : j.castSucc ≠ (16 : Fin 17) := Fin.castSucc_ne_last j
  rw [Function.update_of_ne hj16]
  exact (hj j).1

/-- A short node's child, when hashing it refines: a value is left as it is, and the collapsed
node writes the short node's collapsed form. -/
theorem short_child {h : Hasher} (k : List UInt8) {v : Node} (f : NodeFlag) (db : Option Database)
    (hchild : ∀ d, Refines keccak false v d (h.hash keccak v d false))
    (hv : CachesHold keccak false v) :
    let c := if v.isValue then (v, v, db) else h.hash keccak v db false
    (Node.short (hexToCompact k) (if c.1.isEmpty then .value [] else c.1) f).toValue =
        (Node.short k v f).collapsed keccak ∧
      (∀ f', (Node.short k c.2.1 f').collapsed keccak = (Node.short k v f).collapsed keccak) ∧
      CachesHold keccak false c.2.1 ∧ c.2.2.isSome = db.isSome := by
  by_cases hval : ∃ w, v = .value w
  · -- a value child is neither hashed nor stored
    obtain ⟨w, rfl⟩ := hval
    exact ⟨rfl, fun _ => rfl, trivial, rfl⟩
  · have hnv : ∀ w, v ≠ .value w := fun w hw => hval ⟨w, hw⟩
    have hm : v.isValue = false := by
      cases v with
      | value w => exact absurd rfl (hnv w)
      | _ => rfl
    simp only [hm, Bool.false_eq_true, if_false]
    have R := hchild db
    generalize h.hash keccak v db false = c at R ⊢
    refine ⟨?_, fun f' => ?_, R.holds, R.db_isSome⟩
    · -- an empty value for a missing child, else the child's reference
      simp only [Node.toValue, Node.collapsed, shortChild_of_not_value hnv, R.ref_empty]
      split <;> simp [Node.toValue, R.ref_eq]
    · simp only [Node.collapsed]
      rw [shortChild_congr R.kept_value R.kept_empty R.kept_ref]

/-- **The hasher computes the references from scratch.** Under `CachesHold`, what `hash` returns
for a node is its reference computed with nothing cached, whatever the database, and the node it
keeps has the same reference and again satisfies `CachesHold`. -/
theorem hash_ref (h : Hasher) (n : Node) :
    ∀ (db : Option Database) (force : Bool), CachesHold keccak force n →
      Refines keccak force n db (h.hash keccak n db force) := by
  induction n with
  | full cs f ih =>
    intro db force hn
    cases hc : h.cached (.full cs f) db with
    | some r =>
      rw [Hasher.hash.eq_def, hc]
      exact refines_of_cached keccak hn hn.1 hc
    | none =>
      rw [Hasher.hash.eq_def, hc]
      dsimp only
      obtain ⟨hcoll, hkept, hholds, hdb⟩ :=
        full_loop keccak f db (fun j d => ih j.castSucc d false (hn.2 j)) hn.2
      generalize (List.finRange 16).foldl (Hasher.childrenStep
        (fun i db => h.hash keccak (cs i.castSucc) db false) fun i => (cs i.castSucc).isEmpty)
        (cs, cs, db) = r at hcoll hkept hholds hdb ⊢
      obtain ⟨sref, sfits, sne, sdb⟩ := store_ref keccak ⟨rfl, rfl⟩ hcoll force hn.1 r.2.2
      refine ⟨sref, by rw [sne]; rfl, ⟨fun x hx => ?_, hholds⟩, ?_, rfl, by simp, by rw [sdb, hdb]⟩
      · rw [hkept]
        exact sfits x hx
      · rw [hkept]
        rfl
  | short k v f ih =>
    intro db force hn
    cases hc : h.cached (.short k v f) db with
    | some r =>
      rw [Hasher.hash.eq_def, hc]
      exact refines_of_cached keccak hn hn.1 hc
    | none =>
      rw [Hasher.hash.eq_def, hc]
      dsimp only
      obtain ⟨hcoll, hkept, hholds, hdb⟩ := short_child keccak k f db (fun d => ih d false hn.2) hn.2
      generalize (if v.isValue then (v, v, db) else h.hash keccak v db false) = c
        at hcoll hkept hholds hdb ⊢
      obtain ⟨sref, sfits, sne, sdb⟩ := store_ref keccak ⟨rfl, rfl⟩ hcoll force hn.1 c.2.2
      refine ⟨sref, by rw [sne]; rfl, ⟨fun x hx => ?_, hholds⟩, ?_, rfl, by simp, sdb.trans hdb⟩
      · rw [hkept]
        exact sfits x hx
      · rw [hkept]
        rfl
  | hash x =>
    intro db force hn
    rw [Hasher.hash.eq_def, cached_of_no_cache rfl]
    exact ⟨rfl, rfl, hn, rfl, rfl, by simp, rfl⟩
  | value w =>
    intro db force hn
    rw [Hasher.hash.eq_def, cached_of_no_cache rfl]
    obtain ⟨sref, -, sne, sdb⟩ := store_ref keccak (c := .value w) ⟨rfl, rfl⟩ rfl force
      (fun x hx => by simp [Node.cache] at hx) db
    exact ⟨sref, sne, hn, rfl, rfl, fun _ => Iff.rfl, sdb⟩
  | empty =>
    intro db force hn
    rw [Hasher.hash.eq_def, cached_of_no_cache rfl]
    exact ⟨rfl, rfl, hn, rfl, rfl, by simp, rfl⟩

/-- The node the hasher keeps is again well-formed: its key and value slot are kept, and each
kept child is a value exactly when the child was. -/
theorem hash_wellFormed (h : Hasher) (n : Node) :
    ∀ (db : Option Database) (force : Bool), n.WellFormed → CachesHold keccak force n →
      (h.hash keccak n db force).2.1.WellFormed := by
  induction n with
  | full cs f ih =>
    intro db force hwf hn
    cases hc : h.cached (.full cs f) db with
    | some r =>
      rw [Hasher.hash.eq_def, hc]
      obtain ⟨x, -, -, -, hr | hr⟩ := cached_eq_some hc <;> rw [hr]
      · exact hwf
      · trivial
    | none =>
      rw [Hasher.hash.eq_def, hc]
      dsimp only
      obtain ⟨-, hmiss, hhit, -, hlast⟩ := @Hasher.foldl_childrenStep
        (fun i db => h.hash keccak (cs i.castSucc) db false)
        (fun i => (cs i.castSucc).isEmpty) (List.finRange 16)
        (List.nodup_finRange 16) (cs, cs, db)
      generalize (List.finRange 16).foldl (Hasher.childrenStep
        (fun i db => h.hash keccak (cs i.castSucc) db false) fun i => (cs i.castSucc).isEmpty)
        (cs, cs, db) = r at hmiss hhit hlast ⊢
      obtain ⟨hslot, hnib, hall⟩ := hwf
      -- each nibble child is kept as it is, or as the hasher keeps it
      have hj : ∀ j : Fin 16, (∀ w, r.2.1 j.castSucc ≠ .value w) ∧ (r.2.1 j.castSucc).WellFormed := by
        intro j
        cases hm : (cs j.castSucc).isEmpty with
        | true =>
          rw [(hmiss j (List.mem_finRange j) hm).2]
          exact ⟨hnib j, hall _⟩
        | false =>
          obtain ⟨d, -, h2⟩ := hhit j (List.mem_finRange j) hm
          rw [h2]
          exact ⟨fun w hw => hnib j w ((hash_ref keccak h _ d false (hn.2 j)).kept_value w |>.mp hw),
            ih j.castSucc d false (hall _) (hn.2 j)⟩
      refine ⟨?_, fun j => (hj j).1, fun i => Fin.lastCases ?_ (fun j => (hj j).2) i⟩
      · change r.2.1 (Fin.last 16) = _ ∨ ∃ w, r.2.1 (Fin.last 16) = _
        rw [hlast]
        exact hslot
      · rw [hlast]
        exact hall _
  | short k v f ih =>
    intro db force hwf hn
    cases hc : h.cached (.short k v f) db with
    | some r =>
      rw [Hasher.hash.eq_def, hc]
      obtain ⟨x, -, -, -, hr | hr⟩ := cached_eq_some hc <;> rw [hr]
      · exact hwf
      · trivial
    | none =>
      rw [Hasher.hash.eq_def, hc]
      dsimp only
      obtain ⟨hk, hlen, hterm, hv⟩ := hwf
      refine ⟨hk, hlen, ?_, ?_⟩
      · -- a value child is kept as it is; any other is kept as a node of its kind
        split
        · exact hterm
        · exact hterm.trans (exists_congr fun w =>
            ((hash_ref keccak h v db false hn.2).kept_value w).symm)
      · split
        · exact hv
        · exact ih db false hv hn.2
  | hash x =>
    intro db force hwf _
    rw [Hasher.hash.eq_def, cached_of_no_cache rfl]
    exact hwf
  | value w =>
    intro db force hwf _
    rw [Hasher.hash.eq_def, cached_of_no_cache rfl]
    exact hwf
  | empty =>
    intro db force hwf _
    rw [Hasher.hash.eq_def, cached_of_no_cache rfl]
    exact hwf

/-- A forced store of a node other than `nil` gives a hash node. -/
theorem store_force_isHash {c : Node} (hc : c.isEmpty = false) (db : Option Database) :
    ∃ y, (store keccak c db true).1 = .hash y := by
  cases c with
  | empty => simp [Node.isEmpty] at hc
  | hash x => exact ⟨x, rfl⟩
  | _ => simp [store]

/-- The root, which is hashed by force, is always given a hash node. -/
theorem hash_force_isHash (h : Hasher) {n : Node} (hn : n.isEmpty = false) (db : Option Database) :
    ∃ y, (h.hash keccak n db true).1 = .hash y := by
  cases hc : h.cached n db with
  | some r =>
    rw [Hasher.hash.eq_def, hc]
    obtain ⟨x, -, hr, -⟩ := cached_eq_some hc
    exact ⟨x, hr⟩
  | none =>
    rw [Hasher.hash.eq_def, hc]
    cases n with
    | full cs f => exact store_force_isHash keccak rfl _
    | short k v f => exact store_force_isHash keccak rfl _
    | _ => exact store_force_isHash keccak hn db

/-! ### What the hasher stores -/

/-- Every encoding a database holds, as `Database.Node` reads it, satisfies `good`. -/
def BlobsHold (good : Hash → List UInt8 → Prop) (db : Option Database) : Prop :=
  ∀ d ∈ db, ∀ x b, d.node x = some b → good x b

/-- Counting references changes no encoding. -/
theorem node_foldl_reference (parent : Hash) (l : List Hash) (db : Database) (x : Hash) :
    (l.foldl (fun db child => (db.reference child parent).getD db) db).node x = db.node x := by
  induction l generalizing db with
  | nil => rfl
  | cons c l ih =>
    rw [List.foldl_cons, ih]
    cases hr : db.reference c parent with
    | none => rfl
    | some db' => exact Database.node_reference hr x

/-- What `store` adds to a database is the node's encoding `e` under the hash of `e`. -/
theorem store_blobs (good : Hash → List UInt8 → Prop) {c : Node}
    (hkind : c.isEmpty = false ∧ c.asHash = none) {e : Value} (hc : c.toValue = e) {force : Bool}
    (hfit : ∀ x, c.cache.1 = some x → HashFits keccak e force x)
    (hgood : good (keccak e.encode) e.encode) {db : Option Database} (hdb : BlobsHold good db) :
    BlobsHold good (store keccak c db force).2 := by
  have henc : c.encode = e.encode := by rw [Node.encode, hc]
  have hhash : c.cache.1.getD (keccak e.encode) = keccak e.encode := by
    cases hcache : c.cache.1 with
    | none => rfl
    | some x => exact (hfit x hcache).1
  cases c with
  | empty => simp [Node.isEmpty] at hkind
  | hash h => simp [Node.asHash] at hkind
  | _ =>
    simp only [store, henc, hhash]
    split_ifs
    · exact hdb
    · intro d' hd' x b hb
      obtain ⟨d, hd, rfl⟩ := Option.mem_map.mp hd'
      rw [node_foldl_reference, Database.node_insert] at hb
      split_ifs at hb with hx
      · cases hb
        rw [hx.1]
        exact hgood
      · exact hdb d hd x b hb

/-- **The hasher stores collapsed forms under their hashes.** Hashing a well-formed node for
which the caches hold keeps any property of the database's encodings that every such node's
collapsed form has under its hash. -/
theorem hash_stores (h : Hasher) (good : Hash → List UInt8 → Prop)
    (hgood : ∀ m force, m.isEmpty = false → m.asHash = none → m.WellFormed →
      CachesHold keccak force m → good (keccak (m.collapsed keccak).encode) (m.collapsed keccak).encode)
    (n : Node) : ∀ (db : Option Database) (force : Bool), n.WellFormed →
      CachesHold keccak force n → BlobsHold good db → BlobsHold good (h.hash keccak n db force).2.2 := by
  induction n with
  | full cs f ih =>
    intro db force hwf hn hdb
    cases hc : h.cached (.full cs f) db with
    | some r =>
      rw [Hasher.hash.eq_def, hc]
      obtain ⟨x, -, -, hr, -⟩ := cached_eq_some hc
      rw [hr]
      exact hdb
    | none =>
      rw [Hasher.hash.eq_def, hc]
      dsimp only
      obtain ⟨hcoll, -, -, -⟩ :=
        full_loop keccak f db (fun j d => hash_ref keccak h _ d false (hn.2 j)) hn.2
      have hloop := @Hasher.foldl_childrenStep_db
        (fun i db => h.hash keccak (cs i.castSucc) db false)
        (fun i => (cs i.castSucc).isEmpty) (BlobsHold good)
        (fun j d _ hd => ih j.castSucc d false (hwf.2.2 _) (hn.2 j) hd) (List.finRange 16)
        (cs, cs, db) hdb
      generalize (List.finRange 16).foldl (Hasher.childrenStep
        (fun i db => h.hash keccak (cs i.castSucc) db false) fun i => (cs i.castSucc).isEmpty)
        (cs, cs, db) = r at hcoll hloop ⊢
      exact store_blobs keccak good ⟨rfl, rfl⟩ hcoll hn.1 (hgood _ force rfl rfl hwf hn) hloop
  | short k v f ih =>
    intro db force hwf hn hdb
    cases hc : h.cached (.short k v f) db with
    | some r =>
      rw [Hasher.hash.eq_def, hc]
      obtain ⟨x, -, -, hr, -⟩ := cached_eq_some hc
      rw [hr]
      exact hdb
    | none =>
      rw [Hasher.hash.eq_def, hc]
      dsimp only
      obtain ⟨hcoll, -, -, -⟩ :=
        short_child keccak k f db (fun d => hash_ref keccak h v d false hn.2) hn.2
      -- the child's encodings, when it is hashed
      have hchild : BlobsHold good (if v.isValue then (v, v, db) else h.hash keccak v db false).2.2 := by
        split
        · exact hdb
        · exact ih db false hwf.2.2.2 hn.2 hdb
      generalize (if v.isValue then (v, v, db) else h.hash keccak v db false) = c at hcoll hchild ⊢
      exact store_blobs keccak good ⟨rfl, rfl⟩ hcoll hn.1 (hgood _ force rfl rfl hwf hn) hchild
  | hash x =>
    intro db force _ _ hdb
    rw [Hasher.hash.eq_def, cached_of_no_cache rfl]
    exact hdb
  | value w =>
    intro db force hwf hn hdb
    rw [Hasher.hash.eq_def, cached_of_no_cache rfl]
    exact store_blobs keccak good ⟨rfl, rfl⟩ rfl (fun x hx => by simp [Node.cache] at hx)
      (hgood _ force rfl rfl hwf hn) hdb
  | empty =>
    intro db force _ _ hdb
    rw [Hasher.hash.eq_def, cached_of_no_cache rfl]
    exact hdb

/-! ### A trie with no cached hash -/

@[simp] theorem isEmpty_clear (n : Node) : n.clear.isEmpty = n.isEmpty := by
  cases n <;> rfl

@[simp] theorem clear_eq_value_iff (n : Node) (w : List UInt8) : n.clear = .value w ↔ n = .value w := by
  cases n <;> simp [Node.clear]

theorem toValue_clear (n : Node) : n.clear.toValue = n.toValue := by
  induction n with
  | full cs f ih => simp only [Node.clear, Node.toValue, ih]
  | short k v f ih => simp only [Node.clear, Node.toValue, ih]
  | _ => rfl

theorem storedValue_clear (n : Node) (e : Value) (force : Bool) :
    storedValue keccak n.clear e force = storedValue keccak n e force := by
  cases n <;> rfl

/-- The collapsed form does not read the cached hashes. -/
theorem collapsed_clear (n : Node) : n.clear.collapsed keccak = n.collapsed keccak := by
  induction n with
  | full cs f ih =>
    simp only [Node.clear, Node.collapsed, isEmpty_clear, toValue_clear, storedValue_clear, ih]
  | short k v f ih =>
    simp only [Node.clear, Node.collapsed]
    rw [shortChild_congr (clear_eq_value_iff v) (isEmpty_clear v)
      (by rw [storedValue_clear, ih])]
  | _ => rfl

/-- With no hash cached, the caches hold of any node whose hash nodes stand for large nodes. -/
theorem cachesHold_clear {force : Bool} {n : Node} (hn : CachesHold keccak force n) :
    CachesHold keccak force n.clear := by
  induction n generalizing force with
  | full cs f ih =>
    show CachesHold keccak force (.full (fun i => (cs i).clear) { f with hash := none })
    exact ⟨fun x hx => by simp at hx, fun j => ih j.castSucc (hn.2 j)⟩
  | short k v f ih =>
    show CachesHold keccak force (.short k v.clear { f with hash := none })
    exact ⟨fun x hx => by simp at hx, ih hn.2⟩
  | _ => exact hn

end Keccak

end EpvChain.Trie
