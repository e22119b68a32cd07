import EpvChain.Fast.Hasher
import EpvChain.Process.Raw

/-!
# Decoding stored nodes (`fast/node.go`)

`decodeNode` reads back a node from the encoding the hasher stores: a list of two items is a
short node, a key in compact form and a child; a list of seventeen is a full node. A child is
embedded as a list when its encoding is below 33 bytes, is a 32-byte hash, or is missing (the
empty string). The node gets the hash it was read under and the current cache generation, and
is clean.

The source recurses into an embedded child through `decodeRef`. The model gives `decodeNode`
fuel, one unit per level of embedding; an encoding of `n` bytes nests fewer than `n` levels.
An empty compact key makes the source index past its end and panic: that is the error
`emptyKey`. The source's error values are `DecodeError`s whose stack lists the contexts
`wrapError` added, innermost first; an error with an empty stack is the plain error the source
returns before any context is added.

* `decodeNode_collapsed` — decoding the collapsed form of a well-formed node whose children's
  hashes fit gives a node with that collapsed form, the hash it was read under, and again
  well-formed with fitting children.
-/

namespace EpvChain.Trie

open Rlp

/-- What went wrong decoding a node.
Source: `fast/node.go` `decodeNode`, `decodeShort`, `decodeFull`, `decodeRef` -/
inductive NodeError where
  /-- `io.ErrUnexpectedEOF`: nothing to decode. -/
  | unexpectedEOF
  /-- `"decode error: %v"`: the buffer is not a list. -/
  | decode (e : StreamError)
  /-- `"invalid number of list elements: %v"`. -/
  | elements (c : Nat)
  /-- An error of `rlp.Split` or `rlp.SplitString` passed on as it is. -/
  | rlp (e : StreamError)
  /-- `"invalid value node: %v"`: a terminated short node's value is not a string. -/
  | invalidValue (e : StreamError)
  /-- `"oversized embedded node (size is %d bytes, want size < %d)"`. -/
  | oversized (size : Nat)
  /-- `"invalid RLP string size %d (want 0 or 32)"`. -/
  | stringSize (size : Nat)
  /-- `compactToHex` of an empty key: the source panics. -/
  | emptyKey
  /-- The fuel ran out. -/
  | outOfFuel
  deriving DecidableEq, Repr

/-- The context `wrapError` adds: `"short"`, `"full"`, `"val"` and `"[i]"`.
Source: `fast/node.go` -/
inductive DecodeCtx where
  | short
  | full
  | val
  | child (i : Nat)
  deriving DecidableEq, Repr

/-- `decodeError`: the error and the contexts it passed through, innermost first.
Source: `fast/node.go` `type decodeError struct` -/
structure DecodeError where
  what : NodeError
  stack : List DecodeCtx
  deriving DecidableEq, Repr

/-- `wrapError`: add a context to the stack.
Source: `fast/node.go` `wrapError` -/
def wrapError (ctx : DecodeCtx) (e : DecodeError) : DecodeError :=
  { e with stack := e.stack ++ [ctx] }

/-- `decodeRef`: a child in its parent's encoding, and what follows it. An embedded node is
decoded from the whole buffer, whose first item it is.
Source: `fast/node.go` `decodeRef` -/
def decodeRef (decodeNode : List UInt8 → Except DecodeError Node) (buf : List UInt8) :
    Except DecodeError (Node × List UInt8) :=
  match split buf with
  | .error e => .error ⟨.rlp e, []⟩
  | .ok (kind, val, rest) =>
    match kind with
    | .list =>
      let size := buf.length - rest.length
      if size > HashLength then .error ⟨.oversized size, []⟩
      else (decodeNode buf).map fun n => (n, rest)
    | .string =>
      if val.length = 0 then .ok (.empty, rest)
      else if val.length = 32 then .ok (.hash (bytesToHash val), rest)
      else .error ⟨.stringSize val.length, []⟩
    | .byte => .error ⟨.stringSize val.length, []⟩

/-- `decodeShort`: the compact key, then a value when the key is terminated, else a child.
Source: `fast/node.go` `decodeShort` -/
def decodeShort (decodeRef : List UInt8 → Except DecodeError (Node × List UInt8))
    (hash : Option Hash) (elems : List UInt8) (cachegen : UInt16) : Except DecodeError Node :=
  match splitString elems with
  | .error e => .error ⟨.rlp e, []⟩
  | .ok (kbuf, rest) =>
    let flag : NodeFlag := { hash := hash, gen := cachegen, dirty := false }
    match compactToHex kbuf with
    | none => .error ⟨.emptyKey, []⟩
    | some key =>
      if hasTerm key then
        match splitString rest with
        | .error e => .error ⟨.invalidValue e, []⟩
        | .ok (val, _) => .ok (.short key (.value val) flag)
      else
        match decodeRef rest with
        | .error e => .error (wrapError .val e)
        | .ok (r, _) => .ok (.short key r flag)

/-- The loop of `decodeFull` over `n` children from the `i`-th on.
Source: `fast/node.go` `decodeFull` -/
def decodeChildren (decodeRef : List UInt8 → Except DecodeError (Node × List UInt8)) :
    Nat → Nat → List UInt8 → Except DecodeError (List Node × List UInt8)
  | 0, _, elems => .ok ([], elems)
  | n + 1, i, elems =>
    match decodeRef elems with
    | .error e => .error (wrapError (.child i) e)
    | .ok (cld, rest) =>
      (decodeChildren decodeRef n (i + 1) rest).map fun (cs, rest) => (cld :: cs, rest)

/-- `decodeFull`: sixteen children, then the value, which is missing when empty.
Source: `fast/node.go` `decodeFull` -/
def decodeFull (decodeRef : List UInt8 → Except DecodeError (Node × List UInt8))
    (hash : Option Hash) (elems : List UInt8) (cachegen : UInt16) : Except DecodeError Node :=
  match decodeChildren decodeRef 16 0 elems with
  | .error e => .error e
  | .ok (children, elems) =>
    match splitString elems with
    | .error e => .error ⟨.rlp e, []⟩
    | .ok (val, _) =>
      let slot : Node := if val.length > 0 then .value val else .empty
      .ok (.full (fun i => if i = Fin.last 16 then slot else children.getD i.val .empty)
        { hash := hash, gen := cachegen, dirty := false })

/-- `decodeNode`: a short or a full node by the number of items in the list. The count of a
malformed content is zero.
Source: `fast/node.go` `decodeNode` -/
def decodeNode : Nat → Option Hash → List UInt8 → UInt16 → Except DecodeError Node
  | 0, _, _, _ => .error ⟨.outOfFuel, []⟩
  | fuel + 1, hash, buf, cachegen =>
    if buf = [] then .error ⟨.unexpectedEOF, []⟩
    else
      match splitList buf with
      | .error e => .error ⟨.decode e, []⟩
      | .ok (elems, _) =>
        let ref := decodeRef (fun b => decodeNode fuel none b cachegen)
        let c := match countValues elems with
          | .ok c => c
          | .error _ => 0
        if c = 2 then (decodeShort ref hash elems cachegen).mapError (wrapError .short)
        else if c = 17 then (decodeFull ref hash elems cachegen).mapError (wrapError .full)
        else .error ⟨.elements c, []⟩

/-! ### Reading back an encoding -/

@[simp] theorem mapError_eq_ok {α ε ε' : Type} {x : Except ε α} {f : ε → ε'} {a : α} :
    x.mapError f = .ok a ↔ x = .ok a := by
  cases x <;> simp [Except.mapError]

section Ref

variable {dec : List UInt8 → Except DecodeError Node} {rest rest' : List UInt8} {r : Node}

/-- A string in a child's place is a missing child when empty and a hash when 32 bytes long. -/
theorem decodeRef_bytes_ok {b : List UInt8} (hv : (Value.bytes b).encode.length < 2 ^ 64)
    (h : decodeRef dec ((Value.bytes b).encode ++ rest) = .ok (r, rest')) :
    rest' = rest ∧ (b = [] ∧ r = .empty ∨ b.length = 32 ∧ r = .hash (bytesToHash b)) := by
  rw [decodeRef, split_encode _ hv] at h
  simp only [Value.content] at h
  cases hk : (Value.bytes b).kind with
  | list => exact absurd hk (kind_bytes_ne_list b)
  | byte => simp [hk] at h
  | string =>
    simp only [hk] at h
    by_cases h0 : b.length = 0
    · simp only [h0, if_true, Except.ok.injEq, Prod.mk.injEq] at h
      obtain ⟨rfl, rfl⟩ := h
      exact ⟨rfl, .inl ⟨List.eq_nil_of_length_eq_zero h0, rfl⟩⟩
    · by_cases h32 : b.length = 32
      · simp [h32] at h
        obtain ⟨rfl, rfl⟩ := h
        exact ⟨rfl, .inr ⟨h32, rfl⟩⟩
      · simp [h0, h32] at h

/-- An embedded node below 33 bytes is decoded from the buffer it starts. -/
theorem decodeRef_list_ok {vs : List Value} (hsmall : (Value.list vs).encode.length ≤ 32)
    (h : decodeRef dec ((Value.list vs).encode ++ rest) = .ok (r, rest')) :
    rest' = rest ∧ dec ((Value.list vs).encode ++ rest) = .ok r := by
  rw [decodeRef, split_encode _ (by omega)] at h
  simp only [Value.kind, List.length_append, Nat.add_sub_cancel, HashLength] at h
  rw [if_neg (by omega)] at h
  obtain ⟨m, hm, hpair⟩ := map_eq_ok h
  cases hpair
  exact ⟨rfl, hm⟩

theorem decodeRef_hash (x : Hash) :
    decodeRef dec ((Value.bytes x.toBytes).encode ++ rest) = .ok (.hash x, rest) := by
  have hlen : x.toBytes.length = 32 := Hash.length_toBytes x
  have hv : (Value.bytes x.toBytes).encode.length < 2 ^ 64 := by
    have := length_encodeBytes_le (b := x.toBytes) (by omega)
    rw [encode_bytes]
    omega
  rw [decodeRef, split_encode _ hv, kind_bytes_of_two_le (by omega)]
  simp only [Value.content, hlen, bytesToHash_toBytes]
  rfl

end Ref

/-! ### What decoding gives back -/

/-- A full or a short node: what `decodeNode` returns. -/
def Node.isInner : Node → Bool
  | .full .. | .short .. => true
  | _ => false

attribute [local simp] Node.isInner

theorem kind_of_isInner {n : Node} (h : n.isInner) : n.isEmpty = false ∧ n.asHash = none := by
  cases n <;> simp_all [Node.isInner, Node.isEmpty, Node.asHash]

theorem ne_value_of_isInner {n : Node} (h : n.isInner) (w : List UInt8) : n ≠ .value w := by
  rintro rfl
  simp [Node.isInner] at h

/-- How a full node's collapsed form writes its value slot: the empty string when the slot is
missing, else the value. -/
def slotValue (c : Node) : Value := if c.isEmpty then .bytes [] else c.toValue

/-- The value slot `decodeFull` builds from the string it read writes that string back. -/
theorem slotValue_decoded (w : List UInt8) :
    slotValue (if w.length > 0 then .value w else .empty) = .bytes w := by
  cases w with
  | nil => rfl
  | cons b w => rfl

/-- A well-formed value slot is written as a string shorter than `2 ^ 63`. -/
theorem slotValue_of_wellFormed {c : Node} (hslot : c = .empty ∨ ∃ w, c = .value w)
    (hwf : c.WellFormed) : ∃ w, slotValue c = .bytes w ∧ w.length < 2 ^ 63 := by
  rcases hslot with rfl | ⟨w, rfl⟩
  · exact ⟨[], rfl, by simp⟩
  · exact ⟨w, rfl, hwf⟩

/-! ### The steps of `decodeNode` -/

section Steps

variable {dr : List UInt8 → Except DecodeError (Node × List UInt8)} {hash : Option Hash}
  {cachegen : UInt16} {m : Node}

/-- `SplitString` of an encoding succeeds only on a string. -/
theorem splitString_encode_ok {v : Value} (hv : v.encode.length < 2 ^ 64) {rest val rest' : List UInt8}
    (h : splitString (v.encode ++ rest) = .ok (val, rest')) : v = .bytes val ∧ rest' = rest := by
  cases v with
  | bytes b =>
    rw [splitString_encode_bytes _ hv] at h
    cases h
    exact ⟨rfl, rfl⟩
  | list vs =>
    rw [splitString, split_encode _ hv] at h
    cases h

/-- The children loop reads one child a reference, each as `dr` reads it. -/
theorem decodeChildren_encodeAll {G : Value → Node → Prop} {vs : List Value}
    (hv : ∀ v ∈ vs, ∀ rest r rest', dr (v.encode ++ rest) = .ok (r, rest') → rest' = rest ∧ G v r)
    {n i : Nat} (hn : vs.length = n) {rest : List UInt8} {cs : List Node} {rest' : List UInt8}
    (h : decodeChildren dr n i (Value.encodeAll vs ++ rest) = .ok (cs, rest')) :
    rest' = rest ∧ List.Forall₂ G vs cs := by
  induction vs generalizing n i cs rest' with
  | nil =>
    subst hn
    rw [encodeAll_nil, List.nil_append] at h
    cases h
    exact ⟨rfl, .nil⟩
  | cons v vs ih =>
    subst hn
    rw [List.length_cons, encodeAll_cons, List.append_assoc, decodeChildren] at h
    split at h
    · cases h
    · rename_i cld rest1 hcld
      obtain ⟨rfl, hG⟩ := hv v (by simp) _ _ _ hcld
      obtain ⟨⟨cs', rest2⟩, hrec, hpair⟩ := map_eq_ok h
      cases hpair
      obtain ⟨rfl, hall⟩ := ih (fun w hw => hv w (by simp [hw])) rfl hrec
      exact ⟨rfl, .cons hG hall⟩

theorem forall₂_ofFn_getD {α : Type} {G : α → Node → Prop} {n : Nat} {g : Fin n → α}
    {cs : List Node} (h : List.Forall₂ G (List.ofFn g) cs) (j : Fin n) :
    G (g j) (cs.getD j .empty) := by
  have hlen : cs.length = n := by rw [← h.length_eq, List.length_ofFn]
  have hj := h.get (i := j) (by simp) (by omega)
  simpa [List.getD_eq_getElem?_getD, List.getElem?_eq_getElem (show j.val < cs.length by omega)]
    using hj

theorem decodeFull_ok {elems : List UInt8} (h : decodeFull dr hash elems cachegen = .ok m) :
    ∃ children rest val rest',
      decodeChildren dr 16 0 elems = .ok (children, rest) ∧ splitString rest = .ok (val, rest') ∧
      m = .full (fun i => if i = Fin.last 16 then (if val.length > 0 then .value val else .empty)
        else children.getD i.val .empty) { hash := hash, gen := cachegen, dirty := false } := by
  unfold decodeFull at h
  split at h
  · cases h
  · rename_i children rest hch
    split at h
    · cases h
    · rename_i val rest' hval
      cases h
      exact ⟨children, rest, val, rest', hch, hval, rfl⟩

theorem decodeShort_ok {elems : List UInt8} (h : decodeShort dr hash elems cachegen = .ok m) :
    ∃ kbuf rest key, splitString elems = .ok (kbuf, rest) ∧ compactToHex kbuf = some key ∧
      ((hasTerm key = true ∧ ∃ val rest', splitString rest = .ok (val, rest') ∧
          m = .short key (.value val) { hash := hash, gen := cachegen, dirty := false }) ∨
        (hasTerm key = false ∧ ∃ r rest', dr rest = .ok (r, rest') ∧
          m = .short key r { hash := hash, gen := cachegen, dirty := false })) := by
  unfold decodeShort at h
  split at h
  · cases h
  · rename_i kbuf rest hk
    split at h
    · cases h
    · rename_i key hkey
      refine ⟨kbuf, rest, key, hk, hkey, ?_⟩
      split at h
      · rename_i ht
        split at h
        · cases h
        · rename_i val rest' hval
          cases h
          exact .inl ⟨ht, val, rest', hval, rfl⟩
      · rename_i ht
        split at h
        · cases h
        · rename_i r rest' hr
          cases h
          exact .inr ⟨by simpa using ht, r, rest', hr, rfl⟩

/-- `decodeNode` of a list: a short node for two items, a full node for seventeen. -/
theorem decodeNode_list {fuel : Nat} {vs : List Value} (hv : (Value.list vs).encode.length < 2 ^ 64)
    (rest : List UInt8) :
    decodeNode (fuel + 1) hash ((Value.list vs).encode ++ rest) cachegen =
      if vs.length = 2 then
        (decodeShort (decodeRef (fun b => decodeNode fuel none b cachegen)) hash
          (Value.encodeAll vs) cachegen).mapError (wrapError .short)
      else if vs.length = 17 then
        (decodeFull (decodeRef (fun b => decodeNode fuel none b cachegen)) hash
          (Value.encodeAll vs) cachegen).mapError (wrapError .full)
      else .error ⟨.elements vs.length, []⟩ := by
  have hall : (Value.encodeAll vs).length < 2 ^ 64 := by
    rw [encode_list, List.length_append] at hv
    omega
  rw [decodeNode, if_neg (fun h => encode_ne_nil _ (List.append_eq_nil_iff.mp h).1),
    splitList_encode_list _ hv]
  simp only [countValues_encodeAll _ hall]

/-- A string is not a node. -/
theorem decodeNode_bytes {fuel : Nat} {b : List UInt8} (hv : (Value.bytes b).encode.length < 2 ^ 64)
    (rest : List UInt8) :
    decodeNode (fuel + 1) hash ((Value.bytes b).encode ++ rest) cachegen =
      .error ⟨.decode .expectedList, []⟩ := by
  rw [decodeNode, if_neg (fun h => encode_ne_nil _ (List.append_eq_nil_iff.mp h).1),
    splitList_encode_bytes _ hv]

/-- A list of two items whose first is the empty string is a short node with an empty compact
key. `compactToHex` drops the terminator `keybytesToHex` put after no nibbles and reads the flag
nibble of what is left, an empty slice: the source panics there, whatever the second item is and
whatever follows the list. -/
theorem decodeNode_emptyKey {fuel : Nat} {v : Value}
    (hv : (Value.list [.bytes [], v]).encode.length < 2 ^ 64) (rest : List UInt8) :
    decodeNode (fuel + 1) hash ((Value.list [.bytes [], v]).encode ++ rest) cachegen =
      .error ⟨.emptyKey, [.short]⟩ := by
  rw [decodeNode_list hv rest, if_pos (by rfl), encodeAll_cons, decodeShort,
    splitString_encode_bytes [] (by decide) _]
  rfl

/-- The two-item list of empty strings `C2 80 80`, as a database or a proof may hold it. -/
theorem decodeNode_emptyKey_c2 :
    (Value.list [.bytes [], .bytes []]).encode.length < 2 ^ 64 ∧
      decodeNode 1 none [0xC2, 0x80, 0x80] 0 = .error ⟨.emptyKey, [.short]⟩ :=
  ⟨by decide, decodeNode_emptyKey (v := .bytes []) (by decide) []⟩

end Steps

section Keccak

variable (keccak : List UInt8 → Hash)

/-- The reference a parent holds for a child: the empty string for a missing child, else the
child's stored value. -/
def Node.ref (c : Node) : Value :=
  if c.isEmpty then .bytes [] else storedValue keccak c (c.collapsed keccak) false

/-- The part of `CachesHold` below a node: the hashes cached in its children fit. -/
def ChildrenHold : Node → Prop
  | .full cs _ => ∀ i : Fin 16, CachesHold keccak false (cs i.castSucc)
  | .short _ v _ => CachesHold keccak false v
  | _ => True

/-- What decoding the collapsed form of `n` under `hash` gives back: a full or short node with
the same collapsed form and that hash, well-formed, whose children's hashes fit. -/
structure Decoded (n : Node) (hash : Option Hash) (m : Node) : Prop where
  collapsed_eq : m.collapsed keccak = n.collapsed keccak
  hash_eq : m.cache.1 = hash
  children : ChildrenHold keccak m
  wf : m.WellFormed
  inner : m.isInner

/-- What `decodeRef` gives back for the reference `v`: a child with that reference, well-formed,
not a value, whose hashes fit in a child's place. -/
structure RefDecodes (v : Value) (r : Node) : Prop where
  ref_eq : r.ref keccak = v
  holds : CachesHold keccak false r
  wf : r.WellFormed
  not_value : ∀ w, r ≠ .value w

variable {keccak}

theorem childrenHold_of_cachesHold {n : Node} {force : Bool} (h : CachesHold keccak force n) :
    ChildrenHold keccak n := by
  cases n with
  | full cs f => exact h.2
  | short k v f => exact h.2
  | _ => trivial

theorem cachesHold_of_children {n : Node} (hn : n.isInner) (hch : ChildrenHold keccak n)
    {force : Bool} (hfit : ∀ x, n.cache.1 = some x → HashFits keccak (n.collapsed keccak) force x) :
    CachesHold keccak force n := by
  cases n with
  | full cs f => exact ⟨hfit, hch⟩
  | short k v f => exact ⟨hfit, hch⟩
  | _ => simp [Node.isInner] at hn

/-- A node that is neither missing nor a hash is stored as its collapsed form below 32 bytes,
else by the hash of that form. -/
theorem storedValue_cases {n : Node} (hn : n.isEmpty = false ∧ n.asHash = none) (e : Value) :
    e.encode.length < 32 ∧ storedValue keccak n e false = e ∨
      32 ≤ e.encode.length ∧ storedValue keccak n e false = .bytes (keccak e.encode).toBytes := by
  have hs : storedValue keccak n e false =
      if e.encode.length < 32 then e else .bytes (keccak e.encode).toBytes := by
    cases n with
    | empty => simp [Node.isEmpty] at hn
    | hash h => simp [Node.asHash] at hn
    | _ => simp [storedValue]
  rw [hs]
  by_cases h32 : e.encode.length < 32
  · exact .inl ⟨h32, if_pos h32⟩
  · exact .inr ⟨by omega, if_neg h32⟩

theorem storedValue_congr {a b : Node} (ha : a.isEmpty = false ∧ a.asHash = none)
    (hb : b.isEmpty = false ∧ b.asHash = none) (e : Value) (force : Bool) :
    storedValue keccak a e force = storedValue keccak b e force := by
  cases a <;> cases b <;> simp_all [storedValue, Node.isEmpty, Node.asHash]

theorem ref_hash (x : Hash) : (Node.hash x).ref keccak = .bytes x.toBytes := by
  simp [Node.ref, Node.isEmpty, storedValue, Node.collapsed, Node.toValue]

theorem ref_empty : Node.empty.ref keccak = .bytes [] := by
  simp [Node.ref, Node.isEmpty]

/-- A full node's collapsed form: its nibble children's references, then its value slot. -/
theorem collapsed_full (cs : Fin 17 → Node) (f : NodeFlag) :
    (Node.full cs f).collapsed keccak =
      .list ((List.ofFn fun j : Fin 16 => (cs j.castSucc).ref keccak) ++
        [slotValue (cs (Fin.last 16))]) := by
  simp only [Node.collapsed, slotValue]
  rw [List.ofFn_succ', List.concat_eq_append]
  congr 3
  funext j
  have hj : j.castSucc ≠ (16 : Fin 17) := Fin.castSucc_ne_last j
  simp [Node.ref, hj]

theorem collapsed_short (k : List UInt8) (v : Node) (f : NodeFlag) :
    (Node.short k v f).collapsed keccak =
      .list [.bytes (hexToCompact k), shortChild v (storedValue keccak v (v.collapsed keccak) false)] := by
  simp only [Node.collapsed]

/-! ### Lengths -/

theorem length_encode_of_length_32 {w : List UInt8} (hlen : w.length = 32) :
    (Value.bytes w).encode.length = 33 := by
  rw [encode_bytes, encodeBytes_of_not_single (by intro c hc; rw [hc] at hlen; simp at hlen)]
  simp [hlen]

theorem length_encode_hash (x : Hash) : (Value.bytes x.toBytes).encode.length = 33 :=
  length_encode_of_length_32 (Hash.length_toBytes x)

theorem length_encode_bytes_le {w : List UInt8} (h : w.length < 2 ^ 63) :
    (Value.bytes w).encode.length ≤ w.length + 9 := by
  rw [encode_bytes]
  exact length_encodeBytes_le (by omega)

theorem collapsed_hash (x : Hash) : (Node.hash x).collapsed keccak = .bytes x.toBytes := by
  simp [Node.collapsed, Node.toValue]

/-- A stored value is below 32 bytes or a hash: 33 bytes at most. -/
theorem length_storedValue_le (c : Node) :
    (storedValue keccak c (c.collapsed keccak) false).encode.length ≤ 33 := by
  by_cases hk : c.isEmpty = false ∧ c.asHash = none
  · rcases @storedValue_cases keccak _ hk (c.collapsed keccak) with ⟨h32, h⟩ | ⟨_, h⟩ <;>
      rw [h]
    · omega
    · rw [length_encode_hash]
  · cases c with
    | empty => simp [storedValue, Node.collapsed, Node.toValue, header]
    | hash x => rw [storedValue, collapsed_hash, length_encode_hash]
    | _ => simp [Node.isEmpty, Node.asHash] at hk

theorem length_ref_le (c : Node) : (c.ref keccak).encode.length ≤ 33 := by
  unfold Node.ref
  split
  · simp [encodeBytes, header]
  · exact length_storedValue_le c

theorem length_shortChild_lt {v : Node} (hwf : v.WellFormed) :
    (shortChild v (storedValue keccak v (v.collapsed keccak) false)).encode.length < 2 ^ 63 + 34 := by
  have := @length_storedValue_le keccak v
  cases v with
  | value w =>
    have hw : w.length < 2 ^ 63 := hwf
    have := length_encode_bytes_le hw
    simp only [shortChild]
    omega
  | empty => simp [shortChild, encodeBytes, header]
  | _ => simp only [shortChild]; omega

/-- A list whose content leaves room for its header encodes below `2 ^ 64`. -/
theorem length_encode_list_lt {vs : List Value} (h : (Value.encodeAll vs).length < 2 ^ 64 - 9) :
    (Value.list vs).encode.length < 2 ^ 64 := by
  have := length_header_le 0xC0 0xF7 (show (Value.encodeAll vs).length < 2 ^ 64 by omega)
  rw [encode_list, List.length_append]
  omega

/-- A well-formed node's collapsed form encodes below `2 ^ 64`: every reference takes at most
33 bytes, and a value or a compact key less than `2 ^ 63`. -/
theorem length_collapsed_lt {n : Node} (hwf : n.WellFormed) :
    (n.collapsed keccak).encode.length < 2 ^ 64 := by
  cases n with
  | empty => simp [Node.collapsed, Node.toValue, header]
  | hash x => rw [collapsed_hash, length_encode_hash]; omega
  | value w =>
    have hw : w.length < 2 ^ 63 := hwf
    have := length_encode_bytes_le hw
    simp only [Node.collapsed, Node.toValue]
    omega
  | full cs f =>
    obtain ⟨hslot, -, hall⟩ := hwf
    rw [collapsed_full]
    apply length_encode_list_lt
    have hrefs := @length_encodeAll_le (List.ofFn fun j : Fin 16 => (cs j.castSucc).ref keccak) 33
      (by simp only [List.mem_ofFn]; rintro v ⟨j, rfl⟩; exact length_ref_le _)
    -- the value slot is a string shorter than `2 ^ 63`
    obtain ⟨w, hw, hlen⟩ := slotValue_of_wellFormed (c := cs (Fin.last 16)) hslot (hall _)
    have hlast := length_encode_bytes_le hlen
    rw [encodeAll_append, hw]
    simp only [List.length_append, encodeAll_cons, encodeAll_nil, List.append_nil] at hrefs ⊢
    simp only [List.length_ofFn] at hrefs
    omega
  | short k v f =>
    obtain ⟨-, hk, -, hv⟩ := hwf
    rw [collapsed_short]
    apply length_encode_list_lt
    have hkey := length_encode_bytes_le (w := hexToCompact k)
      (by have := length_hexToCompact k; omega)
    have := length_hexToCompact k
    have := @length_shortChild_lt keccak _ hv
    simp only [encodeAll_cons, encodeAll_nil, List.append_nil, List.length_append]
    omega

/-! ### Reading back a reference -/

theorem ref_of_isInner {n : Node} (hn : n.isInner) :
    n.ref keccak = storedValue keccak n (n.collapsed keccak) false := by
  simp [Node.ref, (kind_of_isInner hn).1]

theorem collapsed_list_of_isInner {n : Node} (hn : n.isInner) :
    ∃ vs, n.collapsed keccak = .list vs := by
  cases n with
  | full cs f => exact ⟨_, collapsed_full cs f⟩
  | short k v f => exact ⟨_, collapsed_short k v f⟩
  | _ => simp [Node.isInner] at hn

/-- A child decoded from its parent's embedding has the reference it had there. -/
theorem refDecodes_of_decoded {c m : Node} (hc : c.isInner) (hd : Decoded keccak c none m) :
    RefDecodes keccak (c.ref keccak) m where
  ref_eq := by
    rw [ref_of_isInner hd.inner, ref_of_isInner hc, hd.collapsed_eq,
      storedValue_congr (kind_of_isInner hd.inner) (kind_of_isInner hc)]
  holds := cachesHold_of_children hd.inner hd.children (fun x hx => by
    rw [hd.hash_eq] at hx
    cases hx)
  wf := hd.wf
  not_value := ne_value_of_isInner hd.inner

/-- A node stored by hash reads back as that hash; one embedded as it is reads back as `hsmall`
says. -/
theorem decodeRef_stored {dec : List UInt8 → Except DecodeError Node} {c : Node}
    (hk : c.isEmpty = false ∧ c.asHash = none) {rest rest' : List UInt8} {r : Node}
    (hsmall : (c.collapsed keccak).encode.length < 32 → c.ref keccak = c.collapsed keccak →
      decodeRef dec ((c.collapsed keccak).encode ++ rest) = .ok (r, rest') →
      rest' = rest ∧ RefDecodes keccak (c.ref keccak) r)
    (h : decodeRef dec ((c.ref keccak).encode ++ rest) = .ok (r, rest')) :
    rest' = rest ∧ RefDecodes keccak (c.ref keccak) r := by
  have href : c.ref keccak = storedValue keccak c (c.collapsed keccak) false := by
    simp [Node.ref, hk.1]
  rcases @storedValue_cases keccak _ hk (c.collapsed keccak) with ⟨h32, hs⟩ | ⟨h32, hs⟩
  · rw [href, hs] at h
    exact hsmall h32 (href.trans hs) h
  · -- a hash reference stands for an encoding of 32 bytes or more
    rw [href, hs, decodeRef_hash] at h
    cases h
    exact ⟨rfl, by rw [href, hs, ref_hash], ⟨_, rfl, h32⟩, trivial, fun w => by simp⟩

/-- A full or short child reads back from its reference: by hash, or embedded as `dec` reads it. -/
theorem decodeRef_inner {dec : List UInt8 → Except DecodeError Node} {c : Node} (hn : c.isInner)
    (hdec : ∀ rest m, dec ((c.collapsed keccak).encode ++ rest) = .ok m → Decoded keccak c none m)
    {rest rest' : List UInt8} {r : Node}
    (h : decodeRef dec ((c.ref keccak).encode ++ rest) = .ok (r, rest')) :
    rest' = rest ∧ RefDecodes keccak (c.ref keccak) r := by
  refine decodeRef_stored (kind_of_isInner hn) (fun h32 _ h => ?_) h
  -- an embedded node is a list below 32 bytes
  obtain ⟨vs, hvs⟩ := @collapsed_list_of_isInner keccak _ hn
  rw [hvs] at h h32
  obtain ⟨rfl, hm⟩ := decodeRef_list_ok (by omega) h
  rw [← hvs] at hm
  exact ⟨rfl, refDecodes_of_decoded hn (hdec _ _ hm)⟩

/-- A child's reference reads back as a child with that reference: a missing child as missing,
a hash as that hash, and an embedded node as `dec` reads it. -/
theorem decodeRef_ref {dec : List UInt8 → Except DecodeError Node} {c : Node}
    (hc : CachesHold keccak false c)
    (hdec : ∀ rest m, dec ((c.collapsed keccak).encode ++ rest) = .ok m → Decoded keccak c none m)
    {rest rest' : List UInt8} {r : Node}
    (h : decodeRef dec ((c.ref keccak).encode ++ rest) = .ok (r, rest')) :
    rest' = rest ∧ RefDecodes keccak (c.ref keccak) r := by
  cases c with
  | empty =>
    rw [ref_empty] at h ⊢
    obtain ⟨rfl, hr⟩ := decodeRef_bytes_ok (by simp [encodeBytes, header]) h
    rcases hr with ⟨-, rfl⟩ | ⟨hlen, -⟩
    · exact ⟨rfl, ref_empty, trivial, trivial, fun w => by simp⟩
    · simp at hlen
  | hash x =>
    rw [ref_hash, decodeRef_hash] at h
    cases h
    exact ⟨rfl, ref_hash x, hc, trivial, fun w => by simp⟩
  | value w =>
    refine decodeRef_stored (by simp [Node.isEmpty, Node.asHash]) (fun h32 href h => ?_) h
    -- a value in a child's place reads back only when empty
    rw [show (Node.value w).collapsed keccak = .bytes w by simp [Node.collapsed, Node.toValue]]
      at h32 href h
    obtain ⟨rfl, hr⟩ := decodeRef_bytes_ok (by omega) h
    rcases hr with ⟨rfl, rfl⟩ | ⟨hlen, -⟩
    · exact ⟨rfl, by rw [href, ref_empty], trivial, trivial, fun w => by simp⟩
    · rw [length_encode_of_length_32 hlen] at h32
      omega
  | full cs f => exact decodeRef_inner rfl hdec h
  | short k v f => exact decodeRef_inner rfl hdec h

/-! ### Reading back a node -/

theorem shortChild_eq_ref {v : Node} (hv : ∀ w, v ≠ .value w) :
    shortChild v (storedValue keccak v (v.collapsed keccak) false) = v.ref keccak := by
  rw [shortChild_of_not_value hv]
  rfl

/-- A short node's child written as a string is shorter than `2 ^ 63`: a value, nothing or a
hash. -/
theorem length_of_shortChild_eq_bytes {v : Node} (hwf : v.WellFormed) {val : List UInt8}
    (h : shortChild v (storedValue keccak v (v.collapsed keccak) false) = .bytes val) :
    val.length < 2 ^ 63 := by
  cases v with
  | value w =>
    simp only [shortChild, Value.bytes.injEq] at h
    subst h
    exact hwf
  | empty =>
    simp only [shortChild, Value.bytes.injEq] at h
    subst h
    simp
  | hash x =>
    simp only [shortChild, storedValue, collapsed_hash, Value.bytes.injEq] at h
    subst h
    simp [HashLength]
  | full cs f =>
    simp only [shortChild] at h
    rcases @storedValue_cases keccak (.full cs f) ⟨rfl, rfl⟩ (Node.collapsed keccak _)
      with ⟨-, hs⟩ | ⟨-, hs⟩ <;> rw [hs] at h
    · rw [collapsed_full] at h
      cases h
    · cases h
      simp [HashLength]
  | short k v f =>
    simp only [shortChild] at h
    rcases @storedValue_cases keccak (.short k v f) ⟨rfl, rfl⟩ (Node.collapsed keccak _)
      with ⟨-, hs⟩ | ⟨-, hs⟩ <;> rw [hs] at h
    · rw [collapsed_short] at h
      cases h
    · cases h
      simp [HashLength]

/-- A full node reads back from its collapsed form when each of its nibble children reads back
from its reference. -/
theorem decoded_full {cs : Fin 17 → Node} {f : NodeFlag} (hwf : (Node.full cs f).WellFormed)
    {dr : List UInt8 → Except DecodeError (Node × List UInt8)}
    (hdr : ∀ j : Fin 16, ∀ rest r rest',
      dr (((cs j.castSucc).ref keccak).encode ++ rest) = .ok (r, rest') →
      rest' = rest ∧ RefDecodes keccak ((cs j.castSucc).ref keccak) r)
    {hash : Option Hash} {cachegen : UInt16} {m : Node}
    (h : decodeFull dr hash (Value.encodeAll ((List.ofFn fun j : Fin 16 => (cs j.castSucc).ref keccak) ++
      [slotValue (cs (Fin.last 16))])) cachegen = .ok m) :
    Decoded keccak (.full cs f) hash m := by
  obtain ⟨hslot, -, hall⟩ := hwf
  obtain ⟨w, hw, hlen⟩ := slotValue_of_wellFormed (c := cs (Fin.last 16)) hslot (hall _)
  obtain ⟨children, rest, val, rest', hch, hval, rfl⟩ := decodeFull_ok h
  rw [encodeAll_append, hw, encodeAll_cons, encodeAll_nil] at hch
  -- the sixteen references, then the value slot
  obtain ⟨rfl, hrefs⟩ := decodeChildren_encodeAll (G := RefDecodes keccak)
    (fun v hv => by
      obtain ⟨j, rfl⟩ := List.mem_ofFn.mp hv
      exact hdr j) List.length_ofFn hch
  have hslotlen : (Value.bytes w).encode.length < 2 ^ 64 := by
    have := length_encode_bytes_le hlen
    omega
  obtain ⟨hbytes, -⟩ := splitString_encode_ok hslotlen hval
  cases hbytes
  have hchild : ∀ j : Fin 16, RefDecodes keccak ((cs j.castSucc).ref keccak) (children.getD j .empty) :=
    forall₂_ofFn_getD hrefs
  have hrefeq : ∀ j : Fin 16, (children.getD j .empty).ref keccak = (cs j.castSucc).ref keccak :=
    fun j => (hchild j).ref_eq
  refine ⟨?_, rfl, fun j => ?_, ⟨?_, fun j => ?_, fun i => ?_⟩, rfl⟩
  · rw [collapsed_full, collapsed_full]
    simp only [Fin.castSucc_ne_last, if_false, if_true, Fin.val_castSucc, hrefeq, slotValue_decoded, hw]
  · simp only [Fin.castSucc_ne_last, if_false, Fin.val_castSucc]
    exact (hchild j).holds
  · -- the value slot holds the value read, or nothing for an empty string
    change (if Fin.last 16 = Fin.last 16 then _ else _) = _ ∨ _
    rw [if_pos rfl]
    split
    · exact .inr ⟨w, rfl⟩
    · exact .inl rfl
  · simp only [Fin.castSucc_ne_last, if_false, Fin.val_castSucc]
    exact (hchild j).not_value
  · refine Fin.lastCases ?_ (fun j => ?_) i
    · simp only [if_true]
      split
      · exact hlen
      · trivial
    · simp only [Fin.castSucc_ne_last, if_false, Fin.val_castSucc]
      exact (hchild j).wf

/-- A short node reads back from its collapsed form when an unterminated key's child reads back
from its reference. -/
theorem decoded_short {k : List UInt8} {v : Node} {f : NodeFlag}
    (hwf : (Node.short k v f).WellFormed)
    {dr : List UInt8 → Except DecodeError (Node × List UInt8)}
    (hdr : hasTerm k = false → ∀ rest r rest',
      dr ((v.ref keccak).encode ++ rest) = .ok (r, rest') →
      rest' = rest ∧ RefDecodes keccak (v.ref keccak) r)
    {hash : Option Hash} {cachegen : UInt16} {m : Node}
    (h : decodeShort dr hash (Value.encodeAll [.bytes (hexToCompact k),
      shortChild v (storedValue keccak v (v.collapsed keccak) false)]) cachegen = .ok m) :
    Decoded keccak (.short k v f) hash m := by
  obtain ⟨hk, hklen, hterm, hv⟩ := hwf
  have hkeylen : (Value.bytes (hexToCompact k)).encode.length < 2 ^ 64 := by
    have := length_hexToCompact k
    have := length_encode_bytes_le (w := hexToCompact k) (by omega)
    omega
  have hchildlen := @length_shortChild_lt keccak _ hv
  obtain ⟨kbuf, rest, key, hsplit, hkey, hcases⟩ := decodeShort_ok h
  rw [encodeAll_cons, encodeAll_cons, encodeAll_nil, splitString_encode_bytes _ hkeylen] at hsplit
  cases hsplit
  rw [compactToHex_hexToCompact hk] at hkey
  cases hkey
  rcases hcases with ⟨ht, val, rest', hval, rfl⟩ | ⟨ht, r, rest', hr, rfl⟩
  · -- a terminated key: the child is written as a string, the value read back
    obtain ⟨hbytes, -⟩ := splitString_encode_ok (by omega) hval
    refine ⟨?_, rfl, trivial, ⟨hk, hklen, ⟨fun _ => ⟨val, rfl⟩, fun _ => ht⟩,
      length_of_shortChild_eq_bytes hv hbytes⟩, rfl⟩
    rw [collapsed_short, collapsed_short, hbytes]
    rfl
  · -- an unterminated key: the child is a reference
    have hnv : ∀ w, v ≠ .value w := fun w hw => by simpa [ht] using hterm.mpr ⟨w, hw⟩
    have hchild := @shortChild_eq_ref keccak _ hnv
    rw [hchild] at hr
    obtain ⟨-, hrd⟩ := hdr ht _ _ _ hr
    refine ⟨?_, rfl, hrd.holds, ⟨hk, hklen, ⟨fun h => by simp [ht] at h,
      fun ⟨w, hw⟩ => absurd hw (hrd.not_value w)⟩, hrd.wf⟩, rfl⟩
    rw [collapsed_short, collapsed_short, shortChild_eq_ref hrd.not_value, hrd.ref_eq, hchild]

/-- Decoding the collapsed form of a well-formed node whose children's hashes fit gives back a
node with that collapsed form and the hash it was read under, again well-formed with fitting
children. The induction is on the node: an embedded child is decoded by the recursive call. -/
theorem decodeNode_collapsed : ∀ (n : Node), n.WellFormed → ChildrenHold keccak n →
    ∀ (fuel : Nat) (hash : Option Hash) (cachegen : UInt16) (rest : List UInt8) (m : Node),
      decodeNode fuel hash ((n.collapsed keccak).encode ++ rest) cachegen = .ok m →
      Decoded keccak n hash m
  | _, _, _, 0, _, _, _, _, h => by simp [decodeNode] at h
  | .empty, _, _, fuel + 1, hash, cachegen, rest, m, h => by
    rw [show Node.empty.collapsed keccak = .list [] by simp [Node.collapsed, Node.toValue],
      decodeNode_list (by simp [header]) rest] at h
    simp at h
  | .hash x, _, _, fuel + 1, hash, cachegen, rest, m, h => by
    rw [collapsed_hash, decodeNode_bytes (by rw [length_encode_hash]; omega)] at h
    cases h
  | .value w, hwf, _, fuel + 1, hash, cachegen, rest, m, h => by
    have hlen := @length_collapsed_lt keccak (.value w) hwf
    rw [show (Node.value w).collapsed keccak = .bytes w by simp [Node.collapsed, Node.toValue]]
      at h hlen
    rw [decodeNode_bytes hlen] at h
    cases h
  | .full cs f, hwf, hch, fuel + 1, hash, cachegen, rest, m, h => by
    have hlen := @length_collapsed_lt keccak _ hwf
    rw [collapsed_full] at h hlen
    rw [decodeNode_list hlen, if_neg (by simp), if_pos (by simp), mapError_eq_ok] at h
    exact decoded_full hwf (fun j _ _ _ hr => decodeRef_ref (hch j)
      (fun rest m hm => decodeNode_collapsed (cs j.castSucc) (hwf.2.2 _)
        (childrenHold_of_cachesHold (hch j)) fuel none cachegen rest m hm) hr) h
  | .short k v f, hwf, hch, fuel + 1, hash, cachegen, rest, m, h => by
    have hlen := @length_collapsed_lt keccak _ hwf
    rw [collapsed_short] at h hlen
    rw [decodeNode_list hlen, if_pos (by simp), mapError_eq_ok] at h
    exact decoded_short hwf (fun _ _ _ _ hr => decodeRef_ref hch
      (fun rest m hm => decodeNode_collapsed v hwf.2.2.2
        (childrenHold_of_cachesHold hch) fuel none cachegen rest m hm) hr) h

end Keccak

end EpvChain.Trie
