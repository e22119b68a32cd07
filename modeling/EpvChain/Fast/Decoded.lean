import EpvChain.Fast.Codec

/-!
# Decoding a collapsed node gives it back (`fast/node.go`, `fast/hasher.go`)

`decodeNode_collapsed` says what a decoded node is if decoding a well-formed node's collapsed
form succeeds. Here decoding succeeds and its result is computed: `Node.decoded` says what
reading back a node's encoding gives. A short node keeps its nibble key and a terminated key's
value; a full node keeps its seventeen slots; a child encoding to 32 bytes or more comes back as
the hash node of that encoding, a smaller one decoded in place; the node is clean, with the hash
it was read under and the cache generation.

`decodeNode_collapsed_eq` proves this for every well-formed full or short node, with the fuel the
callers give, by induction on the node with the bytes after the encoding quantified: an embedded
child is decoded from its parent's remaining buffer. The hasher's output is the collapsed form
when the cached hashes fit (`hash_ref`), and a reachable trie's root is well formed
(`fresh_of_reachable`).
-/

namespace EpvChain.Trie

open Rlp

/-- The flags of a node `decodeNode` returns: the hash it was read under, the cache generation,
clean.
Source: `fast/node.go` `decodeShort`, `decodeFull` (`nodeFlag{hash: hash, gen: cachegen}`) -/
def decodedFlag (hash : Option Hash) (cachegen : UInt16) : NodeFlag :=
  { hash := hash, gen := cachegen, dirty := false }

/-- A full node's value slot as decoding gives it back: a value that is not empty, else
nothing. -/
def slotDecoded : Node → Node
  | .value w => if w.length > 0 then .value w else .empty
  | _ => .empty

section Keccak

variable (keccak : List UInt8 → Hash)

/-- A child as its parent's encoding gives it back, `inline` being how it reads back when it is
embedded: nothing for a missing child, a hash node for a hash node, the hash of the encoding of
a child that encodes to 32 bytes or more, and the child read in place otherwise. -/
def refDecoded (c inline : Node) : Node :=
  match c with
  | .empty => .empty
  | .hash x => .hash x
  | _ =>
    if (c.collapsed keccak).encode.length < 32 then inline
    else .hash (keccak (c.collapsed keccak).encode)

/-- What reading back the collapsed form of a full or short node gives, read under `hash` at
generation `cachegen`: the same key and value, or the same seventeen slots, with each child as
`refDecoded` gives it back and an embedded child read under no hash. -/
def Node.decoded (hash : Option Hash) (cachegen : UInt16) : Node → Node
  | .full cs _ =>
    .full (fun i => if i = Fin.last 16 then slotDecoded (cs i)
      else refDecoded keccak (cs i) ((cs i).decoded none cachegen)) (decodedFlag hash cachegen)
  | .short k v _ =>
    .short k (match v with
      | .value w => .value w
      | _ => refDecoded keccak v (v.decoded none cachegen)) (decodedFlag hash cachegen)
  | n => n

variable {keccak}

/-! ### Reading back a reference -/

section Ref

variable {dec : List UInt8 → Except DecodeError Node} {rest : List UInt8}

theorem decodeRef_empty : decodeRef dec ((Value.bytes []).encode ++ rest) = .ok (.empty, rest) := by
  rw [decodeRef, split_encode _ (by decide)]
  rfl

/-- An embedded list of at most 32 bytes is read as `dec` reads the buffer it starts. -/
theorem decodeRef_list {vs : List Value} {m : Node} (hsmall : (Value.list vs).encode.length ≤ 32)
    (hdec : dec ((Value.list vs).encode ++ rest) = .ok m) :
    decodeRef dec ((Value.list vs).encode ++ rest) = .ok (m, rest) := by
  rw [decodeRef, split_encode _ (by omega)]
  simp only [Value.kind, List.length_append, Nat.add_sub_cancel, HashLength]
  rw [if_neg (by omega), hdec]
  rfl

theorem refDecoded_of_isInner {c : Node} (hc : c.isInner) (inline : Node) :
    refDecoded keccak c inline = if (c.collapsed keccak).encode.length < 32 then inline
      else .hash (keccak (c.collapsed keccak).encode) := by
  cases c with
  | full cs f => rfl
  | short k v f => rfl
  | _ => simp [Node.isInner] at hc

/-- A full or short child reads back from its reference by hash, or in place as `dec` reads
it. -/
theorem decodeRef_inner_eq {c inline : Node} (hn : c.isInner)
    (hdec : (c.collapsed keccak).encode.length < 32 →
      dec ((c.collapsed keccak).encode ++ rest) = .ok inline) :
    decodeRef dec ((c.ref keccak).encode ++ rest) = .ok (refDecoded keccak c inline, rest) := by
  rw [ref_of_isInner hn, refDecoded_of_isInner hn]
  obtain ⟨vs, hvs⟩ := @collapsed_list_of_isInner keccak _ hn
  rcases @storedValue_cases keccak c (kind_of_isInner hn) (c.collapsed keccak)
    with ⟨h32, hs⟩ | ⟨h32, hs⟩
  · -- embedded: the collapsed form is a list below 32 bytes
    rw [hs, if_pos h32]
    have hd := hdec h32
    rw [hvs] at h32 hd ⊢
    exact decodeRef_list (by omega) hd
  · rw [hs, if_neg (by omega)]
    exact decodeRef_hash _

/-- A child that is not a value reads back from its reference as `refDecoded` says, given how
it reads back when embedded. -/
theorem decodeRef_ref_eq {c inline : Node} (hnv : ∀ w, c ≠ .value w)
    (hdec : c.isInner → (c.collapsed keccak).encode.length < 32 →
      dec ((c.collapsed keccak).encode ++ rest) = .ok inline) :
    decodeRef dec ((c.ref keccak).encode ++ rest) = .ok (refDecoded keccak c inline, rest) := by
  cases c with
  | empty => rw [ref_empty]; exact decodeRef_empty
  | hash x => rw [ref_hash]; exact decodeRef_hash x
  | value w => exact absurd rfl (hnv w)
  | full cs f => exact decodeRef_inner_eq rfl (hdec rfl)
  | short k v f => exact decodeRef_inner_eq rfl (hdec rfl)

end Ref

/-- A reference embedded as it is is the child's collapsed form. -/
theorem ref_eq_collapsed {c : Node} (hn : c.isInner) (h32 : (c.collapsed keccak).encode.length < 32) :
    c.ref keccak = c.collapsed keccak := by
  rw [ref_of_isInner hn]
  rcases @storedValue_cases keccak c (kind_of_isInner hn) (c.collapsed keccak)
    with ⟨-, hs⟩ | ⟨h32', -⟩
  · exact hs
  · omega

/-- An item of a list encodes to fewer bytes than the list. -/
theorem length_encode_lt_of_mem {v : Value} {vs : List Value} (h : v ∈ vs) :
    v.encode.length < (Value.list vs).encode.length := by
  have hle : v.encode.length ≤ (Value.encodeAll vs).length := by
    induction vs with
    | nil => simp at h
    | cons w ws ih =>
      rw [encodeAll_cons, List.length_append]
      rcases List.mem_cons.mp h with rfl | h
      · omega
      · have := ih h
        omega
  have := List.length_pos_of_ne_nil (header_ne_nil 0xC0 0xF7 (Value.encodeAll vs).length)
  rw [encode_list, List.length_append]
  omega

/-! ### Reading back a node -/

section Steps

variable {dr : List UInt8 → Except DecodeError (Node × List UInt8)} {hash : Option Hash}
  {cachegen : UInt16}

/-- The children loop reads each reference as `dr` reads it. -/
theorem decodeChildren_map {α : Type} (l : List α) {f : α → Value} {g : α → Node}
    (hfg : ∀ a ∈ l, ∀ rest, dr ((f a).encode ++ rest) = .ok (g a, rest)) (i : Nat)
    (rest : List UInt8) :
    decodeChildren dr l.length i (Value.encodeAll (l.map f) ++ rest) = .ok (l.map g, rest) := by
  induction l generalizing i with
  | nil => rfl
  | cons a l ih =>
    rw [List.length_cons, List.map_cons, encodeAll_cons, List.append_assoc, decodeChildren,
      hfg a (by simp)]
    dsimp only
    rw [ih (fun b hb => hfg b (by simp [hb])) (i + 1)]
    rfl

/-- `decodeFull` of sixteen references each read as `dr` reads it, then a value string. -/
theorem decodeFull_eq {f : Fin 16 → Value} {g : Fin 16 → Node}
    (hfg : ∀ j rest, dr ((f j).encode ++ rest) = .ok (g j, rest)) {w : List UInt8}
    (hw : (Value.bytes w).encode.length < 2 ^ 64) :
    decodeFull dr hash (Value.encodeAll (List.ofFn f ++ [.bytes w])) cachegen =
      .ok (.full (fun i => if i = Fin.last 16 then (if w.length > 0 then .value w else .empty)
        else (List.ofFn g).getD i.val .empty) (decodedFlag hash cachegen)) := by
  have hchildren := decodeChildren_map (List.finRange 16) (fun j _ => hfg j) 0
    ((Value.bytes w).encode ++ [])
  rw [List.length_finRange, ← List.ofFn_eq_map, ← List.ofFn_eq_map] at hchildren
  rw [decodeFull, encodeAll_append, encodeAll_cons, encodeAll_nil, hchildren]
  dsimp only
  rw [splitString_encode_bytes _ hw]
  rfl

/-- The nibble slots a full node's children loop fills. -/
theorem getD_ofFn_castPred (g : Fin 16 → Node) {i : Fin 17} (hi : i ≠ Fin.last 16) :
    (List.ofFn g).getD i.val .empty = g (i.castPred hi) := by
  have hlt := Fin.val_lt_last hi
  rw [List.getD_eq_getElem _ _ (by simpa using hlt), List.getElem_ofFn]
  rfl

/-- A short node whose child is not a value reads back with the child as its reference gives
it. -/
theorem decoded_short_of_not_value {k : List UInt8} {v : Node} (hnv : ∀ w, v ≠ .value w)
    (f : NodeFlag) : (Node.short k v f).decoded keccak hash cachegen =
      .short k (refDecoded keccak v (v.decoded keccak none cachegen)) (decodedFlag hash cachegen) := by
  cases v with
  | value w => exact absurd rfl (hnv w)
  | _ => rfl

end Steps

/-- The value slot reads back as the string it was written as. -/
theorem slotDecoded_of_slotValue {c : Node} (hslot : c = .empty ∨ ∃ w, c = .value w)
    {w : List UInt8} (hw : slotValue c = .bytes w) :
    slotDecoded c = if w.length > 0 then .value w else .empty := by
  rcases hslot with rfl | ⟨w', rfl⟩
  · cases hw
    rfl
  · cases hw
    rfl

/-- Decoding the collapsed form of a well-formed full or short node succeeds, with the fuel the
callers give or more, and gives back `Node.decoded`. The recursion is on the node: an embedded
child is read from its parent's remaining buffer with one unit of fuel less, which its shorter
encoding leaves enough of. -/
theorem decodeNode_collapsed_eq : ∀ (n : Node), n.WellFormed → n.isInner →
    ∀ (fuel : Nat), (n.collapsed keccak).encode.length < fuel →
    ∀ (hash : Option Hash) (cachegen : UInt16) (rest : List UInt8),
      decodeNode fuel hash ((n.collapsed keccak).encode ++ rest) cachegen =
        .ok (n.decoded keccak hash cachegen)
  | .full cs f, hwf, _, fuel + 1, hlt, hash, cachegen, rest => by
    have hlen := @length_collapsed_lt keccak _ hwf
    obtain ⟨hslot, hnv, hall⟩ := hwf
    rw [collapsed_full] at hlt hlen ⊢
    obtain ⟨w, hw, hwlen⟩ := slotValue_of_wellFormed (c := cs (Fin.last 16)) hslot (hall _)
    -- each nibble child reads back from its reference, an embedded one by the recursive call
    have hchild : ∀ (j : Fin 16) (rest' : List UInt8),
        decodeRef (fun b => decodeNode fuel none b cachegen)
          (((cs j.castSucc).ref keccak).encode ++ rest') =
        .ok (refDecoded keccak (cs j.castSucc) ((cs j.castSucc).decoded keccak none cachegen),
          rest') := by
      intro j rest'
      refine decodeRef_ref_eq (hnv j) (fun hn h32 =>
        decodeNode_collapsed_eq (cs j.castSucc) (hall _) hn fuel ?_ none cachegen rest')
      have hmem : (cs j.castSucc).ref keccak ∈ (List.ofFn fun j : Fin 16 => (cs j.castSucc).ref keccak) ++
          [slotValue (cs (Fin.last 16))] := List.mem_append_left _ (List.mem_ofFn.mpr ⟨j, rfl⟩)
      have := length_encode_lt_of_mem hmem
      rw [ref_eq_collapsed hn h32] at this
      omega
    rw [decodeNode_list hlen, if_neg (by simp), if_pos (by simp), hw,
      decodeFull_eq hchild (by have := length_encode_bytes_le hwlen; omega)]
    -- the value slot as it was written, each nibble slot as its reference gives it
    show Except.ok _ = Except.ok _
    rw [Node.decoded]
    congr 2
    funext i
    by_cases hi : i = Fin.last 16
    · subst hi
      rw [if_pos rfl, if_pos rfl]
      exact (slotDecoded_of_slotValue hslot hw).symm
    · rw [if_neg hi, if_neg hi, getD_ofFn_castPred _ hi, Fin.castSucc_castPred]
  | .short k v f, hwf, _, fuel + 1, hlt, hash, cachegen, rest => by
    have hlen := @length_collapsed_lt keccak _ hwf
    obtain ⟨hk, hklen, hterm, hv⟩ := hwf
    rw [collapsed_short] at hlt hlen ⊢
    have hkeylen : (Value.bytes (hexToCompact k)).encode.length < 2 ^ 64 := by
      have := length_hexToCompact k
      have := length_encode_bytes_le (w := hexToCompact k) (by omega)
      omega
    rw [decodeNode_list hlen, if_pos (by simp), encodeAll_cons, encodeAll_cons, encodeAll_nil,
      decodeShort, splitString_encode_bytes _ hkeylen]
    dsimp only
    rw [compactToHex_hexToCompact hk]
    dsimp only
    by_cases ht : hasTerm k = true
    · -- a terminated key: the value is written as a string
      obtain ⟨w, rfl⟩ := hterm.mp ht
      have hwlen : (Value.bytes w).encode.length < 2 ^ 64 := by
        have hw : w.length < 2 ^ 63 := hv
        have := length_encode_bytes_le hw
        omega
      rw [if_pos ht]
      simp only [shortChild]
      rw [splitString_encode_bytes _ hwlen]
      rfl
    · -- an unterminated key: the child is a reference
      have hnv : ∀ w, v ≠ .value w := fun w hw => ht (hterm.mpr ⟨w, hw⟩)
      have hchild : decodeRef (fun b => decodeNode fuel none b cachegen)
          ((v.ref keccak).encode ++ []) =
          .ok (refDecoded keccak v (v.decoded keccak none cachegen), []) := by
        refine decodeRef_ref_eq hnv (fun hn h32 =>
          decodeNode_collapsed_eq v hv hn fuel ?_ none cachegen [])
        have hmem : v.ref keccak ∈ [Value.bytes (hexToCompact k),
            shortChild v (storedValue keccak v (v.collapsed keccak) false)] := by
          rw [shortChild_eq_ref hnv]
          exact List.mem_cons_of_mem _ (List.mem_singleton_self _)
        have := length_encode_lt_of_mem hmem
        rw [ref_eq_collapsed hn h32] at this
        omega
      rw [if_neg ht, shortChild_eq_ref hnv, hchild, decoded_short_of_not_value hnv]
      rfl
  | .full _ _, _, _, 0, hlt, _, _, _ => absurd hlt (Nat.not_lt_zero _)
  | .short _ _ _, _, _, 0, hlt, _, _, _ => absurd hlt (Nat.not_lt_zero _)
  | .empty, _, hn, _, _, _, _, _ => absurd hn (by simp [Node.isInner])
  | .hash _, _, hn, _, _, _, _, _ => absurd hn (by simp [Node.isInner])
  | .value _, _, hn, _, _, _, _, _ => absurd hn (by simp [Node.isInner])

end Keccak

/-- A short node over an embedded short node holding a value: both keys well formed, the inner
node embedded in the outer one's encoding and read back in place. -/
theorem decodeNode_collapsed_eq_embedded :
    let n : Node := .short [1] (.short [2, 16] (.value [3]) ⟨none, 0, false⟩) ⟨none, 0, false⟩
    n.WellFormed ∧ n.isInner ∧
      (n.collapsed fun _ => 0).encode.length < (n.collapsed fun _ => 0).encode.length + 1 ∧
      decodeNode ((n.collapsed fun _ => 0).encode.length + 1) none
        ((n.collapsed fun _ => 0).encode ++ []) 0 = .ok (n.decoded (fun _ => 0) none 0) := by
  intro n
  have hwf : n.WellFormed :=
    ⟨by simp [ValidHex, hasTerm], by norm_num, ⟨fun h => absurd h (by decide), fun ⟨w, hw⟩ => by cases hw⟩,
      by simp [ValidHex, hasTerm], by norm_num, ⟨fun _ => ⟨[3], rfl⟩, fun _ => by decide⟩,
      show [(3 : UInt8)].length < 2 ^ 63 by norm_num⟩
  exact ⟨hwf, rfl, Nat.lt_succ_self _,
    decodeNode_collapsed_eq n hwf rfl _ (Nat.lt_succ_self _) none 0 []⟩

end EpvChain.Trie
