import EpvChain.Process.Value
import EpvChain.Public.Types

/-!
# Trie nodes and hex keys (`fast/node.go`, `fast/encoding.go`)

A trie node is empty (Go's `nil`), a full node of 17 children (16 nibbles and a value slot), a
short node of a key and one child, a hash standing for a node that is not loaded, or a value. Full
and short nodes carry flags: the hash cached by the hasher, the commit generation that last used
them, and whether they changed since the last commit.

Keys inside the trie are nibble sequences ("hex" keys) ending in the terminator `16` when they
reach a value. A short node's key is written in the compact form (`hexToCompact`) when the node is
encoded.

The encoding of a node is `rlp.Encode` of what the encoder sees of it (`Node.toValue`): a full
node's 17 children, a short node's key and child, the bytes of a hash or value node. The flags are
unexported fields and are not encoded. `Node.clear` drops every cached hash: what the hasher sees
of a node recomputed from scratch.
-/

namespace EpvChain.Trie

open Rlp

/-- `nodeFlag`: the cached hash, the commit generation that last used the node, and whether it
changed since the last commit.
Source: `fast/node.go` `type nodeFlag struct` -/
structure NodeFlag where
  hash : Option Hash
  gen : UInt16
  dirty : Bool

/-- `node`: Go's `nil`, `*fullNode`, `*shortNode`, `hashNode` and `valueNode`.
Source: `fast/node.go` `type node interface` -/
inductive Node where
  | empty
  | full (children : Fin 17 → Node) (flags : NodeFlag)
  | short (key : List UInt8) (val : Node) (flags : NodeFlag)
  | hash (h : Hash)
  | value (v : List UInt8)

/-- A full node's seventeen places: one named instance keeps every numeral `16 : Fin 17` built
from the same proof. -/
instance children.neZero : NeZero 17 := ⟨by decide⟩

/-- `nodeFlag.canUnload`: a clean node unused for `cachelimit` generations, in 16-bit
arithmetic.
Source: `fast/node.go` `nodeFlag.canUnload` -/
def NodeFlag.canUnload (f : NodeFlag) (cachegen cachelimit : UInt16) : Bool :=
  !f.dirty && cachegen - f.gen >= cachelimit

namespace Node

/-- `node.canUnload`: only full and short nodes are ever unloaded.
Source: `fast/node.go` -/
def canUnload : Node → UInt16 → UInt16 → Bool
  | full _ flags, gen, limit => flags.canUnload gen limit
  | short _ _ flags, gen, limit => flags.canUnload gen limit
  | _, _, _ => false

/-- `node.cache`: the cached hash and whether the node is dirty. Hash and value nodes have no
hash and count as dirty; `nil` is never asked.
Source: `fast/node.go` -/
def cache : Node → Option Hash × Bool
  | full _ flags => (flags.hash, flags.dirty)
  | short _ _ flags => (flags.hash, flags.dirty)
  | _ => (none, true)

/-- What `rlp.Encode` sees of a node: a full node is its children, a short node its key and
child, a hash or value node its bytes. A `nil` interface is encoded as the empty list.
Source: `fast/node.go` `fullNode.EncodeRLP`; `process/encode.go` -/
def toValue : Node → Value
  | empty => .list []
  | full children _ => .list (List.ofFn fun i => (children i).toValue)
  | short key val _ => .list [.bytes key, val.toValue]
  | hash h => .bytes h.toBytes
  | value v => .bytes v

/-- The encoding of a node. -/
def encode (n : Node) : List UInt8 := n.toValue.encode

/-- The node with every cached hash dropped. -/
def clear : Node → Node
  | empty => empty
  | full children flags => full (fun i => (children i).clear) { flags with hash := none }
  | short key val flags => short key val.clear { flags with hash := none }
  | hash h => hash h
  | value v => value v

end Node

attribute [local simp] Node.canUnload Node.cache Node.toValue Node.clear

/-! ### Hex keys -/

/-- `keybytesToHex`: two nibbles a byte, and the terminator.
Source: `fast/encoding.go` `keybytesToHex` -/
def keybytesToHex (str : List UInt8) : List UInt8 :=
  str.flatMap (fun b => [b / 16, b % 16]) ++ [16]

/-- `hasTerm`: the key ends in the terminator.
Source: `fast/encoding.go` `hasTerm` -/
def hasTerm (s : List UInt8) : Bool := s.getLast? == some 16

/-- `decodeNibbles`: each pair of nibbles into a byte.
Source: `fast/encoding.go` `decodeNibbles` -/
def decodeNibbles : List UInt8 → List UInt8
  | a :: b :: rest => (a <<< 4 ||| b) :: decodeNibbles rest
  | _ => []

/-- `hexToKeybytes`: the bytes of a hex key, its terminator dropped. A key of odd length is not
one `keybytesToHex` makes: the source panics (`none`).
Source: `fast/encoding.go` `hexToKeybytes` -/
def hexToKeybytes (hex : List UInt8) : Option (List UInt8) :=
  let hex := if hasTerm hex then hex.dropLast else hex
  if hex.length % 2 ≠ 0 then none else some (decodeNibbles hex)

/-- `hexToCompact`: a flag byte (terminator in bit 5, odd length in bit 4 with the first nibble
below it) and the remaining nibbles in pairs.
Source: `fast/encoding.go` `hexToCompact` -/
def hexToCompact (hex : List UInt8) : List UInt8 :=
  let terminator : UInt8 := if hasTerm hex then 1 else 0
  let hex := if hasTerm hex then hex.dropLast else hex
  if hex.length % 2 = 1 then
    ((terminator <<< 5) ||| ((1 : UInt8) <<< 4) ||| hex.headD 0) :: decodeNibbles hex.tail
  else (terminator <<< 5) :: decodeNibbles hex

/-- `compactToHex`: the nibbles after the flag, and the terminator when the flag has one. An empty
compact key has no flag nibble: the source indexes past its end and panics (`none`).
Source: `fast/encoding.go` `compactToHex` -/
def compactToHex (compact : List UInt8) : Option (List UInt8) :=
  match (keybytesToHex compact).dropLast with
  | [] => none
  | flag :: rest =>
    let base := if flag >= 2 then flag :: rest ++ [16] else flag :: rest
    some (base.drop (2 - (flag &&& 1)).toNat)

/-- `prefixLen`: the length of the common prefix.
Source: `fast/encoding.go` `prefixLen` -/
def prefixLen : List UInt8 → List UInt8 → Nat
  | a :: as, b :: bs => if a = b then prefixLen as bs + 1 else 0
  | _, _ => 0

/-! ### The compact form round trip -/

/-- A hex key: nibbles below 16, and the terminator `16` at most once, at the end. -/
def ValidHex (k : List UInt8) : Prop := ∀ x ∈ (if hasTerm k then k.dropLast else k), x < 16

theorem toNat_nibbles {a b : UInt8} (ha : a < 16) (hb : b < 16) :
    (a <<< 4 ||| b).toNat = a.toNat * 16 + b.toNat := by
  rw [UInt8.lt_iff_toNat_lt] at ha hb
  simp only [UInt8.reduceToNat] at ha hb
  have hlt : a.toNat <<< 4 < 2 ^ 8 := by rw [Nat.shiftLeft_eq]; omega
  simp only [UInt8.toNat_or, UInt8.toNat_shiftLeft, UInt8.reduceToNat, Nat.reduceMod,
    Nat.mod_eq_of_lt hlt]
  rw [← Nat.shiftLeft_add_eq_or_of_lt (by simpa using hb), Nat.shiftLeft_eq]

/-- Two nibbles packed into a byte come apart again. -/
theorem nibbles_of_pack {a b : UInt8} (ha : a < 16) (hb : b < 16) :
    (a <<< 4 ||| b) / 16 = a ∧ (a <<< 4 ||| b) % 16 = b := by
  have h := toNat_nibbles ha hb
  rw [UInt8.lt_iff_toNat_lt] at ha hb
  simp only [UInt8.reduceToNat] at ha hb
  constructor <;> apply UInt8.toNat_inj.mp <;> simp only [UInt8.toNat_div, UInt8.toNat_mod,
    UInt8.reduceToNat, h] <;> omega

/-- `decodeNibbles` of an even run of nibbles is undone by splitting each byte. -/
theorem flatMap_decodeNibbles {h : List UInt8} (hh : ∀ x ∈ h, x < 16) (heven : h.length % 2 = 0) :
    (decodeNibbles h).flatMap (fun b => [b / 16, b % 16]) = h := by
  induction h using decodeNibbles.induct with
  | case1 a b rest ih =>
    have hab := nibbles_of_pack (hh a (by simp)) (hh b (by simp))
    rw [decodeNibbles, List.flatMap_cons, hab.1, hab.2,
      ih (fun x hx => hh x (by simp [hx])) (by simp at heven; omega)]
    rfl
  | case2 l hl =>
    rcases l with _ | ⟨a, _ | ⟨b, rest⟩⟩
    · rfl
    · simp at heven
    · exact absurd rfl (hl a b rest)

/-- `compactToHex` of a flag byte and an even run of packed nibbles: the flag's two nibbles come
first, then the run. -/
theorem compactToHex_flag (flag : UInt8) {h : List UInt8} (hh : ∀ x ∈ h, x < 16)
    (heven : h.length % 2 = 0) :
    compactToHex (flag :: decodeNibbles h) =
      let base := if flag / 16 >= 2 then flag / 16 :: flag % 16 :: h ++ [16]
        else flag / 16 :: flag % 16 :: h
      some (base.drop (2 - (flag / 16 &&& 1)).toNat) := by
  have hbase : (keybytesToHex (flag :: decodeNibbles h)).dropLast = flag / 16 :: flag % 16 :: h := by
    rw [keybytesToHex, List.flatMap_cons, flatMap_decodeNibbles hh heven, List.dropLast_concat]
    rfl
  rw [compactToHex, hbase]

theorem length_decodeNibbles (l : List UInt8) : (decodeNibbles l).length = l.length / 2 := by
  induction l using decodeNibbles.induct with
  | case1 a b rest ih => simp only [decodeNibbles, List.length_cons, ih]; omega
  | case2 l hl =>
    rcases l with _ | ⟨a, _ | ⟨b, rest⟩⟩
    · rfl
    · simp [decodeNibbles]
    · exact absurd rfl (hl a b rest)

/-- The compact form packs two nibbles a byte after the flag. -/
theorem length_hexToCompact (k : List UInt8) : (hexToCompact k).length ≤ k.length / 2 + 1 := by
  unfold hexToCompact
  dsimp only
  -- the terminator, then the parity of what remains
  split <;> split <;>
    simp only [List.length_cons, length_decodeNibbles, List.length_tail, List.length_dropLast] <;>
    omega

/-- A valid hex key survives the compact form. -/
theorem compactToHex_hexToCompact {k : List UInt8} (hk : ValidHex k) :
    compactToHex (hexToCompact k) = some k := by
  unfold ValidHex at hk
  by_cases ht : hasTerm k = true
  · -- a terminated key: its flag nibble is 2 or 3, and the terminator comes back
    have hlast : k.getLast? = some 16 := by simpa [hasTerm] using ht
    rw [if_pos ht] at hk
    obtain ⟨h, hh, rfl⟩ : ∃ h, (∀ x ∈ h, x < 16) ∧ k = h ++ [16] :=
      ⟨_, hk, (List.dropLast_append_getLast? 16 hlast).symm⟩
    simp only [hexToCompact, ht, if_true, List.dropLast_concat]
    split_ifs with hodd
    · obtain ⟨h0, h', rfl⟩ := List.exists_cons_of_length_pos (by omega : 0 < h.length)
      have hflag : ((1 : UInt8) <<< 5 ||| (1 : UInt8) <<< 4 ||| h0) = (3 : UInt8) <<< 4 ||| h0 := by
        rw [show ((1 : UInt8) <<< 5 ||| (1 : UInt8) <<< 4) = (3 : UInt8) <<< 4 by decide]
      have hpack := nibbles_of_pack (a := 3) (by decide) (hh h0 (by simp))
      rw [List.headD_cons, List.tail_cons, hflag,
        compactToHex_flag _ (fun x hx => hh x (by simp [hx])) (by simp at hodd; omega),
        hpack.1, hpack.2]
      rfl
    · rw [compactToHex_flag _ hh (by omega)]
      rfl
  · -- an unterminated key: its flag nibble is 0 or 1
    rw [if_neg ht] at hk
    have ht' : hasTerm k = false := by simpa using ht
    simp only [hexToCompact, ht', Bool.false_eq_true, if_false]
    split_ifs with hodd
    · obtain ⟨h0, h', rfl⟩ := List.exists_cons_of_length_pos (by omega : 0 < k.length)
      have hflag : ((0 : UInt8) <<< 5 ||| (1 : UInt8) <<< 4 ||| h0) = (1 : UInt8) <<< 4 ||| h0 := by
        rw [show ((0 : UInt8) <<< 5 ||| (1 : UInt8) <<< 4) = (1 : UInt8) <<< 4 by decide]
      have hpack := nibbles_of_pack (a := 1) (by decide) (hk h0 (by simp))
      rw [List.headD_cons, List.tail_cons, hflag,
        compactToHex_flag _ (fun x hx => hk x (by simp [hx])) (by simp at hodd; omega),
        hpack.1, hpack.2]
      rfl
    · rw [compactToHex_flag _ hk (by omega)]
      rfl

/-! ### Hex keys -/

theorem hasTerm_cons_cons (a b : UInt8) (l : List UInt8) : hasTerm (a :: b :: l) = hasTerm (b :: l) := by
  simp only [hasTerm, List.getLast?_cons_cons]

theorem hasTerm_drop {k : List UInt8} {n : Nat} (hn : n < k.length) : hasTerm (k.drop n) = hasTerm k := by
  simp only [hasTerm, List.getLast?_drop, if_neg (Nat.not_le.mpr hn)]

theorem hasTerm_append (a : List UInt8) {b : List UInt8} (hb : b ≠ []) :
    hasTerm (a ++ b) = hasTerm b := by
  simp only [hasTerm, List.getLast?_append, List.getLast?_eq_some_getLast hb, Option.some_or]

/-- A key of nibbles has no terminator. -/
theorem hasTerm_of_nibbles {k : List UInt8} (h : ∀ x ∈ k, x < 16) : hasTerm k = false := by
  cases hl : k.getLast? with
  | none => simp [hasTerm, hl]
  | some x =>
    have hx : x ≠ 16 := by
      rintro rfl
      exact absurd (h 16 (List.mem_of_getLast? hl)) (by decide)
    simp [hasTerm, hl, hx]

/-- Nibbles in front leave the terminator to what follows them. -/
theorem hasTerm_append_of_nibbles {a : List UInt8} (ha : ∀ x ∈ a, x < 16) (b : List UInt8) :
    hasTerm (a ++ b) = hasTerm b := by
  by_cases hb : b = []
  · rw [hb, List.append_nil, hasTerm_of_nibbles ha]
    rfl
  · exact hasTerm_append a hb

/-- A key that is only a terminator is a hex key. -/
theorem validHex_term : ValidHex [16] := by
  simp [ValidHex, hasTerm]

theorem validHex_of_nibbles {k : List UInt8} (h : ∀ x ∈ k, x < 16) : ValidHex k := by
  unfold ValidHex
  rw [hasTerm_of_nibbles h]
  exact h

theorem validHex_nil : ValidHex [] := validHex_of_nibbles (by simp)

/-- Before its last place a hex key holds nibbles. -/
theorem validHex_cons {a : UInt8} {k : List UInt8} (hk : k ≠ []) :
    ValidHex (a :: k) ↔ a < 16 ∧ ValidHex k := by
  obtain ⟨b, l, rfl⟩ := List.exists_cons_of_ne_nil hk
  unfold ValidHex
  rw [hasTerm_cons_cons]
  split <;> simp [List.dropLast_cons_cons]

theorem validHex_tail {a : UInt8} {k : List UInt8} (hk : ValidHex (a :: k)) : ValidHex k := by
  rcases k with _ | ⟨b, l⟩
  · exact validHex_nil
  · exact ((validHex_cons (List.cons_ne_nil b l)).mp hk).2

theorem validHex_drop {k : List UInt8} (hk : ValidHex k) (n : Nat) : ValidHex (k.drop n) := by
  induction k generalizing n with
  | nil => simpa using hk
  | cons a l ih =>
    cases n with
    | zero => exact hk
    | succ n => exact ih (validHex_tail hk) n

/-- A proper prefix of a hex key holds nibbles only. -/
theorem nibbles_take {k : List UInt8} (hk : ValidHex k) {n : Nat} (hn : n < k.length) :
    ∀ x ∈ k.take n, x < 16 := by
  induction k generalizing n with
  | nil => simp at hn
  | cons a l ih =>
    cases n with
    | zero => simp
    | succ n =>
      have hl : l ≠ [] := by rintro rfl; simp at hn
      obtain ⟨ha, hl'⟩ := (validHex_cons hl).mp hk
      simp only [List.take_succ_cons, List.mem_cons, forall_eq_or_imp]
      exact ⟨ha, ih hl' (by simpa using hn)⟩

theorem validHex_append {a b : List UInt8} (ha : ∀ x ∈ a, x < 16) (hb : ValidHex b) :
    ValidHex (a ++ b) := by
  induction a with
  | nil => exact hb
  | cons x a ih =>
    have hx := ha x (by simp)
    have ha' : ∀ y ∈ a, y < 16 := fun y hy => ha y (by simp [hy])
    by_cases hab : a ++ b = []
    · rw [List.cons_append, hab]
      exact validHex_of_nibbles (by simpa using hx)
    · rw [List.cons_append, validHex_cons hab]
      exact ⟨hx, ih ha'⟩

theorem length_keybytesToHex (key : List UInt8) :
    (keybytesToHex key).length = 2 * key.length + 1 := by
  induction key with
  | nil => rfl
  | cons b key ih =>
    simp only [keybytesToHex, List.flatMap_cons, List.length_append, List.length_cons,
      List.length_nil] at ih ⊢
    omega

/-! ### The byte form round trip -/

/-- A byte is its two nibbles packed again. -/
theorem pack_nibbles (b : UInt8) : (b / 16) <<< 4 ||| b % 16 = b := by
  have hhi : b / 16 < 16 := by
    rw [UInt8.lt_iff_toNat_lt, UInt8.toNat_div]
    have := b.toNat_lt
    simp only [UInt8.reduceToNat]
    omega
  have hlo : b % 16 < 16 := by
    rw [UInt8.lt_iff_toNat_lt, UInt8.toNat_mod]
    simp only [UInt8.reduceToNat]
    omega
  apply UInt8.toNat_inj.mp
  rw [toNat_nibbles hhi hlo, UInt8.toNat_div, UInt8.toNat_mod]
  simp only [UInt8.reduceToNat]
  omega

/-- `decodeNibbles` undoes the split of every byte into two nibbles. -/
theorem decodeNibbles_flatMap (k : List UInt8) :
    decodeNibbles (k.flatMap fun b => [b / 16, b % 16]) = k := by
  induction k with
  | nil => rfl
  | cons b k ih =>
    rw [List.flatMap_cons, List.cons_append, List.cons_append, List.nil_append, decodeNibbles,
      pack_nibbles, ih]

theorem hasTerm_keybytesToHex (k : List UInt8) : hasTerm (keybytesToHex k) = true := by
  simp [hasTerm, keybytesToHex]

/-- The bytes of a key survive the hex form. -/
theorem hexToKeybytes_keybytesToHex (k : List UInt8) : hexToKeybytes (keybytesToHex k) = some k := by
  have hnib : (keybytesToHex k).dropLast = k.flatMap fun b => [b / 16, b % 16] := by
    rw [keybytesToHex, List.dropLast_concat]
  have heven : (k.flatMap fun b => [b / 16, b % 16]).length % 2 = 0 := by
    rw [← hnib, List.length_dropLast, length_keybytesToHex]
    omega
  simp only [hexToKeybytes, hasTerm_keybytesToHex, if_true, hnib]
  rw [if_neg (not_not.mpr heven), decodeNibbles_flatMap]

/-- Two valid hex keys with one compact form are one key: `compactToHex` reads either back. -/
theorem hexToCompact_inj {a b : List UInt8} (ha : ValidHex a) (hb : ValidHex b)
    (h : hexToCompact a = hexToCompact b) : a = b := by
  have hback : some a = some b := by
    rw [← compactToHex_hexToCompact ha, ← compactToHex_hexToCompact hb, h]
  exact Option.some.inj hback

/-- **The hex, byte and compact forms of keys round-trip.** Every byte string comes back from its
hex form, every valid hex key (nibbles, with the terminator at most at the end) from its compact
form, and no two valid hex keys share a compact form. -/
theorem nibble_keys_round_trip :
    (∀ k : List UInt8, hexToKeybytes (keybytesToHex k) = some k) ∧
    (∀ h : List UInt8, ValidHex h → compactToHex (hexToCompact h) = some h) ∧
    (∀ a b : List UInt8, ValidHex a → ValidHex b → hexToCompact a = hexToCompact b → a = b) :=
  ⟨hexToKeybytes_keybytesToHex, fun _ hh => compactToHex_hexToCompact hh,
    fun _ _ ha hb h => hexToCompact_inj ha hb h⟩

/-! ### The nodes the trie builds -/

/-- A nibble slot of a full node is not its value slot. -/
@[simp] theorem castSucc_ne_sixteen (j : Fin 16) : j.castSucc ≠ (16 : Fin 17) :=
  Fin.castSucc_ne_last j

/-- The nodes the trie builds: a short node's key is a hex key shorter than `2 ^ 63`, and it is
terminated exactly when the child is a value; a full node's value slot holds a value or nothing,
and its nibble children are not values; values are shorter than `2 ^ 63`. Below `2 ^ 63` are the
lengths of Go slices, and they keep every node's encoding below `2 ^ 64`. -/
def Node.WellFormed : Node → Prop
  | .full cs _ => (cs 16 = .empty ∨ ∃ w, cs 16 = .value w) ∧
    (∀ j : Fin 16, ∀ w, cs j.castSucc ≠ .value w) ∧ ∀ i, WellFormed (cs i)
  | .short k v _ =>
    ValidHex k ∧ k.length < 2 ^ 63 ∧ (hasTerm k = true ↔ ∃ w, v = .value w) ∧ WellFormed v
  | .value w => w.length < 2 ^ 63
  | _ => True

end EpvChain.Trie
