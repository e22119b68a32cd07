import EpvChain.Fast.Trie

/-!
# The trie's walks keep its cached hashes honest (`fast/trie.go`)

A node's cached hash is right only while its collapsed form is the one hashed; `CachesHold` says
so of every cached hash in a node. The walks keep it for the node they leave:

* `tryGet_holds` — `tryGet` replaces hash nodes by the nodes stored under them, which carry the
  hash they were read under, so their parents cannot tell them apart (`SameRef`).
* `insert_holds`, `delete_holds` — every node built or copied gets a fresh flag with no hash; the
  nodes kept are the trie's, resolved nodes, or the value.

Both need the database to hold a well-formed node's collapsed form under each hash
(`StoredNode`), and encodings below 32 bytes never to share a hash with longer ones
(`SizeSeparating`). The walks also keep the nodes well-formed.
-/

namespace EpvChain.Trie

open Rlp

section Keccak

variable (keccak : List UInt8 → Hash)

/-- No encoding below 32 bytes has the hash of an encoding of 32 bytes or more. -/
def SizeSeparating : Prop :=
  ∀ a b : List UInt8, keccak a = keccak b → (a.length < 32 ↔ b.length < 32)

/-- What a database may hold under a hash: nothing (the meta-root's empty encoding), or the
encoding of a well-formed node's collapsed form, whose children's hashes fit, under its hash. -/
def StoredNode (x : Hash) (b : List UInt8) : Prop :=
  b = [] ∨ ∃ n : Node, n.WellFormed ∧ ChildrenHold keccak n ∧ b = (n.collapsed keccak).encode ∧
    x = keccak b

/-- Two nodes a parent cannot tell apart in a place hashed with `force`: the same reference
computed from scratch, both missing or both not, and the same value if either is one. -/
structure SameRef (force : Bool) (a b : Node) : Prop where
  stored : storedValue keccak a (a.collapsed keccak) force =
    storedValue keccak b (b.collapsed keccak) force
  empty : a.isEmpty = b.isEmpty
  value : ∀ w, a = .value w ↔ b = .value w

/-- What a full node's child `i` may be: nothing or a value in the value slot, anything but a
value in a nibble slot. -/
def SlotFits (i : Fin 17) (c : Node) : Prop :=
  if i = Fin.last 16 then c = .empty ∨ ∃ w, c = .value w else ∀ w, c ≠ .value w

/-- What `insert` needs of the rest of its key and of the value: a hex key shorter than `2 ^ 63`,
terminated exactly when the value is a value, and a well-formed value whose hashes fit in a
child's place. -/
structure KeyFits (key : List UInt8) (value : Node) : Prop where
  hex : ValidHex key
  length : key.length < 2 ^ 63
  term : key ≠ [] → (hasTerm key = true ↔ ∃ w, value = .value w)
  wf : value.WellFormed
  holds : CachesHold keccak false value

/-- What `insert` leaves in a node's place: a well-formed node with fitting hashes, the value
itself at the end of the key, and no value before it. -/
structure Inserted (force : Bool) (key : List UInt8) (value nn : Node) : Prop where
  wf : nn.WellFormed
  holds : CachesHold keccak force nn
  at_end : key = [] → nn = value
  not_value : key ≠ [] → ∀ w, nn ≠ .value w

/-- What `delete` leaves in a node's place: a well-formed node with fitting hashes, never a
value, since a key's value is deleted with it. -/
structure Deleted (force : Bool) (nn : Node) : Prop where
  wf : nn.WellFormed
  holds : CachesHold keccak force nn
  not_value : ∀ w, nn ≠ .value w

variable {keccak}

/-! ### Nodes a parent cannot tell apart -/

theorem SameRef.refl (force : Bool) (a : Node) : SameRef keccak force a a :=
  ⟨rfl, rfl, fun _ => Iff.rfl⟩

theorem SameRef.trans {force : Bool} {a b c : Node} (h1 : SameRef keccak force a b)
    (h2 : SameRef keccak force b c) : SameRef keccak force a c :=
  ⟨h1.stored.trans h2.stored, h1.empty.trans h2.empty, fun w => (h1.value w).trans (h2.value w)⟩

/-- Full and short nodes with one collapsed form have one reference. -/
theorem sameRef_of_collapsed {a b : Node} (ha : a.isInner) (hb : b.isInner)
    (h : a.collapsed keccak = b.collapsed keccak) (force : Bool) : SameRef keccak force a b where
  stored := by rw [h, storedValue_congr (kind_of_isInner ha) (kind_of_isInner hb)]
  empty := by rw [(kind_of_isInner ha).1, (kind_of_isInner hb).1]
  value w := ⟨fun h => absurd h (ne_value_of_isInner ha w),
    fun h => absurd h (ne_value_of_isInner hb w)⟩

/-- A nibble child replaced by one its parent cannot tell apart leaves the collapsed form. -/
theorem collapsed_update {cs : Fin 17 → Node} {i : Fin 17} (hi : i ≠ Fin.last 16) {c : Node}
    (hc : SameRef keccak false c (cs i)) (f f' : NodeFlag) :
    (Node.full (Function.update cs i c) f').collapsed keccak = (Node.full cs f).collapsed keccak := by
  apply collapsed_full_congr keccak f f'
  · intro j
    by_cases hj : j.castSucc = i
    · subst hj
      rw [Function.update_self, hc.empty]
    · rw [Function.update_of_ne hj]
  · intro j
    by_cases hj : j.castSucc = i
    · subst hj
      rw [Function.update_self, hc.stored]
    · rw [Function.update_of_ne hj]
  · exact Function.update_of_ne (Ne.symm hi) _ _

theorem collapsed_short_congr {k : List UInt8} {c v : Node} (hc : SameRef keccak false c v)
    (f f' : NodeFlag) : (Node.short k c f').collapsed keccak = (Node.short k v f).collapsed keccak := by
  rw [collapsed_short, collapsed_short, shortChild_congr hc.value hc.empty hc.stored]

/-! ### Cached hashes in a child's place and at the root -/

/-- What holds in a child's place holds at the root, where any size of encoding may be hashed. -/
theorem cachesHold_of_false {n : Node} (h : CachesHold keccak false n) (force : Bool) :
    CachesHold keccak force n := by
  cases force with
  | false => exact h
  | true =>
    cases n with
    | full cs f => exact ⟨fun x hx => ⟨(h.1 x hx).1, .inl rfl⟩, h.2⟩
    | short k v f => exact ⟨fun x hx => ⟨(h.1 x hx).1, .inl rfl⟩, h.2⟩
    | _ => trivial

/-- A well-formed full node's value slot holds nothing or a value, which have no hashes. -/
theorem cachesHold_child {cs : Fin 17 → Node} {f : NodeFlag} {force : Bool}
    (hwf : (Node.full cs f).WellFormed) (hn : CachesHold keccak force (.full cs f)) (i : Fin 17) :
    CachesHold keccak false (cs i) := by
  refine Fin.lastCases ?_ (fun j => hn.2 j) i
  rcases hwf.1 with h | ⟨w, h⟩ <;> (change cs (Fin.last 16) = _ at h) <;> rw [h] <;> trivial

/-- A node with a fresh flag has no hash of its own to fit. -/
theorem cachesHold_full_fresh {cs : Fin 17 → Node} {f : NodeFlag} (hf : f.hash = none)
    (hcs : ∀ i, CachesHold keccak false (cs i)) (force : Bool) :
    CachesHold keccak force (.full cs f) := by
  cases force <;> exact ⟨fun x hx => (by rw [hf] at hx; cases hx), fun j => hcs j.castSucc⟩

theorem cachesHold_short_fresh {k : List UInt8} {v : Node} {f : NodeFlag} (hf : f.hash = none)
    (hv : CachesHold keccak false v) (force : Bool) : CachesHold keccak force (.short k v f) := by
  cases force <;> exact ⟨fun x hx => (by rw [hf] at hx; cases hx), hv⟩

/-! ### Well-formed full nodes, slot by slot -/

theorem wellFormed_full_iff (cs : Fin 17 → Node) (f : NodeFlag) :
    (Node.full cs f).WellFormed ↔ (∀ i, SlotFits i (cs i)) ∧ ∀ i, (cs i).WellFormed := by
  constructor
  · rintro ⟨hslot, hnib, hall⟩
    refine ⟨fun i => Fin.lastCases ?_ (fun j => ?_) i, hall⟩
    · simpa [SlotFits] using hslot
    · simpa [SlotFits] using hnib j
  · rintro ⟨hslot, hall⟩
    refine ⟨by simpa [SlotFits] using hslot (Fin.last 16), fun j => ?_, hall⟩
    simpa [SlotFits] using hslot j.castSucc

/-- A child that fits its slot keeps a full node well-formed. -/
theorem wellFormed_update {cs : Fin 17 → Node} {f : NodeFlag} (hwf : (Node.full cs f).WellFormed)
    {i : Fin 17} {c : Node} (hi : SlotFits i c) (hc : c.WellFormed) (f' : NodeFlag) :
    (Node.full (Function.update cs i c) f').WellFormed := by
  rw [wellFormed_full_iff] at hwf ⊢
  constructor
  · intro j
    by_cases hj : j = i
    · subst hj
      rw [Function.update_self]
      exact hi
    · rw [Function.update_of_ne hj]
      exact hwf.1 j
  · intro j
    by_cases hj : j = i
    · subst hj
      rw [Function.update_self]
      exact hc
    · rw [Function.update_of_ne hj]
      exact hwf.2 j

theorem slotFits_of_not_value {i : Fin 17} (hi : i ≠ Fin.last 16) {c : Node}
    (hc : ∀ w, c ≠ .value w) : SlotFits i c := by
  have hi' : i ≠ 16 := hi
  simpa [SlotFits, hi'] using hc

theorem cachesHold_update {cs : Fin 17 → Node} (hcs : ∀ i, CachesHold keccak false (cs i))
    {i : Fin 17} {c : Node} (hc : CachesHold keccak false c) :
    ∀ j, CachesHold keccak false (Function.update cs i c j) :=
  (Function.forall_update_iff cs fun _ c => CachesHold keccak false c).mpr ⟨hc, fun j _ => hcs j⟩

theorem wellFormed_full_empty (f : NodeFlag) : (Node.full (fun _ => .empty) f).WellFormed :=
  ⟨.inl rfl, fun _ _ h => Node.noConfusion h, fun _ => trivial⟩

/-- The branch `insert` builds where two keys part. -/
theorem wellFormed_branch {i j : Fin 17} {c1 c2 : Node} (h1 : SlotFits i c1) (h2 : SlotFits j c2)
    (hw1 : c1.WellFormed) (hw2 : c2.WellFormed) (f : NodeFlag) :
    (Node.full (Function.update (Function.update (fun _ => .empty) i c1) j c2) f).WellFormed :=
  wellFormed_update (wellFormed_update (wellFormed_full_empty f) h1 hw1 f) h2 hw2 f

theorem cachesHold_branch {i j : Fin 17} {c1 c2 : Node} (h1 : CachesHold keccak false c1)
    (h2 : CachesHold keccak false c2) {f : NodeFlag} (hf : f.hash = none) (force : Bool) :
    CachesHold keccak force (.full (Function.update (Function.update (fun _ => .empty) i c1) j c2) f) :=
  cachesHold_full_fresh hf (cachesHold_update
    (cachesHold_update (fun _ => show CachesHold keccak false .empty from trivial) h1) h2) force

/-! ### Short nodes over nibbles -/

theorem hasTerm_iff_of_nibbles {k : List UInt8} (hk : ∀ x ∈ k, x < 16) {v : Node}
    (hv : ∀ w, v ≠ .value w) : hasTerm k = true ↔ ∃ w, v = .value w := by
  rw [hasTerm_of_nibbles hk]
  simpa using hv

/-- A short node over nibbles with a child that is no value. -/
theorem wellFormed_short_nibbles {k : List UInt8} (hk : ∀ x ∈ k, x < 16) (hlen : k.length < 2 ^ 63)
    {v : Node} (hv : ∀ w, v ≠ .value w) (hwf : v.WellFormed) (f : NodeFlag) :
    (Node.short k v f).WellFormed :=
  ⟨validHex_of_nibbles hk, hlen, hasTerm_iff_of_nibbles hk hv, hwf⟩

theorem nibble_of_ne_last {p : Fin 17} (hp : p ≠ 16) : ∀ x ∈ [p.val.toUInt8], x < 16 := by
  have : p.val < 16 := by omega
  simp only [List.mem_singleton, forall_eq, UInt8.lt_iff_toNat_lt]
  simp
  omega

/-- A prefix of the key that is shorter than the key holds nibbles. -/
theorem nibbles_of_prefixLen_eq {key k : List UInt8} (hk : ValidHex key) (hm : prefixLen key k = k.length)
    (hlt : k.length < key.length) : ∀ x ∈ k, x < 16 := by
  rw [← take_of_prefixLen_eq hm]
  exact nibbles_take hk hlt

/-! ### What `insert` needs and leaves -/

theorem KeyFits.drop {key : List UInt8} {value : Node} (h : KeyFits keccak key value) (n : Nat) :
    KeyFits keccak (key.drop n) value where
  hex := validHex_drop h.hex n
  length := by
    have := h.length
    simp only [List.length_drop]
    omega
  term hne := by
    have hn : n < key.length := by
      rw [Ne, List.drop_eq_nil_iff] at hne
      omega
    rw [hasTerm_drop hn]
    exact h.term (List.ne_nil_of_length_pos (by omega))
  wf := h.wf
  holds := h.holds

/-- A short node's key and child are what `insert` needs to put the child back below it. -/
theorem keyFits_short {k : List UInt8} {v : Node} {f : NodeFlag} {force : Bool}
    (hwf : (Node.short k v f).WellFormed) (hn : CachesHold keccak force (.short k v f)) :
    KeyFits keccak k v :=
  ⟨hwf.1, hwf.2.1, fun _ => hwf.2.2.1, hwf.2.2.2, hn.2⟩

theorem inserted_inner {force : Bool} {key : List UInt8} (hne : key ≠ []) {value nn : Node}
    (hi : nn.isInner) (hwf : nn.WellFormed) (hc : CachesHold keccak force nn) :
    Inserted keccak force key value nn :=
  ⟨hwf, hc, fun h => absurd h hne, fun _ => ne_value_of_isInner hi⟩

/-- What `insert` leaves for the child at `key[pos]` fits that child's slot: the value slot is
reached only by the terminator, at the end of the key. -/
theorem slotFits_inserted {key : List UInt8} {value nn : Node} (hk : KeyFits keccak key value)
    {pos : Nat} {i : Fin 17} (hi : childIndex key pos = some i) {force : Bool}
    (hnn : Inserted keccak force (key.drop (pos + 1)) value nn) : SlotFits i nn := by
  obtain ⟨hpos, -⟩ := childIndex_some hi
  have hne : key ≠ [] := List.ne_nil_of_length_pos (by omega)
  by_cases hend : pos + 1 < key.length
  · refine slotFits_of_not_value (childIndex_ne_last hk.hex hi hend) (hnn.not_value ?_)
    rw [Ne, List.drop_eq_nil_iff]
    omega
  · have hlen : pos + 1 = key.length := by omega
    rw [hnn.at_end (List.drop_eq_nil_iff.mpr (by omega))]
    by_cases hlast : i = Fin.last 16
    · obtain ⟨w, hw⟩ := (hk.term hne).mp ((childIndex_last_iff hi hlen).mp hlast)
      rw [SlotFits, if_pos hlast]
      exact .inr ⟨w, hw⟩
    · refine slotFits_of_not_value hlast fun w hw => hlast ?_
      exact (childIndex_last_iff hi hlen).mpr ((hk.term hne).mpr ⟨w, hw⟩)

/-- Below a short node whose key starts the key, the inserted node is a value exactly where the
node's key is terminated. -/
theorem term_short_insert {key k : List UInt8} {value nn : Node} (hk : KeyFits keccak key value)
    (hne : key ≠ []) (hm : prefixLen key k = k.length)
    (hnn : Inserted keccak false (key.drop k.length) value nn) :
    hasTerm k = true ↔ ∃ w, nn = .value w := by
  have hle : k.length ≤ key.length := hm ▸ prefixLen_le_left key k
  rcases Nat.lt_or_ge k.length key.length with hlt | hge
  · -- a proper prefix holds nibbles, and below it is no value
    refine hasTerm_iff_of_nibbles (nibbles_of_prefixLen_eq hk.hex hm hlt) (hnn.not_value ?_)
    rw [Ne, List.drop_eq_nil_iff]
    omega
  · -- the whole key: the value itself
    have hkey : k = key := by
      rw [← take_of_prefixLen_eq hm, List.take_of_length_le hge]
    rw [hnn.at_end (List.drop_eq_nil_iff.mpr hge), hkey]
    exact hk.term hne

/-! ### What `delete` leaves -/

theorem deleted_empty (force : Bool) : Deleted keccak force .empty :=
  ⟨trivial, by cases force <;> trivial, fun _ h => Node.noConfusion h⟩

theorem deleted_inner {force : Bool} {nn : Node} (hi : nn.isInner) (hwf : nn.WellFormed)
    (hc : CachesHold keccak force nn) : Deleted keccak force nn :=
  ⟨hwf, hc, ne_value_of_isInner hi⟩

/-- Deleting below nothing or a value leaves nothing. -/
theorem delete_leaf {t : Trie} {n : Node} (hn : n = .empty ∨ ∃ w, n = .value w) {fuel : Nat}
    {pfx key : List UInt8} {r : Bool × Node} (h : t.delete fuel n pfx key = .ok r) : r.2 = .empty := by
  cases fuel with
  | zero => simp [Trie.delete] at h
  | succ fuel =>
    rcases hn with rfl | ⟨w, rfl⟩ <;> simp only [Trie.delete, Except.ok.injEq] at h <;> rw [← h]

/-! ### Resolving a hash node -/

section Resolve

variable (hsep : SizeSeparating keccak) {t : Trie} (hdb : BlobsHold (StoredNode keccak) (some t.db))
include hsep hdb

/-- A resolved hash node is a well-formed full or short node that its parent cannot tell from
the hash node, and whose hashes fit in the hash node's place: its own hash is the hash it was
read under, of an encoding of 32 bytes or more in a child's place. -/
theorem resolveHash_holds {x : Hash} {pfx : List UInt8} {m : Node}
    (h : t.resolveHash x pfx = .ok m) {force : Bool} (hx : CachesHold keccak force (.hash x)) :
    m.WellFormed ∧ CachesHold keccak force m ∧ SameRef keccak force m (.hash x) ∧ m.isInner := by
  unfold Trie.resolveHash at h
  split at h
  · rename_i enc henc
    split at h
    · cases h
    · rename_i hne
      rw [mapError_eq_ok] at h
      rcases hdb t.db rfl x enc henc with hnil | ⟨n, hwf, hch, rfl, hxk⟩
      · exact absurd hnil hne
      · have hd := decodeNode_collapsed n hwf hch _ _ _ [] m (by rwa [List.append_nil])
        -- the hash read under fits the collapsed form, large in a child's place
        have hfit : HashFits keccak (m.collapsed keccak) force x := by
          refine ⟨by rw [hd.collapsed_eq]; exact hxk, ?_⟩
          cases force with
          | true => exact .inl rfl
          | false =>
            obtain ⟨e, hke, he⟩ := hx
            have hsize := hsep e _ (hke.trans hxk)
            rw [hd.collapsed_eq]
            exact .inr (by omega)
        refine ⟨hd.wf, cachesHold_of_children hd.inner hd.children (fun y hy => ?_), ?_, hd.inner⟩
        · rw [hd.hash_eq] at hy
          cases hy
          exact hfit
        · refine ⟨?_, by rw [(kind_of_isInner hd.inner).1]; rfl,
            fun w => ⟨fun h => absurd h (ne_value_of_isInner hd.inner w), fun h => by cases h⟩⟩
          rw [storedValue_of_fits keccak (kind_of_isInner hd.inner) hfit, collapsed_hash]
          rfl
  · cases h

/-- `resolve` leaves a node other than a hash node as it is. -/
theorem resolve_holds {c : Node} {pfx : List UInt8} {m : Node} (h : t.resolve c pfx = .ok m)
    (hwf : c.WellFormed) (hc : CachesHold keccak false c) :
    m.WellFormed ∧ CachesHold keccak false m ∧ SameRef keccak false m c := by
  cases c with
  | hash x =>
    obtain ⟨hwf', hc', hsame, -⟩ := resolveHash_holds hsep hdb h hc
    exact ⟨hwf', hc', hsame⟩
  | _ =>
    cases h
    exact ⟨hwf, hc, .refl _ _⟩

/-! ### `tryGet` -/

/-- `tryGet` leaves in a node's place a well-formed node with fitting hashes that the parent
cannot tell from the node. The induction is on the fuel; a copy keeps its hash because its
collapsed form is unchanged. -/
theorem tryGet_holds : ∀ (fuel : Nat) (n : Node) (key : List UInt8) (pos : Nat) (force : Bool)
    {r : Option (List UInt8) × Node × Bool}, n.WellFormed → CachesHold keccak force n →
    t.tryGet fuel n key pos = .ok r →
    r.2.1.WellFormed ∧ CachesHold keccak force r.2.1 ∧ SameRef keccak force r.2.1 n := by
  intro fuel
  induction fuel with
  | zero =>
    intro n key pos force r _ _ h
    simp [Trie.tryGet] at h
  | succ fuel ih =>
    intro n key pos force r hwf hn h
    cases n with
    | empty =>
      simp only [Trie.tryGet, Except.ok.injEq] at h
      subst h
      exact ⟨hwf, hn, .refl _ _⟩
    | value v =>
      simp only [Trie.tryGet, Except.ok.injEq] at h
      subst h
      exact ⟨hwf, hn, .refl _ _⟩
    | short k v flags =>
      simp only [Trie.tryGet] at h
      split_ifs at h with hmis
      · cases h
        exact ⟨hwf, hn, .refl _ _⟩
      · split at h
        · cases h
        · rename_i value newnode didResolve hrec
          obtain ⟨hwf', hn', hsame⟩ := ih v key _ false hwf.2.2.2 hn.2 hrec
          split_ifs at h
          · -- the child was resolved: a copy with the same key and hash
            cases h
            have hcoll := collapsed_short_congr hsame flags { flags with gen := t.cachegen } (k := k)
            refine ⟨⟨hwf.1, hwf.2.1, hwf.2.2.1.trans (exists_congr fun w => (hsame.value w).symm),
              hwf'⟩, ⟨fun x hx => by rw [hcoll]; exact hn.1 x hx, hn'⟩,
              sameRef_of_collapsed rfl rfl hcoll force⟩
          · cases h
            exact ⟨hwf, hn, .refl _ _⟩
    | full cs flags =>
      simp only [Trie.tryGet] at h
      split at h
      · cases h
      · rename_i i hi
        split at h
        · cases h
        · rename_i value newnode didResolve hrec
          obtain ⟨hwf', hn', hsame⟩ :=
            ih (cs i) key (pos + 1) false (hwf.2.2 i) (cachesHold_child hwf hn i) hrec
          split_ifs at h with hd
          · -- a resolved child is a nibble child: the value slot holds nothing to resolve
            cases h
            have hlast : i ≠ Fin.last 16 := by
              rintro rfl
              rcases hwf.1 with hs | ⟨w, hs⟩ <;> (change cs (Fin.last 16) = _ at hs) <;>
                rw [hs] at hrec <;> cases fuel <;> simp [Trie.tryGet] at hrec <;>
                exact absurd hrec.2.2 (by simp [hd])
            have hcoll := collapsed_update hlast hsame flags { flags with gen := t.cachegen }
            have hnv : ∀ w, cs i ≠ .value w := by
              have hi' : i ≠ 16 := hlast
              simpa [SlotFits, hi'] using ((wellFormed_full_iff cs flags).mp hwf).1 i
            refine ⟨wellFormed_update hwf (slotFits_of_not_value hlast fun w hw =>
                hnv w ((hsame.value w).mp hw)) hwf' _,
              ⟨fun x hx => by rw [hcoll]; exact hn.1 x hx, fun j => ?_⟩,
              sameRef_of_collapsed rfl rfl hcoll force⟩
            · by_cases hj : j.castSucc = i
              · subst hj
                rw [Function.update_self]
                exact hn'
              · rw [Function.update_of_ne hj]
                exact hn.2 j
          · cases h
            exact ⟨hwf, hn, .refl _ _⟩
    | hash x =>
      simp only [Trie.tryGet] at h
      split at h
      · cases h
      · rename_i child hres
        obtain ⟨hwfc, hnc, hsamec, -⟩ := resolveHash_holds hsep hdb hres hn
        obtain ⟨⟨value, newnode, d⟩, hrec, rfl⟩ := map_eq_ok h
        obtain ⟨hwf', hn', hsame⟩ := ih child key pos force hwfc hnc hrec
        exact ⟨hwf', hn', hsame.trans hsamec⟩

/-! ### `insert` -/

/-- `insert` leaves in a node's place a well-formed node with fitting hashes: every node it
builds or copies has a fresh flag, and the nodes it keeps are the node, its children, resolved
nodes, or the value. The induction is on the fuel, for every node, key and value. -/
theorem insert_holds : ∀ (fuel : Nat) (n : Node) (pfx key : List UInt8) (value : Node)
    (force : Bool) {r : Bool × Node}, n.WellFormed → CachesHold keccak force n →
    KeyFits keccak key value → t.insert fuel n pfx key value = .ok r →
    Inserted keccak force key value r.2 := by
  intro fuel
  induction fuel with
  | zero =>
    intro n pfx key value force r _ _ _ h
    simp [Trie.insert] at h
  | succ fuel ih =>
    intro n pfx key value force r hwf hn hk h
    simp only [Trie.insert] at h
    by_cases hkey : key = []
    · -- at the end of the key the value takes the node's place
      rw [if_pos hkey] at h
      have hr : r.2 = value := by
        split at h
        · split at h
          · cases h
            rfl
          · cases h
        · cases h
          rfl
      rw [hr]
      exact ⟨hk.wf, cachesHold_of_false hk.holds force, fun _ => rfl, fun h => absurd hkey h⟩
    rw [if_neg hkey] at h
    cases n with
    | short k v f =>
      dsimp only at h
      by_cases hm : prefixLen key k = k.length
      · -- the node's key starts the key: insert below the node
        rw [if_pos hm] at h
        split at h
        · cases h
        · rename_i dirty nn hrec
          have hnn := ih v _ _ value false hwf.2.2.2 hn.2 (hk.drop _) hrec
          rw [hm] at hnn
          split_ifs at h
          · cases h
            exact inserted_inner hkey rfl ⟨hwf.1, hwf.2.1, term_short_insert hk hkey hm hnn, hnn.wf⟩
              (cachesHold_short_fresh rfl hnn.holds force)
          · cases h
            exact inserted_inner hkey rfl hwf hn
      · -- the keys part inside the node's key: a branch for the old child and the value
        rw [if_neg hm] at h
        split at h
        · rename_i i j hi hj
          split at h
          · cases h
          · rename_i c1 hrec1
            split at h
            · cases h
            · rename_i c2 hrec2
              have h1 := ih .empty _ _ v false trivial trivial ((keyFits_short hwf hn).drop _) hrec1
              have h2 := ih .empty _ _ value false trivial trivial (hk.drop _) hrec2
              have hbr := wellFormed_branch (slotFits_inserted (keyFits_short hwf hn) hi h1)
                (slotFits_inserted hk hj h2) h1.wf h2.wf t.newFlag
              have hbc := cachesHold_branch (i := i) (j := j) h1.holds h2.holds (f := t.newFlag) rfl
              split_ifs at h
              · cases h
                exact inserted_inner hkey rfl hbr (hbc force)
              · -- the common part of the keys stays above the branch
                cases h
                obtain ⟨hlt, -⟩ := childIndex_some hj
                have hnib := nibbles_take hk.hex hlt
                have hlen : (key.take (prefixLen key k)).length < 2 ^ 63 := by
                  have := hk.length
                  simp only [List.length_take]
                  omega
                exact inserted_inner hkey rfl
                  (wellFormed_short_nibbles hnib hlen (ne_value_of_isInner rfl) hbr _)
                  (cachesHold_short_fresh rfl (hbc false) force)
        · cases h
    | full cs f =>
      dsimp only at h
      split at h
      · cases h
      · rename_i i hi
        split at h
        · cases h
        · rename_i dirty nn hrec
          have hnn := ih (cs i) _ _ value false (hwf.2.2 i) (cachesHold_child hwf hn i)
            (hk.drop 1) hrec
          split_ifs at h
          · cases h
            exact inserted_inner hkey rfl
              (wellFormed_update hwf (slotFits_inserted hk hi hnn) hnn.wf _)
              (cachesHold_full_fresh rfl (cachesHold_update (cachesHold_child hwf hn) hnn.holds) force)
          · cases h
            exact inserted_inner hkey rfl hwf hn
    | empty =>
      dsimp only at h
      cases h
      exact inserted_inner hkey rfl ⟨hk.hex, hk.length, hk.term hkey, hk.wf⟩
        (cachesHold_short_fresh rfl hk.holds force)
    | hash x =>
      dsimp only at h
      split at h
      · cases h
      · rename_i rn hres
        obtain ⟨hwfr, hnr, -, hinr⟩ := resolveHash_holds hsep hdb hres hn
        split at h
        · cases h
        · rename_i dirty nn hrec
          split_ifs at h with hd
          · cases h
            subst hd
            exact ih rn _ _ value force hwfr hnr hk hrec
          · cases h
            exact inserted_inner hkey hinr hwfr hnr
    | value w =>
      dsimp only at h
      cases h

/-! ### `delete` -/

/-- `delete` leaves in a node's place a well-formed node with fitting hashes that is no value: a
merged or shortened node has a fresh flag, and a full node left with one child becomes a short
node over that child's position. The induction is on the fuel, for every node and hex key. -/
theorem delete_holds : ∀ (fuel : Nat) (n : Node) (pfx key : List UInt8) (force : Bool)
    {r : Bool × Node}, n.WellFormed → CachesHold keccak force n → ValidHex key →
    t.delete fuel n pfx key = .ok r → Deleted keccak force r.2 := by
  intro fuel
  induction fuel with
  | zero =>
    intro n pfx key force r _ _ _ h
    simp [Trie.delete] at h
  | succ fuel ih =>
    intro n pfx key force r hwf hn hk h
    simp only [Trie.delete] at h
    cases n with
    | short k v f =>
      dsimp only at h
      split_ifs at h with hlt hend
      · cases h
        exact deleted_inner rfl hwf hn
      · cases h
        exact deleted_empty force
      · -- the node's key is a proper prefix of the key: delete below it
        have hm : prefixLen key k = k.length :=
          le_antisymm (prefixLen_le_right key k) (Nat.not_lt.mp hlt)
        have hnib := nibbles_of_prefixLen_eq hk hm
          (lt_of_le_of_ne (hm ▸ prefixLen_le_left key k) (hm ▸ hend))
        split at h
        · cases h
        · rename_i dirty child hrec
          have hc := ih v _ _ false hwf.2.2.2 hn.2 (validHex_drop hk _) hrec
          split_ifs at h
          · cases h
            exact deleted_inner rfl hwf hn
          · split at h
            · -- a short child is merged into the node
              rename_i ck cv cf
              obtain ⟨key', hcat, hr⟩ := map_eq_ok h
              obtain ⟨rfl, hlen⟩ := concat_ok hcat
              subst hr
              have hcwf : (Node.short ck cv cf).WellFormed := hc.wf
              refine deleted_inner rfl ⟨validHex_append hnib hcwf.1, hlen, ?_, hcwf.2.2.2⟩
                (cachesHold_short_fresh rfl hc.holds.2 force)
              rw [hasTerm_append_of_nibbles hnib]
              exact hcwf.2.2.1
            · cases h
              exact deleted_inner rfl (wellFormed_short_nibbles hnib hwf.2.1 hc.not_value hc.wf _)
                (cachesHold_short_fresh rfl hc.holds force)
    | full cs f =>
      dsimp only at h
      split at h
      · cases h
      · rename_i i hi
        split at h
        · cases h
        · rename_i dirty nn hrec
          have hnn := ih (cs i) _ _ false (hwf.2.2 i) (cachesHold_child hwf hn i)
            (validHex_drop hk 1) hrec
          by_cases hd : (!dirty) = true
          · rw [if_pos hd] at h
            cases h
            exact deleted_inner rfl hwf hn
          rw [if_neg hd] at h
          -- the value slot is left empty, and a nibble slot holds no value
          have hslot : SlotFits i nn := by
            by_cases hlast : i = Fin.last 16
            · have hleaf : cs i = .empty ∨ ∃ w, cs i = .value w := by
                rw [hlast]
                exact hwf.1
              rw [SlotFits, if_pos hlast, show nn = .empty from delete_leaf hleaf hrec]
              exact .inl rfl
            · exact slotFits_of_not_value hlast hnn.not_value
          have hwf' := (wellFormed_full_iff _ t.newFlag).mp (wellFormed_update hwf hslot hnn.wf t.newFlag)
          have hcs := cachesHold_update (i := i) (cachesHold_child hwf hn) hnn.holds
          have hnib : ∀ p : Fin 17, p ≠ 16 → ∀ w, Function.update cs i nn p ≠ .value w :=
            fun p hp => by simpa [SlotFits, hp] using hwf'.1 p
          split at h
          · rename_i hpos
            obtain ⟨q, hq, hqe⟩ := onlyChildPos_spec _ hpos.1
            split at h
            · -- one nibble child: resolved, and merged into a short node when it is one
              rename_i hp
              split at h
              · cases h
              · rename_i ck cv cf hres
                obtain ⟨hrwf, hrc, -⟩ := resolve_holds hsep hdb hres (hwf'.2 _) (hcs _)
                obtain ⟨key', hcat, hr⟩ := map_eq_ok h
                obtain ⟨rfl, hlen⟩ := concat_ok hcat
                subst hr
                refine deleted_inner rfl
                  ⟨validHex_append (nibble_of_ne_last hp) hrwf.1, hlen, ?_, hrwf.2.2.2⟩
                  (cachesHold_short_fresh rfl hrc.2 force)
                rw [hasTerm_append_of_nibbles (nibble_of_ne_last hp)]
                exact hrwf.2.2.1
              · cases h
                exact deleted_inner rfl
                  (wellFormed_short_nibbles (nibble_of_ne_last hp) (by simp) (hnib _ hp) (hwf'.2 _) _)
                  (cachesHold_short_fresh rfl (hcs _) force)
            · -- only the value slot: a short node with the terminator over the value
              rename_i hp
              rw [not_not] at hp
              have h16 : (onlyChildPos (Function.update cs i nn)).toNat = 16 := congrArg Fin.val hp
              rw [hp, h16] at h
              cases h
              have hq16 : q = 16 := by
                rw [hq] at h16
                exact Fin.ext h16
              subst hq16
              have hval : ∃ w, Function.update cs i nn 16 = .value w := by
                have hfit := hwf'.1 16
                rw [SlotFits, if_pos (show (16 : Fin 17) = Fin.last 16 from rfl)] at hfit
                rcases hfit with he | hv
                · rw [he] at hqe
                  cases hqe
                · exact hv
              exact deleted_inner rfl ⟨validHex_term, by simp, by simpa [hasTerm] using hval, hwf'.2 16⟩
                (cachesHold_short_fresh rfl (hcs 16) force)
          · cases h
            exact deleted_inner rfl (wellFormed_update hwf hslot hnn.wf _)
              (cachesHold_full_fresh rfl hcs force)
    | value w =>
      cases h
      exact deleted_empty force
    | empty =>
      cases h
      exact deleted_empty force
    | hash x =>
      dsimp only at h
      split at h
      · cases h
      · rename_i rn hres
        obtain ⟨hwfr, hnr, -, hinr⟩ := resolveHash_holds hsep hdb hres hn
        split at h
        · cases h
        · rename_i dirty nn hrec
          split_ifs at h with hd
          · cases h
            subst hd
            exact ih rn _ _ force hwfr hnr hk hrec
          · cases h
            exact deleted_inner hinr hwfr hnr

end Resolve

end Keccak

end EpvChain.Trie
