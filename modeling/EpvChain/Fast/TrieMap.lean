import EpvChain.Fast.Trie

/-!
# The in-memory trie is a finite map (`fast/trie.go`)

A trie whose nodes are all in memory (no hash node left to resolve) holds, under each key, the
value `Node.lookup` reads off its nodes. The source's walks act on that reading as a finite map
does: `tryGet_good` reads it, `insert_good` sets one key and `delete_good` erases one, through
the merges of short nodes and the collapse of a full node left with one child. Each keeps
`Good`, the shape of the nodes the walks make: short nodes with non-empty hex keys, value nodes
exactly where a key ends, no hash node, and paths that fit in an `int`. The keys are read
through `KeyRest`: what is left of a terminated hex key below a node.
-/

set_option linter.dupNamespace false

namespace EpvChain.Trie

/-- What is left of a hex key at a node: nothing once the terminator has been passed, else a
hex key that ends in the terminator. -/
def KeyRest : Bool → List UInt8 → Prop
  | true, rest => rest = []
  | false, rest => ValidHex rest ∧ hasTerm rest = true

namespace Node

/-- The value a node holds at `rest`, the part of a hex key still to walk, read from the node
shapes alone. A hash node holds nothing here: an in-memory trie has none. -/
def lookup : Node → List UInt8 → Option (List UInt8)
  | empty, _ => none
  | value v, rest => if rest = [] then some v else none
  | short k c _, rest => if k <+: rest then c.lookup (rest.drop k.length) else none
  | full _ _, [] => none
  | full cs _, b :: rest => if h : b.toNat < 17 then (cs ⟨b.toNat, h⟩).lookup rest else none
  | hash _, _ => none

/-- The shape the walks keep, at a place after the terminator (`term`) or not, with `room` the
longest path allowed below. -/
def Good : Bool → Nat → Node → Prop
  | _, _, empty => True
  | term, _, value _ => term = true
  | term, room, short k c _ =>
    term = false ∧ k ≠ [] ∧ ValidHex k ∧ k.length ≤ room ∧ c.Good (hasTerm k) (room - k.length)
  | term, room, full cs _ =>
    term = false ∧ 0 < room ∧ ∀ i, (cs i).Good (decide (i = Fin.last 16)) (room - 1)
  | _, _, hash _ => False

theorem good_short {term : Bool} {room : Nat} {k : List UInt8} {c : Node} {f : NodeFlag} :
    (short k c f).Good term room ↔
      term = false ∧ k ≠ [] ∧ ValidHex k ∧ k.length ≤ room ∧ c.Good (hasTerm k) (room - k.length) :=
  Iff.rfl

theorem good_full {term : Bool} {room : Nat} {cs : Fin 17 → Node} {f : NodeFlag} :
    (full cs f).Good term room ↔
      term = false ∧ 0 < room ∧ ∀ i, (cs i).Good (decide (i = Fin.last 16)) (room - 1) :=
  Iff.rfl

end Node

/-! ### The rest of a key -/

theorem keyRest_false_ne_nil {rest : List UInt8} (h : KeyRest false rest) : rest ≠ [] := by
  rintro rfl
  simp [KeyRest, hasTerm] at h

/-- Below a short node's key the rest is terminated exactly when that key was not. -/
theorem keyRest_drop {k rest : List UInt8} (hr : KeyRest false rest) (hne : k ≠ [])
    (hp : k <+: rest) : KeyRest (hasTerm k) (rest.drop k.length) := by
  obtain ⟨hvalid, hterm⟩ := hr
  obtain ⟨r, rfl⟩ := hp
  rw [List.drop_left]
  cases hkt : hasTerm k
  · -- the terminator is still ahead: it ends `r`
    have hr : r ≠ [] := by
      rintro rfl
      rw [List.append_nil, hkt] at hterm
      cases hterm
    have hvr : ValidHex r := by simpa using validHex_drop hvalid k.length
    exact ⟨hvr, by rwa [hasTerm_append _ hr] at hterm⟩
  · -- the terminator ends `k`, and a valid key has it only at its end
    show r = []
    by_contra hr
    have hlt : k.length < (k ++ r).length := by
      simp [List.length_pos_iff.mpr hr]
    have hnib := nibbles_take hvalid hlt
    rw [List.take_left] at hnib
    have hlast := hnib (k.getLast hne) (List.getLast_mem hne)
    have h16 : k.getLast hne = 16 := by
      simpa [hasTerm, List.getLast?_eq_some_getLast hne] using hkt
    rw [h16] at hlast
    exact absurd hlast (by decide)

/-- At a full node the rest of a key names a child, and what is left after it is terminated
exactly when that child is the value slot. -/
theorem keyRest_childIndex {rest : List UInt8} (hr : KeyRest false rest) :
    ∃ i, childIndex rest 0 = some i ∧ KeyRest (decide (i = Fin.last 16)) (rest.drop 1) := by
  obtain ⟨hvalid, hterm⟩ := hr
  obtain ⟨b, r, rfl⟩ := List.exists_cons_of_ne_nil (keyRest_false_ne_nil ⟨hvalid, hterm⟩)
  rcases eq_or_ne r [] with rfl | hr
  · -- the key's last place: the terminator, and the value slot
    have hb : b = 16 := by simpa [hasTerm] using hterm
    subst hb
    exact ⟨Fin.last 16, by decide, by simp [KeyRest]⟩
  · -- before it, a nibble
    obtain ⟨hb, hvr⟩ := (validHex_cons hr).mp hvalid
    have hb' : b.toNat < 16 := UInt8.lt_iff_toNat_lt.mp hb
    refine ⟨⟨b.toNat, by omega⟩, by simp [childIndex, show b.toNat < 17 by omega], ?_⟩
    have hne : (⟨b.toNat, by omega⟩ : Fin 17) ≠ Fin.last 16 := by
      intro h
      have := congrArg Fin.val h
      simp only [Fin.val_last] at this
      omega
    rw [decide_eq_false hne]
    exact ⟨hvr, by rwa [← List.singleton_append, hasTerm_append _ hr] at hterm⟩

theorem childIndex_drop (key : List UInt8) (pos : Nat) :
    childIndex key pos = childIndex (key.drop pos) 0 := by
  simp [childIndex]

/-! ### Hex keys and common prefixes -/

/-- Before its last place a hex key holds nibbles. -/
theorem validHex_getElem_lt {k : List UInt8} (hk : ValidHex k) {i : Nat} (h : i + 1 < k.length) :
    k[i] < 16 :=
  nibbles_take hk h _ (List.mem_take_iff_getElem.mpr ⟨i, by simp; omega, rfl⟩)

/-- Every place of a hex key names one of a full node's seventeen children. -/
theorem childIndex_of_validHex {k : List UInt8} (hk : ValidHex k) {pos : Nat} (h : pos < k.length) :
    ∃ i : Fin 17, childIndex k pos = some i ∧ i.val = k[pos].toNat := by
  have hle : k[pos].toNat < 17 := by
    rcases Nat.lt_or_ge (pos + 1) k.length with hlt | hge
    · have := UInt8.lt_iff_toNat_lt.mp (validHex_getElem_lt hk hlt)
      simp only [UInt8.reduceToNat] at this
      omega
    · -- the last place: a nibble, or the terminator
      have hmem : k[pos] ∈ (if hasTerm k then k.dropLast else k) ∨ k[pos] = 16 := by
        split
        · rename_i ht
          right
          have hne : k ≠ [] := List.ne_nil_of_length_pos (by omega)
          have hl := List.getLast?_eq_some_getLast hne
          simp only [hasTerm, hl, beq_iff_eq, Option.some.injEq] at ht
          rw [List.getLast_eq_getElem] at ht
          simpa [show k.length - 1 = pos by omega] using ht
        · exact .inl (List.getElem_mem _)
      rcases hmem with hmem | h16
      · have := UInt8.lt_iff_toNat_lt.mp (hk _ hmem)
        simp only [UInt8.reduceToNat] at this
        omega
      · rw [h16]
        decide
  refine ⟨⟨k[pos].toNat, hle⟩, ?_, rfl⟩
  simp [childIndex, List.getElem?_eq_getElem h, hle]

/-- Where the common prefix stops inside both keys, they differ. -/
theorem prefixLen_getElem_ne : ∀ {a b : List UInt8} (ha : prefixLen a b < a.length)
    (hb : prefixLen a b < b.length), a[prefixLen a b] ≠ b[prefixLen a b]
  | [], _, ha, _ => absurd ha (Nat.not_lt_zero _)
  | _ :: _, [], _, hb => absurd hb (Nat.not_lt_zero _)
  | x :: a, y :: b, ha, hb => by
    by_cases hxy : x = y
    · have ha' : prefixLen a b < a.length := by simp [prefixLen, hxy] at ha; omega
      have hb' : prefixLen a b < b.length := by simp [prefixLen, hxy] at hb; omega
      simpa [prefixLen, hxy] using prefixLen_getElem_ne ha' hb'
    · simp [prefixLen, hxy]

/-- A terminated hex key is never a proper prefix of a hex key. -/
theorem prefixLen_lt_of_keyRest {key k : List UInt8} (hr : KeyRest false key) (hk : ValidHex k)
    (hm : prefixLen key k < k.length) : prefixLen key k < key.length := by
  rcases (prefixLen_le_left key k).lt_or_eq with hlt | heq
  · exact hlt
  · exfalso
    have hne := keyRest_false_ne_nil hr
    have hpos := List.length_pos_iff.mpr hne
    -- the key's terminator sits inside `k`, before its last place
    have htake := take_prefixLen key k
    rw [heq, List.take_length] at htake
    have hlast : key[key.length - 1] = 16 := by
      have ht := hr.2
      simp only [hasTerm, List.getLast?_eq_some_getLast hne, beq_iff_eq, Option.some.injEq,
        List.getLast_eq_getElem] at ht
      exact ht
    have hk16 := validHex_getElem_lt hk (i := key.length - 1) (by omega)
    have hpre : key <+: k := List.prefix_iff_eq_take.mpr htake
    rw [← hpre.getElem (by omega), hlast] at hk16
    exact absurd hk16 (by decide)

/-- A node's key that starts the key looked up is its whole common prefix with it. -/
theorem prefixLen_eq_length : ∀ {key k : List UInt8}, k <+: key → prefixLen key k = k.length
  | _, [], _ => by cases ‹List UInt8› <;> rfl
  | [], _ :: _, h => absurd h.length_le (by simp)
  | x :: key, y :: k, h => by
    obtain ⟨rfl, hp⟩ := List.cons_prefix_cons.mp h
    simp [prefixLen, prefixLen_eq_length hp]

/-- A hex key that is not terminated is all nibbles. -/
theorem nibbles_of_validHex {k : List UInt8} (hk : ValidHex k) (ht : hasTerm k = false) :
    ∀ x ∈ k, x < 16 := by
  simpa [ValidHex, ht] using hk

/-- Two keys with a common prefix are one key exactly when they are one after it. -/
theorem drop_length_eq_iff {k a b : List UInt8} (ha : k <+: a) (hb : k <+: b) :
    a.drop k.length = b.drop k.length ↔ a = b := by
  obtain ⟨ra, rfl⟩ := ha
  obtain ⟨rb, rfl⟩ := hb
  simp

/-- Two keys whose first places name one child are one key exactly when they are one after it. -/
theorem drop_one_eq_iff {a b : List UInt8} {i : Fin 17} (ha : childIndex a 0 = some i)
    (hb : childIndex b 0 = some i) : a.drop 1 = b.drop 1 ↔ a = b := by
  obtain ⟨hpa, hia⟩ := childIndex_some ha
  obtain ⟨hpb, hib⟩ := childIndex_some hb
  obtain ⟨x, a, rfl⟩ := List.exists_cons_of_ne_nil (List.ne_nil_of_length_pos hpa)
  obtain ⟨y, b, rfl⟩ := List.exists_cons_of_ne_nil (List.ne_nil_of_length_pos hpb)
  have hxy : x = y := UInt8.toNat_inj.mp (by simpa using hia.symm.trans hib)
  simp [hxy]

/-- Keys whose first places name different children differ. -/
theorem ne_of_childIndex_ne {a b : List UInt8} {i j : Fin 17} (ha : childIndex a 0 = some i)
    (hb : childIndex b 0 = some j) (hij : i ≠ j) : a ≠ b := by
  rintro rfl
  rw [ha] at hb
  exact hij (Option.some.inj hb)

/-! ### Reading the map -/

namespace Node

@[simp] theorem lookup_empty (rest : List UInt8) : empty.lookup rest = none := rfl

theorem lookup_value (v rest : List UInt8) :
    (value v).lookup rest = if rest = [] then some v else none := rfl

theorem lookup_short (k : List UInt8) (c : Node) (f : NodeFlag) (rest : List UInt8) :
    (short k c f).lookup rest = if k <+: rest then c.lookup (rest.drop k.length) else none := rfl

/-- The flags of a full node do not bear on what it reads. -/
theorem lookup_full_flags (cs : Fin 17 → Node) (f f' : NodeFlag) (rest : List UInt8) :
    (full cs f).lookup rest = (full cs f').lookup rest := by
  cases rest <;> rfl

/-- A full node passes the rest on to the child its first nibble names. -/
theorem lookup_full_of_childIndex {cs : Fin 17 → Node} {f : NodeFlag} {rest : List UInt8}
    {i : Fin 17} (h : childIndex rest 0 = some i) :
    (full cs f).lookup rest = (cs i).lookup (rest.drop 1) := by
  obtain ⟨hpos, hi⟩ := childIndex_some h
  obtain ⟨b, r, rfl⟩ := List.exists_cons_of_ne_nil (List.ne_nil_of_length_pos hpos)
  have hb : b.toNat < 17 := by
    have := i.isLt
    simp only [List.getElem_cons_zero] at hi
    omega
  have hi' : (⟨b.toNat, hb⟩ : Fin 17) = i := by
    ext
    simpa using hi.symm
  simp [lookup, hb, hi']

theorem lookup_ite_short (p : List UInt8) (c : Node) (f : NodeFlag) (rest : List UInt8) :
    (if p = [] then c else short p c f).lookup rest =
      if p <+: rest then c.lookup (rest.drop p.length) else none := by
  by_cases hp : p = []
  · subst hp
    simp
  · rw [if_neg hp]
    rfl

/-- A value at the end of `p`, read at `rest`: the value exactly when `rest` is `p`. -/
theorem lookup_value_after (p w rest : List UInt8) :
    (if p <+: rest then (value w).lookup (rest.drop p.length) else none) =
      if rest = p then some w else none := by
  by_cases hp : p <+: rest
  · obtain ⟨r, rfl⟩ := hp
    simp [lookup_value]
  · have hne : rest ≠ p := fun h => hp (h ▸ List.prefix_refl p)
    simp [hp, hne]

/-- A full node with one child replaced reads that child at its slot. -/
theorem lookup_full_update {cs : Fin 17 → Node} {f : NodeFlag} {i s : Fin 17} {c : Node}
    {rest : List UInt8} (h : childIndex rest 0 = some s) :
    (full (Function.update cs i c) f).lookup rest =
      if s = i then c.lookup (rest.drop 1) else (cs s).lookup (rest.drop 1) := by
  rw [lookup_full_of_childIndex h, Function.update_apply]
  split <;> rfl

/-- A short node whose child changes at the rest of `key` alone changes at `key` alone. -/
theorem lookup_short_child {k key : List UInt8} (hne : k ≠ []) (hp : k <+: key) {c c' : Node}
    {o : Option (List UInt8)}
    (hlook : ∀ rest, KeyRest (hasTerm k) rest →
      c'.lookup rest = if rest = key.drop k.length then o else c.lookup rest)
    (f g : NodeFlag) (rest : List UInt8) (hrest : KeyRest false rest) :
    (short k c' g).lookup rest = if rest = key then o else (short k c f).lookup rest := by
  rw [lookup_short, lookup_short]
  by_cases hpr : k <+: rest
  · rw [if_pos hpr, if_pos hpr, hlook _ (keyRest_drop hrest hne hpr)]
    simp only [drop_length_eq_iff hpr hp]
  · rw [if_neg hpr, if_neg hpr, if_neg (fun h : rest = key => hpr (h ▸ hp))]

/-- A full node whose child at the first nibble of `key` changes at the rest of `key` alone
changes at `key` alone. -/
theorem lookup_full_child {cs : Fin 17 → Node} {i : Fin 17} {key : List UInt8}
    (hi : childIndex key 0 = some i) {c' : Node} {o : Option (List UInt8)}
    (hlook : ∀ rest, KeyRest (decide (i = Fin.last 16)) rest →
      c'.lookup rest = if rest = key.drop 1 then o else (cs i).lookup rest)
    (f g : NodeFlag) (rest : List UInt8) (hrest : KeyRest false rest) :
    (full (Function.update cs i c') g).lookup rest =
      if rest = key then o else (full cs f).lookup rest := by
  obtain ⟨s, hs, hrs⟩ := keyRest_childIndex hrest
  rw [lookup_full_update hs, lookup_full_of_childIndex hs]
  by_cases hsi : s = i
  · subst hsi
    rw [if_pos rfl, hlook _ hrs]
    simp only [drop_one_eq_iff hs hi]
  · rw [if_neg hsi, if_neg (ne_of_childIndex_ne hs hi hsi)]

/-- The branch `insert` makes where two keys part: two children, the rest empty. -/
theorem lookup_branch_pair (i j : Fin 17) (c₁ c₂ : Node) (f : NodeFlag) (x : UInt8)
    (r : List UInt8) :
    (full (Function.update (Function.update (fun _ => empty) i c₁) j c₂) f).lookup (x :: r) =
      if x.toNat = j.val then c₂.lookup r else if x.toNat = i.val then c₁.lookup r else none := by
  by_cases hx : x.toNat < 17
  · simp only [lookup, hx, dite_true, Function.update_apply, Fin.ext_iff]
    split_ifs <;> rfl
  · have hj : x.toNat ≠ j.val := by have := j.isLt; omega
    have hi : x.toNat ≠ i.val := by have := i.isLt; omega
    simp [lookup, hx, hj, hi]

/-- **The split of a short node.** Where a key `P ++ b :: Q` leaves a short node's key
`P ++ a :: K`, the branch `insert` builds under `P` reads the new value at the key and what the
short node read elsewhere. -/
theorem lookup_split {P K Q : List UInt8} {a b : UInt8} (hab : a ≠ b) {i j : Fin 17}
    (hi : i.val = a.toNat) (hj : j.val = b.toNat) (v : Node) (w : List UInt8)
    (f f₁ f₂ f₃ : NodeFlag) (rest : List UInt8) :
    (if P <+: rest then
        (full (Function.update (Function.update (fun _ => empty) i
          (if K = [] then v else short K v f₁)) j
          (if Q = [] then value w else short Q (value w) f₂)) f₃).lookup (rest.drop P.length)
      else none) =
      if rest = P ++ b :: Q then some w else (short (P ++ a :: K) v f).lookup rest := by
  have hab' : a.toNat ≠ b.toNat := fun h => hab (UInt8.toNat_inj.mp h)
  by_cases hP : P <+: rest
  · obtain ⟨r, rfl⟩ := hP
    rw [if_pos (List.prefix_append P r), List.drop_left, lookup_short]
    cases r with
    | nil =>
      have hold : ¬ P ++ a :: K <+: P := fun h => by
        have := h.length_le
        simp at this
      simp [lookup, hold]
    | cons x r =>
      rw [lookup_branch_pair, lookup_ite_short, lookup_ite_short, lookup_value_after]
      simp only [List.append_cancel_left_eq, List.cons.injEq, List.prefix_append_right_inj,
        List.cons_prefix_cons, hi, hj]
      by_cases hxb : x = b
      · subst hxb
        simp [hab]
      · have hxb' : x.toNat ≠ b.toNat := fun h => hxb (UInt8.toNat_inj.mp h)
        by_cases hxa : x = a
        · subst hxa
          simp [hxb, hxb', List.drop_append,
            List.drop_eq_nil_of_le (show P.length ≤ P.length + (K.length + 1) by omega)]
        · have hxa' : x.toNat ≠ a.toNat := fun h => hxa (UInt8.toNat_inj.mp h)
          simp [hxb, hxb', hxa', Ne.symm hxa]
  · have hkey : rest ≠ P ++ b :: Q := fun h => hP (h ▸ List.prefix_append _ _)
    have hold : ¬ P ++ a :: K <+: rest := fun h => hP ((List.prefix_append _ _).trans h)
    simp [hP, hkey, lookup_short, hold]

end Node

/-! ### `tryGet` -/

/-- **`tryGet` reads the map.** On a node of the kept shape, with fuel for every place of the key
left, `tryGet` answers `lookup` at the rest of the key, keeps the node, and resolves nothing. -/
theorem tryGet_good (t : Trie) : ∀ (fuel : Nat) (n : Node) (key : List UInt8) (pos : Nat)
    {term : Bool} {room : Nat}, n.Good term room → KeyRest term (key.drop pos) →
    (key.drop pos).length < fuel → t.tryGet fuel n key pos = .ok (n.lookup (key.drop pos), n, false)
  | 0, _, _, _, _, _, _, _, hfuel => absurd hfuel (Nat.not_lt_zero _)
  | fuel + 1, .empty, key, pos, _, _, _, _, _ => by simp [Trie.tryGet]
  | fuel + 1, .value v, key, pos, term, _, hg, hr, _ => by
    obtain rfl : term = true := hg
    rw [show key.drop pos = [] from hr]
    simp [Trie.tryGet, Node.lookup_value]
  | fuel + 1, .short k c f, key, pos, term, room, hg, hr, hfuel => by
    obtain ⟨rfl, hne, -, -, hc⟩ := hg
    by_cases hp : k <+: key.drop pos
    · -- the key goes on below: one call on the child, past `k`
      have hlen := hp.length_le
      have hpos : 0 < k.length := List.length_pos_iff.mpr hne
      have hrest : KeyRest (hasTerm k) (key.drop (pos + k.length)) := by
        rw [← List.drop_drop]
        exact keyRest_drop hr hne hp
      have ih := tryGet_good t fuel c key (pos + k.length) hc hrest
        (by simp only [List.length_drop] at hfuel hlen ⊢; omega)
      have hcond : ¬ (key.length - pos < k.length ∨ k ≠ (key.drop pos).take k.length) := by
        simp only [List.length_drop] at hlen
        rw [not_or, not_lt, not_not]
        exact ⟨hlen, List.prefix_iff_eq_take.mp hp⟩
      simp only [Trie.tryGet, if_neg hcond, ih, Node.lookup_short, if_pos hp, List.drop_drop]
      rfl
    · -- the key leaves the node's key: nothing here
      have hcond : key.length - pos < k.length ∨ k ≠ (key.drop pos).take k.length := by
        by_contra hc
        rw [not_or, not_lt, not_not] at hc
        exact hp (List.prefix_iff_eq_take.mpr hc.2)
      simp only [Trie.tryGet, if_pos hcond, Node.lookup_short, if_neg hp]
  | fuel + 1, .full cs f, key, pos, term, room, hg, hr, hfuel => by
    obtain ⟨rfl, -, hcs⟩ := hg
    obtain ⟨i, hi, hrest⟩ := keyRest_childIndex hr
    have hne := keyRest_false_ne_nil hr
    have ih := tryGet_good t fuel (cs i) key (pos + 1) (hcs i)
      (by rwa [← List.drop_drop]) (by
        have := List.length_pos_iff.mpr hne
        simp only [List.length_drop] at hfuel this ⊢; omega)
    rw [← List.drop_drop] at ih
    simp only [Trie.tryGet, childIndex_drop key pos, hi, ih, Node.lookup_full_of_childIndex hi]
    rfl
  | fuel + 1, .hash _, _, _, _, _, hg, _, _ => absurd hg id

/-! ### The shapes `insert` builds -/

namespace Node

/-- A node under a nibble prefix, or the node itself under the empty prefix. -/
theorem good_ite_short {P : List UInt8} {B : Node} {room : Nat} (f : NodeFlag)
    (hP : ∀ x ∈ P, x < 16) (hlen : P.length ≤ room) (hB : B.Good false (room - P.length)) :
    (if P = [] then B else short P B f).Good false room := by
  by_cases hp : P = []
  · subst hp
    simpa using hB
  · rw [if_neg hp]
    exact ⟨rfl, hp, validHex_of_nibbles hP, hlen, by rwa [hasTerm_of_nibbles hP]⟩

/-- A branch with two children in place. -/
theorem good_branch_pair {i j : Fin 17} {c₁ c₂ : Node} {r : Nat} (f : NodeFlag) (hr : 0 < r)
    (h₁ : c₁.Good (decide (i = Fin.last 16)) (r - 1))
    (h₂ : c₂.Good (decide (j = Fin.last 16)) (r - 1)) :
    (full (Function.update (Function.update (fun _ => empty) i c₁) j c₂) f).Good false r := by
  refine ⟨rfl, hr, fun s => ?_⟩
  simp only [Function.update_apply]
  split_ifs with hsj hsi
  · exact hsj ▸ h₂
  · exact hsi ▸ h₁
  · trivial

/-- What is left of a key `k` past the nibble at `m`, above the node `c` that `k` leads to: the
child a branch at `m` takes in that nibble's slot. -/
theorem good_tail {k : List UInt8} (hk : ValidHex k) {m : Nat} {i : Fin 17}
    (hi : childIndex k m = some i) (hm : m < k.length) {c : Node} {room : Nat}
    (hc : c.Good (hasTerm k) (room - k.length)) (hlen : k.length ≤ room) (f : NodeFlag) :
    (if k.drop (m + 1) = [] then c else short (k.drop (m + 1)) c f).Good
      (decide (i = Fin.last 16)) (room - m - 1) := by
  by_cases hK : k.drop (m + 1) = []
  · -- `m` is the last place: the slot is the value slot exactly when `k` is terminated
    rw [if_pos hK]
    have hend : m + 1 = k.length := by
      have := List.drop_eq_nil_iff.mp hK
      omega
    have hflag : decide (i = Fin.last 16) = hasTerm k := by
      rw [Bool.eq_iff_iff, decide_eq_true_iff]
      exact childIndex_last_iff hi hend
    rw [hflag, show room - m - 1 = room - k.length by omega]
    exact hc
  · have hlt : m + 1 < k.length := by
      by_contra hge
      exact hK (List.drop_eq_nil_of_le (by omega))
    rw [if_neg hK, decide_eq_false (childIndex_ne_last hk hi hlt)]
    refine ⟨rfl, hK, validHex_drop hk _, by simp; omega, ?_⟩
    rw [hasTerm_drop hlt, List.length_drop, show room - m - 1 - (k.length - (m + 1)) =
      room - k.length by omega]
    exact hc

end Node

/-! ### The shapes `delete` builds -/

/-- The slot `onlyChildPos` finds is the only one that holds a child. -/
theorem onlyChildPos_others {cs : Fin 17 → Node} {p : Fin 17} (h : onlyChildPos cs = p) :
    ∀ q, q ≠ p → (cs q).isEmpty = true := by
  -- the loop keeps `-1` while every slot seen is empty, a slot while it is the only one seen
  -- with a child, and `-2` after a second one
  have hloop : ∀ (l seen : List (Fin 17)) (pos : Int),
      ((pos = -1 ∧ ∀ q ∈ seen, (cs q).isEmpty = true) ∨
        (∃ r : Fin 17, pos = r ∧ ∀ q ∈ seen, q ≠ r → (cs q).isEmpty = true) ∨ pos = -2) →
      let res := l.foldl (fun pos i => if (cs i).isEmpty then pos
        else if pos = -1 then (i.val : Int) else -2) pos
      (res = -1 ∧ ∀ q ∈ seen ++ l, (cs q).isEmpty = true) ∨
        (∃ r : Fin 17, res = r ∧ ∀ q ∈ seen ++ l, q ≠ r → (cs q).isEmpty = true) ∨ res = -2 := by
    intro l
    induction l with
    | nil => simp
    | cons i l ih =>
      intro seen pos hpos
      have hstep := ih (seen ++ [i])
        (if (cs i).isEmpty then pos else if pos = -1 then (i.val : Int) else -2) (by
        by_cases hi : (cs i).isEmpty = true
        · rw [if_pos hi]
          simp only [List.mem_append, List.mem_singleton]
          rcases hpos with ⟨h1, hs⟩ | ⟨r, hr, hs⟩ | h2
          · exact .inl ⟨h1, fun q hq => hq.elim (hs q) (fun h => h ▸ hi)⟩
          · exact .inr (.inl ⟨r, hr, fun q hq hqr => hq.elim (hs q · hqr) (fun h => h ▸ hi)⟩)
          · exact .inr (.inr h2)
        · rw [if_neg hi]
          simp only [List.mem_append, List.mem_singleton]
          rcases hpos with ⟨h1, hs⟩ | ⟨r, hr, hs⟩ | h2
          · rw [if_pos h1]
            refine .inr (.inl ⟨i, rfl, fun q hq hqi => ?_⟩)
            exact hq.elim (hs q) (fun h => absurd h hqi)
          · rw [if_neg (by rw [hr]; omega)]
            exact .inr (.inr rfl)
          · rw [if_neg (by rw [h2]; omega)]
            exact .inr (.inr rfl))
      simpa using hstep
  intro q hq
  have hres := hloop (List.finRange 17) [] (-1) (.inl ⟨rfl, by simp⟩)
  have hp : 0 ≤ onlyChildPos cs := by rw [h]; omega
  simp only [List.nil_append] at hres
  rcases hres with ⟨h1, -⟩ | ⟨r, hr, hs⟩ | h2
  · exact absurd (h1 ▸ hp : (0 : Int) ≤ -1) (by omega)
  · have hrp : r = p := by
      apply Fin.ext
      have : (r.val : Int) = p.val := hr.symm.trans h
      omega
    exact hs q (List.mem_finRange q) (hrp ▸ hq)
  · exact absurd (h2 ▸ hp : (0 : Int) ≤ -2) (by omega)

theorem concat_eq_ok {s1 s2 : List UInt8} (h : s1.length + s2.length < 2 ^ 63) :
    concat s1 s2 = .ok (s1 ++ s2) := by
  unfold concat
  rw [if_pos h]

/-- The one-nibble key of a full node's slot. -/
theorem toNat_slot (p : Fin 17) : (p.val.toUInt8).toNat = p.val := by
  have := p.isLt
  simp [Nat.toUInt8, UInt8.toNat_ofNat']
  omega

/-- The key of a full node's slot other than the value slot is a nibble. -/
theorem slot_lt_of_ne_last {p : Fin 17} (hp : p ≠ Fin.last 16) : ∀ x ∈ [p.val.toUInt8], x < 16 := by
  simp only [List.mem_singleton, forall_eq]
  rw [UInt8.lt_iff_toNat_lt, toNat_slot]
  have : p.val ≠ 16 := fun h => hp (Fin.ext h)
  have := p.isLt
  simp only [UInt8.reduceToNat]
  omega

theorem hasTerm_slot (p : Fin 17) : hasTerm [p.val.toUInt8] = decide (p = Fin.last 16) := by
  rw [Bool.eq_iff_iff, decide_eq_true_iff]
  simp only [hasTerm, List.getLast?_singleton, beq_iff_eq, Option.some.injEq]
  constructor
  · intro h
    apply Fin.ext
    have := toNat_slot p
    rw [h] at this
    simp at this
    simp [← this]
  · rintro rfl
    rfl

namespace Node

/-- A short node under a short node reads as one short node over both keys. -/
theorem lookup_short_append (k ck : List UInt8) (cv : Node) (f f₁ f₂ : NodeFlag)
    (rest : List UInt8) :
    (short (k ++ ck) cv f).lookup rest = (short k (short ck cv f₁) f₂).lookup rest := by
  rw [lookup_short, lookup_short]
  by_cases hk : k <+: rest
  · obtain ⟨r, rfl⟩ := hk
    rw [if_pos (List.prefix_append k r), List.drop_left, lookup_short]
    simp [List.prefix_append_right_inj, List.drop_append,
      List.drop_eq_nil_of_le (show k.length ≤ k.length + ck.length by omega)]
  · have hkk : ¬ k ++ ck <+: rest := fun h => hk ((List.prefix_append _ _).trans h)
    rw [if_neg hk, if_neg hkk]

/-- A full node with one child left reads as a short node over that child's nibble. -/
theorem lookup_full_single {cs : Fin 17 → Node} {p : Fin 17}
    (hothers : ∀ q, q ≠ p → (cs q).isEmpty = true) (f f' : NodeFlag) (rest : List UInt8) :
    (short [p.val.toUInt8] (cs p) f).lookup rest = (full cs f').lookup rest := by
  rw [lookup_short]
  cases rest with
  | nil => simp [lookup]
  | cons b r =>
    by_cases hb : b = p.val.toUInt8
    · subst hb
      have hlt : (p.val.toUInt8).toNat < 17 := by rw [toNat_slot]; exact p.isLt
      have hp : (⟨(p.val.toUInt8).toNat, hlt⟩ : Fin 17) = p := Fin.ext (toNat_slot p)
      rw [if_pos (List.cons_prefix_cons.mpr ⟨rfl, List.nil_prefix⟩)]
      simp only [lookup, List.length_singleton, List.drop_succ_cons, List.drop_zero, dif_pos hlt,
        hp]
    · have hpre : ¬ [p.val.toUInt8] <+: b :: r := by
        simp [List.cons_prefix_cons, Ne.symm hb]
      rw [if_neg hpre]
      by_cases hlt : b.toNat < 17
      · have hne : (⟨b.toNat, hlt⟩ : Fin 17) ≠ p := by
          intro h
          apply hb
          apply UInt8.toNat_inj.mp
          rw [toNat_slot, ← h]
        have hempty := hothers _ hne
        simp only [lookup, hlt, dite_true]
        revert hempty
        cases cs ⟨b.toNat, hlt⟩ <;> simp [isEmpty]
      · simp [lookup, hlt]

/-- The one-child short node `delete` makes of a full node. -/
theorem good_slot {c : Node} {p : Fin 17} {room : Nat} (hroom0 : 0 < room)
    (hc : c.Good (decide (p = Fin.last 16)) (room - 1)) (f : NodeFlag) :
    (short [p.val.toUInt8] c f).Good false room := by
  have hvalid : ValidHex [p.val.toUInt8] := by
    by_cases hp : p = Fin.last 16
    · subst hp
      exact validHex_term
    · exact validHex_of_nibbles (slot_lt_of_ne_last hp)
  exact Iff.mpr good_short ⟨rfl, List.cons_ne_nil _ _, hvalid, by simp; omega,
    by rwa [hasTerm_slot, List.length_singleton]⟩

/-- Nibbles over a short node: the one short node `delete` merges them into. -/
theorem good_short_append {k ck : List UInt8} {cv : Node} {room : Nat} {f₁ : NodeFlag}
    (hk : ∀ x ∈ k, x < 16) (hklen : k.length ≤ room)
    (hc : (short ck cv f₁).Good false (room - k.length)) (f : NodeFlag) :
    (short (k ++ ck) cv f).Good false room := by
  obtain ⟨-, hne, hvalid, hlen, hcv⟩ := Iff.mp good_short hc
  refine Iff.mpr good_short ⟨rfl, by simp [hne], validHex_append hk hvalid, by simp; omega, ?_⟩
  rw [hasTerm_append _ hne, List.length_append, show room - (k.length + ck.length) =
    room - k.length - ck.length by omega]
  exact hcv

/-- A full node's children after one is replaced. -/
theorem good_update {cs : Fin 17 → Node} {i : Fin 17} {c : Node} {room : Nat}
    (hcs : ∀ s, (cs s).Good (decide (s = Fin.last 16)) room)
    (hc : c.Good (decide (i = Fin.last 16)) room) :
    ∀ s, (Function.update cs i c s).Good (decide (s = Fin.last 16)) room := by
  intro s
  rw [Function.update_apply]
  split
  · rename_i hsi
    exact hsi ▸ hc
  · exact hcs s

end Node

/-- `resolve` keeps every node of the kept shape: none of them is a hash node. -/
theorem resolve_of_good (t : Trie) {n : Node} {term : Bool} {room : Nat} (h : n.Good term room)
    (pfx : List UInt8) : t.resolve n pfx = .ok n := by
  cases n <;> first | rfl | exact absurd h id

/-! ### `insert` -/

section Insert

variable (t : Trie)

/-- `insert` into nothing: the value itself where the key ends, else a short node to it. -/
theorem insert_empty (fuel : Nat) (pfx key : List UInt8) (c : Node) :
    t.insert (fuel + 1) .empty pfx key c =
      .ok (true, if key = [] then c else .short key c t.newFlag) := by
  by_cases hk : key = [] <;> simp [Trie.insert, hk]

/-- **`insert` where a key leaves a short node's key**: a branch where the two keys part. -/
theorem insert_split (fuel : Nat) {k : List UInt8} {v : Node} {f : NodeFlag} {pfx key w : List UInt8}
    {room : Nat} (hg : (Node.short k v f).Good false room) (hr : KeyRest false key)
    (hroom : key.length ≤ room) (hm : prefixLen key k ≠ k.length) :
    ∃ n', t.insert (fuel + 2) (.short k v f) pfx key (.value w) = .ok (true, n') ∧
      n'.Good false room ∧
      ∀ rest, n'.lookup rest = if rest = key then some w else (Node.short k v f).lookup rest := by
  obtain ⟨-, -, hk, hlen, hv⟩ := hg
  have hkey := keyRest_false_ne_nil hr
  have hmk : prefixLen key k < k.length := lt_of_le_of_ne (prefixLen_le_right key k) hm
  have hmkey := prefixLen_lt_of_keyRest hr hk hmk
  -- the prefix, the two nibbles where the keys part, and the slots they name
  set m := prefixLen key k with hmdef
  obtain ⟨i, hi, hiv⟩ := childIndex_of_validHex hk hmk
  obtain ⟨j, hj, hjv⟩ := childIndex_of_validHex hr.1 hmkey
  have hab : k[m] ≠ key[m] := (prefixLen_getElem_ne hmkey hmk).symm
  have hP : key.take m = k.take m := take_prefixLen key k
  have hksplit : k = key.take m ++ k[m] :: k.drop (m + 1) := by
    rw [hP, List.getElem_cons_drop, List.take_append_drop]
  have hkeysplit : key = key.take m ++ key[m] :: key.drop (m + 1) := by
    rw [List.getElem_cons_drop, List.take_append_drop]
  have hzero : m = 0 ↔ key.take m = [] := by simp [List.take_eq_nil_iff, hkey]
  have hnib : ∀ x ∈ key.take m, x < 16 := nibbles_take hr.1 hmkey
  let B : Node := .full (Function.update (Function.update (fun _ => .empty) i
    (if k.drop (m + 1) = [] then v else .short (k.drop (m + 1)) v t.newFlag)) j
    (if key.drop (m + 1) = [] then .value w else .short (key.drop (m + 1)) (.value w) t.newFlag))
    t.newFlag
  refine ⟨if key.take m = [] then B else .short (key.take m) B t.newFlag, ?_, ?_, fun rest => ?_⟩
  · rw [Trie.insert]
    simp only [if_neg hkey, ← hmdef, if_neg hm, hi, hj, insert_empty]
    by_cases h0 : m = 0
    · rw [if_pos h0, if_pos (hzero.mp h0)]
    · rw [if_neg h0, if_neg ((not_congr hzero).mp h0)]
  · apply Node.good_ite_short _ hnib (by simp; omega)
    rw [List.length_take_of_le hmkey.le]
    apply Node.good_branch_pair _ (by omega)
    · exact Node.good_tail hk hi hmk hv hlen _
    · exact Node.good_tail hr.1 hj hmkey (show (Node.value w).Good (hasTerm key) _ from hr.2)
        hroom _
  · rw [Node.lookup_ite_short]
    conv_rhs => rw [hkeysplit, hksplit]
    exact Node.lookup_split hab hiv hjv v w f _ _ _ rest

/-- **`insert` writes the map.** On a node of the kept shape, with a key that fits below it and
fuel for each of its places, `insert` succeeds, keeps the shape, and changes the value at the
key alone. -/
theorem insert_good : ∀ (fuel : Nat) (n : Node) (pfx key w : List UInt8) {term : Bool}
    {room : Nat}, n.Good term room → KeyRest term key → key.length ≤ room → key.length < fuel →
    ∃ dirty n', t.insert fuel n pfx key (.value w) = .ok (dirty, n') ∧ n'.Good term room ∧
      (dirty = false → n' = n) ∧
      ∀ rest, KeyRest term rest → n'.lookup rest = if rest = key then some w else n.lookup rest
  | 0, _, _, _, _, _, _, _, _, _, hfuel => absurd hfuel (Nat.not_lt_zero _)
  | fuel + 1, .empty, pfx, key, w, term, room, _, hr, hroom, _ => by
    refine ⟨true, _, insert_empty t fuel pfx key _, ?_, nofun, fun rest hrest => ?_⟩
    · cases term
      · -- a new leaf: a short node over the whole key
        have hkey := keyRest_false_ne_nil hr
        rw [if_neg hkey]
        exact ⟨rfl, hkey, hr.1, hroom, hr.2⟩
      · rw [if_pos (show key = [] from hr)]
        rfl
    · rw [Node.lookup_ite_short, Node.lookup_value_after, Node.lookup_empty]
  | fuel + 1, .value v, pfx, key, w, term, room, hg, hr, _, _ => by
    obtain rfl : term = true := hg
    obtain rfl : key = [] := hr
    refine ⟨v != w, .value w, by simp [Trie.insert], rfl, fun hd => ?_, fun rest hrest => ?_⟩
    · simp only [bne_eq_false_iff_eq] at hd
      rw [hd]
    · obtain rfl : rest = [] := hrest
      simp [Node.lookup_value]
  | fuel + 1, .short k v f, pfx, key, w, term, room, hg, hr, hroom, hfuel => by
    have hg' := hg
    obtain ⟨rfl, hne, hk, hlen, hv⟩ := hg
    have hkey := keyRest_false_ne_nil hr
    by_cases hm : prefixLen key k = k.length
    · -- the key runs through the node's key: insert below it
      have hp : k <+: key := List.prefix_iff_eq_take.mpr (take_of_prefixLen_eq hm).symm
      have hklen := hp.length_le
      have hpos := List.length_pos_iff.mpr hne
      obtain ⟨dirty, nn, hins, hgood, hsame, hlook⟩ :=
        insert_good fuel v (pfx ++ key.take k.length) (key.drop k.length) w hv
          (keyRest_drop hr hne hp) (by simp; omega) (by simp; omega)
      have hnew := Node.lookup_short_child hne hp hlook f t.newFlag
      cases dirty
      · obtain rfl := hsame rfl
        refine ⟨false, _, by simp [Trie.insert, hkey, hm, hins], hg', fun _ => rfl,
          fun rest hrest => ?_⟩
        -- nothing changed: the old node reads the value at the key already
        rw [← hnew rest hrest]
        rfl
      · exact ⟨true, .short k nn t.newFlag, by simp [Trie.insert, hkey, hm, hins],
          Iff.mpr Node.good_short ⟨rfl, hne, hk, hlen, hgood⟩, nofun, hnew⟩
    · -- the key leaves the node's key: a branch where they part
      obtain ⟨fuel, rfl⟩ : ∃ fuel', fuel = fuel' + 1 :=
        Nat.exists_eq_succ_of_ne_zero (by have := List.length_pos_iff.mpr hkey; omega)
      obtain ⟨n', hins, hgood, hlook⟩ := insert_split t fuel hg' hr hroom hm
      exact ⟨true, n', hins, hgood, nofun, fun rest _ => hlook rest⟩
  | fuel + 1, .full cs f, pfx, key, w, term, room, hg, hr, hroom, hfuel => by
    have hg' := hg
    obtain ⟨rfl, hroom0, hcs⟩ := hg
    have hkey := keyRest_false_ne_nil hr
    have hpos := List.length_pos_iff.mpr hkey
    obtain ⟨i, hi, hrest⟩ := keyRest_childIndex hr
    obtain ⟨dirty, nn, hins, hgood, hsame, hlook⟩ :=
      insert_good fuel (cs i) (pfx ++ key.take 1) (key.drop 1) w (hcs i) hrest
        (by simp; omega) (by simp; omega)
    have hnew := Node.lookup_full_child hi hlook f t.newFlag
    have hunfold : t.insert (fuel + 1) (.full cs f) pfx key (.value w) =
        if dirty then .ok (true, .full (Function.update cs i nn) t.newFlag)
        else .ok (false, .full cs f) := by
      rw [Trie.insert]
      simp only [if_neg hkey, hi, hins]
    cases dirty
    · obtain rfl := hsame rfl
      refine ⟨false, _, hunfold, hg', fun _ => rfl, fun rest hrest' => ?_⟩
      rw [← hnew rest hrest', Function.update_eq_self, Node.lookup_full_flags]
    · exact ⟨true, _, hunfold, Iff.mpr Node.good_full ⟨rfl, hroom0, Node.good_update hcs hgood⟩, nofun,
        hnew⟩
  | fuel + 1, .hash _, _, _, _, _, _, hg, _, _, _ => absurd hg id

end Insert

/-! ### `delete` -/

section Delete

variable (t : Trie)

/-- **`delete` erases from the map.** On a node of the kept shape whose paths fit in an `int`,
with fuel for each place of the key, `delete` succeeds, keeps the shape, and erases the key
alone. -/
theorem delete_good : ∀ (fuel : Nat) (n : Node) (pfx key : List UInt8) {term : Bool}
    {room : Nat}, n.Good term room → room < 2 ^ 63 → KeyRest term key → key.length < fuel →
    ∃ dirty n', t.delete fuel n pfx key = .ok (dirty, n') ∧ n'.Good term room ∧
      (dirty = false → n' = n) ∧
      ∀ rest, KeyRest term rest → n'.lookup rest = if rest = key then none else n.lookup rest
  | 0, _, _, _, _, _, _, _, _, hfuel => absurd hfuel (Nat.not_lt_zero _)
  | fuel + 1, .empty, pfx, key, term, room, hg, _, _, _ =>
    ⟨false, .empty, by simp [Trie.delete], hg, fun _ => rfl, fun rest _ => by simp⟩
  | fuel + 1, .value v, pfx, key, term, room, hg, _, hr, _ => by
    obtain rfl : term = true := hg
    obtain rfl : key = [] := hr
    refine ⟨true, .empty, by simp [Trie.delete], trivial, nofun, fun rest hrest => ?_⟩
    obtain rfl : rest = [] := hrest
    simp
  | fuel + 1, .short k v f, pfx, key, term, room, hg, hroom, hr, hfuel => by
    have hg' := hg
    obtain ⟨rfl, hne, hk, hlen, hv⟩ := Iff.mp Node.good_short hg
    have hkey := keyRest_false_ne_nil hr
    by_cases hlt : prefixLen key k < k.length
    · -- the key leaves the node's key: nothing to delete
      have hnp : ¬ k <+: key := fun hp => by rw [prefixLen_eq_length hp] at hlt; omega
      refine ⟨false, _, by simp [Trie.delete, hlt], hg', fun _ => rfl, fun rest _ => ?_⟩
      split_ifs with hrk
      · rw [hrk, Node.lookup_short, if_neg hnp]
      · rfl
    have hm : prefixLen key k = k.length := le_antisymm (prefixLen_le_right key k) (not_lt.mp hlt)
    have hp : k <+: key := List.prefix_iff_eq_take.mpr (take_of_prefixLen_eq hm).symm
    by_cases hend : k.length = key.length
    · -- the node's key is the whole key: the leaf goes
      have hkk : k = key := hp.eq_of_length hend
      refine ⟨true, .empty, by simp [Trie.delete, hm, hend], trivial, nofun,
        fun rest hrest => ?_⟩
      split_ifs with hrk
      · rfl
      · -- no other key runs through a terminated key
        have hnpr : ¬ k <+: rest := by
          intro hpr
          have hdrop : rest.drop k.length = [] := by
            have := keyRest_drop hrest hne hpr
            rw [hkk, hr.2] at this
            rw [hkk]
            exact this
          obtain ⟨r, rfl⟩ := hpr
          rw [List.drop_left] at hdrop
          subst hdrop
          exact hrk (by rw [List.append_nil, hkk])
        rw [Node.lookup_short, if_neg hnpr]
        rfl
    -- the key goes on below the node's key: delete there
    have hklen := hp.length_le
    have hkpos := List.length_pos_iff.mpr hne
    obtain ⟨dirty, child, hdel, hgood, hsame, hlook⟩ :=
      delete_good fuel v (pfx ++ key.take k.length) (key.drop k.length) hv (by omega)
        (keyRest_drop hr hne hp) (by simp; omega)
    have hnew := Node.lookup_short_child hne hp hlook f
    cases dirty
    · obtain rfl := hsame rfl
      refine ⟨false, _, ?_, hg', fun _ => rfl, fun rest hrest => ?_⟩
      · rw [Trie.delete]
        simp only [hm, lt_irrefl, if_false, hend, hdel, Bool.not_false, if_true]
      · rw [← hnew f rest hrest]
    cases child with
    | short ck cv fl =>
      -- a short child is merged into the node's key
      obtain ⟨hterm, hckne, -, hcklen, -⟩ := Iff.mp Node.good_short hgood
      have hnib := nibbles_of_validHex hk hterm
      have hgood' : (Node.short ck cv fl).Good false (room - k.length) := hterm ▸ hgood
      refine ⟨true, .short (k ++ ck) cv t.newFlag, ?_,
        Node.good_short_append hnib hlen hgood' _, nofun, fun rest hrest => ?_⟩
      · rw [Trie.delete]
        simp [hm, hend, hdel, concat_eq_ok (show k.length + ck.length < 2 ^ 63 by omega),
          Except.map]
      · rw [Node.lookup_short_append k ck cv _ fl t.newFlag, hnew _ rest hrest]
    | empty | full _ _ | hash _ | value _ =>
      exact ⟨true, _, by rw [Trie.delete]; simp [hm, hend, hdel],
        Iff.mpr Node.good_short ⟨rfl, hne, hk, hlen, hgood⟩, nofun, hnew t.newFlag⟩
  | fuel + 1, .full cs f, pfx, key, term, room, hg, hroom, hr, hfuel => by
    have hg' := hg
    obtain ⟨rfl, hroom0, hcs⟩ := Iff.mp Node.good_full hg
    have hkey := keyRest_false_ne_nil hr
    have hpos := List.length_pos_iff.mpr hkey
    obtain ⟨i, hi, hrest⟩ := keyRest_childIndex hr
    obtain ⟨dirty, nn, hdel, hgood, hsame, hlook⟩ :=
      delete_good fuel (cs i) (pfx ++ key.take 1) (key.drop 1) (hcs i) (by omega) hrest
        (by simp; omega)
    have hnew := Node.lookup_full_child hi hlook f
    cases dirty
    · obtain rfl := hsame rfl
      refine ⟨false, _, ?_, hg', fun _ => rfl, fun rest hrest' => ?_⟩
      · rw [Trie.delete]
        simp only [hi, hdel]
        rfl
      · rw [← hnew f rest hrest', Function.update_eq_self]
    -- the children left: one of them alone becomes a short node, else they stay a full node
    have hcs' := Node.good_update hcs hgood
    suffices h : ∃ n', t.delete (fuel + 1) (.full cs f) pfx key = .ok (true, n') ∧
        n'.Good false room ∧
        ∀ rest, n'.lookup rest = (Node.full (Function.update cs i nn) t.newFlag).lookup rest by
      obtain ⟨n', hn', hgood', hlook'⟩ := h
      exact ⟨true, n', hn', hgood', nofun, fun rest hrest' => by rw [hlook', hnew _ rest hrest']⟩
    rw [Trie.delete]
    simp only [hi, hdel, Bool.not_true, Bool.false_eq_true, if_false]
    set cs' := Function.update cs i nn with hcs''
    by_cases hp : 0 ≤ onlyChildPos cs' ∧ onlyChildPos cs' < 17
    · rw [dif_pos hp]
      set p : Fin 17 := ⟨(onlyChildPos cs').toNat, by omega⟩ with hpdef
      have hpos' : onlyChildPos cs' = (p.val : Int) := by
        rw [hpdef]
        simp only
        omega
      have hothers := onlyChildPos_others hpos'
      have hslot : ∀ (g : NodeFlag) rest, (Node.short [p.val.toUInt8] (cs' p) g).lookup rest =
          (Node.full cs' t.newFlag).lookup rest := fun g => Node.lookup_full_single hothers g _
      by_cases h16 : p ≠ 16
      · rw [if_pos h16, resolve_of_good t (hcs' p)]
        have hgp := hcs' p
        have hflag : decide (p = Fin.last 16) = false := decide_eq_false h16
        generalize hc : cs' p = c at hslot hgp
        cases c with
        | short ck cv fl =>
          -- the last child is a short node: merged under the slot's nibble
          obtain ⟨-, hckne, -, hcklen, -⟩ := Iff.mp Node.good_short hgp
          have hnib := slot_lt_of_ne_last h16
          refine ⟨.short ([p.val.toUInt8] ++ ck) cv t.newFlag, ?_,
            Node.good_short_append hnib (by simp; omega) (by rw [hflag] at hgp; simpa using hgp) _,
            fun rest => by rw [Node.lookup_short_append _ _ _ _ fl t.newFlag, hslot]⟩
          have hcat : ∀ x : UInt8, concat [x] ck = .ok ([x] ++ ck) := fun x =>
            concat_eq_ok (by simp only [List.length_singleton]; omega)
          simp only [hcat]
          rfl
        | empty | full _ _ | hash _ | value _ =>
          exact ⟨_, rfl, Node.good_slot hroom0 (hcs' p) _, Node.lookup_full_single hothers _ _⟩
      · rw [if_neg h16]
        exact ⟨_, rfl, Node.good_slot hroom0 (hcs' p) _, hslot _⟩
    · rw [dif_neg hp]
      exact ⟨_, rfl, Iff.mpr Node.good_full ⟨rfl, hroom0, hcs'⟩, fun _ => rfl⟩
  | fuel + 1, .hash _, _, _, _, _, hg, _, _, _ => absurd hg id

end Delete

/-! ### The trie -/

theorem validHex_keybytesToHex (key : List UInt8) : ValidHex (keybytesToHex key) := by
  have hnib : ∀ x ∈ key.flatMap (fun b => [b / 16, b % 16]), x < 16 := by
    simp only [List.mem_flatMap, List.mem_cons, List.not_mem_nil, or_false]
    rintro x ⟨b, -, rfl | rfl⟩
    · exact nibble_div b
    · exact nibble_mod b
  exact validHex_append hnib validHex_term

theorem keyRest_keybytesToHex (key : List UInt8) : KeyRest false (keybytesToHex key) :=
  ⟨validHex_keybytesToHex key, hasTerm_keybytesToHex key⟩

theorem keybytesToHex_eq_iff {a b : List UInt8} : keybytesToHex a = keybytesToHex b ↔ a = b := by
  refine ⟨fun h => ?_, congrArg _⟩
  have := hexToKeybytes_keybytesToHex a
  rw [h, hexToKeybytes_keybytesToHex] at this
  exact (Option.some.inj this).symm

theorem hexKey_eq {key : List UInt8} (h : key.length < 2 ^ 62) :
    hexKey key = .ok (keybytesToHex key) := by
  unfold hexKey
  rw [if_pos (by omega)]

namespace Trie

/-- A trie whose nodes are all in memory and of the shape the walks keep, every path shorter
than the largest `int`. -/
def InMemory (t : Trie) : Prop := t.root.Good false (2 ^ 63 - 1)

/-- The value a trie holds under a key: what its root reads at the key's hex form. -/
def get (t : Trie) (key : List UInt8) : Option (List UInt8) := t.root.lookup (keybytesToHex key)

/-- The trie `New` makes of the empty root: nothing in it. -/
theorem new_emptyRoot (db : Database) :
    Trie.new emptyRoot db = .ok { db := db, root := .empty, cachegen := 0, cachelimit := 0 } := by
  simp [Trie.new]

theorem inMemory_empty (t : Trie) (h : t.root = .empty) : t.InMemory := by
  rw [InMemory, h]
  trivial

variable {t : Trie} {fuel : Nat} {key : List UInt8}

/-- **`TryGet` reads the map** of an in-memory trie, and keeps the trie as it was. -/
theorem tryGet_get (h : t.InMemory) (hk : key.length < 2 ^ 62) (hf : 2 * key.length + 1 < fuel) :
    t.TryGet fuel key = .ok (t.get key, t) := by
  have hget := tryGet_good t fuel t.root (keybytesToHex key) 0 h
    (keyRest_keybytesToHex key) (by simp [length_keybytesToHex]; omega)
  simp only [List.drop_zero] at hget
  simp [TryGet, hexKey_eq hk, hget, get]

/-- **`TryUpdate` writes the map**: a non-empty value is put under the key, an empty value
deletes it, every other key keeps its value, and the trie stays in memory over the same
database. -/
theorem tryUpdate_get (h : t.InMemory) (hk : key.length < 2 ^ 62) (hf : 2 * key.length + 1 < fuel)
    (value : List UInt8) :
    ∃ t', t.TryUpdate fuel key value = .ok t' ∧ t'.InMemory ∧ t'.db = t.db ∧
      ∀ key', t'.get key' =
        if key' = key then (if value = [] then none else some value) else t.get key' := by
  have hlen : (keybytesToHex key).length < fuel := by rw [length_keybytesToHex]; omega
  have hroom : (keybytesToHex key).length ≤ 2 ^ 63 - 1 := by rw [length_keybytesToHex]; omega
  by_cases hv : value = []
  · -- an empty value: the key is deleted
    obtain ⟨dirty, n', hdel, hgood, -, hlook⟩ := delete_good t fuel t.root [] (keybytesToHex key) h
      (by omega) (keyRest_keybytesToHex key) hlen
    refine ⟨{ t with root := n' }, by simp [TryUpdate, hexKey_eq hk, hv, hdel, Except.map], hgood,
      rfl, fun key' => ?_⟩
    simp [get, hlook _ (keyRest_keybytesToHex key'), hv, keybytesToHex_eq_iff]
  · -- a value: it is inserted
    obtain ⟨dirty, n', hins, hgood, -, hlook⟩ := insert_good t fuel t.root [] (keybytesToHex key)
      value h (keyRest_keybytesToHex key) hroom hlen
    refine ⟨{ t with root := n' }, ?_, hgood, rfl, fun key' => ?_⟩
    · have hlen' : value.length ≠ 0 := fun h0 => hv (List.eq_nil_of_length_eq_zero h0)
      simp [TryUpdate, hexKey_eq hk, hlen', hins, Except.map]
    simp [get, hlook _ (keyRest_keybytesToHex key'), hv, keybytesToHex_eq_iff]

/-- **`TryDelete` erases from the map**: the key holds nothing after it, every other key keeps
its value, and the trie stays in memory over the same database. -/
theorem tryDelete_get (h : t.InMemory) (hk : key.length < 2 ^ 62) (hf : 2 * key.length + 1 < fuel) :
    ∃ t', t.TryDelete fuel key = .ok t' ∧ t'.InMemory ∧ t'.db = t.db ∧
      ∀ key', t'.get key' = if key' = key then none else t.get key' := by
  obtain ⟨dirty, n', hdel, hgood, -, hlook⟩ := delete_good t fuel t.root [] (keybytesToHex key) h
    (by omega) (keyRest_keybytesToHex key) (by rw [length_keybytesToHex]; omega)
  refine ⟨{ t with root := n' }, by simp [TryDelete, hexKey_eq hk, hdel, Except.map], hgood, rfl,
    fun key' => ?_⟩
  simp [get, hlook _ (keyRest_keybytesToHex key'), keybytesToHex_eq_iff]

end Trie

/-! ### Runs of writes -/

/-- One call that writes a trie: `TryUpdate` of a key and a value, or `TryDelete` of a key. -/
inductive Write where
  | update (key value : List UInt8)
  | delete (key : List UInt8)
  deriving DecidableEq, Repr

namespace Write

/-- The key a write names. -/
def key : Write → List UInt8
  | update key _ => key
  | delete key => key

/-- The call itself on a trie. -/
def run (fuel : Nat) (t : Trie) : Write → Except TrieError Trie
  | update key value => t.TryUpdate fuel key value
  | delete key => t.TryDelete fuel key

/-- What the write does to a finite map: the key takes the value (nothing for an empty value or
a delete), every other key keeps its own. -/
def apply (m : List UInt8 → Option (List UInt8)) : Write → List UInt8 → Option (List UInt8)
  | update key value => Function.update m key (if value = [] then none else some value)
  | delete key => Function.update m key none

end Write

/-- The calls of a run, one after another, each on the trie the one before it left; the first
error stops the run. -/
def runWrites (fuel : Nat) (ws : List Write) (t : Trie) : Except TrieError Trie :=
  ws.foldlM (Write.run fuel) t

/-- One write keeps a trie in memory and acts on its map as `Write.apply`. -/
theorem Write.run_get {t : Trie} (h : t.InMemory) {fuel : Nat} (w : Write)
    (hk : w.key.length < 2 ^ 62) (hf : 2 * w.key.length + 1 < fuel) :
    ∃ t', w.run fuel t = .ok t' ∧ t'.InMemory ∧ t'.get = w.apply t.get := by
  cases w with
  | update key value =>
    obtain ⟨t', hrun, hmem, -, hget⟩ := Trie.tryUpdate_get h hk hf value
    refine ⟨t', hrun, hmem, funext fun key' => ?_⟩
    rw [hget, apply, Function.update_apply]
    rfl
  | delete key =>
    obtain ⟨t', hrun, hmem, -, hget⟩ := Trie.tryDelete_get h hk hf
    refine ⟨t', hrun, hmem, funext fun key' => ?_⟩
    rw [hget, apply, Function.update_apply]
    rfl

/-- A run of writes keeps a trie in memory and acts on its map as the writes' `apply` in turn. -/
theorem runWrites_get {fuel : Nat} : ∀ (ws : List Write) {t : Trie}, t.InMemory →
    (∀ w ∈ ws, w.key.length < 2 ^ 62 ∧ 2 * w.key.length + 1 < fuel) →
    ∃ t', runWrites fuel ws t = .ok t' ∧ t'.InMemory ∧
      t'.get = ws.foldl (fun m w => w.apply m) t.get
  | [], t, h, _ => ⟨t, rfl, h, rfl⟩
  | w :: ws, t, h, hws => by
    obtain ⟨hk, hf⟩ := hws w List.mem_cons_self
    obtain ⟨t₁, hrun, hmem, hget⟩ := w.run_get h hk hf
    obtain ⟨t', hrest, hmem', hget'⟩ := runWrites_get ws hmem (fun w' hw' => hws w' (List.mem_cons_of_mem _ hw'))
    refine ⟨t', ?_, hmem', by rw [hget', hget]; rfl⟩
    simp only [runWrites, List.foldlM_cons, hrun] at hrest ⊢
    exact hrest

/-- The value a run's last write of `key` leaves: the value of an update unless it was empty,
nothing after a delete, and `m key` when the run never writes `key`. -/
def lastWrite (m : List UInt8 → Option (List UInt8)) (ws : List Write) (key : List UInt8) :
    Option (List UInt8) :=
  match ws.reverse.find? (fun w => w.key = key) with
  | some (.update _ value) => if value = [] then none else some value
  | some (.delete _) => none
  | none => m key

/-- The first write of a run goes into the map the rest of the run starts from. -/
theorem lastWrite_cons (m : List UInt8 → Option (List UInt8)) (w : Write) (ws : List Write)
    (key : List UInt8) : lastWrite m (w :: ws) key = lastWrite (w.apply m) ws key := by
  unfold lastWrite
  rw [List.reverse_cons, List.find?_append]
  cases hfind : ws.reverse.find? (fun w => w.key = key) with
  | some w' =>
    simp only [Option.some_or]
    cases w' <;> rfl
  | none =>
    simp only [Option.none_or, List.find?_singleton]
    cases w with
    | update k value =>
      by_cases hk : k = key
      · subst hk
        simp [Write.key, Write.apply]
      · simp [Write.key, Write.apply, hk, Ne.symm hk]
    | delete k =>
      by_cases hk : k = key
      · subst hk
        simp [Write.key, Write.apply]
      · simp [Write.key, Write.apply, hk, Ne.symm hk]

/-- The map after a run is the last write of each key. -/
theorem foldl_apply_eq_lastWrite : ∀ (ws : List Write) (m : List UInt8 → Option (List UInt8))
    (key : List UInt8), ws.foldl (fun m w => w.apply m) m key = lastWrite m ws key
  | [], m, key => by simp [lastWrite]
  | w :: ws, m, key => by
    rw [List.foldl_cons, foldl_apply_eq_lastWrite ws, lastWrite_cons]

/-- **The in-memory trie is a finite map.** From the trie `New` makes of the empty root, every
run of `TryUpdate` and `TryDelete` calls whose keys fit in the source's `int` arithmetic
succeeds, given fuel, and afterwards `TryGet` of any such key answers the value the run's last
write of that key left. -/
theorem writes_tryGet (db : Database) (ws : List Write) (fuel : Nat)
    (hws : ∀ w ∈ ws, w.key.length < 2 ^ 62 ∧ 2 * w.key.length + 1 < fuel) :
    ∃ t t', Trie.new emptyRoot db = .ok t ∧ runWrites fuel ws t = .ok t' ∧
      ∀ key, key.length < 2 ^ 62 → 2 * key.length + 1 < fuel →
        t'.TryGet fuel key = .ok (lastWrite (fun _ => none) ws key, t') := by
  have hmem : Trie.InMemory { db := db, root := .empty, cachegen := 0, cachelimit := 0 } :=
    Trie.inMemory_empty _ rfl
  obtain ⟨t', hrun, hmem', hget⟩ := runWrites_get ws hmem hws
  refine ⟨_, t', Trie.new_emptyRoot db, hrun, fun key hk hf => ?_⟩
  rw [Trie.tryGet_get hmem' hk hf, hget, foldl_apply_eq_lastWrite]
  rfl

/-- Three writes: `[1]` and `[2]` updated, then `[1]` deleted; afterwards `[2]` reads its value
and `[1]` nothing. -/
theorem writes_tryGet_three :
    (∀ w ∈ [Write.update [1] [5], .update [2] [6], .delete [1]],
      w.key.length < 2 ^ 62 ∧ 2 * w.key.length + 1 < 8) ∧
    ∃ t t', Trie.new emptyRoot (Database.new ∅) = .ok t ∧
      runWrites 8 [.update [1] [5], .update [2] [6], .delete [1]] t = .ok t' ∧
      ∀ key, key.length < 2 ^ 62 → 2 * key.length + 1 < 8 →
        t'.TryGet 8 key =
          .ok (lastWrite (fun _ => none) [.update [1] [5], .update [2] [6], .delete [1]] key, t') :=
  ⟨by decide, writes_tryGet (Database.new ∅) _ 8 (by decide)⟩

end EpvChain.Trie
