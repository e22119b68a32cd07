import EpvChain.Fast.Trie
import EpvChain.Lib.Lex

/-!
# The trie's node iterator (`fast/iterator.go`)

A `nodeIterator` walks the trie in preorder with a stack of entries: a node, the index of the
child visited last, and the length of the path above it. `peek` finds the next node, resolving
hash nodes from the database; `seek` descends only into nodes whose path prefixes the sought hex
key, and stops before the first node not below it. `Iterator.Next` steps to the next path with
the terminator and reads the key and value there.

The entries' hashes, read only by `Hash` and `Parent`, and the root hashing of
`newNodeIterator` are left out. `LeafKey`, `LeafBlob` away from a value node, `hexToKeybytes` on
an odd path, and a loop out of fuel are `none`.

`Walks` is the trie's preorder with every node resolved. `iterator_yields_from_start`: the
iterator yields the value nodes of that preorder whose path is not below the start key's
nibbles, in strictly increasing hex order; since the terminator `16` is above every nibble, a
proper prefix of the start key is yielded too (`iterator_yields_ab_before_a`).
-/

namespace EpvChain.Trie

open EpvChain.Lib

/-! ### The model -/

/-- What a node iterator stops with: the end of the trie, a seek that failed (the next step seeks
again), or an error from the trie.
Source: `fast/iterator.go` `iteratorEnd`, `seekError` -/
inductive IterError where
  | iteratorEnd
  | seekError (key : List UInt8) (err : IterError)
  | trie (err : TrieError)
  deriving DecidableEq, Repr

/-- `nodeIteratorState`: a node on the stack, the index of the child visited last (`-1` before
the first), and the length of the path above the node.
Source: `fast/iterator.go` `type nodeIteratorState struct` -/
structure IterState where
  node : Node
  index : Int
  pathlen : Nat

/-- `nodeIterator`: the trie, the stack with its top first, the path of the top entry, and the
error of the last step.
Source: `fast/iterator.go` `type nodeIterator struct` -/
structure NodeIterator where
  trie : Trie
  stack : List IterState
  path : List UInt8
  err : Option IterError

/-- `nodeIterator.nextChild`: the parent with its index moved to just before its next child, the
child's state, and the child's path; `none` when the parent has no child left. A full node's
children are tried in order from the one after the index, a short node's one child only before
the first visit.
Source: `fast/iterator.go` `nodeIterator.nextChild` -/
def nextChild (path : List UInt8) (parent : IterState) :
    Option (IterState × IterState × List UInt8) :=
  match parent.node with
  | .full cs _ =>
    match (List.finRange 17).find? (fun i => decide (parent.index < i.val) && !(cs i).isEmpty) with
    | some i => some ({ parent with index := i.val - 1 }, ⟨cs i, -1, path.length⟩,
        path ++ [i.val.toUInt8])
    | none => none
  | .short key val _ =>
    if parent.index < 0 then some (parent, ⟨val, -1, path.length⟩, path ++ key) else none
  | _ => none

/-- The loop of `nodeIterator.peek`: the top entry's next child, resolved, or else the top entry
popped (`nodeIterator.pop`: the path cut back to the length above it) and the next child of the
entry below; the end of the iteration once the stack is empty. The stack and path are returned
as the loop leaves them.
Source: `fast/iterator.go` `nodeIterator.peek`, `nodeIterator.pop` -/
def peekLoop (t : Trie) : List IterState → List UInt8 →
    List IterState × List UInt8 × Except IterError (IterState × List UInt8)
  | [], path => ([], path, .error .iteratorEnd)
  | parent :: rest, path =>
    match nextChild path parent with
    | some (parent', state, cpath) =>
      match t.resolve state.node cpath with
      | .ok m => (parent' :: rest, path, .ok ({ state with node := m }, cpath))
      | .error e => (parent' :: rest, path, .error (.trie e))
    | none => peekLoop t rest (path.take parent.pathlen)

/-- `nodeIterator.peek`: on an empty stack the root, resolved; otherwise the top entry popped
unless `descend`, then the loop above. The flag says whether the parent's index moves on when the
state is pushed (`parentIndex` is not `nil`).
Source: `fast/iterator.go` `nodeIterator.peek` -/
def peek (descend : Bool) (it : NodeIterator) :
    NodeIterator × Except IterError (IterState × Bool × List UInt8) :=
  match it.stack with
  | [] =>
    match it.trie.resolve it.trie.root [] with
    | .ok m => (it, .ok (⟨m, -1, 0⟩, false, []))
    | .error e => (it, .error (.trie e))
  | top :: rest =>
    let (stack, path) := if descend then (top :: rest, it.path) else (rest, it.path.take top.pathlen)
    let (stack', path', r) := peekLoop it.trie stack path
    ({ it with stack := stack', path := path' }, r.map fun (state, cpath) => (state, true, cpath))

/-- `*parentIndex += 1`: the top entry's index moved on. -/
def bumpTop : List IterState → List IterState
  | top :: rest => { top with index := top.index + 1 } :: rest
  | [] => []

/-- `nodeIterator.push`: the state on top of the stack at its path, the parent's index moved on.
Source: `fast/iterator.go` `nodeIterator.push` -/
def push (it : NodeIterator) (state : IterState) (parentIndex : Bool) (path : List UInt8) :
    NodeIterator :=
  { it with path := path, stack := state :: if parentIndex then bumpTop it.stack else it.stack }

/-- The loop of `nodeIterator.seek` for the hex key `key` of `start`: step through the nodes,
descending only into a node whose path is a prefix of `key`, and stop before the first node whose
path is not below `key` (`bytes.Compare(path, key) >= 0`). One unit of fuel a node.
Source: `fast/iterator.go` `nodeIterator.seek` -/
def seekLoop (start key : List UInt8) : Nat → NodeIterator → Option (NodeIterator × Option IterError)
  | 0, _ => none
  | fuel + 1, it =>
    match peek (it.path.isPrefixOf key) it with
    | (it', .error .iteratorEnd) => some (it', some .iteratorEnd)
    | (it', .error e) => some (it', some (.seekError start e))
    | (it', .ok (state, parentIndex, path)) =>
      if path < key then seekLoop start key fuel (push it' state parentIndex path)
      else some (it', none)

/-- `nodeIterator.seek`: the loop above on the nibbles of `start`, without the terminator.
Source: `fast/iterator.go` `nodeIterator.seek` -/
def seek (fuel : Nat) (it : NodeIterator) (start : List UInt8) :
    Option (NodeIterator × Option IterError) :=
  seekLoop start (keybytesToHex start).dropLast fuel it

/-- `newNodeIterator`: an iterator over the trie, seeked to `start`, with the seek's error.
Source: `fast/iterator.go` `newNodeIterator` -/
def newNodeIterator (fuel : Nat) (t : Trie) (start : List UInt8) : Option NodeIterator :=
  (seek fuel ⟨t, [], [], none⟩ start).map fun (it, err) => { it with err := err }

namespace NodeIterator

/-- The end of `nodeIterator.Next`: peek, then push the node or keep the error. -/
def advance (descend : Bool) (it : NodeIterator) : NodeIterator × Bool :=
  match peek descend it with
  | (it', .error e) => ({ it' with err := some e }, false)
  | (it', .ok (state, parentIndex, path)) => ({ push it' state parentIndex path with err := none }, true)

/-- `nodeIterator.Next`: nothing after the end; a failed seek is tried again first.
Source: `fast/iterator.go` `nodeIterator.Next` -/
def next (fuel : Nat) (descend : Bool) (it : NodeIterator) : Option (NodeIterator × Bool) :=
  match it.err with
  | some .iteratorEnd => some (it, false)
  | some (.seekError key _) =>
    match seek fuel it key with
    | none => none
    | some (it', some e) => some ({ it' with err := some e }, false)
    | some (it', none) => some (advance descend { it' with err := none })
  | _ => some (advance descend it)

/-- `nodeIterator.Error`: no error at the end, the cause of a failed seek.
Source: `fast/iterator.go` `nodeIterator.Error` -/
def error (it : NodeIterator) : Option IterError :=
  match it.err with
  | some .iteratorEnd => none
  | some (.seekError _ e) => some e
  | e => e

/-- `nodeIterator.Leaf`: the path ends in the terminator.
Source: `fast/iterator.go` `nodeIterator.Leaf` -/
def leaf (it : NodeIterator) : Bool := hasTerm it.path

end NodeIterator

namespace NodeIterator

/-- `nodeIterator.LeafKey`: the key of the value node on top; `none` where the source panics.
Source: `fast/iterator.go` `nodeIterator.LeafKey` -/
def leafKey (it : NodeIterator) : Option (List UInt8) :=
  match it.stack with
  | ⟨.value _, _, _⟩ :: _ => hexToKeybytes it.path
  | _ => none

/-- `nodeIterator.LeafBlob`: the value node on top; `none` where the source panics.
Source: `fast/iterator.go` `nodeIterator.LeafBlob` -/
def leafBlob (it : NodeIterator) : Option (List UInt8) :=
  match it.stack with
  | ⟨.value v, _, _⟩ :: _ => some v
  | _ => none

end NodeIterator

/-- `Iterator`: a node iterator, the key and value of the leaf it is at (`nil` is empty), and
the node iterator's error once it stops.
Source: `fast/iterator.go` `type Iterator struct` -/
structure Iterator where
  nodeIt : NodeIterator
  key : List UInt8
  value : List UInt8
  err : Option IterError

namespace Iterator

/-- `NewIterator`.
Source: `fast/iterator.go` `NewIterator` -/
def new (nodeIt : NodeIterator) : Iterator := ⟨nodeIt, [], [], none⟩

/-- The loop of `Iterator.Next`: step the node iterator until it is at a leaf, and read the key
and value there; `none` once the node iterator stops. One unit of fuel a step.
Source: `fast/iterator.go` `Iterator.Next` -/
def nextLoop : Nat → NodeIterator → Option (NodeIterator × Option (List UInt8 × List UInt8))
  | 0, _ => none
  | fuel + 1, nodeIt =>
    match nodeIt.next fuel true with
    | none => none
    | some (nodeIt', false) => some (nodeIt', none)
    | some (nodeIt', true) =>
      if nodeIt'.leaf then
        match nodeIt'.leafKey, nodeIt'.leafBlob with
        | some k, some v => some (nodeIt', some (k, v))
        | _, _ => none
      else nextLoop fuel nodeIt'

/-- `Iterator.Next`: the next leaf's key and value, or, at the end, the node iterator's error.
Source: `fast/iterator.go` `Iterator.Next` -/
def next (fuel : Nat) (it : Iterator) : Option (Iterator × Bool) :=
  match nextLoop fuel it.nodeIt with
  | none => none
  | some (nodeIt, some (k, v)) => some ({ it with nodeIt := nodeIt, key := k, value := v }, true)
  | some (nodeIt, none) => some ({ nodeIt := nodeIt, key := [], value := [], err := nodeIt.error }, false)

/-- What a caller reads from `Iterator.Next` until it returns false: the keys and values in
order, and `Err` at the end. -/
def run : Nat → Iterator → Option (List (List UInt8 × List UInt8) × Option IterError)
  | 0, _ => none
  | fuel + 1, it =>
    match it.next fuel with
    | none => none
    | some (it', false) => some ([], it'.err)
    | some (it', true) => (run fuel it').map fun (kvs, e) => ((it'.key, it'.value) :: kvs, e)

end Iterator

/-! ### The preorder of the trie -/

/-- The children `nextChild` visits after `index`, each at its path. -/
def kids (node : Node) (path : List UInt8) (index : Int) : List (Node × List UInt8) :=
  match node with
  | .full cs _ =>
    ((List.finRange 17).filter fun i => decide (index < i.val) && !(cs i).isEmpty).map
      fun i => (cs i, path ++ [i.val.toUInt8])
  | .short key val _ => if index < 0 then [(val, path ++ key)] else []
  | _ => []

/-- The preorder of a forest of nodes, each at its path: the first node resolved through the
trie, the walk of its children, then the walk of the rest of the forest. A walk of the trie,
from its root at the empty path, exists exactly when every node of the trie resolves. -/
inductive Walks (t : Trie) : List (Node × List UInt8) → List (List UInt8 × Node) → Prop where
  | nil : Walks t [] []
  | cons {n m : Node} {path : List UInt8} {rest : List (Node × List UInt8)}
      {below after : List (List UInt8 × Node)} (hres : t.resolve n path = .ok m)
      (hkids : Walks t (kids m path (-1)) below) (hrest : Walks t rest after) :
      Walks t ((n, path) :: rest) ((path, m) :: (below ++ after))

theorem prefix_of_mem_kids {node : Node} {path : List UInt8} {index : Int}
    {y : Node × List UInt8} (hy : y ∈ kids node path index) : path <+: y.2 := by
  unfold kids at hy
  split at hy
  · obtain ⟨i, -, rfl⟩ := List.mem_map.mp hy
    exact List.prefix_append _ _
  · split at hy
    · rw [List.mem_singleton.mp hy]
      exact List.prefix_append _ _
    · simp at hy
  · simp at hy

theorem toUInt8_lt_toUInt8 {i j : Fin 17} (h : i < j) : i.val.toUInt8 < j.val.toUInt8 := by
  rw [UInt8.lt_iff_toNat_lt]
  simp [Nat.toUInt8]
  omega

/-- A node's children part at their first nibble, in order. -/
theorem kids_diverge (node : Node) (path : List UInt8) (index : Int) :
    (kids node path index).Pairwise fun a b => Diverges a.2 b.2 := by
  unfold kids
  split
  · apply List.Pairwise.map _ _ ((List.pairwise_lt_finRange 17).filter _)
    intro i j hij
    exact diverges_append_singleton path (toUInt8_lt_toUInt8 hij)
  · split <;> simp
  · simp

section Walks

variable {t : Trie}

theorem Walks.eq_nil_of_nil {L : List (List UInt8 × Node)} (h : Walks t [] L) : L = [] := by
  cases h
  rfl

theorem Walks.nil_of_eq_nil {F : List (Node × List UInt8)} (h : Walks t F []) : F = [] := by
  cases h
  rfl

theorem Walks.cons_inv {n : Node} {path : List UInt8} {F : List (Node × List UInt8)}
    {L : List (List UInt8 × Node)} (h : Walks t ((n, path) :: F) L) :
    ∃ m below after, t.resolve n path = .ok m ∧ Walks t (kids m path (-1)) below ∧
      Walks t F after ∧ L = (path, m) :: (below ++ after) := by
  cases h with
  | cons hres hkids hrest => exact ⟨_, _, _, hres, hkids, hrest, rfl⟩

/-- The walk of a single node: the node, then its children's walk. -/
theorem Walks.single {n m : Node} {path : List UInt8} {below : List (List UInt8 × Node)}
    (hres : t.resolve n path = .ok m) (hkids : Walks t (kids m path (-1)) below) :
    Walks t [(n, path)] ((path, m) :: below) := by
  simpa using Walks.cons hres hkids .nil

theorem Walks.append {F₁ F₂ : List (Node × List UInt8)} {L₁ L₂ : List (List UInt8 × Node)}
    (h₁ : Walks t F₁ L₁) (h₂ : Walks t F₂ L₂) : Walks t (F₁ ++ F₂) (L₁ ++ L₂) := by
  induction h₁ with
  | nil => exact h₂
  | cons hres hkids _ _ ih =>
    rw [List.cons_append, List.cons_append, List.append_assoc]
    exact .cons hres hkids ih

theorem Walks.of_append {F₁ F₂ : List (Node × List UInt8)} {L : List (List UInt8 × Node)}
    (h : Walks t (F₁ ++ F₂) L) :
    ∃ L₁ L₂, L = L₁ ++ L₂ ∧ Walks t F₁ L₁ ∧ Walks t F₂ L₂ := by
  induction F₁ generalizing L with
  | nil => exact ⟨[], L, rfl, .nil, h⟩
  | cons y F₁ ih =>
    obtain ⟨n, path⟩ := y
    obtain ⟨m, below, after, hres, hkids, hrest, rfl⟩ := h.cons_inv
    obtain ⟨L₁, L₂, rfl, h₁, h₂⟩ := ih hrest
    exact ⟨(path, m) :: (below ++ L₁), L₂, by simp, .cons hres hkids h₁, h₂⟩

/-- Every node of a walk sits below one of the forest's roots. -/
theorem Walks.prefix {F : List (Node × List UInt8)} {L : List (List UInt8 × Node)}
    (h : Walks t F L) : ∀ x ∈ L, ∃ y ∈ F, y.2 <+: x.1 := by
  induction h with
  | nil => simp
  | @cons n m path rest below after _ _ _ ihk ihr =>
    intro x hx
    rcases List.mem_cons.mp hx with rfl | hx
    · exact ⟨(n, path), List.mem_cons_self, List.prefix_refl _⟩
    rcases List.mem_append.mp hx with hx | hx
    · obtain ⟨y, hy, hyx⟩ := ihk x hx
      exact ⟨(n, path), List.mem_cons_self, (prefix_of_mem_kids hy).trans hyx⟩
    · obtain ⟨y, hy, hyx⟩ := ihr x hx
      exact ⟨y, List.mem_cons_of_mem _ hy, hyx⟩

/-- A path that parts before every root of a forest parts before every node of its walk. -/
theorem Walks.diverges {F : List (Node × List UInt8)} {L : List (List UInt8 × Node)}
    (h : Walks t F L) {p : List UInt8} (hp : ∀ y ∈ F, Diverges p y.2) :
    ∀ x ∈ L, ∀ q, p <+: q → Diverges q x.1 := by
  intro x hx q hq
  obtain ⟨y, hy, hyx⟩ := h.prefix x hx
  exact (hp y hy).mono hq hyx

/-- A walk visits paths in lexicographic order, when the forest's roots part in order. -/
theorem Walks.sorted {F : List (Node × List UInt8)} {L : List (List UInt8 × Node)}
    (h : Walks t F L) (hF : F.Pairwise fun a b => Diverges a.2 b.2) :
    L.Pairwise fun a b => a.1 ≤ b.1 := by
  induction h with
  | nil => exact .nil
  | @cons n m path rest below after _ hkids hrest ihk ihr =>
    obtain ⟨hhead, hF⟩ := List.pairwise_cons.mp hF
    have hpart := hrest.diverges hhead
    refine List.pairwise_cons.mpr ⟨fun x hx => ?_, ?_⟩
    · rcases List.mem_append.mp hx with hx | hx
      · obtain ⟨y, hy, hyx⟩ := hkids.prefix x hx
        exact ((prefix_of_mem_kids hy).trans hyx).le
      · exact List.le_of_lt (hpart x hx path (List.prefix_refl _)).lt
    · apply List.pairwise_append.mpr ⟨ihk (kids_diverge m path (-1)), ihr hF, fun a ha b hb => ?_⟩
      obtain ⟨y, hy, hya⟩ := hkids.prefix a ha
      exact List.le_of_lt (hpart b hb a.1 ((prefix_of_mem_kids hy).trans hya)).lt

/-- A walk visits its value nodes in strictly increasing lexicographic order of path: a value
node has no children, so every node after it parts from it. -/
theorem Walks.values_sorted {F : List (Node × List UInt8)} {L : List (List UInt8 × Node)}
    (h : Walks t F L) (hF : F.Pairwise fun a b => Diverges a.2 b.2) :
    (L.filter fun x => x.2.isValue).Pairwise fun a b => a.1 < b.1 := by
  induction h with
  | nil => exact .nil
  | @cons n m path rest below after _ hkids hrest ihk ihr =>
    obtain ⟨hhead, hF⟩ := List.pairwise_cons.mp hF
    have hpart := hrest.diverges hhead
    have hbelow := ihk (kids_diverge m path (-1))
    have hcross : ∀ a ∈ below.filter (fun x => x.2.isValue), ∀ b ∈ after.filter (fun x => x.2.isValue),
        a.1 < b.1 := by
      intro a ha b hb
      obtain ⟨y, hy, hya⟩ := hkids.prefix a (List.mem_of_mem_filter ha)
      exact (hpart b (List.mem_of_mem_filter hb) a.1 ((prefix_of_mem_kids hy).trans hya)).lt
    rw [List.filter_cons, List.filter_append]
    by_cases hv : m.isValue = true
    · -- a value node has no children, so nothing sits below it
      obtain ⟨v, rfl⟩ : ∃ v, m = .value v := by
        cases m <;> simp [Node.isValue] at hv ⊢
      rw [if_pos hv, Walks.eq_nil_of_nil hkids, List.filter_nil, List.nil_append]
      exact List.pairwise_cons.mpr ⟨fun b hb => (hpart b (List.mem_of_mem_filter hb) path
        (List.prefix_refl _)).lt, ihr hF⟩
    · rw [if_neg hv]
      exact List.pairwise_append.mpr ⟨hbelow, ihr hF, hcross⟩

end Walks

/-! ### What the stack has still to visit -/

/-- The subtrees the stack has still to visit: the children after each entry's index, from the
top entry down, each entry at the path the entries above it leave. -/
def frontier : List IterState → List UInt8 → List (Node × List UInt8)
  | [], _ => []
  | s :: rest, path => kids s.node path s.index ++ frontier rest (path.take s.pathlen)

namespace NodeIterator

/-- What is left to visit: the whole trie before the first node, else the frontier of the
stack. -/
def toVisit (it : NodeIterator) : List (Node × List UInt8) :=
  match it.stack with
  | [] => [(it.trie.root, [])]
  | s :: rest => frontier (s :: rest) it.path

/-- A running iterator with the nodes `rest` still to visit, in order. -/
structure Visiting (it : NodeIterator) (rest : List (List UInt8 × Node)) : Prop where
  err : it.err = none
  index : ∀ s ∈ it.stack, -1 ≤ s.index
  walks : Walks it.trie it.toVisit rest

/-- An iterator that visits `rest` and stops: running, or at the end with nothing left. -/
def Visits (it : NodeIterator) (rest : List (List UInt8 × Node)) : Prop :=
  Visiting it rest ∨ (it.err = some .iteratorEnd ∧ rest = [])

end NodeIterator

open NodeIterator

/-- The key and value `Iterator.Next` reads at a node of a terminated path: `none` where the
source panics, away from a value node or on a path of odd length. -/
def leafPair : List UInt8 × Node → Option (List UInt8 × List UInt8)
  | (path, .value v) => (hexToKeybytes path).map fun k => (k, v)
  | _ => none

/-- The keys and values `Iterator.Next` reads from the nodes it visits, in order. -/
def leafPairs (visited : List (List UInt8 × Node)) : Option (List (List UInt8 × List UInt8)) :=
  (visited.filter fun x => hasTerm x.1).mapM leafPair

/-! ### One step of `peek` -/

theorem nextChild_eq_none {path : List UInt8} {s : IterState} :
    nextChild path s = none ↔ kids s.node path s.index = [] := by
  obtain ⟨node, index, pathlen⟩ := s
  cases node with
  | full cs f =>
    simp only [nextChild, kids, List.map_eq_nil_iff, List.filter_eq_nil_iff, ← List.find?_eq_none]
    split <;> simp_all
  | short key val f =>
    simp only [nextChild, kids]
    split <;> simp
  | _ => simp [nextChild, kids]

/-- A full node's children after `index`: the first one `find?` meets, then those after it. -/
theorem kids_full_of_find? {cs : Fin 17 → Node} {f : NodeFlag} {path : List UInt8} {index : Int}
    {i : Fin 17}
    (h : (List.finRange 17).find? (fun j => decide (index < j.val) && !(cs j).isEmpty) = some i) :
    kids (.full cs f) path (i.val - 1) = kids (.full cs f) path index ∧
      kids (.full cs f) path index =
        (cs i, path ++ [i.val.toUInt8]) :: kids (.full cs f) path (i.val - 1 + 1) := by
  have hi : index < i.val := by
    have hpi := List.find?_some h
    simp only [Bool.and_eq_true, decide_eq_true_eq] at hpi
    exact hpi.1
  have hfilter := filter_eq_cons_of_find? (List.pairwise_lt_finRange 17) h (lt_irrefl i)
  -- every child after `index` is `i` or after it
  have hafter : ∀ j : Fin 17, index < j.val → (cs j).isEmpty = false → i.val ≤ j.val := by
    intro j hj he
    have hmem : j ∈ (List.finRange 17).filter fun j => decide (index < j.val) && !(cs j).isEmpty :=
      List.mem_filter.mpr ⟨List.mem_finRange j, by simp [hj, he]⟩
    rw [hfilter, List.mem_cons, List.mem_filter] at hmem
    rcases hmem with rfl | ⟨-, hj⟩
    · exact le_refl _
    · simp only [Bool.and_eq_true, decide_eq_true_eq] at hj
      exact le_of_lt (Fin.lt_def.mp hj.2)
  constructor
  · simp only [kids]
    congr 1
    apply List.filter_congr
    intro j _
    cases he : (cs j).isEmpty
    · have := hafter j
      simp only [Bool.not_false, Bool.and_true, decide_eq_decide]
      constructor <;> intro hj
      · omega
      · have := this hj he
        omega
    · simp
  · simp only [kids]
    rw [hfilter, List.map_cons]
    congr 2
    apply List.filter_congr
    intro j _
    cases he : (cs j).isEmpty
    · rw [Bool.eq_iff_iff]
      simp only [Bool.not_false, Bool.and_true, Bool.and_eq_true, decide_eq_true_eq, Fin.lt_def]
      omega
    · simp

/-- What `nextChild` returns: the parent with its index moved to one that has the same children
after it, the first of them, and its path below the parent's. -/
theorem nextChild_eq_some {path : List UInt8} {s : IterState} (hs : -1 ≤ s.index)
    {r : IterState × IterState × List UInt8} (h : nextChild path s = some r) :
    ∃ c cpath index, r = ({ s with index := index }, ⟨c, -1, path.length⟩, cpath) ∧
      path <+: cpath ∧ -1 ≤ index ∧ kids s.node path index = kids s.node path s.index ∧
      kids s.node path s.index = (c, cpath) :: kids s.node path (index + 1) := by
  obtain ⟨node, index, pathlen⟩ := s
  cases node with
  | full cs f =>
    simp only [nextChild] at h
    split at h
    · rename_i i hfind
      cases h
      obtain ⟨hsame, hkids⟩ := @kids_full_of_find? cs f path _ _ hfind
      exact ⟨cs i, _, _, rfl, List.prefix_append _ _, by omega, hsame, hkids⟩
    · cases h
  | short key val f =>
    simp only [nextChild] at h hs
    split at h
    · rename_i hneg
      cases h
      refine ⟨val, path ++ key, index, rfl, List.prefix_append _ _, hs, rfl, ?_⟩
      have : ¬ index + 1 < 0 := by omega
      simp [kids, hneg, this]
    · cases h
  | _ => simp [nextChild] at h

theorem peekLoop_end (t : Trie) : ∀ {stack : List IterState} {path : List UInt8},
    frontier stack path = [] → ∃ path', peekLoop t stack path = ([], path', .error .iteratorEnd)
  | [], path, _ => ⟨path, rfl⟩
  | s :: rest, path, h => by
    obtain ⟨hkids, hrest⟩ := List.append_eq_nil_iff.mp h
    obtain ⟨path', hloop⟩ := peekLoop_end t hrest
    exact ⟨path', by rw [peekLoop, Iff.mpr nextChild_eq_none hkids]; exact hloop⟩

theorem bumpTop_index {stack : List IterState} (h : ∀ s ∈ stack, -1 ≤ s.index) :
    ∀ s ∈ bumpTop stack, -1 ≤ s.index := by
  cases stack with
  | nil => simp [bumpTop]
  | cons top rest =>
    intro s hs
    rcases List.mem_cons.mp hs with rfl | hs
    · have := h top List.mem_cons_self
      dsimp only
      omega
    · exact h s (List.mem_cons_of_mem _ hs)

theorem peekLoop_next (t : Trie) {m c : Node} {q : List UInt8} {F : List (Node × List UInt8)}
    (hres : t.resolve c q = .ok m) : ∀ {stack : List IterState} {path : List UInt8},
    (∀ s ∈ stack, -1 ≤ s.index) → frontier stack path = (c, q) :: F →
    ∃ stack' path', peekLoop t stack path = (stack', path', .ok (⟨m, -1, path'.length⟩, q)) ∧
      stack' ≠ [] ∧ (∀ s ∈ stack', -1 ≤ s.index) ∧ path' <+: q ∧
      frontier stack' path' = (c, q) :: F ∧ frontier (bumpTop stack') path' = F
  | [], _, _, h => by simp [frontier] at h
  | s :: rest, path, hidx, h => by
    cases hnext : nextChild path s with
    | none =>
      -- the top entry has no child left: it is popped
      rw [frontier, Iff.mp nextChild_eq_none hnext, List.nil_append] at h
      obtain ⟨stack', path', hloop, hfacts⟩ :=
        peekLoop_next t hres (fun s' hs' => hidx s' (List.mem_cons_of_mem _ hs')) h
      exact ⟨stack', path', by rw [peekLoop, hnext]; exact hloop, hfacts⟩
    | some r =>
      obtain ⟨c', cpath, index, rfl, hpre, hindex, hsame, hkids⟩ :=
        nextChild_eq_some (hidx s List.mem_cons_self) hnext
      rw [frontier, hkids, List.cons_append, List.cons.injEq, Prod.mk.injEq] at h
      obtain ⟨⟨rfl, rfl⟩, rfl⟩ := h
      refine ⟨{ s with index := index } :: rest, path, ?_, List.cons_ne_nil _ _, ?_, hpre, ?_, ?_⟩
      · simp [peekLoop, hnext, hres]
      · intro s' hs'
        rcases List.mem_cons.mp hs' with rfl | hs'
        · exact hindex
        · exact hidx s' (List.mem_cons_of_mem _ hs')
      · simp only [frontier]
        rw [hsame, hkids, List.cons_append]
      · simp only [bumpTop, frontier]

theorem frontier_push {m : Node} {stack : List IterState} {path q : List UInt8} (hpre : path <+: q) :
    frontier (⟨m, -1, path.length⟩ :: stack) q = kids m q (-1) ++ frontier stack path := by
  rw [frontier, ← List.prefix_iff_eq_take.mp hpre]

/-- From a stack whose frontier walks to `x :: rest`, the loop of `peek` finds `x`: pushed, the
iterator has `rest` left to visit; not pushed, still `x :: rest`. -/
theorem peekLoop_visit {t : Trie} {stack : List IterState} {path : List UInt8}
    (hidx : ∀ s ∈ stack, -1 ≤ s.index) {x : List UInt8 × Node} {rest : List (List UInt8 × Node)}
    (hw : Walks t (frontier stack path) (x :: rest)) :
    ∃ stack' path', peekLoop t stack path = (stack', path', .ok (⟨x.2, -1, path'.length⟩, x.1)) ∧
      stack' ≠ [] ∧ (∀ s ∈ stack', -1 ≤ s.index) ∧ Walks t (frontier stack' path') (x :: rest) ∧
      Walks t (frontier (⟨x.2, -1, path'.length⟩ :: bumpTop stack') x.1) rest := by
  cases hF : frontier stack path with
  | nil => rw [hF] at hw; cases hw
  | cons y F =>
    obtain ⟨c, q⟩ := y
    rw [hF] at hw
    obtain ⟨m, below, after, hres, hkids, hrest, hx⟩ := hw.cons_inv
    obtain ⟨rfl, rfl⟩ := List.cons.inj hx
    obtain ⟨stack', path', hloop, hne, hidx', hpre, hsame, hbump⟩ := peekLoop_next t hres hidx hF
    refine ⟨stack', path', hloop, hne, hidx', ?_, ?_⟩
    · rw [hsame, hx]
      exact .cons hres hkids hrest
    · rw [frontier_push hpre, hbump]
      exact hkids.append hrest

theorem peek_of_cons {it : NodeIterator} {s : IterState} {rest : List IterState}
    (h : it.stack = s :: rest) (descend : Bool) :
    peek descend it =
      let r := peekLoop it.trie (if descend then s :: rest else rest)
        (if descend then it.path else it.path.take s.pathlen)
      ({ it with stack := r.1, path := r.2.1 }, r.2.2.map fun (state, cpath) => (state, true, cpath)) := by
  unfold peek
  rw [h]
  cases descend <;> rfl

/-! ### The node iterator's steps -/

namespace NodeIterator

variable {it : NodeIterator}

/-- The first step from a fresh iterator visits the root, and the root's children are left. -/
theorem Visiting.peek_root {x : List UInt8 × Node} {rest : List (List UInt8 × Node)}
    (h : Visiting it (x :: rest)) (hst : it.stack = []) (descend : Bool) :
    x.1 = [] ∧ peek descend it = (it, .ok (⟨x.2, -1, 0⟩, false, [])) ∧
      Visiting (push it ⟨x.2, -1, 0⟩ false []) rest := by
  have hw := h.walks
  simp only [toVisit, hst] at hw
  obtain ⟨m, below, after, hres, hkids, hrest, hx⟩ := hw.cons_inv
  obtain ⟨rfl, rfl⟩ := List.cons.inj hx
  rw [hrest.eq_nil_of_nil, List.append_nil]
  refine ⟨rfl, by simp [peek, hst, hres], ⟨h.err, ?_, ?_⟩⟩
  · simp [push, hst]
  · simpa [toVisit, push, hst, frontier] using hkids

/-- A step from a running iterator visits the next node, and leaves the rest. -/
theorem Visiting.advance {x : List UInt8 × Node} {rest : List (List UInt8 × Node)}
    (h : Visiting it (x :: rest)) :
    ∃ it', it.advance true = (it', true) ∧ it'.path = x.1 ∧
      it'.stack.head?.map IterState.node = some x.2 ∧ Visiting it' rest := by
  cases hst : it.stack with
  | nil =>
    obtain ⟨hx, hpeek, hvis⟩ := h.peek_root hst true
    refine ⟨{ push it ⟨x.2, -1, 0⟩ false [] with err := none }, ?_, by simp [push, hx], by simp [push],
      ⟨rfl, hvis.index, hvis.walks⟩⟩
    rw [NodeIterator.advance, hpeek]
  | cons s rest' =>
    have hw := h.walks
    simp only [toVisit, hst] at hw
    obtain ⟨stack', path', hloop, hne, hidx, -, hpush⟩ := peekLoop_visit (hst ▸ h.index) hw
    refine ⟨{ push { it with stack := stack', path := path' } ⟨x.2, -1, path'.length⟩ true x.1 with
      err := none }, ?_, by simp [push], by simp [push], ⟨rfl, ?_, ?_⟩⟩
    · rw [NodeIterator.advance, peek_of_cons hst]
      simp only [if_true, hloop]
      rfl
    · intro s' hs'
      rcases List.mem_cons.mp hs' with rfl | hs'
      · simp
      · exact bumpTop_index hidx s' (by simpa [push] using hs')
    · simpa [toVisit, push] using hpush

/-- A step from a running iterator with nothing left ends the iteration. -/
theorem Visiting.advance_end (h : Visiting it []) :
    ∃ it', it.advance true = (it', false) ∧ it'.err = some .iteratorEnd := by
  have hw := h.walks
  cases hst : it.stack with
  | nil =>
    simp only [toVisit, hst] at hw
    cases hw.nil_of_eq_nil
  | cons s rest =>
    simp only [toVisit, hst] at hw
    obtain ⟨path', hloop⟩ := peekLoop_end it.trie hw.nil_of_eq_nil
    refine ⟨{ it with stack := [], path := path', err := some .iteratorEnd }, ?_, rfl⟩
    rw [NodeIterator.advance, peek_of_cons hst]
    simp only [if_true, hloop]
    rfl

theorem next_of_err_none (h : it.err = none) (fuel : Nat) (descend : Bool) :
    it.next fuel descend = some (it.advance descend) := by
  simp [NodeIterator.next, h]

theorem next_of_end (h : it.err = some .iteratorEnd) (fuel : Nat) (descend : Bool) :
    it.next fuel descend = some (it, false) := by
  simp [NodeIterator.next, h]

end NodeIterator

open NodeIterator

/-! ### The iterator's loops -/

namespace Iterator

/-- What the loop of `Iterator.Next` reads at a node: the key and value at a value node. -/
theorem leaf_read {it : NodeIterator} {x : List UInt8 × Node} (hpath : it.path = x.1)
    (htop : it.stack.head?.map IterState.node = some x.2) :
    (match it.leafKey, it.leafBlob with
      | some k, some v => some (it, some (k, v))
      | _, _ => none) = (leafPair x).map fun kv => (it, some kv) := by
  obtain ⟨path, node⟩ := x
  cases hst : it.stack with
  | nil => simp [hst] at htop
  | cons s rest =>
    obtain ⟨n, index, pathlen⟩ := s
    simp only [hst, List.head?_cons, Option.map_some, Option.some.injEq] at htop
    subst htop
    dsimp only at hpath
    cases n <;> simp [leafPair, leafKey, leafBlob, hst, hpath]
    cases hexToKeybytes path <;> rfl

/-- One step of the loop: at a terminated path it reads the node, anywhere else it goes on. -/
theorem nextLoop_step {it : NodeIterator} {x : List UInt8 × Node} {rest : List (List UInt8 × Node)}
    (h : Visiting it (x :: rest)) (fuel : Nat) :
    ∃ it', Visiting it' rest ∧ nextLoop (fuel + 1) it =
      if hasTerm x.1 then (leafPair x).map fun kv => (it', some kv) else nextLoop fuel it' := by
  obtain ⟨it', hadv, hpath, htop, hvis⟩ := h.advance
  refine ⟨it', hvis, ?_⟩
  rw [nextLoop, next_of_err_none h.err, hadv]
  simp only [leaf, hpath]
  split
  · exact leaf_read hpath htop
  · rfl

theorem nextLoop_end {it : NodeIterator} (h : Visits it []) (fuel : Nat) :
    ∃ it', nextLoop (fuel + 1) it = some (it', none) ∧ it'.error = none := by
  rcases h with h | ⟨hend, -⟩
  · obtain ⟨it', hadv, herr⟩ := h.advance_end
    refine ⟨it', ?_, by simp [error, herr]⟩
    rw [nextLoop, next_of_err_none h.err, hadv]
  · refine ⟨it, ?_, by simp [error, hend]⟩
    rw [nextLoop, next_of_end hend]

/-- The loop reads the first node at a terminated path, and leaves the nodes after it. -/
theorem nextLoop_leaf {x : List UInt8 × Node} {rest : List (List UInt8 × Node)} (hx : hasTerm x.1) :
    ∀ {S : List (List UInt8 × Node)} {it : NodeIterator} {fuel : Nat},
    Visits it (S ++ x :: rest) → (∀ y ∈ S, hasTerm y.1 = false) → S.length < fuel →
    ∃ it', Visits it' rest ∧ nextLoop fuel it = (leafPair x).map fun kv => (it', some kv)
  | [], it, fuel + 1, h, _, _ => by
    have h : Visiting it (x :: rest) := h.resolve_right (by simp)
    obtain ⟨it', hvis, hstep⟩ := nextLoop_step h fuel
    exact ⟨it', .inl hvis, by rw [hstep, if_pos hx]⟩
  | y :: S, it, fuel + 1, h, hS, hfuel => by
    have h : Visiting it (y :: (S ++ x :: rest)) := h.resolve_right (by simp)
    obtain ⟨it', hvis, hstep⟩ := nextLoop_step h fuel
    rw [hstep, if_neg (by simp [hS y List.mem_cons_self])]
    exact nextLoop_leaf hx (.inl hvis) (fun z hz => hS z (List.mem_cons_of_mem _ hz))
      (by simp at hfuel; omega)

/-- Past the last node at a terminated path, the loop stops with no error. -/
theorem nextLoop_none : ∀ {S : List (List UInt8 × Node)} {it : NodeIterator} {fuel : Nat},
    Visits it S → (∀ y ∈ S, hasTerm y.1 = false) → S.length < fuel →
    ∃ it', nextLoop fuel it = some (it', none) ∧ it'.error = none
  | [], it, fuel + 1, h, _, _ => nextLoop_end h fuel
  | y :: S, it, fuel + 1, h, hS, hfuel => by
    have h : Visiting it (y :: S) := h.resolve_right (by simp)
    obtain ⟨it', hvis, hstep⟩ := nextLoop_step h fuel
    rw [hstep, if_neg (by simp [hS y List.mem_cons_self])]
    exact nextLoop_none (.inl hvis) (fun z hz => hS z (List.mem_cons_of_mem _ hz))
      (by simp at hfuel; omega)

/-- A caller's loop over `Iterator.Next` reads the key and value of every node it visits at a
terminated path, in order, and ends with no error. -/
theorem run_visits : ∀ (n : Nat) {L : List (List UInt8 × Node)}, L.length = n →
    ∀ {it : NodeIterator} {fuel : Nat}, Visits it L → L.length + 2 ≤ fuel →
    ∀ key value err, run fuel ⟨it, key, value, err⟩ = (leafPairs L).map fun kvs => (kvs, none)
  | n, L, hn, it, fuel + 1, h, hfuel, key, value, err => by
    cases hfind : L.find? (fun x => hasTerm x.1) with
    | none =>
      have hS : ∀ y ∈ L, hasTerm y.1 = false := by simpa using List.find?_eq_none.mp hfind
      obtain ⟨it', hloop, herr⟩ := nextLoop_none h hS (show L.length < fuel by omega)
      have hpairs : leafPairs L = some [] := by
        rw [leafPairs, List.filter_eq_nil_iff.mpr fun y hy => by simp [hS y hy]]
        rfl
      simp [run, Iterator.next, hloop, herr, hpairs]
    | some x =>
      obtain ⟨hx, S, rest, rfl, hS⟩ := List.find?_eq_some_iff_append.mp hfind
      have hS : ∀ y ∈ S, hasTerm y.1 = false := by simpa using hS
      obtain ⟨it', hvis, hloop⟩ := nextLoop_leaf hx h hS (show S.length < fuel by simp at hfuel; omega)
      have hfilter : ((S ++ x :: rest).filter fun x => hasTerm x.1) =
          x :: rest.filter fun x => hasTerm x.1 := by
        rw [List.filter_append, List.filter_eq_nil_iff.mpr fun y hy => by simp [hS y hy]]
        simp [hx]
      cases hpair : leafPair x with
      | none => simp [run, Iterator.next, hloop, hpair, leafPairs, hfilter]
      | some kv =>
        have ih := run_visits rest.length rfl hvis
          (show rest.length + 2 ≤ fuel by simp at hfuel; omega) kv.1 kv.2 err
        have hpairs : leafPairs (S ++ x :: rest) = (leafPairs rest).map (kv :: ·) := by
          simp only [leafPairs, hfilter, List.mapM_cons, hpair]
          cases (rest.filter fun x => hasTerm x.1).mapM leafPair <;> rfl
        simp only [run, Iterator.next, hloop, hpair, Option.map_some, ih, hpairs, Option.map_map]
        cases leafPairs rest <;> rfl

end Iterator

/-! ### The seek -/

/-- The seek for `key` on its way through the walk `whole` of the trie: running with `rest` left,
everything before `rest` below `key`, and, once a node is pushed, the path below `key`. -/
structure Seeking (key : List UInt8) (whole : List (List UInt8 × Node)) (it : NodeIterator)
    (rest : List (List UInt8 × Node)) : Prop where
  visiting : Visiting it rest
  skipped : ∃ S, whole = S ++ rest ∧ ∀ x ∈ S, x.1 < key
  below : it.stack = [] ∨ it.path < key

theorem NodeIterator.Visiting.with_err {it : NodeIterator} {rest : List (List UInt8 × Node)}
    (h : Visiting it rest) : Visiting { it with err := none } rest :=
  ⟨rfl, h.index, h.walks⟩

/-- A seek that stops where the nodes left are no longer below `key` has dropped exactly the
nodes below `key` from the front of the walk. -/
theorem dropWhile_of_skipped {key : List UInt8} {whole S rest : List (List UInt8 × Node)}
    (hwhole : whole = S ++ rest) (hS : ∀ x ∈ S, x.1 < key)
    (hrest : ∀ x ∈ rest.head?, ¬ x.1 < key) :
    whole.dropWhile (fun x => x.1 < key) = rest := by
  rw [hwhole, List.dropWhile_append_of_pos (fun x hx => by simpa using hS x hx)]
  cases rest with
  | nil => rfl
  | cons y rest => exact List.dropWhile_cons_of_neg (by simpa using hrest y rfl)

theorem skipped_snoc {key : List UInt8} {whole S rest : List (List UInt8 × Node)}
    {x : List UInt8 × Node} (hwhole : whole = S ++ x :: rest) (hS : ∀ y ∈ S, y.1 < key)
    (hx : x.1 < key) : ∃ S', whole = S' ++ rest ∧ ∀ y ∈ S', y.1 < key := by
  refine ⟨S ++ [x], by simp [hwhole], fun y hy => ?_⟩
  rcases List.mem_append.mp hy with hy | hy
  · exact hS y hy
  · rw [List.mem_singleton.mp hy]
    exact hx

/-- Where `peek`'s loop starts in the seek: descending, at the stack as it is; otherwise with the
top entry popped, whose subtree is below `key`, as its path is below `key` and not a prefix of
it. -/
theorem Seeking.loop_start {key : List UInt8} {whole rest : List (List UInt8 × Node)}
    {it : NodeIterator} {s : IterState} {stack : List IterState} (h : Seeking key whole it rest)
    (hst : it.stack = s :: stack) (d : Bool) (hd : it.path.isPrefixOf key = d) :
    ∃ S R, whole = S ++ R ∧ (∀ x ∈ S, x.1 < key) ∧
      Walks it.trie (frontier (if d then s :: stack else stack)
        (if d then it.path else it.path.take s.pathlen)) R ∧
      (∀ s' ∈ (if d then s :: stack else stack), -1 ≤ s'.index) ∧ R.length ≤ rest.length := by
  obtain ⟨S, hwhole, hS⟩ := h.skipped
  have hw := h.visiting.walks
  simp only [toVisit, hst] at hw
  have hidx := hst ▸ h.visiting.index
  cases d with
  | true => exact ⟨S, rest, hwhole, hS, hw, hidx, le_refl _⟩
  | false =>
    simp only [Bool.false_eq_true, ↓reduceIte]
    rw [frontier] at hw
    obtain ⟨W, R, rfl, hW, hR⟩ := hw.of_append
    have hlt : it.path < key := h.below.resolve_left (by simp [hst])
    have hnot : ¬ it.path <+: key := fun h' => by
      rw [List.isPrefixOf_iff_prefix.mpr h'] at hd
      cases hd
    refine ⟨S ++ W, R, by simp [hwhole], fun x hx => ?_,
      hR, fun s' hs' => hidx s' (List.mem_cons_of_mem _ hs'), by simp⟩
    rcases List.mem_append.mp hx with hx | hx
    · exact hS x hx
    · -- the popped entry's subtree: every path in it extends the entry's path
      obtain ⟨y, hy, hyx⟩ := hW.prefix x hx
      obtain ⟨u, hu⟩ := (prefix_of_mem_kids hy).trans hyx
      rw [← hu]
      exact append_lt_of_not_prefix hlt hnot u

/-- The seek stops at the first node of the walk that is not below `key`, or at the end when
there is none, and leaves the iterator to visit the nodes from there. -/
theorem seekLoop_seeks {start key : List UInt8} {whole : List (List UInt8 × Node)} :
    ∀ {fuel : Nat} {it : NodeIterator} {rest : List (List UInt8 × Node)},
    Seeking key whole it rest → rest.length < fuel →
    ∃ it' e, seekLoop start key fuel it = some (it', e) ∧
      Visits { it' with err := e } (whole.dropWhile fun x => x.1 < key)
  | fuel + 1, it, rest, h, hfuel => by
    cases hst : it.stack with
    | nil =>
      -- no node pushed yet: the root comes first
      cases rest with
      | nil =>
        have hw := h.visiting.walks
        simp only [toVisit, hst] at hw
        cases hw.nil_of_eq_nil
      | cons x rest =>
        obtain ⟨hx, hpeek, hvis⟩ := h.visiting.peek_root hst (it.path.isPrefixOf key)
        obtain ⟨S, hwhole, hS⟩ := h.skipped
        by_cases hlt : x.1 < key
        · have hseek : Seeking key whole (push it ⟨x.2, -1, 0⟩ false []) rest :=
            ⟨hvis, skipped_snoc hwhole hS hlt, .inr (by simpa [push, hx] using hlt)⟩
          obtain ⟨it', e, hloop, hvisits⟩ := @seekLoop_seeks start key whole fuel _ rest hseek
            (by simp at hfuel; omega)
          refine ⟨it', e, ?_, hvisits⟩
          rw [seekLoop, hpeek]
          simp only [if_pos (hx ▸ hlt : ([] : List UInt8) < key)]
          exact hloop
        · refine ⟨it, none, ?_, .inl ?_⟩
          · rw [seekLoop, hpeek]
            simp only [if_neg (hx ▸ hlt : ¬ ([] : List UInt8) < key)]
          · rw [dropWhile_of_skipped hwhole hS (by simpa using hlt)]
            exact h.visiting.with_err
    | cons s stack =>
      obtain ⟨S, R, hwhole, hS, hw, hidx, hlen⟩ := h.loop_start hst _ rfl
      have hpeek := peek_of_cons hst (it.path.isPrefixOf key)
      generalize (if it.path.isPrefixOf key = true then s :: stack else stack) = stack₀ at hw hidx hpeek
      generalize (if it.path.isPrefixOf key = true then it.path else it.path.take s.pathlen) = path₀
        at hw hpeek
      cases R with
      | nil =>
        -- nothing left after the skipped nodes: the seek ends the iteration
        obtain ⟨path', hloop⟩ := peekLoop_end it.trie hw.nil_of_eq_nil
        refine ⟨{ it with stack := [], path := path' }, some .iteratorEnd, ?_,
          .inr ⟨rfl, dropWhile_of_skipped hwhole hS (by simp)⟩⟩
        rw [seekLoop, hpeek]
        simp only [hloop]
        rfl
      | cons x R =>
        obtain ⟨stack', path', hloop, hne, hidx', hstay, hpush⟩ := peekLoop_visit hidx hw
        have hpeek' : peek (it.path.isPrefixOf key) it =
            ({ it with stack := stack', path := path' }, .ok (⟨x.2, -1, path'.length⟩, true, x.1)) := by
          rw [hpeek, hloop]
          rfl
        by_cases hlt : x.1 < key
        · have hseek : Seeking key whole
              (push { it with stack := stack', path := path' } ⟨x.2, -1, path'.length⟩ true x.1) R := by
            refine ⟨⟨h.visiting.err, fun s' hs' => ?_, by simpa [toVisit, push] using hpush⟩,
              skipped_snoc hwhole hS hlt, .inr hlt⟩
            rcases List.mem_cons.mp hs' with rfl | hs'
            · simp
            · exact bumpTop_index hidx' s' (by simpa [push] using hs')
          obtain ⟨it', e, hloop', hvisits⟩ := @seekLoop_seeks start key whole fuel _ R hseek
            (by simp at hlen; omega)
          refine ⟨it', e, ?_, hvisits⟩
          rw [seekLoop, hpeek']
          simp only [if_pos hlt]
          exact hloop'
        · refine ⟨{ it with stack := stack', path := path' }, none, ?_, .inl ⟨rfl, hidx', ?_⟩⟩
          · rw [seekLoop, hpeek']
            simp only [if_neg hlt]
          · rw [dropWhile_of_skipped hwhole hS (by simpa using hlt)]
            obtain ⟨s', stack'', rfl⟩ := List.exists_cons_of_ne_nil hne
            exact hstay

/-! ### The iterator yields the trie's leaves from the start key on -/

/-- A fresh iterator seeking `key`: nothing pushed, the whole walk left. -/
theorem seeking_start {t : Trie} {L : List (List UInt8 × Node)} (hwalk : Walks t [(t.root, [])] L)
    (key : List UInt8) : Seeking key L ⟨t, [], [], none⟩ L :=
  ⟨⟨rfl, by simp, hwalk⟩, ⟨[], rfl, by simp⟩, .inl rfl⟩

/-- Over a walk in lexicographic order, dropping the nodes below `key` from the front drops every
node below `key`. -/
theorem dropWhile_lt_eq_filter {L : List (List UInt8 × Node)} (hsorted : L.Pairwise fun a b => a.1 ≤ b.1)
    (key : List UInt8) :
    L.dropWhile (fun x => x.1 < key) = L.filter fun x => ¬ x.1 < key := by
  rw [dropWhile_eq_filter _ hsorted]
  · apply List.filter_congr
    intro x _
    rw [decide_not]
  · intro a b ha hab
    simp only [decide_eq_false_iff_not, List.not_lt] at ha ⊢
    exact List.le_trans ha hab

/-- For every trie whose nodes all resolve and every start key, the iterator yields, in the order
of the trie's preorder walk, the key and value of every node of the walk at a terminated path that
is not below the start key's nibbles, and stops with no error; the walk meets value nodes in
strictly increasing lexicographic order of hex path. -/
theorem iterator_yields_from_start (t : Trie) (start : List UInt8) {L : List (List UInt8 × Node)}
    (hwalk : Walks t [(t.root, [])] L) {fuel : Nat} (hfuel : L.length + 2 ≤ fuel) :
    ((newNodeIterator fuel t start).bind fun it => (Iterator.new it).run fuel) =
      (leafPairs (L.filter fun x => ¬ x.1 < (keybytesToHex start).dropLast)).map (·, none) ∧
    (L.filter fun x => x.2.isValue).Pairwise fun a b => a.1 < b.1 := by
  have hF : [(t.root, ([] : List UInt8))].Pairwise fun a b => Diverges a.2 b.2 :=
    List.pairwise_singleton _ _
  refine ⟨?_, hwalk.values_sorted hF⟩
  obtain ⟨it', e, hseek, hvisits⟩ := @seekLoop_seeks start (keybytesToHex start).dropLast L fuel _ L
    (seeking_start hwalk _) (by omega)
  have hlen := List.length_dropWhile_le (fun x => decide (x.1 < (keybytesToHex start).dropLast)) L
  have hnew : newNodeIterator fuel t start = some { it' with err := e } := by
    simp [newNodeIterator, seek, hseek]
  rw [hnew, Option.bind_some, Iterator.new, Iterator.run_visits _ rfl hvisits (by omega),
    dropWhile_lt_eq_filter (hwalk.sorted hF)]

/-- The flag of a node that inserting builds. -/
def abFlag : NodeFlag := ⟨none, 0, true⟩

/-- The children of the full node that inserting `a` and then `ab` builds below the nibbles
`6 1`: `ab`'s short node at `6`, `a`'s value at the terminator. -/
def abChildren : Fin 17 → Node := fun i =>
  if i = 6 then .short [2, 16] (.value [2]) abFlag else if i = 16 then .value [1] else .empty

/-- The trie with the keys `a` and `ab`. -/
def abTrie : Trie := ⟨Database.new ∅, .short [6, 1] (.full abChildren abFlag) abFlag, 0, 0⟩

/-- The preorder walk of `abTrie`. -/
def abWalk : List (List UInt8 × Node) :=
  [([], abTrie.root), ([6, 1], .full abChildren abFlag),
    ([6, 1, 6], .short [2, 16] (.value [2]) abFlag), ([6, 1, 6, 2, 16], .value [2]),
    ([6, 1, 16], .value [1])]

theorem abTrie_walks : Walks abTrie [(abTrie.root, [])] abWalk := by
  -- the leaves: `ab` below the short node at `6`, `a` at the terminator
  have hab : Walks abTrie [(.value [2], [6, 1, 6, 2, 16])] [([6, 1, 6, 2, 16], .value [2])] :=
    .single rfl .nil
  have ha : Walks abTrie [(.value [1], [6, 1, 16])] [([6, 1, 16], .value [1])] := .single rfl .nil
  have hshort : Walks abTrie [(.short [2, 16] (.value [2]) abFlag, [6, 1, 6])]
      [([6, 1, 6], .short [2, 16] (.value [2]) abFlag), ([6, 1, 6, 2, 16], .value [2])] :=
    .single rfl hab
  have hfull : Walks abTrie [(.full abChildren abFlag, [6, 1])] (abWalk.drop 1) :=
    .single rfl (hshort.append ha)
  exact .single rfl hfull

theorem iterator_yields_from_start_ab :
    Walks abTrie [(abTrie.root, [])] abWalk ∧ abWalk.length + 2 ≤ 7 ∧
    (((newNodeIterator 7 abTrie [0x61, 0x62]).bind fun it => (Iterator.new it).run 7) =
      (leafPairs (abWalk.filter fun x => ¬ x.1 < (keybytesToHex [0x61, 0x62]).dropLast)).map
        (·, none) ∧
    (abWalk.filter fun x => x.2.isValue).Pairwise fun a b => a.1 < b.1) :=
  ⟨abTrie_walks, by decide, iterator_yields_from_start abTrie [0x61, 0x62] abTrie_walks (by decide)⟩

/-- Inserting the keys `a` and `ab` (the bytes `0x61` and `0x61 0x62`), the iterator yields `ab`
before `a`: the path `6 1 6 2 16` is below `6 1 16`. Seeking from `ab` yields `a` too: its path
`6 1 16` is not below the nibbles `6 1 6 2`. -/
theorem iterator_yields_ab_before_a :
    let built := ((⟨Database.new ∅, .empty, 0, 0⟩ : Trie).TryUpdate 10 [0x61] [1]).bind
      fun t => t.TryUpdate 10 [0x61, 0x62] [2]
    let yields := fun start => match built with
      | .ok t => (newNodeIterator 10 t start).bind fun it => (Iterator.new it).run 10
      | .error _ => none
    yields [] = some ([([0x61, 0x62], [2]), ([0x61], [1])], none) ∧
      yields [0x61, 0x62] = some ([([0x61, 0x62], [2]), ([0x61], [1])], none) := by
  decide

end EpvChain.Trie
