import EpvChain.Fast.Database

/-!
# The order of `Database.commit`'s writes (`fast/database.go`)

`Database.commit` puts a cached node into the batch only after committing its children, and
writes the batch whenever it reaches `IdealBatchSize`. The disk holds a prefix of the puts, so
their order keeps a crash from leaving a node on disk without its children.

* `commitLog` — the puts, in order; `none` when the bound runs out (a cycle of children, where
  the source recurses without end).
* `commitBatch` — `commit` with its batch, `batchPut` folded over the log
  (`commitBatch_eq_foldl`); the map `commit` builds is the log (`commit_eq_insertAll`).
* `ChildrenFirst`, `childrenFirst_commitLog` — every node of the log comes after its cached
  children; `Flushed`, `flushed_foldl` — the disk is a prefix of the puts.
* `commit_writes_children_first` — after any number of puts, what is written holds the children
  of every node written, when the uncached ones are on disk already.
-/

namespace EpvChain.Trie

open Lib

/-- `epvdb.IdealBatchSize`.
Source: `data/interface.go` -/
def IdealBatchSize : Nat := 100 * 1024

/-- A disk with puts written to it in order. -/
def insertAll (puts : List (Hash × List UInt8)) (disk : Finmap fun _ : Hash => List UInt8) :
    Finmap fun _ : Hash => List UInt8 :=
  puts.foldl (fun d p => d.insert p.1 p.2) disk

@[simp] theorem insertAll_nil (disk : Finmap fun _ : Hash => List UInt8) : insertAll [] disk = disk :=
  rfl

theorem insertAll_append (l₁ l₂ : List (Hash × List UInt8)) (disk : Finmap fun _ : Hash => List UInt8) :
    insertAll (l₁ ++ l₂) disk = insertAll l₂ (insertAll l₁ disk) := by
  rw [insertAll, List.foldl_append]
  rfl

theorem mem_insertAll {puts : List (Hash × List UInt8)} {disk : Finmap fun _ : Hash => List UInt8}
    {h : Hash} : h ∈ insertAll puts disk ↔ h ∈ disk ∨ h ∈ puts.map Prod.fst := by
  induction puts generalizing disk with
  | nil => simp
  | cons p puts ih =>
    rw [insertAll, List.foldl_cons, ← insertAll, ih, Finmap.mem_insert, List.map_cons,
      List.mem_cons]
    tauto

/-- A disk under a batch: the puts not written yet and their value size.
Source: `data/memory_database.go` `type memBatch struct` -/
structure BatchState where
  disk : Finmap fun _ : Hash => List UInt8
  writes : List (Hash × List UInt8)
  size : Nat

namespace BatchState

/-- `memBatch.Put`.
Source: `data/memory_database.go` `memBatch.Put` -/
def put (st : BatchState) (hash : Hash) (blob : List UInt8) : BatchState :=
  { st with writes := st.writes ++ [(hash, blob)], size := st.size + blob.length }

/-- `memBatch.Write`.
Source: `data/memory_database.go` `memBatch.Write` -/
def write (st : BatchState) : BatchState := { st with disk := insertAll st.writes st.disk }

/-- `memBatch.Reset`.
Source: `data/memory_database.go` `memBatch.Reset` -/
def reset (st : BatchState) : BatchState := { st with writes := [], size := 0 }

end BatchState

/-- One put of `commit`: the node into the batch, then the batch to disk once it holds
`IdealBatchSize` bytes.
Source: `fast/database.go` `Database.commit` -/
def batchPut (st : BatchState) (p : Hash × List UInt8) : BatchState :=
  let st := st.put p.1 p.2
  if st.size ≥ IdealBatchSize then st.write.reset else st

namespace Database

/-- `Database.commit` with its batch: the node's children first, then the node.
Source: `fast/database.go` `Database.commit` -/
def commitBatch : Nat → Database → Hash → BatchState → BatchState
  | 0, _, _, st => st
  | fuel + 1, db, hash, st =>
    match db.nodes.lookup hash with
    | none => st
    | some node =>
      let st := (sortedList node.children.keys).foldl (fun st child => commitBatch fuel db child st) st
      batchPut st (hash, node.blob)

/-- The puts of `Database.commit` in the order it issues them; `none` when the bound runs out on a
cached node. -/
def commitLog (fuel : Nat) (db : Database) (hash : Hash) : Option (List (Hash × List UInt8)) :=
  match db.nodes.lookup hash, fuel with
  | none, _ => some []
  | some _, 0 => none
  | some node, fuel + 1 =>
    ((sortedList node.children.keys).mapM (commitLog fuel db)).map
      fun logs => logs.flatten ++ [(hash, node.blob)]

/-- Every node of the log is put after each child of it that the cache holds, the hashes `done`
counting as put already. -/
def ChildrenFirst (db : Database) : List Hash → List (Hash × List UInt8) → Prop
  | _, [] => True
  | done, p :: rest =>
    (∀ node, db.nodes.lookup p.1 = some node → ∀ c ∈ node.children, c ∈ db.nodes → c ∈ done) ∧
      ChildrenFirst db (p.1 :: done) rest

/-- Every child of a cached node that the cache does not hold is on `disk`. -/
def ChildrenStored (db : Database) (disk : Finmap fun _ : Hash => List UInt8) : Prop :=
  ∀ h node, db.nodes.lookup h = some node → ∀ c ∈ node.children, c ∉ db.nodes → c ∈ disk

/-- `disk` holds every child of every cached node among `written`. -/
def ClosedOver (db : Database) (written : List (Hash × List UInt8))
    (disk : Finmap fun _ : Hash => List UInt8) : Prop :=
  ∀ p ∈ written, ∀ node, db.nodes.lookup p.1 = some node → ∀ c ∈ node.children, c ∈ disk

/-- Every child a cached node counts is cached itself. -/
def ChildrenCached (db : Database) : Prop :=
  ∀ h node, db.nodes.lookup h = some node → ∀ c ∈ node.children, c ∈ db.nodes

theorem commitLog_of_none {fuel : Nat} {db : Database} {hash : Hash}
    (hn : db.nodes.lookup hash = none) : db.commitLog fuel hash = some [] := by
  unfold commitLog
  rw [hn]

theorem commitLog_zero {db : Database} {hash : Hash} {node : CachedNode}
    (hn : db.nodes.lookup hash = some node) : db.commitLog 0 hash = none := by
  unfold commitLog
  rw [hn]

theorem commitLog_succ {fuel : Nat} {db : Database} {hash : Hash} {node : CachedNode}
    (hn : db.nodes.lookup hash = some node) :
    db.commitLog (fuel + 1) hash = ((sortedList node.children.keys).mapM (db.commitLog fuel)).map
      fun logs => logs.flatten ++ [(hash, node.blob)] := by
  conv_lhs => rw [commitLog.eq_def]
  rw [hn]

/-- What a log of `commit` is: empty for a node the cache does not hold, else the children's logs
and then the node's own put. -/
theorem commitLog_eq_some {fuel : Nat} {db : Database} {hash : Hash}
    {log : List (Hash × List UInt8)} (h : db.commitLog fuel hash = some log) :
    db.nodes.lookup hash = none ∧ log = [] ∨
      ∃ fuel' node logs, fuel = fuel' + 1 ∧ db.nodes.lookup hash = some node ∧
        (sortedList node.children.keys).mapM (db.commitLog fuel') = some logs ∧
        log = logs.flatten ++ [(hash, node.blob)] := by
  cases hn : db.nodes.lookup hash with
  | none =>
    rw [commitLog_of_none hn, Option.some.injEq] at h
    exact .inl ⟨rfl, h.symm⟩
  | some node =>
    cases fuel with
    | zero =>
      rw [commitLog_zero hn] at h
      cases h
    | succ fuel =>
      rw [commitLog_succ hn, Option.map_eq_some_iff] at h
      obtain ⟨logs, hlogs, rfl⟩ := h
      exact .inr ⟨fuel, node, logs, rfl, rfl, hlogs, rfl⟩

end Database

/-- A list the option monad maps to `rs` is related to it item by item. -/
theorem forall₂_of_mapM_eq_some {α β : Type} {f : α → Option β} :
    ∀ {l : List α} {rs : List β}, l.mapM f = some rs → List.Forall₂ (fun a r => f a = some r) l rs
  | [], rs, h => by
    cases h
    exact .nil
  | a :: l, rs, h => by
    rw [List.mapM_cons] at h
    cases ha : f a with
    | none => simp [ha] at h
    | some r =>
      cases hl : l.mapM f with
      | none => simp [ha, hl] at h
      | some rs' =>
        simp only [ha, hl, Option.bind_eq_bind, Option.bind_some, Option.pure_def,
          Option.some.injEq] at h
        subst h
        exact .cons ha (forall₂_of_mapM_eq_some hl)

/-- Each item of the left list is related to one of the right. -/
theorem forall₂_mem_left {α β : Type} {R : α → β → Prop} {l : List α} {rs : List β}
    (h : List.Forall₂ R l rs) {a : α} (ha : a ∈ l) : ∃ r ∈ rs, R a r := by
  induction h with
  | nil => cases ha
  | cons hab _ ih =>
    rcases List.mem_cons.mp ha with rfl | ha
    · exact ⟨_, List.mem_cons_self, hab⟩
    · obtain ⟨r, hr, har⟩ := ih ha
      exact ⟨r, List.mem_cons_of_mem _ hr, har⟩

/-- Each item of the right list is related to one of the left. -/
theorem forall₂_mem_right {α β : Type} {R : α → β → Prop} {l : List α} {rs : List β}
    (h : List.Forall₂ R l rs) {r : β} (hr : r ∈ rs) : ∃ a ∈ l, R a r := by
  induction h with
  | nil => cases hr
  | cons hab _ ih =>
    rcases List.mem_cons.mp hr with rfl | hr
    · exact ⟨_, List.mem_cons_self, hab⟩
    · obtain ⟨a, ha, har⟩ := ih hr
      exact ⟨a, List.mem_cons_of_mem _ ha, har⟩

/-- Walking the children one after the other does the steps of their logs one after the
other. -/
theorem foldl_walk_children {σ : Type} {step : σ → Hash × List UInt8 → σ} {run : Hash → σ → σ}
    {cs : List Hash} {logs : List (List (Hash × List UInt8))}
    (hall : List.Forall₂ (fun c r => ∀ st, run c st = r.foldl step st) cs logs) (st : σ) :
    cs.foldl (fun st c => run c st) st = logs.flatten.foldl step st := by
  induction hall generalizing st with
  | nil => rfl
  | cons hr _ ih => rw [List.foldl_cons, List.flatten_cons, List.foldl_append, hr, ih]

namespace Database

variable {db : Database}

/-! ### Children first -/

theorem ChildrenFirst.mono {done done' : List Hash} {log : List (Hash × List UInt8)}
    (h : ChildrenFirst db done log) (hsub : done ⊆ done') : ChildrenFirst db done' log := by
  induction log generalizing done done' with
  | nil => trivial
  | cons p rest ih =>
    obtain ⟨hp, hrest⟩ := h
    exact ⟨fun node hn c hc hcached => hsub (hp node hn c hc hcached),
      ih hrest (List.cons_subset_cons p.1 hsub)⟩

theorem ChildrenFirst.append {done : List Hash} {l₁ l₂ : List (Hash × List UInt8)}
    (h₁ : ChildrenFirst db done l₁) (h₂ : ChildrenFirst db (l₁.map Prod.fst ++ done) l₂) :
    ChildrenFirst db done (l₁ ++ l₂) := by
  induction l₁ generalizing done with
  | nil => simpa using h₂
  | cons p rest ih =>
    obtain ⟨hp, hrest⟩ := h₁
    refine ⟨hp, ih hrest (h₂.mono ?_)⟩
    intro c hc
    simp only [List.map_cons, List.cons_append, List.mem_cons, List.mem_append] at hc ⊢
    tauto

theorem ChildrenFirst.take {done : List Hash} {log : List (Hash × List UInt8)}
    (h : ChildrenFirst db done log) (k : Nat) : ChildrenFirst db done (log.take k) := by
  induction log generalizing done k with
  | nil => simpa using h
  | cons p rest ih =>
    cases k with
    | zero => trivial
    | succ k => exact ⟨h.1, ih h.2 k⟩

theorem childrenFirst_flatten {logs : List (List (Hash × List UInt8))}
    (h : ∀ r ∈ logs, ∀ done, ChildrenFirst db done r) (done : List Hash) :
    ChildrenFirst db done logs.flatten := by
  induction logs generalizing done with
  | nil => trivial
  | cons r logs ih =>
    rw [List.flatten_cons]
    exact (h r List.mem_cons_self done).append
      (ih (fun r' hr' => h r' (List.mem_cons_of_mem _ hr')) _)

/-- A cached node's log has its own put. -/
theorem mem_commitLog {fuel : Nat} {hash : Hash} {log : List (Hash × List UInt8)}
    (h : db.commitLog fuel hash = some log) (hc : hash ∈ db.nodes) : hash ∈ log.map Prod.fst := by
  obtain ⟨node, hn⟩ := Finmap.mem_iff.mp hc
  cases fuel with
  | zero =>
    rw [commitLog_zero hn] at h
    cases h
  | succ fuel =>
    rw [commitLog_succ hn, Option.map_eq_some_iff] at h
    obtain ⟨logs, -, rfl⟩ := h
    simp

/-- The log of a node, and of the subtree below it, puts every node after its cached children.
The induction is on the bound; the children's logs come first, each children first, and each
cached child's log ends with the child. -/
theorem childrenFirst_commitLog (fuel : Nat) {hash : Hash} {log : List (Hash × List UInt8)}
    (done : List Hash) (h : db.commitLog fuel hash = some log) : ChildrenFirst db done log := by
  induction fuel generalizing hash log done with
  | zero =>
    rcases commitLog_eq_some h with ⟨-, rfl⟩ | ⟨_, _, _, hzero, -⟩
    · trivial
    · cases hzero
  | succ fuel ih =>
    rcases commitLog_eq_some h with ⟨-, rfl⟩ | ⟨_, node, logs, hfuel, hn, hlogs, rfl⟩
    · trivial
    · obtain rfl := Nat.succ_inj.mp hfuel
      have hall := forall₂_of_mapM_eq_some hlogs
      have hflat : ChildrenFirst db done logs.flatten := childrenFirst_flatten (fun r hr done' => by
        obtain ⟨c, -, hc⟩ := forall₂_mem_right hall hr
        exact ih done' hc) done
      refine hflat.append ⟨fun node' hn' c hc hcached => ?_, trivial⟩
      obtain rfl : node = node' := Option.some.inj (hn.symm.trans hn')
      have hck : c ∈ sortedList node.children.keys := by
        rw [sortedList_eq_sort, Finset.mem_sort, Finmap.mem_keys]
        exact hc
      obtain ⟨r, hr, hcr⟩ := forall₂_mem_left hall hck
      have hmem := mem_commitLog hcr hcached
      simp only [List.mem_append, List.map_flatten, List.mem_flatten]
      exact .inl ⟨_, List.mem_map_of_mem hr, hmem⟩

/-! ### The walk and the batch -/

/-- A walk that does `step` at each cached node after walking its children, as `commit` does,
does the steps of `commitLog` in order. -/
theorem walk_eq_foldl {σ : Type} (step : σ → Hash × List UInt8 → σ) (run : Nat → Hash → σ → σ)
    (hzero : ∀ hash st, run 0 hash st = st)
    (hsucc : ∀ fuel hash st, run (fuel + 1) hash st =
      match db.nodes.lookup hash with
      | none => st
      | some node =>
        step ((sortedList node.children.keys).foldl (fun st child => run fuel child st) st)
          (hash, node.blob))
    (fuel : Nat) {hash : Hash} {log : List (Hash × List UInt8)} (st : σ)
    (h : db.commitLog fuel hash = some log) : run fuel hash st = log.foldl step st := by
  induction fuel generalizing hash log st with
  | zero =>
    rcases commitLog_eq_some h with ⟨-, rfl⟩ | ⟨_, _, _, hfuel, -⟩
    · exact hzero hash st
    · cases hfuel
  | succ fuel ih =>
    rw [hsucc]
    rcases commitLog_eq_some h with ⟨hn, rfl⟩ | ⟨_, node, logs, hfuel, hn, hlogs, rfl⟩
    · rw [hn]
      rfl
    · obtain rfl := Nat.succ_inj.mp hfuel
      have hall := (forall₂_of_mapM_eq_some hlogs).imp fun c r hcr st => ih st hcr
      rw [hn]
      dsimp only
      rw [foldl_walk_children hall, List.foldl_append]
      rfl

theorem commitBatch_eq_foldl (fuel : Nat) {hash : Hash} {log : List (Hash × List UInt8)}
    (st : BatchState) (h : db.commitLog fuel hash = some log) :
    db.commitBatch fuel hash st = log.foldl batchPut st :=
  walk_eq_foldl batchPut (fun fuel hash st => db.commitBatch fuel hash st) (fun _ _ => rfl)
    (fun _ _ _ => rfl) fuel st h

/-- The map the source model of `commit` builds is the log written into it. -/
theorem commit_eq_insertAll (fuel : Nat) {hash : Hash} {log : List (Hash × List UInt8)}
    (batch : Finmap fun _ : Hash => List UInt8) (h : db.commitLog fuel hash = some log) :
    commit fuel db hash batch = insertAll log batch :=
  walk_eq_foldl (fun (b : Finmap fun _ : Hash => List UInt8) (p : Hash × List UInt8) =>
    b.insert p.1 p.2) (fun fuel hash b => commit fuel db hash b) (fun _ _ => rfl)
    (fun _ _ _ => rfl) fuel batch h

end Database

/-! ### What is on disk -/

/-- The batch after the puts `processed`, from the disk `disk₀`: a prefix of them written, the
rest held. -/
def Flushed (disk₀ : Finmap fun _ : Hash => List UInt8) (processed : List (Hash × List UInt8))
    (st : BatchState) : Prop :=
  ∃ m ≤ processed.length, st.disk = insertAll (processed.take m) disk₀ ∧
    st.writes = processed.drop m

theorem flushed_empty (disk₀ : Finmap fun _ : Hash => List UInt8) :
    Flushed disk₀ [] ⟨disk₀, [], 0⟩ :=
  ⟨0, le_refl _, rfl, rfl⟩

/-- A put keeps the batch flushed: held, or written with everything before it. -/
theorem Flushed.batchPut {disk₀ : Finmap fun _ : Hash => List UInt8}
    {processed : List (Hash × List UInt8)} {st : BatchState} (h : Flushed disk₀ processed st)
    (p : Hash × List UInt8) : Flushed disk₀ (processed ++ [p]) (batchPut st p) := by
  obtain ⟨m, hm, hdisk, hwrites⟩ := h
  dsimp only [Trie.batchPut]
  split_ifs
  · refine ⟨processed.length + 1, by simp, ?_, by simp [BatchState.reset]⟩
    have hsplit : processed.take m ++ (processed.drop m ++ [p]) = processed ++ [p] := by
      rw [← List.append_assoc, List.take_append_drop]
    simp only [BatchState.reset, BatchState.write, BatchState.put, hdisk, hwrites, Prod.mk.eta]
    rw [← insertAll_append, hsplit, List.take_of_length_le (by simp)]
  · refine ⟨m, by simp; omega, ?_, ?_⟩
    · simp only [BatchState.put, hdisk, List.take_append_of_le_length hm]
    · simp only [BatchState.put, hwrites, List.drop_append_of_le_length hm]

theorem flushed_foldl {disk₀ : Finmap fun _ : Hash => List UInt8}
    {processed : List (Hash × List UInt8)} {st : BatchState} (h : Flushed disk₀ processed st)
    (l : List (Hash × List UInt8)) : Flushed disk₀ (processed ++ l) (l.foldl batchPut st) := by
  induction l generalizing processed st with
  | nil => simpa using h
  | cons p l ih =>
    rw [List.foldl_cons, ← List.singleton_append, ← List.append_assoc]
    exact ih (h.batchPut p)

namespace Database

variable {db : Database}

/-- Written children first onto a disk that has the children the cache does not hold, a log
leaves a disk with the children of every node it wrote. -/
theorem closedOver_insertAll {done : List Hash} {log : List (Hash × List UInt8)}
    {disk : Finmap fun _ : Hash => List UInt8} (hcf : ChildrenFirst db done log)
    (hdone : ∀ c ∈ done, c ∈ disk) (hstored : db.ChildrenStored disk) :
    db.ClosedOver log (insertAll log disk) := by
  induction log generalizing done disk with
  | nil => intro p hp; cases hp
  | cons p rest ih =>
    obtain ⟨hp, hrest⟩ := hcf
    have hstored' : db.ChildrenStored (disk.insert p.1 p.2) := fun h node hn c hc hnc =>
      Finmap.mem_insert.mpr (.inr (hstored h node hn c hc hnc))
    have hdone' : ∀ c ∈ p.1 :: done, c ∈ disk.insert p.1 p.2 := by
      intro c hc
      rw [Finmap.mem_insert]
      rcases List.mem_cons.mp hc with rfl | hc
      · exact .inl rfl
      · exact .inr (hdone c hc)
    intro q hq node hn c hc
    rw [insertAll, List.foldl_cons, ← insertAll]
    rcases List.mem_cons.mp hq with rfl | hq
    · -- the first put: a cached child was put before it, any other is on disk
      rw [mem_insertAll]
      left
      by_cases hcached : c ∈ db.nodes
      · exact hdone' c (List.mem_cons_of_mem _ (hp node hn c hc hcached))
      · exact hstored' q.1 node hn c hc hcached
    · exact ih hrest hdone' hstored' q hq node hn c hc

/-! A cache built by `insert` and `reference` counts only cached children, so it needs nothing
on disk. -/

theorem childrenCached_new (disk : Finmap fun _ : Hash => List UInt8) :
    (Database.new disk).ChildrenCached := by
  intro h node hn c hc
  rw [Database.new, finmap_lookup_singleton] at hn
  split_ifs at hn
  cases hn
  exact absurd hc (Finmap.notMem_empty)

theorem ChildrenCached.insert (hdb : db.ChildrenCached) (hash : Hash) (blob : List UInt8) :
    (db.insert hash blob).ChildrenCached := by
  unfold Database.insert
  split_ifs with hmem
  · exact hdb
  intro h node hn c hc
  rw [finmap_lookup_insert] at hn
  rw [Finmap.mem_insert]
  split_ifs at hn
  · -- the new node counts no child
    cases hn
    exact absurd hc Finmap.notMem_empty
  · exact .inr (hdb h node hn c hc)

/-- A reference counts a child only when it is cached, and caches no new hash. -/
theorem ChildrenCached.reference (hdb : db.ChildrenCached) {child parent : Hash} {db' : Database}
    (h : db.reference child parent = some db') : db'.ChildrenCached := by
  unfold Database.reference at h
  rcases hc : db.nodes.lookup child with _ | node
  · rw [hc] at h
    cases h
    exact hdb
  rcases hp : db.nodes.lookup parent with _ | p
  · rw [hc, hp] at h
    cases h
  rw [hc, hp] at h
  dsimp only at h
  by_cases hdup : child ∈ p.children ∧ parent ≠ Hash.zero
  · rw [if_pos hdup] at h
    cases h
    exact hdb
  rw [if_neg hdup] at h
  cases h
  have hcm : child ∈ db.nodes := Finmap.mem_of_lookup_eq_some hc
  have hpm : parent ∈ db.nodes := Finmap.mem_of_lookup_eq_some hp
  intro x n hx c hcx
  rw [Finmap.mem_insert, Finmap.mem_insert]
  right; right
  rw [finmap_lookup_insert, finmap_lookup_insert] at hx
  by_cases hxp : x = parent
  · -- the parent's entry counts what it counted, and the child
    rw [if_pos hxp] at hx
    cases hx
    dsimp only at hcx
    rcases Finmap.mem_insert.mp hcx with rfl | hcx
    · exact hcm
    by_cases hpc : parent = child
    · rw [if_pos hpc] at hcx
      exact hdb _ node hc c hcx
    · rw [if_neg hpc] at hcx
      exact hdb _ p hp c hcx
  · rw [if_neg hxp] at hx
    by_cases hxc : x = child
    · rw [if_pos hxc] at hx
      cases hx
      exact hdb _ node hc c hcx
    · rw [if_neg hxc] at hx
      exact hdb x n hx c hcx

theorem ChildrenCached.childrenStored (hdb : db.ChildrenCached)
    (disk : Finmap fun _ : Hash => List UInt8) : db.ChildrenStored disk :=
  fun h node hn c hc hnc => absurd (hdb h node hn c hc) hnc

end Database

open Database in
/-- `Database.commit` writes children before parents: every put comes after the puts of the
node's cached children, and after any number of puts through the batch, the disk is the start
with a prefix of them written, which holds the children of every node written. -/
theorem commit_writes_children_first {fuel : Nat} {db : Database} {root : Hash}
    {log : List (Hash × List UInt8)} (hlog : db.commitLog fuel root = some log)
    (disk : Finmap fun _ : Hash => List UInt8) (hdisk : db.ChildrenStored disk) :
    db.commitBatch fuel root ⟨disk, [], 0⟩ = log.foldl batchPut ⟨disk, [], 0⟩ ∧
      db.ChildrenFirst [] log ∧
      ∀ k, ∃ m ≤ k, ((log.take k).foldl batchPut ⟨disk, [], 0⟩).disk = insertAll (log.take m) disk ∧
        db.ClosedOver (log.take m) (insertAll (log.take m) disk) := by
  have hcf := childrenFirst_commitLog fuel [] hlog
  refine ⟨commitBatch_eq_foldl fuel _ hlog, hcf, fun k => ?_⟩
  obtain ⟨m, hm, hflushed, -⟩ := flushed_foldl (flushed_empty disk) (log.take k)
  rw [List.nil_append, List.take_take] at hflushed
  have hmk : m ≤ k := le_trans hm (List.length_take_le _ _)
  rw [Nat.min_eq_left hmk] at hflushed
  exact ⟨m, hmk, hflushed, closedOver_insertAll (hcf.take m) (fun _ hc => absurd hc List.not_mem_nil)
    hdisk⟩

open Database in
/-- A parent `1` that references a child `2`, both cached: the child is put first. -/
theorem commit_writes_children_first_pair :
    ∃ db, (((Database.new ∅).insert 2 [8]).insert 1 [7]).reference 2 1 = some db ∧
      db.commitLog 2 1 = some [(2, [8]), (1, [7])] ∧
      db.commitBatch 2 1 ⟨∅, [], 0⟩ = [(2, [8]), (1, [7])].foldl batchPut ⟨∅, [], 0⟩ ∧
      db.ChildrenFirst [] [(2, [8]), (1, [7])] ∧
      ∀ k, ∃ m ≤ k, (([(2, [8]), (1, [7])].take k).foldl batchPut ⟨∅, [], 0⟩).disk =
          insertAll ([(2, [8]), (1, [7])].take m) ∅ ∧
        db.ClosedOver ([(2, [8]), (1, [7])].take m) (insertAll ([(2, [8]), (1, [7])].take m) ∅) := by
  refine ⟨_, rfl, ?hlog, commit_writes_children_first ?hlog ∅ ?_⟩
  case hlog => decide
  have hcached := ((childrenCached_new ∅).insert 2 [8]).insert 1 [7]
  exact (@ChildrenCached.reference _ hcached 2 1 _ rfl).childrenStored ∅

/-- A cached node `1` that counts a child `2` the cache does not hold: `commit` puts the node
alone, and the disk it leaves without `2` is not closed under the node's children. -/
theorem commit_without_stored_child :
    let db : Database := ⟨Finmap.singleton 1 ⟨[7], 1, Finmap.singleton 2 1⟩, 0, ∅⟩
    db.commitLog 1 1 = some [(1, [7])] ∧ ¬ db.ClosedOver [(1, [7])] (insertAll [(1, [7])] ∅) := by
  refine ⟨by decide, fun h => ?_⟩
  have h2 := h (1, [7]) List.mem_cons_self _ (Finmap.lookup_singleton_eq) 2
    ((Finmap.mem_singleton 2 2 1).mpr rfl)
  rw [mem_insertAll] at h2
  simp [Finmap.notMem_empty] at h2

end EpvChain.Trie
