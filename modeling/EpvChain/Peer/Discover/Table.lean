import EpvChain.Peer.Netutil.Net
import EpvChain.Public.Types
import EpvChain.Lib.Sweep

/-!
# The discovery table's buckets and IP counters

`peer/discover/table.go`: nodes sit in `nBuckets` buckets by log distance to the local node; a
bucket holds at most `bucketSize` entries and `maxReplacements` replacements. The table counts
its non-LAN IPs per `/24` subnet (`tab.ips`, at most `tableIPLimit`), and so does each bucket
(`b.ips`, at most `bucketIPLimit`). `CountsExact` says each counter is the number of non-LAN
nodes of its subnet among the entries and replacements.

* `countsExact_newTable`: the counters of a new table are exact.
* `CountsExact.add_fresh`: `add` of a node whose ID the bucket does not hold keeps them exact.
* `add_bump_counts_drift`: `add` of a node whose ID is an entry does not: `bump` replaces the
  entry and leaves the counters alone, so a new IP leaves its old subnet counted once too often.

The proofs go through `CountsWith tab i extra`: the counters count the table's nodes and also
`extra`, nodes counted but not in bucket `i`'s lists (`addIP_true`, `removeIP`, `setBucket`).
The node database, the refresh and revalidation loops, `addedAt` and `nodeAddedHook` are not
modelled; `tab.rand.Intn(n)` in `replace` is a number the caller picks, modulo `n`.
-/

namespace EpvChain.Discover

open Netutil

/-- `NodeID`: the 64 bytes of a node's public key. -/
abbrev NodeID := List UInt8

/-- `Node`, with what the table reads of it: the IP, the ID, and `sha`, the hash of the ID that
`NewNode` stores. -/
structure Node where
  IP : IP
  ID : NodeID
  sha : Hash
  deriving DecidableEq

/-- `bucketSize`. -/
def bucketSize : Nat := 16

/-- `maxReplacements`. -/
def maxReplacements : Nat := 10

/-- `hashBits`: `len(common.Hash{}) * 8`. -/
def hashBits : Nat := HashLength * 8

/-- `nBuckets`. -/
def nBuckets : Nat := hashBits / 15

/-- `bucketMinDistance`: the distance up to which all nodes share the first bucket. -/
def bucketMinDistance : Nat := hashBits - nBuckets

/-- `bucketIPLimit`, `bucketSubnet`. -/
def bucketIPLimit : Nat := 2

def bucketSubnet : Nat := 24

/-- `tableIPLimit`, `tableSubnet`. -/
def tableIPLimit : Nat := 10

def tableSubnet : Nat := 24

/-! ### Distances and buckets -/

/-- `lzcount[x]`: the leading zero bits of a byte. -/
def lzcount (x : UInt8) : Nat := 8 - x.toNat.size

/-- The loop of `logdist`: leading zero bits of the xor of two byte strings, eight for each zero
byte up to the first one that is not. -/
def lzLoop : List (UInt8 × UInt8) → Nat
  | [] => 0
  | (a, b) :: rest => if a ^^^ b = 0 then 8 + lzLoop rest else lzcount (a ^^^ b)

/-- `logdist(a, b)`: the bit length of the xor of two hashes. -/
def logdist (a b : Hash) : Nat := a.toBytes.length * 8 - lzLoop (a.toBytes.zip b.toBytes)

example : logdist 0 1 = 1 ∧ logdist 0 (2 ^ 255) = 256 := by decide +kernel

theorem logdist_le (a b : Hash) : logdist a b ≤ hashBits := by
  simp only [logdist, Hash.length_toBytes, hashBits]
  omega

/-- `tab.bucket(sha)`: the bucket of a hash, by its log distance to the local node's. -/
def bucketIndex (self sha : Hash) : Fin nBuckets :=
  if h : logdist self sha ≤ bucketMinDistance then ⟨0, by decide⟩
  else ⟨logdist self sha - bucketMinDistance - 1, by
    have := logdist_le self sha
    simp only [bucketMinDistance, nBuckets, hashBits, HashLength] at h this ⊢
    omega⟩

/-- `bucket`. -/
structure Bucket where
  entries : List Node
  replacements : List Node
  ips : DistinctNetSet

/-- `Table`, with the state the bookkeeping calls read and write. -/
structure Table where
  self : Node
  buckets : Fin nBuckets → Bucket
  ips : DistinctNetSet

/-- The buckets and counters `newTable` builds, before it loads the seed nodes. -/
def newTable (self : Node) : Table where
  self := self
  buckets := fun _ => ⟨[], [], ⟨bucketSubnet, bucketIPLimit, fun _ => 0⟩⟩
  ips := ⟨tableSubnet, tableIPLimit, fun _ => 0⟩

/-! ### The node lists -/

/-- `pushNode(list, n, max)`: `n` in front, the list cut back to `max` by dropping its last
node, and that node. -/
def pushNode (list : List Node) (n : Node) (max : Nat) : List Node × Option Node :=
  if list.length < max then (n :: list, none) else (n :: list.dropLast, list.getLast?)

/-- `deleteNode(list, n)`: the list without its first node of `n`'s ID. -/
def deleteNode (list : List Node) (n : Node) : List Node := list.eraseP (·.ID == n.ID)

/-- `b.bump(n)`: the first entry of `n`'s ID taken out and `n` put in front; `none` when no
entry has that ID. -/
def Bucket.bump (b : Bucket) (n : Node) : Option Bucket :=
  if b.entries.any (·.ID == n.ID) then
    some { b with entries := n :: b.entries.eraseP (·.ID == n.ID) }
  else none

/-- `pushNode` loses no node: the new list and the node dropped are the old list and `n`. -/
theorem pushNode_perm (list : List Node) (n : Node) {max : Nat} (hmax : 0 < max) :
    ((pushNode list n max).1 ++ (pushNode list n max).2.toList).Perm (list ++ [n]) := by
  unfold pushNode
  by_cases hlt : list.length < max
  · simp only [hlt, ite_true, Option.toList_none, List.append_nil]
    exact (List.perm_append_singleton n list).symm
  · -- a full list is not empty: its last node is the one dropped
    have hne : list ≠ [] := by
      rintro rfl
      simp at hlt
      omega
    simp only [hlt, ite_false, List.getLast?_eq_some_getLast hne, Option.toList_some]
    conv_rhs => rw [← List.dropLast_append_getLast hne]
    rw [List.cons_append]
    exact (List.perm_append_singleton n _).symm

theorem pushNode_of_lt {list : List Node} {n : Node} {max : Nat} (h : list.length < max) :
    pushNode list n max = (n :: list, none) := by
  simp [pushNode, h]

theorem deleteNode_of_any_eq_false {list : List Node} {n : Node}
    (h : list.any (·.ID == n.ID) = false) : deleteNode list n = list :=
  List.eraseP_of_forall_not fun a ha => by simpa using List.any_eq_false.mp h a ha

theorem Bucket.bump_eq_none {b : Bucket} {n : Node} (h : b.entries.any (·.ID == n.ID) = false) :
    b.bump n = none := by
  simp [Bucket.bump, h]

theorem Bucket.bump_eq_some {b : Bucket} {n old : Node}
    (h : b.entries.find? (·.ID == n.ID) = some old) :
    b.bump n = some { b with entries := n :: b.entries.eraseP (·.ID == n.ID) } := by
  have hold := List.find?_some h
  have hany : b.entries.any (·.ID == n.ID) = true :=
    List.any_eq_true.mpr ⟨old, List.mem_of_find?_eq_some h, hold⟩
  simp [Bucket.bump, hany]

namespace Table

/-- `tab.bucket(sha)`. -/
def bucket (tab : Table) (sha : Hash) : Fin nBuckets := bucketIndex tab.self.sha sha

/-- Bucket `i` replaced by `b`: the writes through the bucket pointer. -/
def setBucket (tab : Table) (i : Fin nBuckets) (b : Bucket) : Table :=
  { tab with buckets := Function.update tab.buckets i b }

/-- `tab.addIP(b, ip)`: count a non-LAN IP against the table's limit and the bucket's, and refuse
it, with nothing counted, when either is full. -/
def addIP (tab : Table) (i : Fin nBuckets) (ip : IP) : Bool × Table :=
  if IsLAN ip then (true, tab)
  else if !(tab.ips.Add ip).1 then (false, tab)
  else if !((tab.buckets i).ips.Add ip).1 then
    (false, { tab with ips := (tab.ips.Add ip).2.Remove ip })
  else
    (true, { tab with ips := (tab.ips.Add ip).2 }.setBucket i
      { tab.buckets i with ips := ((tab.buckets i).ips.Add ip).2 })

/-- `tab.removeIP(b, ip)`: uncount a non-LAN IP from the table and the bucket. -/
def removeIP (tab : Table) (i : Fin nBuckets) (ip : IP) : Table :=
  if IsLAN ip then tab
  else { tab with ips := tab.ips.Remove ip }.setBucket i
    { tab.buckets i with ips := (tab.buckets i).ips.Remove ip }

/-- `tab.addReplacement(b, n)`: a node not yet among the replacements goes in front of them when
its IP fits, and the replacement that falls off the end is uncounted. -/
def addReplacement (tab : Table) (i : Fin nBuckets) (n : Node) : Table :=
  if (tab.buckets i).replacements.any (·.ID == n.ID) then tab
  else if !(tab.addIP i n.IP).1 then (tab.addIP i n.IP).2
  else
    let tab := (tab.addIP i n.IP).2
    let b := tab.buckets i
    let pushed := pushNode b.replacements n maxReplacements
    let tab := tab.setBucket i { b with replacements := pushed.1 }
    match pushed.2 with
    | some removed => tab.removeIP i removed.IP
    | none => tab

/-- `tab.deleteInBucket(b, n)`: take the first entry of `n`'s ID out and uncount `n`'s IP. -/
def deleteInBucket (tab : Table) (i : Fin nBuckets) (n : Node) : Table :=
  let b := tab.buckets i
  (tab.setBucket i { b with entries := deleteNode b.entries n }).removeIP i n.IP

/-- `tab.replace(b, last)`: when `last` is still the last entry, put a replacement in its place
(the one at `rnd` modulo their number) and uncount `last`, or, with no replacement, delete it. -/
def replace (tab : Table) (i : Fin nBuckets) (last : Node) (rnd : Nat) : Option Node × Table :=
  let b := tab.buckets i
  match b.entries.getLast? with
  | none => (none, tab)
  | some e =>
    if e.ID ≠ last.ID then (none, tab)
    else
      match b.replacements with
      | [] => (none, tab.deleteInBucket i last)
      | r0 :: rs =>
        let r := (r0 :: rs).getD (rnd % (rs.length + 1)) r0
        let tab := tab.setBucket i
          { b with replacements := deleteNode b.replacements r, entries := b.entries.dropLast ++ [r] }
        (some r, tab.removeIP i last.IP)

/-- `tab.bumpOrAdd(b, n)`: bump `n` if its ID is an entry; otherwise, when the bucket has room
and `n`'s IP fits, put it in front of the entries and take its ID out of the replacements. -/
def bumpOrAdd (tab : Table) (i : Fin nBuckets) (n : Node) : Bool × Table :=
  match (tab.buckets i).bump n with
  | some b => (true, tab.setBucket i b)
  | none =>
    if bucketSize ≤ (tab.buckets i).entries.length then (false, tab)
    else if !(tab.addIP i n.IP).1 then (false, (tab.addIP i n.IP).2)
    else
      let tab := (tab.addIP i n.IP).2
      let b := tab.buckets i
      (true, tab.setBucket i { b with
        entries := (pushNode b.entries n bucketSize).1
        replacements := deleteNode b.replacements n })

/-- `tab.add(new)`: bump or add the node in its bucket, or else make it a replacement. -/
def add (tab : Table) (new : Node) : Table :=
  let i := tab.bucket new.sha
  if (tab.bumpOrAdd i new).1 then (tab.bumpOrAdd i new).2
  else (tab.bumpOrAdd i new).2.addReplacement i new

/-- `tab.stuff(nodes)`: bump or add each node other than the local one whose bucket has room. -/
def stuff (tab : Table) (nodes : List Node) : Table :=
  nodes.foldl (fun tab n =>
    if n.ID = tab.self.ID then tab
    else if (tab.buckets (tab.bucket n.sha)).entries.length < bucketSize then
      (tab.bumpOrAdd (tab.bucket n.sha) n).2
    else tab) tab

/-- `tab.delete(node)`. -/
def delete (tab : Table) (node : Node) : Table := tab.deleteInBucket (tab.bucket node.sha) node

/-! ### What the calls change -/

@[simp] theorem setBucket_buckets_self (tab : Table) (i : Fin nBuckets) (b : Bucket) :
    (tab.setBucket i b).buckets i = b := by
  simp [setBucket]

theorem setBucket_buckets_of_ne (tab : Table) {i j : Fin nBuckets} (b : Bucket) (h : j ≠ i) :
    (tab.setBucket i b).buckets j = tab.buckets j := by
  simp [setBucket, Function.update_of_ne h]

@[simp] theorem setBucket_ips (tab : Table) (i : Fin nBuckets) (b : Bucket) :
    (tab.setBucket i b).ips = tab.ips := rfl

@[simp] theorem setBucket_self (tab : Table) (i : Fin nBuckets) (b : Bucket) :
    (tab.setBucket i b).self = tab.self := rfl

/-- A refused `addIP` leaves the table as it was: the one count it made is taken back. -/
theorem addIP_eq_of_false {tab : Table} {i : Fin nBuckets} {ip : IP}
    (h : (tab.addIP i ip).1 = false) : (tab.addIP i ip).2 = tab := by
  unfold addIP at h ⊢
  by_cases hlan : IsLAN ip
  · simp [hlan] at h
  by_cases ht : (tab.ips.Add ip).1
  · by_cases hb : ((tab.buckets i).ips.Add ip).1
    · simp [hlan, ht, hb] at h
    · have hlt : tab.ips.members (tab.ips.key ip) < tab.ips.Limit := by
        by_contra hge
        rw [DistinctNetSet.add_eq, if_neg hge] at ht
        cases ht
      have hm := DistinctNetSet.remove_add_members tab.ips ip hlt
      simp only [hlan, ht, hb, Bool.not_true, Bool.not_false, ite_true, ite_false,
        Bool.false_eq_true]
      -- the counts are back, and the subnet and the limit were never changed
      rcases tab with ⟨self, buckets, ⟨subnet, limit, members⟩⟩
      simp only [DistinctNetSet.Remove, DistinctNetSet.add_eq] at hm ⊢
      split <;> simp_all
  · simp [hlan, ht]

/-- `addIP` keeps the lists of every bucket and the local node. -/
theorem lists_addIP (tab : Table) (i j : Fin nBuckets) (ip : IP) :
    ((tab.addIP i ip).2.buckets j).entries = (tab.buckets j).entries ∧
      ((tab.addIP i ip).2.buckets j).replacements = (tab.buckets j).replacements ∧
      (tab.addIP i ip).2.self = tab.self := by
  unfold addIP
  split
  · exact ⟨rfl, rfl, rfl⟩
  split
  · exact ⟨rfl, rfl, rfl⟩
  split
  · exact ⟨rfl, rfl, rfl⟩
  by_cases hj : j = i
  · subst hj
    simp
  · simp [setBucket_buckets_of_ne _ _ hj]

end Table

/-! ### Counting the nodes of a subnet -/

/-- A node counts in the subnet `k` of `s` when its IP is off the LANs and in `k`. -/
def inSubnet (s : DistinctNetSet) (k : List UInt8) (n : Node) : Bool :=
  !IsLAN n.IP && s.key n.IP == k

@[simp] theorem inSubnet_add (s : DistinctNetSet) (ip : IP) : inSubnet (s.Add ip).2 = inSubnet s := by
  funext k n
  simp [inSubnet]

@[simp] theorem inSubnet_remove (s : DistinctNetSet) (ip : IP) :
    inSubnet (s.Remove ip) = inSubnet s := rfl

/-- The nodes of a bucket, entries then replacements. -/
def Bucket.nodes (b : Bucket) : List Node := b.entries ++ b.replacements

/-- All nodes of the table, bucket after bucket. -/
def Table.nodes (tab : Table) : List Node :=
  (List.finRange nBuckets).flatMap fun j => (tab.buckets j).nodes

/-- The table's counters are exact: each counts the non-LAN nodes of its subnet, over the whole
table for `tab.ips` and over its own bucket for `b.ips`. -/
structure CountsExact (tab : Table) : Prop where
  table : ∀ k, tab.ips.members k = tab.nodes.countP (inSubnet tab.ips k)
  bucket : ∀ j k, (tab.buckets j).ips.members k =
    (tab.buckets j).nodes.countP (inSubnet (tab.buckets j).ips k)

/-- The table's counters count its nodes and `extra` as well, as if `extra` were in bucket `i`. -/
structure CountsWith (tab : Table) (i : Fin nBuckets) (extra : List Node) : Prop where
  table : ∀ k, tab.ips.members k =
    tab.nodes.countP (inSubnet tab.ips k) + extra.countP (inSubnet tab.ips k)
  bucket : ∀ j k, (tab.buckets j).ips.members k =
    (tab.buckets j).nodes.countP (inSubnet (tab.buckets j).ips k) +
      if j = i then extra.countP (inSubnet (tab.buckets j).ips k) else 0

theorem CountsExact.countsWith {tab : Table} (h : CountsExact tab) (i : Fin nBuckets) :
    CountsWith tab i [] :=
  ⟨fun k => by simp [h.table k], fun j k => by simp [h.bucket j k]⟩

theorem CountsWith.countsExact {tab : Table} {i : Fin nBuckets} (h : CountsWith tab i []) :
    CountsExact tab :=
  ⟨fun k => by simpa using h.table k, fun j k => by simpa using h.bucket j k⟩

/-- A LAN node is never counted; another is counted in its own subnet. -/
theorem countP_singleton_inSubnet (s : DistinctNetSet) (k : List UInt8) (n : Node) :
    [n].countP (inSubnet s k) = if IsLAN n.IP = false ∧ k = s.key n.IP then 1 else 0 := by
  by_cases hlan : IsLAN n.IP
  · simp [inSubnet, hlan]
  · by_cases hk : k = s.key n.IP
    · simp [inSubnet, hlan, hk]
    · simp only [List.countP_singleton, inSubnet, hlan, Bool.not_false, Bool.true_and,
        beq_iff_eq]
      simp [Ne.symm hk, hk]

namespace Table

theorem countP_nodes (tab : Table) (p : Node → Bool) :
    tab.nodes.countP p = ∑ j, (tab.buckets j).nodes.countP p := by
  rw [Table.nodes, List.countP_flatMap, Fin.sum_univ_def]
  rfl

/-- Replacing bucket `i` trades its nodes for the new bucket's, in every count. -/
theorem countP_nodes_setBucket (tab : Table) (i : Fin nBuckets) (b : Bucket) (p : Node → Bool) :
    (tab.setBucket i b).nodes.countP p + (tab.buckets i).nodes.countP p =
      tab.nodes.countP p + b.nodes.countP p := by
  rw [countP_nodes, countP_nodes, ← Finset.add_sum_erase _ _ (Finset.mem_univ i),
    ← Finset.add_sum_erase _ _ (Finset.mem_univ i), setBucket_buckets_self]
  have hrest : ∑ j ∈ Finset.univ.erase i, ((tab.setBucket i b).buckets j).nodes.countP p =
      ∑ j ∈ Finset.univ.erase i, (tab.buckets j).nodes.countP p :=
    Finset.sum_congr rfl fun j hj => by rw [setBucket_buckets_of_ne _ _ (Finset.ne_of_mem_erase hj)]
  rw [hrest]
  omega

end Table

theorem countsExact_newTable (self : Node) : CountsExact (newTable self) :=
  ⟨fun k => by rw [Table.countP_nodes]; simp [newTable, Bucket.nodes],
    fun j k => by simp [newTable, Bucket.nodes]⟩

section CountsWith

variable {tab : Table} {i : Fin nBuckets}

/-- Bucket `i` replaced by one with the same counters whose nodes, with `extra'`, are the old
bucket's with `extra`: the counted nodes have only moved between the lists and `extra`. -/
theorem CountsWith.setBucket {extra extra' : List Node} {b : Bucket} (h : CountsWith tab i extra)
    (hips : b.ips = (tab.buckets i).ips)
    (hperm : (b.nodes ++ extra').Perm ((tab.buckets i).nodes ++ extra)) :
    CountsWith (tab.setBucket i b) i extra' := by
  have hc := fun p => hperm.countP_eq p
  simp only [List.countP_append] at hc
  constructor
  · intro k
    have hset := Table.countP_nodes_setBucket tab i b (inSubnet tab.ips k)
    have hk := hc (inSubnet tab.ips k)
    rw [Table.setBucket_ips, h.table k]
    omega
  · intro j k
    by_cases hj : j = i
    · subst hj
      have hk := hc (inSubnet (tab.buckets j).ips k)
      rw [Table.setBucket_buckets_self, hips, h.bucket j k, if_pos rfl, if_pos rfl]
      omega
    · rw [Table.setBucket_buckets_of_ne _ _ hj, h.bucket j k, if_neg hj, if_neg hj]

/-- The counters of bucket `i` and of the table each count the same IPs, plus `n`. -/
theorem CountsWith.addIP_true {n : Node} (h : CountsWith tab i [])
    (hok : (tab.addIP i n.IP).1 = true) : CountsWith (tab.addIP i n.IP).2 i [n] := by
  by_cases hlan : IsLAN n.IP
  · -- a LAN IP is let through uncounted, and a LAN node counts nowhere
    have htab : (tab.addIP i n.IP).2 = tab := by simp [Table.addIP, hlan]
    rw [htab]
    constructor
    · intro k
      rw [h.table k, countP_singleton_inSubnet]
      simp [hlan]
    · intro j k
      rw [h.bucket j k, countP_singleton_inSubnet]
      simp [hlan]
  have ht : (tab.ips.Add n.IP).1 = true := by
    by_contra hf
    rw [Bool.not_eq_true] at hf
    simp [Table.addIP, hlan, hf] at hok
  have hb : ((tab.buckets i).ips.Add n.IP).1 = true := by
    by_contra hf
    rw [Bool.not_eq_true] at hf
    simp [Table.addIP, hlan, ht, hf] at hok
  have htab : (tab.addIP i n.IP).2 = { tab with ips := (tab.ips.Add n.IP).2 }.setBucket i
      { tab.buckets i with ips := ((tab.buckets i).ips.Add n.IP).2 } := by
    simp [Table.addIP, hlan, ht, hb]
  -- the lists are those of `tab`; only the two counters of `n`'s subnet have grown
  have hnodes : ({ tab with ips := (tab.ips.Add n.IP).2 }.setBucket i
      { tab.buckets i with ips := ((tab.buckets i).ips.Add n.IP).2 }).nodes = tab.nodes := by
    unfold Table.nodes
    refine List.flatMap_congr fun j _ => ?_
    by_cases hj : j = i
    · subst hj
      simp [Bucket.nodes]
    · rw [Table.setBucket_buckets_of_ne _ _ hj]
  rw [htab]
  constructor
  · intro k
    rw [hnodes, Table.setBucket_ips, DistinctNetSet.add_members_of_fst ht, h.table k,
      countP_singleton_inSubnet]
    simp [hlan]
  · intro j k
    by_cases hj : j = i
    · subst hj
      rw [Table.setBucket_buckets_self, DistinctNetSet.add_members_of_fst hb, h.bucket j k,
        countP_singleton_inSubnet]
      simp [hlan, Bucket.nodes]
    · rw [Table.setBucket_buckets_of_ne _ _ hj, h.bucket j k]
      simp [hj]

/-- Uncounting the IP of a node already taken out of bucket `i` makes the counters exact. -/
theorem CountsWith.removeIP {r : Node} (h : CountsWith tab i [r]) :
    CountsWith (tab.removeIP i r.IP) i [] := by
  by_cases hlan : IsLAN r.IP
  · have htab : tab.removeIP i r.IP = tab := by simp [Table.removeIP, hlan]
    rw [htab]
    constructor
    · intro k
      rw [h.table k, countP_singleton_inSubnet]
      simp [hlan]
    · intro j k
      rw [h.bucket j k, countP_singleton_inSubnet]
      simp [hlan]
  have hnodes : ({ tab with ips := tab.ips.Remove r.IP }.setBucket i
      { tab.buckets i with ips := (tab.buckets i).ips.Remove r.IP }).nodes = tab.nodes := by
    unfold Table.nodes
    refine List.flatMap_congr fun j _ => ?_
    by_cases hj : j = i
    · subst hj
      simp [Bucket.nodes]
    · rw [Table.setBucket_buckets_of_ne _ _ hj]
  have htab : tab.removeIP i r.IP = { tab with ips := tab.ips.Remove r.IP }.setBucket i
      { tab.buckets i with ips := (tab.buckets i).ips.Remove r.IP } := by
    simp [Table.removeIP, hlan]
  rw [htab]
  constructor
  · intro k
    have hk := h.table k
    rw [countP_singleton_inSubnet] at hk
    rw [hnodes, Table.setBucket_ips, DistinctNetSet.remove_members]
    by_cases hkr : k = tab.ips.key r.IP
    · simp [hkr, hlan] at hk ⊢
      omega
    · simp [hkr] at hk ⊢
      exact hk
  · intro j k
    by_cases hj : j = i
    · subst hj
      have hk := h.bucket j k
      rw [countP_singleton_inSubnet, if_pos rfl] at hk
      rw [Table.setBucket_buckets_self, DistinctNetSet.remove_members]
      by_cases hkr : k = (tab.buckets j).ips.key r.IP
      · simp [hkr, hlan, Bucket.nodes] at hk ⊢
        omega
      · simp [hkr, Bucket.nodes] at hk ⊢
        exact hk
    · rw [Table.setBucket_buckets_of_ne _ _ hj, h.bucket j k]
      simp [hj]

/-- A node whose ID is not among the replacements: whether or not its IP fits, the counters
stay exact, the replacement that falls off the end being uncounted. -/
theorem CountsWith.addReplacement {n : Node} (h : CountsWith tab i [])
    (hr : (tab.buckets i).replacements.any (·.ID == n.ID) = false) :
    CountsWith (tab.addReplacement i n) i [] := by
  by_cases hok : (tab.addIP i n.IP).1
  · have h1 := h.addIP_true hok
    set tab1 := (tab.addIP i n.IP).2 with htab1
    set pushed := pushNode (tab1.buckets i).replacements n maxReplacements with hpushed
    have h2 : CountsWith (tab1.setBucket i { tab1.buckets i with replacements := pushed.1 }) i
        pushed.2.toList := by
      refine h1.setBucket rfl ?_
      simp only [Bucket.nodes, List.append_assoc]
      exact (pushNode_perm _ n (by decide)).append_left _
    have hadd : tab.addReplacement i n = match pushed.2 with
        | some removed =>
          (tab1.setBucket i { tab1.buckets i with replacements := pushed.1 }).removeIP i removed.IP
        | none => tab1.setBucket i { tab1.buckets i with replacements := pushed.1 } := by
      simp only [Table.addReplacement, hr, hok, Bool.not_true, Bool.false_eq_true, ite_false]
      rfl
    rw [hadd]
    cases hrem : pushed.2 with
    | none =>
      rw [hrem] at h2
      exact h2
    | some r =>
      rw [hrem] at h2
      exact h2.removeIP
  · rw [Bool.not_eq_true] at hok
    have hadd : tab.addReplacement i n = tab := by
      simp [Table.addReplacement, hr, hok, Table.addIP_eq_of_false hok]
    rw [hadd]
    exact h

end CountsWith

/-- `add` of a node whose ID its bucket does not hold keeps the counters exact: it becomes an
entry, a replacement, or nothing, and its IP is counted exactly when it is kept. -/
theorem CountsExact.add_fresh {tab : Table} {n : Node} (h : CountsExact tab)
    (he : (tab.buckets (tab.bucket n.sha)).entries.any (·.ID == n.ID) = false)
    (hr : (tab.buckets (tab.bucket n.sha)).replacements.any (·.ID == n.ID) = false) :
    CountsExact (tab.add n) := by
  set i := tab.bucket n.sha with hi
  have hw := h.countsWith i
  have hbump := Bucket.bump_eq_none he
  by_cases hfull : bucketSize ≤ (tab.buckets i).entries.length
  · -- a full bucket: `n` can only be a replacement
    have hb : tab.bumpOrAdd i n = (false, tab) := by simp [Table.bumpOrAdd, hbump, hfull]
    simp only [Table.add, ← hi, hb, Bool.false_eq_true, ite_false]
    exact (hw.addReplacement hr).countsExact
  by_cases hok : (tab.addIP i n.IP).1
  · -- room and a fitting IP: `n` becomes an entry and leaves the replacements as they were
    set tab1 := (tab.addIP i n.IP).2 with htab1
    obtain ⟨hent, hrep, -⟩ := Table.lists_addIP tab i i n.IP
    have hb : tab.bumpOrAdd i n = (true, tab1.setBucket i { tab1.buckets i with
        entries := (pushNode (tab1.buckets i).entries n bucketSize).1
        replacements := deleteNode (tab1.buckets i).replacements n }) := by
      simp [Table.bumpOrAdd, hbump, hfull, hok, htab1]
    simp only [Table.add, ← hi, hb, ite_true]
    have hlen : (tab1.buckets i).entries.length < bucketSize := by
      rw [hent]
      omega
    refine ((hw.addIP_true hok).setBucket (b := { tab1.buckets i with
      entries := (pushNode (tab1.buckets i).entries n bucketSize).1
      replacements := deleteNode (tab1.buckets i).replacements n }) rfl ?_).countsExact
    rw [pushNode_of_lt hlen, deleteNode_of_any_eq_false (by rw [hrep]; exact hr)]
    simp only [Bucket.nodes, List.append_nil, List.cons_append]
    exact (List.perm_append_singleton n _).symm
  · -- an IP that does not fit: `add` tries it as a replacement, where it does not fit either
    rw [Bool.not_eq_true] at hok
    have hb : tab.bumpOrAdd i n = (false, tab) := by
      simp [Table.bumpOrAdd, hbump, hfull, hok, Table.addIP_eq_of_false hok]
    simp only [Table.add, ← hi, hb, Bool.false_eq_true, ite_false]
    exact (hw.addReplacement hr).countsExact

/-- `add` of a node whose ID is an entry already, with an IP outside the subnet of the entry's
(a node that comes back from another network): `bump` swaps the node in and the counters keep
counting the old IP, so the old subnet is counted once more than it holds nodes. -/
theorem add_bump_counts_drift {tab : Table} {old new : Node} (hc : CountsExact tab)
    (hold : (tab.buckets (tab.bucket new.sha)).entries.find? (·.ID == new.ID) = some old)
    (hlan : IsLAN old.IP = false) (hkey : tab.ips.key new.IP ≠ tab.ips.key old.IP) :
    (tab.add new).ips.members (tab.ips.key old.IP) =
        (tab.add new).nodes.countP (inSubnet tab.ips (tab.ips.key old.IP)) + 1 ∧
      ¬ CountsExact (tab.add new) := by
  set i := tab.bucket new.sha with hi
  set b := tab.buckets i with hb
  set b' : Bucket := { b with entries := new :: b.entries.eraseP (·.ID == new.ID) } with hb'
  have hadd : tab.add new = tab.setBucket i b' := by
    simp [Table.add, Table.bumpOrAdd, ← hi, ← hb, Bucket.bump_eq_some hold, hb']
  set p := inSubnet tab.ips (tab.ips.key old.IP) with hp
  have hpold : p old = true := by simp [hp, inSubnet, hlan]
  have hpnew : p new = false := by simp [hp, inSubnet, hkey]
  -- the bucket has lost `old`, which is counted, and gained `new`, which is not
  have hbucket : b.nodes.countP p = b'.nodes.countP p + 1 := by
    have hperm := Lib.perm_cons_eraseP_of_find? hold
    simp only [Bucket.nodes, List.countP_append, hperm.countP_eq p, List.countP_cons, hpold,
      hpnew, hb', ite_true]
    simp
    omega
  have hset := Table.countP_nodes_setBucket tab i b' p
  have hm : tab.ips.members (tab.ips.key old.IP) = tab.nodes.countP p := hc.table _
  have hdrift : (tab.add new).ips.members (tab.ips.key old.IP) = (tab.add new).nodes.countP p + 1 := by
    rw [← hb] at hset
    rw [hadd, Table.setBucket_ips, hm]
    omega
  refine ⟨hdrift, fun hc' => ?_⟩
  have hexact : (tab.add new).ips.members (tab.ips.key old.IP) =
      (tab.add new).nodes.countP (inSubnet (tab.add new).ips (tab.ips.key old.IP)) :=
    hc'.table _
  have hips : (tab.add new).ips = tab.ips := by rw [hadd, Table.setBucket_ips]
  rw [hips, ← hp] at hexact
  rw [hips] at hdrift
  omega

/-- A node at `1.2.3.4` added to a new table and then again, under the same ID, from
`5.6.7.8`. -/
theorem add_bump_counts_drift_readd :
    CountsExact ((newTable ⟨[127, 0, 0, 1], [0], 0⟩).add ⟨[1, 2, 3, 4], [1], 1⟩) ∧
      ¬ CountsExact (((newTable ⟨[127, 0, 0, 1], [0], 0⟩).add ⟨[1, 2, 3, 4], [1], 1⟩).add
        ⟨[5, 6, 7, 8], [1], 1⟩) := by
  have hc := (countsExact_newTable ⟨[127, 0, 0, 1], [0], 0⟩).add_fresh
    (n := ⟨[1, 2, 3, 4], [1], 1⟩) rfl rfl
  exact ⟨hc, (@add_bump_counts_drift _ ⟨[1, 2, 3, 4], [1], 1⟩ ⟨[5, 6, 7, 8], [1], 1⟩ hc
    (by decide +kernel) (by decide) (by decide +kernel)).2⟩

end EpvChain.Discover
