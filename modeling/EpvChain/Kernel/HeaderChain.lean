import EpvChain.Kernel.BlockChain
import EpvChain.Lib.Finmap

/-!
# The header chain's canonical index (`kernel/headerchain.go`)

`HeaderChain.WriteHeader` writes a header and its total difficulty, and makes it the head when it
is heavier than the head, or as heavy on a coin toss (`coin`). For a new head it deletes the
canonical hashes above its height up to the first gap (`deleteCanonical`), makes its ancestors
canonical until one already is (`rewriteCanonical`), and then its own hash.

The header hash is a parameter; the tables are maps by hash and by height, and
`GetCanonicalHash` reads zero at a height without one. On a tree the walk stops at height 0
(`rewriteCanonical_spec`), so the source's `number - 1` never wraps. The number cache, the
stored head hash and `SetHead` are left out.

* `Tree` — the written headers form a tree under one genesis, with total difficulties.
* `Fits` — a call's header has its parent one height below, and a fresh nonzero hash.
* `Indexed` — a tree, the head written and heaviest, the canonical hashes its ancestors.
* `writeHeader_indexed`, `writeHeaders_canonical` — a call on a fitting header keeps `Indexed`,
  and so does every call of a run from a genesis header.
-/

namespace EpvChain.Core

open EpvChain.Types EpvChain.Lib

/-- The errors of `HeaderChain.WriteHeader`: a parent without a total difficulty, and a missing
header or head total difficulty, which the source dereferences (a panic). -/
inductive HeaderError where
  | unknownAncestor
  | nilDereference
  deriving DecidableEq, Repr

/-- The header chain's tables and head.
Source: `kernel/headerchain.go` `type HeaderChain struct` -/
structure HeaderChain where
  headers : Finmap fun _ : Hash => Header
  td : Finmap fun _ : Hash => Nat
  canonical : Finmap fun _ : Nat => Hash
  currentHeader : Header
  currentHeaderHash : Hash

namespace HeaderChain

/-- `GetCanonicalHash`: the zero hash at a height without one.
Source: `kernel/database_util.go` `GetCanonicalHash` -/
def getCanonicalHash (c : Finmap fun _ : Nat => Hash) (n : Nat) : Hash := (c.lookup n).getD 0

/-- The first loop of `WriteHeader`: the canonical hashes from height `i` up deleted, up to the
first height without one. Each round deletes an entry, so the number of entries bounds the
rounds. -/
def deleteCanonical : Nat → (Finmap fun _ : Nat => Hash) → Nat → Finmap fun _ : Nat => Hash
  | 0, c, _ => c
  | fuel + 1, c, i => if getCanonicalHash c i = 0 then c else deleteCanonical fuel (c.erase i) (i + 1)

/-- The second loop of `WriteHeader`: from the parent down, each ancestor made canonical at its
height, until one is canonical already. A missing header ends it with `none`: the source
dereferences nil. The heights bound the rounds. -/
def rewriteCanonical (headers : Finmap fun _ : Hash => Header) :
    Nat → (Finmap fun _ : Nat => Hash) → Hash → Nat → Option (Finmap fun _ : Nat => Hash)
  | fuel, c, headHash, headNumber =>
    if getCanonicalHash c headNumber = headHash then some c
    else
      let c := c.insert headNumber headHash
      match fuel, headers.lookup headHash with
      | fuel + 1, some headHeader =>
        rewriteCanonical headers fuel c headHeader.parentHash (headHeader.number - 1)
      | _, _ => none

/-- The hash `k` generations above `h`, through the written headers. -/
def ancestor (headers : Finmap fun _ : Hash => Header) : Nat → Hash → Option Hash
  | 0, h => some h
  | k + 1, h => (headers.lookup h).bind fun hdr => ancestor headers k hdr.parentHash

variable (hash : Header → Hash)

/-- `HeaderChain.WriteHeader`: the total difficulty and the header written; the header made the
head when it is heavier than the head, or as heavy on a coin toss.
Source: `kernel/headerchain.go` `HeaderChain.WriteHeader` -/
def writeHeader (hc : HeaderChain) (header : Header) (coin : Bool) :
    Except HeaderError (WriteStatus × HeaderChain) :=
  match hc.td.lookup header.parentHash, hc.td.lookup hc.currentHeaderHash with
  | none, _ => .error .unknownAncestor
  | some _, none => .error .nilDereference
  | some ptd, some localTd =>
    let externTd := header.difficulty + ptd
    let hc := { hc with
      td := hc.td.insert (hash header) externTd
      headers := hc.headers.insert (hash header) header }
    if localTd < externTd ∨ (externTd = localTd ∧ coin = true) then
      let c := deleteCanonical hc.canonical.keys.card hc.canonical (header.number + 1)
      match rewriteCanonical hc.headers header.number c header.parentHash (header.number - 1) with
      | none => .error .nilDereference
      | some c =>
        .ok (.canonStatTy, { hc with
          canonical := c.insert header.number (hash header)
          currentHeader := header
          currentHeaderHash := hash header })
    else .ok (.sideStatTy, hc)

/-- `WriteHeader` on each header in turn, with its coin; a failed call changes nothing. -/
def writeHeaders (hc : HeaderChain) : List (Header × Bool) → HeaderChain
  | [] => hc
  | (header, coin) :: rest =>
    match hc.writeHeader hash header coin with
    | .ok (_, hc') => writeHeaders hc' rest
    | .error _ => writeHeaders hc rest

/-- The chain of a genesis header alone, its difficulty its total difficulty.
Source: `kernel/genesis.go` `Genesis.Commit`; `kernel/headerchain.go` `NewHeaderChain` -/
def genesisChain (genesis : Header) : HeaderChain :=
  ⟨Finmap.singleton (hash genesis) genesis, Finmap.singleton (hash genesis) genesis.difficulty,
    Finmap.singleton 0 (hash genesis), genesis, hash genesis⟩

/-! ### The invariant -/

/-- The written headers form a tree under one genesis header: every other header's parent is
written one height below it. Each header's total difficulty is its parent's plus its own
difficulty. -/
structure Tree (headers : Finmap fun _ : Hash => Header) (td : Finmap fun _ : Hash => Nat) :
    Prop where
  ne_zero : ∀ h ∈ headers, h ≠ 0
  parent : ∀ h hdr, headers.lookup h = some hdr → 0 < hdr.number →
    ∃ p, headers.lookup hdr.parentHash = some p ∧ p.number + 1 = hdr.number
  genesis : ∀ h hdr h' hdr', headers.lookup h = some hdr → headers.lookup h' = some hdr' →
    hdr.number = 0 → hdr'.number = 0 → h = h'
  td_mem : ∀ h ∈ headers, h ∈ td
  td_parent : ∀ h hdr, headers.lookup h = some hdr → 0 < hdr.number →
    ∃ pt, td.lookup hdr.parentHash = some pt ∧ td.lookup h = some (hdr.difficulty + pt)

/-- What a call of `WriteHeader` may assume of its header: it is not a genesis header, its parent
is written one height below it, and its hash is not zero and names no other written header. -/
structure Fits (hc : HeaderChain) (header : Header) : Prop where
  pos : 0 < header.number
  parent : ∃ p, hc.headers.lookup header.parentHash = some p ∧ p.number + 1 = header.number
  ne_zero : hash header ≠ 0
  fresh : ∀ y, hc.headers.lookup (hash header) = some y → y = header

/-- The header chain's invariant: the written headers form a tree, the head is written and has
the greatest total difficulty, the canonical hash at every height up to the head's is the head's
ancestor there, and there is none above. -/
structure Indexed (hc : HeaderChain) : Prop where
  tree : Tree hc.headers hc.td
  current : hc.headers.lookup hc.currentHeaderHash = some hc.currentHeader
  heaviest : ∃ t, hc.td.lookup hc.currentHeaderHash = some t ∧
    ∀ h t', hc.td.lookup h = some t' → t' ≤ t
  canonical : ∀ n ≤ hc.currentHeader.number, hc.canonical.lookup n =
    ancestor hc.headers (hc.currentHeader.number - n) hc.currentHeaderHash
  above : ∀ n, hc.currentHeader.number < n → hc.canonical.lookup n = none

/-- Every header fits the chain it is written to: in particular its parent is written before
it. -/
def CallsFit : HeaderChain → List (Header × Bool) → Prop
  | _, [] => True
  | hc, (header, coin) :: rest =>
    Fits hash hc header ∧
      match hc.writeHeader hash header coin with
      | .ok (_, hc') => CallsFit hc' rest
      | .error _ => CallsFit hc rest

/-- Whether a header fits is decided from the tables. -/
instance (hc : HeaderChain) (header : Header) : Decidable (Fits hash hc header) :=
  decidable_of_iff (0 < header.number ∧
      (∃ p ∈ hc.headers.lookup header.parentHash, p.number + 1 = header.number) ∧
      hash header ≠ 0 ∧ ∀ y ∈ hc.headers.lookup (hash header), y = header)
    ⟨fun ⟨hpos, hparent, hne, hfresh⟩ => ⟨hpos, hparent, hne, hfresh⟩,
      fun ⟨hpos, hparent, hne, hfresh⟩ => ⟨hpos, hparent, hne, hfresh⟩⟩

/-- Whether a run of calls fits is decided call by call, along the chains the calls write. -/
def decidableCallsFit : ∀ (hc : HeaderChain) (calls : List (Header × Bool)),
    Decidable (CallsFit hash hc calls)
  | _, [] => isTrue trivial
  | hc, (header, coin) :: rest =>
    match hw : hc.writeHeader hash header coin with
    | .ok (_, hc') =>
      have := decidableCallsFit hc' rest
      decidable_of_iff (Fits hash hc header ∧ CallsFit hash hc' rest) (by rw [CallsFit, hw])
    | .error _ =>
      have := decidableCallsFit hc rest
      decidable_of_iff (Fits hash hc header ∧ CallsFit hash hc rest) (by rw [CallsFit, hw])

/-- Whether a run of calls fits is decided call by call. -/
instance (hc : HeaderChain) (calls : List (Header × Bool)) : Decidable (CallsFit hash hc calls) :=
  decidableCallsFit hash hc calls

/-! ### Canonical hashes -/

/-- Deleting a canonical hash reads back as the zero hash. -/
theorem getCanonicalHash_erase (c : Finmap fun _ : Nat => Hash) (i n : Nat) :
    getCanonicalHash (c.erase i) n = if n = i then 0 else getCanonicalHash c n := by
  unfold getCanonicalHash
  rw [finmap_lookup_erase]
  split_ifs <;> rfl

/-- A canonical hash other than zero is stored. -/
theorem lookup_of_getCanonicalHash {c : Finmap fun _ : Nat => Hash} {n : Nat} {a : Hash}
    (h : getCanonicalHash c n = a) (ha : a ≠ 0) : c.lookup n = some a := by
  unfold getCanonicalHash at h
  cases hc : c.lookup n with
  | none => rw [hc] at h; exact absurd h.symm ha
  | some b => rw [hc] at h; exact congrArg some h

/-- The deletion loop from height `i` up: it deletes the heights up to the first without a hash,
given as many rounds as there are such heights. -/
theorem lookup_deleteCanonical {fuel i j : Nat} {c : Finmap fun _ : Nat => Hash} (hij : i ≤ j)
    (hne : ∀ n, i ≤ n → n < j → getCanonicalHash c n ≠ 0) (hj : getCanonicalHash c j = 0)
    (hfuel : j - i ≤ fuel) (n : Nat) :
    (deleteCanonical fuel c i).lookup n = if i ≤ n ∧ n < j then none else c.lookup n := by
  induction fuel generalizing c i with
  | zero =>
    obtain rfl : i = j := by omega
    rw [deleteCanonical, if_neg (by omega)]
  | succ fuel ih =>
    by_cases hij' : i = j
    · subst hij'
      rw [deleteCanonical, if_pos hj, if_neg (by omega)]
    -- height `i` has a hash: it goes, and the loop goes on from `i + 1`
    have hi : getCanonicalHash c i ≠ 0 := hne i le_rfl (by omega)
    have hne' : ∀ m, i + 1 ≤ m → m < j → getCanonicalHash (c.erase i) m ≠ 0 := by
      intro m hm hmj
      rw [getCanonicalHash_erase, if_neg (by omega)]
      exact hne m (by omega) hmj
    have hj' : getCanonicalHash (c.erase i) j = 0 := by
      rw [getCanonicalHash_erase, if_neg (Ne.symm hij'), hj]
    rw [deleteCanonical, if_neg hi, ih (by omega) hne' hj' (by omega), finmap_lookup_erase]
    by_cases hn : n = i
    · rw [if_neg (by omega), if_pos hn, if_pos (by omega)]
    · rw [if_neg hn]
      split_ifs <;> first | rfl | omega

/-! ### Ancestors -/

section Ancestor

variable {headers : Finmap fun _ : Hash => Header} {td : Finmap fun _ : Hash => Nat}

/-- One step up from a stored header is its parent. -/
theorem ancestor_succ {h : Hash} {hdr : Header} (hh : headers.lookup h = some hdr) (k : Nat) :
    ancestor headers (k + 1) h = ancestor headers k hdr.parentHash := by
  rw [ancestor, hh, Option.bind_some]

/-- Walking up `j + k` steps walks `j`, then `k`. -/
theorem ancestor_add (j k : Nat) (h : Hash) :
    ancestor headers (j + k) h = (ancestor headers j h).bind (ancestor headers k) := by
  induction j generalizing h with
  | zero => rw [Nat.zero_add, ancestor, Option.bind_some]
  | succ j ih =>
    rw [Nat.succ_add, ancestor, ancestor]
    cases headers.lookup h with
    | none => rfl
    | some hdr => rw [Option.bind_some, Option.bind_some, ih]

/-- On a tree, the walk from a written header reaches a written header at every height below
it. -/
theorem ancestor_written (ht : Tree headers td) {h : Hash} {hdr : Header}
    (hh : headers.lookup h = some hdr) {k : Nat} (hk : k ≤ hdr.number) :
    ∃ a hdrA, ancestor headers k h = some a ∧ headers.lookup a = some hdrA ∧
      hdrA.number + k = hdr.number := by
  induction k generalizing h hdr with
  | zero => exact ⟨h, hdr, rfl, hh, rfl⟩
  | succ k ih =>
    obtain ⟨p, hp, hpn⟩ := ht.parent h hdr hh (by omega)
    obtain ⟨a, hdrA, ha, hla, hn⟩ := ih hp (by omega)
    exact ⟨a, hdrA, by rw [ancestor_succ hh, ha], hla, by omega⟩

/-- A header written under a hash that is free, or already its own, changes no written header. -/
theorem lookup_insert_of_lookup {x : Header} {hx : Hash}
    (hfresh : ∀ y, headers.lookup hx = some y → y = x) {h : Hash} {hdr : Header}
    (hh : headers.lookup h = some hdr) : (headers.insert hx x).lookup h = some hdr := by
  rw [finmap_lookup_insert]
  split_ifs with hhx
  · subst hhx
    rw [hfresh hdr hh]
  · exact hh

/-- ... nor any walk from a written header down to the genesis header. -/
theorem ancestor_insert (ht : Tree headers td) {x : Header} {hx : Hash}
    (hfresh : ∀ y, headers.lookup hx = some y → y = x) {h : Hash} {hdr : Header}
    (hh : headers.lookup h = some hdr) {k : Nat} (hk : k ≤ hdr.number) :
    ancestor (headers.insert hx x) k h = ancestor headers k h := by
  induction k generalizing h hdr with
  | zero => rfl
  | succ k ih =>
    obtain ⟨p, hp, hpn⟩ := ht.parent h hdr hh (by omega)
    rw [ancestor_succ (lookup_insert_of_lookup hfresh hh), ancestor_succ hh, ih hp (by omega)]

end Ancestor

/-! ### The walk down the new head's ancestors -/

/-- `rewriteCanonical` on a tree, from a written header at height `m` whose ancestor at height 0
is canonical: it stops at a height `k` where the header's ancestor is canonical already, having
made the ancestors canonical above `k`. -/
theorem rewriteCanonical_spec {headers : Finmap fun _ : Hash => Header}
    {td : Finmap fun _ : Hash => Nat} (ht : Tree headers td) {fuel m : Nat}
    {c : Finmap fun _ : Nat => Hash} {headHash : Hash} {hdr : Header}
    (hh : headers.lookup headHash = some hdr) (hm : hdr.number = m)
    (h0 : c.lookup 0 = ancestor headers m headHash) (hfuel : m ≤ fuel) :
    ∃ c' k, rewriteCanonical headers fuel c headHash m = some c' ∧ k ≤ m ∧
      c.lookup k = ancestor headers (m - k) headHash ∧
      ∀ n, c'.lookup n = if k < n ∧ n ≤ m then ancestor headers (m - n) headHash else c.lookup n := by
  induction m generalizing fuel c headHash hdr with
  | zero =>
    -- at height 0 the header's ancestor is the header itself, canonical already
    have hc0 : getCanonicalHash c 0 = headHash := by rw [getCanonicalHash, h0]; rfl
    refine ⟨c, 0, ?_, le_rfl, h0, fun n => by rw [if_neg (by omega)]⟩
    rw [rewriteCanonical, if_pos hc0]
  | succ m ih =>
    by_cases hstop : getCanonicalHash c (m + 1) = headHash
    · refine ⟨c, m + 1, by rw [rewriteCanonical, if_pos hstop], le_rfl, ?_,
        fun n => by rw [if_neg (by omega)]⟩
      rw [Nat.sub_self, ancestor]
      exact lookup_of_getCanonicalHash hstop (ht.ne_zero headHash (Finmap.mem_of_lookup_eq_some hh))
    -- the header is made canonical, and the walk goes on from its parent
    obtain ⟨p, hp, hpn⟩ := ht.parent headHash hdr hh (by omega)
    obtain ⟨f, rfl⟩ : ∃ f, fuel = f + 1 := ⟨fuel - 1, by omega⟩
    have h0' : (c.insert (m + 1) headHash).lookup 0 = ancestor headers m hdr.parentHash := by
      rw [finmap_lookup_insert, if_neg (by omega), h0, ancestor_succ hh]
    obtain ⟨c', k, hrun, hk, hck, hc'⟩ := ih hp (by omega) h0' (show m ≤ f by omega)
    have hrun' : rewriteCanonical headers (f + 1) c headHash (m + 1) = some c' := by
      rw [rewriteCanonical, if_neg hstop]
      simp only [hh, hm, Nat.add_sub_cancel]
      exact hrun
    refine ⟨c', k, hrun', by omega, ?_, fun n => ?_⟩
    · rw [finmap_lookup_insert, if_neg (by omega)] at hck
      rw [hck, show m + 1 - k = m - k + 1 by omega, ancestor_succ hh]
    · rw [hc' n, finmap_lookup_insert]
      by_cases hn : n = m + 1
      · subst hn
        rw [if_neg (by omega), if_pos rfl, if_pos ⟨by omega, le_rfl⟩, Nat.sub_self, ancestor]
      by_cases hkn : k < n ∧ n ≤ m
      · rw [if_pos hkn, if_pos ⟨hkn.1, by omega⟩, show m + 1 - n = m - n + 1 by omega,
          ancestor_succ hh]
      · rw [if_neg hkn, if_neg hn, if_neg (by omega)]

/-! ### One call -/

section Write

variable {hc : HeaderChain} {header : Header}

/-- What `WriteHeader` does once it has found both total difficulties. -/
theorem writeHeader_of_td {coin : Bool} {ptd localTd : Nat}
    (hp : hc.td.lookup header.parentHash = some ptd)
    (hl : hc.td.lookup hc.currentHeaderHash = some localTd) :
    hc.writeHeader hash header coin =
      if localTd < header.difficulty + ptd ∨ (header.difficulty + ptd = localTd ∧ coin = true) then
        match rewriteCanonical (hc.headers.insert (hash header) header) header.number
            (deleteCanonical hc.canonical.keys.card hc.canonical (header.number + 1))
            header.parentHash (header.number - 1) with
        | none => .error .nilDereference
        | some c =>
          .ok (.canonStatTy,
            ⟨hc.headers.insert (hash header) header,
              hc.td.insert (hash header) (header.difficulty + ptd),
              c.insert header.number (hash header), header, hash header⟩)
      else
        .ok (.sideStatTy,
          ⟨hc.headers.insert (hash header) header,
            hc.td.insert (hash header) (header.difficulty + ptd), hc.canonical, hc.currentHeader,
            hc.currentHeaderHash⟩) := by
  simp only [writeHeader, hp, hl]

/-- A header that fits leaves the total difficulty of every written header as it was: a hash
already written is the header's own, with the same parent and so the same total difficulty. -/
theorem td_insert_of_mem (ht : Tree hc.headers hc.td) (hf : Fits hash hc header) {ptd : Nat}
    (hp : hc.td.lookup header.parentHash = some ptd) {h : Hash} (hh : h ∈ hc.headers) :
    (hc.td.insert (hash header) (header.difficulty + ptd)).lookup h = hc.td.lookup h := by
  rw [finmap_lookup_insert]
  split_ifs with hhx
  · subst hhx
    obtain ⟨y, hy⟩ := Finmap.mem_iff.mp hh
    obtain rfl := hf.fresh y hy
    obtain ⟨pt, hpt, hself⟩ := ht.td_parent _ y hy hf.pos
    obtain rfl : ptd = pt := Option.some.inj (hp.symm.trans hpt)
    exact hself.symm
  · rfl

/-- Writing a header that fits keeps the tree. -/
theorem tree_insert (ht : Tree hc.headers hc.td) (hf : Fits hash hc header) {ptd : Nat}
    (hp : hc.td.lookup header.parentHash = some ptd) :
    Tree (hc.headers.insert (hash header) header)
      (hc.td.insert (hash header) (header.difficulty + ptd)) := by
  obtain ⟨p, hpar, hpn⟩ := hf.parent
  have hpar' := lookup_insert_of_lookup hf.fresh hpar
  -- a written header is the new one, or one written before with its lookup unchanged
  have hcases : ∀ h hdr, (hc.headers.insert (hash header) header).lookup h = some hdr →
      (h = hash header ∧ hdr = header) ∨ hc.headers.lookup h = some hdr := by
    intro h hdr hh
    rw [finmap_lookup_insert] at hh
    split_ifs at hh with hhx
    · exact .inl ⟨hhx, (Option.some.inj hh).symm⟩
    · exact .inr hh
  refine ⟨fun h hh => ?_, fun h hdr hh hpos => ?_, fun h hdr h' hdr' hh hh' h0 h0' => ?_,
    fun h hh => ?_, fun h hdr hh hpos => ?_⟩
  · rcases Finmap.mem_insert.mp hh with rfl | hh
    · exact hf.ne_zero
    · exact ht.ne_zero h hh
  · rcases hcases h hdr hh with ⟨-, rfl⟩ | hh
    · exact ⟨p, hpar', hpn⟩
    · obtain ⟨q, hq, hqn⟩ := ht.parent h hdr hh hpos
      exact ⟨q, lookup_insert_of_lookup hf.fresh hq, hqn⟩
  · rcases hcases h hdr hh with ⟨-, rfl⟩ | hh
    · exact absurd h0 hf.pos.ne'
    rcases hcases h' hdr' hh' with ⟨-, rfl⟩ | hh'
    · exact absurd h0' hf.pos.ne'
    · exact ht.genesis h hdr h' hdr' hh hh' h0 h0'
  · rw [Finmap.mem_insert] at hh ⊢
    rcases hh with rfl | hh
    · exact .inl rfl
    · exact .inr (ht.td_mem h hh)
  · rcases hcases h hdr hh with ⟨rfl, rfl⟩ | hh
    · refine ⟨ptd, ?_, by rw [finmap_lookup_insert, if_pos rfl]⟩
      rw [td_insert_of_mem hash ht hf hp (Finmap.mem_of_lookup_eq_some hpar), hp]
    · obtain ⟨pt, hpt, hself⟩ := ht.td_parent h hdr hh hpos
      obtain ⟨q, hq, -⟩ := ht.parent h hdr hh hpos
      rw [td_insert_of_mem hash ht hf hp (Finmap.mem_of_lookup_eq_some hq),
        td_insert_of_mem hash ht hf hp (Finmap.mem_of_lookup_eq_some hh)]
      exact ⟨pt, hpt, hself⟩

/-- The head's total difficulty, as `WriteHeader` reads it, bounds every total difficulty
written. -/
theorem Indexed.le_localTd (hi : Indexed hc) {localTd : Nat}
    (hl : hc.td.lookup hc.currentHeaderHash = some localTd) {h : Hash} {t : Nat}
    (ht : hc.td.lookup h = some t) : t ≤ localTd := by
  obtain ⟨t', ht', hmax⟩ := hi.heaviest
  rw [Option.some.inj (hl.symm.trans ht')]
  exact hmax h t ht

/-- A side header: the head, its ancestors and the canonical hashes stay, and the head stays
the heaviest. -/
theorem indexed_side (hi : Indexed hc) (hf : Fits hash hc header) {ptd localTd : Nat}
    (hp : hc.td.lookup header.parentHash = some ptd)
    (hl : hc.td.lookup hc.currentHeaderHash = some localTd) (hle : header.difficulty + ptd ≤ localTd) :
    Indexed ⟨hc.headers.insert (hash header) header,
      hc.td.insert (hash header) (header.difficulty + ptd), hc.canonical, hc.currentHeader,
      hc.currentHeaderHash⟩ := by
  have hcur := Finmap.mem_of_lookup_eq_some hi.current
  refine ⟨tree_insert hash hi.tree hf hp, lookup_insert_of_lookup hf.fresh hi.current,
    ⟨localTd, by rw [td_insert_of_mem hash hi.tree hf hp hcur, hl], fun h t' ht' => ?_⟩,
    fun n hn => ?_, hi.above⟩
  · rw [finmap_lookup_insert] at ht'
    split_ifs at ht'
    · rw [← Option.some.inj ht']
      exact hle
    · exact hi.le_localTd hl ht'
  · rw [hi.canonical n hn, ancestor_insert hi.tree hf.fresh hi.current (Nat.sub_le _ _)]

/-- Under the invariant, the deletion loop from above a height deletes every canonical hash
above it. -/
theorem lookup_deleteAbove (hi : Indexed hc) (m n : Nat) :
    (deleteCanonical hc.canonical.keys.card hc.canonical (m + 1)).lookup n =
      if m < n then none else hc.canonical.lookup n := by
  set N := hc.currentHeader.number
  -- the canonical hashes up to the head's height are written hashes, so not zero
  have hsome : ∀ n ≤ N, ∃ a, hc.canonical.lookup n = some a ∧ a ≠ 0 := by
    intro n hn
    obtain ⟨a, _, ha, hla, -⟩ := ancestor_written hi.tree hi.current (Nat.sub_le N n)
    exact ⟨a, (hi.canonical n hn).trans ha, hi.tree.ne_zero a (Finmap.mem_of_lookup_eq_some hla)⟩
  have hne : ∀ n, m + 1 ≤ n → n < max (m + 1) (N + 1) → getCanonicalHash hc.canonical n ≠ 0 := by
    intro n _ hn
    obtain ⟨a, ha, ha0⟩ := hsome n (by omega)
    rw [getCanonicalHash, ha]
    exact ha0
  have hj : getCanonicalHash hc.canonical (max (m + 1) (N + 1)) = 0 := by
    rw [getCanonicalHash, hi.above _ (by omega)]
    rfl
  -- the heights deleted are keys, so there are rounds enough
  have hfuel : max (m + 1) (N + 1) - (m + 1) ≤ hc.canonical.keys.card := by
    have hsub : Finset.Ico (m + 1) (max (m + 1) (N + 1)) ⊆ hc.canonical.keys := by
      intro n hn
      rw [Finset.mem_Ico] at hn
      obtain ⟨a, ha, -⟩ := hsome n (by omega)
      exact Finmap.mem_keys.mpr (Finmap.mem_of_lookup_eq_some ha)
    simpa using Finset.card_le_card hsub
  rw [lookup_deleteCanonical (le_max_left _ _) hne hj hfuel]
  by_cases hn : m < n
  · rw [if_pos hn]
    split_ifs with h
    · rfl
    · exact hi.above n (by omega)
  · rw [if_neg (by omega), if_neg hn]

/-- A new head: its ancestors are canonical up to its height, and nothing above. -/
theorem indexed_canon (hi : Indexed hc) (hf : Fits hash hc header) {ptd localTd : Nat}
    (hp : hc.td.lookup header.parentHash = some ptd)
    (hl : hc.td.lookup hc.currentHeaderHash = some localTd) (hle : localTd ≤ header.difficulty + ptd)
    {c' : Finmap fun _ : Nat => Hash} {k : Nat} (hk : k ≤ header.number - 1)
    (hck : (deleteCanonical hc.canonical.keys.card hc.canonical (header.number + 1)).lookup k =
      ancestor (hc.headers.insert (hash header) header) (header.number - 1 - k) header.parentHash)
    (hc' : ∀ n, c'.lookup n = if k < n ∧ n ≤ header.number - 1 then
      ancestor (hc.headers.insert (hash header) header) (header.number - 1 - n) header.parentHash
      else (deleteCanonical hc.canonical.keys.card hc.canonical (header.number + 1)).lookup n) :
    Indexed ⟨hc.headers.insert (hash header) header,
      hc.td.insert (hash header) (header.difficulty + ptd),
      c'.insert header.number (hash header), header, hash header⟩ := by
  obtain ⟨p, hpar, hpn⟩ := hf.parent
  set headers' := hc.headers.insert (hash header) header
  have hself : headers'.lookup (hash header) = some header := by
    rw [finmap_lookup_insert, if_pos rfl]
  have htree := tree_insert hash hi.tree hf hp
  -- the new head's ancestor at `n` is its parent's one generation less
  have hup : ∀ n < header.number, ancestor headers' (header.number - n) (hash header) =
      ancestor headers' (header.number - 1 - n) header.parentHash := by
    intro n hn
    rw [show header.number - n = header.number - 1 - n + 1 by omega, ancestor_succ hself]
  refine ⟨htree, hself, ⟨header.difficulty + ptd, by rw [finmap_lookup_insert, if_pos rfl],
    fun h t' ht' => ?_⟩, fun n hn => ?_, fun n hn => ?_⟩
  · -- the old head was the heaviest, and the new one is at least as heavy
    rw [finmap_lookup_insert] at ht'
    split_ifs at ht'
    · exact (Option.some.inj ht').ge
    · exact (hi.le_localTd hl ht').trans hle
  · dsimp only at hn ⊢
    rw [finmap_lookup_insert]
    by_cases hnx : n = header.number
    · rw [if_pos hnx, hnx, Nat.sub_self, ancestor]
    rw [if_neg hnx, hc' n, hup n (by omega)]
    by_cases hkn : k < n
    · rw [if_pos ⟨hkn, by omega⟩]
    rw [if_neg (fun h => hkn h.1), lookup_deleteAbove hi, if_neg (by omega),
      ancestor_insert hi.tree hf.fresh hpar (by omega)]
    -- below the height where the walk stopped, the old head's ancestors are the new head's
    obtain ⟨a, hdrA, ha, -, -⟩ := ancestor_written hi.tree hpar (k := header.number - 1 - k)
      (by omega)
    rw [lookup_deleteAbove hi, if_neg (by omega), ancestor_insert hi.tree hf.fresh hpar (by omega),
      ha] at hck
    have hkN : k ≤ hc.currentHeader.number := by
      by_contra hkN
      rw [hi.above k (by omega)] at hck
      cases hck
    rw [hi.canonical k hkN] at hck
    rw [hi.canonical n (by omega),
      show hc.currentHeader.number - n = hc.currentHeader.number - k + (k - n) by omega,
      ancestor_add, hck, show header.number - 1 - n = header.number - 1 - k + (k - n) by omega,
      ancestor_add, ha]
  · dsimp only at hn ⊢
    rw [finmap_lookup_insert, if_neg (by omega), hc' n, if_neg (by omega), lookup_deleteAbove hi,
      if_pos hn]

/-- **One call.** A header that fits an indexed chain is written without error, and the chain
stays indexed. -/
theorem writeHeader_indexed (hi : Indexed hc) (hf : Fits hash hc header) (coin : Bool) :
    ∃ st hc', hc.writeHeader hash header coin = .ok (st, hc') ∧ Indexed hc' := by
  obtain ⟨p, hpar, hpn⟩ := hf.parent
  obtain ⟨ptd, hp⟩ := Finmap.mem_iff.mp (hi.tree.td_mem _ (Finmap.mem_of_lookup_eq_some hpar))
  obtain ⟨localTd, hl, -⟩ := hi.heaviest
  rw [writeHeader_of_td hash hp hl]
  split_ifs with hwin
  · -- the new head: the walk from its parent stops at height 0 at the latest, where both heads
    -- descend from the one genesis header
    have htree := tree_insert hash hi.tree hf hp
    have hpar' := lookup_insert_of_lookup hf.fresh hpar
    have h0 : (deleteCanonical hc.canonical.keys.card hc.canonical (header.number + 1)).lookup 0 =
        ancestor (hc.headers.insert (hash header) header) (header.number - 1) header.parentHash := by
      obtain ⟨g, hdrG, hg, hlg, hgn⟩ := ancestor_written htree hpar' (k := header.number - 1)
        (by omega)
      obtain ⟨g', hdrG', hg', hlg', hgn'⟩ := ancestor_written hi.tree hi.current
        (le_refl hc.currentHeader.number)
      rw [lookup_deleteAbove hi, if_neg (by omega), hi.canonical 0 (Nat.zero_le _), Nat.sub_zero,
        hg', hg, htree.genesis g' hdrG' g hdrG (lookup_insert_of_lookup hf.fresh hlg') hlg
          (by omega) (by omega)]
    obtain ⟨c', k, hrun, hk, hck, hc'⟩ := rewriteCanonical_spec htree hpar' (by omega) h0
      (show header.number - 1 ≤ header.number by omega)
    rw [hrun]
    exact ⟨_, _, rfl, indexed_canon hash hi hf hp hl (hwin.elim le_of_lt fun h => h.1.ge) hk hck
      hc'⟩
  · exact ⟨_, _, rfl, indexed_side hash hi hf hp hl (not_lt.mp fun h => hwin (.inl h))⟩

end Write

/-! ### Runs -/

/-- Along a run of calls that fit, the chain stays indexed. -/
theorem indexed_writeHeaders {hc : HeaderChain} (hi : Indexed hc) {calls : List (Header × Bool)}
    (hfit : CallsFit hash hc calls) : Indexed (writeHeaders hash hc calls) := by
  induction calls generalizing hc with
  | nil => exact hi
  | cons call rest ih =>
    obtain ⟨header, coin⟩ := call
    obtain ⟨hf, hrest⟩ := hfit
    obtain ⟨st, hc', hw, hi'⟩ := writeHeader_indexed hash hi hf coin
    rw [hw] at hrest
    rw [writeHeaders, hw]
    exact ih hi' hrest

/-- The calls before any point of a fitting run fit. -/
theorem CallsFit.take {hc : HeaderChain} {calls : List (Header × Bool)}
    (hfit : CallsFit hash hc calls) (k : Nat) : CallsFit hash hc (calls.take k) := by
  induction calls generalizing hc k with
  | nil => rw [List.take_nil]; trivial
  | cons call rest ih =>
    obtain ⟨header, coin⟩ := call
    cases k with
    | zero => trivial
    | succ k =>
      rw [List.take_succ_cons]
      obtain ⟨hf, hrest⟩ := hfit
      refine ⟨hf, ?_⟩
      rcases hw : hc.writeHeader hash header coin with e | ⟨st, hc'⟩
      · rw [hw] at hrest
        exact ih hrest k
      · rw [hw] at hrest
        exact ih hrest k

/-- The chain of the genesis block alone is indexed. -/
theorem indexed_genesisChain {genesis : Header} (hg : genesis.number = 0)
    (hgz : hash genesis ≠ 0) : Indexed (genesisChain hash genesis) := by
  -- every lookup of the one-entry tables finds the genesis header
  have hone : ∀ h hdr, (genesisChain hash genesis).headers.lookup h = some hdr →
      h = hash genesis ∧ hdr = genesis := by
    intro h hdr hh
    rw [genesisChain, finmap_lookup_singleton] at hh
    split_ifs at hh with hh'
    exact ⟨hh', (Option.some.inj hh).symm⟩
  refine ⟨⟨fun h hh => ?_, fun h hdr hh hpos => ?_, fun h hdr h' hdr' hh hh' _ _ => ?_,
    fun h hh => hh, fun h hdr hh hpos => ?_⟩, ?_, ⟨genesis.difficulty, ?_, fun h t' ht' => ?_⟩,
    fun n hn => ?_, fun n hn => ?_⟩
  · rw [genesisChain, Finmap.mem_singleton] at hh
    rw [hh]
    exact hgz
  · obtain ⟨-, rfl⟩ := hone h hdr hh
    omega
  · rw [(hone h hdr hh).1, (hone h' hdr' hh').1]
  · obtain ⟨-, rfl⟩ := hone h hdr hh
    omega
  · exact Finmap.lookup_singleton_eq
  · exact Finmap.lookup_singleton_eq
  · rw [genesisChain, finmap_lookup_singleton] at ht'
    split_ifs at ht'
    exact (Option.some.inj ht').ge
  · dsimp only [genesisChain] at hn ⊢
    obtain rfl : n = 0 := by omega
    rw [Finmap.lookup_singleton_eq, hg]
    rfl
  · dsimp only [genesisChain] at hn ⊢
    rw [finmap_lookup_singleton, if_neg (by omega)]

/-- **The header chain's canonical index.** From a genesis header, after each call of a run of
`WriteHeader` on headers that fit, with any coins: the head is written, the canonical hash at
every height up to the head's is the head's ancestor at that height, no height above the head's
has a canonical hash, and no total difficulty written is greater than the head's. -/
theorem writeHeaders_canonical (genesis : Header) (hg : genesis.number = 0)
    (hgz : hash genesis ≠ 0) (calls : List (Header × Bool))
    (hfit : CallsFit hash (genesisChain hash genesis) calls) (k : Nat) :
    let hc := writeHeaders hash (genesisChain hash genesis) (calls.take k)
    hc.headers.lookup hc.currentHeaderHash = some hc.currentHeader ∧
      (∀ n ≤ hc.currentHeader.number,
        hc.canonical.lookup n = ancestor hc.headers (hc.currentHeader.number - n) hc.currentHeaderHash) ∧
      (∀ n, hc.currentHeader.number < n → hc.canonical.lookup n = none) ∧
      ∃ t, hc.td.lookup hc.currentHeaderHash = some t ∧ ∀ h t', hc.td.lookup h = some t' → t' ≤ t := by
  have hi := indexed_writeHeaders hash (indexed_genesisChain hash hg hgz) (hfit.take hash k)
  exact ⟨hi.current, hi.canonical, hi.above, hi.heaviest⟩

/-- On the genesis block, hash `1`: two blocks out of turn (hashes `2`, `3`); a block in turn at
height 1 (hash `5`) whose total difficulty ties the head's and wins the coin, so the head moves
to a shorter chain and height 2 loses its canonical hash; its in-turn child (hash `6`); and a
third block out of turn on the old branch (hash `4`), a side chain. -/
def reorgCalls : List (Header × Bool) :=
  [(outOfTurn1.header, false), (outOfTurn2.header, false), (inTurn1.header, true),
    (inTurn2.header, false), (outOfTurn3.header, false)]

/-- After the reorganisation, the head is stored, the canonical hashes are its ancestors and
its
total difficulty is the greatest. -/
theorem writeHeaders_canonical_reorg :
    genesisBlock.header.number = 0 ∧ timeHash genesisBlock.header ≠ 0 ∧
      CallsFit timeHash (genesisChain timeHash genesisBlock.header) reorgCalls ∧
      let hc := writeHeaders timeHash (genesisChain timeHash genesisBlock.header) (reorgCalls.take 5)
      hc.headers.lookup hc.currentHeaderHash = some hc.currentHeader ∧
        (∀ n ≤ hc.currentHeader.number,
          hc.canonical.lookup n = ancestor hc.headers (hc.currentHeader.number - n) hc.currentHeaderHash) ∧
        (∀ n, hc.currentHeader.number < n → hc.canonical.lookup n = none) ∧
        ∃ t, hc.td.lookup hc.currentHeaderHash = some t ∧ ∀ h t', hc.td.lookup h = some t' → t' ≤ t := by
  have hfit : CallsFit timeHash (genesisChain timeHash genesisBlock.header) reorgCalls := by
    decide +kernel
  exact ⟨rfl, by decide, hfit, writeHeaders_canonical timeHash _ rfl (by decide) _ hfit 5⟩

end HeaderChain

end EpvChain.Core
