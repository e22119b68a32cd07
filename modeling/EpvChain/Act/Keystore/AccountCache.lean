import EpvChain.Public.Types
import EpvChain.Lib.GoSlice
import EpvChain.Lib.Finmap

/-!
# The keystore's account cache (`act/keystore/account_cache.go`)

The cache keeps every account twice: in `all`, sorted by URL, and in `byAddr`, by address. `add`
inserts where `sort.Search` finds and skips the account found there when it is the same one;
`delete` and `deleteByFile` take an account out of both, dropping an emptied address; `find`
looks up by address, file, or both.

The runs are `Reachable scheme keydir`: `add`, `delete` and `deleteByFile` in any order from
`newAccountCache keydir`, every account under one URL scheme. `AccountCache.Inv` is what every
run keeps: `all` sorted by URL, `byAddr` a permutation of each address's accounts in `all`, no
empty entry (`Reachable.inv`).

* `deleteByFile_removes`: `deleteByFile` takes exactly one account with the path out of `all`;
  one scheme makes the URL order the path order, so `sort.Search` finds it.
* `find_of_noURLMatch`, `find_of_URLMatch`: `find` for a non-zero address answers the one
  account there is, `ErrNoMatch`, or an `AmbiguousAddrError` listing all of them by URL, unless
  one has the URL asked for.

Two accounts may share a URL; `add` then checks only the first, so an account can be in `all`
twice, and the invariant counts it twice in `byAddr`.
-/

set_option linter.unusedSectionVars false

namespace EpvChain.Accounts

/-- `accounts.URL`. -/
structure URL where
  Scheme : String
  Path : String
  deriving DecidableEq, Repr

/-- `URL.Cmp`: the schemes (`strings.Compare`), and the paths when the schemes are equal. -/
def URL.Cmp (u url : URL) : Ordering :=
  if u.Scheme = url.Scheme then compare u.Path url.Path else compare u.Scheme url.Scheme

/-- `accounts.Account`. -/
structure Account where
  Address : Address
  URL : URL
  deriving DecidableEq, Repr

/-- A URL's place in the order `URL.Cmp` compares by: scheme, then path. -/
def URL.key (u : URL) : String ×ₗ String := toLex (u.Scheme, u.Path)

/-- `URL.Cmp` orders URLs by scheme, then path: it answers `gt` exactly above the other's key. -/
theorem URL.Cmp_ne_gt_iff {u v : URL} : u.Cmp v ≠ .gt ↔ u.key ≤ v.key := by
  unfold URL.Cmp URL.key
  rw [Prod.Lex.toLex_le_toLex]
  split_ifs with hs
  · rw [Ne, compare_gt_iff_gt, not_lt]
    simp [hs]
  · rw [Ne, compare_gt_iff_gt, not_lt]
    constructor
    · exact fun h => Or.inl (lt_of_le_of_ne h hs)
    · rintro (h | ⟨h, -⟩)
      · exact h.le
      · exact h.le

/-- `URL.Cmp` answers `lt` exactly below the other's key. -/
theorem URL.Cmp_ne_lt_iff {u v : URL} : u.Cmp v ≠ .lt ↔ v.key ≤ u.key := by
  unfold URL.Cmp URL.key
  rw [Prod.Lex.toLex_le_toLex]
  split_ifs with hs
  · rw [Ne, compare_lt_iff_lt, not_lt]
    simp [hs]
  · rw [Ne, compare_lt_iff_lt, not_lt]
    constructor
    · exact fun h => Or.inl (lt_of_le_of_ne h (Ne.symm hs))
    · rintro (h | ⟨h, -⟩)
      · exact h.le
      · exact h.le

end EpvChain.Accounts

namespace EpvChain.Keystore

open EpvChain.Accounts EpvChain.Lib
open scoped List

/-! ### The cache -/

/-- The order the cache sorts by (`accountsByURL`): `a` does not come after `b`. -/
def urlLE (a b : Account) : Prop := a.URL.Cmp b.URL ≠ .gt

/-- The URL order of accounts is decidable, as `Cmp` computes it. -/
instance : DecidableRel urlLE := fun a b => inferInstanceAs (Decidable (a.URL.Cmp b.URL ≠ .gt))

/-- The URL order of accounts is the order of their URL keys. -/
theorem urlLE_iff {a b : Account} : urlLE a b ↔ a.URL.key ≤ b.URL.key := URL.Cmp_ne_gt_iff

/-- Any two accounts compare by URL. -/
instance : Std.Total urlLE := ⟨fun a b => by simp only [urlLE_iff]; exact le_total _ _⟩

/-- The URL order is transitive. -/
instance : IsTrans Account urlLE := ⟨fun a b c => by simp only [urlLE_iff]; exact le_trans⟩

/-- `accountCache`: the key directory, the accounts sorted by URL, and the accounts of each
address. The watcher, the throttle, the notification channel and the file cache serve
`maybeReload` and are left out. -/
structure AccountCache where
  keydir : String
  all : List Account
  byAddr : Finmap fun _ : Address => List Account

/-- `newAccountCache`. -/
def newAccountCache (keydir : String) : AccountCache := ⟨keydir, [], ∅⟩

/-- `ac.byAddr[addr]`: a missing address reads as the empty slice. -/
def AccountCache.byAddrOf (ac : AccountCache) (addr : Address) : List Account :=
  (ac.byAddr.lookup addr).getD []

/-- `removeAccount`: the slice without its first account equal to `elem`. -/
def removeAccount : List Account → Account → List Account
  | [], _ => []
  | a :: slice, elem => if a = elem then slice else a :: removeAccount slice elem

/-- The index update `delete` and `deleteByFile` share: `removed` taken out of its address's
entry, and the entry deleted when that leaves it empty. -/
def AccountCache.dropFromIndex (ac : AccountCache) (removed : Account) :
    Finmap fun _ : Address => List Account :=
  let ba := removeAccount (ac.byAddrOf removed.Address) removed
  if ba.length = 0 then ac.byAddr.erase removed.Address
  else ac.byAddr.insert removed.Address ba

/-- `accountCache.add`: the account goes in at the first index whose URL is not below its own,
unless the account found there is the same one. -/
def AccountCache.add (ac : AccountCache) (newAccount : Account) : AccountCache :=
  let i := ac.all.findIdx fun x => (x.URL.Cmp newAccount.URL).isGE
  if ac.all[i]? = some newAccount then ac
  else
    { ac with
      all := ac.all.insertIdx i newAccount
      byAddr := ac.byAddr.insert newAccount.Address (ac.byAddrOf newAccount.Address ++ [newAccount]) }

/-- `accountCache.delete`. -/
def AccountCache.delete (ac : AccountCache) (removed : Account) : AccountCache :=
  { ac with all := removeAccount ac.all removed, byAddr := ac.dropFromIndex removed }

/-- `accountCache.deleteByFile`: `sort.Search` for the first path not below `path`, and the
account there removed when its path is `path`. -/
def AccountCache.deleteByFile (ac : AccountCache) (path : String) : AccountCache :=
  let i := ac.all.findIdx fun x => decide (x.URL.Path ≥ path)
  match ac.all[i]? with
  | some removed =>
    if removed.URL.Path = path then
      { ac with all := ac.all.eraseIdx i, byAddr := ac.dropFromIndex removed }
    else ac
  | none => ac

/-- The errors of `find`: `ErrNoMatch` ("no key for given address or file") and
`AmbiguousAddrError`. -/
inductive FindError where
  | ErrNoMatch
  | AmbiguousAddrError (Addr : Address) (Matches : List Account)
  deriving DecidableEq

/-- `filepath.Separator`. -/
def Separator : Char := '/'

section Find

-- `filepath.Join`, which `find` applies to the key directory and a bare file name; nothing
-- below depends on what it computes
variable (filepathJoin : String → String → String)

/-- The URL `find` compares with: a path without a separator is taken in the key directory. -/
def AccountCache.findURL (ac : AccountCache) (a : Account) : URL :=
  if a.URL.Path.contains Separator then a.URL
  else { a.URL with Path := filepathJoin ac.keydir a.URL.Path }

/-- `sort.Sort(accountsByURL(...))`: any sorting algorithm; what is used is only that the result
is the same accounts in URL order. -/
def sortByURL (l : List Account) : List Account := l.mergeSort fun a b => decide (urlLE a b)

/-- `accountCache.find`: the accounts of the address (all of them for the zero address), the one
with the URL when a path is given, and otherwise the one there is, none, or an ambiguity. -/
def AccountCache.find (ac : AccountCache) (a : Account) : Except FindError Account :=
  let matching := if a.Address ≠ Address.zero then ac.byAddrOf a.Address else ac.all
  let byPath : Option (Except FindError Account) :=
    if a.URL.Path = "" then none
    else
      match matching.find? fun m => decide (m.URL = ac.findURL filepathJoin a) with
      | some m => some (.ok m)
      | none => if a.Address = Address.zero then some (.error .ErrNoMatch) else none
  match byPath with
  | some result => result
  | none =>
    match matching with
    | [m] => .ok m
    | [] => .error .ErrNoMatch
    | _ => .error (.AmbiguousAddrError a.Address (sortByURL matching))

end Find

/-! ### Runs -/

/-- One call on the cache, with every added account under the URL scheme `scheme`. -/
inductive Step (scheme : String) : AccountCache → AccountCache → Prop
  | add (ac : AccountCache) (newAccount : Account) (h : newAccount.URL.Scheme = scheme) :
    Step scheme ac (ac.add newAccount)
  | delete (ac : AccountCache) (removed : Account) : Step scheme ac (ac.delete removed)
  | deleteByFile (ac : AccountCache) (path : String) : Step scheme ac (ac.deleteByFile path)

/-- The caches a sequence of calls reaches from `newAccountCache keydir`. -/
def Reachable (scheme keydir : String) (ac : AccountCache) : Prop :=
  Relation.ReflTransGen (Step scheme) (newAccountCache keydir) ac

/-- What every run keeps: one scheme, `all` sorted, `byAddr` the accounts of each address in
`all` counted with multiplicity, and no empty entry. -/
structure AccountCache.Inv (scheme : String) (ac : AccountCache) : Prop where
  oneScheme : ∀ x ∈ ac.all, x.URL.Scheme = scheme
  sorted : ac.all.Pairwise urlLE
  byAddr_perm : ∀ addr, ac.byAddrOf addr ~ ac.all.filter fun x => x.Address = addr
  nonempty : ∀ addr l, ac.byAddr.lookup addr = some l → l ≠ []

/-! ### Lemmas of the definitions -/

/-- `removeAccount` drops the first account equal to the one given, as `List.erase` does. -/
theorem removeAccount_eq_erase (l : List Account) (elem : Account) :
    removeAccount l elem = l.erase elem := by
  induction l with
  | nil => rfl
  | cons a l ih =>
    by_cases h : a = elem
    · simp [removeAccount, h]
    · rw [removeAccount, if_neg h, ih, List.erase_cons_tail (by simpa using h)]

/-- `sort.Search`'s test in `add` holds exactly at the accounts not below the new one. -/
theorem isGE_Cmp_iff {b newAccount : Account} :
    (b.URL.Cmp newAccount.URL).isGE = true ↔ urlLE newAccount b := by
  rw [urlLE_iff, ← URL.Cmp_ne_lt_iff]
  cases b.URL.Cmp newAccount.URL <;> simp

/-- `delete` changes only the removed account's address entry, which loses one copy of it. -/
theorem byAddrOf_delete (ac : AccountCache) (removed : Account) (x : Address) :
    (ac.delete removed).byAddrOf x =
      if x = removed.Address then (ac.byAddrOf removed.Address).erase removed
      else ac.byAddrOf x := by
  show ((ac.dropFromIndex removed).lookup x).getD [] = _
  unfold AccountCache.dropFromIndex
  rw [removeAccount_eq_erase]
  dsimp only
  by_cases hlen : ((ac.byAddrOf removed.Address).erase removed).length = 0
  · rw [if_pos hlen, finmap_lookup_erase]
    split_ifs with hx
    · exact (List.eq_nil_of_length_eq_zero hlen).symm
    · rfl
  · rw [if_neg hlen, finmap_lookup_insert]
    split_ifs <;> rfl

/-- Dropping an account from the index leaves no empty entry behind. -/
theorem lookup_dropFromIndex_ne_nil {ac : AccountCache} {removed : Account} {addr : Address}
    {l : List Account} (hne : ∀ addr l, ac.byAddr.lookup addr = some l → l ≠ [])
    (h : (ac.dropFromIndex removed).lookup addr = some l) : l ≠ [] := by
  unfold AccountCache.dropFromIndex at h
  dsimp only at h
  by_cases hlen : (removeAccount (ac.byAddrOf removed.Address) removed).length = 0
  · rw [if_pos hlen] at h
    exact hne addr l (finmap_lookup_of_lookup_erase h)
  · rw [if_neg hlen, finmap_lookup_insert] at h
    split_ifs at h with hx
    · intro hl
      apply hlen
      rw [Option.some_inj.mp h, hl]
      rfl
    · exact hne addr l h

/-- `add` inserts the account in URL order (when it inserts at all). -/
theorem AccountCache.all_add_of_ne (ac : AccountCache) (newAccount : Account)
    (h : ac.all[ac.all.findIdx fun x => (x.URL.Cmp newAccount.URL).isGE]? ≠ some newAccount) :
    (ac.add newAccount).all = ac.all.orderedInsert urlLE newAccount := by
  have hidx : (ac.all.findIdx fun x => (x.URL.Cmp newAccount.URL).isGE) =
      ac.all.findIdx fun x => decide (urlLE newAccount x) := by
    congr 1
    funext x
    rw [Bool.eq_iff_iff, isGE_Cmp_iff, decide_eq_true_iff]
  simp only [AccountCache.add, if_neg h]
  rw [hidx, insertIdx_findIdx]

example : ((((newAccountCache "/keys").add ⟨1, ⟨"keystore", "/keys/b"⟩⟩).add
    ⟨2, ⟨"keystore", "/keys/a"⟩⟩).all.map fun x => x.URL.Path) = ["/keys/a", "/keys/b"] := by
  decide

/-! ### The invariant along a run -/

section Inv

variable {scheme : String}

/-- A new cache holds the invariant. -/
theorem inv_newAccountCache (keydir : String) : (newAccountCache keydir).Inv scheme where
  oneScheme := by simp [newAccountCache]
  sorted := List.Pairwise.nil
  byAddr_perm addr := by simp [newAccountCache, AccountCache.byAddrOf]
  nonempty addr l h := by simp [newAccountCache] at h

/-- `add` of an account of the cache's scheme keeps the invariant. -/
theorem AccountCache.Inv.add {ac : AccountCache} (h : ac.Inv scheme) {newAccount : Account}
    (hs : newAccount.URL.Scheme = scheme) : (ac.add newAccount).Inv scheme := by
  by_cases hfound : ac.all[ac.all.findIdx fun x => (x.URL.Cmp newAccount.URL).isGE]? =
      some newAccount
  · simpa [AccountCache.add, hfound] using h
  · have hall := ac.all_add_of_ne newAccount hfound
    have hperm : (ac.add newAccount).all ~ newAccount :: ac.all :=
      hall ▸ List.perm_orderedInsert urlLE newAccount ac.all
    have hbyAddr : (ac.add newAccount).byAddr =
        ac.byAddr.insert newAccount.Address (ac.byAddrOf newAccount.Address ++ [newAccount]) := by
      simp [AccountCache.add, hfound]
    refine ⟨?_, ?_, ?_, ?_⟩
    · intro x hx
      rcases List.mem_cons.mp (hperm.subset hx) with rfl | hx
      · exact hs
      · exact h.oneScheme x hx
    · rw [hall]
      exact h.sorted.orderedInsert newAccount ac.all
    · -- the new account's address gains it at the end; every other address is as before
      have hlookup : ∀ x, (ac.add newAccount).byAddrOf x = if x = newAccount.Address
          then ac.byAddrOf newAccount.Address ++ [newAccount] else ac.byAddrOf x := by
        intro x
        unfold AccountCache.byAddrOf
        rw [hbyAddr, finmap_lookup_insert]
        split_ifs <;> rfl
      intro addr
      have hfilter := (hperm.filter fun x => decide (x.Address = addr))
      rw [hlookup]
      split_ifs with hx
      · subst hx
        refine List.Perm.trans ?_ hfilter.symm
        simpa [List.filter_cons] using ((h.byAddr_perm newAccount.Address).append_right
          [newAccount]).trans (List.perm_append_singleton newAccount _)
      · refine (h.byAddr_perm addr).trans ?_
        simpa [List.filter_cons, Ne.symm hx] using hfilter.symm
    · intro addr l hl
      rw [hbyAddr, finmap_lookup_insert] at hl
      split_ifs at hl with hx
      · cases hl
        simp
      · exact h.nonempty addr l hl

/-- `delete` keeps the invariant. -/
theorem AccountCache.Inv.delete {ac : AccountCache} (h : ac.Inv scheme) (removed : Account) :
    (ac.delete removed).Inv scheme := by
  have hall : (ac.delete removed).all = ac.all.erase removed := by
    simp [AccountCache.delete, removeAccount_eq_erase]
  refine ⟨?_, ?_, ?_, ?_⟩
  · intro x hx
    rw [hall] at hx
    exact h.oneScheme x (List.mem_of_mem_erase hx)
  · rw [hall]
    exact h.sorted.sublist (List.erase_sublist)
  · -- the removed account leaves its own address's entry and the list alike
    intro addr
    rw [byAddrOf_delete, hall, ← List.erase_filter]
    split_ifs with hx
    · subst hx
      exact (h.byAddr_perm removed.Address).erase removed
    · rw [List.erase_of_not_mem (by simp [Ne.symm hx])]
      exact h.byAddr_perm addr
  · intro addr l hl
    exact lookup_dropFromIndex_ne_nil h.nonempty hl

/-- Where `deleteByFile` finds an account with the path, it is `delete` of that account: the
index `sort.Search` stops at holds its first occurrence. -/
theorem AccountCache.deleteByFile_of_found {ac : AccountCache} {path : String} {removed : Account}
    (hfound : ac.all[ac.all.findIdx fun x => decide (x.URL.Path ≥ path)]? = some removed)
    (hpath : removed.URL.Path = path) : ac.deleteByFile path = ac.delete removed := by
  have herase : ac.all.eraseIdx (ac.all.findIdx fun x => decide (x.URL.Path ≥ path)) =
      ac.all.erase removed := eraseIdx_findIdx (by simp [hpath]) hfound
  simp only [AccountCache.deleteByFile, hfound, hpath, if_true, AccountCache.delete,
    removeAccount_eq_erase, herase]

/-- Where it finds none, nothing changes. -/
theorem AccountCache.deleteByFile_of_not_found {ac : AccountCache} {path : String}
    (hnot : ∀ removed, ac.all[ac.all.findIdx fun x => decide (x.URL.Path ≥ path)]? = some removed →
      removed.URL.Path ≠ path) : ac.deleteByFile path = ac := by
  rcases hfound : ac.all[ac.all.findIdx fun x => decide (x.URL.Path ≥ path)]? with _ | removed
  · simp only [AccountCache.deleteByFile, hfound]
  · simp only [AccountCache.deleteByFile, hfound, hnot removed hfound, if_false]

/-- `deleteByFile` keeps the invariant. -/
theorem AccountCache.Inv.deleteByFile {ac : AccountCache} (h : ac.Inv scheme) (path : String) :
    (ac.deleteByFile path).Inv scheme := by
  by_cases hnot : ∀ removed, ac.all[ac.all.findIdx fun x => decide (x.URL.Path ≥ path)]? =
      some removed → removed.URL.Path ≠ path
  · rwa [AccountCache.deleteByFile_of_not_found hnot]
  · simp only [not_forall, not_not] at hnot
    obtain ⟨removed, hfound, hpath⟩ := hnot
    rw [AccountCache.deleteByFile_of_found hfound hpath]
    exact h.delete removed

/-- Every call of a run keeps the invariant. -/
theorem Step.inv {ac ac' : AccountCache} (hstep : Step scheme ac ac') (h : ac.Inv scheme) :
    ac'.Inv scheme := by
  cases hstep with
  | add newAccount hs => exact h.add hs
  | delete removed => exact h.delete removed
  | deleteByFile path => exact h.deleteByFile path

/-- **Every cache a run reaches holds the invariant.** -/
theorem Reachable.inv {keydir : String} {ac : AccountCache} (h : Reachable scheme keydir ac) :
    ac.Inv scheme := by
  induction h with
  | refl => exact inv_newAccountCache keydir
  | tail _ hstep ih => exact hstep.inv ih

end Inv

/-! ### `deleteByFile` and `find` -/

section Lookups

variable {scheme : String} {ac : AccountCache}

/-- Under one scheme the URL order is the path order. -/
theorem path_le_of_urlLE {a b : Account} (ha : a.URL.Scheme = scheme) (hb : b.URL.Scheme = scheme)
    (h : urlLE a b) : a.URL.Path ≤ b.URL.Path := by
  rw [urlLE_iff, URL.key, URL.key, Prod.Lex.toLex_le_toLex, ha, hb] at h
  rcases h with h | ⟨-, h⟩
  · exact absurd h (lt_irrefl _)
  · exact h

/-- When an account has the path, `deleteByFile` takes exactly one account with that path out
of `all`. -/
theorem deleteByFile_removes (h : ac.Inv scheme) {path : String}
    (hex : ∃ x ∈ ac.all, x.URL.Path = path) :
    ∃ removed ∈ ac.all, removed.URL.Path = path ∧ ac.all ~ removed :: (ac.deleteByFile path).all := by
  obtain ⟨x, hx, hxpath⟩ := hex
  set p : Account → Bool := fun x => decide (x.URL.Path ≥ path) with hp
  obtain ⟨k, hk, rfl⟩ := List.getElem_of_mem hx
  -- the first path not below `path` comes no later than `x`, and is not above it
  have hi : ac.all.findIdx p ≤ k := by
    by_contra hlt
    have hfail := List.not_of_lt_findIdx (not_le.mp hlt)
    simp [hp, hxpath] at hfail
  have hilt : ac.all.findIdx p < ac.all.length := lt_of_le_of_lt hi hk
  have hge : ac.all[ac.all.findIdx p].URL.Path ≥ path := by
    simpa [hp] using List.findIdx_getElem (w := hilt)
  have hle : ac.all[ac.all.findIdx p].URL.Path ≤ path := by
    rcases hi.lt_or_eq with hlt | heq
    · rw [← hxpath]
      exact path_le_of_urlLE (h.oneScheme _ (List.getElem_mem _)) (h.oneScheme _ (List.getElem_mem _))
        (List.pairwise_iff_getElem.mp h.sorted _ _ hilt hk hlt)
    · simp only [heq, hxpath, le_refl]
  have hpath : ac.all[ac.all.findIdx p].URL.Path = path := le_antisymm hle hge
  refine ⟨_, List.getElem_mem hilt, hpath, ?_⟩
  rw [AccountCache.deleteByFile_of_found (List.getElem?_eq_getElem hilt) hpath]
  simp only [AccountCache.delete, removeAccount_eq_erase]
  exact List.perm_cons_erase (List.getElem_mem hilt)

variable (filepathJoin : String → String → String)

/-- The accounts `find` searches for a non-zero address are those of `all` with the address. -/
theorem find_matching_perm (h : ac.Inv scheme) (a : Account) :
    ac.byAddrOf a.Address ~ ac.all.filter fun x => x.Address = a.Address :=
  h.byAddr_perm a.Address

/-- `find` for a non-zero address with no account of that address at the URL asked for (no path
given, or none at it): the one account there is, `ErrNoMatch`, or all of them, sorted by URL, in
an `AmbiguousAddrError`. -/
theorem find_of_noURLMatch (h : ac.Inv scheme) {a : Account} (ha : a.Address ≠ Address.zero)
    (hnone : a.URL.Path = "" ∨ ∀ m ∈ ac.all, m.Address = a.Address →
      m.URL ≠ ac.findURL filepathJoin a) :
    (ac.all.filter (fun x => x.Address = a.Address) = [] → ac.find filepathJoin a = .error .ErrNoMatch) ∧
    (∀ m, ac.all.filter (fun x => x.Address = a.Address) = [m] → ac.find filepathJoin a = .ok m) ∧
    (2 ≤ (ac.all.filter fun x => x.Address = a.Address).length →
      ∃ ms, ac.find filepathJoin a = .error (.AmbiguousAddrError a.Address ms) ∧
        ms ~ ac.all.filter (fun x => x.Address = a.Address) ∧ ms.Pairwise urlLE) := by
  have hperm := find_matching_perm h a
  -- with no URL match, `find` falls through to the count of the address's accounts
  have hbyPath : ac.find filepathJoin a =
      match ac.byAddrOf a.Address with
      | [m] => .ok m
      | [] => .error .ErrNoMatch
      | _ => .error (.AmbiguousAddrError a.Address (sortByURL (ac.byAddrOf a.Address))) := by
    unfold AccountCache.find
    rcases hnone with hpath | hnone
    · simp [ha, hpath]
    · have hfind : (ac.byAddrOf a.Address).find? (fun m => decide (m.URL = ac.findURL filepathJoin a)) = none := by
        rw [List.find?_eq_none]
        intro m hm
        have hm' := (List.mem_filter.mp (hperm.subset hm))
        simpa using hnone m hm'.1 (by simpa using hm'.2)
      simp [ha, hfind]
  refine ⟨fun hnil => ?_, fun m hone => ?_, fun htwo => ?_⟩
  · rw [hnil] at hperm
    rw [hbyPath, hperm.eq_nil]
  · rw [hone] at hperm
    rw [hbyPath, hperm.eq_singleton]
  · have hlen := hperm.length_eq ▸ htwo
    refine ⟨sortByURL (ac.byAddrOf a.Address), ?_, (List.mergeSort_perm _ _).trans hperm, ?_⟩
    · rw [hbyPath]
      rcases hmatch : ac.byAddrOf a.Address with _ | ⟨x, _ | ⟨y, rest⟩⟩
      · simp [hmatch] at hlen
      · simp [hmatch] at hlen
      · rfl
    · have hsorted := @List.pairwise_mergeSort _ (fun a b => decide (urlLE a b))
        (fun a b c hab hbc => by simpa using trans_of urlLE (by simpa using hab) (by simpa using hbc))
        (fun a b => by simpa using total_of urlLE a b) (ac.byAddrOf a.Address)
      simpa [sortByURL] using hsorted

/-- `find` for a non-zero address and a path that one of the address's accounts has: that
account, or another of them at the same URL. -/
theorem find_of_URLMatch (h : ac.Inv scheme) {a : Account} (ha : a.Address ≠ Address.zero)
    (hpath : a.URL.Path ≠ "")
    (hm : ∃ m ∈ ac.all, m.Address = a.Address ∧ m.URL = ac.findURL filepathJoin a) :
    ∃ m, ac.find filepathJoin a = .ok m ∧ m ∈ ac.all ∧ m.Address = a.Address ∧
      m.URL = ac.findURL filepathJoin a := by
  have hperm := find_matching_perm h a
  obtain ⟨m, hmem, haddr, hurl⟩ := hm
  -- the address's entry holds `m`, so the search by URL finds one
  have hsome : ((ac.byAddrOf a.Address).find? fun x =>
      decide (x.URL = ac.findURL filepathJoin a)).isSome := by
    rw [List.find?_isSome]
    exact ⟨m, hperm.symm.subset (List.mem_filter.mpr ⟨hmem, by simpa using haddr⟩),
      by simpa using hurl⟩
  obtain ⟨m', hm'⟩ := Option.isSome_iff_exists.mp hsome
  have hmem' := List.mem_filter.mp (hperm.subset (List.mem_of_find?_eq_some hm'))
  refine ⟨m', ?_, hmem'.1, by simpa using hmem'.2, by simpa using List.find?_some hm'⟩
  unfold AccountCache.find
  simp [ha, hpath, hm']

end Lookups

/-- Every sequence of `add`, `delete` and `deleteByFile` calls under one URL scheme keeps `all`
sorted by URL, each address's entry of `byAddr` the accounts of `all` with that address (as a
multiset) and no entry empty; `deleteByFile` then removes exactly one account with the path when
there is one, and `find` for a non-zero address returns the account of that address at the URL
asked for, or else the one account of that address, `ErrNoMatch`, or an `AmbiguousAddrError`
listing exactly the accounts of that address. -/
theorem accountCache_consistent {scheme keydir : String} {ac : AccountCache}
    (hreach : Reachable scheme keydir ac) :
    ac.all.Pairwise urlLE ∧
    (∀ addr, ac.byAddrOf addr ~ ac.all.filter fun x => x.Address = addr) ∧
    (∀ addr l, ac.byAddr.lookup addr = some l → l ≠ []) ∧
    (∀ path, (∃ x ∈ ac.all, x.URL.Path = path) →
      ∃ removed ∈ ac.all, removed.URL.Path = path ∧ ac.all ~ removed :: (ac.deleteByFile path).all) ∧
    (∀ (filepathJoin : String → String → String) (a : Account), a.Address ≠ Address.zero →
      (a.URL.Path ≠ "" → (∃ m ∈ ac.all, m.Address = a.Address ∧ m.URL = ac.findURL filepathJoin a) →
        ∃ m, ac.find filepathJoin a = .ok m ∧ m ∈ ac.all ∧ m.Address = a.Address ∧
          m.URL = ac.findURL filepathJoin a) ∧
      ((a.URL.Path = "" ∨ ∀ m ∈ ac.all, m.Address = a.Address →
          m.URL ≠ ac.findURL filepathJoin a) →
        (ac.all.filter (fun x => x.Address = a.Address) = [] →
          ac.find filepathJoin a = .error .ErrNoMatch) ∧
        (∀ m, ac.all.filter (fun x => x.Address = a.Address) = [m] →
          ac.find filepathJoin a = .ok m) ∧
        (2 ≤ (ac.all.filter fun x => x.Address = a.Address).length →
          ∃ ms, ac.find filepathJoin a = .error (.AmbiguousAddrError a.Address ms) ∧
            ms ~ ac.all.filter (fun x => x.Address = a.Address) ∧ ms.Pairwise urlLE))) := by
  have h := hreach.inv
  refine ⟨h.sorted, h.byAddr_perm, h.nonempty, fun path hex => deleteByFile_removes h hex,
    fun filepathJoin a ha => ⟨fun hpath hm => find_of_URLMatch filepathJoin h ha hpath hm,
      fun hnone => find_of_noURLMatch filepathJoin h ha hnone⟩⟩

/-- Two keys under one directory, the second with a lower path. -/
theorem accountCache_consistent_two_adds :
    let ac := ((newAccountCache "/keys").add ⟨1, ⟨"keystore", "/keys/b"⟩⟩).add
      ⟨2, ⟨"keystore", "/keys/a"⟩⟩
    Reachable "keystore" "/keys" ac ∧
    ac.all.Pairwise urlLE ∧
    (∀ addr, ac.byAddrOf addr ~ ac.all.filter fun x => x.Address = addr) ∧
    (∀ addr l, ac.byAddr.lookup addr = some l → l ≠ []) ∧
    (∀ path, (∃ x ∈ ac.all, x.URL.Path = path) →
      ∃ removed ∈ ac.all, removed.URL.Path = path ∧ ac.all ~ removed :: (ac.deleteByFile path).all) ∧
    (∀ (filepathJoin : String → String → String) (a : Account), a.Address ≠ Address.zero →
      (a.URL.Path ≠ "" → (∃ m ∈ ac.all, m.Address = a.Address ∧ m.URL = ac.findURL filepathJoin a) →
        ∃ m, ac.find filepathJoin a = .ok m ∧ m ∈ ac.all ∧ m.Address = a.Address ∧
          m.URL = ac.findURL filepathJoin a) ∧
      ((a.URL.Path = "" ∨ ∀ m ∈ ac.all, m.Address = a.Address →
          m.URL ≠ ac.findURL filepathJoin a) →
        (ac.all.filter (fun x => x.Address = a.Address) = [] →
          ac.find filepathJoin a = .error .ErrNoMatch) ∧
        (∀ m, ac.all.filter (fun x => x.Address = a.Address) = [m] →
          ac.find filepathJoin a = .ok m) ∧
        (2 ≤ (ac.all.filter fun x => x.Address = a.Address).length →
          ∃ ms, ac.find filepathJoin a = .error (.AmbiguousAddrError a.Address ms) ∧
            ms ~ ac.all.filter (fun x => x.Address = a.Address) ∧ ms.Pairwise urlLE))) :=
  have hreach : Reachable "keystore" "/keys" (((newAccountCache "/keys").add
      ⟨1, ⟨"keystore", "/keys/b"⟩⟩).add ⟨2, ⟨"keystore", "/keys/a"⟩⟩) :=
    .tail (.tail .refl (.add _ _ rfl)) (.add _ _ rfl)
  ⟨hreach, accountCache_consistent hreach⟩

end EpvChain.Keystore
