import EpvChain.Kernel.Types.Header

/-!
# The block fetcher's announcement bookkeeping

`epv/fetcher/fetcher.go`: an announcement moves through four maps: `announced` (waiting for the
fetch timer), `fetching` (header requested), `fetched` (body to be requested) and `completing`
(body requested). The fetcher counts each peer's announcements in `announces`, refusing the
`hashLimit + 1`-th, and its queued blocks in `queues`.

The loop is modelled turn by turn (`turn`): its top (expire timed-out fetches, import due blocks),
then one `select` case (`Event`). The clock, the chain and the hash functions are the turn's
`Env`; each `rand.Intn` is carried by the event. The maps are association lists in one of Go's
range orders. Requests, imports and hooks are not modelled; an import ends with a `done` event.

* `forgetHash_announces`: `forgetHash` takes one off a peer's count for each announcement of the
  hash it finds.
* `fetchTimer_uncounts`: the fetch timer uncounts an expired announcement through `forgetHash`
  and does not count it again (`AnnouncesExact`, `not_announcesExact_fetchTimer`).
* `announces_negative_run`: one announcement, the fetch timer and a timed-out fetch take the
  peer's count to `-1`.
-/

set_option linter.dupNamespace false

namespace EpvChain.Fetcher

open EpvChain.Types

/-- A peer's ID, the `origin` of what it sends. -/
abbrev Peer := String

/-- `arriveTimeout`, in nanoseconds. -/
def arriveTimeout : Nat := 500 * 10 ^ 6

/-- `gatherSlack`, in nanoseconds. -/
def gatherSlack : Nat := 100 * 10 ^ 6

/-- `fetchTimeout`, in nanoseconds. -/
def fetchTimeout : Nat := 5 * 10 ^ 9

/-- `maxUncleDist`. -/
def maxUncleDist : Nat := 7

/-- `maxQueueDist`. -/
def maxQueueDist : Nat := 32

/-- `hashLimit`. -/
def hashLimit : Nat := 256

/-- `blockLimit`. -/
def blockLimit : Nat := 64

/-- `announce`, less the two request functions: the hash and number announced, the header once
it has arrived, when it arrived, and who announced it. -/
structure Announce where
  hash : Hash
  number : Nat
  header : Option Header
  time : Nat
  origin : Peer
  deriving DecidableEq

/-- `types.Block` as the fetcher handles it: a header, and a body of transactions and uncles. -/
structure Block (τ : Type) where
  header : Header
  transactions : List τ
  uncles : List Header

/-- `inject`: a block and the peer it came from. -/
structure Inject (τ : Type) where
  origin : Peer
  block : Block τ

/-- `headerFilterTask`. -/
structure HeaderFilterTask where
  peer : Peer
  headers : List Header
  time : Nat

/-- `bodyFilterTask`. -/
structure BodyFilterTask (τ : Type) where
  peer : Peer
  transactions : List (List τ)
  uncles : List (List Header)
  time : Nat

/-- What one turn of the loop reads from the rest of the node: the clock, the chain's height
(`chainHeight`), whether the chain has a block (`getBlock(hash) != nil`), the header hash, and
the two hashes of a body, `DeriveSha` of the transactions and `CalcUncleHash` of the uncles. -/
structure Env (τ : Type) where
  now : Nat
  chainHeight : Nat
  hasBlock : Hash → Bool
  hashHeader : Header → Hash
  deriveSha : List τ → Hash
  calcUncleHash : List Header → Hash

/-- The fetcher's maps. A `map[string]int` is a function that is zero off its keys: the code
deletes a count when it falls to zero, and an absent count reads as zero. `queue` is the
priority queue of blocks to import, lowest number first. -/
structure Fetcher (τ : Type) where
  announces : Peer → Int
  announced : AList fun _ : Hash => List Announce
  fetching : AList fun _ : Hash => Announce
  fetched : AList fun _ : Hash => List Announce
  completing : AList fun _ : Hash => Announce
  queue : List (Inject τ)
  queues : Peer → Int
  queued : AList fun _ : Hash => Inject τ

variable {τ : Type}

/-- The maps of a new fetcher (`New`). -/
def New : Fetcher τ where
  announces := fun _ => 0
  announced := ∅
  fetching := ∅
  fetched := ∅
  completing := ∅
  queue := []
  queues := fun _ => 0
  queued := ∅

/-- `m[p]--`, and the delete when the count reaches zero. -/
def decr (m : Peer → Int) (p : Peer) : Peer → Int := Function.update m p (m p - 1)

/-- `f.forgetHash(hash)`: drop every announcement of `hash` from the four maps, taking one off
its peer's count for each. -/
def forgetHash (f : Fetcher τ) (hash : Hash) : Fetcher τ :=
  let f := { f with
    announces :=
      ((f.announced.lookup hash).getD []).foldl (fun m (a : Announce) => decr m a.origin) f.announces
    announced := f.announced.erase hash }
  let f := match f.fetching.lookup hash with
    | some a => { f with announces := decr f.announces a.origin, fetching := f.fetching.erase hash }
    | none => f
  let f := { f with
    announces :=
      ((f.fetched.lookup hash).getD []).foldl (fun m (a : Announce) => decr m a.origin) f.announces
    fetched := f.fetched.erase hash }
  match f.completing.lookup hash with
  | some a => { f with announces := decr f.announces a.origin, completing := f.completing.erase hash }
  | none => f

/-- `f.forgetBlock(hash)`: drop the queued block of `hash` and take one off its peer's count. -/
def forgetBlock (f : Fetcher τ) (hash : Hash) : Fetcher τ :=
  match f.queued.lookup hash with
  | some op => { f with queues := decr f.queues op.origin, queued := f.queued.erase hash }
  | none => f

/-- A number whose distance to the chain's height is outside `[-maxUncleDist, maxQueueDist]`. -/
def tooFar (env : Env τ) (number : Nat) : Bool :=
  let dist : Int := number - env.chainHeight
  decide (dist < -maxUncleDist) || decide (dist > maxQueueDist)

/-- `case notification := <-f.notify`: count and keep the announcement, unless the peer is at
its limit, the number is too far from the chain, or the hash is being fetched already. -/
def notify (env : Env τ) (f : Fetcher τ) (n : Announce) : Fetcher τ :=
  let count := f.announces n.origin + 1
  if count > hashLimit then f
  else if n.number > 0 ∧ tooFar env n.number then f
  else if (f.fetching.lookup n.hash).isSome then f
  else if (f.completing.lookup n.hash).isSome then f
  else { f with
    announces := Function.update f.announces n.origin count
    announced := f.announced.insert n.hash ((f.announced.lookup n.hash).getD [] ++ [n]) }

/-- `f.enqueue(peer, block)`: queue a block for import, unless its peer is at its limit or it is
too far from the chain (then its announcements are forgotten). -/
def enqueue (env : Env τ) (f : Fetcher τ) (peer : Peer) (block : Block τ) : Fetcher τ :=
  let hash := env.hashHeader block.header
  let count := f.queues peer + 1
  if count > blockLimit then forgetHash f hash
  else if tooFar env block.header.number then forgetHash f hash
  else if (f.queued.lookup hash).isSome then f
  else { f with
    queues := Function.update f.queues peer count
    queued := f.queued.insert hash ⟨peer, block⟩
    queue := ⟨peer, block⟩ :: f.queue }

/-- The first block of least number in the queue, and the queue without it: `PopItem`. -/
def popMin : List (Inject τ) → Option (Inject τ × List (Inject τ))
  | [] => none
  | x :: xs =>
    match popMin xs with
    | none => some (x, [])
    | some (m, rest) =>
      if m.block.header.number < x.block.header.number then some (m, x :: rest) else some (x, xs)

/-- The import loop at the top of `loop`: pop blocks until one is above the next height (it is
pushed back); a block too old or known already is forgotten, the others are imported, which ends
later with a `done` event. The queue shrinks at every turn, so its length bounds the turns. -/
def importLoop (env : Env τ) : Nat → Fetcher τ → Fetcher τ
  | 0, f => f
  | fuel + 1, f =>
    match popMin f.queue with
    | none => f
    | some (op, rest) =>
      let f := { f with queue := rest }
      let number := op.block.header.number
      if number > env.chainHeight + 1 then { f with queue := op :: rest }
      else
        let hash := env.hashHeader op.block.header
        if number + maxUncleDist < env.chainHeight ∨ env.hasBlock hash then
          importLoop env fuel (forgetBlock f hash)
        else importLoop env fuel f

/-- The fetch expiry at the top of `loop`: forget every hash whose header fetch is older than
`fetchTimeout`. -/
def expireFetching (env : Env τ) (f : Fetcher τ) : Fetcher τ :=
  f.fetching.entries.foldl (fun f e =>
    if env.now - e.2.time > fetchTimeout then forgetHash f e.1 else f) f

/-- The top of `loop`, before each `select`. -/
def loopTop (env : Env τ) (f : Fetcher τ) : Fetcher τ :=
  let f := expireFetching env f
  importLoop env f.queue.length f

/-- One announcement of the list, at `rand.Intn(len(announces))`. -/
def pickAnnounce (anns : List Announce) (a0 : Announce) (rnd : Nat) : Announce :=
  anns.getD (rnd % anns.length) a0

/-- `case <-fetchTimer.C`: for each hash announced longer ago than `arriveTimeout - gatherSlack`,
pick one announcement, forget the hash, and fetch the header from the picked peer unless the
chain has the block. -/
def fetchTimer (env : Env τ) (f : Fetcher τ) (pick : Hash → Nat) : Fetcher τ :=
  f.announced.entries.foldl (fun f e =>
    match e.2 with
    | [] => f
    | a0 :: rest =>
      if env.now - a0.time > arriveTimeout - gatherSlack then
        let announce := pickAnnounce (a0 :: rest) a0 (pick e.1)
        let f := forgetHash f e.1
        if env.hasBlock e.1 then f else { f with fetching := f.fetching.insert e.1 announce }
      else f) f

/-- `case <-completeTimer.C`: for each hash whose header has arrived, pick one announcement,
forget the hash, and fetch the body from the picked peer unless the chain has the block. -/
def completeTimer (env : Env τ) (f : Fetcher τ) (pick : Hash → Nat) : Fetcher τ :=
  f.fetched.entries.foldl (fun f e =>
    match e.2 with
    | [] => f
    | a0 :: rest =>
      let announce := pickAnnounce (a0 :: rest) a0 (pick e.1)
      let f := forgetHash f e.1
      if env.hasBlock e.1 then f else { f with completing := f.completing.insert e.1 announce }) f

/-- The headers of a header-filter task, one by one: a header that the fetcher asked the peer
for is taken (its announcement gets the header; an empty block is complete at once, another
needs its body), and the others are passed on as `unknown`. -/
def filterHeader (env : Env τ) (peer : Peer) (time : Nat)
    (acc : Fetcher τ × List Header × List Announce × List (Block τ)) (header : Header) :
    Fetcher τ × List Header × List Announce × List (Block τ) :=
  let (f, unknown, incomplete, complete) := acc
  let hash := env.hashHeader header
  match f.fetching.lookup hash with
  | some announce =>
    if announce.origin = peer ∧ (f.fetched.lookup hash).isNone ∧
        (f.completing.lookup hash).isNone ∧ (f.queued.lookup hash).isNone then
      if header.number ≠ announce.number then (forgetHash f hash, unknown, incomplete, complete)
      else if env.hasBlock hash then (forgetHash f hash, unknown, incomplete, complete)
      else
        -- the announcement is updated where it sits, in `fetching`
        let announce := { announce with header := some header, time := time }
        let f := { f with fetching := f.fetching.insert hash announce }
        if header.txHash = env.deriveSha [] ∧ header.uncleHash = env.calcUncleHash [] then
          ({ f with completing := f.completing.insert hash announce }, unknown, incomplete,
            complete ++ [⟨header, [], []⟩])
        else (f, unknown, incomplete ++ [announce], complete)
    else (f, unknown ++ [header], incomplete, complete)
  | none => (f, unknown ++ [header], incomplete, complete)

/-- `case filter := <-f.headerFilter`: filter the headers, move the announcements that need a
body to `fetched`, and queue the empty blocks; the unknown headers go back to the caller. -/
def headerFilter (env : Env τ) (f : Fetcher τ) (task : HeaderFilterTask) :
    Fetcher τ × List Header :=
  let (f, unknown, incomplete, complete) :=
    task.headers.foldl (filterHeader env task.peer task.time) (f, [], [], [])
  let f := incomplete.foldl (fun f announce =>
    match announce.header with
    | none => f
    | some header =>
      let hash := env.hashHeader header
      if (f.completing.lookup hash).isSome then f
      else { f with fetched := f.fetched.insert hash ((f.fetched.lookup hash).getD [] ++ [announce]) })
    f
  let f := complete.foldl (fun f block =>
    match f.completing.lookup (env.hashHeader block.header) with
    | some announce => enqueue env f announce.origin block
    | none => f) f
  (f, unknown)

/-- One body of a body-filter task against the announcements being completed: the blocks it
completes, and whether it matched any (then it is taken out of the task). -/
def matchBody (env : Env τ) (peer : Peer) (txs : List τ) (uncles : List Header)
    (acc : Fetcher τ × List (Block τ) × Bool) (e : Sigma fun _ : Hash => Announce) :
    Fetcher τ × List (Block τ) × Bool :=
  let (f, blocks, _) := acc
  if (f.queued.lookup e.1).isSome then acc
  else
    match e.2.header with
    | none => acc
    | some header =>
      if env.deriveSha txs = header.txHash ∧ env.calcUncleHash uncles = header.uncleHash ∧
          e.2.origin = peer then
        if env.hasBlock e.1 then (forgetHash f e.1, blocks, true)
        else (f, blocks ++ [⟨header, txs, uncles⟩], true)
      else acc

/-- `case filter := <-f.bodyFilter`: complete the blocks whose bodies arrived, queue them, and
hand back the bodies that matched nothing. -/
def bodyFilter (env : Env τ) (f : Fetcher τ) (task : BodyFilterTask τ) :
    Fetcher τ × List (List τ) × List (List Header) :=
  let (f, blocks, keptTxs, keptUncles) :=
    (task.transactions.zip task.uncles).foldl (fun (f, blocks, keptTxs, keptUncles) (txs, uncles) =>
      let (f, blocks, matched) := f.completing.entries.foldl (matchBody env task.peer txs uncles)
        (f, blocks, false)
      if matched then (f, blocks, keptTxs, keptUncles)
      else (f, blocks, keptTxs ++ [txs], keptUncles ++ [uncles])) (f, [], [], [])
  let f := blocks.foldl (fun f block =>
    match f.completing.lookup (env.hashHeader block.header) with
    | some announce => enqueue env f announce.origin block
    | none => f) f
  (f, keptTxs, keptUncles)

/-- The cases of the loop's `select`, each with what it receives. -/
inductive Event (τ : Type) where
  | notify (announce : Announce)
  | inject (origin : Peer) (block : Block τ)
  | done (hash : Hash)
  | fetchTimer (pick : Hash → Nat)
  | completeTimer (pick : Hash → Nat)
  | headerFilter (task : HeaderFilterTask)
  | bodyFilter (task : BodyFilterTask τ)

/-- One `select` case. -/
def handle (env : Env τ) (f : Fetcher τ) : Event τ → Fetcher τ
  | .notify a => notify env f a
  | .inject origin block => enqueue env f origin block
  | .done hash => forgetBlock (forgetHash f hash) hash
  | .fetchTimer pick => fetchTimer env f pick
  | .completeTimer pick => completeTimer env f pick
  | .headerFilter task => (headerFilter env f task).1
  | .bodyFilter task => (bodyFilter env f task).1

/-- One turn of `loop`: its top, then one `select` case. -/
def turn (env : Env τ) (f : Fetcher τ) (ev : Event τ) : Fetcher τ :=
  handle env (loopTop env f) ev

/-! ### The announcement counts -/

/-- Deleting a key a map does not hold leaves the map as it was. -/
theorem alist_erase_of_lookup_eq_none {β : Type} {s : AList fun _ : Hash => β} {k : Hash}
    (h : s.lookup k = none) : s.erase k = s := by
  have hk : k ∉ s.keys := AList.mem_keys.not.mp (AList.lookup_eq_none.mp h)
  exact AList.ext (List.kerase_of_notMem_keys hk)

/-- The announcements of `hash` the fetcher holds, in the four maps. -/
def heldOf (f : Fetcher τ) (hash : Hash) : List Announce :=
  (f.announced.lookup hash).getD [] ++ (f.fetching.lookup hash).toList ++
    (f.fetched.lookup hash).getD [] ++ (f.completing.lookup hash).toList

/-- All the announcements the fetcher holds, map by map. -/
def held (f : Fetcher τ) : List Announce :=
  f.announced.entries.flatMap (·.2) ++ f.fetching.entries.map (·.2) ++
    f.fetched.entries.flatMap (·.2) ++ f.completing.entries.map (·.2)

/-- Each peer's count is the number of its announcements that the fetcher holds. -/
def AnnouncesExact (f : Fetcher τ) : Prop :=
  ∀ p, f.announces p = (held f).countP (·.origin == p)

theorem decr_apply (m : Peer → Int) (q p : Peer) :
    decr m q p = m p - if q = p then 1 else 0 := by
  by_cases h : p = q
  · subst h
    simp [decr]
  · simp [decr, Function.update_of_ne h, Ne.symm h]

/-- Uncounting a list of announcements takes off, from each peer, the number that are its. -/
theorem foldl_decr (l : List Announce) (m : Peer → Int) (p : Peer) :
    l.foldl (fun m (a : Announce) => decr m a.origin) m p = m p - l.countP (·.origin == p) := by
  induction l generalizing m with
  | nil => simp
  | cons a l ih =>
    rw [List.foldl_cons, ih, decr_apply, List.countP_cons]
    by_cases h : a.origin = p
    · simp [h]
      omega
    · simp [h]

/-- `forgetHash` takes one off a peer's count for each announcement of the hash it holds from the
peer, whichever map it is in. -/
theorem forgetHash_announces (f : Fetcher τ) (hash : Hash) (p : Peer) :
    (forgetHash f hash).announces p = f.announces p - (heldOf f hash).countP (·.origin == p) := by
  simp only [heldOf, List.countP_append]
  cases hF : f.fetching.lookup hash <;> cases hC : f.completing.lookup hash <;>
    simp [forgetHash, hF, hC, foldl_decr, decr_apply] <;> omega

section Single

variable (env : Env τ) (f : Fetcher τ) (pick : Hash → Nat) {a : Announce}
  (hann : f.announced.entries = [⟨a.hash, [a]⟩])
  (hexp : arriveTimeout - gatherSlack < env.now - a.time) (hnew : env.hasBlock a.hash = false)
  (hfetching : f.fetching.lookup a.hash = none) (hfetched : f.fetched.lookup a.hash = none)
  (hcompleting : f.completing.lookup a.hash = none)
include hann hexp hnew hfetching hfetched hcompleting

/-- The fetch timer on a fetcher whose only pending announcement is `a`, expired, for a block
the chain does not have and no other map holds: `a` goes from `announced` to `fetching`, and its
peer's count goes down by one. -/
theorem fetchTimer_single :
    fetchTimer env f pick = { f with
      announces := decr f.announces a.origin
      announced := f.announced.erase a.hash
      fetching := f.fetching.insert a.hash a } := by
  have hlookup : f.announced.lookup a.hash = some [a] := by
    rw [AList.lookup, hann]
    simp
  have hft : fetchTimer env f pick =
      { forgetHash f a.hash with fetching := (forgetHash f a.hash).fetching.insert a.hash a } := by
    simp [fetchTimer, hann, hexp, hnew, pickAnnounce]
  -- `forgetHash` finds `a` in `announced` and nothing in the other three maps
  have hforget : forgetHash f a.hash = { f with
      announces := decr f.announces a.origin, announced := f.announced.erase a.hash } := by
    simp [forgetHash, hlookup, hfetching, hcompleting, hfetched,
      alist_erase_of_lookup_eq_none hfetched]
  rw [hft, hforget]

/-- So the fetcher holds the same announcements as before, but `forgetHash` has taken `a` off
its peer's count and nothing counts it again. -/
theorem fetchTimer_uncounts :
    (fetchTimer env f pick).announces a.origin = f.announces a.origin - 1 ∧
      held (fetchTimer env f pick) = held f := by
  have hfetch' : (f.fetching.insert a.hash a).entries = ⟨a.hash, a⟩ :: f.fetching.entries := by
    rw [AList.entries_insert, List.kerase_of_notMem_keys
      (AList.mem_keys.not.mp (AList.lookup_eq_none.mp hfetching))]
  have hempty : (f.announced.erase a.hash).entries = [] := by
    change f.announced.entries.kerase a.hash = []
    rw [hann]
    exact List.kerase_cons_eq rfl
  rw [fetchTimer_single env f pick hann hexp hnew hfetching hfetched hcompleting]
  refine ⟨by simp [decr], ?_⟩
  simp only [held, hfetch', hann, hempty]
  simp

/-- Exact counts before the fetch timer are not exact after it. -/
theorem not_announcesExact_fetchTimer (h : AnnouncesExact f) :
    ¬ AnnouncesExact (fetchTimer env f pick) := by
  intro h'
  obtain ⟨hcount, hheld⟩ :=
    fetchTimer_uncounts env f pick hann hexp hnew hfetching hfetched hcompleting
  have := h' a.origin
  rw [hcount, hheld, h a.origin] at this
  omega

end Single

/-- What `forgetHash` leaves of the hash: nothing, in any of the four maps. -/
theorem heldOf_forgetHash (f : Fetcher τ) (hash : Hash) : heldOf (forgetHash f hash) hash = [] := by
  cases hF : f.fetching.lookup hash <;> cases hC : f.completing.lookup hash <;>
    simp [heldOf, forgetHash, hF, hC, AList.lookup_erase]

theorem forgetHash_queue (f : Fetcher τ) (hash : Hash) : (forgetHash f hash).queue = f.queue := by
  cases hF : f.fetching.lookup hash <;> cases hC : f.completing.lookup hash <;>
    simp [forgetHash, hF, hC]

theorem forgetBlock_announces (f : Fetcher τ) (hash : Hash) :
    (forgetBlock f hash).announces = f.announces := by
  unfold forgetBlock
  split <;> rfl

theorem importLoop_of_queue_nil (env : Env τ) (n : Nat) {f : Fetcher τ} (h : f.queue = []) :
    importLoop env n f = f := by
  cases n with
  | zero => rfl
  | succ n => simp [importLoop, h, popMin]

/-- With no header fetch and no queued block, the top of the loop does nothing. -/
theorem loopTop_of_empty (env : Env τ) {f : Fetcher τ} (hf : f.fetching.entries = [])
    (hq : f.queue = []) : loopTop env f = f := by
  have he : expireFetching env f = f := by simp [expireFetching, hf]
  rw [loopTop, he, importLoop_of_queue_nil env _ hq]

/-- From a new fetcher: a peer announces a block, the fetch timer sends for its header, and the
fetch times out at the top of the next turn. The announcement is uncounted twice, once by each
`forgetHash`, so the peer's count ends at `-1`, below zero, and the `hashLimit` check then lets
the peer hold one announcement more than the limit. -/
theorem announces_negative_run (env₀ env₁ env₂ : Env τ) (pick : Hash → Nat) (a : Announce)
    (hnum : a.number = 0 ∨ tooFar env₀ a.number = false)
    (hexp₁ : arriveTimeout - gatherSlack < env₁.now - a.time)
    (hnew : env₁.hasBlock a.hash = false) (hexp₂ : fetchTimeout < env₂.now - a.time) :
    (turn env₂ (turn env₁ (turn env₀ New (.notify a)) (.fetchTimer pick)) (.done a.hash)).announces
      a.origin = -1 := by
  -- the first turn counts the announcement
  set f₁ : Fetcher τ := { New with
    announces := Function.update (fun _ => 0) a.origin 1
    announced := (∅ : AList fun _ : Hash => List Announce).insert a.hash [a] } with hf₁
  have hturn₁ : turn env₀ New (.notify a) = f₁ := by
    rw [turn, loopTop_of_empty env₀ rfl rfl]
    have hfar : ¬ (a.number > 0 ∧ tooFar env₀ a.number = true) := by
      rcases hnum with h | h <;> simp [h]
    simp [handle, notify, hfar, hashLimit, New, hf₁]
  -- the second sends for the header and uncounts it
  have hturn₂ : turn env₁ f₁ (.fetchTimer pick) = { f₁ with
      announces := decr f₁.announces a.origin
      announced := f₁.announced.erase a.hash
      fetching := f₁.fetching.insert a.hash a } := by
    rw [turn, loopTop_of_empty env₁ rfl rfl]
    exact fetchTimer_single env₁ f₁ pick rfl hexp₁ hnew rfl rfl rfl
  rw [hturn₁, hturn₂]
  set f₂ : Fetcher τ := { f₁ with
      announces := decr f₁.announces a.origin
      announced := f₁.announced.erase a.hash
      fetching := f₁.fetching.insert a.hash a } with hf₂
  -- the third expires the fetch, uncounting it again, and then finds nothing left to forget
  have hexpire : expireFetching env₂ f₂ = forgetHash f₂ a.hash := by
    have hentries : f₂.fetching.entries = [⟨a.hash, a⟩] := rfl
    simp [expireFetching, hentries, hexp₂]
  have hsingle :
      (AList.singleton (β := fun _ : Hash => Announce) a.hash a).lookup a.hash = some a := by
    simp [AList.lookup, AList.singleton_entries]
  have hheld : heldOf f₂ a.hash = [a] := by
    simp [heldOf, hf₂, hf₁, New, AList.lookup_erase, hsingle]
  have hcount : (forgetHash f₂ a.hash).announces a.origin = -1 := by
    rw [forgetHash_announces, hheld]
    simp [hf₂, hf₁, decr]
  have htop : loopTop env₂ f₂ = forgetHash f₂ a.hash := by
    rw [loopTop, hexpire]
    exact importLoop_of_queue_nil env₂ _ (by simp [forgetHash_queue, hf₂, hf₁, New])
  rw [turn, htop, handle, forgetBlock_announces, forgetHash_announces, heldOf_forgetHash]
  simpa using hcount

/-- Peer `"p"` announces block `0` at time zero; the fetch timer fires half a second later and
the next turn comes six seconds later. -/
theorem announces_negative_run_at :
    (turn (⟨6 * 10 ^ 9, 0, fun _ => false, fun _ => 0, fun _ => 0, fun _ => 0⟩ : Env Unit)
      (turn ⟨5 * 10 ^ 8, 0, fun _ => false, fun _ => 0, fun _ => 0, fun _ => 0⟩
        (turn ⟨0, 0, fun _ => false, fun _ => 0, fun _ => 0, fun _ => 0⟩ New
          (.notify ⟨0, 0, none, 0, "p"⟩)) (.fetchTimer fun _ => 0)) (.done 0)).announces "p" =
      -1 :=
  announces_negative_run _ _ _ _ ⟨0, 0, none, 0, "p"⟩ (Or.inl rfl) (by decide) rfl (by decide)

end EpvChain.Fetcher
