import EpvChain.Kernel.Types.Block
import EpvChain.Lib.GoSlice

/-!
# The downloader's fetch queue

`epv/downloader/queue.go`: once a sync's headers are known, the queue hands the fetching of
bodies, and in fast sync receipts, to peers and assembles the results in block order. Each
component (`Component`: `block`, `receipt`) has a task pool and task queue (headers to fetch), a
pending pool (one request per peer) and a done pool. A result slot per block (`resultCache`, by
number less `resultOffset`) counts the components still to fetch in `Pending`; `Results` hands
out the front slots whose count is zero.

The task queue (`prque.Prque` by block number) is a list and `popItem` takes the lowest number,
first pushed on ties. The pending pool is an association list in one of Go's range orders. The
clock is an input (`now`). Not modelled: the header skeleton, the memory estimate `resultSize`
(its slot limit is an input of a reservation), the peers' lacking sets and the metrics. A call
that returns `errInvalidChain` returns no queue. `CancelBodies` and `CancelReceipts` are modelled;
`fetchParts` never calls the `cancel` it is handed, so they are not steps of a run.
-/

namespace EpvChain.Downloader

open EpvChain.Types EpvChain.Lib

/-- `SyncMode`. -/
inductive SyncMode where
  | FullSync
  | FastSync
  | LightSync
  deriving DecidableEq, Repr

/-- `blockCacheItems`: the result slots of a queue. -/
def blockCacheItems : Nat := 8192

/-- `maxResultsProcess`: the most results one `Results` call hands out. -/
def maxResultsProcess : Nat := 2048

/-- The hash functions the queue reads: `header.Hash()`, `DeriveSha` and `EmptyRootHash`,
`CalcUncleHash` and `EmptyUncleHash`. -/
structure Hashes (τ : Type) where
  hashing : Hashing τ
  hashHeader : Header → Hash
  calcUncleHash : List Header → Hash
  emptyUncleHash : Hash

/-- The errors of the queue's calls. `partialFailure e` is `fmt.Errorf("partial failure: %v", e)`. -/
inductive QueueError where
  | errNoFetchesPending
  | errStaleDelivery
  | errInvalidChain
  | errInvalidBody
  | errInvalidReceipt
  | partialFailure (e : QueueError)
  deriving DecidableEq, Repr

/-- `fetchRequest` of a body or receipt fetch: the peer's ID, the headers asked for, and when. -/
structure FetchRequest where
  Peer : String
  Headers : List Header
  Time : Nat
  deriving DecidableEq, Repr

/-- `fetchResult`: the components still to fetch, and the block as fetched so far. -/
structure FetchResult (τ : Type) where
  Pending : Int
  Hash : Hash
  Header : Header
  Uncles : List Types.Header
  Transactions : List τ
  Receipts : List Receipt

/-- One component's pools: `blockTaskPool`, `blockTaskQueue`, `blockPendPool` and
`blockDonePool`, or the four `receipt` ones. A done pool is a set of hashes. -/
structure Component where
  taskPool : Hash → Option Header
  taskQueue : List Header
  pendPool : AList fun _ : String => FetchRequest
  donePool : Hash → Bool

/-- The queue's state for the body and receipt fetches. -/
structure Queue (τ : Type) where
  mode : SyncMode
  headerHead : Hash
  block : Component
  receipt : Component
  resultCache : List (Option (FetchResult τ))
  resultOffset : UInt64
  closed : Bool

variable {τ : Type}

/-- A component with nothing in it. -/
def Component.empty : Component where
  taskPool := fun _ => none
  taskQueue := []
  pendPool := ∅
  donePool := fun _ => false

/-- `newQueue()`: no headers, `blockCacheItems` empty slots, full sync (the zero mode). -/
def newQueue : Queue τ where
  mode := .FullSync
  headerHead := 0
  block := .empty
  receipt := .empty
  resultCache := List.replicate blockCacheItems none
  resultOffset := 0
  closed := false

/-- `q.Prepare(offset, mode)`: raise the result offset to `offset`, and set the mode. -/
def Queue.Prepare (q : Queue τ) (offset : UInt64) (mode : SyncMode) : Queue τ :=
  { q with resultOffset := if q.resultOffset < offset then offset else q.resultOffset, mode }

/-! ### The task queue -/

/-- `taskQueue.PopItem()`: the header of the lowest number, the first of them pushed. -/
def popItem : List Header → Option (Header × List Header)
  | [] => none
  | h :: t =>
    match popItem t with
    | none => some (h, [])
    | some (m, rest) => if m.number < h.number then some (m, h :: rest) else some (h, t)

theorem popItem_cons_ne_none (z : Header) (t : List Header) : popItem (z :: t) ≠ none := by
  simp only [popItem]
  split
  · exact Option.some_ne_none _
  · split <;> exact Option.some_ne_none _

theorem popItem_eq_none {l : List Header} : popItem l = none ↔ l = [] := by
  cases l with
  | nil => exact ⟨fun _ => rfl, fun _ => rfl⟩
  | cons z t => exact ⟨fun h => absurd h (popItem_cons_ne_none z t), fun h => by cases h⟩

/-- The header `popItem` takes is one of the queue, and what it leaves is the rest. -/
theorem perm_of_popItem {l rest : List Header} {x : Header} (h : popItem l = some (x, rest)) :
    l.Perm (x :: rest) := by
  induction l generalizing x rest with
  | nil => cases h
  | cons y t ih =>
    simp only [popItem] at h
    split at h
    · -- the tail is empty, and the head is taken
      rename_i hnone
      cases h
      rw [Iff.mp popItem_eq_none hnone]
    · rename_i m r hsome
      split at h
      · cases h
        exact ((ih hsome).cons y).trans (.swap x y r)
      · cases h
        exact .refl _

/-- The header `popItem` takes has the lowest number of the queue. -/
theorem popItem_le {l rest : List Header} {x : Header} (h : popItem l = some (x, rest)) :
    ∀ y ∈ rest, x.number ≤ y.number := by
  induction l generalizing x rest with
  | nil => cases h
  | cons y t ih =>
    simp only [popItem] at h
    split at h
    · cases h
      intro z hz
      cases hz
    · rename_i m r hsome
      split at h
      · rename_i hlt
        cases h
        intro z hz
        rcases List.mem_cons.mp hz with rfl | hz
        · omega
        · exact ih hsome z hz
      · rename_i hge
        cases h
        intro z hz
        -- the rest is the tail, whose lowest is `m`
        rcases List.mem_cons.mp ((perm_of_popItem hsome).subset hz) with rfl | hz'
        · omega
        · have hmz := ih hsome z hz'
          omega

/-! ### Schedule -/

/-- Put a header in a component's task pool and task queue. -/
def Component.schedule (c : Component) (hash : Hash) (header : Header) : Component :=
  { c with
    taskPool := Function.update c.taskPool hash (some header)
    taskQueue := c.taskQueue ++ [header] }

/-- The loop of `Schedule`: the headers scheduled so far, and the number expected next. -/
def scheduleLoop (H : Hashes τ) : List Header → UInt64 → List Header → Queue τ →
    List Header × Queue τ
  | [], _, inserts, q => (inserts, q)
  | header :: rest, «from», inserts, q =>
    let hash := H.hashHeader header
    -- a header out of order or off the chain ends the batch
    if header.numberU64 ≠ «from» then (inserts, q)
    else if q.headerHead ≠ 0 ∧ q.headerHead ≠ header.parentHash then (inserts, q)
    -- one already scheduled is passed over
    else if (q.block.taskPool hash).isSome then scheduleLoop H rest «from» inserts q
    else if (q.receipt.taskPool hash).isSome then scheduleLoop H rest «from» inserts q
    else
      let q := { q with block := q.block.schedule hash header }
      let q := if q.mode = .FastSync then { q with receipt := q.receipt.schedule hash header } else q
      scheduleLoop H rest («from» + 1) (inserts ++ [header]) { q with headerHead := hash }

/-- `q.Schedule(headers, from)`: schedule the fetches of a batch of headers, numbered from
`from`, and return those scheduled. -/
def Queue.Schedule (H : Hashes τ) (q : Queue τ) (headers : List Header) («from» : UInt64) :
    List Header × Queue τ :=
  scheduleLoop H headers «from» [] q

/-! ### Reservation -/

/-- `int(header.Number.Int64() - int64(q.resultOffset))`: a header's result slot. -/
def resultIndex (header : Header) (resultOffset : UInt64) : Int :=
  (Int64.ofNat header.number - resultOffset.toInt64).toInt

/-- The components a block has to fetch: its body, and in fast sync its receipts. -/
def components (mode : SyncMode) : Int := if mode = .FastSync then 2 else 1

/-- `q.resultSlots(pendPool, donePool)`: of the first `limit` slots, those neither fetched nor
asked for. `limit` is `len(q.resultCache)`, or less when the results are estimated too large. -/
def Queue.resultSlots (q : Queue τ) (limit : Nat) (c : Component) : Int :=
  let finished :=
    ((q.resultCache.take limit).takeWhile Option.isSome).countP fun r =>
      match r with
      | some r => c.donePool r.Hash
      | none => false
  let pending := (c.pendPool.entries.map fun e =>
    e.2.Headers.countP fun h => h.numberU64 < q.resultOffset + limit.toUInt64).sum
  limit - finished - pending

/-- The locals of `reserveHeaders`' loop. -/
structure Reserve where
  space : Int
  proc : Int
  send : List Header
  skip : List Header
  progress : Bool

/-- `reserveHeaders`' loop: pop headers while slots remain, fewer than `count` are to be sent,
and the task queue is not empty. A header makes its result slot if it has none; a header with
nothing to fetch is done at once and takes a slot but no turn; one that the peer lacks is
skipped. At most one turn per header of the task queue, which each turn pops. -/
def reserveLoop (H : Hashes τ) (resultOffset : UInt64) (components : Int) (lacks : Hash → Bool)
    (isNoop : Header → Bool) (count : Nat) :
    Nat → Reserve → Component → List (Option (FetchResult τ)) →
      Except QueueError (Reserve × Component × List (Option (FetchResult τ)))
  | 0, r, c, cache => .ok (r, c, cache)
  | fuel + 1, r, c, cache =>
    if r.proc < r.space ∧ r.send.length < count then
      match popItem c.taskQueue with
      | none => .ok (r, c, cache)
      | some (header, rest) =>
        let c := { c with taskQueue := rest }
        let hash := H.hashHeader header
        let index := resultIndex header resultOffset
        if index ≥ cache.length ∨ index < 0 then .error .errInvalidChain
        else
          let result := (cache.getD index.toNat none).getD
            { Pending := components, Hash := hash, Header := header, Uncles := [],
              Transactions := [], Receipts := [] }
          if isNoop header then
            let c := { c with
              donePool := Function.update c.donePool hash true
              taskPool := Function.update c.taskPool hash none }
            let cache := cache.set index.toNat (some { result with Pending := result.Pending - 1 })
            reserveLoop H resultOffset components lacks isNoop count fuel
              { r with space := r.space - 1, progress := true } c cache
          else
            let cache := cache.set index.toNat (some result)
            let r := if lacks hash then { r with skip := r.skip ++ [header] }
              else { r with send := r.send ++ [header] }
            reserveLoop H resultOffset components lacks isNoop count fuel
              { r with proc := r.proc + 1 } c cache
    else .ok (r, c, cache)

/-- `q.reserveHeaders(p, count, …)`: reserve up to `count` headers of a component for the peer
`id`, which lacks the hashes `lacks`; the skipped headers go back to the task queue. Returns
the request, if any, whether some header was done at once, and the component and result slots. -/
def Queue.reserveHeaders (H : Hashes τ) (q : Queue τ) (c : Component) (id : String)
    (lacks : Hash → Bool) (count limit now : Nat) (isNoop : Header → Bool) :
    Except QueueError
      (Option FetchRequest × Bool × Component × List (Option (FetchResult τ))) :=
  if c.taskQueue.isEmpty then .ok (none, false, c, q.resultCache)
  else if (c.pendPool.lookup id).isSome then .ok (none, false, c, q.resultCache)
  else do
    let (r, c, cache) ← reserveLoop H q.resultOffset (components q.mode) lacks isNoop count
      c.taskQueue.length ⟨q.resultSlots limit c, 0, [], [], false⟩ c q.resultCache
    let c := { c with taskQueue := c.taskQueue ++ r.skip }
    if r.send.isEmpty then .ok (none, r.progress, c, cache)
    else
      let request : FetchRequest := ⟨id, r.send, now⟩
      .ok (some request, r.progress, { c with pendPool := c.pendPool.insert id request }, cache)

/-- `q.ReserveBodies(p, count)`; a header with no transactions and no uncles has no body to
fetch. -/
def Queue.ReserveBodies (H : Hashes τ) (q : Queue τ) (id : String) (lacks : Hash → Bool)
    (count limit now : Nat) : Except QueueError (Option FetchRequest × Bool × Queue τ) := do
  let isNoop header :=
    decide (header.txHash = H.hashing.emptyRootHash ∧ header.uncleHash = H.emptyUncleHash)
  let (request, progress, c, cache) ← q.reserveHeaders H q.block id lacks count limit now isNoop
  .ok (request, progress, { q with block := c, resultCache := cache })

/-- `q.ReserveReceipts(p, count)`; a header with the empty receipt root has no receipts to
fetch. -/
def Queue.ReserveReceipts (H : Hashes τ) (q : Queue τ) (id : String) (lacks : Hash → Bool)
    (count limit now : Nat) : Except QueueError (Option FetchRequest × Bool × Queue τ) := do
  let isNoop header := decide (header.receiptHash = H.hashing.emptyRootHash)
  let (request, progress, c, cache) ← q.reserveHeaders H q.receipt id lacks count limit now isNoop
  .ok (request, progress, { q with receipt := c, resultCache := cache })

/-! ### Cancel, revoke, expire -/

/-- `q.cancel(request, taskQueue, pendPool)`: return the request's headers to the task queue
and drop the peer's request. -/
def Component.cancel (c : Component) (request : FetchRequest) : Component :=
  { c with
    taskQueue := c.taskQueue ++ request.Headers
    pendPool := c.pendPool.erase request.Peer }

/-- `q.CancelBodies(request)`. -/
def Queue.CancelBodies (q : Queue τ) (request : FetchRequest) : Queue τ :=
  { q with block := q.block.cancel request }

/-- `q.CancelReceipts(request)`. -/
def Queue.CancelReceipts (q : Queue τ) (request : FetchRequest) : Queue τ :=
  { q with receipt := q.receipt.cancel request }

/-- The `Revoke` of one component: if the peer has a request, return its headers to the task
queue and drop it. -/
def Component.revoke (c : Component) (peerId : String) : Component :=
  match c.pendPool.lookup peerId with
  | some request =>
    { c with
      taskQueue := c.taskQueue ++ request.Headers
      pendPool := c.pendPool.erase peerId }
  | none => c

/-- `q.Revoke(peerId)`: revoke the peer's body request, then its receipt request. -/
def Queue.Revoke (q : Queue τ) (peerId : String) : Queue τ :=
  { q with block := q.block.revoke peerId, receipt := q.receipt.revoke peerId }

/-- The requests of a pending pool that have been out longer than `timeout`. -/
def expired (now timeout : Nat) (pendPool : AList fun _ : String => FetchRequest) :
    List (Sigma fun _ : String => FetchRequest) :=
  pendPool.entries.filter fun e => timeout < now - e.2.Time

/-- `q.expire(timeout, pendPool, taskQueue, …)`: return the headers of every request that timed
out to the task queue, and drop the requests; the result maps each such peer to the number of
its headers. -/
def Component.expire (c : Component) (now timeout : Nat) : List (String × Nat) × Component :=
  let exp := expired now timeout c.pendPool
  let expiries := exp.map fun e => (e.1, e.2.Headers.length)
  (expiries,
    { c with
      taskQueue := exp.foldl (fun tq e => tq ++ e.2.Headers) c.taskQueue
      pendPool := expiries.foldl (fun pp e => pp.erase e.1) c.pendPool })

/-- `q.ExpireBodies(timeout)`. -/
def Queue.ExpireBodies (q : Queue τ) (now timeout : Nat) : List (String × Nat) × Queue τ :=
  let (expiries, c) := q.block.expire now timeout
  (expiries, { q with block := c })

/-- `q.ExpireReceipts(timeout)`. -/
def Queue.ExpireReceipts (q : Queue τ) (now timeout : Nat) : List (String × Nat) × Queue τ :=
  let (expiries, c) := q.receipt.expire now timeout
  (expiries, { q with receipt := c })

/-! ### Delivery -/

/-- `deliver`'s loop over the request's headers: accept them in order, up to the number of
results delivered, until one has no result slot or does not match its result. Each accepted
header is done, and its slot has one component less to fetch. A panic of `reconstruct` ends the
call. Returns the number accepted and why the loop stopped early, if it did. -/
def deliverLoop (H : Hashes τ) (resultOffset : UInt64) (results : Nat)
    (reconstruct : Header → Nat → FetchResult τ →
      Except RuntimePanic (Except QueueError (FetchResult τ))) :
    List Header → Nat → Nat → Component → List (Option (FetchResult τ)) →
      Except RuntimePanic (Nat × Option QueueError × Component × List (Option (FetchResult τ)))
  | [], _, accepted, c, cache => .ok (accepted, none, c, cache)
  | header :: rest, i, accepted, c, cache =>
    if i ≥ results then .ok (accepted, none, c, cache)
    else
      let index := resultIndex header resultOffset
      if index ≥ cache.length ∨ index < 0 then .ok (accepted, some .errInvalidChain, c, cache)
      else
        match cache.getD index.toNat none with
        | none => .ok (accepted, some .errInvalidChain, c, cache)
        | some result =>
          match reconstruct header i result with
          | .error p => .error p
          | .ok (.error e) => .ok (accepted, some e, c, cache)
          | .ok (.ok result) =>
            let hash := H.hashHeader header
            deliverLoop H resultOffset results reconstruct rest (i + 1) (accepted + 1)
              { c with
                donePool := Function.update c.donePool hash true
                taskPool := Function.update c.taskPool hash none }
              (cache.set index.toNat (some { result with Pending := result.Pending - 1 }))

/-- `q.deliver(id, …, results, reconstruct)`: take the peer's request out of the pending pool,
accept what matches, and return the rest of its headers to the task queue. -/
def Queue.deliver (H : Hashes τ) (q : Queue τ) (c : Component) (id : String) (results : Nat)
    (reconstruct : Header → Nat → FetchResult τ →
      Except RuntimePanic (Except QueueError (FetchResult τ))) :
    Except RuntimePanic
      ((Nat × Option QueueError) × Component × List (Option (FetchResult τ))) :=
  match c.pendPool.lookup id with
  | none => .ok ((0, some .errNoFetchesPending), c, q.resultCache)
  | some request => do
    let c := { c with pendPool := c.pendPool.erase id }
    let (accepted, failure, c, cache) ←
      deliverLoop H q.resultOffset results reconstruct request.Headers 0 0 c q.resultCache
    let c := { c with taskQueue := c.taskQueue ++ request.Headers.drop accepted }
    let err : Option QueueError := match failure with
      | none => none
      | some .errInvalidChain => some .errInvalidChain
      | some e => if 0 < accepted then some (.partialFailure e) else some .errStaleDelivery
    .ok ((accepted, err), c, cache)

/-- `q.DeliverBodies(id, txLists, uncleLists)`: a body matches its header when its
transactions and uncles hash to the header's roots. -/
def Queue.DeliverBodies (H : Hashes τ) (q : Queue τ) (id : String) (txLists : List (List τ))
    (uncleLists : List (List Header)) :
    Except RuntimePanic ((Nat × Option QueueError) × Queue τ) := do
  let reconstruct (header : Header) (index : Nat) (result : FetchResult τ) :
      Except RuntimePanic (Except QueueError (FetchResult τ)) := do
    let txs ← goIndex txLists index
    -- the uncle list is read only when the transactions match
    if H.hashing.deriveSha H.hashing.encodeTx txs ≠ header.txHash then return .error .errInvalidBody
    let uncles ← goIndex uncleLists index
    if H.calcUncleHash uncles ≠ header.uncleHash then return .error .errInvalidBody
    return .ok { result with Transactions := txs, Uncles := uncles }
  let (ret, c, cache) ← q.deliver H q.block id txLists.length reconstruct
  return (ret, { q with block := c, resultCache := cache })

/-- `q.DeliverReceipts(id, receiptList)`. -/
def Queue.DeliverReceipts (H : Hashes τ) (q : Queue τ) (id : String)
    (receiptList : List (List Receipt)) :
    Except RuntimePanic ((Nat × Option QueueError) × Queue τ) := do
  let reconstruct (header : Header) (index : Nat) (result : FetchResult τ) :
      Except RuntimePanic (Except QueueError (FetchResult τ)) := do
    let receipts ← goIndex receiptList index
    if H.hashing.deriveSha H.hashing.encodeReceipt receipts ≠ header.receiptHash then
      return .error .errInvalidReceipt
    return .ok { result with Receipts := receipts }
  let (ret, c, cache) ← q.deliver H q.receipt id receiptList.length reconstruct
  return (ret, { q with receipt := c, resultCache := cache })

/-! ### Results -/

/-- `q.countProcessableItems()`: the slots at the front whose block has nothing left to fetch. -/
def countProcessableItems (cache : List (Option (FetchResult τ))) : Nat :=
  (cache.takeWhile fun r =>
    match r with
    | some r => decide (r.Pending ≤ 0)
    | none => false).length

/-- `q.Results(false)`: hand out the processable results at the front, at most
`maxResultsProcess`, forget their hashes in the done pools and shift the slots. When there is
none and the queue is open, the call returns nothing; `Results(true)` waits instead. -/
def Queue.Results (H : Hashes τ) (q : Queue τ) : List (FetchResult τ) × Queue τ :=
  let nproc := countProcessableItems q.resultCache
  if nproc = 0 ∧ q.closed = false then ([], q)
  else
    let nproc := min nproc maxResultsProcess
    let results := (q.resultCache.take nproc).filterMap id
    if results.isEmpty then ([], q)
    else
      let forget (pool : Hash → Bool) : Hash → Bool :=
        results.foldl (fun pool r => Function.update pool (H.hashHeader r.Header) false) pool
      (results,
        { q with
          block := { q.block with donePool := forget q.block.donePool }
          receipt := { q.receipt with donePool := forget q.receipt.donePool }
          resultCache := q.resultCache.drop nproc ++ List.replicate nproc none
          resultOffset := q.resultOffset + nproc.toUInt64 })

/-- `q.Close()`: after it, `Results` no longer waits for a result that is not there. -/
def Queue.Close (q : Queue τ) : Queue τ := { q with closed := true }

end EpvChain.Downloader
