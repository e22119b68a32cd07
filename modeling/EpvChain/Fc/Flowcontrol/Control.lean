import Mathlib.Data.UInt

/-!
# The light server's flow-control buffer (`fc/flowcontrol/control.go`, `fc/handler.go`)

The server keeps for each client a `ClientNode` whose `bufValue` is the client's buffer: it
recharges by `MinRecharge` per millisecond up to `BufLimit` (`recalcBV`), and each request served
is taken from it (`RequestProcessed`). `handleMsg` serves a request only when `reject` finds the
buffer large enough for its cost, the cost there capped at `BufLimit`.

* `bufValue_recalcBV_le`, `bufValue_requestProcessed_le`: the buffer never passes `BufLimit`.
* `getBlockHeaders_covers`: a request whose cost is within `BufLimit` is served only when the
  buffer covers it, so `RequestProcessed` takes it in full.
* `getBlockHeaders_charges_nothing`: a request whose cost is above `BufLimit` is served from a
  full buffer, and `RequestProcessed`'s `bufValue -= cost` wraps below zero; `recalcBV` then cuts
  the wrapped value to `BufLimit`, so the buffer is full again, and the request cost nothing.

Clock readings are `mclock.AbsTime`, nanoseconds as an `int64`. The client manager's answer to
`processed` (its recharge value of the client) is given where `RequestProcessed` reads it.
-/

namespace EpvChain.Flowcontrol

/-- `fcTimeConst`: one millisecond, in nanoseconds. -/
def fcTimeConst : UInt64 := 1000000

/-- `MaxHeaderFetch`. -/
def MaxHeaderFetch : UInt64 := 192

/-- `ServerParams`. -/
structure ServerParams where
  BufLimit : UInt64
  MinRecharge : UInt64
  deriving DecidableEq, Repr

/-- The light server's `defParams` (`LesServer`, `fc/server.go`). -/
def serverDefParams : ServerParams := ⟨300000000, 50000⟩

/-- The costs of one message code: `requestCosts`. -/
structure RequestCosts where
  baseCost : UInt64
  reqCost : UInt64
  deriving DecidableEq, Repr

/-- `ClientNode`, without its lock and its client manager. -/
structure ClientNode where
  params : ServerParams
  bufValue : UInt64
  lastTime : Int64
  deriving DecidableEq, Repr

namespace ClientNode

/-- `NewClientNode`: a full buffer. -/
def new (params : ServerParams) (now : Int64) : ClientNode := ⟨params, params.BufLimit, now⟩

/-- `recalcBV`: the recharge since `lastTime`, up to `BufLimit`. A clock reading before
`lastTime` recharges nothing. -/
def recalcBV (peer : ClientNode) (time : Int64) : ClientNode :=
  let dt : UInt64 := if time < peer.lastTime then 0 else (time - peer.lastTime).toUInt64
  let bufValue := peer.bufValue + peer.params.MinRecharge * dt / fcTimeConst
  { peer with
    bufValue := if bufValue > peer.params.BufLimit then peer.params.BufLimit else bufValue
    lastTime := time }

/-- `AcceptRequest`, the buffer it returns after `recalcBV`. (`reject` drops its second result,
whether the client manager can start a request now.) -/
def acceptRequest (peer : ClientNode) (time : Int64) : UInt64 × ClientNode :=
  let peer := peer.recalcBV time
  (peer.bufValue, peer)

/-- `RequestProcessed`'s last lines: the buffer raised to `BufLimit - rcValue` when that is more,
`rcValue` being the client manager's recharge value of the client. -/
def raise (peer : ClientNode) (rcValue : UInt64) : ClientNode :=
  if rcValue < peer.params.BufLimit then
    let bv := peer.params.BufLimit - rcValue
    if bv > peer.bufValue then { peer with bufValue := bv } else peer
  else peer

/-- `RequestProcessed`: the cost taken from the buffer, and the raise. -/
def requestProcessed (peer : ClientNode) (cost : UInt64) (time : Int64) (rcValue : UInt64) :
    UInt64 × ClientNode :=
  let peer := peer.recalcBV time
  let peer := ({ peer with bufValue := peer.bufValue - cost }.recalcBV time).raise rcValue
  (peer.bufValue, peer)

end ClientNode

/-- `reject`'s cost: `if cost > BufLimit { cost = BufLimit }`. -/
def capCost (cost limit : UInt64) : UInt64 := if cost > limit then limit else cost

/-- `handleMsg`'s `reject(reqCnt, maxCnt)`: a request is refused with no client node, with too
many items, or when its cost, capped at `BufLimit`, is above the buffer. -/
def reject (fcClient : Option ClientNode) (costs : RequestCosts) (defParams : ServerParams)
    (time : Int64) (reqCnt maxCnt : UInt64) : Bool × Option ClientNode :=
  match fcClient with
  | none => (true, none)
  | some client =>
    if reqCnt > maxCnt then (true, some client)
    else
      let (bufValue, client) := client.acceptRequest time
      let cost := capCost (costs.baseCost + reqCnt * costs.reqCost) defParams.BufLimit
      (cost > bufValue, some client)

/-- `handleMsg` on `GetBlockHeadersMsg`, as it acts on the client's buffer: `reject(query.Amount,
MaxHeaderFetch)` at `t₁`, then, once the headers are read, `RequestProcessed(costs.baseCost +
query.Amount*costs.reqCost)` at `t₂`. `none` is a refused request (`ErrRequestRejected`). -/
def getBlockHeaders (client : ClientNode) (costs : RequestCosts) (defParams : ServerParams)
    (amount : UInt64) (t₁ t₂ : Int64) (rcValue : UInt64) : Option ClientNode :=
  let (refused, client) := reject (some client) costs defParams t₁ amount MaxHeaderFetch
  if refused then none
  else client.map fun c =>
    (c.requestProcessed (costs.baseCost + amount * costs.reqCost) t₂ rcValue).2

namespace ClientNode

variable (peer : ClientNode)

@[simp] theorem params_recalcBV (time : Int64) : (peer.recalcBV time).params = peer.params := rfl

@[simp] theorem params_raise (rcValue : UInt64) : (peer.raise rcValue).params = peer.params := by
  simp only [raise]
  split_ifs <;> rfl

@[simp] theorem params_requestProcessed (cost : UInt64) (time : Int64) (rcValue : UInt64) :
    (peer.requestProcessed cost time rcValue).2.params = peer.params := by
  simp [requestProcessed]

/-- `recalcBV` leaves the buffer at most `BufLimit`. -/
theorem bufValue_recalcBV_le (time : Int64) :
    (peer.recalcBV time).bufValue ≤ peer.params.BufLimit := by
  simp only [recalcBV]
  generalize (if time < peer.lastTime then (0 : UInt64) else (time - peer.lastTime).toUInt64) = dt
  split_ifs with h
  · exact UInt64.le_refl _
  · exact UInt64.not_lt.mp h

/-- The raise is to at most `BufLimit`. -/
theorem bufValue_raise_le (hbuf : peer.bufValue ≤ peer.params.BufLimit) (rcValue : UInt64) :
    (peer.raise rcValue).bufValue ≤ peer.params.BufLimit := by
  simp only [raise]
  split_ifs with hrc
  · have hrc' := UInt64.lt_iff_toNat_lt.mp hrc
    rw [UInt64.le_iff_toNat_le, UInt64.toNat_sub_of_le _ _ (UInt64.le_iff_toNat_le.mpr (by omega))]
    omega
  · exact hbuf
  · exact hbuf

/-- `RequestProcessed` leaves the buffer at most `BufLimit`: the cost taken, even wrapped, is cut
by `recalcBV`, and the raise is to at most `BufLimit`. -/
theorem bufValue_requestProcessed_le (cost : UInt64) (time : Int64) (rcValue : UInt64) :
    (peer.requestProcessed cost time rcValue).2.bufValue ≤ peer.params.BufLimit :=
  bufValue_raise_le _ (bufValue_recalcBV_le _ time) rcValue

/-- What one `recalcBV` adds is below `2^64 / 10^6`: at most `2^64 - 1` nanoseconds' worth. -/
theorem recharge_lt (peer : ClientNode) (dt : UInt64) :
    (peer.params.MinRecharge * dt / fcTimeConst).toNat < 2 ^ 45 := by
  rw [UInt64.toNat_div]
  have := UInt64.toNat_lt (peer.params.MinRecharge * dt)
  have hc : fcTimeConst.toNat = 1000000 := rfl
  rw [hc]
  omega

/-- Below `2^63`, `recalcBV` does not wrap, and so never takes from a buffer within `BufLimit`. -/
theorem bufValue_le_recalcBV (hlim : peer.params.BufLimit.toNat ≤ 2 ^ 63)
    (hbuf : peer.bufValue ≤ peer.params.BufLimit) (time : Int64) :
    peer.bufValue ≤ (peer.recalcBV time).bufValue := by
  have hbuf' := UInt64.le_iff_toNat_le.mp hbuf
  simp only [recalcBV]
  generalize (if time < peer.lastTime then (0 : UInt64) else (time - peer.lastTime).toUInt64) = dt
  have hx := recharge_lt peer dt
  split_ifs with h
  · exact hbuf
  · rw [UInt64.le_iff_toNat_le, UInt64.toNat_add]
    omega

/-- A full buffer below `2^63` stays full through `recalcBV`. -/
theorem recalcBV_full (hlim : peer.params.BufLimit.toNat ≤ 2 ^ 63)
    (hfull : peer.bufValue = peer.params.BufLimit) (time : Int64) :
    (peer.recalcBV time).bufValue = peer.params.BufLimit :=
  UInt64.le_antisymm (peer.bufValue_recalcBV_le time)
    (hfull ▸ peer.bufValue_le_recalcBV hlim (hfull ▸ UInt64.le_refl _) time)

/-- At its own `lastTime`, `recalcBV` recharges nothing and only cuts the buffer to `BufLimit`:
`RequestProcessed`'s second call. -/
theorem bufValue_recalcBV_self {time : Int64} (h : peer.lastTime = time) :
    (peer.recalcBV time).bufValue =
      if peer.bufValue > peer.params.BufLimit then peer.params.BufLimit else peer.bufValue := by
  have h0 : (0 : Int64).toUInt64 = 0 := rfl
  simp [recalcBV, h, h0]

/-- The raise never lowers the buffer. -/
theorem bufValue_le_raise (rcValue : UInt64) : peer.bufValue ≤ (peer.raise rcValue).bufValue := by
  simp only [raise]
  split_ifs with _ hbv
  · exact UInt64.le_of_lt hbv
  · exact UInt64.le_refl _
  · exact UInt64.le_refl _

/-- A full buffer stays full through the raise. -/
theorem bufValue_raise_full (hfull : peer.bufValue = peer.params.BufLimit) (rcValue : UInt64) :
    (peer.raise rcValue).bufValue = peer.params.BufLimit :=
  UInt64.le_antisymm (peer.bufValue_raise_le (hfull ▸ UInt64.le_refl _) rcValue)
    (hfull ▸ peer.bufValue_le_raise rcValue)

end ClientNode

/-! ### What a served request is charged -/

/-- `reject` with a client node and few enough items: the cost, capped at `BufLimit`, against
the buffer after `recalcBV`. -/
theorem reject_some (client : ClientNode) (costs : RequestCosts) (defParams : ServerParams)
    (time : Int64) {reqCnt maxCnt : UInt64} (hcnt : reqCnt ≤ maxCnt) :
    reject (some client) costs defParams time reqCnt maxCnt =
      (decide (capCost (costs.baseCost + reqCnt * costs.reqCost) defParams.BufLimit >
          (client.recalcBV time).bufValue),
        some (client.recalcBV time)) := by
  simp [reject, UInt64.not_lt.mpr hcnt, ClientNode.acceptRequest]

/-- A served request of headers: `reject` let it through at `t₁`, and `RequestProcessed` charged
it at `t₂`. -/
theorem getBlockHeaders_served {client c : ClientNode} {costs : RequestCosts}
    {defParams : ServerParams} {amount : UInt64} {t₁ t₂ : Int64} {rcValue : UInt64}
    (h : getBlockHeaders client costs defParams amount t₁ t₂ rcValue = some c) :
    amount ≤ MaxHeaderFetch ∧
      ¬ capCost (costs.baseCost + amount * costs.reqCost) defParams.BufLimit >
        (client.recalcBV t₁).bufValue ∧
      c = ((client.recalcBV t₁).requestProcessed (costs.baseCost + amount * costs.reqCost) t₂
        rcValue).2 := by
  by_cases hcnt : amount ≤ MaxHeaderFetch
  · simp only [getBlockHeaders, reject_some client costs defParams t₁ hcnt] at h
    split_ifs at h with hrej
    simp only [Option.map_some, Option.some.injEq] at h
    exact ⟨hcnt, fun hp => hrej (decide_eq_true hp), h.symm⟩
  · simp [getBlockHeaders, reject, UInt64.not_le.mp hcnt] at h

/-- A request of headers whose cost is within `BufLimit` is served only when the buffer covers
it: `RequestProcessed` takes the cost from a buffer that holds it. -/
theorem getBlockHeaders_covers {client c : ClientNode} {costs : RequestCosts} {amount : UInt64}
    {t₁ t₂ : Int64} {rcValue : UInt64} (hlim : client.params.BufLimit.toNat ≤ 2 ^ 63)
    (hcost : costs.baseCost + amount * costs.reqCost ≤ client.params.BufLimit)
    (h : getBlockHeaders client costs client.params amount t₁ t₂ rcValue = some c) :
    costs.baseCost + amount * costs.reqCost ≤
      ((client.recalcBV t₁).recalcBV t₂).bufValue := by
  obtain ⟨-, hrej, -⟩ := getBlockHeaders_served h
  rw [capCost, if_neg (UInt64.not_lt.mpr hcost)] at hrej
  -- the buffer only grows from the check to the charge
  have hgrow := (client.recalcBV t₁).bufValue_le_recalcBV hlim
    (client.bufValue_recalcBV_le t₁) t₂
  exact UInt64.le_trans (UInt64.not_lt.mp hrej) hgrow

/-- A request of headers whose cost is above `BufLimit` is served from a full buffer, since
`reject` compares the cost capped at `BufLimit`; `RequestProcessed` then takes the whole cost
from a buffer below it, `bufValue -= cost` wraps, and the buffer ends full: the request is
charged nothing. -/
theorem getBlockHeaders_charges_nothing (client : ClientNode) (costs : RequestCosts)
    (amount : UInt64) (t₁ t₂ : Int64) (rcValue : UInt64)
    (hlim : client.params.BufLimit.toNat ≤ 2 ^ 63)
    (hfull : client.bufValue = client.params.BufLimit)
    (hamount : amount ≤ MaxHeaderFetch)
    (hcost : client.params.BufLimit < costs.baseCost + amount * costs.reqCost) :
    ((client.recalcBV t₁).recalcBV t₂).bufValue < costs.baseCost + amount * costs.reqCost ∧
      ∃ c, getBlockHeaders client costs client.params amount t₁ t₂ rcValue = some c ∧
        c.bufValue = client.params.BufLimit := by
  -- the buffer is full at the check and at the charge
  have h₁ := client.recalcBV_full hlim hfull t₁
  have h₂ := (client.recalcBV t₁).recalcBV_full hlim h₁ t₂
  have hserved : ¬ capCost (costs.baseCost + amount * costs.reqCost) client.params.BufLimit >
      (client.recalcBV t₁).bufValue := by
    rw [capCost, if_pos hcost, h₁]
    exact UInt64.lt_irrefl _
  have hget : getBlockHeaders client costs client.params amount t₁ t₂ rcValue =
      some ((client.recalcBV t₁).requestProcessed (costs.baseCost + amount * costs.reqCost) t₂
        rcValue).2 := by
    simp [getBlockHeaders, reject_some client costs client.params t₁ hamount, hserved]
  refine ⟨h₂ ▸ hcost, _, hget, ?_⟩
  -- `bufValue - cost` wraps to above `BufLimit`, which the second `recalcBV` cuts back
  have hwrap : ((client.recalcBV t₁).recalcBV t₂).bufValue -
      (costs.baseCost + amount * costs.reqCost) > client.params.BufLimit := by
    have hc := UInt64.lt_iff_toNat_lt.mp hcost
    have := UInt64.toNat_lt (costs.baseCost + amount * costs.reqCost)
    rw [gt_iff_lt, UInt64.lt_iff_toNat_lt, UInt64.toNat_sub, h₂]
    rw [Nat.mod_eq_of_lt (by simp only [ClientNode.params_recalcBV]; omega)]
    simp only [ClientNode.params_recalcBV]
    omega
  have hcut := @ClientNode.bufValue_recalcBV_self
    { (client.recalcBV t₁).recalcBV t₂ with
      bufValue := ((client.recalcBV t₁).recalcBV t₂).bufValue -
        (costs.baseCost + amount * costs.reqCost) } t₂ rfl
  rw [if_pos (by exact hwrap)] at hcut
  exact ClientNode.bufValue_raise_full _ hcut rcValue

/-- At the server's `defParams`, with a measured cost of 2000000 a header, a request of 192
headers from a client with a full buffer costs more than `BufLimit`, is served, and leaves the
buffer full. -/
theorem getBlockHeaders_charges_nothing_at_defaults :
    serverDefParams.BufLimit < 150000 + 192 * 2000000 ∧
      (((ClientNode.new serverDefParams 0).recalcBV 0).recalcBV 0).bufValue <
        150000 + 192 * 2000000 ∧
      ∃ c, getBlockHeaders (ClientNode.new serverDefParams 0) ⟨150000, 2000000⟩
        serverDefParams 192 0 0 0 = some c ∧ c.bufValue = serverDefParams.BufLimit :=
  ⟨by decide, getBlockHeaders_charges_nothing (ClientNode.new serverDefParams 0)
    ⟨150000, 2000000⟩ 192 0 0 0 (by decide) rfl (by decide) (by decide)⟩

end EpvChain.Flowcontrol
