import EpvChain.Epv.Downloader.Queue

/-!
# The common-ancestor search (`epv/downloader/downloader.go`, `findAncestor`)

Before a sync the downloader looks for the newest block it shares with the peer: it asks for
every sixteenth header of a window ending at the lower head and takes the newest it knows; when it
knows none, it bisects between the fork allowance `floor` (or zero) and that head.

The run is a function of what the loop receives: `Reply` is the event that ends a wait (cancel,
timeout, or the peer's headers). The local chain is `Local` (heads, `HasBlock`, `HasHeader`,
`GetHeaderByHash`). The peer is its chain `R` answering each request truthfully (`Truthful`)
unless the wait ends otherwise; what the node knows of `R` is `Knows`, closed under ancestors
(`DownwardClosed`).

* `findAncestor_unknown_genesis`: with none of `R` known, not even its genesis, the search returns
  `0` when the local head is below `MaxForkAncestry`, though zero is never checked.
* `findAncestor_sound`: with `R`'s genesis known, a returned `n` is known, above `floor` and at
  most both heads; when none of the first request's headers is known, it is the newest block of
  `R` the node knows (`bisect_spec`).
-/

namespace EpvChain.Downloader

open EpvChain.Types

/-- `MaxHeaderFetch`. -/
def MaxHeaderFetch : Nat := 192

/-- `params.EpochDuration`. -/
def EpochDuration : Nat := 30000

/-- `MaxForkAncestry`. -/
def MaxForkAncestry : Nat := 3 * EpochDuration

/-- The errors `findAncestor` returns; `nilHeader` is the nil dereference of a header
`GetHeaderByHash` does not find. -/
inductive AncestorError where
  | errCancelHeaderFetch
  | errEmptyHeaderSet
  | errInvalidChain
  | errStallingPeer
  | errTimeout
  | errInvalidAncestor
  | errBadPeer
  | nilHeader
  deriving DecidableEq, Repr

/-- What ends a wait of `findAncestor`'s `select`. -/
inductive Reply where
  | cancelled
  | timedOut
  | headers (hs : List Header)

/-- The local chain as `findAncestor` reads it. -/
structure Local where
  currentHeader : Nat
  currentBlock : Nat
  currentFastBlock : Nat
  HasBlock : Hash → Nat → Bool
  HasHeader : Hash → Nat → Bool
  GetHeaderByHash : Hash → Option Header

variable (hashHeader : Header → Hash) (d : Local) (mode : SyncMode)

/-- The local head the search starts from: of the header chain, or of the block chain in a full
or fast sync. -/
def Local.ceil : Nat :=
  match mode with
  | .FullSync => d.currentBlock
  | .FastSync => d.currentFastBlock
  | .LightSync => d.currentHeader

/-- `floor`: `MaxForkAncestry` below the local head, or `-1`. -/
def Local.floor : Int :=
  if d.ceil mode ≥ MaxForkAncestry then ((d.ceil mode - MaxForkAncestry : Nat) : Int) else -1

/-- The test both phases make: the block in a full sync, the header otherwise. -/
def Local.has (hash : Hash) (number : Nat) : Bool :=
  (mode == .FullSync && d.HasBlock hash number) || (mode != .FullSync && d.HasHeader hash number)

/-- `limit`: the most headers of the first request. -/
def limit : Nat := 2 * MaxHeaderFetch / 16

/-- `head`: the lower of the local head and the peer's. -/
def Local.head (height : Nat) : Nat := min (d.ceil mode) height

/-- `from`: the first request starts `MaxHeaderFetch` below `head`, or at zero. -/
def Local.firstFrom (height : Nat) : Nat := d.head mode height - MaxHeaderFetch

/-- `count`: every sixteenth header from `from` up to the local head, at most `limit` of them. -/
def Local.firstCount (height : Nat) : Nat := min (1 + (d.ceil mode - d.firstFrom mode height) / 16) limit

/-- The first request's headers in order: the `i`th has number `from + 16 i`. -/
def orderedFrom (headers : List Header) («from» : Nat) : Bool :=
  headers.zipIdx.all fun (h, i) => h.number = «from» + i * 16

/-- The scan of the first request's headers from the last: the first one in `[from, ceil]` that
is known, and `errStallingPeer` when it is the last a full reply holds and above the peer's
head. -/
def scanKnown (height «from» : Nat) : List (Header × Nat) → Except AncestorError (Option (Nat × Hash))
  | [] => .ok none
  | (h, i) :: rest =>
    if h.number < «from» ∨ h.number > d.ceil mode then scanKnown height «from» rest
    else if d.has mode (hashHeader h) h.number then
      if h.number > height ∧ i = limit - 1 then .error .errStallingPeer
      else .ok (some (h.number, hashHeader h))
    else scanKnown height «from» rest

/-- The bisection: `check` halfway between `start` and `end`, one header asked for, and the
half kept that has the known block at its start and the unknown one at its end. -/
def bisect (reply : Nat → Nat → Nat → Reply) (start «end» : Nat) : Except AncestorError Nat :=
  if _ : start + 1 < «end» then
    let check := (start + «end») / 2
    match reply check 1 0 with
    | .cancelled => .error .errCancelHeaderFetch
    | .timedOut => .error .errTimeout
    | .headers [header] =>
      if !d.has mode (hashHeader header) header.number then bisect reply start check
      else
        match d.GetHeaderByHash (hashHeader header) with
        | none => .error .nilHeader
        | some header =>
          if header.number ≠ check then .error .errBadPeer else bisect reply check «end»
    | .headers _ => .error .errBadPeer
  else .ok start
termination_by «end» - start
decreasing_by all_goals omega

/-- `findAncestor(p, height)`: `reply from count skip` is what ends the wait after the request
`RequestHeadersByNumber(from, count, skip, false)`. -/
def findAncestor (reply : Nat → Nat → Nat → Reply) (height : Nat) : Except AncestorError Nat :=
  let floor := d.floor mode
  let head := d.head mode height
  let «from» := d.firstFrom mode height
  match reply «from» (d.firstCount mode height) 15 with
  | .cancelled => .error .errCancelHeaderFetch
  | .timedOut => .error .errTimeout
  | .headers headers =>
    if headers.length = 0 then .error .errEmptyHeaderSet
    else if !orderedFrom headers «from» then .error .errInvalidChain
    else do
      let found ← scanKnown hashHeader d mode height «from» headers.zipIdx.reverse
      let (number, hash) := found.getD (0, Hash.zero)
      if hash ≠ Hash.zero then
        if (number : Int) ≤ floor then .error .errInvalidAncestor else .ok number
      else
        let start ← bisect hashHeader d mode reply (if floor > 0 then floor.toNat else 0) head
        if (start : Int) ≤ floor then .error .errInvalidAncestor else .ok start

/-! ### The peer's chain and what the node knows of it -/

/-- The headers of `R` a request asks for: `from`, then every `skip + 1`th, `count` of them,
as far as the peer's head `height`. -/
def answer (R : Nat → Header) (height «from» count skip : Nat) : List Header :=
  (((List.range count).map fun i => «from» + i * (skip + 1)).takeWhile (· ≤ height)).map R

/-- A peer answering from its chain `R` up to its head `height`; the wait may still be cancelled
or time out. -/
def Truthful (R : Nat → Header) (height : Nat) (reply : Nat → Nat → Nat → Reply) : Prop :=
  ∀ «from» count skip, reply «from» count skip = .cancelled ∨ reply «from» count skip = .timedOut ∨
    reply «from» count skip = .headers (answer R height «from» count skip)

/-- The node knows block `n` of `R`. -/
def Knows (R : Nat → Header) (n : Nat) : Bool := d.has mode (hashHeader (R n)) n

/-- What the node knows of `R` is closed under taking ancestors. -/
def DownwardClosed (R : Nat → Header) : Prop :=
  ∀ m n, m ≤ n → Knows hashHeader d mode R n = true → Knows hashHeader d mode R m = true

/-! ### A truthful peer's answers -/

section Peer

variable {R : Nat → Header} {height : Nat} {reply : Nat → Nat → Nat → Reply}

theorem answer_one {check : Nat} (h : check ≤ height) : answer R height check 1 0 = [R check] := by
  simp [answer, h]

/-- A single header the peer sends for block `check` is `R check`. -/
theorem Truthful.single (htruth : Truthful R height reply) {check : Nat} {header : Header}
    (hcheck : check ≤ height) (h : reply check 1 0 = .headers [header]) : header = R check := by
  rcases htruth check 1 0 with hr | hr | hr <;> rw [hr] at h
  · cases h
  · cases h
  · rw [answer_one hcheck] at h
    cases h
    rfl

theorem mem_answer {x : Header} {«from» count skip : Nat}
    (h : x ∈ answer R height «from» count skip) : ∃ k, x = R k ∧ «from» ≤ k ∧ k ≤ height := by
  unfold answer at h
  obtain ⟨k, hk, rfl⟩ := List.mem_map.mp h
  have hle := List.mem_takeWhile_imp hk
  obtain ⟨i, -, rfl⟩ := List.mem_map.mp ((List.takeWhile_sublist _).subset hk)
  exact ⟨_, rfl, by omega, by simpa using hle⟩

/-- The first header asked for is answered when the peer has it. -/
theorem mem_answer_first {«from» count skip : Nat} (hcount : 0 < count) (hfrom : «from» ≤ height) :
    R «from» ∈ answer R height «from» count skip := by
  obtain ⟨c, rfl⟩ : ∃ c, count = c + 1 := ⟨count - 1, by omega⟩
  simp [answer, List.range_succ_eq_map, hfrom]

end Peer

/-! ### The two phases -/

theorem Local.firstCount_pos (height : Nat) : 0 < d.firstCount mode height := by
  simp only [Local.firstCount, limit, MaxHeaderFetch]
  omega

/-- What the scan of the first reply finds is a known header in `[from, ceil]`. -/
theorem scanKnown_some {height «from» : Nat} {l : List (Header × Nat)} {n : Nat} {hsh : Hash}
    (h : scanKnown hashHeader d mode height «from» l = .ok (some (n, hsh))) :
    ∃ x ∈ l, x.1.number = n ∧ n ≤ d.ceil mode ∧ d.has mode (hashHeader x.1) n = true := by
  induction l with
  | nil => simp [scanKnown] at h
  | cons x l ih =>
    obtain ⟨header, i⟩ := x
    simp only [scanKnown] at h
    split_ifs at h with hout hknown hstall
    · obtain ⟨y, hy, hrest⟩ := ih h
      exact ⟨y, List.mem_cons_of_mem _ hy, hrest⟩
    · -- the first known header in range is the one found
      simp only [Except.ok.injEq, Option.some.injEq, Prod.mk.injEq] at h
      obtain ⟨rfl, -⟩ := h
      exact ⟨(header, i), List.mem_cons_self, rfl, by omega, hknown⟩
    · obtain ⟨y, hy, hrest⟩ := ih h
      exact ⟨y, List.mem_cons_of_mem _ hy, hrest⟩

theorem bisect_of_not_lt {reply : Nat → Nat → Nat → Reply} {start «end» : Nat}
    (h : ¬ start + 1 < «end») : bisect hashHeader d mode reply start «end» = .ok start := by
  rw [bisect, dif_neg h]

/-- The bisection against a truthful peer: its result is its start, or a known block inside the
interval; and it keeps the end unknown, so when the end it starts from is unknown the block
after its result is unknown too. -/
theorem bisect_spec {R : Nat → Header} {height : Nat} {reply : Nat → Nat → Nat → Reply}
    (hR : ∀ n, (R n).number = n) (htruth : Truthful R height reply) {start «end» r : Nat} :
    «end» ≤ height → bisect hashHeader d mode reply start «end» = .ok r →
    (r = start ∨ (start < r ∧ r < «end» ∧ Knows hashHeader d mode R r = true)) ∧
      (start < «end» → Knows hashHeader d mode R «end» = false →
        Knows hashHeader d mode R (r + 1) = false) := by
  fun_induction bisect hashHeader d mode reply start «end» with
  | case1 => simp
  | case2 => simp
  | case3 start «end» hlt check header hreply hunknown ih =>
    -- `check` unknown: the end moves down to it
    intro hend hbis
    have hcheck : check = (start + «end») / 2 := rfl
    obtain rfl := htruth.single (by omega) hreply
    have hunk : Knows hashHeader d mode R check = false := by simpa [Knows, hR] using hunknown
    obtain ⟨h1, h2⟩ := ih (by omega) hbis
    refine ⟨?_, fun _ _ => h2 (by omega) hunk⟩
    rcases h1 with h1 | ⟨h1, h1', hk⟩
    · exact Or.inl h1
    · exact Or.inr ⟨h1, by omega, hk⟩
  | case4 => simp
  | case5 => simp
  | case6 start «end» hlt check header hreply hknown stored hget hnum ih =>
    -- `check` known: the start moves up to it
    intro hend hbis
    have hcheck : check = (start + «end») / 2 := rfl
    obtain rfl := htruth.single (by omega) hreply
    have hk : Knows hashHeader d mode R check = true := by simpa [Knows, hR] using hknown
    obtain ⟨h1, h2⟩ := ih hend hbis
    refine ⟨Or.inr ?_, fun _ hunk => h2 (by omega) hunk⟩
    rcases h1 with rfl | ⟨h1, h1', hk'⟩
    · exact ⟨by omega, by omega, hk⟩
    · exact ⟨by omega, h1', hk'⟩
  | case7 => simp
  | case8 start «end» hge =>
    -- the interval is down to one block: the end is the start's successor
    intro _ hbis
    rw [Except.ok.injEq] at hbis
    subst hbis
    refine ⟨Or.inl rfl, fun hlt hunk => ?_⟩
    rwa [show «end» = start + 1 by omega] at hunk

/-- What a successful search went through: the first reply, its scan, and either the header the
scan found or the bisection, with the result above `floor`. -/
theorem findAncestor_eq_ok {reply : Nat → Nat → Nat → Reply} {height n : Nat}
    (h : findAncestor hashHeader d mode reply height = .ok n) :
    ∃ headers found, reply (d.firstFrom mode height) (d.firstCount mode height) 15 = .headers headers ∧
      scanKnown hashHeader d mode height (d.firstFrom mode height) headers.zipIdx.reverse = .ok found ∧
      d.floor mode < n ∧
      ((∃ hsh, found = some (n, hsh) ∧ hsh ≠ Hash.zero) ∨
        bisect hashHeader d mode reply (if d.floor mode > 0 then (d.floor mode).toNat else 0)
          (d.head mode height) = .ok n) := by
  unfold findAncestor at h
  dsimp only at h
  rcases hreply : reply (d.firstFrom mode height) (d.firstCount mode height) 15 with _ | _ | headers
  · simp [hreply] at h
  · simp [hreply] at h
  simp only [hreply] at h
  by_cases hlen : headers.length = 0
  · simp [hlen] at h
  rw [if_neg hlen] at h
  by_cases hord : (!orderedFrom headers (d.firstFrom mode height)) = true
  · rw [if_pos hord] at h
    cases h
  rw [if_neg hord] at h
  rcases hscan : scanKnown hashHeader d mode height (d.firstFrom mode height)
    headers.zipIdx.reverse with e | found
  · rw [hscan] at h
    cases h
  refine ⟨headers, found, rfl, hscan, ?_⟩
  rw [hscan] at h
  simp only [bind, Except.bind] at h
  by_cases hz : (found.getD (0, Hash.zero)).2 = Hash.zero
  · -- nothing found: the bisection's result, if above `floor`
    simp only [hz, ne_eq, not_true_eq_false, if_false] at h
    rcases hb : bisect hashHeader d mode reply (if d.floor mode > 0 then (d.floor mode).toNat else 0)
      (d.head mode height) with e | start
    · rw [hb] at h
      cases h
    · rw [hb] at h
      dsimp only at h
      split_ifs at h with hle
      cases h
      exact ⟨by omega, Or.inr rfl⟩
  · -- the header found, if above `floor`
    simp only [ne_eq, hz, not_false_eq_true, if_true] at h
    split_ifs at h with hle
    cases h
    rcases found with _ | ⟨number, hsh⟩
    · exact absurd rfl hz
    · exact ⟨by simpa using hle, Or.inl ⟨hsh, rfl, hz⟩⟩

/-! ### Soundness -/

/-- With the genesis of the peer's chain known, a common ancestor the search returns is known,
above `floor` and at most both heads; when the node knows none of the headers of the first
request, it is the newest block of the peer's chain the node knows up to the lower head. -/
theorem findAncestor_sound (R : Nat → Header) (height : Nat) (reply : Nat → Nat → Nat → Reply)
    (hR : ∀ n, (R n).number = n) (htruth : Truthful R height reply)
    (hdown : DownwardClosed hashHeader d mode R) (hgen : Knows hashHeader d mode R 0 = true)
    {n : Nat} (hfind : findAncestor hashHeader d mode reply height = .ok n) :
    Knows hashHeader d mode R n = true ∧ d.floor mode < n ∧ n ≤ min (d.ceil mode) height ∧
    ((∀ h ∈ answer R height (d.firstFrom mode height) (d.firstCount mode height) 15,
        d.has mode (hashHeader h) h.number = false) →
      ∀ m, Knows hashHeader d mode R m = true → m ≤ min (d.ceil mode) height → m ≤ n) := by
  obtain ⟨headers, found, hreply, hscan, hfloor, hcase⟩ := findAncestor_eq_ok hashHeader d mode hfind
  -- the first reply is the peer's answer
  have hheaders : headers = answer R height (d.firstFrom mode height) (d.firstCount mode height) 15 := by
    rcases htruth (d.firstFrom mode height) (d.firstCount mode height) 15 with hr | hr | hr <;>
      rw [hr] at hreply
    · cases hreply
    · cases hreply
    · cases hreply
      rfl
  have hhead : d.head mode height = min (d.ceil mode) height := rfl
  rcases hcase with ⟨hsh, rfl, -⟩ | hbis
  · -- the first request found it: the newest sampled header the node knows
    obtain ⟨x, hx, hnum, hceil, hknown⟩ := scanKnown_some hashHeader d mode hscan
    have hxmem : x.1 ∈ answer R height (d.firstFrom mode height) (d.firstCount mode height) 15 :=
      hheaders ▸ List.fst_mem_of_mem_zipIdx (List.mem_reverse.mp hx)
    obtain ⟨k, hk, -, hkh⟩ := mem_answer hxmem
    have hkn : k = n := by rw [← hnum, hk, hR]
    subst hkn
    refine ⟨by simpa [Knows, hk, hR] using hknown, hfloor, le_min hceil hkh, fun hnone => ?_⟩
    have := hnone x.1 hxmem
    rw [hnum, hknown] at this
    cases this
  · -- the bisection found it
    have hend : d.head mode height ≤ height := by rw [hhead]; exact min_le_right _ _
    obtain ⟨h1, h2⟩ := bisect_spec hashHeader d mode hR htruth hend hbis
    -- the bisection's start is zero, or is `floor` and so not a result
    have hstart : n = (if d.floor mode > 0 then (d.floor mode).toNat else 0) → n = 0 := by
      intro hn
      split_ifs at hn with hf
      · omega
      · exact hn
    refine ⟨?_, hfloor, ?_, fun hnone m hm hmle => ?_⟩
    · rcases h1 with h1 | ⟨-, -, hk⟩
      · rw [hstart h1]
        exact hgen
      · exact hk
    · rcases h1 with h1 | ⟨-, h1, -⟩
      · rw [hstart h1]
        exact Nat.zero_le _
      · omega
    · -- none of the first request's headers is known, so neither is `head`
      have hfirst := hnone _ (mem_answer_first (d.firstCount_pos mode height)
        (le_trans (Nat.sub_le _ _) hend))
      have hunk : Knows hashHeader d mode R (d.head mode height) = false := by
        by_contra hk
        have hfrom := hdown (d.firstFrom mode height) (d.head mode height) (Nat.sub_le _ _)
          (by simpa using hk)
        rw [Knows] at hfrom
        rw [hR] at hfirst
        rw [hfirst] at hfrom
        cases hfrom
      by_cases hlt : (if d.floor mode > 0 then (d.floor mode).toNat else 0) < d.head mode height
      · have hnext := h2 hlt hunk
        by_contra hmn
        have := hdown (n + 1) m (by omega) hm
        rw [hnext] at this
        cases this
      · rcases h1 with h1 | ⟨h1, h1', -⟩
        · omega
        · omega

/-- A node knowing blocks up to 20 of a peer's chain at 40: the first request samples 0, 16 and
32, and the search returns 16. -/
theorem findAncestor_sound_sixteen :
    let R : Nat → Header := fun n => ⟨0, 0, 0, 0, 0, 0, 0, n, 0, 0, 0, [], 0, 0⟩
    let hashHeader : Header → Hash := fun _ => 1
    let d : Local := ⟨40, 40, 40, fun _ n => decide (n ≤ 20), fun _ n => decide (n ≤ 20),
      fun _ => none⟩
    let reply := fun «from» count skip => Reply.headers (answer R 40 «from» count skip)
    findAncestor hashHeader d .LightSync reply 40 = .ok 16 ∧
    Knows hashHeader d .LightSync R 16 = true ∧ d.floor .LightSync < 16 ∧
      16 ≤ min (d.ceil .LightSync) 40 ∧
    ((∀ h ∈ answer R 40 (d.firstFrom .LightSync 40) (d.firstCount .LightSync 40) 15,
        d.has .LightSync (hashHeader h) h.number = false) →
      ∀ m, Knows hashHeader d .LightSync R m = true → m ≤ min (d.ceil .LightSync) 40 → m ≤ 16) := by
  intro R hashHeader d reply
  -- the first request: `from` 0, three headers, every sixteenth
  have hfrom : d.firstFrom .LightSync 40 = 0 := by
    simp [Local.firstFrom, Local.head, Local.ceil, d, MaxHeaderFetch]
  have hcount : d.firstCount .LightSync 40 = 3 := by
    simp [Local.firstCount, hfrom, Local.ceil, d, limit, MaxHeaderFetch]
  have hanswer : answer R 40 0 3 15 = [R 0, R 16, R 32] := by
    simp [answer, List.range_succ]
  have hfind : findAncestor hashHeader d .LightSync reply 40 = .ok 16 := by
    simp [findAncestor, hfrom, hcount, reply, hanswer, orderedFrom, scanKnown, Local.has, Local.ceil,
      Local.floor, R, d, MaxForkAncestry, EpochDuration, bind, Except.bind, hashHeader, Hash.zero,
      HashLength]
  have hdown : DownwardClosed hashHeader d .LightSync R := by
    intro m n hmn hn
    simp [Knows, Local.has, d] at hn ⊢
    omega
  exact ⟨hfind, findAncestor_sound hashHeader d .LightSync R 40 reply (fun _ => rfl)
    (fun _ _ _ => Or.inr (Or.inr rfl)) hdown (by simp [Knows, Local.has, d]) hfind⟩

/-- A peer whose chain the node knows nothing of, not even its genesis, with both heads at zero:
the peer answers truthfully and the search returns `0`, a block the node does not know. -/
theorem findAncestor_unknown_genesis :
    let R : Nat → Header := fun n => ⟨0, 0, 0, 0, 0, 0, 0, n, 0, 0, 0, [], 0, 0⟩
    let d : Local := ⟨0, 0, 0, fun _ _ => false, fun _ _ => false, fun _ => none⟩
    let reply := fun «from» count skip => Reply.headers (answer R 0 «from» count skip)
    (∀ n, (R n).number = n) ∧ Truthful R 0 reply ∧ DownwardClosed (fun _ => 1) d .LightSync R ∧
      findAncestor (fun _ => 1) d .LightSync reply 0 = .ok 0 ∧
      Knows (fun _ => 1) d .LightSync R 0 = false := by
  intro R d reply
  refine ⟨fun n => rfl, fun _ _ _ => Or.inr (Or.inr rfl), fun m n _ h => ?_, ?_, rfl⟩
  · simp [Knows, Local.has, d] at h
  · simp [findAncestor, Local.floor, Local.ceil, Local.head, Local.firstFrom, Local.firstCount,
      reply, answer, R, d, limit, MaxHeaderFetch, orderedFrom, scanKnown, Local.has,
      MaxForkAncestry, EpochDuration, bisect_of_not_lt, bind, Except.bind]

end EpvChain.Downloader
