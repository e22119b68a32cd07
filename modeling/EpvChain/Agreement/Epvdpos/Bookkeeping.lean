import EpvChain.Agreement.Epvdpos.Replay

/-!
# The vote bookkeeping of the archive stays consistent

`Archive.apply` keeps three records of the same votes: the open votes, the tallies, and, through
its checks, the signer set. `Archive.Bookkeeping` states how they fit, and every archive
reachable from `newArchive` by successful `apply` calls satisfies it.

* `TallyAgrees` — an address has a tally exactly when an open vote is on it, counting those votes
  in their common direction; kept by `uncast_cons`, `cast_cons` and `perm`.
* `Archive.Bookkeeping` — `TallyAgrees`, one vote per signer and address, every voter a signer,
  every tally pointing away from membership, no signer twice in the window.
* One lemma per step of a round, assembled into `Bookkeeping.applyHeader`, `Bookkeeping.foldlM`
  and `Bookkeeping.apply`; `bookkeeping_of_reachable` over every reachable archive.

The direction field makes `cast` safe: it adds to a tally without looking at its direction.
-/

namespace EpvChain.Epvdpos

open EpvChain.Types EpvChain.Lib

/-- The tally of address `a` agrees with the open votes: it exists exactly when a vote is on
`a`, and then counts the votes on `a`, all of which have its direction. -/
def TallyAgreesAt (tally : TallyMap) (votes : List Vote) (a : Address) : Prop :=
  (a ∈ tally ↔ ∃ v ∈ votes, v.address = a) ∧
    ∀ t, tally.lookup a = some t →
      t.votes = votes.countP (fun v => v.address == a) ∧
        ∀ v ∈ votes, v.address = a → v.authorize = t.authorize

/-- The tallies are the open votes counted per address. -/
def TallyAgrees (tally : TallyMap) (votes : List Vote) : Prop :=
  ∀ a, TallyAgreesAt tally votes a

/-! ### Tallies as counts of votes -/

section Tallies

variable {tally tally' : TallyMap} {votes votes' : List Vote} {a : Address}

/-- At one address only the votes on it and its tally matter. -/
theorem TallyAgreesAt.congr (h : TallyAgreesAt tally votes a)
    (hl : tally'.lookup a = tally.lookup a)
    (hv : votes'.filter (fun v => v.address == a) = votes.filter (fun v => v.address == a)) :
    TallyAgreesAt tally' votes' a := by
  have hmem : ∀ v, v ∈ votes' ∧ v.address = a ↔ v ∈ votes ∧ v.address = a := fun v => by
    simpa only [List.mem_filter, beq_iff_eq, eq_iff_iff] using congrArg (v ∈ ·) hv
  obtain ⟨hdom, hlook⟩ := h
  refine ⟨?_, fun t ht => ?_⟩
  · rw [Finmap.mem_iff, hl, ← Finmap.mem_iff (a := a) (s := tally), hdom]
    constructor
    · rintro ⟨v, hv, hva⟩
      exact ⟨v, ((hmem v).mpr ⟨hv, hva⟩).1, hva⟩
    · rintro ⟨v, hv, hva⟩
      exact ⟨v, ((hmem v).mp ⟨hv, hva⟩).1, hva⟩
  · obtain ⟨hc, hf⟩ := hlook t (hl ▸ ht)
    refine ⟨?_, fun v hv' hva => hf v ((hmem v).mp ⟨hv', hva⟩).1 hva⟩
    rw [hc, List.countP_eq_length_filter, List.countP_eq_length_filter, hv]

/-- The order of the open votes does not matter. -/
theorem TallyAgrees.perm (h : TallyAgrees tally votes) (hp : votes.Perm votes') :
    TallyAgrees tally votes' := by
  intro a
  obtain ⟨hdom, hlook⟩ := h a
  refine ⟨by simp only [hdom, hp.mem_iff], fun t ht => ?_⟩
  obtain ⟨hc, hf⟩ := hlook t ht
  exact ⟨hc.trans (hp.countP_eq _), fun v hv => hf v (hp.mem_iff.mpr hv)⟩

theorem tallyAgrees_empty : TallyAgrees ∅ [] := by
  intro a
  refine ⟨by simp [Finmap.notMem_empty], fun t ht => ?_⟩
  rw [Finmap.lookup_empty] at ht
  cases ht

/-- A vote not on `a` does not change the votes on `a`. -/
theorem filter_cons_of_address_ne {v : Vote} {rest : List Vote} (ha : a ≠ v.address) :
    (v :: rest).filter (fun w => w.address == a) = rest.filter (fun w => w.address == a) :=
  List.filter_cons_of_neg (by simpa using Ne.symm ha)

end Tallies

namespace Archive

/-- Taking back an open vote leaves the tallies of the votes that remain. -/
theorem TallyAgrees.uncast_cons {s : Archive} {v : Vote} {rest : List Vote}
    (h : TallyAgrees s.tally (v :: rest)) :
    TallyAgrees (s.uncast v.address v.authorize).2.tally rest := by
  obtain ⟨hdom, hlook⟩ := h v.address
  obtain ⟨t, ht⟩ := Finmap.mem_iff.mp (hdom.mpr ⟨v, List.mem_cons_self, rfl⟩)
  obtain ⟨hc, hf⟩ := hlook t ht
  have hb : t.authorize = v.authorize := (hf v List.mem_cons_self rfl).symm
  -- the votes on `v.address` that remain are one fewer than the tally
  have hrest : rest.countP (fun w => w.address == v.address) = t.votes - 1 := by
    rw [hc, List.countP_cons]
    simp
  intro a
  by_cases ha : a = v.address
  case neg =>
    exact (h a).congr (lookup_uncast_of_ne s _ _ _ ha) (filter_cons_of_address_ne ha).symm
  subst ha
  have hl := lookup_uncast_self s v.address v.authorize ht hb
  split_ifs at hl with hgt
  case pos =>
    -- the tally goes down by one
    refine ⟨?_, fun t' ht' => ?_⟩
    · obtain ⟨w, hw, hwa⟩ :=
        List.countP_pos_iff.mp (show 0 < rest.countP (fun w => w.address == v.address) by omega)
      exact ⟨fun _ => ⟨w, hw, by simpa using hwa⟩, fun _ => Finmap.mem_iff.mpr ⟨_, hl⟩⟩
    · rw [hl] at ht'
      cases ht'
      exact ⟨hrest.symm, fun w hw hwa => hf w (List.mem_cons_of_mem _ hw) hwa⟩
  case neg =>
    -- the last vote goes, and the tally with it
    have hnone :=
      List.countP_eq_zero.mp (show rest.countP (fun w => w.address == v.address) = 0 by omega)
    refine ⟨?_, fun t' ht' => ?_⟩
    · rw [Finmap.mem_iff, hl]
      constructor
      · rintro ⟨_, h⟩
        cases h
      · rintro ⟨w, hw, hwa⟩
        exact absurd (by simpa using hwa) (hnone w hw)
    · rw [hl] at ht'
      cases ht'

/-- Counting a valid vote: the tally of its address, which points the vote's way, goes up by
one or opens. -/
theorem TallyAgrees.cast_cons {s : Archive} {votes : List Vote} {w : Vote}
    (h : TallyAgrees s.tally votes)
    (hdir : ∀ t, s.tally.lookup w.address = some t → (t.authorize = true ↔ w.address ∉ s.signers))
    (hvalid : s.validVote w.address w.authorize = true) :
    TallyAgrees (s.cast w.address w.authorize).2.tally (w :: votes) := by
  have hw := (validVote_eq_true s _ _).mp hvalid
  have hl := lookup_cast_self s w.address w.authorize hvalid
  intro a
  by_cases ha : a = w.address
  case neg =>
    exact (h a).congr (lookup_cast_of_ne s _ _ _ ha) (filter_cons_of_address_ne ha)
  subst ha
  obtain ⟨hdom, hlook⟩ := h w.address
  refine ⟨⟨fun _ => ⟨w, List.mem_cons_self, rfl⟩, fun _ => Finmap.mem_iff.mpr ⟨_, hl⟩⟩,
    fun t' ht' => ?_⟩
  rw [hl] at ht'
  cases hold : s.tally.lookup w.address with
  | none =>
    -- no vote was on the address: the new tally is this vote alone
    rw [hold] at ht'
    cases ht'
    have hno : ∀ v ∈ votes, v.address ≠ w.address := fun v hv hva =>
      Finmap.lookup_eq_none.mp hold (hdom.mpr ⟨v, hv, hva⟩)
    refine ⟨?_, fun v hv hva => ?_⟩
    · rw [List.countP_cons, List.countP_eq_zero.mpr (fun v hv => by simpa using hno v hv)]
      simp
    · rcases List.mem_cons.mp hv with rfl | hv
      · rfl
      · exact absurd hva (hno v hv)
  | some old =>
    rw [hold] at ht'
    cases ht'
    obtain ⟨hc, hf⟩ := hlook old hold
    have hdir' : old.authorize = w.authorize :=
      Bool.eq_iff_iff.mpr ((hdir old hold).trans hw.symm)
    refine ⟨?_, fun v hv hva => ?_⟩
    · simp [hc]
    · rcases List.mem_cons.mp hv with rfl | hv
      · exact hdir'.symm
      · exact hf v hv hva

/-- Taking back a run of open votes leaves the tallies of the votes kept. -/
theorem TallyAgrees.foldl_uncast {s : Archive} {ws keep : List Vote}
    (h : TallyAgrees s.tally (ws ++ keep)) :
    TallyAgrees (ws.foldl (fun s v => (s.uncast v.address v.authorize).2) s).tally keep := by
  induction ws generalizing s with
  | nil => exact h
  | cons w ws ih => exact ih (TallyAgrees.uncast_cons h)

/-! ### The invariant -/

/-- The bookkeeping of an archive is consistent:
(a) the tallies are the open votes counted per address;
(b) no two open votes share their signer and address;
(c) every open vote was cast by a signer;
(d) a tally to add points at a non-signer, a tally to drop at a signer;
(e) no signer holds two blocks of the recent window. -/
structure Bookkeeping (s : Archive) : Prop where
  tally_agrees : TallyAgrees s.tally s.votes
  votes_nodup : (s.votes.map fun v => (v.signer, v.address)).Nodup
  voter_mem : ∀ v ∈ s.votes, v.signer ∈ s.signers
  tally_direction : ∀ a t, s.tally.lookup a = some t → (t.authorize = true ↔ a ∉ s.signers)
  recents_injective : ValuesInjective s.recents

/-- The invariant reads neither the configuration, nor the number, nor the hash. -/
theorem bookkeeping_withHead {s : Archive} {k : DPosConfig} {n : UInt64} {x : Hash} :
    (s.withHead k n x).Bookkeeping ↔ s.Bookkeeping :=
  ⟨fun ⟨h₁, h₂, h₃, h₄, h₅⟩ => ⟨h₁, h₂, h₃, h₄, h₅⟩, fun ⟨h₁, h₂, h₃, h₄, h₅⟩ => ⟨h₁, h₂, h₃, h₄, h₅⟩⟩

theorem bookkeeping_newArchive (config : DPosConfig) (number : UInt64) (hash : Hash)
    (signers : List Address) : (newArchive config number hash signers).Bookkeeping where
  tally_agrees := tallyAgrees_empty
  votes_nodup := List.nodup_nil
  voter_mem := by simp [newArchive]
  tally_direction := fun a t ht => by
    simp only [newArchive, Finmap.lookup_empty] at ht
    cases ht
  recents_injective := valuesInjective_empty

/-! ### One round keeps the invariant -/

section Round

variable {s : Archive} (h : s.Bookkeeping)
include h

theorem Bookkeeping.resetEpoch (config : DPosConfig) (n : UInt64) :
    (s.resetEpoch config n).Bookkeeping := by
  unfold Archive.resetEpoch
  split_ifs
  · refine { h with
      tally_agrees := tallyAgrees_empty
      votes_nodup := List.nodup_nil
      voter_mem := by simp
      tally_direction := fun a t ht => ?_ }
    rw [Finmap.lookup_empty] at ht
    cases ht
  · exact h

theorem Bookkeeping.evictRecent (n : UInt64) : (s.evictRecent n).Bookkeeping := by
  unfold Archive.evictRecent
  split_ifs
  · exact { h with recents_injective := h.recents_injective.erase _ }
  · exact h

theorem Bookkeeping.openRound (config : DPosConfig) (n : UInt64) :
    (s.openRound config n).Bookkeeping :=
  (h.resetEpoch config n).evictRecent n

/-- A signer outside the window enters it without holding two blocks. -/
theorem Bookkeeping.noteRecent {x : Address} (n : UInt64) (hr : s.signedRecently x = false) :
    (s.noteRecent n x).Bookkeeping :=
  { h with
    recents_injective := h.recents_injective.insert n ((signedRecently_eq_false s x).mp hr) }

/-- The first loop of a round keeps the invariant. -/
theorem Bookkeeping.discardVote (x c : Address) : (s.discardVote x c).Bookkeeping := by
  cases hf : s.votes.find? (fun v => v.signer == x && v.address == c) with
  | none => rwa [discardVote_of_find?_none s x c hf]
  | some v =>
    rw [discardVote_of_find? s x c hf]
    have hsub := List.eraseP_sublist (p := fun v => v.signer == x && v.address == c) (l := s.votes)
    refine
      { tally_agrees := ?_
        votes_nodup := (hsub.map _).nodup h.votes_nodup
        voter_mem := fun w hw => by simpa using h.voter_mem w (hsub.subset hw)
        tally_direction := fun a t ht => ?_
        recents_injective := by simpa using h.recents_injective }
    · -- the removed vote goes first, then it is taken back
      exact TallyAgrees.uncast_cons (h.tally_agrees.perm (perm_cons_eraseP_of_find? hf))
    · obtain ⟨t₀, ht₀, he⟩ := lookup_uncast_eq_some s v.address a v.authorize ht
      rw [signers_uncast, he]
      exact h.tally_direction a t₀ ht₀

/-- After the first loop of a round the signer has no open vote on the coinbase: there was at
most one (`votes_nodup`) and the loop removed it. -/
theorem Bookkeeping.discardVote_fresh (x c : Address) :
    ∀ v ∈ (s.discardVote x c).votes, ¬(v.signer = x ∧ v.address = c) := by
  cases hf : s.votes.find? (fun v => v.signer == x && v.address == c) with
  | none =>
    rw [discardVote_of_find?_none s x c hf]
    intro v hv
    simpa using List.find?_eq_none.mp hf v hv
  | some v =>
    rw [discardVote_of_find? s x c hf]
    obtain ⟨l₁, l₂, hsplit, he, hl₁⟩ := eraseP_of_find?_eq_some hf
    have hpv : v.signer = x ∧ v.address = c := by simpa using List.find?_some hf
    intro w hw ⟨hwx, hwc⟩
    rw [he] at hw
    rcases List.mem_append.mp hw with hw | hw
    · simpa [hwx, hwc] using hl₁ w hw
    · -- `w` and `v` would be two open votes of one signer on one address
      have hnd := h.votes_nodup
      rw [hsplit, List.map_append, List.map_cons] at hnd
      have hkey : (v.signer, v.address) ∈ l₂.map fun v => (v.signer, v.address) :=
        List.mem_map.mpr ⟨w, hw, by rw [hwx, hwc, hpv.1, hpv.2]⟩
      exact (List.nodup_cons.mp (List.nodup_append.mp hnd).2.1).1 hkey

/-- Casting a vote keeps the invariant when the voter is a signer with no open vote on the
address: the vote counts only when it is valid, and then its tally points its way. -/
theorem Bookkeeping.castVote {x c : Address} (n : UInt64) (b : Bool) (hx : x ∈ s.signers)
    (hfresh : ∀ v ∈ s.votes, ¬(v.signer = x ∧ v.address = c)) :
    (s.castVote x n c b).Bookkeeping := by
  unfold Archive.castVote
  dsimp only
  rw [fst_cast]
  by_cases hvalid : s.validVote c b = true
  case neg =>
    rw [if_neg hvalid, cast_of_not_validVote s c b (by simpa using hvalid)]
    exact h
  rw [if_pos hvalid]
  have hw := (validVote_eq_true s _ _).mp hvalid
  refine
    { tally_agrees := ?_
      votes_nodup := ?_
      voter_mem := fun v hv => ?_
      tally_direction := fun a t ht => ?_
      recents_injective := by simpa using h.recents_injective }
  · rw [votes_cast]
    exact (TallyAgrees.cast_cons (w := ⟨x, n, c, b⟩) h.tally_agrees (h.tally_direction c) hvalid).perm
      (List.perm_append_singleton _ _).symm
  · rw [votes_cast, List.map_append, List.map_singleton]
    refine ((List.perm_append_singleton _ _).nodup_iff).mpr (List.nodup_cons.mpr ⟨?_, h.votes_nodup⟩)
    intro hmem
    obtain ⟨v, hv, hvk⟩ := List.mem_map.mp hmem
    exact hfresh v hv ⟨congrArg Prod.fst hvk, congrArg Prod.snd hvk⟩
  · rw [votes_cast, List.mem_append, List.mem_singleton] at hv
    rw [signers_cast]
    rcases hv with hv | rfl
    · exact h.voter_mem v hv
    · exact hx
  · rw [signers_cast]
    by_cases ha : a = c
    case neg =>
      rw [lookup_cast_of_ne s c a b ha] at ht
      exact h.tally_direction a t ht
    subst ha
    rw [lookup_cast_self s a b hvalid] at ht
    cases hold : s.tally.lookup a with
    | none =>
      rw [hold] at ht
      cases ht
      exact hw
    | some old =>
      rw [hold] at ht
      cases ht
      exact h.tally_direction a old hold

end Round

/-! ### The decision -/

/-- Forgetting the decided address repairs its tally, whatever the signer set now says about
it: the votes on it and its tally both go. -/
theorem bookkeeping_forget {s : Archive} {c : Address} (hagree : TallyAgrees s.tally s.votes)
    (hnodup : (s.votes.map fun v => (v.signer, v.address)).Nodup)
    (hvoter : ∀ v ∈ s.votes, v.signer ∈ s.signers)
    (hdir : ∀ a t, a ≠ c → s.tally.lookup a = some t → (t.authorize = true ↔ a ∉ s.signers))
    (hrec : ValuesInjective s.recents) : (s.forget c).Bookkeeping := by
  unfold Archive.forget
  rw [purgeVotesOn_eq]
  have hsub := List.filter_sublist (p := fun v : Vote => !(v.address == c)) (l := s.votes)
  refine
    { tally_agrees := fun a => ?_
      votes_nodup := (hsub.map _).nodup hnodup
      voter_mem := fun v hv => hvoter v (hsub.subset hv)
      tally_direction := fun a t ht => ?_
      recents_injective := hrec }
  · by_cases ha : a = c
    case neg =>
      refine (hagree a).congr (Finmap.lookup_erase_ne ha) ?_
      rw [List.filter_filter]
      refine List.filter_congr fun v _ => ?_
      by_cases hva : v.address = a
      · simp [hva, ha]
      · simp [hva]
    subst ha
    refine ⟨?_, fun t ht => ?_⟩
    · simp only [Finmap.mem_erase, ne_eq, not_true_eq_false, false_and, false_iff]
      rintro ⟨v, hv, hva⟩
      simp [List.mem_filter, hva] at hv
    · simp at ht
  · by_cases ha : a = c
    · subst ha
      simp at ht
    · rw [Finmap.lookup_erase_ne ha] at ht
      exact hdir a t ha ht

theorem Bookkeeping.forget_addSigner {s : Archive} (h : s.Bookkeeping) (c : Address) :
    ((s.addSigner c).forget c).Bookkeeping :=
  bookkeeping_forget h.tally_agrees h.votes_nodup
    (fun v hv => Finset.mem_insert_of_mem (h.voter_mem v hv))
    (fun a t ha ht => by
      simp only [Archive.addSigner, Finset.mem_insert, ha, false_or]
      exact h.tally_direction a t ht)
    h.recents_injective

theorem Bookkeeping.forget_dropSigner {s : Archive} (h : s.Bookkeeping) (n : UInt64)
    (c : Address) : ((s.dropSigner n c).forget c).Bookkeeping := by
  unfold Archive.dropSigner
  set s₁ := ({ s with signers := s.signers.erase c } : Archive).evictRecent n with hs₁
  have hv₁ : s₁.votes = s.votes := votes_evictRecent _ n
  have ht₁ : s₁.tally = s.tally := tally_evictRecent _ n
  have hg₁ : s₁.signers = s.signers.erase c := signers_evictRecent _ n
  have hr₁ : ValuesInjective s₁.recents := by
    rw [hs₁]
    unfold Archive.evictRecent
    split_ifs
    · exact h.recents_injective.erase _
    · exact h.recents_injective
  refine bookkeeping_forget ?_ ?_ ?_ ?_ (by simpa using hr₁)
  · -- the dropped signer's votes are taken back, the others kept
    rw [dropVotesBy_eq]
    refine TallyAgrees.foldl_uncast ?_
    rw [hv₁, ht₁]
    exact h.tally_agrees.perm (List.filter_append_perm _ _).symm
  · rw [dropVotesBy_eq, hv₁]
    exact ((List.filter_sublist).map _).nodup h.votes_nodup
  · intro v hv
    rw [dropVotesBy_eq, hv₁, List.mem_filter] at hv
    rw [signers_dropVotesBy, hg₁, Finset.mem_erase]
    exact ⟨by simpa using hv.2, h.voter_mem v hv.1⟩
  · intro a t ha ht
    rw [dropVotesBy_eq] at ht
    obtain ⟨t₀, ht₀, he⟩ := lookup_foldl_uncast_eq_some a _ s₁ ht
    rw [ht₁] at ht₀
    rw [signers_dropVotesBy, hg₁, Finset.mem_erase, he]
    simpa [ha] using h.tally_direction a t₀ ht₀

theorem Bookkeeping.settle {s : Archive} (h : s.Bookkeeping) (n : UInt64) (c : Address) :
    (s.settle n c).Bookkeeping := by
  unfold Archive.settle
  dsimp only
  split_ifs
  · exact h.forget_addSigner c
  · exact h.forget_dropSigner n c
  · exact h

/-! ### Whole rounds and runs -/

/-- The part of a round after its checks keeps the invariant. -/
theorem Bookkeeping.record {s : Archive} (h : s.Bookkeeping) {x : Address} (n : UInt64)
    (c : Address) (b : Bool) (hx : x ∈ s.signers) (hr : s.signedRecently x = false) :
    (s.record n x c b).Bookkeeping := by
  have h₁ := h.noteRecent n hr
  have h₂ := (h₁.discardVote x c).castVote n b (by rw [signers_discardVote]; exact hx)
    (h₁.discardVote_fresh x c)
  exact h₂.settle n c

/-- A round that passes its checks keeps the invariant. -/
theorem Bookkeeping.applyHeader {c : Crypto} {config : DPosConfig} {s s' : Archive}
    {header : Header} (h : s.Bookkeeping) (e : s.applyHeader c config header = .ok s') :
    s'.Bookkeeping := by
  obtain ⟨signer, authorize, -, hmem, hrecent, -, rfl⟩ := Iff.mp applyHeader_eq_ok_iff e
  exact (h.openRound config _).record _ _ _ hmem hrecent

/-- The header loop keeps the invariant: induction on the headers, one round at a time. -/
theorem Bookkeeping.foldlM {c : Crypto} {config : DPosConfig} {headers : List Header}
    {s s' : Archive} (h : s.Bookkeeping)
    (e : headers.foldlM (Archive.applyHeader c config) s = .ok s') : s'.Bookkeeping := by
  induction headers generalizing s with
  | nil =>
    cases e
    exact h
  | cons header rest ih =>
    rw [List.foldlM_cons] at e
    cases hs : s.applyHeader c config header with
    | error err =>
      rw [hs] at e
      cases e
    | ok s₁ =>
      rw [hs] at e
      exact ih (h.applyHeader hs) e

/-- A successful `apply` keeps the invariant. -/
theorem Bookkeeping.apply {c : Crypto} {s s' : Archive} {headers : List Header}
    (h : s.Bookkeeping) (e : s.apply c headers = .ok s') : s'.Bookkeeping := by
  cases headers with
  | nil =>
    cases e
    exact h
  | cons first rest =>
    obtain ⟨-, -, x, hx, rfl⟩ := apply_cons_eq_ok c e
    exact Iff.mpr bookkeeping_withHead (h.foldlM hx)

/-- The archives a node can hold: a genesis or checkpoint archive, then any successful
`apply`. -/
inductive Reachable (c : Crypto) : Archive → Prop
  | newArchive (config : DPosConfig) (number : UInt64) (hash : Hash) (signers : List Address) :
      Reachable c (newArchive config number hash signers)
  | apply {s s' : Archive} {headers : List Header} :
      Reachable c s → s.apply c headers = .ok s' → Reachable c s'

/-- **The bookkeeping is consistent in every reachable archive.** -/
theorem bookkeeping_of_reachable {c : Crypto} {s : Archive} (h : Reachable c s) :
    s.Bookkeeping := by
  induction h with
  | newArchive config number hash signers => exact bookkeeping_newArchive config number hash signers
  | apply _ e ih => exact ih.apply e

/-- Signer recovery that reads the signer from the first byte of the extra data. -/
def recoverExtra : Crypto :=
  ⟨fun _ => 0, fun h => .ok ⟨(h.extra.headD 0).toNat, lt_of_lt_of_le (UInt8.toNat_lt _) (by decide)⟩⟩

/-- A header of block `number` sealed by `signer`, voting with `nonce` on `coinbase`. -/
def voteHeader (number : Nat) (signer : UInt8) (coinbase : Address) (nonce : UInt64) : Header :=
  ⟨0, 0, coinbase, 0, 0, 0, 0, number, 0, 0, 0, [signer], 0, nonce⟩

/-- A genesis archive of the signers `1`, `2` and `3`. -/
def threeSigners : Archive := newArchive ⟨15, 30000⟩ 0 0 [1, 2, 3]

/-- Signers `1` and `2` vote to add `4`, which passes; then `3` votes to drop `1`, which stays
open. -/
def votingRun : List Header :=
  [voteHeader 1 1 4 nonceAuthVote, voteHeader 2 2 4 nonceAuthVote, voteHeader 3 3 1 nonceDropVote]

/-- After the voting run the archive has four signers and an open vote, and its bookkeeping is
consistent. -/
theorem bookkeeping_of_reachable_votes :
    ∃ a, threeSigners.apply recoverExtra votingRun = .ok a ∧ a.signers.card = 4 ∧ a.votes ≠ [] ∧
      Reachable recoverExtra a ∧ a.Bookkeeping := by
  obtain ⟨a, happly, hcard, hvotes⟩ : ∃ a, threeSigners.apply recoverExtra votingRun = .ok a ∧
      a.signers.card = 4 ∧ a.votes ≠ [] := ⟨_, rfl, by decide +kernel, by decide +kernel⟩
  have hreach : Reachable recoverExtra a := .apply (.newArchive _ _ _ _) happly
  exact ⟨a, happly, hcard, hvotes, hreach, bookkeeping_of_reachable hreach⟩

end Archive

end EpvChain.Epvdpos
