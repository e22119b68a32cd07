import Mathlib.Data.List.Sort
import Mathlib.Data.String.Basic

/-!
# Matching protocols and laying out their message codes (`peer/peer.go`)

On connect each node runs `matchProtocols` over its protocols and the caps the other advertised:
it sorts the caps by name then version, and gives each cap it also runs the next `Length`
message codes from `baseProtocolLength`; a later version of a placed name takes the earlier
one's codes back (`offset -= old.Length`). `protoRW.WriteMsg` moves a code up by the protocol's
offset, the receiver finds the protocol whose range holds it (`Peer.getProto`) and moves it back.

* `matchProtocols_selects` — for any caps in any order, the result is a layout (`layout`) in
  strictly increasing name order of protocols this node runs for an advertised cap, each at the
  highest version advertised of its name.
* `protocol_codes_agree` — two nodes agreeing on the `Length` of shared protocols select the same
  version of every name at the same offset; with no range past `2^64` the ranges are disjoint,
  and a code one node writes the other reads back to the same protocol and code.
* `matchProtocols_wraps` — offsets are `uint64`: lengths adding up past `2^64` share a code.

`sort.Sort` is a merge sort here; caps are totally ordered, so the sorted order is the same
whichever sort finds it. Names compare as strings (Go's byte order is Lean's character order on
valid UTF-8). Channels, `Run` and the info functions are not modelled.
-/

namespace EpvChain.P2p

/-- `baseProtocolLength`: the codes of the base protocol come first. -/
def baseProtocolLength : UInt64 := 16

/-- The fields of `Protocol` that matching and dispatch read.
Source: `peer/protocol.go` `type Protocol struct` -/
structure Protocol where
  Name : String
  Version : Nat
  Length : UInt64
  deriving DecidableEq, Repr

/-- `Cap`: a protocol's name and version, as a node advertises it.
Source: `peer/protocol.go` `type Cap struct` -/
structure Cap where
  Name : String
  Version : Nat
  deriving DecidableEq, Repr

/-- `p.cap()`. -/
def Protocol.cap (p : Protocol) : Cap := ⟨p.Name, p.Version⟩

/-- `capsByNameAndVersion.Less`.
Source: `peer/protocol.go` -/
def Cap.Less (a b : Cap) : Bool :=
  decide (a.Name < b.Name) || (a.Name == b.Name && decide (a.Version < b.Version))

/-- `sort.Sort(capsByNameAndVersion(caps))`. -/
def sortCaps (caps : List Cap) : List Cap := caps.mergeSort fun a b => !b.Less a

/-- `protoRW`: a matched protocol and the first of its codes.
Source: `peer/peer.go` `type protoRW struct` -/
structure ProtoRW where
  proto : Protocol
  offset : UInt64
  deriving DecidableEq, Repr

/-- The errors of `peer.go` that dispatch raises. -/
inductive PeerError where
  | invalidMsgCode (detail : String)
  deriving DecidableEq, Repr

/-- One turn of the loop of `matchProtocols`: when this node runs the cap's protocol, it takes
the next codes, or the codes of the version of its name placed before.
Source: `peer/peer.go` `matchProtocols` -/
def matchCap (protocols : List Protocol) (cap : Cap) (offset : UInt64)
    (result : String → Option ProtoRW) : UInt64 × (String → Option ProtoRW) :=
  match protocols.find? fun proto => proto.Name == cap.Name && proto.Version == cap.Version with
  | none => (offset, result)
  | some proto =>
    let offset := match result cap.Name with
      | some old => offset - old.proto.Length
      | none => offset
    (offset + proto.Length, Function.update result cap.Name (some ⟨proto, offset⟩))

section MatchCap

variable {protocols : List Protocol} {cap : Cap} {offset : UInt64}
  {result : String → Option ProtoRW} {proto : Protocol}

/-- A cap this node does not run leaves the offset and the result alone. -/
theorem matchCap_of_none
    (h : protocols.find? (fun proto => proto.Name == cap.Name && proto.Version == cap.Version) = none) :
    matchCap protocols cap offset result = (offset, result) := by
  simp only [matchCap, h]

/-- A cap of a name not placed yet takes the next codes. -/
theorem matchCap_new
    (h : protocols.find? (fun proto => proto.Name == cap.Name && proto.Version == cap.Version) =
      some proto) (hr : result cap.Name = none) :
    matchCap protocols cap offset result =
      (offset + proto.Length, Function.update result cap.Name (some ⟨proto, offset⟩)) := by
  simp only [matchCap, h, hr]

/-- A later version of a placed name takes back the earlier one's codes and replaces it. -/
theorem matchCap_replace
    (h : protocols.find? (fun proto => proto.Name == cap.Name && proto.Version == cap.Version) =
      some proto) {old : ProtoRW} (hr : result cap.Name = some old) :
    matchCap protocols cap offset result =
      (offset - old.proto.Length + proto.Length,
        Function.update result cap.Name (some ⟨proto, offset - old.proto.Length⟩)) := by
  simp only [matchCap, h, hr]

end MatchCap

/-- The loop of `matchProtocols` over the sorted caps. -/
def matchLoop (protocols : List Protocol) :
    List Cap → UInt64 → (String → Option ProtoRW) → String → Option ProtoRW
  | [], _, result => result
  | cap :: caps, offset, result =>
    let (offset, result) := matchCap protocols cap offset result
    matchLoop protocols caps offset result

/-- `matchProtocols(protocols, caps, rw)`: the protocol of each name and its offset.
Source: `peer/peer.go` `matchProtocols` -/
def matchProtocols (protocols : List Protocol) (caps : List Cap) : String → Option ProtoRW :=
  matchLoop protocols (sortCaps caps) baseProtocolLength fun _ => none

/-- The range test of `getProto`, its end computed in `uint64`. -/
def ProtoRW.handles (rw : ProtoRW) (code : UInt64) : Bool :=
  decide (code ≥ rw.offset) && decide (code < rw.offset + rw.proto.Length)

/-- `p.getProto(code)`: the first running protocol whose range holds the code, in the order Go
ranges over the map `p.running`.
Source: `peer/peer.go` `Peer.getProto` -/
def getProto (running : List ProtoRW) (code : UInt64) : Except PeerError ProtoRW :=
  match running.find? (·.handles code) with
  | some rw => .ok rw
  | none => .error (.invalidMsgCode (toString code.toNat))

/-- `rw.WriteMsg(msg)`: the code the message goes out with.
Source: `peer/peer.go` `protoRW.WriteMsg` -/
def ProtoRW.WriteMsg (rw : ProtoRW) (code : UInt64) : Except PeerError UInt64 :=
  if code ≥ rw.proto.Length then .error (.invalidMsgCode "not handled") else .ok (code + rw.offset)

/-- `rw.ReadMsg()`: the code handed to the protocol.
Source: `peer/peer.go` `protoRW.ReadMsg` -/
def ProtoRW.ReadMsg (rw : ProtoRW) (code : UInt64) : UInt64 := code - rw.offset

/-! ### The order of caps -/

/-- The order `sortCaps` sorts by: by name, then by version. -/
theorem cap_le_iff {a b : Cap} :
    (!b.Less a) = true ↔ a.Name < b.Name ∨ (a.Name = b.Name ∧ a.Version ≤ b.Version) := by
  simp only [Cap.Less, Bool.not_eq_true', Bool.or_eq_false_iff, decide_eq_false_iff_not,
    Bool.and_eq_false_iff, beq_eq_false_iff_ne, not_lt]
  constructor
  · rintro ⟨hname, hne | hver⟩
    · exact Or.inl (lt_of_le_of_ne hname (Ne.symm hne))
    · rcases lt_or_eq_of_le hname with h | h
      · exact Or.inl h
      · exact Or.inr ⟨h, hver⟩
  · rintro (h | ⟨h, hver⟩)
    · exact ⟨h.le, Or.inl (ne_of_gt h)⟩
    · exact ⟨h.le, Or.inr hver⟩

/-- The order `sort.Sort` sorts caps by is transitive. -/
theorem cap_le_trans (a b c : Cap) (hab : (!b.Less a) = true) (hbc : (!c.Less b) = true) :
    (!c.Less a) = true := by
  rw [cap_le_iff] at hab hbc ⊢
  rcases hab with h₁ | ⟨h₁, v₁⟩ <;> rcases hbc with h₂ | ⟨h₂, v₂⟩
  · exact Or.inl (h₁.trans h₂)
  · exact Or.inl (h₂ ▸ h₁)
  · exact Or.inl (h₁ ▸ h₂)
  · exact Or.inr ⟨h₁.trans h₂, v₁.trans v₂⟩

/-- Any two caps compare: by name, then by version. -/
theorem cap_le_total (a b : Cap) : ((!b.Less a) || (!a.Less b)) = true := by
  rw [Bool.or_eq_true, cap_le_iff, cap_le_iff]
  rcases lt_trichotomy a.Name b.Name with h | h | h
  · exact Or.inl (Or.inl h)
  · rcases le_total a.Version b.Version with hv | hv
    · exact Or.inl (Or.inr ⟨h, hv⟩)
    · exact Or.inr (Or.inr ⟨h.symm, hv⟩)
  · exact Or.inr (Or.inl h)

/-- Sorting keeps the caps. -/
theorem sortCaps_perm (caps : List Cap) : (sortCaps caps).Perm caps :=
  List.mergeSort_perm caps _

/-- Sorting orders the caps by name, then version. -/
theorem sortCaps_pairwise (caps : List Cap) :
    (sortCaps caps).Pairwise fun a b => (!b.Less a) = true :=
  List.pairwise_mergeSort cap_le_trans cap_le_total caps

/-- Caps equal in the order are equal: the sort's result does not depend on the sort. -/
theorem cap_le_antisymm {a b : Cap} (hab : (!b.Less a) = true) (hba : (!a.Less b) = true) :
    a = b := by
  rw [cap_le_iff] at hab hba
  have hname : a.Name = b.Name := by
    rcases hab with h | h <;> rcases hba with h' | h'
    · exact absurd (h.trans h') (lt_irrefl _)
    · exact absurd (h'.1 ▸ h) (lt_irrefl _)
    · exact h.1
    · exact h.1
  have hver : a.Version = b.Version := by
    rcases hab with h | h
    · exact absurd (hname ▸ h) (lt_irrefl _)
    rcases hba with h' | h'
    · exact absurd (hname ▸ h') (lt_irrefl _)
    exact le_antisymm h.2 h'.2
  cases a
  cases b
  simp only at hname hver
  rw [hname, hver]

/-- Caps already in order are left as they are. -/
theorem sortCaps_eq_self {caps : List Cap} (h : caps.Pairwise fun a b => (!b.Less a) = true) :
    sortCaps caps = caps :=
  (sortCaps_perm caps).eq_of_pairwise (fun _ _ _ _ hab hba => cap_le_antisymm hab hba)
    (sortCaps_pairwise caps) h

/-! ### Layouts -/

/-- The protocols `ps` laid out from `off`, each after the codes of those before it. -/
def layout : List Protocol → UInt64 → List ProtoRW
  | [], _ => []
  | p :: ps, off => ⟨p, off⟩ :: layout ps (off + p.Length)

/-- Where the codes after `layout ps off` start. -/
def layoutEnd : List Protocol → UInt64 → UInt64
  | [], off => off
  | p :: ps, off => layoutEnd ps (off + p.Length)

/-- The entry of a name in a list of matched protocols. -/
def lookupName (es : List ProtoRW) (n : String) : Option ProtoRW :=
  es.find? fun rw => rw.proto.Name == n

/-- Laying out one more protocol puts it at the end of the layout. -/
theorem layout_append (ps : List Protocol) (p : Protocol) (off : UInt64) :
    layout (ps ++ [p]) off = layout ps off ++ [⟨p, layoutEnd ps off⟩] := by
  induction ps generalizing off with
  | nil => rfl
  | cons q ps ih => simp only [List.cons_append, layout, layoutEnd, ih]

/-- One more protocol moves the layout's end by its length. -/
theorem layoutEnd_append (ps : List Protocol) (p : Protocol) (off : UInt64) :
    layoutEnd (ps ++ [p]) off = layoutEnd ps off + p.Length := by
  induction ps generalizing off with
  | nil => rfl
  | cons q ps ih => simp only [List.cons_append, layoutEnd, ih]

/-- A layout holds its protocols in order. -/
theorem map_proto_layout (ps : List Protocol) (off : UInt64) : (layout ps off).map (·.proto) = ps := by
  induction ps generalizing off with
  | nil => rfl
  | cons q ps ih => simp only [layout, List.map_cons, ih]

/-- An entry of a layout is one of its protocols. -/
theorem proto_mem_of_mem_layout {ps : List Protocol} {off : UInt64} {rw : ProtoRW}
    (h : rw ∈ layout ps off) : rw.proto ∈ ps := by
  rw [← map_proto_layout ps off]
  exact List.mem_map_of_mem h

/-- A name no protocol has finds nothing in a layout. -/
theorem lookupName_of_not_mem {ps : List Protocol} {n : String} (h : n ∉ ps.map (·.Name))
    (off : UInt64) : lookupName (layout ps off) n = none := by
  rw [lookupName, List.find?_eq_none]
  intro rw hrw heq
  exact h (List.mem_map.mpr ⟨rw.proto, proto_mem_of_mem_layout hrw, by simpa using heq⟩)

/-- A protocol of a new name laid out after the others is found under its name, at the end of
theirs. -/
theorem lookupName_append {ps : List Protocol} {p : Protocol} (h : p.Name ∉ ps.map (·.Name))
    (off : UInt64) :
    lookupName (layout (ps ++ [p]) off) =
      Function.update (lookupName (layout ps off)) p.Name (some ⟨p, layoutEnd ps off⟩) := by
  funext n
  have hsplit : lookupName (layout (ps ++ [p]) off) n =
      (lookupName (layout ps off) n).or (lookupName [⟨p, layoutEnd ps off⟩] n) := by
    rw [layout_append, lookupName, List.find?_append]
    rfl
  rw [hsplit]
  by_cases hn : n = p.Name
  · subst hn
    rw [lookupName_of_not_mem h, Function.update_self]
    simp [lookupName]
  · rw [Function.update_of_ne hn]
    have hnone : lookupName [⟨p, layoutEnd ps off⟩] n = none := by
      simp [lookupName, Ne.symm hn]
    rw [hnone, Option.or_none]

/-- In a list whose keys strictly increase, an element is fixed by its key. -/
theorem eq_of_key_eq {β : Type} {f : β → String} {l : List β} (hs : (l.map f).Pairwise (· < ·))
    {a b : β} (ha : a ∈ l) (hb : b ∈ l) (h : f a = f b) : a = b := by
  induction l with
  | nil => simp at ha
  | cons x xs ih =>
    rw [List.map_cons, List.pairwise_cons] at hs
    have hx : ∀ y ∈ xs, f x < f y := fun y hy => hs.1 (f y) (List.mem_map_of_mem hy)
    rcases List.mem_cons.mp ha with hax | hax <;> rcases List.mem_cons.mp hb with hbx | hbx
    · exact hax.trans hbx.symm
    · rw [hax] at h
      exact absurd (h ▸ hx b hbx) (lt_irrefl _)
    · rw [hbx] at h
      exact absurd (h ▸ hx a hax) (lt_irrefl _)
    · exact ih hs.2 hax hbx

/-- Every entry of a layout of distinct names is what `lookupName` finds under its name. -/
theorem lookupName_of_mem {ps : List Protocol} (hs : (ps.map (·.Name)).Pairwise (· < ·))
    {off : UInt64} {rw : ProtoRW} (hrw : rw ∈ layout ps off) :
    lookupName (layout ps off) rw.proto.Name = some rw := by
  have hs' : ((layout ps off).map (·.proto.Name)).Pairwise (· < ·) := by
    rw [show (layout ps off).map (·.proto.Name) = ((layout ps off).map (·.proto)).map (·.Name) by
      simp, map_proto_layout]
    exact hs
  cases hfind : lookupName (layout ps off) rw.proto.Name with
  | none =>
    rw [lookupName, List.find?_eq_none] at hfind
    exact absurd (by simp) (hfind rw hrw)
  | some x =>
    have hx := List.find?_some hfind
    simp only [beq_iff_eq] at hx
    rw [eq_of_key_eq hs' (List.mem_of_find?_eq_some hfind) hrw hx]

/-! ### One turn of the loop -/

/-- The protocol `matchCap` finds for a cap runs that cap. -/
theorem find_cap_eq_some {protocols : List Protocol} {c : Cap} {p : Protocol}
    (h : protocols.find? (fun proto => proto.Name == c.Name && proto.Version == c.Version) = some p) :
    p ∈ protocols ∧ p.cap = c := by
  refine ⟨List.mem_of_find?_eq_some h, ?_⟩
  have hp := List.find?_some h
  simp only [Bool.and_eq_true, beq_iff_eq] at hp
  simp [Protocol.cap, hp.1, hp.2]

/-- `find?` finds no protocol for a cap exactly when none runs it. -/
theorem find_cap_eq_none {protocols : List Protocol} {c : Cap}
    (h : protocols.find? (fun proto => proto.Name == c.Name && proto.Version == c.Version) = none) :
    ¬∃ q ∈ protocols, q.cap = c := by
  rintro ⟨q, hq, rfl⟩
  rw [List.find?_eq_none] at h
  exact h q hq (by simp [Protocol.cap])

/-- What `matchLoop` has built after the caps `pre`, as the layout of `ps`: the names of `ps`
strictly increase, each protocol of `ps` is one this node runs for a cap of `pre`, and each cap of
`pre` this node runs has a protocol of its name in `ps`, of that version or a higher one. -/
structure Selected (protocols : List Protocol) (pre : List Cap) (ps : List Protocol) : Prop where
  sorted : (ps.map (·.Name)).Pairwise (· < ·)
  mem : ∀ p ∈ ps, p ∈ protocols ∧ p.cap ∈ pre
  highest : ∀ c ∈ pre, (∃ q ∈ protocols, q.cap = c) →
    ∃ p ∈ ps, p.Name = c.Name ∧ c.Version ≤ p.Version

/-- Selection depends only on the set of caps seen. -/
theorem Selected.congr {protocols : List Protocol} {pre pre' : List Cap} {ps : List Protocol}
    (h : Selected protocols pre ps) (hmem : ∀ c, c ∈ pre ↔ c ∈ pre') : Selected protocols pre' ps :=
  ⟨h.sorted, fun p hp => ⟨(h.mem p hp).1, (hmem _).mp (h.mem p hp).2⟩,
    fun c hc hrun => h.highest c ((hmem c).mpr hc) hrun⟩

section Step

variable {protocols : List Protocol} {pre : List Cap} {c : Cap} {ps : List Protocol} (off : UInt64)

/-- A cap this node does not run changes nothing. -/
theorem Selected.skip (hsel : Selected protocols pre ps) (hrun : ¬∃ q ∈ protocols, q.cap = c) :
    Selected protocols (pre ++ [c]) ps := by
  refine ⟨hsel.sorted, fun p hp => ⟨(hsel.mem p hp).1, List.mem_append_left _ (hsel.mem p hp).2⟩,
    fun c' hc' hrun' => ?_⟩
  rcases List.mem_append.mp hc' with hc' | hc'
  · exact hsel.highest c' hc' hrun'
  · rw [List.mem_singleton] at hc'
    subst hc'
    exact absurd hrun' hrun

/-- A cap of a name not laid out yet, and above every cap before it: its protocol goes last. -/
theorem Selected.extend (hsel : Selected protocols pre ps) {p : Protocol} (hp : p ∈ protocols)
    (hpc : p.cap = c) (hlt : ∀ q ∈ ps, q.Name < c.Name) :
    Selected protocols (pre ++ [c]) (ps ++ [p]) := by
  have hpn : p.Name = c.Name := congrArg Cap.Name hpc
  refine ⟨?_, fun r hr => ?_, fun c' hc' hrun => ?_⟩
  · rw [List.map_append, List.pairwise_append]
    refine ⟨hsel.sorted, List.pairwise_singleton _ _, fun a ha b hb => ?_⟩
    obtain ⟨q, hq, rfl⟩ := List.mem_map.mp ha
    rw [List.map_singleton, List.mem_singleton] at hb
    rw [hb, hpn]
    exact hlt q hq
  · rcases List.mem_append.mp hr with hr | hr
    · exact ⟨(hsel.mem r hr).1, List.mem_append_left _ (hsel.mem r hr).2⟩
    · rw [List.mem_singleton] at hr
      subst hr
      exact ⟨hp, hpc ▸ List.mem_append_right _ (List.mem_singleton_self _)⟩
  · rcases List.mem_append.mp hc' with hc' | hc'
    · obtain ⟨r, hr, hrn, hrv⟩ := hsel.highest c' hc' hrun
      exact ⟨r, List.mem_append_left _ hr, hrn, hrv⟩
    · rw [List.mem_singleton] at hc'
      subst hc'
      exact ⟨p, List.mem_append_right _ (List.mem_singleton_self _), hpn,
        (congrArg Cap.Version hpc).ge⟩

/-- A cap of the name laid out last, and above every cap before it: its protocol replaces that
name's. -/
theorem Selected.replace {ps₀ : List Protocol} {q : Protocol}
    (hsel : Selected protocols pre (ps₀ ++ [q])) (hle : ∀ c' ∈ pre, (!c.Less c') = true)
    {p : Protocol} (hp : p ∈ protocols) (hpc : p.cap = c) (hq : q.Name = c.Name) :
    Selected protocols (pre ++ [c]) (ps₀ ++ [p]) := by
  have hpn : p.Name = c.Name := congrArg Cap.Name hpc
  have hnames : (ps₀ ++ [p]).map (·.Name) = (ps₀ ++ [q]).map (·.Name) := by simp [hpn, hq]
  refine ⟨hnames ▸ hsel.sorted, fun r hr => ?_, fun c' hc' hrun => ?_⟩
  · rcases List.mem_append.mp hr with hr | hr
    · have := hsel.mem r (List.mem_append_left _ hr)
      exact ⟨this.1, List.mem_append_left _ this.2⟩
    · rw [List.mem_singleton] at hr
      subst hr
      exact ⟨hp, hpc ▸ List.mem_append_right _ (List.mem_singleton_self _)⟩
  · rcases List.mem_append.mp hc' with hc' | hc'
    · obtain ⟨r, hr, hrn, hrv⟩ := hsel.highest c' hc' hrun
      rcases List.mem_append.mp hr with hr | hr
      · exact ⟨r, List.mem_append_left _ hr, hrn, hrv⟩
      · -- the version replaced was of the cap's name, so the cap is above it
        rw [List.mem_singleton] at hr
        subst hr
        have hname : c'.Name = c.Name := hrn.symm.trans hq
        have hver : c'.Version ≤ c.Version := by
          rcases cap_le_iff.mp (hle c' hc') with h | h
          · exact absurd (hname ▸ h) (lt_irrefl _)
          · exact h.2
        exact ⟨p, List.mem_append_right _ (List.mem_singleton_self _), hpn.trans hname.symm,
          hver.trans (congrArg Cap.Version hpc).ge⟩
    · rw [List.mem_singleton] at hc'
      subst hc'
      exact ⟨p, List.mem_append_right _ (List.mem_singleton_self _), hpn,
        (congrArg Cap.Version hpc).ge⟩

/-- **One turn of the loop keeps the layout.** For a cap above every cap before it, `matchCap`
on the layout of `ps` gives the layout of `ps` with the cap's protocol last, or with it in place
of the protocol of its name. -/
theorem matchCap_selected (hsel : Selected protocols pre ps)
    (hle : ∀ c' ∈ pre, (!c.Less c') = true) :
    ∃ ps', Selected protocols (pre ++ [c]) ps' ∧
      matchCap protocols c (layoutEnd ps off) (lookupName (layout ps off)) =
        (layoutEnd ps' off, lookupName (layout ps' off)) := by
  rcases hfind : protocols.find? (fun proto => proto.Name == c.Name && proto.Version == c.Version)
    with _ | p
  · exact ⟨ps, hsel.skip (find_cap_eq_none hfind), matchCap_of_none hfind⟩
  obtain ⟨hp, hpc⟩ := find_cap_eq_some hfind
  have hpn : p.Name = c.Name := congrArg Cap.Name hpc
  -- the names laid out so far are those of caps below this one
  have hbelow : ∀ q ∈ ps, q.Name ≤ c.Name := fun q hq => by
    rcases cap_le_iff.mp (hle q.cap (hsel.mem q hq).2) with h | h
    · exact h.le
    · exact h.1.le
  by_cases hin : c.Name ∈ ps.map (·.Name)
  · -- the cap's name is the last laid out: its codes are taken back
    obtain ⟨ps₀, q, rfl⟩ : ∃ ps₀ q, ps = ps₀ ++ [q] := by
      rcases List.eq_nil_or_concat ps with rfl | ⟨ps₀, q, rfl⟩
      · simp at hin
      · exact ⟨ps₀, q, List.concat_eq_append⟩
    have hsorted := hsel.sorted
    rw [List.map_append, List.pairwise_append] at hsorted
    have hlast : ∀ r ∈ ps₀, r.Name < q.Name := fun r hr =>
      hsorted.2.2 r.Name (List.mem_map_of_mem hr) q.Name (by simp)
    have hq : q.Name = c.Name := by
      rw [List.map_append, List.mem_append] at hin
      rcases hin with hin | hin
      · obtain ⟨r, hr, hrn⟩ := List.mem_map.mp hin
        exact absurd (hrn ▸ hlast r hr) (not_lt.mpr (hbelow q (by simp)))
      · have : c.Name = q.Name := by simpa using hin
        exact this.symm
    have hnot : q.Name ∉ ps₀.map (·.Name) := fun h => by
      obtain ⟨r, hr, hrn⟩ := List.mem_map.mp h
      exact lt_irrefl _ (hrn ▸ hlast r hr)
    have hlook : lookupName (layout (ps₀ ++ [q]) off) c.Name = some ⟨q, layoutEnd ps₀ off⟩ := by
      rw [lookupName_append hnot, ← hq, Function.update_self]
    refine ⟨ps₀ ++ [p], hsel.replace hle hp hpc hq, ?_⟩
    rw [matchCap_replace hfind hlook, layoutEnd_append, UInt64.add_sub_cancel, layoutEnd_append,
      lookupName_append hnot, lookupName_append (hpn.trans hq.symm ▸ hnot), hpn, ← hq,
      Function.update_idem]
  · -- a new name: it takes the next codes
    have hlt : ∀ q ∈ ps, q.Name < c.Name := fun q hq =>
      lt_of_le_of_ne (hbelow q hq) fun h => hin (h ▸ List.mem_map_of_mem hq)
    refine ⟨ps ++ [p], hsel.extend hp hpc hlt, ?_⟩
    rw [matchCap_new hfind (lookupName_of_not_mem hin off), layoutEnd_append,
      lookupName_append (hpn ▸ hin), hpn]

end Step

/-! ### The whole loop -/

/-- **The loop keeps the layout**, over sorted caps, by induction on the caps still to come. -/
theorem matchLoop_selected {protocols : List Protocol} (off : UInt64) :
    ∀ (caps pre : List Cap) (ps : List Protocol), Selected protocols pre ps →
      (pre ++ caps).Pairwise (fun a b => (!b.Less a) = true) →
      ∃ ps', Selected protocols (pre ++ caps) ps' ∧
        matchLoop protocols caps (layoutEnd ps off) (lookupName (layout ps off)) =
          lookupName (layout ps' off)
  | [], pre, ps, hsel, _ => ⟨ps, by simpa using hsel, rfl⟩
  | c :: caps, pre, ps, hsel, hsort => by
    have hle : ∀ c' ∈ pre, (!c.Less c') = true := fun c' hc' =>
      (List.pairwise_append.mp hsort).2.2 c' hc' c (List.mem_cons_self)
    obtain ⟨ps₁, hsel₁, hstep⟩ := matchCap_selected off hsel hle
    have hsort₁ : (pre ++ [c] ++ caps).Pairwise (fun a b => (!b.Less a) = true) := by
      simpa using hsort
    obtain ⟨ps', hsel', hrun⟩ := matchLoop_selected off caps (pre ++ [c]) ps₁ hsel₁ hsort₁
    refine ⟨ps', by simpa using hsel', ?_⟩
    simp only [matchLoop, hstep]
    exact hrun

/-- **What `matchProtocols` selects**, for every list of protocols and every list of caps in any
order: a layout from `baseProtocolLength` of protocols in strictly increasing name order, each
one this node runs for an advertised cap, and of each name this node runs for some cap, the
highest version advertised. -/
theorem matchProtocols_selects (protocols : List Protocol) (caps : List Cap) :
    ∃ ps, Selected protocols caps ps ∧
      matchProtocols protocols caps = lookupName (layout ps baseProtocolLength) := by
  have hstart : Selected protocols [] [] := ⟨List.Pairwise.nil, by simp, by simp⟩
  obtain ⟨ps, hsel, hrun⟩ := matchLoop_selected baseProtocolLength (sortCaps caps) [] []
    hstart (by simpa using sortCaps_pairwise caps)
  exact ⟨ps, hsel.congr fun c => by simpa using (sortCaps_perm caps).mem_iff, hrun⟩

/-! ### Both ends select the same protocols -/

/-- What the two ends of a connection must agree on for a name: the version, the length and the
offset. -/
def ProtoRW.view (rw : ProtoRW) : Cap × UInt64 × UInt64 := (rw.proto.cap, rw.proto.Length, rw.offset)

/-- A cap both nodes run, of the highest such version of its name. -/
def TopShared (PA PB : List Protocol) (c : Cap) : Prop :=
  ((∃ p ∈ PA, p.cap = c) ∧ ∃ q ∈ PB, q.cap = c) ∧
    ∀ v, ((∃ p ∈ PA, p.cap = ⟨c.Name, v⟩) ∧ ∃ q ∈ PB, q.cap = ⟨c.Name, v⟩) → v ≤ c.Version

/-- A top shared cap of two nodes is one whichever node is first. -/
theorem topShared_comm {PA PB : List Protocol} {c : Cap} : TopShared PA PB c ↔ TopShared PB PA c := by
  simp only [TopShared, and_comm]

/-- Against the caps of the other node's protocols, the caps of the selected protocols are the
caps both nodes run, the highest version of each name. -/
theorem mem_selected_iff {PA PB : List Protocol} {caps : List Cap} {ps : List Protocol}
    (hsel : Selected PA caps ps) (hcaps : ∀ c, c ∈ caps ↔ ∃ q ∈ PB, q.cap = c) (c : Cap) :
    c ∈ ps.map Protocol.cap ↔ TopShared PA PB c := by
  -- a selected protocol is shared: it runs a cap the other node advertised
  have hshared : ∀ r ∈ ps, (∃ p ∈ PA, p.cap = r.cap) ∧ ∃ q ∈ PB, q.cap = r.cap := fun r hr =>
    ⟨⟨r, (hsel.mem r hr).1, rfl⟩, (hcaps r.cap).mp (hsel.mem r hr).2⟩
  -- and of its name no shared version is higher
  have hmax : ∀ r ∈ ps, ∀ v, ((∃ p ∈ PA, p.cap = ⟨r.Name, v⟩) ∧ ∃ q ∈ PB, q.cap = ⟨r.Name, v⟩) →
      v ≤ r.Version := by
    rintro r hr v ⟨hA, hB⟩
    obtain ⟨r', hr', hname, hver⟩ := hsel.highest _ ((hcaps _).mpr hB) hA
    rw [eq_of_key_eq hsel.sorted hr' hr hname] at hver
    exact hver
  constructor
  · rintro hc
    obtain ⟨r, hr, rfl⟩ := List.mem_map.mp hc
    exact ⟨hshared r hr, hmax r hr⟩
  · rintro ⟨⟨hA, hB⟩, htop⟩
    obtain ⟨r, hr, hname, hver⟩ := hsel.highest c ((hcaps c).mpr hB) hA
    have hle : r.Version ≤ c.Version := by
      have h := htop r.Version
      rw [← hname] at h
      exact h (hshared r hr)
    refine List.mem_map.mpr ⟨r, hr, ?_⟩
    simp [Protocol.cap, hname, le_antisymm hle hver]

/-- Two selections with the same caps, from protocol lists that agree on lengths, lay out the
same codes. -/
theorem map_view_layout {PA PB : List Protocol}
    (hlen : ∀ p ∈ PA, ∀ q ∈ PB, p.cap = q.cap → p.Length = q.Length) :
    ∀ (psA psB : List Protocol), (∀ p ∈ psA, p ∈ PA) → (∀ q ∈ psB, q ∈ PB) →
      psA.map Protocol.cap = psB.map Protocol.cap → ∀ off : UInt64,
      (layout psA off).map ProtoRW.view = (layout psB off).map ProtoRW.view
  | [], [], _, _, _, _ => rfl
  | p :: psA, q :: psB, hA, hB, hcaps, off => by
    simp only [List.map_cons, List.cons.injEq] at hcaps
    have hL : p.Length = q.Length := hlen p (hA p (by simp)) q (hB q (by simp)) hcaps.1
    simp only [layout, List.map_cons, ProtoRW.view, hcaps.1, hL]
    rw [map_view_layout hlen psA psB (fun r hr => hA r (by simp [hr]))
      (fun r hr => hB r (by simp [hr])) hcaps.2]

/-- **Both ends agree**: each node's selection shows the same version, length and offset under
every name. -/
theorem matchProtocols_views_agree {PA PB : List Protocol} {capsA capsB : List Cap}
    (hA : ∀ c, c ∈ capsA ↔ ∃ p ∈ PA, p.cap = c) (hB : ∀ c, c ∈ capsB ↔ ∃ q ∈ PB, q.cap = c)
    (hlen : ∀ p ∈ PA, ∀ q ∈ PB, p.cap = q.cap → p.Length = q.Length) (n : String) :
    (matchProtocols PA capsB n).map ProtoRW.view = (matchProtocols PB capsA n).map ProtoRW.view := by
  obtain ⟨psA, hselA, hresA⟩ := matchProtocols_selects PA capsB
  obtain ⟨psB, hselB, hresB⟩ := matchProtocols_selects PB capsA
  -- the two lists of selected caps, both sorted by name, have the same members
  have hsortedA := hselA.sorted
  have hsortedB := hselB.sorted
  rw [show psA.map (·.Name) = (psA.map Protocol.cap).map (·.Name) by simp [Protocol.cap],
    List.pairwise_map] at hsortedA
  rw [show psB.map (·.Name) = (psB.map Protocol.cap).map (·.Name) by simp [Protocol.cap],
    List.pairwise_map] at hsortedB
  have hmem : ∀ c, c ∈ psA.map Protocol.cap ↔ c ∈ psB.map Protocol.cap := fun c => by
    rw [mem_selected_iff hselA hB, mem_selected_iff hselB hA, topShared_comm]
  have hnodupA : (psA.map Protocol.cap).Nodup := hsortedA.imp fun h heq => by
    subst heq
    exact lt_irrefl _ h
  have hnodupB : (psB.map Protocol.cap).Nodup := hsortedB.imp fun h heq => by
    subst heq
    exact lt_irrefl _ h
  have hperm : (psA.map Protocol.cap).Perm (psB.map Protocol.cap) :=
    (List.perm_ext_iff_of_nodup hnodupA hnodupB).mpr hmem
  have hcaps : psA.map Protocol.cap = psB.map Protocol.cap :=
    hperm.eq_of_pairwise (fun _ _ _ _ hab hba => absurd (hab.trans hba) (lt_irrefl _))
      hsortedA hsortedB
  have hviews := map_view_layout hlen psA psB (fun p hp => (hselA.mem p hp).1)
    (fun q hq => (hselB.mem q hq).1) hcaps baseProtocolLength
  -- a lookup by name reads the views
  have hread : ∀ es : List ProtoRW, (lookupName es n).map ProtoRW.view =
      (es.map ProtoRW.view).find? fun v => v.1.Name == n := fun es => by
    rw [List.find?_map]
    rfl
  rw [hresA, hresB, hread, hread, hviews]

/-! ### Dispatch -/

/-- The ranges of a layout none of whose ranges passes `2^64` follow one another. -/
theorem le_offset_of_mem_layout :
    ∀ (ps : List Protocol) (off : UInt64),
      (∀ rw ∈ layout ps off, rw.offset.toNat + rw.proto.Length.toNat < 2 ^ 64) →
      ∀ rw ∈ layout ps off, off.toNat ≤ rw.offset.toNat
  | [], _, _, rw, hrw => by simp [layout] at hrw
  | p :: ps, off, hfit, rw, hrw => by
    have hp := hfit ⟨p, off⟩ (by simp [layout])
    have hnext : (off + p.Length).toNat = off.toNat + p.Length.toNat := by
      rw [UInt64.toNat_add, Nat.mod_eq_of_lt hp]
    rcases List.mem_cons.mp hrw with rfl | hrw
    · exact le_rfl
    · have := le_offset_of_mem_layout ps (off + p.Length)
        (fun r hr => hfit r (List.mem_cons_of_mem _ hr)) rw hrw
      omega

/-- Within `2^64` the ranges of a layout come one after the other. -/
theorem pairwise_layout :
    ∀ (ps : List Protocol) (off : UInt64),
      (∀ rw ∈ layout ps off, rw.offset.toNat + rw.proto.Length.toNat < 2 ^ 64) →
      (layout ps off).Pairwise fun a b => a.offset.toNat + a.proto.Length.toNat ≤ b.offset.toNat
  | [], _, _ => List.Pairwise.nil
  | p :: ps, off, hfit => by
    have hp := hfit ⟨p, off⟩ (by simp [layout])
    have hnext : (off + p.Length).toNat = off.toNat + p.Length.toNat := by
      rw [UInt64.toNat_add, Nat.mod_eq_of_lt hp]
    have hrest : ∀ rw ∈ layout ps (off + p.Length),
        rw.offset.toNat + rw.proto.Length.toNat < 2 ^ 64 :=
      fun r hr => hfit r (List.mem_cons_of_mem _ hr)
    refine List.pairwise_cons.mpr ⟨fun b hb => ?_, pairwise_layout ps (off + p.Length) hrest⟩
    have := le_offset_of_mem_layout ps (off + p.Length) hrest b hb
    show off.toNat + p.Length.toNat ≤ b.offset.toNat
    omega

/-- The range test of `getProto`, on a range that does not pass `2^64`. -/
theorem handles_iff {rw : ProtoRW} (hfit : rw.offset.toNat + rw.proto.Length.toNat < 2 ^ 64)
    (code : UInt64) :
    rw.handles code = true ↔
      rw.offset.toNat ≤ code.toNat ∧ code.toNat < rw.offset.toNat + rw.proto.Length.toNat := by
  have hend : (rw.offset + rw.proto.Length).toNat = rw.offset.toNat + rw.proto.Length.toNat := by
    rw [UInt64.toNat_add, Nat.mod_eq_of_lt hfit]
  simp only [ProtoRW.handles, Bool.and_eq_true, decide_eq_true_eq, ge_iff_le,
    UInt64.le_iff_toNat_le, UInt64.lt_iff_toNat_lt, hend]

/-- Of two different entries of a list of ranges in order, one ends before the other starts, so
no code is in both. -/
theorem eq_of_mem_ranges {es : List ProtoRW}
    (hpair : es.Pairwise fun a b => a.offset.toNat + a.proto.Length.toNat ≤ b.offset.toNat)
    {a b : ProtoRW} (ha : a ∈ es) (hb : b ∈ es) {code : Nat}
    (hra : a.offset.toNat ≤ code ∧ code < a.offset.toNat + a.proto.Length.toNat)
    (hrb : b.offset.toNat ≤ code ∧ code < b.offset.toNat + b.proto.Length.toNat) : a = b := by
  induction es with
  | nil => simp at ha
  | cons x xs ih =>
    rw [List.pairwise_cons] at hpair
    rcases List.mem_cons.mp ha with hax | hax <;> rcases List.mem_cons.mp hb with hbx | hbx
    · exact hax.trans hbx.symm
    · have := hpair.1 b hbx
      rw [← hax] at this
      omega
    · have := hpair.1 a hax
      rw [← hbx] at this
      omega
    · exact ih hpair.2 hax hbx

/-- In a layout none of whose ranges passes `2^64`, a code is in the range of one entry at most. -/
theorem eq_of_handles {ps : List Protocol} {off : UInt64}
    (hfit : ∀ rw ∈ layout ps off, rw.offset.toNat + rw.proto.Length.toNat < 2 ^ 64)
    {a b : ProtoRW} (ha : a ∈ layout ps off) (hb : b ∈ layout ps off) {code : UInt64}
    (hac : a.handles code = true) (hbc : b.handles code = true) : a = b :=
  eq_of_mem_ranges (pairwise_layout ps off hfit) ha hb ((handles_iff (hfit a ha) code).mp hac)
    ((handles_iff (hfit b hb) code).mp hbc)

/-- What `lookupName` finds is an entry of the name asked for. -/
theorem mem_of_lookupName {es : List ProtoRW} {n : String} {rw : ProtoRW}
    (h : lookupName es n = some rw) : rw ∈ es ∧ rw.proto.Name = n :=
  ⟨List.mem_of_find?_eq_some h, by simpa using List.find?_some h⟩

/-- **Dispatch through a layout.** Against a layout none of whose ranges passes `2^64`, in
whatever order `running` lists its entries, a code that `WriteMsg` of an entry with the view of
`rw` sends goes to `rw`, and `ReadMsg` gives it back. -/
theorem getProto_WriteMsg {ps : List Protocol} {off : UInt64}
    (hfit : ∀ rw ∈ layout ps off, rw.offset.toNat + rw.proto.Length.toNat < 2 ^ 64)
    {running : List ProtoRW} (hrun : ∀ x, x ∈ running ↔ x ∈ layout ps off)
    {rw rwA : ProtoRW} (hrw : rw ∈ layout ps off) (hview : rwA.view = rw.view) {code w : UInt64}
    (hw : rwA.WriteMsg code = .ok w) : getProto running w = .ok rw ∧ rw.ReadMsg w = code := by
  simp only [ProtoRW.view, Prod.mk.injEq] at hview
  obtain ⟨-, hlen, hoff⟩ := hview
  unfold ProtoRW.WriteMsg at hw
  split_ifs at hw with hcode
  obtain rfl := Except.ok.inj hw
  have hcode' : code.toNat < rw.proto.Length.toNat := by
    rw [ge_iff_le, UInt64.le_iff_toNat_le] at hcode
    rw [← hlen]
    omega
  have hf := hfit rw hrw
  -- the code sent is below `2^64` before it is moved up, so it lands in `rw`'s range
  have hsum : (code + rwA.offset).toNat = code.toNat + rw.offset.toNat := by
    rw [UInt64.toNat_add, hoff, Nat.mod_eq_of_lt (by omega)]
  have hhandles : rw.handles (code + rwA.offset) = true := by
    rw [handles_iff hf, hsum]
    omega
  refine ⟨?_, by rw [ProtoRW.ReadMsg, hoff, UInt64.add_sub_cancel]⟩
  unfold getProto
  cases hfind : running.find? (·.handles (code + rwA.offset)) with
  | none =>
    rw [List.find?_eq_none] at hfind
    exact absurd hhandles (hfind rw ((hrun rw).mpr hrw))
  | some x =>
    have hx := (hrun x).mp (List.mem_of_find?_eq_some hfind)
    rw [eq_of_handles hfit hx hrw (by simpa using List.find?_some hfind) hhandles]

/-! ### The two ends of a connection -/

/-- **Both ends of a connection lay out message codes alike.** For two nodes that agree on the
`Length` of every protocol they share, and advertise the caps of their own protocols in any order
and with repeats: `matchProtocols PA capsB` and `matchProtocols PB capsA` show every name with the
same version, length and offset; every name both run is selected, at the highest version both
run; the selection is a layout
from `baseProtocolLength` in strictly increasing name order. And when no range of the selection
passes `2^64`, `getProto` finds at most one protocol for a code, and a code that one node's
`WriteMsg` sends is brought by the other's `getProto`, in any order of its running protocols, to
the protocol of the same name, whose `ReadMsg` gives back the code written. -/
theorem protocol_codes_agree (PA PB : List Protocol) (capsA capsB : List Cap)
    (hA : ∀ c, c ∈ capsA ↔ ∃ p ∈ PA, p.cap = c) (hB : ∀ c, c ∈ capsB ↔ ∃ q ∈ PB, q.cap = c)
    (hlen : ∀ p ∈ PA, ∀ q ∈ PB, p.cap = q.cap → p.Length = q.Length) :
    (∀ n, (matchProtocols PA capsB n).map ProtoRW.view =
      (matchProtocols PB capsA n).map ProtoRW.view) ∧
    (∀ n rw, matchProtocols PA capsB n = some rw → rw.proto.Name = n ∧ rw.proto ∈ PA ∧
      (∃ q ∈ PB, q.cap = rw.proto.cap) ∧
      ∀ p ∈ PA, ∀ q ∈ PB, p.cap = q.cap → p.Name = n → p.Version ≤ rw.proto.Version) ∧
    (∀ p ∈ PA, ∀ q ∈ PB, p.cap = q.cap → ∃ rw, matchProtocols PA capsB p.Name = some rw) ∧
    (∃ ps : List Protocol, (ps.map (·.Name)).Pairwise (· < ·) ∧
      matchProtocols PA capsB = lookupName (layout ps baseProtocolLength)) ∧
    ((∀ n rw, matchProtocols PB capsA n = some rw →
        rw.offset.toNat + rw.proto.Length.toNat < 2 ^ 64) →
      (∀ n m rw rw' code, matchProtocols PB capsA n = some rw →
        matchProtocols PB capsA m = some rw' → rw.handles code = true → rw'.handles code = true →
        n = m) ∧
      ∀ running : List ProtoRW, (∀ x, x ∈ running ↔ ∃ m, matchProtocols PB capsA m = some x) →
        ∀ n rwA code w, matchProtocols PA capsB n = some rwA → rwA.WriteMsg code = .ok w →
          ∃ rwB, matchProtocols PB capsA n = some rwB ∧ getProto running w = .ok rwB ∧
            rwB.ReadMsg w = code) := by
  obtain ⟨psA, hselA, hresA⟩ := matchProtocols_selects PA capsB
  obtain ⟨psB, hselB, hresB⟩ := matchProtocols_selects PB capsA
  have hagree := matchProtocols_views_agree hA hB hlen
  refine ⟨hagree, fun n rw hrw => ?_, fun p hp q hq hpq => ?_, ⟨psA, hselA.sorted, hresA⟩,
    fun hfit => ⟨?_, ?_⟩⟩
  · -- the protocol selected for a name is one both run, of the highest version both run
    rw [hresA] at hrw
    obtain ⟨hmem, hname⟩ := mem_of_lookupName hrw
    have hp := proto_mem_of_mem_layout hmem
    have htop := Iff.mp (mem_selected_iff hselA hB rw.proto.cap) (List.mem_map_of_mem hp)
    refine ⟨hname, (hselA.mem _ hp).1, htop.1.2, fun p hp' q hq hpq hpn => ?_⟩
    have hc : p.cap = ⟨rw.proto.cap.Name, p.Version⟩ := by simp [Protocol.cap, hpn, hname]
    exact htop.2 p.Version ⟨⟨p, hp', hc⟩, ⟨q, hq, hpq ▸ hc⟩⟩
  · -- a name both run is selected: `B` advertises the cap, so a protocol of that name is laid out
    obtain ⟨r, hr, hname, -⟩ := hselA.highest p.cap (Iff.mpr (hB p.cap) ⟨q, hq, hpq.symm⟩)
      ⟨p, hp, rfl⟩
    rw [← map_proto_layout psA baseProtocolLength, List.mem_map] at hr
    obtain ⟨rw, hrw, rfl⟩ := hr
    refine ⟨rw, ?_⟩
    rw [hresA, show p.Name = rw.proto.Name from hname.symm]
    exact lookupName_of_mem hselA.sorted hrw
  all_goals
    -- the fit of every range of `B`'s layout
    have hfitB : ∀ x ∈ layout psB baseProtocolLength,
        x.offset.toNat + x.proto.Length.toNat < 2 ^ 64 := fun x hx =>
      hfit x.proto.Name x (by rw [hresB]; exact lookupName_of_mem hselB.sorted hx)
  · intro n m rw rw' code hn hm hc hc'
    rw [hresB] at hn hm
    obtain ⟨hmn, rfl⟩ := mem_of_lookupName hn
    obtain ⟨hmm, rfl⟩ := mem_of_lookupName hm
    rw [eq_of_handles hfitB hmn hmm hc hc']
  · intro running hrun n rwA code w hrwA hw
    obtain ⟨rwB, hrwB, hview⟩ : ∃ rwB, matchProtocols PB capsA n = some rwB ∧ rwA.view = rwB.view := by
      have h := hagree n
      rw [hrwA] at h
      cases hb : matchProtocols PB capsA n with
      | none => rw [hb] at h; cases h
      | some rwB =>
        rw [hb] at h
        exact ⟨rwB, rfl, Option.some.inj h⟩
    have hrun' : ∀ x, x ∈ running ↔ x ∈ layout psB baseProtocolLength := fun x => by
      rw [hrun x]
      constructor
      · rintro ⟨m, hm⟩
        rw [hresB] at hm
        exact (mem_of_lookupName hm).1
      · intro hx
        exact ⟨x.proto.Name, by rw [hresB]; exact lookupName_of_mem hselB.sorted hx⟩
    have hmemB : rwB ∈ layout psB baseProtocolLength := by
      rw [hresB] at hrwB
      exact (mem_of_lookupName hrwB).1
    exact ⟨rwB, hrwB, getProto_WriteMsg hfitB hrun' hmemB hview hw⟩

/-- Two nodes running `eth/63` and `les/1` in common: one also runs `eth/62`, the other `les/2`
and `shh/5`, and each advertises its caps out of order, one of them twice. -/
def nodeA : List Protocol := [⟨"eth", 62, 8⟩, ⟨"eth", 63, 17⟩, ⟨"les", 1, 15⟩]

/-- A second node, with two versions of `les` and an `shh` that the first does not run. -/
def nodeB : List Protocol := [⟨"eth", 63, 17⟩, ⟨"les", 1, 15⟩, ⟨"les", 2, 21⟩, ⟨"shh", 5, 2⟩]

/-- The caps the first node advertises, out of order and with a repeat. -/
def capsOfA : List Cap := [⟨"les", 1⟩, ⟨"eth", 63⟩, ⟨"eth", 62⟩, ⟨"eth", 63⟩]

/-- The caps the second node advertises, out of order. -/
def capsOfB : List Cap := [⟨"shh", 5⟩, ⟨"les", 2⟩, ⟨"eth", 63⟩, ⟨"les", 1⟩]

/-- Two nodes sharing `eth/63` and `les/1` lay them out alike and read each other's codes back. -/
theorem protocol_codes_agree_eth_les :
    (∀ c, c ∈ capsOfA ↔ ∃ p ∈ nodeA, p.cap = c) ∧ (∀ c, c ∈ capsOfB ↔ ∃ q ∈ nodeB, q.cap = c) ∧
    (∀ p ∈ nodeA, ∀ q ∈ nodeB, p.cap = q.cap → p.Length = q.Length) ∧
    (∀ n, (matchProtocols nodeA capsOfB n).map ProtoRW.view =
      (matchProtocols nodeB capsOfA n).map ProtoRW.view) ∧
    ∃ rw, matchProtocols nodeA capsOfB "les" = some rw := by
  -- each node advertises the caps of its protocols, and no other
  have hA : ∀ c, c ∈ capsOfA ↔ ∃ p ∈ nodeA, p.cap = c := fun c => by
    rw [← List.mem_map]
    have h₁ : ∀ c ∈ capsOfA, c ∈ nodeA.map Protocol.cap := by decide
    have h₂ : ∀ c ∈ nodeA.map Protocol.cap, c ∈ capsOfA := by decide
    exact ⟨h₁ c, h₂ c⟩
  have hB : ∀ c, c ∈ capsOfB ↔ ∃ q ∈ nodeB, q.cap = c := fun c => by
    rw [← List.mem_map]
    have h₁ : ∀ c ∈ capsOfB, c ∈ nodeB.map Protocol.cap := by decide
    have h₂ : ∀ c ∈ nodeB.map Protocol.cap, c ∈ capsOfB := by decide
    exact ⟨h₁ c, h₂ c⟩
  have hlen : ∀ p ∈ nodeA, ∀ q ∈ nodeB, p.cap = q.cap → p.Length = q.Length := by decide
  have h := protocol_codes_agree nodeA nodeB capsOfA capsOfB hA hB hlen
  exact ⟨hA, hB, hlen, h.1, h.2.2.1 ⟨"les", 1, 15⟩ (by decide) ⟨"les", 1, 15⟩ (by decide) rfl⟩

/-- Three protocols whose lengths add up past `2^64`. -/
def wrapProtocols : List Protocol :=
  [⟨"a", 1, 0x8000000000000000⟩, ⟨"b", 1, 0x8000000000000000⟩, ⟨"c", 1, 1⟩]

/-- **The offsets wrap.** Between two nodes running the same three protocols, `a` and `c` both
start at 16, so `getProto` of the code 16 goes to whichever Go's map iteration reaches first. -/
theorem matchProtocols_wraps :
    ∃ rwa rwc, matchProtocols wrapProtocols (wrapProtocols.map Protocol.cap) "a" = some rwa ∧
      matchProtocols wrapProtocols (wrapProtocols.map Protocol.cap) "c" = some rwc ∧
      rwa.handles 16 = true ∧ rwc.handles 16 = true ∧
      getProto [rwa, rwc] 16 = .ok rwa ∧ getProto [rwc, rwa] 16 = .ok rwc := by
  have hsorted : sortCaps (wrapProtocols.map Protocol.cap) = wrapProtocols.map Protocol.cap :=
    sortCaps_eq_self (by decide)
  refine ⟨⟨⟨"a", 1, 0x8000000000000000⟩, 16⟩, ⟨⟨"c", 1, 1⟩, 16⟩, ?_, ?_, by decide, by decide, by decide,
    by decide⟩
  all_goals
    rw [matchProtocols, hsorted]
    decide

end EpvChain.P2p
