import Mathlib

/-!
# IP networks and the per-subnet counter

`peer/netutil/net.go`: the LAN test `IsLAN`, and `DistinctNetSet`, which counts IPs per subnet
up to a limit. The discovery table keeps one `DistinctNetSet` for itself and one for each of its
buckets, so that no subnet fills the table.

An IP is its bytes, four or sixteen of them. A network is a network number and a mask, as
`net.ParseCIDR` returns them for the constant lists `lan4` and `lan6`.

`DistinctNetSet.members` is a Go `map[string]uint`. Its absent keys read as zero, `Add` never
stores a zero, and `Remove` deletes a key whose count would fall to zero, so the map is a function
to `Nat` that is zero off its keys, and `Remove` is a subtraction that stops at zero.

* `add_eq`, `remove_members`: what `Add` and `Remove` do to the counts.
* `key_add`, `key_remove`: neither changes how an IP is keyed.
-/

namespace EpvChain.Netutil

/-- `net.IP`: four bytes, or sixteen. -/
abbrev IP := List UInt8

/-- The first twelve bytes of an IPv4 address written in sixteen bytes. -/
def v4InV6Prefix : List UInt8 := [0, 0, 0, 0, 0, 0, 0, 0, 0, 0, 0xff, 0xff]

/-- `ip.To4()`: the four bytes of an IPv4 address, in either of its forms.
Source: Go's `net.IP.To4` -/
def To4 (ip : IP) : Option IP :=
  if ip.length = 4 then some ip
  else if ip.length = 16 ∧ ip.take 12 = v4InV6Prefix then some (ip.drop 12)
  else none

/-- `net.IPv6loopback`, `::1`. -/
def IPv6loopback : IP := List.replicate 15 0 ++ [1]

/-- `ip.IsLoopback()`: `127.0.0.0/8`, or `::1`. -/
def IsLoopback (ip : IP) : Bool :=
  match To4 ip with
  | some ip4 => ip4.head? == some 127
  | none => ip == IPv6loopback

/-- `net.CIDRMask(ones, bits)`: `bits / 8` bytes whose first `ones` bits are set. -/
def CIDRMask (ones bits : Nat) : List UInt8 :=
  (List.range (bits / 8)).map fun i =>
    let n := ones - 8 * i
    if 8 ≤ n then 0xff else ~~~((0xff : UInt8) >>> n.toUInt8)

/-- `net.IPNet`: a network number and a mask of the same length. -/
structure IPNet where
  IP : IP
  Mask : List UInt8

/-- `n.Contains(ip)`: an IP of the network's length that agrees with the network number under
the mask; an IPv4 address is compared in its four-byte form. -/
def IPNet.Contains (n : IPNet) (ip : Netutil.IP) : Bool :=
  let ip := (To4 ip).getD ip
  ip.length == n.IP.length &&
    ((n.IP.zip n.Mask).zip ip).all fun ((a, m), b) => a &&& m == b &&& m

/-- `Netlist.Contains`: some network of the list contains the IP. -/
def Contains (l : List IPNet) (ip : IP) : Bool := l.any (·.Contains ip)

/-- `lan4`: `0.0.0.0/8`, `10.0.0.0/8`, `172.16.0.0/12` and `192.168.0.0/16`. -/
def lan4 : List IPNet :=
  [⟨[0, 0, 0, 0], CIDRMask 8 32⟩, ⟨[10, 0, 0, 0], CIDRMask 8 32⟩,
    ⟨[172, 16, 0, 0], CIDRMask 12 32⟩, ⟨[192, 168, 0, 0], CIDRMask 16 32⟩]

/-- `lan6`: `fe80::/10` and `fc00::/7`. -/
def lan6 : List IPNet :=
  [⟨[0xfe, 0x80] ++ List.replicate 14 0, CIDRMask 10 128⟩,
    ⟨[0xfc] ++ List.replicate 15 0, CIDRMask 7 128⟩]

/-- `IsLAN`: a loopback address, or one in a LAN network of its family. -/
def IsLAN (ip : IP) : Bool :=
  IsLoopback ip ||
    match To4 ip with
    | some v4 => Contains lan4 v4
    | none => Contains lan6 ip

example : IsLAN [192, 168, 1, 7] = true ∧ IsLAN [1, 2, 3, 4] = false := by decide

/-- `DistinctNetSet`: how many IPs of each subnet of `Subnet` bits are counted, each count at
most `Limit`. -/
structure DistinctNetSet where
  Subnet : Nat
  Limit : Nat
  members : List UInt8 → Nat

namespace DistinctNetSet

/-- `s.key(ip)`: the subnet of an IP, as a family byte `'4'` or `'6'` followed by the first
`Subnet` bits of the address (all of it when the address is shorter). -/
def key (s : DistinctNetSet) (ip : IP) : List UInt8 :=
  let (typ, ip) : UInt8 × IP :=
    match To4 ip with
    | some ip4 => ('4'.toNat.toUInt8, ip4)
    | none => ('6'.toNat.toUInt8, ip)
  let bits := min s.Subnet (ip.length * 8)
  let nb := bits / 8
  let mask : UInt8 := ~~~((0xff : UInt8) >>> (bits % 8).toUInt8)
  typ :: (ip.take nb ++ if nb < ip.length ∧ mask ≠ 0 then [ip.getD nb 0 &&& mask] else [])

/-- `s.Add(ip)`: count the IP when its subnet is under the limit, and say whether it was. -/
def Add (s : DistinctNetSet) (ip : IP) : Bool × DistinctNetSet :=
  let key := s.key ip
  let n := s.members key
  if n < s.Limit then (true, { s with members := Function.update s.members key (n + 1) })
  else (false, s)

/-- `s.Remove(ip)`: count one IP fewer in its subnet; a subnet with no count is left alone. -/
def Remove (s : DistinctNetSet) (ip : IP) : DistinctNetSet :=
  let key := s.key ip
  { s with members := Function.update s.members key (s.members key - 1) }

variable (s : DistinctNetSet) (ip : IP)

/-- `Add` counts the IP exactly when its subnet is under the limit. -/
theorem add_eq :
    s.Add ip = if s.members (s.key ip) < s.Limit then
      (true, { s with members := Function.update s.members (s.key ip) (s.members (s.key ip) + 1) })
    else (false, s) := rfl

theorem remove_members (k : List UInt8) :
    (s.Remove ip).members k = if k = s.key ip then s.members k - 1 else s.members k := by
  by_cases hk : k = s.key ip
  · subst hk
    simp [Remove]
  · simp [Remove, hk]

/-- An IP that `Add` counts adds one to the count of its subnet. -/
theorem add_members_of_fst {s : DistinctNetSet} {ip : IP} (h : (s.Add ip).1 = true)
    (k : List UInt8) : (s.Add ip).2.members k = s.members k + if k = s.key ip then 1 else 0 := by
  by_cases hlt : s.members (s.key ip) < s.Limit
  · rw [add_eq, if_pos hlt]
    by_cases hk : k = s.key ip
    · subst hk
      simp
    · simp [hk]
  · rw [add_eq, if_neg hlt] at h
    cases h

@[simp] theorem key_add : (s.Add ip).2.key = s.key := by
  rw [add_eq]
  split <;> rfl

@[simp] theorem key_remove : (s.Remove ip).key = s.key := rfl

/-- Removing an IP just counted gives back the counts before. -/
theorem remove_add_members (h : s.members (s.key ip) < s.Limit) :
    ((s.Add ip).2.Remove ip).members = s.members := by
  funext k
  rw [remove_members, key_add, add_eq, if_pos h]
  by_cases hk : k = s.key ip
  · subst hk
    simp
  · simp [hk]

end DistinctNetSet

end EpvChain.Netutil
