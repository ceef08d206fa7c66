import Mathlib.Logic.Function.Basic
import Lemochain.Common.Types

/-!
# IP addresses, LAN ranges and subnet counters (`p2p/netutil/net.go`)

An IP address is a byte string (`net.IP`): four bytes for IPv4, sixteen for
IPv6, where an IPv4 address may also be written in its IPv4-mapped form
`::ffff:a.b.c.d` (`To4` recognises both). `IsLAN` accepts the loopback
addresses and the private ranges the package lists in `lan4` and `lan6`;
the networks of these lists are given here as the values `ParseCIDR` makes of
the strings of `init`.

`DistinctNetSet` counts addresses per subnet: `key` is the address type and
the first `Subnet` bits of the address, `Add` raises the count of a key that
is below `Limit`, and `Remove` lowers it. The map `members` of the source is
a function here, an absent key reading as zero (the source never stores a
zero count: `Remove` deletes a key whose count is one).

## Main results

* `Add_members`, `Add_of_false`, `Remove_members` — what each operation
  does to the counts; a refused `Add` changes nothing.
* `Remove_Add` — removing an address that was just added restores the set.
* `Bounded.Add`, `Bounded.Remove` — no count ever exceeds the limit.
-/

namespace Lemochain.Netutil

/-- `net.IP`. -/
abbrev IP := Bytes

/-- `IP.To4`: the four bytes of an IPv4 address, given as such or in its
IPv4-mapped IPv6 form. -/
def To4 (ip : IP) : Option IP :=
  if ip.length = 4 then some ip
  else if ip.length = 16 ∧ ip.take 12 = List.replicate 10 0 ++ [0xFF, 0xFF] then some (ip.drop 12)
  else none

/-- `net.IPv6loopback`, `::1`. -/
def IPv6loopback : IP := List.replicate 15 0 ++ [1]

/-- `IP.IsLoopback`: `127.0.0.0/8`, or `::1`. -/
def IsLoopback (ip : IP) : Bool :=
  match To4 ip with
  | some ip4 => ip4.head? == some 127
  | none => ip == IPv6loopback

/-- `net.CIDRMask ones (8 * l)`: `l` bytes whose first `ones` bits are set. -/
def CIDRMask : Nat → Nat → Bytes
  | _, 0 => []
  | n, l + 1 =>
      if n ≥ 8 then 0xFF :: CIDRMask (n - 8) l
      else ~~~((0xFF : UInt8) >>> n.toUInt8) :: CIDRMask 0 l

/-- `net.IPNet`: a network number and its mask, of the same length. -/
structure IPNet where
  IP : Bytes
  Mask : Bytes
  deriving DecidableEq

/-- `IPNet.Contains`: the address, in its four-byte form if it has one, has
the length of the network and agrees with it on the bits of the mask. -/
def IPNet.Contains (n : IPNet) (ip : Netutil.IP) : Bool :=
  let ip := (To4 ip).getD ip
  ip.length == n.IP.length &&
    List.zipWith (· &&& ·) n.IP n.Mask == List.zipWith (· &&& ·) ip n.Mask

/-- `Netlist`: a list of networks. -/
abbrev Netlist := List IPNet

/-- `Netlist.Contains`: some network of the list contains the address. -/
def Netlist.Contains (l : Netlist) (ip : IP) : Bool := l.any (·.Contains ip)

/-- `lan4`: `0.0.0.0/8`, `10.0.0.0/8`, `172.16.0.0/12` and `192.168.0.0/16`. -/
def lan4 : Netlist :=
  [⟨[0, 0, 0, 0], CIDRMask 8 4⟩, ⟨[10, 0, 0, 0], CIDRMask 8 4⟩,
   ⟨[172, 16, 0, 0], CIDRMask 12 4⟩, ⟨[192, 168, 0, 0], CIDRMask 16 4⟩]

/-- `lan6`: `fe80::/10` and `fc00::/7`. -/
def lan6 : Netlist :=
  [⟨0xFE :: 0x80 :: List.replicate 14 0, CIDRMask 10 16⟩, ⟨0xFC :: List.replicate 15 0, CIDRMask 7 16⟩]

/-- `IsLAN`: a loopback address, or one of the private ranges of its
address family. -/
def IsLAN (ip : IP) : Bool :=
  if IsLoopback ip then true
  else
    match To4 ip with
    | some v4 => lan4.Contains v4
    | none => lan6.Contains ip

example : IsLAN [10, 0, 0, 7] = true ∧ IsLAN [172, 20, 1, 1] = true ∧ IsLAN [127, 0, 0, 1] = true ∧
    IsLAN [1, 2, 3, 4] = false ∧ IsLAN (List.replicate 10 0 ++ [0xFF, 0xFF, 192, 168, 1, 1]) = true := by
  decide

/-- `DistinctNetSet`: how many addresses of each subnet are counted. -/
structure DistinctNetSet where
  Subnet : Nat
  Limit : Nat
  members : Bytes → Nat

namespace DistinctNetSet

/-- `key`: the type byte `'4'` or `'6'`, then the first `Subnet` bits of the
address (all of it if it is shorter), the last byte masked. -/
def key (s : DistinctNetSet) (ip : IP) : Bytes :=
  let (typ, ip) : UInt8 × IP :=
    match To4 ip with
    | some ip4 => ('4'.toNat.toUInt8, ip4)
    | none => ('6'.toNat.toUInt8, ip)
  let bits := min s.Subnet (ip.length * 8)
  let nb := bits / 8
  let mask : UInt8 := ~~~((0xFF : UInt8) >>> (bits % 8).toUInt8)
  typ :: ip.take nb ++ (if nb < ip.length ∧ mask ≠ 0 then [ip.getD nb 0 &&& mask] else [])

example : key ⟨24, 2, fun _ => 0⟩ [1, 2, 3, 4] = [0x34, 1, 2, 3] ∧
    key ⟨20, 2, fun _ => 0⟩ [1, 2, 0xAB, 4] = [0x34, 1, 2, 0xA0] := by
  decide

/-- `Add`: count the address if its subnet is below the limit. -/
def Add (s : DistinctNetSet) (ip : IP) : Bool × DistinctNetSet :=
  if s.members (s.key ip) < s.Limit then
    (true, { s with members := Function.update s.members (s.key ip) (s.members (s.key ip) + 1) })
  else (false, s)

/-- `Remove`: stop counting the address, if its subnet is counted at all. -/
def Remove (s : DistinctNetSet) (ip : IP) : DistinctNetSet :=
  match s.members (s.key ip) with
  | 0 => s
  | n + 1 => { s with members := Function.update s.members (s.key ip) n }

/-- The key depends on the subnet size only. -/
theorem key_congr {s t : DistinctNetSet} (h : s.Subnet = t.Subnet) (ip : IP) : s.key ip = t.key ip := by
  simp only [key, h]

@[simp] theorem Add_Subnet (s : DistinctNetSet) (ip : IP) : (s.Add ip).2.Subnet = s.Subnet := by
  unfold Add
  split_ifs <;> rfl

@[simp] theorem Add_Limit (s : DistinctNetSet) (ip : IP) : (s.Add ip).2.Limit = s.Limit := by
  unfold Add
  split_ifs <;> rfl

@[simp] theorem Remove_Subnet (s : DistinctNetSet) (ip : IP) : (s.Remove ip).Subnet = s.Subnet := by
  unfold Remove
  split <;> rfl

@[simp] theorem Remove_Limit (s : DistinctNetSet) (ip : IP) : (s.Remove ip).Limit = s.Limit := by
  unfold Remove
  split <;> rfl

/-- A successful `Add` raises the count of the address's key by one.

The failing branch is refuted by `h` itself. -/
theorem Add_members {s : DistinctNetSet} {ip : IP} (h : (s.Add ip).1 = true) :
    (s.Add ip).2.members = Function.update s.members (s.key ip) (s.members (s.key ip) + 1) := by
  unfold Add at h ⊢
  split_ifs at h ⊢
  rfl

/-- A failed `Add` changes nothing. -/
theorem Add_of_false {s : DistinctNetSet} {ip : IP} (h : (s.Add ip).1 = false) : (s.Add ip).2 = s := by
  unfold Add at h ⊢
  split_ifs at h ⊢
  rfl

/-- `Remove` lowers the count of the address's key by one, down to zero. -/
theorem Remove_members (s : DistinctNetSet) (ip : IP) :
    (s.Remove ip).members = Function.update s.members (s.key ip) (s.members (s.key ip) - 1) := by
  unfold Remove
  split
  · rename_i h
    rw [h]
    exact (Function.update_eq_self _ _).symm.trans (by rw [h])
  · rename_i n h
    rw [h]
    rfl

/-- `Remove` undoes a successful `Add` of the same address. -/
theorem Remove_Add {s : DistinctNetSet} {ip : IP} (h : (s.Add ip).1 = true) : (s.Add ip).2.Remove ip = s := by
  unfold Add at h ⊢
  split_ifs at h ⊢
  have hk : DistinctNetSet.key ⟨s.Subnet, s.Limit,
      Function.update s.members (s.key ip) (s.members (s.key ip) + 1)⟩ ip = s.key ip := key_congr rfl ip
  show DistinctNetSet.Remove ⟨s.Subnet, s.Limit,
    Function.update s.members (s.key ip) (s.members (s.key ip) + 1)⟩ ip = s
  unfold Remove
  simp only [hk, Function.update_self, Function.update_idem, Function.update_eq_self]

/-- No count exceeds the limit. -/
def Bounded (s : DistinctNetSet) : Prop := ∀ k, s.members k ≤ s.Limit

theorem Bounded.Add {s : DistinctNetSet} (hs : s.Bounded) (ip : IP) : (s.Add ip).2.Bounded := by
  intro k
  unfold DistinctNetSet.Add
  split_ifs with hlt
  · show Function.update s.members (s.key ip) (s.members (s.key ip) + 1) k ≤ s.Limit
    rcases eq_or_ne k (s.key ip) with rfl | hne
    · rw [Function.update_self]
      omega
    · rw [Function.update_of_ne hne]
      exact hs k
  · exact hs k

theorem Bounded.Remove {s : DistinctNetSet} (hs : s.Bounded) (ip : IP) : (s.Remove ip).Bounded := by
  intro k
  rw [Remove_members, Remove_Limit]
  rcases eq_or_ne k (s.key ip) with rfl | hne
  · rw [Function.update_self]
    exact Nat.le_trans (Nat.sub_le _ _) (hs _)
  · rw [Function.update_of_ne hne]
    exact hs k

end DistinctNetSet

end Lemochain.Netutil
