import PgRipple.Dictionary.Inline
import PgRipple.Lib.Split

/-!
# IP addresses and their texts

The canonical text of an address is the one that the standard library prints: four decimal
numbers, or hexadecimal segments in which the first longest run of zeros is left out. An
IPv4-mapped address ends in the text of the IPv4 address.

The networks that must not be reached are given by base address and prefix length.
-/

namespace PgRipple.Federation

open Dictionary (Text parseDigits)

structure Ipv4Addr where
  a : Fin 256
  b : Fin 256
  c : Fin 256
  d : Fin 256
  deriving DecidableEq, Repr

structure Ipv6Addr where
  segments : List Nat
  eight : segments.length = 8
  small : ∀ n ∈ segments, n < 65536
  deriving DecidableEq

inductive IpAddr where
  | v4 (x : Ipv4Addr)
  | v6 (x : Ipv6Addr)
  deriving DecidableEq

/-- `to_ipv4_mapped`. -/
def Ipv6Addr.toIpv4Mapped (x : Ipv6Addr) : Option Ipv4Addr :=
  match x.segments with
  | [0, 0, 0, 0, 0, 0xffff, ab, cd] =>
    some ⟨Fin.ofNat 256 (ab / 256), Fin.ofNat 256 ab, Fin.ofNat 256 (cd / 256), Fin.ofNat 256 cd⟩
  | _ => none

/-- `{}` of a number. -/
def decimal (n : Nat) : Text := Nat.toDigits 10 n

/-- `{:x}` of a number. -/
def hex (n : Nat) : Text := Nat.toDigits 16 n

def Ipv4Addr.text (x : Ipv4Addr) : Text :=
  decimal x.a ++ '.' :: (decimal x.b ++ '.' :: (decimal x.c ++ '.' :: decimal x.d))

/-- Segments with colons between them. -/
def joinSegments : List Nat → Text
  | [] => []
  | [n] => hex n
  | n :: m :: rest => hex n ++ ':' :: joinSegments (m :: rest)

/-- A run of segments. -/
structure Span where
  start : Nat
  len : Nat
  deriving DecidableEq, Repr

/-- The first longest run of zeros: the index, the run at hand and the longest one so far. -/
def longestZeros : List Bool → Nat → Span → Span → Span
  | [], _, _, longest => longest
  | isZero :: rest, i, current, longest =>
    if isZero then
      let current : Span := ⟨if current.len = 0 then i else current.start, current.len + 1⟩
      longestZeros rest (i + 1) current (if current.len > longest.len then current else longest)
    else longestZeros rest (i + 1) ⟨0, 0⟩ longest

def Ipv6Addr.zeroes (x : Ipv6Addr) : Span :=
  longestZeros (x.segments.map (· == 0)) 0 ⟨0, 0⟩ ⟨0, 0⟩

/-- `Ipv6Addr::fmt`. -/
def Ipv6Addr.text (x : Ipv6Addr) : Text :=
  match x.toIpv4Mapped with
  | some y => "::ffff:".toList ++ y.text
  | none =>
    if x.zeroes.len > 1 then
      joinSegments (x.segments.take x.zeroes.start) ++
        ':' :: ':' :: joinSegments (x.segments.drop (x.zeroes.start + x.zeroes.len))
    else joinSegments x.segments

/-- `IpAddr::to_string`. -/
def IpAddr.text : IpAddr → Text
  | .v4 x => x.text
  | .v6 x => x.text

def Ipv4Addr.value (x : Ipv4Addr) : Nat := ((x.a * 256 + x.b) * 256 + x.c) * 256 + x.d

def Ipv6Addr.value (x : Ipv6Addr) : Nat := x.segments.foldl (fun v n => v * 65536 + n) 0

/-- The first `len` of `width` bits are those of the base address. -/
def InNet (width base len value : Nat) : Prop :=
    value / 2 ^ (width - len) = base / 2 ^ (width - len)

/-- 0/8, 10/8, 100.64/10, 127/8, 169.254/16, 172.16/12, 192.168/16 and 224/4. -/
def internalNets : List (Ipv4Addr × Nat) :=
  [(⟨0, 0, 0, 0⟩, 8), (⟨10, 0, 0, 0⟩, 8), (⟨100, 64, 0, 0⟩, 10), (⟨127, 0, 0, 0⟩, 8),
    (⟨169, 254, 0, 0⟩, 16), (⟨172, 16, 0, 0⟩, 12), (⟨192, 168, 0, 0⟩, 16), (⟨224, 0, 0, 0⟩, 4)]

def Ipv4Addr.Internal (x : Ipv4Addr) : Prop :=
  ∃ net ∈ internalNets, InNet 32 net.1.value net.2 x.value

/-- `::1`, fe80::/10, fc00::/7 and the mapped forms of internal IPv4 addresses. -/
def Ipv6Addr.Internal (x : Ipv6Addr) : Prop :=
  x.value = 1 ∨ InNet 128 (0xfe80 * 2 ^ 112) 10 x.value ∨ InNet 128 (0xfc00 * 2 ^ 112) 7 x.value ∨
    ∃ y : Ipv4Addr, y.Internal ∧ x.value = 0xffff * 2 ^ 32 + y.value

def IpAddr.Internal : IpAddr → Prop
  | .v4 x => x.Internal
  | .v6 x => x.Internal

end PgRipple.Federation
