import Netchan.Lib.Fields
import Netchan.Core.Types

/-!
# Socket addresses

`transport/nc_udp.c`: a `struct sockaddr` is packed into the opaque `struct nc_addr` of the core and
back. `to_from_sockaddr`: what is packed unpacks to the same address and port. The flow label and
the scope of an IPv6 address do not fit, so they come back as zero.
-/

namespace Netchan.Transport

open Lib

/-- A socket address; `other` is another family, or a length that is too short for the family.
Addresses and ports are in network order. -/
inductive SockAddr
  | inet (addr : Bytes 4) (port : Bytes 2)
  | inet6 (addr : Bytes 16) (port : Bytes 2) (flowinfo scopeId : UInt32)
  | other
  deriving DecidableEq

/-- `nc_udp_from_sockaddr`. -/
def ncUdpFromSockaddr : SockAddr → Option Addr
  | .inet addr port => some (4 :: (addr.val ++ port.val))
  | .inet6 addr port _ _ => some (6 :: (addr.val ++ port.val))
  | .other => none

/-- `nc_udp_to_sockaddr`; `none` is the length 0. -/
def ncUdpToSockaddr (a : Addr) : Option SockAddr :=
  if a.length = 7 ∧ byte a 0 = 4 then some (.inet (bytesAt 4 a 1) (bytesAt 2 a 5))
  else if a.length = 19 ∧ byte a 0 = 6 then
    some (.inet6 (bytesAt 16 a 1) (bytesAt 2 a 17) 0 0)
  else none

/-- The address without what `struct nc_addr` has no room for. -/
def SockAddr.packed : SockAddr → SockAddr
  | .inet6 addr port _ _ => .inet6 addr port 0 0
  | sa => sa

/-- **What is packed unpacks** to the same address and port. -/
theorem to_from_sockaddr {sa : SockAddr} {a : Addr} (h : ncUdpFromSockaddr sa = some a) :
    ncUdpToSockaddr a = some sa.packed := by
  cases sa with
  | inet addr port =>
    obtain rfl := Option.some.inj h
    have h1 : bytesAt 4 (4 :: (addr.val ++ port.val)) 1 = addr := bytesAt_append [4] addr port.val
    have h2 : bytesAt 2 (4 :: (addr.val ++ port.val)) 5 = port := by
      have := bytesAt_append (4 :: addr.val) port []
      rw [List.length_cons, addr.property, List.append_nil] at this
      exact this
    rw [ncUdpToSockaddr, if_pos ⟨by simp [addr.property, port.property], rfl⟩, h1, h2]
    rfl
  | inet6 addr port flowinfo scopeId =>
    obtain rfl := Option.some.inj h
    have h1 : bytesAt 16 (6 :: (addr.val ++ port.val)) 1 = addr := bytesAt_append [6] addr port.val
    have h2 : bytesAt 2 (6 :: (addr.val ++ port.val)) 17 = port := by
      have := bytesAt_append (6 :: addr.val) port []
      rw [List.length_cons, addr.property, List.append_nil] at this
      exact this
    rw [ncUdpToSockaddr, if_neg (by simp [addr.property, port.property]),
      if_pos ⟨by simp [addr.property, port.property], rfl⟩, h1, h2]
    rfl
  | other => cases h

end Netchan.Transport
