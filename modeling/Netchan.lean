import Netchan.Proof.Session
import Netchan.Proof.Loss
import Netchan.Proof.Effect
import Netchan.Pair.Life
import Netchan.Pair.Handshake
import Netchan.Pair.Window
import Netchan.Pair.Channels
import Netchan.Pair.Traffic
import Netchan.Pair.Order
import Netchan.Pair.Account
import Netchan.Pair.ByteStream
import Netchan.Pair.Grant
import Netchan.Lib.Tokens
import Netchan.Proof.Pool
import Netchan.Proof.Drain
import Netchan.Proof.Parser
import Netchan.Proof.Events
import Netchan.Proof.Peer
import Netchan.Proof.Closing
import Netchan.Proof.Fragments
import Netchan.Proof.Sizes
import Netchan.Proof.Opening
import Netchan.Proof.Credit
import Netchan.Proof.Timers
import Netchan.Proof.Clock
import Netchan.Proof.Sendable
import Netchan.Proof.Reorder
import Netchan.Micro.GoBackN
import Netchan.Micro.Client
import Netchan.Micro.Reject
import Netchan.Micro.Drain
import Netchan.Micro.Fresh
import Netchan.Micro.Clock
import Netchan.Crypto.Sealed
import Netchan.Auth.Cleanup
import Netchan.Auth.Client
import Netchan.Auth.Signed
import Netchan.Auth.Crossing
import Netchan.Auth.Hostile
import Netchan.Auth.Tickets
import Netchan.Auth.Framer
import Netchan.Auth.Decimal
import Netchan.Discovery.Build
import Netchan.Idl.Evolution
import Netchan.Idl.Boundaries
import Netchan.Idl.Schemas
import Netchan.Transport.Bounds
import Netchan.Keystore.Hosts
import Netchan.Keystore.Passwd
import Netchan.Keystore.Secrets
import Netchan.Transport.Block
import Netchan.Transport.Digest
import Netchan.Micro.Pointers
import Netchan.Iox.Timer
import Netchan.Iox.Loop
import Netchan.Link.Wire
import Netchan.Link.Order
import Netchan.Link.Data
import Netchan.Pair.Relay
import Netchan.Cipher.Aead
import Netchan.Cipher.Proof.Aead
import Netchan.Cipher.Vendored
