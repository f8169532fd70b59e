import Mathlib.Logic.Basic

/-!
# Sockets

A `Socket` opens its descriptor when it is first bound or connected, and keeps a flag and two
addresses beside it.  An `SSLSocket` puts a handshake on top.  What the calls of the system
and of SSL return is passed to the functions.

**Results.**
* `close_eq`, `ensureSock_eq`, `getLocalAddress_eq`, `getRemoteAddress_eq`: the fields after
  each of them.
* `connect_connects`, `bind_binds`: the ends of `connect` and `bind`.
* `accept_isValid`: what `accept` returns has a descriptor.
-/

namespace Hpgs
namespace Network

/-! ## Data -/

/-- An `Address`: what `getFamily` returns, whether it is a `UnixAddress`, and its bytes. -/
structure SocketAddress where
  family : Int
  isUnix : Bool
  data : List UInt8
deriving DecidableEq, Repr

/-- `UnknownAddress(family)`. -/
def SocketAddress.unknown (family : Int) : SocketAddress where
  family := family
  isUnix := false
  data := []

/-- `Socket`, with `none` for a descriptor that is -1 and for an address that is null. -/
structure Socket where
  sock : Option Nat
  family : Int
  type : Int
  protocol : Int
  isConnected : Bool
  localAddress : Option SocketAddress
  remoteAddress : Option SocketAddress
deriving DecidableEq, Repr

/-- What the calls of `connect` return: `socket`, whether `connect` or `connect_with_timeout`
succeeds, `getpeername` and `getsockname`. -/
structure ConnectCalls where
  socket : Option Nat
  connected : Bool
  peername : Option SocketAddress
  sockname : Option SocketAddress

/-- What the calls of `bind` return, and those of the socket that tries to connect. -/
structure BindCalls where
  socket : Option Nat
  probe : ConnectCalls
  bound : Bool
  sockname : Option SocketAddress

/-- What the calls of `accept` and `init` return; `managed` is whether there is an open
context of a socket for the new descriptor. -/
structure AcceptCalls where
  accept : Option Nat
  managed : Bool
  sockname : Option SocketAddress
  peername : Option SocketAddress

namespace Socket

/-! ## Constants -/

/-- `AF_INET`, `AF_INET6`, `AF_UNIX`, `SOCK_STREAM` and `SOCK_DGRAM`. -/
def ipv4 : Int := 2

def ipv6 : Int := 10

def unix : Int := 1

def tcp : Int := 1

def udp : Int := 2

/-! ## Functions -/

/-- The constructor. -/
def new (family type protocol : Int) : Socket where
  sock := none
  family := family
  type := type
  protocol := protocol
  isConnected := false
  localAddress := none
  remoteAddress := none

def isValid (s : Socket) : Bool :=
  s.sock.isSome

/-- `newSock`, with what `socket` returns. -/
def newSock (s : Socket) (socket : Option Nat) : Socket :=
  { s with sock := socket }

def close (s : Socket) : Bool × Socket :=
  if s.isConnected = false ∧ s.sock = none then (true, s)
  else (false, { s with isConnected := false, sock := none })

/-- `getRemoteAddress`, with what `getpeername` reports. -/
def getRemoteAddress (s : Socket) (peername : Option SocketAddress) : SocketAddress × Socket :=
  match s.remoteAddress, peername with
  | some addr, _ => (addr, s)
  | none, none => (.unknown s.family, s)
  | none, some addr => (addr, { s with remoteAddress := some addr })

/-- `getLocalAddress`, with what `getsockname` reports. -/
def getLocalAddress (s : Socket) (sockname : Option SocketAddress) : SocketAddress × Socket :=
  match s.localAddress, sockname with
  | some addr, _ => (addr, s)
  | none, none => (.unknown s.family, s)
  | none, some addr => (addr, { s with localAddress := some addr })

/-- A descriptor is opened where there is none. -/
def ensureSock (s : Socket) (socket : Option Nat) : Socket :=
  if s.isValid then s else s.newSock socket

/-- The end of a `connect` that succeeds. -/
def connected (s : Socket) (calls : ConnectCalls) : Socket :=
  ((({ s with isConnected := true } : Socket).getRemoteAddress calls.peername).2.getLocalAddress
    calls.sockname).2

def connect (s : Socket) (addr : SocketAddress) (calls : ConnectCalls) : Bool × Socket :=
  let s := ({ s with remoteAddress := some addr } : Socket).ensureSock calls.socket
  if s.isValid = false then (false, s)
  else if addr.family ≠ s.family then (false, s)
  else if calls.connected then (true, s.connected calls)
  else (false, s.close.2)

/-- `m_localAddress.reset()`. -/
def resetLocal (s : Socket) : Socket :=
  { s with localAddress := none }

def reconnect (s : Socket) (calls : ConnectCalls) : Bool × Socket :=
  match s.remoteAddress with
  | none => (false, s)
  | some addr => s.resetLocal.connect addr calls

def createUnixTcpSocket : Socket := new unix tcp 0

/-- `bind`.  The path of a `UnixAddress` is unlinked unless somebody listens to it. -/
def bind (s : Socket) (addr : SocketAddress) (calls : BindCalls) : Bool × Socket :=
  let s := s.ensureSock calls.socket
  if s.isValid = false then (false, s)
  else if addr.family ≠ s.family then (false, s)
  else if addr.isUnix && (createUnixTcpSocket.connect addr calls.probe).1 then (false, s)
  else if calls.bound then (true, (s.getLocalAddress calls.sockname).2)
  else (false, s)

/-- `listen`, with whether the call of the system succeeds. -/
def listen (s : Socket) (listens : Bool) : Bool :=
  s.isValid && listens

/-- `init` for the descriptor `sock`. -/
def init (s : Socket) (sock : Nat) (calls : AcceptCalls) : Bool × Socket :=
  if calls.managed then
    (true, ((({ s with sock := some sock, isConnected := true } : Socket).getLocalAddress
      calls.sockname).2.getRemoteAddress calls.peername).2)
  else (false, s)

def accept (s : Socket) (calls : AcceptCalls) : Option Socket :=
  match calls.accept with
  | none => none
  | some newsock =>
      match (new s.family s.type s.protocol).init newsock calls with
      | (true, sock) => some sock
      | (false, _) => none

/-! ## Factories -/

def createTcp (address : SocketAddress) : Socket := new address.family tcp 0

/-- The flag is set whether there is a descriptor or not. -/
def createUdp (address : SocketAddress) (socket : Option Nat) : Socket :=
  { (new address.family udp 0).newSock socket with isConnected := true }

def createTcpSocket : Socket := new ipv4 tcp 0

def createUdpSocket (socket : Option Nat) : Socket :=
  { (new ipv4 udp 0).newSock socket with isConnected := true }

def createTcpSocket6 : Socket := new ipv6 tcp 0

def createUdpSocket6 : Socket := new ipv6 udp 0

def createUnixUdpSocket : Socket := new unix udp 0

end Socket

namespace Socket

/-! ## Fields -/

section Fields

variable (s : Socket)

theorem close_eq : s.close.2 = { s with isConnected := false, sock := none } := by
  obtain ⟨_ | fd, family, type, protocol, _ | _, localAddress, remoteAddress⟩ := s <;> rfl

theorem ensureSock_eq (socket : Option Nat) :
    s.ensureSock socket = { s with sock := s.sock.or socket } := by
  obtain ⟨_ | fd, family, type, protocol, isConnected, localAddress, remoteAddress⟩ := s <;> rfl

/-- A cached address stays; otherwise what is reported is cached. -/
theorem getLocalAddress_eq (sockname : Option SocketAddress) :
    s.getLocalAddress sockname =
      ((s.localAddress.or sockname).getD (.unknown s.family),
        { s with localAddress := s.localAddress.or sockname }) := by
  obtain ⟨sock, family, type, protocol, isConnected, _ | localAddress, remoteAddress⟩ := s <;>
    cases sockname <;> rfl

theorem getRemoteAddress_eq (peername : Option SocketAddress) :
    s.getRemoteAddress peername =
      ((s.remoteAddress.or peername).getD (.unknown s.family),
        { s with remoteAddress := s.remoteAddress.or peername }) := by
  obtain ⟨sock, family, type, protocol, isConnected, localAddress, _ | remoteAddress⟩ := s <;>
    cases peername <;> rfl

theorem connected_eq (calls : ConnectCalls) :
    s.connected calls = { s with
      isConnected := true
      localAddress := s.localAddress.or calls.sockname
      remoteAddress := s.remoteAddress.or calls.peername } := by
  rw [connected, getLocalAddress_eq, getRemoteAddress_eq]

end Fields

/-! ## Ends of `connect` and `bind` -/

theorem reconnect_of_some {s : Socket} {addr : SocketAddress} (h : s.remoteAddress = some addr)
    (calls : ConnectCalls) : s.reconnect calls = s.resetLocal.connect addr calls := by
  rw [reconnect, h]

theorem reconnect_of_none {s : Socket} (h : s.remoteAddress = none) (calls : ConnectCalls) :
    s.reconnect calls = (false, s) := by
  rw [reconnect, h]

/-- How `connect` ends: without a descriptor, with an address of another family, refused, or
connected. -/
inductive Connects (s : Socket) (addr : SocketAddress) (calls : ConnectCalls) :
    Bool × Socket → Prop
  | unopened : s.sock = none → calls.socket = none →
      Connects s addr calls (false, { s with remoteAddress := some addr })
  | mismatch : (s.sock.or calls.socket).isSome → addr.family ≠ s.family →
      Connects s addr calls
        (false, { s with sock := s.sock.or calls.socket, remoteAddress := some addr })
  | refused : (s.sock.or calls.socket).isSome → addr.family = s.family → calls.connected = false →
      Connects s addr calls
        (false, { s with sock := none, isConnected := false, remoteAddress := some addr })
  | connected : (s.sock.or calls.socket).isSome → addr.family = s.family → calls.connected = true →
      Connects s addr calls
        (true, { s with
          sock := s.sock.or calls.socket
          isConnected := true
          localAddress := s.localAddress.or calls.sockname
          remoteAddress := some addr })

theorem connect_connects (s : Socket) (addr : SocketAddress) (calls : ConnectCalls) :
    Connects s addr calls (s.connect addr calls) := by
  by_cases hsome : (s.sock.or calls.socket).isSome
  · by_cases hfamily : addr.family = s.family
    · cases hcalls : calls.connected with
      | true =>
          have hend := Connects.connected hsome hfamily hcalls
          simpa [connect, ensureSock_eq, isValid, hsome, hfamily, hcalls, connected_eq] using hend
      | false =>
          have hend := Connects.refused hsome hfamily hcalls
          simpa [connect, ensureSock_eq, isValid, hsome, hfamily, hcalls, close_eq] using hend
    · have hend := Connects.mismatch hsome hfamily
      simpa [connect, ensureSock_eq, isValid, hsome, hfamily] using hend
  · have hnone := Option.or_eq_none_iff.mp (Option.not_isSome_iff_eq_none.mp hsome)
    have hend : Connects s addr calls (false, { s with remoteAddress := some addr }) :=
      .unopened hnone.1 hnone.2
    simpa [connect, ensureSock_eq, isValid, hnone.1, hnone.2] using hend

/-- `connect` succeeds with a descriptor, an address of the family, and a peer. -/
theorem connect_eq_true_iff (s : Socket) (addr : SocketAddress) (calls : ConnectCalls) :
    (s.connect addr calls).1 = true ↔
      (s.sock.or calls.socket).isSome ∧ addr.family = s.family ∧ calls.connected = true := by
  have hends := s.connect_connects addr calls
  generalize s.connect addr calls = r at hends
  cases hends with
  | unopened hnone hsocket => simp [hnone, hsocket]
  | mismatch hsome hfamily => simp [hfamily]
  | refused hsome hfamily hcalls => simp [hcalls]
  | connected hsome hfamily hcalls => simp [hsome, hfamily, hcalls]

theorem connect_isConnected {s : Socket} {addr : SocketAddress} {calls : ConnectCalls}
    (h : (s.connect addr calls).1 = true) : (s.connect addr calls).2.isConnected = true := by
  have hends := s.connect_connects addr calls
  generalize s.connect addr calls = r at hends h
  cases hends with
  | connected => rfl
  | _ => exact nomatch h

/-- How `bind` ends. -/
inductive Binds (s : Socket) (calls : BindCalls) : Bool × Socket → Prop
  | failed : Binds s calls (false, { s with sock := s.sock.or calls.socket })
  | bound : (s.sock.or calls.socket).isSome →
      Binds s calls
        (true, { s with
          sock := s.sock.or calls.socket
          localAddress := s.localAddress.or calls.sockname })

theorem bind_binds (s : Socket) (addr : SocketAddress) (calls : BindCalls) :
    Binds s calls (s.bind addr calls) := by
  by_cases hsome : (s.sock.or calls.socket).isSome
  · by_cases hfamily : addr.family = s.family
    · cases hprobe : addr.isUnix && (createUnixTcpSocket.connect addr calls.probe).1 with
      | true =>
          have hend : Binds s calls (false, _) := .failed
          simpa [bind, ensureSock_eq, isValid, hsome, hfamily, hprobe] using hend
      | false =>
          cases hbound : calls.bound with
          | true =>
              have hend := Binds.bound hsome
              simpa [bind, ensureSock_eq, isValid, hsome, hfamily, hprobe, hbound,
                getLocalAddress_eq] using hend
          | false =>
              have hend : Binds s calls (false, _) := .failed
              simpa [bind, ensureSock_eq, isValid, hsome, hfamily, hprobe, hbound] using hend
    · have hend : Binds s calls (false, _) := .failed
      simpa [bind, ensureSock_eq, isValid, hsome, hfamily] using hend
  · have hend : Binds s calls (false, _) := .failed
    simpa [bind, ensureSock_eq, isValid, hsome] using hend

/-- What `init` makes of a descriptor that is managed. -/
theorem init_eq (s : Socket) (sock : Nat) (calls : AcceptCalls) :
    s.init sock calls = if calls.managed then
      (true, { s with
        sock := some sock
        isConnected := true
        localAddress := s.localAddress.or calls.sockname
        remoteAddress := s.remoteAddress.or calls.peername })
    else (false, s) := by
  rw [init, getLocalAddress_eq, getRemoteAddress_eq]

/-- What `accept` returns has a descriptor. -/
theorem accept_isValid {s t : Socket} {calls : AcceptCalls} (h : s.accept calls = some t) :
    t.isValid = true := by
  cases hfd : calls.accept with
  | none => simp [accept, hfd] at h
  | some newsock =>
      cases hmanaged : calls.managed with
      | true =>
          simp only [accept, hfd, init_eq, hmanaged, if_true, Option.some.injEq] at h
          rw [← h]
          rfl
      | false => simp [accept, hfd, init_eq, hmanaged] at h

end Socket

/-- `SSLSocket`, with whether `m_ctx` and `m_ssl` are set. -/
structure SSLSocket extends Socket where
  ctx : Bool
  ssl : Bool
deriving DecidableEq, Repr

namespace SSLSocket

/-- The constructor. -/
def new (family type protocol : Int) : SSLSocket where
  toSocket := .new family type protocol
  ctx := false
  ssl := false

/-- `connect`, with whether `SSL_connect` returns 1. -/
def connect (s : SSLSocket) (addr : SocketAddress) (calls : ConnectCalls) (handshake : Bool) :
    Bool × SSLSocket :=
  match s.toSocket.connect addr calls with
  | (true, base) => (handshake, { toSocket := base, ctx := true, ssl := true })
  | (false, base) => (false, { s with toSocket := base })

/-- The handshake is made on a connection. -/
theorem connect_of_true {s : SSLSocket} {addr : SocketAddress} {calls : ConnectCalls}
    {handshake : Bool} (h : (s.toSocket.connect addr calls).1 = true) :
    s.connect addr calls handshake =
      (handshake, { toSocket := (s.toSocket.connect addr calls).2, ctx := true, ssl := true }) := by
  rw [connect]
  generalize s.toSocket.connect addr calls = r at h ⊢
  obtain ⟨_ | _, base⟩ := r
  · exact nomatch h
  · rfl

theorem connect_of_false {s : SSLSocket} {addr : SocketAddress} {calls : ConnectCalls}
    {handshake : Bool} (h : (s.toSocket.connect addr calls).1 = false) :
    s.connect addr calls handshake =
      (false, { s with toSocket := (s.toSocket.connect addr calls).2 }) := by
  rw [connect]
  generalize s.toSocket.connect addr calls = r at h ⊢
  obtain ⟨_ | _, base⟩ := r
  · rfl
  · exact nomatch h

/-- `reconnect`, which calls the `connect` of this class. -/
def reconnect (s : SSLSocket) (calls : ConnectCalls) (handshake : Bool) : Bool × SSLSocket :=
  match s.remoteAddress with
  | none => (false, s)
  | some addr => connect { s with toSocket := s.toSocket.resetLocal } addr calls handshake

def bind (s : SSLSocket) (addr : SocketAddress) (calls : BindCalls) : Bool × SSLSocket :=
  ((s.toSocket.bind addr calls).1, { s with toSocket := (s.toSocket.bind addr calls).2 })

def listen (s : SSLSocket) (listens : Bool) : Bool :=
  s.toSocket.listen listens

def close (s : SSLSocket) : Bool × SSLSocket :=
  (s.toSocket.close.1, { s with toSocket := s.toSocket.close.2 })

/-- `init`, with whether `SSL_accept` returns 1. -/
def init (s : SSLSocket) (sock : Nat) (calls : AcceptCalls) (handshake : Bool) :
    Bool × SSLSocket :=
  match s.toSocket.init sock calls with
  | (true, base) => (handshake, { s with toSocket := base, ssl := true })
  | (false, base) => (false, { s with toSocket := base })

def accept (s : SSLSocket) (calls : AcceptCalls) (handshake : Bool) : Option SSLSocket :=
  match calls.accept with
  | none => none
  | some newsock =>
      match init { new s.family s.type s.protocol with ctx := s.ctx } newsock calls handshake with
      | (true, sock) => some sock
      | (false, _) => none

def createTcp (address : SocketAddress) : SSLSocket := new address.family Socket.tcp 0

def createTcpSocket : SSLSocket := new Socket.ipv4 Socket.tcp 0

def createTcpSocket6 : SSLSocket := new Socket.ipv6 Socket.tcp 0

/-- What `accept` returns has a descriptor. -/
theorem accept_isValid {s t : SSLSocket} {calls : AcceptCalls} {handshake : Bool}
    (h : s.accept calls handshake = some t) : t.isValid = true := by
  cases hfd : calls.accept with
  | none => simp [accept, hfd] at h
  | some newsock =>
      cases hmanaged : calls.managed with
      | true =>
          cases handshake with
          | true =>
              simp only [accept, hfd, init, Socket.init_eq, hmanaged, if_true,
                Option.some.injEq] at h
              rw [← h]
              rfl
          | false => simp [accept, hfd, init, Socket.init_eq, hmanaged] at h
      | false => simp [accept, hfd, init, Socket.init_eq, hmanaged] at h

end SSLSocket

/-! ## Sockets of either class -/

/-- What a `Socket::ptr` points to. -/
inductive SocketPtr
  | socket (s : Socket)
  | sslSocket (s : SSLSocket)
deriving DecidableEq, Repr

namespace SocketPtr

/-- The members of the base class. -/
def base : SocketPtr → Socket
  | .socket s => s
  | .sslSocket s => s.toSocket

/-- The class is `SSLSocket`. -/
def isSsl : SocketPtr → Bool
  | .socket _ => false
  | .sslSocket _ => true

def resetLocal : SocketPtr → SocketPtr
  | .socket s => .socket s.resetLocal
  | .sslSocket s => .sslSocket { s with toSocket := s.toSocket.resetLocal }

/-- The virtual functions.  A `Socket` makes no handshake. -/
def connect (addr : SocketAddress) (calls : ConnectCalls) (handshake : Bool) :
    SocketPtr → Bool × SocketPtr
  | .socket s => ((s.connect addr calls).1, .socket (s.connect addr calls).2)
  | .sslSocket s =>
      ((s.connect addr calls handshake).1, .sslSocket (s.connect addr calls handshake).2)

def reconnect (calls : ConnectCalls) (handshake : Bool) : SocketPtr → Bool × SocketPtr
  | .socket s => ((s.reconnect calls).1, .socket (s.reconnect calls).2)
  | .sslSocket s => ((s.reconnect calls handshake).1, .sslSocket (s.reconnect calls handshake).2)

def bind (addr : SocketAddress) (calls : BindCalls) : SocketPtr → Bool × SocketPtr
  | .socket s => ((s.bind addr calls).1, .socket (s.bind addr calls).2)
  | .sslSocket s => ((s.bind addr calls).1, .sslSocket (s.bind addr calls).2)

def listen (listens : Bool) : SocketPtr → Bool
  | .socket s => s.listen listens
  | .sslSocket s => s.listen listens

def close : SocketPtr → Bool × SocketPtr
  | .socket s => (s.close.1, .socket s.close.2)
  | .sslSocket s => (s.close.1, .sslSocket s.close.2)

def accept (calls : AcceptCalls) (handshake : Bool) : SocketPtr → Option SocketPtr
  | .socket s => (s.accept calls).map .socket
  | .sslSocket s => (s.accept calls handshake).map .sslSocket

end SocketPtr

end Network
end Hpgs
