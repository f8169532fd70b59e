import Hpgs.Library.Transition
import Hpgs.Network.Socket

/-!
# The addresses that a socket keeps

`getLocalAddress` asks the kernel once and keeps the answer; `bind` and `connect` call it.
Only `reconnect` forgets it.  The remote address is the one that `connect` was given.

Beside the socket stands what the kernel would report: the name of its descriptor, and the
peer of the connection that `connect` has made on it.

**Results.**
* `current_afterConnect_iff`, `current_bind_iff`: when the addresses are right after a call.
* `addresses_current`: in a run the addresses are those of the connection exactly if each
  `connect` finds no other local address and is given the address of its peer.
* `addresses_stale`: the local address of a connection that is closed.
-/

namespace Hpgs
namespace Network

open Transition

/-! ## Runs -/

/-- A socket, the name that `getsockname` reports for its descriptor, and the peer of the
connection that `connect` has made. -/
structure Connection where
  socket : Socket
  sockname : Option SocketAddress
  peer : Option SocketAddress
deriving DecidableEq

/-- An operation, with what its calls return. -/
inductive ConnectionOp
  | bind (addr : SocketAddress) (calls : BindCalls)
  | connect (addr : SocketAddress) (calls : ConnectCalls)
  | reconnect (calls : ConnectCalls)
  | close

namespace Connection

/-- After a `connect` that was given `addr`.  The peer is what the kernel reports, or `addr`
where it reports nothing; a descriptor that is closed has none. -/
def afterConnect (c : Connection) (addr : SocketAddress) (calls : ConnectCalls)
    (r : Bool × Socket) : Connection where
  socket := r.2
  sockname := if r.1 then calls.sockname else c.sockname
  peer := if r.1 then some (calls.peername.getD addr) else if r.2.isValid then c.peer else none

/-- One operation. -/
def perform (c : Connection) : ConnectionOp → Connection
  | .bind addr calls =>
      let r := c.socket.bind addr calls
      { c with socket := r.2, sockname := if r.1 then calls.sockname else c.sockname }
  | .connect addr calls => c.afterConnect addr calls (c.socket.connect addr calls)
  | .reconnect calls =>
      match c.socket.remoteAddress with
      | none => { c with socket := (c.socket.reconnect calls).2 }
      | some addr => c.afterConnect addr calls (c.socket.reconnect calls)
  | .close => { c with socket := c.socket.close.2, peer := none }

/-- Runs of a socket on which `connect` has made no connection yet. -/
def system : System Connection ConnectionOp where
  init c := c.peer = none
  step c op := some (c.perform op)

/-! ## The property and its condition -/

/-- The local address that the kernel reports. -/
def reported (family : Int) (sockname : Option SocketAddress) : SocketAddress :=
  sockname.getD (.unknown family)

/-- Both functions return the addresses of the connection, as long as there is one. -/
def Current (c : Connection) : Prop :=
  ∀ peer, c.peer = some peer →
    (c.socket.getLocalAddress c.sockname).1 = reported c.socket.family c.sockname ∧
      (c.socket.getRemoteAddress (some peer)).1 = peer

/-- No other local address than `sockname` is kept. -/
def Fresh (s : Socket) (sockname : Option SocketAddress) : Prop :=
  ∀ addr, s.localAddress = some addr → addr = reported s.family sockname

/-- The condition on an operation. -/
def Sound (c : Connection) : ConnectionOp → Prop
  | .bind addr calls =>
      c.peer.isSome → (c.socket.bind addr calls).1 = true → Fresh c.socket calls.sockname
  | .connect addr calls =>
      ((c.socket.connect addr calls).1 = true →
        Fresh c.socket calls.sockname ∧ ∀ peer, calls.peername = some peer → peer = addr) ∧
        (c.peer.isSome → addr.family ≠ c.socket.family → c.peer = some addr)
  | .reconnect calls =>
      (c.socket.reconnect calls).1 = true →
        ∀ peer, calls.peername = some peer → c.socket.remoteAddress = some peer
  | .close => True

/-! ## What is shown -/

section Shown

variable {c : Connection} {s t : Socket}

/-- Only a cached address can be wrong. -/
theorem current_iff : Current c ↔ ∀ peer, c.peer = some peer → Fresh c.socket c.sockname ∧
    ∀ addr, c.socket.remoteAddress = some addr → addr = peer := by
  refine forall₂_congr fun peer _ => and_congr ?_ ?_
  · rw [Socket.getLocalAddress_eq, Fresh, reported]
    cases c.socket.localAddress <;> simp
  · rw [Socket.getRemoteAddress_eq]
    cases c.socket.remoteAddress <;> simp

/-- What is cached now is what is reported now. -/
theorem fresh_or {sockname : Option SocketAddress}
    (hlocal : t.localAddress = s.localAddress.or sockname) (hfamily : t.family = s.family) :
    Fresh t sockname ↔ Fresh s sockname := by
  rw [Fresh, Fresh, hlocal, hfamily, reported]
  cases s.localAddress with
  | none => cases sockname <;> simp
  | some addr => simp

/-- What is shown after a `connect`, with a descriptor wherever there is a connection. -/
theorem current_afterConnect_iff (hvalid : c.peer.isSome → s.isValid = true) (addr : SocketAddress)
    (calls : ConnectCalls) :
    Current (c.afterConnect addr calls (s.connect addr calls)) ↔
      ((s.connect addr calls).1 = true →
        Fresh s calls.sockname ∧ ∀ peer, calls.peername = some peer → peer = addr) ∧
      (addr.family ≠ s.family → ∀ peer, c.peer = some peer →
        Fresh s c.sockname ∧ addr = peer) := by
  have hends := s.connect_connects addr calls
  generalize s.connect addr calls = r at hends
  rw [current_iff]
  cases hends with
  | unopened hnone hsocket =>
      have hpeer : c.peer = none := by
        by_contra hsome
        have hv := hvalid (Option.isSome_iff_ne_none.mpr hsome)
        rw [Socket.isValid, hnone] at hv
        cases hv
      simp [afterConnect, Socket.isValid, hnone, hpeer]
  | mismatch hsome hfamily =>
      simp [afterConnect, Socket.isValid, hsome, hfamily, Fresh]
  | refused hsome hfamily hcalls =>
      simp [afterConnect, Socket.isValid, hfamily]
  | connected hsome hfamily hcalls =>
      have hfresh : Fresh { s with
          sock := s.sock.or calls.socket, isConnected := true,
          localAddress := s.localAddress.or calls.sockname,
          remoteAddress := some addr } calls.sockname ↔ Fresh s calls.sockname := fresh_or rfl rfl
      cases hname : calls.peername <;> simp [afterConnect, hfamily, hfresh, hname, eq_comm]

/-- What is shown after a `bind`. -/
theorem current_bind_iff (h : Current c) (addr : SocketAddress) (calls : BindCalls) :
    Current (c.perform (.bind addr calls)) ↔ Sound c (.bind addr calls) := by
  have hends := c.socket.bind_binds addr calls
  rw [perform, Sound, current_iff]
  rw [current_iff] at h
  generalize c.socket.bind addr calls = r at hends
  cases hends with
  | failed =>
      refine ⟨fun _ _ hr => (nomatch hr), fun _ => ?_⟩
      simpa [Fresh] using h
  | bound hsome =>
      have hfresh : Fresh { c.socket with
          sock := c.socket.sock.or calls.socket,
          localAddress := c.socket.localAddress.or calls.sockname } calls.sockname ↔
          Fresh c.socket calls.sockname := fresh_or rfl rfl
      constructor
      · intro hall hpeer _
        obtain ⟨peer, hpeer⟩ := Option.isSome_iff_exists.mp hpeer
        exact hfresh.mp (hall peer hpeer).1
      · intro hsound peer hpeer
        exact ⟨hfresh.mpr (hsound (by rw [hpeer]; rfl) rfl), (h peer hpeer).2⟩

end Shown

/-! ## Runs -/

section Runs

variable {c : Connection}

/-- The invariant: what is shown is current, and a connection has a descriptor. -/
structure Inv (c : Connection) : Prop where
  current : Current c
  valid : c.peer.isSome → c.socket.isValid = true

/-- An operation keeps what is shown exactly under its condition. -/
theorem current_perform_iff (h : Inv c) (op : ConnectionOp) :
    Current (c.perform op) ↔ Sound c op := by
  have hshown := current_iff.mp h.current
  cases op with
  | bind addr calls => exact current_bind_iff h.current addr calls
  | connect addr calls =>
      rw [perform, current_afterConnect_iff h.valid, Sound]
      refine and_congr Iff.rfl ⟨fun hall hpeer hfamily => ?_, fun hall hfamily peer hpeer => ?_⟩
      · obtain ⟨peer, hpeer⟩ := Option.isSome_iff_exists.mp hpeer
        rw [(hall hfamily peer hpeer).2, hpeer]
      · have hsame := hall (by rw [hpeer]; rfl) hfamily
        exact ⟨(hshown peer hpeer).1, Option.some.inj (hsame.symm.trans hpeer)⟩
  | reconnect calls =>
      cases hremote : c.socket.remoteAddress with
      | none =>
          have hnone := Socket.reconnect_of_none hremote calls
          have hsame : c.perform (.reconnect calls) = c := by
            simp only [perform, hremote, hnone]
          rw [hsame, Sound, hnone]
          exact ⟨fun _ hr => (nomatch hr), fun _ => h.current⟩
      | some addr =>
          have hsome := Socket.reconnect_of_some hremote calls
          have hafter : c.perform (.reconnect calls) = c.afterConnect addr calls
              (c.socket.resetLocal.connect addr calls) := by
            simp only [perform, hremote, hsome]
          have hforgotten : ∀ sockname, Fresh c.socket.resetLocal sockname :=
            fun _ _ hlocal => nomatch hlocal
          rw [hafter, current_afterConnect_iff (s := c.socket.resetLocal) h.valid, Sound, hsome]
          constructor
          · intro hall hr peer hpeer
            rw [(hall.1 hr).2 peer hpeer]
            exact hremote
          · intro hall
            refine ⟨fun hr => ⟨hforgotten _, fun peer hpeer => ?_⟩, fun _ peer hpeer => ?_⟩
            · exact Option.some.inj ((hall hr peer hpeer).symm.trans hremote)
            · exact ⟨hforgotten _, (hshown peer hpeer).2 addr hremote⟩
  | close =>
      refine ⟨fun _ => trivial, fun _ peer hpeer => nomatch hpeer⟩

/-- A connection that is left has a descriptor. -/
theorem valid_afterConnect (s : Socket) (addr : SocketAddress) (calls : ConnectCalls) :
    (c.afterConnect addr calls (s.connect addr calls)).peer.isSome →
      (c.afterConnect addr calls (s.connect addr calls)).socket.isValid = true := by
  have hends := s.connect_connects addr calls
  generalize s.connect addr calls = r at hends
  cases hends with
  | unopened hnone => simp [afterConnect, Socket.isValid, hnone]
  | mismatch hsome => exact fun _ => hsome
  | refused => simp [afterConnect, Socket.isValid]
  | connected hsome => exact fun _ => hsome

theorem valid_perform (h : Inv c) (op : ConnectionOp) :
    (c.perform op).peer.isSome → (c.perform op).socket.isValid = true := by
  cases op with
  | bind addr calls =>
      have hends := c.socket.bind_binds addr calls
      rw [perform]
      generalize c.socket.bind addr calls = r at hends
      cases hends with
      | failed =>
          intro hpeer
          have hsome : c.socket.sock.isSome = true := h.valid hpeer
          simp [Socket.isValid, hsome]
      | bound hsome => exact fun _ => hsome
  | connect addr calls => exact valid_afterConnect _ _ _
  | reconnect calls =>
      cases hremote : c.socket.remoteAddress with
      | none =>
          simp only [perform, hremote, Socket.reconnect_of_none hremote]
          exact h.valid
      | some addr =>
          simp only [perform, hremote, Socket.reconnect_of_some hremote]
          exact valid_afterConnect _ _ _
  | close =>
      intro hpeer
      cases hpeer

/-- **Addresses over runs.**  From any socket on which `connect` has made no connection, the
addresses shown are those of the connection in every state of a run, exactly if every
operation is sound. -/
theorem addresses_current (s : Socket) (sockname : Option SocketAddress)
    (ops : List ConnectionOp) :
    system.Along Current ⟨s, sockname, none⟩ ops ↔
      system.StepsMeet Sound ⟨s, sockname, none⟩ ops := by
  refine System.along_iff_stepsMeet (fun c (h : Inv c) => h.current) ?_ ?_ ?_
    (System.exec_isSome (fun _ _ => rfl) ops)
  · intro c op c' h hsound hstep
    obtain rfl := Option.some.inj hstep
    exact ⟨(current_perform_iff h op).mpr hsound, valid_perform h op⟩
  · intro c op c' h hsound hstep
    obtain rfl := Option.some.inj hstep
    exact fun hcurrent => hsound ((current_perform_iff h op).mp hcurrent)
  · exact ⟨fun peer hpeer => (nomatch hpeer), fun hpeer => (nomatch hpeer)⟩

/-- An IPv4 address. -/
def ip (last : UInt8) : SocketAddress :=
  ⟨Socket.ipv4, false, [192, 168, 0, last]⟩

/-- A peer answers, on descriptor 3 and with a local name. -/
def answer (peer sockname : UInt8) : ConnectCalls :=
  ⟨some 3, true, some (ip peer), some (ip sockname)⟩

/-- A socket is connected, closed, and connected to another peer; it keeps its first local
address. -/
theorem addresses_stale :
    let ops := [.connect (ip 1) (answer 1 100), .close, .connect (ip 2) (answer 2 200)]
    ∃ c, system.exec ⟨.createTcpSocket, none, none⟩ ops = some c ∧ c.sockname = some (ip 200) ∧
      (c.socket.getLocalAddress c.sockname).1 = ip 100 ∧
      ¬ system.Along Current ⟨.createTcpSocket, none, none⟩ ops := by
  intro ops
  refine ⟨_, rfl, by decide, by decide, fun h => ?_⟩
  have hlocal := (h.of_exec rfl (ip 2) rfl).1
  exact absurd hlocal (by decide)

end Runs

end Connection
end Network
end Hpgs
