import Hpgs.Library.Transition
import Hpgs.Network.Socket

/-!
# The connected flag of sockets

Sockets are made, bound, connected, accepted and closed in any order, and the calls that they
make return anything.  A socket that says that it is connected should have a descriptor, and
should not say so after a `connect` that has failed.

**Results.**
* `connect_connected_iff`: the flag after a `connect` that returns false.
* `keep_iff`: the same for sockets of either class.
* `connected_valid`: the flag is right in a run exactly if no factory of a UDP socket is left
  without a descriptor, no connected socket gets an address of another family, and no
  handshake fails.
* `connected_valid_fails`: a UDP socket without a descriptor.
-/

namespace Hpgs
namespace Network

open Transition

/-! ## Runs -/

/-- The factories and the constructors. -/
inductive Factory
  | new (family type protocol : Int)
  | createTcp (address : SocketAddress)
  | createUdp (address : SocketAddress)
  | createTcpSocket
  | createUdpSocket
  | createTcpSocket6
  | createUdpSocket6
  | createUnixTcpSocket
  | createUnixUdpSocket
  | sslNew (family type protocol : Int)
  | sslCreateTcp (address : SocketAddress)
  | sslCreateTcpSocket
  | sslCreateTcpSocket6
deriving DecidableEq

/-- The socket that is made; `socket` is what the call of `socket` returns, where there is
one. -/
def Factory.make (socket : Option Nat) : Factory → SocketPtr
  | .new family type protocol => .socket (.new family type protocol)
  | .createTcp address => .socket (.createTcp address)
  | .createUdp address => .socket (.createUdp address socket)
  | .createTcpSocket => .socket .createTcpSocket
  | .createUdpSocket => .socket (.createUdpSocket socket)
  | .createTcpSocket6 => .socket .createTcpSocket6
  | .createUdpSocket6 => .socket .createUdpSocket6
  | .createUnixTcpSocket => .socket .createUnixTcpSocket
  | .createUnixUdpSocket => .socket .createUnixUdpSocket
  | .sslNew family type protocol => .sslSocket (.new family type protocol)
  | .sslCreateTcp address => .sslSocket (.createTcp address)
  | .sslCreateTcpSocket => .sslSocket .createTcpSocket
  | .sslCreateTcpSocket6 => .sslSocket .createTcpSocket6

/-- The factory opens a descriptor at once. -/
def Factory.Opens : Factory → Prop
  | .createUdp _ => True
  | .createUdpSocket => True
  | _ => False

/-- An operation on socket number `i`, with what its calls return. -/
inductive SocketOp
  | create (f : Factory) (socket : Option Nat)
  | bind (i : Nat) (addr : SocketAddress) (calls : BindCalls)
  | connect (i : Nat) (addr : SocketAddress) (calls : ConnectCalls) (handshake : Bool)
  | reconnect (i : Nat) (calls : ConnectCalls) (handshake : Bool)
  | accept (i : Nat) (calls : AcceptCalls) (handshake : Bool)
  | close (i : Nat)

/-- The sockets, and which of them has just been refused by `connect`. -/
structure Sockets where
  all : List SocketPtr
  refused : Option Nat
deriving DecidableEq

namespace Sockets

/-- Socket number `i` becomes `p`, and nothing has been refused. -/
def put (w : Sockets) (i : Nat) (p : SocketPtr) : Sockets where
  all := w.all.set i p
  refused := none

/-- Socket number `i` after a `connect`. -/
def putConnect (w : Sockets) (i : Nat) (r : Bool × SocketPtr) : Sockets where
  all := w.all.set i r.2
  refused := if r.1 then none else some i

/-- One operation.  There is no call on a socket that does not exist, and `reconnect` makes
none without an address. -/
def perform (w : Sockets) : SocketOp → Sockets
  | .create f socket => ⟨w.all ++ [f.make socket], none⟩
  | .bind i addr calls => (w.all[i]?).elim w fun p => w.put i (p.bind addr calls).2
  | .connect i addr calls handshake =>
      (w.all[i]?).elim w fun p => w.putConnect i (p.connect addr calls handshake)
  | .reconnect i calls handshake => (w.all[i]?).elim w fun p =>
      if p.base.remoteAddress.isSome then w.putConnect i (p.reconnect calls handshake)
      else { w with refused := none }
  | .accept i calls handshake => (w.all[i]?).elim w fun p =>
      ⟨w.all ++ (p.accept calls handshake).toList, none⟩
  | .close i => (w.all[i]?).elim w fun p => w.put i p.close.2

def system : System Sockets SocketOp where
  init w := w = ⟨[], none⟩
  step w op := some (w.perform op)

/-! ## The property and its condition -/

/-- What is connected has a descriptor. -/
def Consistent (p : SocketPtr) : Prop :=
  p.base.isConnected = true → p.base.isValid = true

/-- All sockets are consistent, and the one that was refused is not connected. -/
structure Good (w : Sockets) : Prop where
  valid : ∀ p ∈ w.all, Consistent p
  refused : ∀ i p, w.refused = some i → w.all[i]? = some p → p.base.isConnected = false

/-- No connected socket gets an address of another family, and no handshake fails on a
connection that was made. -/
def Keeps (p : SocketPtr) (addr : SocketAddress) (calls : ConnectCalls) (handshake : Bool) : Prop :=
  (p.base.isConnected = true → addr.family = p.base.family) ∧
    (p.isSsl = true → handshake = false →
      ¬ ((p.base.sock.or calls.socket).isSome ∧ addr.family = p.base.family ∧
        calls.connected = true))

/-- The condition on an operation. -/
def Sound (w : Sockets) : SocketOp → Prop
  | .create f socket => f.Opens → socket.isSome
  | .connect i addr calls handshake => ∀ p, w.all[i]? = some p → Keeps p addr calls handshake
  | .reconnect i calls handshake => ∀ p addr, w.all[i]? = some p →
      p.base.remoteAddress = some addr → Keeps p addr calls handshake
  | _ => True

/-! ## One socket -/

section OneSocket

/-- The flag after a `connect` of the base class that returns false. -/
theorem connect_connected_iff {s : Socket} (h : s.isConnected = true → s.isValid = true)
    (addr : SocketAddress) (calls : ConnectCalls) (hfalse : (s.connect addr calls).1 = false) :
    (s.connect addr calls).2.isConnected = false ↔
      (s.isConnected = true → addr.family = s.family) := by
  have hends := s.connect_connects addr calls
  generalize s.connect addr calls = r at hends hfalse
  cases hends with
  | unopened hnone hsocket =>
      have hflag : s.isConnected = false := by
        by_contra hne
        have hvalid := h (by simpa using hne)
        rw [Socket.isValid, hnone] at hvalid
        cases hvalid
      exact ⟨fun _ hyes => absurd (hflag.symm.trans hyes) Bool.false_ne_true, fun _ => hflag⟩
  | mismatch hsome hfamily =>
      constructor
      · exact fun hno hyes => absurd (hno.symm.trans hyes) Bool.false_ne_true
      · intro himp
        by_contra hne
        exact hfamily (himp (by simpa using hne))
  | refused hsome hfamily hcalls => exact ⟨fun _ _ => hfamily, fun _ => rfl⟩
  | connected => exact absurd hfalse.symm Bool.false_ne_true

theorem connect_valid {s : Socket} (h : s.isConnected = true → s.isValid = true)
    (addr : SocketAddress) (calls : ConnectCalls) :
    (s.connect addr calls).2.isConnected = true → (s.connect addr calls).2.isValid = true := by
  have hends := s.connect_connects addr calls
  generalize s.connect addr calls = r at hends
  cases hends with
  | unopened => exact h
  | mismatch hsome => exact fun _ => hsome
  | refused => exact fun hflag => nomatch hflag
  | connected hsome => exact fun _ => hsome

theorem bind_valid {s : Socket} (h : s.isConnected = true → s.isValid = true)
    (addr : SocketAddress) (calls : BindCalls) :
    (s.bind addr calls).2.isConnected = true → (s.bind addr calls).2.isValid = true := by
  have hends := s.bind_binds addr calls
  generalize s.bind addr calls = r at hends
  cases hends with
  | failed =>
      intro hflag
      have hsome : s.sock.isSome = true := h hflag
      simp [Socket.isValid, hsome]
  | bound hsome => exact fun _ => hsome

end OneSocket

/-! ## Sockets of either class -/

section EitherClass

variable {p : SocketPtr}

/-- A `connect` that returns false leaves no connected socket, exactly under the condition. -/
theorem connect_keeps_iff (h : Consistent p) (addr : SocketAddress) (calls : ConnectCalls)
    (handshake : Bool) :
    ((p.connect addr calls handshake).1 = false →
        (p.connect addr calls handshake).2.base.isConnected = false) ↔
      Keeps p addr calls handshake := by
  cases p with
  | socket s =>
      have hiff := s.connect_eq_true_iff addr calls
      have hflag := connect_connected_iff h addr calls
      constructor
      · intro hfalse
        refine ⟨fun hyes => ?_, fun hssl => nomatch hssl⟩
        cases hr : (s.connect addr calls).1 with
        | true => exact (hiff.mp hr).2.1
        | false => exact (hflag hr).mp (hfalse hr) hyes
      · exact fun hkeeps hr => (hflag hr).mpr hkeeps.1
  | sslSocket s =>
      have hiff := s.toSocket.connect_eq_true_iff addr calls
      cases hr : (s.toSocket.connect addr calls).1 with
      | true =>
          rw [SocketPtr.connect, SSLSocket.connect_of_true hr]
          have hyes := Socket.connect_isConnected hr
          obtain ⟨hsome, hfamily, hcalls⟩ := hiff.mp hr
          constructor
          · intro himp
            refine ⟨fun _ => hfamily, fun _ hfail => ?_⟩
            exact absurd ((himp hfail).symm.trans hyes) (by decide)
          · intro hkeeps hfail
            exact absurd ⟨hsome, hfamily, hcalls⟩ (hkeeps.2 rfl hfail)
      | false =>
          rw [SocketPtr.connect, SSLSocket.connect_of_false hr]
          have hflag := connect_connected_iff h addr calls hr
          constructor
          · intro himp
            refine ⟨hflag.mp (himp rfl), fun _ _ hall => ?_⟩
            exact absurd (hr.symm.trans (hiff.mpr hall)) (by decide)
          · exact fun hkeeps _ => hflag.mpr hkeeps.1

/-- `reconnect` connects to the address it has, with the other one forgotten. -/
theorem reconnect_eq {addr : SocketAddress} (h : p.base.remoteAddress = some addr)
    (calls : ConnectCalls) (handshake : Bool) :
    p.reconnect calls handshake = p.resetLocal.connect addr calls handshake := by
  cases p with
  | socket s =>
      rw [SocketPtr.reconnect, Socket.reconnect_of_some (s := s) h]
      rfl
  | sslSocket s =>
      have hremote : s.remoteAddress = some addr := h
      rw [SocketPtr.reconnect, SSLSocket.reconnect, hremote]
      rfl

/-- Resetting the local address changes nothing about the flag. -/
theorem keeps_resetLocal (addr : SocketAddress) (calls : ConnectCalls) (handshake : Bool) :
    Keeps p.resetLocal addr calls handshake ↔ Keeps p addr calls handshake := by
  cases p <;> rfl

/-! ### What stays consistent -/

theorem resetLocal_consistent (h : Consistent p) : Consistent p.resetLocal := by
  cases p <;> exact h

theorem connect_consistent (h : Consistent p) (addr : SocketAddress) (calls : ConnectCalls)
    (handshake : Bool) : Consistent (p.connect addr calls handshake).2 := by
  cases p with
  | socket s => exact connect_valid h addr calls
  | sslSocket s =>
      have hvalid := connect_valid h addr calls
      cases hr : (s.toSocket.connect addr calls).1 with
      | true =>
          rw [SocketPtr.connect, SSLSocket.connect_of_true hr]
          exact hvalid
      | false =>
          rw [SocketPtr.connect, SSLSocket.connect_of_false hr]
          exact hvalid

theorem bind_consistent (h : Consistent p) (addr : SocketAddress) (calls : BindCalls) :
    Consistent (p.bind addr calls).2 := by
  cases p with
  | socket s => exact bind_valid h addr calls
  | sslSocket s => exact bind_valid (s := s.toSocket) h addr calls

theorem close_consistent (p : SocketPtr) : Consistent p.close.2 := by
  cases p with
  | socket s =>
      rw [Consistent, SocketPtr.close, SocketPtr.base, s.close_eq]
      exact fun h => nomatch h
  | sslSocket s =>
      rw [Consistent, SocketPtr.close, SSLSocket.close, SocketPtr.base, s.toSocket.close_eq]
      exact fun h => nomatch h

theorem accept_consistent {q : SocketPtr} {calls : AcceptCalls} {handshake : Bool}
    (h : p.accept calls handshake = some q) : Consistent q := by
  cases p with
  | socket s =>
      obtain ⟨t, ht, rfl⟩ := Option.map_eq_some_iff.mp h
      exact fun _ => Socket.accept_isValid ht
  | sslSocket s =>
      obtain ⟨t, ht, rfl⟩ := Option.map_eq_some_iff.mp h
      exact fun _ => SSLSocket.accept_isValid ht

/-- A factory makes a consistent socket unless it opens a descriptor and gets none. -/
theorem make_consistent_iff (f : Factory) (socket : Option Nat) :
    Consistent (f.make socket) ↔ (f.Opens → socket.isSome) := by
  cases f with
  | createUdp address => exact ⟨fun h _ => h rfl, fun h _ => h trivial⟩
  | createUdpSocket => exact ⟨fun h _ => h rfl, fun h _ => h trivial⟩
  | _ => exact ⟨fun _ h => h.elim, fun _ h => nomatch h⟩

end EitherClass

/-! ## Runs of operations -/

section Runs

variable {w : Sockets}

/-- A socket that is put in the place of another one. -/
theorem good_put (h : Good w) (i : Nat) {p : SocketPtr} (hp : Consistent p) : Good (w.put i p) where
  valid q hq := by
    rcases List.mem_or_eq_of_mem_set hq with hmem | rfl
    · exact h.valid q hmem
    · exact hp
  refused _ _ hrefused := nomatch hrefused

/-- After a `connect` all is good exactly if it keeps the flag right. -/
theorem good_putConnect_iff (h : Good w) {i : Nat} (hi : i < w.all.length) {r : Bool × SocketPtr}
    (hr : Consistent r.2) :
    Good (w.putConnect i r) ↔ (r.1 = false → r.2.base.isConnected = false) := by
  constructor
  · intro hgood hfalse
    refine hgood.refused i r.2 ?_ (List.getElem?_set_self hi)
    rw [putConnect, hfalse]
    rfl
  · intro hflag
    refine ⟨fun q hq => ?_, fun j q hj hq => ?_⟩
    · rcases List.mem_or_eq_of_mem_set hq with hmem | rfl
      · exact h.valid q hmem
      · exact hr
    · cases hresult : r.1 with
      | true => simp [putConnect, hresult] at hj
      | false =>
          have hij : i = j := by simpa [putConnect, hresult] using hj
          subst hij
          have hq' : q = r.2 := by simpa [putConnect, hi] using hq.symm
          rw [hq']
          exact hflag hresult

/-- New sockets. -/
theorem good_append_iff (h : Good w) (ps : List SocketPtr) :
    Good ⟨w.all ++ ps, none⟩ ↔ ∀ p ∈ ps, Consistent p := by
  constructor
  · exact fun hgood p hp => hgood.valid p (List.mem_append_right _ hp)
  · intro hps
    refine ⟨fun p hp => ?_, fun i p hi => nomatch hi⟩
    rcases List.mem_append.mp hp with hp | hp
    · exact h.valid p hp
    · exact hps p hp

/-- An operation keeps the flags right exactly under its condition. -/
theorem keep_iff (h : Good w) (op : SocketOp) : Good (w.perform op) ↔ Sound w op := by
  cases op with
  | create f socket =>
      rw [perform, good_append_iff h, List.forall_mem_singleton, make_consistent_iff]
      rfl
  | bind i addr calls =>
      refine ⟨fun _ => trivial, fun _ => ?_⟩
      rw [perform]
      cases hp : w.all[i]? with
      | none => exact h
      | some p => exact good_put h i (bind_consistent (h.valid p (List.mem_of_getElem? hp)) addr calls)
  | connect i addr calls handshake =>
      rw [perform, Sound]
      cases hp : w.all[i]? with
      | none => exact ⟨fun _ p hp => (nomatch hp), fun _ => h⟩
      | some p =>
          have hcons := h.valid p (List.mem_of_getElem? hp)
          obtain ⟨hi, -⟩ := List.getElem?_eq_some_iff.mp hp
          have hiff := good_putConnect_iff h hi (connect_consistent hcons addr calls handshake)
          rw [connect_keeps_iff hcons] at hiff
          refine hiff.trans ⟨?_, fun hall => hall p rfl⟩
          rintro hkeeps _ ⟨rfl⟩
          exact hkeeps
  | reconnect i calls handshake =>
      rw [perform, Sound]
      cases hp : w.all[i]? with
      | none => exact ⟨fun _ p addr hp => (nomatch hp), fun _ => h⟩
      | some p =>
          rw [Option.elim_some]
          cases hremote : p.base.remoteAddress with
          | none =>
              refine ⟨fun _ q addr hq haddr => ?_, fun _ => ⟨h.valid, fun j q hj => nomatch hj⟩⟩
              rw [← Option.some.inj hq, hremote] at haddr
              exact nomatch haddr
          | some addr =>
              have hcons := resetLocal_consistent (h.valid p (List.mem_of_getElem? hp))
              obtain ⟨hi, -⟩ := List.getElem?_eq_some_iff.mp hp
              have hiff := good_putConnect_iff h hi (connect_consistent hcons addr calls handshake)
              rw [connect_keeps_iff hcons, keeps_resetLocal] at hiff
              rw [if_pos Option.isSome_some, reconnect_eq hremote]
              refine hiff.trans ⟨?_, fun hall => hall p addr rfl hremote⟩
              rintro hkeeps _ _ ⟨rfl⟩ haddr
              rw [← Option.some.inj (hremote.symm.trans haddr)]
              exact hkeeps
  | accept i calls handshake =>
      refine ⟨fun _ => trivial, fun _ => ?_⟩
      rw [perform]
      cases hp : w.all[i]? with
      | none => exact h
      | some p =>
          refine (good_append_iff h _).mpr fun q hq => ?_
          exact accept_consistent (Option.mem_toList.mp hq)
  | close i =>
      refine ⟨fun _ => trivial, fun _ => ?_⟩
      rw [perform]
      cases hp : w.all[i]? with
      | none => exact h
      | some p => exact good_put h i (close_consistent p)

end Runs

/-- **Flags over runs.**  In every state of a run what is connected is valid, and a `connect`
that has returned false has left no connected socket, exactly if every operation is sound. -/
theorem connected_valid (ops : List SocketOp) :
    system.Along Good ⟨[], none⟩ ops ↔ system.StepsMeet Sound ⟨[], none⟩ ops := by
  refine System.along_iff_stepsMeet (fun _ h => h) ?_ ?_ ?_ (System.exec_isSome (fun _ _ => rfl) ops)
  · intro w op w' h hsound hstep
    obtain rfl := Option.some.inj hstep
    exact (keep_iff h op).mpr hsound
  · intro w op w' h hsound hstep
    obtain rfl := Option.some.inj hstep
    exact fun hgood => hsound ((keep_iff h op).mp hgood)
  · exact ⟨fun p hp => (nomatch hp), fun i p hi => nomatch hi⟩

/-- There is no descriptor for a UDP socket, and it is connected. -/
theorem connected_valid_fails :
    system.exec ⟨[], none⟩ [.create .createUdpSocket none] =
        some ⟨[.socket (Socket.createUdpSocket none)], none⟩ ∧
      ¬ system.Along Good ⟨[], none⟩ [.create .createUdpSocket none] := by
  have hexec : system.exec ⟨[], none⟩ [.create .createUdpSocket none] =
      some ⟨[.socket (Socket.createUdpSocket none)], none⟩ := rfl
  refine ⟨hexec, fun h => ?_⟩
  exact nomatch (h.of_exec hexec).valid _ List.mem_cons_self rfl

/-- A handshake that fails, on a connection that stays. -/
example :
    let addr : SocketAddress := ⟨Socket.ipv4, false, []⟩
    let r := (SSLSocket.createTcp addr).connect addr ⟨some 3, true, none, none⟩ false
    r.1 = false ∧ r.2.isConnected = true := by
  decide

end Sockets
end Network
end Hpgs
