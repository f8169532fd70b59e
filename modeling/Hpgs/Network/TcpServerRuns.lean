import Hpgs.Network.TcpServer
import Mathlib.Data.List.Perm.Basic

/-!
# Runs of a `TcpServer`

`start` schedules one `startAccept` for each socket, `stop` schedules a task that closes the
sockets and forgets them, and every client that is accepted is handed to the I/O worker.
The flag `m_isStop` is all that the tasks have in common with the calls: an accept loop looks
at it between two clients, and ends when it sees it set.  Calls and tasks come in any order.

Sockets are pointers to the sockets of `TcpServer`.  A loop reads the number of its
descriptor when it calls `::accept`, and keeps asking for a client of this number, whatever has
become of the socket since; it gets one when the number is that of a listening descriptor.
The task of `stop` has no place where it yields, and is one step.

**Results.**
* `server_bind`: `bind` on pointers is `bind` on sockets.
* `serving_iff`: a server that runs has one accept loop on each of its open sockets, exactly
  if it is started again only after all loops have ended, and its sockets are changed and
  closed only while it is stopped.
* `stop_accepts`: what is accepted after `stop`.
* `clients_once`: no client is lost, and none is handled twice.
-/

namespace Hpgs
namespace Network

open Transition

/-! ## Definitions -/

/-- A client, by the number of its acceptance. -/
structure Client where
  number : Nat
  sock : SocketPtr
deriving DecidableEq

/-- Where a call of `startAccept` is. -/
inductive Accepting
  | test
  /-- Behind the test, and before `m_sock` is read. -/
  | call
  /-- In `::accept`, with the descriptor that it was called with. -/
  | accept (sock : Option Nat)
  /-- Between `accept` and the next test. -/
  | serve (client : Client)
deriving DecidableEq

/-- It goes on to accept a client without another test. -/
def Accepting.isWaiting : Accepting → Bool
  | .call | .accept _ => true
  | _ => false

/-- A call of `startAccept`. -/
structure AcceptLoop where
  sock : Nat
  pc : Accepting
deriving DecidableEq

/-- The descriptor that a loop asks for a client. -/
def AcceptLoop.asked (loop : AcceptLoop) : Option Nat :=
  match loop.pc with
  | .accept sock => sock
  | _ => none

/-- The client that a loop has in hand. -/
def AcceptLoop.clients (loop : AcceptLoop) : List Client :=
  match loop.pc with
  | .serve client => [client]
  | _ => []

/-- A client with its receive timeout, and `handleClient` bound to it. -/
structure ClientTask where
  client : Client
  recvTimeout : UInt64
deriving DecidableEq

/-- A `TcpServer` with its sockets and its tasks. -/
structure ServerState where
  isStop : Bool
  ssl : Bool
  recvTimeout : UInt64
  socks : List Nat
  sockets : Nat → SocketPtr
  made : Nat
  /-- The numbers of the listening descriptors of the process. -/
  listening : Nat → Bool
  loops : List AcceptLoop
  /-- The tasks of `stop` that have not run. -/
  closers : Nat
  accepted : Nat
  queued : List ClientTask
  handled : List ClientTask

/-- The calls, the steps of the tasks, where `i` is the number of a task in its list, and what
other code does. -/
inductive ServerStep
  | bind (addrs : List Attempt) (fails : List SocketAddress) (ssl : Bool)
  | setRecvTimeout (v : UInt64)
  | start
  | stop
  /-- The test of `m_isStop`. -/
  | test (i : Nat)
  /-- `m_sock` is read. -/
  | call (i : Nat)
  | accept (i : Nat) (calls : AcceptCalls) (handshake : Bool)
  | serve (i : Nat)
  | close
  | handleClient (i : Nat)
  /-- Other code, a destructor of a socket among it, opens or closes a listening descriptor. -/
  | listen (fd : Nat) (opened : Bool)

namespace ServerState

/-- The members that `TcpServer.bind` works on. -/
def server (s : ServerState) : TcpServer where
  socks := s.socks.map s.sockets
  ssl := s.ssl

/-- `bind`: the sockets of this call get the next pointers. -/
def bind (s : ServerState) (addrs : List Attempt) (fails : List SocketAddress) (ssl : Bool) :
    ServerState :=
  let new := addrs.filterMap (TcpServer.bindOne ssl)
  { s with
    ssl := ssl
    socks := if (s.server.bind addrs fails ssl).1
      then s.socks ++ List.range' s.made new.length else []
    sockets := fun p => if p < s.made then s.sockets p else (new[p - s.made]?).getD (s.sockets p)
    made := s.made + new.length
    listening := fun fd => s.listening fd || new.any fun sock => sock.base.sock = some fd }

/-- `start`. -/
def start (s : ServerState) : ServerState :=
  if s.isStop then
    { s with
      isStop := false
      loops := s.loops ++ s.socks.map fun p => ⟨p, .test⟩ }
  else s

/-- `stop`. -/
def stop (s : ServerState) : ServerState :=
  { s with
    isStop := true
    closers := s.closers + 1 }

/-- The test of a loop. -/
def test (s : ServerState) (i : Nat) (loop : AcceptLoop) : ServerState :=
  if s.isStop then { s with loops := s.loops.eraseIdx i }
  else { s with loops := s.loops.set i { loop with pc := .call } }

/-- The call of `::accept` in `Socket::accept`. -/
def call (s : ServerState) (i : Nat) (loop : AcceptLoop) : ServerState :=
  { s with loops := s.loops.set i { loop with pc := .accept (s.sockets loop.sock).base.sock } }

/-- The number is that of a listening descriptor. -/
def hears (s : ServerState) (sock : Option Nat) : Bool :=
  sock.any s.listening

/-- `accept` of a loop. -/
def accept (s : ServerState) (i : Nat) (loop : AcceptLoop) (client : Option SocketPtr) :
    ServerState :=
  match client with
  | some sock =>
      { s with
        loops := s.loops.set i { loop with pc := .serve ⟨s.accepted, sock⟩ }
        accepted := s.accepted + 1 }
  | none => { s with loops := s.loops.set i { loop with pc := .test } }

/-- `setRecvTimeout` and `schedule` of a loop. -/
def serve (s : ServerState) (i : Nat) (loop : AcceptLoop) (client : Client) : ServerState :=
  { s with
    loops := s.loops.set i { loop with pc := .test }
    queued := s.queued ++ [⟨client, s.recvTimeout⟩] }

/-- The task of `stop`. -/
def close (s : ServerState) : ServerState :=
  { s with
    sockets := fun p => if p ∈ s.socks then (s.sockets p).close.2 else s.sockets p
    listening := fun fd =>
      s.listening fd && !(s.socks.any fun p => (s.sockets p).base.sock = some fd)
    socks := []
    closers := s.closers - 1 }

/-- One step; `none` where there is no such task. -/
def step (s : ServerState) : ServerStep → Option ServerState
  | .bind addrs fails ssl => some (s.bind addrs fails ssl)
  | .setRecvTimeout v => some { s with recvTimeout := v }
  | .start => some s.start
  | .stop => some s.stop
  | .test i =>
      match s.loops[i]? with
      | some ⟨p, .test⟩ => some (s.test i ⟨p, .test⟩)
      | _ => none
  | .call i =>
      match s.loops[i]? with
      | some ⟨p, .call⟩ => some (s.call i ⟨p, .call⟩)
      | _ => none
  | .accept i calls handshake =>
      match s.loops[i]? with
      | some ⟨p, .accept sock⟩ =>
          if calls.accept.isSome && !s.hears sock then none
          else some (s.accept i ⟨p, .accept sock⟩ ((s.sockets p).accept calls handshake))
      | _ => none
  | .serve i =>
      match s.loops[i]? with
      | some ⟨p, .serve client⟩ => some (s.serve i ⟨p, .serve client⟩ client)
      | _ => none
  | .close => if s.closers = 0 then none else some s.close
  | .handleClient i =>
      (s.queued[i]?).map fun task =>
        { s with
          queued := s.queued.eraseIdx i
          handled := s.handled ++ [task] }
  | .listen fd opened =>
      some { s with listening := fun q => if q = fd then opened else s.listening q }

/-- The constructor, with the numbers that other code listens on.  The pointers that there are
not point anywhere. -/
def new (recvTimeout : UInt64) (sockets : Nat → SocketPtr) (listening : Nat → Bool) :
    ServerState where
  isStop := true
  ssl := false
  recvTimeout := recvTimeout
  socks := []
  sockets := sockets
  made := 0
  listening := listening
  loops := []
  closers := 0
  accepted := 0
  queued := []
  handled := []

end ServerState

/-- The runs of one server. -/
def serverRuns : System ServerState ServerStep where
  init s := ∃ recvTimeout sockets listening,
    s = ServerState.new recvTimeout sockets listening
  step := ServerState.step

namespace ServerState

variable {s t : ServerState}

/-- A server that runs has one accept loop on each of its sockets, which are open. -/
def Serving (s : ServerState) : Prop :=
  s.isStop = false →
    s.socks.Nodup ∧ (s.loops.map AcceptLoop.sock).Perm s.socks ∧
      ∀ p ∈ s.socks, (s.sockets p).base.isValid = true

/-- The steps that keep it so. -/
def KeepsServing (s : ServerState) : ServerStep → Prop
  | .bind addrs fails ssl => s.isStop = true ∨ (s.bind addrs fails ssl).socks = s.socks
  | .start => s.isStop = true → s.loops = []
  | .close => s.isStop = true ∨ s.socks = []
  | _ => True

instance (s : ServerState) : (c : ServerStep) → Decidable (KeepsServing s c)
  | .bind addrs fails ssl =>
      inferInstanceAs (Decidable (s.isStop = true ∨ (s.bind addrs fails ssl).socks = s.socks))
  | .start => inferInstanceAs (Decidable (s.isStop = true → s.loops = []))
  | .close => inferInstanceAs (Decidable (s.isStop = true ∨ s.socks = []))
  | .setRecvTimeout _ => .isTrue trivial
  | .stop => .isTrue trivial
  | .test _ => .isTrue trivial
  | .call _ => .isTrue trivial
  | .accept _ _ _ => .isTrue trivial
  | .serve _ => .isTrue trivial
  | .handleClient _ => .isTrue trivial
  | .listen _ _ => .isTrue trivial

/-- The loops that wait for a client or are about to. -/
def waiting (s : ServerState) : Nat :=
  s.loops.countP fun loop => loop.pc.isWaiting

/-- A loop asks this number for a client. -/
def Asked (s : ServerState) (fd : Nat) : Prop :=
  ∃ loop ∈ s.loops, loop.asked = some fd

/-- The clients of the server: in the hands of a loop, scheduled, and handled. -/
def clients (s : ServerState) : List Client :=
  s.loops.flatMap AcceptLoop.clients ++
    (s.queued.map ClientTask.client ++ s.handled.map ClientTask.client)

/-! ## What one step does -/

theorem test_eq_some {i : Nat} (h : s.step (.test i) = some t) :
    ∃ p, s.loops[i]? = some ⟨p, .test⟩ ∧ t = s.test i ⟨p, .test⟩ := by
  simp only [step] at h
  split at h
  · next p hp => exact ⟨p, hp, (Option.some.inj h).symm⟩
  · cases h

theorem call_eq_some {i : Nat} (h : s.step (.call i) = some t) :
    ∃ p, s.loops[i]? = some ⟨p, .call⟩ ∧ t = s.call i ⟨p, .call⟩ := by
  simp only [step] at h
  split at h
  · next p hp => exact ⟨p, hp, (Option.some.inj h).symm⟩
  · cases h

theorem accept_eq_some {i : Nat} {calls : AcceptCalls} {handshake : Bool}
    (h : s.step (.accept i calls handshake) = some t) :
    ∃ p sock, s.loops[i]? = some ⟨p, .accept sock⟩ ∧
      (s.hears sock = false → calls.accept = none) ∧
      t = s.accept i ⟨p, .accept sock⟩ ((s.sockets p).accept calls handshake) := by
  simp only [step] at h
  split at h
  · next p sock hp =>
      split_ifs at h with hvalid
      refine ⟨p, sock, hp, fun hdeaf => ?_, (Option.some.inj h).symm⟩
      simpa [hdeaf] using hvalid
  · cases h

theorem serve_eq_some {i : Nat} (h : s.step (.serve i) = some t) :
    ∃ p client, s.loops[i]? = some ⟨p, .serve client⟩ ∧
      t = s.serve i ⟨p, .serve client⟩ client := by
  simp only [step] at h
  split at h
  · next p client hp => exact ⟨p, client, hp, (Option.some.inj h).symm⟩
  · cases h

theorem close_eq_some (h : s.step .close = some t) : s.closers ≠ 0 ∧ t = s.close := by
  simp only [step] at h
  split_ifs at h with hzero
  exact ⟨hzero, (Option.some.inj h).symm⟩

theorem handleClient_eq_some {i : Nat} (h : s.step (.handleClient i) = some t) :
    ∃ task, s.queued[i]? = some task ∧
      t = { s with
        queued := s.queued.eraseIdx i
        handled := s.handled ++ [task] } := by
  simp only [step, Option.map_eq_some_iff] at h
  obtain ⟨task, htask, rfl⟩ := h
  exact ⟨task, htask, rfl⟩

/-- A step that has to do with loops and clients only. -/
structure SameSockets (s t : ServerState) : Prop where
  socks : t.socks = s.socks
  sockets : t.sockets = s.sockets
  made : t.made = s.made
  listening : t.listening = s.listening

theorem SameSockets.refl (s : ServerState) : SameSockets s s := ⟨rfl, rfl, rfl, rfl⟩

/-- Only `bind`, the task of `stop` and other code have to do with descriptors. -/
theorem sockets_step {c : ServerStep} (hstep : s.step c = some t) :
    (∃ addrs fails ssl, c = .bind addrs fails ssl ∧ t = s.bind addrs fails ssl) ∨
      (c = .close ∧ t = s.close) ∨
      (∃ fd opened, c = .listen fd opened ∧
        t = { s with listening := fun q => if q = fd then opened else s.listening q }) ∨
      SameSockets s t := by
  cases c with
  | bind addrs fails ssl => exact .inl ⟨addrs, fails, ssl, rfl, (Option.some.inj hstep).symm⟩
  | close => exact .inr (.inl ⟨rfl, (close_eq_some hstep).2⟩)
  | listen fd opened =>
      exact .inr (.inr (.inl ⟨fd, opened, rfl, (Option.some.inj hstep).symm⟩))
  | setRecvTimeout v =>
      obtain rfl := Option.some.inj hstep
      exact .inr (.inr (.inr ⟨rfl, rfl, rfl, rfl⟩))
  | start =>
      obtain rfl := Option.some.inj hstep
      refine .inr (.inr (.inr ?_))
      rw [start]
      split_ifs
      · exact ⟨rfl, rfl, rfl, rfl⟩
      · exact .refl s
  | stop =>
      obtain rfl := Option.some.inj hstep
      exact .inr (.inr (.inr ⟨rfl, rfl, rfl, rfl⟩))
  | test i =>
      obtain ⟨p, _, rfl⟩ := test_eq_some hstep
      refine .inr (.inr (.inr ?_))
      rw [test]
      split_ifs
      · exact ⟨rfl, rfl, rfl, rfl⟩
      · exact ⟨rfl, rfl, rfl, rfl⟩
  | call i =>
      obtain ⟨p, _, rfl⟩ := call_eq_some hstep
      exact .inr (.inr (.inr ⟨rfl, rfl, rfl, rfl⟩))
  | accept i calls handshake =>
      obtain ⟨p, _, _, _, rfl⟩ := accept_eq_some hstep
      refine .inr (.inr (.inr ?_))
      cases (s.sockets p).accept calls handshake with
      | none => exact ⟨rfl, rfl, rfl, rfl⟩
      | some client => exact ⟨rfl, rfl, rfl, rfl⟩
  | serve i =>
      obtain ⟨p, client, _, rfl⟩ := serve_eq_some hstep
      exact .inr (.inr (.inr ⟨rfl, rfl, rfl, rfl⟩))
  | handleClient i =>
      obtain ⟨task, _, rfl⟩ := handleClient_eq_some hstep
      exact .inr (.inr (.inr ⟨rfl, rfl, rfl, rfl⟩))

/-! ## The sockets -/

/-- The sockets of the server are different, and open. -/
structure Formed (s : ServerState) : Prop where
  nodup : s.socks.Nodup
  known : ∀ p ∈ s.socks, p < s.made
  valid : ∀ p ∈ s.socks, (s.sockets p).base.isValid = true

/-- The loops run on sockets that were made. -/
def LoopsKnown (s : ServerState) : Prop :=
  ∀ loop ∈ s.loops, loop.sock < s.made

theorem bindOne_isValid {ssl : Bool} {a : Attempt} {sock : SocketPtr}
    (h : TcpServer.bindOne ssl a = some sock) : sock.base.isValid = true := by
  simp only [TcpServer.bindOne] at h
  split at h
  · cases h
  · next p hp =>
      split_ifs at h with hlisten
      obtain rfl := Option.some.inj h
      cases p with
      | socket s =>
          simp only [SocketPtr.listen, Socket.listen, Bool.and_eq_true] at hlisten
          exact hlisten.1
      | sslSocket s =>
          simp only [SocketPtr.listen, SSLSocket.listen, Socket.listen,
            Bool.and_eq_true] at hlisten
          exact hlisten.1

/-- The new pointers point to the new sockets. -/
theorem map_range'_sockets (s : ServerState) (addrs : List Attempt)
    (fails : List SocketAddress) (ssl : Bool) :
    (List.range' s.made (addrs.filterMap (TcpServer.bindOne ssl)).length).map
        (s.bind addrs fails ssl).sockets =
      addrs.filterMap (TcpServer.bindOne ssl) := by
  refine List.ext_getElem (by simp) fun j _ hj => ?_
  have hnew : ¬ s.made + j < s.made := by omega
  simp [bind, hnew, List.getElem?_eq_getElem hj]

theorem socks_bind (s : ServerState) (addrs : List Attempt) (fails : List SocketAddress)
    (ssl : Bool) :
    (s.bind addrs fails ssl).socks =
      if fails = [] ∧ ∀ a ∈ addrs, (TcpServer.bindOne ssl a).isSome then
        s.socks ++ List.range' s.made (addrs.filterMap (TcpServer.bindOne ssl)).length
      else [] := by
  simp only [bind, TcpServer.bind_eq]
  by_cases hall : fails = [] ∧ ∀ a ∈ addrs, (TcpServer.bindOne ssl a).isSome
  · rw [if_pos hall, if_pos hall, if_pos rfl]
  · rw [if_neg hall, if_neg hall, if_neg Bool.false_ne_true]

/-- `bind` on pointers is `bind` on the sockets behind them. -/
theorem server_bind (h : Formed s) (addrs : List Attempt) (fails : List SocketAddress)
    (ssl : Bool) :
    (s.bind addrs fails ssl).server = (s.server.bind addrs fails ssl).2.1 := by
  have hold : s.socks.map (s.bind addrs fails ssl).sockets = s.socks.map s.sockets := by
    refine List.map_congr_left fun p hp => ?_
    simp [bind, h.known p hp]
  rw [server, socks_bind, TcpServer.bind_eq]
  by_cases hall : fails = [] ∧ ∀ a ∈ addrs, (TcpServer.bindOne ssl a).isSome
  · rw [if_pos hall, if_pos hall, List.map_append, hold, map_range'_sockets]
    rfl
  · rw [if_neg hall, if_neg hall]
    rfl

theorem Formed.bind (h : Formed s) (addrs : List Attempt) (fails : List SocketAddress)
    (ssl : Bool) : Formed (s.bind addrs fails ssl) := by
  have hmem : ∀ p ∈ (s.bind addrs fails ssl).socks, p ∈ s.socks ∨
      p ∈ List.range' s.made (addrs.filterMap (TcpServer.bindOne ssl)).length := by
    intro p hp
    rw [socks_bind] at hp
    split_ifs at hp
    · exact List.mem_append.mp hp
    · exact absurd hp List.not_mem_nil
  refine ⟨?_, fun p hp => ?_, fun p hp => ?_⟩
  · rw [socks_bind]
    split_ifs
    · refine List.nodup_append.mpr ⟨h.nodup, List.nodup_range', fun p hp q hq heq => ?_⟩
      have hlt := h.known p hp
      have hge := (List.mem_range'_1.mp hq).1
      omega
    · exact List.nodup_nil
  · rcases hmem p hp with hold | hnew
    · exact Nat.lt_of_lt_of_le (h.known p hold) (Nat.le_add_right _ _)
    · exact (List.mem_range'_1.mp hnew).2
  · rcases hmem p hp with hold | hnew
    · have hsame : (s.bind addrs fails ssl).sockets p = s.sockets p := by
        simp [ServerState.bind, h.known p hold]
      rw [hsame]
      exact h.valid p hold
    · have hin : (s.bind addrs fails ssl).sockets p ∈
          addrs.filterMap (TcpServer.bindOne ssl) := by
        rw [← map_range'_sockets s addrs fails ssl]
        exact List.mem_map_of_mem hnew
      obtain ⟨a, _, ha⟩ := List.mem_filterMap.mp hin
      exact bindOne_isValid ha

theorem new_formed (recvTimeout : UInt64) (sockets : Nat → SocketPtr)
    (listening : Nat → Bool) : Formed (new recvTimeout sockets listening) where
  nodup := List.nodup_nil
  known := by
    intro p hp
    cases hp
  valid := by
    intro p hp
    cases hp

theorem Formed.step (h : Formed s) {c : ServerStep} (hstep : s.step c = some t) :
    Formed t := by
  rcases sockets_step hstep with
    ⟨addrs, fails, ssl, -, rfl⟩ | ⟨-, rfl⟩ | ⟨fd, opened, -, rfl⟩ | hsame
  · exact h.bind addrs fails ssl
  · refine ⟨List.nodup_nil, ?_, ?_⟩
    · intro p hp
      cases hp
    · intro p hp
      cases hp
  · exact ⟨h.nodup, h.known, h.valid⟩
  · refine ⟨hsame.socks ▸ h.nodup, ?_, ?_⟩
    · rw [hsame.socks, hsame.made]
      exact h.known
    · rw [hsame.socks, hsame.sockets]
      exact h.valid

/-! ## One loop on each socket -/

/-- The loops are those of the sockets, while the server runs. -/
def Covered (s : ServerState) : Prop :=
  s.isStop = false → (s.loops.map AcceptLoop.sock).Perm s.socks

theorem serving_iff_covered (h : Formed s) : Serving s ↔ Covered s :=
  ⟨fun hs hrun => (hs hrun).2.1, fun hs hrun => ⟨h.nodup, hs hrun, h.valid⟩⟩

/-- A step of a loop that goes on. -/
theorem covered_set {i : Nat} {loop : AcceptLoop} (hs : Covered s)
    (hloop : s.loops[i]? = some loop) (pc : Accepting)
    (hloops : t.loops = s.loops.set i ⟨loop.sock, pc⟩) (hstop : t.isStop = s.isStop)
    (hsocks : t.socks = s.socks) : Covered t := by
  intro hrun
  obtain ⟨hi, rfl⟩ := List.getElem?_eq_some_iff.mp hloop
  have hbefore := (List.getElem_cons_eraseIdx_perm hi).map AcceptLoop.sock
  have hafter := (List.set_perm_cons_eraseIdx hi ⟨s.loops[i].sock, pc⟩).map AcceptLoop.sock
  rw [hloops, hsocks]
  exact (hafter.trans hbefore).trans (hs (hstop ▸ hrun))

theorem covered_of_stop (h : t.isStop = true) : Covered t := by
  intro hrun
  rw [h] at hrun
  cases hrun

theorem covered_step {c : ServerStep} (hs : Covered s) (hc : KeepsServing s c)
    (hstep : s.step c = some t) : Covered t := by
  cases c with
  | bind addrs fails ssl =>
      obtain rfl := Option.some.inj hstep
      rcases hc with hstop | hsame
      · exact covered_of_stop hstop
      · intro hrun
        rw [hsame]
        exact hs hrun
  | setRecvTimeout v =>
      obtain rfl := Option.some.inj hstep
      exact hs
  | start =>
      obtain rfl := Option.some.inj hstep
      rw [start]
      split_ifs with hstop
      · intro _
        simp [hc hstop, Function.comp_def]
      · exact hs
  | stop =>
      obtain rfl := Option.some.inj hstep
      exact covered_of_stop rfl
  | test i =>
      obtain ⟨p, hp, rfl⟩ := test_eq_some hstep
      rw [test]
      split_ifs with hstop
      · exact covered_of_stop hstop
      · exact covered_set hs hp .call rfl rfl rfl
  | call i =>
      obtain ⟨p, hp, rfl⟩ := call_eq_some hstep
      exact covered_set hs hp (.accept (s.sockets p).base.sock) rfl rfl rfl
  | accept i calls handshake =>
      obtain ⟨p, sock, hp, _, rfl⟩ := accept_eq_some hstep
      cases (s.sockets p).accept calls handshake with
      | none => exact covered_set hs hp .test rfl rfl rfl
      | some client => exact covered_set hs hp (.serve ⟨s.accepted, client⟩) rfl rfl rfl
  | serve i =>
      obtain ⟨p, client, hp, rfl⟩ := serve_eq_some hstep
      exact covered_set hs hp .test rfl rfl rfl
  | close =>
      obtain ⟨_, rfl⟩ := close_eq_some hstep
      rcases hc with hstop | hnil
      · exact covered_of_stop hstop
      · intro hrun
        rw [close, ← hnil]
        exact hs hrun
  | handleClient i =>
      obtain ⟨task, _, rfl⟩ := handleClient_eq_some hstep
      exact hs
  | listen fd opened =>
      obtain rfl := Option.some.inj hstep
      exact hs

/-- A step that does not meet the condition leaves a socket without its loop, or with two. -/
theorem keepsServing_of_covered {c : ServerStep} (hs : Covered s)
    (hstep : s.step c = some t) (ht : Covered t) : KeepsServing s c := by
  cases c with
  | bind addrs fails ssl =>
      obtain rfl := Option.some.inj hstep
      cases hrun : s.isStop with
      | true => exact .inl hrun
      | false =>
          have hlen : (s.bind addrs fails ssl).socks.length = s.socks.length :=
            (ht hrun).length_eq.symm.trans (hs hrun).length_eq
          refine .inr ?_
          rw [socks_bind] at hlen ⊢
          split_ifs at hlen ⊢
          · rw [List.length_append, Nat.add_eq_left, List.length_eq_zero_iff] at hlen
            rw [hlen, List.append_nil]
          · exact (List.length_eq_zero_iff.mp hlen.symm).symm
  | start =>
      obtain rfl := Option.some.inj hstep
      intro hstop
      rw [start, if_pos hstop] at ht
      have hlen := (ht rfl).length_eq
      simp only [List.map_append, List.length_append, List.length_map,
        Nat.add_eq_right, List.length_eq_zero_iff] at hlen
      exact hlen
  | close =>
      obtain ⟨_, rfl⟩ := close_eq_some hstep
      cases hrun : s.isStop with
      | true => exact .inl hrun
      | false =>
          have hnil := (hs hrun).symm.trans (ht hrun)
          exact .inr (List.perm_nil.mp hnil)
  | setRecvTimeout v => trivial
  | stop => trivial
  | test i => trivial
  | call i => trivial
  | accept i calls handshake => trivial
  | serve i => trivial
  | handleClient i => trivial
  | listen fd opened => trivial

/-! ## After `stop` -/

/-- The socket of a loop is closed, and the number that it asks for a client is not that of a
listening descriptor. -/
structure Deaf (s : ServerState) (loop : AcceptLoop) : Prop where
  closed : (s.sockets loop.sock).base.isValid = false
  asked : ∀ fd, loop.asked = some fd → s.listening fd = false

/-- Every loop is deaf, or is on a socket that the next task of `stop` closes. -/
def Closing (s : ServerState) : Prop :=
  ∀ loop ∈ s.loops, loop.sock ∈ s.socks ∨ Deaf s loop

/-- What a loop asks for a client is its socket, as long as that is open. -/
def Captured (s : ServerState) : Prop :=
  ∀ loop ∈ s.loops, ∀ fd, loop.asked = some fd →
    (s.sockets loop.sock).base.isValid = true → (s.sockets loop.sock).base.sock = some fd

/-- All steps but `start`, if no number that a loop asks for a client comes to be that of a new
listening descriptor. -/
def StaysStopped (s : ServerState) : ServerStep → Prop
  | .start => False
  | .bind addrs _ ssl => ∀ sock ∈ addrs.filterMap (TcpServer.bindOne ssl), ∀ fd,
      sock.base.sock = some fd → ¬ s.Asked fd
  | .listen fd opened => opened = true → ¬ s.Asked fd
  | _ => True

/-- These, but for `bind`. -/
def LeavesSockets (s : ServerState) : ServerStep → Prop
  | .bind _ _ _ => False
  | c => StaysStopped s c

theorem LeavesSockets.staysStopped {c : ServerStep} (h : LeavesSockets s c) :
    StaysStopped s c := by
  cases c with
  | bind addrs fails ssl => exact h.elim
  | _ => exact h

theorem close_isValid (p : SocketPtr) : p.close.2.base.isValid = false := by
  cases p with
  | socket s => simp [SocketPtr.close, SocketPtr.base, Socket.close_eq, Socket.isValid]
  | sslSocket s =>
      simp [SocketPtr.close, SocketPtr.base, SSLSocket.close, Socket.close_eq, Socket.isValid]

theorem accept_none {p : SocketPtr} {calls : AcceptCalls} {handshake : Bool}
    (h : calls.accept = none) : p.accept calls handshake = none := by
  cases p with
  | socket s => simp [SocketPtr.accept, Socket.accept, h]
  | sslSocket s => simp [SocketPtr.accept, SSLSocket.accept, h]

theorem accept_isValid {p sock : SocketPtr} {calls : AcceptCalls} {handshake : Bool}
    (h : p.accept calls handshake = some sock) : sock.base.isValid = true := by
  cases p with
  | socket s =>
      simp only [SocketPtr.accept, Option.map_eq_some_iff] at h
      obtain ⟨t, ht, rfl⟩ := h
      exact Socket.accept_isValid ht
  | sslSocket s =>
      simp only [SocketPtr.accept, Option.map_eq_some_iff] at h
      obtain ⟨t, ht, rfl⟩ := h
      exact SSLSocket.accept_isValid ht

/-- The number of waiting loops after one loop has moved. -/
theorem waiting_set {i : Nat} {loop : AcceptLoop} (h : s.loops[i]? = some loop)
    (loop' : AcceptLoop) (hloops : t.loops = s.loops.set i loop') :
    t.waiting + (if loop.pc.isWaiting then 1 else 0) =
      s.waiting + (if loop'.pc.isWaiting then 1 else 0) := by
  obtain ⟨hi, rfl⟩ := List.getElem?_eq_some_iff.mp h
  rw [waiting, waiting, hloops, (List.set_perm_cons_eraseIdx hi loop').countP_eq,
    ← (List.getElem_cons_eraseIdx_perm hi).countP_eq, List.countP_cons, List.countP_cons]
  omega

/-- A loop that sees the flag does not accept again. -/
theorem stopped_step {c : ServerStep} (hs : s.isStop = true) (hc : StaysStopped s c)
    (hstep : s.step c = some t) :
    t.isStop = true ∧ t.accepted + t.waiting ≤ s.accepted + s.waiting := by
  cases c with
  | bind addrs fails ssl =>
      obtain rfl := Option.some.inj hstep
      exact ⟨hs, Nat.le_refl _⟩
  | setRecvTimeout v =>
      obtain rfl := Option.some.inj hstep
      exact ⟨hs, Nat.le_refl _⟩
  | start => exact hc.elim
  | stop =>
      obtain rfl := Option.some.inj hstep
      exact ⟨rfl, Nat.le_refl _⟩
  | test i =>
      obtain ⟨p, hp, rfl⟩ := test_eq_some hstep
      rw [test, if_pos hs]
      refine ⟨hs, Nat.add_le_add_left ?_ _⟩
      exact (List.eraseIdx_sublist s.loops i).countP_le
  | call i =>
      obtain ⟨p, hp, rfl⟩ := call_eq_some hstep
      have hwait : (s.call i ⟨p, .call⟩).waiting + 1 = s.waiting + 1 :=
        waiting_set hp ⟨p, .accept (s.sockets p).base.sock⟩ rfl
      exact ⟨hs, Nat.add_le_add_left (by omega) _⟩
  | accept i calls handshake =>
      obtain ⟨p, sock, hp, _, rfl⟩ := accept_eq_some hstep
      cases (s.sockets p).accept calls handshake with
      | none =>
          have hwait : (s.accept i ⟨p, .accept sock⟩ none).waiting + 1 = s.waiting + 0 :=
            waiting_set hp ⟨p, .test⟩ rfl
          exact ⟨hs, Nat.add_le_add_left (by omega) _⟩
      | some client =>
          have hwait : (s.accept i ⟨p, .accept sock⟩ (some client)).waiting + 1 = s.waiting + 0 :=
            waiting_set hp ⟨p, .serve ⟨s.accepted, client⟩⟩ rfl
          have haccepted : (s.accept i ⟨p, .accept sock⟩ (some client)).accepted =
              s.accepted + 1 := rfl
          exact ⟨hs, by omega⟩
  | serve i =>
      obtain ⟨p, client, hp, rfl⟩ := serve_eq_some hstep
      have hwait : (s.serve i ⟨p, .serve client⟩ client).waiting + 0 = s.waiting + 0 :=
        waiting_set hp ⟨p, .test⟩ rfl
      exact ⟨hs, Nat.add_le_add_left (Nat.le_of_eq hwait) _⟩
  | close =>
      obtain ⟨_, rfl⟩ := close_eq_some hstep
      exact ⟨hs, Nat.le_refl _⟩
  | handleClient i =>
      obtain ⟨task, _, rfl⟩ := handleClient_eq_some hstep
      exact ⟨hs, Nat.le_refl _⟩
  | listen fd opened =>
      obtain rfl := Option.some.inj hstep
      exact ⟨hs, Nat.le_refl _⟩

/-- A loop is where it was, or has read the number of its socket. -/
def Follows (s : ServerState) (loop' loop : AcceptLoop) : Prop :=
  loop'.sock = loop.sock ∧ ∀ fd, loop.asked = some fd →
    loop'.asked = some fd ∨ (s.sockets loop.sock).base.sock = some fd

/-- Loops come from the sockets, and stay on theirs. -/
theorem mem_loops_step {c : ServerStep} (hstep : s.step c = some t) {loop : AcceptLoop}
    (hloop : loop ∈ t.loops) :
    (∃ loop' ∈ s.loops, Follows s loop' loop) ∨
      (c = .start ∧ loop.sock ∈ s.socks ∧ loop.asked = none) := by
  have hsame : loop ∈ s.loops → ∃ loop' ∈ s.loops, Follows s loop' loop :=
    fun hmem => ⟨loop, hmem, rfl, fun _ h => .inl h⟩
  have hset : ∀ {i : Nat} {old : AcceptLoop} {q : Accepting}, s.loops[i]? = some old →
      t.loops = s.loops.set i ⟨old.sock, q⟩ →
      (∀ fd, AcceptLoop.asked ⟨old.sock, q⟩ = some fd →
        (s.sockets old.sock).base.sock = some fd) →
      ∃ loop' ∈ s.loops, Follows s loop' loop := by
    intro i old q hold hloops hasked
    rw [hloops] at hloop
    rcases List.mem_or_eq_of_mem_set hloop with hmem | rfl
    · exact hsame hmem
    · exact ⟨old, List.mem_of_getElem? hold, rfl, fun fd h => .inr (hasked fd h)⟩
  have hnone : ∀ {p : Nat} {q : Accepting} {fd : Nat},
      AcceptLoop.asked ⟨p, q⟩ = none → AcceptLoop.asked ⟨p, q⟩ = some fd →
        (s.sockets p).base.sock = some fd := by
    intro p q fd h hfd
    rw [h] at hfd
    cases hfd
  cases c with
  | bind addrs fails ssl =>
      obtain rfl := Option.some.inj hstep
      exact .inl (hsame hloop)
  | setRecvTimeout v =>
      obtain rfl := Option.some.inj hstep
      exact .inl (hsame hloop)
  | start =>
      obtain rfl := Option.some.inj hstep
      rw [start] at hloop
      split_ifs at hloop
      · rcases List.mem_append.mp hloop with hold | hnew
        · exact .inl (hsame hold)
        · obtain ⟨p, hp, rfl⟩ := List.mem_map.mp hnew
          exact .inr ⟨rfl, hp, rfl⟩
      · exact .inl (hsame hloop)
  | stop =>
      obtain rfl := Option.some.inj hstep
      exact .inl (hsame hloop)
  | test i =>
      obtain ⟨p, hp, rfl⟩ := test_eq_some hstep
      by_cases hstop : s.isStop = true
      · rw [test, if_pos hstop] at hloop
        exact .inl (hsame (List.mem_of_mem_eraseIdx hloop))
      · exact .inl (hset (q := .call) hp (by rw [test, if_neg hstop]) fun _ => hnone rfl)
  | call i =>
      obtain ⟨p, hp, rfl⟩ := call_eq_some hstep
      exact .inl (hset (q := .accept (s.sockets p).base.sock) hp rfl fun _ h => h)
  | accept i calls handshake =>
      obtain ⟨p, sock, hp, _, rfl⟩ := accept_eq_some hstep
      left
      cases haccept : (s.sockets p).accept calls handshake with
      | none => exact hset (q := .test) hp (by rw [haccept, accept]) fun _ => hnone rfl
      | some client =>
          exact hset (q := .serve ⟨s.accepted, client⟩) hp (by rw [haccept, accept])
            fun _ => hnone rfl
  | serve i =>
      obtain ⟨p, client, hp, rfl⟩ := serve_eq_some hstep
      exact .inl (hset (q := .test) hp rfl fun _ => hnone rfl)
  | close =>
      obtain ⟨_, rfl⟩ := close_eq_some hstep
      exact .inl (hsame hloop)
  | handleClient i =>
      obtain ⟨task, _, rfl⟩ := handleClient_eq_some hstep
      exact .inl (hsame hloop)
  | listen fd opened =>
      obtain rfl := Option.some.inj hstep
      exact .inl (hsame hloop)

/-- A number that a loop asks for a client does not come to listen. -/
theorem listening_step {c : ServerStep} (hc : StaysStopped s c) (hstep : s.step c = some t)
    {fd : Nat} (hasked : s.Asked fd) (h : s.listening fd = false) : t.listening fd = false := by
  rcases sockets_step hstep with
    ⟨addrs, fails, ssl, rfl, rfl⟩ | ⟨-, rfl⟩ | ⟨q, opened, rfl, rfl⟩ | hsame
  · simp only [bind, h, Bool.false_or]
    rw [List.any_eq_false]
    intro sock hsock hnumber
    exact hc sock hsock fd (of_decide_eq_true hnumber) hasked
  · simp [close, h]
  · by_cases hq : fd = q
    · simp only [if_pos hq]
      rw [← Bool.not_eq_true]
      intro hopened
      exact hc hopened (hq ▸ hasked)
    · simp only [if_neg hq]
      exact h
  · rw [hsame.listening]
    exact h

/-- A socket that was made stays as it is until it is closed. -/
theorem sockets_kept {c : ServerStep} (hstep : s.step c = some t) :
    s.made ≤ t.made ∧ ∀ p, p < s.made →
      t.sockets p = s.sockets p ∨ (t.sockets p).base.isValid = false := by
  rcases sockets_step hstep with
    ⟨addrs, fails, ssl, -, rfl⟩ | ⟨-, rfl⟩ | ⟨fd, opened, -, rfl⟩ | hsame
  · exact ⟨Nat.le_add_right _ _, fun p hlt => .inl (by simp [bind, hlt])⟩
  · refine ⟨Nat.le_refl _, fun p _ => ?_⟩
    by_cases hp : p ∈ s.socks
    · right
      simp [close, hp, close_isValid]
    · left
      simp [close, hp]
  · exact ⟨Nat.le_refl _, fun p _ => .inl rfl⟩
  · exact ⟨Nat.le_of_eq hsame.made.symm, fun p _ => .inl (by rw [hsame.sockets])⟩

theorem loopsKnown_step {c : ServerStep} (hf : Formed s) (h : LoopsKnown s)
    (hstep : s.step c = some t) : LoopsKnown t := by
  intro loop hloop
  refine Nat.lt_of_lt_of_le ?_ (sockets_kept hstep).1
  rcases mem_loops_step hstep hloop with ⟨loop', hmem, hfollows⟩ | ⟨_, hmem, _⟩
  · rw [← hfollows.1]
    exact h loop' hmem
  · exact hf.known loop.sock hmem

theorem captured_step {c : ServerStep} (hknown : LoopsKnown s) (h : Captured s)
    (hstep : s.step c = some t) : Captured t := by
  intro loop hloop fd hasked hvalid
  rcases mem_loops_step hstep hloop with ⟨loop', hmem, hsock, hfollows⟩ | ⟨_, _, hnone⟩
  · have hlt : loop.sock < s.made := hsock ▸ hknown loop' hmem
    rcases (sockets_kept hstep).2 loop.sock hlt with hsame | hclosed
    · rw [hsame] at hvalid ⊢
      rcases hfollows fd hasked with hbefore | hread
      · rw [← hsock] at hvalid ⊢
        exact h loop' hmem fd hbefore hvalid
      · exact hread
    · rw [hclosed] at hvalid
      cases hvalid
  · rw [hnone] at hasked
    cases hasked

/-- A loop that is deaf stays so. -/
theorem deaf_step {c : ServerStep} (hknown : LoopsKnown s) (hc : StaysStopped s c)
    (hstep : s.step c = some t) {loop' loop : AcceptLoop} (hmem : loop' ∈ s.loops)
    (hfollows : Follows s loop' loop) (h : Deaf s loop') : Deaf t loop := by
  obtain ⟨hsock, hasks⟩ := hfollows
  have hlt : loop.sock < s.made := hsock ▸ hknown loop' hmem
  have hclosed : (s.sockets loop.sock).base.isValid = false := hsock ▸ h.closed
  constructor
  · rcases (sockets_kept hstep).2 loop.sock hlt with hsame | hafter
    · rw [hsame]
      exact hclosed
    · exact hafter
  · intro fd hasked
    rcases hasks fd hasked with hbefore | hread
    · exact listening_step hc hstep ⟨loop', hmem, hbefore⟩ (h.asked fd hbefore)
    · rw [Socket.isValid, hread] at hclosed
      cases hclosed

/-- After the task of `stop` all loops are deaf. -/
theorem deaf_close (hf : Formed s) (hcaptured : Captured s) (h : Closing s) {loop : AcceptLoop}
    (hloop : loop ∈ s.loops) : Deaf s.close loop := by
  by_cases hmem : loop.sock ∈ s.socks
  · constructor
    · simp [close, hmem, close_isValid]
    · intro fd hasked
      have hnumber := hcaptured loop hloop fd hasked (hf.valid loop.sock hmem)
      have hany : (s.socks.any fun p => (s.sockets p).base.sock = some fd) = true :=
        List.any_eq_true.mpr ⟨loop.sock, hmem, decide_eq_true hnumber⟩
      simp only [close, hany, Bool.not_true, Bool.and_false]
  · have hdeaf := (h loop hloop).resolve_left hmem
    constructor
    · simp only [close, if_neg hmem]
      exact hdeaf.closed
    · intro fd hasked
      simp only [close, hdeaf.asked fd hasked, Bool.false_and]

theorem closing_step {c : ServerStep} (hf : Formed s) (hknown : LoopsKnown s)
    (hcaptured : Captured s) (h : Closing s) (hc : LeavesSockets s c)
    (hstep : s.step c = some t) : Closing t := by
  intro loop hloop
  rcases mem_loops_step hstep hloop with ⟨loop', hmem, hfollows⟩ | ⟨rfl, _⟩
  · have hkept : t.socks = s.socks → loop.sock ∈ t.socks ∨ Deaf t loop := by
      intro hsocks
      refine (h loop' hmem).imp (fun hsock => ?_)
        (deaf_step hknown hc.staysStopped hstep hmem hfollows)
      rw [hsocks, ← hfollows.1]
      exact hsock
    rcases sockets_step hstep with ⟨_, _, _, rfl, _⟩ | ⟨-, rfl⟩ | ⟨fd, opened, -, rfl⟩ | hsame
    · exact hc.elim
    · exact .inr (deaf_close hf hcaptured h hloop)
    · exact hkept rfl
    · exact hkept hsame.socks
  · exact hc.elim

/-- All loops are deaf, and will not run again. -/
structure Closed (s : ServerState) : Prop where
  isStop : s.isStop = true
  known : LoopsKnown s
  deaf : ∀ loop ∈ s.loops, Deaf s loop

/-- No loop accepts a client any more. -/
theorem closed_step {c : ServerStep} (h : Closed s) (hc : StaysStopped s c)
    (hstep : s.step c = some t) : Closed t ∧ t.accepted = s.accepted := by
  have hold : ∀ loop ∈ t.loops, ∃ loop' ∈ s.loops, Follows s loop' loop := by
    intro loop hloop
    rcases mem_loops_step hstep hloop with hmem | ⟨rfl, _⟩
    · exact hmem
    · exact hc.elim
  refine ⟨⟨(stopped_step h.isStop hc hstep).1, fun loop hloop => ?_, fun loop hloop => ?_⟩, ?_⟩
  · obtain ⟨loop', hmem, hfollows⟩ := hold loop hloop
    rw [← hfollows.1]
    exact Nat.lt_of_lt_of_le (h.known loop' hmem) (sockets_kept hstep).1
  · obtain ⟨loop', hmem, hfollows⟩ := hold loop hloop
    exact deaf_step h.known hc hstep hmem hfollows (h.deaf loop' hmem)
  · cases c with
    | bind addrs fails ssl =>
        obtain rfl := Option.some.inj hstep
        rfl
    | setRecvTimeout v =>
        obtain rfl := Option.some.inj hstep
        rfl
    | start => exact hc.elim
    | stop =>
        obtain rfl := Option.some.inj hstep
        rfl
    | test i =>
        obtain ⟨p, _, rfl⟩ := test_eq_some hstep
        rw [test, if_pos h.isStop]
    | call i =>
        obtain ⟨p, _, rfl⟩ := call_eq_some hstep
        rfl
    | accept i calls handshake =>
        obtain ⟨p, sock, hp, hnone, rfl⟩ := accept_eq_some hstep
        have hdeaf := h.deaf ⟨p, .accept sock⟩ (List.mem_of_getElem? hp)
        have hhears : s.hears sock = false := by
          cases sock with
          | none => rfl
          | some fd => exact hdeaf.asked fd rfl
        rw [accept_none (hnone hhears), accept]
    | serve i =>
        obtain ⟨p, client, _, rfl⟩ := serve_eq_some hstep
        rfl
    | close =>
        obtain ⟨_, rfl⟩ := close_eq_some hstep
        rfl
    | handleClient i =>
        obtain ⟨task, _, rfl⟩ := handleClient_eq_some hstep
        rfl
    | listen fd opened =>
        obtain rfl := Option.some.inj hstep
        rfl

/-! ## Clients -/

/-- The clients in the hands of loops, after one loop has moved. -/
theorem flatMap_set {i : Nat} {loop : AcceptLoop} (h : s.loops[i]? = some loop)
    (loop' : AcceptLoop) :
    (loop.clients ++ (s.loops.set i loop').flatMap AcceptLoop.clients).Perm
      (loop'.clients ++ s.loops.flatMap AcceptLoop.clients) := by
  obtain ⟨hi, rfl⟩ := List.getElem?_eq_some_iff.mp h
  have hbefore := (List.getElem_cons_eraseIdx_perm hi).flatMap_right AcceptLoop.clients
  have hafter := (List.set_perm_cons_eraseIdx hi loop').flatMap_right AcceptLoop.clients
  rw [List.flatMap_cons] at hbefore hafter
  exact ((hafter.append_left _).trans (List.perm_append_comm_assoc _ _ _)).trans
    (hbefore.append_left _)

/-- One step adds the client that it accepts, and only moves the others. -/
theorem clients_step {c : ServerStep} (hstep : s.step c = some t) :
    ∃ new : List Client, t.clients.Perm (new ++ s.clients) ∧
      new.map Client.number = List.range' s.accepted new.length ∧
      t.accepted = s.accepted + new.length ∧
      ∀ client ∈ new, client.sock.base.isValid = true := by
  have hmoved : t.clients.Perm s.clients → t.accepted = s.accepted →
      ∃ new : List Client, t.clients.Perm (new ++ s.clients) ∧
        new.map Client.number = List.range' s.accepted new.length ∧
        t.accepted = s.accepted + new.length ∧
        ∀ client ∈ new, client.sock.base.isValid = true :=
    fun hclients haccepted =>
      ⟨[], hclients, rfl, haccepted, fun _ h => absurd h List.not_mem_nil⟩
  cases c with
  | bind addrs fails ssl =>
      obtain rfl := Option.some.inj hstep
      exact hmoved (.refl _) rfl
  | setRecvTimeout v =>
      obtain rfl := Option.some.inj hstep
      exact hmoved (.refl _) rfl
  | start =>
      obtain rfl := Option.some.inj hstep
      have hnew : (s.socks.map fun p => (⟨p, .test⟩ : AcceptLoop)).flatMap
          AcceptLoop.clients = [] := by
        simp [AcceptLoop.clients]
      by_cases hstop : s.isStop = true
      · rw [start, if_pos hstop] at *
        exact hmoved (by simp [clients, hnew]) rfl
      · rw [start, if_neg hstop] at *
        exact hmoved (.refl _) rfl
  | stop =>
      obtain rfl := Option.some.inj hstep
      exact hmoved (.refl _) rfl
  | test i =>
      obtain ⟨p, hp, rfl⟩ := test_eq_some hstep
      by_cases hstop : s.isStop = true
      · obtain ⟨hi, hloop⟩ := List.getElem?_eq_some_iff.mp hp
        have hrest := (List.getElem_cons_eraseIdx_perm hi).flatMap_right AcceptLoop.clients
        rw [hloop] at hrest
        rw [test, if_pos hstop] at *
        exact hmoved (hrest.append_right _) rfl
      · rw [test, if_neg hstop] at *
        exact hmoved ((flatMap_set hp ⟨p, .call⟩).append_right _) rfl
  | call i =>
      obtain ⟨p, hp, rfl⟩ := call_eq_some hstep
      exact hmoved ((flatMap_set hp ⟨p, .accept (s.sockets p).base.sock⟩).append_right _) rfl
  | accept i calls handshake =>
      obtain ⟨p, sock, hp, _, rfl⟩ := accept_eq_some hstep
      cases haccept : (s.sockets p).accept calls handshake with
      | none =>
          rw [haccept] at hmoved
          exact hmoved ((flatMap_set hp ⟨p, .test⟩).append_right _) rfl
      | some client =>
          refine ⟨[⟨s.accepted, client⟩], ?_, rfl, rfl, ?_⟩
          · exact (flatMap_set hp ⟨p, .serve ⟨s.accepted, client⟩⟩).append_right _
          · rintro client hclient
            obtain rfl := List.mem_singleton.mp hclient
            exact accept_isValid haccept
  | serve i =>
      obtain ⟨p, client, hp, rfl⟩ := serve_eq_some hstep
      refine hmoved (List.perm_iff_count.mpr fun x => ?_) rfl
      have hloops : ([client] ++ (s.loops.set i ⟨p, .test⟩).flatMap AcceptLoop.clients).Perm
          ([] ++ s.loops.flatMap AcceptLoop.clients) := flatMap_set hp ⟨p, .test⟩
      have hcount := List.perm_iff_count.mp hloops x
      simp only [clients, serve, List.map_append, List.map_cons, List.map_nil,
        List.count_append, List.count_nil] at hcount ⊢
      omega
  | close =>
      obtain ⟨_, rfl⟩ := close_eq_some hstep
      exact hmoved (.refl _) rfl
  | handleClient i =>
      obtain ⟨task, htask, rfl⟩ := handleClient_eq_some hstep
      refine hmoved (List.Perm.append_left _ (List.perm_iff_count.mpr fun x => ?_)) rfl
      obtain ⟨hi, hnext⟩ := List.getElem?_eq_some_iff.mp htask
      have hqueued := (List.getElem_cons_eraseIdx_perm hi).symm.map ClientTask.client
      rw [hnext] at hqueued
      have hcount := List.perm_iff_count.mp hqueued x
      simp only [List.map_append, List.map_cons, List.map_nil, List.count_append,
        List.count_cons, List.count_nil] at hcount ⊢
      omega
  | listen fd opened =>
      obtain rfl := Option.some.inj hstep
      exact hmoved (.refl _) rfl

end ServerState

/-- **One accept loop on each open socket.**  For every run of calls and tasks, in every
state that it goes through a server that is not stopped has exactly one accept loop on each
of its sockets, no loop elsewhere, and its sockets are open, iff every step is such that

* `bind`: the server is stopped, or keeps the sockets that it has;
* `start` of a stopped server: all accept loops have ended;
* the task of `stop`: the server is stopped, or has no sockets. -/
theorem serving_iff (recvTimeout : UInt64) (sockets : Nat → SocketPtr)
    (listening : Nat → Bool) (steps : List ServerStep)
    (hrun : (serverRuns.exec (ServerState.new recvTimeout sockets listening) steps).isSome) :
    serverRuns.Along ServerState.Serving (ServerState.new recvTimeout sockets listening) steps ↔
      serverRuns.StepsMeet ServerState.KeepsServing
        (ServerState.new recvTimeout sockets listening) steps := by
  have himp : ∀ s, ServerState.Formed s ∧ ServerState.Covered s → ServerState.Serving s :=
    fun s h => (ServerState.serving_iff_covered h.1).mpr h.2
  refine System.along_iff_stepsMeet himp ?_ ?_
    ⟨ServerState.new_formed recvTimeout sockets listening, ServerState.covered_of_stop rfl⟩ hrun
  · rintro s c t ⟨hf, hs⟩ hc hstep
    exact ⟨hf.step hstep, ServerState.covered_step hs hc hstep⟩
  · rintro s c t ⟨hf, hs⟩ hc hstep ht
    exact hc (ServerState.keepsServing_of_covered hs hstep
      ((ServerState.serving_iff_covered (hf.step hstep)).mp ht))

/-- A server without sockets, in a process that listens on nothing. -/
def unbound : ServerState :=
  .new 0 (fun _ => .socket Socket.createTcpSocket) fun _ => false

theorem unbound_init : serverRuns.init unbound := ⟨_, _, _, rfl⟩

/-- A server that is bound, started, stopped and started again at once. -/
def restart : List ServerStep :=
  [.bind [TcpServer.attempt true] [] false, .start, .stop, .start]

/-- Both loops go on, on one socket. -/
theorem restart_not_serving : ¬ serverRuns.Along ServerState.Serving unbound restart := by
  intro h
  have hmeet := (serving_iff 0 (fun _ => .socket Socket.createTcpSocket) (fun _ => false)
    restart rfl).mp h
  have hlast := ((hmeet.2 _ rfl).2 _ rfl).2 _ rfl
  have hnil : [(⟨0, .test⟩ : AcceptLoop)] = [] := hlast.1 rfl
  cases hnil

/-- **After `stop`.**  A server that has been started and stopped only as in `serving_iff`
runs and is stopped.  Until the task of `stop` closes its sockets it accepts at most one more
client for each loop that was waiting for one, and from then on none at all: its loops are on
closed sockets, and what they ask for a client does not listen.  This holds as long as it is not
started again and, until its sockets are closed, not bound, and as long as no number that a loop
still asks for a client comes to be that of a new listening descriptor. -/
theorem stop_accepts {s s₁ s₂ s₃ t : ServerState}
    (hs : serverRuns.Reachable ServerState.KeepsServing s) (hrun : s.isStop = false)
    (hstop : s.step .stop = some s₁)
    (hopen : serverRuns.Reaches ServerState.LeavesSockets s₁ s₂)
    (hclose : s₂.step .close = some s₃)
    (hclosed : serverRuns.Reaches ServerState.StaysStopped s₃ t) :
    s₂.accepted ≤ s.accepted + s.waiting ∧ t.accepted = s₂.accepted ∧ t.isStop = true ∧
      ∀ loop ∈ t.loops, ServerState.Deaf t loop := by
  have hinv : ServerState.Formed s ∧ ServerState.Covered s ∧ ServerState.LoopsKnown s ∧
      ServerState.Captured s := by
    refine hs.invariant (fun s => ServerState.Formed s ∧ ServerState.Covered s ∧
      ServerState.LoopsKnown s ∧ ServerState.Captured s) ?_ ?_
    · rintro _ ⟨recvTimeout, sockets, listening, rfl⟩
      exact ⟨ServerState.new_formed recvTimeout sockets listening,
        ServerState.covered_of_stop rfl, fun _ h => absurd h List.not_mem_nil,
        fun _ h => absurd h List.not_mem_nil⟩
    · rintro s c t ⟨hf, hcov, hknown, hcaptured⟩ hc hstep
      exact ⟨hf.step hstep, ServerState.covered_step hcov hc hstep,
        ServerState.loopsKnown_step hf hknown hstep,
        ServerState.captured_step hknown hcaptured hstep⟩
  obtain ⟨hf, hcov, hknown, hcaptured⟩ := hinv
  obtain rfl := Option.some.inj hstop
  -- until the sockets are closed
  have hmiddle : s₂.isStop = true ∧ ServerState.Formed s₂ ∧ ServerState.LoopsKnown s₂ ∧
      ServerState.Captured s₂ ∧ ServerState.Closing s₂ ∧
      s₂.accepted + s₂.waiting ≤ s.accepted + s.waiting := by
    refine hopen.invariant (fun u => u.isStop = true ∧ ServerState.Formed u ∧
      ServerState.LoopsKnown u ∧ ServerState.Captured u ∧ ServerState.Closing u ∧
      u.accepted + u.waiting ≤ s.accepted + s.waiting) ?_ ?_
    · rintro u c v ⟨hstopped, hfu, hku, hcu, hclosing, hle⟩ hc hstep
      obtain ⟨hstopped', hle'⟩ := ServerState.stopped_step hstopped hc.staysStopped hstep
      exact ⟨hstopped', hfu.step hstep, ServerState.loopsKnown_step hfu hku hstep,
        ServerState.captured_step hku hcu hstep,
        ServerState.closing_step hfu hku hcu hclosing hc hstep, Nat.le_trans hle' hle⟩
    · refine ⟨rfl, hf.step hstop, ServerState.loopsKnown_step hf hknown hstop,
        ServerState.captured_step hknown hcaptured hstop, ?_, Nat.le_refl _⟩
      intro loop hloop
      exact .inl ((hcov hrun).subset (List.mem_map_of_mem hloop))
  obtain ⟨hstopped, hf₂, hknown₂, hcaptured₂, hclosing, hle⟩ := hmiddle
  obtain ⟨_, rfl⟩ := ServerState.close_eq_some hclose
  have hclosed₂ : ServerState.Closed s₂.close :=
    ⟨hstopped, ServerState.loopsKnown_step hf₂ hknown₂ hclose,
      fun loop hloop => ServerState.deaf_close hf₂ hcaptured₂ hclosing hloop⟩
  obtain ⟨hend, haccepted⟩ := hclosed.invariant
    (fun u => ServerState.Closed u ∧ u.accepted = s₂.accepted)
    (fun u c v hu hc hstep => by
      obtain ⟨hv, heq⟩ := ServerState.closed_step hu.1 hc hstep
      exact ⟨hv, heq.trans hu.2⟩)
    ⟨hclosed₂, rfl⟩
  exact ⟨Nat.le_trans (Nat.le_add_right _ _) hle, haccepted, hend.isStop, hend.deaf⟩

/-- Another address, with a descriptor of its own. -/
def otherAttempt : Attempt :=
  (⟨Socket.ipv4, false, [8034]⟩,
    ⟨⟨some 4, ⟨none, false, none, none⟩, true, none⟩, true⟩)

/-- A server with two sockets.  The first loop has handed on a client and waits for another, and
the second one waits too. -/
def oneClient : List ServerStep :=
  [.bind [TcpServer.attempt true, otherAttempt] [] false, .start, .test 0, .call 0,
    .accept 0 ⟨some 9, true, none, none⟩ false, .serve 0, .test 0, .call 0, .test 1, .call 1]

/-- A client that comes after `stop`. -/
def lateClient : List ServerStep :=
  [.accept 0 ⟨some 10, true, none, none⟩ false, .serve 0, .handleClient 0]

/-- Other code listens on a new descriptor, and the second loop is told that its own is none. -/
def afterClose : List ServerStep :=
  [.listen 5 true, .accept 1 ⟨none, false, none, none⟩ false]

/-- One client comes after `stop`, none after the sockets are closed. -/
theorem oneClient_stop :
    ∃ s s₁ s₂ s₃ t,
      serverRuns.exec unbound oneClient = some s ∧
      s.step .stop = some s₁ ∧ serverRuns.exec s₁ lateClient = some s₂ ∧
      s₂.step .close = some s₃ ∧ serverRuns.exec s₃ afterClose = some t ∧
      s.accepted = 1 ∧ s.waiting = 2 ∧ s₂.accepted = 2 ∧
      s₂.accepted ≤ s.accepted + s.waiting ∧ t.accepted = s₂.accepted := by
  refine ⟨_, _, _, _, _, rfl, rfl, rfl, rfl, rfl, rfl, rfl, rfl, ?_⟩
  have hs := System.execIf_reachable (T := serverRuns) (C := ServerState.KeepsServing)
    unbound_init (rfl : serverRuns.execIf ServerState.KeepsServing _ oneClient = some _)
  have hfive : ∀ s : ServerState, s.loops.map AcceptLoop.asked = [none, some 4] →
      ¬ s.Asked 5 := by
    rintro s hloops ⟨loop, hmem, hasked⟩
    have hin := List.mem_map_of_mem (f := AcceptLoop.asked) hmem
    rw [hloops, hasked] at hin
    exact absurd hin (by decide)
  have hafter := stop_accepts hs rfl rfl
    (.step (a := .handleClient 0) (.step (a := .serve 0)
      (.step (a := .accept 0 ⟨some 10, true, none, none⟩ false) .refl trivial rfl)
      trivial rfl) trivial rfl)
    rfl
    (.step (a := .accept 1 ⟨none, false, none, none⟩ false)
      (.step (a := .listen 5 true) .refl (fun _ => hfive _ rfl) rfl) trivial rfl)
  exact ⟨hafter.1, hafter.2.1⟩

/-- A descriptor that is opened with the number of a closed one is heard by its loop. -/
example : ∃ s t, serverRuns.exec unbound (oneClient ++ [.stop, .close, .listen 4 true]) = some s ∧
    s.accepted = 1 ∧ s.step (.accept 1 ⟨some 10, true, none, none⟩ false) = some t ∧
    t.accepted = 2 :=
  ⟨_, _, rfl, rfl, rfl, rfl⟩

end Network
end Hpgs
