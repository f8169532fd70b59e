import Hpgs.Library.Transition
import Hpgs.Network.Socket
import Mathlib.Data.List.Induction

/-!
# Binding the sockets of a `TcpServer`

`bind` opens one socket for each address, and appends the addresses that fail to a vector of
the caller.  Whether it has succeeded is read off that vector, with what it has held before.

**Results.**
* `bindLoop_eq`: the sockets and the failures of one call.
* `bind_allOrNothing`: a call is all or nothing exactly if the vector was empty, or some
  address of the call fails.
* `bind_retry_fails`: an address that is bound at the second attempt.
* `bind_runs`: what runs of calls gather, and when the next call succeeds.
-/

namespace Hpgs
namespace Network

open Transition

/-! ## Definitions -/

/-- What the calls for one address return. -/
structure AddressCalls where
  bind : BindCalls
  listen : Bool

/-- An address, and how it goes with it. -/
abbrev Attempt := SocketAddress × AddressCalls

/-- The members that `bind` works on. -/
structure TcpServer where
  socks : List SocketPtr
  ssl : Bool
deriving DecidableEq, Repr

namespace TcpServer

/-- The body of the loop: the socket that listens, or `none` where it fails. -/
def bindOne (ssl : Bool) (a : Attempt) : Option SocketPtr :=
  let sock : SocketPtr :=
    if ssl then .sslSocket (SSLSocket.createTcp a.1) else .socket (Socket.createTcp a.1)
  match sock.bind a.1 a.2.bind with
  | (false, _) => none
  | (true, sock) => if sock.listen a.2.listen then some sock else none

/-- The loop: `m_socks` and `fails` behind it. -/
def bindLoop (ssl : Bool) : List Attempt → List SocketPtr → List SocketAddress →
    List SocketPtr × List SocketAddress
  | [], socks, fails => (socks, fails)
  | a :: addrs, socks, fails =>
      match bindOne ssl a with
      | none => bindLoop ssl addrs socks (fails ++ [a.1])
      | some sock => bindLoop ssl addrs (socks ++ [sock]) fails

/-- `bind` of a list of addresses: the result, the server and `fails` afterwards. -/
def bind (server : TcpServer) (addrs : List Attempt) (fails : List SocketAddress) (ssl : Bool) :
    Bool × TcpServer × List SocketAddress :=
  match bindLoop ssl addrs server.socks fails with
  | (socks, []) => (true, { socks, ssl }, [])
  | (_, f :: fails) => (false, { socks := [], ssl }, f :: fails)

/-- All addresses are bound and listened on, and their sockets are added in order; or the
failures of the call are added to `fails` in order, and none of its sockets stays. -/
structure AllOrNothing (server : TcpServer) (addrs : List Attempt) (fails : List SocketAddress)
    (ssl : Bool) (r : Bool × TcpServer × List SocketAddress) : Prop where
  success : r.1 = true ↔ ∀ a ∈ addrs, (bindOne ssl a).isSome
  gained : r.1 = true → ∃ made, r.2.1.socks = server.socks ++ made ∧
    List.Forall₂ (fun a sock => bindOne ssl a = some sock) addrs made
  failed : r.1 = false →
    r.2.2 = fails ++ (addrs.filter fun a => (bindOne ssl a).isNone).map Prod.fst
  dropped : r.1 = false → r.2.1.socks.Sublist server.socks

/-- Calls on one server, with one vector of failures. -/
def system : System (TcpServer × List SocketAddress) (List Attempt × Bool) where
  init p := p.2 = []
  step p c := some (p.1.bind c.1 p.2 c.2).2

/-! ## One call -/

section Call

variable (ssl : Bool)

theorem bindLoop_eq (addrs : List Attempt) (socks : List SocketPtr) (fails : List SocketAddress) :
    bindLoop ssl addrs socks fails =
      (socks ++ addrs.filterMap (bindOne ssl),
        fails ++ (addrs.filter fun a => (bindOne ssl a).isNone).map Prod.fst) := by
  induction addrs generalizing socks fails with
  | nil => simp [bindLoop]
  | cons a addrs ih =>
      rw [bindLoop]
      cases h : bindOne ssl a with
      | none =>
          simp only [ih]
          simp [h]
      | some sock =>
          simp only [ih]
          simp [h]

/-- Where all are bound there is one socket for each. -/
theorem forall₂_filterMap {addrs : List Attempt} (h : ∀ a ∈ addrs, (bindOne ssl a).isSome) :
    List.Forall₂ (fun a sock => bindOne ssl a = some sock) addrs
      (addrs.filterMap (bindOne ssl)) := by
  induction addrs with
  | nil => exact .nil
  | cons a addrs ih =>
      rw [List.forall_mem_cons] at h
      obtain ⟨sock, hsock⟩ := Option.isSome_iff_exists.mp h.1
      rw [List.filterMap_cons_some hsock]
      exact .cons hsock (ih h.2)

theorem filter_eq_nil {addrs : List Attempt} :
    (addrs.filter fun a => (bindOne ssl a).isNone) = [] ↔ ∀ a ∈ addrs, (bindOne ssl a).isSome := by
  rw [List.filter_eq_nil_iff]
  refine forall₂_congr fun a _ => ?_
  cases bindOne ssl a <;> simp

variable (server : TcpServer) (addrs : List Attempt) (fails : List SocketAddress)

/-- The call succeeds if there is no failure in the vector, old or new. -/
theorem bind_eq : server.bind addrs fails ssl =
    if fails = [] ∧ ∀ a ∈ addrs, (bindOne ssl a).isSome then
      (true, { socks := server.socks ++ addrs.filterMap (bindOne ssl), ssl }, [])
    else
      (false, { socks := [], ssl },
        fails ++ (addrs.filter fun a => (bindOne ssl a).isNone).map Prod.fst) := by
  rw [bind, bindLoop_eq]
  by_cases h : fails = [] ∧ ∀ a ∈ addrs, (bindOne ssl a).isSome
  · rw [if_pos h, h.1, (filter_eq_nil ssl).mpr h.2]
    rfl
  · rw [if_neg h]
    cases hall : fails ++ (addrs.filter fun a => (bindOne ssl a).isNone).map Prod.fst with
    | nil =>
        rw [List.append_eq_nil_iff, List.map_eq_nil_iff] at hall
        exact absurd ⟨hall.1, (filter_eq_nil ssl).mp hall.2⟩ h
    | cons f rest => rfl

/-- Without old failures, what is in the vector is what has failed in this call. -/
theorem allOrNothing_of_nil : AllOrNothing server addrs [] ssl (server.bind addrs [] ssl) := by
  rw [bind_eq]
  by_cases hall : ∀ a ∈ addrs, (bindOne ssl a).isSome
  · rw [if_pos ⟨rfl, hall⟩]
    exact {
      success := ⟨fun _ => hall, fun _ => rfl⟩
      gained := fun _ => ⟨_, rfl, forall₂_filterMap ssl hall⟩
      failed := fun h => nomatch h
      dropped := fun h => nomatch h }
  · rw [if_neg fun h => hall h.2]
    exact {
      success := ⟨fun h => (nomatch h), fun h => absurd h hall⟩
      gained := fun h => nomatch h
      failed := fun _ => rfl
      dropped := fun _ => List.nil_sublist _ }

/-- A failure in this call is reported, whatever is in the vector. -/
theorem allOrNothing_of_failure (h : ∃ a ∈ addrs, bindOne ssl a = none) :
    AllOrNothing server addrs fails ssl (server.bind addrs fails ssl) := by
  have hall : ¬ ∀ a ∈ addrs, (bindOne ssl a).isSome := by
    obtain ⟨a, ha, hnone⟩ := h
    intro hall
    have hsome := hall a ha
    rw [hnone] at hsome
    exact nomatch hsome
  rw [bind_eq, if_neg fun h => hall h.2]
  exact {
    success := ⟨fun h => (nomatch h), fun h => absurd h hall⟩
    gained := fun h => nomatch h
    failed := fun _ => rfl
    dropped := fun _ => List.nil_sublist _ }

/-- A call is all or nothing exactly if the vector was empty, or some address of the call
fails. -/
theorem bind_allOrNothing :
    AllOrNothing server addrs fails ssl (server.bind addrs fails ssl) ↔
      fails = [] ∨ ∃ a ∈ addrs, bindOne ssl a = none := by
  constructor
  · intro h
    by_contra hnot
    obtain ⟨hfails, hnone⟩ := not_or.mp hnot
    have hall : ∀ a ∈ addrs, (bindOne ssl a).isSome := by
      intro a ha
      exact Option.isSome_iff_ne_none.mpr fun hfail => hnone ⟨a, ha, hfail⟩
    have hsuccess := h.success.mpr hall
    rw [bind_eq, if_neg fun h => hfails h.1] at hsuccess
    exact nomatch hsuccess
  · rintro (rfl | hfailure)
    · exact allOrNothing_of_nil ssl server addrs
    · exact allOrNothing_of_failure ssl server addrs fails hfailure

end Call

/-! ## Attempts -/

/-- An IPv4 address, all of whose calls succeed but that of `bind` perhaps. -/
def attempt (bound : Bool) : Attempt :=
  (⟨Socket.ipv4, false, [8033]⟩,
    ⟨⟨some 3, ⟨none, false, none, none⟩, bound, none⟩, true⟩)

/-- The address is in use at the first attempt.  At the second it is bound, and the call fails
because of the first. -/
theorem bind_retry_fails :
    let server : TcpServer := ⟨[], false⟩
    let first := server.bind [attempt false] [] false
    let second := first.2.1.bind [attempt true] first.2.2 false
    first.1 = false ∧ bindOne false (attempt true) ≠ none ∧ second.1 = false ∧
      ¬ AllOrNothing first.2.1 [attempt true] first.2.2 false second := by
  intro server first second
  have hbound : ∀ a ∈ [attempt true], (bindOne false a).isSome := by decide
  have hfirst : first.1 = false := by decide
  have hsecond : second.1 = false := by decide
  refine ⟨hfirst, by decide, hsecond, fun h => ?_⟩
  have hsuccess := h.success.mpr hbound
  rw [hsecond] at hsuccess
  exact nomatch hsuccess

/-- The addresses of a call that fail. -/
def failures (c : List Attempt × Bool) : List SocketAddress :=
  (c.1.filter fun a => (bindOne c.2 a).isNone).map Prod.fst

/-- The sockets of the addresses of a call that do not. -/
def made (c : List Attempt × Bool) : List SocketPtr :=
  c.1.filterMap (bindOne c.2)

theorem failures_eq_nil {c : List Attempt × Bool} :
    failures c = [] ↔ ∀ a ∈ c.1, (bindOne c.2 a).isSome := by
  rw [failures, List.map_eq_nil_iff, filter_eq_nil]

/-- **Step lemma.**  A failure, now or before, empties the server. -/
theorem bind_step (server : TcpServer) (fails : List SocketAddress) (c : List Attempt × Bool) :
    (server.bind c.1 fails c.2).2.2 = fails ++ failures c ∧
      (server.bind c.1 fails c.2).2.1.socks =
        if fails ++ failures c = [] then server.socks ++ made c else [] := by
  rw [bind_eq]
  by_cases h : fails = [] ∧ ∀ a ∈ c.1, (bindOne c.2 a).isSome
  · obtain ⟨rfl, hall⟩ := h
    rw [if_pos ⟨rfl, hall⟩, failures_eq_nil.mpr hall]
    exact ⟨rfl, rfl⟩
  · have hne : fails ++ failures c ≠ [] := by
      rw [Ne, List.append_eq_nil_iff, failures_eq_nil]
      exact h
    rw [if_neg h, if_neg hne]
    exact ⟨rfl, rfl⟩

/-- **Run lemma.**  What the vector and the server hold after some calls. -/
theorem exec_calls (server : TcpServer) (calls : List (List Attempt × Bool)) :
    ∃ q, system.exec (server, []) calls = some q ∧ q.2 = calls.flatMap failures ∧
      q.1.socks = if calls.flatMap failures = [] then server.socks ++ calls.flatMap made
        else [] := by
  induction calls using List.reverseRecOn with
  | nil => exact ⟨(server, []), rfl, rfl, by simp⟩
  | append_singleton calls c ih =>
      obtain ⟨q, hq, hfails, hsocks⟩ := ih
      obtain ⟨hfails', hsocks'⟩ := bind_step q.1 q.2 c
      refine ⟨(q.1.bind c.1 q.2 c.2).2, ?_, ?_, ?_⟩
      · rw [System.exec_append, hq]
        rfl
      · rw [hfails', hfails]
        simp
      · rw [hsocks', hsocks, hfails]
        simp only [List.flatMap_append, List.flatMap_singleton]
        by_cases hnil : calls.flatMap failures = []
        · rw [hnil, if_pos rfl, List.append_assoc]
        · rw [if_neg fun h => hnil (List.append_eq_nil_iff.mp h).1,
            if_neg fun h => hnil (List.append_eq_nil_iff.mp h).1]

/-- **Runs of calls** with a vector that is empty at first.  It gathers the failures of all
calls; until the first one the server gathers the sockets, and from then on it has none and
no call succeeds. -/
theorem bind_runs (server : TcpServer) (calls : List (List Attempt × Bool)) :
    ∃ q, system.exec (server, []) calls = some q ∧
      q.2 = calls.flatMap failures ∧
      q.1.socks = (if calls.flatMap failures = [] then server.socks ++ calls.flatMap made
        else []) ∧
      ∀ addrs ssl, (q.1.bind addrs q.2 ssl).1 = true ↔
        calls.flatMap failures = [] ∧ ∀ a ∈ addrs, (bindOne ssl a).isSome := by
  obtain ⟨q, hq, hfails, hsocks⟩ := exec_calls server calls
  refine ⟨q, hq, hfails, hsocks, fun addrs ssl => ?_⟩
  rw [bind_eq, hfails]
  split
  · rename_i h
    exact iff_of_true rfl h
  · rename_i h
    exact iff_of_false Bool.false_ne_true h

end TcpServer
end Network
end Hpgs
