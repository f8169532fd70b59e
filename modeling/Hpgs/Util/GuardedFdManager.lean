import Hpgs.Concurrency.ScopedLocks
import Hpgs.Library.Counting
import Hpgs.Util.FdContexts

/-!
# The lock of `FdManager`

`get` and `del` by their statements, with the guards that they use.  Statements of any
threads are interleaved, and the lock is any that lets readers in together and writers
alone.

**Results.**
* `get_section`, `create_section`, `del_section`: what is done under a guard, as a whole.
* `code_guarded`: the table is read under a guard only, and written under a `WriteLock`.
* `step_represented`: a section of `get` or `del` is a step of `FdSys`.
* `fdManager_atomic`: runs of statements are runs of `FdSys`.
-/

namespace Hpgs
namespace Util

open Concurrency Locking Transition

/-! ## Definitions -/

/-- A call of `get`, with what the constructor of a new context finds, or of `del`. -/
inductive FdCall
  | get (fd : Int) (autoCreate : Bool) (fstat : Option Bool) (flags : BitVec 32)
  | del (fd : Int)
deriving DecidableEq

/-- Programs that use the table. -/
abbrev FdProg :=
  Prog Access FdManager

namespace FdProg

/-- `m_datas[fd]`. -/
def slot (fd : Int) : FdProg (Option Nat) :=
  .read fun m =>
    match m.slot fd with
    | none => .stuck
    | some ctx => .ret ctx

/-- `m_datas[fd] = ctx`. -/
def setSlot (fd : Int) (ctx : Option Nat) : FdProg PUnit := do
  let _ ← slot fd
  Prog.modify fun m => { m with datas := m.datas.set fd.toNat ctx }

/-- `new FdCtx(fd)`. -/
def newCtx (fd : Int) (fstat : Option Bool) (flags : BitVec 32) : FdProg Nat := do
  let ctx ← Prog.gets fun m => m.contexts.length
  Prog.modify fun m => { m with contexts := m.contexts ++ [(FdCtx.new fd fstat flags).1] }
  pure ctx

/-- `get` from its `WriteLock` on. -/
def create (fd : Int) (fstat : Option Bool) (flags : BitVec 32) : FdProg (Option Nat) :=
  WriteScopedLockImpl.block fun lock2 => do
    let ctx ← newCtx fd fstat flags
    let small ← Prog.gets fun m => decide (m.intSize ≤ fd)
    if small then
      Prog.modify fun m => { m with datas := FdManager.resize m.datas (fd.toNat * 3 / 2) }
    setSlot fd (some ctx)
    pure (lock2, some ctx)

/-- `FdManager::get`. -/
def get (fd : Int) (autoCreate : Bool) (fstat : Option Bool) (flags : BitVec 32) :
    FdProg (Option Nat) :=
  if fd = -1 then pure none
  else
    ReadScopedLockImpl.block fun lock => do
      let creates := do
        let lock ← lock.unlock
        let ctx ← create fd fstat flags
        pure (lock, ctx)
      let small ← Prog.gets fun m => decide (m.intSize ≤ fd)
      if small then
        if autoCreate then creates else pure (lock, none)
      else
        let ctx ← slot fd
        if ctx.isSome || !autoCreate then
          let ctx ← slot fd
          pure (lock, ctx)
        else creates

/-- `FdManager::del`. -/
def del (fd : Int) : FdProg (Option Nat) :=
  WriteScopedLockImpl.block fun lock => do
    let small ← Prog.gets fun m => decide (m.intSize ≤ fd)
    if small then pure (lock, none)
    else
      setSlot fd none
      pure (lock, none)

end FdProg

def FdCall.code : FdCall → FdProg (Option Nat)
  | .get fd autoCreate fstat flags => .get fd autoCreate fstat flags
  | .del fd => .del fd

/-- What a call that returns `r` adds to the history. -/
def FdCall.events : FdCall → Option Nat → List FdEvent
  | .get fd _ _ _, some c => [.got fd c]
  | .get _ _ _ _, none => []
  | .del fd, _ => [.del fd]

/-! ## Sections -/

namespace FdProg

variable (fd : Int)

/-- There is a slot for a descriptor that is no larger than the table. -/
theorem slot_bind {β : Type} (m : FdManager) (x : Option β) :
    ((m.slot fd).bind fun _ => x) =
      if 0 ≤ fd ∧ fd.toNat < m.datas.length then x else none := by
  by_cases hin : 0 ≤ fd ∧ fd.toNat < m.datas.length
  · rw [if_pos hin, FdManager.slot_of_nonneg hin.1, List.getElem?_eq_getElem hin.2]
    rfl
  · rw [if_neg hin, Option.bind_eq_none_iff]
    intro ctx hslot
    have hpos := FdManager.nonneg_of_slot hslot
    rw [FdManager.slot_of_nonneg hpos] at hslot
    exact absurd ⟨hpos, (List.getElem?_eq_some_iff.mp hslot).1⟩ hin

/-- A slot is set in a section. -/
theorem setSlot_section (ctx : Option Nat) (k : PUnit → FdProg (Option Nat)) (m : FdManager) :
    ((setSlot fd ctx).andThen k).runSection m =
      (m.slot fd).bind fun _ =>
        (k ⟨⟩).runSection { m with datas := m.datas.set fd.toNat ctx } := by
  simp only [setSlot, slot, bind, Prog.andThen, Prog.runSection]
  cases m.slot fd <;> rfl

theorem create_section (fstat : Option Bool) (flags : BitVec 32) :
    ∃ rest, create fd fstat flags = .acquire .exclusive rest ∧
      ∀ m, rest.runSection m =
        (m.create fd fstat flags).map fun x => (x.2, .ret (some x.1)) := by
  refine ⟨_, rfl, fun m => ?_⟩
  simp only [Prog.runSection, newCtx, Prog.gets, Prog.modify, bind, pure, Prog.andThen]
  unfold FdManager.create
  split
  · rename_i hsmall
    have henlarged : m.enlarged fd = FdManager.resize m.datas (fd.toNat * 3 / 2) :=
      if_pos (of_decide_eq_true hsmall)
    rw [Prog.andThen, Prog.runSection, Prog.andThen_assoc, setSlot_section, slot_bind, henlarged]
    split <;> rfl
  · rename_i hlarge
    have henlarged : m.enlarged fd = m.datas :=
      if_neg fun hsmall => hlarge (decide_eq_true hsmall)
    rw [Prog.andThen_assoc, setSlot_section, slot_bind, henlarged]
    split <;> rfl

/-- `get` behind the end of its `ReadLock`. -/
theorem unlocked_section (fstat : Option Bool) (flags : BitVec 32) (m : FdManager) :
    ((({ mode := Access.shared, locked := true } : ScopedGuard Access).unlock.andThen fun lock =>
        (create fd fstat flags).andThen fun ctx => Prog.ret (lock, ctx)).andThen fun x =>
          x.1.destroy.andThen fun _ => Prog.ret x.2).runSection m =
      some (m, create fd fstat flags) := by
  simp only [ScopedGuard.unlock, if_true, Prog.andThen, pure, Prog.runSection,
    Prog.andThen_assoc]
  exact congrArg (fun p => some (m, p)) (Prog.andThen_ret _)

theorem get_section (hfd : fd ≠ -1) (autoCreate : Bool) (fstat : Option Bool)
    (flags : BitVec 32) :
    ∃ rest, get fd autoCreate fstat flags = .acquire .shared rest ∧
      ∀ m, rest.runSection m =
        match m.lookup fd autoCreate with
        | .returns ctx => some (m, .ret ctx)
        | .creates => some (m, create fd fstat flags)
        | .outOfBounds => none := by
  refine ⟨_, if_neg hfd, fun m => ?_⟩
  simp only [Prog.runSection, Prog.gets, bind, pure, Prog.andThen, slot]
  unfold FdManager.lookup
  rw [if_neg hfd]
  by_cases hsmall : m.intSize ≤ fd
  · rw [if_pos (decide_eq_true hsmall), if_pos hsmall]
    cases autoCreate with
    | false => rfl
    | true => exact unlocked_section fd fstat flags m
  · rw [if_neg (by simpa using hsmall), if_neg hsmall]
    simp only [Prog.andThen, Prog.runSection]
    cases hslot : m.slot fd with
    | none => rfl
    | some ctx =>
        simp only [Prog.andThen]
        by_cases hfound : (ctx.isSome || !autoCreate) = true
        · rw [if_pos hfound, if_pos hfound]
          simp only [Prog.andThen, Prog.runSection, hslot]
          rfl
        · rw [if_neg hfound, if_neg hfound]
          exact unlocked_section fd fstat flags m

theorem del_section :
    ∃ rest, del fd = .acquire .exclusive rest ∧
      ∀ m, rest.runSection m = (m.del fd).map fun m' => (m', .ret none) := by
  refine ⟨_, rfl, fun m => ?_⟩
  simp only [Prog.runSection, Prog.gets, bind, pure, Prog.andThen]
  unfold FdManager.del
  split
  · rename_i hsmall
    rw [if_pos (of_decide_eq_true hsmall)]
    rfl
  · rename_i hlarge
    rw [if_neg fun hsmall => hlarge (decide_eq_true hsmall), Prog.andThen_assoc, setSlot_section]
    cases m.slot fd <;> rfl

/-! ## Guards -/

theorem slot_guarded {a : Access} :
    (slot fd).Guarded id (some a) fun _ => some a := by
  refine ⟨Option.some_ne_none _, fun m => ?_⟩
  dsimp only
  cases m.slot fd with
  | none => trivial
  | some ctx => exact rfl

theorem setSlot_guarded (ctx : Option Nat) :
    (setSlot fd ctx).Guarded id (some .exclusive) fun _ => some .exclusive :=
  (slot_guarded fd).bind fun _ => Prog.modify_guarded _

theorem create_guarded (fstat : Option Bool) (flags : BitVec 32) :
    (create fd fstat flags).Guarded id none fun _ => none := by
  have hnew : (newCtx fd fstat flags).Guarded id (some .exclusive) fun _ => some .exclusive :=
    (Prog.gets_guarded _).bind fun ctx => (Prog.modify_guarded _).bind fun _ => rfl
  have hset : ∀ ctx, (setSlot fd (some ctx) >>= fun _ =>
      (pure (⟨.exclusive, true⟩, some ctx) : FdProg (ScopedGuard Access × Option Nat))).Guarded id
        (some .exclusive) fun x => x.1.held id :=
    fun ctx => (setSlot_guarded fd _).bind fun _ => rfl
  refine ScopedGuard.block_guarded (hnew.bind fun ctx => (Prog.gets_guarded _).bind fun small => ?_)
  cases small with
  | false => exact hset ctx
  | true => exact (Prog.modify_guarded _).bind fun _ => hset ctx

theorem get_guarded (autoCreate : Bool) (fstat : Option Bool) (flags : BitVec 32) :
    (get fd autoCreate fstat flags).Guarded id none fun _ => none := by
  have hcreates : ((ScopedGuard.unlock ⟨.shared, true⟩ >>= fun lock =>
      create fd fstat flags >>= fun ctx => pure (lock, ctx)) :
        FdProg (ScopedGuard Access × Option Nat)).Guarded id (some .shared)
          fun x => x.1.held id :=
    ⟨Option.some_ne_none _, (create_guarded fd fstat flags).bind fun _ => rfl⟩
  unfold get
  split
  · exact rfl
  · refine ScopedGuard.block_guarded ((Prog.gets_guarded _).bind fun small => ?_)
    cases small with
    | true =>
        cases autoCreate with
        | false => exact rfl
        | true => exact hcreates
    | false =>
        refine (slot_guarded fd).bind fun ctx => ?_
        split
        · exact (slot_guarded fd).bind fun _ => rfl
        · exact hcreates

theorem del_guarded : (del fd).Guarded id none fun _ => none := by
  refine ScopedGuard.block_guarded ((Prog.gets_guarded _).bind fun small => ?_)
  cases small with
  | true => exact rfl
  | false => exact (setSlot_guarded fd none).bind fun _ => rfl

end FdProg

theorem FdCall.code_guarded (c : FdCall) :
    c.code.Guarded id none fun _ => none := by
  cases c with
  | get fd autoCreate fstat flags => exact FdProg.get_guarded fd autoCreate fstat flags
  | del fd => exact FdProg.del_guarded fd

/-! ## Sections are steps -/

/-- What runs of whole sections go through. -/
abbrev FdSections :=
  Sections Nat Access FdManager FdCall (Option Nat)

namespace FdSections

/-- What a thread that is about to return adds to the history. -/
def pending : Option (FdCall × FdProg (Option Nat)) → Multiset FdEvent
  | some (c, .ret r) => c.events r
  | _ => 0

/-- Where a thread is between two sections, and what it is about to create a context for. -/
inductive AtSection : Option (FdCall × FdProg (Option Nat)) → Option Int → Prop
  | idle : AtSection none none
  | start (c : FdCall) : AtSection (some (c, c.code)) none
  | creating (fd : Int) (autoCreate : Bool) (fstat : Option Bool) (flags : BitVec 32) :
      AtSection (some (.get fd autoCreate fstat flags, FdProg.create fd fstat flags)) (some fd)
  | done (c : FdCall) (r : Option Nat) : AtSection (some (c, .ret r)) none

/-- The history is that of the calls that have returned or are about to. -/
def Recorded (history : List FdEvent) (returned : List (Nat × FdCall × Option Nat))
    (running : Nat → Option (FdCall × FdProg (Option Nat))) : Prop :=
  ∃ threads : Finset Nat, (∀ t, running t ≠ none → t ∈ threads) ∧
    (history : Multiset FdEvent) = (returned.flatMap fun x => x.2.1.events x.2.2 : List FdEvent) +
      ∑ t ∈ threads, pending (running t)

structure Represents (g : FdSections) (s : FdSys) : Prop where
  mgr : s.mgr = g.data
  thread : ∀ t, AtSection (g.running t) (s.creating t)
  recorded : Recorded s.history g.returned g.running

variable {g g' : FdSections} {s s' : FdSys} {t : Nat}

/-- A thread moves: what it adds to the history is what it returns and is about to. -/
theorem Recorded.moved {history new : List FdEvent}
    {returned ret : List (Nat × FdCall × Option Nat)}
    {running : Nat → Option (FdCall × FdProg (Option Nat))}
    {x : Option (FdCall × FdProg (Option Nat))} (h : Recorded history returned running)
    (hnew : (new : Multiset FdEvent) + pending (running t) =
      (ret.flatMap fun x => x.2.1.events x.2.2 : List FdEvent) + pending x) :
    Recorded (history ++ new) (returned ++ ret) (Function.update running t x) := by
  obtain ⟨threads, hmem, hhist⟩ := h
  refine ⟨insert t threads, ?_, ?_⟩
  · intro u hu
    by_cases hut : u = t
    · rw [hut]
      exact Finset.mem_insert_self _ _
    · rw [Function.update_of_ne hut] at hu
      exact Finset.mem_insert_of_mem (hmem u hu)
  · have hsum : ∑ u ∈ insert t threads, pending (running u) =
        ∑ u ∈ threads, pending (running u) := by
      refine Finset.sum_insert_of_eq_zero_if_notMem fun hnot => ?_
      rw [not_not.mp fun hne => hnot (hmem t hne)]
      rfl
    have hupdate := Counting.sum_update (insert t threads) pending running
      (Finset.mem_insert_self t threads) x
    rw [hsum] at hupdate
    rw [← Multiset.coe_add, hhist, List.flatMap_append, ← Multiset.coe_add]
    apply add_right_cancel (b := pending (running t))
    rw [add_assoc, hnew, add_assoc _ _ (pending (running t)), hupdate]
    ac_rfl

/-- Only `t` moves. -/
theorem Represents.moved {x : Option (FdCall × FdProg (Option Nat))} {p : Option Int}
    (h : Represents g s) (t : Nat) (new : List FdEvent) (ret : List (Nat × FdCall × Option Nat))
    (hmgr : s'.mgr = g'.data) (hrunning : g'.running = Function.update g.running t x)
    (hcreating : s'.creating = Function.update s.creating t p) (hx : AtSection x p)
    (hhistory : s'.history = s.history ++ new) (hreturned : g'.returned = g.returned ++ ret)
    (hnew : (new : Multiset FdEvent) + pending (g.running t) =
      (ret.flatMap fun x => x.2.1.events x.2.2 : List FdEvent) + pending x) :
    Represents g' s' where
  mgr := hmgr
  thread := by
    intro u
    rw [hrunning, hcreating]
    by_cases hut : u = t
    · subst hut
      rw [Function.update_self, Function.update_self]
      exact hx
    · rw [Function.update_of_ne hut, Function.update_of_ne hut]
      exact h.thread u
  recorded := by
    rw [hhistory, hreturned, hrunning]
    exact h.recorded.moved hnew

/-- Nothing is returned at the start of a call, but for a descriptor that is none. -/
theorem pending_start (c : FdCall) : pending (some (c, c.code)) = 0 := by
  cases c with
  | get fd autoCreate fstat flags =>
      by_cases hfd : fd = -1
      · have hcode : (FdCall.get fd autoCreate fstat flags).code = .ret none := if_pos hfd
        rw [hcode]
        rfl
      · obtain ⟨rest, hcode, _⟩ := FdProg.get_section fd hfd autoCreate fstat flags
        rw [FdCall.code, hcode]
        rfl
  | del fd => rfl

/-- A call starts. -/
theorem Represents.call {c : FdCall} (h : Represents g s)
    (hst : g.step FdCall.code (.call t c) = some g') : Represents g' s := by
  have hthread := h.thread t
  cases hrun : g.running t with
  | some x => simp [Sections.step, hrun] at hst
  | none =>
      simp only [Sections.step, hrun, Option.some.injEq] at hst
      subst hst
      rw [hrun] at hthread
      generalize hc : s.creating t = p at hthread
      cases hthread with
      | idle =>
          refine h.moved t [] [] h.mgr rfl ?_ (.start c) ?_ ?_ ?_
          · rw [← hc, Function.update_eq_self]
          · rw [List.append_nil]
          · rw [List.append_nil]
          · rw [hrun, pending_start]
            rfl

/-- A call returns. -/
theorem Represents.ret {c : FdCall} {r : Option Nat} (h : Represents g s)
    (hrun : g.running t = some (c, .ret r)) (hst : g.next t = some g') : Represents g' s := by
  have hthread := h.thread t
  simp only [Sections.next, hrun, Option.some.injEq] at hst
  subst hst
  have hnone : s.creating t = none := by
    rw [hrun] at hthread
    generalize s.creating t = p at hthread
    generalize hx : some (c, Prog.ret r) = x at hthread
    cases hthread with
    | idle => cases hx
    | start c => rfl
    | creating fd autoCreate fstat flags =>
        obtain ⟨rest, hcode, _⟩ := FdProg.create_section fd fstat flags
        rw [hcode] at hx
        cases hx
    | done c r => rfl
  refine h.moved t [] [(t, c, r)] h.mgr rfl ?_ .idle ?_ rfl ?_
  · rw [← hnone, Function.update_eq_self]
  · rw [List.append_nil]
  · rw [hrun, List.flatMap_singleton]
    exact add_comm _ _

/-- The first section of `get`. -/
theorem Represents.lookup {fd : Int} {autoCreate : Bool} {fstat : Option Bool}
    {flags : BitVec 32} (h : Represents g s) (hfd : fd ≠ -1) (hnone : s.creating t = none)
    (hrun : g.running t = some (.get fd autoCreate fstat flags,
      FdProg.get fd autoCreate fstat flags)) (hst : g.next t = some g') :
    ∃ s', s.step (.lookup t fd autoCreate) = some s' ∧ Represents g' s' := by
  obtain ⟨rest, hcode, hsection⟩ := FdProg.get_section fd hfd autoCreate fstat flags
  rw [hcode] at hrun
  obtain ⟨d, rest', hd, rfl⟩ := Sections.of_next_acquire hrun hst
  have hpending : pending (g.running t) = 0 := by
    rw [hrun]
    rfl
  have hcreating : s.creating = Function.update s.creating t none := by
    rw [← hnone, Function.update_eq_self]
  rw [hsection] at hd
  simp only [FdSys.step, hnone, FdSys.lookup, h.mgr]
  cases hlook : g.data.lookup fd autoCreate with
  | outOfBounds =>
      rw [hlook] at hd
      cases hd
  | returns ctx =>
      rw [hlook] at hd
      cases hd
      cases ctx with
      | none =>
          refine ⟨s, rfl, h.moved t [] [] h.mgr rfl hcreating (.done _ _) ?_ ?_ ?_⟩
          · rw [List.append_nil]
          · rw [List.append_nil]
          · rw [hpending]
            rfl
      | some c =>
          refine ⟨_, rfl, h.moved t [.got fd c] [] rfl rfl hcreating (.done _ _) rfl ?_ ?_⟩
          · rw [List.append_nil]
          · rw [hpending]
            rfl
  | creates =>
      rw [hlook] at hd
      cases hd
      refine ⟨_, rfl, h.moved t [] [] rfl rfl rfl (.creating fd autoCreate fstat flags) ?_ ?_ ?_⟩
      · rw [List.append_nil]
      · rw [List.append_nil]
      · rw [hpending]
        rfl

/-- The second section of `get`. -/
theorem Represents.create {fd : Int} {autoCreate : Bool} {fstat : Option Bool}
    {flags : BitVec 32} (h : Represents g s) (hfd : s.creating t = some fd)
    (hrun : g.running t = some (.get fd autoCreate fstat flags,
      FdProg.create fd fstat flags)) (hst : g.next t = some g') :
    ∃ s', s.step (.create t fstat flags) = some s' ∧ Represents g' s' := by
  obtain ⟨rest, hcode, hsection⟩ := FdProg.create_section fd fstat flags
  rw [hcode] at hrun
  obtain ⟨d, rest', hd, rfl⟩ := Sections.of_next_acquire hrun hst
  have hpending : pending (g.running t) = 0 := by
    rw [hrun]
    rfl
  rw [hsection] at hd
  obtain ⟨⟨c, m⟩, hcreate, heq⟩ := Option.map_eq_some_iff.mp hd
  cases heq
  simp only [FdSys.step, hfd, FdSys.create, h.mgr, hcreate]
  refine ⟨_, rfl, h.moved t [.got fd c] [] rfl rfl rfl (.done _ _) rfl ?_ ?_⟩
  · rw [List.append_nil]
  · rw [hpending]
    rfl

/-- The section of `del`. -/
theorem Represents.del {fd : Int} (h : Represents g s) (hnone : s.creating t = none)
    (hrun : g.running t = some (.del fd, FdProg.del fd)) (hst : g.next t = some g') :
    ∃ s', s.step (.del t fd) = some s' ∧ Represents g' s' := by
  obtain ⟨rest, hcode, hsection⟩ := FdProg.del_section fd
  rw [hcode] at hrun
  obtain ⟨d, rest', hd, rfl⟩ := Sections.of_next_acquire hrun hst
  have hpending : pending (g.running t) = 0 := by
    rw [hrun]
    rfl
  rw [hsection] at hd
  obtain ⟨m, hdel, heq⟩ := Option.map_eq_some_iff.mp hd
  cases heq
  simp only [FdSys.step, hnone, h.mgr, hdel, Option.map_some]
  refine ⟨_, rfl, h.moved t [.del fd] [] rfl rfl ?_ (.done _ _) rfl ?_ ?_⟩
  · rw [← hnone, Function.update_eq_self]
  · rw [List.append_nil]
  · rw [hpending]
    rfl

/-- **Step lemma.**  A section is a step of `FdSys`; where a call starts or returns, `FdSys`
stays. -/
theorem step_represented {a : Move Nat FdCall} (h : Represents g s)
    (hst : g.step FdCall.code a = some g') :
    Represents g' s ∨ ∃ b s', s.step b = some s' ∧ Represents g' s' := by
  cases a with
  | call t c => exact Or.inl (h.call hst)
  | next t =>
      change g.next t = some g' at hst
      have hthread := h.thread t
      generalize hrun : g.running t = x at hthread
      generalize hcreating : s.creating t = p at hthread
      cases hthread with
      | idle => simp [Sections.next, hrun] at hst
      | start c =>
          cases c with
          | get fd autoCreate fstat flags =>
              by_cases hfd : fd = -1
              · have hcode : (FdCall.get fd autoCreate fstat flags).code = .ret none := if_pos hfd
                rw [hcode] at hrun
                exact Or.inl (h.ret hrun hst)
              · exact Or.inr ⟨_, h.lookup hfd hcreating hrun hst⟩
          | del fd => exact Or.inr ⟨_, h.del hcreating hrun hst⟩
      | creating fd autoCreate fstat flags => exact Or.inr ⟨_, h.create hcreating hrun hst⟩
      | done c r => exact Or.inl (h.ret hrun hst)

theorem start_represented : Represents (Sections.start .new) FdSys.start where
  mgr := rfl
  thread := fun _ => .idle
  recorded := ⟨∅, fun _ h => absurd rfl h, rfl⟩

end FdSections

/-! ## Statements -/

section Statements

variable {σ : Type} {L : Lock Access σ}

/-- Nobody returns in the middle of a section. -/
theorem pending_of_follows {d d' : FdManager} {held : Option Access}
    {x y : Option (FdCall × FdProg (Option Nat))} (h : Follows L d d' held x y) :
    FdSections.pending x = FdSections.pending y ∧ (x = none ↔ y = none) := by
  cases h with
  | idle => exact ⟨rfl, Iff.rfl⟩
  | outside hp => exact ⟨rfl, Iff.rfl⟩
  | @inside c m p q hp hq =>
      refine ⟨?_, by simp⟩
      cases p with
      | ret r => cases hp
      | _ => rfl

/-- **Statements are as good as sections.**  In every run of the statements of any calls of
`get` and `del`: nobody holds the lock beside a writer, who releases it holds it, a thread
between two calls does not, and a lock that nobody holds can be taken; and there is a run of
`FdSys`, whose steps are whole sections, with the same results and, while nobody writes, the
same table. -/
theorem fdManager_atomic (hL : L.access = id)
    {f : Threads Nat Access σ FdManager FdCall (Option Nat)}
    (h : (Threads.system L FdCall.code .new).Reachable anyStep f) :
    (∀ t u a b, f.holding t = some a → f.holding u = some b → t ≠ u →
        a = .shared ∧ b = .shared) ∧
      (∀ t c rest, f.running t = some (c, .release rest) → f.holding t ≠ none) ∧
      (∀ t, f.running t = none → f.holding t = none) ∧
      ((∀ t, f.holding t = none) → ∀ m, (L.attempt m f.mutex).2 = true) ∧
      ∃ s, FdSys.system.Reachable anyStep s ∧
        ((∀ t, f.holding t ≠ some .exclusive) → s.mgr = f.data) ∧
        FdSections.Recorded s.history f.returned f.running := by
  have hcode : ∀ c : FdCall, c.code.Guarded L.access none fun _ => none := by
    rw [hL]
    exact FdCall.code_guarded
  obtain ⟨g, hg, hmatch⟩ := sections_atomic (L := L) hcode h
  obtain ⟨s, hs, hrep⟩ : ∃ s, FdSys.system.Reachable anyStep s ∧ FdSections.Represents g s := by
    refine hg.simulated FdSections.Represents ?_ ?_
    · rintro g rfl
      exact ⟨FdSys.start, ⟨_, rfl, .refl⟩, FdSections.start_represented⟩
    · intro g a g' s _ _ hrep _ hst
      rcases FdSections.step_represented hrep hst with hrep' | ⟨b, s', hs', hrep'⟩
      · exact ⟨s, .refl, hrep'⟩
      · exact ⟨s', .step .refl trivial hs', hrep'⟩
  refine ⟨fun t u a b ht hu hne => hmatch.occupied.apart ht hu hne,
    fun t c rest hrelease => hmatch.holding_of_release hrelease,
    fun t hidle => hmatch.holding_of_idle hidle,
    fun hnobody m => L.attempt_free m (hmatch.occupied.free_iff.mpr hnobody),
    s, hs, fun hnobody => hrep.mgr.trans (hmatch.data hnobody), ?_⟩
  obtain ⟨threads, hmem, hhist⟩ := hrep.recorded
  refine ⟨threads, fun t ht => hmem t fun hnone => ht ?_, ?_⟩
  · exact (pending_of_follows (hmatch.thread t)).2.mpr hnone
  · rw [hhist, hmatch.returned]
    exact congrArg _ (Finset.sum_congr rfl fun t _ => (pending_of_follows (hmatch.thread t)).1.symm)

/-- A thread creates a context, while another one looks for it. -/
def lookedFor : List (Move Nat FdCall) :=
  [.call 0 (.get 5 true (some true) 2), .next 0, .call 1 (.get 5 false none 0), .next 0, .next 1,
    .next 0, .next 0, .next 0, .next 1, .next 1, .next 1, .next 1, .next 0, .next 0, .next 0,
    .next 0, .next 0, .next 0, .next 1, .next 0, .next 0]

theorem fdManager_atomic_lookedFor :
    ∃ f, (Threads.system pthreadRwlock FdCall.code .new).exec
        (Threads.start pthreadRwlock .new) lookedFor = some f ∧
      f.returned = [(1, .get 5 false none 0, none), (0, .get 5 true (some true) 2, some 0)] ∧
      ∃ s, FdSys.system.Reachable anyStep s ∧
        ((∀ t, f.holding t ≠ some .exclusive) → s.mgr = f.data) ∧
        FdSections.Recorded s.history f.returned f.running := by
  have hrun : ((Threads.system pthreadRwlock FdCall.code .new).exec
      (Threads.start pthreadRwlock .new) lookedFor).map Threads.returned =
        some [(1, .get 5 false none 0, none), (0, .get 5 true (some true) 2, some 0)] := by
    decide
  obtain ⟨f, hf, hreturned⟩ := Option.map_eq_some_iff.mp hrun
  exact ⟨f, hf, hreturned,
    (fdManager_atomic (L := pthreadRwlock) rfl (System.exec_reachable rfl hf)).2.2.2.2⟩

end Statements

end Util
end Hpgs
