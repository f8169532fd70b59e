import Hpgs.Concurrency.SchedulerQueue

/-!
# The order of the task queue

The scan of `Scheduler::run` passes over an entry that is bound to another thread, and
over a fibre that is executing.  A callback is never executing, so a worker that it is
not bound away from cannot pass over it.

**Results.**
* `inOrder_of_reachable`: no worker takes an entry before a callback that was pushed
  earlier and that it could take.
* `callback_waits`: while a callback is queued, the workers that could take it take no
  more entries than were ahead of it.
-/

namespace Hpgs
namespace Concurrency

open Counting Transition

namespace Logged

variable {n m : Nat}

/-- A callback that the worker could take. -/
def MustRun (it : FibreAndThread) (w : Fin n) : Prop :=
  (∃ c, it.task = .cb c) ∧ Fits it w

instance (it : FibreAndThread) (w : Fin n) : Decidable (Fits it w) :=
  inferInstanceAs (Decidable (_ ∨ _))

theorem MustRun.eligible {it : FibreAndThread} {w : Fin n} (h : MustRun it w)
    (state : Nat → State) : it.Eligible state w := by
  obtain ⟨⟨c, hc⟩, hfits⟩ := h
  exact ⟨hfits, by rw [hc]; rfl⟩

/-- What a step does to the ledger. -/
inductive LedgerStep (s : Logged n m) : Logged n m → Prop
  | push {t : Logged n m} (new : List FibreAndThread) :
      t.history.ledger = s.history.ledger.push new →
      LedgerStep s t
  | take {t : Logged n m} {w : Fin n} {it : FibreAndThread} {pre post : List FibreAndThread} :
      s.sys.fibres = pre ++ it :: post →
      it.Eligible s.sys.state w →
      (∀ x ∈ pre, ¬ x.Eligible s.sys.state w) →
      t.history.ledger = s.history.ledger.take pre.length w →
      LedgerStep s t

theorem ledger_step {s t : Logged n m} {a : Label n m} (hst : s.step a = some t) :
    LedgerStep s t := by
  obtain ⟨t', hst', rfl⟩ := Option.map_eq_some_iff.mp hst
  cases Sys.step_kind hst' with
  | @takes w it t' hpc hdeq hcount hworker =>
      obtain ⟨pre, post, hq, hleft, hit, hpre⟩ := hdeq
      refine .take hq hit hpre ?_
      simp only [record, hpc, findIdx_dequeued hq hit hpre]
      rfl
  | @gives w pc t' hat hfibres hcount hworker hpc =>
      refine .push [] ?_
      unfold Sys.AtDecrement at hat
      unfold record
      cases hp : (s.sys.worker w).pc <;>
        simp [hp, QueueHistory.release, Counting.Ledger.push] at hat ⊢
  | @other a t' hnext hfibres hcount hactive =>
      refine .push (s.sys.appended a) ?_
      rw [record_other hnext]
      rfl

/-- No worker takes an entry before a callback that was pushed earlier and that it could
take. -/
theorem inOrder_of_reachable {s : Logged n m} (h : (system n m).Reachable anyStep s) :
    s.history.ledger.InOrder MustRun := by
  have hinv : (system n m).Reachable anyStep s ∧ s.history.ledger.InOrder MustRun := by
    refine h.invariant
      (fun s => (system n m).Reachable anyStep s ∧ s.history.ledger.InOrder MustRun) ?_ ?_
    · intro s hs
      refine ⟨⟨s, hs, .refl⟩, ?_⟩
      rw [hs.2]
      exact Ledger.InOrder.start
    · rintro s a t ⟨hr, ho⟩ _ hst
      refine ⟨hr.step trivial hst, ?_⟩
      have hacc := (conserved_of_reachable hr).accounts
      cases ledger_step hst with
      | push new hledger =>
          rw [hledger]
          exact ho.push hacc new
      | @take w it pre post hq hit hpre hledger =>
          rw [hledger]
          rw [hq] at hacc
          exact ho.take hacc hit.1 fun x hx hmust => hpre x hx (hmust.eligible _)
  exact hinv.2

/-! ## Waiting -/

/-- From `s` to `t` the entries `later` are taken. -/
structure Later (i : Nat) (s t : Logged n m) (later : List (Nat × Fin n)) : Prop where
  taken : t.history.ledger.taken = s.history.ledger.taken ++ later
  ahead : (later.countP fun x => x.1 < i) + t.history.ledger.ahead i =
    s.history.ledger.ahead i
  pushed : ∃ new, t.history.ledger.pushed = s.history.ledger.pushed ++ new

theorem later_of_reaches {s t : Logged n m} (h : (system n m).Reachable anyStep s)
    (hst : (system n m).Reaches anyStep s t) {i : Nat}
    (hi : i < s.history.ledger.pushed.length) :
    ∃ later, Later i s t later := by
  induction hst with
  | refl => exact ⟨[], by simp, by simp, [], by simp⟩
  | @step u v a hsu _ huv ih =>
      obtain ⟨later, hlater⟩ := ih
      obtain ⟨new, hnew⟩ := hlater.pushed
      have hacc := (conserved_of_reachable (h.reaches hsu)).accounts
      cases ledger_step huv with
      | push more hledger =>
          refine ⟨later, ?_, ?_, new ++ more, ?_⟩
          · rw [hledger]
            exact hlater.taken
          · rw [hledger, Ledger.ahead_push more (by rw [hnew, List.length_append]; omega)]
            exact hlater.ahead
          · rw [hledger, Ledger.push, hnew, List.append_assoc]
      | @take w it pre post hq hit hpre hledger =>
          rw [hq] at hacc
          obtain ⟨j, hget, _, htaken, _⟩ := hacc.take (o := w) hit.1
          have hone := Ledger.ahead_take (i := i) (o := w) hget
          have hahead := hlater.ahead
          refine ⟨later ++ [(j, w)], ?_, ?_, new, ?_⟩
          · rw [hledger, htaken, hlater.taken, List.append_assoc]
          · rw [hledger, List.countP_append, List.countP_singleton]
            simp only [decide_eq_true_eq]
            omega
          · rw [hledger, Ledger.take, hget]
            exact hnew

end Logged

open Logged

/-- **Bounded waiting.**  While a callback is queued, every entry that a worker takes
though it could take the callback was ahead of it; so these workers take no more entries
than were ahead of it at first. -/
theorem callback_waits {n m : Nat} {s t : Logged n m}
    (h : (Logged.system n m).Reachable anyStep s)
    (hst : (Logged.system n m).Reaches anyStep s t) {i c : Nat} {pin : Option Nat}
    (hi : s.history.ledger.pushed[i]? = some ⟨.cb c, pin⟩)
    (hqueued : i ∈ t.history.ledger.queued) :
    ∃ later, t.history.ledger.taken = s.history.ledger.taken ++ later ∧
      (∀ x ∈ later, Fits ⟨.cb c, pin⟩ x.2 → x.1 < i) ∧
      (later.countP fun x => Fits ⟨.cb c, pin⟩ x.2) + t.history.ledger.ahead i ≤
        s.history.ledger.ahead i := by
  have hlen := (List.getElem?_eq_some_iff.mp hi).1
  obtain ⟨later, htaken, hahead, new, hpushed⟩ := later_of_reaches h hst hlen
  have hacc := (conserved_of_reachable (h.reaches hst)).accounts
  -- a number that is still queued has not been taken
  have hnot : i ∉ t.history.ledger.taken.map Prod.fst := by
    intro hmem
    have honce := hacc.once i
    have hone := List.count_pos_iff.mpr hqueued
    have hone' := List.count_pos_iff.mpr hmem
    split at honce <;> omega
  have hless : ∀ x ∈ later, Fits ⟨.cb c, pin⟩ x.2 → x.1 < i := by
    intro x hx hfits
    obtain ⟨j, w⟩ := x
    by_contra hge
    have hmem : (j, w) ∈ t.history.ledger.taken := by
      rw [htaken]
      exact List.mem_append_right _ hx
    rcases Nat.lt_or_eq_of_le (Nat.le_of_not_lt hge) with hlt | heq
    · obtain ⟨before, after, hsplit⟩ := List.append_of_mem hmem
      have hentry : t.history.ledger.pushed[i]? = some ⟨.cb c, pin⟩ := by
        rw [hpushed, List.getElem?_append_left hlen, hi]
      have hin := inOrder_of_reachable (h.reaches hst) before after j w hsplit i _ hlt hentry
        ⟨⟨c, rfl⟩, hfits⟩
      refine hnot ?_
      rw [hsplit, List.map_append]
      exact List.mem_append_left _ hin
    · exact hnot (heq ▸ List.mem_map_of_mem (f := Prod.fst) hmem)
  refine ⟨later, htaken, hless, ?_⟩
  have hle : (later.countP fun x => Fits ⟨.cb c, pin⟩ x.2) ≤ later.countP fun x => x.1 < i :=
    List.countP_mono_left fun x hx hfits =>
      decide_eq_true (hless x hx (of_decide_eq_true hfits))
  omega

/-- Two callbacks in a batch, of which a worker takes one. -/
def twoCallbacks : List (Label 1 1) :=
  [.external 0 (.scheduleAll [some (.cb 7), some (.cb 8)])]

theorem callback_waits_second :
    ∃ s t : Logged 1 1,
      (Logged.system 1 1).exec ⟨Sys.start 1 1 false, .start⟩ twoCallbacks = some s ∧
      (Logged.system 1 1).exec s [.next 0] = some t ∧
      ∃ later, t.history.ledger.taken = s.history.ledger.taken ++ later ∧
        (∀ x ∈ later, Fits ⟨.cb 8, none⟩ x.2 → x.1 < 1) ∧
        (later.countP fun x => Fits ⟨.cb 8, none⟩ x.2) + t.history.ledger.ahead 1 ≤
          s.history.ledger.ahead 1 := by
  have hrun : ((Logged.system 1 1).exec ⟨Sys.start 1 1 false, .start⟩ twoCallbacks).map
      (fun s => (s.history.ledger.pushed[1]?, ((Logged.system 1 1).exec s [.next 0]).map
        fun t => t.history.ledger.queued)) = some (some ⟨.cb 8, none⟩, some [1]) := by decide
  obtain ⟨s, hs, hseen⟩ := Option.map_eq_some_iff.mp hrun
  obtain ⟨hentry, hrest⟩ := Prod.mk.inj hseen
  obtain ⟨t, ht, hqueued⟩ := Option.map_eq_some_iff.mp hrest
  exact ⟨s, t, hs, ht,
    callback_waits (System.exec_reachable ⟨⟨by decide, false, rfl⟩, rfl⟩ hs)
      (System.exec_reaches ht) hentry (by rw [hqueued]; exact List.mem_singleton.mpr rfl)⟩

end Concurrency
end Hpgs
