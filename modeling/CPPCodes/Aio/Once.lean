import CPPCodes.Aio.Io
import CPPCodes.Lib.SwapRemove
import CPPCodes.Lib.Transition
import Mathlib.Data.List.Perm.Basic
import Mathlib.Data.List.Nodup
import Mathlib.Tactic.Common

/-!
# Every request is completed once

`inflight_` holds what the kernel has accepted and not handed over yet, and what it has rejected
(`Inv.held`). So no assert fails, and every accepted request is completed once with its own result.
A rejected one is never looked at again, and its promise never fulfilled: the requests are tracked
exactly in the runs in which the kernel accepts every submission (`exactlyOnce_iff`).
-/

namespace CPPCodes.Aio

open Transition

namespace AsyncIo

/-- What the kernel has accepted and `iosCompleted` has not handled yet. -/
def outstanding (s : AsyncIo) : List Iocb :=
  s.queued ++ s.ring.map IoEvent.obj ++ (s.events.getD []).map IoEvent.obj

structure Inv (s : AsyncIo) : Prop where
  held : (s.inflight.toList.map Io.getIocb).Perm (s.outstanding ++ s.rejected)
  accepted : s.accepted.Perm (s.outstanding ++ s.fulfilled.map Io.getIocb)
  completed : s.accepted.Perm (s.queued ++ s.completed.map IoEvent.obj)
  numbered : ((s.accepted ++ s.rejected).map Iocb.request).Perm
    (List.range (s.accepted.length + s.rejected.length))
  ptrs : (s.inflight.toList.map Io.ptr).Nodup
  fresh : ∀ t ∈ s.inflight.toList, t.fulfilled = false
  signals : s.ring.length = s.eventfd + s.unsignalled
  reported : ∀ ep ∈ s.ring ++ s.events.getD [], ep ∈ s.completed
  own : ∀ io ∈ s.fulfilled,
    io.fulfilled = true ∧ ∃ ep ∈ s.completed, ep.obj = io.getIocb ∧ io.result = ioResult ep
  returned : ∀ iocb ∈ s.accepted, (iocb, Future.promise iocb) ∈ s.returned

theorem Inv.init : Inv init where
  held := .refl _
  accepted := .refl _
  completed := .refl _
  numbered := .refl _
  ptrs := List.nodup_nil
  fresh := by simp [AsyncIo.init]
  signals := rfl
  reported := by simp [AsyncIo.init]
  own := by simp [AsyncIo.init]
  returned := by simp [AsyncIo.init]

/-- What is found in `inflight_` is moved out of it. -/
theorem takeOut_spec {inflight : Array Io} {iop : UInt64} (h : ∃ t ∈ inflight, t.ptr = iop) :
    ∃ t rest, takeOut inflight iop = (some t, rest) ∧ t.ptr = iop ∧
      inflight.toList.Perm (t :: rest.toList) := by
  unfold takeOut
  split
  next hnone =>
    obtain ⟨t, ht, hptr⟩ := h
    exact absurd (by simpa using hptr) (Array.findFinIdx?_eq_none_iff.1 hnone t ht)
  next it hit =>
    have hptr : inflight[it].ptr = iop := by simpa using (Array.findFinIdx?_eq_some_iff.1 hit).1
    have hlt := it.isLt
    split_ifs with hsize
    · refine ⟨inflight[it], _, ?_, hptr, SwapRemove.perm_pop_swap inflight it hlt⟩
      exact congrArg (·, _) (SwapRemove.back?_swap inflight it hlt)
    · have hback : inflight.back? = some inflight[it] := by
        rw [Array.back?_eq_getElem?, Array.getElem?_eq_getElem (by omega)]
        congr 1
        congr 1
        omega
      exact ⟨inflight[it], _, congrArg (·, _) hback, hptr, SwapRemove.perm_pop _ _ hback⟩

theorem Inv.mem_inflight {s : AsyncIo} (h : Inv s) {iocb : Iocb} (hmem : iocb ∈ s.outstanding) :
    ∃ t ∈ s.inflight.toList, t.getIocb = iocb := by
  have hheld := (h.held.mem_iff (a := iocb)).2 (List.mem_append_left _ hmem)
  simpa using hheld

/-- An event completes its own `IO`, and no assert fails. -/
theorem Inv.completeEvent {s : AsyncIo} (h : Inv s) {ep : IoEvent} {events : List IoEvent}
    (hevents : s.events = some (ep :: events)) :
    ∃ t rest, completeEvent { s with events := some events } ep = some { s with
        events := some events
        inflight := rest
        fulfilled := s.fulfilled ++ [{ t with result := ioResult ep, fulfilled := true }] } ∧
      t.getIocb = ep.obj ∧ s.inflight.toList.Perm (t :: rest.toList) := by
  have hmem : ep.obj ∈ s.outstanding := by simp [outstanding, hevents]
  obtain ⟨u, hu, hobj⟩ := h.mem_inflight hmem
  have huptr : u.ptr = ep.obj.data := by rw [← hobj]; rfl
  have hfound : ∃ t ∈ s.inflight, t.ptr = ep.obj.data := ⟨u, by simpa using hu, huptr⟩
  obtain ⟨t, rest, htake, hptr, hperm⟩ := takeOut_spec hfound
  have ht : t ∈ s.inflight.toList := hperm.mem_iff.2 (List.mem_cons_self ..)
  obtain rfl : t = u := List.inj_on_of_nodup_map h.ptrs ht hu (hptr.trans huptr.symm)
  refine ⟨t, rest, ?_, hobj, hperm⟩
  have hfresh := h.fresh t ht
  simp [AsyncIo.completeEvent, htake, hptr, Io.setResult, Io.completePromise, hfresh]

/-- Every counted event is in the ring, so `io_getevents` returns as many as were asked for. -/
theorem Inv.getEvents {s : AsyncIo} (h : Inv s) :
    s.getEvents = some (if s.eventfd = 0 then { s with events := none } else { s with
      eventfd := 0
      ring := s.ring.drop s.eventfd
      events := some (s.ring.take s.eventfd) }) := by
  have hsignals := h.signals
  unfold AsyncIo.getEvents
  split_ifs with hzero
  · rfl
  · rw [if_pos (by rw [List.length_take]; omega)]

theorem perm_concat {l as bs : List Iocb} (h : l.Perm (as ++ bs)) (iocb : Iocb) :
    (l ++ [iocb]).Perm (as ++ [iocb] ++ bs) := by
  rw [List.append_assoc, List.singleton_append]
  exact (List.perm_append_singleton iocb l).trans ((h.cons iocb).trans List.perm_middle.symm)

theorem perm_erase_concat {as : List Iocb} {iocb : Iocb} (h : iocb ∈ as) (bs : List Iocb) :
    (as.erase iocb ++ (bs ++ [iocb])).Perm (as ++ bs) := by
  rw [← List.append_assoc]
  exact (List.perm_append_singleton _ _).trans ((List.perm_cons_erase h).symm.append_right bs)

/-- The next request gets the next number. -/
theorem Inv.number {s : AsyncIo} (h : Inv s) {iocb : Iocb} {l : List Iocb} {n : ℕ}
    (hrequest : iocb.request = s.accepted.length + s.rejected.length)
    (hn : n = s.accepted.length + s.rejected.length + 1)
    (hl : l.Perm (s.accepted ++ s.rejected ++ [iocb])) :
    (l.map Iocb.request).Perm (List.range n) := by
  refine (hl.map _).trans ?_
  rw [hn, List.range_succ, List.map_append, List.map_singleton, hrequest]
  exact h.numbered.append_right _

theorem Inv.submit {s : AsyncIo} (h : Inv s) {io : Io} (accepts : Bool)
    (hptr : ∀ t ∈ s.inflight, t.ptr ≠ io.ptr) (hfresh : io.fulfilled = false)
    (hrequest : io.request = s.accepted.length + s.rejected.length) :
    Inv (s.submit io accepts) := by
  have hptrs : ((s.inflight.push io).toList.map Io.ptr).Nodup := by
    rw [Array.toList_push, List.map_append, List.map_singleton]
    refine List.Nodup.append h.ptrs (List.nodup_singleton _) ?_
    simpa using hptr
  have hall : ∀ t ∈ (s.inflight.push io).toList, t.fulfilled = false := by
    intro t ht
    rw [Array.toList_push] at ht
    rcases List.mem_append.1 ht with ht | ht
    · exact h.fresh t ht
    · rw [List.mem_singleton.1 ht, hfresh]
  have hheld := h.held
  have haccepted := h.accepted
  simp only [outstanding, List.append_assoc] at hheld haccepted
  cases accepts with
  | true =>
    refine ⟨?_, ?_, ?_, h.number (show io.getIocb.request = _ from hrequest) ?_ ?_, hptrs, hall,
      h.signals, h.reported, h.own, fun iocb hmem => ?_⟩
    · simpa [AsyncIo.submit, ioSubmit, outstanding] using perm_concat hheld io.getIocb
    · simpa [AsyncIo.submit, ioSubmit, outstanding] using perm_concat haccepted io.getIocb
    · exact perm_concat h.completed io.getIocb
    · simp only [AsyncIo.submit, ioSubmit, if_true, List.length_append, List.length_singleton]
      omega
    · exact (perm_concat (.refl _) io.getIocb).symm
    · simp only [AsyncIo.submit, ioSubmit, if_true] at hmem ⊢
      rcases List.mem_append.1 hmem with hmem | hmem
      · exact List.mem_append_left _ (h.returned iocb hmem)
      · rw [List.mem_singleton.1 hmem]
        exact List.mem_append_right _ (List.mem_singleton_self _)
  | false =>
    refine ⟨?_, h.accepted, h.completed, h.number (show io.getIocb.request = _ from hrequest) ?_ ?_,
      hptrs, hall, h.signals, h.reported, h.own,
      fun iocb hmem => List.mem_append_left _ (h.returned iocb hmem)⟩
    · simpa [AsyncIo.submit, ioSubmit, outstanding] using h.held.append_right [io.getIocb]
    · simp only [AsyncIo.submit, ioSubmit, Bool.false_eq_true, if_false, List.length_append,
        List.length_singleton]
      omega
    · exact .of_eq (List.append_assoc ..).symm

theorem Inv.complete {s : AsyncIo} (h : Inv s) {iocb : Iocb} (res res2 : UInt64)
    (hmem : iocb ∈ s.queued) :
    Inv { s with
      queued := s.queued.erase iocb
      ring := s.ring ++ [⟨iocb, res, res2⟩]
      unsignalled := s.unsignalled + 1
      completed := s.completed ++ [⟨iocb, res, res2⟩] } := by
  have hout : (s.queued.erase iocb ++
      (s.ring ++ [(⟨iocb, res, res2⟩ : IoEvent)]).map IoEvent.obj ++
      (s.events.getD []).map IoEvent.obj).Perm s.outstanding := by
    rw [List.map_append]
    exact (perm_erase_concat hmem _).append_right _
  refine ⟨h.held.trans (hout.symm.append_right _), h.accepted.trans (hout.symm.append_right _), ?_,
    h.numbered, h.ptrs, h.fresh, ?_, ?_, fun io hio => ?_, h.returned⟩
  · rw [List.map_append]
    exact h.completed.trans (perm_erase_concat hmem _).symm
  · have hsignals := h.signals
    simp only [List.length_append, List.length_singleton]
    omega
  · intro ep hep
    simp only [List.mem_append, List.mem_singleton] at hep ⊢
    rcases hep with (hep | hep) | hep
    · exact .inl (h.reported ep (List.mem_append_left _ hep))
    · exact .inr hep
    · exact .inl (h.reported ep (List.mem_append_right _ hep))
  · obtain ⟨hdone, ep, hep, hobj⟩ := h.own io hio
    exact ⟨hdone, ep, List.mem_append_left _ hep, hobj⟩

theorem Inv.signal {s : AsyncIo} (h : Inv s) {n : ℕ} (hn : s.unsignalled = n + 1) :
    Inv { s with unsignalled := n, eventfd := s.eventfd + 1 } := by
  have hsignals := h.signals
  exact ⟨h.held, h.accepted, h.completed, h.numbered, h.ptrs, h.fresh, by simp only; omega,
    h.reported, h.own, h.returned⟩

/-- The events that are still to be handled and those in the ring may change places. -/
theorem Inv.move {s : AsyncIo} (h : Inv s) {ring : List IoEvent} {eventfd : ℕ}
    {events : Option (List IoEvent)}
    (hperm : (ring ++ events.getD []).Perm (s.ring ++ s.events.getD []))
    (hlen : ring.length = eventfd + s.unsignalled) :
    Inv { s with ring, eventfd, events } := by
  have hout : (s.queued ++ ring.map IoEvent.obj ++ (events.getD []).map IoEvent.obj).Perm
      s.outstanding := by
    have := (hperm.map IoEvent.obj).append_left s.queued
    simpa only [outstanding, List.map_append, List.append_assoc] using this
  refine ⟨h.held.trans (hout.symm.append_right _), h.accepted.trans (hout.symm.append_right _),
    h.completed, h.numbered, h.ptrs, h.fresh, hlen, fun ep hep => ?_, h.own, h.returned⟩
  exact h.reported ep (hperm.mem_iff.1 hep)

theorem Inv.event {s t : AsyncIo} (h : Inv s) {ep : IoEvent} {events : List IoEvent}
    (hevents : s.events = some (ep :: events))
    (hs : AsyncIo.completeEvent { s with events := some events } ep = some t) : Inv t := by
  obtain ⟨io, rest, heq, hobj, hperm⟩ := h.completeEvent hevents
  obtain rfl := Option.some.inj (heq.symm.trans hs)
  have hout : s.outstanding.Perm (ep.obj ::
      (s.queued ++ s.ring.map IoEvent.obj ++ events.map IoEvent.obj)) := by
    have hmiddle : (s.queued ++ s.ring.map IoEvent.obj ++ ep.obj :: events.map IoEvent.obj).Perm
        (ep.obj :: (s.queued ++ s.ring.map IoEvent.obj ++ events.map IoEvent.obj)) :=
      List.perm_middle
    simpa [outstanding, hevents] using hmiddle
  refine ⟨?_, ?_, h.completed, h.numbered, ?_, fun u hu => ?_, h.signals, fun e he => ?_, ?_,
    h.returned⟩
  · have hheld := ((hperm.map Io.getIocb).symm.trans h.held).trans (hout.append_right _)
    rw [List.map_cons, hobj] at hheld
    exact hheld.cons_inv
  · have hkey : Io.getIocb { io with result := ioResult ep, fulfilled := true } = ep.obj := hobj
    rw [List.map_append, List.map_singleton, hkey, ← List.append_assoc]
    exact h.accepted.trans ((hout.append_right _).trans (List.perm_append_singleton _ _).symm)
  · exact ((hperm.map Io.ptr).nodup_iff.1 h.ptrs).of_cons
  · exact h.fresh u (hperm.mem_iff.2 (List.mem_cons_of_mem _ hu))
  · refine h.reported e ?_
    rw [hevents]
    exact (List.Sublist.append_left (List.sublist_cons_self ep events) s.ring).subset he
  · intro u hu
    rcases List.mem_append.1 hu with hu | hu
    · exact h.own u hu
    · rw [List.mem_singleton.1 hu]
      exact ⟨rfl, ep, h.reported ep (by simp [hevents]), hobj.symm, rfl⟩

theorem Inv.step {s t : AsyncIo} {act : Act} (h : Inv s) (hs : Step s act t) : Inv t := by
  cases hs with
  | submit accepts hptr hfresh hrequest => exact h.submit accepts hptr hfresh hrequest
  | complete res res2 hmem => exact h.complete res res2 hmem
  | signal hn => exact h.signal hn
  | handlerReady hnone hne => exact h.move (by simp [hnone]) h.signals
  | getEvents hnil heq =>
    have hsignals := h.signals
    rw [h.getEvents] at heq
    obtain rfl := Option.some.inj heq
    split_ifs with hzero
    · exact h.move (by simp [hnil]) h.signals
    · refine h.move ?_ (by rw [List.length_drop]; omega)
      simpa [hnil] using (List.perm_append_comm.trans (.of_eq (List.take_append_drop _ _)))
  | event hevents heq => exact h.event hevents heq

theorem Inv.runs {acts : List Act} {s : AsyncIo} (h : Runs Step AsyncIo.init acts s) : Inv s :=
  h.invariant (fun _ _ _ h hs => h.step hs) .init

def Act.IsSubmit : Act → Prop
  | .submit _ _ => True
  | _ => False

/-- How much is left to do before nothing is outstanding. -/
def work (s : AsyncIo) : ℕ :=
  10 * s.queued.length + 3 * s.unsignalled + 2 * s.ring.length +
    match s.events with
    | none => if s.eventfd = 0 then 0 else 2
    | some events => events.length + 1

/-- As long as something is outstanding, the kernel or `iosCompleted` can take a step. -/
theorem Inv.progress {s : AsyncIo} (h : Inv s) (hout : s.outstanding ≠ []) :
    ∃ act t, ¬ act.IsSubmit ∧ Step s act t ∧ t.accepted = s.accepted ∧ t.work < s.work := by
  have hsignals := h.signals
  rcases hevents : s.events with - | - | ⟨ep, events⟩
  · by_cases hzero : s.eventfd = 0
    · rcases hn : s.unsignalled with - | n
      · have hring : s.ring = [] := List.length_eq_zero_iff.1 (by omega)
        obtain ⟨iocb, queued, hqueued⟩ : ∃ iocb queued, s.queued = iocb :: queued :=
          List.exists_cons_of_ne_nil (by simpa [outstanding, hevents, hring] using hout)
        refine ⟨.complete iocb 0 0, _, id, .complete 0 0 (by simp [hqueued]), rfl, ?_⟩
        simp only [work, hqueued, hring, hevents, hzero, hn, List.erase_cons_head, List.length_cons,
          List.length_append, List.length_nil, if_true]
        omega
      · refine ⟨.signal, _, id, .signal hn, rfl, ?_⟩
        simp only [work, hevents, hzero, hn]
        split_ifs <;> omega
    · refine ⟨.handlerReady, _, id, .handlerReady hevents hzero, rfl, ?_⟩
      simp only [work, hevents, hzero, if_false, List.length_nil]
      omega
  · refine ⟨.getEvents, _, id, .getEvents hevents h.getEvents, by split_ifs <;> rfl, ?_⟩
    split_ifs with hzero
    · simp only [work, hevents, hzero, if_true, List.length_nil]
      omega
    · simp only [work, hevents, List.length_take, List.length_drop, List.length_nil]
      omega
  · obtain ⟨io, rest, heq, -, -⟩ := h.completeEvent hevents
    refine ⟨.event, _, id, .event hevents heq, rfl, ?_⟩
    simp [work, hevents]

/-- Without a further submission everything that is accepted gets completed. -/
theorem Inv.settles {s : AsyncIo} (h : Inv s) :
    ∃ acts t, Runs Step s acts t ∧ (∀ act ∈ acts, ¬ act.IsSubmit) ∧
      ∀ iocb ∈ s.accepted, iocb ∈ t.fulfilled.map Io.getIocb := by
  obtain ⟨acts, t, hr, hacts, ⟨ht, hacc⟩, hout⟩ := Runs.exists_of_rank
    (I := fun t => Inv t ∧ t.accepted = s.accepted) (Q := fun t => t.outstanding = [])
    (A := fun act : Act => ¬ act.IsSubmit) work (fun t ⟨ht, hacc⟩ => by
      by_cases hout : t.outstanding = []
      · exact .inl hout
      · obtain ⟨act, u, hact, hs, hu, hlt⟩ := ht.progress hout
        exact .inr ⟨act, u, hact, hs, ⟨ht.step hs, hu.trans hacc⟩, hlt⟩) s ⟨h, rfl⟩
  refine ⟨acts, t, hr, hacts, fun iocb hmem => ?_⟩
  rw [← hacc] at hmem
  simpa [hout] using ht.accepted.mem_iff.1 hmem

/-- `inflight_` is what has been accepted and not completed, each once. Each promise is fulfilled
once at most, with its own `IO` and the one result that the kernel had for it, and every one that
was accepted gets so far. What was rejected was reported to the caller and is not in flight. No
assert fails. -/
structure ExactlyOnce (s : AsyncIo) : Prop where
  nodup : (s.inflight.toList.map Io.getIocb).Nodup
  inflight : ∀ iocb, iocb ∈ s.inflight.toList.map Io.getIocb ↔
    iocb ∈ s.accepted ∧ iocb ∉ s.fulfilled.map Io.getIocb
  once : (s.fulfilled.map Io.getIocb).Nodup
  own : ∀ io ∈ s.fulfilled, io.getIocb ∈ s.accepted ∧ io.fulfilled = true ∧
    ∃ ep ∈ s.completed, ep.obj = io.getIocb ∧ io.result = ioResult ep ∧
      ∀ ep' ∈ s.completed, ep'.obj = io.getIocb → ep' = ep
  settles : ∃ acts t, Runs Step s acts t ∧ (∀ act ∈ acts, ¬ act.IsSubmit) ∧
    ∀ iocb ∈ s.accepted, iocb ∈ t.fulfilled.map Io.getIocb
  returned : ∀ iocb ∈ s.accepted, (iocb, Future.promise iocb) ∈ s.returned
  rejected : ∀ iocb ∈ s.rejected,
    (iocb, Future.error) ∈ s.returned ∧ iocb ∉ s.inflight.toList.map Io.getIocb
  getEvents : s.events = some [] → s.getEvents.isSome
  event : ∀ ep events, s.events = some (ep :: events) →
    (AsyncIo.completeEvent { s with events := some events } ep).isSome

theorem Inv.nodup {s : AsyncIo} (h : Inv s) : (s.accepted ++ s.rejected).Nodup :=
  .of_map _ (h.numbered.nodup_iff.2 (List.nodup_range))

theorem Inv.exactlyOnce {s : AsyncIo} (h : Inv s) (hrejected : s.rejected = []) :
    ExactlyOnce s := by
  have hheld := h.held
  have hnodup := h.nodup
  rw [hrejected, List.append_nil] at hheld hnodup
  have hsplit := h.accepted.nodup_iff.1 hnodup
  have hcompleted := h.completed.nodup_iff.1 hnodup
  refine ⟨hheld.nodup_iff.2 hsplit.of_append_left, fun iocb => ?_, hsplit.of_append_right,
    fun io hio => ?_, h.settles, h.returned, by simp [hrejected], fun _ => by rw [h.getEvents]; rfl,
    fun ep events hevents => ?_⟩
  · rw [hheld.mem_iff, h.accepted.mem_iff, List.mem_append]
    have hdisj := List.disjoint_of_nodup_append hsplit
    exact ⟨fun hmem => ⟨.inl hmem, fun hmem' => hdisj hmem hmem'⟩,
      fun hmem => hmem.1.resolve_right hmem.2⟩
  · obtain ⟨hdone, ep, hep, hobj, hresult⟩ := h.own io hio
    refine ⟨h.accepted.mem_iff.2 (List.mem_append_right _ (List.mem_map_of_mem hio)), hdone, ep, hep,
      hobj, hresult, fun ep' hep' hobj' => ?_⟩
    exact List.inj_on_of_nodup_map hcompleted.of_append_right hep' hep (hobj'.trans hobj.symm)
  · obtain ⟨t, rest, heq, -, -⟩ := h.completeEvent hevents
    rw [heq]
    rfl

/-- What is rejected stays in `inflight_`. -/
theorem Inv.not_exactlyOnce {s : AsyncIo} (h : Inv s) (hrejected : s.rejected ≠ []) :
    ¬ ExactlyOnce s := by
  intro hexact
  obtain ⟨iocb, hmem⟩ := List.exists_mem_of_ne_nil _ hrejected
  exact (hexact.rejected iocb hmem).2 (h.held.mem_iff.2 (List.mem_append_right _ hmem))

theorem Inv.rejected_step {s t : AsyncIo} {act : Act} (h : Inv s) (hs : Step s act t) :
    t.rejected = [] ↔ s.rejected = [] ∧ ∀ io, act ≠ .submit io false := by
  cases hs with
  | submit accepts => cases accepts <;> simp [AsyncIo.submit, ioSubmit]
  | complete | signal | handlerReady => simp
  | getEvents _ heq =>
    rw [h.getEvents] at heq
    obtain rfl := Option.some.inj heq
    split_ifs <;> simp
  | event hevents heq =>
    obtain ⟨io, rest, heq', -, -⟩ := h.completeEvent hevents
    obtain rfl := Option.some.inj (heq'.symm.trans heq)
    simp

theorem rejected_runs {acts : List Act} {s : AsyncIo} (h : Runs Step init acts s) :
    s.rejected = [] ↔ ∀ io, .submit io false ∉ acts := by
  generalize hinit : init = s₀ at h
  induction h with
  | nil => subst hinit; simp [init]
  | snoc hr hs ih =>
    subst hinit
    simp [(Inv.runs hr).rejected_step hs, ih, forall_and, eq_comm]

/-- A run tracks its requests exactly if and only if the kernel has rejected none of them. -/
theorem exactlyOnce_iff {acts : List Act} {s : AsyncIo} (h : Runs Step init acts s) :
    ExactlyOnce s ↔ ∀ io, .submit io false ∉ acts := by
  rw [← rejected_runs h]
  refine ⟨fun hexact => ?_, (Inv.runs h).exactlyOnce⟩
  by_contra hrejected
  exact (Inv.runs h).not_exactlyOnce hrejected hexact

/-- One request, which writes 512 bytes. -/
theorem exactlyOnce_iff_one : ∃ s, Runs Step init
    [.submit ⟨4096, 0, 0, false⟩ true, .complete ⟨4096, 0⟩ 512 0, .signal, .handlerReady, .getEvents,
      .event] s ∧ ExactlyOnce s := by
  have hrun : Runs Step init
      ((((([] ++ [.submit ⟨4096, 0, 0, false⟩ true]) ++ [.complete ⟨4096, 0⟩ 512 0]) ++ [.signal]) ++
        [.handlerReady]) ++ [.getEvents]) _ :=
    .snoc (.snoc (.snoc (.snoc (.snoc (.nil _) (.submit true (by simp [init]) rfl rfl))
      (.complete 512 0 (by decide))) (.signal rfl)) (.handlerReady rfl (by decide)))
      (.getEvents rfl rfl)
  obtain ⟨t, rest, heq, -, -⟩ := (Inv.runs hrun).completeEvent rfl
  have hrun' := hrun.snoc (.event rfl heq)
  exact ⟨_, hrun', (exactlyOnce_iff hrun').2 (by simp)⟩

/-- One request, which the kernel rejects: its caller gets the future of a promise that nobody
fulfils, and the `IO` stays in `inflight_`. -/
theorem not_exactlyOnce : ∃ s, Runs Step init [.submit ⟨4096, 0, 0, false⟩ false] s ∧
    ¬ ExactlyOnce s := by
  have hrun : Runs Step init ([] ++ [.submit ⟨4096, 0, 0, false⟩ false]) _ :=
    .snoc (.nil _) (.submit false (by simp [init]) rfl rfl)
  exact ⟨_, hrun, (Inv.runs hrun).not_exactlyOnce (by simp [submit, ioSubmit])⟩

end AsyncIo

end CPPCodes.Aio
