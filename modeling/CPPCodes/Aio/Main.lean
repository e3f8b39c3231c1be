import CPPCodes.Aio.Once
import Mathlib.Data.Finset.Card

/-!
# Four writes

`main` of main.cpp: three writes are submitted and the loop runs. The continuation of the third
submits a fourth, whose own ends the loop. An assert fails only where the kernel has written less
than it should, and no run has more than 44 steps (`main_sound`). So the loop ends, unless the third
or the fourth write is rejected (`main_ends_iff`).
-/

namespace CPPCodes.Aio

open Transition
open AsyncIo (Act Step ioResult)

/-- `IO_SIZE`. -/
def ioSize : Int64 := 4096

/-- `main`, with whether `terminateLoopSoon` has been called. The requests are numbered from 0, so
that the one of the continuation is 3. -/
structure Program where
  aio : AsyncIo
  terminated : Bool

namespace Program

def init : Program := ⟨.init, false⟩

/-- How many times `ioSubmit` has been called. -/
def submissions (p : Program) : ℕ := p.aio.accepted.length + p.aio.rejected.length

/-- What is called with a completed `IO`. The third makes `io4`, which the kernel accepts or not. -/
def continuation (p : Program) (io io4 : Io) (accepts : Bool) : Option Program :=
  if io.result = ioSize then
    if io.request = 2 then some { p with aio := p.aio.submit io4 accepts }
    else if io.request = 3 then some { p with terminated := true }
    else some p
  else none

/-- An event in the loop of `iosCompleted`, which goes on behind the continuation. -/
def event (p : Program) (ep : IoEvent) (events : List IoEvent) (io4 : Io) (accepts : Bool) :
    Option Program := do
  let aio ← AsyncIo.completeEvent { p.aio with events := some events } ep
  let io ← aio.fulfilled.getLast?
  continuation { p with aio } io io4 accepts

/-- The steps. The new `IO` of the continuation may have the address of the one just completed. -/
inductive Advance : Program → Act → Program → Prop
  | submit {p : Program} {io : Io} {accepts : Bool} {aio : AsyncIo} : p.submissions < 3 →
      Step p.aio (.submit io accepts) aio → Advance p (.submit io accepts) { p with aio }
  | complete {p : Program} {iocb : Iocb} {res res2 : UInt64} {aio : AsyncIo} :
      Step p.aio (.complete iocb res res2) aio → Advance p (.complete iocb res res2) { p with aio }
  | signal {p : Program} {aio : AsyncIo} :
      Step p.aio .signal aio → Advance p .signal { p with aio }
  | handlerReady {p : Program} {aio : AsyncIo} : 3 ≤ p.submissions → p.terminated = false →
      Step p.aio .handlerReady aio → Advance p .handlerReady { p with aio }
  | getEvents {p : Program} {aio : AsyncIo} :
      Step p.aio .getEvents aio → Advance p .getEvents { p with aio }
  | event {p q : Program} {ep : IoEvent} {events : List IoEvent} {io4 : Io} {accepts : Bool} :
      p.aio.events = some (ep :: events) →
      (∀ t ∈ p.aio.inflight, t.ptr = io4.ptr → t.ptr = ep.obj.data) → io4.fulfilled = false →
      io4.request = p.submissions → p.event ep events io4 accepts = some q → Advance p .event q

/-- The loop is left when the handler has returned. -/
def Finished (p : Program) : Prop := p.terminated = true ∧ p.aio.events = none

end Program

namespace AsyncIo

variable {s t : AsyncIo} {act : Act}

/-- Only submissions and events change what is submitted and what is fulfilled. -/
theorem Step.frame (hs : Step s act t) (hsubmit : ¬ act.IsSubmit) (hevent : act ≠ .event) :
    t.accepted = s.accepted ∧ t.rejected = s.rejected ∧ t.fulfilled = s.fulfilled := by
  cases hs with
  | submit => exact absurd trivial hsubmit
  | complete | signal | handlerReady => exact ⟨rfl, rfl, rfl⟩
  | getEvents _ heq =>
    unfold AsyncIo.getEvents at heq
    simp only at heq
    split_ifs at heq
    · obtain rfl := Option.some.inj heq
      exact ⟨rfl, rfl, rfl⟩
    · obtain rfl := Option.some.inj heq
      exact ⟨rfl, rfl, rfl⟩
  | event => exact absurd rfl hevent

theorem work_submit (io : Io) (accepts : Bool) : (s.submit io accepts).work ≤ s.work + 10 := by
  cases accepts <;> simp only [submit, ioSubmit, work, List.length_append, List.length_singleton,
    if_true, Bool.false_eq_true, if_false] <;> omega

theorem Inv.work_lt (h : Inv s) (hs : Step s act t) (hsubmit : ¬ act.IsSubmit) :
    t.work < s.work := by
  cases hs with
  | submit => exact absurd trivial hsubmit
  | complete res res2 hmem =>
    have hpos := List.length_pos_of_mem hmem
    simp only [work, List.length_erase_of_mem hmem, List.length_append, List.length_singleton]
    omega
  | signal hn =>
    simp only [work, hn]
    cases s.events with
    | none => dsimp only; split_ifs <;> omega
    | some events => dsimp only; omega
  | handlerReady hnone hne =>
    simp only [work, hnone, hne, if_false, List.length_nil]
    omega
  | getEvents hnil heq =>
    have hsignals := h.signals
    rw [h.getEvents] at heq
    obtain rfl := Option.some.inj heq
    split_ifs with hzero
    · simp only [work, hnil, hzero, if_true, List.length_nil]
      omega
    · simp only [work, hnil, List.length_take, List.length_drop, List.length_nil]
      omega
  | event hevents heq =>
    obtain ⟨io, rest, heq', -, -⟩ := h.completeEvent hevents
    obtain rfl := Option.some.inj (heq'.symm.trans heq)
    simp [work, hevents]

/-- The number of a request. -/
theorem Inv.request_lt (h : Inv s) {iocb : Iocb} (hmem : iocb ∈ s.accepted ++ s.rejected) :
    iocb.request < s.accepted.length + s.rejected.length :=
  List.mem_range.1 (h.numbered.mem_iff.1 (List.mem_map_of_mem hmem))

theorem Inv.requests (h : Inv s) : (s.outstanding.map Iocb.request ++
    s.fulfilled.map Io.request ++ s.rejected.map Iocb.request).Nodup := by
  have hnodup := h.numbered.nodup_iff.2 List.nodup_range
  have haccepted := h.accepted.map Iocb.request
  rw [List.map_append] at hnodup haccepted
  have hmap : (s.fulfilled.map Io.getIocb).map Iocb.request = s.fulfilled.map Io.request := by
    rw [List.map_map]
    rfl
  rw [hmap] at haccepted
  exact (haccepted.append_right _).nodup_iff.1 hnodup

theorem Inv.fulfilled_lt (h : Inv s) {n : ℕ} (hmem : n ∈ s.fulfilled.map Io.request) :
    n < s.accepted.length + s.rejected.length := by
  obtain ⟨io, hio, rfl⟩ := List.mem_map.1 hmem
  have haccepted := h.accepted.mem_iff.2 (List.mem_append_right _ (List.mem_map_of_mem hio))
  exact h.request_lt (List.mem_append_left _ haccepted)

/-- Once nothing is outstanding, what has been submitted is completed or rejected. -/
theorem Inv.fulfilled_of_lt (h : Inv s) (hout : s.outstanding = []) {n : ℕ}
    (hlt : n < s.accepted.length + s.rejected.length) (hn : ∀ iocb ∈ s.rejected, iocb.request ≠ n) :
    n ∈ s.fulfilled.map Io.request := by
  have hmem := h.numbered.mem_iff.2 (List.mem_range.2 hlt)
  obtain ⟨iocb, hiocb, rfl⟩ := List.mem_map.1 hmem
  rcases List.mem_append.1 hiocb with haccepted | hrejected
  · have hfulfilled := h.accepted.mem_iff.1 haccepted
    rw [hout, List.nil_append] at hfulfilled
    obtain ⟨io, hio, rfl⟩ := List.mem_map.1 hfulfilled
    exact List.mem_map_of_mem hio
  · exact absurd rfl (hn iocb hrejected)

theorem Inv.exists_ptr (h : Inv s) (hlt : s.accepted.length + s.rejected.length ≤ 4) :
    ∃ ptr, ∀ t ∈ s.inflight, t.ptr ≠ ptr := by
  have hcard : (s.inflight.toList.map Io.ptr).toFinset.card <
      ({0, 1, 2, 3, 4} : Finset UInt64).card := by
    have hle := List.toFinset_card_le (s.inflight.toList.map Io.ptr)
    have hheld := h.held.length_eq
    have haccepted := h.accepted.length_eq
    simp only [List.length_map, List.length_append] at hle hheld haccepted
    have hfive : ({0, 1, 2, 3, 4} : Finset UInt64).card = 5 := rfl
    omega
  obtain ⟨ptr, -, hptr⟩ := Finset.exists_mem_notMem_of_card_lt_card hcard
  refine ⟨ptr, fun t ht heq => hptr ?_⟩
  rw [← heq, List.mem_toFinset]
  exact List.mem_map_of_mem (Array.mem_toList_iff.2 ht)

/-- What is handled next has a number that nothing completed has. -/
theorem Inv.event_request (h : Inv s) {ep : IoEvent} {events : List IoEvent}
    (hevents : s.events = some (ep :: events)) :
    ep.obj.request ∉ s.fulfilled.map Io.request ∧
      ep.obj.request < s.accepted.length + s.rejected.length := by
  have hmem : ep.obj ∈ s.outstanding := by simp [outstanding, hevents]
  constructor
  · have hdisj := List.disjoint_of_nodup_append h.requests.of_append_left
    exact hdisj (List.mem_map_of_mem hmem)
  · exact h.request_lt (List.mem_append_left _ (h.accepted.mem_iff.2 (List.mem_append_left _ hmem)))

end AsyncIo

namespace Program

variable {p q : Program} {act : Act}

/-- Three requests come before the loop. The fourth is submitted when the third has been completed,
and the loop is left when the fourth has. -/
structure Inv (p : Program) : Prop where
  aio : AsyncIo.Inv p.aio
  atMost : p.submissions ≤ 4
  before : p.submissions < 3 → p.aio.events = none
  third : p.submissions = 4 ↔ 2 ∈ p.aio.fulfilled.map Io.request
  fourth : p.terminated = true ↔ 3 ∈ p.aio.fulfilled.map Io.request

theorem inv_init : Inv init where
  aio := .init
  atMost := by decide
  before _ := rfl
  third := by decide
  fourth := by decide

/-- The steps that submit nothing and complete nothing. -/
theorem Inv.aio_step (h : Inv p) {aio : AsyncIo} (hs : Step p.aio act aio)
    (hsubmit : ¬ act.IsSubmit) (hevent : act ≠ .event)
    (hbefore : p.submissions < 3 → aio.events = none) : Inv { p with aio } := by
  obtain ⟨haccepted, hrejected, hfulfilled⟩ := hs.frame hsubmit hevent
  have hcount : submissions { p with aio } = p.submissions := by
    unfold submissions
    rw [haccepted, hrejected]
  refine ⟨h.aio.step hs, ?_, ?_, ?_, ?_⟩
  · rw [hcount]
    exact h.atMost
  · rwa [hcount]
  · rw [hcount, hfulfilled]
    exact h.third
  · rw [hfulfilled]
    exact h.fourth

theorem submissions_submit (io : Io) (accepts : Bool) :
    submissions { p with aio := p.aio.submit io accepts } = p.submissions + 1 := by
  unfold submissions AsyncIo.submit AsyncIo.ioSubmit
  cases accepts <;> simp <;> omega

/-- The event that is handled next, and the continuation that it leads to. -/
theorem Inv.event_eq (h : Inv p) {ep : IoEvent} {events : List IoEvent}
    (hevents : p.aio.events = some (ep :: events)) : ∃ t aio,
      AsyncIo.completeEvent { p.aio with events := some events } ep = some aio ∧
      t.request = ep.obj.request ∧ t.result = ioResult ep ∧
      aio.fulfilled = p.aio.fulfilled ++ [t] ∧
      submissions { p with aio } = p.submissions ∧
      (∀ u ∈ aio.inflight, u ∈ p.aio.inflight ∧ u.ptr ≠ ep.obj.data) ∧
      ∀ io4 accepts, p.event ep events io4 accepts =
        continuation { p with aio } t io4 accepts := by
  obtain ⟨t, rest, heq, hobj, hperm⟩ := h.aio.completeEvent hevents
  refine ⟨{ t with result := ioResult ep, fulfilled := true }, _, heq, ?_, rfl, rfl, rfl,
    fun u hu => ?_, fun io4 accepts => ?_⟩
  · rw [← hobj]
    rfl
  · have hptrs := (hperm.map Io.ptr).nodup_iff.1 h.aio.ptrs
    have hu' : u ∈ rest.toList := Array.mem_toList_iff.2 hu
    refine ⟨Array.mem_toList_iff.1 (hperm.mem_iff.2 (List.mem_cons_of_mem _ hu')), ?_⟩
    rw [← hobj]
    intro hptr
    have hmem : u.ptr ∈ rest.toList.map Io.ptr := List.mem_map_of_mem hu'
    rw [hptr] at hmem
    exact (List.nodup_cons.1 hptrs).1 hmem
  · unfold event
    rw [heq, Option.bind_eq_bind, Option.bind_some, List.getLast?_append_of_ne_nil _ (by simp)]
    rfl

theorem continuation_cases {io io4 : Io} {accepts : Bool}
    (h : continuation p io io4 accepts = some q) : io.result = ioSize ∧
      (io.request = 2 ∧ q = { p with aio := p.aio.submit io4 accepts } ∨
        io.request = 3 ∧ q = { p with terminated := true } ∨
          io.request ≠ 2 ∧ io.request ≠ 3 ∧ q = p) := by
  unfold continuation at h
  split_ifs at h with hresult hthird hfourth
  · exact ⟨hresult, .inl ⟨hthird, (Option.some.inj h).symm⟩⟩
  · exact ⟨hresult, .inr (.inl ⟨hfourth, (Option.some.inj h).symm⟩)⟩
  · exact ⟨hresult, .inr (.inr ⟨hthird, hfourth, (Option.some.inj h).symm⟩)⟩

/-- How many steps are left at most. -/
def rank (p : Program) : ℕ := 11 * (4 - p.submissions) + p.aio.work

theorem Inv.aio_rank (h : Inv p) {aio : AsyncIo} (hs : Step p.aio act aio)
    (hsubmit : ¬ act.IsSubmit) (hevent : act ≠ .event) : rank { p with aio } < p.rank := by
  obtain ⟨haccepted, hrejected, -⟩ := hs.frame hsubmit hevent
  have hwork := h.aio.work_lt hs hsubmit
  unfold rank submissions
  simp only [haccepted, hrejected]
  omega

theorem rank_submit (io : Io) (accepts : Bool) (hlt : p.submissions < 4) :
    rank { p with aio := p.aio.submit io accepts } < p.rank := by
  have hwork := AsyncIo.work_submit (s := p.aio) io accepts
  unfold rank
  rw [submissions_submit]
  dsimp only
  omega

theorem Inv.submit (h : Inv p) {io : Io} {accepts : Bool} {aio : AsyncIo}
    (hlt : p.submissions < 3) (hs : Step p.aio (.submit io accepts) aio) :
    Inv { p with aio } ∧ rank { p with aio } < p.rank := by
  have haio := h.aio.step hs
  cases hs with
  | submit _ hptr hfresh hrequest =>
    have hcount := submissions_submit (p := p) io accepts
    have hthird : 2 ∉ p.aio.fulfilled.map Io.request := mt h.third.2 (by omega)
    refine ⟨⟨haio, ?_, fun _ => ?_, ?_, ?_⟩, rank_submit io accepts (by omega)⟩
    · rw [hcount]
      omega
    · cases accepts <;> exact h.before hlt
    · rw [hcount]
      refine iff_of_false (by omega) ?_
      cases accepts <;> exact hthird
    · cases accepts <;> exact h.fourth

theorem submit_fulfilled (s : AsyncIo) (io : Io) (accepts : Bool) :
    (s.submit io accepts).fulfilled = s.fulfilled := by
  cases accepts <;> rfl

theorem Inv.event (h : Inv p) (hs : Advance p .event q) : Inv q ∧ q.rank < p.rank := by
  cases hs with
  | @event _ ep events io4 accepts hevents hptr hfresh hrequest heq =>
    obtain ⟨t, aio, hcomplete, hnumber, -, hfulfilled, hcount, hinflight, hevent⟩ :=
      h.event_eq hevents
    have hstep : Step p.aio .event aio := .event hevents hcomplete
    have haio := h.aio.step hstep
    have hwork := h.aio.work_lt hstep id
    have hnew := (h.aio.event_request hevents).1
    rw [← hnumber] at hnew
    have hrequests : aio.fulfilled.map Io.request =
        p.aio.fulfilled.map Io.request ++ [t.request] := by
      rw [hfulfilled, List.map_append, List.map_singleton]
    have hthree : ¬ p.submissions < 3 := fun hlt => by
      rw [h.before hlt] at hevents
      cases hevents
    have hle := h.atMost
    have hcounts : ∀ terminated, submissions ⟨aio, terminated⟩ = p.submissions := fun _ => hcount
    have hrank : ∀ terminated, rank ⟨aio, terminated⟩ < p.rank := fun terminated => by
      unfold rank
      rw [hcounts]
      dsimp only
      omega
    rw [hevent] at heq
    obtain ⟨-, ⟨ht, rfl⟩ | ⟨ht, rfl⟩ | ⟨ht2, ht3, rfl⟩⟩ := continuation_cases heq
    · have hold : p.submissions = 3 := by
        have hne := mt h.third.1 (ht ▸ hnew)
        omega
      have hsubmit : Step aio (.submit io4 accepts) (aio.submit io4 accepts) :=
        .submit accepts (fun u hu heq => (hinflight u hu).2 (hptr u (hinflight u hu).1 heq)) hfresh
          (hrequest.trans hcount.symm)
      have hfour := submissions_submit (p := { p with aio }) io4 accepts
      rw [hcount, hold] at hfour
      refine ⟨⟨haio.step hsubmit, hfour.le, fun hlt => ?_, ?_, ?_⟩, ?_⟩
      · rw [hfour] at hlt
        omega
      · rw [submit_fulfilled, hrequests, ht]
        exact iff_of_true hfour (by simp)
      · rw [submit_fulfilled, hrequests, ht, h.fourth]
        simp
      · exact (rank_submit io4 accepts (by omega)).trans (hrank _)
    · refine ⟨⟨haio, (hcounts _).trans_le hle, fun hlt => ?_, ?_, ?_⟩, hrank _⟩
      · exact absurd (hcounts true ▸ hlt) hthree
      · rw [hcounts, hrequests, ht]
        simpa using h.third
      · rw [hrequests, ht]
        simp
    · refine ⟨⟨haio, hcount.trans_le hle, fun hlt => ?_, ?_, ?_⟩, hrank _⟩
      · exact absurd (hcount ▸ hlt) hthree
      · rw [hcount, hrequests]
        simpa [Ne.symm ht2] using h.third
      · rw [hrequests]
        simpa [Ne.symm ht3] using h.fourth

theorem Inv.step (h : Inv p) (hs : Advance p act q) : Inv q ∧ q.rank < p.rank := by
  cases hs with
  | submit hlt hs => exact h.submit hlt hs
  | complete hs =>
    refine ⟨h.aio_step hs id (by simp) fun hlt => ?_, h.aio_rank hs id (by simp)⟩
    cases hs
    exact h.before hlt
  | signal hs =>
    refine ⟨h.aio_step hs id (by simp) fun hlt => ?_, h.aio_rank hs id (by simp)⟩
    cases hs
    exact h.before hlt
  | handlerReady hthree _ hs =>
    exact ⟨h.aio_step hs id (by simp) fun hlt => by omega, h.aio_rank hs id (by simp)⟩
  | getEvents hs =>
    refine ⟨h.aio_step hs id (by simp) fun hlt => ?_, h.aio_rank hs id (by simp)⟩
    cases hs with
    | getEvents hnil _ => cases (h.before hlt).symm.trans hnil
  | event hevents hptr hfresh hrequest heq =>
    exact h.event (.event hevents hptr hfresh hrequest heq)

theorem inv_runs {acts : List Act} (hr : Runs Advance init acts p) :
    Inv p ∧ acts.length + p.rank ≤ 44 :=
  hr.length_le_rank (A := fun _ => True) rank (fun _ _ _ h _ hs => h.step hs) (fun _ _ => trivial)
    inv_init

structure Sound (p : Program) : Prop where
  submissions : p.submissions ≤ 4
  third : p.submissions = 4 ↔ 2 ∈ p.aio.fulfilled.map Io.request
  fourth : p.terminated = true ↔ 3 ∈ p.aio.fulfilled.map Io.request
  getEvents : p.aio.events = some [] → p.aio.getEvents.isSome
  event : ∀ ep events, p.aio.events = some (ep :: events) → ∀ io4 accepts,
    (p.event ep events io4 accepts).isSome ↔ ioResult ep = ioSize

/-- As long as the third and the fourth write are not rejected, something is left to do until the
loop is left. -/
theorem Inv.progress (h : Inv p) (hwhole : ∀ ep ∈ p.aio.completed, ioResult ep = ioSize)
    (hrejected : ∀ iocb ∈ p.aio.rejected, iocb.request < 2) :
    p.Finished ∨ ∃ act q, Advance p act q := by
  obtain ⟨ptr, hptr⟩ := h.aio.exists_ptr h.atMost
  by_cases hlt : p.submissions < 3
  · let io : Io := ⟨ptr, p.submissions, 0, false⟩
    have hs : Step p.aio (.submit io true) (p.aio.submit io true) := .submit true hptr rfl rfl
    exact .inr ⟨_, _, .submit hlt hs⟩
  · rcases hevents : p.aio.events with - | - | ⟨ep, events⟩
    · by_cases hterminated : p.terminated = true
      · exact .inl ⟨hterminated, hevents⟩
      · refine .inr ?_
        by_cases hzero : p.aio.eventfd = 0
        · rcases hn : p.aio.unsignalled with - | n
          · rcases hqueued : p.aio.queued with - | ⟨iocb, queued⟩
            · have hsignals := h.aio.signals
              have hring : p.aio.ring = [] := List.length_eq_zero_iff.1 (by omega)
              have hout : p.aio.outstanding = [] := by
                simp [AsyncIo.outstanding, hqueued, hring, hevents]
              have hall : ∀ n, 2 ≤ n → n < p.submissions → n ∈ p.aio.fulfilled.map Io.request :=
                fun n hn hlt => h.aio.fulfilled_of_lt hout hlt fun iocb hmem => by
                  have := hrejected iocb hmem
                  omega
              have hfour := h.third.2 (hall 2 le_rfl (by omega))
              exact absurd (h.fourth.2 (hall 3 (by omega) (by omega))) hterminated
            · have hmem : iocb ∈ p.aio.queued := by simp [hqueued]
              exact ⟨_, _, .complete (.complete 4096 0 hmem)⟩
          · exact ⟨_, _, .signal (.signal hn)⟩
        · exact ⟨_, _, .handlerReady (by omega) (by simpa using hterminated)
            (.handlerReady hevents hzero)⟩
    · exact .inr ⟨_, _, .getEvents (.getEvents hevents h.aio.getEvents)⟩
    · obtain ⟨t, aio, -, -, hresult, -, -, -, hevent⟩ := h.event_eq hevents
      have hep : ioResult ep = ioSize := hwhole ep (h.aio.reported ep (by simp [hevents]))
      let io4 : Io := ⟨ptr, p.submissions, 0, false⟩
      have hsome : (p.event ep events io4 true).isSome := by
        rw [hevent]
        unfold continuation
        rw [hresult, if_pos hep]
        split_ifs <;> rfl
      obtain ⟨q, hq⟩ := Option.isSome_iff_exists.1 hsome
      exact .inr ⟨_, q, .event hevents (fun u hu heq => absurd heq (hptr u hu)) rfl rfl hq⟩

/-- Where the kernel writes everything, a run that cannot go on has left the loop if and only if
neither the third nor the fourth write has been rejected. -/
theorem main_ends_iff {acts : List Act} (hr : Runs Advance init acts p)
    (hwhole : ∀ ep ∈ p.aio.completed, ioResult ep = ioSize)
    (hlast : ∀ act q, ¬ Advance p act q) :
    p.Finished ↔ ∀ iocb ∈ p.aio.rejected, iocb.request < 2 := by
  have h := (inv_runs hr).1
  constructor
  · rintro ⟨hterminated, -⟩ iocb hmem
    have hthree := h.fourth.1 hterminated
    have hlt : 3 < p.submissions := h.aio.fulfilled_lt hthree
    have htwo := h.third.1 (by have := h.atMost; omega)
    have hle : iocb.request < p.submissions := h.aio.request_lt (List.mem_append_right _ hmem)
    have hdisj := List.disjoint_of_nodup_append h.aio.requests
    have hne : ∀ n ∈ p.aio.fulfilled.map Io.request, iocb.request ≠ n := by
      rintro n hn rfl
      exact hdisj (List.mem_append_right _ hn) (List.mem_map_of_mem hmem)
    have hatMost := h.atMost
    have hne2 := hne 2 htwo
    have hne3 := hne 3 hthree
    omega
  · intro hrejected
    rcases h.progress hwhole hrejected with hfinished | ⟨act, q, hs⟩
    · exact hfinished
    · exact absurd hs (hlast act q)

/-- The kernel rejects all three, and nothing goes on. -/
theorem main_ends_iff_rejected : ∃ acts p, Runs Advance init acts p ∧
    (∀ act q, ¬ Advance p act q) ∧ ¬ p.Finished := by
  have hrun : Runs Advance init ((([] ++ [.submit ⟨4096, 0, 0, false⟩ false]) ++
      [.submit ⟨8192, 1, 0, false⟩ false]) ++ [.submit ⟨12288, 2, 0, false⟩ false]) _ :=
    .snoc (.snoc (.snoc (.nil _)
      (.submit (by decide) (.submit false (by simp [init, AsyncIo.init]) rfl rfl)))
      (.submit (by decide) (.submit false (by decide) rfl rfl)))
      (.submit (by decide) (.submit false (by decide) rfl rfl))
  refine ⟨_, _, hrun, (and_iff_left_of_imp fun hstuck hfinished => ?_).2 fun act q hs => ?_⟩
  · have hiff := main_ends_iff hrun (fun ep hep => absurd hep List.not_mem_nil) hstuck
    exact absurd (hiff.1 hfinished ⟨12288, 2⟩ (by decide)) (by decide)
  cases hs with
  | submit hlt => exact absurd hlt (by decide)
  | complete hs => cases hs with | complete _ _ hmem => cases hmem
  | signal hs => cases hs with | signal hn => cases hn
  | handlerReady _ _ hs => cases hs with | handlerReady _ hne => exact hne rfl
  | getEvents hs => cases hs with | getEvents hnil _ => cases hnil
  | event hevents => cases hevents

end Program

end CPPCodes.Aio
