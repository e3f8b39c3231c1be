import Mathlib.Data.Nat.Notation

/-!
# AsyncIO

`IO` and `AsyncIO` of AsyncIO.cpp on top of libaio: the requests that the kernel has accepted, the
events it has not handed over yet, and the counter of the eventfd. `none` is a failed assert. The
requests are numbered in the order of their submission, which the code does not see: it knows an
`IO` by its address, and an address may be used again once the `IO` there is completed.
-/

namespace CPPCodes.Aio

/-- What the kernel gets of an `IO`: `data` is its address. -/
structure Iocb where
  data : UInt64
  request : ℕ
  deriving DecidableEq

structure Io where
  ptr : UInt64
  request : ℕ
  result : Int64 := 0
  fulfilled : Bool := false
  deriving DecidableEq

structure IoEvent where
  obj : Iocb
  res : UInt64
  res2 : UInt64
  deriving DecidableEq

/-- What a caller gets: the future of the promise in an `IO`, or one that has failed. -/
inductive Future
  | promise (io : Iocb)
  | error
  deriving DecidableEq

namespace Io

def getIocb (io : Io) : Iocb := ⟨io.ptr, io.request⟩

def getFuture (io : Io) : Future := .promise io.getIocb

def setResult (io : Io) (result : Int64) : Option Io :=
  if io.fulfilled then none else some { io with result }

/-- `completePromise`, called for the `IO` at `iop` with the `IO` that it moves into the promise. -/
def completePromise (iop : UInt64) (io : Io) : Option Io :=
  if ¬ io.fulfilled ∧ iop = io.ptr then some { io with fulfilled := true } else none

end Io

/-- `AsyncIO` and the kernel. `events` are the events that a run of `iosCompleted` has still to
handle. The last five lists say what has happened so far, `returned` with the futures that the
callers of `ioSubmit` have got. -/
structure AsyncIo where
  inflight : Array Io
  queued : List Iocb
  ring : List IoEvent
  eventfd : ℕ
  unsignalled : ℕ
  events : Option (List IoEvent)
  accepted : List Iocb
  rejected : List Iocb
  completed : List IoEvent
  fulfilled : List Io
  returned : List (Iocb × Future)

namespace AsyncIo

def init : AsyncIo where
  inflight := #[]
  queued := []
  ring := []
  eventfd := 0
  unsignalled := 0
  events := none
  accepted := []
  rejected := []
  completed := []
  fulfilled := []
  returned := []

/-- `ioSubmit`, which does not look at what `io_submit` returns. -/
def ioSubmit (s : AsyncIo) (io : Io) (accepts : Bool) : Future × AsyncIo :=
  let s := { s with inflight := s.inflight.push io }
  let s := if accepts then
      { s with queued := s.queued ++ [io.getIocb], accepted := s.accepted ++ [io.getIocb] }
    else { s with rejected := s.rejected ++ [io.getIocb] }
  (io.getFuture, s)

def ioResult (ep : IoEvent) : Int64 := ((ep.res2 <<< 32) ||| ep.res).toInt64

/-- The `unique_ptr` that `iosCompleted` moves out of `inflight_`, and what stays there. -/
def takeOut (inflight : Array Io) (iop : UInt64) : Option Io × Array Io :=
  match inflight.findFinIdx? (fun t => t.ptr = iop) with
  | none => (none, inflight)
  | some it =>
    let inflight := if 2 ≤ inflight.size then
        inflight.swap it (inflight.size - 1) it.isLt (Nat.sub_one_lt_of_lt it.isLt)
      else inflight
    (inflight.back?, inflight.pop)

/-- The body of the loop over the events. -/
def completeEvent (s : AsyncIo) (ep : IoEvent) : Option AsyncIo :=
  let iop := ep.obj.data
  match takeOut s.inflight iop with
  | (none, _) => none
  | (some ioup, inflight) =>
    if ioup.ptr = iop then do
      let io ← ioup.setResult (ioResult ep)
      let io ← Io.completePromise iop io
      return { s with inflight, fulfilled := s.fulfilled ++ [io] }
    else none

/-- `eventfd_read` and `io_getevents`. A counter of zero ends the loop of `iosCompleted`. -/
def getEvents (s : AsyncIo) : Option AsyncIo :=
  if s.eventfd = 0 then some { s with events := none }
  else
    let nevents := s.eventfd
    let events := s.ring.take nevents
    if events.length = nevents then
      some { s with eventfd := 0, ring := s.ring.drop nevents, events := some events }
    else none

/-- `ioSubmit`, and that its caller gets the future. -/
def submit (s : AsyncIo) (io : Io) (accepts : Bool) : AsyncIo :=
  let (future, s) := s.ioSubmit io accepts
  { s with returned := s.returned ++ [(io.getIocb, future)] }

inductive Act
  | submit (io : Io) (accepts : Bool)
  | complete (iocb : Iocb) (res res2 : UInt64)
  | signal
  | handlerReady
  | getEvents
  | event

/-- The steps. A submission is of an `IO` that is not in flight and whose promise is not fulfilled;
it comes from outside or from a continuation, so at any time. The kernel completes what it has
accepted in any order, and then adds one to the counter of the eventfd. -/
inductive Step : AsyncIo → Act → AsyncIo → Prop
  | submit {s : AsyncIo} {io : Io} (accepts : Bool) : (∀ t ∈ s.inflight, t.ptr ≠ io.ptr) →
      io.fulfilled = false → io.request = s.accepted.length + s.rejected.length →
      Step s (.submit io accepts) (s.submit io accepts)
  | complete {s : AsyncIo} {iocb : Iocb} (res res2 : UInt64) : iocb ∈ s.queued →
      Step s (.complete iocb res res2) { s with
        queued := s.queued.erase iocb
        ring := s.ring ++ [⟨iocb, res, res2⟩]
        unsignalled := s.unsignalled + 1
        completed := s.completed ++ [⟨iocb, res, res2⟩] }
  | signal {s : AsyncIo} {n : ℕ} : s.unsignalled = n + 1 →
      Step s .signal { s with unsignalled := n, eventfd := s.eventfd + 1 }
  | handlerReady {s : AsyncIo} : s.events = none → s.eventfd ≠ 0 →
      Step s .handlerReady { s with events := some [] }
  | getEvents {s t : AsyncIo} : s.events = some [] → s.getEvents = some t → Step s .getEvents t
  | event {s t : AsyncIo} {ep : IoEvent} {events : List IoEvent} : s.events = some (ep :: events) →
      completeEvent { s with events := some events } ep = some t → Step s .event t

end AsyncIo

end CPPCodes.Aio
