import Fnsproxy.Net.World

/-!
# event.c: registering entries

* `epollCtl` : `epoll_ctl`, which may fail at any time and fails where the descriptor is in the wrong
  state;
* `eventRegis` : `event_regis`;
* `eventOf` : the event `handle` makes of a set of epoll bits.
-/

namespace Fnsproxy
open Word

def eventDel : Nat := 0
def eventRd : Nat := 1
def eventWr : Nat := 2
def eventHup : Nat := 4

def epollIn : U32 := 0x001
def epollPri : U32 := 0x002
def epollOut : U32 := 0x004
def epollHup : U32 := 0x010
def epollRdhup : U32 := 0x2000

/-- `DEFAULT_EVENT_INTERVAL`. -/
def defaultEventInterval : Int := 10

/-- The operations of `epoll_ctl`. -/
inductive EpollOp where
  | add
  | del
  | mod
deriving DecidableEq, Repr

/-- `epoll_ctl`, with whether the kernel is willing. -/
def epollCtl (w : World) (op : EpollOp) (fd : Nat) (ev : EpollEventT) (willing : Bool) : Int × World :=
  if willing then
    match op, w.epoll fd with
    | .add, none => (0, { w with epoll := Function.update w.epoll fd (some ev) })
    | .mod, some _ => (0, { w with epoll := Function.update w.epoll fd (some ev) })
    | .del, some _ => (0, { w with epoll := Function.update w.epoll fd none }.act (.unregistered ev.ptr))
    | _, _ => (-1, w)
  else (-1, w)

/-- The events `event_regis` asks epoll for. -/
def epollEvents (rwd : Nat) : U32 :=
  (if rwd = eventRd then epollIn else if rwd = eventWr then epollOut else 0) ||| (epollRdhup ||| epollPri)

def eventRegis (w : World) (ent : Ent) (rwd : Nat) (willing : Bool) : Except Crash (Int × World) :=
  match w.entry ent with
  | none => .error ⟨.freedEntry, w⟩
  | some e =>
    if e.added = false ∧ rwd = eventDel then .ok (-1, w)
    else if e.added = false ∧ rwd ≠ eventDel then
      .ok (epollCtl { w.setEntry ent { e with added := true } with fdCount := w.fdCount + 1 } .add e.fd
        ⟨epollEvents rwd, ent⟩ willing)
    else if rwd = eventDel then
      .ok (epollCtl { w with fdCount := w.fdCount - 1 } .del e.fd ⟨epollEvents rwd, ent⟩ willing)
    else .ok (epollCtl w .mod e.fd ⟨epollEvents rwd, ent⟩ willing)

/-- The event `handle` passes on. -/
def eventOf (evset : U32) : Nat :=
  if evset &&& (epollHup ||| epollRdhup) ≠ 0 then eventHup
  else if evset &&& epollIn ≠ 0 then eventRd
  else if evset &&& epollOut ≠ 0 then eventWr
  else 0

end Fnsproxy
