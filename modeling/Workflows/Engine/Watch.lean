/-
  Workflows.Engine.Watch — a client that follows the events of one execution.

  A watch is a sequence of atomic steps; steps of runs and of other calls may come between any
  two of them. It notes how many events have been announced before it reads the record, so
  that the last event cannot slip in between: a record that has ended stands for the last
  event, and of a run that goes on all events announced since are passed on until the last.
-/
import Workflows.Engine.Basic
namespace Workflows

/-- A watch, between two of its steps. -/
inductive Watch where
  /-- Notes how many events have been announced. -/
  | subscribe (id : String)
  /-- Reads the record. -/
  | read (id : String) (seen : Nat)
  /-- Takes the next event, the first `seen` being behind it; `passed` have been passed on. -/
  | forward (id : String) (seen : Nat) (passed : List Event)
  /-- The last event has been passed on. -/
  | ended (passed : List Event)
  | refused (f : Failure)

namespace Watch

/-- The next step; none when there is no further event yet or the watch is over. -/
def step? (w : Watch) (e : Engine) : Option Watch :=
  match w with
  | .subscribe id => some (.read id e.events.length)
  | .read id seen =>
    match e.store.get id with
    | .error f => some (.refused f)
    | .ok x => some (if x.isTerminal then .ended [.ofEnded x] else .forward id seen [])
  | .forward id seen passed =>
    e.events[seen]?.map fun event =>
      if event.executionId = id then
        if event.isFinal then .ended (passed ++ [event])
        else .forward id (seen + 1) (passed ++ [event])
      else .forward id (seen + 1) passed
  | .ended _ | .refused _ => none

/-- Takes up to `n` steps, one after the other. -/
def advance : (n : Nat) → Watch → Engine → Watch
  | 0, w, _ => w
  | n + 1, w, e =>
    match w.step? e with
    | some w => advance n w e
    | none => w

/-- Takes all the steps that can be taken. -/
def catchUp (w : Watch) (e : Engine) : Watch := w.advance (e.events.length + 3) e

def isOver : Watch → Bool
  | .ended _ | .refused _ => true
  | _ => false

/-- What has been passed on. -/
def result : Watch → Except Failure (List Event)
  | .ended passed | .forward _ _ passed => .ok passed
  | .refused f => .error f
  | _ => .ok []

end Watch
end Workflows
