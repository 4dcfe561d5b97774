/-
  Workflows.Proofs.Tools.Slots — one step of someone who uses a tool server.

  `Use.Takes` lists the steps by what is done in them, with the slot each depends on. They are the
  steps there are, however connecting may turn out (`Use.takes_iff`). A step looks at one slot and
  changes no other (`Use.Takes.congr`, `Use.Takes.others`).
-/

import Workflows.Proofs.Keyed
import Workflows.Tools.Connections

namespace Workflows

/-! ## Slots -/

namespace Connections

variable {c : Connections} {servers : List ToolServer} {name other : String} {slot : Slot}

/-- The slot of a server that is configured. -/
def slot? (c : Connections) (name : String) : Option Slot := (Keyed.get? c.slots name).map (·.2)

theorem get?_setSlot : Keyed.get? (c.setSlot name slot).slots other =
    if other = name then (Keyed.get? c.slots other).map fun p => (p.1, slot) else Keyed.get? c.slots other :=
  Keyed.get?_modify c.slots name other fun p => (p.1, slot)

theorem slot?_setSlot (h : (c.slot? name).isSome = true) : (c.setSlot name slot).slot? name = some slot := by
  obtain ⟨old, hold⟩ := Option.isSome_iff_exists.mp h
  obtain ⟨p, hp, -⟩ := Option.map_eq_some_iff.mp hold
  rw [slot?, get?_setSlot, if_pos rfl, hp]
  rfl

theorem names_setSlot : (c.setSlot name slot).names = c.names :=
  Keyed.keys_modify c.slots name fun p => (p.1, slot)

theorem mem_names : name ∈ c.names ↔ (c.slot? name).isSome = true := by
  rw [names, Keyed.mem_keys, slot?, Option.isSome_map]

theorem has_eq (c : Connections) (name : String) : c.has name = (c.slot? name).isSome := by
  rw [has, List.contains_eq_mem, Bool.eq_iff_iff, decide_eq_true_iff, mem_names]

/-- Every slot is that of one of these servers, under its name. -/
def Keeps (c : Connections) (servers : List ToolServer) : Prop :=
  ∀ name p, Keyed.get? c.slots name = some p → p.1 ∈ servers ∧ p.1.name = name

theorem Keeps.setSlot (h : c.Keeps servers) (name : String) (slot : Slot) : (c.setSlot name slot).Keeps servers := by
  intro other p hp
  rw [get?_setSlot] at hp
  split at hp
  · obtain ⟨old, hold, rfl⟩ := Option.map_eq_some_iff.mp hp
    exact h other old hold
  · exact h other p hp

/-- A server is kept under its name, and nobody has connected to it at first. -/
theorem of_get?_ofServers {p : ToolServer × Slot} (h : Keyed.get? (ofServers servers).slots name = some p) :
    (p.1 ∈ servers ∧ p.1.name = name) ∧ p.2 = .empty := by
  rcases Keyed.mem_of_mem_insertAll (Keyed.mem_of_get? h) with hmem | hmem
  · obtain ⟨server, hserver, heq⟩ := List.mem_map.mp hmem
    cases heq
    exact ⟨⟨hserver, rfl⟩, rfl⟩
  · cases hmem

end Connections

/-! ## Steps -/

/-- What someone does in using a server. -/
inductive ToolDeed where
  /-- The server is not configured. -/
  | refused
  /-- Begins to connect. -/
  | attempted
  | failed (error : ConnectError)
  | connected (peer : Peer)
  /-- Shares the connection that there is. -/
  | joined (peer : Peer)
  | abandoned

def ToolDeed.isAttempt : ToolDeed → Bool
  | .attempted => true
  | _ => false

namespace Use

/-- A step, by what is done in it. -/
inductive Takes (c : Connections) : Use → ToolDeed → Use → Connections → Prop
  | refused {name : String} (h : Keyed.get? c.slots name = none) :
      Takes c (.look name) .refused (.settled (.error (unknown name))) c
  | joined {name : String} {server : ToolServer} {peer : Peer}
      (h : Keyed.get? c.slots name = some (server, .connected peer)) :
      Takes c (.look name) (.joined peer) (.settled (.ok peer)) c
  | attempted {name : String} {server : ToolServer} (h : Keyed.get? c.slots name = some (server, .empty)) :
      Takes c (.look name) .attempted (.connect server)
        { c.setSlot name .connecting with attempts := c.attempts ++ [name] }
  | connected (server : ToolServer) (peer : Peer) :
      Takes c (.connect server) (.connected peer) (.settled (.ok peer)) (c.setSlot server.name (.connected peer))
  | failed (server : ToolServer) (error : ConnectError) :
      Takes c (.connect server) (.failed error) (.settled (.error (error.toFailure server.name)))
        (c.setSlot server.name .empty)

variable {u next : Use} {c c' : Connections} {attempt : ToolServer → Except ConnectError Peer} {deed : ToolDeed}

theorem takes_of_step? (h : u.step? attempt c = some (next, c')) : ∃ deed, u.Takes c deed next c' := by
  cases u with
  | look name =>
    simp only [step?] at h
    split at h
    next hnone => cases h; exact ⟨_, .refused hnone⟩
    next server peer hpeer => cases h; exact ⟨_, .joined hpeer⟩
    next => cases h
    next server hempty => cases h; exact ⟨_, .attempted hempty⟩
  | connect server =>
    simp only [step?] at h
    split at h
    next peer _ => cases h; exact ⟨_, .connected server peer⟩
    next error _ => cases h; exact ⟨_, .failed server error⟩
  | settled => cases h

theorem Takes.step? (h : u.Takes c deed next c') : ∃ attempt, u.step? attempt c = some (next, c') := by
  cases h with
  | refused h | joined h | attempted h => exact ⟨fun _ => .error .hungUp, by simp only [Use.step?, h]⟩
  | connected server peer => exact ⟨fun _ => .ok peer, rfl⟩
  | failed server error => exact ⟨fun _ => .error error, rfl⟩

/-- The steps listed are those there are, however connecting turns out. -/
theorem takes_iff : (∃ deed, u.Takes c deed next c') ↔ ∃ attempt, u.step? attempt c = some (next, c') :=
  ⟨fun ⟨_, h⟩ => h.step?, fun ⟨_, h⟩ => takes_of_step? h⟩

/-- The server that someone is about to use. -/
def server? : Use → Option String
  | .look name => some name
  | .connect server => some server.name
  | .settled _ => none

variable {name other : String}

theorem Takes.names (h : u.Takes c deed next c') : c'.names = c.names := by
  cases h with
  | refused | joined => rfl
  | attempted => exact Connections.names_setSlot
  | connected | failed => exact Connections.names_setSlot

/-- A step leaves the slots of other servers. -/
theorem Takes.others (h : u.Takes c deed next c') (hname : u.server? = some name) (hne : other ≠ name) :
    Keyed.get? c'.slots other = Keyed.get? c.slots other := by
  cases h with
  | refused | joined => rfl
  | attempted | connected | failed =>
    cases hname
    exact Connections.get?_setSlot.trans (if_neg hne)

theorem Takes.pending (h : u.Takes c deed next c') : u.server?.isSome = true := by
  cases h <;> rfl

theorem Takes.keeps {servers : List ToolServer} (h : u.Takes c deed next c') (hkeeps : c.Keeps servers) :
    c'.Keeps servers := by
  cases h with
  | refused | joined => exact hkeeps
  | attempted | connected | failed => exact hkeeps.setSlot _ _

/-- Nothing but an attempt is noted. -/
theorem Takes.attempts (h : u.Takes c deed next c') (hname : u.server? = some name) :
    c'.attempts = c.attempts ++ if deed.isAttempt = true then [name] else [] := by
  cases h with
  | refused | joined | connected | failed => exact (List.append_nil _).symm
  | attempted =>
    cases hname
    rfl

/-- What a step is depends on the slot of the server alone. -/
theorem Takes.congr {d : Connections} (h : u.Takes c deed next c') (hname : u.server? = some name)
    (hsame : Keyed.get? d.slots name = Keyed.get? c.slots name) :
    ∃ d', u.Takes d deed next d' ∧ Keyed.get? d'.slots name = Keyed.get? c'.slots name := by
  cases h with
  | refused h | joined h =>
    cases hname
    exact ⟨d, by constructor; exact hsame.trans h, hsame⟩
  | attempted h =>
    cases hname
    refine ⟨_, .attempted (hsame.trans h), ?_⟩
    change Keyed.get? (d.setSlot name .connecting).slots name = Keyed.get? (c.setSlot name .connecting).slots name
    rw [Connections.get?_setSlot, Connections.get?_setSlot, hsame]
  | connected server peer =>
    cases hname
    exact ⟨_, .connected server peer, by rw [Connections.get?_setSlot, Connections.get?_setSlot, hsame]⟩
  | failed server error =>
    cases hname
    exact ⟨_, .failed server error, by rw [Connections.get?_setSlot, Connections.get?_setSlot, hsame]⟩

/-- An attempt that is given up leaves the slot empty. -/
def release (u : Use) (c : Connections) : Connections :=
  match u with
  | .connect server => c.setSlot server.name .empty
  | .look _ | .settled _ => c

theorem names_release (u : Use) (c : Connections) : (u.release c).names = c.names := by
  cases u with
  | connect => exact Connections.names_setSlot
  | look | settled => rfl

theorem attempts_release (u : Use) (c : Connections) : (u.release c).attempts = c.attempts := by
  cases u <;> rfl

theorem keeps_release {servers : List ToolServer} (u : Use) (hkeeps : c.Keeps servers) :
    (u.release c).Keeps servers := by
  cases u with
  | connect => exact hkeeps.setSlot _ _
  | look | settled => exact hkeeps

theorem others_release (hname : u.server? = some name) (hne : other ≠ name) :
    Keyed.get? (u.release c).slots other = Keyed.get? c.slots other := by
  cases u with
  | connect =>
    cases hname
    exact Connections.get?_setSlot.trans (if_neg hne)
  | look | settled => rfl

theorem release_congr {d : Connections} (u : Use) (hsame : Keyed.get? d.slots name = Keyed.get? c.slots name) :
    Keyed.get? (u.release d).slots name = Keyed.get? (u.release c).slots name := by
  cases u with
  | connect =>
    change Keyed.get? (d.setSlot _ _).slots name = Keyed.get? (c.setSlot _ _).slots name
    rw [Connections.get?_setSlot, Connections.get?_setSlot, hsame]
  | look | settled => exact hsame

end Use

/-! ## Requests -/

/-- What is asked of the connections. -/
inductive ToolRequest where
  | service (name : String)
  | list (name : String)
  | call (c : ToolCall)

/-- What it is answered. -/
inductive ToolReply where
  | service (r : Except Failure Peer)
  | tools (r : Except NodeError (List Json))
  | answer (r : Except NodeError Json)

namespace ToolRequest

def server : ToolRequest → String
  | .service name | .list name => name
  | .call c => c.server

end ToolRequest

/-- Serves a request with no one else around. -/
def Connections.perform (c : Connections) (attempt : ToolServer → Except ConnectError Peer) (q : ToolRequest) :
    ToolReply × Connections :=
  match q with
  | .service name => (.service (c.service attempt name).1, (c.service attempt name).2)
  | .list name => (.tools (c.tools attempt name).1, (c.tools attempt name).2)
  | .call call => (.answer (c.call attempt call).1, (c.call attempt call).2)

namespace Connections

variable {c : Connections} {attempt : ToolServer → Except ConnectError Peer} {name : String}

end Connections

end Workflows
