/-
  Workflows.Proofs.Tools.Shared — every tool server is connected once and shared, apart from all others.

  Whoever uses a server first connects, and until that succeeds whoever comes next connects anew; after
  that all share the connection (`ToolEntry.Fits`). Nobody waits but for someone who connects to the same
  server, and what becomes of the clients of a server could have come about without those of the others
  (`ToolSession.Serves.alone`). Requests made one after the other are a history too
  (`ToolSession.Serves.performs`), so what is proved of sessions holds of them (`sharesConnections`).
-/

import Workflows.Config.Override
import Workflows.Proofs.Tools.Sessions

namespace Workflows

/-- A session as the clients of one server see it, those of others away. -/
structure ToolSession.Narrows (name : String) (s t : ToolSession) : Prop where
  slot : Keyed.get? t.connections.slots name = Keyed.get? s.connections.slots name
  clients : ∀ i client, t.clients i = some client ↔ s.clients i = some client ∧ client.request.server = name

namespace Config

end Config

section

variable {servers : List ToolServer} {past : List ToolEntry} {s : ToolSession} {i : Nat} {q : ToolRequest} {u : Use}
  {attempt : ToolServer → Except ConnectError Peer}

namespace ToolSession

/-! ## Servers apart -/

namespace Narrows

variable {name : String} {t : ToolSession} {client : ToolClient} {c d : Connections}

/-- What a client of the server does is seen. -/
theorem put (h : s.Narrows name t) (hname : client.request.server = name)
    (hslot : Keyed.get? d.slots name = Keyed.get? c.slots name) :
    (s.put i client c).Narrows name (t.put i client d) where
  slot := hslot
  clients j other := by
    by_cases hne : j = i
    · rw [hne, clients_put_self, clients_put_self]
      exact ⟨fun heq => ⟨heq, Option.some.inj heq ▸ hname⟩, And.left⟩
    · rw [clients_put_of_ne _ _ _ hne, clients_put_of_ne _ _ _ hne]
      exact h.clients j other

/-- What a client of another does is not. -/
theorem put_other (h : s.Narrows name t) (hi : ∀ old, s.clients i = some old → old.request.server ≠ name)
    (hname : client.request.server ≠ name) (hslot : Keyed.get? c.slots name = Keyed.get? s.connections.slots name) :
    (s.put i client c).Narrows name t where
  slot := h.slot.trans hslot.symm
  clients j other := by
    by_cases hne : j = i
    · rw [hne, clients_put_self, h.clients]
      refine ⟨fun ⟨hold, hserver⟩ => absurd hserver (hi other hold), fun ⟨heq, hserver⟩ => ?_⟩
      exact absurd (Option.some.inj heq ▸ hserver) hname
    · rw [clients_put_of_ne _ _ _ hne]
      exact h.clients j other

theorem seen (h : s.Narrows name t) (hi : s.clients i = some client) (hname : client.request.server = name) :
    t.clients i = some client := (h.clients i client).mpr ⟨hi, hname⟩

end Narrows

/-- What a client of the server does it could do alone, and what one of another does leaves the slot. -/
theorem Serves.alone_append {name : String} {t : ToolSession} {deed : ToolDeed} {use : Option Use} {c : Connections}
    (ht : Serves servers (past.filter (·.server = name)) t) (hsame : s.Narrows name t)
    (hi : s.clients i = some ⟨q, some u⟩)
    (hown : q.server = name → ∃ d, Keyed.get? d.slots name = Keyed.get? c.slots name ∧
      Serves servers (past.filter (·.server = name) ++ [⟨i, q.server, deed⟩]) (t.put i ⟨q, use⟩ d))
    (hother : q.server ≠ name → Keyed.get? c.slots name = Keyed.get? s.connections.slots name) :
    ∃ t, Serves servers (List.filter (·.server = name) (past ++ [⟨i, q.server, deed⟩])) t ∧
      (s.put i ⟨q, use⟩ c).Narrows name t := by
  rw [List.filter_append, List.filter_cons]
  by_cases hname : q.server = name
  · obtain ⟨d, hslot, hserves⟩ := hown hname
    rw [if_pos (decide_eq_true hname)]
    exact ⟨_, hserves, hsame.put hname hslot⟩
  · rw [if_neg (by simpa using hname), List.filter_nil, List.append_nil]
    refine ⟨t, ht, hsame.put_other (fun old hold => ?_) hname (hother hname)⟩
    cases hi.symm.trans hold
    exact hname

/-- The clients of a server fare as they could with those of all others away. -/
theorem Serves.alone (h : Serves servers past s) (name : String) :
    ∃ t, Serves servers (past.filter (·.server = name)) t ∧ s.Narrows name t := by
  induction h with
  | opens => exact ⟨_, .opens, rfl, fun _ _ => ⟨nofun, nofun⟩⟩
  | @asked past s i h hi q ih =>
    obtain ⟨t, ht, hsame⟩ := ih
    by_cases hname : q.server = name
    · have hnone : t.clients i = none := Option.eq_none_iff_forall_ne_some.mpr fun client hclient => by
        rw [((hsame.clients i client).mp hclient).1] at hi
        cases hi
      exact ⟨_, ht.asked hnone q, hsame.put hname hsame.slot⟩
    · exact ⟨t, ht, hsame.put_other (fun old hold => absurd (hi.symm.trans hold) nofun) hname rfl⟩
  | @step past s i q u next deed c h hi hstep ih =>
    obtain ⟨t, ht, hsame⟩ := ih
    have hserver := h.books.server? hi hstep.pending
    refine ht.alone_append hsame hi (fun hname => ?_) fun hname => hstep.others hserver hname.symm
    obtain ⟨d, hstep, hslot⟩ := hstep.congr (hserver.trans (congrArg some hname)) hsame.slot
    exact ⟨d, hslot, ht.step (hsame.seen hi hname) hstep⟩
  | @abandoned past s i q u h hi pending ih =>
    obtain ⟨t, ht, hsame⟩ := ih
    have hserver := h.books.server? hi pending
    refine ht.alone_append hsame hi (fun hname => ?_) fun hname => Use.others_release hserver hname.symm
    exact ⟨_, u.release_congr hsame.slot, ht.abandoned (hsame.seen hi hname) pending⟩

/-! ## One request after the other -/

theorem put_put (client client' : ToolClient) (c d : Connections) :
    (s.put i client c).put i client' d = s.put i client' d := by
  rw [put, put, put, Function.update_idem]

theorem put_self {client : ToolClient} (hi : s.clients i = some client) : s.put i client s.connections = s := by
  rw [put, ← hi, Function.update_eq_self]

/-- A client may take one step after the other. -/
theorem Serves.advance (attempt : ToolServer → Except ConnectError Peer) (n : Nat) (h : Serves servers past s)
    (hi : s.clients i = some ⟨q, some u⟩) :
    ∃ deeds : List ToolDeed, Serves servers (past ++ deeds.map (⟨i, q.server, ·⟩))
      (s.put i ⟨q, some (u.advance attempt n s.connections).1⟩ (u.advance attempt n s.connections).2) := by
  induction n generalizing past s u with
  | zero =>
    refine ⟨[], ?_⟩
    rw [Use.advance, put_self hi, List.map_nil, List.append_nil]
    exact h
  | succ n ih =>
    rw [Use.advance]
    rcases hstep : u.step? attempt s.connections with - | ⟨next, c⟩
    · refine ⟨[], ?_⟩
      rw [put_self hi, List.map_nil, List.append_nil]
      exact h
    · obtain ⟨deed, ht⟩ := Use.takes_of_step? hstep
      obtain ⟨deeds, hlater⟩ := ih (h.step hi ht) (clients_put_self ..)
      refine ⟨deed :: deeds, ?_⟩
      rw [put_put, List.append_assoc] at hlater
      exact hlater

end ToolSession

end

namespace Pair

def slow : ToolServer := { name := "slow", command := "sleep" }
def flaky : ToolServer := { name := "flaky", command := "flaky" }
def config : Config := { toolServers := [slow, flaky] }
def peer : Peer := { pages := .ok [], call := fun _ _ => .ok .null }

/-- One server never answers, the other does when it is asked again. -/
def past : List ToolEntry :=
  [⟨0, "slow", .attempted⟩, ⟨1, "flaky", .attempted⟩, ⟨1, "flaky", .failed .noCommand⟩, ⟨2, "flaky", .attempted⟩,
    ⟨2, "flaky", .connected peer⟩, ⟨3, "flaky", .joined peer⟩, ⟨4, "absent", .refused⟩]

end Pair

end Workflows
