/-
  Workflows.Proofs.Tools.Sessions — tool servers, and all who use them at once.

  In a session any number of clients use the configured servers. Their steps come in any order, every
  attempt to connect turns out any way, and whoever has asked may give up (`ToolSession.Serves`). What
  a client does is seen by its own server alone (`Use.Turns`); what holds of slots and clients at every
  point (`Books`) is kept by each of these turns.
-/

import Mathlib.Logic.Function.Basic
import Workflows.Proofs.Tools.Slots

namespace Workflows

/-- Someone who has asked for something. One that has given up uses nothing. -/
structure ToolClient where
  request : ToolRequest
  use : Option Use

/-- The connections, and those who use them. -/
structure ToolSession where
  connections : Connections
  clients : Nat → Option ToolClient

/-- What a client did, and with which server. -/
structure ToolEntry where
  client : Nat
  server : String
  deed : ToolDeed

namespace ToolSession

/-- The session after a client has come to be as it is now. -/
def put (s : ToolSession) (i : Nat) (client : ToolClient) (c : Connections) : ToolSession :=
  ⟨c, Function.update s.clients i (some client)⟩

/-- What has been done on the connections of these servers, in order, and led to a session. -/
inductive Serves (servers : List ToolServer) : List ToolEntry → ToolSession → Prop
  | opens : Serves servers [] ⟨.ofServers servers, fun _ => none⟩
  | asked {past : List ToolEntry} {s : ToolSession} {i : Nat} (h : Serves servers past s) (hi : s.clients i = none)
      (q : ToolRequest) : Serves servers past (s.put i ⟨q, some (.look q.server)⟩ s.connections)
  | step {past : List ToolEntry} {s : ToolSession} {i : Nat} {q : ToolRequest} {u next : Use} {deed : ToolDeed}
      {c : Connections} (h : Serves servers past s) (hi : s.clients i = some ⟨q, some u⟩)
      (ht : u.Takes s.connections deed next c) :
      Serves servers (past ++ [⟨i, q.server, deed⟩]) (s.put i ⟨q, some next⟩ c)
  | abandoned {past : List ToolEntry} {s : ToolSession} {i : Nat} {q : ToolRequest} {u : Use}
      (h : Serves servers past s) (hi : s.clients i = some ⟨q, some u⟩) (pending : u.server?.isSome = true) :
      Serves servers (past ++ [⟨i, q.server, .abandoned⟩]) (s.put i ⟨q, none⟩ (u.release s.connections))

end ToolSession

/-! ## One server -/

/-- What a client does with one of these servers, told by the slot of that server before and after. -/
inductive Use.Turns (servers : List ToolServer) (name : String) :
    Option Slot → Use → ToolDeed → Option Use → Option Slot → Prop
  | refused : Turns servers name none (.look name) .refused (some (.settled (.error (unknown name)))) none
  | joined (peer : Peer) : Turns servers name (some (.connected peer)) (.look name) (.joined peer)
      (some (.settled (.ok peer))) (some (.connected peer))
  | attempted {server : ToolServer} (h : server ∈ servers ∧ server.name = name) :
      Turns servers name (some .empty) (.look name) .attempted (some (.connect server)) (some .connecting)
  | connected (server : ToolServer) (peer : Peer) : Turns servers name (some .connecting) (.connect server)
      (.connected peer) (some (.settled (.ok peer))) (some (.connected peer))
  | failed (server : ToolServer) (error : ConnectError) : Turns servers name (some .connecting) (.connect server)
      (.failed error) (some (.settled (.error (error.toFailure name)))) (some .empty)
  | left (slot : Option Slot) : Turns servers name slot (.look name) .abandoned none slot
  | dropped (server : ToolServer) :
      Turns servers name (some .connecting) (.connect server) .abandoned none (some .empty)

/-- What a client has done with a server, known or not, and how it stands. -/
inductive ToolClient.Stands (servers : List ToolServer) (name : String) :
    (known : Bool) → List ToolDeed → Option Use → Prop
  | looking {known : Bool} : Stands servers name known [] (some (.look name))
  | refused : Stands servers name false [.refused] (some (.settled (.error (Use.unknown name))))
  | joined (peer : Peer) : Stands servers name true [.joined peer] (some (.settled (.ok peer)))
  | connecting {server : ToolServer} (h : server ∈ servers ∧ server.name = name) :
      Stands servers name true [.attempted] (some (.connect server))
  | connected (peer : Peer) : Stands servers name true [.attempted, .connected peer] (some (.settled (.ok peer)))
  | failed (error : ConnectError) :
      Stands servers name true [.attempted, .failed error] (some (.settled (.error (error.toFailure name))))
  | left {known : Bool} : Stands servers name known [.abandoned] none
  | dropped : Stands servers name true [.attempted, .abandoned] none

/-- What a client has done, in order. -/
def deedsOf (i : Nat) (past : List ToolEntry) : List ToolDeed := (past.filter (·.client = i)).map (·.deed)

/-- A client connected to the server, and to this peer. -/
def Linked (past : List ToolEntry) (name : String) (peer : Peer) : Prop := ∃ i, ⟨i, name, .connected peer⟩ ∈ past

/-- Nobody attempts to connect once a connection was made, and only one that was made is shared. -/
def ToolEntry.Fits (before : List ToolEntry) (x : ToolEntry) : Prop :=
  match x.deed with
  | .attempted | .failed _ | .connected _ => ∀ peer, ¬ Linked before x.server peer
  | .joined peer => Linked before x.server peer
  | .refused | .abandoned => True

section

variable {servers : List ToolServer} {past : List ToolEntry} {s : ToolSession} {i j : Nat} {q : ToolRequest}
  {u next : Use} {use : Option Use} {deed : ToolDeed} {c : Connections} {name : String} {peer : Peer}
  {slot slot' : Option Slot}

theorem deedsOf_self {server : String} : deedsOf i (past ++ [⟨i, server, deed⟩]) = deedsOf i past ++ [deed] := by
  rw [deedsOf, List.filter_append, List.map_append, List.filter_cons, if_pos (decide_eq_true rfl)]
  rfl

theorem deedsOf_other {server : String} (hne : i ≠ j) : deedsOf j (past ++ [⟨i, server, deed⟩]) = deedsOf j past := by
  rw [deedsOf, List.filter_append, List.map_append, List.filter_cons, if_neg (by simpa using hne)]
  exact List.append_nil _

namespace ToolClient.Stands

variable {known : Bool} {deeds : List ToolDeed} {r : Except Failure Peer}

theorem server? (h : Stands servers name known deeds (some u)) (pending : u.server?.isSome = true) :
    u.server? = some name := by
  cases h with
  | looking => rfl
  | connecting h => exact congrArg some h.2
  | refused | joined | connected | failed => cases pending

end ToolClient.Stands

namespace Use.Turns

variable (h : u.Turns servers name slot deed use slot')
include h

theorem stands {known : Bool} {deeds : List ToolDeed} (hknown : slot.isSome = known)
    (hs : ToolClient.Stands servers name known deeds (some u)) :
    ToolClient.Stands servers name known (deeds ++ [deed]) use := by
  cases h with
  | refused =>
    cases hknown
    cases hs
    exact .refused
  | joined peer =>
    cases hknown
    cases hs
    exact .joined peer
  | attempted hname =>
    cases hknown
    cases hs
    exact .connecting hname
  | connected server peer =>
    cases hs
    exact .connected peer
  | failed server error =>
    cases hs
    exact .failed error
  | left =>
    cases hs
    exact .left
  | dropped =>
    cases hs
    exact .dropped

/-- Only an empty slot is taken. -/
theorem taken {server : ToolServer} (huse : use = some (.connect server)) :
    slot = some .empty ∧ slot' = some .connecting := by
  cases h <;> cases huse
  exact ⟨rfl, rfl⟩

/-- The slot to which someone connects is left to that one. -/
theorem of_connecting (hslot : slot = some .connecting) :
    (∃ server, u = .connect server) ∨ slot' = some .connecting := by
  cases h with
  | connected | failed | dropped => exact .inl ⟨_, rfl⟩
  | left => exact .inr hslot
  | refused | joined | attempted => cases hslot

/-- A slot is being connected because of this turn, or was before and is left alone. -/
theorem to_connecting (hslot : slot' = some .connecting) :
    (∃ server, use = some (.connect server)) ∨ slot = some .connecting ∧ ∀ server, u ≠ .connect server := by
  cases h with
  | attempted => exact .inl ⟨_, rfl⟩
  | left => exact .inr ⟨hslot, nofun⟩
  | refused | joined | connected | failed | dropped => cases hslot

/-- A connection that is made stays, and comes of a connection only. -/
theorem connected_iff : slot' = some (.connected peer) ↔ slot = some (.connected peer) ∨ deed = .connected peer := by
  cases h <;> simp

/-- What is done fits the slot. -/
theorem fits (hlinked : ∀ peer, Linked past name peer ↔ slot = some (.connected peer)) (i : Nat) :
    ToolEntry.Fits past ⟨i, name, deed⟩ := by
  cases h with
  | refused | left | dropped => trivial
  | joined peer => exact (hlinked peer).mpr rfl
  | attempted | connected | failed => exact fun peer hpeer => absurd ((hlinked peer).mp hpeer) nofun

end Use.Turns

namespace Use

variable {c' : Connections}

/-- A step is a turn with the server that is used. -/
theorem Takes.turns (h : u.Takes c deed next c') (hname : u.server? = some name)
    (hkeeps : c.Keeps servers)
    (hbusy : ∀ server, u = .connect server → c.slot? name = some .connecting) :
    u.Turns servers name (c.slot? name) deed (some next) (c'.slot? name) := by
  cases h with
  | refused hslot =>
    cases hname
    rw [Connections.slot?, hslot]
    exact .refused
  | joined hslot =>
    cases hname
    rw [Connections.slot?, hslot]
    exact .joined _
  | attempted hslot =>
    cases hname
    have hempty : c.slot? name = some .empty := congrArg (Option.map Prod.snd) hslot
    change Turns _ _ _ _ _ _ ((c.setSlot name .connecting).slot? name)
    rw [Connections.slot?_setSlot (hempty ▸ rfl), hempty]
    exact .attempted (hkeeps name _ hslot)
  | connected server peer =>
    cases hname
    have hold := hbusy server rfl
    rw [Connections.slot?_setSlot (hold ▸ rfl), hold]
    exact .connected server peer
  | failed server error =>
    cases hname
    have hold := hbusy server rfl
    rw [Connections.slot?_setSlot (hold ▸ rfl), hold]
    exact .failed server error

/-- To give up is a turn as well. -/
theorem turns_release (hname : u.server? = some name)
    (hbusy : ∀ server, u = .connect server → c.slot? name = some .connecting) :
    u.Turns servers name (c.slot? name) .abandoned none ((u.release c).slot? name) := by
  cases u with
  | look =>
    cases hname
    exact .left _
  | connect server =>
    cases hname
    have hold := hbusy server rfl
    change Turns _ _ _ _ _ _ ((c.setSlot server.name .empty).slot? server.name)
    rw [Connections.slot?_setSlot (hold ▸ rfl), hold]
    exact .dropped server
  | settled => cases hname

end Use

namespace ToolSession

/-! ## What holds at every point -/

/-- What is known of a session from what has been done. -/
structure Books (servers : List ToolServer) (past : List ToolEntry) (s : ToolSession) : Prop where
  names : s.connections.names = (Connections.ofServers servers).names
  keeps : s.connections.Keeps servers
  about : ∀ x ∈ past, ∃ client, s.clients x.client = some client ∧ client.request.server = x.server
  stands : ∀ i q use, s.clients i = some ⟨q, use⟩ →
    ToolClient.Stands servers q.server (s.connections.has q.server) (deedsOf i past) use
  /-- Whoever connects does so to a server of which that is noted. -/
  busy : ∀ i q server, s.clients i = some ⟨q, some (.connect server)⟩ → s.connections.slot? q.server = some .connecting
  held : ∀ name, s.connections.slot? name = some .connecting →
    ∃ i q server, s.clients i = some ⟨q, some (.connect server)⟩ ∧ q.server = name
  single : ∀ i j q r server other, s.clients i = some ⟨q, some (.connect server)⟩ →
    s.clients j = some ⟨r, some (.connect other)⟩ → q.server = r.server → i = j
  linked : ∀ name peer, Linked past name peer ↔ s.connections.slot? name = some (.connected peer)
  attempts : s.connections.attempts = (past.filter (·.deed.isAttempt)).map (·.server)
  fits : ∀ before x after, past = before ++ x :: after → x.Fits before

theorem clients_put_self (s : ToolSession) (client : ToolClient) (c : Connections) :
    (s.put i client c).clients i = some client := Function.update_self ..

theorem clients_put_of_ne (s : ToolSession) (client : ToolClient) (c : Connections) (hne : j ≠ i) :
    (s.put i client c).clients j = s.clients j := Function.update_of_ne hne ..

theorem clients_put_iff {client other : ToolClient} : (s.put i client c).clients j = some other ↔
    j = i ∧ client = other ∨ j ≠ i ∧ s.clients j = some other := by
  by_cases hne : j = i
  · rw [hne, clients_put_self, Option.some.injEq]
    simp
  · rw [clients_put_of_ne _ _ _ hne]
    simp [hne]

theorem linked_append {x : ToolEntry} :
    Linked (past ++ [x]) name peer ↔ Linked past name peer ∨ x.server = name ∧ x.deed = .connected peer := by
  constructor
  · rintro ⟨j, hj⟩
    rcases List.mem_append.mp hj with hj | hj
    · exact .inl ⟨j, hj⟩
    · cases List.mem_singleton.mp hj
      exact .inr ⟨rfl, rfl⟩
  · rintro (⟨j, hj⟩ | ⟨rfl, hdeed⟩)
    · exact ⟨j, List.mem_append_left _ hj⟩
    · exact ⟨x.client, List.mem_append_right _ (List.mem_singleton.mpr (hdeed ▸ rfl))⟩

/-- A client takes its turn with its server, and leaves the others to theirs. -/
structure Turned (servers : List ToolServer) (s : ToolSession) (i : Nat) (q : ToolRequest) (u : Use) (deed : ToolDeed)
    (use : Option Use) (c : Connections) : Prop where
  client : s.clients i = some ⟨q, some u⟩
  names : c.names = s.connections.names
  keeps : c.Keeps servers
  others : ∀ name, name ≠ q.server → c.slot? name = s.connections.slot? name
  turn : u.Turns servers q.server (s.connections.slot? q.server) deed use (c.slot? q.server)
  attempts : c.attempts = s.connections.attempts ++ if deed.isAttempt = true then [q.server] else []

namespace Books

theorem opens (servers : List ToolServer) : Books servers [] ⟨.ofServers servers, fun _ => none⟩ := by
  have hempty : ∀ {name slot}, (Connections.ofServers servers).slot? name = some slot → slot = .empty := fun hslot => by
    obtain ⟨p, hp, rfl⟩ := Option.map_eq_some_iff.mp hslot
    exact (Connections.of_get?_ofServers hp).2
  exact
    { names := rfl
      keeps := fun name p hp => (Connections.of_get?_ofServers hp).1
      about := List.forall_mem_nil _
      stands := nofun
      busy := nofun
      held := fun name hslot => absurd (hempty hslot) nofun
      single := nofun
      linked := fun name peer =>
        ⟨fun ⟨_, hmem⟩ => absurd hmem List.not_mem_nil, fun hslot => absurd (hempty hslot) nofun⟩
      attempts := rfl
      fits := fun before x after hpast =>
        absurd hpast.symm (List.append_ne_nil_of_right_ne_nil before (List.cons_ne_nil x after)) }

theorem asked (h : Books servers past s) (hi : s.clients i = none) (q : ToolRequest) :
    Books servers past (s.put i ⟨q, some (.look q.server)⟩ s.connections) := by
  have hother : ∀ {j client}, s.clients j = some client → j ≠ i := fun hj heq => by
    rw [heq, hi] at hj
    cases hj
  have hconnecting : ∀ {j r server}, (s.put i ⟨q, some (.look q.server)⟩ s.connections).clients j =
      some ⟨r, some (.connect server)⟩ → s.clients j = some ⟨r, some (.connect server)⟩ := fun {j r server} hj => by
    rcases clients_put_iff.mp hj with ⟨-, heq⟩ | ⟨-, hj⟩
    · cases heq
    · exact hj
  refine { h with about := ?_, stands := ?_, busy := ?_, held := ?_, single := ?_ }
  · intro x hx
    obtain ⟨client, hclient, hserver⟩ := h.about x hx
    exact ⟨client, (clients_put_of_ne _ _ _ (hother hclient)).trans hclient, hserver⟩
  · intro j r use hj
    rcases clients_put_iff.mp hj with ⟨rfl, heq⟩ | ⟨-, hj⟩
    · cases heq
      have hnone : deedsOf j past = [] := by
        refine List.map_eq_nil_iff.mpr (List.filter_eq_nil_iff.mpr fun x hx hclient => ?_)
        obtain ⟨client, hknown, -⟩ := h.about x hx
        exact hother hknown (of_decide_eq_true hclient)
      rw [hnone]
      exact .looking
    · exact h.stands j r use hj
  · exact fun j r server hj => h.busy j r server (hconnecting hj)
  · intro name hslot
    obtain ⟨j, r, server, hj, hname⟩ := h.held name hslot
    exact ⟨j, r, server, (clients_put_of_ne _ _ _ (hother hj)).trans hj, hname⟩
  · exact fun j k r r' server other hj hk => h.single j k r r' server other (hconnecting hj) (hconnecting hk)

section

variable (h : Books servers past s) (ht : Turned servers s i q u deed use c)
include h ht

theorem about_turn : ∀ x ∈ past ++ [⟨i, q.server, deed⟩], ∃ client,
    (s.put i ⟨q, use⟩ c).clients x.client = some client ∧ client.request.server = x.server := by
  intro x hx
  rcases List.mem_append.mp hx with hx | hx
  · obtain ⟨client, hclient, hserver⟩ := h.about x hx
    by_cases hne : x.client = i
    · rw [hne, ht.client] at hclient
      cases hclient
      exact ⟨⟨q, use⟩, hne ▸ clients_put_self .., hserver⟩
    · exact ⟨client, (clients_put_of_ne _ _ _ hne).trans hclient, hserver⟩
  · cases List.mem_singleton.mp hx
    exact ⟨⟨q, use⟩, clients_put_self .., rfl⟩

theorem stands_turn {r : ToolRequest} {stand : Option Use} (hj : (s.put i ⟨q, use⟩ c).clients j = some ⟨r, stand⟩) :
    ToolClient.Stands servers r.server (c.has r.server) (deedsOf j (past ++ [⟨i, q.server, deed⟩])) stand := by
  rw [Connections.has, ht.names, ← Connections.has]
  rcases clients_put_iff.mp hj with ⟨rfl, heq⟩ | ⟨hne, hj⟩
  · cases heq
    rw [deedsOf_self]
    exact ht.turn.stands (Connections.has_eq ..).symm (h.stands j q (some u) ht.client)
  · rw [deedsOf_other (Ne.symm hne)]
    exact h.stands j r stand hj

/-- Who connected before and is not the one to take a turn still does. -/
theorem busy_turn {r : ToolRequest} {server : ToolServer}
    (hj : (s.put i ⟨q, use⟩ c).clients j = some ⟨r, some (.connect server)⟩) : c.slot? r.server = some .connecting := by
  rcases clients_put_iff.mp hj with ⟨rfl, heq⟩ | ⟨hne, hj⟩
  · cases heq
    exact (ht.turn.taken rfl).2
  · have hbusy := h.busy j r server hj
    by_cases hserver : r.server = q.server
    · rw [hserver] at hbusy ⊢
      rcases ht.turn.of_connecting hbusy with ⟨own, rfl⟩ | hstill
      · exact absurd (h.single j i r q server own hj ht.client hserver) hne
      · exact hstill
    · exact (ht.others _ hserver).trans hbusy

theorem held_turn (hslot : c.slot? name = some .connecting) :
    ∃ j r server, (s.put i ⟨q, use⟩ c).clients j = some ⟨r, some (.connect server)⟩ ∧ r.server = name := by
  have hbefore : s.connections.slot? name = some .connecting → (∀ server, q.server = name → u ≠ .connect server) →
      ∃ j r server, (s.put i ⟨q, use⟩ c).clients j = some ⟨r, some (.connect server)⟩ ∧ r.server = name := by
    intro hslot hown
    obtain ⟨j, r, server, hj, hname⟩ := h.held name hslot
    have hne : j ≠ i := fun heq => by
      rw [heq, ht.client] at hj
      cases hj
      exact hown server hname rfl
    exact ⟨j, r, server, (clients_put_of_ne _ _ _ hne).trans hj, hname⟩
  by_cases hserver : name = q.server
  · subst hserver
    rcases ht.turn.to_connecting hslot with ⟨server, huse⟩ | ⟨hslot, hown⟩
    · exact ⟨i, q, server, huse ▸ clients_put_self .., rfl⟩
    · exact hbefore hslot fun server _ => hown server
  · exact hbefore ((ht.others _ hserver).symm.trans hslot) fun _ hname => absurd hname.symm hserver

theorem single_turn {k : Nat} {r r' : ToolRequest} {server other : ToolServer}
    (hj : (s.put i ⟨q, use⟩ c).clients j = some ⟨r, some (.connect server)⟩)
    (hk : (s.put i ⟨q, use⟩ c).clients k = some ⟨r', some (.connect other)⟩) (hsame : r.server = r'.server) :
    j = k := by
  -- nobody begins to connect to a server to which another connects
  have htaken : ∀ {k r server}, s.clients k = some ⟨r, some (.connect server)⟩ → r.server = q.server →
      ∀ {own}, use ≠ some (.connect own) := fun {k r server} hk hserver {own} huse => by
    have hbusy := h.busy k r server hk
    rw [hserver, (ht.turn.taken huse).1] at hbusy
    cases hbusy
  rcases clients_put_iff.mp hj with ⟨hji, hown⟩ | ⟨-, hbefore⟩
  · cases hown
    rcases clients_put_iff.mp hk with ⟨hki, -⟩ | ⟨-, hbefore⟩
    · exact hji.trans hki.symm
    · exact absurd rfl (htaken hbefore hsame.symm)
  · rcases clients_put_iff.mp hk with ⟨-, hown⟩ | ⟨-, hbefore'⟩
    · cases hown
      exact absurd rfl (htaken hbefore hsame)
    · exact h.single j k r r' server other hbefore hbefore' hsame

theorem linked_turn (name : String) (peer : Peer) :
    Linked (past ++ [⟨i, q.server, deed⟩]) name peer ↔ c.slot? name = some (.connected peer) := by
  rw [linked_append, h.linked]
  by_cases hserver : name = q.server
  · subst hserver
    rw [ht.turn.connected_iff]
    exact or_congr_right (and_iff_right rfl)
  · rw [ht.others _ hserver]
    exact or_iff_left fun hdeed => hserver hdeed.1.symm

theorem fits_turn {before after : List ToolEntry} {x : ToolEntry}
    (hpast : past ++ [⟨i, q.server, deed⟩] = before ++ x :: after) : x.Fits before := by
  rcases List.eq_nil_or_concat after with rfl | ⟨after, last, rfl⟩
  · obtain ⟨rfl, hx⟩ := List.append_inj' hpast rfl
    cases hx
    exact ht.turn.fits (h.linked q.server) i
  · rw [List.concat_eq_append, ← List.cons_append, ← List.append_assoc] at hpast
    exact h.fits before x after (List.append_inj' hpast rfl).1

/-- What is known is so after every turn. -/
theorem turn : Books servers (past ++ [⟨i, q.server, deed⟩]) (s.put i ⟨q, use⟩ c) where
  names := ht.names.trans h.names
  keeps := ht.keeps
  about := h.about_turn ht
  stands _ _ _ hj := h.stands_turn ht hj
  busy _ _ _ hj := h.busy_turn ht hj
  held _ hslot := h.held_turn ht hslot
  single _ _ _ _ _ _ hj hk hsame := h.single_turn ht hj hk hsame
  linked := h.linked_turn ht
  attempts := by
    refine ht.attempts.trans ?_
    rw [h.attempts, List.filter_append, List.map_append, List.filter_cons]
    split <;> rfl
  fits _ _ _ hpast := h.fits_turn ht hpast

end

/-- The server a client uses is the one it asked for. -/
theorem server? (h : Books servers past s) (hi : s.clients i = some ⟨q, some u⟩) (pending : u.server?.isSome = true) :
    u.server? = some q.server := (h.stands i q (some u) hi).server? pending

/-- A step is a turn. -/
theorem turned_step (h : Books servers past s) (hi : s.clients i = some ⟨q, some u⟩)
    (ht : u.Takes s.connections deed next c) : Turned servers s i q u deed (some next) c where
  client := hi
  names := ht.names
  keeps := ht.keeps h.keeps
  others _ hne := congrArg (Option.map Prod.snd) (ht.others (h.server? hi ht.pending) hne)
  turn := ht.turns (h.server? hi ht.pending) h.keeps fun server heq => h.busy i q server (heq ▸ hi)
  attempts := ht.attempts (h.server? hi ht.pending)

/-- To give up is one as well. -/
theorem turned_release (h : Books servers past s) (hi : s.clients i = some ⟨q, some u⟩)
    (pending : u.server?.isSome = true) : Turned servers s i q u .abandoned none (u.release s.connections) where
  client := hi
  names := u.names_release s.connections
  keeps := u.keeps_release h.keeps
  others _ hne := congrArg (Option.map Prod.snd) (Use.others_release (h.server? hi pending) hne)
  turn := Use.turns_release (h.server? hi pending) fun server heq => h.busy i q server (heq ▸ hi)
  attempts := (u.attempts_release s.connections).trans (List.append_nil _).symm

end Books

/-- What is known of a session is so at every point. -/
theorem Serves.books (h : Serves servers past s) : Books servers past s := by
  induction h with
  | opens => exact .opens servers
  | asked _ hi q ih => exact ih.asked hi q
  | step _ hi ht ih => exact ih.turn (ih.turned_step hi ht)
  | abandoned _ hi pending ih => exact ih.turn (ih.turned_release hi pending)

end ToolSession
end
end Workflows
