/-
  File:      Veridie/Lib/Network.lean
  Subject:   Nodes that exchange messages: the states of the nodes that have started, and every
             message sent so far.

  A message stays where it is when it is delivered, so that it can be delivered late, again, or
  never. A node acts when its step function is applied; what its outputs send joins the messages.

  * `Network.act` -- one node acts; `Network.input` -- something happens to a node that runs a
    machine; `Network.leave`, `Network.inject` -- a node goes, a message comes from outside;
  * `Network.Inv` -- an invariant of each node and one of each message; `Inv.act`, `Inv.leave`,
    `Inv.inject` -- when what happens keeps both;
  * `Network.nodes_act_self`, `Network.nodes_act_ne` -- the acting node moves, the others stay.
-/
import Veridie.Lib.Machine

namespace Veridie.Lib

/-- A message with both its ends. -/
structure Packet (ν μ : Type) where
  sender : ν
  receiver : ν
  payload : μ

/-- The nodes that have started, and the messages sent. -/
structure Network (ν σ μ : Type) where
  nodes : ν → Option σ
  sent : List (Packet ν μ)

namespace Network

variable {ν σ ι μ ο : Type} [DecidableEq ν]

/-- No node has started. -/
def empty : Network ν σ μ := ⟨fun _ => none, []⟩

/-- The messages a list of outputs sends. -/
def packets (sends : ο → Option (ν × μ)) (a : ν) (outs : List ο) : List (Packet ν μ) :=
  outs.filterMap fun o => (sends o).map fun p => ⟨a, p.1, p.2⟩

/-- The node `a` has made a step, or has started. -/
def act (sends : ο → Option (ν × μ)) (w : Network ν σ μ) (a : ν) (r : σ × List ο) :
    Network ν σ μ × List (ν × ο) :=
  (⟨Function.update w.nodes a (some r.1), w.sent ++ packets sends a r.2⟩, r.2.map fun o => (a, o))

/-- Something happens to the node `a`, which runs `M`; nothing, when it has not started. -/
def input (M : Machine σ ι ο) (sends : ο → Option (ν × μ)) (w : Network ν σ μ) (a : ν) (i : ι) :
    Network ν σ μ × List (ν × ο) :=
  match w.nodes a with
  | some s => w.act sends a (M.step s i)
  | none => (w, [])

/-- The node `a` is gone. -/
def leave (w : Network ν σ μ) (a : ν) : Network ν σ μ := ⟨Function.update w.nodes a none, w.sent⟩

omit [DecidableEq ν] in
/-- A message that no step has sent. -/
def inject (w : Network ν σ μ) (p : Packet ν μ) : Network ν σ μ := ⟨w.nodes, w.sent ++ [p]⟩

omit [DecidableEq ν] in
theorem mem_packets {sends : ο → Option (ν × μ)} {a : ν} {outs : List ο} {p : Packet ν μ} :
    p ∈ packets sends a outs ↔ p.sender = a ∧ ∃ o ∈ outs, sends o = some (p.receiver, p.payload) := by
  unfold packets
  rw [List.mem_filterMap]
  constructor
  · rintro ⟨o, ho, hp⟩
    obtain ⟨q, hq, rfl⟩ := Option.map_eq_some_iff.mp hp
    exact ⟨rfl, o, ho, hq⟩
  · rintro ⟨rfl, o, ho, hp⟩
    exact ⟨o, ho, by rw [hp]; rfl⟩

theorem nodes_act_self (sends : ο → Option (ν × μ)) (w : Network ν σ μ) (a : ν) (r : σ × List ο) :
    (w.act sends a r).1.nodes a = some r.1 := by
  unfold act
  exact Function.update_self ..

theorem nodes_act_ne (sends : ο → Option (ν × μ)) (w : Network ν σ μ) {a b : ν} (r : σ × List ο)
    (h : b ≠ a) : (w.act sends a r).1.nodes b = w.nodes b := by
  unfold act
  exact Function.update_of_ne h ..

omit [DecidableEq ν] in
theorem mem_outs_act {a b : ν} {o : ο} {outs : List ο} :
    (b, o) ∈ outs.map (fun o => (a, o)) ↔ b = a ∧ o ∈ outs := by
  rw [List.mem_map]
  constructor
  · rintro ⟨o', ho, he⟩
    cases he
    exact ⟨rfl, ho⟩
  · rintro ⟨rfl, ho⟩
    exact ⟨o, ho, rfl⟩

/-- Every node that has started meets its invariant, and so does every message. -/
structure Inv (node : ν → σ → Prop) (packet : Packet ν μ → Prop) (w : Network ν σ μ) : Prop where
  nodes : ∀ a s, w.nodes a = some s → node a s
  sent : ∀ p ∈ w.sent, packet p

variable {node : ν → σ → Prop} {packet : Packet ν μ → Prop}

omit [DecidableEq ν] in
theorem inv_empty : Inv node packet (empty : Network ν σ μ) :=
  ⟨fun _ _ h => (nomatch h), fun _ h => absurd h List.not_mem_nil⟩

omit [DecidableEq ν] in
theorem Inv.mono {node' : ν → σ → Prop} {packet' : Packet ν μ → Prop} {w : Network ν σ μ}
    (h : Inv node packet w) (hnode : ∀ a s, node a s → node' a s)
    (hpacket : ∀ p, packet p → packet' p) : Inv node' packet' w :=
  ⟨fun a s hs => hnode a s (h.nodes a s hs), fun p hp => hpacket p (h.sent p hp)⟩

theorem Inv.leave {w : Network ν σ μ} (h : Inv node packet w) (a : ν) :
    Inv node packet (w.leave a) where
  nodes := by
    intro b s hs
    unfold Network.leave at hs
    dsimp only at hs
    by_cases hb : b = a
    · rw [hb, Function.update_self] at hs
      exact nomatch hs
    · rw [Function.update_of_ne hb] at hs
      exact h.nodes b s hs
  sent := h.sent

omit [DecidableEq ν] in
theorem Inv.inject {w : Network ν σ μ} (h : Inv node packet w) {p : Packet ν μ} (hp : packet p) :
    Inv node packet (w.inject p) where
  nodes := h.nodes
  sent := by
    intro q hq
    rcases List.mem_append.mp hq with hq | hq
    · exact h.sent q hq
    · exact List.mem_singleton.mp hq ▸ hp

/-- **One node acts**: when it keeps its invariant and sends what a message may be, the network
    keeps both. -/
theorem Inv.act {w : Network ν σ μ} (h : Inv node packet w) {sends : ο → Option (ν × μ)} {a : ν}
    {r : σ × List ο} (hnode : node a r.1)
    (hsent : ∀ o ∈ r.2, ∀ b m, sends o = some (b, m) → packet ⟨a, b, m⟩) :
    Inv node packet (w.act sends a r).1 where
  nodes := by
    intro b s hs
    by_cases hb : b = a
    · rw [hb, nodes_act_self] at hs
      cases hs
      exact hb ▸ hnode
    · rw [nodes_act_ne sends w r hb] at hs
      exact h.nodes b s hs
  sent := by
    intro p hp
    rcases List.mem_append.mp hp with hp | hp
    · exact h.sent p hp
    · obtain ⟨rfl, o, ho, hs⟩ := mem_packets.mp hp
      exact hsent o ho _ _ hs

end Network

end Veridie.Lib
