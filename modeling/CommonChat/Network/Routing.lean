import CommonChat.Network.World

/-!
# Routing

What the emits of the relay bring to each socket.  A message for everyone
reaches each connected socket once; with a consistent registry, a message for a
peer reaches each socket registered under that peer once, and no other.
-/

namespace CommonChat.Network

open CommonChat.Foundation
open CommonChat.Relay

def emitted : Emit → RelayEvent
  | .toSocket _ event | .broadcast _ event | .toAll event => event

theorem exists_arrival {r : Server} {emits : List Emit} {s : SocketId}
    {event : RelayEvent} (h : event ∈ arrivals r emits s) :
    ∃ emit ∈ emits, arrival s emit = some event := by
  unfold arrivals at h
  split at h
  · exact List.mem_filterMap.mp h
  · cases h

theorem mem_arrivals {r : Server} {emits : List Emit} {s : SocketId}
    {event : RelayEvent} (h : event ∈ arrivals r emits s) :
    ∃ emit ∈ emits, event = (emitted emit).throughJson := by
  obtain ⟨emit, hmem, harrival⟩ := exists_arrival h
  refine ⟨emit, hmem, ?_⟩
  cases emit with
  | toSocket socket e =>
      simp only [arrival] at harrival
      split at harrival
      · exact (Option.some.inj harrival).symm
      · cases harrival
  | broadcast sender e =>
      simp only [arrival] at harrival
      split at harrival
      · cases harrival
      · exact (Option.some.inj harrival).symm
  | toAll e => exact (Option.some.inj harrival).symm

theorem emitted_message {r : Server} {payload : JsValue} {emit : Emit}
    (h : emit ∈ r.message payload) : emitted emit = .message payload := by
  unfold Server.message at h
  split at h
  · cases h
  simp only at h
  split at h
  · rw [List.mem_singleton.mp h]
    rfl
  split at h
  · cases h
  split at h
  · obtain ⟨sid, -, rfl⟩ := List.mem_map.mp h
    rfl
  · cases h

theorem emitted_disconnect {r : Server} {s : SocketId} {emit : Emit}
    (h : emit ∈ (r.disconnect s).2) : ∃ data, emitted emit = .userOffline data := by
  unfold Server.disconnect at h
  split at h
  · cases h
  · rw [List.mem_singleton.mp h]
    exact ⟨_, rfl⟩

theorem mem_of_mem_tail {α : Type} {queue : SocketId → List α} {s s' : SocketId}
    {a b : α} {rest : List α} (hqueue : queue s = a :: rest)
    (hb : b ∈ Function.update queue s rest s') : b ∈ queue s' := by
  simp only [Function.update_apply] at hb
  split at hb
  · rename_i hs
    rw [hs, hqueue]
    exact List.mem_cons_of_mem _ hb
  · exact hb

theorem arrivals_message {r : Server} {payload : JsValue} {s : SocketId}
    {event : RelayEvent} (h : event ∈ arrivals r (r.message payload) s) :
    event = .message payload.throughJson := by
  obtain ⟨emit, hmem, rfl⟩ := mem_arrivals h
  rw [emitted_message hmem]
  rfl

def relayAddressee (payload : JsValue) : JsValue :=
  (payload.field (js "recipient")).coalesce (.str broadcastId)

theorem arrivals_broadcast (r : Server) {payload : JsValue}
    (hobject : payload.isObject = true)
    (hall : relayAddressee payload = .str broadcastId) (s : SocketId) :
    arrivals r (r.message payload) s =
      if s ∈ r.connected then [.message payload.throughJson] else [] := by
  have htruthy : payload.truthy = true := by
    cases payload <;> first | rfl | cases hobject
  have hemits : r.message payload = [.toAll (.message payload)] := by
    unfold relayAddressee at hall
    simp only [Server.message, htruthy, hobject, Bool.not_true, Bool.or_self,
      Bool.false_eq_true, if_false]
    rw [if_pos ((JsValue.strictEq_str_iff _ _).mpr hall)]
  rw [hemits]
  rfl

private theorem filterMap_arrival_toSocket {targets : List SocketId}
    (hnodup : targets.Nodup) (event : RelayEvent) (s : SocketId) :
    (targets.map fun sid => Emit.toSocket sid event).filterMap (arrival s) =
      if s ∈ targets then [event.throughJson] else [] := by
  induction targets with
  | nil => rfl
  | cons sid rest ih =>
      rw [List.nodup_cons] at hnodup
      rw [List.map_cons, List.filterMap_cons, ih hnodup.2]
      by_cases hs : sid = s
      · subst hs
        simp [arrival, hnodup.1]
      · simp [arrival, hs, Ne.symm hs]

theorem arrivals_private {r : Server} (hr : r.Consistent) {payload : JsValue}
    (hobject : payload.isObject = true) {p : JsString}
    (hp : relayAddressee payload = .str p) (hne : p ≠ broadcastId)
    (s : SocketId) :
    (r.RegisteredAs s (.str p) →
      arrivals r (r.message payload) s = [.message payload.throughJson]) ∧
    (¬ r.RegisteredAs s (.str p) → arrivals r (r.message payload) s = []) := by
  have htruthy : payload.truthy = true := by
    cases payload <;> first | rfl | cases hobject
  have hrecipient : (payload.field (js "recipient")).coalesce (.str broadcastId) =
      .str p := hp
  cases hget : r.peerToSockets.get (.str p) with
  | none =>
      have hemits : r.message payload = [] := by
        simp [Server.message, htruthy, hobject, hrecipient, hne, JsValue.key, hget]
      have hnot : ¬ r.RegisteredAs s (.str p) := by
        rw [← hr.inverse]
        rintro ⟨set, hset, -⟩
        rw [hget] at hset
        cases hset
      refine ⟨fun hreg => absurd hreg hnot, fun _ => ?_⟩
      rw [hemits]
      simp [arrivals]
  | some targets =>
      have hsize : targets.size > 0 := Nat.pos_of_ne_zero (hr.nonempty _ _ hget)
      have hemits : r.message payload =
          targets.elems.map fun sid => .toSocket sid (.message payload) := by
        simp [Server.message, htruthy, hobject, hrecipient, hne, JsValue.key, hget,
          hsize]
      have hiff : s ∈ targets.elems ↔ r.RegisteredAs s (.str p) := by
        rw [← hr.inverse]
        constructor
        · exact fun hmem => ⟨targets, hget, hmem⟩
        · rintro ⟨set, hset, hmem⟩
          rw [hget] at hset
          cases hset
          exact hmem
      constructor
      · intro hreg
        rw [arrivals, if_pos (hr.registered_connected s _ hreg), hemits,
          filterMap_arrival_toSocket targets.nodup, if_pos (hiff.mpr hreg)]
        rfl
      · intro hnot
        rw [arrivals, hemits, filterMap_arrival_toSocket targets.nodup,
          if_neg (fun hmem => hnot (hiff.mp hmem))]
        split <;> rfl

namespace World

open CommonChat.Frontend

variable {H : Host}

/-! ## Where a queued event comes from -/

inductive Queues (w : World H) : Action → SocketId → RelayEvent → Prop
  | register {s : SocketId} {data : JsValue} {rest : List ClientEvent}
      {relay : Server} {emits : List Emit} (hconn : s ∈ w.relay.connected)
      (hup : w.up s = .register data :: rest)
      (hregister : w.relay.register s data = .ok (relay, emits))
      {socket : SocketId} {event : RelayEvent}
      (hevent : event ∈ arrivals relay emits socket) :
      Queues w (.recv s) socket event
  | message {s : SocketId} {payload : JsValue} {rest : List ClientEvent}
      (hup : w.up s = .message payload :: rest) (socket : SocketId) :
      Queues w (.recv s) socket (.message payload.throughJson)
  | drop (s : SocketId) (data : JsValue) (socket : SocketId) :
      Queues w (.drop s) socket (.userOffline data)

theorem mem_down_of_change {w w' : World H} {a : Action} (hchange : Change w a w')
    {s : SocketId} {event : RelayEvent} (h : event ∈ w'.down s) :
    event ∈ w.down s ∨ Queues w a s event := by
  cases hchange with
  | send hsend =>
      rw [transmit_down] at h
      exact .inl h
  | @register s₀ data rest relay emits hconn hup hregister =>
      rcases List.mem_append.mp h with hold | hnew
      · exact .inl hold
      · exact .inr (.register hconn hup hregister hnew)
  | @message s₀ payload rest hconn hup =>
      rcases List.mem_append.mp h with hold | hnew
      · exact .inl hold
      · rw [arrivals_message hnew]
        exact .inr (.message hup s)
  | @drop s₀ hconn =>
      rcases List.mem_append.mp h with hold | hnew
      · exact .inl hold
      · obtain ⟨emit, hemit, rfl⟩ := mem_arrivals hnew
        obtain ⟨data, hdata⟩ := emitted_disconnect hemit
        rw [hdata]
        exact .inr (.drop s₀ data.throughJson s)
  | @deliver t s₀ event₀ rest tab hcurrent hdown htab hwants =>
      exact .inl (mem_of_mem_tail hdown h)
  | _ => exact .inl h

/--
The rule for properties of the registrations: one obligation, for a register that
is not ignored.
-/
theorem forall_info_of_change {P : SocketId → PeerInfo → Prop} {w w' : World H}
    {a : Action} (hchange : Change w a w')
    (h : ∀ s info, w.relay.socketToPeer.get s = some info → P s info)
    (hregister : ∀ s data rest name, a = .recv s → s ∈ w.relay.connected →
      w.up s = .register data :: rest → (Server.claimedPeer data).truthy = true →
      Server.registeredName (Server.claimedPeer data) (Server.claimedName data) =
        .ok name →
      P s ⟨Server.claimedPeer data, w.relay.allocated, name⟩) :
    ∀ s info, w'.relay.socketToPeer.get s = some info → P s info := by
  cases hchange with
  | send hsend =>
      rw [transmit_relay]
      exact h
  | @register s data rest relay emits hconn hup hreg =>
      exact Server.forall_info_register hreg h fun name =>
        hregister s data rest name rfl hconn hup
  | @drop s hconn => exact Server.forall_info_disconnect s h
  | _ => exact h

end World

end CommonChat.Network
