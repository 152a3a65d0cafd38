import CommonChat.Frontend.Typing
import CommonChat.Network.Presence

/-!
# Types against hostile peers

The relay forwards a message as it is and announces a peer id of any type, so
what the handlers of a tab list is well typed as far as the other clients send
typed values.  Shipped clients always do.
-/

namespace CommonChat.Network.World

open CommonChat.Foundation
open CommonChat.Core
open CommonChat.Relay
open CommonChat.Frontend

variable {H : Host}

/--
What another client sends has the declared types where it counts: in a register
that is not ignored, and in a signed message that is addressed to some tab.
-/
structure OthersTyped (w : World H) (a : Action) : Prop where
  registers : ∀ s data rest, a = .recv s → w.owner s = none →
    w.up s = .register data :: rest → (Server.claimedPeer data).truthy = true →
    ∃ p, Server.claimedPeer data = .str p
  messages : ∀ s payload rest, a = .recv s → w.owner s = none →
    w.up s = .message payload :: rest → ∀ t tab, w.clients.tabs t = some tab →
    Accepted H tab.peerId (.ofJs payload.throughJson) →
    TypedPayload (.ofJs payload.throughJson)

structure TypedRelay (w : World H) : Prop where
  peers : StringPeers w.relay
  names : StringNames w.relay
  buffered : ∀ t, ∀ m ∈ w.sendBuffer t, WellTyped m
  sends : ∀ s conn payload, w.owner s = some conn → .message payload ∈ w.up s →
    WellTyped (.ofJs payload)
  events : ∀ s conn, w.owner s = some conn → ∀ event ∈ w.down s,
    TypedEvent H conn.peerId event

theorem typedRelay_initial : (initial H).TypedRelay :=
  ⟨nofun, nofun, nofun, nofun, nofun⟩

/-! ## What the relay announces -/

theorem typedEvent_register {r r' : Server} {s : SocketId} {data : JsValue}
    {emits : List Emit} (h : r.register s data = .ok (r', emits))
    (hpeers : StringPeers r') (hnames : StringNames r') (me : JsString) :
    ∀ emit ∈ emits, TypedEvent H me (emitted emit).throughJson := by
  rcases Server.register_cases h with
    ⟨-, -, rfl⟩ | ⟨name, list, -, -, rfl, hlist, rfl⟩
  · nofun
  intro emit hemit
  rcases List.mem_cons.mp hemit with rfl | hemit
  · have hitems : ∀ item ∈ list, ∃ p n,
        item = Server.peerObject (.str p) (.str n) := by
      intro item hitem
      obtain ⟨s', info, name', hmem, -, hname, rfl⟩ :=
        Server.mem_getOnlineListFrom hlist item hitem
      have hget := (InsertionMap.mem_entries_iff _ _ _).mp hmem
      obtain ⟨p, hp⟩ := hpeers s' info hget
      obtain ⟨n, hn, hshown⟩ := hnames s' info hget
      rw [listedName_of_string hn hshown] at hname
      cases hname
      exact ⟨p, n, by rw [hp]⟩
    refine ⟨list.map JsValue.throughJson, Server.throughJson_onlineList hlist, ?_⟩
    intro item hitem
    obtain ⟨item', hitem', rfl⟩ := List.mem_map.mp hitem
    obtain ⟨p, n, rfl⟩ := hitems item' hitem'
    exact typedPeer_peerObject p n
  · obtain rfl := List.mem_singleton.mp hemit
    obtain ⟨p, hp⟩ := hpeers s _ (by simp [Server.enroll]; rfl)
    obtain ⟨n, -, hn⟩ := hnames s _ (by simp [Server.enroll]; rfl)
    refine ⟨p, n, ?_⟩
    rw [show Server.claimedPeer data = .str p from hp, show name = .str n from hn]
    rfl

/-! ## Runs -/

theorem string_of_register {w : World H} (hwired : w.Wired) {s : SocketId}
    {data : JsValue} {rest : List ClientEvent}
    (hguard : w.OthersTyped (.recv s)) (hup : w.up s = .register data :: rest)
    (htruthy : (Server.claimedPeer data).truthy = true) :
    ∃ p, p ≠ [] ∧ Server.claimedPeer data = .str p := by
  have hstr : ∃ p, Server.claimedPeer data = .str p := by
    cases howner : w.owner s with
    | none => exact hguard.registers s data rest rfl howner hup htruthy
    | some conn =>
        obtain rfl := hwired.registers s conn data howner (by simp [hup])
        exact ⟨conn.peerId, rfl⟩
  obtain ⟨p, hp⟩ := hstr
  rw [hp, JsValue.truthy_str] at htruthy
  exact ⟨p, htruthy, hp⟩

theorem TypedRelay.typedPayload {w : World H} (h : w.TypedRelay) {s : SocketId}
    {payload : JsValue} {rest : List ClientEvent}
    (hguard : w.OthersTyped (.recv s)) (hup : w.up s = .message payload :: rest)
    {t : TabId} {tab : Tab H} (htab : w.clients.tabs t = some tab)
    (haccepted : Accepted H tab.peerId (.ofJs payload.throughJson)) :
    TypedPayload (.ofJs payload.throughJson) := by
  cases howner : w.owner s with
  | none => exact hguard.messages s payload rest rfl howner hup t tab htab haccepted
  | some conn =>
      have hsent := h.sends s conn payload howner (by rw [hup]; exact List.mem_cons_self)
      rw [ChatMessage.ofJs_throughJson]
      exact hsent.throughJson.payload

theorem typed_of_register {w : World H} (hwired : w.Wired) {s : SocketId}
    {data : JsValue} {rest : List ClientEvent} (hguard : w.OthersTyped (.recv s))
    (hup : w.up s = .register data :: rest)
    (htruthy : (Server.claimedPeer data).truthy = true) {name : JsValue}
    (hname : Server.registeredName (Server.claimedPeer data)
      (Server.claimedName data) = .ok name) :
    (∃ p, Server.claimedPeer data = .str p) ∧ ∃ n, n ≠ [] ∧ name = .str n := by
  obtain ⟨p, hne, hp⟩ := string_of_register hwired hguard hup htruthy
  rw [hp] at hname
  exact ⟨⟨p, hp⟩, string_of_registeredName hne hname⟩

theorem TypedRelay.typedEvent {w : World H} {a : Action} (h : w.TypedRelay)
    (hwired : w.Wired) (hguard : w.OthersTyped a) {s : SocketId} {conn : Connection}
    (howner : w.owner s = some conn) {event : RelayEvent}
    (hevent : Queues w a s event) : TypedEvent H conn.peerId event := by
  cases hevent with
  | register hconn hup hregister harrives =>
      obtain ⟨emit, hemit, rfl⟩ := mem_arrivals harrives
      refine typedEvent_register hregister ?_ ?_ conn.peerId emit hemit
      · exact Server.forall_info_register hregister h.peers
          fun _ htruthy hname => (typed_of_register hwired hguard hup htruthy hname).1
      · exact Server.forall_info_register hregister h.names
          fun _ htruthy hname => (typed_of_register hwired hguard hup htruthy hname).2
  | message hup =>
      obtain ⟨tab, htab, hpeer, -⟩ := hwired.owner_tab s conn howner
      intro haccepted
      rw [← hpeer] at haccepted
      exact h.typedPayload hguard hup htab haccepted
  | drop s₀ data => trivial

theorem TypedRelay.sends_of_change {w w' : World H} {a : Action} (h : w.TypedRelay)
    (hchange : Change w a w') :
    (∀ t, ∀ m ∈ w'.sendBuffer t, WellTyped m) ∧
      ∀ s conn payload, w'.owner s = some conn → .message payload ∈ w'.up s →
        WellTyped (.ofJs payload) := by
  cases hchange with
  | @send t input now random clients msg hsend =>
      obtain ⟨tab, -, -, -, hmsg, -⟩ := Clients.signAndSend_cases hsend
      have htyped := wellTyped_composed hmsg
      obtain ⟨up, sentOn, sendBuffer, heq, hsent⟩ :=
        transmit_frame { w with clients := clients } t msg
      rw [heq]
      refine ⟨?_, ?_⟩
      · intro u m hm
        rcases hsent.buffer_new u m hm with hold | rfl
        · exact h.buffered u m hold
        · exact htyped
      · intro s conn payload howner hmem
        rcases hsent.up_new s _ hmem with hold | hnew
        · exact h.sends s conn payload howner hold
        · cases hnew
          exact htyped.throughJson
  | @newName t name clients hclients =>
      refine ⟨?_, h.sends⟩
      intro u m hm
      simp only [close, Function.update_apply] at hm
      split at hm
      · cases hm
      · exact h.buffered u m hm
  | @connect t tab htab hwants hcurrent =>
      refine ⟨?_, ?_⟩
      · intro u m hm
        simp only [openConnection, Function.update_apply] at hm
        split at hm
        · cases hm
        · exact h.buffered u m hm
      · intro s conn payload howner hmem
        simp only [openConnection, Function.update_apply] at howner hmem
        split at hmem
        · simp only [List.mem_append, List.mem_map, List.mem_singleton, reduceCtorEq,
            or_false] at hmem
          obtain ⟨m, hm, heq⟩ := hmem
          cases heq
          exact (h.buffered t m hm).throughJson
        · rename_i hne
          rw [if_neg hne] at howner
          exact h.sends s conn payload howner hmem
  | register hconn hup hregister =>
      exact ⟨h.buffered, fun s conn payload howner hmem =>
        h.sends s conn payload howner (mem_of_mem_tail hup hmem)⟩
  | message hconn hup =>
      exact ⟨h.buffered, fun s conn payload howner hmem =>
        h.sends s conn payload howner (mem_of_mem_tail hup hmem)⟩
  | @emit s event howner hconn =>
      refine ⟨h.buffered, ?_⟩
      intro s' conn payload howner' hmem
      have hne : s' ≠ s := by
        rintro rfl
        rw [howner] at howner'
        cases howner'
      simp only [Function.update_of_ne hne] at hmem
      exact h.sends s' conn payload howner' hmem
  | _ => exact ⟨h.buffered, h.sends⟩

theorem TypedRelay.change {w w' : World H} {a : Action} (h : w.TypedRelay)
    (hwired : w.Wired) (hguard : w.OthersTyped a) (hchange : Change w a w') :
    w'.TypedRelay := by
  obtain ⟨hbuffered, hsends⟩ := h.sends_of_change hchange
  have hevents : ∀ s conn, w'.owner s = some conn → ∀ event ∈ w'.down s,
      TypedEvent H conn.peerId event := by
    intro s conn hconn event hevent
    obtain ⟨howner, hold | hnew⟩ := hwired.mem_down_of_change hchange hconn hevent
    · exact h.events s conn howner event hold
    · exact h.typedEvent hwired hguard howner hnew
  refine ⟨?_, ?_, hbuffered, hsends, hevents⟩
  · refine forall_info_of_change hchange h.peers ?_
    rintro s data rest name rfl - hup htruthy hname
    exact (typed_of_register hwired hguard hup htruthy hname).1
  · refine forall_info_of_change hchange h.names ?_
    rintro s data rest name rfl - hup htruthy hname
    exact (typed_of_register hwired hguard hup htruthy hname).2

theorem typedRelay_of_reach {w : World H} (hw : (system H).Reach OthersTyped w) :
    w.TypedRelay :=
  hw.invariant typedRelay_initial fun _ _ _ hreach h hguard hnext =>
    h.change (wired_of_reach hreach) hguard (change_of_step hnext)

/--
Whatever a tab lists, stores or shows is well typed, in every run in which the
values of other clients that get past the checks are.
-/
theorem well_typed_of_reach {w : World H} (hw : (system H).Reach OthersTyped w) :
    (∀ t tab, w.clients.tabs t = some tab →
      (∀ e ∈ tab.messages, WellTyped e) ∧ ∀ q ∈ tab.onlinePeers, TypedPeer q) ∧
    ∀ b me list, (w.clients.storage b).messages (storageKey me) = some list →
      ∀ e ∈ list, WellTyped e := by
  have hclients : (Clients.system H).Reach (fun c a => ∀ t tab event,
      a = .receive t event → c.tabs t = some tab →
      TypedEvent H tab.peerId event) w.clients := by
    refine reach_clients ?_ hw
    rintro w a b hreach hguard hb t tab event rfl htab
    obtain ⟨s, hs, hevent⟩ := receive_of_clientAction hb
    obtain ⟨conn, tab', howner, -, htab', hpeer, -⟩ :=
      (wired_of_reach hreach).current_tab hs
    obtain rfl : tab = tab' := Option.some.inj (htab.symm.trans htab')
    rw [hpeer]
    exact (typedRelay_of_reach hreach).events s conn howner event hevent
  have htyped := Clients.typed_of_reach
    (fun c t tab event hguard htab => hguard t tab event rfl htab) hclients
  exact ⟨fun t tab htab =>
    ⟨htyped.entries.listed t tab htab, htyped.peers t tab htab⟩,
    htyped.entries.stored⟩

def sendsTyped (w : World H) : Action → Bool
  | .recv s =>
      match w.owner s, w.up s with
      | none, .register data :: _ =>
          match Server.claimedPeer data with
          | .str _ => true
          | other => !other.truthy
      | none, .message payload :: _ => isTypedPayload (.ofJs payload.throughJson)
      | _, _ => true
  | _ => true

theorem othersTyped_of_sendsTyped {w : World H} {a : Action}
    (h : w.sendsTyped a = true) : w.OthersTyped a where
  registers := by
    rintro s data rest rfl howner hup htruthy
    simp only [sendsTyped, howner, hup] at h
    split at h
    · rename_i p hp
      exact ⟨p, hp⟩
    · rw [htruthy] at h
      cases h
  messages := by
    rintro s payload rest rfl howner hup t tab - -
    simp only [sendsTyped, howner, hup] at h
    exact typedPayload_of_isTypedPayload h

def visit (peer : JsValue) (message : ChatMessage) : List Action :=
  [.page (.load 0), .page (.handleInitialize 0 (js "P") (plainKey 1)),
    .connect 0, .recv 0, .join,
    .emit 1 (.register (.obj [(js "peerId", peer), (js "displayName", .str (js "Q"))])),
    .emit 1 (.message message.toJs), .recv 1, .recv 1,
    .deliver 0, .deliver 0, .deliver 0, .page (.persist 0)]

theorem well_typed_of_visit :
    ∃ w : World plainHost, (system plainHost).Reach OthersTyped w ∧
      ∃ tab, w.clients.tabs 0 = some tab ∧ tab.messages.length = 1 ∧
        tab.onlinePeers.length = 1 ∧
        (∀ e ∈ tab.messages, WellTyped e) ∧ ∀ q ∈ tab.onlinePeers, TypedPeer q := by
  obtain ⟨w, hw, hcheck⟩ := System.exists_reach_of_exec
    (system plainHost) (OthersTyped) (sendsTyped)
    (visit (.str (plainPeer 2)) (plainMessage 2 (js "m") (js "hi")))
    (fun w => (w.clients.tabs 0).any fun tab =>
      tab.messages.length = 1 && tab.onlinePeers.length = 1)
    (fun _ _ h => othersTyped_of_sendsTyped h) (by decide +kernel)
  simp only [Option.any_eq_true, Bool.and_eq_true, decide_eq_true_eq] at hcheck
  obtain ⟨tab, htab, hmessages, hpeers⟩ := hcheck
  exact ⟨w, hw, tab, htab, hmessages, hpeers, (well_typed_of_reach hw).1 0 tab htab⟩

theorem ill_typed_of_visit :
    ¬ ∀ (H : Host) (w : World H), (system H).Reach (fun _ _ => True) w →
      (∀ t tab, w.clients.tabs t = some tab →
        (∀ e ∈ tab.messages, WellTyped e) ∧ ∀ q ∈ tab.onlinePeers, TypedPeer q) ∧
      ∀ b me list, (w.clients.storage b).messages (storageKey me) = some list →
        ∀ e ∈ list, WellTyped e := by
  intro hall
  obtain ⟨w, hw, hcheck⟩ := System.exists_reach_of_exec
    (system plainHost) (fun _ _ => True) (fun _ _ => true)
    (visit (.num (.finite 5))
      { plainMessage 2 (js "m") (js "hi") with displayName := .obj [] })
    (fun w => (w.clients.tabs 0).any fun tab =>
      tab.messages.any fun e => e.displayName.isObject)
    (fun _ _ _ => trivial) (by decide +kernel)
  simp only [Option.any_eq_true, List.any_eq_true] at hcheck
  obtain ⟨tab, htab, e, he, hobject⟩ := hcheck
  obtain ⟨name, hname⟩ :=
    (((hall plainHost w hw).1 0 tab htab).1 e he).displayName_str
  rw [hname] at hobject
  cases hobject

end CommonChat.Network.World
