import CommonChat.Foundation.Broker
import CommonChat.Network.Transit

/-!
# Delivery

The relay and the shipped clients as a broker of message ids.  Each step of the
network is a step of the broker or leaves it as it is, so the results about order
and multiplicity are those of the broker; what remains is that the handler lists
everything that is queued to its connection.
-/

namespace CommonChat.Network

open CommonChat.Foundation
open CommonChat.Core
open CommonChat.Relay
open CommonChat.Frontend

def sentId : ClientEvent → Option JsKey
  | .message payload => some (ChatMessage.ofJs payload).idKey
  | .register _ => none

def eventId : RelayEvent → Option JsKey
  | .message payload => some (ChatMessage.ofJs payload).idKey
  | _ => none

theorem sentId_messageEvent {m : ChatMessage} (hm : WellSent m) :
    sentId (messageEvent m) = some m.idKey := by
  rw [messageEvent, sentId, hm.ofJs_eq]

theorem eventId_presence {events : List RelayEvent}
    (h : ∀ event ∈ events, isPresence event = true) :
    events.filterMap eventId = [] := by
  rw [List.filterMap_eq_nil_iff]
  intro event hevent
  have hpresence := h event hevent
  cases event with
  | message payload => cases hpresence
  | _ => rfl

namespace World

variable {H : Host}

def toBroker (w : World H) : Broker TabId SocketId JsKey where
  issued := w.clients.ids
  opener := fun s => (w.owner s).map Connection.tab
  current := w.current
  buffer := fun t => (w.sendBuffer t).map ChatMessage.idKey
  sent := fun s => (w.sentOn s).map ChatMessage.idKey
  up := fun s => (w.up s).filterMap sentId
  queued := fun s => (w.queued s).filterMap eventId
  down := fun s => (w.down s).filterMap eventId
  seen := w.clients.seenIds

/-- What the broker of the network may do in place of a step. -/
def Matched (w w' : World H) : Prop :=
  w'.toBroker = w.toBroker ∨
    ∃ b, w.toBroker.Sound b ∧ w.toBroker.step b = some w'.toBroker

theorem toBroker_dispatch_presence (w : World H) {emits : List Emit}
    (hemits : ∀ emit ∈ emits, isPresence (emitted emit) = true) :
    (w.dispatch emits).toBroker = w.toBroker := by
  simp only [toBroker, dispatch, List.filterMap_append,
    eventId_presence (isPresence_arrivals hemits), List.append_nil]

theorem toBroker_clients {ok : World H → Action → Prop} {w : World H}
    (hw : (system H).Reach ok w) {b : ClientAction} {clients : Clients H}
    (hstep : w.clients.step b = some clients)
    (hreceive : ∀ t event, b ≠ .receive t event)
    (hsend : ∀ t input now random, b ≠ .signAndSend t input now random) :
    ({ w with clients := clients } : World H).toBroker = w.toBroker := by
  have hchange := Clients.change_of_step hstep
  simp only [toBroker, Clients.ids_of_change hchange hsend,
    Clients.seenIds_of_change (reach_clients_any hw) hchange hreceive hsend]

theorem matched_send {w : World H} (hw : (system H).Reach ShippedFresh w)
    {t : TabId} {input : JsString} {now : Nat} {random : JsString}
    {clients : Clients H} {msg : ChatMessage}
    (hfresh : w.freshId (.send t input now random) = true)
    (hsend : w.clients.signAndSend t input now random = some (clients, msg))
    (hm : WellSent msg) :
    w.Matched ({ w with clients := clients }.transmit t msg) := by
  have hids := Clients.ids_of_send hsend
  have hseen := Clients.seenIds_of_send (reach_clients_any hw) hsend
  refine .inr ⟨.send t msg.idKey ((clients.tabs t).any Tab.wantsSocket), ?_, ?_⟩
  · obtain ⟨tab, identity, -, -, hmsg, -⟩ := Clients.signAndSend_cases hsend
    change msg.idKey ∉ w.clients.ids
    rw [Clients.idKey_of_compose hmsg]
    simpa [freshId] using hfresh
  · refine congrArg some ?_
    cases hcur : w.current t with
    | some s =>
        simp only [transmit, hcur, Broker.send, show w.toBroker.current t = some s from hcur]
        refine Broker.ext hids.symm rfl rfl rfl ?_ ?_ rfl rfl hseen.symm
        · refine ((Function.comp_update (List.map ChatMessage.idKey) _ _ _).trans ?_).symm
          rw [List.map_append, List.map_singleton]
          rfl
        · refine ((Function.comp_update (List.filterMap sentId) _ _ _).trans ?_).symm
          rw [List.filterMap_append, List.filterMap_cons, sentId_messageEvent hm]
          rfl
    | none =>
        simp only [transmit, hcur, Broker.send, show w.toBroker.current t = none from hcur]
        split
        · refine Broker.ext hids.symm rfl rfl ?_ rfl rfl rfl rfl hseen.symm
          refine ((Function.comp_update (List.map ChatMessage.idKey) _ _ _).trans ?_).symm
          rw [List.map_append, List.map_singleton]
          rfl
        · exact Broker.ext hids.symm rfl rfl rfl rfl rfl rfl rfl hseen.symm

theorem matched_connect {w : World H} (hwired : w.Wired) (hcarried : w.Carried)
    (hwell : ∀ sent ∈ w.clients.composed, WellSent sent.message) (conn : Connection) :
    w.Matched (w.openConnection conn) := by
  refine .inr ⟨.connect conn.tab w.nextSocket, ?_, ?_⟩
  · change (w.owner w.nextSocket).map Connection.tab = none
    cases howner : w.owner w.nextSocket with
    | none => rfl
    | some other => exact absurd (hwired.owner_lt _ other howner) (Nat.lt_irrefl _)
  · have hflush : ((w.sendBuffer conn.tab).map messageEvent).filterMap sentId =
        (w.sendBuffer conn.tab).map ChatMessage.idKey := by
      rw [List.filterMap_map, ← List.filterMap_eq_map]
      refine List.filterMap_congr ?_
      intro m hm
      obtain ⟨sent, hsent, rfl⟩ := hcarried.buffered _ m hm
      exact sentId_messageEvent (hwell sent hsent)
    refine congrArg some (Broker.ext rfl ?_ rfl ?_ ?_ ?_ rfl rfl rfl)
    · exact (Function.comp_update (Option.map Connection.tab) w.owner w.nextSocket
        (some conn)).symm
    · exact (Function.comp_update (List.map ChatMessage.idKey) w.sendBuffer conn.tab
        []).symm
    · exact (Function.comp_update (List.map ChatMessage.idKey) w.sentOn w.nextSocket
        (w.sendBuffer conn.tab)).symm
    · refine ((Function.comp_update (List.filterMap sentId) _ _ _).trans ?_).symm
      rw [List.filterMap_append, hflush]
      exact congrArg _ (List.append_nil _)

theorem matched_message {w : World H} (henrolled : w.Enrolled) {s : SocketId}
    {m : ChatMessage} {rest : List ClientEvent} (hm : WellSent m)
    (hup : w.up s = messageEvent m :: rest) :
    w.Matched ({ w with up := Function.update w.up s rest }.dispatch
      (w.relay.message m.toJs.throughJson)) := by
  have harrived : ∀ d,
      (arrivals w.relay (w.relay.message m.toJs.throughJson) d).filterMap eventId =
        if !(arrivals w.relay (w.relay.message m.toJs.throughJson) d).isEmpty
        then [m.idKey] else [] := by
    intro d
    rcases arrivals_wellSent henrolled.consistent hm d with hone | hnone
    · rw [hone]
      simp [eventId, hm.ofJs_eq]
    · rw [hnone]
      rfl
  refine .inr ⟨.forward s fun d =>
    !(arrivals w.relay (w.relay.message m.toJs.throughJson) d).isEmpty, ?_, ?_⟩
  · intro d hd hclosed
    simp only [Bool.not_eq_true', List.isEmpty_eq_false_iff] at hd
    have hconnected : d ∈ w.relay.connected := by
      by_contra hnot
      exact hd (arrivals_of_not_connected hnot _)
    obtain ⟨conn, hconn⟩ := henrolled.connected_owned d hconnected
    simp [toBroker, hconn] at hclosed
  · have hhead : w.toBroker.up s = m.idKey :: rest.filterMap sentId := by
      simp only [toBroker, hup, List.filterMap_cons, sentId_messageEvent hm]
    simp only [Broker.step, Broker.forward, hhead]
    refine congrArg some (Broker.ext rfl rfl rfl rfl rfl ?_ ?_ ?_ rfl)
    · exact (Function.comp_update (List.filterMap sentId) _ _ _).symm
    · funext d
      simp only [toBroker, World.dispatch, List.filterMap_append, harrived]
    · funext d
      simp only [toBroker, World.dispatch, List.filterMap_append, harrived]

theorem matched_deliver {w : World H} (hw : (system H).Reach ShippedFresh w)
    (hcarried : w.Carried)
    (hwell : ∀ sent ∈ w.clients.composed, WellSent sent.message) {t : TabId}
    {s : SocketId} {event : RelayEvent} {rest : List RelayEvent} {tab : Tab H}
    (hcurrent : w.current t = some s) (hdown : w.down s = event :: rest)
    (htab : w.clients.tabs t = some tab) :
    w.Matched { w with
      clients := w.clients.setTab t (tab.onRelayEvent event)
      down := Function.update w.down s rest } := by
  have hseen := Clients.seenIds_of_receive (reach_clients_any hw) htab event
  cases hid : eventId event with
  | none =>
      left
      rcases hseen with hsame | ⟨payload, e, rfl, -, -⟩
      · refine Broker.ext rfl rfl rfl rfl rfl rfl rfl ?_ hsame
        refine (Function.comp_update (List.filterMap eventId) _ _ _).trans ?_
        refine Function.update_eq_self_iff.mpr ?_
        simp only [Function.comp_apply, hdown, List.filterMap_cons, hid]
      · cases hid
  | some k =>
      have hhead : w.toBroker.down s = k :: rest.filterMap eventId := by
        simp only [toBroker, hdown, List.filterMap_cons, hid]
      have hstep : ∀ accept, w.toBroker.step (.deliver t accept) = some
          { w.toBroker with
            down := Function.update w.toBroker.down s (rest.filterMap eventId)
            seen := if accept then Function.update w.toBroker.seen t
              (w.toBroker.seen t ++ [k]) else w.toBroker.seen } := by
        intro accept
        simp only [Broker.step, Broker.deliver,
          show w.toBroker.current t = some s from hcurrent, Option.bind_some, hhead]
      have hqueue : (fun d => (Function.update w.down s rest d).filterMap eventId) =
          Function.update w.toBroker.down s (rest.filterMap eventId) :=
        Function.comp_update (List.filterMap eventId) _ _ _
      right
      rcases hseen with hsame | ⟨payload, e, rfl, hin, hnew⟩
      · refine ⟨.deliver t false, trivial, (hstep false).trans (congrArg some ?_)⟩
        exact Broker.ext rfl rfl rfl rfl rfl rfl rfl hqueue.symm hsame.symm
      · refine ⟨.deliver t true, trivial, (hstep true).trans (congrArg some ?_)⟩
        refine Broker.ext rfl rfl rfl rfl rfl rfl rfl hqueue.symm ?_
        obtain ⟨sent, hsent, rfl, -⟩ := hcarried.queued s payload
          ((hcarried.down_suffix s).subset (by rw [hdown]; exact List.mem_cons_self))
        have hm := hwell sent hsent
        simp only [eventId, hm.ofJs_eq, Option.some.injEq] at hid
        rw [hm.ofJs_eq] at hin
        rw [(copyOf_incoming hm hin).1.idKey_eq, hid] at hnew
        exact hnew.symm

theorem matched_of_step {w w' : World H} {a : Action}
    (hw : (system H).Reach ShippedFresh w) (hok : w.ShippedFresh a)
    (hnext : w.step a = some w') : w.Matched w' := by
  have hcarried := carried_of_reach shipped_of_shippedFresh hw
  have hwell := wellSent_of_reach shipped_of_shippedFresh hw
  have hwell' := wellSent_of_reach shipped_of_shippedFresh (.step hw hok hnext)
  cases change_of_step hnext with
  | @page b clients hpage hclients =>
      refine .inl (toBroker_clients hw hclients ?_ ?_)
      · rintro t event rfl
        cases hpage
      · rintro t input now random rfl
        cases hpage
  | @send t input now random clients msg hsend =>
      refine matched_send hw hok.2 hsend ?_
      rw [transmit_clients] at hwell'
      obtain ⟨tab, identity, -, -, -, rfl⟩ := Clients.signAndSend_cases hsend
      exact hwell' _ (List.mem_append_right _ (List.mem_singleton_self _))
  | @keepName t name clients hclients =>
      exact .inl (toBroker_clients (b := .saveDisplayName t name) hw hclients
        (by simp) (by simp))
  | @newName t name clients hclients =>
      have hsame := toBroker_clients (b := .saveDisplayName t name) hw hclients
        (by simp) (by simp)
      refine .inr ⟨.close t false, trivial, congrArg some ?_⟩
      rw [← hsame]
      refine Broker.ext rfl rfl rfl ?_ rfl rfl rfl rfl rfl
      exact (Function.comp_update (List.map ChatMessage.idKey) w.sendBuffer t []).symm
  | connect htab hwants hcurrent =>
      exact matched_connect (wired_of_reach hw) hcarried hwell _
  | leave t => exact .inr ⟨.close t true, trivial, rfl⟩
  | @register s data rest relay emits hconn hup hregister =>
      left
      rw [toBroker_dispatch_presence _ (isPresence_register hregister)]
      refine Broker.ext rfl rfl rfl rfl rfl ?_ rfl rfl rfl
      refine (Function.comp_update (List.filterMap sentId) _ _ _).trans ?_
      refine Function.update_eq_self_iff.mpr ?_
      simp only [Function.comp_apply, hup, List.filterMap_cons, sentId]
  | @message s payload rest hconn hup =>
      obtain ⟨sent, hsent, rfl⟩ :=
        hcarried.up s payload (by rw [hup]; exact List.mem_cons_self)
      exact matched_message (enrolled_of_reach shipped_of_shippedFresh hw) (hwell sent hsent) hup
  | @drop s hconn =>
      left
      rw [toBroker_dispatch_presence _ (isPresence_disconnect w.relay s)]
      rfl
  | deliver hcurrent hdown htab hwants =>
      exact matched_deliver hw hcarried hwell hcurrent hdown htab
  | join => cases hok.1
  | emit howner hconn => cases hok.1

theorem reach_broker {w : World H} (hw : (system H).Reach ShippedFresh w) :
    (Broker.system TabId SocketId JsKey).Reach Broker.Sound w.toBroker := by
  refine hw.project toBroker rfl ?_
  intro w a w' hreach hok hnext
  exact matched_of_step hreach hok hnext

/-! ## Nothing queued is lost while the connection lasts -/

def Arrived (w : World H) : Prop :=
  ∀ t s tab, w.current t = some s → w.clients.tabs t = some tab →
    ∀ payload, .message payload ∈ w.queued s →
      .message payload ∈ w.down s ∨
        (ChatMessage.ofJs payload).idKey ∈ tab.messages.map ChatMessage.idKey

theorem listed_of_deliver (hE : H.ed25519.Correct) {w : World H}
    (hw : (system H).Reach ShippedFresh w) {t : TabId} {s : SocketId} {tab : Tab H}
    (hcurrent : w.current t = some s) (htab : w.clients.tabs t = some tab)
    {payload : JsValue} (hqueued : .message payload ∈ w.queued s) :
    (ChatMessage.ofJs payload).idKey ∈
      (tab.onRelayEvent (.message payload)).messages.map ChatMessage.idKey := by
  obtain ⟨conn, tab', hconn, -, htab', hpeer, -⟩ :=
    (wired_of_reach hw).current_tab hcurrent
  obtain rfl : tab = tab' := Option.some.inj (htab.symm.trans htab')
  have hcarried := carried_of_reach shipped_of_shippedFresh hw
  obtain ⟨sent, hsent, rfl, hto⟩ := hcarried.queued s payload hqueued
  have hm := wellSent_of_reach shipped_of_shippedFresh hw sent hsent
  obtain ⟨e, hin⟩ := incoming_composed (H := H) hE
    (Clients.fromTab_of_reach (reach_clients_any hw) sent hsent) hm
    (hpeer ▸ hto conn hconn)
  have hkey := (copyOf_incoming hm hin).1.idKey_eq
  rw [← hm.ofJs_eq] at hin hkey
  rw [← hkey]
  exact Clients.listed_of_incoming hin

theorem Arrived.kept_of_change {w w' : World H} {a : Action}
    (hw : (system H).Reach ShippedFresh w) (h : w.Arrived)
    (hchange : Change w a w') {t : TabId} {s : SocketId} {tab' : Tab H}
    (hcur : w.current t = some s) (htab' : w'.clients.tabs t = some tab')
    {payload : JsValue} (hmem : .message payload ∈ w.queued s) :
    .message payload ∈ w.down s ∨
      (ChatMessage.ofJs payload).idKey ∈ tab'.messages.map ChatMessage.idKey := by
  obtain ⟨conn, tab, -, -, htab, -, hwants⟩ := (wired_of_reach hw).current_tab hcur
  refine (h t s tab hcur htab payload hmem).imp_right ?_
  rcases clients_of_change hchange with hsame | ⟨b, -, hstep⟩
  · rw [hsame, htab] at htab'
    cases htab'
    exact id
  · simp only [Tab.wantsSocket, Bool.and_eq_true] at hwants
    intro hlisted
    have hlonger := Clients.messages_prefix_of_change (reach_clients_any hw)
      (Clients.change_of_step hstep) htab hwants.1.1 htab'
    exact (hlonger.map _).subset hlisted

theorem Arrived.dispatch {w w₁ : World H} (h : w.Arrived) (emits : List Emit)
    (hclients : w₁.clients = w.clients) (hcurrent : w₁.current = w.current)
    (hqueued : w₁.queued = w.queued) (hdown : w₁.down = w.down) :
    (w₁.dispatch emits).Arrived := by
  intro t s tab hcur htab payload hmem
  simp only [World.dispatch, hclients, hcurrent, hqueued, hdown, List.mem_append]
    at hcur htab hmem ⊢
  rcases hmem with hold | hnew
  · exact (h t s tab hcur htab payload hold).imp_left .inl
  · exact .inl (.inr hnew)

theorem Arrived.change (hE : H.ed25519.Correct) {w w' : World H} {a : Action}
    (hw : (system H).Reach ShippedFresh w) (h : w.Arrived)
    (hchange : Change w a w') : w'.Arrived := by
  have hwired := wired_of_reach hw
  have hkeep : ∀ t s tab', w.current t = some s → w'.clients.tabs t = some tab' →
      ∀ payload, .message payload ∈ w.queued s → .message payload ∈ w.down s ∨
        (ChatMessage.ofJs payload).idKey ∈ tab'.messages.map ChatMessage.idKey :=
    fun _ _ _ hcur htab' _ => h.kept_of_change hw hchange hcur htab'
  cases hchange with
  | page hpage hclients => exact hkeep
  | @send t input now random clients msg hsend =>
      obtain ⟨up, sentOn, sendBuffer, heq, -⟩ :=
        transmit_frame { w with clients := clients } t msg
      rw [heq] at hkeep ⊢
      exact hkeep
  | keepName hclients => exact hkeep
  | newName hclients =>
      intro t s tab hcur
      simp only [close, Function.update_apply] at hcur
      split at hcur
      · cases hcur
      · exact hkeep t s tab hcur
  | connect htab hwants hcurrent =>
      intro t s tab hcur htab payload hmem
      simp only [openConnection, Function.update_apply] at hcur
      split at hcur
      · obtain rfl := Option.some.inj hcur
        have hnone : w.queued w.nextSocket = [] :=
          (hwired.unused _ (Nat.le_refl _)).2.2.2
        rw [show (w.openConnection _).queued w.nextSocket = w.queued w.nextSocket
          from rfl, hnone] at hmem
        cases hmem
      · exact hkeep t s tab hcur htab payload hmem
  | leave t =>
      intro u s tab hcur
      simp only [Function.update_apply] at hcur
      split at hcur
      · cases hcur
      · exact hkeep u s tab hcur
  | register hconn hup hregister => exact h.dispatch _ rfl rfl rfl rfl
  | message hconn hup => exact h.dispatch _ rfl rfl rfl rfl
  | drop hconn => exact h.dispatch _ rfl rfl rfl rfl
  | @deliver t s event rest tab hcurrent hdown htab hwants =>
      intro u s' tab' hcur htab' payload hmem
      by_cases hut : u = t
      · subst hut
        obtain rfl : s = s' := Option.some.inj (hcurrent.symm.trans hcur)
        rcases hkeep u s tab' hcur htab' payload hmem with hin | hlisted
        · rw [hdown] at hin
          rcases List.mem_cons.mp hin with rfl | hrest
          · right
            rw [Clients.setTab_self] at htab'
            cases htab'
            exact listed_of_deliver hE hw hcurrent htab hmem
          · left
            simpa using hrest
        · exact .inr hlisted
      · have hne : s' ≠ s := by
          rintro rfl
          exact hut (hwired.current_inj hcur hcurrent)
        simp only [Function.update_of_ne hne]
        exact hkeep u s' tab' hcur htab' payload hmem
  | join =>
      intro t s tab hcur htab payload hmem
      exact hkeep t s tab hcur htab payload hmem
  | emit howner hconn => exact hkeep

theorem arrived_of_reach (hE : H.ed25519.Correct) {w : World H}
    (hw : (system H).Reach ShippedFresh w) : w.Arrived := by
  refine hw.invariant (I := Arrived) ?_ ?_
  · intro t s tab hcur
    cases hcur
  · intro w a w' hreach h _ hnext
    exact h.change hE hreach (change_of_step hnext)

/-! ## End to end -/

/-- What shipped clients and the relay deliver, in a state of a run. -/
structure Delivers (w : World H) : Prop where
  sent : ∀ s payload, .message payload ∈ w.up s →
    ∃ sent ∈ w.clients.composed, payload = sent.message.toJs.throughJson ∧
      (sent.message.type = .str privateType ∨
        sent.message.recipient = .str broadcastId)
  private_routed : ∀ sent ∈ w.clients.composed,
    sent.message.type = .str privateType →
    ∃ R, sent.message.recipient = .str R ∧
      ∀ s rest w', w.up s = messageEvent sent.message :: rest →
        w.step (.recv s) = some w' → ∀ d,
        (w.relay.RegisteredAs d (.str R) → w'.queued d =
          w.queued d ++ [.message sent.message.toJs.throughJson]) ∧
        (¬ w.relay.RegisteredAs d (.str R) → w'.queued d = w.queued d)
  public_routed : ∀ sent ∈ w.clients.composed,
    sent.message.recipient = .str broadcastId →
    ∀ s rest w', w.up s = messageEvent sent.message :: rest →
      w.step (.recv s) = some w' → ∀ d,
      (d ∈ w.relay.connected → w'.queued d =
        w.queued d ++ [.message sent.message.toJs.throughJson]) ∧
      (d ∉ w.relay.connected → w'.queued d = w.queued d)
  queued_once : ∀ s, ((w.queued s).filterMap eventId).Nodup
  listed_once : ∀ t tab, w.clients.tabs t = some tab →
    tab.messages.Pairwise fun e e' => e.id ≠ e'.id
  private_listed : ∀ sent ∈ w.clients.composed,
    sent.message.type = .str privateType → ∀ t tab, w.clients.tabs t = some tab →
    ∀ e ∈ tab.messages, e.id = sent.message.id →
      sent.message.peerId = .str tab.peerId ∨
        sent.message.recipient = .str tab.peerId
  in_order : ∀ s conn, w.owner s = some conn → ∀ t tab, t ≠ conn.tab →
    w.clients.tabs t = some tab →
    (((tab.messages.drop tab.loaded).map ChatMessage.idKey).filter
      (· ∈ (w.sentOn s).map ChatMessage.idKey)).Sublist
      ((w.sentOn s).map ChatMessage.idKey)
  all_listed : ∀ t s tab, w.current t = some s → w.down s = [] →
    w.clients.tabs t = some tab → ∀ payload, .message payload ∈ w.queued s →
      ∃ e ∈ tab.messages, CopyOf (.ofJs payload) e

theorem queued_of_recv_sent {w w' : World H} {s : SocketId} {m : ChatMessage}
    {rest : List ClientEvent} (hup : w.up s = messageEvent m :: rest)
    (hstep : w.step (.recv s) = some w') {d : SocketId} {events : List RelayEvent}
    (h : arrivals w.relay (w.relay.message m.toJs.throughJson) d = events) :
    w'.queued d = w.queued d ++ events := by
  rw [queued_of_recv hup hstep d, h]

theorem delivers_of_reach (hE : H.ed25519.Correct) {w : World H}
    (hw : (system H).Reach ShippedFresh w) : w.Delivers := by
  have hwell := wellSent_of_reach shipped_of_shippedFresh hw
  have hcarried := carried_of_reach shipped_of_shippedFresh hw
  have hconsistent := (enrolled_of_reach shipped_of_shippedFresh hw).consistent
  have hclosed := closed_of_reach hw
  have hcopies := Clients.copies_of_reach hclosed
  have hbroker := reach_broker hw
  refine ⟨?_, ?_, ?_, ?_, ?_, ?_, ?_, ?_⟩
  · intro s payload hmem
    obtain ⟨sent, hsent, heq⟩ := hcarried.up s payload hmem
    refine ⟨sent, hsent, heq, ?_⟩
    rcases (hwell sent hsent).addressed with ⟨-, hall⟩ | ⟨htype, -⟩
    · exact .inr hall
    · exact .inl htype
  · intro sent hsent htype
    obtain ⟨R, hne, hR⟩ := (hwell sent hsent).private_recipient htype
    refine ⟨R, hR, ?_⟩
    intro s rest w' hup hstep d
    obtain ⟨hyes, hno⟩ := arrivals_direct hconsistent (hwell sent hsent) hR hne d
    refine ⟨fun hreg => queued_of_recv_sent hup hstep (hyes hreg), ?_⟩
    intro hreg
    simpa using queued_of_recv_sent hup hstep (hno hreg)
  · intro sent hsent hall s rest w' hup hstep d
    have harrivals := arrivals_public (r := w.relay) (hwell sent hsent) hall d
    constructor
    · intro hconn
      rw [if_pos hconn] at harrivals
      exact queued_of_recv_sent hup hstep harrivals
    · intro hconn
      rw [if_neg hconn] at harrivals
      simpa using queued_of_recv_sent hup hstep harrivals
  · exact (Broker.orderly_of_reach hbroker).queued_nodup
  · intro t tab htab
    refine (List.pairwise_map.mp (hcopies.listed t tab htab).nodup).imp ?_
    intro e e' hne hid
    exact hne (congrArg (JsValue.key 0) hid)
  · intro sent hsent htype t tab htab e he hid
    obtain ⟨sent', hsent', hcopy, hfor⟩ := (hcopies.listed t tab htab).received e he
    obtain rfl : sent' = sent := Clients.eq_of_idKey hclosed hsent' hsent
      (congrArg (JsValue.key 0) (hcopy.id_eq.symm.trans hid))
    obtain ⟨R, hne, hR⟩ := (hwell sent' hsent).private_recipient htype
    rcases hfor with hpeer | hall | hto
    · left
      obtain ⟨tab', _, input, now, random, -, -, hmsg, -, hpeer', -⟩ :=
        Clients.fromTab_of_reach hclosed sent' hsent
      obtain ⟨-, -, _, -, heq⟩ := Tab.composeMessage_eq_some hmsg
      rw [heq, ← hpeer, hpeer']
    · exact absurd (JsValue.str.inj (hR.symm.trans hall)) hne
    · exact .inr hto
  · intro s conn hconn t tab hne htab
    have hopener : w.toBroker.opener s = some conn.tab := by
      simp only [toBroker, hconn, Option.map_some]
    have hsublist := Broker.seen_sublist hbroker hopener hne
    simp only [toBroker, Clients.seenIds, htab] at hsublist
    exact hsublist
  · intro t s tab hcurrent hdown htab payload hmem
    obtain ⟨sent, hsent, rfl, -⟩ := hcarried.queued s payload hmem
    rw [(hwell sent hsent).ofJs_eq]
    rcases arrived_of_reach hE hw t s tab hcurrent htab _ hmem with hin | hlisted
    · rw [hdown] at hin
      cases hin
    · obtain ⟨e, he, hkey⟩ := List.mem_map.mp hlisted
      obtain ⟨sent', hsent', hcopy, -⟩ := (hcopies.listed t tab htab).received e he
      rw [(hwell sent hsent).ofJs_eq, hcopy.idKey_eq] at hkey
      cases Clients.eq_of_idKey hclosed hsent' hsent hkey
      exact ⟨e, he, hcopy⟩

/-- Tab 0 sends to all and then to tab 1 alone; everything is delivered. -/
def exchange : List Action :=
  twoTabs ++ [.deliver 0, .deliver 0, .send 0 (js "hi") 7 (js "x"),
    .page (.openDirectWith 0 0), .send 0 (js "psst") 8 (js "y"), .recv 0, .recv 0,
    .deliver 0, .deliver 1, .deliver 1, .deliver 1, .deliver 1]

theorem delivers_of_exchange :
    ∃ w : World plainHost, (system plainHost).Reach ShippedFresh w ∧
      (∃ tab, w.clients.tabs 1 = some tab ∧ tab.messages.length = 2 ∧
        w.down 1 = []) ∧ w.Delivers := by
  obtain ⟨w, hw, hcheck⟩ := System.exists_reach_of_exec (system plainHost)
    ShippedFresh (fun w a => shipped a && w.freshId a) exchange
    (fun w => (w.clients.tabs 1).any fun tab =>
      tab.messages.length = 2 && (w.down 1).isEmpty)
    (fun _ _ h => by simpa [ShippedFresh] using h) (by decide +kernel)
  simp only [Option.any_eq_true, Bool.and_eq_true, decide_eq_true_eq,
    List.isEmpty_iff] at hcheck
  exact ⟨w, hw, hcheck, delivers_of_reach plainEd25519_correct hw⟩

end World

end CommonChat.Network
