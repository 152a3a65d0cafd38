import CommonChat.Frontend.Copies
import CommonChat.Network.Direct

/-!
# Messages under way

In a run of shipped clients, every message in a queue is one that a tab composed,
and the relay queues it to tabs of its addressee only.  Together with fresh ids
this makes the clients of the run a closed system: what they receive is what they
have sent.
-/

namespace CommonChat.Network

open CommonChat.Foundation
open CommonChat.Core
open CommonChat.Relay
open CommonChat.Frontend

def isPresence : RelayEvent → Bool
  | .message _ => false
  | _ => true

theorem isPresence_throughJson (event : RelayEvent) :
    isPresence event.throughJson = isPresence event := by
  cases event <;> rfl

theorem isPresence_register {r r' : Server} {s : SocketId} {data : JsValue}
    {emits : List Emit} (h : r.register s data = .ok (r', emits)) :
    ∀ emit ∈ emits, isPresence (emitted emit) = true := by
  rcases Server.register_cases h with ⟨-, -, rfl⟩ | ⟨name, list, -, -, -, -, rfl⟩
  · nofun
  · simp [emitted, isPresence]

theorem isPresence_disconnect (r : Server) (s : SocketId) :
    ∀ emit ∈ (r.disconnect s).2, isPresence (emitted emit) = true := by
  intro emit hemit
  obtain ⟨data, hdata⟩ := emitted_disconnect hemit
  rw [hdata]
  rfl

theorem isPresence_arrivals {r : Server} {emits : List Emit}
    (h : ∀ emit ∈ emits, isPresence (emitted emit) = true) {s : SocketId} :
    ∀ event ∈ arrivals r emits s, isPresence event = true := by
  intro event hevent
  obtain ⟨emit, hemit, rfl⟩ := mem_arrivals hevent
  rw [isPresence_throughJson]
  exact h emit hemit

/-! ## What the relay does with a message of a tab -/

theorem relayAddressee_wellSent {m : ChatMessage} (hm : WellSent m) :
    relayAddressee m.toJs.throughJson = m.recipient := by
  have hfield : m.toJs.throughJson.field (js "recipient") = m.recipient := by
    rw [JsValue.field_throughJson]
    exact congrArg ChatMessage.recipient hm.throughJson_eq
  rw [relayAddressee, hfield]
  rcases hm.addressed with ⟨-, hr⟩ | ⟨-, p, -, hr⟩ <;> rw [hr] <;> rfl

theorem arrivals_public {r : Server} {m : ChatMessage} (hm : WellSent m)
    (hall : m.recipient = .str broadcastId) (s : SocketId) :
    arrivals r (r.message m.toJs.throughJson) s =
      if s ∈ r.connected then [.message m.toJs.throughJson] else [] := by
  have hobject : m.toJs.throughJson.isObject = true := rfl
  have harrivals := arrivals_broadcast r hobject
    ((relayAddressee_wellSent hm).trans hall) s
  rw [JsValue.throughJson_throughJson] at harrivals
  exact harrivals

theorem arrivals_direct {r : Server} (hr : r.Consistent) {m : ChatMessage}
    (hm : WellSent m) {p : JsString} (hp : m.recipient = .str p)
    (hne : p ≠ broadcastId) (s : SocketId) :
    (r.RegisteredAs s (.str p) →
      arrivals r (r.message m.toJs.throughJson) s = [.message m.toJs.throughJson]) ∧
    (¬ r.RegisteredAs s (.str p) →
      arrivals r (r.message m.toJs.throughJson) s = []) := by
  have hobject : m.toJs.throughJson.isObject = true := rfl
  have harrivals := arrivals_private hr hobject
    ((relayAddressee_wellSent hm).trans hp) hne s
  rw [JsValue.throughJson_throughJson] at harrivals
  exact harrivals

theorem arrivals_wellSent {r : Server} (hr : r.Consistent) {m : ChatMessage}
    (hm : WellSent m) (s : SocketId) :
    arrivals r (r.message m.toJs.throughJson) s = [.message m.toJs.throughJson] ∨
      arrivals r (r.message m.toJs.throughJson) s = [] := by
  rcases hm.addressed with ⟨-, hall⟩ | ⟨-, p, hne, hp⟩
  · rw [arrivals_public hm hall]
    split
    · exact .inl rfl
    · exact .inr rfl
  · obtain ⟨hyes, hno⟩ := arrivals_direct hr hm hp hne s
    by_cases hreg : r.RegisteredAs s (.str p)
    · exact .inl (hyes hreg)
    · exact .inr (hno hreg)

namespace World

variable {H : Host}

/-! ## Runs of shipped clients with fresh ids -/

def freshId (w : World H) : Action → Bool
  | .send _ _ now random => .str (Tab.messageId now random) ∉ w.clients.ids
  | _ => true

/-- Shipped clients, and no message id occurs twice. -/
def ShippedFresh (w : World H) (a : Action) : Prop :=
  shipped a = true ∧ w.freshId a = true

theorem shipped_of_shippedFresh (w : World H) (a : Action) (h : w.ShippedFresh a) :
    shipped a = true :=
  h.1

theorem announcesGood_of_shipped {ok : World H → Action → Prop}
    (hok : ∀ w a, ok w a → shipped a = true) {w : World H}
    (hw : (system H).Reach ok w) (Good : JsString → Prop) (a : Action) :
    w.AnnouncesGood Good a := by
  rintro s data rest rfl hconn howner
  obtain ⟨conn, hsome⟩ := (enrolled_of_reach hok hw).connected_owned s hconn
  rw [howner] at hsome
  cases hsome

theorem wellSent_of_reach {ok : World H → Action → Prop}
    (hok : ∀ w a, ok w a → shipped a = true) {w : World H}
    (hw : (system H).Reach ok w) :
    ∀ sent ∈ w.clients.composed, WellSent sent.message := by
  intro sent hsent
  have hgood : w.clients.PeersGood KeySized :=
    peersGood_of_reach (fun _ _ => keySized_of_spells) (fun _ => KeySized.ne_nil)
      (fun _ a hreach _ => announcesGood_of_shipped hok hreach _ a) hw
  exact wellSent_composed (Clients.fromTab_of_reach (reach_clients_any hw) sent hsent)
    (hgood.sends sent hsent)

theorem composed_subset_of_change {w w' : World H} {a : Action}
    (hchange : Change w a w') : w.clients.composed ⊆ w'.clients.composed := by
  rcases clients_of_change hchange with hsame | ⟨b, -, hstep⟩
  · rw [hsame]
    exact List.Subset.refl _
  · exact Clients.composed_subset (Clients.change_of_step hstep)

structure Carried (w : World H) : Prop where
  buffered : ∀ t, ∀ m ∈ w.sendBuffer t, ∃ sent ∈ w.clients.composed, m = sent.message
  up : ∀ s payload, .message payload ∈ w.up s →
    ∃ sent ∈ w.clients.composed, payload = sent.message.toJs.throughJson
  queued : ∀ s payload, .message payload ∈ w.queued s →
    ∃ sent ∈ w.clients.composed, payload = sent.message.toJs.throughJson ∧
      ∀ conn, w.owner s = some conn → SentTo sent.message conn.peerId
  down_suffix : ∀ s, w.down s <:+ w.queued s

theorem carried_initial : (initial H).Carried where
  buffered := nofun
  up := nofun
  queued := nofun
  down_suffix _ := List.suffix_refl _

theorem Carried.mono {w w' : World H} (h : w.Carried)
    (hcomposed : w.clients.composed ⊆ w'.clients.composed)
    (hbuffer : ∀ t, ∀ m ∈ w'.sendBuffer t, m ∈ w.sendBuffer t)
    (hup : ∀ s payload, .message payload ∈ w'.up s → .message payload ∈ w.up s)
    (hqueued : ∀ s payload, .message payload ∈ w'.queued s →
      .message payload ∈ w.queued s)
    (howner : w'.owner = w.owner) (hdown : ∀ s, w'.down s <:+ w'.queued s) :
    w'.Carried where
  buffered t m hm := by
    obtain ⟨sent, hsent, heq⟩ := h.buffered t m (hbuffer t m hm)
    exact ⟨sent, hcomposed hsent, heq⟩
  up s payload hmem := by
    obtain ⟨sent, hsent, heq⟩ := h.up s payload (hup s payload hmem)
    exact ⟨sent, hcomposed hsent, heq⟩
  queued s payload hmem := by
    obtain ⟨sent, hsent, heq, hto⟩ := h.queued s payload (hqueued s payload hmem)
    exact ⟨sent, hcomposed hsent, heq, howner ▸ hto⟩
  down_suffix := hdown

theorem Carried.dispatch_presence {w : World H} (h : w.Carried) {emits : List Emit}
    (hemits : ∀ emit ∈ emits, isPresence (emitted emit) = true) :
    (w.dispatch emits).Carried := by
  refine h.mono (List.Subset.refl _) (fun _ _ hm => hm) (fun _ _ hm => hm) ?_ rfl
    (fun s => List.suffix_append_self_iff.mpr (h.down_suffix s))
  intro s payload hmem
  rcases List.mem_append.mp hmem with hold | hnew
  · exact hold
  · cases isPresence_arrivals hemits _ hnew

theorem Carried.transmit {w : World H} (h : w.Carried) (t : TabId)
    {msg : ChatMessage}
    (hmsg : ∃ sent ∈ w.clients.composed, msg = sent.message) :
    (w.transmit t msg).Carried := by
  obtain ⟨up, sentOn, sendBuffer, heq, hemitted⟩ := transmit_frame w t msg
  rw [heq]
  refine ⟨?_, ?_, h.queued, h.down_suffix⟩
  · intro u m hm
    rcases hemitted.buffer_new u m hm with hold | rfl
    · exact h.buffered u m hold
    · exact hmsg
  · intro s payload hmem
    rcases hemitted.up_new s _ hmem with hold | hnew
    · exact h.up s payload hold
    · obtain ⟨sent, hsent, rfl⟩ := hmsg
      cases hnew
      exact ⟨sent, hsent, rfl⟩

theorem Carried.openConnection {w : World H} (h : w.Carried) (hwired : w.Wired)
    (conn : Connection) : (w.openConnection conn).Carried := by
  refine ⟨?_, ?_, ?_, h.down_suffix⟩
  · intro u m hm
    simp only [World.openConnection, Function.update_apply] at hm
    split at hm
    · cases hm
    · exact h.buffered u m hm
  · intro s payload hmem
    simp only [World.openConnection, Function.update_apply] at hmem
    split at hmem
    · simp only [List.mem_append, List.mem_map, List.mem_singleton, reduceCtorEq,
        or_false] at hmem
      obtain ⟨m, hm, heq⟩ := hmem
      obtain ⟨sent, hsent, rfl⟩ := h.buffered conn.tab m hm
      cases heq
      exact ⟨sent, hsent, rfl⟩
    · exact h.up s payload hmem
  · intro s payload hmem
    obtain ⟨sent, hsent, heq, hto⟩ := h.queued s payload hmem
    have hne : s ≠ w.nextSocket := by
      rintro rfl
      rw [show (w.openConnection _).queued w.nextSocket = w.queued w.nextSocket
        from rfl, (hwired.unused _ (Nat.le_refl _)).2.2.2] at hmem
      cases hmem
    refine ⟨sent, hsent, heq, ?_⟩
    simp only [World.openConnection, Function.update_of_ne hne]
    exact hto

theorem Carried.message {w : World H} (h : w.Carried) (henrolled : w.Enrolled)
    (hwell : ∀ sent ∈ w.clients.composed, WellSent sent.message) {s : SocketId}
    {payload : JsValue} {rest : List ClientEvent}
    (hup : w.up s = .message payload :: rest) :
    (({ w with up := Function.update w.up s rest } : World H).dispatch
      (w.relay.message payload)).Carried := by
  obtain ⟨sent, hsent, rfl⟩ := h.up s payload (by rw [hup]; exact List.mem_cons_self)
  have hm := hwell sent hsent
  refine ⟨h.buffered, ?_, ?_, ?_⟩
  · intro s' payload' hmem
    exact h.up s' payload' (mem_of_mem_tail hup hmem)
  · intro s' payload' hmem
    rcases List.mem_append.mp hmem with hold | hnew
    · exact h.queued s' payload' hold
    rcases hm.addressed with ⟨-, hall⟩ | ⟨-, p, hne, hp⟩
    · rw [arrivals_public hm hall] at hnew
      split at hnew
      · cases List.mem_singleton.mp hnew
        exact ⟨sent, hsent, rfl, fun _ _ => .inl hall⟩
      · cases hnew
    · obtain ⟨hyes, hno⟩ := arrivals_direct henrolled.consistent hm hp hne s'
      by_cases hreg : w.relay.RegisteredAs s' (.str p)
      · rw [hyes hreg] at hnew
        cases List.mem_singleton.mp hnew
        refine ⟨sent, hsent, rfl, ?_⟩
        intro conn hconn
        cases henrolled.peer_eq hconn hreg
        exact .inr hp
      · rw [hno hreg] at hnew
        cases hnew
  · intro s'
    exact List.suffix_append_self_iff.mpr (h.down_suffix s')

theorem Carried.change {w w' : World H} {a : Action} (h : w.Carried)
    (hwired : w.Wired) (henrolled : w.Enrolled) (hship : shipped a = true)
    (hwell : ∀ sent ∈ w.clients.composed, WellSent sent.message)
    (hchange : Change w a w') : w'.Carried := by
  have hsub := composed_subset_of_change hchange
  cases hchange with
  | page hpage hclients =>
      exact h.mono hsub (fun _ _ hm => hm) (fun _ _ hm => hm) (fun _ _ hm => hm) rfl
        h.down_suffix
  | @send t input now random clients msg hsend =>
      obtain ⟨tab, identity, -, -, -, rfl⟩ := Clients.signAndSend_cases hsend
      refine Carried.transmit (w := { w with clients := _ }) ?_ t
        ⟨_, List.mem_append_right _ (List.mem_singleton_self _), rfl⟩
      exact h.mono (List.subset_append_left _ _) (fun _ _ hm => hm) (fun _ _ hm => hm)
        (fun _ _ hm => hm) rfl h.down_suffix
  | keepName hclients =>
      exact h.mono hsub (fun _ _ hm => hm) (fun _ _ hm => hm) (fun _ _ hm => hm) rfl
        h.down_suffix
  | newName hclients =>
      refine h.mono hsub ?_ (fun _ _ hm => hm) (fun _ _ hm => hm) rfl h.down_suffix
      intro u m hm
      simp only [close, Function.update_apply] at hm
      split at hm
      · cases hm
      · exact hm
  | @connect t tab htab hwants hcurrent => exact h.openConnection hwired _
  | leave t =>
      exact h.mono hsub (fun _ _ hm => hm) (fun _ _ hm => hm) (fun _ _ hm => hm) rfl
        h.down_suffix
  | @register s data rest relay emits hconn hup hregister =>
      refine Carried.dispatch_presence (w := { w with
        relay := relay, up := Function.update w.up s rest }) ?_
        (isPresence_register hregister)
      refine h.mono (List.Subset.refl _) (fun _ _ hm => hm) ?_ (fun _ _ hm => hm) rfl
        h.down_suffix
      exact fun s' payload hmem => mem_of_mem_tail hup hmem
  | @message s payload rest hconn hup => exact h.message henrolled hwell hup
  | @drop s hconn =>
      exact Carried.dispatch_presence (w := { w with
        relay := (w.relay.disconnect s).1 }) ⟨h.buffered, h.up, h.queued, h.down_suffix⟩
        (isPresence_disconnect w.relay s)
  | @deliver t s event rest tab hcurrent hdown htab hwants =>
      refine h.mono hsub (fun _ _ hm => hm) (fun _ _ hm => hm) (fun _ _ hm => hm) rfl ?_
      intro s'
      simp only [Function.update_apply]
      split
      · rename_i hs
        rw [hs]
        exact (List.suffix_cons event rest).trans (hdown ▸ h.down_suffix s)
      · exact h.down_suffix s'
  | join => cases hship
  | emit howner hconn => cases hship

theorem carried_of_reach {ok : World H → Action → Prop}
    (hok : ∀ w a, ok w a → shipped a = true) {w : World H}
    (hw : (system H).Reach ok w) : w.Carried :=
  hw.invariant carried_initial fun _ _ _ hreach h hguard hnext =>
    h.change (wired_of_reach hreach) (enrolled_of_reach hok hreach) (hok _ _ hguard)
      (wellSent_of_reach hok hreach) (change_of_step hnext)

theorem closed_of_reach {w : World H} (hw : (system H).Reach ShippedFresh w) :
    (Clients.system H).Reach Clients.Closed w.clients := by
  refine reach_clients ?_ hw
  intro w a b hreach hok hb
  refine ⟨?_, ?_, ?_⟩
  · rintro t input now random rfl
    obtain rfl := send_of_clientAction hb
    simpa [freshId] using hok.2
  · rintro t payload rfl
    obtain ⟨s, -, hevent⟩ := receive_of_clientAction hb
    have hcarried := carried_of_reach shipped_of_shippedFresh hreach
    obtain ⟨sent, hsent, heq, -⟩ := hcarried.queued s payload
      ((hcarried.down_suffix s).subset hevent)
    exact ⟨sent, hsent, heq⟩
  · rintro t event rfl
    obtain ⟨s, -, hevent⟩ := receive_of_clientAction hb
    have hrelay : w.GoodRelay KeySized :=
      goodRelay_of_reach (fun _ _ => keySized_of_spells) (fun _ a hreach _ =>
        announcesGood_of_shipped shipped_of_shippedFresh hreach _ a) hreach
    exact hrelay.events s event hevent

end World

end CommonChat.Network
