import CommonChat.Foundation.Agreement
import CommonChat.Network.Delivery
import CommonChat.Network.Presence

/-!
# One order for all tabs

The relay handles one message after the other, and every tab lists the messages
of the other tabs in the order of the relay, whatever connections they come over
and however often tabs reconnect.  That order respects causality: a message
comes after what was sent before it over its connection and after the messages of
other tabs that its sender had listed since its page load.  What the sender itself
sent over an earlier connection may come later, when the relay is late to read it.
-/

namespace CommonChat.Network

open CommonChat.Foundation
open CommonChat.Core
open CommonChat.Relay
open CommonChat.Frontend

namespace World

variable {H : Host}

def SentElsewhere (w : World H) (t : TabId) (id : JsKey) : Prop :=
  ∃ s conn, w.owner s = some conn ∧ conn.tab ≠ t ∧
    id ∈ (w.sentOn s).map ChatMessage.idKey

/--
One message directly before another: sent before it over a connection, or sent by
another tab and listed by the sender, since its page load, when it composed the other.
-/
inductive Precedes (w : World H) (id id' : JsKey) : Prop
  | sent (s : SocketId) (h : Before ((w.sentOn s).map ChatMessage.idKey) id id')
  | listed {tab : Tab H} {s : SocketId} {conn : Connection}
      (howner : w.owner s = some conn)
      (hsent : id' ∈ (w.sentOn s).map ChatMessage.idKey)
      (htab : w.clients.tabs conn.tab = some tab)
      (helse : w.SentElsewhere conn.tab id)
      (h : Before ((tab.messages.drop tab.loaded).map ChatMessage.idKey) id id')

/-- The messages that the relay has handled, in an order that all tabs keep. -/
structure CommonOrder (w : World H) (order : List JsKey) : Prop where
  nodup : order.Nodup
  handled : ∀ id, id ∈ order ↔ ∃ s, id ∈ (w.sentOn s).map ChatMessage.idKey ∧
    id ∉ (w.up s).filterMap sentId
  listed : ∀ t tab, w.clients.tabs t = some tab → ∀ ids : List JsKey,
    ids.Sublist ((tab.messages.drop tab.loaded).map ChatMessage.idKey) →
    (∀ id ∈ ids, w.SentElsewhere t id) → ids.Sublist order
  causal : ∀ id id', Relation.TransGen w.Precedes id id' → id' ∈ order →
    Before order id id'

theorem foreign_toBroker_iff (w : World H) (t : TabId) (id : JsKey) :
    w.toBroker.Foreign t id ↔ w.SentElsewhere t id := by
  constructor
  · rintro ⟨s, m, hm, hne, hid⟩
    obtain ⟨conn, hconn, rfl⟩ := Option.map_eq_some_iff.mp hm
    exact ⟨s, conn, hconn, hne, hid⟩
  · rintro ⟨s, conn, hconn, hne, hid⟩
    exact ⟨s, conn.tab, Option.map_eq_some_iff.mpr ⟨conn, hconn, rfl⟩, hne, hid⟩

theorem nodup_seenIds {w : World H} (hw : (system H).Reach ShippedFresh w) {t : TabId}
    {tab : Tab H} (htab : w.clients.tabs t = some tab) :
    ((tab.messages.drop tab.loaded).map ChatMessage.idKey).Nodup := by
  have hcopies := Clients.copies_of_reach (closed_of_reach hw)
  rw [List.map_drop]
  exact (hcopies.listed t tab htab).nodup.sublist (List.drop_sublist _ _)

theorem Precedes.toBroker {w : World H} (hw : (system H).Reach ShippedFresh w)
    {id id' : JsKey} (h : w.Precedes id id') : w.toBroker.Precedes id id' := by
  cases h with
  | sent s h => exact .sent s h
  | @listed tab s conn howner hsent htab helse h =>
      refine .seen conn.tab ⟨s, ?_, hsent⟩ ?_ ?_
      · simp only [World.toBroker, howner, Option.map_some]
      · exact (foreign_toBroker_iff w conn.tab id).mpr helse
      · simp only [World.toBroker, Clients.seenIds, htab]
        exact h.mem_takeWhile (nodup_seenIds hw htab)

theorem exists_commonOrder {w : World H} (hw : (system H).Reach ShippedFresh w) :
    ∃ order, w.CommonOrder order := by
  have hbroker := reach_broker hw
  have ho := Broker.orderly_of_reach hbroker
  obtain ⟨order, h⟩ := Broker.exists_agrees_of_reach hbroker
  refine ⟨order, h.nodup, fun id => h.taken_iff ho, ?_, ?_⟩
  · intro t tab htab ids hids hall
    have hseen : w.toBroker.seen t =
        (tab.messages.drop tab.loaded).map ChatMessage.idKey := by
      simp only [toBroker, Clients.seenIds, htab]
    refine h.arrived t ids ?_ ?_
    · rw [hseen]
      exact hids.trans (List.sublist_append_left _ _)
    · intro id hid
      exact (foreign_toBroker_iff w t id).mpr (hall id hid)
  · intro id id' hprec hid'
    have hle : w.Precedes ≤ w.toBroker.Precedes := fun _ _ hp => Precedes.toBroker hw hp
    exact h.before_of_transGen ho (Relation.TransGen.mono hle id id' hprec) hid'

def answer : List Action :=
  threeTabs ++ [.send 0 (js "hi") 7 (js "x"), .recv 0, .deliver 2, .deliver 2,
    .deliver 2, .deliver 2, .send 2 (js "yes") 8 (js "y"), .recv 2, .deliver 1,
    .deliver 1, .deliver 1, .deliver 1, .deliver 1]

theorem exists_commonOrder_of_answer :
    ∃ w : World plainHost, (system plainHost).Reach ShippedFresh w ∧
      (∃ tab, w.clients.tabs 1 = some tab ∧ tab.messages.length = 2) ∧
      ∃ order, w.CommonOrder order := by
  obtain ⟨w, hw, hcheck⟩ := System.exists_reach_of_exec (system plainHost)
    ShippedFresh (fun w a => shipped a && w.freshId a) answer
    (fun w => (w.clients.tabs 1).any fun tab => tab.messages.length = 2)
    (fun _ _ h => by simpa [ShippedFresh] using h) (by decide +kernel)
  simp only [Option.any_eq_true, decide_eq_true_eq] at hcheck
  exact ⟨w, hw, hcheck, exists_commonOrder hw⟩

theorem CommonOrder.before_of_precedes {w : World H} {order : List JsKey}
    (h : w.CommonOrder order) {t : TabId} {tab : Tab H}
    (htab : w.clients.tabs t = some tab) {id id' : JsKey}
    (hprec : Relation.TransGen w.Precedes id id') (hid : w.SentElsewhere t id)
    (hid' : w.SentElsewhere t id') :
    ¬ Before ((tab.messages.drop tab.loaded).map ChatMessage.idKey) id' id := by
  intro hlisted
  have hafter : Before order id' id := by
    refine h.listed t tab htab [id', id] hlisted ?_
    simp [hid, hid']
  exact (h.causal id id' hprec hafter.mem_left).asymm h.nodup hafter

theorem CommonOrder.same_order {w : World H} {order : List JsKey}
    (h : w.CommonOrder order) {t t' : TabId} {tab tab' : Tab H}
    (htab : w.clients.tabs t = some tab) (htab' : w.clients.tabs t' = some tab')
    {id id' : JsKey} (hid : w.SentElsewhere t id) (hid' : w.SentElsewhere t id')
    (hto : w.SentElsewhere t' id) (hto' : w.SentElsewhere t' id')
    (hlisted : Before ((tab.messages.drop tab.loaded).map ChatMessage.idKey) id id') :
    ¬ Before ((tab'.messages.drop tab'.loaded).map ChatMessage.idKey) id' id := by
  intro hlisted'
  have hfirst : Before order id id' :=
    h.listed t tab htab [id, id'] hlisted (by simp [hid, hid'])
  have hsecond : Before order id' id :=
    h.listed t' tab' htab' [id', id] hlisted' (by simp [hto, hto'])
  exact hfirst.asymm h.nodup hsecond

end World

end CommonChat.Network
