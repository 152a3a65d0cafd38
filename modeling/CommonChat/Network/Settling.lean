import CommonChat.Network.Delivery
import CommonChat.Network.Presence
import CommonChat.Network.Rename
import CommonChat.Relay.Survival
import Mathlib.Algebra.BigOperators.Group.Finset.Basic
import Mathlib.Algebra.Order.BigOperators.Group.Finset

/-!
# The network comes to rest

While the pages rest, the relay handles what is under way to it and notices the
connections that were closed, and the tabs take what is under way to them.  Each
such step may bring an event to every socket, but there is an end: `load` bounds
the number of steps, whatever their order.  At the end every connection that
lasts is registered and shows only peers that are connected, and every message
that was under way over one has arrived where it was addressed to at the start.
-/

namespace CommonChat.Network.World

open CommonChat.Foundation
open CommonChat.Core
open CommonChat.Relay
open CommonChat.Frontend

variable {H : Host}

/-- The socket is still the one of its tab. -/
def live (w : World H) (s : SocketId) : Bool :=
  (w.owner s).any fun conn => w.current conn.tab = some s

/-- Events under way, and ends of connections that the relay has not seen. -/
def underWay (w : World H) : Action → Bool
  | .recv _ | .deliver _ => true
  | .drop s => !w.live s
  | _ => false

def work (w : World H) (s : SocketId) : Nat :=
  if s ∈ w.relay.connected then (w.up s).length + 1 else 0

/-- A bound on the steps that are left: each one of the relay may reach every socket. -/
def load (w : World H) : Nat :=
  (w.nextSocket + 1) * (∑ s ∈ Finset.range w.nextSocket, w.work s) +
    ∑ s ∈ Finset.range w.nextSocket, (w.down s).length

theorem live_iff {w : World H} {s : SocketId} :
    w.live s = true ↔ ∃ conn, w.owner s = some conn ∧ w.current conn.tab = some s := by
  simp [live, Option.any_eq_true]

theorem shippedFresh_of_underWay {w : World H} {a : Action} (h : w.underWay a = true) :
    w.ShippedFresh a := by
  cases a with
  | recv s => exact ⟨rfl, rfl⟩
  | deliver t => exact ⟨rfl, rfl⟩
  | drop s => exact ⟨rfl, rfl⟩
  | _ => cases h

/-! ## The bound -/

def Announced (w : World H) : Prop :=
  ∀ s conn, w.owner s = some conn → s ∈ w.relay.connected →
    w.relay.RegisteredAs s (.str conn.peerId) ∨ ∃ data, .register data ∈ w.up s

theorem Announced.mono {w w' : World H} (h : w.Announced) (howner : w'.owner = w.owner)
    (hrelay : w'.relay = w.relay)
    (hup : ∀ s data, .register data ∈ w.up s → .register data ∈ w'.up s) :
    w'.Announced := by
  intro s conn hconn hs
  rw [howner] at hconn
  rw [hrelay] at hs ⊢
  refine (h s conn hconn hs).imp_right ?_
  rintro ⟨data, hdata⟩
  exact ⟨data, hup s data hdata⟩

theorem registeredAs_of_register {w : World H} (hwired : w.Wired) (henrolled : w.Enrolled)
    {s : SocketId} {data : JsValue} {rest : List ClientEvent} {relay : Server}
    {emits : List Emit} (hconn : s ∈ w.relay.connected)
    (hup : w.up s = .register data :: rest)
    (hregister : w.relay.register s data = .ok (relay, emits)) {d : SocketId} {peer : JsKey}
    (hreg : w.relay.RegisteredAs d peer) : relay.RegisteredAs d peer := by
  obtain ⟨conn, howner⟩ := henrolled.connected_owned s hconn
  obtain rfl := hwired.registers s conn data howner (by simp [hup])
  by_cases hd : d = s
  · subst hd
    rw [henrolled.peer_eq howner hreg]
    exact registeredAs_register hwired howner hregister
  · rcases Server.register_cases hregister with
      ⟨-, rfl, -⟩ | ⟨name, list, -, -, rfl, -⟩
    · exact hreg
    · rwa [Server.registeredAs_enroll_iff, if_neg hd]

theorem mem_tail_or_head {α : Type} {queue : SocketId → List α} {s s' : SocketId}
    {a b : α} {rest : List α} (hqueue : queue s = a :: rest) (hb : b ∈ queue s') :
    b ∈ Function.update queue s rest s' ∨ a = b := by
  simp only [Function.update_apply]
  split
  · rename_i hs
    rw [hs, hqueue] at hb
    exact (List.mem_cons.mp hb).symm.imp_right Eq.symm
  · exact .inl hb

theorem Announced.change {w w' : World H} {a : Action} (h : w.Announced)
    (hwired : w.Wired) (henrolled : w.Enrolled) (hship : shipped a = true)
    (hchange : Change w a w') : w'.Announced := by
  cases hchange with
  | @send t input now random clients msg hsend =>
      obtain ⟨up, sentOn, sendBuffer, heq, hsent⟩ :=
        transmit_frame { w with clients := clients } t msg
      rw [heq]
      exact h.mono rfl rfl (fun s _ => hsent.up_kept s _)
  | @connect t tab htab hwants hcurrent =>
      intro s conn hconn hs
      simp only [openConnection, Function.update_apply] at hconn hs ⊢
      by_cases hnew : s = w.nextSocket
      · rw [if_pos hnew] at hconn ⊢
        refine .inr ⟨(Connection.registration ⟨t, tab.peerId, tab.displayName⟩).throughJson, ?_⟩
        exact List.mem_append_right _ (List.mem_singleton_self _)
      · rw [if_neg hnew] at hconn ⊢
        exact h s conn hconn ((InsertionSet.mem_add.mp hs).resolve_left hnew)
  | @register s data rest relay emits hconn hup hregister =>
      intro s' conn howner hs'
      simp only [World.dispatch, connected_register hregister] at hs'
      by_cases hss : s' = s
      · subst hss
        obtain rfl := hwired.registers s' conn data howner (by simp [hup])
        exact .inl (registeredAs_register hwired howner hregister)
      · refine (h s' conn howner hs').imp ?_ ?_
        · exact registeredAs_of_register hwired henrolled hconn hup hregister
        · simp only [World.dispatch, Function.update_of_ne hss]
          exact id
  | @message s payload rest hconn hup =>
      refine Announced.mono (w := w) h rfl rfl ?_
      intro s' data hdata
      exact (mem_tail_or_head hup hdata).resolve_right fun heq => by cases heq
  | @drop s hconn =>
      intro s' conn howner hs'
      simp only [World.dispatch, Server.connected_disconnect,
        InsertionSet.mem_delete] at hs'
      refine (h s' conn howner hs'.2).imp_left ?_
      intro hreg
      exact (Server.registeredAs_disconnect_iff w.relay s s' _).mpr ⟨hs'.1, hreg⟩
  | join => cases hship
  | emit howner hconn => cases hship
  | _ => exact h

theorem announced_of_reach {w : World H} (hw : (system H).Reach ShippedFresh w) :
    w.Announced := by
  refine hw.invariant nofun ?_
  intro w a w' hreach h hok hnext
  exact h.change (wired_of_reach hreach) (enrolled_of_reach shipped_of_shippedFresh hreach)
    hok.1 (change_of_step hnext)

/-! ## When nothing is left to do -/

structure Resting (w : World H) : Prop where
  live : ∀ s ∈ w.relay.connected, w.live s = true
  up_nil : ∀ s ∈ w.relay.connected, w.up s = []
  down_nil : ∀ t s, w.current t = some s → w.down s = []

structure Later (w w' : World H) : Prop where
  reach : (system H).Reach ShippedFresh w'
  current_eq : w'.current = w.current
  owner_eq : w'.owner = w.owner
  composed_eq : w'.clients.composed = w.clients.composed
  connected_sub : ∀ s ∈ w'.relay.connected, s ∈ w.relay.connected
  connected : ∀ s ∈ w.relay.connected, w.live s = true → s ∈ w'.relay.connected

theorem Later.live_eq {w w' : World H} (h : w.Later w') (s : SocketId) :
    w'.live s = w.live s := by
  simp only [World.live, h.owner_eq, h.current_eq]

theorem later_refl {w : World H} (hw : (system H).Reach ShippedFresh w) : w.Later w :=
  ⟨hw, rfl, rfl, rfl, fun _ hs => hs, fun _ hs _ => hs⟩

theorem Later.step {w w₁ w₂ : World H} {a : Action} (h : w.Later w₁)
    (hunder : w₁.underWay a = true) (hstep : (system H).step w₁ a = some w₂) :
    w.Later w₂ := by
  have hreach : (system H).Reach ShippedFresh w₂ :=
    .step h.reach (shippedFresh_of_underWay hunder) hstep
  cases change_of_step hstep with
  | register hconn hup hregister =>
      have hsame := connected_register hregister
      exact ⟨hreach, h.current_eq, h.owner_eq, h.composed_eq,
        fun s hs => h.connected_sub s (by rw [← hsame]; exact hs),
        fun s hs hlive => by
          simp only [World.dispatch, hsame]
          exact h.connected s hs hlive⟩
  | message hconn hup =>
      exact ⟨hreach, h.current_eq, h.owner_eq, h.composed_eq, h.connected_sub, h.connected⟩
  | @drop s hconn =>
      refine ⟨hreach, h.current_eq, h.owner_eq, h.composed_eq, ?_, ?_⟩
      · intro d hd
        simp only [World.dispatch, Server.connected_disconnect,
          InsertionSet.mem_delete] at hd
        exact h.connected_sub d hd.2
      · intro d hd hlive
        simp only [World.dispatch, Server.connected_disconnect, InsertionSet.mem_delete]
        refine ⟨?_, h.connected d hd hlive⟩
        rintro rfl
        rw [← h.live_eq] at hlive
        simp [underWay, hlive] at hunder
  | deliver hcurrent hdown htab hwants =>
      exact ⟨hreach, h.current_eq, h.owner_eq, h.composed_eq, h.connected_sub, h.connected⟩
  | _ => cases hunder

/-- The relay would queue the message to the socket now; a direct one needs a registration. -/
def AddressedTo (w : World H) (m : ChatMessage) (d : SocketId) : Prop :=
  m.recipient = .str broadcastId ∨
    ∃ p, m.recipient = .str p ∧ w.relay.RegisteredAs d (.str p)

structure Coming (s d : SocketId) (sent : Composed) (w : World H) : Prop where
  composed : sent ∈ w.clients.composed
  sender_live : w.live s = true
  sender : s ∈ w.relay.connected
  receiver_live : w.live d = true
  receiver : d ∈ w.relay.connected
  addressed : w.AddressedTo sent.message d
  coming : messageEvent sent.message ∈ w.up s ∨
    .message sent.message.toJs.throughJson ∈ w.queued d

theorem arrivals_of_addressedTo {w : World H} (hw : (system H).Reach ShippedFresh w)
    {sent : Composed} (hsent : sent ∈ w.clients.composed) {d : SocketId}
    (hd : d ∈ w.relay.connected) (h : w.AddressedTo sent.message d) :
    arrivals w.relay (w.relay.message sent.message.toJs.throughJson) d =
      [.message sent.message.toJs.throughJson] := by
  have hm := wellSent_of_reach shipped_of_shippedFresh hw sent hsent
  rcases hm.addressed with ⟨-, hall⟩ | ⟨-, p, hne, hp⟩
  · rw [arrivals_public hm hall, if_pos hd]
  · have hr := (enrolled_of_reach shipped_of_shippedFresh hw).consistent
    refine (arrivals_direct hr hm hp hne d).1 ?_
    rcases h with hall | ⟨q, hq, hreg⟩
    · exact absurd (JsValue.str.inj (hp.symm.trans hall)) hne
    · rw [JsValue.str.inj (hp.symm.trans hq)]
      exact hreg

theorem AddressedTo.mono {w w' : World H} {m : ChatMessage} {d : SocketId}
    (h : w.AddressedTo m d)
    (hreg : ∀ p, w.relay.RegisteredAs d (.str p) → w'.relay.RegisteredAs d (.str p)) :
    w'.AddressedTo m d := by
  refine h.imp_right ?_
  rintro ⟨p, hp, hold⟩
  exact ⟨p, hp, hreg p hold⟩

theorem Coming.step {w w' : World H} {a : Action} {s d : SocketId} {sent : Composed}
    (hw : (system H).Reach ShippedFresh w) (h : Coming s d sent w)
    (hunder : w.underWay a = true) (hstep : (system H).step w a = some w') :
    Coming s d sent w' := by
  have hlater := (later_refl hw).step hunder hstep
  have hkept : Coming s d sent w' ↔ w'.AddressedTo sent.message d ∧
      (messageEvent sent.message ∈ w'.up s ∨
        .message sent.message.toJs.throughJson ∈ w'.queued d) := by
    refine ⟨fun h' => ⟨h'.addressed, h'.coming⟩, ?_⟩
    rintro ⟨haddressed, hcoming⟩
    exact {
      composed := hlater.composed_eq ▸ h.composed
      sender_live := by rw [hlater.live_eq]; exact h.sender_live
      sender := hlater.connected s h.sender h.sender_live
      receiver_live := by rw [hlater.live_eq]; exact h.receiver_live
      receiver := hlater.connected d h.receiver h.receiver_live
      addressed := haddressed
      coming := hcoming }
  rw [hkept]
  cases change_of_step hstep with
  | register hconn hup hregister =>
      refine ⟨h.addressed.mono fun p hreg => registeredAs_of_register (wired_of_reach hw)
        (enrolled_of_reach shipped_of_shippedFresh hw) hconn hup hregister hreg, ?_⟩
      refine h.coming.imp ?_ (List.mem_append_left _)
      intro hmem
      exact (mem_tail_or_head hup hmem).resolve_right fun heq => by cases heq
  | message hconn hup =>
      refine ⟨h.addressed, ?_⟩
      rcases h.coming with hmem | hqueued
      · rcases mem_tail_or_head hup hmem with hrest | hhead
        · exact .inl hrest
        · cases hhead
          have harrivals := arrivals_of_addressedTo hw h.composed h.receiver h.addressed
          simp only [World.dispatch]
          rw [harrivals]
          exact .inr (List.mem_append_right _ (List.mem_singleton_self _))
      · exact .inr (List.mem_append_left _ hqueued)
  | @drop s' hconn =>
      have hne : d ≠ s' := by
        rintro rfl
        simp [underWay, h.receiver_live] at hunder
      refine ⟨h.addressed.mono fun p hreg =>
        (Server.registeredAs_disconnect_iff w.relay s' d _).mpr ⟨hne, hreg⟩, ?_⟩
      exact h.coming.imp_right (List.mem_append_left _)
  | deliver hcurrent hdown htab hwants => exact ⟨h.addressed, h.coming⟩
  | _ => cases hunder

/-! ## The end of a schedule -/

theorem Resting.registered {w : World H} (hw : (system H).Reach ShippedFresh w)
    (h : w.Resting) {t : TabId} {s : SocketId} {tab : Tab H} (hcurrent : w.current t = some s)
    (hs : s ∈ w.relay.connected) (htab : w.clients.tabs t = some tab) :
    w.relay.RegisteredAs s (.str tab.peerId) := by
  obtain ⟨conn, tab', howner, -, htab', hpeer, -⟩ :=
    (wired_of_reach hw).current_tab hcurrent
  obtain rfl : tab = tab' := Option.some.inj (htab.symm.trans htab')
  rw [hpeer]
  rcases announced_of_reach hw s conn howner hs with hreg | ⟨data, hdata⟩
  · exact hreg
  · rw [h.up_nil s hs] at hdata
    cases hdata

theorem Resting.shown {w : World H} (hw : (system H).Reach ShippedFresh w)
    (h : w.Resting) {t : TabId} {s : SocketId} {tab : Tab H} (hcurrent : w.current t = some s)
    (hs : s ∈ w.relay.connected) (htab : w.clients.tabs t = some tab) :
    ∀ q ∈ tab.onlinePeers, ∃ u d other, w.current u = some d ∧ d ∈ w.relay.connected ∧
      w.clients.tabs u = some other ∧ q.pubKey = .str other.peerId := by
  have henrolled := enrolled_of_reach shipped_of_shippedFresh hw
  have hsound := follows_of_reach sound_replicates shipped_of_shippedFresh
    (fun _ _ _ => trivial) hw t tab s _ htab hcurrent (h.registered hw hcurrent hs htab)
  rw [h.down_nil t s hcurrent] at hsound
  intro q hq
  obtain ⟨p, hp, d, hreg⟩ := hsound q hq
  have hd := henrolled.consistent.registered_connected d _ hreg
  obtain ⟨conn, howner, hlive⟩ := live_iff.mp (h.live d hd)
  obtain ⟨other, hother, hpeer, -⟩ := (wired_of_reach hw).owner_tab d conn howner
  refine ⟨conn.tab, d, other, hlive, hd, hother, ?_⟩
  rw [hp, hpeer, JsKey.str.inj (henrolled.peer_eq howner hreg)]

theorem Resting.listed (hE : H.ed25519.Correct) {w : World H}
    (hw : (system H).Reach ShippedFresh w) (h : w.Resting) {s d : SocketId}
    {sent : Composed} (hcoming : Coming s d sent w) {t : TabId} {tab : Tab H}
    (hcurrent : w.current t = some d) (htab : w.clients.tabs t = some tab) :
    ∃ e ∈ tab.messages, CopyOf sent.message e := by
  have hm := wellSent_of_reach shipped_of_shippedFresh hw sent hcoming.composed
  have hqueued : .message sent.message.toJs.throughJson ∈ w.queued d := by
    rcases hcoming.coming with hmem | hqueued
    · rw [h.up_nil s hcoming.sender] at hmem
      cases hmem
    · exact hqueued
  rw [← hm.ofJs_eq]
  exact (delivers_of_reach hE hw).all_listed t d tab hcurrent (h.down_nil t d hcurrent)
    htab _ hqueued

end CommonChat.Network.World
