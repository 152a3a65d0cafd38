import CommonChat.Frontend.Peers
import CommonChat.Network.Routing
import CommonChat.Network.Wiring

/-!
# Direct messages

A message composed in a direct view is private and carries the peer of the view.
The relay decides on its own, by comparing the recipient with a sentinel, so a
peer that registers under the sentinel turns its direct messages into public
ones; and a socket that has changed its peer id still gets the messages of the
old one.
-/

namespace CommonChat.Network.World

open CommonChat.Foundation
open CommonChat.Core
open CommonChat.Relay
open CommonChat.Frontend

variable {H : Host} {Good : JsString → Prop}

def AnnouncesGood (Good : JsString → Prop) (w : World H) (a : Action) : Prop :=
  ∀ s data rest, a = .recv s → s ∈ w.relay.connected → w.owner s = none →
    w.up s = .register data :: rest → (Server.claimedPeer data).truthy = true →
    GoodKey Good (Server.claimedPeer data)

structure GoodRelay (Good : JsString → Prop) (w : World H) : Prop where
  registered : ∀ s info, w.relay.socketToPeer.get s = some info →
    GoodKey Good info.peerId
  events : ∀ s, ∀ event ∈ w.down s, GoodEvent Good event

theorem goodRelay_initial : (initial H).GoodRelay Good := ⟨nofun, nofun⟩

theorem goodEvent_register {r r' : Server} {s : SocketId} {data : JsValue}
    {emits : List Emit} (h : r.register s data = .ok (r', emits))
    (hgood : ∀ s info, r'.socketToPeer.get s = some info →
      GoodKey Good info.peerId)
    (hpeer : (Server.claimedPeer data).truthy = true →
      GoodKey Good (Server.claimedPeer data)) :
    ∀ emit ∈ emits, GoodEvent Good (emitted emit).throughJson := by
  rcases Server.register_cases h with
    ⟨-, -, rfl⟩ | ⟨name, list, htruthy, -, rfl, hlist, rfl⟩
  · nofun
  intro emit hemit
  rcases List.mem_cons.mp hemit with rfl | hemit
  · have hitems : ∀ item ∈ list, ∃ p name, Good p ∧
        item = Server.peerObject (.str p) name := by
      intro item hitem
      obtain ⟨s', info, name', hmem, -, -, rfl⟩ :=
        Server.mem_getOnlineListFrom hlist item hitem
      obtain ⟨p, hp, heq⟩ := hgood s' info ((InsertionMap.mem_entries_iff _ _ _).mp hmem)
      exact ⟨p, name', hp, by rw [heq]⟩
    refine ⟨list.map JsValue.throughJson, Server.throughJson_onlineList hlist, ?_⟩
    intro item hitem
    obtain ⟨item', hitem', rfl⟩ := List.mem_map.mp hitem
    obtain ⟨p, name', hp, rfl⟩ := hitems item' hitem'
    exact ⟨p, hp, rfl⟩
  · obtain rfl := List.mem_singleton.mp hemit
    obtain ⟨p, hp, heq⟩ := hpeer htruthy
    rw [heq]
    exact ⟨p, hp, rfl⟩

theorem goodKey_of_register {w : World H} (hspell : ∀ p pk, Spells H p pk → Good p)
    (hwired : w.Wired) (hstep : w.clients.AllInStep) {s : SocketId} {data : JsValue}
    {rest : List ClientEvent} (hguard : w.AnnouncesGood Good (.recv s))
    (hconn : s ∈ w.relay.connected) (hup : w.up s = .register data :: rest)
    (htruthy : (Server.claimedPeer data).truthy = true) :
    GoodKey Good (Server.claimedPeer data) := by
  cases howner : w.owner s with
  | none => exact hguard s data rest rfl hconn howner hup htruthy
  | some conn =>
      obtain rfl := hwired.registers s conn data howner (by simp [hup])
      obtain ⟨tab, htab, hpeer, hwants⟩ := hwired.owner_tab s conn howner
      simp only [Tab.wantsSocket, Bool.and_eq_true] at hwants
      obtain ⟨pk, hpk⟩ := (hstep _ tab htab).spells hwants.1.1
      exact ⟨conn.peerId, hpeer ▸ hspell _ pk hpk, rfl⟩

theorem GoodRelay.change {w w' : World H} {a : Action}
    (hspell : ∀ p pk, Spells H p pk → Good p) (h : w.GoodRelay Good)
    (hwired : w.Wired) (hstep : w.clients.AllInStep)
    (hguard : w.AnnouncesGood Good a) (hchange : Change w a w') :
    w'.GoodRelay Good := by
  refine ⟨?_, ?_⟩
  · refine forall_info_of_change hchange h.registered ?_
    rintro s data rest name rfl hconn hup htruthy -
    exact goodKey_of_register hspell hwired hstep hguard hconn hup htruthy
  · intro s event hevent
    rcases mem_down_of_change hchange hevent with hold | hnew
    · exact h.events s event hold
    · cases hnew with
      | register hconn hup hregister harrives =>
          have hpeer := goodKey_of_register hspell hwired hstep hguard hconn hup
          obtain ⟨emit, hemit, rfl⟩ := mem_arrivals harrives
          exact goodEvent_register hregister (Server.forall_info_register hregister
            h.registered fun _ htruthy _ => hpeer htruthy) hpeer emit hemit
      | message hup => trivial
      | drop s₀ data => trivial

theorem goodRelay_of_reach (hspell : ∀ p pk, Spells H p pk → Good p)
    {ok : World H → Action → Prop}
    (hok : ∀ w a, (system H).Reach ok w → ok w a → w.AnnouncesGood Good a)
    {w : World H} (hw : (system H).Reach ok w) : w.GoodRelay Good :=
  hw.invariant goodRelay_initial fun _ _ _ hreach h hguard hnext =>
    h.change hspell (wired_of_reach hreach)
      (Clients.allInStep_of_reach (reach_clients_any hreach))
      (hok _ _ hreach hguard) (change_of_step hnext)

theorem peersGood_of_reach (hspell : ∀ p pk, Spells H p pk → Good p)
    (hne : ∀ p, Good p → p ≠ []) {ok : World H → Action → Prop}
    (hok : ∀ w a, (system H).Reach ok w → ok w a → w.AnnouncesGood Good a)
    {w : World H} (hw : (system H).Reach ok w) : w.clients.PeersGood Good := by
  have hclients : (Clients.system H).Reach (fun _ a => ∀ t event,
      a = .receive t event → GoodEvent Good event) w.clients := by
    refine reach_clients ?_ hw
    rintro w a b hreach hguard hb t event rfl
    obtain ⟨s, -, hevent⟩ := receive_of_clientAction hb
    exact (goodRelay_of_reach hspell hok hreach).events s event hevent
  exact Clients.peersGood_of_reach hspell hne
    (fun _ t event hguard => hguard t event rfl) hclients

/-! ## Where a direct message goes -/

/-- Other clients may register under any string that is not empty. -/
def stringRegisters (w : World H) : Action → Bool
  | .recv s =>
      match w.owner s, w.up s with
      | none, .register data :: _ =>
          match Server.claimedPeer data with
          | .str _ => true
          | other => !other.truthy
      | _, _ => true
  | _ => true

theorem announcesGood_of_stringRegisters {w : World H} {a : Action}
    (h : w.stringRegisters a = true) : w.AnnouncesGood (fun p => p ≠ []) a := by
  rintro s data rest rfl - howner hup htruthy
  simp only [stringRegisters, howner, hup] at h
  split at h
  · rename_i p hp
    rw [hp, JsValue.truthy_str] at htruthy
    exact ⟨p, htruthy, hp⟩
  · rw [htruthy] at h
    cases h

theorem queued_of_recv {w w' : World H} {s : SocketId} {payload : JsValue}
    {rest : List ClientEvent} (hup : w.up s = .message payload :: rest)
    (hstep : w.step (.recv s) = some w') (s' : SocketId) :
    w'.queued s' = w.queued s' ++ arrivals w.relay (w.relay.message payload) s' := by
  simp only [step, recv, hup] at hstep
  split at hstep
  · cases hstep
    rfl
  · cases hstep

/--
A message composed in the direct view of a peer is private and addressed to that
peer.  Unless the peer id is the sentinel, the relay queues it to sockets
registered under that peer id only, in every run in which registered sockets keep
their peer.
-/
theorem direct_stays_direct {w : World H}
    (hw : (system H).Reach
      (fun w a => w.stringRegisters a = true ∧ w.keepsPeer a = true) w)
    {sent : Composed} (hsent : sent ∈ w.clients.composed) {peer : JsValue}
    (hdirect : sent.directPeer = some peer) :
    ∃ p, peer = .str p ∧ sent.message.type = .str privateType ∧
      sent.message.recipient = .str p ∧
      (p ≠ broadcastId → ∀ s rest w', w.up s = messageEvent sent.message :: rest →
        w.step (.recv s) = some w' → ∀ s', w'.queued s' ≠ w.queued s' →
          w.relay.RegisteredAs s' (.str p)) := by
  have hgood : w.clients.PeersGood (fun p => p ≠ []) :=
    peersGood_of_reach (fun _ _ h => (keySized_of_spells h).ne_nil) (fun _ hp => hp)
      (fun _ _ _ hok => announcesGood_of_stringRegisters hok.1) hw
  have hconsistent : w.relay.Consistent :=
    hw.invariant (I := fun w => w.relay.Consistent) Server.consistent_empty
      fun _ _ _ _ h hok hnext => consistent_change h hok.2 (change_of_step hnext)
  have hsend := hgood.sends sent hsent
  rw [GoodSend, hdirect] at hsend
  obtain ⟨p, -, hpeer, htype, hrecipient⟩ := hsend
  refine ⟨p, hpeer, htype, hrecipient, ?_⟩
  intro hne s rest w' hup hstep s' hqueued
  have haddressee : relayAddressee sent.message.toJs.throughJson = .str p := by
    rw [relayAddressee, JsValue.field_throughJson]
    change (sent.message.recipient.throughJson).coalesce _ = _
    rw [hrecipient]
    rfl
  by_contra hnot
  refine hqueued ?_
  rw [queued_of_recv hup hstep s',
    (arrivals_private hconsistent rfl haddressee hne s').2 hnot, List.append_nil]

/-- Two tabs connect and register. -/
def twoTabs : List Action :=
  [.page (.load 0), .page (.handleInitialize 0 (js "P") (plainKey 1)),
    .page (.load 1), .page (.handleInitialize 1 (js "C") (plainKey 2)),
    .connect 0, .connect 1, .recv 0, .recv 1]

theorem up_of_send {w w' : World H} {t : TabId} {s : SocketId}
    {input : JsString} {now : Nat} {random : JsString}
    (hstep : w.step (.send t input now random) = some w')
    (hcurrent : w.current t = some s) (hup : w.up s = []) :
    ∃ tab sent, w.clients.tabs t = some tab ∧ sent ∈ w'.clients.composed ∧
      sent.directPeer = (if tab.activeView = .direct
        then some tab.activeDirectPeerId else none) ∧
      w'.up s = [messageEvent sent.message] := by
  cases change_of_step hstep with
  | @send _ _ _ _ clients msg hsend =>
      obtain ⟨tab, identity, htab, -, -, rfl⟩ := Clients.signAndSend_cases hsend
      refine ⟨tab, .ofTab t tab identity input msg, htab, ?_, rfl, ?_⟩
      · simp only [transmit, hcurrent]
        exact List.mem_append_right _ (List.mem_singleton_self _)
      · simp [transmit, hcurrent, hup, Composed.ofTab]

theorem direct_stays_direct_twoTabs :
    ∃ w w' : World plainHost, (system plainHost).Reach
        (fun w a => w.stringRegisters a = true ∧ w.keepsPeer a = true) w ∧
      ∃ sent ∈ w.clients.composed, sent.directPeer = some (.str (plainPeer 2)) ∧
        sent.message.type = .str privateType ∧
        sent.message.recipient = .str (plainPeer 2) ∧
        w.up 0 = [messageEvent sent.message] ∧ w.step (.recv 0) = some w' ∧
        w'.queued 1 ≠ w.queued 1 ∧
        ∀ s, w'.queued s ≠ w.queued s → w.relay.RegisteredAs s (.str (plainPeer 2)) := by
  obtain ⟨w, hw, hcheck⟩ := System.exists_reach_of_exec (system plainHost)
    (fun w a => w.stringRegisters a = true ∧ w.keepsPeer a = true)
    (fun w a => w.stringRegisters a && w.keepsPeer a)
    (twoTabs ++ [.deliver 0, .deliver 0, .page (.openDirectWith 0 0)])
    (fun w => w.current 0 = some 0 && (w.up 0).isEmpty &&
      ((w.clients.tabs 0).any fun tab => tab.activeView = .direct &&
        tab.activeDirectPeerId.strictEq (.str (plainPeer 2))) &&
      (w.step (.send 0 (js "hi") 7 (js "x"))).any fun w₁ =>
        (w₁.step (.recv 0)).any fun w₂ =>
          (w₂.queued 1).length ≠ (w₁.queued 1).length)
    (fun _ _ h => by simpa using h) (by decide +kernel)
  simp only [Bool.and_eq_true, decide_eq_true_eq, List.isEmpty_iff,
    Option.any_eq_true, JsValue.strictEq_str_iff] at hcheck
  obtain ⟨⟨⟨hcurrent, hup⟩, tab, htab, hview, hpeer⟩, w₁, hsend, w₂, hrecv, hqueued⟩ :=
    hcheck
  obtain ⟨tab', sent, htab', hsent, hdirect, hup₁⟩ := up_of_send hsend hcurrent hup
  obtain rfl : tab = tab' := Option.some.inj (htab.symm.trans htab')
  rw [if_pos hview, hpeer] at hdirect
  have hw₁ : (system plainHost).Reach
      (fun w a => w.stringRegisters a = true ∧ w.keepsPeer a = true) w₁ :=
    .step (a := .send 0 (js "hi") 7 (js "x")) hw ⟨rfl, rfl⟩ hsend
  obtain ⟨p, hp, htype, hrecipient, hroutes⟩ := direct_stays_direct hw₁ hsent hdirect
  obtain rfl : plainPeer 2 = p := JsValue.str.inj hp
  exact ⟨w₁, w₂, hw₁, sent, hsent, hdirect, htype, hrecipient, hup₁, hrecv,
    fun heq => hqueued (by rw [heq]), hroutes (by decide) 0 [] w₂ hup₁ hrecv⟩

/--
A peer that registers as `Broadcast`: what tab 0 sends in its direct view is
queued to the socket of tab 1 too.
-/
theorem direct_to_sentinel_is_public :
    ¬ ∀ (H : Host) (w : World H),
      (system H).Reach (fun w a => w.stringRegisters a = true) w →
      ∀ sent ∈ w.clients.composed, ∀ p, sent.directPeer = some (.str p) →
        sent.message.type = .str privateType ∧
        sent.message.recipient = .str p ∧
        ∀ s rest w', w.up s = messageEvent sent.message :: rest →
          w.step (.recv s) = some w' → ∀ s', w'.queued s' ≠ w.queued s' →
            w.relay.RegisteredAs s' (.str p) := by
  intro hall
  obtain ⟨w, hw, hcheck⟩ := System.exists_reach_of_exec (system plainHost)
    (fun w a => w.stringRegisters a = true) stringRegisters
    (twoTabs ++ [.join,
      .emit 2 (.register (Server.registration broadcastId (js "B"))), .recv 2,
      .deliver 0, .deliver 0, .deliver 0, .page (.openDirectWith 0 1)])
    (fun w => w.current 0 = some 0 && (w.up 0).isEmpty &&
      ((w.clients.tabs 0).any fun tab => tab.activeView = .direct &&
        tab.activeDirectPeerId.strictEq (.str broadcastId)) &&
      (w.step (.send 0 (js "hi") 7 (js "x"))).any fun w₁ =>
        ((w₁.relay.socketToPeer.get 1).all fun info =>
          info.key ≠ .str broadcastId) &&
        (w₁.step (.recv 0)).any fun w₂ =>
          (w₂.queued 1).length ≠ (w₁.queued 1).length)
    (fun _ _ h => h) (by decide +kernel)
  simp only [Bool.and_eq_true, decide_eq_true_eq, List.isEmpty_iff,
    Option.any_eq_true, JsValue.strictEq_str_iff] at hcheck
  obtain ⟨⟨⟨hcurrent, hup⟩, tab, htab, hview, hpeer⟩, w₁, hsend, hother, w₂, hrecv,
    hqueued⟩ := hcheck
  obtain ⟨tab', sent, htab', hsent, hdirect, hup₁⟩ := up_of_send hsend hcurrent hup
  obtain rfl : tab = tab' := Option.some.inj (htab.symm.trans htab')
  rw [if_pos hview, hpeer] at hdirect
  have hw₁ : (system plainHost).Reach (fun w a => w.stringRegisters a = true) w₁ :=
    .step (a := .send 0 (js "hi") 7 (js "x")) hw rfl hsend
  obtain ⟨-, -, honly⟩ := hall plainHost w₁ hw₁ sent hsent broadcastId hdirect
  obtain ⟨info, hinfo, hkey⟩ := honly 0 [] w₂ hup₁ hrecv 1
    (fun heq => hqueued (by rw [heq]))
  simp [hinfo, hkey] at hother

end CommonChat.Network.World
