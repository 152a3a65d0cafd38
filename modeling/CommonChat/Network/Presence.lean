import CommonChat.Network.Routing
import CommonChat.Network.Wiring

/-!
# Presence

The list of online peers of a tab is a replica of the relay's registrations,
kept by a snapshot and increments.  What is compared with the relay is the
settled tab: the tab as it will be once it has handled everything that is queued
to its connection.
-/

namespace CommonChat.Network.World

open CommonChat.Foundation
open CommonChat.Core
open CommonChat.Relay
open CommonChat.Frontend

variable {H : Host}

def settle (tab : Tab H) (events : List RelayEvent) : Tab H :=
  events.foldl Tab.onRelayEvent tab

theorem settle_append (tab : Tab H) (events more : List RelayEvent) :
    settle tab (events ++ more) = settle (settle tab events) more :=
  List.foldl_append

structure SamePresence (tab tab' : Tab H) : Prop where
  peerId_eq : tab'.peerId = tab.peerId
  onlinePeers_eq : tab'.onlinePeers = tab.onlinePeers

theorem SamePresence.onRelayEvent {tab tab' : Tab H} (h : SamePresence tab tab')
    (event : RelayEvent) :
    SamePresence (tab.onRelayEvent event) (tab'.onRelayEvent event) := by
  refine ⟨?_, ?_⟩
  · rw [(Clients.onRelayEvent_identity tab event).2.1,
      (Clients.onRelayEvent_identity tab' event).2.1, h.peerId_eq]
  · cases event with
    | onlineList list => rfl
    | userOnline user =>
        simp only [Tab.onRelayEvent, Tab.onUserOnline, h.peerId_eq,
          h.onlinePeers_eq]
        split
        · exact h.onlinePeers_eq
        · split
          · exact h.onlinePeers_eq
          · rfl
    | userOffline data =>
        simp only [Tab.onRelayEvent, Tab.onUserOffline, h.peerId_eq,
          h.onlinePeers_eq]
        split
        · exact h.onlinePeers_eq
        · split
          · exact h.onlinePeers_eq
          · rfl
    | message payload =>
        simp only [Tab.onRelayEvent, Tab.onMessage]
        split <;> split <;> exact h.onlinePeers_eq

theorem SamePresence.settle {tab tab' : Tab H} (h : SamePresence tab tab')
    (events : List RelayEvent) :
    SamePresence (settle tab events) (settle tab' events) := by
  induction events generalizing tab tab' with
  | nil => exact h
  | cons event rest ih => exact ih (h.onRelayEvent event)

theorem settle_peerId (tab : Tab H) (events : List RelayEvent) :
    (settle tab events).peerId = tab.peerId := by
  induction events generalizing tab with
  | nil => rfl
  | cons event rest ih =>
      exact (ih (tab.onRelayEvent event)).trans
        (Clients.onRelayEvent_identity tab event).2.1

theorem samePresence_onMessage (tab : Tab H) (payload : JsValue) :
    SamePresence tab (tab.onRelayEvent (.message payload)) := by
  refine ⟨(Clients.onRelayEvent_identity tab _).2.1, ?_⟩
  simp only [Tab.onRelayEvent, Tab.onMessage]
  split <;> rfl

/-! ## What the relay queues -/

def StringPeers (r : Server) : Prop :=
  ∀ s info, r.socketToPeer.get s = some info → ∃ p, info.peerId = .str p

theorem Enrolled.stringPeers {w : World H} (h : w.Enrolled) :
    StringPeers w.relay := by
  intro s info hinfo
  obtain ⟨conn, -, hpeer⟩ := h.registered s info hinfo
  exact ⟨conn.peerId, hpeer⟩

theorem samePresence_settle_messages {payload : JsValue} {events : List RelayEvent}
    (settled : Tab H) (hmessages : ∀ event ∈ events, event = .message payload) :
    SamePresence settled (settle settled events) := by
  induction events generalizing settled with
  | nil => exact ⟨rfl, rfl⟩
  | cons event rest ih =>
      obtain rfl := hmessages event List.mem_cons_self
      have hfirst := samePresence_onMessage settled payload
      have hrest := ih (settled.onRelayEvent (.message payload))
        (fun e he => hmessages e (List.mem_cons_of_mem _ he))
      exact ⟨hrest.peerId_eq.trans hfirst.peerId_eq,
        hrest.onlinePeers_eq.trans hfirst.onlinePeers_eq⟩

/-! ## The rule for replicas -/

def Follows (R : Server → Tab H → Prop) (w : World H) : Prop :=
  ∀ t tab s peer, w.clients.tabs t = some tab → w.current t = some s →
    w.relay.RegisteredAs s peer → R w.relay (settle tab (w.down s))

/-- What a relation between relay and replica has to survive. -/
structure Replicates (G : Server → SocketId → Prop)
    (R : Server → Tab H → Prop) : Prop where
  congr : ∀ (r r' : Server) (tab tab' : Tab H),
    (∀ s peer, r'.RegisteredAs s peer ↔ r.RegisteredAs s peer) →
    SamePresence tab tab' → R r tab → R r' tab'
  snapshot : ∀ (r : Server) list (tab : Tab H), StringPeers r →
    r.getOnlineList (.str tab.peerId) = .ok list →
    R r (tab.onOnlineList (JsValue.arr list).throughJson)
  online : ∀ (r : Server) s p address name (tab : Tab H), p ≠ [] →
    (∀ peer, r.RegisteredAs s peer → peer = .str p) → R r tab →
    R (r.enroll s ⟨.str p, address, name⟩)
      (tab.onUserOnline (Server.peerObject (.str p) name).throughJson)
  offline : ∀ (r : Server) s s' p (tab : Tab H), G r s →
    r.RegisteredAs s (.str p) → s' ≠ s →
    r.RegisteredAs s' (.str tab.peerId) → R r tab →
    R (r.disconnect s).1
      (tab.onUserOffline (JsValue.obj [(js "peerId", .str p)]).throughJson)

def StringNames (r : Server) : Prop :=
  ∀ s info, r.socketToPeer.get s = some info →
    ∃ n, n ≠ [] ∧ info.displayName = .str n

theorem listedName_of_string {info : PeerInfo} {n : JsString} (hn : n ≠ [])
    (h : info.displayName = .str n) : Server.listedName info = .ok (.str n) := by
  rw [Server.listedName, h, if_pos ((JsValue.truthy_str n).mpr hn)]

structure Tracks (G : Server → SocketId → Prop)
    (R : Server → Tab H → Prop) : Prop where
  congr : ∀ (r r' : Server) (tab tab' : Tab H),
    (∀ s, r'.socketToPeer.get s = r.socketToPeer.get s) →
    SamePresence tab tab' → R r tab → R r' tab'
  snapshot : ∀ (r : Server) list (tab : Tab H), StringPeers r → StringNames r →
    r.getOnlineList (.str tab.peerId) = .ok list →
    R r (tab.onOnlineList (JsValue.arr list).throughJson)
  online : ∀ (r : Server) s p address n (tab : Tab H), p ≠ [] → n ≠ [] →
    (∀ peer, r.RegisteredAs s peer → peer = .str p) → R r tab →
    R (r.enroll s ⟨.str p, address, .str n⟩)
      (tab.onUserOnline (Server.peerObject (.str p) (.str n)).throughJson)
  offline : ∀ (r : Server) s s' p (tab : Tab H), G r s →
    r.RegisteredAs s (.str p) → s' ≠ s →
    r.RegisteredAs s' (.str tab.peerId) → R r tab →
    R (r.disconnect s).1
      (tab.onUserOffline (JsValue.obj [(js "peerId", .str p)]).throughJson)

theorem Replicates.tracks {G : Server → SocketId → Prop}
    {R : Server → Tab H → Prop} (h : Replicates G R) : Tracks G R where
  congr r r' tab tab' hget := by
    refine h.congr r r' tab tab' ?_
    intro s peer
    simp only [Server.RegisteredAs, hget]
  snapshot r list tab hstrings _ := h.snapshot r list tab hstrings
  online r s p address n tab hne _ := h.online r s p address (.str n) tab hne
  offline := h.offline

section Rule

variable {G : Server → SocketId → Prop} {R : Server → Tab H → Prop}
variable {w w' : World H} {a : Action}

theorem Follows.of_clients (hR : Tracks G R) (h : w.Follows R)
    (hwired : w.Wired) (hstep : w.clients.AllInStep)
    (hfresh : w.clients.FreshTab) {b : ClientAction} {clients : Clients H}
    (hclients : w.clients.step b = some clients)
    (hreceive : ∀ t event, b ≠ .receive t event) {t : TabId} {tab' : Tab H}
    {s : SocketId} {peer : JsKey} (htab' : clients.tabs t = some tab')
    (hs : w.current t = some s) (hreg : w.relay.RegisteredAs s peer) :
    R w.relay (World.settle tab' (w.down s)) := by
  obtain ⟨conn, tab, hconn, -, htab, -, hwants⟩ := hwired.current_tab hs
  rcases Clients.tab_of_change hstep hfresh (Clients.change_of_step hclients)
    hreceive htab' with ⟨tab₁, htab₁, hsame, -⟩ | ⟨habsent, -⟩
  · refine hR.congr w.relay w.relay _ _ (fun _ => rfl) ?_ (h t tab₁ s peer htab₁ hs hreg)
    exact SamePresence.settle ⟨hsame.peerId_eq, hsame.onlinePeers_eq⟩ _
  · have hnot := habsent tab htab
    simp [Tab.wantsSocket, hnot] at hwants

theorem string_of_registeredName {p : JsString} {displayName name : JsValue}
    (hne : p ≠ []) (h : Server.registeredName (.str p) displayName = .ok name) :
    ∃ text, text ≠ [] ∧ name = .str text := by
  unfold Server.registeredName at h
  obtain ⟨trimmed, htrim, h⟩ := except_bind_eq_ok.mp h
  obtain ⟨text, -, rfl⟩ := JsValue.trimCall_eq_ok htrim
  split at h
  · rename_i htruthy
    cases h
    exact ⟨trim text, (JsValue.truthy_str _).mp htruthy, rfl⟩
  · cases h
    exact ⟨p.take 12, by simpa using hne, rfl⟩

theorem Follows.register (hR : Tracks G R) (h : w.Follows R)
    (hwired : w.Wired) (henrolled : w.Enrolled) (henrolled' : w'.Enrolled)
    (hnames' : StringNames w'.relay)
    {s₀ : SocketId} {data : JsValue} {rest : List ClientEvent} {relay : Server}
    {emits : List Emit} (hconn₀ : s₀ ∈ w.relay.connected)
    (hup : w.up s₀ = .register data :: rest)
    (hregister : w.relay.register s₀ data = .ok (relay, emits))
    (hw' : w' = ({ w with
      relay := relay
      up := Function.update w.up s₀ rest } : World H).dispatch emits) :
    w'.Follows R := by
  obtain ⟨conn₀, howner₀⟩ := henrolled.connected_owned s₀ hconn₀
  obtain rfl := hwired.registers s₀ conn₀ data howner₀ (by simp [hup])
  have hkeep : ∀ peer, w.relay.RegisteredAs s₀ peer → peer = .str conn₀.peerId :=
    fun peer hreg => henrolled.peer_eq howner₀ hreg
  obtain ⟨tab₀, -, hpeer₀, hwants₀⟩ := hwired.owner_tab s₀ conn₀ howner₀
  have hne : conn₀.peerId ≠ [] := by
    rw [← hpeer₀]
    simp only [Tab.wantsSocket, Bool.and_eq_true, decide_eq_true_eq] at hwants₀
    exact hwants₀.1.2
  subst hw'
  intro t tab s peer htab hs hreg
  simp only [World.dispatch] at hreg ⊢
  have hconn : s ∈ relay.connected :=
    henrolled'.consistent.registered_connected s peer hreg
  rcases Server.register_cases hregister with
    ⟨hfalsy, -, -⟩ | ⟨name, list, -, hname, rfl, hlist, rfl⟩
  · simp [JsValue.truthy, hne] at hfalsy
  obtain ⟨n, hn, rfl⟩ := string_of_registeredName hne hname
  rw [settle_append]
  by_cases hss : s = s₀
  · subst hss
    obtain ⟨conn, tab', hconn', -, htab', hpeer, -⟩ := hwired.current_tab hs
    obtain rfl : tab = tab' := Option.some.inj (htab.symm.trans htab')
    obtain rfl : conn₀ = conn := Option.some.inj (howner₀.symm.trans hconn')
    have harrive : arrivals (w.relay.enroll s
        ⟨.str conn₀.peerId, w.relay.allocated, .str n⟩)
        [.toSocket s (.onlineList (.arr list)),
          .broadcast s (.userOnline (Server.peerObject
            (Server.claimedPeer conn₀.registration) (.str n)))] s =
        [.onlineList (JsValue.arr list).throughJson] := by
      simp only [claimedPeer_registration] at hconn
      simp [arrivals, arrival, hconn, RelayEvent.throughJson]
    simp only [claimedPeer_registration] at harrive hlist henrolled' hnames' ⊢
    rw [harrive]
    refine hR.snapshot _ list _ henrolled'.stringPeers hnames' ?_
    rw [settle_peerId, hpeer]
    exact hlist
  · have hold : w.relay.RegisteredAs s peer := by
      rw [Server.registeredAs_enroll_iff, if_neg hss] at hreg
      exact hreg
    have harrive : arrivals (w.relay.enroll s₀
        ⟨.str conn₀.peerId, w.relay.allocated, .str n⟩)
        [.toSocket s₀ (.onlineList (.arr list)),
          .broadcast s₀ (.userOnline (Server.peerObject
            (Server.claimedPeer conn₀.registration) (.str n)))] s =
        [.userOnline
          (Server.peerObject (.str conn₀.peerId) (.str n)).throughJson] := by
      simp only [claimedPeer_registration] at hconn
      simp [arrivals, arrival, hconn, RelayEvent.throughJson, Ne.symm hss]
    simp only [claimedPeer_registration] at harrive ⊢
    rw [harrive]
    exact hR.online _ s₀ _ _ n _ hne hn hkeep (h t tab s peer htab hs hold)

theorem Follows.drop (hR : Tracks G R) (h : w.Follows R)
    (hwired : w.Wired) (henrolled : w.Enrolled) {s₀ : SocketId}
    (hguard : G w.relay s₀) :
    (({ w with relay := (w.relay.disconnect s₀).1 } : World H).dispatch
      (w.relay.disconnect s₀).2).Follows R := by
  intro t tab s peer htab hs hreg
  simp only [World.dispatch] at hreg ⊢
  rw [Server.registeredAs_disconnect_iff] at hreg
  obtain ⟨hss, hold⟩ := hreg
  have hconn : s ∈ (w.relay.disconnect s₀).1.connected := by
    rw [Server.connected_disconnect, InsertionSet.mem_delete]
    exact ⟨hss, henrolled.consistent.registered_connected s peer hold⟩
  have hprev := h t tab s peer htab hs hold
  rw [settle_append]
  cases hget : w.relay.socketToPeer.get s₀ with
  | none =>
      have hemits : (w.relay.disconnect s₀).2 = [] := by
        simp [Server.disconnect, hget]
      rw [hemits, show arrivals (w.relay.disconnect s₀).1 [] s = [] by
        simp [arrivals]]
      refine hR.congr w.relay _ _ _ ?_ ⟨rfl, rfl⟩ hprev
      intro s'
      rw [Server.socketToPeer_disconnect, InsertionMap.get_delete]
      split
      · rename_i heq
        rw [heq, hget]
      · rfl
  | some info =>
      obtain ⟨conn₀, howner₀, hpeer₀⟩ := henrolled.registered s₀ info hget
      have hemits : (w.relay.disconnect s₀).2 = [.broadcast s₀
          (.userOffline (.obj [(js "peerId", .str conn₀.peerId)]))] := by
        simp [Server.disconnect, hget, hpeer₀]
      have harrive : arrivals (w.relay.disconnect s₀).1
          (w.relay.disconnect s₀).2 s =
          [.userOffline (JsValue.obj
            [(js "peerId", .str conn₀.peerId)]).throughJson] := by
        rw [hemits]
        simp [arrivals, arrival, hconn, RelayEvent.throughJson, Ne.symm hss]
      have hreg₀ : w.relay.RegisteredAs s₀ (.str conn₀.peerId) :=
        ⟨info, hget, by rw [PeerInfo.key, hpeer₀]; rfl⟩
      obtain ⟨conn, tab', hconn', -, htab', hpeer, -⟩ := hwired.current_tab hs
      obtain rfl : tab = tab' := Option.some.inj (htab.symm.trans htab')
      have hself : w.relay.RegisteredAs s
          (.str (settle tab (w.down s)).peerId) := by
        rw [settle_peerId, hpeer, ← henrolled.peer_eq hconn' hold]
        exact hold
      rw [harrive]
      exact hR.offline _ s₀ s _ _ hguard hreg₀ hss hself hprev

end Rule

theorem Follows.change {G : Server → SocketId → Prop}
    {R : Server → Tab H → Prop} {w w' : World H} {a : Action}
    (hR : Tracks G R) (h : w.Follows R) (hwired : w.Wired)
    (henrolled : w.Enrolled) (henrolled' : w'.Enrolled)
    (hnames' : StringNames w'.relay)
    (hstep : w.clients.AllInStep) (hfresh : w.clients.FreshTab)
    (hguard : ∀ s, a = .drop s → G w.relay s) (hship : shipped a = true)
    (hchange : Change w a w') : w'.Follows R := by
  cases hchange with
  | page hpage hclients =>
      intro t tab s peer htab hs hreg
      refine Follows.of_clients hR h hwired hstep hfresh hclients ?_ htab hs hreg
      rintro u event rfl
      cases hpage
  | @send u input now random clients msg hsend =>
      obtain ⟨up, sentOn, sendBuffer, heq, -⟩ :=
        transmit_frame { w with clients := clients } u msg
      rw [heq]
      intro t tab s peer htab hs hreg
      exact Follows.of_clients hR h hwired hstep hfresh
        (b := .signAndSend u input now random)
        (by simp only [Clients.step, hsend, Option.map_some]) (by simp) htab hs hreg
  | @keepName u name clients hclients =>
      intro t tab s peer htab hs hreg
      exact Follows.of_clients hR h hwired hstep hfresh
        (b := .saveDisplayName u name) hclients (by simp) htab hs hreg
  | @newName u name clients hclients =>
      intro t tab s peer htab hs hreg
      simp only [close, Function.update_apply] at hs
      split at hs
      · cases hs
      exact Follows.of_clients hR h hwired hstep hfresh
        (b := .saveDisplayName u name) hclients (by simp) htab hs hreg
  | @connect u tab₀ htab₀ hwants hcurrent =>
      intro t tab s peer htab hs hreg
      have hconn := henrolled.consistent.registered_connected s peer hreg
      have hne : s ≠ w.nextSocket := Nat.ne_of_lt (hwired.connected_lt s hconn)
      simp only [openConnection, Function.update_apply] at hs ⊢
      split at hs
      · exact absurd (Option.some.inj hs).symm hne
      · exact hR.congr w.relay _ _ _ (fun _ => rfl) ⟨rfl, rfl⟩
          (h t tab s peer htab hs hreg)
  | leave u =>
      intro t tab s peer htab hs hreg
      simp only [Function.update_apply] at hs
      split at hs
      · cases hs
      · exact h t tab s peer htab hs hreg
  | register hconn hup hregister =>
      exact Follows.register hR h hwired henrolled henrolled' hnames' hconn hup
        hregister rfl
  | @message s₀ payload rest hconn hup =>
      intro t tab s peer htab hs hreg
      refine hR.congr w.relay w.relay _ _ (fun _ => rfl) ?_
        (h t tab s peer htab hs hreg)
      simp only [World.dispatch, settle_append]
      exact samePresence_settle_messages _ (fun _ => arrivals_message)
  | @drop s₀ hconn => exact Follows.drop hR h hwired henrolled (hguard s₀ rfl)
  | @deliver u s₀ event rest tab₀ hcurrent hdown htab₀ hwants =>
      intro t tab s peer htab hs hreg
      rcases Clients.setTab_cases htab with ⟨rfl, rfl⟩ | ⟨hut, htab⟩
      · obtain rfl : s₀ = s := Option.some.inj (hcurrent.symm.trans hs)
        have hprev := h t tab₀ s₀ peer htab₀ hs hreg
        simp only [hdown] at hprev
        simp only [Function.update_self]
        exact hprev
      · have hne : s ≠ s₀ := by
          rintro rfl
          exact hut (hwired.current_inj hs hcurrent)
        simp only [Function.update_of_ne hne]
        exact h t tab s peer htab hs hreg
  | join => cases hship
  | emit howner hconn => cases hship

theorem StringNames.change {w w' : World H} {a : Action}
    (h : StringNames w.relay) (hwired : w.Wired) (henrolled : w.Enrolled)
    (hchange : Change w a w') : StringNames w'.relay := by
  refine forall_info_of_change hchange h ?_
  rintro s data rest name rfl hconn hup htruthy hname
  obtain ⟨conn, howner⟩ := henrolled.connected_owned s hconn
  obtain rfl := hwired.registers s conn data howner (by simp [hup])
  exact string_of_registeredName ((JsValue.truthy_str _).mp htruthy) hname

theorem stringNames_of_reach {ok : World H → Action → Prop}
    (hship : ∀ w a, ok w a → shipped a = true) {w : World H}
    (hw : (system H).Reach ok w) : StringNames w.relay :=
  hw.invariant (I := fun w => StringNames w.relay) (fun _ _ hinfo => by cases hinfo)
    fun _ _ _ hreach h _ hnext => h.change (wired_of_reach hreach)
      (enrolled_of_reach hship hreach) (change_of_step hnext)

theorem follows_of_tracks {G : Server → SocketId → Prop}
    {R : Server → Tab H → Prop} (hR : Tracks G R)
    {ok : World H → Action → Prop} (hship : ∀ w a, ok w a → shipped a = true)
    (hguard : ∀ w s, ok w (.drop s) → G w.relay s) {w : World H}
    (hw : (system H).Reach ok w) : w.Follows R := by
  refine hw.invariant (fun _ _ _ _ htab => by cases htab) ?_
  intro w a w' hreach h hok hnext
  have hclients := reach_clients_any hreach
  have hreach' : (system H).Reach ok w' := .step hreach hok hnext
  refine Follows.change hR h (wired_of_reach hreach) (enrolled_of_reach hship hreach)
    (enrolled_of_reach hship hreach') (stringNames_of_reach hship hreach')
    (Clients.allInStep_of_reach hclients) (freshTab_of_reach hreach) ?_
    (hship w a hok) (change_of_step hnext)
  rintro s rfl
  exact hguard w s hok

theorem follows_of_reach {G : Server → SocketId → Prop}
    {R : Server → Tab H → Prop} (hR : Replicates G R)
    {ok : World H → Action → Prop} (hship : ∀ w a, ok w a → shipped a = true)
    (hguard : ∀ w s, ok w (.drop s) → G w.relay s) {w : World H}
    (hw : (system H).Reach ok w) : w.Follows R :=
  follows_of_tracks hR.tracks hship hguard hw

/-! ## The snapshot -/

theorem onOnlineList_peers {r : Server} {list : List JsValue} {tab : Tab H}
    {exclude : JsKey} (hlist : r.getOnlineList exclude = .ok list) :
    (tab.onOnlineList (JsValue.arr list).throughJson).onlinePeers =
      list.map fun item => Peer.ofJs item.throughJson := by
  rw [Server.throughJson_onlineList hlist]
  simp only [Tab.onOnlineList, List.map_map]
  rfl

/-! ## The increments -/

theorem onUserOnline_peers (tab : Tab H) {p : JsString} (name : JsValue)
    (hne : p ≠ []) :
    ∃ shown, (∀ n, name = .str n → shown = .str n) ∧ (tab.onUserOnline
        (Server.peerObject (.str p) name).throughJson).onlinePeers =
      if p = tab.peerId then tab.onlinePeers
      else (tab.onlinePeers.filter fun q => !q.pubKey.strictEq (.str p)) ++
        [⟨.str p, shown, .str p⟩] := by
  have hpeer : ((Server.peerObject (.str p) name).throughJson.field
      (js "peerId")).coalesce (((Server.peerObject (.str p) name).throughJson.field
      (js "id")).coalesce ((Server.peerObject (.str p) name).throughJson.field
      (js "pubKey"))) = .str p := rfl
  have hnull : (Server.peerObject (.str p) name).throughJson.isNullish = false := rfl
  have htruthy : (JsValue.str p).truthy = true := (JsValue.truthy_str p).mpr hne
  refine ⟨name.throughJson.coalesce (truncate (.str p) 12), ?_, ?_⟩
  · rintro n rfl
    rfl
  · simp only [Tab.onUserOnline, hpeer, hnull, htruthy, Bool.false_eq_true, if_false,
      JsValue.str_strictEq_str, Bool.not_true, Bool.false_or, beq_iff_eq]
    split <;> rfl

theorem onUserOffline_peers (tab : Tab H) (p : JsString) :
    (tab.onUserOffline
      (JsValue.obj [(js "peerId", .str p)]).throughJson).onlinePeers =
      if p = tab.peerId then tab.onlinePeers
      else tab.onlinePeers.filter fun q => !q.pubKey.strictEq (.str p) := by
  have hpeer : (JsValue.obj [(js "peerId", .str p)]).throughJson.field
      (js "peerId") = .str p := rfl
  have hnull : (JsValue.obj [(js "peerId", .str p)]).throughJson.isNullish =
      false := rfl
  simp only [Tab.onUserOffline, hpeer, hnull, Bool.false_eq_true, if_false,
    JsValue.str_strictEq_str, beq_iff_eq]
  split <;> rfl

/-! ## No ghost peers -/

def Sound (r : Server) (tab : Tab H) : Prop :=
  ∀ q ∈ tab.onlinePeers, ∃ p, q.pubKey = .str p ∧
    ∃ s, r.RegisteredAs s (.str p)

theorem sound_replicates :
    Replicates (fun _ _ => True) (Sound (H := H)) where
  congr r r' tab tab' hreg hsame h := by
    intro q hq
    rw [hsame.onlinePeers_eq] at hq
    obtain ⟨p, hp, s, hs⟩ := h q hq
    exact ⟨p, hp, s, (hreg s _).mpr hs⟩
  snapshot r list tab hstrings hlist := by
    intro q hq
    rw [onOnlineList_peers hlist] at hq
    obtain ⟨item, hitem, rfl⟩ := List.mem_map.mp hq
    obtain ⟨s, info, name, hmem, -, -, rfl⟩ :=
      Server.mem_getOnlineListFrom hlist item hitem
    have hget := (InsertionMap.mem_entries_iff _ _ _).mp hmem
    obtain ⟨p, hp⟩ := hstrings s info hget
    refine ⟨p, ?_, s, info, hget, ?_⟩
    · rw [hp]
      rfl
    · rw [PeerInfo.key, hp]
      rfl
  online r s p address name tab hne hkeep h := by
    intro q hq
    obtain ⟨shown, -, hpeers⟩ := onUserOnline_peers tab name hne
    rw [hpeers] at hq
    have hnew : (r.enroll s ⟨.str p, address, name⟩).RegisteredAs s (.str p) := by
      rw [Server.registeredAs_enroll_iff, if_pos rfl]
      rfl
    have hold : q ∈ tab.onlinePeers → ∃ p', q.pubKey = .str p' ∧
        ∃ s', (r.enroll s ⟨.str p, address, name⟩).RegisteredAs s' (.str p') := by
      intro hq
      obtain ⟨p', hp', s', hs'⟩ := h q hq
      by_cases hss : s' = s
      · subst hss
        obtain rfl : p' = p := JsKey.str.inj (hkeep _ hs')
        exact ⟨p', hp', s', hnew⟩
      · exact ⟨p', hp', s', by rwa [Server.registeredAs_enroll_iff, if_neg hss]⟩
    split at hq
    · exact hold hq
    · rcases List.mem_append.mp hq with hq | hq
      · exact hold (List.mem_of_mem_filter hq)
      · rw [List.mem_singleton.mp hq]
        exact ⟨p, rfl, s, hnew⟩
  offline r s s' p tab _ hreg hss hself h := by
    intro q hq
    rw [onUserOffline_peers] at hq
    have hold : q ∈ tab.onlinePeers → q.pubKey ≠ .str p → ∃ p', q.pubKey = .str p' ∧
        ∃ s₁, (r.disconnect s).1.RegisteredAs s₁ (.str p') := by
      intro hq hne
      obtain ⟨p', hp', s₁, hs₁⟩ := h q hq
      refine ⟨p', hp', s₁, (Server.registeredAs_disconnect_iff r s s₁ _).mpr
        ⟨?_, hs₁⟩⟩
      rintro rfl
      rw [JsKey.str.inj (hs₁.unique hreg)] at hp'
      exact hne hp'
    split at hq
    · rename_i hme
      by_cases hqp : q.pubKey = .str p
      · exact ⟨p, hqp, s', (Server.registeredAs_disconnect_iff r s s' _).mpr
          ⟨hss, by rw [hme]; exact hself⟩⟩
      · exact hold hq hqp
    · simp only [List.mem_filter, Bool.not_eq_true',
        JsValue.strictEq_str_false_iff] at hq
      exact hold hq.1 hq.2

/--
No ghost peers.  Once nothing is in flight to a registered connection, every
peer that its tab shows has a registered socket.
-/
theorem no_ghost_peers {w : World H} (hw : (system H).Reach Shipped w)
    {t : TabId} {tab : Tab H} (htab : w.clients.tabs t = some tab)
    {s : SocketId} (hs : w.current t = some s) {peer : JsKey}
    (hreg : w.relay.RegisteredAs s peer) (hidle : w.down s = []) :
    ∀ q ∈ tab.onlinePeers, ∃ p, q.pubKey = .str p ∧ w.Online p := by
  have h := follows_of_reach sound_replicates (fun _ _ hok => hok)
    (fun _ _ _ => trivial) hw t tab s peer htab hs hreg
  rw [hidle] at h
  exact h

/-- Tabs 0 and 1 of one browser and tab 2 of another, connected and registered. -/
def threeTabs : List Action :=
  [.page (.load 0), .page (.handleInitialize 0 (js "P") (plainKey 1)),
    .page (.load 0), .page (.load 1),
    .page (.handleInitialize 2 (js "C") (plainKey 2)),
    .connect 0, .connect 1, .connect 2, .recv 0, .recv 1, .recv 2]

theorem no_ghost_peers_threeTabs :
    ∃ w : World plainHost, (system plainHost).Reach Shipped w ∧
      ∃ tab, w.clients.tabs 2 = some tab ∧ tab.onlinePeers ≠ [] ∧
        ∀ q ∈ tab.onlinePeers, ∃ p, q.pubKey = .str p ∧ w.Online p := by
  obtain ⟨w, hw, hcheck⟩ := System.exists_reach_of_exec
    (system plainHost) (Shipped) (fun _ a => shipped a)
    (threeTabs ++ [.deliver 2, .deliver 2, .deliver 2])
    (fun w => w.current 2 = some 2 && (w.down 2).isEmpty &&
      (w.relay.socketToPeer.get 2).isSome &&
      (w.clients.tabs 2).any fun tab => !tab.onlinePeers.isEmpty)
    (fun _ _ h => h) (by decide +kernel)
  simp only [Bool.and_eq_true, decide_eq_true_eq, List.isEmpty_iff,
    Option.isSome_iff_exists, Option.any_eq_true, Bool.not_eq_true',
    List.isEmpty_eq_false_iff] at hcheck
  obtain ⟨⟨⟨hs, hidle⟩, info, hinfo⟩, tab, htab, hne⟩ := hcheck
  exact ⟨w, hw, tab, htab, hne,
    no_ghost_peers hw htab hs ⟨info, hinfo, rfl⟩ hidle⟩

/-! ## No vanished peers -/

def Complete (r : Server) (tab : Tab H) : Prop :=
  ∀ p s, r.RegisteredAs s (.str p) → p ≠ tab.peerId →
    ∃ q ∈ tab.onlinePeers, q.pubKey = .str p

def lastSocket (r : Server) (s : SocketId) : Bool :=
  match r.socketToPeer.get s with
  | none => true
  | some info => r.socketToPeer.entries.all fun entry =>
      entry.1 = s || entry.2.key ≠ info.key

theorem eq_of_lastSocket {r : Server} {s s' : SocketId} {peer : JsKey}
    (h : lastSocket r s = true) (hs : r.RegisteredAs s peer)
    (hs' : r.RegisteredAs s' peer) : s' = s := by
  obtain ⟨info, hget, rfl⟩ := hs
  obtain ⟨info', hget', hkey⟩ := hs'
  simp only [lastSocket, hget, List.all_eq_true] at h
  have hentry := h (s', info') ((InsertionMap.mem_entries_iff _ _ _).mpr hget')
  simpa [hkey] using hentry

theorem complete_replicates :
    Replicates (fun r s => lastSocket r s = true) (Complete (H := H)) where
  congr r r' tab tab' hreg hsame h := by
    intro p s hs hne
    rw [hsame.peerId_eq] at hne
    rw [hsame.onlinePeers_eq]
    exact h p s ((hreg s _).mp hs) hne
  snapshot r list tab hstrings hlist := by
    rintro p s ⟨info, hget, hkey⟩ hne
    rw [onOnlineList_peers hlist]
    have hmem := (InsertionMap.mem_entries_iff _ _ _).mpr hget
    have hother : info.key ≠ .str tab.peerId := by
      rw [hkey]
      exact fun heq => hne (JsKey.str.inj heq)
    obtain ⟨s', info', name, hmem', hkey', hitem⟩ :=
      Server.exists_mem_getOnlineListFrom hlist hmem hother List.not_mem_nil
    obtain ⟨p', hp'⟩ := hstrings s' info' ((InsertionMap.mem_entries_iff _ _ _).mp hmem')
    refine ⟨_, List.mem_map.mpr ⟨_, hitem, rfl⟩, ?_⟩
    rw [hkey, PeerInfo.key, hp'] at hkey'
    obtain rfl : p' = p := JsKey.str.inj hkey'
    rw [hp']
    rfl
  online r s p address name tab hne hkeep h := by
    intro p' s' hs' hother
    obtain ⟨shown, -, hpeers⟩ := onUserOnline_peers tab name hne
    have hme : (tab.onUserOnline
        (Server.peerObject (.str p) name).throughJson).peerId = tab.peerId :=
      (Clients.onRelayEvent_identity tab (.userOnline _)).2.1
    rw [hme] at hother
    rw [hpeers]
    by_cases hpp : p' = p
    · subst hpp
      rw [if_neg hother]
      exact ⟨_, List.mem_append_right _ (List.mem_singleton_self _), rfl⟩
    · have hold : r.RegisteredAs s' (.str p') := by
        rw [Server.registeredAs_enroll_iff] at hs'
        split at hs'
        · exact absurd (JsKey.str.inj hs') hpp
        · exact hs'
      obtain ⟨q, hq, hqp⟩ := h p' s' hold hother
      split
      · exact ⟨q, hq, hqp⟩
      · refine ⟨q, List.mem_append_left _ (List.mem_filter.mpr ⟨hq, ?_⟩), hqp⟩
        rw [hqp]
        simpa using hpp
  offline r s s₁ p tab hlast hreg hss hself h := by
    intro p' s' hs' hother
    have hme : (tab.onUserOffline
        (JsValue.obj [(js "peerId", .str p)]).throughJson).peerId = tab.peerId :=
      (Clients.onRelayEvent_identity tab (.userOffline _)).2.1
    rw [hme] at hother
    rw [onUserOffline_peers]
    rw [Server.registeredAs_disconnect_iff] at hs'
    obtain ⟨q, hq, hqp⟩ := h p' s' hs'.2 hother
    have hpp : p' ≠ p := by
      rintro rfl
      exact hs'.1 (eq_of_lastSocket hlast hreg hs'.2)
    split
    · exact ⟨q, hq, hqp⟩
    · refine ⟨q, List.mem_filter.mpr ⟨hq, ?_⟩, hqp⟩
      rw [hqp]
      simpa using hpp

/-- Shipped clients, with no disconnect of a socket whose peer keeps another one. -/
def LastSocketLeaves (w : World H) (a : Action) : Prop :=
  shipped a = true ∧ ∀ s, a = .drop s → lastSocket w.relay s = true

/--
No vanished peers.  If the relay only ever sees the last socket of a peer
disconnect, then once nothing is in flight to a registered connection its tab
shows every other peer that has a registered socket.
-/
theorem no_vanished_peers {w : World H}
    (hw : (system H).Reach LastSocketLeaves w)
    {t : TabId} {tab : Tab H} (htab : w.clients.tabs t = some tab)
    {s : SocketId} (hs : w.current t = some s) {peer : JsKey}
    (hreg : w.relay.RegisteredAs s peer) (hidle : w.down s = []) :
    ∀ p, w.Online p → p ≠ tab.peerId → ∃ q ∈ tab.onlinePeers, q.pubKey = .str p := by
  have h := follows_of_reach complete_replicates (fun _ _ hok => hok.1)
    (fun _ s hok => hok.2 s rfl) hw t tab s peer htab hs hreg
  rw [hidle] at h
  rintro p ⟨s', hs'⟩ hne
  exact h p s' hs' hne

def dropsLast (w : World H) : Action → Bool
  | .drop s => lastSocket w.relay s
  | a => shipped a

theorem lastSocketLeaves_of_dropsLast {w : World H} {a : Action}
    (h : w.dropsLast a = true) : w.LastSocketLeaves a := by
  cases a with
  | drop s =>
      refine ⟨rfl, ?_⟩
      intro s' hs'
      cases hs'
      exact h
  | _ => exact ⟨h, nofun⟩

theorem no_vanished_peers_threeTabs :
    ∃ w : World plainHost, (system plainHost).Reach LastSocketLeaves w ∧
      ∃ tab, w.clients.tabs 2 = some tab ∧ w.Online (plainPeer 1) ∧
        ∃ q ∈ tab.onlinePeers, q.pubKey = .str (plainPeer 1) := by
  obtain ⟨w, hw, hcheck⟩ := System.exists_reach_of_exec
    (system plainHost) (LastSocketLeaves) (dropsLast)
    (threeTabs ++ [.leave 2, .drop 2, .connect 2, .recv 3, .deliver 2])
    (fun w => w.current 2 = some 3 && (w.down 3).isEmpty &&
      (w.relay.socketToPeer.get 3).isSome &&
      ((w.relay.socketToPeer.get 0).any fun info =>
        info.key = .str (plainPeer 1)) &&
      (w.clients.tabs 2).any fun tab => tab.peerId = plainPeer 2)
    (fun _ _ h => lastSocketLeaves_of_dropsLast h) (by decide +kernel)
  simp only [Bool.and_eq_true, decide_eq_true_eq, List.isEmpty_iff,
    Option.isSome_iff_exists, Option.any_eq_true] at hcheck
  obtain ⟨⟨⟨⟨hs, hidle⟩, info, hinfo⟩, hother⟩, tab, htab, hme⟩ := hcheck
  have honline : w.Online (plainPeer 1) := ⟨0, hother⟩
  have hne : plainPeer 1 ≠ tab.peerId := by
    rw [hme]
    decide +kernel
  exact ⟨w, hw, tab, htab, honline, no_vanished_peers hw htab hs
    ⟨info, hinfo, rfl⟩ hidle (plainPeer 1) honline hne⟩

theorem vanished_with_second_tab :
    ¬ ∀ (H : Host) (w : World H), (system H).Reach Shipped w →
      ∀ t tab s peer, w.clients.tabs t = some tab → w.current t = some s →
        w.relay.RegisteredAs s peer → w.down s = [] →
        ∀ p, w.Online p → p ≠ tab.peerId →
          ∃ q ∈ tab.onlinePeers, q.pubKey = .str p := by
  intro hall
  obtain ⟨w, hw, hcheck⟩ := System.exists_reach_of_exec
    (system plainHost) (Shipped) (fun _ a => shipped a)
    (threeTabs ++ [.leave 0, .drop 0,
      .deliver 2, .deliver 2, .deliver 2, .deliver 2])
    (fun w => w.current 2 = some 2 && (w.down 2).isEmpty &&
      (w.relay.socketToPeer.get 2).isSome &&
      ((w.relay.socketToPeer.get 1).any fun info =>
        info.key = .str (plainPeer 1)) &&
      (w.clients.tabs 2).any fun tab =>
        tab.peerId = plainPeer 2 && tab.onlinePeers.isEmpty)
    (fun _ _ h => h) (by decide +kernel)
  simp only [Bool.and_eq_true, decide_eq_true_eq, List.isEmpty_iff,
    Option.isSome_iff_exists, Option.any_eq_true] at hcheck
  obtain ⟨⟨⟨⟨hs, hidle⟩, info, hinfo⟩, hother⟩, tab, htab, hme, hempty⟩ := hcheck
  have hne : plainPeer 1 ≠ tab.peerId := by
    rw [hme]
    decide +kernel
  obtain ⟨q, hq, -⟩ := hall plainHost w hw 2 tab 2 _ htab hs ⟨info, hinfo, rfl⟩
    hidle (plainPeer 1) ⟨1, hother⟩ hne
  rw [hempty] at hq
  cases hq

end CommonChat.Network.World
