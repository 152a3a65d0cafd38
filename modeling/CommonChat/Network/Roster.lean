import Mathlib.Data.Set.Card
import CommonChat.Frontend.Views
import CommonChat.Network.Presence

/-!
# The roster

The online peers of a tab are a list, and the header counts its length.  A
snapshot is built over sockets and an increment reaches the other tabs of the
same user, so that no peer is listed twice, and the user not at all, is a matter
of the relay's scan, of what is still queued, and of the three handlers.
-/

namespace CommonChat.Network.World

open CommonChat.Foundation
open CommonChat.Core
open CommonChat.Relay
open CommonChat.Frontend

variable {H : Host}

/-! ## The handlers of a tab -/

structure ListedOnce (tab : Tab H) : Prop where
  distinct : (tab.onlinePeers.map Peer.pubKey).Nodup
  other : ∀ q ∈ tab.onlinePeers, q.pubKey ≠ .str tab.peerId

def ListsOnce (me : JsString) : RelayEvent → Prop
  | .onlineList list => ∃ items, list = .arr items ∧
      (items.map fun item => item.field (js "pubKey")).Nodup ∧
      ∀ item ∈ items, item.field (js "pubKey") ≠ .str me
  | .userOnline user => ∃ p, (user.field (js "peerId")).coalesce
      ((user.field (js "id")).coalesce (user.field (js "pubKey"))) = .str p
  | _ => True

theorem ListedOnce.of_same {tab tab' : Tab H} (h : ListedOnce tab)
    (hsame : SamePresence tab tab') : ListedOnce tab' := by
  refine ⟨?_, ?_⟩
  · rw [hsame.onlinePeers_eq]
    exact h.distinct
  · rw [hsame.onlinePeers_eq, hsame.peerId_eq]
    exact h.other

theorem listedOnce_of_nil {tab : Tab H} (h : tab.onlinePeers = []) :
    ListedOnce tab := by
  refine ⟨?_, ?_⟩
  · rw [h]
    exact List.nodup_nil
  · rw [h]
    nofun

theorem nodup_filter_peers {peers : List Peer} (h : (peers.map Peer.pubKey).Nodup)
    (keep : Peer → Bool) : ((peers.filter keep).map Peer.pubKey).Nodup :=
  h.sublist (List.filter_sublist.map _)

theorem ListedOnce.onOnlineList {tab : Tab H} {list : JsValue}
    (hevent : ListsOnce tab.peerId (.onlineList list)) :
    ListedOnce (tab.onOnlineList list) := by
  obtain ⟨items, rfl, hnodup, hother⟩ := hevent
  refine ⟨?_, ?_⟩
  · simp only [Tab.onOnlineList, List.map_map]
    exact hnodup
  · intro q hq
    obtain ⟨item, hitem, rfl⟩ := List.mem_map.mp hq
    exact hother item hitem

theorem ListedOnce.onUserOnline {tab : Tab H} (h : ListedOnce tab) {user : JsValue}
    (hevent : ListsOnce tab.peerId (.userOnline user)) :
    ListedOnce (tab.onUserOnline user) := by
  obtain ⟨p, hp⟩ := hevent
  simp only [Tab.onUserOnline, hp]
  split
  · exact h
  split
  · exact h
  rename_i hguard
  simp only [JsValue.str_strictEq_str, Bool.or_eq_true, beq_iff_eq, not_or] at hguard
  refine ⟨?_, ?_⟩
  · rw [List.map_append, List.nodup_append]
    refine ⟨nodup_filter_peers h.distinct _, List.nodup_singleton _, ?_⟩
    intro key hkey key' hkey'
    obtain ⟨q, hq, rfl⟩ := List.mem_map.mp hkey
    rw [List.mem_singleton.mp hkey']
    have hkept := (List.mem_filter.mp hq).2
    rw [Bool.not_eq_true', JsValue.strictEq_str_false_iff] at hkept
    exact hkept
  · intro q hq
    rcases List.mem_append.mp hq with hq | hq
    · exact h.other q (List.mem_of_mem_filter hq)
    · rw [List.mem_singleton.mp hq]
      exact fun heq => hguard.2 (JsValue.str.inj heq)

theorem ListedOnce.onUserOffline {tab : Tab H} (h : ListedOnce tab)
    (data : JsValue) : ListedOnce (tab.onUserOffline data) := by
  unfold Tab.onUserOffline
  split
  · exact h
  split
  · exact h
  · exact ⟨nodup_filter_peers h.distinct _,
      fun q hq => h.other q (List.mem_of_mem_filter hq)⟩

theorem ListedOnce.onRelayEvent {tab : Tab H} (h : ListedOnce tab)
    {event : RelayEvent} (hevent : ListsOnce tab.peerId event) :
    ListedOnce (tab.onRelayEvent event) := by
  cases event with
  | onlineList list => exact .onOnlineList hevent
  | userOnline user => exact h.onUserOnline hevent
  | userOffline data => exact h.onUserOffline data
  | message payload => exact h.of_same (samePresence_onMessage tab payload)

theorem listedOnce_of_change {c c' : Clients H} {a : ClientAction}
    (hfaces : ∀ t tab, c.tabs t = some tab → FacesOther tab)
    (h : ∀ t tab, c.tabs t = some tab → ListedOnce tab)
    (hguard : ∀ t tab event, a = .receive t event → c.tabs t = some tab →
      ListsOnce tab.peerId event)
    (hchange : Clients.Change c a c') :
    ∀ t tab, c'.tabs t = some tab → ListedOnce tab := by
  refine Clients.forall_tabs_of_change hchange h ?_ ?_ ?_ ?_ ?_ ?_ ?_
  · intro b storage
    apply listedOnce_of_nil
    rw [(loadEffect_view _ storage).2]
    exact (loadStored_view b storage).2
  · intro t tab storage name random htab hnew
    apply listedOnce_of_nil
    rw [(loadEffect_view _ storage).2]
    exact ((hfaces t tab htab).blank hnew).1
  · exact fun t tab _ htab _ => (h t tab htab).of_same ⟨rfl, rfl⟩
  · exact fun t tab _ htab => (h t tab htab).of_same ⟨rfl, rfl⟩
  · exact fun t tab _ htab _ => (h t tab htab).of_same ⟨rfl, rfl⟩
  · exact fun t tab _ _ _ _ htab _ => (h t tab htab).of_same ⟨rfl, rfl⟩
  · exact fun t tab event ha htab _ =>
      (h t tab htab).onRelayEvent (hguard t tab event ha htab)

/-! ## What is queued -/

theorem listsOnce_snapshot {r : Server} (hstrings : StringPeers r)
    {me : JsString} {list : List JsValue}
    (hlist : r.getOnlineList (.str me) = .ok list) :
    ListsOnce me (.onlineList (JsValue.arr list).throughJson) := by
  obtain ⟨hnodup, hitems⟩ := Server.distinct_getOnlineListFrom hlist
    fun s info hmem => hstrings s info ((InsertionMap.mem_entries_iff _ _ _).mp hmem)
  have hfield : ∀ item ∈ list, item.throughJson.field (js "pubKey") =
      item.field (js "pubKey") := by
    intro item hitem
    obtain ⟨p, hp, -⟩ := hitems item hitem
    rw [JsValue.field_throughJson, hp]
    rfl
  refine ⟨_, Server.throughJson_onlineList hlist, ?_, ?_⟩
  · rw [List.map_map, Function.comp_def, List.map_congr_left hfield]
    exact hnodup
  · intro item hitem
    obtain ⟨item', hitem', rfl⟩ := List.mem_map.mp hitem
    obtain ⟨p, hp, hother, -⟩ := hitems item' hitem'
    rw [hfield item' hitem', hp]
    exact fun heq => hother (by rw [JsValue.str.inj heq])

theorem listsOnce_register {w : World H} (henrolled : w.Enrolled)
    (hwired : w.Wired) {s : SocketId} {data : JsValue} {rest : List ClientEvent}
    {relay : Server} {emits : List Emit} (hconn : s ∈ w.relay.connected)
    (hup : w.up s = .register data :: rest)
    (hregister : w.relay.register s data = .ok (relay, emits))
    {s' : SocketId} {conn : Connection} (howner : w.owner s' = some conn) :
    ∀ event ∈ arrivals relay emits s', ListsOnce conn.peerId event := by
  intro event hevent
  obtain ⟨sender, hsender⟩ := henrolled.connected_owned s hconn
  obtain rfl := hwired.registers s sender data hsender (by simp [hup])
  have hstrings : StringPeers relay :=
    Server.forall_info_register hregister henrolled.stringPeers
      fun _ _ _ => ⟨sender.peerId, rfl⟩
  obtain ⟨emit, hemit, harrival⟩ := exists_arrival hevent
  rcases Server.register_cases hregister with
    ⟨-, -, rfl⟩ | ⟨name, list, -, -, -, hlist, rfl⟩
  · cases hemit
  rcases List.mem_cons.mp hemit with rfl | hemit
  · simp only [arrival] at harrival
    split at harrival
    · rename_i hs
      subst hs
      obtain rfl : sender = conn := Option.some.inj (hsender.symm.trans howner)
      cases harrival
      exact listsOnce_snapshot hstrings hlist
    · cases harrival
  · rw [List.mem_singleton.mp hemit] at harrival
    simp only [arrival] at harrival
    split at harrival
    · cases harrival
    · cases harrival
      exact ⟨sender.peerId, rfl⟩

def RosterQueued (w : World H) : Prop :=
  ∀ s conn, w.owner s = some conn → ∀ event ∈ w.down s, ListsOnce conn.peerId event

theorem rosterQueued_of_reach {w : World H} (hw : (system H).Reach Shipped w) :
    w.RosterQueued := by
  refine hw.invariant (I := RosterQueued) (fun _ _ h => by cases h) ?_
  intro w a w' hreach h _ hnext s conn howner event hevent
  have hwired := wired_of_reach hreach
  obtain ⟨howner, hold | hnew⟩ :=
    hwired.mem_down_of_change (change_of_step hnext) howner hevent
  · exact h s conn howner event hold
  · cases hnew with
    | register hconn hup hregister harrives =>
        exact listsOnce_register (enrolled_of_reach (fun _ _ hok => hok) hreach) hwired
          hconn hup hregister howner event harrives
    | message hup => trivial
    | drop s₀ data => trivial

/-! ## Runs -/

theorem listedOnce_of_reach {w : World H} (hw : (system H).Reach Shipped w) :
    ∀ t tab, w.clients.tabs t = some tab → ListedOnce tab := by
  have hclients : (Clients.system H).Reach (fun c a => ∀ t tab event,
      a = .receive t event → c.tabs t = some tab →
      ListsOnce tab.peerId event) w.clients := by
    refine reach_clients ?_ hw
    rintro w a b hreach - hb t tab event rfl htab
    obtain ⟨s, hs, hevent⟩ := receive_of_clientAction hb
    obtain ⟨conn, tab', howner, -, htab', hpeer, -⟩ :=
      (wired_of_reach hreach).current_tab hs
    obtain rfl : tab = tab' := Option.some.inj (htab.symm.trans htab')
    rw [hpeer]
    exact rosterQueued_of_reach hreach s conn howner event hevent
  refine hclients.invariant
    (I := fun c => ∀ t tab, c.tabs t = some tab → ListedOnce tab)
    (fun _ _ h => by cases h) ?_
  intro c a c' hreach h hguard hnext
  exact listedOnce_of_change (Clients.facesOther_of_reach hreach) h hguard
    (Clients.change_of_step hnext)

def countedKeys (tab : Tab H) : Set JsValue :=
  {key | key = .str tab.peerId ∨ ∃ q ∈ tab.onlinePeers, key = q.pubKey}

theorem ListedOnce.ncard_countedKeys {tab : Tab H} (h : ListedOnce tab) :
    (countedKeys tab).ncard = tab.activeUsersCount := by
  classical
  have hnodup : (JsValue.str tab.peerId :: tab.onlinePeers.map Peer.pubKey).Nodup := by
    rw [List.nodup_cons]
    refine ⟨?_, h.distinct⟩
    intro hmem
    obtain ⟨q, hq, hme⟩ := List.mem_map.mp hmem
    exact h.other q hq hme
  have hset : countedKeys tab =
      (JsValue.str tab.peerId :: tab.onlinePeers.map Peer.pubKey).toFinset := by
    ext key
    simp [countedKeys, eq_comm]
  rw [hset, Set.ncard_coe_finset, List.toFinset_card_of_nodup hnodup,
    List.length_cons, List.length_map, Tab.activeUsersCount]

/--
Online peers are listed once and never include the user, whatever is in flight,
so the header counts every peer once.
-/
theorem online_peers_listed_once {w : World H} (hw : (system H).Reach Shipped w)
    {t : TabId} {tab : Tab H} (htab : w.clients.tabs t = some tab) :
    (tab.onlinePeers.map Peer.pubKey).Nodup ∧
      (∀ q ∈ tab.onlinePeers, q.pubKey ≠ .str tab.peerId) ∧
      tab.activeUsersCount = (countedKeys tab).ncard := by
  have h := listedOnce_of_reach hw t tab htab
  exact ⟨h.distinct, h.other, h.ncard_countedKeys.symm⟩

theorem online_peers_listed_once_threeTabs :
    ∃ w : World plainHost, (system plainHost).Reach Shipped w ∧
      ∃ tab, w.clients.tabs 0 = some tab ∧ tab.onlinePeers.length = 1 ∧
        (tab.onlinePeers.map Peer.pubKey).Nodup ∧
        (∀ q ∈ tab.onlinePeers, q.pubKey ≠ .str tab.peerId) ∧
        tab.activeUsersCount = (countedKeys tab).ncard := by
  obtain ⟨w, hw, hcheck⟩ := System.exists_reach_of_exec
    (system plainHost) (Shipped) (fun _ a => shipped a)
    (threeTabs ++ [.rename 2 (js "D"), .connect 2, .recv 3, .drop 2,
      .deliver 0, .deliver 0, .deliver 0, .deliver 0])
    (fun w => (w.clients.tabs 0).any fun tab => tab.onlinePeers.length = 1)
    (fun _ _ h => h) (by decide +kernel)
  simp only [Option.any_eq_true, decide_eq_true_eq] at hcheck
  obtain ⟨tab, htab, hlength⟩ := hcheck
  exact ⟨w, hw, tab, htab, hlength, online_peers_listed_once hw htab⟩

end CommonChat.Network.World
