import CommonChat.Frontend.PeerId
import CommonChat.Frontend.Runs
import CommonChat.Network.Routing

/-!
# Sockets and their tabs

Which socket belongs to which tab, in every run; and for the runs of shipped
clients, that the relay only ever registers a socket under the peer id of its
tab.
-/

namespace CommonChat.Network.World

open CommonChat.Foundation
open CommonChat.Core
open CommonChat.Relay
open CommonChat.Frontend

variable {H : Host}

structure Wired (w : World H) : Prop where
  current_owned : ∀ t s, w.current t = some s →
    ∃ conn, w.owner s = some conn ∧ conn.tab = t
  owner_tab : ∀ s conn, w.owner s = some conn →
    ∃ tab, w.clients.tabs conn.tab = some tab ∧ tab.peerId = conn.peerId ∧
      tab.wantsSocket = true
  owner_lt : ∀ s conn, w.owner s = some conn → s < w.nextSocket
  connected_lt : ∀ s ∈ w.relay.connected, s < w.nextSocket
  unused : ∀ s, w.nextSocket ≤ s →
    w.up s = [] ∧ w.down s = [] ∧ w.sentOn s = [] ∧ w.queued s = []
  registers : ∀ s conn data, w.owner s = some conn →
    .register data ∈ w.up s → data = conn.registration

theorem Wired.current_tab {w : World H} (h : w.Wired) {t : TabId} {s : SocketId}
    (hs : w.current t = some s) :
    ∃ conn tab, w.owner s = some conn ∧ conn.tab = t ∧
      w.clients.tabs t = some tab ∧ tab.peerId = conn.peerId ∧
      tab.wantsSocket = true := by
  obtain ⟨conn, hconn, rfl⟩ := h.current_owned t s hs
  obtain ⟨tab, htab, hpeer, hwants⟩ := h.owner_tab s conn hconn
  exact ⟨conn, tab, hconn, rfl, htab, hpeer, hwants⟩

theorem Wired.current_lt {w : World H} (h : w.Wired) {t : TabId} {s : SocketId}
    (hs : w.current t = some s) : s < w.nextSocket := by
  obtain ⟨conn, hconn, -⟩ := h.current_owned t s hs
  exact h.owner_lt s conn hconn

theorem Wired.current_inj {w : World H} (h : w.Wired) {t u : TabId}
    {s : SocketId} (ht : w.current t = some s) (hu : w.current u = some s) :
    t = u := by
  obtain ⟨conn, hconn, rfl⟩ := h.current_owned t s ht
  obtain ⟨conn', hconn', rfl⟩ := h.current_owned u s hu
  rw [hconn] at hconn'
  cases hconn'
  rfl

theorem wired_initial : (initial H).Wired where
  current_owned := nofun
  owner_tab := nofun
  owner_lt := nofun
  connected_lt := nofun
  unused _ _ := ⟨rfl, rfl, rfl, rfl⟩
  registers := nofun

theorem arrivals_of_not_connected {r : Server} {s : SocketId}
    (h : s ∉ r.connected) (emits : List Emit) : arrivals r emits s = [] := by
  rw [arrivals, if_neg h]

theorem Wired.owner_tab_of_change {w w' : World H} {a : Action} (h : w.Wired)
    (hfresh : w.clients.FreshTab) (hchange : Change w a w') (s : SocketId)
    (conn : Connection) (hconn : w.owner s = some conn) :
    ∃ tab, w'.clients.tabs conn.tab = some tab ∧ tab.peerId = conn.peerId ∧
      tab.wantsSocket = true := by
  obtain ⟨tab, htab, hpeer, hwants⟩ := h.owner_tab s conn hconn
  rcases clients_of_change hchange with hsame | ⟨b, -, hstep⟩
  · rw [hsame]
    exact ⟨tab, htab, hpeer, hwants⟩
  · obtain ⟨tab', htab', hpeer', hwants'⟩ := Clients.tab_survives hfresh
      (Clients.change_of_step hstep) htab hwants
    exact ⟨tab', htab', hpeer'.trans hpeer, hwants'⟩

theorem Wired.dispatch {w : World H} (h : w.Wired) (emits : List Emit) :
    (w.dispatch emits).Wired := by
  refine ⟨h.current_owned, h.owner_tab, h.owner_lt, h.connected_lt, ?_,
    h.registers⟩
  intro s hs
  have hnot : s ∉ w.relay.connected := by
    intro hmem
    exact absurd (h.connected_lt s hmem) (Nat.not_lt.mpr hs)
  obtain ⟨hup, hdown, hsent, hqueued⟩ := h.unused s hs
  simp only [World.dispatch, arrivals_of_not_connected hnot, List.append_nil]
  exact ⟨hup, hdown, hsent, hqueued⟩

theorem Wired.setUp {w : World H} (h : w.Wired) {s : SocketId}
    (hs : s < w.nextSocket) {events : List ClientEvent}
    (hevents : ∀ conn data, w.owner s = some conn → .register data ∈ events →
      .register data ∈ w.up s) :
    ({ w with up := Function.update w.up s events } : World H).Wired := by
  refine ⟨h.current_owned, h.owner_tab, h.owner_lt, h.connected_lt, ?_, ?_⟩
  · intro s' hs'
    have hne : s' ≠ s := fun heq => absurd hs' (Nat.not_le.mpr (heq ▸ hs))
    obtain ⟨hup, hrest⟩ := h.unused s' hs'
    exact ⟨by rw [← hup]; exact Function.update_of_ne hne _ _, hrest⟩
  · intro s' conn data hconn hmem
    simp only [Function.update_apply] at hmem
    split at hmem
    · rename_i heq
      subst heq
      exact h.registers s' conn data hconn (hevents conn data hconn hmem)
    · exact h.registers s' conn data hconn hmem

theorem connected_register {r r' : Server} {s : SocketId} {data : JsValue}
    {emits : List Emit} (h : r.register s data = .ok (r', emits)) :
    r'.connected = r.connected := by
  rcases Server.register_cases h with ⟨-, rfl, -⟩ | ⟨name, list, -, -, rfl, -⟩
  · rfl
  · rfl

@[simp] theorem throughJson_registration (conn : Connection) :
    conn.registration.throughJson = conn.registration := rfl

theorem Wired.connect {w : World H} (h : w.Wired) {t : TabId} {tab : Tab H}
    (htab : w.clients.tabs t = some tab) (hwants : tab.wantsSocket = true) :
    (w.openConnection ⟨t, tab.peerId, tab.displayName⟩).Wired := by
  refine ⟨?_, ?_, ?_, ?_, ?_, ?_⟩
  · intro u s hs
    simp only [openConnection, Function.update_apply] at hs ⊢
    split at hs
    · rename_i hut
      obtain rfl := Option.some.inj hs
      exact ⟨_, if_pos rfl, hut.symm⟩
    · rw [if_neg (Nat.ne_of_lt (h.current_lt hs))]
      exact h.current_owned u s hs
  · intro s conn hconn
    simp only [openConnection, Function.update_apply] at hconn
    split at hconn
    · obtain rfl := Option.some.inj hconn
      exact ⟨tab, htab, rfl, hwants⟩
    · exact h.owner_tab s conn hconn
  · intro s conn hconn
    simp only [openConnection, Function.update_apply] at hconn ⊢
    split at hconn
    · rename_i hs
      rw [hs]
      exact Nat.lt_succ_self _
    · exact Nat.lt_succ_of_lt (h.owner_lt s conn hconn)
  · intro s hs
    rcases InsertionSet.mem_add.mp hs with rfl | hs
    · exact Nat.lt_succ_self _
    · exact Nat.lt_succ_of_lt (h.connected_lt s hs)
  · intro s hs
    have hlt : w.nextSocket < s := hs
    simp only [openConnection, Function.update_apply, if_neg (Nat.ne_of_gt hlt)]
    exact h.unused s (Nat.le_of_lt hlt)
  · intro s conn data hconn hmem
    simp only [openConnection, Function.update_apply] at hconn hmem
    split at hconn
    · rename_i hs
      obtain rfl := Option.some.inj hconn
      rw [if_pos hs] at hmem
      simpa [messageEvent] using hmem
    · rename_i hs
      rw [if_neg hs] at hmem
      exact h.registers s conn data hconn hmem

theorem Wired.change {w w' : World H} {a : Action} (h : w.Wired)
    (hfresh : w.clients.FreshTab) (hchange : Change w a w') : w'.Wired := by
  have htabs := h.owner_tab_of_change hfresh hchange
  cases hchange with
  | page hpage hclients =>
      exact ⟨h.current_owned, htabs, h.owner_lt, h.connected_lt, h.unused,
        h.registers⟩
  | @send t input now random clients msg hsend =>
      obtain ⟨up, sentOn, sendBuffer, heq, hemitted⟩ :=
        transmit_frame { w with clients := clients } t msg
      rw [heq] at htabs ⊢
      refine ⟨h.current_owned, htabs, h.owner_lt, h.connected_lt, ?_, ?_⟩
      · intro s hs
        obtain ⟨hup, hdown, hsent, hqueued⟩ := h.unused s hs
        obtain ⟨hup', hsent'⟩ := hemitted.other s
          (fun hcur => absurd (h.current_lt hcur) (Nat.not_lt.mpr hs))
        exact ⟨hup'.trans hup, hdown, hsent'.trans hsent, hqueued⟩
      · intro s conn data hconn hmem
        rcases hemitted.up_new s _ hmem with hold | hnew
        · exact h.registers s conn data hconn hold
        · cases hnew
  | keepName hclients =>
      exact ⟨h.current_owned, htabs, h.owner_lt, h.connected_lt, h.unused,
        h.registers⟩
  | newName hclients =>
      refine ⟨?_, htabs, h.owner_lt, h.connected_lt, h.unused, h.registers⟩
      intro t s hs
      simp only [close, Function.update_apply] at hs
      split at hs
      · cases hs
      · exact h.current_owned t s hs
  | connect htab hwants hcurrent => exact h.connect htab hwants
  | leave t =>
      refine ⟨?_, htabs, h.owner_lt, h.connected_lt, h.unused, h.registers⟩
      intro u s hs
      simp only [Function.update_apply] at hs
      split at hs
      · cases hs
      · exact h.current_owned u s hs
  | @register s data rest relay emits hconn hup hregister =>
      have hset : ({ w with up := Function.update w.up s rest } : World H).Wired :=
        h.setUp (h.connected_lt s hconn)
          (fun _ _ _ hmem => by rw [hup]; exact List.mem_cons_of_mem _ hmem)
      refine Wired.dispatch (w := { w with
        relay := relay, up := Function.update w.up s rest }) ?_ emits
      refine ⟨h.current_owned, h.owner_tab, h.owner_lt, ?_, hset.unused,
        hset.registers⟩
      rw [connected_register hregister]
      exact h.connected_lt
  | @message s payload rest hconn hup =>
      refine Wired.dispatch (h.setUp (h.connected_lt s hconn) ?_) _
      exact fun _ _ _ hmem => by rw [hup]; exact List.mem_cons_of_mem _ hmem
  | @drop s hconn =>
      refine Wired.dispatch (w := { w with relay := (w.relay.disconnect s).1 }) ?_ _
      refine ⟨h.current_owned, h.owner_tab, h.owner_lt, ?_, h.unused, h.registers⟩
      intro s' hs'
      rw [Server.connected_disconnect, InsertionSet.mem_delete] at hs'
      exact h.connected_lt s' hs'.2
  | @deliver t s event rest tab hcurrent hdown htab hwants =>
      refine ⟨h.current_owned, htabs, h.owner_lt, h.connected_lt, ?_, h.registers⟩
      intro s' hs'
      have hne : s' ≠ s := by
        rintro rfl
        exact absurd (h.current_lt hcurrent) (Nat.not_lt.mpr hs')
      obtain ⟨hup, hdown', hrest⟩ := h.unused s' hs'
      exact ⟨hup, by rw [← hdown']; exact Function.update_of_ne hne _ _, hrest⟩
  | join =>
      refine ⟨h.current_owned, h.owner_tab, ?_, ?_, ?_, h.registers⟩
      · exact fun s conn hconn => Nat.lt_succ_of_lt (h.owner_lt s conn hconn)
      · intro s hs
        rcases InsertionSet.mem_add.mp hs with rfl | hs
        · exact Nat.lt_succ_self _
        · exact Nat.lt_succ_of_lt (h.connected_lt s hs)
      · exact fun s hs => h.unused s (Nat.le_of_succ_le hs)
  | emit howner hconn =>
      refine h.setUp (h.connected_lt _ hconn) ?_
      intro conn data hsome
      rw [howner] at hsome
      cases hsome

theorem freshTab_of_reach {ok : World H → Action → Prop} {w : World H}
    (hw : (system H).Reach ok w) : w.clients.FreshTab :=
  Clients.freshTab_of_reach (reach_clients_any hw)

theorem wired_of_reach {ok : World H → Action → Prop} {w : World H}
    (hw : (system H).Reach ok w) : w.Wired :=
  hw.invariant wired_initial fun _ _ _ hreach h _ hnext =>
    h.change (freshTab_of_reach hreach) (change_of_step hnext)

theorem Wired.mem_down_of_change {w w' : World H} {a : Action} (hwired : w.Wired)
    (hchange : Change w a w') {s : SocketId} {conn : Connection}
    (hconn : w'.owner s = some conn) {event : RelayEvent} (h : event ∈ w'.down s) :
    w.owner s = some conn ∧ (event ∈ w.down s ∨ Queues w a s event) := by
  refine ⟨?_, World.mem_down_of_change hchange h⟩
  cases hchange with
  | send hsend =>
      rw [transmit_owner] at hconn
      exact hconn
  | @connect t tab htab hwants hcurrent =>
      have hne : s ≠ w.nextSocket := by
        rintro rfl
        rw [show (w.openConnection _).down w.nextSocket = w.down w.nextSocket
          from rfl, (hwired.unused _ (Nat.le_refl _)).2.1] at h
        cases h
      simpa only [openConnection, Function.update_of_ne hne] using hconn
  | _ => exact hconn

/-! ## The registrations of shipped clients -/

def shipped : Action → Bool
  | .join | .emit .. => false
  | _ => true

/-- A socket that is already registered only registers again under the same peer. -/
def keepsPeer (w : World H) : Action → Bool
  | .recv s =>
      match w.up s with
      | .register data :: _ => w.relay.keepsPeer (.register s data)
      | _ => true
  | _ => true

theorem consistent_change {w w' : World H} {a : Action}
    (h : w.relay.Consistent) (hkeep : w.keepsPeer a = true)
    (hchange : Change w a w') : w'.relay.Consistent := by
  cases hchange with
  | send hsend =>
      rw [transmit_relay]
      exact h
  | connect htab hwants hcurrent => exact h.connect _
  | @register s data rest relay emits hconn hup hregister =>
      simp only [keepsPeer, hup] at hkeep
      rcases Server.register_cases hregister with
        ⟨-, rfl, -⟩ | ⟨name, list, -, -, rfl, -⟩
      · exact h
      · exact h.enroll hconn fun peer hreg => Server.keepsPeer_register hkeep hreg
  | @drop s hconn => exact h.disconnect s
  | join => exact h.connect _
  | _ => exact h

@[simp] theorem claimedPeer_registration (conn : Connection) :
    Server.claimedPeer conn.registration = .str conn.peerId := rfl

/-- All sockets belong to tabs, and the relay knows them by the tab's peer id. -/
structure Enrolled (w : World H) : Prop where
  consistent : w.relay.Consistent
  connected_owned : ∀ s ∈ w.relay.connected, ∃ conn, w.owner s = some conn
  registered : ∀ s info, w.relay.socketToPeer.get s = some info →
    ∃ conn, w.owner s = some conn ∧ info.peerId = .str conn.peerId

theorem enrolled_initial : (initial H).Enrolled where
  consistent := Server.consistent_empty
  connected_owned := nofun
  registered := nofun

theorem Enrolled.keepsPeer {w : World H} (h : w.Enrolled) (hwired : w.Wired)
    {a : Action} {w' : World H} (hchange : Change w a w') :
    w.keepsPeer a = true := by
  cases hchange with
  | @register s data rest relay emits hconn hup hregister =>
      obtain ⟨conn, hconn⟩ := h.connected_owned s hconn
      obtain rfl := hwired.registers s conn data hconn (by simp [hup])
      simp only [World.keepsPeer, hup, Server.keepsPeer]
      split
      · rfl
      · rename_i info hinfo
        obtain ⟨conn', hconn', hpeer⟩ := h.registered s info hinfo
        obtain rfl : conn = conn' := Option.some.inj (hconn.symm.trans hconn')
        simp [PeerInfo.key, hpeer, JsValue.key]
  | @message s payload rest hconn hup => simp only [World.keepsPeer, hup]
  | _ => rfl

theorem Enrolled.change {w w' : World H} {a : Action} (h : w.Enrolled)
    (hwired : w.Wired) (hship : shipped a = true) (hchange : Change w a w') :
    w'.Enrolled := by
  have hconsistent := consistent_change h.consistent (h.keepsPeer hwired hchange)
    hchange
  cases hchange with
  | @send t input now random clients msg hsend =>
      obtain ⟨up, sentOn, sendBuffer, heq, -⟩ :=
        transmit_frame { w with clients := clients } t msg
      rw [heq] at hconsistent ⊢
      exact ⟨hconsistent, h.connected_owned, h.registered⟩
  | @connect t tab htab hwants hcurrent =>
      refine ⟨hconsistent, ?_, ?_⟩
      · intro s hs
        simp only [openConnection, Function.update_apply]
        split
        · exact ⟨_, rfl⟩
        · rename_i hne
          exact h.connected_owned s ((InsertionSet.mem_add.mp hs).resolve_left hne)
      · intro s info hinfo
        obtain ⟨conn, hconn, hpeer⟩ := h.registered s info hinfo
        refine ⟨conn, ?_, hpeer⟩
        simp only [openConnection, Function.update_apply]
        rw [if_neg (Nat.ne_of_lt (hwired.owner_lt s conn hconn))]
        exact hconn
  | @register s data rest relay emits hconn hup hregister =>
      obtain ⟨conn, howner⟩ := h.connected_owned s hconn
      obtain rfl := hwired.registers s conn data howner (by simp [hup])
      refine ⟨hconsistent, ?_, ?_⟩
      · simp only [World.dispatch, connected_register hregister]
        exact h.connected_owned
      · exact Server.forall_info_register hregister h.registered
          (fun _ _ _ => ⟨conn, howner, rfl⟩)
  | @drop s hconn =>
      refine ⟨hconsistent, ?_, ?_⟩
      · intro s' hs'
        simp only [World.dispatch, Server.connected_disconnect,
          InsertionSet.mem_delete] at hs'
        exact h.connected_owned s' hs'.2
      · exact Server.forall_info_disconnect s h.registered
  | join => cases hship
  | emit howner hconn => cases hship
  | _ => exact ⟨hconsistent, h.connected_owned, h.registered⟩

def Shipped (_ : World H) (a : Action) : Prop := shipped a = true

theorem enrolled_of_reach {ok : World H → Action → Prop}
    (hok : ∀ w a, ok w a → shipped a = true) {w : World H}
    (hw : (system H).Reach ok w) : w.Enrolled :=
  hw.invariant enrolled_initial fun _ _ _ hreach h hguard hnext =>
    h.change (wired_of_reach hreach) (hok _ _ hguard) (change_of_step hnext)

def Online (w : World H) (peerId : JsString) : Prop :=
  ∃ s, w.relay.RegisteredAs s (.str peerId)

theorem Enrolled.peer_eq {w : World H} (h : w.Enrolled) {s : SocketId}
    {conn : Connection} (hconn : w.owner s = some conn) {peer : JsKey}
    (hreg : w.relay.RegisteredAs s peer) : peer = .str conn.peerId := by
  obtain ⟨info, hinfo, rfl⟩ := hreg
  obtain ⟨conn', hconn', hpeer⟩ := h.registered s info hinfo
  obtain rfl : conn = conn' := Option.some.inj (hconn.symm.trans hconn')
  rw [PeerInfo.key, hpeer]
  rfl

end CommonChat.Network.World
