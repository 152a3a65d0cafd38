import CommonChat.Network.Transit

/-!
# Renaming a connected tab

The socket effect depends on the display name, so a rename closes the socket of
the tab and opens another one.  The relay keeps nothing for a peer that is
absent: what it handles after the disconnect of the old socket and before the
registration of the new one does not reach the tab.
-/

namespace CommonChat.Network.World

open CommonChat.Foundation
open CommonChat.Core
open CommonChat.Relay
open CommonChat.Frontend

variable {H : Host} {t : TabId}

def Owns (w : World H) (t : TabId) (s : SocketId) : Prop :=
  ∃ conn, w.owner s = some conn ∧ conn.tab = t

/-- Shipped clients; the tab `t` never loses its connection except by a rename. -/
structure OnlyRenames (t : TabId) (w : World H) (a : Action) : Prop where
  isShipped : shipped a = true
  stays : a ≠ .leave t
  noFailure : ∀ s, a = .drop s → w.current t ≠ some s

def Linked (t : TabId) (w : World H) : Prop :=
  ∀ s, w.current t = some s → s ∈ w.relay.connected ∧
    ((∃ peer, w.relay.RegisteredAs s peer) ∨ ∃ data, .register data ∈ w.up s)

theorem linked_initial : (initial H).Linked t := nofun

theorem Linked.mono {w w' : World H} (h : w.Linked t)
    (hcurrent : ∀ s, w'.current t = some s → w.current t = some s)
    (hrelay : w'.relay = w.relay)
    (hup : ∀ s data, .register data ∈ w.up s → .register data ∈ w'.up s) :
    w'.Linked t := by
  intro s hs
  obtain ⟨hconn, hreg⟩ := h s (hcurrent s hs)
  rw [hrelay]
  refine ⟨hconn, hreg.imp_right ?_⟩
  rintro ⟨data, hdata⟩
  exact ⟨data, hup s data hdata⟩

theorem registeredAs_register {w : World H} (hwired : w.Wired) {s : SocketId}
    {conn : Connection} (howner : w.owner s = some conn) {relay : Server}
    {emits : List Emit}
    (hregister : w.relay.register s conn.registration = .ok (relay, emits)) :
    relay.RegisteredAs s (.str conn.peerId) := by
  obtain ⟨tab, -, hpeer, hwants⟩ := hwired.owner_tab s conn howner
  have hne : conn.peerId ≠ [] := by
    rw [← hpeer]
    simp only [Tab.wantsSocket, Bool.and_eq_true, decide_eq_true_eq] at hwants
    exact hwants.1.2
  rcases Server.register_cases hregister with
    ⟨hfalsy, -, -⟩ | ⟨name, list, -, -, rfl, -⟩
  · simp [JsValue.truthy, hne] at hfalsy
  · rw [Server.registeredAs_enroll_iff, if_pos rfl]
    rfl

theorem Linked.register {w : World H} (h : w.Linked t) (hwired : w.Wired)
    (henrolled : w.Enrolled) {s : SocketId} {data : JsValue}
    {rest : List ClientEvent} {relay : Server} {emits : List Emit}
    (hconn : s ∈ w.relay.connected) (hup : w.up s = .register data :: rest)
    (hregister : w.relay.register s data = .ok (relay, emits)) :
    ({ w with
      relay := relay
      up := Function.update w.up s rest } : World H).Linked t := by
  obtain ⟨conn, howner⟩ := henrolled.connected_owned s hconn
  obtain rfl := hwired.registers s conn data howner (by simp [hup])
  intro s' hs'
  obtain ⟨hconn', hreg⟩ := h s' hs'
  refine ⟨by rw [connected_register hregister]; exact hconn', ?_⟩
  by_cases hss : s' = s
  · subst hss
    exact .inl ⟨_, registeredAs_register hwired howner hregister⟩
  · rcases hreg with ⟨peer, hpeer⟩ | hpending
    · refine .inl ⟨peer, ?_⟩
      rcases Server.register_cases hregister with
        ⟨-, rfl, -⟩ | ⟨name, list, -, -, rfl, -⟩
      · exact hpeer
      · rwa [Server.registeredAs_enroll_iff, if_neg hss]
    · simp only [Function.update_of_ne hss]
      exact .inr hpending

theorem Linked.change {w w' : World H} {a : Action} (h : w.Linked t)
    (hwired : w.Wired) (henrolled : w.Enrolled) (hguard : w.OnlyRenames t a)
    (hchange : Change w a w') : w'.Linked t := by
  cases hchange with
  | @send u input now random clients msg hsend =>
      obtain ⟨up, sentOn, sendBuffer, heq, hsent⟩ :=
        transmit_frame { w with clients := clients } u msg
      rw [heq]
      exact h.mono (fun _ hs => hs) rfl (fun s _ => hsent.up_kept s _)
  | @newName u name clients hclients =>
      refine h.mono ?_ rfl (fun _ _ hdata => hdata)
      intro s hs
      simp only [close, Function.update_apply] at hs
      split at hs
      · cases hs
      · exact hs
  | @connect u tab htab hwants hcurrent =>
      intro s hs
      simp only [openConnection, Function.update_apply] at hs ⊢
      split at hs
      · cases hs
        refine ⟨InsertionSet.mem_add.mpr (.inl rfl), .inr ⟨(Connection.registration
          ⟨u, tab.peerId, tab.displayName⟩).throughJson, ?_⟩⟩
        rw [if_pos rfl]
        exact List.mem_append_right _ (List.mem_singleton_self _)
      · obtain ⟨hconn, hreg⟩ := h s hs
        rw [if_neg (Nat.ne_of_lt (hwired.current_lt hs))]
        exact ⟨InsertionSet.mem_add.mpr (.inr hconn), hreg⟩
  | leave u =>
      refine h.mono ?_ rfl (fun _ _ hdata => hdata)
      intro s hs
      simp only [Function.update_apply] at hs
      split at hs
      · cases hs
      · exact hs
  | @register s data rest relay emits hconn hup hregister =>
      exact h.register hwired henrolled hconn hup hregister
  | @message s payload rest hconn hup =>
      refine h.mono (fun _ hs => hs) rfl ?_
      intro s' data hdata
      simp only [World.dispatch, Function.update_apply]
      split
      · rename_i hs
        rw [hs, hup] at hdata
        rcases List.mem_cons.mp hdata with heq | hdata
        · cases heq
        · exact hdata
      · exact hdata
  | @drop s hconn =>
      intro s' hs'
      have hne : s' ≠ s := by
        rintro rfl
        exact hguard.noFailure s' rfl hs'
      obtain ⟨hconn', hreg⟩ := h s' hs'
      refine ⟨?_, hreg.imp_left ?_⟩
      · simp only [World.dispatch, Server.connected_disconnect]
        exact InsertionSet.mem_delete.mpr ⟨hne, hconn'⟩
      · rintro ⟨peer, hpeer⟩
        exact ⟨peer, (Server.registeredAs_disconnect_iff _ _ _ _).mpr ⟨hne, hpeer⟩⟩
  | join => cases hguard.isShipped
  | emit howner hconn => cases hguard.isShipped
  | _ => exact h.mono (fun _ hs => hs) rfl (fun _ _ hdata => hdata)

theorem linked_of_reach {w : World H} (hw : (system H).Reach (OnlyRenames t) w) :
    w.Linked t :=
  hw.invariant linked_initial fun _ _ _ hreach h hguard hnext =>
    h.change (wired_of_reach hreach)
      (enrolled_of_reach (fun _ _ hok => hok.isShipped) hreach) hguard
      (change_of_step hnext)

/-! ## The hand-over -/

/-- The relay has dropped the sockets of the tab, and there is no new one yet. -/
def Unconnected (t : TabId) (w : World H) : Prop :=
  w.current t = none ∧ ∀ s, w.Owns t s → s ∉ w.relay.connected

/--
The relay has dropped the sockets that the tab had registered, and the
registration of a new one is still to come.
-/
def Unregistered (t : TabId) (w : World H) : Prop :=
  (∀ s, w.current t = some s → ∃ data, .register data ∈ w.up s) ∧
    ∀ s, w.Owns t s → ∀ peer, ¬ w.relay.RegisteredAs s peer

def QueuesTo (t : TabId) (payload : JsValue) (w w' : World H) : Prop :=
  ∃ s, w.Owns t s ∧ w'.queued s = w.queued s ++ [.message payload]

theorem queuesTo_iff {w w' : World H} {payload : JsValue} {P : SocketId → Prop}
    (hyes : ∀ d, P d → w'.queued d = w.queued d ++ [.message payload])
    (hno : ∀ d, ¬ P d → w'.queued d = w.queued d) :
    w.QueuesTo t payload w' ↔ ∃ s, w.Owns t s ∧ P s := by
  constructor
  · rintro ⟨s, hs, hqueued⟩
    refine ⟨s, hs, ?_⟩
    by_contra hnot
    rw [hno s hnot] at hqueued
    simp at hqueued
  · rintro ⟨s, hs, hP⟩
    exact ⟨s, hs, hyes s hP⟩

theorem Linked.exists_connected_iff {w : World H} (h : w.Linked t)
    (hwired : w.Wired) :
    (∃ s, w.Owns t s ∧ s ∈ w.relay.connected) ↔ ¬ w.Unconnected t := by
  constructor
  · rintro ⟨s, hs, hconn⟩ ⟨-, hgone⟩
    exact hgone s hs hconn
  · intro hnot
    by_contra hnone
    refine hnot ⟨?_, fun s hs hconn => hnone ⟨s, hs, hconn⟩⟩
    cases hcurrent : w.current t with
    | none => rfl
    | some s =>
        exact absurd ⟨s, hwired.current_owned t s hcurrent, (h s hcurrent).1⟩ hnone

theorem Linked.exists_registered_iff {w : World H} (h : w.Linked t)
    (hwired : w.Wired) :
    (∃ s, w.Owns t s ∧ ∃ peer, w.relay.RegisteredAs s peer) ↔
      ¬ w.Unregistered t := by
  constructor
  · rintro ⟨s, hs, peer, hreg⟩ ⟨-, hgone⟩
    exact hgone s hs peer hreg
  · intro hnot
    by_contra hnone
    refine hnot ⟨?_, fun s hs peer hreg => hnone ⟨s, hs, peer, hreg⟩⟩
    intro s hcurrent
    rcases (h s hcurrent).2 with hreg | hpending
    · exact absurd ⟨s, hwired.current_owned t s hcurrent, hreg⟩ hnone
    · exact hpending

theorem registeredAs_iff_of_owns {w : World H} (hwired : w.Wired)
    (henrolled : w.Enrolled) {tab : Tab H} (htab : w.clients.tabs t = some tab)
    {s : SocketId} (hs : w.Owns t s) :
    (∃ peer, w.relay.RegisteredAs s peer) ↔
      w.relay.RegisteredAs s (.str tab.peerId) := by
  obtain ⟨conn, howner, rfl⟩ := hs
  obtain ⟨tab', htab', hpeer, -⟩ := hwired.owner_tab s conn howner
  obtain rfl : tab = tab' := Option.some.inj (htab.symm.trans htab')
  constructor
  · rintro ⟨peer, hreg⟩
    rw [henrolled.peer_eq howner hreg, ← hpeer] at hreg
    exact hreg
  · exact fun hreg => ⟨_, hreg⟩

theorem peerId_ne_broadcastId {tab : Tab H} (h : Clients.InStep tab) :
    tab.peerId ≠ broadcastId := by
  by_cases hnil : tab.peerId = []
  · rw [hnil]
    decide
  · obtain ⟨pk, hpk⟩ := h.spells (h.isInitialized_of_peerId hnil)
    exact (keySized_of_spells hpk).ne_broadcastId

/--
A message for all or for the peer of a tab is queued to a socket of the tab when
the relay handles it, except in a hand-over: a message for all is lost until the
tab has connected again, a message for its peer until it has registered again.
-/
theorem queued_unless_handing_over {w w' : World H}
    (hw : (system H).Reach (OnlyRenames t) w) {tab : Tab H}
    (htab : w.clients.tabs t = some tab) {s : SocketId} {payload : JsValue}
    {rest : List ClientEvent} (hup : w.up s = .message payload :: rest)
    (hstep : w.step (.recv s) = some w') :
    (relayAddressee payload = .str broadcastId →
      (w.QueuesTo t payload w' ↔ ¬ w.Unconnected t)) ∧
    (relayAddressee payload = .str tab.peerId →
      (w.QueuesTo t payload w' ↔ ¬ w.Unregistered t)) := by
  have hship : ∀ (w : World H) a, w.OnlyRenames t a → shipped a = true :=
    fun _ _ hok => hok.isShipped
  have hwired := wired_of_reach hw
  have henrolled := enrolled_of_reach hship hw
  have hlinked := linked_of_reach hw
  obtain ⟨sent, hsent, rfl⟩ := (carried_of_reach hship hw).up s payload
    (by rw [hup]; exact List.mem_cons_self)
  have hm := wellSent_of_reach hship hw sent hsent
  have hqueued := queued_of_recv hup hstep
  rw [relayAddressee_wellSent hm]
  constructor
  · intro hall
    rw [← hlinked.exists_connected_iff hwired]
    refine queuesTo_iff ?_ ?_
    · intro d hd
      rw [hqueued d, arrivals_public hm hall, if_pos hd]
    · intro d hd
      rw [hqueued d, arrivals_public hm hall, if_neg hd, List.append_nil]
  · intro hp
    have hne : tab.peerId ≠ broadcastId :=
      peerId_ne_broadcastId (Clients.allInStep_of_reach (reach_clients_any hw) t tab htab)
    have harrivals := arrivals_direct henrolled.consistent hm hp hne
    have hiff : w.QueuesTo t sent.message.toJs.throughJson w' ↔
        ∃ d, w.Owns t d ∧ w.relay.RegisteredAs d (.str tab.peerId) := by
      refine queuesTo_iff ?_ ?_
      · intro d hd
        rw [hqueued d, (harrivals d).1 hd]
      · intro d hd
        rw [hqueued d, (harrivals d).2 hd, List.append_nil]
    rw [hiff, ← hlinked.exists_registered_iff hwired]
    refine exists_congr fun d => and_congr_right fun hd => ?_
    exact (registeredAs_iff_of_owns hwired henrolled htab hd).symm

def onlyRenames (t : TabId) (w : World H) : Action → Bool
  | .leave u => u ≠ t
  | .drop s => w.current t ≠ some s
  | a => shipped a

theorem onlyRenames_of_test {w : World H} {a : Action}
    (h : w.onlyRenames t a = true) : w.OnlyRenames t a := by
  cases a with
  | leave u =>
      refine ⟨rfl, ?_, nofun⟩
      rintro heq
      cases heq
      simp [onlyRenames] at h
  | drop s =>
      refine ⟨rfl, nofun, ?_⟩
      intro s' heq
      cases heq
      simpa [onlyRenames] using h
  | _ => exact ⟨h, nofun, nofun⟩

def nextMessage (w : World H) (s : SocketId) : Option JsValue :=
  match w.up s with
  | .message payload :: _ => some payload
  | _ => none

theorem up_of_nextMessage {w : World H} {s : SocketId} {payload : JsValue}
    (h : w.nextMessage s = some payload) :
    ∃ rest, w.up s = .message payload :: rest := by
  unfold nextMessage at h
  split at h
  · rename_i payload' rest hup
    cases h
    exact ⟨rest, hup⟩
  · cases h

def directThenRename : List Action :=
  twoTabs ++ [.deliver 0, .deliver 0, .page (.openDirectWith 0 0),
    .rename 1 (js "Q")]

theorem queued_while_renaming :
    ∃ w w' : World plainHost, (system plainHost).Reach (OnlyRenames 1) w ∧
      w.current 1 = none ∧ w.step (.recv 0) = some w' ∧
      ∃ tab payload, w.clients.tabs 1 = some tab ∧
        w.nextMessage 0 = some payload ∧
        relayAddressee payload = .str tab.peerId ∧ w.QueuesTo 1 payload w' := by
  obtain ⟨w, hw, hcheck⟩ := System.exists_reach_of_exec
    (system plainHost) (OnlyRenames 1) (onlyRenames 1)
    (directThenRename ++ [.send 0 (js "hi") 7 (js "x")])
    (fun w => w.current 1 = none && (w.step (.recv 0)).isSome &&
      ((w.owner 1).any fun conn => conn.tab = 1) &&
      (w.relay.socketToPeer.get 1).isSome &&
      (w.clients.tabs 1).any fun tab => (w.nextMessage 0).any fun payload =>
        (relayAddressee payload).strictEq (.str tab.peerId))
    (fun _ _ h => onlyRenames_of_test h) (by decide +kernel)
  simp only [Bool.and_eq_true, decide_eq_true_eq, Option.isSome_iff_exists,
    Option.any_eq_true, JsValue.strictEq_str_iff] at hcheck
  obtain ⟨⟨⟨⟨hcurrent, w', hstep⟩, howner⟩, info, hinfo⟩, tab, htab, payload, hnext,
    hto⟩ := hcheck
  obtain ⟨rest, hup⟩ := up_of_nextMessage hnext
  refine ⟨w, w', hw, hcurrent, hstep, tab, payload, htab, hnext, hto, ?_⟩
  refine ((queued_unless_handing_over hw htab hup hstep).2 hto).mpr ?_
  exact fun haway => haway.2 1 howner info.key ⟨info, hinfo, rfl⟩

def HasRegistered (t : TabId) (w : World H) : Prop :=
  ∃ s, w.Owns t s ∧ ∃ list, .onlineList list ∈ w.queued s

def isOnlineList : RelayEvent → Bool
  | .onlineList _ => true
  | _ => false

theorem lost_while_renaming :
    ¬ ∀ (H : Host) (t : TabId) (w w' : World H) (tab : Tab H) (s : SocketId)
      (payload : JsValue) (rest : List ClientEvent),
      (system H).Reach (OnlyRenames t) w → w.HasRegistered t →
      w.clients.tabs t = some tab → w.up s = .message payload :: rest →
      ¬ w.Owns t s → w.step (.recv s) = some w' →
      (relayAddressee payload = .str broadcastId ∨
        relayAddressee payload = .str tab.peerId) → w.QueuesTo t payload w' := by
  intro hall
  obtain ⟨w, hw, hcheck⟩ := System.exists_reach_of_exec
    (system plainHost) (OnlyRenames 1) (onlyRenames 1)
    (directThenRename ++ [.drop 1, .send 0 (js "hi") 7 (js "x")])
    (fun w => ((w.owner 0).all fun conn => conn.tab ≠ 1) &&
      ((w.owner 1).any fun conn => conn.tab = 1) &&
      ((w.queued 1).any isOnlineList) &&
      ((w.step (.recv 0)).any fun w' => (List.range w.nextSocket).all fun s =>
        s = 0 || (w'.queued s).length = (w.queued s).length) &&
      (w.clients.tabs 1).any fun tab => (w.nextMessage 0).any fun payload =>
        (relayAddressee payload).strictEq (.str tab.peerId))
    (fun _ _ h => onlyRenames_of_test h) (by decide +kernel)
  simp only [Bool.and_eq_true, Option.all_eq_true, List.any_eq_true,
    Option.any_eq_true, List.all_eq_true, Bool.or_eq_true, decide_eq_true_eq,
    List.mem_range, JsValue.strictEq_str_iff] at hcheck
  obtain ⟨⟨⟨⟨hother, howner⟩, event, hevent, hlist⟩, w', hstep, hsame⟩, tab, htab,
    payload, hnext, hto⟩ := hcheck
  obtain ⟨rest, hup⟩ := up_of_nextMessage hnext
  have hnot : ¬ w.Owns 1 0 := by
    rintro ⟨conn, hconn, htab⟩
    exact hother conn hconn htab
  have hregistered : w.HasRegistered 1 := by
    cases event with
    | onlineList list => exact ⟨1, howner, list, hevent⟩
    | _ => cases hlist
  obtain ⟨s, ⟨conn, hconn, hone⟩, hqueued⟩ := hall plainHost 1 w w' tab 0 payload rest
    hw hregistered htab hup hnot hstep (.inr hto)
  rcases hsame s ((wired_of_reach hw).owner_lt s conn hconn) with rfl | hlength
  · exact hnot ⟨conn, hconn, hone⟩
  · rw [hqueued] at hlength
    simp at hlength

end CommonChat.Network.World
