import CommonChat.Frontend.Admission
import CommonChat.Frontend.Peers
import CommonChat.Frontend.Sidebar

/-!
# Where a message is read

The two filters of the page, and the views that the sidebar offers: the public
rooms and one row for each direct-message peer.  The handler admits by recipient
and type together, while the filters expect certain combinations of type,
recipient, room and author; what fits none of them is listed and shown nowhere.
-/

namespace CommonChat.Frontend

open CommonChat.Foundation
open CommonChat.Core
open CommonChat.Relay

variable {H : Host}

def publicRooms : List PublicRoomId := [.general, .commonware, .sloth]

def isPublicRoomMessage (m : ChatMessage) (roomId : PublicRoomId) : Bool :=
  if !(Tab.effectiveType m).strictEq (.str generalType) ||
      !(Tab.addressee m).strictEq (.str broadcastId) then false
  else
    (m.roomId.coalesce (.str PublicRoomId.general.text)).strictEq (.str roomId.text)

def isPrivateMessageWith (m : ChatMessage) (otherPeerId : JsValue) : Bool :=
  if !(Tab.effectiveType m).strictEq (.str privateType) then false
  else
    (m.fromMe.truthy && (m.recipient.coalesce (.str [])).strictEq otherPeerId) ||
      (!m.fromMe.truthy && m.peerId.strictEq otherPeerId)

def roomsShowing (e : ChatMessage) : Nat :=
  publicRooms.countP (isPublicRoomMessage e)

def rowsShowing (tab : Tab H) (e : ChatMessage) : Nat :=
  tab.directMessagesPeerList.countP fun p => isPrivateMessageWith e p.pubKey

/-- One room and no row shows the entry, or one row and no room. -/
def ShownOnce (tab : Tab H) (e : ChatMessage) : Prop :=
  (roomsShowing e = 1 ∧ rowsShowing tab e = 0) ∨
    (roomsShowing e = 0 ∧ rowsShowing tab e = 1)

/-! ## Entries with a place -/

/-- The combinations that one of the filters takes. -/
inductive Placed (me : JsString) (e : ChatMessage) : Prop
  | inRoom (htype : e.type = .str generalType)
      (hall : Tab.addressee e = .str broadcastId) {room : PublicRoomId}
      (hroom : e.roomId.coalesce (.str PublicRoomId.general.text) = .str room.text)
  | received (htype : e.type = .str privateType) (hother : e.fromMe = .bool false)
      {p : JsString} (hpeer : e.peerId = .str p) (hne : p ≠ []) (hme : p ≠ me)
  | sent (htype : e.type = .str privateType) (hmine : e.fromMe = .bool true)
      {p : JsString} (hto : e.recipient = .str p) (hne : p ≠ [])
      (hall : p ≠ broadcastId) (hme : p ≠ me)

theorem Placed.throughJson {me : JsString} {e : ChatMessage} (h : Placed me e) :
    Placed me e.throughJson := by
  cases h with
  | inRoom htype hall hroom =>
      exact .inRoom ((JsValue.throughJson_eq_str_iff _ _).mpr htype)
        (addressee_throughJson hall) (JsValue.coalesce_throughJson hroom)
  | received htype hother hpeer hne hme =>
      exact .received ((JsValue.throughJson_eq_str_iff _ _).mpr htype)
        (by rw [ChatMessage.throughJson, hother]; rfl)
        ((JsValue.throughJson_eq_str_iff _ _).mpr hpeer) hne hme
  | sent htype hmine hto hne hall hme =>
      exact .sent ((JsValue.throughJson_eq_str_iff _ _).mpr htype)
        (by rw [ChatMessage.throughJson, hmine]; rfl)
        ((JsValue.throughJson_eq_str_iff _ _).mpr hto) hne hall hme

theorem effectiveType_of_type {e : ChatMessage} {s : JsString}
    (h : e.type = .str s) : Tab.effectiveType e = .str s := by
  rw [Tab.effectiveType, h]
  rfl

theorem roomsShowing_of_private {e : ChatMessage}
    (h : e.type = .str privateType) : roomsShowing e = 0 := by
  have hnone : ∀ room, isPublicRoomMessage e room = false := by
    intro room
    rw [isPublicRoomMessage, effectiveType_of_type h]
    exact if_pos rfl
  simp [roomsShowing, hnone]

theorem roomsShowing_of_room {e : ChatMessage} (htype : e.type = .str generalType)
    (hall : Tab.addressee e = .str broadcastId) {room : PublicRoomId}
    (hroom : e.roomId.coalesce (.str PublicRoomId.general.text) = .str room.text) :
    roomsShowing e = 1 := by
  have hshown : ∀ r, isPublicRoomMessage e r = (room.text == r.text) := by
    intro r
    rw [isPublicRoomMessage, effectiveType_of_type htype, hall, hroom]
    rfl
  simp only [roomsShowing, publicRooms, List.countP_cons, List.countP_nil, hshown]
  cases room <;> decide

theorem rowsShowing_of_general (tab : Tab H) {e : ChatMessage}
    (h : e.type = .str generalType) : rowsShowing tab e = 0 := by
  have hnone : ∀ other, isPrivateMessageWith e other = false := by
    intro other
    rw [isPrivateMessageWith, effectiveType_of_type h]
    exact if_pos rfl
  simp [rowsShowing, hnone]

theorem strictEq_comm_str (s : JsString) (value : JsValue) :
    (JsValue.str s).strictEq value = value.strictEq (.str s) := by
  cases value with
  | str r => exact Bool.beq_comm
  | _ => rfl

theorem rowsShowing_of_partner (tab : Tab H) {e : ChatMessage} {p : JsString}
    (he : e ∈ tab.messages)
    (hshown : ∀ other, isPrivateMessageWith e other = (JsValue.str p).strictEq other)
    (hpartner : conversationPartner e = .str p) (hne : p ≠ [])
    (hme : p ≠ tab.peerId) : rowsShowing tab e = 1 := by
  have hrows : rowsShowing tab e = rows tab.directMessagesPeerList p := by
    unfold rowsShowing rows
    simp only [hshown, strictEq_comm_str]
  have hspoken : (tab.messages.any fun m =>
      (conversationPartner m).strictEq (.str p)) = true :=
    List.any_eq_true.mpr ⟨e, he, by rw [hpartner]; simp⟩
  rw [hrows, Tab.directMessagesPeerList, rows_directMessagesPeerList, hspoken]
  simp [hne, hme]

theorem Placed.shownOnce {tab : Tab H} {e : ChatMessage}
    (h : Placed tab.peerId e) (he : e ∈ tab.messages) : ShownOnce tab e := by
  cases h with
  | inRoom htype hall hroom =>
      exact .inl ⟨roomsShowing_of_room htype hall hroom,
        rowsShowing_of_general tab htype⟩
  | @received htype hother p hpeer hne hme =>
      refine .inr ⟨roomsShowing_of_private htype,
        rowsShowing_of_partner tab he ?_ ?_ hne hme⟩
      · intro other
        rw [isPrivateMessageWith, effectiveType_of_type htype, hother, hpeer]
        simp [JsValue.truthy]
      · rw [conversationPartner, hother, hpeer]
        rfl
  | @sent htype hmine p hto hne hall hme =>
      refine .inr ⟨roomsShowing_of_private htype,
        rowsShowing_of_partner tab he ?_ ?_ hne hme⟩
      · intro other
        rw [isPrivateMessageWith, effectiveType_of_type htype, hmine, hto]
        simp [JsValue.truthy, JsValue.coalesce, JsValue.isNullish]
      · simp [conversationPartner, hmine, hto, JsValue.truthy, hall]

/-! ## Runs -/

def NamesPeer (p : JsString) : Prop := p ≠ [] ∧ p ≠ broadcastId

theorem namesPeer_of_spells {p : JsString} {pk : PublicKey} (h : Spells H p pk) :
    NamesPeer p :=
  ⟨(keySized_of_spells h).ne_nil, (keySized_of_spells h).ne_broadcastId⟩

/--
Payloads that one of the filters takes: public ones for no room or a room of the
list, and private ones of another peer.
-/
def placeable (me : JsString) (m : ChatMessage) : Bool :=
  ((Tab.effectiveType m).strictEq (.str generalType) &&
    (Tab.addressee m).strictEq (.str broadcastId) &&
    publicRooms.any fun room =>
      (m.roomId.coalesce (.str PublicRoomId.general.text)).strictEq
        (.str room.text)) ||
  ((Tab.effectiveType m).strictEq (.str privateType) &&
    !m.peerId.strictEq (.str me))

theorem placed_incoming {me : JsString} {m e : ChatMessage}
    (h : Tab.incoming H me m = some e) (hplaceable : placeable me m = true) :
    Placed me e := by
  obtain ⟨p, pk, hp, hspells⟩ := spells_of_incoming h
  obtain ⟨-, -, -, -, rfl⟩ := (Tab.incoming_eq_some_iff me m e).mp h
  simp only [placeable, Bool.or_eq_true, Bool.and_eq_true, List.any_eq_true,
    JsValue.strictEq_str_iff, Bool.not_eq_true', JsValue.strictEq_str_false_iff]
    at hplaceable
  rcases hplaceable with ⟨⟨htype, hall⟩, room, -, hroom⟩ | ⟨htype, hme⟩
  · exact .inRoom htype hall hroom
  · rw [hp] at hme
    refine .received htype ?_ hp (keySized_of_spells hspells).ne_nil ?_
    · simp only [hp, JsValue.str_strictEq_str, JsValue.bool.injEq, beq_eq_false_iff_ne]
      exact fun heq => hme (by rw [heq])
    · exact fun heq => hme (by rw [heq])

structure FacesOther (tab : Tab H) : Prop where
  direct : tab.activeView = .direct → tab.activeDirectPeerId ≠ .str tab.peerId
  blank : tab.isInitialized = false →
    tab.onlinePeers = [] ∧ tab.activeView = .publicRoom

theorem FacesOther.of_public {tab : Tab H} (hview : tab.activeView = .publicRoom)
    (honline : tab.isInitialized = false → tab.onlinePeers = []) :
    FacesOther tab where
  direct h := by
    rw [hview] at h
    cases h
  blank h := ⟨honline h, hview⟩

theorem loadStored_view (b : BrowserId) (storage : LocalStorage) :
    ((Tab.fresh H b).loadStored storage).activeView = .publicRoom ∧
      ((Tab.fresh H b).loadStored storage).onlinePeers = [] := by
  unfold Tab.loadStored
  split
  · exact ⟨rfl, rfl⟩
  split
  · split <;> exact ⟨rfl, rfl⟩
  · exact ⟨rfl, rfl⟩

theorem loadEffect_view (tab : Tab H) (storage : LocalStorage) :
    (tab.loadEffect storage).activeView = tab.activeView ∧
      (tab.loadEffect storage).onlinePeers = tab.onlinePeers := by
  unfold Tab.loadEffect
  split
  · exact ⟨rfl, rfl⟩
  split
  · exact ⟨rfl, rfl⟩
  split <;> exact ⟨rfl, rfl⟩

theorem onRelayEvent_view (tab : Tab H) (event : RelayEvent) :
    (tab.onRelayEvent event).activeView = tab.activeView ∧
      (tab.onRelayEvent event).activeDirectPeerId = tab.activeDirectPeerId := by
  cases event with
  | onlineList list => exact ⟨rfl, rfl⟩
  | userOnline user =>
      simp only [Tab.onRelayEvent, Tab.onUserOnline]
      split
      · exact ⟨rfl, rfl⟩
      · split <;> exact ⟨rfl, rfl⟩
  | userOffline data =>
      simp only [Tab.onRelayEvent, Tab.onUserOffline]
      split
      · exact ⟨rfl, rfl⟩
      · split <;> exact ⟨rfl, rfl⟩
  | message payload =>
      simp only [Tab.onRelayEvent, Tab.onMessage]
      split <;> exact ⟨rfl, rfl⟩

theorem pubKey_ne_of_listed {tab : Tab H} {peer : ListedPeer}
    (h : peer ∈ tab.directMessagesPeerList) : peer.pubKey ≠ .str tab.peerId := by
  intro hme
  have hpos : 0 < rows tab.directMessagesPeerList tab.peerId :=
    (rows_pos_iff _ _).mpr (List.any_eq_true.mpr ⟨peer, h, by rw [hme]; simp⟩)
  rw [Tab.directMessagesPeerList, rows_directMessagesPeerList] at hpos
  simp at hpos

namespace Clients

theorem facesOther_of_change {c c' : Clients H} {a : ClientAction}
    (hstep : c.AllInStep) (h : ∀ t tab, c.tabs t = some tab → FacesOther tab)
    (hchange : Change c a c') : ∀ t tab, c'.tabs t = some tab → FacesOther tab := by
  refine forall_tabs_of_change hchange h ?_ ?_ ?_ ?_ ?_ ?_ ?_
  · intro b storage
    obtain ⟨hview, honline⟩ := loadStored_view (H := H) b storage
    obtain ⟨hview', honline'⟩ :=
      loadEffect_view ((Tab.fresh H b).loadStored storage) storage
    exact .of_public (hview'.trans hview) (fun _ => honline'.trans honline)
  · intro t tab storage name random htab hnew
    obtain ⟨honline, hview⟩ := (h t tab htab).blank hnew
    obtain ⟨hview', honline'⟩ := loadEffect_view
      (tab.adopt (createIdentity H.ed25519 random) name) storage
    exact .of_public (hview'.trans hview) (fun _ => honline'.trans honline)
  · exact fun t tab _ htab _ => ⟨(h t tab htab).direct, (h t tab htab).blank⟩
  · exact fun t tab _ htab => .of_public rfl fun hnew => ((h t tab htab).blank hnew).1
  · intro t tab peer htab hpeer
    refine ⟨fun _ => pubKey_ne_of_listed hpeer, ?_⟩
    intro hnew
    obtain ⟨honline, -⟩ := (h t tab htab).blank hnew
    have hnil := (hstep t tab htab).messages_eq_nil hnew
    rcases mem_directMessagesPeerList hpeer with ⟨q, hq, -⟩ | ⟨m, hm, -⟩
    · rw [honline] at hq
      cases hq
    · rw [hnil] at hm
      cases hm
  · exact fun t tab _ _ _ _ htab _ => ⟨(h t tab htab).direct, (h t tab htab).blank⟩
  · intro t tab event _ htab hwants
    obtain ⟨hview, hpeer⟩ := onRelayEvent_view tab event
    obtain ⟨-, hid, hinit, -⟩ := onRelayEvent_identity tab event
    refine ⟨?_, ?_⟩
    · rw [hview, hpeer, hid]
      exact (h t tab htab).direct
    · rw [hinit]
      intro hnew
      simp [Tab.wantsSocket, hnew] at hwants

theorem facesOther_of_reach {ok : Clients H → ClientAction → Prop} {c : Clients H}
    (hc : (system H).Reach ok c) : ∀ t tab, c.tabs t = some tab → FacesOther tab :=
  hc.invariant (I := fun c => ∀ t tab, c.tabs t = some tab → FacesOther tab)
    nofun fun _ _ _ hreach h _ hnext =>
      facesOther_of_change (allInStep_of_reach hreach) h (change_of_step hnext)

theorem placed_composed {tab : Tab H} (hgood : GoodTab NamesPeer tab)
    (hfaces : FacesOther tab) {input : JsString} {now : Nat} {random : JsString}
    {msg : ChatMessage} (h : tab.composeMessage input now random = some msg) :
    Placed tab.peerId msg := by
  obtain ⟨-, -, identity, -, rfl⟩ := Tab.composeMessage_eq_some h
  cases hprivate : tab.isPrivate with
  | false =>
      by_cases hview : tab.activeView = .publicRoom
      · refine @Placed.inRoom _ _ (by simp) rfl tab.activePublicRoomId ?_
        simp only [hview, if_true]
        rfl
      · refine @Placed.inRoom _ _ (by simp) rfl .general ?_
        simp only [hview, if_false]
        rfl
  | true =>
      have hview : tab.activeView = .direct := by
        simp only [Tab.isPrivate, Bool.and_eq_true, decide_eq_true_eq] at hprivate
        exact hprivate.1
      obtain ⟨p, ⟨hne, hall⟩, hpeer⟩ := hgood.direct hview
      have hme := hfaces.direct hview
      refine .sent (by simp) rfl (p := p) (by simp [hpeer]) hne hall ?_
      rintro rfl
      exact hme hpeer

/--
What is delivered can be placed: payloads that are accepted under a new id are
placeable, and presence events announce peers by ids other than the sentinel.
-/
def DeliversPlaceable (c : Clients H) : ClientAction → Prop
  | .receive t (.message payload) => ∀ tab, c.tabs t = some tab →
      Accepted H tab.peerId (.ofJs payload) →
      (∀ m ∈ tab.messages, m.id.strictEq (ChatMessage.ofJs payload).id = false) →
      placeable tab.peerId (.ofJs payload) = true
  | .receive _ event => GoodEvent NamesPeer event
  | _ => True

theorem goodEvent_of_deliversPlaceable {c : Clients H} {t : TabId}
    {event : RelayEvent} (h : c.DeliversPlaceable (.receive t event)) :
    GoodEvent NamesPeer event := by
  cases event with
  | message payload => trivial
  | _ => exact h

theorem placed_of_reach {c : Clients H}
    (hc : (system H).Reach DeliversPlaceable c) : AllEntries Placed c := by
  refine hc.invariant (I := AllEntries Placed) (allEntries_initial _) ?_
  intro c a c' hreach h hok hnext
  have hgood : c.PeersGood NamesPeer :=
    peersGood_of_reach (fun _ _ => namesPeer_of_spells) (fun _ hp => hp.1)
      (fun _ _ _ => goodEvent_of_deliversPlaceable) hreach
  have happend : ∀ t tab e, c.tabs t = some tab → Placed tab.peerId e →
      ∀ e' ∈ tab.messages ++ [e], Placed tab.peerId e' := by
    intro t tab e htab hnew e' he'
    rcases List.mem_append.mp he' with hold | hlast
    · exact h.listed t tab htab e' hold
    · rw [List.mem_singleton.mp hlast]
      exact hnew
  refine AllLists.change h (allInStep_of_reach hreach) (change_of_step hnext)
    (fun _ => by simp) (fun _ _ hlist => hlist) ?_ ?_ ?_
  · intro me list hlist e he
    obtain ⟨e', he', rfl⟩ := List.mem_map.mp he
    exact (hlist e' (List.mem_of_mem_drop he')).throughJson
  · rintro t input now random msg tab - hsend htab
    obtain ⟨tab', -, htab', -, hmsg, -⟩ := signAndSend_cases hsend
    obtain rfl : tab = tab' := Option.some.inj (htab.symm.trans htab')
    exact happend t tab msg htab (placed_composed (hgood.tabs t tab htab)
      (facesOther_of_reach hreach t tab htab) hmsg)
  · rintro t tab payload e rfl htab hin hfresh
    have hid : e.id = (ChatMessage.ofJs payload).id := by
      obtain ⟨-, -, -, -, rfl⟩ := (Tab.incoming_eq_some_iff _ _ e).mp hin
      rfl
    rw [hid] at hfresh
    exact happend t tab e htab
      (placed_incoming hin (hok tab htab (accepted_of_incoming hin) hfresh))

/-- If only placeable payloads are listed, every entry is shown in one place. -/
theorem shown_once_of_reach {c : Clients H}
    (hc : (system H).Reach DeliversPlaceable c) {t : TabId} {tab : Tab H}
    (htab : c.tabs t = some tab) : ∀ e ∈ tab.messages, ShownOnce tab e := by
  intro e he
  exact ((placed_of_reach hc).listed t tab htab e he).shownOnce he

def plainPrivate (n : UInt8) (id text : JsString) : ChatMessage :=
  { plainMessage n id text with
    recipient := .str (plainPeer 1)
    type := .str privateType
    roomId := .undefined }

def placesAll (c : Clients plainHost) : ClientAction → Bool
  | .receive t (.message payload) =>
      (c.tabs t).all fun tab => placeable tab.peerId (.ofJs payload)
  | .receive .. => false
  | _ => true

theorem deliversPlaceable_of_placesAll (c : Clients plainHost) (a : ClientAction)
    (h : c.placesAll a = true) : c.DeliversPlaceable a := by
  cases a with
  | receive t event =>
      cases event with
      | message payload =>
          intro tab htab _ _
          simpa [placesAll, htab] using h
      | _ => cases h
  | _ => trivial

theorem shown_once_of_reply :
    ∃ c : Clients plainHost, (system plainHost).Reach DeliversPlaceable c ∧
      ∃ tab, c.tabs 0 = some tab ∧ tab.messages.length = 3 ∧
        ∀ e ∈ tab.messages, ShownOnce tab e := by
  obtain ⟨c, hc, hcheck⟩ := System.exists_reach_of_exec
    (system plainHost) DeliversPlaceable placesAll
    ([.load 0, .handleInitialize 0 (js "P") (plainKey 1),
      .receive 0 (.message (plainMessage 2 (js "x") (js "a")).toJs),
      .receive 0 (.message (plainPrivate 2 (js "y") (js "b")).toJs),
      .openDirectWith 0 0, .signAndSend 0 (js "hi") 7 (js "z")])
    (fun c => (c.tabs 0).any fun tab => tab.messages.length = 3)
    deliversPlaceable_of_placesAll (by decide +kernel)
  simp only [Option.any_eq_true, decide_eq_true_eq] at hcheck
  obtain ⟨tab, htab, hlen⟩ := hcheck
  exact ⟨c, hc, tab, htab, hlen, shown_once_of_reach hc htab⟩

theorem not_shown_of_general_to_one :
    ¬ ∀ (H : Host) (c : Clients H),
      (system H).Reach (fun _ a => a.stringPayload = true) c →
      ∀ t tab, c.tabs t = some tab → ∀ e ∈ tab.messages, ShownOnce tab e := by
  intro hall
  obtain ⟨c, hc, hcheck⟩ := System.exists_reach_of_exec
    (system plainHost) (fun _ a => a.stringPayload = true)
    (fun _ a => a.stringPayload)
    ([.load 0, .handleInitialize 0 (js "P") (plainKey 1),
      .receive 0 (.message { plainMessage 2 (js "x") (js "a") with
        recipient := .str (plainPeer 1) }.toJs)])
    (fun c => (c.tabs 0).any fun tab => tab.messages.any fun e =>
      roomsShowing e = 0 && rowsShowing tab e = 0)
    (fun _ _ h => h) (by decide +kernel)
  simp only [Option.any_eq_true, List.any_eq_true, Bool.and_eq_true,
    decide_eq_true_eq] at hcheck
  obtain ⟨tab, htab, e, he, hrooms, hrows⟩ := hcheck
  rcases hall plainHost c hc 0 tab htab e he with ⟨hone, -⟩ | ⟨-, hone⟩
  · rw [hrooms] at hone
    cases hone
  · rw [hrows] at hone
    cases hone

end Clients

end CommonChat.Frontend
