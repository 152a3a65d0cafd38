import CommonChat.Frontend.Lists
import CommonChat.Frontend.PeerId

/-!
# The peers a user can open

The list of direct-message peers is fed by the online list, by presence events
and by past messages.  `Good` is any property of peer ids that every spelling of
a key has; if the relay only announces good ids, then good ids are all that a
tab can open.
-/

namespace CommonChat.Frontend

open CommonChat.Foundation
open CommonChat.Core
open CommonChat.Relay

variable {H : Host} {Good : JsString → Prop}

def GoodKey (Good : JsString → Prop) (value : JsValue) : Prop :=
  ∃ p, Good p ∧ value = .str p

def GoodEvent (Good : JsString → Prop) : RelayEvent → Prop
  | .onlineList list => ∃ items, list = .arr items ∧
      ∀ item ∈ items, GoodKey Good (item.field (js "pubKey"))
  | .userOnline user => GoodKey Good ((user.field (js "peerId")).coalesce
      ((user.field (js "id")).coalesce (user.field (js "pubKey"))))
  | _ => True

structure GoodTab (Good : JsString → Prop) (tab : Tab H) : Prop where
  online : ∀ q ∈ tab.onlinePeers, GoodKey Good q.pubKey
  direct : tab.activeView = .direct → GoodKey Good tab.activeDirectPeerId

inductive GoodEntry (Good : JsString → Prop) (me : JsString) (e : ChatMessage) :
    Prop
  | toNobody (hme : e.fromMe = .bool true) (hnone : e.recipient.isNullish = true)
  | toAll (hme : e.fromMe = .bool true) (hall : e.recipient = .str broadcastId)
  | toSelf (hme : e.fromMe = .bool true) (hself : e.recipient = .str me)
  | toPeer (hme : e.fromMe = .bool true) (hpeer : GoodKey Good e.recipient)
  | fromPeer (hother : e.fromMe = .bool false) (hpeer : GoodKey Good e.peerId)

theorem GoodEntry.partner {me : JsString} {e : ChatMessage}
    (h : GoodEntry Good me e)
    (hother : isOtherPeer me (conversationPartner e) = true) :
    GoodKey Good (conversationPartner e) := by
  simp only [isOtherPeer, Bool.and_eq_true, Bool.not_eq_true'] at hother
  obtain ⟨htruthy, hme⟩ := hother
  cases h with
  | toNobody hfrom hnone =>
      cases hr : e.recipient with
      | undefined =>
          simp [conversationPartner, hfrom, hr, JsValue.truthy, JsValue.strictEq]
            at htruthy
      | null =>
          simp [conversationPartner, hfrom, hr, JsValue.truthy, JsValue.strictEq]
            at htruthy
      | _ =>
          rw [hr] at hnone
          cases hnone
  | toAll hfrom hall =>
      simp [conversationPartner, hfrom, hall, JsValue.truthy] at htruthy
  | toSelf hfrom hself =>
      simp only [conversationPartner, hfrom, hself, JsValue.truthy, if_true] at *
      split at hme
      · simp at hme
      · rename_i hall
        rw [if_neg hall] at htruthy
        cases htruthy
  | toPeer hfrom hpeer =>
      simp only [conversationPartner, hfrom, JsValue.truthy, if_true] at htruthy ⊢
      split
      · exact hpeer
      · rename_i hall
        rw [if_neg hall] at htruthy
        cases htruthy
  | fromPeer hfrom hpeer =>
      simp only [conversationPartner, hfrom, JsValue.truthy]
      exact hpeer

theorem GoodKey.throughJson {value : JsValue} (h : GoodKey Good value) :
    GoodKey Good value.throughJson := by
  obtain ⟨p, hp, rfl⟩ := h
  exact ⟨p, hp, rfl⟩

theorem GoodEntry.throughJson {me : JsString} {e : ChatMessage}
    (h : GoodEntry Good me e) : GoodEntry Good me e.throughJson := by
  cases h with
  | toNobody hme hnone =>
      refine .toNobody (by rw [ChatMessage.throughJson, hme]; rfl) ?_
      simp only [ChatMessage.throughJson]
      cases hr : e.recipient with
      | undefined => rfl
      | null => rfl
      | _ =>
          rw [hr] at hnone
          cases hnone
  | toAll hme hall =>
      exact .toAll (by rw [ChatMessage.throughJson, hme]; rfl)
        ((JsValue.throughJson_eq_str_iff _ _).mpr hall)
  | toSelf hme hself =>
      exact .toSelf (by rw [ChatMessage.throughJson, hme]; rfl)
        ((JsValue.throughJson_eq_str_iff _ _).mpr hself)
  | toPeer hme hpeer =>
      exact .toPeer (by rw [ChatMessage.throughJson, hme]; rfl) hpeer.throughJson
  | fromPeer hother hpeer =>
      exact .fromPeer (by rw [ChatMessage.throughJson, hother]; rfl)
        hpeer.throughJson

/-! ## The two places where lists grow -/

theorem goodEntry_composed {tab : Tab H} (htab : GoodTab Good tab)
    {input : JsString} {now : Nat} {random : JsString} {msg : ChatMessage}
    (h : tab.composeMessage input now random = some msg) :
    GoodEntry Good tab.peerId msg := by
  obtain ⟨-, -, identity, -, rfl⟩ := Tab.composeMessage_eq_some h
  cases hprivate : tab.isPrivate with
  | false => exact .toAll rfl rfl
  | true =>
      have hview : tab.activeView = .direct := by
        simp only [Tab.isPrivate, Bool.and_eq_true, decide_eq_true_eq] at hprivate
        exact hprivate.1
      exact .toPeer rfl (by simpa [hprivate] using htab.direct hview)

theorem recipient_of_addressee {m : ChatMessage} {s : JsString}
    (h : Tab.addressee m = .str s) :
    m.recipient.isNullish = true ∨ m.recipient = .str s := by
  unfold Tab.addressee JsValue.coalesce at h
  split at h
  · rename_i hnone
    exact .inl hnone
  · exact .inr h

theorem goodEntry_incoming (hspell : ∀ p pk, Spells H p pk → Good p)
    {me : JsString} {m e : ChatMessage} (h : Tab.incoming H me m = some e) :
    GoodEntry Good me e := by
  obtain ⟨p, pk, hp, hspells⟩ := spells_of_incoming h
  obtain ⟨-, -, -, haddressed, rfl⟩ := (Tab.incoming_eq_some_iff me m e).mp h
  by_cases hme : p = me
  · have hfrom : JsValue.bool (m.peerId.strictEq (.str me)) = .bool true := by
      rw [hp, hme]
      simp
    rcases haddressed with hall | hself
    · rcases recipient_of_addressee hall with hnone | hstr
      · exact .toNobody hfrom hnone
      · exact .toAll hfrom hstr
    · rcases recipient_of_addressee hself with hnone | hstr
      · exact .toNobody hfrom hnone
      · exact .toSelf hfrom hstr
  · refine .fromPeer ?_ ⟨p, hspell p pk hspells, hp⟩
    simp [hp, hme]

/-! ## Tabs -/

theorem GoodTab.of_same {tab tab' : Tab H} (h : GoodTab Good tab)
    (honline : tab'.onlinePeers = tab.onlinePeers)
    (hview : tab'.activeView = tab.activeView)
    (hdirect : tab'.activeDirectPeerId = tab.activeDirectPeerId) :
    GoodTab Good tab' := by
  refine ⟨?_, ?_⟩
  · rw [honline]
    exact h.online
  · rw [hview, hdirect]
    exact h.direct

theorem GoodTab.loadEffect {tab : Tab H} (h : GoodTab Good tab)
    (storage : LocalStorage) : GoodTab Good (tab.loadEffect storage) := by
  unfold Tab.loadEffect
  split
  · exact h
  split
  · exact h
  split
  · exact h.of_same rfl rfl rfl
  · exact h

theorem goodTab_loadStored (b : BrowserId) (storage : LocalStorage) :
    GoodTab Good ((Tab.fresh H b).loadStored storage) := by
  have hfresh : GoodTab Good (Tab.fresh H b) := ⟨nofun, nofun⟩
  unfold Tab.loadStored
  split
  · exact hfresh.of_same rfl rfl rfl
  split
  · split <;> exact hfresh.of_same rfl rfl rfl
  · exact hfresh.of_same rfl rfl rfl

theorem GoodTab.onRelayEvent {tab : Tab H} (h : GoodTab Good tab)
    {event : RelayEvent} (hevent : GoodEvent Good event) :
    GoodTab Good (tab.onRelayEvent event) := by
  cases event with
  | onlineList list =>
      obtain ⟨items, rfl, hitems⟩ := hevent
      refine ⟨?_, h.direct⟩
      intro q hq
      obtain ⟨item, hitem, rfl⟩ := List.mem_map.mp hq
      exact hitems item hitem
  | userOnline user =>
      simp only [Tab.onRelayEvent, Tab.onUserOnline]
      split
      · exact h
      split
      · exact h
      refine ⟨?_, h.direct⟩
      intro q hq
      rcases List.mem_append.mp hq with hq | hq
      · exact h.online q (List.mem_of_mem_filter hq)
      · rw [List.mem_singleton.mp hq]
        exact hevent
  | userOffline data =>
      simp only [Tab.onRelayEvent, Tab.onUserOffline]
      split
      · exact h
      split
      · exact h
      exact ⟨fun q hq => h.online q (List.mem_of_mem_filter hq), h.direct⟩
  | message payload =>
      simp only [Tab.onRelayEvent, Tab.onMessage]
      split
      · exact h
      · exact h.of_same rfl rfl rfl

def GoodSend (Good : JsString → Prop) (sent : Composed) : Prop :=
  match sent.directPeer with
  | some peer => ∃ p, Good p ∧ peer = .str p ∧
      sent.message.type = .str privateType ∧ sent.message.recipient = .str p
  | none => sent.message.type = .str generalType ∧
      sent.message.recipient = .str broadcastId

theorem goodSend_composed (hne : ∀ p, Good p → p ≠ []) {tab : Tab H}
    (htab : GoodTab Good tab) {input : JsString} {now : Nat}
    {random : JsString} {sent : Composed}
    (h : tab.composeMessage input now random = some sent.message)
    (hdirect : sent.directPeer = if tab.activeView = .direct
      then some tab.activeDirectPeerId else none) : GoodSend Good sent := by
  obtain ⟨-, -, _, -, hmsg⟩ := Tab.composeMessage_eq_some h
  unfold GoodSend
  by_cases hview : tab.activeView = .direct
  · obtain ⟨p, hp, hpeer⟩ := htab.direct hview
    have hprivate : tab.isPrivate = true := by
      simp [Tab.isPrivate, hview, hpeer, hne p hp]
    rw [hdirect, if_pos hview, hmsg]
    refine ⟨p, hp, hpeer, ?_, ?_⟩
    · simp [hprivate]
    · simp [hprivate, hpeer]
  · have hpublic : tab.isPrivate = false := by simp [Tab.isPrivate, hview]
    rw [hdirect, if_neg hview, hmsg]
    simp [hpublic]

namespace Clients

/-- Whatever a user can see, open or send to is good. -/
structure PeersGood (Good : JsString → Prop) (c : Clients H) : Prop where
  tabs : ∀ t tab, c.tabs t = some tab → GoodTab Good tab
  entries : AllEntries (GoodEntry Good) c
  sends : ∀ sent ∈ c.composed, GoodSend Good sent

theorem PeersGood.listed {c : Clients H} (h : c.PeersGood Good) {t : TabId}
    {tab : Tab H} (htab : c.tabs t = some tab) {peer : ListedPeer}
    (hpeer : peer ∈ tab.directMessagesPeerList) : GoodKey Good peer.pubKey := by
  rcases mem_directMessagesPeerList hpeer with
    ⟨q, hq, hkey⟩ | ⟨m, hm, hkey, hother⟩
  · rw [hkey]
    exact (h.tabs t tab htab).online q hq
  · rw [hkey] at hother ⊢
    exact (h.entries.listed t tab htab m hm).partner hother

theorem PeersGood.change {c c' : Clients H} {a : ClientAction}
    (hspell : ∀ p pk, Spells H p pk → Good p) (hne : ∀ p, Good p → p ≠ [])
    (h : c.PeersGood Good) (hstep : c.AllInStep)
    (hgood : ∀ t event, a = .receive t event → GoodEvent Good event)
    (hchange : Change c a c') : c'.PeersGood Good := by
  have hentries : AllEntries (GoodEntry Good) c' := by
    refine h.entries.change hstep hchange (fun _ _ he => he)
      (fun _ _ he => he.throughJson) ?_ ?_
    · rintro t input now random msg tab - hsend htab
      obtain ⟨tab', -, htab', -, hmsg, -⟩ := signAndSend_cases hsend
      obtain rfl : tab = tab' := Option.some.inj (htab.symm.trans htab')
      exact goodEntry_composed (h.tabs t tab htab) hmsg
    · rintro t tab payload e - - hin
      exact goodEntry_incoming hspell hin
  have hsends : ∀ sent ∈ c'.composed, GoodSend Good sent := by
    cases hchange with
    | signAndSend hsend =>
        obtain ⟨tab, -, htab, -, hmsg, rfl⟩ := signAndSend_cases hsend
        intro sent hsent
        rcases List.mem_append.mp hsent with hold | hnew
        · exact h.sends sent hold
        · rw [List.mem_singleton.mp hnew]
          exact goodSend_composed hne (h.tabs _ tab htab) hmsg rfl
    | _ => exact h.sends
  refine ⟨forall_tabs_of_change hchange h.tabs ?_ ?_ ?_ ?_ ?_ ?_ ?_, hentries, hsends⟩
  · exact fun b storage => (goodTab_loadStored b storage).loadEffect storage
  · intro t tab storage name random htab _
    have hadopt : GoodTab Good (tab.adopt (createIdentity H.ed25519 random) name) :=
      (h.tabs t tab htab).of_same rfl rfl rfl
    exact hadopt.loadEffect storage
  · exact fun t tab _ htab _ => (h.tabs t tab htab).of_same rfl rfl rfl
  · exact fun t tab _ htab => ⟨(h.tabs t tab htab).online, nofun⟩
  · exact fun t tab peer htab hpeer =>
      ⟨(h.tabs t tab htab).online, fun _ => h.listed htab hpeer⟩
  · exact fun t tab _ _ _ _ htab _ => (h.tabs t tab htab).of_same rfl rfl rfl
  · exact fun t tab event ha htab _ =>
      (h.tabs t tab htab).onRelayEvent (hgood t event ha)

theorem peersGood_of_reach (hspell : ∀ p pk, Spells H p pk → Good p)
    (hne : ∀ p, Good p → p ≠ []) {ok : Clients H → ClientAction → Prop}
    (hok : ∀ c t event, ok c (.receive t event) → GoodEvent Good event)
    {c : Clients H} (hc : (system H).Reach ok c) : c.PeersGood Good := by
  refine hc.invariant ⟨nofun, allEntries_initial _, nofun⟩ ?_
  intro c a c' hreach h hguard hnext
  refine h.change hspell hne (allInStep_of_reach hreach) ?_ (change_of_step hnext)
  rintro t event rfl
  exact hok c t event hguard

end Clients

end CommonChat.Frontend
