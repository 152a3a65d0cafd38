import CommonChat.Frontend.Views

/-!
# Declared types

The types that the page declares for entries and peers, which no code checks
when they come from the network.  `TypedPayload` and `TypedEvent` say what has
to arrive for the declarations to hold of what the handlers list.
-/

namespace CommonChat.Frontend

open CommonChat.Foundation
open CommonChat.Core
open CommonChat.Relay

variable {H : Host}

structure WellTyped (e : ChatMessage) : Prop where
  id_str : ∃ s, e.id = .str s
  displayName_str : ∃ s, e.displayName = .str s
  at_num : ∃ n, e.at = .num (.finite n)
  type_known : e.type = .str generalType ∨ e.type = .str privateType

/-- A payload has the declared types; the type may be left to the handler. -/
structure TypedPayload (m : ChatMessage) : Prop where
  id_str : ∃ s, m.id = .str s
  displayName_str : ∃ s, m.displayName = .str s
  at_num : ∃ n, m.at = .num (.finite n)
  type_known : m.type.isNullish = true ∨ m.type = .str generalType ∨
    m.type = .str privateType

def isTypedPayload (m : ChatMessage) : Bool :=
  match m.id, m.displayName, m.at with
  | .str _, .str _, .num (.finite _) => m.type.isNullish ||
      m.type.strictEq (.str generalType) || m.type.strictEq (.str privateType)
  | _, _, _ => false

theorem typedPayload_of_isTypedPayload {m : ChatMessage}
    (h : isTypedPayload m = true) : TypedPayload m := by
  unfold isTypedPayload at h
  split at h
  · rename_i id name n hid hname hat
    simp only [Bool.or_eq_true, JsValue.strictEq_str_iff, or_assoc] at h
    exact ⟨⟨id, hid⟩, ⟨name, hname⟩, ⟨n, hat⟩, h⟩
  · cases h

structure TypedPeer (q : Peer) : Prop where
  id_str : ∃ s, q.id = .str s
  name_str : ∃ s, q.name = .str s
  pubKey_str : ∃ s, q.pubKey = .str s

def TypedEvent (H : Host) (me : JsString) : RelayEvent → Prop
  | .onlineList list => ∃ items, list = .arr items ∧
      ∀ item ∈ items, TypedPeer (Peer.ofJs item)
  | .userOnline user => ∃ p n, user = Server.peerObject (.str p) (.str n)
  | .userOffline _ => True
  | .message payload => Accepted H me (.ofJs payload) →
      TypedPayload (.ofJs payload)

/-! ## Entries -/

theorem WellTyped.throughJson {e : ChatMessage} (h : WellTyped e) :
    WellTyped e.throughJson := by
  obtain ⟨⟨id, hid⟩, ⟨name, hname⟩, ⟨n, hat⟩, htype⟩ := h
  refine ⟨⟨id, ?_⟩, ⟨name, ?_⟩, ⟨n, ?_⟩, htype.imp ?_ ?_⟩
  · rw [ChatMessage.throughJson, hid, JsValue.throughJson_str]
  · rw [ChatMessage.throughJson, hname, JsValue.throughJson_str]
  · rw [ChatMessage.throughJson, hat]
    rfl
  · intro htype
    rw [ChatMessage.throughJson, htype, JsValue.throughJson_str]
  · intro htype
    rw [ChatMessage.throughJson, htype, JsValue.throughJson_str]

theorem WellTyped.payload {e : ChatMessage} (h : WellTyped e) : TypedPayload e :=
  ⟨h.id_str, h.displayName_str, h.at_num, .inr h.type_known⟩

theorem wellTyped_composed {tab : Tab H} {input : JsString} {now : Nat}
    {random : JsString} {msg : ChatMessage}
    (h : tab.composeMessage input now random = some msg) : WellTyped msg := by
  obtain ⟨-, -, identity, -, rfl⟩ := Tab.composeMessage_eq_some h
  refine ⟨⟨_, rfl⟩, ⟨_, rfl⟩, ⟨_, rfl⟩, ?_⟩
  cases tab.isPrivate with
  | false => exact .inl rfl
  | true => exact .inr rfl

theorem effectiveType_known {m : ChatMessage} (h : TypedPayload m) :
    Tab.effectiveType m = .str generalType ∨
      Tab.effectiveType m = .str privateType := by
  rcases h.type_known with hnone | htype | htype
  · simp only [Tab.effectiveType, JsValue.coalesce, hnone, if_true]
    split
    · exact .inl rfl
    · exact .inr rfl
  · rw [Tab.effectiveType, htype]
    exact .inl rfl
  · rw [Tab.effectiveType, htype]
    exact .inr rfl

theorem wellTyped_incoming {me : JsString} {m e : ChatMessage}
    (h : Tab.incoming H me m = some e) (hm : TypedPayload m) : WellTyped e := by
  obtain ⟨-, -, -, -, rfl⟩ := (Tab.incoming_eq_some_iff me m e).mp h
  exact ⟨hm.id_str, hm.displayName_str, hm.at_num, effectiveType_known hm⟩

/-! ## Peers -/

theorem typedPeer_peerObject (p n : JsString) :
    TypedPeer (Peer.ofJs (Server.peerObject (.str p) (.str n))) :=
  ⟨⟨p, rfl⟩, ⟨n, rfl⟩, ⟨p, rfl⟩⟩

theorem typedPeers_onRelayEvent {tab : Tab H}
    (h : ∀ q ∈ tab.onlinePeers, TypedPeer q) {event : RelayEvent}
    (hevent : TypedEvent H tab.peerId event) :
    ∀ q ∈ (tab.onRelayEvent event).onlinePeers, TypedPeer q := by
  cases event with
  | onlineList list =>
      obtain ⟨items, rfl, hitems⟩ := hevent
      intro q hq
      obtain ⟨item, hitem, rfl⟩ := List.mem_map.mp hq
      exact hitems item hitem
  | userOnline user =>
      obtain ⟨p, n, rfl⟩ := hevent
      simp only [Tab.onRelayEvent, Tab.onUserOnline]
      split
      · exact h
      split
      · exact h
      intro q hq
      rcases List.mem_append.mp hq with hq | hq
      · exact h q (List.mem_of_mem_filter hq)
      · rw [List.mem_singleton.mp hq]
        exact typedPeer_peerObject p n
  | userOffline data =>
      simp only [Tab.onRelayEvent, Tab.onUserOffline]
      split
      · exact h
      split
      · exact h
      exact fun q hq => h q (List.mem_of_mem_filter hq)
  | message payload =>
      simp only [Tab.onRelayEvent, Tab.onMessage]
      split <;> exact h

/-! ## Runs -/

namespace Clients

structure Typed (c : Clients H) : Prop where
  entries : AllEntries (fun _ e => WellTyped e) c
  peers : ∀ t tab, c.tabs t = some tab → ∀ q ∈ tab.onlinePeers, TypedPeer q

theorem Typed.change {c c' : Clients H} {a : ClientAction} (h : c.Typed)
    (hstep : c.AllInStep)
    (hevent : ∀ t tab event, a = .receive t event → c.tabs t = some tab →
      TypedEvent H tab.peerId event)
    (hchange : Change c a c') : c'.Typed where
  entries := by
    refine h.entries.change hstep hchange (fun _ _ he => he)
      (fun _ _ he => he.throughJson) ?_ ?_
    · rintro t input now random msg tab - hsend -
      obtain ⟨tab', -, -, -, hmsg, -⟩ := signAndSend_cases hsend
      exact wellTyped_composed hmsg
    · rintro t tab payload e rfl htab hin
      have htyped : TypedEvent H tab.peerId (.message payload) :=
        hevent t tab _ rfl htab
      exact wellTyped_incoming hin (htyped (accepted_of_incoming hin))
  peers := by
    refine forall_tabs_of_change
      (P := fun tab => ∀ q ∈ tab.onlinePeers, TypedPeer q) hchange h.peers
      ?_ ?_ ?_ ?_ ?_ ?_ ?_
    · intro b storage
      rw [(loadEffect_view _ storage).2, (loadStored_view b storage).2]
      nofun
    · intro t tab storage name random htab _
      rw [(loadEffect_view _ storage).2]
      exact h.peers t tab htab
    · exact fun t tab _ htab _ => h.peers t tab htab
    · exact fun t tab _ htab => h.peers t tab htab
    · exact fun t tab _ htab _ => h.peers t tab htab
    · exact fun t tab _ _ _ _ htab _ => h.peers t tab htab
    · exact fun t tab event ha htab _ =>
        typedPeers_onRelayEvent (h.peers t tab htab) (hevent t tab event ha htab)

theorem typed_of_reach {ok : Clients H → ClientAction → Prop}
    (hok : ∀ c t tab event, ok c (.receive t event) → c.tabs t = some tab →
      TypedEvent H tab.peerId event)
    {c : Clients H} (hc : (system H).Reach ok c) : c.Typed := by
  refine hc.invariant ⟨allEntries_initial _, fun _ _ htab => by cases htab⟩ ?_
  intro c a c' hreach h hguard hnext
  refine h.change (allInStep_of_reach hreach) ?_ (change_of_step hnext)
  rintro t tab event rfl htab
  exact hok c t tab event hguard htab

end Clients

end CommonChat.Frontend
