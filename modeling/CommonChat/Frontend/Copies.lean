import CommonChat.Frontend.Admission
import CommonChat.Frontend.Peers

/-!
# Lists of copies

The runs in which tabs receive what tabs have sent, and every message has an id
of its own.  Each entry is then a copy of a sent message, the receiving handler
accepts every message that is for its peer, and no id is listed twice.
-/

namespace CommonChat.Frontend

open CommonChat.Foundation
open CommonChat.Core
open CommonChat.Relay

variable {H : Host}

def ChatMessage.idKey (m : ChatMessage) : JsKey := m.id.key 0

/-- The entry is the message; only the mark of the author may differ. -/
def CopyOf (m e : ChatMessage) : Prop := ∃ b, e = { m with fromMe := .bool b }

theorem CopyOf.refl {m : ChatMessage} {b : Bool} (h : m.fromMe = .bool b) :
    CopyOf m m :=
  ⟨b, by rw [← h]⟩

theorem CopyOf.id_eq {m e : ChatMessage} (h : CopyOf m e) : e.id = m.id := by
  obtain ⟨b, rfl⟩ := h
  rfl

theorem CopyOf.idKey_eq {m e : ChatMessage} (h : CopyOf m e) :
    e.idKey = m.idKey := by
  rw [ChatMessage.idKey, h.id_eq]
  rfl

structure WellSent (m : ChatMessage) : Prop where
  throughJson_eq : m.throughJson = m
  id_str : ∃ s, m.id = .str s
  addressed : (m.type = .str generalType ∧ m.recipient = .str broadcastId) ∨
    (m.type = .str privateType ∧
      ∃ p, p ≠ broadcastId ∧ m.recipient = .str p)

theorem WellSent.private_recipient {m : ChatMessage} (h : WellSent m)
    (htype : m.type = .str privateType) :
    ∃ p, p ≠ broadcastId ∧ m.recipient = .str p := by
  rcases h.addressed with ⟨hgeneral, -⟩ | ⟨-, hp⟩
  · exact absurd (JsValue.str.inj (htype.symm.trans hgeneral)) (by decide)
  · exact hp

theorem WellSent.ofJs_eq {m : ChatMessage} (h : WellSent m) :
    ChatMessage.ofJs m.toJs.throughJson = m := by
  rw [ChatMessage.ofJs_throughJson, ChatMessage.ofJs_toJs, h.throughJson_eq]

theorem WellSent.copy_throughJson {m e : ChatMessage} (h : WellSent m)
    (hcopy : CopyOf m e) : e.throughJson = e := by
  obtain ⟨b, rfl⟩ := hcopy
  have hm := h.throughJson_eq
  cases m
  simp only [ChatMessage.throughJson, ChatMessage.mk.injEq] at hm ⊢
  exact ⟨hm.1, hm.2.1, hm.2.2.1, rfl, hm.2.2.2.2⟩

theorem wellSent_composed {sent : Composed} (hfrom : Clients.FromTab H sent)
    (hgood : GoodSend KeySized sent) : WellSent sent.message := by
  have haddressed : (sent.message.type = .str generalType ∧
      sent.message.recipient = .str broadcastId) ∨
      (sent.message.type = .str privateType ∧
        ∃ p, p ≠ broadcastId ∧ sent.message.recipient = .str p) := by
    unfold GoodSend at hgood
    split at hgood
    · obtain ⟨p, hp, -, htype, hrecipient⟩ := hgood
      exact .inr ⟨htype, p, hp.ne_broadcastId, hrecipient⟩
    · exact .inl hgood
  have hrecipient : ∃ r, sent.message.recipient = .str r := by
    rcases haddressed with ⟨-, h⟩ | ⟨-, p, -, h⟩
    · exact ⟨_, h⟩
    · exact ⟨_, h⟩
  obtain ⟨r, hr⟩ := hrecipient
  obtain ⟨tab, identity, input, now, random, -, -, hmsg, -⟩ := hfrom
  obtain ⟨-, -, _, -, heq⟩ := Tab.composeMessage_eq_some hmsg
  refine ⟨?_, ?_, haddressed⟩
  · rw [heq] at hr ⊢
    simp only at hr
    simp only [ChatMessage.throughJson, ChatMessage.mk.injEq, hr,
      JsValue.throughJson_str, JsValue.throughJson_bool, true_and]
    refine ⟨rfl, ?_⟩
    split <;> rfl
  · rw [heq]
    exact ⟨_, rfl⟩

/-! ## Acceptance -/

def SentTo (m : ChatMessage) (me : JsString) : Prop :=
  m.recipient = .str broadcastId ∨ m.recipient = .str me

theorem WellSent.addressee_eq {m : ChatMessage} (h : WellSent m) :
    Tab.addressee m = m.recipient := by
  unfold Tab.addressee
  rcases h.addressed with ⟨-, hr⟩ | ⟨-, p, -, hr⟩ <;> rw [hr] <;> rfl

theorem WellSent.effectiveType_eq {m : ChatMessage} (h : WellSent m) :
    Tab.effectiveType m = m.type := by
  unfold Tab.effectiveType
  rcases h.addressed with ⟨ht, -⟩ | ⟨ht, -⟩ <;> rw [ht] <;> rfl

theorem copyOf_incoming {me : JsString} {m e : ChatMessage} (hm : WellSent m)
    (h : Tab.incoming H me m = some e) : CopyOf m e ∧ SentTo m me := by
  obtain ⟨-, -, -, haddressed, rfl⟩ := (Tab.incoming_eq_some_iff me m e).mp h
  rw [hm.addressee_eq] at haddressed
  rw [hm.effectiveType_eq]
  exact ⟨⟨_, rfl⟩, haddressed⟩

theorem incoming_composed (hE : H.ed25519.Correct) {sent : Composed}
    (hfrom : Clients.FromTab H sent) (hm : WellSent sent.message) {me : JsString}
    (hme : SentTo sent.message me) :
    ∃ e, Tab.incoming H me sent.message = some e := by
  obtain ⟨tab, identity, input, now, random, hstep, -, hmsg, -⟩ := hfrom
  obtain ⟨p, t, s, hp, ht, hs, hok⟩ := verified_composed hE hstep hmsg
  have hverify : verifySignature H sent.message.peerId sent.message.text
      sent.message.signatureHex = true := by
    rw [verifySignature_eq_true_iff, hp, ht, hs]
    exact ⟨_, _, _, rfl, rfl, rfl, hok⟩
  obtain ⟨hpeer, hsigned⟩ := truthy_of_verifySignature hverify
  have htext : t ≠ [] := by
    obtain ⟨htrim, -, _, -, heq⟩ := Tab.composeMessage_eq_some hmsg
    rw [heq] at ht
    exact JsValue.str.inj ht ▸ htrim
  refine ⟨_, (Tab.incoming_eq_some_iff me sent.message _).mpr
    ⟨?_, hverify, ?_, ?_, rfl⟩⟩
  · refine ⟨?_, hsigned, hpeer⟩
    rw [ht, JsValue.truthy_str]
    exact htext
  · rw [hm.effectiveType_eq, hm.addressee_eq]
    intro htype
    obtain ⟨r, hr, hrecipient⟩ := hm.private_recipient htype
    refine hme.resolve_left ?_
    rw [hrecipient]
    exact fun heq => hr (JsValue.str.inj heq)
  · rw [hm.addressee_eq]
    exact hme

/-! ## Runs -/

namespace Clients

def ids (c : Clients H) : List JsKey := c.composed.map fun sent => sent.message.idKey

/-- Ids are new, and tabs receive what tabs have sent. -/
structure Closed (c : Clients H) (a : ClientAction) : Prop where
  fresh : ∀ t input now random, a = .signAndSend t input now random →
    .str (Tab.messageId now random) ∉ c.ids
  relayed : ∀ t payload, a = .receive t (.message payload) →
    ∃ sent ∈ c.composed, payload = sent.message.toJs.throughJson
  announced : ∀ t event, a = .receive t event → GoodEvent KeySized event

theorem wellSent_of_reach {c : Clients H} (hc : (system H).Reach Closed c) :
    ∀ sent ∈ c.composed, WellSent sent.message := by
  intro sent hsent
  have hgood : c.PeersGood KeySized :=
    peersGood_of_reach (fun _ _ => keySized_of_spells) (fun _ => KeySized.ne_nil)
      (fun _ t event hok => hok.announced t event rfl) hc
  exact wellSent_composed (fromTab_of_reach hc sent hsent) (hgood.sends sent hsent)

theorem idKey_of_compose {tab : Tab H} {input : JsString} {now : Nat}
    {random : JsString} {msg : ChatMessage}
    (h : tab.composeMessage input now random = some msg) :
    msg.idKey = .str (Tab.messageId now random) := by
  obtain ⟨-, -, _, -, rfl⟩ := Tab.composeMessage_eq_some h
  rfl

theorem ids_nodup_of_reach {c : Clients H} (hc : (system H).Reach Closed c) :
    c.ids.Nodup := by
  refine hc.invariant (I := fun c => c.ids.Nodup) List.nodup_nil ?_
  intro c a c' _ h hok hnext
  cases change_of_step hnext with
  | signAndSend hsend =>
      obtain ⟨tab, identity, -, -, hmsg, rfl⟩ := signAndSend_cases hsend
      have hfresh := hok.fresh _ _ _ _ rfl
      rw [← idKey_of_compose hmsg] at hfresh
      change (List.map _ (c.composed ++ [_])).Nodup
      rw [List.map_append, List.map_singleton, ← List.concat_eq_append]
      exact h.concat hfresh
  | _ => exact h

def Received (log : List Composed) (me : JsString) (e : ChatMessage) : Prop :=
  ∃ sent ∈ log, CopyOf sent.message e ∧ (sent.peerId = me ∨ SentTo sent.message me)

structure Copies (log : List Composed) (me : JsString) (list : List ChatMessage) :
    Prop where
  nodup : (list.map ChatMessage.idKey).Nodup
  received : ∀ e ∈ list, Received log me e

theorem Copies.append {log : List Composed} {me : JsString}
    {list : List ChatMessage} (h : Copies log me list) {e : ChatMessage}
    (he : Received log me e) (hnew : e.idKey ∉ list.map ChatMessage.idKey) :
    Copies log me (list ++ [e]) := by
  refine ⟨?_, ?_⟩
  · rw [List.map_append, List.map_singleton, ← List.concat_eq_append]
    exact h.nodup.concat hnew
  · intro e' he'
    rcases List.mem_append.mp he' with hold | hlast
    · exact h.received e' hold
    · rw [List.mem_singleton.mp hlast]
      exact he

theorem Copies.toStore {log : List Composed}
    (hlog : ∀ sent ∈ log, WellSent sent.message) {me : JsString}
    {list : List ChatMessage} (h : Copies log me list) :
    Copies log me (Tab.toStore list) := by
  have hsame : Tab.toStore list = list.drop (list.length - 500) := by
    refine (List.map_congr_left ?_).trans (List.map_id _)
    intro e he
    obtain ⟨sent, hsent, hcopy, -⟩ := h.received e (List.mem_of_mem_drop he)
    exact (hlog sent hsent).copy_throughJson hcopy
  rw [hsame]
  refine ⟨?_, fun e he => h.received e (List.mem_of_mem_drop he)⟩
  rw [List.map_drop]
  exact h.nodup.sublist (List.drop_sublist _ _)

theorem copies_of_reach {c : Clients H} (hc : (system H).Reach Closed c) :
    AllLists (Copies c.composed) c := by
  refine hc.invariant (I := fun c => AllLists (Copies c.composed) c)
    allLists_initial ?_
  intro c a c' hreach h hok hnext
  have hchange := change_of_step hnext
  have hlog : ∀ sent ∈ c'.composed, WellSent sent.message :=
    wellSent_of_reach (.step hreach hok hnext)
  have hsub := composed_subset hchange
  have hmono : ∀ me list, Copies c.composed me list → Copies c'.composed me list := by
    intro me list hlist
    refine ⟨hlist.nodup, ?_⟩
    intro e he
    obtain ⟨sent, hsent, hrest⟩ := hlist.received e he
    exact ⟨sent, hsub hsent, hrest⟩
  refine h.change (allInStep_of_reach hreach) hchange
    (fun _ => ⟨List.nodup_nil, nofun⟩) hmono (fun _ _ => Copies.toStore hlog) ?_ ?_
  · rintro t input now random msg tab rfl hsend htab
    have hlist := h.listed t tab htab
    obtain ⟨tab', identity, htab', -, hmsg, rfl⟩ := signAndSend_cases hsend
    obtain rfl : tab = tab' := Option.some.inj (htab.symm.trans htab')
    refine (hmono _ _ hlist).append ?_ ?_
    · refine ⟨_, List.mem_append_right _ (List.mem_singleton_self _), ?_, .inl rfl⟩
      obtain ⟨-, -, _, -, rfl⟩ := Tab.composeMessage_eq_some hmsg
      exact CopyOf.refl rfl
    · intro hmem
      obtain ⟨e, he, hkey⟩ := List.mem_map.mp hmem
      obtain ⟨sent, hsent, hcopy, -⟩ := hlist.received e he
      rw [idKey_of_compose hmsg, hcopy.idKey_eq] at hkey
      exact hok.fresh _ _ _ _ rfl (List.mem_map.mpr ⟨sent, hsent, hkey⟩)
  · rintro t tab payload e rfl htab hin hnew
    have hlist := h.listed t tab htab
    obtain ⟨sent, hsent, rfl⟩ := hok.relayed t payload rfl
    have hm := wellSent_of_reach hreach sent hsent
    rw [hm.ofJs_eq] at hin
    obtain ⟨hcopy, hto⟩ := copyOf_incoming hm hin
    refine (hmono _ _ hlist).append ⟨sent, hsub hsent, hcopy, .inr hto⟩ ?_
    intro hmem
    obtain ⟨e', he', hkey⟩ := List.mem_map.mp hmem
    obtain ⟨sent', hsent', hcopy', -⟩ := hlist.received e' he'
    obtain ⟨x, hx⟩ := hm.id_str
    obtain ⟨y, hy⟩ := (wellSent_of_reach hreach sent' hsent').id_str
    have hdiff := hnew e' he'
    rw [hcopy.id_eq, hcopy'.id_eq, hx, hy] at hdiff
    rw [hcopy.idKey_eq, hcopy'.idKey_eq, ChatMessage.idKey, ChatMessage.idKey, hx, hy]
      at hkey
    rw [JsKey.str.inj hkey] at hdiff
    simp at hdiff

/-! ## Since the page load -/

def seenIds (c : Clients H) (t : TabId) : List JsKey :=
  match c.tabs t with
  | some tab => (tab.messages.drop tab.loaded).map ChatMessage.idKey
  | none => []

theorem seenIds_setTab (c : Clients H) (t : TabId) (tab : Tab H) :
    (c.setTab t tab).seenIds = Function.update c.seenIds t
      ((tab.messages.drop tab.loaded).map ChatMessage.idKey) := by
  funext u
  by_cases hut : u = t
  · subst hut
    simp [seenIds]
  · rw [Function.update_of_ne hut, seenIds, setTab_other c tab hut]
    rfl

theorem seenIds_setTab_append {ok : Clients H → ClientAction → Prop} {c : Clients H}
    (hc : (system H).Reach ok c) {t : TabId} {tab : Tab H} (tab' : Tab H)
    (htab : c.tabs t = some tab) (hloaded : tab'.loaded = tab.loaded)
    {e : ChatMessage} (happend : tab'.messages = tab.messages ++ [e]) :
    (c.setTab t tab').seenIds =
      Function.update c.seenIds t (c.seenIds t ++ [e.idKey]) := by
  have hle := loaded_le_of_reach hc t tab htab
  rw [seenIds_setTab, hloaded, happend, List.drop_append_of_le_length hle,
    List.map_append, List.map_singleton]
  simp only [seenIds, htab]

theorem seenIds_of_change {ok : Clients H → ClientAction → Prop} {c c' : Clients H}
    {a : ClientAction} (hc : (system H).Reach ok c) (hchange : Change c a c')
    (hreceive : ∀ t event, a ≠ .receive t event)
    (hsend : ∀ t input now random, a ≠ .signAndSend t input now random) :
    c'.seenIds = c.seenIds := by
  have hstep := allInStep_of_reach hc
  funext u
  cases hu : c'.tabs u with
  | none =>
      have hnone : c.tabs u = none := by
        by_contra hsome
        exact tabs_ne_none_of_change hchange hsome hu
      simp only [seenIds, hu, hnone]
  | some tab' =>
      rcases tab_of_change hstep (freshTab_of_reach hc) hchange hreceive hu with
        ⟨tab, htab, hsame, hmessages⟩ | ⟨habsent, hdrop⟩
      · rcases hmessages with hmessages | ⟨input, now, random, msg, ha, -, -⟩
        · simp only [seenIds, hu, htab, hsame.loaded_eq, hmessages]
        · exact absurd ha (hsend u input now random)
      · simp only [seenIds, hu, hdrop, List.map_nil]
        split
        · rename_i tab htab
          simp [(hstep u tab htab).messages_eq_nil (habsent tab htab)]
        · rfl

theorem ids_of_change {c c' : Clients H} {a : ClientAction}
    (hchange : Change c a c')
    (hsend : ∀ t input now random, a ≠ .signAndSend t input now random) :
    c'.ids = c.ids := by
  cases hchange with
  | @signAndSend t input now random _ _ _ => exact absurd rfl (hsend t input now random)
  | _ => rfl

theorem ids_of_send {c c' : Clients H} {t : TabId} {input : JsString} {now : Nat}
    {random : JsString} {msg : ChatMessage}
    (h : c.signAndSend t input now random = some (c', msg)) :
    c'.ids = c.ids ++ [msg.idKey] := by
  obtain ⟨tab, identity, -, -, -, rfl⟩ := signAndSend_cases h
  simp only [ids, List.map_append, List.map_singleton]
  rfl

theorem seenIds_of_send {ok : Clients H → ClientAction → Prop} {c c' : Clients H}
    (hc : (system H).Reach ok c) {t : TabId} {input : JsString} {now : Nat}
    {random : JsString} {msg : ChatMessage}
    (h : c.signAndSend t input now random = some (c', msg)) :
    c'.seenIds = Function.update c.seenIds t (c.seenIds t ++ [msg.idKey]) := by
  obtain ⟨tab, identity, htab, -, -, rfl⟩ := signAndSend_cases h
  exact seenIds_setTab_append hc { tab with messages := tab.messages ++ [msg] } htab
    rfl rfl

theorem seenIds_of_receive {ok : Clients H → ClientAction → Prop} {c : Clients H}
    (hc : (system H).Reach ok c) {t : TabId} {tab : Tab H}
    (htab : c.tabs t = some tab) (event : RelayEvent) :
    (c.setTab t (tab.onRelayEvent event)).seenIds = c.seenIds ∨
      ∃ payload e, event = .message payload ∧
        Tab.incoming H tab.peerId (.ofJs payload) = some e ∧
        (c.setTab t (tab.onRelayEvent event)).seenIds =
          Function.update c.seenIds t (c.seenIds t ++ [e.idKey]) := by
  obtain ⟨-, -, -, -, -, hloaded⟩ := onRelayEvent_identity tab event
  rcases onRelayEvent_messages tab event with
    hsame | ⟨payload, e, hevent, hin, -, happend⟩
  · left
    rw [seenIds_setTab, hloaded, hsame]
    have hseen : (tab.messages.drop tab.loaded).map ChatMessage.idKey = c.seenIds t := by
      simp only [seenIds, htab]
    rw [hseen, Function.update_eq_self]
  · exact .inr ⟨payload, e, hevent, hin, seenIds_setTab_append hc _ htab hloaded happend⟩

theorem strictEq_key {a b : JsValue} (h : a.strictEq b = true) : a.key 0 = b.key 0 := by
  cases a <;> cases b <;> simp_all [JsValue.strictEq, JsValue.key]

theorem listed_of_incoming {tab : Tab H} {payload : JsValue} {e : ChatMessage}
    (h : Tab.incoming H tab.peerId (.ofJs payload) = some e) :
    e.idKey ∈ (tab.onRelayEvent (.message payload)).messages.map
      ChatMessage.idKey := by
  simp only [Tab.onRelayEvent, Tab.onMessage, h, Tab.appendNew]
  split
  · rename_i hknown
    obtain ⟨m, hm, hid⟩ := List.any_eq_true.mp hknown
    exact List.mem_map.mpr ⟨m, hm, strictEq_key hid⟩
  · simp

theorem messages_prefix_of_change {ok : Clients H → ClientAction → Prop}
    {c c' : Clients H} {a : ClientAction} (hc : (system H).Reach ok c)
    (hchange : Change c a c') {u : TabId} {tab tab' : Tab H}
    (hu : c.tabs u = some tab) (hinit : tab.isInitialized = true)
    (hu' : c'.tabs u = some tab') : tab.messages <+: tab'.messages := by
  by_cases hreceive : ∀ t event, a ≠ .receive t event
  · rcases tab_of_change (allInStep_of_reach hc) (freshTab_of_reach hc) hchange
      hreceive hu' with ⟨tab₁, htab₁, -, hmessages⟩ | ⟨habsent, -⟩
    · obtain rfl : tab = tab₁ := Option.some.inj (hu.symm.trans htab₁)
      rcases hmessages with hsame | ⟨_, _, _, _, -, -, happend⟩
      · exact ⟨[], (List.append_nil _).trans hsame.symm⟩
      · rw [happend]
        exact List.prefix_append _ _
    · rw [habsent tab hu] at hinit
      cases hinit
  · simp only [ne_eq, not_forall, not_not] at hreceive
    obtain ⟨t, event, rfl⟩ := hreceive
    cases hchange with
    | @receive _ tab₁ htab₁ _ _ =>
        rcases setTab_cases hu' with ⟨rfl, rfl⟩ | ⟨-, hsame⟩
        · obtain rfl : tab = tab₁ := Option.some.inj (hu.symm.trans htab₁)
          rcases onRelayEvent_messages tab event with hsame | ⟨_, _, -, -, -, happend⟩
          · exact ⟨[], (List.append_nil _).trans hsame.symm⟩
          · rw [happend]
            exact List.prefix_append _ _
        · cases hu.symm.trans hsame
          exact List.prefix_refl _

theorem take_loaded_of_change {ok : Clients H → ClientAction → Prop}
    {c c' : Clients H} {a : ClientAction} (hc : (system H).Reach ok c)
    (hchange : Change c a c') {u : TabId} {tab tab' : Tab H}
    (hu : c.tabs u = some tab) (hinit : tab.isInitialized = true)
    (hu' : c'.tabs u = some tab') :
    tab'.messages.take tab'.loaded = tab.messages.take tab.loaded := by
  have hloaded : tab'.loaded = tab.loaded := by
    by_cases hreceive : ∀ t event, a ≠ .receive t event
    · rcases tab_of_change (allInStep_of_reach hc) (freshTab_of_reach hc) hchange
        hreceive hu' with ⟨tab₁, htab₁, hsame, -⟩ | ⟨habsent, -⟩
      · cases hu.symm.trans htab₁
        exact hsame.loaded_eq
      · rw [habsent tab hu] at hinit
        cases hinit
    · simp only [ne_eq, not_forall, not_not] at hreceive
      obtain ⟨t, event, rfl⟩ := hreceive
      cases hchange with
      | @receive _ tab₁ htab₁ _ _ =>
          rcases setTab_cases hu' with ⟨rfl, rfl⟩ | ⟨-, hsame⟩
          · cases hu.symm.trans htab₁
            exact (onRelayEvent_identity tab event).2.2.2.2.2
          · cases hu.symm.trans hsame
            rfl
  obtain ⟨more, hmore⟩ := messages_prefix_of_change hc hchange hu hinit hu'
  rw [hloaded, ← hmore, List.take_append_of_le_length (loaded_le_of_reach hc u tab hu)]

theorem eq_of_idKey {c : Clients H} (hc : (system H).Reach Closed c)
    {sent sent' : Composed} (hsent : sent ∈ c.composed) (hsent' : sent' ∈ c.composed)
    (h : sent.message.idKey = sent'.message.idKey) : sent = sent' :=
  List.inj_on_of_nodup_map (ids_nodup_of_reach hc) hsent hsent' h

end Clients

end CommonChat.Frontend
