import CommonChat.Frontend.Admission

/-!
# Clients that differ in private texts

Two states of the clients that agree on everything but the texts and signatures
of the private messages between certain peers.  Nothing that a page computes,
apart from what it shows of these messages, depends on the difference: the list
of peers, the duplicate check, the unread marks, what is stored and loaded.
-/

namespace CommonChat.Frontend

open CommonChat.Foundation
open CommonChat.Core
open CommonChat.Relay

variable {H : Host} {Pair : JsString → JsString → Prop}

/-! ## Messages -/

def ChatMessage.retext (m : ChatMessage) (text sig : JsString) : ChatMessage :=
  { m with
    text := .str text
    signatureHex := .str sig }

def Confidential (Pair : JsString → JsString → Prop) (m : ChatMessage) : Prop :=
  m.type = .str privateType ∧
    ∃ sender recipient, Pair sender recipient ∧ m.peerId = .str sender ∧
      m.recipient = .str recipient

def Genuine (H : Host) (m : ChatMessage) : Prop :=
  Verified H m ∧ m.text ≠ .str []

/-- The same message, or a confidential one with another text that is signed too. -/
inductive Alike (H : Host) (Pair : JsString → JsString → Prop) :
    ChatMessage → ChatMessage → Prop
  | same (m : ChatMessage) : Alike H Pair m m
  | retext {m : ChatMessage} {text sig : JsString} (hpair : Confidential Pair m)
      (hm : Genuine H m) (hm' : Genuine H (m.retext text sig)) :
      Alike H Pair m (m.retext text sig)

abbrev AlikeList (H : Host) (Pair : JsString → JsString → Prop) :
    List ChatMessage → List ChatMessage → Prop :=
  List.Forall₂ (Alike H Pair)

theorem alikeList_refl (list : List ChatMessage) : AlikeList H Pair list list :=
  List.forall₂_same.mpr fun m _ => .same m

theorem AlikeList.append {list list' : List ChatMessage}
    (h : AlikeList H Pair list list') {m m' : ChatMessage} (hm : Alike H Pair m m') :
    AlikeList H Pair (list ++ [m]) (list' ++ [m']) :=
  List.rel_append h (.cons hm .nil)

theorem Confidential.throughJson {m : ChatMessage} (h : Confidential Pair m) :
    Confidential Pair m.throughJson := by
  obtain ⟨htype, sender, recipient, hpair, hpeer, hto⟩ := h
  exact ⟨(JsValue.throughJson_eq_str_iff _ _).mpr htype, sender, recipient, hpair,
    (JsValue.throughJson_eq_str_iff _ _).mpr hpeer,
    (JsValue.throughJson_eq_str_iff _ _).mpr hto⟩

theorem Genuine.throughJson {m : ChatMessage} (h : Genuine H m) :
    Genuine H m.throughJson := by
  obtain ⟨⟨p, t, s, hp, ht, hs, hverify⟩, htext⟩ := h
  refine ⟨⟨p, t, s, (JsValue.throughJson_eq_str_iff _ _).mpr hp,
    (JsValue.throughJson_eq_str_iff _ _).mpr ht,
    (JsValue.throughJson_eq_str_iff _ _).mpr hs, hverify⟩, ?_⟩
  intro hnil
  exact htext ((JsValue.throughJson_eq_str_iff _ _).mp hnil)

theorem Alike.throughJson {m m' : ChatMessage} (h : Alike H Pair m m') :
    Alike H Pair m.throughJson m'.throughJson := by
  cases h with
  | same => exact .same _
  | retext hpair hm hm' =>
      exact .retext hpair.throughJson hm.throughJson hm'.throughJson

def ChatMessage.outline (m : ChatMessage) : ChatMessage :=
  { m with
    text := .undefined
    signatureHex := .undefined }

theorem Alike.outline_eq {m m' : ChatMessage} (h : Alike H Pair m m') :
    m'.outline = m.outline := by
  cases h <;> rfl

theorem AlikeList.map_outline {list list' : List ChatMessage}
    (h : AlikeList H Pair list list') :
    list'.map ChatMessage.outline = list.map ChatMessage.outline := by
  induction h with
  | nil => rfl
  | cons hm _ ih => rw [List.map_cons, List.map_cons, hm.outline_eq, ih]

/-! ## The list of peers -/

private theorem peerNames_outline (messages : List ChatMessage) (me : JsString) :
    peerNames (messages.map ChatMessage.outline) me = peerNames messages me := by
  unfold peerNames
  rw [List.foldl_map]
  rfl

private theorem previousPeersFrom_outline (names : List (JsValue × JsValue))
    (me : JsString) (onlinePeers : List Peer) (seen : List JsValue)
    (messages : List ChatMessage) :
    previousPeersFrom names me onlinePeers seen (messages.map ChatMessage.outline) =
      previousPeersFrom names me onlinePeers seen messages := by
  induction messages generalizing seen with
  | nil => rfl
  | cons m rest ih =>
      have hpartner : conversationPartner m.outline = conversationPartner m := rfl
      simp only [List.map_cons, previousPeersFrom, hpartner, ih]

theorem AlikeList.getPreviousPeers_eq {list list' : List ChatMessage}
    (h : AlikeList H Pair list list') (me : JsString) (onlinePeers : List Peer) :
    getPreviousPeers list' me onlinePeers = getPreviousPeers list me onlinePeers := by
  unfold getPreviousPeers
  rw [← previousPeersFrom_outline, ← peerNames_outline, h.map_outline,
    previousPeersFrom_outline, peerNames_outline]

/-! ## The message handler -/

def IsFor (me : JsString) (m : ChatMessage) : Prop :=
  (Tab.effectiveType m = .str privateType → Tab.addressee m = .str me) ∧
    (Tab.addressee m = .str broadcastId ∨ Tab.addressee m = .str me)

theorem incoming_eq_none {me : JsString} {m : ChatMessage} (h : ¬ IsFor me m) :
    Tab.incoming H me m = none := by
  rw [Option.eq_none_iff_forall_not_mem]
  intro e he
  obtain ⟨-, -, hprivate, haddressed, -⟩ := (Tab.incoming_eq_some_iff me m e).mp he
  exact h ⟨hprivate, haddressed⟩

theorem Genuine.incoming_eq_some {m : ChatMessage} (h : Genuine H m) {me : JsString}
    (hfor : IsFor me m) :
    Tab.incoming H me m = some { m with
      fromMe := .bool (m.peerId.strictEq (.str me))
      type := Tab.effectiveType m } := by
  obtain ⟨⟨p, t, s, hp, ht, hs, hverify⟩, htext⟩ := h
  have hverifies : verifySignature H m.peerId m.text m.signatureHex = true := by
    rw [hp, ht, hs]
    exact (verifySignature_eq_true_iff _ _ _).mpr ⟨_, _, _, rfl, rfl, rfl, hverify⟩
  have htruthy : m.text.truthy = true := by
    rw [ht] at htext ⊢
    exact (JsValue.truthy_str t).mpr fun hnil => htext (by rw [hnil])
  obtain ⟨e, he⟩ := incoming_of_accepted ⟨htruthy, hverifies, hfor.2, hfor.1⟩
  obtain ⟨-, -, -, -, rfl⟩ := (Tab.incoming_eq_some_iff me m e).mp he
  exact he

theorem Alike.incoming {m m' : ChatMessage} (h : Alike H Pair m m') (me : JsString) :
    Option.Rel (Alike H Pair) (Tab.incoming H me m) (Tab.incoming H me m') := by
  cases h with
  | same =>
      cases Tab.incoming H me m with
      | none => exact .none
      | some e => exact .some (.same e)
  | @retext text sig hpair hm hm' =>
      by_cases hfor : IsFor me m
      · obtain ⟨hprivate, hparties⟩ := hpair
        have heffective : Tab.effectiveType m = .str privateType := by
          rw [Tab.effectiveType, hprivate]
          rfl
        rw [hm.incoming_eq_some hfor,
          hm'.incoming_eq_some (show IsFor me (m.retext text sig) from hfor)]
        exact .some (.retext (m := { m with
          fromMe := .bool (m.peerId.strictEq (.str me))
          type := Tab.effectiveType m }) ⟨heffective, hparties⟩ hm hm')
      · rw [incoming_eq_none hfor,
          incoming_eq_none (show ¬ IsFor me (m.retext text sig) from hfor)]
        exact .none

theorem AlikeList.appendNew {list list' : List ChatMessage}
    (h : AlikeList H Pair list list') {e e' : ChatMessage} (he : Alike H Pair e e') :
    AlikeList H Pair (Tab.appendNew list e) (Tab.appendNew list' e') := by
  have hany : ∀ (l : List ChatMessage) (x : ChatMessage),
      l.any (fun m => m.id.strictEq x.id) =
        (l.map ChatMessage.outline).any fun m => m.id.strictEq x.outline.id := by
    intro l x
    rw [List.any_map]
    rfl
  have hsame : list'.any (fun m => m.id.strictEq e'.id) =
      list.any fun m => m.id.strictEq e.id := by
    rw [hany list', hany list, h.map_outline, he.outline_eq]
  unfold Tab.appendNew
  rw [hsame]
  split
  · exact h
  · exact h.append he

/-! ## Tabs -/

def AlikeTab (Pair : JsString → JsString → Prop) (tab tab' : Tab H) : Prop :=
  ∃ messages, AlikeList H Pair tab.messages messages ∧
    tab' = { tab with messages := messages }

theorem alikeTab_refl (tab : Tab H) : AlikeTab Pair tab tab :=
  ⟨tab.messages, alikeList_refl _, rfl⟩

theorem AlikeTab.directMessagesPeerList_alike {tab tab' : Tab H}
    (h : AlikeTab Pair tab tab') :
    tab'.directMessagesPeerList = tab.directMessagesPeerList := by
  obtain ⟨messages, hmessages, rfl⟩ := h
  simp only [Tab.directMessagesPeerList, hmessages.getPreviousPeers_eq]

def AlikePayload (H : Host) (Pair : JsString → JsString → Prop)
    (payload payload' : JsValue) : Prop :=
  ∃ m m', Alike H Pair m m' ∧ payload = m.toJs.throughJson ∧
    payload' = m'.toJs.throughJson

theorem AlikePayload.throughJson {payload payload' : JsValue}
    (h : AlikePayload H Pair payload payload') :
    AlikePayload H Pair payload.throughJson payload'.throughJson := by
  obtain ⟨m, m', hm, rfl, rfl⟩ := h
  exact ⟨m, m', hm, JsValue.throughJson_throughJson _,
    JsValue.throughJson_throughJson _⟩

theorem AlikePayload.ofJs {payload payload' : JsValue}
    (h : AlikePayload H Pair payload payload') :
    Alike H Pair (.ofJs payload) (.ofJs payload') := by
  obtain ⟨m, m', hm, rfl, rfl⟩ := h
  rw [ChatMessage.ofJs_throughJson, ChatMessage.ofJs_throughJson,
    ChatMessage.ofJs_toJs, ChatMessage.ofJs_toJs]
  exact hm.throughJson

inductive AlikeEvent (H : Host) (Pair : JsString → JsString → Prop) :
    RelayEvent → RelayEvent → Prop
  | same (event : RelayEvent) : AlikeEvent H Pair event event
  | message {payload payload' : JsValue} (h : AlikePayload H Pair payload payload') :
      AlikeEvent H Pair (.message payload) (.message payload')

theorem AlikeTab.onMessage {tab tab' : Tab H} (h : AlikeTab Pair tab tab')
    {m m' : ChatMessage} (hm : Alike H Pair m m') :
    AlikeTab Pair (tab.onMessage m) (tab'.onMessage m') := by
  obtain ⟨messages, hmessages, rfl⟩ := h
  have hin := hm.incoming tab.peerId
  unfold Tab.onMessage
  simp only
  generalize Tab.incoming H tab.peerId m = entry at hin
  generalize Tab.incoming H tab.peerId m' = entry' at hin
  cases hin with
  | none => exact ⟨messages, hmessages, rfl⟩
  | @some e e' he =>
      have hmarks : ({ tab with messages := messages } : Tab H).markUnread e' =
          tab.markUnread e := by
        have houtline : e'.outline = e.outline := he.outline_eq
        show tab.markUnread e'.outline = tab.markUnread e.outline
        rw [houtline]
      refine ⟨_, hmessages.appendNew he, ?_⟩
      simp only [hmarks]

theorem AlikeTab.onRelayEvent {tab tab' : Tab H} (h : AlikeTab Pair tab tab')
    {event event' : RelayEvent} (hevent : AlikeEvent H Pair event event') :
    AlikeTab Pair (tab.onRelayEvent event) (tab'.onRelayEvent event') := by
  cases hevent with
  | message hpayload => exact h.onMessage hpayload.ofJs
  | same =>
      cases event with
      | message payload => exact h.onMessage (.same _)
      | onlineList list =>
          obtain ⟨messages, hmessages, rfl⟩ := h
          exact ⟨messages, hmessages, rfl⟩
      | userOnline user =>
          obtain ⟨messages, hmessages, rfl⟩ := h
          simp only [Tab.onRelayEvent, Tab.onUserOnline]
          split
          · exact ⟨messages, hmessages, rfl⟩
          · split <;> exact ⟨messages, hmessages, rfl⟩
      | userOffline data =>
          obtain ⟨messages, hmessages, rfl⟩ := h
          simp only [Tab.onRelayEvent, Tab.onUserOffline]
          split
          · exact ⟨messages, hmessages, rfl⟩
          · split <;> exact ⟨messages, hmessages, rfl⟩

/-! ## Storage -/

structure AlikeStorage (H : Host) (Pair : JsString → JsString → Prop)
    (storage storage' : LocalStorage) : Prop where
  identity_eq : storage'.identity = storage.identity
  messages : ∀ key,
    Option.Rel (AlikeList H Pair) (storage.messages key) (storage'.messages key)

theorem AlikeList.toStore {list list' : List ChatMessage}
    (h : AlikeList H Pair list list') :
    AlikeList H Pair (Tab.toStore list) (Tab.toStore list') := by
  unfold Tab.toStore
  rw [h.length_eq]
  refine List.forall₂_map_left_iff.mpr (List.forall₂_map_right_iff.mpr ?_)
  exact (List.forall₂_drop _ h).imp fun _ _ hm => hm.throughJson

theorem AlikeStorage.loadEffect {storage storage' : LocalStorage}
    (h : AlikeStorage H Pair storage storage') {tab tab' : Tab H}
    (htab : AlikeTab Pair tab tab') :
    AlikeTab Pair (tab.loadEffect storage) (tab'.loadEffect storage') := by
  obtain ⟨messages, hmessages, rfl⟩ := htab
  have hstored := h.messages (storageKey tab.peerId)
  unfold Tab.loadEffect
  simp only
  split
  · exact ⟨messages, hmessages, rfl⟩
  generalize storage.messages (storageKey tab.peerId) = stored at hstored
  generalize storage'.messages (storageKey tab.peerId) = stored' at hstored
  cases hstored with
  | none => exact ⟨messages, hmessages, rfl⟩
  | @some parsed parsed' hparsed =>
      have hlength := List.Forall₂.length_eq hparsed
      simp only [← hlength]
      split
      · exact ⟨parsed', hparsed, rfl⟩
      · exact ⟨messages, hmessages, rfl⟩

theorem AlikeStorage.persistEffect {storage storage' : LocalStorage}
    (h : AlikeStorage H Pair storage storage') {tab tab' : Tab H}
    (htab : AlikeTab Pair tab tab') :
    AlikeStorage H Pair (tab.persistEffect storage) (tab'.persistEffect storage') := by
  obtain ⟨messages, hmessages, rfl⟩ := htab
  unfold Tab.persistEffect
  simp only [← hmessages.length_eq]
  split
  · exact h
  · refine ⟨h.identity_eq, ?_⟩
    intro key
    simp only [Function.update_apply]
    split
    · exact .some hmessages.toStore
    · exact h.messages key

theorem AlikeStorage.loadStored_eq {storage storage' : LocalStorage}
    (h : AlikeStorage H Pair storage storage') (tab : Tab H) :
    tab.loadStored storage' = tab.loadStored storage := by
  unfold Tab.loadStored
  rw [h.identity_eq]

/-! ## Sending -/

/-- The user of the tab writes to one peer of a pair, being the other. -/
def Tab.Confides (Pair : JsString → JsString → Prop) (tab : Tab H) : Prop :=
  tab.activeView = .direct ∧ ∃ recipient, recipient ≠ [] ∧
    tab.activeDirectPeerId = .str recipient ∧ Pair tab.peerId recipient

theorem composeMessage_retext {tab : Tab H} {input input' : JsString} {now : Nat}
    {random : JsString} {msg : ChatMessage}
    (h : tab.composeMessage input now random = some msg) (hinput : trim input' ≠ []) :
    ∃ sig, tab.composeMessage input' now random =
      some (msg.retext (trim input') sig) := by
  unfold Tab.composeMessage at h ⊢
  simp only at h ⊢
  split at h
  · cases h
  rename_i hguard
  rw [if_neg (fun hbad => hbad.elim hinput fun hnot => hguard (.inr hnot))]
  simp only [Tab.signMessage, Option.bind_eq_bind, Option.bind_eq_some_iff,
    Option.map_eq_some_iff] at h
  obtain ⟨sig, ⟨identity, hid, rfl⟩, h⟩ := h
  split at h
  · cases h
  rename_i hsends
  cases h
  refine ⟨ofAscii (identity.sign (encodeUtf8 (trim input'))), ?_⟩
  simp only [Tab.signMessage, hid, Option.map_some, Option.bind_eq_bind,
    Option.bind_some, hsends]
  rfl

theorem genuine_composed (hE : H.ed25519.Correct) {tab : Tab H}
    (hstep : Clients.InStep tab) {input : JsString} {now : Nat}
    {random : JsString} {msg : ChatMessage}
    (h : tab.composeMessage input now random = some msg) : Genuine H msg := by
  refine ⟨verified_composed hE hstep h, ?_⟩
  obtain ⟨hne, -, -, -, rfl⟩ := Tab.composeMessage_eq_some h
  simpa using hne

theorem confidential_composed {tab : Tab H} (hconfides : tab.Confides Pair)
    {input : JsString} {now : Nat} {random : JsString} {msg : ChatMessage}
    (h : tab.composeMessage input now random = some msg) : Confidential Pair msg := by
  obtain ⟨hview, recipient, hne, hpeer, hpair⟩ := hconfides
  have hprivate : tab.isPrivate = true := by
    simp [Tab.isPrivate, hview, hpeer, hne]
  obtain ⟨-, -, -, -, rfl⟩ := Tab.composeMessage_eq_some h
  simp only [hprivate, if_true, hpeer]
  exact ⟨rfl, tab.peerId, recipient, hpair, rfl, rfl⟩

theorem Clients.signAndSend_of_compose {c : Clients H} {t : TabId} {tab : Tab H}
    {identity : CommonwareIdentity H.ed25519} {input : JsString} {now : Nat}
    {random : JsString} {msg : ChatMessage} (htab : c.tabs t = some tab)
    (hid : tab.identityRef = some identity)
    (hmsg : tab.composeMessage input now random = some msg) :
    c.signAndSend t input now random =
      some ({ c.setTab t { tab with messages := tab.messages ++ [msg] } with
        composed := c.composed ++ [.ofTab t tab identity input msg]
        signed := c.signed ++ [(identity.publicKey,
          unionUnique chatNamespace (encodeUtf8 (trim input)))] }, msg) := by
  simp [Clients.signAndSend, Tab.handleSignAndSend, htab, hid, hmsg]

def AlikeInput (Pair : JsString → JsString → Prop) (tab : Tab H)
    (input input' : JsString) : Prop :=
  input' = input ∨ (tab.Confides Pair ∧ trim input' ≠ [])

theorem alike_composed (hE : H.ed25519.Correct) {tab : Tab H}
    (hstep : Clients.InStep tab) {input input' : JsString} {now : Nat}
    {random : JsString} {msg : ChatMessage}
    (h : tab.composeMessage input now random = some msg)
    (hinput : AlikeInput Pair tab input input') :
    ∃ msg', tab.composeMessage input' now random = some msg' ∧
      Alike H Pair msg msg' := by
  rcases hinput with rfl | ⟨hconfides, hne⟩
  · exact ⟨msg, h, .same msg⟩
  · obtain ⟨sig, h'⟩ := composeMessage_retext h hne
    exact ⟨_, h', .retext (confidential_composed hconfides h)
      (genuine_composed hE hstep h) (genuine_composed hE hstep h')⟩

/-! ## All clients -/

structure AlikeClients (Pair : JsString → JsString → Prop) (c c' : Clients H) :
    Prop where
  nextTab_eq : c'.nextTab = c.nextTab
  tabs : ∀ t, Option.Rel (AlikeTab Pair) (c.tabs t) (c'.tabs t)
  storage : ∀ b, AlikeStorage H Pair (c.storage b) (c'.storage b)

theorem alikeClients_initial : AlikeClients Pair (Clients.initial H) (.initial H) where
  nextTab_eq := rfl
  tabs _ := .none
  storage _ := ⟨rfl, fun _ => .none⟩

theorem exists_of_rel_some {α β : Type*} {R : α → β → Prop} {a : α} {o : Option β}
    (h : Option.Rel R (some a) o) : ∃ b, o = some b ∧ R a b := by
  cases h with
  | some hab => exact ⟨_, rfl, hab⟩

namespace AlikeClients

variable {c c' c₁ : Clients H}

theorem exists_tab (h : AlikeClients Pair c c') {t : TabId} {tab : Tab H}
    (htab : c.tabs t = some tab) :
    ∃ messages, c'.tabs t = some { tab with messages := messages } ∧
      AlikeList H Pair tab.messages messages := by
  have hrel := h.tabs t
  rw [htab] at hrel
  obtain ⟨tab', htab', messages, hmessages, rfl⟩ := exists_of_rel_some hrel
  exact ⟨messages, htab', hmessages⟩

theorem setTab (h : AlikeClients Pair c c') (t : TabId) {tab tab' : Tab H}
    (htab : AlikeTab Pair tab tab') : AlikeClients Pair (c.setTab t tab)
      (c'.setTab t tab') where
  nextTab_eq := h.nextTab_eq
  tabs u := by
    simp only [Clients.setTab, Function.update_apply]
    split
    · exact .some htab
    · exact h.tabs u
  storage := h.storage

theorem setStorage (h : AlikeClients Pair c c') (b : BrowserId)
    {storage storage' : LocalStorage} (hstorage : AlikeStorage H Pair storage storage') :
    AlikeClients Pair (c.setStorage b storage) (c'.setStorage b storage') where
  nextTab_eq := h.nextTab_eq
  tabs := h.tabs
  storage d := by
    simp only [Clients.setStorage, Function.update_apply]
    split
    · exact hstorage
    · exact h.storage d

theorem load (h : AlikeClients Pair c c') (b : BrowserId) :
    AlikeClients Pair (c.load b) (c'.load b) := by
  have htab := (h.storage b).loadEffect
    (alikeTab_refl ((Tab.fresh H b).loadStored (c.storage b)))
  have hset := h.setTab c.nextTab htab
  unfold Clients.load
  rw [h.nextTab_eq, (h.storage b).loadStored_eq]
  exact ⟨rfl, hset.tabs, hset.storage⟩

theorem handleInitialize (h : AlikeClients Pair c c') {t : TabId} {name : JsString}
    {random : PrivateKey} (hstep : c.handleInitialize t name random = some c₁) :
    ∃ c₁', c'.handleInitialize t name random = some c₁' ∧ AlikeClients Pair c₁ c₁' := by
  simp only [Clients.handleInitialize, Option.bind_eq_bind,
    Option.bind_eq_some_iff] at hstep ⊢
  obtain ⟨tab, htab, hstep⟩ := hstep
  obtain ⟨messages, htab', hmessages⟩ := h.exists_tab htab
  split at hstep
  · rename_i hguard
    cases hstep
    refine ⟨_, ⟨_, htab', if_pos hguard⟩, ?_⟩
    have hstorage : AlikeStorage H Pair
        (tab.initializeWithDisplayName (c.storage tab.browser) (trim name) random).1
        (tab.initializeWithDisplayName (c'.storage tab.browser) (trim name) random).1 :=
      ⟨rfl, (h.storage tab.browser).messages⟩
    have hfields : AlikeTab Pair
        (tab.initializeWithDisplayName (c.storage tab.browser) (trim name) random).2
        (Tab.initializeWithDisplayName { tab with messages := messages }
          (c'.storage tab.browser) (trim name) random).2 :=
      ⟨messages, hmessages, rfl⟩
    have hloaded := hstorage.loadEffect hfields
    have hset := (h.setStorage tab.browser hstorage).setTab t hloaded
    exact ⟨hset.nextTab_eq, hset.tabs, hset.storage⟩
  · cases hstep

theorem saveDisplayName (h : AlikeClients Pair c c') {t : TabId} {name : JsString}
    (hstep : c.saveDisplayName t name = some c₁) :
    ∃ c₁', c'.saveDisplayName t name = some c₁' ∧ AlikeClients Pair c₁ c₁' := by
  simp only [Clients.saveDisplayName, Option.bind_eq_bind,
    Option.bind_eq_some_iff] at hstep ⊢
  obtain ⟨tab, htab, hstep⟩ := hstep
  obtain ⟨messages, htab', hmessages⟩ := h.exists_tab htab
  split at hstep
  · rename_i hguard
    cases hstep
    refine ⟨_, ⟨_, htab', if_pos hguard⟩, ?_⟩
    have hstorage : AlikeStorage H Pair
        (tab.updateDisplayName (c.storage tab.browser) (trim name)).1
        (tab.updateDisplayName (c'.storage tab.browser) (trim name)).1 := by
      refine ⟨?_, (h.storage tab.browser).messages⟩
      simp only [Tab.updateDisplayName, (h.storage tab.browser).identity_eq]
    exact (h.setStorage tab.browser hstorage).setTab t ⟨messages, hmessages, rfl⟩
  · cases hstep

theorem receive (h : AlikeClients Pair c c') {t : TabId} {event event' : RelayEvent}
    (hevent : AlikeEvent H Pair event event') (hstep : c.receive t event = some c₁) :
    ∃ c₁', c'.receive t event' = some c₁' ∧ AlikeClients Pair c₁ c₁' := by
  simp only [Clients.receive, Option.bind_eq_bind, Option.bind_eq_some_iff]
    at hstep ⊢
  obtain ⟨tab, htab, hstep⟩ := hstep
  obtain ⟨messages, htab', hmessages⟩ := h.exists_tab htab
  split at hstep
  · rename_i hwants
    cases hstep
    refine ⟨_, ⟨_, htab', if_pos hwants⟩, ?_⟩
    have halike : AlikeTab Pair tab { tab with messages := messages } :=
      ⟨messages, hmessages, rfl⟩
    exact h.setTab t (halike.onRelayEvent hevent)
  · cases hstep

theorem signAndSend (hE : H.ed25519.Correct) (h : AlikeClients Pair c c')
    (hstep : c.AllInStep) {t : TabId} {input input' : JsString} {now : Nat}
    {random : JsString} {msg : ChatMessage}
    (hinput : ∀ tab, c.tabs t = some tab → AlikeInput Pair tab input input')
    (hsend : c.signAndSend t input now random = some (c₁, msg)) :
    ∃ c₁' msg', c'.signAndSend t input' now random = some (c₁', msg') ∧
      AlikeClients Pair c₁ c₁' ∧ Alike H Pair msg msg' := by
  obtain ⟨tab, identity, htab, hid, hmsg, rfl⟩ := Clients.signAndSend_cases hsend
  obtain ⟨messages, htab', hmessages⟩ := h.exists_tab htab
  obtain ⟨msg', hmsg', hlike⟩ := alike_composed hE (hstep t tab htab) hmsg
    (hinput tab htab)
  have hcompose : ({ tab with messages := messages } : Tab H).composeMessage input' now
      random = some msg' := hmsg'
  have halike : AlikeTab Pair { tab with messages := tab.messages ++ [msg] }
      { tab with messages := messages ++ [msg'] } :=
    ⟨_, hmessages.append hlike, rfl⟩
  have hset := h.setTab t halike
  refine ⟨_, msg', Clients.signAndSend_of_compose htab' hid hcompose, ?_, hlike⟩
  exact ⟨hset.nextTab_eq, hset.tabs, hset.storage⟩

theorem step (h : AlikeClients Pair c c') {a : ClientAction}
    (hreceive : ∀ t event, a ≠ .receive t event)
    (hsend : ∀ t input now random, a ≠ .signAndSend t input now random)
    (hstep : c.step a = some c₁) :
    ∃ c₁', c'.step a = some c₁' ∧ AlikeClients Pair c₁ c₁' := by
  cases a with
  | load b =>
      cases hstep
      exact ⟨_, rfl, h.load b⟩
  | handleInitialize t name random => exact h.handleInitialize hstep
  | saveDisplayName t name => exact h.saveDisplayName hstep
  | openPublicRoom t roomId =>
      obtain ⟨tab, htab, rfl⟩ := Option.map_eq_some_iff.mp hstep
      obtain ⟨messages, htab', hmessages⟩ := h.exists_tab htab
      exact ⟨_, Option.map_eq_some_iff.mpr ⟨_, htab', rfl⟩,
        h.setTab t ⟨messages, hmessages, rfl⟩⟩
  | openDirectWith t row =>
      simp only [Clients.step, Option.bind_eq_bind, Option.bind_eq_some_iff]
        at hstep ⊢
      obtain ⟨tab, htab, peer, hpeer, hstep⟩ := hstep
      cases hstep
      obtain ⟨messages, htab', hmessages⟩ := h.exists_tab htab
      have halike : AlikeTab Pair tab { tab with messages := messages } :=
        ⟨messages, hmessages, rfl⟩
      rw [← halike.directMessagesPeerList_alike] at hpeer
      exact ⟨_, ⟨_, htab', peer, hpeer, rfl⟩, h.setTab t ⟨messages, hmessages, rfl⟩⟩
  | signAndSend t input now random => exact absurd rfl (hsend t input now random)
  | receive t event => exact absurd rfl (hreceive t event)
  | persist t =>
      obtain ⟨tab, htab, rfl⟩ := Option.map_eq_some_iff.mp hstep
      obtain ⟨messages, htab', hmessages⟩ := h.exists_tab htab
      exact ⟨_, Option.map_eq_some_iff.mpr ⟨_, htab', rfl⟩,
        h.setStorage tab.browser
          ((h.storage tab.browser).persistEffect ⟨messages, hmessages, rfl⟩)⟩
  | signElsewhere key ns msg =>
      simp only [Clients.step] at hstep ⊢
      split at hstep
      · cases hstep
      · rename_i hns
        cases hstep
        exact ⟨_, if_neg hns, ⟨h.nextTab_eq, h.tabs, h.storage⟩⟩

end AlikeClients

end CommonChat.Frontend
