import CommonChat.Frontend.PeerId

/-!
# Tabs in a run

What a step of the clients does to each tab.  The hook's ref and its state stay
in step, so a tab signs with the key of the peer id that it shows; an
initialized tab keeps its peer id for as long as it lives.
-/

namespace CommonChat.Frontend.Clients

open CommonChat.Foundation
open CommonChat.Core
open CommonChat.Relay

variable {H : Host}

/-! ## Identities stay in step -/

/-- The hook's ref and its state agree, and nothing is listed before they are set. -/
structure InStep (tab : Tab H) : Prop where
  peerId_eq : ∀ identity, tab.identityRef = some identity →
    tab.peerId = ofAscii identity.pubKey
  messages_eq_nil : tab.isInitialized = false → tab.messages = []
  isInitialized_of_peerId : tab.peerId ≠ [] → tab.isInitialized = true
  identity_of_isInitialized : tab.isInitialized = true →
    ∃ identity, tab.identityRef = some identity

theorem inStep_of_same {tab tab' : Tab H} (h : InStep tab)
    (hid : tab'.identityRef = tab.identityRef) (hpeer : tab'.peerId = tab.peerId)
    (hinit : tab'.isInitialized = tab.isInitialized)
    (hlist : tab.isInitialized = true ∨ tab'.messages = tab.messages) :
    InStep tab' where
  peerId_eq identity hsome := by
    rw [hpeer]
    exact h.peerId_eq identity (hid ▸ hsome)
  messages_eq_nil hnot := by
    rw [hinit] at hnot
    rcases hlist with hyes | hsame
    · rw [hyes] at hnot
      cases hnot
    · rw [hsame]
      exact h.messages_eq_nil hnot
  isInitialized_of_peerId hne := by
    rw [hinit]
    exact h.isInitialized_of_peerId (hpeer ▸ hne)
  identity_of_isInitialized hyes := by
    rw [hid]
    exact h.identity_of_isInitialized (hinit ▸ hyes)

theorem InStep.adopt (tab : Tab H) (identity : CommonwareIdentity H.ed25519)
    (name : JsString) : InStep (tab.adopt identity name) where
  peerId_eq identity' hsome := by
    cases hsome
    rfl
  messages_eq_nil hnot := by cases hnot
  isInitialized_of_peerId _ := rfl
  identity_of_isInitialized _ := ⟨identity, rfl⟩

theorem InStep.loadStored (b : BrowserId) (storage : LocalStorage) :
    InStep ((Tab.fresh H b).loadStored storage) := by
  have hfresh : InStep (Tab.fresh H b) := by
    constructor
    · intro identity hsome
      cases hsome
    · intro _
      rfl
    · intro hne
      exact absurd rfl hne
    · intro hyes
      cases hyes
  unfold Tab.loadStored
  split
  · exact inStep_of_same hfresh rfl rfl rfl (.inr rfl)
  split
  · split
    · rename_i stored _ _ _ identity _
      exact inStep_of_same
        (InStep.adopt (Tab.fresh H b) identity stored.displayName)
        rfl rfl rfl (.inr rfl)
    · exact inStep_of_same hfresh rfl rfl rfl (.inr rfl)
  · exact inStep_of_same hfresh rfl rfl rfl (.inr rfl)

theorem InStep.loadEffect {tab : Tab H} (h : InStep tab)
    (storage : LocalStorage) : InStep (tab.loadEffect storage) := by
  unfold Tab.loadEffect
  split
  · exact h
  rename_i hpeer
  have hinit := h.isInitialized_of_peerId hpeer
  split
  · exact h
  split
  · exact inStep_of_same h rfl rfl rfl (.inl hinit)
  · exact h

theorem onRelayEvent_identity (tab : Tab H) (event : RelayEvent) :
    (tab.onRelayEvent event).identityRef = tab.identityRef ∧
      (tab.onRelayEvent event).peerId = tab.peerId ∧
      (tab.onRelayEvent event).isInitialized = tab.isInitialized ∧
      (tab.onRelayEvent event).browser = tab.browser ∧
      (tab.onRelayEvent event).displayName = tab.displayName ∧
      (tab.onRelayEvent event).loaded = tab.loaded := by
  cases event with
  | onlineList list => exact ⟨rfl, rfl, rfl, rfl, rfl, rfl⟩
  | userOnline user =>
      simp only [Tab.onRelayEvent, Tab.onUserOnline]
      split
      · exact ⟨rfl, rfl, rfl, rfl, rfl, rfl⟩
      · split <;> exact ⟨rfl, rfl, rfl, rfl, rfl, rfl⟩
  | userOffline data =>
      simp only [Tab.onRelayEvent, Tab.onUserOffline]
      split
      · exact ⟨rfl, rfl, rfl, rfl, rfl, rfl⟩
      · split <;> exact ⟨rfl, rfl, rfl, rfl, rfl, rfl⟩
  | message payload =>
      simp only [Tab.onRelayEvent, Tab.onMessage]
      split <;> exact ⟨rfl, rfl, rfl, rfl, rfl, rfl⟩

theorem InStep.spells_iff {tab : Tab H} (h : InStep tab)
    {identity : CommonwareIdentity H.ed25519}
    (hid : tab.identityRef = some identity) (pk : PublicKey) :
    Spells H tab.peerId pk ↔ identity.publicKey = pk := by
  unfold Spells
  rw [h.peerId_eq identity hid, encodeUtf8_ofAscii (ascii_pubKey identity),
    decode_pubKey identity, Except.ok.injEq]
  exact ⟨FixedBytes.eq_of_bytes, fun heq => by rw [heq]⟩

theorem InStep.spells {tab : Tab H} (h : InStep tab)
    (hinit : tab.isInitialized = true) : ∃ pk, Spells H tab.peerId pk := by
  obtain ⟨identity, hid⟩ := h.identity_of_isInitialized hinit
  exact ⟨identity.publicKey, (h.spells_iff hid _).mpr rfl⟩

def AllInStep (c : Clients H) : Prop :=
  ∀ t tab, c.tabs t = some tab → InStep tab

theorem AllInStep.change {c c' : Clients H} {a : ClientAction}
    (h : c.AllInStep) (hchange : Change c a c') : c'.AllInStep := by
  refine forall_tabs_of_change hchange h
    (fun b storage => (InStep.loadStored b storage).loadEffect storage)
    (fun _ _ storage _ _ _ _ => (InStep.adopt _ _ _).loadEffect storage)
    ?_ ?_ ?_ ?_ ?_
  · intro t tab name htab _
    exact inStep_of_same (h t tab htab) rfl rfl rfl (.inr rfl)
  · intro t tab roomId htab
    exact inStep_of_same (h t tab htab) rfl rfl rfl (.inr rfl)
  · intro t tab peer htab _
    exact inStep_of_same (h t tab htab) rfl rfl rfl (.inr rfl)
  · intro t tab input now random msg htab hmsg
    exact inStep_of_same (h t tab htab) rfl rfl rfl
      (.inl (Tab.composeMessage_eq_some hmsg).2.1)
  · intro t tab event _ htab hwants
    obtain ⟨hid, hpeer, hinit, -⟩ := onRelayEvent_identity tab event
    simp only [Tab.wantsSocket, Bool.and_eq_true] at hwants
    exact inStep_of_same (h t tab htab) hid hpeer hinit (.inl hwants.1.1)

theorem allInStep_initial : (initial H).AllInStep := by
  intro t tab htab
  cases htab

theorem allInStep_of_reach {ok : Clients H → ClientAction → Prop} {c : Clients H}
    (hc : (system H).Reach ok c) : c.AllInStep :=
  hc.invariant allInStep_initial fun _ _ _ _ h _ hstep =>
    h.change (change_of_step hstep)

def FromTab (H : Host) (sent : Composed) : Prop :=
  ∃ (tab : Tab H) (identity : CommonwareIdentity H.ed25519) (input : JsString)
    (now : Nat) (random : JsString), InStep tab ∧
    tab.identityRef = some identity ∧
    tab.composeMessage input now random = some sent.message ∧
    sent.key = identity.publicKey ∧ sent.peerId = tab.peerId ∧
    sent.text = trim input ∧
    sent.directPeer = if tab.activeView = .direct
      then some tab.activeDirectPeerId else none

theorem fromTab_of_reach {ok : Clients H → ClientAction → Prop} {c : Clients H}
    (hc : (system H).Reach ok c) : ∀ sent ∈ c.composed, FromTab H sent := by
  refine hc.invariant (I := fun c => ∀ sent ∈ c.composed, FromTab H sent)
    (fun _ h => absurd h List.not_mem_nil) ?_
  intro c a c' hreach h _ hnext
  cases change_of_step hnext with
  | signAndSend hsend =>
      obtain ⟨tab, identity, htab, hid, hmsg, rfl⟩ := signAndSend_cases hsend
      intro sent hsent
      rcases List.mem_append.mp hsent with hold | hnew
      · exact h sent hold
      · rw [List.mem_singleton.mp hnew]
        exact ⟨tab, identity, _, _, _, allInStep_of_reach hreach _ tab htab, hid,
          hmsg, rfl, rfl, rfl, rfl⟩
  | _ => exact h

/-! ## What a step does to a tab -/

theorem loadStored_messages (b : BrowserId) (storage : LocalStorage) :
    ((Tab.fresh H b).loadStored storage).messages = [] := by
  unfold Tab.loadStored
  split
  · rfl
  split
  · split <;> rfl
  · rfl

theorem onRelayEvent_messages (tab : Tab H) (event : RelayEvent) :
    (tab.onRelayEvent event).messages = tab.messages ∨
      ∃ payload e, event = .message payload ∧
        Tab.incoming H tab.peerId (.ofJs payload) = some e ∧
        (∀ m ∈ tab.messages, m.id.strictEq e.id = false) ∧
        (tab.onRelayEvent event).messages = tab.messages ++ [e] := by
  cases event with
  | onlineList list => exact .inl rfl
  | userOnline user =>
      left
      simp only [Tab.onRelayEvent, Tab.onUserOnline]
      split
      · rfl
      · split <;> rfl
  | userOffline data =>
      left
      simp only [Tab.onRelayEvent, Tab.onUserOffline]
      split
      · rfl
      · split <;> rfl
  | message payload =>
      cases hin : Tab.incoming H tab.peerId (.ofJs payload) with
      | none =>
          left
          simp only [Tab.onRelayEvent, Tab.onMessage, hin]
      | some e =>
          by_cases hknown : tab.messages.any fun m => m.id.strictEq e.id
          · left
            simp only [Tab.onRelayEvent, Tab.onMessage, hin, Tab.appendNew, hknown,
              if_true]
          · refine .inr ⟨payload, e, rfl, hin, ?_, ?_⟩
            · simpa using hknown
            · simp [Tab.onRelayEvent, Tab.onMessage, hin, Tab.appendNew, hknown]

theorem setTab_ne_none {c : Clients H} {t u : TabId} {tab : Tab H}
    (h : c.tabs u ≠ none) : (c.setTab t tab).tabs u ≠ none := by
  simp only [setTab, Function.update_apply]
  split
  · simp
  · exact h

theorem tabs_ne_none_of_change {c c' : Clients H} {a : ClientAction}
    (hchange : Change c a c') {u : TabId} (h : c.tabs u ≠ none) :
    c'.tabs u ≠ none := by
  cases hchange with
  | signAndSend hsend =>
      obtain ⟨tab, identity, -, -, -, rfl⟩ := signAndSend_cases hsend
      exact setTab_ne_none h
  | persist htab => exact h
  | signElsewhere key hns msg => exact h
  | handleInitialize _ _ _ _ => exact setTab_ne_none (c := c.setStorage _ _) h
  | saveDisplayName _ _ _ => exact setTab_ne_none (c := c.setStorage _ _) h
  | _ => exact setTab_ne_none h

def FreshTab (c : Clients H) : Prop := ∀ t, c.nextTab ≤ t → c.tabs t = none

structure SamePeer (tab tab' : Tab H) : Prop where
  peerId_eq : tab'.peerId = tab.peerId
  onlinePeers_eq : tab'.onlinePeers = tab.onlinePeers
  loaded_eq : tab'.loaded = tab.loaded
  wantsSocket_of : tab.wantsSocket = true → tab'.wantsSocket = true

def Absent (c : Clients H) (t : TabId) : Prop :=
  ∀ tab, c.tabs t = some tab → tab.isInitialized = false

theorem drop_loadEffect {tab : Tab H} (storage : LocalStorage)
    (hnil : tab.messages = []) :
    (tab.loadEffect storage).messages.drop (tab.loadEffect storage).loaded = [] := by
  unfold Tab.loadEffect
  split
  · simp [hnil]
  split
  · simp [hnil]
  split
  · simp
  · simp [hnil]

/--
A step other than a reception keeps what the network sees of each tab, and adds
to its messages at most what the tab itself sends.  A page load and an
initialization make a tab whose messages are the stored ones.
-/
theorem tab_of_change {c c' : Clients H} {a : ClientAction}
    (hstep : c.AllInStep) (hfresh : c.FreshTab) (hchange : Change c a c')
    (hreceive : ∀ t event, a ≠ .receive t event) {u : TabId} {tab' : Tab H}
    (hu : c'.tabs u = some tab') :
    (∃ tab, c.tabs u = some tab ∧ SamePeer tab tab' ∧
      (tab'.messages = tab.messages ∨ ∃ input now random msg,
        a = .signAndSend u input now random ∧
        c.signAndSend u input now random = some (c', msg) ∧
        tab'.messages = tab.messages ++ [msg])) ∨
      (c.Absent u ∧ tab'.messages.drop tab'.loaded = []) := by
  have hsame : ∀ tab : Tab H, SamePeer tab tab := fun _ => ⟨rfl, rfl, rfl, id⟩
  have hold : c.tabs u = some tab' → (∃ tab, c.tabs u = some tab ∧
      SamePeer tab tab' ∧ (tab'.messages = tab.messages ∨
        ∃ input now random msg, a = .signAndSend u input now random ∧
        c.signAndSend u input now random = some (c', msg) ∧
        tab'.messages = tab.messages ++ [msg])) :=
    fun h => ⟨tab', h, hsame tab', .inl rfl⟩
  cases hchange with
  | load b =>
      rcases setTab_cases hu with ⟨rfl, rfl⟩ | ⟨-, hu⟩
      · refine .inr ⟨?_, drop_loadEffect _ (loadStored_messages b _)⟩
        intro tab htab
        rw [hfresh c.nextTab (Nat.le_refl _)] at htab
        cases htab
      · exact .inl (hold hu)
  | @handleInitialize t tab storage tab₁ name random htab hnew hinit =>
      cases hinit
      rcases setTab_cases (c := c.setStorage _ _) hu with ⟨rfl, rfl⟩ | ⟨-, hu⟩
      · refine .inr ⟨?_, drop_loadEffect _ ((hstep u tab htab).messages_eq_nil hnew)⟩
        intro tab₂ htab₂
        obtain rfl : tab = tab₂ := Option.some.inj (htab.symm.trans htab₂)
        exact hnew
      · exact .inl (hold hu)
  | @saveDisplayName t tab storage tab₁ name htab hname hupdate =>
      cases hupdate
      rcases setTab_cases (c := c.setStorage _ _) hu with ⟨rfl, rfl⟩ | ⟨-, hu⟩
      · refine .inl ⟨tab, htab, ⟨rfl, rfl, rfl, ?_⟩, .inl rfl⟩
        intro hwants
        simp only [Tab.wantsSocket, Bool.and_eq_true, decide_eq_true_eq]
          at hwants ⊢
        exact ⟨hwants.1, hname⟩
      · exact .inl (hold hu)
  | @openPublicRoom t tab htab roomId =>
      rcases setTab_cases hu with ⟨rfl, rfl⟩ | ⟨-, hu⟩
      · exact .inl ⟨tab, htab, ⟨rfl, rfl, rfl, id⟩, .inl rfl⟩
      · exact .inl (hold hu)
  | @openDirectWith t tab htab row peer hpeer =>
      rcases setTab_cases hu with ⟨rfl, rfl⟩ | ⟨-, hu⟩
      · exact .inl ⟨tab, htab, ⟨rfl, rfl, rfl, id⟩, .inl rfl⟩
      · exact .inl (hold hu)
  | @signAndSend t input now random c₁ msg hsend =>
      obtain ⟨tab, identity, htab, -, -, heq⟩ := signAndSend_cases hsend
      have hset : (c.setTab t { tab with messages := tab.messages ++ [msg] }).tabs
          u = some tab' := by
        rw [heq] at hu
        exact hu
      rcases setTab_cases hset with ⟨rfl, rfl⟩ | ⟨-, hu⟩
      · exact .inl ⟨tab, htab, ⟨rfl, rfl, rfl, id⟩,
          .inr ⟨input, now, random, msg, rfl, hsend, rfl⟩⟩
      · exact .inl (hold hu)
  | @receive t tab htab hwants event => exact absurd rfl (hreceive t event)
  | persist htab => exact .inl (hold hu)
  | signElsewhere key hns msg => exact .inl (hold hu)

theorem loadEffect_loaded_le {tab : Tab H} (h : tab.loaded ≤ tab.messages.length)
    (storage : LocalStorage) :
    (tab.loadEffect storage).loaded ≤ (tab.loadEffect storage).messages.length := by
  unfold Tab.loadEffect
  split
  · exact h
  split
  · exact h
  split
  · exact Nat.le_refl _
  · exact h

theorem loadStored_loaded (b : BrowserId) (storage : LocalStorage) :
    ((Tab.fresh H b).loadStored storage).loaded = 0 := by
  unfold Tab.loadStored
  split
  · rfl
  split
  · split <;> rfl
  · rfl

theorem loaded_le_of_reach {ok : Clients H → ClientAction → Prop} {c : Clients H}
    (hc : (system H).Reach ok c) :
    ∀ t tab, c.tabs t = some tab → tab.loaded ≤ tab.messages.length := by
  refine hc.invariant (I := fun c => ∀ t tab, c.tabs t = some tab →
    tab.loaded ≤ tab.messages.length) (by intro t tab htab; cases htab) ?_
  intro c a c' _ h _ hnext
  refine forall_tabs_of_change (change_of_step hnext) h ?_ ?_ ?_ ?_ ?_ ?_ ?_
  · intro b storage
    refine loadEffect_loaded_le ?_ storage
    rw [loadStored_loaded]
    exact Nat.zero_le _
  · intro t tab storage name random htab _
    have hadopt : (tab.adopt (createIdentity H.ed25519 random) name).loaded ≤
        (tab.adopt (createIdentity H.ed25519 random) name).messages.length :=
      h t tab htab
    exact loadEffect_loaded_le hadopt storage
  · exact fun t tab _ htab _ => h t tab htab
  · exact fun t tab _ htab => h t tab htab
  · exact fun t tab _ htab _ => h t tab htab
  · intro t tab input now random msg htab _
    exact (h t tab htab).trans (by simp)
  · intro t tab event _ htab _
    rw [(onRelayEvent_identity tab event).2.2.2.2.2]
    rcases onRelayEvent_messages tab event with hsame | ⟨_, _, -, -, -, happend⟩
    · rw [hsame]
      exact h t tab htab
    · rw [happend]
      exact (h t tab htab).trans (by simp)

theorem freshTab_of_reach {ok : Clients H → ClientAction → Prop} {c : Clients H}
    (hc : (system H).Reach ok c) : c.FreshTab := by
  refine hc.invariant (fun _ _ => rfl) ?_
  intro c a c' _ h _ hnext t ht
  have hset : ∀ (c₁ : Clients H) (u : TabId) (tab tab₁ : Tab H),
      c.tabs u = some tab → c₁.tabs = c.tabs → c.nextTab ≤ t →
      (c₁.setTab u tab₁).tabs t = none := by
    intro c₁ u tab tab₁ hu htabs hle
    have hne : t ≠ u := by
      rintro rfl
      rw [h t hle] at hu
      cases hu
    rw [setTab_other c₁ tab₁ hne, htabs]
    exact h t hle
  cases change_of_step hnext with
  | load b =>
      have hlt : c.nextTab < t := ht
      rw [show (c.load b).tabs t = c.tabs t from
        setTab_other c _ (Nat.ne_of_gt hlt)]
      exact h t (Nat.le_of_lt hlt)
  | handleInitialize random htab _ _ => exact hset (c.setStorage _ _) _ _ _ htab rfl ht
  | saveDisplayName htab _ _ => exact hset (c.setStorage _ _) _ _ _ htab rfl ht
  | openPublicRoom htab _ => exact hset c _ _ _ htab rfl ht
  | openDirectWith htab _ => exact hset c _ _ _ htab rfl ht
  | signAndSend hsend =>
      obtain ⟨tab, identity, htab, -, -, rfl⟩ := signAndSend_cases hsend
      exact hset c _ _ { tab with messages := tab.messages ++ [_] } htab rfl ht
  | receive htab _ _ => exact hset c _ _ _ htab rfl ht
  | persist htab => exact h t ht
  | signElsewhere key hns msg => exact h t ht

theorem tab_survives {c c' : Clients H} {a : ClientAction} (hfresh : c.FreshTab)
    (hchange : Change c a c') {u : TabId} {tab : Tab H}
    (hu : c.tabs u = some tab) (hwants : tab.wantsSocket = true) :
    ∃ tab', c'.tabs u = some tab' ∧ tab'.peerId = tab.peerId ∧
      tab'.wantsSocket = true := by
  have hset : ∀ (c₁ : Clients H) (t : TabId) (tab₁ : Tab H), c₁.tabs = c.tabs →
      (u = t → tab₁.peerId = tab.peerId ∧ tab₁.wantsSocket = true) →
      ∃ tab', (c₁.setTab t tab₁).tabs u = some tab' ∧
        tab'.peerId = tab.peerId ∧ tab'.wantsSocket = true := by
    intro c₁ t tab₁ htabs hkeep
    by_cases hut : u = t
    · subst hut
      exact ⟨tab₁, setTab_self c₁ u tab₁, hkeep rfl⟩
    · exact ⟨tab, by rw [setTab_other c₁ tab₁ hut, htabs, hu], rfl, hwants⟩
  cases hchange with
  | load b =>
      refine hset c c.nextTab _ rfl ?_
      rintro rfl
      rw [hfresh c.nextTab (Nat.le_refl _)] at hu
      cases hu
  | @handleInitialize t tab₁ storage tab₂ name random htab hnew hinit =>
      cases hinit
      refine hset (c.setStorage _ _) t _ rfl ?_
      rintro rfl
      obtain rfl : tab = tab₁ := Option.some.inj (hu.symm.trans htab)
      simp [Tab.wantsSocket, hnew] at hwants
  | @saveDisplayName t tab₁ storage tab₂ name htab hname hupdate =>
      cases hupdate
      refine hset (c.setStorage _ _) t _ rfl ?_
      rintro rfl
      obtain rfl : tab = tab₁ := Option.some.inj (hu.symm.trans htab)
      refine ⟨rfl, ?_⟩
      simp only [Tab.wantsSocket, Bool.and_eq_true, decide_eq_true_eq] at hwants ⊢
      exact ⟨hwants.1, hname⟩
  | @openPublicRoom t tab₁ htab roomId =>
      refine hset c t _ rfl ?_
      rintro rfl
      obtain rfl : tab = tab₁ := Option.some.inj (hu.symm.trans htab)
      exact ⟨rfl, hwants⟩
  | @openDirectWith t tab₁ htab row peer hpeer =>
      refine hset c t _ rfl ?_
      rintro rfl
      obtain rfl : tab = tab₁ := Option.some.inj (hu.symm.trans htab)
      exact ⟨rfl, hwants⟩
  | @signAndSend t input now random c₁ msg hsend =>
      obtain ⟨tab₁, identity, htab, -, -, rfl⟩ := signAndSend_cases hsend
      refine hset c t { tab₁ with messages := tab₁.messages ++ [msg] } rfl ?_
      rintro rfl
      obtain rfl : tab = tab₁ := Option.some.inj (hu.symm.trans htab)
      exact ⟨rfl, hwants⟩
  | @receive t tab₁ htab hwants₁ event =>
      refine hset c t _ rfl ?_
      rintro rfl
      obtain rfl : tab = tab₁ := Option.some.inj (hu.symm.trans htab)
      obtain ⟨-, hpeer, hinit, -, hname, -⟩ := onRelayEvent_identity tab event
      refine ⟨hpeer, ?_⟩
      rw [Tab.wantsSocket, hpeer, hinit, hname]
      exact hwants
  | persist htab => exact ⟨tab, hu, rfl, hwants⟩
  | signElsewhere key hns msg => exact ⟨tab, hu, rfl, hwants⟩

end CommonChat.Frontend.Clients
