import CommonChat.Frontend.Runs

/-!
# The stored identity

All tabs of a browser share the item `commonchat_identity`.  Loading and renaming
read it first, and an initialization overwrites it.  A tab that was loaded before
another one initialized can still initialize, and then the key of the other tab
is no longer stored anywhere.
-/

namespace CommonChat.Frontend

open CommonChat.Foundation
open CommonChat.Core
open CommonChat.Relay

variable {H : Host}

def KeyStored (storage : LocalStorage) (tab : Tab H) : Prop :=
  tab.isInitialized = true → ∃ stored identity, storage.identity = some stored ∧
    identityFromPrivateHex H.ed25519 (encodeUtf8 stored.privateKeyHex) =
      .ok identity ∧
    tab.identityRef = some identity ∧ tab.peerId = ofAscii identity.pubKey

def storedKey (storage : LocalStorage) : Option JsString :=
  storage.identity.map StoredIdentity.privateKeyHex

theorem KeyStored.of_same {storage storage' : LocalStorage} {tab tab' : Tab H}
    (h : KeyStored storage tab) (hstorage : storedKey storage' = storedKey storage)
    (hid : tab'.identityRef = tab.identityRef) (hpeer : tab'.peerId = tab.peerId)
    (hinit : tab'.isInitialized = tab.isInitialized) : KeyStored storage' tab' := by
  intro hyes
  obtain ⟨stored, identity, hstored, hrestore, href, hpeer'⟩ := h (hinit ▸ hyes)
  have hkey : storedKey storage' = some stored.privateKeyHex := by
    rw [hstorage, storedKey, hstored]
    rfl
  obtain ⟨stored', hstored', hsame⟩ := Option.map_eq_some_iff.mp hkey
  exact ⟨stored', identity, hstored', by rw [hsame]; exact hrestore, hid.trans href,
    hpeer.trans hpeer'⟩

theorem loadEffect_identity (tab : Tab H) (storage : LocalStorage) :
    (tab.loadEffect storage).identityRef = tab.identityRef ∧
      (tab.loadEffect storage).peerId = tab.peerId ∧
      (tab.loadEffect storage).isInitialized = tab.isInitialized ∧
      (tab.loadEffect storage).browser = tab.browser := by
  unfold Tab.loadEffect
  split
  · exact ⟨rfl, rfl, rfl, rfl⟩
  split
  · exact ⟨rfl, rfl, rfl, rfl⟩
  split <;> exact ⟨rfl, rfl, rfl, rfl⟩

theorem KeyStored.loadEffect {storage : LocalStorage} {tab : Tab H}
    (h : KeyStored storage tab) (storage' : LocalStorage) :
    KeyStored storage (tab.loadEffect storage') := by
  obtain ⟨hid, hpeer, hinit, -⟩ := loadEffect_identity tab storage'
  exact h.of_same rfl hid hpeer hinit

theorem keyStored_loadStored (b : BrowserId) (storage : LocalStorage) :
    KeyStored storage ((Tab.fresh H b).loadStored storage) := by
  unfold Tab.loadStored
  split
  · nofun
  rename_i stored hstored
  split
  · split
    · rename_i identity hrestore
      exact fun _ => ⟨stored, identity, hstored, hrestore, rfl, rfl⟩
    · nofun
  · nofun

theorem loadStored_browser (b : BrowserId) (storage : LocalStorage) :
    ((Tab.fresh H b).loadStored storage).browser = b := by
  unfold Tab.loadStored
  split
  · rfl
  split
  · split <;> rfl
  · rfl

theorem keyStored_initialize (tab : Tab H) (storage : LocalStorage)
    (name : JsString) (random : PrivateKey) :
    KeyStored (tab.initializeWithDisplayName storage name random).1
      (tab.initializeWithDisplayName storage name random).2 := by
  intro _
  refine ⟨_, createIdentity H.ed25519 random, rfl, ?_, rfl, rfl⟩
  have htext : encodeUtf8 (ofAscii (createIdentity H.ed25519 random).exportPrivateHex) =
      (createIdentity H.ed25519 random).exportPrivateHex :=
    encodeUtf8_ofAscii (H.ed25519.hex.encode_ascii _)
  simp only [htext]
  exact (identityFromPrivateHex_eq_ok_iff _ _).mpr (H.ed25519.hex.decode_encode _)

theorem storedKey_updateDisplayName (tab : Tab H) (storage : LocalStorage)
    (name : JsString) :
    storedKey (tab.updateDisplayName storage name).1 = storedKey storage := by
  rw [storedKey, storedKey, Tab.updateDisplayName]
  cases storage.identity <;> rfl

theorem storedKey_persistEffect (tab : Tab H) (storage : LocalStorage) :
    storedKey (tab.persistEffect storage) = storedKey storage := by
  unfold Tab.persistEffect
  split <;> rfl

namespace Clients

def KeysStored (c : Clients H) : Prop :=
  ∀ t tab, c.tabs t = some tab → KeyStored (c.storage tab.browser) tab

/-- A tab initializes only while no tab of its browser is initialized. -/
def InitializesFirst (c : Clients H) : ClientAction → Prop
  | .handleInitialize t _ _ => ∀ tab, c.tabs t = some tab → ∀ u tab',
      c.tabs u = some tab' → tab'.browser = tab.browser → tab'.isInitialized = false
  | _ => True

theorem KeysStored.setTab {c d : Clients H} (h : c.KeysStored)
    (htabs : d.tabs = c.tabs)
    (hstorage : ∀ b, storedKey (d.storage b) = storedKey (c.storage b))
    {t : TabId} {tab : Tab H} (htab : KeyStored (d.storage tab.browser) tab) :
    (d.setTab t tab).KeysStored := by
  intro u tab' hu
  rcases setTab_cases hu with ⟨-, rfl⟩ | ⟨-, hold⟩
  · exact htab
  · rw [htabs] at hold
    exact (h u tab' hold).of_same (hstorage _) rfl rfl rfl

theorem storedKey_setStorage {c : Clients H} {b : BrowserId}
    {storage : LocalStorage} (h : storedKey storage = storedKey (c.storage b))
    (d : BrowserId) :
    storedKey ((c.setStorage b storage).storage d) = storedKey (c.storage d) := by
  by_cases hd : d = b
  · subst hd
    rw [setStorage_self, h]
  · rw [setStorage_other c storage hd]

theorem KeysStored.change {c c' : Clients H} {a : ClientAction}
    (h : c.KeysStored) (hfirst : c.InitializesFirst a) (hchange : Change c a c') :
    c'.KeysStored := by
  cases hchange with
  | load b =>
      refine h.setTab rfl (fun _ => rfl) ?_
      rw [(loadEffect_identity _ _).2.2.2, loadStored_browser]
      exact (keyStored_loadStored b _).loadEffect _
  | @handleInitialize t tab storage tab₁ name random htab hnew hinit =>
      have hkey := keyStored_initialize tab (c.storage tab.browser) (trim name) random
      rw [hinit] at hkey
      have hbrowser : (tab₁.loadEffect storage).browser = tab.browser := by
        rw [(loadEffect_identity tab₁ storage).2.2.2]
        cases hinit
        rfl
      intro u tab' hu
      rcases setTab_cases (c := c.setStorage _ _) hu with ⟨-, rfl⟩ | ⟨-, hold⟩
      · rw [hbrowser]
        change KeyStored ((c.setStorage tab.browser storage).storage tab.browser) _
        rw [setStorage_self]
        exact hkey.loadEffect storage
      · by_cases hsame : tab'.browser = tab.browser
        · intro hyes
          rw [hfirst tab htab u tab' hold hsame] at hyes
          cases hyes
        · change KeyStored ((c.setStorage tab.browser storage).storage tab'.browser) _
          rw [setStorage_other c storage hsame]
          exact h u tab' hold
  | @saveDisplayName t tab storage tab₁ name htab hname hupdate =>
      have hkeep : storedKey storage = storedKey (c.storage tab.browser) := by
        have hsame := storedKey_updateDisplayName tab (c.storage tab.browser) (trim name)
        rw [hupdate] at hsame
        exact hsame
      cases hupdate
      refine h.setTab (d := c.setStorage _ _) rfl (storedKey_setStorage hkeep) ?_
      exact (h t tab htab).of_same (storedKey_setStorage hkeep _) rfl rfl rfl
  | @openPublicRoom t tab htab roomId =>
      exact h.setTab rfl (fun _ => rfl) ((h t tab htab).of_same rfl rfl rfl rfl)
  | @openDirectWith t tab htab row peer hpeer =>
      exact h.setTab rfl (fun _ => rfl) ((h t tab htab).of_same rfl rfl rfl rfl)
  | @signAndSend t input now random c₁ msg hsend =>
      obtain ⟨tab, identity, htab, -, -, rfl⟩ := signAndSend_cases hsend
      have hset : (c.setTab t
          { tab with messages := tab.messages ++ [msg] }).KeysStored :=
        h.setTab rfl (fun _ => rfl) ((h t tab htab).of_same rfl rfl rfl rfl)
      exact hset
  | @receive t tab htab hwants event =>
      obtain ⟨hid, hpeer, hinit, hbrowser, -⟩ := onRelayEvent_identity tab event
      refine h.setTab rfl (fun _ => rfl) ?_
      rw [hbrowser]
      exact (h t tab htab).of_same rfl hid hpeer hinit
  | @persist t tab htab =>
      intro u tab' hu
      refine (h u tab' hu).of_same ?_ rfl rfl rfl
      exact storedKey_setStorage (storedKey_persistEffect tab _) _
  | signElsewhere key hns msg => exact h

/--
As long as tabs initialize only while no tab of their browser is initialized, the
identity of every initialized tab is the stored one.
-/
theorem key_stored_of_reach {c : Clients H}
    (hc : (system H).Reach InitializesFirst c) {t : TabId} {tab : Tab H}
    (htab : c.tabs t = some tab) (hinit : tab.isInitialized = true) :
    ∃ stored identity, (c.storage tab.browser).identity = some stored ∧
      identityFromPrivateHex H.ed25519 (encodeUtf8 stored.privateKeyHex) =
        .ok identity ∧
      tab.identityRef = some identity ∧ tab.peerId = ofAscii identity.pubKey := by
  have hall : c.KeysStored :=
    hc.invariant (I := KeysStored) (fun _ _ htab => by cases htab) fun _ _ _ _ h hok hnext =>
      h.change hok (change_of_step hnext)
  exact hall t tab htab hinit

theorem key_stored_in_second_tab :
    ∃ c : Clients plainHost, (system plainHost).Reach InitializesFirst c ∧
      ∃ tab, c.tabs 1 = some tab ∧ tab.isInitialized = true ∧
        ∃ stored identity, (c.storage tab.browser).identity = some stored ∧
          identityFromPrivateHex plainEd25519 (encodeUtf8 stored.privateKeyHex) =
            .ok identity ∧
          tab.peerId = ofAscii identity.pubKey := by
  have hfirst : (system plainHost).Reach InitializesFirst
      ((initial plainHost).load 0) :=
    .step (a := .load 0) .initial trivial rfl
  have hnew : ∀ u tab, ((initial plainHost).load 0).tabs u = some tab →
      tab.isInitialized = false := by
    intro u tab hu
    rcases setTab_cases hu with ⟨-, rfl⟩ | ⟨-, hold⟩
    · rfl
    · cases hold
  have hrun : (((((initial plainHost).load 0).step
      (.handleInitialize 0 (js "P") (plainKey 1))).bind fun c =>
        (c.step (.saveDisplayName 0 (js "Q"))).bind fun c' =>
          c'.step (.load 0)).any fun c =>
            (c.tabs 1).any Tab.isInitialized) = true := by
    decide +kernel
  obtain ⟨c, hc, htab⟩ := (Option.any_eq_true _ _).mp hrun
  obtain ⟨c₁, hc₁, hrest⟩ := Option.bind_eq_some_iff.mp hc
  obtain ⟨c₂, hc₂, hc₃⟩ := Option.bind_eq_some_iff.mp hrest
  have hreach : (system plainHost).Reach InitializesFirst c :=
    .step (a := .load 0) (.step (a := .saveDisplayName 0 (js "Q"))
      (.step (a := .handleInitialize 0 (js "P") (plainKey 1)) hfirst
        (fun _ _ u tab' hu _ => hnew u tab' hu) hc₁) trivial hc₂) trivial hc₃
  obtain ⟨tab, htab, hinit⟩ := (Option.any_eq_true _ _).mp htab
  obtain ⟨stored, identity, hstored, hrestore, -, hpeer⟩ :=
    key_stored_of_reach hreach htab hinit
  exact ⟨c, hreach, tab, htab, hinit, stored, identity, hstored, hrestore, hpeer⟩

theorem key_lost_of_second_initialize :
    ¬ ∀ (H : Host) (c : Clients H), (system H).Reach (fun _ _ => True) c →
      ∀ t tab, c.tabs t = some tab → tab.isInitialized = true →
        ∃ stored identity, (c.storage tab.browser).identity = some stored ∧
          identityFromPrivateHex H.ed25519 (encodeUtf8 stored.privateKeyHex) =
            .ok identity ∧
          tab.peerId = ofAscii identity.pubKey := by
  intro hall
  obtain ⟨c, hc, hcheck⟩ := System.exists_reach_of_exec
    (system plainHost) (fun _ _ => True) (fun _ _ => true)
    ([.load 0, .load 0, .handleInitialize 0 (js "A") (plainKey 1),
      .handleInitialize 1 (js "B") (plainKey 2)])
    (fun c => (c.tabs 0).any fun tab => tab.isInitialized &&
      (c.storage tab.browser).identity.all fun stored =>
        match identityFromPrivateHex plainEd25519
            (encodeUtf8 stored.privateKeyHex) with
        | .ok identity => tab.peerId ≠ ofAscii identity.pubKey
        | .error _ => true)
    (fun _ _ _ => trivial) (by decide +kernel)
  simp only [Option.any_eq_true, Bool.and_eq_true] at hcheck
  obtain ⟨tab, htab, hinit, hother⟩ := hcheck
  obtain ⟨stored, identity, hstored, hrestore, hpeer⟩ :=
    hall plainHost c hc 0 tab htab hinit
  rw [hstored, Option.all_some] at hother
  simp only [plainHost] at hrestore
  simp only [hrestore, hpeer, ne_eq, decide_eq_true_eq] at hother
  exact hother rfl

end Clients

end CommonChat.Frontend
