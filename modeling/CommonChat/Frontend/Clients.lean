import CommonChat.Foundation.Transition
import CommonChat.Frontend.Tab

/-!
# All shipped clients

Any number of tabs over any number of browsers, each browser with one local
storage.  What the relay delivers is left open: the action `receive` takes an
arbitrary event, so a run of this system covers every relay and every network.
A page load and the effects it triggers are one action; so is a run of a
handler, and the persist effect is an action of its own.

The last three fields are history: the keys that shipped clients generated, the
runs of `handleSignAndSend`, and every payload that a generated key has signed,
in this application or, through `signElsewhere`, under another namespace.
-/

namespace CommonChat.Frontend

open CommonChat.Foundation
open CommonChat.Core
open CommonChat.Relay

abbrev TabId := Nat

/-- One run of `handleSignAndSend` that sent a message. -/
structure Composed where
  tab : TabId
  key : PublicKey
  peerId : JsString
  text : JsString
  directPeer : Option JsValue
  message : ChatMessage

def Composed.ofTab {H : Host} (t : TabId) (tab : Tab H)
    (identity : CommonwareIdentity H.ed25519) (input : JsString)
    (msg : ChatMessage) : Composed where
  tab := t
  key := identity.publicKey
  peerId := tab.peerId
  text := trim input
  directPeer := if tab.activeView = .direct then some tab.activeDirectPeerId
    else none
  message := msg

structure Clients (H : Host) where
  storage : BrowserId → LocalStorage
  tabs : TabId → Option (Tab H)
  nextTab : TabId
  keys : List PrivateKey
  composed : List Composed
  signed : List (PublicKey × Bytes)

inductive ClientAction where
  | load (browser : BrowserId)
  | handleInitialize (tab : TabId) (operatorName : JsString) (random : PrivateKey)
  | saveDisplayName (tab : TabId) (editNameValue : JsString)
  | openPublicRoom (tab : TabId) (roomId : PublicRoomId)
  | openDirectWith (tab : TabId) (row : Nat)
  | signAndSend (tab : TabId) (input : JsString) (now : Nat) (random : JsString)
  | receive (tab : TabId) (event : RelayEvent)
  | persist (tab : TabId)
  | signElsewhere (key : PrivateKey) (ns : Namespace) (msg : Bytes)

namespace Clients

variable {H : Host}

def initial (H : Host) : Clients H where
  storage := fun _ => .empty
  tabs := fun _ => none
  nextTab := 0
  keys := []
  composed := []
  signed := []

def setTab (c : Clients H) (t : TabId) (tab : Tab H) : Clients H :=
  { c with tabs := Function.update c.tabs t (some tab) }

def setStorage (c : Clients H) (b : BrowserId) (storage : LocalStorage) :
    Clients H :=
  { c with storage := Function.update c.storage b storage }

/-- A page load: the stored identity is restored, then the stored messages. -/
def load (c : Clients H) (b : BrowserId) : Clients H :=
  let tab := ((Tab.fresh H b).loadStored (c.storage b)).loadEffect (c.storage b)
  { c.setTab c.nextTab tab with nextTab := c.nextTab + 1 }

/-- `handleInitialize`, which the modal offers to a tab without an identity. -/
def handleInitialize (c : Clients H) (t : TabId) (operatorName : JsString)
    (random : PrivateKey) : Option (Clients H) := do
  let tab ← c.tabs t
  if tab.isReady && !tab.isInitialized && tab.error.isNone &&
      trim operatorName ≠ [] then
    let (storage, tab') := tab.initializeWithDisplayName (c.storage tab.browser)
      (trim operatorName) random
    let c' := (c.setStorage tab.browser storage).setTab t (tab'.loadEffect storage)
    some { c' with keys := c.keys ++ [random] }
  else none

def saveDisplayName (c : Clients H) (t : TabId) (editNameValue : JsString) :
    Option (Clients H) := do
  let tab ← c.tabs t
  if tab.isInitialized && trim editNameValue ≠ [] then
    let (storage, tab') := tab.updateDisplayName (c.storage tab.browser)
      (trim editNameValue)
    some ((c.setStorage tab.browser storage).setTab t tab')
  else none

def signAndSend (c : Clients H) (t : TabId) (input : JsString) (now : Nat)
    (random : JsString) : Option (Clients H × ChatMessage) := do
  let tab ← c.tabs t
  let identity ← tab.identityRef
  let (tab', msg) ← tab.handleSignAndSend input now random
  let payload := unionUnique chatNamespace (encodeUtf8 (trim input))
  some ({ c.setTab t tab' with
      composed := c.composed ++ [.ofTab t tab identity input msg]
      signed := c.signed ++ [(identity.publicKey, payload)] }, msg)

def receive (c : Clients H) (t : TabId) (event : RelayEvent) :
    Option (Clients H) := do
  let tab ← c.tabs t
  if tab.wantsSocket then some (c.setTab t (tab.onRelayEvent event)) else none

def step (c : Clients H) : ClientAction → Option (Clients H)
  | .load b => some (c.load b)
  | .handleInitialize t operatorName random => c.handleInitialize t operatorName random
  | .saveDisplayName t editNameValue => c.saveDisplayName t editNameValue
  | .openPublicRoom t roomId =>
      (c.tabs t).map fun tab => c.setTab t (tab.openPublicRoom roomId)
  | .openDirectWith t row => do
      let tab ← c.tabs t
      let peer ← tab.directMessagesPeerList[row]?
      some (c.setTab t (tab.openDirectWith peer.pubKey))
  | .signAndSend t input now random =>
      (c.signAndSend t input now random).map Prod.fst
  | .receive t event => c.receive t event
  | .persist t =>
      (c.tabs t).map fun tab =>
        c.setStorage tab.browser (tab.persistEffect (c.storage tab.browser))
  | .signElsewhere key ns msg =>
      if ns = chatNamespace then none
      else
        some { c with signed :=
          c.signed ++ [(H.ed25519.verificationKey key, unionUnique ns msg)] }

def system (H : Host) : System (Clients H) ClientAction := ⟨initial H, step⟩

@[simp] theorem setTab_self (c : Clients H) (t : TabId) (tab : Tab H) :
    (c.setTab t tab).tabs t = some tab := by
  simp [setTab]

theorem setTab_other (c : Clients H) {t u : TabId} (tab : Tab H) (h : u ≠ t) :
    (c.setTab t tab).tabs u = c.tabs u := by
  simp [setTab, h]

theorem setTab_cases {c : Clients H} {t u : TabId} {tab tab' : Tab H}
    (h : (c.setTab t tab).tabs u = some tab') :
    (u = t ∧ tab = tab') ∨ (u ≠ t ∧ c.tabs u = some tab') := by
  by_cases hut : u = t
  · subst hut
    rw [setTab_self] at h
    exact .inl ⟨rfl, Option.some.inj h⟩
  · rw [setTab_other c tab hut] at h
    exact .inr ⟨hut, h⟩

theorem forall_setTab {Q : TabId → Tab H → Prop} {c : Clients H}
    (h : ∀ u tab, c.tabs u = some tab → Q u tab) {t : TabId} {tab : Tab H}
    (htab : Q t tab) (u : TabId) (tab' : Tab H)
    (hu : (c.setTab t tab).tabs u = some tab') : Q u tab' := by
  rcases setTab_cases hu with ⟨rfl, rfl⟩ | ⟨-, hold⟩
  · exact htab
  · exact h u tab' hold

@[simp] theorem setStorage_self (c : Clients H) (b : BrowserId)
    (storage : LocalStorage) : (c.setStorage b storage).storage b = storage := by
  simp [setStorage]

theorem setStorage_other (c : Clients H) {b d : BrowserId}
    (storage : LocalStorage) (h : d ≠ b) :
    (c.setStorage b storage).storage d = c.storage d := by
  simp [setStorage, h]

/-! ## What a step can do -/

/--
The cases of a step.  A step changes at most one tab and one storage, and what
it does to them is one of the functions of `Tab`.
-/
inductive Change (c : Clients H) : ClientAction → Clients H → Prop
  | load (b : BrowserId) : Change c (.load b) (c.load b)
  | handleInitialize {t : TabId} {tab : Tab H} {storage : LocalStorage}
      {tab' : Tab H} {name : JsString} (random : PrivateKey)
      (htab : c.tabs t = some tab) (hnew : tab.isInitialized = false)
      (hinit : tab.initializeWithDisplayName (c.storage tab.browser) (trim name)
        random = (storage, tab')) :
      Change c (.handleInitialize t name random)
        { (c.setStorage tab.browser storage).setTab t (tab'.loadEffect storage) with
          keys := c.keys ++ [random] }
  | saveDisplayName {t : TabId} {tab : Tab H} {storage : LocalStorage}
      {tab' : Tab H} {name : JsString} (htab : c.tabs t = some tab)
      (hname : trim name ≠ [])
      (hupdate : tab.updateDisplayName (c.storage tab.browser) (trim name) =
        (storage, tab')) :
      Change c (.saveDisplayName t name)
        ((c.setStorage tab.browser storage).setTab t tab')
  | openPublicRoom {t : TabId} {tab : Tab H} (htab : c.tabs t = some tab)
      (roomId : PublicRoomId) :
      Change c (.openPublicRoom t roomId) (c.setTab t (tab.openPublicRoom roomId))
  | openDirectWith {t : TabId} {tab : Tab H} (htab : c.tabs t = some tab)
      {row : Nat} {peer : ListedPeer}
      (hpeer : peer ∈ tab.directMessagesPeerList) :
      Change c (.openDirectWith t row) (c.setTab t (tab.openDirectWith peer.pubKey))
  | signAndSend {t : TabId} {input : JsString} {now : Nat} {random : JsString}
      {c' : Clients H} {msg : ChatMessage}
      (hsend : c.signAndSend t input now random = some (c', msg)) :
      Change c (.signAndSend t input now random) c'
  | receive {t : TabId} {tab : Tab H} (htab : c.tabs t = some tab)
      (hwants : tab.wantsSocket = true) (event : RelayEvent) :
      Change c (.receive t event) (c.setTab t (tab.onRelayEvent event))
  | persist {t : TabId} {tab : Tab H} (htab : c.tabs t = some tab) :
      Change c (.persist t) (c.setStorage tab.browser
        (tab.persistEffect (c.storage tab.browser)))
  | signElsewhere (key : PrivateKey) {ns : Namespace} (hns : ns ≠ chatNamespace)
      (msg : Bytes) :
      Change c (.signElsewhere key ns msg) { c with signed :=
        c.signed ++ [(H.ed25519.verificationKey key, unionUnique ns msg)] }

theorem signAndSend_cases {c c' : Clients H} {t : TabId} {input : JsString}
    {now : Nat} {random : JsString} {msg : ChatMessage}
    (h : c.signAndSend t input now random = some (c', msg)) :
    ∃ tab identity, c.tabs t = some tab ∧ tab.identityRef = some identity ∧
      tab.composeMessage input now random = some msg ∧
      c' = { c.setTab t { tab with messages := tab.messages ++ [msg] } with
        composed := c.composed ++ [.ofTab t tab identity input msg]
        signed := c.signed ++ [(identity.publicKey,
          unionUnique chatNamespace (encodeUtf8 (trim input)))] } := by
  simp only [signAndSend, Tab.handleSignAndSend, Option.bind_eq_bind,
    Option.bind_eq_some_iff, Option.map_eq_some_iff] at h
  obtain ⟨tab, htab, identity, hid, ⟨tab', msg'⟩, ⟨m, hm, heq⟩, hc⟩ := h
  cases heq
  cases hc
  exact ⟨tab, identity, htab, hid, hm, rfl⟩

theorem change_of_step {c c' : Clients H} {a : ClientAction}
    (h : c.step a = some c') : Change c a c' := by
  cases a with
  | load b =>
      cases h
      exact .load b
  | handleInitialize t operatorName random =>
      simp only [step, handleInitialize, Option.bind_eq_bind,
        Option.bind_eq_some_iff] at h
      obtain ⟨tab, htab, h⟩ := h
      split at h
      · rename_i hguard
        cases h
        simp only [Bool.and_eq_true, Bool.not_eq_true'] at hguard
        exact .handleInitialize random htab hguard.1.1.2 rfl
      · cases h
  | saveDisplayName t editNameValue =>
      simp only [step, saveDisplayName, Option.bind_eq_bind,
        Option.bind_eq_some_iff] at h
      obtain ⟨tab, htab, h⟩ := h
      split at h
      · rename_i hguard
        cases h
        simp only [Bool.and_eq_true, decide_eq_true_eq] at hguard
        exact .saveDisplayName htab hguard.2 rfl
      · cases h
  | openPublicRoom t roomId =>
      obtain ⟨tab, htab, rfl⟩ := Option.map_eq_some_iff.mp h
      exact .openPublicRoom htab roomId
  | openDirectWith t row =>
      simp only [step, Option.bind_eq_bind, Option.bind_eq_some_iff] at h
      obtain ⟨tab, htab, peer, hpeer, h⟩ := h
      cases h
      exact .openDirectWith htab (List.mem_of_getElem? hpeer)
  | signAndSend t input now random =>
      obtain ⟨⟨c₁, msg⟩, hsend, rfl⟩ := Option.map_eq_some_iff.mp h
      exact .signAndSend hsend
  | receive t event =>
      simp only [step, receive, Option.bind_eq_bind, Option.bind_eq_some_iff] at h
      obtain ⟨tab, htab, h⟩ := h
      split at h
      · rename_i hwants
        cases h
        exact .receive htab hwants event
      · cases h
  | persist t =>
      obtain ⟨tab, htab, rfl⟩ := Option.map_eq_some_iff.mp h
      exact .persist htab
  | signElsewhere key ns msg =>
      simp only [step] at h
      split at h
      · cases h
      · rename_i hns
        cases h
        exact .signElsewhere key hns msg

/--
The rule for properties of tabs: one obligation for each function that makes or
changes a tab, and one for the tabs that a step leaves alone.
-/
theorem forall_numbered_of_change {Q : TabId → Tab H → Prop} {c c' : Clients H}
    {a : ClientAction} (hchange : Change c a c')
    (hkeep : ∀ t tab, c.tabs t = some tab → Q t tab)
    (hload : ∀ b storage,
      Q c.nextTab (((Tab.fresh H b).loadStored storage).loadEffect storage))
    (hinit : ∀ t tab storage name random, c.tabs t = some tab →
      tab.isInitialized = false → Q t ((tab.adopt (createIdentity H.ed25519 random)
        name).loadEffect storage))
    (hname : ∀ t tab name, c.tabs t = some tab → name ≠ [] →
      Q t { tab with displayName := name })
    (hroom : ∀ t tab roomId, c.tabs t = some tab → Q t (tab.openPublicRoom roomId))
    (hdirect : ∀ t tab peer, c.tabs t = some tab →
      peer ∈ tab.directMessagesPeerList → Q t (tab.openDirectWith peer.pubKey))
    (hsend : ∀ t tab input now random msg, c.tabs t = some tab →
      tab.composeMessage input now random = some msg →
      Q t { tab with messages := tab.messages ++ [msg] })
    (hreceive : ∀ t tab event, a = .receive t event → c.tabs t = some tab →
      tab.wantsSocket = true → Q t (tab.onRelayEvent event)) :
    ∀ t tab, c'.tabs t = some tab → Q t tab := by
  cases hchange with
  | load b => exact forall_setTab hkeep (hload b _)
  | @handleInitialize t tab storage tab₁ name random htab hnew hinit' =>
      cases hinit'
      exact forall_setTab (c := c.setStorage _ _) hkeep
        (hinit t tab _ _ random htab hnew)
  | @saveDisplayName t tab storage tab₁ name htab hne hupdate =>
      cases hupdate
      exact forall_setTab (c := c.setStorage _ _) hkeep (hname t tab _ htab hne)
  | @openPublicRoom t tab htab roomId =>
      exact forall_setTab hkeep (hroom t tab roomId htab)
  | @openDirectWith t tab htab row peer hpeer =>
      exact forall_setTab hkeep (hdirect t tab peer htab hpeer)
  | @signAndSend t input now random c₁ msg hc =>
      obtain ⟨tab, identity, htab, -, hmsg, rfl⟩ := signAndSend_cases hc
      exact forall_setTab hkeep (hsend t tab input now random msg htab hmsg)
  | @receive t tab htab hwants event =>
      exact forall_setTab hkeep (hreceive t tab event rfl htab hwants)
  | persist htab => exact hkeep
  | signElsewhere key hns msg => exact hkeep

theorem forall_tabs_of_change {P : Tab H → Prop} {c c' : Clients H}
    {a : ClientAction} (hchange : Change c a c')
    (h : ∀ t tab, c.tabs t = some tab → P tab)
    (hload : ∀ b storage, P (((Tab.fresh H b).loadStored storage).loadEffect storage))
    (hinit : ∀ t tab storage name random, c.tabs t = some tab →
      tab.isInitialized = false → P ((tab.adopt (createIdentity H.ed25519 random)
        name).loadEffect storage))
    (hname : ∀ t tab name, c.tabs t = some tab → name ≠ [] →
      P { tab with displayName := name })
    (hroom : ∀ t tab roomId, c.tabs t = some tab → P (tab.openPublicRoom roomId))
    (hdirect : ∀ t tab peer, c.tabs t = some tab →
      peer ∈ tab.directMessagesPeerList → P (tab.openDirectWith peer.pubKey))
    (hsend : ∀ t tab input now random msg, c.tabs t = some tab →
      tab.composeMessage input now random = some msg →
      P { tab with messages := tab.messages ++ [msg] })
    (hreceive : ∀ t tab event, a = .receive t event → c.tabs t = some tab →
      tab.wantsSocket = true → P (tab.onRelayEvent event)) :
    ∀ t tab, c'.tabs t = some tab → P tab :=
  forall_numbered_of_change (Q := fun _ => P) hchange h hload hinit hname hroom
    hdirect hsend hreceive

theorem composed_subset {c c' : Clients H} {a : ClientAction}
    (hchange : Change c a c') : c.composed ⊆ c'.composed := by
  cases hchange with
  | signAndSend hsend =>
      obtain ⟨tab, identity, -, -, -, rfl⟩ := signAndSend_cases hsend
      exact List.subset_append_left _ _
  | _ => exact List.Subset.refl _

end Clients

/-! ## Values to run with -/

def plainHost : Host := ⟨plainEd25519, fun _ => false, id⟩

def plainPeer (n : UInt8) : JsString := ofAscii (plainHex.encode (plainKey n).bytes)

def plainMessage (n : UInt8) (id text : JsString) : ChatMessage where
  id := .str id
  text := .str text
  signatureHex := .str (ofAscii ((createIdentity plainEd25519 (plainKey n)).sign
    (encodeUtf8 text)))
  fromMe := .bool true
  displayName := .str (js "P")
  peerId := .str (plainPeer n)
  recipient := .str broadcastId
  «at» := .num (.finite 0)
  type := .str generalType
  roomId := .str PublicRoomId.general.text

end CommonChat.Frontend
