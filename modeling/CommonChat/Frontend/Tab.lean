import CommonChat.Core.Identity
import CommonChat.Frontend.Message

/-!
# One tab

The identity hook (`app/hooks/useIdentity.ts`) and the page state of
`app/page.tsx`, with every handler as a function on the state of one tab.
React state and the refs that mirror it are one field; effects are functions
of their own.  `Host` collects what the page takes from elsewhere.
-/

namespace CommonChat.Frontend

open CommonChat.Foundation
open CommonChat.Core
open CommonChat.Relay

abbrev BrowserId := Nat

structure Host where
  ed25519 : Ed25519
  /--
  The generated glue is declared for strings.  On any other value it throws, or
  it passes an empty string because the buffer is sized by a missing `length`.
  -/
  passesEmpty : JsValue → Bool
  toLowerCase : JsString → JsString

def passStringToWasm0 (H : Host) (value : JsValue) : Option Bytes :=
  match value with
  | .str s => some (encodeUtf8 s)
  | other => if H.passesEmpty other then some [] else none

structure StoredIdentity where
  displayName : JsString
  pubKey : JsString
  privateKeyHex : JsString

structure LocalStorage where
  identity : Option StoredIdentity
  messages : JsString → Option (List ChatMessage)

def LocalStorage.empty : LocalStorage := ⟨none, fun _ => none⟩

def storageKey (peerId : JsString) : JsString :=
  js "commonchat_messages" ++ js "_" ++ peerId

inductive ViewMode where
  | publicRoom
  | direct
  deriving DecidableEq, Repr

structure Tab (H : Host) where
  browser : BrowserId
  identityRef : Option (CommonwareIdentity H.ed25519)
  displayName : JsString
  peerId : JsString
  isReady : Bool
  isInitialized : Bool
  error : Option JsError
  messages : List ChatMessage
  /-- How many of `messages` were there when the page was loaded. -/
  loaded : Nat
  onlinePeers : List Peer
  activeView : ViewMode
  activePublicRoomId : PublicRoomId
  activeDirectPeerId : JsValue
  selectedRecipient : JsValue
  unreadPeers : List JsValue

variable {H : Host}

namespace Tab

def fresh (H : Host) (browser : BrowserId) : Tab H where
  browser := browser
  identityRef := none
  displayName := []
  peerId := []
  isReady := false
  isInitialized := false
  error := none
  messages := []
  loaded := 0
  onlinePeers := []
  activeView := .publicRoom
  activePublicRoomId := .general
  activeDirectPeerId := .null
  selectedRecipient := .str []
  unreadPeers := []

/-! ## Identity -/

def adopt (tab : Tab H) (identity : CommonwareIdentity H.ed25519)
    (name : JsString) : Tab H :=
  { tab with
    identityRef := some identity
    displayName := name
    peerId := ofAscii identity.pubKey
    isInitialized := true
    error := none }

def loadStored (tab : Tab H) (storage : LocalStorage) : Tab H :=
  match storage.identity with
  | none => { tab with error := none, isReady := true }
  | some stored =>
      if trim stored.displayName ≠ [] ∧ stored.privateKeyHex ≠ [] then
        match identityFromPrivateHex H.ed25519
            (encodeUtf8 stored.privateKeyHex) with
        | .ok identity =>
            { tab.adopt identity stored.displayName with isReady := true }
        | .error e => { tab with error := some e, isReady := true }
      else { tab with error := none, isReady := true }

def initializeWithDisplayName (tab : Tab H) (storage : LocalStorage)
    (name : JsString) (random : PrivateKey) : LocalStorage × Tab H :=
  let identity := createIdentity H.ed25519 random
  let trimmed := if trim name ≠ [] then trim name else js "Operator"
  let toStore : StoredIdentity :=
    { displayName := trimmed
      pubKey := ofAscii identity.pubKey
      privateKeyHex := ofAscii identity.exportPrivateHex }
  ({ storage with identity := some toStore }, tab.adopt identity trimmed)

def updateDisplayName (tab : Tab H) (storage : LocalStorage)
    (newName : JsString) : LocalStorage × Tab H :=
  ({ storage with
      identity := storage.identity.map fun stored =>
        { stored with displayName := newName } },
    { tab with displayName := newName })

def signMessage (tab : Tab H) (message : JsString) : Option JsString :=
  tab.identityRef.map fun identity => ofAscii (identity.sign (encodeUtf8 message))

end Tab

def verifySignature (H : Host) (pubKeyHex message signatureHex : JsValue) : Bool :=
  match passStringToWasm0 H pubKeyHex, passStringToWasm0 H message,
      passStringToWasm0 H signatureHex with
  | some key, some text, some sig =>
      match Core.verifySignature H.ed25519 key text sig with
      | .ok valid => valid
      | .error _ => false
  | _, _, _ => false

namespace Tab

/-! ## Storage effects -/

/-- The effect that loads the stored messages once the peer id is known. -/
def loadEffect (tab : Tab H) (storage : LocalStorage) : Tab H :=
  if tab.peerId = [] then tab
  else
    match storage.messages (storageKey tab.peerId) with
    | none => tab
    | some parsed =>
        if parsed.length > 0 then
          { tab with messages := parsed, loaded := parsed.length }
        else tab

/-- The last 500 entries, as they are read back. -/
def toStore (messages : List ChatMessage) : List ChatMessage :=
  (messages.drop (messages.length - 500)).map ChatMessage.throughJson

def persistEffect (tab : Tab H) (storage : LocalStorage) : LocalStorage :=
  if tab.peerId = [] ∨ tab.messages.length = 0 then storage
  else
    { storage with
      messages := Function.update storage.messages (storageKey tab.peerId)
        (some (toStore tab.messages)) }

/-! ## Views and sending -/

def directMessagesPeerList (tab : Tab H) : List ListedPeer :=
  getDirectMessagesPeerList tab.onlinePeers
    (getPreviousPeers tab.messages tab.peerId tab.onlinePeers) tab.peerId

def activeUsersCount (tab : Tab H) : Nat := tab.onlinePeers.length + 1

def openPublicRoom (tab : Tab H) (roomId : PublicRoomId) : Tab H :=
  { tab with
    activeView := .publicRoom
    activePublicRoomId := roomId
    activeDirectPeerId := .null
    selectedRecipient := .str [] }

def openDirectWith (tab : Tab H) (peerPubKey : JsValue) : Tab H :=
  { tab with
    activeView := .direct
    activeDirectPeerId := peerPubKey
    selectedRecipient := peerPubKey
    unreadPeers := tab.unreadPeers.filter fun p => !p.strictEq peerPubKey }

def getPeerByName (H : Host) (name : JsString) (peers : List Peer) : Option Peer :=
  let q := H.toLowerCase (trim name)
  if q = [] then none
  else
    peers.find? fun p =>
      match p.name with
      | .str text => H.toLowerCase text = q
      | _ => false

def resolveRecipientId (H : Host) (raw : JsString) (peers : List Peer) : JsValue :=
  let r := trim raw
  if r = [] then .str []
  else
    match getPeerByName H r peers with
    | some peer => peer.pubKey
    | none => .str r

def selectedText (tab : Tab H) : JsString :=
  match tab.selectedRecipient with
  | .str text => text
  | _ => []

def messageId (now : Nat) (random : JsString) : JsString :=
  js "msg_" ++ (Nat.toDigits 10 now).map (fun c => c.val.toUInt16) ++ js "_" ++
    random

def isPrivate (tab : Tab H) : Bool :=
  tab.activeView = .direct && tab.activeDirectPeerId.truthy

def recipientOf (tab : Tab H) : JsValue :=
  if tab.isPrivate then
    tab.activeDirectPeerId.orElse
      ((resolveRecipientId H tab.selectedText tab.onlinePeers).orElse
        ((JsValue.str (trim tab.selectedText)).orElse (.str [])))
  else .str broadcastId

def composeMessage (tab : Tab H) (input : JsString) (now : Nat)
    (random : JsString) : Option ChatMessage :=
  let text := trim input
  if text = [] ∨ tab.isInitialized = false then none
  else do
    let sig ← tab.signMessage text
    let recipient := tab.recipientOf
    if tab.isPrivate && !recipient.truthy then none
    else
      some
        { id := .str (messageId now random)
          text := .str text
          signatureHex := .str sig
          fromMe := .bool true
          displayName := .str tab.displayName
          peerId := .str tab.peerId
          recipient := recipient.orElse (.str broadcastId)
          «at» := .num (.finite now)
          type := .str (if tab.isPrivate then privateType else generalType)
          roomId := if tab.activeView = .publicRoom
            then .str tab.activePublicRoomId.text else .undefined }

def handleSignAndSend (tab : Tab H) (input : JsString) (now : Nat)
    (random : JsString) : Option (Tab H × ChatMessage) :=
  (tab.composeMessage input now random).map fun msg =>
    ({ tab with messages := tab.messages ++ [msg] }, msg)

/-! ## Relay events -/

def onOnlineList (tab : Tab H) (list : JsValue) : Tab H :=
  { tab with
    onlinePeers := match list with
      | .arr items => items.map Peer.ofJs
      | _ => [] }

def onUserOnline (tab : Tab H) (user : JsValue) : Tab H :=
  -- Reading a property of `undefined` or `null` throws and changes nothing.
  if user.isNullish then tab
  else
    let pId := (user.field (js "peerId")).coalesce
      ((user.field (js "id")).coalesce (user.field (js "pubKey")))
    if !pId.truthy || pId.strictEq (.str tab.peerId) then tab
    else
      let name := (user.field (js "name")).coalesce
        ((user.field (js "displayName")).coalesce (truncate pId 12))
      { tab with
        onlinePeers := (tab.onlinePeers.filter fun p => !p.pubKey.strictEq pId) ++
          [⟨pId, name, pId⟩] }

def onUserOffline (tab : Tab H) (data : JsValue) : Tab H :=
  if data.isNullish then tab
  else if (data.field (js "peerId")).strictEq (.str tab.peerId) then tab
  else
    { tab with
      onlinePeers := tab.onlinePeers.filter fun p =>
        !p.pubKey.strictEq (data.field (js "peerId")) }

/--
The checks of the `message` handler.  The result is the entry to list, or
`none` when the payload is malformed, not signed, or not for this peer.
-/
def incoming (H : Host) (myId : JsString) (chatMsg : ChatMessage) :
    Option ChatMessage :=
  if !chatMsg.text.truthy || !chatMsg.signatureHex.truthy ||
      !chatMsg.peerId.truthy then none
  else if !verifySignature H chatMsg.peerId chatMsg.text chatMsg.signatureHex then
    none
  else
    let recipient := chatMsg.recipient.coalesce (.str broadcastId)
    let msgType := chatMsg.type.coalesce
      (if recipient.strictEq (.str broadcastId) then .str generalType
        else .str privateType)
    if msgType.strictEq (.str privateType) && !recipient.strictEq (.str myId) then
      none
    else if !(recipient.strictEq (.str broadcastId) ||
        recipient.strictEq (.str myId)) then none
    else
      some
        { chatMsg with
          fromMe := .bool (chatMsg.peerId.strictEq (.str myId))
          type := msgType }

def appendNew (messages : List ChatMessage) (entry : ChatMessage) :
    List ChatMessage :=
  if messages.any fun m => m.id.strictEq entry.id then messages
  else messages ++ [entry]

def markUnread (tab : Tab H) (entry : ChatMessage) : List JsValue :=
  if (entry.recipient.coalesce (.str broadcastId)).strictEq (.str tab.peerId) &&
      !entry.peerId.strictEq (.str tab.peerId) then
    if tab.activeView = .direct && tab.activeDirectPeerId.strictEq entry.peerId then
      tab.unreadPeers
    else if tab.unreadPeers.any fun p => p.strictEq entry.peerId then
      tab.unreadPeers
    else tab.unreadPeers ++ [entry.peerId]
  else tab.unreadPeers

def onMessage (tab : Tab H) (chatMsg : ChatMessage) : Tab H :=
  match incoming H tab.peerId chatMsg with
  | none => tab
  | some entry =>
      { tab with
        messages := appendNew tab.messages entry
        unreadPeers := tab.markUnread entry }

def onRelayEvent (tab : Tab H) : RelayEvent → Tab H
  | .onlineList list => tab.onOnlineList list
  | .userOnline user => tab.onUserOnline user
  | .userOffline data => tab.onUserOffline data
  | .message payload => tab.onMessage (ChatMessage.ofJs payload)

def wantsSocket (tab : Tab H) : Bool :=
  tab.isInitialized && tab.peerId ≠ [] && tab.displayName ≠ []

end Tab

/-! ## What the handlers establish -/

theorem verifySignature_eq_true_iff (pubKeyHex message signatureHex : JsValue) :
    verifySignature H pubKeyHex message signatureHex = true ↔
      ∃ key text sig, passStringToWasm0 H pubKeyHex = some key ∧
        passStringToWasm0 H message = some text ∧
        passStringToWasm0 H signatureHex = some sig ∧
        Core.verifySignature H.ed25519 key text sig = .ok true := by
  unfold verifySignature
  constructor
  · intro h
    split at h
    · rename_i key text sig hkey htext hsig
      split at h
      · rename_i valid hcore
        subst h
        exact ⟨key, text, sig, hkey, htext, hsig, hcore⟩
      · cases h
    · cases h
  · rintro ⟨key, text, sig, hkey, htext, hsig, hcore⟩
    simp only [hkey, htext, hsig, hcore]

private theorem str_of_decode {value : JsValue} {text bytes : Bytes}
    (hpass : passStringToWasm0 H value = some text)
    (hdecode : H.ed25519.hex.decode text = .ok bytes) (hbytes : bytes ≠ []) :
    ∃ s, value = .str s ∧ text = encodeUtf8 s := by
  have hempty : text ≠ [] := by
    rintro rfl
    have hlen := H.ed25519.hex.length_of_decode hdecode
    exact hbytes (List.length_eq_zero_iff.mp (by simpa using hlen.symm))
  cases value with
  | str s => exact ⟨s, rfl, by simpa [passStringToWasm0] using hpass.symm⟩
  | _ =>
      simp only [passStringToWasm0] at hpass
      split at hpass
      · cases hpass
        exact absurd rfl hempty
      · cases hpass

private theorem fixedBytes_ne_nil {n : Nat} (b : FixedBytes (n + 1)) :
    b.bytes ≠ [] := by
  intro h
  have := b.size
  rw [h] at this
  cases this

theorem exists_of_verifySignature {pubKeyHex message signatureHex : JsValue}
    (h : verifySignature H pubKeyHex message signatureHex = true) :
    ∃ (p s : JsString) (text : Bytes) (pk : PublicKey) (sig : Signature),
      pubKeyHex = .str p ∧ signatureHex = .str s ∧
      passStringToWasm0 H message = some text ∧
      H.ed25519.hex.decode (encodeUtf8 p) = .ok pk.bytes ∧
      H.ed25519.hex.decode (encodeUtf8 s) = .ok sig.bytes ∧
      H.ed25519.isVerificationKey pk = true ∧
      H.ed25519.verify pk sig (unionUnique chatNamespace text) = true := by
  obtain ⟨key, text, sigText, hkey, htext, hsig, hcore⟩ :=
    (verifySignature_eq_true_iff _ _ _).mp h
  obtain ⟨pk, sig, hpk, hsigd, hvalid, hverify⟩ :=
    (verifySignature_eq_ok_true_iff _ _ _).mp hcore
  obtain ⟨p, rfl, rfl⟩ := str_of_decode hkey hpk (fixedBytes_ne_nil pk)
  obtain ⟨s, rfl, rfl⟩ := str_of_decode hsig hsigd (fixedBytes_ne_nil sig)
  exact ⟨p, s, text, pk, sig, rfl, rfl, htext, hpk, hsigd, hvalid, hverify⟩

namespace Tab

/-- The addressee of a payload as the handler reads it. -/
def addressee (m : ChatMessage) : JsValue :=
  m.recipient.coalesce (.str broadcastId)

/-- The type of a payload as the handler reads it. -/
def effectiveType (m : ChatMessage) : JsValue :=
  m.type.coalesce (if (addressee m).strictEq (.str broadcastId)
    then .str generalType else .str privateType)

theorem incoming_eq_some_iff (myId : JsString) (m entry : ChatMessage) :
    incoming H myId m = some entry ↔
      (m.text.truthy = true ∧ m.signatureHex.truthy = true ∧
        m.peerId.truthy = true) ∧
      verifySignature H m.peerId m.text m.signatureHex = true ∧
      (effectiveType m = .str privateType → addressee m = .str myId) ∧
      (addressee m = .str broadcastId ∨ addressee m = .str myId) ∧
      entry = { m with
        fromMe := .bool (m.peerId.strictEq (.str myId))
        type := effectiveType m } := by
  have hunfold : incoming H myId m =
      if !m.text.truthy || !m.signatureHex.truthy || !m.peerId.truthy then none
      else if !verifySignature H m.peerId m.text m.signatureHex then none
      else if (effectiveType m).strictEq (.str privateType) &&
          !(addressee m).strictEq (.str myId) then none
      else if !((addressee m).strictEq (.str broadcastId) ||
          (addressee m).strictEq (.str myId)) then none
      else some { m with
        fromMe := .bool (m.peerId.strictEq (.str myId))
        type := effectiveType m } := rfl
  rw [hunfold]
  split
  · rename_i h
    simp only [Bool.or_eq_true, Bool.not_eq_true'] at h
    simp only [reduceCtorEq, false_iff]
    rintro ⟨⟨htext, hsig, hpeer⟩, -⟩
    simp [htext, hsig, hpeer] at h
  rename_i hfields
  split
  · rename_i h
    simp only [Bool.not_eq_true'] at h
    simp [h]
  rename_i hverify
  split
  · rename_i h
    simp only [Bool.and_eq_true, JsValue.strictEq_str_iff, Bool.not_eq_true',
      JsValue.strictEq_str_false_iff] at h
    simp only [reduceCtorEq, false_iff]
    rintro ⟨-, -, hprivate, -⟩
    exact h.2 (hprivate h.1)
  rename_i hprivate
  split
  · rename_i h
    simp only [Bool.not_eq_true', Bool.or_eq_false_iff,
      JsValue.strictEq_str_false_iff] at h
    simp [h.1, h.2]
  rename_i hforMe
  simp only [Bool.or_eq_true, Bool.not_eq_true', not_or, Bool.not_eq_false]
    at hfields
  simp only [Bool.not_eq_true', Bool.not_eq_false] at hverify
  simp only [Bool.and_eq_true, JsValue.strictEq_str_iff, Bool.not_eq_true',
    JsValue.strictEq_str_false_iff, not_and, not_not] at hprivate
  simp only [Bool.not_eq_true', Bool.not_eq_false, Bool.or_eq_true,
    JsValue.strictEq_str_iff] at hforMe
  simp only [Option.some.injEq, hfields.1.1, hfields.1.2, hfields.2, hverify,
    hforMe, true_and, and_self]
  exact ⟨fun h => ⟨hprivate, h.symm⟩, fun h => h.2.symm⟩

theorem composeMessage_eq_some {tab : Tab H} {input : JsString} {now : Nat}
    {random : JsString} {msg : ChatMessage}
    (h : tab.composeMessage input now random = some msg) :
    trim input ≠ [] ∧ tab.isInitialized = true ∧
      ∃ identity, tab.identityRef = some identity ∧
        msg =
          { id := .str (messageId now random)
            text := .str (trim input)
            signatureHex :=
              .str (ofAscii (identity.sign (encodeUtf8 (trim input))))
            fromMe := .bool true
            displayName := .str tab.displayName
            peerId := .str tab.peerId
            recipient := if tab.isPrivate then tab.activeDirectPeerId
              else .str broadcastId
            «at» := .num (.finite now)
            type := .str (if tab.isPrivate then privateType else generalType)
            roomId := if tab.activeView = .publicRoom
              then .str tab.activePublicRoomId.text else .undefined } := by
  unfold composeMessage at h
  simp only at h
  split at h
  · cases h
  rename_i hguard
  simp only [not_or, Bool.not_eq_false] at hguard
  refine ⟨hguard.1, hguard.2, ?_⟩
  simp only [signMessage, Option.bind_eq_bind, Option.bind_eq_some_iff,
    Option.map_eq_some_iff] at h
  obtain ⟨sig, ⟨identity, hid, rfl⟩, h⟩ := h
  refine ⟨identity, hid, ?_⟩
  split at h
  · cases h
  cases h
  cases hprivate : tab.isPrivate with
  | false =>
      simp only [recipientOf, hprivate, Bool.false_eq_true, if_false]
      rfl
  | true =>
      have htruthy : tab.activeDirectPeerId.truthy = true := by
        simp only [isPrivate, Bool.and_eq_true] at hprivate
        exact hprivate.2
      simp only [recipientOf, hprivate, if_true, JsValue.orElse, htruthy]

end Tab

end CommonChat.Frontend
