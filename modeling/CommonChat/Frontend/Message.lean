import CommonChat.Relay.Server
import Mathlib.Data.List.Sort

/-!
# Chat messages and the peer list

The records of `frontend/app/page.tsx` and the two functions that build the
list of direct-message peers.  Fields hold script values, since entries also
come from the network; `undefined` stands for an absent field.
-/

namespace CommonChat.Frontend

open CommonChat.Foundation
open CommonChat.Relay

inductive PublicRoomId where
  | general
  | commonware
  | sloth
  deriving DecidableEq, Repr

def PublicRoomId.text : PublicRoomId → JsString
  | .general => js "general"
  | .commonware => js "commonware"
  | .sloth => js "sloth"

def generalType : JsString := js "general"

def privateType : JsString := js "private"

structure ChatMessage where
  id : JsValue
  text : JsValue
  signatureHex : JsValue
  fromMe : JsValue
  displayName : JsValue
  peerId : JsValue
  recipient : JsValue
  «at» : JsValue
  type : JsValue
  roomId : JsValue

namespace ChatMessage

def toJs (m : ChatMessage) : JsValue :=
  .obj [(js "id", m.id), (js "text", m.text),
    (js "signatureHex", m.signatureHex), (js "fromMe", m.fromMe),
    (js "displayName", m.displayName), (js "peerId", m.peerId),
    (js "recipient", m.recipient), (js "at", m.at), (js "type", m.type),
    (js "roomId", m.roomId)]

def ofJs (payload : JsValue) : ChatMessage where
  id := payload.field (js "id")
  text := payload.field (js "text")
  signatureHex := payload.field (js "signatureHex")
  fromMe := payload.field (js "fromMe")
  displayName := payload.field (js "displayName")
  peerId := payload.field (js "peerId")
  recipient := payload.field (js "recipient")
  «at» := payload.field (js "at")
  type := payload.field (js "type")
  roomId := payload.field (js "roomId")

def sameFields (m m' : ChatMessage) : Bool :=
  m.id.strictEq m'.id && m.text.strictEq m'.text &&
    m.signatureHex.strictEq m'.signatureHex && m.fromMe.strictEq m'.fromMe &&
    m.displayName.strictEq m'.displayName && m.peerId.strictEq m'.peerId &&
    m.recipient.strictEq m'.recipient && m.at.strictEq m'.at &&
    m.type.strictEq m'.type && m.roomId.strictEq m'.roomId

theorem eq_of_sameFields {m m' : ChatMessage} (h : m.sameFields m' = true) : m = m' := by
  simp only [sameFields, Bool.and_eq_true, and_assoc] at h
  obtain ⟨hid, htext, hsig, hfrom, hname, hpeer, hto, hat, htype, hroom⟩ := h
  cases m
  cases m'
  rw [ChatMessage.mk.injEq]
  exact ⟨JsValue.eq_of_strictEq hid, JsValue.eq_of_strictEq htext,
    JsValue.eq_of_strictEq hsig, JsValue.eq_of_strictEq hfrom,
    JsValue.eq_of_strictEq hname, JsValue.eq_of_strictEq hpeer,
    JsValue.eq_of_strictEq hto, JsValue.eq_of_strictEq hat,
    JsValue.eq_of_strictEq htype, JsValue.eq_of_strictEq hroom⟩

def throughJson (m : ChatMessage) : ChatMessage where
  id := m.id.throughJson
  text := m.text.throughJson
  signatureHex := m.signatureHex.throughJson
  fromMe := m.fromMe.throughJson
  displayName := m.displayName.throughJson
  peerId := m.peerId.throughJson
  recipient := m.recipient.throughJson
  «at» := m.at.throughJson
  type := m.type.throughJson
  roomId := m.roomId.throughJson

@[simp] theorem ofJs_toJs (m : ChatMessage) : ofJs m.toJs = m := rfl

theorem ofJs_throughJson (payload : JsValue) :
    ofJs payload.throughJson = (ofJs payload).throughJson := by
  simp only [ofJs, throughJson, JsValue.field_throughJson]

theorem throughJson_throughJson (m : ChatMessage) :
    m.throughJson.throughJson = m.throughJson := by
  simp only [throughJson, JsValue.throughJson_throughJson]

end ChatMessage

/-! ## Peers -/

structure Peer where
  id : JsValue
  name : JsValue
  pubKey : JsValue

def Peer.ofJs (value : JsValue) : Peer where
  id := value.field (js "id")
  name := value.field (js "name")
  pubKey := value.field (js "pubKey")

structure ListedPeer extends Peer where
  online : Bool

/-- `truncate` on the strings it is declared for; the mark is U+2026. -/
def truncate (value : JsValue) (len : Nat) : JsValue :=
  match value with
  | .str s => if s.length ≤ len then .str s else .str (s.take len ++ [0x2026])
  | other => other

/-- The variable `other` of `getPreviousPeers`. -/
def conversationPartner (m : ChatMessage) : JsValue :=
  if m.fromMe.truthy then
    if !m.recipient.strictEq (.str broadcastId) then m.recipient else .null
  else m.peerId

def isOtherPeer (myPeerId : JsString) (other : JsValue) : Bool :=
  other.truthy && !other.strictEq (.str myPeerId)

def setName (names : List (JsValue × JsValue)) (key name : JsValue) :
    List (JsValue × JsValue) :=
  if names.any fun entry => entry.1.strictEq key then
    names.map fun entry => if entry.1.strictEq key then (entry.1, name) else entry
  else names ++ [(key, name)]

/-- The first loop of `getPreviousPeers`. -/
def peerNames (messages : List ChatMessage) (myPeerId : JsString) :
    List (JsValue × JsValue) :=
  messages.foldl (fun names m =>
    let other := conversationPartner m
    if isOtherPeer myPeerId other && (!m.fromMe.truthy && m.displayName.truthy)
    then setName names other m.displayName else names) []

/-- The second loop of `getPreviousPeers`; `seen` holds the partners already listed. -/
def previousPeersFrom (names : List (JsValue × JsValue)) (myPeerId : JsString)
    (onlinePeers : List Peer) :
    List JsValue → List ChatMessage → List ListedPeer
  | _, [] => []
  | seen, m :: rest =>
      let other := conversationPartner m
      if isOtherPeer myPeerId other && !seen.any fun key => key.strictEq other then
        let online := onlinePeers.find? fun p => p.pubKey.strictEq other
        let known := (names.find? fun entry => entry.1.strictEq other).map Prod.snd
        { id := other
          pubKey := other
          name := ((online.map Peer.name).getD .undefined).coalesce
            ((known.getD .undefined).coalesce (truncate other 12))
          online := online.isSome } ::
          previousPeersFrom names myPeerId onlinePeers (other :: seen) rest
      else previousPeersFrom names myPeerId onlinePeers seen rest

/-- `sort` with the comparator that puts online peers first; it is stable. -/
def sortOnlineFirst (peers : List ListedPeer) : List ListedPeer :=
  peers.insertionSort fun a b => a.online = b.online ∨ a.online = true

def getPreviousPeers (messages : List ChatMessage) (myPeerId : JsString)
    (onlinePeers : List Peer) : List ListedPeer :=
  sortOnlineFirst (previousPeersFrom (peerNames messages myPeerId) myPeerId
    onlinePeers [] messages)

def setListed (byKey : List ListedPeer) (p : ListedPeer) : List ListedPeer :=
  if byKey.any fun q => q.pubKey.strictEq p.pubKey then
    byKey.map fun q => if q.pubKey.strictEq p.pubKey then p else q
  else byKey ++ [p]

def getDirectMessagesPeerList (onlinePeers : List Peer)
    (previousPeers : List ListedPeer) (myPeerId : JsString) : List ListedPeer :=
  let online := onlinePeers.foldl (fun byKey p =>
    if p.pubKey.strictEq (.str myPeerId) then byKey
    else setListed byKey { p with online := true }) []
  let all := previousPeers.foldl (fun byKey p =>
    if p.pubKey.strictEq (.str myPeerId) then byKey
    else if byKey.any fun q => q.pubKey.strictEq p.pubKey then byKey
    else setListed byKey { p with online := false }) online
  sortOnlineFirst all

/-! ## Where listed peers come from -/

private theorem mem_setListed {byKey : List ListedPeer} {p q : ListedPeer}
    (h : q ∈ setListed byKey p) : q = p ∨ q ∈ byKey := by
  unfold setListed at h
  split at h
  · obtain ⟨old, hold, hq⟩ := List.mem_map.mp h
    split at hq
    · exact .inl hq.symm
    · exact .inr (hq ▸ hold)
  · simpa [or_comm] using h

private theorem foldl_forall {α β : Type*} {P : α → Prop} {l : List β}
    {f : List α → β → List α} {start : List α} (hstart : ∀ a ∈ start, P a)
    (hf : ∀ b ∈ l, ∀ acc, (∀ a ∈ acc, P a) → ∀ a ∈ f acc b, P a) :
    ∀ a ∈ l.foldl f start, P a := by
  induction l generalizing start with
  | nil => exact hstart
  | cons b rest ih =>
      refine ih (hf b (by simp) start hstart) ?_
      intro c hc
      exact hf c (List.mem_cons_of_mem _ hc)

private theorem mem_previousPeersFrom {names : List (JsValue × JsValue)}
    {me : JsString} {onlinePeers : List Peer} {seen : List JsValue}
    {messages : List ChatMessage} {p : ListedPeer}
    (h : p ∈ previousPeersFrom names me onlinePeers seen messages) :
    ∃ m ∈ messages, p.pubKey = conversationPartner m ∧
      isOtherPeer me p.pubKey = true := by
  induction messages generalizing seen with
  | nil => cases h
  | cons m rest ih =>
      rw [previousPeersFrom] at h
      simp only at h
      split at h
      · rename_i hnew
        rcases List.mem_cons.mp h with rfl | h
        · exact ⟨m, by simp, rfl, (Bool.and_eq_true_iff.mp hnew).1⟩
        · obtain ⟨m', hm', hp⟩ := ih h
          exact ⟨m', List.mem_cons_of_mem _ hm', hp⟩
      · obtain ⟨m', hm', hp⟩ := ih h
        exact ⟨m', List.mem_cons_of_mem _ hm', hp⟩

theorem mem_directMessagesPeerList {messages : List ChatMessage}
    {onlinePeers : List Peer} {me : JsString} {p : ListedPeer}
    (h : p ∈ getDirectMessagesPeerList onlinePeers
      (getPreviousPeers messages me onlinePeers) me) :
    (∃ q ∈ onlinePeers, p.pubKey = q.pubKey) ∨
      ∃ m ∈ messages, p.pubKey = conversationPartner m ∧
        isOtherPeer me p.pubKey = true := by
  unfold getDirectMessagesPeerList sortOnlineFirst at h
  rw [List.mem_insertionSort] at h
  revert h
  refine foldl_forall (P := fun p : ListedPeer =>
    (∃ q ∈ onlinePeers, p.pubKey = q.pubKey) ∨
      ∃ m ∈ messages, p.pubKey = conversationPartner m ∧
        isOtherPeer me p.pubKey = true) ?_ ?_ p
  · refine foldl_forall (by simp) ?_
    intro q hq acc hacc a ha
    split at ha
    · exact hacc a ha
    · rcases mem_setListed ha with rfl | ha
      · exact .inl ⟨q, hq, rfl⟩
      · exact hacc a ha
  · intro q hq acc hacc a ha
    split at ha
    · exact hacc a ha
    split at ha
    · exact hacc a ha
    rcases mem_setListed ha with rfl | ha
    · rw [getPreviousPeers, sortOnlineFirst, List.mem_insertionSort] at hq
      obtain ⟨m, hm, hkey, hother⟩ := mem_previousPeersFrom hq
      exact .inr ⟨m, hm, hkey, hother⟩
    · exact hacc a ha

end CommonChat.Frontend
