import CommonChat.Foundation.InsertionMap
import CommonChat.Foundation.Transition
import CommonChat.Foundation.Value

/-!
# The relay

`relay/server.js`.  The relay keeps two maps by hand: the registration of each
socket, and the sockets of each peer.  Handler arguments are arbitrary script
values; string methods called on anything else raise, which the handlers return
as an error.  Emitted events are collected in the order in which they are sent.
-/

namespace CommonChat.Relay

open CommonChat.Foundation

abbrev SocketId := Nat

def broadcastId : JsString := js "Broadcast"

/-- A value of `socketToPeer`.  `address` identifies `peerId` when it is an object. -/
structure PeerInfo where
  peerId : JsValue
  address : Nat
  displayName : JsValue

def PeerInfo.key (info : PeerInfo) : JsKey := info.peerId.key info.address

inductive RelayEvent where
  | onlineList (list : JsValue)
  | userOnline (user : JsValue)
  | userOffline (data : JsValue)
  | message (payload : JsValue)

def RelayEvent.throughJson : RelayEvent → RelayEvent
  | .onlineList list => .onlineList list.throughJson
  | .userOnline user => .userOnline user.throughJson
  | .userOffline data => .userOffline data.throughJson
  | .message payload => .message payload.throughJson

/-- `socket.emit` and `io.to(sid).emit`, `socket.broadcast.emit`, and `io.emit`. -/
inductive Emit where
  | toSocket (socket : SocketId) (event : RelayEvent)
  | broadcast (sender : SocketId) (event : RelayEvent)
  | toAll (event : RelayEvent)

structure Server where
  connected : InsertionSet SocketId
  socketToPeer : InsertionMap SocketId PeerInfo
  peerToSockets : InsertionMap JsKey (InsertionSet SocketId)
  allocated : Nat

namespace Server

def empty : Server := ⟨.empty, .empty, .empty, 0⟩

def ensureSet (r : Server) (peer : JsKey) : InsertionSet SocketId :=
  (r.peerToSockets.get peer).getD .empty

def peerObject (peerId name : JsValue) : JsValue :=
  .obj [(js "id", peerId), (js "name", name), (js "pubKey", peerId)]

def listedName (info : PeerInfo) : Except TypeError JsValue :=
  if info.displayName.truthy then .ok info.displayName
  else info.peerId.sliceCall 12 "info.peerId"

/-- The loop of `getOnlineList`; `seen` holds the peers already listed. -/
def getOnlineListFrom (excludePeer : JsKey) :
    List JsKey → List (SocketId × PeerInfo) → Except TypeError (List JsValue)
  | _, [] => .ok []
  | seen, (_, info) :: rest =>
      if info.key = excludePeer then getOnlineListFrom excludePeer seen rest
      else if info.key ∈ seen then getOnlineListFrom excludePeer seen rest
      else do
        let name ← listedName info
        let list ← getOnlineListFrom excludePeer (info.key :: seen) rest
        .ok (peerObject info.peerId name :: list)

def getOnlineList (r : Server) (excludePeer : JsKey) :
    Except TypeError (List JsValue) :=
  getOnlineListFrom excludePeer [] r.socketToPeer.entries

/-! ## Handlers -/

def connect (r : Server) (socket : SocketId) : Server :=
  { r with connected := r.connected.add socket }

def enroll (r : Server) (socket : SocketId) (info : PeerInfo) : Server :=
  { r with
    socketToPeer := r.socketToPeer.set socket info
    peerToSockets :=
      r.peerToSockets.set info.key ((r.ensureSet info.key).add socket)
    allocated := r.allocated + 1 }

/-- `(displayName || "").trim() || peerId.slice(0, 12)`. -/
def registeredName (peerId displayName : JsValue) : Except TypeError JsValue := do
  let trimmed ← (displayName.orElse (.str [])).trimCall "(displayName || \"\")"
  if trimmed.truthy then .ok trimmed else peerId.sliceCall 12 "peerId"

def register (r : Server) (socket : SocketId) (data : JsValue) :
    Except TypeError (Server × List Emit) :=
  let source := data.orElse (.obj [])
  let peerId := source.field (js "peerId")
  let displayName := source.field (js "displayName")
  if !peerId.truthy then .ok (r, [])
  else do
    let name ← registeredName peerId displayName
    let info : PeerInfo := ⟨peerId, r.allocated, name⟩
    let registered := r.enroll socket info
    let onlineList ← registered.getOnlineList info.key
    .ok (registered,
      [.toSocket socket (.onlineList (.arr onlineList)),
        .broadcast socket (.userOnline (peerObject peerId name))])

def message (r : Server) (payload : JsValue) : List Emit :=
  if !payload.truthy || !payload.isObject then []
  else
    let recipient := (payload.field (js "recipient")).coalesce (.str broadcastId)
    if recipient.strictEq (.str broadcastId) then [.toAll (.message payload)]
    else
      -- A recipient that is an object is a reference no registration holds.
      match r.peerToSockets.get (recipient.key r.allocated) with
      | none => []
      | some targetSockets =>
          if targetSockets.size > 0 then
            targetSockets.elems.map fun sid => .toSocket sid (.message payload)
          else []

/-- Removes a socket from the set of its peer, and the set once it is empty. -/
def unroute (r : Server) (socket : SocketId) (info : PeerInfo) :
    InsertionMap JsKey (InsertionSet SocketId) :=
  match r.peerToSockets.get info.key with
  | none => r.peerToSockets
  | some set =>
      if (set.delete socket).size = 0 then r.peerToSockets.delete info.key
      else r.peerToSockets.set info.key (set.delete socket)

def disconnect (r : Server) (socket : SocketId) : Server × List Emit :=
  let dropped : Server :=
    { r with
      connected := r.connected.delete socket
      socketToPeer := r.socketToPeer.delete socket }
  match r.socketToPeer.get socket with
  | none => (dropped, [])
  | some info =>
      ({ dropped with peerToSockets := r.unroute socket info },
        [.broadcast socket (.userOffline (.obj [(js "peerId", info.peerId)]))])

/-! ## The relay as a transition system -/

inductive Action where
  | connect (socket : SocketId)
  | register (socket : SocketId) (data : JsValue)
  | message (socket : SocketId) (payload : JsValue)
  | disconnect (socket : SocketId)

/-- A handler that raises ends the process, so it has no successor. -/
def step (r : Server) : Action → Option Server
  | .connect socket => if socket ∈ r.connected then none else some (r.connect socket)
  | .register socket data =>
      if socket ∈ r.connected then
        match r.register socket data with
        | .ok (r', _) => some r'
        | .error _ => none
      else none
  | .message socket _ => if socket ∈ r.connected then some r else none
  | .disconnect socket =>
      if socket ∈ r.connected then some (r.disconnect socket).1 else none

def system : System Server Action := ⟨empty, step⟩

/-! ## What a registration does -/

def claimedPeer (data : JsValue) : JsValue :=
  (data.orElse (.obj [])).field (js "peerId")

def claimedName (data : JsValue) : JsValue :=
  (data.orElse (.obj [])).field (js "displayName")

theorem register_cases {r r' : Server} {socket : SocketId} {data : JsValue}
    {emits : List Emit} (h : r.register socket data = .ok (r', emits)) :
    ((claimedPeer data).truthy = false ∧ r' = r ∧ emits = []) ∨
      ∃ name list, (claimedPeer data).truthy = true ∧
        registeredName (claimedPeer data) (claimedName data) = .ok name ∧
        r' = r.enroll socket ⟨claimedPeer data, r.allocated, name⟩ ∧
        r'.getOnlineList ((claimedPeer data).key r.allocated) = .ok list ∧
        emits = [.toSocket socket (.onlineList (.arr list)),
          .broadcast socket (.userOnline (peerObject (claimedPeer data) name))] := by
  unfold register at h
  simp only at h
  split at h
  · rename_i hfalsy
    cases h
    exact .inl ⟨by simpa [claimedPeer] using hfalsy, rfl, rfl⟩
  · rename_i htruthy
    obtain ⟨name, hname, h⟩ := except_bind_eq_ok.mp h
    obtain ⟨list, hlist, h⟩ := except_bind_eq_ok.mp h
    cases h
    exact .inr ⟨name, list, by simpa [claimedPeer] using htruthy, hname, rfl,
      hlist, rfl⟩

theorem mem_getOnlineListFrom {exclude : JsKey} {seen : List JsKey}
    {entries : List (SocketId × PeerInfo)} {list : List JsValue}
    (h : getOnlineListFrom exclude seen entries = .ok list) :
    ∀ item ∈ list, ∃ s info name, (s, info) ∈ entries ∧ info.key ≠ exclude ∧
      listedName info = .ok name ∧ item = peerObject info.peerId name := by
  induction entries generalizing seen list with
  | nil =>
      cases h
      simp
  | cons entry rest ih =>
      obtain ⟨s, info⟩ := entry
      have hweaken : ∀ seen' list', getOnlineListFrom exclude seen' rest =
          .ok list' → ∀ item ∈ list', ∃ s' info' name,
          (s', info') ∈ (s, info) :: rest ∧ info'.key ≠ exclude ∧
          listedName info' = .ok name ∧ item = peerObject info'.peerId name := by
        intro seen' list' hrest item hitem
        obtain ⟨s', info', name, hmem, hrest⟩ := ih hrest item hitem
        exact ⟨s', info', name, List.mem_cons_of_mem _ hmem, hrest⟩
      rw [getOnlineListFrom] at h
      split at h
      · exact hweaken _ _ h
      rename_i hkey
      split at h
      · exact hweaken _ _ h
      obtain ⟨name, hname, h⟩ := except_bind_eq_ok.mp h
      obtain ⟨list', hrest, h⟩ := except_bind_eq_ok.mp h
      cases h
      intro item hitem
      rcases List.mem_cons.mp hitem with rfl | hitem
      · exact ⟨s, info, name, List.mem_cons_self, hkey, hname, rfl⟩
      · exact hweaken _ _ hrest item hitem

theorem throughJson_onlineList {r : Server} {exclude : JsKey} {list : List JsValue}
    (h : r.getOnlineList exclude = .ok list) :
    (JsValue.arr list).throughJson = .arr (list.map JsValue.throughJson) := by
  rw [JsValue.throughJson, JsValue.throughJsonItems_of_obj]
  intro item hitem
  obtain ⟨s, info, name, -, -, -, rfl⟩ := mem_getOnlineListFrom h item hitem
  exact ⟨_, rfl⟩

theorem exists_mem_getOnlineListFrom {exclude : JsKey} {seen : List JsKey}
    {entries : List (SocketId × PeerInfo)} {list : List JsValue}
    (h : getOnlineListFrom exclude seen entries = .ok list)
    {s : SocketId} {info : PeerInfo} (hmem : (s, info) ∈ entries)
    (hkey : info.key ≠ exclude) (hseen : info.key ∉ seen) :
    ∃ s' info' name, (s', info') ∈ entries ∧ info'.key = info.key ∧
      peerObject info'.peerId name ∈ list := by
  induction entries generalizing seen list with
  | nil => cases hmem
  | cons entry rest ih =>
      obtain ⟨s₁, info₁⟩ := entry
      have hlater : ∀ seen' list', getOnlineListFrom exclude seen' rest =
          .ok list' → info.key ∉ seen' → (s, info) ∈ rest → ∃ s' info' name,
          (s', info') ∈ (s₁, info₁) :: rest ∧ info'.key = info.key ∧
          peerObject info'.peerId name ∈ list' := by
        intro seen' list' hrest hnot hin
        obtain ⟨s', info', name, hmem', hrest'⟩ := ih hrest hin hnot
        exact ⟨s', info', name, List.mem_cons_of_mem _ hmem', hrest'⟩
      rw [getOnlineListFrom] at h
      split at h
      · rename_i hexclude
        rcases List.mem_cons.mp hmem with heq | hin
        · cases heq
          exact absurd hexclude hkey
        · exact hlater _ _ h hseen hin
      split at h
      · rename_i hold
        rcases List.mem_cons.mp hmem with heq | hin
        · cases heq
          exact absurd hold hseen
        · exact hlater _ _ h hseen hin
      obtain ⟨name, -, h⟩ := except_bind_eq_ok.mp h
      obtain ⟨list', hrest, h⟩ := except_bind_eq_ok.mp h
      cases h
      by_cases hsame : info₁.key = info.key
      · exact ⟨s₁, info₁, name, List.mem_cons_self, hsame, List.mem_cons_self⟩
      · rcases List.mem_cons.mp hmem with heq | hin
        · cases heq
          exact absurd rfl hsame
        · obtain ⟨s', info', name', hmem', hkey', hitem⟩ := hlater _ _ hrest (by
            simp only [List.mem_cons, not_or]
            exact ⟨Ne.symm hsame, hseen⟩) hin
          exact ⟨s', info', name', hmem', hkey', List.mem_cons_of_mem _ hitem⟩

theorem distinct_getOnlineListFrom {exclude : JsKey} {seen : List JsKey}
    {entries : List (SocketId × PeerInfo)} {list : List JsValue}
    (h : getOnlineListFrom exclude seen entries = .ok list)
    (hstrings : ∀ s info, (s, info) ∈ entries → ∃ p, info.peerId = .str p) :
    (list.map fun item => item.field (js "pubKey")).Nodup ∧
      ∀ item ∈ list, ∃ p, item.field (js "pubKey") = .str p ∧
        JsKey.str p ≠ exclude ∧ JsKey.str p ∉ seen := by
  induction entries generalizing seen list with
  | nil =>
      cases h
      simp
  | cons entry rest ih =>
      obtain ⟨s, info⟩ := entry
      have hrest : ∀ s info, (s, info) ∈ rest → ∃ p, info.peerId = .str p :=
        fun s info hmem => hstrings s info (List.mem_cons_of_mem _ hmem)
      rw [getOnlineListFrom] at h
      split at h
      · exact ih h hrest
      rename_i hexclude
      split at h
      · exact ih h hrest
      rename_i hseen
      obtain ⟨name, -, h⟩ := except_bind_eq_ok.mp h
      obtain ⟨list', hlist, h⟩ := except_bind_eq_ok.mp h
      cases h
      obtain ⟨hnodup, hitems⟩ := ih hlist hrest
      obtain ⟨p, hp⟩ := hstrings s info List.mem_cons_self
      have hkey : info.key = .str p := by rw [PeerInfo.key, hp, JsValue.key]
      have hfield : (peerObject info.peerId name).field (js "pubKey") = .str p := by
        rw [hp]
        rfl
      rw [hkey] at hexclude hseen hitems
      refine ⟨?_, ?_⟩
      · rw [List.map_cons, hfield, List.nodup_cons]
        refine ⟨?_, hnodup⟩
        intro hmem
        obtain ⟨item, hitem, heq⟩ := List.mem_map.mp hmem
        obtain ⟨q, hq, -, hnot⟩ := hitems item hitem
        rw [heq] at hq
        cases hq
        exact hnot List.mem_cons_self
      · intro item hitem
        rcases List.mem_cons.mp hitem with rfl | hitem
        · exact ⟨p, hfield, hexclude, hseen⟩
        · obtain ⟨q, hq, hother, hnot⟩ := hitems item hitem
          exact ⟨q, hq, hother, fun hmem => hnot (List.mem_cons_of_mem _ hmem)⟩

end Server

end CommonChat.Relay
