import CommonChat.Frontend.Clients
import CommonChat.Relay.Registry

/-!
# The relay, the network and the clients

Shipped tabs and adversarial sockets around one relay.  Each connection is a
pair of first-in, first-out queues.  A tab holds at most one connection; the
relay learns of its end later, by `drop`, after any number of the events that
were still under way.  A message sent without a connection waits in the send
buffer of the client library, which is flushed before the `connect` handler
registers the socket.

`sentOn` and `queued` are history: the messages that tabs sent over each
connection, and the events that the relay queued to it.
-/

namespace CommonChat.Network

open CommonChat.Foundation
open CommonChat.Core
open CommonChat.Relay
open CommonChat.Frontend

inductive ClientEvent where
  | register (data : JsValue)
  | message (payload : JsValue)

/-- A run of the socket effect: its tab and the values its handlers capture. -/
structure Connection where
  tab : TabId
  peerId : JsString
  displayName : JsString

structure World (H : Host) where
  clients : Clients H
  relay : Server
  nextSocket : SocketId
  owner : SocketId → Option Connection
  current : TabId → Option SocketId
  sendBuffer : TabId → List ChatMessage
  up : SocketId → List ClientEvent
  down : SocketId → List RelayEvent
  sentOn : SocketId → List ChatMessage
  queued : SocketId → List RelayEvent

inductive Action where
  | page (action : ClientAction)
  | send (tab : TabId) (input : JsString) (now : Nat) (random : JsString)
  | rename (tab : TabId) (editNameValue : JsString)
  | connect (tab : TabId)
  | leave (tab : TabId)
  | recv (socket : SocketId)
  | drop (socket : SocketId)
  | deliver (tab : TabId)
  /-- An adversary connects. -/
  | join
  /-- An adversary emits any event over its own socket. -/
  | emit (socket : SocketId) (event : ClientEvent)

/-- What an emit of the relay brings to a connected socket. -/
def arrival (socket : SocketId) : Emit → Option RelayEvent
  | .toSocket s event => if s = socket then some event.throughJson else none
  | .broadcast sender event =>
      if sender = socket then none else some event.throughJson
  | .toAll event => some event.throughJson

def arrivals (r : Server) (emits : List Emit) (socket : SocketId) :
    List RelayEvent :=
  if socket ∈ r.connected then emits.filterMap (arrival socket) else []

def isPageAction : ClientAction → Bool
  | .load _ | .handleInitialize .. | .openPublicRoom .. | .openDirectWith ..
  | .persist _ | .signElsewhere .. => true
  | .saveDisplayName .. | .signAndSend .. | .receive .. => false

def Connection.registration (conn : Connection) : JsValue :=
  Server.registration conn.peerId conn.displayName

def messageEvent (msg : ChatMessage) : ClientEvent :=
  .message msg.toJs.throughJson

namespace World

variable {H : Host}

def initial (H : Host) : World H where
  clients := .initial H
  relay := .empty
  nextSocket := 0
  owner := fun _ => none
  current := fun _ => none
  sendBuffer := fun _ => []
  up := fun _ => []
  down := fun _ => []
  sentOn := fun _ => []
  queued := fun _ => []

def dispatch (w : World H) (emits : List Emit) : World H :=
  { w with
    down := fun s => w.down s ++ arrivals w.relay emits s
    queued := fun s => w.queued s ++ arrivals w.relay emits s }

/-- `socketRef.current?.emit("message", msg)`. -/
def transmit (w : World H) (t : TabId) (msg : ChatMessage) : World H :=
  match w.current t with
  | some s =>
      { w with
        up := Function.update w.up s (w.up s ++ [messageEvent msg])
        sentOn := Function.update w.sentOn s (w.sentOn s ++ [msg]) }
  | none =>
      if (w.clients.tabs t).any Tab.wantsSocket then
        { w with sendBuffer :=
          Function.update w.sendBuffer t (w.sendBuffer t ++ [msg]) }
      else w

def send (w : World H) (t : TabId) (input : JsString) (now : Nat)
    (random : JsString) : Option (World H) := do
  let (clients, msg) ← w.clients.signAndSend t input now random
  some ({ w with clients := clients }.transmit t msg)

def close (w : World H) (t : TabId) : World H :=
  { w with
    current := Function.update w.current t none
    sendBuffer := Function.update w.sendBuffer t [] }

def rename (w : World H) (t : TabId) (editNameValue : JsString) :
    Option (World H) := do
  let tab ← w.clients.tabs t
  let clients ← w.clients.saveDisplayName t editNameValue
  if trim editNameValue = tab.displayName then some { w with clients := clients }
  else some ({ w with clients := clients }.close t)

/-- A connection of a tab: the send buffer is flushed, then the handler registers. -/
def openConnection (w : World H) (conn : Connection) : World H :=
  let s := w.nextSocket
  { w with
    relay := w.relay.connect s
    nextSocket := s + 1
    owner := Function.update w.owner s (some conn)
    current := Function.update w.current conn.tab (some s)
    sendBuffer := Function.update w.sendBuffer conn.tab []
    up := Function.update w.up s ((w.sendBuffer conn.tab).map messageEvent ++
      [.register conn.registration.throughJson])
    sentOn := Function.update w.sentOn s (w.sendBuffer conn.tab) }

def connect (w : World H) (t : TabId) : Option (World H) := do
  let tab ← w.clients.tabs t
  if tab.wantsSocket && (w.current t).isNone then
    some (w.openConnection ⟨t, tab.peerId, tab.displayName⟩)
  else none

def recv (w : World H) (s : SocketId) : Option (World H) :=
  if s ∈ w.relay.connected then
    match w.up s with
    | [] => none
    | .register data :: rest =>
        match w.relay.register s data with
        | .ok (relay, emits) =>
            some ({ w with
              relay := relay
              up := Function.update w.up s rest }.dispatch emits)
        | .error _ => none
    | .message payload :: rest =>
        some ({ w with up := Function.update w.up s rest }.dispatch
          (w.relay.message payload))
  else none

def drop (w : World H) (s : SocketId) : Option (World H) :=
  if s ∈ w.relay.connected then
    some ({ w with relay := (w.relay.disconnect s).1 }.dispatch
      (w.relay.disconnect s).2)
  else none

def deliver (w : World H) (t : TabId) : Option (World H) := do
  let s ← w.current t
  match w.down s with
  | [] => none
  | event :: rest =>
      let clients ← w.clients.receive t event
      some { w with
        clients := clients
        down := Function.update w.down s rest }

def join (w : World H) : World H :=
  { w with
    relay := w.relay.connect w.nextSocket
    nextSocket := w.nextSocket + 1 }

def step (w : World H) : Action → Option (World H)
  | .page a =>
      if isPageAction a then
        (w.clients.step a).map fun clients => { w with clients := clients }
      else none
  | .send t input now random => w.send t input now random
  | .rename t editNameValue => w.rename t editNameValue
  | .connect t => w.connect t
  | .leave t => some { w with current := Function.update w.current t none }
  | .recv s => w.recv s
  | .drop s => w.drop s
  | .deliver t => w.deliver t
  | .join => some w.join
  | .emit s event =>
      if (w.owner s).isNone && s ∈ w.relay.connected then
        some { w with up := Function.update w.up s (w.up s ++ [event]) }
      else none

def system (H : Host) : System (World H) Action := ⟨initial H, step⟩

/-! ## What a step can do -/

inductive Change (w : World H) : Action → World H → Prop
  | page {a : ClientAction} {clients : Clients H} (hpage : isPageAction a = true)
      (hclients : w.clients.step a = some clients) :
      Change w (.page a) { w with clients := clients }
  | send {t : TabId} {input : JsString} {now : Nat} {random : JsString}
      {clients : Clients H} {msg : ChatMessage}
      (hsend : w.clients.signAndSend t input now random = some (clients, msg)) :
      Change w (.send t input now random)
        ({ w with clients := clients }.transmit t msg)
  | keepName {t : TabId} {name : JsString} {clients : Clients H}
      (hclients : w.clients.saveDisplayName t name = some clients) :
      Change w (.rename t name) { w with clients := clients }
  | newName {t : TabId} {name : JsString} {clients : Clients H}
      (hclients : w.clients.saveDisplayName t name = some clients) :
      Change w (.rename t name) ({ w with clients := clients }.close t)
  | connect {t : TabId} {tab : Tab H} (htab : w.clients.tabs t = some tab)
      (hwants : tab.wantsSocket = true) (hcurrent : w.current t = none) :
      Change w (.connect t) (w.openConnection ⟨t, tab.peerId, tab.displayName⟩)
  | leave (t : TabId) :
      Change w (.leave t) { w with current := Function.update w.current t none }
  | register {s : SocketId} {data : JsValue} {rest : List ClientEvent}
      {relay : Server} {emits : List Emit} (hconn : s ∈ w.relay.connected)
      (hup : w.up s = .register data :: rest)
      (hregister : w.relay.register s data = .ok (relay, emits)) :
      Change w (.recv s) ({ w with
        relay := relay
        up := Function.update w.up s rest }.dispatch emits)
  | message {s : SocketId} {payload : JsValue} {rest : List ClientEvent}
      (hconn : s ∈ w.relay.connected) (hup : w.up s = .message payload :: rest) :
      Change w (.recv s) ({ w with up := Function.update w.up s rest }.dispatch
        (w.relay.message payload))
  | drop {s : SocketId} (hconn : s ∈ w.relay.connected) :
      Change w (.drop s) ({ w with relay := (w.relay.disconnect s).1 }.dispatch
        (w.relay.disconnect s).2)
  | deliver {t : TabId} {s : SocketId} {event : RelayEvent}
      {rest : List RelayEvent} {tab : Tab H} (hcurrent : w.current t = some s)
      (hdown : w.down s = event :: rest) (htab : w.clients.tabs t = some tab)
      (hwants : tab.wantsSocket = true) :
      Change w (.deliver t) { w with
        clients := w.clients.setTab t (tab.onRelayEvent event)
        down := Function.update w.down s rest }
  | join : Change w .join w.join
  | emit {s : SocketId} {event : ClientEvent} (howner : w.owner s = none)
      (hconn : s ∈ w.relay.connected) :
      Change w (.emit s event)
        { w with up := Function.update w.up s (w.up s ++ [event]) }

theorem change_of_step {w w' : World H} {a : Action}
    (h : w.step a = some w') : Change w a w' := by
  cases a with
  | page a =>
      simp only [step] at h
      split at h
      · rename_i hpage
        obtain ⟨clients, hclients, rfl⟩ := Option.map_eq_some_iff.mp h
        exact .page hpage hclients
      · cases h
  | send t input now random =>
      simp only [step, send, Option.bind_eq_bind, Option.bind_eq_some_iff] at h
      obtain ⟨⟨clients, msg⟩, hsend, h⟩ := h
      cases h
      exact .send hsend
  | rename t name =>
      simp only [step, rename, Option.bind_eq_bind, Option.bind_eq_some_iff] at h
      obtain ⟨tab, -, clients, hclients, h⟩ := h
      split at h
      · cases h
        exact .keepName hclients
      · cases h
        exact .newName hclients
  | connect t =>
      simp only [step, connect, Option.bind_eq_bind, Option.bind_eq_some_iff] at h
      obtain ⟨tab, htab, h⟩ := h
      split at h
      · rename_i hguard
        cases h
        simp only [Bool.and_eq_true, Option.isNone_iff_eq_none] at hguard
        exact .connect htab hguard.1 hguard.2
      · cases h
  | leave t =>
      cases h
      exact .leave t
  | recv s =>
      simp only [step, recv] at h
      split at h
      · rename_i hconn
        split at h
        · cases h
        · rename_i data rest hup
          split at h
          · rename_i relay emits hregister
            cases h
            exact .register hconn hup hregister
          · cases h
        · rename_i payload rest hup
          cases h
          exact .message hconn hup
      · cases h
  | drop s =>
      simp only [step, drop] at h
      split at h
      · rename_i hconn
        cases h
        exact .drop hconn
      · cases h
  | deliver t =>
      simp only [step, deliver, Option.bind_eq_bind, Option.bind_eq_some_iff] at h
      obtain ⟨s, hcurrent, h⟩ := h
      split at h
      · cases h
      · rename_i event rest hdown
        simp only [Clients.receive, Option.bind_eq_bind,
          Option.bind_eq_some_iff] at h
        obtain ⟨clients, ⟨tab, htab, hreceive⟩, h⟩ := h
        split at hreceive
        · rename_i hwants
          cases hreceive
          cases h
          exact .deliver hcurrent hdown htab hwants
        · cases hreceive
  | join =>
      cases h
      exact .join
  | emit s event =>
      simp only [step] at h
      split at h
      · rename_i hguard
        cases h
        simp only [Bool.and_eq_true, Option.isNone_iff_eq_none,
          decide_eq_true_eq] at hguard
        exact .emit hguard.1 hguard.2
      · cases h

/-! ## The clients of a run -/

def clientAction (w : World H) : Action → Option ClientAction
  | .page a => if isPageAction a then some a else none
  | .send t input now random => some (.signAndSend t input now random)
  | .rename t editNameValue => some (.saveDisplayName t editNameValue)
  | .deliver t => do
      let s ← w.current t
      let event ← (w.down s).head?
      some (.receive t event)
  | _ => none

theorem receive_of_clientAction {w : World H} {a : Action} {t : TabId}
    {event : RelayEvent} (h : w.clientAction a = some (.receive t event)) :
    ∃ s, w.current t = some s ∧ event ∈ w.down s := by
  cases a with
  | deliver u =>
      simp only [clientAction, Option.bind_eq_bind, Option.bind_eq_some_iff] at h
      obtain ⟨s, hs, event', hevent', h⟩ := h
      cases h
      exact ⟨s, hs, List.mem_of_mem_head? hevent'⟩
  | page a =>
      simp only [clientAction] at h
      split at h
      · rename_i hpage
        cases h
        cases hpage
      · cases h
  | _ => cases h

theorem send_of_clientAction {w : World H} {a : Action} {t : TabId}
    {input : JsString} {now : Nat} {random : JsString}
    (h : w.clientAction a = some (.signAndSend t input now random)) :
    a = .send t input now random := by
  cases a with
  | send t' input' now' random' =>
      cases h
      rfl
  | page a =>
      simp only [clientAction] at h
      split at h
      · rename_i hpage
        cases h
        cases hpage
      · cases h
  | deliver u =>
      simp only [clientAction, Option.bind_eq_bind, Option.bind_eq_some_iff] at h
      obtain ⟨s, -, event, -, h⟩ := h
      cases h
  | _ => cases h

structure Transmitted (w : World H) (t : TabId) (msg : ChatMessage)
    (up : SocketId → List ClientEvent) (sentOn : SocketId → List ChatMessage)
    (sendBuffer : TabId → List ChatMessage) : Prop where
  other : ∀ s, w.current t ≠ some s → up s = w.up s ∧ sentOn s = w.sentOn s
  up_kept : ∀ s, ∀ event ∈ w.up s, event ∈ up s
  up_new : ∀ s, ∀ event ∈ up s, event ∈ w.up s ∨ event = messageEvent msg
  buffer_new : ∀ u, ∀ m ∈ sendBuffer u, m ∈ w.sendBuffer u ∨ m = msg

theorem transmitted_of_same (w : World H) (t : TabId) (msg : ChatMessage) :
    Transmitted w t msg w.up w.sentOn w.sendBuffer where
  other _ _ := ⟨rfl, rfl⟩
  up_kept _ _ hevent := hevent
  up_new _ _ hevent := .inl hevent
  buffer_new _ _ hm := .inl hm

theorem mem_update_append {ι α : Type} [DecidableEq ι] {f : ι → List α} {i j : ι}
    {a b : α} (h : b ∈ Function.update f i (f i ++ [a]) j) : b ∈ f j ∨ b = a := by
  simp only [Function.update_apply] at h
  split at h
  · rename_i hj
    rw [hj]
    exact (List.mem_append.mp h).imp_right List.mem_singleton.mp
  · exact .inl h

theorem transmit_frame (w : World H) (t : TabId) (msg : ChatMessage) :
    ∃ up sentOn sendBuffer, w.transmit t msg =
        { w with up := up, sentOn := sentOn, sendBuffer := sendBuffer } ∧
      Transmitted w t msg up sentOn sendBuffer := by
  unfold transmit
  split
  · rename_i s hs
    refine ⟨_, _, _, rfl, ?_, ?_, fun _ _ => mem_update_append, fun _ _ => .inl⟩
    · intro s' hs'
      have hne : s' ≠ s := by
        rintro rfl
        exact hs' hs
      simp [hne]
    · intro s' event hevent
      simp only [Function.update_apply]
      split
      · rename_i hs'
        rw [hs'] at hevent
        exact List.mem_append_left _ hevent
      · exact hevent
  · split
    · exact ⟨_, _, _, rfl, { transmitted_of_same w t msg with
        buffer_new := fun _ _ => mem_update_append }⟩
    · exact ⟨_, _, _, rfl, transmitted_of_same w t msg⟩

section Transmit

variable (w : World H) (t : TabId) (msg : ChatMessage)

@[simp] theorem transmit_clients : (w.transmit t msg).clients = w.clients := by
  obtain ⟨up, sentOn, sendBuffer, heq, -⟩ := transmit_frame w t msg
  rw [heq]

@[simp] theorem transmit_relay : (w.transmit t msg).relay = w.relay := by
  obtain ⟨up, sentOn, sendBuffer, heq, -⟩ := transmit_frame w t msg
  rw [heq]

@[simp] theorem transmit_owner : (w.transmit t msg).owner = w.owner := by
  obtain ⟨up, sentOn, sendBuffer, heq, -⟩ := transmit_frame w t msg
  rw [heq]

@[simp] theorem transmit_down : (w.transmit t msg).down = w.down := by
  obtain ⟨up, sentOn, sendBuffer, heq, -⟩ := transmit_frame w t msg
  rw [heq]

end Transmit

theorem clients_of_change {w w' : World H} {a : Action} (h : Change w a w') :
    w'.clients = w.clients ∨ ∃ b, w.clientAction a = some b ∧
      w.clients.step b = some w'.clients := by
  cases h with
  | page hpage hclients =>
      exact .inr ⟨_, by simp only [clientAction, hpage, if_true], hclients⟩
  | send hsend =>
      refine .inr ⟨_, rfl, ?_⟩
      simp only [transmit_clients, Clients.step, hsend, Option.map_some]
  | keepName hclients => exact .inr ⟨_, rfl, hclients⟩
  | newName hclients => exact .inr ⟨_, rfl, hclients⟩
  | @deliver t s event rest tab hcurrent hdown htab hwants =>
      refine .inr ⟨.receive t event, ?_, ?_⟩
      · simp only [clientAction, hcurrent, hdown, Option.bind_eq_bind,
          Option.bind_some, List.head?_cons]
      · simp [Clients.step, Clients.receive, htab, hwants]
  | _ => exact .inl rfl

/-- A run of the world is a run of its clients. -/
theorem reach_clients {ok : World H → Action → Prop}
    {ok' : Clients H → ClientAction → Prop}
    (hok : ∀ w a b, (system H).Reach ok w → ok w a →
      w.clientAction a = some b → ok' w.clients b)
    {w : World H} (hw : (system H).Reach ok w) :
    (Clients.system H).Reach ok' w.clients := by
  refine hw.project World.clients rfl ?_
  intro w a w' hreach hguard hstep
  rcases clients_of_change (change_of_step hstep) with hsame | ⟨b, hb, hnext⟩
  · exact .inl hsame
  · exact .inr ⟨b, hok w a b hreach hguard hb, hnext⟩

theorem reach_clients_any {ok : World H → Action → Prop} {w : World H}
    (hw : (system H).Reach ok w) :
    (Clients.system H).Reach (fun _ _ => True) w.clients :=
  reach_clients (fun _ _ _ _ _ _ => trivial) hw

end World

end CommonChat.Network
