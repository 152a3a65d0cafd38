import CommonChat.Frontend.Alike
import CommonChat.Network.Replay
import CommonChat.Network.Wiring

/-!
# Secrecy of private texts

What a run shows to third parties does not depend on the texts of private
messages.  Take any run, with adversaries on the network, and replace the texts
that certain peers write to each other: the same schedule with the other texts is
a run as well, and in it the relay, every uninvolved tab and every socket that
did not register as one of the recipients are in the same state, with the same
events queued to them.

The relay routes by recipient alone and admits registrations under any id, so the
sockets that register as a recipient are excepted, whoever holds them.
-/

namespace CommonChat.Network

open CommonChat.Foundation
open CommonChat.Core
open CommonChat.Relay
open CommonChat.Frontend

variable {H : Host} {Pair : JsString → JsString → Prop}

/-! ## The relay -/

inductive AlikeSent (H : Host) (Pair : JsString → JsString → Prop) :
    ClientEvent → ClientEvent → Prop
  | same (event : ClientEvent) : AlikeSent H Pair event event
  | message {payload payload' : JsValue} (h : AlikePayload H Pair payload payload') :
      AlikeSent H Pair (.message payload) (.message payload')

def targets (r : Server) (peer : JsKey) : List SocketId :=
  match r.peerToSockets.get peer with
  | none => []
  | some set => set.elems

theorem mem_targets {r : Server} {peer : JsKey} {s : SocketId} :
    s ∈ targets r peer ↔ r.Routes peer s := by
  unfold targets Server.Routes
  cases r.peerToSockets.get peer with
  | none => simp
  | some set => simp [InsertionSet.mem_def]

theorem message_eq_of_recipient (r : Server) {payload : JsValue}
    (hobject : payload.isObject = true) {p : JsString}
    (hp : relayAddressee payload = .str p) (hne : p ≠ broadcastId) :
    r.message payload =
      (targets r (.str p)).map fun sid => .toSocket sid (.message payload) := by
  have htruthy : payload.truthy = true := by
    cases payload <;> first | rfl | cases hobject
  have hrecipient : (payload.field (js "recipient")).coalesce (.str broadcastId) =
      .str p := hp
  unfold targets
  cases hget : r.peerToSockets.get (.str p) with
  | none => simp [Server.message, htruthy, hobject, hrecipient, hne, JsValue.key, hget]
  | some set =>
      simp only [Server.message, htruthy, hobject, hrecipient, JsValue.key, hget,
        JsValue.str_strictEq_str, beq_iff_eq, hne, Bool.not_true, Bool.or_self,
        Bool.false_eq_true, if_false]
      split
      · rfl
      · rename_i hsize
        have hnil : set.elems = [] := List.eq_nil_of_length_eq_zero (by
          simpa [InsertionSet.size] using hsize)
        rw [hnil]
        rfl

theorem routed_of_alike {payload payload' : JsValue}
    (h : AlikePayload H Pair payload payload') :
    payload' = payload ∨ ∃ sender p, Pair sender p ∧ payload.isObject = true ∧
      payload'.isObject = true ∧ relayAddressee payload = .str p ∧
      relayAddressee payload' = .str p := by
  obtain ⟨m, m', hm, rfl, rfl⟩ := h
  cases hm with
  | same => exact .inl rfl
  | @retext text sig hpair hm hm' =>
      obtain ⟨-, sender, p, hpair, -, hto⟩ := hpair
      have haddressee : ∀ m₁ : ChatMessage, m₁.recipient = .str p →
          relayAddressee m₁.toJs.throughJson = .str p := by
        intro m₁ hto₁
        have hfield : m₁.toJs.field (js "recipient") = m₁.recipient := rfl
        rw [relayAddressee, JsValue.field_throughJson, hfield, hto₁]
        rfl
      exact .inr ⟨sender, p, hpair, rfl, rfl, haddressee m hto,
        haddressee (m.retext text sig) hto⟩

private theorem forall₂_arrival {payload payload' : JsValue}
    (h : AlikePayload H Pair payload payload') (sids : List SocketId) (s : SocketId) :
    List.Forall₂ (AlikeEvent H Pair)
      ((sids.map fun sid => Emit.toSocket sid (.message payload)).filterMap (arrival s))
      ((sids.map fun sid => Emit.toSocket sid (.message payload')).filterMap
        (arrival s)) := by
  induction sids with
  | nil => exact .nil
  | cons sid rest ih =>
      by_cases hs : sid = s
      · simp only [List.map_cons, List.filterMap_cons, arrival, hs, if_true]
        exact .cons (.message h.throughJson) ih
      · simp only [List.map_cons, List.filterMap_cons, arrival, hs, if_false]
        exact ih

theorem forall₂_refl_event (events : List RelayEvent) :
    List.Forall₂ (AlikeEvent H Pair) events events :=
  List.forall₂_same.mpr fun event _ => .same event

theorem arrivals_of_alike {payload payload' : JsValue}
    (h : AlikePayload H Pair payload payload')
    (hpair : ∀ sender p, Pair sender p → p ≠ broadcastId) (r : Server) (s : SocketId) :
    List.Forall₂ (AlikeEvent H Pair) (arrivals r (r.message payload) s)
        (arrivals r (r.message payload') s) ∧
      ((∀ sender p, Pair sender p → ¬ r.Routes (.str p) s) →
        arrivals r (r.message payload') s =
          arrivals r (r.message payload) s) := by
  rcases routed_of_alike h with heq | ⟨sender, p, hmem, hobject, hobject', hto, hto'⟩
  · rw [heq]
    exact ⟨forall₂_refl_event _, fun _ => rfl⟩
  · have hemits := message_eq_of_recipient r hobject hto (hpair sender p hmem)
    have hemits' := message_eq_of_recipient r hobject' hto' (hpair sender p hmem)
    simp only [arrivals, hemits, hemits']
    split
    · refine ⟨forall₂_arrival h _ s, ?_⟩
      intro hnot
      have hnone : ∀ q : JsValue, ((targets r (.str p)).map fun sid =>
          Emit.toSocket sid (.message q)).filterMap (arrival s) = [] := by
        intro q
        rw [List.filterMap_eq_nil_iff]
        intro emit hemit
        obtain ⟨sid, hsid, rfl⟩ := List.mem_map.mp hemit
        have hne : sid ≠ s := by
          rintro rfl
          exact hnot sender p hmem (mem_targets.mp hsid)
        simp [arrival, hne]
      rw [hnone, hnone]
    · exact ⟨.nil, fun _ => rfl⟩

namespace World

/-! ## Which sockets receive for a recipient -/

/-- Only sockets of `Inside` register as the recipient of a pair. -/
def RegistersInside (Pair : JsString → JsString → Prop) (Inside : SocketId → Prop)
    (w : World H) (a : Action) : Prop :=
  ∀ s data rest, a = .recv s → w.up s = .register data :: rest →
    ∀ sender p, Pair sender p → Server.claimedPeer data = .str p → Inside s

variable {Inside : SocketId → Prop}

theorem eq_str_of_key {value : JsValue} {address : Nat} {p : JsString}
    (h : value.key address = .str p) : value = .str p := by
  cases value <;> simp_all [JsValue.key]

theorem inside_of_routes {w : World H}
    (hw : (system H).Reach (RegistersInside Pair Inside) w) {sender p : JsString}
    (hpair : Pair sender p) {s : SocketId} (hroutes : w.relay.Routes (.str p) s) :
    Inside s := by
  revert s
  refine hw.invariant
    (I := fun w => ∀ {s}, w.relay.Routes (.str p) s → Inside s) ?_ ?_
  · rintro s ⟨set, hset, -⟩
    cases hset
  · intro w a w' _ h hok hnext s hroutes
    cases change_of_step hnext with
    | send hsend =>
        rw [transmit_relay] at hroutes
        exact h hroutes
    | @register s₀ data rest relay emits hconn hup hregister =>
        rcases Server.register_cases hregister with
          ⟨-, rfl, -⟩ | ⟨name, list, -, -, rfl, -, -⟩
        · exact h hroutes
        · rcases (Server.routes_enroll_iff _ _ _ _ _).mp hroutes with
            ⟨hkey, rfl⟩ | hold
          · exact hok s data rest rfl hup sender p hpair (eq_str_of_key hkey.symm)
          · exact h hold
    | drop hconn =>
        exact h ((Server.routes_disconnect_iff _ _ _ _).mp hroutes).1
    | _ => exact h hroutes

/-! ## Runs side by side -/

/-- The same world, but for the texts of confidential messages inside. -/
structure AlikeWorld (Pair : JsString → JsString → Prop) (Inside : SocketId → Prop)
    (w w' : World H) : Prop where
  clients : AlikeClients Pair w.clients w'.clients
  relay_eq : w'.relay = w.relay
  nextSocket_eq : w'.nextSocket = w.nextSocket
  owner_eq : w'.owner = w.owner
  current_eq : w'.current = w.current
  sendBuffer : ∀ t, AlikeList H Pair (w.sendBuffer t) (w'.sendBuffer t)
  up : ∀ s, List.Forall₂ (AlikeSent H Pair) (w.up s) (w'.up s)
  down : ∀ s, List.Forall₂ (AlikeEvent H Pair) (w.down s) (w'.down s)
  down_eq : ∀ s, ¬ Inside s → w'.down s = w.down s
  queued_eq : ∀ s, ¬ Inside s → w'.queued s = w.queued s

theorem alikeWorld_initial : AlikeWorld Pair Inside (initial H) (initial H) where
  clients := alikeClients_initial
  relay_eq := rfl
  nextSocket_eq := rfl
  owner_eq := rfl
  current_eq := rfl
  sendBuffer _ := .nil
  up _ := .nil
  down _ := .nil
  down_eq _ _ := rfl
  queued_eq _ _ := rfl

inductive SameButText (Pair : JsString → JsString → Prop) (w : World H) :
    Action → Action → Prop
  | same (a : Action) : SameButText Pair w a a
  | send {t : TabId} {input input' : JsString} {now : Nat} {random : JsString}
      (hconfides : ∀ tab, w.clients.tabs t = some tab → tab.Confides Pair)
      (hinput : trim input' ≠ []) :
      SameButText Pair w (.send t input now random) (.send t input' now random)

namespace AlikeWorld

variable {w w' w₁ : World H}

theorem setClients (h : AlikeWorld Pair Inside w w') {clients clients' : Clients H}
    (hclients : AlikeClients Pair clients clients') :
    AlikeWorld Pair Inside { w with clients := clients }
      { w' with clients := clients' } :=
  { h with clients := hclients }

theorem dispatch (h : AlikeWorld Pair Inside w w') {emits emits' : List Emit}
    (hemits : ∀ s, List.Forall₂ (AlikeEvent H Pair) (arrivals w.relay emits s)
      (arrivals w.relay emits' s))
    (hsame : ∀ s, ¬ Inside s → arrivals w.relay emits' s = arrivals w.relay emits s) :
    AlikeWorld Pair Inside (w.dispatch emits) (w'.dispatch emits') where
  clients := h.clients
  relay_eq := h.relay_eq
  nextSocket_eq := h.nextSocket_eq
  owner_eq := h.owner_eq
  current_eq := h.current_eq
  sendBuffer := h.sendBuffer
  up := h.up
  down s := by
    simp only [World.dispatch, h.relay_eq]
    exact List.rel_append (h.down s) (hemits s)
  down_eq s hs := by
    simp only [World.dispatch, h.relay_eq, h.down_eq s hs, hsame s hs]
  queued_eq s hs := by
    simp only [World.dispatch, h.relay_eq, h.queued_eq s hs, hsame s hs]

theorem dispatch_same (h : AlikeWorld Pair Inside w w') (emits : List Emit) :
    AlikeWorld Pair Inside (w.dispatch emits) (w'.dispatch emits) :=
  h.dispatch (fun _ => forall₂_refl_event _) (fun _ _ => rfl)

theorem forall₂_update {ι α : Type} [DecidableEq ι] {R : α → α → Prop}
    {f f' : ι → List α} (h : ∀ i, List.Forall₂ R (f i) (f' i)) (i : ι)
    {l l' : List α} (hl : List.Forall₂ R l l') (j : ι) :
    List.Forall₂ R (Function.update f i l j) (Function.update f' i l' j) := by
  simp only [Function.update_apply]
  split
  · exact hl
  · exact h j

theorem setUp (h : AlikeWorld Pair Inside w w') (s : SocketId)
    {events events' : List ClientEvent}
    (hevents : List.Forall₂ (AlikeSent H Pair) events events') :
    AlikeWorld Pair Inside { w with up := Function.update w.up s events }
      { w' with up := Function.update w'.up s events' } :=
  { h with up := forall₂_update h.up s hevents }

theorem alikeSent_messageEvent {m m' : ChatMessage} (h : Alike H Pair m m') :
    AlikeSent H Pair (messageEvent m) (messageEvent m') :=
  .message ⟨m, m', h, rfl, rfl⟩

theorem transmit (h : AlikeWorld Pair Inside w w') (t : TabId) {m m' : ChatMessage}
    (hm : Alike H Pair m m') :
    AlikeWorld Pair Inside (w.transmit t m) (w'.transmit t m') := by
  have hany : (w'.clients.tabs t).any Tab.wantsSocket =
      (w.clients.tabs t).any Tab.wantsSocket := by
    cases htab : w.clients.tabs t with
    | none =>
        have hrel := h.clients.tabs t
        rw [htab] at hrel
        generalize w'.clients.tabs t = other at hrel
        cases hrel
        rfl
    | some tab =>
        obtain ⟨messages, htab', -⟩ := h.clients.exists_tab htab
        rw [htab']
        rfl
  have hcurrent : w'.current t = w.current t := by rw [h.current_eq]
  unfold World.transmit
  rw [hcurrent, hany]
  split
  · rename_i s hs
    exact { h.setUp s (List.rel_append (h.up s)
      (.cons (alikeSent_messageEvent hm) .nil)) with }
  · split
    · exact { h with
        sendBuffer := forall₂_update h.sendBuffer t ((h.sendBuffer t).append hm) }
    · exact h

theorem openConnection (h : AlikeWorld Pair Inside w w') (conn : Connection) :
    AlikeWorld Pair Inside (w.openConnection conn) (w'.openConnection conn) := by
  have hbuffer : List.Forall₂ (AlikeSent H Pair)
      ((w.sendBuffer conn.tab).map messageEvent)
      ((w'.sendBuffer conn.tab).map messageEvent) := by
    refine List.forall₂_map_left_iff.mpr (List.forall₂_map_right_iff.mpr ?_)
    exact (h.sendBuffer conn.tab).imp fun _ _ => alikeSent_messageEvent
  unfold World.openConnection
  simp only [h.relay_eq, h.nextSocket_eq, h.owner_eq, h.current_eq]
  exact { h with
    relay_eq := rfl
    nextSocket_eq := rfl
    owner_eq := rfl
    current_eq := rfl
    sendBuffer := forall₂_update h.sendBuffer conn.tab .nil
    up := forall₂_update h.up w.nextSocket
      (List.rel_append hbuffer (.cons (.same _) .nil)) }

theorem rename (h : AlikeWorld Pair Inside w w') {t : TabId} {name : JsString}
    (hstep : w.rename t name = some w₁) :
    ∃ w₁', w'.rename t name = some w₁' ∧ AlikeWorld Pair Inside w₁ w₁' := by
  simp only [World.rename, Option.bind_eq_bind, Option.bind_eq_some_iff] at hstep ⊢
  obtain ⟨tab, htab, clients, hclients, hstep⟩ := hstep
  obtain ⟨messages, htab', -⟩ := h.clients.exists_tab htab
  obtain ⟨clients', hclients', halike⟩ := h.clients.saveDisplayName hclients
  have hset := h.setClients halike
  split at hstep
  · rename_i hname
    cases hstep
    exact ⟨_, ⟨_, htab', clients', hclients', if_pos hname⟩, hset⟩
  · rename_i hname
    cases hstep
    refine ⟨_, ⟨_, htab', clients', hclients', if_neg hname⟩, ?_⟩
    exact { hset with
      current_eq := by simp only [World.close, h.current_eq]
      sendBuffer := forall₂_update h.sendBuffer t .nil }

theorem recv (h : AlikeWorld Pair Inside w w')
    (hpair : ∀ sender p, Pair sender p → p ≠ broadcastId)
    (hinside : ∀ sender p s, Pair sender p → w.relay.Routes (.str p) s → Inside s)
    {s : SocketId} (hstep : w.recv s = some w₁) :
    ∃ w₁', w'.recv s = some w₁' ∧ AlikeWorld Pair Inside w₁ w₁' := by
  have hup := h.up s
  have hrelay : AlikeWorld Pair Inside w { w' with relay := w.relay } :=
    { h with relay_eq := rfl }
  unfold World.recv at hstep ⊢
  rw [h.relay_eq]
  split at hstep
  · rename_i hconn
    rw [if_pos hconn]
    generalize w.up s = events at hup hstep
    generalize w'.up s = events' at hup
    cases hup with
    | nil => cases hstep
    | @cons event event' rest rest' hevent hrest =>
        cases hevent with
        | same =>
            cases event with
            | register data =>
                simp only at hstep ⊢
                cases hregister : w.relay.register s data with
                | error e =>
                    rw [hregister] at hstep
                    cases hstep
                | ok result =>
                    obtain ⟨relay, emits⟩ := result
                    rw [hregister] at hstep
                    cases hstep
                    refine ⟨_, rfl, dispatch_same ?_ emits⟩
                    exact { hrelay.setUp s hrest with relay_eq := rfl }
            | message payload =>
                cases hstep
                exact ⟨_, rfl, (hrelay.setUp s hrest).dispatch_same _⟩
        | message hpayload =>
            cases hstep
            refine ⟨_, rfl, (hrelay.setUp s hrest).dispatch ?_ ?_⟩
            · exact fun s' => (arrivals_of_alike hpayload hpair w.relay s').1
            · intro s' hs'
              refine (arrivals_of_alike hpayload hpair w.relay s').2 ?_
              exact fun sender p hmem hroutes => hs' (hinside sender p s' hmem hroutes)
  · cases hstep

theorem deliver_eq_some {t : TabId} {s : SocketId} {event : RelayEvent}
    {rest : List RelayEvent} {clients : Clients H} (hs : w.current t = some s)
    (hdown : w.down s = event :: rest)
    (hreceive : w.clients.receive t event = some clients) :
    w.deliver t = some { w with
      clients := clients
      down := Function.update w.down s rest } := by
  simp only [World.deliver, hs, hdown, hreceive, Option.bind_eq_bind, Option.bind_some]

theorem deliver (h : AlikeWorld Pair Inside w w') {t : TabId}
    (hstep : w.deliver t = some w₁) :
    ∃ w₁', w'.deliver t = some w₁' ∧ AlikeWorld Pair Inside w₁ w₁' := by
  simp only [World.deliver, Option.bind_eq_bind, Option.bind_eq_some_iff] at hstep
  obtain ⟨s, hs, hstep⟩ := hstep
  rw [← h.current_eq] at hs
  have hdown := h.down s
  have hsame := h.down_eq s
  generalize hevents : w.down s = events at hdown hsame hstep
  generalize hevents' : w'.down s = events' at hdown hsame
  cases hdown with
  | nil => cases hstep
  | @cons event event' rest rest' hevent hrest =>
      simp only [Option.bind_eq_some_iff] at hstep
      obtain ⟨clients, hreceive, hstep⟩ := hstep
      cases hstep
      obtain ⟨clients', hreceive', halike⟩ := h.clients.receive hevent hreceive
      refine ⟨_, deliver_eq_some hs hevents' hreceive', { h.setClients halike with
        down := forall₂_update h.down s hrest
        down_eq := ?_ }⟩
      intro s' hs'
      simp only [Function.update_apply]
      split
      · rename_i heq
        rw [heq] at hs'
        exact (List.cons.inj (hsame hs')).2
      · exact h.down_eq s' hs'

theorem step (hE : H.ed25519.Correct) (h : AlikeWorld Pair Inside w w')
    (hallInStep : w.clients.AllInStep)
    (hpair : ∀ sender p, Pair sender p → p ≠ broadcastId)
    (hinside : ∀ sender p s, Pair sender p → w.relay.Routes (.str p) s → Inside s)
    {a b : Action} (halt : SameButText Pair w a b) (hstep : w.step a = some w₁) :
    ∃ w₁', w'.step b = some w₁' ∧ AlikeWorld Pair Inside w₁ w₁' := by
  have hsend : ∀ t input input' now random,
      (∀ tab, w.clients.tabs t = some tab → AlikeInput Pair tab input input') →
      w.send t input now random = some w₁ →
      ∃ w₁', w'.send t input' now random = some w₁' ∧
        AlikeWorld Pair Inside w₁ w₁' := by
    intro t input input' now random hinput hsend
    simp only [World.send, Option.bind_eq_bind, Option.bind_eq_some_iff] at hsend ⊢
    obtain ⟨⟨clients, msg⟩, hclients, hsend⟩ := hsend
    cases hsend
    obtain ⟨clients', msg', hclients', halike, hmsg⟩ :=
      h.clients.signAndSend hE hallInStep hinput hclients
    exact ⟨_, ⟨⟨clients', msg'⟩, hclients', rfl⟩, (h.setClients halike).transmit t hmsg⟩
  cases halt with
  | @send t input input' now random hconfides hinput =>
      exact hsend t input input' now random
        (fun tab htab => .inr ⟨hconfides tab htab, hinput⟩) hstep
  | same =>
      cases a with
      | page a =>
          simp only [World.step] at hstep ⊢
          split at hstep
          · rename_i hpage
            obtain ⟨clients, hclients, rfl⟩ := Option.map_eq_some_iff.mp hstep
            obtain ⟨clients', hclients', halike⟩ := h.clients.step
              (by rintro t event rfl; cases hpage)
              (by rintro t input now random rfl; cases hpage) hclients
            rw [if_pos hpage, hclients']
            exact ⟨_, rfl, h.setClients halike⟩
          · cases hstep
      | send t input now random =>
          exact hsend t input input now random (fun _ _ => .inl rfl) hstep
      | rename t name => exact h.rename hstep
      | connect t =>
          simp only [World.step, World.connect, Option.bind_eq_bind,
            Option.bind_eq_some_iff] at hstep ⊢
          obtain ⟨tab, htab, hstep⟩ := hstep
          obtain ⟨messages, htab', -⟩ := h.clients.exists_tab htab
          split at hstep
          · rename_i hguard
            cases hstep
            refine ⟨_, ⟨_, htab', ?_⟩, h.openConnection _⟩
            rw [h.current_eq]
            exact if_pos hguard
          · cases hstep
      | leave t =>
          cases hstep
          exact ⟨_, rfl, { h with current_eq := by simp only [h.current_eq] }⟩
      | recv s => exact h.recv hpair hinside hstep
      | drop s =>
          simp only [World.step, World.drop, h.relay_eq] at hstep ⊢
          split at hstep
          · rename_i hconn
            cases hstep
            rw [if_pos hconn]
            have hrelay : AlikeWorld Pair Inside
                { w with relay := (w.relay.disconnect s).1 }
                { w' with relay := (w.relay.disconnect s).1 } :=
              { h with relay_eq := rfl }
            exact ⟨_, rfl, hrelay.dispatch_same _⟩
          · cases hstep
      | deliver t => exact h.deliver hstep
      | join =>
          cases hstep
          refine ⟨_, rfl, ?_⟩
          simp only [World.join, h.relay_eq, h.nextSocket_eq]
          exact { h with relay_eq := rfl, nextSocket_eq := rfl }
      | emit s event =>
          simp only [World.step, h.relay_eq, h.owner_eq] at hstep ⊢
          split at hstep
          · rename_i hguard
            cases hstep
            rw [if_pos hguard]
            have hset := h.setUp s
              (List.rel_append (h.up s) (.cons (.same event) .nil))
            exact ⟨_, rfl, { hset with
              relay_eq := rfl
              owner_eq := rfl }⟩
          · cases hstep

end AlikeWorld

/-! ## Third parties -/

def Uninvolved (Pair : JsString → JsString → Prop) (me : JsString) : Prop :=
  ∀ sender recipient, Pair sender recipient → me ≠ sender ∧ me ≠ recipient

theorem eq_of_uninvolved {me : JsString} (hme : Uninvolved Pair me)
    (hpair : ∀ sender p, Pair sender p → p ≠ broadcastId)
    {list list' : List ChatMessage} (h : AlikeList H Pair list list')
    (hfor : ∀ e ∈ list, ForMe me e) : list' = list := by
  induction h with
  | nil => rfl
  | @cons e e' rest rest' he hrest ih =>
      rw [ih fun m hm => hfor m (List.mem_cons_of_mem _ hm)]
      cases he with
      | same => rfl
      | retext hconfidential =>
          obtain ⟨-, sender, recipient, hmem, hpeer, hto⟩ := hconfidential
          have haddressee : Tab.addressee e = .str recipient := by
            rw [Tab.addressee, hto]
            rfl
          obtain ⟨hsender, hrecipient⟩ := hme sender recipient hmem
          rcases hfor e List.mem_cons_self with hmine | hall | hmine
          · rw [hpeer] at hmine
            exact absurd (JsValue.str.inj hmine).symm hsender
          · rw [haddressee] at hall
            exact absurd (JsValue.str.inj hall) (hpair sender recipient hmem)
          · rw [haddressee] at hmine
            exact absurd (JsValue.str.inj hmine).symm hrecipient

/--
Private texts stay between their peers.  Whatever the peers of the pairs write to
each other in place of what they wrote, there is a run with the other texts.  The two
worlds differ in the texts and signatures of those messages only, and outside of the
pairs they are the same: the relay, every tab and every stored list of an uninvolved
peer, and all that is queued to sockets that never registered as the recipient of a
pair.
-/
theorem private_texts_confined (hE : H.ed25519.Correct)
    (hpair : ∀ sender p, Pair sender p → p ≠ broadcastId) {w : World H}
    {schedule : List Action}
    (h : (system H).Beside (RegistersInside Pair Inside) (SameButText Pair) w
      schedule) :
    ∃ w', (system H).run schedule = some w' ∧ AlikeWorld Pair Inside w w' ∧
      w'.relay = w.relay ∧ w'.owner = w.owner ∧ w'.current = w.current ∧
      (∀ s, ¬ Inside s → w'.queued s = w.queued s) ∧
      (∀ t tab, w.clients.tabs t = some tab → Uninvolved Pair tab.peerId →
        w'.clients.tabs t = some tab) ∧
      ∀ b me, Uninvolved Pair me →
        (w'.clients.storage b).messages (storageKey me) =
          (w.clients.storage b).messages (storageKey me) := by
  obtain ⟨w', hrun, halike⟩ := h.exists_run (R := AlikeWorld Pair Inside)
    alikeWorld_initial (by
      intro w w' a b w₁ hreach halike hok halt hstep
      exact halike.step hE (Clients.allInStep_of_reach (reach_clients_any hreach)) hpair
        (fun sender p s hmem hroutes => inside_of_routes hreach hmem hroutes) halt hstep)
  have hfor := forMe_of_reach (reach_clients_any h.reach)
  refine ⟨w', hrun, halike, halike.relay_eq, halike.owner_eq, halike.current_eq,
    halike.queued_eq, ?_, ?_⟩
  · intro t tab htab hme
    obtain ⟨messages, htab', hmessages⟩ := halike.clients.exists_tab htab
    rw [htab', eq_of_uninvolved hme hpair hmessages (hfor.listed t tab htab)]
  · intro b me hme
    have hstored := (halike.clients.storage b).messages (storageKey me)
    cases hlist : (w.clients.storage b).messages (storageKey me) with
    | none =>
        rw [hlist] at hstored
        generalize (w'.clients.storage b).messages (storageKey me) = other at hstored
        cases hstored
        rfl
    | some list =>
        rw [hlist] at hstored
        obtain ⟨list', hlist', hmessages⟩ := exists_of_rel_some hstored
        rw [hlist', eq_of_uninvolved hme hpair hmessages (hfor.stored b me list hlist)]

abbrev Retexted := Action × Option JsString

def Retexted.other : Retexted → Action
  | (.send t _ now random, some input) => .send t input now random
  | (a, _) => a

def onePair (sender recipient : JsString) : Prop :=
  sender = plainPeer 1 ∧ recipient = plainPeer 2

def confidesOnce (w : World plainHost) : Retexted → Bool
  | (.send t _ _ _, some input) => trim input ≠ [] && (w.clients.tabs t).any fun tab =>
      tab.activeView = .direct && tab.activeDirectPeerId.strictEq (.str (plainPeer 2)) &&
        tab.peerId = plainPeer 1
  | (_, some _) => false
  | (.recv s, none) =>
      match w.up s with
      | .register data :: _ =>
          s = 1 || !(Server.claimedPeer data).strictEq (.str (plainPeer 2))
      | _ => true
  | _ => true

theorem sameButText_of_confidesOnce (w : World plainHost) (c : Retexted)
    (h : confidesOnce w c = true) :
    RegistersInside onePair (· = 1) w c.1 ∧ SameButText onePair w c.1 c.other := by
  obtain ⟨a, text⟩ := c
  refine ⟨?_, ?_⟩
  · rintro s data rest rfl hup sender p ⟨-, rfl⟩ hclaimed
    cases text with
    | none => simpa [confidesOnce, hup, hclaimed] using h
    | some text => cases h
  · cases text with
    | none => cases a <;> exact .same _
    | some text =>
        cases a with
        | send t input now random =>
            simp only [confidesOnce, Bool.and_eq_true, decide_eq_true_eq,
              Option.any_eq_true, JsValue.strictEq_str_iff] at h
            obtain ⟨htext, tab, htab, ⟨hview, hpeer⟩, hme⟩ := h
            refine .send ?_ htext
            intro tab' htab'
            obtain rfl : tab = tab' := Option.some.inj (htab.symm.trans htab')
            exact ⟨hview, plainPeer 2, by decide, hpeer, hme, rfl⟩
        | _ => cases h

def confiding : List Retexted :=
  [.page (.load 0), .page (.handleInitialize 0 (js "P") (plainKey 1)),
    .page (.load 1), .page (.handleInitialize 1 (js "C") (plainKey 2)),
    .page (.load 2), .page (.handleInitialize 2 (js "D") (plainKey 3)),
    .connect 0, .connect 1, .connect 2, .recv 0, .recv 1, .recv 2,
    .deliver 0, .deliver 0, .page (.openDirectWith 0 0)].map (·, none) ++
  [(.send 0 (js "yes") 7 (js "x"), some (js "no")), (.recv 0, none)]

theorem private_texts_confined_confiding :
    ∃ w w' : World plainHost,
      (system plainHost).Beside (RegistersInside onePair (· = 1))
        (SameButText onePair) w (confiding.map Retexted.other) ∧
      (system plainHost).run (confiding.map Retexted.other) = some w' ∧
      AlikeWorld onePair (· = 1) w w' ∧
      ((w.sentOn 0).any fun m => m.text.strictEq (.str (js "yes"))) = true ∧
      ((w'.sentOn 0).any fun m => m.text.strictEq (.str (js "no"))) = true ∧
      w'.queued 2 = w.queued 2 ∧ w'.clients.tabs 2 = w.clients.tabs 2 := by
  have hfirst : ((System.mk (initial plainHost) fun w (c : Retexted) =>
      World.step w c.1).exec confidesOnce (initial plainHost) confiding).any (fun w =>
        ((w.sentOn 0).any fun m => m.text.strictEq (.str (js "yes"))) &&
        (w.clients.tabs 2).any fun tab => tab.peerId = plainPeer 3) = true := by
    decide +kernel
  have hsecond : ((system plainHost).run (confiding.map Retexted.other)).all
      (fun w => (w.sentOn 0).any fun m => m.text.strictEq (.str (js "no"))) = true := by
    decide +kernel
  simp only [Option.any_eq_true, Bool.and_eq_true, decide_eq_true_eq] at hfirst
  obtain ⟨w, hrun, hyes, tab, htab, hpeer⟩ := hfirst
  have hbeside := System.Beside.exec (S := system plainHost) Prod.fst Retexted.other
    sameButText_of_confidesOnce .initial hrun
  obtain ⟨w', hrun', halike, -, -, -, hqueued, htabs, -⟩ := private_texts_confined
    plainEd25519_correct (by rintro sender p ⟨-, rfl⟩; decide) hbeside
  rw [List.nil_append] at hbeside hrun'
  rw [hrun'] at hsecond
  refine ⟨w, w', hbeside, hrun', halike, hyes, hsecond, hqueued 2 (by decide), ?_⟩
  rw [htab]
  refine htabs 2 tab htab ?_
  rintro sender recipient ⟨rfl, rfl⟩
  rw [hpeer]
  decide

end World

end CommonChat.Network
