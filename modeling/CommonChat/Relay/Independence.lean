import CommonChat.Relay.Survival
import Mathlib.Data.Set.Insert

/-!
# Independence of sockets

Sockets of one peer share a set that one of them creates and another one
deletes.  Read by sockets, the registry falls apart: the seat of a socket is its
registration together with the peers that it is routed under, and only its own
events move it.  No set stays empty, so the seats determine the registry.
-/

namespace CommonChat.Relay.Server

open CommonChat.Foundation

/-- What the registry holds about one socket. -/
structure Seat where
  registration : Option (JsKey × JsValue × JsValue)
  routes : Set JsKey

def contents (info : PeerInfo) : JsKey × JsValue × JsValue :=
  (info.key, info.peerId, info.displayName)

def seat (r : Server) (s : SocketId) : Seat where
  registration := (r.socketToPeer.get s).map contents
  routes := { peer | r.Routes peer s }

def Seat.advance (seat : Seat) : Action → Seat
  | .register _ data =>
      match registeredName (claimedPeer data) (claimedName data) with
      | .ok name =>
          if (claimedPeer data).truthy then
            ⟨some ((claimedPeer data).key 0, claimedPeer data, name),
              insert ((claimedPeer data).key 0) seat.routes⟩
          else seat
      | .error _ => seat
  | .disconnect _ =>
      match seat.registration with
      | some (peer, _) => ⟨none, seat.routes \ {peer}⟩
      | none => seat
  | _ => seat

def next (r : Server) (a : Action) : Except TypeError Server :=
  (r.handle a).map Prod.fst

def run (r : Server) (events : List Action) : Except TypeError Server :=
  events.foldlM next r

def Action.stringArguments : Action → Prop
  | .register _ data => (∃ p, claimedPeer data = .str p) ∧
      ∃ name, claimedName data = .str name
  | _ => True

theorem next_eq_ok_iff {r r' : Server} {a : Action} :
    r.next a = .ok r' ↔ ∃ emits, r.handle a = .ok (r', emits) := by
  unfold next
  cases r.handle a with
  | error e => simp [Except.map]
  | ok result =>
      obtain ⟨server, emits⟩ := result
      simp [Except.map]

theorem isReadable_of_stringArguments {a : Action} (h : a.stringArguments) :
    a.isReadable = true := by
  cases a with
  | register socket data =>
      obtain ⟨⟨p, hp⟩, name, hname⟩ := h
      have hor : (JsValue.str name).orElse (.str []) = .str name := by
        by_cases hempty : name = []
        · simp [JsValue.orElse, hempty]
        · simp [JsValue.orElse, hempty]
      simp only [Action.isReadable, readable, hname, hor, hp, JsValue.hasSlice]
      simp
  | _ => rfl

/-! ## One event, one seat -/

theorem seat_enroll_self (r : Server) (socket : SocketId) (info : PeerInfo) :
    (r.enroll socket info).seat socket =
      ⟨some (contents info), insert info.key (r.seat socket).routes⟩ := by
  have hroutes : { peer | (r.enroll socket info).Routes peer socket } =
      insert info.key { peer | r.Routes peer socket } := by
    ext peer
    rw [Set.mem_ofPred_eq, routes_enroll_iff, Set.mem_insert_iff, Set.mem_ofPred_eq]
    simp
  simp only [seat, hroutes]
  simp [enroll]

theorem seat_enroll_other (r : Server) {socket s : SocketId} (hs : s ≠ socket)
    (info : PeerInfo) : (r.enroll socket info).seat s = r.seat s := by
  have hroutes : { peer | (r.enroll socket info).Routes peer s } =
      { peer | r.Routes peer s } := by
    ext peer
    rw [Set.mem_ofPred_eq, routes_enroll_iff, Set.mem_ofPred_eq]
    simp [hs]
  simp only [seat, hroutes]
  simp [enroll, hs]

theorem seat_disconnect_self (r : Server) (socket : SocketId) :
    (r.disconnect socket).1.seat socket =
      (r.seat socket).advance (.disconnect socket) := by
  have hget : (r.disconnect socket).1.socketToPeer.get socket = none := by
    simp [socketToPeer_disconnect]
  have hroutes : { peer | (r.disconnect socket).1.Routes peer socket } =
      { peer | r.Routes peer socket ∧ ¬ r.RegisteredAs socket peer } := by
    ext peer
    simp [routes_disconnect_iff]
  simp only [seat, hget, hroutes, Seat.advance]
  cases hinfo : r.socketToPeer.get socket with
  | none => simp [RegisteredAs, hinfo]
  | some info =>
      have hdiff : { peer | r.Routes peer socket ∧ ¬ r.RegisteredAs socket peer } =
          { peer | r.Routes peer socket } \ {info.key} := by
        ext peer
        simp [RegisteredAs, hinfo, eq_comm]
      simp [contents, hdiff]

theorem seat_disconnect_other (r : Server) {socket s : SocketId}
    (hs : s ≠ socket) : (r.disconnect socket).1.seat s = r.seat s := by
  have hroutes : { peer | (r.disconnect socket).1.Routes peer s } =
      { peer | r.Routes peer s } := by
    ext peer
    simp [routes_disconnect_iff, hs]
  simp only [seat, hroutes]
  simp [socketToPeer_disconnect, hs]

theorem seat_localView :
    LocalView next Action.stringArguments Action.socket seat Seat.advance where
  own r a r' hstrings hstep := by
    obtain ⟨emits, hok⟩ := next_eq_ok_iff.mp hstep
    cases a with
    | connect socket =>
        cases hok
        rfl
    | message socket payload =>
        cases hok
        rfl
    | register socket data =>
        obtain ⟨⟨p, hp⟩, -⟩ := hstrings
        rcases register_cases hok with
          ⟨hfalsy, rfl, -⟩ | ⟨name, list, htruthy, hname, rfl, -⟩
        · simp only [Seat.advance, hfalsy]
          split <;> rfl
        · have hkey : (claimedPeer data).key r.allocated = (claimedPeer data).key 0 := by
            rw [hp]
            rfl
          rw [Action.socket, seat_enroll_self]
          simp only [Seat.advance, hname, htruthy, if_true, contents, PeerInfo.key, hkey]
    | disconnect socket =>
        have hnext : (r.disconnect socket).1 = r' :=
          congrArg Prod.fst (Except.ok.inj hok)
        subst hnext
        exact seat_disconnect_self r socket
  other r a r' s _ hstep hs := by
    obtain ⟨emits, hok⟩ := next_eq_ok_iff.mp hstep
    cases a with
    | connect socket =>
        cases hok
        rfl
    | message socket payload =>
        cases hok
        rfl
    | register socket data =>
        rcases register_cases hok with ⟨-, rfl, -⟩ | ⟨name, list, -, -, rfl, -⟩
        · rfl
        · exact seat_enroll_other r hs _
    | disconnect socket =>
        have hnext : (r.disconnect socket).1 = r' :=
          congrArg Prod.fst (Except.ok.inj hok)
        subst hnext
        exact seat_disconnect_other r hs

/-! ## Runs -/

def Occupied (r : Server) : Prop :=
  ∀ peer set, r.peerToSockets.get peer = some set → set.size ≠ 0

theorem Occupied.next {r r' : Server} {a : Action} (h : r.Occupied)
    (hstep : r.next a = .ok r') : r'.Occupied := by
  obtain ⟨emits, hok⟩ := next_eq_ok_iff.mp hstep
  cases a with
  | connect socket =>
      cases hok
      exact h
  | message socket payload =>
      cases hok
      exact h
  | register socket data =>
      rcases register_cases hok with ⟨-, rfl, -⟩ | ⟨name, list, -, -, rfl, -⟩
      · exact h
      · exact nonempty_enroll socket _ h
  | disconnect socket =>
      have hnext : (r.disconnect socket).1 = r' :=
        congrArg Prod.fst (Except.ok.inj hok)
      subst hnext
      exact nonempty_disconnect socket h

theorem exists_run {r : Server} (hnamed : r.Named) (hoccupied : r.Occupied)
    {events : List Action} (h : ∀ a ∈ events, a.stringArguments) :
    ∃ r', r.run events = .ok r' ∧ r'.Occupied := by
  induction events generalizing r with
  | nil => exact ⟨r, rfl, hoccupied⟩
  | cons a rest ih =>
      have hread := isReadable_of_stringArguments (h a List.mem_cons_self)
      obtain ⟨next, emits, hok⟩ := (hnamed.exists_handle_iff a).mpr hread
      have hstep : r.next a = .ok next := next_eq_ok_iff.mpr ⟨emits, hok⟩
      obtain ⟨r', hrun, hr'⟩ := ih (hnamed.handle hok) (hoccupied.next hstep)
        (fun b hb => h b (List.mem_cons_of_mem _ hb))
      refine ⟨r', ?_, hr'⟩
      rw [run, List.foldlM_cons, hstep]
      exact hrun

def socketsOf (r : Server) (peer : JsKey) : Option (Set SocketId) :=
  (r.peerToSockets.get peer).map fun set => { s | s ∈ set }

/-- The two maps agree, up to the order of their entries. -/
structure SameRegistry (r r' : Server) : Prop where
  socketToPeer : ∀ s, (r.socketToPeer.get s).map contents =
    (r'.socketToPeer.get s).map contents
  peerToSockets : ∀ peer, r.socketsOf peer = r'.socketsOf peer

theorem socketsOf_eq_some_iff {r : Server} (h : r.Occupied) (peer : JsKey)
    (sockets : Set SocketId) :
    r.socketsOf peer = some sockets ↔
      sockets.Nonempty ∧ sockets = { s | r.Routes peer s } := by
  unfold socketsOf Routes
  cases hget : r.peerToSockets.get peer with
  | none =>
      simp only [Option.map_none, reduceCtorEq, false_iff, not_and]
      rintro ⟨s, hs⟩ rfl
      obtain ⟨set, hset, -⟩ := hs
      cases hset
  | some set =>
      have hne := h peer set hget
      rw [Ne, InsertionSet.size_eq_zero_iff, not_forall_not] at hne
      simp only [Option.map_some, Option.some.injEq, exists_eq_left']
      constructor
      · rintro rfl
        exact ⟨hne, rfl⟩
      · exact fun heq => heq.2.symm

theorem sameRegistry_of_seats {r r' : Server} (h : r.Occupied)
    (h' : r'.Occupied) (hseats : ∀ s, r.seat s = r'.seat s) :
    r.SameRegistry r' := by
  refine ⟨fun s => congrArg Seat.registration (hseats s), ?_⟩
  intro peer
  have hroutes : { s | r.Routes peer s } = { s | r'.Routes peer s } := by
    ext s
    have hs : { p | r.Routes p s } = { p | r'.Routes p s } :=
      congrArg Seat.routes (hseats s)
    exact Set.ext_iff.mp hs peer
  apply Option.ext
  intro sockets
  rw [socketsOf_eq_some_iff h, socketsOf_eq_some_iff h', hroutes]

/--
The registry depends on the events of each socket in their order, and on nothing
else: not on how the sockets interleave.
-/
theorem sameRegistry_of_interleaving {events events' : List Action}
    (hstrings : ∀ a ∈ events, a.stringArguments)
    (hsame : ∀ s, events.filter (fun a => a.socket = s) =
      events'.filter fun a => a.socket = s) :
    ∃ r r', empty.run events = .ok r ∧ empty.run events' = .ok r' ∧
      r.SameRegistry r' := by
  have hstrings' : ∀ a ∈ events', a.stringArguments := by
    intro a ha
    have hmem : a ∈ events'.filter fun b => b.socket = a.socket := by simpa using ha
    rw [← hsame] at hmem
    exact hstrings a (List.mem_of_mem_filter hmem)
  obtain ⟨r, hrun, hr⟩ := exists_run named_empty (nofun) hstrings
  obtain ⟨r', hrun', hr'⟩ := exists_run named_empty (nofun) hstrings'
  exact ⟨r, r', hrun, hrun', sameRegistry_of_seats hr hr' fun s =>
    seat_localView.view_eq_of_filter_eq hstrings hsame hrun hrun' s⟩

theorem sameRegistry_of_late_registration :
    ∃ r r', empty.run
        [.register 0 (registration (js "alice") (js "A")),
          .register 1 (registration (js "alice") (js "B")), .disconnect 0,
          .register 1 (registration (js "bob") (js "B"))] = .ok r ∧
      empty.run
        [.register 1 (registration (js "alice") (js "B")),
          .register 1 (registration (js "bob") (js "B")),
          .register 0 (registration (js "alice") (js "A")), .disconnect 0] = .ok r' ∧
      r.SameRegistry r' := by
  refine sameRegistry_of_interleaving ?_ ?_
  · intro a ha
    simp only [List.mem_cons, List.not_mem_nil, or_false] at ha
    rcases ha with rfl | rfl | rfl | rfl
    · exact ⟨⟨_, rfl⟩, _, rfl⟩
    · exact ⟨⟨_, rfl⟩, _, rfl⟩
    · exact trivial
    · exact ⟨⟨_, rfl⟩, _, rfl⟩
  · intro s
    by_cases h0 : s = 0
    · subst h0
      rfl
    by_cases h1 : s = 1
    · subst h1
      rfl
    · simp [Action.socket, Ne.symm h0, Ne.symm h1]

end CommonChat.Relay.Server
